import WhuOs.Mem.PageTable
import WhuOs.Mem.Sys
import Mathlib.Data.List.TakeWhile

/-! # Copies between the kernel and a process

The three copy functions translate every user address through the page table and
look at `PTE_V` only. `uvm_copyout` changes the bytes of the range and nothing else,
`uvm_copyin` reads the bytes of the range, `uvm_copyin_str` those up to the first
zero.
-/

namespace WhuOs.Mem

open Prog Bytes

def userAddr (m : Bytes) (r a : Nat) : Nat := pteToPa (leaf m r (a / pgSize)) + a % pgSize

def Present (s : Kernel) (r v : Nat) : Prop := v < vaPages ∧ hasFlag (leaf s.mem r v) pteV = true

/-- The page is mapped to a page that the kernel can write to. -/
def Storable (s : Kernel) (r v : Nat) : Prop :=
  Present s r v ∧ s.etext ≤ pteToPa (leaf s.mem r v)

structure CopiedOut (s : Kernel) (r dst : Nat) (src : KernelSrc) (len : Nat) (m : Bytes) :
    Prop where
  frame : ∀ a, (∀ i < len, a ≠ userAddr s.mem r (dst + i)) → m a = s.mem a
  bytes : ∀ b, src = .object b →
    (∀ v v', Storable s r v → Storable s r v' →
      pteToPa (leaf s.mem r v) = pteToPa (leaf s.mem r v') → v = v') →
    ∀ i < len, m (userAddr s.mem r (dst + i)) = b i

section

variable {g : Ledger} {s : Kernel} {p q r v w n len dst src fuel : Nat} {m : Bytes}
  {G : Event → Prop} {E : Panic → Prop}

/-! ## Writes into a data page -/

theorem Heap.write_page (h : Heap g s) (hq : q % pgSize = 0) (hd : (g.own q).IsData)
    (hm : ∀ a, m a ≠ s.mem a → q ≤ a ∧ a < q + pgSize) : Heap g (s.setMem m) := by
  refine h.write fun p hp hnd i hi => ?_
  by_contra hne
  have hpq : p ≠ q := by
    rintro rfl
    exact hnd hd
  have hin := hm (p + i) hne
  have hap := pages_apart hp hq hpq
  omega

theorem Heap.write_leaf (h : Heap g s) (hl : g.Live r) (hq : q % pgSize = 0) (hd : (g.own q).IsData)
    (hm : ∀ a, m a ≠ s.mem a → q ≤ a ∧ a < q + pgSize) : leaf m r v = leaf s.mem r v := by
  refine h.leaf_frame hl fun p x hp i hi => ?_
  by_contra hne
  have hpq : p ≠ q := by
    rintro rfl
    rw [hp] at hd
    exact hd
  have hin := hm (p + i) hne
  have hap := pages_apart (h.table_page hp).1 hq hpq
  omega

/-! ## User addresses -/

theorem userAddr_congr {m' : Bytes} (h : ∀ v, leaf m' r v = leaf m r v) (a : Nat) :
    userAddr m' r a = userAddr m r a := by
  unfold userAddr
  rw [h]

theorem present_congr (h : ∀ v, leaf m r v = leaf s.mem r v) :
    Present (s.setMem m) r v ↔ Present s r v := by
  unfold Present
  rw [setMem_mem, h]

theorem storable_congr (h : ∀ v, leaf m r v = leaf s.mem r v) :
    Storable (s.setMem m) r v ↔ Storable s r v := by
  unfold Storable
  rw [present_congr h, setMem_mem, h]
  exact Iff.rfl

theorem userPage_sat {null invalid : Panic} {Q : Nat → Kernel → Prop} (h : Heap g s) (hl : g.Live r)
    (hE : ¬ Present s r v → ∀ e, E e) (hQ : Present s r v → Q (pteToPa (leaf s.mem r v)) s) :
    Sat (userPage r (v * pgSize) null invalid) s G Q E := by
  have hdiv : v * pgSize / pgSize = v := Nat.mul_div_cancel v (by decide)
  unfold userPage
  by_cases hv : v < vaPages
  swap
  · unfold vmGetpte
    rw [if_pos (by have := mul_pgSize_lt (v := v); omega), sat_bind, sat_bind, sat_panic]
    exact hE (fun hp => hv hp.1) _
  rw [sat_bind, vmGetpte_sat (mul_pgSize_lt.mpr hv), hdiv, sat_bind]
  cases ht : tableAt s.mem r (lowPos v) with
  | none =>
      have hz : leaf s.mem r v = 0 := by simp [leaf, ht]
      have hnot : ¬ Present s r v := by
        rintro ⟨-, hval⟩
        rw [hz, hasFlag_zero] at hval
        cases hval
      rw [show slot s.mem r v = 0 by simp [slot, ht]]
      exact sat_assert_any (hE hnot _) fun hc => absurd (of_decide_eq_true hc) (by simp)
  | some p =>
      have hpos := (h.table_page (h.low_own hl ht)).2
      have hslot : pteAt p (vpnIndex v 0) ≠ 0 := by
        unfold pteAt
        omega
      have hload : getLE s.mem (pteAt p (vpnIndex v 0)) 8 = leaf s.mem r v := (leaf_eq ht).symm
      rw [slot_eq ht, sat_assert (decide_eq_true hslot), sat_bind, sat_load, hload, sat_bind]
      cases hval : hasFlag (leaf s.mem r v) pteV with
      | false =>
          refine sat_assert_any (hE (fun hp => ?_) _) fun hc => absurd hc (by decide)
          rw [hp.2] at hval
          cases hval
      | true =>
          rw [sat_assert rfl, sat_pure]
          exact hQ ⟨hv, hval⟩

/-! ## Chunks -/

/-- The first bytes of a range lie in its first page. -/
theorem chunk_page {a i n : Nat} (hi : i < chunk a n) :
    (a + i) / pgSize = a / pgSize ∧ (a + i) % pgSize = a % pgSize + i := by
  unfold chunk pgSize at *
  omega

theorem chunk_pos {a : Nat} (h : 0 < len) : 0 < chunk a len := by
  unfold chunk pgSize
  omega

theorem chunk_le (a len : Nat) : chunk a len ≤ len := Nat.min_le_right _ _

theorem chunk_fits (a len : Nat) : a % pgSize + chunk a len ≤ pgSize := by
  unfold chunk pgSize
  omega

/-- A range of mapped pages does not wrap around. -/
theorem chunk_next {a : Nat} (h : a / pgSize < vaPages) :
    u64 (a + chunk a len) = a + chunk a len := by
  refine u64_of_lt ?_
  unfold chunk
  unfold vaPages vaMax pgSize at *
  omega

theorem userAddr_chunk {a i n : Nat} (hi : i < chunk a n) :
    userAddr m r (a + i) = pteToPa (leaf m r (a / pgSize)) + a % pgSize + i := by
  obtain ⟨h1, h2⟩ := chunk_page hi
  unfold userAddr
  rw [h1, h2, Nat.add_assoc]

/-- A condition on the bytes of a range, split after the first page. -/
theorem range_split {P : Nat → Prop} {a : Nat} (hlen : 0 < len) :
    (∀ i < len, P ((a + i) / pgSize)) ↔
      P (a / pgSize) ∧ ∀ i < len - chunk a len, P ((a + chunk a len + i) / pgSize) := by
  have hpos := chunk_pos (a := a) hlen
  have hle := chunk_le a len
  constructor
  · intro h
    refine ⟨?_, fun i hi => ?_⟩
    · have h0 := h 0 hlen
      rwa [Nat.add_zero] at h0
    · rw [Nat.add_assoc]
      exact h _ (by omega)
  · rintro ⟨h0, h1⟩ i hi
    by_cases hc : i < chunk a len
    · rw [(chunk_page hc).1]
      exact h0
    · have hrest := h1 (i - chunk a len) (by omega)
      rwa [show a + chunk a len + (i - chunk a len) = a + i by omega] at hrest

/-! ## `uvm_copyout` -/

/-- The source of the first chunk, as bytes. -/
theorem move_sat {k : KernelSrc} {Q : Unit → Kernel → Prop} (hdst : s.etext ≤ dst)
    (hQ : ∀ b, (∀ b', k = .object b' → b = b') → Q () (s.setMem (splice s.mem dst b n))) :
    Sat (k.move dst n) s G Q E := by
  cases k with
  | memory a =>
      change Sat (memmove dst a n) s G Q E
      rw [sat_memmove hdst]
      exact hQ _ fun b' hb => by cases hb
  | object b =>
      change Sat (storeBytes dst b n) s G Q E
      rw [sat_storeBytes hdst]
      exact hQ b fun b' hb => KernelSrc.object.inj hb

theorem move_fault {k : KernelSrc} {Q : Unit → Kernel → Prop} (hn : 0 < n) (hdst : dst < s.etext)
    (hE : E .storeFault) : Sat (k.move dst n) s G Q E := by
  cases k with
  | memory a =>
      change Sat (memmove dst a n) s G Q E
      unfold memmove
      rw [sat_bind, sat_checkStore_text hn hdst]
      exact hE
  | object b =>
      change Sat (storeBytes dst b n) s G Q E
      unfold storeBytes
      rw [sat_bind, sat_checkStore_text hn hdst]
      exact hE

theorem CopiedOut.nil (s : Kernel) (r dst : Nat) (k : KernelSrc) : CopiedOut s r dst k 0 s.mem :=
  ⟨fun _ _ => rfl, fun _ _ _ i hi => absurd hi (Nat.not_lt_zero i)⟩

/-- One chunk, then the rest of the range. -/
theorem CopiedOut.cons {k : KernelSrc} {b : Bytes} {m' : Bytes} (hst : Storable s r (dst / pgSize))
    (hb : ∀ b', k = .object b' → b = b')
    (hleaf : ∀ v, leaf m r v = leaf s.mem r v)
    (hm : m = splice s.mem (pteToPa (leaf s.mem r (dst / pgSize)) + dst % pgSize) b (chunk dst len))
    (hall : ∀ i < len, Storable s r ((dst + i) / pgSize))
    (h : CopiedOut (s.setMem m) r (dst + chunk dst len) (k.advance (chunk dst len))
      (len - chunk dst len) m') : CopiedOut s r dst k len m' := by
  have hle := chunk_le dst len
  have haddr : ∀ a, userAddr (s.setMem m).mem r a = userAddr s.mem r a := userAddr_congr hleaf
  refine ⟨fun a ha => ?_, fun b' hk hinj i hi => ?_⟩
  · have hrest : m' a = m a := by
      refine h.frame a fun i hi => ?_
      rw [haddr, Nat.add_assoc]
      exact ha _ (by omega)
    rw [hrest, hm]
    refine splice_out ?_
    by_contra hc
    refine ha (a - (pteToPa (leaf s.mem r (dst / pgSize)) + dst % pgSize)) (by omega) ?_
    rw [userAddr_chunk (n := len) (by omega)]
    omega
  · obtain rfl := hb b' hk
    subst hk
    by_cases hc : i < chunk dst len
    · -- a byte of the first page; the rest of the range is behind other frames
      have hkeep : m' (userAddr s.mem r (dst + i)) = m (userAddr s.mem r (dst + i)) := by
        refine h.frame _ fun j hj he => ?_
        rw [haddr] at he
        have hj' := hall (chunk dst len + j) (by omega)
        rw [← Nat.add_assoc] at hj'
        have hne : (dst + chunk dst len + j) / pgSize ≠ dst / pgSize := by
          unfold chunk pgSize at *
          omega
        have hfr : pteToPa (leaf s.mem r ((dst + chunk dst len + j) / pgSize)) ≠
            pteToPa (leaf s.mem r (dst / pgSize)) := fun hq => hne (hinj _ _ hj' hst hq)
        have hap := pages_apart (pteToPa_aligned _) (pteToPa_aligned _) hfr
        rw [userAddr_chunk hc] at he
        unfold userAddr at he
        have h1 := chunk_fits dst len
        have h2 : (dst + chunk dst len + j) % pgSize < pgSize := Nat.mod_lt _ (by decide)
        omega
      rw [hkeep, userAddr_chunk hc, hm, splice_in (by omega) (by omega), Nat.add_sub_cancel_left]
    · have hrest := h.bytes (window b (chunk dst len)) rfl (fun v v' hv hv' he => ?_)
        (i - chunk dst len) (by omega)
      · rw [haddr, show dst + chunk dst len + (i - chunk dst len) = dst + i by omega] at hrest
        rw [hrest]
        unfold window
        rw [show chunk dst len + (i - chunk dst len) = i by omega]
      · rw [setMem_mem, hleaf, hleaf] at he
        exact hinj v v' ((storable_congr hleaf).mp hv) ((storable_congr hleaf).mp hv') he

theorem copyoutLoop_sat {k : KernelSrc} {Q : Unit → Kernel → Prop} (fuel : Nat) (h : Heap g s)
    (hl : g.Live r) (htext : s.etext % pgSize = 0) (hfuel : len ≤ fuel)
    (hdata : ∀ v, Storable s r v → (g.own (pteToPa (leaf s.mem r v))).IsData)
    (hE : ¬ (∀ i < len, Storable s r ((dst + i) / pgSize)) → ∀ e, E e)
    (hQ : (∀ i < len, Storable s r ((dst + i) / pgSize)) →
      ∀ m, CopiedOut s r dst k len m → Q () (s.setMem m)) :
    Sat (copyoutLoop r fuel dst k len) s G Q E := by
  induction fuel generalizing s dst len k with
  | zero =>
      obtain rfl : len = 0 := Nat.le_zero.mp hfuel
      rw [copyoutLoop, sat_pure]
      exact hQ (fun i hi => by omega) s.mem (.nil s r dst k)
  | succ fuel ih =>
      unfold copyoutLoop
      by_cases hz : len = 0
      · subst hz
        rw [if_neg (Nat.lt_irrefl 0), sat_pure]
        exact hQ (fun i hi => by omega) s.mem (.nil s r dst k)
      have hpos : 0 < len := Nat.pos_of_ne_zero hz
      rw [range_split hpos] at hE hQ
      rw [if_pos hpos, sat_bind]
      refine userPage_sat h hl (fun hn => hE fun hc => hn hc.1.1) fun hp => ?_
      rw [sat_bind]
      have hcpos := chunk_pos (a := dst) hpos
      have hfits := chunk_fits dst len
      have hqa := pteToPa_aligned (leaf s.mem r (dst / pgSize))
      by_cases hst : Storable s r (dst / pgSize)
      swap
      · -- the page is kernel text
        have hlt : pteToPa (leaf s.mem r (dst / pgSize)) < s.etext :=
          Nat.not_le.mp fun hc => hst ⟨hp, hc⟩
        refine move_fault hcpos ?_ (hE (fun hc => hst hc.1) _)
        unfold pgSize at *
        omega
      refine move_sat (Nat.le_trans hst.2 (Nat.le_add_right _ _)) fun b hb => ?_
      have hin : ∀ a, splice s.mem (pteToPa (leaf s.mem r (dst / pgSize)) + dst % pgSize) b
          (chunk dst len) a ≠ s.mem a → pteToPa (leaf s.mem r (dst / pgSize)) ≤ a ∧
            a < pteToPa (leaf s.mem r (dst / pgSize)) + pgSize := by
        intro a hne
        by_contra hc
        exact hne (splice_out (by omega))
      have hleaf : ∀ v, leaf (splice s.mem (pteToPa (leaf s.mem r (dst / pgSize)) + dst % pgSize) b
          (chunk dst len)) r v = leaf s.mem r v :=
        fun v => h.write_leaf hl hqa (hdata _ hst) hin
      rw [chunk_next hp.1]
      refine ih (h.write_page hqa (hdata _ hst) hin) htext (by omega)
        (fun v hv => ?_) (fun hbad => hE ?_)
        fun hall m hm => ?_
      · rw [setMem_mem, hleaf]
        exact hdata v ((storable_congr hleaf).mp hv)
      · exact fun hc => hbad fun i hi => (storable_congr hleaf).mpr (hc.2 i hi)
      · have hall' : ∀ i < len - chunk dst len, Storable s r ((dst + chunk dst len + i) / pgSize) :=
          fun i hi => (storable_congr hleaf).mp (hall i hi)
        refine hQ ⟨hst, hall'⟩ m (.cons hst hb hleaf rfl ?_ hm)
        exact (range_split hpos).mpr ⟨hst, hall'⟩

/-! ## `uvm_copyin` -/

theorem range_map_split {β : Type} {f : Nat → β} (h : n ≤ len) :
    (List.range len).map f = (List.range n).map f ++ (List.range (len - n)).map
    fun i => f (n + i) := by
  obtain ⟨k, rfl⟩ := Nat.exists_eq_add_of_le h
  rw [List.range_add, List.map_append, List.map_map, Nat.add_sub_cancel_left]
  rfl

def userBytes (m : Bytes) (r src len : Nat) : List UInt8 :=
  (List.range len).map fun i => m (userAddr m r (src + i))

theorem userBytes_split :
    userBytes m r src len =
      ((List.range (chunk src len)).map fun i =>
        m (pteToPa (leaf m r (src / pgSize)) + src % pgSize + i)) ++
        userBytes m r (src + chunk src len) (len - chunk src len) := by
  have hfirst : ((List.range (chunk src len)).map fun i => m (userAddr m r (src + i)))
      = (List.range (chunk src len)).map fun i =>
        m (pteToPa (leaf m r (src / pgSize)) + src % pgSize + i) := by
    refine List.map_congr_left fun i hi => ?_
    rw [userAddr_chunk (List.mem_range.mp hi)]
  unfold userBytes
  rw [range_map_split (chunk_le src len), hfirst]
  simp only [Nat.add_assoc]

theorem copyinVarLoop_sat {Q : List UInt8 → Kernel → Prop} (fuel : Nat)
    (h : Heap g s) (hl : g.Live r)
    (hfuel : len ≤ fuel)
    (hE : ¬ (∀ i < len, Present s r ((src + i) / pgSize)) → ∀ e, E e)
    (hQ : (∀ i < len, Present s r ((src + i) / pgSize)) → Q (userBytes s.mem r src len) s) :
    Sat (copyinVarLoop r fuel src len) s G Q E := by
  induction fuel generalizing src len Q with
  | zero =>
      obtain rfl : len = 0 := Nat.le_zero.mp hfuel
      rw [copyinVarLoop, sat_pure]
      exact hQ fun i hi => absurd hi (Nat.not_lt_zero i)
  | succ fuel ih =>
      unfold copyinVarLoop
      by_cases hz : len = 0
      · subst hz
        rw [if_neg (Nat.lt_irrefl 0), sat_pure]
        exact hQ fun i hi => absurd hi (Nat.not_lt_zero i)
      have hpos : 0 < len := Nat.pos_of_ne_zero hz
      rw [range_split hpos] at hE hQ
      rw [if_pos hpos, sat_bind]
      refine userPage_sat h hl (fun hn => hE fun hc => hn hc.1) fun hp => ?_
      have hcpos := chunk_pos (a := src) hpos
      rw [sat_bind, sat_state, sat_bind, chunk_next hp.1]
      refine ih ?_ (fun hbad => hE fun hc => hbad hc.2) fun hall => ?_
      · omega
      · rw [sat_pure, ← userBytes_split]
        exact hQ ⟨hp, hall⟩

theorem uvmCopyinVar_sat {Q : List UInt8 → Kernel → Prop} (h : Heap g s) (hl : g.Live r)
    (hE : ¬ (∀ i < len, Present s r ((src + i) / pgSize)) → ∀ e, E e)
    (hQ : (∀ i < len, Present s r ((src + i) / pgSize)) → Q (userBytes s.mem r src len) s) :
    Sat (uvmCopyinVar r src len) s G Q E :=
  copyinVarLoop_sat len h hl (Nat.le_refl len) hE hQ

/-! ## `uvm_copyin_str` -/

/-- The bytes that a string copy looks at: those behind non-zero ones. -/
def Looked (m : Bytes) (r src len i : Nat) : Prop :=
  i < len ∧ ∀ j < i, m (userAddr m r (src + j)) ≠ 0

def userString (m : Bytes) (r src len : Nat) : List UInt8 :=
  (userBytes m r src len).takeWhile (· ≠ 0)

/-- No zero in the first page: the scan goes on behind it. -/
theorem looked_next {i : Nat}
    (hz : ∀ j < chunk src len, m (userAddr m r (src + j)) ≠ 0)
    (hi : Looked m r (src + chunk src len) (len - chunk src len) i) :
    Looked m r src len (chunk src len + i) := by
  refine ⟨by have := hi.1; omega, fun j hj => ?_⟩
  by_cases hc : j < chunk src len
  · exact hz j hc
  · have hrest := hi.2 (j - chunk src len) (by omega)
    rwa [show src + chunk src len + (j - chunk src len) = src + j by omega] at hrest

theorem looked_split {P : Nat → Prop} (h0 : P (src / pgSize))
    (h : ∀ i, Looked m r (src + chunk src len) (len - chunk src len) i →
      P ((src + chunk src len + i) / pgSize)) :
    ∀ i, Looked m r src len i → P ((src + i) / pgSize) := by
  intro i hi
  by_cases hc : i < chunk src len
  · rw [(chunk_page hc).1]
    exact h0
  · have hle := chunk_le src len
    have hrest := h (i - chunk src len) ⟨by have := hi.1; omega, fun j hj => ?_⟩
    · rwa [show src + chunk src len + (i - chunk src len) = src + i by omega] at hrest
    · rw [Nat.add_assoc]
      exact hi.2 _ (by omega)

theorem looked_first (hpos : 0 < len) : Looked m r src len 0 :=
  ⟨hpos, fun j hj => absurd hj (Nat.not_lt_zero j)⟩

/-- The first page holds a zero: nothing behind it is looked at. -/
theorem looked_found {j : Nat} (hj : j < chunk src len)
    (hz : m (userAddr m r (src + j)) = 0) {i : Nat}
    (hi : Looked m r src len i) : (src + i) / pgSize = src / pgSize := by
  refine (chunk_page (n := len) ?_).1
  by_contra hc
  exact hi.2 j (by omega) hz

theorem copyinStrVarLoop_sat {Q : List UInt8 → Kernel → Prop} (fuel : Nat)
    (h : Heap g s) (hl : g.Live r)
    (hfuel : len ≤ fuel)
    (hE : ¬ (∀ i, Looked s.mem r src len i → Present s r ((src + i) / pgSize)) → ∀ e, E e)
    (hQ : (∀ i, Looked s.mem r src len i → Present s r ((src + i) / pgSize)) →
      Q (userString s.mem r src len) s) :
    Sat (copyinStrVarLoop r fuel src len) s G Q E := by
  induction fuel generalizing src len Q with
  | zero =>
      obtain rfl : len = 0 := Nat.le_zero.mp hfuel
      rw [copyinStrVarLoop, sat_pure]
      exact hQ fun i hi => absurd hi.1 (Nat.not_lt_zero i)
  | succ fuel ih =>
      unfold copyinStrVarLoop
      by_cases hz : len = 0
      · subst hz
        rw [if_neg (Nat.lt_irrefl 0), sat_pure]
        exact hQ fun i hi => absurd hi.1 (Nat.not_lt_zero i)
      have hpos : 0 < len := Nat.pos_of_ne_zero hz
      have hcpos := chunk_pos (a := src) hpos
      rw [if_pos hpos, sat_bind]
      refine userPage_sat h hl (fun hn => hE fun hc => hn ?_) fun hp => ?_
      · have h0 := hc 0 (looked_first hpos)
        rwa [Nat.add_zero] at h0
      rw [sat_bind, sat_state]
      have hmap : ((List.range (chunk src len)).map fun i =>
          s.mem (pteToPa (leaf s.mem r (src / pgSize)) + src % pgSize + i))
          = (List.range (chunk src len)).map fun i => s.mem (userAddr s.mem r (src + i)) := by
        refine List.map_congr_left fun i hi => ?_
        rw [userAddr_chunk (List.mem_range.mp hi)]
      by_cases h0 : (0 : UInt8) ∈ (List.range (chunk src len)).map fun i =>
          s.mem (pteToPa (leaf s.mem r (src / pgSize)) + src % pgSize + i)
      · rw [if_pos h0, sat_pure]
        have hs : userString s.mem r src len = ((List.range (chunk src len)).map fun i =>
            s.mem (pteToPa (leaf s.mem r (src / pgSize)) + src % pgSize + i)).takeWhile (· ≠ 0) := by
          unfold userString
          rw [userBytes_split, List.takeWhile_append]
          rw [if_neg]
          intro hlen
          have hall := List.takeWhile_eq_self_iff.mp
            ((List.takeWhile_prefix fun x : UInt8 => x ≠ 0).eq_of_length hlen)
          exact absurd (hall 0 h0) (by decide)
        rw [← hs]
        rw [hmap] at h0
        obtain ⟨j, hj, hjz⟩ := List.mem_map.mp h0
        refine hQ fun i hi => ?_
        rw [looked_found (List.mem_range.mp hj) hjz hi]
        exact hp
      · have hnz : ∀ j < chunk src len, s.mem (userAddr s.mem r (src + j)) ≠ 0 := by
          intro j hj hz
          rw [hmap] at h0
          exact h0 (List.mem_map.mpr ⟨j, List.mem_range.mpr hj, hz⟩)
        rw [if_neg h0, sat_bind, chunk_next hp.1]
        refine ih ?_ (fun hbad => hE fun hc => hbad fun i hi => ?_) fun hall => ?_
        · omega
        · have hn := hc _ (looked_next hnz hi)
          rwa [← Nat.add_assoc] at hn
        · rw [sat_pure]
          have hs : userString s.mem r src len = ((List.range (chunk src len)).map fun i =>
              s.mem (pteToPa (leaf s.mem r (src / pgSize)) + src % pgSize + i)) ++
                userString s.mem r (src + chunk src len) (len - chunk src len) := by
            unfold userString
            rw [userBytes_split, List.takeWhile_append_of_pos fun b hb => ?_]
            refine decide_eq_true ?_
            rintro rfl
            exact h0 hb
          rw [← hs]
          exact hQ (looked_split hp hall)

theorem uvmCopyinStrVar_sat {Q : List UInt8 → Kernel → Prop} (h : Heap g s) (hl : g.Live r)
    (hE : ¬ (∀ i, Looked s.mem r src len i → Present s r ((src + i) / pgSize)) → ∀ e, E e)
    (hQ : (∀ i, Looked s.mem r src len i → Present s r ((src + i) / pgSize)) →
      Q (userString s.mem r src len) s) :
    Sat (uvmCopyinStrVar r src len) s G Q E :=
  copyinStrVarLoop_sat len h hl (Nat.le_refl len) hE hQ

/-! ## `uvm_copyin_str` into a page of the kernel -/

def Inside (q : Nat) (m m' : Bytes) : Prop := ∀ a, m' a ≠ m a → q ≤ a ∧ a < q + pgSize

theorem Inside.refl (q : Nat) (m : Bytes) : Inside q m m := fun _ hne => absurd rfl hne

theorem Inside.trans {m' m'' : Bytes} (h : Inside q m m') (h' : Inside q m' m'') : Inside q m m'' := by
  intro a hne
  by_cases hm : m' a = m a
  · exact h' a (hm.symm ▸ hne)
  · exact h a hm

theorem inside_splice {b : Bytes} {d : Nat} (h1 : q ≤ d) (h2 : d + n ≤ q + pgSize) :
    Inside q m (splice m d b n) := by
  intro a hne
  by_contra hc
  exact hne (splice_out (by omega))

theorem copyinStrPage_sat {i srcPtr : Nat} {Q : Bool × Nat → Kernel → Prop} (htext : s.etext ≤ q)
    (hq : q ≤ dst) (hfit : dst + i + n ≤ q + pgSize)
    (hQ : ∀ found j m, i ≤ j → j ≤ i + n → (found = false → j = i + n) → Inside q s.mem m →
      Q (found, j) (s.setMem m)) :
    Sat (copyinStrPage dst srcPtr n i) s G Q E := by
  induction n generalizing s i with
  | zero =>
      rw [copyinStrPage, sat_pure]
      exact hQ false i s.mem (Nat.le_refl i) (Nat.le_refl _) (fun _ => rfl) (.refl q _)
  | succ n ih =>
      have hin : Inside q s.mem (splice s.mem (dst + i) (fun _ => s.mem (srcPtr + i)) 1) :=
        inside_splice (by omega) (by omega)
      unfold copyinStrPage
      rw [sat_bind, sat_loadByte, sat_bind, sat_storeByte (by omega)]
      by_cases hz : s.mem (srcPtr + i) = 0
      · rw [if_pos hz, sat_pure]
        exact hQ true i _ (Nat.le_refl i) (Nat.le_add_right _ _) (fun hc => absurd hc (by decide)) hin
      · rw [if_neg hz]
        refine ih htext (by omega) fun found j m h1 h2 h3 hm => ?_
        exact hQ found j m (by omega) (by omega) (fun hf => by have := h3 hf; omega) (hin.trans hm)

theorem copyinStrLoop_sat {Q : Bool × Nat → Kernel → Prop} (fuel : Nat)
    (h : Heap g s) (hl : g.Live r)
    (hqa : q % pgSize = 0) (hd : (g.own q).IsData) (htext : s.etext ≤ q) (hq : q ≤ dst)
    (hfit : dst + len ≤ q + pgSize) (hE : ∀ e, E e)
    (hQ : ∀ x m, Inside q s.mem m → Q x (s.setMem m)) :
    Sat (copyinStrLoop r fuel dst src len) s G Q E := by
  induction fuel generalizing s dst src len with
  | zero =>
      rw [copyinStrLoop, sat_pure]
      exact hQ _ s.mem (.refl q _)
  | succ fuel ih =>
      unfold copyinStrLoop
      by_cases hpos : len > 0
      swap
      · rw [if_neg hpos, sat_pure]
        exact hQ _ s.mem (.refl q _)
      rw [if_pos hpos, sat_bind]
      refine userPage_sat h hl (fun _ => hE) fun _ => ?_
      have hle := chunk_le src len
      rw [sat_bind]
      refine copyinStrPage_sat htext hq (by omega) fun found j m h1 h2 h3 hm => ?_
      dsimp only
      cases found with
      | true =>
          rw [if_pos rfl, sat_pure]
          exact hQ _ m hm
      | false =>
          have hj := h3 rfl
          rw [if_neg (by decide)]
          refine ih (h.write_page hqa hd hm) htext (by omega) ?_ fun x m' hm' => ?_
          · omega
          · exact hQ x m' (hm.trans hm')

/-- The string goes into page `q`; a string without end also clears the byte before the page. -/
theorem uvmCopyinStr_sat {Q : Unit → Kernel → Prop} (h : Heap g s) (hl : g.Live r)
    (hqa : q % pgSize = 0) (hd : (g.own q).IsData) (htext : s.etext ≤ q)
    (hpos : 0 < q) (hlt : q < physTop)
    (hE : ∀ e, E e)
    (hQ : ∀ m, Inside q s.mem m → Q () (s.setMem m) ∧
      (s.etext ≤ q - 1 → Q () (s.setMem (splice m (q - 1) (fun _ => 0) 1)))) :
    Sat (uvmCopyinStr r q src pgSize) s G Q E := by
  unfold uvmCopyinStr
  rw [sat_bind]
  refine copyinStrLoop_sat pgSize h hl hqa hd htext (Nat.le_refl q) (Nat.le_refl _) hE fun x m hm =>
    ?_
  obtain ⟨found, left⟩ := x
  dsimp only
  by_cases hc : (!found) = true ∧ left = 0
  · have hsub : sub64 (u64 (q + left)) 1 = q - 1 := by
      rw [hc.2, Nat.add_zero]
      unfold sub64 u64
      unfold physTop at hlt
      omega
    rw [if_pos hc, hsub]
    by_cases ht : s.etext ≤ q - 1
    · rw [sat_storeByte (s := s.setMem m) ht]
      exact (hQ m hm).2 ht
    · unfold storeByte
      rw [sat_bind, sat_checkStore_text Nat.one_pos (by exact Nat.not_le.mp ht)]
      exact hE _
  · rw [if_neg hc, sat_pure]
    exact (hQ m hm).1

end

end WhuOs.Mem
