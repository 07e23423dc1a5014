import WhuOs.Mem.UserPages
import WhuOs.Mem.Calls

/-! # The heap and its top

`uvm_heap_grow` and `uvm_heap_ungrow` move the top of the heap by bytes and map and
unmap whole pages. After every call the pages below the rounded top are mapped, those
above it are not, and nothing else changed.
-/

namespace WhuOs.Mem

open Prog Bytes

def heapEnd (top : Nat) : Nat := pgRoundUp top / pgSize

/-- The pages `v, ..., v + n - 1` were mapped to new pages full of zeros. -/
structure Grew (r v n : Nat) (H : Nat → Prop) (g : Ledger) (s : Kernel) (g' : Ledger)
    (s' : Kernel) : Prop where
  holds : Holds g' s' r fun w => H w ∨ v ≤ w ∧ w < v + n
  leaf : ∀ w < vaPages, ¬ (v ≤ w ∧ w < v + n) → leaf s'.mem r w = leaf s.mem r w
  zero : ∀ w, v ≤ w → w < v + n → ∀ i < pgSize, s'.mem (pteToPa (Mem.leaf s'.mem r w) + i) = 0
  flags : ∀ w, v ≤ w → w < v + n → pteFlags (Mem.leaf s'.mem r w) = pteR ||| pteW ||| pteU ||| pteV
  kept : ∀ w, H w →
    ∀ i < pgSize, s'.mem (pteToPa (Mem.leaf s.mem r w) + i) =
      s.mem (pteToPa (Mem.leaf s.mem r w) + i)
  user : (g.free false).length = (g'.free false).length + n
  rest : s'.rest = s.rest

/-- The pages `v, ..., v + n - 1` were unmapped and their frames given back. -/
structure Shrank (r v n : Nat) (H : Nat → Prop) (g : Ledger) (s : Kernel) (g' : Ledger)
    (s' : Kernel) : Prop where
  holds : Holds g' s' r fun w => H w ∧ ¬ (v ≤ w ∧ w < v + n)
  leaf : ∀ w < vaPages, leaf s'.mem r w = if v ≤ w ∧ w < v + n then 0 else leaf s.mem r w
  kept : ∀ w, H w → ¬ (v ≤ w ∧ w < v + n) → ∀ i < pgSize,
    s'.mem (pteToPa (Mem.leaf s.mem r w) + i) = s.mem (pteToPa (Mem.leaf s.mem r w) + i)
  freed : ∀ w, v ≤ w → w < v + n → pteToPa (Mem.leaf s.mem r w) ∈ g'.free false
  grows : ∀ q ∈ g.free false, q ∈ g'.free false
  user : (g'.free false).length = (g.free false).length + n
  rest : s'.rest = s.rest

def InHeap (top v : Nat) : Prop := 1 ≤ v ∧ v < heapEnd top

/-- A valid entry whose frame is a page of the user region, not free and not a table. -/
structure OwnFrame (s : Kernel) (r e : Nat) : Prop where
  valid : hasFlag e pteV = true
  user : Managed s (pteToPa e) ∧ inKernelOf s (pteToPa e) = false
  taken : ¬ IsFree s (pteToPa e)
  frame : ¬ IsTable s.mem r (pteToPa e)

/-- A page table whose heap ends at `top`. The heap may reach page `limit`: up to there no other
page is mapped, and there is a free user page for each of them. -/
structure HeapTracks (s : Kernel) (r top limit : Nat) : Prop where
  range : pgSize ≤ top ∧ top < trapframeVa
  reach : heapEnd top ≤ limit ∧ limit ≤ trapframeVpn
  table : TableOk s r
  mapped : ∀ v, InHeap top v → OwnFrame s r (leaf s.mem r v)
  distinct : ∀ v w, InHeap top v → InHeap top w →
    pteToPa (leaf s.mem r v) = pteToPa (leaf s.mem r w) → v = w
  clear : ∀ v, heapEnd top ≤ v → v < limit → translate s.mem r v = none
  enough : ∃ l, Pools s l ∧ limit ≤ heapEnd top + (l false).length

inductive HeapOp where
  | grow (len : Nat)
  | ungrow (len : Nat)

def HeapOp.run (r top : Nat) : HeapOp → MemM Nat
  | .grow len => uvmHeapGrow r top len
  | .ungrow len => uvmHeapUngrow r top len

def HeapOp.next (top : Nat) : HeapOp → Nat
  | .grow len => top + len
  | .ungrow len => top - len

/-- The length is a `uint32`, and the new top is in its range. -/
def HeapOp.Allowed (top limit : Nat) : HeapOp → Prop
  | .grow len => len < 2 ^ 32 ∧ top + len < trapframeVa ∧ heapEnd (top + len) ≤ limit
  | .ungrow len => len < 2 ^ 32 ∧ pgSize + len ≤ top

/-- Calls in order, each with the top that the one before returned. -/
inductive HeapRun (r limit : Nat) (s₀ : Kernel) (top₀ : Nat) : List HeapOp → Kernel → Nat → Prop
  | nil : HeapRun r limit s₀ top₀ [] s₀ top₀
  | call {ops : List HeapOp} {s s' : Kernel} {top res : Nat} {op : HeapOp}
      (before : HeapRun r limit s₀ top₀ ops s top)
      (allowed : op.Allowed top limit) (run : (op.run r top s).1 = .ok (res, s')) :
      HeapRun r limit s₀ top₀ (ops ++ [op]) s' res

/-- A call moved the top from `top` to `res`. -/
structure HeapMoved (r top limit : Nat) (s : Kernel) (res : Nat) (s' : Kernel) : Prop where
  tracks : HeapTracks s' r res limit
  new : ∀ v, InHeap res v → ¬ InHeap top v →
    ∀ i < pgSize, s'.mem (pteToPa (leaf s'.mem r v) + i) = 0
  kept : ∀ v, InHeap top v → InHeap res v → leaf s'.mem r v = leaf s.mem r v ∧
    ∀ i < pgSize, s'.mem (pteToPa (leaf s.mem r v) + i) = s.mem (pteToPa (leaf s.mem r v) + i)
  freed : ∀ v, InHeap top v → ¬ InHeap res v → translate s'.mem r v = none ∧
    ∃ l, Pools s' l ∧ pteToPa (leaf s.mem r v) ∈ l false
  others : ∀ v < vaPages, ¬ InHeap top v → ¬ InHeap res v → leaf s'.mem r v = leaf s.mem r v

section

variable {g g₁ g' : Ledger} {s s₁ s' : Kernel} {q r v w n i perm : Nat} {H : Nat → Prop} {m : Bytes}
  {G : Event → Prop} {E : Panic → Prop}

/-! ## The loop of `uvm_heap_grow` -/

theorem Grew.refl (h : Holds g s r H) : Grew r v 0 H g s g s :=
  ⟨h.anti fun w hw => hw.resolve_right (by omega), fun _ _ _ =>
    rfl, fun w h1 h2 => by omega, fun w h1 h2 => by omega,
    fun _ _ _ _ => rfl, rfl, rfl⟩

/-- One more page in front. -/
theorem PageAdded.grew {k : Nat} (h : PageAdded r v q (pteR ||| pteW ||| pteU) k m H g s g₁ s₁)
    (hv : v < vaPages)
    (hnew : ¬ H v) (hzero : ∀ i < pgSize, m (q + i) = 0)
    (h' : Grew r (v + 1) n (fun w => H w ∨ w = v) g₁ s₁ g' s') :
    Grew r v (n + 1) H g s g' s' := by
  have hlt64 : q < 2 ^ 64 := Nat.lt_trans h.frame.2.1 (by decide)
  have hlv : Mem.leaf s₁.mem r v = mapPte q (pteR ||| pteW ||| pteU) 0 := by
    rw [h.leaf v hv, if_pos rfl]
  have hlv' : Mem.leaf s'.mem r v = Mem.leaf s₁.mem r v := h'.leaf v hv (by omega)
  have hpa : pteToPa (mapPte q (pteR ||| pteW ||| pteU) 0) = q :=
    mapPte_pa h.frame.1 hlt64 (by decide)
  refine ⟨h'.holds.anti fun w hw => ?_, fun w hw hn => ?_, fun w h1 h2 i hi => ?_, fun w h1 h2 =>
    ?_, fun w hw i hi => ?_, ?_,
    h'.rest.trans h.rest⟩
  · rcases hw with hw | hw
    · exact .inl (.inl hw)
    · by_cases hwv : w = v
      · exact .inl (.inr hwv)
      · exact .inr (by omega)
  · rw [h'.leaf w hw (by omega), h.leaf w hw, if_neg (by omega)]
  · by_cases hwv : w = v
    · subst hwv
      have hk := h'.kept w (.inr rfl) i hi
      rw [hlv, hpa] at hk
      rw [hlv', hlv, hpa, hk, h.filled i hi]
      exact hzero i hi
    · exact h'.zero w (by omega) (by omega) i hi
  · by_cases hwv : w = v
    · subst hwv
      rw [hlv', hlv]
      exact (mapPte_flags (by decide) 0).2
    · exact h'.flags w (by omega) (by omega)
  · have hwv : w ≠ v := fun he => hnew (he ▸ hw)
    have hk := h'.kept w (.inl hw) i hi
    rw [h.leaf w (h.holds.page w (.inl hw)).below, if_neg hwv] at hk
    rw [hk, h.kept w hw i hi]
  · have h1 := h.user
    have h2 := h'.user
    omega

/-- Bound on the table pages that `n` new pages from `v` on need. -/
def growTables (m : Bytes) (r v n : Nat) : Nat := if n = 0 then 0 else tablesFor m r v (n - 1)

theorem growTables_page (m : Bytes) (r v n : Nat) :
    tablesFor m r v 0 ≤ growTables m r v (n + 1) := by
  unfold growTables
  rw [if_neg (Nat.succ_ne_zero n), Nat.add_sub_cancel]
  unfold tablesFor
  omega

/-- What is left to pay when the first page is mapped. -/
theorem growTables_next {m m' : Bytes} (h : (tableAt m' r (lowPos v)).isSome) :
    tablesFor m r v 0 + growTables m' r (v + 1) n ≤ growTables m r v (n + 1) := by
  cases n with
  | zero => exact growTables_page m r v 0
  | succ n =>
      have hnext := tablesFor_next (n := n) h
      unfold growTables
      rw [if_neg (Nat.succ_ne_zero n), if_neg (Nat.succ_ne_zero _),
        Nat.add_sub_cancel, Nat.add_sub_cancel]
      unfold tablesFor at *
      omega

/-- The new page has its table. -/
theorem PageAdded.table {perm k : Nat}
    (h : PageAdded r v q perm k m H g s g' s') (hv : v < vaPages) :
    (tableAt s'.mem r (lowPos v)).isSome := by
  obtain ⟨p, hp⟩ := leaf_ne_zero (m := s'.mem) (r := r) (v := v) fun hz => by
    have hleaf := h.leaf v hv
    rw [if_pos rfl, hz] at hleaf
    exact absurd (Nat.or_eq_zero_iff.mp hleaf.symm).2 (by decide)
  rw [hp]
  rfl

theorem growLoop_grew {start : Nat} (h : Holds g s r H) (ha : start % pgSize = 0)
    (hlt : start + i * pgSize < 2 ^ 64)
    (hn : i + n ≤ 2 ^ 20) (hmax : start / pgSize + i + n ≤ vaPages)
    (hfree : n ≤ (g.free false).length)
    (hnew : ∀ w, start / pgSize + i ≤ w → w < start / pgSize + i + n → ¬ H w) :
    Sat (growLoop r start n i) s G (fun _ s' => ∃ g', Grew r (start / pgSize + i) n H g s g' s')
      fun e => e = .vmMappagesOom ∧
      (g.free true).length < growTables s.mem r (start / pgSize + i) n := by
  induction n generalizing g s H i with
  | zero => exact (sat_pure ()).mpr ⟨g, .refl h⟩
  | succ n ih =>
      have hv : start / pgSize + i < vaPages := by omega
      have hnv : ¬ H (start / pgSize + i) := hnew _ (Nat.le_refl _) (by omega)
      unfold growLoop
      refine (pmemAlloc_heap h.heap false (u := .frame r (start / pgSize + i)) trivial).bind
        fun q s₁ hall => ?_
      obtain ⟨g₁, hg⟩ := hall
      have hq : q ≠ 0 := by
        rintro rfl
        cases hg with
        | none hempty =>
            rw [hempty] at hfree
            exact absurd hfree (Nat.not_succ_le_zero n)
        | some pos => exact absurd pos (Nat.lt_irrefl 0)
      have hcost := growTables_page s.mem r (start / pgSize + i) n
      rw [sat_bind, sat_assert (decide_eq_true hq), sat_bind, sat_clearPage,
        page_address ha (by omega) hlt]
      refine Sat.bind
        ((h.mapNew hg hq (fun a hne => ?_) (by decide) (by decide) hv).mono
          (fun _ _ hp => hp) fun e he => ?_)
        fun _ s₂ hmap => ?_
      · by_contra hc
        exact hne (splice_out (by omega))
      · exact ⟨he.1, by omega⟩
      · obtain ⟨g₂, hp⟩ := hmap
        have hu := hp.user
        have hk := hp.used
        have hcover : ∀ w, start / pgSize + i + 1 ≤ w → w < start / pgSize + i + 1 + n →
            ¬ (H w ∨ w = start / pgSize + i) := by
          rintro w h1 h2 (hw | rfl)
          · exact hnew w (by omega) (by omega) hw
          · omega
        have hstep : start / pgSize + (i + 1) = start / pgSize + i + 1 := by omega
        have hloop := ih (i := i + 1) hp.holds (next_address hv) (by omega) (by omega) (by omega)
          (by rw [hstep]; exact hcover)
        rw [hstep] at hloop
        have hleft := growTables_next (n := n) (m := s.mem) (hp.table hv)
        refine hloop.mono ?_ fun e he => ⟨he.1, by omega⟩
        rintro _ s' ⟨g', hG⟩
        refine ⟨g', hp.grew hv hnv (fun j hj => ?_) hG⟩
        exact splice_in (by omega) (by omega)

/-! ## The loop of `vm_unmappages` on heap pages -/

theorem Shrank.refl (h : Holds g s r H) : Shrank r v 0 H g s g s :=
  ⟨h.anti fun w hw =>
    hw.1, fun w _ => by rw [if_neg (by omega)], fun _ _ _ _ _ => rfl, fun w h1 h2 => by omega,
    fun _ hq => hq, rfl, rfl⟩

theorem PageRemoved.shrank (h : PageRemoved r v H g s g₁ s₁)
    (hall : ∀ w, v ≤ w → w < v + (n + 1) → H w) (hb : ∀ w, H w → w < vaPages)
    (h' : Shrank r (v + 1) n (fun w => H w ∧ w ≠ v) g₁ s₁ g' s') :
    Shrank r v (n + 1) H g s g' s' := by
  refine ⟨h'.holds.anti fun w hw => ?_, fun w hw => ?_, fun w hw hn i hi => ?_, fun w h1 h2 =>
    ?_, fun q hq => ?_, ?_,
    h'.rest.trans h.rest⟩
  · exact ⟨⟨hw.1, fun he => hw.2 (by omega)⟩, fun hc => hw.2 (by omega)⟩
  · rw [h'.leaf w hw, h.leaf w hw]
    by_cases h1 : v + 1 ≤ w ∧ w < v + 1 + n
    · rw [if_pos h1, if_pos (by omega)]
    · rw [if_neg h1]
      by_cases h2 : w = v
      · rw [if_pos h2, if_pos (by omega)]
      · rw [if_neg h2, if_neg (by omega)]
  · have hwv : w ≠ v := fun he => hn (by omega)
    have hk := h'.kept w ⟨hw, hwv⟩ (by omega) i hi
    rw [h.leaf w (hb w hw), if_neg hwv] at hk
    rw [hk, h.kept w hw hwv i hi]
  · by_cases hwv : w = v
    · subst hwv
      refine h'.grows _ ?_
      rw [h.user]
      exact List.mem_cons_self
    · have hf := h'.freed w (by omega) (by omega)
      rwa [h.leaf w (hb w (hall w h1 h2)), if_neg hwv] at hf
  · refine h'.grows q ?_
    rw [h.user]
    exact List.mem_cons_of_mem _ hq
  · have hu := h'.user
    rw [h.user, List.length_cons] at hu
    omega

theorem unmappagesLoop_shrank {stop : Nat} (fuel : Nat) (h : Holds g s r H) (hn : n < fuel)
    (hstop : ∀ i, (v + i) * pgSize < stop ↔ i < n) (hall : ∀ w, v ≤ w → w < v + n → H w) :
    Sat (unmappagesLoop r stop true fuel (v * pgSize)) s (fun _ => True)
      (fun _ s' => ∃ g', Shrank r v n H g s g' s') E := by
  induction fuel generalizing g s v n H with
  | zero => exact absurd hn (Nat.not_lt_zero n)
  | succ fuel ih =>
      have h0 := hstop 0
      rw [Nat.add_zero] at h0
      unfold unmappagesLoop
      cases n with
      | zero =>
          rw [if_neg (fun hlt => absurd (h0.mp hlt) (Nat.lt_irrefl 0)), sat_pure]
          exact ⟨g, .refl h⟩
      | succ n =>
          have hv : H v := hall v (Nat.le_refl v) (by omega)
          rw [if_pos (h0.mpr (Nat.succ_pos n))]
          refine (h.unmapOne hv).bind fun _ s₁ hone => ?_
          obtain ⟨g₁, hp⟩ := hone
          rw [u64_next (h.page v hv).below]
          refine (ih (v := v + 1) (n := n) hp.holds (by omega) (fun i => ?_) fun w h1 h2 => ?_).imp
            ?_
          · rw [Nat.add_assoc, hstop, Nat.add_comm 1 i]
            exact Nat.succ_lt_succ_iff
          · exact ⟨hall w (by omega) (by omega), by omega⟩
          · rintro _ s' ⟨g', hS⟩
            exact ⟨g', hp.shrank hall (fun w hw => (h.page w hw).below) hS⟩

/-! ## The two calls -/

theorem heapEnd_mul (top : Nat) : heapEnd top * pgSize = pgRoundUp top :=
  Nat.div_mul_cancel (Nat.dvd_of_mod_eq_zero (pgRoundUp_aligned top))

theorem heapEnd_le {top : Nat} (ht : top < trapframeVa) : heapEnd top ≤ trapframeVpn := by
  unfold trapframeVpn heapEnd pgRoundUp
  unfold trapframeVa trampolineVa vaMax at *
  unfold u64 pgSize at *
  omega

theorem heapEnd_mono {top top' : Nat} (h : top ≤ top') (ht : top' < trapframeVa) :
    heapEnd top ≤ heapEnd top' := by
  unfold heapEnd pgRoundUp
  unfold trapframeVa trampolineVa vaMax at ht
  unfold u64 pgSize at *
  omega

theorem uvmHeapGrow_grew {top len : Nat} (h : Holds g s r (InHeap top)) (hlen : len < 2 ^ 32)
    (htop : top + len < trapframeVa) (hlow : pgSize ≤ top)
    (hfree : heapEnd (top + len) - heapEnd top ≤ (g.free false).length) :
    Sat (uvmHeapGrow r top len) s G
      (fun res s' => res = top + len ∧
        ∃ g', Grew r (heapEnd top) (heapEnd (top + len) - heapEnd top) (InHeap top) g s g' s')
      fun e => e = .vmMappagesOom ∧
        (g.free true).length < growTables s.mem r (heapEnd top)
        (heapEnd (top + len) - heapEnd top) := by
  have hlt : top + len < 2 ^ 64 := by
    unfold trapframeVa trampolineVa vaMax at htop
    omega
  have hmono := heapEnd_mono (Nat.le_add_right top len) htop
  have hmax := heapEnd_le htop
  have hvpn : trapframeVpn < vaPages := by decide
  have h1 := heapEnd_mul top
  have h2 := heapEnd_mul (top + len)
  have hcount : heapEnd (top + len) - heapEnd top ≤ 2 ^ 20 := by
    unfold heapEnd pgRoundUp
    unfold trapframeVa trampolineVa vaMax at htop
    unfold u64 pgSize at *
    omega
  unfold uvmHeapGrow
  rw [u64_of_lt hlt, sat_bind, sat_assert (decide_eq_true htop)]
  by_cases hgrow : pgRoundUp (top + len) > pgRoundUp top
  · have hn : u32 ((pgRoundUp (top + len) - pgRoundUp top) / pgSize) =
      heapEnd (top + len) - heapEnd top := by
      rw [← h1, ← h2, ← Nat.sub_mul, Nat.mul_div_cancel _ (by decide)]
      exact Nat.mod_eq_of_lt (by omega)
    rw [if_pos hgrow, sat_bind, hn]
    have hloop := growLoop_grew (G := G) (i := 0) h (pgRoundUp_aligned top)
      (by rw [Nat.zero_mul, Nat.add_zero]; exact pgRoundUp_lt top)
      (by rw [Nat.zero_add]; exact hcount)
      (show heapEnd top + 0 + (heapEnd (top + len) - heapEnd top) ≤ vaPages by omega) hfree
      (fun w hw _ hc => by have hc2 := hc.2; change heapEnd top + 0 ≤ w at hw; omega)
    refine hloop.imp ?_
    rintro _ s' ⟨g', hG⟩
    rw [sat_pure]
    exact ⟨rfl, g', hG⟩
  · have hz : heapEnd (top + len) - heapEnd top = 0 := by
      unfold heapEnd
      rw [Nat.sub_eq_zero_of_le (Nat.div_le_div_right (Nat.le_of_not_lt hgrow))]
    rw [if_neg hgrow, sat_pure, hz]
    exact ⟨rfl, g, .refl h⟩

theorem uvmHeapUngrow_shrank {top len : Nat} (h : Holds g s r (InHeap top))
    (hlow : pgSize + len ≤ top)
    (htop : top < trapframeVa) :
    Sat (uvmHeapUngrow r top len) s (fun _ => True)
      (fun res s' => res = top - len ∧
        ∃ g', Shrank r (heapEnd (top - len)) (heapEnd top - heapEnd (top - len))
          (InHeap top) g s g' s') E := by
  have hlt : top < 2 ^ 64 := by
    unfold trapframeVa trampolineVa vaMax at htop
    omega
  have hsub : sub64 top len = top - len := by
    unfold sub64 u64
    omega
  have hmono := heapEnd_mono (Nat.sub_le top len) htop
  have hone : 1 ≤ heapEnd (top - len) := by
    unfold trapframeVa trampolineVa vaMax at htop
    unfold heapEnd pgRoundUp u64
    unfold pgSize at *
    omega
  have hmax := heapEnd_le htop
  have hvpn : trapframeVpn < vaPages := by decide
  have h1 := heapEnd_mul top
  have h2 := heapEnd_mul (top - len)
  unfold uvmHeapUngrow
  rw [hsub, sat_bind, sat_assert (decide_eq_true (show top - len ≥ pgSize by omega))]
  by_cases hshrink : pgRoundUp (top - len) < pgRoundUp top
  · have hsum : pgRoundUp (top - len) + (pgRoundUp top - pgRoundUp (top - len)) =
      pgRoundUp top := by omega
    have hrange :
    u64 (pgRoundUp (top - len) + (pgRoundUp top - pgRoundUp (top - len))) = pgRoundUp top := by
      rw [hsum]
      exact u64_of_lt (pgRoundUp_lt top)
    rw [if_pos hshrink, sat_bind]
    unfold vmUnmappages
    rw [if_neg (not_not_intro (pgRoundUp_aligned _)), hrange, ← h2]
    have hbelow : ∀ i, (heapEnd (top - len) + i) * pgSize < pgRoundUp top ↔
      i < heapEnd top - heapEnd (top - len) := by
      intro i
      rw [← h1]
      unfold pgSize
      omega
    have hloop :=
      unmappagesLoop_shrank (E := E) (v := heapEnd (top - len))
        (n := heapEnd top - heapEnd (top - len))
      (vaPages + 1) h (by omega) hbelow fun w h3 h4 => ⟨by omega, by omega⟩
    refine hloop.imp ?_
    rintro _ s' ⟨g', hS⟩
    rw [sat_pure]
    exact ⟨rfl, g', hS⟩
  · have hz : heapEnd top - heapEnd (top - len) = 0 := by
      unfold heapEnd
      rw [Nat.sub_eq_zero_of_le (Nat.div_le_div_right (Nat.le_of_not_lt hshrink))]
    rw [if_neg hshrink, sat_pure, hz]
    exact ⟨rfl, g, .refl h⟩

/-! ## The ledger of a heap -/

open Classical in
/-- The frames of the heap are accounted for by their pages. -/
noncomputable def heapLedger (s : Kernel) (r top : Nat) (l : Bool → List Nat) : Ledger where
  own q := if h : ∃ v, InHeap top v ∧ pteToPa (leaf s.mem r v) = q then .frame r h.choose
    else (tableLedger s r l).own q
  free := l

variable {top limit : Nat} {l : Bool → List Nat}

theorem heapLedger_assign : heapLedger s r top l
    = (tableLedger s r l).assign r fun v q => InHeap top v ∧ pteToPa (leaf s.mem r v) = q := rfl

theorem HeapTracks.holds (h : HeapTracks s r top limit) (hl : Pools s l) :
    Holds (heapLedger s r top l) s r (InHeap top) := by
  obtain ⟨hheap, hlive⟩ := h.table.heap hl
  have hother : ∀ v q, InHeap top v ∧ pteToPa (leaf s.mem r v) = q →
    (tableLedger s r l).own q = .other := by
    rintro v q ⟨hv, rfl⟩
    have hf := h.mapped v hv
    exact tableLedger_other h.table hl hf.taken hf.frame
  have hone : ∀ v w q, InHeap top v ∧ pteToPa (leaf s.mem r v) = q →
    InHeap top w ∧ pteToPa (leaf s.mem r w) = q →
      v = w := fun v w q hv hw => h.distinct v w hv.1 hw.1 (hv.2.trans hw.2.symm)
  have hpos : 0 < s.allocBegin := by
    have hp := hl.layout.pos
    unfold kernelBase at hp
    omega
  rw [heapLedger_assign]
  refine ⟨hheap.assign fun v q hq =>
    ⟨hother v q hq, ?_⟩, (Ledger.assign_ne fun v hv => ?_).trans hlive, fun v hv => ?_⟩
  · obtain ⟨hv, rfl⟩ := hq
    have hm := (h.mapped v hv).user.1.1
    exact ⟨pteToPa_aligned _, by omega⟩
  · have ho := hother v r hv
    rw [hlive] at ho
    cases ho
  · have hf := h.mapped v hv
    have hbelow : v < vaPages := by
      have h1 := hv.2
      have h2 := h.reach
      have h3 : trapframeVpn < vaPages := by decide
      omega
    exact ⟨hbelow, hf.valid, h.table.leaf v hbelow hf.valid,
      Ledger.assign_own hone ⟨hv, rfl⟩, hf.user⟩

/-- What a ledger says about the pages of the heap. -/
theorem Holds.tracks (h : Holds g s r (InHeap top)) (hrange : pgSize ≤ top ∧ top < trapframeVa)
    (hreach : heapEnd top ≤ limit ∧ limit ≤ trapframeVpn)
    (hleaf : ∀ v < vaPages, hasFlag (leaf s.mem r v) pteV = true → pteFlags (leaf s.mem r v) ≠ pteV)
    (hclear : ∀ v, heapEnd top ≤ v → v < limit → translate s.mem r v = none)
    (henough : limit ≤ heapEnd top + (g.free false).length) : HeapTracks s r top limit := by
  refine ⟨hrange, hreach, h.heap.tableOk h.live hleaf, fun v hv =>
    ?_, fun v w hv hw he => ?_, hclear,
    g.free, h.heap.pools, henough⟩
  · have hp := h.page v hv
    refine ⟨hp.valid, hp.home, fun hf => ?_, fun ht => ?_⟩
    · obtain ⟨k, hk⟩ := (isFree_iff h.heap.pools).mp hf
      have ho := (h.heap.free_iff _ k).mp hk
      rw [hp.own] at ho
      cases ho
    · obtain ⟨x, hx, ht⟩ := ht
      have ho := h.heap.tableAt_own h.live hx.2 hx.1 ht
      rw [hp.own] at ho
      cases ho
  · have h1 := (h.page v hv).own
    rw [he, (h.page w hw).own] at h1
    exact (Use.frame.inj h1).2.symm

/-! ## Calls on a tracked heap -/

theorem InHeap.below (h : HeapTracks s r top limit) (hv : InHeap top v) : v < limit :=
  Nat.lt_of_lt_of_le hv.2 h.reach.1

theorem HeapTracks.limit_le (h : HeapTracks s r top limit) : limit ≤ vaPages :=
  Nat.le_trans h.reach.2 (by decide)

theorem Grew.moved {top' : Nat} (h : HeapTracks s r top limit) (hle : top ≤ top')
    (ht : top' < trapframeVa)
    (hreach : heapEnd top' ≤ limit) (hone : 1 ≤ heapEnd top)
    (hg : limit ≤ heapEnd top + (g.free false).length)
    (hG : Grew r (heapEnd top) (heapEnd top' - heapEnd top) (InHeap top) g s g' s') :
    HeapMoved r top limit s top' s' := by
  have hmono := heapEnd_mono hle ht
  have hpages : ∀ w, InHeap top' w ↔
      InHeap top w ∨ heapEnd top ≤ w ∧ w < heapEnd top + (heapEnd top' - heapEnd top) := by
    intro w
    unfold InHeap
    omega
  have hmax := h.limit_le
  have hholds : Holds g' s' r (InHeap top') := hG.holds.anti fun w hw => (hpages w).mp hw
  have hold : ∀ w < vaPages, ¬ InHeap top' w ∨ InHeap top w →
    Mem.leaf s'.mem r w = Mem.leaf s.mem r w := by
    intro w hw hc
    refine hG.leaf w hw fun hin => ?_
    rcases hc with hc | hc
    · exact hc ((hpages w).mpr (.inr hin))
    · have h2 := hc.2
      omega
  refine ⟨hholds.tracks ⟨Nat.le_trans h.range.1 hle, ht⟩ ⟨hreach, h.reach.2⟩ (fun w hw hval => ?_)
    (fun w h1 h2 => ?_) ?_,
    fun w hw hn => ?_, fun w hw _ => ⟨?_, hG.kept w hw⟩, fun w hw hn =>
    ?_, fun w hw _ hn => hold w hw (.inl hn)⟩
  · by_cases hin : InHeap top' w
    · exact (hholds.page w hin).leaf
    · rw [hold w hw (.inl hin)] at hval ⊢
      exact h.table.leaf w hw hval
  · have hw : ¬ InHeap top' w := fun hc => absurd hc.2 (Nat.not_lt.mpr h1)
    rw [translate_congr (hold w (by omega) (.inl hw))]
    exact h.clear w (by omega) h2
  · have hu := hG.user
    omega
  · rcases (hpages w).mp hw with h1 | h1
    · exact absurd h1 hn
    · exact hG.zero w h1.1 h1.2
  · exact hold w (by have h1 := InHeap.below h hw; omega) (.inr hw)
  · exact absurd ((hpages w).mpr (.inl hw)) hn

theorem Shrank.moved {top' : Nat} (h : HeapTracks s r top limit)
    (hle : top' ≤ top) (hlow : pgSize ≤ top')
    (hone : 1 ≤ heapEnd top') (hg : limit ≤ heapEnd top + (g.free false).length)
    (hS : Shrank r (heapEnd top') (heapEnd top - heapEnd top') (InHeap top) g s g' s') :
    HeapMoved r top limit s top' s' := by
  have hmono := heapEnd_mono hle h.range.2
  have hpages :
      ∀ w, InHeap top w → ¬ (heapEnd top' ≤ w ∧ w < heapEnd top' + (heapEnd top - heapEnd top')) →
        InHeap top' w := by
    intro w hw hn
    have h1 := hw.1
    have h2 := hw.2
    unfold InHeap
    omega
  have hmax := h.limit_le
  have hreach := h.reach
  have hholds : Holds g' s' r (InHeap top') := by
    refine hS.holds.anti fun w hw => ?_
    have h1 := hw.1
    have h2 := hw.2
    unfold InHeap
    omega
  have hcut : ∀ w, InHeap top w → ¬ InHeap top' w →
    heapEnd top' ≤ w ∧ w < heapEnd top' + (heapEnd top - heapEnd top') := by
    intro w hw hn
    by_contra hc
    exact hn (hpages w hw hc)
  have hold : ∀ w < vaPages,
    ¬ (heapEnd top' ≤ w ∧ w < heapEnd top' + (heapEnd top - heapEnd top')) →
      Mem.leaf s'.mem r w = Mem.leaf s.mem r w := by
    intro w hw hn
    rw [hS.leaf w hw, if_neg hn]
  refine ⟨hholds.tracks ⟨hlow, Nat.lt_of_le_of_lt hle h.range.2⟩
    ⟨by omega, h.reach.2⟩ (fun w hw hval => ?_)
    (fun w h1 h2 => ?_) ?_, fun w hw hn => ?_, fun w hw hw' => ?_, fun w hw hn =>
    ?_, fun w hw hn hn' => ?_⟩
  · by_cases hin : heapEnd top' ≤ w ∧ w < heapEnd top' + (heapEnd top - heapEnd top')
    · rw [hS.leaf w hw, if_pos hin, hasFlag_zero] at hval
      cases hval
    · rw [hold w hw hin] at hval ⊢
      exact h.table.leaf w hw hval
  · by_cases hin : heapEnd top' ≤ w ∧ w < heapEnd top' + (heapEnd top - heapEnd top')
    · rw [translate_eq_none, hS.leaf w (by omega), if_pos hin, hasFlag_zero]
    · rw [translate_congr (hold w (by omega) hin)]
      exact h.clear w (by omega) h2
  · have hu := hS.user
    omega
  · have h1 := hw.1
    have h2 := hw.2
    exact absurd ⟨h1, by omega⟩ hn
  · have hn : ¬ (heapEnd top' ≤ w ∧ w < heapEnd top' + (heapEnd top - heapEnd top')) := by
      have h2 := hw'.2
      omega
    have hbelow := InHeap.below h hw
    exact ⟨hold w (by omega) hn, hS.kept w hw hn⟩
  · have hin := hcut w hw hn
    have hbelow := InHeap.below h hw
    refine ⟨?_, g'.free, hS.holds.heap.pools, hS.freed w hin.1 hin.2⟩
    rw [translate_eq_none, hS.leaf w (by omega), if_pos hin, hasFlag_zero]
  · refine hold w hw fun hin => ?_
    have h3 : InHeap top w := ⟨by omega, by omega⟩
    exact hn h3

/-- One call. A panic is one of `vm_mappages` that has no page for a table. -/
theorem HeapTracks.call (h : HeapTracks s r top limit) {op : HeapOp} (hop : op.Allowed top limit) :
    Sat (op.run r top) s (fun _ => True)
      (fun res s' => res = op.next top ∧ HeapMoved r top limit s res s')
      fun e => e = .vmMappagesOom ∧ ∀ l, Pools s l →
        (l true).length < growTables s.mem r (heapEnd top)
        (heapEnd (op.next top) - heapEnd top) := by
  obtain ⟨l, hl, henough⟩ := h.enough
  have hholds := h.holds hl
  have hfree : (heapLedger s r top l).free = l := rfl
  have hone : ∀ {t : Nat}, pgSize ≤ t → t < trapframeVa → 1 ≤ heapEnd t := by
    intro t h1 h2
    unfold heapEnd pgRoundUp
    unfold trapframeVa trampolineVa vaMax at h2
    unfold u64 pgSize at *
    omega
  cases op with
  | grow len =>
      obtain ⟨h1, h2, h3⟩ := hop
      refine (uvmHeapGrow_grew hholds h1 h2 h.range.1 (by rw [hfree]; omega)).mono ?_ fun e he =>
        ⟨he.1, fun l' hl' => ?_⟩
      · rintro res s' ⟨hres, g', hG⟩
        subst hres
        exact ⟨rfl, hG.moved h (Nat.le_add_right _ _) h2 h3 (hone h.range.1 h.range.2) henough⟩
      · have hsame : l' true = l true := Chain.unique (hl'.pool true).chain (hl.pool true).chain
        rw [hsame]
        exact he.2
  | ungrow len =>
      obtain ⟨h1, h2⟩ := hop
      refine (uvmHeapUngrow_shrank hholds h2 h.range.2).mono ?_ fun e he => he
      rintro res s' ⟨hres, g', hS⟩
      subst hres
      have hlow : pgSize ≤ top - len := by omega
      exact ⟨rfl, hS.moved h (Nat.sub_le _ _) hlow
        (hone hlow (Nat.lt_of_le_of_lt (Nat.sub_le _ _) h.range.2)) henough⟩

/-- Along every sequence of calls, from every state that it reaches. -/
theorem heap_tracks_top {ops : List HeapOp} {top₀ : Nat} {s₀ : Kernel}
    (h : HeapTracks s₀ r top₀ limit)
    (hrun : HeapRun r limit s₀ top₀ ops s top) :
    HeapTracks s r top limit ∧
    (∀ v < vaPages, v = 0 ∨ limit ≤ v → leaf s.mem r v = leaf s₀.mem r v) ∧
      ∀ op : HeapOp, op.Allowed top limit →
        Sat (op.run r top) s (fun _ => True)
          (fun res s' => res = op.next top ∧ HeapMoved r top limit s res s')
          fun e => e = .vmMappagesOom ∧ ∀ l, Pools s l →
            (l true).length < growTables s.mem r (heapEnd top)
            (heapEnd (op.next top) - heapEnd top) := by
  have hinv : HeapTracks s r top limit ∧ ∀ v < vaPages, v = 0 ∨ limit ≤ v →
    leaf s.mem r v = leaf s₀.mem r v := by
    induction hrun with
    | nil => exact ⟨h, fun _ _ _ => rfl⟩
    | call before allowed run ih =>
        obtain ⟨ht, hout⟩ := ih
        have hm := ((ht.call allowed).of_ok run).2
        refine ⟨hm.tracks, fun v hv hc => ?_⟩
        have hn : ∀ {t : Nat}, heapEnd t ≤ limit → ¬ InHeap t v := by
          rintro t hle ⟨h1, h2⟩
          omega
        rw [hm.others v hv (hn ht.reach.1) (hn hm.tracks.reach.1), hout v hv hc]
  exact ⟨hinv.1, hinv.2, fun op hop => hinv.1.call hop⟩

end

/-- The table of `emptyTable` beside one free user page and the kernel pool `kern`. -/
def oneUserPage (kern : Region) : Kernel :=
  { emptyTable with kern := kern, user := ⟨0x80430000, 0x88000000, 1, 0x80430000⟩ }

def oneUserFree (kern : List Nat) (k : Bool) : List Nat := if k then kern else [0x80430000]

theorem oneUserPage_pools (head : Nat) (kern : List Nat)
    (hc : Chain (nextPage emptyTable.mem) (ptr head) kern none)
    (hp : ∀ q ∈ kern, q % pgSize = 0 ∧ 0x80030000 ≤ q ∧ q < 0x80430000) :
    Pools (oneUserPage ⟨0x80030000, 0x80430000, kern.length, head⟩) (oneUserFree kern) := by
  refine ⟨⟨show kernelBase ≤ 0x80030000 by decide, show 0x80030000 % pgSize = 0 by decide,
    show 0x80030000 + kernelPages * pgSize ≤ physTop by decide, rfl,
    show 0x80430000 = 0x80030000 + kernelPages * pgSize by decide,
    show 0x80430000 =
      0x80030000 + kernelPages * pgSize by decide, show 0x88000000 = physTop by decide⟩,
    fun k => ?_, fun k => rfl⟩
  cases k with
  | true => exact ⟨hc, rfl, hp⟩
  | false =>
      refine ⟨⟨rfl, ?_⟩, rfl, fun q hq => ?_⟩
      · change nextPage emptyTable.mem 0x80430000 = none
        decide +kernel
      · change q ∈ [0x80430000] at hq
        change q % pgSize = 0 ∧ 0x80430000 ≤ q ∧ q < 0x88000000
        rw [List.mem_singleton.mp hq]
        decide

/-- No heap yet, and room for one page. -/
theorem oneUserPage_tracks (head : Nat) (kern : List Nat)
    (hc : Chain (nextPage emptyTable.mem) (ptr head) kern none)
    (hp : ∀ q ∈ kern, q % pgSize = 0 ∧ 0x80030000 ≤ q ∧ q < 0x80430000) :
    HeapTracks (oneUserPage ⟨0x80030000, 0x80430000, kern.length, head⟩) emptyRoot pgSize 2 := by
  have hpools := oneUserPage_pools head kern hc hp
  have hnone : ∀ v, ¬ InHeap pgSize v := by
    rintro v ⟨h1, h2⟩
    have h3 : heapEnd pgSize = 1 := by decide
    omega
  refine ⟨by decide, by decide, emptyMem_ok rfl hpools fun k hk => ?_, fun v hv => absurd hv (hnone v),
    fun v w hv => absurd hv (hnone v), fun v _ _ => ?_, oneUserFree kern, hpools,
    show 2 ≤ heapEnd pgSize + [0x80430000].length by decide⟩
  · cases k with
    | false => exact absurd (List.mem_singleton.mp hk) (by decide)
    | true =>
        have hlt := (hp _ hk).2.2
        exact absurd hlt (by decide)
  · exact translate_eq_none.mpr
      (by rw [show (oneUserPage _).mem = emptyTable.mem from rfl, emptyTable_leaf, hasFlag_zero])

/-- The first byte of the heap. -/
theorem heap_tracks_top_byte : ∃ s', (uvmHeapGrow emptyRoot pgSize 1
      (oneUserPage ⟨0x80030000, 0x80430000, 2, 0x80030000⟩)).1 = .ok (pgSize + 1, s') ∧
    HeapTracks s' emptyRoot (pgSize + 1) 2 := by
  have hpool := emptyTable_pools.pool true
  have htracks := oneUserPage_tracks 0x80030000 [0x80030000, 0x80031000] hpool.chain hpool.page
  have hcall := (heap_tracks_top htracks .nil).2.2 (.grow 1) ⟨by decide, by decide, by decide⟩
  have hnever := hcall.never fun e he => by
    have hlt := he.2 _
      (oneUserPage_pools 0x80030000 [0x80030000, 0x80031000] hpool.chain hpool.page)
    exact absurd hlt (by decide)
  obtain ⟨res, s', hr, hres, hm⟩ := hnever.returns
  subst hres
  exact ⟨s', hr, hm.tracks⟩

/-- A free user page is not enough: without a page for its table it cannot be mapped. -/
theorem heap_grow_needs_tables :
    HeapTracks (oneUserPage ⟨0x80030000, 0x80430000, 0, 0⟩) emptyRoot pgSize 2 ∧
      (uvmHeapGrow emptyRoot pgSize 1 (oneUserPage ⟨0x80030000, 0x80430000, 0, 0⟩)).1 =
      .error .vmMappagesOom := by
  refine ⟨oneUserPage_tracks 0 [] rfl fun q hq => absurd hq List.not_mem_nil, ?_⟩
  have he : (match (uvmHeapGrow emptyRoot pgSize 1
    (oneUserPage ⟨0x80030000, 0x80430000, 0, 0⟩)).1 with
      | .ok _ => none
      | .error e => some e) = some Panic.vmMappagesOom := by decide +kernel
  split at he
  · cases he
  · next hr =>
    rw [hr, Option.some.inj he]

end WhuOs.Mem
