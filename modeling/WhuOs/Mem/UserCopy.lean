import WhuOs.Mem.Copy

/-! # Copies on arbitrary memory

What `uvm_copyin`, `uvm_copyout` and `uvm_copyin_str` do to memory, byte by byte, without
assumptions on how the pages of the table came about.
-/

namespace WhuOs.Mem

open Prog Bytes

/-- The walk finds an entry for the page, and the entry is valid. -/
def Mapped (m : Bytes) (r v : Nat) : Prop :=
  v < vaPages ∧ slot m r v ≠ 0 ∧ hasFlag (leaf m r v) pteV = true

/-- Memory after `k` bytes were copied, whatever they are, and memory as it was when the page of
byte `k` was looked up. -/
def strCopy (m : Bytes) (r dst src : Nat) : Nat → Bytes × Bytes
  | 0 => (m, m)
  | k + 1 =>
      let now := (strCopy m r dst src k).1
      let page := (strCopy m r dst src k).2
      let next := splice now (dst + k) (fun _ => now (userAddr page r (src + k))) 1
      (next, if (src + k + 1) % pgSize = 0 then next else page)

def byteSeen (m : Bytes) (r dst src k : Nat) : UInt8 :=
  (strCopy m r dst src k).1 (userAddr (strCopy m r dst src k).2 r (src + k))

section

variable {s s' : Kernel} {m m' P : Bytes}
  {r v w n i j k len dst src maxlen fuel : Nat} {G : Event → Prop}
  {E : Panic → Prop}

/-! ## Looking up a page -/

theorem userPage_mapped {null invalid : Panic} {Q : Nat → Kernel → Prop} (h : Mapped s.mem r v) :
    Sat (userPage r (v * pgSize) null invalid) s G Q E ↔ Q (pteToPa (leaf s.mem r v)) s := by
  have hdiv : v * pgSize / pgSize = v := Nat.mul_div_cancel v (by decide)
  have hload : getLE s.mem (slot s.mem r v) 8 = leaf s.mem r v := by
    cases ht : tableAt s.mem r (lowPos v) with
    | none =>
        have hz : leaf s.mem r v = 0 := by simp [leaf, ht]
        have hv := h.2.2
        rw [hz, hasFlag_zero] at hv
        cases hv
    | some p => rw [slot_eq ht, leaf_eq ht, entry]
  unfold userPage
  rw [sat_bind, vmGetpte_sat (mul_pgSize_lt.mpr h.1), hdiv, sat_bind,
    sat_assert (decide_eq_true h.2.1), sat_bind,
    sat_load, hload, sat_bind, sat_assert h.2.2, sat_pure]

/-- Without a mapping the walk ends in a panic. -/
theorem userPage_any {null invalid : Panic} {Q : Nat → Kernel → Prop}
    (hE : ¬ Mapped s.mem r v → ∀ e, E e)
    (hQ : Mapped s.mem r v → Q (pteToPa (leaf s.mem r v)) s) :
    Sat (userPage r (v * pgSize) null invalid) s G Q E := by
  by_cases h : Mapped s.mem r v
  · exact (userPage_mapped h).mpr (hQ h)
  have hdiv : v * pgSize / pgSize = v := Nat.mul_div_cancel v (by decide)
  unfold userPage
  by_cases hv : v < vaPages
  swap
  · unfold vmGetpte
    rw [if_pos (by have := mul_pgSize_lt (v := v); omega), sat_bind, sat_bind, sat_panic]
    exact hE h _
  rw [sat_bind, vmGetpte_sat (mul_pgSize_lt.mpr hv), hdiv, sat_bind]
  refine sat_assert_any (hE h _) fun hslot => ?_
  rw [sat_bind, sat_load, sat_bind]
  refine sat_assert_any (hE h _) fun hval => ?_
  have hload : getLE s.mem (slot s.mem r v) 8 = leaf s.mem r v := by
    cases ht : tableAt s.mem r (lowPos v) with
    | none => exact absurd (show slot s.mem r v = 0 by simp [slot, ht]) (of_decide_eq_true hslot)
    | some p => rw [slot_eq ht, leaf_eq ht, entry]
  rw [hload] at hval
  exact absurd ⟨hv, of_decide_eq_true hslot, hval⟩ h

/-! ## Strings -/

/-- Inside a page the table is not looked at again. -/
theorem strCopy_page (hi : i < pgSize - (src + k) % pgSize) :
    (strCopy m r dst src (k + i)).2 = (strCopy m r dst src k).2 := by
  induction i with
  | zero => rfl
  | succ i ih =>
      have hne : (src + (k + i) + 1) % pgSize ≠ 0 := by
        unfold pgSize at *
        omega
      rw [← Nat.add_assoc, strCopy]
      dsimp only
      rw [if_neg hne]
      exact ih (by omega)

/-- At the start of a page the table is read as it is. -/
theorem strCopy_start (h : k = 0 ∨ (src + k) % pgSize = 0) :
    (strCopy m r dst src k).2 = (strCopy m r dst src k).1 := by
  cases k with
  | zero => rfl
  | succ k =>
      rw [strCopy]
      dsimp only
      rw [Nat.add_assoc, if_pos (h.resolve_left (Nat.succ_ne_zero k))]

/-- Copying goes on from byte `k` for `n` bytes: to the first zero, or to the end. -/
structure StrRun (m : Bytes) (r dst src k n : Nat) (found : Bool) (j : Nat) (m' : Bytes) :
    Prop where
  before : ∀ i < j, byteSeen m r dst src (k + i) ≠ 0
  zero : found = true →
    j < n ∧ byteSeen m r dst src (k + j) = 0 ∧ m' = (strCopy m r dst src (k + j + 1)).1
  full : found = false → j = n ∧ m' = (strCopy m r dst src (k + j)).1

theorem StrRun.empty (hm : m' = (strCopy m r dst src k).1) : StrRun m r dst src k 0 false 0 m' :=
  ⟨fun i hi => absurd hi (Nat.not_lt_zero i), fun hf =>
    absurd hf Bool.false_ne_true, fun _ => ⟨rfl, hm⟩⟩

theorem copyinStrPage_run {pa : Nat} {Q : Bool × Nat → Kernel → Prop}
    (hn : i + n ≤ pgSize - (src + k) % pgSize)
    (hmem : s.mem = (strCopy m r dst src (k + i)).1)
    (hpa : pa = userAddr (strCopy m r dst src k).2 r (src + k))
    (hbefore : ∀ i' < i, byteSeen m r dst src (k + i') ≠ 0)
    (hE : dst < s.etext → E .storeFault)
    (hQ : ∀ found j m', StrRun m r dst src k (i + n) found j m' → Q (found, j) (s.setMem m')) :
    Sat (copyinStrPage (dst + k) pa n i) s G Q E := by
  induction n generalizing s i with
  | zero =>
      rw [copyinStrPage, sat_pure]
      exact hQ false i s.mem ⟨hbefore, fun hc => (by cases hc), fun _ => ⟨rfl, hmem⟩⟩
  | succ n ih =>
      have hsame : userAddr (strCopy m r dst src (k + i)).2 r (src + (k + i)) = pa + i := by
        rw [strCopy_page (by omega), hpa, ← Nat.add_assoc]
        have hc : i < chunk (src + k) (i + (n + 1)) := by
          unfold chunk
          omega
        rw [userAddr_chunk hc]
        rfl
      have hbyte : s.mem (pa + i) = byteSeen m r dst src (k + i) := by
        rw [byteSeen, hsame, hmem]
      have hnext : splice s.mem (dst + k + i) (fun _ => s.mem (pa + i)) 1 = (strCopy m r dst src (k + i + 1)).1 := by
        rw [strCopy, hsame, hmem, Nat.add_assoc]
      unfold copyinStrPage
      rw [sat_bind, sat_loadByte, sat_bind]
      by_cases ht : s.etext ≤ dst + k + i
      swap
      · unfold storeByte
        rw [sat_bind, sat_checkStore_text Nat.one_pos (Nat.not_le.mp ht)]
        exact hE (by omega)
      rw [sat_storeByte ht, hnext]
      by_cases hz : s.mem (pa + i) = 0
      · rw [if_pos hz, sat_pure]
        exact hQ true i _ ⟨hbefore, fun _ => ⟨by omega, hbyte ▸ hz, rfl⟩, fun hc => (by cases hc)⟩
      · rw [if_neg hz]
        refine ih (by omega) (by rw [setMem_mem, Nat.add_assoc]) (fun i' hi' => ?_) hE fun found j m' h => ?_
        · by_cases he : i' = i
          · rw [he, ← hbyte]
            exact hz
          · exact hbefore i' (by omega)
        · rw [Nat.add_right_comm, Nat.add_assoc] at h
          exact hQ found j m' h

theorem StrRun.append {c : Nat} {found : Bool}
    (hz : ∀ i < c, byteSeen m r dst src (k + i) ≠ 0) (hc : c ≤ n)
    (h : StrRun m r dst src (k + c) (n - c) found j m') :
    StrRun m r dst src k n found (c + j) m' := by
  refine ⟨fun i hi => ?_, fun hf => ?_, fun hf => ?_⟩
  · by_cases hic : i < c
    · exact hz i hic
    · have hb := h.before (i - c) (by omega)
      rwa [show k + c + (i - c) = k + i by omega] at hb
  · obtain ⟨h1, h2, h3⟩ := h.zero hf
    rw [Nat.add_assoc] at h2
    exact ⟨by omega, h2, by rw [h3, Nat.add_assoc k c j]⟩
  · obtain ⟨h1, h2⟩ := h.full hf
    rw [Nat.add_assoc] at h2
    exact ⟨by omega, h2⟩

/-- The pages of the bytes behind non-zero ones are mapped when they are looked up. -/
def LookedMapped (m : Bytes) (r dst src k n : Nat) : Prop :=
  ∀ i < n, (∀ i' < i, byteSeen m r dst src (k + i') ≠ 0) →
    Mapped (strCopy m r dst src (k + i)).2 r ((src + (k + i)) / pgSize)

theorem copyinStrLoop_run {Q : Bool × Nat → Kernel → Prop} (fuel : Nat) (hfuel : len ≤ fuel)
    (hmem : s.mem = (strCopy m r dst src k).1) (hstart : 0 < len → k = 0 ∨ (src + k) % pgSize = 0)
    (hE : dst < s.etext → E .storeFault)
    (hmap : ∀ i < len, (∀ i' < i, byteSeen m r dst src (k + i') ≠ 0) →
      ¬ Mapped (strCopy m r dst src (k + i)).2 r ((src + (k + i)) / pgSize) → ∀ e, E e)
    (hQ : ∀ found j m', LookedMapped m r dst src k len → StrRun m r dst src k len found j m' →
      Q (found, len - j) (s.setMem m')) :
    Sat (copyinStrLoop r fuel (dst + k) (src + k) len) s G Q E := by
  induction fuel generalizing s k len Q with
  | zero =>
      obtain rfl : len = 0 := Nat.le_zero.mp hfuel
      rw [copyinStrLoop, sat_pure]
      exact hQ false 0 s.mem (fun _ hi => absurd hi (Nat.not_lt_zero _)) (.empty hmem)
  | succ fuel ih =>
      unfold copyinStrLoop
      by_cases hpos : len > 0
      swap
      · obtain rfl : len = 0 := by omega
        rw [if_neg hpos, sat_pure]
        exact hQ false 0 s.mem (fun _ hi => absurd hi (Nat.not_lt_zero _)) (.empty hmem)
      have hpage : s.mem = (strCopy m r dst src k).2 :=
        hmem.trans (strCopy_start (hstart hpos)).symm
      rw [if_pos hpos, sat_bind]
      refine userPage_any (fun hn => hmap 0 hpos (fun i hi => absurd hi (Nat.not_lt_zero i)) ?_)
        fun hm => ?_
      · rwa [Nat.add_zero, ← hpage]
      have hcpos := chunk_pos (a := src + k) hpos
      have hle := chunk_le (src + k) len
      have hfits := chunk_fits (src + k) len
      rw [sat_bind]
      refine copyinStrPage_run (m := m) (r := r) (by omega) hmem ?_
        (fun i hi => absurd hi (Nat.not_lt_zero i)) hE fun found j m' hrun => ?_
      · rw [hpage]
        rfl
      rw [Nat.zero_add] at hrun
      -- the bytes of this page
      have hfirst :
          ∀ i < chunk (src + k) len,
          Mapped (strCopy m r dst src (k + i)).2 r ((src + (k + i)) / pgSize) := by
        intro i hi
        have hin : i < pgSize - (src + k) % pgSize := by omega
        rw [strCopy_page hin, ← hpage, ← Nat.add_assoc, (chunk_page hi).1]
        exact hm
      dsimp only
      cases found with
      | true =>
          obtain ⟨hj, hz, hm'⟩ := hrun.zero rfl
          rw [if_pos rfl, sat_pure]
          refine hQ true j m' (fun i _ hb => hfirst i ?_) ⟨hrun.before, fun _ =>
            ⟨by omega, hz, hm'⟩, fun hf => absurd hf.symm Bool.false_ne_true⟩
          by_contra hc
          exact hb j (by omega) hz
      | false =>
          obtain ⟨rfl, hm'⟩ := hrun.full rfl
          rw [if_neg (by decide), chunk_next hm.1, Nat.add_assoc, Nat.add_assoc src]
          refine ih (by omega) (by rw [setMem_mem, hm']) (fun hmore => .inr ?_) hE
            (fun i hi hz hn => ?_) fun found j m'' hlook h => ?_
          · unfold chunk pgSize at *
            omega
          · rw [Nat.add_assoc] at hn
            refine hmap (chunk (src + k) len + i) (by omega) (fun i' hi' => ?_) hn
            by_cases hc : i' < chunk (src + k) len
            · exact hrun.before i' hc
            · have hb := hz (i' - chunk (src + k) len) (by omega)
              rwa [show k + chunk (src + k) len + (i' - chunk (src + k) len) = k + i' by omega]
              at hb
          · have happ := StrRun.append hrun.before hle h
            have hq := hQ found _ m'' (fun i hi hb => ?_) happ
            · rwa [Nat.sub_add_eq] at hq
            · by_cases hc : i < chunk (src + k) len
              · exact hfirst i hc
              · have hl := hlook (i - chunk (src + k) len) (by omega) fun i' hi' => ?_
                · rwa [show k + chunk (src + k) len + (i - chunk (src + k) len) = k + i by omega]
                    at hl
                · rw [Nat.add_assoc]
                  exact hb _ (by omega)

/-- Memory after a string copy: when no zero was met, the byte before the destination is cleared. -/
def strEnd (found : Bool) (dst : Nat) (m : Bytes) : Bytes :=
  if found then m else splice m (sub64 dst 1) (fun _ => 0) 1

theorem uvmCopyinStr_run {Q : Unit → Kernel → Prop} (hdst : dst < 2 ^ 64)
    (hE : dst < s.etext → E .storeFault)
    (hlast : sub64 dst 1 < s.etext → E .storeFault)
    (hmap : ∀ i < maxlen, (∀ i' < i, byteSeen s.mem r dst src i' ≠ 0) →
      ¬ Mapped (strCopy s.mem r dst src i).2 r ((src + i) / pgSize) → ∀ e, E e)
    (hQ : ∀ found j m', LookedMapped s.mem r dst src 0 maxlen →
      StrRun s.mem r dst src 0 maxlen found j m' →
      Q () (s.setMem (strEnd found dst m'))) :
    Sat (uvmCopyinStr r dst src maxlen) s G Q E := by
  unfold uvmCopyinStr
  rw [sat_bind]
  refine copyinStrLoop_run (m := s.mem) (k := 0) maxlen (Nat.le_refl _) rfl
    (fun _ => .inl rfl) hE (fun i hi hz hn => ?_)
    fun found j m' hlook h => ?_
  · simp only [Nat.zero_add] at hz hn
    exact hmap i hi hz hn
  · dsimp only
    have hq := hQ found j m' hlook h
    unfold strEnd at hq
    cases found with
    | true =>
        rw [if_neg (by simp), sat_pure]
        exact hq
    | false =>
        obtain ⟨rfl, -⟩ := h.full rfl
        rw [if_neg Bool.false_ne_true] at hq
        rw [if_pos ⟨rfl, Nat.sub_self j⟩, Nat.sub_self, Nat.add_zero, u64_of_lt hdst]
        by_cases ht : s.etext ≤ sub64 dst 1
        · rw [sat_storeByte (s := s.setMem m') ht]
          exact hq
        · unfold storeByte
          rw [sat_bind, sat_checkStore_text Nat.one_pos (by exact Nat.not_le.mp ht)]
          exact hlast (Nat.not_le.mp ht)

/-! ### Inside the buffer -/

theorem strCopy_outside {a : Nat} (h : a < dst ∨ dst + k ≤ a) :
    (strCopy m r dst src k).1 a = m a := by
  induction k with
  | zero => rfl
  | succ k ih =>
      rw [strCopy]
      dsimp only
      rw [splice_out (by omega), ih (by omega)]

theorem strCopy_byte (h : i < k) :
    (strCopy m r dst src k).1 (dst + i) = byteSeen m r dst src i := by
  induction k with
  | zero => omega
  | succ k ih =>
      rw [strCopy]
      dsimp only
      by_cases hi : i = k
      · subst hi
        rw [splice_in (Nat.le_refl _) (Nat.lt_succ_self _)]
        rfl
      · rw [splice_out (by omega)]
        exact ih (by omega)

/-- What is asked of a string copy: it writes inside the buffer only, and a NUL ends up there. -/
def StrWithin (s : Kernel) (dst maxlen : Nat) (s' : Kernel) : Prop :=
  (∀ a, s'.mem a ≠ s.mem a → dst ≤ a ∧ a < dst + maxlen) ∧ ∃ a, dst ≤ a ∧
    a < dst + maxlen ∧ s'.mem a = 0

/-- The copy stays in its buffer and terminates it exactly when one of the bytes it may copy is
zero. -/
theorem uvmCopyinStr_within_iff (hmax : maxlen < 2 ^ 32) (hpos : 0 < maxlen)
    (hdst : dst + maxlen ≤ 2 ^ 64)
    (hr : (uvmCopyinStr r dst src maxlen s).1 = .ok ((), s')) :
    StrWithin s dst maxlen s' ↔ ∃ k < maxlen, byteSeen s.mem r dst src k = 0 := by
  suffices hs : Sat (uvmCopyinStr r dst src maxlen) s (fun _ => True)
      (fun _ s' => StrWithin s dst maxlen s' ↔ ∃ k < maxlen, byteSeen s.mem r dst src k = 0)
      fun _ => True from hs.of_ok hr
  refine uvmCopyinStr_run (by omega) (fun _ => trivial) (fun _ => trivial) (fun _ _ _ _ _ =>
    trivial) fun found j m' _ h => ?_
  have hbefore := h.before
  simp only [Nat.zero_add] at hbefore
  cases found with
  | true =>
      obtain ⟨hj, hz, rfl⟩ := h.zero rfl
      rw [Nat.zero_add] at hz ⊢
      refine iff_of_true ⟨fun a ha => ?_, dst + j, Nat.le_add_right _ _, by omega, ?_⟩ ⟨j, hj, hz⟩
      · by_contra hc
        refine ha ?_
        rw [setMem_mem, strEnd, if_pos rfl]
        exact strCopy_outside (by omega)
      · exact (strCopy_byte (Nat.lt_succ_self j)).trans hz
  | false =>
      obtain ⟨rfl, rfl⟩ := h.full rfl
      rw [Nat.zero_add]
      refine iff_of_false ?_ fun ⟨k, hk, hz⟩ => hbefore k hk hz
      rintro ⟨-, a, h1, h2, hz⟩
      obtain ⟨i, rfl⟩ := Nat.exists_eq_add_of_le h1
      have hne : dst + i ≠ sub64 dst 1 := by
        unfold sub64 u64
        omega
      rw [setMem_mem, strEnd, if_neg (by decide), splice_out (by omega),
        strCopy_byte (by omega)] at hz
      exact hbefore i (by omega) hz

/-! ### Translations that a copy does not touch -/

def OnWalk (m : Bytes) (r v q : Nat) : Prop := ∃ x, x <:+ lowPos v ∧ tableAt m r x = some q

theorem tableAt_onWalk (h : ∀ q, OnWalk m r v q → ∀ i < pgSize, m' (q + i) = m (q + i))
    {x : List Nat}
    (hx : x <:+ lowPos v) : tableAt m' r x = tableAt m r x := by
  refine tableAt_congr (fun i hi => mem_lowPos (hx.subset hi)) fun y i hy p hp => ?_
  have hsuf := hy.trans hx
  refine entry_congr (mem_lowPos (hsuf.subset List.mem_cons_self)) (h p ⟨y, ?_, hp⟩)
  exact (List.suffix_cons i y).trans hsuf

theorem onWalk_congr (h : ∀ q, OnWalk m r v q → ∀ i < pgSize, m' (q + i) = m (q + i)) {q : Nat}
    (hq : OnWalk m' r v q) : OnWalk m r v q := by
  obtain ⟨x, hx, ht⟩ := hq
  exact ⟨x, hx, (tableAt_onWalk h hx).symm.trans ht⟩

theorem walk_congr (h : ∀ q, OnWalk m r v q → ∀ i < pgSize, m' (q + i) = m (q + i)) :
    leaf m' r v = leaf m r v ∧ slot m' r v = slot m r v := by
  have hlow : tableAt m' r (lowPos v) = tableAt m r (lowPos v) :=
    tableAt_onWalk h (List.suffix_refl _)
  unfold leaf slot
  rw [hlow]
  cases ht : tableAt m r (lowPos v) with
  | none => exact ⟨rfl, rfl⟩
  | some p => exact ⟨entry_congr (vpnIndex_lt _ _) (h p ⟨_, List.suffix_refl _, ht⟩), rfl⟩

/-- The destination is apart from the bytes of the source and from the tables that lead to them. -/
structure Separate (m : Bytes) (r dst src len : Nat) : Prop where
  source : ∀ i < len, ∀ j < len, dst + i ≠ userAddr m r (src + j)
  table : ∀ i < len, ∀ j < len, ∀ q, OnWalk m r ((src + j) / pgSize) q →
    ¬ (q ≤ dst + i ∧ dst + i < q + pgSize)

/-- Memory that differs in the destination only. -/
theorem Separate.walk (h : Separate m r dst src len) (hj : j < len)
    (hm : ∀ a, m' a ≠ m a → dst ≤ a ∧ a < dst + len) :
    leaf m' r ((src + j) / pgSize) = leaf m r ((src + j) / pgSize) ∧
      slot m' r ((src + j) / pgSize) = slot m r ((src + j) / pgSize) := by
  refine walk_congr fun q hq i hi => ?_
  by_contra hne
  obtain ⟨h1, h2⟩ := hm _ hne
  refine h.table (q + i - dst) (by omega) j hj q hq ?_
  omega

theorem strCopy_snd_outside {a : Nat} (h : a < dst ∨ dst + k ≤ a) :
    (strCopy m r dst src k).2 a = m a := by
  induction k with
  | zero => rfl
  | succ k ih =>
      have hfst : (strCopy m r dst src (k + 1)).1 a = m a := strCopy_outside h
      rw [strCopy] at hfst ⊢
      dsimp only at hfst ⊢
      split
      · exact hfst
      · exact ih (by omega)

/-- Away from its source a copy sees the bytes of the string as they were. -/
theorem Separate.byteSeen (h : Separate m r dst src len) (hk : k < len) :
    byteSeen m r dst src k = m (userAddr m r (src + k)) := by
  have haddr : userAddr (strCopy m r dst src k).2 r (src + k) = userAddr m r (src + k) := by
    unfold userAddr
    rw [(h.walk hk fun a ha => ?_).1]
    by_contra hc
    exact ha (strCopy_snd_outside (by omega))
  rw [Mem.byteSeen, haddr]
  refine strCopy_outside ?_
  by_contra hc
  refine h.source (userAddr m r (src + k) - dst) (by omega) k hk ?_
  omega

end

/-! ## Copies of a given length -/

/-- A user range and a kernel buffer: the pages are mapped to distinct frames, and frames, buffer
and the tables that lead to the frames are pairwise disjoint. -/
structure CopyRange (m : Bytes) (r va buf len : Nat) : Prop extends Separate m r buf va len where
  below : va + len ≤ vaMax
  address : buf < 2 ^ 64
  room : buf + len ≤ 2 ^ 64
  mapped : ∀ i < len, Mapped m r ((va + i) / pgSize)
  distinct : ∀ i < len, ∀ j < len, pteToPa (leaf m r ((va + i) / pgSize)) =
    pteToPa (leaf m r ((va + j) / pgSize)) →
    (va + i) / pgSize = (va + j) / pgSize
  frames : ∀ i < len, ∀ j < len, ∀ q, OnWalk m r ((va + j) / pgSize) q →
    ¬ (q ≤ userAddr m r (va + i) ∧ userAddr m r (va + i) < q + pgSize)

def userWindow (m : Bytes) (r va : Nat) : Bytes := fun i => m (userAddr m r (va + i))

/-- The first `k` bytes of the range hold the bytes of the buffer, all other memory is as before. -/
structure OutTo (m : Bytes) (r va buf k : Nat) (m' : Bytes) : Prop where
  bytes : ∀ i < k, m' (userAddr m r (va + i)) = m (buf + i)
  frame : ∀ a, (∀ i < k, a ≠ userAddr m r (va + i)) → m' a = m a

section

variable {s s' : Kernel} {m m' : Bytes}
  {r va buf buf' i j k n len fuel dst src : Nat} {G : Event → Prop}
  {E : Panic → Prop} {Q : Unit → Kernel → Prop}

theorem CopyRange.inj (h : CopyRange m r va buf len) (hi : i < len) (hj : j < len)
    (he : userAddr m r (va + i) = userAddr m r (va + j)) : i = j := by
  unfold userAddr at he
  have hmi : (va + i) % pgSize < pgSize := Nat.mod_lt _ (by decide)
  have hmj : (va + j) % pgSize < pgSize := Nat.mod_lt _ (by decide)
  have hai := pteToPa_aligned (leaf m r ((va + i) / pgSize))
  have haj := pteToPa_aligned (leaf m r ((va + j) / pgSize))
  have hframe :
      pteToPa (leaf m r ((va + i) / pgSize)) = pteToPa (leaf m r ((va + j) / pgSize)) := by
    by_contra hne
    have hap := pages_apart hai haj hne
    omega
  have hpage := h.distinct i hi j hj hframe
  rw [hframe] at he
  unfold pgSize at *
  omega

/-- The tables are read as before while only the buffer changes. -/
theorem CopyRange.inBuffer (h : CopyRange m r va buf len)
    (hm : ∀ a, m' a ≠ m a → buf ≤ a ∧ a < buf + len)
    (hi : i < len) : leaf m' r ((va + i) / pgSize) = leaf m r ((va + i) / pgSize) ∧
      slot m' r ((va + i) / pgSize) = slot m r ((va + i) / pgSize) := h.toSeparate.walk hi hm

theorem OutTo.tables (h : CopyRange m r va buf len) (ho : OutTo m r va buf k m')
    (hk : k ≤ len) (hi : i < len) :
    ∀ q, OnWalk m r ((va + i) / pgSize) q → ∀ x < pgSize, m' (q + x) = m (q + x) := by
  refine fun q hq x hx => ho.frame _ fun j hj he => ?_
  exact h.frames j (by omega) i hi q hq ⟨by omega, by omega⟩

theorem OutTo.walk (h : CopyRange m r va buf len) (ho : OutTo m r va buf k m')
    (hk : k ≤ len) (hi : i < len) :
    leaf m' r ((va + i) / pgSize) = leaf m r ((va + i) / pgSize) ∧
      slot m' r ((va + i) / pgSize) = slot m r ((va + i) / pgSize) := walk_congr (ho.tables h hk hi)

theorem mapped_congr {v : Nat} (h : Mapped m r v)
    (hw : leaf m' r v = leaf m r v ∧ slot m' r v = slot m r v) :
    Mapped m' r v := by
  obtain ⟨h1, h2, h3⟩ := h
  exact ⟨h1, by rw [hw.2]; exact h2, by rw [hw.1]; exact h3⟩

theorem copyinLoop_done (fuel dst src : Nat) :
    Sat (copyinLoop r fuel dst src 0) s G Q E ↔ Q () s := by
  cases fuel with
  | zero => rw [copyinLoop, sat_pure]
  | succ fuel => rw [copyinLoop, if_neg (Nat.lt_irrefl 0), sat_pure]

theorem copyoutLoop_done (fuel dst : Nat) (src : KernelSrc) :
    Sat (copyoutLoop r fuel dst src 0) s G Q E ↔ Q () s := by
  cases fuel with
  | zero => rw [copyoutLoop, sat_pure]
  | succ fuel => rw [copyoutLoop, if_neg (Nat.lt_irrefl 0), sat_pure]

theorem copyinLoop_run (h : CopyRange m r va buf len) (htext : s.etext ≤ buf) (hk : k ≤ len)
    (hfuel : len - k ≤ fuel) (hmem : s.mem = splice m buf (userWindow m r va) k)
    (hQ : Q () (s.setMem (splice m buf (userWindow m r va) len))) :
    Sat (copyinLoop r fuel (buf + k) (va + k) (len - k)) s G Q E := by
  induction fuel generalizing s k with
  | zero =>
      obtain rfl : k = len := by omega
      rw [copyinLoop, sat_pure]
      rwa [← hmem] at hQ
  | succ fuel ih =>
      by_cases hend : k = len
      · subst hend
        rw [Nat.sub_self, copyinLoop_done]
        rwa [← hmem] at hQ
      have hpos : 0 < len - k := by omega
      have hcpos := chunk_pos (a := va + k) hpos
      have hle := chunk_le (va + k) (len - k)
      have hkeep : ∀ a, (a < buf ∨ buf + len ≤ a) → s.mem a = m a := by
        intro a ha
        rw [hmem]
        exact splice_out (by omega)
      have hwalk := h.inBuffer (fun a ha => by by_contra hc; exact ha (hkeep a (by omega)))
        (show k < len by omega)
      have hmap := mapped_congr (h.mapped k (by omega)) hwalk
      unfold copyinLoop
      rw [if_pos hpos, sat_bind, pgRoundDown, userPage_mapped hmap, hwalk.1, sat_bind,
        sat_memmove (by omega),
        chunk_next hmap.1]
      have hnext :
          splice s.mem (buf + k)
            (window s.mem (pteToPa (leaf m r ((va + k) / pgSize)) + (va + k) % pgSize))
            (chunk (va + k) (len - k)) = splice m buf (userWindow m r va)
            (k + chunk (va + k) (len - k)) := by
        rw [← splice_splice_append, ← hmem]
        refine splice_congr fun i hi => ?_
        have haddr :
            userAddr m r (va + (k + i)) = pteToPa (leaf m r ((va + k) / pgSize)) +
              (va + k) % pgSize + i := by
          rw [← Nat.add_assoc]
          exact userAddr_chunk hi
        unfold window userWindow
        rw [haddr]
        refine hkeep _ ?_
        by_contra hc
        refine h.source (pteToPa (leaf m r ((va + k) / pgSize)) + (va + k) % pgSize + i - buf)
          (by omega) (k + i)
          (by omega) ?_
        rw [haddr]
        omega
      rw [hnext]
      by_cases hlast : k + chunk (va + k) (len - k) = len
      · rw [show len - k - chunk (va + k) (len - k) = 0 by omega, copyinLoop_done, hlast]
        exact hQ
      · have hroom := h.room
        rw [u64_of_lt (by omega), Nat.add_assoc, Nat.add_assoc, Nat.sub_sub]
        exact ih htext (by omega) (by omega) rfl hQ

theorem copyoutLoop_run (h : CopyRange m r va buf len)
    (htext : ∀ i < len, s.etext ≤ userAddr m r (va + i))
    (hk : k ≤ len) (hfuel : len - k ≤ fuel) (hmem : OutTo m r va buf k s.mem)
    (hQ : ∀ m', OutTo m r va buf len m' → Q () (s.setMem m')) :
    Sat (copyoutLoop r fuel (va + k) (.memory (buf + k)) (len - k)) s G Q E := by
  induction fuel generalizing s k with
  | zero =>
      obtain rfl : k = len := by omega
      rw [copyoutLoop, sat_pure]
      exact hQ _ hmem
  | succ fuel ih =>
      by_cases hend : k = len
      · subst hend
        rw [Nat.sub_self, copyoutLoop_done]
        exact hQ _ hmem
      have hpos : 0 < len - k := by omega
      have hcpos := chunk_pos (a := va + k) hpos
      have hle := chunk_le (va + k) (len - k)
      have hwalk := hmem.walk h hk (i := k) (by omega)
      have hmap := mapped_congr (h.mapped k (by omega)) hwalk
      have haddr : ∀ i < chunk (va + k) (len - k), userAddr m r (va + (k + i)) =
          pteToPa (leaf m r ((va + k) / pgSize)) + (va + k) % pgSize + i := by
        intro i hi
        rw [← Nat.add_assoc]
        exact userAddr_chunk hi
      have hfirst := haddr 0 hcpos
      rw [Nat.add_zero, Nat.add_zero] at hfirst
      unfold copyoutLoop
      rw [if_pos hpos, sat_bind, pgRoundDown, userPage_mapped hmap, hwalk.1,
        sat_bind, KernelSrc.move,
        sat_memmove (by have := htext k (by omega); omega), chunk_next hmap.1]
      have hnext : OutTo m r va buf (k + chunk (va + k) (len - k)) (splice s.mem
          (pteToPa (leaf m r ((va + k) / pgSize)) + (va + k) % pgSize) (window s.mem (buf + k))
          (chunk (va + k) (len - k))) := by
        refine ⟨fun i hi => ?_, fun a ha => ?_⟩
        · by_cases hik : i < k
          · -- a byte copied in an earlier turn
            rw [splice_out, hmem.bytes i hik]
            by_contra hc
            have hj := haddr
              (userAddr m r (va + i) - (pteToPa (leaf m r ((va + k) / pgSize)) + (va + k) % pgSize))
              (by omega)
            have hsame :=
              h.inj (i := i) (by omega) (by omega)
                ((show userAddr m r (va + i) = _ by omega).trans hj.symm)
            omega
          · obtain ⟨j, rfl⟩ := Nat.exists_eq_add_of_le (Nat.not_lt.mp hik)
            rw [haddr j (by omega), splice_in (by omega) (by omega),
              Nat.add_sub_cancel_left, window, Nat.add_assoc]
            exact hmem.frame _ fun i hi => h.source (k + j) (by omega) i (by omega)
        · rw [splice_out, hmem.frame a fun i hi => ha i (by omega)]
          by_contra hc
          have hj := haddr (a - (pteToPa (leaf m r ((va + k) / pgSize)) + (va + k) % pgSize))
            (by omega)
          refine ha (k + (a - (pteToPa (leaf m r ((va + k) / pgSize)) + (va + k) % pgSize)))
            (by omega) ?_
          omega
      by_cases hlast : k + chunk (va + k) (len - k) = len
      · rw [show len - k - chunk (va + k) (len - k) = 0 by omega, copyoutLoop_done]
        rw [hlast] at hnext
        exact hQ _ hnext
      · have hroom := h.room
        rw [KernelSrc.advance, u64_of_lt (by omega), Nat.add_assoc, Nat.add_assoc, Nat.sub_sub]
        exact ih htext (by omega) (by omega) hnext hQ

/-! ### The loops end -/

theorem copyinLoop_fuel (fuel fuel' dst src : Nat) (h : len ≤ fuel) (h' : len ≤ fuel') :
    copyinLoop r fuel dst src len = copyinLoop r fuel' dst src len := by
  induction fuel generalizing fuel' dst src len with
  | zero =>
      obtain rfl : len = 0 := Nat.le_zero.mp h
      cases fuel' <;> rfl
  | succ fuel ih =>
      cases fuel' with
      | zero =>
          obtain rfl : len = 0 := Nat.le_zero.mp h'
          rfl
      | succ fuel' =>
          rw [copyinLoop, copyinLoop]
          split
          · next hpos =>
            have hcpos := chunk_pos (a := src) hpos
            exact bind_congr fun pa => bind_congr fun _ => ih _ _ _ (by omega) (by omega)
          · rfl

theorem copyoutLoop_fuel (fuel fuel' dst : Nat) (src : KernelSrc)
    (h : len ≤ fuel) (h' : len ≤ fuel') :
    copyoutLoop r fuel dst src len = copyoutLoop r fuel' dst src len := by
  induction fuel generalizing fuel' dst src len with
  | zero =>
      obtain rfl : len = 0 := Nat.le_zero.mp h
      cases fuel' <;> rfl
  | succ fuel ih =>
      cases fuel' with
      | zero =>
          obtain rfl : len = 0 := Nat.le_zero.mp h'
          rfl
      | succ fuel' =>
          rw [copyoutLoop, copyoutLoop]
          split
          · next hpos =>
            have hcpos := chunk_pos (a := dst) hpos
            exact bind_congr fun pa => bind_congr fun _ => ih _ _ _ (by omega) (by omega)
          · rfl

/-- Without a zero the inner loop copies all it is given. -/
theorem copyinStrPage_all {d p c i j : Nat}
    (h : (copyinStrPage d p c i s).1 = .ok ((false, j), s')) : j = i + c := by
  induction c generalizing i s with
  | zero =>
      cases h
      rfl
  | succ c ih =>
      obtain ⟨b, _, -, h⟩ := ok_of_bind h
      obtain ⟨_, _, -, h⟩ := ok_of_bind h
      split at h
      · cases h
      · rw [ih h]
        omega

theorem copyinStrLoop_fuel (fuel fuel' dst src : Nat) (h : len ≤ fuel) (h' : len ≤ fuel') :
    copyinStrLoop r fuel dst src len = copyinStrLoop r fuel' dst src len := by
  induction fuel generalizing fuel' dst src len with
  | zero =>
      obtain rfl : len = 0 := Nat.le_zero.mp h
      cases fuel' <;> rfl
  | succ fuel ih =>
      cases fuel' with
      | zero =>
          obtain rfl : len = 0 := Nat.le_zero.mp h'
          rfl
      | succ fuel' =>
          rw [copyinStrLoop, copyinStrLoop]
          split
          · next hpos =>
            have hcpos := chunk_pos (a := src) hpos
            refine bind_congr fun pa => funext fun t => bind_congr_ok fun x t' hx => ?_
            obtain ⟨found, i⟩ := x
            cases found with
            | true => rfl
            | false =>
                have hi := copyinStrPage_all hx
                exact congrFun (ih _ _ _ (by omega) (by omega)) t'
          · rfl

end

section

variable {s : Kernel} {m m' : Bytes} {r v va buf buf' i k len q : Nat}

/-! ### The four copies -/

/-- A range stays one when bytes are copied to it. -/
theorem OutTo.range (h : CopyRange m r va buf len) (h' : CopyRange m r va buf' len)
    (ho : OutTo m r va buf len m') :
    CopyRange m' r va buf' len := by
  have hwalk := fun i (hi : i < len) => ho.walk h (Nat.le_refl _) hi
  have hon := fun i (hi : i < len) => ho.tables h (Nat.le_refl _) hi
  have haddr : ∀ i < len, userAddr m' r (va + i) = userAddr m r (va + i) := by
    intro i hi
    unfold userAddr
    rw [(hwalk i hi).1]
  refine ⟨⟨fun i hi j hj => ?_, fun i hi j hj q hq => ?_⟩, h'.below, h'.address, h'.room,
    fun i hi => ?_, fun i hi j hj => ?_,
    fun i hi j hj q hq => ?_⟩
  · rw [haddr j hj]
    exact h'.source i hi j hj
  · exact h'.table i hi j hj q (onWalk_congr (hon j hj) hq)
  · exact mapped_congr (h'.mapped i hi) (hwalk i hi)
  · rw [(hwalk i hi).1, (hwalk j hj).1]
    exact h'.distinct i hi j hj
  · rw [haddr i hi]
    exact h'.frames i hi j hj q (onWalk_congr (hon j hj) hq)

/-- What `uvm_copyout` does. -/
theorem uvmCopyout_exact (h : CopyRange s.mem r va buf len)
    (htext : ∀ i < len, s.etext ≤ userAddr s.mem r (va + i)) :
    ∃ m', (uvmCopyout r va (.memory buf) len s).1 = .ok ((), s.setMem m') ∧
    OutTo s.mem r va buf len m' := by
  have hs : Sat (uvmCopyout r va (.memory buf) len) s (fun _ => True)
      (fun _ s' => ∃ m', s' = s.setMem m' ∧ OutTo s.mem r va buf len m') fun _ => False := by
    have hnil : OutTo s.mem r va buf 0 s.mem := ⟨nofun, fun _ _ => rfl⟩
    exact copyoutLoop_run (k := 0) h htext (Nat.zero_le _) (Nat.le_refl _) hnil
      fun m' ho => ⟨m', rfl, ho⟩
  obtain ⟨_, s', hr, m', rfl, ho⟩ := hs.returns
  exact ⟨m', hr, ho⟩

/-- What `uvm_copyin` does. -/
theorem uvmCopyin_exact (h : CopyRange s.mem r va buf len) (htext : s.etext ≤ buf) :
    (uvmCopyin r buf va len s).1 =
    .ok ((), s.setMem (splice s.mem buf (userWindow s.mem r va) len)) := by
  have hs : Sat (uvmCopyin r buf va len) s (fun _ => True)
      (fun _ s' => s' = s.setMem (splice s.mem buf (userWindow s.mem r va) len)) fun _ => False :=
    copyinLoop_run (k := 0) h htext (Nat.zero_le _) (Nat.le_refl _) (splice_zero _ _ _).symm rfl
  obtain ⟨_, s', hr, rfl⟩ := hs.returns
  exact hr

/-- What `uvm_copyin_str` does to its buffer. -/
theorem uvmCopyinStr_exact (h : CopyRange s.mem r va buf len) (htext : s.etext < buf) :
    ∃ m', (uvmCopyinStr r buf va len s).1 = .ok ((), s.setMem m') ∧
      ∀ k < len, (∀ i < k, s.mem (userAddr s.mem r (va + i)) ≠ 0) →
      m' (buf + k) = s.mem (userAddr s.mem r (va + k)) := by
  have hseen : ∀ k < len, byteSeen s.mem r buf va k = s.mem (userAddr s.mem r (va + k)) :=
    fun k hk => h.toSeparate.byteSeen hk
  have hbuf := h.address
  have hsub : sub64 buf 1 = buf - 1 := by
    unfold sub64 u64
    omega
  have hs : Sat (uvmCopyinStr r buf va len) s (fun _ => True) (fun _ s' => ∃ m', s' = s.setMem m' ∧
      ∀ k < len, (∀ i < k, s.mem (userAddr s.mem r (va + i)) ≠ 0) →
      m' (buf + k) = s.mem (userAddr s.mem r (va + k)))
      fun _ => False := by
    refine uvmCopyinStr_run hbuf (fun hc => by omega) (fun hc => by omega)
      (fun i hi _ hn => absurd ?_ hn)
      fun found j m' _ hrun => ⟨_, rfl, fun k hk hz => ?_⟩
    · refine mapped_congr (h.mapped i hi) (h.toSeparate.walk hi fun a ha => ?_)
      by_contra hc
      exact ha (strCopy_snd_outside (by omega))
    · have hlast : strEnd found buf m' (buf + k) = m' (buf + k) := by
        unfold strEnd
        split
        · rfl
        · exact splice_out (by omega)
      rw [hlast]
      cases found with
      | true =>
          obtain ⟨hj, hzero, rfl⟩ := hrun.zero rfl
          have hkj : k ≤ j := by
            by_contra hc
            rw [Nat.zero_add, hseen j hj] at hzero
            exact hz j (by omega) hzero
          rw [strCopy_byte (by omega), hseen k hk]
      | false =>
          obtain ⟨rfl, rfl⟩ := hrun.full rfl
          rw [strCopy_byte (by omega), hseen k hk]
  obtain ⟨_, s', hr, m', rfl, hm⟩ := hs.returns
  exact ⟨m', hr, hm⟩

/-- The copies move exactly the bytes of the range, as far as the kernel can write to the
destination, and their loops end. -/
theorem user_copies_exact (h : CopyRange s.mem r va buf len) :
    ((∀ i < len, s.etext ≤ userAddr s.mem r (va + i)) →
      ∃ m', (uvmCopyout r va (.memory buf) len s).1 = .ok ((), s.setMem m') ∧
        (∀ i < len, userAddr m' r (va + i) = userAddr s.mem r (va + i) ∧
          m' (userAddr m' r (va + i)) = s.mem (buf + i)) ∧
        (∀ a, (∀ i < len, a ≠ userAddr s.mem r (va + i)) → m' a = s.mem a) ∧
        ∀ buf', CopyRange s.mem r va buf' len → s.etext ≤ buf' →
          ∃ m'', (uvmCopyin r buf' va len (s.setMem m')).1 = .ok ((), s.setMem m'') ∧
            ∀ i < len, m'' (buf' + i) = s.mem (buf + i)) ∧
    (s.etext ≤ buf → ∃ m', (uvmCopyin r buf va len s).1 = .ok ((), s.setMem m') ∧
      (∀ i < len, m' (buf + i) = s.mem (userAddr s.mem r (va + i))) ∧
      ∀ a, a < buf ∨ buf + len ≤ a → m' a = s.mem a) ∧
    (s.etext < buf → ∃ m', (uvmCopyinStr r buf va len s).1 = .ok ((), s.setMem m') ∧
      ∀ k < len, (∀ i < k, s.mem (userAddr s.mem r (va + i)) ≠ 0) →
      m' (buf + k) = s.mem (userAddr s.mem r (va + k))) ∧
    ∀ fuel, len ≤ fuel →
      copyoutLoop r fuel va (.memory buf) len = uvmCopyout r va (.memory buf) len ∧
      copyinLoop r fuel buf va len = uvmCopyin r buf va len ∧
      copyinStrLoop r fuel buf va len = copyinStrLoop r len buf va len := by
  refine ⟨fun htext => ?_, fun htext => ?_, uvmCopyinStr_exact h, fun fuel hf => ?_⟩
  · obtain ⟨m', hr, ho⟩ := uvmCopyout_exact h htext
    have haddr : ∀ i < len, userAddr m' r (va + i) = userAddr s.mem r (va + i) := by
      intro i hi
      unfold userAddr
      rw [(ho.walk h (Nat.le_refl _) hi).1]
    refine ⟨m', hr, fun i hi => ⟨haddr i hi, ?_⟩, ho.frame, fun buf' h' htext' => ?_⟩
    · rw [haddr i hi]
      exact ho.bytes i hi
    · refine ⟨_, uvmCopyin_exact (s := s.setMem m') (ho.range h h') htext', fun i hi => ?_⟩
      rw [splice_in (by omega) (by omega), Nat.add_sub_cancel_left, userWindow,
        setMem_mem, haddr i hi]
      exact ho.bytes i hi
  · refine ⟨_, uvmCopyin_exact h htext, fun i hi => ?_, fun a ha => splice_out ha⟩
    rw [splice_in (by omega) (by omega), Nat.add_sub_cancel_left]
    rfl
  · exact ⟨copyoutLoop_fuel _ _ _ _ hf (Nat.le_refl _), copyinLoop_fuel _ _ _ _ hf (Nat.le_refl _),
      copyinStrLoop_fuel _ _ _ _ hf (Nat.le_refl _)⟩

end

/-- The tables on a walk, top down. -/
theorem onWalk_cases {m : Bytes} {r v q q₁ q₀ : Nat} (h1 : tableAt m r [vpnIndex v 2] = some q₁)
    (h0 : tableAt m r (lowPos v) = some q₀) (h : OnWalk m r v q) : q = r ∨ q = q₁ ∨ q = q₀ := by
  obtain ⟨x, hx, ht⟩ := h
  rcases List.suffix_cons_iff.mp hx with rfl | hx
  · exact .inr (.inr (Option.some.inj (ht.symm.trans h0)))
  rcases List.suffix_cons_iff.mp hx with rfl | hx
  · exact .inr (.inl (Option.some.inj (ht.symm.trans h1)))
  · obtain rfl := List.suffix_nil.mp hx
    exact .inl (Option.some.inj ht).symm

/-- A range of user bytes whose pages hang on the same tables, and a buffer apart from them. -/
theorem copyRange_tables (q₁ q₀ : Nat) {m : Bytes} {r va buf len : Nat}
    (hva : va + len ≤ vaMax) (hbuf : buf < 2 ^ 64)
    (hroom : buf + len ≤ 2 ^ 64) (hmap : ∀ i < len, Mapped m r ((va + i) / pgSize))
    (htabs : ∀ i < len, tableAt m r [vpnIndex ((va + i) / pgSize) 2] = some q₁ ∧
      tableAt m r (lowPos ((va + i) / pgSize)) = some q₀)
    (hdistinct : ∀ i < len, ∀ j < len, pteToPa (leaf m r ((va + i) / pgSize)) =
      pteToPa (leaf m r ((va + j) / pgSize)) →
      (va + i) / pgSize = (va + j) / pgSize)
    (hne : ∀ i < len, ∀ j < len, buf + i ≠ userAddr m r (va + j))
    (hout : ∀ q ∈ [r, q₁, q₀], ∀ i < len, ¬ (q ≤ buf + i ∧ buf + i < q + pgSize) ∧
      ¬ (q ≤ userAddr m r (va + i) ∧ userAddr m r (va + i) < q + pgSize)) :
    CopyRange m r va buf len := by
  have hq : ∀ j < len, ∀ q, OnWalk m r ((va + j) / pgSize) q → q ∈ [r, q₁, q₀] := by
    intro j hj q hq
    rcases onWalk_cases (htabs j hj).1 (htabs j hj).2 hq with rfl | rfl | rfl <;> simp
  exact ⟨⟨hne, fun i hi j hj q hw => (hout q (hq j hj q hw) i hi).1⟩, hva, hbuf,
    hroom, hmap, hdistinct,
    fun i hi j hj q hw => (hout q (hq j hj q hw) i hi).2⟩

/-- Memory where each byte is the low byte of its address, but for a page table at 0x1000 that maps
page 0 to 0x6000 and page 1 to 0x4000. -/
def twoPages : Bytes :=
  putLE (putLE (putLE (putLE UInt8.ofNat 0x1000 8 0x801) 0x2000 8 0xC01) 0x3000 8 0x1801) 0x3008 8
    0x1001

/-- A string of three bytes, whose NUL is on the next page. -/
theorem uvmCopyinStr_within_string :
    ∃ s', (uvmCopyinStr 0x1000 0x8001 0xFFD 8 (Kernel.start 0 0 0 twoPages)).1 = .ok ((), s') ∧
    (StrWithin (Kernel.start 0 0 0 twoPages) 0x8001 8 s' ↔
      ∃ k < 8, byteSeen twoPages 0x1000 0x8001 0xFFD k = 0) := by
  have hok : (uvmCopyinStr 0x1000 0x8001 0xFFD 8 (Kernel.start 0 0 0 twoPages)).1.isOk =
    true := by decide +kernel
  cases hr : (uvmCopyinStr 0x1000 0x8001 0xFFD 8 (Kernel.start 0 0 0 twoPages)).1 with
  | error e =>
      rw [hr] at hok
      cases hok
  | ok p => exact ⟨p.2, rfl, uvmCopyinStr_within_iff (by decide) (by decide) (by decide) hr⟩

/-- Memory with one byte everywhere but in a page table at 0x1000, which maps page 0 to 0x4000. -/
def onePage (b : UInt8) : Bytes :=
  putLE (putLE (putLE (fun _ => b) 0x1000 8 0x801) 0x2000 8 0xC01) 0x3000 8 0x1001

/-- A string without end, into a buffer of one byte at 0x5001: the NUL is written to 0x5000. -/
theorem uvmCopyinStr_writes_before :
    ∃ s', (uvmCopyinStr 0x1000 0x5001 0 1 (Kernel.start 0 0 0 (onePage 97))).1 = .ok ((), s') ∧
    ¬ StrWithin (Kernel.start 0 0 0 (onePage 97)) 0x5001 1 s' := by
  have hbyte : (uvmCopyinStr 0x1000 0x5001 0 1 (Kernel.start 0 0 0 (onePage 97))).1.toOption.map
      (fun p => (p.2.mem 0x5000, onePage 97 0x5000)) = some (0, 97) := by decide +kernel
  cases hr : (uvmCopyinStr 0x1000 0x5001 0 1 (Kernel.start 0 0 0 (onePage 97))).1 with
  | error e =>
      rw [hr] at hbyte
      cases hbyte
  | ok p =>
      rw [hr] at hbyte
      obtain ⟨hzero, hold⟩ := Prod.mk.inj (Option.some.inj hbyte)
      refine ⟨p.2, rfl, fun ⟨hin, _⟩ => ?_⟩
      have hne : p.2.mem 0x5000 ≠ onePage 97 0x5000 := by
        rw [hzero, hold]
        decide
      exact absurd (hin 0x5000 hne).1 (by decide)

/-- Six bytes out to user memory, across a page boundary. -/
theorem user_copies_exact_crossing :
    ∃ m', (uvmCopyout 0x1000 0xFFD (.memory 0x8001) 6 (Kernel.start 0 0 0 twoPages)).1 =
      .ok ((), (Kernel.start 0 0 0 twoPages).setMem m') ∧
    ∀ i < 6, userAddr m' 0x1000 (0xFFD + i) = userAddr twoPages 0x1000 (0xFFD + i) ∧
      m' (userAddr m' 0x1000 (0xFFD + i)) = twoPages (0x8001 + i) := by
  have hmap : ∀ i < 6, Mapped twoPages 0x1000 ((0xFFD + i) / pgSize) := by
    unfold Mapped
    decide +kernel
  have hrange : CopyRange twoPages 0x1000 0xFFD 0x8001 6 :=
    copyRange_tables 0x2000 0x3000 (by decide) (by decide) (by decide) hmap
      (by decide +kernel) (by decide +kernel)
      (by decide +kernel) (by decide +kernel)
  obtain ⟨m', hr, hbytes, -⟩ :=
    (user_copies_exact (s := Kernel.start 0 0 0 twoPages) hrange).1 fun _ _ => Nat.zero_le _
  exact ⟨m', hr, hbytes⟩

/-- Tables that map the trampoline page to the trampoline, in the text of the kernel. -/
def trampolineTables : Bytes :=
  putLE (putLE (putLE (fun _ => 0) (0x80200000 + 8 * 255) 8 0x20080401)
    (0x80201000 + 8 * 511) 8 0x20080801)
    (0x80202000 + 8 * 511) 8 0x2000000B

/-- A copy to the trampoline page does not return: the kernel may not write to its text. -/
theorem user_copyout_text_faults :
    CopyRange trampolineTables 0x80200000 trampolineVa 0x80300000 1 ∧
      (uvmCopyout 0x80200000 trampolineVa (.memory 0x80300000) 1
        (Kernel.start 0x80010000 0x80000000 0x80008000 trampolineTables)).1 =
          .error .storeFault := by
  constructor
  · have hmap : ∀ i < 1, Mapped trampolineTables 0x80200000 ((trampolineVa + i) / pgSize) := by
      unfold Mapped
      decide +kernel
    exact copyRange_tables 0x80201000 0x80202000 (by decide) (by decide)
      (by decide) hmap (by decide +kernel)
      (by decide +kernel) (by decide +kernel) (by decide +kernel)
  · have he : (match (uvmCopyout 0x80200000 trampolineVa (.memory 0x80300000) 1
        (Kernel.start 0x80010000 0x80000000 0x80008000 trampolineTables)).1 with
        | .ok _ => none
        | .error e => some e) = some Panic.storeFault := by decide +kernel
    split at he
    · cases he
    · next hr =>
      rw [hr, Option.some.inj he]

end WhuOs.Mem
