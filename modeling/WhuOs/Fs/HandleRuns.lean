import WhuOs.Fs.Icache

/-! # Runs of handle holders

A run counts the handles that are out on each entry of the `icache`. As long as they
are fewer than `2 ^ 32`, which the 32-bit count of the source can hold, the references
of every entry are these handles and no inode number is in two entries.
-/

namespace WhuOs.Fs

open Prog

/-! ## The calls with 32 bits -/

def incRef (r : Nat) : Nat := u32 (r + 1)

def decRef (r : Nat) : Nat := u32 (r + (2 ^ 32 - 1))

theorem incRef_eq {r : Nat} (h : r + 1 < 2 ^ 32) : incRef r = r + 1 := Nat.mod_eq_of_lt h

theorem decRef_eq {r : Nat} (hpos : 0 < r) (h : r < 2 ^ 32) : decRef r = r - 1 := by
  unfold decRef u32
  omega

section

variable {s s₁ : State} {ip : Slot} {n : Nat} {lk : Lock}

theorem acquire_ok (h : (spinlockAcquire lk s).1 = .ok ((), s₁)) : s₁ = s.setLock lk true :=
  (acquire_any (G := fun _ => True) (Q := fun _ t => t = s.setLock lk true) fun _ => rfl).of_ok h

theorem modifyInode_congr {α : Type} {f g : Inode → Inode}
    (h : f (s.icache ip) = g (s.icache ip)) (k : Unit → FsM α) :
    (modifyInode ip f >>= k) s = (modifyInode ip g >>= k) s := by
  have hsame : modifyInode ip f s = modifyInode ip g s := by
    unfold modifyInode Prog.modify
    dsimp only
    rw [h]
  simp only [Bind.bind, seq, hsame]

/-! With fewer than `2 ^ 32` references these are the calls of the other modules. -/

theorem inodeDupWith_incRef (h : (s.icache ip).ref + 1 < 2 ^ 32) :
    inodeDupWith incRef ip s = inodeDup ip s := by
  unfold inodeDupWith inodeDup
  refine bind_congr_ok fun _ s₁ h₁ => ?_
  obtain rfl := acquire_ok h₁
  exact modifyInode_congr (by rw [setLock_icache, incRef_eq h]) _

theorem inodeFreeWith_decRef (hpos : 0 < (s.icache ip).ref) (h : (s.icache ip).ref < 2 ^ 32) :
    inodeFreeWith decRef ip s = inodeFree ip s := by
  unfold inodeFreeWith inodeFree
  refine bind_congr_ok fun _ s₁ h₁ => ?_
  obtain rfl := acquire_ok h₁
  exact modifyInode_congr (by rw [setLock_icache, decRef_eq hpos h]) _

theorem inodeAllocWith_incRef (h : ∀ ip, (s.icache ip).ref + 1 < 2 ^ 32) :
    inodeAllocWith incRef n s = inodeAlloc n s := by
  unfold inodeAllocWith inodeAlloc
  refine bind_congr_ok fun _ s₁ h₁ => ?_
  obtain rfl := acquire_ok h₁
  refine bind_congr_ok fun t s₂ h₂ => ?_
  cases h₂
  dsimp only
  cases (List.finRange nInode).find? fun i => ((s.setLock .icache true).icache i).inodeNum = n with
  | some ip => exact modifyInode_congr (by rw [setLock_icache, incRef_eq (h ip)]) _
  | none => rfl

theorem inodeCreateWith_incRef (h : ∀ ip, (s.icache ip).ref + 1 < 2 ^ 32)
    (type major minor : UInt16) :
    inodeCreateWith incRef type major minor s = inodeCreate type major minor s := by
  unfold inodeCreateWith inodeCreate
  refine bind_congr_ok fun num s₁ h₁ => ?_
  have hic : s₁.icache = s.icache := congrArg (fun o => o.2.1) (bitmapAllocInode_keeps.of_ok h₁)
  split
  · rfl
  · have halloc : inodeAllocWith incRef num s₁ = inodeAlloc num s₁ :=
      inodeAllocWith_incRef (hic ▸ h)
    simp only [Bind.bind, seq, halloc]

end

/-! ## Runs -/

/-- One call; `alloc`, `create` and `dup` add a handle, `free` gives one back. -/
inductive HandleStep (out : List Slot) (s : State) : List Slot → State → Prop where
  | alloc {n : Nat} {ip : Slot} {s' : State} (num : n ≠ inodeNumUnused)
      (run : (inodeAllocWith incRef n s).1 = .ok (ip, s')) : HandleStep out s (ip :: out) s'
  | create {type major minor : UInt16} {ip : Slot} {s' : State}
      (run : (inodeCreateWith incRef type major minor s).1 = .ok (some ip, s')) :
      HandleStep out s (ip :: out) s'
  | createFull {type major minor : UInt16} {s' : State}
      (run : (inodeCreateWith incRef type major minor s).1 = .ok (none, s')) :
      HandleStep out s out s'
  | dup {ip copy : Slot} {s' : State} (holder : ip ∈ out)
      (run : (inodeDupWith incRef ip s).1 = .ok (copy, s')) : HandleStep out s (copy :: out) s'
  | lock {ip : Slot} {s' : State} (holder : ip ∈ out)
      (run : (inodeLock ip s).1 = .ok ((), s')) : HandleStep out s out s'
  | unlock {ip : Slot} {s' : State} (holder : ip ∈ out)
      (run : (inodeUnlock ip s).1 = .ok ((), s')) : HandleStep out s out s'
  | free {ip : Slot} {s' : State} (holder : ip ∈ out)
      (run : (inodeFreeWith decRef ip s).1 = .ok ((), s')) : HandleStep out s (out.erase ip) s'

/-- `out` are the handles that were not given back since `inode_init`, and they met `M` all the
time. -/
inductive HandleRuns (M : List Slot → Prop) : List Slot → State → Prop where
  | init {s₀ s : State} (run : (inodeInit s₀).1 = .ok ((), s)) : HandleRuns M [] s
  | step {out out' : List Slot} {s s' : State} (run : HandleRuns M out s)
      (last : HandleStep out s out' s') (meets : M out') : HandleRuns M out' s'

/-- Fewer handles are out on each entry than 32 bits can count. -/
def FewHandles (out : List Slot) : Prop := ∀ i, out.count i < 2 ^ 32

/-- The entries `f`, given as numbers and reference counts, when the handles `out` are out. -/
structure Counted (out : List Slot) (f : Slot → Nat × Nat) : Prop where
  uniq : ∀ i j, (f i).1 = (f j).1 → (f i).1 ≠ inodeNumUnused → i = j
  ref : ∀ i, (f i).2 = out.count i
  used : ∀ i ∈ out, (f i).1 ≠ inodeNumUnused

section

variable {out out' : List Slot} {f : Slot → Nat × Nat} {ip : Slot} {n : Nat} {s s' : State}

def Renamed (out out' : List Slot) (f f' : Slot → Nat × Nat) : Prop :=
  ∀ i, i ∈ out → i ∈ out' → (f' i).1 = (f i).1

theorem Counted.take (h : Counted out f) (hn : n ≠ inodeNumUnused)
    (hslot : (f ip).1 = n ∨ (∀ j, (f j).1 ≠ n) ∧ (f ip).2 = 0) :
    Counted (ip :: out) (Function.update f ip (n, (f ip).2 + 1)) ∧
      Renamed out (ip :: out) f (Function.update f ip (n, (f ip).2 + 1)) := by
  have hother : ∀ j, j ≠ ip → (f j).1 ≠ n := by
    intro j hj hjn
    rcases hslot with hip | ⟨hmiss, -⟩
    · exact hj (h.uniq j ip (hjn.trans hip.symm) (hjn ▸ hn))
    · exact hmiss j hjn
  refine ⟨⟨fun i j hij hne => ?_, fun i => ?_, fun i hi => ?_⟩, fun i hi _ => ?_⟩
  · by_cases hi : i = ip <;> by_cases hj : j = ip
    · rw [hi, hj]
    · rw [hi, Function.update_self, Function.update_of_ne hj] at hij
      exact absurd hij.symm (hother j hj)
    · rw [hj, Function.update_self, Function.update_of_ne hi] at hij
      exact absurd hij (hother i hi)
    · rw [Function.update_of_ne hi, Function.update_of_ne hj] at hij
      rw [Function.update_of_ne hi] at hne
      exact h.uniq i j hij hne
  · by_cases hi : i = ip
    · rw [hi, Function.update_self, List.count_cons_self, h.ref]
    · rw [Function.update_of_ne hi, List.count_cons_of_ne (Ne.symm hi), h.ref]
  · by_cases hip : i = ip
    · rw [hip, Function.update_self]
      exact hn
    · rw [Function.update_of_ne hip]
      exact h.used i ((List.mem_cons.mp hi).resolve_left hip)
  · by_cases hip : i = ip
    · rw [hip] at hi ⊢
      rw [Function.update_self]
      rcases hslot with hnum | ⟨-, hzero⟩
      · exact hnum.symm
      · rw [h.ref] at hzero
        exact absurd hi (List.count_eq_zero.mp hzero)
    · rw [Function.update_of_ne hip]

theorem Counted.drop (h : Counted out f) (hip : ip ∈ out)
    (hn : n = (f ip).1 ∨ n = inodeNumUnused ∧ (f ip).2 - 1 = 0) :
    Counted (out.erase ip) (Function.update f ip (n, (f ip).2 - 1)) ∧
      Renamed out (out.erase ip) f (Function.update f ip (n, (f ip).2 - 1)) := by
  have hkeep : ip ∈ out.erase ip → n = (f ip).1 := by
    intro hm
    refine hn.resolve_right fun hlast => ?_
    have hc := List.count_pos_iff.mpr hm
    rw [List.count_erase_self, ← h.ref] at hc
    omega
  refine ⟨⟨fun i j hij hne => ?_, fun i => ?_, fun i hi => ?_⟩, fun i _ hi => ?_⟩
  · by_cases hi : i = ip <;> by_cases hj : j = ip
    · rw [hi, hj]
    · rw [hi, Function.update_self, Function.update_of_ne hj] at hij
      rw [hi, Function.update_self] at hne
      rw [hi]
      rcases hn with hnum | ⟨hun, -⟩
      · exact h.uniq ip j (hnum ▸ hij) (hnum ▸ hne)
      · exact absurd hun hne
    · rw [hj, Function.update_self, Function.update_of_ne hi] at hij
      rw [Function.update_of_ne hi] at hne
      rw [hj]
      rcases hn with hnum | ⟨hun, -⟩
      · exact h.uniq i ip (hij.trans hnum) hne
      · exact absurd (hij.trans hun) hne
    · rw [Function.update_of_ne hi, Function.update_of_ne hj] at hij
      rw [Function.update_of_ne hi] at hne
      exact h.uniq i j hij hne
  · by_cases hi : i = ip
    · rw [hi, Function.update_self, List.count_erase_self, h.ref]
    · rw [Function.update_of_ne hi, List.count_erase_of_ne hi, h.ref]
  · by_cases hi' : i = ip
    · rw [hi'] at hi ⊢
      rw [Function.update_self, hkeep hi]
      exact h.used ip hip
    · rw [Function.update_of_ne hi']
      exact h.used i (List.mem_of_mem_erase hi)
  · by_cases hi' : i = ip
    · rw [hi'] at hi ⊢
      rw [Function.update_self]
      exact hkeep hi
    · rw [Function.update_of_ne hi']

/-- The numbers of the entries after a call that hands out or copies a handle. -/
theorem Counted.taken {inc : Nat → Nat} {s s' : State} (h : Counted out (slots s))
    (hn : n ≠ inodeNumUnused)
    (ha : AllocPost inc s n ip s') : Renamed out (ip :: out) (slots s) (slots s') ∧
      (inc (slots s ip).2 = (slots s ip).2 + 1 → Counted (ip :: out) (slots s')) := by
  rw [show slots s' =
    Function.update (slots s) ip (n, inc (slots s ip).2) from congrArg Prod.fst ha.holding]
  obtain ⟨hc, hr⟩ := h.take hn ha.slot
  refine ⟨fun i hi hi' => ?_, fun hinc => hinc ▸ hc⟩
  have hsame := hr i hi hi'
  by_cases hip : i = ip
  · rwa [hip, Function.update_self] at hsame ⊢
  · rw [Function.update_of_ne hip]

theorem HandleStep.counted (hs : HandleStep out s out' s') (h : Counted out (slots s))
    (hfew : FewHandles out) :
    Renamed out out' (slots s) (slots s') ∧ (FewHandles out' → Counted out' (slots s')) := by
  have hfit : ∀ ip, FewHandles (ip :: out) → incRef (slots s ip).2 = (slots s ip).2 + 1 := by
    intro ip hm
    have hip := hm ip
    rw [List.count_cons_self, ← h.ref ip] at hip
    exact incRef_eq hip
  cases hs with
  | alloc num run =>
      have ha := (inodeAllocWith_any (G := fun _ => True) rfl _ s).of_ok run
      obtain ⟨hr, hc⟩ := h.taken num ha
      exact ⟨hr, fun hm => hc (hfit _ hm)⟩
  | create run =>
      obtain ⟨n, hn, ha⟩ := (inodeCreateWith_any rfl _ _ _ s).of_ok run
      obtain ⟨hr, hc⟩ := h.taken hn ha
      exact ⟨hr, fun hm => hc (hfit _ hm)⟩
  | createFull run =>
      rw [slots_of_holding ((inodeCreateWith_any rfl _ _ _ s).of_ok run)]
      exact ⟨fun _ _ _ => rfl, fun _ => h⟩
  | dup holder run =>
      obtain ⟨rfl, hd⟩ := (inodeDupWith_any (G := fun _ => True) _ _ s).of_ok run
      obtain ⟨hr, hc⟩ := h.taken (h.used _ holder) ⟨hd, Or.inl rfl⟩
      exact ⟨hr, fun hm => hc (hfit _ hm)⟩
  | lock _ run =>
      rw [show slots s' = slots s from congrArg Prod.fst ((inodeLock_any _ s).of_ok run).2]
      exact ⟨fun _ _ _ => rfl, fun _ => h⟩
  | unlock _ run =>
      rw [show slots s' = slots s from
        congrArg Prod.fst ((inodeUnlock_any (G := fun _ => True) _ s).of_ok run).2]
      exact ⟨fun _ _ _ => rfl, fun _ => h⟩
  | @free ip _ holder run =>
      obtain ⟨num, hf, hnum⟩ := (inodeFreeWith_any _ _ s).of_ok run
      rw [show slots s' = _ from congrArg Prod.fst hf]
      have hpos : 0 < (slots s ip).2 := by
        rw [h.ref]
        exact List.count_pos_iff.mpr holder
      have hlt : (slots s ip).2 < 2 ^ 32 := by
        rw [h.ref]
        exact hfew ip
      rw [decRef_eq hpos hlt] at hnum ⊢
      obtain ⟨hc, hr⟩ := h.drop holder hnum
      exact ⟨hr, fun _ => hc⟩

theorem HandleRuns.counted (h : HandleRuns FewHandles out s) :
    Counted out (slots s) ∧ FewHandles out := by
  induction h with
  | init run =>
      cases run
      refine ⟨⟨fun _ _ _ hne => absurd rfl hne, fun _ => rfl, fun i hi =>
        absurd hi List.not_mem_nil⟩, fun i => ?_⟩
      rw [List.count_nil]
      decide
  | step _ last meets ih => exact ⟨(last.counted ih.1 ih.2).2 meets, meets⟩

end

/-- In every run with fewer than `2 ^ 32` handles on each entry no inode number is in two entries,
the references of an entry are the handles that are out on it, handles on one number are handles on
one entry, and the next call leaves the number of every entry whose handles are not all given
back. -/
theorem icache_handles (out : List Slot) (s : State) (h : HandleRuns FewHandles out s) :
    (∀ i j, (s.icache i).inodeNum = (s.icache j).inodeNum →
      (s.icache i).inodeNum ≠ inodeNumUnused → i = j) ∧
    (∀ i, (s.icache i).ref = out.count i) ∧
    (∀ i ∈ out, ∀ j ∈ out, (s.icache i).inodeNum = (s.icache j).inodeNum → i = j) ∧
    ∀ out' s', HandleStep out s out' s' → ∀ i ∈ out, i ∈ out' →
      (s'.icache i).inodeNum = (s.icache i).inodeNum := by
  obtain ⟨hc, hfew⟩ := h.counted
  refine ⟨hc.uniq, hc.ref, fun i hi j _ hij => hc.uniq i j hij (hc.used i hi), ?_⟩
  intro out' s' hs
  exact (hs.counted hc hfew).1

/-- The root is opened, its handle is copied, and one of the two is given back. -/
theorem icache_handles_root :
    ∃ s, HandleRuns FewHandles [0] s ∧ (s.icache 0).inodeNum = inodeRoot ∧
    (s.icache 0).ref = [(0 : Slot)].count 0 := by
  have hfew : ∀ k < 3, FewHandles (List.replicate k 0) := fun k hk i => by
    have hle := List.count_le_length (a := i) (l := List.replicate k (0 : Slot))
    rw [List.length_replicate] at hle
    omega
  obtain ⟨s₀, s₁, s₂, s₃, h₀, h₁, h₂, h₃, hnum⟩ : ∃ s₀ s₁ s₂ s₃,
      (inodeInit (powerOn fun _ _ => 0)).1 = .ok ((), s₀) ∧
      (inodeAllocWith incRef inodeRoot s₀).1 = .ok (0, s₁) ∧
      (inodeDupWith incRef 0 s₁).1 = .ok (0, s₂) ∧ (inodeFreeWith decRef 0 s₂).1 = .ok ((), s₃) ∧
      (s₃.icache 0).inodeNum = inodeRoot := ⟨_, _, _, _, rfl, rfl, rfl, rfl, rfl⟩
  have hruns : HandleRuns FewHandles [0] s₃ := by
    have h₂₀ := ((HandleRuns.init h₀).step (.alloc (by decide) h₁) (hfew 1 (by decide))).step
      (.dup List.mem_cons_self h₂)
      (hfew 2 (by decide))
    exact h₂₀.step (.free List.mem_cons_self h₃) (hfew 1 (by decide))
  exact ⟨s₃, hruns, hnum, (icache_handles _ _ hruns).2.1 0⟩

/-- A handle copied `k` times. -/
theorem HandleRuns.copies {M : List Slot → Prop} {out : List Slot} {s : State} {ip : Slot}
    (h : HandleRuns M out s)
    (hip : ip ∈ out) (hl : s.locks .icache = false)
    (hM : ∀ k, M (List.replicate k ip ++ out)) (k : Nat) :
    ∃ s', HandleRuns M (List.replicate k ip ++ out) s' ∧ s'.locks .icache = false ∧
      (s'.icache ip).ref = incRef^[k] (s.icache ip).ref := by
  induction k with
  | zero => exact ⟨s, h, hl, rfl⟩
  | succ k ih =>
      obtain ⟨s₁, h₁, hl₁, href⟩ := ih
      have hdup : Sat (inodeDupWith incRef ip) s₁ (fun _ => True)
        (fun r s' => r = ip ∧ s'.locks .icache = false ∧
          (s'.icache ip).ref = incRef (s₁.icache ip).ref) fun _ => False := by
        unfold inodeDupWith
        rw [sat_bind, sat_acquire hl₁, sat_bind, sat_modifyInode, sat_bind,
          sat_release (by simp), sat_pure]
        exact ⟨rfl, by simp, by simp⟩
      obtain ⟨r, s', hrun, rfl, hl', href'⟩ := hdup.returns
      refine ⟨s', .step h₁ (.dup (List.mem_append_right _ hip) hrun) (hM (k + 1)), hl', ?_⟩
      rw [href', href, Function.iterate_succ_apply']

theorem incRef_iterate (k : Nat) : incRef^[k] 1 = u32 (1 + k) := by
  induction k with
  | zero => rfl
  | succ k ih =>
      rw [Function.iterate_succ_apply', ih]
      unfold incRef u32
      omega

/-- After `2 ^ 32 - 1` copies of a handle the count is 0. -/
theorem icache_handles_wrap :
    ∃ out s, HandleRuns (fun _ => True) out s ∧ ∃ i, (s.icache i).ref ≠ out.count i := by
  obtain ⟨s₀, s₁, h₀, h₁, hl, href⟩ : ∃ s₀ s₁, (inodeInit (powerOn fun _ _ => 0)).1 = .ok ((), s₀) ∧
      (inodeAllocWith incRef inodeRoot s₀).1 = .ok (0, s₁) ∧ s₁.locks .icache = false ∧
      (s₁.icache 0).ref = 1 :=
    ⟨_, _, rfl, rfl, rfl, rfl⟩
  have hruns : HandleRuns (fun _ => True) [0] s₁ :=
    (HandleRuns.init h₀).step (.alloc (by decide) h₁) trivial
  obtain ⟨s, hs, -, hcopies⟩ := hruns.copies List.mem_cons_self hl (fun _ => trivial) (2 ^ 32 - 1)
  refine ⟨_, s, hs, 0, ?_⟩
  rw [hcopies, href, incRef_iterate, List.count_append, List.count_replicate_self]
  unfold u32
  omega

end WhuOs.Fs
