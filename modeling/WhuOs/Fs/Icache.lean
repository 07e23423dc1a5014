import WhuOs.Fs.Primitives
import WhuOs.Fs.Frames

/-! # Handles on inodes

What the calls that hand out, copy and give back handles do to the `icache`, from
any state: with any disk, any buffers and any contents of the other entries. The
calls are also given with another arithmetic for the reference count, as the source
has 32 bits for it.
-/

namespace WhuOs.Fs

open Prog

/-- `holding` with another number and reference count in one entry. -/
def withSlot (s : State) (ip : Slot) (v : Nat × Nat) :
    (Slot → Nat × Nat) × (Slot → Bool) × Bool × Option Slot :=
  (Function.update (slots s) ip v, (holding s).2)

def withLock (s : State) (ip : Slot) (v : Bool) :
    (Slot → Nat × Nat) × (Slot → Bool) × Bool × Option Slot :=
  (slots s, Function.update (fun j => s.locks (.inode j)) ip v, s.locks .icache, s.cwd)

section

variable {s s' : State} {ip : Slot} {n : Nat} {G : Event → Prop}

theorem slots_setLock (lk : Lock) (v : Bool) : slots (s.setLock lk v) = slots s := rfl

theorem holding_setInode (x : Inode) :
    holding (s.setInode ip x) = withSlot s ip (x.inodeNum, x.ref) := by
  unfold holding withSlot
  rw [slots_setInode]
  rfl

theorem holding_setLock_inode (v : Bool) : holding (s.setLock (.inode ip) v) = withLock s ip v := by
  have hl : (fun j => (s.setLock (.inode ip) v).locks (.inode j)) =
      Function.update (fun j => s.locks (.inode j)) ip v := by
    funext j
    by_cases hj : j = ip
    · simp [hj]
    · simp [hj]
  unfold holding withLock
  rw [hl, setLock_locks, Function.update_of_ne (by simp)]
  rfl

theorem slots_of_holding (h : holding s' = holding s) : slots s' = slots s := congrArg Prod.fst h

theorem withSlot_self {v : Nat × Nat} (h : slots s ip = v) : withSlot s ip v = holding s := by
  subst h
  unfold withSlot
  rw [Function.update_eq_self]
  rfl

/-! ## Locks in any state -/

/-- Taking a lock panics or finds it free. -/
theorem acquire_any {lk : Lock} {Q : Unit → State → Prop}
    (h : s.locks lk = false → Q () (s.setLock lk true)) :
    Sat (spinlockAcquire lk) s G Q fun _ => True := by
  by_cases hl : s.locks lk = false
  · rw [sat_acquire hl]
    exact h hl
  · have ht : s.locks lk = true := by simpa using hl
    simp [spinlockAcquire, ht]

theorem release_any {lk : Lock} {Q : Unit → State → Prop}
    (h : s.locks lk = true → Q () (s.setLock lk false)) :
    Sat (spinlockRelease lk) s G Q fun _ => True := by
  by_cases hl : s.locks lk = true
  · rw [sat_release hl]
    exact h hl
  · have ht : s.locks lk = false := by simpa using hl
    simp [spinlockRelease, ht]

/-- An update that leaves number and references. -/
theorem modifyInode_any {f : Inode → Inode} {Q : Unit → State → Prop} {E : Panic → Prop}
    (hf : ∀ x, (f x).inodeNum = x.inodeNum ∧ (f x).ref = x.ref)
    (h : ∀ s', holding s' = holding s → Q () s') : Sat (modifyInode ip f) s G Q E := by
  rw [sat_modifyInode]
  exact h _ ((holding_of_around (modifyInode_keeps ip hf)).of_ok rfl)

/-! ## Calls on handles -/

end

/-- `inode_alloc` with `inc` for the increment of the reference count. -/
def inodeAllocWith (inc : Nat → Nat) (inodeNum : Nat) : FsM Slot := do
  spinlockAcquire .icache
  let ic := (← state).icache
  match (List.finRange nInode).find? fun i => (ic i).inodeNum = inodeNum with
  | some ip =>
      modifyInode ip fun x => { x with ref := inc x.ref }
      spinlockRelease .icache
      return ip
  | none =>
    match (List.finRange nInode).find? fun i => (ic i).ref = 0 with
    | none =>
        spinlockRelease .icache
        panic .inodeAllocNoInodes
    | some ip =>
        modifyInode ip fun x => { x with inodeNum := inodeNum, ref := 1, valid := false }
        spinlockRelease .icache
        return ip

def inodeCreateWith (inc : Nat → Nat) (type major minor : UInt16) : FsM (Option Slot) := do
  let inum ← bitmapAllocInode
  if inum = 0xFFFF then return none
  let ip ← inodeAllocWith inc inum
  spinlockAcquire (.inode ip)
  modifyInode ip fun x =>
    { x with
      toDiskInode := { type, major, minor, nlink := 1, size := 0, addrs := fun _ => 0 }
      valid := true }
  inodeRw ip true
  spinlockRelease (.inode ip)
  return some ip

def inodeDupWith (inc : Nat → Nat) (ip : Slot) : FsM Slot := do
  spinlockAcquire .icache
  modifyInode ip fun x => { x with ref := inc x.ref }
  spinlockRelease .icache
  return ip

def inodeFreeWith (dec : Nat → Nat) (ip : Slot) : FsM Unit := do
  spinlockAcquire .icache
  modifyInode ip fun x => { x with ref := dec x.ref }
  let x ← inodeOf ip
  if x.ref = 0 ∧ x.nlink = 0 then inodeDestroy ip
  spinlockRelease .icache

section

variable {s s' : State} {ip : Slot} {n : Nat} {G : Event → Prop} {inc dec : Nat → Nat}

/-- `inode_alloc` returns the entry with the number or, when there is none, an unreferenced one. -/
structure AllocPost (inc : Nat → Nat) (s : State) (n : Nat) (ip : Slot) (s' : State) : Prop where
  holding : holding s' = withSlot s ip (n, inc (slots s ip).2)
  slot : (slots s ip).1 = n ∨ (∀ j, (slots s j).1 ≠ n) ∧ (slots s ip).2 = 0

/-- Changing an entry under `lk_icache`. -/
theorem holding_underIcache (hl : s.locks .icache = false) (x : Inode) :
    holding (((s.setLock .icache true).setInode ip x).setLock .icache false) =
      withSlot s ip (x.inodeNum, x.ref) := by
  rw [setInode_setLock, setLock_setLock,
    setLock_self (show (s.setInode ip x).locks .icache = false from hl)]
  exact holding_setInode x

theorem inodeAllocWith_any (hinc : inc 0 = 1) (n : Nat) (s : State) :
    Sat (inodeAllocWith inc n) s G (AllocPost inc s n) fun _ => True := by
  unfold inodeAllocWith
  rw [sat_bind]
  refine acquire_any fun hl => ?_
  rw [sat_bind, sat_state]
  dsimp only [setLock_icache]
  cases hf : (List.finRange nInode).find? fun i => (s.icache i).inodeNum = n with
  | some ip =>
      have hnum : (s.icache ip).inodeNum = n := by simpa using find_slot_some hf
      rw [sat_bind, sat_modifyInode, sat_bind]
      refine release_any fun _ => (sat_pure _).mpr ⟨?_, .inl hnum⟩
      rw [holding_underIcache hl, setLock_icache]
      dsimp only
      rw [hnum]
      rfl
  | none =>
      have hmiss : ∀ j, (s.icache j).inodeNum ≠ n := fun j => by simpa using find_slot_none hf j
      dsimp only
      cases hr : (List.finRange nInode).find? fun i => (s.icache i).ref = 0 with
      | none =>
          rw [sat_bind]
          exact release_any fun _ => (sat_panic _).mpr trivial
      | some ip =>
          have hfree : (s.icache ip).ref = 0 := by simpa using find_slot_some hr
          rw [sat_bind, sat_modifyInode, sat_bind]
          refine release_any fun _ => (sat_pure _).mpr ⟨?_, .inr ⟨hmiss, hfree⟩⟩
          rw [holding_underIcache hl, show (slots s ip).2 = 0 from hfree, hinc]

theorem inodeAlloc_any (n : Nat) (s : State) :
    Sat (inodeAlloc n) s G (AllocPost (· + 1) s n) fun _ => True :=
  inodeAllocWith_any rfl n s

theorem inodeDupWith_any (inc : Nat → Nat) (ip : Slot) (s : State) :
    Sat (inodeDupWith inc ip) s G (fun r s' => r = ip ∧
      holding s' = withSlot s ip ((slots s ip).1, inc (slots s ip).2)) fun _ => True := by
  unfold inodeDupWith
  rw [sat_bind]
  refine acquire_any fun hl => ?_
  rw [sat_bind, sat_modifyInode, sat_bind]
  exact release_any fun _ => (sat_pure _).mpr ⟨rfl, holding_underIcache hl _⟩

theorem inodeDup_any (ip : Slot) (s : State) :
    Sat (inodeDup ip) s G (fun r s' => r = ip ∧
      holding s' = withSlot s ip ((slots s ip).1, (slots s ip).2 + 1)) fun _ => True :=
  inodeDupWith_any (· + 1) ip s

theorem inodeLock_any (ip : Slot) (s : State) :
    Sat (inodeLock ip) s (fun _ => True) (fun _ s' => s.locks (.inode ip) = false ∧
      holding s' = withLock s ip true) fun _ => True := by
  unfold inodeLock
  rw [sat_bind]
  refine acquire_any fun hl => ?_
  have hk : Leaves holding (do
      if !(← inodeOf ip).valid then
        inodeRw ip false
        modifyInode ip fun x => { x with valid := true }) := by
    refine (inodeOf_keeps ip).bind fun x => keeps_ite ?_ (keeps_pure _)
    refine holding_of_around ((inodeRw_keeps ip false).bind fun _ => ?_)
    exact modifyInode_keeps ip fun _ => ⟨rfl, rfl⟩
  refine (hk.sat _).imp fun _ s' hs' => ⟨hl, ?_⟩
  rw [hs', holding_setLock_inode]

theorem inodeUnlock_any (ip : Slot) (s : State) :
    Sat (inodeUnlock ip) s G (fun _ s' => s.locks (.inode ip) = true ∧
      holding s' = withLock s ip false) fun _ => True :=
  release_any fun hl => ⟨hl, holding_setLock_inode _⟩

/-- Locking and unlocking around calls that keep everything. -/
theorem withLock_restored {s₁ : State} (hl : s.locks (.inode ip) = false)
    (h₁ : holding s₁ = withLock s ip true) : withLock s₁ ip false = holding s := by
  have hlk : (fun j => s₁.locks (.inode j)) =
    Function.update (fun j => s.locks (.inode j)) ip true :=
    congrArg (fun h => h.2.1) h₁
  unfold withLock
  rw [hlk, Function.update_idem]
  have hself : Function.update (fun j => s.locks (.inode j)) ip false = fun j =>
    s.locks (.inode j) := by
    rw [Function.update_eq_self_iff, hl]
  rw [hself, show slots s₁ = slots s from congrArg Prod.fst h₁,
    show s₁.locks .icache = s.locks .icache from congrArg (fun h => h.2.2.1) h₁,
    show s₁.cwd = s.cwd from congrArg (fun h => h.2.2.2) h₁]
  rfl

/-- `inode_destroy` gives up the number of the entry. -/
theorem inodeDestroy_any (ip : Slot) (s : State) :
    Sat (inodeDestroy ip) s (fun _ => True)
      (fun _ s' => holding s' = withSlot s ip (inodeNumUnused, (slots s ip).2)) fun _ => True := by
  unfold inodeDestroy
  simp only [sat_bind, sat_inodeOf, sat_state, sat_emit, true_and]
  refine acquire_any fun hl => ?_
  refine ((holding_of_around (inodeFreeData_keeps ip)).sat _).imp fun _ s₁ h₁ => ?_
  refine modifyInode_any (fun _ => ⟨rfl, rfl⟩) fun s₂ h₂ => ?_
  refine ((keeps_holding (inodeRw_write_keeps ip)).sat _).imp fun _ s₃ h₃ => ?_
  have h₃' : holding s₃ = withLock s ip true := by
    rw [h₃, h₂, h₁, holding_setLock_inode]
  refine release_any fun _ => ?_
  have h₄ : holding (s₃.setLock (.inode ip) false) = holding s := by
    rw [holding_setLock_inode, withLock_restored hl h₃']
  refine ((keeps_holding (bitmapFreeInode_keeps _)).sat _).imp fun _ s₅ h₅ => ?_
  rw [sat_modifyInode, holding_setInode]
  have hs : holding s₅ = holding s := h₅.trans h₄
  unfold withSlot
  rw [hs, slots_of_holding hs, show (s₅.icache ip).ref = (slots s ip).2 from
    congrArg (fun f => (f ip).2) (slots_of_holding hs)]

/-- `inode_free` takes one reference; the last one may take the number along. -/
theorem inodeFreeWith_any (dec : Nat → Nat) (ip : Slot) (s : State) :
    Sat (inodeFreeWith dec ip) s (fun _ => True) (fun _ s' => ∃ num,
      holding s' = withSlot s ip (num, dec (slots s ip).2) ∧
      (num = (slots s ip).1 ∨ num = inodeNumUnused ∧ dec (slots s ip).2 = 0)) fun _ => True := by
  unfold inodeFreeWith
  rw [sat_bind]
  refine acquire_any fun hl => ?_
  simp only [sat_bind, sat_modifyInode, sat_inodeOf]
  have hback : ∀ {s₁ : State} {v : Nat × Nat},
      holding s₁ = (Function.update (slots s) ip v, (fun j => s.locks (.inode j)), true, s.cwd) →
      holding (s₁.setLock .icache false) = withSlot s ip v := by
    intro s₁ v h₁
    have hlk : (fun j => (s₁.setLock .icache false).locks (.inode j)) = fun j =>
      s₁.locks (.inode j) := by
      funext j
      simp
    have h2 := congrArg (fun h => h.2) h₁
    have hi : (fun j => s₁.locks (.inode j)) = fun j => s.locks (.inode j) := congrArg Prod.fst h2
    have hc : s₁.cwd = s.cwd := congrArg (fun h => h.2.2) h2
    have hs : slots s₁ = Function.update (slots s) ip v := congrArg Prod.fst h₁
    unfold withSlot holding
    rw [hlk, hi, slots_setLock, hs,
      show (s₁.setLock .icache false).cwd = s₁.cwd from rfl, hc]
    simp [hl]
  have hmid : ∀ x : Inode, holding ((s.setInode ip x).setLock .icache true) =
      (Function.update (slots s) ip (x.inodeNum, x.ref),
        (fun j => s.locks (.inode j)), true, s.cwd) := by
    intro x
    unfold holding
    rw [slots_setLock, slots_setInode]
    simp [State.setInode, State.setLock]
  split
  · next hz =>
    rw [sat_bind]
    refine (inodeDestroy_any ip _).imp fun _ s₁ h₁ => release_any fun _ => ?_
    refine ⟨inodeNumUnused, hback ?_, Or.inr ⟨rfl, by simpa [State.setInode, slots] using hz.1⟩⟩
    rw [h₁, setInode_setLock]
    unfold withSlot
    rw [hmid, slots_setLock, slots_setInode]
    simp [slots]
  · exact release_any fun _ => ⟨(slots s ip).1, hback (hmid _), Or.inl rfl⟩

theorem inodeFree_any (ip : Slot) (s : State) :
    Sat (inodeFree ip) s (fun _ => True) (fun _ s' => ∃ num,
      holding s' = withSlot s ip (num, (slots s ip).2 - 1) ∧
      (num = (slots s ip).1 ∨ num = inodeNumUnused ∧ (slots s ip).2 - 1 = 0)) fun _ => True :=
  inodeFreeWith_any (· - 1) ip s

/-- `inode_create` takes a handle on the number it allocates. -/
theorem inodeCreateWith_any (hinc : inc 0 = 1) (type major minor : UInt16) (s : State) :
    Sat (inodeCreateWith inc type major minor) s (fun _ => True) (fun r s' =>
      match r with
      | none => holding s' = holding s
      | some ip => ∃ n, n ≠ inodeNumUnused ∧ AllocPost inc s n ip s') fun _ => True := by
  unfold inodeCreateWith
  refine ((keeps_holding bitmapAllocInode_keeps).sat s).bind fun n s₁ h₁ => ?_
  by_cases hn : n = 0xFFFF
  · rw [if_pos hn, sat_pure]
    exact h₁
  rw [if_neg hn]
  refine (inodeAllocWith_any hinc n s₁).bind fun ip s₂ h₂ => ?_
  rw [sat_bind]
  refine acquire_any fun hl => ?_
  simp only [sat_bind]
  refine modifyInode_any (fun _ => ⟨rfl, rfl⟩) fun s₃ h₃ => ?_
  refine ((keeps_holding (inodeRw_write_keeps ip)).sat _).imp fun _ s₄ h₄ => release_any fun _ => ?_
  have h₅ : holding (s₄.setLock (.inode ip) false) = holding s₂ := by
    rw [holding_setLock_inode, withLock_restored hl]
    rw [h₄, h₃, holding_setLock_inode]
  rw [sat_pure]
  have hs : slots s₁ = slots s := slots_of_holding h₁
  refine ⟨n, hn, ?_, ?_⟩
  · rw [h₅, h₂.holding]
    unfold withSlot
    rw [hs, h₁]
  · rw [← hs]
    exact h₂.slot

theorem inodeCreate_any (type major minor : UInt16) (s : State) :
    Sat (inodeCreate type major minor) s (fun _ => True) (fun r s' =>
      match r with
      | none => holding s' = holding s
      | some ip => ∃ n, n ≠ inodeNumUnused ∧ AllocPost (· + 1) s n ip s') fun _ => True :=
  inodeCreateWith_any rfl type major minor s

/-! ## Locks that are free -/

theorem icache_of_others (h : others ip s' = others ip s) {j : Slot} (hj : j ≠ ip) :
    s'.icache j = s.icache j := by
  have hsome := congrFun h j
  simp only [others, if_neg hj, Option.some.injEq] at hsome
  exact hsome

theorem modifyInode_others (ip : Slot) (f : Inode → Inode) :
    Keeps (others ip) (modifyInode ip f) := by
  refine keeps_modify fun s => funext fun j => ?_
  by_cases hj : j = ip
  · simp [others, hj]
  · simp [others, hj]

theorem spinlockAcquire_others (ip : Slot) (lk : Lock) :
    Keeps (others ip) (spinlockAcquire lk) := by
  unfold spinlockAcquire
  refine (spinlockHolding_keeps lk).bind fun b => ?_
  exact keeps_ite (keeps_panic trivial) (keeps_modify fun _ => rfl)

theorem spinlockRelease_others (ip : Slot) (lk : Lock) :
    Keeps (others ip) (spinlockRelease lk) := by
  unfold spinlockRelease
  refine (spinlockHolding_keeps lk).bind fun b => ?_
  exact keeps_ite (keeps_panic trivial) (keeps_modify fun _ => rfl)

theorem inodeDestroy_others (ip : Slot) : Keeps (others ip) (inodeDestroy ip) := by
  unfold inodeDestroy
  refine (inodeOf_keeps ip).bind fun x => keeps_state.bind fun s => (keeps_emit _).bind fun _ => ?_
  refine (spinlockAcquire_others ip _).bind fun _ => ?_
  refine (others_of_around (inodeFreeData_keeps ip)).any.bind fun _ => ?_
  refine (modifyInode_others ip _).bind fun _ => ?_
  refine (keeps_others ip (inodeRw_write_keeps ip)).any.bind fun _ => ?_
  refine (spinlockRelease_others ip _).bind fun _ => (inodeOf_keeps ip).bind fun x => ?_
  exact (keeps_others ip (bitmapFreeInode_keeps _)).any.bind fun _ => modifyInode_others ip _

theorem inodeAlloc_handed (n : Nat) (s : State) :
    Sat (inodeAlloc n) s G (Handed s n) fun _ => True := by
  by_cases hl : s.locks .icache = false
  · exact inodeAlloc_sat hl fun _ => trivial
  · have ht : s.locks .icache = true := by simpa using hl
    simp [inodeAlloc, spinlockAcquire, ht]

theorem inodeDup_entries (ip : Slot) (s : State) :
    Sat (inodeDup ip) s (fun _ => True) (fun _ s' =>
      s'.icache = Function.update s.icache ip { s.icache ip with ref := (s.icache ip).ref + 1 })
      fun _ => True := by
  unfold inodeDup
  rw [sat_bind]
  refine acquire_any fun hl => ?_
  rw [sat_bind, sat_modifyInode, sat_bind]
  exact release_any fun _ => (sat_pure _).mpr rfl

/-- A handle that is not the last one on its entry is only subtracted. -/
theorem inodeFree_entries (ip : Slot) (s : State) :
    Sat (inodeFree ip) s (fun _ => True) (fun _ s' => others ip s' = others ip s ∧
      (1 < (s.icache ip).ref → s'.icache =
        Function.update s.icache ip { s.icache ip with ref := (s.icache ip).ref - 1 }))
      fun _ => True := by
  unfold inodeFree
  rw [sat_bind]
  refine acquire_any fun hl => ?_
  rw [sat_bind, sat_modifyInode, sat_bind, sat_inodeOf]
  have hstart : others ip ((s.setLock .icache true).setInode ip
      { s.icache ip with ref := (s.icache ip).ref - 1 }) = others ip s := by
    funext j
    by_cases hj : j = ip
    · simp [others, hj]
    · simp [others, hj]
  split
  · next hlast =>
    have hone : (s.icache ip).ref - 1 = 0 := by simpa using hlast.1
    refine ((inodeDestroy_others ip).sat _).bind fun _ s₁ h₁ => release_any fun _ => ?_
    exact ⟨h₁.trans hstart, fun h => by omega⟩
  · exact release_any fun _ => ⟨hstart, fun _ => rfl⟩

/-- The lock loads an entry that is not loaded and changes no other one. -/
theorem inodeLock_entries (ip : Slot) (s : State) :
    Sat (inodeLock ip) s (fun _ => True) (fun _ s' => (s'.icache ip).valid = true ∧
      others ip s' = others ip s ∧ ((s.icache ip).valid = true → s'.icache = s.icache))
      fun _ => True := by
  unfold inodeLock
  rw [sat_bind]
  refine acquire_any fun hl => ?_
  rw [sat_bind, sat_inodeOf]
  split
  · next hv =>
    have hv' : (s.icache ip).valid = false := by simpa using hv
    refine ((others_of_around (inodeRw_keeps ip false)).sat _).bind fun _ s₁ h₁ => ?_
    rw [sat_modifyInode]
    refine ⟨by simp [State.setInode], ?_, fun h => ?_⟩
    · have hset := (modifyInode_others ip fun x => { x with valid := true }).of_ok (s := s₁) rfl
      exact hset.trans h₁
    · rw [hv'] at h
      cases h
  · next hv => exact (sat_pure _).mpr ⟨by simpa using hv, rfl, fun _ => rfl⟩

theorem inodeUnlock_entries (ip : Slot) (s : State) :
    Sat (inodeUnlock ip) s (fun _ => True) (fun _ s' => s'.icache = s.icache) fun _ => True :=
  release_any fun _ => rfl

end

end WhuOs.Fs
