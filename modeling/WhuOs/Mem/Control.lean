import WhuOs.Mem.Proc

/-! # The process table

What `proc_alloc`, `proc_fork`, `proc_exit` and `proc_wait` do to the table of
processes, to `global_pid` and to the locks of `proc.c`. Nothing is assumed of the
state: the functions on memory that they call may panic, but leave the table alone.
-/

namespace WhuOs.Mem

open Prog

/-- The fields of `proc_t` that say what a process does. -/
structure Entry where
  pid : Nat
  state : ProcState
  parent : Option ProcId
  exitState : Nat
  sleepSpace : Option Chan
deriving DecidableEq

def Proc.entry (x : Proc) : Entry := ⟨x.pid, x.state, x.parent, x.exitState, x.sleepSpace⟩

@[ext]
structure Table where
  entry : ProcId → Entry
  proczero : Option ProcId
  globalPid : Nat
  held : Lock → Bool

def Kernel.table (s : Kernel) : Table where
  entry p := (s.procs p).entry
  proczero := s.proczero
  globalPid := s.globalPid
  held := s.locks

def Table.set (t : Table) (p : ProcId) (e : Entry) : Table :=
  { t with entry := Function.update t.entry p e }

def Table.hold (t : Table) (lk : Lock) (v : Bool) : Table :=
  { t with held := Function.update t.held lk v }

def Entry.blank : Entry := ⟨0, .unused, none, 0, none⟩

section

variable {s s' : Kernel} {t : Table} {p q : ProcId} {lk : Lock} {v : Bool} {x : Proc} {e : Entry}

@[simp] theorem table_setMem (m : Bytes) : (s.setMem m).table = s.table := rfl

@[simp] theorem table_setNode (i : NodeId) (y : Node) : (s.setNode i y).table = s.table := rfl

@[simp] theorem table_setRegion (k : Bool) (r : Region) : (s.setRegion k r).table = s.table := by
  cases k <;> rfl

theorem table_setProc (s : Kernel) (p : ProcId) (x : Proc) :
    (s.setProc p x).table = s.table.set p x.entry := by
  refine Table.ext ?_ rfl rfl rfl
  funext q
  by_cases hq : q = p
  · subst hq
    simp [Kernel.table, Table.set]
  · simp [Kernel.table, Table.set, hq]

@[simp] theorem table_setLock (s : Kernel) (v : Bool) :
    (s.setLock lk v).table = s.table.hold lk v := rfl

@[simp] theorem set_entry_self : (t.set p e).entry p = e := Function.update_self _ _ _

theorem set_entry_ne (h : q ≠ p) : (t.set p e).entry q = t.entry q := Function.update_of_ne h _ _

@[simp] theorem set_set (e' : Entry) : (t.set p e).set p e' = t.set p e' := by
  unfold Table.set
  rw [Function.update_idem]

theorem set_self : t.set p (t.entry p) = t := by
  unfold Table.set
  rw [Function.update_eq_self]

theorem relock {f : Lock → Bool} (h : f lk = false) :
    Function.update (Function.update f lk true) lk false = f := by
  rw [Function.update_idem, ← h, Function.update_eq_self]

theorem relock_both {f : Lock → Bool} {lk' : Lock} (hne : lk ≠ lk')
    (h : f lk = false) (h' : f lk' = false) :
    Function.update
      (Function.update (Function.update (Function.update f lk true) lk' true) lk false)
      lk' false = f := by
  have hlk : Function.update f lk false = f := by rw [← h, Function.update_eq_self]
  have hlk' : Function.update f lk' false = f := by rw [← h', Function.update_eq_self]
  rw [Function.update_comm hne, Function.update_idem, Function.update_comm hne,
    Function.update_idem, hlk', hlk]

theorem hold_restore (h : t.held lk = false) : (t.hold lk true).hold lk false = t :=
  Table.ext rfl rfl rfl (relock h)

theorem hold_self : (t.hold lk v).held lk = v := Function.update_self _ _ _

/-! ## Functions that leave the table alone -/

/-- A function that leaves the process table and the locks as it found them, and releases no lock
that is free. -/
def Steady {α : Type} (m : MemM α) : Prop :=
  ∀ s, Sat m s (fun _ => True) (fun _ s' => s'.table = s.table) (· ≠ .release)

theorem Steady.bind {α β : Type} {m : MemM α} {f : α → MemM β} (h : Steady m)
    (hf : ∀ a, Steady (f a)) :
    Steady (m >>= f) := by
  intro s
  refine (h s).bind fun a s₁ h₁ => ((hf a) s₁).imp fun b s₂ h₂ => ?_
  rw [h₂, h₁]

theorem steady_pure {α : Type} (a : α) : Steady (pure a) := fun _ => (sat_pure a).mpr rfl

theorem steady_state : Steady state := fun _ => sat_state.mpr rfl

theorem steady_panic {α : Type} {e : Panic} (h : e ≠ .release) : Steady (panic e : MemM α) :=
  fun _ => (sat_panic e).mpr h

theorem steady_emit (e : Event) : Steady (emit e) := fun _ => (sat_emit e).mpr ⟨trivial, rfl⟩

theorem steady_modify {f : Kernel → Kernel} (h : ∀ s, (f s).table = s.table) : Steady (modify f) :=
  fun s => (sat_modify f).mpr (h s)

theorem steady_ite {α : Type} {c : Prop} [Decidable c] {m m' : MemM α}
    (h : Steady m) (h' : Steady m') :
    Steady (if c then m else m') := by
  split
  · exact h
  · exact h'

/-- A lock is taken: it was free. -/
theorem acquire_table (lk : Lock) (s : Kernel) :
    Sat (spinlockAcquire lk) s (fun _ => True)
      (fun _ s' => s.table.held lk = false ∧ s'.table = s.table.hold lk true) (· ≠ .release) := by
  unfold spinlockAcquire
  rw [sat_bind, sat_state]
  split
  · exact (sat_panic _).mpr nofun
  · next h =>
    rw [sat_modify]
    exact ⟨Bool.eq_false_iff.mpr h, rfl⟩

theorem release_table {E : Panic → Prop} (h : s.table.held lk = true) :
    Sat (spinlockRelease lk) s (fun _ => True)
      (fun _ s' => s'.table = s.table.hold lk false) E := by
  unfold spinlockRelease
  have hlk : s.locks lk = true := h
  rw [sat_bind, sat_state, if_neg (by simp [hlk]), sat_modify]
  rfl

/-- A function that is called with a lock held and releases it, and leaves the rest of the table. -/
def Closes {α : Type} (lk : Lock) (m : MemM α) : Prop :=
  ∀ s, s.table.held lk = true →
    Sat m s (fun _ => True) (fun _ s' => s'.table = s.table.hold lk false) (· ≠ .release)

theorem closes_release (lk : Lock) : Closes lk (spinlockRelease lk) := fun _ hs => release_table hs

theorem Steady.closes {α β : Type} {m : MemM α} {f : α → MemM β} (h : Steady m)
    (hf : ∀ a, Closes lk (f a)) :
    Closes lk (m >>= f) := by
  intro s hs
  refine (h s).bind fun a s₁ h₁ => ?_
  rw [← h₁] at hs ⊢
  exact hf a s₁ hs

theorem Closes.bind {α β : Type} {m : MemM α} {f : α → MemM β} (h : Closes lk m)
    (hf : ∀ a, Steady (f a)) :
    Closes lk (m >>= f) := by
  intro s hs
  refine (h s hs).bind fun a s₁ h₁ => ((hf a) s₁).imp fun b s₂ h₂ => ?_
  rw [h₂, h₁]

theorem closes_ite {α : Type} {c : Prop} [Decidable c] {m m' : MemM α}
    (h : Closes lk m) (h' : Closes lk m') :
    Closes lk (if c then m else m') := by
  split
  · exact h
  · exact h'

/-- Work under a lock. -/
theorem Closes.locked {α : Type} {m : MemM α} (h : Closes lk m) :
    Steady (spinlockAcquire lk >>= fun _ => m) := by
  intro s
  refine (acquire_table lk s).bind fun _ s₁ h₁ => ?_
  refine (h s₁ (by rw [h₁.2, hold_self])).imp fun _ s₂ h₂ => ?_
  rw [h₂, h₁.2, hold_restore h₁.1]

theorem assert_steady (c : Bool) {e : Panic} (h : e ≠ .release) : Steady (assert c e) :=
  steady_ite (steady_pure _) (steady_panic h)

theorem load_steady (a : Nat) : Steady (load a) := steady_state.bind fun _ => steady_pure _

theorem store_steady (a v : Nat) : Steady (store a v) := steady_modify fun _ => rfl

theorem clearPage_steady (a : Nat) : Steady (clearPage a) := steady_modify fun _ => rfl

theorem checkStore_steady (a n : Nat) : Steady (checkStore a n) :=
  steady_state.bind fun _ => steady_ite (steady_panic nofun) (steady_pure _)

theorem memmove_steady (dst src n : Nat) : Steady (memmove dst src n) :=
  (checkStore_steady dst n).bind fun _ => steady_modify fun _ => rfl

theorem storeBytes_steady (a : Nat) (b : Bytes) (n : Nat) : Steady (storeBytes a b n) :=
  (checkStore_steady a n).bind fun _ => steady_modify fun _ => rfl

theorem procOf_steady (p : ProcId) : Steady (procOf p) := steady_state.bind fun _ => steady_pure _

theorem nodeOf_steady (i : NodeId) : Steady (nodeOf i) := steady_state.bind fun _ => steady_pure _

theorem modifyNode_steady (i : NodeId) (f : Node → Node) : Steady (modifyNode i f) :=
  steady_modify fun _ => rfl

/-- The other fields of a process. -/
theorem modifyProc_steady (p : ProcId) {f : Proc → Proc} (h : ∀ x, (f x).entry = x.entry) :
    Steady (modifyProc p f) := by
  refine steady_modify fun s => ?_
  rw [table_setProc, h]
  exact set_self

/-! ### `pmem.c`, `kvm.c` -/

theorem regionFreePage_steady (k : Bool) (pa : Nat) : Steady (regionFreePage k pa) := by
  unfold regionFreePage
  refine steady_state.bind fun s => steady_ite (steady_panic nofun) ?_
  refine Closes.locked (steady_state.closes fun _ => (store_steady _ _).closes fun _ => ?_)
  exact (steady_modify fun s => table_setRegion _ _).closes fun _ => closes_release _

theorem pmemAlloc_steady (k : Bool) : Steady (pmemAlloc k) := by
  unfold pmemAlloc regionAllocPage
  refine Closes.locked (steady_state.closes fun s => closes_ite ?_ ?_)
  · refine (load_steady _).closes fun _ =>
      (steady_modify fun s => table_setRegion _ _).closes fun _ => ?_
    exact (closes_release _).bind fun _ => steady_pure _
  · exact (closes_release _).bind fun _ => steady_pure _

theorem pmemFree_steady (pa : Nat) (k : Bool) : Steady (pmemFree pa k) := by
  unfold pmemFree
  refine steady_state.bind fun s => steady_ite (steady_panic nofun) ?_
  exact (steady_emit _).bind fun _ => regionFreePage_steady k pa

theorem allocPgtbl_steady : Steady allocPgtbl := by
  unfold allocPgtbl
  refine (pmemAlloc_steady true).bind fun p => steady_ite (steady_pure _) ?_
  exact (clearPage_steady p).bind fun _ => steady_pure _

theorem getpteLoop_steady (va : Nat) (alloc : Bool) (level pgtbl : Nat) :
    Steady (getpteLoop va alloc level pgtbl) := by
  induction level generalizing pgtbl with
  | zero => exact steady_pure _
  | succ level ih =>
      unfold getpteLoop
      refine (load_steady _).bind fun e => steady_ite (ih _) (steady_ite (steady_pure _) ?_)
      refine allocPgtbl_steady.bind fun new => steady_ite (steady_pure _) ?_
      exact (store_steady _ _).bind fun _ => ih new

theorem vmGetpte_steady (pgtbl va : Nat) (alloc : Bool) : Steady (vmGetpte pgtbl va alloc) :=
  steady_ite (steady_panic nofun) (getpteLoop_steady va alloc 2 pgtbl)

theorem mappagesLoop_steady (pgtbl last perm fuel a pa : Nat) :
    Steady (mappagesLoop pgtbl last perm fuel a pa) := by
  induction fuel generalizing a pa with
  | zero => exact steady_panic nofun
  | succ fuel ih =>
      unfold mappagesLoop
      refine (vmGetpte_steady _ _ _).bind fun pte => steady_ite (steady_panic nofun) ?_
      exact (store_steady _ _).bind fun _ => steady_ite (steady_pure _) (ih _ _)

theorem vmMappages_steady (pgtbl va pa len perm : Nat) : Steady (vmMappages pgtbl va pa len perm) :=
  steady_ite (steady_panic nofun) (mappagesLoop_steady _ _ _ _ _ _)

theorem unmapPage_steady (pgtbl : Nat) (freeit : Bool) (a : Nat) :
    Steady (unmapPage pgtbl freeit a) := by
  unfold unmapPage
  refine (vmGetpte_steady _ _ _).bind fun pte => steady_ite (steady_panic nofun) ?_
  refine (load_steady _).bind fun e =>
    steady_ite (steady_panic nofun) (steady_ite (steady_panic nofun) (steady_ite ?_ ?_))
  · exact steady_state.bind fun _ => (pmemFree_steady _ _).bind fun _ => store_steady _ _
  · exact store_steady _ _

theorem unmappagesLoop_steady (pgtbl stop : Nat) (freeit : Bool) (fuel a : Nat) :
    Steady (unmappagesLoop pgtbl stop freeit fuel a) := by
  induction fuel generalizing a with
  | zero => exact steady_panic nofun
  | succ fuel ih =>
      unfold unmappagesLoop
      exact steady_ite ((unmapPage_steady _ _ _).bind fun _ => ih _) (steady_pure _)

theorem vmUnmappages_steady (pgtbl va len : Nat) (freeit : Bool) :
    Steady (vmUnmappages pgtbl va len freeit) :=
  steady_ite (steady_panic nofun) (unmappagesLoop_steady _ _ _ _ _)

/-! ### `mmap.c`, `uvm.c` -/

theorem mmapRegionAlloc_steady : Steady mmapRegionAlloc := by
  unfold mmapRegionAlloc
  refine Closes.locked ((nodeOf_steady 0).closes fun x => ?_)
  cases x.link with
  | none => exact (closes_release _).bind fun _ => steady_panic nofun
  | some node =>
      refine (nodeOf_steady node).closes fun _ => (modifyNode_steady _ _).closes fun _ => ?_
      exact (closes_release _).bind fun _ => steady_pure _

theorem mmapRegionFree_steady (node : NodeId) : Steady (mmapRegionFree node) := by
  unfold mmapRegionFree
  refine Closes.locked ((nodeOf_steady 0).closes fun _ =>
    (modifyNode_steady _ _).closes fun _ => ?_)
  exact (modifyNode_steady _ _).closes fun _ => closes_release _

theorem copyPage_steady (new va e : Nat) : Steady (copyPage new va e) := by
  unfold copyPage
  refine (pmemAlloc_steady false).bind fun page => steady_ite (steady_panic nofun) ?_
  exact (memmove_steady _ _ _).bind fun _ => vmMappages_steady _ _ _ _ _

theorem copyRangeLoop_steady (old new stop fuel va : Nat) :
    Steady (copyRangeLoop old new stop fuel va) := by
  induction fuel generalizing va with
  | zero => exact steady_panic nofun
  | succ fuel ih =>
      unfold copyRangeLoop
      refine steady_ite ?_ (steady_pure _)
      refine (vmGetpte_steady _ _ _).bind fun pte => (assert_steady _ (by decide)).bind fun _ => ?_
      refine (load_steady _).bind fun e => (assert_steady _ (by decide)).bind fun _ => ?_
      exact (copyPage_steady _ _ _).bind fun _ => ih _

theorem copyHeapLoop_steady (old new stop fuel va : Nat) :
    Steady (copyHeapLoop old new stop fuel va) := by
  induction fuel generalizing va with
  | zero => exact steady_panic nofun
  | succ fuel ih =>
      unfold copyHeapLoop
      refine steady_ite ((vmGetpte_steady _ _ _).bind fun pte =>
        steady_ite ?_ (ih _)) (steady_pure _)
      exact (load_steady _).bind fun e =>
        steady_ite ((copyPage_steady _ _ _).bind fun _ => ih _) (ih _)

theorem copyRegionsLoop_steady (old new fuel : Nat) (n : Option NodeId) :
    Steady (copyRegionsLoop old new fuel n) := by
  induction fuel generalizing n with
  | zero =>
      cases n with
      | none => exact steady_pure _
      | some n => exact steady_panic nofun
  | succ fuel ih =>
      cases n with
      | none => exact steady_pure _
      | some n =>
          unfold copyRegionsLoop
          refine (nodeOf_steady n).bind fun x => (copyRangeLoop_steady _ _ _ _ _).bind fun _ => ?_
          exact (nodeOf_steady n).bind fun _ => ih _

theorem uvmCopyPgtbl_steady (old new heapTop ustackBase ustackPages : Nat) (mmap : Option NodeId) :
    Steady (uvmCopyPgtbl old new heapTop ustackBase ustackPages mmap) := by
  unfold uvmCopyPgtbl copyRange
  have hend : Steady (do
      if ustackPages > 0 then
        copyRangeLoop old new (u64 (ustackBase + u32 (ustackPages * pgSize)))
          (vaPages + 1) ustackBase
      copyRegionsLoop old new listFuel mmap) :=
    steady_ite ((copyRangeLoop_steady _ _ _ _ _).bind fun _ => copyRegionsLoop_steady _ _ _ _)
      (copyRegionsLoop_steady _ _ _ _)
  refine (copyRangeLoop_steady _ _ _ _ _).bind fun _ => steady_ite ?_ hend
  exact (copyHeapLoop_steady _ _ _ _ _).bind fun _ => hend

theorem destroyLeaves_steady (pgtbl n i : Nat) : Steady (destroyLeaves pgtbl n i) := by
  induction n generalizing i with
  | zero => exact steady_pure _
  | succ n ih =>
      unfold destroyLeaves
      exact (load_steady _).bind fun e =>
        steady_ite ((pmemFree_steady _ _).bind fun _ => ih _) (ih _)

theorem destroyEntries_steady {child : Nat → MemM Unit}
    (hc : ∀ a, Steady (child a)) (pgtbl n i : Nat) :
    Steady (destroyEntries child pgtbl n i) := by
  induction n generalizing i with
  | zero => exact steady_pure _
  | succ n ih =>
      unfold destroyEntries
      refine (load_steady _).bind fun e => steady_ite (steady_ite ?_ (ih _)) (ih _)
      exact (hc _).bind fun _ => (pmemFree_steady _ _).bind fun _ => ih _

theorem destroyPgtbl_steady (level pgtbl : Nat) : Steady (destroyPgtbl level pgtbl) := by
  induction level generalizing pgtbl with
  | zero => exact destroyLeaves_steady _ _ _
  | succ level ih => exact destroyEntries_steady ih _ _ _

theorem uvmDestroyPgtbl_steady (pgtbl : Nat) : Steady (uvmDestroyPgtbl pgtbl) := by
  unfold uvmDestroyPgtbl
  have hend : Steady (do
      let pteTrapframe ← vmGetpte pgtbl trapframeVa false
      if pteTrapframe ≠ 0 then store pteTrapframe 0
      destroyPgtbl 2 pgtbl
      pmemFree pgtbl false) := by
    have hfree := (destroyPgtbl_steady 2 pgtbl).bind fun _ => pmemFree_steady pgtbl false
    exact (vmGetpte_steady _ _ _).bind fun pte =>
      steady_ite ((store_steady _ _).bind fun _ => hfree) hfree
  exact (vmGetpte_steady _ _ _).bind fun pte =>
    steady_ite ((store_steady _ _).bind fun _ => hend) hend

theorem copyoutLoop_steady (pgtbl fuel dst : Nat) (src : KernelSrc) (len : Nat) :
    Steady (copyoutLoop pgtbl fuel dst src len) := by
  induction fuel generalizing dst src len with
  | zero => exact steady_pure _
  | succ fuel ih =>
      unfold copyoutLoop userPage
      refine steady_ite (Steady.bind ?_ fun pa => Steady.bind ?_ fun _ => ih _ _ _) (steady_pure _)
      · refine (vmGetpte_steady _ _ _).bind fun pte =>
          (assert_steady _ (by decide)).bind fun _ => ?_
        exact (load_steady _).bind fun e =>
        (assert_steady _ (by decide)).bind fun _ => steady_pure _
      · cases src with
        | memory a => exact memmove_steady _ _ _
        | object b => exact storeBytes_steady _ _ _

theorem uvmCopyout_steady (pgtbl dst : Nat) (src : KernelSrc) (len : Nat) :
    Steady (uvmCopyout pgtbl dst src len) := copyoutLoop_steady _ _ _ _ _

/-! ## Allocation and release of processes -/

theorem procPgtblInit_steady (tf : Nat) : Steady (procPgtblInit tf) := by
  unfold procPgtblInit
  refine (pmemAlloc_steady false).bind fun pgtbl => steady_ite (steady_pure _) ?_
  refine (clearPage_steady _).bind fun _ => (vmGetpte_steady _ _ _).bind fun pte => steady_ite ?_ ?_
  · exact (uvmDestroyPgtbl_steady _).bind fun _ => steady_pure _
  refine steady_state.bind fun _ => (vmMappages_steady _ _ _ _ _).bind fun _ => ?_
  refine (vmGetpte_steady _ _ _).bind fun pte => steady_ite ?_ ?_
  · exact (vmUnmappages_steady _ _ _ _).bind fun _ =>
      (uvmDestroyPgtbl_steady _).bind fun _ => steady_pure _
  · exact (vmMappages_steady _ _ _ _ _).bind fun _ => steady_pure _

theorem freeTrapframe_steady (p : ProcId) : Steady (freeTrapframe p) := by
  have hend : Steady (modifyProc p fun x => { x with tf := 0 }) := modifyProc_steady p fun _ => rfl
  unfold freeTrapframe
  refine (procOf_steady p).bind fun _ => steady_ite ?_ hend
  exact (procOf_steady p).bind fun _ => (pmemFree_steady _ _).bind fun _ => hend

theorem freePgtbl_steady (p : ProcId) : Steady (freePgtbl p) := by
  have hend : Steady (modifyProc p fun x => { x with pgtbl := 0 }) :=
    modifyProc_steady p fun _ => rfl
  unfold freePgtbl
  refine (procOf_steady p).bind fun _ => steady_ite ?_ hend
  exact (procOf_steady p).bind fun _ => (uvmDestroyPgtbl_steady _).bind fun _ => hend

theorem freeKstack_steady (p : ProcId) : Steady (freeKstack p) := by
  unfold freeKstack
  refine (procOf_steady p).bind fun _ => steady_ite ?_ (steady_pure _)
  exact steady_state.bind fun _ => (procOf_steady p).bind fun _ => vmUnmappages_steady _ _ _ _

theorem freeMmap_steady (p : ProcId) : Steady (freeMmap p) := by
  unfold freeMmap
  refine (procOf_steady p).bind fun x => ?_
  cases x.mmap with
  | none => exact steady_pure _
  | some n => exact mmapRegionFree_steady n

/-- `proc_free` clears the entry. -/
theorem procFree_table (p : ProcId) (s : Kernel) :
    Sat (procFree p) s (fun _ => True)
      (fun _ s' => s'.table = s.table.set p .blank) (· ≠ .release) := by
  unfold procFree
  refine ((freeTrapframe_steady p) s).bind fun _ s₁ h₁ => ?_
  refine ((freePgtbl_steady p) s₁).bind fun _ s₂ h₂ => ?_
  refine ((freeKstack_steady p) s₂).bind fun _ s₃ h₃ => ?_
  refine ((freeMmap_steady p) s₃).bind fun _ s₄ h₄ => ?_
  rw [sat_modifyProc, table_setProc, h₄, h₃, h₂, h₁]
  rfl

theorem findUnused_table (ps : List ProcId) (s : Kernel) :
    Sat (findUnused ps) s (fun _ => True) (fun r s' =>
      match r with
      | none => s'.table = s.table
      | some p => (s.table.entry p).state = .unused ∧ s.table.held (.proc p) = false ∧
          s'.table = s.table.hold (.proc p) true) (· ≠ .release) := by
  induction ps generalizing s with
  | nil => exact (sat_pure _).mpr rfl
  | cons p ps ih =>
      unfold findUnused
      refine (acquire_table _ s).bind fun _ s₁ h₁ => ?_
      obtain ⟨hfree, h₁⟩ := h₁
      rw [sat_bind, sat_procOf]
      split
      · next hst =>
        refine (sat_pure _).mpr ⟨?_, hfree, h₁⟩
        have hentry : s₁.table.entry p = s.table.entry p := by rw [h₁]; rfl
        rw [← hentry]
        exact hst
      · refine (release_table (by rw [h₁, hold_self])).bind fun _ s₂ h₂ => ?_
        have hback : s₂.table = s.table := by rw [h₂, h₁, hold_restore hfree]
        refine (ih s₂).imp fun r s' hr => ?_
        rw [hback] at hr
        exact hr

theorem allocPid_table (s : Kernel) :
    Sat allocPid s (fun _ => True) (fun pid s' => pid = s.table.globalPid ∧ pid < 2 ^ 31 ∧
      s'.table = { s.table with globalPid := pid + 1 }) (· ≠ .release) := by
  unfold allocPid
  refine (acquire_table _ s).bind fun _ s₁ h₁ => ?_
  obtain ⟨hfree, h₁⟩ := h₁
  have hpid : s₁.globalPid = s.globalPid := congrArg Table.globalPid h₁
  rw [sat_bind, sat_state, sat_bind]
  refine sat_assert_any nofun fun hlt => ?_
  rw [sat_bind, sat_modify]
  have ht : ({ s₁ with globalPid := s₁.globalPid + 1 } : Kernel).table =
      { s₁.table with globalPid := s₁.globalPid + 1 } := rfl
  refine (release_table (by rw [ht, h₁]; rfl)).bind fun _ s₂ h₂ =>
    (sat_pure _).mpr ⟨hpid, of_decide_eq_true hlt, ?_⟩
  rw [h₂, ht, h₁]
  exact Table.ext rfl rfl rfl (relock hfree)

def Table.allocated (t : Table) (np : ProcId) : Table :=
  ({ t.set np { t.entry np with pid := t.globalPid, state := .runnable } with
    globalPid := t.globalPid + 1 }).hold (.proc np) true

def Table.abandoned (t : Table) (np : ProcId) : Table :=
  { t.set np .blank with globalPid := t.globalPid + 1 }

/-- Outcomes of `proc_alloc`. -/
inductive Alloced (t : Table) : Option ProcId → Table → Prop where
  | full : Alloced t none t
  | failed {np : ProcId} (unused : (t.entry np).state = .unused) (bound : t.globalPid < 2 ^ 31) :
      Alloced t none (t.abandoned np)
  | done {np : ProcId} (unused : (t.entry np).state = .unused) (free : t.held (.proc np) = false)
      (bound : t.globalPid < 2 ^ 31) : Alloced t (some np) (t.allocated np)

theorem abandonProc_table {np : ProcId} (hst : (t.entry np).state = .unused)
    (hfree : t.held (.proc np) = false)
    (hpid : t.globalPid < 2 ^ 31) (hs : s.table = t.allocated np) :
    Sat (abandonProc np) s (fun _ => True) (fun r s' => Alloced t r s'.table) (· ≠ .release) := by
  unfold abandonProc
  refine (procFree_table np s).bind fun _ s₁ h₁ => ?_
  refine (release_table (by rw [h₁, hs]; exact hold_self)).bind fun _ s₂ h₂ => (sat_pure _).mpr ?_
  have he : s₂.table = t.abandoned np := by
    rw [h₂, h₁, hs]
    exact Table.ext (Function.update_idem _ _ _) rfl rfl (relock hfree)
  rw [he]
  exact .failed hst hpid

theorem procAlloc_table (s : Kernel) :
    Sat procAlloc s (fun _ => True) (fun r s' => Alloced s.table r s'.table) (· ≠ .release) := by
  unfold procAlloc
  refine (findUnused_table allProcs s).bind fun r s₁ h₁ => ?_
  cases r with
  | none =>
      refine (sat_pure _).mpr ?_
      rw [show s₁.table = s.table from h₁]
      exact .full
  | some np =>
      obtain ⟨hst, hfree, h₁⟩ := h₁
      refine (allocPid_table s₁).bind fun pid s₂ h₂ => ?_
      obtain ⟨rfl, hlt, h₂⟩ := h₂
      rw [h₁] at hlt h₂ ⊢
      rw [sat_bind, sat_modifyProc, sat_bind, sat_modifyProc]
      have hentry : (s₂.procs np).entry = s.table.entry np :=
        (congrArg (fun t => Table.entry t np) h₂ :)
      generalize hs₃ : Kernel.setProc _ np _ = s₃
      have h₃ : s₃.table = s.table.allocated np := by
        rw [← hs₃, table_setProc, table_setProc, set_set, h₂]
        refine Table.ext ?_ rfl rfl rfl
        have hnew : (s₂.procs np).entry = s.table.entry np →
            Proc.entry { s₂.procs np with pid := s.table.globalPid, state := .runnable } =
              { s.table.entry np with pid := s.table.globalPid, state := .runnable } := by
          intro he
          rw [← he]
          rfl
        simp only [setProc_procs, Function.update_self]
        exact congrArg (Function.update s.table.entry np) (hnew hentry)
      -- from here on only memory is set up
      have hbad : ∀ {s₄ : Kernel}, s₄.table = s₃.table →
          Sat (abandonProc np) s₄ (fun _ => True)
            (fun r s' => Alloced s.table r s'.table) (· ≠ .release) :=
        fun he => abandonProc_table hst hfree hlt (he.trans h₃)
      have hset : ∀ {f : Proc → Proc}, (∀ x, (f x).entry = x.entry) →
        ∀ {s₄ : Kernel}, s₄.table = s₃.table →
          (s₄.setProc np (f (s₄.procs np))).table = s₃.table := by
        intro f hf s₄ he
        rw [table_setProc, hf, ← he]
        exact set_self
      refine (pmemAlloc_steady true s₃).bind fun tf s₄ h₄ => ?_
      rw [sat_bind, sat_modifyProc]
      have h₅ := hset (f := fun x => { x with tf := tf }) (fun _ => rfl) h₄
      split
      · exact hbad h₅
      refine (procPgtblInit_steady tf _).bind fun pgtbl s₆ h₆ => ?_
      rw [sat_bind, sat_modifyProc]
      have h₇ := hset (f := fun x => { x with pgtbl := pgtbl }) (fun _ => rfl) (h₆.trans h₅)
      split
      · exact hbad h₇
      refine (pmemAlloc_steady true _).bind fun pa s₈ h₈ => ?_
      split
      · exact hbad (h₈.trans h₇)
      rw [sat_bind, sat_state, sat_bind, sat_procOf]
      refine (vmMappages_steady _ _ _ _ _ s₈).bind fun _ s₉ h₉ => (sat_pure _).mpr ?_
      rw [h₉, h₈, h₇, h₃]
      exact .done hst hfree hlt

/-! ## `proc_fork` -/

theorem copyListLoop_steady (fuel : Nat) (src head tail : Option NodeId) :
    Steady (copyListLoop fuel src head tail) := by
  induction fuel generalizing src head tail with
  | zero =>
      cases src with
      | none => exact steady_pure _
      | some src => exact steady_panic nofun
  | succ fuel ih =>
      cases src with
      | none => exact steady_pure _
      | some src =>
          unfold copyListLoop
          refine mmapRegionAlloc_steady.bind fun node => (nodeOf_steady src).bind fun x => ?_
          refine (modifyNode_steady _ _).bind fun _ => (nodeOf_steady src).bind fun x => ?_
          refine (modifyNode_steady _ _).bind fun _ => (modifyNode_steady _ _).bind fun _ => ?_
          have hend : ∀ h, Steady (do copyListLoop fuel (← nodeOf src).next h (some node)) :=
            fun h => (nodeOf_steady src).bind fun y => ih _ _ _
          cases tail with
          | none => exact hend _
          | some t => exact (modifyNode_steady _ _).bind fun _ => hend _

def Table.forked (t : Table) (p np : ProcId) : Table :=
  { t.set np { t.entry np with pid := t.globalPid, state := .runnable, parent := some p } with
    globalPid := t.globalPid + 1 }

/-- Outcomes of `proc_fork`. -/
inductive Forked (t : Table) (p : ProcId) : Option Nat → Table → Prop where
  | full : Forked t p none t
  | failed {np : ProcId} (unused : (t.entry np).state = .unused) : Forked t p none (t.abandoned np)
  | done {np : ProcId} (unused : (t.entry np).state = .unused) (bound : t.globalPid < 2 ^ 31) :
      Forked t p (some t.globalPid) (t.forked p np)

theorem procFork_table (p : ProcId) (s : Kernel) :
    Sat (procFork p) s (fun _ => True) (fun r s' => Forked s.table p r s'.table) (· ≠ .release) := by
  unfold procFork
  refine (procAlloc_table s).bind fun r s₁ h₁ => ?_
  cases r with
  | none =>
      refine (sat_pure _).mpr ?_
      generalize s₁.table = t₁ at h₁
      cases h₁ with
      | full => exact .full
      | failed hst hlt => exact .failed hst
  | some np =>
      generalize ht₁ : s₁.table = t₁ at h₁
      cases h₁ with
      | done hst hfree hlt =>
      have hset : ∀ {f : Proc → Proc}, (∀ x, (f x).entry = x.entry) → ∀ {s₂ : Kernel}, s₂.table = s₁.table →
          (s₂.setProc np (f (s₂.procs np))).table = s₁.table := by
        intro f hf s₂ he
        rw [table_setProc, hf, ← he]
        exact set_self
      rw [sat_bind, sat_procOf, sat_bind, sat_procOf]
      refine (uvmCopyPgtbl_steady _ _ _ _ _ _ s₁).bind fun _ s₂ h₂ => ?_
      rw [sat_bind, sat_modifyProc]
      have h₃ := hset
        (f := fun y =>
          { y with heapTop := (s₁.procs p).heapTop, ustackBase := (s₁.procs p).ustackBase,
                                              ustackPages := (s₁.procs p).ustackPages })
                                                (fun _ => rfl) h₂
      rw [sat_bind, sat_procOf]
      refine (copyListLoop_steady _ _ _ _ _).bind fun mmap s₄ h₄ => ?_
      rw [sat_bind, sat_modifyProc]
      have h₅ := hset (f := fun y => { y with mmap := mmap }) (fun _ => rfl) (h₄.trans h₃)
      rw [sat_bind, sat_procOf, sat_bind, sat_procOf]
      refine (memmove_steady _ _ _ _).bind fun _ s₆ h₆ => ?_
      rw [sat_bind, sat_procOf]
      refine (store_steady _ _ s₆).bind fun _ s₇ h₇ => ?_
      have ht₇ : s₇.table = s.table.allocated np := h₇.trans (h₆.trans (h₅.trans ht₁))
      rw [sat_bind, sat_modifyProc, sat_bind, sat_procOf, sat_bind, sat_modifyProc]
      refine (release_table (by rw [table_setProc, table_setProc, ht₇]; exact hold_self)).bind fun _ s₈ h₈ => (sat_pure _).mpr ?_
      have hentry : (s₇.procs np).entry = { s.table.entry np with pid := s.table.globalPid, state := .runnable } := by
        have he : s₇.table.entry np = _ := (congrArg (fun t => Table.entry t np) ht₇ :)
        exact he.trans set_entry_self
      have hpid : (s₇.procs np).pid = s.table.globalPid := (congrArg Entry.pid hentry :)
      have hnew : Proc.entry { s₇.procs np with parent := some p, state := .runnable } =
          { s.table.entry np with pid := s.table.globalPid, state := .runnable, parent := some p } := by
        have he := congrArg (fun e : Entry => { e with parent := some p, state := .runnable }) hentry
        exact he
      have ht₈ : s₈.table = s.table.forked p np := by
        rw [h₈, table_setProc, table_setProc, set_set, ht₇]
        simp only [setProc_procs, Function.update_self]
        rw [hnew]
        exact Table.ext (Function.update_idem _ _ _) rfl rfl (relock hfree)
      rw [ht₈]
      simp only [setProc_procs, Function.update_self, hpid]
      exact .done hst hlt

/-! ## `proc_exit` -/

def Table.wake (t : Table) (me : Option ProcId) (space : Option Chan) : Table :=
  { t with entry := fun q =>
      if some q ≠ me ∧ (t.entry q).state = .sleeping ∧ (t.entry q).sleepSpace = space then
        { t.entry q with state := .runnable }
      else t.entry q }

def Table.wakeOn (t : Table) (me : Option ProcId) (space : Option Chan)
    (ps : List ProcId) : Table :=
  { t with entry := fun q => if q ∈ ps then (t.wake me space).entry q else t.entry q }

theorem wakeupLoop_table (me : Option ProcId) (space : Option Chan) (ps : List ProcId)
    (hps : ps.Nodup) (s : Kernel) :
    Sat (wakeupLoop me space ps) s (fun _ => True)
      (fun _ s' => s'.table = s.table.wakeOn me space ps)
      (· ≠ .release) := by
  induction ps generalizing s with
  | nil => exact (sat_pure _).mpr rfl
  | cons p ps ih =>
      obtain ⟨hp, hps⟩ := List.nodup_cons.mp hps
      -- the rest of the list, after the entry of `p`
      have hrest : ∀ {s₁ : Kernel}, s₁.table = s.table.set p ((s.table.wake me space).entry p) →
          Sat (wakeupLoop me space ps) s₁ (fun _ => True)
            (fun _ s' => s'.table = s.table.wakeOn me space (p :: ps))
            (· ≠ .release) := by
        intro s₁ h₁
        refine (ih hps s₁).imp fun _ s' hs' => ?_
        rw [hs', h₁]
        refine Table.ext ?_ rfl rfl rfl
        funext q
        by_cases hq : q = p
        · subst hq
          simp [Table.wakeOn, hp]
        · have hwake : ((s.table.set p ((s.table.wake me space).entry p)).wake me space).entry q =
              (s.table.wake me space).entry q := by
            unfold Table.wake
            dsimp only
            rw [set_entry_ne hq]
          simp only [Table.wakeOn, hwake, set_entry_ne hq, List.mem_cons, hq, false_or]
      unfold wakeupLoop
      split
      swap
      · next hme =>
        refine hrest ?_
        have hsame : (s.table.wake me space).entry p = s.table.entry p := if_neg fun hc => hme hc.1
        rw [hsame, set_self]
      next hme =>
      refine (acquire_table _ s).bind fun _ s₁ h₁ => ?_
      obtain ⟨hfree, h₁⟩ := h₁
      rw [sat_bind, sat_procOf]
      have hentry : (s₁.procs p).entry = s.table.entry p :=
        (congrArg (fun t => Table.entry t p) h₁ :)
      split
      · next hc =>
        rw [sat_bind, sat_modifyProc]
        refine (release_table (by rw [table_setProc, h₁]; exact hold_self)).bind
          fun _ s₂ h₂ => hrest ?_
        have hst : (s.table.entry p).state = .sleeping ∧ (s.table.entry p).sleepSpace = space := by
          rw [← hentry]
          exact hc
        have hwake :
            (s.table.wake me space).entry p = { s.table.entry p with state := .runnable } :=
          if_pos ⟨hme, hst⟩
        rw [h₂, table_setProc, h₁, hwake, ← hentry]
        exact Table.ext rfl rfl rfl (relock hfree)
      · next hc =>
        refine (release_table (by rw [h₁, hold_self])).bind fun _ s₂ h₂ => hrest ?_
        have hsame : (s.table.wake me space).entry p = s.table.entry p := by
          refine if_neg fun hw => hc ?_
          have he := hw.2
          rw [← hentry] at he
          exact he
        rw [h₂, h₁, hsame, set_self]
        exact hold_restore hfree

theorem procWakeup_table (me : Option ProcId) (space : Option Chan) (s : Kernel) :
    Sat (procWakeup me space) s (fun _ => True)
      (fun _ s' => s'.table = s.table.wake me space) (· ≠ .release) := by
  refine (wakeupLoop_table me space allProcs (List.nodup_finRange 64) s).imp fun _ s' hs' => ?_
  rw [hs']
  refine Table.ext ?_ rfl rfl rfl
  funext q
  exact if_pos (List.mem_finRange q)

def Table.reparent (parent : ProcId) : List ProcId → Table → Table
  | [], t => t
  | pp :: ps, t =>
      if (t.entry pp).parent = some parent then
        ((t.set pp { t.entry pp with parent := t.proczero }).wake (some parent)
          (t.proczero.map .proc)).reparent parent ps
      else t.reparent parent ps

theorem reparentLoop_table (parent : ProcId) (ps : List ProcId) (s : Kernel) :
    Sat (reparentLoop parent ps) s (fun _ => True)
      (fun _ s' => s'.table = Table.reparent parent ps s.table)
      (· ≠ .release) := by
  induction ps generalizing s with
  | nil => exact (sat_pure _).mpr rfl
  | cons pp ps ih =>
      unfold reparentLoop Table.reparent
      rw [sat_bind, sat_procOf]
      by_cases hpp : (s.table.entry pp).parent = some parent
      · have hpp' : (s.procs pp).parent = some parent := hpp
        rw [if_pos hpp, if_pos hpp', sat_bind, sat_state, sat_bind, sat_modifyProc]
        refine (procWakeup_table _ _ _).bind fun _ s₁ h₁ => (ih s₁).imp fun _ s' hs' => ?_
        rw [hs', h₁, table_setProc]
        rfl
      · have hpp' : ¬ (s.procs pp).parent = some parent := hpp
        rw [if_neg hpp, if_neg hpp']
        exact ih s

def Table.exited (t : Table) (p : ProcId) (exitState : Nat) : Table :=
  let t' := Table.reparent p allProcs t
  let t' := t'.wake (some p) ((t'.entry p).parent.map .proc)
  t'.set p { t'.entry p with exitState := exitState, state := .zombie }

theorem reparent_hold (parent : ProcId) (ps : List ProcId) (t : Table) :
    Table.reparent parent ps (t.hold lk v) = (Table.reparent parent ps t).hold lk v := by
  induction ps generalizing t with
  | nil => rfl
  | cons pp ps ih =>
      unfold Table.reparent
      by_cases hpp : (t.entry pp).parent = some parent
      · have hpp' : ((t.hold lk v).entry pp).parent = some parent := hpp
        rw [if_pos hpp, if_pos hpp', ← ih]
        rfl
      · have hpp' : ¬ ((t.hold lk v).entry pp).parent = some parent := hpp
        rw [if_neg hpp, if_neg hpp', ih]

theorem reparent_held (parent : ProcId) (ps : List ProcId) (t : Table) :
    (Table.reparent parent ps t).held = t.held := by
  induction ps generalizing t with
  | nil => rfl
  | cons pp ps ih =>
      unfold Table.reparent
      split
      · rw [ih]
        rfl
      · exact ih t

theorem procExit_table (p : ProcId) (exitState : Nat) (s : Kernel) :
    Sat (procExit p exitState) s (fun _ => True)
      (fun _ s' => s.table.proczero ≠ some p ∧ s'.table = s.table.exited p exitState)
      (· ≠ .release) := by
  unfold procExit
  rw [sat_bind, sat_state, sat_bind]
  refine sat_assert_any nofun fun hzero => ?_
  refine (acquire_table _ s).bind fun _ s₁ h₁ => ?_
  obtain ⟨hwait, h₁⟩ := h₁
  refine (reparentLoop_table p allProcs s₁).bind fun _ s₂ h₂ => ?_
  rw [h₁, reparent_hold] at h₂
  rw [sat_bind, sat_procOf]
  refine (procWakeup_table (some p) _ s₂).bind fun _ s₃ h₃ => ?_
  have hparent : (s₂.procs p).parent = ((Table.reparent p allProcs s.table).entry p).parent :=
    (congrArg (fun t => (Table.entry t p).parent) h₂ :)
  rw [hparent, h₂] at h₃
  refine (acquire_table _ s₃).bind fun _ s₄ h₄ => ?_
  obtain ⟨hproc, h₄⟩ := h₄
  rw [sat_bind, sat_modifyProc]
  refine (release_table (by rw [table_setProc, h₄, h₃]; rfl)).bind fun _ s₅ h₅ => ?_
  refine (release_table (by rw [h₅, table_setProc, h₄]; simp [Table.hold, Table.set])).imp
    fun _ s₆ h₆ => ?_
  refine ⟨of_decide_eq_true hzero, ?_⟩
  have hentry : (s₄.procs p).entry = s₃.table.entry p := (congrArg (fun t => Table.entry t p) h₄ :)
  have hnew : Proc.entry { s₄.procs p with exitState := exitState, state := .zombie } =
      { s₃.table.entry p with exitState := exitState, state := .zombie } := by
    rw [← hentry]
    rfl
  have hheld : s.table.held (.proc p) = false := by
    rw [h₃] at hproc
    rw [← reparent_held p allProcs s.table]
    exact hproc
  rw [h₆, h₅, table_setProc, hnew, h₄, h₃]
  refine Table.ext rfl rfl rfl ?_
  refine relock_both (show Lock.wait ≠ .proc p from nofun) ?_ ?_
  · exact (congrFun (reparent_held _ _ _) _).trans hwait
  · exact (congrFun (reparent_held _ _ _) _).trans hheld

/-! ## `proc_wait` -/

/-- Outcomes of the scan for exited children. -/
inductive Scanned (t : Table) (p : ProcId) (ps : List ProcId) (havekids : Bool) : Option Nat × Bool → Table → Prop where
  | reaped {pp : ProcId} (mem : pp ∈ ps) (child : (t.entry pp).parent = some p)
      (zombie : (t.entry pp).state = .zombie) :
      Scanned t p ps havekids (some (t.entry pp).pid, true) (t.set pp .blank)
  | none (alive : ∀ pp ∈ ps, (t.entry pp).parent = some p → (t.entry pp).state ≠ .zombie) (kids : Bool)
      (has : kids = true ↔ havekids = true ∨ ∃ pp ∈ ps, (t.entry pp).parent = some p) :
      Scanned t p ps havekids (none, kids) t

theorem waitLoop_table (p : ProcId) (addr : Nat) (ps : List ProcId) (havekids : Bool) (s : Kernel) :
    Sat (waitLoop p addr ps havekids) s (fun _ => True) (fun r s' => Scanned s.table p ps havekids r s'.table)
      (· ≠ .release) := by
  induction ps generalizing havekids s with
  | nil => exact (sat_pure _).mpr (.none (fun _ hc => absurd hc List.not_mem_nil) havekids (by simp))
  | cons pp ps ih =>
      unfold waitLoop
      rw [sat_bind, sat_procOf]
      by_cases hchild : (s.table.entry pp).parent = some p
      swap
      · have hchild' : ¬ (s.procs pp).parent = some p := hchild
        rw [if_neg hchild']
        refine (ih havekids s).imp fun r s' hr => ?_
        generalize s'.table = t' at hr
        cases hr with
        | reaped mem child zombie => exact .reaped (List.mem_cons_of_mem _ mem) child zombie
        | none alive kids has =>
            refine .none (fun q hq => ?_) kids ?_
            · rcases List.mem_cons.mp hq with rfl | hq
              · exact fun hc => absurd hc hchild
              · exact alive q hq
            · rw [has]
              simp [hchild]
      have hchild' : (s.procs pp).parent = some p := hchild
      rw [if_pos hchild']
      refine (acquire_table _ s).bind fun _ s₁ h₁ => ?_
      obtain ⟨hfree, h₁⟩ := h₁
      have hentry : (s₁.procs pp).entry = s.table.entry pp :=
        (congrArg (fun t => Table.entry t pp) h₁ :)
      have hstate : (s₁.procs pp).state = (s.table.entry pp).state :=
        (congrArg Entry.state hentry :)
      rw [sat_bind, sat_procOf]
      by_cases hz : (s.table.entry pp).state = .zombie
      · have hpid : (s₁.procs pp).pid = (s.table.entry pp).pid := (congrArg Entry.pid hentry :)
        rw [if_pos (hstate.trans hz), sat_bind, sat_procOf]
        have hfinish : ∀ {s₂ : Kernel}, s₂.table = s₁.table → Sat (do
            procFree pp
            spinlockRelease (.proc pp)
            return (some (s₁.procs pp).pid, true)) s₂ (fun _ => True)
            (fun r s' => Scanned s.table p (pp :: ps) havekids r s'.table) (· ≠ .release) := by
          intro s₂ h₂
          refine (procFree_table pp s₂).bind fun _ s₃ h₃ => ?_
          refine (release_table (by rw [h₃, h₂, h₁]; exact hold_self)).bind
            fun _ s₄ h₄ => (sat_pure _).mpr ?_
          have he : s₄.table = s.table.set pp .blank := by
            rw [h₄, h₃, h₂, h₁]
            exact Table.ext rfl rfl rfl (relock hfree)
          rw [he, hpid]
          exact .reaped List.mem_cons_self hchild hz
        split
        · rw [sat_bind, sat_procOf, sat_bind, sat_procOf]
          exact (uvmCopyout_steady _ _ _ _ s₁).bind fun _ s₂ h₂ => hfinish h₂
        · exact hfinish rfl
      · rw [if_neg (by rw [hstate]; exact hz)]
        refine (release_table (by rw [h₁, hold_self])).bind fun _ s₂ h₂ => ?_
        have hback : s₂.table = s.table := by rw [h₂, h₁, hold_restore hfree]
        refine (ih true s₂).imp fun r s' hr => ?_
        rw [hback] at hr
        generalize s'.table = t' at hr
        cases hr with
        | reaped mem child zombie => exact .reaped (List.mem_cons_of_mem _ mem) child zombie
        | none alive kids has =>
            refine .none (fun q hq => ?_) kids ?_
            · rcases List.mem_cons.mp hq with rfl | hq
              · exact fun _ => hz
              · exact alive q hq
            · rw [has]
              simp [hchild]

/-- The table of a process that starts a pass of `proc_wait`. -/
def Table.awake (t : Table) (p : ProcId) : Table := t.set p { t.entry p with sleepSpace := none }

def Table.asleep (t : Table) (p : ProcId) : Table :=
  t.set p { t.entry p with sleepSpace := some (.proc p), state := .sleeping }

/-- Outcomes of a pass of `proc_wait`. -/
inductive Waited (t : Table) (p : ProcId) : WaitResult → Table → Prop where
  | reaped {pp : ProcId} (child : (t.entry pp).parent = some p)
      (zombie : (t.entry pp).state = .zombie) :
      Waited t p (.reaped (t.entry pp).pid) ((t.awake p).set pp .blank)
  | noChild (none : ∀ pp, (t.entry pp).parent ≠ some p) : Waited t p .noChild (t.awake p)
  | asleep (alive : ∀ pp, (t.entry pp).parent = some p → (t.entry pp).state ≠ .zombie)
      (kids : ∃ pp, (t.entry pp).parent = some p) : Waited t p .asleep (t.asleep p)

theorem awake_entry (t : Table) (p q : ProcId) : ((t.awake p).entry q).parent = (t.entry q).parent ∧
    ((t.awake p).entry q).state = (t.entry q).state ∧
    ((t.awake p).entry q).pid = (t.entry q).pid := by
  by_cases hq : q = p
  · subst hq
    unfold Table.awake
    rw [set_entry_self]
    exact ⟨rfl, rfl, rfl⟩
  · unfold Table.awake
    rw [set_entry_ne hq]
    exact ⟨rfl, rfl, rfl⟩

theorem procWait_table (p : ProcId) (addr : Nat) (s : Kernel) :
    Sat (procWait p addr) s (fun _ => True)
      (fun r s' => Waited s.table p r s'.table) (· ≠ .release) := by
  unfold procWait
  rw [sat_bind, sat_modifyProc]
  generalize hs₁ : s.setProc p { s.procs p with sleepSpace := none } = s₁
  have h₁ : s₁.table = s.table.awake p := by
    rw [← hs₁, table_setProc]
    rfl
  refine (acquire_table _ s₁).bind fun _ s₂ h₂ => ?_
  obtain ⟨hfree, h₂⟩ := h₂
  refine (waitLoop_table p addr allProcs false s₂).bind fun r s₃ h₃ => ?_
  rw [h₂, h₁] at h₃
  rw [h₁] at hfree
  generalize ht₃ : s₃.table = t₃ at h₃
  cases h₃ with
  | @reaped pp mem child zombie =>
      refine (release_table (by rw [ht₃]; rfl)).bind fun _ s₄ h₄ => (sat_pure _).mpr ?_
      have he : s₄.table = (s.table.awake p).set pp .blank := by
        rw [h₄, ht₃]
        exact Table.ext rfl rfl rfl (relock hfree)
      obtain ⟨h1, h2, h3⟩ := awake_entry s.table p pp
      have hpid : (((s.table.awake p).hold .wait true).entry pp).pid = (s.table.entry pp).pid := h3
      rw [he, hpid]
      exact .reaped (h1.symm.trans child) (h2.symm.trans zombie)
  | none alive kids has =>
      dsimp only
      cases kids with
      | false =>
          refine (release_table (by rw [ht₃]; exact hold_self)).bind fun _ s₄ h₄ => (sat_pure _).mpr ?_
          have he : s₄.table = s.table.awake p := by
            rw [h₄, ht₃]
            exact Table.ext rfl rfl rfl (relock hfree)
          rw [he]
          refine .noChild fun pp hpp => ?_
          have hkid := has.mpr (.inr ⟨pp, List.mem_finRange pp, (awake_entry s.table p pp).1.trans hpp⟩)
          cases hkid
      | true =>
          rw [if_neg (by decide)]
          refine (acquire_table _ s₃).bind fun _ s₄ h₄ => ?_
          refine (release_table (by rw [h₄.2, ht₃]; rfl)).bind fun _ s₅ h₅ => ?_
          rw [sat_bind, sat_modifyProc]
          refine (release_table (by rw [table_setProc, h₅, h₄.2]; simp [Table.hold, Table.set])).bind fun _ s₆ h₆ => (sat_pure _).mpr ?_
          have hentry : (s₅.procs p).entry = (s.table.awake p).entry p := by
            have he : s₅.table.entry p = _ := (congrArg (fun t => Table.entry t p) (h₅.trans (by rw [h₄.2, ht₃])) :)
            exact he
          have hproc : (s.table.awake p).held (.proc p) = false := by
            have hp := h₄.1
            rw [ht₃] at hp
            exact hp
          have hnew : Proc.entry { s₅.procs p with sleepSpace := some (.proc p), state := .sleeping } =
              { (s.table.awake p).entry p with sleepSpace := some (.proc p), state := .sleeping } := by
            rw [← hentry]
            rfl
          have hasleep : { (s.table.awake p).entry p with sleepSpace := some (.proc p), state := .sleeping } =
              { s.table.entry p with sleepSpace := some (.proc p), state := ProcState.sleeping } := by
            unfold Table.awake
            rw [set_entry_self]
          have he : s₆.table = s.table.asleep p := by
            rw [h₆, table_setProc, hnew, hasleep, h₅, h₄.2, ht₃]
            refine Table.ext ?_ rfl rfl ?_
            · exact Function.update_idem _ _ _
            · exact relock_both (show Lock.wait ≠ .proc p from nofun) hfree hproc
          rw [he]
          refine .asleep (fun pp hpp => ?_) ?_
          · obtain ⟨hp1, hp2, -⟩ := awake_entry s.table p pp
            rw [← hp2]
            exact alive pp (List.mem_finRange pp) (hp1.trans hpp)
          · obtain ⟨pp, -, hpp⟩ := (has.mp rfl).resolve_left nofun
            exact ⟨pp, (awake_entry s.table p pp).1.symm.trans hpp⟩

end

end WhuOs.Mem
