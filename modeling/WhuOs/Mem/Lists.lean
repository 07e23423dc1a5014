import WhuOs.Mem.World

/-! # The functions on `mmap` lists and memory

The list surgery of `uvm_mmap`, `uvm_munmap` and `proc_fork` touches nodes and the
list heads of processes, never memory or the page pools.
-/

namespace WhuOs.Mem

open Prog

def Kernel.listless (s : Kernel) : Kernel :=
  { s with nodes := fun _ => ⟨0, 0, none, none⟩, procs := fun p => { s.procs p with mmap := none } }

def Kernel.Paged (s : Kernel) : Prop := ∀ i, (s.nodes i).begin % pgSize = 0

/-- Work on the list of process `p`; `x` are the records of the others. -/
structure Relisted (p : ProcId) (x : ProcId → Proc) (s : Kernel) : Prop where
  paged : s.Paged
  others : ∀ q, q ≠ p → s.procs q = x q

section

variable {s s' : Kernel} {i : NodeId} {p : ProcId} {G : Event → Prop} {E : Panic → Prop}

@[simp] theorem listless_setNode (s : Kernel) (i : NodeId) (y : Node) :
    (s.setNode i y).listless = s.listless := rfl

theorem listless_setMmap (s : Kernel) (p : ProcId) (l : Option NodeId) :
    (s.setProc p { s.procs p with mmap := l }).listless = s.listless := by
  unfold Kernel.listless Kernel.setProc
  congr 1
  funext q
  dsimp only
  by_cases hq : q = p
  · subst hq
    rw [Function.update_self]
  · rw [Function.update_of_ne hq]

theorem listless_same (h : s'.listless = s.listless) : SameMem s s' where
  mem := (congrArg Kernel.mem h :)
  region k := by
    cases k with
    | false => exact (congrArg Kernel.user h :)
    | true => exact (congrArg Kernel.kern h :)
  lock k := congrFun (congrArg Kernel.locks h :) (.pmem k)
  allocBegin := (congrArg Kernel.allocBegin h :)
  trampoline := (congrArg Kernel.trampoline h :)
  etext := (congrArg Kernel.etext h :)
  kernelPgtbl := (congrArg Kernel.kernelPgtbl h :)

theorem listless_procs (h : s'.listless = s.listless) (p : ProcId) :
    s'.procs p = { s.procs p with mmap := (s'.procs p).mmap } := by
  have hp : ({ s'.procs p with mmap := none } : Proc) = { s.procs p with mmap := none } :=
    congrFun (congrArg Kernel.procs h :) p
  have h2 := congrArg (fun x : Proc => ({ x with mmap := (s'.procs p).mmap } : Proc)) hp
  exact h2

/-! ## The warehouse -/

theorem mmapRegionAlloc_sat {Q : NodeId → Kernel → Prop} (hl : s.locks .mmapList = false)
    (hE : (s.nodes 0).link = none → ∀ e, E e)
    (hQ : ∀ i, (s.nodes 0).link = some i →
      Q i (s.setNode 0 { s.nodes 0 with link := (s.nodes i).link })) :
    Sat mmapRegionAlloc s G Q E := by
  unfold mmapRegionAlloc
  rw [sat_bind, sat_acquire hl, sat_bind, sat_nodeOf, setLock_nodes]
  cases hlink : (s.nodes 0).link with
  | none =>
      rw [sat_bind, sat_release (by simp), sat_panic]
      exact hE hlink _
  | some i =>
      rw [sat_bind, sat_nodeOf, sat_bind, sat_modifyNode, sat_bind, setLock_nodes, setLock_setNode,
        sat_release (by simp), sat_pure, ← setLock_setNode, setLock_setNode]
      have hback :
          ((s.setNode 0 { s.nodes 0 with link := (s.nodes i).link }).setLock .mmapList true).setLock
            .mmapList false = s.setNode 0 { s.nodes 0 with link := (s.nodes i).link } :=
        setLock_restore hl
      rw [hback]
      exact hQ i hlink

def Kernel.returned (s : Kernel) (i : NodeId) : Kernel :=
  (s.setNode i { s.nodes i with link := (s.nodes 0).link }).setNode 0
    { (s.setNode i { s.nodes i with link := (s.nodes 0).link }).nodes 0 with link := some i }

theorem mmapRegionFree_sat {Q : Unit → Kernel → Prop} (hl : s.locks .mmapList = false) :
    Sat (mmapRegionFree i) s G Q E ↔ Q () (s.returned i) := by
  unfold mmapRegionFree
  rw [sat_bind, sat_acquire hl, sat_bind, sat_nodeOf, sat_bind, sat_modifyNode,
    sat_bind, sat_modifyNode,
    setLock_nodes, setLock_setNode, setLock_nodes, setLock_setNode, sat_release (by simp)]
  have hback : ((s.returned i).setLock .mmapList true).setLock .mmapList false = s.returned i :=
    setLock_restore (s := s.returned i) hl
  unfold Kernel.returned at hback ⊢
  rw [hback]

theorem sat_acquire_held {lk : Lock} {Q : Unit → Kernel → Prop} (hl : s.locks lk = true) :
    Sat (spinlockAcquire lk) s G Q E ↔ E .doubleAcquire := by
  unfold spinlockAcquire
  rw [sat_bind, sat_state, if_pos (by simp [hl]), sat_bind, sat_panic]

theorem silent_mmapRegionAlloc : Silent Kernel.listless mmapRegionAlloc := by
  intro s
  cases hl : s.locks .mmapList with
  | false => exact mmapRegionAlloc_sat hl (fun _ _ => trivial) fun i _ => listless_setNode s 0 _
  | true =>
      unfold mmapRegionAlloc
      rw [sat_bind, sat_acquire_held hl]
      trivial

theorem silent_mmapRegionFree (i : NodeId) : Silent Kernel.listless (mmapRegionFree i) := by
  intro s
  cases hl : s.locks .mmapList with
  | false => exact (mmapRegionFree_sat hl).mpr rfl
  | true =>
      unfold mmapRegionFree
      rw [sat_bind, sat_acquire_held hl]
      trivial

/-! ## Loops over lists -/

theorem silent_nodeOf (i : NodeId) : Silent Kernel.listless (nodeOf i) :=
  silent_state.bind fun _ => silent_pure _

theorem silent_procOf (p : ProcId) : Silent Kernel.listless (procOf p) :=
  silent_state.bind fun _ => silent_pure _

theorem silent_modifyNode (i : NodeId) (f : Node → Node) :
    Silent Kernel.listless (modifyNode i f) :=
  silent_modify fun _ => rfl

theorem silent_setNext (p : ProcId) (prev next : Option NodeId) :
    Silent Kernel.listless (setNext p prev next) := by
  cases prev with
  | none => exact silent_modify fun s => listless_setMmap s p next
  | some n => exact silent_modifyNode n _

theorem silent_getNext (p : ProcId) (prev : Option NodeId) :
    Silent Kernel.listless (getNext p prev) := by
  cases prev with
  | none => exact (silent_procOf p).bind fun _ => silent_pure _
  | some n => exact (silent_nodeOf n).bind fun _ => silent_pure _

theorem silent_munmapLoop (p : ProcId) (start stop fuel : Nat) (prev curr : Option NodeId) :
    Silent Kernel.listless (munmapLoop p start stop fuel prev curr) := by
  induction fuel generalizing prev curr with
  | zero =>
      cases curr with
      | none => exact silent_pure ()
      | some n => exact silent_panic _
  | succ fuel ih =>
      cases curr with
      | none => exact silent_pure ()
      | some n =>
          unfold munmapLoop
          refine (silent_nodeOf n).bind fun x => ?_
          refine silent_ite ((silent_nodeOf n).bind fun _ => ih _ _) ?_
          refine silent_ite ?_ (silent_ite ?_ (silent_ite ?_ ?_))
          · exact (silent_setNext p prev _).bind fun _ => (silent_mmapRegionFree n).bind fun _ =>
              (silent_getNext p prev).bind fun _ => ih _ _
          · exact (silent_modifyNode n _).bind fun _ => silent_mmapRegionAlloc.bind fun i =>
              (silent_modifyNode i _).bind fun _ => (silent_nodeOf n).bind fun _ =>
                (silent_modifyNode i _).bind fun _ => (silent_modifyNode n _).bind fun _ =>
                  (silent_nodeOf i).bind fun _ => ih _ _
          · exact (silent_modifyNode n _).bind fun _ => (silent_nodeOf n).bind fun _ => ih _ _
          · exact (silent_modifyNode n _).bind fun _ => (silent_nodeOf n).bind fun _ => ih _ _

theorem silent_assert (c : Bool) (e : Panic) : Silent Kernel.listless (assert c e) :=
  silent_ite (silent_pure ()) (silent_panic e)

theorem silent_mmapMerge (i j : NodeId) (keep : Bool) :
    Silent Kernel.listless (mmapMerge i j keep) := by
  unfold mmapMerge
  refine (silent_nodeOf i).bind fun x => (silent_nodeOf j).bind fun y =>
    (silent_assert _ _).bind fun _ => ?_
  refine silent_ite ?_ ?_
  · exact (silent_modifyNode i _).bind fun _ => silent_mmapRegionFree j
  · exact (silent_modifyNode j _).bind fun _ => silent_mmapRegionFree i

theorem silent_mergeLoop (fuel : Nat) (curr : Option NodeId) :
    Silent Kernel.listless (mergeLoop fuel curr) := by
  induction fuel generalizing curr with
  | zero =>
      cases curr with
      | none => exact silent_pure ()
      | some n => exact silent_panic _
  | succ fuel ih =>
      cases curr with
      | none => exact silent_pure ()
      | some n =>
          unfold mergeLoop
          refine (silent_nodeOf n).bind fun x => ?_
          cases x.next with
          | none => exact silent_pure ()
          | some next =>
              refine (silent_nodeOf next).bind fun y => silent_ite ?_ (ih _)
              exact (silent_mmapMerge n next true).bind fun _ => ih _

/-! ## Regions begin at pages, and other processes keep their records -/

theorem Kernel.Paged.setNode {y : Node} (h : s.Paged) (hy : y.begin % pgSize = 0) :
    (s.setNode i y).Paged := by
  intro j
  by_cases hj : j = i
  · subst hj
    rw [show (s.setNode j y).nodes j = y from Function.update_self _ _ _]
    exact hy
  · rw [show (s.setNode i y).nodes j = s.nodes j from Function.update_of_ne hj _ _]
    exact h j

theorem paged_of_nodes (h : s.Paged) (hn : s'.nodes = s.nodes) : s'.Paged := by
  intro i
  rw [hn]
  exact h i

theorem Kernel.Paged.returned (h : s.Paged) (i : NodeId) : (s.returned i).Paged := by
  have h1 : (s.setNode i { s.nodes i with link := (s.nodes 0).link }).Paged := h.setNode (h i)
  exact h1.setNode (h1 0)

section

variable {x : ProcId → Proc}

/-- A node is read. -/
theorem stable_nodeOf {α : Type} {f : Node → MemM α}
    (hf : ∀ y : Node, y.begin % pgSize = 0 → Stable (Relisted p x) (f y)) :
    Stable (Relisted p x) (nodeOf i >>= f) := by
  intro s hs
  rw [sat_bind, sat_nodeOf]
  exact hf _ (hs.paged i) s hs

theorem stable_modifyNode {α : Type} {f : Node → Node} {m : Unit → MemM α}
    (hf : ∀ y : Node, y.begin % pgSize = 0 → (f y).begin % pgSize = 0)
    (hm : Stable (Relisted p x) (m ())) :
    Stable (Relisted p x) (modifyNode i f >>= m) := by
  intro s hs
  rw [sat_bind, sat_modifyNode]
  exact hm _ ⟨hs.paged.setNode (hf _ (hs.paged i)), hs.others⟩

theorem stable_procOf {P : Kernel → Prop} (q : ProcId) : Stable P (procOf q) :=
  fun _ hs => sat_procOf.mpr hs

theorem stable_setNext (prev next : Option NodeId) :
    Stable (Relisted p x) (setNext p prev next) := by
  intro s hs
  cases prev with
  | none =>
      unfold setNext
      rw [sat_modifyProc]
      refine ⟨hs.paged, fun q hq => ?_⟩
      exact (Function.update_of_ne hq _ _).trans (hs.others q hq)
  | some n =>
      unfold setNext
      rw [sat_modifyNode]
      exact ⟨hs.paged.setNode (hs.paged n), hs.others⟩

theorem stable_getNext (prev : Option NodeId) : Stable (Relisted p x) (getNext p prev) := by
  cases prev with
  | none => exact (stable_procOf p).bind fun _ => stable_pure _
  | some n => exact stable_nodeOf fun _ _ => stable_pure _

theorem stable_mmapRegionAlloc : Stable (Relisted p x) mmapRegionAlloc := by
  intro s hs
  cases hl : s.locks .mmapList with
  | false => exact mmapRegionAlloc_sat hl (fun _ _ => trivial) fun i _ =>
      ⟨hs.paged.setNode (hs.paged 0), hs.others⟩
  | true =>
      unfold mmapRegionAlloc
      rw [sat_bind, sat_acquire_held hl]
      trivial

theorem stable_mmapRegionFree (i : NodeId) : Stable (Relisted p x) (mmapRegionFree i) := by
  intro s hs
  cases hl : s.locks .mmapList with
  | false => exact (mmapRegionFree_sat hl).mpr ⟨hs.paged.returned i, hs.others⟩
  | true =>
      unfold mmapRegionFree
      rw [sat_bind, sat_acquire_held hl]
      trivial

theorem stable_munmapLoop {stop : Nat} (start : Nat) (hstop : stop % pgSize = 0) (fuel : Nat)
    (prev curr : Option NodeId) :
    Stable (Relisted p x) (munmapLoop p start stop fuel prev curr) := by
  induction fuel generalizing prev curr with
  | zero =>
      cases curr with
      | none => exact stable_pure ()
      | some n => exact stable_panic _
  | succ fuel ih =>
      cases curr with
      | none => exact stable_pure ()
      | some n =>
          unfold munmapLoop
          apply stable_nodeOf
          intro y _
          apply stable_ite
          · exact stable_nodeOf fun _ _ => ih _ _
          apply stable_ite
          · exact (stable_setNext prev _).bind fun _ => (stable_mmapRegionFree n).bind fun _ =>
              (stable_getNext prev).bind fun _ => ih _ _
          apply stable_ite
          · -- the new node begins at the end of the range
            refine stable_modifyNode (fun _ hx => hx) ?_
            apply stable_mmapRegionAlloc.bind
            intro i
            refine stable_modifyNode (fun _ _ => hstop) ?_
            apply stable_nodeOf
            intro _ _
            refine stable_modifyNode (fun _ hx => hx) ?_
            refine stable_modifyNode (fun _ hx => hx) ?_
            exact stable_nodeOf fun _ _ => ih _ _
          apply stable_ite
          · refine stable_modifyNode (fun _ hx => hx) ?_
            exact stable_nodeOf fun _ _ => ih _ _
          · refine stable_modifyNode (fun _ _ => hstop) ?_
            exact stable_nodeOf fun _ _ => ih _ _

theorem sub64_aligned {a : Nat} (n : Nat) (ha : a % pgSize = 0) :
    sub64 a (u32 (n * pgSize)) % pgSize = 0 := by
  unfold sub64 u32 u64
  unfold pgSize at *
  omega

theorem stable_mmapMerge (i j : NodeId) (keep : Bool) :
    Stable (Relisted p x) (mmapMerge i j keep) := by
  unfold mmapMerge
  apply stable_nodeOf
  intro y _
  apply stable_nodeOf
  intro z hz
  apply Stable.bind (stable_ite (stable_pure ()) (stable_panic _))
  intro _
  apply stable_ite
  · exact stable_modifyNode (fun _ hx => hx) (stable_mmapRegionFree j)
  · exact stable_modifyNode (fun _ _ => sub64_aligned _ hz) (stable_mmapRegionFree i)

theorem stable_mergeLoop (fuel : Nat) (curr : Option NodeId) :
    Stable (Relisted p x) (mergeLoop fuel curr) := by
  induction fuel generalizing curr with
  | zero =>
      cases curr with
      | none => exact stable_pure ()
      | some n => exact stable_panic _
  | succ fuel ih =>
      cases curr with
      | none => exact stable_pure ()
      | some n =>
          unfold mergeLoop
          apply stable_nodeOf
          intro y _
          cases y.next with
          | none => exact stable_pure ()
          | some next =>
              apply stable_nodeOf
              intro _ _
              exact stable_ite ((stable_mmapMerge n next true).bind fun _ => ih _) (ih _)

end

end

end WhuOs.Mem
