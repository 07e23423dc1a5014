import WhuOs.Mem.Types

/-! # The warehouse of `mmap` nodes (`kernel/mem/mmap.c`)

The nodes that are not in use are linked behind node 0, which stays in its place.
-/

namespace WhuOs.Mem

open Prog

def mmapInit : MemM Unit :=
  modify fun s =>
    { s with
      locks := Function.update s.locks .mmapList false
      nodes := fun i =>
        { s.nodes i with link := if h : i.val + 1 < nMmap then some ⟨i.val + 1, h⟩ else none } }

def mmapRegionAlloc : MemM NodeId := do
  spinlockAcquire .mmapList
  match (← nodeOf 0).link with
  | none =>
      spinlockRelease .mmapList
      panic .mmapRegionAlloc
  | some node =>
      let next := (← nodeOf node).link
      modifyNode 0 fun x => { x with link := next }
      spinlockRelease .mmapList
      return node

def mmapRegionFree (node : NodeId) : MemM Unit := do
  spinlockAcquire .mmapList
  let head ← nodeOf 0
  modifyNode node fun x => { x with link := head.link }
  modifyNode 0 fun x => { x with link := some node }
  spinlockRelease .mmapList

end WhuOs.Mem
