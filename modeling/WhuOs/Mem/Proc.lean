import WhuOs.Mem.Uvm

/-! # Processes (`kernel/proc/proc.c`)

The current process is an argument. One hart runs the scheduler, interrupts do not
switch processes, and a process leaves the hart only by sleeping or exiting, so a
system call is one step. `proc_sched` gives the hart back and the scheduler releases
the lock of the process. A result of -1 is `none`.
-/

namespace WhuOs.Mem

open Prog Bytes

/-- Offsets in `trapframe_t` and its size. -/
def tfEpc : Nat := 24
def tfSp : Nat := 48
def tfA0 : Nat := 112
def tfA1 : Nat := 120
def tfSize : Nat := 288

/-- `include/proc/initcode.h` -/
def initcode : List UInt8 :=
  [0x13, 0x01, 0x01, 0xff, 0x23, 0x34, 0x81, 0x00, 0x13, 0x04, 0x01, 0x01, 0x6f, 0x00, 0x00, 0x00]

/-- The process table in order. -/
def allProcs : List ProcId := List.finRange 64

def allocPid : MemM Nat := do
  spinlockAcquire .pid
  let tmp := (← state).globalPid
  assert (decide (tmp < 2 ^ 31)) .allocPid
  modify fun s => { s with globalPid := tmp + 1 }
  spinlockRelease .pid
  return tmp

/-! ### `proc_free`, step by step -/

def freeTrapframe (p : ProcId) : MemM Unit := do
  if (← procOf p).tf ≠ 0 then pmemFree (← procOf p).tf true else pure ()
  modifyProc p fun x => { x with tf := 0 }

def freePgtbl (p : ProcId) : MemM Unit := do
  if (← procOf p).pgtbl ≠ 0 then uvmDestroyPgtbl (← procOf p).pgtbl else pure ()
  modifyProc p fun x => { x with pgtbl := 0 }

def freeKstack (p : ProcId) : MemM Unit := do
  if (← procOf p).kstack ≠ 0 then
    vmUnmappages (← state).kernelPgtbl (← procOf p).kstack pgSize true

/-- The first region of the list goes back to the warehouse. -/
def freeMmap (p : ProcId) : MemM Unit := do
  match (← procOf p).mmap with
  | none => pure ()
  | some n => mmapRegionFree n

/-- `proc_free`; the caller holds the lock of the process. -/
def procFree (p : ProcId) : MemM Unit := do
  freeTrapframe p
  freePgtbl p
  freeKstack p
  freeMmap p
  modifyProc p fun x =>
    { x with mmap := none, pid := 0, parent := none, exitState := 0, sleepSpace := none, heapTop := 0
             ustackBase := 0, ustackPages := 0, state := .unused }

/-- A table with the trampoline and the trap frame, or 0. -/
def procPgtblInit (trapframe : Nat) : MemM Nat := do
  let pgtbl ← pmemAlloc false
  if pgtbl = 0 then return 0
  clearPage pgtbl
  if (← vmGetpte pgtbl trampolineVa true) = 0 then
    uvmDestroyPgtbl pgtbl
    return 0
  vmMappages pgtbl trampolineVa (← state).trampoline pgSize (pteR ||| pteX)
  if (← vmGetpte pgtbl trapframeVa true) = 0 then
    vmUnmappages pgtbl trampolineVa pgSize false
    uvmDestroyPgtbl pgtbl
    return 0
  vmMappages pgtbl trapframeVa trapframe pgSize (pteR ||| pteW)
  return pgtbl

/-- The first unused process, with its lock held. -/
def findUnused : List ProcId → MemM (Option ProcId)
  | [] => return none
  | p :: ps => do
      spinlockAcquire (.proc p)
      if (← procOf p).state = .unused then
        return some p
      else
        spinlockRelease (.proc p)
        findUnused ps

/-- A process that could not be set up. -/
def abandonProc (p : ProcId) : MemM (Option ProcId) := do
  procFree p
  spinlockRelease (.proc p)
  return none

def procAlloc : MemM (Option ProcId) := do
  match ← findUnused allProcs with
  | none => return none
  | some p =>
      let pid ← allocPid
      modifyProc p fun x => { x with pid := pid }
      modifyProc p fun x => { x with state := .runnable }
      let tf ← pmemAlloc true
      modifyProc p fun x => { x with tf := tf }
      if tf = 0 then abandonProc p
      else
        let pgtbl ← procPgtblInit tf
        modifyProc p fun x => { x with pgtbl := pgtbl }
        if pgtbl = 0 then abandonProc p
        else
          let kstackPa ← pmemAlloc true
          if kstackPa = 0 then abandonProc p
          else
            vmMappages (← state).kernelPgtbl (← procOf p).kstack kstackPa pgSize (pteR ||| pteW)
            return some p

def procInit : MemM Unit :=
  modify fun s =>
    { s with
      locks := fun lk =>
        match lk with
        | .pid => false
        | .wait => false
        | .proc _ => false
        | lk => s.locks lk
      procs := fun p => { s.procs p with state := .unused, kstack := kstackVa p } }

/-- `proc_make_first` up to the call of the scheduler. -/
def procMakeFirst : MemM Unit := do
  match ← procAlloc with
  | none => panic .procMakeFirstAlloc
  | some p =>
      modify fun s => { s with proczero := some p }
      let pa ← pmemAlloc false
      if pa = 0 then panic .procMakeFirstPage
      clearPage pa
      vmMappages (← procOf p).pgtbl 0 pa pgSize (pteR ||| pteW ||| pteX ||| pteU)
      storeBytes pa (fun i => initcode.getD i 0) initcode.length
      modifyProc p fun x => { x with heapTop := pgSize }
      modifyProc p fun x => { x with ustackBase := 0x10000, ustackPages := 1 }
      let pa ← pmemAlloc false
      if pa = 0 then panic .procMakeFirstStack
      clearPage pa
      vmMappages (← procOf p).pgtbl (← procOf p).ustackBase pa pgSize (pteR ||| pteW ||| pteU)
      store ((← procOf p).tf + tfEpc) 0
      store ((← procOf p).tf + tfSp) (u64 ((← procOf p).ustackBase + pgSize))
      modifyProc p fun x => { x with state := .runnable }
      spinlockRelease (.proc p)

/-- The copies of the nodes of a list, linked in order. `mmap_region_alloc` panics and never returns
null, so the error path of the source is not reached. -/
def copyListLoop : Nat → Option NodeId → Option NodeId → Option NodeId → MemM (Option NodeId)
  | _, none, head, _ => return head
  | 0, some _, _, _ => panic .diverges
  | fuel + 1, some src, head, tail => do
      let node ← mmapRegionAlloc
      let x ← nodeOf src
      modifyNode node fun y => { y with begin := x.begin }
      let x ← nodeOf src
      modifyNode node fun y => { y with npages := x.npages }
      modifyNode node fun y => { y with next := none }
      match tail with
      | none => pure ()
      | some t => modifyNode t fun y => { y with next := some node }
      copyListLoop fuel (← nodeOf src).next (some (head.getD node)) (some node)

def procFork (p : ProcId) : MemM (Option Nat) := do
  match ← procAlloc with
  | none => return none
  | some np =>
      let x ← procOf p
      uvmCopyPgtbl x.pgtbl (← procOf np).pgtbl x.heapTop x.ustackBase (u32 x.ustackPages) x.mmap
      modifyProc np fun y =>
        { y with heapTop := x.heapTop, ustackBase := x.ustackBase, ustackPages := x.ustackPages }
      let mmap ← copyListLoop listFuel (← procOf p).mmap none none
      modifyProc np fun y => { y with mmap := mmap }
      memmove (← procOf np).tf (← procOf p).tf tfSize
      store ((← procOf np).tf + tfA0) 0
      modifyProc np fun y => { y with parent := some p }
      let pid := (← procOf np).pid
      modifyProc np fun y => { y with state := .runnable }
      spinlockRelease (.proc np)
      return some pid

/-- `proc_wakeup` on the processes of a list; `me` is `myproc()`. -/
def wakeupLoop (me : Option ProcId) (space : Option Chan) : List ProcId → MemM Unit
  | [] => return ()
  | p :: ps => do
      if some p ≠ me then
        spinlockAcquire (.proc p)
        let x ← procOf p
        if x.state = .sleeping ∧ x.sleepSpace = space then
          modifyProc p fun x => { x with state := .runnable }
        spinlockRelease (.proc p)
      wakeupLoop me space ps

def procWakeup (me : Option ProcId) (space : Option Chan) : MemM Unit :=
  wakeupLoop me space allProcs

def reparentLoop (parent : ProcId) : List ProcId → MemM Unit
  | [] => return ()
  | pp :: ps => do
      if (← procOf pp).parent = some parent then
        let zero := (← state).proczero
        modifyProc pp fun x => { x with parent := zero }
        procWakeup (some parent) (zero.map .proc)
      reparentLoop parent ps

/-- `proc_exit` up to the switch to the scheduler, which releases the lock. -/
def procExit (p : ProcId) (exitState : Nat) : MemM Unit := do
  assert (decide ((← state).proczero ≠ some p)) .procExitZero
  spinlockAcquire .wait
  reparentLoop p allProcs
  procWakeup (some p) ((← procOf p).parent.map .proc)
  spinlockAcquire (.proc p)
  modifyProc p fun x => { x with exitState := exitState, state := .zombie }
  spinlockRelease .wait
  spinlockRelease (.proc p)

/-- How a pass of `proc_wait` ends. -/
inductive WaitResult where
  | reaped (pid : Nat)
  | noChild
  | asleep
deriving DecidableEq

/-- The scan for exited children. -/
def waitLoop (p : ProcId) (addr : Nat) : List ProcId → Bool → MemM (Option Nat × Bool)
  | [], havekids => return (none, havekids)
  | pp :: ps, havekids => do
      if (← procOf pp).parent = some p then
        spinlockAcquire (.proc pp)
        if (← procOf pp).state = .zombie then
          let pid := (← procOf pp).pid
          if addr ≠ 0 then
            uvmCopyout (← procOf p).pgtbl addr (.object (leBytes (← procOf pp).exitState)) 4
          procFree pp
          spinlockRelease (.proc pp)
          return (some pid, true)
        spinlockRelease (.proc pp)
        waitLoop p addr ps true
      else
        waitLoop p addr ps havekids

/-- One pass of `proc_wait`, until it returns or sleeps. A process that woke up starts the next pass
with the last statements of `proc_sleep`. -/
def procWait (p : ProcId) (addr : Nat) : MemM WaitResult := do
  modifyProc p fun x => { x with sleepSpace := none }
  spinlockAcquire .wait
  let (found, havekids) ← waitLoop p addr allProcs false
  match found with
  | some pid =>
      spinlockRelease .wait
      return .reaped pid
  | none =>
      if !havekids then
        spinlockRelease .wait
        return .noChild
      else
        spinlockAcquire (.proc p)
        spinlockRelease .wait
        modifyProc p fun x => { x with sleepSpace := some (.proc p), state := .sleeping }
        spinlockRelease (.proc p)
        return .asleep

end WhuOs.Mem
