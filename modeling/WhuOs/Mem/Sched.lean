import WhuOs.Mem.Control
import WhuOs.Lib.Trace

/-! # The hart that runs the scheduler

One hart runs `proc_scheduler` and all processes. Control passes from a process to
the scheduler in `proc_sched` only, so a step is what happens between two switches:
the scheduler dispatches a process, or the process that runs performs a call of
`proc.c` until it returns or gives the hart away. The process that gets the hart
first releases its own lock, which the scheduler took for it; the scheduler releases
the lock of a process that came back.
-/

namespace WhuOs.Mem

open Prog

/-! ## Functions around the switch -/

/-- A turn of the loop of `proc_scheduler`: the process runs from now on, if it can. -/
def dispatch (p : ProcId) : MemM Bool := do
  spinlockAcquire (.proc p)
  if (← procOf p).state = .runnable then
    modifyProc p fun x => { x with state := .running }
    spinlockRelease (.proc p)
    return true
  else
    spinlockRelease (.proc p)
    return false

def procYield (p : ProcId) : MemM Unit := do
  spinlockAcquire (.proc p)
  modifyProc p fun x => { x with state := .runnable }
  spinlockRelease (.proc p)

/-- `proc_sleep` up to the switch. -/
def procSleep (p : ProcId) (space : Chan) (lk : Lock) : MemM Unit := do
  spinlockAcquire (.proc p)
  spinlockRelease lk
  modifyProc p fun x => { x with sleepSpace := some space, state := .sleeping }
  spinlockRelease (.proc p)

/-- `proc_sleep` after the switch. -/
def procSleepEnd (p : ProcId) (lk : Lock) : MemM Unit := do
  modifyProc p fun x => { x with sleepSpace := none }
  spinlockAcquire lk

/-! ## The machine -/

/-- Where a process goes on when it gets the hart. -/
inductive Resume where
  /-- Outside the calls of `proc.c`: a new process, or one that yielded. -/
  | user
  /-- In a call of `proc_sleep` with this lock. -/
  | sleep (lk : Lock)
  /-- In the call of `proc_sleep` of `proc_wait(addr)`. -/
  | wait (addr : Nat)
deriving DecidableEq

/-- What the calls of processes did. -/
inductive Note where
  | exited (pid status : Nat)
  | waited (p : ProcId) (result : WaitResult)
deriving DecidableEq

/-- The kernel, the process that has the hart (`mycpu()->proc`) and where each process goes on. The
history is not part of the machine. -/
structure Cpu where
  kernel : Kernel
  proc : Option ProcId
  resume : ProcId → Resume
  history : List Note

inductive Act where
  | makeFirst
  | schedule (p : ProcId)
  | fork
  | yield
  | sleep (space : Chan) (lk : Lock)
  | wakeup (space : Chan)
  | exit (status : Nat)
  | wait (addr : Nat)
  /-- A process goes on in the call in which it slept. -/
  | goOn
deriving DecidableEq

/-- The outcome of a call that returns. -/
def returned {α : Type} (m : MemM α) (s : Kernel) : Option (α × Kernel) :=
  match (m s).1 with
  | .ok r => some r
  | .error _ => none

/-- The process is outside the kernel. -/
def Cpu.outside (c : Cpu) : Option ProcId := c.proc.filter fun p => c.resume p = .user

/-- A pass of `proc_wait`. -/
def Cpu.waitPass (c : Cpu) (p : ProcId) (addr : Nat) : Option Cpu := do
  let (r, s) ← returned (procWait p addr) c.kernel
  match r with
  | .asleep =>
      some { c with kernel := s, proc := none, resume := Function.update c.resume p (.wait addr) }
  | r => some { c with kernel := s, resume := Function.update c.resume p .user, history := .waited p r :: c.history }

def Cpu.step (a : Act) (c : Cpu) : Option Cpu :=
  match a with
  | .makeFirst =>
      if c.kernel.proczero = none ∧ c.proc = none then do
        let (_, s) ← returned procMakeFirst c.kernel
        some { c with kernel := s }
      else none
  | .schedule p =>
      if c.proc = none then do
        let (r, s) ← returned (dispatch p) c.kernel
        some { c with kernel := s, proc := if r then some p else none }
      else none
  | .fork => do
      let p ← c.outside
      let (_, s) ← returned (procFork p) c.kernel
      some { c with kernel := s }
  | .yield => do
      let p ← c.outside
      let (_, s) ← returned (procYield p) c.kernel
      some { c with kernel := s, proc := none }
  | .sleep space lk => do
      let p ← c.outside
      -- the caller holds the lock
      let (_, s) ← returned (do spinlockAcquire lk; procSleep p space lk) c.kernel
      some { c with kernel := s, proc := none, resume := Function.update c.resume p (.sleep lk) }
  | .wakeup space => do
      -- also called by handlers of interrupts
      let (_, s) ← returned (procWakeup c.proc (some space)) c.kernel
      some { c with kernel := s }
  | .exit status => do
      let p ← c.outside
      let (_, s) ← returned (procExit p status) c.kernel
      -- the next process of this slot starts in `fork_return`
      some { c with
        kernel := s, proc := none, resume := Function.update c.resume p .user
        history := .exited (c.kernel.procs p).pid status :: c.history }
  | .wait addr => do
      let p ← c.outside
      c.waitPass p addr
  | .goOn => do
      let p ← c.proc
      match c.resume p with
      | .user => none
      | .sleep lk =>
          let (_, s) ← returned (do procSleepEnd p lk; spinlockRelease lk) c.kernel
          some { c with kernel := s, resume := Function.update c.resume p .user }
      | .wait addr => c.waitPass p addr

/-- The scheduler has not started. -/
def Cpu.start (s : Kernel) : Cpu := ⟨s, none, fun _ => .user, []⟩

end WhuOs.Mem
