import WhuOs.Mem.Sched
import WhuOs.Mem.Space
import WhuOs.Mem.Sys

/-! # System calls and user mode (`kernel/syscall`, `kernel/trap/trap_user.c`)

The machine of one hart with user programs. A process that has the hart and is outside
the kernel writes to its memory, or traps: `user_vector` saves its registers in the trap
frame, a system call takes its arguments from there, and the result goes back the same
way. User code is arbitrary: nothing is known of what it writes and of the registers it
traps with. A run ends where a process calls `sys_exec`.
-/

namespace WhuOs.Mem

open Prog Bytes

/-! ## Arguments (`syscall.c`) -/

/-- Offsets in `trapframe_t`; `tfRegs` is the first of the registers that `user_vector` saves. -/
def tfKernelSatp : Nat := 0
def tfKernelSp : Nat := 8
def tfKernelTrap : Nat := 16
def tfKernelHartid : Nat := 32
def tfRegs : Nat := 40
def tfA7 : Nat := 168

/-- `arg_raw`. All callers ask for `a0` or `a1`. -/
def argRaw (p : ProcId) (n : Nat) : MemM Nat := do load ((← procOf p).tf + tfA0 + 8 * n)

def argUint32 (p : ProcId) (n : Nat) : MemM Nat := do return u32 (← argRaw p n)

def argUint64 (p : ProcId) (n : Nat) : MemM Nat := argRaw p n

/-! ## The other system calls (`sysfunc.c`) -/

/-- What a trap finds outside this part of the kernel. -/
structure Setting where
  /-- The files, for `sys_exec`. -/
  lookup : List UInt8 → Option Image
  /-- `sys_timer.ticks`, when `sys_sleep` starts and in the test of its loop. -/
  ticks : Nat
  ticksNow : Nat
  /-- The address of `trap_user_handler`. -/
  trapUserHandler : Nat

/-- `sys_timer`, for its `ticks` and for its lock. -/
def sysTimer : Nat := 0

/-- The string is printed. -/
def sysPrint (p : ProcId) : MemM Nat := do
  let addr ← argUint64 p 0
  let _ ← uvmCopyinStrVar (← procOf p).pgtbl addr 256
  return 0

/-- A process number as a result. -/
def pidResult : Option Nat → Nat
  | some pid => pid
  | none => negOne

def sysFork (p : ProcId) : MemM Nat := do return pidResult (← procFork p)

def sysSleep (p : ProcId) (k : Setting) : MemM Nat := do
  let second ← argUint32 p 0
  let targetTick := u64 (k.ticks + second)
  if k.ticksNow < targetTick then
    procSleep p (.object sysTimer) (.object sysTimer)
    -- not reached: the lock of the timer is not held, and `proc_sleep` releases it
    panic .diverges
  else
    return 0

/-- `sysnum.h` -/
inductive Sysno where
  | print | brk | mmap | munmap | fork | wait | exit | sleep | exec
deriving DecidableEq

/-- The table `syscalls`. -/
def syscalls : Nat → Option Sysno
  | 0 => some .print
  | 1 => some .brk
  | 2 => some .mmap
  | 3 => some .munmap
  | 4 => some .fork
  | 5 => some .wait
  | 6 => some .exit
  | 7 => some .sleep
  | 8 => some .exec
  | _ => none

/-- How a trap ends. -/
inductive Ended where
  /-- The process goes on in user mode, with a new `a0` or with its own. -/
  | back (a0 : Option Nat)
  | exited
  /-- In `proc_wait(addr)`. -/
  | asleep (addr : Nat)
deriving DecidableEq

def waitEnded (addr : Nat) : WaitResult → Ended
  | .reaped pid => .back (some pid)
  | .noChild => .back (some negOne)
  | .asleep => .asleep addr

/-- A pass of `sys_wait`. -/
def sysWait (p : ProcId) (addr : Nat) : MemM Ended := do return waitEnded addr (← procWait p addr)

def sysExit (p : ProcId) : MemM Ended := do
  procExit p (← argUint32 p 0)
  return .exited

/-- The calls that return to their caller. -/
def sysDirect (p : ProcId) (k : Setting) : Sysno → MemM Nat
  | .print => sysPrint p
  | .brk => do sysBrk p (← argUint64 p 0)
  | .mmap => do
      let start ← argUint64 p 0
      sysMmap p start (← argUint32 p 1)
  | .munmap => do
      let start ← argUint64 p 0
      sysMunmap p start (← argUint32 p 1)
  | .fork => sysFork p
  | .sleep => sysSleep p k
  | .exec => do
      let path ← argUint64 p 0
      sysExec p k.lookup path (← argUint64 p 1)
  | .wait | .exit => return negOne

/-- `syscall`; the result is stored by `userReturn`. -/
def syscall (p : ProcId) (k : Setting) : MemM Ended := do
  let num ← load ((← procOf p).tf + tfA7)
  match syscalls num with
  | none => return .back (some negOne)
  | some .wait => do sysWait p (← argUint64 p 0)
  | some .exit => sysExit p
  | some c => return .back (some (← sysDirect p k c))

/-! ## Traps (`trap_user.c`, `trampoline.S`) -/

/-- Why a process traps. Exceptions are left out: they end in a panic. -/
inductive UserTrap where
  | ecall | interrupt
deriving DecidableEq

/-- The registers are saved in the trap frame, which is mapped at `TRAPFRAME`. -/
def userVector (p : ProcId) (regs : Bytes) : MemM Unit := do
  let x ← procOf p
  modify fun s => s.setMem (splice s.mem (x.tf + tfRegs) regs (tfSize - tfRegs))

def trapUserHandler (p : ProcId) (cause : UserTrap) (epc : Nat) (k : Setting) : MemM Ended := do
  store ((← procOf p).tf + tfEpc) epc
  match cause with
  | .interrupt => return .back none
  | .ecall =>
      store ((← procOf p).tf + tfEpc) (u64 (epc + 4))
      syscall p k

/-- `MAKE_SATP` -/
def makeSatp (pgtbl : Nat) : Nat := 8 * 2 ^ 60 + pgtbl / 2 ^ 12

/-- `trap_user_return` up to the jump to `user_return`. Hart 0 runs all processes. -/
def trapUserReturn (p : ProcId) (k : Setting) : MemM Unit := do
  let x ← procOf p
  store (x.tf + tfKernelSatp) (makeSatp (← state).kernelPgtbl)
  store (x.tf + tfKernelSp) (x.kstack + pgSize)
  store (x.tf + tfKernelTrap) k.trapUserHandler
  store (x.tf + tfKernelHartid) 0

/-- The result of a system call. -/
def setResult (p : ProcId) : Option Nat → MemM Unit
  | some r => do store ((← procOf p).tf + tfA0) r
  | none => pure ()

/-- `user_return` finds its own code and the registers of the process. -/
def Kernel.Returns (s : Kernel) (p : ProcId) : Prop :=
  leaf s.mem (s.procs p).pgtbl trapframeVpn = trapframePte (s.procs p).tf ∧
    leaf s.mem (s.procs p).pgtbl trampolineVpn = trampolinePte s

instance (s : Kernel) (p : ProcId) : Decidable (s.Returns p) := inferInstanceAs (Decidable (_ ∧ _))

/-- The byte of memory that a process writes to at a virtual address. -/
def userByte (s : Kernel) (p : ProcId) (va : Nat) : Option Nat :=
  let e := leaf s.mem (s.procs p).pgtbl (va / pgSize)
  if va / pgSize < vaPages ∧ hasFlag e pteV ∧ hasFlag e pteW ∧ hasFlag e pteU then
    some (pteToPa e + va % pgSize)
  else none

/-- `timer_update`; the ticks are given to `sys_sleep` by its setting. -/
def timerUpdate (me : Option ProcId) : MemM Unit := do
  spinlockAcquire (.object sysTimer)
  procWakeup me (some (.object sysTimer))
  spinlockRelease (.object sysTimer)

/-! ## The machine -/

/-- A process goes on in user mode. Without its mappings the hart takes the same trap for ever; the
stores to the trap frame do not change them. -/
def Cpu.userReturn (c : Cpu) (p : ProcId) (k : Setting) (a0 : Option Nat) : Option Cpu :=
  if c.kernel.Returns p then do
    let (_, s) ← returned (do setResult p a0; trapUserReturn p k) c.kernel
    some { c with kernel := s, resume := Function.update c.resume p .user }
  else none

def Cpu.ended (c : Cpu) (p : ProcId) (k : Setting) : Ended → Option Cpu
  | .back a0 => c.userReturn p k a0
  | .exited => some { c with proc := none, resume := Function.update c.resume p .user }
  | .asleep addr => some { c with proc := none, resume := Function.update c.resume p (.wait addr) }

/-- The trap is a call of `sys_exec`. -/
def CallsExec (cause : UserTrap) (regs : Bytes) : Prop :=
  cause = .ecall ∧ syscalls (getLE regs (tfA7 - tfRegs) 8) = some .exec

instance (cause : UserTrap) (regs : Bytes) : Decidable (CallsExec cause regs) :=
  inferInstanceAs (Decidable (_ ∧ _))

inductive UserAct where
  /-- The scheduler tries a process. -/
  | schedule (p : ProcId) (k : Setting)
  | timer
  /-- A write of user code. -/
  | write (va : Nat) (b : UInt8)
  | trap (cause : UserTrap) (regs : Bytes) (epc : Nat) (k : Setting)
  /-- A process that was woken up in `proc_wait` goes on. -/
  | goOn (k : Setting)

def Cpu.userStep (a : UserAct) (c : Cpu) : Option Cpu :=
  match a with
  | .schedule p k => do
      let c ← c.step (.schedule p)
      -- a new process starts in `fork_return`
      if c.proc = some p ∧ c.resume p = .user then c.userReturn p k none else some c
  | .timer => do
      let (_, s) ← returned (timerUpdate c.proc) c.kernel
      some { c with kernel := s }
  | .write va b => do
      let p ← c.outside
      let a ← userByte c.kernel p va
      some { c with kernel := c.kernel.setMem (splice c.kernel.mem a (fun _ => b) 1) }
  | .trap cause regs epc k => do
      if CallsExec cause regs then none
      else do
        let p ← c.outside
        let (e, s) ← returned (do userVector p regs; trapUserHandler p cause epc k) c.kernel
        { c with kernel := s }.ended p k e
  | .goOn k => do
      let p ← c.proc
      match c.resume p with
      | .wait addr =>
          let (e, s) ← returned (sysWait p addr) c.kernel
          { c with kernel := s }.ended p k e
      | _ => none

end WhuOs.Mem
