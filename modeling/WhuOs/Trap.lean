import WhuOs.Lib.Trace
import WhuOs.Mem.Types

/-! # Traps of one hart (`kernel/trap`, `kernel/lib/spinlock.c`, `kernel/proc/proc.c`)

The control registers that decide where a trap goes (`stvec`, the privilege mode,
`SIE`, `SPIE` and `SPP` of `sstatus`), the interrupt nesting of `push_off` and
`pop_off`, and the place in the code that the hart executes. Work of a system call
between two changes of these registers is not shown: it takes and gives back locks,
sleeps, creates and wakes processes. A trap that goes to `user_vector` reaches
`trap_user_handler`; the registers it saves are not part of the model.
-/

namespace WhuOs.Trap

open Mem (ProcId)

inductive Mode where
  | user | supervisor
deriving DecidableEq

/-- The contents of `stvec`. -/
inductive Vec where
  | unset | kernelVector | userVector
deriving DecidableEq

/-- What `scause` says about a trap from user mode. -/
inductive Cause where
  | ecall | interrupt | exception
deriving DecidableEq

inductive Halt where
  | release | popOffInterruptible | popOff | schedInterrupts | notFromUMode | notFromSMode | unhandledException
deriving DecidableEq

/-- The code that the hart executes. -/
inductive Pc where
  | boot
  /-- Behind `trap_kernel_inithart`. -/
  | booted
  | scheduler
  /-- `fork_return`, or `proc_forkret` of the first process. -/
  | forkReturn (p : ProcId) (first : Bool)
  /-- Kernel code for a process: a system call, or `fs_init`. -/
  | inKernel (p : ProcId)
  /-- Before `trap_user_return`. -/
  | userReturn (p : ProcId)
  | user (p : ProcId)
  | trapUserHandler (p : Option ProcId)
  | trapKernelHandler
  | halted (e : Halt)
deriving DecidableEq

/-- Where a process continues when it is dispatched. -/
inductive Saved where
  | unused
  | fresh (first : Bool)
  | running
  | zombie
  | asleep
  /-- Woken up inside `proc_sched`. -/
  | ready
deriving DecidableEq

structure Hart where
  stvec : Vec
  mode : Mode
  sie : Bool
  spie : Bool
  spp : Mode
  scause : Cause
  /-- Where a trap from supervisor mode returns to. -/
  sepc : Pc
  noff : Nat
  origin : Bool
  pc : Pc
  saved : ProcId → Saved

/-- The hart at the entry of `main`. -/
def Hart.start : Hart where
  stvec := .unset
  mode := .supervisor
  sie := false
  spie := false
  spp := .user
  scause := .ecall
  sepc := .scheduler
  noff := 0
  origin := false
  pc := .boot
  saved := fun _ => .unused

namespace Hart

variable (h : Hart)

def goto (pc : Pc) : Hart := { h with pc }

def save (p : ProcId) (x : Saved) : Hart := { h with saved := Function.update h.saved p x }

def intrOn : Hart := { h with sie := true }

def intrOff : Hart := { h with sie := false }

def pushOff : Hart :=
  { h with sie := false, origin := if h.noff = 0 then h.sie else h.origin, noff := h.noff + 1 }

def popOff : Hart :=
  if h.sie then h.goto (.halted .popOffInterruptible)
  else if h.noff < 1 then h.goto (.halted .popOff)
  else { h with noff := h.noff - 1, sie := decide (h.noff - 1 = 0) && h.origin }

/-- The hardware on a trap. -/
def trap (cause : Cause) (handler : Pc) : Hart :=
  { h with
    spp := h.mode, spie := h.sie, sie := false, mode := .supervisor, scause := cause, sepc := h.pc
    pc := handler }

/-- The instruction `sret`. -/
def sret (pc : Pc) : Hart :=
  { h with mode := h.spp, sie := h.spie, spie := true, spp := .user, pc }

/-- `swtch` back to the scheduler, which releases the lock of the process. -/
def sched (p : ProcId) (x : Saved) : Hart :=
  if h.noff = 0 then h.goto (.halted .schedInterrupts)
  else ((h.save p x).goto .scheduler).popOff

/-- `proc_sleep`: the lock of the process is taken, that of the caller is released. -/
def sleep (p : ProcId) : Hart :=
  if h.noff = 0 then h.goto (.halted .release) else h.pushOff.popOff.sched p .asleep

end Hart

inductive Action where
  | trapKernelInithart
  /-- `proc_make_first`, up to the call of the scheduler. -/
  | procMakeFirst (p : ProcId)
  /-- The head of the scheduler's loop. -/
  | intrOn
  /-- The scheduler passes a process that is not runnable. -/
  | skip
  | dispatch (p : ProcId)
  /-- The first statements of a new process. -/
  | forkReturn
  | acquire
  | release
  | fork (p : ProcId)
  | wakeup (p : ProcId)
  | sleep
  | exit
  | reap (p : ProcId)
  | syscallReturn
  | trapUserReturn
  | userTrap (cause : Cause)
  | trapUserHandler
  /-- An interrupt in supervisor mode. -/
  | interrupt
  /-- Work of `trap_kernel_handler`: it gives back the locks it takes. -/
  | handle
  | kernelReturn
deriving DecidableEq

/-- Code that wakes up processes. -/
def Pc.works : Pc → Bool
  | .inKernel _ => true
  | .trapKernelHandler => true
  | _ => false

/-- The dispatched process continues where it left the hart; the scheduler holds its lock. -/
def Hart.resume (h : Hart) (p : ProcId) : Option Hart :=
  match h.saved p with
  | .fresh first => some (((h.save p .running).goto (.forkReturn p first)).pushOff)
  | .ready => some (((h.save p .running).goto (.inKernel p)).pushOff)
  | _ => none

/-- `trap_user_handler` behind its assertion. -/
def Hart.handleUser (h : Hart) (p : ProcId) : Hart :=
  match h.scause with
  | .ecall => (h.goto (.inKernel p)).intrOn
  | .interrupt => h.goto (.userReturn p)
  | .exception => h.goto (.halted .unhandledException)

/-- The first statements of `fork_return` and `proc_forkret`: the lock is released. -/
def Hart.begin (h : Hart) (p : ProcId) (first : Bool) : Hart :=
  (h.goto (if first then .inKernel p else .userReturn p)).popOff

/-- One step; `none` when the action is not possible in the state. -/
def step (a : Action) (h : Hart) : Option Hart :=
  match a, h.pc with
  | .trapKernelInithart, .boot => some ({ h with stvec := .kernelVector }.goto .booted)
  | .procMakeFirst p, .booted => some ((h.save p (.fresh true)).goto .scheduler)
  | .intrOn, .scheduler => some h.intrOn
  | .skip, .scheduler => some h.pushOff.popOff
  | .dispatch p, .scheduler => h.resume p
  | .forkReturn, .forkReturn p first => some (h.begin p first)
  | .acquire, .inKernel _ => some h.pushOff
  | .release, .inKernel _ => some h.popOff
  | .fork p, .inKernel _ => if h.saved p = .unused then some (h.save p (.fresh false)) else none
  | .wakeup p, pc => if pc.works ∧ h.saved p = .asleep then some (h.save p .ready) else none
  | .sleep, .inKernel p => some (h.sleep p)
  | .exit, .inKernel p => some (h.pushOff.sched p .zombie)
  | .reap p, .inKernel _ => if h.saved p = .zombie then some (h.save p .unused) else none
  | .syscallReturn, .inKernel p => some (h.goto (.userReturn p))
  | .trapUserReturn, .userReturn p =>
      some ({ h.intrOff with stvec := .userVector }.sret (.user p))
  | .userTrap c, .user p => some (h.trap c (.trapUserHandler (some p)))
  | .trapUserHandler, .trapUserHandler p =>
      match h.spp, p with
      | .user, some p => some (h.handleUser p)
      | _, _ => some (h.goto (.halted .notFromUMode))
  | .interrupt, _ =>
      if h.mode = .supervisor ∧ h.sie then
        match h.stvec with
        | .kernelVector => some (h.trap .interrupt .trapKernelHandler)
        | .userVector => some (h.trap .interrupt (.trapUserHandler none))
        | .unset => none
      else none
  | .handle, .trapKernelHandler => some h.pushOff.popOff
  | .kernelReturn, .trapKernelHandler =>
      if h.spp = .supervisor then some (h.sret h.sepc) else some (h.goto (.halted .notFromSMode))
  | _, _ => none

/-! ## What a step does -/

/-- Kernel code that works with locks and processes. -/
def Pc.busy : Pc → Bool
  | .booted => true
  | .scheduler => true
  | .forkReturn _ _ => true
  | .inKernel _ => true
  | _ => false

/-- Where such code goes. -/
def Pc.plain : Pc → Bool
  | .booted => true
  | .scheduler => true
  | .forkReturn _ _ => true
  | .inKernel _ => true
  | .userReturn _ => true
  | .halted e => e ≠ .notFromUMode
  | _ => false

/-- Kernel code that leaves the registers of traps alone. -/
structure Work (h h' : Hart) : Prop where
  target : h'.pc.plain = true
  stvec : h'.stvec = h.stvec
  mode : h'.mode = h.mode
  spp : h'.spp = h.spp
  sepc : h'.sepc = h.sepc

inductive Stepped : Action → Hart → Hart → Prop
  | inithart {h : Hart} (hp : h.pc = .boot) :
      Stepped .trapKernelInithart h ({ h with stvec := .kernelVector }.goto .booted)
  | work {a : Action} {h h' : Hart} (hb : h.pc.busy = true) (hw : Work h h') : Stepped a h h'
  | wakeup {h : Hart} (p : ProcId) (hp : h.pc.works = true) :
      Stepped (.wakeup p) h (h.save p .ready)
  | userReturn {h : Hart} {p : ProcId} (hp : h.pc = .userReturn p) :
      Stepped .trapUserReturn h ({ h.intrOff with stvec := .userVector }.sret (.user p))
  | userTrap {h : Hart} {p : ProcId} (c : Cause) (hp : h.pc = .user p) :
      Stepped (.userTrap c) h (h.trap c (.trapUserHandler (some p)))
  | userHandler {h : Hart} {p : ProcId} (hp : h.pc = .trapUserHandler (some p))
      (hspp : h.spp = .user) :
      Stepped .trapUserHandler h (h.handleUser p)
  | notFromUMode {h : Hart} {p : Option ProcId} (hp : h.pc = .trapUserHandler p)
      (hbad : h.spp = .supervisor ∨ p = none) :
      Stepped .trapUserHandler h (h.goto (.halted .notFromUMode))
  | kernelTrap {h : Hart} (hm : h.mode = .supervisor) (hs : h.sie = true)
      (hv : h.stvec = .kernelVector) :
      Stepped .interrupt h (h.trap .interrupt .trapKernelHandler)
  | strayTrap {h : Hart} (hm : h.mode = .supervisor) (hs : h.sie = true)
      (hv : h.stvec = .userVector) :
      Stepped .interrupt h (h.trap .interrupt (.trapUserHandler none))
  | handle {h : Hart} (hp : h.pc = .trapKernelHandler) : Stepped .handle h h.pushOff.popOff
  | kernelReturn {h : Hart} (hp : h.pc = .trapKernelHandler) (hspp : h.spp = .supervisor) :
      Stepped .kernelReturn h (h.sret h.sepc)
  | notFromSMode {h : Hart} (hp : h.pc = .trapKernelHandler) (hspp : h.spp ≠ .supervisor) :
      Stepped .kernelReturn h (h.goto (.halted .notFromSMode))

theorem Work.goto {pc : Pc} (h : Hart) (ht : pc.plain = true) : Work h (h.goto pc) :=
  ⟨ht, rfl, rfl, rfl, rfl⟩

theorem Work.trans {h h₁ h₂ : Hart} (hw : Work h h₁) (hw' : Work h₁ h₂) : Work h h₂ :=
  ⟨hw'.target, hw'.stvec.trans hw.stvec, hw'.mode.trans hw.mode, hw'.spp.trans hw.spp,
    hw'.sepc.trans hw.sepc⟩

theorem Work.pushOff {h : Hart} (hs : h.pc.plain = true) : Work h h.pushOff :=
  ⟨hs, rfl, rfl, rfl, rfl⟩

theorem Work.popOff {h : Hart} (hs : h.pc.plain = true) : Work h h.popOff := by
  unfold Hart.popOff
  split
  · exact .goto h rfl
  · split
    · exact .goto h rfl
    · exact ⟨hs, rfl, rfl, rfl, rfl⟩

theorem Work.save {h : Hart} (hs : h.pc.plain = true) (p : ProcId) (x : Saved) :
    Work h (h.save p x) :=
  ⟨hs, rfl, rfl, rfl, rfl⟩

theorem Work.pass {h : Hart} (hs : h.pc.plain = true) : Work h h.pushOff.popOff :=
  (Work.pushOff hs).trans (.popOff hs)

theorem Work.sched {h : Hart} (hs : h.pc.plain = true) (p : ProcId) (x : Saved) :
    Work h (h.sched p x) := by
  unfold Hart.sched
  split
  · exact .goto h rfl
  · exact ((Work.save hs p x).trans (.goto _ rfl)).trans (.popOff rfl)

theorem Work.sleep {h : Hart} (hs : h.pc.plain = true) (p : ProcId) : Work h (h.sleep p) := by
  unfold Hart.sleep
  split
  · exact .goto h rfl
  · exact (Work.pass hs).trans (.sched (Work.pass hs).target p .asleep)

theorem Work.resume {h h' : Hart} {p : ProcId} (hs : h.pc.plain = true) (hr : h.resume p = some h') :
    Work h h' := by
  unfold Hart.resume at hr
  split at hr
  · cases hr
    exact ((Work.save hs p _).trans (.goto _ rfl)).trans (.pushOff rfl)
  · cases hr
    exact ((Work.save hs p _).trans (.goto _ rfl)).trans (.pushOff rfl)
  · cases hr

theorem Work.begin (h : Hart) (p : ProcId) (first : Bool) : Work h (h.begin p first) := by
  unfold Hart.begin
  have ht : (if first then Pc.inKernel p else .userReturn p).plain = true := by
    cases first <;> rfl
  exact (Work.goto h ht).trans (.popOff ht)

theorem step_cases {a : Action} {h h' : Hart} (hs : step a h = some h') : Stepped a h h' := by
  unfold step at hs
  split at hs
  case h_1 hp =>
    cases hs
    exact .inithart hp
  case h_2 p hp =>
    cases hs
    exact .work (by rw [hp]; rfl) ((Work.save (by rw [hp]; rfl) p _).trans (.goto _ rfl))
  case h_3 hp =>
    cases hs
    exact .work (by rw [hp]; rfl) ⟨by change h.pc.plain = true; rw [hp]; rfl, rfl, rfl, rfl, rfl⟩
  case h_4 hp =>
    cases hs
    exact .work (by rw [hp]; rfl) (.pass (by rw [hp]; rfl))
  case h_5 p hp => exact .work (by rw [hp]; rfl) (.resume (by rw [hp]; rfl) hs)
  case h_6 p first hp =>
    cases hs
    exact .work (by rw [hp]; rfl) (.begin h p first)
  case h_7 hp =>
    cases hs
    exact .work (by rw [hp]; rfl) (.pushOff (by rw [hp]; rfl))
  case h_8 hp =>
    cases hs
    exact .work (by rw [hp]; rfl) (.popOff (by rw [hp]; rfl))
  case h_9 hp =>
    split at hs <;> cases hs
    exact .work (by rw [hp]; rfl) (.save (by rw [hp]; rfl) _ _)
  case h_10 p =>
    split at hs <;> cases hs
    next hw => exact .wakeup p hw.1
  case h_11 p hp =>
    cases hs
    exact .work (by rw [hp]; rfl) (.sleep (by rw [hp]; rfl) p)
  case h_12 p hp =>
    cases hs
    have hplain : h.pc.plain = true := by rw [hp]; rfl
    exact .work (by rw [hp]; rfl) ((Work.pushOff hplain).trans (.sched (h := h.pushOff) hplain p .zombie))
  case h_13 hp =>
    split at hs <;> cases hs
    exact .work (by rw [hp]; rfl) (.save (by rw [hp]; rfl) _ _)
  case h_14 hp =>
    cases hs
    exact .work (by rw [hp]; rfl) (.goto h rfl)
  case h_15 hp =>
    cases hs
    exact .userReturn hp
  case h_16 c p hp =>
    cases hs
    exact .userTrap c hp
  case h_17 p' hp =>
    split at hs
    · next hspp =>
      cases hs
      exact .userHandler hp hspp
    · next q hno =>
      cases hs
      cases hspp : h.spp with
      | supervisor => exact .notFromUMode hp (.inl hspp)
      | user => exact .notFromUMode hp (.inr (Option.eq_none_iff_forall_not_mem.mpr fun p hq => hno p hspp hq))
  case h_18 =>
    split at hs
    · next hc =>
      split at hs <;> cases hs
      · next hv => exact .kernelTrap hc.1 hc.2 hv
      · next hv => exact .strayTrap hc.1 hc.2 hv
    · cases hs
  case h_19 hp =>
    cases hs
    exact .handle hp
  case h_20 hp =>
    split at hs <;> cases hs
    · next hspp => exact .kernelReturn hp hspp
    · next hspp => exact .notFromSMode hp hspp
  case h_21 => cases hs

/-! ## Where traps go -/

/-- An interrupt that can be taken in supervisor mode goes to `kernel_vector`. -/
def Vectored (h : Hart) : Prop :=
  (h.mode = .supervisor → h.sie = true → h.stvec = .kernelVector) ∧ h.pc ≠ .halted .notFromUMode

/-- `trap_user_handler` takes its system-call branch in no step of the run. -/
def NoSystemCall (l : List Action) : Prop :=
  ∀ l₁ l₂ t, l = l₁ ++ .trapUserHandler :: l₂ →
    Trace.exec step l₁ .start = some t → t.scause ≠ .ecall

/-- The hart before a process was returned to user mode. -/
structure Before (h : Hart) : Prop where
  place : h.stvec = .kernelVector ∧ (h.pc.plain = true ∧ h.spp = .user ∨
    h.pc = .trapKernelHandler ∧ h.sie = false ∧ h.spp = .supervisor) ∨ h.stvec = .unset ∧
      h.pc = .boot ∧ h.sie = false ∧ h.spp = .user
  mode : h.mode = .supervisor
  sepc : h.sepc.plain = true

/-- The hart after that, as long as there was no system call: interrupts are on in user mode
only. -/
structure After (h : Hart) : Prop where
  stvec : h.stvec = .userVector
  place : (∃ p, h.pc = .user p ∧ h.mode = .user) ∨
    (∃ p, h.pc = .trapUserHandler (some p)) ∧ h.mode = .supervisor ∧ h.sie = false ∧ h.spp = .user ∨
    (∃ p, h.pc = .userReturn p) ∧ h.sie = false ∧ h.spp = .user ∨
    (∃ e, h.pc = .halted e ∧ e ≠ .notFromUMode) ∧ h.sie = false

def Calm (h : Hart) : Prop := Before h ∨ After h

theorem Calm.start : Calm Hart.start := .inl ⟨.inr ⟨rfl, rfl, rfl, rfl⟩, rfl, rfl⟩

theorem Calm.vectored {h : Hart} (hc : Calm h) : Vectored h := by
  rcases hc with hb | ha
  · rcases hb.place with ⟨hv, hp⟩ | ⟨-, hp, hs, -⟩
    · refine ⟨fun _ _ => hv, fun hc => ?_⟩
      rw [hc] at hp
      rcases hp with ⟨hp, -⟩ | ⟨hp, -⟩ <;> cases hp
    · refine ⟨fun _ hc => ?_, fun hc => ?_⟩
      · rw [hs] at hc
        cases hc
      · rw [hp] at hc
        cases hc
  · rcases ha.place with ⟨p, hp, hm⟩ | ⟨⟨p, hp⟩, -, hs, -⟩ | ⟨⟨p, hp⟩, hs, -⟩ | ⟨⟨e, hp, he⟩, hs⟩
    · exact ⟨fun hc => absurd (hm.symm.trans hc) (by decide), fun hc =>
        absurd (hp.symm.trans hc) (by simp)⟩
    · exact ⟨fun _ hc => absurd (hs.symm.trans hc) (by decide), fun hc =>
        absurd (hp.symm.trans hc) (by simp)⟩
    · exact ⟨fun _ hc => absurd (hs.symm.trans hc) (by decide), fun hc =>
        absurd (hp.symm.trans hc) (by simp)⟩
    · refine ⟨fun _ hc => absurd (hs.symm.trans hc) (by decide), fun hc => ?_⟩
      exact he (Pc.halted.inj (hp.symm.trans hc))

theorem Before.work {h h' : Hart} (hb : Before h) (hbusy : h.pc.busy = true) (hw : Work h h') :
    Before h' := by
  refine ⟨.inl ?_, hw.mode.trans hb.mode, by rw [hw.sepc]; exact hb.sepc⟩
  rcases hb.place with ⟨hv, ⟨-, hspp⟩ | ⟨hp, -⟩⟩ | ⟨-, hp, -⟩
  · exact ⟨hw.stvec.trans hv, .inl ⟨hw.target, hw.spp.trans hspp⟩⟩
  · rw [hp] at hbusy
    cases hbusy
  · rw [hp] at hbusy
    cases hbusy

/-- The three kinds of places in the kernel. -/
theorem Before.cases {h : Hart} (hb : Before h) :
    h.pc.plain = true ∧ h.spp = .user ∨ h.pc = .trapKernelHandler ∧
    h.sie = false ∧ h.spp = .supervisor ∨
      h.pc = .boot ∧ h.sie = false := by
  rcases hb.place with ⟨-, hp⟩ | ⟨-, hp, hs, -⟩
  · exact hp.imp_right .inl
  · exact .inr (.inr ⟨hp, hs⟩)

/-- Before the first return to user mode no user trap is handled. -/
theorem Before.not_user {h : Hart} (hb : Before h) (hp : h.pc.plain = false)
    (hk : h.pc ≠ .trapKernelHandler)
    (hboot : h.pc ≠ .boot) : False := by
  rcases hb.cases with ⟨h1, -⟩ | ⟨h1, -⟩ | ⟨h1, -⟩
  · rw [hp] at h1
    cases h1
  · exact hk h1
  · exact hboot h1

/-- A lock is taken and given back. -/
theorem pass_eq (h : Hart) : h.pushOff.popOff =
    { h with sie := decide (h.noff = 0) && h.sie, origin := if h.noff = 0 then h.sie else h.origin } := by
  unfold Hart.popOff Hart.pushOff
  by_cases hn : h.noff = 0
  · simp [hn]
  · simp [hn]

theorem Before.step {a : Action} {h h' : Hart} (hb : Before h) (hs : Stepped a h h') : Calm h' := by
  cases hs with
  | inithart hp =>
      refine .inl ⟨.inl ⟨rfl, .inl ⟨rfl, ?_⟩⟩, hb.mode, hb.sepc⟩
      rcases hb.place with ⟨-, ⟨-, hspp⟩ | ⟨hp', -⟩⟩ | ⟨-, -, -, hspp⟩
      · exact hspp
      · rw [hp] at hp'
        cases hp'
      · exact hspp
  | work hbusy hw => exact .inl (hb.work hbusy hw)
  | wakeup p hp => exact .inl ⟨hb.place, hb.mode, hb.sepc⟩
  | userReturn hp =>
      -- `sret` leaves for user mode as `SPP` is clear outside the handler
      refine .inr ⟨rfl, .inl ⟨_, rfl, ?_⟩⟩
      rcases hb.cases with ⟨-, hspp⟩ | ⟨hp', -⟩ | ⟨hp', -⟩
      · exact hspp
      · rw [hp] at hp'
        cases hp'
      · rw [hp] at hp'
        cases hp'
  | userTrap c hp => exact (hb.not_user (by rw [hp]; rfl) (by simp [hp]) (by simp [hp])).elim
  | userHandler hp hspp => exact (hb.not_user (by rw [hp]; rfl) (by simp [hp]) (by simp [hp])).elim
  | notFromUMode hp hbad => exact (hb.not_user (by rw [hp]; rfl) (by simp [hp]) (by simp [hp])).elim
  | kernelTrap hm hsie hv =>
      refine .inl ⟨.inl ⟨hv, .inr ⟨rfl, rfl, hm⟩⟩, rfl, ?_⟩
      rcases hb.cases with ⟨hp, -⟩ | ⟨-, hs, -⟩ | ⟨-, hs⟩
      · exact hp
      · rw [hs] at hsie
        cases hsie
      · rw [hs] at hsie
        cases hsie
  | strayTrap hm hsie hv =>
      rcases hb.place with ⟨hk, -⟩ | ⟨hk, -⟩
      · rw [hv] at hk
        cases hk
      · rw [hv] at hk
        cases hk
  | handle hp =>
      rw [pass_eq]
      refine .inl ⟨?_, hb.mode, hb.sepc⟩
      rcases hb.place with ⟨hv, ⟨hp', -⟩ | ⟨-, hs, hspp⟩⟩ | ⟨-, hp', -⟩
      · rw [hp] at hp'
        cases hp'
      · exact .inl ⟨hv, .inr ⟨hp, by simp [hs], hspp⟩⟩
      · rw [hp] at hp'
        cases hp'
  | kernelReturn hp hspp =>
      refine .inl ⟨.inl ⟨?_, .inl ⟨hb.sepc, rfl⟩⟩, hspp, hb.sepc⟩
      rcases hb.place with ⟨hv, -⟩ | ⟨-, hp', -⟩
      · exact hv
      · rw [hp] at hp'
        cases hp'
  | notFromSMode hp hspp =>
      rcases hb.cases with ⟨hp', -⟩ | ⟨-, -, hspp'⟩ | ⟨hp', -⟩
      · rw [hp] at hp'
        cases hp'
      · exact absurd hspp' hspp
      · rw [hp] at hp'
        cases hp'

/-- After a return to user mode the code is in one of four places. -/
theorem After.pc_mem {h : Hart} (ha : After h) :
    h.pc.busy = false ∧ h.pc.works = false ∧ h.pc ≠ .boot ∧
    h.pc ≠ .trapKernelHandler := by
  rcases ha.place with ⟨p, hp, -⟩ | ⟨⟨p, hp⟩, -⟩ | ⟨⟨p, hp⟩, -⟩ | ⟨⟨e, hp, -⟩, -⟩ <;>
    simp [hp, Pc.busy, Pc.works]

theorem After.quiet {h : Hart} (ha : After h) (hm : h.mode = .supervisor) : h.sie = false := by
  rcases ha.place with ⟨p, -, hm'⟩ | ⟨-, -, hs, -⟩ | ⟨-, hs, -⟩ | ⟨-, hs⟩
  · rw [hm] at hm'
    cases hm'
  · exact hs
  · exact hs
  · exact hs

theorem After.user {h : Hart} {p : ProcId} (ha : After h) (hp : h.pc = .user p) :
    h.mode = .user := by
  rcases ha.place with ⟨q, -, hm⟩ | ⟨⟨q, hq⟩, -⟩ | ⟨⟨q, hq⟩, -⟩ | ⟨⟨e, hq, -⟩, -⟩
  · exact hm
  all_goals
    rw [hp] at hq
    cases hq

theorem After.handler {h : Hart} {p : Option ProcId} (ha : After h)
    (hp : h.pc = .trapUserHandler p) :
    p ≠ none ∧ h.mode = .supervisor ∧ h.sie = false ∧ h.spp = .user := by
  rcases ha.place with ⟨q, hq, -⟩ | ⟨⟨q, hq⟩, hregs⟩ | ⟨⟨q, hq⟩, -⟩ | ⟨⟨e, hq, -⟩, -⟩
  all_goals rw [hp] at hq
  · cases hq
  · obtain rfl := Pc.trapUserHandler.inj hq
    exact ⟨Option.some_ne_none q, hregs⟩
  · cases hq
  · cases hq

theorem After.returning {h : Hart} {p : ProcId} (ha : After h) (hp : h.pc = .userReturn p) :
    h.spp = .user := by
  rcases ha.place with ⟨q, hq, -⟩ | ⟨⟨q, hq⟩, -⟩ | ⟨-, -, hspp⟩ | ⟨⟨e, hq, -⟩, -⟩
  · rw [hp] at hq
    cases hq
  · rw [hp] at hq
    cases hq
  · exact hspp
  · rw [hp] at hq
    cases hq

theorem After.step {a : Action} {h h' : Hart} (ha : After h) (hs : Stepped a h h')
    (hno : a = .trapUserHandler → h.scause ≠ .ecall) : After h' := by
  obtain ⟨hbusy, hworks, hboot, hkernel⟩ := ha.pc_mem
  cases hs with
  | inithart hp => exact absurd hp hboot
  | work hb hw =>
      rw [hb] at hbusy
      cases hbusy
  | wakeup p hp =>
      rw [hp] at hworks
      cases hworks
  | userReturn hp => exact ⟨rfl, .inl ⟨_, rfl, ha.returning hp⟩⟩
  | userTrap c hp => exact ⟨ha.stvec, .inr (.inl ⟨⟨_, rfl⟩, rfl, rfl, ha.user hp⟩)⟩
  | userHandler hp hspp =>
      obtain ⟨-, -, hsie, -⟩ := ha.handler hp
      unfold Hart.handleUser
      cases hc : h.scause with
      | ecall => exact absurd hc (hno rfl)
      | interrupt => exact ⟨ha.stvec, .inr (.inr (.inl ⟨⟨_, rfl⟩, hsie, hspp⟩))⟩
      | exception => exact ⟨ha.stvec, .inr (.inr (.inr ⟨⟨_, rfl, by decide⟩, hsie⟩))⟩
  | notFromUMode hp hbad =>
      obtain ⟨hsome, -, -, hspp⟩ := ha.handler hp
      rcases hbad with hbad | hbad
      · rw [hspp] at hbad
        cases hbad
      · exact absurd hbad hsome
  | kernelTrap hm hsie hv =>
      rw [ha.quiet hm] at hsie
      cases hsie
  | strayTrap hm hsie hv =>
      rw [ha.quiet hm] at hsie
      cases hsie
  | handle hp => exact absurd hp hkernel
  | kernelReturn hp hspp => exact absurd hp hkernel
  | notFromSMode hp hspp => exact absurd hp hkernel

/-- Without a system call the hart stays calm. -/
theorem exec_calm {l : List Action} {h : Hart} (hl : Trace.exec step l .start = some h)
    (hno : NoSystemCall l) : Calm h := by
  revert hno
  refine Trace.exec_induction (I := fun l h => NoSystemCall l → Calm h) hl (fun _ => Calm.start) ?_
  intro l a t t' ht ih hs hno
  have hno' : NoSystemCall l := by
    intro l₁ l₂ u hu
    refine hno l₁ (l₂ ++ [a]) u ?_
    rw [hu, List.append_assoc, List.cons_append]
  rcases ih hno' with hb | ha
  · exact hb.step (step_cases hs)
  · refine .inr (ha.step (step_cases hs) fun hc => ?_)
    exact hno l [] t (by rw [hc]) ht

/-- The handler of a system call turns interrupts on with `user_vector` in `stvec`. -/
theorem Calm.system_call {h h' : Hart} (hc : Calm h) (hs : step .trapUserHandler h = some h')
    (he : h.scause = .ecall) : ¬ Vectored h' := by
  cases step_cases hs with
  | work hbusy hw =>
      -- the action is possible in the handler only
      unfold step at hs
      split at hs <;> simp_all [Pc.busy]
  | userHandler hp hspp =>
      rcases hc with hb | ha
      · exact (hb.not_user (by rw [hp]; rfl) (by simp [hp]) (by simp [hp])).elim
      · obtain ⟨-, hm, -, -⟩ := ha.handler hp
        unfold Hart.handleUser
        rw [he]
        intro hv
        have hk : h.stvec = .kernelVector := hv.1 hm rfl
        rw [ha.stvec] at hk
        cases hk
  | notFromUMode hp hbad => exact fun hv => hv.2 rfl

/-- An interrupt that can be taken in supervisor mode goes to `kernel_vector` in all states of a
run, and the assertion of `trap_user_handler` holds, exactly when the run has no system call. -/
theorem kernel_traps_vectored_iff {l : List Action} {h : Hart}
    (hl : Trace.exec step l .start = some h) :
    (∀ l' h', l' <+: l → Trace.exec step l' .start = some h' → Vectored h') ↔ NoSystemCall l := by
  constructor
  · intro hall l₁
    -- the first system call of the run is the one that goes wrong
    induction hn : l₁.length using Nat.strong_induction_on generalizing l₁ with
    | _ n ih =>
        intro l₂ t hsplit ht he
        have hcalm : Calm t := by
          refine exec_calm ht fun k₁ k₂ u hk hu => ?_
          refine ih k₁.length ?_ k₁ rfl (k₂ ++ .trapUserHandler :: l₂) u ?_ hu
          · rw [← hn, hk, List.length_append, List.length_cons]
            omega
          · rw [hsplit, hk, List.append_assoc, List.cons_append]
        rw [hsplit, Trace.exec_append, ht, Option.bind_some] at hl
        cases hs : step .trapUserHandler t with
        | none =>
            rw [Trace.exec, hs] at hl
            cases hl
        | some t' =>
            refine hcalm.system_call hs he (hall (l₁ ++ [.trapUserHandler]) t' ?_ ?_)
            · exact ⟨l₂, by rw [hsplit, List.append_assoc]; rfl⟩
            · rw [Trace.exec_snoc ht, hs]
  · intro hno l' h' hpre hl'
    refine (exec_calm hl' ?_).vectored
    obtain ⟨l₂, rfl⟩ := hpre
    intro k₁ k₂ t hk ht
    refine hno k₁ (k₂ ++ l₂) t ?_ ht
    rw [hk, List.append_assoc, List.cons_append]

/-- The first process runs, and an interrupt is pending in user mode. -/
def timerRun : List Action :=
  [.trapKernelInithart, .procMakeFirst 0, .intrOn, .dispatch 0, .forkReturn, .interrupt,
    .handle, .kernelReturn,
    .syscallReturn, .trapUserReturn, .userTrap .interrupt, .trapUserHandler]

theorem kernel_traps_vectored_timer :
    (∀ l' h', l' <+: timerRun → Trace.exec step l' .start = some h' → Vectored h') ↔
    NoSystemCall timerRun :=
  kernel_traps_vectored_iff (h := (Trace.exec step timerRun .start).get (by decide))
    (Option.some_get _).symm

/-- The first process makes a system call, and the timer interrupts it. -/
theorem system_call_interrupted :
    ∃ h h', Trace.exec step
      [.trapKernelInithart, .procMakeFirst 0, .intrOn, .dispatch 0, .forkReturn,
        .syscallReturn, .trapUserReturn, .userTrap .ecall, .trapUserHandler] .start = some h ∧
      ¬ Vectored h ∧ h.pc = .inKernel 0 ∧ h.mode = .supervisor ∧ h.sie = true ∧
      h.stvec = .userVector ∧
      Trace.exec step [.interrupt, .trapUserHandler] h = some h' ∧
      h'.pc = .halted .notFromUMode := by
  refine ⟨_, _, rfl, fun hv => ?_, rfl, rfl, rfl, rfl, rfl, rfl⟩
  exact absurd (hv.1 rfl rfl) (by decide)

end WhuOs.Trap
