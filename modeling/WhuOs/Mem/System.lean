import WhuOs.Mem.FamilyRuns
import WhuOs.Mem.UserSteps

/-! # Memory of processes over whole runs

The kernel starts, makes its first process, and runs user programs of any kind. In every
state that is reached each page has one owner, and what a process owns stays as it is
while others have the hart. A run ends at a call of `sys_exec`, and where a process would
return to user mode that has unmapped or replaced its own trap frame or trampoline page.
-/

namespace WhuOs.Mem

open Prog Bytes Trace

/-- The kernel at the end of `main`: there is room for the first process. -/
def Kernel.Booted (s : Kernel) : Prop :=
  ∃ (a t e : Nat) (m : Bytes) (u : Unit), Linked (Kernel.start a t e m) ∧ 3 ≤ userPages a ∧
    ((bootKernel >>= fun _ => procMakeFirst) (Kernel.start a t e m)).1 = .ok (u, s)

/-- What a page of memory is for. -/
inductive Part where
  | free
  | kernelTable
  | table (p : ProcId)
  | user (p : ProcId) (v : Nat)
  | trapframe (p : ProcId)
  | kstack (p : ProcId)

/-- Page `a` is on a free list, belongs to a page table, is mapped for the user, or is a trap frame
or a kernel stack. -/
def Kernel.Holds (s : Kernel) (a : Nat) : Part → Prop
  | .free => IsFree s a
  | .kernelTable => IsTable s.mem s.kernelPgtbl a
  | .table p => s.InUse p ∧ IsTable s.mem (s.procs p).pgtbl a
  | .user p v => s.InUse p ∧ v < vaPages ∧ hasFlag (leaf s.mem (s.procs p).pgtbl v) pteV = true ∧
      hasFlag (leaf s.mem (s.procs p).pgtbl v) pteU = true ∧
      a = pteToPa (leaf s.mem (s.procs p).pgtbl v)
  | .trapframe p => s.InUse p ∧ a = (s.procs p).tf
  | .kstack p => hasFlag (leaf s.mem s.kernelPgtbl (kstackVpn p)) pteV = true ∧
      a = pteToPa (leaf s.mem s.kernelPgtbl (kstackVpn p))

/-- No page has two uses, and none is used by two processes. -/
def Kernel.Separate (s : Kernel) : Prop := ∀ a x y, s.Holds a x → s.Holds a y → x = y

/-- A process keeps its record, its address space and the bytes of its pages. -/
structure Kernel.Undisturbed (s : Kernel) (p : ProcId) (s' : Kernel) : Prop where
  alive : (s'.procs p).entry.Alive
  record : (s'.procs p).kept = (s.procs p).kept
  leaf : ∀ v, leaf s'.mem (s.procs p).pgtbl v = leaf s.mem (s.procs p).pgtbl v
  pages : ∀ a v, s.Holds a (.user p v) → ∀ i < pgSize, s'.mem (a + i) = s.mem (a + i)
  trapframe : ∀ i < pgSize, s'.mem ((s.procs p).tf + i) = s.mem ((s.procs p).tf + i)

section

variable {g g' : Ledger} {s s' : Kernel} {p q : ProcId} {c c' : Cpu} {l l' : List UserAct}
  {k : Setting} {regs : Bytes}

/-! ## The start -/

theorem Kernel.Booted.settled (h : s.Booted) : ∃ g, Settled g s := by
  obtain ⟨a, t, e, m, u, hlinked, hroom, hret⟩ := h
  have hboot : Sat (bootKernel >>= fun _ => procMakeFirst) (Kernel.start a t e m) (fun _ => True)
      (fun _ s => ∃ g, Settled g s) fun _ => True := by
    rw [sat_bind]
    exact bootKernel_sat hlinked fun g s hready =>
      procMakeFirst_sat hready hroom fun g' s' hmade => ⟨g', hmade.settled⟩
  exact hboot.of_ok hret

/-! ## Runs -/

theorem Cpu.Sound.run (h : c.Sound g) (hrun : exec Cpu.userStep l c = some c') :
    ∃ g', c'.Sound g' := by
  refine exec_induction (I := fun _ c => ∃ g, c.Sound g) hrun ⟨g, h⟩ fun l₁ a d d' _ hd hstep => ?_
  obtain ⟨g₁, hd⟩ := hd
  obtain ⟨g', hd', -⟩ := hd.step hstep
  exact ⟨g', hd'⟩

theorem Kernel.Booted.run (h : s.Booted) (hrun : exec Cpu.userStep l (Cpu.start s) = some c) :
    ∃ g, c.Sound g := by
  obtain ⟨g, hg⟩ := h.settled
  have hstart : (Cpu.start s).Sound g := ⟨hg, fun _ hc => by cases hc⟩
  exact hstart.run hrun

/-- While `q` does not have the hart, nobody touches what it owns. -/
theorem Cpu.Sound.run_untouched (h : c.Sound g) (hq : (c.kernel.procs q).entry.Alive)
    (hrun : exec Cpu.userStep l c = some c')
    (haway : ∀ l₁ d, l₁ <+: l → exec Cpu.userStep l₁ c = some d → d.proc ≠ some q) :
    (c'.kernel.procs q).entry.Alive ∧ ∃ g', c'.Sound g' ∧ Untouched q g c.kernel g' c'.kernel := by
  induction l using List.reverseRecOn generalizing c' with
  | nil =>
      obtain rfl := Option.some.inj hrun
      exact ⟨hq, g, h, .refl _ _ _⟩
  | append_singleton l a ih =>
      obtain ⟨d, hd, hstep⟩ := exec_snoc_some hrun
      obtain ⟨hdq, g₁, hsound, h₁⟩ :=
        ih hd fun l₁ d' hl => haway l₁ d' (hl.trans (List.prefix_append l [a]))
      obtain ⟨g', hsound', hspares⟩ := hsound.step hstep
      obtain ⟨hq', h₂⟩ :=
        hspares q (haway l d (List.prefix_append l [a]) hd)
          (haway _ _ (List.prefix_refl _) hrun) hdq
      exact ⟨hq', g', hsound', h₁.trans h₂⟩

/-! ## The owner of a page -/

def Kernel.PartOf (s : Kernel) : Use → Part → Prop
  | .free _, x => x = .free
  | .table r _, x =>
      r = s.kernelPgtbl ∧ x = .kernelTable ∨ ∃ p, s.InUse p ∧ r = (s.procs p).pgtbl ∧ x = .table p
  | .frame r v, x => ∃ p, s.InUse p ∧ r = (s.procs p).pgtbl ∧ x = .user p v
  | .trapframe p, x => x = .trapframe p
  | .kstack p, x => x = .kstack p
  | _, _ => False

theorem Settled.partOf {a : Nat} {x : Part} (h : Settled g s) (hx : s.Holds a x) :
    s.PartOf (g.own a) x := by
  have hw := h.tenancy.world
  cases x with
  | free =>
      obtain ⟨k, hk⟩ := (isFree_iff hw.heap.pools).mp hx
      rw [(hw.heap.free_iff a k).mp hk]
      rfl
  | kernelTable =>
      obtain ⟨x, hpos, hx⟩ := hx
      rw [hw.heap.tableAt_own hw.kernel hpos.2 hpos.1 hx]
      exact .inl ⟨rfl, rfl⟩
  | table p =>
      obtain ⟨hp, x, hpos, hx⟩ := hx
      rw [hw.heap.tableAt_own (hw.proc p hp).space.live hpos.2 hpos.1 hx]
      exact .inr ⟨p, hp, rfl, rfl⟩
  | user p v =>
      obtain ⟨hp, hv, hvalid, huser, rfl⟩ := hx
      rw [hw.user_frame hp hv hvalid huser]
      exact ⟨p, hp, rfl, rfl⟩
  | trapframe p =>
      obtain ⟨hp, rfl⟩ := hx
      rw [h.frames p hp]
      rfl
  | kstack p =>
      obtain ⟨hvalid, rfl⟩ := hx
      rw [hw.kstack p hvalid]
      rfl

theorem Settled.separate (h : Settled g s) : s.Separate := by
  intro a x y hx hy
  replace hx := h.partOf hx
  replace hy := h.partOf hy
  have hw := h.tenancy.world
  generalize g.own a = u at hx hy
  cases u with
  | free k => exact hx.trans hy.symm
  | table r z =>
      rcases hx with ⟨rfl, rfl⟩ | ⟨p, hp, rfl, rfl⟩
      · rcases hy with ⟨-, rfl⟩ | ⟨q, hq, hr, -⟩
        · rfl
        · exact absurd hr.symm (hw.proc q hq).user
      · rcases hy with ⟨hr, -⟩ | ⟨q, hq, hr, rfl⟩
        · exact absurd hr (hw.proc p hp).user
        · rw [hw.distinct p q hp hq hr]
  | frame r v =>
      obtain ⟨p, hp, rfl, rfl⟩ := hx
      obtain ⟨q, hq, hr, rfl⟩ := hy
      rw [hw.distinct p q hp hq hr]
  | trapframe p => exact hx.trans hy.symm
  | kstack p => exact hx.trans hy.symm
  | other => exact hx.elim
  | held => exact hx.elim
  | scratch => exact hx.elim
  | retired r => exact hx.elim

theorem Untouched.undisturbed (hu : Untouched q g s g' s') (h : Settled g s)
    (hq : (s.procs q).entry.Alive)
    (hq' : (s'.procs q).entry.Alive) : s.Undisturbed q s' := by
  have hw := h.tenancy.world
  refine ⟨hq', hu.record, fun v => ?_, fun a v ha i hi => ?_, fun i hi => ?_⟩
  · exact hw.heap.leaf_frame (hw.proc q hq.1).space.live fun a x ha => hu.page a (ha ▸ .table x)
  · obtain ⟨-, hv, hvalid, huser, rfl⟩ := ha
    have hown := hw.user_frame hq.1 hv hvalid huser
    exact hu.page _ (hown ▸ .frame v) i hi
  · exact hu.page _ (h.frames q hq.1 ▸ .trapframe) i hi

/-! ## A start -/

/-- The kernel can be started. -/
theorem exists_start :
    ∃ s g, s.Booted ∧ FirstMade (Kernel.start 0x80030000 0x80000000 0x80001000 fun _ => 0) g s := by
  have hlinked : Linked (Kernel.start 0x80030000 0x80000000 0x80001000 fun _ => 0) :=
    ⟨⟨by decide, by decide, by decide, by decide⟩, by decide, by decide, by decide⟩
  have hboot :
      Sat (bootKernel >>= fun _ => procMakeFirst)
        (Kernel.start 0x80030000 0x80000000 0x80001000 fun _ => 0)
        (fun _ => True)
        (fun _ s => ∃ g, FirstMade (Kernel.start 0x80030000 0x80000000 0x80001000 fun _ => 0) g s)
        fun _ => False := by
    rw [sat_bind]
    exact bootKernel_sat hlinked fun g s hready =>
      procMakeFirst_sat hready (by decide) fun g' s' h => ⟨g', h⟩
  obtain ⟨u, s, hr, g, hmade⟩ := hboot.returns
  exact ⟨s, g, ⟨_, _, _, _, u, hlinked, by decide, hr⟩, hmade⟩

theorem FirstMade.free {a t e : Nat} {m : Bytes} (h : FirstMade (Kernel.start a t e m) g s)
    (lk : Lock) : s.locks lk = false := by
  obtain ⟨r, tf, pgtbl, hrest⟩ := h.rest
  exact (congrFun (congrArg Kernel.locks hrest) lk :)

/-! ## Steps that are possible -/

theorem Kernel.KeepsSpace.returns (h : s.KeepsSpace p s') (hr : s.Returns p) : s'.Returns p := by
  unfold Kernel.Returns trampolinePte
  rw [kept_pgtbl h.record, kept_tf h.record, h.leaf, h.leaf, h.trampoline]
  exact hr

theorem Cpu.userReturn_some (a0 : Option Nat) (hr : c.kernel.Returns p) :
    ∃ m, c.userReturn p k a0 =
      some { c with kernel := c.kernel.setMem m, resume := Function.update c.resume p .user } ∧
      Inside (c.kernel.procs p).tf c.kernel.mem m := by
  obtain ⟨u, s', hret, m, hin, rfl⟩ :=
    returned_of_returns (userReturn_stores (p := p) (k := k) a0 c.kernel)
  refine ⟨m, ?_, hin⟩
  unfold Cpu.userReturn
  rw [if_pos hr, hret]
  rfl

/-- The scheduler gives the hart to a process that goes on in user mode. -/
theorem Cpu.userStep_schedule (hidle : c.proc = none) (hres : c.resume p = .user)
    (h : Settled g c.kernel)
    (hst : (c.kernel.procs p).state = .runnable) (hr : c.kernel.Returns p) :
    ∃ s', c.userStep (.schedule p k) =
      some ⟨s', some p, Function.update c.resume p .user, c.history⟩ ∧ Settled g s' ∧
      c.kernel.KeepsSpace p s' ∧
      s'.table = c.kernel.table.set p { c.kernel.table.entry p with state := .running } := by
  obtain ⟨s₁, hstep, hs₁, hu₁, ht₁⟩ := Cpu.step_schedule hidle h hst
  have hk₁ : c.kernel.KeepsSpace p s₁ := keepsSpace_tabled hu₁
  have hused : s₁.InUse p := by
    intro hc
    cases (congrArg Entry.state ((entry_of_table ht₁ p).trans set_entry_self)).symm.trans hc
  obtain ⟨m, hret, hin⟩ :=
    Cpu.userReturn_some (c := { c with kernel := s₁, proc := some p })
      (k := k) none (hk₁.returns hr)
  refine ⟨s₁.setMem m, ?_, (hs₁.writeFrame hused hin).1, hk₁.trans (hs₁.frame_keeps hused hin), ht₁⟩
  unfold Cpu.userStep
  dsimp only
  rw [hstep, Option.bind_eq_bind, Option.bind_some, if_pos ⟨rfl, hres⟩, hret]

theorem syscall_fork (h : Settled g s) (hp : (s.procs p).entry.Alive) (hf : Forkable g s p)
    (hnum : getLE s.mem ((s.procs p).tf + tfA7) 8 = 4) :
    Sat (syscall p k) s (fun _ => True)
      (fun e s' => ∃ np g' pid, e = .back (some pid) ∧ (s.procs np).state = .unused ∧
      (∀ q, q < np → (s.procs q).state ≠ .unused) ∧ s'.table = s.table.forked p np ∧
      Settled g' s' ∧ s.KeepsSpace p s')
      fun _ => False := by
  unfold syscall
  rw [sat_bind, sat_procOf, sat_bind, sat_load, hnum]
  change Sat (do return Ended.back (some (← sysFork p)) : MemM Ended) s _ _ _
  unfold sysFork
  rw [sat_bind, sat_bind]
  refine (procFork_returns h hp hf).imp fun r s' hr => ?_
  obtain ⟨np, g', -, hpost⟩ := hr
  rw [sat_pure, sat_pure]
  exact ⟨np, g', _, rfl, hpost⟩

/-- The process that runs calls `sys_fork`. -/
theorem Cpu.userStep_fork (regs : Bytes) (epc : Nat) (k : Setting) (hproc : c.proc = some p)
    (hres : c.resume p = .user) (h : Settled g c.kernel)
    (hp : (c.kernel.procs p).entry.Alive) (hf : Forkable g c.kernel p) (hr : c.kernel.Returns p)
    (hnum : getLE regs (tfA7 - tfRegs) 8 = 4) :
    ∃ np g' s', c.userStep (.trap .ecall regs epc k) =
      some ⟨s', some p, Function.update c.resume p .user, c.history⟩ ∧
      (c.kernel.procs np).state = .unused ∧ (∀ q, q < np → (c.kernel.procs q).state ≠ .unused) ∧
      Settled g' s' ∧
      c.kernel.KeepsSpace p s' ∧ s'.table = c.kernel.table.forked p np := by
  have hs₁ := (h.writeFrame hp.1 (ecallMem_inside regs epc)).1
  have hk₁ := h.frame_keeps hp.1 (ecallMem_inside regs epc)
  have hsat := sat_ecall.mpr (syscall_fork (k := k) hs₁ hp (hf.keeps hk₁ rfl hf.slot)
    (by rw [setMem_procs, setMem_mem, getLE_trapMem (by decide) (by decide), hnum]))
  obtain ⟨e, s₂, hret, np, g', pid, rfl, hnp, hfirst, ht, hs₂, hk₂⟩ := returned_of_returns hsat
  have hk := hk₁.trans hk₂
  have hused : s₂.InUse p := by
    have hne : p ≠ np := by
      rintro rfl
      exact hp.1 hnp
    unfold Kernel.InUse
    rw [show (s₂.procs p).state = (c.kernel.procs p).state from
      congrArg Entry.state
        ((entry_of_table ht p).trans ((forked_entry _ p np p).trans (if_neg hne)))]
    exact hp.1
  obtain ⟨m, hback, hin₂⟩ :=
    Cpu.userReturn_some (c := { c with kernel := s₂ }) (k := k) (some pid) (hk.returns hr)
  refine ⟨np, g', s₂.setMem m, ?_, hnp, hfirst, (hs₂.writeFrame hused hin₂).1,
    hk.trans (hs₂.frame_keeps hused hin₂), ht⟩
  unfold Cpu.userStep
  dsimp only
  rw [if_neg (by rintro ⟨-, hc⟩; rw [hnum] at hc; cases hc), Cpu.outside_eq hproc hres,
    Option.bind_eq_bind, Option.bind_some, hret]
  exact hback.trans (by rw [hproc])

theorem syscall_wait (h : Settled g s) (hp : (s.procs p).entry.Alive)
    (hnum : getLE s.mem ((s.procs p).tf + tfA7) 8 = 5)
    (harg : getLE s.mem ((s.procs p).tf + tfA0) 8 = 0) :
    Sat (syscall p k) s (fun _ => True)
      (fun e s' => ∃ r, e = waitEnded 0 r ∧ Waited s.table p r s'.table) fun _ => False := by
  unfold syscall
  rw [sat_bind, sat_procOf, sat_bind, sat_load, hnum]
  change Sat (do sysWait p (← argUint64 p 0) : MemM Ended) s _ _ _
  unfold argUint64 argRaw sysWait
  rw [sat_bind, sat_bind, sat_procOf, sat_load, Nat.mul_zero, Nat.add_zero, harg, sat_bind]
  exact (procWait_returns h hp).run.imp fun r s' hr =>
    (sat_pure _).mpr ⟨r, rfl, (procWait_table p 0 s).of_ok hr.2⟩

/-- The process that runs calls `sys_wait(0)`, and none of its children has exited. -/
theorem Cpu.userStep_wait (regs : Bytes) (epc : Nat) (k : Setting) (hproc : c.proc = some p)
    (hres : c.resume p = .user) (h : Settled g c.kernel)
    (hp : (c.kernel.procs p).entry.Alive) (hnum : getLE regs (tfA7 - tfRegs) 8 = 5)
    (harg : getLE regs (tfA0 - tfRegs) 8 = 0)
    (halive : ∀ q, (c.kernel.procs q).state ≠ .zombie)
    (hkids : ∃ q, (c.kernel.procs q).parent = some p) :
    ∃ s', c.userStep (.trap .ecall regs epc k) =
      some ⟨s', none, Function.update c.resume p (.wait 0), c.history⟩ := by
  have hsat :=
    sat_ecall.mpr (syscall_wait (k := k) (h.writeFrame hp.1 (ecallMem_inside regs epc)).1 hp
    (by rw [setMem_procs, setMem_mem, getLE_trapMem (by decide) (by decide), hnum])
    (by rw [setMem_procs, setMem_mem, getLE_trapMem (by decide) (by decide), harg]))
  obtain ⟨e, s', hret, r, rfl, hw⟩ := returned_of_returns hsat
  have hr : r = .asleep := by
    generalize s'.table = t' at hw
    cases hw with
    | reaped child zombie => exact absurd zombie (halive _)
    | noChild none =>
        obtain ⟨q, hq⟩ := hkids
        exact absurd hq (none q)
    | asleep alive kids => rfl
  subst hr
  refine ⟨s', ?_⟩
  unfold Cpu.userStep
  dsimp only
  rw [if_neg (by rintro ⟨-, hc⟩; rw [hnum] at hc; cases hc), Cpu.outside_eq hproc hres,
    Option.bind_eq_bind, Option.bind_some, hret]
  rfl

theorem Cpu.userStep_write {va a : Nat} (b : UInt8) (hproc : c.proc = some p)
    (hres : c.resume p = .user)
    (ha : userByte c.kernel p va = some a) :
    c.userStep (.write va b) =
      some { c with kernel := c.kernel.setMem (splice c.kernel.mem a (fun _ => b) 1) } := by
  unfold Cpu.userStep
  dsimp only
  rw [Cpu.outside_eq hproc hres, Option.bind_eq_bind, Option.bind_some, ha]
  rfl

def callRegs (num : Nat) : Bytes := putLE (fun _ => 0) (tfA7 - tfRegs) 8 num

theorem FirstMade.returns {a t e : Nat} {m : Bytes} (h : FirstMade (Kernel.start a t e m) g s) :
    s.Returns 0 := by
  obtain ⟨q, q', -, -, hleaf⟩ := h.leaf
  unfold Kernel.Returns
  rw [hleaf trapframeVpn (by decide), hleaf trampolineVpn (by decide), if_neg (by decide),
    if_neg (by decide), if_pos rfl,
    if_neg (by decide), if_neg (by decide), if_neg (by decide), if_pos rfl]
  exact ⟨rfl, rfl⟩

/-- The first process has called `sys_fork`. -/
theorem exists_child (k : Setting) : ∃ s g c a, s.Booted ∧
    exec Cpu.userStep [.schedule 0 k, .trap .ecall (callRegs 4) 0 k] (Cpu.start s) =
      some c ∧ Settled g c.kernel ∧
    c.proc = some 0 ∧ c.resume 0 = .user ∧ c.kernel.table = forkedTable ∧
    userByte c.kernel 0 0 = some a := by
  obtain ⟨s, g, hbooted, hmade⟩ := exists_start
  have hrunnable : (s.procs 0).state = .runnable :=
    (congrArg Entry.state (entry_of_table hmade.table 0) :)
  obtain ⟨s₁, hstep₁, hs₁, hk₁, ht₁⟩ :=
    Cpu.userStep_schedule (c := Cpu.start s) (k := k) rfl rfl hmade.settled hrunnable hmade.returns
  rw [show (Cpu.start s).kernel.table = firstTable from hmade.table] at ht₁
  have hst₁ := running_states ht₁
  have hpid : s₁.globalPid = s.globalPid :=
    (congrArg Table.globalPid ht₁ :).trans (congrArg Table.globalPid hmade.table :).symm
  obtain ⟨np, g', s₂, hstep₂, hnp, hfirst, hs₂, hk₂, ht₂⟩ := Cpu.userStep_fork (callRegs 4) 0 k
    (c := ⟨s₁, some 0, Function.update (fun _ => .user) 0 .user, []⟩) rfl rfl hs₁
    (alive_of_running (hst₁ 0)) ((hmade.forkable (by decide)).keeps hk₁ hpid ⟨1, hst₁ 1⟩)
      (hk₁.returns hmade.returns)
    (by decide)
  obtain rfl : np = 1 := first_free hst₁ hnp hfirst
  rw [show (Cpu.kernel ⟨s₁, some 0, Function.update (fun _ => .user) 0 .user, []⟩).table =
    _ from ht₁] at ht₂
  -- the code page is writable
  have hk := hk₁.trans hk₂
  obtain ⟨q, q', -, -, hleaf⟩ := hmade.leaf
  have hpage :
    leaf s₂.mem (s₂.procs 0).pgtbl (0 / pgSize) = mapPte q (pteR ||| pteW ||| pteX ||| pteU) 0 := by
    rw [Nat.zero_div, kept_pgtbl hk.record]
    exact (hk.leaf 0).trans ((hleaf 0 (by decide)).trans (if_pos rfl))
  have hflag : ∀ f, f < 2 ^ 10 → hasFlag (pteR ||| pteW ||| pteX ||| pteU ||| pteV) f = true →
      hasFlag (mapPte q (pteR ||| pteW ||| pteX ||| pteU) 0) f = true := by
    intro f hf hset
    rw [hasFlag_flags hf, (mapPte_flags (by decide) 0).2]
    exact hset
  have hbyte :
      userByte s₂ 0 0 =
        some (pteToPa (mapPte q (pteR ||| pteW ||| pteX ||| pteU) 0) + 0 % pgSize) := by
    unfold userByte
    dsimp only
    rw [hpage, if_pos
      ⟨by decide, hflag _ (by decide) (by decide), hflag _ (by decide) (by decide), hflag _ (by decide) (by decide)⟩]
  exact ⟨s, g', _, _, hbooted, (exec_cons hstep₁).trans ((exec_cons hstep₂).trans rfl),
    hs₂, rfl, rfl, ht₂, hbyte⟩

/-! ## Main results -/

/-- No page of memory ever has two owners. -/
theorem memory_separate (h : s.Booted) (hrun : exec Cpu.userStep l (Cpu.start s) = some c) :
    c.kernel.Separate := by
  obtain ⟨g, hsound⟩ := h.run hrun
  exact hsound.settled.separate

/-- The first process has a child. -/
theorem memory_separate_child :
    ∃ s c k, exec Cpu.userStep
      [.schedule 0 k, .trap .ecall (callRegs 4) 0 k] (Cpu.start s) = some c ∧
    (c.kernel.procs 1).parent = some 0 ∧ (c.kernel.procs 1).state = .runnable ∧
    c.kernel.Separate := by
  obtain ⟨s, g, c, a, hbooted, hrun, -, -, -, ht, -⟩ := exists_child ⟨fun _ => none, 0, 0, 0⟩
  exact ⟨s, c, _, hrun, (congrArg Entry.parent (entry_of_table ht 1) :),
    (congrArg Entry.state (entry_of_table ht 1) :),
    memory_separate hbooted hrun⟩

/-- Whatever the other processes do and ask for, a process that does not get the hart keeps its
memory, its registers and its record. -/
theorem others_keep_memory (h : s.Booted) (hrun : exec Cpu.userStep l (Cpu.start s) = some c)
    (hq : (c.kernel.procs q).entry.Alive) (hrun' : exec Cpu.userStep l' c = some c')
    (haway : ∀ l₁ d, l₁ <+: l' → exec Cpu.userStep l₁ c = some d → d.proc ≠ some q) :
    c.kernel.Undisturbed q c'.kernel := by
  obtain ⟨g, hsound⟩ := h.run hrun
  obtain ⟨hq', g', -, hu⟩ := hsound.run_untouched hq hrun' haway
  exact hu.undisturbed hsound.settled hq hq'

/-- A child that has not run yet, while its parent writes to its memory and calls `sys_wait`. -/
theorem others_keep_memory_child :
    ∃ s c c' k, exec Cpu.userStep
      [.schedule 0 k, .trap .ecall (callRegs 4) 0 k] (Cpu.start s) = some c ∧
    (c.kernel.procs 1).parent = some 0 ∧
    exec Cpu.userStep [.write 0 5, .trap .ecall (callRegs 5) 0 k] c = some c' ∧
    c'.resume 0 = .wait 0 ∧ c.kernel.Undisturbed 1 c'.kernel := by
  obtain ⟨s, g, c, a, hbooted, hrun, hs, hproc, hres, ht, hbyte⟩ :=
    exists_child ⟨fun _ => none, 0, 0, 0⟩
  have hent := entry_of_table ht
  have hrunning : (c.kernel.procs 0).entry.Alive :=
    alive_of_running (congrArg Entry.state (hent 0) :)
  have hchild : (c.kernel.procs 1).entry.Alive := by
    rw [hent 1]
    constructor <;> decide
  have hlive : ∀ q, (forkedTable.entry q).state ≠ .zombie := by decide
  have hwrite := Cpu.userStep_write 5 hproc hres hbyte
  generalize hc₁ :
    ({ c with kernel := c.kernel.setMem (splice c.kernel.mem a (fun _ => 5) 1) } : Cpu) =
    c₁ at hwrite
  have hprocs₁ : c₁.kernel.procs = c.kernel.procs := by rw [← hc₁]; rfl
  have hproc₁ : c₁.proc = some 0 := by rw [← hc₁]; exact hproc
  obtain ⟨g₁, hsound₁, -⟩ :=
    Cpu.Sound.write ⟨hs, fun q hq => Option.some.inj (hproc.symm.trans hq) ▸ hrunning⟩ hwrite
  obtain ⟨s', hwait⟩ := Cpu.userStep_wait (callRegs 5) 0 ⟨fun _ => none, 0, 0, 0⟩ hproc₁
    (by rw [← hc₁]; exact hres) hsound₁.settled (by rw [hprocs₁]; exact hrunning)
    (by decide) (by decide)
    (fun q hz => hlive q ((congrArg Entry.state (hent q)).symm.trans (hprocs₁ ▸ hz)))
    ⟨1, by rw [hprocs₁]; exact (congrArg Entry.parent (hent 1) :)⟩
  have hrun' := (exec_cons hwrite (l := [_])).trans ((exec_cons hwait).trans rfl)
  refine ⟨s, c, _, _, hrun, (congrArg Entry.parent (hent 1) :), hrun', rfl,
    others_keep_memory hbooted hrun hchild hrun' fun l₁ d hl hd => ?_⟩
  rcases l₁ with _ | ⟨a₁, _ | ⟨a₂, l₂⟩⟩
  · obtain rfl := Option.some.inj hd
    rw [hproc]
    decide
  · obtain ⟨rfl, -⟩ := List.cons_prefix_cons.mp hl
    obtain rfl := Option.some.inj (((exec_cons hwrite).trans rfl).symm.trans hd)
    rw [hproc₁]
    decide
  · obtain ⟨rfl, hl₁⟩ := List.cons_prefix_cons.mp hl
    obtain ⟨rfl, hl₂⟩ := List.cons_prefix_cons.mp hl₁
    obtain rfl := List.prefix_nil.mp hl₂
    obtain rfl := Option.some.inj (hrun'.symm.trans hd)
    exact Option.some_ne_none _ ∘ Eq.symm

end

end WhuOs.Mem
