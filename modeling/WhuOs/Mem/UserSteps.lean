import WhuOs.Mem.PageMap
import WhuOs.Mem.Service

/-! # Steps of the machine with user programs

Each step of the machine, whatever user code does and asks for, keeps the memory of all
processes in order, and the memory and the record of a process that does not have the
hart as they are.
-/

namespace WhuOs.Mem

open Prog Bytes

/-- A call of process `p` is done, and the process goes on, is gone or sleeps. -/
structure Handled (p : ProcId) (g : Ledger) (s : Kernel) (e : Ended) (g' : Ledger) (s' : Kernel) :
    Prop where
  served : Served p g s g' s'
  locks : ∀ lk, s'.locks lk = false
  alive : e ≠ .exited → (s'.procs p).entry.Alive
  stays : (∀ a0, e ≠ .back a0) → g'.own (s'.procs p).tf = .trapframe p

structure Cpu.Sound (g : Ledger) (c : Cpu) : Prop where
  settled : Settled g c.kernel
  alive : ∀ p, c.proc = some p → (c.kernel.procs p).entry.Alive

/-- A step leaves the processes alone that do not have the hart. -/
def Cpu.Spares (g : Ledger) (c : Cpu) (g' : Ledger) (c' : Cpu) : Prop :=
  ∀ q, c.proc ≠ some q → c'.proc ≠ some q → (c.kernel.procs q).entry.Alive →
    (c'.kernel.procs q).entry.Alive ∧ Untouched q g c.kernel g' c'.kernel

section

variable {g g' : Ledger} {s s' : Kernel} {p q : ProcId} {k : Setting} {m regs : Bytes}
  {c c' : Cpu} {va : Nat}

/-! ## The trap frame of the process -/

/-- A write into the trap frame of the process. -/
theorem Settled.writeFrame (h : Settled g s) (hp : s.InUse p) (hm : Inside (s.procs p).tf s.mem m) :
    Settled g (s.setMem m) ∧ Served p g s g (s.setMem m) := by
  have hown := h.frames p hp
  have hpage := h.tenancy.world.heap.page_of_own hown Use.noConfusion
  have hserved := h.tenancy.write hp hpage.1 (.inl hown) hm
  exact ⟨hserved.settled h h.locks fun _ => hown, hserved⟩

theorem inside_field {t : Nat} (off w : Nat) (h : off + 8 ≤ tfSize) :
    Inside t m (putLE m (t + off) 8 w) := by
  unfold putLE
  refine inside_splice (Nat.le_add_right _ _) ?_
  unfold tfSize at h
  unfold pgSize
  omega

/-- The registers in the trap frame. -/
theorem getLE_regs {t i : Nat} (h : tfRegs ≤ i) (hi : i + 8 ≤ tfSize) :
    getLE (splice m (t + tfRegs) regs (tfSize - tfRegs)) (t + i) 8 = getLE regs (i - tfRegs) 8 := by
  refine getLE_congr fun j hj => ?_
  rw [splice_in (by omega) (by omega)]
  congr 1
  omega

theorem getLE_putLE_field {t i j w : Nat} (h : i + 8 ≤ j ∨ j + 8 ≤ i) :
    getLE (putLE m (t + i) 8 w) (t + j) 8 = getLE m (t + j) 8 :=
  getLE_splice_disjoint (by omega)

/-! ## System calls -/

theorem sat_argUint64 {n : Nat} {Q : Nat → Kernel → Prop} (h : ∀ a, a < 2 ^ 64 → Q a s) :
    Sat (argUint64 p n) s (fun _ => True) Q fun _ => True := by
  unfold argUint64 argRaw
  rw [sat_bind, sat_procOf, sat_load]
  exact h _ (getLE_lt _ _ 8)

theorem sat_argUint32 {n : Nat} {Q : Nat → Kernel → Prop} (h : ∀ a, a < 2 ^ 32 → Q a s) :
    Sat (argUint32 p n) s (fun _ => True) Q fun _ => True := by
  unfold argUint32
  rw [sat_bind]
  refine sat_argUint64 fun a _ => ?_
  rw [sat_pure]
  exact h _ (Nat.mod_lt _ (by decide))

theorem sysPrint_attended (h : Settled g s) (hp : (s.procs p).entry.Alive) :
    Sat (sysPrint p) s (fun _ => True) (fun _ s' => ∃ g', Attended p g s g' s') fun _ => True := by
  unfold sysPrint
  rw [sat_bind]
  refine sat_argUint64 fun a _ => ?_
  rw [sat_bind, sat_procOf, sat_bind]
  refine uvmCopyinStrVar_sat h.tenancy.world.heap (h.tenancy.world.proc p hp.1).space.live
    (fun _ _ => trivial) fun _ => ?_
  exact (sat_pure _).mpr ⟨g, h.attended⟩

theorem sysSleep_attended (h : Settled g s) :
    Sat (sysSleep p k) s (fun _ => True) (fun _ s' => ∃ g', Attended p g s g' s') fun _ =>
      True := by
  unfold sysSleep
  rw [sat_bind]
  refine sat_argUint32 fun a _ => ?_
  dsimp only
  split
  · refine (Sat.any _ s).bind fun _ s' _ => ?_
    rw [sat_panic]
    trivial
  · exact (sat_pure _).mpr ⟨g, h.attended⟩

theorem sysDirect_attended {n : Sysno} (h : Settled g s)
    (hp : (s.procs p).entry.Alive) (hn : n ≠ .exec) :
    Sat (sysDirect p k n) s (fun _ => True) (fun _ s' => ∃ g', Attended p g s g' s') fun _ =>
      True := by
  cases n with
  | print => exact sysPrint_attended h hp
  | brk =>
      unfold sysDirect
      rw [sat_bind]
      exact sat_argUint64 fun top _ => sysBrk_attended h hp
  | mmap =>
      unfold sysDirect
      rw [sat_bind]
      refine sat_argUint64 fun start hstart => ?_
      rw [sat_bind]
      exact sat_argUint32 fun len hlen => sysMmap_attended h hp hstart hlen
  | munmap =>
      unfold sysDirect
      rw [sat_bind]
      refine sat_argUint64 fun start hstart => ?_
      rw [sat_bind]
      exact sat_argUint32 fun len _ => sysMunmap_attended h hp hstart
  | fork => exact sysFork_attended h hp
  | sleep => exact sysSleep_attended h
  | exec => exact absurd rfl hn
  | wait => exact (sat_pure _).mpr ⟨g, h.attended⟩
  | exit => exact (sat_pure _).mpr ⟨g, h.attended⟩

theorem Attended.handled {a0 : Option Nat} (h : Attended p g s g' s')
    (hp : (s.procs p).entry.Alive) :
    Handled p g s (.back a0) g' s' :=
  ⟨h.served, h.locks, fun _ => h.alive hp, fun hb => absurd rfl (hb a0)⟩

theorem sysWait_handled {addr : Nat} (h : Settled g s) (hp : (s.procs p).entry.Alive) :
    Sat (sysWait p addr) s (fun _ => True) (fun e s' => ∃ g', Handled p g s e g' s') fun _ =>
      True := by
  unfold sysWait
  refine (procWait_attended h hp).bind fun r s' hs' => ?_
  obtain ⟨g', hatt, hasleep⟩ := hs'
  rw [sat_pure]
  cases r with
  | reaped pid => exact ⟨g', hatt.handled hp⟩
  | noChild => exact ⟨g', hatt.handled hp⟩
  | asleep =>
      obtain ⟨rfl, hsame⟩ := hasleep rfl
      refine ⟨g', hatt.served, hatt.locks, fun _ => hatt.alive hp, fun _ => ?_⟩
      rw [kept_tf (untabled_kept hsame p)]
      exact h.frames p hp.1

theorem sysExit_handled (h : Settled g s) (hp : (s.procs p).entry.Alive) :
    Sat (sysExit p) s (fun _ => True) (fun e s' => ∃ g', Handled p g s e g' s') fun _ => True := by
  unfold sysExit
  rw [sat_bind]
  refine sat_argUint32 fun status _ => ?_
  refine (procExit_served h hp).bind fun _ s' hs' => ?_
  obtain ⟨hserved, hl, htf⟩ := hs'
  refine (sat_pure _).mpr ⟨g, hserved, hl, fun he => absurd rfl he, fun _ => ?_⟩
  rw [htf]
  exact h.frames p hp.1

theorem syscall_handled (h : Settled g s) (hp : (s.procs p).entry.Alive)
    (hnum : syscalls (getLE s.mem ((s.procs p).tf + tfA7) 8) ≠ some .exec) :
    Sat (syscall p k) s (fun _ => True) (fun e s' => ∃ g', Handled p g s e g' s') fun _ =>
      True := by
  unfold syscall
  rw [sat_bind, sat_procOf, sat_bind, sat_load]
  split
  · exact (sat_pure _).mpr ⟨g, h.attended.handled hp⟩
  · rw [sat_bind]
    exact sat_argUint64 fun addr _ => sysWait_handled h hp
  · exact sysExit_handled h hp
  · next n _ _ hn =>
    refine (sysDirect_attended h hp fun he => hnum (he ▸ hn)).bind fun r s' hs' => ?_
    obtain ⟨g', hatt⟩ := hs'
    exact (sat_pure _).mpr ⟨g', hatt.handled hp⟩

theorem Handled.after {s₁ : Kernel} {e : Ended} (h : Handled p g s₁ e g' s')
    (h₁ : Served p g s g s₁) :
    Handled p g s e g' s' :=
  ⟨h₁.trans h.served, h.locks, h.alive, h.stays⟩

/-- What a trap stores before the system call: the registers and `epc`. -/
def trapMem (t : Nat) (regs : Bytes) (epc : Nat) (m : Bytes) : Bytes :=
  putLE (splice m (t + tfRegs) regs (tfSize - tfRegs)) (t + tfEpc) 8 epc

theorem trapMem_inside {t epc : Nat} : Inside t m (trapMem t regs epc m) := by
  unfold trapMem
  refine Inside.trans (inside_splice (Nat.le_add_right _ _) ?_) (inside_field _ _ (by decide))
  unfold tfRegs tfSize pgSize
  omega

theorem ecallMem_inside (regs : Bytes) (epc : Nat) {t : Nat} :
    Inside t m (putLE (trapMem t regs epc m) (t + tfEpc) 8 (u64 (epc + 4))) :=
  trapMem_inside.trans (inside_field tfEpc (u64 (epc + 4)) (by decide))

/-- The registers that a system call finds in the trap frame. -/
theorem getLE_trapMem {t epc epc' i : Nat} (h : tfRegs ≤ i) (hi : i + 8 ≤ tfSize) :
    getLE (putLE (trapMem t regs epc m) (t + tfEpc) 8 epc') (t + i) 8 =
      getLE regs (i - tfRegs) 8 := by
  have hepc : tfEpc + 8 ≤ i ∨ i + 8 ≤ tfEpc := .inl (Nat.le_trans (by decide) h)
  unfold trapMem
  rw [getLE_putLE_field hepc, getLE_putLE_field hepc, getLE_regs h hi]

theorem sat_interrupt {epc : Nat} {Q : Ended → Kernel → Prop} {E : Panic → Prop} :
    Sat (do userVector p regs; trapUserHandler p .interrupt epc k) s (fun _ => True) Q E ↔
      Q (.back none) (s.setMem (trapMem (s.procs p).tf regs epc s.mem)) := by
  unfold userVector trapUserHandler
  rw [sat_bind, sat_bind, sat_procOf, sat_modify, sat_bind, sat_procOf, sat_bind, sat_store]
  simp only [setMem_procs, setMem_mem, setMem_setMem]
  exact sat_pure _

theorem sat_ecall {epc : Nat} {Q : Ended → Kernel → Prop} {E : Panic → Prop} :
    Sat (do userVector p regs; trapUserHandler p .ecall epc k) s (fun _ => True) Q E ↔
      Sat (syscall p k)
        (s.setMem (putLE (trapMem (s.procs p).tf regs epc s.mem)
          ((s.procs p).tf + tfEpc) 8 (u64 (epc + 4))))
        (fun _ => True) Q E := by
  unfold userVector trapUserHandler
  rw [sat_bind, sat_bind, sat_procOf, sat_modify, sat_bind, sat_procOf, sat_bind, sat_store]
  simp only [setMem_procs, setMem_mem, setMem_setMem]
  rw [sat_bind, sat_procOf, sat_bind, sat_store]
  simp only [setMem_procs, setMem_mem, setMem_setMem]
  rfl

/-- A trap of a process, up to the return to user mode. -/
theorem trap_handled {cause : UserTrap} {epc : Nat} (h : Settled g s) (hp : (s.procs p).entry.Alive)
    (hexec : ¬ CallsExec cause regs) :
    Sat (do userVector p regs; trapUserHandler p cause epc k) s (fun _ => True)
      (fun e s' => ∃ g', Handled p g s e g' s') fun _ => True := by
  cases cause with
  | interrupt =>
      rw [sat_interrupt]
      obtain ⟨hs₁, h₁⟩ := h.writeFrame hp.1 trapMem_inside
      exact ⟨g, (hs₁.attended.handled hp).after h₁⟩
  | ecall =>
      rw [sat_ecall]
      obtain ⟨hs₁, h₁⟩ := h.writeFrame hp.1 (ecallMem_inside regs epc)
      refine (syscall_handled hs₁ hp ?_).imp fun e s' hs' => ?_
      · rw [setMem_procs, setMem_mem, getLE_trapMem (by decide) (by decide)]
        exact fun hc => hexec ⟨rfl, hc⟩
      · obtain ⟨g', hh⟩ := hs'
        exact ⟨g', hh.after h₁⟩

/-! ## Pages of the user -/

theorem hasFlag_flags {e f : Nat} (hf : f < 2 ^ 10) : hasFlag e f = hasFlag (pteFlags e) f := by
  have hlt : e &&& f < 2 ^ 10 := Nat.lt_of_le_of_lt Nat.and_le_right hf
  have hmod : (e &&& f) % 2 ^ 10 = e % 2 ^ 10 &&& f % 2 ^ 10 := Nat.and_mod_two_pow
  rw [Nat.mod_eq_of_lt hlt, Nat.mod_eq_of_lt hf] at hmod
  unfold hasFlag pteFlags
  rw [hmod]

/-- Pages of the user are frames of their own. -/
theorem World.user_frame {A : ProcId → Prop} {v : Nat} (h : World A g s)
    (ha : A p) (hv : v < vaPages)
    (hvalid : hasFlag (leaf s.mem (s.procs p).pgtbl v) pteV = true)
    (huser : hasFlag (leaf s.mem (s.procs p).pgtbl v) pteU = true) :
    g.own (pteToPa (leaf s.mem (s.procs p).pgtbl v)) = .frame (s.procs p).pgtbl v := by
  rw [hasFlag_flags (by decide)] at huser
  rcases (h.proc p ha).space.leaf v hv hvalid with h1 | ⟨-, h1⟩ | ⟨-, h1⟩
  · exact h1
  · rw [h1, trampolinePte, (mapPte_flags (by decide) 0).2] at huser
    exact absurd huser (by decide)
  · rw [h1, trapframePte_flags] at huser
    exact absurd huser (by decide)

/-! ## Steps -/

theorem exists_other (q : ProcId) : ∃ p : ProcId, q ≠ p := by
  by_cases h : q = 0
  · exact ⟨1, by rw [h]; decide⟩
  · exact ⟨0, h⟩

/-- Work for process `p`, which has the hart before or after the step. -/
theorem Served.spares (h : Served p g c.kernel g' c'.kernel)
    (hp : c.proc = some p ∨ c'.proc = some p) : c.Spares g g' c' := by
  intro q h1 h2 ha
  refine h.others q ?_ ha
  rintro rfl
  rcases hp with hp | hp
  · exact h1 hp
  · exact h2 hp

theorem Handled.settled {e : Ended} (h : Handled p g s e g' s') (hs : Settled g s)
    (hback : ∀ a0, e ≠ .back a0) :
    Settled g' s' :=
  h.served.settled hs h.locks fun _ => h.stays hback

/-- A process that returns to user mode has its own trap frame. -/
theorem Served.returns (h : Served p g s g' s') (hs : Settled g s) (hl : ∀ lk, s'.locks lk = false)
    (hr : s'.Returns p) : Settled g' s' :=
  h.settled hs hl fun hp => (h.tenancy.world.proc p hp).trapframe (.inl hr.1)

/-- The stores of `trap_user_return`, after the result of the call. -/
theorem userReturn_stores (a0 : Option Nat) (s : Kernel) :
    Sat (do setResult p a0; trapUserReturn p k) s (fun _ => True)
      (fun _ s' => ∃ m, Inside (s.procs p).tf s.mem m ∧ s' = s.setMem m) fun _ => False := by
  have hresult : Sat (setResult p a0) s (fun _ => True)
      (fun _ s₁ => ∃ m, Inside (s.procs p).tf s.mem m ∧ s₁ = s.setMem m) fun _ => False := by
    cases a0 with
    | none => exact (sat_pure _).mpr ⟨s.mem, .refl _ _, rfl⟩
    | some r =>
        unfold setResult
        rw [sat_bind, sat_procOf, sat_store]
        exact ⟨_, inside_field _ _ (by decide), rfl⟩
  refine hresult.bind fun _ s₁ hs₁ => ?_
  obtain ⟨m, hin, rfl⟩ := hs₁
  unfold trapUserReturn
  rw [sat_bind, sat_procOf, sat_bind, sat_state, sat_bind, sat_store, sat_bind, sat_store,
    sat_bind, sat_store, sat_store]
  simp only [setMem_procs, setMem_mem, setMem_setMem]
  exact ⟨_, (((hin.trans (inside_field tfKernelSatp (makeSatp s.kernelPgtbl) (by decide))).trans
    (inside_field tfKernelSp ((s.procs p).kstack + pgSize) (by decide))).trans
    (inside_field tfKernelTrap k.trapUserHandler (by decide))).trans
      (inside_field tfKernelHartid 0 (by decide)), rfl⟩

/-- A process goes on in user mode. -/
theorem Served.userReturn {a0 : Option Nat} (h : Served p g s g' c.kernel) (hs : Settled g s)
    (hl : ∀ lk, c.kernel.locks lk = false) (hproc : c.proc = some p)
    (hp : (c.kernel.procs p).entry.Alive)
    (hstep : c.userReturn p k a0 = some c') :
    c'.Sound g' ∧ c'.proc = some p ∧ Served p g s g' c'.kernel := by
  unfold Cpu.userReturn at hstep
  split at hstep
  swap
  · cases hstep
  next hr =>
  obtain ⟨⟨u, s₁⟩, hret, hc'⟩ := Option.bind_eq_some_iff.mp hstep
  obtain rfl := Option.some.inj hc'
  obtain ⟨m, hin, rfl⟩ := returned_sat (userReturn_stores a0 c.kernel) hret
  obtain ⟨hs₁, h₁⟩ := (h.returns hs hl hr).writeFrame hp.1 hin
  refine ⟨⟨hs₁, fun q hq => ?_⟩, hproc, h.trans h₁⟩
  obtain rfl := Option.some.inj (hproc.symm.trans hq)
  exact hp

/-- The end of a trap of the process that has the hart. -/
theorem Handled.ended {e : Ended} (h : Handled p g s e g' c.kernel) (hs : Settled g s)
    (hproc : c.proc = some p)
    (hstep : c.ended p k e = some c') : c'.Sound g' ∧ Served p g s g' c'.kernel := by
  cases e with
  | back a0 =>
      obtain ⟨h1, -, h3⟩ := h.served.userReturn hs h.locks hproc (h.alive Ended.noConfusion) hstep
      exact ⟨h1, h3⟩
  | exited =>
      obtain rfl := Option.some.inj hstep
      exact ⟨⟨h.settled hs fun _ => Ended.noConfusion, fun _ hc => by cases hc⟩, h.served⟩
  | asleep addr =>
      obtain rfl := Option.some.inj hstep
      exact ⟨⟨h.settled hs fun _ => Ended.noConfusion, fun _ hc => by cases hc⟩, h.served⟩

theorem Cpu.Sound.schedule (h : c.Sound g) (hstep : c.userStep (.schedule p k) = some c') :
    ∃ g', c'.Sound g' ∧ c.Spares g g' c' := by
  obtain ⟨d, hd, hc'⟩ := Option.bind_eq_some_iff.mp hstep
  unfold Cpu.step at hd
  dsimp only at hd
  split at hd
  swap
  · cases hd
  next hnone =>
  obtain ⟨⟨r, s₁⟩, hret, hd⟩ := Option.bind_eq_some_iff.mp hd
  obtain rfl := Option.some.inj hd
  obtain ⟨hs₁, hserved, halive⟩ := returned_sat (dispatch_served h.settled) hret
  generalize hd : ({ c with kernel := s₁, proc := if r then some p else none } : Cpu) = d at hc'
  cases r with
  | false =>
      have hdp : d.proc = none := by rw [← hd]; rfl
      have hout : ¬ (d.proc = some p ∧ d.resume p = .user) := by
        rw [hdp]
        rintro ⟨hc, -⟩
        cases hc
      rw [if_neg hout] at hc'
      obtain rfl := Option.some.inj hc'
      rw [← hd]
      refine ⟨g, ⟨hs₁, fun _ hc => by cases hc⟩, fun q _ _ ha => ?_⟩
      obtain ⟨r, hr⟩ := exists_other q
      exact (hserved r fun hc => by cases hc).others q hr ha
  | true =>
      have hdp : d.proc = some p := by rw [← hd]; rfl
      have hdk : d.kernel = s₁ := by rw [← hd]
      rw [← hdk] at hs₁ hserved halive
      have h₁ := hserved p fun _ => rfl
      split at hc'
      · obtain ⟨h1, h2, h3⟩ := h₁.userReturn h.settled hs₁.locks hdp (halive rfl) hc'
        exact ⟨g, h1, h3.spares (.inr h2)⟩
      · obtain rfl := Option.some.inj hc'
        refine ⟨g, ⟨hs₁, fun q hq => ?_⟩, h₁.spares (.inr hdp)⟩
        obtain rfl := Option.some.inj (hdp.symm.trans hq)
        exact halive rfl

theorem Cpu.Sound.timer (h : c.Sound g) (hstep : c.userStep .timer = some c') :
    ∃ g', c'.Sound g' ∧ c.Spares g g' c' := by
  obtain ⟨⟨u, s₁⟩, hret, hc'⟩ := Option.bind_eq_some_iff.mp hstep
  obtain rfl := Option.some.inj hc'
  obtain ⟨hsame, hl, hw⟩ := returned_sat (timerUpdate_woken h.settled c.proc) hret
  have hserved : ∀ p, Served p g c.kernel g s₁ := fun p => h.settled.tenancy.woken hsame hw
  refine ⟨g, ⟨h.settled.tabled hsame (hserved 0).tenancy hl fun q hq hc =>
    hq ((hw q).unused.mpr hc),
    fun p hp => Woken.alive (hw p) (h.alive p hp)⟩, fun q _ _ ha => ?_⟩
  obtain ⟨r, hr⟩ := exists_other q
  exact (hserved r).others q hr ha

theorem Cpu.Sound.write {b : UInt8} (h : c.Sound g) (hstep : c.userStep (.write va b) = some c') :
    ∃ g', c'.Sound g' ∧ c.Spares g g' c' := by
  obtain ⟨p, hp, hstep⟩ := Option.bind_eq_some_iff.mp hstep
  obtain ⟨a, ha, hc'⟩ := Option.bind_eq_some_iff.mp hstep
  obtain rfl := Option.some.inj hc'
  have hproc := (outside_some hp).1
  have hused := (h.alive p hproc).1
  unfold userByte at ha
  dsimp only at ha
  split at ha
  swap
  · cases ha
  next hmapped =>
  obtain ⟨hv, hvalid, -, huser⟩ := hmapped
  obtain rfl := Option.some.inj ha
  have hown := h.settled.tenancy.world.user_frame hused hv hvalid huser
  have hpage := h.settled.tenancy.world.heap.page_of_own hown Use.noConfusion
  have hoff := Nat.mod_lt va (show 0 < pgSize by decide)
  have hserved := h.settled.tenancy.write (m := splice c.kernel.mem
    (pteToPa (leaf c.kernel.mem (c.kernel.procs p).pgtbl (va / pgSize)) + va % pgSize)
    (fun _ => b) 1)
    hused hpage.1 (.inr ⟨_, hown⟩)
    (inside_splice (Nat.le_add_right _ _) (Nat.add_le_add_left hoff _))
  exact ⟨g, ⟨hserved.settled h.settled h.settled.locks fun _ => h.settled.frames p hused, h.alive⟩,
    Served.spares hserved (.inl hproc)⟩

theorem Cpu.Sound.trap {cause : UserTrap} {epc : Nat} (h : c.Sound g)
    (hstep : c.userStep (.trap cause regs epc k) = some c') :
    ∃ g', c'.Sound g' ∧ c.Spares g g' c' := by
  unfold Cpu.userStep at hstep
  dsimp only at hstep
  split at hstep
  · cases hstep
  next hexec =>
  obtain ⟨p, hp, hstep⟩ := Option.bind_eq_some_iff.mp hstep
  obtain ⟨⟨e, s₁⟩, hret, hc'⟩ := Option.bind_eq_some_iff.mp hstep
  have hproc := (outside_some hp).1
  obtain ⟨g', hh⟩ := returned_sat (trap_handled h.settled (h.alive p hproc) hexec) hret
  have hh' : Handled p g c.kernel e g' ({ c with kernel := s₁ } : Cpu).kernel := hh
  obtain ⟨hsound, hserved⟩ := hh'.ended h.settled hproc hc'
  exact ⟨g', hsound, hserved.spares (.inl hproc)⟩

theorem Cpu.Sound.goOn (h : c.Sound g) (hstep : c.userStep (.goOn k) = some c') :
    ∃ g', c'.Sound g' ∧ c.Spares g g' c' := by
  obtain ⟨p, hproc, hstep⟩ := Option.bind_eq_some_iff.mp hstep
  split at hstep
  · obtain ⟨⟨e, s₁⟩, hret, hc'⟩ := Option.bind_eq_some_iff.mp hstep
    obtain ⟨g', hh⟩ := returned_sat (sysWait_handled h.settled (h.alive p hproc)) hret
    have hh' : Handled p g c.kernel e g' ({ c with kernel := s₁ } : Cpu).kernel := hh
    obtain ⟨hsound, hserved⟩ := hh'.ended h.settled hproc hc'
    exact ⟨g', hsound, hserved.spares (.inl hproc)⟩
  · cases hstep

theorem Cpu.Sound.step {a : UserAct} (h : c.Sound g) (hstep : c.userStep a = some c') :
    ∃ g', c'.Sound g' ∧ c.Spares g g' c' := by
  cases a with
  | schedule p k => exact h.schedule hstep
  | timer => exact h.timer hstep
  | write va b => exact h.write hstep
  | trap cause regs epc k => exact h.trap hstep
  | goOn k => exact h.goOn hstep

end

end WhuOs.Mem
