import WhuOs.Mem.Tenancy

/-! # Calls on behalf of one process

Every call of the kernel keeps the memory of all processes in order and leaves the
others alone. A call that is made with no lock held returns with no lock held.
-/

namespace WhuOs.Mem

open Prog Bytes

/-- Between two steps. -/
structure Settled (g : Ledger) (s : Kernel) : Prop where
  tenancy : Tenancy g s
  frames : ∀ q, s.InUse q → g.own (s.procs q).tf = .trapframe q
  locks : ∀ lk, s.locks lk = false

structure Attended (p : ProcId) (g : Ledger) (s : Kernel) (g' : Ledger) (s' : Kernel) : Prop where
  served : Served p g s g' s'
  locks : ∀ lk, s'.locks lk = false
  alive : (s.procs p).entry.Alive → (s'.procs p).entry.Alive

def Woken (a b : ProcState) : Prop := b = a ∨ a = .sleeping ∧ b = .runnable

section

variable {g g' : Ledger} {s s' : Kernel} {p q : ProcId} {top start len : Nat} {lk : Lock}

theorem Settled.attended (h : Settled g s) : Attended p g s g s := ⟨h.tenancy.nothing, h.locks, id⟩

/-! ## Memory calls -/

theorem sysBrk_attended (h : Settled g s) (hp : (s.procs p).entry.Alive) :
    Sat (sysBrk p top) s (fun _ => True) (fun _ s' => ∃ g', Attended p g s g' s') fun _ =>
      True := by
  refine (sysBrk_world h.tenancy.world hp.1 hp.2).imp fun _ s' hs' => ?_
  obtain ⟨g', top', hw, hsp, hrest⟩ := hs'
  have hprocs : s'.procs = Function.update s.procs p { s.procs p with heapTop := top' } :=
    (congrArg Kernel.procs hrest :)
  have hother : ∀ q, q ≠ p → s'.procs q = s.procs q := by
    intro q hq
    rw [hprocs, Function.update_of_ne hq]
  have hself :
      s'.procs p = { s.procs p with heapTop := top' } := by rw [hprocs, Function.update_self]
  refine ⟨g', h.tenancy.built hp.1 hw hsp (congrArg Kernel.kernelPgtbl hrest :) hother ?_
    (paged_of_nodes h.tenancy.paged (congrArg Kernel.nodes hrest :)) ?_, fun lk => ?_, fun _ => ?_⟩
  · rw [hself]
  · rw [hself]
  · exact (congrFun (congrArg Kernel.locks hrest) lk).trans (h.locks lk)
  · rw [hself]
    exact hp

/-- Calls that work on the list of the process. -/
theorem Settled.relisted (h : Settled g s) (hp : (s.procs p).entry.Alive) (hw : World s.InUse g' s')
    (hsp : Spared (BuildUse (s.procs p).pgtbl p) g s g' s')
    (hl : s'.rest.listless = s.rest.listless)
    (hr : Relisted p s.procs s') : Attended p g s g' s' := by
  have hself : s'.procs p = { s.procs p with mmap := (s'.procs p).mmap } := listless_procs hl p
  refine ⟨h.tenancy.built hp.1 hw hsp (congrArg Kernel.kernelPgtbl hl :) hr.others ?_ hr.paged ?_,
    fun lk => ?_, fun _ => ?_⟩
  · rw [hself]
  · rw [hself]
  · exact (congrFun (congrArg Kernel.locks hl) lk).trans (h.locks lk)
  · rw [hself]
    exact hp

theorem sysMmap_attended (h : Settled g s) (hp : (s.procs p).entry.Alive) (hst : start < 2 ^ 64)
    (hlen : len < 2 ^ 32) :
    Sat (sysMmap p start len) s (fun _ => True) (fun _ s' => ∃ g', Attended p g s g' s') fun _ =>
      True := by
  refine (sysMmap_world h.tenancy.world hp.1 (h.locks _) h.tenancy.paged hst hlen).imp
    fun _ s' hs' => ?_
  obtain ⟨g', hw, hsp, hl, hr⟩ := hs'
  exact ⟨g', h.relisted hp hw hsp hl hr⟩

theorem sysMunmap_attended (h : Settled g s) (hp : (s.procs p).entry.Alive) (hst : start < 2 ^ 64) :
    Sat (sysMunmap p start len) s (fun _ => True) (fun _ s' => ∃ g', Attended p g s g' s') fun _ =>
      True := by
  refine (sysMunmap_world h.tenancy.world hp.1 hp.2 h.tenancy.paged hst).imp fun _ s' hs' => ?_
  obtain ⟨g', hw, hsp, hl, hr⟩ := hs'
  exact ⟨g', h.relisted hp hw hsp hl hr⟩

/-! ## `proc_fork` -/

/-- A slot whose process is not alive is taken or given back; `r` is the root of the process that
comes or goes. -/
theorem Tenancy.reslotted {np : ProcId} {r : Nat} (h : Tenancy g s) (hpn : p ≠ np)
    (hdead : ¬ (s.procs np).entry.Alive)
    (hw : World s'.InUse g' s') (hsp : Spared (OwnUse s.kernelPgtbl r np) g s g' s')
    (hroot : ∀ q, q ≠ np → s.InUse q → (s.procs q).pgtbl ≠ r)
    (hother : ∀ q, q ≠ np → s'.procs q = s.procs q)
    (hkern : s'.kernelPgtbl = s.kernelPgtbl)
    (hleaf : ∀ v < vaPages, v ≠ kstackVpn np →
      leaf s'.mem s.kernelPgtbl v = leaf s.mem s.kernelPgtbl v) (hpaged : s'.Paged)
    (hgone : (s'.procs np).state = .unused →
      (s'.procs np).tf = 0 ∧ (s'.procs np).pgtbl = 0 ∧
      leaf s'.mem s'.kernelPgtbl (kstackVpn np) = 0)
    (hhere : s'.InUse np → Stacked s' np ∧ (s'.procs np).ustackBase % pgSize = 0 ∧
      ((∀ q, q ≠ p → s.InUse q → g.own (s.procs q).tf = .trapframe q) →
        g'.own (s'.procs np).tf = .trapframe np)) :
    Served p g s g' s' := by
  have hin : ∀ q, q ≠ np → (s'.InUse q ↔ s.InUse q) := by
    intro q hq
    unfold Kernel.InUse
    rw [hother q hq]
  have hstack :
      ∀ q, q ≠ np →
      leaf s'.mem s'.kernelPgtbl (kstackVpn q) = leaf s.mem s.kernelPgtbl (kstackVpn q) := by
    intro q hq
    rw [hkern]
    exact hleaf _ (kstackVpn_lt q) fun he => hq (kstackVpn_inj he)
  -- the process shares nothing with the others
  have hapart : ∀ q u, q ≠ np → s.InUse q → TenantUse (s.procs q).pgtbl q u →
    ¬ OwnUse s.kernelPgtbl r np u :=
    fun q u hq hu ht => ht.not_own (hroot q hq hu) (h.world.proc q hu).user hq
  refine ⟨⟨hw, fun q hq => ?_, fun q hq => ?_, fun q hq => ?_, ?_, hpaged, fun q hq => ?_⟩,
    (hin p hpn).mpr,
    fun hf q hqp hq => ?_, fun q _ ha => ⟨?_, ?_⟩⟩
  · by_cases hqn : q = np
    · subst hqn
      exact ⟨(hgone hq).1, (hgone hq).2.1⟩
    · rw [hother q hqn] at hq ⊢
      exact h.vacant q hq
  · by_cases hqn : q = np
    · subst hqn
      exact (hgone hq).2.2
    · rw [hother q hqn] at hq
      rw [hstack q hqn]
      exact h.unstacked q hq
  · by_cases hqn : q = np
    · subst hqn
      exact (hhere hq).1
    · unfold Stacked
      rw [hstack q hqn]
      exact h.stacked q ((hin q hqn).mp hq)
  · rw [hkern, hleaf _ (by decide) (trampoline_ne_kstack np)]
    exact h.trampoline
  · by_cases hqn : q = np
    · subst hqn
      exact (hhere hq).2.1
    · rw [hother q hqn]
      exact h.stackBase q ((hin q hqn).mp hq)
  · by_cases hqn : q = np
    · subst hqn
      exact (hhere hq).2.2 hf
    · have hq' := (hin q hqn).mp hq
      rw [hother q hqn]
      exact hsp.trapframe h.world (hf q hqp hq') (hapart q _ hqn hq' .trapframe)
  · have hqn : q ≠ np := by
      rintro rfl
      exact hdead ha
    rw [hother q hqn]
    exact ha
  · have hqn : q ≠ np := by
      rintro rfl
      exact hdead ha
    exact hsp.untouched h.world (by rw [hother q hqn]) fun u hu => hapart q u hqn ha.1 hu

theorem Cloned.served {np : ProcId} {l : List NodeId} (h : Tenancy g s) (hp : s.InUse p)
    (hnp : (s.procs np).state = .unused) (hc : Cloned s.InUse p np l g s g' s') :
    Served p g s g' s' := by
  obtain ⟨tf, pgtbl, mmap, nodes, hnodes, -, hrest⟩ := hc.rest
  have hprocs : s'.procs = Function.update s.procs np
      ((s.procs np).child s.globalPid p (s.procs p) tf pgtbl mmap) :=
      (congrArg Kernel.procs hrest :)
  have hother : ∀ q, q ≠ np → s'.procs q = s.procs q := by
    intro q hq
    rw [hprocs, Function.update_of_ne hq]
  have hself : s'.procs np = (s.procs np).child s.globalPid p (s.procs p) tf pgtbl mmap := by
    rw [hprocs, Function.update_self]
  have hnew : s'.InUse np := by
    unfold Kernel.InUse
    rw [hself]
    intro hc
    cases hc
  have hpn : p ≠ np := by
    rintro rfl
    exact hp hnp
  refine h.reslotted hpn (fun ha => ha.1 hnp) (hc.world.anti fun q hq => ?_) hc.spared
    (fun q hq hu he => ?_) hother
    (congrArg Kernel.kernelPgtbl hrest :) hc.kernel (fun i => ?_) (fun hq => absurd hq hnew)
    fun _ => ⟨hc.stack, ?_, fun _ => hc.trapframe⟩
  · by_cases hqn : q = np
    · exact .inr hqn
    · unfold Kernel.InUse at hq
      rw [hother q hqn] at hq
      exact .inl hq
  · refine hq (hc.world.distinct q np (.inl hu) (.inr rfl) ?_)
    rw [hother q hq]
    exact he
  · rw [show s'.nodes = nodes from (congrArg Kernel.nodes hrest :)]
    exact hnodes i
  · rw [hself]
    exact h.stackBase p hp

theorem sysFork_attended (h : Settled g s) (hp : (s.procs p).entry.Alive) :
    Sat (sysFork p) s (fun _ => True) (fun _ s' => ∃ g', Attended p g s g' s') fun _ => True := by
  unfold sysFork
  rw [sat_bind]
  refine procFork_sat h.tenancy.world hp.1
    (fun q hq => ⟨fun hc => hc hq, h.tenancy.vacant q hq, h.tenancy.unstacked q hq⟩)
    h.locks h.tenancy.trampoline h.tenancy.paged (h.tenancy.stackBase p hp.1)
    (fun _ _ => trivial) (fun _ => ?_)
    fun np l g' s' hnp _ _ _ hc => ?_
  · exact (sat_pure _).mpr ⟨g, h.attended⟩
  · refine (sat_pure _).mpr ⟨g', hc.served h.tenancy hp.1 hnp, fun lk => ?_, fun _ => ?_⟩
    · obtain ⟨tf, pgtbl, mmap, nodes, -, -, hrest⟩ := hc.rest
      exact (congrFun (congrArg Kernel.locks hrest) lk :).trans (h.locks lk)
    · obtain ⟨tf, pgtbl, mmap, nodes, -, -, hrest⟩ := hc.rest
      have hpn : p ≠ np := by
        rintro rfl
        exact hp.1 hnp
      have hprocs : s'.procs p = s.procs p :=
        (congrFun (congrArg Kernel.procs hrest) p :).trans (Function.update_of_ne hpn _ _)
      rw [hprocs]
      exact hp

/-! ## `proc_free` on an exited process -/

theorem unlisted_paged (h : s.Paged) (l : Option NodeId) : (s.unlisted l).Paged := by
  cases l with
  | none => exact h
  | some i => exact h.returned i

/-- The process is gone with all its pages. -/
theorem Departed.served {pp : ProcId} (h : Tenancy g s) (hne : pp ≠ p)
    (hz : (s.procs pp).state = .zombie)
    (hc : Departed (fun q => s.InUse q ∧ q ≠ pp) pp g s g' s') : Served p g s g' s' := by
  have hprocs :
      s'.procs = Function.update (s.unlisted (s.procs pp).mmap).procs pp (s.procs pp).vacant :=
    (congrArg Kernel.procs hc.rest :)
  rw [unlisted_procs] at hprocs
  have hkern : s'.kernelPgtbl = s.kernelPgtbl := by
    have hrest := hc.rest
    cases hl : (s.procs pp).mmap with
    | none =>
        rw [hl] at hrest
        exact (congrArg Kernel.kernelPgtbl hrest :)
    | some i =>
        rw [hl] at hrest
        exact (congrArg Kernel.kernelPgtbl hrest :)
  have hother : ∀ q, q ≠ pp → s'.procs q = s.procs q := by
    intro q hq
    rw [hprocs, Function.update_of_ne hq]
  have hself : s'.procs pp = (s.procs pp).vacant := by rw [hprocs, Function.update_self]
  have hgone : (s'.procs pp).state = .unused := by
    rw [hself]
    rfl
  have hzin : s.InUse pp := by
    unfold Kernel.InUse
    rw [hz]
    intro hc
    cases hc
  refine h.reslotted (Ne.symm hne) (fun ha => ha.2 hz) (hc.world.anti fun q hq => ?_) hc.spared
    (fun q hq hu he => hq (h.world.distinct q pp hu hzin he)) hother hkern (fun v hv hvp => ?_)
    (paged_of_nodes (unlisted_paged h.paged (s.procs pp).mmap) (congrArg Kernel.nodes hc.rest :))
      (fun _ => ?_)
    fun hq => absurd hgone hq
  · have hqp : q ≠ pp := by
      rintro rfl
      exact hq hgone
    refine ⟨?_, hqp⟩
    unfold Kernel.InUse at hq
    rw [hother q hqp] at hq
    exact hq
  · rw [hc.kernel v hv, if_neg hvp]
  · rw [hself, hkern, hc.kernel _ (kstackVpn_lt pp), if_pos rfl]
    exact ⟨rfl, rfl, rfl⟩

/-! ## Functions on the process table -/

theorem untabled_setProc {x : Proc} (h : x.kept = (s.procs p).kept) :
    (s.setProc p x).untabled = s.untabled := by
  unfold Kernel.untabled
  congr 1
  funext q
  by_cases hq : q = p
  · subst hq
    rw [setProc_self, h]
  · rw [setProc_other _ _ hq]

theorem keeps_acquire (hlk : ∀ k, lk ≠ .pmem k) : Keeps Kernel.untabled (spinlockAcquire lk) := by
  unfold spinlockAcquire
  exact keeps_state.bind fun _ => keeps_check (keeps_modify fun _ => untabled_setLock hlk)

theorem keeps_release (hlk : ∀ k, lk ≠ .pmem k) : Keeps Kernel.untabled (spinlockRelease lk) := by
  unfold spinlockRelease
  exact keeps_state.bind fun _ => keeps_check (keeps_modify fun _ => untabled_setLock hlk)

theorem proc_not_pool (q : ProcId) (k : Bool) : Lock.proc q ≠ .pmem k := Lock.noConfusion

theorem wait_not_pool (k : Bool) : Lock.wait ≠ .pmem k := Lock.noConfusion

theorem mmapList_not_proc (q : ProcId) : Lock.mmapList ≠ .proc q := Lock.noConfusion

theorem object_not_pool (a : Nat) (k : Bool) : Lock.object a ≠ .pmem k := Lock.noConfusion

theorem keeps_modifyProc {f : Proc → Proc} (hf : ∀ x : Proc, (f x).kept = x.kept) :
    Keeps Kernel.untabled (modifyProc p f) :=
  keeps_modify fun s => untabled_setProc (hf (s.procs p))

theorem keeps_procOf (p : ProcId) : Keeps Kernel.untabled (procOf p) :=
  keeps_state.bind fun _ => keeps_pure _

theorem keeps_wakeupLoop (me : Option ProcId) (space : Option Chan) (ps : List ProcId) :
    Keeps Kernel.untabled (wakeupLoop me space ps) := by
  induction ps with
  | nil => exact keeps_pure ()
  | cons q ps ih =>
      have hrelease := (keeps_release (proc_not_pool q)).bind fun _ => ih
      unfold wakeupLoop
      apply keeps_ite
      · apply (keeps_acquire (proc_not_pool q)).bind
        intro _
        apply (keeps_procOf q).bind
        intro x
        apply keeps_ite
        · apply KeepsWith.bind
          · exact keeps_modifyProc fun _ => rfl
          · exact fun _ => hrelease
        · exact hrelease
      · exact ih

theorem keeps_reparentLoop (parent : ProcId) (ps : List ProcId) :
    Keeps Kernel.untabled (reparentLoop parent ps) := by
  induction ps with
  | nil => exact keeps_pure ()
  | cons q ps ih =>
      unfold reparentLoop
      apply (keeps_procOf q).bind
      intro x
      apply keeps_ite
      · apply keeps_state.bind
        intro s
        apply KeepsWith.bind
        · exact keeps_modifyProc fun _ => rfl
        · exact fun _ => (keeps_wakeupLoop _ _ allProcs).bind fun _ => ih
      · exact ih

theorem keeps_procExit (p : ProcId) (status : Nat) : Keeps Kernel.untabled (procExit p status) := by
  unfold procExit
  apply keeps_state.bind
  intro s
  apply (keeps_ite (keeps_pure ()) (keeps_panic trivial)).bind
  intro _
  apply (keeps_acquire wait_not_pool).bind
  intro _
  apply (keeps_reparentLoop p allProcs).bind
  intro _
  apply (keeps_procOf p).bind
  intro x
  apply (keeps_wakeupLoop (some p) _ allProcs).bind
  intro _
  apply (keeps_acquire (proc_not_pool p)).bind
  intro _
  apply KeepsWith.bind
  · exact keeps_modifyProc fun _ => rfl
  · exact fun _ => (keeps_release wait_not_pool).bind fun _ => keeps_release (proc_not_pool p)

theorem keeps_timerUpdate (me : Option ProcId) : Keeps Kernel.untabled (timerUpdate me) :=
  (keeps_acquire (object_not_pool _)).bind fun _ => (keeps_wakeupLoop me _ allProcs).bind fun _ =>
    keeps_release (object_not_pool _)

theorem keeps_dispatch (p : ProcId) : Keeps Kernel.untabled (dispatch p) := by
  have hrelease :
      ∀ b : Bool, Keeps Kernel.untabled (do spinlockRelease (.proc p); return b : MemM Bool) :=
    fun b => (keeps_release (proc_not_pool p)).bind fun _ => keeps_pure b
  unfold dispatch
  apply (keeps_acquire (proc_not_pool p)).bind
  intro _
  apply (keeps_procOf p).bind
  intro x
  apply keeps_ite
  · apply KeepsWith.bind
    · exact keeps_modifyProc fun _ => rfl
    · exact fun _ => hrelease true
  · exact hrelease false

/-! ## States of processes -/

theorem Woken.trans {a b c : ProcState} (h : Woken a b) (h' : Woken b c) : Woken a c := by
  rcases h with rfl | ⟨h1, h2⟩
  · exact h'
  · rcases h' with rfl | ⟨h3, -⟩
    · exact .inr ⟨h1, h2⟩
    · rw [h2] at h3
      cases h3

theorem Woken.unused {a b : ProcState} (h : Woken a b) : b = .unused ↔ a = .unused := by
  rcases h with rfl | ⟨rfl, rfl⟩
  · rfl
  · constructor <;> intro hc <;> cases hc

theorem Woken.zombie {a b : ProcState} (h : Woken a b) : b = .zombie ↔ a = .zombie := by
  rcases h with rfl | ⟨rfl, rfl⟩
  · rfl
  · constructor <;> intro hc <;> cases hc

theorem Woken.alive {x y : Proc} (h : Woken x.state y.state) (ha : x.entry.Alive) : y.entry.Alive :=
  ⟨fun hc => ha.1 (h.unused.mp hc), fun hc => ha.2 (h.zombie.mp hc)⟩

theorem wake_woken (t : Table) (me : Option ProcId) (space : Option Chan) (q : ProcId) :
    Woken (t.entry q).state ((t.wake me space).entry q).state := by
  rw [wake_entry]
  split
  · next hc => exact .inr ⟨hc.2.1, rfl⟩
  · exact .inl rfl

theorem reparent_woken (parent : ProcId) (ps : List ProcId) (t : Table) (q : ProcId) :
    Woken (t.entry q).state ((Table.reparent parent ps t).entry q).state := by
  induction ps generalizing t with
  | nil => exact .inl rfl
  | cons pp ps ih =>
      unfold Table.reparent
      split
      · refine Woken.trans ?_ (ih _)
        refine Woken.trans (.inl ?_) (wake_woken _ _ _ q)
        rw [set_entry]
        split
        · next hq => rw [hq]
        · rfl
      · exact ih t

theorem exited_woken (t : Table) (p : ProcId) (status : Nat) (hq : q ≠ p) :
    Woken (t.entry q).state ((t.exited p status).entry q).state := by
  unfold Table.exited
  dsimp only
  rw [set_entry_ne hq]
  exact (reparent_woken p allProcs t q).trans (wake_woken _ _ _ q)

theorem exited_held (t : Table) (p : ProcId) (status : Nat) : (t.exited p status).held = t.held :=
  reparent_held p allProcs t

/-- Processes were woken up. -/
theorem Tenancy.woken (h : Tenancy g s) (hs : s'.untabled = s.untabled)
    (hw : ∀ q, Woken (s.procs q).state (s'.procs q).state) : Served p g s g s' :=
  h.tabled hs (fun q => (hw q).unused) (fun q hz => .inl ((hw q).zombie.mp hz)) fun q _ ha =>
    Woken.alive (hw q) ha

theorem timerUpdate_table (me : Option ProcId) (s : Kernel) :
    Sat (timerUpdate me) s (fun _ => True)
      (fun _ s' => s'.table = s.table.wake me (some (.object sysTimer)))
      (· ≠ .release) := by
  unfold timerUpdate
  refine (acquire_table _ s).bind fun _ s₁ h₁ => ?_
  obtain ⟨hfree, h₁⟩ := h₁
  refine (procWakeup_table me _ s₁).bind fun _ s₂ h₂ => ?_
  rw [h₁] at h₂
  have hheld : s₂.table.held (.object sysTimer) = true := by
    rw [h₂]
    change (s.table.hold (.object sysTimer) true).held (.object sysTimer) = true
    exact hold_self
  refine (release_table hheld).imp fun _ s₃ h₃ => ?_
  rw [h₃, h₂]
  exact Table.ext rfl rfl rfl (relock hfree)

theorem timerUpdate_woken (h : Settled g s) (me : Option ProcId) :
    Sat (timerUpdate me) s (fun _ => True)
      (fun _ s' => s'.untabled = s.untabled ∧ (∀ lk, s'.locks lk = false) ∧
      ∀ q, Woken (s.procs q).state (s'.procs q).state) fun _ => True := by
  refine ((keeps_timerUpdate me).sat s).run.imp fun _ s' hs' => ?_
  obtain ⟨hk, hrun⟩ := hs'
  have ht : s'.table = s.table.wake me (some (.object sysTimer)) :=
    (timerUpdate_table me s).of_ok hrun
  refine ⟨hk, fun lk => ?_, fun q => ?_⟩
  · exact (congrArg (fun t => Table.held t lk) ht :).trans (h.locks lk)
  · rw [show (s'.procs q).state = ((s.table.wake me (some (.object sysTimer))).entry q).state from
      (congrArg (fun t => (Table.entry t q).state) ht :)]
    exact wake_woken s.table me _ q

theorem Served.settled (h : Served p g s g' s') (hs : Settled g s) (hl : ∀ lk, s'.locks lk = false)
    (hp : s'.InUse p → g'.own (s'.procs p).tf = .trapframe p) : Settled g' s' := by
  refine ⟨h.tenancy, fun q hq => ?_, hl⟩
  by_cases hqp : q = p
  · rw [hqp] at hq ⊢
    exact hp hq
  · exact h.frames (fun q _ => hs.frames q) q hqp hq

/-- Only the process table and its locks changed. -/
theorem Settled.tabled (h : Settled g s) (hs : s'.untabled = s.untabled) (ht : Tenancy g s')
    (hl : ∀ lk, s'.locks lk = false)
    (hused : ∀ q, s'.InUse q → s.InUse q) : Settled g s' := by
  refine ⟨ht, fun q hq => ?_, hl⟩
  rw [kept_tf (untabled_kept hs q)]
  exact h.frames q (hused q hq)

theorem dispatch_served (h : Settled g s) :
    Sat (dispatch p) s (fun _ => True)
      (fun r s' => Settled g s' ∧ (∀ q, (r = true → q = p) → Served q g s g s') ∧
      (r = true → (s'.procs p).entry.Alive)) fun _ => True := by
  refine ((keeps_dispatch p).sat s).run.imp fun r s' hs' => ?_
  obtain ⟨hk, hrun⟩ := hs'
  have ht := (dispatch_table p s).of_ok hrun
  cases r with
  | false =>
      rw [if_neg (by decide)] at ht
      have hst : ∀ q, (s'.procs q).state = (s.procs q).state :=
        fun q => (congrArg (fun t => (Table.entry t q).state) ht :)
      have hserved : ∀ q, Served q g s g s' := fun q => h.tenancy.woken hk fun q => .inl (hst q)
      refine ⟨h.tabled hk (hserved p).tenancy (fun lk => ?_) fun q hq => ?_, fun q _ =>
        hserved q, fun hr => by cases hr⟩
      · exact (congrArg (fun t => Table.held t lk) ht :).trans (h.locks lk)
      · unfold Kernel.InUse at hq
        rw [hst q] at hq
        exact hq
  | true =>
      rw [if_pos rfl] at ht
      obtain ⟨hrun, ht⟩ := ht
      have hst : ∀ q,
        (s'.procs q).entry = (s.table.set p { s.table.entry p with state := .running }).entry q :=
        fun q => (congrArg (fun t => Table.entry t q) ht :)
      have hother : ∀ q, q ≠ p → (s'.procs q).state = (s.procs q).state := by
        intro q hq
        have he := hst q
        rw [set_entry_ne hq] at he
        exact (congrArg Entry.state he :)
      have hself : (s'.procs p).state = .running := by
        have he := hst p
        rw [set_entry_self] at he
        exact (congrArg Entry.state he :)
      have halive : (s'.procs p).entry.Alive := by
        unfold Entry.Alive
        change (s'.procs p).state ≠ _ ∧ (s'.procs p).state ≠ _
        rw [hself]
        constructor <;> intro hc <;> cases hc
      have hrunnable : (s.procs p).state = .runnable := hrun
      have hserved : Served p g s g s' := by
        refine h.tenancy.tabled hk (fun q => ?_) (fun q hz => ?_) fun q hq ha => ?_
        · by_cases hq : q = p
          · rw [hq, hself, hrunnable]
            constructor <;> intro hc <;> cases hc
          · rw [hother q hq]
        · by_cases hq : q = p
          · rw [hq, hself] at hz
            cases hz
          · exact .inl ((hother q hq).symm.trans hz)
        · have hsq := hother q hq
          exact Woken.alive (.inl hsq) ha
      refine ⟨h.tabled hk hserved.tenancy (fun lk => ?_) fun q hq => ?_, fun q hq =>
        hq rfl ▸ hserved, fun _ => halive⟩
      · exact (congrArg (fun t => Table.held t lk) ht :).trans (h.locks lk)
      · by_cases hqp : q = p
        · unfold Kernel.InUse
          rw [hqp, hrunnable]
          intro hc
          cases hc
        · unfold Kernel.InUse at hq
          rw [hother q hqp] at hq
          exact hq

theorem procExit_served {status : Nat} (h : Settled g s) (hp : (s.procs p).entry.Alive) :
    Sat (procExit p status) s (fun _ => True)
      (fun _ s' => Served p g s g s' ∧ (∀ lk, s'.locks lk = false) ∧
      (s'.procs p).tf = (s.procs p).tf) fun _ => True := by
  refine ((keeps_procExit p status).sat s).run.imp fun _ s' hs' => ?_
  obtain ⟨hk, hrun⟩ := hs'
  obtain ⟨-, ht⟩ := (procExit_table p status s).of_ok hrun
  have hother : ∀ q, q ≠ p → Woken (s.procs q).state (s'.procs q).state := by
    intro q hq
    rw [show (s'.procs q).state = ((s.table.exited p status).entry q).state from
      (congrArg (fun t => (Table.entry t q).state) ht :)]
    exact exited_woken s.table p status hq
  have hself : (s'.procs p).state = .zombie := by
    rw [show (s'.procs p).state = ((s.table.exited p status).entry p).state from
      (congrArg (fun t => (Table.entry t p).state) ht :)]
    exact (congrArg Entry.state set_entry_self :)
  refine ⟨h.tenancy.tabled hk (fun q => ?_) (fun q hz => ?_) fun q hq ha => ?_, fun lk =>
    ?_, kept_tf (untabled_kept hk p)⟩
  · by_cases hq : q = p
    · rw [hq, hself]
      exact ⟨fun hc => (by cases hc), fun hc => absurd hc hp.1⟩
    · exact (hother q hq).unused
  · by_cases hq : q = p
    · rw [hq]
      exact .inr (h.frames p hp.1)
    · exact .inl ((hother q hq).zombie.mp hz)
  · exact Woken.alive (hother q hq) ha
  · have hheld : s'.table.held = s.table.held := by rw [ht, exited_held]
    exact (congrFun hheld lk).trans (h.locks lk)

/-! ## `proc_wait` -/

theorem acquire_any (lk : Lock) (s : Kernel) :
    Sat (spinlockAcquire lk) s (fun _ => True) (fun _ s' => s' = s.setLock lk true) fun _ =>
      True := by
  cases hl : s.locks lk with
  | false => exact (sat_acquire hl).mpr rfl
  | true => exact (sat_acquire_held hl).mpr trivial

theorem release_any (lk : Lock) (s : Kernel) :
    Sat (spinlockRelease lk) s (fun _ => True) (fun _ s' => s' = s.setLock lk false) fun _ =>
      True := by
  cases hl : s.locks lk with
  | true => exact (sat_release hl).mpr rfl
  | false =>
      unfold spinlockRelease
      rw [sat_bind, sat_state, if_pos (by rw [hl]; rfl), sat_bind, sat_panic]
      trivial

/-- An exited process can be taken apart. -/
theorem Tenancy.exited {pp : ProcId} (h : Tenancy g s) (hz : (s.procs pp).state = .zombie) :
    Apart (fun q => s.InUse q ∧ q ≠ pp) g s pp := by
  have hin : s.InUse pp := by
    unfold Kernel.InUse
    rw [hz]
    intro hc
    cases hc
  have ht := h.world.proc pp hin
  exact ⟨fun hc => hc.2 rfl, ht.trapframe (.inr hz), ht.space, ht.user,
    fun q hq he => hq.2 (h.world.distinct q pp hq.1 hin he), h.stacked pp hin⟩

theorem waitLoop_served {addr : Nat} (h : Tenancy g s) (hp : (s.procs p).entry.Alive)
    (hl : s.locks .mmapList = false)
    (ps : List ProcId) (havekids : Bool) :
    Sat (waitLoop p addr ps havekids) s (fun _ => True) (fun r s' => ∃ g', Served p g s g' s' ∧
      (r.1 = none → g' = g ∧ s'.untabled = s.untabled)) fun _ => True := by
  induction ps generalizing s havekids with
  | nil => exact (sat_pure _).mpr ⟨g, h.nothing, fun _ => ⟨rfl, rfl⟩⟩
  | cons pp ps ih =>
      unfold waitLoop
      rw [sat_bind, sat_procOf]
      split
      swap
      · exact ih h hp hl havekids
      refine (acquire_any (.proc pp) s).bind fun _ s₁ hs₁ => ?_
      have h₁ : Served p g s g s₁ := hs₁ ▸ h.setLock (proc_not_pool pp)
      have hl₁ : s₁.locks .mmapList = false := by
        rw [hs₁, setLock_locks, Function.update_of_ne (mmapList_not_proc pp)]
        exact hl
      have hp₁ : (s₁.procs p).entry.Alive := by
        rw [hs₁]
        exact hp
      rw [sat_bind, sat_procOf]
      split
      swap
      · refine (release_any (.proc pp) s₁).bind fun _ s₂ hs₂ => ?_
        have h₂ : Served p g s₁ g s₂ := hs₂ ▸ h₁.tenancy.setLock (proc_not_pool pp)
        have hl₂ : s₂.locks .mmapList = false := by
          rw [hs₂, setLock_locks, Function.update_of_ne (mmapList_not_proc pp)]
          exact hl₁
        have hp₂ : (s₂.procs p).entry.Alive := by
          rw [hs₂]
          exact hp₁
        have hu₂ : s₂.untabled = s.untabled := by
          rw [hs₂, untabled_setLock (proc_not_pool pp), hs₁, untabled_setLock (proc_not_pool pp)]
        refine (ih h₂.tenancy hp₂ hl₂ true).imp fun _ s' hs' => ?_
        obtain ⟨g', h₃, hnone⟩ := hs'
        exact ⟨g', (h₁.trans h₂).trans h₃, fun hr => ⟨(hnone hr).1, (hnone hr).2.trans hu₂⟩⟩
      next hz =>
      have hne : pp ≠ p := by
        rintro rfl
        exact hp₁.2 hz
      rw [sat_bind, sat_procOf]
      -- the rest, after the copy of the exit state
      have hfinish : ∀ s₂, Served p g s₁ g s₂ → s₂.locks .mmapList = false →
          (s₂.procs pp).state = .zombie → Sat (do
          procFree pp
          spinlockRelease (.proc pp)
          return (some (s₁.procs pp).pid, true)) s₂ (fun _ => True)
            (fun r s' => ∃ g', Served p g s g' s' ∧
            (r.1 = none → g' = g ∧ s'.untabled = s.untabled)) fun _ => True := by
        intro s₂ h₂ hl₂ hz₂
        rw [sat_bind]
        refine procFree_sat (h₂.tenancy.world.others pp) (h₂.tenancy.exited hz₂) hl₂ fun g₃ s₃ hd =>
          ?_
        have h₃ := hd.served h₂.tenancy hne hz₂
        refine (release_any (.proc pp) s₃).bind fun _ s₄ hs₄ => (sat_pure _).mpr ?_
        have h₄ : Served p g₃ s₃ g₃ s₄ := hs₄ ▸ h₃.tenancy.setLock (proc_not_pool pp)
        exact ⟨g₃, ((h₁.trans h₂).trans h₃).trans h₄, fun hr => absurd hr (Option.some_ne_none _)⟩
      split
      · rw [sat_bind, sat_procOf, sat_bind, sat_procOf]
        refine (uvmCopyout_world h₁.tenancy.world hp₁.1).bind fun _ s₂ hs₂ => ?_
        obtain ⟨m, rfl, hw, hsp⟩ := hs₂
        refine hfinish _ (h₁.tenancy.built hp₁.1 hw hsp rfl (fun _ _ => rfl) rfl ?_ rfl) hl₁ hz
        exact paged_of_nodes h₁.tenancy.paged rfl
      · exact hfinish s₁ h₁.tenancy.nothing hl₁ hz

/-- `proc_wait` without its locks and its table. -/
theorem procWait_served {addr : Nat} (h : Settled g s) (hp : (s.procs p).entry.Alive) :
    Sat (procWait p addr) s (fun _ => True) (fun r s' => ∃ g', Served p g s g' s' ∧
      (r = .asleep → g' = g ∧ s'.untabled = s.untabled)) fun _ => True := by
  unfold procWait
  rw [sat_bind, sat_modifyProc]
  generalize hs₁ : s.setProc p { s.procs p with sleepSpace := none } = s₁
  have hstate : ∀ q, (s₁.procs q).state = (s.procs q).state := by
    intro q
    rw [← hs₁]
    by_cases hq : q = p
    · rw [hq, setProc_self]
    · rw [setProc_other _ _ hq]
  have h₁ : Served p g s g s₁ :=
    h.tenancy.woken (hs₁ ▸ untabled_setProc rfl) fun q => .inl (hstate q)
  refine (acquire_any .wait s₁).bind fun _ s₂ hs₂ => ?_
  have h₂ : Served p g s g s₂ := h₁.trans (hs₂ ▸ h₁.tenancy.setLock wait_not_pool)
  have hp₂ : (s₂.procs p).entry.Alive := by
    rw [hs₂]
    exact Woken.alive (.inl (hstate p)) hp
  have hl₂ : s₂.locks .mmapList = false := by
    rw [hs₂, ← hs₁]
    exact h.locks .mmapList
  refine (waitLoop_served h₂.tenancy hp₂ hl₂ allProcs false).bind fun r s₃ hs₃ => ?_
  obtain ⟨g₃, h₃, hnone⟩ := hs₃
  replace h₃ := h₂.trans h₃
  have hu₂ : s₂.untabled = s.untabled := by
    rw [hs₂, untabled_setLock wait_not_pool, ← hs₁]
    exact untabled_setProc rfl
  have hrelease :
      ∀ (lk : Lock) (r : WaitResult) (s₄ : Kernel), (∀ k, lk ≠ .pmem k) → Served p g s g₃ s₄ →
        (r = .asleep → g₃ = g ∧ s₄.untabled = s.untabled) →
        Sat (do spinlockRelease lk; return r : MemM WaitResult) s₄ (fun _ => True)
          (fun r s' => ∃ g', Served p g s g' s' ∧ (r = .asleep → g' = g ∧ s'.untabled = s.untabled))
          fun _ => True := by
    intro lk r s₄ hlk h₄ hr
    refine (release_any lk s₄).bind fun _ s₅ hs₅ => (sat_pure _).mpr ⟨g₃, h₄.trans ?_, fun he => ?_⟩
    · rw [hs₅]
      exact h₄.tenancy.setLock hlk
    · rw [hs₅, untabled_setLock hlk]
      exact hr he
  obtain ⟨found, havekids⟩ := r
  cases found with
  | some pid => exact hrelease .wait _ s₃ wait_not_pool h₃ fun hr => by cases hr
  | none =>
      dsimp only
      split
      · exact hrelease .wait _ s₃ wait_not_pool h₃ fun hr => by cases hr
      obtain ⟨hg₃, hu₃⟩ := hnone rfl
      refine (acquire_any (.proc p) s₃).bind fun _ s₄ hs₄ => ?_
      have h₄ : Served p g s g₃ s₄ := h₃.trans (hs₄ ▸ h₃.tenancy.setLock (proc_not_pool p))
      refine (release_any .wait s₄).bind fun _ s₅ hs₅ => ?_
      have h₅ : Served p g s g₃ s₅ := h₄.trans (hs₅ ▸ h₄.tenancy.setLock wait_not_pool)
      rw [sat_bind, sat_modifyProc]
      have hu₅ : s₅.untabled = s.untabled := by
        rw [hs₅, untabled_setLock wait_not_pool, hs₄, untabled_setLock (proc_not_pool p)]
        exact hu₃.trans hu₂
      refine hrelease (.proc p) _ _ (proc_not_pool p) (h₅.trans ?_) fun _ =>
        ⟨hg₃, Eq.trans (untabled_setProc (s := s₅) rfl) hu₅⟩
      have hused : s₅.InUse p := h₅.here hp.1
      have hself :
          ∀ q, q ≠ p →
          ((s₅.setProc p { s₅.procs p with sleepSpace := some (.proc p), state := .sleeping }).procs
            q) =
            s₅.procs q := fun q hq => setProc_other _ _ hq
      have hnew : ((s₅.setProc p
        { s₅.procs p with sleepSpace := some (.proc p), state := .sleeping }).procs p).state =
          .sleeping := by rw [setProc_self]
      refine h₅.tenancy.tabled (untabled_setProc rfl) (fun q => ?_) (fun q hz => ?_) fun q hq ha =>
        ?_
      · by_cases hq : q = p
        · rw [hq, hnew]
          exact ⟨fun hc => (by cases hc), fun hc => absurd hc hused⟩
        · rw [hself q hq]
      · by_cases hq : q = p
        · rw [hq, hnew] at hz
          cases hz
        · rw [hself q hq] at hz
          exact .inl hz
      · rw [hself q hq]
        exact ha

theorem procWait_attended {addr : Nat} (h : Settled g s) (hp : (s.procs p).entry.Alive) :
    Sat (procWait p addr) s (fun _ => True) (fun r s' => ∃ g', Attended p g s g' s' ∧
      (r = .asleep → g' = g ∧ s'.untabled = s.untabled)) fun _ => True := by
  refine (procWait_served h hp).run.imp fun r s' hs' => ?_
  obtain ⟨⟨g', hserved, hasleep⟩, hrun⟩ := hs'
  have hw : Waited s.table p r s'.table := (procWait_table p addr s).of_ok hrun
  refine ⟨g', ⟨hserved, fun lk => ?_, fun _ => ?_⟩, hasleep⟩
  · have hheld : s'.table.held = s.table.held := by
      generalize s'.table = t' at hw
      cases hw with
      | reaped child zombie => rfl
      | noChild none => rfl
      | asleep alive kids => rfl
    exact (congrFun hheld lk).trans (h.locks lk)
  · change (s'.table.entry p).Alive
    have hp' : (s.table.entry p).Alive := hp
    generalize s'.table = t' at hw
    cases hw with
    | @reaped pp child zombie =>
        have hne : p ≠ pp := by
          rintro rfl
          exact hp'.2 zombie
        rw [set_entry_ne hne]
        unfold Table.awake
        rw [set_entry_self]
        exact hp'
    | noChild none =>
        unfold Table.awake
        rw [set_entry_self]
        exact hp'
    | asleep alive kids =>
        unfold Table.asleep
        rw [set_entry_self]
        constructor <;> intro hc <;> cases hc

end

end WhuOs.Mem
