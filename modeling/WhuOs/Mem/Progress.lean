import WhuOs.Mem.Moves
import WhuOs.Mem.Service

/-! # Calls that return

A call of `proc.c` is stopped by a lock that is held, and `proc_fork` by a lack of room.
Between two steps of the hart no lock is held: there the scheduler, `proc_exit` and
`proc_wait` return, and `proc_fork` if there is room for a child.
-/

namespace WhuOs.Mem

open Prog

/-- There is a slot and memory for a child. -/
structure Forkable (g : Ledger) (s : Kernel) (p : ProcId) : Prop where
  slot : ∃ q, (s.procs q).state = .unused
  pid : s.globalPid < 2 ^ 31
  mmap : (s.procs p).mmap = none
  heap : pgRoundUp (s.procs p).heapTop ≤ vaMax
  zero : Present s (s.procs p).pgtbl 0
  stack : ∀ w, StackPages (s.procs p).ustackBase (u32 (s.procs p).ustackPages) w →
    Present s (s.procs p).pgtbl w
  user : 1 + forkCost s (s.procs p).heapTop (s.procs p).ustackBase (u32 (s.procs p).ustackPages)
    [] ≤ (g.free false).length
  used : 4 + 2 * forkCost s (s.procs p).heapTop (s.procs p).ustackBase (u32 (s.procs p).ustackPages)
    [] ≤ (g.free true).length

/-- A process keeps its record and its mappings. -/
structure Kernel.KeepsSpace (s : Kernel) (p : ProcId) (s' : Kernel) : Prop where
  record : (s'.procs p).kept = (s.procs p).kept
  leaf : ∀ v, leaf s'.mem (s.procs p).pgtbl v = leaf s.mem (s.procs p).pgtbl v
  trampoline : s'.trampoline = s.trampoline

section

variable {g g' : Ledger} {s s' s'' : Kernel} {p q : ProcId} {c : Cpu}

theorem Kernel.KeepsSpace.trans (h : s.KeepsSpace p s') (h' : s'.KeepsSpace p s'') :
    s.KeepsSpace p s'' := by
  refine ⟨h'.record.trans h.record, fun v => ?_, h'.trampoline.trans h.trampoline⟩
  have hleaf := h'.leaf v
  rw [kept_pgtbl h.record] at hleaf
  exact hleaf.trans (h.leaf v)

theorem keepsSpace_tabled (hs : s'.untabled = s.untabled) : s.KeepsSpace p s' :=
  ⟨untabled_kept hs p, fun _ =>
    congrArg (leaf · _ _) (untabled_same hs).mem, (untabled_same hs).trampoline⟩

theorem Untouched.keepsSpace (hu : Untouched p g s g' s') (h : Settled g s) (hp : s.InUse p)
    (ht : s'.trampoline = s.trampoline) :
    s.KeepsSpace p s' := by
  refine ⟨hu.record, fun v => ?_, ht⟩
  exact h.tenancy.world.heap.leaf_frame (h.tenancy.world.proc p hp).space.live fun q x hq =>
    hu.page q (hq ▸ .table x)

/-- Writes into the trap frame keep the mappings. -/
theorem Settled.frame_keeps {m : Bytes} (h : Settled g s) (hp : s.InUse p)
    (hm : Inside (s.procs p).tf s.mem m) :
    s.KeepsSpace p (s.setMem m) := by
  have hown := h.frames p hp
  have hpage := h.tenancy.world.heap.page_of_own hown Use.noConfusion
  exact ⟨rfl, fun v =>
    h.tenancy.world.heap.write_leaf (h.tenancy.world.proc p hp).space.live hpage.1
      (by rw [hown]; trivial) hm, rfl⟩

theorem returned_of_returns {α : Type} {m : MemM α} {Q : α → Kernel → Prop}
    (h : Sat m s (fun _ => True) Q fun _ => False) :
    ∃ a s', returned m s = some (a, s') ∧ Q a s' := by
  obtain ⟨a, s', hr, hq⟩ := h.returns
  refine ⟨a, s', ?_, hq⟩
  unfold returned
  rw [hr]

/-! ## The locks -/

theorem dispatch_returns (h : s.locks (.proc p) = false) :
    Sat (dispatch p) s (fun _ => True) (fun r _ => r = true ↔ (s.procs p).state = .runnable)
      fun _ => False := by
  unfold dispatch
  rw [sat_bind, sat_acquire h, sat_bind, sat_procOf]
  split
  · next hst =>
    rw [sat_bind, sat_modifyProc, sat_bind, sat_release (by simp), sat_pure]
    exact ⟨fun _ => hst, fun _ => rfl⟩
  · next hst =>
    rw [sat_bind, sat_release (by simp), sat_pure]
    exact ⟨fun hc => (by cases hc), fun hc => absurd hc hst⟩

theorem wakeupLoop_returns (me : Option ProcId) (space : Option Chan) (ps : List ProcId)
    (h : ∀ q, some q ≠ me → s.locks (.proc q) = false) :
    Sat (wakeupLoop me space ps) s (fun _ => True) (fun _ s' => s'.locks = s.locks) fun _ =>
      False := by
  induction ps generalizing s with
  | nil => exact (sat_pure _).mpr rfl
  | cons p ps ih =>
      unfold wakeupLoop
      split
      swap
      · exact ih h
      next hme =>
      -- the lock of `p` is given back in both cases
      have hrest :
        ∀ s₁ : Kernel,
        s₁.locks = Function.update (Function.update s.locks (.proc p) true) (.proc p) false →
          Sat (wakeupLoop me space ps) s₁ (fun _ => True) (fun _ s' => s'.locks = s.locks) fun _ =>
            False := by
        intro s₁ h₁
        rw [relock (h p hme)] at h₁
        refine (ih fun q hq => ?_).imp fun _ s' hs' => hs'.trans h₁
        rw [h₁]
        exact h q hq
      rw [sat_bind, sat_acquire (h p hme), sat_bind, sat_procOf]
      split
      · rw [sat_bind, sat_modifyProc, sat_bind, sat_release (by simp)]
        exact hrest _ rfl
      · rw [sat_bind, sat_release (by simp)]
        exact hrest _ rfl

theorem reparentLoop_returns (parent : ProcId) (ps : List ProcId)
    (h : ∀ q, s.locks (.proc q) = false) :
    Sat (reparentLoop parent ps) s (fun _ => True) (fun _ s' => s'.locks = s.locks) fun _ =>
      False := by
  induction ps generalizing s with
  | nil => exact (sat_pure _).mpr rfl
  | cons pp ps ih =>
      unfold reparentLoop
      rw [sat_bind, sat_procOf]
      split
      swap
      · exact ih h
      have hwake :=
        fun (x : Proc) space => wakeupLoop_returns (some parent) space allProcs fun q _ =>
        show (s.setProc pp x).locks (.proc q) = false from h q
      rw [sat_bind, sat_state, sat_bind, sat_modifyProc, sat_bind]
      refine (hwake _ _).imp fun _ s₁ h₁ => ?_
      refine (ih fun q => ?_).imp fun _ s' hs' => hs'.trans h₁
      rw [h₁]
      exact h q

theorem procExit_returns (hz : s.proczero ≠ some p) (h : ∀ lk, s.locks lk = false) (status : Nat) :
    Sat (procExit p status) s (fun _ => True) (fun _ _ => True) fun _ => False := by
  have hproc : ∀ q : ProcId, Lock.proc q ≠ .wait := fun q => Lock.noConfusion
  unfold procExit
  rw [sat_bind, sat_state, sat_bind, sat_assert (by simpa using hz), sat_bind,
    sat_acquire (h .wait), sat_bind]
  refine (reparentLoop_returns p allProcs fun q => ?_).imp fun _ s₁ h₁ => ?_
  · rw [setLock_locks, Function.update_of_ne (hproc q)]
    exact h _
  rw [sat_bind, sat_procOf, sat_bind]
  have hfree : ∀ q, s₁.locks (.proc q) = false := by
    intro q
    rw [h₁, setLock_locks, Function.update_of_ne (hproc q)]
    exact h _
  refine (wakeupLoop_returns _ _ allProcs fun q _ => hfree q).imp fun _ s₂ h₂ => ?_
  have hwait : s₂.locks .wait = true := by
    rw [h₂, h₁, setLock_locks, Function.update_self]
  rw [sat_bind, sat_acquire (by rw [h₂]; exact hfree p), sat_bind, sat_modifyProc, sat_bind,
    sat_release, sat_release]
  · trivial
  · simp
  · simp [hwait]

/-- Without an address for the status the scan for exited children returns. -/
theorem waitLoop_returns (h : Tenancy g s) (hp : (s.procs p).entry.Alive)
    (hl : ∀ q, s.locks (.proc q) = false)
    (hlist : s.locks .mmapList = false) (ps : List ProcId) (havekids : Bool) :
    Sat (waitLoop p 0 ps havekids) s (fun _ => True) (fun _ s' => s'.locks = s.locks) fun _ =>
      False := by
  induction ps generalizing s havekids with
  | nil => exact (sat_pure _).mpr rfl
  | cons pp ps ih =>
      unfold waitLoop
      rw [sat_bind, sat_procOf]
      split
      swap
      · exact ih h hp hl hlist havekids
      rw [sat_bind, sat_acquire (hl pp), sat_bind, sat_procOf]
      have h₁ := h.setLock (proc_not_pool pp) (b := true) (p := p)
      split
      swap
      · rw [sat_bind, sat_release (by simp)]
        have hsame : ((s.setLock (.proc pp) true).setLock (.proc pp) false).locks = s.locks :=
        relock (hl pp)
        have h₂ := h₁.tenancy.setLock (proc_not_pool pp) (b := false) (p := p)
        refine (ih h₂.tenancy hp (fun q => ?_) ?_ true).imp fun _ s' hs' => hs'.trans hsame
        · rw [hsame]
          exact hl q
        · rw [hsame]
          exact hlist
      next hz =>
      rw [sat_bind, sat_procOf, if_neg (by decide), sat_bind]
      refine procFree_sat (h₁.tenancy.world.others pp) (h₁.tenancy.exited hz) hlist fun g₂ s₂ hd =>
        ?_
      have hlocks : s₂.locks = (s.setLock (.proc pp) true).locks :=
        (congrArg Kernel.locks hd.rest :).trans (unlisted_locks _ _)
      rw [sat_bind, sat_release (by rw [hlocks]; simp), sat_pure,
        setLock_locks, hlocks, setLock_locks]
      exact relock (hl pp)

/-- Without an address for the status a pass of `proc_wait` returns. -/
theorem procWait_returns (h : Settled g s) (hp : (s.procs p).entry.Alive) :
    Sat (procWait p 0) s (fun _ => True) (fun _ _ => True) fun _ => False := by
  have hproc : ∀ q : ProcId, Lock.proc q ≠ .wait := fun q => Lock.noConfusion
  unfold procWait
  rw [sat_bind, sat_modifyProc]
  generalize hs₁ : s.setProc p { s.procs p with sleepSpace := none } = s₁
  have hlocks : s₁.locks = s.locks := by rw [← hs₁]; rfl
  have hstate : ∀ q, (s₁.procs q).state = (s.procs q).state := by
    intro q
    rw [← hs₁]
    by_cases hq : q = p
    · rw [hq, setProc_self]
    · rw [setProc_other _ _ hq]
  have h₁ : Served p g s g s₁ :=
    h.tenancy.woken (hs₁ ▸ untabled_setProc rfl) fun q => .inl (hstate q)
  have h₂ := h₁.tenancy.setLock wait_not_pool (b := true) (p := p)
  have hfree : ∀ q, (s₁.setLock .wait true).locks (.proc q) = false := by
    intro q
    rw [setLock_locks, Function.update_of_ne (hproc q), hlocks]
    exact h.locks _
  have hlist : (s₁.setLock .wait true).locks .mmapList = false := by
    rw [setLock_locks, Function.update_of_ne Lock.noConfusion, hlocks]
    exact h.locks _
  rw [sat_bind, sat_acquire (by rw [hlocks]; exact h.locks .wait)]
  refine (waitLoop_returns h₂.tenancy (Woken.alive (.inl (hstate p)) hp) hfree hlist allProcs
    false).bind fun r s₃ h₃ => ?_
  have hwait : s₃.locks .wait = true := by
    rw [h₃, setLock_locks, Function.update_self]
  have hrelease :
    ∀ r : WaitResult, Sat (do spinlockRelease .wait; return r : MemM WaitResult) s₃ (fun _ => True)
      (fun _ _ => True) fun _ => False := by
    intro r
    rw [sat_bind, sat_release hwait, sat_pure]
    trivial
  obtain ⟨found, havekids⟩ := r
  cases found with
  | some pid => exact hrelease _
  | none =>
      dsimp only
      split
      · exact hrelease _
      rw [sat_bind, sat_acquire (by rw [h₃]; exact hfree p), sat_bind, sat_release, sat_bind,
        sat_modifyProc, sat_bind, sat_release,
        sat_pure]
      · trivial
      · simp
      · simp [hwait]

/-! ## A child -/

theorem Forkable.keeps (h : Forkable g s p) (hs : s.KeepsSpace p s')
    (hpid : s'.globalPid = s.globalPid)
    (hslot : ∃ q, (s'.procs q).state = .unused) : Forkable g s' p := by
  have hheap : (s'.procs p).heapTop = (s.procs p).heapTop := (congrArg Proc.heapTop hs.record :)
  have hbase : (s'.procs p).ustackBase = (s.procs p).ustackBase :=
    (congrArg Proc.ustackBase hs.record :)
  have hpages : (s'.procs p).ustackPages = (s.procs p).ustackPages :=
    (congrArg Proc.ustackPages hs.record :)
  have hpresent : ∀ v, Present s (s.procs p).pgtbl v → Present s' (s'.procs p).pgtbl v := by
    intro v hv
    unfold Present
    rw [kept_pgtbl hs.record, hs.leaf]
    exact hv
  refine ⟨hslot, hpid ▸ h.pid, Eq.trans (congrArg Proc.mmap hs.record :) h.mmap, ?_,
    hpresent 0 h.zero,
    fun w hw => hpresent w (h.stack w ?_), ?_, ?_⟩
  · rw [hheap]
    exact h.heap
  · rw [← hbase, ← hpages]
    exact hw
  · rw [hheap, hbase, hpages]
    exact h.user
  · rw [hheap, hbase, hpages]
    exact h.used

/-- With room for it the child gets the first free slot, and its parent keeps its address space. -/
theorem procFork_returns (h : Settled g s) (hp : (s.procs p).entry.Alive) (hf : Forkable g s p) :
    Sat (procFork p) s (fun _ => True)
      (fun r s' => ∃ np g', r = some s.globalPid ∧ (s.procs np).state = .unused ∧
      (∀ q, q < np → (s.procs q).state ≠ .unused) ∧ s'.table = s.table.forked p np ∧ Settled g' s' ∧
      s.KeepsSpace p s') fun _ => False := by
  refine procFork_sat h.tenancy.world hp.1
    (fun q hq => ⟨fun hc => hc hq, h.tenancy.vacant q hq, h.tenancy.unstacked q hq⟩)
    h.locks h.tenancy.trampoline h.tenancy.paged (h.tenancy.stackBase p hp.1)
    (fun hc => absurd ⟨hf.pid, hf.mmap, hf.heap, hf.zero, hf.stack, hf.user, hf.used⟩ hc)
      (fun hfull => ?_)
    fun np l g' s' hnp hfirst _ _ hc => ?_
  · obtain ⟨q, hq⟩ := hf.slot
    exact absurd hq (hfull q)
  obtain ⟨tf, pgtbl, mmap, nodes, -, -, hrest⟩ := hc.rest
  have hprocs : ∀ q, q ≠ np → s'.procs q = s.procs q := fun q hq =>
    (congrFun (congrArg Kernel.procs hrest) q :).trans (Function.update_of_ne hq _ _)
  have hserved := hc.served h.tenancy hp.1 hnp
  have hpn : p ≠ np := by
    rintro rfl
    exact hp.1 hnp
  have hroot : (s.procs p).pgtbl ≠ (s'.procs np).pgtbl := by
    intro he
    refine hpn (hc.world.distinct p np (.inl hp.1) (.inr rfl) ?_)
    rw [hprocs p hpn]
    exact he
  have huntouched : Untouched p g s g' s' :=
    hc.spared.untouched h.tenancy.world (congrArg Proc.kept (hprocs p hpn)) fun u hu =>
    hu.not_own hroot (h.tenancy.world.proc p hp.1).user hpn
  refine ⟨np, g', rfl, hnp, hfirst, ?_, ⟨hserved.tenancy, fun q hq => ?_, fun lk => ?_⟩, 
    huntouched.keepsSpace h hp.1 (congrArg Kernel.trampoline hrest :)⟩
  · refine Eq.trans (congrArg Kernel.table hrest :) (Table.ext ?_ rfl rfl rfl)
    funext q
    change (Function.update s.procs np _ q).entry =
      Function.update (fun q => (s.procs q).entry) np _ q
    by_cases hq : q = np
    · subst hq
      rw [Function.update_self, Function.update_self]
      rfl
    · rw [Function.update_of_ne hq, Function.update_of_ne hq]
  · by_cases hqn : q = np
    · rw [hqn]
      exact hc.trapframe
    · rw [hprocs q hqn]
      unfold Kernel.InUse at hq
      rw [hprocs q hqn] at hq
      refine hc.spared.trapframe h.tenancy.world (h.frames q hq) fun hu => ?_
      cases hu with
      | user hu => exact UserUse.not_trapframe hu
      | trapframe => exact hqn rfl
  · exact (congrFun (congrArg Kernel.locks hrest) lk :).trans (h.locks lk)

/-! ## Steps of the hart -/

theorem Cpu.outside_eq (hproc : c.proc = some p) (hres : c.resume p = .user) :
    c.outside = some p := by
  unfold Cpu.outside
  rw [hproc, Option.filter_some, if_pos (by simpa using hres)]

theorem Cpu.step_schedule (hidle : c.proc = none) (h : Settled g c.kernel)
    (hst : (c.kernel.procs p).state = .runnable) :
    ∃ s', c.step (.schedule p) = some { c with kernel := s', proc := some p } ∧ Settled g s' ∧
      s'.untabled = c.kernel.untabled ∧
      s'.table = c.kernel.table.set p { c.kernel.table.entry p with state := .running } := by
  obtain ⟨r, s', hret, hr⟩ := returned_of_returns (dispatch_returns (h.locks (.proc p)))
  obtain rfl := hr.mpr hst
  obtain ⟨hs', -, -⟩ := returned_sat (dispatch_served h) hret
  obtain ⟨-, ht⟩ := returned_sat (dispatch_table p c.kernel) hret
  have hu := returned_sat ((keeps_dispatch p).sat c.kernel) hret
  refine ⟨s', ?_, hs', hu, ht⟩
  unfold Cpu.step
  dsimp only
  rw [if_pos hidle, hret]
  rfl

theorem Cpu.step_fork (hproc : c.proc = some p) (hres : c.resume p = .user) (h : Settled g c.kernel)
    (hp : (c.kernel.procs p).entry.Alive) (hf : Forkable g c.kernel p) :
    ∃ np g' s', c.step .fork = some { c with kernel := s' } ∧ (c.kernel.procs np).state = .unused ∧
      (∀ q, q < np → (c.kernel.procs q).state ≠ .unused) ∧ Settled g' s' ∧
      s'.table = c.kernel.table.forked p np := by
  obtain ⟨r, s', hret, np, g', -, hnp, hfirst, ht, hs', -⟩ :=
    returned_of_returns (procFork_returns h hp hf)
  refine ⟨np, g', s', ?_, hnp, hfirst, hs', ht⟩
  unfold Cpu.step
  dsimp only
  rw [Cpu.outside_eq hproc hres, Option.bind_eq_bind, Option.bind_some, hret]
  rfl

theorem Cpu.step_exit (hproc : c.proc = some p) (hres : c.resume p = .user) (h : Settled g c.kernel)
    (hp : (c.kernel.procs p).entry.Alive) (hz : c.kernel.proczero ≠ some p) (status : Nat) :
    ∃ s', c.step (.exit status) = some
        ⟨s', none, Function.update c.resume p .user,
          .exited (c.kernel.procs p).pid status :: c.history⟩ ∧
      Settled g s' ∧ s'.table = c.kernel.table.exited p status := by
  obtain ⟨u, s', hret, -⟩ := returned_of_returns (procExit_returns hz h.locks status)
  obtain ⟨hserved, hlocks, htf⟩ := returned_sat (procExit_served h hp) hret
  obtain ⟨-, ht⟩ := returned_sat (procExit_table p status c.kernel) hret
  refine ⟨s', ?_, hserved.settled h hlocks fun _ => ?_, ht⟩
  · unfold Cpu.step
    dsimp only
    rw [Cpu.outside_eq hproc hres, Option.bind_eq_bind, Option.bind_some, hret]
    rfl
  · rw [htf]
    exact h.frames p hp.1

/-- A pass of `proc_wait(0)`. -/
theorem waits (h : Settled g s) (hp : (s.procs p).entry.Alive) :
    ∃ r s', returned (procWait p 0) s = some (r, s') ∧ Waited s.table p r s'.table ∧
    (r = .asleep → Settled g s') := by
  obtain ⟨r, s', hret, -⟩ := returned_of_returns (procWait_returns h hp)
  obtain ⟨g', hatt, hasleep⟩ := returned_sat (procWait_attended h hp) hret
  refine ⟨r, s', hret, returned_sat (procWait_table p 0 s) hret, fun hr => ?_⟩
  obtain ⟨rfl, hs'⟩ := hasleep hr
  refine hatt.served.settled h hatt.locks fun _ => ?_
  rw [kept_tf (untabled_kept hs' p)]
  exact h.frames p hp.1

theorem Cpu.waitPass_asleep (h : Settled g c.kernel) (hp : (c.kernel.procs p).entry.Alive)
    (halive : ∀ q, (c.kernel.procs q).parent = some p → (c.kernel.procs q).state ≠ .zombie)
    (hkids : ∃ q, (c.kernel.procs q).parent = some p) :
    ∃ s', c.waitPass p 0 = some ⟨s', none, Function.update c.resume p (.wait 0), c.history⟩ ∧
    Settled g s' ∧
      s'.table = c.kernel.table.asleep p := by
  obtain ⟨r, s', hret, hw, hs'⟩ := waits h hp
  unfold Cpu.waitPass
  rw [hret]
  generalize ht : s'.table = t' at hw
  cases hw with
  | reaped child zombie => exact absurd zombie (halive _ child)
  | noChild none =>
      obtain ⟨q, hq⟩ := hkids
      exact absurd hq (none q)
  | asleep alive kids => exact ⟨s', rfl, hs' rfl, ht⟩

/-- The only child has exited. -/
theorem Cpu.waitPass_reaped (h : Settled g c.kernel) (hp : (c.kernel.procs p).entry.Alive)
    (hq : (c.kernel.procs q).parent = some p) (hz : (c.kernel.procs q).state = .zombie)
    (honly : ∀ q', (c.kernel.procs q').parent = some p → q' = q) :
    ∃ s', c.waitPass p 0 = some ⟨s', c.proc, Function.update c.resume p .user,
        .waited p (.reaped (c.kernel.procs q).pid) :: c.history⟩ ∧
      s'.table = (c.kernel.table.awake p).set q .blank := by
  obtain ⟨r, s', hret, hw, hs'⟩ := waits h hp
  unfold Cpu.waitPass
  rw [hret]
  generalize ht : s'.table = t' at hw
  cases hw with
  | reaped child zombie =>
      obtain rfl := honly _ child
      exact ⟨s', rfl, ht⟩
  | noChild none => exact absurd hq (none q)
  | asleep alive kids => exact absurd hz (alive q hq)

end

end WhuOs.Mem
