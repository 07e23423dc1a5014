import WhuOs.Mem.Sched

/-! # Moves of the process table

The machine of one hart, seen through its process table: every step of the kernel is
one of a few moves, which say all that the step does to the table, to the process that
has the hart and to the history.
-/

namespace WhuOs.Mem

open Prog

/-- What is seen of the machine. -/
structure View where
  table : Table
  proc : Option ProcId
  resume : ProcId → Resume
  history : List Note

def Cpu.view (c : Cpu) : View := ⟨c.kernel.table, c.proc, c.resume, c.history⟩

def Table.begun (t : Table) (np : ProcId) : Table :=
  { t.set np { t.entry np with pid := t.globalPid, state := .runnable } with
    globalPid := t.globalPid + 1, proczero := some np }

/-- What a step can do. -/
inductive Move (v : View) : View → Prop where
  | makeFirst {np : ProcId} (zero : v.table.proczero = none) (idle : v.proc = none)
      (unused : (v.table.entry np).state = .unused) : Move v { v with table := v.table.begun np }
  | dispatch {p : ProcId} (idle : v.proc = none) (runnable : (v.table.entry p).state = .runnable) :
      Move v { v with table := v.table.set p { v.table.entry p with state := .running }, proc := some p }
  /-- The process cannot run, or there is no slot for a child. -/
  | stay : Move v v
  | fork {p np : ProcId} (here : v.proc = some p) (outside : v.resume p = .user)
      (unused : (v.table.entry np).state = .unused) : Move v { v with table := v.table.forked p np }
  /-- There is no memory for a child. -/
  | abandon {np : ProcId} (unused : (v.table.entry np).state = .unused) : Move v { v with table := v.table.abandoned np }
  | yield {p : ProcId} (here : v.proc = some p) (outside : v.resume p = .user) :
      Move v { v with table := v.table.set p { v.table.entry p with state := .runnable }, proc := none }
  | sleep {p : ProcId} (space : Chan) (lk : Lock) (here : v.proc = some p) (outside : v.resume p = .user) :
      Move v { v with
        table := v.table.set p { v.table.entry p with sleepSpace := some space, state := .sleeping }
        proc := none, resume := Function.update v.resume p (.sleep lk) }
  | wakeup (space : Chan) : Move v { v with table := v.table.wake v.proc (some space) }
  | exit {p : ProcId} (status : Nat) (here : v.proc = some p) (outside : v.resume p = .user)
      (nonzero : v.table.proczero ≠ some p) :
      Move v ⟨v.table.exited p status, none, Function.update v.resume p .user,
        .exited (v.table.entry p).pid status :: v.history⟩
  | reap {p pp : ProcId} (here : v.proc = some p) (child : (v.table.entry pp).parent = some p)
      (zombie : (v.table.entry pp).state = .zombie) :
      Move v { v with
        table := (v.table.awake p).set pp .blank, resume := Function.update v.resume p .user
        history := .waited p (.reaped (v.table.entry pp).pid) :: v.history }
  | noChild {p : ProcId} (here : v.proc = some p) (childless : ∀ pp, (v.table.entry pp).parent ≠ some p) :
      Move v { v with
        table := v.table.awake p, resume := Function.update v.resume p .user
        history := .waited p .noChild :: v.history }
  | wait {p : ProcId} (addr : Nat) (here : v.proc = some p)
      (alive : ∀ pp, (v.table.entry pp).parent = some p → (v.table.entry pp).state ≠ .zombie)
      (kids : ∃ pp, (v.table.entry pp).parent = some p) :
      Move v { v with
        table := v.table.asleep p, proc := none, resume := Function.update v.resume p (.wait addr) }
  /-- The end of `proc_sleep`. -/
  | goOn {p : ProcId} (here : v.proc = some p) :
      Move v { v with table := v.table.awake p, resume := Function.update v.resume p .user }

section

variable {s s' : Kernel} {t : Table} {p q : ProcId} {lk : Lock} {c c' : Cpu} {a : Act}

theorem returned_sat {α : Type} {m : MemM α} {x : α} {Q : α → Kernel → Prop} {E : Panic → Prop}
    (h : Sat m s (fun _ => True) Q E) (hr : returned m s = some (x, s')) : Q x s' := by
  unfold returned at hr
  cases hm : (m s).1 with
  | error e =>
      rw [hm] at hr
      cases hr
  | ok r =>
      rw [hm] at hr
      obtain rfl := Option.some.inj hr
      exact h.of_ok hm

/-! ## The functions around the switch -/

/-- A change of an entry under the lock of the process. -/
theorem set_locked {e : Entry} (h : t.held (.proc p) = false) : ((t.hold (.proc p) true).set p e).hold (.proc p) false = t.set p e :=
  Table.ext rfl rfl rfl (relock h)

theorem dispatch_table (p : ProcId) (s : Kernel) :
    Sat (dispatch p) s (fun _ => True) (fun r s' =>
      if r then (s.table.entry p).state = .runnable ∧ s'.table = s.table.set p { s.table.entry p with state := .running }
      else s'.table = s.table) (· ≠ .release) := by
  unfold dispatch
  refine (acquire_table _ s).bind fun _ s₁ h₁ => ?_
  obtain ⟨hfree, h₁⟩ := h₁
  have hentry : (s₁.procs p).entry = s.table.entry p := (congrArg (fun t => Table.entry t p) h₁ :)
  rw [sat_bind, sat_procOf]
  split
  · next hst =>
    rw [sat_bind, sat_modifyProc]
    refine (release_table (by rw [table_setProc, h₁]; exact hold_self)).bind fun _ s₂ h₂ => (sat_pure _).mpr ?_
    rw [if_pos rfl, ← hentry]
    refine ⟨hst, ?_⟩
    rw [h₂, table_setProc, h₁]
    exact set_locked hfree
  · refine (release_table (by rw [h₁, hold_self])).bind fun _ s₂ h₂ => (sat_pure _).mpr ?_
    rw [if_neg (by decide), h₂, h₁, hold_restore hfree]

theorem procYield_table (p : ProcId) (s : Kernel) :
    Sat (procYield p) s (fun _ => True)
      (fun _ s' => s'.table = s.table.set p { s.table.entry p with state := .runnable }) (· ≠ .release) := by
  unfold procYield
  refine (acquire_table _ s).bind fun _ s₁ h₁ => ?_
  obtain ⟨hfree, h₁⟩ := h₁
  have hentry : (s₁.procs p).entry = s.table.entry p := (congrArg (fun t => Table.entry t p) h₁ :)
  rw [sat_bind, sat_modifyProc]
  refine (release_table (by rw [table_setProc, h₁]; exact hold_self)).imp fun _ s₂ h₂ => ?_
  rw [h₂, table_setProc, h₁, ← hentry]
  exact set_locked hfree

/-- The caller takes the lock, and `proc_sleep` gives it back. -/
theorem procSleep_table (p : ProcId) (space : Chan) (lk : Lock) (s : Kernel) :
    Sat (do spinlockAcquire lk; procSleep p space lk) s (fun _ => True)
      (fun _ s' => s'.table = s.table.set p { s.table.entry p with sleepSpace := some space, state := .sleeping })
      (· ≠ .release) := by
  unfold procSleep
  refine (acquire_table _ s).bind fun _ s₁ h₁ => ?_
  obtain ⟨hlk, h₁⟩ := h₁
  refine (acquire_table _ s₁).bind fun _ s₂ h₂ => ?_
  obtain ⟨hproc, h₂⟩ := h₂
  rw [h₁] at hproc h₂
  have hne : lk ≠ .proc p := by
    rintro rfl
    rw [hold_self] at hproc
    cases hproc
  have hfree : s.table.held (.proc p) = false := by
    have hother : (s.table.hold lk true).held (.proc p) = s.table.held (.proc p) :=
      Function.update_of_ne (Ne.symm hne) _ _
    rw [← hother]
    exact hproc
  have hentry : (s₂.procs p).entry = s.table.entry p := (congrArg (fun t => Table.entry t p) h₂ :)
  refine (release_table ?_).bind fun _ s₃ h₃ => ?_
  · rw [h₂]
    exact (Function.update_of_ne hne _ _).trans hold_self
  have hentry₃ : (s₃.procs p).entry = s.table.entry p := (congrArg (fun t => Table.entry t p) h₃ :).trans hentry
  rw [sat_bind, sat_modifyProc]
  refine (release_table ?_).imp fun _ s₄ h₄ => ?_
  · rw [table_setProc, h₃, h₂]
    exact (Function.update_of_ne (Ne.symm hne) _ _).trans hold_self
  rw [h₄, table_setProc, h₃, h₂, ← hentry₃]
  exact Table.ext rfl rfl rfl (relock_both hne hlk hfree)

theorem procSleepEnd_table (p : ProcId) (lk : Lock) (s : Kernel) :
    Sat (do procSleepEnd p lk; spinlockRelease lk) s (fun _ => True) (fun _ s' => s'.table = s.table.awake p)
      (· ≠ .release) := by
  unfold procSleepEnd
  rw [sat_bind, sat_bind, sat_modifyProc]
  refine (acquire_table _ _).imp fun _ s₁ h₁ => ?_
  obtain ⟨hfree, h₁⟩ := h₁
  refine (release_table (by rw [h₁, hold_self])).imp fun _ s₂ h₂ => ?_
  rw [h₂, h₁, hold_restore hfree, table_setProc]
  rfl

theorem procMakeFirst_table (s : Kernel) :
    Sat procMakeFirst s (fun _ => True)
      (fun _ s' => ∃ np, (s.table.entry np).state = .unused ∧ s'.table = s.table.begun np) (· ≠ .release) := by
  unfold procMakeFirst
  refine (procAlloc_table s).bind fun r s₁ h₁ => ?_
  cases r with
  | none => exact (sat_panic _).mpr nofun
  | some np =>
      generalize ht₁ : s₁.table = t₁ at h₁
      cases h₁ with
      | done hst hfree hlt =>
      dsimp only
      rw [sat_bind, sat_modify]
      generalize hs₂ : ({ s₁ with proczero := some np } : Kernel) = s₂
      have h₂ : s₂.table = { s.table.allocated np with proczero := some np } := by
        rw [← hs₂, ← ht₁]
        rfl
      have hset : ∀ {f : Proc → Proc}, (∀ x, (f x).entry = x.entry) → ∀ {s₃ : Kernel}, s₃.table = s₂.table →
          (s₃.setProc np (f (s₃.procs np))).table = s₂.table := by
        intro f hf s₃ he
        rw [table_setProc, hf, ← he]
        exact set_self
      refine (pmemAlloc_steady false s₂).bind fun pa s₃ h₃ => ?_
      split
      · exact (sat_bind.mpr ((sat_panic _).mpr nofun))
      refine (clearPage_steady pa s₃).bind fun _ s₄ h₄ => ?_
      rw [sat_bind, sat_procOf]
      refine (vmMappages_steady _ _ _ _ _ s₄).bind fun _ s₅ h₅ => ?_
      refine (storeBytes_steady _ _ _ s₅).bind fun _ s₆ h₆ => ?_
      have ht₆ : s₆.table = s₂.table := h₆.trans (h₅.trans (h₄.trans h₃))
      rw [sat_bind, sat_modifyProc, sat_bind, sat_modifyProc]
      have ht₇ := hset (f := fun x => { x with heapTop := pgSize }) (fun _ => rfl) ht₆
      have ht₈ := hset (f := fun x => { x with ustackBase := 0x10000, ustackPages := 1 }) (fun _ => rfl) ht₇
      refine (pmemAlloc_steady false _).bind fun pa' s₉ h₉ => ?_
      split
      · exact (sat_bind.mpr ((sat_panic _).mpr nofun))
      refine (clearPage_steady pa' s₉).bind fun _ s₁₀ h₁₀ => ?_
      rw [sat_bind, sat_procOf, sat_bind, sat_procOf]
      refine (vmMappages_steady _ _ _ _ _ s₁₀).bind fun _ s₁₁ h₁₁ => ?_
      rw [sat_bind, sat_procOf]
      refine (store_steady _ _ s₁₁).bind fun _ s₁₂ h₁₂ => ?_
      rw [sat_bind, sat_procOf, sat_bind, sat_procOf]
      refine (store_steady _ _ s₁₂).bind fun _ s₁₃ h₁₃ => ?_
      have ht₁₃ : s₁₃.table = { s.table.allocated np with proczero := some np } :=
        h₁₃.trans (h₁₂.trans (h₁₁.trans (h₁₀.trans (h₉.trans (ht₈.trans h₂)))))
      have hentry : (s₁₃.procs np).entry = { s.table.entry np with pid := s.table.globalPid, state := .runnable } := by
        have he : s₁₃.table.entry np = _ := (congrArg (fun t => Table.entry t np) ht₁₃ :)
        exact he.trans set_entry_self
      have hnew : Proc.entry { s₁₃.procs np with state := .runnable } =
          { s.table.entry np with pid := s.table.globalPid, state := .runnable } := by
        have he := congrArg (fun e : Entry => { e with state := .runnable }) hentry
        exact he
      rw [sat_bind, sat_modifyProc]
      refine (release_table (by rw [table_setProc, ht₁₃]; exact hold_self)).imp fun _ s₁₄ h₁₄ => ⟨np, hst, ?_⟩
      rw [h₁₄, table_setProc, ht₁₃, hnew]
      exact Table.ext (Function.update_idem _ _ _) rfl rfl (relock hfree)

/-! ## Every step is a move -/

theorem outside_some (h : c.outside = some p) : c.view.proc = some p ∧ c.view.resume p = .user := by
  unfold Cpu.outside at h
  obtain ⟨h1, h2⟩ := Option.filter_eq_some_iff.mp h
  exact ⟨h1, of_decide_eq_true h2⟩

theorem waitPass_move {addr : Nat} (hp : c.proc = some p) (h : c.waitPass p addr = some c') : Move c.view c'.view := by
  unfold Cpu.waitPass at h
  obtain ⟨⟨r, s⟩, hr, h⟩ := Option.bind_eq_some_iff.mp h
  have hw : Waited c.kernel.table p r s.table := returned_sat (procWait_table p addr c.kernel) hr
  cases r with
  | reaped pid =>
      obtain rfl := Option.some.inj h
      unfold Cpu.view
      dsimp only
      generalize s.table = t at hw
      cases hw with
      | reaped child zombie => exact Move.reap (v := c.view) hp child zombie
  | noChild =>
      obtain rfl := Option.some.inj h
      unfold Cpu.view
      dsimp only
      generalize s.table = t at hw
      cases hw with
      | noChild none => exact Move.noChild (v := c.view) hp none
  | asleep =>
      obtain rfl := Option.some.inj h
      unfold Cpu.view
      dsimp only
      generalize s.table = t at hw
      cases hw with
      | asleep alive kids => exact Move.wait (v := c.view) addr hp alive kids

theorem step_move (h : c.step a = some c') : Move c.view c'.view := by
  cases a with
  | makeFirst =>
      unfold Cpu.step at h
      dsimp only at h
      split at h
      swap
      · cases h
      next hc =>
      obtain ⟨⟨u, s⟩, hr, h⟩ := Option.bind_eq_some_iff.mp h
      obtain rfl := Option.some.inj h
      obtain ⟨np, hst, ht⟩ := returned_sat (procMakeFirst_table c.kernel) hr
      unfold Cpu.view
      dsimp only
      rw [ht]
      exact Move.makeFirst (v := c.view) hc.1 hc.2 hst
  | schedule p =>
      unfold Cpu.step at h
      dsimp only at h
      split at h
      swap
      · cases h
      next hc =>
      obtain ⟨⟨r, s⟩, hr, h⟩ := Option.bind_eq_some_iff.mp h
      obtain rfl := Option.some.inj h
      have hd := returned_sat (dispatch_table p c.kernel) hr
      unfold Cpu.view
      dsimp only
      cases r with
      | true =>
          rw [if_pos rfl] at hd ⊢
          rw [hd.2]
          exact Move.dispatch (v := c.view) hc hd.1
      | false =>
          rw [if_neg (by decide)] at hd ⊢
          rw [hd, ← hc]
          exact Move.stay
  | fork =>
      obtain ⟨p, hp, h⟩ := Option.bind_eq_some_iff.mp h
      obtain ⟨⟨r, s⟩, hr, h⟩ := Option.bind_eq_some_iff.mp h
      obtain rfl := Option.some.inj h
      obtain ⟨h1, h2⟩ := outside_some hp
      have hf : Forked c.kernel.table p r s.table := returned_sat (procFork_table p c.kernel) hr
      unfold Cpu.view
      dsimp only
      generalize s.table = t at hf
      cases hf with
      | full => exact Move.stay
      | failed unused => exact Move.abandon (v := c.view) unused
      | done unused bound => exact Move.fork (v := c.view) h1 h2 unused
  | yield =>
      obtain ⟨p, hp, h⟩ := Option.bind_eq_some_iff.mp h
      obtain ⟨⟨r, s⟩, hr, h⟩ := Option.bind_eq_some_iff.mp h
      obtain rfl := Option.some.inj h
      obtain ⟨h1, h2⟩ := outside_some hp
      have ht := returned_sat (procYield_table p c.kernel) hr
      unfold Cpu.view
      dsimp only
      rw [ht]
      exact Move.yield (v := c.view) h1 h2
  | sleep space lk =>
      obtain ⟨p, hp, h⟩ := Option.bind_eq_some_iff.mp h
      obtain ⟨⟨r, s⟩, hr, h⟩ := Option.bind_eq_some_iff.mp h
      obtain rfl := Option.some.inj h
      obtain ⟨h1, h2⟩ := outside_some hp
      have ht := returned_sat (procSleep_table p space lk c.kernel) hr
      unfold Cpu.view
      dsimp only
      rw [ht]
      exact Move.sleep (v := c.view) space lk h1 h2
  | wakeup space =>
      obtain ⟨⟨r, s⟩, hr, h⟩ := Option.bind_eq_some_iff.mp h
      obtain rfl := Option.some.inj h
      have ht := returned_sat (procWakeup_table c.proc (some space) c.kernel) hr
      unfold Cpu.view
      dsimp only
      rw [ht]
      exact Move.wakeup (v := c.view) space
  | exit status =>
      obtain ⟨p, hp, h⟩ := Option.bind_eq_some_iff.mp h
      obtain ⟨⟨r, s⟩, hr, h⟩ := Option.bind_eq_some_iff.mp h
      obtain rfl := Option.some.inj h
      obtain ⟨h1, h2⟩ := outside_some hp
      obtain ⟨hz, ht⟩ := returned_sat (procExit_table p status c.kernel) hr
      unfold Cpu.view
      dsimp only
      rw [ht]
      exact Move.exit (v := c.view) status h1 h2 hz
  | wait addr =>
      obtain ⟨p, hp, h⟩ := Option.bind_eq_some_iff.mp h
      exact waitPass_move (outside_some hp).1 h
  | goOn =>
      obtain ⟨p, hp, h⟩ := Option.bind_eq_some_iff.mp h
      cases hres : c.resume p with
      | user =>
          rw [hres] at h
          cases h
      | sleep lk =>
          rw [hres] at h
          obtain ⟨⟨r, s⟩, hr, h⟩ := Option.bind_eq_some_iff.mp h
          obtain rfl := Option.some.inj h
          have ht := returned_sat (procSleepEnd_table p lk c.kernel) hr
          unfold Cpu.view
          dsimp only
          rw [ht]
          exact Move.goOn (v := c.view) hp
      | wait addr =>
          rw [hres] at h
          exact waitPass_move hp h

end

end WhuOs.Mem
