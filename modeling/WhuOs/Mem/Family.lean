import WhuOs.Mem.Moves

/-! # The family of processes

The invariant of the process table: the processes in use have numbers of their own, each
but the first has a parent that is alive and older, the one that is running has the hart,
and nobody sleeps in `proc_wait` who has a child to collect.
-/

namespace WhuOs.Mem

open Prog

def Entry.Alive (e : Entry) : Prop := e.state ≠ .unused ∧ e.state ≠ .zombie

structure Table.Ok (t : Table) : Prop where
  locks : ∀ lk, t.held lk = false
  blank : ∀ p, (t.entry p).state = .unused → t.entry p = .blank
  old : ∀ p, (t.entry p).state ≠ .unused → (t.entry p).pid < t.globalPid
  pids : ∀ p q, (t.entry p).state ≠ .unused → (t.entry q).state ≠ .unused →
    (t.entry p).pid = (t.entry q).pid → p = q
  empty : t.proczero = none → ∀ p, (t.entry p).state = .unused
  zero : ∀ z, t.proczero = some z → (t.entry z).Alive ∧ (t.entry z).parent = none ∧
    ∀ p, (t.entry p).state ≠ .unused → p ≠ z → (t.entry z).pid < (t.entry p).pid
  parent : ∀ p, (t.entry p).state ≠ .unused → t.proczero ≠ some p →
    ∃ q, (t.entry p).parent = some q ∧ (t.entry q).Alive ∧ (t.entry q).pid < (t.entry p).pid

/-- Why a process sleeps: in `proc_sleep` for some other reason, or in `proc_wait` with children,
none of which has exited. -/
def View.Asleep (v : View) (p : ProcId) : Prop :=
  (∃ lk, v.resume p = .sleep lk) ∨ (∃ addr, v.resume p = .wait addr) ∧
    (v.table.entry p).sleepSpace = some (.proc p) ∧
    (∀ q, (v.table.entry q).parent = some p → (v.table.entry q).state ≠ .zombie) ∧ ∃ q,
    (v.table.entry q).parent = some p

structure View.Ok (v : View) : Prop where
  table : v.table.Ok
  running : ∀ p, (v.table.entry p).state = .running ↔ v.proc = some p
  resting : ∀ p, ¬ (v.table.entry p).Alive → v.resume p = .user
  asleep : ∀ p, (v.table.entry p).state = .sleeping → v.Asleep p

/-- A process goes on, stops or falls asleep. -/
structure Restated (t t' : Table) : Prop where
  entry : ∀ q, t'.entry q = t.entry q ∨ (t.entry q).Alive ∧ (t'.entry q).Alive ∧
    t'.entry q =
      { t.entry q with state := (t'.entry q).state, sleepSpace := (t'.entry q).sleepSpace }
  proczero : t'.proczero = t.proczero
  globalPid : t'.globalPid = t.globalPid
  held : t'.held = t.held

/-- The children `M` of `p` were given to `proczero`, and `proczero` was told. -/
structure Reparented (p : ProcId) (M : ProcId → Prop) (t t' : Table) : Prop where
  parent : ∀ q, M q → (t.entry q).parent = some p → (t'.entry q).parent = t.proczero
  others : ∀ q, ¬ (M q ∧ (t.entry q).parent = some p) → (t'.entry q).parent = (t.entry q).parent
  entry : ∀ q,
    t'.entry q = { t.entry q with state := (t'.entry q).state, parent := (t'.entry q).parent }
  state : ∀ q, (t'.entry q).state = (t.entry q).state ∨ (t.entry q).state = .sleeping ∧
    (t'.entry q).state = .runnable
  told : ∀ z q, t.proczero = some z → z ≠ p → M q → (t.entry q).parent = some p →
    (t'.entry z).state = .sleeping →
    (t.entry z).sleepSpace ≠ some (.proc z)
  proczero : t'.proczero = t.proczero
  globalPid : t'.globalPid = t.globalPid
  held : t'.held = t.held

section

variable {v v' : View} {t t' t'' : Table} {p q np pp z : ProcId} {e : Entry}
  {space : Option Chan} {me : Option ProcId}
  {M M' : ProcId → Prop}

/-! ## Entries -/

theorem set_entry (t : Table) (p : ProcId) (e : Entry) (q : ProcId) :
    (t.set p e).entry q = if q = p then e else t.entry q := by
  unfold Table.set
  exact Function.update_apply _ _ _ _

theorem Table.Ok.unused_parent (h : t.Ok) (hp : (t.entry p).state = .unused) :
    (t.entry p).parent = none := by
  rw [h.blank p hp]
  rfl

/-- Parents are alive. -/
theorem Table.Ok.parent_alive (h : t.Ok) (hq : (t.entry q).parent = some p) :
    (t.entry q).state ≠ .unused ∧ (t.entry p).Alive ∧ (t.entry p).pid < (t.entry q).pid := by
  have hused : (t.entry q).state ≠ .unused := fun hc => by
    rw [h.unused_parent hc] at hq
    cases hq
  have hne : t.proczero ≠ some q := fun hc => by
    rw [(h.zero q hc).2.1] at hq
    cases hq
  obtain ⟨r, hr, halive, hlt⟩ := h.parent q hused hne
  rw [hr] at hq
  obtain rfl := Option.some.inj hq
  exact ⟨hused, halive, hlt⟩

theorem Table.Ok.parent_ne (h : t.Ok) : (t.entry p).parent ≠ some p := fun hc =>
  Nat.lt_irrefl _ (h.parent_alive hc).2.2

/-! ## Processes that go on or stop -/

theorem Restated.used (h : Restated t t') (q : ProcId) :
    (t'.entry q).state = .unused ↔ (t.entry q).state = .unused := by
  rcases h.entry q with he | ⟨h1, h2, -⟩
  · rw [he]
  · exact ⟨fun hc => absurd hc h2.1, fun hc => absurd hc h1.1⟩

theorem Restated.zombie (h : Restated t t') (q : ProcId) :
    (t'.entry q).state = .zombie ↔ (t.entry q).state = .zombie := by
  rcases h.entry q with he | ⟨h1, h2, -⟩
  · rw [he]
  · exact ⟨fun hc => absurd hc h2.2, fun hc => absurd hc h1.2⟩

theorem Restated.alive (h : Restated t t') (q : ProcId) :
    (t'.entry q).Alive ↔ (t.entry q).Alive := by
  unfold Entry.Alive
  rw [Ne, Ne, h.used q, h.zombie q]

theorem Restated.same (h : Restated t t') (q : ProcId) :
    (t'.entry q).pid = (t.entry q).pid ∧ (t'.entry q).parent = (t.entry q).parent ∧
    (t'.entry q).exitState = (t.entry q).exitState := by
  rcases h.entry q with he | ⟨-, -, he⟩ <;> rw [he] <;> exact ⟨rfl, rfl, rfl⟩

theorem Table.Ok.restated (h : t.Ok) (hr : Restated t t') : t'.Ok := by
  refine ⟨fun lk => ?_, fun p hp => ?_, fun p hp => ?_, fun p q hp hq => ?_, fun hz p =>
    ?_, fun z hz => ?_, fun p hp hz => ?_⟩
  · rw [hr.held]
    exact h.locks lk
  · have hp' := (hr.used p).mp hp
    rcases hr.entry p with he | ⟨h1, -, -⟩
    · rw [he]
      exact h.blank p hp'
    · exact absurd hp' h1.1
  · rw [(hr.same p).1, hr.globalPid]
    exact h.old p fun hc => hp ((hr.used p).mpr hc)
  · rw [(hr.same p).1, (hr.same q).1]
    exact h.pids p q (fun hc => hp ((hr.used p).mpr hc)) fun hc => hq ((hr.used q).mpr hc)
  · rw [hr.proczero] at hz
    exact (hr.used p).mpr (h.empty hz p)
  · rw [hr.proczero] at hz
    obtain ⟨h1, h2, h3⟩ := h.zero z hz
    refine ⟨(hr.alive z).mpr h1, (hr.same z).2.1.trans h2, fun p hp hne => ?_⟩
    rw [(hr.same p).1, (hr.same z).1]
    exact h3 p (fun hc => hp ((hr.used p).mpr hc)) hne
  · rw [hr.proczero] at hz
    obtain ⟨q, h1, h2, h3⟩ := h.parent p (fun hc => hp ((hr.used p).mpr hc)) hz
    refine ⟨q, (hr.same p).2.1.trans h1, (hr.alive q).mpr h2, ?_⟩
    rw [(hr.same p).1, (hr.same q).1]
    exact h3

/-- One entry changes. -/
theorem restated_set {st : ProcState} {sp : Option Chan} (hp : (t.entry p).Alive)
    (h1 : st ≠ .unused) (h2 : st ≠ .zombie) :
    Restated t (t.set p { t.entry p with state := st, sleepSpace := sp }) := by
  refine ⟨fun q => ?_, rfl, rfl, rfl⟩
  rw [set_entry]
  split
  · next he =>
    subst he
    exact .inr ⟨hp, ⟨h1, h2⟩, rfl⟩
  · exact .inl rfl

theorem wake_entry (t : Table) (me : Option ProcId) (space : Option Chan) (q : ProcId) :
    (t.wake me space).entry q =
    if some q ≠ me ∧ (t.entry q).state = .sleeping ∧ (t.entry q).sleepSpace = space then
      { t.entry q with state := .runnable } else t.entry q := rfl

theorem restated_wake : Restated t (t.wake me space) := by
  refine ⟨fun q => ?_, rfl, rfl, rfl⟩
  rw [wake_entry]
  split
  · next hc =>
    refine .inr ⟨?_, ⟨nofun, nofun⟩, rfl⟩
    unfold Entry.Alive
    rw [hc.2.1]
    exact ⟨nofun, nofun⟩
  · exact .inl rfl

/-- Sleepers that are still asleep sleep for the same reason. -/
theorem View.Asleep.restated (h : v.Asleep p) (hr : Restated v.table v'.table)
    (hres : v'.resume p = v.resume p)
    (hsp : (v'.table.entry p).sleepSpace = (v.table.entry p).sleepSpace) : v'.Asleep p := by
  unfold View.Asleep at *
  rw [hres, hsp]
  rcases h with h | ⟨h1, h2, h3, q, hq⟩
  · exact .inl h
  · refine .inr ⟨h1, h2, fun r hpar hz => ?_, q, (hr.same q).2.1.trans hq⟩
    rw [(hr.same r).2.1] at hpar
    exact h3 r hpar ((hr.zombie r).mp hz)

/-! ## New processes -/

theorem Table.Ok.begun (h : t.Ok) (hz : t.proczero = none) (np : ProcId) : (t.begun np).Ok := by
  have hempty := h.empty hz
  have hnp := h.blank np (hempty np)
  have hent : ∀ q, (t.begun np).entry q = if q = np then ⟨t.globalPid, .runnable, none, 0, none⟩
    else .blank := by
    intro q
    refine (set_entry t np _ q).trans ?_
    rw [hnp, h.blank q (hempty q)]
    rfl
  have honly : ∀ q, ((t.begun np).entry q).state ≠ .unused → q = np := by
    intro q hq
    rw [hent] at hq
    by_contra hne
    rw [if_neg hne] at hq
    exact hq rfl
  refine ⟨h.locks, fun p hp => ?_, fun p hp => ?_, fun p q hp hq _ =>
    (honly p hp).trans (honly q hq).symm, nofun, fun z hz' => ?_,
    fun p hp hz' => absurd (congrArg some (honly p hp).symm) hz'⟩
  · rw [hent] at hp ⊢
    split
    · next he =>
      rw [if_pos he] at hp
      cases hp
    · rfl
  · obtain rfl := honly p hp
    rw [hent, if_pos rfl]
    exact Nat.lt_succ_self _
  · obtain rfl := Option.some.inj hz'
    rw [hent, if_pos rfl]
    exact ⟨⟨nofun, nofun⟩, rfl, fun p hp hne => absurd (honly p hp) hne⟩

theorem Table.Ok.abandoned (h : t.Ok) (hnp : (t.entry np).state = .unused) :
    (t.abandoned np).Ok := by
  have hent : (t.abandoned np).entry = t.entry := by
    funext q
    refine (set_entry t np _ q).trans ?_
    split
    · next he =>
      subst he
      exact (h.blank q hnp).symm
    · rfl
  have hzero : (t.abandoned np).proczero = t.proczero := rfl
  refine ⟨h.locks, ?_, fun p hp => ?_, ?_, ?_, ?_, ?_⟩
  · rw [hent]
    exact h.blank
  · rw [hent] at hp ⊢
    exact Nat.lt_succ_of_lt (h.old p hp)
  · rw [hent]
    exact h.pids
  · rw [hent, hzero]
    exact h.empty
  · rw [hent, hzero]
    exact h.zero
  · rw [hent, hzero]
    exact h.parent

theorem forked_entry (t : Table) (p np q : ProcId) : (t.forked p np).entry q =
    if q = np then { t.entry np with pid := t.globalPid, state := .runnable, parent := some p }
      else t.entry q :=
  set_entry t np _ q

theorem Table.Ok.forked (h : t.Ok) (hp : (t.entry p).Alive) (hnp : (t.entry np).state = .unused) :
    (t.forked p np).Ok := by
  have hzero : (t.forked p np).proczero = t.proczero := rfl
  have hpid : ∀ q, (t.entry q).state ≠ .unused → q ≠ np := by
    rintro q hq rfl
    exact hq hnp
  -- what is said of entries in use but the new one
  have hother : ∀ q, q ≠ np → (t.forked p np).entry q = t.entry q :=
    fun q hq => (forked_entry t p np q).trans (if_neg hq)
  have hnew : (t.forked p np).entry np =
    { t.entry np with pid := t.globalPid, state := .runnable, parent := some p } :=
    (forked_entry t p np np).trans (if_pos rfl)
  refine ⟨h.locks, fun q hq => ?_, fun q hq => ?_, fun q r hq hr he => ?_, fun hz q =>
    absurd (h.empty hz p) hp.1, fun z hz => ?_, fun q hq hz => ?_⟩
  · by_cases hc : q = np
    · subst hc
      rw [hnew] at hq
      cases hq
    · rw [hother q hc] at hq ⊢
      exact h.blank q hq
  · by_cases hc : q = np
    · subst hc
      rw [hnew]
      exact Nat.lt_succ_self _
    · rw [hother q hc] at hq ⊢
      exact Nat.lt_succ_of_lt (h.old q hq)
  · by_cases hc : q = np <;> by_cases hd : r = np
    · rw [hc, hd]
    · subst hc
      rw [hnew, hother r hd] at he
      rw [hother r hd] at hr
      have hlt := h.old r hr
      rw [← he] at hlt
      exact absurd hlt (Nat.lt_irrefl _)
    · subst hd
      rw [hnew, hother q hc] at he
      rw [hother q hc] at hq
      have hlt := h.old q hq
      rw [he] at hlt
      exact absurd hlt (Nat.lt_irrefl _)
    · rw [hother q hc] at hq he
      rw [hother r hd] at hr he
      exact h.pids q r hq hr he
  · obtain ⟨h1, h2, h3⟩ := h.zero z hz
    rw [hother z (hpid z h1.1)]
    refine ⟨h1, h2, fun q hq hne => ?_⟩
    by_cases hc : q = np
    · subst hc
      rw [hnew]
      exact h.old z h1.1
    · rw [hother q hc] at hq ⊢
      exact h3 q hq hne
  · by_cases hc : q = np
    · subst hc
      refine ⟨p, ?_, ?_, ?_⟩
      · rw [hnew]
      · rw [hother p (hpid p hp.1)]
        exact hp
      · rw [hnew, hother p (hpid p hp.1)]
        exact h.old p hp.1
    · rw [hother q hc] at hq ⊢
      obtain ⟨r, h1, h2, h3⟩ := h.parent q hq hz
      refine ⟨r, h1, ?_, ?_⟩
      · rw [hother r (hpid r h2.1)]
        exact h2
      · rw [hother r (hpid r h2.1)]
        exact h3

/-- A zombie goes. -/
theorem Table.Ok.reaped (h : t.Ok) (hpp : (t.entry pp).state = .zombie) : (t.set pp .blank).Ok := by
  have hother : ∀ q, (t.entry q).Alive → (t.set pp .blank).entry q = t.entry q := by
    intro q hq
    rw [set_entry, if_neg]
    rintro rfl
    exact hq.2 hpp
  have hstill : ∀ q, ((t.set pp .blank).entry q).state ≠ .unused →
    (t.set pp .blank).entry q = t.entry q := by
    intro q hq
    rw [set_entry] at hq ⊢
    split
    · next hc =>
      rw [if_pos hc] at hq
      exact absurd rfl hq
    · rfl
  refine ⟨h.locks, fun q hq => ?_, fun q hq => ?_, fun q r hq hr he => ?_, fun hz q =>
    ?_, fun z hz => ?_, fun q hq hz => ?_⟩
  · rw [set_entry] at hq ⊢
    split
    · rfl
    · next hc =>
      rw [if_neg hc] at hq
      exact h.blank q hq
  · have he := hstill q hq
    rw [he] at hq ⊢
    exact h.old q hq
  · have h1 := hstill q hq
    have h2 := hstill r hr
    rw [h1] at hq he
    rw [h2] at hr he
    exact h.pids q r hq hr he
  · rw [set_entry]
    split
    · rfl
    · exact h.empty hz q
  · obtain ⟨h1, h2, h3⟩ := h.zero z hz
    rw [hother z h1]
    refine ⟨h1, h2, fun q hq hne => ?_⟩
    have he := hstill q hq
    rw [he] at hq ⊢
    exact h3 q hq hne
  · have he := hstill q hq
    rw [he] at hq ⊢
    obtain ⟨r, h1, h2, h3⟩ := h.parent q hq hz
    rw [← hother r h2] at h3 h2
    exact ⟨r, h1, h2, h3⟩

/-! ## Exits -/

theorem Reparented.sleeping (h : Reparented p M t t') (hq : (t'.entry q).state = .sleeping) :
    (t.entry q).state = .sleeping := by
  rcases h.state q with he | ⟨h1, -⟩
  · rwa [← he]
  · exact h1

/-- Neither the number of a process nor what it waits for is touched. -/
theorem Reparented.same (h : Reparented p M t t') (q : ProcId) :
    (t'.entry q).pid = (t.entry q).pid ∧
    (t'.entry q).sleepSpace = (t.entry q).sleepSpace ∧
    (t'.entry q).exitState = (t.entry q).exitState := by
  rw [h.entry q]
  exact ⟨rfl, rfl, rfl⟩

/-- One child is given to `proczero`. -/
theorem reparented_one (hp : (t.entry pp).parent = some p) :
    Reparented p (fun q => q = pp) t
      ((t.set pp { t.entry pp with parent := t.proczero }).wake (some p)
        (t.proczero.map .proc)) := by
  have hset : ∀ q, ∃ st,
    ((t.set pp { t.entry pp with parent := t.proczero }).wake (some p)
    (t.proczero.map .proc)).entry q =
      { t.entry q with state := st, parent := if q = pp then t.proczero else (t.entry q).parent } ∧
      (st = (t.entry q).state ∨ (t.entry q).state = .sleeping ∧ st = .runnable) ∧
      (t.proczero = some q → q ≠ p → st = .sleeping → (t.entry q).sleepSpace ≠ some (.proc q)) := by
    intro q
    have hent : (t.set pp { t.entry pp with parent := t.proczero }).entry q =
        { t.entry q with parent := if q = pp then t.proczero else (t.entry q).parent } := by
      rw [set_entry]
      split
      · next he =>
        subst he
        rfl
      · rfl
    rw [wake_entry, hent]
    dsimp only
    split
    · next hc => exact ⟨.runnable, rfl, .inr ⟨hc.2.1, rfl⟩, fun _ _ => nofun⟩
    · next hc =>
      refine ⟨(t.entry q).state, rfl, .inl rfl, fun hz hne hst hsp =>
        hc ⟨fun he => hne (Option.some.inj he), hst, ?_⟩⟩
      rw [hsp, hz]
      rfl
  refine ⟨?_, fun q hq => ?_, fun q => ?_, fun q => ?_, fun z q hz hne _ _ => ?_, rfl, rfl, rfl⟩
  · rintro q rfl -
    obtain ⟨st, he, -⟩ := hset q
    rw [he]
    exact if_pos rfl
  · obtain ⟨st, he, -⟩ := hset q
    rw [he]
    refine if_neg fun hc => hq ⟨hc, ?_⟩
    rw [hc]
    exact hp
  · obtain ⟨st, he, -⟩ := hset q
    rw [he]
  · obtain ⟨st, he, hst, -⟩ := hset q
    rw [he]
    exact hst
  · obtain ⟨st, he, -, htold⟩ := hset z
    rw [he]
    exact htold hz hne

theorem Reparented.trans (h : Reparented p M t t') (h' : Reparented p M' t' t'')
    (hz : t.proczero ≠ some p) :
    Reparented p (fun q => M q ∨ M' q) t t'' := by
  have hgone : ∀ q, M q → (t.entry q).parent = some p → (t''.entry q).parent = t.proczero := by
    intro q hm hq
    have h1 := h.parent q hm hq
    rw [h'.others q fun hc => hz (h1.symm.trans hc.2), h1]
  refine ⟨fun q hq hpar => ?_, fun q hq => ?_, fun q => ?_, fun q => ?_, fun z q hzero hne hq hpar hst => ?_, h'.proczero.trans h.proczero,
    h'.globalPid.trans h.globalPid, h'.held.trans h.held⟩
  · by_cases hm : M q
    · exact hgone q hm hpar
    · rw [h'.parent q (hq.resolve_left hm) ((h.others q fun hc => hm hc.1).trans hpar), h.proczero]
  · rw [h'.others q fun hc => hq ?_, h.others q fun hc => hq ⟨.inl hc.1, hc.2⟩]
    refine ⟨.inr hc.1, ?_⟩
    rw [← h.others q fun hd => hq ⟨.inl hd.1, hd.2⟩]
    exact hc.2
  · have h1 := h'.entry q
    rw [h.entry q] at h1
    exact h1
  · rcases h'.state q with he | ⟨h1, h2⟩
    · rw [he]
      exact h.state q
    · exact .inr ⟨h.sleeping h1, h2⟩
  · have hst' := h'.sleeping hst
    by_cases hm : M q
    · exact h.told z q hzero hne hm hpar hst'
    · rw [← (h.same z).2.1]
      exact h'.told z q (h.proczero.trans hzero) hne (hq.resolve_left hm) ((h.others q fun hc => hm hc.1).trans hpar) hst

theorem reparent_spec (hz : t.proczero ≠ some p) (ps : List ProcId) :
    Reparented p (fun q => q ∈ ps) t (t.reparent p ps) := by
  induction ps generalizing t with
  | nil =>
      exact ⟨fun q hq => absurd hq List.not_mem_nil, fun _ _ => rfl, fun _ =>
        rfl, fun _ => .inl rfl,
        fun _ q _ _ hq => absurd hq List.not_mem_nil, rfl, rfl, rfl⟩
  | cons pp ps ih =>
      unfold Table.reparent
      split
      · next hpp =>
        have hone := reparented_one hpp
        have hrest := hone.trans (ih (by rw [hone.proczero]; exact hz)) hz
        have hmem : (fun q => q ∈ pp :: ps) = fun q =>
          q = pp ∨ q ∈ ps := by simp only [List.mem_cons]
        rw [hmem]
        exact hrest
      · next hpp =>
        have hrest := ih (t := t) hz
        have hmem : ∀ q, (t.entry q).parent = some p → q ∈ pp :: ps → q ∈ ps := by
          intro q hq hm
          rcases List.mem_cons.mp hm with rfl | hm
          · exact absurd hq hpp
          · exact hm
        exact ⟨fun q hm hq => hrest.parent q (hmem q hq hm) hq, fun q hq => hrest.others q fun hc =>
          hq ⟨List.mem_cons_of_mem _ hc.1, hc.2⟩,
          hrest.entry, hrest.state, fun z q hzero hne hm hq =>
            hrest.told z q hzero hne (hmem q hq hm) hq, hrest.proczero,
          hrest.globalPid, hrest.held⟩

structure Exited (p : ProcId) (status : Nat) (t t' : Table) : Prop where
  self : t'.entry p = { t.entry p with state := .zombie, exitState := status }
  entry : ∀ q, q ≠ p → t'.entry q = { t.entry q with
    state := (t'.entry q).state, parent :=
    if (t.entry q).parent = some p then t.proczero else (t.entry q).parent }
  state : ∀ q, q ≠ p → (t'.entry q).state = (t.entry q).state ∨ (t.entry q).state = .sleeping ∧
    (t'.entry q).state = .runnable
  /-- Whoever has a new zombie among its children, or a new child, is not asleep in `proc_wait`. -/
  told : ∀ q r, q ≠ p → (t.entry r).parent = some p ∧ t.proczero = some q ∨ r = p ∧ (t.entry p).parent = some q →
    (t'.entry q).state = .sleeping → (t.entry q).sleepSpace ≠ some (.proc q)
  proczero : t'.proczero = t.proczero
  globalPid : t'.globalPid = t.globalPid
  held : t'.held = t.held

theorem exited_spec (hz : t.proczero ≠ some p) (hp : (t.entry p).parent ≠ some p) (status : Nat) :
    Exited p status t (t.exited p status) := by
  have hall : ∀ q : ProcId, q ∈ allProcs := List.mem_finRange
  have hr := reparent_spec (t := t) hz allProcs
  unfold Table.exited
  generalize t.reparent p allProcs = t₁ at hr
  have hparent : (t₁.entry p).parent = (t.entry p).parent := hr.others p fun hc => hp hc.2
  dsimp only
  rw [hparent]
  -- the parent of `p` is told
  have hstep :
    ∀ q, q ≠ p →
    ∃ st, ((t₁.wake (some p) ((t.entry p).parent.map .proc)).entry q) =
      { t₁.entry q with state := st } ∧
      (st = (t₁.entry q).state ∨ (t₁.entry q).state = .sleeping ∧ st = .runnable) ∧
      ((t.entry p).parent = some q → st = .sleeping → (t₁.entry q).sleepSpace ≠ some (.proc q)) := by
    intro q hq
    rw [wake_entry]
    split
    · next hc => exact ⟨.runnable, rfl, .inr ⟨hc.2.1, rfl⟩, fun _ => nofun⟩
    · next hc =>
      refine ⟨(t₁.entry q).state, rfl, .inl rfl, fun hpar hst hsp => hc ⟨fun he => hq (Option.some.inj he), hst, ?_⟩⟩
      rw [hsp, hpar]
      rfl
  have hself : (t₁.wake (some p) ((t.entry p).parent.map .proc)).entry p = t₁.entry p := by
    rw [wake_entry]
    exact if_neg fun hc => hc.1 rfl
  have hset : ∀ q, q ≠ p → (((t₁.wake (some p) ((t.entry p).parent.map .proc))).set p
      { (t₁.wake (some p) ((t.entry p).parent.map .proc)).entry p with exitState := status, state := .zombie }).entry q =
        (t₁.wake (some p) ((t.entry p).parent.map .proc)).entry q := fun q hq => (set_entry _ _ _ _).trans (if_neg hq)
  refine ⟨?_, fun q hq => ?_, fun q hq => ?_, fun q r hq htell hst =>
    ?_, hr.proczero, hr.globalPid, hr.held⟩
  · rw [set_entry, if_pos rfl, hself, hr.entry p, hparent]
  · obtain ⟨st, he, -, -⟩ := hstep q hq
    rw [hset q hq, he, hr.entry q]
    dsimp only
    by_cases hc : (t.entry q).parent = some p
    · rw [if_pos hc, hr.parent q (hall q) hc]
    · rw [if_neg hc, hr.others q fun hd => hc hd.2]
  · obtain ⟨st, he, hst, -⟩ := hstep q hq
    rw [hset q hq, he]
    dsimp only
    rcases hst with rfl | ⟨h1, rfl⟩
    · exact hr.state q
    · exact .inr ⟨hr.sleeping h1, rfl⟩
  · obtain ⟨st, he, hst', htold⟩ := hstep q hq
    rw [hset q hq, he] at hst
    dsimp only at hst
    subst hst
    rw [← (hr.same q).2.1]
    rcases htell with ⟨hpar, hzero⟩ | ⟨-, hpar⟩
    · have hsleep : (t₁.entry q).state = .sleeping := by
        rcases hst' with hst' | ⟨-, hst'⟩
        · exact hst'.symm
        · cases hst'
      rw [(hr.same q).2.1]
      exact hr.told q r hzero hq (hall r) hpar hsleep
    · exact htold hpar rfl

section exit

variable {status : Nat} (hx : Exited p status t t') (hp : (t.entry p).Alive)
include hx hp

theorem Exited.used (q : ProcId) : (t'.entry q).state = .unused ↔ (t.entry q).state = .unused := by
  by_cases hq : q = p
  · subst hq
    rw [hx.self]
    exact ⟨nofun, fun hc => absurd hc hp.1⟩
  rcases hx.state q hq with he | ⟨h1, h2⟩
  · rw [he]
  · rw [h1, h2]
    exact ⟨nofun, nofun⟩

omit hp in
theorem Exited.zombie (hq : q ≠ p) :
    (t'.entry q).state = .zombie ↔ (t.entry q).state = .zombie := by
  rcases hx.state q hq with he | ⟨h1, h2⟩
  · rw [he]
  · rw [h1, h2]
    exact ⟨nofun, nofun⟩

theorem Exited.alive (hq : q ≠ p) : (t'.entry q).Alive ↔ (t.entry q).Alive := by
  unfold Entry.Alive
  rw [Ne, Ne, hx.used hp q, hx.zombie hq]

omit hp in
theorem Exited.pid (q : ProcId) : (t'.entry q).pid = (t.entry q).pid := by
  by_cases hq : q = p
  · subst hq
    rw [hx.self]
  · rw [hx.entry q hq]

theorem Table.Ok.exited (h : t.Ok) (hz : t.proczero ≠ some p) : t'.Ok := by
  have hused := hx.used hp
  have hpid := hx.pid
  refine ⟨fun lk => ?_, fun q hq => ?_, fun q hq => ?_, fun q r hq hr => ?_, fun hzero q =>
    ?_, fun z hzero => ?_, fun q hq hzero => ?_⟩
  · rw [hx.held]
    exact h.locks lk
  · have hq' := (hused q).mp hq
    have hne : q ≠ p := by
      rintro rfl
      exact hp.1 hq'
    have hno : (t.entry q).parent ≠ some p := by
      rw [h.unused_parent hq']
      exact nofun
    rw [hx.entry q hne, hq, if_neg hno, ← hq']
    exact h.blank q hq'
  · rw [hpid, hx.globalPid]
    exact h.old q fun hc => hq ((hused q).mpr hc)
  · rw [hpid, hpid]
    exact h.pids q r (fun hc => hq ((hused q).mpr hc)) fun hc => hr ((hused r).mpr hc)
  · rw [hx.proczero] at hzero
    exact (hused q).mpr (h.empty hzero q)
  · rw [hx.proczero] at hzero
    obtain ⟨h1, h2, h3⟩ := h.zero z hzero
    have hne : z ≠ p := by
      rintro rfl
      exact hz hzero
    refine ⟨(hx.alive hp hne).mpr h1, ?_, fun q hq hqz => ?_⟩
    · rw [hx.entry z hne]
      dsimp only
      rw [h2, if_neg nofun]
    · rw [hpid, hpid]
      exact h3 q (fun hc => hq ((hused q).mpr hc)) hqz
  · rw [hx.proczero] at hzero
    have hq' : (t.entry q).state ≠ .unused := fun hc => hq ((hused q).mpr hc)
    obtain ⟨r, h1, h2, h3⟩ := h.parent q hq' hzero
    by_cases hqp : q = p
    · subst hqp
      have hrq : r ≠ q := by
        rintro rfl
        exact Nat.lt_irrefl _ h3
      refine ⟨r, ?_, (hx.alive hp hrq).mpr h2, ?_⟩
      · rw [hx.self]
        exact h1
      · rw [hpid, hpid]
        exact h3
    by_cases hrp : r = p
    · -- an orphan
      subst hrp
      cases hzr : t.proczero with
      | none => exact absurd (h.empty hzr r) hp.1
      | some z =>
          obtain ⟨h4, -, h5⟩ := h.zero z hzr
          have hzr' : z ≠ r := by
            rintro rfl
            exact hz hzr
          refine ⟨z, ?_, (hx.alive hp hzr').mpr h4, ?_⟩
          · rw [hx.entry q hqp]
            dsimp only
            rw [if_pos h1, hzr]
          · rw [hpid, hpid]
            refine h5 q hq' fun hc => hzero ?_
            rw [hzr, hc]
    · refine ⟨r, ?_, (hx.alive hp hrp).mpr h2, ?_⟩
      · rw [hx.entry q hqp]
        dsimp only
        rw [if_neg fun hc => hrp (Option.some.inj (h1.symm.trans hc)), h1]
      · rw [hpid, hpid]
        exact h3

end exit

end

end WhuOs.Mem
