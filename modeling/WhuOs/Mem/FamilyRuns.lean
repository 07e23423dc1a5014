import WhuOs.Mem.Family
import WhuOs.Mem.Progress

/-! # Runs of the hart

Every move keeps the invariant of the process table, so it holds after every run. So does
the account of the exits: a process exits once, and is collected at most once, afterwards.
-/

namespace WhuOs.Mem

open Prog Trace

def exits : List Note → List Nat
  | [] => []
  | .exited pid _ :: l => pid :: exits l
  | .waited _ _ :: l => exits l

def reaps : List Note → List Nat
  | [] => []
  | .waited _ (.reaped pid) :: l => pid :: reaps l
  | _ :: l => reaps l

structure View.Logged (v : View) : Prop where
  exitOnce : (exits v.history).Nodup
  reapOnce : (reaps v.history).Nodup
  known : ∀ pid ∈ exits v.history, pid < v.table.globalPid
  alive : ∀ p, (v.table.entry p).Alive → (v.table.entry p).pid ∉ exits v.history
  zombie : ∀ p, (v.table.entry p).state = .zombie →
    .exited (v.table.entry p).pid (v.table.entry p).exitState ∈ v.history ∧
    (v.table.entry p).pid ∉ reaps v.history
  account : ∀ pid status, .exited pid status ∈ v.history → pid ∈ reaps v.history ∨
    ∃ p, (v.table.entry p).state = .zombie ∧ (v.table.entry p).pid = pid ∧
    (v.table.entry p).exitState = status
  order : ∀ l l' p pid, v.history = l ++ .waited p (.reaped pid) :: l' →
    ∃ status, .exited pid status ∈ l'

/-- The kernel before the first process: all slots are free, and all locks. -/
structure Idle (s : Kernel) : Prop where
  blank : ∀ p, (s.procs p).entry = .blank
  proczero : s.proczero = none
  locks : ∀ lk, s.locks lk = false

section

variable {v v' : View} {t t' : Table} {p q np pp z : ProcId} {st : ProcState} {sp : Option Chan}
  {s : Kernel} {c : Cpu} {l : List Act}

/-! ## Every move keeps the invariant -/

/-- One process goes on, stops or falls asleep. -/
theorem View.Ok.restate {proc : Option ProcId} {res : Resume} {history : List Note} (h : v.Ok)
    (hp : (v.table.entry p).Alive)
    (h1 : st ≠ .unused) (h2 : st ≠ .zombie) (hself : st = .running ↔ proc = some p)
    (hproc : ∀ q, q ≠ p → ((v.table.entry q).state = .running ↔ proc = some q))
    (hasleep : st = .sleeping →
      View.Asleep ⟨v.table.set p { v.table.entry p with state := st, sleepSpace := sp }, proc,
      Function.update v.resume p res, history⟩ p) :
    View.Ok ⟨v.table.set p { v.table.entry p with state := st, sleepSpace := sp }, proc,
      Function.update v.resume p res, history⟩ := by
  have hr : Restated v.table (v.table.set p { v.table.entry p with state := st, sleepSpace := sp }) := restated_set hp h1 h2
  have hent : (v.table.set p { v.table.entry p with state := st, sleepSpace := sp }).entry p =
      { v.table.entry p with state := st, sleepSpace := sp } := set_entry_self
  refine ⟨h.table.restated hr, fun q => ?_, fun q hq => ?_, fun q hq => ?_⟩
  · dsimp only
    by_cases hqp : q = p
    · subst hqp
      rw [hent]
      exact hself
    · rw [set_entry_ne hqp]
      exact hproc q hqp
  · by_cases hqp : q = p
    · subst hqp
      exact absurd ((hr.alive q).mpr hp) hq
    · exact (Function.update_of_ne hqp _ _).trans (h.resting q fun hc => hq ((hr.alive q).mpr hc))
  · dsimp only at hq
    by_cases hqp : q = p
    · subst hqp
      rw [hent] at hq
      exact hasleep hq
    · rw [set_entry_ne hqp] at hq
      exact (h.asleep q hq).restated hr (Function.update_of_ne hqp _ _) (congrArg Entry.sleepSpace (set_entry_ne hqp))

theorem View.Ok.here (h : v.Ok) (hp : v.proc = some p) :
    (v.table.entry p).Alive ∧ ∀ q, q ≠ p → (v.table.entry q).state ≠ .running := by
  have hrun := (h.running p).mpr hp
  refine ⟨?_, fun q hq hc => hq ?_⟩
  · unfold Entry.Alive
    rw [hrun]
    exact ⟨nofun, nofun⟩
  · exact Option.some.inj (((h.running q).mp hc).symm.trans hp)

/-- The process that has the hart ends its call of `proc_sleep`. -/
theorem View.Ok.awake (h : v.Ok) (hp : v.proc = some p) (history : List Note) :
    View.Ok ⟨v.table.awake p, v.proc, Function.update v.resume p .user, history⟩ := by
  obtain ⟨halive, hothers⟩ := h.here hp
  have hst := (h.running p).mpr hp
  have hset : v.table.awake p =
    v.table.set p { v.table.entry p with state := .running, sleepSpace := none } := by
    unfold Table.awake
    rw [← hst]
  rw [hset]
  refine h.restate halive nofun nofun ⟨fun _ => hp, fun _ => rfl⟩ (fun q hq => ?_) nofun
  exact ⟨fun hc => absurd hc (hothers q hq), fun hc =>
    absurd (Option.some.inj (hc.symm.trans hp)) hq⟩

theorem View.Ok.stops (h : v.Ok) (hp : v.proc = some p) (q : ProcId) (hq : q ≠ p) :
    (v.table.entry q).state = .running ↔ none = some q :=
  ⟨fun hc => absurd hc ((h.here hp).2 q hq), nofun⟩

/-- A zombie goes. -/
theorem View.Ok.reap (h : v.Ok) (hz : (v.table.entry pp).state = .zombie) :
    View.Ok { v with table := v.table.set pp .blank } := by
  have hne : ∀ q, (v.table.entry q).state ≠ .zombie → q ≠ pp := by
    rintro q hq rfl
    exact hq hz
  have hent : ∀ q, q ≠ pp → (v.table.set pp .blank).entry q = v.table.entry q :=
    fun q hq => set_entry_ne hq
  have hself : (v.table.set pp .blank).entry pp = .blank := set_entry_self
  refine ⟨h.table.reaped hz, fun q => ?_, fun q hq => ?_, fun q hq => ?_⟩
  · dsimp only
    by_cases hqp : q = pp
    · subst hqp
      rw [hself, ← h.running q, hz]
      exact ⟨nofun, nofun⟩
    · rw [hent q hqp]
      exact h.running q
  · dsimp only at hq ⊢
    by_cases hqp : q = pp
    · subst hqp
      exact h.resting q fun hc => hc.2 hz
    · rw [hent q hqp] at hq
      exact h.resting q hq
  · have hqp : q ≠ pp := by
      rintro rfl
      rw [hself] at hq
      cases hq
    dsimp only at hq
    rw [hent q hqp] at hq
    rcases h.asleep q hq with hs | ⟨h1, h2, h3, r, hr⟩
    · exact .inl hs
    · refine .inr ⟨h1, ?_, fun r hpar => ?_, r, ?_⟩
      · dsimp only
        rw [hent q hqp]
        exact h2
      · dsimp only at hpar ⊢
        by_cases hrp : r = pp
        · subst hrp
          rw [hself]
          exact nofun
        · rw [hent r hrp] at hpar ⊢
          exact h3 r hpar
      · dsimp only
        rw [hent r (hne r (h3 r hr))]
        exact hr

theorem abandoned_entry (h : t.Ok) (hnp : (t.entry np).state = .unused) :
    (t.abandoned np).entry = t.entry := by
  funext q
  refine (set_entry t np _ q).trans ?_
  split
  · next he =>
    subst he
    exact (h.blank q hnp).symm
  · rfl

theorem View.Ok.fork (h : v.Ok) (hp : v.proc = some p) (hnp : (v.table.entry np).state = .unused) :
    View.Ok { v with table := v.table.forked p np } := by
  have halive := (h.here hp).1
  have hother : ∀ q, q ≠ np → (v.table.forked p np).entry q = v.table.entry q :=
    fun q hq => (forked_entry _ p np q).trans (if_neg hq)
  have hnew : (v.table.forked p np).entry np =
    { v.table.entry np with pid := v.table.globalPid, state := .runnable, parent := some p } :=
    (forked_entry _ p np np).trans (if_pos rfl)
  refine ⟨h.table.forked halive hnp, fun q => ?_, fun q hq => ?_, fun q hq => ?_⟩
  · dsimp only
    by_cases hqn : q = np
    · subst hqn
      rw [hnew, ← h.running q, hnp]
      exact ⟨nofun, nofun⟩
    · rw [hother q hqn]
      exact h.running q
  · dsimp only at hq ⊢
    by_cases hqn : q = np
    · subst hqn
      exact h.resting q fun hc => hc.1 hnp
    · rw [hother q hqn] at hq
      exact h.resting q hq
  · dsimp only at hq
    have hqn : q ≠ np := by
      rintro rfl
      rw [hnew] at hq
      cases hq
    rw [hother q hqn] at hq
    rcases h.asleep q hq with hs | ⟨h1, h2, h3, r, hr⟩
    · exact .inl hs
    · have hrn : r ≠ np := by
        rintro rfl
        exact (h.table.parent_alive hr).1 hnp
      refine .inr ⟨h1, ?_, fun r hpar => ?_, r, ?_⟩
      · dsimp only
        rw [hother q hqn]
        exact h2
      · dsimp only at hpar ⊢
        by_cases hrc : r = np
        · subst hrc
          rw [hnew]
          exact nofun
        · rw [hother r hrc] at hpar ⊢
          exact h3 r hpar
      · dsimp only
        rw [hother r hrn]
        exact hr

theorem View.Ok.exit {status : Nat} {history : List Note} (h : v.Ok) (hp : v.proc = some p)
    (hz : v.table.proczero ≠ some p) :
    View.Ok ⟨v.table.exited p status, none, Function.update v.resume p .user, history⟩ := by
  obtain ⟨halive, hothers⟩ := h.here hp
  have hx := exited_spec hz h.table.parent_ne status
  generalize v.table.exited p status = t' at hx
  refine ⟨Table.Ok.exited hx halive h.table hz, fun q =>
    ⟨fun hq => ?_, nofun⟩, fun q hq => ?_, fun q hq => ?_⟩
  · dsimp only at hq
    by_cases hqp : q = p
    · subst hqp
      rw [hx.self] at hq
      cases hq
    · rcases hx.state q hqp with he | ⟨-, he⟩
      · exact absurd (he.symm.trans hq) (hothers q hqp)
      · rw [he] at hq
        cases hq
  · dsimp only at hq ⊢
    by_cases hqp : q = p
    · subst hqp
      exact Function.update_self _ _ _
    · rw [Function.update_of_ne hqp]
      exact h.resting q fun hc => hq ((hx.alive halive hqp).mpr hc)
  · dsimp only at hq
    have hqp : q ≠ p := by
      rintro rfl
      rw [hx.self] at hq
      cases hq
    have hst : (v.table.entry q).state = .sleeping := by
      rcases hx.state q hqp with he | ⟨he, -⟩
      · exact he.symm.trans hq
      · exact he
    have hsame : (t'.entry q).sleepSpace = (v.table.entry q).sleepSpace := by rw [hx.entry q hqp]
    unfold View.Asleep
    dsimp only
    rw [Function.update_of_ne hqp, hsame]
    rcases h.asleep q hst with hs | ⟨h1, h2, h3, r, hr⟩
    · exact .inl hs
    have hquiet :
        ∀ r, (v.table.entry r).parent = some p ∧ v.table.proczero = some q ∨ r = p ∧
        (v.table.entry p).parent = some q → False :=
      fun r hc => hx.told q r hqp hc hq h2
    have hpar : ∀ r, (t'.entry r).parent = some q ↔ (v.table.entry r).parent = some q := by
      intro r
      by_cases hrp : r = p
      · subst hrp
        rw [hx.self]
      · rw [hx.entry r hrp]
        dsimp only
        split
        · next hc =>
          refine ⟨fun hzq => (hquiet r (.inl ⟨hc, hzq⟩)).elim, fun hrq => ?_⟩
          exact absurd (Option.some.inj (hrq.symm.trans hc)) hqp
        · rfl
    refine .inr ⟨h1, h2, fun r hrq hzom => ?_, r, (hpar r).mpr hr⟩
    have hrq' := (hpar r).mp hrq
    by_cases hrp : r = p
    · subst hrp
      exact hquiet r (.inr ⟨rfl, hrq'⟩)
    · exact h3 r hrq' ((hx.zombie hrp).mp hzom)

theorem Move.ok (hm : Move v v') (h : v.Ok) : v'.Ok := by
  cases hm with
  | @makeFirst np zero idle unused =>
      have hempty := h.table.empty zero
      have hent : ∀ q,
        (v.table.begun np).entry q =
        if q = np then { v.table.entry np with pid := v.table.globalPid, state := .runnable }
          else v.table.entry q := set_entry v.table np _
      have hst : ∀ q, ((v.table.begun np).entry q).state ≠ .running ∧
        ((v.table.begun np).entry q).state ≠ .sleeping := by
        intro q
        rw [hent]
        split
        · exact ⟨nofun, nofun⟩
        · rw [hempty q]
          exact ⟨nofun, nofun⟩
      refine ⟨h.table.begun zero np, fun q =>
        ⟨fun hq => absurd hq (hst q).1, fun hq => ?_⟩, fun q _ => ?_,
        fun q hq => absurd hq (hst q).2⟩
      · cases idle.symm.trans hq
      · exact h.resting q fun hc => hc.1 (hempty q)
  | @dispatch p idle runnable =>
      have halive : (v.table.entry p).Alive := by
        unfold Entry.Alive
        rw [runnable]
        exact ⟨nofun, nofun⟩
      have hset : View.Ok
        ⟨v.table.set p { v.table.entry p with state := .running }, some p,
          Function.update v.resume p (v.resume p),
          v.history⟩ := by
        refine h.restate halive nofun nofun ⟨fun _ => rfl, fun _ => rfl⟩ (fun q hq => ?_) nofun
        refine ⟨fun hc => ?_, fun hc => absurd (Option.some.inj hc).symm hq⟩
        cases idle.symm.trans ((h.running q).mp hc)
      rw [Function.update_eq_self] at hset
      exact hset
  | stay => exact h
  | fork here _ unused => exact h.fork here unused
  | @abandon np unused =>
      have hent := abandoned_entry h.table unused
      refine ⟨h.table.abandoned unused, fun q => ?_, fun q hq => ?_, fun q hq => ?_⟩
      · dsimp only
        rw [hent]
        exact h.running q
      · dsimp only at hq
        rw [hent] at hq
        exact h.resting q hq
      · dsimp only at hq
        rw [hent] at hq
        unfold View.Asleep
        dsimp only
        rw [hent]
        exact h.asleep q hq
  | @yield p here outside =>
      have hset : View.Ok
        ⟨v.table.set p { v.table.entry p with state := .runnable }, none,
          Function.update v.resume p (v.resume p),
          v.history⟩ := h.restate (h.here here).1 nofun nofun ⟨nofun, nofun⟩ (h.stops here) nofun
      rw [Function.update_eq_self] at hset
      exact hset
  | @sleep p space lk here outside =>
      exact h.restate (h.here here).1 nofun nofun ⟨nofun, nofun⟩ (h.stops here) fun _ =>
        .inl ⟨lk, Function.update_self _ _ _⟩
  | wakeup space =>
      have hr : Restated v.table (v.table.wake v.proc (some space)) := restated_wake
      refine ⟨h.table.restated hr, fun q => ?_, fun q hq => ?_, fun q hq => ?_⟩
      · rw [← h.running q, wake_entry]
        split
        · next hc =>
          rw [hc.2.1]
          exact ⟨nofun, nofun⟩
        · rfl
      · exact h.resting q fun hc => hq ((hr.alive q).mpr hc)
      · dsimp only at hq
        rw [wake_entry] at hq
        split at hq
        · cases hq
        · next hc =>
          refine (h.asleep q hq).restated hr rfl ?_
          dsimp only
          rw [wake_entry, if_neg hc]
  | exit status here _ nonzero => exact h.exit here nonzero
  | @reap p pp here child zombie =>
      have hne : pp ≠ p := by
        rintro rfl
        exact h.table.parent_ne child
      refine (h.awake here (.waited p (.reaped (v.table.entry pp).pid) :: v.history)).reap ?_
      rw [(awake_entry v.table p pp).2.1]
      exact zombie
  | noChild here _ => exact h.awake here _
  | @wait p addr here alive kids =>
      refine h.restate (h.here here).1 nofun nofun ⟨nofun, nofun⟩ (h.stops here) fun _ =>
        .inr ⟨⟨addr, Function.update_self _ _ _⟩, ?_, ?_⟩
      · exact (congrArg Entry.sleepSpace set_entry_self :)
      · have hr : Restated v.table (v.table.asleep p) := restated_set (h.here here).1 nofun nofun
        obtain ⟨r, hk⟩ := kids
        exact ⟨fun r hpar hz => alive r ((hr.same r).2.1.symm.trans hpar) ((hr.zombie r).mp hz), r,
          (hr.same r).2.1.trans hk⟩
  | goOn here => exact h.awake here _

/-! ## The account of the exits -/

/-- Moves that write no note about an exit and make or remove no zombie. -/
theorem View.Logged.keep (h : v.Logged)
    (hnote : v'.history = v.history ∨ ∃ p, v'.history = .waited p .noChild :: v.history)
    (hpid : v.table.globalPid ≤ v'.table.globalPid)
    (halive : ∀ q, (v'.table.entry q).Alive → (v'.table.entry q).pid = (v.table.entry q).pid ∧
      (v.table.entry q).Alive ∨
      v.table.globalPid ≤ (v'.table.entry q).pid)
    (hzombie : ∀ q, (v'.table.entry q).state = .zombie ↔ (v.table.entry q).state = .zombie)
    (hsame : ∀ q, (v.table.entry q).state = .zombie →
      (v'.table.entry q).pid = (v.table.entry q).pid ∧
      (v'.table.entry q).exitState = (v.table.entry q).exitState) : v'.Logged := by
  have hex : exits v'.history = exits v.history := by
    rcases hnote with he | ⟨p, he⟩ <;> simp [he, exits]
  have hre : reaps v'.history = reaps v.history := by
    rcases hnote with he | ⟨p, he⟩ <;> simp [he, reaps]
  have hmem : ∀ pid status, .exited pid status ∈ v'.history ↔ .exited pid status ∈ v.history := by
    intro pid status
    rcases hnote with he | ⟨p, he⟩ <;> simp [he]
  refine ⟨?_, ?_, fun pid hp => ?_, fun q hq hp => ?_, fun q hq => ?_, fun pid status hm =>
    ?_, fun l l' p pid hl => ?_⟩
  · rw [hex]
    exact h.exitOnce
  · rw [hre]
    exact h.reapOnce
  · rw [hex] at hp
    exact Nat.lt_of_lt_of_le (h.known pid hp) hpid
  · rw [hex] at hp
    rcases halive q hq with ⟨he, ha⟩ | hle
    · rw [he] at hp
      exact h.alive q ha hp
    · exact absurd (h.known _ hp) (Nat.not_lt.mpr hle)
  · have hz := (hzombie q).mp hq
    obtain ⟨h1, h2⟩ := hsame q hz
    rw [h1, h2, hmem, hre]
    exact h.zombie q hz
  · rw [hmem] at hm
    rw [hre]
    rcases h.account pid status hm with hd | ⟨q, hq, h1, h2⟩
    · exact .inl hd
    · obtain ⟨h3, h4⟩ := hsame q hq
      exact .inr ⟨q, (hzombie q).mpr hq, h3.trans h1, h4.trans h2⟩
  · rcases hnote with he | ⟨p', he⟩
    · rw [he] at hl
      exact h.order l l' p pid hl
    · rw [he] at hl
      cases l with
      | nil => cases (List.cons.inj hl).1
      | cons x l => exact h.order l l' p pid (List.cons.inj hl).2

theorem View.Logged.restated (h : v.Logged) (hr : Restated v.table v'.table)
    (hnote : v'.history = v.history ∨ ∃ p, v'.history = .waited p .noChild :: v.history) :
    v'.Logged := by
  refine h.keep hnote (Nat.le_of_eq hr.globalPid.symm)
    (fun q hq => .inl ⟨(hr.same q).1, (hr.alive q).mp hq⟩) hr.zombie fun q _ => ?_
  exact ⟨(hr.same q).1, (hr.same q).2.2⟩

theorem reaps_exits {l : List Note}
    (h : ∀ l₁ l₂ p pid, l = l₁ ++ .waited p (.reaped pid) :: l₂ →
      ∃ status, .exited pid status ∈ l₂) :
    ∀ pid ∈ reaps l, pid ∈ exits l := by
  have hexit : ∀ (l : List Note) pid status, .exited pid status ∈ l → pid ∈ exits l := by
    intro l pid status hm
    induction l with
    | nil => cases hm
    | cons x l ih =>
        rcases List.mem_cons.mp hm with rfl | hrest
        · exact List.mem_cons_self
        · cases x with
          | exited pid' status' => exact List.mem_cons_of_mem _ (ih hrest)
          | waited p r => exact ih hrest
  induction l with
  | nil => exact nofun
  | cons x l ih =>
      have ih := ih fun l₁ l₂ p pid he => h (x :: l₁) l₂ p pid (by rw [he]; rfl)
      intro pid hpid
      cases x with
      | exited pid' status => exact List.mem_cons_of_mem _ (ih pid hpid)
      | waited p r =>
          cases r with
          | reaped pid' =>
              rcases List.mem_cons.mp hpid with rfl | hpid
              · obtain ⟨status, hm⟩ := h [] l p pid rfl
                exact hexit l pid status hm
              · exact ih pid hpid
          | noChild => exact ih pid hpid
          | asleep => exact ih pid hpid

theorem View.Logged.exit {status : Nat} {resume : ProcId → Resume} (h : v.Logged)
    (hok : v.Ok) (hp : v.proc = some p)
    (hz : v.table.proczero ≠ some p) :
    View.Logged ⟨v.table.exited p status, none, resume,
      .exited (v.table.entry p).pid status :: v.history⟩ := by
  have halive := (hok.here hp).1
  have hx := exited_spec hz hok.table.parent_ne status
  generalize v.table.exited p status = t' at hx
  have hnew := h.alive p halive
  have hpids := hok.table.pids
  refine ⟨List.nodup_cons.mpr ⟨hnew, h.exitOnce⟩, h.reapOnce, fun pid hm => ?_, fun q hq hm =>
    ?_, fun q hq => ?_, fun pid st hm => ?_,
    fun l l' r pid hl => ?_⟩
  · dsimp only
    rw [hx.globalPid]
    rcases List.mem_cons.mp hm with rfl | hm
    · exact hok.table.old p halive.1
    · exact h.known pid hm
  · dsimp only at hq hm
    have hqp : q ≠ p := by
      rintro rfl
      rw [hx.self] at hq
      exact hq.2 rfl
    have hq' := (hx.alive halive hqp).mp hq
    rw [hx.pid] at hm
    rcases List.mem_cons.mp hm with he | hm
    · exact hqp (hpids q p hq'.1 halive.1 he)
    · exact h.alive q hq' hm
  · dsimp only at hq ⊢
    by_cases hqp : q = p
    · subst hqp
      rw [hx.self]
      exact ⟨List.mem_cons_self, fun hm => hnew (reaps_exits h.order _ hm)⟩
    · obtain ⟨h1, h2⟩ := h.zombie q ((hx.zombie hqp).mp hq)
      rw [hx.pid, hx.entry q hqp]
      exact ⟨List.mem_cons_of_mem _ h1, h2⟩
  · dsimp only
    rcases List.mem_cons.mp hm with he | hm
    · obtain ⟨rfl, rfl⟩ := Note.exited.inj he
      exact .inr ⟨p, by rw [hx.self], hx.pid p, by rw [hx.self]⟩
    · rcases h.account pid st hm with hd | ⟨q, hq, h1, h2⟩
      · exact .inl hd
      · have hqp : q ≠ p := by
          rintro rfl
          exact halive.2 hq
        exact .inr ⟨q, (hx.zombie hqp).mpr hq,
          (hx.pid q).trans h1, by rw [hx.entry q hqp]; exact h2⟩
  · cases l with
    | nil => cases (List.cons.inj hl).1
    | cons x l => exact h.order l l' r pid (List.cons.inj hl).2

theorem View.Logged.reap {proc : Option ProcId} {resume : ProcId → Resume} (h : v.Logged)
    (hok : v.Ok) (hz : (v.table.entry pp).state = .zombie)
    (hne : pp ≠ p) (hp : (v.table.entry p).Alive) :
    View.Logged ⟨(v.table.awake p).set pp .blank, proc, resume,
      .waited p (.reaped (v.table.entry pp).pid) :: v.history⟩ := by
  have hr : Restated v.table (v.table.awake p) := restated_set hp hp.1 hp.2
  have hent : ∀ q, q ≠ pp → ((v.table.awake p).set pp .blank).entry q = (v.table.awake p).entry q :=
    fun q hq => set_entry_ne hq
  have hself : ((v.table.awake p).set pp .blank).entry pp = .blank := set_entry_self
  obtain ⟨hexit, hnot⟩ := h.zombie pp hz
  refine ⟨h.exitOnce, List.nodup_cons.mpr ⟨hnot, h.reapOnce⟩, h.known, fun q hq => ?_, fun q hq =>
    ?_, fun pid status hm => ?_,
    fun l l' r pid hl => ?_⟩
  · dsimp only at hq ⊢
    have hqp : q ≠ pp := by
      rintro rfl
      rw [hself] at hq
      exact hq.1 rfl
    rw [hent q hqp] at hq ⊢
    rw [(hr.same q).1]
    exact h.alive q ((hr.alive q).mp hq)
  · dsimp only at hq ⊢
    have hqp : q ≠ pp := by
      rintro rfl
      rw [hself] at hq
      cases hq
    rw [hent q hqp] at hq ⊢
    have hzq := (hr.zombie q).mp hq
    obtain ⟨h1, h2⟩ := h.zombie q hzq
    rw [(hr.same q).1, (hr.same q).2.2]
    refine ⟨List.mem_cons_of_mem _ h1, fun hm => ?_⟩
    rcases List.mem_cons.mp hm with he | hm
    · refine hqp (hok.table.pids q pp ?_ ?_ he)
      · rw [hzq]
        exact nofun
      · rw [hz]
        exact nofun
    · exact h2 hm
  · dsimp only
    have hm' : .exited pid status ∈ v.history := by
      rcases List.mem_cons.mp hm with he | hm
      · cases he
      · exact hm
    rcases h.account pid status hm' with hd | ⟨q, hq, h1, h2⟩
    · exact .inl (List.mem_cons_of_mem _ hd)
    · by_cases hqp : q = pp
      · subst hqp
        rw [← h1]
        exact .inl List.mem_cons_self
      · refine .inr ⟨q, ?_, ?_, ?_⟩
        · rw [hent q hqp]
          exact (hr.zombie q).mpr hq
        · rw [hent q hqp]
          exact (hr.same q).1.trans h1
        · rw [hent q hqp]
          exact (hr.same q).2.2.trans h2
  · cases l with
    | nil =>
        obtain ⟨he, rfl⟩ := List.cons.inj hl
        obtain ⟨-, he⟩ := Note.waited.inj he
        rw [← WaitResult.reaped.inj he]
        exact ⟨_, hexit⟩
    | cons x l => exact h.order l l' r pid (List.cons.inj hl).2

/-- A new process: the entries are the old ones but for one that was not in use. -/
theorem View.Logged.admit (h : v.Logged) (hnp : (v.table.entry np).state = .unused) (hhist : v'.history = v.history)
    (hpid : v.table.globalPid ≤ v'.table.globalPid) (hother : ∀ q, q ≠ np → v'.table.entry q = v.table.entry q)
    (hst : (v'.table.entry np).state ≠ .zombie)
    (hnew : (v'.table.entry np).state ≠ .unused → v.table.globalPid ≤ (v'.table.entry np).pid) : v'.Logged := by
  have hzn : (v.table.entry np).state ≠ .zombie := by
    rw [hnp]
    exact nofun
  refine h.keep (.inl hhist) hpid (fun q hq => ?_) (fun q => ?_) fun q hq => ?_
  · by_cases hqn : q = np
    · subst hqn
      exact .inr (hnew hq.1)
    · rw [hother q hqn] at hq ⊢
      exact .inl ⟨rfl, hq⟩
  · by_cases hqn : q = np
    · subst hqn
      exact ⟨fun hc => absurd hc hst, fun hc => absurd hc hzn⟩
    · rw [hother q hqn]
  · have hqn : q ≠ np := by
      rintro rfl
      exact hzn hq
    rw [hother q hqn]
    exact ⟨rfl, rfl⟩

theorem Move.logged (hm : Move v v') (hok : v.Ok) (h : v.Logged) : v'.Logged := by
  cases hm with
  | @makeFirst np zero idle unused =>
      have hnew : (v.table.begun np).entry np = { v.table.entry np with pid := v.table.globalPid, state := .runnable } := set_entry_self
      refine h.admit unused rfl (Nat.le_succ _) (fun q hq => set_entry_ne hq) ?_ fun _ => ?_
      · dsimp only
        rw [hnew]
        exact nofun
      · dsimp only
        rw [hnew]
  | @dispatch p idle runnable =>
      refine h.restated ?_ (.inl rfl)
      refine restated_set ?_ nofun nofun
      unfold Entry.Alive
      rw [runnable]
      exact ⟨nofun, nofun⟩
  | stay => exact h
  | @fork p np here _ unused =>
      have hnew : (v.table.forked p np).entry np =
          { v.table.entry np with pid := v.table.globalPid, state := .runnable, parent := some p } := set_entry_self
      refine h.admit unused rfl (Nat.le_succ _) (fun q hq => set_entry_ne hq) ?_ fun _ => ?_
      · dsimp only
        rw [hnew]
        exact nofun
      · dsimp only
        rw [hnew]
  | @abandon np unused =>
      have hnew : (v.table.abandoned np).entry np = .blank := set_entry_self
      refine h.admit unused rfl (Nat.le_succ _) (fun q hq => set_entry_ne hq) ?_ fun hc => ?_
      · dsimp only
        rw [hnew]
        exact nofun
      · dsimp only at hc
        rw [hnew] at hc
        exact absurd rfl hc
  | @yield p here _ => exact h.restated (restated_set (hok.here here).1 nofun nofun) (.inl rfl)
  | sleep space lk here _ =>
      exact h.restated (restated_set (hok.here here).1 nofun nofun) (.inl rfl)
  | wakeup space => exact h.restated restated_wake (.inl rfl)
  | exit status here _ nonzero => exact h.exit hok here nonzero
  | @reap p pp here child zombie =>
      refine h.reap hok zombie ?_ (hok.here here).1
      rintro rfl
      exact hok.table.parent_ne child
  | @noChild p here _ =>
      have ha := (hok.here here).1
      exact h.restated (restated_set ha ha.1 ha.2) (.inr ⟨p, rfl⟩)
  | wait addr here _ _ => exact h.restated (restated_set (hok.here here).1 nofun nofun) (.inl rfl)
  | goOn here =>
      have ha := (hok.here here).1
      exact h.restated (restated_set ha ha.1 ha.2) (.inl rfl)

/-! ## Runs -/

theorem Idle.ok (h : Idle s) : (Cpu.start s).view.Ok ∧ (Cpu.start s).view.Logged := by
  have hent : ∀ p, (Cpu.start s).view.table.entry p = .blank := h.blank
  have hst : ∀ p, ((Cpu.start s).view.table.entry p).state = .unused := fun p => by rw [hent]; rfl
  have hzero : (Cpu.start s).view.table.proczero = none := h.proczero
  refine ⟨⟨⟨h.locks, fun p _ => hent p, fun p hp => absurd (hst p) hp, fun p _ hp =>
    absurd (hst p) hp, fun _ => hst, fun z hz => ?_,
    fun p hp => absurd (hst p) hp⟩, fun p => ?_, fun p _ => rfl, fun p hp => ?_⟩,
      ⟨List.nodup_nil, List.nodup_nil, nofun, fun p hp => absurd (hst p) hp.1,
    fun p hp => ?_, nofun, fun l l' p pid hl => ?_⟩⟩
  · rw [hzero] at hz
    cases hz
  · rw [hst p]
    exact ⟨nofun, nofun⟩
  · rw [hst p] at hp
    cases hp
  · rw [hst p] at hp
    cases hp
  · exact absurd hl.symm (List.append_ne_nil_of_right_ne_nil _ nofun)

/-- What holds after every run. -/
theorem Idle.run (h : Idle s) (hrun : exec Cpu.step l (Cpu.start s) = some c) :
    c.view.Ok ∧ c.view.Logged :=
  exec_induction (I := fun _ c => c.view.Ok ∧ c.view.Logged) hrun h.ok fun _ _ _ _ _ hi hstep =>
    ⟨(step_move hstep).ok hi.1, (step_move hstep).logged hi.1 hi.2⟩

/-! ## A run -/

theorem Ready.idle {a t e : Nat} {m : Bytes} {g : Ledger} (h : Ready (Kernel.start a t e m) g s) :
    Idle s := by
  obtain ⟨r, hrest⟩ := h.rest
  have hprocs : s.procs = slotProc := (congrArg Kernel.procs hrest :)
  refine ⟨fun p => ?_, (congrArg Kernel.proczero hrest :), fun lk =>
    (congrFun (congrArg Kernel.locks hrest) lk :)⟩
  rw [hprocs]
  rfl

def firstTable : Table :=
  ⟨fun p => if p = 0 then ⟨1, .runnable, none, 0, none⟩ else .blank, some 0, 2, fun _ => false⟩

/-- The table when the first process runs and has a child. -/
def forkedTable : Table :=
  (firstTable.set 0 { firstTable.entry 0 with state := .running }).forked 0 1

/-- The table when the child has exited with status 7 while its parent slept in `proc_wait`. -/
def exitedTable : Table :=
  ((forkedTable.asleep 0).set 1 { (forkedTable.asleep 0).entry 1 with state := .running }).exited 1
    7

theorem FirstMade.table {a t e : Nat} {m : Bytes} {g : Ledger}
    (h : FirstMade (Kernel.start a t e m) g s) : s.table = firstTable := by
  obtain ⟨r, tf, pgtbl, hrest⟩ := h.rest
  refine Eq.trans (congrArg Kernel.table hrest :) (Table.ext ?_ rfl rfl rfl)
  funext p
  change (Function.update slotProc 0 (firstProc tf pgtbl) p).entry = if p = 0 then _ else _
  by_cases hp : p = 0
  · subst hp
    rw [Function.update_self, if_pos rfl]
    rfl
  · rw [Function.update_of_ne hp, if_neg hp]
    rfl

theorem FirstMade.settled {a t e : Nat} {m : Bytes} {g : Ledger}
    (h : FirstMade (Kernel.start a t e m) g s) : Settled g s := by
  obtain ⟨r, tf, pgtbl, hrest⟩ := h.rest
  have hprocs : s.procs = Function.update slotProc 0 (firstProc tf pgtbl) :=
    (congrArg Kernel.procs hrest :)
  have hself : s.procs 0 = firstProc tf pgtbl := by rw [hprocs, Function.update_self]
  have hother : ∀ p, p ≠ 0 → s.procs p = slotProc p := by
    intro p hp
    rw [hprocs, Function.update_of_ne hp]
  have hin : ∀ p, s.InUse p → p = 0 := by
    intro p hp
    by_contra hne
    refine hp ?_
    rw [hother p hne]
    rfl
  have hfree : ∀ p, (s.procs p).state = .unused → p ≠ 0 := by
    rintro p hp rfl
    rw [hself] at hp
    cases hp
  refine ⟨⟨h.world.anti hin, fun p hp => ?_, fun p hp =>
    h.unstacked p (hfree p hp), fun p hp => hin p hp ▸ h.stack,
    h.trampoline, fun i => ?_, fun p hp => ?_⟩, fun p hp => hin p hp ▸ h.trapframe,
    fun lk => (congrFun (congrArg Kernel.locks hrest) lk :)⟩
  · rw [hother p (hfree p hp)]
    exact ⟨rfl, rfl⟩
  · rw [show s.nodes = warehouse from (congrArg Kernel.nodes hrest :)]
    rfl
  · rw [hin p hp, hself]
    exact (by decide : 0x10000 % pgSize = 0)

/-- The first process can fork. -/
theorem FirstMade.forkable {a t e : Nat} {m : Bytes} {g : Ledger}
    (h : FirstMade (Kernel.start a t e m) g s) (hroom : 6 ≤ userPages a) :
    Forkable g s 0 := by
  obtain ⟨r, tf, pgtbl, hrest⟩ := h.rest
  have hprocs : s.procs = Function.update slotProc 0 (firstProc tf pgtbl) :=
    (congrArg Kernel.procs hrest :)
  have hself : s.procs 0 = firstProc tf pgtbl := by rw [hprocs, Function.update_self]
  have hcost : forkCost s pgSize 0x10000 (u32 1) [] = 2 := rfl
  have hkp : kernelPages = 1024 := rfl
  have huser := h.user
  have hused := h.used
  obtain ⟨q, q', -, -, hleaf⟩ := h.leaf
  rw [hself] at hleaf
  have hpresent : ∀ v < vaPages, v = 0 ∨ v = 16 → Present s pgtbl v := by
    rintro v hv hc
    refine ⟨hv, ?_⟩
    rw [show Mem.leaf s.mem pgtbl v = _ from hleaf v hv]
    rcases hc with rfl | rfl
    · exact mapPte_valid (by decide)
    · exact mapPte_valid (by decide)
  refine ⟨⟨1, by rw [hprocs]; rfl⟩, ?_, ?_, ?_, ?_, fun w hw => ?_, ?_, ?_⟩
  · rw [show s.globalPid = 2 from (congrArg Kernel.globalPid hrest :)]
    decide
  · rw [hself]
    rfl
  · rw [hself]
    exact (by decide : pgRoundUp pgSize ≤ vaMax)
  · rw [hself]
    exact hpresent 0 (by decide) (.inl rfl)
  · rw [hself] at hw ⊢
    obtain ⟨-, hlo, hhi⟩ :
    _ ∧ 0x10000 / pgSize ≤ w ∧
    w < 0x10000 / pgSize + pagesBetween 0x10000 (u64 (0x10000 + u32 (u32 1 * pgSize))) :=
      hw
    rw [show 0x10000 / pgSize = 16 by decide] at hlo hhi
    rw [show pagesBetween 0x10000 (u64 (0x10000 + u32 (u32 1 * pgSize))) = 1 by decide] at hhi
    obtain rfl : w = 16 := by omega
    exact hpresent 16 (by decide) (.inr rfl)
  · rw [hself]
    change 1 + forkCost s pgSize 0x10000 (u32 1) [] ≤ _
    change userPages a ≤ _ at huser
    omega
  · rw [hself]
    change 4 + 2 * forkCost s pgSize 0x10000 (u32 1) [] ≤ _
    omega

theorem alive_of_running {x : Proc} (h : x.state = .running) : x.entry.Alive :=
  ⟨fun hc => (by cases h.symm.trans hc), fun hc => (by cases h.symm.trans hc)⟩

/-- After `main` the first process is made. -/
theorem exists_begun :
    ∃ s g s₁, Idle s ∧ exec Cpu.step
      [.makeFirst] (Cpu.start s) = some (Cpu.start s₁) ∧ Settled g s₁ ∧
    Forkable g s₁ 0 ∧ s₁.table = firstTable := by
  have hlinked : Linked (Kernel.start 0x80030000 0x80000000 0x80001000 fun _ => 0) :=
    ⟨⟨by decide, by decide, by decide, by decide⟩, by decide, by decide, by decide⟩
  have hboot :
      Sat bootKernel (Kernel.start 0x80030000 0x80000000 0x80001000 fun _ => 0) (fun _ => True)
        (fun _ s => ∃ g, Ready (Kernel.start 0x80030000 0x80000000 0x80001000 fun _ => 0) g s)
        fun _ => False :=
    bootKernel_sat hlinked fun g s hready => ⟨g, hready⟩
  obtain ⟨-, s, -, g, hready⟩ := hboot.returns
  have hidle := hready.idle
  have hfirst : Sat procMakeFirst s (fun _ => True)
      (fun _ s => ∃ g, FirstMade (Kernel.start 0x80030000 0x80000000 0x80001000 fun _ => 0) g s)
      fun _ => False :=
    procMakeFirst_sat hready (by decide) fun g' s' h => ⟨g', h⟩
  obtain ⟨u, s₁, hret, g₁, hmade⟩ := returned_of_returns hfirst
  refine ⟨s, g₁, s₁, hidle, ?_, hmade.settled, hmade.forkable (by decide), hmade.table⟩
  have hstep : (Cpu.start s).step .makeFirst = some (Cpu.start s₁) := by
    unfold Cpu.step
    dsimp only
    rw [if_pos ⟨hidle.proczero, rfl⟩]
    change (returned procMakeFirst s).bind _ = _
    rw [hret]
    rfl
  rw [exec, hstep]
  rfl

theorem entry_of_table (h : s.table = t) (q : ProcId) : (s.procs q).entry = t.entry q :=
  (congrArg (fun t => Table.entry t q) h :)

theorem running_states
    (h : s.table = firstTable.set 0 { firstTable.entry 0 with state := .running }) (q : ProcId) :
    (s.procs q).state = if q = 0 then .running else .unused := by
  refine (congrArg Entry.state (entry_of_table h q) :).trans ?_
  revert q
  decide

/-- The first free slot when the first process is the only one. -/
theorem first_free (h : ∀ q, (s.procs q).state = if q = 0 then .running else .unused)
    (hnp : (s.procs np).state = .unused)
    (hfirst : ∀ q, q < np → (s.procs q).state ≠ .unused) : np = 1 := by
  by_contra hne
  rcases lt_or_gt_of_ne hne with hlt | hlt
  · obtain rfl : np = 0 := Fin.ext (Nat.lt_one_iff.mp hlt)
    cases (h 0).symm.trans hnp
  · exact hfirst 1 hlt (h 1)

/-- The first process runs, and forks. -/
theorem exists_forked :
    ∃ s g s₁ s₂ c, Idle s ∧ exec Cpu.step [.makeFirst] (Cpu.start s) = some (Cpu.start s₁) ∧
    (Cpu.start s₁).step (.schedule 0) = some ⟨s₂, some 0, fun _ => .user, []⟩ ∧
    exec Cpu.step [.makeFirst, .schedule 0, .fork] (Cpu.start s) = some c ∧ Settled g c.kernel ∧
    c.view = ⟨forkedTable, some 0, fun _ => .user, []⟩ := by
  obtain ⟨s, g, s₁, hidle, hrun₁, hs₁, hf₁, ht₁⟩ := exists_begun
  have hrunnable : (s₁.procs 0).state = .runnable := (congrArg Entry.state (entry_of_table ht₁ 0) :)
  obtain ⟨s₂, hstep₂, hs₂, hu₂, ht₂⟩ := Cpu.step_schedule (c := Cpu.start s₁) rfl hs₁ hrunnable
  rw [show (Cpu.start s₁).kernel.table = firstTable from ht₁] at ht₂
  have hst₂ := running_states ht₂
  obtain ⟨np, g₃, s₃, hstep₃, hnp, hfirst, hs₃, ht₃⟩ :=
    Cpu.step_fork (c := ⟨s₂, some 0, fun _ => .user, []⟩) rfl rfl hs₂
    (alive_of_running (hst₂ 0))
    (hf₁.keeps (keepsSpace_tabled hu₂) (congrArg Kernel.globalPid hu₂ :) ⟨1, hst₂ 1⟩)
  obtain rfl : np = 1 := first_free hst₂ hnp hfirst
  rw [show (Cpu.kernel ⟨s₂, some 0, fun _ => .user, []⟩).table = _ from ht₂] at ht₃
  refine ⟨s, g₃, s₁, s₂, ⟨s₃, some 0, fun _ => .user, []⟩, hidle, hrun₁, hstep₂, ?_, hs₃,
    congrArg (View.mk · _ _ _) ht₃⟩
  exact exec_trans hrun₁ ((exec_cons hstep₂).trans ((exec_cons hstep₃).trans rfl))

/-- The parent waits for its child. -/
theorem exists_waiting :
    ∃ s g c, Idle s ∧ exec Cpu.step
      [.makeFirst, .schedule 0, .fork, .wait 0] (Cpu.start s) = some c ∧
    Settled g c.kernel ∧
    c.view = ⟨forkedTable.asleep 0, none, Function.update (fun _ => .user) 0 (.wait 0), []⟩ := by
  obtain ⟨s, g, -, -, c, hidle, -, -, hrun, hs, hv⟩ := exists_forked
  have hent := entry_of_table (congrArg View.table hv)
  have hlive : ∀ q, (forkedTable.entry q).state ≠ .zombie := by decide
  obtain ⟨s', hpass, hs', ht⟩ :=
    Cpu.waitPass_asleep hs (alive_of_running (congrArg Entry.state (hent 0) :))
    (fun q _ hz => hlive q ((congrArg Entry.state (hent q)).symm.trans hz))
    ⟨1, (congrArg Entry.parent (hent 1) :)⟩
  have hstep :
      c.step (.wait 0) = some ⟨s', none, Function.update c.resume 0 (.wait 0), c.history⟩ := by
    unfold Cpu.step
    dsimp only
    rw [Cpu.outside_eq (congrArg View.proc hv :) (congrFun (congrArg View.resume hv) 0 :),
      Option.bind_eq_bind, Option.bind_some, hpass]
  refine ⟨s, g, _, hidle, (exec_snoc hrun).trans hstep, hs', ?_⟩
  rw [show c.resume = fun _ =>
    .user from (congrArg View.resume hv :), show c.history = [] from (congrArg View.history hv :)]
  exact congrArg (View.mk · _ _ _) (ht.trans (congrArg (Table.asleep · 0) (congrArg View.table hv)))

/-- The child exits. -/
theorem exists_exited :
    ∃ s g c c', Idle s ∧ exec Cpu.step
      [.makeFirst, .schedule 0, .fork, .wait 0] (Cpu.start s) = some c ∧
    c.view = ⟨forkedTable.asleep 0, none, Function.update (fun _ => .user) 0 (.wait 0), []⟩ ∧
    exec Cpu.step [.schedule 1, .exit 7] c = some c' ∧ Settled g c'.kernel ∧
    c'.view = ⟨exitedTable, none,
      Function.update (Function.update (fun _ => .user) 0 (.wait 0)) 1 .user, [.exited 2 7]⟩ := by
  obtain ⟨s, g, c, hidle, hrun, hs, hv⟩ := exists_waiting
  have hent := entry_of_table (congrArg View.table hv)
  obtain ⟨s₁, hstep₁, hs₁, -, ht₁⟩ :=
    Cpu.step_schedule (congrArg View.proc hv :) hs (congrArg Entry.state (hent 1) :)
  rw [show c.kernel.table = _ from congrArg View.table hv] at ht₁
  have hent₁ := entry_of_table ht₁
  obtain ⟨s₂, hstep₂, hs₂, ht₂⟩ :=
    Cpu.step_exit (c := { c with kernel := s₁, proc := some 1 }) rfl
      (congrFun (congrArg View.resume hv) 1 :) hs₁
    (alive_of_running (congrArg Entry.state (hent₁ 1) :)) (by
      rw [show s₁.proczero = some 0 from (congrArg Table.proczero ht₁ :)]
      decide) 7
  refine ⟨s, g, c, _, hidle, hrun, hv, (exec_cons hstep₁).trans ((exec_cons hstep₂).trans rfl), hs₂,
    ?_⟩
  unfold Cpu.view
  rw [View.mk.injEq]
  refine ⟨?_, rfl, ?_, ?_⟩
  · exact ht₂.trans (congrArg (Table.exited · 1 7) ht₁)
  · exact congrArg (Function.update · 1 .user) (congrArg View.resume hv :)
  · exact congrArg₂ (fun pid l => Note.exited pid 7 :: l) (congrArg Entry.pid (hent₁ 1) :)
      (congrArg View.history hv :)

/-- The child is collected. -/
theorem exists_collected : ∃ s c, Idle s ∧
    exec Cpu.step
      [.makeFirst, .schedule 0, .fork, .wait 0, .schedule 1, .exit 7, .schedule 0, .goOn]
      (Cpu.start s) = some c ∧
    c.history = [.waited 0 (.reaped 2), .exited 2 7] := by
  obtain ⟨s, g, c₀, c, hidle, hrun₀, -, hrun, hs, hv⟩ := exists_exited
  have hent := entry_of_table (congrArg View.table hv)
  obtain ⟨s₁, hstep₁, hs₁, -, ht₁⟩ := Cpu.step_schedule (congrArg View.proc hv :) hs
    ((congrArg Entry.state (hent 0)).trans (by decide +kernel))
  rw [show c.kernel.table = _ from congrArg View.table hv] at ht₁
  have hent₁ := entry_of_table ht₁
  have honly :
      ∀ q, ((exitedTable.set 0 { exitedTable.entry 0 with state := .running }).entry q).parent =
        some 0 → q = 1 := by
    decide +kernel
  obtain ⟨s₂, hpass, -⟩ := Cpu.waitPass_reaped (c := { c with kernel := s₁, proc := some 0 }) hs₁
    (alive_of_running (congrArg Entry.state (hent₁ 0) :))
    ((congrArg Entry.parent (hent₁ 1)).trans (by decide +kernel))
    ((congrArg Entry.state (hent₁ 1)).trans (by decide +kernel)) fun q hq =>
      honly q ((congrArg Entry.parent (hent₁ q)).symm.trans hq)
  have hres : c.resume 0 = .wait 0 := (congrFun (congrArg View.resume hv) 0 :).trans (by decide)
  have hgoOn : ({ c with kernel := s₁, proc := some 0 } : Cpu).step .goOn =
      ({ c with kernel := s₁, proc := some 0 } : Cpu).waitPass 0 0 := by
    unfold Cpu.step
    dsimp only
    rw [Option.bind_eq_bind, Option.bind_some, hres]
  refine ⟨s, _, hidle,
    exec_trans hrun₀
      (exec_trans hrun ((exec_cons hstep₁).trans ((exec_cons (hgoOn.trans hpass)).trans rfl))), ?_⟩
  exact congrArg₂ (fun pid l => Note.waited 0 (.reaped pid) :: l)
    ((congrArg Entry.pid (hent₁ 1)).trans (by decide +kernel))
    (congrArg View.history hv :)

end

/-! ## Main results -/

/-- The table is in order, and the process with the hart is the one that is running. -/
structure View.InOrder (v : View) : Prop where
  table : v.table.Ok
  running : ∀ p, (v.table.entry p).state = .running ↔ v.proc = some p

/-- Who sleeps in `proc_wait` has children, and none of them has exited. -/
def View.Attentive (v : View) : Prop :=
  ∀ p addr, v.resume p = .wait addr → (v.table.entry p).state = .sleeping →
    (∃ q, (v.table.entry q).parent = some p) ∧ ∀ q, (v.table.entry q).parent = some p →
    (v.table.entry q).Alive

def Table.ParentOf (t : Table) (p q : ProcId) : Prop := (t.entry p).parent = some q

/-- The processes in use are a tree below `proczero`. -/
structure Table.Rooted (t : Table) : Prop where
  descends : ∀ p, (t.entry p).state ≠ .unused →
    ∃ z, t.proczero = some z ∧ Relation.ReflTransGen t.ParentOf p z
  acyclic : ∀ p, ¬ Relation.TransGen t.ParentOf p p

/-- The changes of state of `enum proc_state`. -/
inductive Transition : ProcState → ProcState → Prop where
  | init : Transition .unused .runnable
  | scheduled : Transition .runnable .running
  | yielded : Transition .running .runnable
  | slept : Transition .running .sleeping
  | woken : Transition .sleeping .runnable
  | exited : Transition .running .zombie
  | reaped : Transition .zombie .unused

section

variable {v v' : View} {t : Table} {p q np : ProcId} {s : Kernel} {c c' : Cpu}
  {l : List Act} {a : Act}

/-- After every run of the hart the process table is in order: no lock is held, slots that are not
in use are blank, the numbers of processes differ, the process with the hart is the one that is
running, and every process but the first has a parent that has not exited and is older. -/
theorem process_table_ok (h : Idle s) (hrun : exec Cpu.step l (Cpu.start s) = some c) :
    c.view.InOrder :=
  have hok := (h.run hrun).1
  ⟨hok.table, hok.running⟩

/-- The first process has a child. -/
theorem process_table_ok_forked :
    ∃ s c, exec Cpu.step [.makeFirst, .schedule 0, .fork] (Cpu.start s) = some c ∧ c.proc = some 0 ∧
    (c.kernel.procs 1).parent = some 0 ∧ c.view.InOrder := by
  obtain ⟨s, g, -, -, c, hidle, -, -, hrun, -, hv⟩ := exists_forked
  exact ⟨s, c, hrun, (congrArg View.proc hv :),
    (congrArg Entry.parent (entry_of_table (congrArg View.table hv) 1) :),
    process_table_ok hidle hrun⟩

/-- No exit is missed: whoever sleeps in `proc_wait` has a child, and no child that has exited. -/
theorem no_lost_exit (h : Idle s) (hrun : exec Cpu.step l (Cpu.start s) = some c) :
    c.view.Attentive := by
  intro p addr hres hst
  have hok := (h.run hrun).1
  rcases hok.asleep p hst with ⟨lk, hlk⟩ | ⟨-, -, hnone, hkid⟩
  · cases hlk.symm.trans hres
  · exact ⟨hkid, fun q hq => ⟨(hok.table.parent_alive hq).1, hnone q hq⟩⟩

/-- A parent sleeps in `proc_wait` while its child runs, and is woken up when the child exits. -/
theorem no_lost_exit_child :
    ∃ s c c', exec Cpu.step [.makeFirst, .schedule 0, .fork, .wait 0] (Cpu.start s) = some c ∧
    c.resume 0 = .wait 0 ∧ (c.kernel.procs 0).state = .sleeping ∧ c.view.Attentive ∧
    exec Cpu.step [.schedule 1, .exit 7] c = some c' ∧ (c'.kernel.procs 1).state = .zombie ∧
    (c'.kernel.procs 0).state = .runnable ∧
    c'.view.Attentive := by
  obtain ⟨s, g, c, c', hidle, hrun, hv, hrun', -, hv'⟩ := exists_exited
  have hent := entry_of_table (congrArg View.table hv)
  have hent' := entry_of_table (congrArg View.table hv')
  exact ⟨s, c, c', hrun, (congrFun (congrArg View.resume hv) 0 :),
    (congrArg Entry.state (hent 0) :), no_lost_exit hidle hrun, hrun',
    (congrArg Entry.state (hent' 1)).trans (by decide +kernel),
    (congrArg Entry.state (hent' 0)).trans (by decide +kernel),
    no_lost_exit hidle (exec_trans hrun hrun')⟩

/-- Every process exits at most once and is collected at most once, after its exit; until then it is
a zombie with the status it gave. -/
theorem exits_collected_once (h : Idle s) (hrun : exec Cpu.step l (Cpu.start s) = some c) :
    c.view.Logged := (h.run hrun).2

/-- The child exits and its parent, which waits for it, collects it. -/
theorem exits_collected_once_child : ∃ s c,
    exec Cpu.step
      [.makeFirst, .schedule 0, .fork, .wait 0, .schedule 1, .exit 7, .schedule 0, .goOn]
      (Cpu.start s) = some c ∧
    c.history = [.waited 0 (.reaped 2), .exited 2 7] ∧ c.view.Logged := by
  obtain ⟨s, c, hidle, hrun, hh⟩ := exists_collected
  exact ⟨s, c, hrun, hh, exits_collected_once hidle hrun⟩

/-- An ancestor is older. -/
theorem Table.Ok.ancestor_older (h : t.Ok) (ht : Relation.TransGen t.ParentOf p q) :
    (t.entry q).pid < (t.entry p).pid := by
  induction ht with
  | single hq => exact (h.parent_alive hq).2.2
  | tail _ hq ih => exact Nat.lt_trans (h.parent_alive hq).2.2 ih

theorem Table.Ok.rooted (h : t.Ok) : t.Rooted := by
  refine ⟨fun p hp => ?_, fun p hc => Nat.lt_irrefl _ (h.ancestor_older hc)⟩
  -- the parents get older until `proczero` is reached
  induction hn : (t.entry p).pid using Nat.strong_induction_on generalizing p with
  | _ n ih =>
      cases hz : t.proczero with
      | none => exact absurd (h.empty hz p) hp
      | some z =>
          refine ⟨z, rfl, ?_⟩
          by_cases hpz : p = z
          · rw [hpz]
          · obtain ⟨q, hq, halive, hlt⟩ :=
              h.parent p hp fun hc => hpz (Option.some.inj (hc.symm.trans hz))
            rw [hn] at hlt
            obtain ⟨z', hz', hreach⟩ := ih _ hlt q halive.1 rfl
            rw [hz] at hz'
            obtain rfl := Option.some.inj hz'
            exact Relation.ReflTransGen.head hq hreach

/-- After every run the processes form a tree: going from parent to parent one gets from every
process to `proczero`, and never back. -/
theorem family_rooted (h : Idle s) (hrun : exec Cpu.step l (Cpu.start s) = some c) :
    c.kernel.table.Rooted := (h.run hrun).1.table.rooted

/-- The child of the first process has exited. -/
theorem family_rooted_exited : ∃ s c,
    exec Cpu.step [.makeFirst, .schedule 0, .fork, .wait 0, .schedule 1, .exit 7]
      (Cpu.start s) = some c ∧
    (c.kernel.procs 1).state = .zombie ∧ (c.kernel.procs 1).parent = some 0 ∧
    c.kernel.table.Rooted := by
  obtain ⟨s, g, c, c', hidle, hrun, -, hrun', -, hv'⟩ := exists_exited
  have hent := entry_of_table (congrArg View.table hv') 1
  exact ⟨s, c', exec_trans hrun hrun', (congrArg Entry.state hent).trans (by decide +kernel),
    (congrArg Entry.parent hent).trans (by decide +kernel),
    family_rooted hidle (exec_trans hrun hrun')⟩

theorem Move.transition (hm : Move v v') (h : v.Ok) (q : ProcId) :
    (v'.table.entry q).state = (v.table.entry q).state ∨
    Transition (v.table.entry q).state (v'.table.entry q).state := by
  have hset : ∀ p e, Transition (v.table.entry p).state e.state →
    ((v.table.set p e).entry q).state = (v.table.entry q).state ∨
      Transition (v.table.entry q).state ((v.table.set p e).entry q).state := by
    intro p e hp
    rw [set_entry]
    split
    · next he =>
      subst he
      exact .inr hp
    · exact .inl rfl
  have hawake : ∀ p, ((v.table.awake p).entry q).state = (v.table.entry q).state :=
    fun p => (awake_entry _ p q).2.1
  cases hm with
  | @makeFirst np _ _ unused =>
      refine hset np _ ?_
      rw [unused]
      exact .init
  | @dispatch p _ runnable =>
      refine hset p _ ?_
      rw [runnable]
      exact .scheduled
  | stay => exact .inl rfl
  | @fork p np _ _ unused =>
      refine hset np _ ?_
      rw [unused]
      exact .init
  | @abandon np unused =>
      dsimp only
      rw [abandoned_entry h.table unused]
      exact .inl rfl
  | @yield p here _ =>
      refine hset p _ ?_
      rw [(h.running p).mpr here]
      exact .yielded
  | @sleep p space lk here _ =>
      refine hset p _ ?_
      rw [(h.running p).mpr here]
      exact .slept
  | wakeup space =>
      dsimp only
      rw [wake_entry]
      split
      · next hc =>
        rw [hc.2.1]
        exact .inr .woken
      · exact .inl rfl
  | @exit p status here _ nonzero =>
      have hx := exited_spec nonzero h.table.parent_ne status
      dsimp only
      by_cases hqp : q = p
      · subst hqp
        rw [hx.self, (h.running q).mpr here]
        exact .inr .exited
      · rcases hx.state q hqp with he | ⟨h1, h2⟩
        · exact .inl he
        · rw [h1, h2]
          exact .inr .woken
  | @reap p pp _ _ zombie =>
      dsimp only
      rw [set_entry]
      split
      · next he =>
        subst he
        rw [zombie]
        exact .inr .reaped
      · exact .inl (hawake p)
  | @noChild p _ _ => exact .inl (hawake p)
  | @wait p addr here _ _ =>
      refine hset p _ ?_
      rw [(h.running p).mpr here]
      exact .slept
  | @goOn p _ => exact .inl (hawake p)

/-- In every step of every run a process changes its state only as the comment of `enum proc_state`
allows; nobody is killed. -/
theorem state_transitions (h : Idle s) (hrun : exec Cpu.step l (Cpu.start s) = some c)
    (hstep : c.step a = some c') (q : ProcId) :
    (c'.kernel.procs q).state = (c.kernel.procs q).state ∨
    Transition (c.kernel.procs q).state (c'.kernel.procs q).state :=
  (step_move hstep).transition (h.run hrun).1 q

theorem state_transitions_first : ∃ c c' : Cpu, c.step (.schedule 0) = some c' ∧ ∀ q,
    (c'.kernel.procs q).state = (c.kernel.procs q).state ∨
    Transition (c.kernel.procs q).state (c'.kernel.procs q).state := by
  obtain ⟨s, g, s₁, s₂, c, hidle, hrun, hstep, -⟩ := exists_forked
  exact ⟨Cpu.start s₁, _, hstep, state_transitions hidle hrun hstep⟩

end

end WhuOs.Mem
