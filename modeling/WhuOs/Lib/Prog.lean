import Mathlib.Logic.Basic
import Mathlib.Logic.Relation

/-! # Sequential programs with state, panics and a trace

A program over a state `σ` either returns a value with a new state or stops with
a panic `ε`; in both cases it leaves behind the list of observable events `τ` it
performed. Statements about programs are triples (`Sat`): what every event
satisfies, what holds on return and which panics are possible. `SatOn` is the
conditional form used when a property is only promised for runs whose events all
satisfy a condition. `Step` and `Reach` are the transition system of a family of
operations.
-/

namespace WhuOs

/-- A program: the outcome and the trace of one execution from a state. -/
def Prog (σ ε τ α : Type) : Type := σ → Except ε (α × σ) × List τ

namespace Prog

variable {σ ε τ α β : Type}

def ret (a : α) : Prog σ ε τ α := fun s => (.ok (a, s), [])

/-- Sequencing keeps the trace of the first part when it panics. -/
def seq (m : Prog σ ε τ α) (f : α → Prog σ ε τ β) : Prog σ ε τ β := fun s =>
  match m s with
  | (.ok (a, s'), l) => ((f a s').1, l ++ (f a s').2)
  | (.error e, l) => (.error e, l)

instance : Monad (Prog σ ε τ) where
  pure := ret
  bind := seq

theorem ret_bind (a : α) (f : α → Prog σ ε τ β) : (pure a >>= f) = f a := by
  funext s
  simp [pure, bind, ret, seq]

theorem bind_ret (m : Prog σ ε τ α) : (m >>= fun a => pure a) = m := by
  funext s
  simp only [bind, pure, seq, ret]
  rcases m s with ⟨r, l⟩
  rcases r with e | ⟨a, s'⟩
  · rfl
  · simp

theorem seq_assoc {γ : Type} (m : Prog σ ε τ α) (f : α → Prog σ ε τ β) (g : β → Prog σ ε τ γ) :
    (m >>= f) >>= g = m >>= fun a => f a >>= g := by
  funext s
  simp only [bind, seq]
  rcases m s with ⟨r, l⟩
  rcases r with e | ⟨a, s'⟩
  · rfl
  · simp only
    rcases f a s' with ⟨r', l'⟩
    rcases r' with e' | ⟨b, s''⟩ <;> simp

/-- The current state. -/
def state : Prog σ ε τ σ := fun s => (.ok (s, s), [])

def modify (f : σ → σ) : Prog σ ε τ Unit := fun s => (.ok ((), f s), [])

def panic (e : ε) : Prog σ ε τ α := fun _ => (.error e, [])

/-- Record an event in the trace. -/
def emit (t : τ) : Prog σ ε τ Unit := fun s => (.ok ((), s), [t])

/-! ## Triples -/

/-- From `s`, every event of `m` satisfies `G`; if `m` returns, `Q` holds of the
value and the state; if it panics, `E` holds of the panic. -/
def Sat (m : Prog σ ε τ α) (s : σ) (G : τ → Prop) (Q : α → σ → Prop) (E : ε → Prop) : Prop :=
  (∀ t ∈ (m s).2, G t) ∧
    match (m s).1 with
    | .ok (a, s') => Q a s'
    | .error e => E e

/-- For runs whose events all satisfy `G`: the events satisfy `H` too, and `Q` holds on
return. -/
def SatOn (m : Prog σ ε τ α) (s : σ) (G H : τ → Prop) (Q : α → σ → Prop) : Prop :=
  (∀ t ∈ (m s).2, G t) → (∀ t ∈ (m s).2, H t) ∧ ∀ a s', (m s).1 = .ok (a, s') → Q a s'

variable {m : Prog σ ε τ α} {f : α → Prog σ ε τ β} {s : σ} {G : τ → Prop}
  {Q Q' : α → σ → Prop} {R : β → σ → Prop} {E E' : ε → Prop}

@[simp] theorem sat_pure (a : α) : Sat (pure a : Prog σ ε τ α) s G Q E ↔ Q a s := by
  simp [Sat, pure, ret]

@[simp] theorem sat_state {Q : σ → σ → Prop} :
    Sat (state : Prog σ ε τ σ) s G Q E ↔ Q s s := by
  simp [Sat, state]

@[simp] theorem sat_modify (g : σ → σ) {Q : Unit → σ → Prop} :
    Sat (modify g : Prog σ ε τ Unit) s G Q E ↔ Q () (g s) := by
  simp [Sat, modify]

@[simp] theorem sat_panic (e : ε) : Sat (panic e : Prog σ ε τ α) s G Q E ↔ E e := by
  simp [Sat, panic]

@[simp] theorem sat_emit (t : τ) {Q : Unit → σ → Prop} :
    Sat (emit t : Prog σ ε τ Unit) s G Q E ↔ G t ∧ Q () s := by
  simp [Sat, emit]

@[simp] theorem sat_bind :
    Sat (m >>= f) s G R E ↔ Sat m s G (fun a s' => Sat (f a) s' G R E) E := by
  unfold Sat
  simp only [bind, seq]
  rcases m s with ⟨r, l⟩
  cases r with
  | error e => simp
  | ok p =>
      rcases p with ⟨a, s'⟩
      simp only [List.mem_append, or_imp, forall_and, and_assoc]

theorem Sat.mono (h : Sat m s G Q E) (hQ : ∀ a s', Q a s' → Q' a s')
    (hE : ∀ e, E e → E' e) : Sat m s G Q' E' := by
  refine ⟨h.1, ?_⟩
  have h2 := h.2
  revert h2
  cases (m s).1 with
  | ok p => exact hQ p.1 p.2
  | error e => exact hE e

theorem Sat.imp (h : Sat m s G Q E) (hQ : ∀ a s', Q a s' → Q' a s') : Sat m s G Q' E :=
  h.mono hQ fun _ he => he

/-- Sequencing through the specification of the first part. -/
theorem Sat.bind (h : Sat m s G Q E) (hf : ∀ a s', Q a s' → Sat (f a) s' G R E) :
    Sat (m >>= f) s G R E :=
  sat_bind.mpr (h.imp hf)

/-- Of a run about which nothing is asked. -/
theorem Sat.any (m : Prog σ ε τ α) (s : σ) :
    Sat m s (fun _ => True) (fun _ _ => True) fun _ => True := by
  refine ⟨fun _ _ => trivial, ?_⟩
  split <;> trivial

/-- None of the panics that the specification allows is possible. -/
theorem Sat.never (h : Sat m s G Q E) (hE : ∀ e, ¬ E e) : Sat m s G Q fun _ => False :=
  h.mono (fun _ _ hq => hq) hE

/-- A program that cannot panic returns. -/
theorem Sat.returns (h : Sat m s G Q fun _ => False) :
    ∃ a s', (m s).1 = .ok (a, s') ∧ Q a s' := by
  have h2 := h.2
  revert h2
  cases (m s).1 with
  | ok p => exact fun hq => ⟨p.1, p.2, rfl, hq⟩
  | error e => exact False.elim

/-- The postcondition of the run at hand. -/
theorem Sat.run (h : Sat m s G Q E) : Sat m s G (fun a s' => Q a s' ∧ (m s).1 = .ok (a, s')) E := by
  refine ⟨h.1, ?_⟩
  have hr := h.2
  split at hr
  · next a s' he => exact ⟨hr, he⟩
  · exact hr

theorem Sat.of_ok (h : Sat m s G Q E) {a : α} {s' : σ} (hr : (m s).1 = .ok (a, s')) :
    Q a s' := by
  have h2 := h.2
  rwa [hr] at h2

theorem bind_ok {a : α} {s' : σ} (h : (m s).1 = .ok (a, s')) :
    ((m >>= f) s).1 = (f a s').1 := by
  simp only [Bind.bind, seq]
  rcases hm : m s with ⟨r, l⟩
  rw [hm] at h
  cases h
  rfl

/-- Continuations need to agree on what the first part returns only. -/
theorem bind_congr_ok {g : α → Prog σ ε τ β} (h : ∀ a s', (m s).1 = .ok (a, s') → f a s' = g a s') :
    (m >>= f) s = (m >>= g) s := by
  simp only [Bind.bind, seq]
  rcases hm : m s with ⟨r, l⟩
  cases r with
  | error e => rfl
  | ok p =>
      rcases p with ⟨a, s'⟩
      have he : f a s' = g a s' := h a s' (by rw [hm])
      simp only [he]

/-- A sequence that returns goes through the return of its first part. -/
theorem ok_of_bind {b : β} {s'' : σ} (h : ((m >>= f) s).1 = .ok (b, s'')) :
    ∃ a s', (m s).1 = .ok (a, s') ∧ (f a s').1 = .ok (b, s'') := by
  cases hm : (m s).1 with
  | ok p => exact ⟨p.1, p.2, rfl, (bind_ok hm).symm.trans h⟩
  | error e =>
      have hb : ((m >>= f) s).1 = .error e := by
        simp only [Bind.bind, seq]
        rcases hs : m s with ⟨r, l⟩
        rw [hs] at hm
        cases hm
        rfl
      rw [hb] at h
      cases h

theorem bind_error {e : ε} (h : (m s).1 = .error e) : ((m >>= f) s).1 = .error e := by
  simp only [Bind.bind, seq]
  rcases hm : m s with ⟨r, l⟩
  rw [hm] at h
  cases h
  rfl

/-- Running on from a silent first part. -/
theorem bind_silent {a : α} {s' : σ} (h : m s = (.ok (a, s'), [])) : (m >>= f) s = f a s' := by
  simp [Bind.bind, seq, h]

/-! ## Programs on a part of the state -/

section Zoom

variable {ρ : Type}

/-- Run a program on the part of the state that `get` reads and `put` replaces. -/
def zoom (get : σ → ρ) (put : ρ → σ → σ) (m : Prog ρ ε τ α) : Prog σ ε τ α := fun s =>
  match m (get s) with
  | (.ok (a, r), l) => (.ok (a, put r s), l)
  | (.error e, l) => (.error e, l)

@[simp] theorem sat_zoom {get : σ → ρ} {put : ρ → σ → σ} {m : Prog ρ ε τ α} :
    Sat (zoom get put m) s G Q E ↔ Sat m (get s) G (fun a r => Q a (put r s)) E := by
  unfold Sat zoom
  rcases m (get s) with ⟨r, l⟩
  cases r with
  | error e => exact Iff.rfl
  | ok p => exact Iff.rfl

end Zoom

/-! ## Events that must occur -/

theorem mem_bind_left {t : τ} (h : t ∈ (m s).2) : t ∈ ((m >>= f) s).2 := by
  simp only [Bind.bind, seq]
  rcases hm : m s with ⟨r, l⟩
  rw [hm] at h
  cases r with
  | error e => exact h
  | ok p => exact List.mem_append_left _ h

theorem Sat.mem_bind {t : τ} (h : Sat m s G Q fun _ => False)
    (hf : ∀ a s', Q a s' → t ∈ (f a s').2) : t ∈ ((m >>= f) s).2 := by
  obtain ⟨a, s', hr, hq⟩ := h.returns
  simp only [Bind.bind, seq]
  rcases hm : m s with ⟨r, l⟩
  rw [hm] at hr
  cases hr
  exact List.mem_append_right _ (hf a s' hq)

/-! ## Conditional triples -/

variable {H : τ → Prop}

theorem Sat.on (h : Sat m s H Q E) : SatOn m s G H Q :=
  fun _ => ⟨h.1, fun _ _ hr => h.of_ok hr⟩

theorem SatOn.imp (h : SatOn m s G H Q) (hQ : ∀ a s', Q a s' → Q' a s') : SatOn m s G H Q' :=
  fun hg => ⟨(h hg).1, fun a s' hr => hQ a s' ((h hg).2 a s' hr)⟩

theorem SatOn.bind (h : SatOn m s G H Q) (hf : ∀ a s', Q a s' → SatOn (f a) s' G H R) :
    SatOn (m >>= f) s G H R := by
  intro hg
  simp only [Bind.bind, seq] at hg ⊢
  rcases hm : m s with ⟨r, l⟩
  unfold SatOn at h
  rw [hm] at h
  cases r with
  | error e =>
      simp only [hm] at hg ⊢
      exact ⟨(h hg).1, fun _ _ hr => by cases hr⟩
  | ok p =>
      rcases p with ⟨a, s'⟩
      simp only [hm, List.mem_append, or_imp, forall_and] at hg ⊢
      obtain ⟨hH, hQ⟩ := h hg.1
      obtain ⟨hH', hR⟩ := hf a s' (hQ a s' rfl) hg.2
      exact ⟨⟨hH, hH'⟩, hR⟩

theorem satOn_pure {a : α} (h : Q a s) : SatOn (pure a : Prog σ ε τ α) s G H Q :=
  Sat.on (E := fun _ => True) (sat_pure a |>.mpr h)

theorem satOn_panic (e : ε) : SatOn (panic e : Prog σ ε τ α) s G H Q :=
  Sat.on (E := fun _ => True) (sat_panic e |>.mpr trivial)

/-- A silent first part that always returns. -/
theorem satOn_bind_of_eq {a : α} {s' : σ} (hm : m s = (.ok (a, s'), [])) :
    SatOn (m >>= f) s G H R ↔ SatOn (f a) s' G H R := by
  unfold SatOn
  rw [bind_silent hm]

theorem satOn_emit {t : τ} (h : G t → H t ∧ SatOn m s G H Q) :
    SatOn (emit t >>= fun _ => m) s G H Q := by
  intro hg
  have he : (emit t >>= fun _ => m) s = ((m s).1, t :: (m s).2) := by simp [emit, Bind.bind, seq]
  rw [he] at hg ⊢
  obtain ⟨ht, hm⟩ := h (hg t List.mem_cons_self)
  obtain ⟨hH, hQ⟩ := hm fun t' ht' => hg t' (List.mem_cons_of_mem _ ht')
  exact ⟨fun t' ht' => (List.mem_cons.mp ht').elim (fun he => he ▸ ht) (hH t'), hQ⟩

/-- An event that violates the condition makes the rest of the run irrelevant. -/
theorem satOn_emit_false {t : τ} (h : ¬ G t) : SatOn (emit t >>= fun _ => m) s G H Q := by
  intro hg
  exact absurd (hg t (by simp [emit, Bind.bind, seq])) h

/-! ## What a program leaves alone -/

section Keeps

variable {ω ω' : Type} {obs : σ → ω}

/-- From every state, `m` returns with the observation as before, or panics with one of `E`. -/
def KeepsWith (E : ε → Prop) (obs : σ → ω) (m : Prog σ ε τ α) : Prop :=
  ∀ s, Sat m s (fun _ => True) (fun _ s' => obs s' = obs s) E

/-- The same with any panic. -/
abbrev Keeps (obs : σ → ω) (m : Prog σ ε τ α) : Prop := KeepsWith (fun _ => True) obs m

theorem KeepsWith.bind (h : KeepsWith E obs m) (hf : ∀ a, KeepsWith E obs (f a)) :
    KeepsWith E obs (m >>= f) := by
  intro s
  refine (h s).bind fun a s' ho => ?_
  exact (hf a s').imp fun b s'' ho' => ho'.trans ho

theorem keeps_pure (a : α) : KeepsWith E obs (pure a : Prog σ ε τ α) :=
  fun _ => (sat_pure a).mpr rfl

theorem keeps_state : KeepsWith E obs (state : Prog σ ε τ σ) := fun _ => sat_state.mpr rfl

theorem keeps_panic {e : ε} (h : E e) : KeepsWith E obs (panic e : Prog σ ε τ α) := fun _ =>
  (sat_panic e).mpr h

theorem keeps_emit (t : τ) : KeepsWith E obs (emit t : Prog σ ε τ Unit) := fun _ =>
  (sat_emit t).mpr ⟨trivial, rfl⟩

theorem keeps_modify {g : σ → σ} (h : ∀ s, obs (g s) = obs s) :
    KeepsWith E obs (modify g : Prog σ ε τ Unit) := fun s => (sat_modify g).mpr (h s)

theorem keeps_ite {c : Prop} [Decidable c] {m m' : Prog σ ε τ α} (h : KeepsWith E obs m)
    (h' : KeepsWith E obs m') : KeepsWith E obs (if c then m else m') := by
  split
  · exact h
  · exact h'

/-- A check that panics. -/
theorem keeps_check {c : Prop} [Decidable c] {e : ε} {k : β → Prog σ ε τ α} (h : Keeps obs m) :
    Keeps obs (if c then (panic e : Prog σ ε τ β) >>= k else m) := by
  refine keeps_ite (fun s => ?_) h
  rw [sat_bind, sat_panic]
  trivial

/-- What is kept can be observed more coarsely. -/
theorem KeepsWith.comp (h : KeepsWith E obs m) (g : ω → ω') : KeepsWith E (fun s => g (obs s)) m :=
  fun s => (h s).imp fun _ _ ho => congrArg g ho

theorem KeepsWith.any (h : KeepsWith E obs m) : Keeps obs m := fun s =>
  (h s).mono (fun _ _ ho => ho) fun _ _ => trivial

theorem KeepsWith.sat (h : KeepsWith E obs m) (s : σ) :
    Sat m s (fun _ => True) (fun _ s' => obs s' = obs s) fun _ => True := h.any s

theorem KeepsWith.of_ok (h : KeepsWith E obs m) {a : α} {s' : σ} (hr : (m s).1 = .ok (a, s')) :
    obs s' = obs s := (h s).of_ok hr

/-! ### Properties of states that a program keeps -/

/-- From a state with the property, `m` returns in such a state. -/
def Stable (P : σ → Prop) (m : Prog σ ε τ α) : Prop :=
  ∀ s, P s → Sat m s (fun _ => True) (fun _ s' => P s') fun _ => True

section

variable {P : σ → Prop}

theorem Stable.bind (h : Stable P m) (hf : ∀ a, Stable P (f a)) : Stable P (m >>= f) :=
  fun s hs => (h s hs).bind fun a s' hs' => hf a s' hs'

theorem stable_pure (a : α) : Stable P (pure a : Prog σ ε τ α) := fun _ hs => (sat_pure a).mpr hs

theorem stable_panic (e : ε) : Stable P (panic e : Prog σ ε τ α) :=
  fun _ _ => (sat_panic e).mpr trivial

theorem stable_ite {c : Prop} [Decidable c] {m m' : Prog σ ε τ α} (h : Stable P m)
    (h' : Stable P m') : Stable P (if c then m else m') := by
  split
  · exact h
  · exact h'

end

/-! ### Programs that also leave no event -/

/-- Whenever `m` returns, the observation is as before, and `m` records nothing. -/
def Silent (obs : σ → ω) (m : Prog σ ε τ α) : Prop :=
  ∀ s, Sat m s (fun _ => False) (fun _ s' => obs s' = obs s) fun _ => True

theorem Silent.bind (h : Silent obs m) (hf : ∀ a, Silent obs (f a)) : Silent obs (m >>= f) := by
  intro s
  refine (h s).bind fun a s' ho => ?_
  exact (hf a s').imp fun b s'' ho' => ho'.trans ho

theorem silent_pure (a : α) : Silent obs (pure a : Prog σ ε τ α) := fun _ => (sat_pure a).mpr rfl

theorem silent_state : Silent obs (state : Prog σ ε τ σ) := fun _ => sat_state.mpr rfl

theorem silent_panic (e : ε) : Silent obs (panic e : Prog σ ε τ α) :=
  fun _ => (sat_panic e).mpr trivial

theorem silent_modify {g : σ → σ} (h : ∀ s, obs (g s) = obs s) :
    Silent obs (modify g : Prog σ ε τ Unit) := fun s => (sat_modify g).mpr (h s)

theorem silent_ite {c : Prop} [Decidable c] {m m' : Prog σ ε τ α} (h : Silent obs m)
    (h' : Silent obs m') : Silent obs (if c then m else m') := by
  split
  · exact h
  · exact h'

theorem Silent.sat (h : Silent obs m) (hE : ∀ e, E e) (hQ : ∀ a s', obs s' = obs s → Q a s') :
    Sat m s G Q E := by
  have hs : Sat m s G (fun _ s' => obs s' = obs s) fun _ => True :=
    ⟨fun t ht => ((h s).1 t ht).elim, (h s).2⟩
  exact hs.mono hQ fun e _ => hE e

end Keeps

/-! ## Simulation -/

section Simulation

variable {σ' : Type} {P : σ → σ' → Prop} {m' : Prog σ' ε τ α} {f' : α → Prog σ' ε τ β} {s' : σ'}

/-- From `s` and `s'` the two programs leave the same trace and end alike: with the same value and
related states, or with the same panic. -/
def Sim (P : σ → σ' → Prop) (m : Prog σ ε τ α) (s : σ) (m' : Prog σ' ε τ α) (s' : σ') : Prop :=
  (m s).2 = (m' s').2 ∧
    match (m s).1, (m' s').1 with
    | .ok (a, t), .ok (a', t') => a = a' ∧ P t t'
    | .error e, .error e' => e = e'
    | _, _ => False

theorem sim_pure {a : α} (h : P s s') :
    Sim P (pure a : Prog σ ε τ α) s (pure a : Prog σ' ε τ α) s' :=
  ⟨rfl, rfl, h⟩

theorem sim_panic (e : ε) : Sim P (panic e : Prog σ ε τ α) s (panic e : Prog σ' ε τ α) s' :=
  ⟨rfl, rfl⟩

theorem sim_emit {t : τ} (h : P s s') : Sim P (emit t : Prog σ ε τ Unit) s (emit t) s' :=
  ⟨rfl, rfl, h⟩

theorem sim_modify {g : σ → σ} {g' : σ' → σ'} (h : P (g s) (g' s')) :
    Sim P (modify g : Prog σ ε τ Unit) s (modify g') s' :=
  ⟨rfl, rfl, h⟩

theorem Sim.bind (h : Sim P m s m' s')
    (hf : ∀ a t t', P t t' → Sim P (f a) t (f' a) t') : Sim P (m >>= f) s (m' >>= f') s' := by
  unfold Sim at h ⊢
  simp only [Bind.bind, seq]
  rcases hm : m s with ⟨r, l⟩
  rcases hm' : m' s' with ⟨r', l'⟩
  rw [hm, hm'] at h
  obtain ⟨rfl, hres⟩ := h
  cases r with
  | error e =>
      cases r' with
      | error e' => exact ⟨rfl, hres⟩
      | ok p' => exact hres.elim
  | ok p =>
      cases r' with
      | error e' => exact hres.elim
      | ok p' =>
          rcases p with ⟨a, t⟩
          rcases p' with ⟨a', t'⟩
          obtain ⟨rfl, hP⟩ := hres
          obtain ⟨htr', hres'⟩ := hf a t t' hP
          exact ⟨by simp only [htr'], hres'⟩

/-- A silent first part of the left program. -/
theorem sim_left {n : Prog σ' ε τ β} {a : α} {t : σ} (hm : m s = (.ok (a, t), []))
    (h : Sim P (f a) t n s') : Sim P (m >>= f) s n s' := by
  unfold Sim
  rw [bind_silent hm]
  exact h

/-- A silent first part of the right program. -/
theorem sim_right {n : Prog σ ε τ β} {a : α} {t : σ'} (hm : m' s' = (.ok (a, t), []))
    (h : Sim P n s (f' a) t) : Sim P n s (m' >>= f') s' := by
  unfold Sim
  rw [bind_silent hm]
  exact h

theorem Sim.of_ok (h : Sim P m s m' s') {a : α} {t : σ} (hr : (m s).1 = .ok (a, t)) :
    ∃ t', (m' s').1 = .ok (a, t') ∧ P t t' := by
  have h2 := h.2
  rw [hr] at h2
  cases hr' : (m' s').1 with
  | error e =>
      rw [hr'] at h2
      exact h2.elim
  | ok p =>
      rw [hr'] at h2
      exact ⟨p.2, by rw [h2.1], h2.2⟩

theorem Sim.ok_of (h : Sim P m s m' s') {a : α} {t' : σ'} (hr : (m' s').1 = .ok (a, t')) :
    ∃ t, (m s).1 = .ok (a, t) ∧ P t t' := by
  have h2 := h.2
  rw [hr] at h2
  cases hl : (m s).1 with
  | error e =>
      rw [hl] at h2
      exact h2.elim
  | ok p =>
      rw [hl] at h2
      exact ⟨p.2, by rw [← h2.1], h2.2⟩

theorem Sim.of_error (h : Sim P m s m' s') {e : ε} (hr : (m s).1 = .error e) :
    (m' s').1 = .error e := by
  have h2 := h.2
  rw [hr] at h2
  cases hr' : (m' s').1 with
  | error e' =>
      rw [hr'] at h2
      rw [show e = e' from h2]
  | ok p =>
      rw [hr'] at h2
      exact h2.elim

end Simulation

/-! ## Transition systems -/

section Runs

variable {ι : Type}

/-- Perform the operations of a list in order. -/
def runAll (f : ι → Prog σ ε τ Unit) : List ι → Prog σ ε τ Unit
  | [] => pure ()
  | i :: is => do
      f i
      runAll f is

/-- A permitted operation that returns. -/
def Step (may : ι → σ → Prop) (f : ι → Prog σ ε τ Unit) (s s' : σ) : Prop :=
  ∃ i, may i s ∧ (f i s).1 = .ok ((), s')

/-- The states after any number of permitted operations. -/
def Reach (may : ι → σ → Prop) (f : ι → Prog σ ε τ Unit) : σ → σ → Prop :=
  Relation.ReflTransGen (Step may f)

variable {may : ι → σ → Prop} {f : ι → Prog σ ε τ Unit} {I : σ → Prop} {s s' : σ}

/-- What every permitted operation preserves holds along every run. -/
theorem Reach.invariant (h : Reach may f s s')
    (hstep : ∀ i s s', I s → may i s → (f i s).1 = .ok ((), s') → I s') (hs : I s) : I s' := by
  induction h with
  | refl => exact hs
  | tail _ hlast ih =>
      obtain ⟨i, hmay, hr⟩ := hlast
      exact hstep i _ _ ih hmay hr

theorem runAll_sat {G : τ → Prop} {E : ε → Prop}
    (is : List ι) (hstep : ∀ i ∈ is, ∀ s, I s → Sat (f i) s G (fun _ => I) E) (hs : I s) :
    Sat (runAll f is) s G (fun _ => I) E := by
  induction is generalizing s with
  | nil => exact (sat_pure ()).mpr hs
  | cons i is ih =>
      refine (hstep i List.mem_cons_self s hs).bind fun _ s' h => ?_
      exact ih (fun j hj => hstep j (List.mem_cons_of_mem _ hj)) h

/-- Execute operations in order; `none` when one is not permitted or panics. -/
def tryAll (ok : ι → σ → Bool) (f : ι → Prog σ ε τ Unit) : List ι → σ → Option σ
  | [], s => some s
  | i :: is, s =>
      if ok i s then
        match (f i s).1 with
        | .ok (_, s') => tryAll ok f is s'
        | .error _ => none
      else none

theorem reach_of_tryAll {ok : ι → σ → Bool} (hok : ∀ i s, ok i s = true → may i s) (is : List ι)
    (h : tryAll ok f is s = some s') : Reach may f s s' := by
  induction is generalizing s with
  | nil =>
      cases h
      exact .refl
  | cons i is ih =>
      rw [tryAll] at h
      split at h
      · next hi =>
        split at h
        · next s₁ hs₁ => exact .head ⟨i, hok i s hi, hs₁⟩ (ih h)
        · cases h
      · cases h

end Runs

end Prog
end WhuOs
