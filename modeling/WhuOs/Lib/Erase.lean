import WhuOs.Lib.Prog

/-! # Programs with other events

The same run can be watched for different events. `mute` drops the events of a program so that
it can be part of a program with events of another kind, and `SameOutcome` compares two programs
without their events.
-/

namespace WhuOs.Prog

variable {σ ε τ τ' α β γ : Type}

/-- The program without its events. -/
def mute (m : Prog σ ε τ α) : Prog σ ε τ' α := fun s => ((m s).1, [])

/-- A sequence of events. -/
def emitAll (l : List τ) : Prog σ ε τ Unit := fun s => (.ok ((), s), l)

/-- Whatever the state, the programs return the same value in the same state, or panic alike. -/
def SameOutcome (m : Prog σ ε τ α) (m' : Prog σ ε τ' α) : Prop := ∀ s, (m s).1 = (m' s).1

variable {m : Prog σ ε τ α} {m' : Prog σ ε τ' α} {f : α → Prog σ ε τ β}
  {f' : α → Prog σ ε τ' β} {s : σ}
  {G : τ' → Prop} {Q : α → σ → Prop} {E : ε → Prop}

@[simp] theorem sat_mute : Sat (mute m : Prog σ ε τ' α) s G Q E ↔ Sat m s (fun _ => True) Q E := by
  simp [Sat, mute]

@[simp] theorem sat_emitAll {l : List τ'} {Q : Unit → σ → Prop} :
    Sat (emitAll l : Prog σ ε τ' Unit) s G Q E ↔ (∀ t ∈ l, G t) ∧ Q () s := by
  simp [Sat, emitAll]

theorem SameOutcome.refl (m : Prog σ ε τ α) : SameOutcome m m := fun _ => rfl

theorem SameOutcome.mute (m : Prog σ ε τ α) : SameOutcome (mute m : Prog σ ε τ' α) m := fun _ => rfl

theorem SameOutcome.pure (a : α) : SameOutcome (pure a : Prog σ ε τ α) (pure a : Prog σ ε τ' α) :=
  fun _ => rfl

theorem SameOutcome.trans {τ'' : Type} {m'' : Prog σ ε τ'' α} (h : SameOutcome m m')
    (h' : SameOutcome m' m'') :
    SameOutcome m m'' := fun s => (h s).trans (h' s)

theorem SameOutcome.bind (h : SameOutcome m m') (hf : ∀ a, SameOutcome (f a) (f' a)) :
    SameOutcome (m >>= f) (m' >>= f') := by
  intro s
  cases hm : (m s).1 with
  | error e => rw [bind_error hm, bind_error ((h s).symm.trans hm)]
  | ok p => rw [bind_ok hm, bind_ok ((h s).symm.trans hm), hf p.1 p.2]

/-- An event does not matter. -/
theorem SameOutcome.emit {t : τ} (h : SameOutcome m m') :
    SameOutcome (emit t >>= fun _ => m) m' := by
  intro s
  rw [← h s]
  rfl

theorem SameOutcome.emitAll {l : List τ} (h : SameOutcome m m') :
    SameOutcome (emitAll l >>= fun _ => m) m' := by
  intro s
  rw [← h s]
  rfl

theorem SameOutcome.ite {c : Prop} [Decidable c] {n : Prog σ ε τ α}
    {n' : Prog σ ε τ' α} (h : SameOutcome m m')
    (h' : SameOutcome n n') : SameOutcome (if c then m else n) (if c then m' else n') := by
  split
  · exact h
  · exact h'

/-- The panics and the results of the one are those of the other. -/
theorem SameOutcome.sat (h : SameOutcome m m') (hs : Sat m s (fun _ => True) Q E) :
    Sat m' s (fun _ => True) Q E := by
  refine ⟨fun _ _ => trivial, ?_⟩
  rw [← h s]
  exact hs.2

/-- A program with the outcomes of another one, and events of its own. -/
theorem SameOutcome.withEvents {G : τ → Prop} (h : SameOutcome m m') (hev : ∀ t ∈ (m s).2, G t)
    (hs : Sat m' s (fun _ => True) Q E) :
    Sat m s G Q E := by
  refine ⟨hev, ?_⟩
  rw [h s]
  exact hs.2

end WhuOs.Prog
