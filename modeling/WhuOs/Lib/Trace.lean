import Mathlib.Data.List.Induction

/-! # Runs of a partial step function

A step takes an action and a state and gives the next state, or `none` when the
action is not possible there. A run is a list of actions.
-/

namespace WhuOs.Trace

variable {σ ι : Type} {step : ι → σ → Option σ} {s s' : σ} {a : ι} {l l' : List ι}

/-- Perform the actions of a list in order. -/
def exec (step : ι → σ → Option σ) : List ι → σ → Option σ
  | [], s => some s
  | a :: l, s => (step a s).bind (exec step l)

theorem exec_cons (h : step a s = some s') :
    exec step (a :: l) s = exec step l s' := by rw [exec, h, Option.bind_some]

theorem exec_append : exec step (l ++ l') s = (exec step l s).bind (exec step l') := by
  induction l generalizing s with
  | nil => rfl
  | cons a l ih =>
      rw [List.cons_append, exec, exec]
      cases step a s with
      | none => rfl
      | some t => exact ih

theorem exec_trans {t : σ} (h : exec step l s = some s') (h' : exec step l' s' = some t) :
    exec step (l ++ l') s = some t := by
  rw [exec_append, h, Option.bind_some, h']

theorem exec_snoc (h : exec step l s = some s') : exec step (l ++ [a]) s = step a s' := by
  rw [exec_append, h, Option.bind_some, exec]
  cases step a s' with
  | none => rfl
  | some t => rfl

/-- The last action of a run. -/
theorem exec_snoc_some {t : σ} (h : exec step (l ++ [a]) s = some t) :
    ∃ s', exec step l s = some s' ∧ step a s' = some t := by
  cases hl : exec step l s with
  | none =>
      rw [exec_append, hl] at h
      cases h
  | some s' =>
      rw [exec_snoc hl] at h
      exact ⟨s', rfl, h⟩

/-- What holds at first and is kept by every step of a run, given the actions before it. -/
theorem exec_induction {I : List ι → σ → Prop} (h : exec step l s = some s') (h0 : I [] s)
    (hstep : ∀ l a t t', exec step l s = some t → I l t → step a t = some t' → I (l ++ [a]) t') :
    I l s' := by
  induction l using List.reverseRecOn generalizing s' with
  | nil =>
      cases h
      exact h0
  | append_singleton l a ih =>
      obtain ⟨t, hl, ha⟩ := exec_snoc_some h
      exact hstep l a t s' hl (ih hl) ha

end WhuOs.Trace
