import Mathlib.Logic.Basic

/-! # Pointer trees in an untyped store

A store maps a block and an index to a pointer; `null` is no pointer. A tree
position below a root is a list of indices, and `follow` the pointer found
there. `Exclusive` says that no block occurs at two positions. The lemmas say
how `follow` moves when one pointer is set, when a block that is no inner node is
overwritten, and when pointers get lost.
-/

namespace WhuOs

namespace PtrTree

section Follow

variable {B K : Type} [DecidableEq B] {null : B} {rd rd' : B → K → B}

/-- The pointer at position `ks` below `p`. -/
def follow (null : B) (rd : B → K → B) (p : B) : List K → B
  | [] => p
  | k :: ks => if p = null then null else follow null rd (rd p k) ks

@[simp] theorem follow_nil (p : B) : follow null rd p [] = p := rfl

@[simp] theorem follow_null (ks : List K) : follow null rd null ks = null := by
  cases ks <;> simp [follow]

theorem follow_cons {p : B} (hp : p ≠ null) (k : K) (ks : List K) :
    follow null rd p (k :: ks) = follow null rd (rd p k) ks := by
  simp [follow, hp]

theorem follow_append (p : B) (ks ls : List K) :
    follow null rd p (ks ++ ls) = follow null rd (follow null rd p ks) ls := by
  induction ks generalizing p with
  | nil => rfl
  | cons k ks ih =>
      by_cases hp : p = null
      · simp [hp]
      · rw [List.cons_append, follow_cons hp, follow_cons hp, ih]

/-- Losing pointers on the way to a position can only cut it off. -/
theorem follow_loss (p : B) (ks : List K)
    (h : ∀ ls k rest, ks = ls ++ k :: rest → follow null rd p ls ≠ null →
      rd' (follow null rd p ls) k = rd (follow null rd p ls) k ∨
        rd' (follow null rd p ls) k = null) :
    follow null rd' p ks = follow null rd p ks ∨ follow null rd' p ks = null := by
  induction ks generalizing p with
  | nil => exact Or.inl rfl
  | cons k ks ih =>
      by_cases hp : p = null
      · simp [hp]
      · rw [follow_cons hp, follow_cons hp]
        have hk := h [] k ks rfl hp
        rw [follow_nil] at hk
        rcases hk with hk | hk
        · rw [hk]
          apply ih
          intro ls k' rest he hne
          have hs := h (k :: ls) k' rest (by rw [he]; rfl)
          rw [follow_cons hp] at hs
          exact hs hne
        · rw [hk]
          exact Or.inr (follow_null ks)

/-- Setting the entry `k₀` of block `q` changes what is found only behind that entry. -/
theorem follow_set (null : B) {q : B} {k₀ : K} (hset : ∀ p k, ¬ (p = q ∧ k = k₀) → rd' p k = rd p k)
    (p : B) (ks : List K) :
    follow null rd' p ks = follow null rd p ks ∨
      ∃ ls rest, ks = ls ++ k₀ :: rest ∧ follow null rd p ls = q ∧ q ≠ null ∧
        follow null rd' p ks = follow null rd' (rd' q k₀) rest := by
  induction ks generalizing p with
  | nil => exact Or.inl rfl
  | cons k ks ih =>
      by_cases hp : p = null
      · simp [hp]
      · rw [follow_cons hp, follow_cons hp]
        by_cases hk : p = q ∧ k = k₀
        · obtain ⟨rfl, rfl⟩ := hk
          exact Or.inr ⟨[], ks, rfl, rfl, hp, rfl⟩
        · rw [hset p k hk]
          rcases ih (rd p k) with hs | ⟨ls, rest, he, hq, hne, hr⟩
          · exact Or.inl hs
          · exact Or.inr ⟨k :: ls, rest, by rw [he]; rfl, by rw [follow_cons hp]; exact hq, hne, hr⟩

/-- A block without pointers has nothing below it. -/
theorem follow_leaf {p : B} (h : ∀ k, rd p k = null) (k : K) (ks : List K) :
    follow null rd p (k :: ks) = null := by
  by_cases hp : p = null
  · simp [hp]
  · rw [follow_cons hp, h, follow_null]

end Follow

/-! ## Exclusive ownership -/

section Ownership

variable {B P : Type} {null : B}

/-- No block occurs at two valid positions. -/
def Exclusive (null : B) (valid : P → Prop) (node : P → B) : Prop :=
  ∀ p q, valid p → valid q → node p = node q → node p ≠ null → p = q

variable {valid valid' : P → Prop} {node node' : P → B}

/-- Removing positions or the blocks at them keeps ownership exclusive. -/
theorem Exclusive.mono (h : Exclusive null valid node) (hv : ∀ p, valid' p → valid p)
    (hn : ∀ p, valid' p → node' p = node p ∨ node' p = null) : Exclusive null valid' node' := by
  intro p q hp hq he hne
  have hnp := (hn p hp).resolve_right hne
  have hnq := (hn q hq).resolve_right (he ▸ hne)
  exact h p q (hv p hp) (hv q hq) (by rw [← hnp, ← hnq, he]) (hnp ▸ hne)

/-- Putting a block that occurs nowhere at one position keeps ownership exclusive. -/
theorem Exclusive.insert (h : Exclusive null valid node) (p₀ : P) {b : B}
    (hfresh : ∀ p, valid p → node p ≠ b) (hv : ∀ p, valid' p → valid p)
    (hn : ∀ p, valid' p → node' p = node p ∨ node' p = null ∨ p = p₀ ∧ node' p = b) :
    Exclusive null valid' node' := by
  intro p q hp hq he hne
  have old : ∀ r, valid' r → node' r ≠ null → ¬ (r = p₀ ∧ node' r = b) → node' r = node r := by
    intro r hr hrne hr0
    rcases hn r hr with h1 | h1 | h1
    · exact h1
    · exact absurd h1 hrne
    · exact absurd h1 hr0
  by_cases hp0 : p = p₀ ∧ node' p = b
  · by_cases hq0 : q = p₀ ∧ node' q = b
    · rw [hp0.1, hq0.1]
    · have hqn := old q hq (he ▸ hne) hq0
      exact absurd (by rw [← hqn, ← he, hp0.2]) (hfresh q (hv q hq))
  · have hpn := old p hp hne hp0
    by_cases hq0 : q = p₀ ∧ node' q = b
    · exact absurd (by rw [← hpn, he, hq0.2]) (hfresh p (hv p hp))
    · have hqn := old q hq (he ▸ hne) hq0
      exact h p q (hv p hp) (hv q hq) (by rw [← hpn, ← hqn, he]) (hpn ▸ hne)

end Ownership

end PtrTree
end WhuOs
