import Mathlib.Data.Fintype.Basic
import Mathlib.Data.Finset.Card
import Mathlib.Data.Fintype.Card

/-! # Tables of pointers

How many places of a finite table point to an object, and what one assignment to
the table changes in these numbers.
-/

namespace WhuOs

/-- How many places of a table point to `a`. -/
def pointers {ι α : Type} [Fintype ι] [DecidableEq α] (t : ι → Option α) (a : α) : Nat :=
  (Finset.univ.filter fun i => t i = some a).card

section

variable {ι α : Type} [Fintype ι] [DecidableEq α] {t : ι → Option α} {i : ι} {a b : α}

theorem pointers_eq_zero : pointers t a = 0 ↔ ∀ i, t i ≠ some a := by
  simp [pointers, Finset.filter_eq_empty_iff]

theorem pointers_le (t : ι → Option α) (a : α) : pointers t a ≤ Fintype.card ι :=
  Finset.card_filter_le _ _

variable [DecidableEq ι]

theorem pointers_update (t : ι → Option α) (i : ι) (v : Option α) (a : α) :
    pointers (Function.update t i v) a + (if t i = some a then 1 else 0) =
      pointers t a + if v = some a then 1 else 0 := by
  have hsplit : ∀ t' : ι → Option α, (∀ j, j ≠ i → t' j = t j) →
      pointers t' a = ((Finset.univ.erase i).filter fun j => t j = some a).card +
        if t' i = some a then 1 else 0 := by
    intro t' ht
    have hrest : (Finset.univ.erase i).filter (fun j => t' j = some a) =
        (Finset.univ.erase i).filter fun j => t j = some a := by
      apply Finset.filter_congr
      intro j hj
      rw [ht j (Finset.ne_of_mem_erase hj)]
    rw [← hrest, pointers, ← Finset.insert_erase (Finset.mem_univ i), Finset.filter_insert]
    split
    · rw [Finset.card_insert_of_notMem (by simp)]
      simp
    · simp
  rw [hsplit _ fun j hj => Function.update_of_ne hj v t, hsplit t fun _ _ => rfl,
    Function.update_self]
  omega

theorem pointers_set (h : t i = none) (a b : α) :
    pointers (Function.update t i (some b)) a = pointers t a + if b = a then 1 else 0 := by
  have hu := pointers_update t i (some b) a
  simpa [h] using hu

theorem pointers_clear (h : t i = some b) (a : α) :
    pointers (Function.update t i none) a + (if b = a then 1 else 0) = pointers t a := by
  have hu := pointers_update t i none a
  simpa [h] using hu

end

end WhuOs
