import Mathlib.Data.List.Pairwise
import Mathlib.Data.List.Nodup

/-! # Lists in order of last use

A log of uses, newest first, and lists that are sorted by the last use of their members, the
most recent one in front. Moving the member that is used to the front keeps the order, and a
search from the back then finds the member that was not used for the longest time.
-/

namespace WhuOs

variable {α : Type} [DecidableEq α]

/-- When an element was used last, counted from 1; 0 when it was never used. -/
def lastUse : List α → α → Nat
  | [], _ => 0
  | j :: log, i => if i = j then log.length + 1 else lastUse log i

/-- Sorted by last use. -/
def Recent (log ids : List α) : Prop := ids.Pairwise fun i j => lastUse log j ≤ lastUse log i

variable {log ids : List α} {i j : α}

theorem lastUse_le (log : List α) (i : α) : lastUse log i ≤ log.length := by
  induction log with
  | nil => exact Nat.le_refl 0
  | cons j log ih =>
      rw [lastUse, List.length_cons]
      split
      · exact Nat.le_refl _
      · exact Nat.le_succ_of_le ih

@[simp] theorem lastUse_self : lastUse (i :: log) i = log.length + 1 := if_pos rfl

theorem lastUse_ne (h : i ≠ j) : lastUse (j :: log) i = lastUse log i := if_neg h

/-- No two elements are used at one time. -/
theorem lastUse_inj (h : lastUse log i = lastUse log j) (hi : lastUse log i ≠ 0) : i = j := by
  induction log with
  | nil => exact absurd rfl hi
  | cons k log ih =>
      by_cases hik : i = k
      · by_cases hjk : j = k
        · exact hik.trans hjk.symm
        · rw [hik, lastUse_self, lastUse_ne hjk] at h
          have hle := lastUse_le log j
          omega
      · rw [lastUse_ne hik] at h hi
        by_cases hjk : j = k
        · rw [hjk, lastUse_self] at h
          have hle := lastUse_le log i
          omega
        · rw [lastUse_ne hjk] at h
          exact ih h hi

theorem recent_nil (ids : List α) : Recent [] ids := by
  induction ids with
  | nil => exact List.Pairwise.nil
  | cons i ids ih => exact List.Pairwise.cons (fun _ _ => Nat.le_refl 0) ih

/-- A use moves an element to the front. -/
theorem Recent.use (h : Recent log ids) (hd : ids.Nodup) (i : α) :
    Recent (i :: log) (i :: ids.erase i) := by
  have hne : ∀ j ∈ ids.erase i, j ≠ i := fun j hj he => hd.not_mem_erase (he ▸ hj)
  refine List.Pairwise.cons (fun j hj => ?_) ?_
  · rw [lastUse_self, lastUse_ne (hne j hj)]
    exact Nat.le_succ_of_le (lastUse_le log j)
  · refine (h.sublist (List.erase_sublist ..)).imp_of_mem fun hj hk hle => ?_
    rw [lastUse_ne (hne _ hj), lastUse_ne (hne _ hk)]
    exact hle

/-- The last element that passes a test was used no later than all others that pass it. -/
theorem Recent.last {p : α → Bool} (h : Recent log ids)
    (hf : ids.reverse.find? p = some i) (hj : j ∈ ids)
    (hp : p j = true) : j = i ∨ lastUse log i ≤ lastUse log j := by
  induction ids with
  | nil => cases hj
  | cons k ids ih =>
      obtain ⟨hk, hrest⟩ := List.pairwise_cons.mp h
      rw [List.reverse_cons, List.find?_append] at hf
      cases hr : ids.reverse.find? p with
      | none =>
          rw [hr, Option.none_or] at hf
          rcases List.mem_cons.mp hj with rfl | hj
          · exact .inl (List.mem_singleton.mp (List.mem_of_find?_eq_some hf)).symm
          · exact absurd hp (List.find?_eq_none.mp hr j (List.mem_reverse.mpr hj))
      | some l =>
          rw [hr, Option.some_or] at hf
          obtain rfl := Option.some.inj hf
          rcases List.mem_cons.mp hj with rfl | hj
          · exact .inr (hk _ (List.mem_reverse.mp (List.mem_of_find?_eq_some hr)))
          · exact ih hrest hr hj

end WhuOs
