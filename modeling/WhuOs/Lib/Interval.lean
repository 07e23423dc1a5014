import Mathlib

/-! # Lists of intervals

A half-open interval is the pair of its ends. `covers` counts the intervals of a list
around a point, and `cut` takes one interval out of another: what is left are at most
two intervals. Cutting every interval of a list leaves the count outside the range as
it was and makes it zero inside, so intervals that were pairwise disjoint stay so.
-/

namespace WhuOs.Intervals

variable {α : Type} [LinearOrder α] {a b w : α} {l : List (α × α)}

/-- How many intervals contain a point. -/
def covers (l : List (α × α)) (w : α) : Nat := l.countP fun r => decide (r.1 ≤ w ∧ w < r.2)

/-- What is left of `r` without the points from `a` on and before `b`. -/
def cut (a b : α) (r : α × α) : List (α × α) :=
  if r.2 ≤ a ∨ b ≤ r.1 then [r]
  else if a ≤ r.1 ∧ r.2 ≤ b then []
  else if r.1 < a ∧ b < r.2 then [(r.1, a), (b, r.2)]
  else if r.1 < a then [(r.1, a)]
  else [(b, r.2)]

def Beside (r r' : α × α) : Prop := Disjoint (Set.Ico r.1 r.2) (Set.Ico r'.1 r'.2)

theorem covers_nil (w : α) : covers [] w = 0 := rfl

theorem covers_cons (r : α × α) (l : List (α × α)) (w : α) :
    covers (r :: l) w = covers l w + if r.1 ≤ w ∧ w < r.2 then 1 else 0 := by
  unfold covers
  rw [List.countP_cons]
  simp

theorem covers_append (l l' : List (α × α)) (w : α) :
    covers (l ++ l') w = covers l w + covers l' w :=
  List.countP_append

/-! ## Cutting -/

theorem covers_cut (hab : a < b) (r : α × α) (w : α) :
    covers (cut a b r) w = if a ≤ w ∧ w < b then 0 else covers [r] w := by
  unfold cut
  rcases r with ⟨x, y⟩
  dsimp only
  split_ifs with h₁ h₂ h₃ h₄ <;> simp only [covers_cons, covers_nil] <;> split_ifs <;> grind

theorem covers_cuts (hab : a < b) (l : List (α × α)) (w : α) :
    covers (l.flatMap (cut a b)) w = if a ≤ w ∧ w < b then 0 else covers l w := by
  induction l with
  | nil => simp [covers_nil]
  | cons r l ih =>
      have hr := covers_cut hab r w
      have hsplit : covers (r :: l) w = covers [r] w + covers l w := covers_append [r] l w
      rw [List.flatMap_cons, covers_append, hr, ih, hsplit]
      split
      · rfl
      · rfl

/-! ## Disjoint intervals -/

theorem covers_pos : 0 < covers l w ↔ ∃ r ∈ l, w ∈ Set.Ico r.1 r.2 := by
  unfold covers
  rw [List.countP_pos_iff]
  simp [Set.mem_Ico]

theorem pairwise_beside_iff : l.Pairwise Beside ↔ ∀ w, covers l w ≤ 1 := by
  induction l with
  | nil => simp [covers_nil]
  | cons r l ih =>
      rw [List.pairwise_cons, ih]
      constructor
      · rintro ⟨hr, hl⟩ w
        rw [covers_cons]
        split
        · next hw =>
          have hnot : ¬ 0 < covers l w := by
            rw [covers_pos]
            rintro ⟨r', hr', hw'⟩
            exact Set.disjoint_left.mp (hr r' hr') hw hw'
          omega
        · exact hl w
      · intro h
        refine ⟨fun r' hr' => Set.disjoint_left.mpr fun w hw hw' => ?_, fun w => ?_⟩
        · have hpos : 0 < covers l w := covers_pos.mpr ⟨r', hr', hw'⟩
          have hle := h w
          rw [covers_cons, if_pos (Set.mem_Ico.mp hw)] at hle
          omega
        · have hle := h w
          rw [covers_cons] at hle
          omega

theorem pairwise_cuts (hab : a < b) (h : l.Pairwise Beside) :
    (l.flatMap (cut a b)).Pairwise Beside := by
  rw [pairwise_beside_iff] at h ⊢
  intro w
  rw [covers_cuts hab]
  split
  · exact Nat.zero_le _
  · exact h w

end WhuOs.Intervals
