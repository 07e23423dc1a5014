import Mathlib.Data.List.Nodup
import Mathlib.Logic.Function.Basic

/-! # Circular doubly linked lists

Nodes with two pointer fields each. `Seg l a xs b` says that following `next` from
`a` meets the nodes `xs` and then `b`, and that `prev` leads back the same way; a
ring is a segment from a node to itself. The lemmas say which writes keep a
segment, and how it is cut, joined and directed to another end.
-/

namespace WhuOs

/-- The pointer fields of all nodes; `none` is the null pointer. -/
structure Links (N : Type) where
  next : N → Option N
  prev : N → Option N

namespace Links

variable {N : Type} {l l' : Links N} {a b x y : N} {xs ys : List N}

section Writes

variable [DecidableEq N]

def setNext (l : Links N) (a : N) (v : Option N) : Links N :=
  { l with next := Function.update l.next a v }

def setPrev (l : Links N) (a : N) (v : Option N) : Links N :=
  { l with prev := Function.update l.prev a v }

@[simp] theorem setNext_next (v : Option N) (b : N) :
    (l.setNext a v).next b = if b = a then v else l.next b := Function.update_apply _ _ _ _

@[simp] theorem setNext_prev (v : Option N) : (l.setNext a v).prev = l.prev := rfl

@[simp] theorem setPrev_prev (v : Option N) (b : N) :
    (l.setPrev a v).prev b = if b = a then v else l.prev b := Function.update_apply _ _ _ _

@[simp] theorem setPrev_next (v : Option N) : (l.setPrev a v).next = l.next := rfl

end Writes

/-- The nodes `xs` lie between `a` and `b`. -/
def Seg (l : Links N) : N → List N → N → Prop
  | a, [], b => l.next a = some b ∧ l.prev b = some a
  | a, x :: xs, b => l.next a = some x ∧ l.prev x = some a ∧ Seg l x xs b

/-- A segment is read off the `next` fields of all but its last node and the `prev` fields of
all but its first. -/
theorem Seg.congr (h : Seg l a xs b) (hn : ∀ u ∈ a :: xs, l'.next u = l.next u)
    (hp : ∀ v ∈ xs ++ [b], l'.prev v = l.prev v) : Seg l' a xs b := by
  induction xs generalizing a with
  | nil => exact ⟨by rw [hn a (by simp)]; exact h.1, by rw [hp b (by simp)]; exact h.2⟩
  | cons x xs ih =>
      obtain ⟨h1, h2, h3⟩ := h
      refine ⟨by rw [hn a (by simp)]; exact h1, by rw [hp x (by simp)]; exact h2, ih h3 ?_ ?_⟩
      · intro u hu
        exact hn u (List.mem_cons_of_mem _ hu)
      · intro v hv
        exact hp v (List.mem_cons_of_mem _ hv)

theorem seg_append : Seg l a (xs ++ x :: ys) b ↔ Seg l a xs x ∧ Seg l x ys b := by
  induction xs generalizing a with
  | nil => simp [Seg, and_assoc]
  | cons y xs ih => simp [Seg, ih, and_assoc]

/-- The first node of a segment. -/
theorem Seg.next_eq (h : Seg l a xs b) : l.next a = some ((xs ++ [b]).head (by simp)) := by
  cases xs with
  | nil => exact h.1
  | cons x xs => exact h.1

/-- The node before the end of a segment. -/
theorem Seg.prev_eq (h : Seg l a xs b) : l.prev b = some ((a :: xs).getLast (by simp)) := by
  induction xs generalizing a with
  | nil => exact h.2
  | cons x xs ih =>
      rw [List.getLast_cons_cons]
      exact ih h.2.2

/-- Between two nodes of a segment, in both directions. -/
theorem Seg.inverse (h : Seg l a xs b) :
    (∀ u ∈ a :: xs, ∃ v, l.next u = some v ∧ l.prev v = some u) ∧
      ∀ v ∈ xs ++ [b], ∃ u, l.prev v = some u ∧ l.next u = some v := by
  induction xs generalizing a with
  | nil =>
      refine ⟨fun u hu => ?_, fun v hv => ?_⟩
      · rw [List.mem_singleton.mp hu]
        exact ⟨b, h.1, h.2⟩
      · rw [List.mem_singleton.mp hv]
        exact ⟨a, h.2, h.1⟩
  | cons x xs ih =>
      obtain ⟨h1, h2, h3⟩ := h
      obtain ⟨hn, hp⟩ := ih h3
      refine ⟨fun u hu => ?_, fun v hv => ?_⟩
      · rcases List.mem_cons.mp hu with rfl | hu
        · exact ⟨x, h1, h2⟩
        · exact hn u hu
      · rcases List.mem_cons.mp hv with rfl | hv
        · exact ⟨a, h2, h1⟩
        · exact hp v hv

/-- The segment read backwards. -/
theorem Seg.reverse (h : Seg l a xs b) : Seg ⟨l.prev, l.next⟩ b xs.reverse a := by
  induction xs generalizing a with
  | nil => exact ⟨h.2, h.1⟩
  | cons x xs ih =>
      rw [List.reverse_cons, seg_append]
      exact ⟨ih h.2.2, h.2.1, h.1⟩

variable [DecidableEq N]

/-- Let the last node of a segment point to another end. -/
theorem Seg.retarget (h : Seg l a xs b) (hd : (a :: xs).Nodup) (hy : y ∉ xs) :
    Seg ((l.setNext ((a :: xs).getLast (by simp)) (some y)).setPrev y
      (some ((a :: xs).getLast (by simp)))) a xs y := by
  induction xs generalizing a with
  | nil => simp [Seg]
  | cons x xs ih =>
      obtain ⟨h1, h2, h3⟩ := h
      rw [List.nodup_cons] at hd
      rw [List.mem_cons, not_or] at hy
      have hlast : (x :: xs).getLast (by simp) ∈ x :: xs := List.getLast_mem _
      have hne : a ≠ (x :: xs).getLast (by simp) := fun he => hd.1 (he ▸ hlast)
      simp only [List.getLast_cons_cons]
      refine ⟨?_, ?_, ih h3 hd.2 hy.2⟩
      · simpa [hne] using h1
      · simpa [Ne.symm hy.1] using h2

/-- Cut a node out of a segment. -/
theorem Seg.unlink (h : Seg l a (xs ++ x :: ys) b) (hd : (a :: (xs ++ x :: ys)).Nodup)
    (hb : b ∉ xs ++ x :: ys) {p q : N} (hp : l.prev x = some p) (hq : l.next x = some q) :
    Seg ((l.setPrev q (some p)).setNext p (some q)) a (xs ++ ys) b := by
  obtain ⟨h1, h2⟩ := seg_append.mp h
  have hpx := h1.prev_eq.symm.trans hp
  have hqx := h2.next_eq.symm.trans hq
  rw [Option.some.injEq] at hpx hqx
  have hd' : (a :: xs).Nodup := by
    rw [← List.cons_append] at hd
    exact hd.of_append_left
  have hdis : ∀ u ∈ a :: xs, u ∉ x :: ys := by
    rw [← List.cons_append] at hd
    exact fun u hu hv => (List.disjoint_of_nodup_append hd) hu hv
  have hqxs : q ∉ xs := by
    intro hm
    have hmem : q ∈ ys ++ [b] := hqx ▸ List.head_mem _
    rcases List.mem_append.mp hmem with hy | hy
    · exact hdis q (List.mem_cons_of_mem _ hm) (List.mem_cons_of_mem _ hy)
    · rw [List.mem_singleton.mp hy] at hm
      exact hb (List.mem_append_left _ hm)
  have hr : Seg ((l.setPrev q (some p)).setNext p (some q)) a xs q := by
    have hr := h1.retarget hd' hqxs
    rw [hpx] at hr
    exact hr
  cases ys with
  | nil =>
      have hqb : b = q := hqx
      rw [List.append_nil, hqb]
      exact hr
  | cons y ys =>
      have hyq : y = q := hqx
      subst hyq
      rw [seg_append]
      refine ⟨hr, h2.2.2.congr (fun u hu => ?_) fun v hv => ?_⟩
      · -- the node before `x` is not behind it
        have hne : u ≠ p := by
          rintro rfl
          exact hdis u (hpx ▸ List.getLast_mem _) (List.mem_cons_of_mem _ hu)
        simp [hne]
      · have hne : v ≠ y := by
          rintro rfl
          rcases List.mem_append.mp hv with hm | hm
          · rw [← List.cons_append] at hd
            have hdy := (List.nodup_append.mp hd).2.1
            simp only [List.nodup_cons] at hdy
            exact hdy.2.1 hm
          · rw [List.mem_singleton.mp hm] at hb
            simp at hb
        simp [hne]

/-- Put a node behind the start of a segment. -/
theorem Seg.insertFirst (h : Seg l a xs b) (hd : (a :: xs).Nodup) (hx : x ∉ a :: xs)
    (hb : b ∉ xs) (hxb : x ≠ b) {q : N} (hq : l.next a = some q) :
    Seg ((((l.setPrev x (some a)).setNext x (some q)).setPrev q (some x)).setNext a (some x)) a
      (x :: xs) b := by
  rw [List.mem_cons, not_or] at hx
  rw [List.nodup_cons] at hd
  have hqx := h.next_eq.symm.trans hq
  rw [Option.some.injEq] at hqx
  have hqne : q ≠ x := by
    have hmem : q ∈ xs ++ [b] := hqx ▸ List.head_mem _
    rintro rfl
    rcases List.mem_append.mp hmem with hm | hm
    · exact hx.2 hm
    · exact hxb (List.mem_singleton.mp hm)
  refine ⟨by simp, by simp [Ne.symm hqne], ?_⟩
  cases xs with
  | nil =>
      have hbq : b = q := hqx
      subst hbq
      exact ⟨by simp [hx.1], by simp⟩
  | cons y ys =>
      have hyq : y = q := hqx
      subst hyq
      refine ⟨by simp [hx.1], by simp, h.2.2.congr (fun u hu => ?_) fun v hv => ?_⟩
      · have h1 : u ≠ a := by
          rintro rfl
          exact hd.1 hu
        have h2 : u ≠ x := by
          rintro rfl
          exact hx.2 hu
        simp [h1, h2]
      · have h1 : v ≠ y := by
          rintro rfl
          rcases List.mem_append.mp hv with hm | hm
          · exact (List.nodup_cons.mp hd.2).1 hm
          · rw [List.mem_singleton.mp hm] at hb
            simp at hb
        have h2 : v ≠ x := by
          rintro rfl
          rcases List.mem_append.mp hv with hm | hm
          · exact hx.2 (List.mem_cons_of_mem _ hm)
          · exact hxb (List.mem_singleton.mp hm)
        simp [h1, h2]

/-- Put a node before the end of a segment. -/
theorem Seg.insertLast (h : Seg l a xs b) (hd : (a :: xs).Nodup) (hx : x ∉ a :: xs) (hb : b ∉ xs)
    (hxb : x ≠ b) {p : N} (hp : l.prev b = some p) :
    Seg ((((l.setNext x (some b)).setPrev x (some p)).setNext p (some x)).setPrev b (some x)) a
      (xs ++ [x]) b := by
  have hpx := h.prev_eq.symm.trans hp
  rw [Option.some.injEq] at hpx
  have hpm : p ∈ a :: xs := hpx ▸ List.getLast_mem _
  have hpne : p ≠ x := by
    rintro rfl
    exact hx hpm
  rw [seg_append]
  refine ⟨?_, by simp [Ne.symm hpne], by simp⟩
  have hr := h.retarget hd (y := x) fun hm => hx (List.mem_cons_of_mem _ hm)
  rw [hpx] at hr
  refine hr.congr (fun u hu => ?_) fun v hv => ?_
  · have h1 : u ≠ x := by
      rintro rfl
      exact hx hu
    simp [h1]
  · have h1 : v ≠ b := by
      rintro rfl
      rcases List.mem_append.mp hv with hm | hm
      · exact hb hm
      · exact hxb (List.mem_singleton.mp hm).symm
    simp [h1]

end Links

end WhuOs
