import WhuOs.Mem.Destroy
import WhuOs.Mem.PageMap

/-! # What the destruction of a table gives back

The pages below an entry of a table page, each with its position, in the order in
which `destroy_pgtbl` frees them: the list is read off the memory before the walk.
Where these pages are pairwise different the walk frees exactly the list, since what
it has freed is not read again. On a table whose entries say what they are, the list
holds every page below the root once.
-/

namespace WhuOs.Mem

open Prog Bytes

/-- A page below a root, and the indices that lead to it. -/
abbrev Spot := List Nat × Nat

/-- Tables below the root are kernel pages; the root and the frames, at positions of three indices,
are user pages. -/
def spotKind (z : Spot) : Bool := decide (0 < z.1.length ∧ z.1.length < 3)

def leafSpots (m : Bytes) (p : Nat) (x : List Nat) (n i : Nat) : List Spot :=
  ((List.range' i n).filter fun j => hasFlag (entry m p j) pteV && !pteCheck (entry m p j)).map
    fun j => (j :: x, pteToPa (entry m p j))

/-- What `n` entries of a table refer to; `child` lists what is below a table. -/
def tableSpots (child : Nat → List Nat → List Spot) (m : Bytes) (p : Nat) (x : List Nat)
    (n i : Nat) : List Spot :=
  ((List.range' i n).filter fun j => hasFlag (entry m p j) pteV && pteCheck (entry m p j)).flatMap
    fun j => child (pteToPa (entry m p j)) (j :: x) ++ [(j :: x, pteToPa (entry m p j))]

def spotsBelow (m : Bytes) : Nat → Nat → List Nat → List Spot
  | 0, p, x => leafSpots m p x 512 0
  | level + 1, p, x => tableSpots (spotsBelow m level) m p x 512 0

/-- The state after the pages of a list were freed in order. -/
def giveBack (s : Kernel) (l : List Spot) : Kernel :=
  l.foldl (fun s z => pushed s (spotKind z) z.2) s

/-- The pages of a list can be freed: different pages of their regions, none of them free. -/
structure Givable (s : Kernel) (l : List Spot) : Prop where
  pools : ∃ f, Pools s f ∧ ∀ z ∈ l, ∀ k, z.2 ∉ f k
  nodup : (l.map Prod.snd).Nodup
  page : ∀ z ∈ l, z.2 % pgSize = 0 ∧ Managed s z.2 ∧ inKernelOf s z.2 = spotKind z

/-- A run that freed the pages of a list in order and nothing else. -/
def GaveBack (c : MemM Unit) (s : Kernel) (l : List Spot) : Prop :=
  c s = (.ok ((), giveBack s l), l.map fun z => .pageFreed z.2)

section

variable {g : Ledger} {s s' : Kernel} {l l' : List Spot} {z : Spot} {m m' : Bytes}
  {p q r i n v level : Nat} {x y : List Nat}
  {c c' : MemM Unit}

/-! ## Giving pages back in order -/

theorem giveBack_append (s : Kernel) (l l' : List Spot) :
    giveBack s (l ++ l') = giveBack (giveBack s l) l' :=
  List.foldl_append

theorem giveBack_rest (s : Kernel) (l : List Spot) : (giveBack s l).rest = s.rest := by
  induction l generalizing s with
  | nil => rfl
  | cons z l ih => exact (ih (pushed s (spotKind z) z.2)).trans (rest_pushed s _ _)

/-- Other pages keep their contents. -/
theorem giveBack_mem (hl : ∀ z ∈ l, z.2 % pgSize = 0) (hp : p % pgSize = 0)
    (hne : ∀ z ∈ l, z.2 ≠ p) :
    ∀ i < pgSize, (giveBack s l).mem (p + i) = s.mem (p + i) := by
  intro i hi
  induction l generalizing s with
  | nil => rfl
  | cons z l ih =>
      have hz := hl z List.mem_cons_self
      have hap := pages_apart hp hz (hne z List.mem_cons_self).symm
      have hone : (pushed s (spotKind z) z.2).mem (p + i) = s.mem (p + i) := by
        rw [pushed_mem]
        unfold putLE
        unfold pgSize at *
        exact splice_out (by omega)
      exact (ih (fun z' hz' => hl z' (List.mem_cons_of_mem _ hz')) fun z' hz' =>
        hne z' (List.mem_cons_of_mem _ hz')).trans hone

theorem GaveBack.nil (s : Kernel) : GaveBack (pure ()) s [] := rfl

theorem GaveBack.bind (h : GaveBack c s l) (h' : GaveBack c' (giveBack s l) l') :
    GaveBack (do c; c') s (l ++ l') := by
  unfold GaveBack at *
  have hb : (do c; c') s = Prog.seq c (fun _ => c') s := rfl
  rw [hb, Prog.seq, h]
  simp only
  rw [h', giveBack_append, List.map_append]

/-- One page. -/
theorem Givable.free (h : Givable s (z :: l)) : GaveBack (pmemFree z.2 (spotKind z)) s [z] := by
  obtain ⟨f, hf, -⟩ := h.pools
  obtain ⟨ha, hman, hin⟩ := h.page z List.mem_cons_self
  have hb := hf.layout.inKernelOf_bounds hman
  rw [hin] at hb
  have hrun : regionFreePage (spotKind z) z.2 s = (.ok ((), pushed s (spotKind z) z.2), []) := by
    have hsat : Sat (regionFreePage (spotKind z) z.2) s (fun _ => False)
      (fun _ s' => s' = pushed s (spotKind z) z.2)
        fun _ => False := (regionFreePage_sat hf ha hb).mpr rfl
    obtain ⟨⟨⟩, s', hr, rfl⟩ := hsat.returns
    exact Prod.ext hr (List.eq_nil_iff_forall_not_mem.mpr hsat.1)
  unfold GaveBack pmemFree
  rw [bind_silent (show state s = (.ok (s, s), []) from rfl), if_neg (by omega)]
  change ((regionFreePage (spotKind z) z.2 s).1,
    [.pageFreed z.2] ++ (regionFreePage (spotKind z) z.2 s).2) = _
  rw [hrun]
  rfl

theorem Givable.tail (h : Givable s (z :: l)) : Givable (pushed s (spotKind z) z.2) l := by
  obtain ⟨f, hf, hfree⟩ := h.pools
  obtain ⟨ha, hman, hin⟩ := h.page z List.mem_cons_self
  have hb := hf.layout.inKernelOf_bounds hman
  rw [hin] at hb
  have hnd := List.nodup_cons.mp h.nodup
  refine ⟨⟨_, hf.pushed ha hb (hfree z List.mem_cons_self _), fun w hw k hk => ?_⟩, hnd.2,
    fun w hw => ?_⟩
  · have hne : w.2 ≠ z.2 := fun he => hnd.1 (he ▸ List.mem_map_of_mem hw)
    by_cases hkz : k = spotKind z
    · subst hkz
      rw [Function.update_self, List.mem_cons] at hk
      exact hfree w (List.mem_cons_of_mem _ hw) _ (hk.resolve_left hne)
    · rw [Function.update_of_ne hkz] at hk
      exact hfree w (List.mem_cons_of_mem _ hw) _ hk
  · unfold Managed inKernelOf
    rw [rest_allocBegin (rest_pushed s _ _)]
    exact h.page w (List.mem_cons_of_mem _ hw)

theorem Givable.left (h : Givable s (l ++ l')) : Givable s l := by
  obtain ⟨f, hf, hfree⟩ := h.pools
  refine ⟨⟨f, hf, fun z hz => hfree z (List.mem_append_left _ hz)⟩, ?_, fun z hz =>
    h.page z (List.mem_append_left _ hz)⟩
  have hnd := h.nodup
  rw [List.map_append] at hnd
  exact (List.nodup_append.mp hnd).1

theorem Givable.right (h : Givable s (l ++ l')) : Givable (giveBack s l) l' := by
  induction l generalizing s with
  | nil => exact h
  | cons z l ih => exact ih h.tail

/-- The pages stand in front of the free lists, the last one first. -/
theorem Givable.after {f : Bool → List Nat} (h : Givable s l) (hf : Pools s f) :
    Pools (giveBack s l) fun k =>
      ((l.map Prod.snd).filter fun q => inKernelOf s q = k).reverse ++ f k := by
  induction l generalizing s f with
  | nil => exact hf
  | cons z l ih =>
      obtain ⟨f', hf', hfree⟩ := h.pools
      obtain ⟨ha, hman, hin⟩ := h.page z List.mem_cons_self
      have hb := hf.layout.inKernelOf_bounds hman
      rw [hin] at hb
      have hsame : f' (spotKind z) = f (spotKind z) :=
        Chain.unique (hf'.pool _).chain (hf.pool _).chain
      have hnew := hf.pushed ha hb (hsame ▸ hfree z List.mem_cons_self _)
      have hall := ih h.tail hnew
      have hlists :
          (fun k => ((l.map Prod.snd).filter fun q =>
            inKernelOf (pushed s (spotKind z) z.2) q = k).reverse
              ++ Function.update f (spotKind z) (z.2 :: f (spotKind z)) k)
            = fun k => (((z :: l).map Prod.snd).filter fun q =>
              inKernelOf s q = k).reverse ++ f k := by
        funext k
        have hk : ∀ q, inKernelOf (pushed s (spotKind z) z.2) q = inKernelOf s q := by
          intro q
          unfold inKernelOf
          rw [rest_allocBegin (rest_pushed s _ _)]
        simp only [hk]
        rw [List.map_cons, List.filter_cons, hin]
        by_cases hkz : spotKind z = k
        · subst hkz
          rw [Function.update_self, if_pos (decide_eq_true rfl), List.reverse_cons,
            List.append_assoc, List.singleton_append]
        · rw [Function.update_of_ne (Ne.symm hkz), if_neg (by rw [decide_eq_true_eq]; exact hkz)]
      rw [hlists] at hall
      exact hall

/-- The pages of the two parts of a list are different. -/
theorem Givable.apart (h : Givable s (l ++ l')) (hz : z ∈ l) {w : Spot} (hw : w ∈ l') :
    z.2 ≠ w.2 := by
  have hnd := h.nodup
  rw [List.map_append] at hnd
  exact (List.nodup_append.mp hnd).2.2 _ (List.mem_map_of_mem hz) _ (List.mem_map_of_mem hw)

/-! ## The list and the memory -/

theorem leafSpots_congr (hin : i + n ≤ 512) (hp : ∀ k < pgSize, m' (p + k) = m (p + k)) :
    leafSpots m' p x n i = leafSpots m p x n i := by
  have he : ∀ j ∈ List.range' i n, entry m' p j = entry m p j := by
    intro j hj
    have hj := List.mem_range'_1.mp hj
    exact entry_congr (by omega) hp
  unfold leafSpots
  rw [List.filter_congr fun j hj => by rw [he j hj]]
  refine List.map_congr_left fun j hj => ?_
  rw [he j (List.mem_of_mem_filter hj)]

theorem tableSpots_congr {child child' : Nat → List Nat → List Spot} (hin : i + n ≤ 512)
    (hp : ∀ k < pgSize, m' (p + k) = m (p + k))
    (hchild : ∀ j c, hasFlag (entry m p j) pteV && pteCheck (entry m p j) →
      c = pteToPa (entry m p j) → j ∈ List.range' i n →
      child' c (j :: x) = child c (j :: x)) :
    tableSpots child' m' p x n i = tableSpots child m p x n i := by
  have he : ∀ j ∈ List.range' i n, entry m' p j = entry m p j := by
    intro j hj
    have hj := List.mem_range'_1.mp hj
    exact entry_congr (by omega) hp
  unfold tableSpots
  rw [List.filter_congr fun j hj => by rw [he j hj]]
  refine List.flatMap_congr fun j hj => ?_
  obtain ⟨hj, hc⟩ := List.mem_filter.mp hj
  rw [he j hj, hchild j _ hc rfl hj]

/-- The list is kept by writes outside the table page and the pages of the list. -/
theorem spotsBelow_congr (hp : ∀ k < pgSize, m' (p + k) = m (p + k))
    (hl : ∀ z ∈ spotsBelow m level p x, ∀ k < pgSize, m' (z.2 + k) = m (z.2 + k)) :
    spotsBelow m' level p x = spotsBelow m level p x := by
  induction level generalizing p x with
  | zero => exact leafSpots_congr (Nat.le_refl _) hp
  | succ level ih =>
      refine tableSpots_congr (Nat.le_refl _) hp ?_
      rintro j c hc rfl hj
      have hmem : ∀ z ∈ spotsBelow m level (pteToPa (entry m p j)) (j :: x) ++ [(j :: x, pteToPa (entry m p j))],
          z ∈ spotsBelow m (level + 1) p x := fun z hz =>
        List.mem_flatMap.mpr ⟨j, List.mem_filter.mpr ⟨hj, hc⟩, hz⟩
      exact ih (hl _ (hmem _ (List.mem_append_right _ List.mem_cons_self)))
        fun z hz => hl z (hmem z (List.mem_append_left _ hz))

theorem leafSpots_succ (m : Bytes) (p : Nat) (x : List Nat) (n i : Nat) :
    leafSpots m p x (n + 1) i = (if hasFlag (entry m p i) pteV && !pteCheck (entry m p i) then
      [(i :: x, pteToPa (entry m p i))] else []) ++ leafSpots m p x n (i + 1) := by
  unfold leafSpots
  rw [List.range'_succ, List.filter_cons]
  split <;> rfl

theorem tableSpots_succ (child : Nat → List Nat → List Spot) (m : Bytes) (p : Nat)
    (x : List Nat) (n i : Nat) :
    tableSpots child m p x (n + 1) i = (if hasFlag (entry m p i) pteV && pteCheck (entry m p i) then
      child (pteToPa (entry m p i)) (i :: x) ++ [(i :: x, pteToPa (entry m p i))] else [])
        ++ tableSpots child m p x n (i + 1) := by
  unfold tableSpots
  rw [List.range'_succ, List.filter_cons]
  split
  · rw [List.flatMap_cons]
  · rfl

/-- The rest of a list does not lie on the pages freed so far. -/
theorem tableSpots_giveBack (hp : p % pgSize = 0) (hin : i + n ≤ 512)
    (hg : Givable s (l ++ tableSpots (spotsBelow s.mem level) s.mem p x n i))
    (hne : ∀ z ∈ l, z.2 ≠ p) :
    tableSpots (spotsBelow (giveBack s l).mem level) (giveBack s l).mem p x n i
      = tableSpots (spotsBelow s.mem level) s.mem p x n i := by
  have hmem : ∀ q, q % pgSize = 0 → (∀ z ∈ l, z.2 ≠ q) →
    ∀ k < pgSize, (giveBack s l).mem (q + k) = s.mem (q + k) :=
    fun q hq hnq => giveBack_mem (fun z hz => hg.left.page z hz |>.1) hq hnq
  refine tableSpots_congr hin (hmem p hp hne) ?_
  rintro j c hc rfl hj
  have hall : ∀ w ∈ spotsBelow s.mem level (pteToPa (entry s.mem p j)) (j :: x) ++ [(j :: x, pteToPa (entry s.mem p j))],
      w ∈ tableSpots (spotsBelow s.mem level) s.mem p x n i :=
    fun w hw => List.mem_flatMap.mpr ⟨j, List.mem_filter.mpr ⟨hj, hc⟩, hw⟩
  have hkeep :
    ∀ w ∈ spotsBelow s.mem level (pteToPa (entry s.mem p j)) (j :: x) ++ [(j :: x, pteToPa (entry s.mem p j))],
      ∀ k < pgSize, (giveBack s l).mem (w.2 + k) = s.mem (w.2 + k) := fun w hw =>
    hmem w.2 (hg.page w (List.mem_append_right _ (hall w hw))).1 fun z hz => hg.apart hz (hall w hw)
  exact spotsBelow_congr (hkeep _ (List.mem_append_right _ List.mem_cons_self))
    fun w hw => hkeep w (List.mem_append_left _ hw)

/-! ## The walk -/

theorem bind_loadEntry {f : Nat → MemM Unit} : (load (pteAt p i) >>= f) s = f (entry s.mem p i) s :=
  bind_silent (m := load (pteAt p i)) rfl

theorem destroyLeaves_gives (hx : x.length = 2) (hp : p % pgSize = 0) (hin : i + n ≤ 512)
    (hg : Givable s (leafSpots s.mem p x n i)) (hne : ∀ z ∈ leafSpots s.mem p x n i, z.2 ≠ p) :
    GaveBack (destroyLeaves p n i) s (leafSpots s.mem p x n i) := by
  induction n generalizing s i with
  | zero => exact .nil s
  | succ n ih =>
      rw [leafSpots_succ] at hg hne ⊢
      unfold GaveBack
      rw [destroyLeaves, bind_loadEntry]
      by_cases hc : (hasFlag (entry s.mem p i) pteV && !pteCheck (entry s.mem p i)) = true
      · rw [if_pos hc] at hg hne ⊢
        rw [if_pos hc]
        have hkind : spotKind (i :: x, pteToPa (entry s.mem p i)) = false := by
          unfold spotKind
          rw [List.length_cons, hx]
          rfl
        have hfree := hg.free
        rw [hkind] at hfree
        have hmem := giveBack_mem (s := s) (l := [(i :: x, pteToPa (entry s.mem p i))])
          (fun z hz => (hg.page z (List.mem_append_left _ hz)).1) hp fun z hz =>
          hne z (List.mem_append_left _ hz)
        have hrest := leafSpots_congr (x := x) (i := i + 1) (n := n) (by omega) hmem
        have hnext :=
          ih (s := giveBack s [(i :: x, pteToPa (entry s.mem p i))]) (i := i + 1) (by omega)
          (by rw [hrest]; exact hg.right)
          (by rw [hrest]; exact fun z hz => hne z (List.mem_append_right _ hz))
        rw [hrest] at hnext
        exact hfree.bind hnext
      · rw [if_neg hc] at hg hne ⊢
        rw [if_neg hc]
        exact ih (by omega) hg hne

theorem destroyEntries_gives {child : Nat → MemM Unit}
    (hchild : ∀ {s : Kernel} {c : Nat} {y : List Nat}, y.length = x.length + 1 → c % pgSize = 0 →
      Givable s (spotsBelow s.mem level c y) → (∀ z ∈ spotsBelow s.mem level c y, z.2 ≠ c) →
      GaveBack (child c) s (spotsBelow s.mem level c y))
    (hx : x.length < 2) (hp : p % pgSize = 0) (hin : i + n ≤ 512)
    (hg : Givable s (tableSpots (spotsBelow s.mem level) s.mem p x n i))
    (hne : ∀ z ∈ tableSpots (spotsBelow s.mem level) s.mem p x n i, z.2 ≠ p) :
    GaveBack (destroyEntries child p n i) s
      (tableSpots (spotsBelow s.mem level) s.mem p x n i) := by
  induction n generalizing s i with
  | zero => exact .nil s
  | succ n ih =>
      rw [tableSpots_succ] at hg hne ⊢
      unfold GaveBack
      rw [destroyEntries, bind_loadEntry]
      cases hv : hasFlag (entry s.mem p i) pteV with
      | false =>
          rw [hv] at hg hne
          exact ih (by omega) hg hne
      | true =>
          cases hk : pteCheck (entry s.mem p i) with
          | false =>
              rw [hv, hk] at hg hne
              exact ih (by omega) hg hne
          | true =>
              rw [hv, hk] at hg hne
              replace hg : Givable s ((spotsBelow s.mem level (pteToPa (entry s.mem p i)) (i :: x)
                  ++ [(i :: x, pteToPa (entry s.mem p i))])
                  ++ tableSpots (spotsBelow s.mem level) s.mem p x n (i + 1)) := hg
              have hkind : spotKind (i :: x, pteToPa (entry s.mem p i)) = true :=
                decide_eq_true ⟨Nat.succ_pos _, Nat.succ_lt_succ hx⟩
              have hsub := hchild (y := i :: x) rfl (pteToPa_aligned (entry s.mem p i)) hg.left.left
                fun z hz => hg.left.apart hz List.mem_cons_self
              have hfree := hg.left.right.free
              rw [hkind] at hfree
              have hrest := tableSpots_giveBack hp (by omega) hg fun z hz =>
                hne z (List.mem_append_left _ hz)
              have hnext := ih (i := i + 1) (by omega) (by rw [hrest]; exact hg.right)
                (by rw [hrest]; exact fun z hz => hne z (List.mem_append_right _ hz))
              rw [hrest] at hnext
              have hall := (hsub.bind hfree).bind hnext
              unfold GaveBack at hall
              rw [seq_assoc] at hall
              exact hall

/-- `destroy_pgtbl` frees the pages of the list, in its order. -/
theorem destroyPgtbl_gives (hx : x.length + level = 2) (hp : p % pgSize = 0)
    (hg : Givable s (spotsBelow s.mem level p x))
    (hne : ∀ z ∈ spotsBelow s.mem level p x, z.2 ≠ p) :
    GaveBack (destroyPgtbl level p) s (spotsBelow s.mem level p x) := by
  induction level generalizing s p x with
  | zero => exact destroyLeaves_gives hx hp (Nat.le_refl _) hg hne
  | succ level ih =>
      refine destroyEntries_gives (fun hy hc hg' hne' => ih (by omega) hc hg' hne')
        (by omega) hp (Nat.le_refl _) hg hne

/-! ## The positions of the list -/

theorem mem_leafSpots :
    z ∈ leafSpots m p x n i ↔ ∃ j, i ≤ j ∧ j < i + n ∧ hasFlag (entry m p j) pteV = true ∧
    pteCheck (entry m p j) = false ∧ z = (j :: x, pteToPa (entry m p j)) := by
  unfold leafSpots
  simp only [List.mem_map, List.mem_filter, List.mem_range'_1, Bool.and_eq_true, Bool.not_eq_true']
  constructor
  · rintro ⟨j, ⟨⟨h1, h2⟩, h3, h4⟩, rfl⟩
    exact ⟨j, h1, h2, h3, h4, rfl⟩
  · rintro ⟨j, h1, h2, h3, h4, rfl⟩
    exact ⟨j, ⟨⟨h1, h2⟩, h3, h4⟩, rfl⟩

theorem mem_tableSpots {child : Nat → List Nat → List Spot} : z ∈ tableSpots child m p x n i ↔
    ∃ j, i ≤ j ∧ j < i + n ∧ hasFlag (entry m p j) pteV = true ∧ pteCheck (entry m p j) = true ∧
      (z ∈ child (pteToPa (entry m p j)) (j :: x) ∨ z = (j :: x, pteToPa (entry m p j))) := by
  unfold tableSpots
  simp only [List.mem_flatMap, List.mem_filter, List.mem_range'_1,
    Bool.and_eq_true, List.mem_append,
    List.mem_singleton]
  constructor
  · rintro ⟨j, ⟨⟨h1, h2⟩, h3, h4⟩, h5⟩
    exact ⟨j, h1, h2, h3, h4, h5⟩
  · rintro ⟨j, h1, h2, h3, h4, h5⟩
    exact ⟨j, ⟨⟨h1, h2⟩, h3, h4⟩, h5⟩

/-- The pages of the list are below its table. -/
theorem spotsBelow_suffix (h : z ∈ spotsBelow m level p x) : ∃ j < 512, j :: x <:+ z.1 := by
  induction level generalizing p x with
  | zero =>
      obtain ⟨j, -, hj, -, -, rfl⟩ := mem_leafSpots.mp h
      exact ⟨j, by omega, List.suffix_rfl⟩
  | succ level ih =>
      obtain ⟨j, -, hj, -, -, hz | rfl⟩ := mem_tableSpots.mp h
      · obtain ⟨k, -, hk⟩ := ih hz
        exact ⟨j, by omega, (List.suffix_cons k _).trans hk⟩
      · exact ⟨j, by omega, List.suffix_rfl⟩

theorem tableSpots_suffix {j c : Nat}
    (h : y ∈ (spotsBelow m level c (j :: x) ++ [(j :: x, c)]).map Prod.fst) :
    j :: x <:+ y := by
  obtain ⟨z, hz, rfl⟩ := List.mem_map.mp h
  rcases List.mem_append.mp hz with hz | hz
  · obtain ⟨k, -, hk⟩ := spotsBelow_suffix hz
    exact (List.suffix_cons k _).trans hk
  · rw [List.mem_singleton.mp hz]

/-- No position is in the list twice. -/
theorem spotsBelow_nodup (m : Bytes) (level p : Nat) (x : List Nat) :
    ((spotsBelow m level p x).map Prod.fst).Nodup := by
  induction level generalizing p x with
  | zero =>
      unfold spotsBelow leafSpots
      rw [List.map_map]
      exact List.Nodup.map (fun a b hab => (List.cons.inj hab).1) ((List.nodup_range').filter _)
  | succ level ih =>
      unfold spotsBelow tableSpots
      rw [List.map_flatMap]
      have hnd : ((List.range' 0 512).filter fun j =>
        hasFlag (entry m p j) pteV && pteCheck (entry m p j)).Nodup :=
        (List.nodup_range').filter _
      refine List.nodup_flatMap.mpr ⟨fun j _ => ?_, hnd.imp fun {a b} hab y ha hb => ?_⟩
      · -- the page of an entry is not below itself
        rw [List.map_append, List.nodup_append]
        refine ⟨ih _ _, List.nodup_singleton _, fun a ha b hb => ?_⟩
        obtain ⟨z, hz, rfl⟩ := List.mem_map.mp ha
        obtain ⟨k, -, hk⟩ := spotsBelow_suffix hz
        rw [List.mem_singleton.mp hb]
        intro he
        have hlen := hk.length_le
        rw [he, List.length_cons, List.length_cons] at hlen
        exact absurd hlen (Nat.not_succ_le_self _)
      · exact hab (suffix_cons_inj (tableSpots_suffix ha) (tableSpots_suffix hb))

/-! ## The pages of the list -/

/-- Entries above the lowest tables refer to tables, those of the lowest tables do not. -/
def Telling (m : Bytes) (r : Nat) : Prop :=
  ∀ x p i, IsPos x → tableAt m r x = some p → i < 512 → hasFlag (entry m p i) pteV = true →
    pteCheck (entry m p i) = decide (x.length < 2)

theorem exists_cons_suffix (h : x <:+ y) (hlen : x.length < y.length) : ∃ j, j :: x <:+ y := by
  obtain ⟨t, rfl⟩ := h
  rcases List.eq_nil_or_concat t with rfl | ⟨t', j, rfl⟩
  · exact absurd hlen (Nat.lt_irrefl _)
  · exact ⟨j, t', by rw [List.concat_append]⟩

/-- The tables above a page are there. -/
theorem tableAt_suffix (h : tableAt m r y = some q) (hs : x <:+ y) :
    ∃ p, tableAt m r x = some p := by
  induction y generalizing q with
  | nil =>
      rw [List.suffix_nil.mp hs]
      exact ⟨q, h⟩
  | cons i y ih =>
      rcases List.suffix_cons_iff.mp hs with rfl | hs
      · exact ⟨q, h⟩
      · obtain ⟨p, hp, -⟩ := tableAt_cons.mp h
        exact ih hp hs

/-- The entry of a page, and the page behind it. -/
theorem tableAt_vpnPos :
    tableAt m r (vpnPos v) = some q ↔
    hasFlag (leaf m r v) pteV = true ∧ pteToPa (leaf m r v) = q := by
  unfold vpnPos
  rw [tableAt_cons]
  constructor
  · rintro ⟨p, hp, hv, hq⟩
    rw [leaf_eq hp]
    exact ⟨hv, hq⟩
  · rintro ⟨hv, hq⟩
    obtain ⟨p, hp⟩ := leaf_ne_zero fun hz => by
      rw [hz, hasFlag_zero] at hv
      cases hv
    rw [leaf_eq hp] at hv hq
    exact ⟨p, hp, hv, hq⟩

/-- Positions of three indices are those of virtual pages. -/
theorem exists_vpnPos (hlen : y.length = 3) (hidx : ∀ j ∈ y, j < 512) :
    ∃ v, vpnPos v = y ∧ ∀ n, [n] <:+ y → n < 256 → v < vaPages := by
  obtain ⟨i, j, n, rfl⟩ := List.length_eq_three.mp hlen
  have hi := hidx i (by simp)
  have hj := hidx j (by simp)
  have hn := hidx n (by simp)
  refine ⟨n * 512 ^ 2 + j * 512 + i, vpnPos_digits hi hj hn, fun n' hs hlt => ?_⟩
  have hnn : n' = n := by
    obtain ⟨t, ht⟩ := hs
    have hr := congrArg List.reverse ht
    rw [List.reverse_append] at hr
    exact (List.cons.inj hr).1
  unfold vaPages vaMax pgSize
  omega

/-- The list holds the pages below its table. -/
theorem mem_spotsBelow (hm : Telling m r) (hpos : IsPos x) (ht : tableAt m r x = some p)
    (hx : x.length + level = 2) :
    z ∈ spotsBelow m level p x ↔
    x <:+ z.1 ∧ x.length < z.1.length ∧ z.1.length ≤ 3 ∧ (∀ j ∈ z.1, j < 512) ∧
      tableAt m r z.1 = some z.2 := by
  induction level generalizing p x with
  | zero =>
      replace hx : x.length = 2 := hx
      rw [spotsBelow, mem_leafSpots]
      constructor
      · rintro ⟨j, -, hj, hv, -, rfl⟩
        exact ⟨List.suffix_cons j x,
          Nat.lt_succ_self
            _, by rw [List.length_cons, hx], List.forall_mem_cons.mpr ⟨by omega, hpos.2⟩,
          tableAt_cons.mpr ⟨p, ht, hv, rfl⟩⟩
      · rintro ⟨hs, hlt, hle, hidx, hz⟩
        obtain ⟨j, hj⟩ := exists_cons_suffix hs hlt
        have heq : j :: x = z.1 := hj.eq_of_length_le (by rw [List.length_cons]; omega)
        rw [← heq] at hz hidx
        obtain ⟨p', hp', hv, hq⟩ := tableAt_cons.mp hz
        obtain rfl := Option.some.inj (ht.symm.trans hp')
        have hj512 := hidx j List.mem_cons_self
        refine ⟨j, Nat.zero_le j, by omega, hv, ?_, Prod.ext heq.symm hq.symm⟩
        rw [hm x p j hpos ht hj512 hv, hx]
        rfl
  | succ level ih =>
      have hlen : x.length < 2 := by omega
      rw [spotsBelow, mem_tableSpots]
      constructor
      · rintro ⟨j, -, hj, hv, -, hz⟩
        have hchild := tableAt_cons.mpr ⟨p, ht, hv, rfl⟩
        rcases hz with hz | rfl
        · obtain ⟨hs, hlt, h3⟩ :=
            (ih (hpos.cons hlen (by omega)) hchild (by rw [List.length_cons]; omega)).mp hz
          rw [List.length_cons] at hlt
          exact ⟨(List.suffix_cons j x).trans hs, by omega, h3⟩
        · exact ⟨List.suffix_cons j x, Nat.lt_succ_self _, by rw [List.length_cons]; omega,
            List.forall_mem_cons.mpr ⟨by omega, hpos.2⟩, hchild⟩
      · rintro ⟨hs, hlt, hle, hidx, hz⟩
        obtain ⟨j, hj⟩ := exists_cons_suffix hs hlt
        have hj512 := hidx j (hj.subset List.mem_cons_self)
        obtain ⟨c, hc⟩ := tableAt_suffix hz hj
        obtain ⟨p', hp', hv, rfl⟩ := tableAt_cons.mp hc
        obtain rfl := Option.some.inj (ht.symm.trans hp')
        refine ⟨j, Nat.zero_le j, by omega, hv, ?_, ?_⟩
        · rw [hm x p j hpos ht hj512 hv]
          exact decide_eq_true hlen
        · by_cases heq : z.1.length = x.length + 1
          · have hjx : j :: x = z.1 := hj.eq_of_length_le (by rw [List.length_cons]; omega)
            rw [← hjx, hc] at hz
            exact .inr (Prod.ext hjx.symm (Option.some.inj hz).symm)
          · refine .inl ((ih (hpos.cons hlen hj512) hc (by rw [List.length_cons]; omega)).mpr
              ⟨hj, ?_, hle, hidx, hz⟩)
            rw [List.length_cons]
            omega

/-! ## The entries of the kernel -/

def unhook (r v : Nat) (s : Kernel) : Kernel :=
  if slot s.mem r v ≠ 0 then s.setMem (putLE s.mem (slot s.mem r v) 8 0) else s

/-- `uvm_destroy_pgtbl` is the walk on the table without the entries of the kernel. -/
theorem uvmDestroyPgtbl_run (s : Kernel) (r : Nat) : uvmDestroyPgtbl r s =
    (do destroyPgtbl 2 r; pmemFree r false : MemM Unit)
    (unhook r trapframeVpn (unhook r trampolineVpn s)) := by
  have hstep : ∀ {va : Nat} {f : Unit → MemM Unit} {s : Kernel}, va < vaMax →
    (vmGetpte r va false >>= fun pte =>
      if pte ≠ 0 then store pte 0 >>= f else f ()) s = f () (unhook r (va / pgSize) s) := by
    intro va f s hva
    rw [bind_silent (walk_run hva)]
    unfold unhook
    by_cases hs : slot s.mem r (va / pgSize) = 0
    · rw [if_neg (not_not_intro hs), if_neg (not_not_intro hs)]
    · rw [if_pos hs, if_pos hs]
      exact bind_silent (m := store (slot s.mem r (va / pgSize)) 0) rfl
  unfold uvmDestroyPgtbl
  exact (hstep (show trampolineVa < vaMax by decide)).trans
    (hstep (show trapframeVa < vaMax by decide))

/-- One entry was cleared; the tables are where they were. -/
structure Unhooked (r v : Nat) (g : Ledger) (s s' : Kernel) : Prop where
  heap : Heap g s'
  plain : Plain g s r → Plain g s' r
  framed : Framed (fun u => ∃ x, u = .table r x) g s g s'
  tables : ∀ x, IsPos x → tableAt s'.mem r x = tableAt s.mem r x
  leaf : ∀ v' < vaPages, leaf s'.mem r v' = if v' = v then 0 else leaf s.mem r v'

theorem Heap.unhook (h : Heap g s) (hl : g.Live r) (hv : v < vaPages) :
    Unhooked r v g s (unhook r v s) := by
  unfold Mem.unhook
  split
  · next hs =>
    cases ht : tableAt s.mem r (lowPos v) with
    | none => exact absurd (by simp [slot, ht]) hs
    | some p =>
        rw [slot_eq ht]
        exact ⟨h.storeLeaf hl ht 0, fun hp =>
          hp.storeLeaf h hl ht 0, Framed.storeLeaf h hl ht ⟨_, rfl⟩,
          fun x hx => h.store_tableAt hl ht hx.1 hx.2,
          fun v' hv' => h.leaf_store hl ht (by decide) (vaPages_le hv) (vaPages_le hv')⟩
  · next hs =>
    refine ⟨h, id, .refl _ _ _, fun _ _ => rfl, fun v' _ => ?_⟩
    split
    · next hvv =>
      subst hvv
      exact slot_zero h hl (not_not.mp hs)
    · rfl

end

end WhuOs.Mem
