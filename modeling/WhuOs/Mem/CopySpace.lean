import Mathlib.Data.Finset.Card
import WhuOs.Mem.Procs

/-! # Copies of pages from table to table

`uvm_copy_pgtbl` maps copies of pages of one table in another. What it reads is not
changed by what it writes: the pages of the old table keep their use. Nothing is
assumed of the two tables but that they are different. The table pages are counted by
the low tables of the new table that the copied pages lie in.
-/

namespace WhuOs.Mem

open Prog Bytes

/-- The pages of `R` in the table of `new` are copies of those of `old`, made from `a` user pages
and at most `b` kernel pages. -/
structure Duplicated (old new : Nat) (R : Nat → Prop) (a b : Nat) (g : Ledger)
    (s : Kernel) (g' : Ledger)
    (s' : Kernel) : Prop where
  heap : Heap g' s'
  live : g'.Live new
  framed : Framed (UserUse new) g s g' s'
  kept : DataKept g s g' s'
  same : ∀ v < vaPages, ¬ R v → leaf s'.mem new v = leaf s.mem new v
  copy : ∀ v < vaPages, R v → ∃ q, leaf s'.mem new v = mapPte q (pteFlags (leaf s.mem old v)) 0 ∧
    g.own q = .free false ∧ g'.own q = .frame new v ∧ q % pgSize = 0 ∧ q < physTop ∧
    ((g.own (pteToPa (leaf s.mem old v))).Stays →
      ∀ i < pgSize, s'.mem (q + i) = s.mem (pteToPa (leaf s.mem old v) + i))
  present : ∀ v, R v → Present s old v
  left : ∀ q, g'.own q = .free false → g.own q = .free false
  user : (g.free false).length = (g'.free false).length + a
  used : (g.free true).length ≤ (g'.free true).length + b
  homed : Homed g s → Homed g' s'
  tops : Tops g s new → Tops g' s' new

def Range (v n w : Nat) : Prop := v ≤ w ∧ w < v + n

/-- The number of steps from `start` to `stop`, page by page. -/
def pagesBetween (start stop : Nat) : Nat := (stop - start + (pgSize - 1)) / pgSize

/-- The nodes of an `mmap` list in order. -/
inductive Regions (nodes : NodeId → Node) : Option NodeId → List NodeId → Prop
  | nil : Regions nodes none []
  | cons {i : NodeId} {l : List NodeId} (h : Regions nodes (nodes i).next l) :
      Regions nodes (some i) (i :: l)

/-- The nodes that a walk from a pointer meets. -/
inductive OnList (nodes : NodeId → Node) : Option NodeId → NodeId → Prop
  | here {i : NodeId} : OnList nodes (some i) i
  | next {i j : NodeId} (h : OnList nodes (nodes i).next j) : OnList nodes (some i) j

def Node.Covers (x : Node) (w : Nat) : Prop :=
  Range (x.begin / pgSize) (pagesBetween x.begin (regionEnd x)) w

def StackPages (ustackBase ustackPages w : Nat) : Prop :=
  0 < ustackPages ∧
    Range (ustackBase / pgSize)
      (pagesBetween ustackBase (u64 (ustackBase + u32 (ustackPages * pgSize)))) w

def HeapPages (heapTop w : Nat) : Prop := pgSize < heapTop ∧ 1 ≤ w ∧ w * pgSize < pgRoundUp heapTop

def mappedList (m : Bytes) (r v n : Nat) : List Nat :=
  (List.range' v n).filter fun w => hasFlag (leaf m r w) pteV

def mappedPages (m : Bytes) (r v n : Nat) : Nat :=
  (List.range' v n).countP fun w => hasFlag (leaf m r w) pteV

/-- The low tables that pages lie in, by their numbers. -/
def lowTables (l : List Nat) : Finset Nat := (l.map (· / 512)).toFinset

/-- A page of low table `b` is mapped. -/
def Reached (s : Kernel) (r b : Nat) : Prop := ∃ w < vaPages, w / 512 = b ∧ leaf s.mem r w ≠ 0

def ForkPages (s : Kernel) (old heapTop ustackBase ustackPages : Nat) (l : List NodeId)
    (w : Nat) : Prop :=
  w = 0 ∨ HeapPages heapTop w ∧ Present s old w ∨ StackPages ustackBase ustackPages w ∨
    ∃ i ∈ l, (s.nodes i).Covers w

section

variable {g g₁ g' : Ledger} {s s₁ s' : Kernel} {old new v n a b a' b' : Nat}
  {R R' : Nat → Prop} {G : Event → Prop}
  {E : Panic → Prop} {Q : Unit → Kernel → Prop}

theorem Duplicated.refl (h : Heap g s) (hl : g.Live new) :
    Duplicated old new (fun _ => False) 0 0 g s g s :=
  ⟨h, hl, .refl _ _ _, .refl _ _, fun _ _ _ => rfl, fun _ _ hc => hc.elim, fun _ hc =>
    hc.elim, fun _ hq => hq, rfl,
    Nat.le_refl _, id, id⟩

theorem Duplicated.none {seen : Finset Nat} (h : Heap g s) (hl : g.Live new) :
    Duplicated old new (fun _ => False) 0 (2 * (lowTables [] \ seen).card) g s g s := by
  rw [show lowTables [] = ∅ from rfl, Finset.empty_sdiff, Finset.card_empty]
  exact .refl h hl

theorem Duplicated.congr {T : Nat → Prop} (h : Duplicated old new R a b g s g' s')
    (hR : ∀ v, T v ↔ R v) :
    Duplicated old new T a b g s g' s' :=
  ⟨h.heap, h.live, h.framed, h.kept, fun v hv hn => h.same v hv fun hc => hn ((hR v).mpr hc),
    fun v hv hr => h.copy v hv ((hR v).mp hr), fun v hr =>
    h.present v ((hR v).mp hr), h.left, h.user, h.used,
    h.homed, h.tops⟩

theorem Duplicated.mono (h : Duplicated old new R a b g s g' s') (hb : b ≤ b') :
    Duplicated old new R a b' g s g' s' :=
  { h with used := Nat.le_trans h.used (Nat.add_le_add_left hb _) }

/-- The old table as it was. -/
theorem Duplicated.old_leaf (h : Duplicated old new R a b g s g' s') (hh : Heap g s)
    (hl : g.Live old) (hne : old ≠ new)
    (v : Nat) : leaf s'.mem old v = leaf s.mem old v :=
  h.framed.leaf hh hl fun _ hx => hne ((UserUse.onRoot new).table _ _ hx)

theorem Duplicated.old_live (h : Duplicated old new R a b g s g' s') (hl : g.Live old)
    (hne : old ≠ new) : g'.Live old :=
  h.framed.live hl fun hx => hne ((UserUse.onRoot new).table _ _ hx)

theorem Duplicated.old_present (h : Duplicated old new R a b g s g' s')
    (hh : Heap g s) (hl : g.Live old)
    (hne : old ≠ new) (v : Nat) : Present s' old v ↔ Present s old v := by
  unfold Present
  rw [h.old_leaf hh hl hne]

/-! ## The cost in table pages -/

section

variable {seen : Finset Nat} {l l' : List Nat} {r : Nat}

theorem lowTables_append : lowTables (l ++ l') = lowTables l ∪ lowTables l' := by
  unfold lowTables
  rw [List.map_append, List.toFinset_append]

theorem lowTables_card_le (l : List Nat) : (lowTables l).card ≤ l.length :=
  Nat.le_trans (List.toFinset_card_le _) (Nat.le_of_eq (List.length_map _))

/-- Pages in order: the later ones find the tables of the earlier ones. -/
theorem card_lowTables_append : (lowTables (l ++ l') \ seen).card =
    (lowTables l \ seen).card + (lowTables l' \ (seen ∪ lowTables l)).card := by
  have hsplit : lowTables (l ++ l') \ seen =
      (lowTables l \ seen) ∪ (lowTables l' \ (seen ∪ lowTables l)) := by
    ext b
    simp only [lowTables_append, Finset.mem_sdiff, Finset.mem_union]
    tauto
  have hapart : Disjoint (lowTables l \ seen) (lowTables l' \ (seen ∪ lowTables l)) := by
    rw [Finset.disjoint_left]
    intro b hb hb'
    exact (Finset.mem_sdiff.mp hb').2 (Finset.mem_union_right _ (Finset.mem_sdiff.mp hb).1)
  rw [hsplit, Finset.card_union_of_disjoint hapart]

theorem card_lowTables_prefix : (lowTables l \ seen).card ≤ (lowTables (l ++ l') \ seen).card := by
  rw [card_lowTables_append]
  exact Nat.le_add_right _ _

theorem reached_empty : ∀ b ∈ (∅ : Finset Nat), Reached s r b :=
  fun b hb => absurd hb (Finset.notMem_empty b)

/-- A page of a table that is there costs nothing. -/
theorem tablesFor_reached (hseen : ∀ b ∈ seen, Reached s r b) (v : Nat) :
    tablesFor s.mem r v 0 ≤ 2 * (lowTables [v] \ seen).card := by
  have hone : lowTables [v] = {v / 512} := rfl
  have hle := tablesFor_le s.mem r v 0
  by_cases hv : v / 512 ∈ seen
  · obtain ⟨w, -, hw, hleaf⟩ := hseen _ hv
    obtain ⟨p, hp⟩ := leaf_ne_zero hleaf
    rw [lowPos_congr hw] at hp
    unfold tablesFor
    rw [hp, Option.isSome_some, if_pos rfl]
    omega
  · rw [hone, Finset.sdiff_eq_self_of_disjoint (Finset.disjoint_singleton_left.mpr hv),
      Finset.card_singleton]
    omega

end

theorem Duplicated.trans (h : Duplicated old new R a b g s g₁ s₁)
    (h' : Duplicated old new R' a' b' g₁ s₁ g' s')
    (hh : Heap g s) (hl : g.Live old) (hne : old ≠ new) :
    Duplicated old new (fun v => R v ∨ R' v) (a + a') (b + b') g s g' s' where
  heap := h'.heap
  live := h'.live
  framed := h.framed.trans h'.framed
  kept := h.kept.trans h'.kept
  same v hv hn := (h'.same v hv fun hc => hn (.inr hc)).trans (h.same v hv fun hc => hn (.inl hc))
  copy v hv hr := by
    have hold := h.old_leaf hh hl hne
    by_cases hR : R' v
    · obtain ⟨q, h1, h2, h3, h4, h5, h6⟩ := h'.copy v hv hR
      rw [hold] at h1 h6
      refine ⟨q, h1, h.left q h2, h3, h4, h5, fun hst i hi => ?_⟩
      obtain ⟨h7, h8⟩ := h.kept _ (pteToPa_aligned _) hst
      rw [h6 (h7.symm ▸ hst) i hi, h8 i hi]
    · obtain ⟨q, h1, h2, h3, h4, h5, h6⟩ := h.copy v hv (hr.resolve_right hR)
      obtain ⟨h7, h8⟩ := h'.kept q h4 (by rw [h3]; trivial)
      refine ⟨q, (h'.same v hv hR).trans h1, h2, h7.trans h3, h4, h5, fun hst i hi => ?_⟩
      rw [h8 i hi, h6 hst i hi]
  present v hr := by
    rcases hr with hr | hr
    · exact h.present v hr
    · exact (h.old_present hh hl hne v).mp (h'.present v hr)
  left q hq := h.left q (h'.left q hq)
  user := by
    have h1 := h.user
    have h2 := h'.user
    omega
  used := by
    have h1 := h.used
    have h2 := h'.used
    omega
  homed hh := h'.homed (h.homed hh)
  tops ht := h'.tops (h.tops ht)

/-- Tables that were there still are, and those of the copies are. -/
theorem Duplicated.reached {seen : Finset Nat} {l : List Nat}
    (h : Duplicated old new R a b g s g' s')
    (hl : ∀ v ∈ l, R v) (hseen : ∀ b ∈ seen, Reached s new b) :
    ∀ b ∈ seen ∪ lowTables l, Reached s' new b := by
  have hcopied : ∀ v, R v → leaf s'.mem new v ≠ 0 := by
    intro v hv hz
    obtain ⟨q, hq, -⟩ := h.copy v (h.present v hv).1 hv
    rw [hz] at hq
    exact absurd (Nat.or_eq_zero_iff.mp hq.symm).2 (by decide)
  intro b hb
  rcases Finset.mem_union.mp hb with hb | hb
  · obtain ⟨w, hw, hwb, hleaf⟩ := hseen b hb
    refine ⟨w, hw, hwb, ?_⟩
    by_cases hR : R w
    · exact hcopied w hR
    · rw [h.same w hw hR]
      exact hleaf
  · obtain ⟨v, hv, rfl⟩ := List.mem_map.mp (List.mem_toFinset.mp hb)
    exact ⟨v, (h.present v (hl v hv)).1, rfl, hcopied v (hl v hv)⟩

/-- The pages `l`, and then the pages `l'`. -/
theorem Duplicated.append {seen : Finset Nat} {l l' : List Nat}
    (h : Duplicated old new R a (2 * (lowTables l \ seen).card) g s g₁ s₁)
    (h' : Duplicated old new R' a' (2 * (lowTables l' \ (seen ∪ lowTables l)).card) g₁ s₁ g' s')
    (hh : Heap g s) (hl : g.Live old) (hne : old ≠ new) :
    Duplicated old new (fun v => R v ∨ R' v) (a + a')
      (2 * (lowTables (l ++ l') \ seen).card) g s g' s' := by
  rw [card_lowTables_append, Nat.mul_add]
  exact h.trans h' hh hl hne

/-- What is left in the kernel pool for the pages `l'`. -/
theorem Duplicated.afford {seen : Finset Nat} {l l' : List Nat}
    (h : Duplicated old new R a (2 * (lowTables l \ seen).card) g s g₁ s₁)
    (hk : 2 * (lowTables (l ++ l') \ seen).card ≤ (g.free true).length) :
    2 * (lowTables l' \ (seen ∪ lowTables l)).card ≤ (g₁.free true).length := by
  have hused := h.used
  rw [card_lowTables_append] at hk
  omega

theorem pteFlags_lt (e : Nat) : pteFlags e < 2 ^ 10 := Nat.mod_lt _ (by decide)

/-- The entry of a page that is mapped, read as `copy_range` does. -/
theorem readEntry_sat {null invalid : Panic} {m : Nat → MemM Unit} (h : Heap g s) (hl : g.Live old)
    (hE : ¬ Present s old v → ∀ e, E e)
    (hQ : Present s old v → Sat (m (leaf s.mem old v)) s G Q E) :
    Sat (do
      let pte ← vmGetpte old (v * pgSize) false
      assert (decide (pte ≠ 0)) null
      let e ← load pte
      assert (hasFlag e pteV) invalid
      m e) s G Q E := by
  have hdiv : v * pgSize / pgSize = v := Nat.mul_div_cancel v (by decide)
  by_cases hv : v < vaPages
  swap
  · unfold vmGetpte
    rw [if_pos (by have := mul_pgSize_lt (v := v); omega), sat_bind, sat_bind, sat_panic]
    exact hE (fun hp => hv hp.1) _
  rw [sat_bind, vmGetpte_sat (mul_pgSize_lt.mpr hv), hdiv, sat_bind]
  cases ht : tableAt s.mem old (lowPos v) with
  | none =>
      have hnot : ¬ Present s old v := by
        rintro ⟨-, hval⟩
        rw [show leaf s.mem old v = 0 by simp [leaf, ht], hasFlag_zero] at hval
        cases hval
      rw [show slot s.mem old v = 0 by simp [slot, ht]]
      exact sat_assert_any (hE hnot _) fun hc => absurd (of_decide_eq_true hc) (by simp)
  | some p =>
      have hpos := (h.table_page (h.low_own hl ht)).2
      have hslot : pteAt p (vpnIndex v 0) ≠ 0 := by
        unfold pteAt
        omega
      have hload : getLE s.mem (pteAt p (vpnIndex v 0)) 8 = leaf s.mem old v := (leaf_eq ht).symm
      rw [slot_eq ht, sat_assert (decide_eq_true hslot), sat_bind, sat_load, hload, sat_bind]
      cases hval : hasFlag (leaf s.mem old v) pteV with
      | false =>
          refine sat_assert_any (hE (fun hp => ?_) _) fun hc => absurd hc (by decide)
          rw [hp.2] at hval
          cases hval
      | true =>
          rw [sat_assert rfl]
          exact hQ ⟨hv, hval⟩

/-- One page. -/
theorem copyPage_sat {seen : Finset Nat} (h : Heap g s) (hl : g.Live new)
    (htext : s.etext ≤ s.allocBegin)
    (hseen : ∀ b ∈ seen, Reached s new b) (hv : Present s old v)
    (hE : ¬ (1 ≤ (g.free false).length ∧ 2 * (lowTables [v] \ seen).card ≤ (g.free true).length) →
      ∀ e, E e)
    (hQ : ∀ g' s',
      Duplicated old new (fun w => w = v) 1 (2 * (lowTables [v] \ seen).card) g s g' s' → Q () s') :
    Sat (copyPage new (v * pgSize) (leaf s.mem old v)) s G Q E := by
  unfold copyPage
  refine (pmemAlloc_heap h false (u := .frame new v) trivial).bind fun q s₁ ⟨g₁, hg⟩ => ?_
  by_cases hq : q = 0
  · subst hq
    cases hg with
    | some pos => exact absurd pos (Nat.lt_irrefl 0)
    | none hempty =>
        rw [if_pos rfl, sat_bind, sat_panic]
        refine hE (fun hc => ?_) _
        rw [hempty] at hc
        exact absurd hc.1 (by decide)
  obtain ⟨hmem, hrest, hman⟩ : s₁.mem = s.mem ∧ s₁.rest = s.rest ∧ s.allocBegin ≤ q := by
    cases hg with
    | none => exact absurd rfl hq
    | some pos lt was length heap mem rest => exact ⟨mem, rest, (h.home was).1.1⟩
  have hetext : s₁.etext ≤ q := by
    rw [rest_etext hrest]
    exact Nat.le_trans htext hman
  have hcost := tablesFor_reached hseen v
  rw [if_neg hq, sat_bind, sat_memmove hetext]
  refine (h.mapNew hl hg hq (fun a hne => ?_) (pteFlags_lt _) hv.1).mono ?_
    fun e he => hE (fun hc => ?_) e
  · by_contra hc
    exact hne (splice_out (by omega))
  · rintro - s' ⟨g', hnew⟩
    refine hQ g' s' ⟨hnew.heap, hnew.live, hnew.framed, hnew.kept, fun w hw hn => ?_, fun w hw he =>
      ?_, fun w he => he ▸ hv,
      hnew.left, hnew.user, Nat.le_trans hnew.used (by omega), hnew.homed, hnew.tops⟩
    · rw [hnew.leaf w hw, if_neg hn]
    · subst he
      refine ⟨q, ?_, hnew.was, hnew.own, hnew.page.1, hnew.page.2, fun _ i hi => ?_⟩
      · rw [hnew.leaf w hw, if_pos rfl]
      · rw [hnew.mem i hi, splice_in (by omega) (by omega), hmem]
        unfold window
        congr 1
        omega
  · have hdry := he.2
    omega

theorem range_succ {w : Nat} : Range v (n + 1) w ↔ w = v ∨ Range (v + 1) n w := by
  unfold Range
  omega

theorem copyRangeLoop_sat {stop : Nat} {seen : Finset Nat} (fuel : Nat)
    (h : Heap g s) (hlnew : g.Live new)
    (htext : s.etext ≤ s.allocBegin) (hl : g.Live old) (hne : old ≠ new)
    (hseen : ∀ b ∈ seen, Reached s new b)
    (hstop : ∀ i, (v + i) * pgSize < stop ↔ i < n)
    (hE : ¬ (n < fuel ∧ n ≤ (g.free false).length ∧
      2 * (lowTables (List.range' v n) \ seen).card ≤ (g.free true).length ∧
      ∀ w, Range v n w → Present s old w) → ∀ e, E e)
    (hQ : ∀ g' s',
      Duplicated old new (Range v n) n (2 * (lowTables (List.range' v n) \ seen).card) g s g' s' →
      Q () s') :
    Sat (copyRangeLoop old new stop fuel (v * pgSize)) s G Q E := by
  induction fuel generalizing g s v n seen with
  | zero => exact (sat_panic _).mpr (hE (fun hc => absurd hc.1 (Nat.not_lt_zero n)) _)
  | succ fuel ih =>
      have h0 := hstop 0
      rw [Nat.add_zero] at h0
      unfold copyRangeLoop
      cases n with
      | zero =>
          rw [if_neg (fun hlt => absurd (h0.mp hlt) (Nat.lt_irrefl 0)), sat_pure]
          refine hQ g s ((Duplicated.none h hlnew).congr fun w => ⟨fun hc => ?_, False.elim⟩)
          have hc' := hc.2
          have hc'' := hc.1
          omega
      | succ n =>
          rw [if_pos (h0.mpr (Nat.succ_pos n))]
          have hbad : ¬ Present s old v → ∀ e, E e :=
            fun hv => hE fun hc => hv (hc.2.2.2 v ⟨Nat.le_refl v, by omega⟩)
          refine readEntry_sat h hl hbad fun hv => ?_
          rw [sat_bind]
          have hlist : List.range' v (n + 1) = [v] ++ List.range' (v + 1) n := rfl
          rw [hlist] at hE hQ
          refine copyPage_sat h hlnew htext hseen hv (fun hc => hE fun hc' => hc ⟨by omega, ?_⟩)
            fun g₁ s₁ h₁ => ?_
          · exact Nat.le_trans (Nat.mul_le_mul_left 2 card_lowTables_prefix) hc'.2.2.1
          have hu := h₁.user
          rw [u64_next hv.1]
          have hpres := h₁.old_present h hl hne
          refine ih (n := n) h₁.heap h₁.live ?_ (h₁.old_live hl hne)
            (h₁.reached (l := [v]) (by simp) hseen)
            (fun i => ?_) (fun hc => hE fun hc' => ?_) fun g' s' h' => ?_
          · rw [rest_etext h₁.framed.rest, rest_allocBegin h₁.framed.rest]
            exact htext
          · rw [Nat.add_assoc, hstop, Nat.add_comm 1 i]
            exact Nat.succ_lt_succ_iff
          · obtain ⟨c1, c2, c3, c4⟩ := hc'
            refine hc ⟨by omega, by omega, h₁.afford c3, fun w hw => (hpres w).mpr (c4 w ?_)⟩
            exact ⟨by have := hw.1; omega, by have := hw.2; omega⟩
          · have hall := (h₁.append h' h hl hne).congr (T := Range v (n + 1)) fun w => ?_
            · rw [Nat.add_comm 1 n] at hall
              exact hQ g' s' hall
            · unfold Range
              omega

theorem range_of_stop {a b i : Nat} (ha : a % pgSize = 0) :
    (a / pgSize + i) * pgSize < b ↔ i < pagesBetween a b := by
  unfold pagesBetween pgSize at *
  omega

/-- The pages from `start` to `stop`. -/
def rangeList (start stop : Nat) : List Nat :=
  List.range' (start / pgSize) (pagesBetween start stop)

theorem copyRange_sat {start stop : Nat} {seen : Finset Nat} (h : Heap g s) (hlnew : g.Live new)
    (htext : s.etext ≤ s.allocBegin) (hl : g.Live old) (hne : old ≠ new)
    (hseen : ∀ b ∈ seen, Reached s new b)
    (ha : start % pgSize = 0)
    (hE : ¬ (pagesBetween start stop ≤ (g.free false).length ∧
      2 * (lowTables (rangeList start stop) \ seen).card ≤ (g.free true).length ∧
      ∀ w, Range (start / pgSize) (pagesBetween start stop) w → Present s old w) → ∀ e, E e)
    (hQ : ∀ g' s', Duplicated old new (Range (start / pgSize) (pagesBetween start stop))
      (pagesBetween start stop)
      (2 * (lowTables (rangeList start stop) \ seen).card) g s g' s' → Q () s') :
    Sat (copyRange old new start stop) s G Q E := by
  have hstart : start = start / pgSize * pgSize :=
    (Nat.div_mul_cancel (Nat.dvd_of_mod_eq_zero ha)).symm
  have hloop :
      Sat (copyRangeLoop old new stop (vaPages + 1) (start / pgSize * pgSize)) s G Q E := by
    refine copyRangeLoop_sat (n := pagesBetween start stop) _ h hlnew htext hl hne hseen
      (fun i => range_of_stop ha)
      (fun hc => hE fun hc' => hc ⟨?_, hc'⟩) hQ
    by_contra hge
    -- a range of more pages than there are has one that is not mapped
    have hbad := hc'.2.2 (start / pgSize + vaPages) ⟨by omega, by omega⟩
    exact absurd hbad.1 (Nat.not_lt.mpr (Nat.le_add_left _ _))
  unfold copyRange
  rwa [← hstart] at hloop

/-- The test of `uvm_copy_pgtbl` on a page of the heap. -/
theorem testEntry_sat {m : Nat → MemM Unit} {m' : MemM Unit} (h : Heap g s)
    (hl : g.Live old) (hv : v < vaPages)
    (hyes : Present s old v → Sat (do m (leaf s.mem old v); m') s G Q E)
    (hno : ¬ Present s old v → Sat m' s G Q E) :
    Sat (do
      let pte ← vmGetpte old (v * pgSize) false
      if pte ≠ 0 then
        let e ← load pte
        if hasFlag e pteV then
          m e
      m') s G Q E := by
  have hdiv : v * pgSize / pgSize = v := Nat.mul_div_cancel v (by decide)
  rw [sat_bind, vmGetpte_sat (mul_pgSize_lt.mpr hv), hdiv]
  cases ht : tableAt s.mem old (lowPos v) with
  | none =>
      have hnot : ¬ Present s old v := by
        rintro ⟨-, hval⟩
        rw [show leaf s.mem old v = 0 by simp [leaf, ht], hasFlag_zero] at hval
        cases hval
      rw [show slot s.mem old v = 0 by simp [slot, ht], if_neg (not_not_intro rfl)]
      exact hno hnot
  | some p =>
      have hpos := (h.table_page (h.low_own hl ht)).2
      have hslot : pteAt p (vpnIndex v 0) ≠ 0 := by
        unfold pteAt
        omega
      have hload : getLE s.mem (pteAt p (vpnIndex v 0)) 8 = leaf s.mem old v := (leaf_eq ht).symm
      rw [slot_eq ht, if_pos hslot, sat_bind, sat_load, hload]
      by_cases hval : hasFlag (leaf s.mem old v) pteV = true
      · rw [if_pos hval]
        exact hyes ⟨hv, hval⟩
      · rw [if_neg hval]
        exact hno fun hp => hval hp.2

theorem mappedList_length (m : Bytes) (r v n : Nat) :
    (mappedList m r v n).length = mappedPages m r v n :=
  List.countP_eq_length_filter.symm

theorem mappedList_succ (m : Bytes) (r v n : Nat) : mappedList m r v (n + 1) =
    if hasFlag (leaf m r v) pteV then [v] ++ mappedList m r (v + 1) n
      else mappedList m r (v + 1) n := by
  unfold mappedList
  rw [List.range'_succ, List.filter_cons]
  rfl

theorem mem_mappedList {m : Bytes} {r v n w : Nat} :
    w ∈ mappedList m r v n ↔ Range v n w ∧ hasFlag (leaf m r w) pteV = true := by
  unfold mappedList Range
  rw [List.mem_filter, List.mem_range'_1]

theorem mappedList_congr {m m' : Bytes} {r : Nat} (h : ∀ w, leaf m' r w = leaf m r w) (v n : Nat) :
    mappedList m' r v n = mappedList m r v n := by
  unfold mappedList
  simp only [h]

theorem mappedPages_succ (m : Bytes) (r v n : Nat) :
    mappedPages m r v (n + 1) = mappedPages m r (v + 1) n + if hasFlag (leaf m r v) pteV then 1
      else 0 := by
  unfold mappedPages
  rw [List.range'_succ, List.countP_cons]

theorem mappedPages_eq_zero {m : Bytes} {r v n : Nat}
    (h : ∀ w, v ≤ w → w < v + n → hasFlag (leaf m r w) pteV = false) :
    mappedPages m r v n = 0 := by
  unfold mappedPages
  rw [List.countP_eq_zero]
  intro w hw
  obtain ⟨h1, h2⟩ := List.mem_range'_1.mp hw
  rw [h w h1 h2]
  decide

theorem mappedPages_le (m : Bytes) (r v n : Nat) : mappedPages m r v n ≤ n :=
  Nat.le_trans List.countP_le_length (Nat.le_of_eq List.length_range')

theorem mappedPages_congr {m m' : Bytes} {r : Nat} (h : ∀ w, leaf m' r w = leaf m r w) (v n : Nat) :
    mappedPages m' r v n = mappedPages m r v n := by
  unfold mappedPages
  simp only [h]

theorem copyHeapLoop_sat {stop : Nat} {seen : Finset Nat} (fuel : Nat)
    (h : Heap g s) (hlnew : g.Live new)
    (htext : s.etext ≤ s.allocBegin) (hl : g.Live old) (hne : old ≠ new)
    (hseen : ∀ b ∈ seen, Reached s new b)
    (hstop : ∀ i, (v + i) * pgSize < stop ↔ i < n)
    (hE : ¬ (n < fuel ∧ mappedPages s.mem old v n ≤ (g.free false).length ∧
      2 * (lowTables (mappedList s.mem old v n) \ seen).card ≤ (g.free true).length ∧
      v + n ≤ vaPages) → ∀ e, E e)
    (hQ : ∀ g' s', (∀ w, Range v n w → w < vaPages) →
      Duplicated old new (fun w => Range v n w ∧ Present s old w) (mappedPages s.mem old v n)
        (2 * (lowTables (mappedList s.mem old v n) \ seen).card) g s g' s' → Q () s') :
    Sat (copyHeapLoop old new stop fuel (v * pgSize)) s G Q E := by
  induction fuel generalizing g s v n seen with
  | zero => exact (sat_panic _).mpr (hE (fun hc => absurd hc.1 (Nat.not_lt_zero n)) _)
  | succ fuel ih =>
      have h0 := hstop 0
      rw [Nat.add_zero] at h0
      have hnext : ∀ i, (v + 1 + i) * pgSize < stop ↔ i + 1 < n := by
        intro i
        rw [Nat.add_assoc, hstop, Nat.add_comm 1 i]
      unfold copyHeapLoop
      cases n with
      | zero =>
          rw [if_neg (fun hlt => absurd (h0.mp hlt) (Nat.lt_irrefl 0)), sat_pure]
          have hnone : ∀ w, ¬ Range v 0 w := by
            rintro w ⟨h1, h2⟩
            omega
          exact hQ g s (fun w hw => absurd hw (hnone w))
            ((Duplicated.none h hlnew).congr fun w => ⟨fun hc => absurd hc.1 (hnone w), False.elim⟩)
      | succ n =>
          rw [if_pos (h0.mpr (Nat.succ_pos n))]
          by_cases hv : v < vaPages
          swap
          · unfold vmGetpte
            rw [if_pos (by have := mul_pgSize_lt (v := v); omega), sat_bind, sat_bind, sat_panic]
            exact hE (fun hc => by omega) _
          have hcount := mappedPages_succ s.mem old v n
          have hlist := mappedList_succ s.mem old v n
          have hbelow :
              (∀ w, Range (v + 1) n w → w < vaPages) → ∀ w, Range v (n + 1) w → w < vaPages := by
            intro hlow w hw
            rcases range_succ.mp hw with rfl | hw
            · exact hv
            · exact hlow w hw
          refine testEntry_sat h hl hv (fun hp => ?_) fun hp => ?_
          · rw [if_pos hp.2] at hcount hlist
            rw [hlist] at hE hQ
            rw [sat_bind]
            refine copyPage_sat h hlnew htext hseen hp (fun hc => hE fun hc' => hc ⟨by omega, ?_⟩)
              fun g₁ s₁ h₁ => ?_
            · exact Nat.le_trans (Nat.mul_le_mul_left 2 card_lowTables_prefix) hc'.2.2.1
            have hu := h₁.user
            have hpres := h₁.old_present h hl hne
            have hmapped := mappedPages_congr (h₁.old_leaf h hl hne) (v + 1) n
            have hmapped' := mappedList_congr (h₁.old_leaf h hl hne) (v + 1) n
            rw [u64_next hv]
            refine ih (n := n) h₁.heap h₁.live ?_ (h₁.old_live hl hne)
              (h₁.reached (l := [v]) (by simp) hseen)
              (fun i => (hnext i).trans Nat.succ_lt_succ_iff)
              (fun hc => hE fun hc' => hc ?_) fun g' s' hlow h' => ?_
            · rw [rest_etext h₁.framed.rest, rest_allocBegin h₁.framed.rest]
              exact htext
            · obtain ⟨c1, c2, c3, c4⟩ := hc'
              rw [hmapped, hmapped']
              exact ⟨by omega, by omega, h₁.afford c3, by omega⟩
            rw [hmapped, hmapped'] at h'
            have hall :=
              (h₁.append h' h hl hne).congr (T := fun w => Range v (n + 1) w ∧ Present s old w)
              fun w => ?_
            · rw [Nat.add_comm 1, ← hcount] at hall
              exact hQ g' s' (hbelow hlow) hall
            · rw [hpres, range_succ, or_and_right]
              exact or_congr_left (and_iff_left_of_imp fun he => he ▸ hp)
          · rw [if_neg fun hval => hp ⟨hv, hval⟩] at hcount hlist
            rw [hcount, Nat.add_zero, hlist] at hE hQ
            rw [u64_next hv]
            refine ih (n := n) h hlnew htext hl hseen
              (fun i => (hnext i).trans Nat.succ_lt_succ_iff)
              (fun hc => hE fun hc' => hc (by omega)) fun g' s' hlow h' => ?_
            refine hQ g' s' (hbelow hlow) (h'.congr fun w => ?_)
            rw [range_succ, or_and_right]
            exact or_iff_right fun hc => hp (hc.1 ▸ hc.2)

def listPages (nodes : NodeId → Node) (l : List NodeId) : Nat :=
  (l.map fun i => pagesBetween (nodes i).begin (regionEnd (nodes i))).sum

def regionList (nodes : NodeId → Node) (l : List NodeId) : List Nat :=
  l.flatMap fun i => rangeList (nodes i).begin (regionEnd (nodes i))

theorem copyRegionsLoop_sat {seen : Finset Nat} (fuel : Nat) (o : Option NodeId)
    (h : Heap g s) (hlnew : g.Live new)
    (htext : s.etext ≤ s.allocBegin) (hl : g.Live old) (hne : old ≠ new)
    (hseen : ∀ b ∈ seen, Reached s new b)
    (ha : ∀ i, OnList s.nodes o i → (s.nodes i).begin % pgSize = 0)
    (hE : ¬ (∃ l, Regions s.nodes o l ∧ l.length ≤ fuel ∧
      listPages s.nodes l ≤ (g.free false).length ∧
      2 * (lowTables (regionList s.nodes l) \ seen).card ≤ (g.free true).length ∧
      ∀ i ∈ l, ∀ w, (s.nodes i).Covers w → Present s old w) → ∀ e, E e)
    (hQ : ∀ l g' s', Regions s.nodes o l →
      Duplicated old new (fun w => ∃ i ∈ l, (s.nodes i).Covers w)
      (listPages s.nodes l) (2 * (lowTables (regionList s.nodes l) \ seen).card) g s g' s' →
      Q () s') :
    Sat (copyRegionsLoop old new fuel o) s G Q E := by
  induction fuel generalizing g s o seen with
  | zero =>
      cases o with
      | none =>
          rw [copyRegionsLoop, sat_pure]
          exact hQ [] g s .nil ((Duplicated.none h hlnew).congr fun w => by simp)
      | some i =>
          refine (sat_panic _).mpr (hE ?_ _)
          rintro ⟨l, hr, hlen, -⟩
          cases hr
          simp at hlen
  | succ fuel ih =>
      cases o with
      | none =>
          rw [copyRegionsLoop, sat_pure]
          exact hQ [] g s .nil ((Duplicated.none h hlnew).congr fun w => by simp)
      | some i =>
          unfold copyRegionsLoop
          rw [sat_bind, sat_nodeOf, sat_bind]
          have hcount : ∀ l, listPages s.nodes (i :: l) =
              pagesBetween (s.nodes i).begin (regionEnd (s.nodes i)) + listPages s.nodes l := by
            intro l
            unfold listPages
            rw [List.map_cons, List.sum_cons]
          have hlist : ∀ l, regionList s.nodes (i :: l) =
              rangeList (s.nodes i).begin (regionEnd (s.nodes i)) ++ regionList s.nodes l :=
                fun _ => rfl
          refine copyRange_sat h hlnew htext hl hne hseen (ha i .here) (fun hc => hE fun hc' =>
            hc ?_) fun g₁ s₁ h₁ => ?_
          · obtain ⟨l, hr, hlen, h1, h2, h3⟩ := hc'
            cases hr with
            | cons hr =>
            rw [hcount] at h1
            rw [hlist] at h2
            exact ⟨by omega, Nat.le_trans (Nat.mul_le_mul_left 2 card_lowTables_prefix) h2, h3 i List.mem_cons_self⟩
          have hnodes := rest_nodes h₁.framed.rest
          have hu := h₁.user
          have hpres := h₁.old_present h hl hne
          rw [sat_bind, sat_nodeOf, hnodes]
          refine ih _ h₁.heap h₁.live ?_ (h₁.old_live hl hne)
            (h₁.reached (fun w hw => List.mem_range'_1.mp hw) hseen)
            (by rw [hnodes]; exact fun j hj => ha j (.next hj))
            (fun hc => hE fun hc' => hc ?_) fun l g' s' hr h' => ?_
          · rw [rest_etext h₁.framed.rest, rest_allocBegin h₁.framed.rest]
            exact htext
          · obtain ⟨l, hr, hlen, h1, h2, h3⟩ := hc'
            cases hr with
            | @cons _ l hr =>
            rw [hcount] at h1
            rw [hlist] at h2
            rw [hnodes]
            rw [List.length_cons] at hlen
            refine ⟨l, hr, by omega, by omega, h₁.afford h2, fun j hj w hw => (hpres w).mpr ?_⟩
            exact h3 j (List.mem_cons_of_mem _ hj) w hw
          · rw [hnodes] at hr h'
            have hall := (h₁.append h' h hl hne).congr
              (T := fun w => ∃ j ∈ i :: l, (s.nodes j).Covers w) fun w => ?_
            · rw [← hcount, ← hlist] at hall
              exact hQ (i :: l) g' s' (.cons hr) hall
            · rw [List.exists_mem_cons_iff]
              rfl

def heapCopies (m : Bytes) (old heapTop : Nat) : Nat :=
  if pgSize < heapTop then mappedPages m old 1 (pagesBetween pgSize (pgRoundUp heapTop)) else 0

theorem heapCopies_eq_zero {m : Bytes} {old heapTop : Nat}
    (h : ∀ w, 1 ≤ w → w < 1 + pagesBetween pgSize (pgRoundUp heapTop) →
      hasFlag (leaf m old w) pteV = false) :
    heapCopies m old heapTop = 0 := by
  unfold heapCopies
  split
  · exact mappedPages_eq_zero h
  · rfl

def stackCopies (ustackBase ustackPages : Nat) : Nat :=
  if 0 < ustackPages then pagesBetween ustackBase (u64 (ustackBase + u32 (ustackPages * pgSize)))
    else 0

def heapList (m : Bytes) (old heapTop : Nat) : List Nat :=
  if pgSize < heapTop then mappedList m old 1 (pagesBetween pgSize (pgRoundUp heapTop)) else []

def stackList (ustackBase ustackPages : Nat) : List Nat :=
  if 0 < ustackPages then rangeList ustackBase (u64 (ustackBase + u32 (ustackPages * pgSize)))
    else []

/-- The pages that are copied, in order. -/
def copyList (s : Kernel) (old heapTop ustackBase ustackPages : Nat) (l : List NodeId) : List Nat :=
  [0] ++ heapList s.mem old heapTop ++ stackList ustackBase ustackPages ++ regionList s.nodes l

def copies (s : Kernel) (old heapTop ustackBase ustackPages : Nat) (l : List NodeId) : Nat :=
  1 + heapCopies s.mem old heapTop + stackCopies ustackBase ustackPages + listPages s.nodes l

theorem heapList_length (m : Bytes) (old heapTop : Nat) :
    (heapList m old heapTop).length = heapCopies m old heapTop := by
  unfold heapList heapCopies
  split
  · exact mappedList_length _ _ _ _
  · rfl

theorem copyList_length (s : Kernel) (old heapTop ustackBase ustackPages : Nat) (l : List NodeId) :
    (copyList s old heapTop ustackBase ustackPages l).length =
    copies s old heapTop ustackBase ustackPages l := by
  have hstack : (stackList ustackBase ustackPages).length = stackCopies ustackBase ustackPages := by
    unfold stackList stackCopies rangeList
    split
    · exact List.length_range'
    · rfl
  have hregions : (regionList s.nodes l).length = listPages s.nodes l := by
    unfold regionList listPages rangeList
    rw [List.length_flatMap]
    simp only [List.length_range']
  unfold copyList copies
  rw [List.length_append, List.length_append, List.length_append, heapList_length, hstack, hregions]
  rfl

/-- Table pages that the copies may need: two for each low table. -/
def copyTables (s : Kernel) (old heapTop ustackBase ustackPages : Nat) (l : List NodeId) : Nat :=
  2 * (lowTables (copyList s old heapTop ustackBase ustackPages l)).card

theorem copyTables_le (s : Kernel) (old heapTop ustackBase ustackPages : Nat) (l : List NodeId) :
    copyTables s old heapTop ustackBase ustackPages l ≤ 2 * copies s old heapTop
      ustackBase ustackPages l := by
  rw [← copyList_length]
  exact Nat.mul_le_mul_left 2 (lowTables_card_le _)

section

variable {s : Kernel} {old heapTop ustackBase ustackPages : Nat} {l : List NodeId}

theorem copyTables_stack :
    2 * (lowTables ([0] ++ heapList s.mem old heapTop ++ stackList ustackBase ustackPages) \ ∅).card ≤
      copyTables s old heapTop ustackBase ustackPages l := by
  rw [copyTables, ← Finset.sdiff_empty (s := lowTables (copyList _ _ _ _ _ _))]
  exact Nat.mul_le_mul_left 2 card_lowTables_prefix

theorem copyTables_heap : 2 * (lowTables ([0] ++ heapList s.mem old heapTop) \ ∅).card ≤
    copyTables s old heapTop ustackBase ustackPages l :=
  Nat.le_trans (Nat.mul_le_mul_left 2 card_lowTables_prefix) copyTables_stack

theorem copyTables_zero : 2 * (lowTables [0] \ ∅).card ≤
    copyTables s old heapTop ustackBase ustackPages l :=
  Nat.le_trans (Nat.mul_le_mul_left 2 card_lowTables_prefix) copyTables_heap

end

/-- Nothing stops `uvm_copy_pgtbl`. -/
structure Duplicable (g : Ledger) (s : Kernel) (old heapTop ustackBase ustackPages : Nat)
    (l : List NodeId) : Prop where
  length : l.length ≤ listFuel
  user : copies s old heapTop ustackBase ustackPages l ≤ (g.free false).length
  used : copyTables s old heapTop ustackBase ustackPages l ≤ (g.free true).length
  heap : pgRoundUp heapTop ≤ vaMax
  zero : Present s old 0
  stack : ∀ w, StackPages ustackBase ustackPages w → Present s old w
  regions : ∀ i ∈ l, ∀ w, (s.nodes i).Covers w → Present s old w

/-! ## The stages of `uvm_copy_pgtbl`, the last one first

Each is reached with the pages `R` copied, from `n` pages, among them those of `l₁`.
-/

section

variable {heapTop ustackBase ustackPages n : Nat} {o : Option NodeId} {R : Nat → Prop}
  {g₁ : Ledger} {s₁ : Kernel}
  {l₁ : List Nat}

theorem Duplicated.text_end (h₁ : Duplicated old new R a b g s g₁ s₁)
    (htext : s.etext ≤ s.allocBegin) :
    s₁.etext ≤ s₁.allocBegin := by
  rw [rest_etext h₁.framed.rest, rest_allocBegin h₁.framed.rest]
  exact htext

/-- The pages of the list. -/
theorem Duplicated.regions (h₁ : Duplicated old new R n (2 * (lowTables l₁ \ ∅).card) g s g₁ s₁)
    (h : Heap g s)
    (htext : s.etext ≤ s.allocBegin) (hl : g.Live old) (hne : old ≠ new) (hl₁ : ∀ v ∈ l₁, R v)
    (hlist : l₁ = [0] ++ heapList s.mem old heapTop ++ stackList ustackBase ustackPages)
    (ha : ∀ i, OnList s.nodes o i → (s.nodes i).begin % pgSize = 0)
    (hcost : n = 1 + heapCopies s.mem old heapTop + stackCopies ustackBase ustackPages)
    (hR : ∀ w, R w ↔
      w = 0 ∨ HeapPages heapTop w ∧ Present s old w ∨ StackPages ustackBase ustackPages w)
    (hE : ¬ (∃ l, Regions s.nodes o l ∧ Duplicable g s old heapTop ustackBase ustackPages l) →
      ∀ e, E e)
    (hQ : ∀ l g' s', Regions s.nodes o l →
      Duplicated old new (ForkPages s old heapTop ustackBase ustackPages l)
        (copies s old heapTop ustackBase ustackPages l)
        (copyTables s old heapTop ustackBase ustackPages l) g s g' s' → Q () s') :
    Sat (copyRegionsLoop old new listFuel o) s₁ G Q E := by
  have hnodes := rest_nodes h₁.framed.rest
  have hu := h₁.user
  have hpres := h₁.old_present h hl hne
  have htables : ∀ l, 2 * (lowTables (l₁ ++ regionList s.nodes l) \ ∅).card =
      copyTables s old heapTop ustackBase ustackPages l := by
    intro l
    rw [hlist, Finset.sdiff_empty]
    rfl
  refine copyRegionsLoop_sat _ o h₁.heap h₁.live (h₁.text_end htext) (h₁.old_live hl hne) hne
    (h₁.reached hl₁ reached_empty) (by rw [hnodes]; exact ha) (fun hc => hE fun hc' => hc ?_)
    fun l g' s' hr h' => ?_
  · obtain ⟨l, hr, hc'⟩ := hc'
    have h1 := hc'.user
    have h2 := hc'.used
    unfold copies at h1
    rw [← htables] at h2
    rw [hnodes]
    exact ⟨l, hr,
      hc'.length, by omega, h₁.afford h2, fun i hi w hw => (hpres w).mpr (hc'.regions i hi w hw)⟩
  · rw [hnodes] at hr h'
    have hall :=
    (h₁.append h' h hl hne).congr (T := ForkPages s old heapTop ustackBase ustackPages l) fun w =>
    ?_
    · rw [htables, hcost] at hall
      exact hQ l g' s' hr hall
    · rw [hR]
      unfold ForkPages
      simp only [or_assoc]

/-- The pages of the stack, and those of the list. -/
theorem Duplicated.stack (h₁ : Duplicated old new R n (2 * (lowTables l₁ \ ∅).card) g s g₁ s₁)
    (h : Heap g s)
    (htext : s.etext ≤ s.allocBegin) (hl : g.Live old) (hne : old ≠ new) (hl₁ : ∀ v ∈ l₁, R v)
    (hlist : l₁ = [0] ++ heapList s.mem old heapTop)
    (ha : ∀ i, OnList s.nodes o i → (s.nodes i).begin % pgSize = 0)
    (hub : ustackBase % pgSize = 0) (hcost : n = 1 + heapCopies s.mem old heapTop)
    (hR : ∀ w, R w ↔ w = 0 ∨ HeapPages heapTop w ∧ Present s old w)
    (hE : ¬ (∃ l, Regions s.nodes o l ∧ Duplicable g s old heapTop ustackBase ustackPages l) →
      ∀ e, E e)
    (hQ : ∀ l g' s', Regions s.nodes o l →
      Duplicated old new (ForkPages s old heapTop ustackBase ustackPages l)
        (copies s old heapTop ustackBase ustackPages l)
        (copyTables s old heapTop ustackBase ustackPages l) g s g' s' → Q () s') :
    Sat (do
      if ustackPages > 0 then
        copyRange old new ustackBase (u64 (ustackBase + u32 (ustackPages * pgSize)))
      copyRegionsLoop old new listFuel o) s₁ G Q E := by
  have hu := h₁.user
  have hpres := h₁.old_present h hl hne
  by_cases hpages : 0 < ustackPages
  · have hcount : stackCopies ustackBase ustackPages =
        pagesBetween ustackBase (u64 (ustackBase + u32 (ustackPages * pgSize))) := if_pos hpages
    have hstack : stackList ustackBase ustackPages =
        rangeList ustackBase (u64 (ustackBase + u32 (ustackPages * pgSize))) := if_pos hpages
    rw [if_pos hpages, sat_bind]
    refine copyRange_sat h₁.heap h₁.live (h₁.text_end htext) (h₁.old_live hl hne) hne
      (h₁.reached hl₁ reached_empty) hub
      (fun hc => hE fun hc' => hc ?_) fun g₂ s₂ h₂ => ?_
    · obtain ⟨l, hr, hc'⟩ := hc'
      have h1 := hc'.user
      have h2 := Nat.le_trans copyTables_stack hc'.used
      rw [← hlist, hstack] at h2
      unfold copies at h1
      exact ⟨by omega, h₁.afford h2, fun w hw => (hpres w).mpr (hc'.stack w ⟨hpages, hw⟩)⟩
    · refine (h₁.append h₂ h hl hne).regions h htext hl hne (fun v hv => ?_)
        (by rw [hlist, hstack]) ha (by omega)
        (fun w => ?_) hE hQ
      · exact (List.mem_append.mp hv).imp (hl₁ v) fun hv => List.mem_range'_1.mp hv
      rw [hR, or_assoc]
      unfold StackPages
      simp only [hpages, true_and]
  · have hcount : stackCopies ustackBase ustackPages = 0 := if_neg hpages
    have hstack : stackList ustackBase ustackPages = [] := if_neg hpages
    rw [if_neg hpages]
    refine h₁.regions h htext hl hne hl₁ (by rw [hlist, hstack, List.append_nil]) ha
      (by omega) (fun w => ?_) hE hQ
    rw [hR]
    unfold StackPages
    simp only [hpages, false_and, or_false]

/-- The pages that the walk over the heap copies are those of the heap. -/
theorem heapPages_range (hheap : pgSize < heapTop) (w : Nat) :
    HeapPages heapTop w ↔ Range 1 (pagesBetween pgSize (pgRoundUp heapTop)) w := by
  have hr := range_of_stop (a := pgSize) (b := pgRoundUp heapTop) (i := w - 1) (by decide)
  rw [show pgSize / pgSize = 1 from rfl] at hr
  unfold HeapPages Range
  constructor
  · rintro ⟨-, h1, h2⟩
    rw [show 1 + (w - 1) = w by omega] at hr
    have hlt := hr.mp h2
    exact ⟨h1, by omega⟩
  · rintro ⟨h1, h2⟩
    rw [show 1 + (w - 1) = w by omega] at hr
    exact ⟨hheap, h1, hr.mpr (by omega)⟩

end

theorem uvmCopyPgtbl_duplicates {heapTop ustackBase ustackPages : Nat}
    (o : Option NodeId) (h : Heap g s)
    (hlnew : g.Live new) (htext : s.etext ≤ s.allocBegin) (hl : g.Live old) (hne : old ≠ new)
    (ha : ∀ i, OnList s.nodes o i → (s.nodes i).begin % pgSize = 0) (hub : ustackBase % pgSize = 0)
    (hE : ¬ (∃ l, Regions s.nodes o l ∧ Duplicable g s old heapTop ustackBase ustackPages l) →
      ∀ e, E e)
    (hQ : ∀ l g' s', Regions s.nodes o l →
      Duplicated old new (ForkPages s old heapTop ustackBase ustackPages l)
        (copies s old heapTop ustackBase ustackPages l)
        (copyTables s old heapTop ustackBase ustackPages l) g s g' s' → Q () s') :
    Sat (uvmCopyPgtbl old new heapTop ustackBase ustackPages o) s G Q E := by
  have hone : pagesBetween 0 pgSize = 1 := by decide
  have hzero : rangeList 0 pgSize = [0] := by decide
  unfold uvmCopyPgtbl
  rw [sat_bind]
  refine copyRange_sat h hlnew htext hl hne reached_empty (by decide) (fun hc => hE fun hc' =>
    hc ?_) fun g₁ s₁ h₁ => ?_
  · obtain ⟨l, hr, hc'⟩ := hc'
    have h1 := hc'.user
    unfold copies at h1
    rw [hone, hzero]
    refine ⟨by omega, Nat.le_trans copyTables_zero hc'.used, fun w hw => ?_⟩
    have hw0 : w = 0 := by
      have hw2 := hw.2
      simp only [Nat.zero_div] at hw2
      omega
    exact hw0 ▸ hc'.zero
  rw [hone, hzero] at h₁
  have h₁' := h₁.congr (T := fun w => w = 0) fun w => by
    unfold Range
    simp only [Nat.zero_div]
    omega
  have hu := h₁.user
  have hpres := h₁.old_present h hl hne
  have hl₁ : ∀ v ∈ [0], v = 0 := fun v hv => List.mem_singleton.mp hv
  by_cases hheap : pgSize < heapTop
  swap
  · have hcount : heapCopies s.mem old heapTop = 0 := if_neg hheap
    have hlist : heapList s.mem old heapTop = [] := if_neg hheap
    rw [if_neg hheap]
    refine h₁'.stack h htext hl hne hl₁ (by rw [hlist, List.append_nil]) ha hub
      (by omega) (fun w => ?_) hE hQ
    unfold HeapPages
    simp only [hheap, false_and, or_false]
  have hcount : heapCopies s.mem old heapTop =
      mappedPages s.mem old 1 (pagesBetween pgSize (pgRoundUp heapTop)) :=
    if_pos hheap
  have hlist : heapList s.mem old heapTop =
      mappedList s.mem old 1 (pagesBetween pgSize (pgRoundUp heapTop)) :=
    if_pos hheap
  have hmapped :=
    mappedPages_congr (h₁.old_leaf h hl hne) 1 (pagesBetween pgSize (pgRoundUp heapTop))
  have hmapped' :=
    mappedList_congr (h₁.old_leaf h hl hne) 1 (pagesBetween pgSize (pgRoundUp heapTop))
  have hbelow : (1 + pagesBetween pgSize (pgRoundUp heapTop)) * pgSize ≤ vaMax ∨
      vaMax < pgRoundUp heapTop := by
    have hal := pgRoundUp_aligned heapTop
    unfold pagesBetween vaMax pgSize at *
    omega
  rw [if_pos hheap, sat_bind]
  refine copyHeapLoop_sat (v := 1) (n := pagesBetween pgSize (pgRoundUp heapTop)) _ h₁.heap h₁.live
    (h₁'.text_end htext) (h₁.old_live hl hne) hne (h₁'.reached hl₁ reached_empty)
    (fun i => range_of_stop (a := pgSize) (by decide))
    (fun hc => hE fun hc' => hc ?_) fun g₂ s₂ hlow h₂ => ?_
  · obtain ⟨l, hr, hc'⟩ := hc'
    have h1 := hc'.user
    have h2 := Nat.le_trans copyTables_heap hc'.used
    have h3 := hc'.heap
    rw [hlist] at h2
    unfold copies at h1
    have hv : 1 + pagesBetween pgSize (pgRoundUp heapTop) ≤ vaPages := by
      unfold vaPages vaMax pgSize at *
      omega
    rw [hmapped, hmapped']
    exact ⟨by omega, by omega, h₁.afford h2, hv⟩
  · rw [hmapped, hmapped'] at h₂
    have hall := h₁'.append h₂ h hl hne
    rw [← hcount, ← hlist] at hall
    refine hall.stack h htext hl hne (fun v hv => ?_) rfl ha hub rfl (fun w => ?_) hE hQ
    · refine (List.mem_append.mp hv).imp (hl₁ v) fun hv => ?_
      rw [hlist, mem_mappedList] at hv
      exact ⟨hv.1, (hpres v).mpr ⟨hlow v hv.1, hv.2⟩⟩
    rw [hpres, heapPages_range hheap]

end

end WhuOs.Mem
