import WhuOs.Mem.Space
import WhuOs.Mem.PageMap

/-! # The user pages of one table

A set of virtual pages, each with a frame of the user pool of its own. Mapping a new
frame adds a page to the set, unmapping a page takes it out and puts its frame in
front of the list of free user pages; what else the table maps does not matter.
-/

namespace WhuOs.Mem

open Prog Bytes

/-- Virtual page `v` is mapped to a user frame that is behind no other page. -/
structure UserPage (g : Ledger) (s : Kernel) (r v : Nat) : Prop where
  below : v < vaPages
  valid : hasFlag (leaf s.mem r v) pteV = true
  leaf : pteFlags (leaf s.mem r v) ≠ pteV
  own : g.own (pteToPa (Mem.leaf s.mem r v)) = .frame r v
  home : Managed s (pteToPa (Mem.leaf s.mem r v)) ∧
    inKernelOf s (pteToPa (Mem.leaf s.mem r v)) = false

/-- The pages of `H` are user pages of the table. -/
structure Holds (g : Ledger) (s : Kernel) (r : Nat) (H : Nat → Prop) : Prop where
  heap : Heap g s
  live : g.Live r
  page : ∀ v, H v → UserPage g s r v

open Classical in
/-- The pages of `P` are accounted for as the frames of their virtual pages. -/
noncomputable def Ledger.assign (g : Ledger) (r : Nat) (P : Nat → Nat → Prop) : Ledger where
  own q := if h : ∃ v, P v q then .frame r h.choose else g.own q
  free := g.free

/-- Page `v` was mapped to `q`, which holds `m` there, with at most `n` pages for tables. -/
structure PageAdded (r v q perm n : Nat) (m : Bytes) (H : Nat → Prop) (g : Ledger)
    (s : Kernel) (g' : Ledger)
    (s' : Kernel) : Prop where
  holds : Holds g' s' r fun w => H w ∨ w = v
  leaf : ∀ w < vaPages, leaf s'.mem r w = if w = v then mapPte q perm 0 else leaf s.mem r w
  frame : q % pgSize = 0 ∧ q < physTop ∧ g.own q = .free false
  filled : ∀ i < pgSize, s'.mem (q + i) = m (q + i)
  kept : ∀ w, H w →
    ∀ i < pgSize, s'.mem (pteToPa (Mem.leaf s.mem r w) + i) =
      s.mem (pteToPa (Mem.leaf s.mem r w) + i)
  user : (g.free false).length = (g'.free false).length + 1
  used : (g.free true).length ≤ (g'.free true).length + n
  rest : s'.rest = s.rest

/-- Page `v` was unmapped and its frame given back. -/
structure PageRemoved (r v : Nat) (H : Nat → Prop) (g : Ledger) (s : Kernel) (g' : Ledger)
    (s' : Kernel) : Prop where
  holds : Holds g' s' r fun w => H w ∧ w ≠ v
  leaf : ∀ w < vaPages, leaf s'.mem r w = if w = v then 0 else leaf s.mem r w
  kept : ∀ w, H w → w ≠ v → ∀ i < pgSize,
    s'.mem (pteToPa (Mem.leaf s.mem r w) + i) = s.mem (pteToPa (Mem.leaf s.mem r w) + i)
  user : g'.free false = pteToPa (Mem.leaf s.mem r v) :: g.free false
  kernel : g'.free true = g.free true
  rest : s'.rest = s.rest

section

variable {g g₁ g' : Ledger} {s s₁ s' : Kernel} {q r v w n perm : Nat} {H : Nat → Prop} {m : Bytes}
  {G : Event → Prop} {E : Panic → Prop} {Q : Unit → Kernel → Prop}

theorem Holds.anti {H' : Nat → Prop} (h : Holds g s r H) (hs : ∀ v, H' v → H v) : Holds g s r H' :=
  ⟨h.heap, h.live, fun v hv => h.page v (hs v hv)⟩

theorem UserPage.unmappable (h : UserPage g s r v) : Unmappable s r true v :=
  ⟨h.below, h.valid, h.leaf, fun _ => h.home.1⟩

/-- Pages with the same entry, ownership and pools. -/
theorem UserPage.congr (h : UserPage g s r v) (hl : Mem.leaf s'.mem r v = Mem.leaf s.mem r v)
    (ho : g'.own (pteToPa (Mem.leaf s.mem r v)) = g.own (pteToPa (Mem.leaf s.mem r v)))
    (hr : s'.rest = s.rest) :
    UserPage g' s' r v := by
  refine ⟨h.below, ?_, ?_, ?_, ?_⟩
  · rw [hl]
    exact h.valid
  · rw [hl]
    exact h.leaf
  · rw [hl, ho]
    exact h.own
  · rw [hl]
    unfold Managed inKernelOf
    rw [rest_allocBegin hr]
    exact h.home

/-! ## Accounting for frames -/

theorem tableLedger_other {l : Bool → List Nat} (h : TableOk s r)
    (hl : Pools s l) (hf : ¬ IsFree s q)
    (ht : ¬ IsTable s.mem r q) : (tableLedger s r l).own q = .other := by
  cases hu : (tableLedger s r l).own q with
  | other => rfl
  | free k => exact absurd ((isFree_iff hl).mpr ⟨k, (tableLedger_free hl q k).mpr hu⟩) hf
  | table r' x =>
      obtain ⟨-, hx, htab⟩ := (tableLedger_table h hl).mp hu
      exact absurd ⟨x, hx, htab⟩ ht
  | _ =>
      unfold tableLedger at hu
      dsimp only at hu
      repeat' split at hu
      all_goals cases hu

/-- Pages that were not accounted for get uses as data. -/
theorem Heap.account (h : Heap g s) {own : Nat → Use}
    (ho : ∀ q, own q = g.own q ∨ g.own q = .other ∧ (own q).IsData ∧ q % pgSize = 0 ∧ 0 < q) :
    Heap { g with own := own } s := by
  have htable : ∀ p r x, own p = .table r x → g.own p = .table r x := by
    intro p r x hp
    rcases ho p with h1 | ⟨-, h2, -⟩
    · exact h1.symm.trans hp
    · rw [hp] at h2
      exact h2.elim
  refine ⟨h.pools, fun q k => ?_, fun q hq => ?_, fun p r hp =>
    h.root p r (htable p r [] hp), fun r p x i hl hp hx hi hv => ?_⟩
  · rcases ho q with h1 | ⟨h1, h2, -⟩
    · change _ ↔ own q = _
      rw [h1]
      exact h.free_iff q k
    · change _ ↔ own q = _
      constructor
      · intro hm
        have hf := (h.free_iff q k).mp hm
        rw [h1] at hf
        cases hf
      · intro hf
        rw [hf] at h2
        exact h2.elim
  · rcases ho q with h1 | ⟨-, -, h3⟩
    · exact h.page q (h1 ▸ hq)
    · exact h3
  · have hc := h.child r p x i (htable r r [] hl) (htable p r x hp) hx hi hv
    rcases ho (pteToPa (entry s.mem p i)) with h1 | ⟨h1, -⟩
    · exact h1.trans hc
    · rw [h1] at hc
      cases hc

variable {P : Nat → Nat → Prop}

theorem Ledger.assign_own (hone : ∀ v w q, P v q → P w q → v = w) (h : P v q) :
    (g.assign r P).own q = .frame r v := by
  have hex : ∃ w, P w q := ⟨v, h⟩
  unfold Ledger.assign
  dsimp only
  rw [dif_pos hex, hone _ v q hex.choose_spec h]

theorem Ledger.assign_ne (h : ∀ v, ¬ P v q) : (g.assign r P).own q = g.own q := by
  unfold Ledger.assign
  dsimp only
  rw [dif_neg fun ⟨v, hv⟩ => h v hv]

theorem Heap.assign (h : Heap g s) (hP : ∀ v q, P v q → g.own q = .other ∧ q % pgSize = 0 ∧ 0 < q) :
    Heap (g.assign r P) s := by
  refine h.account fun q => ?_
  by_cases hex : ∃ v, P v q
  · obtain ⟨h1, h2⟩ := hP _ q hex.choose_spec
    refine .inr ⟨h1, ?_, h2⟩
    rw [dif_pos hex]
    trivial
  · exact .inl (Ledger.assign_ne fun v hv => hex ⟨v, hv⟩)

/-! ## A new page -/

/-- A page that was just allocated is filled and mapped. -/
theorem Holds.mapNew (h : Holds g s r H) (hg : Granted g s false (.frame r v) q g₁ s₁) (hq : q ≠ 0)
    (hfill : ∀ a, m a ≠ s₁.mem a → q ≤ a ∧ a < q + pgSize) (hperm : perm < 2 ^ 10)
    (hflags : perm ||| pteV ≠ pteV)
    (hv : v < vaPages) :
    Sat (vmMappages r (v * pgSize) q pgSize perm) (s₁.setMem m) G
      (fun _ s' => ∃ g', PageAdded r v q perm (tablesFor s.mem r v 0) m H g s g' s')
      fun e => e = .vmMappagesOom ∧ (g.free true).length < tablesFor s.mem r v 0 := by
  refine (h.heap.mapNew h.live hg hq hfill hperm hv).imp fun _ s' ⟨g', hm⟩ => ⟨g', ?_⟩
  have hrest := hm.framed.rest
  have hpa : pteToPa (mapPte q perm 0) = q :=
    mapPte_pa hm.page.1 (Nat.lt_trans hm.page.2 (by decide)) hperm
  have hkept :
      ∀ w, H w → g'.own (pteToPa (Mem.leaf s.mem r w)) = g.own (pteToPa (Mem.leaf s.mem r w)) ∧
        ∀ i < pgSize, s'.mem (pteToPa (Mem.leaf s.mem r w) + i) =
          s.mem (pteToPa (Mem.leaf s.mem r w) + i) :=
    fun w hw => hm.kept _ (pteToPa_aligned _) (by rw [(h.page w hw).own]; trivial)
  refine ⟨⟨hm.heap, hm.live, fun w hw => ?_⟩, hm.leaf, ⟨hm.page.1, hm.page.2, hm.was⟩, hm.mem,
    fun w hw => (hkept w hw).2, hm.user, hm.used, hrest⟩
  by_cases hwv : w = v
  · subst hwv
    have hl := hm.leaf w hv
    rw [if_pos rfl] at hl
    obtain ⟨hvalid, hfl⟩ := mapPte_flags (p := q) hperm 0
    refine ⟨hv, ?_, ?_, ?_, ?_⟩
    · rw [hl]
      exact hvalid
    · rw [hl, hfl]
      exact hflags
    · rw [hl, hpa]
      exact hm.own
    · rw [hl, hpa]
      unfold Managed inKernelOf
      rw [rest_allocBegin hrest]
      exact h.heap.home hm.was
  · have hH := hw.resolve_right hwv
    have hp := h.page w hH
    refine hp.congr ?_ (hkept w hH).1 hrest
    rw [hm.leaf w hp.below, if_neg hwv]

/-! ## A page goes -/

theorem Ledger.give_free_self {k : Bool} : (g.give k q).free k = q :: g.free k := by
  change Function.update g.free k (q :: g.free k) k = _
  rw [Function.update_self]

theorem Ledger.give_free_ne {j k : Bool} (h : j ≠ k) : (g.give k q).free j = g.free j := by
  change Function.update g.free k (q :: g.free k) j = _
  rw [Function.update_of_ne h]

theorem Holds.unmapOne (h : Holds g s r H) (hv : H v) :
    Sat (unmapPage r true (v * pgSize)) s (fun _ => True)
      (fun _ s' => ∃ g', PageRemoved r v H g s g' s') E := by
  have hp := h.page v hv
  have hdata : (g.own (pteToPa (Mem.leaf s.mem r v))).IsData := by
    rw [hp.own]
    trivial
  refine unmapPage_sat (D := fun u => u = .frame r v) h.heap h.live
    (fun hc => absurd hp.unmappable hc) (fun _ _ => trivial)
    (fun _ _ => ⟨hdata, hp.own⟩) fun _ g' s' hu hg => ?_
  rw [if_pos rfl, hp.home.2] at hg
  have hne : ∀ w, H w → w ≠ v → pteToPa (Mem.leaf s.mem r w) ≠ pteToPa (Mem.leaf s.mem r v) := by
    intro w hw hwv he
    have ho := (h.page w hw).own
    rw [he, hp.own] at ho
    exact hwv (Use.frame.inj ho).2.symm
  have hleaf : ∀ w < vaPages, Mem.leaf s'.mem r w = if w = v then 0 else Mem.leaf s.mem r w := by
    intro w hw
    rw [hu.leaf w hw]
    by_cases hwv : w = v
    · rw [if_pos hwv, if_pos (by omega)]
    · rw [if_neg hwv, if_neg (by omega)]
  refine ⟨g', ⟨hu.heap, hu.live, fun w hw => ?_⟩, hleaf, fun w hw hwv i hi =>
    ?_, ?_, ?_, hu.framed.rest⟩
  · have hpw := h.page w hw.1
    refine hpw.congr ?_ ?_ hu.framed.rest
    · rw [hleaf w hpw.below, if_neg hw.2]
    · rw [hg]
      exact Ledger.give_own_ne (hne w hw.1 hw.2)
  · refine hu.framed.mem _ (pteToPa_aligned _) ?_ i hi
    rw [(h.page w hw).own]
    intro hc
    cases hc with
    | frame he => exact hwv (Use.frame.inj he).2
  · rw [hg, Ledger.give_free_self]
  · rw [hg, Ledger.give_free_ne (by decide)]

end

end WhuOs.Mem
