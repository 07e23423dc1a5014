import WhuOs.Mem.Destroy
import WhuOs.Mem.Copy

/-! # New address spaces

`proc_pgtbl_init` takes a page for the root and maps the trampoline and the trap
frame. When a page is missing it gives back what it took.
-/

namespace WhuOs.Mem

open Prog Bytes

def Ledger.Rooted (g : Ledger) : Prop := ∀ q r x, g.own q = .table r x → g.Live r

structure Text (s : Kernel) : Prop where
  trampoline : s.trampoline % pgSize = 0
  below : s.trampoline < s.etext
  etext : s.etext % pgSize = 0
  end_le : s.etext ≤ s.allocBegin

/-- A space with nothing but the trampoline and the trap frame. -/
structure FreshSpace (r t : Nat) (g : Ledger) (s : Kernel) (g' : Ledger) (s' : Kernel) : Prop where
  space : Space g' s' r t
  framed : Framed (UserUse r) g s g' s'
  kept : DataKept g s g' s'
  was : g.own r = .free false
  leaf : ∀ v < vaPages, leaf s'.mem r v =
    if v = trapframeVpn then trapframePte t else if v = trampolineVpn then trampolinePte s else 0
  plain : Plain g' s' r
  user : (g.free false).length = (g'.free false).length + 1
  used : (g.free true).length ≤ (g'.free true).length + 2

structure Undone (g : Ledger) (s : Kernel) (g' : Ledger) (s' : Kernel) : Prop where
  heap : Heap g' s'
  homed : Homed g' s'
  framed : g' = g ∧ s' = s ∨ ∃ r, g.own r = .free false ∧ Framed (UserUse r) g s g' s' ∧
    ∀ q x, g'.own q ≠ .table r x

section

variable {g g₁ g' : Ledger} {s s₁ s' : Kernel} {p q r t v n : Nat} {m : Bytes} {G : Event → Prop}
  {E : Panic → Prop}

/-- A cleared page becomes the root of an empty table. -/
theorem Heap.newRoot (h : Heap g s) (hown : g.own q = .scratch)
    (hz : ∀ j < pgSize, s.mem (q + j) = 0)
    (hno : ∀ p x, g.own p ≠ .table q x) : Heap (g.set q (.table q [])) s := by
  have hback : ∀ p r x, (g.set q (.table q [])).own p = .table r x →
      p = q ∧ r = q ∧ x = [] ∨ p ≠ q ∧ r ≠ q ∧ g.own p = .table r x := by
    intro p r x hp
    by_cases hpq : p = q
    · subst hpq
      rw [Ledger.set_own_self] at hp
      obtain ⟨rfl, rfl⟩ := Use.table.inj hp
      exact .inl ⟨rfl, rfl, rfl⟩
    · rw [Ledger.set_own_ne hpq] at hp
      refine .inr ⟨hpq, ?_, hp⟩
      rintro rfl
      exact hno p x hp
  refine ⟨h.pools, fun p k => ?_, fun p hp => ?_, fun p r hp =>
    ?_, fun r p x i hl hp hx hi hv => ?_⟩
  · by_cases hpq : p = q
    · subst hpq
      rw [Ledger.set_own_self]
      refine ⟨fun hm => ?_, fun hc => nomatch hc⟩
      have hf := (h.free_iff p k).mp hm
      rw [hown] at hf
      cases hf
    · rw [Ledger.set_own_ne hpq]
      exact h.free_iff p k
  · by_cases hpq : p = q
    · subst hpq
      exact h.page p (by rw [hown]; exact Use.noConfusion)
    · rw [Ledger.set_own_ne hpq] at hp
      exact h.page p hp
  · rcases hback p r [] hp with ⟨rfl, rfl, -⟩ | ⟨-, -, h1⟩
    · rfl
    · exact h.root p r h1
  · rcases hback p r x hp with ⟨rfl, rfl, rfl⟩ | ⟨-, hr, h1⟩
    · rw [entry_of_zero hz hi, hasFlag_zero] at hv
      cases hv
    · rcases hback r r [] hl with ⟨h2, -⟩ | ⟨-, -, h2⟩
      · exact absurd h2 hr
      · have hc := h.child r p x i h2 h1 hx hi hv
        rw [Ledger.set_own_ne]
        · exact hc
        · rintro he
          rw [he, hown] at hc
          cases hc

theorem leaf_of_zero (hz : ∀ j < pgSize, m (r + j) = 0) (v : Nat) : leaf m r v = 0 := by
  have hnone : tableAt m r (lowPos v) = none := by
    unfold lowPos
    rw [tableAt, tableAt, tableAt, Option.bind_some,
      entry_of_zero hz (vpnIndex_lt _ _), hasFlag_zero]
    rfl
  simp [leaf, hnone]

/-- A new page of a pool, cleared, is the root of an empty table. -/
theorem emptyTable_granted {k : Bool} (hh : Homed g s) (hroot : g.Rooted)
    (hg : Granted g s k .scratch q g₁ s₁) (hq : q ≠ 0) :
    Heap (g.grant k q (.table q [])) (s₁.setMem (splice s₁.mem q (fun _ => 0) pgSize)) ∧
      Homed (g.grant k q (.table q [])) s₁ ∧
      Tops (g.grant k q (.table q [])) (s₁.setMem (splice s₁.mem q (fun _ => 0) pgSize)) q ∧
      (∀ v, leaf (splice s₁.mem q (fun _ => 0) pgSize) q v = 0) ∧ q % pgSize = 0 ∧
      ∀ p x, (g.grant k q (.table q [])).own p = .table q x → p = q := by
  cases hg with
  | none _ => exact absurd rfl hq
  | some pos lt was length heap mem rest =>
  have hown : (g.grant k q .scratch).own q = .scratch := Ledger.grant_own_self
  have hqa := (heap.page q (by rw [hown]; exact Use.noConfusion)).1
  have hin : Inside q s₁.mem (splice s₁.mem q (fun _ => 0) pgSize) :=
    inside_splice (Nat.le_refl q) (Nat.le_refl _)
  have hz : ∀ j < pgSize, splice s₁.mem q (fun _ => 0) pgSize (q + j) = 0 :=
    fun j hj => splice_in (by omega) (by omega)
  have hno : ∀ p x, (g.grant k q .scratch).own p ≠ .table q x := by
    intro p x hp
    have hpq : p ≠ q := by
      rintro rfl
      rw [hown] at hp
      cases hp
    rw [Ledger.grant_own_ne hpq] at hp
    have hl := hroot p q x hp
    unfold Ledger.Live at hl
    rw [was] at hl
    cases hl
  have hheap := (heap.write_page hqa (by rw [hown]; trivial) hin).newRoot hown hz hno
  have hset : (g.grant k q .scratch).set q (.table q []) = g.grant k q (.table q []) := by
    unfold Ledger.set Ledger.grant
    rw [Function.update_idem]
  rw [hset] at hheap
  have hhomed : Homed (g.grant k q (.table q [])) s₁ := by
    refine (hh.of_rest rest).update rfl (fun k hk => by cases hk) fun r x i he => ?_
    exact absurd (Use.table.inj he).2 (by simp)
  have honly : ∀ p x, (g.grant k q (.table q [])).own p = .table q x → p = q := by
    intro p x hp
    by_contra hpq
    refine hno p x ?_
    rw [Ledger.grant_own_ne hpq] at hp ⊢
    exact hp
  refine ⟨hheap, hhomed, fun p x hp => ?_, leaf_of_zero hz, hqa, honly⟩
  obtain rfl := honly p x hp
  exact hz _ (by decide)

/-- The new root after `pmem_alloc` and `memset`. -/
theorem emptySpace (hh : Homed g s) (hroot : g.Rooted) (t : Nat)
    (hg : Granted g s false .scratch q g₁ s₁) (hq : q ≠ 0) :
    ∃ g', Space g' (s₁.setMem (splice s₁.mem q (fun _ => 0) pgSize)) q t ∧
      Framed (UserUse q) g s g' (s₁.setMem (splice s₁.mem q (fun _ => 0) pgSize)) ∧
      g.own q = .free false ∧ (g.free false).length = (g'.free false).length + 1 ∧
      g'.free true = g.free true ∧
      DataKept g s g' (s₁.setMem (splice s₁.mem q (fun _ => 0) pgSize)) ∧
      Plain g' (s₁.setMem (splice s₁.mem q (fun _ => 0) pgSize)) q ∧
      ∀ v, leaf (splice s₁.mem q (fun _ => 0) pgSize) q v = 0 := by
  obtain ⟨hheap, hhomed, htops, hleaf, hqa, honly⟩ := emptyTable_granted hh hroot hg hq
  cases hg with
  | none _ => exact absurd rfl hq
  | some pos lt was length heap mem rest =>
  have hin : Inside q s₁.mem (splice s₁.mem q (fun _ => 0) pgSize) :=
    inside_splice (Nat.le_refl q) (Nat.le_refl _)
  have hpool := hh.home q false (by rw [was]; rfl)
  have hpool₁ : Managed s₁ q ∧ inKernelOf s₁ q = false := by
    unfold Managed inKernelOf
    rw [rest_allocBegin rest]
    exact hpool
  have hqown : (g.grant false q (.table q [])).own q = .table q [] := Ledger.grant_own_self
  refine ⟨_, ⟨hheap, hhomed.of_rest rfl, hqown, hpool₁, htops, fun v _ hval => ?_⟩, ?_, was,
    length, Ledger.grant_free_ne (by decide), fun p hp hst => ?_, fun p x i hp _ hi hv => ?_, hleaf⟩
  · rw [setMem_mem, hleaf, hasFlag_zero] at hval
    cases hval
  · exact (Framed.grant was (.table []) (.free false) mem rest).trans
      (Framed.write hqa (by rw [hqown]; exact .table []) hin)
  · have hpq : p ≠ q := by
      rintro rfl
      rw [was] at hst
      exact hst
    refine ⟨Ledger.grant_own_ne hpq, fun i hi => ?_⟩
    have hap := pages_apart hp hqa hpq
    rw [setMem_mem, splice_out (by omega), mem]
  · obtain rfl := honly p x hp
    have hz : ∀ j < pgSize, splice s₁.mem p (fun _ => 0) pgSize (p + j) = 0 :=
      fun j hj => splice_in (by omega) (by omega)
    rw [setMem_mem, entry_of_zero hz hi, hasFlag_zero] at hv
    cases hv

theorem procPgtblInit_sat {Q : Nat → Kernel → Prop} (h : Heap g s)
    (hh : Homed g s) (hroot : g.Rooted)
    (htext : Text s) (ht : t < physTop)
    (hfail : ¬ (1 ≤ (g.free false).length ∧ 2 ≤ (g.free true).length) →
      ∀ g' s', Undone g s g' s' → Q 0 s')
    (hQ : ∀ r g' s', FreshSpace r t g s g' s' → Q r s') :
    Sat (procPgtblInit t) s (fun _ => True) Q E := by
  unfold procPgtblInit
  refine (pmemAlloc_heap h false (u := .scratch) trivial).bind fun q s₁ ⟨g₁, hg⟩ => ?_
  by_cases hq : q = 0
  · subst hq
    cases hg with
    | some pos => exact absurd pos (Nat.lt_irrefl 0)
    | none hempty =>
        rw [if_pos rfl, sat_pure]
        refine hfail (fun hc => ?_) g _ ⟨h, hh, .inl ⟨rfl, rfl⟩⟩
        rw [hempty] at hc
        exact absurd hc.1 (Nat.not_succ_le_zero 0)
  rw [if_neg hq, sat_bind, sat_clearPage, sat_bind]
  obtain ⟨g₂, hsp, hf, hwas, huser, htrue, hkept, hplain, hleaf⟩ := emptySpace hh hroot t hg hq
  refine (vmGetpte_alloc hsp.heap hsp.live (by decide)).imp ?_
  rintro pte s₃ ⟨g₃, hgr, hpte⟩
  have hsp₃ := hsp.grown hgr
  rcases hpte with ⟨rfl, hdry⟩ | ⟨pt, htab, rfl⟩
  · -- no page for the tables
    rw [if_pos rfl, sat_bind]
    refine uvmDestroyPgtbl_sat hsp₃ fun g' s' hgone hno => ?_
    rw [sat_pure]
    refine hfail (fun hc => ?_) g' s' ⟨hgone.heap, hgone.homed, .inr ⟨q, hwas, ?_, hno⟩⟩
    · rw [htrue] at hdry
      omega
    · exact (hf.trans (hgr.framed.mono fun u hu => hu.user)).trans
        (hgone.framed.mono fun u hu => hu.user)
  have hpos := (hsp₃.heap.table_page (hsp₃.heap.low_own hsp₃.live htab)).2
  have hne : pteAt pt (vpnIndex (trampolineVa / pgSize) 0) ≠ 0 := by
    unfold pteAt
    omega
  have hphys : s₃.trampoline < physTop := by
    rw [rest_trampoline (hgr.framed.rest.trans hf.rest)]
    have h1 := h.pools.layout.room
    have h2 := htext.below
    have h3 := htext.end_le
    omega
  rw [if_neg hne, sat_bind, sat_state, sat_bind]
  change Sat (vmMappages q (trampolineVpn * pgSize) s₃.trampoline pgSize (pteR ||| pteX)) _ _ _ _
  replace htab : tableAt s₃.mem q (lowPos trampolineVpn) = some pt := htab
  -- the trampoline; the tables are there
  refine (mapPage_present hsp₃.heap hsp₃.live (Nat.lt_trans hphys (by decide)) (by decide)
    (by decide) htab).imp ?_
  rintro - s₄ ⟨g₄, he₄⟩
  have hsp₄ : Space g₄ s₄ q t := hsp₃.edited (mapPte_small hphys (by decide)) (.inl ⟨rfl, rfl⟩) he₄
  obtain ⟨pt₄, htab₄⟩ : ∃ p, tableAt s₄.mem q (lowPos trampolineVpn) = some p := by
    refine leaf_ne_zero fun hz => ?_
    have hval : hasFlag (Mem.leaf s₄.mem q trampolineVpn) pteV = true := by
      rw [he₄.leaf _ (by decide), if_pos rfl]
      exact mapPte_valid (by decide)
    rw [hz, hasFlag_zero] at hval
    cases hval
  have htab₅ : tableAt s₄.mem q (lowPos trapframeVpn) = some pt₄ := by
    rw [lowPos_congr (show trapframeVpn / 512 = trampolineVpn / 512 by decide)]
    exact htab₄
  have hpos₄ := (hsp₄.heap.table_page (hsp₄.heap.low_own hsp₄.live htab₄)).2
  have hne₄ : pteAt pt₄ (vpnIndex (trapframeVa / pgSize) 0) ≠ 0 := by
    unfold pteAt
    omega
  rw [sat_bind, vmGetpte_present (p := pt₄) (by decide) htab₅, if_neg hne₄, sat_bind]
  change Sat (vmMappages q (trapframeVpn * pgSize) t pgSize (pteR ||| pteW)) _ _ _ _
  refine (mapPage_present hsp₄.heap hsp₄.live (Nat.lt_trans ht (by decide)) (by decide)
    (by decide) htab₅).imp ?_
  rintro - s₅ ⟨g₅, he₅⟩
  have hsp₅ : Space g₅ s₅ q t := hsp₄.edited (mapPte_small ht (by decide)) (.inr ⟨rfl, rfl⟩) he₅
  rw [sat_pure]
  have htables : Framed (TableUse q) g₂ _ g₅ s₅ := (hgr.framed.trans he₄.framed).trans he₅.framed
  have hk := hgr.used
  have hk₄ := he₄.used
  have hk₅ := he₅.used
  refine hQ q g₅ s₅ ⟨hsp₅, hf.trans (htables.mono fun u hu => hu.user),
    hkept.trans (htables.dataKept fun u hu => hu.not_stays), hwas, fun v hv => ?_,
    he₅.plain (he₄.plain (hgr.plain hplain)), ?_, ?_⟩
  · rw [he₅.leaf v hv]
    split
    · rfl
    · rw [he₄.leaf v hv, hgr.leaf]
      split
      · unfold trampolinePte
        rw [rest_trampoline (hgr.framed.rest.trans hf.rest)]
      · exact hleaf v
  · rw [he₅.user, he₄.user, hgr.user]
    exact huser
  · rw [htrue] at hk
    omega

end

end WhuOs.Mem
