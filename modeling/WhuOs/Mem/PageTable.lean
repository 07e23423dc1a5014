import WhuOs.Mem.Ledger

/-! # Specifications of `kvm.c`

`vm_getpte` with allocation extends the tables without changing an entry of a
virtual page; `vm_mappages` and `vm_unmappages` change the entries of their pages
and no others.
-/

namespace WhuOs.Mem

open Prog Bytes

/-- The uses that work on the tables of a root touches. -/
inductive TableUse (r : Nat) : Use → Prop
  | free : TableUse r (.free true)
  | held : TableUse r .held
  | table (x : List Nat) : TableUse r (.table r x)

/-- The tables of `r` grew by at most `n` pages; no virtual page changed its entry. -/
structure Grown (r n : Nat) (g : Ledger) (s : Kernel) (g' : Ledger) (s' : Kernel) : Prop where
  heap : Heap g' s'
  live : g'.Live r
  framed : Framed (TableUse r) g s g' s'
  leaf : ∀ v, leaf s'.mem r v = leaf s.mem r v
  tables : ∀ x p, (∀ i ∈ x, i < 512) → x.length ≤ 2 → tableAt s.mem r x = some p →
    tableAt s'.mem r x = some p
  used : (g.free true).length ≤ (g'.free true).length + n
  user : g'.free false = g.free false
  tops : Tops g s r → Tops g' s' r
  plain : Plain g s r → Plain g' s' r
  homed : Homed g s → Homed g' s'

section

variable {g g' g'' : Ledger} {s s' s'' : Kernel} {k : Bool}
  {p q r i v w n n' : Nat} {x y : List Nat}
  {m : Bytes} {G : Event → Prop} {E : Panic → Prop}

theorem Grown.refl (h : Heap g s) (hl : g.Live r) : Grown r 0 g s g s :=
  ⟨h, hl, .refl _ _ _, fun _ => rfl, fun _ _ _ _ ht => ht, Nat.le_refl _, rfl, id, id, id⟩

theorem Grown.trans (h : Grown r n g s g' s') (h' : Grown r n' g' s' g'' s'') :
    Grown r (n + n') g s g'' s'' where
  heap := h'.heap
  live := h'.live
  framed := h.framed.trans h'.framed
  leaf v := (h'.leaf v).trans (h.leaf v)
  tables x p hx hlen ht := h'.tables x p hx hlen (h.tables x p hx hlen ht)
  used := by
    have h1 := h.used
    have h2 := h'.used
    omega
  user := h'.user.trans h.user
  tops ht := h'.tops (h.tops ht)
  plain hp := h'.plain (h.plain hp)
  homed hh := h'.homed (h.homed hh)

theorem Grown.le (h : Grown r n g s g' s') (hn : n ≤ n') : Grown r n' g s g' s' :=
  ⟨h.heap, h.live, h.framed, h.leaf, h.tables,
    Nat.le_trans h.used (Nat.add_le_add_left hn _), h.user,
    h.tops, h.plain, h.homed⟩

theorem entry_of_zero (h : ∀ j < pgSize, m (q + j) = 0) (hi : i < 512) : entry m q i = 0 := by
  have hz : entry m q i = getLE (fun _ => 0) 0 8 := by
    refine getLE_congr fun j hj => ?_
    unfold pteAt
    rw [Nat.add_assoc]
    refine h _ ?_
    unfold pgSize
    omega
  rw [hz, getLE_zero]

/-- The last byte of a page after a write of an entry. -/
theorem store_top (hp : p % pgSize = 0) (hq : q % pgSize = 0) (hw : w < 2 ^ 56)
    (h : m (q + (pgSize - 1)) = 0) : putLE m (pteAt p i) 8 w (q + (pgSize - 1)) = 0 := by
  by_cases hin : pteAt p i ≤ q + (pgSize - 1) ∧ q + (pgSize - 1) < pteAt p i + 8
  · have hb : q + (pgSize - 1) - pteAt p i = 7 := by
      unfold pteAt pgSize at *
      omega
    unfold putLE
    rw [splice_in hin.1 hin.2, hb]
    unfold leBytes
    rw [Nat.div_eq_of_lt (Nat.lt_of_lt_of_le hw (by decide))]
    rfl
  · unfold putLE
    rw [splice_out (by omega)]
    exact h

/-! ## A new table -/

theorem link_check : pteCheck (paToPte q ||| pteV) = true := by
  rw [pteCheck_flags, pteFlags_pte (by decide)]
  rfl

theorem link_pte_lt (hlt : q < physTop) : paToPte q ||| pteV < 2 ^ 56 := by
  rw [pte_eq_add (by decide)]
  unfold physTop pteV at *
  omega

section Link

variable (h : Heap g s) (hl : g.Live r) (ht : tableAt s.mem r x = some p) (hx : x.length < 2)
  (hidx : ∀ j ∈ i :: x, j < 512) (hinv : hasFlag (entry s.mem p i) pteV = false)
  (hq : g.own q = .held) (hlt : q < physTop) (hzero : ∀ j < pgSize, s.mem (q + j) = 0)

include h hl ht hx hidx

theorem link_own : g.own p = .table r x :=
  h.tableAt_own hl (fun j hj => hidx j (List.mem_cons_of_mem _ hj)) (Nat.le_of_lt hx) ht

include hlt

theorem link_entry {p' j : Nat} (hp' : p' % pgSize = 0) (hj : j < 512) :
    entry (putLE s.mem (pteAt p i) 8 (paToPte q ||| pteV)) p' j
      = if p' = p ∧ j = i then paToPte q ||| pteV else entry s.mem p' j := by
  split
  · next hc =>
    obtain ⟨rfl, rfl⟩ := hc
    exact entry_store_same (Nat.lt_trans (link_pte_lt hlt) (by decide))
  · next hc =>
    have hown := link_own h hl ht hx hidx
    exact entry_store_ne (h.table_page hown).1 hp' (hidx i List.mem_cons_self) hj hc

include hinv hq hzero

/-- The new table is at its position, all others are where they were. -/
theorem link_tableAt (hy : ∀ j ∈ y, j < 512) (hlen : y.length ≤ 2) :
    tableAt (putLE s.mem (pteAt p i) 8 (paToPte q ||| pteV)) r y
      = if y = i :: x then some q else tableAt s.mem r y := by
  have hown := link_own h hl ht hx hidx
  have hqpage := h.page q (by rw [hq]; exact Use.noConfusion)
  have hnone : tableAt s.mem r (i :: x) = none := by
    rw [tableAt, ht, Option.bind_some, hinv]
    rfl
  induction y with
  | nil => rfl
  | cons j y ih =>
      have hj := hy j List.mem_cons_self
      have hy' : ∀ j ∈ y, j < 512 := fun j hj => hy j (List.mem_cons_of_mem _ hj)
      rw [tableAt, ih hy' (Nat.le_of_succ_le hlen)]
      by_cases hyx : y = i :: x
      · -- below the new table nothing is mapped
        subst hyx
        have hqp : ¬ (q = p ∧ j = i) := by
          rintro ⟨rfl, -⟩
          rw [hq] at hown
          cases hown
        rw [if_pos rfl, if_neg (by simp), Option.bind_some,
          link_entry h hl ht hx hidx hlt hqpage.1 hj, if_neg hqp,
          entry_of_zero hzero hj, hasFlag_zero, tableAt,
          hnone]
        rfl
      · rw [if_neg hyx]
        cases hty : tableAt s.mem r y with
        | none =>
            rw [Option.bind_none, if_neg, tableAt, hty, Option.bind_none]
            intro hc
            obtain ⟨-, rfl⟩ := List.cons.inj hc
            rw [ht] at hty
            cases hty
        | some p' =>
            have hown' := h.tableAt_own hl hy' (Nat.le_of_succ_le hlen) hty
            rw [Option.bind_some, link_entry h hl ht hx hidx hlt (h.table_page hown').1 hj]
            by_cases hc : p' = p ∧ j = i
            · obtain ⟨rfl, rfl⟩ := hc
              have hyx' : y = x := (Use.table.inj (hown'.symm.trans hown)).2
              obtain ⟨hpa, hval⟩ := table_pte hqpage.1 (Nat.lt_trans hlt (by decide))
              have hpte : (if p' = p' ∧ j = j then paToPte q ||| pteV else entry s.mem p' j)
                  = paToPte q ||| pteV := if_pos ⟨rfl, rfl⟩
              rw [hpte, hpa, hval, if_pos rfl, hyx', if_pos rfl]
            · have hne : j :: y ≠ i :: x := by
                intro he
                obtain ⟨rfl, rfl⟩ := List.cons.inj he
                exact hc ⟨Option.some.inj (hty.symm.trans ht), rfl⟩
              rw [if_neg hc, if_neg hne, tableAt, hty, Option.bind_some]

theorem link_leaf (v : Nat) :
    leaf (putLE s.mem (pteAt p i) 8 (paToPte q ||| pteV)) r v = leaf s.mem r v := by
  have hown := link_own h hl ht hx hidx
  have hqpage := h.page q (by rw [hq]; exact Use.noConfusion)
  have htab := link_tableAt (y := lowPos v) h hl ht hx hidx hinv hq hlt hzero (fun _ => mem_lowPos)
    (Nat.le_refl 2)
  by_cases hy : lowPos v = i :: x
  · -- the entries of the new table are invalid, and there was no table before
    have hnone : tableAt s.mem r (lowPos v) = none := by
      rw [hy, tableAt, ht, Option.bind_some, hinv]
      rfl
    have hqp : ¬ (q = p ∧ vpnIndex v 0 = i) := by
      rintro ⟨rfl, -⟩
      rw [hq] at hown
      cases hown
    rw [if_pos hy] at htab
    rw [leaf_eq htab, link_entry h hl ht hx hidx hlt hqpage.1 (vpnIndex_lt _ _), if_neg hqp,
      entry_of_zero hzero (vpnIndex_lt _ _), leaf, hnone]
  · rw [if_neg hy] at htab
    unfold leaf
    rw [htab]
    cases hlow : tableAt s.mem r (lowPos v) with
    | none => rfl
    | some p' =>
        have hown' := h.low_own hl hlow
        simp only
        rw [link_entry h hl ht hx hidx hlt (h.table_page hown').1 (vpnIndex_lt _ _), if_neg]
        rintro ⟨rfl, -⟩
        have hxe := (Use.table.inj (hown'.symm.trans hown)).2
        rw [← hxe] at hx
        exact absurd hx (Nat.lt_irrefl 2)

theorem link_heap :
    Heap (g.set q (.table r (i :: x)))
      (s.setMem (putLE s.mem (pteAt p i) 8 (paToPte q ||| pteV))) := by
  have hown := link_own h hl ht hx hidx
  have hi := hidx i List.mem_cons_self
  have hqpage := h.page q (by rw [hq]; exact Use.noConfusion)
  have hback : ∀ p' r' x', (g.set q (.table r (i :: x))).own p' = .table r' x' →
      p' = q ∧ r' = r ∧ x' = i :: x ∨ p' ≠ q ∧ g.own p' = .table r' x' := by
    intro p' r' x' hp'
    by_cases hpq : p' = q
    · subst hpq
      rw [Ledger.set_own_self] at hp'
      obtain ⟨rfl, rfl⟩ := Use.table.inj hp'
      exact .inl ⟨rfl, rfl, rfl⟩
    · exact .inr ⟨hpq, Ledger.set_own_ne hpq ▸ hp'⟩
  have hfwd : ∀ p', g.own p' ≠ .held → (g.set q (.table r (i :: x))).own p' = g.own p' := by
    intro p' hp'
    refine Ledger.set_own_ne ?_
    rintro rfl
    exact hp' hq
  refine ⟨h.pools.withMem fun k p' hp' j hj => ?_, fun p' k => ?_, fun p' hp' =>
    ?_, fun p' r' hp' => ?_,
    fun r' p' x' j hl' hp' hx' hj hv => ?_⟩
  · -- the free lists are on other pages
    have hfree := (h.free_iff p' k).mp hp'
    have hpp : p' ≠ p := by
      rintro rfl
      rw [hown] at hfree
      cases hfree
    refine store_outside (h.table_page hown).1 ((h.pools.pool k).page p' hp').1 hi hpp ?_
    unfold pgSize
    omega
  · rw [show (g.set q (.table r (i :: x))).free = g.free from rfl, h.free_iff]
    by_cases hpq : p' = q
    · subst hpq
      rw [hq, Ledger.set_own_self]
      exact ⟨Use.noConfusion, Use.noConfusion⟩
    · rw [Ledger.set_own_ne hpq]
  · by_cases hpq : p' = q
    · exact hpq ▸ hqpage
    · exact h.page p' (Ledger.set_own_ne hpq ▸ hp')
  · rcases hback p' r' [] hp' with ⟨-, -, hc⟩ | ⟨-, hc⟩
    · cases hc
    · exact h.root p' r' hc
  · rw [setMem_mem] at hv ⊢
    rcases hback p' r' x' hp' with ⟨rfl, rfl, rfl⟩ | ⟨hpq, hp''⟩
    · rw [link_entry h hl ht hx hidx hlt hqpage.1 hj, if_neg,
        entry_of_zero hzero hj, hasFlag_zero] at hv
      · cases hv
      · rintro ⟨rfl, -⟩
        rw [hq] at hown
        cases hown
    · rw [link_entry h hl ht hx hidx hlt (h.table_page hp'').1 hj] at hv ⊢
      by_cases hc : p' = p ∧ j = i
      · obtain ⟨rfl, rfl⟩ := hc
        obtain ⟨rfl, rfl⟩ := Use.table.inj (hp''.symm.trans hown)
        rw [if_pos ⟨rfl, rfl⟩, (table_pte hqpage.1 (Nat.lt_trans hlt (by decide))).1]
        exact Ledger.set_own_self
      · rw [if_neg hc] at hv ⊢
        have hlive : g.Live r' := by
          rcases hback r' r' [] hl' with ⟨-, -, hcon⟩ | ⟨-, hc'⟩
          · cases hcon
          · exact hc'
        have htarget := h.child r' p' x' j hlive hp'' hx' hj hv
        rw [hfwd _ (by rw [htarget]; exact Use.noConfusion)]
        exact htarget

theorem link_grown (htop : x = [] → i < 256) :
    Grown r 0 g s (g.set q (.table r (i :: x)))
      (s.setMem (putLE s.mem (pteAt p i) 8 (paToPte q ||| pteV))) where
  heap := link_heap h hl ht hx hidx hinv hq hlt hzero
  live := by
    refine (Ledger.set_own_ne ?_).trans hl
    rintro rfl
    unfold Ledger.Live at hl
    rw [hq] at hl
    cases hl
  framed := by
    have hown := link_own h hl ht hx hidx
    refine (Framed.set (hq ▸ TableUse.held) (TableUse.table (i :: x))).trans ?_
    refine Framed.write (h.table_page hown).1 ?_ fun a ha => ?_
    · rw [Ledger.set_own_ne, hown]
      · exact .table x
      · rintro rfl
        rw [hq] at hown
        cases hown
    · have hi := hidx i List.mem_cons_self
      by_contra hc
      refine ha (splice_out ?_)
      unfold pteAt
      unfold pgSize at hc
      omega
  leaf := link_leaf h hl ht hx hidx hinv hq hlt hzero
  tables y p' hy hlen hp' := by
    rw [setMem_mem, link_tableAt h hl ht hx hidx hinv hq hlt hzero hy hlen, if_neg]
    · exact hp'
    · rintro rfl
      rw [tableAt, ht, Option.bind_some, hinv] at hp'
      cases hp'
  used := Nat.le_refl _
  user := rfl
  tops htops p' y hp' := by
    have hown := link_own h hl ht hx hidx
    have hqpage := h.page q (by rw [hq]; exact Use.noConfusion)
    rw [setMem_mem]
    by_cases hpq : p' = q
    · subst hpq
      exact store_top (h.table_page hown).1 hqpage.1 (link_pte_lt hlt) (hzero _ (by decide))
    · rw [Ledger.set_own_ne hpq] at hp'
      exact store_top (h.table_page hown).1 (h.table_page hp').1 (link_pte_lt hlt) (htops p' y hp')
  plain hplain p' y j hp' hy hj hv := by
    have hown := link_own h hl ht hx hidx
    have hqpage := h.page q (by rw [hq]; exact Use.noConfusion)
    rw [setMem_mem] at hv ⊢
    by_cases hpq : p' = q
    · -- the new table has no entries
      subst hpq
      have hqp : ¬ (p' = p ∧ j = i) := by
        rintro ⟨rfl, -⟩
        rw [hq] at hown
        cases hown
      rw [link_entry h hl ht hx hidx hlt hqpage.1 hj, if_neg hqp,
        entry_of_zero hzero hj, hasFlag_zero] at hv
      cases hv
    · rw [Ledger.set_own_ne hpq] at hp'
      rw [link_entry h hl ht hx hidx hlt (h.table_page hp').1 hj] at hv ⊢
      by_cases hc : p' = p ∧ j = i
      · rw [if_pos hc]
        exact link_check
      · rw [if_neg hc] at hv ⊢
        exact hplain p' y j hp' hy hj hv
  homed hh := by
    have hown := link_own h hl ht hx hidx
    refine (hh.update rfl (fun k hk => ?_) fun r' y j he => ?_).of_rest rfl
    · refine hh.home q k ?_
      rw [hq]
      exact hk
    · obtain ⟨rfl, hpos⟩ := Use.table.inj he
      cases y with
      | nil =>
          obtain ⟨rfl, rfl⟩ := List.cons.inj hpos
          exact htop rfl
      | cons j' y =>
          obtain ⟨rfl, rfl⟩ := List.cons.inj hpos
          exact hh.top p r y j hown

end Link

/-! ## `vm_getpte` with allocation -/

/-- Work that touches no table. -/
theorem Grown.of_framed {W : Use → Prop} (h : Heap g s) (hl : g.Live r) (h' : Heap g' s')
    (hf : Framed W g s g' s') (hW : ∀ u, W u → TableUse r u) (ht : ∀ y, ¬ W (.table r y))
    (hn : (g.free true).length ≤ (g'.free true).length + n) (hu : g'.free false = g.free false)
    (hh : Homed g s → Homed g' s') : Grown r n g s g' s' where
  heap := h'
  live := hf.live hl (ht [])
  framed := hf.mono hW
  leaf _ := hf.leaf h hl ht
  tables y p hy hlen hp := by
    rw [h.tableAt_frame hl hy hlen fun q z hq i hi =>
      hf.mem q (h.table_page hq).1 (hq ▸ ht z) i hi]
    exact hp
  used := hn
  user := hu
  tops := hf.tops h ht
  plain := hf.plain h ht
  homed := hh

/-- A kernel page between allocation and its use. -/
inductive NewUse : Use → Prop
  | free : NewUse (.free true)
  | held : NewUse .held

/-- `alloc_pgtbl`: an empty page, not yet linked. -/
theorem allocPgtbl_heap (h : Heap g s) (hl : g.Live r) :
    Sat allocPgtbl s G
      (fun q s' => q = 0 ∧ s' = s ∧ g.free true = [] ∨
        0 < q ∧ q < physTop ∧ (∀ j < pgSize, s'.mem (q + j) = 0) ∧
          ∃ g', Grown r 1 g s g' s' ∧ Framed NewUse g s g' s' ∧ g'.own q = .held) E := by
  unfold allocPgtbl
  refine (pmemAlloc_heap h true (u := .held) trivial).bind fun q s' ⟨g', hg⟩ => ?_
  cases hg with
  | none empty =>
      rw [if_pos rfl, sat_pure]
      exact .inl ⟨rfl, rfl, empty⟩
  | some pos lt was length heap mem rest =>
      have hq : (g.grant true q .held).own q = .held := Ledger.grant_own_self
      have hqa := (heap.page q (by rw [hq]; exact Use.noConfusion)).1
      rw [if_neg (by omega)]
      simp only [sat_bind, sat_clearPage, sat_pure]
      -- the page is cleared
      have hclear : ∀ a, splice s'.mem q (fun _ => 0) pgSize a ≠ s'.mem a →
          q ≤ a ∧ a < q + pgSize := by
        intro a ha
        by_contra hc
        exact ha (splice_out (by omega))
      have hheap :
          Heap (g.grant true q .held) (s'.setMem (splice s'.mem q (fun _ => 0) pgSize)) := by
        refine heap.write fun p hp hd i hi => ?_
        have hpq : p ≠ q := by
          rintro rfl
          exact hd (by rw [hq]; trivial)
        have hap := pages_apart hp hqa hpq
        exact splice_out (by omega)
      have hframed : Framed NewUse g s (g.grant true q .held)
          (s'.setMem (splice s'.mem q (fun _ => 0) pgSize)) :=
        (Framed.grant was .held .free mem rest).trans
          (Framed.write hqa (by rw [hq]; exact .held) hclear)
      refine .inr ⟨pos, lt, fun j hj => ?_, g.grant true q .held, ?_, hframed, hq⟩
      · rw [setMem_mem, splice_in (by omega) (by omega)]
      · refine Grown.of_framed h hl hheap hframed (fun u hu => ?_) (fun y hy => ?_)
          (Nat.le_of_eq length) (Ledger.grant_free_ne (by decide)) fun hh => ?_
        · cases hu with
          | free => exact .free
          | held => exact .held
        · cases hy
        · exact (hh.move (u := .held) rfl trivial (.inl (by rw [was]; rfl))).of_rest rest

/-- One level down, with a new table where there is none. -/
theorem getpteLoop_step {va level : Nat} {Q : Nat → Kernel → Prop} (h : Heap g s) (hl : g.Live r)
    (ht : tableAt s.mem r x = some p) (hx : x.length < 2) (hidx : ∀ j ∈ x, j < 512)
    (htop : x = [] → vpnIndex (va / pgSize) (level + 1) < 256)
    (hoom : ∀ g' s', Grown r 0 g s g' s' → g'.free true = [] → Q 0 s')
    (hnext : ∀ g' s' p', Grown r 1 g s g' s' →
      tableAt s'.mem r (vpnIndex (va / pgSize) (level + 1) :: x) = some p' →
      Sat (getpteLoop va true level p') s' G Q E) :
    Sat (getpteLoop va true (level + 1) p) s G Q E := by
  have hidx' : ∀ j ∈ vpnIndex (va / pgSize) (level + 1) :: x, j < 512 :=
    List.forall_mem_cons.mpr ⟨vpnIndex_lt _ _, hidx⟩
  have hsame : Grown r 1 g s g s := (Grown.refl h hl).le (Nat.zero_le 1)
  cases hv : hasFlag (entry s.mem p (vpnIndex (va / pgSize) (level + 1))) pteV with
  | true =>
      rw [getpteLoop_valid hv]
      exact hnext g s _ hsame (tableAt_cons.mpr ⟨p, ht, hv, rfl⟩)
  | false =>
      rw [getpteLoop_invalid hv]
      refine (allocPgtbl_heap h hl).bind fun q s' hq => ?_
      rcases hq with ⟨rfl, rfl, hempty⟩ | ⟨hpos, hlt, hzero, g', hg, hf, hown⟩
      · rw [if_pos rfl, sat_pure]
        exact hoom g s' (.refl h hl) hempty
      · have ht' := hg.tables x p hidx (Nat.le_of_lt hx) ht
        have hv' : hasFlag (entry s'.mem p (vpnIndex (va / pgSize) (level + 1))) pteV = false := by
          have hp := h.tableAt_own hl hidx (Nat.le_of_lt hx) ht
          have hkeep : ¬ NewUse (g.own p) := by
            rw [hp]
            exact fun hu => nomatch hu
          rw [entry_congr (vpnIndex_lt _ _) (hf.mem p (h.table_page hp).1 hkeep)]
          exact hv
        rw [if_neg (by omega), sat_bind, sat_store]
        have hlink := link_grown hg.heap hg.live ht' hx hidx' hv' hown hlt hzero htop
        refine hnext _ _ q (hg.trans hlink) ?_
        rw [setMem_mem, link_tableAt hg.heap hg.live ht' hx hidx' hv' hown hlt hzero hidx' hx,
          if_pos rfl]

/-- `vm_getpte(.., true)` finds the entry, or the kernel pool ran dry. -/
theorem vmGetpte_alloc {va : Nat} (h : Heap g s) (hl : g.Live r) (hva : va < vaMax) :
    Sat (vmGetpte r va true) s G
      (fun pte s' => ∃ g', Grown r 2 g s g' s' ∧
        (pte = 0 ∧ (g.free true).length < 2 ∨
          ∃ p, tableAt s'.mem r (lowPos (va / pgSize)) = some p ∧
            pte = pteAt p (vpnIndex (va / pgSize) 0))) E := by
  unfold vmGetpte
  rw [if_neg (by omega)]
  have htop : vpnIndex (va / pgSize) 2 < 256 := by
    unfold vpnIndex vaMax pgSize at *
    norm_num
    omega
  refine getpteLoop_step h hl (x := []) rfl Nat.zero_lt_two (fun j hj => absurd hj List.not_mem_nil)
    (fun _ => htop) (fun g' s' hg hempty => ?_) fun g₁ s₁ p₁ hg₁ ht₁ => ?_
  · have hu := hg.used
    rw [hempty] at hu
    exact ⟨g', hg.le (Nat.zero_le 2), .inl ⟨rfl, Nat.lt_of_le_of_lt hu Nat.zero_lt_two⟩⟩
  refine getpteLoop_step hg₁.heap hg₁.live ht₁ Nat.one_lt_two
    (List.forall_mem_cons.mpr ⟨vpnIndex_lt _ _, fun j hj => absurd hj List.not_mem_nil⟩)
    (fun hc => absurd hc (List.cons_ne_nil _ _)) (fun g' s' hg hempty => ?_)
      fun g₂ s₂ p₂ hg₂ ht₂ => ?_
  · have hu := (hg₁.trans hg).used
    rw [hempty] at hu
    exact ⟨g', (hg₁.trans hg).le (Nat.le_succ 1), .inl ⟨rfl, Nat.lt_of_le_of_lt hu Nat.one_lt_two⟩⟩
  · rw [getpteLoop_zero]
    exact ⟨g₂, hg₁.trans hg₂, .inr ⟨p₂, ht₂, rfl⟩⟩

/-! ## The entry of a page -/

/-- An entry of a lowest table leads to no table: the pages above it are other pages. -/
theorem Heap.store_tableAt (h : Heap g s) (hl : g.Live r) (ht : tableAt s.mem r (lowPos v) = some p)
    (hx : x.length ≤ 2) (hidx : ∀ j ∈ x, j < 512) :
    tableAt (putLE s.mem (pteAt p (vpnIndex v 0)) 8 w) r x = tableAt s.mem r x := by
  have hown := h.low_own hl ht
  refine tableAt_congr hidx fun y i hy p' hp' => ?_
  have hlen : y.length < 2 := Nat.lt_of_lt_of_le hy.length_le hx
  have hidx' : ∀ j ∈ i :: y, j < 512 := fun j hj => hidx j (hy.subset hj)
  have hown' := h.tableAt_own hl (fun j hj => hidx' j (List.mem_cons_of_mem _ hj))
    (Nat.le_of_lt hlen) hp'
  refine entry_store_ne (h.table_page hown).1 (h.table_page hown').1 (vpnIndex_lt _ _)
    (hidx' i List.mem_cons_self) ?_
  rintro ⟨rfl, -⟩
  have hy2 := (Use.table.inj (hown'.symm.trans hown)).2
  rw [hy2] at hlen
  exact absurd hlen (Nat.lt_irrefl 2)

theorem Heap.leaf_store_tableAt (h : Heap g s) (hl : g.Live r)
    (ht : tableAt s.mem r (lowPos v) = some p) (v' : Nat) :
    tableAt (putLE s.mem (pteAt p (vpnIndex v 0)) 8 w) r (lowPos v') =
      tableAt s.mem r (lowPos v') :=
  h.store_tableAt hl ht (Nat.le_refl 2) fun _ => mem_lowPos

/-- Entries of virtual pages below a root are independent of each other. -/
theorem Heap.leaf_store (h : Heap g s) (hl : g.Live r) (ht : tableAt s.mem r (lowPos v) = some p)
    (hw : w < 2 ^ 64) (hv : v < 2 ^ 27) {v' : Nat} (hv' : v' < 2 ^ 27) :
    leaf (putLE s.mem (pteAt p (vpnIndex v 0)) 8 w) r v' = if v' = v then w
      else leaf s.mem r v' := by
  have hown := h.low_own hl ht
  have hpage := (h.table_page hown).1
  have htab := h.leaf_store_tableAt (w := w) hl ht v'
  unfold leaf
  rw [htab]
  by_cases hvv : v' = v
  · subst hvv
    rw [ht, if_pos rfl]
    exact entry_store_same hw
  · rw [if_neg hvv]
    cases hp' : tableAt s.mem r (lowPos v') with
    | none => rfl
    | some p' =>
        have hown' := h.low_own hl hp'
        refine entry_store_ne hpage (h.table_page hown').1 (vpnIndex_lt _ _) (vpnIndex_lt _ _) ?_
        rintro ⟨rfl, hidx⟩
        exact hvv (vpnIndex_inj hv' hv hidx (Use.table.inj (hown'.symm.trans hown)).2)

theorem Heap.storeLeaf (h : Heap g s) (hl : g.Live r) (ht : tableAt s.mem r (lowPos v) = some p)
    (w : Nat) : Heap g (s.setMem (putLE s.mem (pteAt p (vpnIndex v 0)) 8 w)) := by
  have hown := h.low_own hl ht
  have hpage := (h.table_page hown).1
  refine ⟨h.pools.withMem fun k q hq i hi => ?_, h.free_iff, h.page, h.root,
    fun r' p' x i hl' hp' hx hi hv => ?_⟩
  · have hfree := (h.free_iff q k).mp hq
    have hqp : q ≠ p := by
      rintro rfl
      rw [hown] at hfree
      cases hfree
    refine store_outside hpage ((h.pools.pool k).page q hq).1 (vpnIndex_lt _ _) hqp ?_
    unfold pgSize
    omega
  · have hsame : entry (putLE s.mem (pteAt p (vpnIndex v 0)) 8 w) p' i = entry s.mem p' i := by
      refine entry_store_ne hpage (h.table_page hp').1 (vpnIndex_lt _ _) hi ?_
      rintro ⟨rfl, -⟩
      have hx2 := (Use.table.inj (hp'.symm.trans hown)).2
      rw [hx2] at hx
      exact absurd hx (Nat.lt_irrefl 2)
    rw [setMem_mem, hsame] at hv ⊢
    exact h.child r' p' x i hl' hp' hx hi hv

/-- An entry of a lowest table points to no table. -/
theorem Plain.storeLeaf (hpl : Plain g s r) (h : Heap g s) (hl : g.Live r)
    (ht : tableAt s.mem r (lowPos v) = some p)
    (w : Nat) : Plain g (s.setMem (putLE s.mem (pteAt p (vpnIndex v 0)) 8 w)) r := by
  intro p' x i hp' hx hi hv
  have hown := h.low_own hl ht
  have hsame : entry (putLE s.mem (pteAt p (vpnIndex v 0)) 8 w) p' i = entry s.mem p' i := by
    refine entry_store_ne (h.table_page hown).1 (h.table_page hp').1 (vpnIndex_lt _ _) hi ?_
    rintro ⟨rfl, -⟩
    have hx2 := (Use.table.inj (hp'.symm.trans hown)).2
    rw [hx2] at hx
    exact absurd hx (Nat.lt_irrefl 2)
  rw [setMem_mem, hsame] at hv ⊢
  exact hpl p' x i hp' hx hi hv

theorem Framed.storeLeaf {W : Use → Prop} (h : Heap g s) (hl : g.Live r)
    (ht : tableAt s.mem r (lowPos v) = some p) (hW : W (.table r (lowPos v))) :
    Framed W g s g (s.setMem (putLE s.mem (pteAt p (vpnIndex v 0)) 8 w)) := by
  have hown := h.low_own hl ht
  refine Framed.write (h.table_page hown).1 (hown ▸ hW) fun a ha => ?_
  have hi := vpnIndex_lt v 0
  by_contra hc
  refine ha (splice_out ?_)
  unfold pteAt
  unfold pgSize at hc
  omega

/-! ## `vm_mappages` -/

def mapPte (pa perm k : Nat) : Nat := paToPte (u64 (pa + k * pgSize)) ||| perm ||| pteV

/-- The entries of `r` are those of `f`; at most `n` new table pages were taken. -/
structure Edited (r : Nat) (f : Nat → Nat) (n : Nat) (g : Ledger) (s : Kernel) (g' : Ledger)
    (s' : Kernel) : Prop where
  heap : Heap g' s'
  live : g'.Live r
  framed : Framed (TableUse r) g s g' s'
  leaf : ∀ v < vaPages, leaf s'.mem r v = f v
  used : (g.free true).length ≤ (g'.free true).length + n
  user : g'.free false = g.free false
  tops : (∀ v < vaPages, f v < 2 ^ 56 ∨ f v = Mem.leaf s.mem r v) → Tops g s r → Tops g' s' r
  plain : Plain g s r → Plain g' s' r
  homed : Homed g s → Homed g' s'

/-- Bound on the table pages that a range needs: two for every low table but the present one. -/
def tablesFor (m : Bytes) (r v n : Nat) : Nat :=
  2 * ((v + n) / 512 - v / 512 + if (tableAt m r (lowPos v)).isSome then 0 else 1)

theorem tablesFor_le (m : Bytes) (r v n : Nat) :
    tablesFor m r v n ≤ 2 * ((v + n) / 512 - v / 512 + 1) := by
  unfold tablesFor
  split <;> omega

theorem u64_lt (a : Nat) : u64 a < 2 ^ 64 := by
  unfold u64
  omega

theorem u64_of_lt {a : Nat} (h : a < 2 ^ 64) : u64 a = a := Nat.mod_eq_of_lt h

theorem mapPte_lt {pa perm : Nat} (hperm : perm < 2 ^ 64) (k : Nat) : mapPte pa perm k < 2 ^ 64 :=
  Nat.or_lt_two_pow (pte_lt (u64_lt _) hperm) (by decide)

theorem mapPte_succ (pa perm k : Nat) :
    mapPte (u64 (pa + pgSize)) perm k = mapPte pa perm (k + 1) := by
  have hu : u64 (u64 (pa + pgSize) + k * pgSize) = u64 (pa + (k + 1) * pgSize) := by
    unfold u64
    rw [Nat.mod_add_mod, Nat.add_mul, Nat.one_mul, Nat.add_assoc, Nat.add_comm pgSize]
  unfold mapPte
  rw [hu]

theorem vaPages_le {v : Nat} (h : v < vaPages) : v < 2 ^ 27 := by
  unfold vaPages vaMax pgSize at h
  omega

theorem mul_pgSize_lt {v : Nat} : v * pgSize < vaMax ↔ v < vaPages := by
  unfold vaPages vaMax pgSize
  omega

theorem u64_next {v : Nat} (h : v < vaPages) : u64 (v * pgSize + pgSize) = (v + 1) * pgSize := by
  rw [Nat.add_mul, Nat.one_mul]
  refine u64_of_lt ?_
  unfold vaPages vaMax pgSize at *
  omega

theorem lowPos_congr {v v' : Nat} (h : v / 512 = v' / 512) : lowPos v = lowPos v' := by
  have h2 : v / 512 ^ 2 = v' / 512 ^ 2 := by
    rw [pow_two, ← Nat.div_div_eq_div_mul, ← Nat.div_div_eq_div_mul, h]
  unfold lowPos vpnIndex
  rw [pow_one, h, h2]

/-- No table is needed where there is one. -/
theorem vmGetpte_present {va : Nat} {alloc : Bool} {Q : Nat → Kernel → Prop} (hva : va < vaMax)
    (ht : tableAt s.mem r (lowPos (va / pgSize)) = some p) :
    Sat (vmGetpte r va alloc) s G Q E ↔ Q (pteAt p (vpnIndex (va / pgSize) 0)) s := by
  obtain ⟨p₁, ht₁, hv₁, hp₁⟩ := tableAt_cons.mp ht
  obtain ⟨p₂, ht₂, hv₂, hp₂⟩ := tableAt_cons.mp ht₁
  obtain rfl := Option.some.inj ht₂
  unfold vmGetpte
  rw [if_neg (by omega), getpteLoop_valid hv₂, hp₂, getpteLoop_valid hv₁, hp₁, getpteLoop_zero]

/-- One page: find its entry and set it. -/
theorem mapOne_sat {pa perm fuel last : Nat} {Q : Unit → Kernel → Prop}
    (h : Heap g s) (hl : g.Live r)
    (hv : v < vaPages) (hpa : pa < 2 ^ 64) (hperm : perm < 2 ^ 64)
    (hE : (g.free true).length < tablesFor s.mem r v 0 → E .vmMappagesOom)
    (hQ : ∀ g' s', Edited r (fun v' => if v' = v then mapPte pa perm 0 else leaf s.mem r v')
        (tablesFor s.mem r v 0) g s g' s' →
      (tableAt s'.mem r (lowPos v)).isSome →
      Sat (if v * pgSize = last then pure () else
        mappagesLoop r last perm fuel (u64 (v * pgSize + pgSize)) (u64 (pa + pgSize))) s' G Q E) :
    Sat (mappagesLoop r last perm (fuel + 1) (v * pgSize) pa) s G Q E := by
  have hdiv : v * pgSize / pgSize = v := Nat.mul_div_cancel v (by decide)
  have hpte : mapPte pa perm 0 = paToPte pa ||| perm ||| pteV := by
    unfold mapPte
    rw [Nat.zero_mul, Nat.add_zero, u64_of_lt hpa]
  -- the walk takes table pages only where they are missing
  have hwalk : Sat (vmGetpte r (v * pgSize) true) s G
      (fun pte s' => ∃ g', Grown r (tablesFor s.mem r v 0) g s g' s' ∧
        (pte = 0 ∧ (g.free true).length < tablesFor s.mem r v 0 ∨
          ∃ p, tableAt s'.mem r (lowPos v) = some p ∧ pte = pteAt p (vpnIndex v 0))) E := by
    have hva := mul_pgSize_lt.mpr hv
    have hcost :
        tablesFor s.mem r v 0 = 2 * if (tableAt s.mem r (lowPos v)).isSome then 0 else 1 := by
      unfold tablesFor
      rw [Nat.add_zero, Nat.sub_self, Nat.zero_add]
    rw [hcost]
    cases ht : tableAt s.mem r (lowPos v) with
    | some p =>
        rw [vmGetpte_present hva (by rw [hdiv]; exact ht), hdiv]
        exact ⟨g, Grown.refl h hl, .inr ⟨p, ht, rfl⟩⟩
    | none =>
        have hgen := vmGetpte_alloc (G := G) (E := E) h hl hva
        rw [hdiv] at hgen
        exact hgen
  unfold mappagesLoop
  refine hwalk.bind fun pte s' ⟨g', hg, hres⟩ => ?_
  rcases hres with ⟨rfl, hdry⟩ | ⟨p, ht, rfl⟩
  · rw [if_pos rfl, sat_bind, sat_panic]
    exact hE hdry
  · have hown := hg.heap.low_own hg.live ht
    have hpage := hg.heap.table_page hown
    have hne : pteAt p (vpnIndex v 0) ≠ 0 := by
      unfold pteAt
      omega
    have hleaf :
        ∀ v' < vaPages, leaf (putLE s'.mem (pteAt p (vpnIndex v 0)) 8 (mapPte pa perm 0)) r v'
          = if v' = v then mapPte pa perm 0 else leaf s.mem r v' := by
      intro v' hv'
      rw [hg.heap.leaf_store hg.live ht (mapPte_lt hperm 0) (vaPages_le hv) (vaPages_le hv'),
        hg.leaf]
    rw [if_neg hne, sat_bind, sat_store, ← hpte]
    refine hQ g' _ ⟨hg.heap.storeLeaf hg.live ht _, hg.live, ?_, hleaf, hg.used, hg.user, ?_,
      fun hp => (hg.plain hp).storeLeaf hg.heap hg.live ht _, fun hh =>
      (hg.homed hh).of_rest rfl⟩ ?_
    · exact hg.framed.trans (Framed.storeLeaf hg.heap hg.live ht (.table _))
    · intro hsmall htops p' x hp'
      have htop' := hg.tops htops p' x hp'
      have hp'' := (hg.heap.table_page hp').1
      have hs := hsmall v hv
      rw [if_pos rfl] at hs
      rcases hs with hs | hs
      · exact store_top hpage.1 hp'' hs htop'
      · -- the entry is written with the value it has
        have hsame : putLE s'.mem (pteAt p (vpnIndex v 0)) 8 (mapPte pa perm 0) = s'.mem := by
          rw [hs, ← hg.leaf v, leaf_eq ht]
          exact putLE_getLE _ _ _
        rw [setMem_mem, hsame]
        exact htop'
    · -- the table is still where it was
      have hsub := hg.heap.leaf_store_tableAt (w := mapPte pa perm 0) hg.live ht v
      rw [setMem_mem, hsub, ht]
      rfl

/-- The next page needs a table only when it begins a new one. -/
theorem tablesFor_next (h : (tableAt m r (lowPos v)).isSome) :
    tablesFor m r (v + 1) n ≤ 2 * ((v + (n + 1)) / 512 - v / 512) := by
  unfold tablesFor
  by_cases hb : (v + 1) / 512 = v / 512
  · rw [lowPos_congr hb, if_pos h, hb, show v + 1 + n = v + (n + 1) by omega]
    exact Nat.le_refl _
  · split <;> omega

theorem mappagesLoop_sat {pa perm : Nat} (fuel : Nat) (h : Heap g s) (hl : g.Live r) (hn : n < fuel)
    (hv : v + n < vaPages) (hpa : pa < 2 ^ 64) (hperm : perm < 2 ^ 64) :
    Sat (mappagesLoop r ((v + n) * pgSize) perm fuel (v * pgSize) pa) s G
      (fun _ s' => ∃ g', Edited r
        (fun v' => if v ≤ v' ∧ v' ≤ v + n then mapPte pa perm (v' - v) else leaf s.mem r v')
        (tablesFor s.mem r v n) g s g' s')
      fun e => e = .vmMappagesOom ∧ (g.free true).length < tablesFor s.mem r v n := by
  induction fuel generalizing g s v n pa with
  | zero => exact absurd hn (Nat.not_lt_zero n)
  | succ fuel ih =>
      have hle : tablesFor s.mem r v 0 ≤ tablesFor s.mem r v n := by
        unfold tablesFor
        omega
      refine mapOne_sat h hl (by omega) hpa hperm (fun hdry => ⟨rfl, by omega⟩)
        fun g₁ s₁ he hsome => ?_
      cases n with
      | zero =>
          have hf : ∀ v', (if v ≤ v' ∧ v' ≤ v + 0 then mapPte pa perm (v' - v) else leaf s.mem r v')
              = if v' = v then mapPte pa perm 0 else leaf s.mem r v' := by
            intro v'
            by_cases hvv : v' = v
            · subst hvv
              rw [if_pos ⟨Nat.le_refl _, Nat.le_refl _⟩, if_pos rfl, Nat.sub_self]
            · rw [if_neg (by omega), if_neg hvv]
          rw [Nat.add_zero, if_pos rfl, sat_pure]
          refine ⟨g₁, ?_⟩
          rw [show (fun v' =>
            if v ≤ v' ∧ v' ≤ v then mapPte pa perm (v' - v) else leaf s.mem r v') = _
            from funext hf]
          exact he
      | succ n =>
          have hlast : v * pgSize ≠ (v + (n + 1)) * pgSize := by
            unfold pgSize
            omega
          have hcost := tablesFor_next (n := n) hsome
          have hsum : tablesFor s.mem r v 0 + 2 * ((v + (n + 1)) / 512 - v / 512)
              = tablesFor s.mem r v (n + 1) := by
            unfold tablesFor
            omega
          have hused := he.used
          rw [if_neg hlast, u64_next (v := v) (by omega), show v + (n + 1) = v + 1 + n by omega]
          refine (ih he.heap he.live (Nat.lt_of_succ_lt_succ hn) (by omega) (u64_lt _)).mono ?_ ?_
          · rintro - s' ⟨g', he'⟩
            have hused' := he'.used
            -- the entries after the rest of the loop
            have hf : ∀ v' < vaPages,
                (if v + 1 ≤ v' ∧ v' ≤ v + 1 + n then mapPte (u64 (pa + pgSize)) perm (v' - (v + 1))
                  else leaf s₁.mem r v')
                = if v ≤ v' ∧ v' ≤ v + 1 + n then mapPte pa perm (v' - v) else leaf s.mem r v' := by
              intro v' hv'
              rw [mapPte_succ]
              by_cases hin : v + 1 ≤ v' ∧ v' ≤ v + 1 + n
              · rw [if_pos hin, if_pos (by omega), show v' - (v + 1) + 1 = v' - v by omega]
              · rw [if_neg hin, he.leaf v' hv']
                by_cases hvv : v' = v
                · subst hvv
                  rw [if_pos rfl, if_pos (by omega), Nat.sub_self]
                · rw [if_neg hvv, if_neg (by omega)]
            refine ⟨g', he'.heap, he'.live, he.framed.trans he'.framed, fun v' hv' => ?_, ?_,
              he'.user.trans he.user, fun hsmall htops =>
                he'.tops (fun v' hv' => ?_) (he.tops ?_ htops),
              fun hp => he'.plain (he.plain hp), fun hh => he'.homed (he.homed hh)⟩
            · rw [he'.leaf v' hv', hf v' hv']
            · omega
            · rw [hf v' hv']
              rcases hsmall v' hv' with hs | hs
              · exact .inl hs
              · by_cases hvv : v' = v
                · subst hvv
                  refine .inr ?_
                  rw [he.leaf v' hv', if_pos rfl, if_pos (by omega), Nat.sub_self]
                · refine .inr ?_
                  rw [hs, he.leaf v' hv', if_neg hvv]
            · intro v' hv'
              by_cases hvv : v' = v
              · subst hvv
                have hs := hsmall v' hv'
                rw [if_pos (by omega), Nat.sub_self] at hs
                rw [if_pos rfl]
                exact hs
              · rw [if_neg hvv]
                exact .inr rfl
          · rintro e ⟨he', hdry⟩
            exact ⟨he', by omega⟩

/-- `vm_mappages` on a range below `VA_MAX`. -/
theorem vmMappages_sat {va pa len perm : Nat} (h : Heap g s) (hl : g.Live r) (hlen : 0 < len)
    (hva : va + len ≤ vaMax) (hpa : pa < 2 ^ 64) (hperm : perm < 2 ^ 64) :
    Sat (vmMappages r va pa len perm) s G
      (fun _ s' => ∃ g', Edited r
        (fun v => if va / pgSize ≤ v ∧ v ≤ (va + len - 1) / pgSize then
          mapPte pa perm (v - va / pgSize) else leaf s.mem r v)
        (tablesFor s.mem r (va / pgSize) ((va + len - 1) / pgSize - va / pgSize)) g s g' s')
      fun e => e = .vmMappagesOom ∧ (g.free true).length <
        tablesFor s.mem r (va / pgSize) ((va + len - 1) / pgSize - va / pgSize) := by
  have hlt : va + len < 2 ^ 64 := by
    unfold vaMax at hva
    omega
  have hsub : sub64 (u64 (va + len)) 1 = va + len - 1 := by
    rw [u64_of_lt hlt]
    unfold sub64 u64
    omega
  have hle : va / pgSize ≤ (va + len - 1) / pgSize := Nat.div_le_div_right (by omega)
  have hsum : va / pgSize + ((va + len - 1) / pgSize - va / pgSize) = (va + len - 1) / pgSize :=
    Nat.add_sub_cancel' hle
  have hbound : (va + len - 1) / pgSize < vaPages := by
    unfold vaPages vaMax pgSize at *
    omega
  unfold vmMappages
  rw [if_neg (by omega), hsub]
  unfold pgRoundDown
  have hloop := mappagesLoop_sat (G := G) (n := (va + len - 1) / pgSize - va / pgSize) (vaPages + 1)
    h hl (Nat.lt_succ_of_le (Nat.le_trans (Nat.sub_le _ _) (Nat.le_of_lt hbound)))
    (hsum.symm ▸ hbound) hpa hperm
  rw [hsum] at hloop
  exact hloop

end

end WhuOs.Mem
