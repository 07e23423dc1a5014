import WhuOs.Mem.Unmap
import WhuOs.Mem.Sys

/-! # User address spaces on a ledger

The frames behind a user table are its own, each behind one virtual page; the
trampoline and the trap frame are the exceptions. New pages come from the allocator
and leave every page that holds data alone.
-/

namespace WhuOs.Mem

open Prog Bytes

def trampolineVpn : Nat := trampolineVa / pgSize
def trapframeVpn : Nat := trapframeVa / pgSize

def trampolinePte (s : Kernel) : Nat := mapPte s.trampoline (pteR ||| pteX) 0
def trapframePte (t : Nat) : Nat := mapPte t (pteR ||| pteW) 0

/-- The address space of root `r`, with trap frame `t`. -/
structure Space (g : Ledger) (s : Kernel) (r t : Nat) : Prop where
  heap : Heap g s
  homed : Homed g s
  live : g.Live r
  pool : Managed s r ∧ inKernelOf s r = false
  tops : Tops g s r
  leaf : ∀ v < vaPages, hasFlag (leaf s.mem r v) pteV = true →
    g.own (pteToPa (Mem.leaf s.mem r v)) = .frame r v ∨
    v = trampolineVpn ∧ Mem.leaf s.mem r v = trampolinePte s ∨
    v = trapframeVpn ∧ Mem.leaf s.mem r v = trapframePte t

/-- The uses that work on an address space touches. -/
inductive UserUse (r : Nat) : Use → Prop
  | free (k : Bool) : UserUse r (.free k)
  | held : UserUse r .held
  | table (x : List Nat) : UserUse r (.table r x)
  | frame (v : Nat) : UserUse r (.frame r v)
  | retired : UserUse r (.retired r)

def Use.Stays : Use → Prop
  | .free _ => False
  | .table _ _ => False
  | .held => False
  | _ => True

def DataKept (g : Ledger) (s : Kernel) (g' : Ledger) (s' : Kernel) : Prop :=
  ∀ p, p % pgSize = 0 → (g.own p).Stays →
    g'.own p = g.own p ∧ ∀ i < pgSize, s'.mem (p + i) = s.mem (p + i)

section

variable {g g₁ g' g'' : Ledger} {s s₁ s' s'' : Kernel} {k : Bool} {p q r t v w n perm : Nat}
  {R R' : Nat → Prop} {m : Bytes} {G : Event → Prop} {E : Panic → Prop} {Q : Unit → Kernel → Prop}
  {W : Use → Prop}

theorem DataKept.refl (g : Ledger) (s : Kernel) : DataKept g s g s :=
  fun _ _ _ => ⟨rfl, fun _ _ => rfl⟩

theorem DataKept.trans (h : DataKept g s g' s') (h' : DataKept g' s' g'' s'') :
    DataKept g s g'' s'' := by
  intro p hp hst
  obtain ⟨h1, h2⟩ := h p hp hst
  obtain ⟨h3, h4⟩ := h' p hp (h1 ▸ hst)
  exact ⟨h3.trans h1, fun i hi => (h4 i hi).trans (h2 i hi)⟩

theorem Framed.dataKept (h : Framed W g s g' s') (hW : ∀ u, W u → ¬ u.Stays) :
    DataKept g s g' s' := by
  intro p hp hst
  have hw : ¬ W (g.own p) := fun hc => hW _ hc hst
  exact ⟨h.own_eq hw, h.mem p hp hw⟩

theorem TableUse.not_stays {u : Use} (h : TableUse r u) : ¬ u.Stays := by
  cases h <;> exact id

theorem TableUse.user {u : Use} (h : TableUse r u) : UserUse r u := by
  cases h with
  | free => exact .free true
  | held => exact .held
  | table x => exact .table x

/-! ## Entries of an address space -/

theorem trapframePte_flags (t : Nat) : pteFlags (trapframePte t) = pteR ||| pteW ||| pteV := by
  unfold trapframePte mapPte
  rw [Nat.or_assoc, pteFlags_pte (by decide), Nat.or_assoc]

theorem mapPte_pa (hq : q % pgSize = 0) (hlt : q < 2 ^ 64) (hperm : perm < 2 ^ 10) :
    pteToPa (mapPte q perm 0) = q := by
  unfold mapPte
  rw [Nat.zero_mul, Nat.add_zero, u64_of_lt hlt, Nat.or_assoc,
    pteToPa_pte (Nat.or_lt_two_pow hperm (by decide)) hq hlt]

theorem mapPte_valid (hperm : perm < 2 ^ 10) : hasFlag (mapPte q perm 0) pteV = true := by
  unfold mapPte
  rw [hasFlag_pteV, Nat.or_assoc, pte_eq_add (Nat.or_lt_two_pow hperm (by decide))]
  have hodd : (perm ||| pteV) % 2 = 1 := by
    unfold pteV
    rw [Nat.or_mod_two_eq_one]
    exact .inr rfl
  omega

theorem mapPte_small (hlt : q < physTop) (hperm : perm < 2 ^ 10) : mapPte q perm 0 < 2 ^ 56 := by
  unfold mapPte
  rw [Nat.zero_mul, Nat.add_zero, u64_of_lt (Nat.lt_trans hlt (by decide)), Nat.or_assoc,
    pte_eq_add (Nat.or_lt_two_pow hperm (by decide))]
  have hor : perm ||| pteV < 2 ^ 10 := Nat.or_lt_two_pow hperm (by decide)
  unfold physTop at hlt
  omega

theorem Space.pool_of_rest (h : Space g s r t) (hr : s'.rest = s.rest) :
    Managed s' r ∧ inKernelOf s' r = false := by
  unfold Managed inKernelOf
  rw [rest_allocBegin hr]
  exact h.pool

/-- A space is kept by work that does not touch its uses. -/
theorem Space.frame (h : Space g s r t) (hf : Framed W g s g' s')
    (h' : Heap g' s') (hh : Homed g' s')
    (ht : ∀ x, ¬ W (.table r x)) (hv : ∀ v, ¬ W (.frame r v)) : Space g' s' r t := by
  refine ⟨h', hh, hf.live h.live (ht []), h.pool_of_rest hf.rest, hf.tops h.heap ht h.tops,
    fun v hlt hval => ?_⟩
  have hleaf : Mem.leaf s'.mem r v = Mem.leaf s.mem r v := hf.leaf h.heap h.live ht
  have htr : trampolinePte s' = trampolinePte s := by
    unfold trampolinePte
    rw [rest_trampoline hf.rest]
  rw [hleaf] at hval ⊢
  rcases h.leaf v hlt hval with h1 | h1 | h1
  · exact .inl ((hf.own_eq (h1 ▸ hv v)).trans h1)
  · exact .inr (.inl ⟨h1.1, h1.2.trans htr.symm⟩)
  · exact .inr (.inr h1)

/-! ## New tables and entries -/

theorem Space.grown (h : Space g s r t) (hg : Grown r n g s g' s') : Space g' s' r t := by
  refine ⟨hg.heap, hg.homed h.homed, hg.live, h.pool_of_rest hg.framed.rest, hg.tops h.tops,
    fun v hv hval => ?_⟩
  rw [hg.leaf] at hval ⊢
  rcases h.leaf v hv hval with h1 | h1 | h1
  · exact .inl ((hg.framed.own_eq (h1 ▸ fun hu => nomatch hu)).trans h1)
  · refine .inr (.inl ⟨h1.1, h1.2.trans ?_⟩)
    unfold trampolinePte
    rw [rest_trampoline hg.framed.rest]
  · exact .inr (.inr h1)

/-- An entry of the kernel is set. -/
theorem Space.edited {w : Nat} (h : Space g s r t) (hw : w < 2 ^ 56)
    (hv : v = trampolineVpn ∧ w = trampolinePte s ∨ v = trapframeVpn ∧ w = trapframePte t)
    (he : Edited r (fun v' => if v' = v then w else Mem.leaf s.mem r v') n g s g' s') :
    Space g' s' r t := by
  have htr : trampolinePte s' = trampolinePte s := by
    unfold trampolinePte
    rw [rest_trampoline he.framed.rest]
  refine ⟨he.heap, he.homed h.homed, he.live, h.pool_of_rest he.framed.rest,
    he.tops (fun v' _ => ?_) h.tops,
    fun v' hv' hval => ?_⟩
  · by_cases hvv : v' = v
    · rw [if_pos hvv]
      exact .inl hw
    · rw [if_neg hvv]
      exact .inr rfl
  · rw [he.leaf v' hv'] at hval ⊢
    by_cases hvv : v' = v
    · subst hvv
      rw [if_pos rfl, htr]
      exact .inr hv
    · rw [if_neg hvv] at hval ⊢
      rw [htr]
      rcases h.leaf v' hv' hval with h1 | h1
      · exact .inl ((he.framed.own_eq (h1 ▸ fun hu => nomatch hu)).trans h1)
      · exact .inr h1

/-- The two pools hold their own pages. -/
theorem Heap.home (h : Heap g s) {k : Bool} (hq : g.own q = .free k) :
    Managed s q ∧ inKernelOf s q = k := by
  have hp := h.pools.page ((h.free_iff q k).mpr hq)
  have hl := (h.pools.pool k).page q ((h.free_iff q k).mpr hq)
  have hm : Managed s q := h.pools.layout.managed_of_bounds hl.2.1 hl.2.2
  refine ⟨hm, ?_⟩
  have hks := h.pools.layout.kernStop
  have hkb := h.pools.layout.kernBegin
  have hub := h.pools.layout.userBegin
  unfold inKernelOf
  cases k with
  | false =>
      have hb : s.user.begin ≤ q := hl.2.1
      exact decide_eq_false (by omega)
  | true =>
      have hb : s.kern.begin ≤ q := hl.2.1
      have hs : q < s.kern.stop := hl.2.2
      exact decide_eq_true (by omega)

/-! ## New pages -/

/-- Page `v` was mapped to the new page `q`, which holds `m` there. -/
structure NewPage (r t v q perm : Nat) (m : Bytes) (g : Ledger) (s : Kernel) (g' : Ledger)
    (s' : Kernel) : Prop where
  space : Space g' s' r t
  framed : Framed (UserUse r) g s g' s'
  kept : DataKept g s g' s'
  leaf : ∀ v' < vaPages, leaf s'.mem r v' = if v' = v then mapPte q perm 0 else leaf s.mem r v'
  page : q % pgSize = 0 ∧ q < physTop
  was : g.own q = .free false
  own : g'.own q = .frame r v
  mem : ∀ i < pgSize, s'.mem (q + i) = m (q + i)
  user : (g.free false).length = (g'.free false).length + 1
  used : (g.free true).length ≤ (g'.free true).length + 2

/-- In the tables of `r` page `v` was mapped to the new page `q`, which holds `m` there, with at
most `n` pages for tables. -/
structure PageMapped (r v q perm n : Nat) (m : Bytes) (g : Ledger) (s : Kernel) (g' : Ledger)
    (s' : Kernel) : Prop where
  heap : Heap g' s'
  live : g'.Live r
  framed : Framed (UserUse r) g s g' s'
  kept : DataKept g s g' s'
  leaf : ∀ v' < vaPages, leaf s'.mem r v' = if v' = v then mapPte q perm 0 else leaf s.mem r v'
  page : q % pgSize = 0 ∧ q < physTop
  was : g.own q = .free false
  own : g'.own q = .frame r v
  mem : ∀ i < pgSize, s'.mem (q + i) = m (q + i)
  left : ∀ p, g'.own p = .free false → g.own p = .free false
  user : (g.free false).length = (g'.free false).length + 1
  used : (g.free true).length ≤ (g'.free true).length + n
  homed : Homed g s → Homed g' s'
  tops : Tops g s r → Tops g' s' r

/-- A page that was just allocated is filled and mapped. -/
theorem Heap.mapNew (h : Heap g s) (hl : g.Live r)
    (hg : Granted g s false (.frame r v) q g₁ s₁) (hq : q ≠ 0)
    (hfill : ∀ a, m a ≠ s₁.mem a → q ≤ a ∧ a < q + pgSize)
    (hperm : perm < 2 ^ 10) (hv : v < vaPages) :
    Sat (vmMappages r (v * pgSize) q pgSize perm) (s₁.setMem m) G
      (fun _ s' => ∃ g', PageMapped r v q perm (tablesFor s.mem r v 0) m g s g' s')
      fun e => e = .vmMappagesOom ∧ (g.free true).length < tablesFor s.mem r v 0 := by
  cases hg with
  | none _ => exact absurd rfl hq
  | some pos lt was length heap mem rest =>
  have hqown : (g.grant false q (.frame r v)).own q = .frame r v := Ledger.grant_own_self
  have hqa := (heap.page q (by rw [hqown]; exact Use.noConfusion)).1
  -- the ledger after the allocation and the writes into the page
  have hf₀ : Framed (UserUse r) g s (g.grant false q (.frame r v)) (s₁.setMem m) :=
    (Framed.grant was (.frame v) (.free false) mem rest).trans
      (Framed.write hqa (by rw [hqown]; exact .frame v) hfill)
  have hsame :
      ∀ p, p % pgSize = 0 → p ≠ q → ∀ i < pgSize, (s₁.setMem m).mem (p + i) = s.mem (p + i) := by
    intro p hp hpq i hi
    rw [setMem_mem, ← mem]
    by_contra hne
    have hin := hfill (p + i) hne
    have hap := pages_apart hp hqa hpq
    omega
  have hother : ∀ p u, g.own p = u → u ≠ .free false → p ≠ q := by
    rintro p u hp hu rfl
    exact hu (hp.symm.trans was)
  have hdata : DataKept g s (g.grant false q (.frame r v)) (s₁.setMem m) := by
    intro p hp hst
    have hpq : p ≠ q := by
      rintro rfl
      rw [was] at hst
      exact hst
    exact ⟨Ledger.grant_own_ne hpq, hsame p hp hpq⟩
  have htable :
      ∀ p x, g.own p = .table r x → ∀ i < pgSize, (s₁.setMem m).mem (p + i) = s.mem (p + i) :=
      fun p x hp =>
    hsame p (h.table_page hp).1 (hother p _ hp Use.noConfusion)
  have hheap : Heap (g.grant false q (.frame r v)) (s₁.setMem m) := by
    refine heap.write fun p hp hnd i hi => ?_
    rw [← setMem_mem s₁ m, mem]
    refine hsame p hp ?_ i hi
    rintro rfl
    exact hnd (by rw [hqown]; trivial)
  have hlive : (g.grant false q (.frame r v)).Live r :=
    (Ledger.grant_own_ne (hother r _ hl Use.noConfusion)).trans hl
  have hback : ∀ p x, (g.grant false q (.frame r v)).own p = .table r x → g.own p = .table r x := by
    intro p x hp
    have hpq : p ≠ q := by
      rintro rfl
      rw [hqown] at hp
      cases hp
    exact Ledger.grant_own_ne hpq ▸ hp
  have hleaf : ∀ v', Mem.leaf (s₁.setMem m).mem r v' = Mem.leaf s.mem r v' :=
    fun v' => h.leaf_frame hl htable
  have hcost : tablesFor (s₁.setMem m).mem r v 0 = tablesFor s.mem r v 0 := by
    unfold tablesFor
    rw [h.tableAt_frame hl (fun _ => mem_lowPos) (Nat.le_refl 2) htable]
  have htrue : (g.grant false q (.frame r v)).free true = g.free true :=
    Ledger.grant_free_ne (by decide)
  have hlt64 : q < 2 ^ 64 := Nat.lt_trans lt (by decide)
  have hmap :=
    mapPage_tables (G := G) hheap hlive hlt64
      (show perm < 2 ^ 64 from Nat.lt_trans hperm (by decide)) hv
  rw [hcost, htrue] at hmap
  refine hmap.imp fun _ s' ⟨g', he⟩ => ⟨g', ?_⟩
  have hkept : DataKept (g.grant false q (.frame r v)) (s₁.setMem m) g' s' :=
    he.framed.dataKept fun u hu => hu.not_stays
  have hqkept := hkept q hqa (by rw [hqown]; trivial)
  refine ⟨he.heap, he.live, hf₀.trans (he.framed.mono fun u hu => hu.user),
    hdata.trans hkept, fun v' hv' => ?_,
    ⟨hqa, lt⟩, was, hqkept.1.trans hqown, fun i hi => hqkept.2 i hi, fun p hp =>
    ?_, ?_, ?_, fun hh => ?_, fun ht => ?_⟩
  · rw [he.leaf v' hv', hleaf]
  · -- the list of user pages lost its first page
    have hmem := (he.heap.free_iff p false).mpr hp
    rw [he.user] at hmem
    have hgrant := (hheap.free_iff p false).mp hmem
    have hpq : p ≠ q := by
      rintro rfl
      rw [hqown] at hgrant
      cases hgrant
    exact (Ledger.grant_own_ne hpq).symm.trans hgrant
  · rw [he.user]
    exact length
  · have hu := he.used
    rwa [htrue] at hu
  · exact he.homed ((hh.move (u := .frame r v) rfl trivial (.inl (by rw [was]; rfl))).of_rest rest)
  · refine he.tops (fun v' hv' => ?_) fun p x hp => ?_
    · by_cases hvv : v' = v
      · rw [if_pos hvv]
        exact .inl (mapPte_small lt hperm)
      · rw [if_neg hvv]
        exact .inr rfl
    · rw [htable p x (hback p x hp) _ (by decide)]
      exact ht p x (hback p x hp)

/-- A page with the entry that it had. -/
theorem Space.leaf_kept (h : Space g s r t) (hk : DataKept g s g' s')
    (hrest : s'.rest = s.rest) (hv : v < vaPages)
    (hsame : Mem.leaf s'.mem r v = Mem.leaf s.mem r v)
    (hval : hasFlag (Mem.leaf s'.mem r v) pteV = true) :
    g'.own (pteToPa (Mem.leaf s'.mem r v)) = .frame r v ∨
      v = trampolineVpn ∧ Mem.leaf s'.mem r v = trampolinePte s' ∨
      v = trapframeVpn ∧ Mem.leaf s'.mem r v = trapframePte t := by
  rw [hsame] at hval ⊢
  have htr : trampolinePte s' = trampolinePte s := by
    unfold trampolinePte
    rw [rest_trampoline hrest]
  rcases h.leaf v hv hval with h1 | h1 | h1
  · have hk := hk _ (pteToPa_aligned _) (by rw [h1]; trivial)
    exact .inl (hk.1.trans h1)
  · exact .inr (.inl ⟨h1.1, h1.2.trans htr.symm⟩)
  · exact .inr (.inr h1)

/-- The new page belongs to the space. -/
theorem Space.mapped (h : Space g s r t) (hperm : perm < 2 ^ 10) (hm : PageMapped r v q perm n m g s g' s') :
    Space g' s' r t := by
  refine ⟨hm.heap, hm.homed h.homed, hm.live, h.pool_of_rest hm.framed.rest, hm.tops h.tops, fun v' hv' hval => ?_⟩
  have hl := hm.leaf v' hv'
  by_cases hvv : v' = v
  · subst hvv
    rw [hl, if_pos rfl, mapPte_pa hm.page.1 (Nat.lt_trans hm.page.2 (by decide)) hperm]
    exact .inl hm.own
  · rw [if_neg hvv] at hl
    exact h.leaf_kept hm.kept hm.framed.rest hv' hl hval

theorem Space.mapNew (h : Space g s r t) (hg : Granted g s false (.frame r v) q g₁ s₁) (hq : q ≠ 0)
    (hfill : ∀ a, m a ≠ s₁.mem a → q ≤ a ∧ a < q + pgSize) (hperm : perm < 2 ^ 10)
    (hE : ¬ (v < vaPages ∧ 2 ≤ (g.free true).length) → ∀ e, E e)
    (hQ : v < vaPages → ∀ g' s', NewPage r t v q perm m g s g' s' → Q () s') :
    Sat (vmMappages r (v * pgSize) q pgSize perm) (s₁.setMem m) G Q E := by
  by_cases hv : v < vaPages
  swap
  · exact vmMappages_above (Nat.le_of_not_lt hv) (hE fun hc => hv hc.1)
  have hle := tablesFor_le s.mem r v 0
  refine (h.heap.mapNew h.live hg hq hfill hperm hv).mono ?_ fun e he => hE (fun hc => ?_) e
  · rintro - s' ⟨g', hm⟩
    exact hQ hv g' s' ⟨h.mapped hperm hm, hm.framed, hm.kept, hm.leaf, hm.page, hm.was, hm.own, hm.mem, hm.user,
      Nat.le_trans hm.used (by omega)⟩
  · have hdry := he.2
    omega

/-- The pages of `R` were mapped to new pages with flags `perm`, from `a` user pages and at most `b`
kernel pages. -/
structure Added (r t perm : Nat) (R : Nat → Prop) (a b : Nat) (g : Ledger)
    (s : Kernel) (g' : Ledger)
    (s' : Kernel) : Prop where
  space : Space g' s' r t
  framed : Framed (UserUse r) g s g' s'
  kept : DataKept g s g' s'
  old : ∀ v < vaPages, ¬ R v → leaf s'.mem r v = leaf s.mem r v
  new : ∀ v < vaPages, R v → ∃ q, leaf s'.mem r v = mapPte q perm 0 ∧ ¬ (g.own q).Stays ∧
    g'.own q = .frame r v ∧ q % pgSize = 0 ∧ q < physTop
  user : (g.free false).length = (g'.free false).length + a
  used : (g.free true).length ≤ (g'.free true).length + b

theorem Added.refl (h : Space g s r t) : Added r t perm (fun _ => False) 0 0 g s g s :=
  ⟨h, .refl _ _ _, .refl _ _, fun _ _ _ => rfl, fun _ _ hc => hc.elim, rfl, Nat.le_refl _⟩

theorem Added.congr {a b : Nat} (h : Added r t perm R a b g s g' s')
    (hR : ∀ v < vaPages, R' v ↔ R v) :
    Added r t perm R' a b g s g' s' :=
  ⟨h.space, h.framed, h.kept, fun v hv hn => h.old v hv fun hc => hn ((hR v hv).mpr hc),
    fun v hv hr => h.new v hv ((hR v hv).mp hr), h.user, h.used⟩

/-- One more page in front. -/
theorem NewPage.added {a b : Nat} (h : NewPage r t v q perm m g s g₁ s₁)
    (h' : Added r t perm R a b g₁ s₁ g' s') :
    Added r t perm (fun x => x = v ∨ R x) (a + 1) (b + 2) g s g' s' where
  space := h'.space
  framed := h.framed.trans h'.framed
  kept := h.kept.trans h'.kept
  old x hx hn := by
    rw [h'.old x hx fun hc => hn (.inr hc), h.leaf x hx, if_neg fun hc => hn (.inl hc)]
  new x hx hr := by
    by_cases hR : R x
    · obtain ⟨q', hl, hst, hown, hpage⟩ := h'.new x hx hR
      refine ⟨q', hl, fun hc => hst ?_, hown, hpage⟩
      rw [(h.kept q' hpage.1 hc).1]
      exact hc
    · have hxv : x = v := hr.resolve_right hR
      subst hxv
      refine ⟨q, ?_, ?_, ?_, h.page⟩
      · rw [h'.old x hx hR, h.leaf x hx, if_pos rfl]
      · rw [h.was]
        exact id
      · rw [(h'.kept q h.page.1 (by rw [h.own]; trivial)).1, h.own]
  user := by
    have h1 := h.user
    have h2 := h'.user
    omega
  used := by
    have h1 := h.used
    have h2 := h'.used
    omega

/-! ## Loops over new pages -/

/-- The address of the `i`-th page behind an aligned start. -/
theorem page_address {start i : Nat} (ha : start % pgSize = 0) (hi : i < 2 ^ 20)
    (hlt : start + i * pgSize < 2 ^ 64) :
    u64 (start + u32 (i * pgSize)) = (start / pgSize + i) * pgSize := by
  unfold u64 u32 pgSize at *
  omega

theorem next_address {start i : Nat} (hv : start / pgSize + i < vaPages) :
    start + (i + 1) * pgSize < 2 ^ 64 := by
  unfold vaPages vaMax pgSize at *
  omega

theorem mmapLoop_sat {start i : Nat} (h : Space g s r t) (ha : start % pgSize = 0)
    (hlt : start + i * pgSize < 2 ^ 64) (hn : i + n ≤ 2 ^ 20) (hperm : perm ||| pteU < 2 ^ 10)
    (hE : ¬ (n ≤ (g.free false).length ∧ 2 * n ≤ (g.free true).length ∧
      start / pgSize + i + n ≤ vaPages) → ∀ e, E e)
    (hQ : (0 < n → start / pgSize + i + n ≤ vaPages) → ∀ g' s', Added r t (perm ||| pteU)
        (fun v => start / pgSize + i ≤ v ∧ v < start / pgSize + i + n) n (2 * n) g s g' s' →
        Q () s') :
    Sat (mmapLoop r start perm n i) s G Q E := by
  induction n generalizing g s i with
  | zero =>
      rw [mmapLoop, sat_pure]
      exact hQ (fun hc => absurd hc (Nat.lt_irrefl 0)) g s ((Added.refl h).congr fun v _ =>
        ⟨fun hc => by omega, False.elim⟩)
  | succ n ih =>
      unfold mmapLoop
      refine (pmemAlloc_heap h.heap false (u := .frame r (start / pgSize + i)) trivial).bind
        fun q s₁ ⟨g₁, hg⟩ => ?_
      by_cases hq : q = 0
      · subst hq
        cases hg with
        | some pos => exact absurd pos (Nat.lt_irrefl 0)
        | none hempty =>
            rw [sat_bind]
            refine sat_assert_any (hE (fun hc => ?_) _) fun hc =>
              absurd (of_decide_eq_true hc) (by simp)
            rw [hempty] at hc
            exact absurd hc.1 (Nat.not_succ_le_zero n)
      · rw [sat_bind, sat_assert (decide_eq_true hq), page_address ha (by omega) hlt, sat_bind]
        change Sat _ (s₁.setMem s₁.mem) G _ E
        refine h.mapNew hg hq (fun a hne => absurd rfl hne) hperm (fun hbad => hE fun hc => ?_)
          fun hv g₂ s₂ hnew => ?_
        · exact hbad ⟨by omega, by omega⟩
        · have hu := hnew.user
          have hk := hnew.used
          refine ih hnew.space (next_address hv) (by omega) (fun hbad => hE fun hc => hbad ?_)
            fun hle g' s' hadd => ?_
          · omega
          · refine hQ (fun _ => by omega) g' s' ?_
            exact (hnew.added hadd).congr fun v _ => by omega

theorem growLoop_sat {start i : Nat} (h : Space g s r t) (ha : start % pgSize = 0)
    (hlt : start + i * pgSize < 2 ^ 64) (hn : i + n ≤ 2 ^ 20)
    (hE : ¬ (n ≤ (g.free false).length ∧ 2 * n ≤ (g.free true).length ∧
      start / pgSize + i + n ≤ vaPages) → ∀ e, E e)
    (hQ : ∀ g' s', Added r t (pteR ||| pteW ||| pteU)
        (fun v => start / pgSize + i ≤ v ∧ v < start / pgSize + i + n) n (2 * n) g s g' s' →
        Q () s') :
    Sat (growLoop r start n i) s G Q E := by
  induction n generalizing g s i with
  | zero =>
      rw [growLoop, sat_pure]
      exact hQ g s ((Added.refl h).congr fun v _ => ⟨fun hc => by omega, False.elim⟩)
  | succ n ih =>
      unfold growLoop
      refine (pmemAlloc_heap h.heap false (u := .frame r (start / pgSize + i)) trivial).bind
        fun q s₁ ⟨g₁, hg⟩ => ?_
      by_cases hq : q = 0
      · subst hq
        cases hg with
        | some pos => exact absurd pos (Nat.lt_irrefl 0)
        | none hempty =>
            rw [sat_bind]
            refine sat_assert_any (hE (fun hc => ?_) _) fun hc =>
              absurd (of_decide_eq_true hc) (by simp)
            rw [hempty] at hc
            exact absurd hc.1 (Nat.not_succ_le_zero n)
      · rw [sat_bind, sat_assert (decide_eq_true hq), sat_bind, sat_clearPage,
          page_address ha (by omega) hlt, sat_bind]
        refine h.mapNew hg hq (fun a hne => ?_) (by decide) (fun hbad => hE fun hc => ?_)
          fun hv g₂ s₂ hnew => ?_
        · by_contra hc
          exact hne (splice_out (by omega))
        · exact hbad ⟨by omega, by omega⟩
        · have hu := hnew.user
          have hk := hnew.used
          refine ih hnew.space (next_address hv) (by omega) (fun hbad => hE fun hc =>
            hbad ?_) fun g' s' hadd => ?_
          · omega
          · refine hQ g' s' ?_
            exact (hnew.added hadd).congr fun v _ => by omega

end

end WhuOs.Mem
