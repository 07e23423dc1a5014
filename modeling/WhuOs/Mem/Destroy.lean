import WhuOs.Mem.Space

/-! # Destruction of an address space

`uvm_destroy_pgtbl` takes the trampoline and the trap frame out of the table, walks
it from the root and gives every frame and every table page back. In the ledger the
root is retired first: its tables are dismantled while it is walked. The pages below
one entry of a table are untouched while those below another entry are freed.
-/

namespace WhuOs.Mem

open Prog Bytes

/-- The indices that lead to the entry of a virtual page, the last one first. -/
def vpnPos (v : Nat) : List Nat := vpnIndex v 0 :: lowPos v

/-- Tables and frames below a position. -/
inductive Below (r : Nat) (x : List Nat) : Use → Prop
  | table {y : List Nat} (h : x <:+ y) : Below r x (.table r y)
  | frame {v : Nat} (h : x <:+ vpnPos v) : Below r x (.frame r v)

/-- The uses touched by freeing what is below a position. -/
inductive DestroyUse (r : Nat) (x : List Nat) : Use → Prop
  | free (k : Bool) : DestroyUse r x (.free k)
  | below {u : Use} (h : Below r x u) : DestroyUse r x u

/-- The uses touched by freeing what the entries of a table lead to. -/
inductive UnderUse (r : Nat) (x : List Nat) : Use → Prop
  | free (k : Bool) : UnderUse r x (.free k)
  | below {u : Use} (j : Nat) (h : Below r (j :: x) u) : UnderUse r x u

/-- The entries of a table page lead to pages of the right use, `level` tables deep. -/
def Subtree (g : Ledger) (m : Bytes) (r : Nat) : Nat → Nat → List Nat → Prop
  | 0, p, x => ∀ j < 512, hasFlag (entry m p j) pteV = true →
      ∃ v, vpnPos v = j :: x ∧ g.own (pteToPa (entry m p j)) = .frame r v
  | level + 1, p, x => ∀ j < 512, hasFlag (entry m p j) pteV = true →
      g.own (pteToPa (entry m p j)) = .table r (j :: x) ∧
        Subtree g m r level (pteToPa (entry m p j)) (j :: x)

/-- Pages of a retired root were given back. -/
structure Gone (r : Nat) (W : Use → Prop) (g : Ledger) (s : Kernel) (g' : Ledger) (s' : Kernel) :
    Prop where
  heap : Heap g' s'
  homed : Homed g' s'
  framed : Framed W g s g' s'
  dead : ¬ g'.Live r
  grows : ∀ k, (g.free k).length ≤ (g'.free k).length

section

variable {g g' g'' : Ledger} {s s' s'' : Kernel} {k : Bool}
  {p q r t i n v level : Nat} {x y : List Nat}
  {W W' : Use → Prop} {E : Panic → Prop}

/-! ## Positions -/

/-- What is below one entry is not below another. -/
theorem suffix_cons_inj {j : Nat} (h : i :: x <:+ y) (h' : j :: x <:+ y) : i = j := by
  have hs : i :: x <:+ j :: x := List.suffix_of_suffix_length_le h h' (Nat.le_refl _)
  exact (List.cons.inj (hs.eq_of_length rfl)).1

theorem Below.apart {u : Use} {j : Nat} (h : Below r (i :: x) u) (h' : Below r (j :: x) u) :
    i = j := by
  cases h with
  | table h =>
      cases h' with
      | table h' => exact suffix_cons_inj h h'
  | frame h =>
      cases h' with
      | frame h' => exact suffix_cons_inj h h'

theorem Below.under {u : Use} (h : Below r (i :: x) u) : Below r x u := by
  cases h with
  | table h => exact .table ((List.suffix_cons i x).trans h)
  | frame h => exact .frame ((List.suffix_cons i x).trans h)

/-- A table page is not below its own entries. -/
theorem not_under_self (r : Nat) (x : List Nat) : ¬ UnderUse r x (.table r x) := by
  intro h
  cases h with
  | below j h =>
      cases h with
      | table h =>
          have hlen := h.length_le
          rw [List.length_cons] at hlen
          omega

theorem DestroyUse.under {u : Use} (h : DestroyUse r (i :: x) u) : UnderUse r x u := by
  cases h with
  | free k => exact .free k
  | below h => exact .below i h

theorem UnderUse.destroy {u : Use} (h : UnderUse r x u) : DestroyUse r x u := by
  cases h with
  | free k => exact .free k
  | below j h => exact .below h.under

/-! ## Frames -/

theorem Gone.trans (h : Gone r W g s g' s') (h' : Gone r W g' s' g'' s'') : Gone r W g s g'' s'' :=
  ⟨h'.heap, h'.homed, h.framed.trans h'.framed, h'.dead, fun k =>
    Nat.le_trans (h.grows k) (h'.grows k)⟩

theorem Gone.mono (h : Gone r W g s g' s') (hW : ∀ u, W u → W' u) : Gone r W' g s g' s' :=
  ⟨h.heap, h.homed, h.framed.mono hW, h.dead, h.grows⟩

/-- A subtree is kept by work on other pages. -/
theorem Subtree.frame (h : Subtree g s.mem r level p x) (hheap : Heap g s) (hf : Framed W g s g' s')
    (hp : ∀ i < pgSize, s'.mem (p + i) = s.mem (p + i)) (hW : ∀ j u, Below r (j :: x) u → ¬ W u) :
    Subtree g' s'.mem r level p x := by
  induction level generalizing p x with
  | zero =>
      intro j hj hv
      rw [entry_congr hj hp] at hv ⊢
      obtain ⟨v, hpos, hown⟩ := h j hj hv
      refine ⟨v, hpos, ?_⟩
      have hb : Below r (j :: x) (.frame r v) := .frame (hpos ▸ List.suffix_rfl)
      rw [hf.own_eq (hown ▸ hW j _ hb), hown]
  | succ level ih =>
      intro j hj hv
      rw [entry_congr hj hp] at hv ⊢
      obtain ⟨hown, hsub⟩ := h j hj hv
      have hb : Below r (j :: x) (.table r (j :: x)) := .table List.suffix_rfl
      have hkeep : ¬ W (g.own (pteToPa (entry s.mem p j))) := hown ▸ hW j _ hb
      refine ⟨by rw [hf.own_eq hkeep, hown], ih hsub ?_ fun j' u hu => hW j u hu.under⟩
      exact hf.mem _ (hheap.table_page hown).1 hkeep

/-! ## Giving back one page -/

theorem freePage_sat {Q : Unit → Kernel → Prop} (h : Heap g s) (hh : Homed g s)
    (hne : g.own q ≠ .other)
    (hpool : Managed s q ∧ inKernelOf s q = k) (hfree : ∀ j, g.own q ≠ .free j)
    (hold : ∀ r x, g.own q = .table r x → ¬ g.Live r) (hdead : ¬ g.Live r) (hW : W (g.own q))
    (hk : W (.free k))
    (hQ : ∀ g' s', Gone r W g s g' s' → (∀ p, p ≠ q → g'.own p = g.own p) → Q () s') :
    Sat (pmemFree q k) s (fun _ => True) Q E := by
  obtain ⟨hman, hin⟩ := hpool
  have hq := h.page q hne
  have hb := h.pools.layout.inKernelOf_bounds hman
  rw [hin] at hb
  have hlive : ∀ r', ¬ g.Live r' → ¬ (g.give k q).Live r' := by
    intro r' hr' hc
    by_cases hrq : r' = q
    · subst hrq
      unfold Ledger.Live at hc
      rw [Ledger.give_own_self] at hc
      cases hc
    · exact hr' ((Ledger.give_own_ne hrq).symm.trans hc)
  rw [pmemFree_sat h.pools hq.1 hb]
  refine ⟨trivial, hQ _ _ ⟨h.give hq.1 hb hfree fun r' x hx => hlive r' (hold r' x hx), ?_,
    Framed.give hq.1 hW hk, hlive r hdead, Ledger.give_length⟩ fun p hp => Ledger.give_own_ne hp⟩
  have hgive := hh.give hman
  rw [hin] at hgive
  exact hgive.of_rest (rest_pushed s k q)

/-! ## The walk -/

theorem sat_loadEntry {G : Event → Prop} {Q : Nat → Kernel → Prop} :
    Sat (load (pteAt p i)) s G Q E ↔ Q (entry s.mem p i) s := sat_load

theorem destroyLeaves_sat (h : Heap g s) (hh : Homed g s) (hdead : ¬ g.Live r) (hp : p % pgSize = 0)
    (hkeep : ¬ UnderUse r x (g.own p)) (hn : i + n = 512)
    (hsub : ∀ j, i ≤ j → j < 512 → hasFlag (entry s.mem p j) pteV = true →
      ∃ v, vpnPos v = j :: x ∧ g.own (pteToPa (entry s.mem p j)) = .frame r v) :
    Sat (destroyLeaves p n i) s (fun _ => True)
      (fun _ s' => ∃ g', Gone r (UnderUse r x) g s g' s') E := by
  induction n generalizing g s i with
  | zero =>
      rw [destroyLeaves, sat_pure]
      exact ⟨g, h, hh, .refl _ _ _, hdead, fun _ => Nat.le_refl _⟩
  | succ n ih =>
      unfold destroyLeaves
      rw [sat_bind, sat_loadEntry]
      by_cases hc : (hasFlag (entry s.mem p i) pteV && !pteCheck (entry s.mem p i)) = true
      · rw [if_pos hc, sat_bind]
        obtain ⟨v, hpos, hown⟩ := hsub i (Nat.le_refl i) (by omega) (Bool.and_eq_true_iff.mp hc).1
        have hb : Below r (i :: x) (.frame r v) := .frame (hpos ▸ List.suffix_rfl)
        refine freePage_sat (r := r) (W := DestroyUse r (i :: x)) h hh
          (by rw [hown]; exact Use.noConfusion)
          (hh.home _ _ (by rw [hown]; rfl)) (fun j hj => by rw [hown] at hj; cases hj)
          (fun r' x' hx => by rw [hown] at hx; cases hx) hdead
          (by rw [hown]; exact .below hb) (.free false) fun g₁ s₁ hg hsame => ?_
        have hmem : ∀ i < pgSize, s₁.mem (p + i) = s.mem (p + i) :=
          hg.framed.mem p hp fun hd => hkeep hd.under
        have hpown : g₁.own p = g.own p := hg.framed.own_eq fun hd => hkeep hd.under
        refine (ih hg.heap hg.homed hg.dead (hpown ▸ hkeep) (by omega) fun j hj hlt hv => ?_).imp ?_
        · rw [entry_congr hlt hmem] at hv ⊢
          obtain ⟨w, hw, hwown⟩ := hsub j (by omega) hlt hv
          refine ⟨w, hw, ?_⟩
          rw [hsame, hwown]
          intro he
          rw [he, hown] at hwown
          obtain ⟨-, rfl⟩ := Use.frame.inj hwown
          rw [hpos] at hw
          have hij := (List.cons.inj hw).1
          omega
        · rintro - s' ⟨g', hg'⟩
          exact ⟨g', (hg.mono fun u hu => hu.under).trans hg'⟩
      · rw [if_neg hc]
        exact ih h hh hdead hkeep (by omega) fun j hj => hsub j (by omega)

theorem destroyEntries_sat {child : Nat → MemM Unit}
    (hchild : ∀ (g : Ledger) (s : Kernel) (c : Nat) (y : List Nat), Heap g s →
      Homed g s → ¬ g.Live r →
      c % pgSize = 0 → ¬ UnderUse r y (g.own c) → Subtree g s.mem r level c y →
      Sat (child c) s (fun _ => True) (fun _ s' => ∃ g', Gone r (UnderUse r y) g s g' s') E)
    (h : Heap g s) (hh : Homed g s) (hdead : ¬ g.Live r) (hp : p % pgSize = 0)
    (hkeep : ¬ UnderUse r x (g.own p)) (hn : i + n = 512)
    (hsub : ∀ j, i ≤ j → j < 512 → hasFlag (entry s.mem p j) pteV = true →
      g.own (pteToPa (entry s.mem p j)) = .table r (j :: x) ∧
        Subtree g s.mem r level (pteToPa (entry s.mem p j)) (j :: x)) :
    Sat (destroyEntries child p n i) s (fun _ => True)
      (fun _ s' => ∃ g', Gone r (UnderUse r x) g s g' s') E := by
  induction n generalizing g s i with
  | zero =>
      rw [destroyEntries, sat_pure]
      exact ⟨g, h, hh, .refl _ _ _, hdead, fun _ => Nat.le_refl _⟩
  | succ n ih =>
      unfold destroyEntries
      rw [sat_bind, sat_loadEntry]
      -- the rest of the loop, after what is below entry `i` was freed
      have hrest : ∀ g₁ s₁, Gone r (DestroyUse r (i :: x)) g s g₁ s₁ →
          Sat (destroyEntries child p n (i + 1)) s₁ (fun _ => True)
            (fun _ s' => ∃ g', Gone r (UnderUse r x) g s g' s') E := by
        intro g₁ s₁ hg
        have hmem : ∀ i < pgSize, s₁.mem (p + i) = s.mem (p + i) :=
          hg.framed.mem p hp fun hd => hkeep hd.under
        have hpown : g₁.own p = g.own p := hg.framed.own_eq fun hd => hkeep hd.under
        refine (ih hg.heap hg.homed hg.dead (hpown ▸ hkeep) (by omega) fun j hj hlt hv => ?_).imp ?_
        · rw [entry_congr hlt hmem] at hv ⊢
          obtain ⟨hown, htree⟩ := hsub j (by omega) hlt hv
          have hapart : ∀ u, Below r (j :: x) u → ¬ DestroyUse r (i :: x) u := by
            intro u hu hd
            cases hd with
            | free k => cases hu
            | below hd =>
                have hij := hd.apart hu
                omega
          have hcown : ¬ DestroyUse r (i :: x) (g.own (pteToPa (entry s.mem p j))) :=
            hapart _ (hown ▸ .table List.suffix_rfl)
          refine ⟨(hg.framed.own_eq hcown).trans hown,
            htree.frame h hg.framed ?_ fun j' u hu => hapart u hu.under⟩
          exact hg.framed.mem _ (h.table_page hown).1 hcown
        · rintro - s' ⟨g', hg'⟩
          exact ⟨g', (hg.mono fun u hu => hu.under).trans hg'⟩
      have hnone : Gone r (DestroyUse r (i :: x)) g s g s :=
        ⟨h, hh, .refl _ _ _, hdead, fun _ => Nat.le_refl _⟩
      cases hv : hasFlag (entry s.mem p i) pteV with
      | false =>
          rw [if_neg (by decide)]
          exact hrest g s hnone
      | true =>
          rw [if_pos rfl]
          cases hchk : pteCheck (entry s.mem p i) with
          | false =>
              rw [if_neg (by decide)]
              exact hrest g s hnone
          | true =>
              obtain ⟨hown, htree⟩ := hsub i (Nat.le_refl i) (by omega) hv
              have hca := (h.table_page hown).1
              rw [if_pos rfl, sat_bind]
              refine (hchild g s _ (i :: x) h hh hdead hca
                (hown ▸ not_under_self r (i :: x)) htree).imp ?_
              rintro - s₁ ⟨g₁, hg⟩
              have hown₁ : g₁.own (pteToPa (entry s.mem p i)) = .table r (i :: x) :=
                (hg.framed.own_eq (hown ▸ not_under_self r (i :: x))).trans hown
              rw [sat_bind]
              refine freePage_sat (r := r) (W := DestroyUse r (i :: x)) hg.heap hg.homed
                (q := pteToPa (entry s.mem p i)) (by rw [hown₁]; exact Use.noConfusion)
                (hg.homed.home _ _ (by rw [hown₁]; rfl)) (fun j hj => by rw [hown₁] at hj; cases hj)
                  (fun r' x' hx => ?_) hg.dead
                (by rw [hown₁]; exact .below (.table List.suffix_rfl))
                  (.free true) fun g₂ s₂ hg₂ _ => ?_
              · rw [hown₁] at hx
                obtain ⟨rfl, -⟩ := Use.table.inj hx
                exact hg.dead
              · exact hrest g₂ s₂ ((hg.mono fun u hu => hu.destroy).trans hg₂)

theorem destroyPgtbl_sat (level : Nat) (h : Heap g s) (hh : Homed g s) (hdead : ¬ g.Live r)
    (hp : p % pgSize = 0) (hkeep : ¬ UnderUse r x (g.own p)) (hsub : Subtree g s.mem r level p x) :
    Sat (destroyPgtbl level p) s (fun _ => True)
      (fun _ s' => ∃ g', Gone r (UnderUse r x) g s g' s') E := by
  induction level generalizing g s p x with
  | zero =>
      exact destroyLeaves_sat h hh hdead hp hkeep rfl fun j _ hj hv => hsub j hj hv
  | succ level ih =>
      refine destroyEntries_sat (fun g s c y h hh hd hc hk ht =>
        ih h hh hd hc hk ht) h hh hdead hp hkeep rfl
        fun j _ hj hv => hsub j hj hv

/-! ## The entries of the kernel -/

theorem slot_zero (h : Heap g s) (hl : g.Live r) (hz : slot s.mem r v = 0) :
    leaf s.mem r v = 0 := by
  cases ht : tableAt s.mem r (lowPos v) with
  | none => simp [leaf, ht]
  | some p =>
      have hpos := (h.table_page (h.low_own hl ht)).2
      rw [slot_eq ht] at hz
      unfold pteAt at hz
      omega

structure Cleared (r t v : Nat) (g : Ledger) (s s' : Kernel) : Prop where
  space : Space g s' r t
  framed : Framed (fun u => ∃ x, u = .table r x) g s g s'
  leaf : ∀ v' < vaPages, leaf s'.mem r v' = if v' = v then 0 else leaf s.mem r v'

theorem Space.clear (h : Space g s r t) (hv : v < vaPages) :
    if slot s.mem r v ≠ 0 then Cleared r t v g s (s.setMem (putLE s.mem (slot s.mem r v) 8 0))
    else Cleared r t v g s s := by
  split
  · next hs =>
    cases ht : tableAt s.mem r (lowPos v) with
    | none => exact absurd (by simp [slot, ht]) hs
    | some p =>
        rw [slot_eq ht]
        have hleaf : ∀ v' < vaPages, Mem.leaf (putLE s.mem (pteAt p (vpnIndex v 0)) 8 0) r v'
            = if v' = v then 0 else Mem.leaf s.mem r v' :=
          fun v' hv' => h.heap.leaf_store h.live ht (by decide) (vaPages_le hv) (vaPages_le hv')
        refine ⟨⟨h.heap.storeLeaf h.live ht 0, h.homed.of_rest rfl, h.live, h.pool,
          Tops.clear h.heap h.live ht h.tops, fun v' hv' hval => ?_⟩,
          Framed.storeLeaf h.heap h.live ht ⟨_, rfl⟩, hleaf⟩
        rw [setMem_mem, hleaf v' hv'] at hval ⊢
        by_cases hvv : v' = v
        · rw [if_pos hvv, hasFlag_zero] at hval
          cases hval
        · rw [if_neg hvv] at hval ⊢
          exact h.leaf v' hv' hval
  · next hs =>
    refine ⟨h, .refl _ _ _, fun v' _ => ?_⟩
    split
    · next hvv =>
      subst hvv
      exact slot_zero h.heap h.live (not_not.mp hs)
    · rfl

/-- The page number of three indices. -/
theorem vpnPos_digits {i j n : Nat} (hi : i < 512) (hj : j < 512) (hn : n < 512) :
    vpnPos (n * 512 ^ 2 + j * 512 + i) = [i, j, n] := by
  unfold vpnPos lowPos vpnIndex
  norm_num
  omega

/-- Without the entries of the kernel a space consists of its own pages. -/
theorem Space.subtree (h : Space g s r t) (htr : Mem.leaf s.mem r trampolineVpn = 0)
    (htf : Mem.leaf s.mem r trapframeVpn = 0) : Subtree g s.mem r 2 r [] := by
  intro n hn hvn
  have hown₁ := h.heap.child r r [] n h.live h.live Nat.zero_lt_two hn hvn
  have htop := h.homed.top _ r [] n hown₁
  refine ⟨hown₁, fun j hj hvj => ?_⟩
  refine ⟨h.heap.child r _ [n] j h.live hown₁ Nat.one_lt_two hj hvj, fun i hi hvi => ?_⟩
  have hpos := vpnPos_digits hi hj hn
  have hlow : lowPos (n * 512 ^ 2 + j * 512 + i) = [j, n] := (List.cons.inj hpos).2
  have htab : tableAt s.mem r (lowPos (n * 512 ^ 2 + j * 512 + i)) =
      some (pteToPa (entry s.mem (pteToPa (entry s.mem r n)) j)) := by
    rw [hlow]
    exact tableAt_cons.mpr ⟨_, tableAt_cons.mpr ⟨r, rfl, hvn, rfl⟩, hvj, rfl⟩
  have hleaf : Mem.leaf s.mem r (n * 512 ^ 2 + j * 512 + i)
      = entry s.mem (pteToPa (entry s.mem (pteToPa (entry s.mem r n)) j)) i := by
    rw [leaf_eq htab, (List.cons.inj hpos).1]
  have hv : n * 512 ^ 2 + j * 512 + i < vaPages := by
    unfold vaPages vaMax pgSize
    omega
  refine ⟨_, hpos, ?_⟩
  rw [← hleaf] at hvi ⊢
  rcases h.leaf _ hv hvi with h1 | h1 | h1
  · exact h1
  · rw [h1.1, htr, hasFlag_zero] at hvi
    cases hvi
  · rw [h1.1, htf, hasFlag_zero] at hvi
    cases hvi

/-! ## Retired roots -/

/-- The uses that the destruction of an address space touches. -/
inductive RootUse (r : Nat) : Use → Prop
  | free (k : Bool) : RootUse r (.free k)
  | table (x : List Nat) : RootUse r (.table r x)
  | frame (v : Nat) : RootUse r (.frame r v)
  | retired : RootUse r (.retired r)

theorem not_rootUse_trapframe {r : Nat} {q : ProcId} : ¬ RootUse r (.trapframe q) := nofun

theorem RootUse.user {r : Nat} {u : Use} (h : RootUse r u) : UserUse r u := by
  cases h with
  | free k => exact .free k
  | table x => exact .table x
  | frame v => exact .frame v
  | retired => exact .retired

def Ledger.sweep (g : Ledger) (r : Nat) : Ledger where
  own q :=
    match g.own q with
    | .table r' x => if r' = r then .retired r else .table r' x
    | u => u
  free := g.free

theorem Ledger.sweep_own (g : Ledger) (r q : Nat) :
    (∃ x, g.own q = .table r x) ∧ (g.sweep r).own q = .retired r ∨
      (∀ x, g.own q ≠ .table r x) ∧ (g.sweep r).own q = g.own q := by
  unfold Ledger.sweep
  dsimp only
  cases hq : g.own q with
  | table r' x =>
      by_cases hr : r' = r
      · subst hr
        exact .inl ⟨⟨x, rfl⟩, if_pos rfl⟩
      · exact .inr ⟨fun y hy => hr (Use.table.inj hy).1, if_neg hr⟩
  | _ => exact .inr ⟨fun _ => Use.noConfusion, rfl⟩

theorem Gone.sweep (h : Gone r (RootUse r) g s g' s') :
    Gone r (RootUse r) g s (g'.sweep r) s' ∧ ∀ q x, (g'.sweep r).own q ≠ .table r x := by
  have hnot : ∀ q x, (g'.sweep r).own q ≠ .table r x := by
    intro q x hq
    rcases g'.sweep_own r q with ⟨-, h1⟩ | ⟨h1, h2⟩
    · rw [h1] at hq
      cases hq
    · rw [h2] at hq
      exact h1 x hq
  have hkeep : ∀ q u, u ≠ .retired r → (g'.sweep r).own q = u → g'.own q = u := by
    intro q u hu hq
    rcases g'.sweep_own r q with ⟨-, h1⟩ | ⟨-, h2⟩
    · exact absurd (hq.symm.trans h1) hu
    · exact h2.symm.trans hq
  have hfwd : ∀ q u, (∀ x, u ≠ .table r x) → g'.own q = u → (g'.sweep r).own q = u := by
    intro q u hu hq
    rcases g'.sweep_own r q with ⟨⟨x, h1⟩, -⟩ | ⟨-, h2⟩
    · exact absurd (hq.symm.trans h1) (hu x)
    · exact h2.trans hq
  refine ⟨⟨⟨h.heap.pools, fun q k => ?_, fun q hq => ?_, fun q r' hq =>
    ?_, fun r' q x i hl hq hx hi hv => ?_⟩,
    ⟨fun q k hq => ?_, fun q r' x i hq => ?_⟩, ⟨fun q => ?_, h.framed.mem, h.framed.rest⟩,
    fun hl => hnot r [] hl,
    h.grows⟩, hnot⟩
  · constructor
    · exact fun hm => hfwd q _ (fun x => Use.noConfusion) ((h.heap.free_iff q k).mp hm)
    · exact fun ho => (h.heap.free_iff q k).mpr (hkeep q _ Use.noConfusion ho)
  · refine h.heap.page q fun hc => hq ?_
    exact hfwd q _ (fun x => Use.noConfusion) hc
  · exact h.heap.root q r' (hkeep q _ Use.noConfusion hq)
  · have hrr : ∀ y, Use.table r' (i :: x) ≠ .table r y := by
      rintro y he
      obtain ⟨rfl, -⟩ := Use.table.inj he
      exact hnot _ _ hl
    exact hfwd _ _ hrr
      (h.heap.child r' q x i (hkeep r' _ Use.noConfusion hl)
        (hkeep q _ Use.noConfusion hq) hx hi hv)
  · refine h.homed.home q k ?_
    rcases g'.sweep_own r q with ⟨-, h1⟩ | ⟨-, h2⟩
    · rw [h1] at hq
      cases hq
    · rwa [h2] at hq
  · exact h.homed.top q r' x i (hkeep q _ Use.noConfusion hq)
  · rcases g'.sweep_own r q with ⟨⟨x, h1⟩, h2⟩ | ⟨-, h2⟩
    · rw [h2]
      rcases h.framed.own q with h3 | h3
      · rw [← h3, h1]
        exact .inr ⟨.table x, .retired⟩
      · exact .inr ⟨h3.1, .retired⟩
    · rw [h2]
      exact h.framed.own q

theorem UnderUse.root {u : Use} (h : UnderUse r x u) : RootUse r u := by
  cases h with
  | free k => exact .free k
  | below j h =>
      cases h with
      | table h => exact .table _
      | frame h => exact .frame _

/-! ## `uvm_destroy_pgtbl` -/

theorem uvmDestroyPgtbl_sat {Q : Unit → Kernel → Prop} (h : Space g s r t)
    (hQ : ∀ g' s', Gone r (RootUse r) g s g' s' → (∀ q x, g'.own q ≠ .table r x) → Q () s') :
    Sat (uvmDestroyPgtbl r) s (fun _ => True) Q E := by
  -- the walk, when the two entries are gone
  have hwalk : ∀ s₂, Space g s₂ r t → Framed (RootUse r) g s g s₂ →
    leaf s₂.mem r trampolineVpn = 0 →
      leaf s₂.mem r trapframeVpn = 0 →
      Sat (do destroyPgtbl 2 r; pmemFree r false) s₂ (fun _ => True) Q E := by
    intro s₂ h₂ hf htr htf
    have hra := (h₂.heap.table_page h₂.live)
    have hown : (g.set r (.retired r)).own r = .retired r := Ledger.set_own_self
    have hdead : ¬ (g.set r (.retired r)).Live r := by
      unfold Ledger.Live
      rw [hown]
      exact Use.noConfusion
    have hheap : Heap (g.set r (.retired r)) s₂ := by
      refine h₂.heap.reown hra (fun k hk => ?_) (fun r' x hx => ?_) trivial
      · rw [show g.own r = _ from h₂.live] at hk
        cases hk
      · rw [show g.own r = _ from h₂.live] at hx
        obtain ⟨rfl, -⟩ := Use.table.inj hx
        exact hdead
    have hhomed : Homed (g.set r (.retired r)) s₂ := h₂.homed.move rfl trivial (.inr rfl)
    have hset : Framed (fun u => u = .table r [] ∨ u = .retired r) g s₂ (g.set r (.retired r)) s₂ :=
      Framed.set (.inl h₂.live) (.inr rfl)
    have hset' : Framed (RootUse r) g s₂ (g.set r (.retired r)) s₂ :=
      hset.mono fun u hu => by
        rcases hu with rfl | rfl
        · exact .table []
        · exact .retired
    have hsub : Subtree (g.set r (.retired r)) s₂.mem r 2 r [] := by
      refine (h₂.subtree htr htf).frame h₂.heap hset (fun _ _ => rfl) fun j u hu => ?_
      rintro (rfl | rfl)
      · cases hu with
        | table hs => exact absurd hs.length_le (by simp)
      · cases hu
    have hkeep : ¬ UnderUse r [] ((g.set r (.retired r)).own r) := by
      rw [hown]
      rintro ⟨⟩
      next hb => cases hb
    rw [sat_bind]
    refine (destroyPgtbl_sat 2 hheap hhomed hdead hra.1 hkeep hsub).imp ?_
    rintro - s₃ ⟨g₃, hg⟩
    have hown₃ : g₃.own r = .retired r := (hg.framed.own_eq hkeep).trans hown
    refine freePage_sat (r := r) (W := RootUse r) hg.heap hg.homed
      (by rw [hown₃]; exact Use.noConfusion)
      (h₂.pool_of_rest hg.framed.rest) (fun j hj => by rw [hown₃] at hj; cases hj)
      (fun r' x hx => by rw [hown₃] at hx; cases hx) hg.dead (hown₃ ▸ .retired) (.free false)
      fun g₄ s₄ hg₄ _ => ?_
    have hall : Gone r (RootUse r) g s g₄ s₄ :=
      ⟨hg₄.heap, hg₄.homed,
        (hf.trans hset').trans ((hg.framed.mono fun u hu => hu.root).trans hg₄.framed),
        hg₄.dead, fun k => Nat.le_trans (hg.grows k) (hg₄.grows k)⟩
    exact hQ _ _ hall.sweep.1 hall.sweep.2
  have htrv : trampolineVa / pgSize = trampolineVpn := rfl
  have htfv : trapframeVa / pgSize = trapframeVpn := rfl
  have hroot : ∀ {s₁ s₂ : Kernel} {v : Nat}, Cleared r t v g s₁ s₂ →
    Framed (RootUse r) g s₁ g s₂ := by
    intro s₁ s₂ v hc
    refine hc.framed.mono fun u hu => ?_
    obtain ⟨x, rfl⟩ := hu
    exact .table x
  -- the trap frame, when the trampoline is gone
  have hsecond : ∀ s₁, Cleared r t trampolineVpn g s s₁ →
      Sat (do
        let pteTrapframe ← vmGetpte r trapframeVa false
        if pteTrapframe ≠ 0 then store pteTrapframe 0
        destroyPgtbl 2 r
        pmemFree r false) s₁ (fun _ => True) Q E := by
    intro s₁ h₁
    have hlast : ∀ s₂, Cleared r t trapframeVpn g s₁ s₂ →
        Sat (do destroyPgtbl 2 r; pmemFree r false) s₂ (fun _ => True) Q E := by
      intro s₂ h₂
      refine hwalk s₂ h₂.space ((hroot h₁).trans (hroot h₂)) ?_ ?_
      · rw [h₂.leaf _ (by decide), if_neg (by decide), h₁.leaf _ (by decide), if_pos rfl]
      · rw [h₂.leaf _ (by decide), if_pos rfl]
    have hcl := h₁.space.clear (v := trapframeVpn) (by decide)
    rw [sat_bind, vmGetpte_sat (by decide), htfv]
    split at hcl
    · next hs =>
      rw [if_pos hs, sat_bind, sat_store]
      exact hlast _ hcl
    · next hs =>
      rw [if_neg hs]
      exact hlast _ hcl
  have hcl := h.clear (v := trampolineVpn) (by decide)
  unfold uvmDestroyPgtbl
  rw [sat_bind, vmGetpte_sat (by decide), htrv]
  split at hcl
  · next hs =>
    rw [if_pos hs, sat_bind, sat_store]
    exact hsecond _ hcl
  · next hs =>
    rw [if_neg hs]
    exact hsecond _ hcl

end

end WhuOs.Mem
