import WhuOs.Mem.PageTable

/-! # Specifications of `vm_unmappages` and of maps of single pages

`vm_unmappages` clears the entries of its range; with `freeit` the frames go back
to the allocator. A page is unmappable when none of the checks of the source stops
at it.
-/

namespace WhuOs.Mem

open Prog Bytes

/-- No check of `vm_unmappages` stops at the page. -/
structure Unmappable (s : Kernel) (r : Nat) (freeit : Bool) (v : Nat) : Prop where
  below : v < vaPages
  valid : hasFlag (leaf s.mem r v) pteV = true
  leaf : pteFlags (leaf s.mem r v) ≠ pteV
  managed : freeit = true → Managed s (pteToPa (Mem.leaf s.mem r v))

/-- The uses that unmapping pages with uses `D` touches. -/
inductive UnmapUse (r : Nat) (D : Use → Prop) : Use → Prop
  | free (k : Bool) : UnmapUse r D (.free k)
  | table (x : List Nat) : UnmapUse r D (.table r x)
  | frame {u : Use} (hu : D u) : UnmapUse r D u

/-- The pages `v, ..., v + n - 1` were unmapped. -/
structure Unmapped (r v n : Nat) (D : Use → Prop) (g : Ledger) (s : Kernel) (g' : Ledger)
    (s' : Kernel) : Prop where
  heap : Heap g' s'
  live : g'.Live r
  framed : Framed (UnmapUse r D) g s g' s'
  leaf : ∀ v' < vaPages, leaf s'.mem r v' = if v ≤ v' ∧ v' < v + n then 0 else leaf s.mem r v'
  grows : ∀ k, (g.free k).length ≤ (g'.free k).length
  tops : Tops g s r → Tops g' s' r
  plain : Plain g s r → Plain g' s' r
  homed : Homed g s → Homed g' s'

section

variable {g g' : Ledger} {s s' : Kernel} {k freeit : Bool} {p q r v w n : Nat} {D : Use → Prop}
  {G : Event → Prop} {E : Panic → Prop} {Q : Unit → Kernel → Prop}

theorem Layout.inKernelOf_bounds (h : Layout s) (hm : Managed s q) :
    (s.region (inKernelOf s q)).begin ≤ q ∧ q < (s.region (inKernelOf s q)).stop := by
  obtain ⟨h1, h2⟩ := hm
  have hks := h.kernStop
  have hkb := h.kernBegin
  have hub := h.userBegin
  have hus := h.userStop
  cases hk : inKernelOf s q with
  | true =>
      change s.kern.begin ≤ q ∧ q < s.kern.stop
      have hc := of_decide_eq_true hk
      omega
  | false =>
      change s.user.begin ≤ q ∧ q < s.user.stop
      have hc := of_decide_eq_false hk
      omega

theorem Layout.managed_of_bounds (h : Layout s) (hb : (s.region k).begin ≤ q)
    (hs : q < (s.region k).stop) : Managed s q := by
  have hks := h.kernStop
  have hkb := h.kernBegin
  have hub := h.userBegin
  have hus := h.userStop
  have hr := h.room
  cases k with
  | true =>
      change s.kern.begin ≤ q at hb
      change q < s.kern.stop at hs
      unfold Managed
      omega
  | false =>
      change s.user.begin ≤ q at hb
      change q < s.user.stop at hs
      unfold Managed
      omega

/-- Giving back a frame leaves the tables of a live root alone. -/
theorem Heap.give_leaf (h : Heap g s) (hl : g.Live r) (hq : q % pgSize = 0)
    (hd : (g.own q).IsData) (v : Nat) : Mem.leaf (pushed s k q).mem r v = Mem.leaf s.mem r v := by
  refine h.leaf_frame hl fun p y hp i hi => ?_
  have hpq : p ≠ q := by
    rintro rfl
    rw [hp] at hd
    exact hd
  have hap := pages_apart (h.table_page hp).1 hq hpq
  rw [pushed_mem]
  unfold pgSize at *
  exact splice_out (by omega)

theorem Heap.give_tableAt (h : Heap g s) (hl : g.Live r) (hq : q % pgSize = 0)
    (hd : (g.own q).IsData) (v : Nat) :
    tableAt (pushed s k q).mem r (lowPos v) = tableAt s.mem r (lowPos v) := by
  refine h.tableAt_frame hl (fun _ => mem_lowPos) (Nat.le_refl 2) fun p y hp i hi => ?_
  have hpq : p ≠ q := by
    rintro rfl
    rw [hp] at hd
    exact hd
  have hap := pages_apart (h.table_page hp).1 hq hpq
  rw [pushed_mem]
  unfold pgSize at *
  exact splice_out (by omega)

theorem Heap.give_data (h : Heap g s) (hq : q % pgSize = 0)
    (hr : (s.region k).begin ≤ q ∧ q < (s.region k).stop) (hd : (g.own q).IsData) :
    Heap (g.give k q) (pushed s k q) := by
  refine h.give hq hr (fun j hj => ?_) fun r x hx => ?_
  · rw [hj] at hd
    exact hd.elim
  · rw [hx] at hd
    exact hd.elim

theorem Ledger.give_length (j : Bool) : (g.free j).length ≤ ((g.give k q).free j).length := by
  by_cases hj : j = k
  · subst hj
    change _ ≤ (Function.update g.free j (q :: g.free j) j).length
    rw [Function.update_self]
    exact Nat.le_succ _
  · exact Nat.le_of_eq (congrArg List.length (Function.update_of_ne hj _ _).symm)

/-- Clearing an entry keeps the last bytes of the tables. -/
theorem Tops.clear (h : Heap g s) (hl : g.Live r) (ht : tableAt s.mem r (lowPos v) = some p)
    (htop : Tops g s r) : Tops g (s.setMem (putLE s.mem (pteAt p (vpnIndex v 0)) 8 0)) r := by
  intro p' x hp'
  exact store_top (h.table_page (h.low_own hl ht)).1 (h.table_page hp').1
    (by decide) (htop p' x hp')

theorem Tops.give (h : Heap g s) (hq : q % pgSize = 0) (hd : (g.own q).IsData) (htop : Tops g s r) :
    Tops (g.give k q) (pushed s k q) r := by
  refine Framed.tops (W := fun u => u.IsData ∨ ∃ k, u = .free k)
    (Framed.give hq (.inl hd) (.inr ⟨k, rfl⟩)) h ?_ htop
  rintro y (hy | ⟨k, hy⟩)
  · exact hy
  · cases hy

theorem Plain.give (hpl : Plain g s r) (h : Heap g s) (hq : q % pgSize = 0) (hd : (g.own q).IsData) :
    Plain (g.give k q) (pushed s k q) r := by
  refine Framed.plain (W := fun u => u.IsData ∨ ∃ k, u = .free k)
    (Framed.give hq (.inl hd) (.inr ⟨k, rfl⟩)) h ?_ hpl
  rintro y (hy | ⟨k, hy⟩)
  · exact hy
  · cases hy

theorem Homed.give (h : Homed g s) (hm : Managed s q) : Homed (g.give (inKernelOf s q) q) s := by
  refine h.update rfl (fun k hk => ?_) fun r x i he => ?_
  · exact ⟨hm, Option.some.inj hk⟩
  · cases he

theorem Ledger.give_live (hl : g.Live r) (hd : (g.own q).IsData) : (g.give k q).Live r := by
  refine (Ledger.give_own_ne ?_).trans hl
  rintro rfl
  rw [show g.own r = _ from hl] at hd
  exact hd

/-! ## One page -/

theorem unmapPage_sat (h : Heap g s) (hl : g.Live r)
    (hE : ¬ Unmappable s r freeit v → ∀ e, E e)
    (hG : v < vaPages → freeit = true → G (.pageFreed (pteToPa (leaf s.mem r v))))
    (hd : Unmappable s r freeit v → freeit = true →
      (g.own (pteToPa (leaf s.mem r v))).IsData ∧ D (g.own (pteToPa (leaf s.mem r v))))
    (hQ : Unmappable s r freeit v → ∀ g' s', Unmapped r v 1 D g s g' s' →
      g' = (if freeit then g.give (inKernelOf s (pteToPa (leaf s.mem r v))) (pteToPa (leaf s.mem r v)) else g) →
      Q () s') :
    Sat (unmapPage r freeit (v * pgSize)) s G Q E := by
  have hdiv : v * pgSize / pgSize = v := Nat.mul_div_cancel v (by decide)
  unfold unmapPage
  by_cases hbelow : v < vaPages
  swap
  · unfold vmGetpte
    rw [if_pos (by have := mul_pgSize_lt (v := v); omega), sat_bind, sat_bind, sat_panic]
    exact hE (fun hok => hbelow hok.below) _
  have hv27 := vaPages_le hbelow
  rw [sat_bind, vmGetpte_sat (mul_pgSize_lt.mpr hbelow), hdiv]
  cases ht : tableAt s.mem r (lowPos v) with
  | none =>
      have hz : leaf s.mem r v = 0 := by simp [leaf, ht]
      rw [show slot s.mem r v = 0 by simp [slot, ht], if_pos rfl, sat_bind, sat_panic]
      refine hE (fun hok => ?_) _
      have hval := hok.valid
      rw [hz, hasFlag_zero] at hval
      cases hval
  | some p =>
  have hown := h.low_own hl ht
  have hpos := (h.table_page hown).2
  have hslot : pteAt p (vpnIndex v 0) ≠ 0 := by
    unfold pteAt
    omega
  have hload : getLE s.mem (pteAt p (vpnIndex v 0)) 8 = leaf s.mem r v := (leaf_eq ht).symm
  rw [slot_eq ht, if_neg hslot, sat_bind, sat_load, hload]
  cases hvalid : hasFlag (leaf s.mem r v) pteV with
  | false =>
      rw [Bool.not_false, if_pos rfl, sat_bind, sat_panic]
      exact hE (fun hok => absurd hok.valid (by rw [hvalid]; decide)) _
  | true =>
  rw [Bool.not_true, if_neg (by decide)]
  by_cases hflags : pteFlags (leaf s.mem r v) = pteV
  · rw [if_pos hflags, sat_bind, sat_panic]
    exact hE (fun hok => hok.leaf hflags) _
  rw [if_neg hflags]
  cases freeit with
  | false =>
      have hok : Unmappable s r false v := ⟨hbelow, hvalid, hflags, fun hf => absurd hf (by decide)⟩
      rw [if_neg (by decide), sat_store]
      refine hQ hok g _ ⟨h.storeLeaf hl ht 0, hl, ?_, fun v' hv' => ?_, fun _ => Nat.le_refl _,
        Tops.clear h hl ht, fun hp => hp.storeLeaf h hl ht 0, fun hh => hh.of_rest rfl⟩ rfl
      · exact Framed.storeLeaf h hl ht (.table _)
      · rw [setMem_mem, h.leaf_store hl ht (by decide) hv27 (vaPages_le hv')]
        by_cases hvv : v' = v
        · rw [if_pos hvv, if_pos (by omega)]
        · rw [if_neg hvv, if_neg (by omega)]
  | true =>
      have hqa := pteToPa_aligned (leaf s.mem r v)
      rw [if_pos rfl, sat_bind, sat_state, sat_bind]
      change Sat (pmemFree _ (inKernelOf s (pteToPa (leaf s.mem r v)))) _ _ _ _
      by_cases hman : Managed s (pteToPa (leaf s.mem r v))
      swap
      · -- the allocator does not accept the frame
        refine pmemFree_any h.pools (hE (fun hok => hman (hok.managed rfl)) _) (hG hbelow rfl) fun _ hb hs => ?_
        exact absurd (h.pools.layout.managed_of_bounds hb hs) hman
      have hok : Unmappable s r true v := ⟨hbelow, hvalid, hflags, fun _ => hman⟩
      obtain ⟨hdata, hD⟩ := hd hok rfl
      have hb := h.pools.layout.inKernelOf_bounds hman
      rw [pmemFree_sat h.pools hqa hb]
      refine ⟨hG hbelow rfl, ?_⟩
      have ht' := (h.give_tableAt
        (k := inKernelOf s (pteToPa (leaf s.mem r v))) hl hqa hdata v).trans ht
      have hheap := h.give_data hqa hb hdata
      have hlive := Ledger.give_live (k := inKernelOf s (pteToPa (leaf s.mem r v))) hl hdata
      rw [sat_store]
      refine hQ hok _ _ ⟨hheap.storeLeaf hlive ht' 0, hlive, ?_, fun v' hv' =>
        ?_, Ledger.give_length,
        fun htop => Tops.clear hheap hlive ht' (htop.give h hqa hdata),
        fun hp => (hp.give h hqa hdata).storeLeaf hheap hlive ht' 0,
        fun hh => (hh.give hman).of_rest (rest_pushed s _ _)⟩ rfl
      · exact (Framed.give hqa (.frame hD) (.free _)).trans (Framed.storeLeaf hheap hlive ht' (.table _))
      · rw [setMem_mem, hheap.leaf_store hlive ht' (by decide) hv27 (vaPages_le hv'),
          h.give_leaf hl hqa hdata]
        by_cases hvv : v' = v
        · rw [if_pos hvv, if_pos (by omega)]
        · rw [if_neg hvv, if_neg (by omega)]

/-! ## Ranges -/

/-- What the frames of a range are used for: data, and each by one page of the range. -/
structure Releases (g : Ledger) (s : Kernel) (r v n : Nat) (D : Use → Prop) : Prop where
  data : ∀ v', v ≤ v' → v' < v + n → Unmappable s r true v' →
    (g.own (pteToPa (leaf s.mem r v'))).IsData ∧ D (g.own (pteToPa (leaf s.mem r v')))
  inj : ∀ v₁ v₂, v ≤ v₁ → v₁ < v + n → v ≤ v₂ → v₂ < v + n → Unmappable s r true v₁ →
    Unmappable s r true v₂ → pteToPa (leaf s.mem r v₁) = pteToPa (leaf s.mem r v₂) → v₁ = v₂

theorem Unmapped.refl (h : Heap g s) (hl : g.Live r) (v : Nat) (D : Use → Prop) :
    Unmapped r v 0 D g s g s := by
  refine ⟨h, hl, .refl _ _ _, fun v' _ => ?_, fun _ => Nat.le_refl _, id, id, id⟩
  rw [if_neg (by omega)]

theorem Unmapped.cons {g₁ : Ledger} {s₁ : Kernel} (h : Unmapped r v 1 D g s g₁ s₁)
    (h' : Unmapped r (v + 1) n D g₁ s₁ g' s') : Unmapped r v (n + 1) D g s g' s' := by
  refine ⟨h'.heap, h'.live, h.framed.trans h'.framed, fun v' hv' => ?_,
    fun k => Nat.le_trans (h.grows k) (h'.grows k), fun htop => h'.tops (h.tops htop),
    fun hp => h'.plain (h.plain hp), fun hh => h'.homed (h.homed hh)⟩
  rw [h'.leaf v' hv', h.leaf v' hv']
  by_cases h1 : v + 1 ≤ v' ∧ v' < v + 1 + n
  · rw [if_pos h1, if_pos (by omega)]
  · rw [if_neg h1]
    by_cases h2 : v ≤ v' ∧ v' < v + 1
    · rw [if_pos h2, if_pos (by omega)]
    · rw [if_neg h2, if_neg (by omega)]

/-- After one page of a range the others are as before. -/
theorem Unmapped.unmappable (h : Unmapped r v 1 D g s g' s') {v' : Nat} (hv : v < v') :
    Unmappable s' r freeit v' ↔ Unmappable s r freeit v' := by
  have hleaf : v' < vaPages → Mem.leaf s'.mem r v' = Mem.leaf s.mem r v' := by
    intro hv'
    rw [h.leaf v' hv', if_neg (by omega)]
  have hman : ∀ q, Managed s' q ↔ Managed s q := by
    intro q
    unfold Managed
    rw [rest_allocBegin h.framed.rest]
  constructor
  · rintro ⟨h1, h2, h3, h4⟩
    rw [hleaf h1] at h2 h3 h4
    exact ⟨h1, h2, h3, fun hf => (hman _).mp (h4 hf)⟩
  · rintro ⟨h1, h2, h3, h4⟩
    rw [← hleaf h1] at h2 h3 h4
    exact ⟨h1, h2, h3, fun hf => (hman _).mpr (h4 hf)⟩

theorem Unmapped.releases (h : Unmapped r v 1 D g s g' s') (hok : Unmappable s r true v)
    (hown : ∀ q, q ≠ pteToPa (Mem.leaf s.mem r v) → g'.own q = g.own q)
    (hr : Releases g s r v (n + 1) D) : Releases g' s' r (v + 1) n D := by
  have hleaf : ∀ v', v < v' → v' < vaPages → Mem.leaf s'.mem r v' = Mem.leaf s.mem r v' := by
    intro v' hv hv'
    rw [h.leaf v' hv', if_neg (by omega)]
  refine ⟨fun v' h1 h2 hu => ?_, fun v₁ v₂ h1 h2 h3 h4 hu₁ hu₂ he => ?_⟩
  · have hu' := (h.unmappable (by omega)).mp hu
    rw [hleaf v' (by omega) hu.below, hown]
    · exact hr.data v' (by omega) (by omega) hu'
    · intro he
      have hvv := hr.inj v' v (by omega) (by omega) (Nat.le_refl v) (by omega) hu' hok he
      omega
  · rw [hleaf v₁ (by omega) hu₁.below, hleaf v₂ (by omega) hu₂.below] at he
    exact hr.inj v₁ v₂ (by omega) (by omega) (by omega) (by omega) ((h.unmappable (by omega)).mp hu₁)
      ((h.unmappable (by omega)).mp hu₂) he

theorem unmappagesLoop_sat {stop : Nat} (fuel : Nat) (h : Heap g s) (hl : g.Live r)
    (hn : fuel ≤ n → ∀ e, E e)
    (hstop : ∀ i, (v + i) * pgSize < stop ↔ i < n)
    (hE : (∃ v', v ≤ v' ∧ v' < v + n ∧ ¬ Unmappable s r freeit v') → ∀ e, E e)
    (hG : ∀ v', v ≤ v' → v' < v + n → v' < vaPages → freeit = true → G (.pageFreed (pteToPa (leaf s.mem r v'))))
    (hr : freeit = true → Releases g s r v n D)
    (hQ : (∀ v', v ≤ v' → v' < v + n → Unmappable s r freeit v') →
      ∀ g' s', Unmapped r v n D g s g' s' → Q () s') :
    Sat (unmappagesLoop r stop freeit fuel (v * pgSize)) s G Q E := by
  induction fuel generalizing g s v n with
  | zero => exact (sat_panic _).mpr (hn (Nat.zero_le n) _)
  | succ fuel ih =>
      have h0 := hstop 0
      rw [Nat.add_zero] at h0
      unfold unmappagesLoop
      cases n with
      | zero =>
          rw [if_neg (fun hlt => absurd (h0.mp hlt) (Nat.lt_irrefl 0)), sat_pure]
          exact hQ (fun v' h1 h2 => by omega) g s (.refl h hl v D)
      | succ n =>
          rw [if_pos (h0.mpr (Nat.succ_pos n)), sat_bind]
          refine unmapPage_sat (D := D) h hl (fun hbad => hE ⟨v, Nat.le_refl v, by omega, hbad⟩)
            (hG v (Nat.le_refl v) (by omega)) (fun hok hf => ?_) fun hok g₁ s₁ hu hg₁ => ?_
          · subst hf
            exact (hr rfl).data v (Nat.le_refl v) (by omega) hok
          · rw [u64_next hok.below]
            refine ih hu.heap hu.live (fun hle => hn (Nat.succ_le_succ hle)) (fun i => ?_) ?_ ?_ (fun hf => ?_) ?_
            · rw [Nat.add_assoc, hstop, Nat.add_comm 1 i]
              exact Nat.succ_lt_succ_iff
            · rintro ⟨v', h1, h2, hbad⟩
              exact hE ⟨v', by omega, by omega, fun hc => hbad ((hu.unmappable (by omega)).mpr hc)⟩
            · intro v' h1 h2 hv' hf
              rw [hu.leaf v' hv', if_neg (by omega)]
              exact hG v' (by omega) (by omega) hv' hf
            · subst hf
              refine hu.releases hok (fun q hq => ?_) (hr rfl)
              rw [hg₁]
              exact Ledger.give_own_ne hq
            · intro hall g' s' hu'
              refine hQ (fun v' h1 h2 => ?_) g' s' (hu.cons hu')
              by_cases hvv : v' = v
              · exact hvv ▸ hok
              · exact (hu.unmappable (by omega)).mp (hall v' (by omega) (by omega))

/-- `vm_unmappages` on a range that does not wrap around. -/
theorem vmUnmappages_sat {len : Nat} (h : Heap g s) (hl : g.Live r)
    (hlen : v * pgSize + len < 2 ^ 64)
    (hn : n = (len + (pgSize - 1)) / pgSize)
    (hE : (∃ v', v ≤ v' ∧ v' < v + n ∧ ¬ Unmappable s r freeit v') → ∀ e, E e)
    (hG : ∀ v', v ≤ v' → v' < v + n → v' < vaPages → freeit = true →
      G (.pageFreed (pteToPa (leaf s.mem r v'))))
    (hr : freeit = true → Releases g s r v n D)
    (hQ : (∀ v', v ≤ v' → v' < v + n → Unmappable s r freeit v') →
      ∀ g' s', Unmapped r v n D g s g' s' → Q () s') :
    Sat (vmUnmappages r (v * pgSize) len freeit) s G Q E := by
  unfold vmUnmappages
  rw [if_neg (not_not_intro (Nat.mul_mod_left v pgSize)), u64_of_lt hlen]
  refine unmappagesLoop_sat _ h hl (fun hle => hE ⟨v + vaPages, Nat.le_add_right _ _, ?_, ?_⟩)
    (fun i => ?_) hE hG hr hQ
  · exact Nat.add_lt_add_left hle v
  · exact fun hok => absurd hok.below (Nat.not_lt.mpr (Nat.le_add_left _ _))
  · rw [hn]
    unfold pgSize
    omega

/-- A range that wraps around is empty. -/
theorem vmUnmappages_wrapped {len : Nat} (hlt : u64 (v * pgSize + len) ≤ v * pgSize)
    (hQ : Q () s) :
    Sat (vmUnmappages r (v * pgSize) len freeit) s G Q E := by
  unfold vmUnmappages unmappagesLoop
  rw [if_neg (not_not_intro (Nat.mul_mod_left v pgSize)), if_neg (Nat.not_lt.mpr hlt), sat_pure]
  exact hQ

/-! ## Maps of single pages -/

/-- `vm_mappages` on one page needs pages for its tables only. -/
theorem mapPage_tables {pa perm : Nat} (h : Heap g s) (hl : g.Live r) (hpa : pa < 2 ^ 64)
    (hperm : perm < 2 ^ 64) (hv : v < vaPages) :
    Sat (vmMappages r (v * pgSize) pa pgSize perm) s G
      (fun _ s' => ∃ g', Edited r (fun v' => if v' = v then mapPte pa perm 0 else leaf s.mem r v')
        (tablesFor s.mem r v 0) g s g' s')
      fun e => e = .vmMappagesOom ∧ (g.free true).length < tablesFor s.mem r v 0 := by
  have hlast : (v * pgSize + pgSize - 1) / pgSize = v := by
    unfold pgSize
    omega
  have hdiv : v * pgSize / pgSize = v := Nat.mul_div_cancel v (by decide)
  have hsum : v * pgSize + pgSize ≤ vaMax := by
    unfold vaPages vaMax pgSize at *
    omega
  have hsat := vmMappages_sat (G := G) h hl (by decide) hsum hpa hperm
  rw [hlast, hdiv, Nat.sub_self] at hsat
  have hf : ∀ v', (if v ≤ v' ∧ v' ≤ v then mapPte pa perm (v' - v) else leaf s.mem r v')
      = if v' = v then mapPte pa perm 0 else leaf s.mem r v' := by
    intro v'
    by_cases hvv : v' = v
    · subst hvv
      rw [if_pos ⟨Nat.le_refl _, Nat.le_refl _⟩, if_pos rfl, Nat.sub_self]
    · rw [if_neg (by omega), if_neg hvv]
  simp only [hf] at hsat
  exact hsat

/-- Where the tables are present none is needed. -/
theorem mapPage_present {pa perm : Nat} (h : Heap g s) (hl : g.Live r) (hpa : pa < 2 ^ 64)
    (hperm : perm < 2 ^ 64) (hv : v < vaPages) (ht : tableAt s.mem r (lowPos v) = some p) :
    Sat (vmMappages r (v * pgSize) pa pgSize perm) s G
      (fun _ s' => ∃ g', Edited r (fun v' => if v' = v then mapPte pa perm 0 else leaf s.mem r v') 0
        g s g' s') E := by
  have hcost : tablesFor s.mem r v 0 = 0 := by
    unfold tablesFor
    rw [ht, Nat.add_zero, Nat.sub_self]
    rfl
  have hsat := mapPage_tables (G := G) h hl hpa hperm hv
  rw [hcost] at hsat
  exact hsat.mono (fun _ _ hq => hq) fun e he => absurd he.2 (Nat.not_lt_zero _)

/-- From `VA_MAX` on there are no pages. -/
theorem vmMappages_above {pa perm : Nat} {Q : Unit → Kernel → Prop}
    (hv : vaPages ≤ v) (hE : ∀ e, E e) :
    Sat (vmMappages r (v * pgSize) pa pgSize perm) s G Q E := by
  have hge : ¬ pgRoundDown (v * pgSize) < vaMax := by
    unfold pgRoundDown
    rw [Nat.mul_div_cancel v (by decide), mul_pgSize_lt]
    exact Nat.not_lt.mpr hv
  unfold vmMappages mappagesLoop vmGetpte
  rw [if_neg (by decide), if_pos (Nat.not_lt.mp hge), sat_bind, sat_bind, sat_panic]
  exact hE _

end

end WhuOs.Mem
