import WhuOs.Mem.CopySpace

/-! # The address space that `sys_exec` builds

An image is a partial map from virtual pages to flags and bytes. The table under construction maps
the pages of the image to frames of its own and nothing else but the trampoline and the trap frame.
The memory of all processes is kept meanwhile; only the page of the trap frame may be written.
-/

namespace WhuOs.Mem

open Prog Bytes

structure Page where
  perm : Nat
  data : Bytes

abbrev Pages := Nat → Option Page

def Pages.clear (P : Pages) (perm v n : Nat) : Pages := fun w =>
  if v ≤ w ∧ w < v + n then some ⟨perm, fun _ => 0⟩ else P w

/-- `n` bytes of page `v` from offset `o` on are written. -/
def Pages.write (P : Pages) (v o : Nat) (b : Bytes) (n : Nat) : Pages := fun w =>
  if w = v then (P w).map fun a => { a with data := splice a.data o b n } else P w

def Pages.Same (P' P : Pages) : Prop := ∀ v, (P' v).map Page.perm = (P v).map Page.perm

def bareLeaf (s : Kernel) (t v : Nat) : Nat :=
  if v = trapframeVpn then trapframePte t else if v = trampolineVpn then trampolinePte s else 0

/-- Page `v` is mapped to the frame `q`, with the flags and the bytes of `a`. -/
structure PageBacked (g : Ledger) (s : Kernel) (r v : Nat) (a : Page) (q : Nat) : Prop where
  leaf : leaf s.mem r v = mapPte q a.perm 0
  own : g.own q = .frame r v
  page : q % pgSize = 0 ∧ q < physTop
  perm : a.perm < 2 ^ 10
  data : ∀ i < pgSize, s.mem (q + i) = a.data i

/-- The table maps the image. -/
structure Backed (g : Ledger) (s : Kernel) (r t : Nat) (P : Pages) : Prop where
  page : ∀ v < vaPages, ∀ a, P v = some a → ∃ q, PageBacked g s r v a q
  bare : ∀ v < vaPages, P v = none → leaf s.mem r v = bareLeaf s t v

/-- The table of root `r` maps the image `P`, made since the state `s` from `a` user pages and at
most `b` kernel pages. -/
structure Built (A : ProcId → Prop) (p : ProcId) (r : Nat) (P : Pages) (a b : Nat)
    (g : Ledger) (s : Kernel)
    (g' : Ledger) (s' : Kernel) : Prop where
  world : World A g' s'
  space : Space g' s' r (s.procs p).tf
  other : ∀ q, A q → (s.procs q).pgtbl ≠ r
  kernel : r ≠ s.kernelPgtbl
  trap : g'.own (s.procs p).tf = .trapframe p
  backed : Backed g' s' r (s.procs p).tf P
  framed : Framed (BuildUse r p) g s g' s'
  user : (g.free false).length = (g'.free false).length + a
  used : (g.free true).length ≤ (g'.free true).length + b

section

variable {A : ProcId → Prop} {g g' g₁ g₂ : Ledger} {s s' s₁ s₂ : Kernel} {p : ProcId}
  {r t v w n q perm a b : Nat} {P : Pages}
  {m m₁ : Bytes} {G : Event → Prop} {E : Panic → Prop}

theorem Pages.clear_zero (P : Pages) (perm v : Nat) : P.clear perm v 0 = P := by
  funext w
  unfold Pages.clear
  rw [if_neg (by omega)]

theorem Pages.clear_one (P : Pages) (perm v w : Nat) :
    P.clear perm v 1 w = if w = v then some ⟨perm, fun _ => 0⟩ else P w := by
  unfold Pages.clear
  by_cases hwv : w = v
  · rw [if_pos hwv, if_pos (by omega)]
  · rw [if_neg hwv, if_neg (by omega)]

/-- One page, then those behind it. -/
theorem Pages.clear_succ (P : Pages) (perm v n : Nat) :
    (P.clear perm v 1).clear perm (v + 1) n = P.clear perm v (n + 1) := by
  funext w
  unfold Pages.clear
  by_cases h1 : v + 1 ≤ w ∧ w < v + 1 + n
  · rw [if_pos h1, if_pos (by omega)]
  · rw [if_neg h1]
    by_cases h2 : v ≤ w ∧ w < v + 1
    · rw [if_pos h2, if_pos (by omega)]
    · rw [if_neg h2, if_neg (by omega)]

/-! ## Steps of the construction -/

theorem bareLeaf_rest (hr : s'.rest = s.rest) (t v : Nat) : bareLeaf s' t v = bareLeaf s t v := by
  unfold bareLeaf trampolinePte
  rw [rest_trampoline hr]

theorem PageBacked.pa {x : Page} (h : PageBacked g s r v x q) :
    pteToPa (Mem.leaf s.mem r v) = q := by
  rw [h.leaf]
  exact mapPte_pa h.page.1 (Nat.lt_trans h.page.2 (by decide)) h.perm

/-- A page that kept its entry, its use and its bytes. -/
theorem PageBacked.keep {x : Page} (h : PageBacked g s r v x q)
    (hl : Mem.leaf s'.mem r v = Mem.leaf s.mem r v)
    (ho : g'.own q = g.own q) (hm : ∀ i < pgSize, s'.mem (q + i) = s.mem (q + i)) :
    PageBacked g' s' r v x q :=
  ⟨hl.trans h.leaf, ho.trans h.own, h.page, h.perm, fun i hi => (hm i hi).trans (h.data i hi)⟩

/-- A page more, where there was one or not. -/
theorem Backed.newPage (h : Backed g s r t P) (hperm : perm < 2 ^ 10)
    (hz : ∀ i < pgSize, m (q + i) = 0)
    (hn : NewPage r t v q perm m g s g' s') : Backed g' s' r t (P.clear perm v 1) := by
  constructor
  · intro w hw x hx
    rw [Pages.clear_one] at hx
    by_cases hwv : w = v
    · rw [if_pos hwv] at hx
      obtain rfl := Option.some.inj hx
      subst hwv
      refine ⟨q, ?_, hn.own, hn.page, hperm, fun i hi => (hn.mem i hi).trans (hz i hi)⟩
      rw [hn.leaf w hw, if_pos rfl]
    · rw [if_neg hwv] at hx
      obtain ⟨q', hq'⟩ := h.page w hw x hx
      obtain ⟨ho, hm⟩ := hn.kept q' hq'.page.1 (by rw [hq'.own]; trivial)
      refine ⟨q', hq'.keep ?_ ho hm⟩
      rw [hn.leaf w hw, if_neg hwv]
  · intro w hw hx
    rw [Pages.clear_one] at hx
    by_cases hwv : w = v
    · rw [if_pos hwv] at hx
      cases hx
    · rw [if_neg hwv] at hx
      rw [hn.leaf w hw, if_neg hwv, h.bare w hw hx, bareLeaf_rest hn.framed.rest]

/-- The memory of all processes is kept by work on the new table. -/
theorem Built.onRoot (h : Built A p r P a b g s g₁ s₁) (hf : Framed (UserUse r) g₁ s₁ g' s')
    (hsp : Space g' s' r (s.procs p).tf) : World A g' s' := by
  have hprocs := rest_procs h.framed.rest
  refine h.world.frame hf hsp.heap hsp.homed (UserUse.onRoot r)
    (fun _ _ _ => ⟨hsp.live, hsp.tops⟩) ?_ fun q hq => ?_
  · rw [rest_kernelPgtbl h.framed.rest]
    exact h.kernel
  · rw [hprocs]
    exact ⟨h.other q hq, UserUse.not_trapframe⟩

theorem Built.newPage (h : Built A p r P a b g s g₁ s₁) (hperm : perm < 2 ^ 10)
    (hz : ∀ i < pgSize, m (q + i) = 0)
    (hn : NewPage r (s.procs p).tf v q perm m g₁ s₁ g' s') :
    Built A p r (P.clear perm v 1) (a + 1) (b + 2) g s g' s' where
  world := h.onRoot hn.framed hn.space
  space := hn.space
  other := h.other
  kernel := h.kernel
  trap := (hn.framed.own_eq (h.trap ▸ UserUse.not_trapframe)).trans h.trap
  backed := h.backed.newPage hperm hz hn
  framed := h.framed.trans (hn.framed.mono fun _ hu => .inl hu)
  user := by
    have h1 := h.user
    have h2 := hn.user
    omega
  used := by
    have h1 := h.used
    have h2 := hn.used
    omega

/-- `pmem_alloc`, `memset` and `vm_mappages`, as the loops of `sys_exec` have them. -/
theorem zeroPage_sat {rest : MemM Bool} {Q : Bool → Kernel → Prop} (h : Built A p r P a b g s g₁ s₁)
    (hperm : perm < 2 ^ 10)
    (hE : ¬ (v < vaPages ∧ 2 ≤ (g₁.free true).length) → g₁.free false ≠ [] → ∀ e, E e)
    (hnone : g₁.free false = [] → Q false s₁)
    (hQ : v < vaPages → ∀ g' s', Built A p r (P.clear perm v 1) (a + 1) (b + 2) g s g' s' →
      (g₁.free false).length = (g'.free false).length + 1 →
      (g₁.free true).length ≤ (g'.free true).length + 2 →
      Sat rest s' G Q E) :
    Sat (do
      let pa ← pmemAlloc false
      if pa = 0 then return false
      clearPage pa
      vmMappages r (v * pgSize) pa pgSize perm
      rest) s₁ G Q E := by
  refine (pmemAlloc_heap h.space.heap false (u := .frame r v) trivial).bind fun q s₂ ⟨g₂, hg⟩ => ?_
  by_cases hq : q = 0
  · subst hq
    cases hg with
    | some pos => exact absurd pos (Nat.lt_irrefl 0)
    | none hempty =>
        rw [if_pos rfl, sat_pure]
        exact hnone hempty
  have hsome : g₁.free false ≠ [] := by
    cases hg with
    | none _ => exact absurd rfl hq
    | some pos lt was length heap mem rest =>
        intro hempty
        rw [hempty] at length
        exact absurd length (by simp)
  have hz : ∀ i < pgSize, splice s₂.mem q (fun _ => 0) pgSize (q + i) = 0 :=
    fun i hi => splice_in (by omega) (by omega)
  rw [if_neg hq, sat_bind, sat_clearPage, sat_bind]
  refine h.space.mapNew hg hq (fun a hne => ?_) hperm (fun hbad => hE hbad hsome) fun hv g' s' hn =>
    ?_
  · by_contra hc
    exact hne (splice_out (by omega))
  · exact hQ hv g' s' (h.newPage hperm hz hn) hn.user hn.used

/-- The pages of a segment, or as many of them as there is memory for. -/
theorem segmentLoop_sat {stop : Nat} {Q : Bool → Kernel → Prop} (fuel : Nat)
    (h : Built A p r P a b g s g₁ s₁) (hperm : perm < 2 ^ 10)
    (hstop : ∀ i, (v + i) * pgSize < stop ↔ i < n)
    (hE : ¬ (n < fuel ∧ v + n ≤ vaPages ∧
      2 * min n (g₁.free false).length ≤ (g₁.free true).length) → ∀ e, E e)
    (hfail : ∀ k < n, ∀ g' s', Built A p r (P.clear perm v k) (a + k) (b + 2 * k) g s g' s' →
      (g₁.free false).length = k → Q false s')
    (hQ : ∀ g' s', Built A p r (P.clear perm v n) (a + n) (b + 2 * n) g s g' s' →
      (g₁.free false).length = (g'.free false).length + n →
      (g₁.free true).length ≤ (g'.free true).length + 2 * n →
      Q true s') :
    Sat (segmentLoop r stop perm fuel (v * pgSize)) s₁ G Q E := by
  induction fuel generalizing P a b g₁ s₁ v n with
  | zero => exact (sat_panic _).mpr (hE (fun hc => Nat.not_lt_zero _ hc.1) _)
  | succ fuel ih =>
      unfold segmentLoop
      have hfirst := hstop 0
      rw [Nat.add_zero] at hfirst
      by_cases hn : 0 < n
      swap
      · obtain rfl := Nat.eq_zero_of_not_pos hn
        rw [if_neg (by rw [hfirst]; exact hn), sat_pure]
        refine hQ g₁ s₁ ?_ rfl (Nat.le_refl _)
        rw [Pages.clear_zero]
        exact h
      obtain ⟨n, rfl⟩ := Nat.exists_eq_succ_of_ne_zero (Nat.pos_iff_ne_zero.mp hn)
      rw [if_pos (hfirst.mpr hn)]
      refine zeroPage_sat h hperm (fun hbad hsome => hE fun hc => hbad ?_) (fun hempty => ?_) fun hv g₂ s₂ hb hu hk => ?_
      · have huser := List.length_pos_iff.mpr hsome
        omega
      · refine hfail 0 hn g₁ s₁ ?_ (by rw [hempty]; rfl)
        rw [Pages.clear_zero]
        exact h
      · rw [u64_next hv]
        refine ih (n := n) hb (fun i => ?_) (fun hbad => hE fun hc => hbad ?_) (fun k hk' g' s' hb' hlen => ?_) fun g' s' hb' hu' hk' => ?_
        · have hs := hstop (i + 1)
          rw [show v + 1 + i = v + (i + 1) by omega, hs]
          omega
        · omega
        · rw [Pages.clear_succ] at hb'
          refine hfail (k + 1) (by omega) g' s' ?_ (by omega)
          rw [show a + (k + 1) = a + 1 + k by omega, show b + 2 * (k + 1) = b + 2 + 2 * k by omega]
          exact hb'
        · rw [Pages.clear_succ] at hb'
          refine hQ g' s' ?_ (by omega) (by omega)
          rw [show a + (n + 1) = a + 1 + n by omega, show b + 2 * (n + 1) = b + 2 + 2 * n by omega]
          exact hb'

/-! ## Writes to the pages of the image -/

theorem Pages.Same.refl (P : Pages) : P.Same P := fun _ => rfl

theorem Pages.Same.trans {P' P'' : Pages} (h : P'.Same P) (h' : P''.Same P') : P''.Same P :=
  fun v => (h' v).trans (h v)

theorem Pages.write_same (P : Pages) (v o : Nat) (b : Bytes) (n : Nat) :
    (P.write v o b n).Same P := by
  intro w
  unfold Pages.write
  split
  · rw [Option.map_map]
    rfl
  · rfl

/-- A page of data is written. -/
theorem Space.write_page (h : Space g s r t) (hq : q % pgSize = 0) (hd : (g.own q).IsData)
    (hm : Inside q s.mem m) :
    Space g (s.setMem m) r t := by
  have hleaf : ∀ v, Mem.leaf m r v = Mem.leaf s.mem r v :=
    fun v => h.heap.write_leaf h.live hq hd hm
  refine ⟨h.heap.write_page hq hd hm, h.homed.of_rest rfl, h.live, h.pool, fun p x hp =>
    ?_, fun v hv hval => ?_⟩
  · have hpq : p ≠ q := by
      rintro rfl
      rw [hp] at hd
      exact hd
    have hap := pages_apart (h.heap.table_page hp).1 hq hpq
    have hsame : m (p + (pgSize - 1)) = s.mem (p + (pgSize - 1)) := by
      by_contra hne
      have hin := hm _ hne
      unfold pgSize at *
      omega
    rw [setMem_mem, hsame]
    exact h.tops p x hp
  · rw [setMem_mem, hleaf] at hval ⊢
    exact h.leaf v hv hval

/-- Bytes outside the page that is written. -/
theorem Inside.other (hm : Inside q m m₁) (hq : q % pgSize = 0) {q' : Nat} (hq' : q' % pgSize = 0)
    (hne : q' ≠ q) {i : Nat}
    (hi : i < pgSize) : m₁ (q' + i) = m (q' + i) := by
  by_contra hc
  have hin := hm _ hc
  have hap := pages_apart hq' hq hne
  omega

theorem Built.writePage (h : Built A p r P a b g s g₁ s₁) (hq : q % pgSize = 0)
    (hd : (g₁.own q).IsData)
    (hu : BuildUse r p (g₁.own q)) (hm : Inside q s₁.mem m) {P' : Pages}
    (hb : Backed g₁ (s₁.setMem m) r (s.procs p).tf P') :
    Built A p r P' a b g s g₁ (s₁.setMem m) :=
  ⟨h.world.write_page hq hd hm, h.space.write_page hq hd hm, h.other, h.kernel, h.trap, hb,
    h.framed.trans (Framed.write hq hu hm), h.user, h.used⟩

/-- Bytes of a page of the image. -/
theorem Built.writeFrame {x : Page} {o : Nat} {c : Bytes}
    (h : Built A p r P a b g s g₁ s₁) (hv : v < vaPages)
    (hx : P v = some x) (hb : PageBacked g₁ s₁ r v x q) (hn : o + n ≤ pgSize) :
    Built A p r (P.write v o c n) a b g s g₁ (s₁.setMem (splice s₁.mem (q + o) c n)) := by
  have hd : (g₁.own q).IsData := by
    rw [hb.own]
    trivial
  have hin : Inside q s₁.mem (splice s₁.mem (q + o) c n) :=
    inside_splice (Nat.le_add_right q o) (by omega)
  have hleaf : ∀ w, Mem.leaf (splice s₁.mem (q + o) c n) r w = Mem.leaf s₁.mem r w := fun w =>
    h.space.heap.write_leaf h.space.live hb.page.1 hd hin
  refine h.writePage hb.page.1 hd (hb.own ▸ .inl (.frame v)) hin ⟨fun w hw y hy => ?_, fun w hw hy => ?_⟩
  · unfold Pages.write at hy
    by_cases hwv : w = v
    · subst hwv
      rw [if_pos rfl, hx] at hy
      obtain rfl := Option.some.inj hy
      refine ⟨q, (hleaf w).trans hb.leaf, hb.own, hb.page, hb.perm, fun i hi => ?_⟩
      change splice s₁.mem (q + o) c n (q + i) = splice x.data o c n i
      by_cases hio : o ≤ i ∧ i < o + n
      · rw [splice_in (by omega) (by omega), splice_in hio.1 hio.2, Nat.add_sub_add_left]
      · rw [splice_out (by omega), splice_out (by omega)]
        exact hb.data i hi
    · rw [if_neg hwv] at hy
      obtain ⟨q', hq'⟩ := h.backed.page w hw y hy
      have hne : q' ≠ q := by
        rintro rfl
        exact hwv (Use.frame.inj (hq'.own.symm.trans hb.own)).2
      exact ⟨q', hq'.keep (hleaf w) rfl fun i hi => hin.other hb.page.1 hq'.page.1 hne hi⟩
  · unfold Pages.write at hy
    by_cases hwv : w = v
    · subst hwv
      rw [if_pos rfl, hx] at hy
      cases hy
    · rw [if_neg hwv] at hy
      exact (hleaf w).trans ((h.backed.bare w hw hy).trans (bareLeaf_rest (rest_setMem _ _) _ _).symm)

/-- Writes to the page of the trap frame leave the image alone. -/
theorem Built.writeTrap (h : Built A p r P a b g s g₁ s₁) (hm : Inside (s.procs p).tf s₁.mem m) :
    Built A p r P a b g s g₁ (s₁.setMem m) := by
  have hpage := h.space.heap.page _ (by rw [h.trap]; exact Use.noConfusion)
  have hd : (g₁.own (s.procs p).tf).IsData := by
    rw [h.trap]
    trivial
  have hleaf : ∀ w, Mem.leaf m r w = Mem.leaf s₁.mem r w :=
    fun w => h.space.heap.write_leaf h.space.live hpage.1 hd hm
  refine h.writePage hpage.1 hd (.inr h.trap) hm ⟨fun w hw y hy => ?_, fun w hw hy => ?_⟩
  · obtain ⟨q, hq⟩ := h.backed.page w hw y hy
    refine ⟨q, hq.keep (hleaf w) rfl fun i hi => hm.other hpage.1 hq.page.1 ?_ hi⟩
    rintro rfl
    exact nomatch h.trap.symm.trans hq.own
  · exact (hleaf w).trans ((h.backed.bare w hw hy).trans (bareLeaf_rest (rest_setMem _ _) _ _).symm)

/-! ## `loadseg` -/

/-- A valid entry of the new table. -/
theorem Built.present (h : Built A p r P a b g s g₁ s₁) (hv : Present s₁ r v) :
    (∃ x q, P v = some x ∧ PageBacked g₁ s₁ r v x q) ∨
      P v = none ∧ (v = trampolineVpn ∧ Mem.leaf s₁.mem r v = trampolinePte s₁ ∨
        v = trapframeVpn ∧ Mem.leaf s₁.mem r v = trapframePte (s.procs p).tf) := by
  cases hx : P v with
  | some x =>
      obtain ⟨q, hq⟩ := h.backed.page v hv.1 x hx
      exact .inl ⟨x, q, rfl, hq⟩
  | none =>
      have hl := h.backed.bare v hv.1 hx
      refine .inr ⟨rfl, ?_⟩
      unfold bareLeaf at hl
      split at hl
      · next hc => exact .inr ⟨hc, hl⟩
      · split at hl
        · next hc => exact .inl ⟨hc, hl⟩
        · have hval := hv.2
          rw [hl, hasFlag_zero] at hval
          cases hval

theorem Built.trap_page (h : Built A p r P a b g s g₁ s₁) :
    (s.procs p).tf % pgSize = 0 ∧ s₁.etext ≤ (s.procs p).tf ∧ (s.procs p).tf < physTop := by
  have hpage := h.space.heap.page _ (by rw [h.trap]; exact Use.noConfusion)
  have hman := (h.space.homed.home _ true (by rw [h.trap]; rfl)).1
  exact ⟨hpage.1, Nat.le_trans h.world.text.end_le hman.1, hman.2⟩

theorem Built.frame_text {x : Page} (h : Built A p r P a b g s g₁ s₁)
    (hb : PageBacked g₁ s₁ r v x q) : s₁.etext ≤ q := by
  have hman := (h.space.homed.home q false (by rw [hb.own]; rfl)).1
  exact Nat.le_trans h.world.text.end_le hman.1

/-- What is read from the file goes to the page of the image; where the trampoline is, it can
not. -/
theorem storeSegment_sat {l : List UInt8} {Q : Unit → Kernel → Prop} (h : Built A p r P a b g s g₁ s₁) (hv : Present s₁ r v)
    (hl : l.length ≤ pgSize) (hE : P v = none → E .storeFault)
    (hQ : ∀ P' s', P'.Same P → (∀ x, P v = some x → P' = P.write v 0 (regionOf l) l.length) → Built A p r P' a b g s g₁ s' → Q () s') :
    Sat (storeBytes (pteToPa (Mem.leaf s₁.mem r v)) (regionOf l) l.length) s₁ G Q E := by
  rcases h.present hv with ⟨x, q, hx, hq⟩ | ⟨hx, ⟨rfl, ht⟩ | ⟨rfl, ht⟩⟩
  · rw [hq.pa, sat_storeBytes (h.frame_text hq)]
    exact hQ _ _ (Pages.write_same _ _ _ _ _) (fun _ _ => rfl) (h.writeFrame (o := 0) hv.1 hx hq (by omega))
  · have hlow := h.world.text.below
    rw [ht, trampolinePte_pa h.world.text h.space.heap.pools.layout]
    unfold storeBytes
    by_cases hz : 0 < l.length
    · rw [sat_bind, sat_checkStore_text hz hlow]
      exact hE hx
    · unfold checkStore
      rw [sat_bind, sat_bind, sat_state, if_neg (fun hc => hz hc.1), sat_pure, sat_modify,
        Nat.eq_zero_of_not_pos hz, splice_zero]
      exact hQ P s₁ (.refl P) (fun x hx' => by rw [hx] at hx'; cases hx') h
  · obtain ⟨h1, h2, h3⟩ := h.trap_page
    rw [ht, trapframePte_pa h1 h3, sat_storeBytes h2]
    refine hQ P _ (.refl P) (fun x hx' => by rw [hx] at hx'; cases hx') (h.writeTrap ?_)
    exact inside_splice (Nat.le_refl _) (by omega)

/-- One turn of `loadseg`, up to the entry of the page. -/
theorem segmentEntry_sat {k : Nat → MemM Bool} {Q : Bool → Kernel → Prop}
    (h : Heap g s) (hl : g.Live r)
    (hE : ¬ v < vaPages → ∀ e, E e) (hnone : ¬ Present s r v → Q false s)
    (hQ : Present s r v → Sat (k (leaf s.mem r v)) s G Q E) :
    Sat (do
      let pte ← vmGetpte r (v * pgSize) false
      if pte = 0 then return false
      let e ← load pte
      if !hasFlag e pteV then return false
      k e) s G Q E := by
  have hdiv : v * pgSize / pgSize = v := Nat.mul_div_cancel v (by decide)
  by_cases hv : v < vaPages
  swap
  · unfold vmGetpte
    rw [if_pos (by have := mul_pgSize_lt (v := v); omega), sat_bind, sat_bind, sat_panic]
    exact hE hv _
  rw [sat_bind, vmGetpte_sat (mul_pgSize_lt.mpr hv), hdiv]
  cases ht : tableAt s.mem r (lowPos v) with
  | none =>
      rw [show slot s.mem r v = 0 by simp [slot, ht], if_pos rfl, sat_pure]
      refine hnone fun hp => ?_
      have hval := hp.2
      rw [show leaf s.mem r v = 0 by simp [leaf, ht], hasFlag_zero] at hval
      cases hval
  | some q =>
      have hpos := (h.table_page (h.low_own hl ht)).2
      have hslot : pteAt q (vpnIndex v 0) ≠ 0 := by
        unfold pteAt
        omega
      have hload : getLE s.mem (pteAt q (vpnIndex v 0)) 8 = leaf s.mem r v := (leaf_eq ht).symm
      rw [slot_eq ht, if_neg hslot, sat_bind, sat_load, hload]
      cases hval : hasFlag (leaf s.mem r v) pteV with
      | false =>
          rw [if_pos (show (!false) = true from rfl), sat_pure]
          refine hnone fun hp => ?_
          rw [hp.2] at hval
          cases hval
      | true =>
          rw [if_neg (by decide)]
          exact hQ ⟨hv, hval⟩

/-- Whatever the range is, the image keeps its pages. -/
theorem loadsegLoop_any {img : Image} {off sz i : Nat} {Q : Bool → Kernel → Prop} (fuel : Nat)
    (h : Built A p r P a b g s g₁ s₁) (hi : i % pgSize = 0) (hE : ∀ e, E e)
    (hQ : ∀ c P' s', P'.Same P → Built A p r P' a b g s g₁ s' → Q c s') :
    Sat (loadsegLoop img r (v * pgSize) off sz fuel i) s₁ G Q E := by
  induction fuel generalizing P s₁ i with
  | zero => exact (sat_panic _).mpr (hE _)
  | succ fuel ih =>
      unfold loadsegLoop
      by_cases hlt : i < sz
      swap
      · rw [if_neg hlt, sat_pure]
        exact hQ true P s₁ (.refl P) h
      obtain ⟨w, hw⟩ : ∃ w, u64 (v * pgSize + i) = w * pgSize := by
        refine ⟨u64 (v * pgSize + i) / pgSize, ?_⟩
        unfold u64 pgSize at *
        omega
      have hnext : u32 (i + pgSize) % pgSize = 0 := by
        unfold u32 pgSize at *
        omega
      have hlen : (if sz - i < pgSize then sz - i else pgSize) ≤ pgSize := by
        split <;> omega
      generalize (if sz - i < pgSize then sz - i else pgSize) = n at hlen ⊢
      rw [if_pos hlt, hw]
      refine segmentEntry_sat h.space.heap h.space.live (fun _ => hE)
        (fun _ => hQ false P s₁ (.refl P) h) fun hv => ?_
      refine (storeSegment_sat (E := E) h hv (Nat.le_trans (img.short _ _) hlen) (fun _ => hE _)
        (Q := fun _ s' => ∃ P', P'.Same P ∧ Built A p r P' a b g s g₁ s')
        fun P' s' h1 _ h2 => ⟨P', h1, h2⟩).bind ?_
      rintro - s₂ ⟨P', h1, h2⟩
      split
      · rw [sat_pure]
        exact hQ false P' s₂ h1 h2
      · exact ih h2 hnext fun c P'' s' h3 h4 => hQ c P'' s' (h1.trans h3) h4

/-! ## The segments and the stack -/

theorem flags2perm_lt (flags : Nat) : flags2perm flags ||| pteU < 2 ^ 10 := by
  unfold flags2perm
  split <;> split <;> split <;> decide

theorem pgRoundUp_mul {V : Nat} (h : V * pgSize < 2 ^ 64) :
    pgRoundUp (V * pgSize) = V * pgSize := by
  unfold pgRoundUp u64 pgSize at *
  omega

/-- The number of pages that a loop from page `v` up to `stop` takes. -/
def pageSteps (v stop : Nat) : Nat := stop / pgSize - v

theorem pageSteps_iff {stop : Nat} (h : stop % pgSize = 0) (v i : Nat) :
    (v + i) * pgSize < stop ↔ i < pageSteps v stop := by
  unfold pageSteps
  unfold pgSize at *
  omega

theorem segmentLoop_any {stop va : Nat} {Q : Bool → Kernel → Prop} (fuel : Nat)
    (h : Built A p r P a b g s g₁ s₁)
    (hperm : perm < 2 ^ 10) (hstop : stop % pgSize = 0) (hE : ∀ e, E e)
    (hQ : ∀ c P' a' b' g' s', Built A p r P' a' b' g s g' s' → Q c s') :
    Sat (segmentLoop r stop perm fuel (pgRoundDown va)) s₁ G Q E :=
  segmentLoop_sat fuel h hperm (pageSteps_iff hstop (va / pgSize)) (fun _ => hE)
    (fun _ _ g' s' hb _ => hQ false _ _ _ g' s' hb)
    fun g' s' hb _ _ => hQ true _ _ _ g' s' hb

/-- Whatever the program headers are, what is built is an image. -/
theorem segmentsLoop_any {img : Image} {elf : ElfHdr} {i sz : Nat}
    {Q : Option Nat → Kernel → Prop} (n : Nat)
    (h : Built A p r P a b g s g₁ s₁) (hsz : sz % pgSize = 0 ∧ sz < 2 ^ 64) (hE : ∀ e, E e)
    (hnone : ∀ P' a' b' g' s', Built A p r P' a' b' g s g' s' → Q none s')
    (hQ : ∀ V P' a' b' g' s', V * pgSize < 2 ^ 64 → Built A p r P' a' b' g s g' s' →
      Q (some (V * pgSize)) s') :
    Sat (segmentsLoop img r elf n i sz) s₁ G Q E := by
  induction n generalizing P a b g₁ s₁ i sz with
  | zero =>
      rw [segmentsLoop, sat_pure]
      have hdiv : sz / pgSize * pgSize = sz := Nat.div_mul_cancel (Nat.dvd_of_mod_eq_zero hsz.1)
      have hq := hQ (sz / pgSize) P a b g₁ s₁ (by rw [hdiv]; exact hsz.2) h
      rwa [hdiv] at hq
  | succ n ih =>
      unfold segmentsLoop
      have hnot := hnone P a b g₁ s₁ h
      dsimp only
      split
      · exact (sat_pure _).mpr hnot
      split
      · exact ih h hsz
      split
      · exact (sat_pure _).mpr hnot
      split
      · exact (sat_pure _).mpr hnot
      split
      · exact (sat_pure _).mpr hnot
      next hal =>
      refine Sat.bind (E := E) (Q := fun _ s' =>
        ∃ P' a' b' g', Built A p r P' a' b' g s g' s') ?_ ?_
      · exact segmentLoop_any _ h (flags2perm_lt _) (pgRoundUp_aligned _) hE
          fun c P' a' b' g' s' hb => ⟨P', a', b', g', hb⟩
      rintro c s₂ ⟨P₂, a₂, b₂, g₂, h₂⟩
      split
      · exact (sat_pure _).mpr (hnone _ _ _ _ _ h₂)
      have hdiv := Nat.div_mul_cancel (Nat.dvd_of_mod_eq_zero (Decidable.not_not.mp hal))
      rw [← hdiv]
      refine Sat.bind (E := E) (Q := fun _ s' => ∃ P', Built A p r P' a₂ b₂ g s g₂ s') ?_ ?_
      · exact loadsegLoop_any _ h₂ rfl hE fun c P' s' _ hb => ⟨P', hb⟩
      rintro c' s₃ ⟨P₃, h₃⟩
      split
      · exact (sat_pure _).mpr (hnone _ _ _ _ _ h₃)
      · exact ih h₃ ⟨pgRoundUp_aligned _, pgRoundUp_lt _⟩

theorem page_below (h : v ≤ vaPages) : v * pgSize < 2 ^ 64 := by
  unfold vaPages vaMax pgSize at *
  omega

/-- The pages of the stack. -/
theorem stackLoop_sat {V i : Nat} {Q : Bool → Kernel → Prop} (h : Built A p r P a b g s g₁ s₁)
    (hlt : (V + i) * pgSize < 2 ^ 64)
    (hE : ¬ (V + i + n ≤ vaPages ∧ 2 * min n (g₁.free false).length ≤ (g₁.free true).length) →
      ∀ e, E e)
    (hfail : ∀ k < n, ∀ g' s', Built A p r (P.clear (pteW ||| pteR ||| pteU) (V + i) k) (a + k)
      (b + 2 * k) g s g' s' →
      (g₁.free false).length = k → Q false s')
    (hQ : (0 < n → V + i + n ≤ vaPages) → ∀ g' s',
      Built A p r (P.clear (pteW ||| pteR ||| pteU) (V + i) n) (a + n) (b + 2 * n) g s g' s' →
      Q true s') :
    Sat (stackLoop r (V * pgSize) n i) s₁ G Q E := by
  induction n generalizing P a b g₁ s₁ i with
  | zero =>
      rw [stackLoop, sat_pure]
      refine hQ (fun hc => absurd hc (Nat.lt_irrefl 0)) g₁ s₁ ?_
      rw [Pages.clear_zero]
      exact h
  | succ n ih =>
      unfold stackLoop
      rw [← Nat.add_mul, u64_of_lt hlt]
      refine zeroPage_sat h (by decide) (fun hbad hsome => hE fun hc => hbad ?_) (fun hempty => ?_) fun hv g₂ s₂ hb hu hk => ?_
      · have huser := List.length_pos_iff.mpr hsome
        omega
      · refine hfail 0 (Nat.succ_pos n) g₁ s₁ ?_ (by rw [hempty]; rfl)
        rw [Pages.clear_zero]
        exact h
      · have hnext : (V + (i + 1)) * pgSize < 2 ^ 64 := page_below (Nat.succ_le_of_lt hv)
        refine ih hb hnext (fun hbad => hE fun hc => hbad ?_) (fun k hk' g' s' hb' hlen => ?_) fun hle g' s' hb' => ?_
        · omega
        · rw [← Nat.add_assoc, Pages.clear_succ] at hb'
          refine hfail (k + 1) (by omega) g' s' ?_ (by omega)
          rw [show a + (k + 1) = a + 1 + k by omega, show b + 2 * (k + 1) = b + 2 + 2 * k by omega]
          exact hb'
        · rw [← Nat.add_assoc, Pages.clear_succ] at hb'
          refine hQ (fun _ => by omega) g' s' ?_
          rw [show a + (n + 1) = a + 1 + n by omega, show b + 2 * (n + 1) = b + 2 + 2 * n by omega]
          exact hb'

/-! ## The empty image -/

/-- A new table maps no page of an image. -/
theorem Built.fresh (h : World A g s) (htrap : g.own (s.procs p).tf = .trapframe p)
    (hf : FreshSpace r (s.procs p).tf g s g' s') : Built A p r (fun _ => none) 1 2 g s g' s' where
  world := h.fresh hf
  space := hf.space
  other q hq := h.root_ne hq hf.was
  kernel := h.kernel_ne hf.was
  trap := (hf.framed.own_eq (htrap ▸ UserUse.not_trapframe)).trans htrap
  backed := by
    refine ⟨fun _ _ _ hx => (nomatch hx), fun v hv _ => ?_⟩
    rw [hf.leaf v hv, bareLeaf_rest hf.framed.rest]
    rfl
  framed := hf.framed.mono fun _ hu => .inl hu
  user := hf.user
  used := hf.used

end

end WhuOs.Mem
