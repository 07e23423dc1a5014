import WhuOs.Mem.Walk

/-! # Use of pages

A ledger says what every page is used for. It is not part of the kernel state: it
is the bookkeeping with which the invariants of the memory system are stated. A
page has one use, so pages that are used for different things are different pages.
`Heap` ties a ledger to the state: the free lists are the pages with use `free`,
and below a live root every table page is at the position the ledger gives it.
`Framed` says which uses an operation touched.
-/

namespace WhuOs.Mem

open Prog Bytes

inductive Use where
  /-- Not managed by the allocator, or lost. -/
  | other
  | free (inKernel : Bool)
  /-- A page of the tables below a root. -/
  | table (root : Nat) (pos : List Nat)
  /-- The frame of a virtual page. -/
  | frame (root vpn : Nat)
  | trapframe (p : ProcId)
  | kstack (p : ProcId)
  /-- A page between allocation and its use. -/
  | held
  /-- A page with the arguments of `exec`. -/
  | scratch
  /-- A page of tables that are being destroyed, or were. -/
  | retired (root : Nat)
deriving DecidableEq

def Use.IsData : Use → Prop
  | .free _ => False
  | .table _ _ => False
  | _ => True

structure Ledger where
  own : Nat → Use
  free : Bool → List Nat

def Ledger.Live (g : Ledger) (r : Nat) : Prop := g.own r = .table r []

def Ledger.set (g : Ledger) (q : Nat) (u : Use) : Ledger :=
  { g with own := Function.update g.own q u }

def Ledger.grant (g : Ledger) (k : Bool) (q : Nat) (u : Use) : Ledger where
  own := Function.update g.own q u
  free := Function.update g.free k (g.free k).tail

def Ledger.give (g : Ledger) (k : Bool) (q : Nat) : Ledger where
  own := Function.update g.own q (.free k)
  free := Function.update g.free k (q :: g.free k)

structure Heap (g : Ledger) (s : Kernel) : Prop where
  pools : Pools s g.free
  free_iff : ∀ q k, q ∈ g.free k ↔ g.own q = .free k
  page : ∀ q, g.own q ≠ .other → q % pgSize = 0 ∧ 0 < q
  root : ∀ p r, g.own p = .table r [] → p = r
  child : ∀ r p x i, g.Live r → g.own p = .table r x → x.length < 2 → i < 512 →
    hasFlag (entry s.mem p i) pteV = true → g.own (pteToPa (entry s.mem p i)) = .table r (i :: x)

def Managed (s : Kernel) (q : Nat) : Prop := s.allocBegin ≤ q ∧ q < physTop

def inKernelOf (s : Kernel) (q : Nat) : Bool :=
  decide (s.allocBegin ≤ q ∧ q < s.allocBegin + kernelPages * pgSize)

def Use.home : Use → Option Bool
  | .free k => some k
  | .table _ (_ :: _) => some true
  | .frame _ _ => some false
  | .trapframe _ => some true
  | .kstack _ => some true
  | .held => some true
  | .scratch => some false
  | _ => none

/-- Pages are in the pool they came from, and no table is for addresses from `VA_MAX` on. -/
structure Homed (g : Ledger) (s : Kernel) : Prop where
  home : ∀ q k, (g.own q).home = some k → Managed s q ∧ inKernelOf s q = k
  top : ∀ q r x i, g.own q = .table r (x ++ [i]) → i < 256

/-- The last byte of every table page of a root is 0: no entry uses its topmost bits. -/
def Tops (g : Ledger) (s : Kernel) (r : Nat) : Prop :=
  ∀ p x, g.own p = .table r x → s.mem (p + (pgSize - 1)) = 0

/-- The entries of the tables above the lowest ones are pointers to tables, without R, W and X. -/
def Plain (g : Ledger) (s : Kernel) (r : Nat) : Prop :=
  ∀ p x i, g.own p = .table r x → x.length < 2 → i < 512 → hasFlag (entry s.mem p i) pteV = true →
    pteCheck (entry s.mem p i) = true

def Kernel.rest (s : Kernel) : Kernel :=
  { s with mem := fun _ => 0, kern := ⟨0, 0, 0, 0⟩, user := ⟨0, 0, 0, 0⟩ }

/-- An operation on pages: only pages with a use in `W` changed their use or their contents. -/
structure Framed (W : Use → Prop) (g : Ledger) (s : Kernel) (g' : Ledger) (s' : Kernel) : Prop where
  own : ∀ q, g'.own q = g.own q ∨ W (g.own q) ∧ W (g'.own q)
  mem : ∀ q, q % pgSize = 0 → ¬ W (g.own q) → ∀ i < pgSize, s'.mem (q + i) = s.mem (q + i)
  rest : s'.rest = s.rest

section

variable {g g' g'' : Ledger} {s s' s'' : Kernel} {k : Bool} {p q r i v w : Nat} {x y : List Nat}
  {u : Use} {W W' : Use → Prop} {m : Bytes} {G : Event → Prop} {E : Panic → Prop}

/-! ## The rest of the state -/

@[simp] theorem rest_setMem (s : Kernel) (m : Bytes) : (s.setMem m).rest = s.rest := rfl

@[simp] theorem rest_setRegion (s : Kernel) (k : Bool) (r : Region) :
    (s.setRegion k r).rest = s.rest := by
  cases k <;> rfl

@[simp] theorem rest_pushed (s : Kernel) (k : Bool) (q : Nat) : (pushed s k q).rest = s.rest := by
  simp [pushed]

theorem rest_procs (h : s'.rest = s.rest) : s'.procs = s.procs :=
  (congrArg Kernel.procs h :)

theorem rest_nodes (h : s'.rest = s.rest) : s'.nodes = s.nodes :=
  (congrArg Kernel.nodes h :)

theorem rest_locks (h : s'.rest = s.rest) : s'.locks = s.locks :=
  (congrArg Kernel.locks h :)

theorem rest_allocBegin (h : s'.rest = s.rest) : s'.allocBegin = s.allocBegin :=
  (congrArg Kernel.allocBegin h :)

theorem rest_trampoline (h : s'.rest = s.rest) : s'.trampoline = s.trampoline :=
  (congrArg Kernel.trampoline h :)

theorem rest_kernelPgtbl (h : s'.rest = s.rest) : s'.kernelPgtbl = s.kernelPgtbl :=
  (congrArg Kernel.kernelPgtbl h :)

/-! ## Frames -/

theorem Framed.refl (W : Use → Prop) (g : Ledger) (s : Kernel) : Framed W g s g s :=
  ⟨fun _ => .inl rfl, fun _ _ _ _ _ => rfl, rfl⟩

theorem Framed.trans (h : Framed W g s g' s') (h' : Framed W g' s' g'' s'') :
    Framed W g s g'' s'' := by
  refine ⟨fun q => ?_, fun q hq hw i hi => ?_, h'.rest.trans h.rest⟩
  · rcases h.own q with h1 | h1
    · rw [← h1]
      exact h'.own q
    · rcases h'.own q with h2 | h2
      · rw [h2]
        exact .inr h1
      · exact .inr ⟨h1.1, h2.2⟩
  · have hown : g'.own q = g.own q := (h.own q).resolve_right fun hc => hw hc.1
    rw [h'.mem q hq (hown.symm ▸ hw) i hi, h.mem q hq hw i hi]

theorem Framed.mono (h : Framed W g s g' s') (hW : ∀ u, W u → W' u) : Framed W' g s g' s' :=
  ⟨fun q => (h.own q).imp_right fun hq => ⟨hW _ hq.1, hW _ hq.2⟩,
    fun q hq hw => h.mem q hq fun hc => hw (hW _ hc), h.rest⟩

theorem Framed.own_eq (h : Framed W g s g' s') (hw : ¬ W (g.own q)) : g'.own q = g.own q :=
  (h.own q).resolve_right fun hc => hw hc.1

/-- A use outside the frame was there before. -/
theorem Framed.own_back (h : Framed W g s g' s') (hu : g'.own q = u) (hw : ¬ W u) :
    g.own q = u := by
  rcases h.own q with h1 | h1
  · exact h1.symm.trans hu
  · exact absurd (hu ▸ h1.2) hw

/-! ## Tables below a live root -/

theorem Heap.tableAt_own (h : Heap g s) (hl : g.Live r) (hx : ∀ i ∈ x, i < 512)
    (hlen : x.length ≤ 2) (ht : tableAt s.mem r x = some p) : g.own p = .table r x := by
  induction x generalizing p with
  | nil =>
      obtain rfl := Option.some.inj ht
      exact hl
  | cons i x ih =>
      obtain ⟨p', hp', hv, rfl⟩ := tableAt_cons.mp ht
      have hown := ih (fun j hj => hx j (List.mem_cons_of_mem _ hj)) (Nat.le_of_succ_le hlen) hp'
      exact h.child r p' x i hl hown hlen (hx i List.mem_cons_self) hv

theorem Heap.low_own (h : Heap g s) (hl : g.Live r) (ht : tableAt s.mem r (lowPos v) = some p) :
    g.own p = .table r (lowPos v) :=
  h.tableAt_own hl (fun _ => mem_lowPos) (Nat.le_refl 2) ht

theorem Heap.table_page (h : Heap g s) (hp : g.own p = .table r x) : p % pgSize = 0 ∧ 0 < p :=
  h.page p (by rw [hp]; exact Use.noConfusion)

/-- Tables and entries of a root whose table pages kept their contents. -/
theorem Heap.tableAt_frame (h : Heap g s) (hl : g.Live r) (hx : ∀ i ∈ x, i < 512)
    (hlen : x.length ≤ 2)
    (hm : ∀ p y, g.own p = .table r y → ∀ i < pgSize, m (p + i) = s.mem (p + i)) :
    tableAt m r x = tableAt s.mem r x := by
  refine tableAt_congr hx fun y i hy p hp => ?_
  have hsub := hy.length_le
  have hidx : ∀ j ∈ i :: y, j < 512 := fun j hj => hx j (hy.subset hj)
  rw [List.length_cons] at hsub
  have hown := h.tableAt_own hl (fun j hj => hidx j (List.mem_cons_of_mem _ hj)) (by omega) hp
  exact entry_congr (hidx i List.mem_cons_self) (hm p y hown)

theorem Heap.leaf_frame (h : Heap g s) (hl : g.Live r)
    (hm : ∀ p y, g.own p = .table r y → ∀ i < pgSize, m (p + i) = s.mem (p + i)) :
    leaf m r v = leaf s.mem r v := by
  have ht := h.tableAt_frame hl (fun i (hi : i ∈ lowPos v) => mem_lowPos hi) (Nat.le_refl 2) hm
  unfold leaf
  rw [ht]
  split
  · next p hp => exact entry_congr (vpnIndex_lt _ _) (hm p _ (h.low_own hl hp))
  · rfl

theorem Framed.leaf (hf : Framed W g s g' s') (h : Heap g s) (hl : g.Live r)
    (hW : ∀ y, ¬ W (.table r y)) : leaf s'.mem r v = leaf s.mem r v := by
  refine h.leaf_frame hl fun p y hp i hi => ?_
  exact hf.mem p (h.table_page hp).1 (hp ▸ hW y) i hi

theorem Framed.live (hf : Framed W g s g' s') (hl : g.Live r) (hW : ¬ W (.table r [])) :
    g'.Live r :=
  (hf.own_eq (hl.symm ▸ hW)).trans hl

theorem Framed.tops (hf : Framed W g s g' s') (h : Heap g s) (hW : ∀ y, ¬ W (.table r y))
    (ht : Tops g s r) : Tops g' s' r := by
  intro p x hp
  have hown := hf.own_back hp (hW x)
  rw [hf.mem p (h.table_page hown).1 (hown ▸ hW x) _ (by decide)]
  exact ht p x hown

theorem Framed.plain (hf : Framed W g s g' s') (h : Heap g s) (hW : ∀ y, ¬ W (.table r y))
    (hpl : Plain g s r) : Plain g' s' r := by
  intro p x i hp hx hi hv
  have hown := hf.own_back hp (hW x)
  have hsame : entry s'.mem p i = entry s.mem p i :=
    entry_congr hi (hf.mem p (h.table_page hown).1 (hown ▸ hW x))
  rw [hsame] at hv ⊢
  exact hpl p x i hown hx hi hv

/-! ## Changes of the ledger -/

theorem Ledger.set_own_ne (h : p ≠ q) : (g.set q u).own p = g.own p := Function.update_of_ne h _ _

theorem Ledger.set_own_self : (g.set q u).own q = u := Function.update_self _ _ _

theorem Ledger.grant_own_ne (h : p ≠ q) : (g.grant k q u).own p = g.own p :=
  Function.update_of_ne h _ _

theorem Ledger.grant_own_self : (g.grant k q u).own q = u := Function.update_self _ _ _

theorem Ledger.grant_free_ne {j : Bool} (h : j ≠ k) : (g.grant k q u).free j = g.free j :=
  Function.update_of_ne h _ _

/-- A data page, or a page below a root that is no longer live, gets another use. -/
theorem Heap.reown (h : Heap g s) (hq : q % pgSize = 0 ∧ 0 < q) (hfree : ∀ k, g.own q ≠ .free k)
    (hold : ∀ r x, g.own q = .table r x → ¬ (g.set q u).Live r) (hu : u.IsData) :
    Heap (g.set q u) s := by
  refine ⟨h.pools, fun p k => ?_, fun p hp => ?_, fun p r hp =>
    ?_, fun r p x i hl hp hx hi hv => ?_⟩
  · by_cases hpq : p = q
    · subst hpq
      rw [Ledger.set_own_self]
      refine ⟨fun hm => absurd ((h.free_iff p k).mp hm) (hfree k), ?_⟩
      rintro rfl
      exact hu.elim
    · rw [Ledger.set_own_ne hpq]
      exact h.free_iff p k
  · by_cases hpq : p = q
    · exact hpq ▸ hq
    · rw [Ledger.set_own_ne hpq] at hp
      exact h.page p hp
  · by_cases hpq : p = q
    · subst hpq
      rw [Ledger.set_own_self] at hp
      subst hp
      exact hu.elim
    · rw [Ledger.set_own_ne hpq] at hp
      exact h.root p r hp
  · have hpq : p ≠ q := by
      rintro rfl
      rw [Ledger.set_own_self] at hp
      subst hp
      exact hu.elim
    have hrq : r ≠ q := by
      rintro rfl
      unfold Ledger.Live at hl
      rw [Ledger.set_own_self] at hl
      subst hl
      exact hu.elim
    have hlive : g.Live r := (Ledger.set_own_ne hrq).symm.trans hl
    rw [Ledger.set_own_ne hpq] at hp
    have hc := h.child r p x i hlive hp hx hi hv
    rw [Ledger.set_own_ne]
    · exact hc
    · rintro rfl
      exact hold r _ hc hl

theorem Homed.of_rest (h : Homed g s) (hr : s'.rest = s.rest) : Homed g s' := by
  refine ⟨fun q k hq => ?_, h.top⟩
  unfold Managed inKernelOf
  rw [rest_allocBegin hr]
  exact h.home q k hq

/-- A page gets a use of its pool. -/
theorem Homed.update (h : Homed g s) (hg : g'.own = Function.update g.own q u)
    (hu : ∀ k, u.home = some k → Managed s q ∧ inKernelOf s q = k)
    (ht : ∀ r x i, u = .table r (x ++ [i]) → i < 256) : Homed g' s := by
  refine ⟨fun p k hp => ?_, fun p r x i hp => ?_⟩
  · rw [hg] at hp
    by_cases hpq : p = q
    · subst hpq
      rw [Function.update_self] at hp
      exact hu k hp
    · rw [Function.update_of_ne hpq] at hp
      exact h.home p k hp
  · rw [hg] at hp
    by_cases hpq : p = q
    · subst hpq
      rw [Function.update_self] at hp
      exact ht r x i hp
    · rw [Function.update_of_ne hpq] at hp
      exact h.top p r x i hp

/-- A page that is not a table gets a use of the same pool. -/
theorem Homed.move (h : Homed g s) (hg : g'.own = Function.update g.own q u) (hu : u.IsData)
    (hhome : (g.own q).home = u.home ∨ u.home = none) : Homed g' s := by
  refine h.update hg (fun k hk => ?_) fun r x i he => ?_
  · refine h.home q k ?_
    rcases hhome with hh | hh
    · rw [hh, hk]
    · rw [hh] at hk
      cases hk
  · subst he
    exact hu.elim

/-! ## Changes of memory -/

/-- Writes outside free pages and tables. -/
theorem Heap.withMem (h : Heap g s)
    (hm : ∀ q, (∃ k, g.own q = .free k) ∨ (∃ r x, g.own q = .table r x ∧ g.Live r) →
      ∀ i < pgSize, m (q + i) = s.mem (q + i)) : Heap g (s.setMem m) := by
  refine ⟨h.pools.withMem fun k q hq i hi => ?_, h.free_iff, h.page, h.root,
    fun r p x i hl hp hx hi hv => ?_⟩
  · refine hm q (.inl ⟨k, (h.free_iff q k).mp hq⟩) i ?_
    unfold pgSize
    omega
  · rw [setMem_mem, entry_congr hi (hm p (.inr ⟨r, x, hp, hl⟩))] at hv ⊢
    exact h.child r p x i hl hp hx hi hv

/-- Writes into data pages. -/
theorem Heap.write (h : Heap g s)
    (hm : ∀ q, q % pgSize = 0 → ¬ (g.own q).IsData → ∀ i < pgSize, m (q + i) = s.mem (q + i)) :
    Heap g (s.setMem m) := by
  refine h.withMem fun q hq => hm q ?_ ?_
  · rcases hq with ⟨k, hk⟩ | ⟨r, x, hx, -⟩
    · exact (h.page q (by rw [hk]; exact Use.noConfusion)).1
    · exact (h.table_page hx).1
  · rcases hq with ⟨k, hk⟩ | ⟨r, x, hx, -⟩
    · rw [hk]
      exact id
    · rw [hx]
      exact id

/-! ## Allocation -/

/-- `pmem_alloc` on a ledger: the page gets the use `u`. -/
inductive Granted (g : Ledger) (s : Kernel) (k : Bool) (u : Use) : Nat → Ledger → Kernel → Prop
  | none (empty : g.free k = []) : Granted g s k u 0 g s
  | some {q : Nat} {s' : Kernel} (pos : 0 < q) (lt : q < physTop) (was : g.own q = .free k)
      (length : (g.free k).length = ((g.grant k q u).free k).length + 1)
      (heap : Heap (g.grant k q u) s') (mem : s'.mem = s.mem) (rest : s'.rest = s.rest) :
      Granted g s k u q (g.grant k q u) s'

theorem pmemAlloc_heap (h : Heap g s) (k : Bool) (hu : u.IsData) :
    Sat (pmemAlloc k) s G (fun q s' => ∃ g', Granted g s k u q g' s') E := by
  refine (pmemAlloc_sat h.pools k).imp fun q s' ht => ?_
  cases ht with
  | none empty => exact ⟨g, .none empty⟩
  | some hhead hpools =>
      rename_i t reg
      have hmem : q ∈ g.free k := hhead ▸ List.mem_cons_self
      have hown := (h.free_iff q k).mp hmem
      have hpage := h.pools.page hmem
      have hnodup : q ∉ t := (List.nodup_cons.mp (hhead ▸ h.pools.nodup k)).1
      have hne : ∀ p r x, g.own p = .table r x → p ≠ q := by
        rintro p r x hp rfl
        rw [hown] at hp
        cases hp
      have htail : (g.grant k q u).free = Function.update g.free k t := by
        unfold Ledger.grant
        rw [hhead, List.tail_cons]
      refine ⟨g.grant k q u,
        .some ?_ ?_ hown ?_ ⟨?_, fun p j => ?_, fun p hp => ?_, fun p r hp => ?_,
        fun r p x i hl hp hx hi hv => ?_⟩ (setRegion_mem _ _ _) (rest_setRegion _ _ _)⟩
      · unfold kernelBase at hpage
        omega
      · exact hpage.2.2
      · rw [htail, Function.update_self, hhead, List.length_cons]
      · rw [htail]
        exact hpools
      · rw [htail]
        change p ∈ _ ↔ Function.update g.own q u p = _
        by_cases hpq : p = q
        · subst hpq
          rw [Function.update_self]
          constructor
          · intro hin
            by_cases hj : j = k
            · subst hj
              rw [Function.update_self] at hin
              exact absurd hin hnodup
            · rw [Function.update_of_ne hj] at hin
              exact absurd (h.pools.disjoint hin hmem) hj
          · rintro rfl
            exact hu.elim
        · rw [Function.update_of_ne hpq]
          by_cases hj : j = k
          · subst hj
            rw [Function.update_self, ← h.free_iff, hhead, List.mem_cons]
            simp [hpq]
          · rw [Function.update_of_ne hj]
            exact h.free_iff p j
      · by_cases hpq : p = q
        · unfold kernelBase at hpage
          exact hpq ▸ ⟨hpage.1, by omega⟩
        · exact h.page p (Ledger.grant_own_ne hpq ▸ hp)
      · by_cases hpq : p = q
        · subst hpq
          rw [Ledger.grant_own_self] at hp
          subst hp
          exact hu.elim
        · exact h.root p r (Ledger.grant_own_ne hpq ▸ hp)
      · have hback : ∀ p' r' x', (g.grant k q u).own p' = .table r' x' →
          g.own p' = .table r' x' := by
          intro p' r' x' hp'
          by_cases hpq : p' = q
          · subst hpq
            rw [Ledger.grant_own_self] at hp'
            subst hp'
            exact hu.elim
          · rwa [Ledger.grant_own_ne hpq] at hp'
        rw [setRegion_mem] at hv ⊢
        have hc := h.child r p x i (hback r r [] hl) (hback p r x hp) hx hi hv
        exact (Ledger.grant_own_ne (hne _ _ _ hc)).trans hc

/-- An allocated page is outside every other use. -/
theorem Framed.grant (hown : g.own q = .free k) (hu : W u) (hk : W (.free k))
    (hmem : s'.mem = s.mem)
    (hrest : s'.rest = s.rest) : Framed W g s (g.grant k q u) s' := by
  refine ⟨fun p => ?_, fun p _ _ i _ => by rw [hmem], hrest⟩
  by_cases hpq : p = q
  · subst hpq
    rw [Ledger.grant_own_self, hown]
    exact .inr ⟨hk, hu⟩
  · exact .inl (Ledger.grant_own_ne hpq)

theorem Framed.set (hold : W (g.own q)) (hu : W u) : Framed W g s (g.set q u) s := by
  refine ⟨fun p => ?_, fun _ _ _ _ _ => rfl, rfl⟩
  by_cases hpq : p = q
  · subst hpq
    rw [Ledger.set_own_self]
    exact .inr ⟨hold, hu⟩
  · exact .inl (Ledger.set_own_ne hpq)

/-- A write into one page. -/
theorem Framed.write (hq : q % pgSize = 0) (hold : W (g.own q))
    (hm : ∀ a, m a ≠ s.mem a → q ≤ a ∧ a < q + pgSize) : Framed W g s g (s.setMem m) := by
  refine ⟨fun _ => .inl rfl, fun p hp hw i hi => ?_, rfl⟩
  by_contra hne
  have hin := hm (p + i) hne
  have hpq : p ≠ q := by
    rintro rfl
    exact hw hold
  have hap := pages_apart hp hq hpq
  omega

/-! ## Giving pages back -/

theorem Ledger.give_own_ne (h : p ≠ q) : (g.give k q).own p = g.own p :=
  Function.update_of_ne h _ _

theorem Ledger.give_own_self : (g.give k q).own q = .free k := Function.update_self _ _ _

/-- A page that is not in use by a live root is given back. -/
theorem Heap.give (h : Heap g s) (hq : q % pgSize = 0)
    (hr : (s.region k).begin ≤ q ∧ q < (s.region k).stop) (hfree : ∀ j, g.own q ≠ .free j)
    (hold : ∀ r x, g.own q = .table r x → ¬ (g.give k q).Live r) :
    Heap (g.give k q) (pushed s k q) := by
  have hpos := h.pools.layout.begin_pos k
  unfold kernelBase at hpos
  have hback : ∀ p r x, (g.give k q).own p = .table r x → p ≠ q ∧ g.own p = .table r x := by
    intro p r x hp
    have hpq : p ≠ q := by
      rintro rfl
      rw [Ledger.give_own_self] at hp
      cases hp
    exact ⟨hpq, Ledger.give_own_ne hpq ▸ hp⟩
  refine ⟨h.pools.pushed hq hr fun hm => hfree k ((h.free_iff q k).mp hm), fun p j => ?_,
    fun p hp => ?_, fun p r hp => h.root p r (hback p r [] hp).2, fun r p x i hl hp hx hi hv => ?_⟩
  · change p ∈ Function.update g.free k (q :: g.free k) j ↔ _
    by_cases hpq : p = q
    · subst hpq
      rw [Ledger.give_own_self]
      by_cases hj : j = k
      · subst hj
        simp
      · rw [Function.update_of_ne hj]
        constructor
        · intro hm
          exact absurd ((h.free_iff p j).mp hm) (hfree j)
        · intro he
          exact absurd (Use.free.inj he).symm hj
    · rw [Ledger.give_own_ne hpq]
      by_cases hj : j = k
      · subst hj
        rw [Function.update_self, List.mem_cons, h.free_iff]
        simp [hpq]
      · rw [Function.update_of_ne hj]
        exact h.free_iff p j
  · by_cases hpq : p = q
    · exact hpq ▸ ⟨hq, by omega⟩
    · exact h.page p (Ledger.give_own_ne hpq ▸ hp)
  · obtain ⟨hpq, hown⟩ := hback p r x hp
    have hsame : entry (pushed s k q).mem p i = entry s.mem p i := by
      refine entry_congr hi fun j hj => ?_
      have hap := pages_apart (h.table_page hown).1 hq hpq
      rw [pushed_mem]
      unfold pgSize at *
      exact splice_out (by omega)
    rw [hsame] at hv ⊢
    have hc := h.child r p x i (hback r r [] hl).2 hown hx hi hv
    rw [Ledger.give_own_ne]
    · exact hc
    · intro he
      exact hold r _ (he ▸ hc) hl

theorem Framed.give (hq : q % pgSize = 0) (hold : W (g.own q)) (hk : W (.free k)) :
    Framed W g s (g.give k q) (pushed s k q) := by
  refine ⟨fun p => ?_, fun p hp hw i hi => ?_, rest_pushed s k q⟩
  · by_cases hpq : p = q
    · subst hpq
      rw [Ledger.give_own_self]
      exact .inr ⟨hold, hk⟩
    · exact .inl (Ledger.give_own_ne hpq)
  · have hpq : p ≠ q := by
      rintro rfl
      exact hw hold
    have hap := pages_apart hp hq hpq
    rw [pushed_mem]
    unfold pgSize at *
    exact splice_out (by omega)

end

end WhuOs.Mem
