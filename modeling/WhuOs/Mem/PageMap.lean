import WhuOs.Mem.Unmap

/-! # Page tables as partial maps

What a page table is for: a partial map from virtual page numbers to a frame number
and flags. Calls of `vm_mappages` and `vm_unmappages` on a well-formed table are
updates of this map.
-/

namespace WhuOs.Mem

open Prog Bytes

/-- The translation of a virtual page: frame number and flags. -/
def translate (m : Bytes) (r v : Nat) : Option (Nat × Nat) :=
  if hasFlag (leaf m r v) pteV then some (leaf m r v / 2 ^ 10, pteFlags (leaf m r v)) else none

def IsPos (x : List Nat) : Prop := x.length ≤ 2 ∧ ∀ i ∈ x, i < 512

def IsFree (s : Kernel) (q : Nat) : Prop :=
  ∃ k l, Chain (nextPage s.mem) (ptr (s.region k).head) l none ∧ q ∈ l

def IsTable (m : Bytes) (r q : Nat) : Prop := ∃ x, IsPos x ∧ tableAt m r x = some q

/-- A well-formed table, with the allocator's lists in order. -/
structure TableOk (s : Kernel) (r : Nat) : Prop where
  pools : ∃ l, Pools s l
  distinct : ∀ x y p, IsPos x → IsPos y → tableAt s.mem r x = some p → tableAt s.mem r y = some p →
    x = y
  page : ∀ q, IsTable s.mem r q → q % pgSize = 0 ∧ 0 < q ∧ ¬ IsFree s q
  leaf : ∀ v < vaPages, hasFlag (leaf s.mem r v) pteV = true → pteFlags (Mem.leaf s.mem r v) ≠ pteV

/-- Calls on a page table. -/
inductive MapOp where
  | map (va pa len perm : Nat)
  | unmap (va len : Nat) (freeit : Bool)
  | walk (va : Nat)

def MapOp.run (r : Nat) : MapOp → MemM Unit
  | .map va pa len perm => vmMappages r va pa len perm
  | .unmap va len freeit => vmUnmappages r va len freeit
  | .walk va => do
      let _ ← vmGetpte r va false

def pageCount (len : Nat) : Nat := (len + (pgSize - 1)) / pgSize

def MapOp.apply : MapOp → (Nat → Option (Nat × Nat)) → Nat → Option (Nat × Nat)
  | .map va pa len perm, f => fun v =>
      if va / pgSize ≤ v ∧ v ≤ (va + len - 1) / pgSize then
        some ((pa / 2 ^ 12 + (v - va / pgSize)) % 2 ^ 52, perm ||| pteV)
      else f v
  | .unmap va len _, f => fun v =>
      if va / pgSize ≤ v ∧ v < va / pgSize + pageCount len then none else f v
  | .walk _, f => f

/-- What callers promise. Frames that are given back are pages of the allocator that nobody else
uses. -/
def MapOp.Ready (r : Nat) : MapOp → Kernel → Prop
  | .map va pa len perm, _ =>
      0 < len ∧ va + len ≤ vaMax ∧ pa < 2 ^ 64 ∧ perm < 2 ^ 10 ∧ perm ||| pteV ≠ pteV
  | .unmap va len freeit, s =>
      va % pgSize = 0 ∧ va + len ≤ vaMax ∧
        (∀ v, va / pgSize ≤ v → v < va / pgSize + pageCount len → translate s.mem r v ≠ none) ∧
        (freeit = true →
          (∀ v, va / pgSize ≤ v → v < va / pgSize + pageCount len →
            Managed s (pteToPa (leaf s.mem r v)) ∧ ¬ IsFree s (pteToPa (leaf s.mem r v)) ∧
              ¬ IsTable s.mem r (pteToPa (leaf s.mem r v))) ∧
          ∀ v₁ v₂, va / pgSize ≤ v₁ → v₁ < va / pgSize + pageCount len → va / pgSize ≤ v₂ →
            v₂ < va / pgSize + pageCount len →
            pteToPa (leaf s.mem r v₁) = pteToPa (leaf s.mem r v₂) → v₁ = v₂)
  | .walk va, _ => va < vaMax

def ReadyAll (r : Nat) : List MapOp → Kernel → Prop
  | [], _ => True
  | op :: ops, s => op.Ready r s ∧ ∀ s', (op.run r s).1 = .ok ((), s') → ReadyAll r ops s'

section

variable {g g' : Ledger} {s s' : Kernel} {r p q v : Nat} {l : Bool → List Nat} {G : Event → Prop}

/-! ## The ledger of a table -/

theorem IsPos.nil : IsPos [] := ⟨Nat.zero_le 2, fun _ hi => absurd hi List.not_mem_nil⟩

theorem IsPos.cons {i : Nat} {x : List Nat} (h : IsPos x) (hx : x.length < 2) (hi : i < 512) :
    IsPos (i :: x) :=
  ⟨hx, List.forall_mem_cons.mpr ⟨hi, h.2⟩⟩

theorem isFree_iff (h : Pools s l) : IsFree s q ↔ ∃ k, q ∈ l k := by
  constructor
  · rintro ⟨k, l', hc, hq⟩
    exact ⟨k, Chain.unique hc (h.pool k).chain ▸ hq⟩
  · rintro ⟨k, hq⟩
    exact ⟨k, l k, (h.pool k).chain, hq⟩

open Classical in
noncomputable def tableLedger (s : Kernel) (r : Nat) (l : Bool → List Nat) : Ledger where
  own q :=
    if q ∈ l true then .free true
    else if q ∈ l false then .free false
    else if h : IsTable s.mem r q then .table r h.choose
    else .other
  free := l

theorem tableLedger_free (h : Pools s l) (q : Nat) (k : Bool) :
    q ∈ (tableLedger s r l).free k ↔ (tableLedger s r l).own q = .free k := by
  have hdisj : q ∈ l true → q ∉ l false := fun h1 h2 => absurd (h.disjoint h1 h2) (by decide)
  unfold tableLedger
  cases k <;> by_cases h1 : q ∈ l true <;> by_cases h2 : q ∈ l false <;> simp_all
  all_goals split <;> simp

theorem tableLedger_table (h : TableOk s r) (hl : Pools s l) {x : List Nat} {r' : Nat} :
    (tableLedger s r l).own q = .table r' x ↔ r' = r ∧ IsPos x ∧ tableAt s.mem r x = some q := by
  constructor
  · intro hq
    unfold tableLedger at hq
    dsimp only at hq
    split at hq
    · cases hq
    split at hq
    · cases hq
    split at hq
    · next ht =>
      obtain ⟨rfl, rfl⟩ := Use.table.inj hq
      exact ⟨rfl, ht.choose_spec⟩
    · cases hq
  · rintro ⟨rfl, hx, ht⟩
    have htab : IsTable s.mem r' q := ⟨x, hx, ht⟩
    have hfree := (h.page q htab).2.2
    rw [isFree_iff hl] at hfree
    have h1 : q ∉ l true := fun hc => hfree ⟨true, hc⟩
    have h2 : q ∉ l false := fun hc => hfree ⟨false, hc⟩
    unfold tableLedger
    dsimp only
    rw [if_neg h1, if_neg h2, dif_pos htab]
    exact congrArg _ (h.distinct _ _ q htab.choose_spec.1 hx htab.choose_spec.2 ht)

theorem TableOk.heap (h : TableOk s r) (hl : Pools s l) :
    Heap (tableLedger s r l) s ∧ (tableLedger s r l).Live r := by
  have hlive : (tableLedger s r l).Live r :=
    (tableLedger_table h hl).mpr ⟨rfl, ⟨Nat.zero_le 2, fun _ hi => absurd hi List.not_mem_nil⟩, rfl⟩
  refine ⟨⟨hl, tableLedger_free hl, fun q hq => ?_, fun p r' hp =>
    ?_, fun r' p x i hl' hp hx hi hv => ?_⟩,
    hlive⟩
  · cases hu : (tableLedger s r l).own q with
    | other => exact absurd hu hq
    | free k =>
        have hm := (tableLedger_free (r := r) hl q k).mpr hu
        have hp := hl.page hm
        unfold kernelBase at hp
        exact ⟨hp.1, by omega⟩
    | table r' x =>
        obtain ⟨-, hx, ht⟩ := (tableLedger_table h hl).mp hu
        have hp := h.page q ⟨x, hx, ht⟩
        exact ⟨hp.1, hp.2.1⟩
    | _ =>
        unfold tableLedger at hu
        dsimp only at hu
        repeat' split at hu
        all_goals cases hu
  · obtain ⟨rfl, -, ht⟩ := (tableLedger_table h hl).mp hp
    exact (Option.some.inj ht).symm
  · obtain ⟨rfl, hpos, ht⟩ := (tableLedger_table h hl).mp hp
    exact (tableLedger_table h hl).mpr ⟨rfl, hpos.cons hx hi, tableAt_cons.mpr ⟨p, ht, hv, rfl⟩⟩

/-- A live root of a heap is a well-formed table. -/
theorem Heap.tableOk (h : Heap g s) (hl : g.Live r)
    (hleaf : ∀ v < vaPages, hasFlag (leaf s.mem r v) pteV = true →
      pteFlags (leaf s.mem r v) ≠ pteV) :
    TableOk s r := by
  refine ⟨⟨g.free, h.pools⟩, fun x y p hx hy htx hty => ?_, fun q hq => ?_, hleaf⟩
  · have h1 := h.tableAt_own hl hx.2 hx.1 htx
    have h2 := h.tableAt_own hl hy.2 hy.1 hty
    exact (Use.table.inj (h1.symm.trans h2)).2
  · obtain ⟨x, hx, ht⟩ := hq
    have hown := h.tableAt_own hl hx.2 hx.1 ht
    obtain ⟨h1, h2⟩ := h.table_page hown
    refine ⟨h1, h2, fun hf => ?_⟩
    obtain ⟨k, hk⟩ := (isFree_iff h.pools).mp hf
    have hfree := (h.free_iff q k).mp hk
    rw [hown] at hfree
    cases hfree

/-! ## Translations -/

theorem translate_congr {m m' : Bytes} (h : leaf m' r v = leaf m r v) :
    translate m' r v = translate m r v := by
  unfold translate
  rw [h]

theorem translate_eq_none {m : Bytes} :
    translate m r v = none ↔ hasFlag (leaf m r v) pteV = false := by
  unfold translate
  split <;> simp_all

theorem translate_ne_none {m : Bytes} :
    translate m r v ≠ none ↔ hasFlag (leaf m r v) pteV = true := by
  rw [Ne, translate_eq_none, Bool.not_eq_false]

theorem mapPte_eq {pa perm : Nat} (hperm : perm < 2 ^ 10) (k : Nat) :
    mapPte pa perm k = u64 (pa + k * pgSize) / 2 ^ 12 * 2 ^ 10 + (perm ||| pteV) := by
  unfold mapPte
  rw [Nat.or_assoc, pte_eq_add (Nat.or_lt_two_pow hperm (by decide))]

theorem or_pteV_odd (f : Nat) : (f ||| pteV) % 2 = 1 := by
  unfold pteV
  rw [Nat.or_mod_two_eq_one]
  exact .inr rfl

/-- A valid entry has the bit already. -/
theorem or_pteV_of_odd {f : Nat} (h : f % 2 = 1) : f ||| pteV = f := by
  apply Nat.eq_of_testBit_eq
  intro i
  rw [Nat.testBit_or]
  cases i with
  | zero => simp [Nat.testBit_zero, h, pteV]
  | succ i => simp [Nat.testBit_succ, pteV]

theorem mapPte_flags {p perm : Nat} (hperm : perm < 2 ^ 10) (k : Nat) :
    hasFlag (mapPte p perm k) pteV = true ∧ pteFlags (mapPte p perm k) = perm ||| pteV := by
  have hodd := or_pteV_odd perm
  have hlt : perm ||| pteV < 2 ^ 10 := Nat.or_lt_two_pow hperm (by decide)
  rw [mapPte_eq hperm, hasFlag_pteV]
  unfold pteFlags
  omega

theorem mapPte_frame {pa perm : Nat} (hperm : perm < 2 ^ 10) (k : Nat) :
    mapPte pa perm k / 2 ^ 10 = (pa / 2 ^ 12 + k) % 2 ^ 52 := by
  have hlt : perm ||| pteV < 2 ^ 10 := Nat.or_lt_two_pow hperm (by decide)
  rw [mapPte_eq hperm]
  unfold u64 pgSize
  omega

theorem translate_map {m : Bytes} {pa perm k : Nat} (hperm : perm < 2 ^ 10)
    (h : leaf m r v = mapPte pa perm k) :
    translate m r v = some ((pa / 2 ^ 12 + k) % 2 ^ 52, perm ||| pteV) := by
  obtain ⟨hv, hf⟩ := mapPte_flags (p := pa) hperm k
  unfold translate
  rw [h, hv, if_pos rfl, hf, mapPte_frame hperm]

/-! ## Calls -/

/-- A map over a well-formed table. -/
theorem map_sat {va pa len perm : Nat} (h : TableOk s r) (hl : Pools s l)
    (hr : (MapOp.map va pa len perm).Ready r s) :
    Sat (vmMappages r va pa len perm) s G
      (fun _ s' => TableOk s' r ∧ ∀ v < vaPages,
        translate s'.mem r v = (MapOp.map va pa len perm).apply (translate s.mem r) v)
      fun e => e = .vmMappagesOom ∧ (l true).length <
        tablesFor s.mem r (va / pgSize) ((va + len - 1) / pgSize - va / pgSize) := by
  obtain ⟨hlen, hva, hpa, hperm, hne⟩ := hr
  obtain ⟨hheap, hlive⟩ := h.heap hl
  have hperm64 : perm < 2 ^ 64 := Nat.lt_trans hperm (by decide)
  refine (vmMappages_sat hheap hlive hlen hva hpa hperm64).mono ?_ fun e he => he
  rintro - s' ⟨g', he⟩
  refine ⟨he.heap.tableOk he.live fun v hv hval => ?_, fun v hv => ?_⟩
  · rw [he.leaf v hv] at hval ⊢
    split at hval
    · next hin =>
      rw [if_pos hin, (mapPte_flags hperm _).2]
      exact hne
    · next hin =>
      rw [if_neg hin]
      exact h.leaf v hv hval
  · have hleaf := he.leaf v hv
    unfold MapOp.apply
    dsimp only
    split
    · next hin =>
      rw [if_pos hin] at hleaf
      exact translate_map hperm hleaf
    · next hin =>
      rw [if_neg hin] at hleaf
      exact translate_congr hleaf

theorem TableOk.unmappable {va len : Nat} {freeit : Bool} (h : TableOk s r)
    (hr : (MapOp.unmap va len freeit).Ready r s) (h1 : va / pgSize ≤ v)
    (h2 : v < va / pgSize + pageCount len) : Unmappable s r freeit v := by
  obtain ⟨hal, hva, hmap, hfree⟩ := hr
  have hbelow : v < vaPages := by
    unfold pageCount at h2
    unfold vaPages vaMax pgSize at *
    omega
  have hvalid := translate_ne_none.mp (hmap v h1 h2)
  exact ⟨hbelow, hvalid, h.leaf v hbelow hvalid, fun hf => ((hfree hf).1 v h1 h2).1⟩

theorem unmap_sat {va len : Nat} {freeit : Bool} {E : Panic → Prop} (h : TableOk s r)
    (hr : (MapOp.unmap va len freeit).Ready r s) :
    Sat (vmUnmappages r va len freeit) s (fun _ => True)
      (fun _ s' => TableOk s' r ∧ ∀ v < vaPages,
        translate s'.mem r v = (MapOp.unmap va len freeit).apply (translate s.mem r) v) E := by
  obtain ⟨l, hl⟩ := h.pools
  obtain ⟨hheap, hlive⟩ := h.heap hl
  have hok : ∀ v, va / pgSize ≤ v → v < va / pgSize + pageCount len → Unmappable s r freeit v :=
    fun v h1 h2 => h.unmappable hr h1 h2
  obtain ⟨hal, hva, -, hfree⟩ := hr
  have hmul : va / pgSize * pgSize = va := Nat.div_mul_cancel (Nat.dvd_of_mod_eq_zero hal)
  have hlt : va / pgSize * pgSize + len < 2 ^ 64 := by
    rw [hmul]
    unfold vaMax at hva
    omega
  rw [← hmul]
  refine vmUnmappages_sat (D := fun u => u.IsData) (n := pageCount len) hheap hlive hlt rfl ?_
    (fun _ _ _ _ _ => trivial) ?_ ?_
  · rintro ⟨v, h1, h2, hbad⟩
    exact absurd (hok v h1 h2) hbad
  · rintro rfl
    obtain ⟨hpages, hinj⟩ := hfree rfl
    refine ⟨fun v h1 h2 _ => ?_, fun v₁ v₂ h1 h2 h3 h4 _ _ he => hinj v₁ v₂ h1 h2 h3 h4 he⟩
    -- a frame that is neither free nor a table
    obtain ⟨-, hnf, hnt⟩ := hpages v h1 h2
    have hdata : ((tableLedger s r l).own (pteToPa (leaf s.mem r v))).IsData := by
      cases hu : (tableLedger s r l).own (pteToPa (leaf s.mem r v)) with
      | free k => exact hnf ((isFree_iff hl).mpr ⟨k, (tableLedger_free hl _ k).mpr hu⟩)
      | table r' x =>
          obtain ⟨-, hx, ht⟩ := (tableLedger_table h hl).mp hu
          exact hnt ⟨x, hx, ht⟩
      | _ => trivial
    exact ⟨hdata, hdata⟩
  · intro _ g' s' hu
    refine ⟨hu.heap.tableOk hu.live fun v hv hval => ?_, fun v hv => ?_⟩
    · rw [hu.leaf v hv] at hval ⊢
      split at hval
      · rw [hasFlag_zero] at hval
        cases hval
      · next hin =>
        rw [if_neg hin]
        exact h.leaf v hv hval
    · have hleaf := hu.leaf v hv
      unfold MapOp.apply
      dsimp only
      rw [hmul]
      split
      · next hin =>
        rw [if_pos hin] at hleaf
        rw [translate_eq_none, hleaf, hasFlag_zero]
      · next hin =>
        rw [if_neg hin] at hleaf
        exact translate_congr hleaf

theorem walk_run {va : Nat} (hva : va < vaMax) :
    vmGetpte r va false s = (.ok (slot s.mem r (va / pgSize), s), []) := by
  have hsat : Sat (vmGetpte r va false) s (fun _ => False)
      (fun a s' => a = slot s.mem r (va / pgSize) ∧ s' = s) fun _ => False :=
    (vmGetpte_sat hva).mpr ⟨rfl, rfl⟩
  obtain ⟨a, s', hr, rfl, rfl⟩ := hsat.returns
  have hev : (vmGetpte r va false s').2 = [] := List.eq_nil_iff_forall_not_mem.mpr hsat.1
  exact Prod.ext hr hev

theorem MapOp.run_sat (h : TableOk s r) {op : MapOp} (hr : op.Ready r s) :
    Sat (op.run r) s (fun _ => True)
      (fun _ s' => TableOk s' r ∧ ∀ v < vaPages,
        translate s'.mem r v = op.apply (translate s.mem r) v) fun e => e = .vmMappagesOom := by
  cases op with
  | map va pa len perm =>
      obtain ⟨l, hl⟩ := h.pools
      exact (map_sat h hl hr).mono (fun _ _ hq => hq) fun e he => he.1
  | unmap va len freeit => exact unmap_sat h hr
  | walk va =>
      unfold MapOp.run
      rw [sat_bind, vmGetpte_sat hr, sat_pure]
      exact ⟨h, fun _ _ => rfl⟩

theorem MapOp.apply_congr {f f' : Nat → Option (Nat × Nat)} (h : ∀ v < vaPages, f v = f' v)
    (op : MapOp) : ∀ v < vaPages, op.apply f v = op.apply f' v := by
  intro v hv
  cases op with
  | map va pa len perm =>
      unfold MapOp.apply
      dsimp only
      rw [h v hv]
  | unmap va len freeit =>
      unfold MapOp.apply
      dsimp only
      rw [h v hv]
  | walk va => exact h v hv

theorem applyAll_congr {f f' : Nat → Option (Nat × Nat)} (ops : List MapOp)
    (h : ∀ v < vaPages, f v = f' v) :
    ∀ v < vaPages, ops.foldl (fun f op => op.apply f) f v =
      ops.foldl (fun f op => op.apply f) f' v := by
  induction ops generalizing f f' with
  | nil => exact h
  | cons op ops ih => exact ih (op.apply_congr h)

/-- Sequences of calls are sequences of updates. -/
theorem runAll_refines (h : TableOk s r) (ops : List MapOp) (hr : ReadyAll r ops s) :
    Sat (runAll (MapOp.run r) ops) s (fun _ => True)
      (fun _ s' => TableOk s' r ∧ ∀ v < vaPages,
        translate s'.mem r v = ops.foldl (fun f op => op.apply f) (translate s.mem r) v)
      fun e => e = .vmMappagesOom := by
  induction ops generalizing s with
  | nil => exact (sat_pure ()).mpr ⟨h, fun _ _ => rfl⟩
  | cons op ops ih =>
      obtain ⟨hop, hrest⟩ := hr
      refine (MapOp.run_sat h hop).run.bind fun _ s₁ ⟨⟨h₁, ht₁⟩, hrun⟩ => ?_
      refine (ih h₁ (hrest s₁ hrun)).imp fun _ s' ⟨h', ht'⟩ => ⟨h', fun v hv => ?_⟩
      rw [ht' v hv, List.foldl_cons]
      exact applyAll_congr ops ht₁ v hv

/-- The range that was mapped, unmapped again. -/
theorem map_unmap_sat {va pa len perm : Nat} (h : TableOk s r)
    (hr : (MapOp.map va pa len perm).Ready r s)
    (hnone : ∀ v, va / pgSize ≤ v → v ≤ (va + len - 1) / pgSize → translate s.mem r v = none) :
    Sat (do
        vmMappages r va pa len perm
        vmUnmappages r (pgRoundDown va) (va % pgSize + len) false) s (fun _ => True)
      (fun _ s' => ∀ v < vaPages, translate s'.mem r v = translate s.mem r v)
      fun e => e = .vmMappagesOom := by
  obtain ⟨l, hl⟩ := h.pools
  refine Sat.bind ((map_sat (G := fun _ => True) h hl hr).mono (fun _ _ hq => hq) fun e he => he.1)
    fun _ s₁ ⟨h₁, ht₁⟩ => ?_
  obtain ⟨hlen, hva, -⟩ := hr
  -- both calls visit the same pages
  have hdiv : pgRoundDown va / pgSize = va / pgSize := Nat.mul_div_cancel _ (by decide)
  have hsame : ∀ v, v < va / pgSize + pageCount (va % pgSize + len) ↔
      v ≤ (va + len - 1) / pgSize := by
    intro v
    unfold pageCount pgSize
    omega
  have hready : (MapOp.unmap (pgRoundDown va) (va % pgSize + len) false).Ready r s₁ := by
    refine ⟨Nat.mul_mod_left _ _, ?_, fun v h1 h2 => ?_, fun hf => absurd hf (by decide)⟩
    · unfold pgRoundDown pgSize
      omega
    · rw [hdiv] at h1 h2
      have hle := (hsame v).mp h2
      have hbelow : v < vaPages := by
        unfold vaPages vaMax pgSize at *
        omega
      rw [ht₁ v hbelow]
      unfold MapOp.apply
      dsimp only
      rw [if_pos ⟨h1, hle⟩]
      exact Option.some_ne_none _
  refine (unmap_sat h₁ hready).imp fun _ s' ⟨_, ht'⟩ v hv => ?_
  rw [ht' v hv]
  have hm := ht₁ v hv
  unfold MapOp.apply at hm ⊢
  dsimp only at hm ⊢
  rw [hdiv]
  by_cases hin : va / pgSize ≤ v ∧ v ≤ (va + len - 1) / pgSize
  · rw [if_pos ⟨hin.1, (hsame v).mpr hin.2⟩, hnone v hin.1 hin.2]
  · rw [if_neg fun hc => hin ⟨hc.1, (hsame v).mp hc.2⟩, hm, if_neg hin]

/-! ## The main result -/

/-- Page tables refine partial maps: along every sequence of calls the walk of `vm_getpte` is the
map that the calls describe, every call ends unless the kernel pool runs out of pages, looking an
entry up changes nothing, and unmapping what was just mapped restores every translation. -/
theorem page_table_refines_map (s : Kernel) (r : Nat) (h : TableOk s r) :
    (∀ ops, ReadyAll r ops s →
      Sat (runAll (MapOp.run r) ops) s (fun _ => True)
        (fun _ s' => TableOk s' r ∧ ∀ v < vaPages,
          translate s'.mem r v = ops.foldl (fun f op => op.apply f) (translate s.mem r) v)
        fun e => e = .vmMappagesOom) ∧
    (∀ l va pa len perm, Pools s l → (MapOp.map va pa len perm).Ready r s →
      tablesFor s.mem r (va / pgSize) ((va + len - 1) / pgSize - va / pgSize) ≤ (l true).length →
      ∃ s', (vmMappages r va pa len perm s).1 = .ok ((), s')) ∧
    (∀ va, va < vaMax → vmGetpte r va false s = (.ok (slot s.mem r (va / pgSize), s), [])) ∧
    ∀ va pa len perm, (MapOp.map va pa len perm).Ready r s →
      (∀ v, va / pgSize ≤ v → v ≤ (va + len - 1) / pgSize → translate s.mem r v = none) →
      Sat (do
          vmMappages r va pa len perm
          vmUnmappages r (pgRoundDown va) (va % pgSize + len) false) s (fun _ => True)
        (fun _ s' => ∀ v < vaPages, translate s'.mem r v = translate s.mem r v)
        fun e => e = .vmMappagesOom := by
  refine ⟨fun ops => runAll_refines h ops, fun l va pa len perm hl hr hroom => ?_,
    fun va hva => walk_run hva, fun va pa len perm hr hnone => map_unmap_sat h hr hnone⟩
  have hsat := (map_sat (G := fun _ => True) h hl hr).never fun e he =>
    absurd hroom (Nat.not_le.mpr he.2)
  obtain ⟨_, s', hrun, -⟩ := hsat.returns
  exact ⟨s', hrun⟩

end

/-- A state with two free kernel pages and an empty table at `emptyRoot`. -/
def emptyTable : Kernel :=
  { Kernel.start 0x80030000 0x80007000 0x80008000 (putLE (fun _ => 0) 0x80030000 8 0x80031000) with
    kern := ⟨0x80030000, 0x80430000, 2, 0x80030000⟩
    user := ⟨0x80430000, 0x88000000, 0, 0⟩ }

def emptyRoot : Nat := 0x87000000

def emptyFree (k : Bool) : List Nat := if k then [0x80030000, 0x80031000] else []

theorem emptyTable_pools : Pools emptyTable emptyFree := by
  refine ⟨⟨by decide, by decide, by decide, rfl, rfl, rfl, rfl⟩, fun k => ?_, fun k => rfl⟩
  cases k with
  | false => exact ⟨rfl, rfl, fun q hq => absurd hq List.not_mem_nil⟩
  | true =>
      refine ⟨⟨rfl, ?_, ?_⟩, rfl, fun q hq => ?_⟩
      · decide +kernel
      · change nextPage emptyTable.mem 0x80031000 = none
        decide +kernel
      · change q ∈ [0x80030000, 0x80031000] at hq
        change q % pgSize = 0 ∧ 0x80030000 ≤ q ∧ q < 0x80430000
        simp only [List.mem_cons, List.not_mem_nil, or_false] at hq
        rcases hq with rfl | rfl
        · decide
        · decide

theorem emptyTable_entry {i : Nat} : entry emptyTable.mem emptyRoot i = 0 := by
  have hz : entry emptyTable.mem emptyRoot i = getLE (fun _ => 0) 0 8 := by
    refine getLE_congr fun j _ => ?_
    change putLE (fun _ => 0) 0x80030000 8 0x80031000 (pteAt emptyRoot i + j) = 0
    refine splice_out (.inr ?_)
    unfold pteAt emptyRoot
    omega
  rw [hz, getLE_zero]

theorem emptyTable_tableAt {x : List Nat} (h : x ≠ []) :
    tableAt emptyTable.mem emptyRoot x = none := by
  induction x with
  | nil => exact absurd rfl h
  | cons i x ih =>
      cases x with
      | nil => rw [tableAt, tableAt, Option.bind_some, emptyTable_entry, hasFlag_zero]; rfl
      | cons j x => rw [tableAt, ih (List.cons_ne_nil j x), Option.bind_none]

theorem emptyTable_leaf (v : Nat) : leaf emptyTable.mem emptyRoot v = 0 := by
  unfold leaf
  rw [emptyTable_tableAt (x := lowPos v) (List.cons_ne_nil _ _)]

/-- The table is well formed with any free pages but its root. -/
theorem emptyMem_ok {s : Kernel} {l : Bool → List Nat}
    (hm : s.mem = emptyTable.mem) (hp : Pools s l)
    (hroot : ∀ k, emptyRoot ∉ l k) : TableOk s emptyRoot := by
  have hnil : ∀ x p, tableAt s.mem emptyRoot x = some p → x = [] ∧ p = emptyRoot := by
    intro x p hp
    rw [hm] at hp
    by_cases hx : x = []
    · subst hx
      exact ⟨rfl, (Option.some.inj hp).symm⟩
    · rw [emptyTable_tableAt hx] at hp
      cases hp
  refine ⟨⟨_, hp⟩, fun x y p _ _ hx hy => ?_, fun q hq => ?_, fun v _ hv => ?_⟩
  · rw [(hnil x p hx).1, (hnil y p hy).1]
  · obtain ⟨x, -, hx⟩ := hq
    obtain ⟨-, rfl⟩ := hnil x q hx
    refine ⟨by decide, by decide, fun hf => ?_⟩
    obtain ⟨k, hk⟩ := (isFree_iff hp).mp hf
    exact hroot k hk
  · rw [hm, emptyTable_leaf, hasFlag_zero] at hv
    cases hv

theorem emptyTable_ok : TableOk emptyTable emptyRoot := by
  refine emptyMem_ok rfl emptyTable_pools fun k hk => ?_
  cases k with
  | false => exact absurd hk List.not_mem_nil
  | true => exact absurd hk (by decide)

/-- A leaf that has no flag but `PTE_V` is taken for a table. -/
theorem unmap_not_leaf {g : Ledger} {s : Kernel} {r : Nat} (h : Heap g s) (hl : g.Live r)
    (hv : hasFlag (leaf s.mem r 0) pteV = true) (hf : pteFlags (leaf s.mem r 0) = pteV) :
    Sat (vmUnmappages r 0 pgSize false) s (fun _ => True) (fun _ _ => False)
      fun e => e = .vmUnmappagesNotLeaf := by
  obtain ⟨p, ht⟩ := leaf_ne_zero (m := s.mem) (r := r) (v := 0) fun hz => by
    rw [hz, hasFlag_zero] at hv
    cases hv
  have hpos := (h.table_page (h.low_own hl ht)).2
  have hslot : slot s.mem r (0 / pgSize) ≠ 0 := by
    rw [Nat.zero_div, slot_eq ht]
    unfold pteAt
    omega
  have hload : getLE s.mem (slot s.mem r (0 / pgSize)) 8 = leaf s.mem r 0 := by
    rw [Nat.zero_div, slot_eq ht]
    exact (leaf_eq ht).symm
  unfold vmUnmappages unmappagesLoop unmapPage
  rw [if_neg (by decide), if_pos (by decide), sat_bind, sat_bind,
    vmGetpte_sat (by decide), if_neg hslot,
    sat_bind, sat_load, hload, hv, Bool.not_true, if_neg (by decide),
    if_pos hf, sat_bind, sat_panic]

theorem page_table_refines_map_empty :
    Sat (do
        vmMappages emptyRoot 0x1234 0x87001000 8 (pteR ||| pteU)
        vmUnmappages emptyRoot (pgRoundDown 0x1234) (0x1234 % pgSize + 8) false) emptyTable
          (fun _ => True)
      (fun _ s' => ∀ v < vaPages,
        translate s'.mem emptyRoot v = translate emptyTable.mem emptyRoot v)
      fun e => e = .vmMappagesOom :=
  (page_table_refines_map emptyTable emptyRoot emptyTable_ok).2.2.2 0x1234 0x87001000 8
    (pteR ||| pteU)
    ⟨by decide, by decide, by decide, by decide, by decide⟩ fun v _ _ =>
      translate_eq_none.mpr (by rw [emptyTable_leaf, hasFlag_zero])

/-- A non-zero `perm` is not enough: with `PTE_V` alone the range that was just mapped cannot be
unmapped, and with a bit above the flags another frame is mapped. -/
theorem perm_of_valid_bit_alone :
    TableOk emptyTable emptyRoot ∧ translate emptyTable.mem emptyRoot 0 = none ∧
    ¬ IsTable emptyTable.mem emptyRoot 0x87002000 ∧ ¬ IsFree emptyTable 0x87002000 ∧
    (∃ s, (vmMappages emptyRoot 0 0x87002000 pgSize pteV emptyTable).1 = .ok ((), s) ∧
      translate s.mem emptyRoot 0 = some (0x87002, pteV) ∧
      (vmUnmappages emptyRoot 0 pgSize false s).1 = .error .vmUnmappagesNotLeaf) ∧
    ∃ s, (vmMappages emptyRoot 0 0x87002000 pgSize 0x400 emptyTable).1 = .ok ((), s) ∧
      translate s.mem emptyRoot 0 = some (0x87003, pteV) := by
  obtain ⟨hheap, hlive⟩ := emptyTable_ok.heap emptyTable_pools
  have hmap : ∀ perm < 2 ^ 64, ∃ s g, (vmMappages emptyRoot 0 0x87002000 pgSize perm emptyTable).1
      = .ok ((), s) ∧ Heap g s ∧ g.Live emptyRoot ∧
        leaf s.mem emptyRoot 0 = mapPte 0x87002000 perm 0 := by
    intro perm hperm
    have hsat := (vmMappages_sat (G := fun _ => True) hheap hlive (show 0 < pgSize by decide)
      (show 0 + pgSize ≤ vaMax by decide) (show 0x87002000 < 2 ^ 64 by decide) hperm).never
      fun e he => absurd he.2 (Nat.not_lt.mpr (tablesFor_le _ _ _ _))
    obtain ⟨_, s, hrun, g, he⟩ := hsat.returns
    exact ⟨s, g, hrun, he.heap, he.live, he.leaf 0 (by decide)⟩
  refine ⟨emptyTable_ok, translate_eq_none.mpr (by rw [emptyTable_leaf, hasFlag_zero]), ?_, ?_, ?_,
    ?_⟩
  · rintro ⟨x, -, hx⟩
    by_cases hnil : x = []
    · rw [hnil] at hx
      exact absurd (Option.some.inj hx) (by decide)
    · rw [emptyTable_tableAt hnil] at hx
      cases hx
  · intro hf
    obtain ⟨k, hk⟩ := (isFree_iff emptyTable_pools).mp hf
    cases k with
    | false => exact absurd hk List.not_mem_nil
    | true => exact absurd hk (by decide)
  · obtain ⟨s, g, hrun, hg, hgl, hleaf⟩ := hmap pteV (by decide)
    have hbad := unmap_not_leaf hg hgl (by rw [hleaf]; decide) (by rw [hleaf]; decide)
    refine ⟨s, hrun, ?_, ?_⟩
    · unfold translate
      rw [hleaf]
      decide
    · have h2 := hbad.2
      cases hres : (vmUnmappages emptyRoot 0 pgSize false s).1 with
      | ok p =>
          rw [hres] at h2
          exact h2.elim
      | error e =>
          rw [hres] at h2
          exact congrArg _ h2
  · obtain ⟨s, g, hrun, -, -, hleaf⟩ := hmap 0x400 (by decide)
    refine ⟨s, hrun, ?_⟩
    unfold translate
    rw [hleaf]
    decide

end WhuOs.Mem
