import Mathlib.Algebra.Order.BigOperators.Group.List
import Mathlib.Data.Fintype.Card
import WhuOs.Mem.CopySpace
import WhuOs.Mem.HeapTop

/-! # Isolated copies

What `uvm_copy_pgtbl` is for: the pages of the new table hold what those of the old one
hold, with the same flags, in frames of their own, so that neither side sees what the
other one writes afterwards.
-/

namespace WhuOs.Mem

open Prog Bytes

/-- Well-formed tables side by side, with the allocator's lists in order. -/
structure TablesOk (s : Kernel) (T : Nat → Prop) : Prop where
  pools : ∃ l, Pools s l
  distinct : ∀ r r' x y p, T r → T r' → IsPos x → IsPos y → tableAt s.mem r x = some p →
    tableAt s.mem r' y = some p → r = r' ∧ x = y
  page : ∀ r q, T r → IsTable s.mem r q → q % pgSize = 0 ∧ 0 < q ∧ ¬ IsFree s q

def TableSpot (s : Kernel) (T : Nat → Prop) (q : Nat) (z : Nat × List Nat) : Prop :=
  T z.1 ∧ IsPos z.2 ∧ tableAt s.mem z.1 z.2 = some q

open Classical in
noncomputable def tablesLedger (s : Kernel) (T : Nat → Prop) (l : Bool → List Nat) : Ledger where
  own q :=
    if q ∈ l true then .free true
    else if q ∈ l false then .free false
    else if h : ∃ z, TableSpot s T q z then .table h.choose.1 h.choose.2
    else .other
  free := l

def frameOf (m : Bytes) (r v : Nat) : Nat := pteToPa (leaf m r v)

/-- `m'` is `m` after any number of writes to the pages `P` of a table. -/
def WrittenThrough (m : Bytes) (r : Nat) (P : Nat → Prop) (m' : Bytes) : Prop :=
  ∀ a, m' a ≠ m a → ∃ v, P v ∧ frameOf m r v ≤ a ∧ a < frameOf m r v + pgSize

def SeenAs (m : Bytes) (r : Nat) (P : Nat → Prop) (m' : Bytes) : Prop :=
  (∀ v < vaPages, leaf m' r v = leaf m r v) ∧ ∀ v, P v →
    ∀ i < pgSize, m' (frameOf m r v + i) = m (frameOf m r v + i)

/-- The pages of `P` are isolated copies in the table of `new`. -/
structure Isolated (old new : Nat) (P : Nat → Prop) (s s' : Kernel) : Prop where
  mapped : ∀ v, P v → Present s' new v ∧ pteFlags (leaf s'.mem new v) = pteFlags (leaf s.mem old v)
  bytes : ∀ v, P v →
    ∀ i < pgSize, s'.mem (frameOf s'.mem new v + i) = s.mem (frameOf s.mem old v + i)
  distinct : ∀ v w, P v → P w → frameOf s'.mem new v = frameOf s'.mem new w → v = w
  apart : ∀ v w, P v → Present s old w → frameOf s'.mem new v ≠ frameOf s.mem old w
  target : ∀ v < vaPages, ¬ P v → translate s'.mem new v = translate s.mem new v
  source : SeenAs s.mem old (Present s old) s'.mem
  behindNew : ∀ m, WrittenThrough s'.mem new P m → SeenAs s'.mem old (Present s' old) m
  behindOld : ∀ m, WrittenThrough s'.mem old (Present s' old) m → SeenAs s'.mem new P m

/-- The pages that are copied: page 0, the mapped pages of the heap, the stack and the regions. -/
def CopyPages (s : Kernel) (old heapTop ustackBase ustackPages : Nat) (l : List NodeId)
    (w : Nat) : Prop :=
  w = 0 ∨ (1 ≤ w ∧ w * pgSize < pgRoundUp heapTop ∧ Present s old w) ∨
    Range (ustackBase / pgSize) ustackPages w ∨
    ∃ i ∈ l, Range ((s.nodes i).begin / pgSize) (s.nodes i).npages w

/-- The number of pages that are copied, those of overlapping ranges more than once. -/
def copyNeed (s : Kernel) (old heapTop ustackPages : Nat) (l : List NodeId) : Nat :=
  1 + heapCopies s.mem old heapTop + ustackPages + (l.map fun i => (s.nodes i).npages).sum

/-- The pages that are copied, in order; those of overlapping ranges stand more than once. -/
def copyOrder (s : Kernel) (old heapTop ustackBase ustackPages : Nat) (l : List NodeId) : List Nat :=
  [0] ++ heapList s.mem old heapTop ++ List.range' (ustackBase / pgSize) ustackPages ++
    l.flatMap fun i => List.range' ((s.nodes i).begin / pgSize) (s.nodes i).npages

theorem copyNeed_one {s : Kernel} {old heapTop : Nat} (h : heapCopies s.mem old heapTop = 0) :
    copyNeed s old heapTop 0 [] = 1 := by
  unfold copyNeed
  rw [h]
  rfl

/-- Two tables, and the stack and the regions mapped in the old one. -/
structure CopyArgs (s : Kernel) (old new ustackBase ustackPages : Nat) (o : Option NodeId)
    (l : List NodeId) : Prop where
  tables : TablesOk s fun r => r = old ∨ r = new
  ne : old ≠ new
  frames : ∀ v, Present s old v →
    ¬ IsFree s (frameOf s.mem old v) ∧ ¬ IsTable s.mem old (frameOf s.mem old v) ∧
    ¬ IsTable s.mem new (frameOf s.mem old v)
  text : s.etext ≤ s.allocBegin
  list : Regions s.nodes o l
  zero : Present s old 0
  stackAligned : ustackBase % pgSize = 0
  stack : ∀ w, Range (ustackBase / pgSize) ustackPages w → Present s old w
  regionAligned : ∀ i ∈ l, (s.nodes i).begin % pgSize = 0
  region : ∀ i ∈ l, ∀ w, Range ((s.nodes i).begin / pgSize) (s.nodes i).npages w → Present s old w

section

variable {g g' : Ledger} {s s' : Kernel} {T : Nat → Prop} {l : Bool → List Nat}
  {old new r q v n a b : Nat}
  {x : List Nat} {R : Nat → Prop} {ns : List NodeId} {o : Option NodeId}
  {heapTop ustackBase ustackPages : Nat}

/-! ## The ledger of the tables -/

theorem tablesLedger_free (h : Pools s l) (q : Nat) (k : Bool) :
    q ∈ (tablesLedger s T l).free k ↔ (tablesLedger s T l).own q = .free k := by
  have hdisj : q ∈ l true → q ∉ l false := fun h1 h2 => absurd (h.disjoint h1 h2) (by decide)
  unfold tablesLedger
  cases k <;> by_cases h1 : q ∈ l true <;> by_cases h2 : q ∈ l false <;> simp_all
  all_goals split <;> simp

theorem tablesLedger_table (h : TablesOk s T) (hl : Pools s l) :
    (tablesLedger s T l).own q = .table r x ↔ TableSpot s T q (r, x) := by
  constructor
  · intro hq
    unfold tablesLedger at hq
    dsimp only at hq
    split at hq
    · cases hq
    split at hq
    · cases hq
    split at hq
    · next hex =>
      obtain ⟨rfl, rfl⟩ := Use.table.inj hq
      exact hex.choose_spec
    · cases hq
  · intro hz
    have hex : ∃ z, TableSpot s T q z := ⟨_, hz⟩
    obtain ⟨hr, hx, ht⟩ := hz
    have hfree := (h.page r q hr ⟨x, hx, ht⟩).2.2
    rw [isFree_iff hl] at hfree
    obtain ⟨hr', hx', ht'⟩ := hex.choose_spec
    obtain ⟨h1, h2⟩ := h.distinct _ _ _ _ q hr' hr hx' hx ht' ht
    unfold tablesLedger
    dsimp only
    rw [if_neg fun hc => hfree ⟨true, hc⟩, if_neg fun hc => hfree ⟨false, hc⟩, dif_pos hex, h1, h2]

theorem tablesLedger_other (h : TablesOk s T) (hl : Pools s l) (hf : ¬ IsFree s q)
    (ht : ∀ r, T r → ¬ IsTable s.mem r q) : (tablesLedger s T l).own q = .other := by
  cases hu : (tablesLedger s T l).own q with
  | other => rfl
  | free k => exact absurd ((isFree_iff hl).mpr ⟨k, (tablesLedger_free hl q k).mpr hu⟩) hf
  | table r x =>
      obtain ⟨hr, hx, htab⟩ := (tablesLedger_table h hl).mp hu
      exact absurd ⟨x, hx, htab⟩ (ht r hr)
  | _ =>
      unfold tablesLedger at hu
      dsimp only at hu
      repeat' split at hu
      all_goals cases hu

theorem TablesOk.live (h : TablesOk s T) (hl : Pools s l) (hr : T r) :
    (tablesLedger s T l).Live r :=
  (tablesLedger_table h hl).mpr ⟨hr, IsPos.nil, rfl⟩

theorem TablesOk.heap (h : TablesOk s T) (hl : Pools s l) : Heap (tablesLedger s T l) s := by
  refine ⟨hl, tablesLedger_free hl, fun q hq => ?_, fun p r hp =>
    ?_, fun r p x i _ hp hx hi hv => ?_⟩
  · cases hu : (tablesLedger s T l).own q with
    | other => exact absurd hu hq
    | free k =>
        have hp := hl.page ((tablesLedger_free hl q k).mpr hu)
        unfold kernelBase at hp
        exact ⟨hp.1, by omega⟩
    | table r x =>
        obtain ⟨hr, hx, ht⟩ := (tablesLedger_table h hl).mp hu
        have hp := h.page r q hr ⟨x, hx, ht⟩
        exact ⟨hp.1, hp.2.1⟩
    | _ =>
        unfold tablesLedger at hu
        dsimp only at hu
        repeat' split at hu
        all_goals cases hu
  · exact (Option.some.inj ((tablesLedger_table h hl).mp hp).2.2).symm
  · obtain ⟨hr, hpos, ht⟩ := (tablesLedger_table h hl).mp hp
    exact (tablesLedger_table h hl).mpr ⟨hr, hpos.cons hx hi, tableAt_cons.mpr ⟨p, ht, hv, rfl⟩⟩

/-! ## Writes afterwards -/

/-- Writes to data pages change no entry of a table. -/
theorem leaf_behind {m : Bytes} {P : Nat → Prop} {r' : Nat} (h : Heap g s) (hl : g.Live r)
    (hdata : ∀ w, P w → (g.own (frameOf s.mem r' w)).IsData)
    (hm : WrittenThrough s.mem r' P m) (v : Nat) :
    leaf m r v = leaf s.mem r v := by
  refine h.leaf_frame hl fun p x hp i hi => ?_
  by_contra hne
  obtain ⟨w, hw, hin⟩ := hm _ hne
  have hpq : p ≠ frameOf s.mem r' w := by
    intro he
    have hd := hdata w hw
    rw [← he, hp] at hd
    exact hd
  have hap := pages_apart (h.table_page hp).1 (pteToPa_aligned _) hpq
  unfold frameOf at hin
  omega

/-- Writes to frames are not seen in other frames. -/
theorem byte_behind {m : Bytes} {P : Nat → Prop} {r' : Nat} (hm : WrittenThrough s.mem r' P m)
    (hne : ∀ w, P w → frameOf s.mem r v ≠ frameOf s.mem r' w) {i : Nat} (hi : i < pgSize) :
    m (frameOf s.mem r v + i) = s.mem (frameOf s.mem r v + i) := by
  by_contra hc
  obtain ⟨w, hw, hin⟩ := hm _ hc
  have hap := pages_apart (pteToPa_aligned (leaf s.mem r v))
    (pteToPa_aligned (leaf s.mem r' w)) (hne w hw)
  unfold frameOf at hin hc
  omega

theorem mapPte_flags_kept {e q : Nat} (he : hasFlag e pteV = true) :
    pteFlags (mapPte q (pteFlags e) 0) = pteFlags e := by
  rw [(mapPte_flags (pteFlags_lt e) 0).2]
  rw [hasFlag_pteV] at he
  refine or_pteV_of_odd ?_
  unfold pteFlags
  omega

/-- Copies on a ledger are isolated. -/
theorem Duplicated.isolated (hd : Duplicated old new R a b g s g' s') (h : Heap g s)
    (hl : g.Live old) (hne : old ≠ new)
    (hframes : ∀ w, Present s old w → g.own (frameOf s.mem old w) = .other) :
    Isolated old new R s s' := by
  have hold := hd.old_leaf h hl hne
  have hpres := hd.old_present h hl hne
  have hframe : ∀ w, frameOf s'.mem old w = frameOf s.mem old w :=
    fun w => congrArg pteToPa (hold w)
  have hkept : ∀ w, Present s old w → g'.own (frameOf s.mem old w) = .other ∧
      ∀ i < pgSize, s'.mem (frameOf s.mem old w + i) = s.mem (frameOf s.mem old w + i) := by
    intro w hw
    have hk := hd.kept (frameOf s.mem old w) (pteToPa_aligned _) (by rw [hframes w hw]; trivial)
    exact ⟨hk.1.trans (hframes w hw), hk.2⟩
  -- the frame of a copy
  have hcopy : ∀ v, R v → hasFlag (leaf s'.mem new v) pteV = true ∧
      pteFlags (leaf s'.mem new v) = pteFlags (leaf s.mem old v) ∧
      g'.own (frameOf s'.mem new v) = .frame new v ∧
      g.own (frameOf s'.mem new v) = .free false ∧
      ∀ i < pgSize, s'.mem (frameOf s'.mem new v + i) = s.mem (frameOf s.mem old v + i) := by
    intro v hv
    obtain ⟨hlt, hval⟩ := hd.present v hv
    obtain ⟨q, hleaf, hwas, hown, hq, hphys, hbytes⟩ := hd.copy v hlt hv
    have hpa : frameOf s'.mem new v = q := by
      unfold frameOf
      rw [hleaf]
      exact mapPte_pa hq (Nat.lt_trans hphys (by decide)) (pteFlags_lt _)
    rw [hpa, hleaf]
    refine ⟨mapPte_valid (pteFlags_lt _), mapPte_flags_kept hval, hown, hwas, hbytes ?_⟩
    have hother := hframes v ⟨hlt, hval⟩
    unfold frameOf at hother
    rw [hother]
    trivial
  have hapart : ∀ v w, R v → Present s old w → frameOf s'.mem new v ≠ frameOf s.mem old w := by
    intro v w hv hw he
    have hfree := (hcopy v hv).2.2.2.1
    rw [he, hframes w hw] at hfree
    cases hfree
  have hlive := hd.old_live hl hne
  refine ⟨fun v hv =>
    ⟨⟨(hd.present v hv).1, (hcopy v hv).1⟩, (hcopy v hv).2.1⟩, fun v hv => (hcopy v hv).2.2.2.2,
    fun v w hv hw he => ?_, hapart, fun v hv hn => translate_congr (hd.same v hv hn),
    ⟨fun v _ => hold v, fun v hv => (hkept v hv).2⟩, fun m hm =>
      ⟨fun v _ => ?_, fun v hv i hi => ?_⟩,
    fun m hm => ⟨fun v _ => ?_, fun v hv i hi => ?_⟩⟩
  · have h1 := (hcopy v hv).2.2.1
    rw [he, (hcopy w hw).2.2.1] at h1
    exact (Use.frame.inj h1).2.symm
  · refine leaf_behind hd.heap hlive (fun w hw => ?_) hm v
    rw [(hcopy w hw).2.2.1]
    trivial
  · refine byte_behind hm (fun w hw => ?_) hi
    rw [hframe]
    exact (hapart w v hw ((hpres v).mp hv)).symm
  · refine leaf_behind hd.heap hd.live (fun w hw => ?_) hm v
    rw [hframe, (hkept w ((hpres w).mp hw)).1]
    trivial
  · refine byte_behind hm (fun w hw => ?_) hi
    rw [hframe]
    exact hapart v w hv ((hpres w).mp hw)

/-! ## The arguments -/

theorem Regions.chain {nodes : NodeId → Node} (h : Regions nodes o ns) :
    Chain (fun i => (nodes i).next) o ns none := by
  induction h with
  | nil => rfl
  | cons _ ih => exact ⟨rfl, ih⟩

theorem Regions.length_le {nodes : NodeId → Node} (h : Regions nodes o ns) :
    ns.length ≤ listFuel := by
  have hcard := h.chain.nodup.length_le_card
  rw [Fintype.card_fin] at hcard
  exact Nat.le_trans hcard (by decide)

theorem Regions.unique {nodes : NodeId → Node} {ns' : List NodeId} (h : Regions nodes o ns)
    (h' : Regions nodes o ns') :
    ns = ns' :=
  Chain.unique h.chain h'.chain

theorem OnList.mem {nodes : NodeId → Node} {i : NodeId} (hi : OnList nodes o i)
    (h : Regions nodes o ns) : i ∈ ns := by
  induction hi generalizing ns with
  | here =>
      cases h with
      | cons _ => exact List.mem_cons_self
  | next _ ih =>
      cases h with
      | cons h => exact List.mem_cons_of_mem _ (ih h)

/-- There are less than 2^20 pages. -/
theorem Pools.length_lt_pages (h : Pools s l) (k : Bool) : (l k).length < 2 ^ 20 := by
  have hinj : ∀ p ∈ l k, ∀ q ∈ l k, p / pgSize = q / pgSize → p = q := by
    intro p hp q hq he
    have h1 := (h.page hp).1
    have h2 := (h.page hq).1
    unfold pgSize at *
    omega
  have hnd : ((l k).map (· / pgSize)).Nodup := (h.nodup k).map_on hinj
  have hlen := length_lt_of_nodup (n := physTop / pgSize) hnd fun p hp => by
    obtain ⟨q, hq, rfl⟩ := List.mem_map.mp hp
    have hlt := (h.page hq).2.2
    unfold physTop pgSize at *
    omega
  rw [List.length_map] at hlen
  exact Nat.lt_of_le_of_lt hlen (by decide)

/-- A range of mapped pages does not wrap around. -/
theorem range_steps {start : Nat} (ha : start % pgSize = 0) (hn : n < 2 ^ 20)
    (hmap : ∀ w, Range (start / pgSize) n w → Present s old w) :
    pagesBetween start (u64 (start + u32 (n * pgSize))) = n ∨ n = 0 := by
  by_cases hz : n = 0
  · exact .inr hz
  have hlast := (hmap (start / pgSize + (n - 1)) ⟨by omega, by omega⟩).1
  refine .inl ?_
  unfold pagesBetween u64 u32 vaPages vaMax pgSize at *
  omega

theorem range_steps_zero {start : Nat} :
    pagesBetween start (u64 (start + u32 (0 * pgSize))) = 0 := by
  have hle : u64 (start + 0) ≤ start := by
    rw [Nat.add_zero]
    exact Nat.mod_le _ _
  rw [Nat.zero_mul, show u32 0 = 0 from rfl]
  unfold pagesBetween
  rw [Nat.sub_eq_zero_of_le hle]
  decide

theorem range_count {start : Nat} (ha : start % pgSize = 0) (hn : n < 2 ^ 20)
    (hmap : ∀ w, Range (start / pgSize) n w → Present s old w) :
    pagesBetween start (u64 (start + u32 (n * pgSize))) = n := by
  rcases range_steps ha hn hmap with h | rfl
  · exact h
  · exact range_steps_zero

theorem CopyArgs.region_count (h : CopyArgs s old new ustackBase ustackPages o ns)
    {i : NodeId} (hi : i ∈ ns)
    (hn : (s.nodes i).npages < 2 ^ 20) :
    pagesBetween (s.nodes i).begin (regionEnd (s.nodes i)) = (s.nodes i).npages :=
  range_count (h.regionAligned i hi) hn (h.region i hi)

/-! ## The call -/

theorem copyOrder_length (s : Kernel) (old heapTop ustackBase ustackPages : Nat)
    (l : List NodeId) : (copyOrder s old heapTop ustackBase ustackPages l).length =
      copyNeed s old heapTop ustackPages l := by
  unfold copyOrder copyNeed
  simp only [List.length_append, heapList_length, List.length_range', List.length_flatMap,
    List.length_singleton]

/-- The ranges in pages are those that the call walks over. -/
structure Walked (s : Kernel) (ustackBase ustackPages : Nat) (l : List NodeId) : Prop where
  stack : pagesBetween ustackBase (u64 (ustackBase + u32 (ustackPages * pgSize))) = ustackPages
  node : ∀ i ∈ l, pagesBetween (s.nodes i).begin (regionEnd (s.nodes i)) = (s.nodes i).npages

theorem CopyArgs.walked (h : CopyArgs s old new ustackBase ustackPages o ns)
    (hstack : ustackPages < 2 ^ 20) (hnodes : (ns.map fun i => (s.nodes i).npages).sum < 2 ^ 20) :
    Walked s ustackBase ustackPages ns := by
  refine ⟨range_count h.stackAligned hstack h.stack, fun i hi => h.region_count hi ?_⟩
  have hle := List.single_le_sum (fun _ _ => Nat.zero_le _) _
    (List.mem_map_of_mem (f := fun i => (s.nodes i).npages) hi)
  omega

theorem Walked.list (h : Walked s ustackBase ustackPages ns) :
    copyList s old heapTop ustackBase ustackPages ns =
      copyOrder s old heapTop ustackBase ustackPages ns := by
  have hstack : stackList ustackBase ustackPages =
      List.range' (ustackBase / pgSize) ustackPages := by
    unfold stackList rangeList
    split
    · rw [h.stack]
    · next hz => rw [Nat.eq_zero_of_not_pos hz, List.range'_zero]
  have hregions : regionList s.nodes ns =
      ns.flatMap fun i => List.range' ((s.nodes i).begin / pgSize) (s.nodes i).npages := by
    refine List.flatMap_congr fun i hi => ?_
    unfold rangeList
    rw [h.node i hi]
  unfold copyList copyOrder
  rw [hstack, hregions]

theorem Walked.stackPages (h : Walked s ustackBase ustackPages ns) (w : Nat) :
    StackPages ustackBase ustackPages w ↔ Range (ustackBase / pgSize) ustackPages w := by
  unfold StackPages Range
  rw [h.stack]
  omega

theorem Walked.covers (h : Walked s ustackBase ustackPages ns) {i : NodeId} (hi : i ∈ ns)
    (w : Nat) :
    (s.nodes i).Covers w ↔ Range ((s.nodes i).begin / pgSize) (s.nodes i).npages w := by
  unfold Node.Covers
  rw [h.node i hi]

theorem Walked.pages (h : Walked s ustackBase ustackPages ns) (w : Nat) :
    CopyPages s old heapTop ustackBase ustackPages ns w ↔
      ForkPages s old heapTop ustackBase ustackPages ns w := by
  have hz : 1 ≤ w ∧ w * pgSize < pgRoundUp heapTop → pgSize < heapTop := by
    rintro ⟨h1, h2⟩
    unfold pgRoundUp u64 pgSize at *
    omega
  have hr : (∃ i ∈ ns, (s.nodes i).Covers w) ↔
      ∃ i ∈ ns, Range ((s.nodes i).begin / pgSize) (s.nodes i).npages w :=
    exists_congr fun i => and_congr_right fun hi => h.covers hi w
  unfold CopyPages ForkPages HeapPages
  rw [h.stackPages, hr]
  refine or_congr_right (or_congr_left ?_)
  exact ⟨fun ⟨h1, h2, h3⟩ => ⟨⟨hz ⟨h1, h2⟩, h1, h2⟩, h3⟩, fun ⟨⟨_, h1, h2⟩, h3⟩ => ⟨h1, h2, h3⟩⟩

/-- Every page is copied and the copies are isolated, when the heap ends below `VA_MAX` and the
pools have enough pages: one for each copy, and two for each low table that the copies lie in. -/
theorem copies_isolated (h : CopyArgs s old new ustackBase ustackPages o ns) (hl : Pools s l)
    (htop : pgRoundUp heapTop ≤ vaMax)
    (huser : copyNeed s old heapTop ustackPages ns ≤ (l false).length)
    (hkern : 2 * (lowTables (copyOrder s old heapTop ustackBase ustackPages ns)).card ≤
      (l true).length) :
    ∃ s', (uvmCopyPgtbl old new heapTop ustackBase ustackPages o s).1 = .ok ((), s') ∧
      Isolated old new (CopyPages s old heapTop ustackBase ustackPages ns) s s' := by
  have hheap := h.tables.heap hl
  have hold := h.tables.live hl (.inl rfl)
  have hnew := h.tables.live hl (.inr rfl)
  have hpool := hl.length_lt_pages false
  have hwalk : Walked s ustackBase ustackPages ns := by
    unfold copyNeed at huser
    exact h.walked (by omega) (by omega)
  have hdup : Duplicable (tablesLedger s (fun r => r = old ∨ r = new) l) s old heapTop
      ustackBase ustackPages ns := by
    refine ⟨h.list.length_le, ?_, ?_, htop, h.zero,
      fun w hw => h.stack w ((hwalk.stackPages w).mp hw),
      fun i hi w hw => h.region i hi w ((hwalk.covers hi w).mp hw)⟩
    · rw [← copyList_length, hwalk.list, copyOrder_length]
      exact huser
    · unfold copyTables
      rw [hwalk.list]
      exact hkern
  have hsat : Sat (uvmCopyPgtbl old new heapTop ustackBase ustackPages o) s (fun _ => True)
      (fun _ s' => Isolated old new (CopyPages s old heapTop ustackBase ustackPages ns) s s')
      fun _ => False := by
    refine uvmCopyPgtbl_duplicates o hheap hnew h.text hold h.ne
      (fun i hi => h.regionAligned i (hi.mem h.list))
      h.stackAligned (fun hc => absurd ⟨ns, h.list, hdup⟩ hc) fun ns' g' s' hr hd => ?_
    obtain rfl := hr.unique h.list
    refine (hd.congr hwalk.pages).isolated hheap hold h.ne fun w hw => ?_
    obtain ⟨h1, h2, h3⟩ := h.frames w hw
    exact tablesLedger_other h.tables hl h1 fun r hr =>
      hr.elim (fun he => he ▸ h2) (fun he => he ▸ h3)
  obtain ⟨_, s', hrun, hiso⟩ := hsat.returns
  exact ⟨s', hrun, hiso⟩

end

/-! ## Two tables -/

/-- The empty table, and one at 0x87001000 with the leaves `f` of the first 512 pages. -/
structure TwoTables (m : Bytes) (f : Nat → Nat) : Prop where
  entry : ∀ p i, p % pgSize = 0 → emptyRoot ≤ p → i < 512 → entry m p i =
    if p = 0x87003000 then f i
      else if p = 0x87002000 ∧ i = 0 then 0x21C00C01
        else if p = 0x87001000 ∧ i = 0 then 0x21C00801 else 0
  frames : ∀ i < 512, hasFlag (f i) pteV = true → 0x87004000 ≤ pteToPa (f i)
  first : hasFlag (f 0) pteV = true

section

variable {m : Bytes} {f : Nat → Nat} {x : List Nat} {p v i w : Nat}

theorem TwoTables.root (h : TwoTables m f) (hi : i < 512) :
    Mem.entry m 0x87001000 i = if i = 0 then 0x21C00801 else 0 := by
  rw [h.entry _ _ (by decide) (by decide) hi, if_neg (by decide)]
  simp

theorem TwoTables.middle (h : TwoTables m f) (hi : i < 512) :
    Mem.entry m 0x87002000 i = if i = 0 then 0x21C00C01 else 0 := by
  rw [h.entry _ _ (by decide) (by decide) hi, if_neg (by decide)]
  simp

theorem TwoTables.tableAt (h : TwoTables m f) (hx : IsPos x)
    (ht : tableAt m 0x87001000 x = some p) :
    x = [] ∧ p = 0x87001000 ∨ x = [0] ∧ p = 0x87002000 ∨ x = [0, 0] ∧ p = 0x87003000 := by
  induction x generalizing p with
  | nil => exact .inl ⟨rfl, (Option.some.inj ht).symm⟩
  | cons i x ih =>
      obtain ⟨q, hq, hv, rfl⟩ := tableAt_cons.mp ht
      have hi := hx.2 i List.mem_cons_self
      rcases ih ⟨Nat.le_of_succ_le hx.1, fun j hj => hx.2 j (List.mem_cons_of_mem _ hj)⟩ hq
        with ⟨rfl, rfl⟩ | ⟨rfl, rfl⟩ | ⟨rfl, rfl⟩
      · rw [h.root hi] at hv ⊢
        by_cases hz : i = 0
        · subst hz
          exact .inr (.inl ⟨rfl, by decide⟩)
        · simp [hz, hasFlag_zero] at hv
      · rw [h.middle hi] at hv ⊢
        by_cases hz : i = 0
        · subst hz
          exact .inr (.inr ⟨rfl, by decide⟩)
        · simp [hz, hasFlag_zero] at hv
      · exact absurd hx.1 (by simp)

theorem TwoTables.empty (h : TwoTables m f) (hx : IsPos x)
    (ht : Mem.tableAt m emptyRoot x = some p) : x = [] ∧ p = emptyRoot := by
  induction x generalizing p with
  | nil => exact ⟨rfl, (Option.some.inj ht).symm⟩
  | cons i x ih =>
      obtain ⟨q, hq, hv, -⟩ := tableAt_cons.mp ht
      obtain ⟨rfl, rfl⟩ :=
        ih ⟨Nat.le_of_succ_le hx.1, fun j hj => hx.2 j (List.mem_cons_of_mem _ hj)⟩ hq
      rw [h.entry _ _ (by decide) (by decide) (hx.2 i List.mem_cons_self)] at hv
      simp [emptyRoot, hasFlag_zero] at hv

theorem TwoTables.leaf (h : TwoTables m f) (hv : v < 2 ^ 27) :
    leaf m 0x87001000 v = if v < 512 then f v else 0 := by
  have hindex : lowPos v = [0, 0] ↔ v < 512 := by
    unfold lowPos vpnIndex
    rw [List.cons.injEq, List.cons.injEq]
    norm_num
    omega
  split
  · next hlow =>
    have hroot : hasFlag (Mem.entry m 0x87001000 0) pteV = true ∧
        pteToPa (Mem.entry m 0x87001000 0) = 0x87002000 := by
      rw [h.root (by decide)]
      decide
    have hmiddle : hasFlag (Mem.entry m 0x87002000 0) pteV = true ∧
        pteToPa (Mem.entry m 0x87002000 0) = 0x87003000 := by
      rw [h.middle (by decide)]
      decide
    have ht : Mem.tableAt m 0x87001000 (lowPos v) = some 0x87003000 := by
      rw [hindex.mpr hlow]
      exact tableAt_cons.mpr ⟨_, tableAt_cons.mpr ⟨_, rfl, hroot.1, hroot.2⟩, hmiddle.1, hmiddle.2⟩
    have hv0 : vpnIndex v 0 = v := by
      unfold vpnIndex
      omega
    rw [leaf_eq ht, hv0, h.entry _ _ (by decide) (by decide) hlow, if_pos rfl]
  · next hhigh =>
    by_contra hne
    obtain ⟨p, ht⟩ := leaf_ne_zero hne
    have hlen : (lowPos v).length = 2 := rfl
    rcases h.tableAt ⟨Nat.le_of_eq hlen, fun _ => mem_lowPos⟩ ht with ⟨h1, -⟩ | ⟨h1, -⟩ | ⟨h1, -⟩
    · exact absurd (hlen.symm.trans (congrArg List.length h1)) (by decide)
    · exact absurd (hlen.symm.trans (congrArg List.length h1)) (by decide)
    · exact hhigh (hindex.mp h1)

/-- The pages of the second table, no stack and no regions. -/
theorem TwoTables.args {s : Kernel} {l : Bool → List Nat} (h : TwoTables s.mem f)
    (hl : Pools s l) (hlow : ∀ k, ∀ q ∈ l k, q < emptyRoot) (htext : s.etext ≤ s.allocBegin) :
    CopyArgs s 0x87001000 emptyRoot 0 0 none [] := by
  have hspare : ∀ q, emptyRoot ≤ q → ¬ IsFree s q := by
    intro q hq hf
    obtain ⟨k, hk⟩ := (isFree_iff hl).mp hf
    exact absurd (hlow k q hk) (Nat.not_lt.mpr hq)
  have hframe : ∀ v, Present s 0x87001000 v → 0x87004000 ≤ frameOf s.mem 0x87001000 v := by
    rintro v ⟨hv, hval⟩
    unfold frameOf
    rw [h.leaf (vaPages_le hv)] at hval ⊢
    split
    · next hlow => exact h.frames v hlow (by rwa [if_pos hlow] at hval)
    · next hhigh =>
      rw [if_neg hhigh, hasFlag_zero] at hval
      cases hval
  refine ⟨⟨⟨l, hl⟩, fun r r' x y p hr hr' hx hy htx hty => ?_,
    fun r q hr ⟨x, hx, ht⟩ => ?_⟩, by decide, fun v hv => ?_, htext, .nil, ⟨by decide, ?_⟩,
    by decide, fun w hw => absurd hw.2 (Nat.not_lt.mpr hw.1), nofun, nofun⟩
  · rcases hr with rfl | rfl <;> rcases hr' with rfl | rfl
    · rcases h.tableAt hx htx with ⟨rfl, rfl⟩ | ⟨rfl, rfl⟩ | ⟨rfl, rfl⟩ <;>
        rcases h.tableAt hy hty with ⟨rfl, h⟩ | ⟨rfl, h⟩ | ⟨rfl, h⟩ <;> simp_all
    · rcases h.tableAt hx htx with ⟨rfl, rfl⟩ | ⟨rfl, rfl⟩ | ⟨rfl, rfl⟩ <;>
        exact absurd (h.empty hy hty).2 (by decide)
    · rcases h.tableAt hy hty with ⟨rfl, rfl⟩ | ⟨rfl, rfl⟩ | ⟨rfl, rfl⟩ <;>
        exact absurd (h.empty hx htx).2 (by decide)
    · exact ⟨rfl, (h.empty hx htx).1.trans (h.empty hy hty).1.symm⟩
  · rcases hr with rfl | rfl
    · rcases h.tableAt hx ht with ⟨-, rfl⟩ | ⟨-, rfl⟩ | ⟨-, rfl⟩ <;>
        exact ⟨by decide, by decide, hspare _ (by decide)⟩
    · rw [(h.empty hx ht).2]
      exact ⟨by decide, by decide, hspare _ (by decide)⟩
  · have hle := hframe v hv
    refine ⟨hspare _ (Nat.le_trans (by decide) hle), ?_, ?_⟩
    · rintro ⟨x, hx, ht⟩
      rcases h.tableAt hx ht with ⟨-, hq⟩ | ⟨-, hq⟩ | ⟨-, hq⟩ <;>
        exact absurd (hq ▸ hle) (by decide)
    · rintro ⟨x, hx, ht⟩
      exact absurd ((h.empty hx ht).2 ▸ hle) (by decide)
  · rw [h.leaf (by decide), if_pos (by decide)]
    exact h.first

/-- One more leaf of the low table. -/
theorem TwoTables.setLeaf (h : TwoTables m f) (hi : i < 512) (hw : w < 2 ^ 64)
    (hpa : 0x87004000 ≤ pteToPa w) (hval : hasFlag w pteV = true) :
    TwoTables (putLE m (pteAt 0x87003000 i) 8 w) fun j => if j = i then w else f j := by
  refine ⟨fun p j hp hpos hj => ?_, fun j hj hv => ?_, ?_⟩
  · by_cases hc : p = 0x87003000 ∧ j = i
    · rw [hc.1, hc.2, entry_store_same hw, if_pos rfl, if_pos rfl]
    · rw [entry_store_ne (by decide) hp hi hj hc, h.entry p j hp hpos hj]
      split
      · next hp' => rw [if_neg fun hj' => hc ⟨hp', hj'⟩]
      · rfl
  · split
    · exact hpa
    · next hne => exact h.frames j hj (by rwa [if_neg hne] at hv)
  · split
    · exact hval
    · exact h.first

/-- A write below the tables. -/
theorem TwoTables.below (h : TwoTables m f) (hp : p + 8 ≤ emptyRoot) :
    TwoTables (putLE m p 8 w) f := by
  refine ⟨fun q i hq hpos hi => ?_, h.frames, h.first⟩
  rw [← h.entry q i hq hpos hi]
  refine getLE_congr fun j _ => splice_out (.inr ?_)
  unfold pteAt
  omega

end

/-- The state of `oneUserPage` with a second table at 0x87001000, which maps page 0 to
0x87004000. -/
def twoTables : Kernel :=
  (oneUserPage ⟨0x80030000, 0x80430000, 2, 0x80030000⟩).setMem
    (putLE (putLE (putLE emptyTable.mem 0x87001000 8 0x21C00801) 0x87002000 8 0x21C00C01)
      0x87003000 8 0x21C0101F)

theorem twoTables_entry {p i : Nat} (hp : p % pgSize = 0) (hpos : emptyRoot ≤ p) (hi : i < 512) :
    entry twoTables.mem p i = if p = 0x87003000 ∧ i = 0 then 0x21C0101F else
      if p = 0x87002000 ∧ i = 0 then 0x21C00C01
        else if p = 0x87001000 ∧ i = 0 then 0x21C00801 else 0 := by
  have hbase : entry emptyTable.mem p i = 0 := by
    have hz : entry emptyTable.mem p i = getLE (fun _ => 0) 0 8 := by
      refine getLE_congr fun j _ => ?_
      change putLE (fun _ => 0) 0x80030000 8 0x80031000 (pteAt p i + j) = 0
      refine splice_out (.inr ?_)
      unfold pteAt emptyRoot at *
      omega
    rw [hz, getLE_zero]
  have hset : ∀ (m : Bytes) (q w : Nat), q % pgSize = 0 → w < 2 ^ 64 →
      entry (putLE m q 8 w) p i = if p = q ∧ i = 0 then w else entry m p i := by
    intro m q w hq hw
    have hat : pteAt q 0 = q := by
      unfold pteAt
      omega
    rw [← hat]
    split
    · next hc =>
      rw [hc.1, hc.2, hat]
      have hsame := entry_store_same (m := m) (p := q) (i := 0) hw
      rwa [hat] at hsame
    · next hc =>
      rw [hat] at hc
      exact entry_store_ne hq hp (by decide) hi hc
  have hmem : twoTables.mem =
      putLE (putLE (putLE emptyTable.mem 0x87001000 8 0x21C00801) 0x87002000 8 0x21C00C01)
        0x87003000 8 0x21C0101F := rfl
  rw [hmem]
  rw [hset _ _ _ (by decide) (by decide), hset _ _ _ (by decide) (by decide),
    hset _ _ _ (by decide) (by decide), hbase]

theorem twoTables_pools : Pools twoTables (oneUserFree [0x80030000, 0x80031000]) := by
  have hpool := emptyTable_pools.pool true
  refine (oneUserPage_pools 0x80030000 [0x80030000, 0x80031000] hpool.chain hpool.page).withMem
    fun k q hq i hi => ?_
  have hlow : q < 0x87000000 := by
    cases k with
    | false => exact List.mem_singleton.mp hq ▸ by decide
    | true =>
        have hlt := (hpool.page q hq).2.2
        exact Nat.lt_trans hlt (by decide)
  unfold putLE
  rw [splice_out (by omega), splice_out (by omega), splice_out (by omega)]
  rfl

/-- Page 0 is mapped. -/
theorem twoTables_two : TwoTables twoTables.mem fun i => if i = 0 then 0x21C0101F else 0 := by
  refine ⟨fun p i hp hpos hi => ?_, fun i _ hv => ?_, by decide⟩
  · rw [twoTables_entry hp hpos hi]
    by_cases hp' : p = 0x87003000
    · subst hp'
      simp
    · simp [hp']
  · split
    · decide
    · next hne =>
      rw [if_neg hne, hasFlag_zero] at hv
      cases hv

theorem twoTables_args : CopyArgs twoTables 0x87001000 emptyRoot 0 0 none [] := by
  refine twoTables_two.args twoTables_pools (fun k q hq => ?_) (by decide)
  cases k with
  | false => exact List.mem_singleton.mp hq ▸ by decide
  | true =>
      have hlt := ((emptyTable_pools.pool true).page q hq).2.2
      exact Nat.lt_trans hlt (by decide)

/-- The tables of `twoTables` with a page of the heap at 0x87005000, and two free user pages. -/
def heapTables : Kernel :=
  let m := putLE twoTables.mem 0x80431000 8 0x80430000
  { twoTables with mem := putLE m (pteAt 0x87003000 1) 8 0x21C0141F, user := ⟨0x80430000, 0x88000000, 2, 0x80431000⟩ }

def heapFree (k : Bool) : List Nat :=
  if k then [0x80030000, 0x80031000] else [0x80431000, 0x80430000]

theorem heapTables_pools : Pools heapTables heapFree := by
  refine ⟨⟨by decide, by decide, by decide, rfl, rfl, rfl, rfl⟩, fun k => ?_, fun k => rfl⟩
  cases k with
  | false =>
      refine ⟨⟨rfl, ?_, ?_⟩, rfl, fun q hq => ?_⟩
      · decide +kernel
      · change nextPage heapTables.mem 0x80430000 = none
        decide +kernel
      · change q ∈ [0x80431000, 0x80430000] at hq
        change q % pgSize = 0 ∧ 0x80430000 ≤ q ∧ q < 0x88000000
        simp only [List.mem_cons, List.not_mem_nil, or_false] at hq
        rcases hq with rfl | rfl <;> decide
  | true =>
      refine ⟨⟨rfl, ?_, ?_⟩, rfl, fun q hq => ?_⟩
      · decide +kernel
      · change nextPage heapTables.mem 0x80031000 = none
        decide +kernel
      · exact (emptyTable_pools.pool true).page q hq

/-- A page of the heap beside page 0: one low table is enough for both copies. -/
theorem copies_isolated_heap :
    ∃ s', (uvmCopyPgtbl 0x87001000 emptyRoot (2 * pgSize) 0 0 none heapTables).1 = .ok ((), s') ∧
      Isolated 0x87001000 emptyRoot (CopyPages heapTables 0x87001000 (2 * pgSize) 0 0 [])
        heapTables s' ∧
      CopyPages heapTables 0x87001000 (2 * pgSize) 0 0 [] 1 := by
  have htwo : TwoTables heapTables.mem fun j =>
      if j = 1 then 0x21C0141F else if j = 0 then 0x21C0101F else 0 :=
    (twoTables_two.below (by decide)).setLeaf (by decide) (by decide) (by decide) (by decide)
  have hlow : ∀ k, ∀ q ∈ heapFree k, q < emptyRoot := by
    intro k q hq
    cases k <;> simp [heapFree] at hq <;> rcases hq with rfl | rfl <;> decide
  have huser : copyNeed heapTables 0x87001000 (2 * pgSize) 0 [] ≤ (heapFree false).length := by
    decide +kernel
  have hkern : 2 * (lowTables (copyOrder heapTables 0x87001000 (2 * pgSize) 0 0 [])).card ≤
      (heapFree true).length := by
    decide +kernel
  obtain ⟨s', hrun, hiso⟩ := copies_isolated (htwo.args heapTables_pools hlow (by decide))
    heapTables_pools (by decide) huser hkern
  refine ⟨s', hrun, hiso, .inr (.inl ⟨by decide, by decide, by decide, ?_⟩)⟩
  rw [htwo.leaf (by decide)]
  decide

/-- The walk over the heap does not get past `VA_MAX`. -/
theorem copyHeapLoop_above {old new stop : Nat} (hstop : vaMax < stop) (fuel : Nat) {v : Nat}
    {s : Kernel} (hv : v ≤ vaPages) :
    Sat (copyHeapLoop old new stop fuel (v * pgSize)) s (fun _ => True) (fun _ _ => False) fun _ =>
      True := by
  induction fuel generalizing v s with
  | zero => exact (sat_panic _).mpr trivial
  | succ fuel ih =>
      have hlt : v * pgSize < stop := by
        unfold vaPages vaMax pgSize at *
        omega
      unfold copyHeapLoop
      rw [if_pos hlt]
      by_cases hbelow : v < vaPages
      swap
      · unfold vmGetpte
        rw [if_pos (by have := mul_pgSize_lt (v := v); omega), sat_bind, sat_bind, sat_panic]
        trivial
      rw [u64_next hbelow]
      have hnext :
          ∀ t, Sat (copyHeapLoop old new stop fuel ((v + 1) * pgSize)) t (fun _ => True)
            (fun _ _ => False) fun _ => True :=
        fun t => ih hbelow
      refine (Sat.any _ _).bind fun pte s₁ _ => ?_
      split
      · refine (Sat.any _ _).bind fun e s₂ _ => ?_
        split
        · exact (Sat.any _ _).bind fun _ s₃ _ => hnext s₃
        · exact hnext s₂
      · exact hnext s₁

/-- A heap that ends above `VA_MAX`: the call panics. -/
theorem heap_above_va_max : CopyArgs twoTables 0x87001000 emptyRoot 0 0 none [] ∧
    Pools twoTables (oneUserFree [0x80030000, 0x80031000]) ∧
    copyNeed twoTables 0x87001000 (vaMax + 1) 0 [] = 1 ∧
    ¬ ∃ s', (uvmCopyPgtbl 0x87001000 emptyRoot (vaMax + 1) 0 0 none twoTables).1 =
      .ok ((), s') := by
  have hcount : pagesBetween pgSize (pgRoundUp (vaMax + 1)) = 2 ^ 26 := by decide
  refine ⟨twoTables_args, twoTables_pools, ?_, ?_⟩
  · refine copyNeed_one (heapCopies_eq_zero fun w h1 h2 => ?_)
    rw [hcount] at h2
    rw [twoTables_two.leaf (by omega)]
    split <;> simp [hasFlag_zero, show w ≠ 0 by omega]
  · rintro ⟨s', hrun⟩
    have hsat : Sat (uvmCopyPgtbl 0x87001000 emptyRoot (vaMax + 1) 0 0 none) twoTables (fun _ => True) (fun _ _ => False)
        fun _ => True := by
      unfold uvmCopyPgtbl
      rw [if_pos (by decide)]
      refine (Sat.any _ _).bind fun _ s₁ _ => ?_
      exact (copyHeapLoop_above (v := 1) (by decide) _ (by decide)).bind fun _ _ hf => hf.elim
    exact hsat.of_ok hrun

end WhuOs.Mem
