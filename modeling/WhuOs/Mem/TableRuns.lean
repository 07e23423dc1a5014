import WhuOs.Mem.HeapTop
import WhuOs.Mem.NewSpace
import WhuOs.Mem.Boot
import WhuOs.Mem.Teardown

/-! # The life of a user table

A table is made by `proc_pgtbl_init`; then frames are taken from the allocator and
mapped, and ranges are unmapped and their frames given back. Whatever the calls were,
`uvm_destroy_pgtbl` gives back the tables, the frames that are still mapped and the
root, each once, and no other page.
-/

namespace WhuOs.Mem

open Prog Bytes

def UserVpn (v : Nat) : Prop := v < vaPages ∧ v ≠ trampolineVpn ∧ v ≠ trapframeVpn

def UserMapped (s : Kernel) (r v : Nat) : Prop := UserVpn v ∧ hasFlag (leaf s.mem r v) pteV = true

/-- A page of the tables below a root, other than the root. -/
def InnerTable (s : Kernel) (r q : Nat) : Prop := ∃ x, IsPos x ∧ x ≠ [] ∧ tableAt s.mem r x = some q

def UserFrame (s : Kernel) (r q : Nat) : Prop :=
  ∃ v, UserMapped s r v ∧ pteToPa (leaf s.mem r v) = q

/-- A page of the kernel region in use, that is none of the tables. -/
structure TrapPage (s : Kernel) (r t : Nat) : Prop where
  page : t % pgSize = 0
  kernel : Managed s t ∧ inKernelOf s t = true
  taken : ¬ IsFree s t
  apart : ¬ IsTable s.mem r t

/-- What a user table maps, and where its pages come from. -/
structure UserTable (s : Kernel) (r t : Nat) : Prop where
  table : TableOk s r
  root : Managed s r ∧ inKernelOf s r = false
  inner : ∀ q, InnerTable s r q → Managed s q ∧ inKernelOf s q = true
  low : ∀ i, 256 ≤ i → i < 512 → hasFlag (entry s.mem r i) pteV = false
  telling : Telling s.mem r
  frame : ∀ v, UserMapped s r v → OwnFrame s r (leaf s.mem r v)
  distinct : ∀ v w, UserMapped s r v → UserMapped s r w →
    pteToPa (leaf s.mem r v) = pteToPa (leaf s.mem r w) → v = w
  trampoline : leaf s.mem r trampolineVpn = trampolinePte s
  trapframe : hasFlag (leaf s.mem r trapframeVpn) pteV = true →
    leaf s.mem r trapframeVpn = trapframePte t ∧ TrapPage s r t

/-- A page of the user region that is not free, not a table and not mapped. -/
structure FreshFrame (s : Kernel) (r q : Nat) : Prop where
  user : Managed s q ∧ inKernelOf s q = false
  taken : ¬ IsFree s q
  apart : ¬ IsTable s.mem r q
  unmapped : ∀ v < vaPages, hasFlag (leaf s.mem r v) pteV = true → pteToPa (leaf s.mem r v) ≠ q

/-- Calls between `proc_pgtbl_init` and `uvm_destroy_pgtbl`. -/
inductive TableOp where
  | alloc (inKernel : Bool)
  | map (va pa len perm : Nat)
  | unmap (va len : Nat)

def TableOp.run (r : Nat) : TableOp → MemM Unit
  | .alloc inKernel => do
      let _ ← pmemAlloc inKernel
  | .map va pa len perm => vmMappages r va pa len perm
  | .unmap va len => vmUnmappages r va len true

/-- Fresh frames are mapped to pages that are not mapped, with at least one of R, W and X. -/
def TableOp.Allowed (s : Kernel) (r : Nat) : TableOp → Prop
  | .alloc _ => True
  | .map va pa len perm =>
      0 < len ∧ va + len ≤ vaMax ∧ perm < 2 ^ 10 ∧ pteCheck perm = false ∧
        ∀ v, va / pgSize ≤ v → v ≤ (va + len - 1) / pgSize →
        translate s.mem r v = none ∧ v ≠ trapframeVpn ∧
          FreshFrame s r ((pa / pgSize + (v - va / pgSize)) * pgSize)
  | .unmap va len => va < 2 ^ 64 ∧ len < 2 ^ 64

/-- Before the call of `proc_pgtbl_init`: the trap frame is a page of the kernel region in use. -/
structure TableStart (s : Kernel) (t : Nat) : Prop where
  pools : ∃ l, Pools s l
  text : Text s
  page : t % pgSize = 0
  kernel : Managed s t ∧ inKernelOf s t = true
  taken : ¬ IsFree s t

/-- The states of a table with root `r` and trap frame `t`. -/
inductive TableRun (s₀ : Kernel) (r t : Nat) : Kernel → Prop
  | init {s : Kernel} (run : (procPgtblInit t s₀).1 = .ok (r, s)) (made : r ≠ 0) : TableRun s₀ r t s
  | call {s s' : Kernel} {op : TableOp} (before : TableRun s₀ r t s) (allowed : op.Allowed s r)
      (run : (op.run r s).1 = .ok ((), s')) : TableRun s₀ r t s'

section

variable {g g' : Ledger} {s s' : Kernel} {p q r t v w n i perm : Nat}
  {x y : List Nat} {l : Bool → List Nat}
  {F : Nat → Nat → Prop} {G : Event → Prop} {E : Panic → Prop}

/-! ## Ledger and state -/

theorem flags_of_check {e : Nat} (h : pteCheck e = false) : pteFlags e ≠ pteV := by
  intro hf
  rw [pteCheck_flags, hf] at h
  exact absurd h (by decide)

theorem check_or_valid (perm : Nat) : pteCheck (perm ||| pteV) = pteCheck perm := by
  have hz : pteV &&& (pteR ||| pteW ||| pteX) = 0 := by decide
  unfold pteCheck
  rw [Nat.and_or_distrib_right, hz, Nat.or_zero]

/-- The first index on the way to a page is below 256. -/
theorem Homed.low_index (hh : Homed g s) (h : Heap g s) (hl : g.Live r)
    (ht : tableAt s.mem r x = some q)
    (hs : [n] <:+ x) (hn : n < 512) : n < 256 := by
  obtain ⟨p, hp⟩ := tableAt_suffix ht hs
  have hown :=
    h.tableAt_own hl (List.forall_mem_singleton.mpr hn) (Nat.succ_le_succ (Nat.zero_le 1)) hp
  exact hh.top p r [] n hown

theorem Plain.telling (hpl : Plain g s r) (h : Heap g s) (hh : Homed g s) (hl : g.Live r)
    (hleaf : ∀ v < vaPages, hasFlag (leaf s.mem r v) pteV = true →
      pteCheck (leaf s.mem r v) = false) :
    Telling s.mem r := by
  intro x p i hx ht hi hv
  by_cases hlen : x.length < 2
  · rw [hpl p x i (h.tableAt_own hl hx.2 hx.1 ht) hlen hi hv, decide_eq_true hlen]
  · have hidx : ∀ j ∈ i :: x, j < 512 := List.forall_mem_cons.mpr ⟨hi, hx.2⟩
    have hx2 : x.length = 2 := Nat.le_antisymm hx.1 (Nat.le_of_not_lt hlen)
    obtain ⟨v, hpos, hbelow⟩ := exists_vpnPos (y := i :: x) (by rw [List.length_cons, hx2]) hidx
    obtain ⟨j, n, rfl⟩ := List.length_eq_two.mp hx2
    have hn := hh.low_index h hl ht (List.suffix_cons j [n]) (hidx n (by simp))
    have hlt := hbelow n ⟨[i, j], rfl⟩ hn
    obtain ⟨hi0, hlow⟩ := List.cons.inj hpos
    have hle : leaf s.mem r v = entry s.mem p i := by
      rw [leaf_eq (p := p), hi0]
      exact hlow.symm ▸ ht
    rw [← hle] at hv ⊢
    rw [hleaf v hlt hv]
    rfl

/-- What a ledger says about a table. -/
theorem Heap.userTable (h : Heap g s) (hl : g.Live r) (hh : Homed g s) (hpl : Plain g s r)
    (hroot : Managed s r ∧ inKernelOf s r = false)
    (hframe : ∀ v, UserMapped s r v →
      pteCheck (leaf s.mem r v) = false ∧ g.own (pteToPa (leaf s.mem r v)) = .frame r v)
    (htr : leaf s.mem r trampolineVpn = trampolinePte s)
    (htf : hasFlag (leaf s.mem r trapframeVpn) pteV = true →
      leaf s.mem r trapframeVpn = trapframePte t ∧
      t % pgSize = 0 ∧ (Managed s t ∧ inKernelOf s t = true) ∧ (g.own t).IsData) :
        UserTable s r t := by
  have hcheck : ∀ v < vaPages, hasFlag (leaf s.mem r v) pteV = true →
    pteCheck (leaf s.mem r v) = false := by
    intro v hv hval
    by_cases h1 : v = trampolineVpn
    · subst h1
      rw [htr, pteCheck_flags]
      unfold trampolinePte
      rw [(mapPte_flags (by decide) 0).2]
      rfl
    · by_cases h2 : v = trapframeVpn
      · subst h2
        rw [(htf hval).1, pteCheck_flags, trapframePte_flags]
        rfl
      · exact (hframe v ⟨⟨hv, h1, h2⟩, hval⟩).1
  have hdata : ∀ q, (g.own q).IsData → ¬ IsFree s q ∧ ¬ IsTable s.mem r q := by
    intro q hq
    refine ⟨fun hf => ?_, fun ⟨x, hx, ht⟩ => ?_⟩
    · obtain ⟨k, hk⟩ := (isFree_iff h.pools).mp hf
      rw [(h.free_iff q k).mp hk] at hq
      exact hq
    · rw [h.tableAt_own hl hx.2 hx.1 ht] at hq
      exact hq
  refine ⟨h.tableOk hl fun v hv hval =>
    flags_of_check (hcheck v hv hval), hroot, ?_, fun i h1 h2 => ?_,
    hpl.telling h hh hl hcheck, fun v hv => ?_, fun v w hv hw he => ?_, htr, fun hval => ?_⟩
  · rintro q ⟨x, hx, hne, ht⟩
    have hown := h.tableAt_own hl hx.2 hx.1 ht
    cases x with
    | nil => exact absurd rfl hne
    | cons i x => exact hh.home q true (by rw [hown]; rfl)
  · cases hv : hasFlag (entry s.mem r i) pteV with
    | false => rfl
    | true =>
        have hown := h.child r r [] i hl hl Nat.zero_lt_two h2 hv
        have hlt := hh.top _ r [] i hown
        omega
  · have hown := (hframe v hv).2
    have hd := hdata (pteToPa (leaf s.mem r v)) (by rw [hown]; trivial)
    exact ⟨hv.2, hh.home _ false (by rw [hown]; rfl), hd.1, hd.2⟩
  · have h1 := (hframe v hv).2
    rw [he, (hframe w hw).2] at h1
    exact (Use.frame.inj h1).2.symm
  · obtain ⟨h1, h2, h3, h4⟩ := htf hval
    exact ⟨h1, h2, h3, (hdata t h4).1, (hdata t h4).2⟩

/-- The ledger of a user table, with the frames `F` that are about to be mapped. -/
noncomputable def userLedger (s : Kernel) (r : Nat) (l : Bool → List Nat) (F : Nat → Nat → Prop) :
    Ledger :=
  (tableLedger s r l).assign r fun v q => UserMapped s r v ∧ pteToPa (leaf s.mem r v) = q ∨ F v q

/-- Frames that can be accounted for beside those of a table. -/
structure Spare (s : Kernel) (r : Nat) (F : Nat → Nat → Prop) : Prop where
  fresh : ∀ v q, F v q → FreshFrame s r q
  aligned : ∀ v q, F v q → q % pgSize = 0
  one : ∀ v w q, F v q → F w q → v = w

theorem Spare.none (s : Kernel) (r : Nat) : Spare s r fun _ _ => False :=
  ⟨fun _ _ h => h.elim, fun _ _ h => h.elim, fun _ _ _ h => h.elim⟩

/-- The entry of a page does not look like a table. -/
theorem UserTable.check (h : UserTable s r t) (hv : hasFlag (leaf s.mem r v) pteV = true) :
    pteCheck (leaf s.mem r v) = false := by
  obtain ⟨p, hp⟩ := leaf_ne_zero fun hz => by
    rw [hz, hasFlag_zero] at hv
    cases hv
  rw [leaf_eq hp] at hv ⊢
  exact h.telling (lowPos v) p _ ⟨Nat.le_refl 2, fun _ => mem_lowPos⟩ hp (vpnIndex_lt _ _) hv

theorem UserTable.entry_low (h : UserTable s r t) (hi : i < 512)
    (hv : hasFlag (entry s.mem r i) pteV = true) : i < 256 := by
  by_contra hc
  have hlow := h.low i (by omega) hi
  rw [hv] at hlow
  cases hlow

theorem UserTable.homed (h : UserTable s r t) (hl : Pools s l) : Homed (tableLedger s r l) s := by
  obtain ⟨hheap, -⟩ := h.table.heap hl
  refine ⟨fun q k hq => ?_, fun q r' x i hq => ?_⟩
  · cases hu : (tableLedger s r l).own q with
    | free j =>
        rw [hu] at hq
        obtain rfl := Option.some.inj hq
        exact hheap.home hu
    | table r' x =>
        obtain ⟨-, hx, ht⟩ := (tableLedger_table h.table hl).mp hu
        rw [hu] at hq
        cases x with
        | nil => cases hq
        | cons i x =>
            obtain rfl := Option.some.inj hq
            exact h.inner q ⟨i :: x, hx, List.cons_ne_nil _ _, ht⟩
    | other =>
        rw [hu] at hq
        cases hq
    | _ =>
        unfold tableLedger at hu
        dsimp only at hu
        repeat' split at hu
        all_goals cases hu
  · obtain ⟨-, hx, ht⟩ := (tableLedger_table h.table hl).mp hq
    obtain ⟨p, hp⟩ := tableAt_suffix ht (List.suffix_append x [i])
    obtain ⟨p', hp', hv, -⟩ := tableAt_cons.mp hp
    obtain rfl := Option.some.inj hp'
    exact h.entry_low (hx.2 i (List.mem_append_right _ List.mem_cons_self)) hv

/-- A ledger with the uses of all pages of a table. -/
structure Accounts (g : Ledger) (s : Kernel) (r t : Nat) (F : Nat → Nat → Prop) : Prop where
  heap : Heap g s
  live : g.Live r
  homed : Homed g s
  plain : Plain g s r
  tables : ∀ q x, g.own q = .table r x → IsPos x ∧ tableAt s.mem r x = some q
  mapped : ∀ v, UserMapped s r v → g.own (pteToPa (leaf s.mem r v)) = .frame r v
  spare : ∀ v q, F v q → g.own q = .frame r v
  trapframe : hasFlag (leaf s.mem r trapframeVpn) pteV = true → g.own t = .other

theorem UserTable.accounts (h : UserTable s r t) (hl : Pools s l) (hF : Spare s r F) :
    Accounts (userLedger s r l F) s r t F := by
  obtain ⟨hheap, hlive⟩ := h.table.heap hl
  have hpos : 0 < s.allocBegin := by
    have hp := hl.layout.pos
    unfold kernelBase at hp
    omega
  -- the frames, those of the table and those to come
  have hframe : ∀ v q, UserMapped s r v ∧ pteToPa (leaf s.mem r v) = q ∨ F v q →
      q % pgSize = 0 ∧ (Managed s q ∧ inKernelOf s q = false) ∧
      (tableLedger s r l).own q = .other := by
    rintro v q (⟨hv, rfl⟩ | hv)
    · have hf := h.frame v hv
      exact ⟨pteToPa_aligned _, hf.user, tableLedger_other h.table hl hf.taken hf.frame⟩
    · have hf := hF.fresh v q hv
      exact ⟨hF.aligned v q hv, hf.user, tableLedger_other h.table hl hf.taken hf.apart⟩
  have hone : ∀ v w q, UserMapped s r v ∧ pteToPa (leaf s.mem r v) = q ∨ F v q →
      UserMapped s r w ∧ pteToPa (leaf s.mem r w) = q ∨ F w q → v = w := by
    rintro v w q (⟨hv, hvq⟩ | hv) (⟨hw, hwq⟩ | hw)
    · exact h.distinct v w hv hw (hvq.trans hwq.symm)
    · exact absurd hvq ((hF.fresh w q hw).unmapped v hv.1.1 hv.2)
    · exact absurd hwq ((hF.fresh v q hv).unmapped w hw.1.1 hw.2)
    · exact hF.one v w q hv hw
  have hother : ∀ q, (tableLedger s r l).own q ≠ .other ∨ inKernelOf s q = true →
      (userLedger s r l F).own q = (tableLedger s r l).own q := by
    rintro q hq
    refine Ledger.assign_ne fun v hv => ?_
    obtain ⟨-, ⟨-, h2⟩, h3⟩ := hframe v q hv
    rcases hq with hq | hq
    · exact hq h3
    · rw [hq] at h2
      cases h2
  have htable :
      ∀ q x, (userLedger s r l F).own q = .table r x → (tableLedger s r l).own q = .table r x := by
    intro q x hq
    by_cases hex : ∃ v, UserMapped s r v ∧ pteToPa (leaf s.mem r v) = q ∨ F v q
    · obtain ⟨v, hv⟩ := hex
      unfold userLedger at hq
      rw [Ledger.assign_own hone hv] at hq
      cases hq
    · exact (Ledger.assign_ne fun v hv => hex ⟨v, hv⟩).symm.trans hq
  refine ⟨hheap.assign fun v q hv =>
    ?_, (hother r ?_).trans hlive, ⟨fun q k hq => ?_, fun q r' x i hq => ?_⟩,
    fun p x i hp hx hi hv => ?_, fun q x hq =>
    ((tableLedger_table h.table hl).mp (htable q x hq)).2,
    fun v hv => Ledger.assign_own hone (.inl ⟨hv, rfl⟩),
    fun v q hv => Ledger.assign_own hone (.inr hv), fun hv => ?_⟩
  · obtain ⟨h1, h2, h3⟩ := hframe v q hv
    have hm := h2.1.1
    exact ⟨h3, h1, by omega⟩
  · rw [show (tableLedger s r l).own r = _ from hlive]
    exact .inl Use.noConfusion
  · by_cases hex : ∃ v, UserMapped s r v ∧ pteToPa (leaf s.mem r v) = q ∨ F v q
    · obtain ⟨v, hv⟩ := hex
      unfold userLedger at hq
      rw [Ledger.assign_own hone hv] at hq
      obtain rfl := Option.some.inj hq
      exact (hframe v q hv).2.1
    · unfold userLedger at hq
      rw [Ledger.assign_ne fun v hv => hex ⟨v, hv⟩] at hq
      exact (h.homed hl).home q k hq
  · by_cases hex : ∃ v, UserMapped s r v ∧ pteToPa (leaf s.mem r v) = q ∨ F v q
    · obtain ⟨v, hv⟩ := hex
      unfold userLedger at hq
      rw [Ledger.assign_own hone hv] at hq
      cases hq
    · unfold userLedger at hq
      rw [Ledger.assign_ne fun v hv => hex ⟨v, hv⟩] at hq
      exact (h.homed hl).top q r' x i hq
  · obtain ⟨-, hpos, ht⟩ := (tableLedger_table h.table hl).mp (htable p x hp)
    rw [h.telling x p i hpos ht hi hv]
    exact decide_eq_true hx
  · obtain ⟨-, htp⟩ := h.trapframe hv
    rw [hother t (.inr htp.kernel.2)]
    exact tableLedger_other h.table hl htp.taken htp.apart

/-! ## The calls -/

/-- With fewer free pages and the same memory. -/
theorem UserTable.fewer (h : UserTable s r t) (hl : Pools s l) (hm : s'.mem = s.mem)
    (hr : s'.rest = s.rest)
    {l' : Bool → List Nat} (hl' : Pools s' l') (hsub : ∀ k, ∀ q ∈ l' k, q ∈ l k) :
    UserTable s' r t := by
  have hfree : ∀ q, ¬ IsFree s q → ¬ IsFree s' q := by
    intro q hq hc
    obtain ⟨k, hk⟩ := (isFree_iff hl').mp hc
    exact hq ((isFree_iff hl).mpr ⟨k, hsub k q hk⟩)
  have hman : ∀ q, Managed s' q ↔ Managed s q := by
    intro q
    unfold Managed
    rw [rest_allocBegin hr]
  have hin : ∀ q, inKernelOf s' q = inKernelOf s q := by
    intro q
    unfold inKernelOf
    rw [rest_allocBegin hr]
  have htr : trampolinePte s' = trampolinePte s := by
    unfold trampolinePte
    rw [rest_trampoline hr]
  refine ⟨⟨⟨l', hl'⟩, ?_, fun q hq => ?_, ?_⟩, ?_, fun q hq => ?_, ?_, ?_, fun v hv =>
    ?_, ?_, ?_, fun hv => ?_⟩
  · rw [hm]
    exact h.table.distinct
  · rw [hm] at hq
    obtain ⟨h1, h2, h3⟩ := h.table.page q hq
    exact ⟨h1, h2, hfree q h3⟩
  · rw [hm]
    exact h.table.leaf
  · rw [hman, hin]
    exact h.root
  · unfold InnerTable at hq
    rw [hm] at hq
    rw [hman, hin]
    exact h.inner q hq
  · rw [hm]
    exact h.low
  · rw [hm]
    exact h.telling
  · unfold UserMapped at hv
    rw [hm] at hv ⊢
    have hf := h.frame v hv
    refine ⟨hf.valid, ?_, hfree _ hf.taken, hm ▸ hf.frame⟩
    rw [hman, hin]
    exact hf.user
  · unfold UserMapped
    rw [hm]
    exact h.distinct
  · rw [hm, htr]
    exact h.trampoline
  · rw [hm] at hv ⊢
    obtain ⟨h1, h2⟩ := h.trapframe hv
    refine ⟨h1, h2.page, ?_, hfree t h2.taken, hm ▸ h2.apart⟩
    rw [hman, hin]
    exact h2.kernel

/-- Taking a page changes no memory. -/
theorem UserTable.alloc (h : UserTable s r t) (k : Bool) :
    Sat (pmemAlloc k) s G (fun _ s' => UserTable s' r t ∧ s'.rest = s.rest) E := by
  obtain ⟨l, hl⟩ := h.table.pools
  refine (pmemAlloc_sat hl k).imp fun q s' ht => ?_
  cases ht with
  | none _ => exact ⟨h, rfl⟩
  | some hhead hpools =>
      refine ⟨h.fewer hl (setRegion_mem _ _ _) (rest_setRegion _ _ _) hpools fun j q' hq =>
        ?_, rest_setRegion _ _ _⟩
      by_cases hj : j = k
      · subst hj
        rw [Function.update_self] at hq
        rw [hhead]
        exact List.mem_cons_of_mem _ hq
      · rw [Function.update_of_ne hj] at hq
        exact hq

theorem frame_pa {pa k : Nat} (hperm : perm < 2 ^ 10) (hq : (pa / pgSize + k) * pgSize < physTop) :
    pteToPa (mapPte pa perm k) = (pa / pgSize + k) * pgSize := by
  have hf : mapPte pa perm k / 2 ^ 10 = (pa / 2 ^ 12 + k) % 2 ^ 52 := mapPte_frame hperm k
  have hpg : pa / pgSize = pa / 2 ^ 12 := rfl
  unfold pteToPa
  rw [hf, hpg]
  rw [hpg] at hq
  unfold u64 pgSize physTop at *
  omega

/-- Fresh frames are mapped. -/
theorem UserTable.map {va pa len : Nat} (h : UserTable s r t)
    (ha : (TableOp.map va pa len perm).Allowed s r) :
    Sat (vmMappages r va pa len perm) s G (fun _ s' => UserTable s' r t ∧ s'.rest = s.rest) fun _ =>
      True := by
  obtain ⟨l, hl⟩ := h.table.pools
  obtain ⟨hlen, hva, hperm, hcheck, hpages⟩ := ha
  have hle : va / pgSize ≤ (va + len - 1) / pgSize := Nat.div_le_div_right (by omega)
  have hpa : pa < 2 ^ 64 := by
    have hf := (hpages _ (Nat.le_refl _) hle).2.2.user.1.2
    rw [Nat.sub_self, Nat.add_zero] at hf
    unfold physTop pgSize at *
    omega
  have hF : Spare s r fun v q => (va / pgSize ≤ v ∧ v ≤ (va + len - 1) / pgSize) ∧
      (pa / pgSize + (v - va / pgSize)) * pgSize = q := by
    refine ⟨?_, ?_, ?_⟩
    · rintro v q ⟨⟨h1, h2⟩, rfl⟩
      exact (hpages v h1 h2).2.2
    · rintro v q ⟨-, rfl⟩
      exact Nat.mul_mod_left _ _
    · rintro v w q ⟨⟨h1, -⟩, rfl⟩ ⟨⟨h2, -⟩, he⟩
      unfold pgSize at *
      omega
  obtain ⟨g, hacc⟩ : ∃ g, Accounts g s r t fun v q =>
    (va / pgSize ≤ v ∧ v ≤ (va + len - 1) / pgSize) ∧
      (pa / pgSize + (v - va / pgSize)) * pgSize = q := ⟨_, h.accounts hl hF⟩
  refine (vmMappages_sat hacc.heap hacc.live hlen hva hpa (Nat.lt_trans hperm (by decide))).mono ?_
    fun _ _ => trivial
  rintro - s' ⟨g', he⟩
  have hrest := he.framed.rest
  have hown : ∀ q u, g.own q = u → u.Stays → g'.own q = u := by
    intro q u hq hst
    exact (he.framed.own_eq (by rw [hq]; exact fun hc => hc.not_stays hst)).trans hq
  have hroot : Managed s' r ∧ inKernelOf s' r = false := by
    unfold Managed inKernelOf
    rw [rest_allocBegin hrest]
    exact h.root
  have htr : trampolinePte s' = trampolinePte s := by
    unfold trampolinePte
    rw [rest_trampoline hrest]
  -- the two pages of `proc_pgtbl_init` are not in the range
  have hout : ∀ v < vaPages, v = trampolineVpn ∨ v = trapframeVpn →
    leaf s'.mem r v = leaf s.mem r v := by
    intro v hv hc
    rw [he.leaf v hv, if_neg]
    rintro ⟨h1, h2⟩
    obtain ⟨hno, hne, -⟩ := hpages v h1 h2
    rcases hc with rfl | hc
    · rw [translate_eq_none, h.trampoline] at hno
      unfold trampolinePte at hno
      rw [mapPte_valid (by decide)] at hno
      cases hno
    · exact hne hc
  refine ⟨he.heap.userTable he.live (he.homed hacc.homed) (he.plain hacc.plain) hroot
    (fun v hv => ?_) ?_ (fun hv => ?_), hrest⟩
  · have hl' := he.leaf v hv.1.1
    by_cases hin : va / pgSize ≤ v ∧ v ≤ (va + len - 1) / pgSize
    · rw [if_pos hin] at hl'
      have hfr := (hpages v hin.1 hin.2).2.2
      rw [hl', pteCheck_flags, (mapPte_flags hperm _).2, frame_pa hperm hfr.user.1.2]
      refine ⟨?_, hown _ _ (hacc.spare v _ ⟨hin, rfl⟩) trivial⟩
      rw [check_or_valid]
      exact hcheck
    · rw [if_neg hin] at hl'
      have hv' : UserMapped s r v := ⟨hv.1, hl' ▸ hv.2⟩
      have hm := hacc.mapped v hv'
      rw [hl']
      exact ⟨h.check hv'.2, hown _ _ hm trivial⟩
  · rw [hout _ (by decide) (.inl rfl), htr]
    exact h.trampoline
  · rw [hout _ (by decide) (.inr rfl)] at hv ⊢
    obtain ⟨h1, h2⟩ := h.trapframe hv
    refine ⟨h1, h2.page, ?_, ?_⟩
    · unfold Managed inKernelOf
      rw [rest_allocBegin hrest]
      exact h2.kernel
    · rw [hown t _ (hacc.trapframe hv) trivial]
      trivial

/-- The trampoline is part of the kernel: its frame is not one of the allocator. -/
theorem UserTable.trampoline_kept (h : UserTable s r t) (htext : Text s) :
    ¬ Unmappable s r true trampolineVpn := by
  intro hu
  have h1 := htext.below
  have h2 := htext.end_le
  have h3 := hu.managed rfl
  obtain ⟨l, hl⟩ := h.table.pools
  have hroom := hl.layout.room
  have hlt : s.trampoline < 2 ^ 64 := by
    unfold physTop at hroom
    omega
  have hpa : pteToPa (trampolinePte s) = s.trampoline := mapPte_pa htext.trampoline hlt (by decide)
  rw [h.trampoline, hpa] at h3
  have h4 := h3.1
  omega

theorem TrapPage.pa (h : TrapPage s r t) : pteToPa (trapframePte t) = t :=
  mapPte_pa h.page (Nat.lt_trans h.kernel.1.2 (by decide)) (by decide)

def TableRange (r v n : Nat) (u : Use) : Prop :=
  (v ≤ trapframeVpn ∧ trapframeVpn < v + n) ∧ u = .other ∨ ∃ w, v ≤ w ∧ w < v + n ∧ u = .frame r w

theorem Accounts.releases (h : UserTable s r t) (htext : Text s) (hacc : Accounts g s r t F) :
    Releases g s r v n (TableRange r v n) := by
  -- the page behind an entry of the range
  have hown : ∀ w, v ≤ w → w < v + n → Unmappable s r true w →
      w = trapframeVpn ∧ g.own (pteToPa (leaf s.mem r w)) = .other ∨
        UserMapped s r w ∧ g.own (pteToPa (leaf s.mem r w)) = .frame r w := by
    intro w h1 h2 hu
    by_cases hw : w = trapframeVpn
    · subst hw
      obtain ⟨h3, h4⟩ := h.trapframe hu.valid
      rw [h3, h4.pa]
      exact .inl ⟨rfl, hacc.trapframe hu.valid⟩
    · have hne : w ≠ trampolineVpn := by
        rintro rfl
        exact h.trampoline_kept htext hu
      have hm : UserMapped s r w := ⟨⟨hu.below, hne, hw⟩, hu.valid⟩
      exact .inr ⟨hm, hacc.mapped w hm⟩
  refine ⟨fun w h1 h2 hu => ?_, fun w w' h1 h2 h3 h4 hu hu' he => ?_⟩
  · rcases hown w h1 h2 hu with ⟨rfl, ho⟩ | ⟨-, ho⟩
    · rw [ho]
      exact ⟨trivial, .inl ⟨⟨h1, h2⟩, rfl⟩⟩
    · rw [ho]
      exact ⟨trivial, .inr ⟨w, h1, h2, rfl⟩⟩
  · have ho := hown w h1 h2 hu
    have ho' := hown w' h3 h4 hu'
    rw [he] at ho
    rcases ho with ⟨rfl, ho⟩ | ⟨-, ho⟩ <;> rcases ho' with ⟨rfl, ho'⟩ | ⟨-, ho'⟩ <;> rw [ho] at ho'
    · cases ho'
    · cases ho'
    · exact (Use.frame.inj ho').2

/-- A range is unmapped and its frames are given back. -/
theorem UserTable.unmap {va len : Nat} (h : UserTable s r t) (htext : Text s) (hva : va < 2 ^ 64)
    (hlen : len < 2 ^ 64) :
    Sat (vmUnmappages r va len true) s (fun _ => True)
      (fun _ s' => UserTable s' r t ∧ s'.rest = s.rest) fun _ => True := by
  obtain ⟨l, hl⟩ := h.table.pools
  by_cases hal : va % pgSize = 0
  swap
  · unfold vmUnmappages
    rw [if_pos hal, sat_bind, sat_panic]
    trivial
  obtain ⟨v, rfl⟩ : ∃ v, va = v * pgSize :=
    ⟨va / pgSize, (Nat.div_mul_cancel (Nat.dvd_of_mod_eq_zero hal)).symm⟩
  by_cases hwrap : v * pgSize + len < 2 ^ 64
  swap
  · -- no page of the range is visited
    refine vmUnmappages_wrapped ?_ ⟨h, rfl⟩
    unfold u64
    omega
  obtain ⟨g, hacc⟩ : ∃ g, Accounts g s r t fun _ _ => False := ⟨_, h.accounts hl (.none s r)⟩
  refine vmUnmappages_sat (D := TableRange r v ((len + (pgSize - 1)) / pgSize))
    hacc.heap hacc.live hwrap rfl
    (fun _ _ => trivial) (fun _ _ _ _ _ => trivial) (fun _ => hacc.releases h htext)
    fun hall g' s' hu => ?_
  generalize (len + (pgSize - 1)) / pgSize = n at hall hu
  have hrest := hu.framed.rest
  have hroot : Managed s' r ∧ inKernelOf s' r = false := by
    unfold Managed inKernelOf
    rw [rest_allocBegin hrest]
    exact h.root
  have htr : trampolinePte s' = trampolinePte s := by
    unfold trampolinePte
    rw [rest_trampoline hrest]
  -- what is still mapped was not in the range
  have hout : ∀ w < vaPages, hasFlag (leaf s'.mem r w) pteV = true →
      ¬ (v ≤ w ∧ w < v + n) ∧ leaf s'.mem r w = leaf s.mem r w := by
    intro w hw hval
    have hle := hu.leaf w hw
    by_cases hin : v ≤ w ∧ w < v + n
    · rw [hle, if_pos hin, hasFlag_zero] at hval
      cases hval
    · exact ⟨hin, hle.trans (if_neg hin)⟩
  refine ⟨hu.heap.userTable hu.live (hu.homed hacc.homed) (hu.plain hacc.plain) hroot
    (fun w hw => ?_) ?_ (fun hv => ?_), hrest⟩
  · obtain ⟨hin, hle⟩ := hout w hw.1.1 hw.2
    have hm : UserMapped s r w := ⟨hw.1, hle ▸ hw.2⟩
    have hown := hacc.mapped w hm
    rw [hle]
    refine ⟨h.check hm.2, (hu.framed.own_eq ?_).trans hown⟩
    rw [hown]
    rintro (_ | _ | ⟨⟨-, hc⟩ | ⟨w', h1, h2, hc⟩⟩)
    · cases hc
    · obtain ⟨-, rfl⟩ := Use.frame.inj hc
      exact hin ⟨h1, h2⟩
  · rw [hu.leaf _ (by decide), if_neg, htr]
    · exact h.trampoline
    · rintro ⟨h1, h2⟩
      exact h.trampoline_kept htext (hall _ h1 h2)
  · obtain ⟨hin, hle⟩ := hout _ (by decide) hv
    rw [hle] at hv ⊢
    obtain ⟨h1, h2⟩ := h.trapframe hv
    have hown := hacc.trapframe hv
    refine ⟨h1, h2.page, ?_, ?_⟩
    · unfold Managed inKernelOf
      rw [rest_allocBegin hrest]
      exact h2.kernel
    · rw [hu.framed.own_eq, hown]
      · trivial
      · rw [hown]
        rintro (_ | _ | ⟨⟨hc, -⟩ | ⟨w', -, -, hc⟩⟩)
        · exact hin hc
        · cases hc

/-! ## `proc_pgtbl_init` -/

theorem FreshSpace.unmapped (h : FreshSpace r t g s g' s') (v : Nat) : ¬ UserMapped s' r v := by
  rintro ⟨⟨hlt, h1, h2⟩, hval⟩
  rw [h.leaf v hlt, if_neg h2, if_neg h1, hasFlag_zero] at hval
  cases hval

/-- A new table maps the trampoline and the trap frame. -/
theorem FreshSpace.userTable (h : FreshSpace r t g s g' s') (ht : t % pgSize = 0)
    (htk : Managed s t ∧ inKernelOf s t = true) (hown : g.own t = .trapframe 0) :
    UserTable s' r t := by
  have hsp := h.space
  have hrest := h.framed.rest
  have htr : trampolinePte s' = trampolinePte s := by
    unfold trampolinePte
    rw [rest_trampoline hrest]
  refine hsp.heap.userTable hsp.live hsp.homed h.plain hsp.pool
    (fun v hv => absurd hv (h.unmapped v)) ?_
    (fun hv => ⟨?_, ht, ?_, ?_⟩)
  · rw [h.leaf _ (by decide), if_neg (by decide), if_pos rfl, htr]
  · rw [h.leaf _ (by decide), if_pos rfl]
  · unfold Managed inKernelOf
    rw [rest_allocBegin hrest]
    exact htk
  · have hk := (h.kept t ht (by rw [hown]; trivial)).1
    rw [hk, hown]
    trivial

/-- `proc_pgtbl_init` fails only when pages are missing. -/
theorem procPgtblInit_userTable (h : TableStart s t) (hl : Pools s l) :
    Sat (procPgtblInit t) s (fun _ => True)
      (fun r s' => (r = 0 → ¬ (1 ≤ (l false).length ∧ 2 ≤ (l true).length)) ∧
      (r ≠ 0 → UserTable s' r t ∧ s'.rest = s.rest ∧ ∀ v, ¬ UserMapped s' r v)) E := by
  have hno : ∀ k, (Ledger.boot l).own t ≠ .free k := fun k hk =>
    h.taken ((isFree_iff hl).mpr ⟨k, (boot_own hl t k).mp hk⟩)
  have hother : (Ledger.boot l).own t = .other := by
    rcases boot_free (l := l) t with ho | ⟨k, -, ho⟩
    · exact ho
    · exact absurd ho (hno k)
  have hpos : 0 < t := by
    have hm := h.kernel.1.1
    have hb := hl.layout.pos
    unfold kernelBase at hb
    omega
  -- the page of the trap frame is accounted for
  have hheap : Heap ((Ledger.boot l).set t (.trapframe 0)) s := by
    refine hl.heap.account fun q => ?_
    by_cases hq : q = t
    · subst hq
      exact .inr ⟨hother, by rw [Function.update_self]; trivial, h.page, hpos⟩
    · exact .inl (Function.update_of_ne hq _ _)
  have hhomed : Homed ((Ledger.boot l).set t (.trapframe 0)) s := by
    refine hl.homed.update rfl (fun k hk => ?_) fun r x i he => nomatch he
    obtain rfl := Option.some.inj hk
    exact h.kernel
  have htable : ∀ q r x, ((Ledger.boot l).set t (.trapframe 0)).own q ≠ .table r x := by
    intro q r x
    by_cases hq : q = t
    · subst hq
      rw [Ledger.set_own_self]
      exact Use.noConfusion
    · rw [Ledger.set_own_ne hq]
      exact boot_table q r x
  refine procPgtblInit_sat hheap hhomed (fun q r x hq =>
    absurd hq (htable q r x)) h.text h.kernel.1.2
    (fun hshort _ _ _ => ⟨fun _ => hshort, fun hc => absurd rfl hc⟩) fun r g' s' hf => ?_
  refine ⟨fun hr => ?_, fun _ =>
    ⟨hf.userTable h.page h.kernel Ledger.set_own_self, hf.framed.rest, hf.unmapped⟩⟩
  have hpage := hf.space.heap.table_page hf.space.live
  omega

/-- What holds of a table after any calls. -/
theorem TableRun.userTable {s₀ : Kernel} (h : TableStart s₀ t) (hrun : TableRun s₀ r t s) :
    UserTable s r t ∧ s.rest = s₀.rest := by
  induction hrun with
  | init run made =>
      obtain ⟨l, hl⟩ := h.pools
      obtain ⟨ht, hrest, -⟩ :=
        ((procPgtblInit_userTable (E := fun _ => True) h hl).of_ok run).2 made
      exact ⟨ht, hrest⟩
  | @call s s' op before allowed run ih =>
      obtain ⟨ht, hrest⟩ := ih
      have hstep :
        Sat (op.run r) s (fun _ => True) (fun _ s' => UserTable s' r t ∧ s'.rest = s.rest) fun _ =>
          True := by
        cases op with
        | alloc k =>
            unfold TableOp.run
            rw [sat_bind]
            refine (ht.alloc k).imp fun q s' hq => ?_
            rw [sat_pure]
            exact hq
        | map va pa len perm => exact ht.map allowed
        | unmap va len => exact ht.unmap (h.text.of_rest hrest) allowed.1 allowed.2
      obtain ⟨h1, h2⟩ := hstep.of_ok run
      exact ⟨h1, h2.trans hrest⟩

/-! ## The end of a table -/

theorem pools_unique {l' : Bool → List Nat} (h : Pools s l) (h' : Pools s l') : l' = l := by
  funext k
  exact Chain.unique (h'.pool k).chain (h.pool k).chain

/-- A table after the entries of the kernel were cleared. -/
structure Bare (s : Kernel) (r : Nat) (g : Ledger) (s' : Kernel) : Prop where
  heap : Heap g s'
  live : g.Live r
  homed : Homed g s'
  root : Managed s' r ∧ inKernelOf s' r = false
  telling : Telling s'.mem r
  tables : ∀ x, IsPos x → tableAt s'.mem r x = tableAt s.mem r x
  frames : ∀ v < vaPages, hasFlag (leaf s'.mem r v) pteV = true ↔ UserMapped s r v
  same : ∀ v, UserMapped s r v → leaf s'.mem r v = leaf s.mem r v
  own : ∀ v, UserMapped s r v → g.own (pteToPa (leaf s.mem r v)) = .frame r v
  kept : ∀ q, q % pgSize = 0 → ¬ IsTable s.mem r q → ∀ i < pgSize, s'.mem (q + i) = s.mem (q + i)
  rest : s'.rest = s.rest

theorem UserTable.bare (h : UserTable s r t) (hl : Pools s l) :
    Bare s r (userLedger s r l fun _ _ => False)
      (unhook r trapframeVpn (unhook r trampolineVpn s)) := by
  have hacc := h.accounts hl (.none s r)
  generalize hg : userLedger s r l (fun _ _ => False) = g at hacc
  have h₁ := hacc.heap.unhook hacc.live (v := trampolineVpn) (by decide)
  generalize unhook r trampolineVpn s = s₁ at h₁ ⊢
  have h₂ := h₁.heap.unhook hacc.live (v := trapframeVpn) (by decide)
  generalize unhook r trapframeVpn s₁ = s₂ at h₂ ⊢
  have hrest : s₂.rest = s.rest := h₂.framed.rest.trans h₁.framed.rest
  have hleaf :
      ∀ v < vaPages, leaf s₂.mem r v = if v = trapframeVpn then 0 else if v = trampolineVpn then 0
        else leaf s.mem r v := by
    intro v hv
    rw [h₂.leaf v hv, h₁.leaf v hv]
  have hsame : ∀ v, UserMapped s r v → leaf s₂.mem r v = leaf s.mem r v := by
    rintro v ⟨⟨hv, h1, h2⟩, -⟩
    rw [hleaf v hv, if_neg h2, if_neg h1]
  have hframes : ∀ v < vaPages, hasFlag (leaf s₂.mem r v) pteV = true ↔ UserMapped s r v := by
    intro v hv
    constructor
    · intro hval
      rw [hleaf v hv] at hval
      split at hval
      · rw [hasFlag_zero] at hval
        cases hval
      · next h2 =>
        split at hval
        · rw [hasFlag_zero] at hval
          cases hval
        · next h1 => exact ⟨⟨hv, h1, h2⟩, hval⟩
    · intro hm
      rw [hsame v hm]
      exact hm.2
  have hhomed : Homed g s₂ := hacc.homed.of_rest hrest
  refine ⟨h₂.heap, hacc.live, hhomed, ?_,
    (h₂.plain (h₁.plain hacc.plain)).telling h₂.heap hhomed hacc.live fun v hv hval => ?_,
    fun x hx => (h₂.tables x hx).trans (h₁.tables x hx), hframes, hsame, hacc.mapped,
    fun q hq hn i hi => ?_, hrest⟩
  · unfold Managed inKernelOf
    rw [rest_allocBegin hrest]
    exact h.root
  · have hm := (hframes v hv).mp hval
    rw [hsame v hm]
    exact h.check hm.2
  · have hnot : ¬ ∃ x, g.own q = .table r x := by
      rintro ⟨x, hx⟩
      exact hn ⟨x, hacc.tables q x hx⟩
    rw [h₂.framed.mem q hq hnot i hi, h₁.framed.mem q hq hnot i hi]

def ownSpots (s : Kernel) (r : Nat) : List Spot := spotsBelow s.mem 2 r [] ++ [([], r)]

theorem Bare.mem (h : Bare s r g s') {z : Spot} : z ∈ ownSpots s' r ↔
    IsPos z.1 ∧ tableAt s.mem r z.1 = some z.2 ∨
      ∃ v, UserMapped s r v ∧ z.1 = vpnPos v ∧ pteToPa (leaf s.mem r v) = z.2 := by
  unfold ownSpots
  rw [List.mem_append, List.mem_singleton, mem_spotsBelow h.telling IsPos.nil rfl rfl]
  constructor
  · rintro (⟨-, hlt, hle, hidx, hz⟩ | rfl)
    · by_cases hlen : z.1.length ≤ 2
      · exact .inl ⟨⟨hlen, hidx⟩, (h.tables z.1 ⟨hlen, hidx⟩).symm.trans hz⟩
      · obtain ⟨v, hpos, hbelow⟩ := exists_vpnPos (y := z.1) (by omega) hidx
        obtain ⟨i, j, n, hy⟩ := List.length_eq_three.mp (show z.1.length = 3 by omega)
        have hs : [n] <:+ z.1 := hy ▸ ⟨[i, j], rfl⟩
        have hn := h.homed.low_index h.heap h.live (x := z.1) hz hs
          (hidx n (hs.subset List.mem_cons_self))
        have hv := hbelow n hs hn
        rw [← hpos, tableAt_vpnPos] at hz
        have hm := (h.frames v hv).mp hz.1
        exact .inr ⟨v, hm, hpos.symm, h.same v hm ▸ hz.2⟩
    · exact .inl ⟨IsPos.nil, rfl⟩
  · rintro (⟨hpos, hz⟩ | ⟨v, hm, hpos, hq⟩)
    · by_cases hnil : z.1 = []
      · rw [hnil] at hz
        exact .inr (Prod.ext hnil (Option.some.inj hz).symm)
      · exact .inl ⟨List.nil_suffix, List.length_pos_of_ne_nil hnil,
          Nat.le_succ_of_le hpos.1, hpos.2,
          (h.tables z.1 hpos).trans hz⟩
    · rw [hpos]
      refine .inl ⟨List.nil_suffix, Nat.succ_pos _, Nat.le_refl 3,
        List.forall_mem_cons.mpr ⟨vpnIndex_lt _ _, fun _ => mem_lowPos⟩,
        tableAt_vpnPos.mpr ⟨(h.frames v hm.1.1).mpr hm, ?_⟩⟩
      rw [h.same v hm]
      exact hq

theorem Bare.mem_pages (h : Bare s r g s') (q : Nat) :
    q ∈ (ownSpots s' r).map Prod.snd ↔ InnerTable s r q ∨ UserFrame s r q ∨ q = r := by
  rw [List.mem_map]
  constructor
  · rintro ⟨z, hz, rfl⟩
    rcases h.mem.mp hz with ⟨hpos, ht⟩ | ⟨v, hm, -, hq⟩
    · by_cases hnil : z.1 = []
      · rw [hnil] at ht
        exact .inr (.inr (Option.some.inj ht).symm)
      · exact .inl ⟨z.1, hpos, hnil, ht⟩
    · exact .inr (.inl ⟨v, hm, hq⟩)
  · rintro (⟨x, hx, -, ht⟩ | ⟨v, hm, hq⟩ | rfl)
    · exact ⟨(x, q), h.mem.mpr (.inl ⟨hx, ht⟩), rfl⟩
    · exact ⟨(vpnPos v, q), h.mem.mpr (.inr ⟨v, hm, rfl, hq⟩), rfl⟩
    · exact ⟨([], q), h.mem.mpr (.inl ⟨IsPos.nil, rfl⟩), rfl⟩

/-- The pages are different pages of their regions, and none is free. -/
theorem Bare.givable (h : Bare s r g s') : Givable s' (ownSpots s' r) := by
  -- the uses of the pages
  have huse : ∀ z ∈ ownSpots s' r, (IsPos z.1 ∧ g.own z.2 = .table r z.1) ∨ ∃ v, z.1 = vpnPos v ∧
    g.own z.2 = .frame r v := by
    intro z hz
    rcases h.mem.mp hz with ⟨hpos, ht⟩ | ⟨v, hm, hpos, hq⟩
    · exact .inl ⟨hpos, h.heap.tableAt_own h.live hpos.2 hpos.1 ((h.tables z.1 hpos).trans ht)⟩
    · exact .inr ⟨v, hpos, hq ▸ h.own v hm⟩
  have hinj : ∀ z ∈ ownSpots s' r, ∀ w ∈ ownSpots s' r, z.2 = w.2 → z = w := by
    intro z hz w hw he
    refine Prod.ext ?_ he
    have h1 := huse z hz
    have h2 := huse w hw
    rw [he] at h1
    rcases h1 with ⟨-, h1⟩ | ⟨v, hv, h1⟩ <;>
      rcases h2 with ⟨-, h2⟩ | ⟨v', hv', h2⟩ <;> rw [h1] at h2
    · exact (Use.table.inj h2).2
    · cases h2
    · cases h2
    · rw [hv, hv', (Use.frame.inj h2).2]
  have hnd : ((ownSpots s' r).map Prod.fst).Nodup := by
    unfold ownSpots
    rw [List.map_append, List.nodup_append]
    refine ⟨spotsBelow_nodup _ _ _ _, List.nodup_singleton _, fun a ha b hb => ?_⟩
    obtain ⟨z, hz, rfl⟩ := List.mem_map.mp ha
    obtain ⟨j, -, hj⟩ := spotsBelow_suffix hz
    rw [List.mem_singleton.mp hb]
    intro he
    rw [he] at hj
    cases List.suffix_nil.mp hj
  refine ⟨⟨g.free, h.heap.pools, fun z hz k hk => ?_⟩, (hnd.of_map _).map_on hinj, fun z hz => ?_⟩
  · have hf := (h.heap.free_iff z.2 k).mp hk
    rcases huse z hz with ⟨-, h1⟩ | ⟨v, -, h1⟩ <;> rw [h1] at hf <;> cases hf
  · rcases huse z hz with ⟨hpos, h1⟩ | ⟨v, hv, h1⟩
    · refine ⟨(h.heap.table_page h1).1, ?_⟩
      obtain ⟨x, q⟩ := z
      cases x with
      | nil =>
          obtain rfl := h.heap.root q r h1
          exact h.root
      | cons i x =>
          have hk : spotKind (i :: x, q) = true :=
            decide_eq_true ⟨Nat.succ_pos _, Nat.lt_succ_of_le hpos.1⟩
          rw [hk]
          exact h.homed.home q true (by rw [h1]; rfl)
    · have hk : spotKind z = false := by
        unfold spotKind
        rw [hv]
        rfl
      rw [hk]
      exact ⟨(h.heap.page z.2 (by rw [h1]; exact Use.noConfusion)).1,
        h.homed.home z.2 false (by rw [h1]; rfl)⟩

theorem Bare.gives (h : Bare s r g s') :
    GaveBack (do destroyPgtbl 2 r; pmemFree r false) s' (ownSpots s' r) := by
  have hg : Givable s' (spotsBelow s'.mem 2 r [] ++ [([], r)]) := h.givable
  have hwalk := destroyPgtbl_gives (x := []) rfl (h.heap.table_page h.live).1 hg.left fun z hz =>
    hg.apart hz List.mem_cons_self
  exact hwalk.bind hg.right.free

/-- A page that is not free may be mapped if neither the table nor a mapping of it leads there. -/
theorem UserTable.fresh (h : UserTable s r t) (hq : Managed s q ∧ inKernelOf s q = false)
    (htaken : ¬ IsFree s q) (hroot : r ≠ q)
    (htrampoline : pteToPa (trampolinePte s) ≠ q) (htrapframe : pteToPa (trapframePte t) ≠ q)
    (huser : ∀ v, UserMapped s r v → pteToPa (leaf s.mem r v) ≠ q) : FreshFrame s r q := by
  refine ⟨hq, htaken, ?_, fun v hv hval => ?_⟩
  · rintro ⟨x, hx, ht⟩
    by_cases hnil : x = []
    · subst hnil
      exact hroot (Option.some.inj ht)
    · have hk := (h.inner _ ⟨x, hx, hnil, ht⟩).2
      rw [hq.2] at hk
      cases hk
  · by_cases h1 : v = trampolineVpn
    · subst h1
      exact (congrArg pteToPa h.trampoline).trans_ne htrampoline
    by_cases h2 : v = trapframeVpn
    · subst h2
      exact (congrArg pteToPa (h.trapframe hval).1).trans_ne htrapframe
    · exact huser v ⟨⟨hv, h1, h2⟩, hval⟩

/-! ## Every run -/

/-- After any calls the destruction of the table gives back its own pages, each once, and no
other. -/
theorem destroy_gives_own_pages {s₀ : Kernel} (h : TableStart s₀ t) (hrun : TableRun s₀ r t s) :
    ∃ (L : List Nat) (s' : Kernel), uvmDestroyPgtbl r s = (.ok ((), s'), L.map .pageFreed) ∧
    L.Nodup ∧
      (∀ q, q ∈ L ↔ InnerTable s r q ∨ UserFrame s r q ∨ q = r) ∧
      (∀ q, InnerTable s r q → inKernelOf s q = true) ∧
      (∀ q, UserFrame s r q ∨ q = r → inKernelOf s q = false) ∧
      (∀ l, Pools s l → Pools s' fun k => (L.filter fun q => inKernelOf s q = k).reverse ++ l k) ∧
      s.trampoline ∉ L ∧ (hasFlag (leaf s.mem r trapframeVpn) pteV = true →
        pteToPa (leaf s.mem r trapframeVpn) = t ∧ t ∉ L) ∧
      (∀ q, q % pgSize = 0 → q ∉ L → ∀ i < pgSize, s'.mem (q + i) = s.mem (q + i)) ∧
      s'.rest = s.rest := by
  obtain ⟨ht, hrest⟩ := hrun.userTable h
  obtain ⟨l, hl⟩ := ht.table.pools
  have hb := ht.bare hl
  have hrun' := uvmDestroyPgtbl_run s r
  generalize unhook r trapframeVpn (unhook r trampolineVpn s) = s' at hb hrun'
  have hg := hb.givable
  have hmem := hb.mem_pages
  have hin : ∀ q, inKernelOf s' q = inKernelOf s q := by
    intro q
    unfold inKernelOf
    rw [rest_allocBegin hb.rest]
  have hman : ∀ q ∈ (ownSpots s' r).map Prod.snd, Managed s q := by
    intro q hq
    rcases (hmem q).mp hq with h1 | ⟨v, hm, rfl⟩ | rfl
    · exact (ht.inner q h1).1
    · exact (ht.frame v hm).user.1
    · exact ht.root.1
  refine ⟨(ownSpots s' r).map Prod.snd, giveBack s' (ownSpots s' r), ?_, hg.nodup, hmem,
    fun q hq => (ht.inner q hq).2,
    ?_, fun l' hl' => ?_, fun hc => ?_, fun hv => ?_, fun q hq hn i hi => ?_, ?_⟩
  · rw [hrun', hb.gives, List.map_map]
    rfl
  · rintro q (⟨v, hm, rfl⟩ | rfl)
    · exact (ht.frame v hm).user.2
    · exact ht.root.2
  · have hafter := hg.after hb.heap.pools
    simp only [hin] at hafter
    rw [pools_unique hl hl']
    exact hafter
  · have hlow := (hman _ hc).1
    have htext := h.text.of_rest hrest
    have h1 := htext.below
    have h2 := htext.end_le
    omega
  · obtain ⟨h1, h2⟩ := ht.trapframe hv
    refine ⟨h1 ▸ h2.pa, fun hc => ?_⟩
    rcases (hmem t).mp hc with ⟨x, hx, -, h3⟩ | ⟨v, hm, h3⟩ | rfl
    · exact h2.apart ⟨x, hx, h3⟩
    · have h4 := (ht.frame v hm).user.2
      rw [h3, h2.kernel.2] at h4
      cases h4
    · exact h2.apart ⟨[], IsPos.nil, rfl⟩
  · have hnot : ¬ IsTable s.mem r q := by
      rintro ⟨x, hx, hq'⟩
      by_cases hnil : x = []
      · subst hnil
        exact hn ((hmem q).mpr (.inr (.inr (Option.some.inj hq').symm)))
      · exact hn ((hmem q).mpr (.inl ⟨x, hx, hnil, hq'⟩))
    rw [giveBack_mem (fun z hz => (hg.page z hz).1) hq
      (fun z hz he => hn (he ▸ List.mem_map_of_mem hz)) i hi]
    exact hb.kept q hq hnot i hi
  · exact (giveBack_rest _ _).trans hb.rest

end

/-- One user page, mapped below the trap frame. -/
theorem destroy_gives_own_pages_mapped : ∃ (r : Nat) (s s₁ s' : Kernel) (L : List Nat),
    (procPgtblInit 0x80032000 (oneUserPage ⟨0x80030000, 0x80430000, 2, 0x80030000⟩)).1 =
    .ok (r, s) ∧
      (vmMappages r (trapframeVa - pgSize) 0x80431000 pgSize (pteR ||| pteW ||| pteU) s).1 =
      .ok ((), s₁) ∧
      uvmDestroyPgtbl r s₁ = (.ok ((), s'), L.map .pageFreed) ∧ L.Nodup ∧
      r ∈ L ∧ 0x80431000 ∈ L := by
  have hpool := emptyTable_pools.pool true
  have hpools := oneUserPage_pools 0x80030000 [0x80030000, 0x80031000] hpool.chain hpool.page
  have hstart : TableStart (oneUserPage ⟨0x80030000, 0x80430000, 2, 0x80030000⟩) 0x80032000 := by
    refine ⟨⟨_, hpools⟩,
      ⟨by decide, by decide, by decide, by decide⟩, by decide, ⟨⟨by decide, by decide⟩, by decide⟩, ?_⟩
    rintro hf
    obtain ⟨k, hk⟩ := (isFree_iff hpools).mp hf
    cases k
    · exact absurd hk (by decide)
    · exact absurd hk (by decide)
  obtain ⟨r, s, hr, hshort, hmade⟩ :=
    (procPgtblInit_userTable (E := fun _ => False) hstart hpools).returns
  have hne : r ≠ 0 := fun hc => hshort hc ⟨by decide, by decide⟩
  obtain ⟨htable, hrest, hunmapped⟩ := hmade hne
  -- the new table leaves no free page
  have hroot :
    (procPgtblInit 0x80032000 (oneUserPage ⟨0x80030000, 0x80430000, 2, 0x80030000⟩)).1.toOption.map
      (fun p => (p.1, p.2.user.head, p.2.kern.head)) = some (0x80430000, 0, 0) := by decide +kernel
  have hmapped :
    (procPgtblInit 0x80032000 (oneUserPage ⟨0x80030000, 0x80430000, 2, 0x80030000⟩)).1.toOption.bind
      (fun p => (vmMappages p.1 (trapframeVa - pgSize) 0x80431000 pgSize
        (pteR ||| pteW ||| pteU) p.2).1.toOption.map fun p' =>
        (hasFlag (leaf p'.2.mem p.1 (trapframeVpn - 1)) pteV,
          pteToPa (leaf p'.2.mem p.1 (trapframeVpn - 1)))) =
      some (true, 0x80431000) := by decide +kernel
  rw [hr] at hroot hmapped
  obtain ⟨rfl, hheads⟩ := Prod.mk.inj (Option.some.inj hroot)
  obtain ⟨huser, hkern⟩ := Prod.mk.inj hheads
  have htaken : ¬ IsFree s 0x80431000 := by
    rintro ⟨k, l, hc, hmem⟩
    have hz : ptr (s.region k).head = none := by
      cases k
      · exact (congrArg ptr huser :)
      · exact (congrArg ptr hkern :)
    rw [hz] at hc
    cases l with
    | nil => cases hmem
    | cons a l => exact absurd hc.1 nofun
  have hfresh : FreshFrame s 0x80430000 0x80431000 := by
    refine htable.fresh ?_ htaken (by decide) ?_ (by decide) fun v hv => absurd hv (hunmapped v)
    · unfold Managed inKernelOf
      rw [rest_allocBegin hrest]
      exact ⟨⟨by decide, by decide⟩, by decide⟩
    · rw [trampolinePte, rest_trampoline hrest]
      decide
  have hallowed :
      (TableOp.map (trapframeVa - pgSize) 0x80431000 pgSize (pteR ||| pteW ||| pteU)).Allowed s
      0x80430000 := by
    refine ⟨by decide, by decide, by decide, by decide, fun v h1 h2 => ?_⟩
    obtain rfl : v = trapframeVpn - 1 := Nat.le_antisymm h2 h1
    refine ⟨translate_eq_none.mpr ?_, by decide, hfresh⟩
    exact Bool.eq_false_iff.mpr fun hval => hunmapped _ ⟨⟨by decide, by decide, by decide⟩, hval⟩
  dsimp only [Except.toOption, Option.bind_some] at hmapped
  cases hm : (vmMappages 0x80430000 (trapframeVa - pgSize) 0x80431000 pgSize
    (pteR ||| pteW ||| pteU) s).1 with
  | error e =>
      rw [hm] at hmapped
      cases hmapped
  | ok p =>
      obtain ⟨⟨⟩, s₁⟩ := p
      rw [hm] at hmapped
      obtain ⟨hvalid, hpa⟩ := Prod.mk.inj (Option.some.inj hmapped)
      have hrun : TableRun _ 0x80430000 0x80032000 s₁ := .call (.init hr hne) hallowed hm
      obtain ⟨L, s', hd, hnd, hmem, -⟩ := destroy_gives_own_pages hstart hrun
      exact ⟨_, s, s₁, s', L, hr, hm, hd, hnd, (hmem _).mpr (.inr (.inr rfl)),
        (hmem _).mpr (.inr (.inl ⟨_, ⟨⟨by decide, by decide, by decide⟩, hvalid⟩, hpa⟩))⟩

end WhuOs.Mem
