import WhuOs.Mem.Lists

/-! # Calls of a process on its own memory

What `sys_brk`, `sys_mmap`, `sys_munmap` and copies to the process do to its address
space, and that they leave the memory of all others alone.
-/

namespace WhuOs.Mem

open Prog Bytes

/-- The frames of a range of pages; the trap frame when the range has it. -/
def RangeUse (r : Nat) (p : ProcId) (v n : Nat) (u : Use) : Prop :=
  (∃ w, v ≤ w ∧ w < v + n ∧ u = .frame r w) ∨ v ≤ trapframeVpn ∧
    trapframeVpn < v + n ∧ u = .trapframe p

/-- Pages whose use is not in `W` kept their use and their contents. -/
def Spared (W : Use → Prop) (g : Ledger) (s : Kernel) (g' : Ledger) (s' : Kernel) : Prop :=
  ∀ q, q % pgSize = 0 → ¬ W (g.own q) →
    g'.own q = g.own q ∧ ∀ i < pgSize, s'.mem (q + i) = s.mem (q + i)

/-- The uses that work on the space of root `r` for process `p` touches. -/
def BuildUse (r : Nat) (p : ProcId) (u : Use) : Prop := UserUse r u ∨ u = .trapframe p

section

variable {A : ProcId → Prop} {g g' g'' : Ledger} {s s' s'' : Kernel} {p q : ProcId}
  {r t v n perm a b : Nat}
  {R : Nat → Prop} {W W' : Use → Prop} {G : Event → Prop} {E : Panic → Prop}

/-! ## Pages that are left alone -/

theorem Spared.refl (W : Use → Prop) (g : Ledger) (s : Kernel) : Spared W g s g s :=
  fun _ _ _ => ⟨rfl, fun _ _ => rfl⟩

theorem Spared.trans (h : Spared W g s g' s') (h' : Spared W g' s' g'' s'') :
    Spared W g s g'' s'' := by
  intro q hq hw
  obtain ⟨h1, h2⟩ := h q hq hw
  obtain ⟨h3, h4⟩ := h' q hq (h1.symm ▸ hw)
  exact ⟨h3.trans h1, fun i hi => (h4 i hi).trans (h2 i hi)⟩

theorem Spared.mono (h : Spared W g s g' s') (hW : ∀ u, W u → W' u) : Spared W' g s g' s' :=
  fun q hq hw => h q hq fun hc => hw (hW _ hc)

theorem Framed.spared (h : Framed W g s g' s') : Spared W g s g' s' :=
  fun q hq hw => ⟨h.own_eq hw, h.mem q hq hw⟩

/-- The memory before does not matter beyond its contents. -/
theorem Spared.of_mem {s₀ : Kernel} (h : Spared W g s g' s') (hm : s.mem = s₀.mem) :
    Spared W g s₀ g' s' := by
  intro q hq hw
  obtain ⟨h1, h2⟩ := h q hq hw
  exact ⟨h1, fun i hi => (h2 i hi).trans (congrFun hm _)⟩

/-- Writes into one data page. -/
theorem spared_write {q : Nat} {m : Bytes} (hq : q % pgSize = 0) (hw : W (g.own q))
    (hm : Inside q s.mem m) : Spared W g s g (s.setMem m) := by
  intro q' hq' hnw
  refine ⟨rfl, fun i hi => ?_⟩
  have hne : q' ≠ q := by
    rintro rfl
    exact hnw hw
  rw [setMem_mem]
  by_contra hc
  have hin := hm (q' + i) hc
  have hap := pages_apart hq' hq hne
  omega

theorem BuildUse.not_trapframe {p' : ProcId} (h : BuildUse r p (.trapframe p')) : p' = p := by
  rcases h with h | h
  · cases h
  · exact Use.trapframe.inj h

theorem trapframePte_pa (ht : t % pgSize = 0) (hlt : t < physTop) : pteToPa (trapframePte t) = t :=
  mapPte_pa ht (Nat.lt_trans hlt (by decide)) (by decide)

theorem Heap.page_of_own {u : Use} {q : Nat} (h : Heap g s) (hq : g.own q = u) (hu : u ≠ .other) :
    q % pgSize = 0 ∧ 0 < q := h.page q (hq ▸ hu)

/-- Pages with a home are below the end of memory. -/
theorem Homed.lt {u : Use} {q : Nat} {k : Bool} (h : Homed g s) (hq : g.own q = u)
    (hu : u.home = some k) :
    s.allocBegin ≤ q ∧ q < physTop := (h.home q k (hq ▸ hu)).1

/-! ## Work of one process -/

theorem World.tenant (h : World A g s) (ha : A p) (hf : Framed W g s g' s')
    (hw : OnRoot W (s.procs p).pgtbl) (hsp : Space g' s' (s.procs p).pgtbl (s.procs p).tf)
    (htf : leaf s'.mem (s.procs p).pgtbl trapframeVpn = trapframePte (s.procs p).tf ∨
      (s.procs p).state = .zombie → g'.own (s.procs p).tf = .trapframe p)
    (hother : ∀ q, q ≠ p → ¬ W (.trapframe q)) : World A g' s' := by
  have hprocs := rest_procs hf.rest
  have hu := (h.proc p ha).user
  have hw' : World (fun q => A q ∧ q ≠ p) g' s' := by
    refine (h.others p).frame hf hsp.heap hsp.homed hw (fun q x _ => ⟨hsp.live, hsp.tops⟩) hu
      fun q hq => ?_
    exact ⟨fun he => hq.2 (h.distinct q p hq.1 ha he), hother q hq.2⟩
  have htenant : Tenant g' s' p := by
    refine ⟨?_, ?_, ?_⟩
    · rw [hprocs]
      exact hsp
    · rw [hprocs, rest_kernelPgtbl hf.rest]
      exact hu
    · rw [hprocs]
      exact htf
  refine (hw'.insert htenant fun q hq hqp he => ?_).anti fun q hq => ?_
  · rw [hprocs] at he
    exact hqp (h.distinct q p hq.1 ha he)
  · by_cases hqp : q = p
    · exact .inr hqp
    · exact .inl ⟨hq, hqp⟩

/-- New pages for a process. -/
theorem World.added (h : World A g s) (ha : A p) (hr : (s.procs p).pgtbl = r)
    (ht : (s.procs p).tf = t)
    (hadd : Added r t perm R a b g s g' s') (hperm : perm < 2 ^ 10)
    (hu : perm ||| pteV ≠ pteR ||| pteW ||| pteV) : World A g' s' := by
  subst hr ht
  have ht := h.proc p ha
  have hkept : g.own (s.procs p).tf = .trapframe p → g'.own (s.procs p).tf = .trapframe p := by
    intro hown
    have hp := h.heap.page_of_own hown Use.noConfusion
    exact (hadd.kept _ hp.1 (by rw [hown]; trivial)).1.trans hown
  refine h.tenant ha hadd.framed (UserUse.onRoot _) hadd.space (fun hc => ?_)
    fun q _ => UserUse.not_trapframe
  rcases hc with hc | hc
  · by_cases hR : R trapframeVpn
    · obtain ⟨q, hleaf, -⟩ := hadd.new _ (by decide) hR
      rw [hleaf] at hc
      have hflags := congrArg pteFlags hc
      rw [trapframePte_flags, mapPte, Nat.or_assoc,
        pteFlags_pte (Nat.or_lt_two_pow hperm (by decide))] at hflags
      exact absurd hflags hu
    · rw [hadd.old _ (by decide) hR] at hc
      exact hkept (ht.trapframe (.inl hc))
  · exact hkept (ht.trapframe (.inr hc))

/-! ## Copies -/

theorem World.copiedOut {dst len : Nat} {k : KernelSrc} {m : Bytes} (h : World A g s) (ha : A p)
    (hall : ∀ i < len, Storable s (s.procs p).pgtbl ((dst + i) / pgSize))
    (hm : CopiedOut s (s.procs p).pgtbl dst k len m) :
    World A g (s.setMem m) ∧ Spared (BuildUse (s.procs p).pgtbl p) g s g (s.setMem m) := by
  -- the bytes that are written belong to the process
  have hframe :
      ∀ q, q % pgSize = 0 →
      (∀ v, Storable s (s.procs p).pgtbl v → q ≠ pteToPa (leaf s.mem (s.procs p).pgtbl v)) →
        ∀ i < pgSize, m (q + i) = s.mem (q + i) := by
    intro q hq hne i hi
    refine hm.frame _ fun j hj he => ?_
    have hap := pages_apart hq (pteToPa_aligned _) (hne _ (hall j hj))
    have hlt : (dst + j) % pgSize < pgSize := Nat.mod_lt _ (by decide)
    unfold userAddr at he
    omega
  refine ⟨h.write fun q hq hnd => hframe q hq fun v hv hc => hnd ?_, fun q hq hw =>
    ⟨rfl, hframe q hq fun v hv hc => hw ?_⟩⟩
  · rw [hc]
    exact h.storable_data ha hv
  · rw [hc]
    rcases h.storable ha hv with h1 | ⟨-, h1⟩
    · rw [h1]
      exact .inl (.frame v)
    · exact .inr h1

theorem uvmCopyout_world {dst len : Nat} {k : KernelSrc} (h : World A g s) (ha : A p) :
    Sat (uvmCopyout (s.procs p).pgtbl dst k len) s G
      (fun _ s' =>
        ∃ m, s' = s.setMem m ∧ World A g s' ∧ Spared (BuildUse (s.procs p).pgtbl p) g s g s')
          fun _ => True := by
  have ht := h.proc p ha
  refine copyoutLoop_sat len ht.space.heap ht.space.live h.text.etext (Nat.le_refl len)
    (fun v hv => h.storable_data ha hv) (fun _ _ => trivial) fun hall m hm => ?_
  obtain ⟨hw, hsp⟩ := h.copiedOut ha hall hm
  exact ⟨m, rfl, hw, hsp⟩

/-! ## Unmapping -/

theorem RangeUse.isData {u : Use} (h : RangeUse r p v n u) : u.IsData := by
  rcases h with ⟨w, -, -, rfl⟩ | ⟨-, -, rfl⟩ <;> trivial

/-- The frames of a range are given back once. -/
theorem Space.releases (h : Space g s r t) (htext : Text s)
    (htf : Mem.leaf s.mem r trapframeVpn = trapframePte t → g.own t = .trapframe p) :
    Releases g s r v n (RangeUse r p v n) := by
  have hcases : ∀ w, Unmappable s r true w → g.own (pteToPa (Mem.leaf s.mem r w)) = .frame r w ∨
      w = trapframeVpn ∧ g.own (pteToPa (Mem.leaf s.mem r w)) = .trapframe p := by
    intro w hu
    rcases h.leaf w hu.below hu.valid with h1 | ⟨h1, h2⟩ | ⟨h1, h2⟩
    · exact .inl h1
    · have hm := hu.managed rfl
      rw [h2, trampolinePte_pa htext h.heap.pools.layout] at hm
      have h3 := htext.below
      have h4 := htext.end_le
      have h5 := hm.1
      omega
    · have hown := htf (h1 ▸ h2)
      have hp := h.heap.page_of_own hown Use.noConfusion
      rw [h2, trapframePte_pa hp.1 (h.homed.lt hown rfl).2]
      exact .inr ⟨h1, hown⟩
  have huse : ∀ w, v ≤ w → w < v + n → Unmappable s r true w →
      RangeUse r p v n (g.own (pteToPa (Mem.leaf s.mem r w))) := by
    intro w h1 h2 hu
    rcases hcases w hu with h3 | ⟨rfl, h3⟩
    · exact .inl ⟨w, h1, h2, h3⟩
    · exact .inr ⟨h1, h2, h3⟩
  refine ⟨fun w h1 h2 hu =>
    ⟨(huse w h1 h2 hu).isData, huse w h1 h2 hu⟩, fun w w' _ _ _ _ hu hu' he => ?_⟩
  rcases hcases w hu with h3 | ⟨h3, h4⟩
  · rcases hcases w' hu' with h5 | ⟨h5, h6⟩
    · rw [← he, h3] at h5
      exact (Use.frame.inj h5).2
    · rw [← he, h3] at h6
      cases h6
  · rcases hcases w' hu' with h5 | ⟨h5, h6⟩
    · rw [← he, h4] at h5
      cases h5
    · rw [h3, h5]

theorem UnmapUse.build {u : Use} (h : UnmapUse r (RangeUse r p v n) u) : BuildUse r p u := by
  cases h with
  | free k => exact .inl (.free k)
  | table x => exact .inl (.table x)
  | frame hd =>
      rcases hd with ⟨w, -, -, rfl⟩ | ⟨-, -, rfl⟩
      · exact .inl (.frame w)
      · exact .inr rfl

theorem Added.spared (h : Added r t perm R a b g s g' s') (p : ProcId) :
    Spared (BuildUse r p) g s g' s' :=
  h.framed.spared.mono fun _ hu => .inl hu

theorem Space.unmapped (h : Space g s r t)
    (hu : Unmapped r v n (RangeUse r p v n) g s g' s') : Space g' s' r t := by
  have hrest := hu.framed.rest
  refine ⟨hu.heap, hu.homed h.homed, hu.live, h.pool_of_rest hrest,
    hu.tops h.tops, fun w hw hval => ?_⟩
  rw [hu.leaf w hw] at hval ⊢
  by_cases hin : v ≤ w ∧ w < v + n
  · rw [if_pos hin, hasFlag_zero] at hval
    cases hval
  · rw [if_neg hin] at hval ⊢
    unfold trampolinePte
    rw [rest_trampoline hrest]
    rcases h.leaf w hw hval with h1 | h1
    · refine .inl ((hu.framed.own_eq ?_).trans h1)
      rw [h1]
      intro hc
      cases hc with
      | frame hd =>
          rcases hd with ⟨w', h2, h3, h4⟩ | ⟨-, -, h4⟩
          · obtain ⟨-, rfl⟩ := Use.frame.inj h4
            exact hin ⟨h2, h3⟩
          · cases h4
    · exact .inr h1

theorem UnmapUse.onRoot : OnRoot (UnmapUse r (RangeUse r p v n)) r := by
  refine ⟨fun r' x hx => ?_, fun r' w hw => ?_, fun q hq => ?_⟩
  · cases hx with
    | table => rfl
    | frame hd => rcases hd with ⟨w, -, -, h⟩ | ⟨-, -, h⟩ <;> cases h
  · cases hw with
    | frame hd =>
        rcases hd with ⟨w, -, -, h⟩ | ⟨-, -, h⟩
        · exact (Use.frame.inj h).1
        · cases h
  · cases hq with
    | frame hd => rcases hd with ⟨w, -, -, h⟩ | ⟨-, -, h⟩ <;> cases h

theorem World.unmapped (h : World A g s) (ha : A p) (hz : (s.procs p).state ≠ .zombie)
    (hu : Unmapped (s.procs p).pgtbl v n (RangeUse (s.procs p).pgtbl p v n) g s g' s') :
    World A g' s' := by
  have ht := h.proc p ha
  refine h.tenant ha hu.framed UnmapUse.onRoot (ht.space.unmapped hu) (fun hc => ?_) fun q hq hw =>
    ?_
  · rcases hc with hc | hc
    · rw [hu.leaf _ (by decide)] at hc
      by_cases hin : v ≤ trapframeVpn ∧ trapframeVpn < v + n
      · rw [if_pos hin] at hc
        have hv := congrArg (fun e => hasFlag e pteV) hc
        rw [hasFlag_zero, trapframePte, mapPte_valid (by decide)] at hv
        cases hv
      · rw [if_neg hin] at hc
        have hown := ht.trapframe (.inl hc)
        refine (hu.framed.own_eq ?_).trans hown
        rw [hown]
        intro hw
        cases hw with
        | frame hd =>
            rcases hd with ⟨w, -, -, h4⟩ | ⟨h2, h3, -⟩
            · cases h4
            · exact hin ⟨h2, h3⟩
    · exact absurd hc hz
  · cases hw with
    | frame hd =>
        rcases hd with ⟨w, -, -, h4⟩ | ⟨-, -, h4⟩
        · cases h4
        · exact hq (Use.trapframe.inj h4)

def Visited (start len v : Nat) : Prop := start ≤ v * pgSize ∧ v * pgSize < u64 (start + len)

/-- `vm_unmappages` on the table of a process. -/
theorem World.unmap_sat {start len : Nat} {Q : Unit → Kernel → Prop} (h : World A g s) (ha : A p)
    (hz : (s.procs p).state ≠ .zombie) (hst : start % pgSize = 0)
    (hlt : start < 2 ^ 64) (hlen : len < 2 ^ 64)
    (hE : (∃ v, Visited start len v ∧ ¬ Unmappable s (s.procs p).pgtbl true v) → ∀ e, E e)
    (hG : ∀ v < vaPages, Visited start len v →
      G (.pageFreed (pteToPa (leaf s.mem (s.procs p).pgtbl v))))
    (hQ : (∀ v, Visited start len v → Unmappable s (s.procs p).pgtbl true v) →
      ∀ g' s', World A g' s' →
      Spared (BuildUse (s.procs p).pgtbl p) g s g' s' → s'.rest = s.rest →
      (∀ v < vaPages, Visited start len v → leaf s'.mem (s.procs p).pgtbl v = 0) →
      (∀ v < vaPages, ¬ Visited start len v →
        leaf s'.mem (s.procs p).pgtbl v = leaf s.mem (s.procs p).pgtbl v) → Q () s') :
    Sat (vmUnmappages (s.procs p).pgtbl start len true) s G Q E := by
  have ht := h.proc p ha
  have hmul : start / pgSize * pgSize = start := Nat.div_mul_cancel (Nat.dvd_of_mod_eq_zero hst)
  by_cases hwrap : start + len < 2 ^ 64
  · have hin : ∀ v, Visited start len v ↔
        start / pgSize ≤ v ∧ v < start / pgSize + (len + (pgSize - 1)) / pgSize := by
      intro v
      unfold Visited
      rw [u64_of_lt hwrap]
      unfold pgSize at *
      omega
    rw [← hmul]
    refine vmUnmappages_sat ht.space.heap ht.space.live (by rw [hmul]; exact hwrap) rfl ?_ ?_
      (fun _ => ht.space.releases h.text fun hc => ht.trapframe (.inl hc)) fun hall g' s' hu => ?_
    · rintro ⟨v, h1, h2, hbad⟩
      exact hE ⟨v, (hin v).mpr ⟨h1, h2⟩, hbad⟩
    · exact fun v h1 h2 hv _ => hG v hv ((hin v).mpr ⟨h1, h2⟩)
    · refine hQ (fun v hv => hall v ((hin v).mp hv).1 ((hin v).mp hv).2) g' s' (h.unmapped ha hz hu)
        (hu.framed.spared.mono fun _ hw => hw.build) hu.framed.rest (fun v hv hvis =>
          ?_) fun v hv hvis => ?_
      · rw [hu.leaf v hv, if_pos ((hin v).mp hvis)]
      · rw [hu.leaf v hv, if_neg fun hc => hvis ((hin v).mpr hc)]
  · have hle : u64 (start + len) ≤ start := by
      unfold u64
      omega
    have hno : ∀ v, ¬ Visited start len v := by
      rintro v ⟨h1, h2⟩
      omega
    rw [← hmul]
    refine vmUnmappages_wrapped (by rw [hmul]; exact hle) ?_
    exact hQ (fun v hv => absurd hv (hno v)) g s h (.refl _ _ _) rfl
      (fun v _ hv => absurd hv (hno v)) fun _ _ _ => rfl

/-! ## The heap -/

def Between (low high v : Nat) : Prop := pgRoundUp low ≤ v * pgSize ∧ v * pgSize < pgRoundUp high

def growth (low high : Nat) : Nat := (pgRoundUp high - pgRoundUp low) / pgSize

theorem pgRoundUp_aligned (x : Nat) : pgRoundUp x % pgSize = 0 := Nat.mul_mod_left _ _

theorem pgRoundUp_lt (x : Nat) : pgRoundUp x < 2 ^ 64 := by
  unfold pgRoundUp u64
  have h := Nat.div_mul_le_self ((x + (pgSize - 1)) % 2 ^ 64) pgSize
  omega

theorem growth_le {len : Nat} (top : Nat) (hlen : len < 2 ^ 32) :
    growth top (u64 (top + len)) ≤ 2 ^ 20 := by
  unfold growth pgRoundUp u64 pgSize
  omega

theorem uvmHeapGrow_sat {top len : Nat} {Q : Nat → Kernel → Prop}
    (h : Space g s r t) (hlen : len < 2 ^ 32)
    (hE : ¬ (u64 (top + len) < trapframeVa ∧ growth top (u64 (top + len)) ≤ (g.free false).length ∧
      2 * growth top (u64 (top + len)) ≤ (g.free true).length) → ∀ e, E e)
    (hQ : ∀ g' s' a b,
      Added r t (pteR ||| pteW ||| pteU) (Between top (u64 (top + len))) a b g s g' s' →
      Q (u64 (top + len)) s') :
    Sat (uvmHeapGrow r top len) s G Q E := by
  have hn := growth_le top hlen
  unfold uvmHeapGrow
  rw [sat_bind]
  by_cases htop : u64 (top + len) < trapframeVa
  swap
  · exact sat_assert_any (hE (fun hc => htop hc.1) _) fun hc => absurd (of_decide_eq_true hc) htop
  rw [sat_assert (decide_eq_true htop)]
  by_cases hgrow : pgRoundUp (u64 (top + len)) > pgRoundUp top
  · have hu : u32 ((pgRoundUp (u64 (top + len)) - pgRoundUp top) / pgSize) =
      growth top (u64 (top + len)) := by
      change u32 (growth _ _) = _
      unfold u32
      omega
    have hend : pgRoundUp top / pgSize + growth top (u64 (top + len)) =
      pgRoundUp (u64 (top + len)) / pgSize := by
      have h1 := pgRoundUp_aligned top
      unfold growth
      unfold pgSize at *
      omega
    have hmax : pgRoundUp (u64 (top + len)) / pgSize ≤ vaPages := by
      unfold pgRoundUp vaPages vaMax
      unfold trapframeVa trampolineVa vaMax at htop
      unfold u64 pgSize at *
      omega
    rw [if_pos hgrow, sat_bind, hu]
    refine growLoop_sat h (pgRoundUp_aligned top)
      (by rw [Nat.zero_mul, Nat.add_zero]; exact pgRoundUp_lt top)
      (by rw [Nat.zero_add]; exact hn) (fun hbad => hE fun hc => hbad ⟨hc.2.1, hc.2.2, ?_⟩)
      fun g' s' hadd => ?_
    · rw [Nat.add_zero, hend]
      exact hmax
    · rw [sat_pure]
      refine hQ g' s' _ _ (hadd.congr fun v _ => ?_)
      have h1 := pgRoundUp_aligned top
      have h2 := pgRoundUp_aligned (u64 (top + len))
      rw [Nat.add_zero, hend]
      unfold Between
      unfold pgSize at *
      omega
  · rw [if_neg hgrow, sat_pure]
    refine hQ g s 0 0 ((Added.refl h).congr fun v _ => ?_)
    unfold Between
    exact ⟨fun hc => by omega, False.elim⟩

/-- `sys_brk` to a higher top. -/
theorem sysBrk_grow {top : Nat} {Q : Nat → Kernel → Prop} (h : World A g s) (ha : A p)
    (hup : (s.procs p).heapTop < top)
    (hE : ¬ (u64 ((s.procs p).heapTop + u32 (top - (s.procs p).heapTop)) < trapframeVa ∧
      growth (s.procs p).heapTop (u64 ((s.procs p).heapTop + u32 (top - (s.procs p).heapTop))) ≤
        (g.free false).length ∧
      2 * growth (s.procs p).heapTop (u64 ((s.procs p).heapTop + u32 (top - (s.procs p).heapTop))) ≤
        (g.free true).length) → ∀ e, E e)
    (hfail : ∀ g' s', World A g' s' → Spared (BuildUse (s.procs p).pgtbl p) g s g' s' →
      s'.rest = s.rest → Q negOne s')
    (hQ : ∀ res g' s' a b, res = u64 ((s.procs p).heapTop + u32 (top - (s.procs p).heapTop)) →
      World A g' s' → Added (s.procs p).pgtbl (s.procs p).tf (pteR ||| pteW ||| pteU)
        (Between (s.procs p).heapTop res) a b g s g' s' →
      Q res (s'.setProc p { s.procs p with heapTop := res })) :
    Sat (sysBrk p top) s G Q E := by
  have ht := h.proc p ha
  unfold sysBrk
  rw [sat_bind, sat_procOf, if_neg (by omega), if_pos hup, sat_bind]
  refine uvmHeapGrow_sat ht.space (Nat.mod_lt _ (by decide)) hE fun g' s' a b hadd => ?_
  have hw := h.added ha rfl rfl hadd (by decide) (by decide)
  have hprocs := rest_procs hadd.framed.rest
  split
  · rw [sat_pure]
    exact hfail g' s' hw (hadd.spared p) hadd.framed.rest
  · rw [sat_bind, sat_modifyProc, sat_pure, hprocs]
    exact hQ _ g' s' a b rfl hw hadd

/-- A process record that keeps what the invariant is about. -/
theorem World.setProc {x : Proc} (h : World A g s) (hk : x.kstack = (s.procs p).kstack)
    (hx : A p → x.pgtbl = (s.procs p).pgtbl ∧ x.tf = (s.procs p).tf ∧
      (x.state = .zombie → (s.procs p).state = .zombie ∨ g.own (s.procs p).tf = .trapframe p)) :
    World A g (s.setProc p x) := by
  refine h.same ⟨rfl, fun _ => rfl, fun _ => rfl, rfl, rfl, rfl, rfl⟩ (fun q => ?_) fun q hq => ?_
  · rw [setProc_procs]
    by_cases hqp : q = p
    · subst hqp
      rw [Function.update_self]
      exact hk
    · rw [Function.update_of_ne hqp]
  · rw [setProc_procs]
    by_cases hqp : q = p
    · subst hqp
      rw [Function.update_self]
      exact hx hq
    · rw [Function.update_of_ne hqp]
      exact ⟨rfl, rfl, .inl⟩

theorem uvmHeapUngrow_world {top len : Nat} (h : World A g s) (ha : A p)
    (hz : (s.procs p).state ≠ .zombie) :
    Sat (uvmHeapUngrow (s.procs p).pgtbl top len) s (fun _ => True)
      (fun _ s' =>
        ∃ g', World A g' s' ∧ Spared (BuildUse (s.procs p).pgtbl p) g s g' s' ∧ s'.rest = s.rest)
      fun _ => True := by
  unfold uvmHeapUngrow
  rw [sat_bind]
  refine sat_assert_any trivial fun _ => ?_
  dsimp only
  split
  · rw [sat_bind]
    refine h.unmap_sat ha hz (pgRoundUp_aligned _) (pgRoundUp_lt _) ?_ (fun _ _ => trivial)
      (fun _ _ _ => trivial) fun _ g' s' hw hsp hr _ _ => ?_
    · exact Nat.lt_of_le_of_lt (Nat.sub_le _ _) (pgRoundUp_lt _)
    · rw [sat_pure]
      exact ⟨g', hw, hsp, hr⟩
  · rw [sat_pure]
    exact ⟨g, h, .refl _ _ _, rfl⟩

theorem sysBrk_world {top : Nat} (h : World A g s) (ha : A p) (hz : (s.procs p).state ≠ .zombie) :
    Sat (sysBrk p top) s (fun _ => True)
      (fun _ s' => ∃ g' h', World A g' s' ∧ Spared (BuildUse (s.procs p).pgtbl p) g s g' s' ∧
        s'.rest = s.rest.setProc p { s.procs p with heapTop := h' }) fun _ => True := by
  have hsame : s.rest = s.rest.setProc p { s.procs p with heapTop := (s.procs p).heapTop } := by
    unfold Kernel.setProc
    rw [show Function.update s.rest.procs p { s.procs p with heapTop := (s.procs p).heapTop } =
      s.rest.procs
      from Function.update_eq_self p s.procs]
  by_cases hup : (s.procs p).heapTop < top
  · refine sysBrk_grow h ha hup (fun _ _ => trivial) (fun g' s' hw hsp hr => ?_)
      fun res g' s' a b _ hw hadd => ?_
    · exact ⟨g', _, hw, hsp, hr.trans hsame⟩
    · have hprocs := rest_procs hadd.framed.rest
      refine ⟨g', res, hw.setProc (by rw [hprocs]) fun _ => ?_, hadd.spared p, ?_⟩
      · rw [hprocs]
        exact ⟨rfl, rfl, .inl⟩
      · change s'.rest.setProc p _ = _
        rw [hadd.framed.rest]
  · unfold sysBrk
    rw [sat_bind, sat_procOf]
    split
    · rw [sat_pure]
      exact ⟨g, _, h, .refl _ _ _, hsame⟩
    rw [if_neg hup]
    split
    · rw [sat_bind]
      refine (uvmHeapUngrow_world h ha hz).imp ?_
      rintro res s' ⟨g', hw, hsp, hr⟩
      rw [sat_bind, sat_modifyProc, sat_pure]
      refine ⟨g', res, hw.setProc rfl fun _ => ⟨rfl, rfl, .inl⟩, hsp, ?_⟩
      change s'.rest.setProc p _ = _
      rw [hr, rest_procs hr]
    · rw [sat_pure]
      exact ⟨g, _, h, .refl _ _ _, hsame⟩

/-! ## Regions -/

theorem World.listless (h : World A g s) (hs : s'.listless = s.listless) : World A g s' := by
  refine h.same (listless_same hs) (fun q => ?_) fun q _ => ?_
  · rw [listless_procs hs q]
  · rw [listless_procs hs q]
    exact ⟨rfl, rfl, .inl⟩

/-- Node `i` comes out of the warehouse and in front of the list of a process. -/
def Kernel.linked (s : Kernel) (p : ProcId) (i : NodeId) (start n : Nat) : Kernel :=
  let s₁ := s.setNode 0 { s.nodes 0 with link := (s.nodes i).link }
  let s₂ := s₁.setNode i { s₁.nodes i with begin := start, npages := n }
  let s₃ := s₂.setNode i { s₂.nodes i with next := (s.procs p).mmap }
  s₃.setProc p { s.procs p with mmap := some i }

theorem linked_listless (s : Kernel) (p : ProcId) (i : NodeId) (start n : Nat) :
    (s.linked p i start n).listless = s.listless :=
  (listless_setMmap _ p (some i)).trans rfl

theorem linked_procs (s : Kernel) (p : ProcId) (i : NodeId) (start n : Nat) :
    (s.linked p i start n).procs p = { s.procs p with mmap := some i } :=
  Function.update_self p _ _

theorem uvmMmap_sat {start : Nat} {Q : Unit → Kernel → Prop} (h : World A g s) (ha : A p)
    (hl : s.locks .mmapList = false) (hstart : start < 2 ^ 64) (hn : n < 2 ^ 20)
    (hperm : perm ||| pteU < 2 ^ 10)
    (hE : ¬ (start % pgSize = 0 ∧ (s.nodes 0).link ≠ none ∧ n ≤ (g.free false).length ∧
      2 * n ≤ (g.free true).length ∧ start / pgSize + n ≤ vaPages) → ∀ e, E e)
    (hzero : n = 0 → Q () s)
    (hQ : start % pgSize = 0 → 0 < n → start / pgSize + n ≤ vaPages →
      ∀ i, (s.nodes 0).link = some i →
      ∀ g' s', Added (s.procs p).pgtbl (s.procs p).tf (perm ||| pteU)
        (fun v => start / pgSize ≤ v ∧ v < start / pgSize + n) n (2 * n) g
        (s.linked p i start n) g' s' → Q () s') :
    Sat (uvmMmap p start n perm) s G Q E := by
  unfold uvmMmap
  by_cases hz : n = 0
  · rw [if_pos hz, sat_pure]
    exact hzero hz
  rw [if_neg hz, sat_bind]
  by_cases hal : start % pgSize = 0
  swap
  · exact sat_assert_any (hE (fun hc => hal hc.1) _) fun hc => absurd (of_decide_eq_true hc) hal
  rw [sat_assert (decide_eq_true hal), sat_bind]
  refine mmapRegionAlloc_sat hl (fun hnone => hE fun hc => hc.2.1 hnone) fun i hi => ?_
  rw [sat_bind, sat_modifyNode, sat_bind, sat_procOf, sat_bind, sat_modifyNode,
    sat_bind, sat_modifyProc,
    sat_bind, sat_procOf]
  change Sat (mmapLoop ((s.linked p i start n).procs p).pgtbl start perm n 0)
    (s.linked p i start n) G Q E
  rw [linked_procs]
  have hw := h.listless (linked_listless s p i start n)
  have hsp := (hw.proc p ha).space
  rw [linked_procs] at hsp
  refine mmapLoop_sat hsp hal (by rw [Nat.zero_mul]; exact hstart) (by omega) hperm
    (fun hbad => hE fun hc => hbad ?_) fun hle g' s' hadd => ?_
  · exact ⟨hc.2.2.1, hc.2.2.2.1, hc.2.2.2.2⟩
  · exact hQ hal (Nat.pos_of_ne_zero hz) (hle (Nat.pos_of_ne_zero hz)) i hi g' s' hadd

theorem linked_relisted {start : Nat} (h : s.Paged) (hst : start % pgSize = 0) (p : ProcId)
    (i : NodeId) (n : Nat) :
    Relisted p s.procs (s.linked p i start n) := by
  have h1 : (s.setNode 0 { s.nodes 0 with link := (s.nodes i).link }).Paged := h.setNode (h 0)
  generalize hs₁ : s.setNode 0 { s.nodes 0 with link := (s.nodes i).link } = s₁ at h1
  have h2 : (s₁.setNode i { s₁.nodes i with begin := start, npages := n }).Paged := h1.setNode hst
  refine ⟨?_, fun q hq => ?_⟩
  · unfold Kernel.linked
    rw [hs₁]
    exact Kernel.Paged.setNode h2 (h2 i)
  · exact Function.update_of_ne hq _ _

theorem Relisted.of_rest {x : ProcId → Proc} (h : Relisted p x s) (hr : s'.rest = s.rest) :
    Relisted p x s' := by
  refine ⟨paged_of_nodes h.paged (rest_nodes hr), fun q hq => ?_⟩
  rw [rest_procs hr]
  exact h.others q hq

theorem sysMmap_world {start len : Nat} (h : World A g s) (ha : A p)
    (hl : s.locks .mmapList = false)
    (hpaged : s.Paged) (hstart : start < 2 ^ 64) (hlen : len < 2 ^ 32) :
    Sat (sysMmap p start len) s (fun _ => True)
      (fun _ s' => ∃ g', World A g' s' ∧ Spared (BuildUse (s.procs p).pgtbl p) g s g' s' ∧
        s'.rest.listless = s.rest.listless ∧ Relisted p s.procs s') fun _ => True := by
  unfold sysMmap
  split
  · rw [sat_pure]
    exact ⟨g, h, .refl _ _ _, rfl, hpaged, fun _ _ => rfl⟩
  rw [sat_bind]
  refine uvmMmap_sat h ha hl hstart ?_ (by decide) (fun _ _ => trivial) (fun _ => ?_)
    fun hst _ _ i hi g' s' hadd => ?_
  · unfold pgSize
    omega
  · rw [sat_pure]
    exact ⟨g, h, .refl _ _ _, rfl, hpaged, fun _ _ => rfl⟩
  · rw [sat_pure]
    have hw := h.listless (linked_listless s p i start (len / pgSize))
    refine ⟨g', ?_, (hadd.spared p).of_mem rfl, ?_,
      (linked_relisted hpaged hst p i _).of_rest hadd.framed.rest⟩
    · exact hw.added ha (by rw [linked_procs]) (by rw [linked_procs]) hadd (by decide) (by decide)
    · rw [hadd.framed.rest]
      exact congrArg Kernel.rest (linked_listless s p i start (len / pgSize))

/-- `uvm_munmap` behind the loops over the list. -/
theorem uvmMunmap_sat {start : Nat} {Q : Unit → Kernel → Prop} (h : World A g s) (ha : A p)
    (hz : (s.procs p).state ≠ .zombie) (hstart : start < 2 ^ 64) (hE : ∀ e, E e)
    (hG : ∀ v < vaPages, Visited start (u32 (n * pgSize)) v →
      G (.pageFreed (pteToPa (leaf s.mem (s.procs p).pgtbl v))))
    (hzero : n = 0 → Q () s)
    (hQ : n ≠ 0 → start % pgSize = 0 →
      (∀ v, Visited start (u32 (n * pgSize)) v → Unmappable s (s.procs p).pgtbl true v) →
      ∀ g' s', World A g' s' → Spared (BuildUse (s.procs p).pgtbl p) g s g' s' →
      s'.rest.listless = s.rest.listless → (s.Paged → Relisted p s.procs s') →
      (∀ v < vaPages, Visited start (u32 (n * pgSize)) v → leaf s'.mem (s.procs p).pgtbl v = 0) →
      (∀ v < vaPages, ¬ Visited start (u32 (n * pgSize)) v →
        leaf s'.mem (s.procs p).pgtbl v = leaf s.mem (s.procs p).pgtbl v) → Q () s') :
    Sat (uvmMunmap p start n) s G Q E := by
  unfold uvmMunmap
  by_cases hn : n = 0
  · rw [if_pos hn, sat_pure]
    exact hzero hn
  rw [if_neg hn, sat_bind]
  refine sat_assert_any (hE _) fun hal => ?_
  have hend : u64 (start + u32 (n * pgSize)) % pgSize = 0 := by
    have := of_decide_eq_true hal
    unfold u64 u32
    unfold pgSize at *
    omega
  -- the loops leave memory alone
  rw [sat_bind, sat_procOf, sat_bind]
  refine ((silent_munmapLoop p _ _ _ _ _).sat hE fun _ s₁ h₁ => h₁).run.imp fun _ s₁ h₁ => ?_
  obtain ⟨h₁, hrun₁⟩ := h₁
  rw [sat_bind, sat_procOf, sat_bind]
  refine ((silent_mergeLoop _ _).sat hE fun _ s₂ h₂ => h₂).run.imp fun _ s₂ h₂ => ?_
  obtain ⟨h₂, hrun₂⟩ := h₂
  replace h₂ := h₂.trans h₁
  have hkept : s.Paged → Relisted p s.procs s₂ := fun hp =>
    (stable_mergeLoop _ _ _
      ((stable_munmapLoop start hend _ _ _ s ⟨hp, fun _ _ => rfl⟩).of_ok hrun₁)).of_ok hrun₂
  have hm := (listless_same h₂).mem
  have hp : (s₂.procs p).pgtbl = (s.procs p).pgtbl := by rw [listless_procs h₂ p]
  have hs : (s₂.procs p).state = (s.procs p).state := by rw [listless_procs h₂ p]
  rw [sat_bind, sat_procOf]
  have hu : ∀ v, Unmappable s₂ (s₂.procs p).pgtbl true v ↔
    Unmappable s (s.procs p).pgtbl true v := by
    intro v
    have hman : ∀ q, Managed s₂ q ↔ Managed s q := by
      intro q
      unfold Managed
      rw [(listless_same h₂).allocBegin]
    constructor
    · rintro ⟨h3, h4, h5, h6⟩
      rw [hm, hp] at h4 h5 h6
      exact ⟨h3, h4, h5, fun hf => (hman _).mp (h6 hf)⟩
    · rintro ⟨h3, h4, h5, h6⟩
      rw [← hm, ← hp] at h4 h5 h6
      exact ⟨h3, h4, h5, fun hf => (hman _).mpr (h6 hf)⟩
  refine (h.listless h₂).unmap_sat ha (by rw [hs]; exact hz)
    (of_decide_eq_true hal) hstart ?_ (fun _ => hE)
    (fun v hv hvis => ?_) fun hall g' s' hw hsp hr hin hout => ?_
  · exact Nat.lt_trans (Nat.mod_lt _ (by decide)) (by decide)
  · rw [hm, hp]
    exact hG v hv hvis
  · rw [hp] at hin hout hsp
    rw [hm] at hout
    refine hQ hn (of_decide_eq_true hal)
      (fun v hv => (hu v).mp (hall v hv)) g' s' hw (hsp.of_mem hm) ?_
      (fun hpg => (hkept hpg).of_rest hr) hin hout
    rw [hr]
    exact congrArg Kernel.rest h₂

theorem sysMunmap_world {start len : Nat} (h : World A g s) (ha : A p)
    (hz : (s.procs p).state ≠ .zombie)
    (hpaged : s.Paged) (hstart : start < 2 ^ 64) :
    Sat (sysMunmap p start len) s (fun _ => True)
      (fun _ s' => ∃ g', World A g' s' ∧ Spared (BuildUse (s.procs p).pgtbl p) g s g' s' ∧
        s'.rest.listless = s.rest.listless ∧ Relisted p s.procs s') fun _ => True := by
  unfold sysMunmap
  split
  · rw [sat_pure]
    exact ⟨g, h, .refl _ _ _, rfl, hpaged, fun _ _ => rfl⟩
  rw [sat_bind]
  refine uvmMunmap_sat h ha hz hstart (fun _ => trivial) (fun _ _ _ => trivial) (fun _ => ?_)
    fun _ _ _ g' s' hw hsp hr hre _ _ => ?_
  · rw [sat_pure]
    exact ⟨g, h, .refl _ _ _, rfl, hpaged, fun _ _ => rfl⟩
  · rw [sat_pure]
    exact ⟨g', hw, hsp, hr, hre hpaged⟩

end

end WhuOs.Mem
