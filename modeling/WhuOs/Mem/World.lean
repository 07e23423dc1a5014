import WhuOs.Mem.NewSpace

/-! # The memory of all processes

The invariant that every system call keeps: the allocator, the kernel's table and
the address spaces of the processes of a set `A` share no page. A process that is
being set up or taken down is not in `A`. A process whose trap frame is no longer
mapped never runs again, so nothing is said about the page of its trap frame.
-/

namespace WhuOs.Mem

open Prog Bytes

def kstackVpn (p : ProcId) : Nat := kstackVa p / pgSize

structure Tenant (g : Ledger) (s : Kernel) (p : ProcId) : Prop where
  space : Space g s (s.procs p).pgtbl (s.procs p).tf
  user : (s.procs p).pgtbl ≠ s.kernelPgtbl
  trapframe : leaf s.mem (s.procs p).pgtbl trapframeVpn = trapframePte (s.procs p).tf ∨
    (s.procs p).state = .zombie → g.own (s.procs p).tf = .trapframe p

structure World (A : ProcId → Prop) (g : Ledger) (s : Kernel) : Prop where
  text : Text s
  heap : Heap g s
  homed : Homed g s
  rooted : g.Rooted
  tops : ∀ r, g.Live r → Tops g s r
  kernel : g.Live s.kernelPgtbl
  kstack : ∀ p : ProcId, hasFlag (leaf s.mem s.kernelPgtbl (kstackVpn p)) pteV = true →
    g.own (pteToPa (leaf s.mem s.kernelPgtbl (kstackVpn p))) = .kstack p
  kstackVa : ∀ p : ProcId, (s.procs p).kstack = kstackVa p
  proc : ∀ p, A p → Tenant g s p
  distinct : ∀ p q, A p → A q → (s.procs p).pgtbl = (s.procs q).pgtbl → p = q

/-- The states have the same memory, pools and page table of the kernel. -/
structure SameMem (s s' : Kernel) : Prop where
  mem : s'.mem = s.mem
  region : ∀ k, s'.region k = s.region k
  lock : ∀ k, s'.locks (.pmem k) = s.locks (.pmem k)
  allocBegin : s'.allocBegin = s.allocBegin
  trampoline : s'.trampoline = s.trampoline
  etext : s'.etext = s.etext
  kernelPgtbl : s'.kernelPgtbl = s.kernelPgtbl

/-- Work on the tables and frames of one root. -/
structure OnRoot (W : Use → Prop) (r : Nat) : Prop where
  table : ∀ r' x, W (.table r' x) → r' = r
  frame : ∀ r' v, W (.frame r' v) → r' = r
  kstack : ∀ p, ¬ W (.kstack p)

section

variable {A A' : ProcId → Prop} {g g' : Ledger} {s s' : Kernel} {p q : ProcId} {r t v n : Nat}
  {W : Use → Prop} {m : Bytes} {x : Proc} {G : Event → Prop} {E : Panic → Prop}

theorem rest_etext (h : s'.rest = s.rest) : s'.etext = s.etext :=
  (congrArg Kernel.etext h :)

/-! ## States with the same memory -/

theorem Layout.same (h : Layout s) (hs : SameMem s s') : Layout s' := by
  have hk : s'.kern = s.kern := hs.region true
  have hu : s'.user = s.user := hs.region false
  refine ⟨?_, ?_, ?_, ?_, ?_, ?_, ?_⟩
  · rw [hs.allocBegin]; exact h.pos
  · rw [hs.allocBegin]; exact h.aligned
  · rw [hs.allocBegin]; exact h.room
  · rw [hs.allocBegin, hk]; exact h.kernBegin
  · rw [hs.allocBegin, hk]; exact h.kernStop
  · rw [hs.allocBegin, hu]; exact h.userBegin
  · rw [hu]; exact h.userStop

theorem Heap.same (h : Heap g s) (hs : SameMem s s') : Heap g s' := by
  refine ⟨⟨h.pools.layout.same hs, fun k => ?_, fun k => (hs.lock k).trans (h.pools.lock k)⟩,
    h.free_iff,
    h.page, h.root, ?_⟩
  · obtain ⟨h1, h2, h3⟩ := h.pools.pool k
    rw [← hs.region k] at h1 h2 h3
    rw [← hs.mem] at h1
    exact ⟨h1, h2, h3⟩
  · rw [hs.mem]
    exact h.child

theorem Homed.same (h : Homed g s) (hs : SameMem s s') : Homed g s' := by
  refine ⟨fun q k hq => ?_, h.top⟩
  unfold Managed inKernelOf
  rw [hs.allocBegin]
  exact h.home q k hq

theorem Tops.same (h : Tops g s r) (hs : SameMem s s') : Tops g s' r := by
  intro p x hp
  rw [hs.mem]
  exact h p x hp

theorem Space.same (h : Space g s r t) (hs : SameMem s s') : Space g s' r t := by
  refine ⟨h.heap.same hs, h.homed.same hs, h.live, ?_, h.tops.same hs, ?_⟩
  · unfold Managed inKernelOf
    rw [hs.allocBegin]
    exact h.pool
  · unfold trampolinePte
    rw [hs.mem, hs.trampoline]
    exact h.leaf

/-- The process table changed where the invariant does not look. -/
theorem World.same (h : World A g s) (hs : SameMem s s')
    (hk : ∀ p, (s'.procs p).kstack = (s.procs p).kstack)
    (hp : ∀ p, A p → (s'.procs p).pgtbl = (s.procs p).pgtbl ∧ (s'.procs p).tf = (s.procs p).tf ∧
      ((s'.procs p).state = .zombie →
        (s.procs p).state = .zombie ∨ g.own (s.procs p).tf = .trapframe p)) :
    World A g s' := by
  refine ⟨⟨?_, ?_, ?_, ?_⟩, h.heap.same hs, h.homed.same hs, h.rooted, fun r hr =>
    (h.tops r hr).same hs, ?_,
    ?_, fun p => (hk p).trans (h.kstackVa p), fun p ha => ?_, fun p q ha hb he => ?_⟩
  · rw [hs.trampoline]; exact h.text.trampoline
  · rw [hs.trampoline, hs.etext]; exact h.text.below
  · rw [hs.etext]; exact h.text.etext
  · rw [hs.etext, hs.allocBegin]; exact h.text.end_le
  · rw [hs.kernelPgtbl]; exact h.kernel
  · rw [hs.mem, hs.kernelPgtbl]
    exact h.kstack
  · obtain ⟨h1, h2, h3⟩ := hp p ha
    have ht := h.proc p ha
    refine ⟨?_, ?_, fun hc => ?_⟩
    · rw [h1, h2]
      exact ht.space.same hs
    · rw [h1, hs.kernelPgtbl]
      exact ht.user
    · rw [h1, h2, hs.mem] at hc
      rw [h2]
      rcases hc with hc | hc
      · exact ht.trapframe (.inl hc)
      · rcases h3 hc with h4 | h4
        · exact ht.trapframe (.inr h4)
        · exact h4
  · rw [(hp p ha).1, (hp q hb).1] at he
    exact h.distinct p q ha hb he

/-! ## Sets of processes -/

theorem World.anti (h : World A g s) (hA : ∀ p, A' p → A p) : World A' g s :=
  ⟨h.text, h.heap, h.homed, h.rooted, h.tops, h.kernel, h.kstack, h.kstackVa,
    fun p ha => h.proc p (hA p ha),
    fun p q ha hb => h.distinct p q (hA p ha) (hA q hb)⟩

/-- One process more. -/
theorem World.insert (h : World A g s) (hp : Tenant g s p)
    (hne : ∀ q, A q → q ≠ p → (s.procs q).pgtbl ≠ (s.procs p).pgtbl) :
    World (fun q => A q ∨ q = p) g s := by
  refine ⟨h.text, h.heap, h.homed, h.rooted, h.tops, h.kernel, h.kstack, h.kstackVa, ?_, ?_⟩
  · rintro q (ha | rfl)
    · exact h.proc q ha
    · exact hp
  · intro a b ha hb he
    by_contra hab
    rcases ha with ha | rfl
    · rcases hb with hb | rfl
      · exact hab (h.distinct a b ha hb he)
      · exact hne a ha hab he
    · rcases hb with hb | rfl
      · exact hne b hb (Ne.symm hab) he.symm
      · exact hab rfl

/-- The other processes. -/
theorem World.others (h : World A g s) (p : ProcId) : World (fun q => A q ∧ q ≠ p) g s :=
  h.anti fun _ ha => ha.1

/-! ## Frames -/

theorem Text.of_rest (h : Text s) (hr : s'.rest = s.rest) : Text s' := by
  refine ⟨?_, ?_, ?_, ?_⟩
  · rw [rest_trampoline hr]; exact h.trampoline
  · rw [rest_trampoline hr, rest_etext hr]; exact h.below
  · rw [rest_etext hr]; exact h.etext
  · rw [rest_etext hr, rest_allocBegin hr]; exact h.end_le

theorem Tenant.frame (h : Tenant g s p) (hf : Framed W g s g' s')
    (hheap : Heap g' s') (hhomed : Homed g' s')
    (hw : OnRoot W r) (hr : (s.procs p).pgtbl ≠ r) (ht : ¬ W (.trapframe p)) : Tenant g' s' p := by
  have hprocs := rest_procs hf.rest
  have htable : ∀ x, ¬ W (.table (s.procs p).pgtbl x) := fun x hx => hr (hw.table _ x hx)
  refine ⟨?_, ?_, ?_⟩
  · rw [hprocs]
    exact h.space.frame hf hheap hhomed htable fun v hv => hr (hw.frame _ v hv)
  · rw [hprocs, rest_kernelPgtbl hf.rest]
    exact h.user
  · rw [hprocs, hf.leaf h.space.heap h.space.live htable]
    intro hc
    have hown := h.trapframe hc
    exact (hf.own_eq (hown ▸ ht)).trans hown

/-- Work on a root that belongs neither to the kernel nor to a process of the set. -/
theorem World.frame (h : World A g s) (hf : Framed W g s g' s')
    (hheap : Heap g' s') (hhomed : Homed g' s')
    (hw : OnRoot W r) (hr : ∀ q x, g'.own q = .table r x → g'.Live r ∧ Tops g' s' r)
    (hkern : r ≠ s.kernelPgtbl) (hproc : ∀ p, A p → (s.procs p).pgtbl ≠ r ∧ ¬ W (.trapframe p)) :
    World A g' s' := by
  have hprocs := rest_procs hf.rest
  have hkp := rest_kernelPgtbl hf.rest
  have hother : ∀ r', r' ≠ r → ∀ x, ¬ W (.table r' x) := fun r' hne x hx => hne (hw.table r' x hx)
  have hlive : ∀ r', r' ≠ r → g.Live r' → g'.Live r' :=
    fun r' hne hl => hf.live hl (hother r' hne [])
  have hkl := hlive _ (Ne.symm hkern) h.kernel
  refine ⟨h.text.of_rest hf.rest, hheap, hhomed, fun q r' x hq =>
    ?_, fun r' hl => ?_, ?_, fun p => ?_,
    fun p => ?_, fun p ha => ?_, fun p q ha hb he => ?_⟩
  · by_cases hrr : r' = r
    · subst hrr
      exact (hr q x hq).1
    · exact hlive r' hrr (h.rooted q r' x (hf.own_back hq (hother r' hrr x)))
  · by_cases hrr : r' = r
    · subst hrr
      exact (hr r' [] hl).2
    · exact hf.tops h.heap (hother r' hrr) (h.tops r' (hf.own_back hl (hother r' hrr [])))
  · rw [hkp]
    exact hkl
  · rw [hkp, hf.leaf h.heap h.kernel (hother _ (Ne.symm hkern))]
    intro hv
    have hown := h.kstack p hv
    exact (hf.own_eq (hown ▸ hw.kstack p)).trans hown
  · rw [hprocs]
    exact h.kstackVa p
  · exact (h.proc p ha).frame hf hheap hhomed hw (hproc p ha).1 (hproc p ha).2
  · rw [hprocs] at he
    exact h.distinct p q ha hb he

theorem UserUse.onRoot (r : Nat) : OnRoot (UserUse r) r := by
  refine ⟨fun r' x hx => ?_, fun r' v hv => ?_, fun p hp => nomatch hp⟩
  · cases hx
    rfl
  · cases hv
    rfl

theorem UserUse.not_trapframe : ¬ UserUse r (.trapframe p) := fun hu => nomatch hu

/-- Roots in use are not free. -/
theorem World.root_ne (h : World A g s) (ha : A p) {k : Bool} (hr : g.own r = .free k) :
    (s.procs p).pgtbl ≠ r := by
  rintro rfl
  have hl := (h.proc p ha).space.live
  unfold Ledger.Live at hl
  rw [hr] at hl
  cases hl

theorem World.kernel_ne (h : World A g s) {k : Bool} (hr : g.own r = .free k) :
    r ≠ s.kernelPgtbl := by
  rintro rfl
  have hl := h.kernel
  unfold Ledger.Live at hl
  rw [hr] at hl
  cases hl

/-- A new address space beside the others. -/
theorem World.fresh (h : World A g s) (hf : FreshSpace r t g s g' s') :
    World A g' s' := by
  refine h.frame hf.framed hf.space.heap hf.space.homed (UserUse.onRoot r)
    (fun q x _ => ⟨hf.space.live, hf.space.tops⟩) (h.kernel_ne hf.was) fun p ha => ?_
  exact ⟨h.root_ne ha hf.was, UserUse.not_trapframe⟩

theorem World.undone (h : World A g s) (hu : Undone g s g' s') : World A g' s' := by
  rcases hu.framed with ⟨rfl, rfl⟩ | ⟨r, hown, hf, hno⟩
  · exact h
  · refine h.frame hf hu.heap hu.homed (UserUse.onRoot r) (fun q x hq => absurd hq (hno q x))
      (h.kernel_ne hown) fun p ha => ?_
    exact ⟨h.root_ne ha hown, UserUse.not_trapframe⟩

/-- An address space that belongs to no process of the set was destroyed. -/
theorem World.gone (h : World A g s) (hkern : r ≠ s.kernelPgtbl)
    (hproc : ∀ p, A p → (s.procs p).pgtbl ≠ r)
    (hg : Gone r (RootUse r) g s g' s') (hno : ∀ q x, g'.own q ≠ .table r x) : World A g' s' := by
  refine h.frame (hg.framed.mono fun u hu => hu.user) hg.heap hg.homed (UserUse.onRoot r)
    (fun q x hq => absurd hq (hno q x)) hkern fun p ha => ?_
  exact ⟨hproc p ha, UserUse.not_trapframe⟩

/-- Work on pages that are neither tables nor frames. -/
theorem World.frameData (h : World A g s) (hf : Framed W g s g' s')
    (hheap : Heap g' s') (hhomed : Homed g' s')
    (ht : ∀ r x, ¬ W (.table r x)) (hv : ∀ r v, ¬ W (.frame r v)) (hks : ∀ p, ¬ W (.kstack p))
    (htf : ∀ p, A p → ¬ W (.trapframe p)) : World A g' s' := by
  have hone : ¬ g.Live 1 := fun hl => absurd (h.heap.table_page hl).1 (by decide)
  refine h.frame (r := 1) hf hheap hhomed ⟨fun r x hx => absurd hx (ht r x), fun r v hx =>
    absurd hx (hv r v), hks⟩
    (fun q x hq => ?_) ?_ fun p ha => ⟨?_, htf p ha⟩
  · exact absurd (h.rooted q 1 x (hf.own_back hq (ht 1 x))) hone
  · rintro hc
    exact hone (hc ▸ h.kernel)
  · rintro hc
    exact hone (hc ▸ (h.proc p ha).space.live)

/-- Work on the kernel's table and its stacks. -/
theorem World.frameKernel (h : World A g s) (hf : Framed W g s g' s')
    (hheap : Heap g' s') (hhomed : Homed g' s')
    (ht : ∀ r x, W (.table r x) → r = s.kernelPgtbl) (hv : ∀ r v, ¬ W (.frame r v))
    (htf : ∀ p, A p → ¬ W (.trapframe p)) (hlive : g'.Live s.kernelPgtbl)
    (htops : Tops g' s' s.kernelPgtbl)
    (hks : ∀ p : ProcId, hasFlag (leaf s'.mem s.kernelPgtbl (kstackVpn p)) pteV = true →
      g'.own (pteToPa (leaf s'.mem s.kernelPgtbl (kstackVpn p))) = .kstack p) : World A g' s' := by
  have hprocs := rest_procs hf.rest
  have hkp := rest_kernelPgtbl hf.rest
  have hother : ∀ r', r' ≠ s.kernelPgtbl → ∀ x, ¬ W (.table r' x) :=
    fun r' hne x hx => hne (ht r' x hx)
  have hkeep : ∀ r', r' ≠ s.kernelPgtbl → g.Live r' → g'.Live r' :=
    fun r' hne hl => hf.live hl (hother r' hne [])
  refine ⟨h.text.of_rest hf.rest, hheap, hhomed, fun q r' x hq => ?_, fun r' hl => ?_, ?_, ?_,
    fun p => ?_, fun p ha => ?_, fun p q ha hb he => ?_⟩
  · by_cases hrr : r' = s.kernelPgtbl
    · subst hrr
      exact hlive
    · exact hkeep r' hrr (h.rooted q r' x (hf.own_back hq (hother r' hrr x)))
  · by_cases hrr : r' = s.kernelPgtbl
    · subst hrr
      exact htops
    · exact hf.tops h.heap (hother r' hrr) (h.tops r' (hf.own_back hl (hother r' hrr [])))
  · rw [hkp]
    exact hlive
  · rw [hkp]
    exact hks
  · rw [hprocs]
    exact h.kstackVa p
  · have hp := h.proc p ha
    have htab := hother _ hp.user
    refine ⟨?_, ?_, ?_⟩
    · rw [hprocs]
      exact hp.space.frame hf hheap hhomed htab (hv _)
    · rw [hprocs, hkp]
      exact hp.user
    · rw [hprocs, hf.leaf h.heap hp.space.live htab]
      intro hc
      have hown := hp.trapframe hc
      exact (hf.own_eq (hown ▸ htf p ha)).trans hown
  · rw [hprocs] at he
    exact h.distinct p q ha hb he

theorem kstackVpn_inj (h : kstackVpn p = kstackVpn q) : p = q := by
  have hp := p.isLt
  have hq := q.isLt
  refine Fin.ext ?_
  unfold kstackVpn kstackVa trapframeVa trampolineVa vaMax pgSize at h
  omega

theorem kstackVpn_lt (p : ProcId) : kstackVpn p < vaPages := by
  unfold kstackVpn kstackVa trapframeVa trampolineVa vaPages vaMax pgSize
  omega

theorem kstackVpn_mul (p : ProcId) : kstackVpn p * pgSize = Mem.kstackVa p := by
  have hp := p.isLt
  unfold kstackVpn Mem.kstackVa trapframeVa trampolineVa vaMax pgSize
  omega

/-- A kernel stack is mapped. -/
theorem World.stack {q n : Nat} (h : World A g s) (hq : g.own q = .kstack p)
    (he : Edited s.kernelPgtbl (fun v => if v = kstackVpn p then mapPte q (pteR ||| pteW) 0
      else leaf s.mem s.kernelPgtbl v) n g s g' s') : World A g' s' := by
  have hqp := h.heap.page q (by rw [hq]; exact Use.noConfusion)
  have hlt := (h.homed.home q true (by rw [hq]; rfl)).1.2
  have hown : ∀ q' p', g.own q' = .kstack p' → g'.own q' = .kstack p' := by
    intro q' p' hq'
    exact (he.framed.own_eq (hq' ▸ fun hu => nomatch hu)).trans hq'
  refine h.frameKernel he.framed he.heap (he.homed h.homed) (fun r x hx => ?_)
    (fun r v hx => nomatch hx)
    (fun p _ hx => nomatch hx) he.live (he.tops (fun v _ => ?_) (h.tops _ h.kernel)) fun p' => ?_
  · cases hx
    rfl
  · split
    · exact .inl (mapPte_small hlt (by decide))
    · exact .inr rfl
  · rw [he.leaf _ (kstackVpn_lt p')]
    by_cases hpp : p' = p
    · subst hpp
      rw [if_pos rfl, mapPte_pa hqp.1 (Nat.lt_trans hlt (by decide)) (by decide)]
      exact fun _ => hown q p' hq
    · rw [if_neg fun hc => hpp (kstackVpn_inj hc)]
      exact fun hval => hown _ p' (h.kstack p' hval)

/-- A kernel stack is taken away. -/
theorem World.unstack (h : World A g s)
    (hu : Unmapped s.kernelPgtbl (kstackVpn p) 1 (fun u => u = .kstack p) g s g' s') :
    World A g' s' := by
  refine h.frameKernel hu.framed hu.heap (hu.homed h.homed) (fun r x hx => ?_) (fun r v hx => ?_)
    (fun q _ hx => ?_) hu.live (hu.tops (h.tops _ h.kernel)) fun p' => ?_
  · cases hx with
    | table => rfl
    | frame hd => cases hd
  · cases hx with
    | frame hd => cases hd
  · cases hx with
    | frame hd => cases hd
  · rw [hu.leaf _ (kstackVpn_lt p')]
    by_cases hpp : p' = p
    · subst hpp
      rw [if_pos ⟨Nat.le_refl _, Nat.lt_succ_self _⟩, hasFlag_zero]
      exact fun hc => absurd hc (by decide)
    · rw [if_neg fun hc => hpp (kstackVpn_inj (by omega))]
      intro hval
      have hown := h.kstack p' hval
      refine (hu.framed.own_eq ?_).trans hown
      rw [hown]
      intro hw
      cases hw with
      | frame hd => exact hpp (Use.kstack.inj hd)

/-! ## Writes outside the tables -/

theorem World.withMem (h : World A g s)
    (htable : ∀ q r x, g.own q = .table r x → ∀ i < pgSize, m (q + i) = s.mem (q + i))
    (hfree : ∀ q k, g.own q = .free k → ∀ i < 8, m (q + i) = s.mem (q + i)) :
    World A g (s.setMem m) := by
  have hleaf : ∀ r v, g.Live r → leaf m r v = leaf s.mem r v :=
    fun r v hl => h.heap.leaf_frame hl fun q x hq => htable q r x hq
  have htops : ∀ r, g.Live r → Tops g (s.setMem m) r := by
    intro r hl q x hq
    rw [setMem_mem, htable q r x hq _ (by decide)]
    exact h.tops r hl q x hq
  have hheap : Heap g (s.setMem m) := by
    refine ⟨h.heap.pools.withMem fun k q hq =>
      hfree q k ((h.heap.free_iff q k).mp hq), h.heap.free_iff,
      h.heap.page, h.heap.root, fun r q x i hl hq hx hi hv => ?_⟩
    rw [setMem_mem, entry_congr hi (htable q r x hq)] at hv ⊢
    exact h.heap.child r q x i hl hq hx hi hv
  refine ⟨h.text.of_rest rfl, hheap, h.homed.of_rest rfl, h.rooted, htops, h.kernel, fun p =>
    ?_, h.kstackVa, fun p ha => ?_,
    h.distinct⟩
  · rw [setMem_mem, setMem_kernelPgtbl, hleaf _ _ h.kernel]
    exact h.kstack p
  · have ht := h.proc p ha
    refine ⟨⟨hheap, h.homed.of_rest rfl, ht.space.live, ht.space.pool,
      htops _ ht.space.live, fun v hv hval => ?_⟩,
      ht.user, ?_⟩
    · rw [setMem_mem, setMem_procs, hleaf _ _ ht.space.live] at hval ⊢
      exact ht.space.leaf v hv hval
    · rw [setMem_mem, setMem_procs, hleaf _ _ ht.space.live]
      exact ht.trapframe

/-- Writes into data pages. -/
theorem World.write (h : World A g s)
    (hm : ∀ q, q % pgSize = 0 → ¬ (g.own q).IsData → ∀ i < pgSize, m (q + i) = s.mem (q + i)) :
    World A g (s.setMem m) := by
  refine h.withMem (fun q r x hq => hm q (h.heap.table_page hq).1 ?_) fun q k hq i hi => ?_
  · rw [hq]
    exact id
  · refine hm q (h.heap.page q (by rw [hq]; exact Use.noConfusion)).1 ?_ i
      (Nat.lt_trans hi (by decide))
    rw [hq]
    exact id

theorem World.write_page {q : Nat} (h : World A g s) (hq : q % pgSize = 0) (hd : (g.own q).IsData)
    (hm : Inside q s.mem m) : World A g (s.setMem m) := by
  refine h.write fun q' hq' hnd i hi => ?_
  by_contra hne
  have hqq : q' ≠ q := by
    rintro rfl
    exact hnd hd
  have hin := hm (q' + i) hne
  have hap := pages_apart hq' hq hqq
  omega

/-- The last byte of a page can be cleared: in a table it is clear, and a free page does not use
it. -/
theorem World.clearLast {b : Nat} (h : World A g s) (hb : b % pgSize = pgSize - 1) :
    World A g (s.setMem (splice s.mem b (fun _ => 0) 1)) := by
  refine h.withMem (fun q r x hq i hi => ?_) fun q k hq i hi => ?_
  · have hqa := (h.heap.table_page hq).1
    by_cases hc : q + i = b
    · have hi' : i = pgSize - 1 := by
        unfold pgSize at *
        omega
      subst hi'
      rw [splice_in (by omega) (by omega)]
      exact (h.tops r (h.rooted q r x hq) q x hq).symm
    · exact splice_out (by omega)
  · have hqa := (h.heap.page q (by rw [hq]; exact Use.noConfusion)).1
    refine splice_out ?_
    unfold pgSize at *
    omega

/-! ## Copies to a process -/

theorem trampolinePte_pa (h : Text s) (hl : Layout s) :
    pteToPa (trampolinePte s) = s.trampoline := by
  refine mapPte_pa h.trampoline ?_ (by decide)
  have h1 := h.below
  have h2 := h.end_le
  have h3 := hl.room
  have h4 : physTop < 2 ^ 64 := by decide
  omega

/-- The frame of a page that the kernel can write to. -/
theorem World.storable (h : World A g s) (ha : A p) (hv : Storable s (s.procs p).pgtbl v) :
    g.own (pteToPa (leaf s.mem (s.procs p).pgtbl v)) = .frame (s.procs p).pgtbl v ∨
      v = trapframeVpn ∧ g.own (pteToPa (leaf s.mem (s.procs p).pgtbl v)) = .trapframe p := by
  have ht := h.proc p ha
  rcases ht.space.leaf v hv.1.1 hv.1.2 with h1 | ⟨h1, h2⟩ | ⟨rfl, h2⟩
  · exact .inl h1
  · have hle := hv.2
    rw [h2, trampolinePte_pa h.text h.heap.pools.layout] at hle
    exact absurd hle (Nat.not_le.mpr h.text.below)
  · have hown := ht.trapframe (.inl h2)
    have hpage := h.heap.page _ (by rw [hown]; exact Use.noConfusion)
    have hlt := (h.homed.home (s.procs p).tf true (by rw [hown]; rfl)).1.2
    rw [h2, trapframePte, mapPte_pa hpage.1 (Nat.lt_trans hlt (by decide)) (by decide)]
    exact .inr ⟨rfl, hown⟩

theorem World.storable_data (h : World A g s) (ha : A p) (hv : Storable s (s.procs p).pgtbl v) :
    (g.own (pteToPa (leaf s.mem (s.procs p).pgtbl v))).IsData := by
  rcases h.storable ha hv with h1 | ⟨-, h1⟩
  · rw [h1]
    trivial
  · rw [h1]
    trivial

end

end WhuOs.Mem
