import WhuOs.Mem.Boot
import WhuOs.Mem.Family
import WhuOs.Mem.Syscall

/-! # Processes side by side

The memory of all processes between two steps of the kernel, and what a step on behalf
of one process leaves to the others: their tables, the bytes of their pages, their
saved registers and their records.
-/

namespace WhuOs.Mem

open Prog Bytes

def Kernel.InUse (s : Kernel) (p : ProcId) : Prop := (s.procs p).state ≠ .unused

/-- The memory of the kernel and of all processes. -/
structure Tenancy (g : Ledger) (s : Kernel) : Prop where
  world : World s.InUse g s
  vacant : ∀ p, (s.procs p).state = .unused → (s.procs p).tf = 0 ∧ (s.procs p).pgtbl = 0
  unstacked : ∀ p, (s.procs p).state = .unused → leaf s.mem s.kernelPgtbl (kstackVpn p) = 0
  stacked : ∀ p, s.InUse p → Stacked s p
  trampoline : leaf s.mem s.kernelPgtbl trampolineVpn ≠ 0
  paged : s.Paged
  stackBase : ∀ p, s.InUse p → (s.procs p).ustackBase % pgSize = 0

/-- The record of a process without what its relatives and the scheduler may change. -/
def Proc.kept (x : Proc) : Proc :=
  { x with state := .unused, parent := none, exitState := 0, sleepSpace := none }

/-- The uses of the pages of a process with root `r`. -/
inductive TenantUse (r : Nat) (p : ProcId) : Use → Prop
  | table (x : List Nat) : TenantUse r p (.table r x)
  | frame (v : Nat) : TenantUse r p (.frame r v)
  | trapframe : TenantUse r p (.trapframe p)

/-- A process keeps its record and its pages with their bytes. -/
structure Untouched (p : ProcId) (g : Ledger) (s : Kernel) (g' : Ledger) (s' : Kernel) : Prop where
  record : (s'.procs p).kept = (s.procs p).kept
  own : ∀ q, TenantUse (s.procs p).pgtbl p (g.own q) → g'.own q = g.own q
  page : ∀ q, TenantUse (s.procs p).pgtbl p (g.own q) → ∀ i < pgSize, s'.mem (q + i) = s.mem (q + i)

/-- Work of the kernel for process `p`, seen by the others. -/
structure Served (p : ProcId) (g : Ledger) (s : Kernel) (g' : Ledger) (s' : Kernel) : Prop where
  tenancy : Tenancy g' s'
  here : s.InUse p → s'.InUse p
  frames : (∀ q, q ≠ p → s.InUse q → g.own (s.procs q).tf = .trapframe q) →
    ∀ q, q ≠ p → s'.InUse q → g'.own (s'.procs q).tf = .trapframe q
  others : ∀ q, q ≠ p → (s.procs q).entry.Alive → (s'.procs q).entry.Alive ∧ Untouched q g s g' s'

section

variable {A : ProcId → Prop} {g g' g'' : Ledger} {s s' s'' : Kernel} {p q : ProcId}
  {r : Nat} {W : Use → Prop}
  {m : Bytes} {lk : Lock}

/-! ## What is left alone -/

theorem kept_pgtbl {x y : Proc} (h : x.kept = y.kept) : x.pgtbl = y.pgtbl :=
  (congrArg Proc.pgtbl h :)

theorem kept_tf {x y : Proc} (h : x.kept = y.kept) : x.tf = y.tf := (congrArg Proc.tf h :)

theorem kept_kstack {x y : Proc} (h : x.kept = y.kept) : x.kstack = y.kstack :=
  (congrArg Proc.kstack h :)

theorem Untouched.refl (p : ProcId) (g : Ledger) (s : Kernel) : Untouched p g s g s :=
  ⟨rfl, fun _ _ => rfl, fun _ _ _ _ => rfl⟩

theorem Untouched.trans (h : Untouched p g s g' s') (h' : Untouched p g' s' g'' s'') :
    Untouched p g s g'' s'' := by
  have hr : (s'.procs p).pgtbl = (s.procs p).pgtbl := kept_pgtbl h.record
  have huse : ∀ q, TenantUse (s.procs p).pgtbl p (g.own q) →
    TenantUse (s'.procs p).pgtbl p (g'.own q) := by
    intro q hq
    rw [hr, h.own q hq]
    exact hq
  exact ⟨h'.record.trans h.record, fun q hq => (h'.own q (huse q hq)).trans (h.own q hq),
    fun q hq i hi => (h'.page q (huse q hq) i hi).trans (h.page q hq i hi)⟩

theorem Tenancy.nothing (h : Tenancy g s) : Served p g s g s :=
  ⟨h, id, fun hf => hf, fun _ _ ha => ⟨ha, .refl _ _ _⟩⟩

theorem Served.trans (h : Served p g s g' s') (h' : Served p g' s' g'' s'') :
    Served p g s g'' s'' := by
  refine ⟨h'.tenancy, fun hp => h'.here (h.here hp), fun hf =>
    h'.frames (h.frames hf), fun q hq ha => ?_⟩
  obtain ⟨h1, h2⟩ := h.others q hq ha
  obtain ⟨h3, h4⟩ := h'.others q hq h1
  exact ⟨h3, h2.trans h4⟩

/-- Pages of a process in a set of the invariant are pages. -/
theorem World.tenant_page (h : World A g s) {q : Nat} (hq : TenantUse r p (g.own q)) :
    q % pgSize = 0 ∧ 0 < q := by
  refine h.heap.page q fun hc => ?_
  rw [hc] at hq
  cases hq

/-- Work on pages that are not those of `q`. -/
theorem Spared.untouched (h : Spared W g s g' s') (hw : World A g s)
    (hrec : (s'.procs q).kept = (s.procs q).kept)
    (hW : ∀ u, TenantUse (s.procs q).pgtbl q u → ¬ W u) : Untouched q g s g' s' := by
  have hpage := fun a (ha : TenantUse (s.procs q).pgtbl q (g.own a)) =>
    h a (hw.tenant_page ha).1 (hW _ ha)
  exact ⟨hrec, fun a ha => (hpage a ha).1, fun a ha => (hpage a ha).2⟩

/-- Roots of two processes differ, so their uses do. -/
theorem World.uses_apart {u : Use} (h : World A g s) (hp : A p) (hq : A q) (hne : q ≠ p)
    (hu : TenantUse (s.procs q).pgtbl q u) : ¬ BuildUse (s.procs p).pgtbl p u := by
  intro hb
  have hroot : (s.procs q).pgtbl ≠ (s.procs p).pgtbl := fun he => hne (h.distinct q p hq hp he)
  cases hu with
  | table x =>
      rcases hb with hb | hb
      · exact hroot ((UserUse.onRoot _).table _ _ hb)
      · cases hb
  | frame v =>
      rcases hb with hb | hb
      · exact hroot ((UserUse.onRoot _).frame _ _ hb)
      · cases hb
  | trapframe => exact hne hb.not_trapframe

theorem TenantUse.not_own {u : Use} {k r' : Nat} (hu : TenantUse r q u) (hr : r ≠ r')
    (hk : r ≠ k) (hne : q ≠ p) :
    ¬ OwnUse k r' p u := by
  intro ho
  cases hu with
  | table x =>
      rcases ho.table_root with he | he
      · exact hr he
      · exact hk he
  | frame v => exact hr ho.frame_root
  | trapframe =>
      cases ho with
      | user hu => cases hu
      | trapframe => exact hne rfl

/-- The kernel's table is not among the uses of a process. -/
theorem World.kernel_apart (h : World A g s) (hp : A p) (x : List Nat) :
    ¬ BuildUse (s.procs p).pgtbl p (.table s.kernelPgtbl x) := by
  rintro (hb | hb)
  · exact (h.proc p hp).user ((UserUse.onRoot _).table _ _ hb).symm
  · cases hb

theorem Spared.kernel_leaf (h : Spared W g s g' s') (hw : World A g s)
    (hkW : ∀ x, ¬ W (.table s.kernelPgtbl x))
    (v : Nat) : leaf s'.mem s.kernelPgtbl v = leaf s.mem s.kernelPgtbl v := by
  refine hw.heap.leaf_frame hw.kernel fun q x hq => ?_
  exact (h q (hw.heap.table_page hq).1 (hq ▸ hkW x)).2

theorem Spared.trapframe {a : Nat} (h : Spared W g s g' s') (hw : World A g s)
    (ha : g.own a = .trapframe q)
    (hW : ¬ W (.trapframe q)) : g'.own a = .trapframe q := by
  have hpage := hw.heap.page_of_own ha Use.noConfusion
  exact (h a hpage.1 (ha ▸ hW)).1.trans ha

theorem trampoline_ne_kstack (p : ProcId) : trampolineVpn ≠ kstackVpn p := by
  unfold kstackVpn kstackVa trampolineVpn trapframeVa trampolineVa vaMax pgSize
  have := p.isLt
  omega

/-! ## Work on the memory of one process -/

/-- The process works on its own pages; the records of the others do not change. -/
theorem Tenancy.served (h : Tenancy g s) (hw : World s.InUse g' s') (hsp : Spared W g s g' s')
    (hW : ∀ q u, q ≠ p → s.InUse q → TenantUse (s.procs q).pgtbl q u → ¬ W u)
    (hkW : ∀ x, ¬ W (.table s.kernelPgtbl x)) (hk : s'.kernelPgtbl = s.kernelPgtbl)
    (hrec : ∀ q, q ≠ p → s'.procs q = s.procs q)
    (hst : (s'.procs p).state = (s.procs p).state) (hused : s.InUse p)
    (hpaged : s'.Paged) (hub : (s'.procs p).ustackBase % pgSize = 0) : Served p g s g' s' := by
  have hstate : ∀ q, (s'.procs q).state = (s.procs q).state := by
    intro q
    by_cases hq : q = p
    · rw [hq, hst]
    · rw [hrec q hq]
  have hin : ∀ q, s'.InUse q ↔ s.InUse q := by
    intro q
    unfold Kernel.InUse
    rw [hstate]
  have hleaf := hsp.kernel_leaf h.world hkW
  have hother : ∀ q, (s'.procs q).state = .unused → q ≠ p := by
    rintro q hq rfl
    exact hused ((hstate q).symm.trans hq)
  refine ⟨⟨hw.anti fun q hq => (hin q).mp hq, fun q hq => ?_, fun q hq => ?_, fun q hq =>
    ?_, ?_, hpaged, fun q hq => ?_⟩,
    fun hp => (hin p).mpr hp, fun hf q hqp hq => ?_, fun q hqp ha => ⟨?_, ?_⟩⟩
  · rw [hrec q (hother q hq)]
    exact h.vacant q ((hstate q).symm.trans hq)
  · rw [hk, hleaf]
    exact h.unstacked q ((hstate q).symm.trans hq)
  · unfold Stacked
    rw [hk, hleaf]
    exact h.stacked q ((hin q).mp hq)
  · rw [hk, hleaf]
    exact h.trampoline
  · by_cases hqp : q = p
    · rw [hqp]
      exact hub
    · rw [hrec q hqp]
      exact h.stackBase q ((hin q).mp hq)
  · rw [hrec q hqp]
    exact hsp.trapframe h.world (hf q hqp ((hin q).mp hq)) (hW q _ hqp ((hin q).mp hq) .trapframe)
  · rw [hrec q hqp]
    exact ha
  · exact hsp.untouched h.world (by rw [hrec q hqp]) fun u hu => hW q u hqp ha.1 hu

/-- Work that touches the pages of `p` and free pages. -/
theorem Tenancy.built (h : Tenancy g s) (hp : s.InUse p) (hw : World s.InUse g' s')
    (hsp : Spared (BuildUse (s.procs p).pgtbl p) g s g' s') (hk : s'.kernelPgtbl = s.kernelPgtbl)
    (hrec : ∀ q, q ≠ p → s'.procs q = s.procs q) (hst : (s'.procs p).state = (s.procs p).state)
    (hpaged : s'.Paged) (hub : (s'.procs p).ustackBase = (s.procs p).ustackBase) :
    Served p g s g' s' :=
  h.served hw hsp (fun _ _ hqp hq hu => h.world.uses_apart hp hq hqp hu)
    (h.world.kernel_apart hp) hk hrec hst hp hpaged
    (by rw [hub]; exact h.stackBase p hp)

/-- A write into a page of `p`. -/
theorem Tenancy.write {a : Nat} (h : Tenancy g s) (hp : s.InUse p) (ha : a % pgSize = 0)
    (hown : g.own a = .trapframe p ∨ ∃ v, g.own a = .frame (s.procs p).pgtbl v)
    (hm : Inside a s.mem m) :
    Served p g s g (s.setMem m) := by
  have hd : (g.own a).IsData ∧ BuildUse (s.procs p).pgtbl p (g.own a) := by
    rcases hown with ho | ⟨v, ho⟩
    · rw [ho]
      exact ⟨trivial, .inr rfl⟩
    · rw [ho]
      exact ⟨trivial, .inl (.frame v)⟩
  exact h.built hp (h.world.write_page ha hd.1 hm)
    (spared_write ha hd.2 hm) rfl (fun _ _ => rfl) rfl
    (paged_of_nodes h.paged rfl) rfl

/-! ## Work on the process table -/

/-- The states differ in locks other than those of the pools and in the process table. -/
def Kernel.untabled (s : Kernel) : Kernel :=
  { s with
    locks := fun lk => match lk with
      | .pmem k => s.locks (.pmem k)
      | _ => false
    procs := fun p => (s.procs p).kept }

theorem untabled_same (h : s'.untabled = s.untabled) : SameMem s s' where
  mem := (congrArg Kernel.mem h :)
  region k := by
    cases k with
    | false => exact (congrArg Kernel.user h :)
    | true => exact (congrArg Kernel.kern h :)
  lock k := (congrFun (congrArg Kernel.locks h) (.pmem k) :)
  allocBegin := (congrArg Kernel.allocBegin h :)
  trampoline := (congrArg Kernel.trampoline h :)
  etext := (congrArg Kernel.etext h :)
  kernelPgtbl := (congrArg Kernel.kernelPgtbl h :)

theorem untabled_kept (h : s'.untabled = s.untabled) (q : ProcId) :
    (s'.procs q).kept = (s.procs q).kept :=
  (congrFun (congrArg Kernel.procs h) q :)

/-- Only the process table changes; slots are neither taken nor given back. -/
theorem Tenancy.tabled (h : Tenancy g s) (hs : s'.untabled = s.untabled)
    (hused : ∀ q, (s'.procs q).state = .unused ↔ (s.procs q).state = .unused)
    (hzombie : ∀ q, (s'.procs q).state = .zombie →
      (s.procs q).state = .zombie ∨ g.own (s.procs q).tf = .trapframe q)
    (halive : ∀ q, q ≠ p → (s.procs q).entry.Alive → (s'.procs q).entry.Alive) :
    Served p g s g s' := by
  have hsame := untabled_same hs
  have hkept := untabled_kept hs
  have hin : ∀ q, s'.InUse q ↔ s.InUse q := fun q => not_congr (hused q)
  have hw : World s.InUse g s' := by
    refine h.world.same hsame (fun q => kept_kstack (hkept q)) fun q hq => ?_
    exact ⟨kept_pgtbl (hkept q), kept_tf (hkept q), hzombie q⟩
  have hleaf : ∀ v, leaf s'.mem s'.kernelPgtbl v = leaf s.mem s.kernelPgtbl v := by
    intro v
    rw [hsame.mem, hsame.kernelPgtbl]
  refine ⟨⟨hw.anti fun q hq => (hin q).mp hq, fun q hq => ?_, fun q hq => ?_, fun q hq =>
    ?_, ?_, ?_, fun q hq => ?_⟩,
    fun hp => (hin p).mpr hp, fun hf q hqp hq => ?_, fun q hqp ha => ⟨halive q hqp ha, ?_⟩⟩
  · rw [kept_tf (hkept q), kept_pgtbl (hkept q)]
    exact h.vacant q ((hused q).mp hq)
  · rw [hleaf]
    exact h.unstacked q ((hused q).mp hq)
  · unfold Stacked
    rw [hleaf]
    exact h.stacked q ((hin q).mp hq)
  · rw [hleaf]
    exact h.trampoline
  · exact paged_of_nodes h.paged (congrArg Kernel.nodes hs :)
  · rw [show (s'.procs q).ustackBase =
      (s.procs q).ustackBase from (congrArg Proc.ustackBase (hkept q) :)]
    exact h.stackBase q ((hin q).mp hq)
  · rw [kept_tf (hkept q)]
    exact hf q hqp ((hin q).mp hq)
  · refine ⟨hkept q, fun _ _ => rfl, fun a _ i _ => ?_⟩
    rw [hsame.mem]

theorem untabled_setLock {b : Bool} (hlk : ∀ k, lk ≠ .pmem k) :
    (s.setLock lk b).untabled = s.untabled := by
  unfold Kernel.untabled
  congr 1
  funext l
  cases l with
  | pmem k => exact Function.update_of_ne (Ne.symm (hlk k)) _ _
  | mmapList => rfl
  | pid => rfl
  | wait => rfl
  | proc p => rfl
  | object a => rfl

/-- A lock that is not one of the pools is taken or released. -/
theorem Tenancy.setLock {b : Bool} (h : Tenancy g s) (hlk : ∀ k, lk ≠ .pmem k) :
    Served p g s g (s.setLock lk b) :=
  h.tabled (untabled_setLock hlk) (fun _ => Iff.rfl) (fun _ => .inl) fun _ _ ha => ha

end

end WhuOs.Mem
