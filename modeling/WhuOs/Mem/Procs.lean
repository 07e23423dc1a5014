import WhuOs.Mem.Calls

/-! # Processes come and go

`proc_free` and `proc_alloc` around the invariant: a process that is set up or taken
down is outside the set of the invariant, and the pages of all others are left alone.
-/

namespace WhuOs.Mem

open Prog Bytes

/-- The uses that the set-up or the removal of process `p` touches; `k` is the root of the kernel's
table and `r` its own. -/
inductive OwnUse (k r : Nat) (p : ProcId) : Use → Prop
  | user {u : Use} (h : UserUse r u) : OwnUse k r p u
  | trapframe : OwnUse k r p (.trapframe p)
  | kstack : OwnUse k r p (.kstack p)
  | kernel (x : List Nat) : OwnUse k r p (.table k x)

def Stacked (s : Kernel) (p : ProcId) : Prop :=
  ∃ q, q % pgSize = 0 ∧ q < physTop ∧ leaf s.mem s.kernelPgtbl (kstackVpn p) =
    mapPte q (pteR ||| pteW) 0

def Proc.vacant (x : Proc) : Proc :=
  { x with tf := 0, pgtbl := 0, mmap := none, pid := 0, parent := none, exitState := 0, sleepSpace := none
           heapTop := 0, ustackBase := 0, ustackPages := 0, state := .unused }

def Kernel.unlisted (s : Kernel) : Option NodeId → Kernel
  | none => s
  | some n => s.returned n

/-- A process outside the set that has pages of its own. -/
structure Apart (A : ProcId → Prop) (g : Ledger) (s : Kernel) (p : ProcId) : Prop where
  out : ¬ A p
  trapframe : g.own (s.procs p).tf = .trapframe p
  space : Space g s (s.procs p).pgtbl (s.procs p).tf
  user : (s.procs p).pgtbl ≠ s.kernelPgtbl
  alone : ∀ q, A q → (s.procs q).pgtbl ≠ (s.procs p).pgtbl
  stack : Stacked s p

/-- `proc_free` is done. -/
structure Departed (A : ProcId → Prop) (p : ProcId) (g : Ledger) (s : Kernel)
    (g' : Ledger) (s' : Kernel) :
    Prop where
  world : World A g' s'
  spared : Spared (OwnUse s.kernelPgtbl (s.procs p).pgtbl p) g s g' s'
  rest : s'.rest = ((s.unlisted (s.procs p).mmap).setProc p (s.procs p).vacant).rest
  kernel : ∀ v < vaPages, leaf s'.mem s.kernelPgtbl v = if v = kstackVpn p then 0
    else leaf s.mem s.kernelPgtbl v

/-- `proc_alloc` is done: the lock of the process is held. -/
structure Arrived (A : ProcId → Prop) (p : ProcId) (g : Ledger) (s : Kernel)
    (g' : Ledger) (s' : Kernel) :
    Prop where
  world : World A g' s'
  apart : Apart A g' s' p
  spared : Spared (OwnUse s.kernelPgtbl (s'.procs p).pgtbl p) g s g' s'
  rest : ∃ tf pgtbl, s'.rest =
    ((({ s with globalPid := s.globalPid + 1 }).setLock (.proc p) true).setProc p
      { s.procs p with pid := s.globalPid, state := .runnable, tf := tf, pgtbl := pgtbl }).rest
  leaf : ∀ v < vaPages, leaf s'.mem (s'.procs p).pgtbl v =
    if v = trapframeVpn then trapframePte (s'.procs p).tf
      else if v = trampolineVpn then trampolinePte s else 0
  kernel : ∀ v < vaPages, v ≠ kstackVpn p →
    Mem.leaf s'.mem s.kernelPgtbl v = Mem.leaf s.mem s.kernelPgtbl v
  user : (g.free false).length ≤ (g'.free false).length + 1
  used : (g.free true).length ≤ (g'.free true).length + 4

section

variable {A : ProcId → Prop} {g g' g'' : Ledger} {s s' s'' : Kernel} {p q : ProcId}
  {r t v n : Nat} {x : Proc}
  {W : Use → Prop} {G : Event → Prop} {E : Panic → Prop}

/-! ## Uses of one process -/

theorem OwnUse.table_root {k r' : Nat} {y : List Nat} (h : OwnUse k r p (.table r' y)) :
    r' = r ∨ r' = k := by
  cases h with
  | user h => exact .inl ((UserUse.onRoot r).table _ _ h)
  | kernel => exact .inr rfl

theorem OwnUse.frame_root {k r' : Nat} (h : OwnUse k r p (.frame r' v)) : r' = r := by
  cases h with
  | user h => exact (UserUse.onRoot r).frame _ _ h

/-- Any change of a process outside the set that keeps its kernel stack. -/
theorem ne_of_out (hp : ¬ A p) (hq : A q) : q ≠ p := by
  rintro rfl
  exact hp hq

theorem World.setOut (h : World A g s) (hp : ¬ A p) (hk : x.kstack = (s.procs p).kstack) :
    World A g (s.setProc p x) :=
  h.setProc hk fun hc => absurd hc hp

theorem setProc_self (s : Kernel) (p : ProcId) (x : Proc) : (s.setProc p x).procs p = x := by
  rw [setProc_procs, Function.update_self]

theorem setProc_other (s : Kernel) (x : Proc) (h : q ≠ p) :
    (s.setProc p x).procs q = s.procs q := by
  rw [setProc_procs, Function.update_of_ne h]

theorem setProc_setProc (s : Kernel) (p : ProcId) (x y : Proc) :
    (s.setProc p x).setProc p y = s.setProc p y := by
  unfold Kernel.setProc
  rw [Function.update_idem]

theorem rest_setProc (s : Kernel) (p : ProcId) (x : Proc) :
    (s.setProc p x).rest = s.rest.setProc p x := rfl

theorem sameMem_setProc (s : Kernel) (p : ProcId) (x : Proc) : SameMem s (s.setProc p x) :=
  ⟨rfl, fun _ => rfl, fun _ => rfl, rfl, rfl, rfl, rfl⟩

/-! ## `proc_free` -/

/-- The trap frame, if there is one, goes back to the kernel's pool. -/
theorem freeTrapframe_sat {Q : Unit → Kernel → Prop} (h : World A g s) (hout : ¬ A p)
    (htf : (s.procs p).tf = 0 ∨ g.own (s.procs p).tf = .trapframe p)
    (hQ : ∀ g' s', World A g' s' → Framed (fun u => u = .trapframe p ∨ ∃ k, u = .free k) g s g' s' →
      Q () (s'.setProc p { s.procs p with tf := 0 })) :
    Sat (freeTrapframe p) s (fun _ => True) Q E := by
  unfold freeTrapframe
  rw [sat_bind, sat_procOf]
  rcases htf with hz | hown
  · rw [if_neg (not_not_intro hz)]
    exact sat_modifyProc.mpr (hQ g s h (.refl _ _ _))
  have hpage := h.heap.page_of_own hown Use.noConfusion
  have hdead : ¬ g.Live 1 := fun hc => absurd (h.heap.table_page hc).1 (by decide)
  rw [if_pos (Nat.pos_iff_ne_zero.mp hpage.2), sat_bind, sat_procOf, sat_bind]
  refine freePage_sat (r := 1) (W := fun u => u = .trapframe p ∨ ∃ k, u = .free k) h.heap h.homed
    (by rw [hown]; exact Use.noConfusion) (h.homed.home _ _ (by rw [hown]; rfl))
    (fun j hj => by rw [hown] at hj; cases hj) (fun r x hx => by rw [hown] at hx; cases hx) hdead
      (.inl hown)
    (.inr ⟨true, rfl⟩) fun g' s' hg _ => ?_
  rw [sat_modifyProc, rest_procs hg.framed.rest]
  refine hQ g' s' (h.frameData hg.framed hg.heap hg.homed ?_ ?_ ?_ ?_) hg.framed
  · rintro r x (hc | ⟨k, hc⟩) <;> cases hc
  · rintro r v (hc | ⟨k, hc⟩) <;> cases hc
  · rintro q (hc | ⟨k, hc⟩) <;> cases hc
  · rintro q hq (hc | ⟨k, hc⟩)
    · obtain rfl := Use.trapframe.inj hc
      exact hout hq
    · cases hc

/-- The address space of a process outside the set, if there is one, is given back. -/
theorem freePgtbl_sat {Q : Unit → Kernel → Prop} (h : World A g s)
    (hsp : (s.procs p).pgtbl = 0 ∨ ∃ t, Space g s (s.procs p).pgtbl t)
    (huser : (s.procs p).pgtbl ≠ s.kernelPgtbl)
    (halone : ∀ q, A q → (s.procs q).pgtbl ≠ (s.procs p).pgtbl)
    (hQ : ∀ g' s', World A g' s' → Framed (RootUse (s.procs p).pgtbl) g s g' s' →
      Q () (s'.setProc p { s.procs p with pgtbl := 0 })) :
    Sat (freePgtbl p) s (fun _ => True) Q E := by
  unfold freePgtbl
  rw [sat_bind, sat_procOf]
  rcases hsp with hz | ⟨t, hsp⟩
  · rw [if_neg (not_not_intro hz)]
    exact sat_modifyProc.mpr (hQ g s h (.refl _ _ _))
  have hpos := (h.heap.table_page hsp.live).2
  rw [if_pos (Nat.pos_iff_ne_zero.mp hpos), sat_bind, sat_procOf, sat_bind]
  refine uvmDestroyPgtbl_sat hsp fun g' s' hg hno => ?_
  rw [sat_modifyProc, rest_procs hg.framed.rest]
  exact hQ g' s' (h.gone huser halone hg hno) hg.framed

theorem Stacked.unmappable (h : Stacked s p) (hw : World A g s) :
    Unmappable s s.kernelPgtbl true (kstackVpn p) := by
  obtain ⟨q, hq, hlt, hleaf⟩ := h
  have hval : hasFlag (leaf s.mem s.kernelPgtbl (kstackVpn p)) pteV = true := by
    rw [hleaf]
    exact mapPte_valid (by decide)
  have hown := hw.kstack p hval
  refine ⟨kstackVpn_lt p, hval, ?_, fun _ => hw.homed.lt hown rfl⟩
  rw [hleaf]
  exact fun hc => absurd ((trapframePte_flags q).symm.trans hc) (by decide)

/-- The kernel stack is unmapped and its page given back. -/
theorem freeKstack_sat {Q : Unit → Kernel → Prop} (h : World A g s)
    (hE : ¬ Unmappable s s.kernelPgtbl true (kstackVpn p) → ∀ e, E e)
    (hQ : Unmappable s s.kernelPgtbl true (kstackVpn p) → ∀ g' s', World A g' s' →
      Unmapped s.kernelPgtbl (kstackVpn p) 1 (fun u => u = .kstack p) g s g' s' → Q () s') :
    Sat (freeKstack p) s (fun _ => True) Q E := by
  have hva : (s.procs p).kstack = kstackVpn p * pgSize :=
    (h.kstackVa p).trans (kstackVpn_mul p).symm
  have hne : (s.procs p).kstack ≠ 0 := by
    rw [h.kstackVa p]
    have hp := p.isLt
    unfold kstackVa trapframeVa trampolineVa vaMax pgSize
    omega
  have hone : ∀ v', kstackVpn p ≤ v' → v' < kstackVpn p + 1 → v' = kstackVpn p :=
    fun v' h1 h2 => by omega
  unfold freeKstack
  rw [sat_bind, sat_procOf, if_pos hne, sat_bind, sat_state, sat_bind, sat_procOf, hva]
  refine vmUnmappages_sat (n := 1) (D := fun u => u = .kstack p) h.heap h.kernel ?_ rfl ?_
    (fun _ _ _ _ _ => trivial)
    (fun _ => ⟨fun v' h1 h2 hok => ?_, fun v₁ v₂ h1 h2 h3 h4 _ _ _ => ?_⟩)
    fun hall g' s' hu => hQ (hall _ (Nat.le_refl _) (Nat.lt_succ_self _)) g' s' (h.unstack hu) hu
  · have hlt := kstackVpn_lt p
    unfold vaPages vaMax pgSize at *
    omega
  · rintro ⟨v', h1, h2, hbad⟩
    rw [hone v' h1 h2] at hbad
    exact hE hbad
  · rw [hone v' h1 h2] at hok ⊢
    rw [h.kstack p hok.valid]
    exact ⟨trivial, rfl⟩
  · rw [hone v₁ h1 h2, hone v₂ h3 h4]

theorem unlisted_setProc (s : Kernel) (l : Option NodeId) (p : ProcId) (x : Proc) :
    (s.setProc p x).unlisted l = (s.unlisted l).setProc p x := by
  cases l <;> rfl

theorem rest_unlisted (s : Kernel) (l : Option NodeId) :
    (s.unlisted l).rest = s.rest.unlisted l := by
  cases l <;> rfl

theorem unlisted_procs (s : Kernel) (l : Option NodeId) : (s.unlisted l).procs = s.procs := by
  cases l <;> rfl

theorem unlisted_mem (s : Kernel) (l : Option NodeId) : (s.unlisted l).mem = s.mem := by
  cases l <;> rfl

theorem unlisted_locks (s : Kernel) (l : Option NodeId) : (s.unlisted l).locks = s.locks := by
  cases l <;> rfl

theorem World.unlisted (h : World A g s) (l : Option NodeId) : World A g (s.unlisted l) := by
  cases l with
  | none => exact h
  | some n => exact h.listless rfl

theorem freeMmap_sat {Q : Unit → Kernel → Prop} (hl : s.locks .mmapList = false)
    (hQ : Q () (s.unlisted (s.procs p).mmap)) : Sat (freeMmap p) s (fun _ => True) Q E := by
  unfold freeMmap
  rw [sat_bind, sat_procOf]
  cases hm : (s.procs p).mmap with
  | none =>
      rw [hm] at hQ
      exact (sat_pure _).mpr hQ
  | some n =>
      rw [hm] at hQ
      exact (mmapRegionFree_sat hl).mpr hQ

/-- What a process that was not set up completely has. -/
structure Partial (A : ProcId → Prop) (g : Ledger) (s : Kernel) (p : ProcId) : Prop where
  out : ¬ A p
  trapframe : (s.procs p).tf = 0 ∨ g.own (s.procs p).tf = .trapframe p
  space : (s.procs p).pgtbl = 0 ∨ ∃ t, Space g s (s.procs p).pgtbl t
  user : (s.procs p).pgtbl ≠ s.kernelPgtbl
  alone : ∀ q, A q → (s.procs q).pgtbl ≠ (s.procs p).pgtbl

theorem Apart.partial (h : Apart A g s p) : Partial A g s p :=
  ⟨h.out, .inr h.trapframe, .inr ⟨_, h.space⟩, h.user, h.alone⟩

/-- The memory of a process was given back, except for its kernel stack. -/
structure Emptied (A : ProcId → Prop) (p : ProcId) (g : Ledger) (s : Kernel)
    (g' : Ledger) (s' : Kernel) :
    Prop where
  world : World A g' s'
  spared : Spared (OwnUse s.kernelPgtbl (s.procs p).pgtbl p) g s g' s'
  rest : s'.rest = s.rest.setProc p { s.procs p with tf := 0, pgtbl := 0 }
  kernel : ∀ v, leaf s'.mem s.kernelPgtbl v = leaf s.mem s.kernelPgtbl v

theorem freeMemory_sat {Q : Unit → Kernel → Prop} {m : MemM Unit}
    (h : World A g s) (hp : Partial A g s p)
    (hm : ∀ g' s', Emptied A p g s g' s' → Sat m s' (fun _ => True) Q E) :
    Sat (do freeTrapframe p; freePgtbl p; m) s (fun _ => True) Q E := by
  have hroot :
      ∀ x, ¬ (Use.table (s.procs p).pgtbl x = .trapframe p ∨ ∃ k,
        Use.table (s.procs p).pgtbl x = .free k) := by
    rintro x (hc | ⟨k, hc⟩) <;> cases hc
  rw [sat_bind]
  refine freeTrapframe_sat h hp.out hp.trapframe fun g₁ s₁ hw₁ hf₁ => ?_
  have hprocs₁ := rest_procs hf₁.rest
  have hkern₁ := rest_kernelPgtbl hf₁.rest
  generalize hx₁ : { s.procs p with tf := 0 } = x₁
  have hw₁' : World A g₁ (s₁.setProc p x₁) := hw₁.setOut hp.out (by rw [hprocs₁, ← hx₁])
  have hself₁ := setProc_self s₁ p x₁
  have hroot₁ : x₁.pgtbl = (s.procs p).pgtbl := by rw [← hx₁]
  have hsp₁ : x₁.pgtbl = 0 ∨ ∃ t, Space g₁ (s₁.setProc p x₁) x₁.pgtbl t := by
    rw [hroot₁]
    refine hp.space.imp_right fun ⟨t, ht⟩ => ⟨t, ?_⟩
    refine (ht.frame hf₁ hw₁.heap hw₁.homed hroot ?_).same (sameMem_setProc s₁ p x₁)
    rintro v (hc | ⟨k, hc⟩) <;> cases hc
  rw [sat_bind]
  refine freePgtbl_sat hw₁' (by rw [hself₁]; exact hsp₁) ?_ (fun q hq => ?_) fun g₂ s₂ hw₂ hf₂ => ?_
  · rw [hself₁, hroot₁, setProc_kernelPgtbl, hkern₁]
    exact hp.user
  · have hqp : q ≠ p := fun hc => hp.out (hc ▸ hq)
    rw [hself₁, hroot₁, setProc_other s₁ x₁ hqp, hprocs₁]
    exact hp.alone q hq
  rw [hself₁] at hf₂ ⊢
  rw [hroot₁] at hf₂
  have hprocs₂ := rest_procs hf₂.rest
  have hx₂ : { x₁ with pgtbl := 0 } =
    ({ s.procs p with tf := 0, pgtbl := 0 } : Proc) := by rw [← hx₁]
  refine hm g₂ _ ⟨hw₂.setOut hp.out ?_, ?_, ?_, fun v => ?_⟩
  · rw [hprocs₂, hself₁]
  · have hs₁ : Spared (OwnUse s.kernelPgtbl (s.procs p).pgtbl p) g s g₁ (s₁.setProc p x₁) := by
      refine hf₁.spared.mono fun u hu => ?_
      rcases hu with rfl | ⟨k, rfl⟩
      · exact .trapframe
      · exact .user (.free k)
    have hs₂ : Spared (OwnUse s.kernelPgtbl (s.procs p).pgtbl p) g₁ (s₁.setProc p x₁) g₂ s₂ :=
      hf₂.spared.mono fun u hu => .user hu.user
    exact hs₁.trans hs₂
  · rw [rest_setProc, hf₂.rest, rest_setProc, hf₁.rest, setProc_setProc, hx₂]
  · have hne : ∀ x, ¬ RootUse (s.procs p).pgtbl (.table s.kernelPgtbl x) :=
      fun x hc => hp.user ((UserUse.onRoot _).table _ _ hc.user).symm
    have h1 := hf₁.leaf (v := v) h.heap h.kernel (by rintro x (hc | ⟨k, hc⟩) <;> cases hc)
    exact (hf₂.leaf (v := v) hw₁'.heap (hkern₁ ▸ hw₁.kernel) hne).trans h1

theorem procFree_sat {Q : Unit → Kernel → Prop} (h : World A g s) (hp : Apart A g s p)
    (hlist : s.locks .mmapList = false) (hQ : ∀ g' s', Departed A p g s g' s' → Q () s') :
    Sat (procFree p) s (fun _ => True) Q E := by
  unfold procFree
  refine freeMemory_sat h hp.partial fun g₂ s₂ h₂ => ?_
  generalize hx₂ : { s.procs p with tf := 0, pgtbl := 0 } = x₂
  have hrest₂ := h₂.rest
  rw [hx₂] at hrest₂
  have hkern₂ : s₂.kernelPgtbl = s.kernelPgtbl := (congrArg Kernel.kernelPgtbl hrest₂ :)
  have hst₂ : Stacked s₂ p := by
    obtain ⟨q, hq, hlt, he⟩ := hp.stack
    refine ⟨q, hq, hlt, ?_⟩
    rw [hkern₂, h₂.kernel, he]
  rw [sat_bind]
  refine freeKstack_sat h₂.world (fun hc => absurd (hst₂.unmappable h₂.world) hc)
    fun _ g₃ s₃ hw₃ hu₃ => ?_
  rw [hkern₂] at hu₃
  have hrest₃ : s₃.rest = s.rest.setProc p x₂ := hu₃.framed.rest.trans hrest₂
  have hprocs₃ : s₃.procs = Function.update s.procs p x₂ := (congrArg Kernel.procs hrest₃ :)
  have hlist₃ : s₃.locks .mmapList = false := by
    rw [show s₃.locks = s.locks from (congrArg Kernel.locks hrest₃ :)]
    exact hlist
  rw [sat_bind]
  refine freeMmap_sat hlist₃ ?_
  have hmm : (s₃.procs p).mmap = (s.procs p).mmap := by rw [hprocs₃, Function.update_self, ← hx₂]
  rw [hmm, sat_modifyProc]
  have hself₃ : (s₃.unlisted (s.procs p).mmap).procs p = x₂ := by
    rw [unlisted_procs, hprocs₃, Function.update_self]
  have hvac : ({ x₂ with mmap := none, pid := 0, parent := none, exitState := 0, sleepSpace := none, heapTop := 0
                         ustackBase := 0, ustackPages := 0, state := .unused } : Proc) = (s.procs p).vacant := by
    rw [← hx₂]
    rfl
  rw [hself₃, hvac]
  refine hQ g₃ _ ⟨(hw₃.unlisted _).setOut hp.out ?_, ?_, ?_, fun v hv => ?_⟩
  · rw [hself₃, ← hvac]
  · have hs₃ : Spared (OwnUse s.kernelPgtbl (s.procs p).pgtbl p) g₂ s₂ g₃ s₃ := by
      refine hu₃.framed.spared.mono fun u hu => ?_
      cases hu with
      | free k => exact .user (.free k)
      | table x => exact .kernel x
      | frame hu => exact hu ▸ .kstack
    intro q hq hw
    obtain ⟨h1, h2⟩ := (h₂.spared.trans hs₃) q hq hw
    refine ⟨h1, fun i hi => ?_⟩
    rw [setProc_mem, unlisted_mem]
    exact h2 i hi
  · rw [rest_setProc, rest_unlisted, hrest₃, unlisted_setProc, setProc_setProc,
      rest_setProc, rest_unlisted]
  · rw [setProc_mem, unlisted_mem, hu₃.leaf v hv, h₂.kernel]
    by_cases hvk : v = kstackVpn p
    · rw [if_pos (by omega), if_pos hvk]
    · rw [if_neg (by omega), if_neg hvk]

/-- `proc_free` on a process without a kernel stack does not return. -/
theorem procFree_unstacked {Q : Unit → Kernel → Prop} (h : World A g s) (hp : Partial A g s p)
    (hst : leaf s.mem s.kernelPgtbl (kstackVpn p) = 0) (hE : ∀ e, E e) :
    Sat (procFree p) s (fun _ => True) Q E := by
  unfold procFree
  refine freeMemory_sat h hp fun g₂ s₂ h₂ => ?_
  have hkern₂ : s₂.kernelPgtbl = s.kernelPgtbl := (congrArg Kernel.kernelPgtbl h₂.rest :)
  have hbad : ¬ Unmappable s₂ s₂.kernelPgtbl true (kstackVpn p) := by
    intro hc
    have hv := hc.valid
    rw [hkern₂, h₂.kernel, hst, hasFlag_zero] at hv
    cases hv
  rw [sat_bind]
  exact freeKstack_sat h₂.world (fun _ => hE) fun hc => absurd hc hbad

/-! ## `proc_alloc` -/

theorem findUnused_sat {Q : Option ProcId → Kernel → Prop} (ps : List ProcId)
    (hlk : ∀ p ∈ ps, s.locks (.proc p) = false)
    (hnone : (∀ p ∈ ps, (s.procs p).state ≠ .unused) → Q none s)
    (hQ : ∀ l p l', ps = l ++ p :: l' → (∀ q ∈ l, (s.procs q).state ≠ .unused) → (s.procs p).state = .unused →
      Q (some p) (s.setLock (.proc p) true)) : Sat (findUnused ps) s G Q E := by
  induction ps with
  | nil => exact (sat_pure _).mpr (hnone fun _ hc => absurd hc List.not_mem_nil)
  | cons p ps ih =>
      unfold findUnused
      have hfree := hlk p List.mem_cons_self
      rw [sat_bind, sat_acquire hfree, sat_bind, sat_procOf, setLock_procs]
      by_cases hst : (s.procs p).state = .unused
      · rw [if_pos hst, sat_pure]
        exact hQ [] p ps rfl (fun _ hc => absurd hc List.not_mem_nil) hst
      · rw [if_neg hst, sat_bind, sat_release (by simp), setLock_restore hfree]
        refine ih (fun q hq => hlk q (List.mem_cons_of_mem _ hq)) (fun hall => hnone ?_) fun l q l' hl hbefore hq => ?_
        · intro q hq
          rcases List.mem_cons.mp hq with rfl | hq
          · exact hst
          · exact hall q hq
        · refine hQ (p :: l) q l' (by rw [hl, List.cons_append]) (fun q' hq' => ?_) hq
          rcases List.mem_cons.mp hq' with rfl | hq'
          · exact hst
          · exact hbefore q' hq'

/-- The first unused process of the table. -/
theorem first_unused {l l' : List ProcId} (h : allProcs = l ++ p :: l') (hq : q < p) : q ∈ l := by
  have hmem : q ∈ l ++ p :: l' := h ▸ List.mem_finRange q
  have hsort : (l ++ p :: l').Pairwise (· < ·) := h ▸ List.pairwise_lt_finRange 64
  rcases List.mem_append.mp hmem with hl | hl
  · exact hl
  · rcases List.mem_cons.mp hl with rfl | hl
    · exact absurd hq (lt_irrefl _)
    · have hlt := (List.pairwise_cons.mp (List.pairwise_append.mp hsort).2.1).1 q hl
      exact absurd (lt_trans hq hlt) (lt_irrefl _)

theorem allocPid_sat {Q : Nat → Kernel → Prop} (hlk : s.locks .pid = false)
    (hE : 2 ^ 31 ≤ s.globalPid → E .allocPid)
    (hQ : s.globalPid < 2 ^ 31 → Q s.globalPid { s with globalPid := s.globalPid + 1 }) :
    Sat allocPid s G Q E := by
  unfold allocPid
  rw [sat_bind, sat_acquire hlk, sat_bind, sat_state, sat_bind]
  have hpid : (s.setLock .pid true).globalPid = s.globalPid := rfl
  rw [hpid]
  by_cases hlt : s.globalPid < 2 ^ 31
  · rw [sat_assert (decide_eq_true hlt), sat_bind, sat_modify, sat_bind,
      sat_release (by simp), sat_pure]
    have hback :
    ({ s.setLock .pid true with globalPid := s.globalPid + 1 } : Kernel).setLock .pid false =
        { s with globalPid := s.globalPid + 1 } :=
      setLock_restore (s := { s with globalPid := s.globalPid + 1 }) hlk
    rw [hback]
    exact hQ hlt
  · have hfail : Sat (assert (decide (s.globalPid < 2 ^ 31)) .allocPid) (s.setLock .pid true) G
        (fun _ _ => False) E := by
      refine sat_assert_any (hE (Nat.not_lt.mp hlt)) fun hc => hlt (of_decide_eq_true hc)
    exact hfail.imp fun _ _ hc => hc.elim

/-- A page that is neither a table nor a frame is taken from a pool. -/
theorem World.granted {k : Bool} {u : Use} {q : Nat} (h : World A g s)
    (hg : Granted g s k u q g' s') (hq : q ≠ 0)
    (hu : u.IsData) (hhome : u.home = some k) (hfr : ∀ r v, u ≠ .frame r v)
    (htf : ∀ p, A p → u ≠ .trapframe p) :
    World A g' s' ∧ Framed (fun w => w = u ∨ w = .free k) g s g' s' := by
  cases hg with
  | none _ => exact absurd rfl hq
  | some pos lt was length heap mem rest =>
  have hf : Framed (fun w => w = u ∨ w = .free k) g s (g.grant k q u) s' :=
    Framed.grant was (.inl rfl) (.inr rfl) mem rest
  have htable : ∀ r x, ¬ (Use.table r x = u ∨ Use.table r x = .free k) := by
    rintro r x (rfl | hc)
    · exact hu
    · cases hc
  have hhomed : Homed (g.grant k q u) s' :=
    (h.homed.of_rest rest).move rfl hu (.inl (by rw [was, hhome]; rfl))
  refine ⟨h.frameKernel hf heap hhomed (fun r x hx => absurd hx (htable r x))
    (fun r v hx => ?_) (fun p ha hx => ?_)
    (hf.live h.kernel (htable _ _)) (hf.tops h.heap (htable _) (h.tops _ h.kernel)) fun p => ?_, hf⟩
  · rcases hx with hx | hx
    · exact hfr r v hx.symm
    · cases hx
  · rcases hx with hx | hx
    · exact htf p ha hx.symm
    · cases hx
  · rw [mem]
    intro hv
    have hown := h.kstack p hv
    rw [Ledger.grant_own_ne, hown]
    intro hc
    rw [hc, was] at hown
    cases hown

theorem World.pgtbl_pos (h : World A g s) (ha : A p) : (s.procs p).pgtbl ≠ 0 :=
  Nat.pos_iff_ne_zero.mp (h.heap.table_page (h.proc p ha).space.live).2

theorem World.kernel_pos (h : World A g s) : s.kernelPgtbl ≠ 0 :=
  Nat.pos_iff_ne_zero.mp (h.heap.table_page h.kernel).2

/-- A set-up that failed does not return. -/
theorem abandonProc_sat {Q : Option ProcId → Kernel → Prop} (h : World A g s) (hp : Partial A g s p)
    (hst : leaf s.mem s.kernelPgtbl (kstackVpn p) = 0) (hE : ∀ e, E e) :
    Sat (abandonProc p) s (fun _ => True) Q E := by
  unfold abandonProc
  rw [sat_bind]
  exact procFree_unstacked h hp hst hE

/-- The kernel's table has the table page for all kernel stacks. -/
theorem kstack_low (p : ProcId) : kstackVpn p / 512 = trampolineVpn / 512 := by
  have hp := p.isLt
  unfold kstackVpn kstackVa trampolineVpn trapframeVa trampolineVa vaMax pgSize
  omega

/-- The record of a process whose set-up begins, with its lock held. -/
def Kernel.admitted (s : Kernel) (p : ProcId) : Kernel :=
  (({ s with globalPid := s.globalPid + 1 }).setLock (.proc p) true).setProc p
    { s.procs p with pid := s.globalPid, state := .runnable }

theorem World.admitted (h : World A g s) (hp : ¬ A p) : World A g (s.admitted p) := by
  refine h.same ⟨rfl, fun _ => rfl, fun k => ?_, rfl, rfl, rfl, rfl⟩ (fun q => ?_) fun q hq => ?_
  · change Function.update s.locks (.proc p) true (.pmem k) = _
    exact Function.update_of_ne (show Lock.pmem k ≠ .proc p from nofun) _ _
  · by_cases hqp : q = p
    · subst hqp
      unfold Kernel.admitted
      rw [setProc_self]
    · unfold Kernel.admitted
      rw [setProc_other _ _ hqp]
      rfl
  · have hqp : q ≠ p := fun hc => hp (hc ▸ hq)
    have he : (s.admitted p).procs q = s.procs q := by
      unfold Kernel.admitted
      rw [setProc_other _ _ hqp]
      rfl
    rw [he]
    exact ⟨rfl, rfl, .inl⟩

theorem Granted.taken {u : Use} {q : Nat} (h : Granted g s true u q g' s') (hq : q ≠ 0) :
    g'.own q = u ∧ (g.free true).length = (g'.free true).length + 1 ∧
    g'.free false = g.free false := by
  cases h with
  | none => exact absurd rfl hq
  | some pos lt was length =>
      exact ⟨Ledger.grant_own_self, length, Ledger.grant_free_ne (by decide)⟩

/-- No page was left. -/
theorem Granted.empty {k : Bool} {u : Use} (h : Granted g s k u 0 g' s') :
    g.free k = [] ∧ g = g' ∧ s = s' := by
  cases h with
  | some pos => exact absurd pos (Nat.lt_irrefl 0)
  | none hempty => exact ⟨hempty, rfl, rfl⟩

/-! ## The set-up of a process, page by page -/

structure WithFrame (A : ProcId → Prop) (p : ProcId) (g : Ledger) (s : Kernel) (tf : Nat)
    (g' : Ledger) (s' : Kernel) :
    Prop where
  world : World A g' s'
  own : g'.own tf = .trapframe p
  rest : s'.rest = (s.setProc p { s.procs p with tf := tf }).rest
  kernel : ∀ v, leaf s'.mem s.kernelPgtbl v = leaf s.mem s.kernelPgtbl v
  spared : ∀ r, Spared (OwnUse s.kernelPgtbl r p) g s g' s'
  user : g'.free false = g.free false
  used : (g.free true).length = (g'.free true).length + 1

structure WithSpace (A : ProcId → Prop) (p : ProcId) (g : Ledger) (s : Kernel) (tf pgtbl : Nat)
    (g' : Ledger) (s' : Kernel) :
    Prop where
  world : World A g' s'
  own : g'.own tf = .trapframe p
  space : Space g' s' pgtbl tf
  root : pgtbl ≠ s.kernelPgtbl
  alone : ∀ q, A q → (s.procs q).pgtbl ≠ pgtbl
  rest : s'.rest = (s.setProc p { s.procs p with tf := tf, pgtbl := pgtbl }).rest
  leaf : ∀ v < vaPages, leaf s'.mem pgtbl v =
    if v = trapframeVpn then trapframePte tf else if v = trampolineVpn then trampolinePte s else 0
  kernel : ∀ v, Mem.leaf s'.mem s.kernelPgtbl v = Mem.leaf s.mem s.kernelPgtbl v
  spared : Spared (OwnUse s.kernelPgtbl pgtbl p) g s g' s'
  user : (g.free false).length = (g'.free false).length + 1
  used : (g.free true).length ≤ (g'.free true).length + 3

structure SetUp (A : ProcId → Prop) (p : ProcId) (g : Ledger) (s : Kernel) (tf pgtbl : Nat)
    (g' : Ledger) (s' : Kernel) :
    Prop where
  world : World A g' s'
  apart : Apart A g' s' p
  spared : Spared (OwnUse s.kernelPgtbl (s'.procs p).pgtbl p) g s g' s'
  rest : s'.rest = (s.setProc p { s.procs p with tf := tf, pgtbl := pgtbl }).rest
  leaf : ∀ v < vaPages, leaf s'.mem (s'.procs p).pgtbl v =
    if v = trapframeVpn then trapframePte (s'.procs p).tf
      else if v = trampolineVpn then trampolinePte s else 0
  kernel : ∀ v < vaPages, v ≠ kstackVpn p →
    Mem.leaf s'.mem s.kernelPgtbl v = Mem.leaf s.mem s.kernelPgtbl v
  user : (g.free false).length ≤ (g'.free false).length + 1
  used : (g.free true).length ≤ (g'.free true).length + 4

theorem World.withFrame {tf : Nat} (h : World A g s) (hout : ¬ A p)
    (hg : Granted g s true (.trapframe p) tf g' s')
    (htf : tf ≠ 0) : WithFrame A p g s tf g' (s'.setProc p { s'.procs p with tf := tf }) := by
  obtain ⟨hw, hf⟩ := h.granted hg htf trivial rfl (fun r v => Use.noConfusion)
    fun q hq hc => ne_of_out hout hq (Use.trapframe.inj hc).symm
  obtain ⟨hown, hused, huser⟩ := hg.taken htf
  have hprocs := rest_procs hf.rest
  have htable :
    ∀ x, ¬ (Use.table s.kernelPgtbl x = .trapframe p ∨ Use.table s.kernelPgtbl x = .free true) := by
    rintro x (hc | hc) <;> cases hc
  refine ⟨hw.setOut hout rfl, hown, ?_, fun v => hf.leaf h.heap h.kernel htable, fun r =>
    hf.spared.mono fun u hu => ?_,
    huser, hused⟩
  · rw [rest_setProc, hf.rest, hprocs, rest_setProc]
  · rcases hu with rfl | rfl
    · exact .trapframe
    · exact .user (.free true)

section

variable {g₀ : Ledger} {s₀ : Kernel} {tf pgtbl : Nat}

theorem WithFrame.procs (h : WithFrame A p g₀ s₀ tf g s) :
    s.procs = Function.update s₀.procs p { s₀.procs p with tf := tf } :=
      (congrArg Kernel.procs h.rest :)

theorem WithFrame.root (h : WithFrame A p g₀ s₀ tf g s) : s.kernelPgtbl = s₀.kernelPgtbl :=
  (congrArg Kernel.kernelPgtbl h.rest :)

/-- `proc_pgtbl_init` failed: only the trap frame is left. -/
theorem WithFrame.undone (h : WithFrame A p g₀ s₀ tf g s) (hout : ¬ A p) (hu : Undone g s g' s') :
    World A g' (s'.setProc p { s'.procs p with pgtbl := 0 }) ∧
    Partial A g' (s'.setProc p { s'.procs p with pgtbl := 0 }) p ∧
      leaf s'.mem s'.kernelPgtbl (kstackVpn p) = leaf s₀.mem s₀.kernelPgtbl (kstackVpn p) := by
  have hw := h.world.undone hu
  have hrest : s'.rest = s.rest := by
    rcases hu.framed with ⟨-, rfl⟩ | ⟨r, -, hf, -⟩
    · rfl
    · exact hf.rest
  have hown : g'.own tf = .trapframe p := by
    rcases hu.framed with ⟨rfl, -⟩ | ⟨r, -, hf, -⟩
    · exact h.own
    · exact (hf.own_eq (h.own ▸ UserUse.not_trapframe)).trans h.own
  have hprocs := (rest_procs hrest).trans h.procs
  refine ⟨hw.setOut hout rfl, ⟨hout, .inr ?_, .inl ?_, ?_, fun q hq => ?_⟩, ?_⟩
  · rw [setProc_self, hprocs, Function.update_self]
    exact hown
  · rw [setProc_self]
  · rw [setProc_self, setProc_kernelPgtbl]
    exact fun hc => hw.kernel_pos hc.symm
  · rw [setProc_self, setProc_other _ _ (ne_of_out hout hq)]
    exact hw.pgtbl_pos hq
  · rw [rest_kernelPgtbl hrest, ← h.kernel (kstackVpn p), h.root]
    rcases hu.framed with ⟨-, rfl⟩ | ⟨r, hr, hf, -⟩
    · rfl
    · refine hf.leaf h.world.heap (h.root ▸ h.world.kernel) fun x hx => ?_
      exact h.world.kernel_ne hr ((UserUse.onRoot r).table _ _ (h.root ▸ hx)).symm

theorem WithFrame.space (h : WithFrame A p g₀ s₀ tf g s) (hout : ¬ A p)
    (hf : FreshSpace pgtbl tf g s g' s') :
    WithSpace A p g₀ s₀ tf pgtbl g' (s'.setProc p { s'.procs p with pgtbl := pgtbl }) := by
  have hprocs := (rest_procs hf.framed.rest).trans h.procs
  have hroot : pgtbl ≠ s₀.kernelPgtbl := h.root ▸ h.world.kernel_ne hf.was
  have htr : trampolinePte s = trampolinePte s₀ :=
    congrArg (fun a => mapPte a (pteR ||| pteX) 0) (congrArg Kernel.trampoline h.rest :)
  refine ⟨(h.world.fresh hf).setOut hout rfl,
    (hf.framed.own_eq (h.own ▸ UserUse.not_trapframe)).trans h.own,
    hf.space.same (sameMem_setProc s' p _), hroot, fun q hq => ?_, ?_, fun v hv => ?_, fun v => ?_,
    (h.spared pgtbl).trans (hf.framed.spared.mono fun u hu => .user hu), ?_, ?_⟩
  · have hq' := h.world.root_ne hq hf.was
    rwa [h.procs, Function.update_of_ne (ne_of_out hout hq)] at hq'
  · rw [hprocs, Function.update_self, rest_setProc, hf.framed.rest, h.rest, rest_setProc,
      setProc_setProc, rest_setProc]
  · rw [setProc_mem, hf.leaf v hv, htr]
  · refine (hf.framed.leaf h.world.heap (h.root ▸ h.world.kernel) fun x hx => ?_).trans (h.kernel v)
    exact hroot ((UserUse.onRoot pgtbl).table _ _ hx).symm
  · rw [← h.user]
    exact hf.user
  · have hused := h.used
    have hused' := hf.used
    omega

theorem WithSpace.procs (h : WithSpace A p g₀ s₀ tf pgtbl g s) :
    s.procs = Function.update s₀.procs p { s₀.procs p with tf := tf, pgtbl := pgtbl } :=
      (congrArg Kernel.procs h.rest :)

theorem WithSpace.self (h : WithSpace A p g₀ s₀ tf pgtbl g s) :
    s.procs p = { s₀.procs p with tf := tf, pgtbl := pgtbl } := by
  rw [h.procs, Function.update_self]

theorem WithSpace.root_eq (h : WithSpace A p g₀ s₀ tf pgtbl g s) : s.kernelPgtbl = s₀.kernelPgtbl :=
  (congrArg Kernel.kernelPgtbl h.rest :)

theorem WithSpace.incomplete (h : WithSpace A p g₀ s₀ tf pgtbl g s) (hout : ¬ A p) :
    Partial A g s p := by
  refine ⟨hout, .inr ?_, .inr ⟨tf, ?_⟩, ?_, fun q hq => ?_⟩
  · rw [h.self]
    exact h.own
  · rw [h.self]
    exact h.space
  · rw [h.self, h.root_eq]
    exact h.root
  · rw [h.self, h.procs, Function.update_of_ne (ne_of_out hout hq)]
    exact h.alone q hq

/-- The page `pa` is mapped as the kernel stack. -/
theorem WithSpace.stack {g₁ : Ledger} {s₁ : Kernel} {pa : Nat}
    (h : WithSpace A p g₀ s₀ tf pgtbl g s) (hout : ¬ A p)
    (hg : Granted g s true (.kstack p) pa g₁ s₁) (hpa : pa ≠ 0) (hw : World A g₁ s₁)
    (hf : Framed (fun w => w = .kstack p ∨ w = .free true) g s g₁ s₁)
    (he : Edited s₁.kernelPgtbl
      (fun v => if v = kstackVpn p then mapPte pa (pteR ||| pteW) 0
        else Mem.leaf s₁.mem s₁.kernelPgtbl v) 0
      g₁ s₁ g' s') : SetUp A p g₀ s₀ tf pgtbl g' s' := by
  obtain ⟨hown, hfew, hsame⟩ := hg.taken hpa
  have hpage := hw.heap.page_of_own hown Use.noConfusion
  have hroot₁ : s₁.kernelPgtbl = s₀.kernelPgtbl := (rest_kernelPgtbl hf.rest).trans h.root_eq
  have htable : ∀ r x, ¬ (Use.table r x = .kstack p ∨ Use.table r x = .free true) := by
    rintro r x (hc | hc) <;> cases hc
  have hapart : ∀ x, ¬ TableUse s₁.kernelPgtbl (.table pgtbl x) := by
    intro x hx
    cases hx
    exact h.root hroot₁
  have hspace₁ : Space g₁ s₁ pgtbl tf := by
    refine h.space.frame hf hw.heap hw.homed (htable _) ?_
    rintro v (hc | hc) <;> cases hc
  have hspace : Space g' s' pgtbl tf :=
    hspace₁.frame he.framed he.heap (he.homed hw.homed) hapart nofun
  have hrest : s'.rest = (s₀.setProc p { s₀.procs p with tf := tf, pgtbl := pgtbl }).rest :=
    he.framed.rest.trans (hf.rest.trans h.rest)
  have hprocs :
      s'.procs = Function.update s₀.procs p { s₀.procs p with tf := tf, pgtbl := pgtbl } :=
    (congrArg Kernel.procs hrest :)
  have hself :
      s'.procs p =
        { s₀.procs p with tf := tf, pgtbl := pgtbl } := by rw [hprocs, Function.update_self]
  have hroot : s'.kernelPgtbl = s₀.kernelPgtbl := (congrArg Kernel.kernelPgtbl hrest :)
  have hown₁ : g₁.own tf = .trapframe p :=
    (hf.own_eq (h.own ▸ by rintro (hc | hc) <;> cases hc)).trans h.own
  have hown' : g'.own tf = .trapframe p := (he.framed.own_eq (hown₁ ▸ nofun)).trans hown₁
  refine ⟨hw.stack hown he,
    ⟨hout, ?_, ?_, ?_, fun q hq => ?_, pa, hpage.1, (hw.homed.lt hown rfl).2, ?_⟩, ?_, hrest,
    fun v hv => ?_, fun v hv hvk => ?_, ?_, ?_⟩
  · rw [hself]
    exact hown'
  · rw [hself]
    exact hspace
  · rw [hself, hroot]
    exact h.root
  · rw [hself, hprocs, Function.update_of_ne (ne_of_out hout hq)]
    exact h.alone q hq
  · rw [hroot, ← hroot₁, he.leaf _ (kstackVpn_lt p), if_pos rfl]
  · rw [hself]
    have hs₁ : Spared (OwnUse s₀.kernelPgtbl pgtbl p) g s g₁ s₁ := by
      refine hf.spared.mono fun u hu => ?_
      rcases hu with rfl | rfl
      · exact .kstack
      · exact .user (.free true)
    have hs₂ : Spared (OwnUse s₀.kernelPgtbl pgtbl p) g₁ s₁ g' s' := by
      refine he.framed.spared.mono fun u hu => ?_
      cases hu with
      | free => exact .user (.free true)
      | held => exact .user .held
      | table x => exact hroot₁ ▸ .kernel x
    exact (h.spared.trans hs₁).trans hs₂
  · rw [hself]
    exact (he.framed.leaf hspace₁.heap hspace₁.live hapart).trans
      ((hf.leaf h.world.heap h.space.live (htable _)).trans (h.leaf v hv))
  · rw [← hroot₁, he.leaf v hv, if_neg hvk, hroot₁]
    exact (hf.leaf h.world.heap (h.root_eq ▸ h.world.kernel) (htable _)).trans (h.kernel v)
  · rw [he.user, hsame, ← h.user]
  · have hused := h.used
    have hused' := he.used
    omega

end

/-- The pages of a process, set up in this order: trap frame, address space, kernel stack. -/
theorem setUp_sat {Q : Option ProcId → Kernel → Prop} (h : World A g s) (hout : ¬ A p)
    (hzero : (s.procs p).tf = 0 ∧ (s.procs p).pgtbl = 0)
    (hst : ¬ (1 ≤ (g.free false).length ∧ 4 ≤ (g.free true).length) →
      leaf s.mem s.kernelPgtbl (kstackVpn p) = 0)
    (htop : leaf s.mem s.kernelPgtbl trampolineVpn ≠ 0)
    (hE : ¬ (1 ≤ (g.free false).length ∧ 4 ≤ (g.free true).length) → ∀ e, E e)
    (hQ : ∀ g' s' tf pgtbl, SetUp A p g s tf pgtbl g' s' → Q (some p) s') :
    Sat (do
      let tf ← pmemAlloc true
      modifyProc p fun x => { x with tf := tf }
      if tf = 0 then abandonProc p
      else
        let pgtbl ← procPgtblInit tf
        modifyProc p fun x => { x with pgtbl := pgtbl }
        if pgtbl = 0 then abandonProc p
        else
          let kstackPa ← pmemAlloc true
          if kstackPa = 0 then abandonProc p
          else
            vmMappages (← state).kernelPgtbl (← procOf p).kstack kstackPa pgSize (pteR ||| pteW)
            return some p) s (fun _ => True) Q E := by
  -- the trap frame
  refine (pmemAlloc_heap h.heap true (u := .trapframe p) trivial).bind fun tf s₁ ⟨g₁, hg₁⟩ => ?_
  rw [sat_bind, sat_modifyProc]
  by_cases htf : tf = 0
  · subst htf
    obtain ⟨hempty, rfl, rfl⟩ := hg₁.empty
    have hshort : ¬ (1 ≤ (g.free false).length ∧ 4 ≤ (g.free true).length) := by
      rw [hempty]
      exact fun hc => absurd hc.2 (by decide)
    rw [if_pos rfl]
    refine abandonProc_sat (h.setOut hout rfl) ⟨hout, ?_, ?_, ?_, fun q hq => ?_⟩
      (hst hshort) (hE hshort)
    · exact .inl (by rw [setProc_self])
    · exact .inl (by rw [setProc_self]; exact hzero.2)
    · rw [setProc_self, setProc_kernelPgtbl]
      exact fun hc => h.kernel_pos (hc.symm.trans hzero.2)
    · rw [setProc_self, setProc_other _ _ (ne_of_out hout hq)]
      exact fun hc => h.pgtbl_pos hq (hc.trans hzero.2)
  rw [if_neg htf]
  have hframe := h.withFrame hout hg₁ htf
  generalize s₁.setProc p { s₁.procs p with tf := tf } = s₁' at hframe ⊢
  -- the address space
  refine (Sat.bind (Q := fun pgtbl s₂ => pgtbl = 0 ∧
      ¬ (1 ≤ (g₁.free false).length ∧ 2 ≤ (g₁.free true).length) ∧ (∃ g₂, Undone g₁ s₁' g₂ s₂) ∨
      ∃ g₂, FreshSpace pgtbl tf g₁ s₁' g₂ s₂) ?_ ?_)
  · refine procPgtblInit_sat hframe.world.heap hframe.world.homed
      hframe.world.rooted hframe.world.text
      (hframe.world.homed.lt hframe.own rfl).2 ?_ ?_
    · exact fun hfew g₂ s₂ hu => .inl ⟨rfl, hfew, g₂, hu⟩
    · exact fun r g₂ s₂ hf => .inr ⟨g₂, hf⟩
  intro pgtbl s₂ hinit
  rw [sat_bind, sat_modifyProc]
  rcases hinit with ⟨rfl, hfew, g₂, hu₂⟩ | ⟨g₂, hf₂⟩
  · have hshort : ¬ (1 ≤ (g.free false).length ∧ 4 ≤ (g.free true).length) := by
      have hused := hframe.used
      rw [hframe.user] at hfew
      omega
    obtain ⟨hw₂, hp₂, hleaf₂⟩ := hframe.undone hout hu₂
    rw [if_pos rfl]
    exact abandonProc_sat hw₂ hp₂ (hleaf₂.trans (hst hshort)) (hE hshort)
  rw [if_neg (Nat.pos_iff_ne_zero.mp (hf₂.space.heap.table_page hf₂.space.live).2)]
  have hspace := hframe.space hout hf₂
  generalize s₂.setProc p { s₂.procs p with pgtbl := pgtbl } = s₂' at hspace ⊢
  -- the kernel stack
  refine (pmemAlloc_heap hspace.world.heap true (u := .kstack p) trivial).bind
    fun pa s₃ ⟨g₃, hg₃⟩ => ?_
  by_cases hpa : pa = 0
  · subst hpa
    obtain ⟨hempty, rfl, rfl⟩ := hg₃.empty
    have hshort : ¬ (1 ≤ (g.free false).length ∧ 4 ≤ (g.free true).length) := by
      have hused := hspace.used
      rw [hempty, List.length_nil] at hused
      omega
    rw [if_pos rfl]
    exact abandonProc_sat hspace.world (hspace.incomplete hout)
      (by rw [hspace.root_eq, hspace.kernel, hst hshort]) (hE hshort)
  rw [if_neg hpa]
  obtain ⟨hw₃, hf₃⟩ := hspace.world.granted hg₃ hpa trivial rfl (fun r v => Use.noConfusion)
    fun q hq hc => Use.noConfusion hc
  have hleaf₃ : leaf s₃.mem s₃.kernelPgtbl trampolineVpn ≠ 0 := by
    have hkept :=
      hf₃.leaf hspace.world.heap hspace.world.kernel (v := trampolineVpn)
        (by rintro x (hc | hc) <;> cases hc)
    rw [rest_kernelPgtbl hf₃.rest, hkept, hspace.root_eq, hspace.kernel]
    exact htop
  obtain ⟨low, hlow⟩ := leaf_ne_zero hleaf₃
  rw [← lowPos_congr (kstack_low p)] at hlow
  have hva : (s₃.procs p).kstack = kstackVpn p * pgSize :=
    (hw₃.kstackVa p).trans (kstackVpn_mul p).symm
  rw [sat_bind, sat_state, sat_bind, sat_procOf, hva, sat_bind]
  refine (mapPage_present hw₃.heap hw₃.kernel
    (Nat.lt_trans (hw₃.homed.lt (hg₃.taken hpa).1 rfl).2 (by decide)) (by decide)
    (kstackVpn_lt p) hlow).imp ?_
  rintro - s₄ ⟨g₄, he₄⟩
  rw [sat_pure]
  exact hQ g₄ s₄ tf pgtbl (hspace.stack hout hg₃ hpa hw₃ hf₃ he₄)

/-- `proc_alloc` takes the first unused process. It returns null only when there is none: where
memory is short, `proc_free` stops at the kernel stack that is not mapped. -/
theorem procAlloc_sat {Q : Option ProcId → Kernel → Prop} (h : World A g s)
    (hvac : ∀ p, (s.procs p).state = .unused →
      ¬ A p ∧ ((s.procs p).tf = 0 ∧ (s.procs p).pgtbl = 0) ∧
      (¬ (1 ≤ (g.free false).length ∧ 4 ≤ (g.free true).length) →
        leaf s.mem s.kernelPgtbl (kstackVpn p) = 0))
    (hlk : ∀ lk, s.locks lk = false) (htop : leaf s.mem s.kernelPgtbl trampolineVpn ≠ 0)
    (hE : ¬ (s.globalPid < 2 ^ 31 ∧ 1 ≤ (g.free false).length ∧ 4 ≤ (g.free true).length) →
      ∀ e, E e)
    (hfull : (∀ p, (s.procs p).state ≠ .unused) → Q none s)
    (hQ : ∀ p g' s', (s.procs p).state = .unused → (∀ q, q < p → (s.procs q).state ≠ .unused) →
      s.globalPid < 2 ^ 31 → Arrived A p g s g' s' → Q (some p) s') :
    Sat procAlloc s (fun _ => True) Q E := by
  unfold procAlloc
  rw [sat_bind]
  refine findUnused_sat allProcs (fun p _ => hlk _) (fun hall => ?_) fun l p l' hl hbefore hst => ?_
  · rw [sat_pure]
    exact hfull fun p => hall p (List.mem_finRange p)
  obtain ⟨hout, hzero, hkst⟩ := hvac p hst
  rw [sat_bind]
  have hpid : (s.setLock (.proc p) true).globalPid = s.globalPid := rfl
  refine allocPid_sat ?_ (fun hge => hE (fun hc => absurd hc.1 (Nat.not_lt.mpr hge)) _) fun hlt =>
    ?_
  · rw [setLock_locks, Function.update_of_ne (show Lock.pid ≠ .proc p from nofun)]
    exact hlk _
  rw [sat_bind, sat_modifyProc, sat_bind, sat_modifyProc, setProc_setProc]
  simp only [setProc_self]
  change Sat _ (s.admitted p) _ _ _
  have hself : (s.admitted p).procs p = { s.procs p with pid := s.globalPid, state := .runnable } :=
    setProc_self _ p _
  refine setUp_sat (h.admitted hout) hout ?_ hkst htop (fun hc => hE fun hc' => hc hc'.2) ?_
  · rw [hself]
    exact hzero
  intro g' s' tf pgtbl hset
  refine hQ p g' s' hst (fun q hq => hbefore q (first_unused hl hq)) hlt
    ⟨hset.world, hset.apart, hset.spared,
    ⟨tf, pgtbl, ?_⟩, hset.leaf, hset.kernel, hset.user, hset.used⟩
  rw [hset.rest, hself]
  unfold Kernel.admitted
  rw [setProc_setProc]

end

end WhuOs.Mem
