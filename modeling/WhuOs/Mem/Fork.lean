import WhuOs.Mem.CopySpace

/-! # Copies of address spaces

`uvm_copy_pgtbl` maps copies of pages of one address space into another. What it
reads is not changed by what it writes: the pages of the old space keep their use.
-/

namespace WhuOs.Mem

open Prog Bytes

/-- The pages of `R` in the space of `new` are copies of those of `old`, made from `a` user pages
and at most `b` kernel pages. -/
structure Copied (old new t : Nat) (R : Nat → Prop) (a b : Nat) (g : Ledger)
    (s : Kernel) (g' : Ledger)
    (s' : Kernel) : Prop where
  space : Space g' s' new t
  framed : Framed (UserUse new) g s g' s'
  kept : DataKept g s g' s'
  same : ∀ v < vaPages, ¬ R v → leaf s'.mem new v = leaf s.mem new v
  copy : ∀ v < vaPages, R v → ∃ q, leaf s'.mem new v = mapPte q (pteFlags (leaf s.mem old v)) 0 ∧
    g'.own q = .frame new v ∧ q % pgSize = 0 ∧ q < physTop ∧
    ((g.own (pteToPa (leaf s.mem old v))).Stays →
      ∀ i < pgSize, s'.mem (q + i) = s.mem (pteToPa (leaf s.mem old v) + i))
  present : ∀ v, R v → Present s old v
  user : (g.free false).length = (g'.free false).length + a
  used : (g.free true).length ≤ (g'.free true).length + b

def Kernel.nodeless (s : Kernel) : Kernel := { s with nodes := fun _ => ⟨0, 0, none, none⟩ }

def Kernel.withNodes (s : Kernel) (nodes : NodeId → Node) : Kernel := { s with nodes }

def Proc.child (x : Proc) (pid : Nat) (parent : ProcId) (y : Proc) (tf pgtbl : Nat)
    (mmap : Option NodeId) : Proc :=
  { x with pid := pid, state := .runnable, parent := some parent, tf := tf, pgtbl := pgtbl, mmap := mmap
           heapTop := y.heapTop, ustackBase := y.ustackBase, ustackPages := y.ustackPages }

section

variable {A : ProcId → Prop} {g g₁ g' : Ledger} {s s₁ s' : Kernel} {old new t v n a b a' b' : Nat}
  {R R' : Nat → Prop} {G : Event → Prop} {E : Panic → Prop} {Q : Unit → Kernel → Prop}

/-- A copy into an address space. -/
theorem Duplicated.copied (hd : Duplicated old new R a b g s g' s') (h : Space g s new t) :
    Copied old new t R a b g s g' s' := by
  refine ⟨⟨hd.heap, hd.homed h.homed, hd.live, h.pool_of_rest hd.framed.rest,
    hd.tops h.tops, fun v hv hval => ?_⟩,
    hd.framed, hd.kept, hd.same, fun v hv hr => ?_, hd.present, hd.user, hd.used⟩
  · by_cases hr : R v
    · obtain ⟨q, hleaf, -, hown, hq, hlt, -⟩ := hd.copy v hv hr
      rw [hleaf, mapPte_pa hq (Nat.lt_trans hlt (by decide)) (pteFlags_lt _)]
      exact .inl hown
    · exact h.leaf_kept hd.kept hd.framed.rest hv (hd.same v hv hr) hval
  · obtain ⟨q, hleaf, -, hrest⟩ := hd.copy v hv hr
    exact ⟨q, hleaf, hrest⟩

/-! ## `proc_fork` -/

/-- The copies of the nodes of a list. Nothing but nodes changes. -/
theorem copyListLoop_sat (fuel : Nat) (src head tail : Option NodeId)
    {Q : Option NodeId → Kernel → Prop}
    (ha : ∀ i, (s.nodes i).begin % pgSize = 0) (hE : src ≠ none → ∀ e, E e)
    (hQ : ∀ r s', s'.nodeless = s.nodeless → (∀ i, (s'.nodes i).begin % pgSize = 0) →
      (src = none → r = head ∧ s' = s) → Q r s') :
    Sat (copyListLoop fuel src head tail) s G Q E := by
  induction fuel generalizing src head tail s with
  | zero =>
      cases src with
      | none => exact (sat_pure _).mpr (hQ _ _ rfl ha fun _ => ⟨rfl, rfl⟩)
      | some n => exact (sat_panic _).mpr (hE nofun _)
  | succ fuel ih =>
      cases src with
      | none => exact (sat_pure _).mpr (hQ _ _ rfl ha fun _ => ⟨rfl, rfl⟩)
      | some n =>
          have hany := hE nofun
          unfold copyListLoop
          rw [sat_bind]
          cases hl : s.locks .mmapList with
          | true =>
              unfold mmapRegionAlloc
              rw [sat_bind, sat_acquire_held hl]
              exact hany _
          | false =>
          refine mmapRegionAlloc_sat hl (fun _ => hany) fun i _ => ?_
          have hset : ∀ {s₁ : Kernel}, (∀ j, (s₁.nodes j).begin % pgSize = 0) →
            ∀ i y, y.begin % pgSize = 0 →
              ∀ j, ((s₁.setNode i y).nodes j).begin % pgSize = 0 := by
            intro s₁ h₁ i y hy j
            rw [setNode_nodes]
            by_cases hj : j = i
            · subst hj
              rw [Function.update_self]
              exact hy
            · rw [Function.update_of_ne hj]
              exact h₁ j
          have hnext :
              ∀ {s₁ : Kernel}, s₁.nodeless = s.nodeless → (∀ j, (s₁.nodes j).begin % pgSize = 0) →
                Sat (do copyListLoop fuel (← nodeOf n).next (some (head.getD i)) (some i)) s₁ G Q
                  E := by
            intro s₁ h₁ ha₁
            rw [sat_bind, sat_nodeOf]
            exact ih _ _ _ ha₁ (fun _ => hany) fun r s' hs' ha' _ =>
              hQ r s' (hs'.trans h₁) ha' nofun
          have h0 := hset ha 0 { s.nodes 0 with link := (s.nodes i).link } (ha 0)
          generalize hs₀ : s.setNode 0 { s.nodes 0 with link := (s.nodes i).link } = s₀ at h0 ⊢
          have hn₀ : s₀.nodeless = s.nodeless := by rw [← hs₀]; rfl
          rw [sat_bind, sat_nodeOf, sat_bind, sat_modifyNode]
          have h1 := hset h0 i { s₀.nodes i with begin := (s₀.nodes n).begin } (h0 n)
          generalize hs₁ : s₀.setNode i { s₀.nodes i with begin := (s₀.nodes n).begin } = s₁ at h1 ⊢
          have hn₁ : s₁.nodeless = s.nodeless := by rw [← hs₁]; exact hn₀
          rw [sat_bind, sat_nodeOf, sat_bind, sat_modifyNode]
          have h2 := hset h1 i { s₁.nodes i with npages := (s₁.nodes n).npages } (h1 i)
          generalize hs₂ :
            s₁.setNode i { s₁.nodes i with npages := (s₁.nodes n).npages } = s₂ at h2 ⊢
          have hn₂ : s₂.nodeless = s.nodeless := by rw [← hs₂]; exact hn₁
          rw [sat_bind, sat_modifyNode]
          have h3 := hset h2 i { s₂.nodes i with next := none } (h2 i)
          generalize hs₃ : s₂.setNode i { s₂.nodes i with next := none } = s₃ at h3 ⊢
          have hn₃ : s₃.nodeless = s.nodeless := by rw [← hs₃]; exact hn₂
          cases tail with
          | none => exact hnext hn₃ h3
          | some t =>
              rw [sat_bind, sat_modifyNode]
              exact hnext hn₃ (hset h3 t { s₃.nodes t with next := some i } (h3 t))

/-- Bound on the user pages that `fork` takes for copies. -/
def forkCost (s : Kernel) (heapTop ustackBase ustackPages : Nat) (l : List NodeId) : Nat :=
  1 + pagesBetween pgSize (pgRoundUp heapTop) + pagesBetween ustackBase
    (u64 (ustackBase + u32 (ustackPages * pgSize))) +
    listPages s.nodes l

/-- Nothing stops `uvm_copy_pgtbl`. -/
structure Copyable (g : Ledger) (s : Kernel) (old heapTop ustackBase ustackPages : Nat)
    (l : List NodeId) : Prop where
  length : l.length ≤ listFuel
  user : forkCost s heapTop ustackBase ustackPages l ≤ (g.free false).length
  used : 2 * forkCost s heapTop ustackBase ustackPages l ≤ (g.free true).length
  heap : pgRoundUp heapTop ≤ vaMax
  zero : Present s old 0
  stack : ∀ w, StackPages ustackBase ustackPages w → Present s old w
  regions : ∀ i ∈ l, ∀ w, (s.nodes i).Covers w → Present s old w

theorem uvmCopyPgtbl_sat {heapTop ustackBase ustackPages : Nat}
    (o : Option NodeId) (h : Space g s new t)
    (htext : Text s) (hl : g.Live old) (hne : old ≠ new) (ha : ∀ i, (s.nodes i).begin % pgSize = 0)
    (hub : ustackBase % pgSize = 0)
    (hE : ¬ (∃ l, Regions s.nodes o l ∧ Copyable g s old heapTop ustackBase ustackPages l) →
      ∀ e, E e)
    (hQ : ∀ l a g' s', Regions s.nodes o l → a ≤ forkCost s heapTop ustackBase ustackPages l →
      Copied old new t (ForkPages s old heapTop ustackBase ustackPages l) a (2 * a) g s g' s' →
      Q () s') :
    Sat (uvmCopyPgtbl old new heapTop ustackBase ustackPages o) s G Q E := by
  have hheap : heapCopies s.mem old heapTop ≤ pagesBetween pgSize (pgRoundUp heapTop) := by
    unfold heapCopies
    split
    · exact mappedPages_le _ _ _ _
    · exact Nat.zero_le _
  have hstack : stackCopies ustackBase ustackPages ≤
      pagesBetween ustackBase (u64 (ustackBase + u32 (ustackPages * pgSize))) := by
    unfold stackCopies
    split
    · exact Nat.le_refl _
    · exact Nat.zero_le _
  have hcost : ∀ l, copies s old heapTop ustackBase ustackPages l ≤
      forkCost s heapTop ustackBase ustackPages l := by
    intro l
    unfold copies forkCost
    omega
  refine uvmCopyPgtbl_duplicates o h.heap h.live htext.end_le hl hne (fun i _ => ha i) hub
    (fun hc => hE fun hc' => hc ?_)
    fun l g' s' hr hd => hQ l _ g' s' hr (hcost l) ((hd.mono (copyTables_le _ _ _ _ _ _)).copied h)
  obtain ⟨l, hr, hc'⟩ := hc'
  have htables : copyTables s old heapTop ustackBase ustackPages l ≤
      2 * forkCost s heapTop ustackBase ustackPages l :=
    Nat.le_trans (copyTables_le _ _ _ _ _ _) (Nat.mul_le_mul_left 2 (hcost l))
  exact ⟨l, hr, hc'.length, Nat.le_trans (hcost l) hc'.user, Nat.le_trans htables hc'.used,
    hc'.heap, hc'.zero, hc'.stack, hc'.regions⟩

/-- `proc_fork` is done. -/
structure Cloned (A : ProcId → Prop) (p np : ProcId) (l : List NodeId) (g : Ledger)
    (s : Kernel) (g' : Ledger)
    (s' : Kernel) : Prop where
  world : World (fun q => A q ∨ q = np) g' s'
  trapframe : g'.own (s'.procs np).tf = .trapframe np
  stack : Stacked s' np
  spared : Spared (OwnUse s.kernelPgtbl (s'.procs np).pgtbl np) g s g' s'
  rest : ∃ tf pgtbl mmap nodes, (∀ i, (nodes i).begin % pgSize = 0) ∧
    ((s.procs p).mmap = none → mmap = none ∧ nodes = s.nodes) ∧ s'.rest =
    ((({ s with globalPid := s.globalPid + 1 } : Kernel).withNodes nodes).setProc np
      ((s.procs np).child s.globalPid p (s.procs p) tf pgtbl mmap)).rest
  kernel : ∀ v < vaPages, v ≠ kstackVpn np →
    leaf s'.mem s.kernelPgtbl v = leaf s.mem s.kernelPgtbl v
  same : ∀ v < vaPages, ¬ ForkPages s (s.procs p).pgtbl (s.procs p).heapTop (s.procs p).ustackBase
      (u32 (s.procs p).ustackPages) l v → leaf s'.mem (s'.procs np).pgtbl v =
    if v = trapframeVpn then trapframePte (s'.procs np).tf
      else if v = trampolineVpn then trampolinePte s else 0
  copy : ∀ v < vaPages, ForkPages s (s.procs p).pgtbl (s.procs p).heapTop (s.procs p).ustackBase
      (u32 (s.procs p).ustackPages) l v → ∃ q,
    leaf s'.mem (s'.procs np).pgtbl v = mapPte q (pteFlags (leaf s.mem (s.procs p).pgtbl v)) 0 ∧
    g'.own q = .frame (s'.procs np).pgtbl v ∧ q % pgSize = 0 ∧ q < physTop ∧
    (g.own (pteToPa (leaf s.mem (s.procs p).pgtbl v)) = .frame (s.procs p).pgtbl v →
      ∀ i < pgSize, s'.mem (q + i) = s.mem (pteToPa (leaf s.mem (s.procs p).pgtbl v) + i))
  present : ∀ v, ForkPages s (s.procs p).pgtbl (s.procs p).heapTop (s.procs p).ustackBase
      (u32 (s.procs p).ustackPages) l v → Present s (s.procs p).pgtbl v

section

variable {p np : ProcId} {l : List NodeId}

/-- The space that `uvm_copy_pgtbl` fills belongs to a new process of the set. -/
theorem World.copied {old r tf : Nat} (h : World A g s) (hap : Apart A g s np)
    (hr : (s.procs np).pgtbl = r)
    (ht : (s.procs np).tf = tf) (hc : Copied old r tf R a b g s g' s') :
    World (fun q => A q ∨ q = np) g' s' := by
  have hprocs := rest_procs hc.framed.rest
  have hw : World A g' s' := by
    refine h.frame hc.framed hc.space.heap hc.space.homed (UserUse.onRoot r)
      (fun q x _ => ⟨hc.space.live, hc.space.tops⟩) ?_ fun q hq => ⟨?_, UserUse.not_trapframe⟩
    · rw [← hr]
      exact hap.user
    · rw [← hr]
      exact hap.alone q hq
  refine hw.insert ⟨?_, ?_, fun _ => ?_⟩ fun q hq _ => ?_
  · rw [hprocs, hr, ht]
    exact hc.space
  · rw [hprocs, rest_kernelPgtbl hc.framed.rest]
    exact hap.user
  · rw [hprocs]
    exact (hc.framed.own_eq (hap.trapframe ▸ UserUse.not_trapframe)).trans hap.trapframe
  · rw [hprocs]
    exact hap.alone q hq

theorem eq_withNodes (h : s'.nodeless = s.nodeless) : s' = s.withNodes s'.nodes := by
  have h' : s'.nodeless.withNodes s'.nodes = s.nodeless.withNodes s'.nodes := by rw [h]
  exact h'

/-- The state at the end of `proc_fork`: `x` is the record of the parent. -/
def Kernel.finished (s : Kernel) (p np : ProcId) (x : Proc) (mmap : Option NodeId)
    (nodes : NodeId → Node) (m : Bytes) : Kernel :=
  (((s.withNodes nodes).setProc np
    { s.procs np with heapTop := x.heapTop, ustackBase := x.ustackBase, ustackPages := x.ustackPages
                      mmap := mmap, parent := some p, state := .runnable }).setMem m).setLock
                        (.proc np) false

theorem finished_self {x : Proc} {mmap : Option NodeId} {nodes : NodeId → Node} {m : Bytes} :
    (s.finished p np x mmap nodes m).procs np =
      { s.procs np with heapTop := x.heapTop, ustackBase := x.ustackBase, ustackPages := x.ustackPages
                        mmap := mmap, parent := some p, state := .runnable } := by
  unfold Kernel.finished
  rw [setLock_procs, setMem_procs, setProc_self]

theorem finished_other {x : Proc} {mmap : Option NodeId} {nodes : NodeId → Node} {m : Bytes}
    {q : ProcId} (hq : q ≠ np) :
    (s.finished p np x mmap nodes m).procs q = s.procs q := by
  unfold Kernel.finished
  rw [setLock_procs, setMem_procs, setProc_other _ _ hq]
  rfl

/-- The end of `proc_fork`: the record of the child, its list and its trap frame. -/
theorem finishFork_sat {x : Proc} {Q : Option Nat → Kernel → Prop} (h : World A g s)
    (hown : g.own (s.procs np).tf = .trapframe np) (hpn : p ≠ np)
    (ha : ∀ i, (s.nodes i).begin % pgSize = 0) (hlk : s.locks (.proc np) = true)
    (hE : (s.procs p).mmap ≠ none → ∀ e, E e)
    (hQ : ∀ m mmap nodes, Inside (s.procs np).tf s.mem m → (∀ i, (nodes i).begin % pgSize = 0) →
      ((s.procs p).mmap = none → mmap = none ∧ nodes = s.nodes) → World A g (s.finished p np x mmap nodes m) →
      Q (some (s.procs np).pid) (s.finished p np x mmap nodes m)) :
    Sat (do
      modifyProc np fun y =>
        { y with heapTop := x.heapTop, ustackBase := x.ustackBase, ustackPages := x.ustackPages }
      let mmap ← copyListLoop listFuel (← procOf p).mmap none none
      modifyProc np fun y => { y with mmap := mmap }
      memmove (← procOf np).tf (← procOf p).tf tfSize
      store ((← procOf np).tf + tfA0) 0
      modifyProc np fun y => { y with parent := some p }
      let pid := (← procOf np).pid
      modifyProc np fun y => { y with state := .runnable }
      spinlockRelease (.proc np)
      return some pid) s G Q E := by
  have hpage := h.heap.page_of_own hown Use.noConfusion
  have htext : s.etext ≤ (s.procs np).tf := Nat.le_trans h.text.end_le (h.homed.lt hown rfl).1
  have hprocs : ∀ nodes, (s.withNodes nodes).procs = s.procs := fun _ => rfl
  rw [sat_bind, sat_modifyProc, sat_bind, sat_procOf, setProc_other _ _ hpn, sat_bind]
  refine copyListLoop_sat _ _ none none ha hE fun mmap s₂ hn₂ ha₂ hnil => ?_
  obtain ⟨nodes, hnodes, hempty, rfl⟩ : ∃ nodes, (∀ i, (nodes i).begin % pgSize = 0) ∧
      ((s.procs p).mmap = none → mmap = none ∧ nodes = s.nodes) ∧
      s₂ = (s.withNodes nodes).setProc np
        { s.procs np with heapTop := x.heapTop, ustackBase := x.ustackBase,
                                                                    ustackPages :=
                                                                      x.ustackPages } :=
    ⟨s₂.nodes, ha₂, fun hc =>
      ⟨(hnil hc).1, (congrArg Kernel.nodes (hnil hc).2 :)⟩, eq_withNodes hn₂⟩
  rw [sat_bind, sat_modifyProc, setProc_setProc, setProc_self]
  generalize hy : ({ s.procs np with heapTop := x.heapTop, ustackBase := x.ustackBase, ustackPages := x.ustackPages
                                     mmap := mmap } : Proc) = y
  have hytf : y.tf = (s.procs np).tf := by rw [← hy]
  have htext' : ((s.withNodes nodes).setProc np y).etext ≤ (s.procs np).tf := htext
  rw [sat_bind, sat_procOf, setProc_self, sat_bind, sat_procOf, setProc_other _ _ hpn,
    sat_bind, hytf, hprocs,
    sat_memmove htext', sat_bind, sat_procOf, setMem_procs, setProc_self, hytf, sat_bind, sat_store]
  have hin₁ : Inside (s.procs np).tf s.mem
    (splice s.mem (s.procs np).tf (window s.mem (s.procs p).tf) tfSize) :=
    inside_splice (Nat.le_refl _) (by unfold tfSize pgSize; omega)
  have hin₂ :=
    hin₁.trans (inside_splice (b := leBytes 0) (q := (s.procs np).tf)
      (d := (s.procs np).tf + tfA0) (n := 8)
    (m := splice s.mem (s.procs np).tf (window s.mem (s.procs p).tf) tfSize) (by unfold tfA0; omega)
    (by unfold tfA0 pgSize; omega))
  generalize hm :
    splice (splice s.mem (s.procs np).tf (window s.mem (s.procs p).tf) tfSize)
      ((s.procs np).tf + tfA0)
    (leBytes 0) 8 = m at hin₂
  change Sat _ (((s.withNodes nodes).setProc np y).setMem (splice (splice s.mem (s.procs np).tf
    (window s.mem (s.procs p).tf) tfSize) ((s.procs np).tf + tfA0) (leBytes 0) 8)) G Q E
  have hrecord : ∀ z z' : Proc, (((s.withNodes nodes).setProc np z).setMem m).setProc np z' =
      ((s.withNodes nodes).setProc np z').setMem m := by
    intro z z'
    change (((s.withNodes nodes).setProc np z).setProc np z').setMem m = _
    rw [setProc_setProc]
  rw [hm, sat_bind, sat_modifyProc, setMem_procs, setProc_self, hrecord, sat_bind,
    sat_procOf, setMem_procs,
    setProc_self, sat_bind, sat_modifyProc, setMem_procs, setProc_self, hrecord]
  have hend : Sat (do spinlockRelease (.proc np); return some y.pid)
      (((s.withNodes nodes).setProc np { y with parent := some p, state := .runnable }).setMem m) G
      Q E := by
    have hlk' : ((((s.withNodes nodes).setProc np
      { y with parent := some p, state := .runnable }).setMem m).locks
        (.proc np)) = true := hlk
    rw [sat_bind, sat_release hlk', sat_pure, ← hy]
    refine hQ m mmap nodes hin₂ hnodes hempty ?_
    have hw₁ : World A g (s.setMem m) := h.write_page hpage.1 (by rw [hown]; trivial) hin₂
    refine hw₁.same ⟨rfl, fun _ => rfl, fun k => ?_, rfl, rfl, rfl, rfl⟩ (fun q => ?_) fun q hq =>
      ?_
    · change Function.update s.locks (.proc np) false (.pmem k) = _
      exact Function.update_of_ne (show Lock.pmem k ≠ .proc np from nofun) _ _
    · by_cases hqn : q = np
      · subst hqn
        rw [finished_self]
        rfl
      · rw [finished_other hqn]
        rfl
    · by_cases hqn : q = np
      · subst hqn
        rw [finished_self]
        exact ⟨rfl, rfl, nofun⟩
      · rw [finished_other hqn]
        exact ⟨rfl, rfl, .inl⟩
  exact hend

/-! ## The parent, after `proc_alloc` -/

section

variable {g₂ : Ledger} {s₂ : Kernel}

theorem Arrived.other (har : Arrived A np g s g₁ s₁) (hp : A p) : s₁.procs p = s.procs p := by
  obtain ⟨tf, r, hrest⟩ := har.rest
  have hprocs : s₁.procs = Function.update s.procs np
      { s.procs np with pid := s.globalPid, state := .runnable, tf := tf, pgtbl := r } :=
      (congrArg Kernel.procs hrest :)
  rw [hprocs, Function.update_of_ne (ne_of_out har.apart.out hp)]

theorem Arrived.self (har : Arrived A np g s g₁ s₁) : s₁.procs np =
    { s.procs np with pid := s.globalPid, state := .runnable, tf := (s₁.procs np).tf, pgtbl := (s₁.procs np).pgtbl } := by
  obtain ⟨tf, r, hrest⟩ := har.rest
  have hprocs : s₁.procs = Function.update s.procs np
      { s.procs np with pid := s.globalPid, state := .runnable, tf := tf, pgtbl := r } :=
      (congrArg Kernel.procs hrest :)
  rw [hprocs, Function.update_self]

theorem Arrived.nodes (har : Arrived A np g s g₁ s₁) : s₁.nodes = s.nodes := by
  obtain ⟨tf, r, hrest⟩ := har.rest
  exact (congrArg Kernel.nodes hrest :)

theorem Arrived.locks (har : Arrived A np g s g₁ s₁) :
    s₁.locks = Function.update s.locks (.proc np) true := by
  obtain ⟨tf, r, hrest⟩ := har.rest
  exact (congrArg Kernel.locks hrest :)

theorem Arrived.root (har : Arrived A np g s g₁ s₁) : s₁.kernelPgtbl = s.kernelPgtbl := by
  obtain ⟨tf, r, hrest⟩ := har.rest
  exact (congrArg Kernel.kernelPgtbl hrest :)

theorem Arrived.root_ne (har : Arrived A np g s g₁ s₁) (hp : A p) :
    (s.procs p).pgtbl ≠ (s₁.procs np).pgtbl := by
  rw [← har.other hp]
  exact har.apart.alone p hp

/-- The space of a process of the set is as before. -/
theorem Arrived.old_leaf (har : Arrived A np g s g₁ s₁) (h : World A g s) (hp : A p) (v : Nat) :
    Mem.leaf s₁.mem (s.procs p).pgtbl v = Mem.leaf s.mem (s.procs p).pgtbl v := by
  refine h.heap.leaf_frame (h.proc p hp).space.live fun q x hq =>
    (har.spared q (h.heap.table_page hq).1 ?_).2
  rw [hq]
  intro hc
  rcases hc.table_root with hc | hc
  · exact har.root_ne hp hc
  · exact (h.proc p hp).user hc

theorem Arrived.present (har : Arrived A np g s g₁ s₁) (h : World A g s) (hp : A p) (w : Nat) :
    Present s₁ (s.procs p).pgtbl w ↔ Present s (s.procs p).pgtbl w := by
  unfold Present
  rw [har.old_leaf h hp]

theorem Arrived.forkPages (har : Arrived A np g s g₁ s₁) (h : World A g s) (hp : A p) (w : Nat)
    {top base pages : Nat} :
    ForkPages s₁ (s.procs p).pgtbl top base pages l w ↔
    ForkPages s (s.procs p).pgtbl top base pages l w := by
  unfold ForkPages
  rw [har.present h hp, har.nodes]

theorem Copied.trapframe {old b' a' : Nat} (har : Arrived A np g s g₁ s₁)
    (hc : Copied old (s₁.procs np).pgtbl (s₁.procs np).tf R a' b' g₁ s₁ g₂ s₂) :
    g₂.own (s₁.procs np).tf = .trapframe np :=
  (hc.framed.own_eq (har.apart.trapframe ▸ UserUse.not_trapframe)).trans har.apart.trapframe

/-- The child after the copies and the end of `proc_fork`. -/
theorem Copied.cloned {m : Bytes} {mmap : Option NodeId} {nodes : NodeId → Node}
    (h : World A g s) (hp : A p)
    (hlk : s.locks (.proc np) = false) (har : Arrived A np g s g₁ s₁)
    (hc : Copied (s.procs p).pgtbl (s₁.procs np).pgtbl (s₁.procs np).tf (ForkPages s₁ (s.procs p).pgtbl (s.procs p).heapTop
      (s.procs p).ustackBase (u32 (s.procs p).ustackPages) l) a b g₁ s₁ g₂ s₂)
    (hin : Inside (s₁.procs np).tf s₂.mem m) (hn : ∀ i, (nodes i).begin % pgSize = 0)
    (hnil : (s.procs p).mmap = none → mmap = none ∧ nodes = s.nodes)
    (hw : World (fun q => A q ∨ q = np) g₂ (s₂.finished p np (s.procs p) mmap nodes m)) :
    Cloned A p np l g s g₂ (s₂.finished p np (s.procs p) mmap nodes m) := by
  have hw₂ := har.world.copied har.apart rfl rfl hc
  have hkern₂ : s₂.kernelPgtbl = s.kernelPgtbl := (rest_kernelPgtbl hc.framed.rest).trans har.root
  have hroot : (s₁.procs np).pgtbl ≠ s.kernelPgtbl := by
    rw [← har.root]
    exact har.apart.user
  have hown := hc.trapframe har
  have hpage := hw₂.heap.page_of_own hown Use.noConfusion
  have hself : (s₂.finished p np (s.procs p) mmap nodes m).procs np = (s.procs np).child s.globalPid p (s.procs p)
      (s₁.procs np).tf (s₁.procs np).pgtbl mmap := by
    rw [finished_self, rest_procs hc.framed.rest, har.self]
    rfl
  have htf : ((s₂.finished p np (s.procs p) mmap nodes m).procs np).tf = (s₁.procs np).tf := by rw [hself]; rfl
  have hpg : ((s₂.finished p np (s.procs p) mmap nodes m).procs np).pgtbl = (s₁.procs np).pgtbl := by rw [hself]; rfl
  -- the leaves of the two tables that this fork wrote to
  have hleafk : ∀ v, leaf m s.kernelPgtbl v = leaf s₁.mem s.kernelPgtbl v := by
    intro v
    rw [hw₂.heap.write_leaf (hkern₂ ▸ hw₂.kernel) hpage.1 (by rw [hown]; trivial) hin]
    exact hc.framed.leaf har.world.heap (har.root ▸ har.world.kernel)
      fun x hx => hroot ((UserUse.onRoot _).table _ _ hx).symm
  have hleafr : ∀ v, leaf m (s₁.procs np).pgtbl v = leaf s₂.mem (s₁.procs np).pgtbl v :=
    fun v => hw₂.heap.write_leaf hc.space.live hpage.1 (by rw [hown]; trivial) hin
  refine ⟨hw, ?_, ?_, ?_, ⟨(s₁.procs np).tf, (s₁.procs np).pgtbl, mmap, nodes, hn, hnil, ?_⟩,
    fun v hv hvk => ?_,
    fun v hv hnot => ?_, fun v hv hin' => ?_, fun v hin' =>
    (har.present h hp v).mp (hc.present v ((har.forkPages h hp v).mpr hin'))⟩
  · rw [htf]
    exact hown
  · obtain ⟨q, hq, hlt', he⟩ := har.apart.stack
    refine ⟨q, hq, hlt', ?_⟩
    change leaf m s₂.kernelPgtbl _ = _
    rw [hkern₂, hleafk, ← har.root]
    exact he
  · rw [hpg]
    have hcopies : Spared (OwnUse s.kernelPgtbl (s₁.procs np).pgtbl np) g₁ s₁ g₂ s₂ :=
      hc.framed.spared.mono fun _ hu => .user hu
    exact (har.spared.trans hcopies).trans
      (spared_write (W := OwnUse s.kernelPgtbl (s₁.procs np).pgtbl np) hpage.1 (by rw [hown]; exact .trapframe) hin)
  · obtain ⟨tf, r, hrest⟩ := har.rest
    have hfin : (s₂.finished p np (s.procs p) mmap nodes m).rest = ((s₂.rest.withNodes nodes).setProc np
        ((s₂.finished p np (s.procs p) mmap nodes m).procs np)).setLock (.proc np) false := by
      rw [finished_self]
      rfl
    rw [hfin, hself, hc.framed.rest, hrest]
    refine Kernel.ext rfl rfl rfl rfl rfl rfl ?_ rfl rfl (Function.update_idem _ _ _) rfl rfl
    change Function.update (Function.update s.locks (.proc np) true) (.proc np) false = s.locks
    rw [Function.update_idem, ← hlk, Function.update_eq_self]
  · exact (hleafk v).trans (har.kernel v hv hvk)
  · rw [hpg, htf]
    refine (hleafr v).trans ((hc.same v hv fun hin' => hnot ((har.forkPages h hp v).mp hin')).trans ?_)
    exact har.leaf v hv
  · rw [hpg]
    obtain ⟨q, h1, h2, h3, h4, h5⟩ := hc.copy v hv ((har.forkPages h hp v).mpr hin')
    rw [har.old_leaf h hp] at h1 h5
    refine ⟨q, (hleafr v).trans h1, h2, h3, h4, fun hfr i hi => ?_⟩
    obtain ⟨h6, h7⟩ := har.spared _ (pteToPa_aligned (leaf s.mem (s.procs p).pgtbl v)) fun hu => by
      rw [hfr] at hu
      exact har.root_ne hp hu.frame_root
    have h8 := (spared_write (W := fun u => u = .trapframe np) hpage.1 hown hin q h3
      (by rw [h2]; exact nofun)).2 i hi
    exact h8.trans ((h5 (by rw [h6, hfr]; trivial) i hi).trans (h7 i hi))

end

theorem procFork_sat {Q : Option Nat → Kernel → Prop} (h : World A g s) (hp : A p)
    (hvac : ∀ p, (s.procs p).state = .unused →
      ¬ A p ∧ ((s.procs p).tf = 0 ∧ (s.procs p).pgtbl = 0) ∧
      leaf s.mem s.kernelPgtbl (kstackVpn p) = 0)
    (hlk : ∀ lk, s.locks lk = false) (htop : leaf s.mem s.kernelPgtbl trampolineVpn ≠ 0)
    (ha : ∀ i, (s.nodes i).begin % pgSize = 0) (hub : (s.procs p).ustackBase % pgSize = 0)
    (hE : ¬ (s.globalPid < 2 ^ 31 ∧ (s.procs p).mmap = none ∧
      pgRoundUp (s.procs p).heapTop ≤ vaMax ∧
        Present s (s.procs p).pgtbl 0 ∧
        (∀ w, StackPages (s.procs p).ustackBase (u32 (s.procs p).ustackPages) w →
          Present s (s.procs p).pgtbl w) ∧
        1 + forkCost s (s.procs p).heapTop (s.procs p).ustackBase (u32 (s.procs p).ustackPages) [] ≤
          (g.free false).length ∧
        4 + 2 * forkCost s (s.procs p).heapTop (s.procs p).ustackBase
          (u32 (s.procs p).ustackPages) [] ≤
          (g.free true).length) → ∀ e, E e)
    (hfull : (∀ p, (s.procs p).state ≠ .unused) → Q none s)
    (hQ : ∀ np l g' s', (s.procs np).state = .unused → (∀ q, q < np → (s.procs q).state ≠ .unused) →
      s.globalPid < 2 ^ 31 → Regions s.nodes (s.procs p).mmap l → Cloned A p np l g s g' s' →
      Q (some s.globalPid) s') :
    Sat (procFork p) s (fun _ => True) Q E := by
  unfold procFork
  rw [sat_bind]
  refine procAlloc_sat h
    (fun q hq => ⟨(hvac q hq).1, (hvac q hq).2.1, fun _ => (hvac q hq).2.2⟩) hlk htop
    (fun hc => hE fun hc' => hc ⟨hc'.1, by omega, by omega⟩)
    (fun hall => (sat_pure _).mpr (hfull hall)) fun np g₁ s₁ hst hfirst hlt har => ?_
  have hpn : p ≠ np := ne_of_out har.apart.out hp
  have hp₁ := har.other hp
  -- the copies
  rw [sat_bind, sat_procOf, hp₁, sat_bind, sat_procOf, sat_bind]
  refine uvmCopyPgtbl_sat (s.procs p).mmap har.apart.space har.world.text
    (hp₁ ▸ (har.world.proc p hp).space.live)
    (har.root_ne hp) (by rw [har.nodes]; exact ha) hub (fun hc => hE fun hc' => hc ?_)
    fun l a g₂ s₂ hl _ hc₂ => ?_
  · obtain ⟨-, hnone, htop', hzero, hstack, huser', hused'⟩ := hc'
    have huser := har.user
    have hused := har.used
    have hcost :
        forkCost s₁ (s.procs p).heapTop (s.procs p).ustackBase (u32 (s.procs p).ustackPages) [] =
          forkCost s (s.procs p).heapTop (s.procs p).ustackBase (u32 (s.procs p).ustackPages) [] :=
          rfl
    refine ⟨[], hnone ▸ .nil, Nat.zero_le _, ?_, ?_, htop', (har.present h hp 0).mpr hzero,
      fun w hw => (har.present h hp w).mpr (hstack w hw), nofun⟩
    · rw [hcost]
      omega
    · rw [hcost]
      omega
  have hw₂ := har.world.copied har.apart rfl rfl hc₂
  have hprocs₂ := rest_procs hc₂.framed.rest
  -- the record and the trap frame of the child
  refine finishFork_sat (x := s.procs p) hw₂ (by rw [hprocs₂]; exact hc₂.trapframe har) hpn ?_ ?_
    (fun hc => hE fun hc' => ?_)
    fun m mmap nodes hin hn hnil hw => ?_
  · rw [rest_nodes hc₂.framed.rest, har.nodes]
    exact ha
  · rw [rest_locks hc₂.framed.rest, har.locks, Function.update_self]
  · rw [hprocs₂, hp₁] at hc
    exact hc hc'.2.1
  rw [hprocs₂] at hin
  rw [hprocs₂, hp₁, rest_nodes hc₂.framed.rest, har.nodes] at hnil
  rw [hprocs₂, har.self]
  exact hQ np l g₂ _ hst hfirst hlt (har.nodes ▸ hl) (hc₂.cloned h hp (hlk _) har hin hn hnil hw)

end

end

end WhuOs.Mem
