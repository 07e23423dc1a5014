import WhuOs.Mem.ExecStack

/-! # The end of `sys_exec`

The pages of the arguments are given back, the process gets the new table, and the old one is
destroyed. None of this touches the image: its tables and frames belong to another root than the one
that is destroyed.
-/

namespace WhuOs.Mem

open Prog Bytes

/-- A space of root `r` beside those of the processes, with the image `P`. -/
structure Prepared (A : ProcId → Prop) (p : ProcId) (r t : Nat) (P : Pages) (g : Ledger)
    (s : Kernel) : Prop where
  world : World A g s
  space : Space g s r t
  user : r ≠ s.kernelPgtbl
  tf : (s.procs p).tf = t
  trap : g.own t = .trapframe p
  backed : Backed g s r t P

/-- The process runs the image `P`: its stack is page `V + 1`, and `sp` is in its trap frame. -/
structure Running (A : ProcId → Prop) (p : ProcId) (r : Nat) (P : Pages) (V entry sp : Nat)
    (g : Ledger) (s : Kernel) :
    Prop where
  ready : Prepared A p r (s.procs p).tf P g s
  pgtbl : (s.procs p).pgtbl = r
  heapTop : (s.procs p).heapTop = V * pgSize
  ustackBase : (s.procs p).ustackBase = (V + 1) * pgSize
  ustackPages : (s.procs p).ustackPages = 1
  a1 : getLE s.mem ((s.procs p).tf + tfA1) 8 = sp
  epc : getLE s.mem ((s.procs p).tf + tfEpc) 8 = entry
  sp : getLE s.mem ((s.procs p).tf + tfSp) 8 = sp

structure ArgsFreed (pages : List Nat) (g : Ledger) (s : Kernel) (g' : Ledger) (s' : Kernel) :
    Prop where
  framed : Framed ArgUse g s g' s'
  own : ∀ q, g'.own q = if q ∈ pages then .free false else g.own q
  user : (g'.free false).length = (g.free false).length + pages.length
  kernel : g'.free true = g.free true

section

variable {A : ProcId → Prop} {g g' g₁ g₂ : Ledger} {s s' s₁ s₂ : Kernel} {p : ProcId}
  {r t v n q a b i o V entry sp : Nat}
  {P : Pages} {strs : List (List UInt8)} {pages ustack : List Nat} {m : Bytes}
  {W : Use → Prop} {G : ExecEvent → Prop}
  {E : Panic → Prop}

/-! ## What an image needs -/

theorem Backed.frame (h : Backed g s r t P) (hheap : Heap g s) (hl : g.Live r)
    (hf : Framed W g s g' s')
    (htable : ∀ x, ¬ W (.table r x)) (hframe : ∀ v, ¬ W (.frame r v)) : Backed g' s' r t P := by
  have hleaf : ∀ w, Mem.leaf s'.mem r w = Mem.leaf s.mem r w := fun w => hf.leaf hheap hl htable
  refine ⟨fun w hw x hx => ?_, fun w hw hx => ?_⟩
  · obtain ⟨q, hq⟩ := h.page w hw x hx
    have hnot : ¬ W (g.own q) := hq.own ▸ hframe w
    exact ⟨q, hq.keep (hleaf w) (hf.own_eq hnot) (hf.mem q hq.page.1 hnot)⟩
  · rw [hleaf w, h.bare w hw hx, bareLeaf_rest hf.rest]

theorem Prepared.frame (h : Prepared A p r t P g s) (hf : Framed W g s g' s') (hw : World A g' s')
    (htable : ∀ x, ¬ W (.table r x)) (hframe : ∀ v, ¬ W (.frame r v)) (htrap : ¬ W (.trapframe p)) :
    Prepared A p r t P g' s' where
  world := hw
  space := h.space.frame hf hw.heap hw.homed htable hframe
  user := by
    rw [rest_kernelPgtbl hf.rest]
    exact h.user
  tf := by
    rw [rest_procs hf.rest]
    exact h.tf
  trap := (hf.own_eq (h.trap ▸ htrap)).trans h.trap
  backed := h.backed.frame h.space.heap h.space.live hf htable hframe

theorem Built.prepared (h : Built A p r P a b g s g₁ s₁) :
    Prepared A p r (s.procs p).tf P g₁ s₁ where
  world := h.world
  space := h.space
  user := by
    rw [rest_kernelPgtbl h.framed.rest]
    exact h.kernel
  tf := by rw [rest_procs h.framed.rest]
  trap := h.trap
  backed := h.backed

/-- The page of the trap frame is written. -/
theorem Prepared.writeTrap (h : Prepared A p r t P g s) (hm : Inside t s.mem m) :
    Prepared A p r t P g (s.setMem m) := by
  have hpage := h.space.heap.page _ (by rw [h.trap]; exact Use.noConfusion)
  have hd : (g.own t).IsData := by
    rw [h.trap]
    trivial
  have hleaf : ∀ w, Mem.leaf m r w = Mem.leaf s.mem r w :=
    fun w => h.space.heap.write_leaf h.space.live hpage.1 hd hm
  refine ⟨h.world.write_page hpage.1 hd hm, h.space.write_page hpage.1 hd hm, h.user, h.tf, h.trap,
    ⟨fun w hw x hx => ?_, fun w hw hx => ?_⟩⟩
  · obtain ⟨q, hq⟩ := h.backed.page w hw x hx
    refine ⟨q, hq.keep (hleaf w) rfl fun i hi => hm.other hpage.1 hq.page.1 ?_ hi⟩
    rintro rfl
    exact nomatch h.trap.symm.trans hq.own
  · exact (hleaf w).trans ((h.backed.bare w hw hx).trans (bareLeaf_rest (rest_setMem _ _) _ _).symm)

/-! ## The pages of the arguments -/

theorem World.giveScratch (h : World A g s) (hq : g.own q = .scratch) :
    q % pgSize = 0 ∧ (s.user.begin ≤ q ∧ q < s.user.stop) ∧
    World A (g.give false q) (pushed s false q) := by
  have hpage := h.heap.page q (by rw [hq]; exact Use.noConfusion)
  obtain ⟨hman, hin⟩ := h.homed.home q false (by rw [hq]; rfl)
  have hb := h.heap.pools.layout.inKernelOf_bounds hman
  rw [hin] at hb
  have hhomed := h.homed.give hman
  rw [hin] at hhomed
  have hf : Framed ArgUse g s (g.give false q) (pushed s false q) :=
    Framed.give hpage.1 (hq ▸ .scratch) .free
  refine ⟨hpage.1, hb, h.frameData hf (h.heap.give hpage.1 hb (fun j hj => ?_) fun r x hx => ?_)
    (hhomed.of_rest (rest_pushed s false q)) ArgUse.not_table (fun r v => nofun)
    (fun p => nofun) fun p _ => nofun⟩
  · rw [hq] at hj
    cases hj
  · rw [hq] at hx
    cases hx

theorem freeArgsT_sat {Q : Unit → Kernel → Prop} (h : World A g s)
    (hpages : ∀ q ∈ pages, g.own q = .scratch) (hnd : pages.Nodup)
    (hG : ∀ j, i ≤ j → j < i + pages.length → G (.argv j))
    (hQ : ∀ g' s', World A g' s' → ArgsFreed pages g s g' s' → Q () s') :
    Sat (freeArgsT i pages) s G Q E := by
  induction pages generalizing g s i with
  | nil =>
      rw [freeArgsT, sat_pure]
      exact hQ g s h ⟨.refl _ _ _, fun q => by rw [if_neg List.not_mem_nil], rfl, rfl⟩
  | cons page pages ih =>
      obtain ⟨hnot, hnd⟩ := List.nodup_cons.mp hnd
      have hown := hpages page List.mem_cons_self
      obtain ⟨hpa, hin, hw⟩ := h.giveScratch hown
      have hne : ∀ q ∈ pages, q ≠ page := by
        rintro q hq rfl
        exact hnot hq
      have hlen : (page :: pages).length = pages.length + 1 := rfl
      unfold freeArgsT
      rw [sat_bind, sat_emit, sat_bind, sat_mute, pmemFree_sat (k := false) h.heap.pools hpa hin]
      refine ⟨hG i (Nat.le_refl i) (by omega), trivial, ?_⟩
      refine ih hw (fun q hq => ?_) hnd (fun j h1 h2 => hG j (by omega) (by omega))
        fun g' s' hw' hf => hQ g' s' hw' ?_
      · exact (Ledger.give_own_ne (hne q hq)).trans (hpages q (List.mem_cons_of_mem _ hq))
      · refine ⟨(Framed.give hpa (hown ▸ .scratch) .free).trans hf.framed, fun q => ?_, ?_, ?_⟩
        · rw [hf.own]
          by_cases hq : q ∈ pages
          · rw [if_pos hq, if_pos (List.mem_cons_of_mem _ hq)]
          · rw [if_neg hq]
            by_cases hqp : q = page
            · subst hqp
              rw [if_pos List.mem_cons_self]
              exact Ledger.give_own_self
            · rw [if_neg (by simp [hqp, hq])]
              exact Ledger.give_own_ne hqp
        · rw [hf.user, hlen]
          change (page :: g.free false).length + pages.length = _
          rw [List.length_cons]
          omega
        · exact hf.kernel

/-! ## The new table takes over -/

/-- The process gets the table; nobody runs on its old one. -/
theorem Prepared.switch {x : Proc} (h : Prepared A p r t P g s) (ha : A p)
    (hne : ∀ q, A q → (s.procs q).pgtbl ≠ r)
    (hpgtbl : x.pgtbl = r) (htf : x.tf = t) (hk : x.kstack = (s.procs p).kstack) :
    Prepared A p r t P g (s.setProc p x) ∧ ∀ q, A q →
    ((s.setProc p x).procs q).pgtbl ≠ (s.procs p).pgtbl := by
  have hsame := sameMem_setProc s p x
  have hself : (s.setProc p x).procs p = x := Function.update_self _ _ _
  have hothers : ∀ q, q ≠ p → (s.setProc p x).procs q = s.procs q :=
    fun q hq => Function.update_of_ne hq _ _
  have hspace : Space g (s.setProc p x) r t := h.space.same hsame
  have hrest : World (fun q => A q ∧ q ≠ p) g (s.setProc p x) := by
    refine (h.world.others p).same hsame (fun q => ?_) fun q hq => ?_
    · by_cases hqp : q = p
      · subst hqp
        rw [hself, hk]
      · rw [hothers q hqp]
    · rw [hothers q hq.2]
      exact ⟨rfl, rfl, .inl⟩
  have hten : Tenant g (s.setProc p x) p := by
    refine ⟨?_, ?_, fun _ => ?_⟩
    · rw [hself, hpgtbl, htf]
      exact hspace
    · rw [hself, hpgtbl]
      exact h.user
    · rw [hself, htf]
      exact h.trap
  have hw : World A g (s.setProc p x) := by
    refine (hrest.insert hten fun q hq hqp => ?_).anti fun q hq => ?_
    · rw [hself, hpgtbl, hothers q hqp]
      exact hne q hq.1
    · by_cases hqp : q = p
      · exact .inr hqp
      · exact .inl ⟨hq, hqp⟩
  refine ⟨⟨hw, hspace, h.user, by rw [hself, htf], h.trap,
    ⟨fun v hv y hy => (h.backed.page v hv y hy).imp fun q hq => hq.keep rfl rfl fun _ _ =>
      rfl, h.backed.bare⟩⟩, fun q hq => ?_⟩
  by_cases hqp : q = p
  · subst hqp
    rw [hself, hpgtbl]
    exact Ne.symm (hne q hq)
  · rw [hothers q hqp]
    exact fun hc => hqp (h.world.distinct q p hq ha hc)

/-- `uvm_destroy_pgtbl` of a table that no process runs on. -/
theorem Prepared.destroyOld {old : Nat} {Q : Unit → Kernel → Prop} (h : Prepared A p r t P g s)
    (hold : Space g s old t) (hne : old ≠ r)
    (hkern : old ≠ s.kernelPgtbl) (hproc : ∀ q, A q → (s.procs q).pgtbl ≠ old)
    (hQ : ∀ g' s', Prepared A p r t P g' s' → Framed (RootUse old) g s g' s' → Q () s') :
    Sat (uvmDestroyPgtbl old) s (fun _ => True) Q E := by
  refine uvmDestroyPgtbl_sat hold fun g' s' hg hno => ?_
  refine hQ g' s'
    (h.frame hg.framed (h.world.gone hkern hproc hg hno) (fun x hu => ?_) (fun v hu => ?_) nofun)
    hg.framed
  · cases hu
    exact hne rfl
  · cases hu
    exact hne rfl

/-- Words of the trap frame. -/
theorem trap_words {c d e : Nat} (hc : c < 2 ^ 64) (hd : d < 2 ^ 64) (he : e < 2 ^ 64)
    (m : Bytes) (t : Nat) :
    let m' := putLE (putLE (putLE m (t + tfA1) 8 c) (t + tfEpc) 8 d) (t + tfSp) 8 e
    Inside t m m' ∧ getLE m' (t + tfA1) 8 = c ∧ getLE m' (t + tfEpc) 8 = d ∧
      getLE m' (t + tfSp) 8 = e := by
  intro m'
  refine ⟨fun b hb => ?_, ?_, ?_, ?_⟩
  · by_contra hout
    refine hb ?_
    unfold m' putLE tfA1 tfEpc tfSp
    unfold pgSize at hout
    rw [splice_out (by omega), splice_out (by omega), splice_out (by omega)]
  · unfold m' putLE tfA1 tfEpc tfSp
    rw [getLE_splice_disjoint (by omega), getLE_splice_disjoint (by omega)]
    exact (getLE_putLE_same _ _ _ _).trans (Nat.mod_eq_of_lt hc)
  · unfold m' putLE tfEpc tfSp
    rw [getLE_splice_disjoint (by omega)]
    exact (getLE_putLE_same _ _ _ _).trans (Nat.mod_eq_of_lt hd)
  · exact (getLE_putLE_same _ _ _ _).trans (Nat.mod_eq_of_lt he)

/-- The trap frame and the process table are written, and the old table goes. -/
theorem Prepared.takeOver {Q : Unit → Kernel → Prop} (h : Prepared A p r t P g s) (ha : A p)
    (hne : ∀ q, A q → (s.procs q).pgtbl ≠ r)
    (hsp : sp < 2 ^ 64) (hentry : entry < 2 ^ 64) (hQ : ∀ g' s', Running A p r P V entry sp g' s' → Q () s') :
    Sat (do
      store ((← procOf p).tf + tfA1) sp
      let oldpgtbl := (← procOf p).pgtbl
      modifyProc p fun x =>
        { x with pgtbl := r, heapTop := V * pgSize, ustackBase := (V + 1) * pgSize, ustackPages := 1 }
      store ((← procOf p).tf + tfEpc) entry
      store ((← procOf p).tf + tfSp) sp
      uvmDestroyPgtbl oldpgtbl) s (fun _ => True) Q E := by
  obtain rfl := h.tf
  obtain ⟨hin, h1, h2, h3⟩ := trap_words hsp hentry hsp s.mem (s.procs p).tf
  simp only [sat_bind, sat_procOf, sat_store, sat_modifyProc, setMem_procs,
    setProc_procs, Function.update_self]
  let y : Proc := { s.procs p with pgtbl := r, heapTop := V * pgSize, ustackBase := (V + 1) * pgSize, ustackPages := 1 }
  change Sat (uvmDestroyPgtbl (s.procs p).pgtbl)
    ((s.setMem (putLE
      (putLE (putLE s.mem ((s.procs p).tf + tfA1) 8 sp) ((s.procs p).tf + tfEpc) 8 entry)
      ((s.procs p).tf + tfSp) 8 sp)).setProc p y) _ _ _
  generalize putLE
    (putLE (putLE s.mem ((s.procs p).tf + tfA1) 8 sp) ((s.procs p).tf + tfEpc) 8 entry)
    ((s.procs p).tf + tfSp) 8 sp = m at hin h1 h2 h3 ⊢
  have hw := h.writeTrap hin
  have hold := hw.world.proc p ha
  obtain ⟨hnew, hnone⟩ := hw.switch (x := y) ha hne rfl rfl rfl
  have hspace : Space g ((s.setMem m).setProc p y) (s.procs p).pgtbl (s.procs p).tf :=
    hold.space.same (sameMem_setProc _ p y)
  refine hnew.destroyOld hspace (hne p ha) hold.user hnone fun g' s' hr hf => hQ g' s' ?_
  have hproc : s'.procs p = y := by
    rw [rest_procs hf.rest]
    exact Function.update_self _ _ _
  have ht : (s'.procs p).tf = (s.procs p).tf := hr.tf
  have hta := (hnew.space.heap.page _ (by rw [hnew.trap]; exact Use.noConfusion)).1
  have hkeep :
      ∀ c, c + 8 ≤ pgSize → getLE s'.mem ((s.procs p).tf + c) 8 = getLE m ((s.procs p).tf + c) 8 :=
      fun c hc => getLE_congr fun i hi => by
    rw [Nat.add_assoc]
    exact hf.mem _ hta (hnew.trap ▸ not_rootUse_trapframe) (c + i) (by omega)
  refine ⟨ht.symm ▸ hr, ?_, ?_, ?_, ?_, ?_, ?_, ?_⟩
  · rw [hproc]
  · rw [hproc]
  · rw [hproc]
  · rw [hproc]
  · rw [ht, hkeep tfA1 (by decide), h1]
  · rw [ht, hkeep tfEpc (by decide), h2]
  · rw [ht, hkeep tfSp (by decide), h3]

theorem execCommitT_sat {elf : ElfHdr} {x : Page} {Q : Except ExecStop Nat → Kernel → Prop}
    (h : Built A p r P a b g s g₁ s₁) (ha : A p)
    (hV : V + 1 < vaPages) (hx : P (V + 1) = some x) (hn : o + (pages.length + 1) * 8 ≤ pgSize)
    (hpages : ∀ q ∈ pages, g₁.own q = .scratch) (hnd : pages.Nodup) (hentry : elf.entry < 2 ^ 64)
    (hargv : ∀ i < pages.length, G (.argv i)) (hustack : ∀ i ≤ pages.length, G (.ustack i))
    (hQ : ∀ g' s',
      Running A p r (P.write (V + 1) o (ustackBytes ustack) ((pages.length + 1) * 8)) V elf.entry
      ((V + 1) * pgSize + o) g' s' → Q (.ok pages.length) s') :
    Sat (execCommitT p elf pages r (V * pgSize) ((V + 1) * pgSize) ustack ((V + 1) * pgSize + o)) s₁
      G Q E := by
  have hsplt : (V + 1) * pgSize + o < 2 ^ 64 := by
    unfold vaPages vaMax pgSize at *
    omega
  unfold execCommitT
  dsimp only
  rw [sat_bind, sat_emitAll]
  refine ⟨fun e he => ?_, ?_⟩
  · obtain ⟨i, hi, rfl⟩ := List.mem_map.mp he
    exact hustack i (Nat.le_of_lt_succ (List.mem_range.mp hi))
  rw [sat_bind, sat_mute]
  refine h.copyout hV hx hn fun m hb _ => ?_
  rw [sat_bind]
  refine freeArgsT_sat hb.world hpages hnd (fun j _ hj => hargv j (by omega)) fun g₂ s₂ hw hf => ?_
  have hready := hb.prepared.frame hf.framed hw (ArgUse.not_table _) (fun v => nofun) nofun
  have hprocs : s₂.procs = s.procs := (rest_procs hf.framed.rest).trans (rest_procs hb.framed.rest)
  have hother : ∀ q, A q → (s₂.procs q).pgtbl ≠ r := by
    rw [hprocs]
    exact h.other
  change ∀ g' s', Running A p r (P.write (V + 1) o (KernelSrc.bytes s₁.mem (.object (ustackBytes ustack))) ((pages.length + 1) * 8)) V
    elf.entry ((V + 1) * pgSize + o) g' s' → Q (.ok pages.length) s' at hQ
  generalize P.write (V + 1) o (KernelSrc.bytes s₁.mem (.object (ustackBytes ustack))) ((pages.length + 1) * 8) = P' at hready hQ
  rw [sat_bind, sat_mute]
  refine hready.takeOver ha hother hsplt hentry fun g' s' hr => ?_
  rw [sat_pure]
  exact hQ g' s' hr

/-! ## The label `bad` -/

theorem release_ok {ip : Bool} (hrel : ip = true → G .release) :
    ∀ e ∈ (if ip then [.release] else []), G e := by
  cases ip with
  | false => exact nofun
  | true => exact List.forall_mem_singleton.mpr (hrel rfl)

/-- Without a table. -/
theorem World.bad {ip : Bool} {why : ExecStop} {Q : Except ExecStop Nat → Kernel → Prop}
    (h : World A g s) (hpages : ∀ q ∈ pages, g.own q = .scratch)
    (hnd : pages.Nodup) (hG : ∀ j < pages.length, G (.argv j)) (hrel : ip = true → G .release)
    (hQ : ∀ g' s', World A g' s' → ArgsFreed pages g s g' s' → Q (.error why) s') :
    Sat (execBadT ip 0 pages why) s G Q E := by
  unfold execBadT
  rw [sat_bind, sat_mute, if_neg (by decide), sat_pure, sat_bind, sat_emitAll, sat_bind]
  refine ⟨release_ok hrel, ?_⟩
  refine freeArgsT_sat h hpages hnd (fun j _ hj => hG j (by omega)) fun g' s' hw hf => ?_
  rw [sat_pure]
  exact hQ g' s' hw hf

/-- With the new table. -/
theorem Prepared.bad {ip : Bool} {why : ExecStop} {Q : Except ExecStop Nat → Kernel → Prop}
    (h : Prepared A p r t P g s)
    (hne : ∀ q, A q → (s.procs q).pgtbl ≠ r)
    (hpages : ∀ q ∈ pages, g.own q = .scratch) (hnd : pages.Nodup)
    (hG : ∀ j < pages.length, G (.argv j)) (hrel : ip = true → G .release)
    (hQ : ∀ g₁ s₁ g' s', Gone r (RootUse r) g s g₁ s₁ → World A g' s' →
      ArgsFreed pages g₁ s₁ g' s' → Q (.error why) s') :
    Sat (execBadT ip r pages why) s G Q E := by
  have hpos := (h.space.heap.table_page h.space.live).2
  unfold execBadT
  rw [sat_bind, sat_mute, if_pos (Nat.pos_iff_ne_zero.mp hpos)]
  refine uvmDestroyPgtbl_sat h.space fun g₁ s₁ hg hno => ?_
  have hw := h.world.gone h.user hne hg hno
  rw [sat_bind, sat_emitAll, sat_bind]
  refine ⟨release_ok hrel, ?_⟩
  refine freeArgsT_sat hw (fun q hq => ?_) hnd (fun j _ hj => hG j (by omega)) fun g' s' hw' hf =>
    ?_
  · have hown := hpages q hq
    exact (hg.framed.own_eq (hown ▸ nofun)).trans hown
  · rw [sat_pure]
    exact hQ g₁ s₁ g' s' hg hw' hf

/-! ## The label `bad`, whatever the state is -/

theorem freeArgsT_any {Q : Unit → Kernel → Prop}
    (hG : ∀ j, i ≤ j → j < i + pages.length → G (.argv j)) (hE : ∀ e, E e)
    (hQ : ∀ s', Q () s') : Sat (freeArgsT i pages) s G Q E := by
  induction pages generalizing s i with
  | nil => exact (sat_pure ()).mpr (hQ s)
  | cons page pages ih =>
      have hlen : (page :: pages).length = pages.length + 1 := rfl
      unfold freeArgsT
      rw [sat_bind, sat_emit, sat_bind, sat_mute]
      refine ⟨hG i (Nat.le_refl i) (by omega),
        (Sat.any _ s).mono (fun _ s₂ _ => ?_) fun e _ => hE e⟩
      exact ih fun j h1 h2 => hG j (by omega) (by omega)

theorem execBadT_any {ip : Bool} {why : ExecStop} {Q : Except ExecStop Nat → Kernel → Prop}
    (hG : ∀ j < pages.length, G (.argv j))
    (hrel : ip = true → G .release) (hE : ∀ e, E e) (hQ : ∀ s', Q (.error why) s') :
    Sat (execBadT ip r pages why) s G Q E := by
  unfold execBadT
  rw [sat_bind, sat_mute]
  refine (Sat.any _ s).mono (fun _ s₂ _ => ?_) fun e _ => hE e
  rw [sat_bind, sat_emitAll, sat_bind]
  refine ⟨release_ok hrel, freeArgsT_any (fun j _ hj => hG j (by omega)) hE fun s₃ => ?_⟩
  rw [sat_pure]
  exact hQ s₃

/-! ## The parts of the call -/

/-- The bounds of the stack page. -/
theorem stack_ends (hV : V + 2 ≤ vaPages) :
    u64 (V * pgSize + pgSize) = (V + 1) * pgSize ∧
    u64 (V * pgSize + 2 * pgSize) = (V + 1) * pgSize + pgSize := by
  have hbound := page_below hV
  constructor
  · rw [← Nat.succ_mul]
    exact u64_of_lt (Nat.lt_of_le_of_lt (Nat.mul_le_mul_right _ (Nat.le_succ _)) hbound)
  · rw [← Nat.add_mul, u64_of_lt hbound, Nat.succ_mul (V + 1)]

/-- The pages that are mapped for a segment are below its end. -/
theorem segmentLoopT_maps {stop perm va : Nat} (fuel : Nat) (hG : ∀ va < stop, G (.map va)) :
    Sat (segmentLoopT r stop perm fuel va) s G (fun _ _ => True) fun _ => True := by
  induction fuel generalizing s va with
  | zero => exact (sat_panic _).mpr trivial
  | succ fuel ih =>
      unfold segmentLoopT
      split
      swap
      · exact (sat_pure _).mpr trivial
      next hlt =>
      rw [sat_bind, sat_mute]
      refine (Sat.any _ s).imp fun q s₁ _ => ?_
      split
      · exact (sat_pure _).mpr trivial
      rw [sat_bind, sat_mute]
      refine (Sat.any _ s₁).imp fun _ s₂ _ => ?_
      rw [sat_bind, sat_emit, sat_bind, sat_mute]
      exact ⟨hG va hlt, (Sat.any _ s₂).imp fun _ s₃ _ => ih⟩

theorem segmentsLoopT_maps {img : Image} {elf : ElfHdr} {sz : Nat} (n : Nat)
    (hG : ∀ va, G (.map va)) :
    Sat (segmentsLoopT img r elf n i sz) s G (fun _ _ => True) fun _ => True := by
  induction n generalizing s i sz with
  | zero => exact (sat_pure _).mpr trivial
  | succ n ih =>
      have hnone : Sat (pure none : ExecM (Option Nat)) s G (fun _ _ => True) fun _ => True :=
        (sat_pure none).mpr trivial
      unfold segmentsLoopT
      dsimp only
      split
      · exact hnone
      split
      · exact ih
      split
      · exact hnone
      split
      · exact hnone
      split
      · exact hnone
      rw [sat_bind]
      refine (segmentLoopT_maps _ fun va _ => hG va).imp fun c s₁ _ => ?_
      split
      · exact (sat_pure _).mpr trivial
      rw [sat_bind, sat_mute]
      refine (Sat.any _ s₁).imp fun c s₂ _ => ?_
      split
      · exact (sat_pure _).mpr trivial
      · exact ih

theorem stackLoopT_maps {sz : Nat} (n : Nat) (hG : ∀ j < i + n, G (.map (u64 (sz + j * pgSize)))) :
    Sat (stackLoopT r sz n i) s G (fun _ _ => True) fun _ => True := by
  induction n generalizing s i with
  | zero => exact (sat_pure _).mpr trivial
  | succ n ih =>
      unfold stackLoopT
      rw [sat_bind, sat_mute]
      refine (Sat.any _ s).imp fun q s₁ _ => ?_
      split
      · exact (sat_pure _).mpr trivial
      rw [sat_bind, sat_mute]
      refine (Sat.any _ s₁).imp fun _ s₂ _ => ?_
      rw [sat_bind, sat_emit, sat_bind, sat_mute]
      refine ⟨hG i (by omega), (Sat.any _ s₂).imp fun _ s₃ _ => ih fun j hj => hG j (by omega)⟩

/-- The file and the new table. -/
theorem execFileT_sat {lookup : List UInt8 → Option Image} {path : List UInt8}
    {Q : Except ExecStop Nat → Kernel → Prop}
    (h : World A g s) (htrap : g.own (s.procs p).tf = .trapframe p)
    (hhold : G .hold) (hfile : lookup path = none → Sat (execBadT false 0 pages .file) s G Q E)
    (hheader : ∀ img, lookup path = some img →
      ¬ ((img.read 0 elfHdrSize).length = elfHdrSize ∧
        (elfHdr (regionOf (img.read 0 elfHdrSize))).magic = elfMagic) →
      Sat (execBadT true 0 pages .header) s G Q E)
    (htable : ¬ (1 ≤ (g.free false).length ∧ 2 ≤ (g.free true).length) → ∀ g' s', Undone g s g' s' →
      Sat (execBadT true 0 pages .table) s' G Q E)
    (hload : ∀ img r g' s', lookup path = some img → Built A p r (fun _ => none) 1 2 g s g' s' →
      Sat (execLoadT p img (elfHdr (regionOf (img.read 0 elfHdrSize))) pages r) s' G Q E) :
    Sat (execFileT p lookup path pages) s G Q E := by
  unfold execFileT
  cases hpath : lookup path with
  | none => exact hfile hpath
  | some img =>
      dsimp only
      rw [sat_bind, sat_emit]
      refine ⟨hhold, ?_⟩
      split
      · next hshort => exact hheader img hpath fun hc => hshort hc.1
      split
      · next hmagic => exact hheader img hpath fun hc => hmagic hc.2
      rw [sat_bind, sat_mute, sat_bind, sat_procOf]
      have hman := (h.homed.home _ true (by rw [htrap]; rfl)).1
      refine procPgtblInit_sat h.heap h.homed h.rooted h.text hman.2 (fun hno g' s' hu =>
        ?_) fun r g' s' hf => ?_
      · rw [if_pos rfl]
        exact htable hno g' s' hu
      · have hne : r ≠ 0 := Nat.pos_iff_ne_zero.mp (hf.space.heap.table_page hf.space.live).2
        rw [if_neg hne]
        exact hload img r g' s' hpath (Built.fresh h htrap hf)

/-- The segments and the stack, whatever the file is. -/
theorem execLoadT_any {img : Image} {elf : ElfHdr} {Q : Except ExecStop Nat → Kernel → Prop}
    (h : Built A p r P a b g s g₁ s₁)
    (hE : ∀ e, E e) (hside : ∀ e, e.Aside → G e)
    (hbad : ∀ ip why s', why = .segment ∨ why = .stack → Sat (execBadT ip r pages why) s' G Q E)
    (hstack : ∀ V P' a' b' g' s', V + 2 ≤ vaPages →
      P' (V + 1) = some ⟨pteW ||| pteR ||| pteU, fun _ => 0⟩ →
      Built A p r P' a' b' g s g' s' → Sat (execStackT p elf pages r (V * pgSize)) s' G Q E) :
    Sat (execLoadT p img elf pages r) s₁ G Q E := by
  unfold execLoadT
  rw [sat_bind]
  refine (segmentsLoopT_same _ _ _ _ _ _).withEvents
    (segmentsLoopT_maps _ fun _ => hside _ trivial).1 ?_
  refine segmentsLoop_any elf.phnum h ⟨rfl, by decide⟩ hE (fun _ _ _ _ s' _ =>
    hbad true .segment s' (.inl rfl))
    fun V P₂ a₂ b₂ g₂ s₂ hV h₂ => ?_
  dsimp only
  rw [pgRoundUp_mul hV, sat_bind, sat_emit, sat_bind]
  refine ⟨hside _ trivial, ?_⟩
  refine (stackLoopT_same _ _ _ _).withEvents (stackLoopT_maps _ fun _ _ => hside _ trivial).1 ?_
  refine stackLoop_sat (i := 0) h₂ (by rw [Nat.add_zero]; exact hV) (fun _ => hE)
    (fun _ _ _ s' _ _ => hbad false .stack s' (.inr rfl))
    fun hroom g₃ s₃ h₃ => ?_
  rw [if_neg (by decide), Nat.add_zero] at *
  refine hstack V _ _ _ g₃ s₃ (hroom (by decide)) ?_ h₃
  unfold Pages.clear
  rw [if_pos (by omega)]

end

end WhuOs.Mem
