import WhuOs.Mem.ExecSpace
import WhuOs.Mem.ExecTrace
import WhuOs.Mem.UserCopy
import Mathlib.Data.List.GetD

/-! # The arguments of `sys_exec`

The strings of the process are copied to pages of the kernel, one page for each. They stay there
while the new space is built, go to its stack page from the last to the first, and the pages are
given back.
-/

namespace WhuOs.Mem

open Prog Bytes

def CStr (f : Bytes) (str : List UInt8) : Prop :=
  (∀ i < str.length, f i = str.getD i 0 ∧ f i ≠ 0) ∧ f str.length = 0

def Readable (s : Kernel) (r a n : Nat) : Prop := ∀ i < n, Present s r ((a + i) / pgSize)

def userWord (m : Bytes) (r a : Nat) : Nat := getLE (userWindow m r a) 0 8

def UserStr (s : Kernel) (r a : Nat) (str : List UInt8) : Prop :=
  Readable s r a (str.length + 1) ∧ CStr (userWindow s.mem r a) str

/-- The words of the process from entry `i` on point to the strings, and the next one is null. -/
def ArgVector (s : Kernel) (r argvAddr : Nat) : Nat → List (List UInt8) → Prop
  | i, [] => Readable s r (u64 (argvAddr + i * 8)) 8 ∧ userWord s.mem r (u64 (argvAddr + i * 8)) = 0
  | i, str :: rest =>
      (Readable s r (u64 (argvAddr + i * 8)) 8 ∧ userWord s.mem r (u64 (argvAddr + i * 8)) ≠ 0) ∧
        (str.length < pgSize ∧ UserStr s r (userWord s.mem r (u64 (argvAddr + i * 8))) str) ∧
        ArgVector s r argvAddr (i + 1) rest

/-- The same for `n` words at most: after `n` strings there need not be a null. -/
def ArgArray (s : Kernel) (r argvAddr : Nat) : Nat → Nat → List (List UInt8) → Prop
  | 0, _, strs => strs = []
  | _ + 1, i, [] =>
      Readable s r (u64 (argvAddr + i * 8)) 8 ∧ userWord s.mem r (u64 (argvAddr + i * 8)) = 0
  | n + 1, i, str :: rest =>
      (Readable s r (u64 (argvAddr + i * 8)) 8 ∧ userWord s.mem r (u64 (argvAddr + i * 8)) ≠ 0) ∧
        (str.length < pgSize ∧ UserStr s r (userWord s.mem r (u64 (argvAddr + i * 8))) str) ∧
        ArgArray s r argvAddr n (i + 1) rest

/-- The uses that copying arguments touches. -/
inductive ArgUse : Use → Prop
  | free : ArgUse (.free false)
  | scratch : ArgUse .scratch

/-- A page of the kernel that holds a string. -/
structure ArgPage (g : Ledger) (s : Kernel) (page : Nat) (str : List UInt8) : Prop where
  own : g.own page = .scratch
  short : str.length < pgSize
  str : CStr (window s.mem page) str

/-- The arguments `strs` were copied to the pages since the state `s`. -/
structure ArgsHeld (A : ProcId → Prop) (p : ProcId) (strs : List (List UInt8)) (pages : List Nat)
    (g : Ledger) (s : Kernel)
    (g' : Ledger) (s' : Kernel) : Prop where
  world : World A g' s'
  trap : g'.own (s.procs p).tf = .trapframe p
  framed : Framed ArgUse g s g' s'
  held : List.Forall₂ (ArgPage g' s') pages strs
  nodup : pages.Nodup
  user : (g.free false).length = (g'.free false).length + pages.length
  kernel : g'.free true = g.free true

section

variable {A : ProcId → Prop} {g g' g₁ g₂ : Ledger} {s s' s₁ s₂ : Kernel} {p : ProcId}
  {r t v w n q a i k : Nat}
  {str : List UInt8} {strs rest : List (List UInt8)} {pages : List Nat} {m m' : Bytes}
  {G : ExecEvent → Prop} {E : Panic → Prop}

/-! ## Strings and words -/

theorem CStr.congr {f f' : Bytes} (h : CStr f str) (he : ∀ i ≤ str.length, f' i = f i) :
    CStr f' str := by
  refine ⟨fun i hi => ?_, ?_⟩
  · rw [he i (Nat.le_of_lt hi)]
    exact h.1 i hi
  · rw [he _ (Nat.le_refl _)]
    exact h.2

theorem UserStr.same_mem (h : UserStr s r a str) (hm : s'.mem = s.mem) : UserStr s' r a str := by
  unfold UserStr Readable Present at h ⊢
  rwa [hm]

theorem ArgVector.array {argvAddr : Nat} (h : ArgVector s r argvAddr i strs)
    (hn : strs.length < n) : ArgArray s r argvAddr n i strs := by
  induction strs generalizing i n with
  | nil =>
      obtain ⟨n, rfl⟩ :=
        Nat.exists_eq_succ_of_ne_zero (Nat.pos_iff_ne_zero.mp (Nat.zero_lt_of_lt hn))
      exact h
  | cons str strs ih =>
      obtain ⟨n, rfl⟩ :=
        Nat.exists_eq_succ_of_ne_zero (Nat.pos_iff_ne_zero.mp (Nat.zero_lt_of_lt hn))
      exact ⟨h.1, h.2.1, ih h.2.2 (Nat.lt_of_succ_lt_succ hn)⟩

theorem ArgArray.length_le {argvAddr : Nat} (h : ArgArray s r argvAddr n i strs) :
    strs.length ≤ n := by
  induction n generalizing i strs with
  | zero => exact Nat.le_of_eq (congrArg List.length h)
  | succ n ih =>
      cases strs with
      | nil => exact Nat.zero_le _
      | cons str strs => exact Nat.succ_le_succ (ih h.2.2)

theorem userWord_bytes (m : Bytes) (r a : Nat) :
    getLE (regionOf (userBytes m r a 8)) 0 8 = userWord m r a := by
  refine getLE_congr fun i hi => ?_
  unfold regionOf userBytes userWindow
  rw [List.getD_eq_getElem?_getD, List.getElem?_map, List.getElem?_range (by omega)]
  simp

theorem ArgPage.frame {W : Use → Prop} {page : Nat} (h : ArgPage g s page str)
    (hf : Framed W g s g' s') (hp : page % pgSize = 0)
    (hW : ¬ W .scratch) : ArgPage g' s' page str := by
  have hown := h.own
  refine ⟨(hf.own_eq (hown ▸ hW)).trans hown, h.short, h.str.congr fun i hi => ?_⟩
  exact hf.mem page hp (hown ▸ hW) i (Nat.lt_of_le_of_lt hi h.short)

/-! ## The memory of the process meanwhile -/

theorem ArgUse.not_table (r : Nat) (x : List Nat) : ¬ ArgUse (.table r x) := nofun

/-- What the process can read is not touched. -/
theorem World.readable_kept (h : World A g s) (ha : A p)
    (htrap : g.own (s.procs p).tf = .trapframe p)
    (hf : Framed ArgUse g s g' s') (hv : Present s (s.procs p).pgtbl v) (hi : i < pgSize) :
    s'.mem (pteToPa (leaf s.mem (s.procs p).pgtbl v) + i) =
      s.mem (pteToPa (leaf s.mem (s.procs p).pgtbl v) + i) := by
  refine hf.mem _ (pteToPa_aligned _) ?_ i hi
  rcases (h.proc p ha).space.leaf v hv.1 hv.2 with h1 | ⟨-, h1⟩ | ⟨-, h1⟩
  · rw [h1]
    nofun
  · rw [h1, trampolinePte_pa h.text h.heap.pools.layout]
    intro hu
    have hman : ∀ k, (g.own s.trampoline).home = some k → False := by
      intro k hk
      have hm := (h.homed.home _ k hk).1.1
      have h2 := h.text.below
      have h3 := h.text.end_le
      omega
    cases hown : g.own s.trampoline with
    | free k => exact hman k (by rw [hown]; rfl)
    | scratch => exact hman false (by rw [hown]; rfl)
    | _ =>
        rw [hown] at hu
        cases hu
  · have hpage := h.heap.page _ (by rw [htrap]; exact Use.noConfusion)
    have hlt := (h.homed.home _ true (by rw [htrap]; rfl)).1.2
    rw [h1, trapframePte_pa hpage.1 hlt, htrap]
    nofun

theorem ArgsHeld.entries (h : ArgsHeld A p strs pages g s g₁ s₁)
    (hw : World A g s) (ha : A p) (v : Nat) :
    leaf s₁.mem (s.procs p).pgtbl v = leaf s.mem (s.procs p).pgtbl v :=
  h.framed.leaf hw.heap (hw.proc p ha).space.live (ArgUse.not_table _)

theorem ArgsHeld.present (h : ArgsHeld A p strs pages g s g₁ s₁)
    (hw : World A g s) (ha : A p) (v : Nat) :
    Present s₁ (s.procs p).pgtbl v ↔ Present s (s.procs p).pgtbl v := by
  unfold Present
  rw [h.entries hw ha]

theorem ArgsHeld.seen (h : ArgsHeld A p strs pages g s g₁ s₁) (hw : World A g s) (ha : A p)
    (htrap : g.own (s.procs p).tf = .trapframe p)
    (hr : Readable s (s.procs p).pgtbl a n) (hi : i < n) :
    userWindow s₁.mem (s.procs p).pgtbl a i = userWindow s.mem (s.procs p).pgtbl a i := by
  unfold userWindow userAddr
  rw [h.entries hw ha]
  exact hw.readable_kept ha htrap h.framed (hr i hi) (Nat.mod_lt _ (by decide))

theorem ArgsHeld.readable (h : ArgsHeld A p strs pages g s g₁ s₁) (hw : World A g s) (ha : A p) :
    Readable s₁ (s.procs p).pgtbl a n ↔ Readable s (s.procs p).pgtbl a n := by
  unfold Readable
  simp only [h.present hw ha]

theorem ArgsHeld.word (h : ArgsHeld A p strs pages g s g₁ s₁) (hw : World A g s) (ha : A p)
    (htrap : g.own (s.procs p).tf = .trapframe p) (hr : Readable s (s.procs p).pgtbl a 8) :
    userWord s₁.mem (s.procs p).pgtbl a = userWord s.mem (s.procs p).pgtbl a :=
  getLE_congr fun i hi => h.seen hw ha htrap hr (by omega)

theorem ArgsHeld.string (h : ArgsHeld A p strs pages g s g₁ s₁) (hw : World A g s) (ha : A p)
    (htrap : g.own (s.procs p).tf = .trapframe p) (hstr : UserStr s (s.procs p).pgtbl a str) :
    UserStr s₁ (s.procs p).pgtbl a str :=
  ⟨(h.readable hw ha).mpr hstr.1, hstr.2.congr fun _ hi =>
    h.seen hw ha htrap hstr.1 (Nat.lt_succ_of_le hi)⟩

theorem ArgsHeld.nil (h : World A g s) (htrap : g.own (s.procs p).tf = .trapframe p) :
    ArgsHeld A p [] [] g s g s :=
  ⟨h, htrap, .refl _ _ _, .nil, List.nodup_nil, rfl, rfl⟩

/-! ## Copying a string -/

theorem Heap.mapped (h : Heap g s) (hl : g.Live r) (hv : Present s r v) : Mapped s.mem r v := by
  refine ⟨hv.1, ?_, hv.2⟩
  obtain ⟨q, hq⟩ := leaf_ne_zero fun hz => by
    have hval := hv.2
    rw [hz, hasFlag_zero] at hval
    cases hval
  have hpos := (h.table_page (h.low_own hl hq)).2
  rw [slot_eq hq]
  unfold pteAt
  omega

theorem CStr.unique {f : Bytes} {str' : List UInt8} (h : CStr f str) (h' : CStr f str') :
    str' = str := by
  have hlen : str'.length = str.length := by
    rcases Nat.lt_trichotomy str'.length str.length with hlt | he | hlt
    · exact absurd h'.2 (h.1 _ hlt).2
    · exact he
    · exact absurd h.2 (h'.1 _ hlt).2
  refine List.ext_getElem hlen fun i h1 h2 => ?_
  have e1 := (h'.1 i h1).1
  have e2 := (h.1 i h2).1
  rw [List.getD_eq_getElem _ _ h1] at e1
  rw [List.getD_eq_getElem _ _ h2] at e2
  exact e1.symm.trans e2

/-- `uvm_copyin_str` to a page that the process does not see: a string of the process ends up there,
or `PGSIZE` bytes without a zero, and then the byte before the page is cleared. -/
theorem uvmCopyinStr_page {Q : Unit → Kernel → Prop} {G : Event → Prop} (h : Heap g s)
    (hl : g.Live r) (hq : q % pgSize = 0)
    (hd : (g.own q).IsData) (htext : s.etext < q) (hlt : q < physTop)
    (hapart : ∀ v, Present s r v → pteToPa (leaf s.mem r v) ≠ q)
    (hE : (¬ ∀ i < pgSize, (∀ i' < i, userWindow s.mem r a i' ≠ 0) →
      Present s r ((a + i) / pgSize)) → ∀ e, E e)
    (hstr : ∀ m str, Inside q s.mem m → str.length < pgSize → UserStr s r a str →
      CStr (window m q) str → Q () (s.setMem m))
    (hlong : ∀ m, Inside q s.mem m → (∀ i < pgSize, userWindow s.mem r a i ≠ 0) → (∀ i < pgSize, m (q + i) ≠ 0) →
      Q () (s.setMem (splice m (q - 1) (fun _ => 0) 1))) :
    Sat (uvmCopyinStr r q a pgSize) s G Q E := by
  have hphys : physTop < 2 ^ 64 := by decide
  have hsub : sub64 q 1 = q - 1 := by
    unfold sub64 u64
    omega
  have hfst : ∀ i ≤ pgSize, Inside q s.mem (strCopy s.mem r q a i).1 := fun i hi b hb => by
    by_contra hc
    exact hb (strCopy_outside (by omega))
  have hsnd : ∀ i ≤ pgSize, Inside q s.mem (strCopy s.mem r q a i).2 := fun i hi b hb => by
    by_contra hc
    exact hb (strCopy_snd_outside (by omega))
  have hleaf : ∀ i ≤ pgSize, ∀ v, leaf (strCopy s.mem r q a i).2 r v = leaf s.mem r v :=
    fun i hi v =>
    h.write_leaf hl hq hd (hsnd i hi)
  have hseen :
      ∀ i < pgSize, Present s r ((a + i) / pgSize) →
      byteSeen s.mem r q a i = userWindow s.mem r a i := by
    intro i hi hp
    unfold byteSeen userWindow userAddr
    rw [hleaf i (Nat.le_of_lt hi)]
    exact (hfst i (Nat.le_of_lt hi)).other hq (pteToPa_aligned _) (hapart _ hp)
      (Nat.mod_lt _ (by decide))
  by_cases hall : ∀ i < pgSize, (∀ i' < i, userWindow s.mem r a i' ≠ 0) → Present s r ((a + i) / pgSize)
  swap
  · have hE' := hE hall
    refine uvmCopyinStr_run (Nat.lt_trans hlt hphys) (fun _ => hE' _) (fun _ => hE' _) (fun _ _ _ _ => hE') fun found j m' hlook hrun => ?_
    -- what was looked up was mapped
    refine absurd (fun i hi => ?_) hall
    induction i using Nat.strongRecOn with
    | ind i ih =>
        intro hnz
        have hpres : ∀ i' < i, Present s r ((a + i') / pgSize) := fun i' hi' =>
          ih i' hi' (Nat.lt_trans hi' hi) fun k hk => hnz k (Nat.lt_trans hk hi')
        have hm := hlook i hi fun i' hi' => by
          rw [Nat.zero_add, hseen i' (Nat.lt_trans hi' hi) (hpres i' hi')]
          exact hnz i' hi'
        rw [Nat.zero_add] at hm
        have hval := hm.2.2
        rw [hleaf i (Nat.le_of_lt hi)] at hval
        exact ⟨hm.1, hval⟩
  have hnz : ∀ j ≤ pgSize, (∀ i < j, byteSeen s.mem r q a i ≠ 0) →
    ∀ i < j, userWindow s.mem r a i ≠ 0 := by
    intro j hj hb i
    induction i using Nat.strongRecOn with
    | ind i ih =>
        intro hi
        have hp := hall i (by omega) fun i' hi' => ih i' hi' (Nat.lt_trans hi' hi)
        rw [← hseen i (by omega) hp]
        exact hb i hi
  refine uvmCopyinStr_run (Nat.lt_trans hlt hphys) (fun hc => by omega) (fun hc => by omega)
    (fun i hi hb hn => absurd ?_ hn)
    fun found j m' _ hrun => ?_
  · have hp := hall i hi (hnz i (Nat.le_of_lt hi) hb)
    refine (h.write_page hq hd (hsnd i (Nat.le_of_lt hi))).mapped hl ⟨hp.1, ?_⟩
    rw [setMem_mem, hleaf i (Nat.le_of_lt hi)]
    exact hp.2
  have hbefore := hrun.before
  simp only [Nat.zero_add] at hbefore
  cases found with
  | true =>
      obtain ⟨hj, hzero, rfl⟩ := hrun.zero rfl
      rw [Nat.zero_add] at hzero ⊢
      have hbytes := hnz j (Nat.le_of_lt hj) hbefore
      have hread : ∀ i ≤ j, Present s r ((a + i) / pgSize) := fun i hi =>
        hall i (by omega) fun i' hi' => hbytes i' (by omega)
      have hlen : ((List.range j).map (userWindow s.mem r a)).length =
        j := by rw [List.length_map, List.length_range]
      have hc : CStr (userWindow s.mem r a) ((List.range j).map (userWindow s.mem r a)) := by
        refine ⟨fun i hi => ⟨?_, hbytes i (hlen ▸ hi)⟩, ?_⟩
        · rw [List.getD_eq_getElem _ _ hi, List.getElem_map, List.getElem_range]
        · rw [hlen, ← hseen j hj (hread j (Nat.le_refl j))]
          exact hzero
      rw [strEnd, if_pos rfl]
      refine hstr _ _ (hfst (j + 1) hj) (hlen.symm ▸ hj) ⟨fun i hi => hread i (by omega), hc⟩
        (hc.congr fun i hi => ?_)
      rw [hlen] at hi
      rw [window, strCopy_byte (Nat.lt_succ_of_le hi), hseen i (by omega) (hread i hi)]
  | false =>
      obtain ⟨rfl, rfl⟩ := hrun.full rfl
      rw [Nat.zero_add, strEnd, if_neg (by decide), hsub]
      refine hlong _ (hfst pgSize (Nat.le_refl _)) (hnz pgSize (Nat.le_refl _) hbefore) fun i hi =>
        ?_
      rw [strCopy_byte hi]
      exact hbefore i hi

/-- A string shorter than a page. -/
theorem uvmCopyinStr_str {G : Event → Prop} (h : Heap g s) (hl : g.Live r) (hq : q % pgSize = 0)
    (hd : (g.own q).IsData)
    (htext : s.etext < q) (hlt : q < physTop)
    (hapart : ∀ v, Present s r v → pteToPa (leaf s.mem r v) ≠ q)
    (hstr : UserStr s r a str) (hshort : str.length < pgSize) :
    Sat (uvmCopyinStr r q a pgSize) s G
      (fun _ s' => ∃ m', s' = s.setMem m' ∧ Inside q s.mem m' ∧ CStr (window m' q) str) E := by
  refine uvmCopyinStr_page h hl hq hd htext hlt hapart
    (fun hbad => absurd (fun i _ hnz => hstr.1 i ?_) hbad)
    (fun m str' hm _ hstr' hc => ?_) fun m _ hnz _ => absurd hstr.2.2 (hnz _ hshort)
  · by_contra hc
    exact hnz str.length (by omega) hstr.2.2
  · obtain rfl := hstr.2.unique hstr'.2
    exact ⟨m, rfl, hm, hc⟩

/-! ## The loop over the user's array -/

/-- A page more, with the next string. -/
theorem ArgsHeld.snoc (h : ArgsHeld A p strs pages g s g₁ s₁)
    (hg : Granted g₁ s₁ false .scratch q g₂ s₂) (hq : q ≠ 0)
    (hm : Inside q s₂.mem m) (hstr : CStr (window m q) str) (hshort : str.length < pgSize) :
    ArgsHeld A p (strs ++ [str]) (pages ++ [q]) g s g₂ (s₂.setMem m) := by
  obtain ⟨hw, hf⟩ := h.world.granted hg hq trivial rfl nofun (fun _ _ => nofun)
  cases hg with
  | none _ => exact absurd rfl hq
  | some pos lt was length heap mem rest =>
  have hown : (g₁.grant false q .scratch).own q = .scratch := Ledger.grant_own_self
  have hqa := (heap.page q (by rw [hown]; exact Use.noConfusion)).1
  have hd : ((g₁.grant false q .scratch).own q).IsData := by
    rw [hown]
    trivial
  have hnot : ∀ page ∈ pages, page ≠ q := by
    rintro page hpage rfl
    obtain ⟨i, hi, rfl⟩ := List.mem_iff_getElem.mp hpage
    have hi' : i < strs.length := h.held.length_eq ▸ hi
    have harg := (List.forall₂_iff_get.mp h.held).2 i hi hi'
    exact nomatch was.symm.trans harg.own
  have hkeep :
      ∀ page ∈ pages, ∀ st, ArgPage g₁ s₁ page st →
      ArgPage (g₁.grant false q .scratch) (s₂.setMem m) page st := by
    intro page hpage st harg
    have hpa := (h.world.heap.page page (by rw [harg.own]; exact Use.noConfusion)).1
    refine ⟨(Ledger.grant_own_ne (hnot page hpage)).trans harg.own, harg.short,
      harg.str.congr fun i hi => ?_⟩
    rw [window, window, setMem_mem,
      hm.other hqa hpa (hnot page hpage) (Nat.lt_of_le_of_lt hi harg.short), mem]
  refine ⟨hw.write_page hqa hd hm, ?_, ?_, ?_, ?_, ?_, ?_⟩
  · refine (Ledger.grant_own_ne fun he => ?_).trans h.trap
    have htrap := h.trap
    rw [he, was] at htrap
    cases htrap
  · refine h.framed.trans
      ((hf.mono fun u hu => ?_).trans (Framed.write hqa (by rw [hown]; exact .scratch) hm))
    rcases hu with rfl | rfl
    · exact .scratch
    · exact .free
  · refine List.rel_append (List.forall₂_iff_get.mpr ⟨h.held.length_eq, fun i h1 h2 => ?_⟩)
      (.cons ⟨hown, hshort, hstr⟩ .nil)
    exact hkeep _ (List.get_mem _ _) _ ((List.forall₂_iff_get.mp h.held).2 i h1 h2)
  · rw [List.nodup_append]
    refine ⟨h.nodup, List.nodup_singleton q, fun x hx y hy => ?_⟩
    obtain rfl := List.mem_singleton.mp hy
    exact hnot x hx
  · rw [List.length_append, List.length_singleton]
    have hu := h.user
    omega
  · rw [Ledger.grant_free_ne (by decide), h.kernel]

/-- A new argument page is behind no page of the process. -/
theorem World.scratch_apart (h : World A g s) (ha : A p)
    (htrap : g.own (s.procs p).tf = .trapframe p)
    (hq : g.own q = .scratch) (hv : Present s (s.procs p).pgtbl v) :
    pteToPa (leaf s.mem (s.procs p).pgtbl v) ≠ q := by
  rintro rfl
  rcases (h.proc p ha).space.leaf v hv.1 hv.2 with h1 | ⟨-, h1⟩ | ⟨-, h1⟩
  · exact nomatch hq.symm.trans h1
  · rw [h1, trampolinePte_pa h.text h.heap.pools.layout] at hq
    have hm := (h.homed.home _ false (by rw [hq]; rfl)).1.1
    have h2 := h.text.below
    have h3 := h.text.end_le
    omega
  · have hpage := h.heap.page _ (by rw [htrap]; exact Use.noConfusion)
    have hlt := (h.homed.home _ true (by rw [htrap]; rfl)).1.2
    rw [h1, trapframePte_pa hpage.1 hlt, htrap] at hq
    cases hq

/-- Frames come after the pages of the kernel. -/
theorem World.scratch_text (h : World A g s) (hq : g.own q = .scratch) :
    s.etext < q ∧ q < physTop := by
  have hhome := h.homed.home q false (by rw [hq]; rfl)
  have hb := h.heap.pools.layout.inKernelOf_bounds hhome.1
  have h3 := h.text.end_le
  refine ⟨?_, hhome.1.2⟩
  have hman := hhome.1.1
  have hin := of_decide_eq_false hhome.2
  unfold Managed at *
  unfold kernelPages pgSize at hin
  omega

/-- The loop over a vector of strings. It ends early when there is no page for the next one. -/
theorem argvLoopT_sat {argvAddr : Nat} {Q : Option (List Nat) → Kernel → Prop}
    (hw : World A g s) (ha : A p)
    (htrap : g.own (s.procs p).tf = .trapframe p) (h : ArgsHeld A p strs pages g s g₁ s₁)
    (hvec : ArgArray s (s.procs p).pgtbl argvAddr n i rest)
    (hG : ∀ j, i ≤ j → j < i + rest.length → G (.argv j))
    (hnone : ∀ strs' pages' g' s', ArgsHeld A p strs' pages' g s g' s' → g'.free false = [] →
      pages'.length < pages.length + rest.length → Q none s')
    (hQ : ∀ pages' g' s', ArgsHeld A p (strs ++ rest) pages' g s g' s' → Q (some pages') s') :
    Sat (argvLoopT p argvAddr n i pages) s₁ G Q E := by
  induction n generalizing strs pages rest g₁ s₁ i with
  | zero =>
      obtain rfl : rest = [] := hvec
      rw [argvLoopT, sat_pure]
      have hq := hQ pages g₁ s₁
      rw [List.append_nil] at hq
      exact hq h
  | succ n ih =>
      have hprocs := rest_procs h.framed.rest
      have hl₁ := (h.world.proc p ha).space.live
      rw [hprocs] at hl₁
      unfold argvLoopT
      cases rest with
      | nil =>
          obtain ⟨hr, hz⟩ := hvec
          rw [sat_bind, sat_mute, sat_bind, sat_procOf, hprocs]
          refine uvmCopyinVar_sat h.world.heap hl₁ (fun hc => absurd ((h.readable hw ha).mpr hr) hc)
            fun _ => ?_
          rw [userWord_bytes, h.word hw ha htrap hr, if_pos hz, sat_pure]
          have hq := hQ pages g₁ s₁
          rw [List.append_nil] at hq
          exact hq h
      | cons str rest =>
          obtain ⟨⟨hr, hnz⟩, ⟨hshort, hstr⟩, hrest⟩ := hvec
          rw [sat_bind, sat_mute, sat_bind, sat_procOf, hprocs]
          refine uvmCopyinVar_sat h.world.heap hl₁ (fun hc => absurd ((h.readable hw ha).mpr hr) hc)
            fun _ => ?_
          rw [userWord_bytes, h.word hw ha htrap hr, if_neg hnz, sat_bind, sat_mute]
          have hGi : G (.argv i) := hG i (Nat.le_refl i) (by rw [List.length_cons]; omega)
          refine (pmemAlloc_heap h.world.heap false (u := .scratch) trivial).imp
            fun q s₂ ⟨g₂, hg⟩ => ?_
          rw [sat_bind, sat_emitAll]
          refine ⟨by simp [hGi], ?_⟩
          by_cases hq : q = 0
          · subst hq
            cases hg with
            | some pos => exact absurd pos (Nat.lt_irrefl 0)
            | none hempty =>
                rw [if_pos rfl, sat_pure]
                exact hnone _ _ _ _ h hempty (by rw [List.length_cons]; omega)
          rw [if_neg hq, sat_bind, sat_emit]
          refine ⟨hGi, ?_⟩
          obtain ⟨hw₂, hf₂⟩ := h.world.granted hg hq trivial rfl nofun (fun _ _ => nofun)
          have hown : g₂.own q = .scratch ∧ s₂.mem = s₁.mem := by
            cases hg with
            | none _ => exact absurd rfl hq
            | some pos lt was length heap mem rest => exact ⟨Ledger.grant_own_self, mem⟩
          have hprocs₂ : s₂.procs = s.procs := (rest_procs hf₂.rest).trans hprocs
          have hl₂ := (hw₂.proc p ha).space.live
          rw [hprocs₂] at hl₂
          have htrap₂ : g₂.own (s₂.procs p).tf = .trapframe p := by
            rw [hprocs₂]
            exact (hf₂.own_eq (by rw [h.trap]; nofun)).trans h.trap
          have htext := hw₂.scratch_text hown.1
          have hqa := (hw₂.heap.page q (by rw [hown.1]; exact Use.noConfusion)).1
          rw [sat_bind, sat_mute, sat_bind, sat_procOf, hprocs₂]
          refine (uvmCopyinStr_str hw₂.heap hl₂ hqa
            (by rw [hown.1]; trivial) htext.1 htext.2 (fun v hv => ?_)
            ((h.string hw ha htrap hstr).same_mem hown.2) hshort).imp ?_
          · have hap := hw₂.scratch_apart ha htrap₂ hown.1 (v := v)
            rw [hprocs₂] at hap
            exact hap hv
          · rintro - s₃ ⟨m, rfl, hm, hc⟩
            refine ih (h.snoc hg hq hm hc hshort) hrest (fun j h1 h2 => hG j (by omega) ?_)
              (fun strs' pages' g' s' h1 h2 h3 => hnone strs' pages' g' s' h1 h2 ?_)
              fun pages' g' s' h1 => hQ pages' g' s' ?_
            · rw [List.length_cons]
              omega
            · rw [List.length_append, List.length_singleton] at h3
              rw [List.length_cons]
              omega
            · rwa [List.append_assoc] at h1

end

end WhuOs.Mem
