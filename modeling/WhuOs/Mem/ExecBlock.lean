import WhuOs.Mem.ExecEnd
import WhuOs.Mem.Boot
import Mathlib.Data.List.GetD

/-! # The argument block

What the new process finds on its stack: the strings, below them the array of pointers with a null
at the end, all on one page. The call fails for lack of room exactly when the sizes, each up to the
next multiple of 16, come to more than a page.
-/

namespace WhuOs.Mem

open Prog Bytes

/-- The strings and the pointers to them, on the page at `base`. -/
def PageBlock (base : Nat) (data : Bytes) (strs : List (List UInt8)) : Prop :=
  ∃ ustack, Placed base data ustack strs ∧
    ∀ i ≤ strs.length, getLE data (pgSize - blockBytes strs + 8 * i) 8 = ustack.getD i 0

/-- The arguments as the process sees them, on the page at `base`. -/
structure ArgBlock (m : Bytes) (r base sp : Nat) (strs : List (List UInt8)) : Prop where
  aligned : sp % 16 = 0
  low : base ≤ sp
  room : sp + 8 * (strs.length + 1) ≤ base + pgSize
  string : ∀ i, (hi : i < strs.length) → CStr (userWindow m r (userWord m r (sp + 8 * i))) strs[i]
  null : userWord m r (sp + 8 * strs.length) = 0
  above : ∀ i < strs.length, sp + 8 * (strs.length + 1) ≤ userWord m r (sp + 8 * i)
  apart : ∀ i j, (hij : i < j) → (hj : j < strs.length) →
    userWord m r (sp + 8 * i) + strs[i].length + 1 ≤ userWord m r (sp + 8 * j)
  high : ∀ i, (hi : i < strs.length) →
    userWord m r (sp + 8 * i) + strs[i].length + 1 ≤ base + pgSize

/-- What `sys_exec` did with the arguments `strs` of process `p`. -/
def ArgsOutcome (p : ProcId) (strs : List (List UInt8)) : Except ExecStop Nat → Kernel → Prop
  | .ok argc, s =>
      argc = strs.length ∧ blockBytes strs ≤ pgSize ∧
        getLE s.mem ((s.procs p).tf + tfA1) 8 = getLE s.mem ((s.procs p).tf + tfSp) 8 ∧
        (s.procs p).ustackPages = 1 ∧
        ArgBlock s.mem (s.procs p).pgtbl (s.procs p).ustackBase
          (getLE s.mem ((s.procs p).tf + tfSp) 8) strs
  | .error why, _ => why = .argument ∨ why = .pointers → ¬ blockBytes strs ≤ pgSize

section

variable {A : ProcId → Prop} {g g' g₁ g₂ : Ledger} {s s' s₁ s₂ : Kernel} {p : ProcId}
  {r t v n q a b i j o V entry sp base : Nat}
  {P : Pages} {strs : List (List UInt8)} {pages ustack : List Nat} {m data : Bytes}
  {G : ExecEvent → Prop} {E : Panic → Prop}

/-! ## The strings in their places -/

theorem Placed.length_eq (h : Placed base data ustack strs) : ustack.length = strs.length := by
  induction ustack generalizing strs with
  | nil =>
      cases strs with
      | nil => rfl
      | cons str strs => exact h.elim
  | cons a ustack ih =>
      cases strs with
      | nil => exact h.elim
      | cons str strs => rw [List.length_cons, List.length_cons, ih h.2]

theorem Placed.get (h : Placed base data ustack strs) (hi : i < strs.length) :
    argBytes (strs.drop i) ≤ pgSize ∧ ustack.getD i 0 = base + (pgSize - argBytes (strs.drop i)) ∧
      CStr (window data (pgSize - argBytes (strs.drop i))) strs[i] := by
  induction ustack generalizing strs i with
  | nil =>
      cases strs with
      | nil => exact absurd hi (Nat.not_lt_zero _)
      | cons str strs => exact h.elim
  | cons a ustack ih =>
      cases strs with
      | nil => exact h.elim
      | cons str strs =>
          cases i with
          | zero => exact h.1
          | succ i => exact ih h.2 (Nat.lt_of_succ_lt_succ hi)

theorem argBytes_drop (hi : i < strs.length) :
    argBytes (strs.drop i) = up16 (strs[i].length + 1) + argBytes (strs.drop (i + 1)) := by
  rw [List.drop_eq_getElem_cons hi, argBytes_cons]

theorem argBytes_drop_le (hij : i ≤ j) : argBytes (strs.drop j) ≤ argBytes (strs.drop i) := by
  induction hij with
  | refl => exact Nat.le_refl _
  | @step j hij ih =>
      by_cases hj : j < strs.length
      · have hd := argBytes_drop hj
        rw [Nat.succ_eq_add_one]
        omega
      · have h1 : strs.drop j.succ = [] := List.drop_eq_nil_of_le (by omega)
        rw [h1]
        exact Nat.zero_le _

/-! ## The block through the page table -/

theorem PageBacked.user {x : Page} (h : PageBacked g s r v x q) (hoi : o + i < pgSize) :
    userWindow s.mem r (v * pgSize + o) i = x.data (o + i) := by
  have hdiv : (v * pgSize + o + i) / pgSize = v := by
    unfold pgSize at *
    omega
  have hmod : (v * pgSize + o + i) % pgSize = o + i := by
    unfold pgSize at *
    omega
  unfold userWindow userAddr
  rw [hdiv, hmod, h.pa]
  exact h.data _ hoi

theorem PageBacked.user_word {x : Page} (h : PageBacked g s r v x q) (ho : o + 8 ≤ pgSize) :
    userWord s.mem r (v * pgSize + o) = getLE x.data o 8 := by
  refine getLE_congr fun i hi => ?_
  rw [Nat.zero_add]
  exact h.user (by omega)

/-- The process finds the block. -/
theorem PageBacked.argBlock {x : Page} (h : PageBacked g s r v x q)
    (hb : PageBlock (v * pgSize) x.data strs)
    (hfit : blockBytes strs ≤ pgSize) :
    ArgBlock s.mem r (v * pgSize) (v * pgSize + (pgSize - blockBytes strs)) strs := by
  obtain ⟨ustack, hpl, hwords⟩ := hb
  obtain ⟨h1, -, h3⟩ := up16_bounds ((strs.length + 1) * 8)
  have halign := argBytes_aligned strs
  have hblock : blockBytes strs = argBytes strs + up16 ((strs.length + 1) * 8) := rfl
  have hbase : v * pgSize % 16 = 0 := by
    unfold pgSize
    omega
  have hword :
      ∀ i ≤ strs.length,
      userWord s.mem r (v * pgSize + (pgSize - blockBytes strs) + 8 * i) = ustack.getD i 0 := by
    intro i hi
    rw [Nat.add_assoc, h.user_word (by omega)]
    exact hwords i hi
  have hplace :
      ∀ i < strs.length, userWord s.mem r (v * pgSize + (pgSize - blockBytes strs) + 8 * i) =
        v * pgSize + (pgSize - argBytes (strs.drop i)) :=
        fun i hi => (hword i (Nat.le_of_lt hi)).trans (hpl.get hi).2.1
  have hall : ∀ i, argBytes (strs.drop i) ≤ argBytes strs :=
    fun i => argBytes_drop_le (Nat.zero_le i)
  have hpage : pgSize % 16 = 0 := rfl
  refine ⟨by omega, by omega, by omega, fun i hi => ?_, ?_, fun i hi => ?_, fun i j hij hj => ?_, fun i hi => ?_⟩
  · have hd := argBytes_drop hi
    have hup := (up16_bounds (strs[i].length + 1)).1
    obtain ⟨hle, -, hc⟩ := hpl.get hi
    rw [hplace i hi]
    refine hc.congr fun k hk => ?_
    rw [h.user (by omega)]
    rfl
  · rw [hword _ (Nat.le_refl _), List.getD_eq_default _ _ (Nat.le_of_eq hpl.length_eq)]
  · have hle := hall i
    rw [hplace i hi]
    omega
  · have hi : i < strs.length := Nat.lt_trans hij hj
    have hd := argBytes_drop hi
    have hup := (up16_bounds (strs[i].length + 1)).1
    have hle : argBytes (strs.drop j) ≤ argBytes (strs.drop (i + 1)) := argBytes_drop_le hij
    have hfits := (hpl.get hi).1
    rw [hplace i hi, hplace j hj]
    omega
  · have hd := argBytes_drop hi
    have hup := (up16_bounds (strs[i].length + 1)).1
    have hfits := (hpl.get hi).1
    rw [hplace i hi]
    omega

/-! ## The pointers -/

theorem ustackBytes_word (ustack : List Nat) (hlt : ∀ a ∈ ustack, a < 2 ^ 64) (i : Nat) :
    getLE (ustackBytes ustack) (8 * i) 8 = ustack.getD i 0 := by
  have hsame : getLE (ustackBytes ustack) (8 * i) 8 = getLE (leBytes (ustack.getD i 0)) 0 8 := by
    refine getLE_congr fun k hk => ?_
    unfold ustackBytes
    rw [show (8 * i + k) / 8 = i by omega, show (8 * i + k) % 8 = k by omega, Nat.zero_add]
  have hbound : ustack.getD i 0 < 2 ^ 64 := by
    by_cases hi : i < ustack.length
    · rw [List.getD_eq_getElem _ _ hi]
      exact hlt _ (List.getElem_mem hi)
    · rw [List.getD_eq_default _ _ (Nat.le_of_not_lt hi)]
      decide
  rw [hsame, getLE_leBytes, Nat.pow_zero, Nat.div_one]
  exact Nat.mod_eq_of_lt hbound

theorem Placed.lt (h : Placed base data ustack strs) (hb : base + pgSize < 2 ^ 64) :
    ∀ a ∈ ustack, a < 2 ^ 64 := by
  intro a ha
  obtain ⟨i, hi, rfl⟩ := List.mem_iff_getElem.mp ha
  have hp := (h.get (h.length_eq ▸ hi)).2.1
  rw [List.getD_eq_getElem _ _ hi] at hp
  omega

/-- The pointers go below the strings. -/
theorem Placed.block (h : Placed base data ustack strs) (hb : base + pgSize < 2 ^ 64)
    (hfit : blockBytes strs ≤ pgSize) :
    PageBlock base
      (splice data (pgSize - blockBytes strs) (ustackBytes ustack) ((strs.length + 1) * 8))
      strs := by
  have h1 := (up16_bounds ((strs.length + 1) * 8)).1
  have hblock : blockBytes strs = argBytes strs + up16 ((strs.length + 1) * 8) := rfl
  refine ⟨ustack, h.congr fun i hi hlt => splice_out (by omega), fun i hi => ?_⟩
  rw [← ustackBytes_word ustack (h.lt hb) i]
  refine getLE_congr fun k hk => ?_
  rw [splice_in (by omega) (by omega)]
  congr 1
  omega

/-! ## From the arguments on -/

theorem execStackT_sat {elf : ElfHdr} {x : Page} {Q : Except ExecStop Nat → Kernel → Prop}
    (h : Built A p r P a b g s g₁ s₁) (ha : A p)
    (hV : V + 2 ≤ vaPages) (hx : P (V + 1) = some x)
    (hpages : List.Forall₂ (ArgPage g₁ s₁) pages strs) (hnd : pages.Nodup)
    (hlen : strs.length ≤ elfMaxArgs) (hover : strs.length = elfMaxArgs → E .ustackOverrun)
    (hentry : elf.entry < 2 ^ 64) (hargv : ∀ i < strs.length, G (.argv i))
    (hustack : ∀ i < strs.length, G (.ustack i))
    (hend : argBytes strs ≤ pgSize → G (.ustack strs.length))
    (hdrop : ∀ sp n, n ≤ sp → G (.drop sp n))
    (hbad : ¬ blockBytes strs ≤ pgSize →
      ∀ why, why = .argument ∨ why = .pointers → ∀ P' s', P'.Same P →
      Built A p r P' a b g s g₁ s' → ArgsKept g₁ s₁ s' → Sat (execBadT false r pages why) s' G Q E)
    (hQ : blockBytes strs ≤ pgSize → ∀ P' x' g' s', P' (V + 1) = some x' →
      (∀ w, w ≠ V + 1 → P' w = P w) →
      PageBlock ((V + 1) * pgSize) x'.data strs →
      Running A p r P' V elf.entry ((V + 1) * pgSize + (pgSize - blockBytes strs)) g' s' →
      Q (.ok strs.length) s') :
    Sat (execStackT p elf pages r (V * pgSize)) s₁ G Q E := by
  have hcount : pages.length = strs.length := hpages.length_eq
  have hbound := page_below hV
  obtain ⟨hbase, htop⟩ := stack_ends hV
  change u64 (V * pgSize + 2 * pgSize) = (V + 1) * pgSize + (pgSize - argBytes []) at htop
  have hblock : blockBytes strs = argBytes strs + up16 ((strs.length + 1) * 8) := rfl
  have hrev : strs.reverse.reverse ++ [] = strs := by rw [List.reverse_reverse, List.append_nil]
  have halign := argBytes_aligned strs
  have hpointers : (strs.length + 1) * 8 ≤ pgSize := by
    unfold elfMaxArgs at hlen
    unfold pgSize
    omega
  unfold execStackT
  dsimp only
  rw [hbase, htop, sat_bind]
  refine pushArgsT_sat h (Nat.succ_pos V) (by omega) hx
    (List.forall₂_reverse_iff.mpr hpages) trivial
    (Nat.zero_le _) (fun i hi => ?_) hdrop (fun hno P' s' hb hs hk => ?_)
    fun hfit P' x' ustack s' hb hs hx' hother hpl hk => ?_
  · rw [List.length_reverse, hcount] at hi
    exact ⟨hargv i hi, hustack i hi⟩
  · rw [hrev] at hno
    exact hbad (by omega) .argument (.inl rfl) P' s' hs hb hk
  rw [hrev] at hfit hpl ⊢
  dsimp only
  obtain ⟨hno, hyes, hlow⟩ := sp_drop (o := pgSize - argBytes strs) (n := (strs.length + 1) * 8)
    (Nat.mul_mod_left (V + 1) pgSize) (Nat.le_mul_of_pos_left _ (Nat.succ_pos V))
    (by rw [Nat.succ_mul] at hbound; exact hbound)
    (by unfold pgSize at *; omega) (Nat.sub_le _ _) hpointers
  rw [hcount, sat_bind, sat_emit]
  refine ⟨hend hfit, ?_⟩
  rw [sat_bind, sat_mute]
  by_cases hfull : strs.length = elfMaxArgs
  · exact sat_assert_any (hover hfull) fun hlt =>
      absurd hfull (Nat.ne_of_lt (of_decide_eq_true hlt))
  rw [sat_assert (decide_eq_true (Nat.lt_of_le_of_ne hlen hfull)), sat_bind,
    sat_emit, sat_bind, sat_emit]
  refine ⟨hdrop _ _ hno, hdrop _ _ (Nat.mod_le _ _), ?_⟩
  by_cases hroom : up16 ((strs.length + 1) * 8) ≤ pgSize - argBytes strs
  swap
  · rw [if_pos (hlow.mpr hroom)]
    exact hbad (by omega) .pointers (.inr rfl) P' s' hs hb hk
  have hsub : pgSize - argBytes strs - up16 ((strs.length + 1) * 8) = pgSize - blockBytes strs := by omega
  have hfits : blockBytes strs ≤ pgSize := by omega
  have hup := (up16_bounds ((strs.length + 1) * 8)).1
  rw [if_neg fun hc => hlow.mp hc hroom, hyes hroom, hsub]

  refine execCommitT_sat hb ha (by omega) hx' (by omega) (fun q hq => ?_) hnd hentry (fun i hi => hargv i (by omega))
    (fun i hi => ?_) fun g₃ s₃ hr => ?_
  · obtain ⟨i, hi, rfl⟩ := List.mem_iff_getElem.mp hq
    exact ((List.forall₂_iff_get.mp hpages).2 i hi (by omega)).own
  · rcases Nat.lt_or_eq_of_le (hcount ▸ hi) with hlt | rfl
    · exact hustack i hlt
    · exact hend hfit
  · rw [hcount] at hr ⊢
    refine hQ hfits _ { x' with data := splice x'.data (pgSize - blockBytes strs) (ustackBytes ustack) ((strs.length + 1) * 8) }
      g₃ s₃ ?_ (fun w hw => ?_) (hpl.block (by rw [Nat.succ_mul] at hbound; exact hbound) hfits) hr
    · rw [Pages.write, if_pos rfl, hx']
      rfl
    · rw [Pages.write, if_neg hw, hother w hw]

/-- The process that runs the image finds the block. -/
theorem Running.argsOutcome {x : Page}
    (h : Running A p r P V entry ((V + 1) * pgSize + (pgSize - blockBytes strs)) g s)
    (hV : V + 1 < vaPages) (hx : P (V + 1) = some x) (hb : PageBlock ((V + 1) * pgSize) x.data strs)
    (hfit : blockBytes strs ≤ pgSize) : ArgsOutcome p strs (.ok strs.length) s := by
  obtain ⟨q, hq⟩ := h.ready.backed.page (V + 1) hV x hx
  have hblock := hq.argBlock hb hfit
  refine ⟨rfl, hfit, h.a1.trans h.sp.symm, h.ustackPages, ?_⟩
  rw [h.pgtbl, h.ustackBase, h.sp]
  exact hblock

/-- The arguments are there while the new table is built. -/
theorem ArgsHeld.kept (h : ArgsHeld A p strs pages g s g₁ s₁)
    (hf : Framed (BuildUse r p) g₁ s₁ g₂ s₂) :
    List.Forall₂ (ArgPage g₂ s₂) pages strs := by
  refine List.forall₂_iff_get.mpr ⟨h.held.length_eq, fun i h1 h2 => ?_⟩
  have harg : ArgPage g₁ s₁ _ _ := (List.forall₂_iff_get.mp h.held).2 i h1 h2
  exact harg.frame hf (h.world.heap.page _ (by rw [harg.own]; exact Use.noConfusion)).1 nofun

theorem execFileT_args {lookup : List UInt8 → Option Image} {path : List UInt8}
    (h : ArgsHeld A p strs pages g s g₁ s₁) (ha : A p)
    (hlen : strs.length ≤ elfMaxArgs) (hargv : ∀ i < strs.length, G (.argv i))
    (hustack : ∀ i < strs.length, G (.ustack i))
    (hend : argBytes strs ≤ pgSize → G (.ustack strs.length))
    (hdrop : ∀ sp n, n ≤ sp → G (.drop sp n))
    (hside : ∀ e, e.Aside → G e) :
    Sat (execFileT p lookup path pages) s₁ G (ArgsOutcome p strs) fun _ => True := by
  have hcount : pages.length = strs.length := h.held.length_eq
  have hbad : ∀ ip t why s', (why = .argument ∨ why = .pointers → ¬ blockBytes strs ≤ pgSize) →
      Sat (execBadT ip t pages why) s' G (ArgsOutcome p strs) fun _ => True := fun ip t why s' hw =>
    execBadT_any (fun j hj => hargv j (hcount ▸ hj)) (fun _ => hside _ trivial)
      (fun _ => trivial) fun _ => hw
  have htf : g₁.own (s₁.procs p).tf = .trapframe p := by
    rw [rest_procs h.framed.rest]
    exact h.trap
  refine execFileT_sat h.world htf (hside _ trivial) (fun _ => hbad false 0 .file s₁ (by simp))
    (fun _ _ _ => hbad true 0 .header s₁ (by simp))
    (fun _ _ s' _ => hbad true 0 .table s' (by simp)) fun img r g₂ s₂ _ h₂ => ?_
  refine execLoadT_any h₂ (fun _ => trivial) hside (fun ip why s' hw => hbad ip r why s' ?_)
    fun V P a b g₃ s₃ hV hx h₃ => ?_
  · rcases hw with rfl | rfl <;> simp
  refine execStackT_sat h₃ ha hV hx (h.kept h₃.framed) h.nodup hlen (fun _ => trivial)
    (getLE_lt _ _ _) hargv hustack hend hdrop
    (fun hno why hw _ s' _ _ _ => hbad false r why s' fun _ => hno)
    fun hfit P' x' g' s' hx' _ hb hr => ?_
  exact hr.argsOutcome (by omega) hx' hb hfit

/-- `sys_exec` with a vector of strings. -/
theorem sysExecT_args {lookup : List UInt8 → Option Image} {pathAddr argvAddr : Nat}
    (h : World A g s) (ha : A p)
    (htrap : g.own (s.procs p).tf = .trapframe p)
    (hvec : ArgArray s (s.procs p).pgtbl argvAddr elfMaxArgs 0 strs)
    (hargv : ∀ i < strs.length, G (.argv i))
    (hustack : ∀ i < strs.length, G (.ustack i))
    (hend : argBytes strs ≤ pgSize → G (.ustack strs.length))
    (hdrop : ∀ sp n, n ≤ sp → G (.drop sp n))
    (hside : ∀ e, e.Aside → G e) :
    Sat (sysExecT p lookup pathAddr argvAddr) s G (ArgsOutcome p strs) fun _ => True := by
  unfold sysExecT
  have hnone :
      ∀ why, why ≠ .argument → why ≠ .pointers → ∀ s', ArgsOutcome p strs (.error why) s' :=
      fun why h1 h2 _ hw =>
    hw.elim (fun hc => absurd hc h1) fun hc => absurd hc h2
  rw [sat_bind, sat_mute, sat_bind, sat_procOf]
  refine uvmCopyinStrVar_sat h.heap (h.proc p ha).space.live (fun _ _ => trivial) fun _ => ?_
  rw [sat_bind]
  refine argvLoopT_sat h ha htrap (ArgsHeld.nil h htrap) hvec (fun j _ hj => hargv j (by omega))
    (fun _ _ _ s' _ _ _ => ?_)
    fun pages g' s' hh => ?_
  · rw [sat_pure]
    exact hnone .page (by decide) (by decide) s'
  · rw [List.nil_append] at hh
    exact execFileT_args hh ha hvec.length_le hargv hustack hend hdrop hside

/-! ## A process that calls `sys_exec` -/

/-- The first process, with `data 0` and `data 16` on its two pages and memory left. -/
structure Started (data : Nat → Bytes) (g : Ledger) (s : Kernel) : Prop where
  world : World (fun p => p = 0) g s
  trap : g.own (s.procs 0).tf = .trapframe 0
  page : ∀ v, v = 0 ∨ v = 16 → Present s (s.procs 0).pgtbl v ∧
    ∀ i < pgSize, userWindow s.mem (s.procs 0).pgtbl (v * pgSize) i = data v i
  kernel : 700 ≤ (g.free true).length
  user : 700 ≤ (g.free false).length

/-- A frame is written; the table says where it is. -/
theorem World.fillFrame {f : Nat → Nat} (h : World A g s) (ha : A p)
    (hq : g.own q = .frame (s.procs p).pgtbl v)
    (hleaf : ∀ w < vaPages, leaf s.mem (s.procs p).pgtbl w = f w) (b : Bytes) :
    World A g (s.setMem (splice s.mem q b pgSize)) ∧
      (∀ w < vaPages, leaf (splice s.mem q b pgSize) (s.procs p).pgtbl w = f w) ∧
      (∀ i < pgSize, splice s.mem q b pgSize (q + i) = b i) ∧
      ∀ q', q' % pgSize = 0 → q' ≠ q →
      ∀ i < pgSize, splice s.mem q b pgSize (q' + i) = s.mem (q' + i) := by
  have hpage := h.heap.page q (by rw [hq]; exact Use.noConfusion)
  have hd : (g.own q).IsData := by
    rw [hq]
    trivial
  have hin : Inside q s.mem (splice s.mem q b pgSize) :=
    inside_splice (Nat.le_refl q) (Nat.le_refl _)
  refine ⟨h.write_page hpage.1 hd hin, fun w hw => ?_, fun i hi => ?_, fun q' hq' hne i hi =>
    hin.other hpage.1 hq' hne hi⟩
  · rw [h.heap.write_leaf (h.proc p ha).space.live hpage.1 hd hin]
    exact hleaf w hw
  · rw [splice_in (by omega) (by omega), Nat.add_sub_cancel_left]

/-- A page that the table maps to the frame `q`. -/
theorem mapped_page {perm : Nat} (hv : v < vaPages) (hperm : perm < 2 ^ 10)
    (hq : q % pgSize = 0 ∧ q < 2 ^ 64)
    (hleaf : leaf s.mem r v = mapPte q perm 0) (hdata : ∀ i < pgSize, s.mem (q + i) = data i) :
    Present s r v ∧ ∀ i < pgSize, userWindow s.mem r (v * pgSize) i = data i := by
  refine ⟨⟨hv, ?_⟩, fun i hi => ?_⟩
  · rw [hleaf]
    exact mapPte_valid hperm
  · have hdiv : (v * pgSize + i) / pgSize = v := by
      unfold pgSize at *
      omega
    have hmod : (v * pgSize + i) % pgSize = i := by
      unfold pgSize at *
      omega
    unfold userWindow userAddr
    rw [hdiv, hmod, hleaf, mapPte_pa hq.1 hq.2 hperm]
    exact hdata i hi

theorem exists_started (data : Nat → Bytes) : ∃ g s, Started data g s := by
  have hlinked : Linked (Kernel.start 0x80030000 0x80000000 0x80001000 fun _ => 0) :=
    ⟨⟨by decide, by decide, by decide, by decide⟩, by decide, by decide, by decide⟩
  have hboot :
      Sat (bootKernel >>= fun _ => procMakeFirst)
        (Kernel.start 0x80030000 0x80000000 0x80001000 fun _ => 0) (fun _ => True)
        (fun _ s => ∃ g, FirstMade (Kernel.start 0x80030000 0x80000000 0x80001000 fun _ => 0) g s)
        fun _ => False := by
    rw [sat_bind]
    refine bootKernel_sat hlinked fun g s hready => ?_
    exact procMakeFirst_sat hready (by decide) fun g' s' h => ⟨g', h⟩
  obtain ⟨-, s, -, g, h⟩ := hboot.returns
  obtain ⟨q, q', hq, hq', hleaf⟩ := h.leaf
  have hne : q ≠ q' := by
    rintro rfl
    exact absurd (Use.frame.inj (hq.symm.trans hq')).2 (by decide)
  have hpage : ∀ c v, g.own c = .frame (s.procs 0).pgtbl v → c % pgSize = 0 ∧ c < 2 ^ 64 := by
    intro c v hc
    have hlt := (h.world.homed.home c false (by rw [hc]; rfl)).1.2
    exact ⟨(h.world.heap.page c (by rw [hc]; exact Use.noConfusion)).1,
      Nat.lt_trans hlt (by decide)⟩
  obtain ⟨hw₁, hl₁, hd₁, -⟩ := h.world.fillFrame rfl hq hleaf (data 0)
  obtain ⟨hw₂, hl₂, hd₂, hk₂⟩ := hw₁.fillFrame rfl hq' hl₁ (data 16)
  rw [setMem_mem] at hl₂ hd₂ hk₂
  have hkeep :
    ∀ i < pgSize, splice (splice s.mem q (data 0) pgSize) q' (data 16) pgSize (q + i) = data 0 i :=
      fun i hi =>
    (hk₂ q (hpage q 0 hq).1 hne i hi).trans (hd₁ i hi)
  refine ⟨g, s.setMem (splice (splice s.mem q (data 0) pgSize) q' (data 16) pgSize), hw₂,
    h.trapframe, fun v hv => ?_, ?_, ?_⟩
  · rcases hv with rfl | rfl
    · exact mapped_page (by decide) (by decide) (hpage q 0 hq) (hl₂ 0 (by decide)) hkeep
    · exact mapped_page (by decide) (by decide) (hpage q' 16 hq') (hl₂ 16 (by decide)) hd₂
  · have hu := h.used
    have hk : kernelPages = 1024 := rfl
    omega
  · have hu := h.user
    have hk : userPages (Kernel.start 0x80030000 0x80000000 0x80001000 fun _ => 0).allocBegin =
    31696 := by decide
    rw [hk] at hu
    omega

theorem Started.readable {data : Nat → Bytes} (h : Started data g s) (hv : v = 0 ∨ v = 16)
    (hn : o + n ≤ pgSize) :
    Readable s (s.procs 0).pgtbl (v * pgSize + o) n := by
  intro i hi
  have hdiv : (v * pgSize + o + i) / pgSize = v := by
    unfold pgSize at *
    omega
  rw [hdiv]
  exact (h.page v hv).1

theorem Started.byte {data : Nat → Bytes} (h : Started data g s) (hv : v = 0 ∨ v = 16)
    (ho : o + i < pgSize) :
    userWindow s.mem (s.procs 0).pgtbl (v * pgSize + o) i = data v (o + i) := by
  rw [← (h.page v hv).2 (o + i) ho]
  unfold userWindow
  rw [Nat.add_assoc]

theorem Started.word {data : Nat → Bytes} (h : Started data g s) (hv : v = 0 ∨ v = 16)
    (ho : o + 8 ≤ pgSize) :
    userWord s.mem (s.procs 0).pgtbl (v * pgSize + o) = getLE (data v) o 8 := by
  refine getLE_congr fun i hi => ?_
  rw [Nat.zero_add]
  exact h.byte hv (by omega)

/-- A path at the start of the code page is readable. -/
theorem Started.path {data : Nat → Bytes} (h : Started data g s) :
    ∀ i, Looked s.mem (s.procs 0).pgtbl 0 dirPathLen i →
    Present s (s.procs 0).pgtbl ((0 + i) / pgSize) := by
  intro i hi
  have hr := h.readable (v := 0) (o := 0) (n := dirPathLen) (.inl rfl) (by decide) i hi.1
  rwa [Nat.zero_mul, Nat.add_zero] at hr

/-- A string on a page of the process. -/
theorem Started.string {data : Nat → Bytes} {str : List UInt8}
    (h : Started data g s) (hv : v = 0 ∨ v = 16)
    (ho : o + str.length + 1 ≤ pgSize) (hc : CStr (window (data v) o) str) :
    UserStr s (s.procs 0).pgtbl (v * pgSize + o) str :=
  ⟨h.readable hv (by omega), hc.congr fun i hi => h.byte hv (by omega)⟩

/-- The path `a` on the code page, and one argument, the string `a`, on the stack page. -/
def oneArgument (v : Nat) : Bytes :=
  if v = 0 then splice (fun _ => 0) 0 (fun _ => 97) 1
    else splice (putLE (fun _ => 0) 0 8 0x10010) 16 (fun _ => 97) 1

theorem Started.oneVector (h : Started oneArgument g s) :
    ArgVector s (s.procs 0).pgtbl 0x10000 0 [[97]] := by
  have h0 : userWord s.mem (s.procs 0).pgtbl (u64 (0x10000 + 0 * 8)) = 0x10010 :=
    (h.word (v := 16) (o := 0) (.inr rfl) (by decide)).trans (by decide)
  have h1 : userWord s.mem (s.procs 0).pgtbl (u64 (0x10000 + (0 + 1) * 8)) = 0 :=
    (h.word (v := 16) (o := 8) (.inr rfl) (by decide)).trans (by decide)
  have hstr : UserStr s (s.procs 0).pgtbl (16 * pgSize + 16) [97] :=
    h.string (.inr rfl) (by decide) ⟨by decide, by decide⟩
  refine ⟨⟨h.readable (v := 16) (o := 0) (.inr rfl) (by decide), by rw [h0]; decide⟩,
    ⟨by decide, ?_⟩,
    h.readable (v := 16) (o := 8) (.inr rfl) (by decide), h1⟩
  rw [h0]
  exact hstr

end

end WhuOs.Mem
