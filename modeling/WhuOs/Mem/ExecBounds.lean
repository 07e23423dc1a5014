import WhuOs.Mem.ExecBlock
import WhuOs.Mem.ExecLoad

/-! # The arrays of `sys_exec`

`argv` and `ustack` have room for `ELF_MAXARGS` words. The loop over the user's array ends at a null
or when `argv` is full, and `ustack` gets a null behind the last pointer: after a full `argv` this
is one word too many.
-/

namespace WhuOs.Mem

open Prog Bytes

def ExecEvent.InArray : ExecEvent → Prop
  | .argv i => i < elfMaxArgs
  | .ustack i => i < elfMaxArgs
  | _ => True

/-- No zero among the bytes of the page, the last one aside. -/
def LongPage (m : Bytes) (q : Nat) : Prop := ∀ i < pgSize - 1, m (q + i) ≠ 0

/-- The pages that `argv` refers to, whatever is on them. -/
structure Pending (A : ProcId → Prop) (p : ProcId) (pages : List Nat) (g : Ledger) (s : Kernel) :
    Prop where
  world : World A g s
  trap : g.own (s.procs p).tf = .trapframe p
  scratch : ∀ q ∈ pages, g.own q = .scratch

section

variable {A : ProcId → Prop} {g g' g₁ g₂ : Ledger} {s s' s₁ s₂ : Kernel} {p : ProcId}
  {r t v n q a b i j k o : Nat}
  {strs : List (List UInt8)} {pages ustack : List Nat} {m data : Bytes}
  {G : ExecEvent → Prop} {E : Panic → Prop}

/-! ## Fewer arguments than the arrays have room for, in any state -/

theorem pushArgsT_any {base sp : Nat} {Q : Option (List Nat × Nat) → Kernel → Prop}
    (hG : ∀ i < pages.length, G (.argv i) ∧ G (.ustack i))
    (hdrop : ∀ sp n, G (.drop sp n)) (hE : ∀ e, E e) (hQ : ∀ x s', Q x s') :
    Sat (pushArgsT r base pages ustack sp) s G Q E := by
  induction pages generalizing s ustack sp with
  | nil => exact (sat_pure _).mpr (hQ _ s)
  | cons page pages ih =>
      obtain ⟨h1, h2⟩ := hG pages.length (Nat.lt_succ_self _)
      unfold pushArgsT
      rw [sat_bind, sat_emit, sat_bind, sat_mute]
      refine ⟨h1, (Sat.any _ s).mono (fun len s₁ _ => ?_) fun e _ => hE e⟩
      rw [sat_bind, sat_emit, sat_bind, sat_emit]
      refine ⟨hdrop _ _, hdrop _ _, ?_⟩
      dsimp only
      split
      · exact (sat_pure _).mpr (hQ _ s₁)
      rw [sat_bind, sat_emitAll, sat_bind, sat_mute]
      refine ⟨by simp [h1], (Sat.any _ s₁).mono (fun _ s₂ _ => ?_) fun e _ => hE e⟩
      rw [sat_bind, sat_emit]
      exact ⟨h2, ih fun i hi => hG i (Nat.lt_succ_of_lt hi)⟩

theorem execCommitT_any {elf : ElfHdr} {sz base sp : Nat} {Q : Except ExecStop Nat → Kernel → Prop}
    (hargv : ∀ i < pages.length, G (.argv i))
    (hustack : ∀ i ≤ pages.length, G (.ustack i)) (hE : ∀ e, E e) (hQ : ∀ x s', Q x s') :
    Sat (execCommitT p elf pages r sz base ustack sp) s G Q E := by
  unfold execCommitT
  dsimp only
  rw [sat_bind, sat_emitAll, sat_bind, sat_mute]
  refine ⟨fun e he => ?_, (Sat.any _ s).mono (fun _ s₁ _ => ?_) fun e _ => hE e⟩
  · obtain ⟨i, hi, rfl⟩ := List.mem_map.mp he
    exact hustack i (Nat.le_of_lt_succ (List.mem_range.mp hi))
  rw [sat_bind]
  refine freeArgsT_any (fun j _ hj => hargv j (by omega)) hE fun s₂ => ?_
  rw [sat_bind, sat_mute]
  refine (Sat.any _ s₂).mono (fun _ s₃ _ => ?_) fun e _ => hE e
  exact (sat_pure _).mpr (hQ _ s₃)

theorem execFileT_any {lookup : List UInt8 → Option Image} {path : List UInt8}
    (hargv : ∀ i < pages.length, G (.argv i))
    (hustack : ∀ i ≤ pages.length, G (.ustack i)) (hdrop : ∀ sp n, G (.drop sp n))
    (hside : ∀ e, e.Aside → G e) :
    Sat (execFileT p lookup path pages) s G (fun _ _ => True) fun _ => True := by
  have hbad : ∀ ip t why s', Sat (execBadT ip t pages why) s' G (fun _ _ => True) fun _ =>
    True := fun ip t why s' =>
    execBadT_any hargv (fun _ => hside _ trivial) (fun _ => trivial) fun _ => trivial
  unfold execFileT
  cases lookup path with
  | none => exact hbad _ _ _ s
  | some img =>
      dsimp only
      rw [sat_bind, sat_emit]
      refine ⟨hside _ trivial, ?_⟩
      split
      · exact hbad _ _ _ s
      split
      · exact hbad _ _ _ s
      rw [sat_bind, sat_mute]
      refine (Sat.any _ s).mono (fun r s₁ _ => ?_) fun _ _ => trivial
      split
      · exact hbad _ _ _ s₁
      unfold execLoadT
      rw [sat_bind]
      refine (segmentsLoopT_maps _ fun _ => hside _ trivial).imp fun o s₂ _ => ?_
      cases o with
      | none => exact hbad _ _ _ s₂
      | some sz =>
          dsimp only
          rw [sat_bind, sat_emit, sat_bind]
          refine ⟨hside _ trivial,
            (stackLoopT_maps _ fun _ _ => hside _ trivial).imp fun c s₃ _ => ?_⟩
          split
          · exact hbad _ _ _ s₃
          unfold execStackT
          dsimp only
          rw [sat_bind]
          refine pushArgsT_any (fun i hi => ?_) hdrop (fun _ => trivial) fun x s₄ => ?_
          · rw [List.length_reverse] at hi
            exact ⟨hargv i hi, hustack i (Nat.le_of_lt hi)⟩
          cases x with
          | none => exact hbad _ _ _ s₄
          | some x =>
              obtain ⟨ustack, sp⟩ := x
              dsimp only
              rw [sat_bind, sat_emit, sat_bind, sat_mute]
              refine ⟨hustack _ (Nat.le_refl _), sat_assert_any trivial fun _ => ?_⟩
              rw [sat_bind, sat_emit, sat_bind, sat_emit]
              refine ⟨hdrop _ _, hdrop _ _, ?_⟩
              split
              · exact hbad _ _ _ s₄
              · exact execCommitT_any hargv hustack (fun _ => trivial) fun _ _ => trivial

/-! ## The loop over any array -/

theorem Pending.snoc (h : Pending A p pages g s) (hg : Granted g s false .scratch q g₂ s₂)
    (hq : q ≠ 0) (hm : Inside q s₂.mem m) :
    Pending A p (pages ++ [q]) g₂ (s₂.setMem m) ∧ ∀ q' ∈ pages, LongPage s.mem q' →
    LongPage m q' := by
  obtain ⟨hw, hf⟩ := h.world.granted hg hq trivial rfl nofun (fun _ _ => nofun)
  cases hg with
  | none _ => exact absurd rfl hq
  | some pos lt was length heap mem rest =>
  have hown : (g.grant false q .scratch).own q = .scratch := Ledger.grant_own_self
  have hqa := (heap.page q (by rw [hown]; exact Use.noConfusion)).1
  have hd : ((g.grant false q .scratch).own q).IsData := by
    rw [hown]
    trivial
  have hne : ∀ q' ∈ pages, q' ≠ q := by
    rintro q' hq' rfl
    exact nomatch was.symm.trans (h.scratch q' hq')
  refine ⟨⟨hw.write_page hqa hd hm, ?_, fun q' hq' => ?_⟩, fun q' hq' hlong i hi => ?_⟩
  · rw [setMem_procs, rest_procs rest]
    refine (Ledger.grant_own_ne fun he => ?_).trans h.trap
    have htrap := h.trap
    rw [he, was] at htrap
    cases htrap
  · rcases List.mem_append.mp hq' with hq' | hq'
    · exact (Ledger.grant_own_ne (hne q' hq')).trans (h.scratch q' hq')
    · rw [List.mem_singleton.mp hq']
      exact hown
  · have hpa := (h.world.heap.page q' (by rw [h.scratch q' hq']; exact Use.noConfusion)).1
    rw [hm.other hqa hpa (hne q' hq') (by omega), mem]
    exact hlong i hi

theorem Pending.clearLast (h : Pending A p pages g s) (hb : b % pgSize = pgSize - 1) :
    Pending A p pages g (s.setMem (splice s.mem b (fun _ => 0) 1)) ∧
      ∀ q ∈ pages, LongPage s.mem q → LongPage (splice s.mem b (fun _ => 0) 1) q := by
  refine ⟨⟨h.world.clearLast hb, h.trap, h.scratch⟩, fun q hq hlong i hi => ?_⟩
  have hpa := (h.world.heap.page q (by rw [h.scratch q hq]; exact Use.noConfusion)).1
  rw [splice_out (by unfold pgSize at *; omega)]
  exact hlong i hi

theorem ArgsHeld.pending (h : ArgsHeld A p strs pages g s g₁ s₁) : Pending A p pages g₁ s₁ := by
  refine ⟨h.world, ?_, fun q hq => ?_⟩
  · rw [rest_procs h.framed.rest]
    exact h.trap
  · obtain ⟨i, hi, rfl⟩ := List.mem_iff_getElem.mp hq
    exact ((List.forall₂_iff_get.mp h.held).2 i hi (h.held.length_eq ▸ hi)).own

/-- A page for an argument, and what is known of the page that it is. -/
theorem Pending.page (h : Pending A p (pages ++ [q]) g s) (ha : A p) :
    q % pgSize = 0 ∧ (g.own q).IsData ∧ (s.etext < q ∧ q < physTop) ∧
      (∀ v, Present s (s.procs p).pgtbl v → pteToPa (leaf s.mem (s.procs p).pgtbl v) ≠ q) ∧
      (q - 1) % pgSize = pgSize - 1 := by
  have hown := h.scratch q (List.mem_append_right _ (List.mem_singleton_self q))
  have hpage := h.world.heap.page q (by rw [hown]; exact Use.noConfusion)
  refine ⟨hpage.1, by rw [hown]; trivial, h.world.scratch_text hown, fun v hv => h.world.scratch_apart ha h.trap hown hv, ?_⟩
  unfold pgSize at *
  omega

/-- Once there is a page without a zero, it stays. -/
theorem argvLoopT_long {argvAddr : Nat} (h : Pending A p pages g s) (ha : A p)
    (hlong : ∃ q ∈ pages, LongPage s.mem q)
    (hG : ∀ j, i ≤ j → j < i + n → G (.argv j)) :
    Sat (argvLoopT p argvAddr n i pages) s G
      (fun o s' => ∀ l, o = some l → l.length ≤ pages.length + n ∧
      ∃ g', Pending A p l g' s' ∧ ∃ q ∈ l, LongPage s'.mem q) fun _ => True := by
  have hnow : ∀ l, some pages = some l → l.length ≤ pages.length + n ∧
      ∃ g', Pending A p l g' s ∧ ∃ q ∈ l, LongPage s.mem q := by
    rintro l ⟨⟩
    exact ⟨Nat.le_add_right _ _, g, h, hlong⟩
  induction n generalizing g s i pages with
  | zero => exact (sat_pure _).mpr hnow
  | succ n ih =>
      unfold argvLoopT
      rw [sat_bind, sat_mute, sat_bind, sat_procOf]
      refine uvmCopyinVar_sat h.world.heap (h.world.proc p ha).space.live
        (fun _ _ => trivial) fun _ => ?_
      dsimp only
      split
      · exact (sat_pure _).mpr hnow
      have hGi := hG i (Nat.le_refl i) (by omega)
      rw [sat_bind, sat_mute]
      refine (pmemAlloc_heap h.world.heap false (u := .scratch) trivial).imp fun q s₂ hall => ?_
      obtain ⟨g₂, hg⟩ := hall
      rw [sat_bind, sat_emitAll]
      refine ⟨by simp [hGi], ?_⟩
      by_cases hq : q = 0
      · rw [if_pos hq, sat_pure]
        exact fun l hl => absurd hl.symm (Option.some_ne_none l)
      rw [if_neg hq, sat_bind, sat_emit, sat_bind, sat_mute, sat_bind, sat_procOf]
      refine ⟨hGi, ?_⟩
      have h₂ := (h.snoc hg hq (.refl q _)).1
      obtain ⟨hqa, hd, htext, -, hlast⟩ := h₂.page ha
      have hnext : ∀ g' s', Pending A p (pages ++ [q]) g' s' → (∃ c ∈ pages, LongPage s'.mem c) →
          Sat (argvLoopT p argvAddr n (i + 1) (pages ++ [q])) s' G (fun o s' => ∀ l, o = some l →
            l.length ≤ pages.length + (n + 1) ∧
            ∃ g', Pending A p l g' s' ∧ ∃ q ∈ l, LongPage s'.mem q) fun _ => True := by
        rintro g' s' h' ⟨c, hc, hlc⟩
        have hmem : ∃ c ∈ pages ++ [q], LongPage s'.mem c := ⟨c, List.mem_append_left _ hc, hlc⟩
        refine (ih h' hmem (fun j h1 h2 => hG j (by omega) (by omega)) ?_).imp
          fun o s'' ho l hl => ?_
        · rintro l ⟨⟩
          exact ⟨Nat.le_add_right _ _, g', h', hmem⟩
        · have hle := (ho l hl).1
          rw [List.length_append, List.length_singleton] at hle
          exact ⟨by omega, (ho l hl).2⟩
      obtain ⟨c, hc, hlc⟩ := hlong
      refine uvmCopyinStr_sat h₂.world.heap (h₂.world.proc p ha).space.live hqa hd
        (Nat.le_of_lt htext.1) (by omega) htext.2
        (fun _ => trivial) fun m hm => ?_
      obtain ⟨h₃, hk₃⟩ := h.snoc hg hq hm
      obtain ⟨h₄, hk₄⟩ := h₃.clearLast hlast
      exact ⟨hnext _ _ h₃ ⟨c, hc, hk₃ c hc hlc⟩, fun _ =>
        hnext _ _ h₄ ⟨c, hc, hk₄ c (List.mem_append_left _ hc) (hk₃ c hc hlc)⟩⟩

/-- What the loop finds: a vector of strings, or a string without end. -/
theorem argvLoopT_any {argvAddr : Nat} (hw : World A g s) (ha : A p)
    (htrap : g.own (s.procs p).tf = .trapframe p)
    (h : ArgsHeld A p strs pages g s g₁ s₁) (hG : ∀ j, i ≤ j → j < i + n → G (.argv j)) :
    Sat (argvLoopT p argvAddr n i pages) s₁ G
      (fun o s' => ∀ l, o = some l → l.length ≤ pages.length + n ∧
      ((∃ rest g', ArgArray s (s.procs p).pgtbl argvAddr n i rest ∧
        ArgsHeld A p (strs ++ rest) l g s g' s') ∨
        ∃ g', Pending A p l g' s' ∧ ∃ q ∈ l, LongPage s'.mem q)) fun _ => True := by
  induction n generalizing strs g₁ s₁ i pages with
  | zero =>
      rw [argvLoopT, sat_pure]
      rintro l ⟨⟩
      exact ⟨Nat.le_refl _, .inl ⟨[], g₁, rfl, by rwa [List.append_nil]⟩⟩
  | succ n ih =>
      have hprocs := rest_procs h.framed.rest
      have hp₁ := h.pending
      have hl₁ := (h.world.proc p ha).space.live
      unfold argvLoopT
      rw [sat_bind, sat_mute, sat_bind, sat_procOf]
      refine uvmCopyinVar_sat h.world.heap hl₁ (fun _ _ => trivial) fun hread => ?_
      rw [hprocs] at hread ⊢
      have hr : Readable s (s.procs p).pgtbl (u64 (argvAddr + i * 8)) 8 :=
        (h.readable hw ha).mp hread
      rw [userWord_bytes, h.word hw ha htrap hr]
      by_cases hz : userWord s.mem (s.procs p).pgtbl (u64 (argvAddr + i * 8)) = 0
      · rw [if_pos hz, sat_pure]
        rintro l ⟨⟩
        exact ⟨Nat.le_add_right _ _, .inl ⟨[], g₁, ⟨hr, hz⟩, by rwa [List.append_nil]⟩⟩
      have hGi := hG i (Nat.le_refl i) (by omega)
      rw [if_neg hz, sat_bind, sat_mute]
      refine (pmemAlloc_heap h.world.heap false (u := .scratch) trivial).imp fun q s₂ hall => ?_
      obtain ⟨g₂, hg⟩ := hall
      rw [sat_bind, sat_emitAll]
      refine ⟨by simp [hGi], ?_⟩
      by_cases hq : q = 0
      · rw [if_pos hq, sat_pure]
        exact fun l hl => absurd hl.symm (Option.some_ne_none l)
      rw [if_neg hq, sat_bind, sat_emit, sat_bind, sat_mute, sat_bind, sat_procOf]
      refine ⟨hGi, ?_⟩
      have h₂ := (hp₁.snoc hg hq (.refl q _)).1
      obtain ⟨hqa, hd, htext, hapart, hlast⟩ := h₂.page ha
      have hprocs₂ : s₂.procs = s₁.procs := by
        cases hg with
        | none _ => exact absurd rfl hq
        | some pos lt was length heap mem rest => exact rest_procs rest
      have hmem₂ : s₂.mem = s₁.mem := by
        cases hg with
        | none _ => exact absurd rfl hq
        | some pos lt was length heap mem rest => exact mem
      have hback :
          ∀ str, UserStr s₂ (s₂.procs p).pgtbl
            (userWord s.mem (s.procs p).pgtbl (u64 (argvAddr + i * 8))) str →
            UserStr s (s.procs p).pgtbl
              (userWord s.mem (s.procs p).pgtbl (u64 (argvAddr + i * 8))) str := by
        intro str hstr
        rw [hprocs₂, hprocs] at hstr
        have hstr₁ := hstr.same_mem hmem₂.symm
        have hread' := (h.readable hw ha).mp hstr₁.1
        exact ⟨hread', hstr₁.2.congr fun k hk =>
          (h.seen hw ha htrap hread' (Nat.lt_succ_of_le hk)).symm⟩
      have hlen : ∀ (o : Option (List Nat)) (s' : Kernel) (R : List Nat → Prop),
          (∀ l, o = some l → l.length ≤ (pages ++ [q]).length + n ∧ R l) → ∀ l, o = some l →
          l.length ≤ pages.length + (n + 1) ∧ R l := by
        intro o s' R ho l hl
        have hle := (ho l hl).1
        rw [List.length_append, List.length_singleton] at hle
        exact ⟨by omega, (ho l hl).2⟩
      refine uvmCopyinStr_page h₂.world.heap (h₂.world.proc p ha).space.live hqa hd htext.1 htext.2
        hapart (fun _ _ => trivial)
        (fun m str hm hshort hstr hc => ?_) fun m hm _ hnz => ?_
      · refine (ih (h.snoc hg hq hm hc hshort) fun j h1 h2 => hG j (by omega) (by omega)).imp
          fun o s' ho => ?_
        refine hlen o s' _ fun l hl => ⟨(ho l hl).1, (ho l hl).2.imp_left fun hrest => ?_⟩
        obtain ⟨rest, g', hvec, hh⟩ := hrest
        exact ⟨str :: rest, g',
          ⟨⟨hr, hz⟩, ⟨hshort, hback str hstr⟩, hvec⟩, by rwa [List.append_assoc] at hh⟩
      · obtain ⟨h₃, -⟩ := hp₁.snoc hg hq hm
        obtain ⟨h₄, hk₄⟩ := h₃.clearLast hlast
        have hin : q ∈ pages ++ [q] := List.mem_append_right _ (List.mem_singleton_self q)
        refine (argvLoopT_long h₄ ha ⟨q, hin, hk₄ q hin fun k hk => hnz k (by omega)⟩ fun j h1 h2 =>
          hG j (by omega) (by omega)).imp
          fun o s' ho => ?_
        exact hlen o s' _ fun l hl => ⟨(ho l hl).1, .inr (ho l hl).2⟩

/-! ## A string without end does not fit -/

theorem strlenLoop_any {G : Event → Prop} (fuel : Nat) :
    Sat (strlenLoop a fuel n) s G (fun len s' => s = s' ∧ len < n + fuel ∧ s.mem (a + len) = 0)
      fun _ => True := by
  induction fuel generalizing n with
  | zero => exact (sat_panic _).mpr trivial
  | succ fuel ih =>
      unfold strlenLoop
      rw [sat_bind, sat_loadByte]
      split
      · next hz => exact (sat_pure _).mpr ⟨rfl, by omega, hz⟩
      · exact ih.imp fun len s' h => ⟨h.1, by omega, h.2.2⟩

theorem uvmCopyout_high {src : KernelSrc} {dst : Nat} {Q : Unit → Kernel → Prop} {G : Event → Prop}
    (hdst : vaMax ≤ dst) (hn : 0 < n)
    (hE : ∀ e, E e) : Sat (uvmCopyout r dst src n) s G Q E := by
  have hdown : pgRoundDown dst = dst / pgSize * pgSize := rfl
  have hhigh : vaMax ≤ dst / pgSize * pgSize := by
    unfold vaMax pgSize at *
    omega
  obtain ⟨n, rfl⟩ := Nat.exists_eq_succ_of_ne_zero (Nat.pos_iff_ne_zero.mp hn)
  unfold uvmCopyout copyoutLoop userPage vmGetpte
  rw [if_pos hn, hdown, if_pos hhigh, sat_bind, sat_bind, sat_bind, sat_panic]
  exact hE _

variable {V : Nat} {P : Pages} {x : Page}

/-- One turn of the loop over the arguments, whatever is on the page. -/
theorem pushArgsT_step {page : Nat} {rest : List Nat} {Q : Option (List Nat × Nat) → Kernel → Prop}
    (h : Built A p r P a b g s g₁ s₁)
    (hpos : 0 < V) (hV : V < vaPages) (hx : P V = some x) (ho : o % 16 = 0) (hop : o ≤ pgSize)
    (hG : G (.argv rest.length) ∧ G (.ustack rest.length)) (hdrop : ∀ sp n, G (.drop sp n))
    (hE : ∀ e, E e) (hnone : Q none s₁)
    (hnext : ∀ len m, up16 (len + 1) ≤ o → s₁.mem (page + len) = 0 →
      Built A p r (P.write V (o - up16 (len + 1)) (window s₁.mem page) (len + 1)) a b g s g₁
        (s₁.setMem m) →
      ArgsKept g₁ s₁ (s₁.setMem m) →
      Sat (pushArgsT r (V * pgSize) rest ((V * pgSize + (o - up16 (len + 1))) :: ustack)
        (V * pgSize + (o - up16 (len + 1))))
        (s₁.setMem m) G Q E) :
    Sat (pushArgsT r (V * pgSize) (page :: rest) ustack (V * pgSize + o)) s₁ G Q E := by
  have hbound := page_below (Nat.succ_le_of_lt hV)
  have hbase : pgSize ≤ V * pgSize := Nat.le_mul_of_pos_left _ hpos
  have hva : (V + 1) * pgSize ≤ vaMax := by
    unfold vaPages at hV
    unfold vaMax pgSize at *
    omega
  rw [Nat.succ_mul] at hbound hva
  unfold pushArgsT
  rw [sat_bind, sat_emit, sat_bind, sat_mute]
  refine ⟨hG.1, ((strlenLoop_any (physTop - page)).mono (fun len s' hlen => ?_) fun e _ => hE e)⟩
  obtain ⟨rfl, hlt, hz⟩ := hlen
  have hup := (up16_bounds (len + 1)).1
  rw [sat_bind, sat_emit, sat_bind, sat_emit]
  refine ⟨hdrop _ _, hdrop _ _, ?_⟩
  dsimp only
  by_cases hlow :
    sub64 (V * pgSize + o) (len + 1) - sub64 (V * pgSize + o) (len + 1) % 16 < V * pgSize
  · rw [if_pos hlow, sat_pure]
    exact hnone
  have hphys : physTop = 0x88000000 := rfl
  have hlen32 : u32 (len + 1) = len + 1 := Nat.mod_eq_of_lt (by omega)
  rw [if_neg hlow, sat_bind, sat_emitAll, sat_bind, sat_mute, hlen32]
  refine ⟨by simp [hG.1], ?_⟩
  by_cases hwrap : len + 1 ≤ V * pgSize + o
  swap
  · -- `sp` has wrapped around
    refine uvmCopyout_high ?_ (Nat.succ_pos len) hE
    unfold sub64 u64 vaMax at *
    omega
  have hfits : len + 1 ≤ pgSize := by
    unfold sub64 u64 at hlow
    omega
  obtain ⟨-, hyes, hno⟩ := sp_drop (Nat.mul_mod_left V pgSize) hbase hbound ho hop hfits
  have hroom : up16 (len + 1) ≤ o := by
    by_contra hc
    exact hlow (hno.mpr hc)
  rw [hyes hroom]
  refine h.copyout hV hx (by omega) fun m hb hk => ?_
  rw [sat_bind, sat_emit]
  exact ⟨hG.2, hnext len m hroom hz hb hk⟩

/-- No argument goes onto a full page. -/
theorem pushArgsT_full (h : Built A p r P a b g s g₁ s₁) (hpos : 0 < V) (hV : V < vaPages)
    (hx : P V = some x) (hsome : pages ≠ [])
    (hG : ∀ i < pages.length, G (.argv i) ∧ G (.ustack i))
    (hdrop : ∀ sp n, G (.drop sp n)) (hE : ∀ e, E e) :
    Sat (pushArgsT r (V * pgSize) pages ustack (V * pgSize + 0)) s₁ G (fun o _ => o = none) E := by
  cases pages with
  | nil => exact absurd rfl hsome
  | cons page rest =>
      refine pushArgsT_step h hpos hV hx rfl (Nat.zero_le _)
        (hG _ (Nat.lt_succ_self _)) hdrop hE rfl fun len m hle => ?_
      have hup := (up16_bounds (len + 1)).1
      omega

/-- Once a string without end is pushed, the page is full. -/
theorem pushArgsT_long (h : Built A p r P a b g s g₁ s₁) (hpos : 0 < V)
    (hV : V < vaPages) (hx : P V = some x)
    (ho : o % 16 = 0) (hop : o ≤ pgSize) (hpages : ∀ q ∈ pages, g₁.own q = .scratch)
    (hlong : ∃ q ∈ pages, LongPage s₁.mem q)
    (hG : ∀ i < pages.length, G (.argv i) ∧ G (.ustack i))
    (hdrop : ∀ sp n, G (.drop sp n)) (hE : ∀ e, E e) :
    Sat (pushArgsT r (V * pgSize) pages ustack (V * pgSize + o)) s₁ G
      (fun d _ => ∀ y, d = some y → y.2 = V * pgSize ∧ o = pgSize ∧ pages.length = 1) E := by
  induction pages generalizing P x s₁ ustack o with
  | nil =>
      obtain ⟨q, hq, -⟩ := hlong
      exact absurd hq List.not_mem_nil
  | cons page rest ih =>
      refine pushArgsT_step h hpos hV hx ho hop (hG _ (Nat.lt_succ_self _)) hdrop hE nofun
        fun len m hle hz hb hk => ?_
      obtain ⟨h1, -, h3⟩ := up16_bounds (len + 1)
      have hmod : (o - up16 (len + 1)) % 16 = 0 := by omega
      have hy : P.write V (o - up16 (len + 1)) (window s₁.mem page) (len + 1) V =
          some { x with data := splice x.data (o - up16 (len + 1)) (window s₁.mem page) (len + 1) } := by
        rw [Pages.write, if_pos rfl, hx]
        rfl
      have hGr : ∀ i < rest.length, G (.argv i) ∧ G (.ustack i) :=
        fun i hi => hG i (Nat.lt_succ_of_lt hi)
      obtain ⟨q, hq, hql⟩ := hlong
      rcases List.mem_cons.mp hq with rfl | hq
      · -- the page is full now
        have hlen : pgSize - 1 ≤ len := by
          by_contra hc
          exact hql len (by omega) hz
        have hfull : o = pgSize := by
          unfold pgSize at *
          omega
        have hzero : o - up16 (len + 1) = 0 := by omega
        rw [hzero] at hb hy ⊢
        by_cases hrest : rest = []
        · subst hrest
          rw [pushArgsT, sat_pure]
          rintro y ⟨⟩
          exact ⟨Nat.add_zero _, hfull, rfl⟩
        · refine (pushArgsT_full hb hpos hV hy hrest hGr hdrop hE).imp fun d _ hd y hy => ?_
          rw [hd] at hy
          cases hy
      · refine (ih hb hy hmod (by omega) (fun c hc => hpages c (List.mem_cons_of_mem _ hc))
          ⟨q, hq, fun i hi => ?_⟩ hGr).imp
          fun d _ hd y hy => ?_
        · have hown := hpages q (List.mem_cons_of_mem _ hq)
          have hqa := (h.world.heap.page q (by rw [hown]; exact Use.noConfusion)).1
          rw [hk q hqa hown i (by omega)]
          exact hql i hi
        · have hfull := (hd y hy).2.1
          omega

/-- With such a string among the arguments the call fails, or panics. -/
theorem execFileT_long {lookup : List UInt8 → Option Image} {path : List UInt8}
    (h : Pending A p pages g s) (hlong : ∃ q ∈ pages, LongPage s.mem q)
    (hG : ∀ i < pages.length, G (.argv i) ∧ G (.ustack i)) (hend : pages.length = 1 → G (.ustack 1))
    (hdrop : ∀ sp n, G (.drop sp n))
    (hside : ∀ e, e.Aside → G e) :
    Sat (execFileT p lookup path pages) s G (fun d _ => ∀ argc, d ≠ .ok argc) fun _ => True := by
  have hbad : ∀ ip t why s', Sat (execBadT ip t pages why) s' G (fun d _ => ∀ argc, d ≠ .ok argc)
    fun _ => True := fun ip t why s' =>
    execBadT_any (fun j hj => (hG j hj).1) (fun _ => hside _ trivial) (fun _ => trivial) fun _ =>
      nofun
  refine execFileT_sat h.world h.trap (hside _ trivial) (fun _ => hbad false 0 .file s)
    (fun _ _ _ => hbad true 0 .header s)
    (fun _ _ s' _ => hbad true 0 .table s') fun img r g₂ s₂ _ h₂ => ?_
  refine execLoadT_any h₂ (fun _ => trivial) hside (fun ip why s' _ => hbad ip r why s')
    fun V P a b g₃ s₃ hV hx h₃ => ?_
  obtain ⟨hbase, htop⟩ := stack_ends hV
  have hbound := page_below hV
  have hkept : ∀ q ∈ pages, g₃.own q = .scratch ∧ ∀ i < pgSize, s₃.mem (q + i) = s.mem (q + i) := by
    intro q hq
    have hown := h.scratch q hq
    have hqa := (h.world.heap.page q (by rw [hown]; exact Use.noConfusion)).1
    exact ⟨(h₃.framed.own_eq (hown ▸ nofun)).trans hown, h₃.framed.mem q hqa (hown ▸ nofun)⟩
  obtain ⟨q, hq, hql⟩ := hlong
  unfold execStackT
  dsimp only
  rw [hbase, htop, sat_bind]
  refine (pushArgsT_long h₃ (Nat.succ_pos V) (by omega) hx rfl (Nat.le_refl _)
    (fun c hc => (hkept c (List.mem_reverse.mp hc)).1) ⟨q, List.mem_reverse.mpr hq, fun i hi =>
      ?_⟩ (fun i hi => hG i ?_)
    hdrop fun _ => trivial).imp fun d s₄ hd => ?_
  · rw [(hkept q hq).2 i (by omega)]
    exact hql i hi
  · rwa [List.length_reverse] at hi
  cases d with
  | none => exact hbad false r .argument s₄
  | some y =>
      obtain ⟨ustack, sp⟩ := y
      obtain ⟨rfl, -, hone⟩ := hd _ rfl
      rw [List.length_reverse] at hone
      have hlow : sub64 ((V + 1) * pgSize) ((1 + 1) * 8) - sub64 ((V + 1) * pgSize)
        ((1 + 1) * 8) % 16 < (V + 1) * pgSize := by
        rw [Nat.succ_mul] at hbound ⊢
        unfold sub64 u64 pgSize at *
        omega
      dsimp only
      rw [hone, sat_bind, sat_emit, sat_bind, sat_mute, sat_assert (by decide), sat_bind,
        sat_emit, sat_bind, sat_emit,
        if_pos hlow]
      exact ⟨hend hone, hdrop _ _, hdrop _ _, hbad false r .pointers s₄⟩

/-! ## A full array -/

theorem ExecEvent.Aside.inArray {e : ExecEvent} (h : e.Aside) : e.InArray := by
  cases e with
  | argv i | ustack i => exact h.elim
  | drop sp n | map va | hold | release => trivial

/-- A full array whose strings do not fit on the stack. -/
theorem sysExecT_unfit {lookup : List UInt8 → Option Image} {pathAddr argvAddr : Nat}
    (hw : World A g s) (ha : A p)
    (htrap : g.own (s.procs p).tf = .trapframe p)
    (hvec : ArgArray s (s.procs p).pgtbl argvAddr elfMaxArgs 0 strs)
    (hfit : pgSize < argBytes strs) :
    Sat (sysExecT p lookup pathAddr argvAddr) s ExecEvent.InArray (fun _ _ => True) fun _ =>
      True := by
  have hle := hvec.length_le
  refine (sysExecT_args hw ha htrap hvec (fun i hi => ?_) (fun i hi => ?_)
    (fun hc => absurd hc (Nat.not_le.mpr hfit))
    (fun _ _ _ => trivial) fun _ he => he.inArray).imp fun _ _ _ => trivial
  · exact Nat.lt_of_lt_of_le hi hle
  · exact Nat.lt_of_lt_of_le hi hle

/-- The strings fit: the word behind the last pointer is stored. -/
theorem execStackT_reaches {elf : ElfHdr} {P : Pages} {V : Nat} {x : Page}
    (h : Built A p r P a b g s g₁ s₁) (hV : V + 2 ≤ vaPages)
    (hx : P (V + 1) = some x) (hpages : List.Forall₂ (ArgPage g₁ s₁) pages strs)
    (hfit : argBytes strs ≤ pgSize) :
    .ustack strs.length ∈ (execStackT p elf pages r (V * pgSize) s₁).2 := by
  obtain ⟨hbase, htop⟩ := stack_ends hV
  change u64 (V * pgSize + 2 * pgSize) = (V + 1) * pgSize + (pgSize - argBytes []) at htop
  have hrev : strs.reverse.reverse ++ [] = strs := by rw [List.reverse_reverse, List.append_nil]
  unfold execStackT
  dsimp only
  rw [hbase, htop]
  refine Sat.mem_bind (G := fun _ => True) (Q := fun o _ => ∃ y, o = some y) ?_ ?_
  · refine pushArgsT_sat h (Nat.succ_pos V) (by omega) hx
      (List.forall₂_reverse_iff.mpr hpages) trivial (Nat.zero_le _)
      (fun _ _ => ⟨trivial, trivial⟩) (fun _ _ _ => trivial)
      (fun hno => ?_) fun _ _ _ _ _ _ _ _ _ _ _ => ⟨_, rfl⟩
    rw [hrev] at hno
    exact absurd hfit hno
  · rintro o s' ⟨⟨ustack, sp⟩, rfl⟩
    rw [← hpages.length_eq]
    exact mem_bind_left (List.mem_singleton_self _)

def bareElf : List UInt8 := [0x7F, 0x45, 0x4C, 0x46] ++ List.replicate 60 0

/-- With memory left, the call gets to the end of the arguments. -/
theorem Started.reaches {page : Nat → Bytes} {argvAddr : Nat} (h : Started page g s)
    (hvec : ArgArray s (s.procs 0).pgtbl argvAddr elfMaxArgs 0 strs) (hfit : argBytes strs ≤ pgSize) :
    .ustack strs.length ∈ (sysExecT 0 (fun _ => some (fileImage bareElf)) 0 argvAddr s).2 := by
  have hl := (h.world.proc 0 rfl).space.live
  have hle := hvec.length_le
  have hmax : elfMaxArgs = 32 := rfl
  have huser := h.user
  have hkernel := h.kernel
  unfold sysExecT
  refine Sat.mem_bind (G := fun _ => True) (Q := fun _ s' => s = s') ?_ ?_
  · rw [sat_mute, sat_bind, sat_procOf]
    refine uvmCopyinStrVar_sat h.world.heap hl (fun hc => absurd (fun i hi => ?_) hc) fun _ => rfl
    have hr := h.readable (v := 0) (o := 0) (n := dirPathLen) (.inl rfl) (by decide) i hi.1
    rwa [Nat.zero_mul, Nat.add_zero] at hr
  rintro path _ rfl
  refine Sat.mem_bind (G := fun _ => True) (Q := fun o s' =>
    ∃ l g', o = some l ∧ ArgsHeld (fun p => p = 0) 0 strs l g s g' s') ?_ ?_
  · refine argvLoopT_sat h.world rfl h.trap
      (ArgsHeld.nil h.world h.trap) hvec (fun _ _ _ => trivial)
      (fun strs' pages' g' s' hh hempty hlt => ?_) fun pages' g' s' hh => ⟨pages', g', rfl, hh⟩
    have hu := hh.user
    rw [hempty, List.length_nil] at hu
    rw [List.length_nil] at hlt
    omega
  rintro _ s₁ ⟨pages, g₁, rfl, hh⟩
  have hcount : pages.length = strs.length := hh.held.length_eq
  have hprocs := rest_procs hh.framed.rest
  have hu₁ := hh.user
  have hk₁ : (g₁.free true).length = (g.free true).length := by rw [hh.kernel]
  have htf : g₁.own (s₁.procs 0).tf = .trapframe 0 := by
    rw [hprocs]
    exact hh.trap
  unfold execFileT
  dsimp only
  refine Sat.mem_bind (G := fun _ => True) (Q := fun _ s' => s₁ = s')
    ((sat_emit _).mpr ⟨trivial, rfl⟩) ?_
  rintro _ _ rfl
  rw [if_neg (by decide), if_neg (by decide)]
  refine Sat.mem_bind (G := fun _ => True) (Q := fun r s' =>
    ∃ g', FreshSpace r (s₁.procs 0).tf g₁ s₁ g' s') ?_ ?_
  · rw [sat_mute, sat_bind, sat_procOf]
    have hman := (hh.world.homed.home _ true (by rw [htf]; rfl)).1
    exact procPgtblInit_sat hh.world.heap hh.world.homed hh.world.rooted hh.world.text hman.2
      (fun hbad => absurd ⟨by omega, by omega⟩ hbad) fun r g' s' hf => ⟨g', hf⟩
  rintro r s₂ ⟨g₂, hf⟩
  have hne : r ≠ 0 := Nat.pos_iff_ne_zero.mp (hf.space.heap.table_page hf.space.live).2
  have hu₂ := hf.user
  have hk₂ := hf.used
  have hb : Built (fun p => p = 0) 0 r (fun _ => none) 1 2 g₁ s₁ g₂ s₂ :=
    Built.fresh hh.world htf hf
  have hnum : (elfHdr (regionOf ((fileImage bareElf).read 0 elfHdrSize))).phnum = 0 := by decide
  rw [if_neg hne]
  unfold execLoadT
  rw [hnum]
  refine Sat.mem_bind (G := fun _ => True) (Q := fun o s' => o = some 0 ∧ s₂ = s') ?_ ?_
  · rw [segmentsLoopT, sat_pure]
    exact ⟨rfl, rfl⟩
  rintro _ _ ⟨rfl, rfl⟩
  dsimp only
  refine Sat.mem_bind (G := fun _ => True) (Q := fun _ s' => s₂ = s')
    ((sat_emit _).mpr ⟨trivial, rfl⟩) ?_
  rintro _ _ rfl
  rw [show pgRoundUp 0 = 0 * pgSize from rfl]
  refine Sat.mem_bind (G := fun _ => True) (Q := fun c s' => c = true ∧ ∃ g', Built (fun p => p = 0) 0 r
    (Pages.clear (fun _ => none) (pteW ||| pteR ||| pteU) 0 2) 3 6 g₁ s₁ g' s') ?_ ?_
  · refine (stackLoopT_same _ _ _ _).withEvents (fun _ _ => trivial) ?_
    refine stackLoop_sat (i := 0) hb (by decide) (fun hbad => absurd ⟨by decide, by omega⟩ hbad) (fun k hk g' s' _ hlen => ?_)
      fun _ g' s' hb' => ⟨rfl, g', hb'⟩
    omega
  rintro _ s₃ ⟨rfl, g₃, hb₃⟩
  rw [if_neg (by decide)]
  exact execStackT_reaches (x := ⟨pteW ||| pteR ||| pteU, fun _ => 0⟩) hb₃ (by decide) rfl
    (hh.kept hb₃.framed) hfit

/-! ## An array of given strings -/

def flatArgs (strs : List (List UInt8)) : List UInt8 := (strs.map (· ++ [0])).flatten

def argPointers : Nat → List (List UInt8) → List Nat
  | _, [] => []
  | a, str :: strs => a :: argPointers (a + str.length + 1) strs

theorem flatArgs_cons (str : List UInt8) (strs : List (List UInt8)) :
    flatArgs (str :: strs) = str ++ 0 :: flatArgs strs := by
  unfold flatArgs
  simp

theorem flatArgs_length (strs : List (List UInt8)) : (flatArgs strs).length ≤ argBytes strs := by
  induction strs with
  | nil => exact Nat.le_refl _
  | cons str strs ih =>
      have hup := (up16_bounds (str.length + 1)).1
      rw [flatArgs_cons, argBytes_cons, List.length_append, List.length_cons]
      omega

theorem argPointers_bounds (strs : List (List UInt8)) (a : Nat) :
    ∀ c ∈ argPointers a strs, a ≤ c ∧ c < a + (flatArgs strs).length := by
  induction strs generalizing a with
  | nil => exact nofun
  | cons str strs ih =>
      intro c hc
      rw [flatArgs_cons, List.length_append, List.length_cons]
      rcases List.mem_cons.mp hc with rfl | hc
      · omega
      · have hb := ih _ c hc
        omega

/-- The strings on one page of the process, the array on another. -/
theorem Started.argArray {page : Nat → Bytes} (h : Started page g s) (hz : ∀ str ∈ strs, 0 ∉ str)
    (hwords : ∀ j < strs.length, getLE (page 0) (8 * (i + j)) 8 =
      (argPointers (0x10000 + o) strs).getD j 0)
    (hbytes : ∀ j < (flatArgs strs).length, page 16 (o + j) = (flatArgs strs).getD j 0)
    (hroom : 8 * (i + strs.length) ≤ pgSize) (ho : o + (flatArgs strs).length ≤ pgSize) :
    ArgArray s (s.procs 0).pgtbl 0 strs.length i strs := by
  induction strs generalizing i o with
  | nil => rfl
  | cons str strs ih =>
      have hflat : (flatArgs (str :: strs)).length = str.length + 1 + (flatArgs strs).length := by
        rw [flatArgs_cons, List.length_append, List.length_cons]
        omega
      rw [List.length_cons] at hwords hroom
      rw [hflat] at hbytes ho
      have hpg : pgSize = 4096 := rfl
      have haddr : u64 (0 + i * 8) = 0 * pgSize + 8 * i := by
        unfold u64
        omega
      have hword : userWord s.mem (s.procs 0).pgtbl (u64 (0 + i * 8)) = 16 * pgSize + o := by
        rw [haddr, h.word (.inl rfl) (by omega)]
        exact hwords 0 (Nat.succ_pos _)
      have hstr : CStr (window (page 16) o) str := by
        have hget : ∀ j ≤ str.length, page 16 (o + j) = (str ++ 0 :: flatArgs strs).getD j 0 := by
          intro j hj
          rw [hbytes j (by omega), flatArgs_cons]
        refine ⟨fun j hj => ?_, ?_⟩
        · have hj' := hget j (Nat.le_of_lt hj)
          rw [List.getD_append _ _ _ _ hj] at hj'
          refine ⟨hj', fun hc => hz str List.mem_cons_self ?_⟩
          rw [window, hj', List.getD_eq_getElem _ _ hj] at hc
          exact hc ▸ List.getElem_mem hj
        · rw [window, hget _ (Nat.le_refl _), List.getD_append_right _ _ _ _ (Nat.le_refl _),
            Nat.sub_self]
          rfl
      refine ⟨⟨?_, ?_⟩, ⟨by omega, ?_⟩,
        ih (i := i + 1) (o := o + str.length + 1) (fun st hst => hz st (List.mem_cons_of_mem _ hst))
        (fun j hj => ?_) (fun j hj => ?_) (by omega) (by omega)⟩
      · rw [haddr]
        exact h.readable (.inl rfl) (by omega)
      · rw [hword]
        omega
      · rw [hword]
        exact h.string (.inr rfl) (by omega) hstr
      · have hw := hwords (j + 1) (by omega)
        rw [show i + (j + 1) = i + 1 + j by omega] at hw
        rw [show 0x10000 + (o + str.length + 1) = 0x10000 + o + str.length + 1 by omega]
        exact hw
      · have hb := hbytes (str.length + 1 + j) (by omega)
        rw [flatArgs_cons, List.getD_append_right _ _ _ _ (by omega),
          show str.length + 1 + j - str.length = j + 1 by omega] at hb
        rw [show o + str.length + 1 + j = o + (str.length + 1 + j) by omega]
        exact hb

/-- Strings without zeros that fit on a page are the arguments of some call that gets to the end of
the arguments. -/
theorem exists_reaches (hz : ∀ str ∈ strs, 0 ∉ str) (hlen : strs.length = elfMaxArgs)
    (hfit : argBytes strs ≤ pgSize) :
    ∃ (A : ProcId → Prop) (g : Ledger) (s : Kernel), World A g s ∧ A 0 ∧
    g.own (s.procs 0).tf = .trapframe 0 ∧
      ArgArray s (s.procs 0).pgtbl 0 elfMaxArgs 0 strs ∧
      .ustack elfMaxArgs ∈ (sysExecT 0 (fun _ => some (fileImage bareElf)) 0 0 s).2 := by
  have hflat := flatArgs_length strs
  have hpg : pgSize = 4096 := rfl
  have hmax : elfMaxArgs = 32 := rfl
  obtain ⟨g, s, h⟩ :=
    exists_started fun v =>
      if v = 0 then ustackBytes (argPointers 0x10000 strs) else regionOf (flatArgs strs)
  have hvec := h.argArray (i := 0) (o := 0) hz (fun j _ => ?_) (fun j _ => ?_) (by omega) (by omega)
  · rw [hlen] at hvec
    refine ⟨_, g, s, h.world, rfl, h.trap, hvec, ?_⟩
    rw [← hlen]
    exact h.reaches hvec hfit
  · rw [if_pos rfl, Nat.zero_add]
    refine ustackBytes_word _ (fun c hc => ?_) j
    have hb := argPointers_bounds strs _ c hc
    omega
  · rw [if_neg (by decide), Nat.zero_add]
    rfl

/-- A call keeps to its arrays unless there are `ELF_MAXARGS` strings that fit on the stack, with no
null before the last one. -/
theorem sysExecT_bounds {lookup : List UInt8 → Option Image} {pathAddr argvAddr : Nat}
    (hw : World A g s) (ha : A p)
    (htrap : g.own (s.procs p).tf = .trapframe p)
    (hvec : ¬ ∃ strs, strs.length = elfMaxArgs ∧
      ArgArray s (s.procs p).pgtbl argvAddr elfMaxArgs 0 strs ∧ argBytes strs ≤ pgSize) :
    Sat (sysExecT p lookup pathAddr argvAddr) s ExecEvent.InArray (fun _ _ => True) fun _ =>
      True := by
  unfold sysExecT
  rw [sat_bind, sat_mute, sat_bind, sat_procOf]
  refine uvmCopyinStrVar_sat hw.heap (hw.proc p ha).space.live (fun _ _ => trivial) fun _ => ?_
  rw [sat_bind]
  refine (argvLoopT_any hw ha htrap (ArgsHeld.nil hw htrap) fun j _ hj => ?_).imp fun o s' ho => ?_
  · rwa [Nat.zero_add] at hj
  cases o with
  | none => exact (sat_pure _).mpr trivial
  | some l =>
      obtain ⟨hle, hl⟩ := ho l rfl
      rw [List.length_nil, Nat.zero_add] at hle
      dsimp only
      by_cases hfull : l.length = elfMaxArgs
      swap
      · refine execFileT_any (fun j hj => ?_) (fun j hj => ?_) (fun _ _ => trivial) fun _ he =>
          he.inArray
        · exact Nat.lt_of_lt_of_le hj hle
        · exact Nat.lt_of_le_of_lt hj (Nat.lt_of_le_of_ne hle hfull)
      have hG : ∀ i < l.length, (ExecEvent.argv i).InArray ∧ (ExecEvent.ustack i).InArray :=
        fun i hi =>
        ⟨Nat.lt_of_lt_of_le hi hle, Nat.lt_of_lt_of_le hi hle⟩
      rcases hl with ⟨rest, g', hrest, hh⟩ | ⟨g', hp, hlong⟩
      · rw [List.nil_append] at hh
        have hcount := hh.held.length_eq
        refine (execFileT_args hh ha (by omega) (fun i hi => (hG i (by omega)).1)
          (fun i hi => (hG i (by omega)).2) (fun hfit => ?_)
          (fun _ _ _ => trivial) fun _ he => he.inArray).imp fun _ _ _ => trivial
        exact absurd ⟨rest, by omega, hrest, hfit⟩ hvec
      · refine (execFileT_long hp hlong hG (fun hone => ?_) (fun _ _ => trivial)
          fun _ he => he.inArray).imp
          fun _ _ _ => trivial
        exact absurd (hfull.symm.trans hone) (by decide)

/-- The accesses of `sys_exec` keep to the arrays in every call that does not find `ELF_MAXARGS`
strings that fit on the stack, one after the other without a null; for such a vector they do not. -/
theorem arrays_kept_iff {lookup : List UInt8 → Option Image} {pathAddr argvAddr : Nat}
    (hw : World A g s) (ha : A p)
    (htrap : g.own (s.procs p).tf = .trapframe p) :
    ((¬ ∃ strs, strs.length = elfMaxArgs ∧ ArgArray s (s.procs p).pgtbl argvAddr elfMaxArgs 0 strs ∧
      argBytes strs ≤ pgSize) →
      Sat (sysExecT p lookup pathAddr argvAddr) s ExecEvent.InArray (fun _ _ => True) fun _ =>
        True) ∧
    ∀ strs : List (List UInt8), strs.length = elfMaxArgs → (∀ str ∈ strs, 0 ∉ str) →
      ((∀ (A : ProcId → Prop) (g : Ledger) (s : Kernel) (p : ProcId) (lookup : List UInt8 → Option Image) (pathAddr argvAddr : Nat),
        World A g s → A p → g.own (s.procs p).tf = .trapframe p →
        ArgArray s (s.procs p).pgtbl argvAddr elfMaxArgs 0 strs →
        Sat (sysExecT p lookup pathAddr argvAddr) s ExecEvent.InArray (fun _ _ => True) fun _ =>
          True) ↔ pgSize < argBytes strs) := by
  refine ⟨fun hvec => sysExecT_bounds hw ha htrap hvec, fun strs hlen hz => ⟨fun hall => ?_,
    fun hno A g s p lookup pathAddr argvAddr hw ha htrap hvec =>
    sysExecT_unfit hw ha htrap hvec hno⟩⟩
  by_contra hfit
  obtain ⟨A, g, s, hw, ha, htrap, hvec, hmem⟩ := exists_reaches hz hlen (Nat.le_of_not_lt hfit)
  exact Nat.lt_irrefl _ ((hall A g s 0 _ 0 0 hw ha htrap hvec).1 _ hmem)

end

/-- One argument, which the call copies to the stack. -/
theorem arrays_kept_one : ∃ (A : ProcId → Prop) (g : Ledger) (s : Kernel), World A g s ∧ A 0 ∧
    (¬ ∃ strs, strs.length = elfMaxArgs ∧ ArgArray s (s.procs 0).pgtbl 0x10000 elfMaxArgs 0 strs ∧
      argBytes strs ≤ pgSize) ∧
    Sat (sysExecT 0 (fun _ => some (fileImage bareElf)) 0 0x10000) s ExecEvent.InArray
      (fun _ _ => True) fun _ => True := by
  obtain ⟨g, s, h⟩ := exists_started oneArgument
  have hnull : userWord s.mem (s.procs 0).pgtbl (u64 (0x10000 + 1 * 8)) = 0 := h.oneVector.2.2.2
  have hno : ¬ ∃ strs, strs.length = elfMaxArgs ∧
    ArgArray s (s.procs 0).pgtbl 0x10000 elfMaxArgs 0 strs ∧ argBytes strs ≤ pgSize := by
    rintro ⟨strs, hlen, hvec, -⟩
    rcases strs with _ | ⟨str, _ | ⟨str', strs⟩⟩
    · exact absurd hlen (by decide)
    · exact absurd hlen (by decide : 1 ≠ 32)
    · exact hvec.2.2.1.2 hnull
  exact ⟨_, g, s, h.world, rfl, hno, (arrays_kept_iff h.world rfl h.trap).1 hno⟩

/-- A vector of `ELF_MAXARGS` empty strings: `ustack[ELF_MAXARGS]` is written. -/
theorem full_array_overruns :
    ∃ (A : ProcId → Prop) (g : Ledger) (s : Kernel), World A g s ∧ A 0 ∧
    g.own (s.procs 0).tf = .trapframe 0 ∧
    ArgArray s (s.procs 0).pgtbl 0 elfMaxArgs 0 (List.replicate 32 []) ∧
    ¬ Sat (sysExecT 0 (fun _ => some (fileImage bareElf)) 0 0) s ExecEvent.InArray
      (fun _ _ => True) fun _ => True := by
  have hz : ∀ str ∈ List.replicate 32 ([] : List UInt8), 0 ∉ str := by
    intro str hstr
    rw [List.eq_of_mem_replicate hstr]
    exact List.not_mem_nil
  obtain ⟨A, g, s, hw, ha, htrap, hvec, hmem⟩ := exists_reaches hz rfl (by decide)
  exact ⟨A, g, s, hw, ha, htrap, hvec, fun hsat => Nat.lt_irrefl _ (hsat.1 _ hmem)⟩

end WhuOs.Mem
