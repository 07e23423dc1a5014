import WhuOs.Mem.ExecImage

/-! # The answers of `sys_exec`

When a call returns, and what. Where the memory of the kernel suffices and the file stays below the
trap frame, a call with a readable path and a vector of strings gives the number of strings, or
fails for a reason that is there.
-/

namespace WhuOs.Mem

open Prog Bytes

/-- No panic stands in the way of a call: the path is a readable string, what is found there is a
file whose segments end below the stack of the new image, and there are two kernel pages for the
table and for each page to map. -/
structure Smooth (lookup : List UInt8 → Option Image) (g : Ledger) (s : Kernel)
    (p : ProcId) (pathAddr : Nat)
    (file : List UInt8) : Prop where
  path : ∀ i, Looked s.mem (s.procs p).pgtbl pathAddr dirPathLen i →
    Present s (s.procs p).pgtbl ((pathAddr + i) / pgSize)
  text : (userString s.mem (s.procs p).pgtbl pathAddr dirPathLen).length < dirPathLen
  found : ∀ img, lookup (userString s.mem (s.procs p).pgtbl pathAddr dirPathLen) = some img →
    img = fileImage file
  below : ∀ ph ∈ planned file (fileElf file) (fileElf file).phnum 0,
    ph.vaddr + ph.memsz ≤ (trapframeVpn - 2) * pgSize
  room : 2 + 2 * min (segmentPages (planned file (fileElf file) (fileElf file).phnum 0) + 2)
    (g.free false).length ≤
    (g.free true).length

section

variable {A : ProcId → Prop} {g : Ledger} {s s' : Kernel} {p : ProcId}
  {strs : List (List UInt8)} {file : List UInt8}
  {lookup : List UInt8 → Option Image} {pathAddr argvAddr : Nat} {E : Panic → Prop}

theorem Smooth.outcome (hs : Smooth lookup g s p pathAddr file) (hw : World A g s) (ha : A p)
    (htrap : g.own (s.procs p).tf = .trapframe p)
    (hvec : ArgArray s (s.procs p).pgtbl argvAddr elfMaxArgs 0 strs)
    (hlen : strs.length < elfMaxArgs) :
    Sat (sysExecT p lookup pathAddr argvAddr) s (fun _ => True)
      (ExecOutcome A p lookup (userString s.mem (s.procs p).pgtbl pathAddr dirPathLen) file strs
        (g.free false).length
        (g.free true).length) E :=
  sysExecT_image hw ha htrap hvec hlen rfl hs.found (n := trapframeVpn - 2) (by decide) hs.below
    fun hno => absurd ⟨hs.path, hs.room⟩ hno

/-- The path is a string. -/
theorem Started.text (h : Started oneArgument g s) :
    (userString s.mem (s.procs 0).pgtbl 0 dirPathLen).length < dirPathLen := by
  have hlen : (userBytes s.mem (s.procs 0).pgtbl 0 dirPathLen).length =
    dirPathLen := by simp [userBytes]
  have hpre : userString s.mem (s.procs 0).pgtbl 0 dirPathLen <+: userBytes s.mem
    (s.procs 0).pgtbl 0 dirPathLen :=
    List.takeWhile_prefix _
  refine Nat.lt_of_le_of_ne (hlen ▸ hpre.length_le) fun hfull => ?_
  -- otherwise no byte is zero, the second one included
  have hall := List.takeWhile_eq_self_iff.mp (hpre.eq_of_length (hfull.trans hlen.symm))
  have hbyte : userWindow s.mem (s.procs 0).pgtbl (0 * pgSize + 1) 0 = 0 :=
    (h.byte (v := 0) (o := 1) (i := 0) (.inl rfl) (by decide)).trans (by decide)
  have hmem : userWindow s.mem (s.procs 0).pgtbl (0 * pgSize + 1) 0 ∈ userBytes s.mem
    (s.procs 0).pgtbl 0 dirPathLen :=
    List.mem_map.mpr ⟨1, List.mem_range.mpr (by decide), rfl⟩
  have hne := hall _ hmem
  rw [hbyte] at hne
  exact absurd hne (by decide)

/-! ## Calls that return -/

/-- A call with fewer strings than `ELF_MAXARGS` in which no panic stands in the way returns. It
gives the number of arguments with the image in place, or fails for a reason that is there, and then
the memory of all processes is in order as before. -/
theorem exec_answers (hw : World A g s) (ha : A p) (htrap : g.own (s.procs p).tf = .trapframe p)
    (hvec : ArgVector s (s.procs p).pgtbl argvAddr 0 strs) (hlen : strs.length < elfMaxArgs)
    (hs : Smooth lookup g s p pathAddr file) :
    ∃ d s', (sysExec p lookup pathAddr argvAddr s).1 = .ok (execAnswer d, s') ∧
      ExecOutcome A p lookup (userString s.mem (s.procs p).pgtbl pathAddr dirPathLen) file strs
        (g.free false).length
        (g.free true).length d s' := by
  obtain ⟨d, s', hrun, hd⟩ := (hs.outcome hw ha htrap (hvec.array hlen) hlen).returns
  exact ⟨d, s', sysExec_of_sysExecT hrun, hd⟩

/-- A call with one argument and a file of two segments. -/
theorem exec_answers_ascending :
    ∃ g s, World (fun p => p = 0) g s ∧ g.own (s.procs 0).tf = .trapframe 0 ∧
    ArgVector s (s.procs 0).pgtbl 0x10000 0 [[97]] ∧
    ∃ d s', (sysExec 0 (fun _ => some (fileImage ascending.file)) 0 0x10000 s).1 =
      .ok (execAnswer d, s') ∧
      ExecOutcome (fun p => p = 0) 0 (fun _ => some (fileImage ascending.file))
        (userString s.mem (s.procs 0).pgtbl 0 dirPathLen)
        ascending.file [[97]] (g.free false).length (g.free true).length d s' := by
  obtain ⟨g, s, h⟩ := exists_started oneArgument
  obtain ⟨hbelow, hacc, -, -⟩ := pair_good (x := ascending) (.inl ⟨rfl, rfl⟩) ascending_segments
  have hplanned := ascending.segments_eq (ascending.complete hacc)
  have hfew : segmentPages
    (planned ascending.file (fileElf ascending.file) (fileElf ascending.file).phnum 0) =
    2 := by decide +kernel
  have hkernel := h.kernel
  have hsmooth : Smooth (fun _ => some (fileImage ascending.file)) g s 0 0 ascending.file :=
    ⟨h.path, h.text, fun _ he => (Option.some.inj he).symm, hplanned ▸ hbelow, by rw [hfew]; omega⟩
  exact ⟨g, s, h.world, h.trap, h.oneVector,
    exec_answers h.world rfl h.trap h.oneVector (by decide) hsmooth⟩

/-- For every vector of fewer strings than `ELF_MAXARGS` allows, each shorter than a page: the call
subtracts no more from `sp` than there is, ends in no panic unless one stands in the way of its
path, its file or its tables, gives up for lack of room only if the block does not fit, returns -1
whenever it does not, and when it succeeds the block is in place. -/
theorem arguments_arrive (hw : World A g s) (ha : A p) (htrap : g.own (s.procs p).tf = .trapframe p)
    (hvec : ArgVector s (s.procs p).pgtbl argvAddr 0 strs) (hlen : strs.length < elfMaxArgs) :
    SameOutcome (sysExecT p lookup pathAddr argvAddr >>= fun r => pure (execAnswer r))
      (sysExec p lookup pathAddr argvAddr) ∧
      Sat (sysExecT p lookup pathAddr argvAddr) s (fun e => ∀ sp n, e = .drop sp n → n ≤ sp)
        (ArgsOutcome p strs) (fun _ => ¬ ∃ file, Smooth lookup g s p pathAddr file) ∧
      (¬ blockBytes strs ≤ pgSize → ∀ n s', (sysExec p lookup pathAddr argvAddr s).1 = .ok (n, s') →
        n = negOne) := by
  have hT : Sat (sysExecT p lookup pathAddr argvAddr) s (fun e => ∀ sp n, e = .drop sp n → n ≤ sp)
      (ArgsOutcome p strs) fun _ => True := by
    refine sysExecT_args hw ha htrap (hvec.array hlen) ?_ ?_ ?_ ?_ ?_
    · rintro i - sp n ⟨⟩
    · rintro i - sp n ⟨⟩
    · rintro - sp n ⟨⟩
    · rintro sp n hle sp' n' ⟨⟩
      exact hle
    · rintro e he sp n rfl
      exact he.elim
  refine ⟨sysExecT_same p lookup pathAddr argvAddr, ?_, fun hfit n s' hrun => ?_⟩
  · by_cases hs : ∃ file, Smooth lookup g s p pathAddr file
    · obtain ⟨file, hs⟩ := hs
      obtain ⟨d, s', hrun, -⟩ :=
      (hs.outcome (E := fun _ => False) hw ha htrap (hvec.array hlen) hlen).returns
      refine ⟨hT.1, ?_⟩
      rw [hrun]
      exact hT.of_ok hrun
    · exact hT.mono (fun _ _ hd => hd) fun _ _ => hs
  · have hany : Sat (sysExecT p lookup pathAddr argvAddr) s (fun _ => True)
      (ArgsOutcome p strs) fun _ => True :=
      ⟨fun _ _ => trivial, hT.2⟩
    have hsat : Sat (sysExecT p lookup pathAddr argvAddr >>= fun d =>
      pure (execAnswer d)) s (fun _ => True)
        (fun n _ => n = negOne) fun _ => True := by
      refine hany.bind fun d s' hd => (sat_pure _).mpr ?_
      cases d with
      | ok argc => exact absurd hd.2.1 hfit
      | error why => rfl
    exact ((sysExecT_same p lookup pathAddr argvAddr).sat hsat).of_ok hrun

/-- One argument, the string `a`, for a file of two segments: the call succeeds. -/
theorem arguments_arrive_one : ∃ (g : Ledger) (s : Kernel), World (fun p => p = 0) g s ∧
    g.own (s.procs 0).tf = .trapframe 0 ∧ ArgVector s (s.procs 0).pgtbl 0x10000 0 [[97]] ∧
    ∃ s', (sysExecT 0 (fun _ => some (fileImage ascending.file)) 0 0x10000 s).1 = .ok (.ok 1, s') ∧
    ArgsOutcome 0 [[97]] (.ok 1) s' := by
  obtain ⟨g, s, h⟩ := exists_started oneArgument
  have hvec := h.oneVector
  obtain ⟨hbelow, hacc, hread, hfew⟩ :=
    pair_good (x := ascending) (.inl ⟨rfl, rfl⟩) ascending_segments
  obtain ⟨s', hrun⟩ :=
    h.loads (hvec.array (by decide)) (by decide) (by decide) ⟨by decide +kernel, by decide +kernel⟩
      (ascending.complete hacc) hread
    hbelow hfew
  obtain ⟨-, harrive, -⟩ := arguments_arrive h.world rfl h.trap hvec (by decide)
  exact ⟨g, s, h.world, h.trap, hvec, s', hrun, harrive.of_ok hrun⟩

end

end WhuOs.Mem
