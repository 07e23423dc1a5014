import WhuOs.Mem.Sys
import WhuOs.Lib.Erase

/-! # `sys_exec` with its accesses

The call of `sys_exec` once more, with an event for every access to the arrays `argv` and
`ustack`, for every subtraction from `sp`, for every page that is mapped in the new table, and
for the inode of the file, and with the place where the call gave up.
-/

namespace WhuOs.Mem

open Prog Bytes

/-- What is watched of `sys_exec`. -/
inductive ExecEvent where
  /-- `argv[i]` -/
  | argv (i : Nat)
  /-- `ustack[i]` -/
  | ustack (i : Nat)
  /-- `sp -= n` -/
  | drop (sp n : Nat)
  /-- `vm_mappages` of the new table -/
  | map (va : Nat)
  /-- `inode_lock` of the inode that `path_to_inode` returned -/
  | hold
  /-- `inode_unlock_free` -/
  | release
deriving DecidableEq

def ExecEvent.Aside : ExecEvent → Prop
  | .map _ | .hold | .release => True
  | _ => False

/-- Where `sys_exec` gives up. -/
inductive ExecStop where
  /-- No page for an argument. -/
  | page
  /-- The path names no file. -/
  | file
  /-- The file is shorter than an ELF header, or has another magic number. -/
  | header
  /-- No page for the page table. -/
  | table
  /-- A program header was refused, or a segment not loaded. -/
  | segment
  /-- No page for the user stack. -/
  | stack
  /-- An argument does not fit on the stack. -/
  | argument
  /-- The pointers to the arguments do not fit on the stack. -/
  | pointers
deriving DecidableEq

abbrev ExecM (α : Type) := Prog Kernel Panic ExecEvent α

/-- The value that the call returns. -/
def execAnswer : Except ExecStop Nat → Nat
  | .ok argc => argc
  | .error _ => negOne

def argvLoopT (p : ProcId) (argvAddr : Nat) : Nat → Nat → List Nat → ExecM (Option (List Nat))
  | 0, _, argv => return some argv
  | n + 1, i, argv => do
      let word ← mute (do uvmCopyinVar (← procOf p).pgtbl (u64 (argvAddr + i * 8)) 8)
      let argPtr := getLE (regionOf word) 0 8
      if argPtr = 0 then return some argv
      let page ← mute (pmemAlloc false)
      emitAll [.argv i, .argv i]
      if page = 0 then return none
      emit (.argv i)
      mute (do uvmCopyinStr (← procOf p).pgtbl page argPtr pgSize)
      argvLoopT p argvAddr n (i + 1) (argv ++ [page])

/-- The loop over the arguments from the last one to the first: the index is the number of those
left. -/
def pushArgsT (pgtbl stackbase : Nat) : List Nat → List Nat → Nat → ExecM (Option (List Nat × Nat))
  | [], ustack, sp => return some (ustack, sp)
  | page :: rest, ustack, sp => do
      emit (.argv rest.length)
      let len ← mute (strlen page)
      emit (.drop sp (len + 1))
      let sp := sub64 sp (len + 1)
      emit (.drop sp (sp % 16))
      let sp := sp - sp % 16
      if sp < stackbase then return none
      emitAll [.argv rest.length, .argv rest.length]
      mute (uvmCopyout pgtbl sp (.memory page) (u32 (len + 1)))
      emit (.ustack rest.length)
      pushArgsT pgtbl stackbase rest (sp :: ustack) sp

/-- `pmem_free` of the argument pages from number `i` on. -/
def freeArgsT : Nat → List Nat → ExecM Unit
  | _, [] => return ()
  | i, page :: rest => do
      emit (.argv i)
      mute (pmemFree page false)
      freeArgsT (i + 1) rest

def segmentLoopT (pgtbl stop perm : Nat) : Nat → Nat → ExecM Bool
  | 0, _ => panic .diverges
  | fuel + 1, va => do
      if va < stop then
        let pa ← mute (pmemAlloc false)
        if pa = 0 then return false
        mute (clearPage pa)
        emit (.map va)
        mute (vmMappages pgtbl va pa pgSize perm)
        segmentLoopT pgtbl stop perm fuel (u64 (va + pgSize))
      else return true

def segmentsLoopT (img : Image) (pgtbl : Nat) (elf : ElfHdr) : Nat → Nat → Nat → ExecM (Option Nat)
  | 0, _, sz => return some sz
  | n + 1, i, sz => do
      let data := img.read (u32 (elf.phoff + i * progHdrSize)) progHdrSize
      if data.length ≠ progHdrSize then return none
      let ph := progHdr (regionOf data)
      if ph.type ≠ elfProgLoad then
        segmentsLoopT img pgtbl elf n (i + 1) sz
      else if ph.memsz < ph.filesz then
        return none
      else if u64 (ph.vaddr + ph.memsz) < ph.vaddr then
        return none
      else if ph.vaddr % pgSize ≠ 0 then
        return none
      else
        let stop := pgRoundUp (u64 (ph.vaddr + ph.memsz))
        if !(← segmentLoopT pgtbl stop (flags2perm ph.flags ||| pteU) (vaPages + 1)
            (pgRoundDown ph.vaddr)) then
          return none
        if !(← mute (loadseg img pgtbl ph.vaddr (u32 ph.off) (u32 ph.filesz))) then
          return none
        segmentsLoopT img pgtbl elf n (i + 1) stop

def stackLoopT (pgtbl sz : Nat) : Nat → Nat → ExecM Bool
  | 0, _ => return true
  | n + 1, i => do
      let pa ← mute (pmemAlloc false)
      if pa = 0 then return false
      mute (clearPage pa)
      emit (.map (u64 (sz + i * pgSize)))
      mute (vmMappages pgtbl (u64 (sz + i * pgSize)) pa pgSize (pteW ||| pteR ||| pteU))
      stackLoopT pgtbl sz n (i + 1)

/-- The label `bad`; `ip` says whether the inode is held. -/
def execBadT (ip : Bool) (pgtbl : Nat) (argv : List Nat) (why : ExecStop) :
    ExecM (Except ExecStop Nat) := do
  mute do if pgtbl ≠ 0 then uvmDestroyPgtbl pgtbl
  emitAll (if ip then [.release] else [])
  freeArgsT 0 argv
  return .error why

def execCommitT (p : ProcId) (elf : ElfHdr) (argv : List Nat)
    (pgtbl sz stackbase : Nat) (ustack : List Nat)
    (sp : Nat) : ExecM (Except ExecStop Nat) := do
  let argc := argv.length
  emitAll ((List.range (argc + 1)).map .ustack)
  mute (uvmCopyout pgtbl sp (.object (ustackBytes ustack)) ((argc + 1) * 8))
  freeArgsT 0 argv
  mute do
    store ((← procOf p).tf + tfA1) sp
    let oldpgtbl := (← procOf p).pgtbl
    modifyProc p fun x =>
      { x with pgtbl := pgtbl, heapTop := sz, ustackBase := stackbase, ustackPages := 1 }
    store ((← procOf p).tf + tfEpc) elf.entry
    store ((← procOf p).tf + tfSp) sp
    uvmDestroyPgtbl oldpgtbl
  return .ok argc

def execStackT (p : ProcId) (elf : ElfHdr) (argv : List Nat) (pgtbl sz : Nat) :
    ExecM (Except ExecStop Nat) := do
  let stackbase := u64 (sz + pgSize)
  match ← pushArgsT pgtbl stackbase argv.reverse [] (u64 (sz + 2 * pgSize)) with
  | none => execBadT false pgtbl argv .argument
  | some (ustack, sp) =>
    let argc := argv.length
    emit (.ustack argc)
    mute (assert (argc < elfMaxArgs) .ustackOverrun)
    emit (.drop sp ((argc + 1) * 8))
    let sp := sub64 sp ((argc + 1) * 8)
    emit (.drop sp (sp % 16))
    let sp := sp - sp % 16
    if sp < stackbase then execBadT false pgtbl argv .pointers
    else execCommitT p elf argv pgtbl sz stackbase ustack sp

def execLoadT (p : ProcId) (img : Image) (elf : ElfHdr) (argv : List Nat) (pgtbl : Nat) :
    ExecM (Except ExecStop Nat) := do
  match ← segmentsLoopT img pgtbl elf elf.phnum 0 0 with
  | none => execBadT true pgtbl argv .segment
  | some sz =>
    emit .release
    let sz := pgRoundUp sz
    if !(← stackLoopT pgtbl sz 2 0) then execBadT false pgtbl argv .stack
    else execStackT p elf argv pgtbl sz

def execFileT (p : ProcId) (lookup : List UInt8 → Option Image)
    (path : List UInt8) (argv : List Nat) :
    ExecM (Except ExecStop Nat) := do
  match lookup path with
  | none => execBadT false 0 argv .file
  | some img =>
    emit .hold
    let data := img.read 0 elfHdrSize
    if data.length ≠ elfHdrSize then execBadT true 0 argv .header
    else
      let elf := elfHdr (regionOf data)
      if elf.magic ≠ elfMagic then execBadT true 0 argv .header
      else
        let pgtbl ← mute (do procPgtblInit (← procOf p).tf)
        if pgtbl = 0 then execBadT true 0 argv .table
        else execLoadT p img elf argv pgtbl

/-- `sys_exec` with its accesses. -/
def sysExecT (p : ProcId) (lookup : List UInt8 → Option Image) (pathAddr argvAddr : Nat) :
    ExecM (Except ExecStop Nat) := do
  let path ← mute (do uvmCopyinStrVar (← procOf p).pgtbl pathAddr dirPathLen)
  match ← argvLoopT p argvAddr elfMaxArgs 0 [] with
  | none => return .error .page
  | some argv => execFileT p lookup path argv

/-! ## The same call -/

section

variable {p : ProcId} {img : Image} {elf : ElfHdr} {argv ustack : List Nat}
  {pgtbl sz sp stackbase : Nat}

theorem argvLoopT_same (p : ProcId) (argvAddr n i : Nat) (argv : List Nat) :
    SameOutcome (argvLoopT p argvAddr n i argv) (argvLoop p argvAddr n i argv) := by
  induction n generalizing i argv with
  | zero => exact .pure _
  | succ n ih =>
      unfold argvLoopT argvLoop
      rw [← seq_assoc]
      refine (SameOutcome.mute _).bind fun word => .ite (.pure _) ?_
      refine (SameOutcome.mute _).bind fun page => .emitAll (.ite (.pure _) (.emit ?_))
      rw [← seq_assoc]
      exact (SameOutcome.mute _).bind fun _ => ih _ _

theorem pushArgsT_same (pgtbl stackbase : Nat) (pages ustack : List Nat) (sp : Nat) :
    SameOutcome (pushArgsT pgtbl stackbase pages ustack sp)
      (pushArgs pgtbl stackbase pages ustack sp) := by
  induction pages generalizing ustack sp with
  | nil => exact .pure _
  | cons page rest ih =>
      unfold pushArgsT pushArgs
      refine .emit ((SameOutcome.mute _).bind fun len =>
        .emit (.emit (.ite (.pure _) (.emitAll ?_))))
      exact (SameOutcome.mute _).bind fun _ => .emit (ih _ _)

theorem freeArgsT_same (i : Nat) (pages : List Nat) :
    SameOutcome (freeArgsT i pages) (freeArgs pages) := by
  induction pages generalizing i with
  | nil => exact .pure _
  | cons page rest ih =>
      unfold freeArgsT freeArgs
      exact .emit ((SameOutcome.mute _).bind fun _ => ih _)

theorem segmentLoopT_same (pgtbl stop perm fuel va : Nat) :
    SameOutcome (segmentLoopT pgtbl stop perm fuel va) (segmentLoop pgtbl stop perm fuel va) := by
  induction fuel generalizing va with
  | zero => exact fun _ => rfl
  | succ fuel ih =>
      unfold segmentLoopT segmentLoop
      refine .ite ((SameOutcome.mute _).bind fun pa => .ite (.pure _) ?_) (.pure _)
      exact (SameOutcome.mute _).bind fun _ => .emit ((SameOutcome.mute _).bind fun _ => ih _)

theorem segmentsLoopT_same (img : Image) (pgtbl : Nat) (elf : ElfHdr) (n i sz : Nat) :
    SameOutcome (segmentsLoopT img pgtbl elf n i sz) (segmentsLoop img pgtbl elf n i sz) := by
  induction n generalizing i sz with
  | zero => exact .pure _
  | succ n ih =>
      unfold segmentsLoopT segmentsLoop
      refine .ite (.pure _) (.ite (ih _ _) (.ite (.pure _) (.ite (.pure _) (.ite (.pure _) ?_))))
      refine (segmentLoopT_same _ _ _ _ _).bind fun _ => .ite (.pure _) ?_
      exact (SameOutcome.mute _).bind fun _ => .ite (.pure _) (ih _ _)

theorem stackLoopT_same (pgtbl sz n i : Nat) :
    SameOutcome (stackLoopT pgtbl sz n i) (stackLoop pgtbl sz n i) := by
  induction n generalizing i with
  | zero => exact .pure _
  | succ n ih =>
      unfold stackLoopT stackLoop
      refine (SameOutcome.mute _).bind fun pa => .ite (.pure _) ?_
      exact (SameOutcome.mute _).bind fun _ => .emit ((SameOutcome.mute _).bind fun _ => ih _)

theorem execBadT_same (ip : Bool) (pgtbl : Nat) (argv : List Nat) (why : ExecStop) :
    SameOutcome (execBadT ip pgtbl argv why >>= fun r => pure (execAnswer r))
      (execBad pgtbl argv) := by
  have hrest :
      SameOutcome (freeArgsT 0 argv >>= fun _ => (pure negOne : ExecM Nat))
        (freeArgs argv >>= fun _ => pure negOne) :=
    (freeArgsT_same 0 argv).bind fun _ => .pure _
  unfold execBadT execBad
  simp only [seq_assoc, ret_bind, execAnswer]
  split
  · exact (SameOutcome.mute _).bind fun _ => .emitAll hrest
  · exact .emitAll hrest

theorem execCommitT_same (p : ProcId) (elf : ElfHdr) (argv : List Nat)
    (pgtbl sz stackbase : Nat) (ustack : List Nat)
    (sp : Nat) :
    SameOutcome (execCommitT p elf argv pgtbl sz stackbase ustack sp >>= fun r =>
      pure (execAnswer r)) (do
      uvmCopyout pgtbl sp (.object (ustackBytes ustack)) ((argv.length + 1) * 8)
      freeArgs argv
      store ((← procOf p).tf + tfA1) sp
      let oldpgtbl := (← procOf p).pgtbl
      modifyProc p fun x =>
        { x with pgtbl := pgtbl, heapTop := sz, ustackBase := stackbase, ustackPages := 1 }
      store ((← procOf p).tf + tfEpc) elf.entry
      store ((← procOf p).tf + tfSp) sp
      uvmDestroyPgtbl oldpgtbl
      return argv.length) := by
  unfold execCommitT
  simp only [seq_assoc, ret_bind, execAnswer]
  refine .emitAll ((SameOutcome.mute _).bind fun _ => (freeArgsT_same 0 argv).bind fun _ => ?_)
  refine SameOutcome.trans ((SameOutcome.mute _).bind fun _ => .pure _) ?_
  simp only [seq_assoc]
  exact .refl _

theorem execStackT_same (p : ProcId) (elf : ElfHdr) (argv : List Nat) (pgtbl sz : Nat) :
    SameOutcome (execStackT p elf argv pgtbl sz >>= fun r => pure (execAnswer r)) (do
      match ← pushArgs pgtbl (u64 (sz + pgSize)) argv.reverse [] (u64 (sz + 2 * pgSize)) with
      | none => execBad pgtbl argv
      | some (ustack, sp) =>
        assert (argv.length < elfMaxArgs) .ustackOverrun
        let sp := sub64 sp ((argv.length + 1) * 8)
        let sp := sp - sp % 16
        if sp < u64 (sz + pgSize) then execBad pgtbl argv
        else
          uvmCopyout pgtbl sp (.object (ustackBytes ustack)) ((argv.length + 1) * 8)
          freeArgs argv
          store ((← procOf p).tf + tfA1) sp
          let oldpgtbl := (← procOf p).pgtbl
          modifyProc p fun x =>
            { x with pgtbl := pgtbl, heapTop := sz, ustackBase := u64 (sz + pgSize), ustackPages := 1 }
          store ((← procOf p).tf + tfEpc) elf.entry
          store ((← procOf p).tf + tfSp) sp
          uvmDestroyPgtbl oldpgtbl
          return argv.length) := by
  unfold execStackT
  rw [seq_assoc]
  refine (pushArgsT_same _ _ _ _ _).bind fun r => ?_
  cases r with
  | none => exact execBadT_same _ _ _ _
  | some x =>
      dsimp only
      simp only [seq_assoc]
      refine .emit ((SameOutcome.mute _).bind fun _ => .emit (.emit ?_))
      split
      · exact execBadT_same _ _ _ _
      · exact execCommitT_same _ _ _ _ _ _ _ _

theorem execLoadT_same (p : ProcId) (img : Image) (elf : ElfHdr) (argv : List Nat) (pgtbl : Nat) :
    SameOutcome (execLoadT p img elf argv pgtbl >>= fun r => pure (execAnswer r)) (execLoad p img elf argv pgtbl) := by
  unfold execLoadT execLoad
  rw [seq_assoc]
  refine (segmentsLoopT_same _ _ _ _ _ _).bind fun r => ?_
  cases r with
  | none => exact execBadT_same _ _ _ _
  | some sz =>
      dsimp only
      rw [seq_assoc, seq_assoc]
      refine .emit ((stackLoopT_same _ _ _ _).bind fun b => ?_)
      cases b with
      | false => exact execBadT_same _ _ _ _
      | true => exact execStackT_same _ _ _ _ _

/-- The accesses are those of `sys_exec`: the two calls return the same values in the same
states. -/
theorem sysExecT_same (p : ProcId) (lookup : List UInt8 → Option Image) (pathAddr argvAddr : Nat) :
    SameOutcome (sysExecT p lookup pathAddr argvAddr >>= fun r => pure (execAnswer r))
      (sysExec p lookup pathAddr argvAddr) := by
  unfold sysExecT sysExec
  rw [seq_assoc, ← seq_assoc (procOf p)]
  refine (SameOutcome.mute _).bind fun path => ?_
  rw [seq_assoc]
  refine (argvLoopT_same _ _ _ _ _).bind fun argv => ?_
  cases argv with
  | none => exact .pure _
  | some argv =>
      unfold execFileT
      dsimp only
      cases lookup path with
      | none => exact execBadT_same _ _ _ _
      | some img =>
          dsimp only
          rw [seq_assoc]
          refine .emit ?_
          split
          · exact execBadT_same _ _ _ _
          split
          · exact execBadT_same _ _ _ _
          rw [seq_assoc, ← seq_assoc (procOf p)]
          refine (SameOutcome.mute _).bind fun pgtbl => ?_
          split
          · exact execBadT_same _ _ _ _
          · exact execLoadT_same _ _ _ _ _

end

end WhuOs.Mem
