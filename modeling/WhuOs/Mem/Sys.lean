import WhuOs.Mem.Proc

/-! # System calls on memory (`kernel/syscall/sysfunc.c`, `kernel/syscall/sysproc.c`)

Arguments come as parameters, -1 is `negOne`. The file system appears in `sys_exec`
through what it answers: whether the path names a file, and the bytes of each read.
-/

namespace WhuOs.Mem

open Prog Bytes

/-- The value -1 of a `uint64`. -/
def negOne : Nat := 2 ^ 64 - 1

def sysBrk (p : ProcId) (newHeapTop : Nat) : MemM Nat := do
  let x ← procOf p
  let oldHeapTop := x.heapTop
  if newHeapTop = 0 then
    return oldHeapTop
  else if newHeapTop > oldHeapTop then
    let result ← uvmHeapGrow x.pgtbl oldHeapTop (u32 (newHeapTop - oldHeapTop))
    if result = 0 then
      return negOne
    else
      modifyProc p fun x => { x with heapTop := result }
      return result
  else if newHeapTop < oldHeapTop then
    let result ← uvmHeapUngrow x.pgtbl oldHeapTop (u32 (oldHeapTop - newHeapTop))
    modifyProc p fun x => { x with heapTop := result }
    return result
  else
    return oldHeapTop

def sysMmap (p : ProcId) (start len : Nat) : MemM Nat := do
  if len % pgSize ≠ 0 then return negOne
  uvmMmap p start (len / pgSize) (pteR ||| pteW ||| pteU)
  return start

def sysMunmap (p : ProcId) (start len : Nat) : MemM Nat := do
  if len % pgSize ≠ 0 then return negOne
  uvmMunmap p start (len / pgSize)
  return 0

/-! ## `sys_exec` -/

def elfMagic : Nat := 0x464C457F
def elfProgLoad : Nat := 1
def elfMaxArgs : Nat := 32
def dirPathLen : Nat := 128

/-- What a file answers to `inode_read_data(ip, offset, len, ..)`: at most `len` bytes. -/
structure Image where
  read : Nat → Nat → List UInt8
  short : ∀ off len, (read off len).length ≤ len

/-- The bytes of a read as a region. -/
def regionOf (l : List UInt8) : Bytes := fun i => l.getD i 0

/-- `elfhdr_t` -/
structure ElfHdr where
  magic : Nat
  entry : Nat
  phoff : Nat
  phnum : Nat

def elfHdrSize : Nat := 64

def elfHdr (b : Bytes) : ElfHdr where
  magic := getLE b 0 4
  entry := getLE b 24 8
  phoff := getLE b 32 8
  phnum := getLE b 56 2

/-- `proghdr_t` -/
structure ProgHdr where
  type : Nat
  flags : Nat
  off : Nat
  vaddr : Nat
  filesz : Nat
  memsz : Nat

def progHdrSize : Nat := 56

def progHdr (b : Bytes) : ProgHdr where
  type := getLE b 0 4
  flags := getLE b 4 4
  off := getLE b 8 8
  vaddr := getLE b 16 8
  filesz := getLE b 32 8
  memsz := getLE b 40 8

def flags2perm (flags : Nat) : Nat :=
  (if hasFlag flags 1 then pteX else 0) ||| (if hasFlag flags 2 then pteW else 0) |||
    (if hasFlag flags 4 then pteR else 0)

/-- The loop of `loadseg`; it returns whether the segment was loaded. -/
def loadsegLoop (img : Image) (pgtbl va offset sz : Nat) : Nat → Nat → MemM Bool
  | 0, _ => panic .diverges
  | fuel + 1, i => do
      if i < sz then
        let pte ← vmGetpte pgtbl (u64 (va + i)) false
        if pte = 0 then return false
        let e ← load pte
        if !hasFlag e pteV then return false
        let n := if sz - i < pgSize then sz - i else pgSize
        let data := img.read (u32 (offset + i)) n
        storeBytes (pteToPa e) (regionOf data) data.length
        if data.length ≠ n then return false
        loadsegLoop img pgtbl va offset sz fuel (u32 (i + pgSize))
      else return true

def loadseg (img : Image) (pgtbl va offset sz : Nat) : MemM Bool :=
  loadsegLoop img pgtbl va offset sz (vaPages + 1) 0

/-- The pages of a segment; it returns whether there was memory for them. -/
def segmentLoop (pgtbl stop perm : Nat) : Nat → Nat → MemM Bool
  | 0, _ => panic .diverges
  | fuel + 1, va => do
      if va < stop then
        let pa ← pmemAlloc false
        if pa = 0 then return false
        clearPage pa
        vmMappages pgtbl va pa pgSize perm
        segmentLoop pgtbl stop perm fuel (u64 (va + pgSize))
      else return true

/-- The program headers from number `i` on, `n` of them. It returns `sz`, or `none` for `bad`. -/
def segmentsLoop (img : Image) (pgtbl : Nat) (elf : ElfHdr) : Nat → Nat → Nat → MemM (Option Nat)
  | 0, _, sz => return some sz
  | n + 1, i, sz => do
      let data := img.read (u32 (elf.phoff + i * progHdrSize)) progHdrSize
      if data.length ≠ progHdrSize then return none
      let ph := progHdr (regionOf data)
      if ph.type ≠ elfProgLoad then
        segmentsLoop img pgtbl elf n (i + 1) sz
      else if ph.memsz < ph.filesz then
        return none
      else if u64 (ph.vaddr + ph.memsz) < ph.vaddr then
        return none
      else if ph.vaddr % pgSize ≠ 0 then
        return none
      else
        let stop := pgRoundUp (u64 (ph.vaddr + ph.memsz))
        if !(← segmentLoop pgtbl stop (flags2perm ph.flags ||| pteU) (vaPages + 1)
            (pgRoundDown ph.vaddr)) then
          return none
        if !(← loadseg img pgtbl ph.vaddr (u32 ph.off) (u32 ph.filesz)) then
          return none
        segmentsLoop img pgtbl elf n (i + 1) stop

/-- The user stack: a guard page and the stack page. -/
def stackLoop (pgtbl sz : Nat) : Nat → Nat → MemM Bool
  | 0, _ => return true
  | n + 1, i => do
      let pa ← pmemAlloc false
      if pa = 0 then return false
      clearPage pa
      vmMappages pgtbl (u64 (sz + i * pgSize)) pa pgSize (pteW ||| pteR ||| pteU)
      stackLoop pgtbl sz n (i + 1)

/-- `strlen`; the kernel's tables end at `physTop`. -/
def strlenLoop (a : Nat) : Nat → Nat → MemM Nat
  | 0, _ => panic .nullPointer
  | fuel + 1, n => do
      if (← loadByte (a + n)) = 0 then return n
      strlenLoop a fuel (n + 1)

def strlen (a : Nat) : MemM Nat := strlenLoop a (physTop - a) 0

/-- The arguments are read from the process: one page for each. `none` when there is no page. -/
def argvLoop (p : ProcId) (argvAddr : Nat) : Nat → Nat → List Nat → MemM (Option (List Nat))
  | 0, _, argv => return some argv
  | n + 1, i, argv => do
      let word ← uvmCopyinVar (← procOf p).pgtbl (u64 (argvAddr + i * 8)) 8
      let argPtr := getLE (regionOf word) 0 8
      if argPtr = 0 then return some argv
      let page ← pmemAlloc false
      if page = 0 then return none
      uvmCopyinStr (← procOf p).pgtbl page argPtr pgSize
      argvLoop p argvAddr n (i + 1) (argv ++ [page])

/-- The argument strings, last one first, onto the stack: their addresses and `sp`. -/
def pushArgs (pgtbl stackbase : Nat) : List Nat → List Nat → Nat → MemM (Option (List Nat × Nat))
  | [], ustack, sp => return some (ustack, sp)
  | page :: rest, ustack, sp => do
      let len ← strlen page
      let sp := sub64 sp (len + 1)
      let sp := sp - sp % 16
      if sp < stackbase then return none
      uvmCopyout pgtbl sp (.memory page) (u32 (len + 1))
      pushArgs pgtbl stackbase rest (sp :: ustack) sp

/-- `pmem_free` of the argument pages. -/
def freeArgs : List Nat → MemM Unit
  | [] => return ()
  | page :: rest => do
      pmemFree page false
      freeArgs rest

/-- The label `bad`. -/
def execBad (pgtbl : Nat) (argv : List Nat) : MemM Nat := do
  if pgtbl ≠ 0 then uvmDestroyPgtbl pgtbl
  freeArgs argv
  return negOne

/-- The words of the `ustack` array. The source has room for `elfMaxArgs` of them. -/
def ustackBytes (ustack : List Nat) : Bytes := fun i => leBytes (ustack.getD (i / 8) 0) (i % 8)

/-- `sys_exec` from the program headers on, with the new table `pgtbl`. -/
def execLoad (p : ProcId) (img : Image) (elf : ElfHdr) (argv : List Nat) (pgtbl : Nat) :
    MemM Nat := do
  match ← segmentsLoop img pgtbl elf elf.phnum 0 0 with
  | none => execBad pgtbl argv
  | some sz =>
    let sz := pgRoundUp sz
    if !(← stackLoop pgtbl sz 2 0) then execBad pgtbl argv
    else
      let stackbase := u64 (sz + pgSize)
      match ← pushArgs pgtbl stackbase argv.reverse [] (u64 (sz + 2 * pgSize)) with
      | none => execBad pgtbl argv
      | some (ustack, sp) =>
        let argc := argv.length
        -- `ustack[argc] = 0`, which has no place in the array of a full vector
        assert (argc < elfMaxArgs) .ustackOverrun
        let sp := sub64 sp ((argc + 1) * 8)
        let sp := sp - sp % 16
        if sp < stackbase then execBad pgtbl argv
        else
          uvmCopyout pgtbl sp (.object (ustackBytes ustack)) ((argc + 1) * 8)
          freeArgs argv
          store ((← procOf p).tf + tfA1) sp
          let oldpgtbl := (← procOf p).pgtbl
          modifyProc p fun x =>
            { x with pgtbl := pgtbl, heapTop := sz, ustackBase := stackbase, ustackPages := 1 }
          store ((← procOf p).tf + tfEpc) elf.entry
          store ((← procOf p).tf + tfSp) sp
          uvmDestroyPgtbl oldpgtbl
          return argc

/-- `sys_exec`. `lookup` stands for `path_to_inode` and the reads of the file. -/
def sysExec (p : ProcId) (lookup : List UInt8 → Option Image) (pathAddr argvAddr : Nat) :
    MemM Nat := do
  let path ← uvmCopyinStrVar (← procOf p).pgtbl pathAddr dirPathLen
  match ← argvLoop p argvAddr elfMaxArgs 0 [] with
  | none => return negOne
  | some argv =>
    match lookup path with
    | none => execBad 0 argv
    | some img =>
      let data := img.read 0 elfHdrSize
      if data.length ≠ elfHdrSize then execBad 0 argv
      else
        let elf := elfHdr (regionOf data)
        if elf.magic ≠ elfMagic then execBad 0 argv
        else
          let pgtbl ← procPgtblInit (← procOf p).tf
          if pgtbl = 0 then execBad 0 argv
          else execLoad p img elf argv pgtbl

end WhuOs.Mem
