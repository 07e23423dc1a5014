import WhuOs.Fs.Dir

/-! # Open files (`kernel/fs/file.c`, `kernel/syscall/sysfile.c`)

The table of open files, the descriptors of one process and the system calls on
them. A path argument is the string `arg_str` leaves in the kernel's buffer. As
for inodes, the other side of a copy is a kernel buffer. The functions behind
`devlist` are given by the number of bytes they report.
-/

namespace WhuOs.Fs

open Prog

def nFile : Nat := 32
def filePerProc : Nat := 16
def nDev : Nat := 10

def modeCreate : UInt32 := 1
def modeRead : UInt32 := 2
def modeWrite : UInt32 := 4

def lseekSet : Int := 0
def lseekAdd : Int := 1
def lseekSub : Int := 2

/-- `(uint32)-1`. -/
def minusOne : Nat := 0xFFFFFFFF

/-- `file->type`. -/
inductive FdType where
  | unused | dir | file | device
deriving DecidableEq

/-- An entry of `ftable`. In the source `ref` has 32 bits. An entry whose count wraps to 0 counts as
free: the next `file_open` sets all its fields, and no offset is left behind from the old file. -/
structure File where
  type : FdType
  readable : Bool
  writable : Bool
  ref : Nat
  major : UInt16
  offset : Nat
  ip : Option Slot

/-- `dev_t`; a null pointer is `none`. -/
structure Dev where
  read : Option (Nat → Nat)
  write : Option (Nat → Nat)

abbrev FileId := Fin 32
abbrev Fd := Fin 16

/-- The kernel with `ftable` and the `filelist` of the running process. -/
structure FileSys where
  fs : State
  ftable : FileId → File
  lkFtable : Bool
  devlist : Fin 10 → Dev
  filelist : Fd → Option FileId

abbrev FileM (α : Type) := Prog FileSys Panic Event α

/-- A call of the file system below. -/
def onFs {α : Type} (m : FsM α) : FileM α := zoom FileSys.fs (fun fs s => { s with fs }) m

def acquireFtable : FileM Unit := do
  if (← state).lkFtable then panic .doubleAcquire
  modify fun s => { s with lkFtable := true }

def releaseFtable : FileM Unit := do
  if !(← state).lkFtable then panic .release
  modify fun s => { s with lkFtable := false }

def fileOf (f : FileId) : FileM File := do return (← state).ftable f

def modifyFile (f : FileId) (g : File → File) : FileM Unit :=
  modify fun s => { s with ftable := Function.update s.ftable f (g (s.ftable f)) }

/-- `file->ip`, dereferenced. -/
def fileIp (file : File) : FileM Slot :=
  match file.ip with
  | some ip => return ip
  | none => panic .nullPointer

/-! ## `file.c` -/

def fileInit : FileM Unit :=
  modify fun s =>
    { s with
      lkFtable := false
      ftable := fun f => { s.ftable f with ref := 0, type := .unused }
      devlist := fun _ => { read := none, write := none } }

def fileAlloc : FileM FileId := do
  acquireFtable
  let ftable := (← state).ftable
  match (List.finRange nFile).find? fun f => (ftable f).ref = 0 with
  | some f =>
      modifyFile f fun x => { x with ref := 1 }
      releaseFtable
      return f
  | none =>
      releaseFtable
      panic .fileAllocNoFree

/-- The `file->type` that `file_open` chooses. -/
def fdTypeOf (type : UInt16) : Option FdType :=
  if type = ftDir then some .dir
  else if type = ftFile then some .file
  else if type = ftDevice then some .device
  else none

def fileOpen (path : List UInt8) (openMode : UInt32) : FileM (Option FileId) := do
  let ip ← onFs <|
    if openMode &&& modeCreate ≠ 0 then pathCreateInode path ftFile 0 0 else pathToInode path
  match ip with
  | none => return none
  | some ip =>
      onFs (inodeLock ip)
      let file ← fileAlloc
      let x ← onFs (inodeOf ip)
      match fdTypeOf x.type with
      | none => panic .fileOpenUnknownType
      | some type =>
          modifyFile file fun y =>
            { y with
              type := type
              major := if type = .device then x.major else y.major
              readable := openMode &&& modeRead ≠ 0
              writable := openMode &&& modeWrite ≠ 0
              offset := 0
              ip := some ip }
          onFs (inodeUnlock ip)
          return some file

def fileClose (f : FileId) : FileM Unit := do
  acquireFtable
  if (← fileOf f).ref < 1 then panic .fileCloseRef
  modifyFile f fun x => { x with ref := x.ref - 1 }
  let x ← fileOf f
  if x.ref = 0 then
    modifyFile f fun x =>
      { x with type := .unused, readable := false, writable := false, offset := 0, ip := none }
    releaseFtable
    if x.type ≠ .unused then
      let ip ← fileIp x
      onFs (inodeFree ip)
  else releaseFtable

def fileRead (f : FileId) (len : Nat) (dst : Bytes) : FileM (Nat × Bytes) := do
  let file ← fileOf f
  if !file.readable then return (minusOne, dst)
  match file.type with
  | .device =>
      if h : file.major.toNat < nDev then
        match ((← state).devlist ⟨file.major.toNat, h⟩).read with
        | some read => return (read len, dst)
        | none => return (minusOne, dst)
      else return (minusOne, dst)
  | .file =>
      let ip ← fileIp file
      onFs (inodeLock ip)
      let (r, dst) ← onFs (inodeReadData ip file.offset len dst)
      modifyFile f fun x => { x with offset := u32 (x.offset + r) }
      onFs (inodeUnlock ip)
      return (r, dst)
  | .dir =>
      let ip ← fileIp file
      onFs (inodeLock ip)
      let (r, dst) ← onFs (dirGetEntries ip len dst)
      onFs (inodeUnlock ip)
      return (r, dst)
  | .unused => return (minusOne, dst)

def fileWrite (f : FileId) (len : Nat) (src : Bytes) : FileM Nat := do
  let file ← fileOf f
  if !file.writable then return minusOne
  match file.type with
  | .device =>
      if h : file.major.toNat < nDev then
        match ((← state).devlist ⟨file.major.toNat, h⟩).write with
        | some write => return write len
        | none => return minusOne
      else return minusOne
  | .file =>
      let ip ← fileIp file
      onFs (inodeLock ip)
      let w ← onFs (inodeWriteData ip file.offset len src)
      modifyFile f fun x => { x with offset := u32 (x.offset + w) }
      onFs (inodeUnlock ip)
      return w
  | _ => return minusOne

/-- The offset `file_lseek` computes, or `none` for unknown flags. -/
def seekOffset (old offset : Nat) (flags : Int) : Option Nat :=
  if flags = lseekSet then some offset
  else if flags = lseekAdd then some (u32 (old + offset))
  else if flags = lseekSub then some (if old < offset then 0 else old - offset)
  else none

def fileLseek (f : FileId) (offset : Nat) (flags : Int) : FileM Nat := do
  let file ← fileOf f
  if file.type ≠ .file then return minusOne
  let ip ← fileIp file
  onFs (inodeLock ip)
  match seekOffset file.offset offset flags with
  | none =>
      onFs (inodeUnlock ip)
      return minusOne
  | some newOffset =>
      if newOffset > (← onFs (inodeOf ip)).size.toNat then
        onFs (inodeUnlock ip)
        return minusOne
      modifyFile f fun x => { x with offset := newOffset }
      onFs (inodeUnlock ip)
      return 0

def fileDup (f : FileId) : FileM FileId := do
  acquireFtable
  if ¬ 0 < (← fileOf f).ref then panic .fileDupRef
  modifyFile f fun x => { x with ref := x.ref + 1 }
  releaseFtable
  return f

/-! ## `sysfile.c` -/

theorem fd_lt {fd : Int} (h : 0 ≤ fd ∧ fd < filePerProc) : fd.toNat < 16 := by
  unfold filePerProc at h
  omega

/-- The file behind a descriptor. -/
def argFd (fd : Int) : FileM (Option (Fd × FileId)) := do
  if h : 0 ≤ fd ∧ fd < filePerProc then
    let fd' : Fd := ⟨fd.toNat, fd_lt h⟩
    return ((← state).filelist fd').map fun f => (fd', f)
  else return none

def setFd (fd : Fd) (v : Option FileId) : FileM Unit :=
  modify fun s => { s with filelist := Function.update s.filelist fd v }

/-- The first free descriptor, set to `f`. -/
def fdAlloc (f : FileId) : FileM (Option Fd) := do
  let filelist := (← state).filelist
  match (List.finRange filePerProc).find? fun fd => (filelist fd).isNone with
  | some fd =>
      setFd fd (some f)
      return some fd
  | none => return none

/-- The value of a system call that returns a descriptor. -/
def fdResult : Option Fd → Int
  | some fd => fd.val
  | none => -1

def sysOpen (path : List UInt8) (openMode : UInt32) : FileM Int := do
  match ← fileOpen path openMode with
  | none => return -1
  | some f =>
      let fd ← fdAlloc f
      if fd = none then fileClose f
      return fdResult fd

def sysClose (fd : Int) : FileM Int := do
  match ← argFd fd with
  | none => return -1
  | some (fd, f) =>
      setFd fd none
      fileClose f
      return 0

def sysDup (fd : Int) : FileM Int := do
  match ← argFd fd with
  | none => return -1
  | some (_, f) =>
      let newFd ← fdAlloc f
      let _ ← fileDup f
      return fdResult newFd

def sysMkdir (path : List UInt8) : FileM Int := do
  match ← onFs (pathCreateInode path ftDir 0 0) with
  | none => return -1
  | some _ => return 0

/-- The value of a system call that returns 0 or -1. -/
def okResult (ok : Bool) : Int := if ok then 0 else -1

def sysChdir (path : List UInt8) : FileM Int := do return okResult (← onFs (dirChange path))

def sysLink (oldPath newPath : List UInt8) : FileM Int := do
  return okResult (← onFs (pathLink oldPath newPath))

def sysUnlink (path : List UInt8) : FileM Int := do return okResult (← onFs (pathUnlink path))

end WhuOs.Fs
