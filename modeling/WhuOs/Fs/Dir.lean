import WhuOs.Fs.Inode

/-! # Directories and paths (`kernel/fs/dir.c`)

A C string is the list of its bytes before the terminating NUL. A directory
entry is its 32 raw bytes: a little-endian inode number and a 30-byte name
field. The name buffer that `skip_element` fills holds at most 30 bytes; when the
path element is longer it holds the first 30 and no NUL, and `strlen` of it is
then some number not below 30, for which the list length stands.
-/

namespace WhuOs.Fs

open Prog Bytes

abbrev Name := List UInt8

def slash : UInt8 := 47
def dot : Name := [46]
def dotDot : Name := [46, 46]

/-! ## Strings (`kernel/lib/str.c`) -/

/-- The bytes of a string at its address, with the NUL behind it. -/
def bytesOf (t : Name) : Bytes := fun i => t.getD i 0

/-- `strncmp` with `n` characters left, both pointers advanced by `i`. -/
def strncmpFrom (p q : Bytes) : Nat → Nat → Int
  | 0, _ => 0
  | n + 1, i =>
      if p i ≠ 0 ∧ p i = q i then strncmpFrom p q n (i + 1)
      else (p i).toNat - (q i).toNat

def strncmp (p q : Bytes) (n : Nat) : Int := strncmpFrom p q n 0

/-- Copy a string into a field of `n` bytes, padding with NULs. -/
def strncpy (s : Bytes) (t : Name) (n : Nat) : Bytes := fun i =>
  if i < n then t.getD i 0 else s i

/-! ## Directory entries -/

def direntInum (de : Bytes) : Nat := getLE de 0 2

def direntName (de : Bytes) : Bytes := window de 2

/-- The entry as `dir_add_entry` fills it in. -/
def mkDirent (de : Bytes) (inodeNum : Nat) (name : Name) : Bytes :=
  splice (putLE de 0 2 inodeNum) 2
    (Function.update (strncpy (direntName de) name (dirNameLen - 1)) (dirNameLen - 1) 0) dirNameLen

def direntMatches (de : Bytes) (name : Name) : Bool :=
  direntName de 0 ≠ 0 && strncmp (bytesOf name) (direntName de) dirNameLen = 0

def dirSearchLoop (pip : Slot) (name : Name) : Nat → Nat → FsM Nat
  | 0, _ => pure inodeNumUnused
  | fuel + 1, offset => do
      if offset < (← inodeOf pip).size.toNat then
        let (n, de) ← inodeReadData pip offset direntSize (fun _ => 0)
        if n ≠ direntSize then panic .dirSearchEntryRead
        if direntMatches de name then return direntInum de
        dirSearchLoop pip name fuel (offset + direntSize)
      else return inodeNumUnused

/-- The inode number of a name, or `INODE_NUM_UNUSED`. -/
def dirSearchEntry (pip : Slot) (name : Name) : FsM Nat := do
  assert (← spinlockHolding (.inode pip)) .dirSearchEntryLock
  assert ((← inodeOf pip).type = ftDir) .dirSearchEntryNotDir
  dirSearchLoop pip name (← inodeOf pip).size.toNat 0

/-- The search for a free slot: the offset the loop of `dir_add_entry` stops at and the
entry it read last. -/
def dirFreeLoop (pip : Slot) : Nat → Nat → Bytes → FsM (Nat × Bytes)
  | 0, offset, de => pure (offset, de)
  | fuel + 1, offset, de => do
      if offset < blockSize then
        if offset < (← inodeOf pip).size.toNat then
          let (n, de) ← inodeReadData pip offset direntSize de
          if n ≠ direntSize then panic .dirAddEntryRead
          if direntName de 0 = 0 then return (offset, de)
          dirFreeLoop pip fuel (offset + direntSize) de
        else return (offset, de)
      else return (offset, de)

/-- Add an entry; returns its offset, or `BLOCK_SIZE` on failure. -/
def dirAddEntry (pip : Slot) (inodeNum : Nat) (name : Name) : FsM Nat := do
  assert (← spinlockHolding (.inode pip)) .dirAddEntryLock
  assert ((← inodeOf pip).type = ftDir) .dirAddEntryNotDir
  if name.length ≥ dirNameLen then return blockSize
  if (← dirSearchEntry pip name) ≠ inodeNumUnused then return blockSize
  let (offset, de) ← dirFreeLoop pip blockSize 0 (fun _ => 0)
  if offset ≥ blockSize then return blockSize
  if (← inodeWriteData pip offset direntSize (mkDirent de inodeNum name)) ≠ direntSize then
    panic .dirAddEntryWrite
  return offset

def dirDeleteLoop (pip : Slot) (name : Name) : Nat → Nat → FsM Nat
  | 0, _ => pure inodeNumUnused
  | fuel + 1, offset => do
      if offset < (← inodeOf pip).size.toNat then
        let (n, de) ← inodeReadData pip offset direntSize (fun _ => 0)
        if n ≠ direntSize then panic .dirDeleteEntryRead
        if direntMatches de name then
          if (← inodeWriteData pip offset direntSize (fun _ => 0)) ≠ direntSize then
            panic .dirDeleteEntryWrite
          return direntInum de
        dirDeleteLoop pip name fuel (offset + direntSize)
      else return inodeNumUnused

def dirDeleteEntry (pip : Slot) (name : Name) : FsM Nat := do
  assert (← spinlockHolding (.inode pip)) .dirDeleteEntryLock
  assert ((← inodeOf pip).type = ftDir) .dirDeleteEntryNotDir
  dirDeleteLoop pip name (← inodeOf pip).size.toNat 0

def dirGetLoop (pip : Slot) (len : Nat) : Nat → Nat → Nat → Bytes → FsM (Nat × Bytes)
  | 0, _, total, dst => pure (total, dst)
  | fuel + 1, offset, total, dst => do
      if offset < (← inodeOf pip).size.toNat ∧ total + direntSize ≤ len then
        let (n, de) ← inodeReadData pip offset direntSize (fun _ => 0)
        if n ≠ direntSize then return (total, dst)
        if direntName de 0 ≠ 0 then
          dirGetLoop pip len fuel (offset + direntSize) (total + direntSize)
            (splice dst total de direntSize)
        else dirGetLoop pip len fuel (offset + direntSize) total dst
      else return (total, dst)

/-- Copy the live entries to `dst`, a region of `len` bytes. -/
def dirGetEntries (pip : Slot) (len : Nat) (dst : Bytes) : FsM (Nat × Bytes) := do
  assert (← spinlockHolding (.inode pip)) .dirGetEntriesLock
  assert ((← inodeOf pip).type = ftDir) .dirGetEntriesNotDir
  dirGetLoop pip len (← inodeOf pip).size.toNat 0 0 dst

/-! ## Paths -/

/-- The rest of the path behind its first element, and the name buffer. -/
def skipElement (path : List UInt8) : Option (List UInt8 × Name) :=
  let s := path.dropWhile (· = slash)
  if s = [] then none
  else some ((s.dropWhile (· ≠ slash)).dropWhile (· = slash),
    (s.takeWhile (· ≠ slash)).take dirNameLen)

/-- The loop of `search_inode`; `fuel` bounds the number of path elements. -/
def searchLoop (findParent : Bool) : Nat → Slot → List UInt8 → FsM (Option (Slot × Name))
  | 0, _, _ => panic .depth
  | fuel + 1, ip, path =>
      match skipElement path with
      | none => do
          if findParent then
            inodeFree ip
            return none
          else return some (ip, [])
      | some (path, name) => do
          inodeLock ip
          if (← inodeOf ip).type ≠ ftDir then
            inodeUnlockFree ip
            return none
          if findParent ∧ path = [] then
            inodeUnlock ip
            return some (ip, name)
          let inum ← dirSearchEntry ip name
          if inum = inodeNumUnused then
            inodeUnlockFree ip
            return none
          inodeUnlock ip
          let next ← inodeAlloc inum
          inodeFree ip
          searchLoop findParent fuel next path

def searchInode (path : List UInt8) (findParent : Bool) : FsM (Option (Slot × Name)) := do
  let ip ←
    if path.head? = some slash then inodeAlloc inodeRoot
    else
      match (← state).cwd with
      | some cwd => inodeDup cwd
      | none => panic .nullPointer
  searchLoop findParent (path.length + 1) ip path

def pathToInode (path : List UInt8) : FsM (Option Slot) := do
  return (← searchInode path false).map Prod.fst

def pathToPinode (path : List UInt8) : FsM (Option (Slot × Name)) := searchInode path true

/-- Change `myproc()->cwd`; `true` stands for the result 0, `false` for -1. -/
def dirChange (path : List UInt8) : FsM Bool := do
  match ← pathToInode path with
  | none => return false
  | some ip =>
      inodeLock ip
      if (← inodeOf ip).type ≠ ftDir then
        inodeUnlockFree ip
        return false
      inodeUnlock ip
      match (← state).cwd with
      | some cwd => inodeFree cwd
      | none => pure ()
      modify fun s => { s with cwd := some ip }
      return true

/-- The part of `path_create_inode` behind the lookup of an existing entry. -/
def pathCreateNew (pip : Slot) (name : Name) (type major minor : UInt16) :
    FsM (Option Slot) := do
  match ← inodeCreate type major minor with
  | none =>
      inodeUnlockFree pip
      return none
  | some ip =>
      inodeLock ip
      if type = ftDir then
        modifyInode ip fun x => { x with nlink := x.nlink + 1 }
        inodeRw ip true
        if (← dirAddEntry ip (← inodeOf ip).inodeNum dot) = blockSize then
          panic .pathCreateInodeDot
        if (← dirAddEntry ip (← inodeOf pip).inodeNum dotDot) = blockSize then
          panic .pathCreateInodeDotDot
      if (← dirAddEntry pip (← inodeOf ip).inodeNum name) = blockSize then
        modifyInode ip fun x => { x with nlink := 0 }
        inodeUnlockFree ip
        inodeUnlockFree pip
        return none
      if type = ftDir then
        modifyInode pip fun x => { x with nlink := x.nlink + 1 }
        inodeRw pip true
      inodeUnlockFree pip
      inodeUnlock ip
      return some ip

def pathCreateInode (path : List UInt8) (type major minor : UInt16) : FsM (Option Slot) := do
  match ← pathToPinode path with
  | none => return none
  | some (pip, name) =>
      inodeLock pip
      let inum ← dirSearchEntry pip name
      if inum ≠ inodeNumUnused then
        inodeUnlock pip
        inodeFree pip
        return some (← inodeAlloc inum)
      pathCreateNew pip name type major minor

/-- The `bad` label of `path_link`. -/
def pathLinkBad (ip : Slot) : FsM Bool := do
  inodeLock ip
  modifyInode ip fun x => { x with nlink := x.nlink - 1 }
  inodeRw ip true
  inodeUnlockFree ip
  return false

/-- `path_link`; `true` stands for the result 0, `false` for -1. -/
def pathLink (oldPath newPath : List UInt8) : FsM Bool := do
  match ← pathToInode oldPath with
  | none => return false
  | some ip =>
      inodeLock ip
      if (← inodeOf ip).type = ftDir then
        inodeUnlockFree ip
        return false
      modifyInode ip fun x => { x with nlink := x.nlink + 1 }
      inodeRw ip true
      inodeUnlock ip
      match ← pathToPinode newPath with
      | none => pathLinkBad ip
      | some (pip, name) =>
          inodeLock pip
          if (← dirAddEntry pip (← inodeOf ip).inodeNum name) = blockSize then
            inodeUnlockFree pip
            pathLinkBad ip
          else
            inodeUnlockFree pip
            inodeFree ip
            return true

def checkUnlink (ip : Slot) : FsM Bool := do
  assert (← spinlockHolding (.inode ip)) .checkUnlinkSlk
  let (readLen, _) ← dirGetEntries ip (direntSize * 3) (fun _ => 0)
  if readLen = direntSize * 3 then return false
  else if readLen = direntSize * 2 then return true
  else panic .checkUnlinkReadLen

/-- The part of `path_unlink` behind the emptiness check. -/
def pathUnlinkEntry (pip ip : Slot) (name : Name) : FsM Bool := do
  if (← dirDeleteEntry pip name) = inodeNumUnused then panic .pathUnlinkDeleteEntry
  inodeUnlockFree pip
  modifyInode ip fun x => { x with nlink := x.nlink - 1 }
  inodeRw ip true
  inodeUnlockFree ip
  return true

/-- `path_unlink`; `true` stands for the result 0, `false` for -1. -/
def pathUnlink (path : List UInt8) : FsM Bool := do
  match ← pathToPinode path with
  | none => return false
  | some (pip, name) =>
      inodeLock pip
      if strncmp (bytesOf name) (bytesOf dot) dirNameLen = 0 ∨
          strncmp (bytesOf name) (bytesOf dotDot) dirNameLen = 0 then
        inodeUnlockFree pip
        return false
      let inum ← dirSearchEntry pip name
      if inum = inodeNumUnused then
        inodeUnlockFree pip
        return false
      let ip ← inodeAlloc inum
      inodeLock ip
      if (← inodeOf ip).type = ftDir then
        if !(← checkUnlink ip) then
          inodeUnlockFree ip
          inodeUnlockFree pip
          return false
        modifyInode pip fun x => { x with nlink := x.nlink - 1 }
        inodeRw pip true
        pathUnlinkEntry pip ip name
      else pathUnlinkEntry pip ip name

end WhuOs.Fs
