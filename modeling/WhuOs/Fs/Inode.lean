import WhuOs.Fs.Bitmap

/-! # Inodes and the data they manage (`kernel/fs/inode.c`)

A handle on an `icache` entry is its index. `inode_read_data` and
`inode_write_data` are modelled with a kernel buffer as the other side of the
copy; every call made by the directory layer is of that kind. Loops whose bound
is a length carry that length as fuel.
-/

namespace WhuOs.Fs

open Prog Bytes

def State.setInode (s : State) (ip : Slot) (x : Inode) : State :=
  { s with icache := Function.update s.icache ip x }

/-- The fields of `*ip`. -/
def inodeOf (ip : Slot) : FsM Inode := do return (← state).icache ip

def modifyInode (ip : Slot) (f : Inode → Inode) : FsM Unit :=
  modify fun s => s.setInode ip (f (s.icache ip))

/-! ## The inode itself -/

/-- Block and byte offset `inode_rw` computes for an inode number. -/
def inodeBlock (sb : SuperBlock) (inodeNum : Nat) : Nat := inodeNum / inodePerBlock + sb.inodeStart

def inodeOffset (inodeNum : Nat) : Nat := inodeNum % inodePerBlock * inodeDiskSize

def inodeRw (ip : Slot) (write : Bool) : FsM Unit := do
  let x ← inodeOf ip
  let buf ← bufRead (inodeBlock (← state).sb x.inodeNum)
  let offset := inodeOffset x.inodeNum
  let data ← bufData buf
  if write then
    setBufData buf (splice data offset x.toDiskInode.encode inodeDiskSize)
    bufWrite buf
  else
    modifyInode ip fun x => { x with toDiskInode := .decode data offset }
  bufRelease buf

/-- A handle on an inode number: the cached entry, or else the first unreferenced one. -/
def inodeAlloc (inodeNum : Nat) : FsM Slot := do
  spinlockAcquire .icache
  let ic := (← state).icache
  match (List.finRange nInode).find? fun i => (ic i).inodeNum = inodeNum with
  | some ip =>
      modifyInode ip fun x => { x with ref := x.ref + 1 }
      spinlockRelease .icache
      return ip
  | none =>
    match (List.finRange nInode).find? fun i => (ic i).ref = 0 with
    | none =>
        spinlockRelease .icache
        panic .inodeAllocNoInodes
    | some ip =>
        modifyInode ip fun x => { x with inodeNum := inodeNum, ref := 1, valid := false }
        spinlockRelease .icache
        return ip

def inodeCreate (type major minor : UInt16) : FsM (Option Slot) := do
  let inum ← bitmapAllocInode
  if inum = 0xFFFF then return none
  let ip ← inodeAlloc inum
  spinlockAcquire (.inode ip)
  modifyInode ip fun x =>
    { x with
      toDiskInode := { type, major, minor, nlink := 1, size := 0, addrs := fun _ => 0 }
      valid := true }
  inodeRw ip true
  spinlockRelease (.inode ip)
  return some ip

def inodeDup (ip : Slot) : FsM Slot := do
  spinlockAcquire .icache
  modifyInode ip fun x => { x with ref := x.ref + 1 }
  spinlockRelease .icache
  return ip

def inodeLock (ip : Slot) : FsM Unit := do
  spinlockAcquire (.inode ip)
  if !(← inodeOf ip).valid then
    inodeRw ip false
    modifyInode ip fun x => { x with valid := true }

def inodeUnlock (ip : Slot) : FsM Unit := spinlockRelease (.inode ip)

/-! ## Block lookup -/

/-- A pointer to a block number: a field of `ip->addrs` or a word of a buffer. -/
inductive Entry where
  | addr (ip : Slot) (i : Fin 13)
  | word (buf : BufId) (k : Nat)

def readEntry : Entry → FsM Nat
  | .addr ip i => do return ((← inodeOf ip).addrs i).toNat
  | .word buf k => do return word (← bufData buf) k

def writeEntry : Entry → Nat → FsM Unit
  | .addr ip i, v =>
      modifyInode ip fun x => { x with addrs := Function.update x.addrs i (UInt32.ofNat v) }
  | .word buf k, v => do setBufData buf (setWord (← bufData buf) k v)

/-- Recursive lookup or allocation; `fuel` bounds the index levels, of which there are
at most two. -/
def locateBlock : Nat → Entry → Nat → Nat → FsM Nat
  | 0, _, _, _ => panic .depth
  | fuel + 1, entry, bn, size => do
      let fresh := (← readEntry entry) = 0
      if fresh then
        writeEntry entry (← bitmapAllocBlock)
      if size = 1 then
        readEntry entry
      else
        let nextSize := size / entryPerBlock
        let nextBn := bn % nextSize
        let block ← readEntry entry
        let buf ← bufRead block
        if fresh then emit (.newIndex block (← bufData buf))
        let ret ← locateBlock fuel (.word buf (bn / nextSize)) nextBn nextSize
        bufRelease buf
        return ret

/-- The disk block of logical block `bn`. -/
def inodeLocateBlock (ip : Slot) (bn : Nat) : FsM Nat :=
  if h1 : bn < nAddrs1 then
    locateBlock 1 (.addr ip ⟨bn, direct_lt h1⟩) bn 1
  else
    let bn2 := bn - nAddrs1
    if h2 : bn2 < nAddrs2 * entryPerBlock then
      locateBlock 2
        (.addr ip ⟨nAddrs1 + bn2 / entryPerBlock, single_lt h2⟩)
        (bn2 % entryPerBlock) entryPerBlock
    else
      let bn3 := bn2 - nAddrs2 * entryPerBlock
      let size := entryPerBlock * entryPerBlock
      if h3 : bn3 < nAddrs3 * entryPerBlock * entryPerBlock then
        locateBlock 3
          (.addr ip ⟨nAddrs1 + nAddrs2 + bn3 / size, double_lt h3⟩)
          (bn3 % size) size
      else panic .inodeLocateBlockOverflow

/-! ## Reading and writing data -/

/-- The copy loop of `inode_read_data`; `dst` is the whole destination. -/
def readLoop (ip : Slot) : Nat → Nat → Nat → Nat → Bytes → FsM (Nat × Bytes)
  | 0, _, total, _, dst => pure (total, dst)
  | fuel + 1, offset, total, len, dst => do
      if total < len then
        let off := offset % blockSize
        let blockNum ← inodeLocateBlock ip (offset / blockSize)
        let buf ← bufRead blockNum
        let m := min (blockSize - off) (len - total)
        let dst := splice dst total (window (← bufData buf) off) m
        bufRelease buf
        readLoop ip fuel (u32 (offset + m)) (total + m) len dst
      else
        return (total, dst)

def inodeReadData (ip : Slot) (offset len : Nat) (dst : Bytes) : FsM (Nat × Bytes) := do
  let size := (← inodeOf ip).size.toNat
  if offset > size then return (0, dst)
  let len := if u32 (offset + len) > size then size - offset else len
  readLoop ip len offset 0 len dst

/-- The copy loop of `inode_write_data`; returns the final offset and the byte count. -/
def writeLoop (ip : Slot) (src : Bytes) : Nat → Nat → Nat → Nat → FsM (Nat × Nat)
  | 0, offset, total, _ => pure (offset, total)
  | fuel + 1, offset, total, len => do
      if total < len then
        let off := offset % blockSize
        let blockNum ← inodeLocateBlock ip (offset / blockSize)
        let buf ← bufRead blockNum
        let m := min (blockSize - off) (len - total)
        setBufData buf (splice (← bufData buf) off (window src total) m)
        bufWrite buf
        bufRelease buf
        writeLoop ip src fuel (u32 (offset + m)) (total + m) len
      else
        return (offset, total)

def inodeWriteData (ip : Slot) (offset len : Nat) (src : Bytes) : FsM Nat := do
  if u32 (offset + len) > inodeMaxSize then return 0
  let (offset, total) ← writeLoop ip src len offset 0 len
  if offset > (← inodeOf ip).size.toNat then
    modifyInode ip fun x => { x with size := UInt32.ofNat offset }
    inodeRw ip true
  return total

/-! ## Releasing data -/

/-- The loop over the entries of an index block, up to the first empty one. -/
def freeEntries (free : Nat → FsM Unit) (buf : BufId) : Nat → Nat → FsM Unit
  | 0, _ => pure ()
  | n + 1, k => do
      let addr := word (← bufData buf) k
      if addr = 0 then pure ()
      else
        free addr
        freeEntries free buf n (k + 1)

def dataFree : Nat → Nat → FsM Unit
  | 0, blockNum => do
      assert (blockNum ≠ 0) .dataFreeZero
      bitmapFreeBlock blockNum
  | level + 1, blockNum => do
      assert (blockNum ≠ 0) .dataFreeZero
      let buf ← bufRead blockNum
      freeEntries (dataFree level) buf entryPerBlock 0
      bufRelease buf
      bitmapFreeBlock blockNum

/-- Free one field of `addrs`, if it is set. -/
def freeAddr (ip : Slot) (level : Nat) (i : Fin 13) : FsM Unit := do
  let addr := ((← inodeOf ip).addrs i).toNat
  if addr ≠ 0 then
    if level = 0 then bitmapFreeBlock addr else dataFree level addr
    modifyInode ip fun x => { x with addrs := Function.update x.addrs i 0 }

/-- Index levels below a field of `addrs`. -/
def addrLevel (i : Fin 13) : Nat :=
  if i < nAddrs1 then 0 else if i < nAddrs1 + nAddrs2 then 1 else 2

def freeAddrs (ip : Slot) : List (Fin 13) → FsM Unit
  | [] => pure ()
  | i :: is => do
      freeAddr ip (addrLevel i) i
      freeAddrs ip is

/-- The three loops over `addrs` visit the fields in order. -/
def inodeFreeData (ip : Slot) : FsM Unit := do
  freeAddrs ip (List.finRange 13)
  modifyInode ip fun x => { x with size := 0 }

/-- The inode `n` as the disk holds it. -/
def diskInode (sb : SuperBlock) (disk : Nat → Block) (n : Nat) : DiskInode :=
  .decode (disk (inodeBlock sb n)) (inodeOffset n)

def inodeDestroy (ip : Slot) : FsM Unit := do
  let x ← inodeOf ip
  let s ← state
  emit (.destroy x.inodeNum (diskInode s.sb s.disk x.inodeNum).nlink)
  spinlockAcquire (.inode ip)
  inodeFreeData ip
  modifyInode ip fun x => { x with type := ftUnused, size := 0, nlink := 0 }
  inodeRw ip true
  spinlockRelease (.inode ip)
  bitmapFreeInode (← inodeOf ip).inodeNum
  modifyInode ip fun x => { x with inodeNum := inodeNumUnused, valid := false }

def inodeFree (ip : Slot) : FsM Unit := do
  spinlockAcquire .icache
  modifyInode ip fun x => { x with ref := x.ref - 1 }
  let x ← inodeOf ip
  if x.ref = 0 ∧ x.nlink = 0 then inodeDestroy ip
  spinlockRelease .icache

def inodeUnlockFree (ip : Slot) : FsM Unit := do
  inodeUnlock ip
  inodeFree ip

end WhuOs.Fs
