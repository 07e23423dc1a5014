import WhuOs.Fs.Dir

/-! # The image builder (`mkfs/mkfs.c`)

`main` writes the super block, the root directory and one file per host file into
an image of zero blocks. `none` stands for a run that does not finish: a failed
assertion, the endless loops on exhaustion, or a directory entry past the one
block `dir_buf` holds. A host file is its short name (the argument behind
`./user/_`) and its contents. `junk` are the stack bytes behind the NUL that
`strcpy` leaves in a directory entry.
-/

namespace WhuOs.Mkfs

open Bytes Bits Fs

abbrev Image := Nat → Block

def nDataBlock : Nat := 8192
def nInodeBlock : Nat := 128
def nBlock : Nat := nDataBlock + nInodeBlock + 3
def fsMagic : Nat := 0x12345678

/-- The super block `main` fills in. -/
def sb : SuperBlock where
  magic := fsMagic
  blockSize := blockSize
  inodeBitmapStart := 1
  inodeStart := 1 + 1
  dataBitmapStart := 1 + 1 + nInodeBlock
  dataStart := 1 + 1 + nInodeBlock + 1
  inodeBlocks := nInodeBlock
  dataBlocks := nDataBlock
  totalBlocks := nBlock

/-- The fields of a super block in their order in memory. -/
def sbWords (b : SuperBlock) : List Nat :=
  [b.magic, b.blockSize, b.inodeBitmapStart, b.inodeStart, b.dataBitmapStart, b.dataStart,
    b.inodeBlocks, b.dataBlocks, b.totalBlocks]

def sbBytes (b : SuperBlock) : Bytes := fun i => leBytes ((sbWords b).getD (i / 4) 0) (i % 4)

def blockWrite (img : Image) (blockNum : Nat) (buf : Bytes) : Image :=
  Function.update img blockNum buf

/-- The common scan of `block_alloc` and `inode_alloc`. -/
def bitmapAlloc (img : Image) (bitmap : Nat) : Option (Nat × Image) :=
  match scan (img bitmap) blockSize 0 with
  | some (byte, shift, bitCmp) =>
      some (byte * 8 + shift,
        blockWrite img bitmap (Function.update (img bitmap) byte (img bitmap byte ||| bitCmp)))
  | none => none

def blockAlloc (img : Image) : Option (Nat × Image) :=
  (bitmapAlloc img sb.dataBitmapStart).map fun (n, img) => (n + sb.dataStart, img)

def inodeAlloc (img : Image) : Option (Nat × Image) := bitmapAlloc img sb.inodeBitmapStart

def inodeWrite (img : Image) (inodeNum : Nat) (ip : DiskInode) : Image :=
  let b := inodeBlock sb inodeNum
  blockWrite img b (splice (img b) (inodeOffset inodeNum) ip.encode inodeDiskSize)

/-- The inode `inode_create` writes. -/
def newInode (type : UInt16) : DiskInode where
  type := type
  major := 0
  minor := 0
  nlink := 1
  size := 0
  addrs := fun _ => 0

/-- The entry bytes: the inode number, the name, its NUL and what was on the stack. -/
def rawDirent (junk : Bytes) (name : Name) (inodeNum : Nat) : Bytes := fun i =>
  if i < 2 then leBytes inodeNum i
  else if i - 2 ≤ name.length then name.getD (i - 2) 0
  else junk i

def direntCreate (junk : Bytes) (img : Image) (dirBlock offset : Nat) (name : Name)
    (inodeNum : Nat) : Option (Nat × Image) :=
  if name.length < 30 ∧ offset + direntSize ≤ blockSize then
    some (offset + direntSize,
      blockWrite img dirBlock
        (splice (img dirBlock) offset (rawDirent junk name inodeNum) direntSize))
  else none

/-- `if(*entry == 0) *entry = block_alloc();` -/
def entryAlloc (img : Image) (entry : Nat) : Option (Nat × Image) :=
  if entry = 0 then blockAlloc img else some (entry, img)

/-- Lookup or allocation below the entry value `entry`; returns the block, the entry and the
image. The copy of an index block that the recursion works on is not written back. -/
def locateBlock : Nat → Image → Nat → Nat → Nat → Option (Nat × Nat × Image)
  | 0, _, _, _, _ => none
  | fuel + 1, img, entry, bn, size => do
      let (entry, img) ← entryAlloc img entry
      if size = 1 then some (entry, entry, img)
      else
        let nextSize := size / entryPerBlock
        let (ret, _, img) ← locateBlock fuel img (word (img entry) (bn / nextSize)) (bn % nextSize)
          nextSize
        some (ret, entry, img)

/-- Run the lookup on one field of `addrs`. -/
def locateAddr (fuel : Nat) (img : Image) (ip : DiskInode) (i : Fin 13) (bn size : Nat) :
    Option (Nat × DiskInode × Image) := do
  let (ret, entry, img) ← locateBlock fuel img (ip.addrs i).toNat bn size
  some (ret, { ip with addrs := Function.update ip.addrs i (UInt32.ofNat entry) }, img)

def inodeLocateBlock (img : Image) (ip : DiskInode) (bn : Nat) :
    Option (Nat × DiskInode × Image) :=
  if h1 : bn < nAddrs1 then
    locateAddr 1 img ip ⟨bn, direct_lt h1⟩ bn 1
  else
    let bn2 := bn - nAddrs1
    if h2 : bn2 < nAddrs2 * entryPerBlock then
      locateAddr 2 img ip
        ⟨nAddrs1 + bn2 / entryPerBlock, single_lt h2⟩
        (bn2 % entryPerBlock) entryPerBlock
    else
      let bn3 := bn2 - nAddrs2 * entryPerBlock
      let size := entryPerBlock * entryPerBlock
      if h3 : bn3 < nAddrs3 * entryPerBlock * entryPerBlock then
        locateAddr 3 img ip
          ⟨nAddrs1 + nAddrs2 + bn3 / size, double_lt h3⟩
          (bn3 % size) size
      else none

/-- What the file loop carries from chunk to chunk and from file to file. -/
structure Copy where
  buf : Bytes
  bn : Nat
  inode : DiskInode
  img : Image

/-- Read the host file block by block; a short read ends the loop. -/
def copyLoop : Nat → List UInt8 → Copy → Option Copy
  | 0, _, _ => none
  | fuel + 1, host, c => do
      let readLen := min blockSize host.length
      let buf := splice c.buf 0 (bytesOf host) readLen
      let (blockNum, inode, img) ← inodeLocateBlock c.img c.inode c.bn
      let c' : Copy :=
        { buf, bn := c.bn + 1
          inode := { inode with size := inode.size + UInt32.ofNat readLen }
          img := blockWrite img blockNum buf }
      if readLen < blockSize then some c' else copyLoop fuel (host.drop blockSize) c'

/-- A host program; its short name is a C string. -/
structure HostFile where
  name : Name
  contents : List UInt8
  noNul : 0 ∉ name

theorem letter_noNul : (0 : UInt8) ∉ ([97] : Name) := by decide

/-- State of `main` between two host files. `bn` is not reset. -/
structure Build where
  buf : Bytes
  bn : Nat
  offset : Nat
  img : Image

def addFile (junk : Bytes) (rootiBlock : Nat) (m : Build) (f : HostFile) : Option Build := do
  if slash ∈ f.name then none
  let (inum, img) ← inodeAlloc m.img
  let img := inodeWrite img inum (newInode ftFile)
  let (offset, img) ← direntCreate junk img rootiBlock m.offset f.name inum
  let c ← copyLoop (f.contents.length + 1) f.contents
    { buf := m.buf, bn := m.bn, inode := newInode ftFile, img }
  some { buf := c.buf, bn := c.bn, offset, img := inodeWrite c.img inum c.inode }

def addFiles (junk : Bytes) (rootiBlock : Nat) : List HostFile → Build → Option Build
  | [], m => some m
  | f :: fs, m => do addFiles junk rootiBlock fs (← addFile junk rootiBlock m f)

/-- Everything up to the host files: super block, root inode and its first two entries. -/
def mkRoot (junk : Bytes) : Option (Nat × Nat × Build) := do
  let buf := splice (fun _ => 0) 0 (sbBytes sb) 36
  let img := blockWrite (fun _ _ => 0) 0 buf
  let (rootInum, img) ← inodeAlloc img
  let (rootiBlock, img) ← blockAlloc img
  if rootInum ≠ 0 then none
  else
    let img := inodeWrite img rootInum (newInode ftDir)
    let (offset, img) ← direntCreate junk img rootiBlock 0 dot rootInum
    let (offset, img) ← direntCreate junk img rootiBlock offset dotDot rootInum
    some (rootInum, rootiBlock, { buf, bn := 0, offset, img })

/-- `mkfs image file...`: `argc` is two more than the number of host files. -/
def main (junk : Bytes) (files : List HostFile) : Option Image := do
  let (rootInum, rootiBlock, m) ← mkRoot junk
  let m ← addFiles junk rootiBlock files m
  let rooti : DiskInode :=
    { newInode ftDir with
      addrs := Function.update (fun _ => 0) 0 (UInt32.ofNat rootiBlock)
      size := UInt32.ofNat (direntSize * (files.length + 2)) }
  some (inodeWrite m.img rootInum rooti)

end WhuOs.Mkfs

namespace WhuOs.Fs

open Prog Bytes

/-! ## Mounting (`kernel/fs/fs.c`)

The part of `fs_init` before its built-in directory test. -/

/-- The super block as `memmove` fills it from block 0. -/
def decodeSb (b : Bytes) : SuperBlock where
  magic := word b 0
  blockSize := word b 1
  inodeBitmapStart := word b 2
  inodeStart := word b 3
  dataBitmapStart := word b 4
  dataStart := word b 5
  inodeBlocks := word b 6
  dataBlocks := word b 7
  totalBlocks := word b 8

/-- Every node is inserted before `head_buf`, so the ring lists them in order. -/
def bufInit : FsM Unit :=
  modify fun s =>
    { s with
      cache :=
        { bufs := fun i => { s.cache.bufs i with blockNum := blockNumUnused, ref := 0 }
          lru := List.finRange nBlockBuf } }

def inodeInit : FsM Unit :=
  modify fun s =>
    { s with
      icache := fun i =>
        { s.icache i with inodeNum := inodeNumUnused, ref := 0, valid := false } }

def fsInit : FsM Unit := do
  bufInit
  let buf ← bufRead 0
  let data ← bufData buf
  modify fun s => { s with sb := decodeSb data }
  assert ((← state).sb.magic = Mkfs.fsMagic) .fsInitMagic
  assert ((← state).sb.blockSize = blockSize) .fsInitBlockSize
  bufRelease buf
  inodeInit

/-- The static data of the kernel before `fs_init`: zeroed memory and free locks. -/
def powerOn (disk : Nat → Block) : State where
  sb := ⟨0, 0, 0, 0, 0, 0, 0, 0, 0⟩
  disk := disk
  icache := fun _ =>
    { type := 0, major := 0, minor := 0, nlink := 0, size := 0, addrs := fun _ => 0,
      inodeNum := 0, ref := 0, valid := false }
  locks := fun _ => false
  cwd := none
  cache := { bufs := fun _ => { blockNum := 0, data := fun _ => 0, ref := 0 }, lru := [] }

/-- `s` is the state after mounting `disk`. -/
def Mounted (disk : Nat → Block) (s : State) : Prop := (fsInit (powerOn disk)).1 = .ok ((), s)

end WhuOs.Fs
