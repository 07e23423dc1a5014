import WhuOs.Lib.Prog
import WhuOs.Lib.Bits
import Mathlib.Data.Fintype.Basic

/-! # Data model of the file system

The in-memory and on-disk structures of `include/fs/*.h`, the panics and
assertions of `kernel/fs`, and the kernel state the file-system code works on.
The code is sequential here: a spinlock is held or free, and acquiring a held
lock is the double-acquire panic.
-/

namespace WhuOs.Fs

open Bytes

/-! ## Constants -/

def blockSize : Nat := 1024
def nBlockBuf : Nat := 64
def nInode : Nat := 32
def blockNumUnused : Nat := 0xFFFFFFFF
def inodeNumUnused : Nat := 0xFFFF
def inodeRoot : Nat := 0
def inodeDiskSize : Nat := 64
def inodePerBlock : Nat := 16
def nAddrs1 : Nat := 10
def nAddrs2 : Nat := 2
def nAddrs3 : Nat := 1
def entryPerBlock : Nat := 256
def dirNameLen : Nat := 30
def direntSize : Nat := 32

/-- The largest file `addrs` can describe; the C expression has type `unsigned long`. -/
def inodeMaxSize : Nat :=
  (nAddrs1 + nAddrs2 * entryPerBlock + nAddrs3 * entryPerBlock * entryPerBlock) * blockSize

/-! The fields of `addrs` for the direct blocks and for those behind one and two index blocks. -/

theorem direct_lt {bn : Nat} (h : bn < nAddrs1) : bn < 13 := Nat.lt_trans h (by decide)

theorem single_lt {bn : Nat} (h : bn < nAddrs2 * entryPerBlock) :
    nAddrs1 + bn / entryPerBlock < 13 := by
  unfold nAddrs1 nAddrs2 entryPerBlock at *
  omega

theorem double_lt {bn : Nat} (h : bn < nAddrs3 * entryPerBlock * entryPerBlock) :
    nAddrs1 + nAddrs2 + bn / (entryPerBlock * entryPerBlock) < 13 := by
  unfold nAddrs1 nAddrs2 nAddrs3 entryPerBlock at *
  omega

def ftUnused : UInt16 := 0
def ftDir : UInt16 := 1
def ftFile : UInt16 := 2
def ftDevice : UInt16 := 3

/-- Wrap-around of `uint32` arithmetic. -/
def u32 (n : Nat) : Nat := n % 2 ^ 32

/-! ## Structures -/

/-- One disk block; only offsets below `blockSize` are accessed. -/
abbrev Block := Bytes

structure SuperBlock where
  magic : Nat
  blockSize : Nat
  inodeBitmapStart : Nat
  inodeStart : Nat
  dataBitmapStart : Nat
  dataStart : Nat
  inodeBlocks : Nat
  dataBlocks : Nat
  totalBlocks : Nat
deriving DecidableEq

instance neZero_addrs : NeZero 13 := ⟨Nat.succ_ne_zero 12⟩

/-- The 64 bytes of an inode on disk. -/
structure DiskInode where
  type : UInt16
  major : UInt16
  minor : UInt16
  nlink : UInt16
  size : UInt32
  addrs : Fin 13 → UInt32
deriving DecidableEq

/-- An `icache` entry: the disk fields and the in-memory ones. Its lock is kept
with the other locks. The calls count `ref` without its 32 bits; `HandleRuns` has the calls
that wrap around, which are these as long as fewer than `2 ^ 32` handles are out. -/
structure Inode extends DiskInode where
  inodeNum : Nat
  ref : Nat
  valid : Bool
deriving DecidableEq

/-- A cached block. The driver's hand-shake flag is not modelled. -/
structure Buf where
  blockNum : Nat
  data : Block
  ref : Nat

abbrev BufId := Fin 64
abbrev Slot := Fin 32

instance neZero_slots : NeZero 32 := ⟨Nat.succ_ne_zero 31⟩

/-- `buf_cache` and the ring through `head_buf`, listed from `head_buf.next`. -/
structure Cache where
  bufs : BufId → Buf
  lru : List BufId

inductive Lock where
  | bufCache
  | icache
  | buf (i : BufId)
  | inode (i : Slot)
deriving DecidableEq

/-- The kernel state without the buffer cache. `cwd` is `myproc()->cwd`. -/
@[ext]
structure Core where
  sb : SuperBlock
  disk : Nat → Block
  icache : Slot → Inode
  locks : Lock → Bool
  cwd : Option Slot

structure State extends Core where
  cache : Cache

/-- Panics and failed assertions, and the accesses that leave the C semantics. -/
inductive Panic where
  | doubleAcquire | release
  /-- The double acquire of `lk_icache` or of the lock of an inode. -/
  | doubleAcquireInode
  | bufReadNoBuffers | bufWriteNotHolding | bufReleaseNotHolding
  | inodeAllocNoInodes | inodeLocateBlockOverflow | dataFreeZero
  | dirSearchEntryLock | dirSearchEntryNotDir | dirSearchEntryRead
  | dirAddEntryLock | dirAddEntryNotDir | dirAddEntryRead | dirAddEntryWrite
  | dirDeleteEntryLock | dirDeleteEntryNotDir | dirDeleteEntryRead | dirDeleteEntryWrite
  | dirGetEntriesLock | dirGetEntriesNotDir
  | pathCreateInodeDot | pathCreateInodeDotDot | pathUnlinkDeleteEntry
  | checkUnlinkSlk | checkUnlinkReadLen
  | fsInitMagic | fsInitBlockSize
  | fileAllocNoFree | fileOpenUnknownType | fileCloseRef | fileDupRef
  /-- An array access outside its bounds. -/
  | outOfBounds
  /-- A null pointer is dereferenced. -/
  | nullPointer
  /-- More recursion than the code can perform; never reached. -/
  | depth
deriving DecidableEq

/-- Observable events, recorded for statements about whole calls. -/
inductive Event where
  /-- `virtio_disk_rw` writes a block. -/
  | diskWrite (block : Nat)
  /-- `bitmap_alloc_block` finds no clear bit. -/
  | allocFail
  /-- `locate_block` descends into an index block it has just allocated, with these
  contents. -/
  | newIndex (block : Nat) (data : Block)
  /-- `inode_destroy` is called on an inode whose disk copy has this `nlink`. -/
  | destroy (inodeNum : Nat) (nlink : UInt16)

abbrev FsM (α : Type) := Prog State Panic Event α

/-- The panic of `spinlock_acquire` on a lock that is held. -/
def Lock.twice : Lock → Panic
  | .bufCache | .buf _ => .doubleAcquire
  | .icache | .inode _ => .doubleAcquireInode

/-! ## The disk inode as bytes -/

/-- The bytes `memmove` copies out of an inode. -/
def DiskInode.encode (d : DiskInode) : Bytes := fun i =>
  if i < 2 then leBytes d.type.toNat i
  else if i < 4 then leBytes d.major.toNat (i - 2)
  else if i < 6 then leBytes d.minor.toNat (i - 4)
  else if i < 8 then leBytes d.nlink.toNat (i - 6)
  else if i < 12 then leBytes d.size.toNat (i - 8)
  else if h : (i - 12) / 4 < 13 then leBytes (d.addrs ⟨(i - 12) / 4, h⟩).toNat ((i - 12) % 4)
  else 0

/-- The inode stored at offset `off` of a block. -/
def DiskInode.decode (b : Bytes) (off : Nat) : DiskInode where
  type := UInt16.ofNat (getLE b off 2)
  major := UInt16.ofNat (getLE b (off + 2) 2)
  minor := UInt16.ofNat (getLE b (off + 4) 2)
  nlink := UInt16.ofNat (getLE b (off + 6) 2)
  size := UInt32.ofNat (getLE b (off + 8) 4)
  addrs := fun i => UInt32.ofNat (getLE b (off + 12 + 4 * i) 4)

theorem DiskInode.decode_congr {b b' : Bytes} {off off' : Nat}
    (h : ∀ i < 64, b (off + i) = b' (off' + i)) : decode b off = decode b' off' := by
  have field : ∀ p n, p + n ≤ 64 → getLE b (off + p) n = getLE b' (off' + p) n := by
    intro p n hp
    apply getLE_congr
    intro i hi
    simpa [Nat.add_assoc] using h (p + i) (by omega)
  have f0 := field 0 2 (by omega)
  have fa : ∀ i : Fin 13, getLE b (off + 12 + 4 * i) 4 = getLE b' (off' + 12 + 4 * i) 4 := by
    intro i
    simpa [Nat.add_assoc] using field (12 + 4 * i) 4 (by omega)
  simp only [Nat.add_zero] at f0
  simp only [decode, f0, fa, field 2 2 (by omega), field 4 2 (by omega), field 6 2 (by omega),
    field 8 4 (by omega)]

/-- A 16-bit field survives the round trip through its two bytes. -/
theorem ofNat_getLE_uint16 (x : UInt16) : UInt16.ofNat (getLE (leBytes x.toNat) 0 2) = x := by
  rw [getLE_leBytes, Nat.pow_zero, Nat.div_one, Nat.mod_eq_of_lt (by simpa using x.toNat_lt)]
  exact UInt16.ofNat_toNat

theorem ofNat_getLE_uint32 (x : UInt32) : UInt32.ofNat (getLE (leBytes x.toNat) 0 4) = x := by
  rw [getLE_leBytes, Nat.pow_zero, Nat.div_one, Nat.mod_eq_of_lt (by simpa using x.toNat_lt)]
  exact UInt32.ofNat_toNat

theorem DiskInode.decode_encode (d : DiskInode) : decode d.encode 0 = d := by
  have field : ∀ (p n v : Nat), (∀ i < n, d.encode (p + i) = leBytes v i) →
      getLE d.encode p n = getLE (leBytes v) 0 n := by
    intro p n v h
    apply getLE_congr
    intro i hi
    rw [h i hi, Nat.zero_add]
  have f0 := field 0 2 d.type.toNat fun i hi => by
    simp [encode, show i < 2 by omega]
  have f2 := field 2 2 d.major.toNat fun i hi => by
    simp [encode, show ¬ 2 + i < 2 by omega, show 2 + i < 4 by omega]
  have f4 := field 4 2 d.minor.toNat fun i hi => by
    simp [encode, show ¬ 4 + i < 2 by omega, show ¬ 4 + i < 4 by omega, show 4 + i < 6 by omega]
  have f6 := field 6 2 d.nlink.toNat fun i hi => by
    simp [encode, show ¬ 6 + i < 2 by omega, show ¬ 6 + i < 4 by omega, show ¬ 6 + i < 6 by omega,
      show 6 + i < 8 by omega]
  have f8 := field 8 4 d.size.toNat fun i hi => by
    simp [encode, show ¬ 8 + i < 2 by omega, show ¬ 8 + i < 4 by omega, show ¬ 8 + i < 6 by omega,
      show ¬ 8 + i < 8 by omega, show 8 + i < 12 by omega]
  have fa : ∀ k : Fin 13,
    getLE d.encode (12 + 4 * k) 4 = getLE (leBytes (d.addrs k).toNat) 0 4 := by
    intro k
    apply field
    intro i hi
    have hk : (12 + 4 * k.val + i - 12) / 4 = k := by omega
    have hm : (12 + 4 * k.val + i - 12) % 4 = i := by omega
    simp only [encode, hk, hm]
    rw [if_neg (by omega), if_neg (by omega), if_neg (by omega), if_neg (by omega),
      if_neg (by omega), dif_pos k.isLt]
  simp only [decode, Nat.zero_add, f0, f2, f4, f6, f8, fa, ofNat_getLE_uint16,
    ofNat_getLE_uint32]

end WhuOs.Fs
