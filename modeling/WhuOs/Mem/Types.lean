import WhuOs.Lib.Prog
import WhuOs.Lib.Bytes
import Mathlib.Data.Fintype.Basic
import Mathlib.Logic.Function.Basic

/-! # Data model of memory and processes

The structures of `include/mem/*.h` and `include/proc/proc.h`, the macros on
addresses and page-table entries, and the kernel state that `kernel/mem`,
`kernel/proc` and the memory system calls work on. Physical memory is one byte
region: pages, page tables, free-list nodes and trap frames are read and written
in it at their addresses, and the null pointer is address 0. Static kernel objects
(the two page pools, the `mmap` nodes, the process table) are fields of their own.
Code is sequential: a spinlock is held or free, and acquiring a held lock is the
double-acquire panic.
-/

namespace WhuOs.Mem

open Bytes

/-! ## Constants and macros -/

def pgSize : Nat := 4096
def vaMax : Nat := 2 ^ 38
def kernelBase : Nat := 0x80000000
def physTop : Nat := 0x88000000
def kernelPages : Nat := 1024
def nMmap : Nat := 256

def trampolineVa : Nat := vaMax - pgSize
def trapframeVa : Nat := trampolineVa - pgSize

/-- `KSTACK(p)` -/
def kstackVa (p : Nat) : Nat := trapframeVa - (p + 1) * 2 * pgSize

/-- Wrap-around of `uint32` arithmetic. -/
def u32 (n : Nat) : Nat := n % 2 ^ 32

/-- Wrap-around of `uint64` arithmetic. -/
def u64 (n : Nat) : Nat := n % 2 ^ 64

/-- `a - b` on `uint32` values. -/
def sub32 (a b : Nat) : Nat := u32 (a + 2 ^ 32 - b)

/-- `a - b` on `uint64` values. -/
def sub64 (a b : Nat) : Nat := u64 (a + 2 ^ 64 - b)

/-- `PG_ROUND_UP` -/
def pgRoundUp (a : Nat) : Nat := u64 (a + (pgSize - 1)) / pgSize * pgSize

/-- `PG_ROUND_DOWN` -/
def pgRoundDown (a : Nat) : Nat := a / pgSize * pgSize

/-- `VA_TO_VPN` -/
def vaToVpn (va level : Nat) : Nat := va / 2 ^ (12 + 9 * level) % 512

/-- `PA_TO_PTE` -/
def paToPte (pa : Nat) : Nat := pa / 2 ^ 12 * 2 ^ 10

/-- `PTE_TO_PA` -/
def pteToPa (pte : Nat) : Nat := u64 (pte / 2 ^ 10 * 2 ^ 12)

def pteV : Nat := 1
def pteR : Nat := 2
def pteW : Nat := 4
def pteX : Nat := 8
def pteU : Nat := 16

/-- `PTE_FLAGS` -/
def pteFlags (pte : Nat) : Nat := pte % 2 ^ 10

/-- A test of flag bits, `pte & flag`. -/
def hasFlag (pte flag : Nat) : Bool := pte &&& flag ≠ 0

/-- `PTE_CHECK`: the entry refers to a page table. -/
def pteCheck (pte : Nat) : Bool := pte &&& (pteR ||| pteW ||| pteX) = 0

/-! ## Structures -/

abbrev ProcId := Fin 64
abbrev NodeId := Fin 256

instance neZero_procs : NeZero 64 := ⟨Nat.succ_ne_zero 63⟩

instance neZero_nodes : NeZero 256 := ⟨Nat.succ_ne_zero 255⟩

/-- `alloc_region_t`; its lock is kept with the other locks. `head` is `list_head.next`. -/
structure Region where
  begin : Nat
  stop : Nat
  allocable : Nat
  head : Nat
deriving DecidableEq

/-- `mmap_region_node_t`: a region, its place in a process list (`next`) and in the warehouse
(`link`). -/
structure Node where
  begin : Nat
  npages : Nat
  next : Option NodeId
  link : Option NodeId
deriving DecidableEq

inductive ProcState where
  | unused | runnable | running | sleeping | zombie
deriving DecidableEq

/-- What processes sleep on: a process, or the address of another object. -/
inductive Chan where
  | proc (p : ProcId)
  | object (addr : Nat)
deriving DecidableEq

/-- `proc_t` without its lock, the saved context and the file-system fields. -/
structure Proc where
  pid : Nat
  state : ProcState
  parent : Option ProcId
  exitState : Nat
  sleepSpace : Option Chan
  pgtbl : Nat
  heapTop : Nat
  ustackBase : Nat
  ustackPages : Nat
  mmap : Option NodeId
  tf : Nat
  kstack : Nat
deriving DecidableEq

/-- Spinlocks; those of objects outside this part of the kernel are told apart by their
addresses. -/
inductive Lock where
  | pmem (inKernel : Bool)
  | mmapList
  | pid
  | wait
  | proc (p : ProcId)
  | object (addr : Nat)
deriving DecidableEq

/-- The kernel state. The first fields are the addresses that the linker script gives. -/
@[ext]
structure Kernel where
  allocBegin : Nat
  trampoline : Nat
  etext : Nat
  mem : Bytes
  kern : Region
  user : Region
  locks : Lock → Bool
  nodes : NodeId → Node
  kernelPgtbl : Nat
  procs : ProcId → Proc
  proczero : Option ProcId
  globalPid : Nat

/-- The state at the entry of `main`: memory as the loader left it, static objects cleared. -/
def Kernel.start (allocBegin trampoline etext : Nat) (mem : Bytes) : Kernel where
  allocBegin := allocBegin
  trampoline := trampoline
  etext := etext
  mem := mem
  kern := ⟨0, 0, 0, 0⟩
  user := ⟨0, 0, 0, 0⟩
  locks := fun _ => false
  nodes := fun _ => ⟨0, 0, none, none⟩
  kernelPgtbl := 0
  procs := fun _ => ⟨0, .unused, none, 0, none, 0, 0, 0, 0, none, 0, 0⟩
  proczero := none
  globalPid := 1

/-- Panics and failed assertions. -/
inductive Panic where
  | doubleAcquire | release
  | regionFreePage | pmemInitRange | pmemInitAligned | pmemInitSmall | pmemFree
  | vmGetpteVaMax | vmMappagesLen | vmMappagesOom
  | vmUnmappagesAligned | vmUnmappagesWalk | vmUnmappagesNotMapped | vmUnmappagesNotLeaf
  | kvmInitAlloc | kvmInitKstack
  | mmapRegionAlloc
  | copyRangeNull | copyRangeInvalid
  | mmapMergeNull | mmapMergeCheck
  | uvmMmapAligned | uvmMmapOom | uvmMunmapAligned
  | uvmHeapGrowTooLarge | uvmHeapGrowOom | uvmHeapUngrow
  | uvmCopyinNull | uvmCopyinInvalid | uvmCopyoutNull | uvmCopyoutInvalid
  | uvmCopyinStrNull | uvmCopyinStrInvalid
  | allocPid | procMakeFirstAlloc | procMakeFirstPage | procMakeFirstStack
  | procExitZero
  /-- The kernel reads or writes at address 0, which its page table does not map. -/
  | nullPointer
  /-- The kernel writes below the end of its text, which its page table maps without `PTE_W`. -/
  | storeFault
  /-- The kernel stores behind its array `ustack`; what follows is not determined. -/
  | ustackOverrun
  /-- A loop that does not end. -/
  | diverges
deriving DecidableEq

/-- Observable events. -/
inductive Event where
  /-- A page is put on a free list. -/
  | pageFreed (pa : Nat)
deriving DecidableEq

abbrev MemM (α : Type) := Prog Kernel Panic Event α

/-! ## Accesses to the state -/

open Prog

def Kernel.setMem (s : Kernel) (m : Bytes) : Kernel := { s with mem := m }

def Kernel.setLock (s : Kernel) (lk : Lock) (v : Bool) : Kernel :=
  { s with locks := Function.update s.locks lk v }

def Kernel.setProc (s : Kernel) (p : ProcId) (x : Proc) : Kernel :=
  { s with procs := Function.update s.procs p x }

def Kernel.setNode (s : Kernel) (i : NodeId) (x : Node) : Kernel :=
  { s with nodes := Function.update s.nodes i x }

/-- The pool that `in_kernel` selects. -/
def Kernel.region (s : Kernel) (inKernel : Bool) : Region := if inKernel then s.kern else s.user

def Kernel.setRegion (s : Kernel) (inKernel : Bool) (r : Region) : Kernel :=
  if inKernel then { s with kern := r } else { s with user := r }

/-- `assert` -/
def assert (c : Bool) (e : Panic) : MemM Unit := if c then pure () else panic e

def spinlockAcquire (lk : Lock) : MemM Unit := do
  if (← state).locks lk then panic .doubleAcquire
  modify fun s => s.setLock lk true

def spinlockRelease (lk : Lock) : MemM Unit := do
  if !(← state).locks lk then panic .release
  modify fun s => s.setLock lk false

/-- The 64-bit word at an address. -/
def load (a : Nat) : MemM Nat := do return getLE (← state).mem a 8

def store (a v : Nat) : MemM Unit := modify fun s => s.setMem (putLE s.mem a 8 v)

/-- Clear a page. -/
def clearPage (a : Nat) : MemM Unit :=
  modify fun s => s.setMem (splice s.mem a (fun _ => 0) pgSize)

/-- A write of `n` bytes is possible. -/
def checkStore (a n : Nat) : MemM Unit := do
  if 0 < n ∧ a < (← state).etext then panic .storeFault

def memmove (dst src n : Nat) : MemM Unit := do
  checkStore dst n
  modify fun s => s.setMem (splice s.mem dst (window s.mem src) n)

/-- The byte at an address. -/
def loadByte (a : Nat) : MemM UInt8 := do return (← state).mem a

def storeByte (a : Nat) (b : UInt8) : MemM Unit := do
  checkStore a 1
  modify fun s => s.setMem (splice s.mem a (fun _ => b) 1)

/-- Bytes from outside the modelled memory. -/
def storeBytes (a : Nat) (b : Bytes) (n : Nat) : MemM Unit := do
  checkStore a n
  modify fun s => s.setMem (splice s.mem a b n)

def procOf (p : ProcId) : MemM Proc := do return (← state).procs p

def modifyProc (p : ProcId) (f : Proc → Proc) : MemM Unit :=
  modify fun s => s.setProc p (f (s.procs p))

def nodeOf (i : NodeId) : MemM Node := do return (← state).nodes i

def modifyNode (i : NodeId) (f : Node → Node) : MemM Unit :=
  modify fun s => s.setNode i (f (s.nodes i))

/-! ## Simplification -/

section

variable (s : Kernel) (m m' : Bytes) (lk lk' : Lock) (v : Bool) (k j : Bool)
  (r : Region) (p : ProcId)
  (x : Proc) (i : NodeId) (y : Node)

@[simp] theorem setMem_mem : (s.setMem m).mem = m := rfl
@[simp] theorem setMem_locks : (s.setMem m).locks = s.locks := rfl
@[simp] theorem setMem_nodes : (s.setMem m).nodes = s.nodes := rfl
@[simp] theorem setMem_procs : (s.setMem m).procs = s.procs := rfl
@[simp] theorem setMem_region : (s.setMem m).region k = s.region k := rfl
@[simp] theorem setMem_kernelPgtbl : (s.setMem m).kernelPgtbl = s.kernelPgtbl := rfl
@[simp] theorem setMem_setMem : (s.setMem m).setMem m' = s.setMem m' := rfl
@[simp] theorem setMem_self : s.setMem s.mem = s := rfl

@[simp] theorem setLock_mem : (s.setLock lk v).mem = s.mem := rfl
@[simp] theorem setLock_locks : (s.setLock lk v).locks = Function.update s.locks lk v := rfl
@[simp] theorem setLock_nodes : (s.setLock lk v).nodes = s.nodes := rfl
@[simp] theorem setLock_procs : (s.setLock lk v).procs = s.procs := rfl
@[simp] theorem setLock_region : (s.setLock lk v).region k = s.region k := rfl
@[simp] theorem setLock_kernelPgtbl : (s.setLock lk v).kernelPgtbl = s.kernelPgtbl := rfl

@[simp] theorem setProc_mem : (s.setProc p x).mem = s.mem := rfl
@[simp] theorem setProc_locks : (s.setProc p x).locks = s.locks := rfl
@[simp] theorem setProc_nodes : (s.setProc p x).nodes = s.nodes := rfl
@[simp] theorem setProc_procs : (s.setProc p x).procs = Function.update s.procs p x := rfl
@[simp] theorem setProc_region : (s.setProc p x).region k = s.region k := rfl
@[simp] theorem setProc_kernelPgtbl : (s.setProc p x).kernelPgtbl = s.kernelPgtbl := rfl

@[simp] theorem setNode_mem : (s.setNode i y).mem = s.mem := rfl
@[simp] theorem setNode_locks : (s.setNode i y).locks = s.locks := rfl
@[simp] theorem setNode_nodes : (s.setNode i y).nodes = Function.update s.nodes i y := rfl
@[simp] theorem setNode_procs : (s.setNode i y).procs = s.procs := rfl
@[simp] theorem setNode_region : (s.setNode i y).region k = s.region k := rfl
@[simp] theorem setNode_kernelPgtbl : (s.setNode i y).kernelPgtbl = s.kernelPgtbl := rfl

@[simp] theorem setRegion_region :
    (s.setRegion k r).region j = if j = k then r else s.region j := by
  cases k <;> cases j <;> rfl
@[simp] theorem setRegion_mem : (s.setRegion k r).mem = s.mem := by cases k <;> rfl
@[simp] theorem setRegion_locks : (s.setRegion k r).locks = s.locks := by cases k <;> rfl
@[simp] theorem setRegion_nodes : (s.setRegion k r).nodes = s.nodes := by cases k <;> rfl
@[simp] theorem setRegion_procs : (s.setRegion k r).procs = s.procs := by cases k <;> rfl
@[simp] theorem setRegion_kernelPgtbl : (s.setRegion k r).kernelPgtbl = s.kernelPgtbl := by
  cases k <;> rfl

/-- A lock is given back after a change of memory or of a pool. -/
theorem setLock_setMem : (s.setLock lk v).setMem m = (s.setMem m).setLock lk v := rfl

theorem setLock_setRegion : (s.setLock lk v).setRegion k r = (s.setRegion k r).setLock lk v := by
  cases k <;> rfl

theorem setLock_setNode : (s.setLock lk v).setNode i y = (s.setNode i y).setLock lk v := rfl

variable {s lk}

theorem setLock_restore (h : s.locks lk = false) : (s.setLock lk true).setLock lk false = s := by
  unfold Kernel.setLock
  dsimp only
  rw [Function.update_idem, ← h, Function.update_eq_self]

variable {G : Event → Prop} {E : Panic → Prop} {a w : Nat} {Q : Unit → Kernel → Prop}

theorem sat_acquire (h : s.locks lk = false) :
    Sat (spinlockAcquire lk) s G Q E ↔ Q () (s.setLock lk true) := by
  unfold spinlockAcquire
  rw [sat_bind, sat_state, if_neg (by simp [h]), sat_modify]

theorem sat_release (h : s.locks lk = true) :
    Sat (spinlockRelease lk) s G Q E ↔ Q () (s.setLock lk false) := by
  unfold spinlockRelease
  rw [sat_bind, sat_state, if_neg (by simp [h]), sat_modify]

@[simp] theorem sat_load {Q : Nat → Kernel → Prop} :
    Sat (load a) s G Q E ↔ Q (getLE s.mem a 8) s := by
  simp [load]

@[simp] theorem sat_store : Sat (store a w) s G Q E ↔ Q () (s.setMem (putLE s.mem a 8 w)) := by
  simp [store]

@[simp] theorem sat_clearPage :
    Sat (clearPage a) s G Q E ↔ Q () (s.setMem (splice s.mem a (fun _ => 0) pgSize)) := by
  simp [clearPage]

theorem sat_checkStore {n : Nat} (h : s.etext ≤ a) : Sat (checkStore a n) s G Q E ↔ Q () s := by
  unfold checkStore
  rw [sat_bind, sat_state, if_neg (by omega), sat_pure]

theorem sat_checkStore_text {n : Nat} (hn : 0 < n) (h : a < s.etext) :
    Sat (checkStore a n) s G Q E ↔ E .storeFault := by
  unfold checkStore
  rw [sat_bind, sat_state, if_pos ⟨hn, h⟩, sat_panic]

theorem sat_memmove {dst src n : Nat} (h : s.etext ≤ dst) :
    Sat (memmove dst src n) s G Q E ↔ Q () (s.setMem (splice s.mem dst (window s.mem src) n)) := by
  unfold memmove
  rw [sat_bind, sat_checkStore h, sat_modify]

@[simp] theorem sat_loadByte {Q : UInt8 → Kernel → Prop} :
    Sat (loadByte a) s G Q E ↔ Q (s.mem a) s := by
  simp [loadByte]

theorem sat_storeByte {b : UInt8} (h : s.etext ≤ a) :
    Sat (storeByte a b) s G Q E ↔ Q () (s.setMem (splice s.mem a (fun _ => b) 1)) := by
  unfold storeByte
  rw [sat_bind, sat_checkStore h, sat_modify]

theorem sat_storeBytes {b : Bytes} {n : Nat} (h : s.etext ≤ a) :
    Sat (storeBytes a b n) s G Q E ↔ Q () (s.setMem (splice s.mem a b n)) := by
  unfold storeBytes
  rw [sat_bind, sat_checkStore h, sat_modify]

@[simp] theorem sat_procOf {p : ProcId} {Q : Proc → Kernel → Prop} :
    Sat (procOf p) s G Q E ↔ Q (s.procs p) s := by
  simp [procOf]

@[simp] theorem sat_modifyProc {p : ProcId} {f : Proc → Proc} :
    Sat (modifyProc p f) s G Q E ↔ Q () (s.setProc p (f (s.procs p))) := by
  simp [modifyProc]

@[simp] theorem sat_nodeOf {i : NodeId} {Q : Node → Kernel → Prop} :
    Sat (nodeOf i) s G Q E ↔ Q (s.nodes i) s := by
  simp [nodeOf]

@[simp] theorem sat_modifyNode {i : NodeId} {f : Node → Node} :
    Sat (modifyNode i f) s G Q E ↔ Q () (s.setNode i (f (s.nodes i))) := by
  simp [modifyNode]

theorem sat_assert {c : Bool} {e : Panic} (h : c = true) : Sat (assert c e) s G Q E ↔ Q () s := by
  simp [assert, h]

/-- A call that gets past an assertion. -/
theorem sat_assert_any {c : Bool} {e : Panic} (hE : E e) (hQ : c = true → Q () s) :
    Sat (assert c e) s G Q E := by
  cases c with
  | false => exact (sat_panic e).mpr hE
  | true => exact (sat_pure ()).mpr (hQ rfl)

end

end WhuOs.Mem
