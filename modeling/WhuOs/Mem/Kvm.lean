import WhuOs.Mem.Pmem

/-! # Page tables (`kernel/mem/kvm.c`)

Three-level tables of 512 entries of eight bytes. A pointer to an entry is its
address, and the null pointer says that there is none.
-/

namespace WhuOs.Mem

open Prog

def uartBase : Nat := 0x10000000
def virtio0 : Nat := 0x10001000
def plicBase : Nat := 0x0c000000

/-- An empty table page, or 0. -/
def allocPgtbl : MemM Nat := do
  let p ← pmemAlloc true
  if p = 0 then return 0
  clearPage p
  return p

/-- The address of entry `i` of a table page. -/
def pteAt (pgtbl i : Nat) : Nat := pgtbl + 8 * i

/-- The loop of `vm_getpte` from a level down to level 1. -/
def getpteLoop (va : Nat) (alloc : Bool) : Nat → Nat → MemM Nat
  | 0, pgtbl => return pteAt pgtbl (vaToVpn va 0)
  | level + 1, pgtbl => do
      let pte := pteAt pgtbl (vaToVpn va (level + 1))
      let e ← load pte
      if hasFlag e pteV then
        getpteLoop va alloc level (pteToPa e)
      else if !alloc then
        return 0
      else
        let new ← allocPgtbl
        if new = 0 then return 0
        store pte (paToPte new ||| pteV)
        getpteLoop va alloc level new

def vmGetpte (pgtbl va : Nat) (alloc : Bool) : MemM Nat := do
  if va ≥ vaMax then panic .vmGetpteVaMax
  getpteLoop va alloc 2 pgtbl

/-- Bound on the turns of a loop over pages: `vm_getpte` accepts no more addresses. -/
def vaPages : Nat := vaMax / pgSize

/-- The loop of `vm_mappages`. -/
def mappagesLoop (pgtbl last perm : Nat) : Nat → Nat → Nat → MemM Unit
  | 0, _, _ => panic .diverges
  | fuel + 1, a, pa => do
      let pte ← vmGetpte pgtbl a true
      if pte = 0 then panic .vmMappagesOom
      store pte (paToPte pa ||| perm ||| pteV)
      if a = last then return ()
      mappagesLoop pgtbl last perm fuel (u64 (a + pgSize)) (u64 (pa + pgSize))

def vmMappages (pgtbl va pa len perm : Nat) : MemM Unit := do
  if len = 0 then panic .vmMappagesLen
  mappagesLoop pgtbl (pgRoundDown (sub64 (u64 (va + len)) 1)) perm (vaPages + 1) (pgRoundDown va) pa

/-- One turn of `vm_unmappages`. -/
def unmapPage (pgtbl : Nat) (freeit : Bool) (a : Nat) : MemM Unit := do
  let pte ← vmGetpte pgtbl a false
  if pte = 0 then panic .vmUnmappagesWalk
  let e ← load pte
  if !hasFlag e pteV then panic .vmUnmappagesNotMapped
  if pteFlags e = pteV then panic .vmUnmappagesNotLeaf
  if freeit then
    let pa := pteToPa e
    let start := (← state).allocBegin
    let kernEnd := start + kernelPages * pgSize
    pmemFree pa (decide (start ≤ pa ∧ pa < kernEnd))
  store pte 0

/-- The loop of `vm_unmappages`. -/
def unmappagesLoop (pgtbl stop : Nat) (freeit : Bool) : Nat → Nat → MemM Unit
  | 0, _ => panic .diverges
  | fuel + 1, a => do
      if a < stop then
        unmapPage pgtbl freeit a
        unmappagesLoop pgtbl stop freeit fuel (u64 (a + pgSize))

def vmUnmappages (pgtbl va len : Nat) (freeit : Bool) : MemM Unit := do
  if va % pgSize ≠ 0 then panic .vmUnmappagesAligned
  unmappagesLoop pgtbl (u64 (va + len)) freeit (vaPages + 1) va

/-- `kvm_init`: devices, kernel text, the rest of memory, the trampoline and one kernel stack. -/
def kvmInit : MemM Unit := do
  let kernelPgtbl ← allocPgtbl
  modify fun s => { s with kernelPgtbl := kernelPgtbl }
  if kernelPgtbl = 0 then panic .kvmInitAlloc
  let etext := (← state).etext
  vmMappages kernelPgtbl uartBase uartBase pgSize (pteR ||| pteW)
  vmMappages kernelPgtbl virtio0 virtio0 pgSize (pteR ||| pteW)
  vmMappages kernelPgtbl plicBase plicBase 0x400000 (pteR ||| pteW)
  vmMappages kernelPgtbl kernelBase kernelBase (sub64 etext kernelBase) (pteR ||| pteX)
  vmMappages kernelPgtbl etext etext (sub64 physTop etext) (pteR ||| pteW)
  vmMappages kernelPgtbl trampolineVa (← state).trampoline pgSize (pteR ||| pteX)
  let pa ← pmemAlloc true
  if pa = 0 then panic .kvmInitKstack
  vmMappages kernelPgtbl (kstackVa 0) pa pgSize (pteR ||| pteW)

end WhuOs.Mem
