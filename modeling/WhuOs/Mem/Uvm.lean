import WhuOs.Mem.Kvm
import WhuOs.Mem.Mmap

/-! # User address spaces (`kernel/mem/uvm.c`)

The current process is an argument. A destination or source of a copy that is not
in the modelled memory (a static object, a variable on the kernel stack) is given
by its contents.
-/

namespace WhuOs.Mem

open Prog Bytes

/-! ## Copies of address spaces -/

/-- The page behind an entry of the old table, copied into the new one. -/
def copyPage (new va e : Nat) : MemM Unit := do
  let page ← pmemAlloc false
  if page = 0 then panic .nullPointer
  memmove page (pteToPa e) pgSize
  vmMappages new va page pgSize (pteFlags e)

/-- The loop of `copy_range`. -/
def copyRangeLoop (old new stop : Nat) : Nat → Nat → MemM Unit
  | 0, _ => panic .diverges
  | fuel + 1, va => do
      if va < stop then
        let pte ← vmGetpte old va false
        assert (decide (pte ≠ 0)) .copyRangeNull
        let e ← load pte
        assert (hasFlag e pteV) .copyRangeInvalid
        copyPage new va e
        copyRangeLoop old new stop fuel (u64 (va + pgSize))

def copyRange (old new start stop : Nat) : MemM Unit :=
  copyRangeLoop old new stop (vaPages + 1) start

/-- The pages of the heap that are mapped. -/
def copyHeapLoop (old new stop : Nat) : Nat → Nat → MemM Unit
  | 0, _ => panic .diverges
  | fuel + 1, va => do
      if va < stop then
        let pte ← vmGetpte old va false
        if pte ≠ 0 then
          let e ← load pte
          if hasFlag e pteV then
            copyPage new va e
        copyHeapLoop old new stop fuel (u64 (va + pgSize))

/-- The end of a region. -/
def regionEnd (x : Node) : Nat := u64 (x.begin + u32 (x.npages * pgSize))

/-- Bound on the turns of a loop over a list of nodes that ends. -/
def listFuel : Nat := nMmap * nMmap

/-- The regions of an `mmap` list. -/
def copyRegionsLoop (old new : Nat) : Nat → Option NodeId → MemM Unit
  | _, none => return ()
  | 0, some _ => panic .diverges
  | fuel + 1, some n => do
      let x ← nodeOf n
      copyRange old new x.begin (regionEnd x)
      copyRegionsLoop old new fuel (← nodeOf n).next

def uvmCopyPgtbl (old new heapTop ustackBase ustackPages : Nat) (mmap : Option NodeId) :
    MemM Unit := do
  copyRange old new 0 pgSize
  if heapTop > pgSize then
    copyHeapLoop old new (pgRoundUp heapTop) (vaPages + 1) pgSize
  if ustackPages > 0 then
    copyRange old new ustackBase (u64 (ustackBase + u32 (ustackPages * pgSize)))
  copyRegionsLoop old new listFuel mmap

/-! ## Destruction -/

/-- The entries of a table page from `i` on, `n` of them: leaves of a lowest table. -/
def destroyLeaves (pgtbl : Nat) : Nat → Nat → MemM Unit
  | 0, _ => return ()
  | n + 1, i => do
      let pte ← load (pteAt pgtbl i)
      if hasFlag pte pteV && !pteCheck pte then
        pmemFree (pteToPa pte) false
      destroyLeaves pgtbl n (i + 1)

/-- The entries of a table page from `i` on: `child` destroys what an entry refers to. -/
def destroyEntries (child : Nat → MemM Unit) (pgtbl : Nat) : Nat → Nat → MemM Unit
  | 0, _ => return ()
  | n + 1, i => do
      let pte ← load (pteAt pgtbl i)
      if hasFlag pte pteV then
        if pteCheck pte then
          child (pteToPa pte)
          pmemFree (pteToPa pte) true
      destroyEntries child pgtbl n (i + 1)

def destroyPgtbl : Nat → Nat → MemM Unit
  | 0, pgtbl => destroyLeaves pgtbl 512 0
  | level + 1, pgtbl => destroyEntries (destroyPgtbl level) pgtbl 512 0

def uvmDestroyPgtbl (pgtbl : Nat) : MemM Unit := do
  let pteTrampoline ← vmGetpte pgtbl trampolineVa false
  if pteTrampoline ≠ 0 then store pteTrampoline 0
  let pteTrapframe ← vmGetpte pgtbl trapframeVa false
  if pteTrapframe ≠ 0 then store pteTrapframe 0
  destroyPgtbl 2 pgtbl
  pmemFree pgtbl false

/-! ## Regions -/

/-- The pages of a new region. -/
def mmapLoop (pgtbl start perm : Nat) : Nat → Nat → MemM Unit
  | 0, _ => return ()
  | n + 1, i => do
      let pa ← pmemAlloc false
      assert (decide (pa ≠ 0)) .uvmMmapOom
      vmMappages pgtbl (u64 (start + u32 (i * pgSize))) pa pgSize (perm ||| pteU)
      mmapLoop pgtbl start perm n (i + 1)

def uvmMmap (p : ProcId) (start npages perm : Nat) : MemM Unit := do
  if npages = 0 then return ()
  assert (decide (start % pgSize = 0)) .uvmMmapAligned
  let node ← mmapRegionAlloc
  modifyNode node fun x => { x with begin := start, npages := npages }
  let first := (← procOf p).mmap
  modifyNode node fun x => { x with next := first }
  modifyProc p fun x => { x with mmap := some node }
  mmapLoop (← procOf p).pgtbl start perm npages 0

/-- A `next` pointer: that of the process or that of a node. -/
def setNext (p : ProcId) (prev next : Option NodeId) : MemM Unit :=
  match prev with
  | none => modifyProc p fun x => { x with mmap := next }
  | some n => modifyNode n fun x => { x with next := next }

def getNext (p : ProcId) (prev : Option NodeId) : MemM (Option NodeId) :=
  match prev with
  | none => do return (← procOf p).mmap
  | some n => do return (← nodeOf n).next

/-- The first loop of `uvm_munmap`: regions are deleted, split and trimmed. -/
def munmapLoop (p : ProcId) (start stop : Nat) : Nat → Option NodeId → Option NodeId → MemM Unit
  | _, _, none => return ()
  | 0, _, some _ => panic .diverges
  | fuel + 1, prev, some curr => do
      let x ← nodeOf curr
      let currBegin := x.begin
      let currEnd := regionEnd x
      if currEnd ≤ start ∨ currBegin ≥ stop then
        munmapLoop p start stop fuel (some curr) (← nodeOf curr).next
      else if currBegin ≥ start ∧ currEnd ≤ stop then
        setNext p prev x.next
        mmapRegionFree curr
        munmapLoop p start stop fuel prev (← getNext p prev)
      else if currBegin < start ∧ currEnd > stop then
        modifyNode curr fun x => { x with npages := u32 ((start - currBegin) / pgSize) }
        let node ← mmapRegionAlloc
        modifyNode node fun x => { x with begin := stop, npages := u32 ((currEnd - stop) / pgSize) }
        let next := (← nodeOf curr).next
        modifyNode node fun x => { x with next := next }
        modifyNode curr fun x => { x with next := some node }
        munmapLoop p start stop fuel (some node) (← nodeOf node).next
      else if currBegin < start then
        modifyNode curr fun x => { x with npages := u32 ((start - currBegin) / pgSize) }
        munmapLoop p start stop fuel (some curr) (← nodeOf curr).next
      else
        modifyNode curr fun x =>
          { x with begin := stop, npages := u32 ((currEnd - stop) / pgSize) }
        munmapLoop p start stop fuel (some curr) (← nodeOf curr).next

def mmapMerge (mmap1 mmap2 : NodeId) (keepMmap1 : Bool) : MemM Unit := do
  let x ← nodeOf mmap1
  let y ← nodeOf mmap2
  assert (decide (regionEnd x = y.begin)) .mmapMergeCheck
  if keepMmap1 then
    modifyNode mmap1 fun z => { z with npages := u32 (x.npages + y.npages) }
    mmapRegionFree mmap2
  else
    modifyNode mmap2 fun z =>
      { z with begin := sub64 y.begin (u32 (x.npages * pgSize)), npages := u32 (y.npages + x.npages) }
    mmapRegionFree mmap1

/-- The second loop of `uvm_munmap`: adjacent regions are merged. -/
def mergeLoop : Nat → Option NodeId → MemM Unit
  | _, none => return ()
  | 0, some _ => panic .diverges
  | fuel + 1, some curr => do
      let x ← nodeOf curr
      match x.next with
      | none => return ()
      | some next =>
          if regionEnd x = (← nodeOf next).begin then
            mmapMerge curr next true
            mergeLoop fuel (some curr)
          else
            mergeLoop fuel (some next)

def uvmMunmap (p : ProcId) (start npages : Nat) : MemM Unit := do
  if npages = 0 then return ()
  assert (decide (start % pgSize = 0)) .uvmMunmapAligned
  munmapLoop p start (u64 (start + u32 (npages * pgSize))) listFuel none (← procOf p).mmap
  mergeLoop listFuel (← procOf p).mmap
  vmUnmappages (← procOf p).pgtbl start (u32 (npages * pgSize)) true

/-! ## The heap -/

/-- The new pages of the heap. -/
def growLoop (pgtbl start : Nat) : Nat → Nat → MemM Unit
  | 0, _ => return ()
  | n + 1, i => do
      let pa ← pmemAlloc false
      assert (decide (pa ≠ 0)) .uvmHeapGrowOom
      clearPage pa
      vmMappages pgtbl (u64 (start + u32 (i * pgSize))) pa pgSize (pteR ||| pteW ||| pteU)
      growLoop pgtbl start n (i + 1)

def uvmHeapGrow (pgtbl heapTop len : Nat) : MemM Nat := do
  let newHeapTop := u64 (heapTop + len)
  assert (decide (newHeapTop < trapframeVa)) .uvmHeapGrowTooLarge
  let oldTopAligned := pgRoundUp heapTop
  let newTopAligned := pgRoundUp newHeapTop
  if newTopAligned > oldTopAligned then
    growLoop pgtbl oldTopAligned (u32 ((newTopAligned - oldTopAligned) / pgSize)) 0
  return newHeapTop

def uvmHeapUngrow (pgtbl heapTop len : Nat) : MemM Nat := do
  let newHeapTop := sub64 heapTop len
  assert (decide (newHeapTop ≥ pgSize)) .uvmHeapUngrow
  let newTopAligned := pgRoundUp newHeapTop
  let oldTopAligned := pgRoundUp heapTop
  if newTopAligned < oldTopAligned then
    vmUnmappages pgtbl newTopAligned (oldTopAligned - newTopAligned) true
  return newHeapTop

/-! ## Copies between the kernel and a process -/

/-- The physical address of a user address, as the three copy functions find it. -/
def userPage (pgtbl va : Nat) (null invalid : Panic) : MemM Nat := do
  let pte ← vmGetpte pgtbl va false
  assert (decide (pte ≠ 0)) null
  let e ← load pte
  assert (hasFlag e pteV) invalid
  return pteToPa e

/-- Bytes left in the page of an address, at most `len`. -/
def chunk (a len : Nat) : Nat := min (pgSize - a % pgSize) len

def copyinLoop (pgtbl : Nat) : Nat → Nat → Nat → Nat → MemM Unit
  | 0, _, _, _ => return ()
  | fuel + 1, dst, src, len => do
      if len > 0 then
        let pa ← userPage pgtbl (pgRoundDown src) .uvmCopyinNull .uvmCopyinInvalid
        let n := chunk src len
        memmove dst (pa + src % pgSize) n
        copyinLoop pgtbl fuel (u64 (dst + n)) (u64 (src + n)) (len - n)

/-- Every turn copies a byte at least. -/
def uvmCopyin (pgtbl dst src len : Nat) : MemM Unit := copyinLoop pgtbl len dst src len

/-- `uvm_copyin` into a variable on the kernel stack. -/
def copyinVarLoop (pgtbl : Nat) : Nat → Nat → Nat → MemM (List UInt8)
  | 0, _, _ => return []
  | fuel + 1, src, len => do
      if len > 0 then
        let pa ← userPage pgtbl (pgRoundDown src) .uvmCopyinNull .uvmCopyinInvalid
        let n := chunk src len
        let m := (← state).mem
        let rest ← copyinVarLoop pgtbl fuel (u64 (src + n)) (len - n)
        return (List.range n).map (fun i => m (pa + src % pgSize + i)) ++ rest
      else return []

def uvmCopyinVar (pgtbl src len : Nat) : MemM (List UInt8) := copyinVarLoop pgtbl len src len

/-- The kernel side of `uvm_copyout`. -/
inductive KernelSrc where
  | memory (a : Nat)
  | object (b : Bytes)

def KernelSrc.advance (n : Nat) : KernelSrc → KernelSrc
  | .memory a => .memory (u64 (a + n))
  | .object b => .object (window b n)

def KernelSrc.move (dst n : Nat) : KernelSrc → MemM Unit
  | .memory a => memmove dst a n
  | .object b => storeBytes dst b n

def copyoutLoop (pgtbl : Nat) : Nat → Nat → KernelSrc → Nat → MemM Unit
  | 0, _, _, _ => return ()
  | fuel + 1, dst, src, len => do
      if len > 0 then
        let pa ← userPage pgtbl (pgRoundDown dst) .uvmCopyoutNull .uvmCopyoutInvalid
        let n := chunk dst len
        src.move (pa + dst % pgSize) n
        copyoutLoop pgtbl fuel (u64 (dst + n)) (src.advance n) (len - n)

/-- Every turn copies a byte at least. -/
def uvmCopyout (pgtbl dst : Nat) (src : KernelSrc) (len : Nat) : MemM Unit :=
  copyoutLoop pgtbl len dst src len

/-- The inner loop of `uvm_copyin_str`: at most `n` bytes of one page. It returns whether the final
zero was met and how many bytes before it were copied. -/
def copyinStrPage (dst srcPtr : Nat) : Nat → Nat → MemM (Bool × Nat)
  | 0, i => return (false, i)
  | n + 1, i => do
      let b ← loadByte (srcPtr + i)
      storeByte (dst + i) b
      if b = 0 then return (true, i)
      copyinStrPage dst srcPtr n (i + 1)

/-- The outer loop; it returns whether the final zero was met and what is left of `maxlen`. -/
def copyinStrLoop (pgtbl : Nat) : Nat → Nat → Nat → Nat → MemM (Bool × Nat)
  | 0, _, _, maxlen => return (false, maxlen)
  | fuel + 1, dst, src, maxlen => do
      if maxlen > 0 then
        let pa ← userPage pgtbl (pgRoundDown src) .uvmCopyinStrNull .uvmCopyinStrInvalid
        let (found, i) ← copyinStrPage dst (pa + src % pgSize) (chunk src maxlen) 0
        if found then return (true, maxlen - i)
        copyinStrLoop pgtbl fuel (dst + i) (u64 (src + i)) (maxlen - i)
      else return (false, maxlen)

def uvmCopyinStr (pgtbl dst src maxlen : Nat) : MemM Unit := do
  let (found, left) ← copyinStrLoop pgtbl maxlen dst src maxlen
  if !found ∧ left = 0 then
    -- the source writes before the buffer here, as `maxlen` has been counted down
    storeByte (sub64 (u64 (dst + left)) 1) 0

/-- `uvm_copyin_str` into a variable on the kernel stack: the bytes up to the zero. The kernel stack
is no part of the memory here, so neither is the zero that the source stores in front of the
variable when `maxlen` bytes hold none (`uvmCopyinStr` has that store). -/
def copyinStrVarLoop (pgtbl : Nat) : Nat → Nat → Nat → MemM (List UInt8)
  | 0, _, _ => return []
  | fuel + 1, src, maxlen => do
      if maxlen > 0 then
        let pa ← userPage pgtbl (pgRoundDown src) .uvmCopyinStrNull .uvmCopyinStrInvalid
        let n := chunk src maxlen
        let m := (← state).mem
        let bytes := (List.range n).map fun i => m (pa + src % pgSize + i)
        if 0 ∈ bytes then return bytes.takeWhile (· ≠ 0)
        let rest ← copyinStrVarLoop pgtbl fuel (u64 (src + n)) (maxlen - n)
        return bytes ++ rest
      else return []

def uvmCopyinStrVar (pgtbl src maxlen : Nat) : MemM (List UInt8) :=
  copyinStrVarLoop pgtbl maxlen src maxlen

end WhuOs.Mem
