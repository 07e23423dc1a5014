import Mathlib
import WhuOs.Lib.Trace

/-! # The disk driver (`kernel/dev/virtio.c`)

Processes of a type `P` read and write buffers of a type `B` through one queue of
eight descriptors. One hart runs: a process keeps `vdisk_lock` from the acquire to
the next sleep or release, and the interrupt handler runs when the lock is free. The
device works beside them: it takes chains from the avail ring, completes them in any
order and puts them on the used ring. Indices of the rings are 16 bits wide.
-/

namespace WhuOs.Dev

/-- Wrap-around of `uint16` arithmetic. -/
def u16 (n : Nat) : Nat := n % 2 ^ 16

/-- The ring slot of an index, `idx % NUM`. -/
def slot (n : Nat) : Fin 8 := ⟨n % 8, Nat.mod_lt n (by decide)⟩

def vringDescFNext : Nat := 1
def vringDescFWrite : Nat := 2

/-- What an address in a descriptor refers to. -/
inductive Addr (B : Type) where
  | null
  /-- `buf0` with its type and its sector. -/
  | header (write : Bool) (sector : Nat)
  | data (b : B)
  | status (i : Fin 8)

structure VRingDesc (B : Type) where
  addr : Addr B
  len : Nat
  flags : Nat
  next : Nat

structure Info (B : Type) where
  b : Option B
  status : Nat

/-- `struct disk` without its lock. `usedRing` is `used->idx`, `usedElems` the ids of
`used->elems`. -/
structure Disk (B : Type) where
  desc : Fin 8 → VRingDesc B
  avail : Fin 8 → Nat
  availIdx : Nat
  usedElems : Fin 8 → Nat
  usedRing : Nat
  free : Fin 8 → Bool
  usedIdx : Nat
  info : Fin 8 → Info B

/-- The three descriptors of a request. -/
structure Idx where
  fst : Fin 8
  snd : Fin 8
  thd : Fin 8
deriving DecidableEq

def Idx.list (x : Idx) : List (Fin 8) := [x.fst, x.snd, x.thd]

/-- The places in `virtio_disk_rw`. -/
inductive Stage where
  /-- Before the lock is acquired. -/
  | enter
  | alloc
  | sleepFree
  | wokenFree
  | format (x : Idx)
  /-- Before the slot of the avail ring is written. -/
  | ring (x : Idx)
  /-- Before the index of the avail ring is advanced. -/
  | publish (x : Idx)
  | wait (x : Idx)
  | sleepBuf (x : Idx)
  | wokenBuf (x : Idx)
  /-- Before the chain is freed. -/
  | finish (x : Idx)

/-- A call of `virtio_disk_rw`. -/
structure Request (B : Type) where
  buf : B
  write : Bool
  stage : Stage

inductive Holder (P : Type) where
  | proc (p : P)
  | intr
deriving DecidableEq

/-- The device: how far it has read the avail ring, the chains it works on, and a chain whose used
element is written while the index is not yet advanced. -/
structure Device where
  lastAvail : Nat
  active : List Nat
  written : Option Nat

/-- What happened so far; it influences nothing. `finished i` says that the chain last submitted
with head `i` was completed. -/
structure History where
  submitted : List Nat
  consumed : List Nat
  completed : List Nat
  processed : List Nat
  finished : Nat → Bool

structure Sys (P B : Type) where
  disk : Disk B
  /-- `b->disk` -/
  busy : B → Bool
  lock : Option (Holder P)
  req : P → Option (Request B)
  dev : Device
  hist : History

inductive Panic where
  | virtioDiskIntr1 | virtioDiskIntr2 | virtioDiskIntrStatus
  /-- An array access outside its bounds. -/
  | outOfBounds
  | nullPointer
  /-- A loop that does not end. -/
  | diverges
deriving DecidableEq

/-- The state that `virtio_disk_init` leaves behind. -/
def Sys.init {P B : Type} : Sys P B where
  disk :=
    { desc := fun _ => ⟨.null, 0, 0, 0⟩
      avail := fun _ => 0
      availIdx := 0
      usedElems := fun _ => 0
      usedRing := 0
      free := fun _ => true
      usedIdx := 0
      info := fun _ => ⟨none, 0⟩ }
  busy := fun _ => false
  lock := none
  req := fun _ => none
  dev := { lastAvail := 0, active := [], written := none }
  hist := { submitted := [], consumed := [], completed := [], processed := [], finished := fun _ => false }

section

variable {P B : Type} [DecidableEq P] [DecidableEq B]

/-! ## The driver -/

/-- `proc_wakeup(&disk.free[0])` -/
def Request.wakeFree (r : Request B) : Request B :=
  match r.stage with
  | .sleepFree => { r with stage := .wokenFree }
  | _ => r

/-- `proc_wakeup(b)` -/
def Request.wakeBuf (b : B) (r : Request B) : Request B :=
  match r.stage with
  | .sleepBuf x => if r.buf = b then { r with stage := .wokenBuf x } else r
  | _ => r

def allocDesc (d : Disk B) : Option (Fin 8) × Disk B :=
  match (List.finRange 8).find? fun i => d.free i with
  | some i => (some i, { d with free := Function.update d.free i false })
  | none => (none, d)

def freeDesc (i : Nat) (s : Sys P B) : Except Panic (Sys P B) :=
  if h : i < 8 then
    if s.disk.free ⟨i, h⟩ then .error .virtioDiskIntr2
    else
      .ok
        { s with
          disk :=
            { s.disk with
              desc := Function.update s.disk.desc ⟨i, h⟩ { s.disk.desc ⟨i, h⟩ with addr := .null }
              free := Function.update s.disk.free ⟨i, h⟩ true }
          req := fun p => (s.req p).map Request.wakeFree }
  else .error .virtioDiskIntr1

/-- Every turn frees a descriptor, and a free one is not freed again. -/
def freeChainLoop : Nat → Nat → Sys P B → Except Panic (Sys P B)
  | 0, _, _ => .error .diverges
  | fuel + 1, i, s => do
      let s ← freeDesc i s
      let d := s.disk.desc (slot i)
      if d.flags &&& vringDescFNext ≠ 0 then freeChainLoop fuel d.next s else return s

def freeChain (i : Nat) (s : Sys P B) : Except Panic (Sys P B) := freeChainLoop 9 i s

def alloc3Desc (s : Sys P B) : Except Panic (Option Idx × Sys P B) :=
  match allocDesc s.disk with
  | (none, d) => .ok (none, { s with disk := d })
  | (some i, d) =>
    match allocDesc d with
    | (none, d) => do return (none, ← freeDesc i { s with disk := d })
    | (some j, d) =>
      match allocDesc d with
      | (none, d) => do return (none, ← freeDesc j (← freeDesc i { s with disk := d }))
      | (some k, d) => .ok (some ⟨i, j, k⟩, { s with disk := d })

/-- The descriptors of a request. -/
def formatDescs (blockNum : B → Nat) (r : Request B) (x : Idx) (d : Disk B) : Disk B :=
  let desc := Function.update d.desc x.fst
    ⟨.header r.write (blockNum r.buf * 2 % 2 ^ 32), 16, vringDescFNext, x.snd⟩
  let desc := Function.update desc x.snd
    ⟨.data r.buf, 1024, (if r.write then 0 else vringDescFWrite) ||| vringDescFNext, x.thd⟩
  let desc := Function.update desc x.thd ⟨.status x.fst, 1, vringDescFWrite, 0⟩
  { d with desc, info := Function.update d.info x.fst ⟨some r.buf, 0⟩ }

/-! ## Steps -/

def Sys.setReq (s : Sys P B) (p : P) (r : Option (Request B)) : Sys P B :=
  { s with req := Function.update s.req p r }

inductive Action (P B : Type) where
  | call (p : P) (b : B) (write : Bool)
  | acquire (p : P)
  | alloc (p : P)
  | format (p : P)
  | ring (p : P)
  | publish (p : P)
  | check (p : P)
  | finish (p : P)
  | intr
  | intrLoop
  | devConsume
  | devComplete (head : Nat)
  | devPublish

/-- `spinlock_acquire` of `virtio_disk_rw` and of `proc_sleep`. -/
def acquire (p : P) (r : Request B) (s : Sys P B) : Option (Sys P B) :=
  if s.lock = none then
    match r.stage with
    | .enter => some { s.setReq p (some { r with stage := .alloc }) with lock := some (.proc p) }
    | .wokenFree =>
        some { s.setReq p (some { r with stage := .alloc }) with lock := some (.proc p) }
    | .wokenBuf x =>
        some { s.setReq p (some { r with stage := .wait x }) with lock := some (.proc p) }
    | _ => none
  else none

/-- `alloc3_desc`, and the sleep when it fails. -/
def tryAlloc (p : P) (r : Request B) (s : Sys P B) : Except Panic (Sys P B) := do
  match ← alloc3Desc s with
  | (some x, s) => return s.setReq p (some { r with stage := .format x })
  | (none, s) => return { s.setReq p (some { r with stage := .sleepFree }) with lock := none }

def format (blockNum : B → Nat) (p : P) (r : Request B) (x : Idx) (s : Sys P B) : Sys P B :=
  { s.setReq p (some { r with stage := .ring x }) with
    disk := formatDescs blockNum r x s.disk
    busy := Function.update s.busy r.buf true }

def ring (p : P) (r : Request B) (x : Idx) (s : Sys P B) : Sys P B :=
  { s.setReq p (some { r with stage := .publish x }) with
    disk := { s.disk with avail := Function.update s.disk.avail (slot s.disk.availIdx) x.fst } }

def publish (p : P) (r : Request B) (x : Idx) (s : Sys P B) : Sys P B :=
  { s.setReq p (some { r with stage := .wait x }) with
    disk := { s.disk with availIdx := u16 (s.disk.availIdx + 1) }
    hist :=
      { s.hist with
        submitted := s.hist.submitted ++ [x.fst.val]
        finished := Function.update s.hist.finished x.fst false } }

/-- The test of the loop that waits for the interrupt, and the sleep. -/
def check (p : P) (r : Request B) (x : Idx) (s : Sys P B) : Sys P B :=
  if s.busy r.buf then { s.setReq p (some { r with stage := .sleepBuf x }) with lock := none }
  else s.setReq p (some { r with stage := .finish x })

def finish (p : P) (x : Idx) (s : Sys P B) : Except Panic (Sys P B) := do
  let d := { s.disk with info := Function.update s.disk.info x.fst { s.disk.info x.fst with b := none } }
  let s ← freeChain x.fst { s with disk := d }
  return { s.setReq p none with lock := none }

/-- One turn of the loop of `virtio_disk_intr`, or its end. -/
def intrLoop (s : Sys P B) : Except Panic (Sys P B) :=
  if s.disk.usedIdx = s.disk.usedRing then .ok { s with lock := none }
  else
    let id := s.disk.usedElems (slot s.disk.usedIdx)
    if h : id < 8 then
      if (s.disk.info ⟨id, h⟩).status ≠ 0 then .error .virtioDiskIntrStatus
      else
        match (s.disk.info ⟨id, h⟩).b with
        | none => .error .nullPointer
        | some b =>
            .ok
              { s with
                busy := Function.update s.busy b false
                req := fun p => (s.req p).map (Request.wakeBuf b)
                disk := { s.disk with usedIdx := u16 (s.disk.usedIdx + 1) }
                hist := { s.hist with processed := s.hist.processed ++ [id] } }
    else .error .outOfBounds

/-! ### The device -/

def devConsume (s : Sys P B) : Sys P B :=
  let head := s.disk.avail (slot s.dev.lastAvail)
  { s with
    dev := { s.dev with lastAvail := u16 (s.dev.lastAvail + 1), active := head :: s.dev.active }
    hist := { s.hist with consumed := s.hist.consumed ++ [head] } }

/-- A chain is done with status 0; the device writes the used element. -/
def devComplete (head : Nat) (s : Sys P B) : Sys P B :=
  { s with
    dev := { s.dev with active := s.dev.active.erase head, written := some head }
    disk :=
      { s.disk with
        usedElems := Function.update s.disk.usedElems (slot s.disk.usedRing) head
        info := Function.update s.disk.info (slot head)
          { s.disk.info (slot head) with status := 0 } }
    hist := { s.hist with finished := Function.update s.hist.finished head true } }

def devPublish (head : Nat) (s : Sys P B) : Sys P B :=
  { s with
    dev := { s.dev with written := none }
    disk := { s.disk with usedRing := u16 (s.disk.usedRing + 1) }
    hist := { s.hist with completed := s.hist.completed ++ [head] } }

/-- One step of a process, of the handler or of the device; `none` when it is not possible.
Processes call `virtio_disk_rw` on buffers that no other process uses. -/
inductive Step (blockNum : B → Nat) : Action P B → Sys P B → Except Panic (Sys P B) → Prop
  | call {s : Sys P B} {p : P} {b : B} {write : Bool} (hp : s.req p = none)
      (hb : ∀ q r, s.req q = some r → r.buf ≠ b) :
      Step blockNum (.call p b write) s (.ok (s.setReq p (some ⟨b, write, .enter⟩)))
  | acquire {s s' : Sys P B} {p : P} {r : Request B} (hp : s.req p = some r)
      (hs : WhuOs.Dev.acquire p r s = some s') : Step blockNum (.acquire p) s (.ok s')
  | alloc {s : Sys P B} {p : P} {r : Request B} (hp : s.req p = some r) (hr : r.stage = .alloc) :
      Step blockNum (.alloc p) s (tryAlloc p r s)
  | format {s : Sys P B} {p : P} {r : Request B} {x : Idx} (hp : s.req p = some r)
      (hr : r.stage = .format x) :
      Step blockNum (.format p) s (.ok (WhuOs.Dev.format blockNum p r x s))
  | ring {s : Sys P B} {p : P} {r : Request B} {x : Idx} (hp : s.req p = some r)
      (hr : r.stage = .ring x) : Step blockNum (.ring p) s (.ok (WhuOs.Dev.ring p r x s))
  | publish {s : Sys P B} {p : P} {r : Request B} {x : Idx} (hp : s.req p = some r)
      (hr : r.stage = .publish x) : Step blockNum (.publish p) s (.ok (WhuOs.Dev.publish p r x s))
  | check {s : Sys P B} {p : P} {r : Request B} {x : Idx} (hp : s.req p = some r)
      (hr : r.stage = .wait x) : Step blockNum (.check p) s (.ok (WhuOs.Dev.check p r x s))
  | finish {s : Sys P B} {p : P} {r : Request B} {x : Idx} (hp : s.req p = some r)
      (hr : r.stage = .finish x) : Step blockNum (.finish p) s (WhuOs.Dev.finish p x s)
  | intr {s : Sys P B} (hl : s.lock = none) :
      Step blockNum .intr s (.ok { s with lock := some .intr })
  | intrLoop {s : Sys P B} (hl : s.lock = some .intr) :
      Step blockNum .intrLoop s (WhuOs.Dev.intrLoop s)
  | devConsume {s : Sys P B} (hne : s.dev.lastAvail ≠ s.disk.availIdx) :
      Step blockNum .devConsume s (.ok (WhuOs.Dev.devConsume s))
  | devComplete {s : Sys P B} {head : Nat} (hmem : head ∈ s.dev.active)
      (hw : s.dev.written = none) :
      Step blockNum (.devComplete head) s (.ok (WhuOs.Dev.devComplete head s))
  | devPublish {s : Sys P B} {head : Nat} (hw : s.dev.written = some head) :
      Step blockNum .devPublish s (.ok (WhuOs.Dev.devPublish head s))

/-- The states after any number of steps. -/
inductive Reach (blockNum : B → Nat) : Sys P B → Prop
  | init : Reach blockNum Sys.init
  | step {s s' : Sys P B} {a : Action P B} (h : Reach blockNum s)
      (hs : Step blockNum a s (.ok s')) :
      Reach blockNum s'

end

end WhuOs.Dev
