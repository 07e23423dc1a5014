import WhuOs.Fs.Primitives

/-! # Sleeping with locks held

Processes on one CPU. A process runs until it sleeps in `virtio_disk_rw`, either
for descriptors or for its request, and keeps the buffer and inode locks it has
taken meanwhile; the other processes run then, and the disk completes requests in
any order. The locks are spinlocks that record only the CPU, so meeting a lock of
a sleeping process is a double acquire.
-/

namespace WhuOs.Fs

open Prog

/-! ## The code up to the disk -/

/-- `buf_read` up to the disk access: the locked buffer, and whether it must be read. -/
def bufGet (blockNum : Nat) : FsM (BufId × Bool) := do
  spinlockAcquire .bufCache
  let c := (← state).cache
  match c.lru.find? fun i => (c.bufs i).blockNum = blockNum with
  | some i =>
      modifyBuf i fun b => { b with ref := b.ref + 1 }
      spinlockRelease .bufCache
      spinlockAcquire (.buf i)
      return (i, false)
  | none =>
    match c.lru.reverse.find? fun i => (c.bufs i).ref = 0 with
    | some i =>
        modifyBuf i fun b => { b with blockNum := blockNum, ref := 1 }
        spinlockRelease .bufCache
        spinlockAcquire (.buf i)
        return (i, true)
    | none =>
        spinlockRelease .bufCache
        panic .bufReadNoBuffers

/-- `inode_lock` behind the disk access: the rest of `inode_rw`, and `valid`. -/
def inodeLoad (ip : Slot) (buf : BufId) : FsM Unit := do
  let x ← inodeOf ip
  let data ← bufData buf
  modifyInode ip fun x' => { x' with toDiskInode := .decode data (inodeOffset x.inodeNum) }
  bufRelease buf
  modifyInode ip fun x => { x with valid := true }

/-- Without other processes the disk access follows at once. -/
theorem bufRead_eq_bufGet (b : Nat) : bufRead b = (do
    let (i, miss) ← bufGet b
    if miss then virtioDiskRw i false
    return i) := by
  unfold bufRead bufGet
  simp only [Prog.seq_assoc]
  congr 1
  funext _
  congr 1
  funext s
  cases s.cache.lru.find? fun i => (s.cache.bufs i).blockNum = b with
  | some i => simp only [Prog.seq_assoc, ret_bind, Bool.false_eq_true, if_false]
  | none =>
      dsimp only
      cases s.cache.lru.reverse.find? fun i => (s.cache.bufs i).ref = 0 with
      | some i => simp only [Prog.seq_assoc, ret_bind, if_true]
      | none =>
          simp only [Prog.seq_assoc]
          congr 1

/-! ## Processes -/

/-- The `sleep_space` of `virtio_disk_rw`: `&disk.free[0]` or the buffer. -/
inductive Chan where
  | descs
  | buf (i : BufId)
deriving DecidableEq

/-- The call in which a process reads the disk. -/
inductive Task where
  | bufRead
  | inodeLock (ip : Slot)
deriving DecidableEq

/-- A process is outside the file system, or in `proc_sleep` below a call that reads a
buffer; `runnable` once it was woken up. -/
inductive ProcState where
  | idle
  | asleep (task : Task) (buf : BufId) (chan : Chan) (runnable : Bool)
deriving DecidableEq

/-- `n` processes over the file system. `descs` counts the free descriptors of the disk queue,
`onDisk` is `buf->disk`. The owners are those of the buffer and inode locks. -/
structure Sys (n : Nat) where
  fs : State
  vdiskLock : Bool
  procLocks : Fin n → Bool
  procs : Fin n → ProcState
  descs : Nat
  onDisk : BufId → Bool
  bufOwner : BufId → Option (Fin n)
  inodeOwner : Slot → Option (Fin n)

abbrev SysM (n : Nat) (α : Type) := Prog (Sys n) Panic Event α

namespace Sys

variable {n : Nat} {α : Type}

def onFs (m : FsM α) : SysM n α := zoom Sys.fs (fun fs s => { s with fs }) m

def acquireVdisk : SysM n Unit := do
  if (← state).vdiskLock then panic .doubleAcquire
  modify fun s => { s with vdiskLock := true }

def releaseVdisk : SysM n Unit := do
  if !(← state).vdiskLock then panic .release
  modify fun s => { s with vdiskLock := false }

/-- `spinlock_acquire(&p->lk)`. -/
def acquireProc (p : Fin n) : SysM n Unit := do
  if (← state).procLocks p then panic .doubleAcquire
  modify fun s => { s with procLocks := Function.update s.procLocks p true }

def releaseProc (p : Fin n) : SysM n Unit := do
  if !(← state).procLocks p then panic .release
  modify fun s => { s with procLocks := Function.update s.procLocks p false }

def setProc (p : Fin n) (v : ProcState) : SysM n Unit :=
  modify fun s => { s with procs := Function.update s.procs p v }

/-- A sleeper on this channel becomes runnable. -/
def ProcState.wake (c : Chan) : ProcState → ProcState
  | .asleep t i c' r => .asleep t i c' (r || decide (c' = c))
  | .idle => .idle

/-- `proc_wakeup`, called by `me` or by the interrupt handler. -/
def procWakeup (me : Option (Fin n)) (c : Chan) : SysM n Unit :=
  runAll (fun q =>
    if me = some q then pure ()
    else do
      acquireProc q
      modify fun s => { s with procs := Function.update s.procs q (ProcState.wake c (s.procs q)) }
      releaseProc q) (List.finRange n)

/-- `proc_sleep` up to the switch, and the scheduler behind it. -/
def procSleep (p : Fin n) (t : Task) (i : BufId) (c : Chan) : SysM n Unit := do
  acquireProc p
  releaseVdisk
  setProc p (.asleep t i c false)
  releaseProc p

/-- The loop around `alloc3_desc` in `virtio_disk_rw`, the request and the wait for it. -/
def virtioRequest (p : Fin n) (t : Task) (i : BufId) : SysM n Unit := do
  let free := (← state).descs
  if 3 ≤ free then
    modify fun s => { s with descs := s.descs - 3, onDisk := Function.update s.onDisk i true }
    procSleep p t i (.buf i)
  else
    -- `alloc3_desc` returns what it took, and `free_desc` wakes up the others
    runAll (fun _ => procWakeup (some p) .descs) (List.replicate free ())
    procSleep p t i .descs

def virtioDiskRead (p : Fin n) (t : Task) (i : BufId) : SysM n Unit := do
  acquireVdisk
  virtioRequest p t i

/-- The rest of the call behind `virtio_disk_rw`. -/
def finish (p : Fin n) (t : Task) (i : BufId) : SysM n Unit := do
  match t with
  | .bufRead => pure ()
  | .inodeLock ip =>
      onFs (inodeLoad ip i)
      modify fun s => { s with bufOwner := Function.update s.bufOwner i none }
  setProc p .idle

def readBlock (p : Fin n) (t : Task) (blockNum : Nat) : SysM n Unit := do
  let (i, miss) ← onFs (bufGet blockNum)
  modify fun s => { s with bufOwner := Function.update s.bufOwner i (some p) }
  if miss then
    modify fun s => { s with onDisk := Function.update s.onDisk i false }
    virtioDiskRead p t i
  else finish p t i

/-! ## Steps -/

inductive Act (n : Nat) where
  | bufRead (p : Fin n) (blockNum : Nat)
  | bufRelease (p : Fin n) (i : BufId)
  | inodeLock (p : Fin n) (ip : Slot)
  | inodeUnlock (p : Fin n) (ip : Slot)
  /-- The scheduler picks a process that was woken up. -/
  | resume (p : Fin n)
  /-- `virtio_disk_intr` for the request of this buffer. -/
  | complete (i : BufId)

/-- Continue a process in `proc_sleep`. -/
def resume (p : Fin n) : SysM n Unit := do
  match (← state).procs p with
  | .asleep t i c true =>
      acquireProc p
      releaseProc p
      acquireVdisk
      match c with
      | .descs => virtioRequest p t i
      | .buf _ =>
          if (← state).onDisk i then procSleep p t i (.buf i)
          else
            runAll (fun _ => do
              modify fun s => { s with descs := s.descs + 1 }
              procWakeup (some p) .descs) (List.replicate 3 ())
            releaseVdisk
            finish p t i
  | _ => pure ()

/-- The device has filled the buffer and raises its interrupt. -/
def complete (i : BufId) : SysM n Unit := do
  onFs (do setBufData i ((← state).disk ((← state).cache.bufs i).blockNum))
  acquireVdisk
  modify fun s => { s with onDisk := Function.update s.onDisk i false }
  procWakeup none (.buf i)
  releaseVdisk

def run : Act n → SysM n Unit
  | .bufRead p b => readBlock p .bufRead b
  | .bufRelease _ i => do
      onFs (bufRelease i)
      modify fun s => { s with bufOwner := Function.update s.bufOwner i none }
  | .inodeLock p ip => do
      onFs (spinlockAcquire (.inode ip))
      modify fun s => { s with inodeOwner := Function.update s.inodeOwner ip (some p) }
      let x := (← state).fs.icache ip
      if x.valid then pure ()
      else readBlock p (.inodeLock ip) (inodeBlock (← state).fs.sb x.inodeNum)
  | .inodeUnlock _ ip => do
      onFs (inodeUnlock ip)
      modify fun s => { s with inodeOwner := Function.update s.inodeOwner ip none }
  | .resume p => resume p
  | .complete i => complete i

/-- Calls are made by processes that are not asleep, releases by the owner; requests complete once
they are submitted. -/
def May : Act n → Sys n → Prop
  | .bufRead p _, s => s.procs p = .idle
  | .bufRelease p i, s => s.procs p = .idle ∧ s.bufOwner i = some p
  | .inodeLock p _, s => s.procs p = .idle
  | .inodeUnlock p ip, s => s.procs p = .idle ∧ s.inodeOwner ip = some p
  | .resume p, s => ∃ t i c, s.procs p = .asleep t i c true
  | .complete i, s => s.onDisk i = true

/-! ## The condition -/

/-- The buffer that carries the block, if any, is not locked. -/
def BlockFree (s : State) (b : Nat) : Prop :=
  ∀ i, s.cache.lru.find? (fun i => (s.cache.bufs i).blockNum = b) = some i →
    s.locks (.buf i) = false

/-- The locks the call takes are free: that of the block's buffer, or that of the inode and, when
the inode must be read, of the buffer of its block. -/
def Clear : Act n → Sys n → Prop
  | .bufRead _ b, s => BlockFree s.fs b
  | .inodeLock _ ip, s => s.fs.locks (.inode ip) = false ∧
      ((s.fs.icache ip).valid = false →
        BlockFree s.fs (inodeBlock s.fs.sb (s.fs.icache ip).inodeNum))
  | _, _ => True

/-- A panic of `spinlock_acquire` or `spinlock_release`. -/
def LockPanic (e : Panic) : Prop := e = .doubleAcquire ∨ e = .doubleAcquireInode ∨ e = .release

end Sys

/-! ## Locks and references of the buffers -/

section Buffers

variable {s : State} {G : Event → Prop} {E : Panic → Prop} {b : Nat}

/-- After `buf_read` has locked a buffer that was free. -/
structure Locked (s : State) (i : BufId) (s' : State) : Prop where
  free : s.locks (.buf i) = false
  core : s'.toCore = { s.toCore with locks := Function.update s.locks (.buf i) true }
  ref : 0 < (s'.cache.bufs i).ref
  other : ∀ j, j ≠ i → s'.cache.bufs j = s.cache.bufs j

theorem bufGet_sat (hc : s.locks .bufCache = false)
    (hlocked : ∀ i, s.locks (.buf i) = true → 0 < (s.cache.bufs i).ref)
    (hfree : Sys.BlockFree s b) :
    Sat (bufGet b) s G (fun r s' => Locked s r.1 s') fun e => e = .bufReadNoBuffers := by
  have hback : Function.update s.locks .bufCache false = s.locks := by
    rw [← hc, Function.update_eq_self]
  unfold bufGet
  rw [sat_bind, sat_acquire hc, sat_bind, sat_state]
  dsimp only [setLock_cache]
  cases hf : s.cache.lru.find? fun i => (s.cache.bufs i).blockNum = b with
  | some i =>
      have hlk := hfree i hf
      simp only [sat_bind, sat_modifyBuf]
      rw [sat_release (by simp [State.setBuf]), sat_acquire (by simp [State.setBuf, hlk]), sat_pure]
      refine ⟨hlk,
        ?_, by simp [State.setBuf, State.setLock], fun j hj => by simp [State.setBuf, State.setLock, hj]⟩
      simp [State.setBuf, State.setLock, hback]
  | none =>
      dsimp only
      cases hr : s.cache.lru.reverse.find? fun i => (s.cache.bufs i).ref = 0 with
      | none =>
          rw [sat_bind, sat_release (by simp), sat_panic]
      | some i =>
          have hzero : (s.cache.bufs i).ref = 0 := by simpa using List.find?_some hr
          have hlk : s.locks (.buf i) = false := by
            by_contra hl
            have hpos := hlocked i (by simpa using hl)
            omega
          simp only [sat_bind, sat_modifyBuf]
          rw [sat_release (by simp [State.setBuf]),
            sat_acquire (by simp [State.setBuf, hlk]), sat_pure]
          refine ⟨hlk, ?_, by simp [State.setBuf, State.setLock],
            fun j hj => by simp [State.setBuf, State.setLock, hj]⟩
          simp [State.setBuf, State.setLock, hback]

/-- Meeting a locked buffer is the double acquire. -/
theorem bufGet_locked (hc : s.locks .bufCache = false) (hbusy : ¬ Sys.BlockFree s b) :
    Sat (bufGet b) s G (fun _ _ => False) fun e => e = .doubleAcquire := by
  unfold Sys.BlockFree at hbusy
  push Not at hbusy
  obtain ⟨i, hf, hlk⟩ := hbusy
  have hlk' : s.locks (.buf i) = true := by simpa using hlk
  unfold bufGet
  rw [sat_bind, sat_acquire hc, sat_bind, sat_state]
  dsimp only [setLock_cache]
  rw [hf]
  simp only [sat_bind, sat_modifyBuf]
  rw [sat_release (by simp [State.setBuf])]
  simp [spinlockAcquire, State.setBuf, hlk', Lock.twice]

/-- After `buf_release` of a locked buffer. -/
structure Unlocked (s : State) (i : BufId) (s' : State) : Prop where
  core : s'.toCore = { s.toCore with locks := Function.update s.locks (.buf i) false }
  other : ∀ j, j ≠ i → s'.cache.bufs j = s.cache.bufs j

theorem bufRelease_unlocked {i : BufId} (hc : s.locks .bufCache = false)
    (hlk : s.locks (.buf i) = true) : Sat (bufRelease i) s G (fun _ => Unlocked s i) E := by
  have hback : Function.update (Function.update s.locks (.buf i) false) .bufCache false =
      Function.update s.locks (.buf i) false := by
    rw [Function.update_eq_self_iff, Function.update_of_ne (by simp), hc]
  unfold bufRelease
  simp only [sat_bind, sat_spinlockHolding, hlk, Bool.not_true, Bool.false_eq_true, if_false]
  rw [sat_release hlk, sat_acquire (by simp [hc])]
  simp only [sat_modifyBuf, sat_state]
  split
  · rw [sat_bind, insertHead, sat_modify, sat_release (by simp [State.setBuf])]
    refine ⟨?_, fun j hj => by simp [State.setBuf, State.setLock, hj]⟩
    simp [State.setBuf, State.setLock, hback]
  · rw [sat_release (by simp [State.setBuf])]
    refine ⟨?_, fun j hj => by simp [State.setBuf, State.setLock, hj]⟩
    simp [State.setBuf, State.setLock, hback]

end Buffers

/-! ## The invariant -/

namespace Sys

variable {n : Nat}

/-- The process owns the locks its call has taken. -/
structure Owns (p : Fin n) (t : Task) (i : BufId) (s : Sys n) : Prop where
  buf : s.bufOwner i = some p
  inode : ∀ ip, t = .inodeLock ip → s.inodeOwner ip = some p

/-- Between two segments of code; `v` says whether `vdisk_lock` is held. The buffer and inode locks
are those of the owners, and a locked buffer is referenced. -/
structure Inv (v : Bool) (s : Sys n) : Prop where
  bufCache : s.fs.locks .bufCache = false
  vdisk : s.vdiskLock = v
  proc : ∀ p, s.procLocks p = false
  buf : ∀ i, s.fs.locks (.buf i) = (s.bufOwner i).isSome
  inode : ∀ ip, s.fs.locks (.inode ip) = (s.inodeOwner ip).isSome
  ref : ∀ i, (s.bufOwner i).isSome = true → 0 < (s.fs.cache.bufs i).ref
  asleep : ∀ p t i c r, s.procs p = .asleep t i c r → Owns p t i s

/-- Some sleepers became runnable. -/
structure Woken (s s' : Sys n) : Prop where
  eq : s' = { s with procs := s'.procs }
  procs : ∀ p t i c r, s'.procs p = .asleep t i c r → ∃ r', s.procs p = .asleep t i c r'

section

variable {s s' : Sys n} {v : Bool} {p : Fin n} {t : Task} {i : BufId} {G : Event → Prop}
  {E : Panic → Prop}

theorem Owns.congr (h : Owns p t i s) (hb : s'.bufOwner = s.bufOwner)
    (hi : s'.inodeOwner = s.inodeOwner) : Owns p t i s' :=
  ⟨by rw [hb]; exact h.buf, fun ip ht => by rw [hi]; exact h.inode ip ht⟩

theorem Woken.owns (h : Woken s s') (ho : Owns p t i s) : Owns p t i s' :=
  ho.congr (by rw [h.eq]) (by rw [h.eq])

/-- The invariant does not read the queue of the disk; `vdisk_lock` is its parameter. -/
theorem Inv.congr {w : Bool} (h : Inv v s) (hv : s'.vdiskLock = w) (hfs : s'.fs = s.fs)
    (hl : s'.procLocks = s.procLocks) (hp : s'.procs = s.procs) (hb : s'.bufOwner = s.bufOwner)
    (hi : s'.inodeOwner = s.inodeOwner) : Inv w s' := by
  refine ⟨?_, hv, ?_, ?_, ?_, ?_, fun q t i c r hq => ?_⟩
  · rw [hfs]
    exact h.bufCache
  · rw [hl]
    exact h.proc
  · rw [hfs, hb]
    exact h.buf
  · rw [hfs, hi]
    exact h.inode
  · rw [hfs, hb]
    exact h.ref
  · rw [hp] at hq
    exact (h.asleep q t i c r hq).congr hb hi

theorem Inv.woken (h : Inv v s) (hw : Woken s s') : Inv v s' := by
  refine ⟨?_, ?_, ?_, ?_, ?_, ?_, fun q t i c r hq => ?_⟩
  · rw [hw.eq]
    exact h.bufCache
  · rw [hw.eq]
    exact h.vdisk
  · rw [hw.eq]
    exact h.proc
  · rw [hw.eq]
    exact h.buf
  · rw [hw.eq]
    exact h.inode
  · rw [hw.eq]
    exact h.ref
  · obtain ⟨r', hr'⟩ := hw.procs q t i c r hq
    exact hw.owns (h.asleep q t i c r' hr')

theorem sat_acquireVdisk {Q : Unit → Sys n → Prop} (h : s.vdiskLock = false) :
    Sat acquireVdisk s G Q E ↔ Q () { s with vdiskLock := true } := by
  simp [acquireVdisk, h]

theorem sat_releaseVdisk {Q : Unit → Sys n → Prop} (h : s.vdiskLock = true) :
    Sat releaseVdisk s G Q E ↔ Q () { s with vdiskLock := false } := by
  simp [releaseVdisk, h]

theorem sat_acquireProc {Q : Unit → Sys n → Prop} (h : s.procLocks p = false) :
    Sat (acquireProc p) s G Q E ↔
      Q () { s with procLocks := Function.update s.procLocks p true } := by
  simp [acquireProc, h]

theorem sat_releaseProc {Q : Unit → Sys n → Prop} (h : s.procLocks p = true) :
    Sat (releaseProc p) s G Q E ↔
      Q () { s with procLocks := Function.update s.procLocks p false } := by
  simp [releaseProc, h]

theorem relock_proc (h : s.procLocks p = false) :
    Function.update (Function.update s.procLocks p true) p false = s.procLocks := by
  rw [Function.update_idem, Function.update_eq_self_iff, h]

theorem procWakeup_sat (me : Option (Fin n)) (c : Chan) (h : ∀ p, s.procLocks p = false) :
    Sat (procWakeup me c) s G (fun _ => Woken s) E := by
  unfold procWakeup
  refine runAll_sat (I := Woken s) _ (fun q _ s₁ h₁ => ?_) ⟨rfl, fun _ _ _ _ r hr => ⟨r, hr⟩⟩
  split
  · exact (sat_pure ()).mpr h₁
  · have hlk : s₁.procLocks q = false := by
      rw [h₁.eq]
      exact h q
    rw [sat_bind, sat_acquireProc hlk, sat_bind, sat_modify, sat_releaseProc (by simp)]
    refine ⟨?_, fun q' t i c' r hq' => ?_⟩
    · rw [relock_proc hlk]
      conv_lhs => rw [h₁.eq]
    · by_cases hq : q' = q
      · subst hq
        dsimp only at hq'
        rw [Function.update_self] at hq'
        cases hp : s₁.procs q' with
        | idle =>
            rw [hp] at hq'
            cases hq'
        | asleep t₁ i₁ c₁ r₁ =>
            rw [hp] at hq'
            cases hq'
            exact h₁.procs q' t i c' r₁ hp
      · dsimp only at hq'
        rw [Function.update_of_ne hq] at hq'
        exact h₁.procs q' t i c' r hq'

theorem procSleep_sat (h : Inv true s) (ho : Owns p t i s) (c : Chan) :
    Sat (procSleep p t i c) s G (fun _ => Inv false) E := by
  unfold procSleep
  rw [sat_bind, sat_acquireProc (h.proc p), sat_bind, sat_releaseVdisk (by exact h.vdisk), sat_bind,
    setProc, sat_modify, sat_releaseProc (by simp)]
  refine ⟨h.bufCache, rfl, ?_, h.buf, h.inode, h.ref, fun q t' i' c' r hq => ?_⟩
  · dsimp only
    rw [relock_proc (h.proc p)]
    exact h.proc
  · by_cases hqp : q = p
    · subst hqp
      dsimp only at hq
      rw [Function.update_self] at hq
      cases hq
      exact ho.congr rfl rfl
    · dsimp only at hq
      rw [Function.update_of_ne hqp] at hq
      exact (h.asleep q t' i' c' r hq).congr rfl rfl

theorem virtioRequest_sat (h : Inv true s) (ho : Owns p t i s) :
    Sat (virtioRequest p t i) s G (fun _ => Inv false) E := by
  unfold virtioRequest
  rw [sat_bind, sat_state]
  dsimp only
  split
  · rw [sat_bind, sat_modify]
    apply procSleep_sat
    · exact h.congr h.vdisk rfl rfl rfl rfl rfl
    · exact ho.congr rfl rfl
  · refine (runAll_sat (I := fun s' => Inv true s' ∧ Owns p t i s') _ (fun _ _ s₁ h₁ => ?_)
      ⟨h, ho⟩).bind fun _ s₁ h₁ => procSleep_sat h₁.1 h₁.2 _
    exact (procWakeup_sat (some p) .descs h₁.1.proc).imp fun _ s₂ hw =>
      ⟨h₁.1.woken hw, hw.owns h₁.2⟩

/-- The file system changes in one buffer, whose owner changes with its lock. -/
theorem Inv.setFs (fs : State) (owner : Option (Fin n)) (h : Inv v s)
    (hl : fs.locks = Function.update s.fs.locks (.buf i) owner.isSome)
    (href : owner.isSome = true → 0 < (fs.cache.bufs i).ref)
    (hother : ∀ j, j ≠ i → fs.cache.bufs j = s.fs.cache.bufs j)
    (hsleep : ∀ q t i' c r, s.procs q = .asleep t i' c r → i' ≠ i) :
    Inv v { s with fs := fs, bufOwner := Function.update s.bufOwner i owner } := by
  refine ⟨?_, h.vdisk, h.proc, fun j => ?_, fun ip => ?_, fun j hj => ?_, fun q t i' c r hq => ?_⟩
  · dsimp only
    rw [hl, Function.update_of_ne (by simp)]
    exact h.bufCache
  · dsimp only
    rw [hl]
    by_cases hj : j = i
    · simp [hj]
    · rw [Function.update_of_ne (by simpa using hj), Function.update_of_ne hj]
      exact h.buf j
  · dsimp only
    rw [hl, Function.update_of_ne (by simp)]
    exact h.inode ip
  · dsimp only at hj ⊢
    by_cases hji : j = i
    · rw [hji] at hj ⊢
      rw [Function.update_self] at hj
      exact href hj
    · rw [Function.update_of_ne hji] at hj
      rw [hother j hji]
      exact h.ref j hj
  · have hold := h.asleep q t i' c r hq
    have hne := hsleep q t i' c r hq
    refine ⟨?_, hold.inode⟩
    dsimp only
    rw [Function.update_of_ne hne]
    exact hold.buf

/-- No other process sleeps on a buffer of `p`. -/
theorem Inv.sleeper_eq (h : Inv v s) (ho : s.bufOwner i = some p) {q : Fin n} {t' : Task} {c : Chan}
    {r : Bool} (hq : s.procs q = .asleep t' i c r) : q = p := by
  have hb := (h.asleep q t' i c r hq).buf
  rw [ho] at hb
  cases hb
  rfl

theorem Inv.setIdle (h : Inv v s) (p : Fin n) :
    Inv v { s with procs := Function.update s.procs p .idle } := by
  refine ⟨h.bufCache, h.vdisk, h.proc, h.buf, h.inode, h.ref, fun q t i c r hq => ?_⟩
  by_cases hqp : q = p
  · subst hqp
    dsimp only at hq
    rw [Function.update_self] at hq
    cases hq
  · dsimp only at hq
    rw [Function.update_of_ne hqp] at hq
    exact (h.asleep q t i c r hq).congr rfl rfl

theorem finish_sat (h : Inv false s) (ho : Owns p t i s) :
    Sat (finish p t i) s G (fun _ => Inv false) E := by
  cases t with
  | bufRead =>
      simp only [finish, setProc, sat_modify]
      exact h.setIdle p
  | inodeLock ip =>
      have hlk : s.fs.locks (.buf i) = true := by rw [h.buf i, ho.buf]; rfl
      simp only [finish, onFs, inodeLoad, sat_bind, sat_zoom, sat_inodeOf,
        sat_bufData, sat_modifyInode,
        setProc, sat_modify]
      refine (bufRelease_unlocked (s := s.fs.setInode ip _) h.bufCache hlk).imp fun _ fs' hu => ?_
      -- the process becomes idle before its buffer loses its owner
      have hidle := (h.setIdle p).setFs (i := i)
        (fs'.setInode ip { fs'.icache ip with valid := true }) none (by
          have hl : fs'.locks = Function.update s.fs.locks (.buf i) false := by rw [hu.core]; rfl
          exact hl) (by simp) (fun j hj => hu.other j hj) ?_
      · exact hidle
      · intro q t' i' c r hq hi
        subst hi
        have hqp := (h.setIdle p).sleeper_eq ho.buf hq
        subst hqp
        dsimp only at hq
        rw [Function.update_self] at hq
        cases hq

theorem virtioDiskRead_sat (h : Inv false s) (ho : Owns p t i s) :
    Sat (virtioDiskRead p t i) s G (fun _ => Inv false) E := by
  unfold virtioDiskRead
  rw [sat_bind, sat_acquireVdisk h.vdisk]
  exact virtioRequest_sat (h.congr rfl rfl rfl rfl rfl rfl) (ho.congr rfl rfl)

theorem readBlock_sat {b : Nat} (h : Inv false s)
    (hinode : ∀ ip, t = .inodeLock ip → s.inodeOwner ip = some p) (hfree : BlockFree s.fs b) :
    Sat (readBlock p t b) s G (fun _ => Inv false) fun e => e = .bufReadNoBuffers := by
  unfold readBlock
  rw [sat_bind, onFs, sat_zoom]
  have hlocked : ∀ i, s.fs.locks (.buf i) = true → 0 < (s.fs.cache.bufs i).ref := by
    intro i hi
    exact h.ref i ((h.buf i).symm.trans hi)
  refine (bufGet_sat h.bufCache hlocked hfree).imp fun r fs' hl => ?_
  obtain ⟨i, miss⟩ := r
  have hnone : s.bufOwner i = none := by
    have hf := (h.buf i).symm.trans hl.free
    simpa using hf
  have hlk : fs'.locks = Function.update s.fs.locks (.buf i) true := by rw [hl.core]
  have hinv : Inv false
    { s with fs := fs', bufOwner := Function.update s.bufOwner i (some p) } := by
    refine h.setFs _ _ hlk (fun _ => hl.ref) hl.other fun q t' i' c r hq hi => ?_
    subst hi
    have hb := (h.asleep q t' i' c r hq).buf
    rw [hnone] at hb
    cases hb
  have hown : Owns p t i { s with fs := fs', bufOwner := Function.update s.bufOwner i (some p) } :=
    ⟨Function.update_self i (some p) s.bufOwner, hinode⟩
  simp only [sat_bind, sat_modify]
  cases miss with
  | true =>
      simp only [if_true, sat_bind, sat_modify]
      refine virtioDiskRead_sat ?_ (hown.congr rfl rfl)
      exact hinv.congr hinv.vdisk rfl rfl rfl rfl rfl
  | false => exact finish_sat hinv hown

theorem readBlock_locked {b : Nat} (hc : s.fs.locks .bufCache = false)
    (hbusy : ¬ BlockFree s.fs b) :
    Sat (readBlock p t b) s G (fun _ _ => False) fun e => e = .doubleAcquire := by
  unfold readBlock
  rw [sat_bind, onFs, sat_zoom]
  exact (bufGet_locked hc hbusy).imp fun _ _ => False.elim

/-! ## Steps -/

theorem resume_sat (h : Inv false s) : Sat (resume p) s G (fun _ => Inv false) E := by
  unfold resume
  rw [sat_bind, sat_state]
  split
  · next t i c hp =>
    have ho := h.asleep p t i c true hp
    rw [sat_bind, sat_acquireProc (h.proc p), sat_bind, sat_releaseProc (by simp), sat_bind,
      sat_acquireVdisk (by exact h.vdisk)]
    have h₁ : Inv true { s with
        vdiskLock := true
        procLocks := Function.update (Function.update s.procLocks p true) p false } :=
      h.congr rfl rfl (relock_proc (h.proc p)) rfl rfl rfl
    cases c with
    | descs => exact virtioRequest_sat h₁ (ho.congr rfl rfl)
    | buf j =>
        simp only [sat_bind, sat_state]
        split
        · exact procSleep_sat h₁ (ho.congr rfl rfl) _
        · rw [sat_bind]
          refine (runAll_sat (I := fun s' => Inv true s' ∧ Owns p t i s') _ (fun _ _ s₂ h₂ => ?_)
            ⟨h₁, ho.congr rfl rfl⟩).imp fun _ s₃ h₃ => ?_
          · rw [sat_bind, sat_modify]
            have hup : Inv true { s₂ with descs := s₂.descs + 1 } :=
              h₂.1.congr h₂.1.vdisk rfl rfl rfl rfl rfl
            exact (procWakeup_sat (some p) .descs hup.proc).imp fun _ s₄ hw =>
              ⟨hup.woken hw, hw.owns (h₂.2.congr rfl rfl)⟩
          · rw [sat_bind, sat_releaseVdisk h₃.1.vdisk]
            exact finish_sat (h₃.1.congr rfl rfl rfl rfl rfl rfl) (h₃.2.congr rfl rfl)
  · exact (sat_pure ()).mpr h

theorem complete_sat (h : Inv false s) : Sat (complete i) s G (fun _ => Inv false) E := by
  unfold complete
  simp only [onFs, sat_bind, sat_zoom, sat_state, sat_setBufData]
  rw [sat_acquireVdisk (by exact h.vdisk), sat_modify]
  have h₁ : Inv true { s with
      fs := s.fs.setBuf i { s.fs.cache.bufs i with data := s.fs.disk (s.fs.cache.bufs i).blockNum }
      vdiskLock := true
      onDisk := Function.update s.onDisk i false } := by
    refine ⟨h.bufCache, rfl, h.proc, h.buf, h.inode, fun j hj => ?_, fun q t' i' c r hq => ?_⟩
    · have href : ((s.fs.setBuf i { s.fs.cache.bufs i with
          data := s.fs.disk (s.fs.cache.bufs i).blockNum }).cache.bufs j).ref =
          (s.fs.cache.bufs j).ref := by
        by_cases hji : j = i
        · simp [State.setBuf, hji]
        · simp [State.setBuf, hji]
      dsimp only
      rw [href]
      exact h.ref j hj
    · exact (h.asleep q t' i' c r hq).congr rfl rfl
  refine (procWakeup_sat none (.buf i) h₁.proc).imp fun _ s₂ hw => ?_
  have h₂ := h₁.woken hw
  rw [sat_releaseVdisk h₂.vdisk]
  exact h₂.congr rfl rfl rfl rfl rfl rfl

/-- A permitted step that finds its locks free keeps the invariant; it can only run out of
buffers. -/
theorem run_sat {a : Act n} (h : Inv false s) (hmay : May a s) (hclear : Clear a s) :
    Sat (run a) s G (fun _ => Inv false) fun e => e = .bufReadNoBuffers := by
  cases a with
  | bufRead p b => exact readBlock_sat h nofun hclear
  | bufRelease p i =>
      have hlk : s.fs.locks (.buf i) = true := by rw [h.buf i, hmay.2]; rfl
      simp only [run, onFs, sat_bind, sat_zoom, sat_modify]
      refine (bufRelease_unlocked h.bufCache hlk).imp fun _ fs' hu => ?_
      refine h.setFs _ _ (by rw [hu.core]; rfl) (by simp) hu.other fun q t i' c r hq hi => ?_
      subst hi
      rw [h.sleeper_eq hmay.2 hq, hmay.1] at hq
      cases hq
  | inodeLock p ip =>
      obtain ⟨hlk, hblock⟩ := hclear
      have hnone : s.inodeOwner ip = none := by
        have hf := (h.inode ip).symm.trans hlk
        simpa using hf
      simp only [run, onFs, sat_bind, sat_zoom, sat_modify, sat_state]
      rw [sat_acquire hlk]
      have h₁ : Inv false { s with
          fs := s.fs.setLock (.inode ip) true
          inodeOwner := Function.update s.inodeOwner ip (some p) } := by
        refine ⟨?_, h.vdisk, h.proc, fun j => ?_, fun j => ?_, h.ref, fun q t i c r hq => ?_⟩
        · simpa using h.bufCache
        · simpa using h.buf j
        · by_cases hj : j = ip
          · simp [hj]
          · simpa [hj] using h.inode j
        · have hold := h.asleep q t i c r hq
          refine ⟨hold.buf, fun jp ht => ?_⟩
          have hj := hold.inode jp ht
          have hne : jp ≠ ip := by
            rintro rfl
            rw [hnone] at hj
            cases hj
          dsimp only
          rw [Function.update_of_ne hne]
          exact hj
      split
      · exact (sat_pure ()).mpr h₁
      · next hv =>
        refine readBlock_sat h₁ (fun jp ht => ?_) ?_
        · cases ht
          exact Function.update_self ip (some p) s.inodeOwner
        · intro i hi
          have hb := hblock (by simpa using hv) i hi
          simpa using hb
  | inodeUnlock p ip =>
      have hlk : s.fs.locks (.inode ip) = true := by rw [h.inode ip, hmay.2]; rfl
      simp only [run, onFs, inodeUnlock, sat_bind, sat_zoom, sat_modify]
      rw [sat_release hlk]
      refine ⟨?_, h.vdisk, h.proc, fun j => ?_, fun j => ?_, h.ref, fun q t i c r hq => ?_⟩
      · simpa using h.bufCache
      · simpa using h.buf j
      · by_cases hj : j = ip
        · simp [hj]
        · simpa [hj] using h.inode j
      · have hold := h.asleep q t i c r hq
        refine ⟨hold.buf, fun jp ht => ?_⟩
        have hj := hold.inode jp ht
        have hne : jp ≠ ip := by
          rintro rfl
          rw [hmay.2] at hj
          cases hj
          rw [hmay.1] at hq
          cases hq
        dsimp only
        rw [Function.update_of_ne hne]
        exact hj
  | resume p => exact resume_sat h
  | complete i => exact complete_sat h

/-- A call that finds one of its locks taken panics. -/
theorem run_locked {a : Act n} (h : Inv false s) (hbusy : ¬ Clear a s) :
    Sat (run a) s G (fun _ _ => False) LockPanic := by
  have hblocked : ∀ {p t b} {s₁ : Sys n}, s₁.fs.locks .bufCache = false → ¬ BlockFree s₁.fs b →
      Sat (readBlock p t b) s₁ G (fun _ _ => False) LockPanic := fun hc hb =>
    (readBlock_locked hc hb).mono (fun _ _ hf => hf) fun _ he => Or.inl he
  cases a with
  | bufRead p b => exact hblocked h.bufCache hbusy
  | inodeLock p ip =>
      simp only [run, onFs, sat_bind, sat_zoom, sat_modify, sat_state]
      by_cases hlk : s.fs.locks (.inode ip) = false
      · have hblock : ¬ ((s.fs.icache ip).valid = false →
            BlockFree s.fs (inodeBlock s.fs.sb (s.fs.icache ip).inodeNum)) :=
          fun hb => hbusy ⟨hlk, hb⟩
        rw [Classical.not_imp] at hblock
        rw [sat_acquire hlk, setLock_icache, hblock.1]
        simp only [Bool.false_eq_true, if_false]
        refine hblocked ?_ fun hfree => hblock.2 fun i hi => ?_
        · simpa using h.bufCache
        · simpa using hfree i hi
      · have ht : s.fs.locks (.inode ip) = true := by simpa using hlk
        simp [spinlockAcquire, ht, Lock.twice, LockPanic]
  | bufRelease p i => exact absurd trivial hbusy
  | inodeUnlock p ip => exact absurd trivial hbusy
  | resume p => exact absurd trivial hbusy
  | complete i => exact absurd trivial hbusy

end

/-- All locks are free and no process is in the file system. -/
structure Start (s : Sys n) : Prop where
  locks : ∀ lk, s.fs.locks lk = false
  vdisk : s.vdiskLock = false
  proc : ∀ p, s.procLocks p = false
  procs : ∀ p, s.procs p = .idle
  bufOwner : ∀ i, s.bufOwner i = none
  inodeOwner : ∀ ip, s.inodeOwner ip = none

theorem Start.inv {s : Sys n} (h : Start s) : Inv false s := by
  refine ⟨h.locks _, h.vdisk, h.proc, fun i => ?_, fun ip => ?_, fun i hi => ?_,
    fun p t i c r hp => ?_⟩
  · rw [h.locks, h.bufOwner]
    rfl
  · rw [h.locks, h.inodeOwner]
    rfl
  · rw [h.bufOwner] at hi
    cases hi
  · rw [h.procs] at hp
    cases hp

/-- In every run whose calls find their locks free, a permitted step ends in a panic of the spinlock
code exactly when one of its locks is taken. -/
theorem lock_panic_iff (n : Nat) (s₀ s : Sys n) (h₀ : Start s₀)
    (h : Reach (fun a s => May a s ∧ Clear a s) run s₀ s) (a : Act n) (hmay : May a s) :
    (∀ e, (run a s).1 = .error e → ¬ LockPanic e) ↔ Clear a s := by
  have hinv : Inv false s := h.invariant (fun a s₁ s₂ h₁ ha hr =>
    (run_sat (G := fun _ => True) h₁ ha.1 ha.2).of_ok hr) h₀.inv
  constructor
  · intro hsafe
    by_contra hbusy
    have hsat := (run_locked (G := fun _ => True) hinv hbusy).2
    cases hr : (run a s).1 with
    | ok p =>
        rw [hr] at hsat
        exact hsat
    | error e =>
        rw [hr] at hsat
        exact hsafe e hr hsat
  · intro hclear e he hpanic
    have hsat := (run_sat (G := fun _ => True) hinv hmay hclear).2
    rw [he] at hsat
    rw [show e = .bufReadNoBuffers from hsat] at hpanic
    rcases hpanic with hp | hp | hp <;> cases hp

/-- Processes over an empty cache and a blank disk. -/
def boot (n : Nat) : Sys n where
  fs := { powerOn (fun _ _ => 0) with
    cache :=
      { bufs := fun _ => { blockNum := blockNumUnused, data := fun _ => 0, ref := 0 }
        lru := List.finRange 64 } }
  vdiskLock := false
  procLocks := fun _ => false
  procs := fun _ => .idle
  descs := 8
  onDisk := fun _ => false
  bufOwner := fun _ => none
  inodeOwner := fun _ => none

theorem boot_start (n : Nat) : Start (boot n) :=
  ⟨fun _ => rfl, rfl, fun _ => rfl, fun _ => rfl, fun _ => rfl, fun _ => rfl⟩

/-- The first read of a block finds its locks free. -/
theorem lock_panic_iff_first :
    Clear (.bufRead 0 5) (boot 2) ∧
      ∀ e, (run (.bufRead 0 5) (boot 2)).1 = .error e → ¬ LockPanic e := by
  have hclear : Clear (.bufRead 0 5) (boot 2) := fun _ _ => rfl
  exact ⟨hclear,
    (lock_panic_iff 2 (boot 2) (boot 2) (boot_start 2) .refl (.bufRead 0 5) rfl).mpr hclear⟩

/-- Two processes read the same block: the second one panics while the first one sleeps. -/
theorem two_readers_panic :
    ∃ s₀ s₁ : Sys 2, Start s₀ ∧ Reach May run s₀ s₁ ∧ May (.bufRead 1 5) s₁ ∧
      (run (.bufRead 1 5) s₁).1 = .error .doubleAcquire := by
  have hrun : (match (run (.bufRead 0 5) (boot 2)).1 with
      | .ok (_, s₁) => decide (s₁.procs 1 = .idle) &&
          match (run (.bufRead 1 5) s₁).1 with
          | .ok _ => false
          | .error e => decide (e = .doubleAcquire)
      | .error _ => false) = true := by
    decide +kernel
  split at hrun
  · next s₁ hs₁ =>
    rw [Bool.and_eq_true, decide_eq_true_eq] at hrun
    obtain ⟨hidle, hpanic⟩ := hrun
    refine ⟨boot 2, s₁, boot_start 2, .single ⟨.bufRead 0 5, rfl, hs₁⟩, hidle, ?_⟩
    split at hpanic
    · cases hpanic
    · next e he =>
      rw [he, of_decide_eq_true hpanic]
  · cases hrun

end Sys

end WhuOs.Fs
