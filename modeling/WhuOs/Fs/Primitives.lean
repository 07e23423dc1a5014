import WhuOs.Fs.Mount

/-! # Specifications of the allocators and the inode cache

One specification per function below the data and directory layers, on a volume
with the layout of `mkfs`. The postconditions name the net effect of a call by
`Stored` and `Loaded`, or give the resulting state where the cache is not
involved.
-/

namespace WhuOs.Fs

open Prog Bytes Bits

def State.setLock (s : State) (lk : Lock) (v : Bool) : State :=
  { s with locks := Function.update s.locks lk v }

section

variable {held : List BufId} {s s₁ : State} {ip : Slot} {n b : Nat} {i : BufId}
  {G H : Event → Prop} {E : Panic → Prop}

/-! ## State updates -/

theorem setInode_toCore (x : Inode) :
    (s.setInode ip x).toCore = { s.toCore with icache := Function.update s.icache ip x } := rfl

@[simp] theorem setInode_icache (x : Inode) :
    (s.setInode ip x).icache = Function.update s.icache ip x := rfl

@[simp] theorem setInode_disk (x : Inode) : (s.setInode ip x).disk = s.disk := rfl

@[simp] theorem setInode_sb (x : Inode) : (s.setInode ip x).sb = s.sb := rfl

@[simp] theorem setInode_locks (x : Inode) : (s.setInode ip x).locks = s.locks := rfl

@[simp] theorem setInode_cache (x : Inode) : (s.setInode ip x).cache = s.cache := rfl

@[simp] theorem setInode_view (x : Inode) (b : Nat) : (s.setInode ip x).view b = s.view b := rfl

@[simp] theorem setInode_setInode (x y : Inode) :
    (s.setInode ip x).setInode ip y = s.setInode ip y := by
  simp [State.setInode]

@[simp] theorem setLock_icache (lk : Lock) (v : Bool) : (s.setLock lk v).icache = s.icache := rfl

@[simp] theorem setLock_disk (lk : Lock) (v : Bool) : (s.setLock lk v).disk = s.disk := rfl

@[simp] theorem setLock_sb (lk : Lock) (v : Bool) : (s.setLock lk v).sb = s.sb := rfl

@[simp] theorem setLock_cache (lk : Lock) (v : Bool) : (s.setLock lk v).cache = s.cache := rfl

@[simp] theorem setLock_locks (lk : Lock) (v : Bool) :
    (s.setLock lk v).locks = Function.update s.locks lk v := rfl

@[simp] theorem setLock_view (lk : Lock) (v : Bool) (b : Nat) :
    (s.setLock lk v).view b = s.view b := rfl

/-- Entries are changed under locks as without them. -/
@[simp] theorem setInode_setLock (lk : Lock) (v : Bool) (x : Inode) :
    (s.setLock lk v).setInode ip x = (s.setInode ip x).setLock lk v := rfl

@[simp] theorem setLock_setLock (lk : Lock) (v w : Bool) :
    (s.setLock lk v).setLock lk w = s.setLock lk w := by
  simp [State.setLock]

theorem setLock_self {lk : Lock} {v : Bool} (h : s.locks lk = v) : s.setLock lk v = s := by
  rw [State.setLock, ← h, Function.update_eq_self]

theorem sat_acquire {lk : Lock} {Q : Unit → State → Prop} (h : s.locks lk = false) :
    Sat (spinlockAcquire lk) s G Q E ↔ Q () (s.setLock lk true) := sat_spinlockAcquire h

theorem sat_release {lk : Lock} {Q : Unit → State → Prop} (h : s.locks lk = true) :
    Sat (spinlockRelease lk) s G Q E ↔ Q () (s.setLock lk false) := sat_spinlockRelease h

/-- The cache invariant only reads the cache and the locks of the buffers. -/
theorem CacheInv.congr (h : CacheInv held s) (hc : s₁.cache = s.cache)
    (hl : ∀ i, s₁.locks (.buf i) = s.locks (.buf i)) (hb : s₁.locks .bufCache = s.locks .bufCache) :
    CacheInv held s₁ := by
  refine ⟨?_, ?_, ?_, fun i => (hl i).trans (h.locked i), ?_, hb.trans h.lk⟩
  · rw [hc]
    exact h.nodup
  · rw [hc]
    exact h.mem
  · rw [hc]
    exact h.uniq
  · rw [hc]
    exact h.ref

theorem CacheInv.setInode (h : CacheInv held s) (x : Inode) : CacheInv held (s.setInode ip x) :=
  h.congr rfl (fun _ => rfl) rfl

/-- Locks of inodes and of the `icache` are none of the cache's business. -/
theorem CacheInv.setLock {lk : Lock} (h : CacheInv held s) (hb : ∀ j, lk ≠ .buf j)
    (hc : lk ≠ .bufCache) (v : Bool) : CacheInv held (s.setLock lk v) :=
  h.congr rfl (fun j => Function.update_of_ne (hb j).symm _ _) (Function.update_of_ne hc.symm _ _)

theorem ReadPost.setInode (p : ReadPost held s b i s₁) (x : Inode) :
    ReadPost held (s.setInode ip x) b i (s₁.setInode ip x) := by
  refine ⟨p.fresh, ?_, p.inv.setInode x, p.num, p.data, p.other⟩
  conv_lhs => rw [p.eq]
  rfl

@[simp] theorem sat_inodeOf {Q : Inode → State → Prop} :
    Sat (inodeOf ip) s G Q E ↔ Q (s.icache ip) s := by
  simp [inodeOf]

@[simp] theorem sat_modifyInode (f : Inode → Inode) {Q : Unit → State → Prop} :
    Sat (modifyInode ip f) s G Q E ↔ Q () (s.setInode ip (f (s.icache ip))) := by
  simp [modifyInode]

/-! ## Allocation of inode numbers and blocks -/

inductive InodeAllocated (held : List BufId) (s : State) : Nat → State → Prop where
  | found {n : Nat} {s' : State} (lt : n < 8192) (clear : bitAt (s.view 1) n = false)
      (below : ∀ m < n, bitAt (s.view 1) m = true)
      (stored : Stored held s 1 (setBit (s.view 1) n) s') : InodeAllocated held s n s'
  | full {s' : State} (all : ∀ m < 8192, bitAt (s.view 1) m = true)
      (loaded : Loaded held s s') : InodeAllocated held s 0xFFFF s'

theorem bitmapAllocInode_sat (hs : CacheInv held s) (hsb : s.sb = Mkfs.sb)
    (hr : Readable held s 1) (hG : G (.diskWrite 1)) :
    Sat bitmapAllocInode s G (InodeAllocated held s) E := by
  unfold bitmapAllocInode
  rw [sat_bind, sat_state, hsb]
  refine (bitmapSearchAndSet_sat hs hr hG).bind fun bit s' hp => ?_
  cases hp with
  | found lt clear below stored =>
      rw [if_neg (by omega), sat_pure, Nat.mod_eq_of_lt (by omega)]
      exact .found lt clear below stored
  | full all loaded =>
      rw [if_pos rfl, sat_pure]
      exact .full all loaded

/-- Outcome of `bitmap_alloc_block` when a bit is clear. -/
structure BlockTaken (held : List BufId) (s : State) (b : Nat) (s' : State) : Prop where
  area : InData b
  clear : bitAt (s.view 130) (b - 131) = false
  below : ∀ c, InData c → c < b → bitAt (s.view 130) (c - 131) = true
  stored : Stored held s 130 (setBit (s.view 130) (b - 131)) s'

/-- The result of the search as a block number. -/
theorem BlockTaken.of_found {s' : State} (lt : n < 8192) (clear : bitAt (s.view 130) n = false)
    (below : ∀ m < n, bitAt (s.view 130) m = true)
    (stored : Stored held s 130 (setBit (s.view 130) n) s') :
    BlockTaken held s (u32 (n + Mkfs.sb.dataStart)) s' := by
  have hstart : Mkfs.sb.dataStart = 131 := rfl
  have hu : u32 (n + Mkfs.sb.dataStart) = n + 131 := by
    rw [hstart, u32]
    omega
  have hsub : n + 131 - 131 = n := by omega
  rw [hu]
  refine ⟨by rw [inData_iff]; omega, ?_, fun c hc hlt => ?_, ?_⟩
  · rw [hsub]
    exact clear
  · rw [inData_iff] at hc
    exact below _ (by omega)
  · rw [hsub]
    exact stored

inductive BlockAllocated (held : List BufId) (s : State) : Nat → State → Prop where
  | found {b : Nat} {s' : State} (taken : BlockTaken held s b s') : BlockAllocated held s b s'
  | full {s' : State} (all : ∀ m < 8192, bitAt (s.view 130) m = true)
      (loaded : Loaded held s s') : BlockAllocated held s 0 s'

theorem bitmapAllocBlock_sat (hs : CacheInv held s) (hsb : s.sb = Mkfs.sb)
    (hr : Readable held s 130) (hG : G (.diskWrite 130))
    (hG' : (∀ m < 8192, bitAt (s.view 130) m = true) → G .allocFail) :
    Sat bitmapAllocBlock s G (BlockAllocated held s) E := by
  unfold bitmapAllocBlock
  rw [sat_bind, sat_state, hsb]
  refine (bitmapSearchAndSet_sat hs hr hG).bind fun bit s' hp => ?_
  cases hp with
  | found lt clear below stored =>
      rw [if_neg (by omega), sat_pure]
      exact .found (.of_found lt clear below stored)
  | full all loaded =>
      rw [if_pos rfl, sat_bind, sat_emit]
      exact ⟨hG' all, (sat_pure _).mpr (.full all loaded)⟩

/-- In a run without allocation failures the allocator finds a block. -/
theorem bitmapAllocBlock_on (hs : CacheInv held s) (hsb : s.sb = Mkfs.sb)
    (hr : Readable held s 130) (hH : H (.diskWrite 130)) (hG : ¬ G .allocFail) :
    SatOn bitmapAllocBlock s G H (BlockTaken held s) := by
  unfold bitmapAllocBlock
  refine (Sat.on (E := fun _ => False) (sat_state.mpr ?_)).bind fun a s' (h : a = s ∧ s' = s) => ?_
  · exact ⟨rfl, rfl⟩
  obtain ⟨rfl, rfl⟩ := h
  rw [hsb]
  refine (bitmapSearchAndSet_sat (E := fun _ => False) hs hr hH).on.bind fun bit s' hp => ?_
  cases hp with
  | found lt clear below stored =>
      rw [if_neg (by omega)]
      exact satOn_pure (.of_found lt clear below stored)
  | full all loaded =>
      rw [if_pos rfl]
      exact satOn_emit_false hG

theorem bitmapFreeBlock_sat (hs : CacheInv held s) (hsb : s.sb = Mkfs.sb)
    (hr : Readable held s 130) (hG : G (.diskWrite 130)) (hb : InData b) :
    Sat (bitmapFreeBlock b) s G (fun _ s' => Unset held s 130 (b - 131) s') E := by
  rw [inData_iff] at hb
  unfold bitmapFreeBlock
  rw [sat_bind, sat_state, hsb, if_neg (by change ¬ b < 131; omega)]
  exact bitmapUnset_sat hs hr hG (by change b - 131 < 8192; omega)

theorem bitmapFreeInode_sat (hs : CacheInv held s) (hsb : s.sb = Mkfs.sb)
    (hr : Readable held s 1) (hG : G (.diskWrite 1)) (hn : n < 8192) :
    Sat (bitmapFreeInode n) s G (fun _ s' => Unset held s 1 n s') E := by
  unfold bitmapFreeInode
  rw [sat_bind, sat_state, hsb]
  exact bitmapUnset_sat hs hr hG hn

/-! ## Reading and writing an inode -/

theorem inodeRw_write_sat (hs : CacheInv held s)
    (hb : inodeBlock s.sb (s.icache ip).inodeNum = b) (hr : Readable held s b)
    (hG : G (.diskWrite b)) :
    Sat (inodeRw ip true) s G
      (fun _ => Stored held s b (splice (s.view b) (inodeOffset (s.icache ip).inodeNum)
        (s.icache ip).toDiskInode.encode inodeDiskSize)) E := by
  unfold inodeRw
  simp only [sat_bind, sat_inodeOf, sat_state, hb]
  refine (bufRead_sat hs hr.used hr.free hr.room).imp fun i s₁ p => ?_
  simp only [sat_bufData, p.data, if_true]
  have hstore := p.store_sat (d := splice (s.view b) (inodeOffset (s.icache ip).inodeNum)
    (s.icache ip).toDiskInode.encode inodeDiskSize) (k := pure) (E := E) hs hr.used hG
    fun s' st => (sat_pure (Q := fun _ => Stored held s b (splice (s.view b)
      (inodeOffset (s.icache ip).inodeNum) (s.icache ip).toDiskInode.encode inodeDiskSize))
      ()).mpr st
  simpa only [sat_bind, sat_pure] using hstore

theorem inodeRw_read_sat (hs : CacheInv held s)
    (hb : inodeBlock s.sb (s.icache ip).inodeNum = b) (hr : Readable held s b) :
    Sat (inodeRw ip false) s G
      (fun _ => Loaded held (s.setInode ip { s.icache ip with
        toDiskInode := .decode (s.view b) (inodeOffset (s.icache ip).inodeNum) })) E := by
  unfold inodeRw
  simp only [sat_bind, sat_inodeOf, sat_state, hb]
  refine (bufRead_sat hs hr.used hr.free hr.room).imp fun i s₁ p => ?_
  have hic : s₁.icache = s.icache := by rw [p.eq]
  simp only [sat_bufData, p.data, Bool.false_eq_true, if_false, sat_bind, sat_modifyInode, hic]
  have q : ReadPost held (s.setInode ip _) b i (s₁.setInode ip _) := p.setInode { s.icache ip with
    toDiskInode := .decode (s.view b) (inodeOffset (s.icache ip).inodeNum) }
  exact (bufRelease_sat q.inv q.fresh).imp fun _ s' r => q.loaded (hs.setInode _) r

/-! ## Handles -/

inductive Handed (s : State) (n : Nat) : Slot → State → Prop where
  | hit {ip : Slot} (num : (s.icache ip).inodeNum = n) :
      Handed s n ip (s.setInode ip { s.icache ip with ref := (s.icache ip).ref + 1 })
  | recycled {ip : Slot} (miss : ∀ j, (s.icache j).inodeNum ≠ n) (free : (s.icache ip).ref = 0) :
      Handed s n ip (s.setInode ip { s.icache ip with inodeNum := n, ref := 1, valid := false })

theorem find_slot_some {p : Slot → Bool} (h : (List.finRange nInode).find? p = some ip) :
    p ip = true := List.find?_some h

theorem find_slot_none {p : Slot → Bool} (h : (List.finRange nInode).find? p = none) (j : Slot) :
    p j = false := by
  have hj := (List.find?_eq_none.mp h) j (List.mem_finRange j)
  simpa using hj

theorem inodeAlloc_sat (hl : s.locks .icache = false)
    (hE : (∀ j, (s.icache j).ref ≠ 0) → E .inodeAllocNoInodes) :
    Sat (inodeAlloc n) s G (Handed s n) E := by
  unfold inodeAlloc
  rw [sat_bind, sat_acquire hl, sat_bind, sat_state]
  dsimp only [setLock_icache]
  cases hf : (List.finRange nInode).find? fun i => (s.icache i).inodeNum = n with
  | some ip =>
      simp only [sat_bind, sat_modifyInode, setInode_setLock, setLock_icache]
      rw [sat_release (by simp), sat_pure, setLock_setLock,
        setLock_self (show (s.setInode ip _).locks .icache = false from hl)]
      exact .hit (by simpa using find_slot_some hf)
  | none =>
      dsimp only
      cases hr : (List.finRange nInode).find? fun i => (s.icache i).ref = 0 with
      | none =>
          rw [sat_bind, sat_release (by simp), sat_panic]
          exact hE fun j => by simpa using find_slot_none hr j
      | some ip =>
          simp only [sat_bind, sat_modifyInode, setInode_setLock, setLock_icache]
          rw [sat_release (by simp), sat_pure, setLock_setLock,
        setLock_self (show (s.setInode ip _).locks .icache = false from hl)]
          exact .recycled (fun j => by simpa using find_slot_none hf j)
            (by simpa using find_slot_some hr)

theorem inodeDup_sat (hl : s.locks .icache = false) {Q : Slot → State → Prop} :
    Sat (inodeDup ip) s G Q E ↔
      Q ip (s.setInode ip { s.icache ip with ref := (s.icache ip).ref + 1 }) := by
  unfold inodeDup
  rw [sat_bind, sat_acquire hl, sat_bind, sat_modifyInode, setInode_setLock, sat_bind,
    sat_release (by simp), sat_pure, setLock_setLock, setLock_icache,
    setLock_self (show (s.setInode ip _).locks .icache = false from hl)]

/-- Locking a loaded inode only takes the lock. -/
theorem inodeLock_valid {Q : Unit → State → Prop} (hl : s.locks (.inode ip) = false)
    (hv : (s.icache ip).valid = true) :
    Sat (inodeLock ip) s G Q E ↔
      Q () (s.setLock (.inode ip) true) := by
  unfold inodeLock
  rw [sat_bind, sat_acquire hl, sat_bind, sat_inodeOf]
  simp [hv]

theorem Loaded.setInode {s' : State} (h : Loaded held s s') (x : Inode) :
    Loaded held (s.setInode ip x) (s'.setInode ip x) := by
  refine ⟨?_, h.evolves.inv.setInode x, h.evolves.held, h.evolves.disk, h.evolves.view⟩
  rw [setInode_toCore, setInode_toCore, h.core]

/-- Locking an inode that is not loaded reads it from disk. -/
theorem inodeLock_load (hs : CacheInv held s)
    (hl : s.locks (.inode ip) = false) (hv : (s.icache ip).valid = false)
    (hb : inodeBlock s.sb (s.icache ip).inodeNum = b) (hr : Readable held s b) :
    Sat (inodeLock ip) s G (fun _ => Loaded held
      ((s.setInode ip { s.icache ip with
          toDiskInode := .decode (s.view b) (inodeOffset (s.icache ip).inodeNum)
          valid := true }).setLock (.inode ip) true)) E := by
  unfold inodeLock
  rw [sat_bind, sat_acquire hl, sat_bind, sat_inodeOf]
  simp only [setLock_icache, hv, Bool.not_false, if_true, sat_bind]
  have hs' : CacheInv held (s.setLock (.inode ip) true) := hs.setLock (by simp) (by simp) true
  refine (inodeRw_read_sat hs' hb ⟨hr.used, hr.free, hr.room⟩).imp fun _ s' hld => ?_
  rw [sat_modifyInode]
  have hic : s'.icache ip = { s.icache ip with
      toDiskInode := .decode (s.view b) (inodeOffset (s.icache ip).inodeNum) } := by
    rw [hld.core]
    simp
  have hset : Loaded held (State.setInode _ ip _) (s'.setInode ip _) :=
    hld.setInode { s'.icache ip with valid := true }
  rw [hic] at hset ⊢
  simpa using hset

end

end WhuOs.Fs
