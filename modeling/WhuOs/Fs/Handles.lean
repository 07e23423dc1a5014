import WhuOs.Fs.Sound

/-! # Handles on inodes

The functions of `inode.c` the path layer calls, from sound states: what each one
does to the kernel state apart from the cache, and that the state stays sound. A
release destroys the inode when it is the last one and the link count in memory is
zero; for a loaded entry that is the count on disk.
-/

namespace WhuOs.Fs

open Prog Bytes Bits PtrTree

def loadedInode (D : Disk) (x : Inode) : Inode :=
  if x.valid then x else { x with toDiskInode := inoAt D x.inodeNum, valid := true }

section

variable {s s' : State} {n m : Nat} {ip : Slot} {x : Inode} {D : Disk} {G : Event → Prop}
  {E : Panic → Prop} {Q : Unit → State → Prop}

@[simp] theorem loadedInode_num (D : Disk) (x : Inode) :
    (loadedInode D x).inodeNum = x.inodeNum := by
  unfold loadedInode
  split <;> rfl

@[simp] theorem loadedInode_ref (D : Disk) (x : Inode) : (loadedInode D x).ref = x.ref := by
  unfold loadedInode
  split <;> rfl

@[simp] theorem loadedInode_valid (D : Disk) (x : Inode) : (loadedInode D x).valid = true := by
  unfold loadedInode
  split
  · assumption
  · rfl

theorem loadedInode_of_valid (h : x.valid = true) : loadedInode D x = x := by
  rw [loadedInode, if_pos h]

theorem SlotOk.loaded (h : SlotOk D x) (hr : x.ref ≠ 0) : SlotOk D (loadedInode D x) := by
  by_cases hv : x.valid = true
  · rw [loadedInode_of_valid hv]
    exact h
  · rw [loadedInode, if_neg hv]
    refine ⟨Or.inr (h.live (Or.inl hr)), fun _ => .refl _, ?_⟩
    rintro (h0 | h0)
    · exact absurd h0 hr
    · cases h0

/-! ## Handing out -/

/-- A new reference count. Only a linked or an unloaded entry may lose its last reference. -/
theorem Sound.setRef (h : Sound s)
    (hl : (s.icache ip).inodeNum < nInodeDisk ∧ ibit s.disk (s.icache ip).inodeNum = true) {r : Nat}
    (hz : r = 0 → (s.icache ip).nlink ≠ 0 ∨ (s.icache ip).valid = false) :
    Sound (s.setInode ip { s.icache ip with ref := r }) := by
  have hok := h.slot ip
  refine h.setSlot ⟨Or.inr hl, hok.agree, ?_⟩ (h.tree.uniq.setInode rfl) fun hv i => ?_
  · rintro (h0 | h0) hn
    · exact hok.stale (Or.inr ((hz h0).resolve_left (not_not.mpr hn))) hn
    · exact hok.stale (Or.inr h0) hn
  · exact congrArg (fun y : DiskInode => y.addrs i)
      (inodeCopy_slot h.tree.uniq hv rfl (hok.live (Or.inr hv)).1).symm

/-- What `inode_alloc` does, whether the inode was cached or not. -/
structure Alloced (s : State) (n : Nat) (ip : Slot) (s' : State) : Prop where
  sound : Sound s'
  eq : s' = s.setInode ip (s'.icache ip)
  num : (s'.icache ip).inodeNum = n
  ref : (s'.icache ip).ref = (s.icache ip).ref + 1
  fields : (s'.icache ip).toDiskInode = (s.icache ip).toDiskInode
  held : (s.icache ip).ref ≠ 0 →
    (s.icache ip).inodeNum = n ∧ (s'.icache ip).valid = (s.icache ip).valid
  valid : (s'.icache ip).valid = true → (s.icache ip).inodeNum = n ∧ (s.icache ip).valid = true

theorem inodeAlloc_sound (h : Sound s) (hl : s.locks .icache = false) (hn : n < nInodeDisk)
    (hlive : ibit s.disk n = true) (hE : (∀ j, (s.icache j).ref ≠ 0) → E .inodeAllocNoInodes) :
    Sat (inodeAlloc n) s G (Alloced s n) E := by
  refine (inodeAlloc_sat hl hE).imp fun ip s' hd => ?_
  cases hd with
  | hit num =>
      have hs : Sound (s.setInode ip { s.icache ip with ref := (s.icache ip).ref + 1 }) :=
        h.setRef (by rw [num]; exact ⟨hn, hlive⟩) (by omega)
      exact ⟨hs, by simp, by simpa using num, by simp, by simp, fun _ => ⟨num, by simp⟩,
        fun hv => ⟨num, by simpa using hv⟩⟩
  | recycled miss free =>
      have hs : Sound
        (s.setInode ip { s.icache ip with inodeNum := n, ref := 1, valid := false }) := by
        refine h.setSlot ⟨Or.inr ⟨hn, hlive⟩, nofun, fun _ hz => ?_⟩
          (h.tree.uniq.add rfl miss) nofun
        exact (h.slot ip).stale (Or.inl free) hz
      exact ⟨hs, by simp, by simp, by simp [free], by simp, fun h0 => absurd free h0,
        fun hv => by simp at hv⟩

/-! ## Locking -/

theorem inodeLock_sound (h : Sound s) (hl : s.locks (.inode ip) = false)
    (hr : (s.icache ip).ref ≠ 0) :
    Sat (inodeLock ip) s G (fun _ s' => Sound s' ∧ s'.toCore = { s.toCore with
      icache := Function.update s.icache ip (loadedInode s.disk (s.icache ip))
      locks := Function.update s.locks (.inode ip) true }) E := by
  have hok := h.slot ip
  obtain ⟨hn, -⟩ := hok.live (Or.inl hr)
  have hrng := inodeBlock_range hn
  by_cases hv : (s.icache ip).valid = true
  · rw [inodeLock_valid hl hv]
    refine ⟨h.setLock (by simp) (by simp) true, ?_⟩
    rw [loadedInode_of_valid hv, Function.update_eq_self]
    rfl
  · have hload : loadedInode s.disk (s.icache ip) = { s.icache ip with
        toDiskInode := inoAt s.disk (s.icache ip).inodeNum, valid := true } := by
      rw [loadedInode, if_neg hv]
    have hsound : Sound ((s.setInode ip (loadedInode s.disk (s.icache ip))).setLock
        (.inode ip) true) := by
      refine Sound.setLock
        (h.setSlot (hok.loaded hr) (h.tree.uniq.setInode (by simp)) fun _ i => ?_)
        (by simp) (by simp) true
      rw [loadedInode_num, hload, inodeCopy_disk fun j hj => ?_]
      rw [h.tree.uniq j ip hj (by omega)]
      simpa using hv
    refine (inodeLock_load (b := inodeBlock Mkfs.sb (s.icache ip).inodeNum) h.tree.store.cache hl
      (by simpa using hv) (by rw [h.tree.store.sb]) (readable_nil s ?_)).imp fun _ s' hld => ?_
    · unfold blockNumUnused
      omega
    have hview : DiskInode.decode (s.view (inodeBlock Mkfs.sb (s.icache ip).inodeNum))
        (inodeOffset (s.icache ip).inodeNum) = inoAt s.disk (s.icache ip).inodeNum := by
      rw [h.tree.store.settled _ (by omega)]
      rfl
    rw [hview, ← hload] at hld
    exact ⟨hsound.loaded hld, hld.core⟩

theorem inodeUnlock_sat (hl : s.locks (.inode ip) = true) :
    Sat (inodeUnlock ip) s G Q E ↔ Q () (s.setLock (.inode ip) false) := sat_release hl

/-! ## Releasing -/

/-- A release that is not the last one, or of a linked inode. -/
theorem inodeFree_keep (hl : s.locks .icache = false)
    (hk : 2 ≤ (s.icache ip).ref ∨ (s.icache ip).nlink ≠ 0) :
    Sat (inodeFree ip) s G Q E ↔
      Q () (s.setInode ip { s.icache ip with ref := (s.icache ip).ref - 1 }) := by
  unfold inodeFree
  rw [sat_bind, sat_acquire hl, sat_bind, sat_modifyInode, setInode_setLock, sat_bind, sat_inodeOf]
  have hno : ¬ ((s.icache ip).ref - 1 = 0 ∧ (s.icache ip).nlink = 0) := by
    rintro ⟨h0, hz⟩
    rcases hk with hk | hk
    · omega
    · exact hk hz
  simp only [setLock_icache, setInode_icache, Function.update_self, if_neg hno]
  rw [sat_release (by simp), setLock_setLock,
    setLock_self (show (s.setInode ip _).locks .icache = false from hl)]

theorem Sound.drop (h : Sound s) (hr : (s.icache ip).ref ≠ 0)
    (hk : 2 ≤ (s.icache ip).ref ∨ (s.icache ip).nlink ≠ 0) :
    Sound (s.setInode ip { s.icache ip with ref := (s.icache ip).ref - 1 }) := by
  refine h.setRef ((h.slot ip).live (Or.inl hr)) fun h0 => ?_
  rcases hk with hk | hk
  · omega
  · exact Or.inl hk

/-! ## Destroying an inode without blocks -/

theorem freeAddrs_bare (is : List (Fin 13)) (hz : ∀ i, (s.icache ip).addrs i = 0) :
    Sat (freeAddrs ip is) s G Q E ↔ Q () s := by
  induction is with
  | nil => exact sat_pure ()
  | cons i is ih =>
      rw [freeAddrs, sat_bind, freeAddr, sat_bind, sat_inodeOf]
      rw [hz i, if_neg (by simp), sat_pure]
      exact ih

/-- `inode_destroy` of an entry without blocks, loaded or not. -/
theorem inodeDestroy_bare (hs : StoreInv [] s)
    (hn : (s.icache ip).inodeNum = n) (hlt : n < nInodeDisk)
    (hz : ∀ i, (s.icache ip).addrs i = 0) (hl : s.locks (.inode ip) = false)
    (hG : ∀ b, G (.diskWrite b)) (hG' : G (.destroy n (inoAt s.disk n).nlink)) :
    Sat (inodeDestroy ip) s G (fun _ s' => StoreInv [] s' ∧ s'.toCore = { s.toCore with
      disk := clrIbit (setIno s.disk n (wiped (s.icache ip).toDiskInode)) n
      icache := Function.update s.icache ip (destroyedInode (s.icache ip)) }) E := by
  have hrng := inodeBlock_range hlt
  have hlt' := hlt
  rw [nInodeDisk_eq] at hlt'
  have hw : ({ s.icache ip with type := ftUnused, size := 0, nlink := 0 } : Inode) =
      wipedInode (s.icache ip) := by
    have ha : (s.icache ip).addrs = fun _ => 0 := funext hz
    simp only [wipedInode, wiped, ha]
  rw [inodeDestroy_eq]
  simp only [sat_bind, sat_inodeOf, sat_state, sat_emit]
  refine ⟨by rw [hn, hs.sb]; exact hG', ?_⟩
  rw [sat_acquire hl, wipe, inodeFreeData]
  simp only [sat_bind]
  rw [freeAddrs_bare _ (by simpa using hz), sat_modifyInode, sat_modifyInode]
  simp only [setLock_icache, setInode_setLock, setInode_setInode,
    setInode_icache, Function.update_self]
  rw [hw]
  -- the wiped inode goes to disk
  have hs₁ : StoreInv [] ((s.setInode ip (wipedInode (s.icache ip))).setLock (.inode ip) true) :=
    ⟨hs.sb, (hs.cache.setInode _).setLock (by simp) (by simp) true, hs.settled, hs.kept⟩
  refine (inodeRw_write_sat (b := inodeBlock Mkfs.sb n) hs₁.cache ?_
    (readable_nil _ (by unfold blockNumUnused; omega)) (hG _)).imp fun _ s₂ hst => ?_
  · rw [hs₁.sb]
    simp [hn]
  simp only [setLock_icache, setInode_icache, Function.update_self, wipedInode_num, hn] at hst
  have hd₂ := hs₁.slot_disk hlt hst
  have hs₂ := hs₁.stored hst
  have hlk₂ : s₂.locks (.inode ip) = true := by
    rw [hst.core]
    simp
  have hic₂ : s₂.icache = Function.update s.icache ip (wipedInode (s.icache ip)) := by
    rw [hst.core]
    rfl
  rw [sat_release hlk₂, setLock_icache, hic₂, Function.update_self, wipedInode_num, hn]
  have hs₃ : StoreInv [] (s₂.setLock (.inode ip) false) :=
    ⟨hs₂.sb, hs₂.cache.setLock (by simp) (by simp) false, hs₂.settled, hs₂.kept⟩
  refine (bitmapFreeInode_sat hs₃.cache hs₃.sb (readable_nil _ (by decide)) (hG _) (by omega)).imp
    fun _ s₄ hu => ?_
  rw [sat_modifyInode]
  obtain ⟨hs₄, hcore⟩ := hs₃.ibit_unset hu
  have hic₄ : s₄.icache = s₂.icache := by
    rw [hcore]
    rfl
  refine ⟨⟨hs₄.sb, hs₄.cache.setInode _, hs₄.settled, hs₄.kept⟩, ?_⟩
  apply Core.ext
  · exact hs₄.sb.trans hs.sb.symm
  · rw [setInode_disk, hcore]
    change clrIbit s₂.disk n = _
    rw [hd₂]
    rfl
  · rw [setInode_icache, hic₄, hic₂, Function.update_idem]
    simp [destroyedInode]
  · rw [setInode_locks, hcore]
    change Function.update s₂.locks (.inode ip) false = s.locks
    rw [hst.core]
    change Function.update (Function.update s.locks (.inode ip) true) (.inode ip) false = s.locks
    rw [Function.update_idem, ← hl, Function.update_eq_self]
  · have hcwd : s₄.cwd = s₂.cwd := by
      rw [hcore]
      rfl
    have hcwd₂ : s₂.cwd = s.cwd := by
      rw [hst.core]
      rfl
    exact hcwd.trans hcwd₂

/-! ## Link counts -/

/-- A loaded directory that has entries knows its block. -/
theorem Agrees.addrs_dir {y : DiskInode} (h : Agrees y (inoAt D n)) (hd : DirOk D n)
    (h0 : y.size ≠ 0) : y.addrs 0 = (inoAt D n).addrs 0 := by
  refine ((h.addrs 0).resolve_right fun hz => ?_).symm
  exact hd.block (h.size ▸ h0) (by rw [dirBlock, hz]; rfl)

end

end WhuOs.Fs
