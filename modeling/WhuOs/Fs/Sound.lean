import WhuOs.Fs.FileRuns
import WhuOs.Fs.Entries

/-! # Sound states

What the path layer relies on and keeps at every step: block trees are exclusive,
a loaded `icache` entry agrees with the disk, directories are well shaped, and
their entries name allocated inodes with a non-zero link count. One lemma says when
a new entry of the `icache` keeps a state sound; loading an inode always does.
-/

namespace WhuOs.Fs

open Prog Bytes Bits PtrTree

structure IsDir (D : Disk) (d : Nat) : Prop where
  lt : d < nInodeDisk
  live : ibit D d = true
  type : (inoAt D d).type = ftDir

instance (D : Disk) (d : Nat) : Decidable (IsDir D d) :=
  decidable_of_iff (d < nInodeDisk ∧ ibit D d = true ∧ (inoAt D d).type = ftDir)
    ⟨fun h => ⟨h.1, h.2.1, h.2.2⟩, fun h => ⟨h.lt, h.live, h.type⟩⟩

structure Linked (D : Disk) (n : Nat) : Prop where
  lt : n < nInodeDisk
  live : ibit D n = true
  nlink : (inoAt D n).nlink ≠ 0

structure DirOk (D : Disk) (d : Nat) : Prop where
  aligned : (inoAt D d).size.toNat % direntSize = 0
  small : (inoAt D d).size.toNat ≤ blockSize
  block : (inoAt D d).size ≠ 0 → dirBlock (inoAt D d) ≠ 0
  entry : ∀ k name n, ents D d k = some (name, n) → Linked D n ∧ name.length < dirNameLen

/-- A loaded entry `x` of the disk inode `y`: blocks allocated by reading or by writing
inside the file need not be on disk yet. -/
structure Agrees (x y : DiskInode) : Prop where
  type : x.type = y.type
  nlink : x.nlink = y.nlink
  size : x.size = y.size
  addrs : ∀ i, y.addrs i = x.addrs i ∨ y.addrs i = 0

/-- An `icache` entry. The fields of an unloaded or unreferenced one are left from its
previous use; when it was destroyed they hold no blocks. -/
structure SlotOk (D : Disk) (x : Inode) : Prop where
  num : (x.inodeNum = inodeNumUnused ∧ x.ref = 0 ∧ x.valid = false) ∨
    (x.inodeNum < nInodeDisk ∧ ibit D x.inodeNum = true)
  agree : x.valid = true → Agrees x.toDiskInode (inoAt D x.inodeNum)
  stale : x.ref = 0 ∨ x.valid = false → x.nlink = 0 → ∀ i, x.addrs i = 0

structure Sound (s : State) : Prop where
  tree : TreeInv (Live s) [] s
  slot : ∀ ip, SlotOk s.disk (s.icache ip)
  dir : ∀ d, IsDir s.disk d → DirOk s.disk d
  sync : ∀ d, IsDir s.disk d → (inoAt s.disk d).size ≠ 0 →
    s.view (dirBlock (inoAt s.disk d)) = s.disk (dirBlock (inoAt s.disk d))
  root : Linked s.disk inodeRoot

section

variable {A : Nat → Prop} {s s' : State} {n m b d : Nat} {ip : Slot} {x : Inode} {D D' : Disk}

theorem Agrees.refl (x : DiskInode) : Agrees x x := ⟨rfl, rfl, rfl, fun _ => Or.inl rfl⟩

theorem unused_ge : nInodeDisk ≤ inodeNumUnused := by decide

theorem SlotOk.live (h : SlotOk D x) (hr : x.ref ≠ 0 ∨ x.valid = true) :
    x.inodeNum < nInodeDisk ∧ ibit D x.inodeNum = true := by
  rcases h.num with ⟨-, h0, hv⟩ | hl
  · rcases hr with hr | hr
    · exact absurd h0 hr
    · rw [hv] at hr
      cases hr
  · exact hl

/-! ## Block trees under changes of the `icache` -/

/-- Positions are lost with their roots. -/
theorem lost_of_roots (hroot : ∀ n, A n → ∀ i, (inodeCopy s' n).addrs i = (inodeCopy s n).addrs i ∨
    (inodeCopy s' n).addrs i = 0) (hv : ∀ b, s'.view b = s.view b) : Lost A s s' := by
  rintro ⟨n, i, ks⟩ hp
  have hptr : ptr s' = ptr s := by
    funext b k
    rw [ptr, hv b]
    rfl
  rcases hroot n hp.ino i with hr | hr
  · left
    rw [blockAt, hptr, hr]
    rfl
  · right
    rw [blockAt, hr]
    exact follow_null ks

/-- The working copies after one entry of the `icache` was replaced. -/
theorem inodeCopy_replaced (hu : UniqueSlots s) (hu' : UniqueSlots (s.setInode ip x))
    (hm : m < nInodeDisk) (hx : ¬ (x.inodeNum = m ∧ x.valid = true)) :
    inodeCopy (s.setInode ip x) m =
      if (s.icache ip).inodeNum = m then inoAt s.disk m else inodeCopy s m := by
  split
  · next hs =>
    refine inodeCopy_disk fun j hj => ?_
    by_cases hji : j = ip
    · subst hji
      simp only [setInode_icache, Function.update_self] at hj ⊢
      simpa using fun hv => hx ⟨hj, hv⟩
    · simp only [setInode_icache, Function.update_of_ne hji] at hj
      exact absurd (hu j ip (hj.trans hs.symm) (by omega)) hji
  · next hs =>
    by_cases hxm : x.inodeNum = m
    · -- the new entry is not loaded and no other one carries its number
      have hno : ∀ j, (s.icache j).inodeNum ≠ m := by
        intro j hj
        have hji : j ≠ ip := fun he => hs (he ▸ hj)
        refine hji (hu' j ip ?_ ?_)
        · simp [hji, hj, hxm]
        · simp [hji, hj, hm]
      rw [inodeCopy_disk (s := s) fun j hj => absurd hj (hno j)]
      refine inodeCopy_disk fun j hj => ?_
      by_cases hji : j = ip
      · subst hji
        simp only [setInode_icache, Function.update_self]
        simpa using fun hv => hx ⟨hxm, hv⟩
      · simp only [setInode_icache, Function.update_of_ne hji] at hj
        exact absurd hj (hno j)
    · exact inodeCopy_setInode_other hs hxm

/-- Replacing an entry of the `icache`: the entry that goes agreed with the disk, and the one
that comes brings no new blocks. -/
theorem TreeInv.setSlot (h : TreeInv A [] s) (hu : UniqueSlots (s.setInode ip x))
    (hold : (s.icache ip).valid = true → ∀ i,
      (inoAt s.disk (s.icache ip).inodeNum).addrs i = (s.icache ip).addrs i ∨
        (inoAt s.disk (s.icache ip).inodeNum).addrs i = 0)
    (hnew : x.valid = true → A x.inodeNum → ∀ i,
      x.addrs i = (inodeCopy s x.inodeNum).addrs i ∨ x.addrs i = 0) :
    TreeInv A [] (s.setInode ip x) := by
  have hlost : Lost A s (s.setInode ip x) := by
    refine lost_of_roots (fun m hm i => ?_) fun b => rfl
    have hb := h.owned.bound m hm
    by_cases hx : x.inodeNum = m ∧ x.valid = true
    · obtain ⟨rfl, hv⟩ := hx
      have hv' : ((s.setInode ip x).icache ip).valid = true := by simpa using hv
      rw [inodeCopy_slot hu hv' (by simp) hb]
      simpa using hnew hv hm i
    · rw [inodeCopy_replaced h.uniq hu hb hx]
      split
      · next hs =>
        by_cases hv : (s.icache ip).valid = true
        · rw [inodeCopy_slot h.uniq hv hs hb, ← hs]
          exact hold hv i
        · left
          rw [inodeCopy_disk fun j hj => ?_]
          rw [h.uniq j ip (hj.trans hs.symm) (by omega)]
          simpa using hv
      · exact Or.inl rfl
  exact ⟨⟨h.store.sb, h.store.cache.setInode _, h.store.settled, h.store.kept⟩, hu,
    h.owned.lost hlost, h.marked.lost hlost fun _ _ _ hb => hb⟩

/-! ## Sound states under changes of the `icache` and the cache -/

theorem Sound.setSlot (h : Sound s) (hx : SlotOk s.disk x) (hu : UniqueSlots (s.setInode ip x))
    (hnew : x.valid = true → ∀ i, x.addrs i = (inodeCopy s x.inodeNum).addrs i) :
    Sound (s.setInode ip x) := by
  refine ⟨h.tree.setSlot hu (fun hv => ((h.slot ip).agree hv).addrs)
    fun hv _ i => Or.inl (hnew hv i),
    fun j => ?_, h.dir, h.sync, h.root⟩
  by_cases hj : j = ip
  · subst hj
    simpa using hx
  · simpa [hj] using h.slot j

theorem Sound.setLock (h : Sound s) {lk : Lock} (hb : ∀ j, lk ≠ .buf j) (hc : lk ≠ .bufCache)
    (v : Bool) : Sound (s.setLock lk v) :=
  ⟨h.tree.setLock hb hc v, h.slot, h.dir, h.sync, h.root⟩

theorem Sound.loaded (h : Sound s) (hl : Loaded [] s s') : Sound s' := by
  have hd : s'.disk = s.disk := by rw [hl.core]
  have hlive : Live s' = Live s := Live.congr (by rw [hd])
  refine ⟨by rw [hlive]; exact h.tree.loaded hl, fun j => ?_, fun d hd' => ?_, fun d hd' h0 => ?_, ?_⟩
  · rw [hl.core]
    exact h.slot j
  · rw [hd] at hd' ⊢
    exact h.dir d hd'
  · refine hl.evolves.synced id ?_
    rw [hd] at hd' h0 ⊢
    exact h.sync d hd' h0
  · rw [hd]
    exact h.root

/-! ## Blocks of directories -/

theorem Sound.copy_addrs (h : Sound s) (hn : n < nInodeDisk) {i : Fin 13}
    (hne : (inoAt s.disk n).addrs i ≠ 0) : (inodeCopy s n).addrs i = (inoAt s.disk n).addrs i := by
  by_cases hc : ∃ ip, (s.icache ip).inodeNum = n ∧ (s.icache ip).valid = true
  · obtain ⟨ip, rfl, hv⟩ := hc
    rw [inodeCopy_slot h.tree.uniq hv rfl hn]
    exact ((((h.slot ip).agree hv).addrs i).resolve_right hne).symm
  · rw [inodeCopy_disk fun ip hip => ?_]
    simpa using fun hv => hc ⟨ip, hip, hv⟩

/-- The block of a directory is at its first position. -/
theorem Sound.dirBlock_at (h : Sound s) (hd : IsDir s.disk d)
    (hne : dirBlock (inoAt s.disk d) ≠ 0) :
    PosOf (Live s) ⟨d, 0, []⟩ ∧ blockAt s ⟨d, 0, []⟩ = dirBlock (inoAt s.disk d) := by
  have hne' : (inoAt s.disk d).addrs 0 ≠ 0 := fun he => hne (by rw [dirBlock, he]; rfl)
  refine ⟨⟨hd.live, by simp, by simp⟩, ?_⟩
  rw [blockAt, follow_nil, h.copy_addrs hd.lt hne']
  rfl

theorem Sound.dirBlock_data (h : Sound s) (hd : IsDir s.disk d)
    (hne : dirBlock (inoAt s.disk d) ≠ 0) : InData (dirBlock (inoAt s.disk d)) := by
  obtain ⟨hp, hb⟩ := h.dirBlock_at hd hne
  rw [← hb] at hne ⊢
  exact h.tree.owned.area _ hp hne

end

end WhuOs.Fs
