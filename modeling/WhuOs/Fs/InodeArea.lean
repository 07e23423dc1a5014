import WhuOs.Fs.Primitives

/-! # Inode numbers and the inode area

The inode bitmap block has 8192 bits, the inode area of a `mkfs` image 2048 slots.
`bitmap_alloc_inode` searches the whole block, so its result lies in the area
exactly as long as one of the first 2048 bits is clear.
-/

namespace WhuOs.Fs

open Prog Bytes Bits

/-- The slot `inode_rw` computes for `n` lies in the inode area. -/
def InInodeArea (sb : SuperBlock) (n : Nat) : Prop :=
  sb.inodeStart ≤ inodeBlock sb n ∧ inodeBlock sb n < sb.inodeStart + sb.inodeBlocks ∧
    inodeOffset n + inodeDiskSize ≤ blockSize

theorem inInodeArea_iff {n : Nat} : InInodeArea Mkfs.sb n ↔ n < nInodeDisk := by
  change (2 ≤ n / 16 + 2 ∧ n / 16 + 2 < 2 + 128 ∧ n % 16 * 64 + 64 ≤ 1024) ↔ n < 2048
  omega

/-! ## Runs of the bitmap -/

inductive IbitmapOp where
  | alloc
  | free (inodeNum : Nat)

def IbitmapOp.run : IbitmapOp → FsM Unit
  | .alloc => do
      let _ ← bitmapAllocInode
  | .free inodeNum => bitmapFreeInode inodeNum

/-- States reached from a mounted image by allocating and freeing inode numbers. -/
def IbitmapReach (img : Mkfs.Image) (s : State) : Prop :=
  ∃ s₀, Mounted img s₀ ∧ Reach (fun _ _ => True) IbitmapOp.run s₀ s

structure IbitmapInv (s : State) : Prop where
  clean : Clean [] s
  sb : s.sb = Mkfs.sb
  icache : s.icache = fun _ => unusedInode
  locks : s.locks = fun _ => false

theorem Mounted.ibitmapInv {junk : Bytes} {files : List Mkfs.HostFile} {img : Mkfs.Image}
    {s : State} (hm : Mounted img s) (h : Mkfs.main junk files = some img) : IbitmapInv s := by
  obtain ⟨hc, hclean⟩ := hm.boot h
  exact ⟨hclean, by rw [hc]; rfl, by rw [hc]; rfl, by rw [hc]; rfl⟩

section

variable {s s' : State} {G : Event → Prop} {n b : Nat} {d : Block}

theorem IbitmapInv.loaded (h : IbitmapInv s) (hl : Loaded [] s s') : IbitmapInv s' := by
  refine ⟨hl.clean h.clean, ?_, ?_, ?_⟩ <;> rw [hl.core]
  · exact h.sb
  · exact h.icache
  · exact h.locks

theorem IbitmapInv.stored (h : IbitmapInv s) (hst : Stored [] s b d s') : IbitmapInv s' := by
  refine ⟨hst.clean h.clean, ?_, ?_, ?_⟩ <;> rw [hst.core]
  · exact h.sb
  · exact h.icache
  · exact h.locks

/-- A number past the bitmap block is an access outside the buffer, never a return. -/
theorem bitmapFreeInode_any (h : IbitmapInv s) :
    Sat (bitmapFreeInode n) s (fun _ => True) (fun _ s' => Unset [] s 1 n s') (fun _ => True) := by
  by_cases hn : n < 8192
  · exact bitmapFreeInode_sat h.clean.inv h.sb (readable_nil s (by decide)) trivial hn
  · unfold bitmapFreeInode bitmapUnset
    rw [sat_bind, sat_state, h.sb]
    refine (bufRead_sat h.clean.inv (by decide) (by simp) (by simp)).bind fun i s₁ p => ?_
    rw [if_pos (by unfold blockSize; omega), sat_bind, sat_panic]
    trivial

theorem IbitmapOp.run_sat (h : IbitmapInv s) (op : IbitmapOp) :
    Sat op.run s (fun _ => True) (fun _ => IbitmapInv) (fun _ => True) := by
  cases op with
  | alloc =>
      refine (bitmapAllocInode_sat h.clean.inv h.sb (readable_nil s (by decide)) trivial).bind
        fun n s' hp => ?_
      rw [sat_pure]
      cases hp with
      | found _ _ _ stored => exact h.stored stored
      | full _ loaded => exact h.loaded loaded
  | free n =>
      refine (bitmapFreeInode_any h).imp fun _ s' hp => ?_
      cases hp with
      | was _ loaded => exact h.loaded loaded
      | done _ stored => exact h.stored stored

theorem IbitmapReach.inv {junk : Bytes} {files : List Mkfs.HostFile} {img : Mkfs.Image}
    (hr : IbitmapReach img s) (h : Mkfs.main junk files = some img) : IbitmapInv s := by
  obtain ⟨s₀, hm, hrun⟩ := hr
  exact hrun.invariant (fun op _ _ hi _ hok => (op.run_sat hi).of_ok hok) (hm.ibitmapInv h)

/-! ## Where the allocated slots lie -/

/-- Every number the next allocation can return has its slot in the area. -/
def AllocInside (s : State) : Prop :=
  ∀ n s', (bitmapAllocInode s).1 = .ok (n, s') → n ≠ 0xFFFF → InInodeArea s.sb n

/-- `inode_create` only writes the inode bitmap and the inode area. -/
def CreateInside (s : State) : Prop :=
  ∀ type major minor b, Event.diskWrite b ∈ (inodeCreate type major minor s).2 →
    b = s.sb.inodeBitmapStart ∨
      (s.sb.inodeStart ≤ b ∧ b < s.sb.inodeStart + s.sb.inodeBlocks)

/-- The bitmap has a clear bit for a slot of the area, or no clear bit at all. -/
def SlotsLeft (D : Disk) : Prop :=
  (∃ n < nInodeDisk, ibit D n = false) ∨ ∀ n < 8192, ibit D n = true

theorem IbitmapInv.bit (h : IbitmapInv s) (n : Nat) : bitAt (s.view 1) n = ibit s.disk n := by
  rw [h.clean.view]
  rfl

/-- The allocator's result, read off the bitmap on disk. -/
theorem IbitmapInv.alloc_sat (h : IbitmapInv s) (hG : G (.diskWrite 1)) {E : Panic → Prop} :
    Sat bitmapAllocInode s G (fun n s' => IbitmapInv s' ∧
      ((n < 8192 ∧ ibit s.disk n = false ∧ (∀ m < n, ibit s.disk m = true) ∧
        s'.disk = setIbit s.disk n) ∨
      (n = 0xFFFF ∧ ∀ m < 8192, ibit s.disk m = true))) E := by
  refine (bitmapAllocInode_sat h.clean.inv h.sb (readable_nil s (by decide)) hG).imp
    fun n s' hp => ?_
  cases hp with
  | found lt clear below stored =>
      refine ⟨h.stored stored, Or.inl ⟨lt, ?_, ?_, ?_⟩⟩
      · rwa [← h.bit]
      · intro m hm
        rw [← h.bit]
        exact below m hm
      · rw [stored.core, setIbit, h.clean.view]
  | full all loaded =>
      refine ⟨h.loaded loaded, Or.inr ⟨rfl, fun m hm => ?_⟩⟩
      rw [← h.bit]
      exact all m hm

/-- The smallest clear bit belongs to the area if any bit of the area is clear. -/
theorem SlotsLeft.smallest {D : Disk} (h : SlotsLeft D) (hlt : n < 8192) (hclear : ibit D n = false)
    (hbelow : ∀ m < n, ibit D m = true) : n < nInodeDisk := by
  rcases h with ⟨k, hk, hkc⟩ | hall
  · by_contra hge
    have hkset := hbelow k (by omega)
    rw [hkc] at hkset
    cases hkset
  · rw [hall n hlt] at hclear
    cases hclear

theorem IbitmapInv.allocInside_iff (h : IbitmapInv s) : AllocInside s ↔ SlotsLeft s.disk := by
  obtain ⟨n, s', hok, -, hres⟩ :=
    (h.alloc_sat (G := fun _ => True) (E := fun _ => False) trivial).returns
  constructor
  · intro hin
    rcases hres with ⟨hlt, hclear, -, -⟩ | ⟨-, hall⟩
    · have harea := hin n s' hok (by omega)
      rw [h.sb, inInodeArea_iff] at harea
      exact Or.inl ⟨n, harea, hclear⟩
    · exact Or.inr hall
  · intro hleft m s'' hok' hne
    rw [hok] at hok'
    cases hok'
    rw [h.sb, inInodeArea_iff]
    rcases hres with ⟨hlt, hclear, hbelow, -⟩ | ⟨hff, -⟩
    · exact hleft.smallest hlt hclear hbelow
    · exact absurd hff hne

/-- The events `inode_create` may have when its slot lies in the area. -/
def InodeWrite (e : Event) : Prop := ∀ b, e = .diskWrite b → b = 1 ∨ (2 ≤ b ∧ b < 130)

theorem inodeCreate_events (h : IbitmapInv s) (hleft : SlotsLeft s.disk)
    (type major minor : UInt16) :
    Sat (inodeCreate type major minor) s InodeWrite (fun _ _ => True) (fun _ => True) := by
  unfold inodeCreate
  refine (h.alloc_sat (by intro b hb; cases hb; exact Or.inl rfl)).bind fun n s₁ hp => ?_
  obtain ⟨h₁, hres⟩ := hp
  split
  · rw [sat_pure]
    trivial
  next hne =>
  have hn : n < nInodeDisk := by
    rcases hres with ⟨hlt, hclear, hbelow, -⟩ | ⟨hff, -⟩
    · exact hleft.smallest hlt hclear hbelow
    · exact absurd hff hne
  refine (inodeAlloc_sat (by rw [h₁.locks]) fun _ => trivial).bind fun ip s₂ hd => ?_
  obtain ⟨x, rfl, hx⟩ : ∃ x, s₂ = s₁.setInode ip x ∧ x.inodeNum = n := by
    cases hd with
    | hit num => exact ⟨_, rfl, num⟩
    | recycled _ _ => exact ⟨_, rfl, rfl⟩
  have hblk := inodeBlock_range hn
  rw [sat_bind, sat_acquire (by rw [setInode_locks, h₁.locks]), sat_bind, sat_modifyInode]
  have hinv : CacheInv [] ((s₁.setInode ip x).setLock (.inode ip) true) :=
    (h₁.clean.inv.setInode x).setLock (by simp) (by simp) true
  refine (inodeRw_write_sat (b := inodeBlock Mkfs.sb n) (hinv.setInode _) ?_ ?_ ?_).bind
    fun _ s₃ st => ?_
  · simp [hx, h₁.sb]
  · exact readable_nil _ (by unfold blockNumUnused; omega)
  · intro b hb
    cases hb
    exact Or.inr hblk
  · rw [sat_bind, sat_release (by rw [st.core]; simp), sat_pure]
    trivial

theorem IbitmapInv.createInside (h : IbitmapInv s) (hleft : SlotsLeft s.disk) : CreateInside s := by
  intro type major minor b hb
  have hev := (inodeCreate_events h hleft type major minor).1 _ hb b rfl
  rw [h.sb]
  exact hev

end

/-- In every state reached by bitmap operations, the next inode slot lies in the inode area
exactly if one of the area's bits is clear or the bitmap is full. -/
theorem inode_slots_inside_iff (junk : Bytes) (files : List Mkfs.HostFile) (img : Mkfs.Image)
    (h : Mkfs.main junk files = some img) (s : State) (hr : IbitmapReach img s) :
    (AllocInside s ∧ CreateInside s) ↔ SlotsLeft s.disk := by
  have hi := hr.inv h
  rw [hi.allocInside_iff]
  exact ⟨fun hp => hp.1, fun hl => ⟨hl, hi.createInside hl⟩⟩

theorem inode_slots_inside_boot :
    ∃ img s, Mkfs.main (fun _ => 0) [] = some img ∧ IbitmapReach img s ∧ SlotsLeft s.disk ∧
      AllocInside s ∧ CreateInside s := by
  have hsome : (Mkfs.main (fun _ => 0) []).isSome := by decide +kernel
  obtain ⟨img, h⟩ := Option.isSome_iff_exists.mp hsome
  obtain ⟨s, hm⟩ := exists_mounted h
  have hr : IbitmapReach img s := ⟨s, hm, .refl⟩
  have hleft : SlotsLeft s.disk := by
    refine Or.inl ⟨1, by decide, ?_⟩
    rw [(hm.boot h).1]
    exact (Mkfs.main_fresh h).inodes 1
  exact ⟨img, s, h, hr, hleft, (inode_slots_inside_iff _ _ img h s hr).mpr hleft⟩

/-! ## The numbers past the area -/

/-- Allocating `n` times from an image without files takes the numbers up to `n`. -/
theorem exists_reach_used (junk : Bytes) {img : Mkfs.Image} (h : Mkfs.main junk [] = some img)
    (n : Nat) (hn : n < 8192) : ∃ s, IbitmapReach img s ∧ ∀ m, ibit s.disk m = decide (m ≤ n) := by
  induction n with
  | zero =>
      obtain ⟨s₀, hm⟩ := exists_mounted h
      refine ⟨s₀, ⟨s₀, hm, .refl⟩, fun m => ?_⟩
      rw [(hm.boot h).1]
      exact (Mkfs.main_fresh h).inodes m
  | succ n ih =>
      obtain ⟨s, hr, hbits⟩ := ih (by omega)
      have hi := hr.inv h
      obtain ⟨k, s', hok, -, hres⟩ :=
        (hi.alloc_sat (G := fun _ => True) (E := fun _ => False) trivial).returns
      have hk : k = n + 1 ∧ s'.disk = setIbit s.disk k := by
        rcases hres with ⟨-, hclear, hbelow, hd⟩ | ⟨-, hall⟩
        · refine ⟨?_, hd⟩
          rw [hbits, decide_eq_false_iff_not] at hclear
          by_contra hne
          have hlow := hbelow (n + 1) (by omega)
          rw [hbits, decide_eq_true_eq] at hlow
          omega
        · have hlast := hall (n + 1) hn
          rw [hbits, decide_eq_true_eq] at hlast
          omega
      obtain ⟨s₀, hm, hrun⟩ := hr
      refine ⟨s', ⟨s₀, hm, hrun.tail ⟨.alloc, trivial, bind_ok hok⟩⟩, fun m => ?_⟩
      · rw [hk.2, ibit_setIbit, hbits, hk.1, ← Bool.decide_or, decide_eq_decide]
        omega

/-- After 2047 allocations on an image without files, the next number is 2048, whose slot is
the first of the data bitmap block. -/
theorem inode_slot_past_area :
    ∃ img s n s', Mkfs.main (fun _ => 0) [] = some img ∧ IbitmapReach img s ∧
      (bitmapAllocInode s).1 = .ok (n, s') ∧ n ≠ 0xFFFF ∧ ¬ InInodeArea s.sb n ∧
      inodeBlock s.sb n = s.sb.dataBitmapStart := by
  have hsome : (Mkfs.main (fun _ => 0) []).isSome := by decide +kernel
  obtain ⟨img, h⟩ := Option.isSome_iff_exists.mp hsome
  obtain ⟨s, hr, hbits⟩ := exists_reach_used _ h 2047 (by omega)
  have hi := hr.inv h
  obtain ⟨n, s', hok, -, hres⟩ :=
    (hi.alloc_sat (G := fun _ => True) (E := fun _ => False) trivial).returns
  have hn : n = 2048 := by
    rcases hres with ⟨-, hclear, hbelow, -⟩ | ⟨-, hall⟩
    · rw [hbits, decide_eq_false_iff_not] at hclear
      by_contra hne
      have hlow := hbelow 2048 (by omega)
      rw [hbits, decide_eq_true_eq] at hlow
      omega
    · have hlast := hall 2048 (by omega)
      rw [hbits, decide_eq_true_eq] at hlast
      omega
  refine ⟨img, s, n, s', h, hr, hok, by omega, ?_, ?_⟩
  · rw [hi.sb, inInodeArea_iff, nInodeDisk_eq]
    omega
  · rw [hi.sb, hn]
    rfl

end WhuOs.Fs
