import WhuOs.Mkfs

/-! # The disk as a volume

The layout `mkfs` writes: super block 0, inode bitmap 1, inode blocks 2..129, data
bitmap 130 and data blocks 131..8322. The observers `inoAt`, `ibit` and `dbit`
read a disk under this layout; each update below changes one observer at one
place and leaves the others alone.
-/

namespace WhuOs.Fs

open Bytes Bits

abbrev Disk := Nat → Block

def nInodeDisk : Nat := Mkfs.nInodeBlock * inodePerBlock

def InData (b : Nat) : Prop := Mkfs.sb.dataStart ≤ b ∧ b < Mkfs.sb.dataStart + Mkfs.sb.dataBlocks

instance (b : Nat) : Decidable (InData b) := inferInstanceAs (Decidable (_ ∧ _))

def inoAt (D : Disk) (n : Nat) : DiskInode := diskInode Mkfs.sb D n

def ibit (D : Disk) (n : Nat) : Bool := bitAt (D Mkfs.sb.inodeBitmapStart) n

def dbit (D : Disk) (b : Nat) : Bool := bitAt (D Mkfs.sb.dataBitmapStart) (b - Mkfs.sb.dataStart)

theorem nInodeDisk_eq : nInodeDisk = 2048 := rfl

theorem inData_iff {b : Nat} : InData b ↔ 131 ≤ b ∧ b < 8323 := Iff.rfl

theorem inodeBlock_eq (n : Nat) : inodeBlock Mkfs.sb n = n / 16 + 2 := rfl

theorem inodeOffset_eq (n : Nat) : inodeOffset n = n % 16 * 64 := rfl

theorem inodeBlock_range {n : Nat} (h : n < nInodeDisk) :
    2 ≤ inodeBlock Mkfs.sb n ∧ inodeBlock Mkfs.sb n < 130 := by
  rw [nInodeDisk_eq] at h
  rw [inodeBlock_eq]
  omega

/-! ## Updates -/

def setIno (D : Disk) (n : Nat) (d : DiskInode) : Disk :=
  Function.update D (inodeBlock Mkfs.sb n)
    (splice (D (inodeBlock Mkfs.sb n)) (inodeOffset n) d.encode inodeDiskSize)

def setIbit (D : Disk) (n : Nat) : Disk := Function.update D 1 (setBit (D 1) n)

def clrIbit (D : Disk) (n : Nat) : Disk := Function.update D 1 (clearBit (D 1) n)

def setDbit (D : Disk) (b : Nat) : Disk := Function.update D 130 (setBit (D 130) (b - 131))

def clrDbit (D : Disk) (b : Nat) : Disk := Function.update D 130 (clearBit (D 130) (b - 131))

section

variable {D : Disk} {b n m : Nat} {x : Block} {d : DiskInode}

theorem inoAt_congr {D D' : Disk} (h : D' (inodeBlock Mkfs.sb n) = D (inodeBlock Mkfs.sb n)) :
    inoAt D' n = inoAt D n := by
  rw [inoAt, diskInode, h]
  rfl

theorem inoAt_update (hm : m < nInodeDisk) (hb : b < 2 ∨ 130 ≤ b) :
    inoAt (Function.update D b x) m = inoAt D m := by
  have hr := inodeBlock_range hm
  exact inoAt_congr (Function.update_of_ne (by omega) _ _)

theorem inoAt_setIno : inoAt (setIno D n d) m = if m = n then d else inoAt D m := by
  unfold setIno
  by_cases hb : inodeBlock Mkfs.sb m = inodeBlock Mkfs.sb n
  · rw [inoAt, diskInode, hb, Function.update_self]
    by_cases hmn : m = n
    · rw [if_pos hmn, hmn]
      conv_rhs => rw [← d.decode_encode]
      apply DiskInode.decode_congr
      intro i hi
      rw [splice_in (by omega) (by unfold inodeDiskSize; omega)]
      congr 1
      omega
    · rw [if_neg hmn, inoAt, diskInode, hb]
      apply DiskInode.decode_congr
      intro i hi
      simp only [inodeBlock_eq] at hb
      apply splice_out
      simp only [inodeOffset_eq, inodeDiskSize]
      omega
  · have hmn : m ≠ n := fun h => hb (by rw [h])
    rw [if_neg hmn]
    exact inoAt_congr (Function.update_of_ne hb _ _)

theorem setIno_of_ne (h : b ≠ inodeBlock Mkfs.sb n) : setIno D n d b = D b :=
  Function.update_of_ne h _ _

theorem setIno_outside (hn : n < nInodeDisk) (h : b < 2 ∨ 130 ≤ b) : setIno D n d b = D b := by
  have hr := inodeBlock_range hn
  exact setIno_of_ne (by omega)

@[simp] theorem ibit_setIno (hn : n < nInodeDisk) : ibit (setIno D n d) m = ibit D m := by
  rw [ibit, setIno_outside hn (by decide)]
  rfl

@[simp] theorem dbit_setIno (hn : n < nInodeDisk) : dbit (setIno D n d) b = dbit D b := by
  rw [dbit, setIno_outside hn (by decide)]
  rfl

theorem ibit_update (h : b ≠ 1) : ibit (Function.update D b x) m = ibit D m := by
  have hd : Function.update D b x 1 = D 1 := Function.update_of_ne (Ne.symm h) _ _
  exact congrArg (bitAt · m) hd

theorem dbit_update (h : b ≠ 130) : dbit (Function.update D b x) m = dbit D m := by
  have hd : Function.update D b x 130 = D 130 := Function.update_of_ne (Ne.symm h) _ _
  exact congrArg (bitAt · (m - 131)) hd

theorem ibit_setIbit : ibit (setIbit D n) m = (decide (m = n) || ibit D m) := bitAt_setBit _ _ _

theorem ibit_clrIbit : ibit (clrIbit D n) m = (decide (m ≠ n) && ibit D m) := bitAt_clearBit _ _ _

theorem dbit_setDbit (hb : InData b) (hm : InData m) :
    dbit (setDbit D b) m = (decide (m = b) || dbit D m) := by
  rw [inData_iff] at hb hm
  have heq : decide (m - 131 = b - 131) = decide (m = b) := by
    rw [decide_eq_decide]
    omega
  have hbit := bitAt_setBit (D 130) (b - 131) (m - 131)
  rw [heq] at hbit
  exact hbit

theorem dbit_clrDbit (hb : InData b) (hm : InData m) :
    dbit (clrDbit D b) m = (decide (m ≠ b) && dbit D m) := by
  rw [inData_iff] at hb hm
  have heq : decide (m - 131 ≠ b - 131) = decide (m ≠ b) := by
    rw [decide_eq_decide]
    omega
  have hbit := bitAt_clearBit (D 130) (b - 131) (m - 131)
  rw [heq] at hbit
  exact hbit

@[simp] theorem inoAt_setIbit (hm : m < nInodeDisk) : inoAt (setIbit D n) m = inoAt D m :=
  inoAt_update hm (Or.inl (by omega))

@[simp] theorem inoAt_clrIbit (hm : m < nInodeDisk) : inoAt (clrIbit D n) m = inoAt D m :=
  inoAt_update hm (Or.inl (by omega))

@[simp] theorem ibit_setDbit : ibit (setDbit D b) m = ibit D m := ibit_update (by omega)

@[simp] theorem ibit_clrDbit : ibit (clrDbit D b) m = ibit D m := ibit_update (by omega)

@[simp] theorem dbit_setIbit : dbit (setIbit D n) m = dbit D m := dbit_update (by omega)

@[simp] theorem dbit_clrIbit : dbit (clrIbit D n) m = dbit D m := dbit_update (by omega)

theorem setIbit_of_ne (h : b ≠ 1) : setIbit D n b = D b := Function.update_of_ne h _ _

theorem setDbit_of_ne (h : b ≠ 130) : setDbit D m b = D b := Function.update_of_ne h _ _

end

end WhuOs.Fs
