import WhuOs.Fs.FileData

/-! # `inode_write_data` and the ownership invariant

The copy loop keeps `TreeInv` round by round; the size update writes the inode's
own slot. Together they give the conditional triple of a whole write.
-/

namespace WhuOs.Fs

open Prog Bytes Bits PtrTree

section

variable {A : Nat → Prop} {s s' : State} {n : Nat} {ip : Slot} {G H : Event → Prop} {src : Bytes}

theorem writeLoop_on (hH : H (.diskWrite 130)) (hH' : ∀ c d, H (.newIndex c d)) (hn : A n)
    (fuel : Nat) : ∀ {s : State} {offset total len : Nat}, Careful G s → TreeInv A [] s →
    Opened s n ip →
    (∀ b, MayWrite A n s b → H (.diskWrite b)) →
    SatOn (writeLoop ip src fuel offset total len) s G H
      (fun _ s' => TreeInv A [] s' ∧ Wrote A n ip s s') := by
  induction fuel with
  | zero =>
      intro s offset total len _ h _ _
      exact satOn_pure ⟨h, Wrote.refl _ _ _ _⟩
  | succ fuel ih =>
      intro s offset total len hcare h hop hW
      rw [writeLoop]
      split
      · refine writeRound_on hH hH' hn hcare h hop hW fun r s₁ s₂ f hst => ?_
        obtain ⟨ht, hw⟩ := f.stored_wrote hst
        have hall := (f.wrote h).trans hw
        exact (ih (hcare.wrote hall) ht (hall.opened hop) fun b hb => hW b (hall.mayWrite hb)).imp
          fun _ s₃ hp => ⟨hp.1, hall.trans hp.2⟩
      · exact satOn_pure ⟨h, Wrote.refl _ _ _ _⟩

/-! ## The inode's own fields -/

/-- Updating fields other than `addrs` of a loaded entry moves no block. -/
theorem blockAt_setInode (hu : UniqueSlots s) (hop : Opened s n ip) (hn : n < nInodeDisk)
    {x : Inode} (hx : x.inodeNum = n) (hv : x.valid = true) (ha : x.addrs = (s.icache ip).addrs)
    (p : Pos) : blockAt (s.setInode ip x) p = blockAt s p := by
  have hcopy := inodeCopy_setInode hu hop hn hx hv p.ino
  have haddrs : (inodeCopy (s.setInode ip x) p.ino).addrs = (inodeCopy s p.ino).addrs := by
    rw [hcopy]
    split
    · next hp => rw [hp, inodeCopy_slot hu hop.valid hop.num hn, ha]
    · rfl
  rw [blockAt, haddrs]
  rfl

theorem UniqueSlots.setInode (hu : UniqueSlots s) {x : Inode}
    (hx : x.inodeNum = (s.icache ip).inodeNum) : UniqueSlots (s.setInode ip x) := by
  have keep : ∀ j, ((s.setInode ip x).icache j).inodeNum = (s.icache j).inodeNum := by
    intro j
    by_cases hj : j = ip <;> simp [hj, hx]
  intro j k
  rw [keep, keep]
  exact hu j k

theorem TreeInv.setInode {held : List BufId} (h : TreeInv A held s) (hop : Opened s n ip)
    (hn : n < nInodeDisk) {x : Inode} (hx : x.inodeNum = n) (hv : x.valid = true)
    (ha : x.addrs = (s.icache ip).addrs) : TreeInv A held (s.setInode ip x) := by
  have hlost : Lost A s (s.setInode ip x) := fun p _ =>
    Or.inl (blockAt_setInode h.uniq hop hn hx hv ha p)
  exact ⟨⟨h.store.sb, h.store.cache.setInode _, h.store.settled, h.store.kept⟩,
    h.uniq.setInode (hx.trans hop.num.symm), h.owned.lost hlost,
    h.marked.lost hlost fun _ _ _ hb => hb⟩

/-- Writing the slot of an inode with a loaded entry leaves the working copies alone. -/
theorem inodeCopy_own_write (hop : Opened s n ip) (hi : s'.icache = s.icache)
    (hd : ∀ m, m < nInodeDisk → m ≠ n → inoAt s'.disk m = inoAt s.disk m) {m : Nat}
    (hm : m < nInodeDisk) : inodeCopy s' m = inodeCopy s m := by
  unfold inodeCopy
  rw [hi]
  cases hf : (List.finRange nInode).find? fun ip =>
      (s.icache ip).inodeNum = m && (s.icache ip).valid with
  | some j => rfl
  | none =>
      have hne : m ≠ n := fun he => by
        have h0 := find_slot_none hf ip
        simp [hop.num, hop.valid, he] at h0
      exact hd m hm hne

/-- The disk after `inode_rw` wrote the slot of inode `n`. -/
theorem StoreInv.slot_disk {held : List BufId} (h : StoreInv held s) (hn : n < nInodeDisk)
    {d : DiskInode} (hst : Stored held s (inodeBlock Mkfs.sb n)
      (splice (s.view (inodeBlock Mkfs.sb n)) (inodeOffset n) d.encode inodeDiskSize) s') :
    s'.disk = setIno s.disk n d := by
  have hr := inodeBlock_range hn
  rw [hst.core, setIno, h.settled _ (by omega)]

/-- `inode_rw` of a loaded entry keeps the trees. -/
theorem TreeInv.slot_stored {held : List BufId} (h : TreeInv A held s) (hop : Opened s n ip)
    (hn : n < nInodeDisk) {d : DiskInode} (hst : Stored held s (inodeBlock Mkfs.sb n)
      (splice (s.view (inodeBlock Mkfs.sb n)) (inodeOffset n) d.encode inodeDiskSize) s') :
    TreeInv A held s' ∧ Lost A s s' := by
  have hr := inodeBlock_range hn
  have hdisk := h.store.slot_disk hn hst
  have hlost : Lost A s s' := hst.lost h.store h.owned (by omega) fun m hm =>
    inodeCopy_own_write hop (by rw [hst.core])
      (fun k hk hne => by rw [hdisk, inoAt_setIno, if_neg hne])
      (h.owned.bound m hm)
  refine ⟨⟨h.store.stored hst, ?_, h.owned.lost hlost,
    h.marked.lost hlost fun p _ _ hb => ?_⟩, hlost⟩
  · intro j k
    rw [hst.core]
    exact h.uniq j k
  · rw [hdisk, dbit_setIno hn]
    exact hb

/-- The size update of `inode_write_data`. -/
theorem resize_on {z : UInt32} (h : TreeInv A [] s) (hn : A n) (hop : Opened s n ip)
    (hH : H (.diskWrite (inodeBlock Mkfs.sb n))) :
    SatOn (inodeRw ip true) (s.setInode ip { s.icache ip with size := z }) G H
      (fun _ s' => TreeInv A [] s' ∧ Wrote A n ip s s') := by
  have hb := h.owned.bound n hn
  have hr := inodeBlock_range hb
  have hx : ({ s.icache ip with size := z } : Inode).inodeNum = n := hop.num
  have ht := h.setInode hop hb hx hop.valid rfl
  have hop' : Opened (s.setInode ip { s.icache ip with size := z }) n ip :=
    ⟨by simpa using hop.num, by simpa using hop.valid⟩
  have hu : inodeBlock Mkfs.sb n ≠ blockNumUnused := by unfold blockNumUnused; omega
  refine (inodeRw_write_sat (b := inodeBlock Mkfs.sb n) (E := fun _ => False) ht.store.cache ?_
    ⟨hu, by simp, by simp⟩ hH).on.imp fun _ s' hst => ?_
  · rw [ht.store.sb, hop'.num]
  rw [hop'.num] at hst
  obtain ⟨ht', hlost⟩ := ht.slot_stored hop' hb hst
  have hdisk := ht.store.slot_disk hb hst
  rw [setInode_disk] at hdisk
  refine ⟨ht', by rw [hst.core]; rfl, by rw [hst.core]; rfl, by rw [hst.core]; rfl,
    ⟨(s.icache ip).addrs, z, by rw [hst.core]; rfl⟩, fun j _ => by rw [hst.core]; simp,
    fun b _ hne _ => ?_,
    fun b _ hne hch => absurd (by rw [hdisk, setIno_of_ne hne]) hch, fun m hm hne => ?_,
    fun b _ hbit => ?_, fun p hp => ?_, fun he b hd hfree => ?_⟩
  · rw [hdisk, setIno_of_ne hne]
  · rw [hdisk, inoAt_setIno, if_neg hne]
  · rw [hdisk, dbit_setIno hb]
    exact hbit
  · have hsame := blockAt_setInode h.uniq hop hb hx hop.valid rfl p
    rcases hlost p hp with h1 | h1
    · exact Or.inl (h1.trans hsame)
    · exact Or.inr (Or.inl h1)
  · rw [hdisk, dbit_setIno hb] at hfree
    obtain ⟨hv, hz⟩ := he b hd hfree
    rw [inData_iff] at hd
    have hne : b ≠ inodeBlock Mkfs.sb n := by omega
    refine ⟨?_, by rw [hdisk, setIno_of_ne hne, hz]⟩
    rcases hst.evolves.view b hne with h1 | h1
    · rw [h1, setInode_view, hv]
    · rw [h1, setInode_disk, hz]

/-- Writes whose allocations succeed and whose new index blocks are empty keep the trees and
stay within what the file may touch. -/
theorem inodeWriteData_on (hcare : Careful G s) (h : TreeInv A [] s)
    (hn : A n) (hop : Opened s n ip)
    (hH : H (.diskWrite 130)) (hH' : ∀ c d, H (.newIndex c d))
    (hI : H (.diskWrite (inodeBlock Mkfs.sb n))) (hW : ∀ b, MayWrite A n s b → H (.diskWrite b))
    (offset len : Nat) :
    SatOn (inodeWriteData ip offset len src) s G H
      (fun _ s' => TreeInv A [] s' ∧ Wrote A n ip s s') := by
  unfold inodeWriteData
  split
  · exact satOn_pure ⟨h, Wrote.refl _ _ _ _⟩
  refine (writeLoop_on hH hH' hn len hcare h hop hW).bind fun q s₁ hp => ?_
  obtain ⟨ht, hw⟩ := hp
  rw [satOn_bind_of_eq (show inodeOf ip s₁ = (.ok (s₁.icache ip, s₁), []) from rfl)]
  dsimp only
  split
  · rw [satOn_bind_of_eq (show modifyInode ip (fun x => { x with size := UInt32.ofNat q.1 }) s₁ =
      (.ok ((), s₁.setInode ip { s₁.icache ip with size := UInt32.ofNat q.1 }), []) from rfl)]
    refine (resize_on ht hn (hw.opened hop) hI).bind fun _ s₂ hp₂ => satOn_pure ?_
    exact ⟨hp₂.1, hw.trans hp₂.2⟩
  · exact satOn_pure ⟨ht, hw⟩

end

end WhuOs.Fs
