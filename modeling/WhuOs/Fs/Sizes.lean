import WhuOs.Fs.Balance

/-! # Sizes of inodes

A transfer that returns ends within the size of the inode, however its length
wraps around, and no call on handles or directories makes a referenced inode
smaller, unless `inode_create` gets its number from the inode bitmap. This holds
whatever is on disk.
-/

namespace WhuOs.Fs

open Prog

/-! ## Lengths of transfers -/

section

variable {s : State} {ip : Slot}

theorem inodeLocateBlock_bound (ip : Slot) (bn : Nat) (s : State) :
    Sat (inodeLocateBlock ip bn) s (fun _ => True)
      (fun _ _ => (bn + 1) * blockSize ≤ inodeMaxSize) fun _ => True := by
  unfold inodeLocateBlock inodeMaxSize blockSize nAddrs1 nAddrs2 nAddrs3 entryPerBlock
  split
  · exact ((locateBlock_keeps _ _ _ _).sat s).imp fun _ _ _ => by omega
  · dsimp only
    split
    · exact ((locateBlock_keeps _ _ _ _).sat s).imp fun _ _ _ => by omega
    · split
      · exact ((locateBlock_keeps _ _ _ _).sat s).imp fun _ _ _ => by omega
      · exact (sat_panic _).mpr trivial

/-- One round of a copy loop: it stays in its block, so the offset does not wrap around. -/
theorem chunk_bound {offset rest : Nat} (hrest : 0 < rest)
    (hb : (offset / blockSize + 1) * blockSize ≤ inodeMaxSize) :
    let m := min (blockSize - offset % blockSize) rest
    0 < m ∧ m ≤ rest ∧ offset + m ≤ inodeMaxSize ∧ u32 (offset + m) = offset + m := by
  unfold u32
  simp only [inodeMaxSize, blockSize, nAddrs1, nAddrs2, nAddrs3, entryPerBlock] at hb ⊢
  omega

theorem readLoop_total (ip : Slot) (fuel offset total len : Nat) (dst : Bytes) (s : State)
    (hfuel : len ≤ total + fuel) (htotal : total ≤ len) :
    Sat (readLoop ip fuel offset total len dst) s (fun _ => True)
      (fun r _ => r.1 = len ∧ (total < len → offset + (len - total) ≤ inodeMaxSize))
      fun _ => True := by
  induction fuel generalizing offset total dst s with
  | zero =>
      refine (sat_pure _).mpr ⟨?_, fun h => ?_⟩
      · dsimp only
        omega
      · omega
  | succ fuel ih =>
      unfold readLoop
      split
      · next hlt =>
        refine (inodeLocateBlock_bound ip _ s).bind fun b s₁ hb => ?_
        obtain ⟨hpos, hle, hmax, hwrap⟩ := chunk_bound (Nat.sub_pos_of_lt hlt) hb
        refine ((bufRead_keeps b).sat s₁).bind fun buf s₂ _ => ?_
        rw [sat_bind, sat_bufData]
        refine ((bufRelease_keeps buf).sat s₂).bind fun _ s₄ _ => ?_
        rw [hwrap]
        refine (ih _ _ _ s₄ (by omega) (by omega)).imp fun r _ hr => ⟨hr.1, fun _ => ?_⟩
        by_cases hrest : total + min (blockSize - offset % blockSize) (len - total) < len
        · have hend := hr.2 hrest
          omega
        · omega
      · exact (sat_pure _).mpr ⟨by dsimp only; omega, fun h => absurd h ‹_›⟩

theorem writeLoop_total (ip : Slot) (src : Bytes) (fuel offset total len : Nat) (s : State)
    (hfuel : len ≤ total + fuel) (htotal : total ≤ len) :
    Sat (writeLoop ip src fuel offset total len) s (fun _ => True)
      (fun r _ => r = (offset + (len - total), len) ∧
        (total < len → offset + (len - total) ≤ inodeMaxSize))
      fun _ => True := by
  induction fuel generalizing offset total s with
  | zero =>
      have heq : total = len := by omega
      refine (sat_pure _).mpr ⟨?_, fun h => ?_⟩
      · rw [heq, Nat.sub_self, Nat.add_zero]
      · omega
  | succ fuel ih =>
      unfold writeLoop
      split
      · next hlt =>
        refine (inodeLocateBlock_bound ip _ s).bind fun b s₁ hb => ?_
        obtain ⟨hpos, hle, hmax, hwrap⟩ := chunk_bound (Nat.sub_pos_of_lt hlt) hb
        refine ((bufRead_keeps b).sat s₁).bind fun buf s₂ _ => ?_
        rw [sat_bind, sat_bufData]
        refine ((setBufData_keeps buf _).sat s₂).bind fun _ s₄ _ => ?_
        refine ((bufWrite_keeps buf).sat s₄).bind fun _ s₅ _ => ?_
        refine ((bufRelease_keeps buf).sat s₅).bind fun _ s₆ _ => ?_
        rw [hwrap]
        refine (ih _ _ s₆ (by omega) (by omega)).imp fun r _ hr => ⟨?_, fun _ => ?_⟩
        · rw [hr.1]
          exact Prod.ext (by dsimp only; omega) rfl
        · by_cases hrest : total + min (blockSize - offset % blockSize) (len - total) < len
          · have hend := hr.2 hrest
            omega
          · omega
      · have heq : total = len := by omega
        refine (sat_pure _).mpr ⟨?_, fun h => absurd h ‹_›⟩
        rw [heq, Nat.sub_self, Nat.add_zero]

theorem u32_of_le {n : Nat} (h : n ≤ inodeMaxSize) : u32 n = n :=
  Nat.mod_eq_of_lt (Nat.lt_of_le_of_lt h (by decide))

/-- A read that returns ends within the size. -/
theorem inodeReadData_any (ip : Slot) (offset len : Nat) (dst : Bytes) (s : State)
    (hoff : offset ≤ (s.icache ip).size.toNat) :
    Sat (inodeReadData ip offset len dst) s (fun _ => True)
      (fun r s' => bare s' = bare s ∧ offset + r.1 ≤ (s.icache ip).size.toNat) fun _ => True := by
  unfold inodeReadData
  rw [sat_bind, sat_inodeOf]
  dsimp only
  rw [if_neg (by omega)]
  split
  · next hcut =>
    refine (readLoop_total ip _ _ _ _ dst s (by omega) (Nat.zero_le _)).run.imp fun r s' hr => ?_
    refine ⟨(readLoop_keeps ip _ _ _ _ _).of_ok hr.2, ?_⟩
    rw [hr.1.1]
    omega
  · next hcut =>
    refine (readLoop_total ip _ _ _ _ dst s (by omega) (Nat.zero_le _)).run.imp fun r s' hr => ?_
    refine ⟨(readLoop_keeps ip _ _ _ _ _).of_ok hr.2, ?_⟩
    rw [hr.1.1]
    rcases Nat.eq_zero_or_pos len with hz | hpos
    · omega
    · have hmax := hr.1.2 hpos
      rw [Nat.sub_zero] at hmax
      rw [u32_of_le hmax] at hcut
      omega

def withSize (s : State) (ip : Slot) (v : UInt32) : State :=
  s.setInode ip { s.icache ip with size := v }

theorem bare_withSize_congr {s₁ : State} (h : bare s₁ = bare s) (v : UInt32) :
    bare (withSize s₁ ip v) = bare (withSize s ip v) := by
  have hrest : (bare s₁).2 = (bare s).2 := congrArg Prod.snd h
  refine Prod.ext ?_ hrest
  funext j
  have hj : bareInode (s₁.icache j) = bareInode (s.icache j) := congrFun (congrArg Prod.fst h) j
  by_cases hji : j = ip
  · subst hji
    have hsize := congrArg (fun x : Inode => { x with size := v }) hj
    simpa [bare, withSize, State.setInode, bareInode] using hsize
  · simpa [bare, withSize, State.setInode, hji] using hj

theorem withSize_self (s : State) (ip : Slot) : withSize s ip (s.icache ip).size = s := by
  unfold withSize State.setInode
  rw [show ({ s.icache ip with size := (s.icache ip).size } : Inode) = s.icache ip from rfl,
    Function.update_eq_self]

/-- A write that returns makes the inode as large as its end, if it was not. -/
theorem inodeWriteData_any (ip : Slot) (offset len : Nat) (src : Bytes) (s : State)
    (hoff : 0 < len ∨ offset ≤ (s.icache ip).size.toNat) :
    Sat (inodeWriteData ip offset len src) s (fun _ => True)
      (fun w s' => ∃ v : UInt32, bare s' = bare (withSize s ip v) ∧
        (s.icache ip).size.toNat ≤ v.toNat ∧ (offset ≤ (s.icache ip).size.toNat →
          v.toNat = max (s.icache ip).size.toNat (offset + w))) fun _ => True := by
  have hself : ∀ {s' : State}, bare s' = bare s →
      bare s' = bare (withSize s ip (s.icache ip).size) := fun h => by rwa [withSize_self]
  unfold inodeWriteData
  split
  · refine (sat_pure _).mpr ⟨_, hself rfl, Nat.le_refl _, fun h => ?_⟩
    omega
  refine (writeLoop_total ip src _ _ _ _ s (by omega) (Nat.zero_le _)).run.bind fun r s₁ hr => ?_
  obtain ⟨⟨rfl, hmax⟩, hrun⟩ := hr
  have hb : bare s₁ = bare s := (writeLoop_keeps ip src _ _ _ _).of_ok hrun
  have hsize : (s₁.icache ip).size = (s.icache ip).size :=
    congrArg (fun o => (o.1 ip).size) hb
  rw [Nat.sub_zero] at hmax ⊢
  rw [sat_bind, sat_inodeOf, hsize]
  split
  · next hgrow =>
    have hlen : 0 < len := by omega
    have hv : (UInt32.ofNat (offset + len)).toNat = offset + len := by
      rw [UInt32.toNat_ofNat']
      exact u32_of_le (hmax hlen)
    rw [sat_bind, sat_modifyInode]
    refine ((keeps_bare (inodeRw_write_keeps ip)).sat _).bind fun _ s₂ h₂ => ?_
    rw [sat_pure]
    refine ⟨UInt32.ofNat (offset + len), h₂.trans (bare_withSize_congr hb _), ?_, fun _ => ?_⟩
    · omega
    · omega
  · refine (sat_pure _).mpr ⟨_, hself hb, Nat.le_refl _, fun h => ?_⟩
    omega

end

/-! ## Referenced entries -/

/-- Since `b` no referenced entry was unloaded, and the entries in `P` hold the inode they held and
have not become smaller. -/
structure Kept (P : Slot → Prop) (b s : State) : Prop where
  loaded : ∀ j, 0 < (b.icache j).ref → (b.icache j).valid = true → (s.icache j).valid = true
  inode : ∀ j, P j → (s.icache j).inodeNum = (b.icache j).inodeNum ∧
    (b.icache j).size.toNat ≤ (s.icache j).size.toNat

/-- `Holds`, with what is kept of the entries in `P`. -/
structure Sized (P : Slot → Prop) (b : State) (H L : List Slot) (s : State) : Prop where
  holds : Holds b H L s
  kept : Kept P b s

section

variable {P : Slot → Prop} {b s s' : State} {H L : List Slot} {ip : Slot}

theorem kept_refl (P : Slot → Prop) (b : State) : Kept P b b :=
  ⟨fun _ _ h => h, fun _ _ => ⟨rfl, Nat.le_refl _⟩⟩

/-- Another entry in place of `ip`, up to pointers to blocks. -/
theorem Kept.set {x : Inode} (h : Kept P b s)
    (hs : ∀ j, bareInode (s'.icache j) = bareInode (Function.update s.icache ip x j))
    (hvalid : 0 < (b.icache ip).ref → (s.icache ip).valid = true → x.valid = true)
    (hin : P ip → x.inodeNum = (s.icache ip).inodeNum ∧ (s.icache ip).size.toNat ≤ x.size.toNat) :
    Kept P b s' := by
  have hv : ∀ j, (s'.icache j).valid = (Function.update s.icache ip x j).valid := fun j =>
    congrArg (fun x => x.valid) (hs j)
  have hn : ∀ j, (s'.icache j).inodeNum = (Function.update s.icache ip x j).inodeNum := fun j =>
    congrArg (fun x => x.inodeNum) (hs j)
  have hz : ∀ j, (s'.icache j).size = (Function.update s.icache ip x j).size := fun j =>
    congrArg (fun x => x.size) (hs j)
  refine ⟨fun j hr hb => ?_, fun j hj => ?_⟩
  · rw [hv j]
    by_cases hji : j = ip
    · subst hji
      rw [Function.update_self]
      exact hvalid hr (h.loaded j hr hb)
    · rw [Function.update_of_ne hji]
      exact h.loaded j hr hb
  · rw [hn j, hz j]
    by_cases hji : j = ip
    · subst hji
      rw [Function.update_self, (hin hj).1]
      exact ⟨(h.inode j hj).1, Nat.le_trans (h.inode j hj).2 (hin hj).2⟩
    · rw [Function.update_of_ne hji]
      exact h.inode j hj

theorem Kept.setRef {r : Nat} (h : Kept P b s)
    (hs : s'.icache = Function.update s.icache ip { s.icache ip with ref := r }) : Kept P b s' := by
  have hs' : ∀ j, bareInode (s'.icache j) =
      bareInode (Function.update s.icache ip { s.icache ip with ref := r } j) := fun j => by rw [hs]
  exact h.set hs' (fun _ h => h) fun _ => ⟨rfl, Nat.le_refl _⟩

theorem Kept.same (h : Kept P b s) (hs : ∀ j, bareInode (s'.icache j) = bareInode (s.icache j)) :
    Kept P b s' := by
  have hs' : ∀ j, bareInode (s'.icache j) =
      bareInode (Function.update s.icache 0 (s.icache 0) j) := fun j => by
    rw [Function.update_eq_self]
    exact hs j
  exact h.set hs' (fun _ h => h) fun _ => ⟨rfl, Nat.le_refl _⟩

/-- A change of an entry that nothing relies on. -/
theorem Kept.apart (h : Kept P b s) (ho : others ip s' = others ip s)
    (hfree : 0 < (b.icache ip).ref → (b.icache ip).valid ≠ true) (hP : ¬ P ip) : Kept P b s' := by
  refine ⟨fun j hr hb => ?_, fun j hj => ?_⟩
  · have hji : j ≠ ip := by
      rintro rfl
      exact hfree hr hb
    rw [icache_of_others ho hji]
    exact h.loaded j hr hb
  · have hji : j ≠ ip := by
      rintro rfl
      exact hP hj
    rw [icache_of_others ho hji]
    exact h.inode j hj

theorem bareInode_of_bare (h : bare s' = bare s) (j : Slot) :
    bareInode (s'.icache j) = bareInode (s.icache j) := congrFun (congrArg Prod.fst h) j

theorem Sized.grown {v : UInt32} (h : Sized P b H L s) (hb : bare s' = bare (withSize s ip v))
    (hv : (s.icache ip).size.toNat ≤ v.toNat) : Kept P b s' :=
  h.kept.set (bareInode_of_bare hb) (fun _ h => h) fun _ => ⟨rfl, hv⟩

theorem Sized.keep (h : Sized P b H L s) (hb : bare s' = bare s) : Sized P b H L s' :=
  ⟨(holds_rules b).keep h.holds hb, h.kept.same (bareInode_of_bare hb)⟩

theorem Sized.keeps {α : Type} {m : FsM α} (h : Sized P b H L s) (hm : Leaves bare m) :
    Sat m s (fun _ => True) (fun _ => Sized P b H L) fun _ => True :=
  (hm.sat s).imp fun _ _ hk => h.keep hk

theorem Sized.writeData (h : Sized P b H L s) (pip : Slot) (offset : Nat) {len : Nat}
    (hlen : 0 < len) (src : Bytes) :
    Sat (inodeWriteData pip offset len src) s (fun _ => True) (fun _ => Sized P b H L)
      fun _ => True := by
  refine (inodeWriteData_any pip offset len src s (Or.inl hlen)).run.imp fun w s' hw => ?_
  obtain ⟨⟨v, hb, hv, -⟩, hrun⟩ := hw
  exact ⟨h.holds.keep ((inodeWriteData_keeps pip offset len src).of_ok hrun), h.grown hb hv⟩

theorem Sized.addEntry (h : Sized P b H L s) (pip : Slot) (n : Nat) (name : Name) :
    Sat (dirAddEntry pip n name) s (fun _ => True) (fun _ => Sized P b H L) fun _ => True := by
  unfold dirAddEntry
  refine (h.keeps (spinlockHolding_keeps _)).bind fun _ s₁ h₁ => ?_
  refine (h₁.keeps (assert_keeps _ (by decide))).bind fun _ s₂ h₂ => ?_
  rw [sat_bind, sat_inodeOf]
  refine (h₂.keeps (assert_keeps _ (by decide))).bind fun _ s₃ h₃ => ?_
  split
  · exact (sat_pure _).mpr h₃
  refine (h₃.keeps (dirSearchEntry_keeps pip name)).bind fun _ s₄ h₄ => ?_
  split
  · exact (sat_pure _).mpr h₄
  refine (h₄.keeps (dirFreeLoop_keeps pip _ _ _)).bind fun r s₅ h₅ => ?_
  obtain ⟨offset, de⟩ := r
  dsimp only
  split
  · exact (sat_pure _).mpr h₅
  refine (h₅.writeData pip _ (by decide) _).bind fun w s₆ h₆ => ?_
  split
  · exact (sat_panic _).mpr trivial
  · exact (sat_pure _).mpr h₆

theorem Sized.deleteLoop (pip : Slot) (name : Name) (fuel offset : Nat) (h : Sized P b H L s) :
    Sat (dirDeleteLoop pip name fuel offset) s (fun _ => True) (fun _ => Sized P b H L)
      fun _ => True := by
  induction fuel generalizing offset s with
  | zero => exact (sat_pure _).mpr h
  | succ fuel ih =>
      unfold dirDeleteLoop
      rw [sat_bind, sat_inodeOf]
      split
      · refine (h.keeps (inodeReadData_keeps pip _ _ _)).bind fun r s₁ h₁ => ?_
        obtain ⟨n, de⟩ := r
        dsimp only
        split
        · exact (sat_panic _).mpr trivial
        split
        · refine (h₁.writeData pip _ (by decide) _).bind fun w s₂ h₂ => ?_
          split
          · exact (sat_panic _).mpr trivial
          · exact (sat_pure _).mpr h₂
        · exact ih _ h₁
      · exact (sat_pure _).mpr h

theorem Sized.deleteEntry (h : Sized P b H L s) (pip : Slot) (name : Name) :
    Sat (dirDeleteEntry pip name) s (fun _ => True) (fun _ => Sized P b H L) fun _ => True := by
  unfold dirDeleteEntry
  refine (h.keeps (spinlockHolding_keeps _)).bind fun _ s₁ h₁ => ?_
  refine (h₁.keeps (assert_keeps _ (by decide))).bind fun _ s₂ h₂ => ?_
  rw [sat_bind, sat_inodeOf]
  refine (h₂.keeps (assert_keeps _ (by decide))).bind fun _ s₃ h₃ => ?_
  rw [sat_bind, sat_inodeOf]
  exact h₃.deleteLoop pip name _ _

/-- The entries in `P` are referenced and loaded from the start. -/
def Based (P : Slot → Prop) (b : State) : Prop :=
  ∀ j, P j → 0 < (b.icache j).ref ∧ (b.icache j).valid = true

theorem Sized.ref_pos (h : Sized P b H L s) (hr : 0 < (b.icache ip).ref) :
    0 < (s.icache ip).ref := by
  rw [h.holds.ref ip]
  omega

/-- A handle on a number that no entry in `P` has, or on the entry that has it. -/
theorem Sized.handed {n : Nat} (hP : Based P b) (h : Sized P b H L s) (ha : Handed s n ip s') :
    Kept P b s' := by
  cases ha with
  | hit num => exact h.kept.setRef rfl
  | recycled miss free =>
      have hno : ¬ 0 < (b.icache ip).ref := fun hr => by
        have hpos := h.ref_pos hr
        omega
      exact h.kept.set (fun _ => rfl) (fun hr _ => absurd hr hno) fun hp => absurd (hP ip hp).1 hno

theorem sized_rules (hP : Based P b) : Rules (fun _ => True) (Sized P b) where
  once _ := trivial
  keep h hb := h.keep hb
  alloc h n := by
    refine (inodeAlloc_handed n _).run.imp fun ip s' ha => ?_
    exact ⟨(h.holds.alloc n).of_ok ha.2, h.handed hP ha.1⟩
  dup h ip := by
    refine (inodeDup_entries ip _).run.imp fun r s' hd => ?_
    exact ⟨(h.holds.dup ip).of_ok hd.2, h.kept.setRef hd.1⟩
  release := by
    intro H H' L s ip h hp _
    refine (inodeFree_entries ip s).run.imp fun _ s' hf => ?_
    refine ⟨(h.holds.release hp).of_ok hf.2, ?_⟩
    obtain ⟨⟨hother, hmore⟩, -⟩ := hf
    by_cases hr : 0 < (b.icache ip).ref
    · -- someone else holds the entry, so it is not destroyed
      have href := h.holds.ref ip
      rw [hp.count_eq, List.count_cons_self] at href
      exact h.kept.setRef (hmore (by omega))
    · exact h.kept.apart hother (fun hr' => absurd hr' hr) fun hp => hr (hP ip hp).1
  lock h ip _ := by
    refine (inodeLock_entries ip _).run.imp fun _ s' hl => ?_
    refine ⟨(h.holds.lockIt ip).of_ok hl.2, ?_⟩
    obtain ⟨⟨-, hother, hsame⟩, -⟩ := hl
    by_cases hb : 0 < (b.icache ip).ref ∧ (b.icache ip).valid = true
    · refine h.kept.same fun j => ?_
      rw [hsame (h.kept.loaded ip hb.1 hb.2)]
    · exact h.kept.apart hother (fun hr hv => hb ⟨hr, hv⟩) fun hp => hb (hP ip hp)
  unlock := by
    intro H L L' s ip h hp
    refine (inodeUnlock_entries ip s).run.imp fun _ s' hl => ?_
    refine ⟨(h.holds.unlockIt hp).of_ok hl.2, h.kept.same fun j => ?_⟩
    rw [hl.1]
  recount h ip nlink :=
    ⟨(holds_rules b).recount h.holds ip nlink,
      h.kept.set (fun _ => rfl) (fun _ h => h) fun _ => ⟨rfl, Nat.le_refl _⟩⟩
  addEntry h pip n name := h.addEntry pip n name
  deleteEntry h pip name := h.deleteEntry pip name

/-- `inode_create` leaves the entries in `P` alone when none of them has the number it allocates. -/
theorem Sized.create (hP : Based P b) (h : Sized P b H L s) (type major minor : UInt16)
    (hfresh : ∀ n s', (bitmapAllocInode s).1 = .ok (n, s') → n ≠ inodeNumUnused →
      ∀ j, P j → (b.icache j).inodeNum ≠ n) :
    Sat (inodeCreate type major minor) s (fun _ => True)
      (fun r => Sized P b (r.toList ++ H) L) fun _ => True := by
  have hkept : Sat (inodeCreate type major minor) s (fun _ => True) (fun _ => Kept P b)
      fun _ => True := by
    unfold inodeCreate
    refine (h.keeps (keeps_bare bitmapAllocInode_keeps)).run.bind fun n s₁ h₁ => ?_
    by_cases hn : n = 0xFFFF
    · rw [if_pos hn]
      exact (sat_pure _).mpr h₁.1.kept
    rw [if_neg hn]
    have hnew := hfresh n s₁ h₁.2 hn
    refine (inodeAlloc_handed n s₁).bind fun ip s₂ h₂ => ?_
    have hk₂ := h₁.1.handed hP h₂
    have hnot : ¬ P ip := by
      intro hp
      cases h₂ with
      | hit num => exact hnew ip hp ((h₁.1.kept.inode ip hp).1.symm.trans num)
      | recycled miss free =>
          have hpos := h₁.1.ref_pos (hP ip hp).1
          omega
    rw [sat_bind]
    refine acquire_any fun _ => ?_
    rw [sat_bind, sat_modifyInode, sat_bind]
    refine ((keeps_bare (inodeRw_write_keeps ip)).sat _).imp fun _ s₃ h₃ => ?_
    rw [sat_bind]
    refine release_any fun _ => (sat_pure _).mpr ?_
    exact hk₂.set (fun j => bareInode_of_bare h₃ j) (fun _ _ => rfl) fun hp => absurd hp hnot
  exact hkept.run.imp fun r s' hr => ⟨(h.holds.create type major minor).of_ok hr.2, hr.1⟩

end

end WhuOs.Fs
