import WhuOs.Fs.PathLocks

/-! # A full directory beside a new one

`path_create_inode` fills the new directory before it looks for a free slot in the parent. When the
parent is full it stays full: what is written for the new directory goes to its inode, to the
bitmaps and to a block that was free or to block 0.
-/

namespace WhuOs.Fs

open Prog Bytes Bits

/-- The directory behind `pip` fills its block `c`, which has the bytes `d` in the cache and on
disk. -/
structure FullDir (pip : Slot) (c : Nat) (d : Block) (s : State) : Prop where
  cache : CacheInv [] s
  sb : s.sb = Mkfs.sb
  size : (s.icache pip).size.toNat = blockSize
  addr : ((s.icache pip).addrs 0).toNat = c
  area : InData c
  view : s.view c = d
  disk : s.disk c = d
  marked : bitAt (s.view 130) (c - 131) = true
  markedDisk : bitAt (s.disk 130) (c - 131) = true

/-- The same, while the inode behind `ip` is written in its first block. -/
structure Beside (pip : Slot) (c : Nat) (d : Block) (ip : Slot) (s : State) : Prop extends
    FullDir pip c d s where
  ne : ip ≠ pip
  valid : (s.icache ip).valid = true
  num : (s.icache ip).inodeNum < nInodeDisk
  small : (s.icache ip).size.toNat ≤ blockSize
  own : ((s.icache ip).addrs 0).toNat = 0 ∨
    InData ((s.icache ip).addrs 0).toNat ∧ ((s.icache ip).addrs 0).toNat ≠ c

section

variable {pip ip jp : Slot} {c b : Nat} {d e : Block} {s s' : State}
  {G : Event → Prop} {E : Panic → Prop}

/-- An assertion that panics or holds. -/
theorem assert_any {p : Bool} {w : Panic} {Q : Unit → State → Prop} (h : p = true → Q () s) :
    Sat (assert p w) s G Q fun _ => True := by
  unfold assert
  split
  · next hp => exact (sat_pure _).mpr (h hp)
  · exact (sat_panic _).mpr trivial

theorem FullDir.evolves {W : Nat → Prop} (h : FullDir pip c d s) (he : Evolves [] W s s')
    (hic : s'.icache = s.icache) (hsb : s'.sb = s.sb) (hc : ¬ W c) (hb : ¬ W 130) :
    FullDir pip c d s' := by
  have hview : ∀ {b}, ¬ W b → ∀ {P : Block → Prop}, P (s.view b) →
    P (s.disk b) → P (s'.view b) := by
    intro b hW P hv hd
    rcases he.view b hW with hs | hs
    · exact hs ▸ hv
    · exact hs ▸ hd
  exact ⟨he.inv, hsb.trans h.sb, by rw [hic]; exact h.size, by rw [hic]; exact h.addr, h.area,
    hview hc (P := (· = d)) h.view h.disk, (he.disk c hc).trans h.disk,
    hview hb (P := fun x => bitAt x (c - 131) = true) h.marked h.markedDisk,
    by rw [he.disk 130 hb]; exact h.markedDisk⟩

theorem FullDir.stored (h : FullDir pip c d s) (hs : Stored [] s b e s')
    (hc : b ≠ c) (hb : b ≠ 130) :
    FullDir pip c d s' :=
  h.evolves hs.evolves (congrArg Core.icache hs.core :) (congrArg Core.sb hs.core :) hc.symm hb.symm

/-- A block is marked in the data bitmap. -/
theorem FullDir.marks {k : Nat} (h : FullDir pip c d s)
    (hs : Stored [] s 130 (setBit (s.view 130) k) s') :
    FullDir pip c d s' := by
  have hdata := inData_iff.mp h.area
  have hic : s'.icache = s.icache := (congrArg Core.icache hs.core :)
  have hbit : bitAt (setBit (s.view 130) k) (c - 131) = true := by
    rw [bitAt_setBit, h.marked, Bool.or_true]
  have hd : s'.disk = Function.update s.disk 130 (setBit (s.view 130) k) :=
    (congrArg Core.disk hs.core :)
  have hc : s'.disk c = d := by
    rw [hd, Function.update_of_ne (by omega)]
    exact h.disk
  have hv : s'.view c = d := by
    rcases hs.evolves.view c (by omega) with hv | hv
    · exact hv.trans h.view
    · exact hv.trans h.disk
  refine ⟨hs.evolves.inv, (congrArg Core.sb hs.core :).trans h.sb, ?_, ?_, h.area, hv, hc, ?_, ?_⟩
  · rw [hic]
    exact h.size
  · rw [hic]
    exact h.addr
  · rw [hs.view]
    exact hbit
  · rw [hd, Function.update_self]
    exact hbit

theorem FullDir.setInode (h : FullDir pip c d s) (hne : ip ≠ pip) (x : Inode) :
    FullDir pip c d (s.setInode ip x) := by
  have hp : (s.setInode ip x).icache pip = s.icache pip := by
    rw [setInode_icache, Function.update_of_ne hne.symm]
  exact ⟨h.cache.setInode x, h.sb, by rw [hp]; exact h.size, by rw [hp]; exact h.addr, h.area,
    h.view, h.disk, h.marked, h.markedDisk⟩

theorem FullDir.setLock (h : FullDir pip c d s) (j : Slot) (v : Bool) :
    FullDir pip c d (s.setLock (.inode j) v) :=
  ⟨h.cache.setLock (by simp) (by simp) v, h.sb, h.size, h.addr, h.area, h.view, h.disk,
    h.marked, h.markedDisk⟩

theorem FullDir.beside (h : FullDir pip c d s) {s₁ : State} (h₁ : Beside pip c d ip s₁)
    (hic : s.icache ip = s₁.icache ip) : Beside pip c d ip s :=
  ⟨h, h₁.ne, by rw [hic]; exact h₁.valid, by rw [hic]; exact h₁.num, by rw [hic]; exact h₁.small, by rw [hic]; exact h₁.own⟩

theorem Beside.loaded (h : Beside pip c d ip s) (hl : Loaded [] s s') : Beside pip c d ip s' :=
  (h.toFullDir.evolves hl.evolves (congrArg Core.icache hl.core)
    (congrArg Core.sb hl.core) id id).beside h
    (congrFun (congrArg Core.icache hl.core) ip)

theorem Beside.stored (h : Beside pip c d ip s) (hs : Stored [] s b e s')
    (hc : b ≠ c) (hb : b ≠ 130) :
    Beside pip c d ip s' :=
  (h.toFullDir.stored hs hc hb).beside h (congrFun (congrArg Core.icache hs.core :) ip)

theorem Beside.marks {k : Nat} (h : Beside pip c d ip s)
    (hs : Stored [] s 130 (setBit (s.view 130) k) s') :
    Beside pip c d ip s' :=
  (h.toFullDir.marks hs).beside h (congrFun (congrArg Core.icache hs.core :) ip)

/-- Another value of the entry behind `ip`. -/
theorem FullDir.write (h : FullDir pip c d s) (hne : ip ≠ pip) {x : Inode} (hv : x.valid = true)
    (hn : x.inodeNum < nInodeDisk)    (hsz : x.size.toNat ≤ blockSize)
    (ho : (x.addrs 0).toNat = 0 ∨ InData (x.addrs 0).toNat ∧ (x.addrs 0).toNat ≠ c) :
    Beside pip c d ip (s.setInode ip x) := by
  have hi : (s.setInode ip x).icache ip = x := by simp
  exact ⟨h.setInode hne x,
    hne, by rw [hi]; exact hv, by rw [hi]; exact hn, by rw [hi]; exact hsz, by rw [hi]; exact ho⟩

theorem Beside.rw (h : Beside pip c d ip s) :
    Sat (inodeRw ip true) s (fun _ => True) (fun _ => Beside pip c d ip) E := by
  have hn := h.num
  have hdata := inData_iff.mp h.area
  rw [nInodeDisk_eq] at hn
  refine (inodeRw_write_sat h.cache rfl (readable_nil s ?_) trivial).imp fun _ s' hs => ?_
  · rw [h.sb, inodeBlock_eq]
    unfold blockNumUnused
    omega
  · rw [h.sb, inodeBlock_eq] at hs
    exact h.stored hs (by omega) (by omega)

theorem Beside.lock (h : Beside pip c d ip s) :
    Sat (inodeLock ip) s (fun _ => True) (fun _ => Beside pip c d ip) fun _ => True := by
  unfold inodeLock
  rw [sat_bind]
  refine acquire_any fun _ => ?_
  rw [sat_bind, sat_inodeOf, setLock_icache, if_neg (by simp [h.valid])]
  exact (sat_pure _).mpr ((h.toFullDir.setLock ip true).beside h rfl)

/-! ## One block -/

/-- The block behind the first pointer of one of the two entries. -/
structure Held (pip : Slot) (c : Nat) (d : Block) (ip jp : Slot) (b : Nat) (s : State) : Prop where
  beside : Beside pip c d ip s
  used : b ≠ blockNumUnused
  bitmap : b ≠ 130
  ip : jp ≠ pip → b ≠ c
  pip : jp = pip → b = c

theorem Beside.locate (h : Beside pip c d ip s) (hjp : jp = ip ∨ jp = pip) :
    Sat (inodeLocateBlock jp 0) s (fun _ => True) (fun b => Held pip c d ip jp b) E := by
  have hdata := inData_iff.mp h.area
  have hread : ∀ {s₁}, Beside pip c d ip s₁ → (entryVal s₁ (.addr jp 0) ≠ 0 ∨ jp = ip) →
      Held pip c d ip jp (entryVal s₁ (.addr jp 0)) s₁ := by
    intro s₁ h₁ hne
    by_cases hp : jp = pip
    · subst hp
      have hv : entryVal s₁ (.addr jp 0) = c := h₁.addr
      rw [hv]
      exact ⟨h₁, by unfold blockNumUnused; omega, by omega, fun hn => absurd rfl hn, fun _ => rfl⟩
    · obtain rfl := hjp.resolve_right hp
      have hval : ((s₁.icache jp).addrs 0).toNat ≠ blockNumUnused ∧
      ((s₁.icache jp).addrs 0).toNat ≠ 130 ∧
          ((s₁.icache jp).addrs 0).toNat ≠ c := by
        unfold blockNumUnused
        rcases h₁.own with hz | ⟨hin, hc⟩
        · omega
        · have hin' := inData_iff.mp hin
          exact ⟨by omega, by omega, hc⟩
      exact ⟨h₁, hval.1, hval.2.1, fun _ => hval.2.2, fun he => absurd he hp⟩
  unfold inodeLocateBlock
  rw [dif_pos (by decide), locateBlock_succ, sat_bind, sat_readEntry]
  simp only [if_true]
  split
  · next hz =>
    have hip : jp = ip := by
      refine hjp.resolve_right fun hp => ?_
      subst hp
      have hv : entryVal s (.addr jp 0) = c := h.addr
      have hz' : entryVal s (.addr jp 0) = 0 := hz
      omega
    subst hip
    refine (bitmapAllocBlock_sat h.cache h.sb (readable_nil s (by decide)) trivial
      fun _ => trivial).bind fun b s₁ ha => ?_
    rw [sat_bind, sat_writeEntry, sat_readEntry]
    refine hread ?_ (Or.inr rfl)
    have hset : ∀ {s₁}, Beside pip c d jp s₁ → ((UInt32.ofNat b).toNat = 0 ∨
        InData (UInt32.ofNat b).toNat ∧ (UInt32.ofNat b).toNat ≠ c) →
        Beside pip c d jp (s₁.setEntry (.addr jp 0) b) := fun h₁ ho =>
      h₁.toFullDir.write h₁.ne h₁.valid h₁.num h₁.small (by simpa using ho)
    cases ha with
    | found taken =>
        refine hset (h.marks taken.stored) (Or.inr ?_)
        rw [Mkfs.toNat_ofNat_inData taken.area]
        refine ⟨taken.area, fun hbc => ?_⟩
        have hclear := taken.clear
        rw [hbc, h.marked] at hclear
        cases hclear
    | full all loaded => exact hset (h.loaded loaded) (Or.inl rfl)
  · next hne =>
    rw [sat_readEntry]
    exact hread h (Or.inl hne)

/-- Reading inside the first block; the parent gives its bytes. -/
theorem Beside.readLoop (h : Beside pip c d ip s) (hjp : jp = ip ∨ jp = pip)
    (fuel start len total : Nat)
    {dst : Bytes} (hend : start + len ≤ blockSize) (hle : total ≤ len) (hfuel : len - total ≤ fuel)
    (hold : jp = pip → ∀ i < total, dst i = d (start + i)) :
    Sat (readLoop jp fuel (start + total) total len dst) s (fun _ => True)
      (fun q s' => Beside pip c d ip s' ∧
      q.1 = len ∧ (jp = pip → ∀ i < len, q.2 i = d (start + i))) E := by
  have hbs : blockSize = 1024 := rfl
  induction fuel generalizing s total dst with
  | zero =>
      obtain rfl : total = len := by omega
      exact (sat_pure _).mpr ⟨h, rfl, hold⟩
  | succ fuel ih =>
      rw [Fs.readLoop]
      split
      · next hlt =>
        rw [Nat.div_eq_of_lt (by omega), sat_bind]
        refine (h.locate hjp).imp fun b s₁ hb => ?_
        refine (bufRead_sat hb.beside.cache hb.used (by simp) (by simp)).bind fun buf s₂ p => ?_
        rw [sat_bind, sat_bufData, p.data]
        refine p.release_sat hb.beside.cache fun s₃ hl => ?_
        rw [Nat.mod_eq_of_lt (show start + total < blockSize by omega), u32,
          Nat.mod_eq_of_lt (by omega),
          Nat.add_assoc start total]
        refine ih (hb.beside.loaded hl) _ (by omega) (by omega) fun hp i hi => ?_
        by_cases hnew : i < total
        · rw [splice_out (Or.inl hnew)]
          exact hold hp i hnew
        · rw [splice_in (by omega) (by omega), hb.pip hp, hb.beside.view]
          unfold window
          congr 1
          omega
      · next hge =>
        obtain rfl : total = len := by omega
        exact (sat_pure _).mpr ⟨h, rfl, hold⟩

/-- An entry of a directory that ends in its first block. -/
theorem Beside.readDirent (h : Beside pip c d ip s) (hjp : jp = ip ∨ jp = pip)
    {k : Nat} (hk : k < 32)
    (hsize : direntSize * k ≤ (s.icache jp).size.toNat) (dst : Bytes) :
    Sat (inodeReadData jp (direntSize * k) direntSize dst) s (fun _ => True)
      (fun q s' => Beside pip c d ip s' ∧
      (jp = pip → direntOf q.2 = slotAt d k)) E := by
  have hend : direntSize * k + direntSize ≤ blockSize := by
    unfold direntSize blockSize
    omega
  unfold inodeReadData
  rw [sat_bind, sat_inodeOf, if_neg (by omega)]
  have hread : ∀ len, len ≤ direntSize → (jp = pip → len = direntSize) →
      Sat (Fs.readLoop jp len (direntSize * k) 0 len dst) s (fun _ => True)
        (fun q s' => Beside pip c d ip s' ∧
        (jp = pip → direntOf q.2 = slotAt d k)) E := fun len hlen hall => by
    refine (h.readLoop hjp len (direntSize * k) len 0 (by omega) (Nat.zero_le _) (Nat.le_refl _)
      (by simp)).imp fun q s' hq => ?_
    refine ⟨hq.1, fun hp => direntOf_congr fun i hi => ?_⟩
    rw [hq.2.2 hp i (by rw [hall hp]; exact hi)]
    rfl
  split
  · next hgt =>
    have hu : u32 (direntSize * k + direntSize) = direntSize * k + direntSize := by
      unfold u32
      exact Nat.mod_eq_of_lt (by unfold blockSize at hend; omega)
    refine hread _ (by omega) fun hp => ?_
    rw [hu, hp, h.size] at hgt
    omega
  · exact hread _ (Nat.le_refl _) fun _ => rfl

theorem Beside.writeLoop (h : Beside pip c d ip s) (fuel start len total : Nat) (src : Bytes)
    (hend : start + len ≤ blockSize) (hle : total ≤ len) :
    Sat (writeLoop ip src fuel (start + total) total len) s (fun _ => True)
      (fun q s' => Beside pip c d ip s' ∧ q.1 ≤ start + len) E := by
  have hbs : blockSize = 1024 := rfl
  induction fuel generalizing s total with
  | zero => exact (sat_pure _).mpr ⟨h, by dsimp only; omega⟩
  | succ fuel ih =>
      rw [Fs.writeLoop]
      split
      · next hlt =>
        rw [Nat.div_eq_of_lt (by omega), sat_bind]
        refine (h.locate (Or.inl rfl)).imp fun b s₁ hb => ?_
        refine (bufRead_sat hb.beside.cache hb.used (by simp) (by simp)).bind fun buf s₂ p => ?_
        rw [sat_bind, sat_bufData, p.data]
        refine p.store_sat hb.beside.cache hb.used trivial fun s₃ hs => ?_
        rw [Nat.mod_eq_of_lt (show start + total < blockSize by omega), u32,
          Nat.mod_eq_of_lt (by omega),
          Nat.add_assoc start total]
        exact ih (hb.beside.stored hs (hb.ip h.ne) hb.bitmap) _ (by omega)
      · exact (sat_pure _).mpr ⟨h, by dsimp only; omega⟩

/-- Writing an entry of the new directory. -/
theorem Beside.writeDirent (h : Beside pip c d ip s) {k : Nat} (hk : k < 32) (src : Bytes) :
    Sat (inodeWriteData ip (direntSize * k) direntSize src) s (fun _ => True)
      (fun _ => Beside pip c d ip) E := by
  have hend : direntSize * k + direntSize ≤ blockSize := by
    unfold direntSize blockSize
    omega
  unfold inodeWriteData
  split
  · exact (sat_pure _).mpr h
  refine (h.writeLoop direntSize (direntSize * k) direntSize 0 src hend (Nat.zero_le _)).bind
    fun q s₁ hq => ?_
  rw [sat_bind, sat_inodeOf]
  split
  · have hsz : (UInt32.ofNat q.1).toNat ≤ blockSize := by
      rw [UInt32.toNat_ofNat']
      exact (Nat.mod_le _ _).trans (hq.2.trans hend)
    rw [sat_bind, sat_modifyInode]
    exact (hq.1.toFullDir.write (x := { s₁.icache ip with size := UInt32.ofNat q.1 }) hq.1.ne
      hq.1.valid hq.1.num hsz hq.1.own).rw.bind fun _ s₂ h₂ => (sat_pure _).mpr h₂
  · exact (sat_pure _).mpr hq.1

/-! ## Directory calls -/

theorem Beside.searchLoop (h : Beside pip c d ip s) (hjp : jp = ip ∨ jp = pip)
    (name : Name) (fuel k : Nat) :
    Sat (dirSearchLoop jp name fuel (direntSize * k)) s (fun _ => True)
      (fun _ => Beside pip c d ip) fun _ => True := by
  induction fuel generalizing s k with
  | zero => exact (sat_pure _).mpr h
  | succ fuel ih =>
      have hsize : (s.icache jp).size.toNat ≤ blockSize := by
        rcases hjp with rfl | rfl
        · exact h.small
        · exact h.size.le
      unfold dirSearchLoop
      rw [sat_bind, sat_inodeOf]
      split
      · next hlt =>
        have hk : k < 32 := by
          unfold direntSize at hlt
          unfold blockSize at hsize
          omega
        refine (h.readDirent hjp hk hlt.le _).bind fun q s₁ hq => ?_
        obtain ⟨n, e⟩ := q
        dsimp only
        split
        · rw [sat_bind, sat_panic]
          trivial
        split
        · exact (sat_pure _).mpr hq.1
        · rw [← Nat.mul_succ]
          exact ih hq.1 (k + 1)
      · exact (sat_pure _).mpr h

theorem Beside.search (h : Beside pip c d ip s) (hjp : jp = ip ∨ jp = pip) (name : Name) :
    Sat (dirSearchEntry jp name) s (fun _ => True) (fun _ => Beside pip c d ip) fun _ => True := by
  unfold dirSearchEntry
  rw [sat_bind, sat_spinlockHolding, sat_bind]
  refine assert_any fun _ => ?_
  rw [sat_bind, sat_inodeOf, sat_bind]
  refine assert_any fun _ => ?_
  rw [sat_bind, sat_inodeOf]
  exact h.searchLoop hjp name _ 0

theorem Beside.freeLoop (h : Beside pip c d ip s) (fuel k : Nat) {de : Bytes} :
    Sat (dirFreeLoop ip fuel (direntSize * k) de) s (fun _ => True)
      (fun q s' => Beside pip c d ip s' ∧ ∃ j, q.1 = direntSize * j) fun _ => True := by
  induction fuel generalizing s k de with
  | zero => exact (sat_pure _).mpr ⟨h, k, rfl⟩
  | succ fuel ih =>
      unfold dirFreeLoop
      split
      · next hlt =>
        have hk : k < 32 := by
          unfold direntSize blockSize at hlt
          omega
        rw [sat_bind, sat_inodeOf]
        split
        · next hsize =>
          refine (h.readDirent (Or.inl rfl) hk hsize.le _).bind fun q s₁ hq => ?_
          obtain ⟨n, e⟩ := q
          dsimp only
          split
          · rw [sat_bind, sat_panic]
            trivial
          split
          · exact (sat_pure _).mpr ⟨hq.1, k, rfl⟩
          · rw [← Nat.mul_succ]
            exact ih hq.1 (k + 1)
        · exact (sat_pure _).mpr ⟨h, k, rfl⟩
      · exact (sat_pure _).mpr ⟨h, k, rfl⟩

/-- The search for a free slot passes over all entries of a full block. -/
theorem Beside.freeLoop_full (h : Beside pip c d ip s)
    (hfull : ∀ k < 32, slotAt d k ≠ none) (fuel k : Nat)
    (hfuel : 32 ≤ k + fuel) {de : Bytes} :
    Sat (dirFreeLoop pip fuel (direntSize * k) de) s (fun _ => True) (fun q _ => blockSize ≤ q.1)
      fun _ => True := by
  have hend : 32 ≤ k → blockSize ≤ direntSize * k := fun hk => by
    unfold blockSize direntSize
    omega
  induction fuel generalizing s k de with
  | zero => exact (sat_pure _).mpr (hend (by omega))
  | succ fuel ih =>
      unfold dirFreeLoop
      split
      · next hlt =>
        have hk : k < 32 := by
          unfold direntSize blockSize at hlt
          omega
        rw [sat_bind, sat_inodeOf, if_pos (by rw [h.size]; exact hlt)]
        refine (h.readDirent (Or.inr rfl) hk (by rw [h.size]; exact hlt.le) _).bind fun q s₁ hq =>
          ?_
        obtain ⟨n, e⟩ := q
        dsimp only
        split
        · rw [sat_bind, sat_panic]
          trivial
        rw [if_neg fun hz =>
          hfull k hk ((hq.2 rfl).symm.trans (direntOf_eq_none.mpr hz)), ← Nat.mul_succ]
        refine ih hq.1 (k + 1) (by omega) fun hk' => ?_
        unfold blockSize direntSize
        omega
      · next hge => exact (sat_pure _).mpr (Nat.not_lt.mp hge)

theorem Beside.addEntry (h : Beside pip c d ip s) (n : Nat) (name : Name) :
    Sat (dirAddEntry ip n name) s (fun _ => True) (fun _ => Beside pip c d ip) fun _ => True := by
  unfold dirAddEntry
  rw [sat_bind, sat_spinlockHolding, sat_bind]
  refine assert_any fun _ => ?_
  rw [sat_bind, sat_inodeOf, sat_bind]
  refine assert_any fun _ => ?_
  split
  · exact (sat_pure _).mpr h
  refine (h.search (Or.inl rfl) name).bind fun r s₁ h₁ => ?_
  split
  · exact (sat_pure _).mpr h₁
  refine (h₁.freeLoop blockSize 0).bind fun q s₂ h₂ => ?_
  obtain ⟨off, e⟩ := q
  obtain ⟨h₂, j, hj⟩ := h₂
  dsimp only at hj ⊢
  split
  · exact (sat_pure _).mpr h₂
  · next hlt =>
    rw [hj] at hlt ⊢
    have hk : j < 32 := by
      unfold direntSize blockSize at hlt
      omega
    refine (h₂.writeDirent hk _).bind fun w s₃ h₃ => ?_
    split
    · rw [sat_bind, sat_panic]
      trivial
    · exact (sat_pure _).mpr h₃

/-- The full parent takes no entry. -/
theorem Beside.addEntry_full (h : Beside pip c d ip s)
    (hfull : ∀ k < 32, slotAt d k ≠ none) (n : Nat)
    (name : Name) :
    Sat (dirAddEntry pip n name) s (fun _ => True) (fun r _ => r = blockSize) fun _ => True := by
  unfold dirAddEntry
  rw [sat_bind, sat_spinlockHolding, sat_bind]
  refine assert_any fun _ => ?_
  rw [sat_bind, sat_inodeOf, sat_bind]
  refine assert_any fun _ => ?_
  split
  · exact (sat_pure _).mpr rfl
  refine (h.search (Or.inr rfl) name).bind fun r s₁ h₁ => ?_
  split
  · exact (sat_pure _).mpr rfl
  refine (h₁.freeLoop_full hfull blockSize 0 (by decide)).bind fun q s₂ hq => ?_
  obtain ⟨off, e⟩ := q
  dsimp only at hq ⊢
  rw [if_pos hq]
  exact (sat_pure _).mpr rfl

/-! ## The new directory -/

/-- A loaded directory of a sound state that fills its block. -/
theorem Sound.fullDir {n : Nat} (h : Sound s) (ho : OpenDir s n pip)
    (hsize : (inoAt s.disk n).size.toNat = blockSize) :
    FullDir pip (dirBlock (inoAt s.disk n)) (s.disk (dirBlock (inoAt s.disk n))) s := by
  have hne : (inoAt s.disk n).size ≠ 0 := by
    intro hz
    rw [hz] at hsize
    cases hsize
  obtain ⟨haddr, hdata⟩ := ho.block h hne
  have hrange := inData_iff.mp hdata
  obtain ⟨hp, hblk⟩ := h.dirBlock_at ho.dir ((h.dir n ho.dir).block hne)
  have hmarked : dbit s.disk (dirBlock (inoAt s.disk n)) = true := by
    have hm := h.tree.marked _ hp
    rw [hblk] at hm
    exact hm (by omega)
  refine ⟨h.tree.store.cache, h.tree.store.sb, by rw [ho.size h, hsize], haddr, hdata,
    h.sync n ho.dir hne, rfl, ?_, hmarked⟩
  rw [h.tree.store.settled 130 (by decide)]
  exact hmarked

theorem FullDir.create {a : State} {H : List Slot} (ha : Ready a)
    (h : Mid a H [pip] s) (hpip : pip ∈ H)
    (hf : FullDir pip c d s) (hfree : ∃ n < nInodeDisk, ibit s.disk n = false)
    (type major minor : UInt16) :
    Sat (inodeCreate type major minor) s (fun _ => True)
      (fun r s' => ∀ ip, r = some ip → Beside pip c d ip s') fun _ => True := by
  have hstore := h.sound.tree.store
  have hdata := inData_iff.mp hf.area
  have hview : s.view 1 = s.disk 1 := hstore.settled 1 (by decide)
  obtain ⟨k, hk, hclear⟩ := hfree
  unfold inodeCreate
  refine (bitmapAllocInode_sat hstore.cache hstore.sb (readable_nil s (by decide)) trivial).run.bind
    fun n s₁ hn => ?_
  obtain ⟨hn, halloc⟩ := hn
  cases hn with
  | full all =>
      rw [if_pos rfl, sat_pure]
      intro ip hip
      cases hip
  | found lt clear below stored =>
      rw [hview] at clear below
      have hn : n < nInodeDisk := by
        refine Nat.lt_of_le_of_lt (Nat.le_of_not_lt fun hgt => ?_) hk
        exact absurd (below k hgt) (Bool.eq_false_iff.mp hclear)
      have hu : n ≠ inodeNumUnused := by
        have := unused_ge
        omega
      rw [if_neg (show n ≠ 0xFFFF from hu)]
      have h₁ : FullDir pip c d s₁ := hf.stored stored (by omega) (by decide)
      refine (inodeAlloc_handed n s₁).bind fun ip s₂ hd => ?_
      have hne : ip ≠ pip := by
        rintro rfl
        have hlock := h.fresh_apart ha hpip halloc hu hd
        rw [h.lock_eq ha] at hlock
        simp at hlock
      obtain ⟨x, rfl, hx⟩ : ∃ x, s₂ = s₁.setInode ip x ∧ x.inodeNum = n := by
        cases hd with
        | hit num => exact ⟨_, rfl, num⟩
        | recycled _ _ => exact ⟨_, rfl, rfl⟩
      rw [sat_bind]
      refine acquire_any fun _ => ?_
      rw [sat_bind, sat_modifyInode]
      have hw := ((h₁.setInode hne x).setLock ip true).write hne (x := { x with
        toDiskInode := { type, major, minor, nlink := 1, size := 0, addrs := fun _ => 0 }
        valid := true }) rfl (by rw [hx]; exact hn) (Nat.zero_le _) (Or.inl rfl)
      have hic : ((s₁.setInode ip x).setLock (.inode ip) true).icache ip = x := by simp
      rw [hic]
      refine hw.rw.bind fun _ s₃ h₃ => ?_
      rw [sat_bind]
      refine release_any fun _ => (sat_pure _).mpr ?_
      rintro jp ⟨⟩
      exact (h₃.toFullDir.setLock ip false).beside h₃ rfl

end

end WhuOs.Fs
