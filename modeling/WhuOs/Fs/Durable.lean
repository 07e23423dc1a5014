import WhuOs.Fs.FileRuns

/-! # Durability of file data

A byte in a direct block is written through: `ByteAt` says that the cache and the
disk agree on it, so that evictions cannot lose it. A write to the direct range
leaves every byte in that state, reading other blocks keeps it there, and a read
finds it again. Behind the direct blocks the law fails: the entries of index
blocks live in the cache only.
-/

namespace WhuOs.Fs

open Prog Bytes Bits PtrTree

/-- The field of `addrs` in charge of byte `o` of the direct range. -/
def directField (o : Nat) : Fin 13 := Fin.ofNat 13 (o / blockSize)

def home (s : State) (ip : Slot) (o : Nat) : Nat := ((s.icache ip).addrs (directField o)).toNat

/-- Byte `o` of the file behind `ip` is `v`, in the cache and on disk. -/
structure ByteAt (s : State) (ip : Slot) (o : Nat) (v : UInt8) : Prop where
  direct : o < nAddrs1 * blockSize
  ne : home s ip o ≠ 0
  view : s.view (home s ip o) (o % blockSize) = v
  disk : s.disk (home s ip o) (o % blockSize) = v

section

variable {A : Nat → Prop} {s s' s₁ s₂ : State} {n o : Nat} {ip : Slot} {v : UInt8} {src : Bytes}
  {G H : Event → Prop} {E : Panic → Prop}

theorem directField_val (h : o < nAddrs1 * blockSize) : (directField o).val = o / blockSize := by
  have hlt : o < 10 * 1024 := h
  have hv : (directField o).val = o / blockSize % 13 := rfl
  rw [hv, Nat.mod_eq_of_lt]
  unfold blockSize
  omega

theorem home_eq (h : TreeInv A [] s) (hn : A n) (hop : Opened s n ip) (o : Nat) :
    home s ip o = blockAt s ⟨n, directField o, []⟩ := by
  rw [blockAt, inodeCopy_slot h.uniq hop.valid hop.num (h.owned.bound n hn)]
  rfl

theorem posOf_direct (hn : A n) (o : Nat) : PosOf A ⟨n, directField o, []⟩ :=
  ⟨hn, by simp, by simp⟩

theorem ByteAt.level (h : ByteAt s ip o v) : addrLevel (directField o) = 0 := by
  apply addrLevel_direct
  have hlt : o < 10 * 1024 := h.direct
  rw [directField_val h.direct]
  unfold blockSize
  omega

/-- The block of a byte is a data block and no index block. -/
theorem ByteAt.leaf (hb : ByteAt s ip o v) (h : TreeInv A [] s) (hn : A n) (hop : Opened s n ip) :
    InData (home s ip o) ∧ dbit s.disk (home s ip o) = true ∧ ¬ Inner A n s (home s ip o) := by
  have hhome := home_eq h hn hop o
  have hne : blockAt s ⟨n, directField o, []⟩ ≠ 0 := by
    rw [← hhome]
    exact hb.ne
  rw [hhome]
  refine ⟨h.owned.area _ (posOf_direct hn o) hne, h.marked _ (posOf_direct hn o) hne, ?_⟩
  rintro ⟨p, k, hp, -, he⟩
  have hpos := h.owned.excl _ _ hp.of_append (posOf_direct hn o) he (by rw [he]; exact hne)
  have hdepth := hp.depth
  simp only [Pos.mk.injEq] at hpos
  simp [hpos.2.1, hb.level] at hdepth

/-! ## Writing -/

/-- A lookup does not move a byte. -/
theorem ByteAt.found {bn r : Nat} (hb : ByteAt s ip o v) (h : TreeInv A [] s) (hn : A n)
    (hop : Opened s n ip) (f : Found A n ip bn s r s') : ByteAt s' ip o v := by
  obtain ⟨hd, hbit, hin⟩ := hb.leaf h hn hop
  have hhome : home s' ip o = home s ip o := by
    have hne : (s.icache ip).addrs (directField o) ≠ 0 := fun he => hb.ne (by rw [home, he]; rfl)
    rw [home, f.ext.addrs _ hne]
    rfl
  have hdisk := f.ext.disk (home s ip o) (by rw [inData_iff] at hd; omega)
  refine ⟨hb.direct, by rw [hhome]; exact hb.ne, ?_, by rw [hhome, hdisk]; exact hb.disk⟩
  rw [hhome]
  rcases f.ext.used _ hd hbit hin with hv | hv
  · rw [hv]
    exact hb.view
  · rw [hv]
    exact hb.disk

/-- Storing a block keeps a byte that is elsewhere, or that the new block has in its place. -/
theorem ByteAt.stored {r : Nat} {d : Block} (hb : ByteAt s ip o v) (hst : Stored [] s r d s')
    (hd : home s ip o = r → d (o % blockSize) = v) : ByteAt s' ip o v := by
  have hhome : home s' ip o = home s ip o := by
    rw [home, hst.core]
    rfl
  have hdisk : s'.disk = Function.update s.disk r d := by rw [hst.core]
  by_cases hr : home s ip o = r
  · refine ⟨hb.direct, by rw [hhome]; exact hb.ne, ?_, ?_⟩
    · rw [hhome, hr, hst.view]
      exact hd hr
    · rw [hhome, hr, hdisk, Function.update_self]
      exact hd hr
  · refine ⟨hb.direct, by rw [hhome]; exact hb.ne, ?_, ?_⟩
    · rw [hhome]
      rcases hst.evolves.view _ hr with hv | hv
      · rw [hv]
        exact hb.view
      · rw [hv]
        exact hb.disk
    · rw [hhome, hst.evolves.disk _ hr]
      exact hb.disk

/-- The block a lookup returns is the home of the bytes looked for. -/
theorem Found.home_ret {r : Nat} (f : Found A n ip (o / blockSize) s r s') (hn : A n)
    (hop : Opened s n ip) (ho : o < nAddrs1 * blockSize) : home s' ip o = r := by
  obtain ⟨p, -, hr, hdir⟩ := f.leaf
  have hlt : o < 10 * 1024 := ho
  have hp := hdir (directField o) (directField_val ho) (by unfold blockSize; omega)
  rw [home_eq f.tree hn (f.ext.opened hop), ← hp, hr]

/-- One round of the copy loop: the bytes of the round are in place, the others stay. -/
theorem Found.round {start total m r : Nat} (f : Found A n ip ((start + total) / blockSize) s r s₁)
    (h : TreeInv A [] s) (hn : A n) (hop : Opened s n ip)
    (hst : Stored [] s₁ r
      (splice (s₁.view r) ((start + total) % blockSize) (window src total) m) s₂)
    (h0 : 0 < m) (hm : (start + total) % blockSize + m ≤ blockSize)
    (hend : start + total + m ≤ nAddrs1 * blockSize)
    (hold : ∀ i < total, ByteAt s ip (start + i) (src i)) :
    ∀ i < total + m, ByteAt s₂ ip (start + i) (src i) := by
  intro i hi
  have hbs : blockSize = 1024 := rfl
  by_cases hnew : i < total
  · refine ((hold i hnew).found h hn hop f).stored hst fun he => ?_
    rw [splice_out (Or.inl ?_), ← he]
    · exact ((hold i hnew).found h hn hop f).view
    · -- the same block, but before the first byte of this round
      have hk := f.home_ret hn hop (o := start + total) (by omega)
      have hsame : home s₁ ip (start + i) = home s₁ ip (start + total) := by rw [he, hk]
      have hpos := f.tree.owned.excl ⟨n, directField (start + i), []⟩
        ⟨n, directField (start + total), []⟩ (posOf_direct hn _) (posOf_direct hn _)
        (by rw [← home_eq f.tree hn (f.ext.opened hop), ← home_eq f.tree hn (f.ext.opened hop), hsame])
        (by rw [← home_eq f.tree hn (f.ext.opened hop), he]; exact f.ne)
      simp only [Pos.mk.injEq, true_and, and_true] at hpos
      have hdiv := congrArg Fin.val hpos
      rw [directField_val (by omega), directField_val (by omega)] at hdiv
      rw [hbs] at hdiv ⊢
      omega
  · have hmul : nAddrs1 * blockSize = 10 * 1024 := rfl
    have hdiv : (start + i) / blockSize = (start + total) / blockSize := by
      rw [hbs] at hm ⊢
      omega
    have hmod : (start + i) % blockSize = (start + total) % blockSize + (i - total) := by
      rw [hbs] at hm ⊢
      omega
    have hfield : directField (start + i) = directField (start + total) := by
      rw [directField, hdiv]
      rfl
    have hk : home s₂ ip (start + i) = r := by
      have hic : s₂.icache = s₁.icache := by rw [hst.core]
      rw [home, hfield, hic]
      exact f.home_ret hn hop (o := start + total) (by omega)
    have hval : splice (s₁.view r) ((start + total) % blockSize) (window src total) m
        ((start + i) % blockSize) = src i := by
      rw [hmod, splice_in (by omega) (by omega), Nat.add_sub_cancel_left, window]
      congr 1
      omega
    refine ⟨by omega, by rw [hk]; exact f.ne, ?_, ?_⟩
    · rw [hk, hst.view, hval]
    · rw [hk, hst.core]
      dsimp only
      rw [Function.update_self, hval]

theorem u32_small {n : Nat} (h : n ≤ nAddrs1 * blockSize) : u32 n = n := by
  have hle : n ≤ 10 * 1024 := h
  exact Nat.mod_eq_of_lt (by omega)

/-- A write loop in the direct range puts every byte in place. -/
theorem writeLoop_bytes {start len : Nat} (hn : A n) (hend : start + len ≤ nAddrs1 * blockSize)
    (fuel : Nat) : ∀ {s : State} (total : Nat), Careful G s → TreeInv A [] s → Opened s n ip →
    total ≤ len → len - total ≤ fuel → (∀ i < total, ByteAt s ip (start + i) (src i)) →
    SatOn (writeLoop ip src fuel (start + total) total len) s G (fun _ => True)
      (fun q s' => q = (start + len, len) ∧ TreeInv A [] s' ∧ Wrote A n ip s s' ∧
        ∀ i < len, ByteAt s' ip (start + i) (src i)) := by
  induction fuel with
  | zero =>
      intro s total _ h _ hle hfuel hold
      obtain rfl : total = len := by omega
      exact satOn_pure ⟨rfl, h, Wrote.refl _ _ _ _, hold⟩
  | succ fuel ih =>
      intro s total hcare h hop hle hfuel hold
      rw [writeLoop]
      split
      · next hlt =>
        refine writeRound_on trivial (fun _ _ => trivial) hn hcare h hop (fun _ _ => trivial)
          fun r s₁ s₂ f hst => ?_
        obtain ⟨ht, hw⟩ := f.stored_wrote hst
        have hall := (f.wrote h).trans hw
        have hbs : blockSize = 1024 := rfl
        have hmod : (start + total) % blockSize < blockSize := Nat.mod_lt _ (by decide)
        have hround := f.round h hn hop hst (by omega) (by omega) (by omega) hold
        rw [u32_small (by omega), Nat.add_assoc start total]
        exact (ih _ (hcare.wrote hall) ht (hall.opened hop) (by omega) (by omega) hround).imp
          fun q s₃ hp => ⟨hp.1, hp.2.1, hall.trans hp.2.2.1, hp.2.2.2⟩
      · next hge =>
        obtain rfl : total = len := by omega
        exact satOn_pure ⟨rfl, h, Wrote.refl _ _ _ _, hold⟩

/-- The state after a write to the direct range. -/
structure WroteBytes (A : Nat → Prop) (n : Nat) (ip : Slot) (offset len : Nat) (src : Bytes)
    (s : State) : Prop where
  tree : TreeInv A [] s
  opened : Opened s n ip
  size : offset + len ≤ (s.icache ip).size.toNat
  bytes : ∀ i < len, ByteAt s ip (offset + i) (src i)

theorem inodeWriteData_bytes {offset len : Nat} (hcare : Careful G s) (h : TreeInv A [] s)
    (hn : A n) (hop : Opened s n ip) (hend : offset + len ≤ nAddrs1 * blockSize) :
    SatOn (inodeWriteData ip offset len src) s G (fun _ => True)
      (fun _ => WroteBytes A n ip offset len src) := by
  have hle : offset + len ≤ 10 * 1024 := hend
  unfold inodeWriteData
  rw [if_neg (by rw [u32_small hend]; exact Nat.not_lt.mpr (hend.trans (by decide)))]
  refine (writeLoop_bytes hn hend len 0 hcare h hop (Nat.zero_le _) (by omega)
    (by simp)).bind fun q s₁ hp => ?_
  obtain ⟨rfl, ht, hw, hbytes⟩ := hp
  rw [satOn_bind_of_eq (show inodeOf ip s₁ = (.ok (s₁.icache ip, s₁), []) from rfl)]
  have hop₁ := hw.opened hop
  dsimp only
  split
  · rw [satOn_bind_of_eq
      (show modifyInode ip (fun x => { x with size := UInt32.ofNat (offset + len) })
      s₁ = (.ok ((), s₁.setInode ip { s₁.icache ip with size := UInt32.ofNat (offset + len) }), [])
      from rfl)]
    have hb := h.owned.bound n hn
    have hr := inodeBlock_range hb
    have ht₂ : TreeInv A []
      (s₁.setInode ip { s₁.icache ip with size := UInt32.ofNat (offset + len) }) :=
      ht.setInode hop₁ hb hop₁.num hop₁.valid rfl
    have hop₂ : Opened
      (s₁.setInode ip { s₁.icache ip with size := UInt32.ofNat (offset + len) }) n ip :=
      ⟨by simpa using hop₁.num, by simpa using hop₁.valid⟩
    refine ((inodeRw_write_sat (b := inodeBlock Mkfs.sb n) (E := fun _ => False) ht₂.store.cache ?_
      (readable_nil _ (by unfold blockNumUnused; omega)) trivial).on).bind fun _ s₃ hst =>
        satOn_pure ?_
    · rw [ht₂.store.sb, hop₂.num]
    rw [hop₂.num] at hst
    have hic : s₃.icache = (s₁.setInode ip { s₁.icache ip with
        size := UInt32.ofNat (offset + len) }).icache := by rw [hst.core]
    refine ⟨(ht₂.slot_stored hop₂ hb hst).1, hop₂.congr hic, ?_, fun i hi => ?_⟩
    · rw [hic]
      simp only [setInode_icache, Function.update_self, UInt32.toNat_ofNat']
      rw [Nat.mod_eq_of_lt (by omega)]
    · have hbyte : ByteAt (s₁.setInode ip { s₁.icache ip with size := UInt32.ofNat (offset + len) })
          ip (offset + i) (src i) := by
        have hb₁ := hbytes i hi
        have hhome : home (s₁.setInode ip { s₁.icache ip with size := UInt32.ofNat (offset + len) })
            ip (offset + i) = home s₁ ip (offset + i) := by simp [home]
        exact ⟨hb₁.direct, by rw [hhome]; exact hb₁.ne, by rw [hhome]; exact hb₁.view,
          by rw [hhome]; exact hb₁.disk⟩
      have hd := inData_iff.mp (hbyte.leaf ht₂ hn hop₂).1
      exact hbyte.stored hst fun he => by omega
  · next hsize => exact satOn_pure ⟨ht, hop₁, by omega, hbytes⟩

/-! ## Evictions and reading -/

theorem ByteAt.loaded (hb : ByteAt s ip o v) (hl : Loaded [] s s') : ByteAt s' ip o v := by
  have hhome : home s' ip o = home s ip o := by
    rw [home, hl.core]
    rfl
  refine ⟨hb.direct, by rw [hhome]; exact hb.ne, ?_, by rw [hhome, hl.core]; exact hb.disk⟩
  rw [hhome]
  rcases hl.evolves.view (home s ip o) id with hv | hv
  · rw [hv]
    exact hb.view
  · rw [hv]
    exact hb.disk

theorem WroteBytes.loaded {offset len : Nat} (h : WroteBytes A n ip offset len src s)
    (hl : Loaded [] s s') : WroteBytes A n ip offset len src s' := by
  have hic : s'.icache = s.icache := by rw [hl.core]
  exact ⟨h.tree.loaded hl, h.opened.congr hic, by rw [hic]; exact h.size,
    fun i hi => (h.bytes i hi).loaded hl⟩

def readRelease (b : Nat) : FsM Unit := do
  let buf ← bufRead b
  bufRelease buf

theorem readRelease_sat {b : Nat} (hs : CacheInv [] s) (hb : b ≠ blockNumUnused) :
    Sat (readRelease b) s G (fun _ => Loaded [] s) E :=
  (bufRead_sat hs hb (by simp) (by simp)).bind fun _ _ p =>
    (bufRelease_sat p.inv p.fresh).imp fun _ _ r => p.loaded hs r

/-- A lookup of a direct block that is there. -/
theorem locate_home {Q : Nat → State → Prop} (ho : o < nAddrs1 * blockSize)
    (hne : home s ip o ≠ 0) :
    Sat (inodeLocateBlock ip (o / blockSize)) s G Q E ↔ Q (home s ip o) s := by
  have hlt : o < 10 * 1024 := ho
  have h1 : o / blockSize < nAddrs1 := by unfold blockSize nAddrs1; omega
  have hfield : (⟨o / blockSize, by unfold nAddrs1 at h1; omega⟩ : Fin 13) = directField o :=
    Fin.ext (directField_val ho).symm
  unfold inodeLocateBlock
  rw [dif_pos h1, locateBlock_succ, hfield]
  have hval : entryVal s (.addr ip (directField o)) ≠ 0 := hne
  rw [sat_bind, sat_readEntry, if_neg hval, if_pos rfl, sat_readEntry]
  rfl

theorem readLoop_bytes {start len : Nat} (hend : start + len ≤ nAddrs1 * blockSize) (fuel : Nat) :
    ∀ {s : State} (total : Nat) {dst : Bytes}, WroteBytes A n ip start len src s → A n →
    total ≤ len → len - total ≤ fuel → (∀ i < total, dst i = src i) →
    Sat (readLoop ip fuel (start + total) total len dst) s G
      (fun q _ => q.1 = len ∧ ∀ i < len, q.2 i = src i) E := by
  induction fuel with
  | zero =>
      intro s total dst _ _ hle hfuel hold
      obtain rfl : total = len := by omega
      exact (sat_pure _).mpr ⟨rfl, hold⟩
  | succ fuel ih =>
      intro s total dst h hn hle hfuel hold
      rw [readLoop]
      split
      · next hlt =>
        have hbyte := h.bytes total hlt
        have hd := inData_iff.mp (hbyte.leaf h.tree hn h.opened).1
        rw [sat_bind, locate_home hbyte.direct hbyte.ne]
        refine (bufRead_sat h.tree.store.cache (by unfold blockNumUnused; omega) (by simp)
          (by simp)).bind fun buf s₁ p => ?_
        rw [sat_bind, sat_bufData, p.data]
        refine p.release_sat h.tree.store.cache fun s₂ hl => ?_
        have hbs : blockSize = 1024 := rfl
        have hmod : (start + total) % blockSize < blockSize := Nat.mod_lt _ (by decide)
        rw [u32_small (by omega), Nat.add_assoc start total]
        refine ih _ (h.loaded hl) hn (by omega) (by omega) fun i hi => ?_
        by_cases hnew : i < total
        · rw [splice_out (Or.inl hnew)]
          exact hold i hnew
        · rw [splice_in (by omega) (by omega), window]
          have hb := h.bytes i (by omega)
          have hdiv : (start + i) / blockSize = (start + total) / blockSize := by
            rw [hbs] at hi ⊢
            omega
          have hpos : (start + total) % blockSize + (i - total) = (start + i) % blockSize := by
            rw [hbs] at hi ⊢
            omega
          have hhome : home s ip (start + total) = home s ip (start + i) := by
            rw [home, home, directField, directField, hdiv]
          rw [hpos, hhome]
          exact hb.view
      · next hge =>
        obtain rfl : total = len := by omega
        exact (sat_pure _).mpr ⟨rfl, hold⟩

theorem WroteBytes.read_sat {offset len : Nat} (h : WroteBytes A n ip offset len src s) (hn : A n)
    (hend : offset + len ≤ nAddrs1 * blockSize) (dst : Bytes) :
    Sat (inodeReadData ip offset len dst) s G
      (fun q _ => q.1 = len ∧ ∀ i < len, q.2 i = src i) E := by
  have hsize := h.size
  unfold inodeReadData
  rw [sat_bind, sat_inodeOf]
  dsimp only
  rw [if_neg (by omega), if_neg (by rw [u32_small hend]; omega)]
  exact readLoop_bytes hend len 0 h hn (Nat.zero_le _) (by omega) (by simp)

end

/-! ## Whole runs -/

def NoFail : Event → Prop
  | .allocFail => False
  | _ => True

instance : DecidablePred NoFail
  | .allocFail => isFalse id
  | .newIndex _ _ => isTrue trivial
  | .diskWrite _ => isTrue trivial
  | .destroy _ _ => isTrue trivial

/-- States reached from an image by creating, opening and writing files, with the data bitmap
never exhausted. -/
def GrowReach (img : Mkfs.Image) (s : State) : Prop :=
  ∃ s₀, Mounted img s₀ ∧ Reach (fun op s => FileOp.May op s ∧ FileOp.Grows op ∧
    ∀ t ∈ (FileOp.run op s).2, NoFail t) FileOp.run s₀ s

theorem GrowReach.inv {junk : Bytes} {files : List Mkfs.HostFile} {img : Mkfs.Image} {s : State}
    (h : Mkfs.main junk files = some img) (hr : GrowReach img s) : FileInv files.length True s := by
  obtain ⟨s₀, hm, hrun⟩ := hr
  refine hrun.invariant (fun op s s' hi hmay hok => ?_) (fileInv_mounted h hm True)
  have hcare : Careful NoFail s := ⟨id, Or.inr (hi.empty trivial)⟩
  exact (hi.step (Mkfs.main_fresh h).few hcare op hmay.1 (fun _ => hmay.2.1) hmay.2.2).2 () s' hok

/-- If the write returns `len` and no allocation fails, then the bytes are read back after any
reads of other blocks in between. -/
def Durable (s : State) (ip : Slot) (offset len : Nat) (src : Bytes) : Prop :=
  ∀ s₁, (inodeWriteData ip offset len src s).1 = .ok (len, s₁) →
    (∀ t ∈ (inodeWriteData ip offset len src s).2, NoFail t) →
    ∀ blocks : List Nat, (∀ b ∈ blocks, b ≠ blockNumUnused) → ∀ dst,
      ∃ s₂ out s₃, (runAll readRelease blocks s₁).1 = .ok ((), s₂) ∧
        (inodeReadData ip offset len dst s₂).1 = .ok ((len, out), s₃) ∧ ∀ i < len, out i = src i

/-- A read of no bytes. -/
theorem inodeReadData_none (ip : Slot) (offset : Nat) (dst : Bytes) (s : State) :
    (inodeReadData ip offset 0 dst s).1 = .ok ((0, dst), s) := by
  suffices h :
      Sat (inodeReadData ip offset 0 dst) s (fun _ => True) (fun q s' => (q, s') = ((0, dst), s))
        fun _ => False by
    obtain ⟨q, s', hr, heq⟩ := h.returns
    rw [hr, heq]
  have hsize : (s.icache ip).size.toNat < 2 ^ 32 := UInt32.toNat_lt _
  unfold inodeReadData
  rw [sat_bind, sat_inodeOf]
  dsimp only
  split
  · exact (sat_pure _).mpr rfl
  · next hle =>
    have hlen : ¬ u32 (offset + 0) > (s.icache ip).size.toNat :=
      Nat.not_lt.mpr ((Nat.mod_le _ _).trans (Nat.le_of_not_lt hle))
    rw [if_neg hlen, readLoop]
    exact (sat_pure _).mpr rfl

/-- A write of no bytes is durable: there is nothing to read back. -/
theorem durable_none {n offset : Nat} {s : State} {ip : Slot} {src : Bytes} {A : Nat → Prop}
    (hcare : Careful NoFail s) (h : TreeInv A [] s) (hn : A n) (hop : Opened s n ip) :
    Durable s ip offset 0 src := by
  intro s₁ hw hfail blocks hblocks dst
  have ht : TreeInv A [] s₁ :=
    ((inodeWriteData_on (H := fun _ => True) hcare h hn hop trivial (fun _ _ => trivial) trivial
      (fun _ _ => trivial) offset 0 hfail).2 0 s₁ hw).1
  have hevict :
      Sat (runAll readRelease blocks) s₁ (fun _ => True) (fun _ => TreeInv A []) fun _ => False :=
    runAll_sat blocks (fun b hb t htree => (readRelease_sat htree.store.cache (hblocks b hb)).imp
      fun _ _ hl => htree.loaded hl) ht
  obtain ⟨⟨⟩, s₂, hs₂, -⟩ := hevict.returns
  exact ⟨s₂, dst, s₂, hs₂, inodeReadData_none ip offset dst s₂, fun i hi =>
    absurd hi (Nat.not_lt_zero i)⟩

/-- A write through a handle is durable if it stays within the direct blocks, or has nothing to
store. -/
theorem durable_in_direct_blocks (junk : Bytes) (files : List Mkfs.HostFile) (img : Mkfs.Image)
    (h : Mkfs.main junk files = some img) (s : State) (hr : GrowReach img s) (ip : Slot)
    (href : 0 < (s.icache ip).ref) (offset len : Nat) (src : Bytes)
    (hend : len = 0 ∨ offset + len ≤ nAddrs1 * blockSize) :
    Durable (s.setLock (.inode ip) true) ip offset len src := by
  have hi := hr.inv h
  obtain ⟨hop, hn⟩ := hi.opened href
  have ht : TreeInv (Live s) [] (s.setLock (.inode ip) true) :=
    hi.tree.setLock (by simp) (by simp) true
  have hcare : Careful NoFail (s.setLock (.inode ip) true) := ⟨id, Or.inr (hi.empty trivial)⟩
  rcases hend with rfl | hend
  · exact durable_none hcare ht hn (hop.congr rfl)
  intro s₁ hw hfail blocks hblocks dst
  have hwrote : WroteBytes (Live s) _ ip offset len src s₁ :=
    ((inodeWriteData_bytes hcare ht hn (hop.congr rfl) hend) hfail).2 len s₁ hw
  have hevict : Sat (runAll readRelease blocks) s₁ (fun _ => True)
      (fun _ => WroteBytes (Live s) (s.icache ip).inodeNum ip offset len src) (fun _ => False) :=
    runAll_sat blocks (fun b hb t hwt => (readRelease_sat hwt.tree.store.cache (hblocks b hb)).imp
      fun _ _ hl => hwt.loaded hl) hwrote
  obtain ⟨⟨⟩, s₂, hs₂, hw₂⟩ := hevict.returns
  obtain ⟨⟨k, out⟩, s₃, hread, rfl, hout⟩ :=
    (hw₂.read_sat (G := fun _ => True) (E := fun _ => False) hn hend dst).returns
  exact ⟨s₂, out, s₃, hs₂, hread, hout⟩

/-- The first byte of a new file. -/
theorem durable_first_byte :
    ∃ img s, Mkfs.main (fun _ => 0) [] = some img ∧ GrowReach img s ∧ 0 < (s.icache 0).ref ∧
      Durable (s.setLock (.inode 0) true) 0 0 1 (fun _ => 7) := by
  have hrun : (bootRun (fun op s => op.May s ∧ op.Grows ∧ ∀ t ∈ (op.run s).2, NoFail t) FileOp.run
    [] [.create ftFile 0 0]).any
      (fun s => 0 < (s.icache 0).ref) = true := by
    decide +kernel
  obtain ⟨s, hs, href⟩ := exists_of_any hrun
  obtain ⟨img, s₀, himg, hm, hr⟩ := reach_of_bootRun (fun _ _ h => of_decide_eq_true h) hs
  exact ⟨img, s, himg, ⟨s₀, hm, hr⟩, of_decide_eq_true href,
    durable_in_direct_blocks _ _ img himg s ⟨s₀, hm, hr⟩ 0
      (of_decide_eq_true href) 0 1 _ (.inr (by decide))⟩

/-- Write a one at `offset`, read 64 other blocks, and look at the byte again. -/
def rereadByte (offset : Nat) (s : State) : Option UInt8 :=
  match inodeWriteData 0 offset 1 (fun _ => 1) s with
  | (.ok (k, s₁), l) =>
      if k = 1 ∧ ∀ t ∈ l, NoFail t then
        match (runAll readRelease (List.range' 1000 64) s₁).1 with
        | .ok (_, s₂) =>
            match (inodeReadData 0 offset 1 (fun _ => 0) s₂).1 with
            | .ok (q, _) => some (q.2 0)
            | .error _ => none
        | .error _ => none
      else none
  | (.error _, _) => none

theorem Durable.rereadByte {offset : Nat} {s : State} {v : UInt8}
    (h : Durable s 0 offset 1 (fun _ => 1)) (hv : rereadByte offset s = some v) : v = 1 := by
  unfold Fs.rereadByte at hv
  split at hv
  · next k s₁ l hw =>
    split at hv
    · next hk =>
      obtain ⟨rfl, hl⟩ := hk
      obtain ⟨s₂, out, s₃, hs₂, hread, hout⟩ := h s₁ (by rw [hw]) (by rw [hw]; exact hl)
        (List.range' 1000 64) (by decide) (fun _ => 0)
      rw [hs₂] at hv
      simp only [hread, Option.some.injEq] at hv
      rw [← hv]
      exact hout 0 (by omega)
    · cases hv
  · cases hv

/-- A byte appended behind the direct blocks is lost when its index block leaves the cache. -/
theorem lost_index_entry :
    ∃ img s, Mkfs.main (fun _ => 0) [] = some img ∧ GrowReach img s ∧ 0 < (s.icache 0).ref ∧
      10240 ≤ (s.icache 0).size.toNat ∧ 10240 + 1 ≤ inodeMaxSize ∧
      ¬ Durable (s.setLock (.inode 0) true) 0 10240 1 (fun _ => 1) := by
  have hrun : (bootRun (fun op s => op.May s ∧ op.Grows ∧ ∀ t ∈ (op.run s).2, NoFail t)
      FileOp.run []
      [.create ftFile 0 0, .write 0 0 10240 (fun _ => 1)]).any
      (fun s => 0 < (s.icache 0).ref ∧ 10240 ≤ (s.icache 0).size.toNat ∧
        rereadByte 10240 (s.setLock (.inode 0) true) = some 0) = true := by
    decide +kernel
  obtain ⟨s, hs, hp⟩ := exists_of_any hrun
  obtain ⟨href, hsize, hlast⟩ := of_decide_eq_true hp
  obtain ⟨img, s₀, himg, hm, hr⟩ := reach_of_bootRun (fun _ _ h => of_decide_eq_true h) hs
  refine ⟨img, s, himg, ⟨s₀, hm, hr⟩, href, hsize, by decide, fun hd => ?_⟩
  exact absurd (hd.rereadByte hlast) (by decide)

end WhuOs.Fs
