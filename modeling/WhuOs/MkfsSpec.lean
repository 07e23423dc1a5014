import WhuOs.Fs.Volume

/-! # What an image holds

Invariants of the image while `mkfs` runs, and the resulting description of a
finished image (`Fresh`): layout, bitmaps, inodes, the entries of the root
directory, and which blocks the inodes own. Index blocks are allocated but never
written, so on disk they are empty.
-/

namespace WhuOs.Mkfs

open Bytes Bits Fs

/-! ## Allocation -/

/-- The allocator hands out the smallest clear bit and sets it. -/
theorem bitmapAlloc_spec {img img' : Image} {bb n : Nat}
    (h : bitmapAlloc img bb = some (n, img')) :
    n < 8192 ∧ bitAt (img bb) n = false ∧ (∀ m < n, bitAt (img bb) m = true) ∧
      img' = Function.update img bb (setBit (img bb) n) := by
  unfold bitmapAlloc at h
  have hscan := scan_spec (img bb) blockSize 0
  revert hscan h
  cases scan (img bb) blockSize 0 with
  | none => intro h; cases h
  | some q =>
      rcases q with ⟨byte, shift, bitCmp⟩
      rintro h ⟨-, hbyte, hshift, rfl, hclear, hbelow⟩
      simp only [Option.some.injEq, Prod.mk.injEq] at h
      obtain ⟨rfl, rfl⟩ := h
      have hb : byte < 1024 := by simpa [blockSize] using hbyte
      have hd : (byte * 8 + shift) / 8 = byte := by omega
      have hm : (byte * 8 + shift) % 8 = shift := by omega
      refine ⟨by omega, hclear, fun m hm => hbelow m (by omega) hm, ?_⟩
      rw [blockWrite, setBit, hd, hm]

theorem blockAlloc_spec {img img' : Image} {b : Nat} (h : blockAlloc img = some (b, img')) :
    InData b ∧ dbit img b = false ∧ img' = setDbit img b := by
  unfold blockAlloc at h
  rw [Option.map_eq_some_iff] at h
  obtain ⟨⟨n, img₁⟩, ha, he⟩ := h
  simp only [Prod.mk.injEq] at he
  obtain ⟨rfl, rfl⟩ := he
  obtain ⟨hn, hc, -, hi⟩ := bitmapAlloc_spec ha
  have hsub : n + sb.dataStart - 131 = n := by
    change n + 131 - 131 = n
    omega
  refine ⟨?_, ?_, ?_⟩
  · rw [inData_iff]
    change 131 ≤ n + 131 ∧ n + 131 < 8323
    omega
  · change bitAt (img 130) (n + sb.dataStart - 131) = false
    rw [hsub]
    exact hc
  · rw [setDbit, hsub]
    exact hi

theorem inodeAlloc_spec {img img' : Image} {n : Nat} (h : inodeAlloc img = some (n, img')) :
    ibit img n = false ∧ (∀ m < n, ibit img m = true) ∧ img' = setIbit img n := by
  obtain ⟨-, hc, hb, hi⟩ := bitmapAlloc_spec h
  exact ⟨hc, hb, hi⟩

/-- `img'` comes from `img` by allocating blocks only. -/
structure AllocOnly (img img' : Image) : Prop where
  keep : ∀ b, b ≠ 130 → img' b = img b
  mono : ∀ b, InData b → dbit img b = true → dbit img' b = true

theorem AllocOnly.refl (img : Image) : AllocOnly img img := ⟨fun _ _ => rfl, fun _ _ h => h⟩

theorem AllocOnly.trans {i₁ i₂ i₃ : Image} (h : AllocOnly i₁ i₂) (h' : AllocOnly i₂ i₃) :
    AllocOnly i₁ i₃ :=
  ⟨fun b hb => (h'.keep b hb).trans (h.keep b hb), fun b hd hb => h'.mono b hd (h.mono b hd hb)⟩

theorem allocOnly_blockAlloc {img img' : Image} {b : Nat} (h : blockAlloc img = some (b, img')) :
    AllocOnly img img' ∧ dbit img' b = true := by
  obtain ⟨hd, -, rfl⟩ := blockAlloc_spec h
  refine ⟨⟨fun c hc => setDbit_of_ne hc, fun c hc h => ?_⟩, ?_⟩
  · rw [dbit_setDbit hd hc, h, Bool.or_true]
  · rw [dbit_setDbit hd hd]
    simp

def FreeZero (img : Image) : Prop := ∀ b, InData b → dbit img b = false → img b = fun _ => 0

theorem FreeZero.allocOnly {img img' : Image} (h : FreeZero img) (ha : AllocOnly img img') :
    FreeZero img' := by
  intro b hd hb
  have hold : dbit img b = false := by
    by_contra hne
    rw [ha.mono b hd (by simpa using hne)] at hb
    cases hb
  have hne : b ≠ 130 := by
    rw [inData_iff] at hd
    omega
  rw [ha.keep b hne, h b hd hold]

/-- A block that was free in `img` and is taken in `img'`. -/
structure Taken (img img' : Image) (b : Nat) : Prop where
  area : InData b
  free : dbit img b = false
  set : dbit img' b = true

theorem Taken.ne_of_set {img img' : Image} {b c : Nat} (h : Taken img img' b)
    (hc : dbit img c = true) : b ≠ c := fun he => by
  rw [← he, h.free] at hc
  cases hc

/-- `locate_block` on an empty or empty-index entry: the entry is kept or taken; below an
index the data block is always a new one, since the index block on disk is empty. -/
theorem locateBlock_spec {fuel : Nat} : ∀ {img img' : Image} {entry bn size ret entry' : Nat},
    FreeZero img → (entry ≠ 0 → size ≠ 1 → img entry = fun _ => 0) →
    (entry ≠ 0 → InData entry ∧ dbit img entry = true) →
    locateBlock fuel img entry bn size = some (ret, entry', img') →
    AllocOnly img img' ∧ (entry ≠ 0 → entry' = entry) ∧ (entry = 0 → Taken img img' entry') ∧
      (size = 1 → ret = entry') ∧ (size ≠ 1 → Taken img img' ret ∧ ret ≠ entry') := by
  induction fuel with
  | zero => intro img img' entry bn size ret entry' _ _ _ h; cases h
  | succ fuel ih =>
      intro img img' entry bn size ret entry' hz hidx hset h
      simp only [locateBlock, Option.bind_eq_bind, Option.bind_eq_some_iff, Prod.exists] at h
      obtain ⟨e, img₁, he, h⟩ := h
      -- the entry after the first allocation
      have first : AllocOnly img img₁ ∧ (entry ≠ 0 → e = entry) ∧ (entry = 0 → Taken img img₁ e) ∧
          InData e ∧ dbit img₁ e = true ∧ (size ≠ 1 → img₁ e = fun _ => 0) := by
        unfold entryAlloc at he
        by_cases h0 : entry = 0
        · rw [if_pos h0] at he
          obtain ⟨hd, hf, -⟩ := blockAlloc_spec he
          obtain ⟨ha, hs⟩ := allocOnly_blockAlloc he
          refine ⟨ha, fun hne => absurd h0 hne, fun _ => ⟨hd, hf, hs⟩, hd, hs, fun _ => ?_⟩
          have hne : e ≠ 130 := by
            rw [inData_iff] at hd
            omega
          rw [ha.keep e hne, hz e hd hf]
        · rw [if_neg h0] at he
          cases he
          exact ⟨AllocOnly.refl _, fun _ => rfl, fun h => absurd h h0, (hset h0).1, (hset h0).2,
            hidx h0⟩
      obtain ⟨ha, hk, ht, hd, hs, hzero⟩ := first
      by_cases h1 : size = 1
      · rw [if_pos h1] at h
        cases h
        exact ⟨ha, hk, ht, fun _ => rfl, fun hn => absurd h1 hn⟩
      · rw [if_neg h1] at h
        simp only [Option.bind_eq_some_iff, Prod.exists] at h
        obtain ⟨r, e₂, img₂, hrec, h⟩ := h
        cases h
        rw [hzero h1, word_zero] at hrec
        obtain ⟨ha₂, -, ht₂, hr₁, hr₂⟩ := ih (hz.allocOnly ha) (fun h => absurd rfl h)
          (fun h => absurd rfl h) hrec
        have hret : Taken img₁ img' ret := by
          by_cases hn : size / entryPerBlock = 1
          · rw [hr₁ hn]
            exact ht₂ rfl
          · exact (hr₂ hn).1
        have hfree : dbit img ret = false := by
          by_contra hne
          have := ha.mono ret hret.area (by simpa using hne)
          rw [hret.free] at this
          cases this
        refine ⟨ha.trans ha₂, hk, fun h0 => ⟨hd, (ht h0).free, ha₂.mono _ hd hs⟩,
          fun h => absurd h h1, fun _ => ⟨⟨hret.area, hfree, hret.set⟩, hret.ne_of_set hs⟩⟩

/-! ## The blocks inodes point to -/

/-- The root pointers `A n i` of inodes name distinct allocated data blocks; those that are
index blocks are empty. -/
structure Ptrs (img : Image) (A : Nat → Fin 13 → Nat) : Prop where
  area : ∀ n i, A n i ≠ 0 → InData (A n i) ∧ dbit img (A n i) = true
  inj : ∀ n i m j, A n i = A m j → A n i ≠ 0 → n = m ∧ i = j
  index : ∀ n i, A n i ≠ 0 → 10 ≤ i.val → img (A n i) = fun _ => 0

/-- The pointers with those of inode `n` taken from `ip`. -/
def withInode (A : Nat → Fin 13 → Nat) (n : Nat) (ip : DiskInode) : Nat → Fin 13 → Nat :=
  Function.update A n fun i => (ip.addrs i).toNat

theorem withInode_self (A : Nat → Fin 13 → Nat) (n : Nat) (ip : DiskInode) (i : Fin 13) :
    withInode A n ip n i = (ip.addrs i).toNat := by
  simp [withInode]

theorem withInode_ne (A : Nat → Fin 13 → Nat) {n m : Nat} (ip : DiskInode) (h : m ≠ n) :
    withInode A n ip m = A m := by
  simp [withInode, h]

theorem Ptrs.allocOnly {img img' : Image} {A : Nat → Fin 13 → Nat} (h : Ptrs img A)
    (ha : AllocOnly img img') : Ptrs img' A := by
  refine ⟨fun n i hne => ?_, h.inj, fun n i hne hi => ?_⟩
  · obtain ⟨hd, hb⟩ := h.area n i hne
    exact ⟨hd, ha.mono _ hd hb⟩
  · have hd := (h.area n i hne).1
    rw [inData_iff] at hd
    rw [ha.keep _ (by omega), h.index n i hne hi]

/-- Setting one empty pointer to a block no pointer names. -/
theorem Ptrs.setPtr {img : Image} {A A' : Nat → Fin 13 → Nat} {n : Nat} {i : Fin 13} {b : Nat}
    (h : Ptrs img A) (hA : ∀ m j, A' m j = A m j ∨ (m = n ∧ j = i ∧ A' m j = b))
    (hd : InData b) (hb : dbit img b = true) (hfresh : ∀ m j, A m j ≠ b)
    (hz : 10 ≤ i.val → img b = fun _ => 0) : Ptrs img A' := by
  refine ⟨fun m j hne => ?_, fun m j m' j' he hne => ?_, fun m j hne hj => ?_⟩
  · rcases hA m j with h1 | ⟨-, -, h1⟩
    · rw [h1] at hne ⊢
      exact h.area m j hne
    · rw [h1]
      exact ⟨hd, hb⟩
  · rcases hA m j with h1 | ⟨rfl, rfl, h1⟩ <;> rcases hA m' j' with h2 | ⟨rfl, rfl, h2⟩
    · rw [h1, h2] at he
      rw [h1] at hne
      exact h.inj m j m' j' he hne
    · rw [h1, h2] at he
      exact absurd he (hfresh m j)
    · rw [h1, h2] at he
      exact absurd he.symm (hfresh m' j')
    · exact ⟨rfl, rfl⟩
  · rcases hA m j with h1 | ⟨-, rfl, h1⟩
    · rw [h1] at hne ⊢
      exact h.index m j hne hj
    · rw [h1]
      exact hz hj

/-- Overwriting an allocated block that is no index block. -/
theorem Ptrs.write {img : Image} {A : Nat → Fin 13 → Nat} (h : Ptrs img A) {b : Nat}
    (hb : b ≠ 130) (hleaf : ∀ n i, A n i = b → i.val < 10) (x : Block) :
    Ptrs (blockWrite img b x) A := by
  refine ⟨fun n i hne => ?_, h.inj, fun n i hne hi => ?_⟩
  · rw [blockWrite, dbit_update hb]
    exact h.area n i hne
  · have hnb : A n i ≠ b := fun he => absurd (hleaf n i he) (by omega)
    rw [blockWrite, Function.update_of_ne hnb]
    exact h.index n i hne hi

theorem FreeZero.write {img : Image} (h : FreeZero img) {b : Nat} (hb : b ≠ 130)
    (hset : InData b → dbit img b = true) (x : Block) : FreeZero (blockWrite img b x) := by
  intro c hc hclr
  rw [blockWrite, dbit_update hb] at hclr
  have hne : c ≠ b := fun he => by
    rw [he] at hclr
    rw [hset (he ▸ hc)] at hclr
    cases hclr
  rw [blockWrite, Function.update_of_ne hne]
  exact h c hc hclr

/-! ## Copying a host file -/

/-- Image and current inode while file `n` is copied. -/
structure CopyInv (A : Nat → Fin 13 → Nat) (n : Nat) (ip : DiskInode) (img : Image) : Prop where
  zero : FreeZero img
  ptrs : Ptrs img (withInode A n ip)

structure Located (A : Nat → Fin 13 → Nat) (n : Nat) (ip ip' : DiskInode) (img img' : Image)
    (ret : Nat) : Prop where
  inv : CopyInv A n ip' img'
  alloc : AllocOnly img img'
  area : InData ret
  set : dbit img' ret = true
  leaf : ∀ m j, withInode A n ip' m j = ret → m = n ∧ j.val < 10
  fields : ip' = { ip with addrs := ip'.addrs }

theorem toNat_ofNat_inData {b : Nat} (h : InData b) : (UInt32.ofNat b).toNat = b := by
  rw [inData_iff] at h
  rw [UInt32.toNat_ofNat']
  omega

/-- The pointers after one of the inode's own is set. -/
theorem withInode_setPtr {A : Nat → Fin 13 → Nat} {n e : Nat} {ip : DiskInode} {i : Fin 13}
    (he : InData e) :
    withInode A n { ip with addrs := Function.update ip.addrs i (UInt32.ofNat e) } n i = e := by
  rw [withInode_self]
  simp only [Function.update_self]
  exact toNat_ofNat_inData he

theorem withInode_setPtr_cases (A : Nat → Fin 13 → Nat) (n : Nat) (ip : DiskInode) (i : Fin 13)
    {e : Nat} (he : InData e) (m : Nat) (j : Fin 13) :
    withInode A n { ip with addrs := Function.update ip.addrs i (UInt32.ofNat e) } m j =
      withInode A n ip m j ∨ (m = n ∧ j = i ∧
        withInode A n { ip with addrs := Function.update ip.addrs i (UInt32.ofNat e) } m j =
          e) := by
  by_cases hm : m = n
  · subst hm
    by_cases hj : j = i
    · subst hj
      exact .inr ⟨rfl, rfl, withInode_setPtr he⟩
    · left
      rw [withInode_self, withInode_self]
      simp only [Function.update_of_ne hj]
  · left
    rw [withInode_ne _ _ hm, withInode_ne _ _ hm]

theorem locateAddr_spec {A : Nat → Fin 13 → Nat} {n fuel bn size ret : Nat} {ip ip' : DiskInode}
    {img img' : Image} {i : Fin 13} (h : CopyInv A n ip img) (hsize : size = 1 ↔ i.val < 10)
    (hl : locateAddr fuel img ip i bn size = some (ret, ip', img')) :
    Located A n ip ip' img img' ret := by
  simp only [locateAddr, Option.bind_eq_bind, Option.bind_eq_some_iff, Prod.exists] at hl
  obtain ⟨r, e, img₁, hb, hl⟩ := hl
  cases hl
  have hold : ∀ m j, withInode A n ip m j ≠ 0 → InData (withInode A n ip m j) ∧
      dbit img (withInode A n ip m j) = true := h.ptrs.area
  obtain ⟨ha, hkeep, htake, hr₁, hr₂⟩ := locateBlock_spec h.zero
    (fun hne h1 => by
      have hi := h.ptrs.index n i
      rw [withInode_self] at hi
      exact hi hne (by have := mt hsize.mpr h1; omega))
    (fun hne => by
      have ho := hold n i
      rw [withInode_self] at ho
      exact ho hne) hb
  have hptrs := h.ptrs.allocOnly ha
  -- the pointer field afterwards, and why the table stays good
  have hei : InData e ∧ dbit img' e = true := by
    by_cases h0 : (ip.addrs i).toNat = 0
    · exact ⟨(htake h0).area, (htake h0).set⟩
    · rw [hkeep h0]
      have ho := hptrs.area n i
      rw [withInode_self] at ho
      exact ho h0
  have hA := withInode_setPtr_cases A n ip i hei.1
  have hptrs' : Ptrs img' (withInode A n
      { ip with addrs := Function.update ip.addrs i (UInt32.ofNat e) }) := by
    by_cases h0 : (ip.addrs i).toNat = 0
    · refine hptrs.setPtr hA hei.1 hei.2 ?_ ?_
      · intro m j he
        have hd := hei.1
        rw [inData_iff] at hd
        have ho := (hold m j (by omega)).2
        rw [he, (htake h0).free] at ho
        cases ho
      · intro _
        have hd := hei.1
        rw [inData_iff] at hd
        rw [ha.keep e (by omega), h.zero e hei.1 (htake h0).free]
    · have hsame : withInode A n { ip with addrs := Function.update ip.addrs i (UInt32.ofNat e) } =
          withInode A n ip := by
        funext m j
        rcases hA m j with h1 | ⟨rfl, rfl, h1⟩
        · exact h1
        · rw [h1, withInode_self, hkeep h0]
      rw [hsame]
      exact hptrs
  refine ⟨⟨h.zero.allocOnly ha, hptrs'⟩, ha, ?_, ?_, ?_, rfl⟩
  · by_cases h1 : size = 1
    · rw [hr₁ h1]
      exact hei.1
    · exact (hr₂ h1).1.area
  · by_cases h1 : size = 1
    · rw [hr₁ h1]
      exact hei.2
    · exact (hr₂ h1).1.set
  · intro m j he
    by_cases h1 : size = 1
    · rw [hr₁ h1] at he
      have hd := hei.1
      rw [inData_iff] at hd
      obtain ⟨rfl, rfl⟩ := hptrs'.inj m j n i (by rw [he, withInode_setPtr hei.1]) (by omega)
      exact ⟨rfl, hsize.mp h1⟩
    · obtain ⟨ht, hne⟩ := hr₂ h1
      have hd := ht.area
      rw [inData_iff] at hd
      rcases hA m j with h2 | ⟨-, -, h2⟩
      · rw [h2] at he
        have ho := (hold m j (by omega)).2
        rw [he, ht.free] at ho
        cases ho
      · exact absurd (he.symm.trans h2) hne

theorem inodeLocateBlock_spec {A : Nat → Fin 13 → Nat} {n bn ret : Nat} {ip ip' : DiskInode}
    {img img' : Image} (h : CopyInv A n ip img)
    (hl : inodeLocateBlock img ip bn = some (ret, ip', img')) :
    Located A n ip ip' img img' ret := by
  unfold inodeLocateBlock at hl
  split at hl
  · next h1 =>
      exact locateAddr_spec h (by simpa [nAddrs1] using h1) hl
  · dsimp only at hl
    split at hl
    · exact locateAddr_spec h (by simp [nAddrs1, entryPerBlock]) hl
    · split at hl
      · exact locateAddr_spec h (by simp [nAddrs1, nAddrs2, entryPerBlock]; omega) hl
      · cases hl

/-- Effect of copying file `n`: only its own blocks and the data bitmap change. -/
structure Copied (A : Nat → Fin 13 → Nat) (n : Nat) (c c' : Copy) : Prop where
  inv : CopyInv A n c'.inode c'.img
  fields : c'.inode = { c.inode with addrs := c'.inode.addrs, size := c'.inode.size }
  outside : ∀ b, ¬ InData b → b ≠ 130 → c'.img b = c.img b
  others : ∀ m j, m ≠ n → A m j ≠ 0 → c'.img (A m j) = c.img (A m j)

theorem copyLoop_spec {A : Nat → Fin 13 → Nat} {n fuel : Nat} :
    ∀ {host : List UInt8} {c c' : Copy}, CopyInv A n c.inode c.img →
    copyLoop fuel host c = some c' → Copied A n c c' := by
  induction fuel with
  | zero => intro host c c' _ h; cases h
  | succ fuel ih =>
      intro host c c' hinv h
      simp only [copyLoop, Option.bind_eq_bind, Option.bind_eq_some_iff, Prod.exists] at h
      obtain ⟨ret, ip, img, hl, h⟩ := h
      have loc := inodeLocateBlock_spec hinv hl
      have hd := loc.area
      rw [inData_iff] at hd
      -- one chunk: lookup, then the block is written
      have step : ∀ x k sz, Copied A n c
          { buf := x, bn := k, inode := { ip with size := sz }, img := blockWrite img ret x } := by
        intro x k sz
        refine ⟨⟨loc.inv.zero.write (by omega) (fun _ => loc.set) _,
          loc.inv.ptrs.write (by omega) (fun m j he => (loc.leaf m j he).2) _⟩, ?_, ?_, ?_⟩
        · rw [loc.fields]
        · intro b hb hb'
          have hne : b ≠ ret := fun he => hb (he ▸ loc.area)
          simp only [blockWrite, Function.update_of_ne hne]
          exact loc.alloc.keep b hb'
        · intro m j hm hne
          have hold := withInode_ne A ip hm
          have hr : A m j ≠ ret := fun he => hm (loc.leaf m j (by rw [hold, he])).1
          have ha := (loc.inv.ptrs.area m j (by rwa [hold])).1
          rw [hold, inData_iff] at ha
          simp only [blockWrite, Function.update_of_ne hr]
          exact loc.alloc.keep _ (by omega)
      by_cases hlast : min blockSize host.length < blockSize
      · rw [if_pos hlast] at h
        cases h
        exact step _ _ _
      · rw [if_neg hlast] at h
        have s₁ := step (splice c.buf 0 (bytesOf host) (min blockSize host.length)) (c.bn + 1)
          (ip.size + UInt32.ofNat (min blockSize host.length))
        have s₂ := ih s₁.inv h
        refine ⟨s₂.inv, ?_, fun b hb hb' => (s₂.outside b hb hb').trans (s₁.outside b hb hb'),
          fun m j hm hne => (s₂.others m j hm hne).trans (s₁.others m j hm hne)⟩
        rw [s₂.fields, s₁.fields]

/-! ## The whole image -/

/-- Name and inode number of entry `k` of the root directory. -/
def rootEntry (files : List HostFile) : Nat → Name × Nat
  | 0 => (dot, 0)
  | 1 => (dotDot, 0)
  | k + 2 => ((files[k]?.map HostFile.name).getD [], k + 1)

def rootInode (count : Nat) : DiskInode :=
  { newInode ftDir with
    addrs := Function.update (fun _ => 0) 0 131
    size := UInt32.ofNat (direntSize * (count + 2)) }

/-- Root pointers of the inodes `main` has written; that of the root directory is known
before its inode is written. -/
def rootPtrs (count : Nat) (img : Image) (n : Nat) (i : Fin 13) : Nat :=
  if n = 0 then ((rootInode count).addrs i).toNat
  else if n ≤ count then ((inoAt img n).addrs i).toNat else 0

/-- The image with the files `files` in it, up to the final root inode. -/
structure Partial (junk : Bytes) (files : List HostFile) (img : Image) : Prop where
  super : img 0 = splice (fun _ => 0) 0 (sbBytes sb) 36
  inodes : ∀ n, ibit img n = decide (n ≤ files.length)
  few : files.length ≤ 30
  file : ∀ n, 0 < n → n ≤ files.length → (inoAt img n).type = ftFile ∧ (inoAt img n).nlink = 1
  zero : FreeZero img
  ptrs : Ptrs img (rootPtrs files.length img)
  entry : ∀ k < files.length + 2, ∀ i < 32,
    img 131 (32 * k + i) = rawDirent junk (rootEntry files k).1 (rootEntry files k).2 i
  names : ∀ f ∈ files, f.name.length < 30 ∧ slash ∉ f.name

/-- What a finished image holds. -/
structure Fresh (junk : Bytes) (files : List HostFile) (img : Image) : Prop
    extends Partial junk files img where
  root : inoAt img 0 = rootInode files.length

theorem Ptrs.congr {img img' : Image} {A A' : Nat → Fin 13 → Nat} (h : Ptrs img A)
    (hA : ∀ n i, A' n i = A n i) (hbit : ∀ b, InData b → dbit img' b = dbit img b)
    (hidx : ∀ n i, A n i ≠ 0 → 10 ≤ i.val → img' (A n i) = img (A n i)) : Ptrs img' A' := by
  obtain rfl : A' = A := by
    funext n i
    exact hA n i
  refine ⟨fun n i hne => ?_, h.inj, fun n i hne hi => ?_⟩
  · obtain ⟨hd, hb⟩ := h.area n i hne
    exact ⟨hd, by rw [hbit _ hd, hb]⟩
  · rw [hidx n i hne hi, h.index n i hne hi]

/-- Changing blocks outside the data area keeps the free blocks empty. -/
theorem FreeZero.congr {img img' : Image} (h : FreeZero img)
    (hbit : ∀ b, InData b → dbit img' b = dbit img b) (hd : ∀ b, InData b → img' b = img b) :
    FreeZero img' := fun b hb hc => by
  rw [hd b hb]
  exact h b hb (by rw [← hbit b hb, hc])

theorem rootPtrs_zero (count : Nat) (img : Image) (i : Fin 13) :
    rootPtrs count img 0 i = if i = 0 then 131 else 0 := by
  by_cases hi : i = 0 <;> simp [rootPtrs, rootInode, hi]

/-- Appending an entry to the root block. -/
theorem entry_append {junk : Bytes} {files : List HostFile} {f : HostFile} {x : Block}
    (h : ∀ k < files.length + 2, ∀ i < 32,
      x (32 * k + i) = rawDirent junk (rootEntry files k).1 (rootEntry files k).2 i) :
    ∀ k < (files ++ [f]).length + 2, ∀ i < 32,
      splice x (32 * (files.length + 2))
        (rawDirent junk f.name (files.length + 1)) 32 (32 * k + i) =
        rawDirent junk (rootEntry (files ++ [f]) k).1 (rootEntry (files ++ [f]) k).2 i := by
  intro k hk i hi
  rw [List.length_append, List.length_singleton] at hk
  by_cases hlast : k = files.length + 2
  · subst hlast
    rw [splice_in (by omega) (by omega), Nat.add_sub_cancel_left]
    simp [rootEntry]
  · rw [splice_out (by omega), h k (by omega) i hi]
    match k with
    | 0 => rfl
    | 1 => rfl
    | j + 2 => simp [rootEntry, List.getElem?_append_left (show j < files.length by omega)]

/-- The inode bitmap hands out the numbers in order. -/
theorem Partial.inodeAlloc_eq {junk : Bytes} {files : List HostFile} {img img' : Image} {n : Nat}
    (h : Partial junk files img) (ha : inodeAlloc img = some (n, img')) :
    n = files.length + 1 ∧ img' = setIbit img n := by
  obtain ⟨hc, hb, rfl⟩ := inodeAlloc_spec ha
  refine ⟨?_, rfl⟩
  rw [h.inodes n, decide_eq_false_iff_not] at hc
  by_contra hne
  have hlow := hb (files.length + 1) (by omega)
  rw [h.inodes, decide_eq_true_eq] at hlow
  omega

theorem direntCreate_spec {junk : Bytes} {img img' : Image} {b off off' n : Nat} {name : Name}
    (h : direntCreate junk img b off name n = some (off', img')) :
    name.length < 30 ∧ off + 32 ≤ 1024 ∧ off' = off + 32 ∧
      img' = Function.update img b (splice (img b) off (rawDirent junk name n) 32) := by
  unfold direntCreate at h
  split at h
  case isFalse => cases h
  next hfit =>
  cases h
  exact ⟨hfit.1, hfit.2, rfl, rfl⟩

/-- The image before a new file's contents are copied: its inode is allocated and written, and
its name stands in the root block. -/
theorem Partial.copyInv {junk : Bytes} {files : List HostFile} {img : Image} {x : Block}
    (h : Partial junk files img) (hfew : files.length + 3 ≤ 32) :
    CopyInv (rootPtrs files.length img) (files.length + 1) (newInode ftFile)
      (Function.update (setIno (setIbit img (files.length + 1)) (files.length + 1)
        (newInode ftFile)) 131 x) := by
  have hnd : files.length + 1 < nInodeDisk := by
    rw [nInodeDisk_eq]
    omega
  have hbit : ∀ b, dbit (Function.update (setIno (setIbit img (files.length + 1)) (files.length + 1)
      (newInode ftFile)) 131 x) b = dbit img b := by
    intro b
    rw [dbit_update (by omega), dbit_setIno hnd, dbit_setIbit]
  have hdata : ∀ b, InData b → b ≠ 131 → Function.update (setIno (setIbit img (files.length + 1))
      (files.length + 1) (newInode ftFile)) 131 x b = img b := by
    intro b hb hne
    rw [inData_iff] at hb
    rw [Function.update_of_ne hne, setIno_outside hnd (by omega), setIbit_of_ne (by omega)]
  have hroot := h.ptrs.area 0 0
  rw [rootPtrs_zero, if_pos rfl] at hroot
  refine ⟨fun b hb hc => ?_, h.ptrs.congr ?_ (fun b _ => hbit b) ?_⟩
  · rw [hbit] at hc
    have hne : b ≠ 131 := fun he => by
      rw [he, (hroot (by omega)).2] at hc
      cases hc
    rw [hdata b hb hne]
    exact h.zero b hb hc
  · intro n i
    by_cases hn : n = files.length + 1
    · rw [hn, withInode_self]
      simp [newInode, rootPtrs]
    · rw [withInode_ne _ _ hn]
  · intro n i hne hi
    have hd := (h.ptrs.area n i hne).1
    refine hdata _ hd fun he => ?_
    have hz : rootPtrs files.length img 0 0 = 131 := by rw [rootPtrs_zero, if_pos rfl]
    obtain ⟨rfl, rfl⟩ := h.ptrs.inj n i 0 0 (by rw [he, hz]) hne
    omega

/-- What adding the file `f` behind `files` does: its contents are copied, then its inode is
written. -/
structure Added (junk : Bytes) (files : List HostFile) (f : HostFile) (m m' : Build) (c : Copy) :
    Prop where
  loop : copyLoop (f.contents.length + 1) f.contents
    { buf := m.buf, bn := m.bn, inode := newInode ftFile
      img := Function.update (setIno (setIbit m.img (files.length + 1)) (files.length + 1)
        (newInode ftFile)) 131
        (splice (m.img 131) m.offset (rawDirent junk f.name (files.length + 1)) 32) } = some c
  inv : CopyInv (rootPtrs files.length m.img) (files.length + 1) (newInode ftFile)
    (Function.update (setIno (setIbit m.img (files.length + 1)) (files.length + 1)
      (newInode ftFile)) 131
      (splice (m.img 131) m.offset (rawDirent junk f.name (files.length + 1)) 32))
  img : m'.img = setIno c.img (files.length + 1) c.inode
  bn : m'.bn = c.bn
  offset : m'.offset = m.offset + 32
  name : f.name.length < 30 ∧ slash ∉ f.name
  room : m.offset + 32 ≤ 1024

theorem addFile_added {junk : Bytes} {files : List HostFile} {f : HostFile} {m m' : Build}
    (h : Partial junk files m.img) (hoff : m.offset = 32 * (files.length + 2))
    (ha : addFile junk 131 m f = some m') : ∃ c, Added junk files f m m' c := by
  unfold addFile at ha
  split at ha
  · cases ha
  next hslash =>
  simp only [Option.bind_eq_bind, Option.bind_eq_some_iff, Prod.exists] at ha
  obtain ⟨n, img₁, hn, off, img₃, hde, c, hc, ha⟩ := ha
  obtain ⟨rfl, rfl⟩ := h.inodeAlloc_eq hn
  obtain ⟨hname, hfit, rfl, rfl⟩ := direntCreate_spec hde
  cases ha
  have hnd : files.length + 1 < nInodeDisk := by
    rw [nInodeDisk_eq]
    omega
  have h131 : inodeWrite (setIbit m.img (files.length + 1)) (files.length + 1)
    (newInode ftFile) 131 =
      m.img 131 := (setIno_outside hnd (by omega)).trans (setIbit_of_ne (by omega))
  rw [h131] at hc
  exact ⟨c, hc, h.copyInv (by omega), rfl, rfl, rfl, ⟨hname, hslash⟩, hfit⟩

section

variable {junk : Bytes} {files : List HostFile} {f : HostFile} {m m' : Build} {c : Copy}

theorem Added.bound (a : Added junk files f m m' c) (hoff : m.offset = 32 * (files.length + 2)) :
    files.length + 1 < nInodeDisk := by
  have hroom := a.room
  rw [nInodeDisk_eq]
  omega

theorem Added.copied (a : Added junk files f m m' c) : Copied (rootPtrs files.length m.img)
    (files.length + 1) { buf := m.buf, bn := m.bn, inode := newInode ftFile
                         img := Function.update (setIno (setIbit m.img (files.length + 1))
                           (files.length + 1) (newInode ftFile)) 131 (splice (m.img 131) m.offset
                             (rawDirent junk f.name (files.length + 1)) 32) } c :=
  copyLoop_spec a.inv a.loop

/-- Blocks outside the data area and the data bitmap, before the file's inode is written. -/
theorem Added.outside (a : Added junk files f m m' c) {b : Nat} (hb : ¬ InData b) (hb' : b ≠ 130) :
    c.img b = setIno (setIbit m.img (files.length + 1)) (files.length + 1) (newInode ftFile) b := by
  have hne : b ≠ 131 := fun he => hb (by rw [he]; decide)
  rw [a.copied.outside b hb hb']
  exact Function.update_of_ne hne _ _

theorem Added.data (a : Added junk files f m m' c)
    (hoff : m.offset = 32 * (files.length + 2)) {b : Nat}
    (hb : InData b) : m'.img b = c.img b := by
  rw [inData_iff] at hb
  rw [a.img]
  exact setIno_outside (a.bound hoff) (by omega)

theorem Added.self (a : Added junk files f m m' c) : inoAt m'.img (files.length + 1) = c.inode := by
  rw [a.img, inoAt_setIno, if_pos rfl]

/-- The other inodes stay. -/
theorem Added.others (a : Added junk files f m m' c) {k : Nat} (hk : k < nInodeDisk)
    (hne : k ≠ files.length + 1) : inoAt m'.img k = inoAt m.img k := by
  have hr := inodeBlock_range hk
  have hnot : ¬ InData (inodeBlock sb k) := by
    rw [inData_iff]
    omega
  have hblock := a.outside hnot (by omega)
  rw [a.img, inoAt_setIno, if_neg hne, inoAt_congr hblock, inoAt_setIno,
    if_neg hne, inoAt_setIbit hk]

end

theorem addFile_spec {junk : Bytes} {files : List HostFile} {f : HostFile} {m m' : Build}
    (h : Partial junk files m.img) (hoff : m.offset = 32 * (files.length + 2))
    (ha : addFile junk 131 m f = some m') :
    Partial junk (files ++ [f]) m'.img ∧ m'.offset = 32 * ((files ++ [f]).length + 2) := by
  have hlen : (files ++ [f]).length = files.length + 1 := by simp
  obtain ⟨c, a⟩ := addFile_added h hoff ha
  have hroom := a.room
  have hnd := a.bound hoff
  have cp := a.copied
  have hout : ∀ b, b < 2 → m'.img b = setIbit m.img (files.length + 1) b := by
    intro b hb
    have hnot : ¬ InData b := by
      rw [inData_iff]
      omega
    rw [a.img, setIno_outside hnd (by omega), a.outside hnot (by omega),
      setIno_outside hnd (by omega)]
  have hbit : ∀ b, dbit m'.img b = dbit c.img b := by
    intro b
    rw [a.img]
    exact dbit_setIno hnd
  refine ⟨⟨?_, ?_, by rw [hlen]; omega, ?_, ?_, ?_, ?_, ?_⟩, by rw [hlen, a.offset]; omega⟩
  · rw [hout 0 (by omega), setIbit_of_ne (by omega), h.super]
  · intro k
    have e : ibit m'.img k = ibit (setIbit m.img (files.length + 1)) k :=
      congrArg (bitAt · k) (hout 1 (by omega))
    rw [e, ibit_setIbit, h.inodes, hlen, ← Bool.decide_or, decide_eq_decide]
    omega
  · intro k hk0 hk
    rw [hlen] at hk
    by_cases hne : k = files.length + 1
    · rw [hne, a.self, cp.fields]
      exact ⟨rfl, rfl⟩
    · rw [a.others (by omega) hne]
      exact h.file k hk0 (by omega)
  · exact cp.inv.zero.congr (fun b _ => hbit b) fun b => a.data hoff
  · refine cp.inv.ptrs.congr ?_ (fun b _ => hbit b) ?_
    · intro k i
      by_cases hne : k = files.length + 1
      · subst hne
        rw [withInode_self, rootPtrs, if_neg (by omega), hlen, if_pos le_rfl, a.self]
      · rw [withInode_ne _ _ hne, rootPtrs, rootPtrs, hlen]
        by_cases hk0 : k = 0
        · rw [if_pos hk0, if_pos hk0]
          rfl
        · rw [if_neg hk0, if_neg hk0]
          by_cases hk : k ≤ files.length
          · rw [if_pos (by omega), if_pos hk, a.others (by omega) hne]
          · rw [if_neg (by omega), if_neg hk]
    · intro k i hne hi
      exact a.data hoff (cp.inv.ptrs.area k i hne).1
  · have hz : rootPtrs files.length m.img 0 0 = 131 := by rw [rootPtrs_zero, if_pos rfl]
    have hroot := cp.others 0 0 (by omega) (by rw [hz]; omega)
    rw [hz] at hroot
    rw [a.data hoff (by decide), hroot]
    simp only [Function.update_self]
    rw [hoff]
    exact entry_append h.entry
  · intro g hg
    rw [List.mem_append, List.mem_singleton] at hg
    rcases hg with hg | rfl
    · exact h.names g hg
    · exact a.name

theorem addFiles_spec {junk : Bytes} {fs : List HostFile} :
    ∀ {files : List HostFile} {m m' : Build}, Partial junk files m.img →
    m.offset = 32 * (files.length + 2) → addFiles junk 131 fs m = some m' →
    Partial junk (files ++ fs) m'.img := by
  induction fs with
  | nil =>
      intro files m m' h _ ha
      cases ha
      rwa [List.append_nil]
  | cons f fs ih =>
      intro files m m' h hoff ha
      simp only [addFiles, Option.bind_eq_bind, Option.bind_eq_some_iff] at ha
      obtain ⟨m₁, hf, ha⟩ := ha
      obtain ⟨h₁, hoff₁⟩ := addFile_spec h hoff hf
      have h₂ := ih h₁ hoff₁ ha
      rwa [List.append_assoc] at h₂

/-- The first clear bit of an empty bitmap is bit 0. -/
theorem bitmapAlloc_empty {img img' : Image} {bb n : Nat} (hz : img bb = fun _ => 0)
    (h : bitmapAlloc img bb = some (n, img')) :
    n = 0 ∧ img' = Function.update img bb (setBit (img bb) 0) := by
  obtain ⟨-, -, hb, hi⟩ := bitmapAlloc_spec h
  have hn : n = 0 := by
    by_contra hne
    have h0 := hb 0 (by omega)
    rw [hz] at h0
    simp [bitAt] at h0
  subst hn
  exact ⟨rfl, hi⟩

/-- The image with the super block and the root inode, before the first entry. -/
def rootBase : Image :=
  setIno (setDbit (setIbit (blockWrite (fun _ _ => 0) 0 (splice (fun _ => 0) 0 (sbBytes sb) 36)) 0)
    131) 0 (newInode ftDir)

theorem rootBase_ibit (n : Nat) : ibit rootBase n = decide (n ≤ 0) := by
  rw [rootBase, ibit_setIno (by decide), ibit_setDbit, ibit_setIbit]
  simp [ibit, bitAt, blockWrite, sb]

theorem rootBase_dbit {b : Nat} (h : InData b) : dbit rootBase b = decide (b = 131) := by
  rw [rootBase, dbit_setIno (by decide), dbit_setDbit (by decide) h]
  simp [dbit, bitAt, blockWrite, setIbit, sb, nInodeBlock]

theorem rootBase_data {b : Nat} (h : InData b) : rootBase b = fun _ => 0 := by
  rw [inData_iff] at h
  rw [rootBase, setIno_outside (by decide) (by omega), setDbit_of_ne (by omega),
    setIbit_of_ne (by omega), blockWrite, Function.update_of_ne (by omega)]

theorem partial_root (junk : Bytes) {x : Block} (hx : ∀ k < 2, ∀ i < 32,
    x (32 * k + i) = rawDirent junk (rootEntry [] k).1 (rootEntry [] k).2 i) :
    Partial junk [] (Function.update rootBase 131 x) := by
  have hbit : ∀ b, InData b → dbit (Function.update rootBase 131 x) b = decide (b = 131) := by
    intro b hb
    rw [dbit_update (by omega), rootBase_dbit hb]
  have hptr : ∀ n i, rootPtrs 0 (Function.update rootBase 131 x) n i ≠ 0 →
      n = 0 ∧ i = 0 ∧ rootPtrs 0 (Function.update rootBase 131 x) n i = 131 := by
    intro n i hne
    by_cases hn : n = 0
    · subst hn
      rw [rootPtrs_zero] at hne ⊢
      by_cases hi : i = 0
      · exact ⟨rfl, hi, if_pos hi⟩
      · exact absurd (if_neg hi) hne
    · rw [rootPtrs, if_neg hn, if_neg (by omega)] at hne
      exact absurd rfl hne
  refine ⟨?_, ?_, by simp, ?_, ?_, ⟨?_, ?_, ?_⟩, ?_, by simp⟩
  · rw [Function.update_of_ne (by omega), rootBase, setIno_outside (by decide) (by omega),
      setDbit_of_ne (by omega), setIbit_of_ne (by omega), blockWrite, Function.update_self]
  · intro n
    rw [ibit_update (by omega), rootBase_ibit]
    rfl
  · intro n h0 h1
    exact absurd h1 (by rw [List.length_nil]; omega)
  · intro b hb hc
    rw [hbit b hb, decide_eq_false_iff_not] at hc
    rw [Function.update_of_ne hc, rootBase_data hb]
  · intro n i hne
    obtain ⟨-, -, he⟩ := hptr n i hne
    have hd : InData 131 := by decide
    simp only [List.length_nil, he, hbit 131 hd, hd, decide_true, and_self]
  · intro n i m j he hne
    obtain ⟨rfl, rfl, -⟩ := hptr n i hne
    obtain ⟨rfl, rfl, -⟩ := hptr m j (he ▸ hne)
    exact ⟨rfl, rfl⟩
  · intro n i hne hi
    obtain ⟨-, rfl, -⟩ := hptr n i hne
    simp at hi
  · intro k hk i hi
    rw [Function.update_self]
    exact hx k hk i hi

theorem mkRoot_spec {junk : Bytes} {rn rb : Nat} {m : Build} (h : mkRoot junk = some (rn, rb, m)) :
    rn = 0 ∧ rb = 131 ∧ m.offset = 64 ∧ Partial junk [] m.img := by
  unfold mkRoot at h
  simp only [Option.bind_eq_bind, Option.bind_eq_some_iff, Prod.exists] at h
  obtain ⟨n, img₁, hn, b, img₂, hb, h⟩ := h
  obtain ⟨rfl, rfl⟩ := bitmapAlloc_empty (by rfl) hn
  simp only [blockAlloc, Option.map_eq_some_iff, Prod.exists, Prod.mk.injEq] at hb
  obtain ⟨k, img, hk, rfl, rfl⟩ := hb
  obtain ⟨rfl, rfl⟩ := bitmapAlloc_empty (by rfl) hk
  simp only [ne_eq, not_true, if_false, Option.bind_eq_some_iff, Prod.exists] at h
  obtain ⟨o₁, img₁, h₁, o₂, img₂, h₂, h⟩ := h
  obtain ⟨-, -, rfl, rfl⟩ := direntCreate_spec h₁
  obtain ⟨-, -, rfl, rfl⟩ := direntCreate_spec h₂
  cases h
  refine ⟨rfl, rfl, rfl, ?_⟩
  change Partial junk [] (Function.update (Function.update rootBase 131
    (splice (rootBase 131) 0 (rawDirent junk dot 0) 32)) 131 (splice (Function.update rootBase 131
    (splice (rootBase 131) 0 (rawDirent junk dot 0) 32) 131) 32 (rawDirent junk dotDot 0) 32))
  rw [Function.update_self, Function.update_idem]
  apply partial_root
  intro k hk i hi
  match k with
  | 0 =>
      rw [splice_out (by omega), splice_in (by omega) (by omega)]
      simp [rootEntry]
  | 1 =>
      rw [splice_in (by omega) (by omega)]
      simp [rootEntry]

/-- A finished image is as described. -/
theorem main_fresh {junk : Bytes} {files : List HostFile} {img : Image}
    (h : main junk files = some img) : Fresh junk files img := by
  simp only [main, Option.bind_eq_bind, Option.bind_eq_some_iff, Prod.exists] at h
  obtain ⟨rn, rb, m, hr, m', ha, h⟩ := h
  obtain ⟨rfl, rfl, hoff, hp⟩ := mkRoot_spec hr
  have hp' := addFiles_spec hp hoff ha
  rw [List.nil_append] at hp'
  cases h
  have hbit : ∀ b, dbit (inodeWrite m'.img 0 (rootInode files.length)) b = dbit m'.img b :=
    fun b => dbit_setIno (by decide)
  have hout : ∀ b, b < 2 ∨ 130 ≤ b →
      inodeWrite m'.img 0 (rootInode files.length) b = m'.img b :=
    fun b hb => setIno_outside (by decide) hb
  have hino : ∀ n, 0 < n → inoAt (inodeWrite m'.img 0 (rootInode files.length)) n =
      inoAt m'.img n := by
    intro n hn
    have e := inoAt_setIno (D := m'.img) (n := 0) (d := rootInode files.length) (m := n)
    rwa [if_neg (by omega)] at e
  refine ⟨⟨(hout 0 (by omega)).trans hp'.super, ?_, hp'.few, ?_, ?_, ?_, ?_, hp'.names⟩, ?_⟩
  · intro n
    rw [← hp'.inodes n]
    exact ibit_setIno (by decide)
  · intro n h0 hn
    have hf := hp'.file n h0 hn
    rw [← hino n h0] at hf
    exact hf
  · exact hp'.zero.congr (fun b _ => hbit b) fun b hb => hout b (by rw [inData_iff] at hb; omega)
  · refine hp'.ptrs.congr ?_ (fun b _ => hbit b) ?_
    · intro n i
      by_cases hn : n = 0
      · rw [rootPtrs, rootPtrs, if_pos hn, if_pos hn]
      · have e := hino n (by omega)
        rw [rootPtrs, rootPtrs, if_neg hn, if_neg hn, ← e]
        rfl
    · intro n i hne _
      have hd := (hp'.ptrs.area n i hne).1
      rw [inData_iff] at hd
      exact hout _ (by omega)
  · intro k hk i hi
    rw [← hp'.entry k hk i hi, ← hout 131 (by omega)]
    rfl
  · exact inoAt_setIno.trans (if_pos rfl)

end WhuOs.Mkfs
