import WhuOs.MkfsSpec

/-! # Host files in the image

Where the copy loop puts the bytes of a host file. Chunk `k` of a file goes to the
logical block `bn + k`, where `bn` is the counter the loop starts with; only the
first file starts at 0. Direct blocks are named by the inode that is written
behind the loop. The entries of index blocks are not written, so no block behind
the direct ones can be found again.
-/

namespace WhuOs.Mkfs

open Bytes Bits Fs

/-- The block that `addrs` and the index blocks on disk name for the logical block `bn` of inode
`n`; 0 where there is none. -/
def blockOf (img : Image) (n bn : Nat) : Nat :=
  let entry (b k : Nat) : Nat := if b = 0 then 0 else word (img b) k
  let addr (i : Nat) : Nat := ((inoAt img n).addrs (Fin.ofNat 13 i)).toNat
  if bn < nAddrs1 then addr bn
  else
    let bn2 := bn - nAddrs1
    if bn2 < nAddrs2 * entryPerBlock then
      entry (addr (nAddrs1 + bn2 / entryPerBlock)) (bn2 % entryPerBlock)
    else
      let bn3 := bn2 - nAddrs2 * entryPerBlock
      let index := entry (addr (nAddrs1 + nAddrs2)) (bn3 / entryPerBlock)
      if bn3 < nAddrs3 * entryPerBlock * entryPerBlock then entry index (bn3 % entryPerBlock) else 0

/-! ## Direct blocks -/

section

variable {A : Nat → Fin 13 → Nat} {n bn ret : Nat} {ip ip' : DiskInode} {img img' : Image}

theorem locateAddr_eq {fuel size : Nat} {i : Fin 13}
    (hl : locateAddr fuel img ip i bn size = some (ret, ip', img')) :
    ∃ e, locateBlock fuel img (ip.addrs i).toNat bn size = some (ret, e, img') ∧
      ip' = { ip with addrs := Function.update ip.addrs i (UInt32.ofNat e) } := by
  simp only [locateAddr, Option.bind_eq_bind, Option.bind_eq_some_iff, Prod.exists] at hl
  obtain ⟨r, e, img₁, hb, hl⟩ := hl
  cases hl
  exact ⟨e, hb, rfl⟩

/-- Below an index block the block handed out was free. -/
theorem locateAddr_index {fuel size : Nat} {i : Fin 13} (h : CopyInv A n ip img)
    (hsize : size ≠ 1) (hi : 10 ≤ i.val)
    (hl : locateAddr fuel img ip i bn size = some (ret, ip', img')) :
    dbit img ret = false ∧ ∀ j : Fin 13, j.val < 10 → ip'.addrs j = ip.addrs j := by
  obtain ⟨e, hb, rfl⟩ := locateAddr_eq hl
  have hself := withInode_self A n ip i
  obtain ⟨-, -, -, -, htaken⟩ := locateBlock_spec h.zero
    (fun hne _ => by
      rw [← hself] at hne ⊢
      exact h.ptrs.index n i hne hi)
    (fun hne => by
      rw [← hself] at hne ⊢
      exact h.ptrs.area n i hne) hb
  refine ⟨(htaken hsize).1.free, fun j hj => ?_⟩
  have hne : j ≠ i := fun he => by
    rw [he] at hj
    omega
  exact Function.update_of_ne hne _ _

theorem locateAddr_direct {i : Fin 13} (hl : locateAddr 1 img ip i bn 1 = some (ret, ip', img')) :
    ip'.addrs i = UInt32.ofNat ret ∧ ∀ j, j ≠ i → ip'.addrs j = ip.addrs j := by
  obtain ⟨e, hb, rfl⟩ := locateAddr_eq hl
  simp only [locateBlock, if_true, Option.bind_eq_bind, Option.bind_eq_some_iff, Option.some.injEq,
    Prod.mk.injEq, Prod.exists] at hb
  obtain ⟨v, img₁, -, rfl, rfl, -⟩ := hb
  exact ⟨Function.update_self _ _ _, fun j hj => Function.update_of_ne hj _ _⟩

/-- A lookup sets the direct field it is for, and hands out no block of another one. -/
theorem inodeLocateBlock_direct (h : CopyInv A n ip img)
    (hl : inodeLocateBlock img ip bn = some (ret, ip', img')) {j : Fin 13} (hj : j.val < 10) :
    (j.val = bn → (ip'.addrs j).toNat = ret) ∧
      (j.val ≠ bn → ip'.addrs j = ip.addrs j ∧ (ip.addrs j).toNat ≠ ret) := by
  have loc := inodeLocateBlock_spec h hl
  have hd := inData_iff.mp loc.area
  -- behind the direct blocks the block is a free one
  have hindex : dbit img ret = false → (∀ j : Fin 13, j.val < 10 → ip'.addrs j = ip.addrs j) →
      ¬ bn < 10 → (j.val = bn → (ip'.addrs j).toNat = ret) ∧
        (j.val ≠ bn → ip'.addrs j = ip.addrs j ∧ (ip.addrs j).toNat ≠ ret) := by
    intro hfree hkeep hbn
    refine ⟨fun he => absurd hj (by omega), fun _ => ⟨hkeep j hj, fun he => ?_⟩⟩
    have hset := (h.ptrs.area n j (by rw [withInode_self]; omega)).2
    rw [withInode_self, he, hfree] at hset
    cases hset
  unfold inodeLocateBlock at hl
  split at hl
  · next h1 =>
    obtain ⟨hset, hkeep⟩ := locateAddr_direct hl
    refine ⟨fun he => ?_, fun hne => ?_⟩
    · rw [show j = ⟨bn, by omega⟩ from Fin.ext he, hset, toNat_ofNat_inData loc.area]
    · have hji : j ≠ ⟨bn, by unfold nAddrs1 at h1; omega⟩ := fun he => hne (congrArg Fin.val he)
      refine ⟨hkeep j hji, fun he => hji ?_⟩
      refine (loc.inv.ptrs.inj n j n _ ?_ ?_).2
      · rw [withInode_self, withInode_self, hkeep j hji, he, hset, toNat_ofNat_inData loc.area]
      · rw [withInode_self, hkeep j hji]
        omega
  · next h1 =>
    dsimp only at hl
    split at hl
    · obtain ⟨hfree, hkeep⟩ := locateAddr_index h (by decide) (Nat.le_add_right 10 _) hl
      exact hindex hfree hkeep h1
    · split at hl
      · obtain ⟨hfree, hkeep⟩ := locateAddr_index h (by decide)
          (Nat.le_trans (Nat.le_add_right 10 2) (Nat.le_add_right (10 + 2) _)) hl
        exact hindex hfree hkeep h1
      · cases hl

end

/-! ## The copy loop -/

/-- The direct blocks after the chunks of `host` were copied from block `c.bn` on. -/
structure Filled (host : List UInt8) (c c' : Copy) : Prop where
  next : c'.bn = c.bn + host.length / blockSize + 1
  below : ∀ j : Fin 13, j.val < 10 → j.val < c.bn → c'.inode.addrs j = c.inode.addrs j
  kept : ∀ j : Fin 13, j.val < 10 → j.val < c.bn → c.inode.addrs j ≠ 0 →
    c'.img (c.inode.addrs j).toNat = c.img (c.inode.addrs j).toNat
  above : ∀ j : Fin 13, j.val < 10 → c.bn + host.length / blockSize < j.val →
    c'.inode.addrs j = c.inode.addrs j
  taken : ∀ j : Fin 13, j.val < 10 → c.bn ≤ j.val → j.val ≤ c.bn + host.length / blockSize →
    c'.inode.addrs j ≠ 0
  bytes : ∀ o < host.length, ∀ j : Fin 13, j.val < 10 → j.val = c.bn + o / blockSize →
    c'.img (c'.inode.addrs j).toNat (o % blockSize) = bytesOf host o
  size : c'.inode.size = c.inode.size + UInt32.ofNat host.length

section

variable {A : Nat → Fin 13 → Nat} {n : Nat} {c : Copy} {ret : Nat} {ip : DiskInode} {img : Image}

theorem inData_ne_zero {v : UInt32} (h : InData v.toNat) : v ≠ 0 := by
  rintro rfl
  rw [inData_iff] at h
  exact absurd h.1 (by decide)

/-- One chunk of at most a block. -/
theorem filled_chunk (host : List UInt8) (h : CopyInv A n c.inode c.img)
    (hl : inodeLocateBlock c.img c.inode c.bn = some (ret, ip, img)) (len : Nat)
    (j : Fin 13) (hj : j.val < 10) :
    (j.val = c.bn → ip.addrs j ≠ 0 ∧ ∀ o < len, blockWrite img ret
      (splice c.buf 0 (bytesOf host) len) (ip.addrs j).toNat o = bytesOf host o) ∧
    (j.val ≠ c.bn → ip.addrs j = c.inode.addrs j ∧ (c.inode.addrs j ≠ 0 → blockWrite img ret
      (splice c.buf 0 (bytesOf host) len) (c.inode.addrs j).toNat =
        c.img (c.inode.addrs j).toNat)) := by
  have loc := inodeLocateBlock_spec h hl
  obtain ⟨hset, hkeep⟩ := inodeLocateBlock_direct h hl hj
  refine ⟨fun he => ⟨inData_ne_zero (by rw [hset he]; exact loc.area), fun o ho => ?_⟩,
    fun hne => ⟨(hkeep hne).1, fun hnz => ?_⟩⟩
  · rw [hset he, blockWrite, Function.update_self, splice_in (by omega) (by omega), Nat.sub_zero]
  · have hz : withInode A n c.inode n j ≠ 0 := by
      rw [withInode_self]
      intro h0
      exact hnz (UInt32.toNat_inj.mp h0)
    have harea := (h.ptrs.area n j hz).1
    rw [withInode_self, inData_iff] at harea
    rw [blockWrite, Function.update_of_ne (hkeep hne).2, loc.alloc.keep _ (by omega)]

end

theorem copyLoop_filled {A : Nat → Fin 13 → Nat} {n fuel : Nat} :
    ∀ {host : List UInt8} {c c' : Copy}, CopyInv A n c.inode c.img →
    copyLoop fuel host c = some c' → Filled host c c' := by
  have hbs : blockSize = 1024 := rfl
  induction fuel with
  | zero => intro host c c' _ h; cases h
  | succ fuel ih =>
      intro host c c' hinv h
      simp only [copyLoop, Option.bind_eq_bind, Option.bind_eq_some_iff, Prod.exists] at h
      obtain ⟨ret, ip, img, hl, h⟩ := h
      have chunk := filled_chunk host hinv hl (min blockSize host.length)
      by_cases hlast : min blockSize host.length < blockSize
      · -- a short read ends the loop
        rw [if_pos hlast] at h
        cases h
        have hdiv : host.length / blockSize = 0 := by
          rw [hbs] at hlast ⊢
          omega
        have hmin : min blockSize host.length = host.length := by omega
        refine ⟨by rw [hdiv], fun j hj hlt => ?_, fun j hj hlt hnz => ?_, fun j hj hlt => ?_,
          fun j hj hlo hhi => ?_, fun o ho j hj hjo => ?_, ?_⟩
        · exact ((chunk j hj).2 (by omega)).1
        · exact ((chunk j hj).2 (by omega)).2 hnz
        · exact ((chunk j hj).2 (by omega)).1
        · exact ((chunk j hj).1 (by omega)).1
        · have ho0 : o / blockSize = 0 := by
            rw [hbs] at hlast ⊢
            omega
          rw [Nat.mod_eq_of_lt (by omega)]
          exact ((chunk j hj).1 (by omega)).2 o (by omega)
        · rw [(inodeLocateBlock_spec hinv hl).fields, hmin]
      · -- a full block; the rest goes to the blocks behind it
        rw [if_neg hlast] at h
        have hfull : blockSize ≤ host.length := by omega
        have hmin : min blockSize host.length = blockSize := by omega
        have hinv₁ : CopyInv A n { ip with
            size := ip.size + UInt32.ofNat (min blockSize host.length) }
            (blockWrite img ret (splice c.buf 0 (bytesOf host) (min blockSize host.length))) := by
          have loc := inodeLocateBlock_spec hinv hl
          have hd := inData_iff.mp loc.area
          exact ⟨loc.inv.zero.write (by omega) (fun _ => loc.set) _,
            loc.inv.ptrs.write (by omega) (fun m j he => (loc.leaf m j he).2) _⟩
        have rest := ih hinv₁ h
        have hdrop : (host.drop blockSize).length / blockSize + 1 = host.length / blockSize := by
          rw [List.length_drop, hbs]
          rw [hbs] at hfull
          omega
        have hnext := rest.next
        dsimp only at hnext
        refine ⟨by omega, fun j hj hlt => ?_, fun j hj hlt hnz => ?_, fun j hj hlt => ?_,
          fun j hj hlo hhi => ?_, fun o ho j hj hjo => ?_, ?_⟩
        · exact (rest.below j hj (by dsimp only; omega)).trans ((chunk j hj).2 (by omega)).1
        · have hsame := ((chunk j hj).2 (by omega)).1
          have hk := rest.kept j hj (by dsimp only; omega) (by rw [hsame]; exact hnz)
          rw [hsame] at hk
          exact hk.trans (((chunk j hj).2 (by omega)).2 hnz)
        · have hne : c.bn < j.val := Nat.lt_of_le_of_lt (Nat.le_add_right _ _) hlt
          exact (rest.above j hj (by dsimp only; omega)).trans ((chunk j hj).2 (by omega)).1
        · by_cases hj0 : j.val = c.bn
          · rw [rest.below j hj (by dsimp only; omega)]
            exact ((chunk j hj).1 hj0).1
          · exact rest.taken j hj (by dsimp only; omega) (by dsimp only; omega)
        · by_cases ho0 : o < blockSize
          · have hj0 : j.val = c.bn := by
              rw [Nat.div_eq_of_lt ho0] at hjo
              exact hjo
            obtain ⟨hnz, hbyte⟩ := (chunk j hj).1 hj0
            have hk := rest.kept j hj (by dsimp only; omega) hnz
            rw [rest.below j hj (by dsimp only; omega), hk, Nat.mod_eq_of_lt ho0]
            exact hbyte o (by omega)
          · have hdiv : o / blockSize = (o - blockSize) / blockSize + 1 := by
              rw [hbs] at ho0 ⊢
              omega
            have hmod : o % blockSize = (o - blockSize) % blockSize := by
              rw [hbs] at ho0 ⊢
              omega
            have hb := rest.bytes (o - blockSize) (by rw [List.length_drop]; omega) j hj
              (by dsimp only; omega)
            rw [hmod, hb, bytesOf, bytesOf, List.getD_eq_getElem?_getD, List.getElem?_drop,
              Nat.add_sub_cancel' (by omega), List.getD_eq_getElem?_getD]
        · rw [rest.size, hmin]
          dsimp only
          have hsum : host.length = blockSize + (host.drop blockSize).length := by
            rw [List.length_drop]
            omega
          rw [(inodeLocateBlock_spec hinv hl).fields, UInt32.add_assoc, ← UInt32.ofNat_add, ← hsum]

/-- The block numbers the image builder can locate. -/
theorem inodeLocateBlock_bn {img : Image} {ip : DiskInode} {bn : Nat}
    {r : Nat × DiskInode × Image} (h : inodeLocateBlock img ip bn = some r) : bn < 66058 := by
  have hsum : nAddrs1 + nAddrs2 * entryPerBlock + nAddrs3 * entryPerBlock * entryPerBlock = 66058 :=
    rfl
  unfold inodeLocateBlock at h
  dsimp only at h
  split at h
  · omega
  · split at h
    · omega
    · split at h
      · omega
      · cases h

theorem copyLoop_bn {fuel : Nat} : ∀ {host : List UInt8} {c c' : Copy},
    copyLoop fuel host c = some c' → c'.bn ≤ 66058 := by
  induction fuel with
  | zero => intro host c c' h; cases h
  | succ fuel ih =>
      intro host c c' h
      simp only [copyLoop, Option.bind_eq_bind, Option.bind_eq_some_iff, Prod.exists] at h
      obtain ⟨ret, ip, img, hl, h⟩ := h
      split at h
      · cases h
        exact inodeLocateBlock_bn hl
      · exact ih h

/-! ## Whole images -/

theorem mkRoot_bn {junk : Bytes} {rn rb : Nat} {m : Build} (h : mkRoot junk = some (rn, rb, m)) :
    m.bn = 0 := by
  simp only [mkRoot, Option.bind_eq_bind, Option.bind_eq_some_iff, Prod.exists] at h
  obtain ⟨n, img₁, -, b, img₂, -, h⟩ := h
  split at h
  · cases h
  · simp only [Option.bind_eq_some_iff, Prod.exists] at h
    obtain ⟨o₁, img₃, -, o₂, img₄, -, h⟩ := h
    cases h
    rfl

section

variable {junk : Bytes} {files : List HostFile} {f : HostFile} {m m' : Build}
  {c : Copy} {img : Image}

theorem Added.filled (a : Added junk files f m m' c) : Filled f.contents
    { buf := m.buf, bn := m.bn, inode := newInode ftFile
      img := Function.update (setIno (setIbit m.img (files.length + 1)) (files.length + 1)
        (newInode ftFile)) 131 (splice (m.img 131) m.offset
          (rawDirent junk f.name (files.length + 1)) 32) } c :=
  copyLoop_filled a.inv a.loop

/-- The inodes of the files that are in the image already stay. -/
theorem addFiles_inode {fs : List HostFile} : ∀ {files : List HostFile} {m m' : Build},
    Partial junk files m.img → m.offset = 32 * (files.length + 2) →
    addFiles junk 131 fs m = some m' → ∀ n ≤ files.length, inoAt m'.img n = inoAt m.img n := by
  induction fs with
  | nil =>
      intro files m m' _ _ ha n _
      cases ha
      rfl
  | cons f fs ih =>
      intro files m m' h hoff ha n hn
      simp only [addFiles, Option.bind_eq_bind, Option.bind_eq_some_iff] at ha
      obtain ⟨m₁, hf, ha⟩ := ha
      obtain ⟨h₁, hoff₁⟩ := addFile_spec h hoff hf
      obtain ⟨c, a⟩ := addFile_added h hoff hf
      have hb := a.bound hoff
      rw [ih h₁ hoff₁ ha n (by rw [List.length_append]; omega), a.others (by omega) (by omega)]

/-- A file that is not the first one has no block 0. -/
theorem addFiles_shifted {fs : List HostFile} : ∀ {files : List HostFile} {m m' : Build},
    Partial junk files m.img → m.offset = 32 * (files.length + 2) → 0 < m.bn →
    addFiles junk 131 fs m = some m' →
    ∀ k < fs.length, (inoAt m'.img (files.length + 1 + k)).addrs 0 = 0 := by
  induction fs with
  | nil => exact fun _ _ _ _ _ hk => absurd hk (Nat.not_lt_zero _)
  | cons f fs ih =>
      intro files m m' h hoff hbn ha k hk
      simp only [addFiles, Option.bind_eq_bind, Option.bind_eq_some_iff] at ha
      obtain ⟨m₁, hf, ha⟩ := ha
      obtain ⟨h₁, hoff₁⟩ := addFile_spec h hoff hf
      obtain ⟨c, a⟩ := addFile_added h hoff hf
      have hlen : (files ++ [f]).length = files.length + 1 := by simp
      cases k with
      | zero =>
          rw [Nat.add_zero, addFiles_inode h₁ hoff₁ ha _ (by omega), a.self,
            a.filled.below 0 (by decide) hbn]
          rfl
      | succ k =>
          have hnext : 0 < m₁.bn := by
            rw [a.bn, a.filled.next]
            exact Nat.succ_pos _
          have hrest := ih h₁ hoff₁ hnext ha k (by simpa using hk)
          rw [hlen] at hrest
          rw [show files.length + 1 + (k + 1) = files.length + 1 + 1 + k by omega]
          exact hrest

/-- The size of a new file is the length of the host file. -/
theorem Added.size (a : Added junk files f m m' c) :
    (inoAt m'.img (files.length + 1)).size.toNat = f.contents.length := by
  have hnext := a.filled.next
  have hbn := copyLoop_bn a.loop
  have hlen : f.contents.length < 2 ^ 32 := by
    have hdiv := Nat.lt_div_mul_add (a := f.contents.length) (b := blockSize) (by decide)
    simp only [blockSize] at hnext hdiv
    omega
  rw [a.self, a.filled.size, newInode]
  simp only [UInt32.zero_add, UInt32.toNat_ofNat']
  exact Nat.mod_eq_of_lt hlen

theorem addFiles_size {fs : List HostFile} : ∀ {files : List HostFile} {m m' : Build},
    Partial junk files m.img → m.offset = 32 * (files.length + 2) →
    addFiles junk 131 fs m = some m' → ∀ k (hk : k < fs.length),
      (inoAt m'.img (files.length + 1 + k)).size.toNat = fs[k].contents.length := by
  induction fs with
  | nil => exact fun _ _ _ k hk => absurd hk (Nat.not_lt_zero _)
  | cons f fs ih =>
      intro files m m' h hoff ha k hk
      simp only [addFiles, Option.bind_eq_bind, Option.bind_eq_some_iff] at ha
      obtain ⟨m₁, hf, ha⟩ := ha
      obtain ⟨h₁, hoff₁⟩ := addFile_spec h hoff hf
      obtain ⟨c, a⟩ := addFile_added h hoff hf
      have hlen : (files ++ [f]).length = files.length + 1 := by simp
      cases k with
      | zero =>
          rw [Nat.add_zero, addFiles_inode h₁ hoff₁ ha _ (by omega), a.size]
          rfl
      | succ k =>
          have hrest := ih h₁ hoff₁ ha k (by simpa using hk)
          rw [hlen] at hrest
          rw [show files.length + 1 + (k + 1) = files.length + 1 + 1 + k by omega]
          exact hrest

/-- The sizes of the host files in the image. -/
theorem main_size (h : main junk files = some img) {k : Nat} (hk : k < files.length) :
    (inoAt img (k + 1)).size.toNat = files[k].contents.length := by
  simp only [main, Option.bind_eq_bind, Option.bind_eq_some_iff, Prod.exists] at h
  obtain ⟨rn, rb, m, hr, m', ha, h⟩ := h
  obtain ⟨rfl, rfl, hoff, hp⟩ := mkRoot_spec hr
  cases h
  have hs := addFiles_size hp hoff ha k hk
  rw [List.length_nil, show 0 + 1 + k = k + 1 by omega] at hs
  rw [← hs]
  exact congrArg (fun d => d.size.toNat) (inoAt_setIno.trans (if_neg (Nat.succ_ne_zero k)))

/-- The run of `main` behind the first file. -/
theorem main_cons {fs : List HostFile} (h : main junk (f :: fs) = some img) :
    ∃ m m₁ m' c, m.bn = 0 ∧ Added junk [] f m m₁ c ∧ m.offset = 64 ∧ Partial junk [f] m₁.img ∧
      m₁.offset = 32 * ([f].length + 2) ∧ addFiles junk 131 fs m₁ = some m' ∧
      img = setIno m'.img 0 (rootInode (f :: fs).length) := by
  simp only [main, Option.bind_eq_bind, Option.bind_eq_some_iff, Prod.exists] at h
  obtain ⟨rn, rb, m, hr, m', ha, h⟩ := h
  obtain ⟨rfl, rfl, hoff, hp⟩ := mkRoot_spec hr
  simp only [addFiles, Option.bind_eq_bind, Option.bind_eq_some_iff] at ha
  obtain ⟨m₁, hf, ha⟩ := ha
  obtain ⟨h₁, hoff₁⟩ := addFile_spec hp hoff hf
  obtain ⟨c, a⟩ := addFile_added hp hoff hf
  cases h
  exact ⟨m, m₁, m', c, mkRoot_bn hr, a, hoff, h₁, hoff₁, ha, rfl⟩

/-- The inode of a file that is not the first one has no block 0. -/
theorem main_shifted (h : main junk files = some img) {k : Nat} (h0 : 0 < k)
    (hk : k < files.length) : (inoAt img (k + 1)).addrs 0 = 0 := by
  cases files with
  | nil => exact absurd hk (Nat.not_lt_zero _)
  | cons f fs =>
      obtain ⟨m, m₁, m', c, hbn, a, -, h₁, hoff₁, ha, rfl⟩ := main_cons h
      have hnext : 0 < m₁.bn := by
        rw [a.bn, a.filled.next]
        exact Nat.succ_pos _
      have hs := addFiles_shifted h₁ hoff₁ hnext ha (k - 1) (by rw [List.length_cons] at hk; omega)
      rw [inoAt_setIno, if_neg (by omega)]
      rw [List.length_singleton, show 1 + 1 + (k - 1) = k + 1 by omega] at hs
      exact hs

/-- A single file: its direct blocks and its size. -/
structure Single (f : HostFile) (img : Image) : Prop where
  size : (inoAt img 1).size = UInt32.ofNat f.contents.length
  taken : ∀ j : Fin 13, j.val < 10 → ((inoAt img 1).addrs j ≠ 0 ↔
    j.val ≤ f.contents.length / blockSize)
  bytes : ∀ o < f.contents.length, ∀ j : Fin 13, j.val < 10 → j.val = o / blockSize →
    img ((inoAt img 1).addrs j).toNat (o % blockSize) = bytesOf f.contents o

theorem main_single (h : main junk [f] = some img) : Single f img := by
  obtain ⟨m, m₁, m', c, hbn, a, hoff, -, -, ha, rfl⟩ := main_cons h
  cases ha
  have hfill := a.filled
  have hino : inoAt (setIno m₁.img 0 (rootInode [f].length)) 1 = c.inode := by
    rw [inoAt_setIno, if_neg (by decide)]
    exact a.self
  have hdata : ∀ b, InData b → setIno m₁.img 0 (rootInode [f].length) b = c.img b := by
    intro b hb
    rw [← a.data hoff hb]
    rw [inData_iff] at hb
    exact setIno_outside (by decide) (by omega)
  have htaken : ∀ j : Fin 13, j.val < 10 → j.val ≤ f.contents.length / blockSize →
      c.inode.addrs j ≠ 0 := by
    intro j hj hle
    exact hfill.taken j hj (by dsimp only; omega) (by dsimp only; omega)
  refine ⟨?_, fun j hj => ⟨fun hne => ?_, fun hle => ?_⟩, fun o ho j hj hjo => ?_⟩
  · rw [hino, hfill.size]
    exact UInt32.zero_add _
  · by_contra hgt
    rw [hino, hfill.above j hj (by dsimp only; omega)] at hne
    exact hne rfl
  · rw [hino]
    exact htaken j hj hle
  · have hne := htaken j hj (by rw [hjo]; exact Nat.div_le_div_right ho.le)
    have hself := withInode_self (rootPtrs ([] : List HostFile).length m.img)
      (([] : List HostFile).length + 1) c.inode j
    have harea : InData (c.inode.addrs j).toNat := by
      rw [← hself]
      refine (a.copied.inv.ptrs.area _ j ?_).1
      rw [hself]
      exact fun hz => hne (UInt32.toNat_inj.mp hz)
    rw [hino, hdata _ harea]
    exact hfill.bytes o ho j hj (by dsimp only; omega)

/-! ## Logical blocks -/

theorem blockOf_direct {n bn : Nat} (hbn : bn < 10) :
    blockOf img n bn = ((inoAt img n).addrs ⟨bn, direct_lt hbn⟩).toNat := by
  have hlt : bn < nAddrs1 := hbn
  simp only [blockOf, if_pos hlt]
  congr 2
  exact Fin.ext (Nat.mod_eq_of_lt (by omega))

/-- The index blocks of an image have no entries. -/
theorem blockOf_index (h : main junk files = some img) {n bn : Nat} (h0 : 0 < n)
    (hn : n ≤ files.length) (hbn : ¬ bn < 10) : blockOf img n bn = 0 := by
  have hf := main_fresh h
  have hentry : ∀ i : Nat, 10 ≤ i → i < 13 → ∀ k,
      (if ((inoAt img n).addrs (Fin.ofNat 13 i)).toNat = 0 then 0
        else word (img ((inoAt img n).addrs (Fin.ofNat 13 i)).toNat) k) = 0 := by
    intro i hi hi' k
    split
    · rfl
    · next hne =>
      have hptr : rootPtrs files.length img n (Fin.ofNat 13 i) =
          ((inoAt img n).addrs (Fin.ofNat 13 i)).toNat := by
        rw [rootPtrs, if_neg (by omega), if_pos hn]
      have hval : (Fin.ofNat 13 i).val = i := Nat.mod_eq_of_lt hi'
      rw [← hptr, hf.ptrs.index n _ (by rw [hptr]; exact hne) (by omega), word_zero]
  have hbn' : ¬ bn < nAddrs1 := hbn
  simp only [blockOf, if_neg hbn']
  split
  · next h2 =>
    have h2' : bn - 10 < 2 * 256 := h2
    exact hentry (10 + (bn - 10) / 256) (by omega) (by omega) _
  · split
    · rw [hentry (nAddrs1 + nAddrs2) (by decide) (by decide), if_pos rfl]
    · rfl

theorem blockOf_single (h : main junk [f] = some img) (bn : Nat) :
    blockOf img 1 bn ≠ 0 ↔ bn < 10 ∧ bn ≤ f.contents.length / blockSize := by
  by_cases hbn : bn < 10
  · rw [blockOf_direct hbn, ← (main_single h).taken ⟨bn, by omega⟩ hbn]
    simp only [hbn, true_and]
    exact not_congr ⟨fun hz => UInt32.toNat_inj.mp hz, fun hz => by rw [hz]; rfl⟩
  · exact iff_of_false (not_not.mpr (blockOf_index h (by omega) (by simp) hbn)) fun hc => hbn hc.1

end

end WhuOs.Mkfs
