import WhuOs.MkfsFiles
import WhuOs.Fs.PathSearch

/-! # The namespace of a fresh image

What the kernel finds in an image that `mkfs` wrote: the names in the root
directory, the inodes behind them and the bits of the inode bitmap.
-/

namespace WhuOs.Fs

open Prog

def searchRoot (name : Name) : FsM Nat := do
  let pip ← inodeAlloc inodeRoot
  inodeLock pip
  dirSearchEntry pip name

def readInode (n : Nat) : FsM Inode := do
  let ip ← inodeAlloc n
  inodeLock ip
  inodeOf ip

/-- Names that do not clash in the root directory. -/
structure Distinct (files : List Mkfs.HostFile) : Prop where
  nodup : (files.map Mkfs.HostFile.name).Nodup
  proper : ∀ f ∈ files, f.name ≠ [] ∧ f.name ≠ dot ∧ f.name ≠ dotDot

section

variable {junk : Bytes} {files : List Mkfs.HostFile} {img : Mkfs.Image} {s : State} {name : Name}
  {k j n m : Nat}

/-! ## Entries of the root directory -/

theorem rootEntry_file (hk : k < files.length) :
    Mkfs.rootEntry files (k + 2) = (files[k].name, k + 1) := by
  simp [Mkfs.rootEntry, hk]

theorem Distinct.file_inj (h : Distinct files) (hk : k < files.length) (hj : j < files.length)
    (he : files[k].name = files[j].name) : k = j := by
  have hget := List.nodup_iff_injective_get.mp h.nodup
  have hs := @hget ⟨k, by simpa using hk⟩ ⟨j, by simpa using hj⟩ (by simpa using he)
  exact congrArg Fin.val hs

theorem Distinct.entry_inj (h : Distinct files) (hk : k < files.length + 2)
    (hj : j < files.length + 2) (he : (Mkfs.rootEntry files k).1 = (Mkfs.rootEntry files j).1) :
    k = j := by
  have hdots : dot ≠ dotDot := by decide
  match k, j with
  | 0, 0 => rfl
  | 1, 1 => rfl
  | 0, 1 => exact absurd he hdots
  | 1, 0 => exact absurd he hdots.symm
  | 0, j + 2 =>
      rw [rootEntry_file (by omega)] at he
      exact absurd he.symm (h.proper _ (List.getElem_mem _)).2.1
  | 1, j + 2 =>
      rw [rootEntry_file (by omega)] at he
      exact absurd he.symm (h.proper _ (List.getElem_mem _)).2.2
  | k + 2, 0 =>
      rw [rootEntry_file (by omega)] at he
      exact absurd he (h.proper _ (List.getElem_mem _)).2.1
  | k + 2, 1 =>
      rw [rootEntry_file (by omega)] at he
      exact absurd he (h.proper _ (List.getElem_mem _)).2.2
  | k + 2, j + 2 =>
      rw [rootEntry_file (by omega), rootEntry_file (by omega)] at he
      rw [h.file_inj (by omega) (by omega) he]

theorem Distinct.entry_ne_nil (h : Distinct files) (hk : k < files.length + 2) :
    (Mkfs.rootEntry files k).1 ≠ [] := by
  match k with
  | 0 => exact (by decide : dot ≠ [])
  | 1 => exact (by decide : dotDot ≠ [])
  | k + 2 =>
      rw [rootEntry_file (by omega)]
      exact (h.proper _ (List.getElem_mem _)).1

theorem Distinct.ents_boot (h : Distinct files) (hf : Mkfs.Fresh junk files img) :
    ents img 0 k = if k < files.length + 2 then some (Mkfs.rootEntry files k) else none := by
  rw [Fs.ents_boot hf, bootEntry]
  split
  · next hk => rw [if_neg (h.entry_ne_nil hk)]
  · rfl

/-- A name of the root directory is found. -/
theorem Distinct.lookup_entry (h : Distinct files) (hf : Mkfs.Fresh junk files img)
    (hk : k < files.length + 2) :
    lookup img 0 (Mkfs.rootEntry files k).1 = some (Mkfs.rootEntry files k).2 := by
  have he : ents img 0 k = some (Mkfs.rootEntry files k) := by rw [h.ents_boot hf, if_pos hk]
  cases hl : lookup img 0 (Mkfs.rootEntry files k).1 with
  | none => exact absurd he (lookup_none hl k _)
  | some n =>
      obtain ⟨j, hj⟩ := lookup_some hl
      rw [h.ents_boot hf] at hj
      split at hj
      · next hlt =>
        have hroot := Option.some.inj hj
        have hname := congrArg Prod.fst hroot
        have hnum := congrArg Prod.snd hroot
        rw [h.entry_inj hk hlt hname.symm]
        exact congrArg some hnum.symm
      · cases hj

/-- Another name is not. -/
theorem Distinct.lookup_other (h : Distinct files) (hf : Mkfs.Fresh junk files img)
    (hd : name ≠ dot) (hdd : name ≠ dotDot) (ho : ∀ f ∈ files, name ≠ f.name) :
    lookup img 0 name = none := by
  cases hl : lookup img 0 name with
  | none => rfl
  | some n =>
      obtain ⟨j, hj⟩ := lookup_some hl
      rw [h.ents_boot hf] at hj
      split at hj
      · next hlt =>
        have hname := congrArg Prod.fst (Option.some.inj hj)
        match j with
        | 0 => exact absurd hname.symm hd
        | 1 => exact absurd hname.symm hdd
        | j + 2 =>
            rw [rootEntry_file (by omega)] at hname
            exact absurd hname.symm (ho _ (List.getElem_mem _))
      · cases hj

/-! ## Reading a mounted image -/

/-- A handle on a linked inode, loaded and locked. -/
theorem lockedHandle_sat (hb : Ready s) (hroom : Room s []) (hn : Linked s.disk n) :
    Sat (do let ip ← inodeAlloc n; inodeLock ip; return ip) s (fun _ => True)
      (fun ip => Inside s [] n ip) fun _ => False := by
  have hfull : (∀ j, (s.icache j).ref + ([] : List Slot).count j ≠ 0) → False := fun hall =>
    hroom.not_full 0 fun j => by
      have hj := hall j
      simp only [List.count_nil, Nat.add_zero] at hj
      omega
  refine (hb.mid.alloc hb hn.lt hn.live hfull).bind fun ip s₁ ha => ?_
  have hd : s₁.disk = s.disk := by rw [ha.2.eq, setInode_disk]
  have hst : Stands s [] n ip s₁ := ⟨ha.1, hd, ha.2.num, Or.inr hn.nlink⟩
  exact (hst.lock hb).bind fun _ s₂ hl => (sat_pure _).mpr hl

theorem searchRoot_sat (h : Mkfs.main junk files = some img) (hm : Mounted img s) (h0 : 0 ∉ name) :
    Sat (searchRoot name) s (fun _ => True)
      (fun r _ => r = (lookup img 0 name).getD inodeNumUnused) fun _ => False := by
  have hb := ready_mounted h hm
  have hd : s.disk = img := congrArg Core.disk (hm.boot h).1
  have hdir : IsDir s.disk inodeRoot := by
    rw [hd]
    exact (isDir_boot (Mkfs.main_fresh h)).mpr rfl
  have hlock := lockedHandle_sat hb (room_mounted h hm) hb.sound.root
  simp only [sat_bind, sat_pure] at hlock
  unfold searchRoot
  simp only [sat_bind]
  refine hlock.imp fun pip _ ha => ha.imp fun _ s₂ hin => ?_
  have hl : s₂.locks (.inode pip) = true := by
    rw [hin.mid.lock_eq hb]
    simp
  have hdir₂ : IsDir s₂.disk inodeRoot := by
    rw [hin.disk]
    exact hdir
  refine (dirSearchEntry_sat h0 hin.mid.sound ⟨hin.opened, hdir₂⟩ hl).imp fun r s₃ hr => ?_
  rw [lookup_take hin.mid.sound hdir₂, hin.disk, hd] at hr
  exact hr.1

theorem readInode_sat (h : Mkfs.main junk files = some img) (hm : Mounted img s)
    (hn : n ≤ files.length) :
    Sat (readInode n) s (fun _ => True) (fun x _ => x.type = (inoAt img n).type ∧
      x.nlink = (inoAt img n).nlink ∧ x.size = (inoAt img n).size) fun _ => False := by
  have hb := ready_mounted h hm
  have hd : s.disk = img := congrArg Core.disk (hm.boot h).1
  have hlinked : Linked s.disk n := by
    rw [hd]
    exact linked_boot (Mkfs.main_fresh h) hn
  have hlock := lockedHandle_sat hb (room_mounted h hm) hlinked
  simp only [sat_bind, sat_pure] at hlock
  unfold readInode
  simp only [sat_bind]
  refine hlock.imp fun ip _ ha => ha.imp fun _ s₂ hin => ?_
  rw [sat_inodeOf]
  have hagree := (hin.mid.sound.slot ip).agree hin.opened.valid
  rw [hin.opened.num, hin.disk, hd] at hagree
  exact ⟨hagree.type, hagree.nlink, hagree.size⟩

/-- `mkfs` and the kernel agree on the namespace of an image. -/
theorem mkfs_namespace_agrees (junk : Bytes) (files : List Mkfs.HostFile) (h : Distinct files)
    (img : Mkfs.Image) (himg : Mkfs.main junk files = some img) :
    (∃ s, Mounted img s) ∧ ∀ s, Mounted img s →
      (∃ s', (searchRoot dot s).1 = .ok (0, s')) ∧ (∃ s', (searchRoot dotDot s).1 = .ok (0, s')) ∧
      (∃ num : Nat → Nat, (∀ k (hk : k < files.length),
          (∃ s', (searchRoot files[k].name s).1 = .ok (num k, s')) ∧
          ∃ x s', (readInode (num k) s).1 = .ok (x, s') ∧ x.type = ftFile ∧ x.nlink = 1 ∧
            x.size.toNat = files[k].contents.length) ∧
        ∀ n, ibit s.disk n = true ↔ n = 0 ∨ ∃ k < files.length, n = num k) ∧
      ∀ name, 0 ∉ name → name ≠ dot → name ≠ dotDot → (∀ f ∈ files, name ≠ f.name) →
        ∃ s', (searchRoot name s).1 = .ok (inodeNumUnused, s') := by
  have hf := Mkfs.main_fresh himg
  refine ⟨exists_mounted himg, fun s hm => ?_⟩
  have hd : s.disk = img := congrArg Core.disk (hm.boot himg).1
  -- what a search returns is the lookup in the image
  have hsearch : ∀ name n, 0 ∉ name → (lookup img 0 name).getD inodeNumUnused = n →
      ∃ s', (searchRoot name s).1 = .ok (n, s') := by
    intro name n h0 hl
    obtain ⟨r, s', hr, rfl⟩ := (searchRoot_sat himg hm h0).returns
    exact ⟨s', by rw [hr, hl]⟩
  have hentry : ∀ k, k < files.length + 2 →
      ∃ s', (searchRoot (Mkfs.rootEntry files k).1 s).1 = .ok ((Mkfs.rootEntry files k).2, s') := by
    intro k hk
    refine hsearch _ _ (rootEntry_name hk hf.names).1 ?_
    rw [h.lookup_entry hf hk, Option.getD_some]
  refine ⟨hentry 0 (by omega), hentry 1 (by omega), ⟨fun k => k + 1, fun k hk => ⟨?_, ?_⟩,
    fun n => ?_⟩, fun name h0 hdot hdd ho => ?_⟩
  · have hs := hentry (k + 2) (by omega)
    rwa [rootEntry_file hk] at hs
  · obtain ⟨x, s', hr, ht, hl, hs⟩ := (readInode_sat himg hm (n := k + 1) (by omega)).returns
    have hfile := hf.file (k + 1) (by omega) (by omega)
    exact ⟨x, s', hr, ht.trans hfile.1, hl.trans hfile.2, by rw [hs]; exact Mkfs.main_size himg hk⟩
  · rw [hd, hf.inodes, decide_eq_true_eq]
    constructor
    · intro hn
      rcases Nat.eq_zero_or_pos n with hz | hpos
      · exact Or.inl hz
      · exact Or.inr ⟨n - 1, by omega, (Nat.succ_pred_eq_of_pos hpos).symm⟩
    · rintro (rfl | ⟨k, hk, rfl⟩)
      · exact Nat.zero_le _
      · exact hk
  · refine hsearch _ _ h0 ?_
    rw [h.lookup_other hf hdot hdd ho, Option.getD_none]

end

def smallFile : Mkfs.HostFile := ⟨[97], [7], Mkfs.letter_noNul⟩

/-- An image with one file. -/
theorem mkfs_namespace_single : ∃ img s s', Mkfs.main (fun _ => 0) [smallFile] = some img ∧
    Mounted img s ∧ (searchRoot dot s).1 = .ok (0, s') := by
  have hsome : (Mkfs.main (fun _ => 0) [smallFile]).isSome := by decide +kernel
  obtain ⟨img, himg⟩ := Option.isSome_iff_exists.mp hsome
  obtain ⟨⟨s, hm⟩, hall⟩ := mkfs_namespace_agrees (fun _ => 0) [smallFile]
    ⟨by simp, by simp [smallFile, dot, dotDot]⟩ img himg
  obtain ⟨⟨s', hs⟩, -⟩ := hall s hm
  exact ⟨img, s, s', himg, hm, hs⟩

end WhuOs.Fs
