import WhuOs.Fs.Durable
import WhuOs.Fs.Handles

/-! # Reading directories

The loops over the entries of a directory, from sound states: each one reads the
entries of the directory on disk, in order, and changes nothing but the buffer
cache. `dir_search_entry` is the lookup of a name among them.
-/

namespace WhuOs.Fs

open Prog Bytes Bits

/-- The inode number that directory `d` gives for a name. -/
def lookup (D : Disk) (d : Nat) (name : Name) : Option Nat :=
  lookupFrom (ents D d) name (entCount (inoAt D d)) 0

structure OpenDir (s : State) (d : Nat) (ip : Slot) : Prop where
  opened : Opened s d ip
  dir : IsDir s.disk d

section

variable {s s' s₁ : State} {d k n : Nat} {ip : Slot} {name : Name} {D : Disk} {G : Event → Prop}
  {E : Panic → Prop}

theorem Loaded.trans {held : List BufId} {s₂ : State} (h : Loaded held s s₁)
    (h' : Loaded held s₁ s₂) :
    Loaded held s s₂ := by
  refine ⟨h'.core.trans h.core, (h.evolves.trans h'.evolves).mono fun b hb => ?_⟩
  exact hb.elim id id

theorem Loaded.disk_eq {held : List BufId} (h : Loaded held s s') : s'.disk = s.disk :=
  congrArg Core.disk h.core

theorem OpenDir.loaded (ho : OpenDir s d ip) (hl : Loaded [] s s') : OpenDir s' d ip :=
  ⟨ho.opened.congr (congrArg Core.icache hl.core), by rw [hl.disk_eq]; exact ho.dir⟩

theorem OpenDir.agree (h : Sound s) (ho : OpenDir s d ip) :
    Agrees (s.icache ip).toDiskInode (inoAt s.disk d) := by
  rw [← ho.opened.num]
  exact (h.slot ip).agree ho.opened.valid

theorem OpenDir.size (h : Sound s) (ho : OpenDir s d ip) :
    (s.icache ip).size = (inoAt s.disk d).size := (ho.agree h).size

theorem entCount_lt (hk : k < entCount (inoAt D d)) :
    direntSize * k + direntSize ≤ (inoAt D d).size.toNat := by
  unfold entCount direntSize at *
  omega

theorem OpenDir.block (h : Sound s) (ho : OpenDir s d ip) (h0 : (inoAt s.disk d).size ≠ 0) :
    ((s.icache ip).addrs 0).toNat = dirBlock (inoAt s.disk d) ∧
      InData (dirBlock (inoAt s.disk d)) := by
  have hok := h.dir d ho.dir
  refine ⟨?_, h.dirBlock_data ho.dir (hok.block h0)⟩
  rw [(ho.agree h).addrs_dir hok (by rw [ho.size h]; exact h0), dirBlock]

/-- Reading one entry. -/
theorem readDirent_sat (h : Sound s) (ho : OpenDir s d ip) (hk : k < entCount (inoAt s.disk d))
    (dst : Bytes) :
    Sat (inodeReadData ip (direntSize * k) direntSize dst) s G
      (fun q s' => q.1 = direntSize ∧ direntOf q.2 = ents s.disk d k ∧ Loaded [] s s') E := by
  have hend := entCount_lt hk
  have hsmall := (h.dir d ho.dir).small
  have h0 : (inoAt s.disk d).size ≠ 0 := by
    intro hz
    rw [hz] at hend
    simp [direntSize] at hend
  obtain ⟨haddr, hdata⟩ := ho.block h h0
  have hsync := h.sync d ho.dir h0
  have hrange := inData_iff.mp hdata
  simp only [direntSize, blockSize] at hend hsmall
  have hoff : direntSize * k < 1024 := by unfold direntSize; omega
  have hhome : home s ip (direntSize * k) = dirBlock (inoAt s.disk d) := by
    have hfield : directField (direntSize * k) = 0 := by
      apply Fin.ext
      rw [directField_val (by unfold nAddrs1 blockSize; omega)]
      exact Nat.div_eq_of_lt hoff
    rw [home, hfield, haddr]
  unfold inodeReadData
  rw [sat_bind, sat_inodeOf, ho.size h]
  have hlen : ¬ u32 (direntSize * k + direntSize) > (inoAt s.disk d).size.toNat := by
    unfold u32 direntSize
    omega
  rw [if_neg (by unfold direntSize; omega), if_neg hlen]
  rw [show direntSize = 31 + 1 from rfl, readLoop, if_pos (by omega), sat_bind]
  rw [show (31 + 1) * k = direntSize * k from rfl, locate_home (by unfold nAddrs1 blockSize; omega)
    (by rw [hhome]; omega), hhome]
  refine (bufRead_sat h.tree.store.cache (by unfold blockNumUnused; omega) (by simp)
    (by simp)).bind fun buf s₁ p => ?_
  rw [sat_bind, sat_bufData, p.data]
  refine p.release_sat h.tree.store.cache fun s₂ hl => ?_
  have hmod : direntSize * k % blockSize = direntSize * k := Nat.mod_eq_of_lt hoff
  have hm : min (blockSize - direntSize * k % blockSize) (31 + 1 - 0) = 32 := by
    rw [hmod]
    unfold blockSize direntSize
    omega
  rw [hm, readLoop, if_neg (by omega), sat_pure]
  refine ⟨rfl, ?_, hl⟩
  rw [ents, entsOf, if_pos hk, slotAt, ← hsync]
  apply direntOf_congr
  intro i hi
  dsimp only
  rw [splice_in (Nat.zero_le _) (by unfold direntSize at hi; omega), hmod]
  rfl

theorem dirSearchLoop_sat (h0 : 0 ∉ name) (fuel : Nat) (h : Sound s) (ho : OpenDir s d ip)
    (hfuel : entCount (inoAt s.disk d) ≤ k + fuel) :
    Sat (dirSearchLoop ip name fuel (direntSize * k)) s G (fun r s' =>
      r = (lookupFrom (ents s.disk d) (name.take dirNameLen) (entCount (inoAt s.disk d) - k) k).getD
        inodeNumUnused ∧ Loaded [] s s') E := by
  induction fuel generalizing s k with
  | zero =>
      have hz : entCount (inoAt s.disk d) - k = 0 := by omega
      rw [hz]
      exact (sat_pure _).mpr ⟨rfl, rfl, .refl h.tree.store.cache⟩
  | succ fuel ih =>
      unfold dirSearchLoop
      rw [sat_bind, sat_inodeOf, ho.size h]
      have haligned := (h.dir d ho.dir).aligned
      by_cases hk : k < entCount (inoAt s.disk d)
      · have hend := entCount_lt hk
        rw [if_pos (by unfold direntSize at *; omega)]
        refine (readDirent_sat h ho hk _).bind fun q s₁ hq => ?_
        obtain ⟨hlen, hent, hl⟩ := hq
        obtain ⟨len, de⟩ := q
        dsimp only at hlen hent ⊢
        rw [hlen, if_neg (by simp)]
        have hhit := hit_direntOf (e := de) h0
        have hstep : entCount (inoAt s.disk d) - k = (entCount (inoAt s.disk d) - (k + 1)) + 1 := by
          omega
        rw [hstep, lookupFrom, ← hent, hhit]
        split
        · exact (sat_pure _).mpr ⟨rfl, hl⟩
        · have hnext : direntSize * k + direntSize = direntSize * (k + 1) := by ring
          rw [hnext]
          have hd := hl.disk_eq
          refine (ih (h.loaded hl) (ho.loaded hl) (by rw [hd]; omega)).imp fun r s₂ hr => ?_
          rw [hd] at hr
          rw [Option.none_or]
          exact ⟨hr.1, hl.trans hr.2⟩
      · have hz : entCount (inoAt s.disk d) - k = 0 := by omega
        rw [if_neg (by unfold entCount direntSize at *; omega), hz]
        exact (sat_pure _).mpr ⟨rfl, rfl, .refl h.tree.store.cache⟩

theorem dirSearchEntry_sat (h0 : 0 ∉ name) (h : Sound s) (ho : OpenDir s d ip)
    (hl : s.locks (.inode ip) = true) :
    Sat (dirSearchEntry ip name) s G (fun r s' =>
      r = (lookup s.disk d (name.take dirNameLen)).getD inodeNumUnused ∧ Loaded [] s s') E := by
  have htype : (s.icache ip).type = ftDir := (ho.agree h).type.trans ho.dir.type
  unfold dirSearchEntry
  simp only [sat_bind, sat_spinlockHolding, hl]
  rw [sat_assert rfl, sat_inodeOf, sat_assert (by simpa using htype), sat_inodeOf, ho.size h]
  have hs := dirSearchLoop_sat (G := G) (E := E) (k := 0) h0 (inoAt s.disk d).size.toNat h ho (by
    unfold entCount direntSize
    omega)
  simpa [lookup] using hs

/-! ## Lookups -/

theorem lookup_some (h : lookup D d name = some n) : ∃ k, ents D d k = some (name, n) := by
  obtain ⟨k, -, -, hk⟩ := lookupFrom_some h
  exact ⟨k, hk⟩

theorem ents_lt (h : ents D d k ≠ none) : k < entCount (inoAt D d) := by
  by_contra hk
  rw [ents, entsOf, if_neg hk] at h
  exact h rfl

theorem lookup_none (h : lookup D d name = none) (k n : Nat) : ents D d k ≠ some (name, n) := by
  intro he
  have hk := ents_lt (D := D) (d := d) (k := k) (by rw [he]; simp)
  exact lookupFrom_none h (Nat.zero_le k) (by omega) n he

/-- What a lookup finds is allocated and linked. -/
theorem Sound.lookup_linked (h : Sound s) (hd : IsDir s.disk d)
    (hl : lookup s.disk d name = some n) :
    Linked s.disk n := by
  obtain ⟨k, hk⟩ := lookup_some hl
  exact ((h.dir d hd).entry k name n hk).1

theorem Sound.lookup_ne_unused (h : Sound s) (hd : IsDir s.disk d) :
    (lookup s.disk d name).getD inodeNumUnused = inodeNumUnused ↔ lookup s.disk d name = none := by
  cases hl : lookup s.disk d name with
  | none => simp
  | some n =>
      have hn := (h.lookup_linked hd hl).lt
      have hge := unused_ge
      simp only [Option.getD_some, reduceCtorEq, iff_false]
      omega

/-- A name that does not fit into an entry is in no directory. -/
theorem Sound.lookup_long (h : Sound s) (hd : IsDir s.disk d) (hlen : dirNameLen ≤ name.length) :
    lookup s.disk d name = none := by
  cases hl : lookup s.disk d name with
  | none => rfl
  | some n =>
      obtain ⟨k, hk⟩ := lookup_some hl
      have hlt := ((h.dir d hd).entry k name n hk).2
      omega

end

/-! ## Mounted images -/

section Boot

variable {junk : Bytes} {files : List Mkfs.HostFile} {img : Mkfs.Image} {s : State} {d k : Nat}

def bootEntry (files : List Mkfs.HostFile) (k : Nat) : Option (Name × Nat) :=
  if k < files.length + 2 then
    if (Mkfs.rootEntry files k).1 = [] then none else some (Mkfs.rootEntry files k)
  else none

theorem rootEntry_num {k : Nat} (h : k < files.length + 2) :
    (Mkfs.rootEntry files k).2 ≤ files.length := by
  match k with
  | 0 => exact Nat.zero_le _
  | 1 => exact Nat.zero_le _
  | k + 2 =>
      change k + 1 ≤ files.length
      omega

theorem rootEntry_name {k : Nat} (h : k < files.length + 2)
    (hnames : ∀ f ∈ files, f.name.length < 30 ∧ slash ∉ f.name) :
    0 ∉ (Mkfs.rootEntry files k).1 ∧ (Mkfs.rootEntry files k).1.length < 30 := by
  match k with
  | 0 => exact (by decide : 0 ∉ dot ∧ dot.length < 30)
  | 1 => exact (by decide : 0 ∉ dotDot ∧ dotDot.length < 30)
  | k + 2 =>
      have hk : k < files.length := by omega
      have hname : (Mkfs.rootEntry files (k + 2)).1 = files[k].name := by
        simp [Mkfs.rootEntry, hk]
      rw [hname]
      exact ⟨files[k].noNul, (hnames _ (List.getElem_mem hk)).1⟩

theorem direntOf_boot (hf : Mkfs.Fresh junk files img) (hk : k < files.length + 2) :
    slotAt (img 131) k = bootEntry files k := by
  obtain ⟨h0, hlen⟩ := rootEntry_name hk hf.names
  have hnum := rootEntry_num hk
  have hfew := hf.few
  have hraw : slotAt (img 131) k =
      direntOf (Mkfs.rawDirent junk (Mkfs.rootEntry files k).1 (Mkfs.rootEntry files k).2) :=
    direntOf_congr fun i hi => hf.entry k hk i hi
  rw [hraw, bootEntry, if_pos hk]
  split
  · next hnil =>
    rw [hnil]
    refine direntOf_eq_none.mpr ?_
    simp [direntName, window, Mkfs.rawDirent]
  · next hne => rw [direntOf_rawDirent junk h0 hlen hne (by omega)]

theorem entCount_rootInode (h : k ≤ 30) : entCount (Mkfs.rootInode k) = k + 2 := by
  rw [entCount, Mkfs.rootInode]
  simp only [direntSize]
  rw [UInt32.toNat_ofNat', Nat.mod_eq_of_lt (by omega)]
  omega

theorem ents_boot (hf : Mkfs.Fresh junk files img) (k : Nat) :
    ents img 0 k = bootEntry files k := by
  have hblock : dirBlock (Mkfs.rootInode files.length) = 131 := rfl
  rw [ents, hf.root, entsOf, entCount_rootInode hf.few, hblock]
  split
  · next hk => exact direntOf_boot hf hk
  · next hk => rw [bootEntry, if_neg hk]

theorem isDir_boot (hf : Mkfs.Fresh junk files img) : IsDir img d ↔ d = 0 := by
  constructor
  · intro hd
    have hle := hd.live
    rw [hf.inodes, decide_eq_true_eq] at hle
    by_contra hne
    have ht := (hf.file d (Nat.pos_of_ne_zero hne) hle).1
    rw [hd.type] at ht
    exact absurd ht (by decide)
  · rintro rfl
    exact ⟨by decide, by rw [hf.inodes]; simp, by rw [hf.root]; rfl⟩

theorem linked_boot (hf : Mkfs.Fresh junk files img) (hd : d ≤ files.length) : Linked img d := by
  have hfew := hf.few
  refine ⟨by rw [nInodeDisk_eq]; omega, by rw [hf.inodes]; simpa using hd, ?_⟩
  rcases Nat.eq_zero_or_pos d with rfl | hpos
  · rw [hf.root]
    exact (by decide : (1 : UInt16) ≠ 0)
  · rw [(hf.file d hpos hd).2]
    decide

theorem sound_mounted (h : Mkfs.main junk files = some img) (hm : Mounted img s) : Sound s := by
  have hf := Mkfs.main_fresh h
  have hfew := hf.few
  obtain ⟨hcore, hclean⟩ := hm.boot h
  have hd : s.disk = img := congrArg Core.disk hcore
  have hic : s.icache = fun _ => unusedInode := congrArg Core.icache hcore
  have hsize : (Mkfs.rootInode files.length).size.toNat = 32 * (files.length + 2) := by
    rw [Mkfs.rootInode]
    simp only [direntSize]
    rw [UInt32.toNat_ofNat', Nat.mod_eq_of_lt (by omega)]
  refine ⟨treeInv_mounted h hm, fun ip => ?_, fun d hdir => ?_, fun d _ _ => hclean.view _, ?_⟩
  · rw [hic]
    exact ⟨Or.inl ⟨rfl, rfl, rfl⟩, fun hv => absurd hv Bool.false_ne_true, fun _ _ _ => rfl⟩
  · rw [hd] at hdir ⊢
    obtain rfl := (isDir_boot hf).mp hdir
    refine ⟨?_, ?_, fun _ => ?_, fun k name n he => ?_⟩
    · rw [hf.root, hsize, direntSize]
      omega
    · rw [hf.root, hsize, blockSize]
      omega
    · rw [hf.root]
      exact (by decide : 131 ≠ 0)
    · rw [ents_boot hf, bootEntry] at he
      split at he
      · next hk =>
        have hnum := rootEntry_num hk
        have hlen := (rootEntry_name hk hf.names).2
        split at he
        · cases he
        · rw [Option.some.inj he] at hnum hlen
          exact ⟨linked_boot hf hnum, hlen⟩
      · cases he
  · rw [hd]
    exact linked_boot hf (Nat.zero_le _)

end Boot

end WhuOs.Fs
