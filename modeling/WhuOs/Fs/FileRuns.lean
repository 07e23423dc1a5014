import WhuOs.Fs.FileFree

/-! # Runs of file operations

Creating, opening, writing and dropping files from a fresh image. `FileInv` is the
invariant of these runs: the block trees of all allocated inodes are exclusive and
marked. It is kept as long as no allocation of a data block fails and every block
taken as an index block is empty; the last part shows what a recycled index block
does.
-/

namespace WhuOs.Fs

open Prog Bytes Bits PtrTree

inductive FileOp where
  /-- `inode_create`; the handle stays open. -/
  | create (type major minor : UInt16)
  /-- A handle on an existing inode, loaded. -/
  | open (inodeNum : Nat)
  /-- `inode_write_data` under the inode's lock. -/
  | write (ip : Slot) (offset len : Nat) (src : Bytes)
  /-- Clear the link count and release the handle with `inode_free`. -/
  | drop (ip : Slot)

def FileOp.run : FileOp → FsM Unit
  | .create type major minor => do
      let _ ← inodeCreate type major minor
  | .open inodeNum => do
      let ip ← inodeAlloc inodeNum
      inodeLock ip
      inodeUnlock ip
  | .write ip offset len src => do
      inodeLock ip
      let _ ← inodeWriteData ip offset len src
      inodeUnlock ip
  | .drop ip => do
      inodeLock ip
      modifyInode ip fun x => { x with nlink := 0 }
      inodeRw ip true
      inodeUnlock ip
      inodeFree ip

/-- A client opens allocated inodes and uses handles it holds. -/
def FileOp.May : FileOp → State → Prop
  | .create _ _ _, _ => True
  | .open inodeNum, s => ibit s.disk inodeNum = true
  | .write ip _ _ _, s => 0 < (s.icache ip).ref
  | .drop ip, s => 0 < (s.icache ip).ref

def FileOp.Grows : FileOp → Prop
  | .drop _ => False
  | _ => True

/-- The operation performed from `s` meets no failed allocation and no used index block. -/
def FileOp.Good (op : FileOp) (s : State) : Prop := ∀ t ∈ (op.run s).2, GoodEvent t

instance (op : FileOp) (s : State) : Decidable (op.May s) :=
  match op with
  | .create _ _ _ => isTrue trivial
  | .open _ => inferInstanceAs (Decidable (_ = _))
  | .write _ _ _ _ => inferInstanceAs (Decidable (_ < _))
  | .drop _ => inferInstanceAs (Decidable (_ < _))

instance (op : FileOp) : Decidable op.Grows :=
  match op with
  | .create _ _ _ => isTrue trivial
  | .open _ => isTrue trivial
  | .write _ _ _ _ => isTrue trivial
  | .drop _ => isFalse id

instance (op : FileOp) (s : State) : Decidable (op.Good s) :=
  inferInstanceAs (Decidable (∀ t ∈ (op.run s).2, GoodEvent t))

/-- The block trees of the allocated inodes and the handles on them. `count` is the number of
files in the image; `keep` says that nothing is destroyed. -/
structure FileInv (count : Nat) (keep : Prop) (s : State) : Prop where
  tree : TreeInv (Live s) [] s
  slots : ∀ ip, ((s.icache ip).ref = 0 ∧ (s.icache ip).inodeNum = inodeNumUnused) ∨
    (0 < (s.icache ip).ref ∧ (s.icache ip).valid = true ∧ Live s (s.icache ip).inodeNum)
  few : ∀ n, Live s n → n ≤ count ∨ ∃ ip, (s.icache ip).inodeNum = n
  locks : s.locks = fun _ => false
  empty : keep → FreeEmpty s

section

variable {count n : Nat} {keep : Prop} {s s' : State} {ip : Slot}
  {G H : Event → Prop} {E : Panic → Prop}

theorem FileInv.opened (h : FileInv count keep s) (hr : 0 < (s.icache ip).ref) :
    Opened s (s.icache ip).inodeNum ip ∧ Live s (s.icache ip).inodeNum := by
  rcases h.slots ip with ⟨h0, -⟩ | ⟨-, hv, hl⟩
  · omega
  · exact ⟨⟨rfl, hv⟩, hl⟩

/-- An entry without references carries no allocated inode. -/
theorem FileInv.unused (h : FileInv count keep s) (hfree : (s.icache ip).ref = 0) {m : Nat}
    (hm : Live s m) : (s.icache ip).inodeNum ≠ m := by
  have hunused : (s.icache ip).inodeNum = inodeNumUnused := by
    rcases h.slots ip with ⟨-, hu⟩ | ⟨hpos, -, -⟩
    · exact hu
    · omega
  intro he
  have hb := h.tree.owned.bound m hm
  rw [← he, hunused] at hb
  exact absurd hb (by decide)

theorem FreeEmpty.loaded (h : FreeEmpty s) (hl : Loaded [] s s') : FreeEmpty s' := by
  intro b hd hb
  have hdisk : s'.disk = s.disk := by rw [hl.core]
  obtain ⟨hv, hz⟩ := h b hd (by rw [← hdisk]; exact hb)
  refine ⟨?_, by rw [hdisk, hz]⟩
  rcases hl.evolves.view b id with h1 | h1
  · rw [h1, hv]
  · rw [h1, hz]

theorem FreeEmpty.stored {c : Nat} {d : Block} (h : FreeEmpty s) (hst : Stored [] s c d s')
    (hc : c < 130) : FreeEmpty s' := by
  intro b hd hb
  rw [hst.core, dbit_update (by omega)] at hb
  obtain ⟨hv, hz⟩ := h b hd hb
  rw [inData_iff] at hd
  have hne : b ≠ c := by omega
  refine ⟨?_, by rw [hst.evolves.disk b hne, hz]⟩
  rcases hst.evolves.view b hne with h1 | h1
  · rw [h1, hv]
  · rw [h1, hz]

/-! ## Creating -/

theorem Live.congr (h : s'.disk 1 = s.disk 1) : Live s' = Live s := by
  funext m
  exact congrArg (bitAt · m = true) h

/-- No entry carries a number that is not allocated. -/
theorem FileInv.no_slot (h : FileInv count keep s) (hn : ¬ Live s n)
    (hlt : n < nInodeDisk) (j : Slot) :
    (s.icache j).inodeNum ≠ n := by
  intro he
  rcases h.slots j with ⟨-, hu⟩ | ⟨-, -, hl⟩
  · have hlt' : inodeNumUnused < nInodeDisk := by
      rw [← hu, he]
      exact hlt
    exact absurd hlt' (by decide)
  · exact hn (he ▸ hl)

/-- The handles and the files of the image bound the numbers in use. -/
theorem FileInv.smallest (h : FileInv count keep s) (hc : count ≤ 30) (hbelow : ∀ m < n, Live s m) :
    n < nInodeDisk := by
  have hsub : Finset.range n ⊆ Finset.range (count + 1) ∪
      Finset.univ.image fun ip => (s.icache ip).inodeNum := by
    intro m hm
    rw [Finset.mem_range] at hm
    rcases h.few m (hbelow m hm) with hle | ⟨ip, hip⟩
    · exact Finset.mem_union_left _ (Finset.mem_range.mpr (by omega))
    · exact Finset.mem_union_right _ (Finset.mem_image.mpr ⟨ip, Finset.mem_univ _, hip⟩)
  have hcard := Finset.card_le_card hsub
  have hunion := Finset.card_union_le (Finset.range (count + 1))
    (Finset.univ.image fun ip => (s.icache ip).inodeNum)
  have himage := Finset.card_image_le (s := Finset.univ) (f := fun ip => (s.icache ip).inodeNum)
  simp only [Finset.card_range, Finset.card_univ, Fintype.card_fin] at hcard hunion himage
  rw [nInodeDisk_eq]
  omega

theorem UniqueSlots.add (hu : UniqueSlots s) {x : Inode} (hx : x.inodeNum = n)
    (hno : ∀ j, (s.icache j).inodeNum ≠ n) : UniqueSlots (s.setInode ip x) := by
  intro j k
  simp only [setInode_icache, Function.update_apply]
  by_cases hj : j = ip <;> by_cases hk : k = ip
  · intro _ _
    rw [hj, hk]
  · intro he _
    rw [if_pos hj, if_neg hk, hx] at he
    exact absurd he.symm (hno k)
  · intro he _
    rw [if_neg hj, if_pos hk, hx] at he
    exact absurd he (hno j)
  · rw [if_neg hj, if_neg hk]
    exact hu j k

/-- A new inode owns no block. -/
theorem TreeInv.addInode {A : Nat → Prop} {x : Inode} (h : TreeInv A [] s) (hlt : n < nInodeDisk)
    (hA : ¬ A n) (hslot : ∀ m, A m → (s.icache ip).inodeNum ≠ m)
    (hno : ∀ j, (s.icache j).inodeNum ≠ n) (hx : x.inodeNum = n) (hv : x.valid = true)
    (ha : x.addrs = fun _ => 0) : TreeInv (fun m => A m ∨ m = n) [] (s.setInode ip x) := by
  have hu : UniqueSlots (s.setInode ip x) := h.uniq.add hx hno
  have hold : ∀ p, A p.ino → blockAt (s.setInode ip x) p = blockAt s p := by
    intro p hp
    rw [blockAt, inodeCopy_setInode_other (hslot _ hp) (fun he => hA (by rw [← hx, he]; exact hp))]
    rfl
  have hnew : ∀ p, p.ino = n → blockAt (s.setInode ip x) p = 0 := by
    intro p hp
    have hv' : ((s.setInode ip x).icache ip).valid = true := by simpa using hv
    rw [blockAt, hp, inodeCopy_slot hu hv' (by simpa using hx) hlt]
    simp [ha]
  have hin : ∀ p, PosOf (fun m => A m ∨ m = n) p → blockAt (s.setInode ip x) p ≠ 0 →
      PosOf A p ∧ blockAt (s.setInode ip x) p = blockAt s p := by
    intro p hp hne
    have hpA : A p.ino := hp.ino.resolve_right fun hpn => hne (hnew p hpn)
    exact ⟨⟨hpA, hp.depth, hp.entry⟩, hold p hpA⟩
  refine ⟨⟨h.store.sb, h.store.cache.setInode _, h.store.settled, h.store.kept⟩, hu,
    ⟨?_, fun p hp hne => ?_, fun p q hp hq he hne => ?_⟩, fun p hp hne => ?_⟩
  · rintro m (hm | rfl)
    · exact h.owned.bound m hm
    · exact hlt
  · obtain ⟨hp', hb⟩ := hin p hp hne
    rw [hb] at hne ⊢
    exact h.owned.area p hp' hne
  · obtain ⟨hp', hb⟩ := hin p hp hne
    obtain ⟨hq', hb'⟩ := hin q hq (he ▸ hne)
    exact h.owned.excl p q hp' hq' (by rw [← hb, ← hb', he]) (hb ▸ hne)
  · obtain ⟨hp', hb⟩ := hin p hp hne
    rw [hb] at hne ⊢
    exact h.marked p hp' hne

def createdInode (n : Nat) (type major minor : UInt16) : Inode :=
  { type, major, minor, nlink := 1, size := 0, addrs := fun _ => 0, inodeNum := n,
    ref := 1, valid := true }

/-- `inode_create` from the point where it has a number and an entry. -/
theorem FileInv.create_slot (h : FileInv count keep s) {s₁ : State} (h₁ : TreeInv (Live s) [] s₁)
    (hst : Stored [] s 1 (setBit (s.disk 1) n) s₁) (hn : n < nInodeDisk) (hnl : ¬ Live s n)
    (hfree : (s₁.icache ip).ref = 0) (type major minor : UInt16) :
    Sat (do
      spinlockAcquire (.inode ip)
      modifyInode ip fun x =>
        { x with
          toDiskInode := { type, major, minor, nlink := 1, size := 0, addrs := fun _ => 0 }
          valid := true }
      inodeRw ip true
      spinlockRelease (.inode ip)
      pure (some ip))
      (s₁.setInode ip { s₁.icache ip with inodeNum := n, ref := 1, valid := false })
      (fun _ => True) (fun _ => FileInv count keep) (fun _ => True) := by
  have hic : s₁.icache = s.icache := by rw [hst.core]
  have hlk : s₁.locks = fun _ => false := by rw [hst.core]; exact h.locks
  have hno := h.no_slot hnl hn
  have hunused : (s.icache ip).inodeNum = inodeNumUnused := by
    rw [hic] at hfree
    rcases h.slots ip with ⟨-, hu⟩ | ⟨hpos, -, -⟩
    · exact hu
    · omega
  rw [sat_bind, sat_acquire (by rw [setInode_locks, hlk]), sat_bind,
    sat_modifyInode, setInode_setLock,
    setInode_setInode]
  simp only [setLock_icache, setInode_icache, Function.update_self]
  change Sat _ ((s₁.setInode ip (createdInode n type major minor)).setLock (.inode ip) true) _ _ _
  have h₂ : TreeInv (fun m => Live s m ∨ m = n) []
      ((s₁.setInode ip (createdInode n type major minor)).setLock (.inode ip) true) := by
    refine TreeInv.setLock
      (h₁.addInode hn hnl (fun m hm => ?_) (by rw [hic]; exact hno) rfl rfl rfl)
      (by simp) (by simp) true
    have hb := h.tree.owned.bound m hm
    rw [nInodeDisk_eq] at hb
    rw [hic, hunused, inodeNumUnused]
    omega
  have hop₂ : Opened ((s₁.setInode ip (createdInode n type major minor)).setLock (.inode ip) true)
      n ip := ⟨by simp [createdInode], by simp [createdInode]⟩
  have hr := inodeBlock_range hn
  refine (inodeRw_write_sat (b := inodeBlock Mkfs.sb n) h₂.store.cache ?_
    (readable_nil _ (by unfold blockNumUnused; omega)) trivial).bind fun _ s₃ hst₃ => ?_
  · rw [h₂.store.sb, hop₂.num]
  rw [hop₂.num] at hst₃
  obtain ⟨h₃, -⟩ := h₂.slot_stored hop₂ hn hst₃
  have hlk₃ : s₃.locks = Function.update (fun _ => false) (.inode ip) true := by
    rw [hst₃.core, ← hlk]
    rfl
  rw [sat_bind, sat_release (by rw [hlk₃]; simp), sat_pure]
  have hlive : Live (s₃.setLock (.inode ip) false) = fun m => Live s m ∨ m = n := by
    funext m
    have hd₁ : s₁.disk = setIbit s.disk n := by rw [hst.core]; rfl
    simp only [Live, setLock_disk, h₂.store.slot_disk hn hst₃, ibit_setIno hn, setInode_disk, hd₁,
      ibit_setIbit, Bool.or_eq_true, decide_eq_true_eq, eq_iff_iff]
    exact or_comm
  have hic₃ : s₃.icache = Function.update s.icache ip (createdInode n type major minor) := by
    rw [hst₃.core, ← hic]
    rfl
  refine ⟨by rw [hlive]; exact h₃.setLock (by simp) (by simp) false, fun j => ?_, fun m hm => ?_, ?_,
    fun hk => ?_⟩
  · rw [hlive, setLock_icache, hic₃]
    by_cases hj : j = ip
    · right
      simp [hj, createdInode]
    · simp only [Function.update_of_ne hj]
      exact (h.slots j).imp_right fun hs => ⟨hs.1, hs.2.1, Or.inl hs.2.2⟩
  · rw [hlive] at hm
    rw [setLock_icache, hic₃]
    rcases hm with hm | rfl
    · refine (h.few m hm).imp_right fun ⟨j, hj⟩ => ⟨j, ?_⟩
      have hne : j ≠ ip := fun he => by
        have hb := h.tree.owned.bound m hm
        rw [← hj, he, hunused] at hb
        exact absurd hb (by decide)
      simpa [hne] using hj
    · exact Or.inr ⟨ip, by simp [createdInode]⟩
  · rw [setLock_locks, hlk₃, Function.update_idem]
    simp
  · have he : FreeEmpty s₁ := (h.empty hk).stored hst (by omega)
    have he' : FreeEmpty ((s₁.setInode ip (createdInode n type major minor)).setLock
      (.inode ip) true) := he
    have he₃ : FreeEmpty s₃ := he'.stored hst₃ (by omega)
    exact he₃

theorem FileInv.create_sat (h : FileInv count keep s) (hc : count ≤ 30)
    (type major minor : UInt16) :
    Sat (inodeCreate type major minor) s (fun _ => True)
      (fun _ => FileInv count keep) (fun _ => True) := by
  unfold inodeCreate
  refine (bitmapAllocInode_sat h.tree.store.cache h.tree.store.sb (readable_nil s (by decide))
    trivial).bind fun n s₁ hp => ?_
  cases hp with
  | full all loaded =>
      rw [if_pos rfl, sat_pure]
      have hd : s₁.disk = s.disk := by rw [loaded.core]
      have hl : Live s₁ = Live s := Live.congr (by rw [hd])
      refine ⟨by rw [hl]; exact h.tree.loaded loaded, ?_, ?_, by rw [loaded.core]; exact h.locks,
        fun hk => (h.empty hk).loaded loaded⟩
      · rw [hl, loaded.core]
        exact h.slots
      · rw [hl, loaded.core]
        exact h.few
  | found lt clear below stored =>
      rw [if_neg (by omega)]
      have hset := h.tree.store.settled 1 (by omega)
      rw [hset] at clear below stored
      have hn : n < nInodeDisk := h.smallest hc below
      have hnl : ¬ Live s n := by
        unfold Live ibit
        rw [show bitAt (s.disk Mkfs.sb.inodeBitmapStart) n = false from clear]
        simp
      have h₁ := h.tree.ibitmap stored
      have hic₁ : s₁.icache = s.icache := by rw [stored.core]
      have hlk₁ : s₁.locks = fun _ => false := by rw [stored.core]; exact h.locks
      have hno := h.no_slot hnl hn
      refine (inodeAlloc_sat (by rw [hlk₁]) fun _ => trivial).bind fun ip s₂ hd => ?_
      cases hd with
      | hit num =>
          rw [hic₁] at num
          exact absurd num (hno ip)
      | recycled miss free =>
          exact h.create_slot h₁ stored hn hnl free type major minor

/-! ## Opening -/

/-- `FileInv` across a step that leaves the inode bitmap alone. -/
theorem FileInv.same (h : FileInv count keep s) (ht : TreeInv (Live s) [] s')
    (hd : s'.disk 1 = s.disk 1) (hl : s'.locks = fun _ => false)
    (hs : ∀ j, (s'.icache j).inodeNum = (s.icache j).inodeNum ∧
      (s'.icache j).valid = (s.icache j).valid ∧
      (0 < (s'.icache j).ref ↔ 0 < (s.icache j).ref))
    (he : FreeEmpty s → FreeEmpty s') : FileInv count keep s' := by
  have hlive : Live s' = Live s := Live.congr hd
  refine ⟨by rw [hlive]; exact ht, fun j => ?_, fun m hm => ?_, hl, fun hk => he (h.empty hk)⟩
  · obtain ⟨hn, hv, hr⟩ := hs j
    rw [hlive, hn, hv, hr]
    refine (h.slots j).imp_left fun h0 => ⟨?_, h0.2⟩
    have := hr.not.mpr (by omega)
    omega
  · rw [hlive] at hm
    refine (h.few m hm).imp_right fun ⟨j, hj⟩ => ⟨j, ?_⟩
    rw [(hs j).1, hj]

/-- Loading an inode into a free entry moves no block. -/
theorem TreeInv.openSlot {A : Nat → Prop} {x : Inode} (h : TreeInv A [] s) (hlt : n < nInodeDisk)
    (hslot : ∀ m, A m → (s.icache ip).inodeNum ≠ m) (hno : ∀ j, (s.icache j).inodeNum ≠ n)
    (hx : x.inodeNum = n) (hv : x.valid = true) (hd : x.toDiskInode = inoAt s.disk n) :
    TreeInv A [] (s.setInode ip x) := by
  have hu : UniqueSlots (s.setInode ip x) := h.uniq.add hx hno
  have hcopy : ∀ m, A m → inodeCopy (s.setInode ip x) m = inodeCopy s m := by
    intro m hm
    by_cases hmn : m = n
    · subst hmn
      have hv' : ((s.setInode ip x).icache ip).valid = true := by simpa using hv
      rw [inodeCopy_slot hu hv' (by simpa using hx) hlt,
        inodeCopy_disk fun j hj => absurd hj (hno j)]
      simpa using hd
    · exact inodeCopy_setInode_other (hslot m hm) fun he => hmn (by rw [← he, hx])
  have hlost : Lost A s (s.setInode ip x) := by
    intro p hp
    left
    rw [blockAt, hcopy _ hp.ino]
    rfl
  exact ⟨⟨h.store.sb, h.store.cache.setInode _, h.store.settled, h.store.kept⟩, hu,
    h.owned.lost hlost, h.marked.lost hlost fun _ _ _ hb => hb⟩

theorem sat_inodeUnlock {Q : Unit → State → Prop} (h : s.locks (.inode ip) = true) :
    Sat (inodeUnlock ip) s G Q E ↔ Q () (s.setLock (.inode ip) false) := sat_release h

/-- `open` through an entry that already carries the inode. -/
theorem FileInv.open_hit (h : FileInv count keep s) (hlt : (s.icache ip).inodeNum < nInodeDisk) :
    Sat (do inodeLock ip; inodeUnlock ip)
      (s.setInode ip { s.icache ip with ref := (s.icache ip).ref + 1 })
      G (fun _ => FileInv count keep) E := by
  obtain ⟨href, hv, hl⟩ : 0 < (s.icache ip).ref ∧ (s.icache ip).valid = true ∧
      Live s (s.icache ip).inodeNum := by
    rcases h.slots ip with ⟨-, hu⟩ | hs
    · rw [hu] at hlt
      exact absurd hlt (by decide)
    · exact hs
  rw [sat_bind, inodeLock_valid (by simp [h.locks]) (by simpa using hv), sat_inodeUnlock (by simp),
    setLock_setLock, setLock_self (by simp [h.locks])]
  refine h.same (h.tree.setInode ⟨rfl, hv⟩ hlt rfl hv rfl) rfl h.locks (fun j => ?_) id
  by_cases hj : j = ip
  · subst hj
    simp [href]
  · simp [hj]

/-- `inode_lock` fills a recycled entry from the disk. -/
theorem FileInv.load_recycled (h : FileInv count keep s) (hn : Live s n)
    (hno : ∀ j, (s.icache j).inodeNum ≠ n) (hfree : (s.icache ip).ref = 0) :
    Sat (inodeLock ip)
      (s.setInode ip { s.icache ip with inodeNum := n, ref := 1, valid := false }) G
      (fun _ s' => Loaded [] ((s.setInode ip { s.icache ip with
          toDiskInode := .decode (s.disk (inodeBlock Mkfs.sb n)) (inodeOffset n)
          inodeNum := n, ref := 1, valid := true }).setLock (.inode ip) true) s' ∧
        TreeInv (Live s) [] s') E := by
  have hlt := h.tree.owned.bound n hn
  have hr := inodeBlock_range hlt
  refine (inodeLock_load (b := inodeBlock Mkfs.sb n)
    (h.tree.store.cache.setInode _) (by simp [h.locks])
    (by simp) (by simp [h.tree.store.sb]) (readable_nil _ (by unfold blockNumUnused; omega))).imp
    fun _ s' hld => ?_
  simp only [setInode_setInode, setInode_icache, Function.update_self, setInode_view,
    h.tree.store.settled _ (show inodeBlock Mkfs.sb n < 131 by omega)] at hld
  have hopen : TreeInv (Live s) [] (s.setInode ip { s.icache ip with
      toDiskInode := .decode (s.disk (inodeBlock Mkfs.sb n)) (inodeOffset n)
      inodeNum := n, ref := 1, valid := true }) :=
    h.tree.openSlot hlt (fun _ => h.unused hfree) hno rfl rfl rfl
  exact ⟨hld, (hopen.setLock (by simp) (by simp) true).loaded hld⟩

/-- `open` through a recycled entry. -/
theorem FileInv.open_recycled (h : FileInv count keep s) (hn : Live s n)
    (hno : ∀ j, (s.icache j).inodeNum ≠ n) (hfree : (s.icache ip).ref = 0) :
    Sat (do inodeLock ip; inodeUnlock ip)
      (s.setInode ip { s.icache ip with inodeNum := n, ref := 1, valid := false })
      G (fun _ => FileInv count keep) E := by
  have hne : ∀ m, Live s m → (s.icache ip).inodeNum ≠ m := fun _ => h.unused hfree
  rw [sat_bind]
  refine (h.load_recycled hn hno hfree).imp fun _ s' hloaded => ?_
  obtain ⟨hld, ht⟩ := hloaded
  have hlk : s'.locks = Function.update s.locks (.inode ip) true := by
    rw [hld.core]
    rfl
  rw [sat_inodeUnlock (by rw [hlk]; simp)]
  have hd : s'.disk = s.disk := by
    rw [hld.core]
    rfl
  have hlive : Live (s'.setLock (.inode ip) false) = Live s := Live.congr (by rw [setLock_disk, hd])
  have hic : s'.icache = Function.update s.icache ip { s.icache ip with
      toDiskInode := .decode (s.disk (inodeBlock Mkfs.sb n)) (inodeOffset n)
      inodeNum := n, ref := 1, valid := true } := by
    rw [hld.core]
    rfl
  refine ⟨by rw [hlive]; exact ht.setLock (by simp) (by simp) false, fun j => ?_, fun m hm => ?_, ?_,
    fun hk => ?_⟩
  · rw [hlive, setLock_icache, hic]
    by_cases hj : j = ip
    · right
      simpa [hj] using hn
    · simpa [hj] using h.slots j
  · rw [hlive] at hm
    rw [setLock_icache, hic]
    refine (h.few m hm).imp_right fun ⟨j, hj⟩ => ⟨j, ?_⟩
    have hji : j ≠ ip := fun he => hne m hm (by rw [← he, hj])
    simpa [hji] using hj
  · rw [setLock_locks, hlk, Function.update_idem, h.locks]
    simp
  · have he : FreeEmpty ((s.setInode ip { s.icache ip with
        toDiskInode := .decode (s.disk (inodeBlock Mkfs.sb n)) (inodeOffset n)
        inodeNum := n, ref := 1, valid := true }).setLock (.inode ip) true) := h.empty hk
    have he' : FreeEmpty s' := he.loaded hld
    exact he'

theorem FileInv.open_sat (h : FileInv count keep s) (hn : Live s n) :
    Sat (FileOp.open n).run s (fun _ => True) (fun _ => FileInv count keep) (fun _ => True) := by
  refine (inodeAlloc_sat (by rw [h.locks]) fun _ => trivial).bind fun ip s₁ hd => ?_
  cases hd with
  | hit num => exact h.open_hit (by rw [num]; exact h.tree.owned.bound n hn)
  | recycled miss free => exact h.open_recycled hn miss free

/-! ## Writing and dropping -/

theorem FileInv.write_on (h : FileInv count keep s) (hcare : Careful G s)
    (hr : 0 < (s.icache ip).ref) (offset len : Nat) (src : Bytes) :
    SatOn (FileOp.write ip offset len src).run s G (fun _ => True)
      (fun _ => FileInv count keep) := by
  obtain ⟨hop, hn⟩ := h.opened hr
  have hlt := h.tree.owned.bound _ hn
  have hlock : inodeLock ip s = (.ok ((), s.setLock (.inode ip) true), []) := by
    simp [inodeLock, spinlockAcquire, spinlockHolding, inodeOf, state, Prog.modify, pure, ret,
      Bind.bind, seq, h.locks, hop.valid, State.setLock]
  simp only [FileOp.run]
  rw [satOn_bind_of_eq hlock]
  have h₁ : TreeInv (Live s) [] (s.setLock (.inode ip) true) :=
    h.tree.setLock (by simp) (by simp) true
  have hcare₁ : Careful G (s.setLock (.inode ip) true) := ⟨hcare.fail, hcare.index⟩
  refine (inodeWriteData_on hcare₁ h₁ hn (hop.congr rfl) trivial (fun _ _ => trivial) trivial
    (fun _ _ => trivial) offset len).bind fun _ s₂ hw => ?_
  obtain ⟨h₂, w⟩ := hw
  have hlk : s₂.locks = Function.update s.locks (.inode ip) true := by
    rw [w.locks]
    rfl
  refine Sat.on (E := fun _ => False) ((sat_inodeUnlock (by rw [hlk]; simp)).mpr ?_)
  refine h.same (h₂.setLock (by simp) (by simp) false) ?_ ?_ (fun j => ?_) w.empty
  · have hb := inodeBlock_range hlt
    refine w.disk 1 (by omega) (by omega) fun hm => ?_
    exact absurd hm.1 (by decide)
  · rw [setLock_locks, hlk, Function.update_idem, h.locks]
    simp
  · obtain ⟨a, z, ha⟩ := w.icache
    rw [setLock_icache, ha]
    by_cases hj : j = ip <;> simp [hj]

/-- The release of the last handle on an inode without links. -/
theorem FileInv.free_sat (h : FileInv count keep s) (hr : 0 < (s.icache ip).ref)
    (hz : (s.icache ip).nlink = 0) (hk : ¬ keep) :
    Sat (inodeFree ip) s (fun _ => True) (fun _ => FileInv count keep) E := by
  obtain ⟨hop, hn⟩ := h.opened hr
  have hlt := h.tree.owned.bound _ hn
  unfold inodeFree
  rw [sat_bind, sat_acquire (by rw [h.locks]), sat_bind, sat_modifyInode, sat_bind, sat_inodeOf,
    setInode_setLock]
  simp only [setLock_icache, setInode_icache, Function.update_self, hz, and_true]
  have h₀ : TreeInv (Live s) [] (s.setInode ip { s.icache ip with
      ref := (s.icache ip).ref - 1 }) := h.tree.setInode hop hlt rfl hop.valid rfl
  have h₁ : TreeInv (Live s) [] ((s.setInode ip { s.icache ip with
      ref := (s.icache ip).ref - 1 }).setLock .icache true) :=
    h₀.setLock (by simp) (by simp) true
  split
  · next hlast =>
    have hop₁ : Opened ((s.setInode ip { s.icache ip with
        ref := (s.icache ip).ref - 1 }).setLock .icache true) (s.icache ip).inodeNum ip :=
      ⟨by simp, by simpa using hop.valid⟩
    refine (inodeDestroy_sat h₁ hn hop₁ (by simp [h.locks]) trivial trivial trivial trivial).bind
      fun _ s₂ d => ?_
    have hlk : s₂.locks = Function.update s.locks .icache true := by
      rw [d.core]
      rfl
    rw [sat_release (by rw [hlk]; simp)]
    have hlive : Live (s₂.setLock .icache false) = fun m =>
      Live s m ∧ m ≠ (s.icache ip).inodeNum := by
      funext m
      simp only [Live, setLock_disk, d.ibits, setInode_disk, Bool.and_eq_true, decide_eq_true_eq,
        eq_iff_iff]
      exact and_comm
    have hic : s₂.icache = Function.update s.icache ip (destroyedInode { s.icache ip with
        ref := (s.icache ip).ref - 1 }) := by
      rw [d.core]
      simp
    refine ⟨by rw [hlive]; exact d.tree.setLock (by simp) (by simp) false, fun j => ?_,
      fun m hm => ?_, ?_, fun h => absurd h hk⟩
    · rw [hlive, setLock_icache, hic]
      by_cases hj : j = ip
      · left
        simp [hj, destroyedInode, wipedInode, hlast]
      · simp only [Function.update_of_ne hj]
        refine (h.slots j).imp_right fun hs => ⟨hs.1, hs.2.1, hs.2.2, fun he => hj ?_⟩
        exact h.tree.uniq j ip he (h.tree.owned.bound _ hs.2.2)
    · rw [hlive] at hm
      rw [setLock_icache, hic]
      refine (h.few m hm.1).imp_right fun hslot => ?_
      obtain ⟨j, hj⟩ := hslot
      refine ⟨j, ?_⟩
      have hji : j ≠ ip := fun he => hm.2 (by rw [← hj, he])
      simpa [hji] using hj
    · rw [setLock_locks, hlk, Function.update_idem, h.locks]
      simp
  · next hmore =>
    rw [sat_release (by simp), setLock_setLock, setLock_self (by simp [h.locks])]
    refine h.same h₀ rfl h.locks (fun j => ?_) id
    by_cases hj : j = ip
    · subst hj
      simp only [setInode_icache, Function.update_self, true_and]
      omega
    · simp [hj]

theorem FileInv.drop_sat (h : FileInv count keep s) (hr : 0 < (s.icache ip).ref) (hk : ¬ keep) :
    Sat (FileOp.drop ip).run s (fun _ => True) (fun _ => FileInv count keep) (fun _ => True) := by
  obtain ⟨hop, hn⟩ := h.opened hr
  have hlt := h.tree.owned.bound _ hn
  have hrange := inodeBlock_range hlt
  simp only [FileOp.run]
  rw [sat_bind, inodeLock_valid (by rw [h.locks]) hop.valid, sat_bind, sat_modifyInode,
    setInode_setLock, setLock_icache]
  have h₀ : TreeInv (Live s) [] (s.setInode ip { s.icache ip with nlink := 0 }) :=
    h.tree.setInode hop hlt rfl hop.valid rfl
  have h₁ : TreeInv (Live s) [] ((s.setInode ip { s.icache ip with nlink := 0 }).setLock
      (.inode ip) true) := h₀.setLock (by simp) (by simp) true
  have hop₁ : Opened ((s.setInode ip { s.icache ip with nlink := 0 }).setLock (.inode ip) true)
      (s.icache ip).inodeNum ip := ⟨by simp, by simpa using hop.valid⟩
  refine (inodeRw_write_sat (b := inodeBlock Mkfs.sb (s.icache ip).inodeNum) h₁.store.cache ?_
    (readable_nil _ (by unfold blockNumUnused; omega)) trivial).bind fun _ s₂ hst => ?_
  · rw [h₁.store.sb, hop₁.num]
  rw [hop₁.num] at hst
  obtain ⟨h₂, -⟩ := h₁.slot_stored hop₁ hlt hst
  have hlk : s₂.locks = Function.update s.locks (.inode ip) true := by
    rw [hst.core]
    rfl
  have hic : s₂.icache = Function.update s.icache ip { s.icache ip with nlink := 0 } := by
    rw [hst.core]
    rfl
  rw [sat_bind, sat_inodeUnlock (by rw [hlk]; simp)]
  have h₃ : FileInv count keep (s₂.setLock (.inode ip) false) := by
    refine h.same (h₂.setLock (by simp) (by simp) false) ?_ ?_ (fun j => ?_) fun he => ?_
    · rw [setLock_disk, h₁.store.slot_disk hlt hst, setIno_outside hlt (by omega)]
      rfl
    · rw [setLock_locks, hlk, Function.update_idem, h.locks]
      simp
    · rw [setLock_icache, hic]
      by_cases hj : j = ip <;> simp [hj]
    · have he' : FreeEmpty ((s.setInode ip { s.icache ip with nlink := 0 }).setLock
        (.inode ip) true) := he
      have he₂ : FreeEmpty s₂ := he'.stored hst (by omega)
      exact he₂
  exact h₃.free_sat (by rw [setLock_icache, hic]; simpa using hr)
    (by rw [setLock_icache, hic]; simp) hk

theorem FileInv.step (h : FileInv count keep s) (hc : count ≤ 30)
    (hcare : Careful G s) (op : FileOp)
    (hmay : op.May s) (hk : keep → op.Grows) :
    SatOn op.run s G (fun _ => True) (fun _ => FileInv count keep) := by
  cases op with
  | create type major minor =>
      exact ((h.create_sat hc type major minor).bind fun _ _ hi => (sat_pure ()).mpr hi).on
  | «open» n => exact (h.open_sat hmay).on
  | write ip offset len src => exact h.write_on hcare hmay offset len src
  | drop ip => exact (h.drop_sat hmay hk).on

end

/-! ## Whole runs -/

section Boot

variable {junk : Bytes} {files : List Mkfs.HostFile} {img : Mkfs.Image} {s : State}

/-- The blocks at the positions of a mounted image: index blocks have no entries yet. -/
theorem blockAt_mounted (h : Mkfs.main junk files = some img) (hm : Mounted img s) {p : Pos}
    (hp : PosOf (Live s) p) (hne : blockAt s p ≠ 0) :
    p.path = [] ∧ blockAt s p = Mkfs.rootPtrs files.length img p.ino p.field := by
  have hf := Mkfs.main_fresh h
  obtain ⟨hcore, hclean⟩ := hm.boot h
  have hd : s.disk = img := congrArg Core.disk hcore
  have hic : s.icache = fun _ => unusedInode := congrArg Core.icache hcore
  have hle : p.ino ≤ files.length := by
    have hl := hp.ino
    rw [Live, hd, hf.inodes, decide_eq_true_eq] at hl
    exact hl
  have hroot : ((inodeCopy s p.ino).addrs p.field).toNat =
      Mkfs.rootPtrs files.length img p.ino p.field := by
    rw [inodeCopy_disk fun ip _ => by rw [hic]; rfl, hd, Mkfs.rootPtrs, if_pos hle]
    split
    · next h0 => rw [h0, hf.root]
    · rfl
  rcases p with ⟨n, i, ks⟩
  cases ks with
  | nil => exact ⟨rfl, hroot⟩
  | cons k ks =>
      refine absurd ?_ hne
      rw [blockAt, hroot]
      by_cases h0 : Mkfs.rootPtrs files.length img n i = 0
      · rw [h0, follow_null]
      · have hi : 10 ≤ i.val := by
          by_contra hlt
          have hdep := hp.depth
          have hlev : addrLevel i = 0 := addrLevel_direct (by omega)
          simp [hlev] at hdep
        have hz := hf.ptrs.index n i h0 hi
        refine follow_leaf (fun k => ?_) k ks
        rw [ptr, hclean.view, hd, hz, word_zero]

theorem treeInv_mounted (h : Mkfs.main junk files = some img) (hm : Mounted img s) :
    TreeInv (Live s) [] s := by
  have hf := Mkfs.main_fresh h
  obtain ⟨hcore, hclean⟩ := hm.boot h
  have hd : s.disk = img := congrArg Core.disk hcore
  have hic : s.icache = fun _ => unusedInode := congrArg Core.icache hcore
  refine ⟨⟨congrArg Core.sb hcore, hclean.inv, fun b _ => hclean.view b, fun b k => ?_⟩,
    fun i j _ hlt => ?_, ⟨fun n hn => ?_, fun p hp hne => ?_, fun p q hp hq he hne => ?_⟩,
    fun p hp hne => ?_⟩
  · exact Or.inl (by rw [ptr, hclean.view])
  · rw [hic] at hlt
    exact absurd hlt (by simp [unusedInode, nInodeDisk_eq, inodeNumUnused])
  · rw [Live, hd, hf.inodes, decide_eq_true_eq] at hn
    have hfew := hf.few
    rw [nInodeDisk_eq]
    omega
  · obtain ⟨-, hb⟩ := blockAt_mounted h hm hp hne
    rw [hb] at hne ⊢
    exact (hf.ptrs.area _ _ hne).1
  · obtain ⟨hpp, hb⟩ := blockAt_mounted h hm hp hne
    obtain ⟨hqp, hb'⟩ := blockAt_mounted h hm hq (he ▸ hne)
    have hroots : Mkfs.rootPtrs files.length img p.ino p.field =
        Mkfs.rootPtrs files.length img q.ino q.field := by rw [← hb, he, hb']
    obtain ⟨h1, h2⟩ := hf.ptrs.inj _ _ _ _ hroots (hb ▸ hne)
    rcases p with ⟨n, i, ks⟩
    rcases q with ⟨m, j, ls⟩
    rw [Pos.mk.injEq]
    exact ⟨h1, h2, hpp.trans hqp.symm⟩
  · obtain ⟨-, hb⟩ := blockAt_mounted h hm hp hne
    rw [hb] at hne ⊢
    rw [hd]
    exact (hf.ptrs.area _ _ hne).2

theorem fileInv_mounted (h : Mkfs.main junk files = some img) (hm : Mounted img s) (keep : Prop) :
    FileInv files.length keep s := by
  have hf := Mkfs.main_fresh h
  obtain ⟨hcore, hclean⟩ := hm.boot h
  refine ⟨treeInv_mounted h hm, fun ip => ?_, fun n hn => Or.inl ?_, congrArg Core.locks hcore,
    fun _ b hd hb => ?_⟩
  · left
    rw [hcore]
    exact ⟨rfl, rfl⟩
  · rw [Live, hcore] at hn
    have hbit := hf.inodes n
    rw [show ibit img n = true from hn] at hbit
    simpa using hbit.symm
  · rw [hclean.view, hcore]
    rw [hcore] at hb
    exact ⟨hf.zero b hd hb, hf.zero b hd hb⟩

end Boot

/-- A client of the file operations whose steps meet no failed allocation and take no used block
as an index block. -/
def FileReach (img : Mkfs.Image) (s : State) : Prop :=
  ∃ s₀, Mounted img s₀ ∧ Reach (fun op s => FileOp.May op s ∧ FileOp.Good op s) FileOp.run s₀ s

/-- Distinct positions of live inodes hold distinct blocks, all of them allocated blocks of the
data area. -/
structure BlocksExclusive (s : State) : Prop where
  distinct : ∀ p q, PosOf (Live s) p → PosOf (Live s) q → blockAt s p = blockAt s q →
    blockAt s p ≠ 0 → p = q
  area : ∀ p, PosOf (Live s) p → blockAt s p ≠ 0 → InData (blockAt s p)
  bit : ∀ p, PosOf (Live s) p → blockAt s p ≠ 0 → dbit s.disk (blockAt s p) = true

theorem FileReach.inv {junk : Bytes} {files : List Mkfs.HostFile} {img : Mkfs.Image} {s : State}
    (h : Mkfs.main junk files = some img) (hr : FileReach img s) :
    FileInv files.length False s := by
  obtain ⟨s₀, hm, hrun⟩ := hr
  refine hrun.invariant (fun op s s' hi hmay hok => ?_) (fileInv_mounted h hm False)
  exact (hi.step (Mkfs.main_fresh h).few (.good s) op hmay.1 False.elim hmay.2).2 () s' hok

/-- Blocks are exclusive along every run that takes only empty blocks as index blocks. -/
theorem blocks_exclusive_along (junk : Bytes) (files : List Mkfs.HostFile) (img : Mkfs.Image)
    (h : Mkfs.main junk files = some img) (s : State) (hr : FileReach img s) :
    BlocksExclusive s := by
  have ht := (hr.inv h).tree
  exact ⟨ht.owned.excl, ht.owned.area, ht.marked⟩

/-- A file with an index block. -/
theorem blocks_exclusive_single :
    ∃ img s, Mkfs.main (fun _ => 0) [] = some img ∧ FileReach img s ∧
      blockAt s ⟨1, 10, [0]⟩ ≠ 0 ∧ BlocksExclusive s := by
  have hrun : (bootRun (fun op s => op.May s ∧ op.Good s) FileOp.run []
      [.create ftFile 0 0, .write 0 0 10241 (fun _ => 1)]).any
      (fun s => blockAt s ⟨1, 10, [0]⟩ ≠ 0) = true := by
    decide +kernel
  obtain ⟨s, hs, hp⟩ := exists_of_any hrun
  obtain ⟨img, s₀, himg, hm, hr⟩ := reach_of_bootRun (fun _ _ h => of_decide_eq_true h) hs
  exact ⟨img, s, himg, ⟨s₀, hm, hr⟩, of_decide_eq_true hp,
    blocks_exclusive_along _ _ img himg s ⟨s₀, hm, hr⟩⟩

/-- A file with an index block is destroyed and a second one of the same size written: its index
block is the recycled one, and the stale entry in it names a block that is not allocated. -/
theorem recycled_index_block :
    ∃ img s₀ s, Mkfs.main (fun _ => 0) [] = some img ∧ Mounted img s₀ ∧
      Reach FileOp.May FileOp.run s₀ s ∧ ¬ BlocksExclusive s := by
  have hrun : (bootRun (fun op s => op.May s) FileOp.run []
      [.create ftFile 0 0, .write 0 0 10241 (fun _ => 1), .drop 0,
        .create ftFile 0 0, .write 0 0 10241 (fun _ => 1)]).any
      (fun s => ibit s.disk 1 ∧ blockAt s ⟨1, 10, [0]⟩ ≠ 0 ∧
        dbit s.disk (blockAt s ⟨1, 10, [0]⟩) = false) = true := by
    decide +kernel
  obtain ⟨s, hs, hp⟩ := exists_of_any hrun
  obtain ⟨hlive, hne, hbit⟩ := of_decide_eq_true hp
  obtain ⟨img, s₀, himg, hm, hr⟩ := reach_of_bootRun (fun _ _ h => of_decide_eq_true h) hs
  refine ⟨img, s₀, s, himg, hm, hr, fun hex => ?_⟩
  have hpos : PosOf (Live s) ⟨1, 10, [0]⟩ := ⟨hlive, by decide, by decide⟩
  rw [hex.bit _ hpos hne] at hbit
  cases hbit

end WhuOs.Fs
