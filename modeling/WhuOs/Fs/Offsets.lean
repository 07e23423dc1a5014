import WhuOs.Fs.FileTable
import WhuOs.Fs.Sizes
import WhuOs.Fs.Confine

/-! # Offsets of open files

The calls of `file.c` on any number of open files, which may share inodes. An
offset stays within the size of the inode, unless `file_open` gets the number of
an inode that is open from the inode bitmap and creates it again.
-/

namespace WhuOs.Fs

open Prog

/-! ## Calls on open files -/

inductive FileCall where
  | open (path : List UInt8) (openMode : UInt32)
  | close (f : FileId)
  | read (f : FileId) (len : Nat) (dst : Bytes)
  | write (f : FileId) (len : Nat) (src : Bytes)
  | lseek (f : FileId) (offset : Nat) (flags : Int)
  | dup (f : FileId)

def FileCall.run : FileCall → FileM Unit
  | .open path openMode => do let _ ← fileOpen path openMode
  | .close f => fileClose f
  | .read f len dst => do let _ ← fileRead f len dst
  | .write f len src => do let _ ← fileWrite f len src
  | .lseek f offset flags => do let _ ← fileLseek f offset flags
  | .dup f => do let _ ← fileDup f

/-- The inode number that `path_create_inode` gets from the bitmap: its calls up to there. -/
def nextInode (path : List UInt8) : FsM (Option Nat) := do
  match ← pathToPinode path with
  | none => return none
  | some (pip, name) =>
      inodeLock pip
      let inum ← dirSearchEntry pip name
      if inum ≠ inodeNumUnused then return none
      let n ← bitmapAllocInode
      return if n = inodeNumUnused then none else some n

/-- An open regular file stands behind the first byte of the inode. -/
def Advanced (s : FileSys) (j : Slot) : Prop :=
  ∃ f, 0 < (s.ftable f).ref ∧ (s.ftable f).type = .file ∧ (s.ftable f).ip = some j ∧
    0 < (s.ftable f).offset

/-- A `file_open` with `MODE_CREATE` gets no number from the inode bitmap that belongs to the inode
of such a file. -/
def FileCall.Fresh (s : FileSys) : FileCall → Prop
  | .open path openMode => openMode &&& modeCreate ≠ 0 →
      ∀ n fs, (nextInode path s.fs).1 = .ok (some n, fs) →
        ∀ j, Advanced s j → (s.fs.icache j).inodeNum ≠ n
  | _ => True

def TableInit (s : FileSys) : Prop := ∀ f, (s.ftable f).ref = 0 ∧ (s.ftable f).type = .unused

/-- The inodes of open regular files are referenced, loaded and reach up to the offsets. -/
structure OffsetInv (s : FileSys) : Prop where
  refs : ∀ j, pointers (openInode s) j ≤ (s.fs.icache j).ref
  closed : ∀ f, (s.ftable f).ref = 0 → (s.ftable f).type = .unused
  inode : ∀ f, (s.ftable f).type = .file → ∃ ip, (s.ftable f).ip = some ip ∧
    (s.fs.icache ip).valid = true ∧ (s.ftable f).offset ≤ (s.fs.icache ip).size.toNat

section

variable {s s' : FileSys} {f : FileId} {fs : State} {ip : Slot}

theorem OffsetInv.isOpen (h : OffsetInv s) (hf : (s.ftable f).type = .file) :
    0 < (s.ftable f).ref := by
  refine Nat.pos_of_ne_zero fun hz => ?_
  rw [h.closed f hz] at hf
  cases hf

theorem OffsetInv.ref_pos (h : OffsetInv s) (hf : (s.ftable f).type = .file)
    (hip : (s.ftable f).ip = some ip) : 0 < (s.fs.icache ip).ref := by
  have hopen : openInode s f = some ip := by
    unfold openInode
    rw [if_pos (h.isOpen hf), hip]
  have hp : pointers (openInode s) ip ≠ 0 := fun hz => pointers_eq_zero.mp hz f hopen
  have hle := h.refs ip
  omega

theorem OffsetInv.offset_le (h : OffsetInv s) (hf : (s.ftable f).type = .file)
    (hip : (s.ftable f).ip = some ip) : (s.ftable f).offset ≤ (s.fs.icache ip).size.toNat := by
  obtain ⟨ip', hip', -, hoff⟩ := h.inode f hf
  obtain rfl : ip = ip' := Option.some.inj (hip.symm.trans hip')
  exact hoff

theorem OffsetInv.based (h : OffsetInv s) : Based (Advanced s) s.fs := by
  rintro j ⟨f, -, hf, hip, -⟩
  obtain ⟨ip, hip', hvalid, -⟩ := h.inode f hf
  obtain rfl : ip = j := Option.some.inj (hip'.symm.trans hip)
  exact ⟨h.ref_pos hf hip, hvalid⟩

theorem sized_refl (s : FileSys) : Sized (Advanced s) s.fs [] [] s.fs :=
  ⟨holds_refl s.fs, kept_refl _ s.fs⟩

theorem OffsetInv.withFs (h : OffsetInv s) (href : ∀ j, (s.fs.icache j).ref ≤ (fs.icache j).ref)
    (hk : Kept (Advanced s) s.fs fs) : OffsetInv { s with fs } := by
  refine ⟨fun j => Nat.le_trans (h.refs j) (href j), h.closed, fun f hf => ?_⟩
  obtain ⟨ip, hip, hvalid, hoff⟩ := h.inode f hf
  refine ⟨ip, hip, hk.loaded ip (h.ref_pos hf hip) hvalid, ?_⟩
  rcases Nat.eq_zero_or_pos (s.ftable f).offset with hz | hpos
  · change (s.ftable f).offset ≤ _
    omega
  · exact Nat.le_trans hoff (hk.inode ip ⟨f, h.isOpen hf, hf, hip, hpos⟩).2

theorem OffsetInv.withSized {H L : List Slot} (h : OffsetInv s)
    (hs : Sized (Advanced s) s.fs H L fs) : OffsetInv { s with fs } := by
  refine h.withFs (fun j => ?_) hs.kept
  rw [hs.holds.ref j]
  omega

theorem OffsetInv.withBare (h : OffsetInv s)
    (hs : ∀ j, bareInode (fs.icache j) = bareInode (s.fs.icache j)) : OffsetInv { s with fs } := by
  refine h.withFs (fun j => ?_) ((kept_refl _ s.fs).same hs)
  have href : (fs.icache j).ref = (s.fs.icache j).ref := congrArg (fun x => x.ref) (hs j)
  omega

/-- Another entry in place of `f`. -/
theorem OffsetInv.setFile {x : File} (h : OffsetInv s) (hclosed : x.ref = 0 → x.type = .unused)
    (hrefs : ∀ j, pointers (Function.update (openInode s) f (if 0 < x.ref then x.ip else none)) j ≤
      (s.fs.icache j).ref)
    (hfile : x.type = .file → ∃ ip, x.ip = some ip ∧ (s.fs.icache ip).valid = true ∧
      x.offset ≤ (s.fs.icache ip).size.toNat) :
    OffsetInv { s with ftable := Function.update s.ftable f x } := by
  refine ⟨fun j => ?_, fun g hg => ?_, fun g hg => ?_⟩
  · rw [openInode_update s s.fs f x]
    exact hrefs j
  · by_cases hgf : g = f
    · subst hgf
      simp only [Function.update_self] at hg ⊢
      exact hclosed hg
    · simp only [Function.update_of_ne hgf] at hg ⊢
      exact h.closed g hg
  · by_cases hgf : g = f
    · subst hgf
      simp only [Function.update_self] at hg ⊢
      exact hfile hg
    · simp only [Function.update_of_ne hgf] at hg ⊢
      exact h.inode g hg

/-- The same file with more or fewer references, or another offset. -/
theorem OffsetInv.setOpen {ref o : Nat} (h : OffsetInv s)
    (hf : 0 < (s.ftable f).ref) (href : 0 < ref)
    (ho : ∀ ip, (s.ftable f).type = .file → (s.ftable f).ip = some ip →
      o ≤ (s.fs.icache ip).size.toNat) :
    OffsetInv { s with
      ftable := Function.update s.ftable f { s.ftable f with ref := ref, offset := o } } := by
  refine h.setFile (fun hz => ?_) (fun j => ?_) fun htype => ?_
  · dsimp only at hz
    omega
  · have hsame : (if 0 < ref then (s.ftable f).ip else none) = openInode s f := by
      unfold openInode
      rw [if_pos href, if_pos hf]
    dsimp only
    rw [hsame, Function.update_eq_self]
    exact h.refs j
  · obtain ⟨ip, hip, hvalid, -⟩ := h.inode f htype
    exact ⟨ip, hip, hvalid, ho ip htype hip⟩

theorem OffsetInv.lock (h : OffsetInv s) (ip : Slot) :
    Sat (inodeLock ip) s.fs (fun _ => True) (fun _ fs => OffsetInv { s with fs }) fun _ => True :=
  ((sized_rules h.based).lock (sized_refl s) ip (apart_nil ip)).imp fun _ _ hs => h.withSized hs

theorem OffsetInv.unlock (h : OffsetInv s) (ip : Slot) :
    Sat (inodeUnlock ip) s.fs (fun _ => True) (fun _ fs => OffsetInv { s with fs }) fun _ =>
      True := by
  refine (inodeUnlock_entries ip s.fs).imp fun _ fs hs => h.withBare fun j => ?_
  rw [hs]

/-- The last calls of a transfer: the offset moves by `r` and the inode is unlocked. -/
theorem OffsetInv.advance {α : Type} {r : Nat} {a : α} {Q : α → FileSys → Prop} (h : OffsetInv s)
    (hf : (s.ftable f).type = .file) (hip : (s.ftable f).ip = some ip)
    (hr : (s.ftable f).offset + r ≤ (s.fs.icache ip).size.toNat)
    (hQ : ∀ s', OffsetInv s' → s'.fs.icache = s.fs.icache → Q a s') :
    Sat (do modifyFile f fun x => { x with offset := u32 (x.offset + r) }
            onFs (inodeUnlock ip)
            return a) s (fun _ => True) Q fun _ => True := by
  rw [sat_bind, sat_modifyFile, sat_bind, sat_onFs]
  have hpos := h.isOpen hf
  have hset := h.setOpen (o := u32 ((s.ftable f).offset + r)) hpos hpos fun ip' _ hip' => by
    obtain rfl : ip = ip' := Option.some.inj (hip.symm.trans hip')
    exact Nat.le_trans (Nat.mod_le _ _) hr
  refine (hset.unlock ip).run.imp fun _ fs h' => (sat_pure _).mpr (hQ _ h'.1 ?_)
  exact (inodeUnlock_entries ip s.fs).of_ok h'.2

theorem OffsetInv.read (h : OffsetInv s) (f : FileId) (len : Nat) (dst : Bytes) :
    Sat (fileRead f len dst) s (fun _ => True) (fun _ => OffsetInv) fun _ => True := by
  unfold fileRead
  rw [sat_bind, sat_fileOf]
  split
  · exact (sat_pure _).mpr h
  cases hf : (s.ftable f).type with
  | unused => exact (sat_pure _).mpr h
  | device =>
      dsimp only
      split
      · rw [sat_bind, sat_state]
        split
        · exact (sat_pure _).mpr h
        · exact (sat_pure _).mpr h
      · exact (sat_pure _).mpr h
  | dir =>
      dsimp only
      unfold fileIp
      split
      · next ip hip =>
        rw [sat_bind, sat_pure, sat_bind, sat_onFs]
        refine (h.lock ip).imp fun _ fs₁ h₁ => ?_
        rw [sat_bind, sat_onFs]
        refine ((dirGetEntries_keeps ip len dst).sat fs₁).imp fun r fs₂ hb => ?_
        rw [sat_bind, sat_onFs]
        have h₂ : OffsetInv { s with fs := fs₂ } := h₁.withBare (bareInode_of_bare hb)
        exact (h₂.unlock ip).imp fun _ fs h' => (sat_pure _).mpr h'
      · rw [sat_bind]
        exact (sat_panic _).mpr trivial
  | file =>
      dsimp only
      obtain ⟨ip, hip, -, -⟩ := h.inode f hf
      unfold fileIp
      rw [hip]
      rw [sat_bind, sat_pure, sat_bind, sat_onFs]
      refine (h.lock ip).imp fun _ fs₁ h₁ => ?_
      have hoff := h₁.offset_le hf hip
      rw [sat_bind, sat_onFs]
      refine (inodeReadData_any ip _ len dst fs₁ hoff).imp fun r fs₂ hr => ?_
      have h₂ : OffsetInv { s with fs := fs₂ } := h₁.withBare (bareInode_of_bare hr.1)
      have hsize : (fs₂.icache ip).size = (fs₁.icache ip).size :=
        congrArg (fun x => x.size) (bareInode_of_bare hr.1 ip)
      refine h₂.advance hf hip ?_ fun _ h' _ => h'
      change (s.ftable f).offset + r.1 ≤ (fs₂.icache ip).size.toNat
      rw [hsize]
      exact hr.2

/-- A write ends in a file that is at most as large as the end of the write. -/
theorem OffsetInv.write (h : OffsetInv s) (f : FileId) (len : Nat) (src : Bytes) :
    Sat (fileWrite f len src) s (fun _ => True) (fun w s' => OffsetInv s' ∧
      ∀ ip, (s.ftable f).type = .file → (s.ftable f).ip = some ip → (s'.fs.icache ip).size.toNat ≤
        max (s.fs.icache ip).size.toNat ((s.ftable f).offset + w)) fun _ => True := by
  have hsame : ∀ w, OffsetInv s ∧ ∀ ip, (s.ftable f).type = .file → (s.ftable f).ip = some ip →
      (s.fs.icache ip).size.toNat ≤ max (s.fs.icache ip).size.toNat ((s.ftable f).offset + w) :=
    fun w => ⟨h, fun _ _ _ => Nat.le_max_left _ _⟩
  unfold fileWrite
  rw [sat_bind, sat_fileOf]
  split
  · exact (sat_pure _).mpr (hsame _)
  cases hf : (s.ftable f).type with
  | unused => exact (sat_pure _).mpr ⟨h, nofun⟩
  | dir => exact (sat_pure _).mpr ⟨h, nofun⟩
  | device =>
      dsimp only
      split
      · rw [sat_bind, sat_state]
        split
        · exact (sat_pure _).mpr ⟨h, nofun⟩
        · exact (sat_pure _).mpr ⟨h, nofun⟩
      · exact (sat_pure _).mpr ⟨h, nofun⟩
  | file =>
      dsimp only
      obtain ⟨ip, hip, hvalid, -⟩ := h.inode f hf
      unfold fileIp
      rw [hip]
      rw [sat_bind, sat_pure, sat_bind, sat_onFs]
      refine (h.lock ip).run.imp fun _ fs₁ h₁ => ?_
      have hlock : fs₁.icache = s.fs.icache := ((inodeLock_entries ip s.fs).of_ok h₁.2).2.2 hvalid
      have hoff := h₁.1.offset_le hf hip
      rw [sat_bind, sat_onFs]
      refine (inodeWriteData_any ip _ len src fs₁ (Or.inr hoff)).run.imp fun w fs₂ hw => ?_
      obtain ⟨⟨v, hb, hv, hmax⟩, hrun⟩ := hw
      have hsize : (fs₂.icache ip).size = v := by
        have hz : (fs₂.icache ip).size = ((withSize fs₁ ip v).icache ip).size :=
          congrArg (fun x => x.size) (bareInode_of_bare hb ip)
        rw [hz]
        simp [withSize]
      have href : ∀ j, (fs₂.icache j).ref = (fs₁.icache j).ref := fun j =>
        congrArg Prod.snd (congrFun (slots_of_holding
          ((inodeWriteData_keeps ip _ len src).of_ok hrun)) j)
      have h₂ : OffsetInv { s with fs := fs₂ } :=
        h₁.1.withFs (fun j => Nat.le_of_eq (href j).symm) ((sized_refl _).grown hb hv)
      refine h₂.advance hf hip ?_ fun s' h' hic => ⟨h', fun ip' _ hip' => ?_⟩
      · change (s.ftable f).offset + w ≤ (fs₂.icache ip).size.toNat
        rw [hsize, hmax hoff]
        exact Nat.le_max_right _ _
      · obtain rfl : ip = ip' := Option.some.inj hip'
        rw [hic]
        change (fs₂.icache ip).size.toNat ≤ _
        rw [hsize, hmax hoff, hlock]

theorem OffsetInv.lseek (h : OffsetInv s) (f : FileId) (offset : Nat) (flags : Int) :
    Sat (fileLseek f offset flags) s (fun _ => True) (fun _ => OffsetInv) fun _ => True := by
  unfold fileLseek
  rw [sat_bind, sat_fileOf]
  split
  · exact (sat_pure _).mpr h
  next hf =>
  have hf' : (s.ftable f).type = .file := not_not.mp hf
  obtain ⟨ip, hip, -, -⟩ := h.inode f hf'
  unfold fileIp
  rw [hip]
  rw [sat_bind, sat_pure, sat_bind, sat_onFs]
  refine (h.lock ip).imp fun _ fs₁ h₁ => ?_
  have hend : ∀ {s₂ : FileSys} (n : Nat), OffsetInv s₂ → Sat (do
      onFs (inodeUnlock ip)
      return n) s₂ (fun _ => True) (fun _ => OffsetInv) fun _ => True := by
    intro s₂ n h₂
    rw [sat_bind, sat_onFs]
    exact (h₂.unlock ip).imp fun _ fs h' => (sat_pure _).mpr h'
  cases seekOffset (s.ftable f).offset offset flags with
  | none => exact hend _ h₁
  | some newOffset =>
      dsimp only
      rw [sat_bind, sat_onFs, sat_inodeOf]
      split
      · exact hend _ h₁
      · next hle =>
        rw [sat_bind, sat_modifyFile]
        refine hend _ (h₁.setOpen (h₁.isOpen hf') (h₁.isOpen hf') fun ip' _ hip' => ?_)
        obtain rfl : ip = ip' := Option.some.inj (hip.symm.trans hip')
        exact Nat.le_of_not_gt hle

theorem OffsetInv.dup (h : OffsetInv s) (f : FileId) :
    Sat (fileDup f) s (fun _ => True) (fun _ => OffsetInv) fun _ => True := by
  refine (fileDup_any s f).imp fun _ s' hd => ?_
  obtain ⟨hpos, rfl⟩ := hd
  exact h.setOpen hpos (Nat.succ_pos _) fun ip hf hip => h.offset_le hf hip

/-- The entry `f` is cleared and its handle on `ip` is still to be given back. -/
theorem OffsetInv.giveBack {x : File} (h : OffsetInv s) (href : (s.ftable f).ref = 1)
    (hip : (s.ftable f).ip = some ip) (hx : x.ref = 0) (hoff : x.type = .unused) :
    OffsetInv { s with
      fs := s.fs.setInode ip { s.fs.icache ip with ref := (s.fs.icache ip).ref - 1 }
      ftable := Function.update s.ftable f x } := by
  have hopen : openInode s f = some ip := by
    unfold openInode
    rw [href, hip]
    rfl
  have hclear := fun j => pointers_clear hopen j
  have h' : OffsetInv { s with ftable := Function.update s.ftable f x } := by
    refine h.setFile (fun _ => hoff) (fun j => ?_) fun hf => ?_
    · rw [hx]
      have hle := h.refs j
      have hj := hclear j
      simp only [Nat.lt_irrefl, if_false]
      omega
    · rw [hoff] at hf
      cases hf
  refine ⟨fun j => ?_, h'.closed, fun g hg => ?_⟩
  · rw [openInode_update, hx]
    simp only [Nat.lt_irrefl, if_false]
    have hle := h.refs j
    have hj := hclear j
    by_cases hji : j = ip
    · subst hji
      rw [if_pos rfl] at hj
      rw [setInode_icache, Function.update_self]
      dsimp only
      omega
    · rw [if_neg (Ne.symm hji)] at hj
      rw [setInode_icache, Function.update_of_ne hji]
      omega
  · obtain ⟨jp, hjp, hvalid, hsize⟩ := h'.inode g hg
    refine ⟨jp, hjp, ?_⟩
    rw [setInode_icache]
    by_cases hji : jp = ip
    · subst hji
      rw [Function.update_self]
      exact ⟨hvalid, hsize⟩
    · rw [Function.update_of_ne hji]
      exact ⟨hvalid, hsize⟩

/-- One more reference on `ip` is a handle. -/
theorem sized_back (P : Slot → Prop) {b : State} (hpos : 0 < (b.icache ip).ref) :
    Sized P (b.setInode ip { b.icache ip with ref := (b.icache ip).ref - 1 }) [ip] [] b := by
  refine ⟨⟨fun j => ?_, by simp, by simp, List.nodup_nil, rfl, rfl⟩, ?_⟩
  · by_cases hj : j = ip
    · subst hj
      simp only [setInode_icache, Function.update_self, List.count_singleton_self]
      omega
    · simp only [setInode_icache, Function.update_of_ne hj]
      rw [List.count_eq_zero.mpr (by simpa using hj), Nat.add_zero]
  · have hback : b.icache = Function.update
        (b.setInode ip { b.icache ip with ref := (b.icache ip).ref - 1 }).icache ip
        { (b.setInode ip { b.icache ip with ref := (b.icache ip).ref - 1 }).icache ip with
          ref := (b.icache ip).ref } := by
      simp
    exact (kept_refl P _).setRef hback

theorem OffsetInv.close (h : OffsetInv s) (f : FileId) :
    Sat (fileClose f) s (fun _ => True) (fun _ => OffsetInv) fun _ => True := by
  refine (fileClose_any s f).imp fun _ s' hc => ?_
  cases hc with
  | shared ref =>
      exact h.setOpen (Nat.lt_trans Nat.one_pos ref) (Nat.sub_pos_of_lt ref) fun ip hf hip =>
        h.offset_le hf hip
  | @last x ip fs ref cleared off inode run =>
      have hback := h.giveBack ref inode cleared off
      have hopen : openInode s f = some ip := by
        unfold openInode
        rw [ref, inode]
        rfl
      have hpos : 0 < (s.fs.icache ip).ref := by
        have hp : pointers (openInode s) ip ≠ 0 := fun hz => pointers_eq_zero.mp hz f hopen
        have hle := h.refs ip
        omega
      have hs := ((sized_rules hback.based).release (sized_back _ hpos) (.refl _)
        (apart_nil ip)).of_ok run
      exact hback.withSized hs
  | unused ref cleared off type =>
      refine h.setFile (fun _ => off) (fun j => ?_) fun hf => ?_
      · have hp := pointers_update (openInode s) f none j
        have hle := h.refs j
        rw [cleared]
        simp only [Nat.lt_irrefl, if_false, reduceCtorEq] at hp ⊢
        omega
      · rw [off] at hf
        cases hf

theorem nextInode_ok {path : List UInt8} {name : Name} {pip : Slot} {n : Nat}
    {b s₁ s₂ s₃ s₄ : State}
    (hpath : (pathToPinode path b).1 = .ok (some (pip, name), s₁))
    (hlock : (inodeLock pip s₁).1 = .ok ((), s₂))
    (hsearch : (dirSearchEntry pip name s₂).1 = .ok (inodeNumUnused, s₃))
    (halloc : (bitmapAllocInode s₃).1 = .ok (n, s₄)) (hn : n ≠ inodeNumUnused) :
    (nextInode path b).1 = .ok (some n, s₄) := by
  unfold nextInode
  rw [bind_ok hpath]
  dsimp only
  rw [bind_ok hlock, bind_ok hsearch, if_neg (not_not.mpr rfl), bind_ok halloc, if_neg hn]
  rfl

theorem OffsetInv.open (h : OffsetInv s) (path : List UInt8) (openMode : UInt32)
    (hfresh : FileCall.Fresh s (.open path openMode)) :
    Sat (fileOpen path openMode) s (fun _ => True) (fun _ => OffsetInv) fun _ => True := by
  have hR := sized_rules h.based
  refine fileOpen_rules hR s path openMode ?_ (fun fs hs => h.withSized hs) ?_
  · split
    · next hcreate =>
      have hnew := hR.pathCreateInode (sized_refl s) path ftFile 0 0
        fun pip name s₁ s₂ s₃ hpath hlock hsearch h₃ =>
          (h₃.create h.based ftFile 0 0 fun n s₄ halloc hn =>
            hfresh hcreate n s₄ (nextInode_ok hpath hlock hsearch halloc hn)).imp
              fun _ _ hr => ⟨hr, fun _ _ hE => absurd trivial hE⟩
      exact hnew.imp fun r fs hs => by simpa using hs
    · exact (hR.pathToInode (sized_refl s) path).imp fun r fs hs => by simpa using hs
  · intro f x ip fs free ref type offset inode valid hs
    have hnone : openInode s f = none := by simp [openInode, free]
    have h₁ : OffsetInv { s with fs } := h.withSized hs
    refine h₁.setFile (fun hz => ?_) (fun j => ?_) fun _ => ⟨ip, inode, valid, ?_⟩
    · rw [ref] at hz
      cases hz
    · have hp := pointers_set hnone j ip
      have hle := h.refs j
      rw [ref, inode]
      change pointers (Function.update (openInode s) f (some ip)) j ≤ (fs.icache j).ref
      rw [hp, hs.holds.ref j]
      by_cases hj : ip = j
      · subst hj
        simp only [if_true, List.count_singleton_self]
        omega
      · rw [if_neg hj]
        omega
    · rw [offset]
      exact Nat.zero_le _

theorem OffsetInv.step (h : OffsetInv s) {c : FileCall} (hc : c.Fresh s) :
    Sat c.run s (fun _ => True) (fun _ => OffsetInv) fun _ => True := by
  cases c with
  | «open» path openMode => exact (h.open path openMode hc).bind fun _ _ h' => (sat_pure _).mpr h'
  | close f => exact h.close f
  | read f len dst => exact (h.read f len dst).bind fun _ _ h' => (sat_pure _).mpr h'
  | write f len src => exact (h.write f len src).bind fun _ _ h' => (sat_pure _).mpr h'.1
  | lseek f offset flags => exact (h.lseek f offset flags).bind fun _ _ h' => (sat_pure _).mpr h'
  | dup f => exact (h.dup f).bind fun _ _ h' => (sat_pure _).mpr h'

theorem TableInit.offsetInv (h : TableInit s) : OffsetInv s := by
  refine ⟨fun j => ?_, fun f _ => (h f).2, fun f hf => ?_⟩
  · have hnone : pointers (openInode s) j = 0 :=
      pointers_eq_zero.mpr fun f => by simp [openInode, (h f).1]
    omega
  · rw [(h f).2] at hf
    cases hf

theorem withFiles_tableInit (fs : State) : TableInit (withFiles fs) := fun _ => ⟨rfl, rfl⟩

end

/-- In every run in which no `file_open` creates the inode of an open file again, the offset of
every open regular file is within the size of its inode, and the file that a write leaves has no
byte that was neither in the file nor written. -/
theorem offsets_within_size (s₀ s : FileSys) (h₀ : TableInit s₀)
    (h : Reach (fun c s => c.Fresh s) FileCall.run s₀ s) :
    (∀ f, 0 < (s.ftable f).ref → (s.ftable f).type = .file → ∃ ip, (s.ftable f).ip = some ip ∧
      (s.ftable f).offset ≤ (s.fs.icache ip).size.toNat) ∧
    ∀ f ip len src w s', (s.ftable f).type = .file → (s.ftable f).ip = some ip →
      (fileWrite f len src s).1 = .ok (w, s') → ∀ o < (s'.fs.icache ip).size.toNat,
        o < (s.fs.icache ip).size.toNat ∨ (s.ftable f).offset ≤ o ∧
        o < (s.ftable f).offset + w := by
  have hinv : OffsetInv s :=
    h.invariant (fun c s₁ s₂ h₁ hc hr => (h₁.step hc).of_ok hr) h₀.offsetInv
  refine ⟨fun f _ hf => ?_, fun f ip len src w s' hf hip hr o ho => ?_⟩
  · obtain ⟨ip, hip, -, hoff⟩ := hinv.inode f hf
    exact ⟨ip, hip, hoff⟩
  · have hmax := ((hinv.write f len src).of_ok hr).2 ip hf hip
    have hoff := hinv.offset_le hf hip
    omega

/-- No file is open before a call that may create an inode. -/
def FileCall.startsAlone (s : FileSys) : FileCall → Bool
  | .open _ _ => decide (∀ f, (s.ftable f).ref = 0)
  | _ => true

theorem FileCall.fresh_of_startsAlone {c : FileCall} {s : FileSys} (h : c.startsAlone s = true) :
    c.Fresh s := by
  cases c with
  | «open» path openMode =>
      rintro - n fs - j ⟨f, href, -⟩
      have hzero := of_decide_eq_true h f
      omega
  | _ => trivial

/-- A new file of one byte, written and left at its end. -/
theorem offsets_within_size_byte :
    ∃ img s₀ s, Mkfs.main (fun _ => 0) [] = some img ∧ Mounted img s₀ ∧
      Reach (fun c s => c.Fresh s) FileCall.run (withFiles s₀) s ∧ (s.ftable 0).offset = 1 ∧
      ∃ ip, (s.ftable 0).ip = some ip ∧ (s.ftable 0).offset ≤ (s.fs.icache ip).size.toNat := by
  have hrun : ((Mkfs.main (fun _ => 0) []).bind fun img =>
      runMounted (fun c s => c.startsAlone s) FileCall.run img
        [.open [slash, 97] (modeCreate ||| modeWrite), .write 0 1 fun _ => 7]).any
      (fun s => (s.ftable 0).offset = 1 ∧ 0 < (s.ftable 0).ref ∧ (s.ftable 0).type = .file) =
        true := by
    decide +kernel
  obtain ⟨s, hs, hp⟩ := exists_of_any hrun
  obtain ⟨hoff, href, htype⟩ := of_decide_eq_true hp
  obtain ⟨img, himg, hcall⟩ := Option.bind_eq_some_iff.mp hs
  obtain ⟨s₀, hm, hreach⟩ := reach_of_runMounted (fun _ _ => FileCall.fresh_of_startsAlone) hcall
  exact ⟨img, s₀, s, himg, hm, hreach, hoff,
    (offsets_within_size _ s (withFiles_tableInit s₀) hreach).1 0 href htype⟩

def nineBlocks : Mkfs.HostFile := ⟨[97], List.replicate 9215 0, Mkfs.letter_noNul⟩

/-- On a full disk a write behind the ninth block of a file goes to the super block and, through it
as an index block, to the inode bitmap. The file that is created next gets the inode of the open
one. -/
theorem open_file_truncated :
    ∃ img s₀ s, Mkfs.main (fun _ => 0) [nineBlocks] = some img ∧ Mounted (fullImage img) s₀ ∧
      Reach (fun _ _ => True) FileCall.run (withFiles s₀) s ∧
      ¬ ∀ f, 0 < (s.ftable f).ref → (s.ftable f).type = .file → ∃ ip, (s.ftable f).ip = some ip ∧
        (s.ftable f).offset ≤ (s.fs.icache ip).size.toNat := by
  have hrun : ((Mkfs.main (fun _ => 0) [nineBlocks]).bind fun img =>
      runMounted (fun _ _ => true) FileCall.run (fullImage img)
        [.open [slash, 97] modeWrite, .lseek 0 9215 lseekSet,
          .write 0 1026 (fun i => if i = 1 ∨ i = 1025 then 1 else 0),
          .open [slash, 98] modeCreate]).any
      (fun s => 0 < (s.ftable 0).ref ∧ (s.ftable 0).type = .file ∧ (s.ftable 0).ip = some 1 ∧
        (s.fs.icache 1).size.toNat < (s.ftable 0).offset) = true := by
    decide +kernel
  obtain ⟨s, hs, hp⟩ := exists_of_any hrun
  obtain ⟨href, htype, hip, hlt⟩ := of_decide_eq_true hp
  obtain ⟨img, himg, hcall⟩ := Option.bind_eq_some_iff.mp hs
  obtain ⟨s₀, hm, hreach⟩ := reach_of_runMounted (fun _ _ _ => trivial) hcall
  refine ⟨img, s₀, s, himg, hm, hreach, fun hall => ?_⟩
  obtain ⟨ip, hip', hle⟩ := hall 0 href htype
  obtain rfl : ip = 1 := Option.some.inj (hip'.symm.trans hip)
  omega

end WhuOs.Fs
