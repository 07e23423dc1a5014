import WhuOs.Lib.Table
import WhuOs.Fs.Balance
import WhuOs.Fs.File
import WhuOs.Fs.Mount

/-! # Conservation in the file table

Two counting laws over the system calls of one process: the references of an
`ftable` entry are the descriptors that point to it, and the references of an
`icache` entry are the open files and the working directory. `sys_dup` breaks the
first when no descriptor is free, `sys_mkdir` the second when it gets an inode;
all other calls keep both, whatever is on disk.
-/

namespace WhuOs.Fs

open Prog

section

variable {s : FileSys} {G : Event → Prop} {E : Panic → Prop}

/-! ## The lock of the table -/

@[simp] theorem sat_onFs {α : Type} {m : FsM α} {Q : α → FileSys → Prop} :
    Sat (onFs m) s G Q E ↔ Sat m s.fs G (fun a fs => Q a { s with fs }) E := sat_zoom

@[simp] theorem sat_fileOf (f : FileId) {Q : File → FileSys → Prop} :
    Sat (fileOf f) s G Q E ↔ Q (s.ftable f) s := by
  simp [fileOf]

@[simp] theorem sat_modifyFile (f : FileId) (g : File → File) {Q : Unit → FileSys → Prop} :
    Sat (modifyFile f g) s G Q E ↔
      Q () { s with ftable := Function.update s.ftable f (g (s.ftable f)) } := by
  simp [modifyFile]

theorem acquireFtable_any {Q : Unit → FileSys → Prop}
    (h : s.lkFtable = false → Q () { s with lkFtable := true }) :
    Sat acquireFtable s G Q fun _ => True := by
  by_cases hl : s.lkFtable = true
  · simp [acquireFtable, hl]
  · have hf : s.lkFtable = false := by simpa using hl
    simpa [acquireFtable, hf] using h hf

theorem sat_releaseFtable {Q : Unit → FileSys → Prop} (h : s.lkFtable = true) :
    Sat releaseFtable s G Q E ↔ Q () { s with lkFtable := false } := by
  simp [releaseFtable, h]

/-! ## Entries -/

theorem fileAlloc_any (s : FileSys) :
    Sat fileAlloc s (fun _ => True) (fun f s' => (s.ftable f).ref = 0 ∧
      s' = { s with ftable := Function.update s.ftable f { s.ftable f with ref := 1 } })
      fun _ => True := by
  unfold fileAlloc
  rw [sat_bind]
  refine acquireFtable_any fun hl => ?_
  rw [sat_bind, sat_state]
  dsimp only
  cases hf : (List.finRange nFile).find? fun f => (s.ftable f).ref = 0 with
  | none =>
      rw [sat_bind, sat_releaseFtable rfl, sat_panic]
      trivial
  | some f =>
      have href : (s.ftable f).ref = 0 := by simpa using List.find?_some hf
      rw [sat_bind, sat_modifyFile, sat_bind, sat_releaseFtable rfl, sat_pure]
      refine ⟨href, ?_⟩
      rw [← hl]

/-- The outcome of `file_open`: an entry that was free and now holds a handle on the inode. -/
inductive FileOpened (s : FileSys) : Option FileId → FileSys → Prop where
  | failed {fs : State} (holds : Holds s.fs [] [] fs) : FileOpened s none { s with fs }
  | ok {f : FileId} {x : File} {ip : Slot} {fs : State}
      (free : (s.ftable f).ref = 0) (ref : x.ref = 1)
      (type : x.type ≠ .unused) (inode : x.ip = some ip) (holds : Holds s.fs [ip] [] fs) :
      FileOpened s (some f) { s with fs, ftable := Function.update s.ftable f x }

theorem fdTypeOf_ne {v : UInt16} {type : FdType} (h : fdTypeOf v = some type) : type ≠ .unused := by
  unfold fdTypeOf at h
  split at h
  · cases h
    decide
  · split at h
    · cases h
      decide
    · split at h
      · cases h
        decide
      · cases h

/-- `file_open`, given what its lookup does to a predicate that follows the calls on handles. -/
theorem fileOpen_rules {R : List Slot → List Slot → State → Prop}
    (hR : Rules (fun _ => True) R) (s : FileSys)
    (path : List UInt8) (openMode : UInt32) {Q : Option FileId → FileSys → Prop}
    (hpath : Sat (if openMode &&& modeCreate ≠ 0 then pathCreateInode path ftFile 0 0
      else pathToInode path) s.fs (fun _ => True) (fun r => R r.toList []) fun _ => True)
    (hfail : ∀ fs, R [] [] fs → Q none { s with fs })
    (hok : ∀ f x ip fs, (s.ftable f).ref = 0 → x.ref = 1 → x.type ≠ .unused → x.offset = 0 →
      x.ip = some ip → (fs.icache ip).valid = true → R [ip] [] fs →
      Q (some f) { s with fs, ftable := Function.update s.ftable f x }) :
    Sat (fileOpen path openMode) s (fun _ => True) Q fun _ => True := by
  unfold fileOpen
  rw [sat_bind, sat_onFs]
  refine hpath.imp fun r fs h => ?_
  cases r with
  | none => exact (sat_pure _).mpr (hfail fs h)
  | some ip =>
      simp only [sat_bind, sat_onFs]
      refine (hR.lock h ip (apart_nil ip)).run.imp fun _ fs₁ h₁ => ?_
      have hvalid := ((inodeLock_entries ip fs).of_ok h₁.2).1
      refine (fileAlloc_any _).imp fun f s₂ hf => ?_
      obtain ⟨hfree, rfl⟩ := hf
      rw [sat_inodeOf]
      split
      · exact (sat_panic _).mpr trivial
      · next type htype =>
        rw [sat_bind, sat_modifyFile, sat_bind, sat_onFs]
        refine (hR.unlock h₁.1 (.refl _)).run.imp fun _ fs₃ h₃ => ?_
        have hsame := (inodeUnlock_entries ip fs₁).of_ok h₃.2
        rw [sat_pure]
        have hopen := hok f
          { s.ftable f with
            ref := 1
            type := type
            major := if type = .device then (fs₁.icache ip).major else (s.ftable f).major
            readable := openMode &&& modeRead ≠ 0
            writable := openMode &&& modeWrite ≠ 0
            offset := 0
            ip := some ip } ip fs₃ hfree rfl (fdTypeOf_ne htype) rfl rfl (by rwa [hsame]) h₃.1
        simpa using hopen

theorem fileOpen_any (s : FileSys) (path : List UInt8) (openMode : UInt32) :
    Sat (fileOpen path openMode) s (fun _ => True) (FileOpened s) fun _ => True := by
  refine fileOpen_rules (holds_rules s.fs) s path openMode ?_ (fun fs h => .failed h)
    fun f x ip fs free ref type _ inode _ h => .ok free ref type inode h
  split
  · exact ((holds_refl s.fs).pathCreateInode path ftFile 0 0).imp fun r fs h => by simpa using h
  · exact ((holds_refl s.fs).pathToInode path).imp fun r fs h => by simpa using h

/-- The outcome of `file_close`: one reference less, or the entry is cleared and its handle given
back. -/
inductive FileClosed (s : FileSys) (f : FileId) : FileSys → Prop where
  | shared (ref : 1 < (s.ftable f).ref) :
      FileClosed s f { s with
        ftable := Function.update s.ftable f { s.ftable f with ref := (s.ftable f).ref - 1 } }
  | last {x : File} {ip : Slot} {fs : State} (ref : (s.ftable f).ref = 1) (cleared : x.ref = 0)
      (off : x.type = .unused) (inode : (s.ftable f).ip = some ip)
      (run : (inodeFree ip s.fs).1 = .ok ((), fs)) :
      FileClosed s f { s with fs, ftable := Function.update s.ftable f x }
  | unused {x : File} (ref : (s.ftable f).ref = 1) (cleared : x.ref = 0) (off : x.type = .unused)
      (type : (s.ftable f).type = .unused) :
      FileClosed s f { s with ftable := Function.update s.ftable f x }

theorem fileClose_any (s : FileSys) (f : FileId) :
    Sat (fileClose f) s (fun _ => True) (fun _ => FileClosed s f) fun _ => True := by
  unfold fileClose
  rw [sat_bind]
  refine acquireFtable_any fun hl => ?_
  rw [sat_bind, sat_fileOf]
  split
  · simp only [sat_bind, sat_panic]
  · next hpos =>
    have hpos' : 1 ≤ (s.ftable f).ref := Nat.le_of_not_lt hpos
    rw [sat_bind, sat_modifyFile, sat_bind, sat_fileOf]
    simp only [Function.update_self]
    split
    · next hz =>
      have hone : (s.ftable f).ref = 1 := by omega
      rw [sat_bind, sat_modifyFile, sat_bind, sat_releaseFtable rfl]
      simp only [Function.update_self, Function.update_idem]
      split
      · next htype =>
        unfold fileIp
        dsimp only
        cases hip : (s.ftable f).ip with
        | none =>
            rw [sat_bind]
            exact (sat_panic _).mpr trivial
        | some ip =>
            rw [sat_bind, sat_pure, sat_onFs]
            cases hr : (inodeFree ip s.fs).1 with
            | error e => exact ⟨fun _ _ => trivial, by rw [hr]; trivial⟩
            | ok p =>
                refine ⟨fun _ _ => trivial, ?_⟩
                rw [hr]
                have hc := FileClosed.last (s := s) (x := { s.ftable f with
                  type := .unused, readable := false, writable := false, ref :=
                  0, offset := 0, ip := none })
                  hone rfl rfl hip hr
                simpa [hone, ← hl] using hc
      · next htype =>
        rw [sat_pure]
        have hc := FileClosed.unused (s := s) (f := f) (x := { s.ftable f with
          type := .unused, readable := false, writable := false, ref :=
          0, offset := 0, ip := none })
          hone rfl rfl (by simpa using htype)
        simpa [hone, ← hl] using hc
    · next hz =>
      rw [sat_releaseFtable rfl]
      have hc := FileClosed.shared (s := s) (f := f) (by omega)
      simpa [← hl] using hc

theorem fileDup_any (s : FileSys) (f : FileId) :
    Sat (fileDup f) s (fun _ => True) (fun _ s' => 0 < (s.ftable f).ref ∧
      s' = { s with
        ftable := Function.update s.ftable f { s.ftable f with ref := (s.ftable f).ref + 1 } })
      fun _ => True := by
  unfold fileDup
  rw [sat_bind]
  refine acquireFtable_any fun hl => ?_
  rw [sat_bind, sat_fileOf]
  split
  · simp only [sat_bind, sat_panic]
  · next hpos =>
    rw [sat_bind, sat_modifyFile, sat_bind, sat_releaseFtable rfl, sat_pure]
    refine ⟨not_not.mp hpos, ?_⟩
    rw [← hl]

/-! ## Descriptors -/

def openFd (s : FileSys) (fd : Int) : Option (Fd × FileId) :=
  if h : 0 ≤ fd ∧ fd < filePerProc then
    (s.filelist ⟨fd.toNat, fd_lt h⟩).map fun f =>
      (⟨fd.toNat, fd_lt h⟩, f)
  else none

@[simp] theorem sat_argFd (fd : Int) {Q : Option (Fd × FileId) → FileSys → Prop} :
    Sat (argFd fd) s G Q E ↔ Q (openFd s fd) s := by
  unfold argFd openFd
  split
  · simp
  · simp

theorem openFd_some {fd : Int} {d : Fd} {f : FileId} (h : openFd s fd = some (d, f)) :
    s.filelist d = some f := by
  unfold openFd at h
  split at h
  · rw [Option.map_eq_some_iff] at h
    obtain ⟨g, hg, he⟩ := h
    cases he
    exact hg
  · cases h

inductive FdTaken (s : FileSys) (f : FileId) : Option Fd → FileSys → Prop where
  | found {fd : Fd} (free : s.filelist fd = none) :
      FdTaken s f (some fd) { s with filelist := Function.update s.filelist fd (some f) }
  | full (all : ∀ fd, s.filelist fd ≠ none) : FdTaken s f none s

theorem fdAlloc_any (f : FileId) : Sat (fdAlloc f) s G (FdTaken s f) E := by
  unfold fdAlloc
  rw [sat_bind, sat_state]
  dsimp only
  cases hf : (List.finRange filePerProc).find? fun fd => (s.filelist fd).isNone with
  | some fd =>
      rw [sat_bind, setFd, sat_modify, sat_pure]
      exact .found (by simpa using List.find?_some hf)
  | none =>
      rw [sat_pure]
      refine .full fun fd hfd => ?_
      have hno := List.find?_eq_none.mp hf fd (List.mem_finRange fd)
      simp [hfd] at hno

end

/-! ## System calls -/

inductive SysCall where
  | open (path : List UInt8) (openMode : UInt32)
  | close (fd : Int)
  | dup (fd : Int)
  | mkdir (path : List UInt8)
  | chdir (path : List UInt8)
  | link (oldPath newPath : List UInt8)
  | unlink (path : List UInt8)

def SysCall.run : SysCall → FileM Unit
  | .open path openMode => do let _ ← sysOpen path openMode
  | .close fd => do let _ ← sysClose fd
  | .dup fd => do let _ ← sysDup fd
  | .mkdir path => do let _ ← sysMkdir path
  | .chdir path => do let _ ← sysChdir path
  | .link oldPath newPath => do let _ ← sysLink oldPath newPath
  | .unlink path => do let _ ← sysUnlink path

def SysCall.OnFds : SysCall → Prop
  | .open _ _ | .close _ | .dup _ => True
  | _ => False

/-! ## References of open files -/

/-- The references of every entry are the descriptors that point to it. -/
def FdCounted (s : FileSys) : Prop := ∀ f, (s.ftable f).ref = pointers s.filelist f

def SysCall.HasRoom (s : FileSys) : SysCall → Prop
  | .dup fd => openFd s fd ≠ none → ∃ d, s.filelist d = none
  | _ => True

instance : (c : SysCall) → Decidable c.OnFds
  | .open _ _ | .close _ | .dup _ => inferInstanceAs (Decidable True)
  | .mkdir _ | .chdir _ | .link _ _ | .unlink _ => inferInstanceAs (Decidable False)

instance (s : FileSys) : (c : SysCall) → Decidable (c.HasRoom s)
  | .dup fd => inferInstanceAs (Decidable (openFd s fd ≠ none → ∃ d, s.filelist d = none))
  | .open _ _ | .close _ | .mkdir _ | .chdir _ | .link _ _ | .unlink _ =>
      inferInstanceAs (Decidable True)

section

variable {s s' : FileSys} {f : FileId}

theorem FdCounted.open (h : FdCounted s) (path : List UInt8) (openMode : UInt32) :
    Sat (SysCall.run (.open path openMode)) s (fun _ => True) (fun _ => FdCounted) fun _ =>
      True := by
  unfold SysCall.run sysOpen
  rw [sat_bind]
  refine (fileOpen_any s path openMode).bind fun r s₁ ho => ?_
  cases ho with
  | failed holds => exact (sat_pure _).mpr ((sat_pure _).mpr h)
  | @ok f x ip fs free ref type inode holds =>
      refine (fdAlloc_any f).bind fun fd s₂ hfd => ?_
      cases hfd with
      | @found fd hnone =>
          simp only [reduceCtorEq, if_false, sat_pure]
          intro g
          rw [pointers_set hnone]
          by_cases hg : g = f
          · rw [hg]
            have h0 := h f
            simp only [Function.update_self, if_true]
            omega
          · have h0 := h g
            simp only [Function.update_of_ne hg, if_neg (Ne.symm hg)]
            omega
      | full all =>
          simp only [if_true, sat_bind]
          refine (fileClose_any _ f).imp fun _ s₃ hc => ?_
          rw [sat_pure, sat_pure]
          have hback : ∀ y : File, y.ref = 0 → ∀ g,
              (Function.update (Function.update s.ftable f x) f y g).ref =
              pointers s.filelist g := by
            intro y hy g
            rw [Function.update_idem]
            by_cases hg : g = f
            · rw [hg, Function.update_self, hy, ← h f, free]
            · rw [Function.update_of_ne hg]
              exact h g
          cases hc with
          | shared hshared =>
              simp only [Function.update_self, ref] at hshared
              omega
          | last _ cleared _ _ _ => exact hback _ cleared
          | unused _ cleared _ _ => exact hback _ cleared

theorem FdCounted.close (h : FdCounted s) (fd : Int) :
    Sat (SysCall.run (.close fd)) s (fun _ => True) (fun _ => FdCounted) fun _ => True := by
  unfold SysCall.run sysClose
  rw [sat_bind, sat_bind, sat_argFd]
  cases hfd : openFd s fd with
  | none => exact (sat_pure _).mpr ((sat_pure _).mpr h)
  | some p =>
      obtain ⟨d, f⟩ := p
      have hd := openFd_some hfd
      dsimp only
      rw [sat_bind, setFd, sat_modify, sat_bind]
      refine (fileClose_any _ f).imp fun _ s₁ hc => ?_
      rw [sat_pure, sat_pure]
      have hnew : ∀ y : File, y.ref = (s.ftable f).ref - 1 → ∀ g,
          (Function.update s.ftable f y g).ref =
          pointers (Function.update s.filelist d none) g := by
        intro y hy g
        have hp := pointers_clear hd g
        by_cases hg : g = f
        · rw [hg] at hp ⊢
          rw [Function.update_self, hy, h f, ← hp]
          simp
        · rw [if_neg (Ne.symm hg)] at hp
          rw [Function.update_of_ne hg, h g]
          omega
      cases hc with
      | shared _ => exact hnew _ rfl
      | last ref cleared _ _ _ => exact hnew _ (by rw [cleared, ref])
      | unused ref cleared _ _ => exact hnew _ (by rw [cleared, ref])

/-- `sys_dup` of an open descriptor keeps the law exactly when it finds a free one. -/
theorem FdCounted.dup (h : FdCounted s) (fd : Int) :
    Sat (SysCall.run (.dup fd)) s (fun _ => True)
      (fun _ s' => FdCounted s' ↔ SysCall.HasRoom s (.dup fd)) fun _ => True := by
  unfold SysCall.run sysDup
  rw [sat_bind, sat_bind, sat_argFd]
  cases hfd : openFd s fd with
  | none =>
      rw [sat_pure, sat_pure]
      exact iff_of_true h fun hne => absurd hfd hne
  | some p =>
      obtain ⟨d, f⟩ := p
      have hroom : SysCall.HasRoom s (.dup fd) ↔ ∃ d, s.filelist d = none := by
        simp [SysCall.HasRoom, hfd]
      rw [hroom]
      dsimp only
      refine (fdAlloc_any f).bind fun r s₁ hr => ?_
      rw [sat_bind]
      refine (fileDup_any s₁ f).imp fun _ s₂ hd => ?_
      obtain ⟨-, rfl⟩ := hd
      rw [sat_pure, sat_pure]
      cases hr with
      | @found fd' hnone =>
          refine iff_of_true (fun g => ?_) ⟨fd', hnone⟩
          rw [pointers_set hnone]
          dsimp only
          by_cases hg : g = f
          · rw [hg, Function.update_self, if_pos rfl, h f]
          · rw [Function.update_of_ne hg, if_neg (Ne.symm hg), h g, Nat.add_zero]
      | full all =>
          refine iff_of_false (fun hc => ?_) fun ⟨d, hd⟩ => all d hd
          have hf := hc f
          dsimp only at hf
          rw [Function.update_self, ← h f] at hf
          dsimp only at hf
          omega

theorem FdCounted.step {c : SysCall} (h : FdCounted s) (hfds : c.OnFds) :
    Sat c.run s (fun _ => True) (fun _ s' => FdCounted s' ↔ c.HasRoom s) fun _ => True := by
  cases c with
  | «open» path openMode =>
      exact (h.open path openMode).imp fun _ s' h' => iff_of_true h' trivial
  | close fd => exact (h.close fd).imp fun _ s' h' => iff_of_true h' trivial
  | dup fd => exact h.dup fd
  | mkdir _ => exact hfds.elim
  | chdir _ => exact hfds.elim
  | link _ _ => exact hfds.elim
  | unlink _ => exact hfds.elim

end

structure NoFiles (s : FileSys) : Prop where
  ftable : ∀ f, (s.ftable f).ref = 0
  filelist : ∀ fd, s.filelist fd = none

/-- The kernel after `file_init`, with a process that has no descriptors. -/
def withFiles (fs : State) : FileSys where
  fs := fs
  ftable := fun _ =>
    { type := .unused, readable := false, writable := false, ref := 0, major := 0,
      offset := 0, ip := none }
  lkFtable := false
  devlist := fun _ => { read := none, write := none }
  filelist := fun _ => none

theorem withFiles_noFiles (fs : State) : NoFiles (withFiles fs) := ⟨fun _ => rfl, fun _ => rfl⟩

def runMounted {ι : Type} (ok : ι → FileSys → Bool) (run : ι → FileM Unit) (img : Mkfs.Image)
    (calls : List ι) : Option FileSys :=
  match (fsInit (powerOn img)).1 with
  | .ok (_, s) => tryAll ok run calls (withFiles s)
  | .error _ => none

theorem reach_of_runMounted {ι : Type} {may : ι → FileSys → Prop} {ok : ι → FileSys → Bool}
    {run : ι → FileM Unit} {img : Mkfs.Image} {calls : List ι} {s : FileSys}
    (hok : ∀ c s, ok c s = true → may c s) (h : runMounted ok run img calls = some s) :
    ∃ s₀, Mounted img s₀ ∧ Reach may run (withFiles s₀) s := by
  unfold runMounted at h
  split at h
  · next s₀ hs₀ => exact ⟨s₀, hs₀, reach_of_tryAll hok calls h⟩
  · cases h

theorem NoFiles.fdCounted {s : FileSys} (h : NoFiles s) : FdCounted s := by
  intro f
  rw [h.ftable f, eq_comm, pointers_eq_zero]
  intro fd
  rw [h.filelist fd]
  simp

/-- In every run of calls on descriptors in which `sys_dup` finds a free descriptor, the references
of every entry are the descriptors that point to it and an entry without references has none; the
next call keeps this exactly when it meets the condition. -/
theorem file_refs_conserved (s₀ s : FileSys) (h₀ : NoFiles s₀)
    (h : Reach (fun c s => c.OnFds ∧ c.HasRoom s) SysCall.run s₀ s) :
    FdCounted s ∧ (∀ f, (s.ftable f).ref = 0 → ∀ fd, s.filelist fd ≠ some f) ∧
      ∀ c s', c.OnFds → (SysCall.run c s).1 = .ok ((), s') → (FdCounted s' ↔ c.HasRoom s) := by
  have hc : FdCounted s := h.invariant (fun c s₁ s₂ h₁ hmay hr =>
    ((h₁.step hmay.1).of_ok hr).mpr hmay.2) h₀.fdCounted
  refine ⟨hc, fun f hf => ?_, fun c s' hfds hr => (hc.step hfds).of_ok hr⟩
  rw [hc f] at hf
  exact pointers_eq_zero.mp hf

/-- Two descriptors on the root directory. -/
theorem file_refs_conserved_root :
    ∃ img s₀ s, Mkfs.main (fun _ => 0) [] = some img ∧ Mounted img s₀ ∧
      Reach (fun c s => c.OnFds ∧ c.HasRoom s) SysCall.run (withFiles s₀) s ∧
      (s.ftable 0).ref = 2 ∧ FdCounted s := by
  have hrun : ((Mkfs.main (fun _ => 0) []).bind fun img =>
    runMounted (fun c s => decide (c.OnFds ∧ c.HasRoom s)) SysCall.run img
      [.open [slash] modeRead, .dup 0]).any (fun s => (s.ftable 0).ref = 2) = true := by
    decide +kernel
  obtain ⟨s, hs, href⟩ := exists_of_any hrun
  obtain ⟨img, himg, hcall⟩ := Option.bind_eq_some_iff.mp hs
  obtain ⟨s₀, hm, hreach⟩ := reach_of_runMounted (fun _ _ => of_decide_eq_true) hcall
  exact ⟨img, s₀, s, himg, hm, hreach, of_decide_eq_true href,
    (file_refs_conserved _ s (withFiles_noFiles s₀) hreach).1⟩

/-- The dup after the last free descriptor leaves a reference without a descriptor. -/
theorem dup_without_descriptor :
    ∃ img s₀ s, Mkfs.main (fun _ => 0) [] = some img ∧ Mounted img s₀ ∧
      Reach (fun c _ => c.OnFds) SysCall.run (withFiles s₀) s ∧ ¬ FdCounted s := by
  have hrun : ((Mkfs.main (fun _ => 0) []).bind fun img =>
    runMounted (fun c _ => decide c.OnFds) SysCall.run img
      (.open [slash] modeRead :: List.replicate 16 (.dup 0))).any
        (fun s => (s.ftable 0).ref = 17) = true := by
    decide +kernel
  obtain ⟨s, hs, href⟩ := exists_of_any hrun
  obtain ⟨img, himg, hcall⟩ := Option.bind_eq_some_iff.mp hs
  obtain ⟨s₀, hm, hreach⟩ := reach_of_runMounted (fun _ _ => of_decide_eq_true) hcall
  refine ⟨img, s₀, s, himg, hm, hreach, fun hc => ?_⟩
  have hle : pointers s.filelist 0 ≤ 16 := pointers_le s.filelist 0
  rw [← hc 0, of_decide_eq_true href] at hle
  omega

/-! ## References of inodes -/

def openInode (s : FileSys) (f : FileId) : Option Slot :=
  if 0 < (s.ftable f).ref then (s.ftable f).ip else none

/-- The references of every `icache` entry are the open files on it and the working directory. -/
def InodeCounted (s : FileSys) : Prop :=
  ∀ j, (s.fs.icache j).ref = pointers (openInode s) j + if s.fs.cwd = some j then 1 else 0

/-- A `sys_mkdir` to which `path_create_inode` returns a handle. -/
def SysCall.GetsInode (s : FileSys) : SysCall → Prop
  | .mkdir path => ∃ ip fs, (pathCreateInode path ftDir 0 0 s.fs).1 = .ok (some ip, fs)
  | _ => False

def SysCall.isMkdir : SysCall → Bool
  | .mkdir _ => true
  | _ => false

theorem SysCall.keeps_of_isMkdir {c : SysCall} {s : FileSys} (h : (!c.isMkdir) = true) :
    ¬ c.GetsInode s := by
  cases c with
  | mkdir path => cases h
  | _ => exact not_false

/-- The counting law, with open files that have a type. -/
structure OpenInv (s : FileSys) : Prop where
  counted : InodeCounted s
  type : ∀ f, 0 < (s.ftable f).ref → (s.ftable f).type ≠ .unused

section

variable {s s' : FileSys} {f : FileId} {fs : State}

theorem openInode_update (s : FileSys) (fs : State) (f : FileId) (x : File) :
    openInode { s with fs, ftable := Function.update s.ftable f x } =
      Function.update (openInode s) f (if 0 < x.ref then x.ip else none) := by
  funext g
  by_cases hg : g = f
  · rw [hg]
    simp [openInode]
  · simp [openInode, hg]

theorem OpenInv.withFs (h : OpenInv s) (hfs : Holds s.fs [] [] fs) : OpenInv { s with fs } := by
  refine ⟨fun j => ?_, h.type⟩
  have hj := h.counted j
  rw [hfs.ref j, hfs.cwd, hj]
  rfl

/-- Another entry in place of `f`. -/
theorem OpenInv.setFile {x : File} (fs : State) (h : OpenInv s) (hx : 0 < x.ref → x.type ≠ .unused)
    (hfs : fs.cwd = s.fs.cwd)
    (href : ∀ j, (fs.icache j).ref + (if openInode s f = some j then 1 else 0) =
      (s.fs.icache j).ref + if (if 0 < x.ref then x.ip else none) = some j then 1 else 0) :
    OpenInv { s with fs, ftable := Function.update s.ftable f x } := by
  refine ⟨fun j => ?_, fun g hg => ?_⟩
  · have hp := pointers_update (openInode s) f (if 0 < x.ref then x.ip else none) j
    have hj := h.counted j
    have hr := href j
    rw [openInode_update]
    dsimp only
    rw [hfs]
    omega
  · by_cases hgf : g = f
    · rw [hgf] at hg ⊢
      simp only [Function.update_self] at hg ⊢
      exact hx hg
    · simp only [Function.update_of_ne hgf] at hg ⊢
      exact h.type g hg

theorem OpenInv.opened {r : Option FileId} (h : OpenInv s) (ho : FileOpened s r s') :
    OpenInv s' := by
  cases ho with
  | failed holds => exact h.withFs holds
  | @ok f x ip fs free ref type inode holds =>
      refine h.setFile fs (fun _ => type) holds.cwd fun j => ?_
      have hnone : openInode s f = none := by simp [openInode, free]
      rw [holds.ref j, hnone, ref, inode]
      by_cases hj : ip = j
      · simp [hj]
      · simp [hj, List.count_eq_zero.mpr, Ne.symm hj]

theorem OpenInv.closed (h : OpenInv s) (hc : FileClosed s f s') : OpenInv s' := by
  cases hc with
  | shared ref =>
      refine h.setFile s.fs (fun _ => h.type f (by omega)) rfl fun j => ?_
      have hsame : openInode s f = (s.ftable f).ip := by
        unfold openInode
        rw [if_pos (by omega)]
      have hpos : 0 < (s.ftable f).ref - 1 := by omega
      simp only [hsame, if_pos hpos]
  | @last x ip fs ref cleared off inode run =>
      have hsome : openInode s f = some ip := by
        unfold openInode
        rw [ref, inode]
        rfl
      have hpos : 0 < (s.fs.icache ip).ref := by
        rw [h.counted ip]
        have hp : pointers (openInode s) ip ≠ 0 := fun hz => pointers_eq_zero.mp hz f hsome
        omega
      obtain ⟨hcwd, href⟩ := (inodeFree_ref ip s.fs hpos).of_ok run
      refine h.setFile fs (fun hx => absurd hx (by omega)) hcwd fun j => ?_
      rw [hsome, cleared, ← href j]
      simp
  | unused ref cleared off type => exact absurd type (h.type f (by omega))

theorem OpenInv.dup (h : OpenInv s) (hpos : 0 < (s.ftable f).ref) :
    OpenInv { s with
      ftable := Function.update s.ftable f { s.ftable f with ref := (s.ftable f).ref + 1 } } := by
  refine h.setFile s.fs (fun _ => h.type f hpos) rfl fun j => ?_
  simp [openInode, hpos]

theorem OpenInv.setFilelist (h : OpenInv s) (l : Fd → Option FileId) :
    OpenInv { s with filelist := l } := ⟨h.counted, h.type⟩

theorem OpenInv.fdTaken {r : Option Fd} (h : OpenInv s) (ht : FdTaken s f r s') : OpenInv s' := by
  cases ht with
  | found free => exact h.setFilelist _
  | full all => exact h

theorem OpenInv.step (h : OpenInv s) (c : SysCall) (hc : c.isMkdir = false) :
    Sat c.run s (fun _ => True) (fun _ => OpenInv) fun _ => True := by
  cases c with
  | «open» path openMode =>
      unfold SysCall.run sysOpen
      rw [sat_bind]
      refine (fileOpen_any s path openMode).bind fun r s₁ ho => ?_
      have h₁ := h.opened ho
      cases r with
      | none => exact (sat_pure _).mpr ((sat_pure _).mpr h₁)
      | some f =>
          refine (fdAlloc_any f).bind fun fd s₂ hfd => ?_
          have h₂ := h₁.fdTaken hfd
          split
          · refine (fileClose_any s₂ f).bind fun _ s₃ hcl => ?_
            exact (sat_pure _).mpr ((sat_pure _).mpr (h₂.closed hcl))
          · exact (sat_pure _).mpr ((sat_pure _).mpr h₂)
  | close fd =>
      unfold SysCall.run sysClose
      rw [sat_bind, sat_bind, sat_argFd]
      split
      · exact (sat_pure _).mpr ((sat_pure _).mpr h)
      · next d f _ =>
        rw [sat_bind, setFd, sat_modify]
        refine (fileClose_any _ f).bind fun _ s₁ hcl => ?_
        exact (sat_pure _).mpr ((sat_pure _).mpr ((h.setFilelist _).closed hcl))
  | dup fd =>
      unfold SysCall.run sysDup
      rw [sat_bind, sat_bind, sat_argFd]
      split
      · exact (sat_pure _).mpr ((sat_pure _).mpr h)
      · next d f _ =>
        refine (fdAlloc_any f).bind fun r s₁ hr => ?_
        refine (fileDup_any s₁ f).bind fun _ s₂ hd => ?_
        obtain ⟨hpos, rfl⟩ := hd
        exact (sat_pure _).mpr ((sat_pure _).mpr ((h.fdTaken hr).dup hpos))
  | mkdir path => cases hc
  | chdir path =>
      unfold SysCall.run sysChdir
      rw [sat_bind, sat_bind, sat_onFs]
      have hcwd : ∀ c, s.fs.cwd = some c → 0 < (s.fs.icache c).ref := by
        intro c hc
        rw [h.counted c, if_pos hc]
        omega
      refine (dirChange_any s.fs path hcwd).imp fun r fs hd => ?_
      rw [sat_pure, sat_pure]
      refine ⟨fun j => ?_, h.type⟩
      have hj := h.counted j
      have hdj := hd j
      show (fs.icache j).ref = pointers (openInode s) j + if fs.cwd = some j then 1 else 0
      omega
  | link oldPath newPath =>
      unfold SysCall.run sysLink
      rw [sat_bind, sat_bind, sat_onFs]
      refine ((holds_refl s.fs).pathLink oldPath newPath).imp fun r fs hfs => ?_
      exact (sat_pure _).mpr ((sat_pure _).mpr (h.withFs hfs))
  | unlink path =>
      unfold SysCall.run sysUnlink
      rw [sat_bind, sat_bind, sat_onFs]
      refine ((holds_refl s.fs).pathUnlink path).imp fun r fs hfs => ?_
      exact (sat_pure _).mpr ((sat_pure _).mpr (h.withFs hfs))

/-- `sys_mkdir` keeps the law exactly when it gets no inode. -/
theorem OpenInv.mkdir (h : OpenInv s) {path : List UInt8}
    (hr : (SysCall.run (.mkdir path) s).1 = .ok ((), s')) :
    (InodeCounted s' ↔ ¬ SysCall.GetsInode s (.mkdir path)) ∧
      (¬ SysCall.GetsInode s (.mkdir path) → OpenInv s') := by
  have hspec : Sat (SysCall.run (.mkdir path)) s (fun _ => True) (fun _ s' => ∃ r fs,
      (pathCreateInode path ftDir 0 0 s.fs).1 = .ok (r, fs) ∧ s' = { s with fs } ∧
        Holds s.fs r.toList [] fs) fun _ => True := by
    unfold SysCall.run sysMkdir
    rw [sat_bind, sat_bind, sat_onFs]
    have hp := (holds_refl s.fs).pathCreateInode path ftDir 0 0
    cases hc : (pathCreateInode path ftDir 0 0 s.fs).1 with
    | error e => exact ⟨fun _ _ => trivial, by rw [hc]; trivial⟩
    | ok p =>
        obtain ⟨r, fs⟩ := p
        have hh := hp.of_ok hc
        refine ⟨fun _ _ => trivial, ?_⟩
        rw [hc]
        cases r with
        | none => exact (sat_pure _).mpr ((sat_pure _).mpr ⟨none, fs, rfl, rfl, by simpa using hh⟩)
        | some ip =>
            exact (sat_pure _).mpr ((sat_pure _).mpr ⟨some ip, fs, rfl, rfl, by simpa using hh⟩)
  obtain ⟨r, fs, hc, rfl, hh⟩ := hspec.of_ok hr
  cases r with
  | none =>
      have hno : ¬ SysCall.GetsInode s (.mkdir path) := by
        rintro ⟨ip, fs', hc'⟩
        rw [hc] at hc'
        cases hc'
      have hinv := h.withFs hh
      exact ⟨iff_of_true hinv.counted hno, fun _ => hinv⟩
  | some ip =>
      have hyes : SysCall.GetsInode s (.mkdir path) := ⟨ip, fs, hc⟩
      refine ⟨iff_of_false (fun hcount => ?_) (not_not.mpr hyes), fun hno => absurd hyes hno⟩
      have h1 := hcount ip
      have h0 := h.counted ip
      have href := hh.ref ip
      dsimp only at h1
      rw [hh.cwd] at h1
      simp only [Option.toList_some, List.count_singleton_self] at href
      have hsame : openInode { s with fs } = openInode s := rfl
      rw [hsame] at h1
      omega

/-- Every other call keeps the law. -/
theorem OpenInv.call (h : OpenInv s) {c : SysCall} (hr : (SysCall.run c s).1 = .ok ((), s')) :
    (InodeCounted s' ↔ ¬ c.GetsInode s) ∧ (¬ c.GetsInode s → OpenInv s') := by
  cases hm : c.isMkdir with
  | true =>
      cases c with
      | mkdir path => exact h.mkdir hr
      | _ => cases hm
  | false =>
      have hinv := (h.step c hm).of_ok hr
      exact ⟨iff_of_true hinv.counted (SysCall.keeps_of_isMkdir (by rw [hm]; rfl)), fun _ => hinv⟩

end

end WhuOs.Fs
