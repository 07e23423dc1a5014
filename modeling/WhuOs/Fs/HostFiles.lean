import WhuOs.MkfsFiles
import WhuOs.Fs.Durable

/-! # Reading host files back

What the kernel finds of the files that `mkfs` put into an image. A single file is
found up to the last direct block; a file that is not the first one of its image
does not start at block 0.
-/

namespace WhuOs.Fs

open Prog Bytes Bits PtrTree

def readFile (n offset len : Nat) (dst : Bytes) : FsM (Nat × Bytes) := do
  let ip ← inodeAlloc n
  inodeLock ip
  inodeReadData ip offset len dst

/-- Inode `n` of the image is loaded into the entry `ip`. -/
structure Loading (img : Mkfs.Image) (A : Nat → Prop) (n : Nat) (ip : Slot) (s : State) : Prop where
  tree : TreeInv A [] s
  opened : Opened s n ip
  inode : (s.icache ip).toDiskInode = inoAt img n
  disk : s.disk = img
  view : ∀ b, s.view b = img b

section

variable {junk : Bytes} {files : List Mkfs.HostFile} {f : Mkfs.HostFile}
  {img : Mkfs.Image} {s : State}
  {n : Nat} {ip : Slot} {G : Event → Prop} {E : Panic → Prop}

theorem Mounted.live (hm : Mounted img s) (h : Mkfs.main junk files = some img)
    (hn : n ≤ files.length) : Live s n := by
  have hd : s.disk = img := congrArg Core.disk (hm.boot h).1
  rw [Live, hd, (Mkfs.main_fresh h).inodes]
  simpa using hn

theorem Mounted.load {α : Type} {Q : α → State → Prop} (hm : Mounted img s)
    (h : Mkfs.main junk files = some img) (hn : n ≤ files.length) (k : Slot → FsM α)
    (hk : ∀ ip s', Loading img (Live s) n ip s' → Sat (k ip) s' G Q E) :
    Sat (do let ip ← inodeAlloc n; inodeLock ip; k ip) s G Q E := by
  have hi := fileInv_mounted h hm True
  obtain ⟨hcore, hclean⟩ := hm.boot h
  have hd : s.disk = img := congrArg Core.disk hcore
  have hic : s.icache = fun _ => unusedInode := congrArg Core.icache hcore
  have hlive := hm.live h hn
  have hmiss : ∀ j, (s.icache j).inodeNum ≠ n := fun j => hi.unused (by rw [hic]; rfl) hlive
  refine (inodeAlloc_sat (by rw [hi.locks]) fun hfull => ?_).bind fun ip s₁ ha => ?_
  · exact absurd (by rw [hic]; rfl) (hfull 0)
  cases ha with
  | hit num => exact absurd num (hmiss ip)
  | recycled miss free =>
      refine (hi.load_recycled hlive miss free).bind fun _ s' hl => hk ip s' ?_
      obtain ⟨hld, ht⟩ := hl
      have hic' : s'.icache ip = { s.icache ip with
          toDiskInode := .decode (s.disk (inodeBlock Mkfs.sb n)) (inodeOffset n)
          inodeNum := n, ref := 1, valid := true } := by
        rw [show s'.icache = _ from congrArg Core.icache hld.core]
        exact Function.update_self _ _ _
      refine ⟨ht, ⟨by rw [hic'], by rw [hic']⟩, ?_, ?_, fun b => ?_⟩
      · rw [hic', hd]
        rfl
      · rw [show s'.disk = _ from congrArg Core.disk hld.core]
        exact hd
      · have hv : s'.view b = s.view b ∨ s'.view b = s.disk b := hld.evolves.view b id
        rcases hv with hv | hv
        · rw [hv, hclean.view, hd]
        · rw [hv, hd]

/-! ## A single file -/

/-- The bytes of a single file in its direct blocks. -/
theorem Loading.bytes {A : Nat → Prop} (hl : Loading img A 1 ip s)
    (h : Mkfs.main junk [f] = some img)
    (hlen : f.contents.length ≤ nAddrs1 * blockSize) {offset len : Nat}
    (hend : offset + len ≤ f.contents.length) :
    WroteBytes A 1 ip offset len (fun i => bytesOf f.contents (offset + i)) s := by
  have hs := Mkfs.main_single h
  have hle : f.contents.length ≤ 10 * 1024 := hlen
  refine ⟨hl.tree, hl.opened, ?_, fun i hi => ?_⟩
  · rw [hl.inode, hs.size, UInt32.toNat_ofNat', Nat.mod_eq_of_lt (by omega)]
    exact hend
  · have hdir : offset + i < nAddrs1 * blockSize := by omega
    have hval := directField_val hdir
    have hj : (directField (offset + i)).val < 10 := by
      rw [hval]
      unfold blockSize
      omega
    have hhome :
        home s ip (offset + i) = ((inoAt img 1).addrs (directField (offset + i))).toNat := by
      rw [home, ← hl.inode]
    have hbyte := hs.bytes (offset + i) (by omega) (directField (offset + i)) hj hval
    refine ⟨hdir, ?_, ?_, ?_⟩
    · rw [hhome]
      have hne := (hs.taken _ hj).mpr (by rw [hval]; exact Nat.div_le_div_right (by omega))
      exact fun hz => hne (UInt32.toNat_inj.mp hz)
    · rw [hhome, hl.view, hbyte]
    · rw [hhome, hl.disk, hbyte]

theorem read_single (h : Mkfs.main junk [f] = some img) (hm : Mounted img s)
    (hlen : f.contents.length ≤ nAddrs1 * blockSize) (offset len : Nat)
    (hend : offset + len ≤ f.contents.length) (dst : Bytes) :
    ∃ out s', (readFile 1 offset len dst s).1 = .ok ((len, out), s') ∧
      ∀ i < len, out i = bytesOf f.contents (offset + i) := by
  have hread : Sat (readFile 1 offset len dst) s (fun _ => True)
      (fun q _ => q.1 = len ∧ ∀ i < len, q.2 i = bytesOf f.contents (offset + i)) fun _ =>
      False := by
    refine hm.load h (by simp) (fun ip => inodeReadData ip offset len dst) fun ip s' hl => ?_
    exact (hl.bytes h hlen hend).read_sat (hm.live h (by simp)) (by omega) dst
  obtain ⟨⟨k, out⟩, s', hr, rfl, hout⟩ := hread.returns
  exact ⟨out, s', hr, hout⟩

end

/-- Every read below the length of the file returns its bytes. -/
def FileAgrees (img : Mkfs.Image) (f : Mkfs.HostFile) : Prop :=
  ∀ s, Mounted img s → ∀ offset len, offset + len ≤ f.contents.length → ∀ dst,
    ∃ out s', (readFile 1 offset len dst s).1 = .ok ((len, out), s') ∧
      ∀ i < len, out i = bytesOf f.contents (offset + i)

/-- The kernel reads a single file as it was when it fits into the direct blocks. Of any file, it
finds the blocks of these bytes on the image and no others. -/
theorem single_file_agrees (junk : Bytes) (f : Mkfs.HostFile) (img : Mkfs.Image)
    (h : Mkfs.main junk [f] = some img) :
    (f.contents.length ≤ nAddrs1 * blockSize → FileAgrees img f) ∧
    ∀ o < f.contents.length, Mkfs.blockOf img 1 (o / blockSize) ≠ 0 ↔ o < nAddrs1 * blockSize := by
  refine ⟨fun hlen s hm offset len hend dst =>
    read_single h hm hlen offset len hend dst, fun o ho => ?_⟩
  rw [Mkfs.blockOf_single h]
  refine ⟨fun hbn => ?_, fun hlt =>
    ⟨Nat.div_lt_of_lt_mul (by rwa [Nat.mul_comm]), Nat.div_le_div_right ho.le⟩⟩
  have hlt := hbn.1
  unfold blockSize at hlt
  show o < 10 * 1024
  omega

def oneByte (name : UInt8) (h : 0 ∉ [name]) (v : UInt8) : Mkfs.HostFile := ⟨[name], [v], h⟩

theorem single_file_agrees_byte :
    ∃ img, Mkfs.main (fun _ => 0) [oneByte 97 (by decide) 7] = some img ∧
      FileAgrees img (oneByte 97 (by decide) 7) := by
  have hrun : (Mkfs.main (fun _ => 0) [oneByte 97 (by decide) 7]).isSome = true := by decide +kernel
  obtain ⟨img, himg⟩ := Option.isSome_iff_exists.mp hrun
  exact ⟨img, himg, (single_file_agrees _ _ img himg).1 (by decide)⟩

def mountedByte (img : Mkfs.Image) (n offset : Nat) : Option UInt8 :=
  match (fsInit (powerOn img)).1 with
  | .ok (_, s) =>
      match (readFile n offset 1 (fun _ => 0) s).1 with
      | .ok ((_, out), _) => some (out 0)
      | .error _ => none
  | .error _ => none

theorem mountedByte_eq {img : Mkfs.Image} {s s' : State} {n offset k : Nat} {out : Bytes}
    (hm : Mounted img s) (hr : (readFile n offset 1 (fun _ => 0) s).1 = .ok ((k, out), s')) :
    mountedByte img n offset = some (out 0) := by
  unfold Mounted at hm
  unfold mountedByte
  rw [hm]
  dsimp only
  rw [hr]

def longFile : Mkfs.HostFile := ⟨[97], List.replicate 10241 1, Mkfs.letter_noNul⟩

/-- The byte behind the direct blocks is lost. -/
theorem lost_host_byte :
    ∃ img, Mkfs.main (fun _ => 0) [longFile] = some img ∧ ¬ FileAgrees img longFile := by
  have hrun : (Mkfs.main (fun _ => 0) [longFile]).any
      (fun img => mountedByte img 1 10240 = some 0) = true := by
    decide +kernel
  obtain ⟨img, himg, hbyte⟩ := exists_of_any hrun
  obtain ⟨s, hm⟩ := exists_mounted himg
  refine ⟨img, himg, fun ha => ?_⟩
  have hlen : longFile.contents.length = 10241 := List.length_replicate
  obtain ⟨out, s', hr, hout⟩ := ha s hm 10240 1 (by rw [hlen]) fun _ => 0
  have hone : bytesOf longFile.contents (10240 + 0) = 1 := by decide +kernel
  have hread := mountedByte_eq hm hr
  rw [of_decide_eq_true hbyte, hout 0 (by omega), hone] at hread
  cases hread

/-! ## Several files -/

/-- Each file is found as in every image with that file alone: the same logical blocks are there,
and the same bytes are read below its size. -/
def Independent (junk : Bytes) (files : List Mkfs.HostFile) (img : Mkfs.Image) : Prop :=
  ∀ k f, files[k]? = some f → (∃ alone, Mkfs.main junk [f] = some alone) ∧
    ∀ junk' alone, Mkfs.main junk' [f] = some alone →
      (∀ bn, Mkfs.blockOf img (k + 1) bn ≠ 0 ↔ Mkfs.blockOf alone 1 bn ≠ 0) ∧
      ∀ s t, Mounted img s → Mounted alone t → ∀ dst, ∃ out out' s' t',
        (readFile (k + 1) 0 f.contents.length dst s).1 = .ok ((f.contents.length, out), s') ∧
        (readFile 1 0 f.contents.length dst t).1 = .ok ((f.contents.length, out'), t') ∧
        ∀ i < f.contents.length, out i = out' i

/-- The files of an image, each at most ten blocks long, are independent exactly when there is at
most one. -/
theorem files_independent_iff (junk : Bytes) (files : List Mkfs.HostFile) (img : Mkfs.Image)
    (h : Mkfs.main junk files = some img)
    (hten : ∀ f ∈ files, f.contents.length ≤ nAddrs1 * blockSize) :
    Independent junk files img ↔ files.length ≤ 1 := by
  constructor
  · intro hind
    by_contra hgt
    have hk : 1 < files.length := by omega
    obtain ⟨⟨alone, halone⟩, hsame⟩ := hind 1 files[1] (List.getElem?_eq_getElem hk)
    have hfirst := ((hsame junk alone halone).1 0).mpr
      ((Mkfs.blockOf_single halone 0).mpr ⟨by decide, Nat.zero_le _⟩)
    rw [Mkfs.blockOf_direct (by decide)] at hfirst
    exact hfirst (by rw [show (⟨0, by omega⟩ : Fin 13) = 0 from rfl,
      Mkfs.main_shifted h (by decide) hk]; rfl)
  · intro hle k f hkf
    obtain rfl : files = [f] := by
      match files, hle with
      | [], _ => cases hkf
      | [g], _ =>
          cases k with
          | zero =>
              cases hkf
              rfl
          | succ k => cases hkf
    obtain rfl : k = 0 := by
      cases k with
      | zero => rfl
      | succ k => cases hkf
    have hlen := hten f (by simp)
    refine ⟨⟨img, h⟩, fun junk' alone halone => ⟨fun bn => ?_, fun s t hs ht dst => ?_⟩⟩
    · rw [Mkfs.blockOf_single h, Mkfs.blockOf_single halone]
    · obtain ⟨out, s', hr, hout⟩ := read_single h hs hlen 0 f.contents.length (by omega) dst
      obtain ⟨out', t', hr', hout'⟩ :=
        read_single halone ht hlen 0 f.contents.length (by omega) dst
      exact ⟨out, out', s', t', hr, hr', fun i hi => by rw [hout i hi, hout' i hi]⟩

theorem files_independent_single :
    ∃ img, Mkfs.main (fun _ => 0) [oneByte 97 (by decide) 7] = some img ∧
      Independent (fun _ => 0) [oneByte 97 (by decide) 7] img := by
  have hrun : (Mkfs.main (fun _ => 0) [oneByte 97 (by decide) 7]).isSome = true := by decide +kernel
  obtain ⟨img, himg⟩ := Option.isSome_iff_exists.mp hrun
  refine ⟨img, himg, (files_independent_iff _ _ img himg fun f hf => ?_).mpr (by decide)⟩
  rw [List.mem_singleton.mp hf]
  decide

/-- The second of two files of one byte reads as zero. -/
theorem second_file_shifted :
    ∃ files img, Mkfs.main (fun _ => 0) files = some img ∧
      (∀ f ∈ files, f.contents.length ≤ nAddrs1 * blockSize) ∧
      ¬ Independent (fun _ => 0) files img := by
  have hrun : (Mkfs.main (fun _ => 0) [oneByte 97 (by decide) 7, oneByte 98 (by decide) 7]).any
      (fun img => mountedByte img 2 0 = some 0) = true := by
    decide +kernel
  obtain ⟨img, himg, hbyte⟩ := exists_of_any hrun
  refine ⟨_, img, himg, fun f hf => ?_, fun hind => ?_⟩
  · rcases List.mem_pair.mp hf with rfl | rfl <;> decide
  · obtain ⟨⟨alone, halone⟩, hsame⟩ := hind 1 _ rfl
    obtain ⟨s, hm⟩ := exists_mounted himg
    obtain ⟨t, ht⟩ := exists_mounted halone
    obtain ⟨out, out', s', t', hr, hr', heq⟩ := (hsame _ alone halone).2 s t hm ht fun _ => 0
    obtain ⟨o, t'', ho, hval⟩ := read_single halone ht (by decide) 0 1 (by decide) fun _ => 0
    have hread := mountedByte_eq hm hr
    rw [of_decide_eq_true hbyte, heq 0 (by decide)] at hread
    have hsame' : out' = o := by
      have hq := hr'.symm.trans ho
      simp only [Except.ok.injEq, Prod.mk.injEq] at hq
      exact hq.1.2
    rw [hsame', hval 0 (by decide)] at hread
    exact absurd hread (by decide)

end WhuOs.Fs
