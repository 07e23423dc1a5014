import WhuOs.Fs.MappedRead
import WhuOs.Fs.Durable
import WhuOs.Fs.Offsets

/-! # Offsets and lengths over the integers

The range tests of `inode_read_data`, `inode_write_data` and `file_lseek` are sums of
32-bit numbers. They agree with the tests over the integers unless the sum wraps
around to a value that passes.
-/

namespace WhuOs.Fs

open Prog Bytes

/-- The copy loop of `inode_read_data` over another lookup. -/
def readLoopWith (locate : Nat → FsM Nat) : Nat → Nat → Nat → Nat → Bytes → FsM (Nat × Bytes)
  | 0, _, total, _, dst => pure (total, dst)
  | fuel + 1, offset, total, len, dst => do
      if total < len then
        let off := offset % blockSize
        let blockNum ← locate (offset / blockSize)
        let buf ← bufRead blockNum
        let m := min (blockSize - off) (len - total)
        let dst := splice dst total (window (← bufData buf) off) m
        bufRelease buf
        readLoopWith locate fuel (u32 (offset + m)) (total + m) len dst
      else
        return (total, dst)

def inodeReadDataWith (locate : Nat → FsM Nat) (ip : Slot) (offset len : Nat) (dst : Bytes) :
    FsM (Nat × Bytes) := do
  let size := (← inodeOf ip).size.toNat
  if offset > size then return (0, dst)
  let len := if u32 (offset + len) > size then size - offset else len
  readLoopWith locate len offset 0 len dst

/-- `inode_locate_block` for the logical blocks of the first `size` bytes. -/
def locateWithin (ip : Slot) (size bn : Nat) : FsM Nat :=
  if bn * blockSize < size then inodeLocateBlock ip bn else panic .depth

def readable (size offset len : Nat) : Nat := if offset ≤ size then min len (size - offset) else 0

def StaysWithin (s : State) (ip : Slot) (offset len : Nat) (dst : Bytes) : Prop :=
  inodeReadDataWith (locateWithin ip (s.icache ip).size.toNat) ip offset len dst s =
    inodeReadData ip offset len dst s

def ReadAgrees (s : State) (ip : Slot) (offset len : Nat) (dst : Bytes) : Prop :=
  (∃ d s', (inodeReadData ip offset len dst s).1 =
    .ok ((readable (s.icache ip).size.toNat offset len, d), s')) ∧
    StaysWithin s ip offset len dst

/-- The write returns 0 and changes nothing exactly when it would end behind `INODE_MAXSIZE`. -/
def WriteAgrees (s : State) (ip : Slot) (offset len : Nat) (src : Bytes) : Prop :=
  inodeWriteData ip offset len src s = (.ok (0, s), []) ↔ inodeMaxSize < offset + len

def seekTarget (old offset : Nat) (flags : Int) : Option Nat :=
  if flags = lseekSet then some offset
  else if flags = lseekAdd then some (old + offset)
  else if flags = lseekSub then some (old - offset)
  else none

def SeekAgrees (s : FileSys) (f : FileId) (size offset : Nat) (flags : Int) : Prop :=
  ∀ t, seekTarget (s.ftable f).offset offset flags = some t →
    (fileLseek f offset flags s).1 = .ok (if t ≤ size then
      (0, { s with ftable := Function.update s.ftable f { s.ftable f with offset := t } })
        else (minusOne, s))

/-- The sum of two 32-bit numbers wraps around to a value that is not above the bound. -/
def WrapsBelow (bound a b : Nat) : Prop := 2 ^ 32 ≤ a + b ∧ a + b - 2 ^ 32 ≤ bound

instance (bound a b : Nat) : Decidable (WrapsBelow bound a b) :=
  inferInstanceAs (Decidable (_ ∧ _))

section

variable {A : Nat → Prop} {s : State} {ip : Slot}
  {n offset len size bound a b : Nat} {dst src : Bytes}

/-- The wrapped test passes what the test over the integers refuses in one case. -/
theorem u32_le_iff (ha : a < 2 ^ 32) (hb : b < 2 ^ 32) (hbound : bound < 2 ^ 32) :
    u32 (a + b) ≤ bound ↔ a + b ≤ bound ∨ WrapsBelow bound a b := by
  unfold u32 WrapsBelow
  omega

theorem size_lt (s : State) (ip : Slot) : (s.icache ip).size.toNat < 2 ^ 32 := UInt32.toNat_lt _

/-! ## Reads -/

theorem readLoopWith_locate (fuel : Nat) : ∀ (offset total len : Nat) (dst : Bytes),
    readLoopWith (inodeLocateBlock ip) fuel offset total len dst =
      readLoop ip fuel offset total len dst := by
  induction fuel with
  | zero => exact fun _ _ _ _ => rfl
  | succ fuel ih =>
      intro offset total len dst
      rw [readLoopWith, readLoop]
      simp only [ih]

/-- A loop that ends within the size does not look further. -/
theorem readLoopWith_within (hsize : size < 2 ^ 32) (fuel : Nat) :
    ∀ (offset total len : Nat) (dst : Bytes),
    offset + (len - total) ≤ size →
    readLoopWith (locateWithin ip size) fuel offset total len dst =
      readLoop ip fuel offset total len dst := by
  induction fuel with
  | zero => exact fun _ _ _ _ _ => rfl
  | succ fuel ih =>
      intro offset total len dst hend
      rw [readLoopWith, readLoop]
      split
      swap
      · rfl
      next hlt =>
      have hself : offset / blockSize * blockSize ≤ offset := Nat.div_mul_le_self _ _
      have hloc : locateWithin ip size (offset / blockSize) =
        inodeLocateBlock ip (offset / blockSize) :=
        if_pos (by omega)
      have hwrap : u32 (offset + min (blockSize - offset % blockSize) (len - total)) =
          offset + min (blockSize - offset % blockSize) (len - total) := Nat.mod_eq_of_lt (by omega)
      simp only [hloc, hwrap]
      congr 1
      funext blockNum
      congr 1
      funext buf
      congr 1
      funext data
      congr 1
      funext _
      exact ih _ _ _ _ (by omega)

/-- The length that the loop gets. -/
theorem read_len (hoff : offset ≤ size) (hsize : size < 2 ^ 32) (hlen : len < 2 ^ 32)
    (hw : ¬ WrapsBelow size offset len) :
    (if u32 (offset + len) > size then size - offset else len) = readable size offset len := by
  have hiff : u32 (offset + len) ≤ size ↔ offset + len ≤ size :=
    (u32_le_iff (by omega) hlen hsize).trans (or_iff_left hw)
  unfold readable
  rw [if_pos hoff]
  split <;> omega

theorem inodeOf_eq (ip : Slot) (s : State) : inodeOf ip s = (.ok (s.icache ip, s), []) := rfl

/-- A read that starts behind the end. -/
theorem inodeReadData_behind (h : (s.icache ip).size.toNat < offset) :
    inodeReadData ip offset len dst s = (.ok ((0, dst), s), []) ∧
    StaysWithin s ip offset len dst := by
  have hread : inodeReadData ip offset len dst s = (.ok ((0, dst), s), []) := by
    unfold inodeReadData
    rw [bind_silent (inodeOf_eq ip s)]
    dsimp only
    rw [if_pos h]
    rfl
  refine ⟨hread, ?_⟩
  unfold StaysWithin inodeReadDataWith
  rw [hread, bind_silent (inodeOf_eq ip s)]
  dsimp only
  rw [if_pos h]
  rfl

/-- A read that starts within the file runs the loop for the bytes in the file. -/
theorem inodeReadData_inside (hlen : len < 2 ^ 32) (hoff : offset ≤ (s.icache ip).size.toNat)
    (hw : ¬ WrapsBelow (s.icache ip).size.toNat offset len) :
    inodeReadData ip offset len dst s =
      readLoop ip (readable (s.icache ip).size.toNat offset len) offset 0
      (readable (s.icache ip).size.toNat offset len) dst s ∧ StaysWithin s ip offset len dst := by
  have hcut := read_len hoff (size_lt s ip) hlen hw
  have hread :
      inodeReadData ip offset len dst s =
        readLoop ip (readable (s.icache ip).size.toNat offset len) offset 0
        (readable (s.icache ip).size.toNat offset len) dst s := by
    unfold inodeReadData
    rw [bind_silent (inodeOf_eq ip s)]
    dsimp only
    rw [if_neg (Nat.not_lt.mpr hoff), hcut]
  refine ⟨hread, ?_⟩
  unfold StaysWithin inodeReadDataWith
  rw [hread, bind_silent (inodeOf_eq ip s)]
  dsimp only
  rw [if_neg (Nat.not_lt.mpr hoff), hcut, readLoopWith_within (size_lt s ip)]
  unfold readable
  rw [if_pos hoff]
  omega

/-- Whatever the state, a read without wrap-around returns the number of bytes in the file, if it
returns, and does not look behind the size. -/
theorem inodeReadData_within (hlen : len < 2 ^ 32)
    (hw : ¬ (offset ≤ (s.icache ip).size.toNat ∧ WrapsBelow (s.icache ip).size.toNat offset len)) :
    (∀ r s', (inodeReadData ip offset len dst s).1 = .ok (r, s') →
      r.1 = readable (s.icache ip).size.toNat offset len) ∧ StaysWithin s ip offset len dst := by
  rcases Nat.lt_or_ge (s.icache ip).size.toNat offset with hlt | hge
  · obtain ⟨hread, hstay⟩ : _ ∧ StaysWithin s ip offset len dst := inodeReadData_behind hlt
    refine ⟨fun r s' hr => ?_, hstay⟩
    rw [hread] at hr
    cases hr
    exact (if_neg (Nat.not_le.mpr hlt)).symm
  · obtain ⟨hread, hstay⟩ : _ ∧ StaysWithin s ip offset len dst :=
      inodeReadData_inside hlen hge fun hc => hw ⟨hge, hc⟩
    refine ⟨fun r s' hr => ?_, hstay⟩
    rw [hread] at hr
    exact ((readLoop_total ip _ _ _ _ dst s (by omega) (Nat.zero_le _)).of_ok hr).1

/-- A read that wraps around does not return. -/
theorem inodeReadData_wrapped (hoff : offset ≤ (s.icache ip).size.toNat) (hlen : len < 2 ^ 32)
    (hw : WrapsBelow (s.icache ip).size.toNat offset len) :
    ∀ r s', (inodeReadData ip offset len dst s).1 ≠ .ok (r, s') := by
  intro r s' hr
  have hsize := size_lt s ip
  have hcut : ¬ u32 (offset + len) > (s.icache ip).size.toNat :=
    Nat.not_lt.mpr ((u32_le_iff (by omega) hlen hsize).mpr (.inr hw))
  unfold inodeReadData at hr
  rw [bind_silent (inodeOf_eq ip s)] at hr
  dsimp only at hr
  rw [if_neg (Nat.not_lt.mpr hoff), if_neg hcut] at hr
  have hpos : 0 < len := by
    unfold WrapsBelow at hw
    omega
  have hend := ((readLoop_total ip _ _ _ _ dst s (by omega) (Nat.zero_le _)).of_ok hr).2 hpos
  have hmax : inodeMaxSize < 2 ^ 32 := by decide
  unfold WrapsBelow at hw
  omega

theorem readAgrees_iff (h : TreeInv A [] s) (hn : A n) (hop : Opened s n ip) (hlen : len < 2 ^ 32)
    (hmap : ∀ bn, offset / blockSize ≤ bn →
      bn * blockSize < min (offset + len) (s.icache ip).size.toNat →
      Mapped s n bn) :
    ReadAgrees s ip offset len dst ↔
      ¬ (offset ≤ (s.icache ip).size.toNat ∧ WrapsBelow (s.icache ip).size.toNat offset len) := by
  constructor
  · rintro ⟨⟨d, s', hr⟩, -⟩ ⟨hoff, hw⟩
    exact inodeReadData_wrapped hoff hlen hw _ _ hr
  · intro hw
    refine ⟨?_, (inodeReadData_within hlen hw).2⟩
    rcases Nat.lt_or_ge (s.icache ip).size.toNat offset with hlt | hge
    · refine ⟨dst, s, ?_⟩
      rw [(inodeReadData_behind hlt).1, readable, if_neg (Nat.not_le.mpr hlt)]
    · rw [(inodeReadData_inside hlen hge fun hc => hw ⟨hge, hc⟩).1]
      have hsat : Sat (readLoop ip (readable (s.icache ip).size.toNat offset len) offset 0
          (readable (s.icache ip).size.toNat offset len) dst) s (fun _ => True)
          (fun r _ => r.1 = readable (s.icache ip).size.toNat offset len) fun _ => False := by
        refine readLoop_mapped hn _ dst h hop (by omega) (Nat.zero_le _)
          fun bn hbn hend => hmap bn hbn ?_
        unfold readable at hend
        rw [if_pos hge] at hend
        omega
      obtain ⟨⟨m, d⟩, s', hr, hm⟩ := hsat.returns
      dsimp only at hm
      subst hm
      exact ⟨d, s', hr⟩

/-! ## Writes -/

/-- A write that is not refused returns its length, if it returns. -/
theorem inodeWriteData_len (hle : ¬ u32 (offset + len) > inodeMaxSize) :
    Sat (inodeWriteData ip offset len src) s (fun _ => True) (fun w _ => w = len) fun _ =>
      True := by
  unfold inodeWriteData
  rw [if_neg hle]
  refine (writeLoop_total ip src _ _ _ _ s (by omega) (Nat.zero_le _)).bind fun r s₁ hr => ?_
  obtain ⟨rfl, -⟩ := hr
  rw [sat_bind, sat_inodeOf]
  dsimp only
  split
  · rw [sat_bind, sat_modifyInode]
    exact ((inodeRw_write_keeps ip).sat _).bind fun _ _ _ => (sat_pure _).mpr rfl
  · exact (sat_pure _).mpr rfl

/-- A write of no bytes within the size does nothing. -/
theorem inodeWriteData_none (hoff : offset ≤ (s.icache ip).size.toNat)
    (hmax : offset ≤ inodeMaxSize) :
    inodeWriteData ip offset 0 src s = (.ok (0, s), []) := by
  have hle : ¬ u32 (offset + 0) > inodeMaxSize := Nat.not_lt.mpr ((Nat.mod_le _ _).trans hmax)
  unfold inodeWriteData writeLoop
  rw [if_neg hle,
    bind_silent (show (pure (offset, 0) : FsM (Nat × Nat)) s = (.ok ((offset, 0), s), []) from rfl)]
  dsimp only
  rw [bind_silent (inodeOf_eq ip s), if_neg (Nat.not_lt.mpr hoff)]
  rfl

/-- A write of no bytes behind the size moves the size. -/
theorem inodeWriteData_extends (hoff : offset < 2 ^ 32) (hgt : (s.icache ip).size.toNat < offset)
    (hmax : offset ≤ inodeMaxSize) :
    Sat (inodeWriteData ip offset 0 src) s (fun _ => True)
      (fun _ s' => (s'.icache ip).size.toNat = offset) fun _ => True := by
  have hle : ¬ u32 (offset + 0) > inodeMaxSize := Nat.not_lt.mpr ((Nat.mod_le _ _).trans hmax)
  unfold inodeWriteData writeLoop
  rw [if_neg hle, sat_bind, sat_pure, sat_bind, sat_inodeOf]
  dsimp only
  rw [if_pos hgt, sat_bind, sat_modifyInode]
  refine ((inodeRw_write_keeps ip).sat _).bind fun _ s' hs' => (sat_pure _).mpr ?_
  have hicache :
      s'.icache = (s.setInode ip { s.icache ip with size := UInt32.ofNat offset }).icache :=
    congrArg (fun o => o.2.1) hs'
  rw [hicache]
  simpa [State.setInode] using hoff

/-- A write that is refused although it ends within `INODE_MAXSIZE` has no bytes to store. -/
theorem inodeWriteData_refused (hoff : offset < 2 ^ 32) (hle : u32 (offset + len) ≤ inodeMaxSize)
    (hmax : offset + len ≤ inodeMaxSize)
    (h : inodeWriteData ip offset len src s = (.ok (0, s), [])) :
    len = 0 ∧ offset ≤ (s.icache ip).size.toNat := by
  have hfst : (inodeWriteData ip offset len src s).1 = .ok (0, s) := congrArg Prod.fst h
  obtain rfl : 0 = len := (inodeWriteData_len (Nat.not_lt.mpr hle)).of_ok hfst
  refine ⟨rfl, Nat.le_of_not_lt fun hgt => ?_⟩
  have hsize := (inodeWriteData_extends hoff hgt hmax).of_ok hfst
  omega

theorem writeAgrees_iff (hoff : offset < 2 ^ 32) (hlen : len < 2 ^ 32) :
    WriteAgrees s ip offset len src ↔ ¬ WrapsBelow inodeMaxSize offset len ∧
      ¬ (len = 0 ∧ offset ≤ (s.icache ip).size.toNat ∧ offset ≤ inodeMaxSize) := by
  have hiff := u32_le_iff hoff hlen (show inodeMaxSize < 2 ^ 32 by decide)
  have hmax : inodeMaxSize < 2 ^ 32 := by decide
  constructor
  · refine fun hagrees => ⟨fun hw => ?_, ?_⟩
    · have hbig : inodeMaxSize < offset + len := by
        unfold WrapsBelow at hw
        omega
      have hfst : (inodeWriteData ip offset len src s).1 = .ok (0, s) :=
        congrArg Prod.fst (hagrees.mpr hbig)
      have hzero := (inodeWriteData_len (Nat.not_lt.mpr (hiff.mpr (.inr hw)))).of_ok hfst
      unfold WrapsBelow at hw
      omega
    · rintro ⟨rfl, hin, hle⟩
      exact absurd (hagrees.mp (inodeWriteData_none hin hle)) (Nat.not_lt.mpr hle)
  · rintro ⟨hw, hempty⟩
    refine ⟨fun h => Nat.lt_of_not_le fun hle => ?_, fun hbig => ?_⟩
    · obtain ⟨rfl, hin⟩ := inodeWriteData_refused hoff (hiff.mpr (.inl hle)) hle h
      exact hempty ⟨rfl, hin, hle⟩
    · have hcut : u32 (offset + len) > inodeMaxSize := by
        refine Nat.lt_of_not_le fun hle => ?_
        rcases hiff.mp hle with h1 | h1
        · omega
        · exact hw h1
      unfold inodeWriteData
      rw [if_pos hcut]
      rfl

end

/-! ## Seeking -/

section

variable {s : FileSys} {f : FileId} {ip : Slot} {offset : Nat} {flags : Int}

/-- What `file_lseek` does on an open regular file. -/
theorem fileLseek_sat (hf : (s.ftable f).type = .file) (hip : (s.ftable f).ip = some ip)
    (hl : s.fs.locks (.inode ip) = false) (hv : (s.fs.icache ip).valid = true) :
    Sat (fileLseek f offset flags) s (fun _ => True) (fun r s' =>
      (r, s') = match seekOffset (s.ftable f).offset offset flags with
        | none => (minusOne, s)
        | some t => if t > (s.fs.icache ip).size.toNat then (minusOne, s) else
            (0, { s with ftable := Function.update s.ftable f { s.ftable f with offset := t } }))
      fun _ => False := by
  have hend : ∀ (t : FileSys) (n : Nat), t.fs = s.fs.setLock (.inode ip) true → Sat (do
      onFs (inodeUnlock ip)
      return n) t (fun _ => True) (fun r s' => (r, s') = (n, { t with fs := s.fs })) fun _ =>
        False := by
    intro t n ht
    rw [sat_bind, sat_onFs, ht, inodeUnlock, sat_release (by simp), sat_pure,
      setLock_setLock, setLock_self hl]
  unfold fileLseek fileIp
  rw [sat_bind, sat_fileOf, if_neg (not_not_intro hf), hip, sat_bind, sat_pure, sat_bind, sat_onFs,
    inodeLock_valid hl hv]
  cases seekOffset (s.ftable f).offset offset flags with
  | none => exact hend _ _ rfl
  | some t =>
      dsimp only
      rw [sat_bind, sat_onFs, sat_inodeOf]
      by_cases ht : t > (s.fs.icache ip).size.toNat
      · rw [if_pos ht, if_pos (by simpa using ht)]
        exact hend _ _ rfl
      · rw [if_neg ht, if_neg (by simpa using ht), sat_bind, sat_modifyFile]
        exact hend _ _ rfl

theorem seekAgrees_iff (hf : (s.ftable f).type = .file) (hip : (s.ftable f).ip = some ip)
    (hl : s.fs.locks (.inode ip) = false) (hv : (s.fs.icache ip).valid = true)
    (hold : (s.ftable f).offset < 2 ^ 32) (hoff : offset < 2 ^ 32) :
    SeekAgrees s f (s.fs.icache ip).size.toNat offset flags ↔
      ¬ (flags = lseekAdd ∧ WrapsBelow (s.fs.icache ip).size.toNat (s.ftable f).offset offset) := by
  have hsize := size_lt s.fs ip
  have hsat : Sat (fileLseek f offset flags) s _ _ _ := fileLseek_sat hf hip hl hv
  obtain ⟨r, s', hr, hres⟩ := hsat.returns
  unfold SeekAgrees
  rw [hr, hres]
  generalize (s.fs.icache ip).size.toNat = size at hsize ⊢
  have hsame :
    seekOffset (s.ftable f).offset offset flags = seekTarget (s.ftable f).offset offset flags →
      ∀ t, seekTarget (s.ftable f).offset offset flags = some t →
        (Except.ok (match seekOffset (s.ftable f).offset offset flags with
          | none => (minusOne, s)
          | some t => if t > size then (minusOne, s) else
            (0, { s with ftable := Function.update s.ftable f { s.ftable f with offset := t } })) :
            Except Panic (Nat × FileSys)) =
          .ok (if t ≤ size then
            (0, { s with ftable := Function.update s.ftable f { s.ftable f with offset := t } })
            else (minusOne, s)) := by
    intro he t ht
    rw [he, ht]
    dsimp only
    by_cases hle : t ≤ size
    · rw [if_pos hle, if_neg (Nat.not_lt.mpr hle)]
    · rw [if_neg hle, if_pos (Nat.lt_of_not_le hle)]
  by_cases hadd : flags = lseekAdd
  swap
  · refine iff_of_true (hsame ?_) fun hc => hadd hc.1
    unfold seekOffset seekTarget
    rw [if_neg hadd, if_neg hadd]
    congr 3
    split <;> omega
  · subst hadd
    have hoffset :
    seekOffset (s.ftable f).offset offset lseekAdd = some (u32 ((s.ftable f).offset + offset)) :=
      rfl
    have htarget :
        seekTarget (s.ftable f).offset offset lseekAdd = some ((s.ftable f).offset + offset) := rfl
    have hiff := u32_le_iff hold hoff hsize
    by_cases hw : WrapsBelow size (s.ftable f).offset offset
    · refine iff_of_false (fun hc => ?_) fun hc => hc ⟨rfl, hw⟩
      have hbig : ¬ (s.ftable f).offset + offset ≤ size := by
        have hw1 := hw.1
        omega
      have hc := hc _ htarget
      rw [hoffset] at hc
      dsimp only at hc
      rw [if_neg (Nat.not_lt.mpr (hiff.mpr (.inr hw))), if_neg hbig] at hc
      exact absurd (congrArg Prod.fst (Except.ok.inj hc)) (show (0 : Nat) ≠ minusOne by decide)
    · refine iff_of_true (fun t ht => ?_) fun hc => hw hc.2
      obtain rfl : (s.ftable f).offset + offset = t := Option.some.inj (htarget.symm.trans ht)
      rw [or_iff_left hw] at hiff
      rw [hoffset]
      dsimp only
      by_cases hle : (s.ftable f).offset + offset ≤ size
      · have hu : u32 ((s.ftable f).offset + offset) = (s.ftable f).offset + offset :=
          Nat.mod_eq_of_lt (by omega)
        rw [if_pos hle, if_neg (Nat.not_lt.mpr (hiff.mpr hle)), hu]
      · rw [if_neg hle, if_pos (Nat.lt_of_not_le fun hc => hle (hiff.mp hc))]

/-- The range tests of the code agree with the tests over the integers, unless a 32-bit sum wraps
around to a value that passes; a write of no bytes within the size returns 0 too. -/
theorem offset_arithmetic_iff {A : Nat → Prop} {n offset len : Nat} (s : FileSys)
    (f : FileId) (ip : Slot)
    (h : TreeInv A [] s.fs) (hn : A n) (hop : Opened s.fs n ip)
    (hl : s.fs.locks (.inode ip) = false)
    (hf : (s.ftable f).type = .file) (hip : (s.ftable f).ip = some ip)
    (hold : (s.ftable f).offset < 2 ^ 32)
    (hoff : offset < 2 ^ 32) (hlen : len < 2 ^ 32)
    (hmap : ∀ bn, offset / blockSize ≤ bn →
      bn * blockSize < min (offset + len) (s.fs.icache ip).size.toNat →
      Mapped s.fs n bn) (dst src : Bytes) (flags : Int) :
    (ReadAgrees s.fs ip offset len dst ↔
      ¬ (offset ≤ (s.fs.icache ip).size.toNat ∧
        WrapsBelow (s.fs.icache ip).size.toNat offset len)) ∧
    (WriteAgrees s.fs ip offset len src ↔ ¬ WrapsBelow inodeMaxSize offset len ∧
      ¬ (len = 0 ∧ offset ≤ (s.fs.icache ip).size.toNat ∧ offset ≤ inodeMaxSize)) ∧
    (SeekAgrees s f (s.fs.icache ip).size.toNat offset flags ↔
      ¬ (flags = lseekAdd ∧ WrapsBelow (s.fs.icache ip).size.toNat (s.ftable f).offset offset)) ∧
    -- in other states a read may end in a panic of a call it makes, but returns and reads nothing
    -- else
    ∀ (t : State) (jp : Slot),
      ¬ (offset ≤ (t.icache jp).size.toNat ∧ WrapsBelow (t.icache jp).size.toNat offset len) →
      (∀ r t', (inodeReadData jp offset len dst t).1 = .ok (r, t') →
        r.1 = readable (t.icache jp).size.toNat offset len) ∧ StaysWithin t jp offset len dst :=
  ⟨readAgrees_iff h hn hop hlen hmap, writeAgrees_iff hoff hlen,
    seekAgrees_iff hf hip hl hop.valid hold hoff,
    fun _ _ hw => inodeReadData_within hlen hw⟩

end

/-- A file table in which every entry is open on the first inode of the cache, at an offset. -/
def openedAt (fs : State) (offset : Nat) : FileSys :=
  { withFiles fs with ftable := fun _ => ⟨.file, true, true, 1, 0, offset, some 0⟩ }

/-- A new file of one byte. -/
theorem one_byte_file :
    ∃ img s, Mkfs.main (fun _ => 0) [] = some img ∧ GrowReach img s ∧ 0 < (s.icache 0).ref ∧
    (s.icache 0).size.toNat = 1 ∧ ((s.icache 0).addrs 0).toNat ≠ 0 ∧
    s.locks (.inode 0) = false := by
  have hrun : (bootRun (fun op s => op.May s ∧ op.Grows ∧ ∀ t ∈ (op.run s).2, NoFail t)
      FileOp.run []
      [.create ftFile 0 0, .write 0 0 1 fun _ => 7]).any (fun s => 0 < (s.icache 0).ref ∧
        (s.icache 0).size.toNat = 1 ∧ ((s.icache 0).addrs 0).toNat ≠ 0 ∧
        s.locks (.inode 0) = false) = true := by
    decide +kernel
  obtain ⟨s, hs, hp⟩ := exists_of_any hrun
  obtain ⟨img, s₀, himg, hm, hr⟩ := reach_of_bootRun (fun _ _ h => of_decide_eq_true h) hs
  exact ⟨img, s, himg, ⟨s₀, hm, hr⟩, of_decide_eq_true hp⟩

/-- Reading the byte of a new file. -/
theorem offset_arithmetic_byte : ∃ img s, Mkfs.main (fun _ => 0) [] = some img ∧ GrowReach img s ∧
    ReadAgrees s 0 0 1 (fun _ => 0) := by
  obtain ⟨img, s, himg, hr, href, hsize, haddr, hl⟩ := one_byte_file
  have hi := hr.inv himg
  obtain ⟨hop, hn⟩ := hi.opened href
  refine ⟨img, s, himg, hr, ?_⟩
  refine (offset_arithmetic_iff (openedAt s 0) 0 0 hi.tree hn hop hl rfl rfl
    (show 0 < 2 ^ 32 by decide)
    (by decide) (by decide)
    (fun bn _ hbn => ?_) (fun _ => 0) (fun _ => 0) lseekSet).1.mpr ?_
  · obtain rfl : bn = 0 := by
      change bn * 1024 < min (0 + 1) _ at hbn
      omega
    refine ⟨⟨_, 0, []⟩, rfl, ?_, fun ls rest he hne => ?_⟩
    · have hcopy := inodeCopy_slot hi.tree.uniq hop.valid hop.num (hi.tree.owned.bound _ hn)
      change ((inodeCopy s (s.icache 0).inodeNum).addrs 0).toNat ≠ 0
      rw [hcopy]
      exact haddr
    · exact absurd (List.append_eq_nil_iff.mp he.symm).2 hne
  · rintro ⟨-, hw⟩
    exact absurd hw.1 (by decide)

/-- Behind its byte, a read and a write of `2 ^ 32 - 1` bytes pass the tests, and a seek by as much
goes back to the start. -/
theorem wrapped_offsets_pass : ∃ img s, Mkfs.main (fun _ => 0) [] = some img ∧ GrowReach img s ∧
    ¬ ReadAgrees s 0 1 (2 ^ 32 - 1) (fun _ => 0) ∧ ¬ WriteAgrees s 0 1 (2 ^ 32 - 1) (fun _ => 0) ∧
    ¬ SeekAgrees (openedAt s 1) 0 (s.icache 0).size.toNat (2 ^ 32 - 1) lseekAdd := by
  obtain ⟨img, s, himg, hr, href, hsize, haddr, hl⟩ := one_byte_file
  have hw : WrapsBelow (s.icache 0).size.toNat 1 (2 ^ 32 - 1) := by
    rw [hsize]
    decide
  obtain ⟨hop, hn⟩ := (hr.inv himg).opened href
  refine ⟨img, s, himg, hr, ?_, ?_, ?_⟩
  · rintro ⟨⟨d, s', hread⟩, -⟩
    exact inodeReadData_wrapped (by omega) (by decide) hw _ _ hread
  · rw [writeAgrees_iff (by decide) (by decide)]
    exact fun hc => hc.1 (by decide)
  · have hiff : SeekAgrees (openedAt s 1) 0 (s.icache 0).size.toNat (2 ^ 32 - 1) lseekAdd ↔
        ¬ (lseekAdd = lseekAdd ∧ WrapsBelow (s.icache 0).size.toNat 1 (2 ^ 32 - 1)) :=
      seekAgrees_iff rfl rfl hl hop.valid (show 1 < 2 ^ 32 by decide) (by decide)
    rw [hiff]
    exact fun hc => hc ⟨rfl, hw⟩

end WhuOs.Fs
