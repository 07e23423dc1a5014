import WhuOs.Fs.Store

/-! # Block and inode bitmaps (`kernel/fs/bitmap.c`) -/

namespace WhuOs.Fs

open Prog Bits

/-- Find a clear bit of the bitmap block and set it; `0xFFFFFFFF` when there is none. -/
def bitmapSearchAndSet (bitmapBlock : Nat) : FsM Nat := do
  let buf ← bufRead bitmapBlock
  let data ← bufData buf
  match scan data blockSize 0 with
  | some (byte, shift, bitCmp) =>
      setBufData buf (Function.update data byte (data byte ||| bitCmp))
      bufWrite buf
      bufRelease buf
      return byte * 8 + shift
  | none =>
      bufRelease buf
      return 0xFFFFFFFF

/-- Clear a bit; a bit that is clear already is only reported. The byte index is not
checked by the code, so a number past the block is an access outside `buf->data`. -/
def bitmapUnset (bitmapBlock num : Nat) : FsM Unit := do
  let byte := num / 8
  let shift := num % 8
  let bitCmp : UInt8 := 1 <<< UInt8.ofNat shift
  let buf ← bufRead bitmapBlock
  if byte ≥ blockSize then panic .outOfBounds
  let data ← bufData buf
  if data byte &&& bitCmp = 0 then
    bufRelease buf
  else
    setBufData buf (Function.update data byte (data byte &&& ~~~ bitCmp))
    bufWrite buf
    bufRelease buf

def bitmapAllocBlock : FsM Nat := do
  let sb := (← state).sb
  let bit ← bitmapSearchAndSet sb.dataBitmapStart
  if bit = 0xFFFFFFFF then
    emit .allocFail
    return 0
  return u32 (bit + sb.dataStart)

def bitmapFreeBlock (blockNum : Nat) : FsM Unit := do
  let sb := (← state).sb
  if blockNum < sb.dataStart then return
  bitmapUnset sb.dataBitmapStart (blockNum - sb.dataStart)

def bitmapAllocInode : FsM Nat := do
  let sb := (← state).sb
  let bit ← bitmapSearchAndSet sb.inodeBitmapStart
  if bit = 0xFFFFFFFF then return 0xFFFF
  return bit % 2 ^ 16

def bitmapFreeInode (inodeNum : Nat) : FsM Unit := do
  let sb := (← state).sb
  bitmapUnset sb.inodeBitmapStart inodeNum

/-! ## Specifications -/

section

variable {held : List BufId} {s : State} {bb : Nat} {G : Event → Prop} {E : Panic → Prop}

/-- What a client must know before it reads a block: it is a block number, the client does
not hold it, and a buffer is free. -/
structure Readable (held : List BufId) (s : State) (b : Nat) : Prop where
  used : b ≠ blockNumUnused
  free : ∀ i ∈ held, (s.cache.bufs i).blockNum ≠ b
  room : held.length < 64

theorem readable_nil (s : State) {b : Nat} (h : b ≠ blockNumUnused) : Readable [] s b :=
  ⟨h, by simp, by simp⟩

/-- Outcome of the search: the smallest clear bit is set, or all bits are set. -/
inductive Searched (held : List BufId) (s : State) (bb : Nat) : Nat → State → Prop where
  | found {n : Nat} {s' : State} (lt : n < 8192) (clear : bitAt (s.view bb) n = false)
      (below : ∀ m < n, bitAt (s.view bb) m = true)
      (stored : Stored held s bb (setBit (s.view bb) n) s') : Searched held s bb n s'
  | full {s' : State} (all : ∀ m < 8192, bitAt (s.view bb) m = true)
      (loaded : Loaded held s s') : Searched held s bb 0xFFFFFFFF s'

theorem bitmapSearchAndSet_sat (hs : CacheInv held s) (hr : Readable held s bb)
    (hG : G (.diskWrite bb)) :
    Sat (bitmapSearchAndSet bb) s G (Searched held s bb) E := by
  unfold bitmapSearchAndSet
  refine (bufRead_sat hs hr.used hr.free hr.room).bind fun i s₁ p => ?_
  rw [sat_bind, sat_bufData, p.data]
  have hscan := scan_spec (s.view bb) blockSize 0
  revert hscan
  cases scan (s.view bb) blockSize 0 with
  | none =>
      intro hall
      refine p.release_sat hs fun s' l => ?_
      rw [sat_pure]
      exact .full (fun m hm => hall m (by omega) (by simpa [blockSize] using hm)) l
  | some q =>
      rcases q with ⟨byte, shift, bitCmp⟩
      rintro ⟨-, hbyte, hshift, rfl, hclear, hbelow⟩
      have hb : byte < 1024 := by simpa [blockSize] using hbyte
      have hd : (byte * 8 + shift) / 8 = byte := by omega
      have hm : (byte * 8 + shift) % 8 = shift := by omega
      refine p.store_sat hs hr.used hG fun s' st => ?_
      rw [sat_pure]
      refine .found (by omega) hclear (fun m hm => hbelow m (by omega) hm) ?_
      rwa [setBit, hd, hm]

/-- Outcome of `bitmap_unset`: the bit is cleared, or was clear already. -/
inductive Unset (held : List BufId) (s : State) (bb n : Nat) (s' : State) : Prop where
  | was (clear : bitAt (s.view bb) n = false) (loaded : Loaded held s s')
  | done (set : bitAt (s.view bb) n = true)
      (stored : Stored held s bb (clearBit (s.view bb) n) s')

theorem bitmapUnset_sat (hs : CacheInv held s) (hr : Readable held s bb)
    (hG : G (.diskWrite bb)) {n : Nat} (hn : n < 8192) :
    Sat (bitmapUnset bb n) s G (fun _ s' => Unset held s bb n s') E := by
  unfold bitmapUnset
  refine (bufRead_sat hs hr.used hr.free hr.room).bind fun i s₁ p => ?_
  have hin : ¬ n / 8 ≥ blockSize := by unfold blockSize; omega
  rw [if_neg hin, sat_bind, sat_bufData, p.data, one_shiftLeft (Nat.mod_lt _ (by omega))]
  have hbit : s.view bb (n / 8) &&& mask (n % 8) = 0 ↔ bitAt (s.view bb) n = false := by
    rw [UInt8.and_comm, mask_and_eq_zero _ (Nat.mod_lt _ (by omega)), bitAt]
  by_cases hc : bitAt (s.view bb) n = false
  · rw [if_pos (hbit.mpr hc)]
    exact (bufRelease_sat p.inv p.fresh).imp fun _ s' r => .was hc (p.loaded hs r)
  · rw [if_neg fun h => hc (hbit.mp h)]
    have hstore := p.store_sat (d := clearBit (s.view bb) n) (k := pure) (Q := fun _ s' =>
      Unset held s bb n s') (E := E) hs hr.used hG fun s' st => by
        rw [sat_pure]
        exact .done (by simpa using hc) st
    simpa only [sat_bind, sat_pure, clearBit] using hstore

end

end WhuOs.Fs
