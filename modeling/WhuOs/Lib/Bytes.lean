import Mathlib.Data.Nat.Basic
import Mathlib.Algebra.Order.Ring.Nat
import Mathlib.Tactic.Ring

/-! # Byte regions and little-endian fields

A memory region is a function from offsets to bytes; code reads and writes it at
offsets inside its own bounds. `splice` is the effect of copying a range into a
region, `window` the region seen from an offset, and `getLE` the value of a
little-endian field.
-/

namespace WhuOs

abbrev Bytes := Nat → UInt8

namespace Bytes

/-- The region seen from offset `off` on. -/
def window (b : Bytes) (off : Nat) : Bytes := fun i => b (off + i)

/-- Copy the first `n` bytes of `src` into `b` at offset `off`. -/
def splice (b : Bytes) (off : Nat) (src : Bytes) (n : Nat) : Bytes := fun i =>
  if off ≤ i ∧ i < off + n then src (i - off) else b i

/-- The little-endian value of the `n` bytes at `off`. -/
def getLE (b : Bytes) (off : Nat) : Nat → Nat
  | 0 => 0
  | n + 1 => (b off).toNat + 256 * getLE b (off + 1) n

/-- The little-endian bytes of a number. -/
def leBytes (v : Nat) : Bytes := fun i => UInt8.ofNat (v / 256 ^ i)

/-- Overwrite the `n`-byte field at `off`. -/
def putLE (b : Bytes) (off n v : Nat) : Bytes := splice b off (leBytes v) n

theorem splice_in {b src : Bytes} {off n i : Nat} (h₁ : off ≤ i) (h₂ : i < off + n) :
    splice b off src n i = src (i - off) := by
  simp [splice, h₁, h₂]

theorem splice_out {b src : Bytes} {off n i : Nat} (h : i < off ∨ off + n ≤ i) :
    splice b off src n i = b i := by
  unfold splice
  rw [if_neg (by omega)]

@[simp] theorem splice_zero (b src : Bytes) (off : Nat) : splice b off src 0 = b := by
  funext i
  exact splice_out (by omega)

theorem splice_splice_append (b src : Bytes) (off m n : Nat) :
    splice (splice b off src m) (off + m) (window src m) n = splice b off src (m + n) := by
  funext i
  simp only [splice, window]
  split
  · rw [if_pos (by omega)]
    congr 1
    omega
  · split
    · rw [if_pos (by omega)]
    · rw [if_neg (by omega)]

theorem splice_congr {b src src' : Bytes} {off n : Nat} (h : ∀ i < n, src i = src' i) :
    splice b off src n = splice b off src' n := by
  funext i
  simp only [splice]
  split
  · exact h _ (by omega)
  · rfl

/-- Writing back what is already there changes nothing. -/
theorem splice_self {b src : Bytes} {off n : Nat} (h : ∀ i < n, src i = b (off + i)) :
    splice b off src n = b := by
  funext i
  simp only [splice]
  split
  · rw [h _ (by omega)]
    congr 1
    omega
  · rfl

theorem window_splice_same (b src : Bytes) (off n i : Nat) (h : i < n) :
    window (splice b off src n) off i = src i := by
  rw [window, splice_in (by omega) (by omega), Nat.add_sub_cancel_left]

theorem getLE_congr {b b' : Bytes} {n off off' : Nat}
    (h : ∀ i < n, b (off + i) = b' (off' + i)) : getLE b off n = getLE b' off' n := by
  induction n generalizing off off' with
  | zero => rfl
  | succ n ih =>
      have h0 := h 0 (by omega)
      simp only [Nat.add_zero] at h0
      have hr : getLE b (off + 1) n = getLE b' (off' + 1) n := by
        apply ih
        intro i hi
        have hs := h (i + 1) (by omega)
        simpa [Nat.add_assoc, Nat.add_comm 1 i] using hs
      simp only [getLE, h0, hr]

theorem getLE_lt (b : Bytes) (off n : Nat) : getLE b off n < 256 ^ n := by
  induction n generalizing off with
  | zero => simp [getLE]
  | succ n ih =>
      have hb : (b off).toNat < 256 := (b off).toNat_lt
      have hr := ih (off + 1)
      rw [getLE, Nat.pow_succ]
      omega

theorem getLE_leBytes (v p n : Nat) : getLE (leBytes v) p n = v / 256 ^ p % 256 ^ n := by
  induction n generalizing p with
  | zero => simp [getLE, Nat.mod_one]
  | succ n ih =>
      have hb : (leBytes v p).toNat = v / 256 ^ p % 256 := by
        simp [leBytes, UInt8.toNat_ofNat']
      rw [getLE, hb, ih, Nat.pow_succ 256 n, Nat.mul_comm (256 ^ n) 256, Nat.mod_mul,
        Nat.pow_succ 256 p, Nat.div_div_eq_div_mul]

theorem getLE_splice_same {b src : Bytes} {off n : Nat} :
    getLE (splice b off src n) off n = getLE src 0 n :=
  getLE_congr fun i hi => by
    rw [splice_in (by omega) (by omega)]
    congr 1
    omega

theorem getLE_splice_disjoint {b src : Bytes} {off off' n m : Nat}
    (h : off' + m ≤ off ∨ off + n ≤ off') :
    getLE (splice b off src n) off' m = getLE b off' m :=
  getLE_congr fun _ _ => splice_out (by omega)

theorem getLE_putLE_same (b : Bytes) (off n v : Nat) :
    getLE (putLE b off n v) off n = v % 256 ^ n := by
  simp [putLE, getLE_splice_same, getLE_leBytes]

theorem leBytes_getLE {b : Bytes} {off n i : Nat} (h : i < n) :
    leBytes (getLE b off n) i = b (off + i) := by
  induction n generalizing off i with
  | zero => omega
  | succ n ih =>
      have hb : (b off).toNat < 256 := (b off).toNat_lt
      unfold leBytes
      cases i with
      | zero =>
          rw [getLE, Nat.pow_zero, Nat.div_one]
          apply UInt8.toNat.inj
          rw [UInt8.toNat_ofNat', Nat.add_mul_mod_self_left, Nat.mod_eq_of_lt hb, Nat.add_zero]
      | succ i =>
          have hdiv : getLE b off (n + 1) / 256 ^ (i + 1) = getLE b (off + 1) n / 256 ^ i := by
            rw [getLE, Nat.pow_succ', ← Nat.div_div_eq_div_mul,
              Nat.add_mul_div_left _ _ (by decide),
              Nat.div_eq_of_lt hb, Nat.zero_add]
          have hi : leBytes (getLE b (off + 1) n) i = b (off + 1 + i) := ih (by omega)
          unfold leBytes at hi
          rw [hdiv, hi, Nat.add_assoc, Nat.add_comm 1 i]

/-- Writing the value a field has changes nothing. -/
theorem putLE_getLE (b : Bytes) (off n : Nat) : putLE b off n (getLE b off n) = b :=
  splice_self fun _ hi => leBytes_getLE hi

theorem getLE_zero (off n : Nat) : getLE (fun _ => 0) off n = 0 := by
  induction n generalizing off with
  | zero => rfl
  | succ n ih => simp [getLE, ih]

/-! ## Arrays of 32-bit words -/

/-- The `k`-th little-endian 32-bit word of a region. -/
def word (b : Bytes) (k : Nat) : Nat := getLE b (4 * k) 4

def setWord (b : Bytes) (k v : Nat) : Bytes := putLE b (4 * k) 4 v

theorem word_setWord_same (b : Bytes) (k v : Nat) (h : v < 2 ^ 32) :
    word (setWord b k v) k = v := by
  rw [word, setWord, getLE_putLE_same]
  exact Nat.mod_eq_of_lt h

theorem word_setWord_ne (b : Bytes) {k j : Nat} (v : Nat) (h : j ≠ k) :
    word (setWord b k v) j = word b j :=
  getLE_splice_disjoint (by omega)

@[simp] theorem word_zero (k : Nat) : word (fun _ => 0) k = 0 := getLE_zero _ _

end Bytes
end WhuOs
