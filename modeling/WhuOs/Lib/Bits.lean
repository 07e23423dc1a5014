import WhuOs.Lib.Bytes
import Mathlib.Data.Nat.Bitwise
import Mathlib.Logic.Function.Basic

/-! # Bit sets stored in byte regions

Bit `n` of a region is bit `n % 8` of byte `n / 8`. `scan` is the nested
byte/shift search with a shifting mask; it finds the smallest clear bit of the
scanned bytes.
-/

namespace WhuOs

namespace Bits

/-- The one-bit mask of a position inside a byte. -/
def mask (shift : Nat) : UInt8 := UInt8.ofNat (2 ^ shift)

def bitAt (b : Bytes) (n : Nat) : Bool := (b (n / 8)).toNat.testBit (n % 8)

def setBit (b : Bytes) (n : Nat) : Bytes :=
  Function.update b (n / 8) (b (n / 8) ||| mask (n % 8))

def clearBit (b : Bytes) (n : Nat) : Bytes :=
  Function.update b (n / 8) (b (n / 8) &&& ~~~ mask (n % 8))

/-- Inner loop: shift the mask until it meets a clear bit of the byte. -/
def scanByte (d : UInt8) : Nat → UInt8 → Nat → Option (Nat × UInt8)
  | 0, _, _ => none
  | fuel + 1, bitCmp, shift =>
      if bitCmp &&& d = 0 then some (shift, bitCmp)
      else scanByte d fuel (bitCmp <<< 1) (shift + 1)

/-- Outer loop over `count` bytes from `byte` on. -/
def scan (b : Bytes) : Nat → Nat → Option (Nat × Nat × UInt8)
  | 0, _ => none
  | count + 1, byte =>
      match scanByte (b byte) 8 1 0 with
      | some (shift, bitCmp) => some (byte, shift, bitCmp)
      | none => scan b count (byte + 1)

/-! ## Masks -/

theorem mask_zero : mask 0 = 1 := rfl

theorem mask_toNat {k : Nat} (h : k < 8) : (mask k).toNat = 2 ^ k := by
  have hp : 2 ^ k < 2 ^ 8 := Nat.pow_lt_pow_right (by omega) h
  simp only [mask, UInt8.toNat_ofNat']
  exact Nat.mod_eq_of_lt hp

theorem one_shiftLeft {k : Nat} (h : k < 8) : (1 : UInt8) <<< UInt8.ofNat k = mask k := by
  apply UInt8.toNat_inj.mp
  have hp : 2 ^ k < 2 ^ 8 := Nat.pow_lt_pow_right (by omega) h
  have hk : k % 2 ^ 8 % 8 = k := by omega
  rw [UInt8.toNat_shiftLeft, mask_toNat h, UInt8.toNat_ofNat', hk]
  simp only [UInt8.reduceToNat, Nat.shiftLeft_eq, Nat.one_mul]
  exact Nat.mod_eq_of_lt hp

theorem mask_shiftLeft {k : Nat} (h : k < 7) : mask k <<< 1 = mask (k + 1) := by
  apply UInt8.toNat_inj.mp
  rw [UInt8.toNat_shiftLeft, mask_toNat (by omega), mask_toNat (by omega)]
  have hp : 2 ^ (k + 1) < 2 ^ 8 := Nat.pow_lt_pow_right (by omega) (by omega)
  simp only [UInt8.reduceToNat, Nat.reduceMod, Nat.shiftLeft_eq, ← Nat.pow_succ]
  exact Nat.mod_eq_of_lt hp

theorem mask_and_eq_zero (d : UInt8) {k : Nat} (h : k < 8) :
    mask k &&& d = 0 ↔ d.toNat.testBit k = false := by
  rw [← UInt8.toNat_inj, UInt8.toNat_and, mask_toNat h, Nat.two_pow_and]
  cases d.toNat.testBit k <;> simp

theorem testBit_or_mask (d : UInt8) {k : Nat} (h : k < 8) (j : Nat) :
    (d ||| mask k).toNat.testBit j = (decide (j = k) || d.toNat.testBit j) := by
  rw [UInt8.toNat_or, mask_toNat h, Nat.testBit_or, Nat.testBit_two_pow, Bool.or_comm]
  simp [eq_comm]

theorem testBit_and_not_mask (d : UInt8) {k j : Nat} (h : k < 8) (hj : j < 8) :
    (d &&& ~~~ mask k).toNat.testBit j = (decide (j ≠ k) && d.toNat.testBit j) := by
  have hp : 2 ^ k < 2 ^ 8 := Nat.pow_lt_pow_right (by omega) h
  rw [UInt8.toNat_and, Nat.testBit_and, Bool.and_comm]
  congr 1
  rw [UInt8.toNat_not, mask_toNat h]
  have hs : UInt8.size - 1 - 2 ^ k = 2 ^ 8 - (2 ^ k + 1) := by simp [UInt8.size]
  rw [hs, Nat.testBit_two_pow_sub_succ hp, Nat.testBit_two_pow]
  simp [hj, eq_comm]

/-! ## Updates -/

theorem bitAt_setBit (b : Bytes) (n m : Nat) :
    bitAt (setBit b n) m = (decide (m = n) || bitAt b m) := by
  unfold bitAt setBit
  by_cases hb : m / 8 = n / 8
  · rw [hb, Function.update_self, testBit_or_mask _ (Nat.mod_lt _ (by omega))]
    congr 1
    simp only [decide_eq_decide]
    omega
  · rw [Function.update_of_ne hb]
    have hn : m ≠ n := fun h => hb (h ▸ rfl)
    simp [hn]

theorem bitAt_clearBit (b : Bytes) (n m : Nat) :
    bitAt (clearBit b n) m = (decide (m ≠ n) && bitAt b m) := by
  unfold bitAt clearBit
  by_cases hb : m / 8 = n / 8
  · rw [hb, Function.update_self, testBit_and_not_mask _ (Nat.mod_lt _ (by omega))
      (Nat.mod_lt _ (by omega))]
    congr 1
    simp only [decide_eq_decide]
    omega
  · rw [Function.update_of_ne hb]
    have hn : m ≠ n := fun h => hb (h ▸ rfl)
    simp [hn]

/-- Clearing a clear bit changes nothing. -/
theorem clearBit_of_clear {b : Bytes} {n : Nat} (h : bitAt b n = false) : clearBit b n = b := by
  have hbyte : b (n / 8) &&& ~~~ mask (n % 8) = b (n / 8) := by
    apply UInt8.toNat_inj.mp
    apply Nat.eq_of_testBit_eq
    intro j
    by_cases hj : j < 8
    · rw [testBit_and_not_mask _ (Nat.mod_lt _ (by omega)) hj]
      by_cases he : j = n % 8
      · rw [he]
        simpa [bitAt] using h
      · simp [he]
    · have hlt : ∀ x : UInt8, x.toNat.testBit j = false := fun x =>
        Nat.testBit_lt_two_pow
          (lt_of_lt_of_le x.toNat_lt (Nat.pow_le_pow_right (by omega) (by omega)))
      rw [hlt, hlt]
  rw [clearBit, hbyte, Function.update_eq_self]

/-! ## Search -/

theorem bitAt_byte (b : Bytes) (byte : Nat) {k : Nat} (h : k < 8) :
    bitAt b (byte * 8 + k) = (b byte).toNat.testBit k := by
  have hd : (byte * 8 + k) / 8 = byte := by omega
  have hm : (byte * 8 + k) % 8 = k := by omega
  rw [bitAt, hd, hm]

/-- What the inner loop returns from position `shift` on. -/
theorem scanByte_spec (d : UInt8) (fuel shift : Nat) (hf : fuel + shift = 8) :
    match scanByte d fuel (mask shift) shift with
    | some (k, m) => shift ≤ k ∧ k < 8 ∧ m = mask k ∧ d.toNat.testBit k = false ∧
        ∀ j, shift ≤ j → j < k → d.toNat.testBit j = true
    | none => ∀ j, shift ≤ j → j < 8 → d.toNat.testBit j = true := by
  induction fuel generalizing shift with
  | zero => intro j h₁ h₂; omega
  | succ fuel ih =>
      unfold scanByte
      by_cases hz : mask shift &&& d = 0
      · rw [if_pos hz]
        exact ⟨le_refl _, by omega, rfl, (mask_and_eq_zero d (by omega)).mp hz,
          fun j h₁ h₂ => by omega⟩
      · rw [if_neg hz]
        have hset : d.toNat.testBit shift = true := by
          rw [mask_and_eq_zero d (by omega)] at hz
          simpa using hz
        have step : ∀ j, shift ≤ j → (shift + 1 ≤ j → d.toNat.testBit j = true) →
            d.toNat.testBit j = true := by
          intro j hj hrest
          by_cases he : j = shift
          · rw [he]; exact hset
          · exact hrest (by omega)
        by_cases hlast : shift = 7
        · obtain rfl : fuel = 0 := by omega
          intro j h₁ h₂
          exact step j h₁ fun h => by omega
        · rw [mask_shiftLeft (by omega)]
          have hr := ih (shift + 1) (by omega)
          revert hr
          cases scanByte d fuel (mask (shift + 1)) (shift + 1) with
          | none => exact fun hr j h₁ h₂ => step j h₁ fun h => hr j h h₂
          | some p =>
              rintro ⟨h₁, h₂, h₃, h₄, h₅⟩
              exact ⟨by omega, h₂, h₃, h₄, fun j g₁ g₂ => step j g₁ fun h => h₅ j h g₂⟩

/-- The search finds the smallest clear bit of the scanned bytes. -/
theorem scan_spec (b : Bytes) (count byte : Nat) :
    match scan b count byte with
    | some (q, k, m) => byte ≤ q ∧ q < byte + count ∧ k < 8 ∧ m = mask k ∧
        bitAt b (q * 8 + k) = false ∧
        ∀ n, byte * 8 ≤ n → n < q * 8 + k → bitAt b n = true
    | none => ∀ n, byte * 8 ≤ n → n < (byte + count) * 8 → bitAt b n = true := by
  induction count generalizing byte with
  | zero => intro n h₁ h₂; omega
  | succ count ih =>
      have hbyte := scanByte_spec (b byte) 8 0 rfl
      rw [mask_zero] at hbyte
      unfold scan
      revert hbyte
      cases scanByte (b byte) 8 1 0 with
      | some p =>
          rintro ⟨-, hk, hm, hc, hs⟩
          refine ⟨le_refl _, by omega, hk, hm, by rw [bitAt_byte b byte hk]; exact hc, ?_⟩
          intro n h₁ h₂
          have hn : n = byte * 8 + n % 8 := by omega
          rw [hn, bitAt_byte b byte (by omega)]
          exact hs _ (Nat.zero_le _) (by omega)
      | none =>
          intro hs
          have here : ∀ n, byte * 8 ≤ n → n < (byte + 1) * 8 → bitAt b n = true := by
            intro n h₁ h₂
            have hn : n = byte * 8 + n % 8 := by omega
            rw [hn, bitAt_byte b byte (by omega)]
            exact hs _ (Nat.zero_le _) (by omega)
          have hr := ih (byte + 1)
          dsimp only
          revert hr
          cases scan b count (byte + 1) with
          | none =>
              intro hr n h₁ h₂
              by_cases hn : n < (byte + 1) * 8
              · exact here n h₁ hn
              · exact hr n (by omega) (by omega)
          | some p =>
              rintro ⟨g₁, g₂, g₃, g₄, g₅, g₆⟩
              refine ⟨by omega, by omega, g₃, g₄, g₅, ?_⟩
              intro n h₁ h₂
              by_cases hn : n < (byte + 1) * 8
              · exact here n h₁ hn
              · exact g₆ n (by omega) h₂

end Bits
end WhuOs
