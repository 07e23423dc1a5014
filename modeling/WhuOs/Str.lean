import WhuOs.Mem.Types

/-! # `memmove` (`kernel/lib/str.c`)

The two loops of `memmove` on a memory of bytes, with pointers of 64 bits. The
direction is chosen so that no byte of the source is overwritten before it is read;
both loops then have the effect of copying the range at once.
-/

namespace WhuOs.Str

open Bytes Mem

/-- `*d = b` -/
def storeAt (m : Bytes) (d : Nat) (b : UInt8) : Bytes := Function.update m d b

/-- `while(n-- > 0) *--d = *--s;` -/
def copyDown (m : Bytes) (d s : Nat) : Nat → Bytes
  | 0 => m
  | n + 1 => copyDown (storeAt m (sub64 d 1) (m (sub64 s 1))) (sub64 d 1) (sub64 s 1) n

/-- `while(n-- > 0) *d++ = *s++;` -/
def copyUp (m : Bytes) (d s : Nat) : Nat → Bytes
  | 0 => m
  | n + 1 => copyUp (storeAt m d (m s)) (u64 (d + 1)) (u64 (s + 1)) n

/-- `memmove`: the returned pointer and the memory. -/
def memmove (m : Bytes) (dst src n : Nat) : Nat × Bytes :=
  if n = 0 then (dst, m)
  else if src < dst ∧ u64 (src + n) > dst then (dst, copyDown m (u64 (dst + n)) (u64 (src + n)) n)
  else (dst, copyUp m dst src n)

section

variable {m : Bytes} {a d s dst src n : Nat}

@[simp] theorem storeAt_same (m : Bytes) (d : Nat) (b : UInt8) : storeAt m d b d = b :=
  Function.update_self ..

theorem storeAt_ne {b : UInt8} (h : a ≠ d) : storeAt m d b a = m a := Function.update_of_ne h ..

/-! ## Upwards -/

/-- The first byte, then the others: the source is not overwritten where it is still to be read. -/
theorem splice_up (h : d ≤ s ∨ s + (n + 1) ≤ d) :
    splice (storeAt m d (m s)) (d + 1) (window (storeAt m d (m s)) (s + 1)) n =
      splice m d (window m s) (n + 1) := by
  funext a
  by_cases hd : a = d
  · subst hd
    rw [splice_out (by omega), storeAt_same, splice_in (Nat.le_refl a) (by omega), Nat.sub_self]
    rfl
  · by_cases hin : d + 1 ≤ a ∧ a < d + 1 + n
    · have hread : s + 1 + (a - (d + 1)) = s + (a - d) := by omega
      rw [splice_in hin.1 hin.2, splice_in (by omega) (by omega)]
      unfold window
      rw [hread]
      exact storeAt_ne (by omega)
    · rw [splice_out (by omega), splice_out (by omega), storeAt_ne hd]

theorem copyUp_eq (h : d ≤ s ∨ s + n ≤ d) (hd : d + n ≤ 2 ^ 64) (hs : s + n ≤ 2 ^ 64) :
    copyUp m d s n = splice m d (window m s) n := by
  induction n generalizing m d s with
  | zero => rw [copyUp, splice_zero]
  | succ n ih =>
      rw [copyUp, ← splice_up h]
      cases n with
      | zero => rw [copyUp, splice_zero]
      | succ n =>
          have hd' : u64 (d + 1) = d + 1 := Nat.mod_eq_of_lt (by omega)
          have hs' : u64 (s + 1) = s + 1 := Nat.mod_eq_of_lt (by omega)
          rw [hd', hs']
          apply ih
          · omega
          · omega
          · omega

/-! ## Downwards -/

/-- The last byte, then the others. -/
theorem splice_down (h : s < d) :
    splice (storeAt m (d + n) (m (s + n))) d (window (storeAt m (d + n) (m (s + n))) s) n
      = splice m d (window m s) (n + 1) := by
  funext a
  by_cases ha : a = d + n
  · subst ha
    rw [splice_out (by omega), storeAt_same, splice_in (by omega) (by omega),
      Nat.add_sub_cancel_left]
    rfl
  · by_cases hin : d ≤ a ∧ a < d + n
    · rw [splice_in hin.1 hin.2, splice_in (by omega) (by omega)]
      exact storeAt_ne (by omega)
    · rw [splice_out (by omega), splice_out (by omega), storeAt_ne ha]

theorem pred_end {p : Nat} (h : p + (n + 1) ≤ 2 ^ 64) : sub64 (u64 (p + (n + 1))) 1 = p + n := by
  unfold sub64 u64
  omega

theorem copyDown_eq (h : s < d) (hd : d + n ≤ 2 ^ 64) :
    copyDown m (u64 (d + n)) (u64 (s + n)) n = splice m d (window m s) n := by
  induction n generalizing m with
  | zero => rw [copyDown, splice_zero]
  | succ n ih =>
      rw [copyDown, pred_end hd, pred_end (by omega), ← splice_down h]
      have hd' : u64 (d + n) = d + n := Nat.mod_eq_of_lt (by omega)
      have hs' : u64 (s + n) = s + n := Nat.mod_eq_of_lt (by omega)
      have hrest := @ih (storeAt m (d + n) (m (s + n))) (by omega)
      rw [hd', hs'] at hrest
      exact hrest

/-! ## Every overlap -/

/-- `memmove` copies the range as if it were read before it is written. -/
theorem memmove_eq (hd : dst + n ≤ 2 ^ 64) (hs : src + n ≤ 2 ^ 64) :
    memmove m dst src n = (dst, splice m dst (window m src) n) := by
  unfold memmove
  by_cases hn : n = 0
  · subst hn
    rw [if_pos rfl, splice_zero]
  rw [if_neg hn]
  by_cases hc : src < dst ∧ u64 (src + n) > dst
  · rw [if_pos hc, copyDown_eq hc.1 hd]
  · rw [if_neg hc, copyUp_eq ?_ hd hs]
    by_contra hov
    -- the ranges overlap and the source begins first: its end is not the end of the address space
    have hu : u64 (src + n) = src + n := Nat.mod_eq_of_lt (by omega)
    rw [hu] at hc
    omega

/-- The bytes of the destination are those of the source before the call, the others are
unchanged. -/
theorem memmove_copies (m : Bytes) {dst src n : Nat} (hd : dst + n ≤ 2 ^ 64)
    (hs : src + n ≤ 2 ^ 64) :
    (memmove m dst src n).1 = dst ∧ (∀ i < n, (memmove m dst src n).2 (dst + i) = m (src + i)) ∧
      ∀ a, ¬ (dst ≤ a ∧ a < dst + n) → (memmove m dst src n).2 a = m a := by
  rw [memmove_eq hd hs]
  refine ⟨rfl, fun i hi => ?_, fun a ha => splice_out (by omega)⟩
  change splice m dst (window m src) n (dst + i) = m (src + i)
  rw [splice_in (by omega) (by omega), Nat.add_sub_cancel_left]
  rfl

/-- One byte up, over itself, at the end of the address space. -/
theorem memmove_copies_up :
    (memmove (fun a => if a = 2 ^ 64 - 2 then 7 else 0) (2 ^ 64 - 3) (2 ^ 64 - 4) 3).2
    (2 ^ 64 - 1) = 7 :=
  (memmove_copies _ (by decide) (by decide)).2.1 2 (by decide)

end

/-- In the kernel's memory `memmove` is this function. -/
theorem sat_memmove_loops {s : Kernel} {dst src n : Nat} {G : Event → Prop}
    {Q : Unit → Kernel → Prop}
    {E : Panic → Prop} (htext : s.etext ≤ dst) (hd : dst + n ≤ 2 ^ 64) (hs : src + n ≤ 2 ^ 64) :
    Prog.Sat (Mem.memmove dst src n) s G Q E ↔ Q () (s.setMem (memmove s.mem dst src n).2) := by
  rw [sat_memmove htext, memmove_eq hd hs]

end WhuOs.Str
