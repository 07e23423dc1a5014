import WhuOs.Mem.Kvm

/-! # Positions in a page table

A table page is named by the indices that lead to it from the root, the last one
first; the page of a virtual page number `v` is reached by two indices and its
entry by a third. `leaf` is the entry that `vm_getpte` finds for `v`, or 0.
-/

namespace WhuOs.Mem

open Prog Bytes

def entry (m : Bytes) (p i : Nat) : Nat := getLE m (pteAt p i) 8

def tableAt (m : Bytes) (r : Nat) : List Nat → Option Nat
  | [] => some r
  | i :: x => (tableAt m r x).bind fun p =>
      if hasFlag (entry m p i) pteV then some (pteToPa (entry m p i)) else none

def vpnIndex (v level : Nat) : Nat := v / 512 ^ level % 512

/-- The position of the lowest table on the way to a page. -/
def lowPos (v : Nat) : List Nat := [vpnIndex v 1, vpnIndex v 2]

/-- The entry of a virtual page, 0 where no table leads to it. -/
def leaf (m : Bytes) (r v : Nat) : Nat :=
  match tableAt m r (lowPos v) with
  | some p => entry m p (vpnIndex v 0)
  | none => 0

/-- The address of that entry, null where no table leads to it. -/
def slot (m : Bytes) (r v : Nat) : Nat :=
  match tableAt m r (lowPos v) with
  | some p => pteAt p (vpnIndex v 0)
  | none => 0

section

variable {m m' : Bytes} {p q r i j v w va pa perm level : Nat} {x y : List Nat}

/-! ## Entries -/

theorem hasFlag_pteV {e : Nat} : hasFlag e pteV = true ↔ e % 2 = 1 := by
  unfold hasFlag pteV
  rw [decide_eq_true_iff, Nat.and_one_is_mod]
  omega

theorem hasFlag_zero (f : Nat) : hasFlag 0 f = false := by
  simp [hasFlag]

theorem pteToPa_aligned (e : Nat) : pteToPa e % pgSize = 0 := by
  unfold pteToPa u64 pgSize
  omega

/-- The bits of an entry: the frame number above the flags. -/
theorem pte_eq_add {f : Nat} (hf : f < 2 ^ 10) :
    paToPte pa ||| f = pa / 2 ^ 12 * 2 ^ 10 + f := by
  unfold paToPte
  have h := Nat.two_pow_add_eq_or_of_lt hf (pa / 2 ^ 12)
  rw [Nat.mul_comm] at h
  exact h.symm

theorem pteToPa_pte {f : Nat} (hf : f < 2 ^ 10) (hpa : pa % pgSize = 0) (hlt : pa < 2 ^ 64) :
    pteToPa (paToPte pa ||| f) = pa := by
  rw [pte_eq_add hf]
  unfold pteToPa u64 pgSize at *
  omega

theorem pteFlags_pte {f : Nat} (hf : f < 2 ^ 10) : pteFlags (paToPte pa ||| f) = f := by
  rw [pte_eq_add hf]
  unfold pteFlags
  omega

/-- `PTE_CHECK` reads the flags only. -/
theorem pteCheck_flags (e : Nat) : pteCheck e = pteCheck (pteFlags e) := by
  have hlt : e &&& (pteR ||| pteW ||| pteX) < 2 ^ 10 :=
    Nat.lt_of_le_of_lt Nat.and_le_right (by decide)
  have hmod : (e &&& (pteR ||| pteW ||| pteX)) % 2 ^ 10 = pteFlags e &&& (pteR ||| pteW ||| pteX) :=
    Nat.and_mod_two_pow
  rw [Nat.mod_eq_of_lt hlt] at hmod
  unfold pteCheck
  rw [hmod]

theorem paToPte_lt (hpa : pa < 2 ^ 64) : paToPte pa < 2 ^ 62 := by
  unfold paToPte
  omega

theorem pte_lt (hpa : pa < 2 ^ 64) {f : Nat} (hf : f < 2 ^ 64) : paToPte pa ||| f < 2 ^ 64 :=
  Nat.or_lt_two_pow (Nat.lt_trans (paToPte_lt hpa) (by decide)) hf

/-- An entry that refers to a new table. -/
theorem table_pte (hpa : pa % pgSize = 0) (hlt : pa < 2 ^ 64) :
    pteToPa (paToPte pa ||| pteV) = pa ∧ hasFlag (paToPte pa ||| pteV) pteV = true := by
  refine ⟨pteToPa_pte (by decide) hpa hlt, ?_⟩
  rw [hasFlag_pteV, pte_eq_add (by decide)]
  unfold pteV
  omega

theorem entry_congr (hi : i < 512) (h : ∀ k < pgSize, m' (p + k) = m (p + k)) :
    entry m' p i = entry m p i := by
  refine getLE_congr fun k hk => ?_
  unfold pteAt
  rw [Nat.add_assoc]
  refine h _ ?_
  unfold pgSize
  omega

/-- Entries of table pages do not overlap. -/
theorem pteAt_apart (hp : p % pgSize = 0) (hq : q % pgSize = 0) (hi : i < 512) (hj : j < 512)
    (hne : ¬ (q = p ∧ j = i)) : pteAt q j + 8 ≤ pteAt p i ∨ pteAt p i + 8 ≤ pteAt q j := by
  unfold pteAt pgSize at *
  omega

theorem entry_store_same (hw : w < 2 ^ 64) : entry (putLE m (pteAt p i) 8 w) p i = w := by
  rw [entry, getLE_putLE_same]
  exact Nat.mod_eq_of_lt hw

theorem entry_store_ne (hp : p % pgSize = 0) (hq : q % pgSize = 0) (hi : i < 512) (hj : j < 512)
    (hne : ¬ (q = p ∧ j = i)) : entry (putLE m (pteAt p i) 8 w) q j = entry m q j :=
  getLE_putLE_disjoint (pteAt_apart hp hq hi hj hne)

/-- A write to an entry stays in its page. -/
theorem store_outside (hp : p % pgSize = 0) (hq : q % pgSize = 0) (hi : i < 512) (hne : q ≠ p)
    {k : Nat} (hk : k < pgSize) : putLE m (pteAt p i) 8 w (q + k) = m (q + k) := by
  have hap := pages_apart hq hp hne
  refine splice_out ?_
  unfold pteAt
  unfold pgSize at *
  omega

/-! ## Indices -/

theorem vpnIndex_lt (v level : Nat) : vpnIndex v level < 512 := Nat.mod_lt _ (by decide)

theorem vaToVpn_eq (va level : Nat) : vaToVpn va level = vpnIndex (va / pgSize) level := by
  have hp : 2 ^ (12 + 9 * level) = pgSize * 512 ^ level := by
    rw [Nat.pow_add, Nat.pow_mul]
    norm_num [pgSize]
  unfold vaToVpn vpnIndex
  rw [Nat.div_div_eq_div_mul, hp]

/-- The three indices determine the page number. -/
theorem vpnIndex_inj (hv : v < 2 ^ 27) (hw : w < 2 ^ 27) (h0 : vpnIndex v 0 = vpnIndex w 0)
    (hl : lowPos v = lowPos w) : v = w := by
  simp only [lowPos, List.cons.injEq, and_true] at hl
  unfold vpnIndex at *
  norm_num at *
  omega

theorem mem_lowPos (hi : i ∈ lowPos v) : i < 512 := by
  simp only [lowPos, List.mem_cons, List.not_mem_nil, or_false] at hi
  obtain rfl | rfl := hi
  · exact vpnIndex_lt _ _
  · exact vpnIndex_lt _ _

/-! ## Positions -/

theorem tableAt_cons : tableAt m r (i :: x) = some q ↔
    ∃ p, tableAt m r x = some p ∧ hasFlag (entry m p i) pteV = true ∧
    pteToPa (entry m p i) = q := by
  rw [tableAt]
  cases tableAt m r x with
  | none => simp
  | some p => simp

/-- Tables are read off the entries of the pages above. -/
theorem tableAt_congr (hx : ∀ i ∈ x, i < 512)
    (h : ∀ y i, i :: y <:+ x → ∀ p, tableAt m r y = some p → entry m' p i = entry m p i) :
    tableAt m' r x = tableAt m r x := by
  induction x with
  | nil => rfl
  | cons i x ih =>
      have hx' := ih (fun j hj => hx j (List.mem_cons_of_mem _ hj)) fun y j hy =>
        h y j (hy.trans (List.suffix_cons i x))
      rw [tableAt, tableAt, hx']
      cases ht : tableAt m r x with
      | none => rw [Option.bind_none, Option.bind_none]
      | some p => simp only [Option.bind_some, h x i List.suffix_rfl p ht]

theorem leaf_eq (h : tableAt m r (lowPos v) = some p) : leaf m r v = entry m p (vpnIndex v 0) := by
  simp [leaf, h]

theorem leaf_ne_zero (h : leaf m r v ≠ 0) : ∃ p, tableAt m r (lowPos v) = some p := by
  unfold leaf at h
  split at h
  · next p hp => exact ⟨p, hp⟩
  · exact absurd rfl h

theorem slot_eq (h : tableAt m r (lowPos v) = some p) : slot m r v = pteAt p (vpnIndex v 0) := by
  simp [slot, h]

/-! ## `vm_getpte` without allocation -/

variable {s : Kernel} {alloc : Bool} {G : Event → Prop} {E : Panic → Prop} {Q : Nat → Kernel → Prop}

theorem getpteLoop_zero : Sat (getpteLoop va alloc 0 p) s G Q E ↔
    Q (pteAt p (vpnIndex (va / pgSize) 0)) s := by
  rw [getpteLoop, sat_pure, vaToVpn_eq]

/-- One level down through a valid entry. -/
theorem getpteLoop_valid
    (h : hasFlag (entry s.mem p (vpnIndex (va / pgSize) (level + 1))) pteV = true) :
    Sat (getpteLoop va alloc (level + 1) p) s G Q E ↔
      Sat (getpteLoop va alloc level (pteToPa (entry s.mem p (vpnIndex (va / pgSize) (level + 1)))))
        s G Q E := by
  rw [getpteLoop, sat_bind, sat_load, vaToVpn_eq]
  exact iff_of_eq (congrArg (fun c => Sat c s G Q E) (if_pos h))

/-- One level down through an invalid entry. -/
theorem getpteLoop_invalid
    (h : hasFlag (entry s.mem p (vpnIndex (va / pgSize) (level + 1))) pteV = false) :
    Sat (getpteLoop va alloc (level + 1) p) s G Q E ↔
      Sat (if !alloc then pure 0 else do
        let new ← allocPgtbl
        if new = 0 then return 0
        store (pteAt p (vpnIndex (va / pgSize) (level + 1))) (paToPte new ||| pteV)
        getpteLoop va alloc level new) s G Q E := by
  rw [getpteLoop, sat_bind, sat_load, vaToVpn_eq]
  exact iff_of_eq (congrArg (fun c => Sat c s G Q E) (if_neg (by rw [entry] at h; simp [h])))

/-- `vm_getpte(.., false)` reads the tables and changes nothing. -/
theorem vmGetpte_sat (hva : va < vaMax) :
    Sat (vmGetpte r va false) s G Q E ↔ Q (slot s.mem r (va / pgSize)) s := by
  unfold vmGetpte
  rw [if_neg (by omega)]
  cases h2 : hasFlag (entry s.mem r (vpnIndex (va / pgSize) 2)) pteV with
  | false =>
      rw [getpteLoop_invalid h2]
      simp [slot, lowPos, tableAt, h2]
  | true =>
      rw [getpteLoop_valid h2]
      cases h1 : hasFlag (entry s.mem (pteToPa (entry s.mem r (vpnIndex (va / pgSize) 2)))
          (vpnIndex (va / pgSize) 1)) pteV with
      | false =>
          rw [getpteLoop_invalid h1]
          simp [slot, lowPos, tableAt, h1, h2]
      | true =>
          rw [getpteLoop_valid h1, getpteLoop_zero]
          simp [slot, lowPos, tableAt, h1, h2]

end

end WhuOs.Mem
