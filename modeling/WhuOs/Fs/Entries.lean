import WhuOs.Fs.Volume

/-! # Directory entries as names and inode numbers

The 32 raw bytes of a directory entry hold an inode number and a name field;
`direntOf` reads them as an optional pair, and `ents` reads a whole directory of a
disk. The C string functions on names are shown to be comparison and copying of
the strings in the fields.
-/

namespace WhuOs.Fs

open Bytes Bits

/-! ## Strings in fields -/

/-- The string in the `n` bytes at `i`: what stands before the first NUL. -/
def cstrFrom (b : Bytes) : Nat → Nat → Name
  | 0, _ => []
  | n + 1, i => if b i = 0 then [] else b i :: cstrFrom b n (i + 1)

def cstr (b : Bytes) (n : Nat) : Name := cstrFrom b n 0

section

variable {b b' p q : Bytes} {n i : Nat} {t : Name}

theorem cstrFrom_congr (n i : Nat) (h : ∀ j, i ≤ j → j < i + n → b j = b' j) :
    cstrFrom b n i = cstrFrom b' n i := by
  induction n generalizing i with
  | zero => rfl
  | succ n ih =>
      rw [cstrFrom, cstrFrom, h i (by omega) (by omega), ih (i + 1) fun j hj hlt =>
        h j (by omega) (by omega)]

theorem cstr_congr (h : ∀ j < n, b j = b' j) : cstr b n = cstr b' n :=
  cstrFrom_congr n 0 fun j _ hj => h j (by omega)

theorem strncmpFrom_eq_zero (p q : Bytes) (n i : Nat) :
    strncmpFrom p q n i = 0 ↔ cstrFrom p n i = cstrFrom q n i := by
  induction n generalizing i with
  | zero => simp [strncmpFrom, cstrFrom]
  | succ n ih =>
      rw [strncmpFrom, cstrFrom, cstrFrom]
      by_cases hp : p i = 0
      · by_cases hq : q i = 0
        · simp [hp, hq]
        · have hne : (q i).toNat ≠ 0 := fun h => hq (UInt8.toNat_inj.mp h)
          rw [if_neg (by simp [hp]), if_pos hp, if_neg hq, hp]
          simp [hne]
      · by_cases hq : q i = 0
        · have hne : (p i).toNat ≠ 0 := fun h => hp (UInt8.toNat_inj.mp h)
          rw [if_neg (by rw [hq]; exact fun h => h.1 h.2), if_neg hp, if_pos hq, hq]
          simp [hne]
        · rw [if_neg hp, if_neg hq]
          by_cases he : p i = q i
          · rw [if_pos ⟨hp, he⟩, ih, he]
            simp
          · have hne : (p i).toNat ≠ (q i).toNat := fun h => he (UInt8.toNat_inj.mp h)
            rw [if_neg fun h => he h.2, List.cons.injEq]
            simp only [he, false_and, iff_false]
            omega

theorem strncmp_eq_zero : strncmp p q n = 0 ↔ cstr p n = cstr q n := strncmpFrom_eq_zero p q n 0

/-- A string at its address, cut after `n` characters. -/
theorem cstrFrom_bytesOf (h : 0 ∉ t) (n i : Nat) :
    cstrFrom (bytesOf t) n i = (t.drop i).take n := by
  induction n generalizing i with
  | zero => rfl
  | succ n ih =>
      rw [cstrFrom, ih]
      by_cases hi : i < t.length
      · have hget : bytesOf t i = t[i] := by simp [bytesOf, hi]
        have hne : t[i] ≠ 0 := fun he => h (he ▸ List.getElem_mem hi)
        rw [hget, if_neg hne, List.drop_eq_getElem_cons hi, List.take_succ_cons]
      · have hget : bytesOf t i = 0 := by simp [bytesOf, Nat.not_lt.mp hi]
        rw [if_pos hget, List.drop_eq_nil_of_le (by omega), List.take_nil]

/-- A field that starts with a string and a NUL. -/
theorem cstrFrom_eq (h : 0 ∉ t) (n i : Nat) (hl : t.length < n)
    (hb : ∀ j ≤ t.length, b (i + j) = bytesOf t j) : cstrFrom b n i = t := by
  induction t generalizing n i with
  | nil =>
      obtain ⟨m, rfl⟩ : ∃ m, n = m + 1 := ⟨n - 1, by simp at hl; omega⟩
      have h0 : b i = 0 := hb 0 (Nat.le_refl _)
      rw [cstrFrom, if_pos h0]
  | cons c t ih =>
      obtain ⟨m, rfl⟩ : ∃ m, n = m + 1 := ⟨n - 1, by simp at hl; omega⟩
      have h0 : b i = c := hb 0 (Nat.zero_le _)
      have hc : c ≠ 0 := fun he => h (by simp [he])
      rw [cstrFrom, h0, if_neg hc, List.cons.injEq]
      refine ⟨rfl, ih (fun hm => h (List.mem_cons_of_mem _ hm)) m (i + 1) ?_ ?_⟩
      · simp only [List.length_cons] at hl
        omega
      · intro j hj
        have hs := hb (j + 1) (by simp only [List.length_cons]; omega)
        rw [Nat.add_assoc, Nat.add_comm 1 j, hs]
        rfl

end

/-! ## Entries -/

def entName (e : Bytes) : Name := cstr (direntName e) dirNameLen

def direntOf (e : Bytes) : Option (Name × Nat) :=
  if entName e = [] then none else some (entName e, direntInum e)

def slotAt (b : Block) (k : Nat) : Option (Name × Nat) := direntOf (window b (direntSize * k))

def dirBlock (x : DiskInode) : Nat := (x.addrs 0).toNat

def entCount (x : DiskInode) : Nat := x.size.toNat / direntSize

def entsOf (D : Disk) (x : DiskInode) (k : Nat) : Option (Name × Nat) :=
  if k < entCount x then slotAt (D (dirBlock x)) k else none

def ents (D : Disk) (d k : Nat) : Option (Name × Nat) := entsOf D (inoAt D d) k

def hit (name : Name) (o : Option (Name × Nat)) : Option Nat :=
  o.bind fun (nm, n) => if nm = name then some n else none

/-- The first entry with a name, among the `count` entries from `k` on. -/
def lookupFrom (t : Nat → Option (Name × Nat)) (name : Name) : Nat → Nat → Option Nat
  | 0, _ => none
  | count + 1, k => (hit name (t k)).or (lookupFrom t name count (k + 1))

section

variable {e e' : Bytes} {b : Block} {k j n : Nat} {name : Name}

theorem entName_congr (h : ∀ i < direntSize, e i = e' i) : entName e = entName e' := by
  apply cstr_congr
  intro j hj
  exact h (2 + j) (by unfold dirNameLen at hj; unfold direntSize; omega)

theorem direntOf_congr (h : ∀ i < direntSize, e i = e' i) : direntOf e = direntOf e' := by
  have hn : direntInum e = direntInum e' :=
    getLE_congr fun i hi => by
      have hs := h i (by unfold direntSize; omega)
      simpa using hs
  rw [direntOf, direntOf, entName_congr h, hn]

theorem entName_eq_nil : entName e = [] ↔ direntName e 0 = 0 := by
  rw [entName, cstr, dirNameLen, cstrFrom]
  split <;> simp_all

theorem direntOf_eq_none : direntOf e = none ↔ direntName e 0 = 0 := by
  rw [direntOf, ← entName_eq_nil]
  split <;> simp_all

theorem direntOf_some (h : direntOf e = some (name, n)) :
    entName e = name ∧ direntInum e = n ∧ name ≠ [] := by
  unfold direntOf at h
  split at h
  · cases h
  · next hne =>
    cases h
    exact ⟨rfl, rfl, hne⟩

/-- The comparison of the search loops: it reads at most `DIR_NAME_LEN` characters of the name. -/
theorem direntMatches_iff (h0 : 0 ∉ name) :
    direntMatches e name = true ↔ ∃ n, direntOf e = some (name.take dirNameLen, n) := by
  rw [direntMatches, Bool.and_eq_true, decide_eq_true_eq, decide_eq_true_eq, strncmp_eq_zero, cstr,
    cstrFrom_bytesOf h0, List.drop_zero]
  change _ ∧ name.take dirNameLen = entName e ↔ _
  constructor
  · rintro ⟨hd, he⟩
    have hne : entName e ≠ [] := fun hn => hd (entName_eq_nil.mp hn)
    exact ⟨direntInum e, by rw [direntOf, if_neg hne, he]⟩
  · rintro ⟨n, hn⟩
    obtain ⟨h1, -, h2⟩ := direntOf_some hn
    refine ⟨fun hz => ?_, h1.symm⟩
    rw [direntOf_eq_none.mpr hz] at hn
    cases hn

/-- What the search loops do with one entry. -/
theorem hit_direntOf (h0 : 0 ∉ name) : hit (name.take dirNameLen) (direntOf e) =
    if direntMatches e name then some (direntInum e) else none := by
  split
  · next hm =>
    obtain ⟨n, hn⟩ := (direntMatches_iff h0).mp hm
    obtain ⟨-, hi, -⟩ := direntOf_some hn
    simp [hit, hn, hi]
  · next hm =>
    unfold hit
    cases hd : direntOf e with
    | none => rfl
    | some q =>
        obtain ⟨nm, n⟩ := q
        have hnm : nm ≠ name.take dirNameLen := fun he =>
          hm ((direntMatches_iff h0).mpr ⟨n, he ▸ hd⟩)
        simp [hnm]

/-- The entry `mkfs` writes. -/
theorem direntOf_rawDirent (junk : Bytes) (h0 : 0 ∉ name) (hl : name.length < 30) (hne : name ≠ [])
    (hn : n < 2 ^ 16) : direntOf (Mkfs.rawDirent junk name n) = some (name, n) := by
  have hname : entName (Mkfs.rawDirent junk name n) = name := by
    refine cstrFrom_eq h0 _ _ hl fun j hj => ?_
    rw [direntName, window, Mkfs.rawDirent, if_neg (by omega), if_pos (by omega), bytesOf]
    congr 1
    omega
  have hinum : direntInum (Mkfs.rawDirent junk name n) = n := by
    have hle : direntInum (Mkfs.rawDirent junk name n) = getLE (leBytes n) 0 2 :=
      getLE_congr fun i hi => by rw [Mkfs.rawDirent, if_pos (by omega)]
    rw [hle, getLE_leBytes, Nat.pow_zero, Nat.div_one, Nat.mod_eq_of_lt (by simpa using hn)]
  rw [direntOf, hname, hinum, if_neg hne]

theorem hit_eq_some {o : Option (Name × Nat)} : hit name o = some n ↔ o = some (name, n) := by
  cases o with
  | none => simp [hit]
  | some q =>
      obtain ⟨nm, m⟩ := q
      simp only [hit, Option.bind_some, Option.some.injEq, Prod.mk.injEq]
      split
      · next h => simp [h]
      · next h => simp [h]

/-- A lookup finds an entry with the name, if there is one. -/
theorem lookupFrom_some {t : Nat → Option (Name × Nat)} {count : Nat}
    (h : lookupFrom t name count k = some n) :
    ∃ j, k ≤ j ∧ j < k + count ∧ t j = some (name, n) := by
  induction count generalizing k with
  | zero => cases h
  | succ count ih =>
      rw [lookupFrom, Option.or_eq_some_iff] at h
      rcases h with h | ⟨-, h⟩
      · exact ⟨k, by omega, by omega, hit_eq_some.mp h⟩
      · obtain ⟨j, h1, h2, h3⟩ := ih h
        exact ⟨j, by omega, by omega, h3⟩

theorem lookupFrom_none {t : Nat → Option (Name × Nat)} {count : Nat}
    (h : lookupFrom t name count k = none) (hj : k ≤ j) (hlt : j < k + count) (n : Nat) :
    t j ≠ some (name, n) := by
  induction count generalizing k with
  | zero => omega
  | succ count ih =>
      rw [lookupFrom, Option.or_eq_none_iff] at h
      by_cases he : j = k
      · intro hs
        rw [← he, hit_eq_some.mpr hs] at h
        cases h.1
      · exact ih h.2 (by omega) (by omega)

end

end WhuOs.Fs
