import WhuOs.Fs.Primitives

/-! # Histories of the bitmap allocators

Any number of allocations and releases of blocks and inode numbers, from any
contents of the two bitmaps. A history lists what was done and what was returned,
the latest first; `usedBlocks` and `usedInodes` say which numbers it leaves in use.
The bits on disk are exactly these sets.
-/

namespace WhuOs.Fs

open Prog Bytes Bits

/-- The state between two calls: both bitmap blocks are written through. -/
structure BitmapsReady (s : State) : Prop where
  cache : CacheInv [] s
  sb : s.sb = Mkfs.sb
  inodes : s.view 1 = s.disk 1
  blocks : s.view 130 = s.disk 130

/-- A call with its argument or its result. -/
inductive BitmapAct where
  | allocBlock (b : Nat)
  | freeBlock (b : Nat)
  | allocInode (n : Nat)
  | freeInode (n : Nat)

/-- The call returns; only numbers in use are freed. -/
inductive BitmapStep (s : State) : BitmapAct → State → Prop where
  | allocBlock {b : Nat} {s' : State} (run : (bitmapAllocBlock s).1 = .ok (b, s')) :
      BitmapStep s (.allocBlock b) s'
  | freeBlock {b : Nat} {s' : State} (area : InData b) (used : dbit s.disk b = true)
      (run : (bitmapFreeBlock b s).1 = .ok ((), s')) : BitmapStep s (.freeBlock b) s'
  | allocInode {n : Nat} {s' : State} (run : (bitmapAllocInode s).1 = .ok (n, s')) :
      BitmapStep s (.allocInode n) s'
  | freeInode {n : Nat} {s' : State} (area : n < 8192) (used : ibit s.disk n = true)
      (run : (bitmapFreeInode n s).1 = .ok ((), s')) : BitmapStep s (.freeInode n) s'

inductive BitmapRuns (s₀ : State) : List BitmapAct → State → Prop where
  | start : BitmapRuns s₀ [] s₀
  | step {h : List BitmapAct} {s s' : State} {a : BitmapAct} (run : BitmapRuns s₀ h s)
      (last : BitmapStep s a s') : BitmapRuns s₀ (a :: h) s'

/-- The blocks in use after a history that started with `init`; 0 reports a failure. -/
def usedBlocks (init : Nat → Prop) : List BitmapAct → Nat → Prop
  | [], c => init c
  | .allocBlock b :: h, c => (b ≠ 0 ∧ c = b) ∨ usedBlocks init h c
  | .freeBlock b :: h, c => c ≠ b ∧ usedBlocks init h c
  | _ :: h, c => usedBlocks init h c

/-- The inode numbers in use after a history that started with `init`; `0xFFFF` reports a
failure. -/
def usedInodes (init : Nat → Prop) : List BitmapAct → Nat → Prop
  | [], c => init c
  | .allocInode n :: h, c => (n ≠ 0xFFFF ∧ c = n) ∨ usedInodes init h c
  | .freeInode n :: h, c => c ≠ n ∧ usedInodes init h c
  | _ :: h, c => usedInodes init h c

/-- The next `bitmap_alloc_block` returns: the smallest clear block, of which it sets the bit, or 0
when there is none, and then nothing changes. The inode bitmap is not touched. -/
def AllocsBlock (s : State) : Prop :=
  ∃ r s', (bitmapAllocBlock s).1 = .ok (r, s') ∧ (∀ n, ibit s'.disk n = ibit s.disk n) ∧
    ((InData r ∧ dbit s.disk r = false ∧ (∀ c, InData c → c < r → dbit s.disk c = true) ∧
        ∀ c, InData c → dbit s'.disk c = (decide (c = r) || dbit s.disk c)) ∨
      (r = 0 ∧ (∀ c, InData c → dbit s.disk c = true) ∧ s'.toCore = s.toCore))

/-- The next `bitmap_free_block` of a block in use clears its bit and no other. -/
def FreesBlock (s : State) : Prop :=
  ∀ b, InData b → dbit s.disk b = true → ∃ s', (bitmapFreeBlock b s).1 = .ok ((), s') ∧
    (∀ n, ibit s'.disk n = ibit s.disk n) ∧
    ∀ c, InData c → dbit s'.disk c = (decide (c ≠ b) && dbit s.disk c)

def AllocsInode (s : State) : Prop :=
  ∃ r s', (bitmapAllocInode s).1 = .ok (r, s') ∧ (∀ c, dbit s'.disk c = dbit s.disk c) ∧
    ((r < 8192 ∧ ibit s.disk r = false ∧ (∀ m < r, ibit s.disk m = true) ∧
        ∀ m, ibit s'.disk m = (decide (m = r) || ibit s.disk m)) ∨
      (r = 0xFFFF ∧ (∀ m < 8192, ibit s.disk m = true) ∧ s'.toCore = s.toCore))

def FreesInode (s : State) : Prop :=
  ∀ n, n < 8192 → ibit s.disk n = true → ∃ s', (bitmapFreeInode n s).1 = .ok ((), s') ∧
    (∀ c, dbit s'.disk c = dbit s.disk c) ∧
    ∀ m, ibit s'.disk m = (decide (m ≠ n) && ibit s.disk m)

section

variable {s s' s₀ : State} {h : List BitmapAct} {b n : Nat} {d : Block}

theorem BitmapsReady.loaded (hr : BitmapsReady s) (hl : Loaded [] s s') : BitmapsReady s' :=
  ⟨hl.evolves.inv, by rw [hl.core]; exact hr.sb, hl.evolves.synced id hr.inodes,
    hl.evolves.synced id hr.blocks⟩

theorem BitmapsReady.stored (hr : BitmapsReady s) (hst : Stored [] s b d s') : BitmapsReady s' := by
  have hsync : ∀ c, s.view c = s.disk c → s'.view c = s'.disk c := by
    intro c hc
    by_cases hcb : c = b
    · rw [hcb, hst.view, hst.core]
      simp
    · exact hst.evolves.synced hcb hc
  exact ⟨hst.evolves.inv, by rw [hst.core]; exact hr.sb, hsync 1 hr.inodes, hsync 130 hr.blocks⟩

/-! ## One call -/

/-- What `bitmap_alloc_block` does to the bits. -/
theorem BitmapsReady.allocBlock (hr : BitmapsReady s) :
    Sat bitmapAllocBlock s (fun _ => True) (fun r s' => BitmapsReady s' ∧
      (∀ n, ibit s'.disk n = ibit s.disk n) ∧
      ((InData r ∧ dbit s.disk r = false ∧ (∀ c, InData c → c < r → dbit s.disk c = true) ∧
          ∀ c, InData c → dbit s'.disk c = (decide (c = r) || dbit s.disk c)) ∨
        (r = 0 ∧ (∀ c, InData c → dbit s.disk c = true) ∧ s'.toCore = s.toCore)))
      (fun _ => False) := by
  refine (bitmapAllocBlock_sat hr.cache hr.sb (readable_nil s (by decide)) trivial
    fun _ => trivial).imp fun r s' ha => ?_
  have hbit : ∀ c, bitAt (s.view 130) (c - 131) = dbit s.disk c := fun c => by rw [hr.blocks]; rfl
  cases ha with
  | found ht =>
      have hd : s'.disk = setDbit s.disk r := by rw [ht.stored.core, setDbit, hr.blocks]
      refine ⟨hr.stored ht.stored, fun n => by rw [hd, ibit_setDbit], Or.inl ⟨ht.area, ?_, ?_, ?_⟩⟩
      · rw [← hbit]
        exact ht.clear
      · intro c hc hlt
        rw [← hbit]
        exact ht.below c hc hlt
      · intro c hc
        rw [hd, dbit_setDbit ht.area hc]
  | full all loaded =>
      refine ⟨hr.loaded loaded,
        fun n => by rw [loaded.core], Or.inr ⟨rfl, fun c hc => ?_, loaded.core⟩⟩
      rw [inData_iff] at hc
      rw [← hbit]
      exact all _ (by omega)

theorem BitmapsReady.freeBlock (hr : BitmapsReady s) (hb : InData b) :
    Sat (bitmapFreeBlock b) s (fun _ => True) (fun _ s' => BitmapsReady s' ∧
      (∀ n, ibit s'.disk n = ibit s.disk n) ∧
      ∀ c, InData c → dbit s'.disk c = (decide (c ≠ b) && dbit s.disk c)) (fun _ => False) := by
  refine (bitmapFreeBlock_sat hr.cache hr.sb (readable_nil s (by decide)) trivial hb).imp
    fun _ s' hu => ?_
  have hclr : ∀ D : Disk, D = clrDbit s.disk b → (∀ n, ibit D n = ibit s.disk n) ∧
      ∀ c, InData c → dbit D c = (decide (c ≠ b) && dbit s.disk c) := by
    rintro D rfl
    exact ⟨fun n => ibit_clrDbit, fun c hc => dbit_clrDbit hb hc⟩
  cases hu with
  | was clear loaded =>
      refine ⟨hr.loaded loaded, hclr _ ?_⟩
      rw [hr.blocks] at clear
      rw [loaded.core, clrDbit, clearBit_of_clear clear, Function.update_eq_self]
  | done _ stored =>
      refine ⟨hr.stored stored, hclr _ ?_⟩
      rw [stored.core, clrDbit, hr.blocks]

theorem BitmapsReady.allocInode (hr : BitmapsReady s) :
    Sat bitmapAllocInode s (fun _ => True) (fun r s' => BitmapsReady s' ∧
      (∀ c, dbit s'.disk c = dbit s.disk c) ∧
      ((r < 8192 ∧ ibit s.disk r = false ∧ (∀ m < r, ibit s.disk m = true) ∧
          ∀ m, ibit s'.disk m = (decide (m = r) || ibit s.disk m)) ∨
        (r = 0xFFFF ∧ (∀ m < 8192, ibit s.disk m = true) ∧ s'.toCore = s.toCore)))
      (fun _ => False) := by
  refine (bitmapAllocInode_sat hr.cache hr.sb (readable_nil s (by decide)) trivial).imp
    fun r s' ha => ?_
  have hbit : ∀ m, bitAt (s.view 1) m = ibit s.disk m := fun m => by rw [hr.inodes]; rfl
  cases ha with
  | found lt clear below stored =>
      have hd : s'.disk = setIbit s.disk r := by rw [stored.core, setIbit, hr.inodes]
      refine ⟨hr.stored stored, fun c => by rw [hd, dbit_setIbit], Or.inl ⟨lt, ?_, ?_, ?_⟩⟩
      · rw [← hbit]
        exact clear
      · intro m hm
        rw [← hbit]
        exact below m hm
      · intro m
        rw [hd, ibit_setIbit]
  | full all loaded =>
      refine ⟨hr.loaded loaded,
        fun c => by rw [loaded.core], Or.inr ⟨rfl, fun m hm => ?_, loaded.core⟩⟩
      rw [← hbit]
      exact all m hm

theorem BitmapsReady.freeInode (hr : BitmapsReady s) (hn : n < 8192) :
    Sat (bitmapFreeInode n) s (fun _ => True) (fun _ s' => BitmapsReady s' ∧
      (∀ c, dbit s'.disk c = dbit s.disk c) ∧
      ∀ m, ibit s'.disk m = (decide (m ≠ n) && ibit s.disk m)) (fun _ => False) := by
  refine (bitmapFreeInode_sat hr.cache hr.sb (readable_nil s (by decide)) trivial hn).imp
    fun _ s' hu => ?_
  have hclr : ∀ D : Disk, D = clrIbit s.disk n → (∀ c, dbit D c = dbit s.disk c) ∧
      ∀ m, ibit D m = (decide (m ≠ n) && ibit s.disk m) := by
    rintro D rfl
    exact ⟨fun c => dbit_clrIbit, fun m => ibit_clrIbit⟩
  cases hu with
  | was clear loaded =>
      refine ⟨hr.loaded loaded, hclr _ ?_⟩
      rw [hr.inodes] at clear
      rw [loaded.core, clrIbit, clearBit_of_clear clear, Function.update_eq_self]
  | done _ stored =>
      refine ⟨hr.stored stored, hclr _ ?_⟩
      rw [stored.core, clrIbit, hr.inodes]

/-! ## Whole histories -/

/-- The bits are the numbers in use, and no number in use was handed out again. -/
structure Tracked (s₀ : State) (h : List BitmapAct) (s : State) : Prop where
  ready : BitmapsReady s
  blocks : ∀ c, InData c → (dbit s.disk c = true ↔ usedBlocks (dbit s₀.disk · = true) h c)
  inodes : ∀ m < 8192, (ibit s.disk m = true ↔ usedInodes (ibit s₀.disk · = true) h m)
  freshBlock : ∀ later b earlier, h = later ++ .allocBlock b :: earlier → b ≠ 0 →
    InData b ∧ ¬ usedBlocks (dbit s₀.disk · = true) earlier b
  freshInode : ∀ later n earlier, h = later ++ .allocInode n :: earlier → n ≠ 0xFFFF →
    n < 8192 ∧ ¬ usedInodes (ibit s₀.disk · = true) earlier n

/-- Adding a call to a history in which no number was handed out twice. -/
theorem fresh_cons {a : BitmapAct} {P : Nat → List BitmapAct → Prop} (mk : Nat → BitmapAct)
    (hold : ∀ later b earlier, h = later ++ mk b :: earlier → P b earlier)
    (hlast : ∀ b, a = mk b → P b h) (later : List BitmapAct) (b : Nat) (earlier : List BitmapAct)
    (he : a :: h = later ++ mk b :: earlier) : P b earlier := by
  cases later with
  | nil =>
      rw [List.nil_append, List.cons.injEq] at he
      exact he.2 ▸ hlast b he.1
  | cons c later =>
      rw [List.cons_append, List.cons.injEq] at he
      exact hold later b earlier he.2

theorem Tracked.step (ht : Tracked s₀ h s) {a : BitmapAct} (hs : BitmapStep s a s') :
    Tracked s₀ (a :: h) s' := by
  cases hs with
  | @allocBlock b _ run =>
      obtain ⟨hr, hi, hres⟩ := ht.ready.allocBlock.of_ok run
      refine ⟨hr, fun c hc => ?_, fun m hm => by rw [hi]; exact ht.inodes m hm,
        fresh_cons .allocBlock ht.freshBlock fun c he hne =>
          ?_, fresh_cons .allocInode ht.freshInode nofun⟩
      · rw [usedBlocks, ← ht.blocks c hc]
        rcases hres with ⟨hb, -, -, hbits⟩ | ⟨rfl, -, hcore⟩
        · have hb0 : b ≠ 0 := by rw [inData_iff] at hb; omega
          rw [hbits c hc, Bool.or_eq_true, decide_eq_true_eq]
          simp [hb0]
        · rw [hcore]
          simp
      · cases he
        rcases hres with ⟨hb, hclear, -, -⟩ | ⟨rfl, -, -⟩
        · refine ⟨hb, fun hu => ?_⟩
          rw [← ht.blocks b hb, hclear] at hu
          cases hu
        · exact absurd rfl hne
  | @freeBlock b _ area _ run =>
      obtain ⟨hr, hi, hbits⟩ := (ht.ready.freeBlock area).of_ok run
      refine ⟨hr, fun c hc => ?_, fun m hm => by rw [hi]; exact ht.inodes m hm,
        fresh_cons .allocBlock ht.freshBlock nofun,
        fresh_cons .allocInode ht.freshInode nofun⟩
      rw [usedBlocks, ← ht.blocks c hc, hbits c hc, Bool.and_eq_true, decide_eq_true_eq]
  | @allocInode n _ run =>
      obtain ⟨hr, hd, hres⟩ := ht.ready.allocInode.of_ok run
      refine ⟨hr, fun c hc => by rw [hd]; exact ht.blocks c hc, fun m hm => ?_,
        fresh_cons .allocBlock ht.freshBlock nofun,
        fresh_cons .allocInode ht.freshInode fun m he hne => ?_⟩
      · rw [usedInodes, ← ht.inodes m hm]
        rcases hres with ⟨hn, -, -, hbits⟩ | ⟨rfl, -, hcore⟩
        · have hn0 : n ≠ 0xFFFF := by omega
          rw [hbits m, Bool.or_eq_true, decide_eq_true_eq]
          simp [hn0]
        · rw [hcore]
          simp
      · cases he
        rcases hres with ⟨hn, hclear, -, -⟩ | ⟨rfl, -, -⟩
        · refine ⟨hn, fun hu => ?_⟩
          rw [← ht.inodes n hn, hclear] at hu
          cases hu
        · exact absurd rfl hne
  | @freeInode n _ area _ run =>
      obtain ⟨hr, hd, hbits⟩ := (ht.ready.freeInode area).of_ok run
      refine ⟨hr, fun c hc => by rw [hd]; exact ht.blocks c hc, fun m hm => ?_,
        fresh_cons .allocBlock ht.freshBlock nofun,
        fresh_cons .allocInode ht.freshInode nofun⟩
      rw [usedInodes, ← ht.inodes m hm, hbits m, Bool.and_eq_true, decide_eq_true_eq]

theorem BitmapRuns.tracked (hr : BitmapRuns s₀ h s) (h₀ : BitmapsReady s₀) : Tracked s₀ h s := by
  induction hr with
  | start => exact ⟨h₀, fun _ _ => Iff.rfl, fun _ _ => Iff.rfl, by simp, by simp⟩
  | step _ last ih => exact ih.step last

end

/-- Along every history the bits are the numbers in use, no number in use is handed out, and every
call does to the bitmaps what it should. -/
theorem bitmap_allocators_correct (s₀ : State) (h₀ : BitmapsReady s₀)
    (h : List BitmapAct) (s : State)
    (hr : BitmapRuns s₀ h s) :
    (∀ c, InData c → (dbit s.disk c = true ↔ usedBlocks (dbit s₀.disk · = true) h c)) ∧
    (∀ m < 8192, (ibit s.disk m = true ↔ usedInodes (ibit s₀.disk · = true) h m)) ∧
    (∀ later b earlier, h = later ++ .allocBlock b :: earlier → b ≠ 0 →
      InData b ∧ ¬ usedBlocks (dbit s₀.disk · = true) earlier b) ∧
    (∀ later n earlier, h = later ++ .allocInode n :: earlier → n ≠ 0xFFFF →
      n < 8192 ∧ ¬ usedInodes (ibit s₀.disk · = true) earlier n) ∧
    AllocsBlock s ∧ FreesBlock s ∧ AllocsInode s ∧ FreesInode s := by
  have ht := hr.tracked h₀
  refine ⟨ht.blocks, ht.inodes, ht.freshBlock, ht.freshInode, ?_, fun b hb _ =>
    ?_, ?_, fun n hn _ => ?_⟩
  · obtain ⟨r, s', hok, -, hi, hres⟩ := ht.ready.allocBlock.returns
    exact ⟨r, s', hok, hi, hres⟩
  · obtain ⟨_, s', hok, -, hi, hres⟩ := (ht.ready.freeBlock hb).returns
    exact ⟨s', hok, hi, hres⟩
  · obtain ⟨r, s', hok, -, hd, hres⟩ := ht.ready.allocInode.returns
    exact ⟨r, s', hok, hd, hres⟩
  · obtain ⟨_, s', hok, -, hd, hres⟩ := (ht.ready.freeInode hn).returns
    exact ⟨s', hok, hd, hres⟩

theorem Mounted.bitmapsReady {junk : Bytes} {files : List Mkfs.HostFile}
    {img : Mkfs.Image} {s : State}
    (hm : Mounted img s) (h : Mkfs.main junk files = some img) : BitmapsReady s := by
  obtain ⟨hc, hclean⟩ := hm.boot h
  exact ⟨hclean.inv, by rw [hc]; rfl, hclean.view 1, hclean.view 130⟩

/-- A block taken and given back on an image without files. -/
theorem bitmap_allocators_boot :
    ∃ s₀ s b, BitmapsReady s₀ ∧ BitmapRuns s₀ [.freeBlock b, .allocBlock b] s ∧ AllocsBlock s ∧
      ∀ c, InData c →
      (dbit s.disk c = true ↔ c ≠ b ∧ ((b ≠ 0 ∧ c = b) ∨ dbit s₀.disk c = true)) := by
  have hsome : (Mkfs.main (fun _ => 0) []).isSome := by decide +kernel
  obtain ⟨img, h⟩ := Option.isSome_iff_exists.mp hsome
  obtain ⟨s₀, hm⟩ := exists_mounted h
  have h₀ := hm.bitmapsReady h
  obtain ⟨b, s₁, hok₁, hr₁, -, hres⟩ := h₀.allocBlock.returns
  have hfree : ¬ ∀ c, InData c → dbit s₀.disk c = true := by
    intro hall
    have hb := hall 132 (by decide)
    rw [(hm.boot h).1] at hb
    have hno : (Mkfs.main (fun _ => 0) []).all (fun img => !dbit img 132) =
      true := by decide +kernel
    rw [h] at hno
    have hb' : dbit img 132 = true := hb
    simp [hb'] at hno
  obtain ⟨hb, -, -, hbits⟩ := hres.resolve_right fun hfull => hfree hfull.2.1
  obtain ⟨_, s₂, hok₂, -⟩ := (hr₁.freeBlock hb).returns
  have hused : dbit s₁.disk b = true := by rw [hbits b hb]; simp
  have hrun : BitmapRuns s₀ [.freeBlock b, .allocBlock b] s₂ :=
    .step (.step .start (.allocBlock hok₁)) (.freeBlock hb hused hok₂)
  have hall := bitmap_allocators_correct s₀ h₀ _ s₂ hrun
  exact ⟨s₀, s₂, b, h₀, hrun, hall.2.2.2.2.1, hall.1⟩

end WhuOs.Fs
