import WhuOs.Fs.Primitives
import WhuOs.Lib.PtrTree

/-! # Block trees of inodes

A position names an inode, a field of its `addrs` and the entries taken in the
index blocks below. `blockAt` is the block number the kernel finds there, read
through the cache and through the `icache` copy of the inode if there is a valid
one. `TreeInv` says that the positions of a set of inodes hold distinct allocated
blocks of the data area. Index blocks change in the cache only, so a pointer may
get lost when its buffer is recycled; it then reads as 0.
-/

namespace WhuOs.Fs

open Prog Bytes Bits PtrTree

structure Pos where
  ino : Nat
  field : Fin 13
  path : List Nat
deriving DecidableEq

def inodeCopy (s : State) (n : Nat) : DiskInode :=
  match (List.finRange nInode).find? fun ip =>
    (s.icache ip).inodeNum = n && (s.icache ip).valid with
  | some ip => (s.icache ip).toDiskInode
  | none => inoAt s.disk n

def ptr (s : State) (b k : Nat) : Nat := word (s.view b) k

def blockAt (s : State) (p : Pos) : Nat :=
  follow 0 (ptr s) ((inodeCopy s p.ino).addrs p.field).toNat p.path

structure PosOf (A : Nat → Prop) (p : Pos) : Prop where
  ino : A p.ino
  depth : p.path.length ≤ addrLevel p.field
  entry : ∀ k ∈ p.path, k < entryPerBlock

def Live (s : State) (n : Nat) : Prop := ibit s.disk n = true

theorem PosOf.of_append {A : Nat → Prop} {n : Nat} {i : Fin 13} {ls rest : List Nat}
    (h : PosOf A ⟨n, i, ls ++ rest⟩) : PosOf A ⟨n, i, ls⟩ := by
  have hd := h.depth
  simp only [List.length_append] at hd
  exact ⟨h.ino, by simp only; omega, fun k hk => h.entry k (List.mem_append_left _ hk)⟩

/-! ## Invariants -/

/-- Cache, layout, and what the disk keeps of each block: metadata is written through, and an
entry of an index block is on disk or not yet. -/
structure StoreInv (held : List BufId) (s : State) : Prop where
  sb : s.sb = Mkfs.sb
  cache : CacheInv held s
  settled : ∀ b < 131, s.view b = s.disk b
  kept : ∀ b k, word (s.disk b) k = ptr s b k ∨ word (s.disk b) k = 0

def UniqueSlots (s : State) : Prop :=
  ∀ i j, (s.icache i).inodeNum = (s.icache j).inodeNum → (s.icache i).inodeNum < nInodeDisk → i = j

/-- The positions of the inodes `A` hold distinct blocks of the data area. -/
structure Owned (A : Nat → Prop) (s : State) : Prop where
  bound : ∀ n, A n → n < nInodeDisk
  area : ∀ p, PosOf A p → blockAt s p ≠ 0 → InData (blockAt s p)
  excl : Exclusive 0 (PosOf A) (blockAt s)

def Marked (A : Nat → Prop) (s : State) : Prop :=
  ∀ p, PosOf A p → blockAt s p ≠ 0 → dbit s.disk (blockAt s p) = true

structure TreeInv (A : Nat → Prop) (held : List BufId) (s : State) : Prop where
  store : StoreInv held s
  uniq : UniqueSlots s
  owned : Owned A s
  marked : Marked A s

def Lost (A : Nat → Prop) (s s' : State) : Prop :=
  ∀ p, PosOf A p → blockAt s' p = blockAt s p ∨ blockAt s' p = 0

section

variable {A : Nat → Prop} {held : List BufId} {s s' s₁ s₂ : State} {n b : Nat} {ip : Slot}
  {W : Nat → Prop} {p : Pos}

theorem Lost.refl (A : Nat → Prop) (s : State) : Lost A s s := fun _ _ => Or.inl rfl

theorem Lost.trans (h : Lost A s s₁) (h' : Lost A s₁ s₂) : Lost A s s₂ := by
  intro p hp
  rcases h' p hp with h2 | h2
  · rw [h2]
    exact h p hp
  · exact Or.inr h2

theorem Lost.mono {A' : Nat → Prop} (h : Lost A s s') (hA : ∀ n, A' n → A n) : Lost A' s s' :=
  fun p hp => h p ⟨hA _ hp.ino, hp.depth, hp.entry⟩

theorem Owned.lost (h : Owned A s) (hl : Lost A s s') : Owned A s' := by
  refine ⟨h.bound, fun p hp hne => ?_, h.excl.mono (fun _ hp => hp) hl⟩
  have he := (hl p hp).resolve_right hne
  rw [he] at hne ⊢
  exact h.area p hp hne

/-- Every block found at a position is in the data area, hence neither 0 nor metadata. -/
theorem Owned.ge (h : Owned A s) (hp : PosOf A p) (hne : blockAt s p ≠ 0) :
    131 ≤ blockAt s p ∧ blockAt s p < 8323 := inData_iff.mp (h.area p hp hne)

theorem Marked.lost (h : Marked A s) (hl : Lost A s s')
    (hbit : ∀ p, PosOf A p → blockAt s p ≠ 0 → dbit s.disk (blockAt s p) = true →
      dbit s'.disk (blockAt s p) = true) : Marked A s' := by
  intro p hp hne
  have he := (hl p hp).resolve_right hne
  rw [he] at hne ⊢
  exact hbit p hp hne (h p hp hne)

/-! ## The working copy of an inode -/

theorem inodeCopy_slot (hu : UniqueSlots s) (hv : (s.icache ip).valid = true)
    (hn : (s.icache ip).inodeNum = n) (hlt : n < nInodeDisk) :
    inodeCopy s n = (s.icache ip).toDiskInode := by
  unfold inodeCopy
  cases hf : (List.finRange nInode).find? fun ip =>
      (s.icache ip).inodeNum = n && (s.icache ip).valid with
  | none =>
      have h0 := find_slot_none hf ip
      simp [hn, hv] at h0
  | some j =>
      have hj := find_slot_some hf
      simp only [Bool.and_eq_true, decide_eq_true_eq] at hj
      rw [hu j ip (hj.1.trans hn.symm) (by omega)]

theorem inodeCopy_disk (h : ∀ ip, (s.icache ip).inodeNum = n → (s.icache ip).valid = false) :
    inodeCopy s n = inoAt s.disk n := by
  unfold inodeCopy
  cases hf : (List.finRange nInode).find? fun ip =>
      (s.icache ip).inodeNum = n && (s.icache ip).valid with
  | none => rfl
  | some j =>
      have hj := find_slot_some hf
      simp only [Bool.and_eq_true, decide_eq_true_eq] at hj
      rw [h j hj.1] at hj
      exact absurd hj.2 (by simp)

/-- The working copy depends on the `icache` and the inode's own block only. -/
theorem inodeCopy_congr (hi : s'.icache = s.icache)
    (hd : s'.disk (inodeBlock Mkfs.sb n) = s.disk (inodeBlock Mkfs.sb n)) :
    inodeCopy s' n = inodeCopy s n := by
  unfold inodeCopy
  rw [hi, inoAt_congr hd]

/-! ## Steps of the store -/

theorem StoreInv.evolves (h : StoreInv held s) (he : Evolves held W s s') (hsb : s'.sb = s.sb)
    (hW : ∀ b, W b → s'.view b = s'.disk b) : StoreInv held s' := by
  refine ⟨hsb.trans h.sb, he.inv, fun b hb => ?_, fun b k => ?_⟩
  · by_cases hw : W b
    · exact hW b hw
    · rcases he.view b hw with hv | hv
      · rw [hv, he.disk b hw, h.settled b hb]
      · rw [hv, he.disk b hw]
  · by_cases hw : W b
    · exact Or.inl (by rw [ptr, hW b hw])
    · rcases he.view b hw with hv | hv
      · rw [ptr, hv, he.disk b hw]
        exact h.kept b k
      · rw [ptr, hv, he.disk b hw]
        exact Or.inl rfl

theorem StoreInv.loaded (h : StoreInv held s) (hl : Loaded held s s') : StoreInv held s' :=
  h.evolves hl.evolves (by rw [hl.core]) fun _ hf => hf.elim

theorem StoreInv.stored {d : Block} (h : StoreInv held s) (hst : Stored held s b d s') :
    StoreInv held s' :=
  h.evolves hst.evolves (by rw [hst.core]) fun c hc => by rw [hc, hst.view, hst.core]; simp

/-- Block reads that return the old entry, or what the disk has of it, lose positions at most. -/
theorem lost_of_view (h : StoreInv held s) (hroot : ∀ n, A n → inodeCopy s' n = inodeCopy s n)
    (hview : ∀ p k, PosOf A ⟨p.ino, p.field, p.path ++ [k]⟩ → blockAt s p ≠ 0 →
      s'.view (blockAt s p) = s.view (blockAt s p) ∨ s'.view (blockAt s p) = s.disk (blockAt s p)) :
    Lost A s s' := by
  rintro ⟨n, i, ks⟩ hp
  unfold blockAt
  rw [hroot n hp.ino]
  apply follow_loss
  intro ls k rest he hne
  subst he
  have hq : PosOf A ⟨n, i, ls ++ [k]⟩ := by
    have hp' := hp
    rw [List.append_cons] at hp'
    exact hp'.of_append
  rcases hview ⟨n, i, ls⟩ k hq hne with hv | hv
  · exact Or.inl (congrArg (word · k) hv)
  · rcases h.kept (blockAt s ⟨n, i, ls⟩) k with hk | hk
    · exact Or.inl ((congrArg (word · k) hv).trans hk)
    · exact Or.inr ((congrArg (word · k) hv).trans hk)

/-- Writing blocks that hold no entries of the tree. -/
theorem lost_of_evolves (h : StoreInv held s) (he : Evolves held W s s')
    (hroot : ∀ n, A n → inodeCopy s' n = inodeCopy s n)
    (hW : ∀ p k, PosOf A ⟨p.ino, p.field, p.path ++ [k]⟩ → blockAt s p ≠ 0 → ¬ W (blockAt s p)) :
    Lost A s s' :=
  lost_of_view h hroot fun p k hp hne => he.view _ (hW p k hp hne)

theorem Loaded.lost (hl : Loaded held s s') (h : StoreInv held s) : Lost A s s' :=
  lost_of_evolves h hl.evolves
    (fun n _ => inodeCopy_congr (by rw [hl.core]) (by rw [hl.core])) fun _ _ _ _ hf => hf

theorem TreeInv.loaded (h : TreeInv A held s) (hl : Loaded held s s') : TreeInv A held s' := by
  have hlost : Lost A s s' := hl.lost h.store
  refine ⟨h.store.loaded hl, ?_, h.owned.lost hlost, h.marked.lost hlost ?_⟩
  · intro i j
    rw [hl.core]
    exact h.uniq i j
  · intro p _ _ hb
    rw [hl.core]
    exact hb

/-- Interior positions hold blocks of the data area. -/
theorem Owned.inner_ge (h : Owned A s) {k : Nat} (hp : PosOf A ⟨p.ino, p.field, p.path ++ [k]⟩)
    (hne : blockAt s p ≠ 0) : 131 ≤ blockAt s p ∧ blockAt s p < 8323 :=
  h.ge (PosOf.of_append hp) hne

/-- Replacing a metadata block that is not the block of an inode read from disk. -/
theorem Stored.lost {d : Block} (hst : Stored held s b d s') (h : StoreInv held s) (ho : Owned A s)
    (hb : b < 131) (hroot : ∀ n, A n → inodeCopy s' n = inodeCopy s n) : Lost A s s' :=
  lost_of_evolves h hst.evolves hroot fun p k hp hne he => by
    have hge := ho.inner_ge hp hne
    omega

theorem Stored.inodeCopy {d : Block} (hst : Stored held s b d s') (hn : n < nInodeDisk)
    (hb : b < 2 ∨ 130 ≤ b) : inodeCopy s' n = inodeCopy s n := by
  have hr := inodeBlock_range hn
  refine inodeCopy_congr (by rw [hst.core]) ?_
  rw [hst.core]
  exact Function.update_of_ne (by omega) _ _

/-- Changing the data bitmap without clearing the bit of an owned block. -/
theorem TreeInv.bitmap {d : Block} (h : TreeInv A held s) (hst : Stored held s 130 d s')
    (hbit : ∀ p, PosOf A p → blockAt s p ≠ 0 → dbit s'.disk (blockAt s p) = true) :
    TreeInv A held s' ∧ Lost A s s' := by
  have hlost : Lost A s s' := hst.lost h.store h.owned (by omega) fun n hn =>
    hst.inodeCopy (h.owned.bound n hn) (Or.inr le_rfl)
  refine ⟨⟨h.store.stored hst, ?_, h.owned.lost hlost,
    h.marked.lost hlost fun p hp hne _ => hbit p hp hne⟩, hlost⟩
  intro i j
  rw [hst.core]
  exact h.uniq i j

theorem StoreInv.dbit_view (h : StoreInv held s) (b : Nat) :
    bitAt (s.view 130) (b - 131) = dbit s.disk b := by
  rw [h.settled 130 (by omega)]
  rfl

theorem BlockTaken.disk_eq (ht : BlockTaken held s b s') (h : StoreInv held s) :
    s'.disk = setDbit s.disk b := by
  rw [ht.stored.core, setDbit, h.settled 130 (by omega)]

theorem TreeInv.taken (h : TreeInv A held s) (ht : BlockTaken held s b s') :
    TreeInv A held s' ∧ Lost A s s' := by
  refine h.bitmap ht.stored fun p hp hne => ?_
  rw [ht.disk_eq h.store, dbit_setDbit ht.area (h.owned.area p hp hne), h.marked p hp hne,
    Bool.or_true]

/-- A block whose bit is clear is at no position. -/
theorem TreeInv.not_free (h : TreeInv A held s) (hp : PosOf A p) (hb0 : b ≠ 0)
    (hb : dbit s.disk b = false) : blockAt s p ≠ b := by
  intro he
  have hm := h.marked p hp (by rw [he]; exact hb0)
  rw [he, hb] at hm
  cases hm

/-! ## Handing out and releasing a buffer -/

theorem ReadPost.lost {i : BufId} (r : ReadPost held s b i s') (h : StoreInv held s) :
    Lost A s s' :=
  lost_of_view h (fun n _ => inodeCopy_congr (by rw [r.eq]) (by rw [r.eq]))
    fun p k _ _ => r.view h.cache _

theorem StoreInv.read {i : BufId} (h : StoreInv held s) (r : ReadPost held s b i s') :
    StoreInv (i :: held) s' := by
  have hd := r.disk_eq
  refine ⟨?_, r.inv, fun c hc => ?_, fun c k => ?_⟩
  · rw [r.eq]
    exact h.sb
  · rcases r.view h.cache c with hv | hv
    · rw [hv, hd, h.settled c hc]
    · rw [hv, hd]
  · rw [hd]
    rcases r.view h.cache c with hv | hv
    · rw [ptr, hv]
      exact h.kept c k
    · rw [ptr, hv]
      exact Or.inl rfl

theorem UniqueSlots.congr (h : UniqueSlots s) (hi : s'.icache = s.icache) : UniqueSlots s' := by
  intro j k
  rw [hi]
  exact h j k

theorem TreeInv.read {i : BufId} (h : TreeInv A held s) (r : ReadPost held s b i s') :
    TreeInv A (i :: held) s' := by
  have hlost : Lost A s s' := r.lost h.store
  refine ⟨h.store.read r, h.uniq.congr (by rw [r.eq]), h.owned.lost hlost, h.marked.lost hlost ?_⟩
  intro p _ _ hb
  rw [r.disk_eq]
  exact hb

theorem blockAt_congr (hroot : inodeCopy s' p.ino = inodeCopy s p.ino)
    (hv : ∀ b, s'.view b = s.view b) : blockAt s' p = blockAt s p := by
  have hptr : ptr s' = ptr s := by
    funext b k
    rw [ptr, hv b]
    rfl
  rw [blockAt, hroot, hptr]
  rfl

theorem ReleasePost.blockAt {i : BufId} (r : ReleasePost held s i s') (h : CacheInv (i :: held) s)
    (p : Pos) : blockAt s' p = blockAt s p :=
  blockAt_congr (inodeCopy_congr (by rw [r.eq]) (by rw [r.eq])) (r.view h)

theorem StoreInv.release {i : BufId} (h : StoreInv (i :: held) s) (r : ReleasePost held s i s') :
    StoreInv held s' := by
  have hd : s'.disk = s.disk := by rw [r.eq]
  have hv := r.view h.cache
  refine ⟨?_, r.inv, fun c hc => ?_, fun c k => ?_⟩
  · rw [r.eq]
    exact h.sb
  · rw [hv, hd, h.settled c hc]
  · rw [hd, ptr, hv]
    exact h.kept c k

theorem TreeInv.release {i : BufId} (h : TreeInv A (i :: held) s) (r : ReleasePost held s i s') :
    TreeInv A held s' := by
  have hlost : Lost A s s' := fun p _ => Or.inl (r.blockAt h.store.cache p)
  refine ⟨h.store.release r, h.uniq.congr (by rw [r.eq]), h.owned.lost hlost,
    h.marked.lost hlost ?_⟩
  intro p _ _ hb
  rw [r.eq]
  exact hb

end

end WhuOs.Fs
