import WhuOs.Fs.FileData
import WhuOs.Fs.Sizes

/-! # Reads of allocated blocks

A logical block is mapped when all the pointers to it are there, in the cache and on
disk. Looking it up changes nothing but the cache, so a read of mapped blocks
returns.
-/

namespace WhuOs.Fs

open Prog Bytes PtrTree

/-- The tree position of a logical block, as `inode_locate_block` computes it. -/
def blockPos (n bn : Nat) : Option Pos :=
  if h1 : bn < nAddrs1 then some ⟨n, ⟨bn, direct_lt h1⟩, []⟩
  else
    let bn2 := bn - nAddrs1
    if h2 : bn2 < nAddrs2 * entryPerBlock then
      some ⟨n, ⟨nAddrs1 + bn2 / entryPerBlock, single_lt h2⟩,
        digits 1 (bn2 % entryPerBlock)⟩
    else
      let bn3 := bn2 - nAddrs2 * entryPerBlock
      let size := entryPerBlock * entryPerBlock
      if h3 : bn3 < nAddrs3 * entryPerBlock * entryPerBlock then
        some ⟨n, ⟨nAddrs1 + nAddrs2 + bn3 / size, double_lt h3⟩, digits 2 (bn3 % size)⟩
      else none

/-- The position holds a block, and the index blocks above it are saved. -/
structure MappedAt (s : State) (p : Pos) : Prop where
  ne : blockAt s p ≠ 0
  saved : ∀ ls rest, p.path = ls ++ rest → rest ≠ [] →
    s.view (blockAt s ⟨p.ino, p.field, ls⟩) = s.disk (blockAt s ⟨p.ino, p.field, ls⟩)

def Mapped (s : State) (n bn : Nat) : Prop := ∃ p, blockPos n bn = some p ∧ MappedAt s p

section

variable {A : Nat → Prop} {held : List BufId} {s s' s₁ s₂ s₃ : State} {n b bn : Nat}
  {ip : Slot} {i : Fin 13}
  {rk ks : List Nat} {e : Entry} {G : Event → Prop} {E : Panic → Prop} {p : Pos}

theorem blockAt_append (ls rest : List Nat) :
    blockAt s ⟨n, i, ls ++ rest⟩ = follow 0 (ptr s) (blockAt s ⟨n, i, ls⟩) rest :=
  follow_append _ _ _

theorem MappedAt.above (h : MappedAt s ⟨n, i, ks⟩) {ls rest : List Nat} (he : ks = ls ++ rest) :
    blockAt s ⟨n, i, ls⟩ ≠ 0 := by
  intro hz
  refine h.ne ?_
  rw [he, blockAt_append, hz, follow_null]

/-- What is saved stays where it is when other blocks are read. -/
theorem MappedAt.evolve (h : MappedAt s p) (hino : inodeCopy s' p.ino = inodeCopy s p.ino)
    (hdisk : s'.disk = s.disk) (hview : ∀ b, s'.view b = s.view b ∨ s'.view b = s.disk b) :
    MappedAt s' p ∧ blockAt s' p = blockAt s p := by
  have hkeep : ∀ ls rest, p.path = ls ++ rest →
      blockAt s' ⟨p.ino, p.field, ls⟩ = blockAt s ⟨p.ino, p.field, ls⟩ := by
    intro ls
    induction ls using List.reverseRecOn with
    | nil =>
        intro rest _
        simp only [blockAt, follow_nil, hino]
    | append_singleton ls k ih =>
        intro rest he
        have he' : p.path =
          ls ++ (k :: rest) := by rw [he, List.append_assoc, List.singleton_append]
        have hq := ih (k :: rest) he'
        have hsame :
            s'.view (blockAt s ⟨p.ino, p.field, ls⟩) = s.view (blockAt s ⟨p.ino, p.field, ls⟩) := by
          rcases hview (blockAt s ⟨p.ino, p.field, ls⟩) with hv | hv
          · exact hv
          · rw [hv, h.saved ls (k :: rest) he' (List.cons_ne_nil _ _)]
        rw [blockAt_snoc, blockAt_snoc, hq, ptr, ptr, hsame]
  have hself : blockAt s' p = blockAt s p := hkeep p.path [] (List.append_nil _).symm
  refine ⟨⟨by rw [hself]; exact h.ne, fun ls rest he hr => ?_⟩, hself⟩
  rw [hkeep ls rest he, hdisk]
  rcases hview (blockAt s ⟨p.ino, p.field, ls⟩) with hv | hv
  · rw [hv, h.saved ls rest he hr]
  · exact hv

theorem MappedAt.loaded (h : MappedAt s p) (hl : Loaded held s s') :
    MappedAt s' p ∧ blockAt s' p = blockAt s p := by
  refine h.evolve (inodeCopy_congr (by rw [hl.core]) (by rw [hl.core])) (by rw [hl.core]) fun b =>
    ?_
  exact hl.evolves.view b fun hc => hc

theorem Mapped.loaded (h : Mapped s n bn) (hl : Loaded held s s') : Mapped s' n bn := by
  obtain ⟨p, hp, hm⟩ := h
  exact ⟨p, hp, (hm.loaded hl).1⟩

/-- A block is held while others are read. -/
theorem ReadPost.loaded_through {j : BufId} (p : ReadPost held s b j s₁) (hs : CacheInv held s)
    (hl : Loaded (j :: held) s₁ s₂) (r : ReleasePost held s₂ j s₃) : Loaded held s s₃ := by
  have hcore : s₃.toCore = s.toCore := by
    rw [r.eq]
    change { s₂.toCore with locks := Function.update s₂.toCore.locks (.buf j) false } = s.toCore
    rw [hl.core, p.eq]
    simp only [hs.relock_buf p.fresh]
  refine ⟨hcore, r.inv, fun k hk => ?_, fun b _ => by rw [hcore], fun b _ => ?_⟩
  · have hne : k ≠ j := fun h => p.fresh (h ▸ hk)
    rw [r.other k hne, hl.evolves.held k (List.mem_cons_of_mem _ hk), p.other k hne]
  · rw [r.view hl.evolves.inv]
    rcases hl.evolves.view b fun hc => hc with hv | hv
    · rw [hv]
      exact p.view hs b
    · rw [hv, p.disk_eq]
      exact Or.inr rfl

theorem Loaded.refl (h : CacheInv held s) : Loaded held s s := ⟨rfl, Evolves.refl h⟩

/-- The lookup of a mapped position finds its block. -/
theorem locateBlock_mapped {L : Nat} :
    ∀ {held rk e s bn}, TreeInv A held s → Opened s n ip → Chain s n ip i held rk e →
    PosOf A ⟨n, i, rk.reverse⟩ → rk.length + L = addrLevel i → (L ≠ 0 → bn < entryPerBlock ^ L) →
    MappedAt s ⟨n, i, rk.reverse ++ digits L bn⟩ →
    Sat (locateBlock (L + 1) e bn (entryPerBlock ^ L)) s G
      (fun r s' => r = blockAt s ⟨n, i, rk.reverse ++ digits L bn⟩ ∧ Loaded held s s') E := by
  induction L with
  | zero =>
      intro held rk e s bn h hop hc hp _ _ hm
      rw [digits, List.append_nil] at hm ⊢
      rw [locateBlock_succ, sat_bind, sat_readEntry,
        hc.val h.store h.uniq h.owned hop hp, if_neg hm.ne,
        Nat.pow_zero, if_pos rfl, sat_readEntry, hc.val h.store h.uniq h.owned hop hp]
      exact ⟨rfl, Loaded.refl h.store.cache⟩
  | succ L ih =>
      intro held rk e s bn h hop hc hp hl hbn hm
      have hq0 : blockAt s ⟨n, i, rk.reverse⟩ ≠ 0 := hm.above rfl
      have hsize : entryPerBlock ^ (L + 1) ≠ 1 := by
        have hpos : 0 < entryPerBlock ^ L := Nat.pow_pos (by decide)
        rw [Nat.pow_succ]
        unfold entryPerBlock at *
        omega
      have hdiv : entryPerBlock ^ (L + 1) / entryPerBlock = entryPerBlock ^ L := by
        rw [Nat.pow_succ, Nat.mul_div_cancel _ (by decide)]
      have hk : bn / entryPerBlock ^ L < entryPerBlock := by
        rw [Nat.div_lt_iff_lt_mul (Nat.pow_pos (by decide)), Nat.mul_comm, ← Nat.pow_succ]
        exact hbn (by omega)
      rw [locateBlock_succ, sat_bind, sat_readEntry,
        hc.val h.store h.uniq h.owned hop hp, if_neg hq0,
        if_neg hsize, sat_bind, sat_readEntry, hc.val h.store h.uniq h.owned hop hp]
      have hd := h.owned.ge hp hq0
      have hread : Readable held s (blockAt s ⟨n, i, rk.reverse⟩) :=
        hc.readable hp (by unfold blockNumUnused; omega) fun j hj =>
          (hc.held_ne h.owned hp hj).2 hq0
      refine (bufRead_sat h.store.cache hread.used hread.free hread.room).bind fun buf s₁ r => ?_
      -- the index block is held, so the position is still there
      obtain ⟨hc₁, heq⟩ := hc.read h.store.cache h.owned hp r
      have hstep : Chain s₁ n ip i (buf :: held) (bn / entryPerBlock ^ L :: rk)
          (.word buf (bn / entryPerBlock ^ L)) :=
        .step hc₁ (by rw [r.num, heq]) (by rw [heq]; exact hq0) hk
      have hsplit : rk.reverse ++ digits (L + 1) bn =
          (bn / entryPerBlock ^ L :: rk).reverse ++ digits L (bn % entryPerBlock ^ L) := by
        simp [digits]
      have hpos : PosOf A ⟨n, i, (bn / entryPerBlock ^ L :: rk).reverse⟩ := by
        refine ⟨hp.ino, ?_, fun k hk' => ?_⟩
        · simp only [List.length_reverse, List.length_cons]
          omega
        · simp only [List.reverse_cons, List.mem_append, List.mem_singleton] at hk'
          rcases hk' with hk' | rfl
          · exact hp.entry k hk'
          · exact hk
      have hcopy : ∀ k, inodeCopy s₁ k = inodeCopy s k :=
        fun k => inodeCopy_congr (by rw [r.eq]) (by rw [r.eq])
      obtain ⟨hm₁, hret⟩ := hm.evolve (hcopy _) r.disk_eq (r.view h.store.cache)
      have hext : Ext A n ip s s₁ := Ext.of_read h r
      unfold locateBelow
      rw [hdiv]
      rw [hsplit] at hm₁ hret ⊢
      refine (ih (h.read r) (hext.opened hop) hstep hpos (by simp only [List.length_cons]; omega)
        (fun _ => Nat.mod_lt _ (Nat.pow_pos (by decide))) hm₁).bind fun ret s₂ hr => ?_
      obtain ⟨rfl, hl₂⟩ := hr
      refine (bufRelease_sat hl₂.evolves.inv r.fresh).bind fun _ s₃ rel => (sat_pure _).mpr ?_
      exact ⟨hret, r.loaded_through h.store.cache hl₂ rel⟩

/-- The block that `inode_locate_block` finds for a mapped block. -/
theorem inodeLocateBlock_mapped (h : TreeInv A [] s) (hn : A n)
    (hop : Opened s n ip) (hm : Mapped s n bn) :
    Sat (inodeLocateBlock ip bn) s G (fun r s' => InData r ∧ Loaded [] s s') E := by
  obtain ⟨p, hp, hm⟩ := hm
  have haddr : ∀ {i : Fin 13} {L m : Nat}, p = ⟨n, i, digits L m⟩ → L = addrLevel i →
      (L ≠ 0 → m < entryPerBlock ^ L) →
      Sat (locateBlock (L + 1) (.addr ip i) m (entryPerBlock ^ L)) s G
        (fun r s' => InData r ∧ Loaded [] s s') E := by
    rintro i L m rfl hL hlt
    have hpos : PosOf A ⟨n, i, ([] : List Nat).reverse⟩ := ⟨hn, by simp, by simp⟩
    refine (locateBlock_mapped h hop .root hpos (by simp [hL]) hlt hm).imp fun r s' hr => ?_
    obtain ⟨rfl, hl⟩ := hr
    exact ⟨h.owned.area _ ⟨hn, by simp [digits_length, hL], digits_lt hlt⟩ hm.ne, hl⟩
  unfold blockPos at hp
  unfold inodeLocateBlock
  split at hp
  · next h1 =>
    rw [dif_pos h1]
    exact haddr (L := 0) (Option.some.inj hp).symm (addrLevel_direct h1).symm
      fun hne => absurd rfl hne
  · next h1 =>
    rw [dif_neg h1]
    dsimp only at hp ⊢
    split at hp
    · next h2 =>
      have h2' : bn - 10 < 2 * 256 := h2
      rw [dif_pos h2]
      refine haddr (L := 1) (Option.some.inj hp).symm ?_ fun _ => Nat.mod_lt _ (by decide)
      exact (addrLevel_single (show 10 ≤ 10 + (bn - 10) / 256 by omega)
        (show 10 + (bn - 10) / 256 < 12 by omega)).symm
    · next h2 =>
      rw [dif_neg h2]
      split at hp
      · next h3 =>
        rw [dif_pos h3]
        refine haddr (L := 2) (Option.some.inj hp).symm ?_ fun _ => Nat.mod_lt _ (by decide)
        exact (addrLevel_double
          (show 12 ≤ 10 + 2 + (bn - 10 - 2 * 256) / (256 * 256) by omega)).symm
      · cases hp

theorem Mapped.bound (hm : Mapped s n bn) : (bn + 1) * blockSize ≤ inodeMaxSize := by
  obtain ⟨p, hp, -⟩ := hm
  unfold inodeMaxSize blockSize nAddrs1 nAddrs2 nAddrs3 entryPerBlock
  unfold blockPos at hp
  split at hp
  · next h1 =>
    unfold nAddrs1 at h1
    omega
  · dsimp only at hp
    split at hp
    · next h2 =>
      unfold nAddrs1 nAddrs2 entryPerBlock at h2
      omega
    · split at hp
      · next h3 =>
        unfold nAddrs1 nAddrs2 nAddrs3 entryPerBlock at h3
        omega
      · cases hp

theorem TreeInv.of_loaded (h : TreeInv A held s) (hl : Loaded held s s') (hop : Opened s n ip) :
    TreeInv A held s' ∧ Opened s' n ip :=
  ⟨h.loaded hl, hop.congr (by rw [hl.core])⟩

/-- The copy loop over mapped blocks returns. -/
theorem readLoop_mapped {len : Nat} (hn : A n) (fuel : Nat) :
    ∀ {s : State} {offset total : Nat} (dst : Bytes),
    TreeInv A [] s → Opened s n ip → len ≤ total + fuel → total ≤ len →
    (∀ bn, offset / blockSize ≤ bn → bn * blockSize < offset + (len - total) → Mapped s n bn) →
    Sat (readLoop ip fuel offset total len dst) s G (fun r _ => r.1 = len) E := by
  induction fuel with
  | zero =>
      intro s offset total dst _ _ hfuel hle _
      exact (sat_pure _).mpr (Nat.le_antisymm hle hfuel)
  | succ fuel ih =>
      intro s offset total dst h hop hfuel hle hmap
      rw [readLoop]
      split
      swap
      · next hge =>
        exact (sat_pure _).mpr (Nat.le_antisymm hle (Nat.le_of_not_lt hge))
      next hlt =>
      have hself : offset / blockSize * blockSize ≤ offset := Nat.div_mul_le_self _ _
      have hm := hmap _ (Nat.le_refl _) (by omega)
      obtain ⟨hpos, hrest, -, hwrap⟩ := chunk_bound (Nat.sub_pos_of_lt hlt) hm.bound
      refine (inodeLocateBlock_mapped h hn hop hm).bind fun b s₁ hb => ?_
      obtain ⟨hdata, hl₁⟩ := hb
      obtain ⟨h₁, hop₁⟩ := h.of_loaded hl₁ hop
      have hrange := inData_iff.mp hdata
      refine (bufRead_sat h₁.store.cache (by unfold blockNumUnused; omega) (by simp) (by simp)).bind
        fun buf s₂ r => ?_
      rw [sat_bind, sat_bufData]
      refine r.release_sat h₁.store.cache fun s₃ hl₃ => ?_
      obtain ⟨h₃, hop₃⟩ := h₁.of_loaded hl₃ hop₁
      rw [hwrap]
      refine ih _ h₃ hop₃ (by omega) (by omega) fun bn hbn hend => ?_
      have hmono : offset / blockSize ≤
          (offset + min (blockSize - offset % blockSize) (len - total)) / blockSize :=
        Nat.div_le_div_right (Nat.le_add_right _ _)
      exact ((hmap bn (Nat.le_trans hmono hbn) (by omega)).loaded hl₁).loaded hl₃

end

end WhuOs.Fs
