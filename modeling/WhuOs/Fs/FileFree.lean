import WhuOs.Fs.FileWrite

/-! # Releasing the blocks of an inode

`data_free` walks a block tree and clears the bits of its blocks; the pointers
stay where they are until the inode itself is cleared. `Freeing A B` is the
invariant in between: the positions of `A` are still exclusive, but only those of
`B`, which excludes the inode being destroyed, are known to be marked.
-/

namespace WhuOs.Fs

open Prog Bytes Bits PtrTree

structure Freeing (A B : Nat → Prop) (held : List BufId) (s : State) : Prop where
  store : StoreInv held s
  uniq : UniqueSlots s
  owned : Owned A s
  marked : Marked B s
  sub : ∀ n, B n → A n

/-- The state after blocks of `A` outside `B` have been released. -/
structure Freed (A B : Nat → Prop) (held : List BufId) (s s' : State) : Prop where
  inv : Freeing A B held s'
  lost : Lost A s s'
  evolves : Evolves held (· = 130) s s'
  core : s'.toCore = { s.toCore with disk := s'.disk }
  bits : ∀ c, InData c → dbit s'.disk c = true → dbit s.disk c = true

section

variable {A B : Nat → Prop} {held : List BufId} {s s' s₁ : State} {n b : Nat} {ip : Slot}
  {i : Fin 13} {rk : List Nat} {e : Entry} {G : Event → Prop} {E : Panic → Prop}

theorem Freed.refl (h : Freeing A B held s) : Freed A B held s s :=
  ⟨h, Lost.refl _ _, .refl h.store.cache, rfl, fun _ _ hb => hb⟩

theorem Freed.trans {s'' : State} (h : Freed A B held s s') (h' : Freed A B held s' s'') :
    Freed A B held s s'' := by
  refine ⟨h'.inv, h.lost.trans h'.lost, (h.evolves.trans h'.evolves).mono (by simp), ?_,
    fun c hc hb => h.bits c hc (h'.bits c hc hb)⟩
  rw [h'.core, h.core]

theorem PosOf.mono {p : Pos} (hAB : ∀ n, B n → A n) (h : PosOf B p) : PosOf A p :=
  ⟨hAB _ h.ino, h.depth, h.entry⟩

/-- Clearing the bit of a block that `B` does not own. -/
theorem Freeing.unset (h : Freeing A B held s) {p : Pos} (hp : PosOf A p) (hB : ¬ B p.ino)
    (hb : blockAt s p = b) (hne : b ≠ 0) (hu : Unset held s 130 (b - 131) s') :
    Freed A B held s s' := by
  have hd : InData b := hb ▸ h.owned.area p hp (hb ▸ hne)
  cases hu with
  | was _ loaded =>
      have hlost : Lost A s s' := loaded.lost h.store
      refine ⟨⟨h.store.loaded loaded, h.uniq.congr (by rw [loaded.core]), h.owned.lost hlost,
        h.marked.lost (hlost.mono h.sub) ?_, h.sub⟩, hlost,
        loaded.evolves.mono fun _ hf => hf.elim, ?_, ?_⟩
      · intro q _ _ hq
        rw [loaded.core]
        exact hq
      · rw [loaded.core]
      · intro c _ hc
        rw [loaded.core] at hc
        exact hc
  | done _ stored =>
      have hdisk : s'.disk = clrDbit s.disk b := by
        rw [stored.core, clrDbit, h.store.settled 130 (by omega)]
      have hlost : Lost A s s' := stored.lost h.store h.owned (by omega) fun m hm =>
        stored.inodeCopy (h.owned.bound m hm) (Or.inr le_rfl)
      refine ⟨⟨h.store.stored stored, h.uniq.congr (by rw [stored.core]), h.owned.lost hlost,
        h.marked.lost (hlost.mono h.sub) ?_, h.sub⟩, hlost, stored.evolves, ?_, ?_⟩
      · intro q hq hq0 hbit
        have hqA := hq.mono h.sub
        have hqb : blockAt s q ≠ b := fun he => by
          have hpos := h.owned.excl q p hqA hp (by rw [he, hb]) hq0
          exact hB (hpos ▸ hq.ino)
        rw [hdisk, dbit_clrDbit hd (h.owned.area q hqA hq0), hbit]
        simpa using hqb
      · rw [stored.core]
      · intro c hc hbit
        rw [hdisk, dbit_clrDbit hd hc, Bool.and_eq_true] at hbit
        exact hbit.2

theorem Freed.chain (h : Freed A B held s s') (hs : Freeing A B held s)
    (hc : Chain s n ip i held rk e) (hp : PosOf A ⟨n, i, rk.reverse⟩) :
    Chain s' n ip i held rk e ∧ blockAt s' ⟨n, i, rk.reverse⟩ = blockAt s ⟨n, i, rk.reverse⟩ := by
  have hr := inodeBlock_range (hs.owned.bound n hp.ino)
  refine hc.stable ?_ (fun j hj => by rw [h.evolves.held j hj]) fun j hj => ?_
  · rw [inodeCopy_congr (s := s) (by rw [h.core]) (h.evolves.disk _ (by omega))]
  · have hd := inData_iff.mp (hc.held_ne hs.owned hp hj).1
    exact h.evolves.view_held hs.store.cache hj (by unfold blockNumUnused; omega)

theorem Freed.opened (h : Freed A B held s s') (hop : Opened s n ip) : Opened s' n ip :=
  hop.congr (by rw [h.core])

theorem Freeing.read {j : BufId} (h : Freeing A B held s) (r : ReadPost held s b j s') :
    Freeing A B (j :: held) s' := by
  have hlost : Lost A s s' := r.lost h.store
  refine ⟨h.store.read r, h.uniq.congr (by rw [r.eq]), h.owned.lost hlost,
    h.marked.lost (hlost.mono h.sub) ?_, h.sub⟩
  intro p _ _ hb
  rw [r.disk_eq]
  exact hb

theorem Freeing.release {j : BufId} (h : Freeing A B (j :: held) s) (r : ReleasePost held s j s') :
    Freeing A B held s' := by
  have hlost : Lost A s s' := fun p _ => Or.inl (r.blockAt h.store.cache p)
  refine ⟨h.store.release r, h.uniq.congr (by rw [r.eq]), h.owned.lost hlost,
    h.marked.lost (hlost.mono h.sub) ?_, h.sub⟩
  intro p _ _ hb
  rw [r.eq]
  exact hb

theorem bitmapFreeBlock_freed (h : Freeing A B held s) (hc : Chain s n ip i held rk e)
    (hp : PosOf A ⟨n, i, rk.reverse⟩) (hB : ¬ B n) (hb : blockAt s ⟨n, i, rk.reverse⟩ = b)
    (hne : b ≠ 0) (hG : G (.diskWrite 130)) :
    Sat (bitmapFreeBlock b) s G (fun _ => Freed A B held s) E := by
  have hd : InData b := hb ▸ h.owned.area _ hp (hb ▸ hne)
  refine (bitmapFreeBlock_sat h.store.cache h.store.sb ?_ hG hd).imp fun _ s' hu => ?_
  · refine hc.readable hp (by decide) fun j hj => ?_
    have hdj := inData_iff.mp (hc.held_ne h.owned hp hj).1
    omega
  · exact h.unset hp hB hb hne hu

/-- Releases made while one more buffer was held. -/
theorem Freed.bracket {s₂ : State} {j : BufId} (h : Freeing A B held s)
    (r : ReadPost held s b j s₁) (f : Freed A B (j :: held) s₁ s₂)
    (rel : ReleasePost held s₂ j s') :
    Freed A B held s s' := by
  have hlost₁ : Lost A s s₁ := r.lost h.store
  have hlost₃ : Lost A s₂ s' := fun p _ => Or.inl (rel.blockAt f.inv.store.cache p)
  have hd : s'.disk = s₂.disk := by rw [rel.eq]
  refine ⟨f.inv.release rel, (hlost₁.trans f.lost).trans hlost₃,
    ⟨rel.inv, fun k hk => ?_, fun c hc => ?_, fun c hc => ?_⟩, ?_, fun c hc hb => ?_⟩
  · have hne : k ≠ j := fun he => r.fresh (he ▸ hk)
    rw [rel.other k hne, f.evolves.held k (List.mem_cons_of_mem _ hk), r.other k hne]
  · rw [hd, f.evolves.disk c hc, r.disk_eq]
  · rw [rel.view f.inv.store.cache]
    rcases f.evolves.view c hc with h1 | h1
    · rw [h1]
      exact r.view h.store.cache c
    · rw [h1, r.disk_eq]
      exact Or.inr rfl
  · rw [rel.eq, f.core, r.eq]
    simp only [h.store.cache.relock_buf r.fresh]
  · rw [hd] at hb
    have h1 := f.bits c hc hb
    rw [r.disk_eq] at h1
    exact h1

/-! ## `data_free` -/

/-- The statement `data_free` is proved for, level by level. -/
def FreesAt (A B : Nat → Prop) (n : Nat) (ip : Slot) (i : Fin 13) (G : Event → Prop)
    (E : Panic → Prop) (L : Nat) : Prop :=
  ∀ {held rk e s b}, Freeing A B held s → Opened s n ip → Chain s n ip i held rk e →
    PosOf A ⟨n, i, rk.reverse⟩ → rk.length + L = addrLevel i →
    blockAt s ⟨n, i, rk.reverse⟩ = b → b ≠ 0 →
    Sat (dataFree L b) s G (fun _ => Freed A B held s) E

/-- The loop over the entries of a held index block. -/
theorem freeEntries_sat {L q : Nat} {buf : BufId} (ih : FreesAt A B n ip i G E L) (count : Nat) :
    ∀ {s : State} {k : Nat}, Freeing A B (buf :: held) s → Opened s n ip →
    Chain s n ip i held rk e → (s.cache.bufs buf).blockNum = q →
    blockAt s ⟨n, i, rk.reverse⟩ = q → q ≠ 0 → PosOf A ⟨n, i, rk.reverse⟩ →
    rk.length + (L + 1) = addrLevel i → k + count = entryPerBlock →
    Sat (freeEntries (dataFree L) buf count k) s G (fun _ => Freed A B (buf :: held) s) E := by
  induction count with
  | zero =>
      intro s k h _ _ _ _ _ _ _ _
      rw [freeEntries, sat_pure]
      exact .refl h
  | succ count ihc =>
      intro s k h hop hc hnum hq hq0 hp hl hk
      have hstep : Chain s n ip i (buf :: held) (k :: rk) (.word buf k) :=
        .step hc (by rw [hnum, hq]) (by rw [hq]; exact hq0) (by omega)
      have hpos : PosOf A ⟨n, i, (k :: rk).reverse⟩ := by
        refine ⟨hp.ino, ?_, ?_⟩
        · simp only [List.length_reverse, List.length_cons]
          omega
        · intro j hj
          simp only [List.reverse_cons, List.mem_append, List.mem_singleton] at hj
          rcases hj with hj | rfl
          · exact hp.entry j hj
          · omega
      rw [freeEntries, sat_bind, sat_bufData]
      have hval := hstep.val h.store h.uniq h.owned hop hpos
      simp only [entryVal] at hval
      dsimp only
      split
      · rw [sat_pure]
        exact .refl h
      · next hne =>
        refine (ih h hop hstep hpos (by simp only [List.length_cons]; omega) hval.symm hne).bind
          fun _ s₁ f => ?_
        have hnum₁ : (s₁.cache.bufs buf).blockNum = q := by
          rw [f.evolves.held buf List.mem_cons_self, hnum]
        obtain ⟨hc₁, -⟩ := f.chain h hstep hpos
        have hup : Chain s₁ n ip i held rk e := by
          cases hc₁ with
          | step up _ _ _ => rwa [hc.entry_eq up] at up
        have hq₁ : blockAt s₁ ⟨n, i, rk.reverse⟩ = q := by
          cases hc₁ with
          | step _ num _ _ => rw [← num, hnum₁]
        exact (ihc f.inv (f.opened hop) hup hnum₁ hq₁ hq0 hp hl (by omega)).imp
          fun _ s₂ f₂ => f.trans f₂

theorem dataFree_sat (hB : ¬ B n) (hG : G (.diskWrite 130)) (L : Nat) :
    FreesAt A B n ip i G E L := by
  induction L with
  | zero =>
      intro held rk e s b h hop hc hp hl hb hne
      rw [dataFree, sat_bind, sat_assert (by simpa using hne)]
      exact bitmapFreeBlock_freed h hc hp hB hb hne hG
  | succ L ih =>
      intro held rk e s b h hop hc hp hl hb hne
      have hd := inData_iff.mp (hb ▸ h.owned.area _ hp (hb ▸ hne) : InData b)
      rw [dataFree, sat_bind, sat_assert (by simpa using hne)]
      have hread : Readable held s b := hc.readable hp (by unfold blockNumUnused; omega)
        fun j hj => hb ▸ (hc.held_ne h.owned hp hj).2 (hb ▸ hne)
      refine (bufRead_sat h.store.cache hread.used hread.free hread.room).bind fun buf s₁ r => ?_
      obtain ⟨hc₁, heq⟩ := hc.read h.store.cache h.owned hp r
      have hop₁ : Opened s₁ n ip := hop.congr (by rw [r.eq])
      refine (freeEntries_sat ih entryPerBlock (h.read r) hop₁ hc₁ r.num (heq.trans hb) hne hp hl
        (Nat.zero_add _)).bind fun _ s₂ f => ?_
      refine (bufRelease_sat f.inv.store.cache r.fresh).bind fun _ s₃ rel => ?_
      -- back at this level, with the block itself still at its position
      have hfreed := f.bracket h r rel
      obtain ⟨hc₃, heq₃⟩ := hfreed.chain h hc hp
      exact (bitmapFreeBlock_freed hfreed.inv hc₃ hp hB (heq₃.trans hb) hne hG).imp
        fun _ s₄ f₄ => hfreed.trans f₄

/-! ## The fields of `addrs` -/

/-- Clearing a field of `addrs` cuts its tree off. -/
theorem Freeing.clearAddr (h : Freeing A B held s) (hn : A n) (hop : Opened s n ip) (i : Fin 13) :
    Freeing A B held (s.setInode ip { s.icache ip with
      addrs := Function.update (s.icache ip).addrs i 0 }) := by
  have hb := h.owned.bound n hn
  have hlost : Lost A s (s.setInode ip { s.icache ip with
      addrs := Function.update (s.icache ip).addrs i 0 }) := by
    rintro ⟨m, j, ks⟩ _
    have hcopy := inodeCopy_setInode h.uniq hop hb (x := { s.icache ip with
      addrs := Function.update (s.icache ip).addrs i 0 }) hop.num hop.valid m
    by_cases hm : m = n
    · subst hm
      rw [if_pos rfl] at hcopy
      by_cases hj : j = i
      · right
        have hz : ((inodeCopy (s.setInode ip { s.icache ip with
            addrs := Function.update (s.icache ip).addrs i 0 }) m).addrs j).toNat = 0 := by
          rw [hcopy, hj]
          simp
        rw [blockAt, hz, follow_null]
      · left
        have hk : (inodeCopy (s.setInode ip { s.icache ip with
            addrs := Function.update (s.icache ip).addrs i 0 }) m).addrs j =
            (inodeCopy s m).addrs j := by
          rw [hcopy, inodeCopy_slot h.uniq hop.valid hop.num hb]
          simp only [Function.update_of_ne hj]
        rw [blockAt, hk]
        rfl
    · left
      rw [if_neg hm] at hcopy
      rw [blockAt, hcopy]
      rfl
  exact ⟨⟨h.store.sb, h.store.cache.setInode _, h.store.settled, h.store.kept⟩,
    h.uniq.setInode rfl, h.owned.lost hlost,
    h.marked.lost (hlost.mono h.sub) fun _ _ _ hbit => hbit, h.sub⟩

/-- The state after fields of `addrs` have been freed. -/
structure Emptied (A B : Nat → Prop) (n : Nat) (ip : Slot) (is : List (Fin 13)) (s s' : State) :
    Prop where
  inv : Freeing A B [] s'
  opened : Opened s' n ip
  evolves : Evolves [] (· = 130) s s'
  core : ∃ a, s'.toCore = { s.toCore with
    disk := s'.disk
    icache := Function.update s.icache ip { s.icache ip with addrs := a } }
  bits : ∀ c, InData c → dbit s'.disk c = true → dbit s.disk c = true
  zero : ∀ i ∈ is, (s'.icache ip).addrs i = 0
  keep : ∀ i, (s'.icache ip).addrs i = (s.icache ip).addrs i ∨ (s'.icache ip).addrs i = 0

theorem Evolves.setInode {W : Nat → Prop} (h : Evolves held W s s') (x : Inode) :
    Evolves held W s (s'.setInode ip x) :=
  ⟨h.inv.setInode x, h.held, h.disk, h.view⟩

theorem freeAddr_sat (h : Freeing A B [] s) (hn : A n) (hB : ¬ B n) (hop : Opened s n ip)
    (hG : G (.diskWrite 130)) (i : Fin 13) :
    Sat (freeAddr ip (addrLevel i) i) s G (fun _ => Emptied A B n ip [i] s) E := by
  have hp : PosOf A ⟨n, i, ([] : List Nat).reverse⟩ := ⟨hn, by simp, by simp⟩
  have hc : Chain s n ip i [] [] (.addr ip i) := .root
  have hval := hc.val h.store h.uniq h.owned hop hp
  simp only [entryVal] at hval
  rw [freeAddr, sat_bind, sat_inodeOf]
  dsimp only
  by_cases h0 : ((s.icache ip).addrs i).toNat = 0
  · rw [if_neg (by simpa using h0), sat_pure]
    refine ⟨h, hop, .refl h.store.cache, ⟨(s.icache ip).addrs, by simp⟩, fun _ _ hb => hb, ?_,
      fun _ => Or.inl rfl⟩
    intro j hj
    rw [List.mem_singleton.mp hj]
    exact UInt32.toNat_inj.mp h0
  · rw [if_pos h0]
    have hclear : ∀ s₁, Freed A B [] s s₁ → Emptied A B n ip [i] s (s₁.setInode ip
        { s₁.icache ip with addrs := Function.update (s₁.icache ip).addrs i 0 }) := by
      intro s₁ f
      have hi : s₁.icache = s.icache := by rw [f.core]
      refine ⟨f.inv.clearAddr hn (f.opened hop) i, ⟨?_, ?_⟩, f.evolves.setInode _,
        ⟨Function.update (s.icache ip).addrs i 0, ?_⟩, f.bits, ?_, ?_⟩
      · simpa using (f.opened hop).num
      · simpa using (f.opened hop).valid
      · rw [setInode_toCore, f.core]
      · intro j hj
        rw [List.mem_singleton.mp hj]
        simp
      · intro j
        simp only [setInode_icache, Function.update_self, hi]
        by_cases hj : j = i
        · right
          simp [hj]
        · left
          simp [hj]
    split
    · refine (bitmapFreeBlock_freed h hc hp hB hval.symm h0 hG).bind fun _ s₁ f => ?_
      rw [sat_modifyInode]
      exact hclear s₁ f
    · refine (dataFree_sat hB hG _ h hop hc hp (by simp) hval.symm h0).bind fun _ s₁ f => ?_
      rw [sat_modifyInode]
      exact hclear s₁ f

theorem Emptied.trans {is js : List (Fin 13)} {s'' : State} (h : Emptied A B n ip is s s')
    (h' : Emptied A B n ip js s' s'') : Emptied A B n ip (is ++ js) s s'' := by
  refine ⟨h'.inv, h'.opened, (h.evolves.trans h'.evolves).mono (by simp), ?_,
    fun c hc hb => h.bits c hc (h'.bits c hc hb), fun i hi => ?_, fun i => ?_⟩
  · obtain ⟨a, ha⟩ := h.core
    obtain ⟨a', ha'⟩ := h'.core
    exact ⟨a', by rw [ha', ha]; simp⟩
  · rcases List.mem_append.mp hi with hi | hi
    · rcases h'.keep i with h1 | h1
      · rw [h1, h.zero i hi]
      · exact h1
    · exact h'.zero i hi
  · rcases h'.keep i with h1 | h1
    · rw [h1]
      exact h.keep i
    · exact Or.inr h1

theorem freeAddrs_sat (hn : A n) (hB : ¬ B n) (hG : G (.diskWrite 130)) (is : List (Fin 13)) :
    ∀ {s : State}, Freeing A B [] s → Opened s n ip →
    Sat (freeAddrs ip is) s G (fun _ => Emptied A B n ip is s) E := by
  induction is with
  | nil =>
      intro s h hop
      rw [freeAddrs, sat_pure]
      exact ⟨h, hop, .refl h.store.cache, ⟨(s.icache ip).addrs, by simp⟩, fun _ _ hb => hb,
        by simp, fun _ => Or.inl rfl⟩
  | cons i is ih =>
      intro s h hop
      rw [freeAddrs]
      refine (freeAddr_sat h hn hB hop hG i).bind fun _ s₁ e₁ => ?_
      exact (ih e₁.inv e₁.opened).imp fun _ s₂ e₂ => e₁.trans e₂

/-! ## `inode_destroy` -/

/-- The invariants do not look at locks other than those of the buffers. -/
theorem TreeInv.setLock (h : TreeInv A held s) {lk : Lock} (hb : ∀ j, lk ≠ .buf j)
    (hc : lk ≠ .bufCache) (v : Bool) : TreeInv A held (s.setLock lk v) :=
  ⟨⟨h.store.sb, h.store.cache.setLock hb hc v, h.store.settled, h.store.kept⟩, h.uniq,
    ⟨h.owned.bound, h.owned.area, h.owned.excl⟩, h.marked⟩

theorem Owned.restrict (h : Owned A s) (hBA : ∀ n, B n → A n) : Owned B s :=
  ⟨fun m hm => h.bound m (hBA m hm), fun p hp => h.area p (hp.mono hBA),
    fun p q hp hq => h.excl p q (hp.mono hBA) (hq.mono hBA)⟩

theorem TreeInv.restrict (h : TreeInv A held s) (hBA : ∀ n, B n → A n) : TreeInv B held s :=
  ⟨h.store, h.uniq, h.owned.restrict hBA, fun p hp => h.marked p (hp.mono hBA)⟩

theorem Freeing.others (h : Freeing A B held s) : TreeInv B held s :=
  ⟨h.store, h.uniq, h.owned.restrict h.sub, h.marked⟩

/-- Changing an entry that belongs to none of the inodes. -/
theorem TreeInv.setOther {x : Inode} (h : TreeInv A held s)
    (hs : ∀ m, A m → (s.icache ip).inodeNum ≠ m) (hx : ∀ m, A m → x.inodeNum ≠ m)
    (hu : UniqueSlots (s.setInode ip x)) : TreeInv A held (s.setInode ip x) := by
  have hlost : Lost A s (s.setInode ip x) := by
    intro p hp
    left
    rw [blockAt, inodeCopy_setInode_other (hs _ hp.ino) (hx _ hp.ino)]
    rfl
  exact ⟨⟨h.store.sb, h.store.cache.setInode _, h.store.settled, h.store.kept⟩, hu,
    h.owned.lost hlost, h.marked.lost hlost fun _ _ _ hb => hb⟩

/-- Changing the inode bitmap. -/
theorem TreeInv.ibitmap {d : Block} (h : TreeInv A held s) (hst : Stored held s 1 d s') :
    TreeInv A held s' := by
  have hlost : Lost A s s' := hst.lost h.store h.owned (by omega) fun m hm =>
    hst.inodeCopy (h.owned.bound m hm) (Or.inl (by omega))
  refine ⟨h.store.stored hst, h.uniq.congr (by rw [hst.core]), h.owned.lost hlost,
    h.marked.lost hlost fun p _ _ hb => ?_⟩
  rw [hst.core]
  exact (dbit_update (by omega)).trans hb

/-- Clearing a bit of the inode bitmap, set or not. -/
theorem StoreInv.ibit_unset (h : StoreInv [] s) (hu : Unset [] s 1 n s') :
    StoreInv [] s' ∧ s'.toCore = { s.toCore with disk := clrIbit s.disk n } := by
  cases hu with
  | was clear loaded =>
      rw [h.settled 1 (by omega)] at clear
      refine ⟨h.loaded loaded, ?_⟩
      rw [loaded.core, clrIbit, clearBit_of_clear clear, Function.update_eq_self]
  | done _ stored =>
      refine ⟨h.stored stored, ?_⟩
      rw [stored.core, clrIbit, h.settled 1 (by omega)]

theorem TreeInv.ibit_unset (h : TreeInv A [] s) (hu : Unset [] s 1 n s') :
    TreeInv A [] s' ∧ s'.toCore = { s.toCore with disk := clrIbit s.disk n } ∧
      Evolves [] (· = 1) s s' := by
  have hcore := (h.store.ibit_unset hu).2
  cases hu with
  | was clear loaded => exact ⟨h.loaded loaded, hcore, loaded.evolves.mono fun _ hf => hf.elim⟩
  | done _ stored => exact ⟨h.ibitmap stored, hcore, stored.evolves⟩

def wipe (ip : Slot) : FsM Unit := do
  inodeFreeData ip
  modifyInode ip fun x => { x with type := ftUnused, size := 0, nlink := 0 }
  inodeRw ip true

theorem inodeDestroy_eq (ip : Slot) : inodeDestroy ip = (do
    let x ← inodeOf ip
    let s ← state
    emit (.destroy x.inodeNum (diskInode s.sb s.disk x.inodeNum).nlink)
    spinlockAcquire (.inode ip)
    wipe ip
    spinlockRelease (.inode ip)
    bitmapFreeInode (← inodeOf ip).inodeNum
    modifyInode ip fun x => { x with inodeNum := inodeNumUnused, valid := false }) := by
  simp only [inodeDestroy, wipe, seq_assoc]

/-- The disk fields `inode_destroy` leaves in an entry and writes to disk. -/
def wiped (x : DiskInode) : DiskInode :=
  { x with type := ftUnused, nlink := 0, size := 0, addrs := fun _ => 0 }

def wipedInode (x : Inode) : Inode := { x with toDiskInode := wiped x.toDiskInode }

@[simp] theorem wipedInode_num (x : Inode) : (wipedInode x).inodeNum = x.inodeNum := rfl

@[simp] theorem wipedInode_valid (x : Inode) : (wipedInode x).valid = x.valid := rfl

/-- The state after the blocks of inode `n` were freed and its slot was written. -/
structure Wiped (A : Nat → Prop) (n : Nat) (ip : Slot) (s s' : State) : Prop where
  tree : TreeInv (fun m => A m ∧ m ≠ n) [] s'
  core : s'.toCore = { s.toCore with
    disk := s'.disk
    icache := Function.update s.icache ip (wipedInode (s.icache ip)) }
  evolves : Evolves [] (fun b => b = 130 ∨ b = inodeBlock Mkfs.sb n) s s'
  inodes : ∀ m, m < nInodeDisk →
    inoAt s'.disk m = if m = n then wiped (s.icache ip).toDiskInode else inoAt s.disk m
  ibits : ∀ m, ibit s'.disk m = ibit s.disk m
  bits : ∀ c, InData c → dbit s'.disk c = true → dbit s.disk c = true

theorem wipe_sat (h : TreeInv A [] s) (hn : A n) (hop : Opened s n ip) (hG : G (.diskWrite 130))
    (hG' : G (.diskWrite (inodeBlock Mkfs.sb n))) :
    Sat (wipe ip) s G (fun _ => Wiped A n ip s) E := by
  have hb := h.owned.bound n hn
  have hr := inodeBlock_range hb
  have hfree : Freeing A (fun m => A m ∧ m ≠ n) [] s :=
    ⟨h.store, h.uniq, h.owned, fun p hp => h.marked p (hp.mono fun _ hm => hm.1), fun _ hm => hm.1⟩
  unfold wipe inodeFreeData
  simp only [sat_bind]
  refine (freeAddrs_sat hn (by simp) hG _ hfree hop).imp fun _ s₁ em => ?_
  obtain ⟨a, hcore⟩ := em.core
  have hic : s₁.icache = Function.update s.icache ip { s.icache ip with addrs := a } :=
    congrArg Core.icache hcore
  have ha : a = fun _ => 0 := by
    funext j
    have hz := em.zero j (List.mem_finRange j)
    rw [hic] at hz
    simpa using hz
  subst ha
  simp only [sat_modifyInode, setInode_icache, Function.update_self, setInode_setInode]
  have hx : ({ s₁.icache ip with type := ftUnused, size := 0, nlink := 0 } : Inode) =
      wipedInode (s.icache ip) := by
    rw [hic]
    simp [wipedInode, wiped]
  have hnum : (s₁.icache ip).inodeNum = (s.icache ip).inodeNum := by
    rw [hic]
    simp
  rw [hx]
  have hB : ∀ m, A m ∧ m ≠ n → (s.icache ip).inodeNum ≠ m := fun m hm => by
    rw [hop.num]
    exact hm.2.symm
  have ht : TreeInv (fun m => A m ∧ m ≠ n) [] (s₁.setInode ip (wipedInode (s.icache ip))) :=
    em.inv.others.setOther (fun m hm => by rw [hnum]; exact hB m hm) hB
      (em.inv.uniq.setInode hnum.symm)
  have hop₂ : Opened (s₁.setInode ip (wipedInode (s.icache ip))) n ip :=
    ⟨by simpa using hop.num, by simpa using hop.valid⟩
  refine (inodeRw_write_sat (b := inodeBlock Mkfs.sb n) ht.store.cache ?_
    ⟨by unfold blockNumUnused; omega, by simp, by simp⟩ hG').imp fun _ s₂ hst => ?_
  · rw [ht.store.sb, hop₂.num]
  rw [hop₂.num] at hst
  obtain ⟨ht₂, -⟩ := ht.slot_stored hop₂ hb hst
  have hdisk := ht.store.slot_disk hb hst
  simp only [setInode_disk, setInode_icache, Function.update_self] at hdisk
  have hev : Evolves [] (fun b => b = 130 ∨ b = inodeBlock Mkfs.sb n) s s₂ :=
    (em.evolves.setInode _).trans hst.evolves
  refine ⟨ht₂, ?_, hev, fun m hm => ?_, fun m => ?_, fun c hc hbit => ?_⟩
  · rw [hst.core, setInode_toCore, hcore]
    simp only [Function.update_idem]
  · rw [hdisk, inoAt_setIno]
    split
    · rfl
    · have hrm := inodeBlock_range hm
      exact inoAt_congr (em.evolves.disk _ (by omega))
  · rw [hdisk, ibit_setIno hb]
    exact congrArg (bitAt · m) (em.evolves.disk 1 (by omega))
  · rw [hdisk, dbit_setIno hb] at hbit
    exact em.bits c hc hbit

def destroyedInode (x : Inode) : Inode :=
  { wipedInode x with inodeNum := inodeNumUnused, valid := false }

@[simp] theorem destroyedInode_num (x : Inode) : (destroyedInode x).inodeNum = inodeNumUnused := rfl

/-- The state after inode `n` has been destroyed. -/
structure Destroyed (A : Nat → Prop) (n : Nat) (ip : Slot) (s s' : State) : Prop where
  tree : TreeInv (fun m => A m ∧ m ≠ n) [] s'
  core : s'.toCore = { s.toCore with
    disk := s'.disk
    icache := Function.update s.icache ip (destroyedInode (s.icache ip)) }
  evolves : Evolves [] (fun b => b = 1 ∨ b = 130 ∨ b = inodeBlock Mkfs.sb n) s s'
  inodes : ∀ m, m < nInodeDisk →
    inoAt s'.disk m = if m = n then wiped (s.icache ip).toDiskInode else inoAt s.disk m
  ibits : ∀ m, ibit s'.disk m = (decide (m ≠ n) && ibit s.disk m)
  bits : ∀ c, InData c → dbit s'.disk c = true → dbit s.disk c = true

theorem UniqueSlots.drop (hu : UniqueSlots s) {x : Inode} (hx : nInodeDisk ≤ x.inodeNum) :
    UniqueSlots (s.setInode ip x) := by
  intro j k
  simp only [setInode_icache, Function.update_apply]
  by_cases hj : j = ip <;> by_cases hk : k = ip
  · intro _ _
    rw [hj, hk]
  · intro _ hlt
    rw [if_pos hj] at hlt
    omega
  · intro he hlt
    rw [if_neg hj] at he hlt
    rw [if_pos hk] at he
    omega
  · rw [if_neg hj, if_neg hk]
    exact hu j k

theorem inodeDestroy_sat (h : TreeInv A [] s) (hn : A n) (hop : Opened s n ip)
    (hl : s.locks (.inode ip) = false) (hG : G (.diskWrite 130)) (hG₁ : G (.diskWrite 1))
    (hG₂ : G (.diskWrite (inodeBlock Mkfs.sb n)))
    (hG₃ : G (.destroy n (inoAt s.disk n).nlink)) :
    Sat (inodeDestroy ip) s G (fun _ => Destroyed A n ip s) E := by
  have hb := h.owned.bound n hn
  rw [nInodeDisk_eq] at hb
  rw [inodeDestroy_eq]
  simp only [sat_bind, sat_inodeOf, sat_state, sat_emit]
  refine ⟨by rw [hop.num, h.store.sb]; exact hG₃, ?_⟩
  rw [sat_acquire hl]
  have h₁ : TreeInv A [] (s.setLock (.inode ip) true) := h.setLock (by simp) (by simp) true
  refine (wipe_sat h₁ hn (hop.congr rfl) hG hG₂).imp fun _ s₁ w => ?_
  have hlk : s₁.locks = Function.update s.locks (.inode ip) true := congrArg Core.locks w.core
  have hic : s₁.icache = Function.update s.icache ip (wipedInode (s.icache ip)) :=
    congrArg Core.icache w.core
  have hnum : (s₁.icache ip).inodeNum = n := by
    rw [hic]
    simpa using hop.num
  rw [sat_release (by rw [hlk]; simp), setLock_icache, hnum]
  have h₂ : TreeInv (fun m => A m ∧ m ≠ n) [] (s₁.setLock (.inode ip) false) :=
    w.tree.setLock (by simp) (by simp) false
  refine (bitmapFreeInode_sat h₂.store.cache h₂.store.sb ⟨by decide, by simp, by simp⟩ hG₁
    (by omega)).imp fun _ s₂ hu => ?_
  obtain ⟨h₃, hcore₃, hev₃⟩ := h₂.ibit_unset hu
  have hic₃ : s₂.icache = s₁.icache := by
    rw [hcore₃]
    rfl
  rw [sat_modifyInode]
  have hdrop : ({ s₂.icache ip with inodeNum := inodeNumUnused, valid := false } : Inode) =
      destroyedInode (s.icache ip) := by
    rw [hic₃, hic]
    simp [destroyedInode]
  rw [hdrop]
  have hunused : nInodeDisk ≤ inodeNumUnused := by decide
  have hdisk : s₂.disk = clrIbit s₁.disk n := by
    rw [hcore₃]
    rfl
  refine ⟨?_, ?_, ?_, fun m hm => ?_, fun m => ?_, fun c hc hbit => ?_⟩
  · refine h₃.setOther (fun m hm => ?_) (fun m hm => ?_) (h₃.uniq.drop hunused)
    · rw [hic₃, hnum]
      exact hm.2.symm
    · have hbm := h.owned.bound m hm.1
      rw [destroyedInode_num]
      omega
  · have hsb : s₂.sb = s.sb := by
      have h₁ : s₁.sb = s.sb := by
        rw [w.core]
        rfl
      rw [hcore₃]
      exact h₁
    have hcwd : s₂.cwd = s.cwd := by
      have h₁ : s₁.cwd = s.cwd := by
        rw [w.core]
        rfl
      rw [hcore₃]
      exact h₁
    have hlk₃ : s₂.locks = s.locks := by
      rw [hcore₃]
      change Function.update s₁.locks (.inode ip) false = s.locks
      rw [hlk, Function.update_idem, ← hl, Function.update_eq_self]
    rw [setInode_toCore, hic₃, hic, Function.update_idem]
    simp only [hsb, hcwd, hlk₃]
  · have hev₁ : Evolves [] (fun b => b = 130 ∨ b = inodeBlock Mkfs.sb n) s s₁ :=
      ⟨w.evolves.inv, w.evolves.held, w.evolves.disk, w.evolves.view⟩
    have hev₂ : Evolves [] (· = 1) s₁ s₂ := ⟨hev₃.inv, hev₃.held, hev₃.disk, hev₃.view⟩
    refine ((hev₁.trans hev₂).setInode _).mono fun b hb => ?_
    rcases hb with (hb | hb) | hb
    · exact Or.inr (Or.inl hb)
    · exact Or.inr (Or.inr hb)
    · exact Or.inl hb
  · rw [setInode_disk, hdisk, inoAt_clrIbit hm, w.inodes m hm]
    rfl
  · rw [setInode_disk, hdisk, ibit_clrIbit, w.ibits]
    rfl
  · rw [setInode_disk, hdisk, dbit_clrIbit] at hbit
    exact w.bits c hc hbit

end

end WhuOs.Fs
