import WhuOs.Fs.Locate

/-! # Lookups and writes keep the block trees

The recursion of `locate_block`, the dispatch of `inode_locate_block` over the
three kinds of fields, and the copy loop of `inode_write_data`, each as one
conditional triple over `TreeInv`.
-/

namespace WhuOs.Fs

open Prog Bytes Bits PtrTree

section

variable {A : Nat → Prop} {held : List BufId} {s s' s₁ : State} {n b : Nat} {ip : Slot}
  {i : Fin 13} {rk : List Nat} {e : Entry} {G H : Event → Prop}

/-! ## Single steps -/

theorem Ext.of_taken (h : TreeInv A held s) (ht : BlockTaken held s b s₁) : Ext A n ip s s₁ := by
  have hd := ht.disk_eq h.store
  have hcore := ht.stored.core
  have hlost := (h.taken ht).2
  refine ⟨by rw [hcore], by rw [hcore], fun _ _ => by rw [hcore],
    ⟨(s.icache ip).addrs, by rw [hcore]; simp⟩, fun _ _ => by rw [hcore],
    fun c hc => by rw [hd, setDbit_of_ne hc],
    fun c hc hb => ?_, fun p hp => ?_, fun c hc _ _ => ?_, fun c hc _ => ?_⟩
  · rw [hd, dbit_setDbit ht.area hc, hb, Bool.or_true]
  · exact (hlost p hp).imp_right Or.inl
  · rw [inData_iff] at hc
    exact ht.stored.evolves.view c (by omega)
  · rw [inData_iff] at hc
    exact ht.stored.evolves.view c (by omega)

theorem Ext.of_read {j : BufId} (h : TreeInv A held s) (r : ReadPost held s b j s') :
    Ext A n ip s s' := by
  have hd := r.disk_eq
  have hlost : Lost A s s' := r.lost h.store
  refine ⟨by rw [r.eq], by rw [r.eq], fun lk hl => ?_, ⟨(s.icache ip).addrs, by rw [r.eq]; simp⟩,
    fun _ _ => by rw [r.eq], fun c _ => by rw [hd], fun c _ hb => by rw [hd]; exact hb,
    fun p hp => (hlost p hp).imp_right Or.inl, fun c _ _ _ => r.view h.store.cache c,
    fun c _ _ => r.view h.store.cache c⟩
  rw [r.eq]
  exact Function.update_of_ne (hl j) _ _

theorem Ext.of_release {j : BufId} (h : TreeInv A (j :: held) s) (r : ReleasePost held s j s') :
    Ext A n ip s s' := by
  have hd : s'.disk = s.disk := by rw [r.eq]
  have hv := r.view h.store.cache
  refine ⟨by rw [r.eq], by rw [r.eq], fun lk hl => ?_, ⟨(s.icache ip).addrs, by rw [r.eq]; simp⟩,
    fun _ _ => by rw [r.eq], fun c _ => by rw [hd], fun c _ hb => by rw [hd]; exact hb,
    fun p _ => Or.inl (r.blockAt h.store.cache p), fun c _ _ _ => Or.inl (hv c),
    fun c _ _ => Or.inl (hv c)⟩
  rw [r.eq]
  exact Function.update_of_ne (hl j) _ _

/-- The chain after a block was taken from the bitmap. -/
structure Reserved (A : Nat → Prop) (held : List BufId) (n : Nat) (ip : Slot) (i : Fin 13)
    (rk : List Nat) (e : Entry) (b : Nat) (s : State) : Prop where
  tree : TreeInv A held s
  chain : Chain s n ip i held rk e
  opened : Opened s n ip
  zero : blockAt s ⟨n, i, rk.reverse⟩ = 0
  area : InData b
  bit : dbit s.disk b = true
  fresh : ∀ p, PosOf A p → blockAt s p ≠ b

theorem Chain.reserve (hc : Chain s n ip i held rk e) (h : TreeInv A held s) (hop : Opened s n ip)
    (hp : PosOf A ⟨n, i, rk.reverse⟩) (hzero : blockAt s ⟨n, i, rk.reverse⟩ = 0)
    (ht : BlockTaken held s b s₁) : Reserved A held n ip i rk e b s₁ := by
  obtain ⟨htree, hlost⟩ := h.taken ht
  have hn := h.owned.bound n hp.ino
  have hcopy : inodeCopy s₁ n = inodeCopy s n := ht.stored.inodeCopy hn (Or.inr le_rfl)
  obtain ⟨hchain, heq⟩ := hc.stable (t := s₁) (by rw [hcopy])
    (fun j hj => by rw [ht.stored.evolves.held j hj])
    (fun j hj => by
      have hd := inData_iff.mp (hc.held_ne h.owned hp hj).1
      exact ht.stored.evolves.view_held h.store.cache hj (by unfold blockNumUnused; omega))
  have hbit : dbit s₁.disk b = true := by
    rw [ht.disk_eq h.store, dbit_setDbit ht.area ht.area]
    simp
  refine ⟨htree, hchain, ?_, by rw [heq, hzero], ht.area, hbit, fun p hp' he => ?_⟩
  · have hext : Ext A n ip s s₁ := Ext.of_taken h ht
    exact hext.opened hop
  · have hb := inData_iff.mp ht.area
    have hold : blockAt s p = b := by
      rcases hlost p hp' with h1 | h1
      · rw [← h1, he]
      · omega
    have hclear : dbit s.disk b = false := by
      rw [← h.store.dbit_view]
      exact ht.clear
    exact h.not_free hp' (by omega) hclear hold

theorem Reserved.fill_ext (hr : Reserved A held n ip i rk e b s₁) (h : TreeInv A held s)
    (ht : BlockTaken held s b s₁) (hp : PosOf A ⟨n, i, rk.reverse⟩) (hbare : Bare i rk s₁ b) :
    Ext A n ip s (s₁.setEntry e b) := by
  have hext : Ext A n ip s s₁ := Ext.of_taken h ht
  obtain ⟨hset, hview⟩ := hr.chain.entrySet hr.tree hr.opened hp hr.zero b
  have hf := hr.chain.filledAt hr.tree hr.opened hp hr.zero hr.area hr.fresh hbare
  have hclear : dbit s.disk b = false := by
    rw [← h.store.dbit_view]
    exact ht.clear
  refine ⟨hset.store.sb.trans h.store.sb.symm, hset.cwd.trans hext.cwd,
    fun lk hl => by rw [hset.locks]; exact hext.locks lk hl, ?_, fun j hj => ?_,
    fun c hc => by rw [hset.disk]; exact hext.disk c hc,
    fun c hd hb => by rw [hset.disk]; exact hext.bits c hd hb, fun p hp' => ?_,
    fun c hd hb hi => ?_, fun c hd hb => ?_⟩
  · obtain ⟨a, ha⟩ := hext.icache
    obtain ⟨a', ha'⟩ := hset.icache
    exact ⟨a', by rw [ha', ha]; simp⟩
  · have h1 := hext.addrs j hj
    exact (hset.addrs j (by rw [h1]; exact hj)).trans h1
  · rcases hf p hp' with h1 | ⟨h1, h2⟩
    · rw [h1]
      exact hext.nodes p hp'
    · right
      right
      rw [h2, h1]
      exact ⟨rfl, hr.area, hclear⟩
  · rw [hview c fun j hj he => ?_]
    · exact hext.used c hd hb hi
    · refine hi (hext.inner hd hb ?_)
      obtain ⟨ls, rest, hsplit, hrest, hnum, -⟩ := hr.chain.mem hj
      obtain ⟨k, rest', rfl⟩ := List.exists_cons_of_ne_nil hrest
      refine ⟨⟨n, i, ls⟩, k, ?_, rfl, by rw [← hnum, he]⟩
      rw [hsplit, List.append_cons] at hp
      exact hp.of_append
  · rw [hset.disk] at hb
    rw [hview c fun j hj he => ?_]
    · exact hext.free c hd hb
    · obtain ⟨ls, rest, hsplit, -, hnum, hne⟩ := hr.chain.mem hj
      have hm := hr.tree.marked ⟨n, i, ls⟩ (Chain.posOf hp hsplit) hne
      rw [← hnum, he, hb] at hm
      cases hm

/-- The reserved block in its entry: the chain now ends in a block. -/
theorem Reserved.fill (hr : Reserved A held n ip i rk e b s₁) (h : TreeInv A held s)
    (hop : Opened s n ip) (ht : BlockTaken held s b s₁) (hp : PosOf A ⟨n, i, rk.reverse⟩)
    (hbare : Bare i rk s₁ b) :
    TreeInv A held (s₁.setEntry e b) ∧ Ext A n ip s (s₁.setEntry e b) ∧
      Chain (s₁.setEntry e b) n ip i held rk e ∧
      blockAt (s₁.setEntry e b) ⟨n, i, rk.reverse⟩ = b := by
  have htree := hr.tree.fill hr.chain hr.opened hp hr.zero hr.area hr.bit hr.fresh hbare
  have hext := hr.fill_ext h ht hp hbare
  have hchain := hr.chain.fill hr.tree hp b
  have hval := hchain.val htree.store htree.uniq htree.owned (hext.opened hop) hp
  rw [entryVal_setEntry hr.area] at hval
  exact ⟨htree, hext, hchain, hval.symm⟩

/-! ## `locate_block` -/

/-- The entries taken below a field that covers `256 ^ level` blocks. -/
def digits : Nat → Nat → List Nat
  | 0, _ => []
  | level + 1, bn => bn / entryPerBlock ^ level :: digits level (bn % entryPerBlock ^ level)

/-- Outcome of a lookup of the position `ks` below the entry `e`. -/
structure Located (A : Nat → Prop) (held : List BufId) (n : Nat) (ip : Slot) (i : Fin 13)
    (rk : List Nat) (e : Entry) (ks : List Nat) (s : State) (r : Nat) (s' : State) : Prop where
  tree : TreeInv A held s'
  ext : Ext A n ip s s'
  chain : Chain s' n ip i held rk e
  ret : blockAt s' ⟨n, i, rk.reverse ++ ks⟩ = r
  ne : r ≠ 0

theorem readEntry_eq (e : Entry) (s : State) : readEntry e s = (.ok (entryVal s e, s), []) := by
  cases e <;> rfl

theorem writeEntry_eq (e : Entry) (v : Nat) (s : State) :
    writeEntry e v s = (.ok ((), s.setEntry e v), []) := by
  cases e <;> rfl

def locateBelow (fuel : Nat) (buf : BufId) (bn size : Nat) : FsM Nat := do
  let ret ← locateBlock fuel (.word buf (bn / (size / entryPerBlock))) (bn % (size / entryPerBlock))
    (size / entryPerBlock)
  bufRelease buf
  return ret

/-- One level of `locate_block`, by whether the entry is empty and whether it is a leaf. -/
theorem locateBlock_succ (fuel : Nat) (e : Entry) (bn size : Nat) :
    locateBlock (fuel + 1) e bn size = (do
      let v ← readEntry e
      if v = 0 then
        let b ← bitmapAllocBlock
        writeEntry e b
        if size = 1 then readEntry e
        else
          let block ← readEntry e
          let buf ← bufRead block
          let data ← bufData buf
          emit (.newIndex block data)
          locateBelow fuel buf bn size
      else if size = 1 then readEntry e
      else
        let block ← readEntry e
        let buf ← bufRead block
        locateBelow fuel buf bn size) := by
  rw [locateBlock]
  congr 1
  funext v
  by_cases hv : v = 0 <;> simp only [hv, if_true, if_false] <;> rfl

/-- Descending into the index block `q` of the entry, given the lookup one level below. -/
theorem locateBelow_on {L bn q : Nat} {buf : BufId} (hcare : Careful G s) (h : TreeInv A held s)
    (hop : Opened s n ip)
    (hc : Chain s n ip i held rk e) (hp : PosOf A ⟨n, i, rk.reverse⟩)
    (hl : rk.length + (L + 1) = addrLevel i) (hbn : bn < entryPerBlock ^ (L + 1))
    (hq : blockAt s ⟨n, i, rk.reverse⟩ = q) (hq0 : q ≠ 0) (r : ReadPost held s q buf s₁)
    (ih : ∀ {held rk e s bn}, Careful G s → TreeInv A held s → Opened s n ip →
      Chain s n ip i held rk e →
      PosOf A ⟨n, i, rk.reverse⟩ → rk.length + L = addrLevel i → (L ≠ 0 → bn < entryPerBlock ^ L) →
      SatOn (locateBlock (L + 1) e bn (entryPerBlock ^ L)) s G H
        (Located A held n ip i rk e (digits L bn) s)) :
    SatOn (locateBelow (L + 1) buf bn (entryPerBlock ^ (L + 1))) s₁ G H
      (Located A held n ip i rk e (digits (L + 1) bn) s) := by
  have hsize : entryPerBlock ^ (L + 1) / entryPerBlock = entryPerBlock ^ L := by
    rw [Nat.pow_succ, Nat.mul_div_cancel _ (by decide)]
  have hk : bn / entryPerBlock ^ L < entryPerBlock := by
    rw [Nat.div_lt_iff_lt_mul (Nat.pow_pos (by decide)), Nat.mul_comm, ← Nat.pow_succ]
    exact hbn
  have ht₁ := h.read r
  have hext₁ : Ext A n ip s s₁ := Ext.of_read h r
  -- the index blocks above are held, so the position of `q` is still there
  obtain ⟨hc₁, heq⟩ := hc.read h.store.cache h.owned hp r
  rw [hq] at heq
  have hstep : Chain s₁ n ip i (buf :: held) (bn / entryPerBlock ^ L :: rk)
      (.word buf (bn / entryPerBlock ^ L)) :=
    .step hc₁ (by rw [r.num, heq]) (by rw [heq]; exact hq0) hk
  have hpos : PosOf A ⟨n, i, (bn / entryPerBlock ^ L :: rk).reverse⟩ := by
    refine ⟨hp.ino, ?_, ?_⟩
    · simp only [List.length_reverse, List.length_cons]
      omega
    · intro k hk'
      simp only [List.reverse_cons, List.mem_append, List.mem_singleton] at hk'
      rcases hk' with hk' | rfl
      · exact hp.entry k hk'
      · exact hk
  unfold locateBelow
  rw [hsize]
  refine (ih (hcare.ext hext₁) ht₁ (hext₁.opened hop) hstep hpos
    (by simp only [List.length_cons]; omega)
    fun _ => Nat.mod_lt _ (Nat.pow_pos (by decide))).bind fun ret s₂ loc => ?_
  refine (bufRelease_sat (E := fun _ => False) loc.tree.store.cache r.fresh).on.bind
    fun _ s₃ rel => satOn_pure ?_
  have hext₃ : Ext A n ip s₂ s₃ := Ext.of_release loc.tree rel
  have hchain : Chain s₂ n ip i held rk e := by
    have hc₂ := loc.chain
    cases hc₂ with
    | step up num ne lt => rwa [hc.entry_eq up] at up
  refine ⟨loc.tree.release rel, (hext₁.trans loc.ext).trans hext₃, ?_, ?_, loc.ne⟩
  · exact hchain.release loc.tree.store.cache rel
  · rw [rel.blockAt loc.tree.store.cache, ← loc.ret]
    simp [digits]

/-- A lookup whose allocations succeed and whose new index blocks are empty keeps the trees and
returns the block of its position. -/
theorem locateBlock_on (hH : H (.diskWrite 130)) (hH' : ∀ c d, H (.newIndex c d)) {L : Nat} :
    ∀ {held rk e s bn}, Careful G s → TreeInv A held s → Opened s n ip →
    Chain s n ip i held rk e → PosOf A ⟨n, i, rk.reverse⟩ → rk.length + L = addrLevel i →
    (L ≠ 0 → bn < entryPerBlock ^ L) →
    SatOn (locateBlock (L + 1) e bn (entryPerBlock ^ L)) s G H
      (Located A held n ip i rk e (digits L bn) s) := by
  induction L with
  | zero =>
      intro held rk e s bn hcare h hop hc hp hl hbn
      rw [locateBlock_succ, satOn_bind_of_eq (readEntry_eq e s),
        hc.val h.store h.uniq h.owned hop hp]
      simp only [Nat.pow_zero, if_true]
      by_cases hzero : blockAt s ⟨n, i, rk.reverse⟩ = 0
      · rw [if_pos hzero]
        refine (bitmapAllocBlock_on h.store.cache h.store.sb ?_ hH hcare.fail).bind fun b s₁ ht =>
        ?_
        · refine hc.readable hp (by decide) fun j hj => ?_
          have hd := inData_iff.mp (hc.held_ne h.owned hp hj).1
          omega
        have hres := hc.reserve h hop hp hzero ht
        have hbare : Bare i rk s₁ b := Or.inl hl
        obtain ⟨htree, hext, hchain, hval⟩ := hres.fill h hop ht hp hbare
        rw [satOn_bind_of_eq (writeEntry_eq e b s₁)]
        refine Sat.on (E := fun _ => False) (sat_readEntry.mpr ?_)
        rw [entryVal_setEntry hres.area]
        have hb := inData_iff.mp hres.area
        exact ⟨htree, hext, hchain, by rw [digits, List.append_nil, hval], by omega⟩
      · rw [if_neg hzero]
        refine Sat.on (E := fun _ => False) (sat_readEntry.mpr ?_)
        rw [hc.val h.store h.uniq h.owned hop hp]
        exact ⟨h, Ext.refl _ _ _ _, hc, by rw [digits, List.append_nil], hzero⟩
  | succ L ih =>
      intro held rk e s bn hcare h hop hc hp hl hbn
      have hsize : entryPerBlock ^ (L + 1) ≠ 1 := by
        have hpos : 0 < entryPerBlock ^ L := Nat.pow_pos (by decide)
        rw [Nat.pow_succ]
        unfold entryPerBlock at *
        omega
      rw [locateBlock_succ, satOn_bind_of_eq (readEntry_eq e s),
        hc.val h.store h.uniq h.owned hop hp]
      simp only [if_neg hsize]
      by_cases hzero : blockAt s ⟨n, i, rk.reverse⟩ = 0
      · rw [if_pos hzero]
        refine (bitmapAllocBlock_on h.store.cache h.store.sb ?_ hH hcare.fail).bind fun b s₁ ht =>
        ?_
        · refine hc.readable hp (by decide) fun j hj => ?_
          have hd := inData_iff.mp (hc.held_ne h.owned hp hj).1
          omega
        have hres := hc.reserve h hop hp hzero ht
        have hb := inData_iff.mp hres.area
        rw [satOn_bind_of_eq (writeEntry_eq e b s₁), satOn_bind_of_eq (readEntry_eq e _),
          entryVal_setEntry hres.area]
        obtain ⟨hset, hview⟩ := hres.chain.entrySet hres.tree hres.opened hp hres.zero b
        have hnot : ∀ j ∈ held, (s₁.cache.bufs j).blockNum ≠ b := by
          intro j hj he
          obtain ⟨ls, rest, hsplit, -, hnum, -⟩ := hres.chain.mem hj
          exact hres.fresh _ (Chain.posOf hp hsplit) (by rw [← hnum, he])
        have hread : Readable held (s₁.setEntry e b) b :=
          (hres.chain.fill hres.tree hp b).readable hp (by unfold blockNumUnused; omega)
            fun j hj => by rw [hset.num j]; exact hnot j hj
        refine (bufRead_sat (E := fun _ => False) hset.store.cache hread.used hread.free
          hread.room).on.bind fun buf s₂ r => ?_
        rw [satOn_bind_of_eq
          (show bufData buf s₂ = (.ok ((s₂.cache.bufs buf).data, s₂), []) from rfl)]
        refine satOn_emit fun hgood => ⟨hH' _ _, ?_⟩
        -- the block is empty, so nothing hangs below the new entry
        have hbare : Bare i rk s₁ b := by
          right
          intro k hk
          rcases hcare.index with hG | he
          · rw [ptr, ← hview b hnot, ← r.data]
            exact hG _ _ hgood k hk
          · obtain ⟨hv, hz⟩ := he b hres.area (by rw [← h.store.dbit_view]; exact ht.clear)
            rcases ht.stored.evolves.view b (by omega) with h1 | h1
            · rw [ptr, h1, hv, word_zero]
            · rw [ptr, h1, hz, word_zero]
        obtain ⟨htree, hext, hchain, hval⟩ := hres.fill h hop ht hp hbare
        refine (locateBelow_on (hcare.ext hext) htree (hext.opened hop) hchain hp hl
          (hbn (by omega)) hval (by omega) r ih).imp
          fun ret s₃ loc => ?_
        exact ⟨loc.tree, hext.trans loc.ext, loc.chain, loc.ret, loc.ne⟩
      · rw [if_neg hzero, satOn_bind_of_eq (readEntry_eq e s), hc.val h.store h.uniq h.owned hop hp]
        have hd := h.owned.ge hp hzero
        have hread : Readable held s (blockAt s ⟨n, i, rk.reverse⟩) :=
          hc.readable hp (by unfold blockNumUnused; omega)
            fun j hj => (hc.held_ne h.owned hp hj).2 hzero
        refine (bufRead_sat (E := fun _ => False) h.store.cache hread.used hread.free
          hread.room).on.bind fun buf s₁ r => ?_
        exact locateBelow_on hcare h hop hc hp hl (hbn (by omega)) rfl hzero r ih

/-! ## Logical blocks -/

/-- Position `p` is a data block of inode `n`. -/
structure Leaf (A : Nat → Prop) (n : Nat) (p : Pos) : Prop where
  pos : PosOf A p
  ino : p.ino = n
  depth : p.path.length = addrLevel p.field

theorem addrLevel_direct (h : i.val < 10) : addrLevel i = 0 := if_pos h

theorem addrLevel_single (h : 10 ≤ i.val) (h' : i.val < 12) : addrLevel i = 1 := by
  unfold addrLevel nAddrs1 nAddrs2
  rw [if_neg (by omega), if_pos (by omega)]

theorem addrLevel_double (h : 12 ≤ i.val) : addrLevel i = 2 := by
  unfold addrLevel nAddrs1 nAddrs2
  rw [if_neg (by omega), if_neg (by omega)]

structure Found (A : Nat → Prop) (n : Nat) (ip : Slot) (bn : Nat) (s : State) (r : Nat)
    (s' : State) : Prop where
  tree : TreeInv A [] s'
  ext : Ext A n ip s s'
  leaf : ∃ p, Leaf A n p ∧ blockAt s' p = r ∧ ∀ j : Fin 13, j.val = bn → bn < 10 → p = ⟨n, j, []⟩
  ne : r ≠ 0

theorem digits_length (L bn : Nat) : (digits L bn).length = L := by
  induction L generalizing bn with
  | zero => rfl
  | succ L ih => rw [digits, List.length_cons, ih]

theorem digits_lt {L bn : Nat} (h : L ≠ 0 → bn < entryPerBlock ^ L) :
    ∀ k ∈ digits L bn, k < entryPerBlock := by
  induction L generalizing bn with
  | zero => simp [digits]
  | succ L ih =>
      intro k hk
      rw [digits, List.mem_cons] at hk
      rcases hk with rfl | hk
      · rw [Nat.div_lt_iff_lt_mul (Nat.pow_pos (by decide)), Nat.mul_comm, ← Nat.pow_succ]
        exact h (by omega)
      · exact ih (fun _ => Nat.mod_lt _ (Nat.pow_pos (by decide))) k hk

/-- A lookup that starts at a field of `addrs`. -/
theorem locateAddr_on (hH : H (.diskWrite 130)) (hH' : ∀ c d, H (.newIndex c d)) (hn : A n)
    (hcare : Careful G s) (h : TreeInv A [] s) (hop : Opened s n ip)
    {L bn bn₀ : Nat} (hL : L = addrLevel i)
    (hbn : L ≠ 0 → bn < entryPerBlock ^ L) (hdir : bn₀ < 10 → i.val = bn₀ ∧ L = 0) :
    SatOn (locateBlock (L + 1) (.addr ip i) bn (entryPerBlock ^ L)) s G H
      (Found A n ip bn₀ s) := by
  have hp : PosOf A ⟨n, i, ([] : List Nat).reverse⟩ := ⟨hn, by simp, by simp⟩
  refine (locateBlock_on hH hH' hcare h hop .root hp (by simp [hL]) hbn).imp fun r s' loc => ?_
  refine ⟨loc.tree, loc.ext, ⟨⟨n, i, digits L bn⟩, ⟨⟨hn, ?_, ?_⟩, rfl, ?_⟩, loc.ret, ?_⟩, loc.ne⟩
  · simp [digits_length, hL]
  · exact digits_lt hbn
  · simp [digits_length, hL]
  · intro j hj hlt
    obtain ⟨hi, rfl⟩ := hdir hlt
    simp only [digits, Pos.mk.injEq, true_and, and_true]
    exact Fin.ext (by omega)

theorem inodeLocateBlock_on (hH : H (.diskWrite 130)) (hH' : ∀ c d, H (.newIndex c d)) (hn : A n)
    (hcare : Careful G s) (h : TreeInv A [] s) (hop : Opened s n ip) (bn : Nat) :
    SatOn (inodeLocateBlock ip bn) s G H (Found A n ip bn s) := by
  unfold inodeLocateBlock
  split
  · next h1 =>
    have h1' : bn < 10 := h1
    refine locateAddr_on (L := 0) hH hH' hn hcare h hop ?_ ?_ fun _ => ⟨rfl, rfl⟩
    · exact (addrLevel_direct h1').symm
    · exact fun hne => absurd rfl hne
  · next h1 =>
    have h1' : ¬ bn < 10 := h1
    dsimp only
    split
    · next h2 =>
      refine locateAddr_on (L := 1) hH hH' hn hcare h hop ?_ ?_ fun hlt => absurd hlt h1'
      · have h2' : bn - 10 < 2 * 256 := h2
        exact (addrLevel_single (show 10 ≤ 10 + (bn - 10) / 256 by omega)
          (show 10 + (bn - 10) / 256 < 12 by omega)).symm
      · exact fun _ => Nat.mod_lt _ (by decide)
    · split
      · next h2 h3 =>
        refine locateAddr_on (L := 2) hH hH' hn hcare h hop ?_ ?_ fun hlt => absurd hlt h1'
        · exact (addrLevel_double
            (show 12 ≤ 10 + 2 + (bn - 10 - 2 * 256) / (256 * 256) by omega)).symm
        · exact fun _ => Nat.mod_lt _ (by decide)
      · exact satOn_panic _

/-! ## Writing data -/

/-- Blocks a write to inode `n` may store to: its own and free ones. -/
def MayWrite (A : Nat → Prop) (n : Nat) (s : State) (b : Nat) : Prop :=
  InData b ∧ ((∃ p, PosOf A p ∧ p.ino = n ∧ blockAt s p = b) ∨ dbit s.disk b = false)

structure Wrote (A : Nat → Prop) (n : Nat) (ip : Slot) (s s' : State) : Prop where
  sb : s'.sb = s.sb
  cwd : s'.cwd = s.cwd
  locks : s'.locks = s.locks
  icache : ∃ a z, s'.icache = Function.update s.icache ip { s.icache ip with addrs := a, size := z }
  addrs : ∀ j, (s.icache ip).addrs j ≠ 0 → (s'.icache ip).addrs j = (s.icache ip).addrs j
  disk : ∀ b, b ≠ 130 → b ≠ inodeBlock Mkfs.sb n → ¬ MayWrite A n s b → s'.disk b = s.disk b
  taken : ∀ b, b ≠ 130 → b ≠ inodeBlock Mkfs.sb n → s'.disk b ≠ s.disk b → dbit s'.disk b = true
  inodes : ∀ m, m < nInodeDisk → m ≠ n → inoAt s'.disk m = inoAt s.disk m
  bits : ∀ b, InData b → dbit s.disk b = true → dbit s'.disk b = true
  nodes : ∀ p, PosOf A p → blockAt s' p = blockAt s p ∨ blockAt s' p = 0 ∨
    (p.ino = n ∧ InData (blockAt s' p) ∧ dbit s.disk (blockAt s' p) = false)
  empty : FreeEmpty s → FreeEmpty s'

theorem Wrote.refl (A : Nat → Prop) (n : Nat) (ip : Slot) (s : State) : Wrote A n ip s s where
  sb := rfl
  cwd := rfl
  locks := rfl
  icache := ⟨(s.icache ip).addrs, (s.icache ip).size, by simp⟩
  addrs _ _ := rfl
  disk _ _ _ _ := rfl
  taken _ _ _ h := absurd rfl h
  inodes _ _ _ := rfl
  bits _ _ h := h
  nodes _ _ := Or.inl rfl
  empty h := h

theorem Wrote.mayWrite (h : Wrote A n ip s s') (hb : MayWrite A n s' b) : MayWrite A n s b := by
  obtain ⟨hd, hown | hfree⟩ := hb
  · obtain ⟨p, hp, hn, rfl⟩ := hown
    refine ⟨hd, ?_⟩
    rcases h.nodes p hp with h1 | h1 | ⟨-, -, h1⟩
    · exact Or.inl ⟨p, hp, hn, h1.symm⟩
    · rw [h1, inData_iff] at hd
      omega
    · exact Or.inr h1
  · refine ⟨hd, Or.inr ?_⟩
    by_contra hne
    rw [h.bits b hd (by simpa using hne)] at hfree
    cases hfree

theorem Wrote.trans {s'' : State} (h : Wrote A n ip s s') (h' : Wrote A n ip s' s'') :
    Wrote A n ip s s'' := by
  refine ⟨h'.sb.trans h.sb, h'.cwd.trans h.cwd, h'.locks.trans h.locks, ?_, fun j hj => ?_,
    fun b hb hb' hno => ?_, fun b hb hb' hne => ?_,
    fun m hm hne => (h'.inodes m hm hne).trans (h.inodes m hm hne),
    fun b hd hb => h'.bits b hd (h.bits b hd hb), fun p hp => ?_, fun he => h'.empty (h.empty he)⟩
  · obtain ⟨a, z, ha⟩ := h.icache
    obtain ⟨a', z', ha'⟩ := h'.icache
    exact ⟨a', z', by rw [ha', ha]; simp⟩
  · have h1 := h.addrs j hj
    exact (h'.addrs j (by rw [h1]; exact hj)).trans h1
  · rw [h'.disk b hb hb' fun hm => hno (h.mayWrite hm), h.disk b hb hb' hno]
  · by_cases hlast : s''.disk b = s'.disk b
    · rw [hlast] at hne
      have hmay : MayWrite A n s b := by
        by_contra hno
        exact hne (h.disk b hb hb' hno)
      exact h'.bits b hmay.1 (h.taken b hb hb' hne)
    · exact h'.taken b hb hb' hlast
  · rcases h'.nodes p hp with h1 | h1 | ⟨h1, h2, h3⟩
    · rw [h1]
      exact h.nodes p hp
    · exact Or.inr (Or.inl h1)
    · refine Or.inr (Or.inr ⟨h1, h2, ?_⟩)
      by_contra hne
      rw [h.bits _ h2 (by simpa using hne)] at h3
      cases h3

theorem Careful.wrote (h : Careful G s) (hw : Wrote A n ip s s') : Careful G s' :=
  ⟨h.fail, h.index.imp_right hw.empty⟩

theorem Wrote.opened (h : Wrote A n ip s s') (hop : Opened s n ip) : Opened s' n ip := by
  obtain ⟨a, z, ha⟩ := h.icache
  exact ⟨by rw [ha]; simp [hop.num], by rw [ha]; simp [hop.valid]⟩

theorem Found.wrote {bn r : Nat} (f : Found A n ip bn s r s') (h : TreeInv A [] s) :
    Wrote A n ip s s' := by
  refine ⟨f.ext.sb, f.ext.cwd, f.ext.locks_eq h.store.cache f.tree.store.cache, ?_,
    f.ext.addrs, fun b hb _ _ => f.ext.disk b hb, fun b hb _ hne => absurd (f.ext.disk b hb) hne,
    fun m hm _ => ?_, f.ext.bits, f.ext.nodes, f.ext.empty⟩
  · obtain ⟨a, ha⟩ := f.ext.icache
    exact ⟨a, (s.icache ip).size, ha⟩
  · have hr := inodeBlock_range hm
    exact inoAt_congr (f.ext.disk _ (by omega))

theorem Found.mayWrite {bn r : Nat} (f : Found A n ip bn s r s') : MayWrite A n s r := by
  obtain ⟨p, hp, rfl, -⟩ := f.leaf
  have hd := f.tree.owned.area p hp.pos f.ne
  refine ⟨hd, ?_⟩
  rcases f.ext.nodes p hp.pos with h1 | h1 | ⟨-, -, h1⟩
  · exact Or.inl ⟨p, hp.pos, hp.ino, h1.symm⟩
  · exact absurd h1 f.ne
  · exact Or.inr h1

/-- Overwriting a data block: no position hangs below it. -/
theorem TreeInv.leaf_stored {p : Pos} {d : Block} (h : TreeInv A [] s) (hl : Leaf A n p)
    (hb : blockAt s p = b) (hne : b ≠ 0) (hst : Stored [] s b d s') :
    TreeInv A [] s' ∧ Lost A s s' := by
  have hd := h.owned.ge hl.pos (by rw [hb]; exact hne)
  rw [hb] at hd
  have hlost : Lost A s s' := by
    refine lost_of_evolves h.store hst.evolves
      (fun m hm => hst.inodeCopy (h.owned.bound m hm) (by omega)) fun q k hq hq0 he => ?_
    have hpos := h.owned.excl q p hq.of_append hl.pos (by rw [he, hb]) hq0
    have hdepth := hq.depth
    simp only [List.length_append, List.length_singleton] at hdepth
    rw [hpos] at hdepth
    have := hl.depth
    omega
  refine ⟨⟨h.store.stored hst, ?_, h.owned.lost hlost,
    h.marked.lost hlost fun q hq hq0 hbit => ?_⟩, hlost⟩
  · intro j k
    rw [hst.core]
    exact h.uniq j k
  · rw [hst.core]
    dsimp only
    rw [dbit_update (by omega)]
    exact hbit

theorem Found.stored_wrote {bn r : Nat} {d : Block} {s₂ : State} (f : Found A n ip bn s r s')
    (hst : Stored [] s' r d s₂) : TreeInv A [] s₂ ∧ Wrote A n ip s' s₂ := by
  obtain ⟨p, hp, hr, -⟩ := f.leaf
  obtain ⟨ht, hlost⟩ := f.tree.leaf_stored hp hr f.ne hst
  have hd := f.tree.owned.ge hp.pos (by rw [hr]; exact f.ne)
  have hbit := f.tree.marked p hp.pos (by rw [hr]; exact f.ne)
  rw [hr] at hd hbit
  have hdisk : ∀ c, c ≠ r → s₂.disk c = s'.disk c := fun c hc => by
    rw [hst.core]
    exact Function.update_of_ne hc _ _
  have hdbit : ∀ c, dbit s₂.disk c = dbit s'.disk c := fun c => by
    rw [hst.core]
    exact dbit_update (by omega)
  refine ⟨ht, by rw [hst.core], by rw [hst.core], by rw [hst.core],
    ⟨(s'.icache ip).addrs, (s'.icache ip).size, by rw [hst.core]; simp⟩,
    fun j _ => by rw [hst.core], fun c _ _ hno => ?_,
    fun c _ _ hne => ?_, fun m hm _ => ?_, fun c _ hc => by rw [hdbit]; exact hc, fun q hq => ?_,
    fun he c hc hfree => ?_⟩
  · refine hdisk c fun hcr => hno ?_
    rw [hcr]
    exact ⟨inData_iff.mpr hd, Or.inl ⟨p, hp.pos, hp.ino, hr⟩⟩
  · have hcr : c = r := by
      by_contra hcr
      exact hne (hdisk c hcr)
    rw [hcr, hdbit, hbit]
  · have hrange := inodeBlock_range hm
    exact inoAt_congr (hdisk _ (by omega))
  · exact (hlost q hq).imp_right Or.inl
  · rw [hdbit] at hfree
    have hcr : c ≠ r := fun hcr => by
      rw [hcr, hbit] at hfree
      cases hfree
    obtain ⟨hv, hz⟩ := he c hc hfree
    refine ⟨?_, by rw [hdisk c hcr, hz]⟩
    rcases hst.evolves.view c hcr with h1 | h1
    · rw [h1, hv]
    · rw [h1, hz]

/-- One round of the copy loop of `inode_write_data`. -/
theorem writeRound_on {α : Type} {Q : α → State → Prop} {bn off total m : Nat} {src : Bytes}
    {k : FsM α} (hH : H (.diskWrite 130)) (hH' : ∀ c d, H (.newIndex c d)) (hn : A n)
    (hcare : Careful G s) (h : TreeInv A [] s) (hop : Opened s n ip)
    (hW : ∀ b, MayWrite A n s b → H (.diskWrite b))
    (hk : ∀ r s₁ s₂, Found A n ip bn s r s₁ →
      Stored [] s₁ r (splice (s₁.view r) off (window src total) m) s₂ → SatOn k s₂ G H Q) :
    SatOn (do
      let blockNum ← inodeLocateBlock ip bn
      let buf ← bufRead blockNum
      let data ← bufData buf
      setBufData buf (splice data off (window src total) m)
      bufWrite buf
      bufRelease buf
      k) s G H Q := by
  refine (inodeLocateBlock_on hH hH' hn hcare h hop bn).bind fun r s₁ f => ?_
  have hd := f.mayWrite.1
  rw [inData_iff] at hd
  have hu : r ≠ blockNumUnused := by unfold blockNumUnused; omega
  refine (bufRead_sat (E := fun _ => False) f.tree.store.cache hu (by simp) (by simp)).on.bind
    fun buf s₂ p => ?_
  rw [satOn_bind_of_eq
    (show bufData buf s₂ = (.ok ((s₂.cache.bufs buf).data, s₂), []) from rfl), p.data]
  exact p.store_on (k := fun _ => k) f.tree.store.cache hu (hW r f.mayWrite)
    fun s₃ hst => hk r s₁ s₃ f hst

end

end WhuOs.Fs
