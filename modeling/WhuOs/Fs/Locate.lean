import WhuOs.Fs.BlockTree

/-! # Block lookup and the ownership invariant

`locate_block` walks down from a field of `addrs`, holding the index blocks on its
way, and fills empty entries from the data bitmap. `Chain` ties the entry it works
on to a tree position. The main lemma says that a lookup whose allocations
succeed, and whose new index blocks are empty, keeps `TreeInv` and returns the
block of the position asked for.
-/

namespace WhuOs.Fs

open Prog Bytes Bits PtrTree

/-- The conditions under which lookups are safe: no allocation fails, and a block taken as
an index block has no entries yet. -/
def GoodEvent : Event → Prop
  | .allocFail => False
  | .newIndex _ data => ∀ k < entryPerBlock, word data k = 0
  | _ => True

instance : DecidablePred GoodEvent
  | .allocFail => isFalse id
  | .newIndex _ data => inferInstanceAs (Decidable (∀ k < entryPerBlock, word data k = 0))
  | .diskWrite _ => isTrue trivial
  | .destroy _ _ => isTrue trivial

structure Opened (s : State) (n : Nat) (ip : Slot) : Prop where
  num : (s.icache ip).inodeNum = n
  valid : (s.icache ip).valid = true

/-- `e` is the entry at position `rk` (innermost index first) of field `i`, and `held` are the
index blocks above it. -/
inductive Chain (s : State) (n : Nat) (ip : Slot) (i : Fin 13) :
    List BufId → List Nat → Entry → Prop where
  | root : Chain s n ip i [] [] (.addr ip i)
  | step {held : List BufId} {rk : List Nat} {e : Entry} {buf : BufId} {k : Nat}
      (up : Chain s n ip i held rk e)
      (num : (s.cache.bufs buf).blockNum = blockAt s ⟨n, i, rk.reverse⟩)
      (ne : blockAt s ⟨n, i, rk.reverse⟩ ≠ 0) (lt : k < entryPerBlock) :
      Chain s n ip i (buf :: held) (k :: rk) (.word buf k)

def entryVal (s : State) : Entry → Nat
  | .addr ip i => ((s.icache ip).addrs i).toNat
  | .word buf k => word (s.cache.bufs buf).data k

def State.setEntry (s : State) : Entry → Nat → State
  | .addr ip i, v =>
      s.setInode ip
        { s.icache ip with addrs := Function.update (s.icache ip).addrs i (UInt32.ofNat v) }
  | .word buf k, v =>
      s.setBuf buf { s.cache.bufs buf with data := setWord (s.cache.bufs buf).data k v }

section

variable {A : Nat → Prop} {held : List BufId} {s s' : State} {n b : Nat} {ip : Slot} {i : Fin 13}
  {rk : List Nat} {e : Entry} {G H : Event → Prop} {E : Panic → Prop}

@[simp] theorem sat_readEntry {Q : Nat → State → Prop} :
    Sat (readEntry e) s G Q E ↔ Q (entryVal s e) s := by
  cases e <;> simp [readEntry, entryVal]

@[simp] theorem sat_writeEntry {v : Nat} {Q : Unit → State → Prop} :
    Sat (writeEntry e v) s G Q E ↔ Q () (s.setEntry e v) := by
  cases e <;> simp [writeEntry, State.setEntry]

theorem Opened.congr (h : Opened s n ip) (hi : s'.icache = s.icache) : Opened s' n ip :=
  ⟨by rw [hi]; exact h.num, by rw [hi]; exact h.valid⟩

/-! ## Chains -/

theorem blockAt_snoc (k : Nat) (ls : List Nat) :
    blockAt s ⟨n, i, ls ++ [k]⟩ =
      if blockAt s ⟨n, i, ls⟩ = 0 then 0 else ptr s (blockAt s ⟨n, i, ls⟩) k := by
  unfold blockAt
  rw [follow_append]
  rfl

theorem Chain.length (h : Chain s n ip i held rk e) : held.length = rk.length := by
  induction h with
  | root => rfl
  | step up num ne lt ih => rw [List.length_cons, List.length_cons, ih]

/-- The held blocks and the indices determine the entry. -/
theorem Chain.entry_eq {e' : Entry} (h : Chain s n ip i held rk e)
    (h' : Chain s' n ip i held rk e') : e' = e := by
  cases h with
  | root =>
      cases h'
      rfl
  | step up num ne lt =>
      cases h'
      rfl

/-- A held buffer carries the index block of a position above the entry. -/
theorem Chain.mem (h : Chain s n ip i held rk e) {j : BufId} (hj : j ∈ held) :
    ∃ ls rest, rk.reverse = ls ++ rest ∧ rest ≠ [] ∧
      (s.cache.bufs j).blockNum = blockAt s ⟨n, i, ls⟩ ∧ blockAt s ⟨n, i, ls⟩ ≠ 0 := by
  induction h with
  | root => cases hj
  | @step held rk e buf k up num ne lt ih =>
      rcases List.mem_cons.mp hj with rfl | hj
      · exact ⟨rk.reverse, [k], by simp, by simp, num, ne⟩
      · obtain ⟨ls, rest, he, -, hn, hne⟩ := ih hj
        exact ⟨ls, rest ++ [k], by simp [he], by simp, hn, hne⟩

/-- The chain only depends on the pointer in `addrs` and the held index blocks. -/
theorem Chain.stable {t : State} (h : Chain s n ip i held rk e)
    (hroot : (inodeCopy t n).addrs i = (inodeCopy s n).addrs i)
    (hnum : ∀ j ∈ held, (t.cache.bufs j).blockNum = (s.cache.bufs j).blockNum)
    (hview : ∀ j ∈ held, t.view (s.cache.bufs j).blockNum = s.view (s.cache.bufs j).blockNum) :
    Chain t n ip i held rk e ∧ blockAt t ⟨n, i, rk.reverse⟩ = blockAt s ⟨n, i, rk.reverse⟩ := by
  induction h with
  | root => exact ⟨.root, by simp only [blockAt, List.reverse_nil, follow_nil, hroot]⟩
  | @step held rk e buf k up num ne lt ih =>
      obtain ⟨hup, heq⟩ := ih (fun j hj => hnum j (List.mem_cons_of_mem _ hj))
        (fun j hj => hview j (List.mem_cons_of_mem _ hj))
      have hb := hnum buf List.mem_cons_self
      have hv := hview buf List.mem_cons_self
      refine ⟨.step hup (by rw [hb, heq, num]) (by rw [heq]; exact ne) lt, ?_⟩
      rw [num] at hv
      rw [List.reverse_cons, blockAt_snoc, blockAt_snoc, heq, if_neg ne, if_neg ne, ptr, hv]
      rfl

theorem Chain.posOf (h : PosOf A ⟨n, i, rk.reverse⟩) {ls rest : List Nat}
    (he : rk.reverse = ls ++ rest) : PosOf A ⟨n, i, ls⟩ := by
  rw [he] at h
  exact h.of_append

/-- Held blocks are data blocks other than the one at the entry. -/
theorem Chain.held_ne (h : Chain s n ip i held rk e) (ho : Owned A s)
    (hp : PosOf A ⟨n, i, rk.reverse⟩) {j : BufId} (hj : j ∈ held) :
    InData (s.cache.bufs j).blockNum ∧
      (blockAt s ⟨n, i, rk.reverse⟩ ≠ 0 → (s.cache.bufs j).blockNum ≠ blockAt s ⟨n, i, rk.reverse⟩) := by
  obtain ⟨ls, rest, he, hr, hn, hne⟩ := h.mem hj
  have hq := Chain.posOf hp he
  refine ⟨by rw [hn]; exact ho.area _ hq hne, fun _ heq => hr ?_⟩
  have hpos := ho.excl _ _ hq hp (by rw [← hn, heq]) hne
  simp only [Pos.mk.injEq, true_and] at hpos
  rw [he, List.self_eq_append_right] at hpos
  exact hpos

theorem Chain.readable (h : Chain s n ip i held rk e)
    (hp : PosOf A ⟨n, i, rk.reverse⟩) (hb : b ≠ blockNumUnused)
    (hfree : ∀ j ∈ held, (s.cache.bufs j).blockNum ≠ b) : Readable held s b := by
  refine ⟨hb, hfree, ?_⟩
  have hd := hp.depth
  simp only [List.length_reverse] at hd
  have hl : addrLevel i ≤ 2 := by
    unfold addrLevel
    split
    · omega
    · split <;> omega
  rw [h.length]
  omega

theorem Chain.val (h : Chain s n ip i held rk e) (hs : StoreInv held s) (hu : UniqueSlots s)
    (ho : Owned A s) (hop : Opened s n ip) (hp : PosOf A ⟨n, i, rk.reverse⟩) :
    entryVal s e = blockAt s ⟨n, i, rk.reverse⟩ := by
  cases h with
  | root =>
      have hc := inodeCopy_slot hu hop.valid hop.num (ho.bound n hp.ino)
      rw [blockAt, hc]
      rfl
  | @step held rk e buf k up num ne lt =>
      rw [List.reverse_cons] at hp
      have hd := ho.ge (hp.of_append) ne
      have hv := hs.cache.view_cached (i := buf) (by rw [num]; unfold blockNumUnused; omega)
      rw [List.reverse_cons, blockAt_snoc, if_neg ne, ptr, ← num, hv]
      rfl

/-- Handing out another buffer keeps the chain: its blocks are held. -/
theorem Chain.read {j : BufId} (hc : Chain s n ip i held rk e) (hs : CacheInv held s)
    (ho : Owned A s) (hp : PosOf A ⟨n, i, rk.reverse⟩) (r : ReadPost held s b j s') :
    Chain s' n ip i held rk e ∧ blockAt s' ⟨n, i, rk.reverse⟩ = blockAt s ⟨n, i, rk.reverse⟩ := by
  have hnum : ∀ k ∈ held, (s'.cache.bufs k).blockNum = (s.cache.bufs k).blockNum := by
    intro k hk
    rw [r.other k fun he => r.fresh (he ▸ hk)]
  refine hc.stable ?_ hnum fun k hk => ?_
  · rw [inodeCopy_congr (s := s) (by rw [r.eq]) (by rw [r.eq])]
  · have hd := inData_iff.mp (hc.held_ne ho hp hk).1
    have hne : (s.cache.bufs k).blockNum ≠ blockNumUnused := by unfold blockNumUnused; omega
    have hv := r.inv.view_cached (i := k) (by rw [hnum k hk]; exact hne)
    rw [hnum k hk, r.other k fun he => r.fresh (he ▸ hk)] at hv
    rw [hv, hs.view_cached hne]

theorem Chain.release {j : BufId} (hc : Chain s n ip i held rk e) (hs : CacheInv (j :: held) s)
    (r : ReleasePost held s j s') : Chain s' n ip i held rk e := by
  refine (hc.stable ?_ (fun k _ => r.num k) fun k _ => r.view hs _).1
  rw [inodeCopy_congr (s := s) (by rw [r.eq]) (by rw [r.eq])]

/-! ## Filling an entry -/

/-- Changing an entry that belongs to another inode. -/
theorem inodeCopy_setInode_other {m : Nat} {x : Inode} (hs : (s.icache ip).inodeNum ≠ m)
    (hx : x.inodeNum ≠ m) : inodeCopy (s.setInode ip x) m = inodeCopy s m := by
  have hpred : (fun j => decide (((s.setInode ip x).icache j).inodeNum = m) &&
      ((s.setInode ip x).icache j).valid) =
      fun j => decide ((s.icache j).inodeNum = m) && (s.icache j).valid := by
    funext j
    by_cases hj : j = ip
    · simp [hj, hs, hx]
    · simp [hj]
  unfold inodeCopy
  rw [hpred]
  cases hf : (List.finRange nInode).find? fun j =>
      decide ((s.icache j).inodeNum = m) && (s.icache j).valid with
  | none => rfl
  | some j =>
      have hj := find_slot_some hf
      have hne : j ≠ ip := fun he => by
        simp [he, hs] at hj
      simp [hne]

theorem inodeCopy_setInode (hu : UniqueSlots s) (hop : Opened s n ip) (hn : n < nInodeDisk)
    {x : Inode} (hx : x.inodeNum = n) (hv : x.valid = true) (m : Nat) :
    inodeCopy (s.setInode ip x) m = if m = n then x.toDiskInode else inodeCopy s m := by
  by_cases hm : m = n
  · subst hm
    rw [if_pos rfl]
    have hu' : UniqueSlots (s.setInode ip x) := by
      have keep : ∀ j, ((s.setInode ip x).icache j).inodeNum = (s.icache j).inodeNum := by
        intro j
        by_cases hj : j = ip
        · simp [hj, hx, hop.num]
        · simp [hj]
      intro j k
      rw [keep, keep]
      exact hu j k
    have hv' : ((s.setInode ip x).icache ip).valid = true := by simpa using hv
    rw [inodeCopy_slot hu' hv' (by simpa using hx) hn]
    simp
  · rw [if_neg hm]
    exact inodeCopy_setInode_other (by rw [hop.num]; exact Ne.symm hm) (by rw [hx]; exact Ne.symm hm)

theorem view_setData {buf : BufId} {q : Nat} {d : Block} (h : CacheInv held s)
    (hq : (s.cache.bufs buf).blockNum = q) (hne : q ≠ blockNumUnused) (c : Nat) :
    (s.setBuf buf { s.cache.bufs buf with data := d }).view c = if c = q then d else s.view c := by
  have h' := h.setData buf d
  have hself :
      ((s.setBuf buf { s.cache.bufs buf with data := d }).cache.bufs buf).blockNum = q := by
    simp [State.setBuf, hq]
  by_cases hc : c = q
  · rw [if_pos hc, hc]
    have hv := h'.view_cached (i := buf) (by rw [hself]; exact hne)
    rw [hself] at hv
    rw [hv]
    simp [State.setBuf]
  · rw [if_neg hc]
    refine h.view_congr h' ?_ rfl
    intro j hj
    by_cases hjb : j = buf
    · rw [hjb, hself, hq] at hj
      exact absurd (hj.elim Eq.symm Eq.symm) hc
    · simp [State.setBuf, hjb]

/-- How the tree changes when the empty entry `e` is set to `b`. -/
def FilledAt (A : Nat → Prop) (s : State) (p₀ : Pos) (b : Nat) (s' : State) : Prop :=
  ∀ p, PosOf A p → blockAt s' p = blockAt s p ∨ (p = p₀ ∧ blockAt s' p = b)

/-- Below a new block there is nothing: it is a leaf, or an empty index block. -/
def Bare (i : Fin 13) (rk : List Nat) (s : State) (b : Nat) : Prop :=
  rk.length = addrLevel i ∨ ∀ k < entryPerBlock, ptr s b k = 0

theorem filledAt_addr (hu : UniqueSlots s) (hop : Opened s n ip) (hn : n < nInodeDisk)
    (hzero : blockAt s ⟨n, i, []⟩ = 0) (hb : InData b) (hbare : Bare i [] s b) :
    FilledAt A s ⟨n, i, []⟩ b (s.setEntry (.addr ip i) b) := by
  rintro ⟨m, j, ks⟩ hp
  have hcopy := inodeCopy_setInode hu hop hn (x := { s.icache ip with
    addrs := Function.update (s.icache ip).addrs i (UInt32.ofNat b) }) hop.num hop.valid m
  have hptr : ptr (s.setEntry (.addr ip i) b) = ptr s := rfl
  by_cases hm : m = n
  · subst hm
    rw [if_pos rfl] at hcopy
    by_cases hj : j = i
    · subst hj
      have hroot : ((inodeCopy (s.setEntry (.addr ip j) b) m).addrs j).toNat = b := by
        rw [State.setEntry, hcopy]
        simp only [Function.update_self]
        exact Mkfs.toNat_ofNat_inData hb
      cases ks with
      | nil =>
          right
          exact ⟨rfl, hroot⟩
      | cons k ks =>
          left
          have hold : blockAt s ⟨m, j, k :: ks⟩ = 0 := by
            have hz : ((inodeCopy s m).addrs j).toNat = 0 := hzero
            rw [blockAt, hz, follow_null]
          rw [inData_iff] at hb
          rw [hold, blockAt, hroot, hptr, follow_cons (by omega)]
          rcases hbare with hl | hz
          · have hd := hp.depth
            simp only [List.length_cons, ← hl, List.length_nil] at hd
            omega
          · rw [hz k (hp.entry k List.mem_cons_self), follow_null]
    · left
      have hkeep : (inodeCopy (s.setEntry (.addr ip i) b) m).addrs j = (inodeCopy s m).addrs j := by
        rw [State.setEntry, hcopy, inodeCopy_slot hu hop.valid hop.num hn]
        simp only [Function.update_of_ne hj]
      rw [blockAt, hkeep, hptr]
      rfl
  · left
    rw [if_neg hm] at hcopy
    rw [blockAt, State.setEntry, hcopy]
    rfl

theorem filledAt_word {buf : BufId} {k : Nat} {q : Nat} (h : TreeInv A held s)
    (hnum : (s.cache.bufs buf).blockNum = q) (hq : blockAt s ⟨n, i, rk.reverse⟩ = q) (hq0 : q ≠ 0)
    (hp₀ : PosOf A ⟨n, i, rk.reverse ++ [k]⟩) (hzero : ptr s q k = 0) (hb : InData b)
    (hfresh : ∀ p, PosOf A p → blockAt s p ≠ b) (hbare : Bare i (k :: rk) s b) :
    FilledAt A s ⟨n, i, rk.reverse ++ [k]⟩ b (s.setEntry (.word buf k) b) := by
  have hqd := h.owned.ge hp₀.of_append (by rw [hq]; exact hq0)
  rw [hq] at hqd
  have hb' := inData_iff.mp hb
  have hview := view_setData (d := setWord (s.cache.bufs buf).data k b) h.store.cache hnum
    (by unfold blockNumUnused; omega)
  have hdata : (s.cache.bufs buf).data = s.view q := by
    rw [← hnum, h.store.cache.view_cached (by rw [hnum]; unfold blockNumUnused; omega)]
  have hset : ∀ p j, ¬ (p = q ∧ j = k) → ptr (s.setEntry (.word buf k) b) p j = ptr s p j := by
    intro p j hpj
    simp only [ptr, State.setEntry, hview]
    by_cases hpq : p = q
    · rw [if_pos hpq, word_setWord_ne _ _ fun hj => hpj ⟨hpq, hj⟩, hdata, hpq]
    · rw [if_neg hpq]
  have hnew : ptr (s.setEntry (.word buf k) b) q k = b := by
    simp only [ptr, State.setEntry, hview, if_true]
    exact word_setWord_same _ _ _ (by omega)
  have hcopy : ∀ m, inodeCopy (s.setEntry (.word buf k) b) m = inodeCopy s m := fun m => rfl
  rintro ⟨m, j, ks⟩ hp
  rcases follow_set 0 hset ((inodeCopy s m).addrs j).toNat ks with hs | ⟨ls, rest, he, hls, -, hr⟩
  · left
    rw [blockAt, hcopy, hs]
    rfl
  · subst he
    have hls' : blockAt s ⟨m, j, ls⟩ = q := hls
    have hpos := h.owned.excl ⟨m, j, ls⟩ ⟨n, i, rk.reverse⟩ hp.of_append hp₀.of_append
      (by rw [hls', hq]) (by rw [hls']; exact hq0)
    simp only [Pos.mk.injEq] at hpos
    obtain ⟨rfl, rfl, rfl⟩ := hpos
    have hval : blockAt (s.setEntry (.word buf k) b) ⟨m, j, rk.reverse ++ k :: rest⟩ =
        follow 0 (ptr (s.setEntry (.word buf k) b)) b rest := by
      rw [hnew] at hr
      exact hr
    cases rest with
    | nil =>
        right
        exact ⟨rfl, hval⟩
    | cons k' rest =>
        left
        have hold : blockAt s ⟨m, j, rk.reverse ++ k :: k' :: rest⟩ = 0 := by
          have he2 : rk.reverse ++ k :: k' :: rest = (rk.reverse ++ [k]) ++ (k' :: rest) := by simp
          have hz : blockAt s ⟨m, j, rk.reverse ++ [k]⟩ = 0 := by
            rw [blockAt_snoc, hq, if_neg hq0, hzero]
          rw [he2, blockAt, follow_append]
          have hz' : follow 0 (ptr s) ((inodeCopy s m).addrs j).toNat (rk.reverse ++ [k]) = 0 := hz
          rw [hz', follow_null]
        rw [hval, hold, follow_cons (by omega)]
        rcases hbare with hl | hz
        · have hd := hp.depth
          simp only [List.length_append, List.length_reverse, List.length_cons] at hd hl
          omega
        · have hbq : b ≠ q := fun he => hfresh _ hp₀.of_append (by rw [hq, he])
          rw [hset b k' (fun hx => hbq hx.1), hz k' (hp.entry k' (by simp)), follow_null]

/-- Filling the empty entry at the end of a chain. -/
theorem Chain.filledAt (hc : Chain s n ip i held rk e) (h : TreeInv A held s) (hop : Opened s n ip)
    (hp : PosOf A ⟨n, i, rk.reverse⟩) (hzero : blockAt s ⟨n, i, rk.reverse⟩ = 0) (hb : InData b)
    (hfresh : ∀ p, PosOf A p → blockAt s p ≠ b) (hbare : Bare i rk s b) :
    FilledAt A s ⟨n, i, rk.reverse⟩ b (s.setEntry e b) := by
  cases hc with
  | root => exact filledAt_addr h.uniq hop (h.owned.bound n hp.ino) hzero hb hbare
  | @step held rk e buf k up num ne lt =>
      rw [List.reverse_cons] at hp hzero ⊢
      rw [blockAt_snoc, if_neg ne] at hzero
      exact filledAt_word h num rfl ne hp hzero hb hfresh hbare

/-- What filling an entry does to the store, apart from the tree. -/
structure EntrySet (held : List BufId) (ip : Slot) (s s' : State) : Prop where
  store : StoreInv held s'
  disk : s'.disk = s.disk
  locks : s'.locks = s.locks
  cwd : s'.cwd = s.cwd
  icache : ∃ a, s'.icache = Function.update s.icache ip { s.icache ip with addrs := a }
  addrs : ∀ j, (s.icache ip).addrs j ≠ 0 → (s'.icache ip).addrs j = (s.icache ip).addrs j
  num : ∀ j, (s'.cache.bufs j).blockNum = (s.cache.bufs j).blockNum

theorem Chain.entrySet (hc : Chain s n ip i held rk e) (h : TreeInv A held s)
    (hop : Opened s n ip) (hp : PosOf A ⟨n, i, rk.reverse⟩)
    (hzero : blockAt s ⟨n, i, rk.reverse⟩ = 0) (b : Nat) :
    EntrySet held ip s (s.setEntry e b) ∧
      ∀ c, (∀ j ∈ held, (s.cache.bufs j).blockNum ≠ c) → (s.setEntry e b).view c = s.view c := by
  have hval := hc.val h.store h.uniq h.owned hop hp
  cases hc with
  | root =>
      refine ⟨⟨?_, rfl, rfl, rfl, ⟨_, rfl⟩, fun j hj => ?_, fun j => rfl⟩, fun c _ => rfl⟩
      · exact ⟨h.store.sb, h.store.cache.setInode _, h.store.settled, h.store.kept⟩
      · have hji : j ≠ i := fun he => hj (by
          rw [he]
          exact UInt32.toNat_inj.mp (hval.trans hzero))
        simp [State.setEntry, hji]
  | @step held rk e buf k up num ne lt =>
      rw [List.reverse_cons] at hp hzero
      have hd := h.owned.ge hp.of_append ne
      rw [blockAt_snoc, if_neg ne] at hzero
      have hview := view_setData (d := setWord (s.cache.bufs buf).data k b) h.store.cache num
        (by unfold blockNumUnused; omega)
      have hdata : (s.cache.bufs buf).data = s.view (blockAt s ⟨n, i, rk.reverse⟩) := by
        rw [← num, h.store.cache.view_cached (by rw [num]; unfold blockNumUnused; omega)]
      refine ⟨⟨⟨h.store.sb, h.store.cache.setData _ _, fun c hlt => ?_, fun c k' => ?_⟩, rfl, rfl,
        rfl,
        ⟨(s.icache ip).addrs, by simp [State.setEntry, State.setBuf]⟩, fun j _ => rfl, fun j => ?_⟩,
        fun c hne => ?_⟩
      · simp only [State.setEntry, hview]
        rw [if_neg (by omega)]
        exact h.store.settled c hlt
      · simp only [ptr, State.setEntry, hview]
        by_cases hcq : c = blockAt s ⟨n, i, rk.reverse⟩
        · rw [if_pos hcq, hdata]
          have hk := h.store.kept c k'
          by_cases hkk : k' = k
          · right
            rw [hkk, hcq] at hk ⊢
            rcases hk with hk | hk
            · exact hk.trans hzero
            · exact hk
          · rw [word_setWord_ne _ _ hkk, ← hcq]
            exact hk
        · rw [if_neg hcq]
          exact h.store.kept c k'
      · by_cases hj : j = buf <;> simp [State.setEntry, State.setBuf, hj]
      · simp only [State.setEntry, hview]
        rw [if_neg fun he => hne buf List.mem_cons_self (by rw [num, he])]

theorem TreeInv.fill (h : TreeInv A held s) (hc : Chain s n ip i held rk e) (hop : Opened s n ip)
    (hp : PosOf A ⟨n, i, rk.reverse⟩) (hzero : blockAt s ⟨n, i, rk.reverse⟩ = 0) (hb : InData b)
    (hbit : dbit s.disk b = true) (hfresh : ∀ p, PosOf A p → blockAt s p ≠ b)
    (hbare : Bare i rk s b) : TreeInv A held (s.setEntry e b) := by
  have hf := hc.filledAt h hop hp hzero hb hfresh hbare
  obtain ⟨hset, -⟩ := hc.entrySet h hop hp hzero b
  refine ⟨hset.store, ?_, ⟨h.owned.bound, ?_, ?_⟩, ?_⟩
  · obtain ⟨a, ha⟩ := hset.icache
    have keep : ∀ j, ((s.setEntry e b).icache j).inodeNum = (s.icache j).inodeNum := by
      intro j
      rw [ha]
      by_cases hj : j = ip <;> simp [hj]
    intro j k
    rw [keep, keep]
    exact h.uniq j k
  · intro p hp' hne
    rcases hf p hp' with he | ⟨-, he⟩
    · rw [he] at hne ⊢
      exact h.owned.area p hp' hne
    · rw [he]
      exact hb
  · refine h.owned.excl.insert ⟨n, i, rk.reverse⟩ (b := b) hfresh (fun _ hv => hv) ?_
    intro p hp'
    rcases hf p hp' with he | he
    · exact Or.inl he
    · exact Or.inr (Or.inr he)
  · intro p hp' hne
    rw [hset.disk]
    rcases hf p hp' with he | ⟨-, he⟩
    · rw [he] at hne ⊢
      exact h.marked p hp' hne
    · rw [he]
      exact hbit

theorem Chain.fill (hc : Chain s n ip i held rk e) (h : TreeInv A held s)
    (hp : PosOf A ⟨n, i, rk.reverse⟩) (b : Nat) :
    Chain (s.setEntry e b) n ip i held rk e := by
  cases hc with
  | root => exact .root
  | @step held rk e buf k up num ne lt =>
      rw [List.reverse_cons] at hp
      have hp' := hp.of_append
      have hd := h.owned.ge hp' ne
      have hview := view_setData (d := setWord (s.cache.bufs buf).data k b) h.store.cache num
        (by unfold blockNumUnused; omega)
      have keep : ∀ j, ((s.setEntry (.word buf k) b).cache.bufs j).blockNum =
          (s.cache.bufs j).blockNum := by
        intro j
        by_cases hj : j = buf <;> simp [State.setEntry, State.setBuf, hj]
      obtain ⟨hup, heq⟩ := up.stable (t := s.setEntry (.word buf k) b) rfl (fun j _ => keep j)
        fun j hj => by
          simp only [State.setEntry, hview]
          rw [if_neg ((up.held_ne h.owned hp' hj).2 ne)]
      exact .step hup (by rw [keep, heq, num]) (by rw [heq]; exact ne) lt

theorem entryVal_setEntry (hb : InData b) : entryVal (s.setEntry e b) e = b := by
  cases e with
  | addr ip i =>
      simp only [entryVal, State.setEntry, setInode_icache, Function.update_self]
      exact Mkfs.toNat_ofNat_inData hb
  | word buf k =>
      rw [inData_iff] at hb
      simp only [entryVal, State.setEntry, State.setBuf, Function.update_self]
      exact word_setWord_same _ _ _ (by omega)

/-! ## Net effect of a lookup -/

def Inner (A : Nat → Prop) (n : Nat) (s : State) (b : Nat) : Prop :=
  ∃ p k, PosOf A ⟨p.ino, p.field, p.path ++ [k]⟩ ∧ p.ino = n ∧ blockAt s p = b

/-- The state after lookups in inode `n`: new blocks were free before, and apart from index
blocks of `n` every block reads as before or as the disk. -/
structure Ext (A : Nat → Prop) (n : Nat) (ip : Slot) (s s' : State) : Prop where
  sb : s'.sb = s.sb
  cwd : s'.cwd = s.cwd
  locks : ∀ lk, (∀ j, lk ≠ .buf j) → s'.locks lk = s.locks lk
  icache : ∃ a, s'.icache = Function.update s.icache ip { s.icache ip with addrs := a }
  addrs : ∀ j, (s.icache ip).addrs j ≠ 0 → (s'.icache ip).addrs j = (s.icache ip).addrs j
  disk : ∀ b, b ≠ 130 → s'.disk b = s.disk b
  bits : ∀ b, InData b → dbit s.disk b = true → dbit s'.disk b = true
  nodes : ∀ p, PosOf A p → blockAt s' p = blockAt s p ∨ blockAt s' p = 0 ∨
    (p.ino = n ∧ InData (blockAt s' p) ∧ dbit s.disk (blockAt s' p) = false)
  used : ∀ b, InData b → dbit s.disk b = true → ¬ Inner A n s b →
    s'.view b = s.view b ∨ s'.view b = s.disk b
  free : ∀ b, InData b → dbit s'.disk b = false → s'.view b = s.view b ∨ s'.view b = s.disk b

theorem Ext.refl (A : Nat → Prop) (n : Nat) (ip : Slot) (s : State) : Ext A n ip s s where
  sb := rfl
  cwd := rfl
  locks _ _ := rfl
  icache := ⟨(s.icache ip).addrs, by simp⟩
  addrs _ _ := rfl
  disk _ _ := rfl
  bits _ _ h := h
  nodes _ _ := Or.inl rfl
  used _ _ _ _ := Or.inl rfl
  free _ _ _ := Or.inl rfl

/-- A block that was taken is still taken, and a block that is free was free. -/
theorem Ext.bit_false (h : Ext A n ip s s') (hb : InData b) (hf : dbit s'.disk b = false) :
    dbit s.disk b = false := by
  by_contra hne
  rw [h.bits b hb (by simpa using hne)] at hf
  cases hf

/-- Free data blocks have never been written, neither in the cache nor on disk. -/
def FreeEmpty (s : State) : Prop :=
  ∀ b, InData b → dbit s.disk b = false → (s.view b = fun _ => 0) ∧ s.disk b = fun _ => 0

theorem Ext.empty (h : Ext A n ip s s') (he : FreeEmpty s) : FreeEmpty s' := by
  intro b hd hb
  obtain ⟨hv, hz⟩ := he b hd (h.bit_false hd hb)
  have hdisk := h.disk b (by rw [inData_iff] at hd; omega)
  refine ⟨?_, by rw [hdisk, hz]⟩
  rcases h.free b hd hb with h1 | h1
  · rw [h1, hv]
  · rw [h1, hz]

/-- What a condition `G` on events must give from `s` on: no allocation fails, and an index block
that is taken is empty, be it because `G` says so or because every free block is. -/
structure Careful (G : Event → Prop) (s : State) : Prop where
  fail : ¬ G .allocFail
  index : (∀ c d, G (.newIndex c d) → ∀ k < entryPerBlock, word d k = 0) ∨ FreeEmpty s

theorem Careful.good (s : State) : Careful GoodEvent s := ⟨id, Or.inl fun _ _ h => h⟩

theorem Careful.ext (h : Careful G s) (he : Ext A n ip s s') : Careful G s' :=
  ⟨h.fail, h.index.imp_right he.empty⟩

theorem Ext.inner (h : Ext A n ip s s') (hb : InData b) (hbit : dbit s.disk b = true)
    (hi : Inner A n s' b) : Inner A n s b := by
  obtain ⟨p, k, hp, hn, he⟩ := hi
  refine ⟨p, k, hp, hn, ?_⟩
  rcases h.nodes p hp.of_append with h1 | h1 | ⟨-, -, h1⟩
  · rw [← h1, he]
  · rw [he] at h1
    rw [h1, inData_iff] at hb
    omega
  · rw [he, hbit] at h1
    cases h1

theorem Ext.trans {s'' : State} (h : Ext A n ip s s') (h' : Ext A n ip s' s'') :
    Ext A n ip s s'' := by
  have ne130 : ∀ {b}, InData b → b ≠ 130 := fun hb => by
    rw [inData_iff] at hb
    omega
  refine ⟨h'.sb.trans h.sb, h'.cwd.trans h.cwd, fun lk hl => (h'.locks lk hl).trans (h.locks lk hl),
    ?_, fun j hj => ?_, fun b hb => (h'.disk b hb).trans (h.disk b hb),
    fun b hd hb => h'.bits b hd (h.bits b hd hb), fun p hp => ?_, fun b hd hb hi => ?_,
    fun b hd hb => ?_⟩
  · obtain ⟨a, ha⟩ := h.icache
    obtain ⟨a', ha'⟩ := h'.icache
    exact ⟨a', by rw [ha', ha]; simp⟩
  · have h1 := h.addrs j hj
    exact (h'.addrs j (by rw [h1]; exact hj)).trans h1
  · rcases h'.nodes p hp with h1 | h1 | ⟨h1, h2, h3⟩
    · rw [h1]
      exact h.nodes p hp
    · exact Or.inr (Or.inl h1)
    · exact Or.inr (Or.inr ⟨h1, h2, h.bit_false h2 h3⟩)
  · rcases h'.used b hd (h.bits b hd hb) (fun hi' => hi (h.inner hd hb hi')) with h1 | h1
    · rw [h1]
      exact h.used b hd hb hi
    · rw [h1, h.disk b (ne130 hd)]
      exact Or.inr rfl
  · rcases h'.free b hd hb with h1 | h1
    · rw [h1]
      exact h.free b hd (h'.bit_false hd hb)
    · rw [h1, h.disk b (ne130 hd)]
      exact Or.inr rfl

theorem Ext.opened (h : Ext A n ip s s') (hop : Opened s n ip) : Opened s' n ip := by
  obtain ⟨a, ha⟩ := h.icache
  exact ⟨by rw [ha]; simp [hop.num], by rw [ha]; simp [hop.valid]⟩

/-- Lookups leave the locks alone. -/
theorem Ext.locks_eq (h : Ext A n ip s s') (hs : CacheInv held s) (hs' : CacheInv held s') :
    s'.locks = s.locks := by
  funext lk
  cases lk with
  | buf j => rw [hs'.locked, hs.locked]
  | bufCache => exact h.locks _ (by simp)
  | icache => exact h.locks _ (by simp)
  | inode j => exact h.locks _ (by simp)

end

end WhuOs.Fs
