import WhuOs.Lib.Ring
import WhuOs.Fs.Store
import WhuOs.Mkfs

/-! # The ring of buffers (`kernel/fs/buf.c`)

The buffer cache with the `next` and `prev` pointers of its nodes, as `buf.c`
keeps it. `insert_head` unlinks and relinks a node in place and the two scans of
`buf_read` follow the pointers. `Abs` relates it to the cache of `Fs.Buf`, where
the ring is a list; every function simulates its namesake there.
-/

namespace WhuOs.Fs

open Prog Links

/-- A pointer to a `buf_node_t`. -/
inductive BufPtr where
  | head
  | node (i : BufId)
deriving DecidableEq

/-- The kernel state with `buf_cache` and `head_buf` as nodes. -/
structure RawState extends Core where
  bufs : BufId → Buf
  links : Links BufPtr

abbrev RawM (α : Type) := Prog RawState Panic Event α

namespace Raw

/-! ## The code -/

def spinlockInit (lk : Lock) : RawM Unit :=
  modify fun s => { s with locks := Function.update s.locks lk false }

def spinlockHolding (lk : Lock) : RawM Bool := do return (← state).locks lk

def spinlockAcquire (lk : Lock) : RawM Unit := do
  if ← spinlockHolding lk then panic lk.twice
  modify fun s => { s with locks := Function.update s.locks lk true }

def spinlockRelease (lk : Lock) : RawM Unit := do
  if !(← spinlockHolding lk) then panic .release
  modify fun s => { s with locks := Function.update s.locks lk false }

def modifyBuf (i : BufId) (f : Buf → Buf) : RawM Unit :=
  modify fun s => { s with bufs := Function.update s.bufs i (f (s.bufs i)) }

/-- Follow a pointer; `none` is null. -/
def deref (p : Option BufPtr) : RawM BufPtr :=
  match p with
  | some p => return p
  | none => panic .nullPointer

/-- `p->next`. -/
def next (p : Option BufPtr) : RawM (Option BufPtr) := do
  let p ← deref p
  return (← state).links.next p

/-- `p->prev`. -/
def prev (p : Option BufPtr) : RawM (Option BufPtr) := do
  let p ← deref p
  return (← state).links.prev p

/-- `p->next = v`. -/
def setNext (p v : Option BufPtr) : RawM Unit := do
  let p ← deref p
  modify fun s => { s with links := s.links.setNext p v }

/-- `p->prev = v`. -/
def setPrev (p v : Option BufPtr) : RawM Unit := do
  let p ← deref p
  modify fun s => { s with links := s.links.setPrev p v }

/-- The first half of `insert_head`; a node that was never inserted has null pointers. -/
def leave (i : BufId) : RawM Unit := do
  let bufNode := some (BufPtr.node i)
  if (← next bufNode).isSome && (← prev bufNode).isSome then
    setPrev (← next bufNode) (← prev bufNode)
    setNext (← prev bufNode) (← next bufNode)

def insertNext (i : BufId) : RawM Unit := do
  let bufNode := some (BufPtr.node i)
  setPrev bufNode (some .head)
  setNext bufNode (← next (some .head))
  setPrev (← next (some .head)) bufNode
  setNext (some .head) bufNode

def insertPrev (i : BufId) : RawM Unit := do
  let bufNode := some (BufPtr.node i)
  setNext bufNode (some .head)
  setPrev bufNode (← prev (some .head))
  setNext (← prev (some .head)) bufNode
  setPrev (some .head) bufNode

def insertHead (i : BufId) (headNext : Bool) : RawM Unit := do
  leave i
  if headNext then insertNext i else insertPrev i

/-- The body of the loop of `buf_init`. -/
def initNode (i : BufId) : RawM Unit := do
  spinlockInit (.buf i)
  modifyBuf i fun b => { b with blockNum := blockNumUnused, ref := 0 }
  insertHead i false

def bufInit : RawM Unit := do
  spinlockInit .bufCache
  setNext (some .head) (some .head)
  setPrev (some .head) (some .head)
  runAll initNode (List.finRange 64)

/-- `for (node = p; node != &head_buf; node = step(node))`, up to the first node that passes the
test. -/
def scan (step : Option BufPtr → RawM (Option BufPtr)) (test : Buf → Bool) :
    Nat → Option BufPtr → RawM (Option BufId)
  | 0, _ => panic .depth
  | _ + 1, none => panic .nullPointer
  | _ + 1, some .head => return none
  | n + 1, some (.node i) => do
      if test ((← state).bufs i) then return some i
      scan step test n (← step (some (.node i)))

def virtioDiskRw (i : BufId) (write : Bool) : RawM Unit := do
  let b := (← state).bufs i
  if write then
    emit (.diskWrite b.blockNum)
    modify fun s => { s with disk := Function.update s.disk b.blockNum b.data }
  else
    let data := (← state).disk b.blockNum
    modifyBuf i fun b => { b with data := data }

def bufRead (blockNum : Nat) : RawM BufId := do
  spinlockAcquire .bufCache
  match ← scan next (fun b => b.blockNum = blockNum) (nBlockBuf + 1) (← next (some .head)) with
  | some i =>
      modifyBuf i fun b => { b with ref := b.ref + 1 }
      spinlockRelease .bufCache
      spinlockAcquire (.buf i)
      return i
  | none =>
    match ← scan prev (fun b => b.ref = 0) (nBlockBuf + 1) (← prev (some .head)) with
    | some i =>
        modifyBuf i fun b => { b with blockNum := blockNum, ref := 1 }
        spinlockRelease .bufCache
        spinlockAcquire (.buf i)
        virtioDiskRw i false
        return i
    | none =>
        spinlockRelease .bufCache
        panic .bufReadNoBuffers

def bufWrite (i : BufId) : RawM Unit := do
  if !(← spinlockHolding (.buf i)) then panic .bufWriteNotHolding
  virtioDiskRw i true

def bufRelease (i : BufId) : RawM Unit := do
  if !(← spinlockHolding (.buf i)) then panic .bufReleaseNotHolding
  spinlockRelease (.buf i)
  spinlockAcquire .bufCache
  modifyBuf i fun b => { b with ref := b.ref - 1 }
  if ((← state).bufs i).ref = 0 then insertHead i true
  spinlockRelease .bufCache

/-! ## Pointer operations -/

section Pointers

variable {r : RawState} {p : BufPtr} {v : Option BufPtr}

theorem spinlockInit_run {lk : Lock} (h : r.locks lk = false) :
    spinlockInit lk r = (.ok ((), r), []) := by
  have hlk : Function.update r.locks lk false = r.locks := by
    rw [Function.update_eq_self_iff, h]
  simp only [spinlockInit, Prog.modify, hlk]

theorem modifyBuf_run {i : BufId} {f : Buf → Buf} : modifyBuf i f r =
    (.ok ((), { r with bufs := Function.update r.bufs i (f (r.bufs i)) }), []) := rfl

theorem next_run : next (some p) r = (.ok (r.links.next p, r), []) := rfl

theorem prev_run : prev (some p) r = (.ok (r.links.prev p, r), []) := rfl

theorem setNext_run : setNext (some p) v r =
    (.ok ((), { r with links := r.links.setNext p v }), []) := rfl

theorem setPrev_run : setPrev (some p) v r =
    (.ok ((), { r with links := r.links.setPrev p v }), []) := rfl

variable {i : BufId}

theorem leave_run {a b : BufPtr} (hn : r.links.next (.node i) = some b)
    (hp : r.links.prev (.node i) = some a) :
    leave i r = (.ok ((), { r with links := (r.links.setPrev b (some a)).setNext a (some b) }),
      []) := by
  have hp' : (r.links.setPrev b (some a)).prev (.node i) = some a := by simp [hp]
  have hn' : (r.links.setPrev b (some a)).next (.node i) = some b := hn
  unfold leave
  simp only [bind_silent next_run, bind_silent prev_run, hn, hp, Option.isSome_some, Bool.and_self,
    if_true, bind_silent setPrev_run, hn', hp', setNext_run]

theorem leave_run_fresh (hn : r.links.next (.node i) = none) : leave i r = (.ok ((), r), []) := by
  unfold leave
  simp only [bind_silent next_run, bind_silent prev_run, hn, Option.isSome_none, Bool.false_and,
    Bool.false_eq_true, if_false]
  rfl

theorem insertNext_run {q : BufPtr} (hq : r.links.next .head = some q) :
    insertNext i r = (.ok ((), { r with
      links := (((r.links.setPrev (.node i) (some .head)).setNext (.node i) (some q)).setPrev q
        (some (.node i))).setNext .head (some (.node i)) }), []) := by
  have hq' : ((r.links.setPrev (.node i) (some .head)).setNext (.node i) (some q)).next .head =
      some q := by simp [hq]
  unfold insertNext
  simp only [bind_silent setPrev_run, bind_silent next_run, setPrev_next, hq,
    bind_silent setNext_run,
    hq', setNext_run]

theorem insertPrev_run {q : BufPtr} (hq : r.links.prev .head = some q) :
    insertPrev i r = (.ok ((), { r with
      links := (((r.links.setNext (.node i) (some .head)).setPrev (.node i) (some q)).setNext q
        (some (.node i))).setPrev .head (some (.node i)) }), []) := by
  have hq' : ((r.links.setNext (.node i) (some .head)).setPrev (.node i) (some q)).prev .head =
      some q := by simp [hq]
  unfold insertPrev
  simp only [bind_silent setNext_run, bind_silent prev_run, setNext_prev, hq,
    bind_silent setPrev_run,
    hq', setPrev_run]

end Pointers

/-! ## The ring -/

/-- The nodes of `head_buf`'s ring, in the order of `next`. -/
structure Ring (l : Links BufPtr) (ids : List BufId) : Prop where
  seg : Seg l .head (ids.map .node) .head
  nodup : ids.Nodup

section Rings

variable {r : RawState} {l : Links BufPtr} {ids : List BufId} {i : BufId}

theorem Ring.nodup_ptrs (h : Ring l ids) : (BufPtr.head :: ids.map .node).Nodup := by
  refine List.nodup_cons.mpr ⟨by simp, h.nodup.map ?_⟩
  intro j k hjk
  exact BufPtr.node.inj hjk

/-- Behind `head_buf`. -/
theorem Ring.insertNext (h : Ring l ids) (hi : i ∉ ids) {q : BufPtr} (hq : l.next .head = some q) :
    Ring ((((l.setPrev (.node i) (some .head)).setNext (.node i) (some q)).setPrev q
      (some (.node i))).setNext .head (some (.node i))) (i :: ids) :=
  ⟨h.seg.insertFirst h.nodup_ptrs (by simpa using hi) (by simp) (by simp) hq,
    List.nodup_cons.mpr ⟨hi, h.nodup⟩⟩

/-- Before `head_buf`. -/
theorem Ring.insertPrev (h : Ring l ids) (hi : i ∉ ids) {q : BufPtr} (hq : l.prev .head = some q) :
    Ring ((((l.setNext (.node i) (some .head)).setPrev (.node i) (some q)).setNext q
      (some (.node i))).setPrev .head (some (.node i))) (ids ++ [i]) := by
  refine ⟨?_, ?_⟩
  · rw [List.map_append]
    exact h.seg.insertLast h.nodup_ptrs (by simpa using hi) (by simp) (by simp) hq
  · exact List.nodup_append.mpr ⟨h.nodup, List.nodup_singleton i, by
      rintro j hj k hk rfl
      exact hi (List.mem_singleton.mp hk ▸ hj)⟩

theorem Ring.leave (h : Ring l ids) (hi : i ∈ ids) :
    ∃ a b, l.next (.node i) = some b ∧ l.prev (.node i) = some a ∧
      Ring ((l.setPrev b (some a)).setNext a (some b)) (ids.erase i) := by
  obtain ⟨xs, ys, rfl⟩ := List.append_of_mem hi
  have hseg : Seg l .head (xs.map .node ++ .node i :: ys.map .node) .head := by
    simpa using h.seg
  have hnd : (BufPtr.head :: (xs.map .node ++ .node i :: ys.map .node)).Nodup := by
    simpa using h.nodup_ptrs
  obtain ⟨h1, h2⟩ := seg_append.mp hseg
  have hxs : i ∉ xs := by
    intro hm
    exact (List.disjoint_of_nodup_append h.nodup) hm List.mem_cons_self
  refine ⟨_, _, h2.next_eq, h1.prev_eq, ?_, h.nodup.erase i⟩
  have hu := hseg.unlink hnd (by simp) h1.prev_eq h2.next_eq
  rw [List.erase_append_right _ hxs, List.erase_cons_head, List.map_append]
  exact hu

/-- `insert_head(node, true)` moves a node to the front. -/
theorem insertHead_front (h : Ring r.links ids) (hi : i ∈ ids) :
    ∃ l, insertHead i true r = (.ok ((), { r with links := l }), []) ∧
    Ring l (i :: ids.erase i) := by
  obtain ⟨a, b, hn, hp, hr⟩ := h.leave hi
  have hq := hr.seg.next_eq
  refine ⟨_, ?_, hr.insertNext h.nodup.not_mem_erase hq⟩
  unfold insertHead
  rw [bind_silent (leave_run hn hp), if_pos rfl, insertNext_run hq]

/-- `insert_head(node, false)` appends a node that was never inserted. -/
theorem insertHead_back (h : Ring r.links ids) (hi : i ∉ ids) (hn : r.links.next (.node i) = none) :
    ∃ l, insertHead i false r = (.ok ((), { r with links := l }), []) ∧ Ring l (ids ++ [i]) ∧
      ∀ j, j ≠ i → j ∉ ids → l.next (.node j) = r.links.next (.node j) := by
  have hq := h.seg.prev_eq
  refine ⟨_, ?_, h.insertPrev hi hq, ?_⟩
  · unfold insertHead
    rw [bind_silent (leave_run_fresh hn), if_neg (by simp), insertPrev_run hq]
  · intro j hji hj
    have hlast : (BufPtr.head :: ids.map .node).getLast (by simp) ∈ BufPtr.head :: ids.map .node :=
      List.getLast_mem _
    have hne : BufPtr.node j ≠ (BufPtr.head :: ids.map .node).getLast (by simp) := by
      intro he
      rw [← he] at hlast
      simp [hj] at hlast
    simp [hne, hji]

/-- A scan finds the first node of the ring, in its direction, that passes the test. -/
theorem scan_run {step : Option BufPtr → RawM (Option BufPtr)} {test : Buf → Bool}
    (hstep : ∀ p, step (some p) r = (.ok (l.next p, r), [])) {ids : List BufId} {a : BufPtr}
    (h : Seg l a (ids.map .node) .head) {n : Nat} (hlen : ids.length < n) :
    scan step test n (l.next a) r = (.ok (ids.find? fun i => test (r.bufs i), r), []) := by
  induction ids generalizing a n with
  | nil =>
      cases n with
      | zero => simp at hlen
      | succ n =>
          rw [h.1]
          rfl
  | cons i ids ih =>
      cases n with
      | zero => simp at hlen
      | succ n =>
          obtain ⟨h1, -, h3⟩ := h
          rw [List.length_cons] at hlen
          rw [h1, scan, bind_silent (show Prog.state r = (.ok (r, r), []) from rfl)]
          cases ht : test (r.bufs i) with
          | true =>
              have hf : (i :: ids).find? (fun i => test (r.bufs i)) = some i :=
                List.find?_cons_of_pos ht
              rw [hf]
              rfl
          | false =>
              have hf : (i :: ids).find? (fun i => test (r.bufs i)) =
                  ids.find? fun i => test (r.bufs i) := List.find?_cons_of_neg (by simp [ht])
              rw [hf, ← ih h3 (n := n) (by omega)]
              exact bind_silent (hstep _)

end Rings

end Raw

/-! ## Simulation of the list of buffers -/

/-- The pointers of `r` form the list of `s`; everything else is the same. -/
structure Abs (r : RawState) (s : State) : Prop where
  core : r.toCore = s.toCore
  bufs : r.bufs = s.cache.bufs
  ring : Raw.Ring r.links s.cache.lru
  mem : ∀ i, i ∈ s.cache.lru

section Simulation

variable {r : RawState} {s : State}

theorem Abs.setLock (h : Abs r s) (lk : Lock) (v : Bool) :
    Abs { r with locks := Function.update r.locks lk v }
      { s with locks := Function.update s.locks lk v } := by
  refine ⟨?_, h.bufs, h.ring, h.mem⟩
  dsimp only
  rw [h.core]

theorem Abs.setBuf (h : Abs r s) (i : BufId) (f : Buf → Buf) :
    Abs { r with bufs := Function.update r.bufs i (f (r.bufs i)) }
      (s.setBuf i (f (s.cache.bufs i))) :=
  ⟨h.core, by rw [h.bufs]; rfl, h.ring, h.mem⟩

theorem spinlockAcquire_sim (h : Abs r s) (lk : Lock) :
    Sim Abs (Raw.spinlockAcquire lk) r (spinlockAcquire lk) s := by
  unfold Raw.spinlockAcquire spinlockAcquire
  refine sim_left (a := r.locks lk) (t := r) rfl (sim_right (a := s.locks lk) (t := s) rfl ?_)
  rw [h.core]
  cases s.locks lk with
  | true => exact ⟨rfl, rfl⟩
  | false => exact sim_modify (h.setLock lk true)

theorem spinlockRelease_sim (h : Abs r s) (lk : Lock) :
    Sim Abs (Raw.spinlockRelease lk) r (spinlockRelease lk) s := by
  unfold Raw.spinlockRelease spinlockRelease
  refine sim_left (a := r.locks lk) (t := r) rfl (sim_right (a := s.locks lk) (t := s) rfl ?_)
  rw [h.core]
  cases s.locks lk with
  | true => exact sim_modify (h.setLock lk false)
  | false => exact ⟨rfl, rfl⟩

theorem modifyBuf_sim (h : Abs r s) (i : BufId) (f : Buf → Buf) :
    Sim Abs (Raw.modifyBuf i f) r (modifyBuf i f) s :=
  sim_modify (h.setBuf i f)

theorem virtioDiskRw_sim (h : Abs r s) (i : BufId) (write : Bool) :
    Sim Abs (Raw.virtioDiskRw i write) r (virtioDiskRw i write) s := by
  unfold Raw.virtioDiskRw virtioDiskRw
  refine sim_left (a := r) (t := r) rfl (sim_right (a := s) (t := s) rfl ?_)
  rw [h.bufs]
  cases write with
  | true =>
      refine (sim_emit h).bind fun _ t t' h' => sim_modify ⟨?_, h'.bufs, h'.ring, h'.mem⟩
      dsimp only
      rw [h'.core]
  | false =>
      refine sim_left (a := r) (t := r) rfl (sim_right (a := s) (t := s) rfl ?_)
      rw [h.core]
      exact modifyBuf_sim h i _

theorem insertHead_sim (h : Abs r s) (i : BufId) :
    Sim Abs (Raw.insertHead i true) r (insertHead i) s := by
  obtain ⟨l, hrun, hring⟩ := Raw.insertHead_front h.ring (h.mem i)
  unfold Sim
  rw [hrun]
  refine ⟨rfl, rfl, h.core, h.bufs, hring, fun j => ?_⟩
  by_cases hj : j = i
  · simp [hj]
  · exact List.mem_cons_of_mem _ ((List.mem_erase_of_ne hj).mpr (h.mem j))

/-- Both scans of `buf_read` in terms of the list. -/
theorem Abs.scans (h : Abs r s) (test : Buf → Bool) :
    Raw.scan Raw.next test (nBlockBuf + 1) (r.links.next .head) r =
        (.ok (s.cache.lru.find? fun i => test (s.cache.bufs i), r), []) ∧
      Raw.scan Raw.prev test (nBlockBuf + 1) (r.links.prev .head) r =
        (.ok (s.cache.lru.reverse.find? fun i => test (s.cache.bufs i), r), []) := by
  have hlen : s.cache.lru.length < nBlockBuf + 1 := by
    have hc := h.ring.nodup.length_le_card
    rw [Fintype.card_fin] at hc
    exact Nat.lt_succ_of_le hc
  rw [← h.bufs]
  refine ⟨Raw.scan_run (fun _ => rfl) h.ring.seg hlen, ?_⟩
  refine Raw.scan_run (l := ⟨r.links.prev, r.links.next⟩) (fun _ => rfl) ?_ (by simpa using hlen)
  rw [List.map_reverse]
  exact h.ring.seg.reverse

theorem bufRead_sim (h : Abs r s) (b : Nat) : Sim Abs (Raw.bufRead b) r (bufRead b) s := by
  unfold Raw.bufRead bufRead
  refine (spinlockAcquire_sim h .bufCache).bind fun _ r₁ s₁ h₁ => ?_
  refine sim_right (a := s₁) (t := s₁) rfl ?_
  refine sim_left (a := r₁.links.next .head) (t := r₁) rfl ?_
  refine sim_left (h₁.scans _).1 ?_
  dsimp only
  cases s₁.cache.lru.find? fun i => (s₁.cache.bufs i).blockNum = b with
  | some i =>
      refine (modifyBuf_sim h₁ i _).bind fun _ _ _ h₂ => ?_
      refine (spinlockRelease_sim h₂ .bufCache).bind fun _ _ _ h₃ => ?_
      refine (spinlockAcquire_sim h₃ (.buf i)).bind fun _ _ _ h₄ => ?_
      exact sim_pure h₄
  | none =>
      refine sim_left (a := r₁.links.prev .head) (t := r₁) rfl ?_
      refine sim_left (h₁.scans _).2 ?_
      dsimp only
      cases s₁.cache.lru.reverse.find? fun i => (s₁.cache.bufs i).ref = 0 with
      | some i =>
          refine (modifyBuf_sim h₁ i _).bind fun _ _ _ h₂ => ?_
          refine (spinlockRelease_sim h₂ .bufCache).bind fun _ _ _ h₃ => ?_
          refine (spinlockAcquire_sim h₃ (.buf i)).bind fun _ _ _ h₄ => ?_
          refine (virtioDiskRw_sim h₄ i false).bind fun _ _ _ h₅ => ?_
          exact sim_pure h₅
      | none =>
          refine (spinlockRelease_sim h₁ .bufCache).bind fun _ _ _ _ => ?_
          exact sim_panic _

theorem bufWrite_sim (h : Abs r s) (i : BufId) : Sim Abs (Raw.bufWrite i) r (bufWrite i) s := by
  unfold Raw.bufWrite bufWrite
  refine sim_left (a := r.locks (.buf i)) (t := r) rfl
    (sim_right (a := s.locks (.buf i)) (t := s) rfl ?_)
  rw [h.core]
  cases s.locks (.buf i) with
  | true => exact virtioDiskRw_sim h i true
  | false => exact ⟨rfl, rfl⟩

theorem bufRelease_sim (h : Abs r s) (i : BufId) :
    Sim Abs (Raw.bufRelease i) r (bufRelease i) s := by
  unfold Raw.bufRelease bufRelease
  refine sim_left (a := r.locks (.buf i)) (t := r) rfl
    (sim_right (a := s.locks (.buf i)) (t := s) rfl ?_)
  rw [h.core]
  cases s.locks (.buf i) with
  | false => exact ⟨rfl, rfl⟩
  | true =>
      refine (spinlockRelease_sim h (.buf i)).bind fun _ _ _ h₁ => ?_
      refine (spinlockAcquire_sim h₁ .bufCache).bind fun _ _ _ h₂ => ?_
      refine (modifyBuf_sim h₂ i _).bind fun _ r₃ s₃ h₃ => ?_
      refine sim_left (a := r₃) (t := r₃) rfl (sim_right (a := s₃) (t := s₃) rfl ?_)
      rw [h₃.bufs]
      by_cases h0 : (s₃.cache.bufs i).ref = 0
      · simp only [h0, if_true]
        exact (insertHead_sim h₃ i).bind fun _ _ _ h₄ => spinlockRelease_sim h₄ .bufCache
      · simp only [h0, if_false]
        exact spinlockRelease_sim h₃ .bufCache

end Simulation

/-! ## Initialisation -/

/-- Static memory before `buf_init`: no lock is held and no node is linked. -/
structure Blank (r : RawState) : Prop where
  locks : ∀ lk, r.locks lk = false
  next : ∀ p, r.links.next p = none

/-- After the nodes `ids` have been initialised. -/
structure Filling (r₀ : RawState) (ids : List BufId) (r : RawState) : Prop where
  core : r.toCore = r₀.toCore
  bufs : ∀ j, r.bufs j =
    if j ∈ ids then { r₀.bufs j with blockNum := blockNumUnused, ref := 0 } else r₀.bufs j
  ring : Raw.Ring r.links ids
  fresh : ∀ j, j ∉ ids → r.links.next (.node j) = none

section Init

variable {r₀ r : RawState} {ids : List BufId}

theorem Filling.initNode (h₀ : Blank r₀) (h : Filling r₀ ids r) {i : BufId} (hi : i ∉ ids) :
    ∃ r', Raw.initNode i r = (.ok ((), r'), []) ∧ Filling r₀ (ids ++ [i]) r' := by
  have hlk : r.locks (.buf i) = false := by rw [h.core, h₀.locks]
  unfold Raw.initNode
  rw [bind_silent (Raw.spinlockInit_run hlk), bind_silent Raw.modifyBuf_run]
  obtain ⟨l, hrun, hring, hkeep⟩ := Raw.insertHead_back
    (r := { r with bufs := Function.update r.bufs i { r.bufs i with blockNum := blockNumUnused, ref := 0 } })
    h.ring hi (h.fresh i hi)
  refine ⟨_, hrun, h.core, fun j => ?_, hring, fun j hj => ?_⟩
  · by_cases hj : j = i
    · simp [hj, h.bufs i, hi]
    · simp [hj, h.bufs j]
  · rw [List.mem_append, List.mem_singleton, not_or] at hj
    rw [hkeep j hj.2 hj.1]
    exact h.fresh j hj.1

theorem Filling.initNodes (h₀ : Blank r₀) {todo : List BufId} (h : Filling r₀ ids r)
    (hd : (ids ++ todo).Nodup) :
    ∃ r', runAll Raw.initNode todo r = (.ok ((), r'), []) ∧ Filling r₀ (ids ++ todo) r' := by
  induction todo generalizing ids r with
  | nil => exact ⟨r, rfl, by simpa using h⟩
  | cons i todo ih =>
      have hi : i ∉ ids := fun hm => (List.disjoint_of_nodup_append hd) hm List.mem_cons_self
      obtain ⟨r₁, hrun, h₁⟩ := h.initNode h₀ hi
      obtain ⟨r', hrun', h'⟩ := ih h₁ (by simpa using hd)
      refine ⟨r', ?_, by simpa using h'⟩
      rw [runAll, bind_silent hrun]
      exact hrun'

/-- `buf_init` links all nodes, in the order of `buf_cache`. -/
theorem bufInit_sim {s : State} (h₀ : Blank r) (hcore : r.toCore = s.toCore)
    (hbufs : r.bufs = s.cache.bufs) : Sim Abs Raw.bufInit r bufInit s := by
  have hfill : Filling r [] { r with
      links := (r.links.setNext .head (some .head)).setPrev .head (some .head) } := by
    refine ⟨rfl, by simp, ⟨⟨by simp, by simp⟩, List.nodup_nil⟩, fun j _ => ?_⟩
    simpa using h₀.next (.node j)
  have hd : (([] : List BufId) ++ List.finRange 64).Nodup := List.nodup_finRange 64
  obtain ⟨r', hrun, h'⟩ := hfill.initNodes h₀ hd
  have hinit : Raw.bufInit r = (.ok ((), r'), []) := by
    unfold Raw.bufInit
    rw [bind_silent (Raw.spinlockInit_run (h₀.locks _)), bind_silent Raw.setNext_run,
      bind_silent Raw.setPrev_run]
    exact hrun
  rw [List.nil_append] at h'
  unfold Sim
  rw [hinit]
  refine ⟨rfl, rfl, ?_, ?_, h'.ring, List.mem_finRange⟩
  · rw [h'.core, hcore]
  · funext j
    rw [h'.bufs j, if_pos (List.mem_finRange j), hbufs]

end Init

/-! ## Runs of the buffer cache -/

/-- One call: `buf_read` adds its result to the handles, `buf_release` by a holder removes it. -/
inductive BufStep (out : List BufId) (r : RawState) : List BufId → RawState → Prop where
  | read {b : Nat} {i : BufId} {r' : RawState} (num : b ≠ blockNumUnused)
      (run : (Raw.bufRead b r).1 = .ok (i, r')) : BufStep out r (i :: out) r'
  | release {i : BufId} {r' : RawState} (holder : i ∈ out)
      (run : (Raw.bufRelease i r).1 = .ok ((), r')) : BufStep out r (out.erase i) r'

/-- `out` are the results of `buf_read` that were not released. -/
inductive BufRuns : List BufId → RawState → Prop where
  | init {r₀ r : RawState} (blank : Blank r₀) (run : (Raw.bufInit r₀).1 = .ok ((), r)) :
      BufRuns [] r
  | step {out out' : List BufId} {r r' : RawState} (run : BufRuns out r)
      (last : BufStep out r out' r') : BufRuns out' r'

section Runs

variable {out out' : List BufId} {r r' : RawState}

theorem BufStep.tracked {s : State} (hs : BufStep out r out' r')
    (ha : Abs r s) (hc : CacheInv out s)
    (hd : out.Nodup) : ∃ s', Abs r' s' ∧ CacheInv out' s' ∧ out'.Nodup ∧
      ∀ i, 0 < (r.bufs i).ref → (r'.bufs i).blockNum = (r.bufs i).blockNum := by
  cases hs with
  | @read b i _ num run =>
      obtain ⟨s', hrun, ha'⟩ := (bufRead_sim ha b).of_ok run
      have hpost := (bufRead_sat_or hc num).of_ok hrun
      refine ⟨s', ha', hpost.inv, List.nodup_cons.mpr ⟨hpost.fresh, hd⟩, fun j hj => ?_⟩
      have hne : j ≠ i := by
        rintro rfl
        rw [ha.bufs, hc.ref j, if_neg hpost.fresh] at hj
        omega
      rw [ha'.bufs, ha.bufs, hpost.other j hne]
  | @release i _ holder run =>
      obtain ⟨s', hrun, ha'⟩ := (bufRelease_sim ha i).of_ok run
      have hc' : CacheInv (i :: out.erase i) s :=
        hc.of_mem_iff fun j => (List.perm_cons_erase holder).mem_iff
      have hpost := (bufRelease_sat (G := fun _ => True) (E := fun _ => False) hc'
        hd.not_mem_erase).of_ok hrun
      exact ⟨s', ha', hpost.inv, hd.erase i, fun j _ => by rw [ha'.bufs, ha.bufs, hpost.num j]⟩

/-- The cache `buf_init` leaves behind. -/
theorem bufInit_abs {r₀ : RawState} (blank : Blank r₀) (run : (Raw.bufInit r₀).1 = .ok ((), r)) :
    ∃ s, Abs r s ∧ CacheInv [] s ∧ s.disk = r₀.disk ∧
      ∀ i, (s.cache.bufs i).blockNum = blockNumUnused := by
  obtain ⟨s, hrun, ha⟩ := (bufInit_sim (s := ⟨r₀.toCore, ⟨r₀.bufs, []⟩⟩) blank rfl rfl).of_ok run
  have hs : s = ⟨r₀.toCore, ⟨fun i => { r₀.bufs i with blockNum := blockNumUnused, ref := 0 },
      List.finRange nBlockBuf⟩⟩ := by
    cases hrun
    rfl
  subst hs
  refine ⟨_, ha, ⟨ha.ring.nodup, ha.mem, ?_, ?_, ?_, ?_⟩, rfl, fun _ => rfl⟩
  · intro i j _ hne
    exact absurd rfl hne
  · intro i
    simpa using blank.locks (.buf i)
  · intro i
    simp
  · exact blank.locks .bufCache

theorem BufRuns.tracked (h : BufRuns out r) : ∃ s, Abs r s ∧ CacheInv out s ∧ out.Nodup := by
  induction h with
  | init blank run =>
      obtain ⟨s, ha, hc, -⟩ := bufInit_abs blank run
      exact ⟨s, ha, hc, List.nodup_nil⟩
  | step _ last ih =>
      obtain ⟨s, ha, hc, hd⟩ := ih
      obtain ⟨s', ha', hc', hd', -⟩ := last.tracked ha hc hd
      exact ⟨s', ha', hc', hd'⟩

end Runs

/-- In every run the 64 nodes form one ring with `head_buf`, no two buffers carry the same block,
`buf_ref` counts the results that were not released, and the next call does not re-assign a
referenced buffer. No scan meets a null pointer or runs past the ring. -/
theorem buf_cache_ring (out : List BufId) (r : RawState) (h : BufRuns out r) :
    (∃ ids : List BufId, ids.Nodup ∧ (∀ i, i ∈ ids) ∧ Seg r.links .head (ids.map .node) .head) ∧
    (∀ p, ∃ q, r.links.next p = some q ∧ r.links.prev q = some p) ∧
    (∀ q, ∃ p, r.links.prev q = some p ∧ r.links.next p = some q) ∧
    (∀ i j, (r.bufs i).blockNum = (r.bufs j).blockNum →
      (r.bufs i).blockNum ≠ blockNumUnused → i = j) ∧
    (∀ i, (r.bufs i).ref = out.count i) ∧
    (∀ i, 0 < (r.bufs i).ref → ∀ out' r', BufStep out r out' r' →
      (r'.bufs i).blockNum = (r.bufs i).blockNum) ∧
    (∀ b, b ≠ blockNumUnused → ∀ e, (Raw.bufRead b r).1 = .error e →
      e = .doubleAcquire ∧ (∃ i ∈ out, (r.bufs i).blockNum = b) ∨
      e = .bufReadNoBuffers ∧ ∀ i, i ∈ out) ∧
    ∀ i ∈ out, ∃ r', (Raw.bufRelease i r).1 = .ok ((), r') := by
  obtain ⟨s, ha, hc, hd⟩ := h.tracked
  have hall : ∀ p : BufPtr, p ∈ BufPtr.head :: s.cache.lru.map .node := by
    intro p
    cases p with
    | head => exact List.mem_cons_self
    | node i => exact List.mem_cons_of_mem _ (List.mem_map_of_mem (ha.mem i))
  obtain ⟨hnext, hprev⟩ := ha.ring.seg.inverse
  refine ⟨⟨s.cache.lru, ha.ring.nodup, ha.mem, ha.ring.seg⟩, fun p => hnext p (hall p),
    fun q => hprev q ?_, ?_, ?_, ?_, ?_, ?_⟩
  · simpa [or_comm] using hall q
  · rw [ha.bufs]
    exact hc.uniq
  · intro i
    rw [ha.bufs, hc.ref i]
    by_cases hi : i ∈ out
    · rw [if_pos hi, List.count_eq_one_of_mem hd hi]
    · rw [if_neg hi, List.count_eq_zero_of_not_mem hi]
  · intro i hi out' r' hs
    obtain ⟨-, -, -, -, hkeep⟩ := hs.tracked ha hc hd
    exact hkeep i hi
  · intro b hb e he
    have hsat := (bufRead_sat_or hc hb).2
    rw [(bufRead_sim ha b).of_error he] at hsat
    rw [ha.bufs]
    exact hsat
  · intro i hi
    have hc' : CacheInv (i :: out.erase i) s :=
      hc.of_mem_iff fun j => (List.perm_cons_erase hi).mem_iff
    obtain ⟨_, s', hrun, -⟩ := (bufRelease_sat (G := fun _ => True) (E := fun _ => False) hc'
      hd.not_mem_erase).returns
    obtain ⟨r', hr, -⟩ := (bufRelease_sim ha i).ok_of hrun
    exact ⟨r', hr⟩

/-- After `buf_init` and one `buf_read`. -/
theorem buf_cache_ring_one :
    ∃ i r, BufRuns [i] r ∧ (r.bufs i).ref = [i].count i ∧
      ∃ ids : List BufId, ids.Nodup ∧ (∀ i, i ∈ ids) ∧ Seg r.links .head (ids.map .node) .head := by
  have hblank : Blank ⟨(powerOn fun _ _ => 0).toCore, (powerOn fun _ _ => 0).cache.bufs,
      ⟨fun _ => none, fun _ => none⟩⟩ := ⟨fun _ => rfl, fun _ => rfl⟩
  obtain ⟨r, hinit, -⟩ := (bufInit_sim (s := powerOn fun _ _ => 0) hblank rfl rfl).ok_of rfl
  have hruns : BufRuns [] r := .init hblank hinit
  cases hread : (Raw.bufRead 5 r).1 with
  | error e =>
      rcases (buf_cache_ring [] r hruns).2.2.2.2.2.2.1 5
        (by decide) e hread with ⟨-, i, hi, -⟩ | ⟨-, hall⟩
      · cases hi
      · cases hall 0
  | ok p =>
      have hruns' : BufRuns [p.1] p.2 := .step hruns (.read (by decide) hread)
      have hall := buf_cache_ring [p.1] p.2 hruns'
      exact ⟨p.1, p.2, hruns', hall.2.2.2.2.1 p.1, hall.1⟩

end WhuOs.Fs
