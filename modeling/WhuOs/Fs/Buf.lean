import WhuOs.Fs.Types
import Mathlib.Data.List.FinRange
import Mathlib.Data.List.Nodup
import Mathlib.Data.Fintype.Card

/-! # The buffer cache (`kernel/fs/buf.c`)

`buf_read`, `buf_write` and `buf_release` over the 64-entry cache, with the
spinlocks they take. `virtio_disk_rw` transfers exactly the block named by the
buffer. `State.view` is what `buf_read` would deliver: the cached copy of a
block, or the disk when no buffer carries it. The specifications below are the
only place where the ring of buffers is looked at.
-/

namespace WhuOs.Fs

open Prog

/-! ## Spinlocks -/

def spinlockHolding (lk : Lock) : FsM Bool := do return (← state).locks lk

def spinlockAcquire (lk : Lock) : FsM Unit := do
  if ← spinlockHolding lk then panic lk.twice
  modify fun s => { s with locks := Function.update s.locks lk true }

def spinlockRelease (lk : Lock) : FsM Unit := do
  if !(← spinlockHolding lk) then panic .release
  modify fun s => { s with locks := Function.update s.locks lk false }

/-- `assert(condition, warning)`. -/
def assert (condition : Bool) (warning : Panic) : FsM Unit :=
  if condition then pure () else panic warning

/-! ## Buffers -/

def State.setBuf (s : State) (i : BufId) (b : Buf) : State :=
  { s with cache := { s.cache with bufs := Function.update s.cache.bufs i b } }

def modifyBuf (i : BufId) (f : Buf → Buf) : FsM Unit :=
  modify fun s => s.setBuf i (f (s.cache.bufs i))

/-- The bytes at `buf->data`. -/
def bufData (i : BufId) : FsM Block := do return ((← state).cache.bufs i).data

def setBufData (i : BufId) (data : Block) : FsM Unit :=
  modifyBuf i fun b => { b with data := data }

/-- Transfer the block named by `block_num` between the buffer and the disk. -/
def virtioDiskRw (i : BufId) (write : Bool) : FsM Unit := do
  let b := (← state).cache.bufs i
  if write then
    emit (.diskWrite b.blockNum)
    modify fun s => { s with disk := Function.update s.disk b.blockNum b.data }
  else
    setBufData i ((← state).disk b.blockNum)

/-- Move a node behind `head_buf`. -/
def insertHead (i : BufId) : FsM Unit :=
  modify fun s => { s with cache := { s.cache with lru := i :: s.cache.lru.erase i } }

def bufRead (blockNum : Nat) : FsM BufId := do
  spinlockAcquire .bufCache
  let c := (← state).cache
  -- first scan, from `head_buf.next`: the block is cached
  match c.lru.find? fun i => (c.bufs i).blockNum = blockNum with
  | some i =>
      modifyBuf i fun b => { b with ref := b.ref + 1 }
      spinlockRelease .bufCache
      spinlockAcquire (.buf i)
      return i
  | none =>
    -- second scan, from `head_buf.prev`: recycle an unreferenced buffer
    match c.lru.reverse.find? fun i => (c.bufs i).ref = 0 with
    | some i =>
        modifyBuf i fun b => { b with blockNum := blockNum, ref := 1 }
        spinlockRelease .bufCache
        spinlockAcquire (.buf i)
        virtioDiskRw i false
        return i
    | none =>
        spinlockRelease .bufCache
        panic .bufReadNoBuffers

def bufWrite (i : BufId) : FsM Unit := do
  if !(← spinlockHolding (.buf i)) then panic .bufWriteNotHolding
  virtioDiskRw i true

def bufRelease (i : BufId) : FsM Unit := do
  if !(← spinlockHolding (.buf i)) then panic .bufReleaseNotHolding
  spinlockRelease (.buf i)
  spinlockAcquire .bufCache
  modifyBuf i fun b => { b with ref := b.ref - 1 }
  if ((← state).cache.bufs i).ref = 0 then insertHead i
  spinlockRelease .bufCache

/-! ## What a reader of a block sees -/

/-- The buffer that carries block `b`, if any. -/
def Cache.find (c : Cache) (b : Nat) : Option BufId :=
  if b = blockNumUnused then none else c.lru.find? fun i => (c.bufs i).blockNum = b

def Cache.view (c : Cache) (disk : Nat → Block) (b : Nat) : Block :=
  match c.find b with
  | some i => (c.bufs i).data
  | none => disk b

/-- The contents `buf_read` delivers for a block. -/
def State.view (s : State) (b : Nat) : Block := s.cache.view s.disk b

/-- The cache between calls of one client that holds exactly the buffers `held`. -/
structure CacheInv (held : List BufId) (s : State) : Prop where
  nodup : s.cache.lru.Nodup
  mem : ∀ i, i ∈ s.cache.lru
  uniq : ∀ i j, (s.cache.bufs i).blockNum = (s.cache.bufs j).blockNum →
    (s.cache.bufs i).blockNum ≠ blockNumUnused → i = j
  locked : ∀ i, s.locks (.buf i) = decide (i ∈ held)
  ref : ∀ i, (s.cache.bufs i).ref = if i ∈ held then 1 else 0
  lk : s.locks .bufCache = false

theorem CacheInv.of_mem_iff {held held' : List BufId} {s : State} (h : CacheInv held s)
    (hm : ∀ i, i ∈ held ↔ i ∈ held') : CacheInv held' s :=
  ⟨h.nodup, h.mem, h.uniq, fun i => by rw [h.locked i]; simp only [hm],
    fun i => by rw [h.ref i]; simp only [hm], h.lk⟩

theorem CacheInv.find_iff {held : List BufId} {s : State} (h : CacheInv held s) {b : Nat}
    (hb : b ≠ blockNumUnused) {i : BufId} :
    s.cache.find b = some i ↔ (s.cache.bufs i).blockNum = b := by
  unfold Cache.find
  rw [if_neg hb]
  constructor
  · intro hf
    simpa using List.find?_some hf
  · intro hi
    cases hf : s.cache.lru.find? fun i => (s.cache.bufs i).blockNum = b with
    | none =>
        rw [List.find?_eq_none] at hf
        exact absurd hi (by simpa using hf i (h.mem i))
    | some j =>
        have hj : (s.cache.bufs j).blockNum = b := by simpa using List.find?_some hf
        rw [h.uniq j i (hj.trans hi.symm) (hj ▸ hb)]

theorem CacheInv.view_cached {held : List BufId} {s : State} (h : CacheInv held s) {i : BufId}
    (hb : (s.cache.bufs i).blockNum ≠ blockNumUnused) :
    s.view (s.cache.bufs i).blockNum = (s.cache.bufs i).data := by
  unfold State.view Cache.view
  rw [(h.find_iff hb).mpr rfl]

theorem CacheInv.view_uncached {held : List BufId} {s : State} (h : CacheInv held s) {b : Nat}
    (hn : ∀ i, (s.cache.bufs i).blockNum ≠ b) : s.view b = s.disk b := by
  unfold State.view Cache.view
  cases hf : s.cache.find b with
  | none => rfl
  | some i =>
      by_cases hb : b = blockNumUnused
      · rw [Cache.find, if_pos hb] at hf
        cases hf
      · exact absurd ((h.find_iff hb).mp hf) (hn i)

theorem State.view_unused (s : State) : s.view blockNumUnused = s.disk blockNumUnused := by
  simp [State.view, Cache.view, Cache.find]

/-- Two states whose buffers carry the same blocks with the same data, over the same disk,
present the same view. -/
theorem CacheInv.view_congr {held held' : List BufId} {s s' : State} (h : CacheInv held s)
    (h' : CacheInv held' s') {b : Nat}
    (hbuf : ∀ i, (s.cache.bufs i).blockNum = b ∨ (s'.cache.bufs i).blockNum = b →
      (s'.cache.bufs i).blockNum = (s.cache.bufs i).blockNum ∧
        (s'.cache.bufs i).data = (s.cache.bufs i).data)
    (hd : s'.disk b = s.disk b) : s'.view b = s.view b := by
  by_cases hb : b = blockNumUnused
  · rw [hb, State.view_unused, State.view_unused, ← hb, hd]
  by_cases hc : ∃ i, (s.cache.bufs i).blockNum = b
  · obtain ⟨i, hi⟩ := hc
    obtain ⟨hn, hdata⟩ := hbuf i (Or.inl hi)
    have hv := h.view_cached (i := i) (hi ▸ hb)
    have hv' := h'.view_cached (i := i) (by rw [hn, hi]; exact hb)
    rw [hi] at hv
    rw [hn, hi] at hv'
    rw [hv, hv', hdata]
  · have hn : ∀ i, (s.cache.bufs i).blockNum ≠ b := fun i hi => hc ⟨i, hi⟩
    have hn' : ∀ i, (s'.cache.bufs i).blockNum ≠ b := fun i hi =>
      hn i ((hbuf i (Or.inr hi)).1 ▸ hi)
    rw [h.view_uncached hn, h'.view_uncached hn', hd]

/-! ## Specifications -/

section Specs

variable {held : List BufId} {s : State} {G : Event → Prop} {E : Panic → Prop}

@[simp] theorem sat_spinlockHolding (lk : Lock) {Q : Bool → State → Prop} :
    Sat (spinlockHolding lk) s G Q E ↔ Q (s.locks lk) s := by
  simp [spinlockHolding]

theorem sat_spinlockAcquire {lk : Lock} {Q : Unit → State → Prop} (h : s.locks lk = false) :
    Sat (spinlockAcquire lk) s G Q E ↔
      Q () { s with locks := Function.update s.locks lk true } := by
  simp [spinlockAcquire, h]

theorem sat_spinlockRelease {lk : Lock} {Q : Unit → State → Prop} (h : s.locks lk = true) :
    Sat (spinlockRelease lk) s G Q E ↔
      Q () { s with locks := Function.update s.locks lk false } := by
  simp [spinlockRelease, h]

@[simp] theorem sat_modifyBuf (i : BufId) (f : Buf → Buf) {Q : Unit → State → Prop} :
    Sat (modifyBuf i f) s G Q E ↔ Q () (s.setBuf i (f (s.cache.bufs i))) := by
  simp [modifyBuf]

@[simp] theorem sat_bufData (i : BufId) {Q : Block → State → Prop} :
    Sat (bufData i) s G Q E ↔ Q (s.cache.bufs i).data s := by
  simp [bufData]

@[simp] theorem sat_setBufData (i : BufId) (d : Block) {Q : Unit → State → Prop} :
    Sat (setBufData i d) s G Q E ↔ Q () (s.setBuf i { s.cache.bufs i with data := d }) := by
  simp [setBufData]

theorem sat_assert {c : Bool} {w : Panic} {Q : Unit → State → Prop} (h : c = true) :
    Sat (assert c w) s G Q E ↔ Q () s := by
  simp [assert, h]

/-- The state after `buf_read` hands out buffer `i` for block `b`. -/
structure ReadPost (held : List BufId) (s : State) (b : Nat) (i : BufId) (s' : State) : Prop where
  fresh : i ∉ held
  eq : s' = { s with locks := Function.update s.locks (.buf i) true, cache := s'.cache }
  inv : CacheInv (i :: held) s'
  num : (s'.cache.bufs i).blockNum = b
  data : (s'.cache.bufs i).data = s.view b
  other : ∀ j, j ≠ i → s'.cache.bufs j = s.cache.bufs j

/-- Locks and buffers after one buffer has been handed out. -/
theorem CacheInv.handOut (h : CacheInv held s) {i : BufId} {b : Buf}
    (href : b.ref = 1)
    (huniq : ∀ j, j ≠ i → (s.cache.bufs j).blockNum = b.blockNum → b.blockNum = blockNumUnused) :
    CacheInv (i :: held)
      { s with
        locks := Function.update s.locks (.buf i) true
        cache := { s.cache with bufs := Function.update s.cache.bufs i b } } := by
  refine ⟨h.nodup, h.mem, ?_, ?_, ?_, ?_⟩
  · intro j k hjk hne
    simp only [Function.update_apply] at hjk hne
    by_cases hj : j = i <;> by_cases hk : k = i
    · rw [hj, hk]
    · rw [if_pos hj] at hjk hne
      rw [if_neg hk] at hjk
      exact absurd (huniq k hk hjk.symm) hne
    · rw [if_neg hj] at hjk hne
      rw [if_pos hk] at hjk
      exact absurd (huniq j hj hjk) (hjk ▸ hne)
    · rw [if_neg hj] at hjk hne
      rw [if_neg hk] at hjk
      exact h.uniq j k hjk hne
  · intro j
    dsimp only
    by_cases hj : j = i
    · simp [hj]
    · rw [Function.update_of_ne (by simpa using hj), h.locked j]
      simp [hj]
  · intro j
    by_cases hj : j = i
    · simp [hj, href]
    · simp only [Function.update_of_ne hj, List.mem_cons, hj, false_or]
      exact h.ref j
  · dsimp only
    rw [Function.update_of_ne (by simp)]
    exact h.lk

/-- Taking and dropping `lk_buf_cache` leaves the locks as they were. -/
theorem CacheInv.relock (h : CacheInv held s) :
    Function.update s.locks .bufCache false = s.locks := by
  rw [← h.lk, Function.update_eq_self]

theorem exists_not_mem {held : List BufId} (h : held.length < 64) : ∃ i, i ∉ held := by
  by_contra hall
  push Not at hall
  have hsub : (Finset.univ : Finset BufId) ⊆ held.toFinset := fun i _ => by simpa using hall i
  have hc := Finset.card_le_card hsub
  have hl := held.toFinset_card_le
  simp only [Finset.card_univ, Fintype.card_fin] at hc
  omega

/-- `buf_read` of a block the client does not hold, while some buffer is not held. -/
theorem bufRead_sat_of_room (h : CacheInv held s) {b : Nat} (hb : b ≠ blockNumUnused)
    (hfree : ∀ i ∈ held, (s.cache.bufs i).blockNum ≠ b) (hroom : ∃ i, i ∉ held) :
    Sat (bufRead b) s G (ReadPost held s b) E := by
  unfold bufRead
  rw [sat_bind, sat_spinlockAcquire h.lk, sat_bind, sat_state]
  dsimp only
  cases hf : s.cache.lru.find? fun i => (s.cache.bufs i).blockNum = b with
  | some i =>
      have hi : (s.cache.bufs i).blockNum = b := by simpa using List.find?_some hf
      have hnot : i ∉ held := fun hm => hfree i hm hi
      have href : (s.cache.bufs i).ref = 0 := by rw [h.ref i, if_neg hnot]
      have hlk : s.locks (.buf i) = false := by rw [h.locked i]; simpa using hnot
      have hview : s.view b = (s.cache.bufs i).data := by
        have hv := h.view_cached (i := i) (hi ▸ hb)
        rwa [hi] at hv
      simp only [sat_bind, sat_modifyBuf]
      rw [sat_spinlockRelease (by simp [State.setBuf]), sat_spinlockAcquire
        (by simp [State.setBuf, hlk])]
      simp only [sat_pure]
      simp only [State.setBuf, Function.update_idem, h.relock]
      refine ⟨hnot, rfl, ?_, ?_, ?_, ?_⟩
      · apply h.handOut (by simp [href])
        intro j hj hjb
        by_contra hne
        exact hj (h.uniq j i hjb (hjb ▸ hne))
      · simpa using hi
      · simp [hview]
      · intro j hj
        simp [hj]
  | none =>
      have hno : ∀ i, (s.cache.bufs i).blockNum ≠ b := fun i hi => by
        rw [List.find?_eq_none] at hf
        exact absurd hi (by simpa using hf i (h.mem i))
      have hview : s.view b = s.disk b := h.view_uncached hno
      dsimp only
      cases hr : s.cache.lru.reverse.find? fun i => (s.cache.bufs i).ref = 0 with
      | none =>
          obtain ⟨i, hi⟩ := hroom
          rw [List.find?_eq_none] at hr
          have hbad := hr i (by simpa using h.mem i)
          simp [h.ref i, hi] at hbad
      | some i =>
          have href : (s.cache.bufs i).ref = 0 := by simpa using List.find?_some hr
          have hnot : i ∉ held := fun hm => by simp [h.ref i, hm] at href
          have hlk : s.locks (.buf i) = false := by rw [h.locked i]; simpa using hnot
          simp only [sat_bind, sat_modifyBuf]
          rw [sat_spinlockRelease (by simp [State.setBuf]), sat_spinlockAcquire
            (by simp [State.setBuf, hlk])]
          simp only [virtioDiskRw, sat_bind, sat_state, Bool.false_eq_true, if_false,
            sat_setBufData, sat_pure, State.setBuf, Function.update_self, Function.update_idem,
            h.relock]
          refine ⟨hnot, rfl, ?_, by simp, by simp [hview], fun j hj => by simp [hj]⟩
          exact h.handOut rfl fun j _ hjb => absurd hjb (hno j)

/-- `buf_read` of a block the client does not hold returns a locked buffer with the
contents a reader sees; other buffers are as before. -/
theorem bufRead_sat (h : CacheInv held s) {b : Nat} (hb : b ≠ blockNumUnused)
    (hfree : ∀ i ∈ held, (s.cache.bufs i).blockNum ≠ b) (hroom : held.length < 64) :
    Sat (bufRead b) s G (ReadPost held s b) E :=
  bufRead_sat_of_room h hb hfree (exists_not_mem hroom)

/-- `buf_read` of any block: it returns, or panics because the client holds the block or
every buffer. -/
theorem bufRead_sat_or (h : CacheInv held s) {b : Nat} (hb : b ≠ blockNumUnused) :
    Sat (bufRead b) s (fun _ => True) (ReadPost held s b) fun e =>
      e = .doubleAcquire ∧ (∃ i ∈ held, (s.cache.bufs i).blockNum = b) ∨
      e = .bufReadNoBuffers ∧ ∀ i, i ∈ held := by
  by_cases hheld : ∃ i ∈ held, (s.cache.bufs i).blockNum = b
  · obtain ⟨i, hi, hib⟩ := hheld
    have hf : s.cache.lru.find? (fun i => (s.cache.bufs i).blockNum = b) = some i := by
      have hfind := (h.find_iff hb).mpr hib
      rwa [Cache.find, if_neg hb] at hfind
    unfold bufRead
    rw [sat_bind, sat_spinlockAcquire h.lk, sat_bind, sat_state]
    simp only [hf, sat_bind, sat_modifyBuf]
    rw [sat_spinlockRelease (by simp [State.setBuf])]
    have hlk : s.locks (.buf i) = true := by simp [h.locked i, hi]
    simp only [spinlockAcquire, State.setBuf, sat_bind, sat_spinlockHolding,
      Function.update_of_ne (show Lock.buf i ≠ .bufCache by simp), hlk, if_true, sat_panic]
    exact Or.inl ⟨rfl, i, hi, hib⟩
  have hfree : ∀ i ∈ held, (s.cache.bufs i).blockNum ≠ b := fun i hi hib => hheld ⟨i, hi, hib⟩
  by_cases hroom : ∃ i, i ∉ held
  · exact bufRead_sat_of_room h hb hfree hroom
  have hall : ∀ i, i ∈ held := fun i => by_contra fun hi => hroom ⟨i, hi⟩
  have hf : s.cache.lru.find? (fun i => (s.cache.bufs i).blockNum = b) = none := by
    rw [List.find?_eq_none]
    intro i _
    simpa using hfree i (hall i)
  have hr : s.cache.lru.reverse.find? (fun i => (s.cache.bufs i).ref = 0) = none := by
    rw [List.find?_eq_none]
    intro i _
    simp [h.ref i, hall i]
  unfold bufRead
  rw [sat_bind, sat_spinlockAcquire h.lk, sat_bind, sat_state]
  simp only [hf, hr, sat_bind]
  rw [sat_spinlockRelease (by simp)]
  exact (sat_panic _).mpr (Or.inr ⟨rfl, hall⟩)

/-- The state after `buf_release` of a held buffer. -/
structure ReleasePost (held : List BufId) (s : State) (i : BufId) (s' : State) : Prop where
  eq : s' = { s with locks := Function.update s.locks (.buf i) false, cache := s'.cache }
  inv : CacheInv held s'
  num : ∀ j, (s'.cache.bufs j).blockNum = (s.cache.bufs j).blockNum
  data : ∀ j, (s'.cache.bufs j).data = (s.cache.bufs j).data
  other : ∀ j, j ≠ i → s'.cache.bufs j = s.cache.bufs j

theorem bufRelease_sat {i : BufId} (h : CacheInv (i :: held) s) (hi : i ∉ held) :
    Sat (bufRelease i) s G (fun _ s' => ReleasePost held s i s') E := by
  have hlk : s.locks (.buf i) = true := by simp [h.locked i]
  have href : (s.cache.bufs i).ref = 1 := by simp [h.ref i]
  have hlocks : Function.update (Function.update (Function.update s.locks (.buf i) false)
      .bufCache true) .bufCache false = Function.update s.locks (.buf i) false := by
    rw [Function.update_idem, Function.update_comm (by simp), h.relock]
  unfold bufRelease
  simp only [sat_bind, sat_spinlockHolding, hlk, Bool.not_true, Bool.false_eq_true, if_false]
  rw [sat_spinlockRelease hlk, sat_spinlockAcquire (by simp [h.lk])]
  simp only [sat_modifyBuf, sat_state, State.setBuf, Function.update_self, href, Nat.sub_self,
    if_true, sat_bind, insertHead, sat_modify]
  rw [sat_spinlockRelease (by simp)]
  simp only [hlocks]
  refine ⟨rfl, ⟨?_, ?_, ?_, ?_, ?_, ?_⟩, ?_, ?_, ?_⟩
  · exact List.nodup_cons.mpr ⟨h.nodup.not_mem_erase, h.nodup.erase i⟩
  · intro j
    by_cases hj : j = i
    · simp [hj]
    · exact List.mem_cons_of_mem _ ((List.mem_erase_of_ne hj).mpr (h.mem j))
  · intro j k hjk hne
    have keep : ∀ l, (Function.update s.cache.bufs i { s.cache.bufs i with ref := 0 } l).blockNum =
        (s.cache.bufs l).blockNum := by
      intro l
      by_cases hl : l = i
      · simp [hl]
      · simp [hl]
    rw [keep, keep] at hjk
    rw [keep] at hne
    exact h.uniq j k hjk hne
  · intro j
    by_cases hj : j = i
    · simp [hj, hi]
    · dsimp only
      rw [Function.update_of_ne (by simpa using hj), h.locked j]
      simp [hj]
  · intro j
    by_cases hj : j = i
    · simp [hj, hi]
    · simp only [Function.update_of_ne hj]
      rw [h.ref j]
      simp [hj]
  · dsimp only
    rw [Function.update_of_ne (by simp)]
    exact h.lk
  · intro j
    by_cases hj : j = i <;> simp [hj]
  · intro j
    by_cases hj : j = i <;> simp [hj]
  · intro j hj
    simp [hj]

theorem bufWrite_sat {i : BufId} (h : CacheInv held s) (hi : i ∈ held)
    {Q : Unit → State → Prop} :
    Sat (bufWrite i) s G Q E ↔ G (.diskWrite (s.cache.bufs i).blockNum) ∧
      Q () { s with disk := Function.update s.disk (s.cache.bufs i).blockNum (s.cache.bufs i).data } := by
  have hlk : s.locks (.buf i) = true := by simp [h.locked i, hi]
  simp [bufWrite, virtioDiskRw, hlk]

end Specs

end WhuOs.Fs
