import WhuOs.Lib.Recency
import WhuOs.Fs.BufRing

/-! # Which buffer a miss recycles (`kernel/fs/buf.c`)

`buf_read` and `buf_release` are cut where they give up `lk_buf_cache` or take the lock of the
buffer, and the pieces of several callers run in any order. The ring is sorted by the last drop of
`buf_ref` to zero, so the backward scan finds the unreferenced buffer with the oldest drop.
-/

namespace WhuOs.Fs

open Prog Links

namespace Raw

/-! ## The pieces of the two functions -/

/-- `buf_read` while it holds `lk_buf_cache`; it tells the buffer and whether the block was
missing. -/
def bufFind (blockNum : Nat) : RawM (BufId × Bool) := do
  spinlockAcquire .bufCache
  match ← scan next (fun b => b.blockNum = blockNum) (nBlockBuf + 1) (← next (some .head)) with
  | some i =>
      modifyBuf i fun b => { b with ref := b.ref + 1 }
      spinlockRelease .bufCache
      return (i, false)
  | none =>
    match ← scan prev (fun b => b.ref = 0) (nBlockBuf + 1) (← prev (some .head)) with
    | some i =>
        modifyBuf i fun b => { b with blockNum := blockNum, ref := 1 }
        spinlockRelease .bufCache
        return (i, true)
    | none =>
        spinlockRelease .bufCache
        panic .bufReadNoBuffers

/-- The rest of `buf_read`. -/
def bufSettle (i : BufId) (missing : Bool) : RawM BufId := do
  spinlockAcquire (.buf i)
  if missing then virtioDiskRw i false
  return i

/-- `buf_release` before it takes `lk_buf_cache`. -/
def bufUnlock (i : BufId) : RawM Unit := do
  if !(← spinlockHolding (.buf i)) then panic .bufReleaseNotHolding
  spinlockRelease (.buf i)

/-- `buf_release` while it holds `lk_buf_cache`. -/
def bufDrop (i : BufId) : RawM Unit := do
  spinlockAcquire .bufCache
  modifyBuf i fun b => { b with ref := b.ref - 1 }
  if ((← state).bufs i).ref = 0 then insertHead i true
  spinlockRelease .bufCache

theorem bufRead_pieces (b : Nat) : bufRead b = bufFind b >>= fun x => bufSettle x.1 x.2 := by
  unfold bufRead bufFind
  rw [Prog.seq_assoc]
  refine bind_congr fun _ => ?_
  rw [Prog.seq_assoc]
  refine bind_congr fun p => ?_
  rw [Prog.seq_assoc]
  refine bind_congr fun r => ?_
  cases r with
  | some i =>
      simp only [Prog.seq_assoc, ret_bind]
      rfl
  | none =>
      dsimp only
      rw [Prog.seq_assoc]
      refine bind_congr fun p => ?_
      rw [Prog.seq_assoc]
      refine bind_congr fun r => ?_
      cases r with
      | some i =>
          simp only [Prog.seq_assoc, ret_bind]
          rfl
      | none =>
          dsimp only
          rw [Prog.seq_assoc]
          rfl

theorem bufRelease_pieces (i : BufId) : bufRelease i = bufUnlock i >>= fun _ => bufDrop i := by
  unfold bufRelease bufUnlock
  rw [Prog.seq_assoc]
  refine bind_congr fun held => ?_
  cases held with
  | true => rfl
  | false => rfl

end Raw

/-! ## Callers -/

/-- Where a caller that refers to a buffer stands. -/
inductive Phase where
  /-- In `buf_read`, between the two locks. -/
  | found (i : BufId) (missing : Bool)
  /-- Behind `buf_read`. -/
  | holding (i : BufId)
  /-- In `buf_release`, between the two locks. -/
  | leaving (i : BufId)
deriving DecidableEq

def Phase.buf : Phase → BufId
  | .found i _ => i
  | .holding i => i
  | .leaving i => i

/-- The runs from `buf_init`: the log of the drops to zero, newest first, the callers, and the
kernel. -/
inductive LruRuns : List BufId → List Phase → RawState → Prop where
  | init {r₀ r : RawState} (blank : Blank r₀) (run : (Raw.bufInit r₀).1 = .ok ((), r)) :
      LruRuns [] [] r
  | find {log : List BufId} {cs : List Phase} {r r' : RawState} {b : Nat}
      {i : BufId} {missing : Bool}
      (before : LruRuns log cs r) (run : (Raw.bufFind b r).1 = .ok ((i, missing), r')) :
      LruRuns log (.found i missing :: cs) r'
  | settle {log : List BufId} {cs : List Phase} {r r' : RawState} {i j : BufId} {missing : Bool}
      (before : LruRuns log cs r) (caller : .found i missing ∈ cs)
      (run : (Raw.bufSettle i missing r).1 = .ok (j, r')) :
        LruRuns log (.holding i :: cs.erase (.found i missing)) r'
  | unlock {log : List BufId} {cs : List Phase} {r r' : RawState} {i : BufId}
      (before : LruRuns log cs r)
      (caller : .holding i ∈ cs) (run : (Raw.bufUnlock i r).1 = .ok ((), r')) :
      LruRuns log (.leaving i :: cs.erase (.holding i)) r'
  | drop {log : List BufId} {cs : List Phase} {r r' : RawState} {i : BufId}
      (before : LruRuns log cs r)
      (caller : .leaving i ∈ cs) (run : (Raw.bufDrop i r).1 = .ok ((), r')) :
      LruRuns (if (r'.bufs i).ref = 0 then i :: log else log) (cs.erase (.leaving i)) r'

/-- What holds along these runs. -/
structure LruInv (log : List BufId) (cs : List Phase) (ids : List BufId) (r : RawState) : Prop where
  ring : Raw.Ring r.links ids
  mem : ∀ i, i ∈ ids
  recent : Recent log ids
  ref : ∀ i, (r.bufs i).ref = (cs.map Phase.buf).count i
  locked : ∀ i, r.locks (.buf i) = decide (.holding i ∈ cs)
  alone : ∀ i, cs.count (.holding i) ≤ 1
  lk : r.locks .bufCache = false

section

variable {r r' : RawState} {ids log : List BufId} {cs : List Phase} {i j : BufId}
  {b : Nat} {missing : Bool}

/-! ## What the pieces do -/

theorem relock_cache (h : r.locks .bufCache = false) :
    Function.update (Function.update r.locks .bufCache true) .bufCache false = r.locks := by
  rw [Function.update_idem, ← h, Function.update_eq_self]

theorem Raw.acquire_run {lk : Lock} (h : r.locks lk = false) :
    Raw.spinlockAcquire lk r =
      (.ok ((), { r with locks := Function.update r.locks lk true }), []) := by
  unfold Raw.spinlockAcquire
  rw [bind_silent (show Raw.spinlockHolding lk r = (.ok (false, r), []) by rw [← h]; rfl)]
  rfl

theorem Raw.release_run {lk : Lock} (h : r.locks lk = true) :
    Raw.spinlockRelease lk r =
      (.ok ((), { r with locks := Function.update r.locks lk false }), []) := by
  unfold Raw.spinlockRelease
  rw [bind_silent (show Raw.spinlockHolding lk r = (.ok (true, r), []) by rw [← h]; rfl)]
  rfl

theorem Raw.Ring.length_lt (h : Raw.Ring r.links ids) : ids.length < nBlockBuf + 1 := by
  have hc := h.nodup.length_le_card
  rw [Fintype.card_fin] at hc
  exact Nat.lt_succ_of_le hc

/-- `buf_read` finds the block, or takes the last unreferenced buffer of the ring. -/
theorem Raw.bufFind_run (h : Raw.Ring r.links ids) (hlk : r.locks .bufCache = false) (b : Nat) :
    Raw.bufFind b r = match ids.find? fun i => (r.bufs i).blockNum = b with
      | some i => (.ok
          ((i, false),
            { r with bufs := Function.update r.bufs i { r.bufs i with ref := (r.bufs i).ref + 1 } }), [])
      | none => match ids.reverse.find? fun i => (r.bufs i).ref = 0 with
        | some i => (.ok ((i, true), { r with bufs := Function.update r.bufs i { r.bufs i with blockNum := b, ref := 1 } }), [])
        | none => (.error .bufReadNoBuffers, []) := by
  have hscan : ∀ test : Buf → Bool, ∀ t : RawState, t.links = r.links →
      Raw.scan Raw.next test (nBlockBuf + 1) (t.links.next .head) t =
        (.ok (ids.find? fun i => test (t.bufs i), t), []) ∧
      Raw.scan Raw.prev test (nBlockBuf + 1) (t.links.prev .head) t =
        (.ok (ids.reverse.find? fun i => test (t.bufs i), t), []) := by
    intro test t ht
    have hring : Raw.Ring t.links ids := ht ▸ h
    refine ⟨Raw.scan_run (fun _ => rfl) hring.seg hring.length_lt, ?_⟩
    refine Raw.scan_run (l := ⟨t.links.prev, t.links.next⟩) (fun _ => rfl) ?_
      (by simpa using hring.length_lt)
    rw [List.map_reverse]
    exact hring.seg.reverse
  unfold Raw.bufFind
  rw [bind_silent (Raw.acquire_run hlk), bind_silent Raw.next_run,
    bind_silent (hscan _ { r with locks := Function.update r.locks .bufCache true } rfl).1]
  cases ids.find? fun i => (r.bufs i).blockNum = b with
  | some i =>
      dsimp only
      rw [bind_silent Raw.modifyBuf_run, bind_silent (Raw.release_run (by simp))]
      dsimp only
      rw [relock_cache hlk]
      rfl
  | none =>
      dsimp only
      rw [bind_silent Raw.prev_run,
        bind_silent (hscan _ { r with locks := Function.update r.locks .bufCache true } rfl).2]
      cases ids.reverse.find? fun i => (r.bufs i).ref = 0 with
      | some i =>
          dsimp only
          rw [bind_silent Raw.modifyBuf_run, bind_silent (Raw.release_run (by simp))]
          dsimp only
          rw [relock_cache hlk]
          rfl
      | none =>
          dsimp only
          rw [bind_silent (Raw.release_run (by simp))]
          rfl

/-- Dropping the last reference moves the buffer to the front. -/
theorem Raw.bufDrop_run (h : Raw.Ring r.links ids) (hi : i ∈ ids)
    (hlk : r.locks .bufCache = false) :
    ∃ l, Raw.bufDrop i r = (.ok ((), { r with
        bufs := Function.update r.bufs i { r.bufs i with ref := (r.bufs i).ref - 1 },
          links := l }), []) ∧
      Raw.Ring l (if (r.bufs i).ref - 1 = 0 then i :: ids.erase i else ids) := by
  unfold Raw.bufDrop
  rw [bind_silent (Raw.acquire_run hlk), bind_silent Raw.modifyBuf_run]
  rw [bind_silent (show Prog.state _ = (.ok (_, _), []) from rfl)]
  have hself :
      (Function.update r.bufs i { r.bufs i with ref := (r.bufs i).ref - 1 } i).ref =
      (r.bufs i).ref - 1 := by
    rw [Function.update_self]
  dsimp only
  split
  · next h0 =>
    rw [hself] at h0
    rw [if_pos h0]
    obtain ⟨l, hrun, hring⟩ := Raw.insertHead_front (r := { r with
      locks := Function.update r.locks .bufCache true
      bufs := Function.update r.bufs i { r.bufs i with ref := (r.bufs i).ref - 1 } }) h hi
    refine ⟨l, ?_, hring⟩
    rw [bind_silent hrun, Raw.release_run (by simp)]
    dsimp only
    rw [relock_cache hlk]
  · next h0 =>
    rw [hself] at h0
    rw [if_neg h0]
    refine ⟨r.links, ?_, h⟩
    rw [Raw.release_run (by simp)]
    dsimp only
    rw [relock_cache hlk]

/-- Behind the lock of the buffer only the locks and the contents of this buffer change. -/
theorem Raw.bufSettle_run (missing : Bool) (hlk : r.locks (.buf i) = false) :
    ∃ data, Raw.bufSettle i missing r = (.ok (i, { r with
    locks := Function.update r.locks (.buf i) true
    bufs := Function.update r.bufs i { r.bufs i with data := data } }), []) := by
  unfold Raw.bufSettle
  rw [bind_silent (Raw.acquire_run hlk)]
  cases missing with
  | true => exact ⟨r.disk (r.bufs i).blockNum, rfl⟩
  | false =>
      refine ⟨(r.bufs i).data, ?_⟩
      rw [Function.update_eq_self]
      rfl

theorem Raw.bufUnlock_run (hlk : r.locks (.buf i) = true) :
    Raw.bufUnlock i r =
      (.ok ((), { r with locks := Function.update r.locks (.buf i) false }), []) := by
  unfold Raw.bufUnlock
  rw [bind_silent (show Raw.spinlockHolding (.buf i) r = (.ok (true, r), []) by rw [← hlk]; rfl)]
  exact Raw.release_run hlk

/-! ## The invariant -/

theorem LruInv.find (h : LruInv log cs ids r)
    (hrun : (Raw.bufFind b r).1 = .ok ((i, missing), r')) :
    LruInv log (.found i missing :: cs) ids r' ∧
      ((∀ j, (r.bufs j).blockNum ≠ b) →
        ids.reverse.find? (fun j => (r.bufs j).ref = 0) = some i) := by
  have hlocked :
      ∀ j, r.locks (.buf j) = decide (Phase.holding j ∈ Phase.found i missing :: cs) := by
    intro j
    rw [h.locked j]
    simp
  have halone : ∀ j, (Phase.found i missing :: cs).count (.holding j) ≤ 1 := by
    intro j
    rw [List.count_cons_of_ne (by simp)]
    exact h.alone j
  have hcount : ∀ j, ((Phase.found i missing :: cs).map Phase.buf).count j =
      (cs.map Phase.buf).count j + if i = j then 1 else 0 := by
    intro j
    rw [List.map_cons, List.count_cons, Phase.buf]
    simp
  rw [Raw.bufFind_run h.ring h.lk] at hrun
  split at hrun
  · next k hf =>
    cases hrun
    refine ⟨⟨h.ring, h.mem, h.recent, fun j => ?_, hlocked, halone, h.lk⟩, fun hmiss => ?_⟩
    · rw [hcount]
      dsimp only
      by_cases hj : i = j
      · subst hj
        rw [if_pos rfl, Function.update_self]
        exact congrArg (· + 1) (h.ref i)
      · rw [if_neg hj, Function.update_of_ne (Ne.symm hj)]
        exact h.ref j
    · have hnum : decide ((r.bufs i).blockNum = b) = true := List.find?_some (p := fun i => decide ((r.bufs i).blockNum = b)) hf
      exact absurd (of_decide_eq_true hnum) (hmiss i)
  · split at hrun
    · next k hf =>
      cases hrun
      have hz : (r.bufs i).ref = 0 :=
        of_decide_eq_true (List.find?_some (p := fun i => decide ((r.bufs i).ref = 0)) hf)
      refine ⟨⟨h.ring, h.mem, h.recent, fun j => ?_, hlocked, halone, h.lk⟩, fun _ => hf⟩
      rw [hcount]
      dsimp only
      by_cases hj : i = j
      · subst hj
        rw [if_pos rfl, Function.update_self, ← h.ref i, hz]
      · rw [if_neg hj, Function.update_of_ne (Ne.symm hj)]
        exact h.ref j
    · cases hrun

/-- A caller goes on to its next phase with the same buffer. -/
theorem count_phase {c : Phase} (c' : Phase) (hc : c ∈ cs) (hb : c'.buf = c.buf) (j : BufId) :
    ((c' :: cs.erase c).map Phase.buf).count j = (cs.map Phase.buf).count j := by
  have hperm := (List.perm_cons_erase hc).map Phase.buf
  rw [hperm.count_eq j, List.map_cons, List.map_cons, hb]

/-- The lock of the buffer was free when a caller got past it. -/
theorem free_of_settle (hrun : (Raw.bufSettle i missing r).1 = .ok (j, r')) :
    r.locks (.buf i) = false := by
  cases hl : r.locks (.buf i) with
  | false => rfl
  | true =>
      have he : (Raw.bufSettle i missing r).1 = .error .doubleAcquire := by
        unfold Raw.bufSettle Raw.spinlockAcquire
        rw [Prog.seq_assoc,
          bind_silent (show Raw.spinlockHolding (.buf i) r = (.ok (true, r), []) by rw [← hl]; rfl)]
        rfl
      rw [he] at hrun
      cases hrun

theorem LruInv.settle (h : LruInv log cs ids r) (hc : .found i missing ∈ cs)
    (hrun : (Raw.bufSettle i missing r).1 = .ok (j, r')) :
    LruInv log (.holding i :: cs.erase (.found i missing)) ids r' := by
  have hfree := free_of_settle hrun
  obtain ⟨data, hset⟩ := Raw.bufSettle_run missing hfree
  rw [hset] at hrun
  cases hrun
  have hnot : Phase.holding i ∉ cs := by
    rw [h.locked i] at hfree
    exact of_decide_eq_false hfree
  have hmem : ∀ k, Phase.holding k ∈ cs.erase (.found i missing) ↔ Phase.holding k ∈ cs := fun k =>
    List.mem_erase_of_ne (by simp)
  refine ⟨h.ring, h.mem, h.recent, fun k => ?_, fun k => ?_, fun k => ?_, ?_⟩
  · dsimp only
    rw [count_phase (.holding i) hc rfl, ← h.ref k]
    by_cases hk : k = i
    · rw [hk, Function.update_self]
    · rw [Function.update_of_ne hk]
  · dsimp only
    by_cases hk : k = i
    · simp [hk]
    · rw [Function.update_of_ne (by simpa using hk), h.locked k]
      simp [hk, hmem]
  · by_cases hk : k = i
    · subst hk
      rw [List.count_cons_self, List.count_eq_zero.mpr fun hm => hnot ((hmem k).mp hm)]
    · rw [List.count_cons_of_ne (by simpa using Ne.symm hk), List.count_erase_of_ne (by simp)]
      exact h.alone k
  · dsimp only
    rw [Function.update_of_ne (by simp)]
    exact h.lk

theorem LruInv.unlock (h : LruInv log cs ids r) (hc : .holding i ∈ cs)
    (hrun : (Raw.bufUnlock i r).1 = .ok ((), r')) :
    LruInv log (.leaving i :: cs.erase (.holding i)) ids r' := by
  have hheld : r.locks (.buf i) = true := by
    rw [h.locked i]
    exact decide_eq_true hc
  rw [Raw.bufUnlock_run hheld] at hrun
  cases hrun
  have hgone : Phase.holding i ∉ cs.erase (.holding i) := by
    rw [← List.count_eq_zero, List.count_erase_self]
    have := h.alone i
    omega
  refine ⟨h.ring, h.mem, h.recent, fun k => ?_, fun k => ?_, fun k => ?_, ?_⟩
  · rw [count_phase (.leaving i) hc rfl]
    exact h.ref k
  · dsimp only
    by_cases hk : k = i
    · simp [hk, hgone]
    · rw [Function.update_of_ne (by simpa using hk), h.locked k]
      rw [decide_eq_decide, List.mem_cons, List.mem_erase_of_ne (by simpa using hk)]
      simp
  · rw [List.count_cons_of_ne (by simp)]
    exact Nat.le_trans (List.Sublist.count_le _ (List.erase_sublist ..)) (h.alone k)
  · dsimp only
    rw [Function.update_of_ne (by simp)]
    exact h.lk

theorem LruInv.drop (h : LruInv log cs ids r) (hc : .leaving i ∈ cs)
    (hrun : (Raw.bufDrop i r).1 = .ok ((), r')) :
    ∃ ids', LruInv (if (r'.bufs i).ref = 0 then i :: log else log)
      (cs.erase (.leaving i)) ids' r' := by
  obtain ⟨l, hdrop, hring⟩ := Raw.bufDrop_run h.ring (h.mem i) h.lk
  rw [hdrop] at hrun
  cases hrun
  have hperm := (List.perm_cons_erase hc).map Phase.buf
  have href : ∀ k, (Function.update r.bufs i { r.bufs i with ref := (r.bufs i).ref - 1 } k).ref =
      ((cs.erase (.leaving i)).map Phase.buf).count k := by
    intro k
    have hk := h.ref k
    rw [hperm.count_eq k, List.map_cons, List.count_cons, Phase.buf] at hk
    by_cases hki : k = i
    · subst hki
      rw [Function.update_self]
      dsimp only
      rw [hk]
      simp
    · rw [Function.update_of_ne hki, hk]
      simp [Ne.symm hki]
  have hmem : ∀ k, Phase.holding k ∈ cs.erase (.leaving i) ↔ Phase.holding k ∈ cs := fun k =>
    List.mem_erase_of_ne (by simp)
  dsimp only
  rw [show (Function.update r.bufs i { r.bufs i with ref := (r.bufs i).ref - 1 } i).ref =
    (r.bufs i).ref - 1 by
    rw [Function.update_self]]
  refine ⟨_, hring, fun k => ?_, ?_, href, fun k => ?_, fun k => ?_, h.lk⟩
  · split
    · by_cases hk : k = i
      · simp [hk]
      · exact List.mem_cons_of_mem _ ((List.mem_erase_of_ne hk).mpr (h.mem k))
    · exact h.mem k
  · split
    · exact h.recent.use h.ring.nodup i
    · exact h.recent
  · rw [h.locked k]
    simp [hmem]
  · rw [List.count_erase_of_ne (by simp)]
    exact h.alone k

/-! ## Runs -/

theorem LruRuns.inv (h : LruRuns log cs r) : ∃ ids, LruInv log cs ids r := by
  induction h with
  | init blank run =>
      obtain ⟨s, ha, hc, -⟩ := bufInit_abs blank run
      refine ⟨s.cache.lru, ha.ring, ha.mem, recent_nil _, fun i => ?_, fun i => ?_, fun i => ?_, ?_⟩
      · rw [ha.bufs, hc.ref i]
        simp
      · rw [ha.core, hc.locked i]
        simp
      · simp
      · rw [ha.core]
        exact hc.lk
  | find _ run ih =>
      obtain ⟨ids, h⟩ := ih
      exact ⟨ids, (h.find run).1⟩
  | settle _ caller run ih =>
      obtain ⟨ids, h⟩ := ih
      exact ⟨ids, h.settle caller run⟩
  | unlock _ caller run ih =>
      obtain ⟨ids, h⟩ := ih
      exact ⟨ids, h.unlock caller run⟩
  | drop _ caller run ih =>
      obtain ⟨ids, h⟩ := ih
      exact h.drop caller run

end

/-- A buffer was last dropped before another one, or neither was ever dropped. -/
def Older (log : List BufId) (i j : BufId) : Prop :=
  lastUse log i < lastUse log j ∨ lastUse log i = 0 ∧ lastUse log j = 0

/-- A miss recycles, of the buffers without references, the one whose last drop to zero is oldest,
and it panics only when all buffers are referenced. -/
theorem buf_replacement_lru {log : List BufId} {cs : List Phase} {r : RawState}
    (h : LruRuns log cs r) (b : Nat)
    (hmiss : ∀ j, (r.bufs j).blockNum ≠ b) :
    (∀ i r', (Raw.bufRead b r).1 = .ok (i, r') →
      (r.bufs i).ref = 0 ∧ ∀ j, (r.bufs j).ref = 0 → j ≠ i → Older log i j) ∧
    ∀ e, (Raw.bufRead b r).1 = .error e → e = .bufReadNoBuffers ∧ ∀ j, (r.bufs j).ref ≠ 0 := by
  obtain ⟨ids, hinv⟩ := h.inv
  have hno : ids.find? (fun i => (r.bufs i).blockNum = b) = none := by
    rw [List.find?_eq_none]
    intro i _
    simpa using hmiss i
  have hfind := Raw.bufFind_run hinv.ring hinv.lk b
  rw [hno] at hfind
  rw [Raw.bufRead_pieces]
  cases hf : ids.reverse.find? fun i => (r.bufs i).ref = 0 with
  | none =>
      rw [hf] at hfind
      have hpanic :=
        bind_error (f := fun x : BufId × Bool => Raw.bufSettle x.1 x.2) (congrArg Prod.fst hfind)
      rw [hpanic]
      refine ⟨nofun, fun e he => ?_⟩
      cases he
      refine ⟨rfl, fun j hj => ?_⟩
      have hnone := List.find?_eq_none.mp hf j (List.mem_reverse.mpr (hinv.mem j))
      exact hnone (decide_eq_true hj)
  | some k =>
      rw [hf] at hfind
      have hz : (r.bufs k).ref = 0 :=
        of_decide_eq_true (List.find?_some (p := fun i => decide ((r.bufs i).ref = 0)) hf)
      -- nobody refers to the buffer, so its lock is free
      have hfree : r.locks (.buf k) = false := by
        rw [hinv.locked k]
        refine decide_eq_false fun hm => ?_
        have hcount := hinv.ref k
        rw [hz] at hcount
        exact List.count_eq_zero.mp hcount.symm (List.mem_map_of_mem (f := Phase.buf) hm)
      rw [bind_silent hfind]
      obtain ⟨data, hset⟩ := Raw.bufSettle_run true
        (r := { r with
          bufs := Function.update r.bufs k { r.bufs k with blockNum := b, ref := 1 } }) hfree
      rw [hset]
      refine ⟨fun i r' hr => ?_, nofun⟩
      cases hr
      refine ⟨hz, fun j hj hne => ?_⟩
      have hle := (hinv.recent.last hf (hinv.mem j) (decide_eq_true hj)).resolve_left hne
      by_cases hk : lastUse log k = 0
      · by_cases hj0 : lastUse log j = 0
        · exact .inr ⟨hk, hj0⟩
        · exact .inl (by omega)
      · exact .inl (Nat.lt_of_le_of_ne hle fun he => hne (lastUse_inj he hk).symm)

/-! ## A run with 64 holders -/

section

variable {r : RawState} {log : List BufId} {cs : List Phase} {i : BufId} {b : Nat}

/-- A miss finds a buffer as long as one is unreferenced. -/
theorem LruRuns.takes (h : LruRuns log cs r) (hmiss : ∀ j, (r.bufs j).blockNum ≠ b)
    (hfree : ∃ j, (r.bufs j).ref = 0) :
    ∃ k r', LruRuns log (.holding k :: cs) r' ∧ (r.bufs k).ref = 0 ∧
      ∀ j, (r'.bufs j).blockNum = if j = k then b else (r.bufs j).blockNum := by
  obtain ⟨ids, hinv⟩ := h.inv
  obtain ⟨j, hj⟩ := hfree
  have hno : ids.find? (fun i => (r.bufs i).blockNum = b) = none := by
    rw [List.find?_eq_none]
    intro i _
    simpa using hmiss i
  have hfind := Raw.bufFind_run hinv.ring hinv.lk b
  rw [hno] at hfind
  cases hf : ids.reverse.find? fun i => (r.bufs i).ref = 0 with
  | none =>
      have hnone := List.find?_eq_none.mp hf j (List.mem_reverse.mpr (hinv.mem j))
      exact absurd (decide_eq_true hj) hnone
  | some k =>
      have hz : (r.bufs k).ref = 0 :=
        of_decide_eq_true (List.find?_some (p := fun i => decide ((r.bufs i).ref = 0)) hf)
      rw [hf] at hfind
      have hfound := h.find (congrArg Prod.fst hfind)
      have hlock : r.locks (.buf k) = false := by
        rw [hinv.locked k]
        refine decide_eq_false fun hm => ?_
        have hcount := hinv.ref k
        rw [hz] at hcount
        exact List.count_eq_zero.mp hcount.symm (List.mem_map_of_mem (f := Phase.buf) hm)
      obtain ⟨data, hset⟩ := Raw.bufSettle_run true
        (r := { r with
          bufs := Function.update r.bufs k { r.bufs k with blockNum := b, ref := 1 } }) hlock
      have hsettled := hfound.settle List.mem_cons_self (congrArg Prod.fst hset)
      rw [List.erase_cons_head] at hsettled
      refine ⟨k, _, hsettled, hz, fun j => ?_⟩
      dsimp only
      by_cases hjk : j = k
      · rw [if_pos hjk, hjk, Function.update_self, Function.update_self]
      · rw [if_neg hjk, Function.update_of_ne hjk, Function.update_of_ne hjk]

/-- The only holder of a buffer gives it back. -/
theorem LruRuns.gives (h : LruRuns log cs r) (hc : .holding i ∈ cs) (hone : (r.bufs i).ref = 1) :
    ∃ r', LruRuns (i :: log) (cs.erase (.holding i)) r' ∧
    (∀ j, j ≠ i → (r'.bufs j).ref = (r.bufs j).ref) ∧
      (r'.bufs i).ref = 0 ∧ ∀ j, (r'.bufs j).blockNum = (r.bufs j).blockNum := by
  obtain ⟨ids, hinv⟩ := h.inv
  have hheld : r.locks (.buf i) = true := by
    rw [hinv.locked i]
    exact decide_eq_true hc
  have hunlocked := h.unlock hc (congrArg Prod.fst (Raw.bufUnlock_run hheld))
  obtain ⟨ids', hinv'⟩ := hunlocked.inv
  obtain ⟨l, hdrop, -⟩ := Raw.bufDrop_run hinv'.ring (hinv'.mem i) hinv'.lk
  have hdropped := hunlocked.drop List.mem_cons_self (congrArg Prod.fst hdrop)
  have hz : (Function.update r.bufs i { r.bufs i with ref := (r.bufs i).ref - 1 } i).ref = 0 := by
    rw [Function.update_self, hone]
  rw [List.erase_cons_head, if_pos hz] at hdropped
  refine ⟨_, hdropped, fun j hj => ?_, ?_, fun j => ?_⟩
  · dsimp only
    rw [Function.update_of_ne hj]
  · exact hz
  · dsimp only
    by_cases hj : j = i
    · rw [hj, Function.update_self]
    · rw [Function.update_of_ne hj]

end

/-- Blocks 1 to `n` are read, each into a buffer of its own. -/
theorem exists_holders (n : Nat) (hn : n ≤ 64) :
    ∃ (ids : List BufId) (r : RawState), ids.length = n ∧ ids.Nodup ∧
    LruRuns [] (ids.map .holding) r ∧ (∀ j, (r.bufs j).ref = ids.count j) ∧
      ∀ j, (r.bufs j).blockNum ≤ n ∨ 65 < (r.bufs j).blockNum := by
  have href : ∀ (ids : List BufId) (r : RawState), LruRuns [] (ids.map .holding) r →
    ∀ j, (r.bufs j).ref = ids.count j := by
    intro ids r hr j
    obtain ⟨ring, hinv⟩ := hr.inv
    have hid : (Phase.buf ∘ Phase.holding : BufId → BufId) = id := rfl
    rw [hinv.ref j, List.map_map, hid, List.map_id]
  induction n with
  | zero =>
      have hblank : Blank ⟨(powerOn fun _ _ => 0).toCore, (powerOn fun _ _ => 0).cache.bufs,
          ⟨fun _ => none, fun _ => none⟩⟩ := ⟨fun _ => rfl, fun _ => rfl⟩
      obtain ⟨r, hinit, -⟩ := (bufInit_sim (s := powerOn fun _ _ => 0) hblank rfl rfl).ok_of rfl
      have hruns : LruRuns [] [] r := .init hblank hinit
      obtain ⟨s, ha, hc, -, hunused⟩ := bufInit_abs hblank hinit
      refine ⟨[], r, rfl, List.nodup_nil, hruns, href [] r hruns, fun j => .inr ?_⟩
      rw [ha.bufs, hunused j]
      decide
  | succ n ih =>
      obtain ⟨ids, r, hlen, hnd, hruns, hcount, hnum⟩ := ih (by omega)
      obtain ⟨j, hj⟩ := exists_not_mem (show ids.length < 64 by omega)
      have hmiss : ∀ j, (r.bufs j).blockNum ≠ n + 1 := by
        intro j he
        rcases hnum j with h1 | h1 <;> omega
      obtain ⟨k, r', hruns', hz, hnum'⟩ :=
        hruns.takes hmiss ⟨j, by rw [hcount, List.count_eq_zero.mpr hj]⟩
      have hk : k ∉ ids := by
        rw [hcount] at hz
        exact List.count_eq_zero.mp hz
      refine ⟨k :: ids,
        r', by rw [List.length_cons, hlen], List.nodup_cons.mpr ⟨hk, hnd⟩, hruns', href _ r' hruns',
        fun j => ?_⟩
      rw [hnum' j]
      split
      · exact .inl (Nat.le_refl _)
      · rcases hnum j with h1 | h1
        · exact .inl (by omega)
        · exact .inr h1

/-- 64 blocks are read, two of the buffers are dropped, and the miss recycles the one that was
dropped first. -/
theorem buf_replacement_lru_first :
    ∃ (i j : BufId) (cs : List Phase) (r r' : RawState), LruRuns [j, i] cs r ∧ i ≠ j ∧
    (∀ k, (r.bufs k).ref = 0 ↔ k = i ∨ k = j) ∧ (Raw.bufRead 65 r).1 = .ok (i, r') := by
  obtain ⟨ids, r₀, hlen, hnd, hruns₀, hcount, hnum⟩ := exists_holders 64 (Nat.le_refl 64)
  have hall : ∀ k, k ∈ ids := by
    intro k
    have hcard : ids.toFinset = Finset.univ := by
      rw [← Finset.card_eq_iff_eq_univ, List.toFinset_card_of_nodup hnd, hlen, Fintype.card_fin]
    have hk : k ∈ ids.toFinset := hcard ▸ Finset.mem_univ k
    exact List.mem_toFinset.mp hk
  have hone : ∀ k, (r₀.bufs k).ref = 1 :=
    fun k => (hcount k).trans (List.count_eq_one_of_mem hnd (hall k))
  have hmem : ∀ k, Phase.holding k ∈ ids.map .holding := fun k => List.mem_map_of_mem (hall k)
  obtain ⟨r₁, hruns₁, hother₁, hself₁, hnum₁⟩ := hruns₀.gives (hmem 0) (hone 0)
  obtain ⟨r, hruns, hother, hself, hnum'⟩ := hruns₁.gives (i := 1)
    ((List.mem_erase_of_ne (by decide)).mpr (hmem 1)) (by rw [hother₁ 1 (by decide), hone 1])
  have hfree : ∀ k, (r.bufs k).ref = 0 ↔ k = 0 ∨ k = 1 := by
    intro k
    by_cases h1 : k = 1
    · rw [h1, hself]
      simp
    · by_cases h0 : k = 0
      · rw [hother k h1, h0, hself₁]
        simp
      · rw [hother k h1, hother₁ k h0, hone k]
        simp [h0, h1]
  have hmiss : ∀ k, (r.bufs k).blockNum ≠ 65 := by
    intro k he
    rw [hnum', hnum₁] at he
    rcases hnum k with h1 | h1 <;> omega
  have hlru := buf_replacement_lru hruns 65 hmiss
  cases hread : (Raw.bufRead 65 r).1 with
  | error e => exact absurd ((hfree 0).mpr (.inl rfl)) ((hlru.2 e hread).2 0)
  | ok p =>
      obtain ⟨hz, holder⟩ := hlru.1 p.1 p.2 hread
      have hp : p.1 = 0 := by
        rcases (hfree p.1).mp hz with hp | hp
        · exact hp
        · have hold := holder 0 ((hfree 0).mpr (.inl rfl)) (by rw [hp]; decide)
          rw [hp] at hold
          exact absurd hold (by unfold Older; decide)
      exact ⟨0, 1, _, r, p.2, hruns, by decide, hfree, by rw [hread, ← hp]⟩

end WhuOs.Fs
