import WhuOs.Dev.VirtioRuns

/-! # The protocol between driver and device

The steps of the interrupt handler and of the device keep the invariant, so it holds
in every state that processes, handler and device reach together.
-/

namespace WhuOs.Dev

section

variable {P B : Type} {s s' : Sys P B} {p q : P} {b : B} {x : Idx} {r : Request B}
  {k : Kind} {head : Nat}

/-! ## The device -/

/-- Steps that move chains between the rings. -/
theorem Inv.device (h : Inv s) (hreq : s'.req = s.req) (hbusy : s'.busy = s.busy)
    (hlock : s'.lock = s.lock)
    (hfree : s'.disk.free = s.disk.free) (hdesc : s'.disk.desc = s.disk.desc)
    (hinfo : ∀ i, (s'.disk.info i).b = (s.disk.info i).b)
    (hstatus : ∀ i, (s'.disk.info i).status = 0)
    (havail : s'.disk.avail = s.disk.avail) (hsub : s'.hist.submitted = s.hist.submitted)
    (hperm : s'.flight.Perm s.flight) (hrings : Rings s')
    (hdoing : ∀ n ∈ s'.doing, s'.hist.finished n = false)
    (hended : ∀ n ∈ s'.ended, s'.hist.finished n = true)
    (hfin : ∀ n, s.hist.finished n = true → s'.hist.finished n = true) : Inv s' := by
  refine ⟨?_, ?_, hstatus, hperm.nodup_iff.mpr h.nodup, fun n =>
    ?_, hrings, hdoing, hended, fun p b x hx hb => ?_,
    fun p b x hx => ?_, fun p b x hx => ?_, fun p b x hx => ?_, ?_⟩
  · rw [hreq]
    exact h.descs.disk_congr hfree hdesc hinfo
  · rw [hreq]
    exact h.bufs
  · rw [hperm.mem_iff, h.flight, hreq, hbusy]
  · rw [hreq] at hx
    rw [hbusy] at hb
    exact hfin _ (h.idle p b x hx hb)
  · rw [hreq] at hx
    rw [hbusy]
    exact h.preset p b x hx
  · rw [hreq] at hx
    rw [havail, hsub]
    exact h.staged p b x hx
  · rw [hreq] at hx
    rw [hbusy]
    exact h.finishing p b x hx
  · rw [hreq, hlock]
    exact h.lock

/-- The next chain that the device takes. -/
theorem Inv.next_avail (h : Inv s) (hne : s.dev.lastAvail ≠ s.disk.availIdx) :
    s.hist.submitted[s.hist.consumed.length]? = some (s.disk.avail (slot s.dev.lastAvail)) := by
  have hlt : s.hist.consumed.length < s.hist.submitted.length := by
    refine lt_of_le_of_ne h.rings.consumed.length_le fun he => hne ?_
    rw [h.rings.lastAvail, h.rings.availIdx, he]
  have hget := List.getElem?_eq_getElem hlt
  rw [hget, h.rings.lastAvail, slot_u16, h.rings.avail _ _ (Nat.le_refl _) hget]

/-- The next element of the used ring. -/
theorem Inv.next_used (h : Inv s) (hne : s.disk.usedIdx ≠ s.disk.usedRing) :
    s.hist.completed[s.hist.processed.length]? = some (s.disk.usedElems (slot s.disk.usedIdx)) := by
  have hlt : s.hist.processed.length < s.hist.completed.length := by
    refine lt_of_le_of_ne h.rings.processed.length_le fun he => hne ?_
    rw [h.rings.usedIdx, h.rings.usedRing, he]
  have hget := List.getElem?_eq_getElem hlt
  rw [hget, h.rings.usedIdx, slot_u16, h.rings.elems _ _ (Nat.le_refl _) hget]

/-- A list that has seen a part of another sees its next element. -/
theorem prefix_snoc {l l' : List Nat} {n : Nat} (h : l <+: l') (hn : l'[l.length]? = some n) :
    l ++ [n] <+: l' ∧ l'.drop l.length = n :: l'.drop (l.length + 1) := by
  obtain ⟨hlt, rfl⟩ := List.getElem?_eq_some_iff.mp hn
  have hdrop : l'.drop l.length = l'[l.length] :: l'.drop (l.length + 1) :=
    List.drop_eq_getElem_cons hlt
  refine ⟨⟨l'.drop (l.length + 1), ?_⟩, hdrop⟩
  rw [List.append_assoc, List.singleton_append, ← hdrop]
  exact List.prefix_iff_eq_append.mp h

theorem Inv.devConsume (h : Inv s) (hne : s.dev.lastAvail ≠ s.disk.availIdx) : Inv (devConsume s) := by
  obtain ⟨hpre, hdrop⟩ := prefix_snoc h.rings.consumed (h.next_avail hne)
  have hqueue :
      (WhuOs.Dev.devConsume s).hist.queue = s.hist.submitted.drop (s.hist.consumed.length + 1) := by
    change s.hist.submitted.drop (s.hist.consumed ++ [_]).length = _
    rw [List.length_append, List.length_singleton]
  have hdoing : (WhuOs.Dev.devConsume s).doing.Perm s.doing := by
    unfold Sys.doing
    rw [hqueue, show s.hist.queue = _ from hdrop]
    exact List.perm_middle
  refine h.device rfl rfl rfl rfl rfl (fun _ => rfl) h.status rfl rfl
    (hdoing.append_right _) ?_ ?_ h.ended
    fun _ => id
  · refine { h.rings with consumed := hpre, avail := fun k n hk => h.rings.avail k n ?_, lastAvail := ?_ }
    · have hlen : (s.hist.consumed ++ [s.disk.avail (slot s.dev.lastAvail)]).length ≤ k := hk
      rw [List.length_append] at hlen
      exact Nat.le_of_add_right_le hlen
    · change u16 (s.dev.lastAvail + 1) = u16 (s.hist.consumed ++ [_]).length
      rw [h.rings.lastAvail, u16_succ, List.length_append, List.length_singleton]
  · intro n hn
    exact h.doing n (hdoing.mem_iff.mp hn)

theorem Inv.devComplete (h : Inv s) (hmem : head ∈ s.dev.active) (hw : s.dev.written = none) :
    Inv (devComplete head s) := by
  have hdoing : s.doing.Perm (head :: (WhuOs.Dev.devComplete head s).doing) := by
    unfold Sys.doing
    exact ((List.perm_cons_erase hmem).append_left _).trans List.perm_middle
  have hended : (WhuOs.Dev.devComplete head s).ended = head :: s.ended := by
    unfold Sys.ended
    rw [hw]
    rfl
  have hperm : (WhuOs.Dev.devComplete head s).flight.Perm s.flight := by
    unfold Sys.flight
    rw [hended]
    exact List.perm_middle.trans (hdoing.append_right _).symm
  have hnodup : head ∉ (WhuOs.Dev.devComplete head s).doing := by
    have hn := (List.nodup_append.mp h.nodup).1
    exact (List.nodup_cons.mp (hdoing.nodup_iff.mp hn)).1
  have hne : ∀ n, n ≠ head → (WhuOs.Dev.devComplete head s).hist.finished n = s.hist.finished n :=
    fun n hn => Function.update_of_ne hn _ _
  have hself : (WhuOs.Dev.devComplete head s).hist.finished head = true :=
    Function.update_self _ _ _
  refine h.device rfl rfl rfl rfl rfl (fun i => ?_) (fun i => ?_) rfl rfl hperm ?_ ?_ ?_ ?_
  · change (Function.update s.disk.info (slot head) _ i).b = _
    by_cases hi : i = slot head
    · rw [hi, Function.update_self]
    · rw [Function.update_of_ne hi]
  · change (Function.update s.disk.info (slot head) _ i).status = 0
    by_cases hi : i = slot head
    · rw [hi, Function.update_self]
    · rw [Function.update_of_ne hi]
      exact h.status i
  · have hslot :
        slot s.disk.usedRing = slot s.hist.completed.length := by rw [h.rings.usedRing, slot_u16]
    refine { h.rings with elems := fun k n hk hn => ?_, written := fun n hn => ?_ }
    · have hlt := (List.getElem?_eq_some_iff.mp hn).1
      have hfew := h.done_few
      have hk' : s.hist.processed.length ≤ k := hk
      have hlt' : k < s.hist.completed.length := hlt
      change Function.update s.disk.usedElems (slot s.disk.usedRing) head (slot k) = n
      rw [hslot, Function.update_of_ne (slot_ne hlt' (by omega))]
      exact h.rings.elems k n hk hn
    · change Function.update s.disk.usedElems (slot s.disk.usedRing) head (slot s.hist.completed.length) = n
      rw [hslot, Function.update_self]
      exact Option.some.inj hn
  · intro n hn
    rw [hne n fun hc => hnodup (hc ▸ hn)]
    exact h.doing n (hdoing.mem_iff.mpr (List.mem_cons_of_mem _ hn))
  · intro n hn
    rw [hended] at hn
    by_cases hnh : n = head
    · rw [hnh, hself]
    · rw [hne n hnh]
      exact h.ended n ((List.mem_cons.mp hn).resolve_left hnh)
  · intro n hn
    by_cases hnh : n = head
    · rw [hnh, hself]
    · rw [hne n hnh, hn]

theorem Inv.devPublish (h : Inv s) (hw : s.dev.written = some head) : Inv (devPublish head s) := by
  have hdone : (WhuOs.Dev.devPublish head s).hist.done = s.hist.done ++ [head] :=
    List.drop_append_of_le_length h.rings.processed.length_le
  have hended : (WhuOs.Dev.devPublish head s).ended.Perm s.ended := by
    unfold Sys.ended
    rw [hdone, hw]
    exact List.perm_append_singleton head s.hist.done
  refine h.device rfl rfl rfl rfl rfl (fun _ => rfl) h.status rfl rfl
    (hended.append_left _) ?_ h.doing ?_
    fun _ => id
  · refine { h.rings with processed := ?_, elems := fun k n hk hn => ?_, written := ?_, usedRing := ?_ }
    · exact h.rings.processed.trans (List.prefix_append _ _)
    · change (s.hist.completed ++ [head])[k]? = some n at hn
      rcases getElem?_snoc hn with hn | ⟨rfl, rfl⟩
      · exact h.rings.elems k n hk hn
      · exact h.rings.written n hw
    · exact fun n hn => nomatch hn
    · change u16 (s.disk.usedRing + 1) = u16 (s.hist.completed ++ [head]).length
      rw [h.rings.usedRing, u16_succ, List.length_append, List.length_singleton]
  · intro n hn
    exact h.ended n (hended.mem_iff.mp hn)

/-! ## The interrupt handler -/

/-- The chain that the handler finds on the used ring. -/
theorem Inv.used (h : Inv s) (hne : s.disk.usedIdx ≠ s.disk.usedRing) :
    ∃ p b x, At s.req .submitted p b x ∧ s.busy b = true ∧
    s.disk.usedElems (slot s.disk.usedIdx) = x.fst.val ∧
      s.hist.finished x.fst.val = true ∧ (s.disk.info x.fst).b = some b := by
  obtain ⟨-, hdrop⟩ := prefix_snoc h.rings.processed (h.next_used hne)
  have hmem : s.disk.usedElems (slot s.disk.usedIdx) ∈ s.ended := by
    refine List.mem_append_right _ ?_
    change _ ∈ s.hist.completed.drop s.hist.processed.length
    rw [hdrop]
    exact List.mem_cons_self
  obtain ⟨p, b, x, hx, hb, he⟩ := (h.flight _).mp (List.mem_append_right _ hmem)
  refine ⟨p, b, x, hx, hb, he, ?_, (h.descs.chain p b x hx.formatted).info⟩
  rw [← he]
  exact h.ended _ hmem

variable [DecidableEq B]

/-- The state after a turn of the handler for the chain of buffer `b`. -/
def Sys.handled (s : Sys P B) (b : B) : Sys P B :=
  { s with
    busy := Function.update s.busy b false
    req := fun p => (s.req p).map (Request.wakeBuf b)
    disk := { s.disk with usedIdx := u16 (s.disk.usedIdx + 1) }
    hist := { s.hist with processed := s.hist.processed ++ [s.disk.usedElems (slot s.disk.usedIdx)] } }

theorem intrLoop_eq (hne : s.disk.usedIdx ≠ s.disk.usedRing)
    (hx : s.disk.usedElems (slot s.disk.usedIdx) = x.fst.val)
    (hstatus : (s.disk.info x.fst).status = 0) (hb : (s.disk.info x.fst).b = some b) :
    intrLoop s = .ok (s.handled b) := by
  have hlt : s.disk.usedElems (slot s.disk.usedIdx) < 8 := by
    rw [hx]
    exact x.fst.isLt
  have hfin : (⟨_, hlt⟩ : Fin 8) = x.fst := Fin.ext hx
  unfold intrLoop
  rw [if_neg hne]
  dsimp only
  rw [dif_pos hlt, hfin, if_neg (not_not_intro hstatus), hb]
  rfl

theorem Inv.handled (h : Inv s) (hne : s.disk.usedIdx ≠ s.disk.usedRing) (hx : At s.req .submitted p b x)
    (he : s.disk.usedElems (slot s.disk.usedIdx) = x.fst.val) : Inv (s.handled b) := by
  have hw := h.woken (Woken.wakeBuf b s.req)
  have hwoken := (Woken.wakeBuf b s.req).at_iff
  obtain ⟨hpre, hdrop⟩ := prefix_snoc h.rings.processed (h.next_used hne)
  have hdone : (s.handled b).hist.done = s.hist.completed.drop (s.hist.processed.length + 1) := by
    change s.hist.completed.drop (s.hist.processed ++ [_]).length = _
    rw [List.length_append, List.length_singleton]
  have hended : s.ended.Perm (x.fst.val :: (s.handled b).ended) := by
    unfold Sys.ended
    rw [hdone, show s.hist.done = _ from hdrop, he]
    exact List.perm_middle
  have hperm : s.flight.Perm (x.fst.val :: (s.handled b).flight) :=
    (hended.append_left _).trans List.perm_middle
  have hnodup := hperm.nodup_iff.mp h.nodup
  have hbusy : ∀ b', b' ≠ b → (s.handled b).busy b' = s.busy b' :=
    fun b' hb' => Function.update_of_ne hb' _ _
  have hself : (s.handled b).busy b = false := Function.update_self _ _ _
  -- a request for this buffer is the one of the chain
  have hsame : ∀ k q y, At s.req k q b y → q = p ∧ y = x := by
    intro k q y hy
    obtain rfl := h.buf_inj hy hx
    exact ⟨rfl, (hy.unique hx).2⟩
  refine ⟨hw.descs.disk_congr rfl rfl fun _ =>
    rfl, hw.bufs, h.status, (List.nodup_cons.mp hnodup).2, fun n => ?_, ?_,
    h.doing, fun n hn => ?_, fun q b' y hy hb' => ?_, fun q b' y hy =>
      ?_, hw.staged, fun q b' y hy => ?_, hw.lock⟩
  · have hiff : n ∈ (s.handled b).flight ↔ n ≠ x.fst.val ∧ n ∈ s.flight := by
      rw [hperm.mem_iff, List.mem_cons]
      constructor
      · intro hn
        exact ⟨fun hc => (List.nodup_cons.mp hnodup).1 (hc ▸ hn), .inr hn⟩
      · rintro ⟨h1, h2⟩
        exact h2.resolve_left h1
    rw [hiff, h.flight]
    constructor
    · rintro ⟨hn, q, b', y, hy, hb', rfl⟩
      refine ⟨q, b', y, (hwoken _ _ _ _).mpr hy, ?_, rfl⟩
      rw [hbusy b', hb']
      rintro rfl
      exact hn (congrArg (fun i : Idx => i.fst.val) (hsame _ q y hy).2)
    · rintro ⟨q, b', y, hy, hb', rfl⟩
      have hy' := (hwoken _ _ _ _).mp hy
      have hbb : b' ≠ b := by
        rintro rfl
        rw [hself] at hb'
        cases hb'
      rw [hbusy b' hbb] at hb'
      refine ⟨fun hc => ?_, q, b', y, hy', hb', rfl⟩
      obtain rfl := h.descs.head_inj hy' hx (Fin.ext hc)
      exact hbb (hy'.unique hx).1
  · refine { h.rings with processed := hpre, elems := fun k n hk => h.rings.elems k n ?_, usedIdx := ?_ }
    · have hlen : (s.hist.processed ++ [s.disk.usedElems (slot s.disk.usedIdx)]).length ≤ k := hk
      rw [List.length_append] at hlen
      exact Nat.le_of_add_right_le hlen
    · change u16 (s.disk.usedIdx + 1) = u16 (s.hist.processed ++ [_]).length
      rw [h.rings.usedIdx, u16_succ, List.length_append, List.length_singleton]
  · exact h.ended n (hended.mem_iff.mpr (List.mem_cons_of_mem _ hn))
  · have hy' := (hwoken _ _ _ _).mp hy
    by_cases hbb : b' = b
    · subst hbb
      rw [(hsame _ q y hy').2]
      exact h.ended _ (hended.mem_iff.mpr List.mem_cons_self)
    · rw [hbusy b' hbb] at hb'
      exact h.idle q b' y hy' hb'
  · have hy' := (hwoken _ _ _ _).mp hy
    rw [hbusy b' ?_]
    · exact h.preset q b' y hy'
    · rintro rfl
      obtain ⟨rfl, rfl⟩ := hsame _ q y hy'
      obtain ⟨z, hz, -, -, hk⟩ := hy'
      refine not_at hz ?_ hx
      cases hst : z.stage <;> rw [hst] at hk <;> first | rfl | cases hk
  · have hy' := (hwoken _ _ _ _).mp hy
    by_cases hbb : b' = b
    · rw [hbb, hself]
    · rw [hbusy b' hbb]
      exact h.finishing q b' y hy'

theorem Inv.intrLoop (h : Inv s) (hl : s.lock = some .intr) :
    ∃ s', intrLoop s = .ok s' ∧ Inv s' := by
  by_cases hne : s.disk.usedIdx = s.disk.usedRing
  · exact ⟨_, if_pos hne, h.intrEnd hl⟩
  · obtain ⟨p, b, x, hx, -, he, -, hb⟩ := h.used hne
    exact ⟨_, intrLoop_eq hne he (h.status x.fst) hb, h.handled hne hx he⟩

variable [DecidableEq P] {blockNum : B → Nat} {a : Action P B} {o : Except Panic (Sys P B)}

/-! ## Runs -/

/-- Every step succeeds and keeps the invariant. -/
theorem Inv.step (h : Inv s) (hs : Step blockNum a s o) : ∃ s', o = .ok s' ∧ Inv s' := by
  cases hs with
  | call hp hb => exact ⟨_, rfl, h.call hp hb⟩
  | acquire hp hs => exact ⟨_, rfl, h.acquire hp hs⟩
  | alloc hp hr => exact h.alloc hp hr
  | format hp hr => exact ⟨_, rfl, h.format hp hr⟩
  | ring hp hr => exact ⟨_, rfl, h.ring hp hr⟩
  | publish hp hr => exact ⟨_, rfl, h.publish hp hr⟩
  | check hp hr => exact ⟨_, rfl, h.check hp hr⟩
  | finish hp hr => exact h.finish hp hr
  | intr hl => exact ⟨_, rfl, h.intr hl⟩
  | intrLoop hl => exact h.intrLoop hl
  | devConsume hne => exact ⟨_, rfl, h.devConsume hne⟩
  | devComplete hmem hw => exact ⟨_, rfl, h.devComplete hmem hw⟩
  | devPublish hw => exact ⟨_, rfl, h.devPublish hw⟩

theorem Reach.inv (h : Reach blockNum s) : Inv s := by
  induction h with
  | init => exact Inv.init
  | step _ hs ih =>
      obtain ⟨s', he, hi⟩ := ih.step hs
      cases he
      exact hi

/-- What the driver promises about a state. -/
structure Protocol (blockNum : B → Nat) (s : Sys P B) : Prop where
  /-- A request owns three descriptors. -/
  triple : ∀ p r x, s.req p = some r → r.stage.idx = some x → x.list.Nodup
  /-- Requests do not share descriptors. -/
  disjoint : ∀ p q r r' x y, s.req p = some r → s.req q = some r' → r.stage.idx = some x →
  r'.stage.idx = some y →
    p ≠ q → x.list.Disjoint y.list
  free : s.lock = none → ∀ i, s.disk.free i = true ↔ ∀ p r x, s.req p = some r →
    r.stage.idx = some x → i ∉ x.list
  /-- The device takes the chains in the order of submission. -/
  consumed : s.hist.consumed <+: s.hist.submitted
  /-- The slot that is written next is not one that the device has still to read. -/
  slot : ∀ k, s.hist.consumed.length ≤ k → k < s.hist.submitted.length →
  slot k ≠ slot s.disk.availIdx
  /-- No step panics. -/
  safe : ∀ a o, Step blockNum a s o → ∃ s', o = .ok s'
  /-- The handler clears `disk` for the buffer of a completed chain only. -/
  cleared : ∀ s', Step blockNum .intrLoop s (.ok s') → ∀ b, s.busy b = true → s'.busy b = false →
    ∃ p r x, s.req p = some r ∧ r.buf = b ∧ r.stage.idx = some x ∧ s.hist.finished x.fst.val = true
  /-- The handler sees the elements of the used ring in order, each of them once. -/
  processed : s.hist.processed <+: s.hist.completed
  /-- The handler stops when it has seen all of them. -/
  drained : ∀ s', Step blockNum .intrLoop s (.ok s') → s'.lock = none →
  s'.hist.processed = s'.hist.completed
  /-- A call returns after its chain was completed. -/
  returns : ∀ p r o, Step blockNum (.finish p) s o → s.req p = some r →
    ∃ x, r.stage = .finish x ∧ s.hist.finished x.fst.val = true

theorem Inv.drained (h : Inv s) (hs : Step blockNum .intrLoop s (.ok s')) (hl : s'.lock = none) :
    s'.hist.processed = s'.hist.completed := by
  generalize ha : (Action.intrLoop : Action P B) = a at hs
  generalize ho : Except.ok s' = o at hs
  cases hs with
  | intrLoop hlock =>
      by_cases hne : s.disk.usedIdx = s.disk.usedRing
      · unfold WhuOs.Dev.intrLoop at ho
        rw [if_pos hne] at ho
        cases ho
        -- fewer than a turn of elements are outstanding, so equal indices mean equal lengths
        have hfew := h.done_few
        have hle := h.rings.processed.length_le
        rw [h.rings.usedIdx, h.rings.usedRing] at hne
        exact h.rings.processed.eq_of_length (u16_inj hle (by omega) hne)
      · obtain ⟨p, b, x, -, -, he, -, hb⟩ := h.used hne
        rw [intrLoop_eq hne he (h.status x.fst) hb] at ho
        cases ho
        change s.lock = none at hl
        rw [hlock] at hl
        cases hl
  | _ => cases ha

theorem Inv.cleared (h : Inv s) (hs : Step blockNum .intrLoop s (.ok s')) (hb : s.busy b = true)
    (hb' : s'.busy b = false) :
    ∃ p r x, s.req p = some r ∧ r.buf = b ∧ r.stage.idx = some x ∧
    s.hist.finished x.fst.val = true := by
  generalize ha : (Action.intrLoop : Action P B) = a at hs
  generalize ho : Except.ok s' = o at hs
  cases hs with
  | intrLoop hlock =>
      by_cases hne : s.disk.usedIdx = s.disk.usedRing
      · unfold WhuOs.Dev.intrLoop at ho
        rw [if_pos hne] at ho
        cases ho
        change s.busy b = false at hb'
        rw [hb] at hb'
        cases hb'
      · obtain ⟨p, b₀, x, ⟨r, hr, hbuf, hx, -⟩, -, he, hfin, hinfo⟩ := h.used hne
        rw [intrLoop_eq hne he (h.status x.fst) hinfo] at ho
        cases ho
        have hbb : b = b₀ := by
          by_contra hbb
          change Function.update s.busy b₀ false b = false at hb'
          rw [Function.update_of_ne hbb, hb] at hb'
          cases hb'
        exact ⟨p, r, x, hr, hbuf.trans hbb.symm, hx, hfin⟩
  | _ => cases ha

theorem Inv.returns (h : Inv s) (hs : Step blockNum (.finish p) s o) (hp : s.req p = some r) :
    ∃ x, r.stage = .finish x ∧ s.hist.finished x.fst.val = true := by
  cases hs with
  | finish hp' hr =>
      obtain rfl := Option.some.inj (hp.symm.trans hp')
      have hat : ∀ k, Kind.has k (.finish _) = true → At s.req k p r.buf _ := fun k hk =>
        (at_some hp).mpr ⟨rfl, by rw [hr]; rfl, by rw [hr]; exact hk⟩
      exact ⟨_, hr, h.idle p _ _ (hat .submitted rfl) (h.finishing p _ _ (hat .finishing rfl))⟩

/-- Processes that read and write distinct buffers, the interrupt handler and the device keep to the
protocol, in whatever order they take their steps. -/
theorem disk_requests_protocol (h : Reach blockNum s) : Protocol blockNum s := by
  have hi := h.inv
  have hat : ∀ {p r x}, s.req p = some r → r.stage.idx = some x → At s.req .any p r.buf x :=
    fun hp hx => ⟨_, hp, rfl, hx, rfl⟩
  refine
    { triple := fun p r x hp hx => hi.descs.nodup p _ x (hat hp hx)
      disjoint := fun p q r r' x y hp hq hx hy => hi.descs.apart p q _ _ x y (hat hp hx) (hat hq hy)
      free := fun _ i => ?_
      consumed := hi.rings.consumed
      slot := fun k hk hlt => ?_
      safe := fun a o hs => ?_
      cleared := fun s' hs b => hi.cleared hs
      processed := hi.rings.processed
      drained := fun s' hs => hi.drained hs
      returns := fun p r o hs => hi.returns hs }
  · rw [hi.descs.free]
    constructor
    · exact fun hall p r x hp hx => hall p _ x (hat hp hx)
    · rintro hall p b x ⟨r, hp, -, hx, -⟩
      exact hall p r x hp hx
  · have hfew := hi.queue_few
    rw [hi.rings.availIdx, slot_u16]
    exact slot_ne hlt (by omega)
  · obtain ⟨s', he, -⟩ := hi.step hs
    exact ⟨s', he⟩

end

/-- Two requests are in flight and the device completes the second one first; the handler has woken
both processes. -/
theorem disk_requests_protocol_crossed : ∃ s : Sys Bool Bool,
    (s.req false).map Request.stage = some (.wokenBuf ⟨0, 1, 2⟩) ∧ (s.req true).map Request.stage =
    some (.finish ⟨3, 4, 5⟩) ∧
      s.hist.submitted = [0, 3] ∧ s.hist.processed = [3, 0] ∧
      Reach (fun b => if b then 7 else 9) s ∧ Protocol (fun b => if b then 7 else 9) s := by
  have h₁ : Reach (fun b => if b then 7 else 9)
    ((Sys.init : Sys Bool Bool).setReq false (some ⟨false, false, .enter⟩)) :=
    Reach.init.step (.call rfl fun _ _ hr => by cases hr)
  have h₂ := ((h₁.step (.acquire (p := false) rfl rfl)).step (.alloc (p := false) rfl rfl)).step
    (.format (p := false) rfl rfl)
  have h₃ := ((h₂.step (.ring (p := false) rfl rfl)).step (.publish (p := false) rfl rfl)).step
    (.check (p := false) rfl rfl)
  have h₄ := h₃.step (a := .call true true true) (.call rfl fun q r hr => by
    cases q
    · cases hr
      decide
    · cases hr)
  have h₅ := ((h₄.step (.acquire (p := true) rfl rfl)).step (.alloc (p := true) rfl rfl)).step
    (.format (p := true) rfl rfl)
  have h₆ := ((h₅.step (.ring (p := true) rfl rfl)).step (.publish (p := true) rfl rfl)).step
    (.check (p := true) rfl rfl)
  -- the device
  have h₇ := ((h₆.step (.devConsume (by decide))).step (.devConsume (by decide))).step
    (a := .devComplete 3) (.devComplete (by decide) rfl)
  have h₈ := ((h₇.step (.devPublish rfl)).step (a := .devComplete 0)
    (.devComplete (by decide) rfl)).step (.devPublish rfl)
  -- the interrupt handler
  have h₉ := (((h₈.step (.intr rfl)).step (.intrLoop rfl)).step (.intrLoop rfl)).step
    (.intrLoop rfl)
  have h₁₀ := (h₉.step (.acquire (p := true) rfl rfl)).step (.check (p := true) rfl rfl)
  exact ⟨_, rfl, rfl, rfl, rfl, h₁₀, disk_requests_protocol h₁₀⟩

end WhuOs.Dev
