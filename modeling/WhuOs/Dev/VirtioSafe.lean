import WhuOs.Dev.Virtio
import Mathlib.Data.Fintype.Card

/-! # Safety of the disk driver

An invariant of the driver, the device and the rings between them. The heads that
the device owns or that wait for the interrupt handler are listed by `Sys.flight`;
each of them starts the chain of a process that waits for its buffer.
-/

namespace WhuOs.Dev

/-! ## Stages -/

def Stage.idx : Stage → Option Idx
  | .format x => some x
  | .ring x => some x
  | .publish x => some x
  | .wait x => some x
  | .sleepBuf x => some x
  | .wokenBuf x => some x
  | .finish x => some x
  | _ => none

/-- Classes of stages that own descriptors. -/
inductive Kind where
  | any
  /-- The descriptors are filled in. -/
  | formatted
  /-- The chain was not yet handed to the device. -/
  | preset
  /-- The avail ring names the chain, but its index does not cover it. -/
  | staged
  | submitted
  | finishing
deriving DecidableEq

def Kind.has : Kind → Stage → Bool
  | .any, _ => true
  | .formatted, .format _ => false
  | .formatted, _ => true
  | .preset, .ring _ => true
  | .preset, .publish _ => true
  | .staged, .publish _ => true
  | .submitted, .wait _ => true
  | .submitted, .sleepBuf _ => true
  | .submitted, .wokenBuf _ => true
  | .submitted, .finish _ => true
  | .finishing, .finish _ => true
  | _, _ => false

def Stage.locked : Stage → Bool
  | .alloc => true
  | .format _ => true
  | .ring _ => true
  | .publish _ => true
  | .wait _ => true
  | .finish _ => true
  | _ => false

section

variable {P B : Type}

/-- The request of `p` for buffer `b` owns the descriptors `x` and is at a stage of kind `k`. -/
def At (req : P → Option (Request B)) (k : Kind) (p : P) (b : B) (x : Idx) : Prop :=
  ∃ r, req p = some r ∧ r.buf = b ∧ r.stage.idx = some x ∧ k.has r.stage = true

/-- The chain as `virtio_disk_rw` builds it. -/
structure Chain (d : Disk B) (b : B) (x : Idx) : Prop where
  fst : (d.desc x.fst).flags &&& vringDescFNext ≠ 0 ∧ (d.desc x.fst).next = x.snd
  snd : (d.desc x.snd).flags &&& vringDescFNext ≠ 0 ∧ (d.desc x.snd).next = x.thd
  thd : (d.desc x.thd).flags &&& vringDescFNext = 0
  info : (d.info x.fst).b = some b

/-- Chains handed to the device that it has not taken yet. -/
def History.queue (h : History) : List Nat := h.submitted.drop h.consumed.length

/-- Completed chains that the interrupt handler has not seen yet. -/
def History.done (h : History) : List Nat := h.completed.drop h.processed.length

def Sys.doing (s : Sys P B) : List Nat := s.hist.queue ++ s.dev.active

def Sys.ended (s : Sys P B) : List Nat := s.dev.written.toList ++ s.hist.done

def Sys.flight (s : Sys P B) : List Nat := s.doing ++ s.ended

/-- The rings and their indices agree with the history. -/
structure Rings (s : Sys P B) : Prop where
  consumed : s.hist.consumed <+: s.hist.submitted
  avail : ∀ k h, s.hist.consumed.length ≤ k → s.hist.submitted[k]? = some h →
    s.disk.avail (slot k) = h
  availIdx : s.disk.availIdx = u16 s.hist.submitted.length
  lastAvail : s.dev.lastAvail = u16 s.hist.consumed.length
  processed : s.hist.processed <+: s.hist.completed
  elems : ∀ k h, s.hist.processed.length ≤ k → s.hist.completed[k]? = some h →
    s.disk.usedElems (slot k) = h
  written : ∀ h, s.dev.written = some h → s.disk.usedElems (slot s.hist.completed.length) = h
  usedRing : s.disk.usedRing = u16 s.hist.completed.length
  usedIdx : s.disk.usedIdx = u16 s.hist.processed.length

structure Descs (d : Disk B) (req : P → Option (Request B)) : Prop where
  nodup : ∀ p b x, At req .any p b x → x.list.Nodup
  apart : ∀ p q b b' x y, At req .any p b x → At req .any q b' y → p ≠ q → x.list.Disjoint y.list
  free : ∀ i, d.free i = true ↔ ∀ p b x, At req .any p b x → i ∉ x.list
  chain : ∀ p b x, At req .formatted p b x → Chain d b x

structure Inv (s : Sys P B) : Prop where
  descs : Descs s.disk s.req
  bufs : ∀ p q r r', s.req p = some r → s.req q = some r' → r.buf = r'.buf → p = q
  status : ∀ i, (s.disk.info i).status = 0
  nodup : s.flight.Nodup
  flight : ∀ h, h ∈ s.flight ↔ ∃ p b x, At s.req .submitted p b x ∧ s.busy b = true ∧ h = x.fst.val
  rings : Rings s
  doing : ∀ h ∈ s.doing, s.hist.finished h = false
  ended : ∀ h ∈ s.ended, s.hist.finished h = true
  idle : ∀ p b x, At s.req .submitted p b x → s.busy b = false → s.hist.finished x.fst = true
  preset : ∀ p b x, At s.req .preset p b x → s.busy b = true
  staged : ∀ p b x, At s.req .staged p b x → s.disk.avail (slot s.hist.submitted.length) = x.fst
  finishing : ∀ p b x, At s.req .finishing p b x → s.busy b = false
  lock : ∀ p r, s.req p = some r → r.stage.locked = true → s.lock = some (.proc p)

variable {s s' : Sys P B} {req req' : P → Option (Request B)} {k : Kind}
  {p q : P} {b b' : B} {x y : Idx}
  {r r' : Request B} {d d' : Disk B} {h n : Nat}

/-! ## Indices -/

theorem slot_u16 (n : Nat) : slot (u16 n) = slot n := by
  unfold slot u16
  congr 1
  omega

theorem u16_succ (n : Nat) : u16 (u16 n + 1) = u16 (n + 1) := by
  unfold u16
  omega

theorem slot_ne {m n : Nat} (h1 : m < n) (h2 : n < m + 8) : slot m ≠ slot n := by
  intro hc
  have hv := congrArg Fin.val hc
  unfold slot at hv
  dsimp only at hv
  omega

/-- Indices less than a turn apart are told apart by their last 16 bits. -/
theorem u16_inj {m n : Nat} (h1 : m ≤ n) (h2 : n < m + 8) (h : u16 m = u16 n) : m = n := by
  unfold u16 at h
  omega

/-- An entry of a history that grew is an old one or the new one. -/
theorem getElem?_snoc {l : List Nat} {k m n : Nat} (h : (l ++ [m])[k]? = some n) :
    l[k]? = some n ∨ k = l.length ∧ n = m := by
  rcases Nat.lt_trichotomy k l.length with hlt | heq | hgt
  · rw [List.getElem?_append_left hlt] at h
    exact .inl h
  · subst heq
    rw [List.getElem?_concat_length] at h
    exact .inr ⟨rfl, (Option.some.inj h).symm⟩
  · have hlen := (List.getElem?_eq_some_iff.mp h).1
    rw [List.length_append, List.length_singleton] at hlen
    omega

/-! ## Requests -/

theorem At.any (h : At req k p b x) : At req .any p b x := by
  obtain ⟨r, h1, h2, h3, -⟩ := h
  exact ⟨r, h1, h2, h3, rfl⟩

theorem Kind.submitted_formatted {st : Stage} (h : Kind.submitted.has st = true) :
    Kind.formatted.has st = true := by
  cases st <;> first | rfl | cases h

theorem At.formatted (h : At req .submitted p b x) : At req .formatted p b x := by
  obtain ⟨r, h1, h2, h3, h4⟩ := h
  exact ⟨r, h1, h2, h3, Kind.submitted_formatted h4⟩

/-- A process has one request. -/
theorem At.unique {k' : Kind} (h : At req k p b x) (h' : At req k' p b' y) : b = b' ∧ x = y := by
  obtain ⟨r, h1, rfl, h3, -⟩ := h
  obtain ⟨r', h1', rfl, h3', -⟩ := h'
  obtain rfl := Option.some.inj (h1.symm.trans h1')
  exact ⟨rfl, Option.some.inj (h3.symm.trans h3')⟩

theorem at_some (hp : req p = some r) :
    At req k p b x ↔ r.buf = b ∧ r.stage.idx = some x ∧ k.has r.stage = true := by
  constructor
  · rintro ⟨r', h1, h2⟩
    obtain rfl := Option.some.inj (hp.symm.trans h1)
    exact h2
  · exact fun h => ⟨r, hp, h⟩

section

variable [DecidableEq P]

theorem at_update_self :
    At (Function.update req p (some r)) k p b x ↔
    r.buf = b ∧ r.stage.idx = some x ∧ k.has r.stage = true :=
  at_some (Function.update_self p _ req)

theorem at_update_ne {o : Option (Request B)} (hq : q ≠ p) :
    At (Function.update req p o) k q b x ↔ At req k q b x := by
  unfold At
  rw [Function.update_of_ne hq]

/-- The stage of a request changed within its kinds. -/
theorem at_update_same (hp : req p = some r) (hbuf : r'.buf = r.buf)
    (hidx : r'.stage.idx = r.stage.idx)
    (hk : r.stage.idx ≠ none → k.has r'.stage = k.has r.stage) :
    At (Function.update req p (some r')) k q b x ↔ At req k q b x := by
  by_cases hq : q = p
  · subst hq
    rw [at_update_self, at_some hp, hbuf, hidx]
    constructor
    · rintro ⟨h1, h2, h3⟩
      exact ⟨h1, h2, by rw [← hk (by rw [h2]; exact Option.some_ne_none x)]; exact h3⟩
    · rintro ⟨h1, h2, h3⟩
      exact ⟨h1, h2, by rw [hk (by rw [h2]; exact Option.some_ne_none x)]; exact h3⟩
  · exact at_update_ne hq

end

/-! ## Chains do not share descriptors -/

theorem Descs.head_inj {k k' : Kind} (h : Descs d req) (hp : At req k p b x) (hq : At req k' q b' y)
    (he : x.fst = y.fst) : p = q := by
  by_contra hne
  have hd := h.apart p q b b' x y hp.any hq.any hne
  exact hd (a := x.fst) List.mem_cons_self (he ▸ List.mem_cons_self)

theorem Inv.buf_inj {k k' : Kind} (h : Inv s) (hp : At s.req k p b x) (hq : At s.req k' q b y) :
    p = q := by
  obtain ⟨r, h1, h2, -⟩ := hp
  obtain ⟨r', h1', h2', -⟩ := hq
  exact h.bufs p q r r' h1 h1' (h2.trans h2'.symm)

theorem nodup_append3 {l₁ l₂ l₃ : List (Fin 8)} (h1 : l₁.Nodup) (h2 : l₂.Nodup) (h3 : l₃.Nodup)
    (h12 : l₁.Disjoint l₂) (h13 : l₁.Disjoint l₃) (h23 : l₂.Disjoint l₃) :
    (l₁ ++ l₂ ++ l₃).Nodup := by
  refine List.nodup_append'.mpr ⟨List.nodup_append'.mpr ⟨h1, h2, h12⟩, h3, ?_⟩
  exact List.disjoint_append_left.mpr ⟨h13, h23⟩

/-- Eight descriptors are enough for two chains. -/
theorem Descs.few {l : List Nat} (h : Descs d req) (hl : l.Nodup)
    (hmem : ∀ n ∈ l, ∃ p b x, At req .any p b x ∧ n = x.fst.val) : l.length ≤ 2 := by
  match l with
  | [] => exact Nat.zero_le 2
  | [_] => exact Nat.le_succ 1
  | [_, _] => exact Nat.le_refl 2
  | n₁ :: n₂ :: n₃ :: l =>
      exfalso
      obtain ⟨p₁, b₁, x₁, h₁, rfl⟩ := hmem n₁ (by simp)
      obtain ⟨p₂, b₂, x₂, h₂, rfl⟩ := hmem n₂ (by simp)
      obtain ⟨p₃, b₃, x₃, h₃, rfl⟩ := hmem n₃ (by simp)
      have hne : ∀ {p q b b' x y}, At req .any p b x → At req .any q b' y →
        x.fst.val ≠ y.fst.val → p ≠ q := by
        rintro p q b b' x y hp hq hxy rfl
        exact hxy (congrArg (fun z : Idx => z.fst.val) (hp.unique hq).2)
      simp only [List.nodup_cons, List.mem_cons, not_or] at hl
      have hall := nodup_append3 (h.nodup _ _ _ h₁) (h.nodup _ _ _ h₂) (h.nodup _ _ _ h₃)
        (h.apart _ _ _ _ _ _ h₁ h₂ (hne h₁ h₂ hl.1.1))
        (h.apart _ _ _ _ _ _ h₁ h₃ (hne h₁ h₃ hl.1.2.1))
        (h.apart _ _ _ _ _ _ h₂ h₃ (hne h₂ h₃ hl.2.1.1))
      have hcard := hall.length_le_card
      simp [Idx.list] at hcard

theorem Inv.few (h : Inv s) : s.flight.length ≤ 2 := by
  refine h.descs.few h.nodup fun n hn => ?_
  obtain ⟨p, b, x, hat, -, rfl⟩ := (h.flight n).mp hn
  exact ⟨p, b, x, hat.any, rfl⟩

theorem Inv.queue_few (h : Inv s) : s.hist.submitted.length ≤ s.hist.consumed.length + 2 := by
  have hf := h.few
  unfold Sys.flight Sys.doing History.queue at hf
  simp only [List.length_append, List.length_drop] at hf
  omega

theorem Inv.done_few (h : Inv s) : s.hist.completed.length ≤ s.hist.processed.length + 2 := by
  have hf := h.few
  unfold Sys.flight Sys.ended History.done at hf
  simp only [List.length_append, List.length_drop] at hf
  omega

/-! ## Steps that move a request only -/

/-- The steps that leave rings, buffers and the kinds of requests alone. -/
theorem Inv.view (h : Inv s)
    (hdisk : { s'.disk with desc := s.disk.desc, free := s.disk.free } = s.disk)
    (hbusy : s'.busy = s.busy) (hdev : s'.dev = s.dev) (hhist : s'.hist = s.hist)
    (hdescs : Descs s'.disk s'.req)
    (hat : ∀ k, k ≠ .any → ∀ q b x, At s'.req k q b x ↔ At s.req k q b x)
    (hbufs : ∀ p q r r', s'.req p = some r → s'.req q = some r' → r.buf = r'.buf → p = q)
    (hlock : ∀ p r, s'.req p = some r → r.stage.locked = true → s'.lock = some (.proc p)) :
      Inv s' := by
  have hinfo : s'.disk.info = s.disk.info := (congrArg Disk.info hdisk :)
  have havail : s'.disk.avail = s.disk.avail := (congrArg Disk.avail hdisk :)
  have havailIdx : s'.disk.availIdx = s.disk.availIdx := (congrArg Disk.availIdx hdisk :)
  have helems : s'.disk.usedElems = s.disk.usedElems := (congrArg Disk.usedElems hdisk :)
  have husedRing : s'.disk.usedRing = s.disk.usedRing := (congrArg Disk.usedRing hdisk :)
  have husedIdx : s'.disk.usedIdx = s.disk.usedIdx := (congrArg Disk.usedIdx hdisk :)
  have hdoing : s'.doing = s.doing := by
    unfold Sys.doing
    rw [hdev, hhist]
  have hended : s'.ended = s.ended := by
    unfold Sys.ended
    rw [hdev, hhist]
  have hflight : s'.flight = s.flight := by
    unfold Sys.flight
    rw [hdoing, hended]
  have hr := h.rings
  refine ⟨hdescs, hbufs, ?_, ?_, fun n => ?_, ?_, ?_, ?_, fun p b x hx => ?_, fun p b x hx => ?_,
    fun p b x hx => ?_, fun p b x hx => ?_, hlock⟩
  · rw [hinfo]
    exact h.status
  · rw [hflight]
    exact h.nodup
  · rw [hflight, h.flight, hbusy]
    simp only [hat .submitted (by decide)]
  · refine ⟨?_, ?_, ?_, ?_, ?_, ?_, ?_, ?_, ?_⟩
    · rw [hhist]; exact hr.consumed
    · rw [hhist, havail]; exact hr.avail
    · rw [hhist, havailIdx]; exact hr.availIdx
    · rw [hhist, hdev]; exact hr.lastAvail
    · rw [hhist]; exact hr.processed
    · rw [hhist, helems]; exact hr.elems
    · rw [hhist, hdev, helems]; exact hr.written
    · rw [hhist, husedRing]; exact hr.usedRing
    · rw [hhist, husedIdx]; exact hr.usedIdx
  · rw [hdoing, hhist]
    exact h.doing
  · rw [hended, hhist]
    exact h.ended
  · rw [hbusy, hhist]
    exact h.idle p b x ((hat _ (by decide) _ _ _).mp hx)
  · rw [hbusy]
    exact h.preset p b x ((hat _ (by decide) _ _ _).mp hx)
  · rw [havail, hhist]
    exact h.staged p b x ((hat _ (by decide) _ _ _).mp hx)
  · rw [hbusy]
    exact h.finishing p b x ((hat _ (by decide) _ _ _).mp hx)

theorem Descs.congr (h : Descs d req) (hat : ∀ k q b x, At req' k q b x ↔ At req k q b x) :
    Descs d req' := by
  refine ⟨fun p b x hx => h.nodup p b x ((hat _ _ _ _).mp hx),
    fun p q b b' x y hx hy =>
    h.apart p q b b' x y ((hat _ _ _ _).mp hx) ((hat _ _ _ _).mp hy), fun i => ?_,
    fun p b x hx => h.chain p b x ((hat _ _ _ _).mp hx)⟩
  rw [h.free]
  simp only [hat]

end

end WhuOs.Dev
