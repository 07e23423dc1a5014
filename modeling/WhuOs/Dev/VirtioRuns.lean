import WhuOs.Dev.VirtioSafe

/-! # Runs of the disk driver

Every step of a process, of the interrupt handler and of the device keeps the
invariant, and none of them panics.
-/

namespace WhuOs.Dev

section

variable {P B : Type} {s s' : Sys P B} {req : P → Option (Request B)} {p q : P}
  {b : B} {x : Idx} {r r' : Request B} {d d' : Disk B} {k : Kind}

theorem at_init (k : Kind) : ¬ At (Sys.init : Sys P B).req k p b x := by
  rintro ⟨r, hr, -⟩
  cases hr

theorem Inv.init : Inv (Sys.init : Sys P B) where
  descs :=
    { nodup := fun _ _ _ hx => absurd hx (at_init _)
      apart := fun _ _ _ _ _ _ hx => absurd hx (at_init _)
      free := fun _ => ⟨fun _ _ _ _ hx => absurd hx (at_init _), fun _ => rfl⟩
      chain := fun _ _ _ hx => absurd hx (at_init _) }
  bufs p q r r' hr := by cases hr
  status _ := rfl
  nodup := List.nodup_nil
  flight n := by
    constructor
    · intro hn
      cases hn
    · rintro ⟨p, b, x, hx, -⟩
      exact absurd hx (at_init _)
  rings :=
    { consumed := List.prefix_refl _
      avail := fun _ _ _ hk => by cases hk
      availIdx := rfl
      lastAvail := rfl
      processed := List.prefix_refl _
      elems := fun _ _ _ hk => by cases hk
      written := fun _ hn => by cases hn
      usedRing := rfl
      usedIdx := rfl }
  doing n hn := by cases hn
  ended n hn := by cases hn
  idle p b x hx := absurd hx (at_init _)
  preset p b x hx := absurd hx (at_init _)
  staged p b x hx := absurd hx (at_init _)
  finishing p b x hx := absurd hx (at_init _)
  lock p r hr := by cases hr

theorem Chain.congr (h : Chain d b x) (hdesc : ∀ i ∈ x.list, d'.desc i = d.desc i)
    (hinfo : (d'.info x.fst).b = (d.info x.fst).b) : Chain d' b x := by
  refine ⟨?_, ?_, ?_, ?_⟩
  · rw [hdesc x.fst (by simp [Idx.list])]
    exact h.fst
  · rw [hdesc x.snd (by simp [Idx.list])]
    exact h.snd
  · rw [hdesc x.thd (by simp [Idx.list])]
    exact h.thd
  · rw [hinfo]
    exact h.info

/-! ## Wakeups -/

/-- Requests after a wakeup: kinds and buffers are the same and no lock is taken. -/
structure Woken (req req' : P → Option (Request B)) : Prop where
  at_iff : ∀ k q b x, At req' k q b x ↔ At req k q b x
  back : ∀ q y, req' q = some y →
    ∃ z, req q = some z ∧ z.buf = y.buf ∧ (y.stage.locked = true → z.stage.locked = true)

theorem Woken.refl (req : P → Option (Request B)) : Woken req req :=
  ⟨fun _ _ _ _ => Iff.rfl, fun _ y hy => ⟨y, hy, rfl, id⟩⟩

theorem Woken.trans {req₁ req₂ req₃ : P → Option (Request B)} (h : Woken req₁ req₂)
    (h' : Woken req₂ req₃) :
    Woken req₁ req₃ := by
  refine ⟨fun k q b x => (h'.at_iff k q b x).trans (h.at_iff k q b x), fun q y hy => ?_⟩
  obtain ⟨z, hz, hb, hl⟩ := h'.back q y hy
  obtain ⟨z', hz', hb', hl'⟩ := h.back q z hz
  exact ⟨z', hz', hb'.trans hb, hl' ∘ hl⟩

/-- A wakeup changes the stage of requests within their kinds. -/
theorem Woken.map {f : Request B → Request B} (hbuf : ∀ r, (f r).buf = r.buf)
    (hidx : ∀ r, (f r).stage.idx = r.stage.idx)
    (hk : ∀ k r, r.stage.idx ≠ none → Kind.has k (f r).stage = Kind.has k r.stage)
    (hl : ∀ r, (f r).stage.locked = true → r.stage.locked = true) (req : P → Option (Request B)) :
    Woken req fun p => (req p).map f := by
  refine ⟨fun k q b x => ⟨?_, ?_⟩, fun q y hy => ?_⟩
  · rintro ⟨r, h1, h2, h3, h4⟩
    obtain ⟨r', hr', rfl⟩ := Option.map_eq_some_iff.mp h1
    rw [hbuf] at h2
    rw [hidx] at h3
    rw [hk k r' (by rw [h3]; exact Option.some_ne_none x)] at h4
    exact ⟨r', hr', h2, h3, h4⟩
  · rintro ⟨r, h1, h2, h3, h4⟩
    refine ⟨f r, by dsimp only; rw [h1, Option.map_some], ?_, ?_, ?_⟩
    · rw [hbuf, h2]
    · rw [hidx, h3]
    · rw [hk k r (by rw [h3]; exact Option.some_ne_none x), h4]
  · obtain ⟨z, hz, rfl⟩ := Option.map_eq_some_iff.mp hy
    exact ⟨z, hz, (hbuf z).symm, hl z⟩

theorem Woken.wakeFree (req : P → Option (Request B)) :
    Woken req fun p => (req p).map Request.wakeFree := by
  refine Woken.map ?_ ?_ ?_ ?_ req
  · rintro ⟨b, w, st⟩
    cases st <;> rfl
  · rintro ⟨b, w, st⟩
    cases st <;> rfl
  · rintro k ⟨b, w, st⟩ hi
    cases st <;> first | rfl | exact absurd rfl hi
  · rintro ⟨b, w, st⟩
    cases st <;> exact id

theorem wakeFree_awake (hp : req p = some r) (hr : r.stage ≠ .sleepFree) :
    (req p).map Request.wakeFree = some r := by
  rw [hp, Option.map_some]
  obtain ⟨b, w, st⟩ := r
  cases st with
  | sleepFree => exact absurd rfl hr
  | _ => rfl

theorem Woken.wakeBuf [DecidableEq B] (b : B) (req : P → Option (Request B)) :
    Woken req fun p => (req p).map (Request.wakeBuf b) := by
  have hcases : ∀ r : Request B, Request.wakeBuf b r = r ∨
      ∃ x, r.stage = .sleepBuf x ∧ Request.wakeBuf b r = { r with stage := .wokenBuf x } := by
    rintro ⟨b', w, st⟩
    cases st with
    | sleepBuf x =>
        by_cases hb : b' = b
        · exact .inr ⟨x, rfl, if_pos hb⟩
        · exact .inl (if_neg hb)
    | _ => exact .inl rfl
  refine Woken.map (fun r => ?_) (fun r => ?_) (fun k r _ => ?_) (fun r => ?_) req
  · rcases hcases r with he | ⟨x, -, he⟩ <;> rw [he]
  · rcases hcases r with he | ⟨x, hst, he⟩
    · rw [he]
    · rw [he, hst]
      rfl
  · rcases hcases r with he | ⟨x, hst, he⟩
    · rw [he]
    · rw [he, hst]
      cases k <;> rfl
  · rcases hcases r with he | ⟨x, -, he⟩
    · rw [he]
      exact id
    · rw [he]
      exact fun hc => nomatch hc

/-- A wakeup keeps the invariant. -/
theorem Inv.woken {req' : P → Option (Request B)} (h : Inv s) (hw : Woken s.req req') :
    Inv { s with req := req' } := by
  refine h.view rfl rfl rfl rfl (h.descs.congr hw.at_iff) (fun k _ => hw.at_iff k)
    (fun a c y z hy hz he => ?_)
    fun q y hy hl => ?_
  · obtain ⟨y', hy', hb, -⟩ := hw.back a y hy
    obtain ⟨z', hz', hb', -⟩ := hw.back c z hz
    exact h.bufs a c y' z' hy' hz' (hb.trans (he.trans hb'.symm))
  · obtain ⟨y', hy', -, hl'⟩ := hw.back q y hy
    exact h.lock q y' hy' (hl' hl)

/-! ## Allocation of descriptors -/

theorem allocDesc_cases (d : Disk B) :
    (∃ i, d.free i = true ∧
      allocDesc d = (some i, { d with free := Function.update d.free i false })) ∨
    allocDesc d = (none, d) := by
  unfold allocDesc
  cases hf : (List.finRange 8).find? fun i => d.free i with
  | some i => exact .inl ⟨i, by simpa using List.find?_some hf, rfl⟩
  | none => exact .inr rfl

theorem still_free {f : Fin 8 → Bool} {i j : Fin 8} (h : Function.update f i false j = true) :
    j ≠ i ∧ f j = true := by
  by_cases hji : j = i
  · subst hji
    rw [Function.update_self] at h
    cases h
  · rw [Function.update_of_ne hji] at h
    exact ⟨hji, h⟩

def Sys.take (s : Sys P B) (i : Fin 8) : Sys P B :=
  { s with disk := { s.disk with free := Function.update s.disk.free i false } }

def Sys.freed (s : Sys P B) (i : Fin 8) : Sys P B :=
  { s with
    disk :=
      { s.disk with
        desc := Function.update s.disk.desc i { s.disk.desc i with addr := .null }
        free := Function.update s.disk.free i true }
    req := fun p => (s.req p).map Request.wakeFree }

theorem freeDesc_eq {i : Fin 8} (h : s.disk.free i = false) : freeDesc i s = .ok (s.freed i) := by
  unfold freeDesc
  rw [dif_pos i.isLt, if_neg (by rw [show (⟨i.val, i.isLt⟩ : Fin 8) = i from rfl, h]; decide)]
  rfl

/-- What a failed `alloc3_desc` leaves behind. -/
structure Undone (s s' : Sys P B) : Prop where
  free : s'.disk.free = s.disk.free
  desc : ∀ i, s.disk.free i = false → s'.disk.desc i = s.disk.desc i
  disk : { s'.disk with desc := s.disk.desc, free := s.disk.free } = s.disk
  busy : s'.busy = s.busy
  lock : s'.lock = s.lock
  dev : s'.dev = s.dev
  hist : s'.hist = s.hist
  req : Woken s.req s'.req
  awake : ∀ q y, s.req q = some y → y.stage ≠ .sleepFree → s'.req q = some y

structure Taken (s : Sys P B) (x : Idx) (s' : Sys P B) : Prop where
  nodup : x.list.Nodup
  was : ∀ i ∈ x.list, s.disk.free i = true
  free : ∀ i, s'.disk.free i = true ↔ s.disk.free i = true ∧ i ∉ x.list
  eq : s' = { s with disk := { s.disk with free := s'.disk.free } }

/-- One descriptor is given back. -/
theorem undone_one (hi : s.disk.free i = true) : Undone s ((s.take i).freed i) := by
  refine ⟨?_, fun k hk => ?_, rfl, rfl, rfl, rfl, rfl, Woken.wakeFree _,
    fun q y hy => wakeFree_awake hy⟩
  · change Function.update (Function.update s.disk.free i false) i true = _
    rw [Function.update_idem, ← hi, Function.update_eq_self]
  · refine Function.update_of_ne ?_ _ _
    rintro rfl
    rw [hi] at hk
    cases hk

/-- Two descriptors are given back. -/
theorem undone_two (hi : s.disk.free i = true) (hj : s.disk.free j = true) :
    Undone s ((((s.take i).take j).freed i).freed j) := by
  refine ⟨?_, fun n hn => ?_, rfl, rfl, rfl, rfl, rfl,
    (Woken.wakeFree _).trans (Woken.wakeFree _),
    fun q y hy hst => wakeFree_awake (wakeFree_awake hy hst) hst⟩
  · dsimp only [Sys.freed, Sys.take]
    funext n
    by_cases hnj : n = j
    · subst hnj
      rw [Function.update_self, hj]
    · rw [Function.update_of_ne hnj]
      by_cases hni : n = i
      · subst hni
        rw [Function.update_self, hi]
      · rw [Function.update_of_ne hni, Function.update_of_ne hnj, Function.update_of_ne hni]
  · dsimp only [Sys.freed, Sys.take]
    rw [Function.update_of_ne, Function.update_of_ne]
    · rintro rfl
      rw [hi] at hn
      cases hn
    · rintro rfl
      rw [hj] at hn
      cases hn

/-- Three descriptors are taken. -/
theorem taken_three {k : Fin 8} (hi : s.disk.free i = true) (hj : s.disk.free j = true)
    (hk : s.disk.free k = true) (hji : j ≠ i) (hki : k ≠ i) (hkj : k ≠ j) :
    Taken s ⟨i, j, k⟩ (((s.take i).take j).take k) := by
  refine ⟨?_, ?_, fun n => ?_, rfl⟩
  · simp [Idx.list, Ne.symm hji, Ne.symm hki, Ne.symm hkj]
  · intro n hn
    simp only [Idx.list, List.mem_cons, List.not_mem_nil, or_false] at hn
    rcases hn with rfl | rfl | rfl
    · exact hi
    · exact hj
    · exact hk
  · dsimp only [Sys.take]
    simp only [Idx.list, List.mem_cons, List.not_mem_nil, or_false, not_or]
    by_cases hnk : n = k
    · subst hnk
      simp
    · rw [Function.update_of_ne hnk]
      by_cases hnj : n = j
      · subst hnj
        simp
      · rw [Function.update_of_ne hnj]
        by_cases hni : n = i
        · subst hni
          simp
        · rw [Function.update_of_ne hni]
          simp [hnk, hnj, hni]

theorem alloc3Desc_cases (s : Sys P B) :
    (∃ x s', alloc3Desc s = .ok (some x, s') ∧ Taken s x s') ∨ ∃ s',
    alloc3Desc s = .ok (none, s') ∧ Undone s s' := by
  unfold alloc3Desc
  rcases allocDesc_cases s.disk with ⟨i, hi, he⟩ | he
  swap
  · right
    refine ⟨_, by rw [he], ⟨rfl, fun _ _ => rfl, rfl, rfl, rfl, rfl, rfl, Woken.refl _, fun _ _ hy _ => hy⟩⟩
  rw [he]
  rcases allocDesc_cases
    { s.disk with free := Function.update s.disk.free i false } with ⟨j, hj, he₂⟩ | he₂
  swap
  · right
    have hf := freeDesc_eq (s := s.take i) (i := i)
      (by dsimp only [Sys.take]; rw [Function.update_self])
    refine ⟨(s.take i).freed i, ?_, undone_one hi⟩
    dsimp only
    rw [he₂]
    change (freeDesc i (s.take i) >>= fun t => pure (none, t)) = _
    rw [hf]
    rfl
  obtain ⟨hji, hj⟩ := still_free hj
  dsimp only at he₂ ⊢
  rw [he₂]
  rcases allocDesc_cases
    { s.disk with free := Function.update (Function.update s.disk.free i false) j false } with
    ⟨k, hk, he₃⟩ | he₃
  swap
  · right
    have hf := freeDesc_eq (s := (s.take i).take j) (i := i)
      (by dsimp only [Sys.take]; rw [Function.update_of_ne (Ne.symm hji), Function.update_self])
    have hf₂ := freeDesc_eq (s := ((s.take i).take j).freed i) (i := j)
      (by dsimp only [Sys.freed, Sys.take]; rw [Function.update_of_ne hji, Function.update_self])
    refine ⟨(((s.take i).take j).freed i).freed j, ?_, undone_two hi hj⟩
    dsimp only at he₃ ⊢
    rw [he₃]
    change (freeDesc i ((s.take i).take j) >>= fun t =>
      freeDesc j t >>= fun t => pure (none, t)) = _
    rw [hf]
    change (freeDesc j (((s.take i).take j).freed i) >>= fun t => pure (none, t)) = _
    rw [hf₂]
    rfl
  left
  obtain ⟨hkj, hk⟩ := still_free hk
  obtain ⟨hki, hk⟩ := still_free hk
  dsimp only at he₃ ⊢
  exact ⟨⟨i, j, k⟩, _, by rw [he₃]; rfl, taken_three hi hj hk hji hki hkj⟩

/-- `free_chain` follows a chain to its end. -/
theorem freeChain_eq (hc : Chain d b x) (hd : s.disk.desc = d.desc) (hn : x.list.Nodup)
    (hf : ∀ i ∈ x.list, s.disk.free i = false) :
    freeChain x.fst s = .ok (((s.freed x.fst).freed x.snd).freed x.thd) := by
  simp only [Idx.list, List.nodup_cons, List.mem_cons, List.not_mem_nil, or_false,
    not_or, not_false_eq_true,
    List.nodup_nil, and_true] at hn
  obtain ⟨⟨h12, h13⟩, h23⟩ := hn
  have hslot : ∀ i : Fin 8, slot i.val = i := fun i => Fin.ext (Nat.mod_eq_of_lt i.isLt)
  have hf₁ := freeDesc_eq (hf x.fst (by simp [Idx.list]))
  have hf₂ : freeDesc x.snd (s.freed x.fst) = .ok ((s.freed x.fst).freed x.snd) := by
    refine freeDesc_eq ?_
    dsimp only [Sys.freed]
    rw [Function.update_of_ne (Ne.symm h12)]
    exact hf x.snd (by simp [Idx.list])
  have hf₃ : freeDesc x.thd ((s.freed x.fst).freed x.snd) =
    .ok (((s.freed x.fst).freed x.snd).freed x.thd) := by
    refine freeDesc_eq ?_
    dsimp only [Sys.freed]
    rw [Function.update_of_ne (Ne.symm h23), Function.update_of_ne (Ne.symm h13)]
    exact hf x.thd (by simp [Idx.list])
  have hd₁ : (s.freed x.fst).disk.desc (slot x.fst.val) = { d.desc x.fst with addr := .null } := by
    rw [hslot, ← hd]
    exact Function.update_self _ _ _
  have hd₂ : ((s.freed x.fst).freed x.snd).disk.desc (slot x.snd.val) =
      { d.desc x.snd with addr := .null } := by
    rw [hslot, ← hd]
    dsimp only [Sys.freed]
    rw [Function.update_self, Function.update_of_ne (Ne.symm h12)]
  have hd₃ : (((s.freed x.fst).freed x.snd).freed x.thd).disk.desc (slot x.thd.val) =
      { d.desc x.thd with addr := .null } := by
    rw [hslot, ← hd]
    dsimp only [Sys.freed]
    rw [Function.update_self, Function.update_of_ne (Ne.symm h23),
      Function.update_of_ne (Ne.symm h13)]
  have hstep : ∀ fuel i (t t' : Sys P B), freeDesc i t = .ok t' → freeChainLoop (fuel + 1) i t =
      if (t'.disk.desc (slot i)).flags &&& vringDescFNext ≠ 0 then
        freeChainLoop fuel (t'.disk.desc (slot i)).next t' else .ok t' := by
    intro fuel i t t' ht
    rw [freeChainLoop, ht]
    rfl
  unfold freeChain
  rw [hstep 8 _ _ _ hf₁, hd₁, if_pos hc.fst.1, hc.fst.2]
  rw [hstep 7 _ _ _ hf₂, hd₂, if_pos hc.snd.1, hc.snd.2]
  rw [hstep 6 _ _ _ hf₃, hd₃, if_neg (not_not_intro hc.thd)]

structure Released (s : Sys P B) (x : Idx) (s' : Sys P B) : Prop where
  free : ∀ i, s'.disk.free i = true ↔ s.disk.free i = true ∨ i ∈ x.list
  desc : ∀ i, i ∉ x.list → s'.disk.desc i = s.disk.desc i
  disk : { s'.disk with desc := s.disk.desc, free := s.disk.free } = s.disk
  busy : s'.busy = s.busy
  lock : s'.lock = s.lock
  dev : s'.dev = s.dev
  hist : s'.hist = s.hist
  req : Woken s.req s'.req

theorem Released.freed (s : Sys P B) (x : Idx) :
    Released s x (((s.freed x.fst).freed x.snd).freed x.thd) := by
  refine ⟨fun i => ?_, fun i hi => ?_, rfl, rfl, rfl, rfl, rfl,
    ((Woken.wakeFree _).trans (Woken.wakeFree _)).trans (Woken.wakeFree _)⟩
  · dsimp only [Sys.freed]
    simp only [Function.update_apply, Idx.list, List.mem_cons, List.not_mem_nil, or_false]
    split_ifs with h3 h2 h1 <;> simp_all
  · simp only [Idx.list, List.mem_cons, List.not_mem_nil, or_false, not_or] at hi
    dsimp only [Sys.freed]
    rw [Function.update_of_ne hi.2.2, Function.update_of_ne hi.2.1, Function.update_of_ne hi.1]

theorem Undone.inv (h : Inv s) (hu : Undone s s') : Inv s' := by
  have hw := h.woken hu.req
  refine hw.view hu.disk hu.busy hu.dev hu.hist ?_ (fun k _ q b x => Iff.rfl) hw.bufs
    fun q y hy hl => ?_
  · have hd := hw.descs
    refine ⟨hd.nodup, hd.apart, by rw [hu.free]; exact hd.free, fun p b x hx => ?_⟩
    -- the descriptors of a chain are not free, so they were left alone
    have hc := hd.chain p b x hx
    have hused : ∀ i ∈ x.list, s'.disk.desc i = s.disk.desc i := by
      intro i hi
      refine hu.desc i (Bool.eq_false_iff.mpr fun hf => ?_)
      exact (hd.free i).mp hf p b x hx.any hi
    have hinfo : s'.disk.info = s.disk.info := (congrArg Disk.info hu.disk :)
    exact hc.congr hused (by rw [hinfo])
  · rw [hu.lock]
    exact hw.lock q y hy hl

/-! ## What an update of the disk keeps -/

theorem Descs.disk_congr (h : Descs d req) (hfree : d'.free = d.free) (hdesc : d'.desc = d.desc)
    (hinfo : ∀ i, (d'.info i).b = (d.info i).b) : Descs d' req := by
  refine ⟨h.nodup, h.apart, by rw [hfree]; exact h.free, fun p b x hx => ?_⟩
  exact (h.chain p b x hx).congr (fun i _ => by rw [hdesc]) (hinfo x.fst)

/-- The descriptors depend on two kinds of requests. -/
theorem Descs.congr' {req' : P → Option (Request B)} (h : Descs d req)
    (hat : ∀ k, k = .any ∨ k = .formatted → ∀ q b x, At req' k q b x ↔ At req k q b x) :
    Descs d req' := by
  refine ⟨fun p b x hx => h.nodup p b x ((hat _ (.inl rfl) _ _ _).mp hx), fun p q b b' x y hx hy =>
    h.apart p q b b' x y ((hat _ (.inl rfl) _ _ _).mp hx) ((hat _ (.inl rfl) _ _ _).mp hy),
      fun i => ?_,
    fun p b x hx => h.chain p b x ((hat _ (.inr rfl) _ _ _).mp hx)⟩
  rw [h.free]
  simp only [hat _ (.inl rfl)]

theorem Rings.congr (h : Rings s) (ha : s'.disk.avail = s.disk.avail)
    (hai : s'.disk.availIdx = s.disk.availIdx)
    (he : s'.disk.usedElems = s.disk.usedElems) (hr : s'.disk.usedRing = s.disk.usedRing)
    (hi : s'.disk.usedIdx = s.disk.usedIdx) (hdev : s'.dev = s.dev) (hhist : s'.hist = s.hist) :
    Rings s' := by
  refine ⟨?_, ?_, ?_, ?_, ?_, ?_, ?_, ?_, ?_⟩
  · rw [hhist]; exact h.consumed
  · rw [hhist, ha]; exact h.avail
  · rw [hhist, hai]; exact h.availIdx
  · rw [hhist, hdev]; exact h.lastAvail
  · rw [hhist]; exact h.processed
  · rw [hhist, he]; exact h.elems
  · rw [hhist, hdev, he]; exact h.written
  · rw [hhist, hr]; exact h.usedRing
  · rw [hhist, hi]; exact h.usedIdx

/-- A request at a stage is not of a kind without this stage. -/
theorem not_at (hp : req p = some r) (hk : k.has r.stage = false) : ¬ At req k p b x := by
  intro hx
  rw [at_some hp, hk] at hx
  cases hx.2.2

/-! ## Calls, locks and sleep -/

/-- A process that holds the lock is the only one. -/
theorem Inv.alone (h : Inv s) (hp : s.req p = some r) (hl : r.stage.locked = true) :
    ∀ q y, q ≠ p → s.req q = some y → y.stage.locked = true → False := by
  intro q y hqp hy hly
  have h1 := h.lock p r hp hl
  have h2 := h.lock q y hy hly
  rw [h1] at h2
  exact hqp (Holder.proc.inj (Option.some.inj h2)).symm

/-- The head of a chain that is not submitted is not in flight. -/
theorem Inv.not_flight (h : Inv s) (hx : At s.req k p b x)
    (hp : ∀ b y, At s.req .submitted p b y → s.busy b = false) : x.fst.val ∉ s.flight := by
  intro hmem
  obtain ⟨q, b', y, hy, hb, he⟩ := (h.flight _).mp hmem
  obtain rfl := h.descs.head_inj hx hy (Fin.ext he)
  rw [hp b' y hy] at hb
  cases hb

theorem Inv.intr (h : Inv s) (hl : s.lock = none) : Inv { s with lock := some .intr } := by
  refine h.view rfl rfl rfl rfl h.descs (fun k _ q b x => Iff.rfl) h.bufs fun q y hy hly => ?_
  have hc := h.lock q y hy hly
  rw [hl] at hc
  cases hc

theorem Inv.intrEnd (h : Inv s) (hl : s.lock = some .intr) : Inv { s with lock := none } := by
  refine h.view rfl rfl rfl rfl h.descs (fun k _ q b x => Iff.rfl) h.bufs fun q y hy hly => ?_
  have hc := h.lock q y hy hly
  rw [hl] at hc
  cases hc

variable [DecidableEq P]

/-- The buffers stay distinct when a request keeps its own. -/
theorem Inv.bufs_update (h : Inv s) (hp : s.req p = some r) (hbuf : r'.buf = r.buf) :
    ∀ a c y z, Function.update s.req p (some r') a = some y →
    Function.update s.req p (some r') c = some z →
      y.buf = z.buf → a = c := by
  have hback : ∀ a y, Function.update s.req p (some r') a = some y →
    ∃ y', s.req a = some y' ∧ y'.buf = y.buf := by
    intro a y hy
    by_cases ha : a = p
    · subst ha
      rw [Function.update_self] at hy
      obtain rfl := Option.some.inj hy
      exact ⟨r, hp, hbuf.symm⟩
    · rw [Function.update_of_ne ha] at hy
      exact ⟨y, hy, rfl⟩
  intro a c y z hy hz he
  obtain ⟨y', hy', hb⟩ := hback a y hy
  obtain ⟨z', hz', hb'⟩ := hback c z hz
  exact h.bufs a c y' z' hy' hz' (hb.trans (he.trans hb'.symm))

/-- The lock invariant when one request changes. -/
theorem lock_update {o : Option (Request B)} {l : Option (Holder P)}
    (hp : ∀ y, o = some y → y.stage.locked = true → l = some (.proc p))
    (hq : ∀ q y, q ≠ p → s.req q = some y → y.stage.locked = true → l = some (.proc q)) :
    ∀ q y, Function.update s.req p o q = some y → y.stage.locked = true → l = some (.proc q) := by
  intro q y hy hl
  by_cases hqp : q = p
  · subst hqp
    rw [Function.update_self] at hy
    exact hp y hy hl
  · rw [Function.update_of_ne hqp] at hy
    exact hq q y hqp hy hl

theorem Inv.call {w : Bool} (h : Inv s) (hp : s.req p = none)
    (hb : ∀ q r, s.req q = some r → r.buf ≠ b) :
    Inv (s.setReq p (some ⟨b, w, .enter⟩)) := by
  have hat : ∀ k q b' x, At (s.setReq p (some ⟨b, w, .enter⟩)).req k q b' x ↔
    At s.req k q b' x := by
    intro k q b' x
    by_cases hq : q = p
    · subst hq
      constructor
      · intro hx
        exact absurd (at_update_self.mp hx).2.1 (by simp [Stage.idx])
      · rintro ⟨r, hr, -⟩
        rw [hp] at hr
        cases hr
    · exact at_update_ne hq
  refine h.view rfl rfl rfl rfl (h.descs.congr hat) (fun k _ => hat k)
    (fun a c y z hy hz he => ?_) ?_
  · by_cases ha : a = p
    · by_cases hc : c = p
      · rw [ha, hc]
      · subst ha
        change Function.update _ _ _ _ = _ at hy hz
        rw [Function.update_self] at hy
        rw [Function.update_of_ne hc] at hz
        obtain rfl := Option.some.inj hy
        exact absurd he.symm (hb c z hz)
    · change Function.update _ _ _ _ = _ at hy hz
      rw [Function.update_of_ne ha] at hy
      by_cases hc : c = p
      · subst hc
        rw [Function.update_self] at hz
        obtain rfl := Option.some.inj hz
        exact absurd he (hb a y hy)
      · rw [Function.update_of_ne hc] at hz
        exact h.bufs a c y z hy hz he
  · refine lock_update (fun y hy hl => ?_) fun q y _ => h.lock q y
    obtain rfl := Option.some.inj hy
    cases hl

/-- A request moves within its kinds. -/
theorem Inv.move {st : Stage} {l : Option (Holder P)} (h : Inv s) (hp : s.req p = some r)
    (hidx : st.idx = r.stage.idx)
    (hk : ∀ k, r.stage.idx ≠ none → Kind.has k st = Kind.has k r.stage)
    (hlock : st.locked = true → l = some (.proc p))
    (hq : ∀ q y, q ≠ p → s.req q = some y → y.stage.locked = true → l = some (.proc q)) :
    Inv { s.setReq p (some { r with stage := st }) with lock := l } := by
  have hat : ∀ k q b x, At (Function.update s.req p (some { r with stage := st })) k q b x ↔
    At s.req k q b x :=
    fun k q b x => at_update_same hp rfl hidx (hk k)
  refine h.view rfl rfl rfl rfl (h.descs.congr hat) (fun k _ => hat k) (h.bufs_update hp rfl) ?_
  refine lock_update (fun y hy hl => ?_) hq
  obtain rfl := Option.some.inj hy
  exact hlock hl

theorem Inv.acquire (h : Inv s) (hp : s.req p = some r) (hs : acquire p r s = some s') :
    Inv s' := by
  unfold Dev.acquire at hs
  split at hs
  swap
  · cases hs
  next hfree =>
  have hq : ∀ q y, q ≠ p → s.req q = some y → y.stage.locked = true →
    some (Holder.proc p) = some (.proc q) := by
    intro q y _ hy hl
    have hc := h.lock q y hy hl
    rw [hfree] at hc
    cases hc
  split at hs
  · next hst =>
    cases hs
    exact h.move hp (by rw [hst]; rfl) (fun k hi => absurd (by rw [hst]; rfl) hi) (fun _ => rfl) hq
  · next hst =>
    cases hs
    exact h.move hp (by rw [hst]; rfl) (fun k hi => absurd (by rw [hst]; rfl) hi) (fun _ => rfl) hq
  · next x hst =>
    cases hs
    exact h.move hp (by rw [hst]; rfl) (fun k _ => by rw [hst]; cases k <;> rfl) (fun _ => rfl) hq
  · cases hs

/-! ## `alloc3_desc` -/

/-- New descriptors for a process that had none. -/
theorem Descs.taken (h : Descs s.disk s.req) (hp : s.req p = some r)
    (hr : r.stage = .alloc) (ht : Taken s x s') :
    Descs s'.disk (Function.update s.req p (some { r with stage := .format x })) := by
  have hcases :
      ∀ q b y, At (Function.update s.req p (some { r with stage := .format x })) .any q b y →
        q = p ∧ y = x ∨ q ≠ p ∧ At s.req .any q b y := by
    intro q b y hy
    by_cases hq : q = p
    · subst hq
      exact .inl ⟨rfl, (Option.some.inj (at_update_self.mp hy).2.1).symm⟩
    · exact .inr ⟨hq, (at_update_ne hq).mp hy⟩
  have hself : At (Function.update s.req p (some { r with stage := .format x })) .any p r.buf x :=
    at_update_self.mpr ⟨rfl, rfl, rfl⟩
  have hnone : ∀ k b y, ¬ At s.req k p b y := by
    intro k b y hy
    rw [at_some hp, hr] at hy
    exact absurd hy.2.1 (by simp [Stage.idx])
  have hold : ∀ q b y, At s.req .any q b y → x.list.Disjoint y.list := by
    intro q b y hy i hi hiy
    exact (h.free i).mp (ht.was i hi) q b y hy hiy
  have hdesc : s'.disk.desc = s.disk.desc := by rw [ht.eq]
  have hinfo : s'.disk.info = s.disk.info := by rw [ht.eq]
  refine ⟨fun q b y hy => ?_, fun q q' b b' y y' hy hy' hne => ?_, fun i => ?_, fun q b y hy => ?_⟩
  · rcases hcases q b y hy with ⟨-, rfl⟩ | ⟨-, hy⟩
    · exact ht.nodup
    · exact h.nodup q b y hy
  · rcases hcases q b y hy with ⟨rfl, rfl⟩ | ⟨-, hy₁⟩
    · rcases hcases q' b' y' hy' with ⟨rfl, -⟩ | ⟨-, hy'⟩
      · exact absurd rfl hne
      · exact hold q' b' y' hy'
    · rcases hcases q' b' y' hy' with ⟨rfl, rfl⟩ | ⟨-, hy₁'⟩
      · exact (hold q b y hy₁).symm
      · exact h.apart q q' b b' y y' hy₁ hy₁' hne
  · rw [ht.free, h.free]
    constructor
    · rintro ⟨h1, h2⟩ q b y hy
      rcases hcases q b y hy with ⟨-, rfl⟩ | ⟨-, hy⟩
      · exact h2
      · exact h1 q b y hy
    · intro hall
      refine ⟨fun q b y hy => ?_, hall p r.buf x hself⟩
      have hq : q ≠ p := by
        rintro rfl
        exact hnone _ b y hy
      exact hall q b y ((at_update_ne hq).mpr hy)
  · have hq : q ≠ p := by
      rintro rfl
      exact absurd (at_update_self.mp hy).2.2 (by simp [Kind.has])
    exact (h.chain q b y ((at_update_ne hq).mp hy)).congr (fun i _ => by rw [hdesc]) (by rw [hinfo])

theorem Inv.alloc (h : Inv s) (hp : s.req p = some r) (hr : r.stage = .alloc) :
    ∃ s', tryAlloc p r s = .ok s' ∧ Inv s' := by
  have hlocked : r.stage.locked = true := by rw [hr]; rfl
  unfold tryAlloc
  rcases alloc3Desc_cases s with ⟨x, s₁, he, ht⟩ | ⟨s₁, he, hu⟩
  · rw [he]
    refine ⟨_, rfl, ?_⟩
    have hs₁ := ht.eq
    have hreq : s₁.req = s.req := by rw [hs₁]
    have hlock : s₁.lock = s.lock := by rw [hs₁]
    have hset : (s₁.setReq p (some { r with stage := .format x })).req =
        Function.update s.req p (some { r with stage := .format x }) := by
      unfold Sys.setReq
      rw [hreq]
    refine h.view (by rw [hs₁]; rfl) (by rw [hs₁]; rfl) (by rw [hs₁]; rfl)
      (by rw [hs₁]; rfl) ?_ ?_ ?_ ?_
    · rw [hset]
      change Descs s₁.disk _
      exact h.descs.taken hp hr ht
    · intro k hk q b y
      rw [hset]
      by_cases hq : q = p
      · subst hq
        rw [at_update_self, at_some hp, hr]
        constructor
        · rintro ⟨-, -, h3⟩
          cases k <;> first | exact absurd rfl hk | cases h3
        · rintro ⟨-, h2, -⟩
          cases h2
      · exact at_update_ne hq
    · rw [hset]
      exact h.bufs_update hp rfl
    · rw [hset]
      change ∀ q y, _ → _ → s₁.lock = _
      rw [hlock]
      exact lock_update (fun _ _ _ => h.lock p r hp hlocked) fun q y _ => h.lock q y
  · rw [he]
    refine ⟨_, rfl, ?_⟩
    have hp₁ : s₁.req p = some r := hu.awake p r hp (by rw [hr]; exact fun hc => nomatch hc)
    have h₁ := hu.inv h
    refine h₁.move hp₁ (by rw [hr]; rfl) (fun k hi => absurd (by rw [hr]; rfl) hi)
      (fun hc => nomatch hc) ?_
    intro q y hq hy hl
    exact (h₁.alone hp₁ hlocked q y hq hy hl).elim

/-! ## Submission -/

/-- The descriptors of a request that is being filled in. -/
theorem formatDescs_chain {blockNum : B → Nat} (hn : x.list.Nodup) :
    Chain (formatDescs blockNum r x d) r.buf x := by
  simp only [Idx.list, List.nodup_cons, List.mem_cons, List.not_mem_nil, or_false,
    not_or, not_false_eq_true,
    List.nodup_nil, and_true] at hn
  obtain ⟨⟨h1, h2⟩, h3⟩ := hn
  unfold formatDescs
  refine ⟨?_, ?_, ?_, ?_⟩
  · dsimp only
    rw [Function.update_of_ne h2, Function.update_of_ne h1, Function.update_self]
    refine ⟨?_, rfl⟩
    change vringDescFNext &&& vringDescFNext ≠ 0
    decide
  · dsimp only
    rw [Function.update_of_ne h3, Function.update_self]
    refine ⟨?_, rfl⟩
    change ((if r.write then 0 else vringDescFWrite) ||| vringDescFNext) &&& vringDescFNext ≠ 0
    cases r.write <;> decide
  · dsimp only
    rw [Function.update_self]
    change vringDescFWrite &&& vringDescFNext = 0
    decide
  · dsimp only
    rw [Function.update_self]

theorem formatDescs_other {blockNum : B → Nat} {y : Idx}
    (hd : x.list.Disjoint y.list) (hc : Chain d b y) :
    Chain (formatDescs blockNum r x d) b y := by
  have hne : ∀ i ∈ y.list, i ≠ x.fst ∧ i ≠ x.snd ∧ i ≠ x.thd := by
    intro i hi
    refine ⟨?_, ?_, ?_⟩ <;> rintro rfl <;> exact hd (by simp [Idx.list]) hi
  have hdesc : ∀ i ∈ y.list, (formatDescs blockNum r x d).desc i = d.desc i := by
    intro i hi
    obtain ⟨h1, h2, h3⟩ := hne i hi
    unfold formatDescs
    dsimp only
    rw [Function.update_of_ne h3, Function.update_of_ne h2, Function.update_of_ne h1]
  refine hc.congr hdesc ?_
  unfold formatDescs
  dsimp only
  rw [Function.update_of_ne (hne y.fst (by simp [Idx.list])).1]

section

variable [DecidableEq B]

theorem Inv.format {blockNum : B → Nat} (h : Inv s) (hp : s.req p = some r) (hr : r.stage = .format x) :
    Inv (format blockNum p r x s) := by
  have hx : At s.req .any p r.buf x := (at_some hp).mpr ⟨rfl, by rw [hr]; rfl, rfl⟩
  have hany : ∀ q b y, At (Function.update s.req p (some { r with stage := .ring x })) .any q b y ↔
      At s.req .any q b y := fun q b y => at_update_same hp rfl (by rw [hr]; rfl) fun _ => rfl
  have hsame : ∀ k, Kind.has k (.ring x) = Kind.has k (.format x) → ∀ q b y,
      At (Function.update s.req p (some { r with stage := .ring x })) k q b y ↔ At s.req k q b y :=
    fun k hk q b y => at_update_same hp rfl (by rw [hr]; rfl) fun _ => by rw [hr]; exact hk
  -- requests of other kinds are for other buffers
  have hbusy : ∀ k q b y, At s.req k q b y → Kind.has k (.format x) = false →
      Function.update s.busy r.buf true b = s.busy b := by
    intro k q b y hq hk
    refine Function.update_of_ne ?_ _ _
    rintro rfl
    obtain rfl := h.buf_inj hq hx
    exact not_at hp (by rw [hr]; exact hk) hq
  refine ⟨⟨fun q b y hy => h.descs.nodup q b y ((hany q b y).mp hy), fun q q' b b' y y' hy hy' =>
    h.descs.apart q q' b b' y y' ((hany _ _ _).mp hy) ((hany _ _ _).mp hy'), fun i =>
      ?_, fun q b y hy => ?_⟩,
    h.bufs_update hp rfl, fun i => ?_, h.nodup, fun n => ?_, h.rings.congr rfl rfl rfl rfl rfl rfl rfl, h.doing,
    h.ended, fun q b y hy hb => ?_, fun q b y hy => ?_, fun q b y hy => ?_, fun q b y hy => ?_, ?_⟩
  · change s.disk.free i = true ↔ _
    rw [h.descs.free]
    simp only [WhuOs.Dev.format, Sys.setReq, hany]
  · by_cases hq : q = p
    · subst hq
      obtain ⟨rfl, rfl⟩ := ((hany _ _ _).mp hy.any).unique hx
      exact formatDescs_chain (h.descs.nodup q _ _ hx)
    · have hy' := (at_update_ne hq).mp hy
      exact formatDescs_other (h.descs.apart p q _ _ _ _ hx hy'.any (Ne.symm hq)) (h.descs.chain q b y hy')
  · change (Function.update s.disk.info x.fst _ i).status = 0
    by_cases hi : i = x.fst
    · subst hi
      rw [Function.update_self]
    · rw [Function.update_of_ne hi]
      exact h.status i
  · change n ∈ s.flight ↔ ∃ q b y, At (Function.update s.req p _) _ q b y ∧
      Function.update s.busy r.buf true b = true ∧ _
    rw [h.flight]
    simp only [hsame .submitted rfl]
    constructor
    · rintro ⟨q, b, y, hy, hb, hn⟩
      exact ⟨q, b, y, hy, by rw [hbusy _ q b y hy rfl]; exact hb, hn⟩
    · rintro ⟨q, b, y, hy, hb, hn⟩
      rw [hbusy _ q b y hy rfl] at hb
      exact ⟨q, b, y, hy, hb, hn⟩
  · have hy' := (hsame .submitted rfl q b y).mp hy
    change Function.update s.busy r.buf true b = false at hb
    rw [hbusy _ q b y hy' rfl] at hb
    exact h.idle q b y hy' hb
  · change Function.update s.busy r.buf true b = true
    by_cases hbb : b = r.buf
    · rw [hbb, Function.update_self]
    · rw [Function.update_of_ne hbb]
      have hq : q ≠ p := by
        rintro rfl
        exact hbb (at_update_self.mp hy).1.symm
      exact h.preset q b y ((at_update_ne hq).mp hy)
  · exact h.staged q b y ((hsame .staged rfl q b y).mp hy)
  · have hy' := (hsame .finishing rfl q b y).mp hy
    change Function.update s.busy r.buf true b = false
    rw [hbusy _ q b y hy' rfl]
    exact h.finishing q b y hy'
  · exact lock_update (fun _ _ _ => h.lock p r hp (by rw [hr]; rfl)) fun q y _ => h.lock q y

end

theorem Inv.ring (h : Inv s) (hp : s.req p = some r) (hr : r.stage = .ring x) :
    Inv (ring p r x s) := by
  have hsame : ∀ k, k ≠ .staged → ∀ q b y,
      At (Function.update s.req p (some { r with stage := .publish x })) k q b y ↔
      At s.req k q b y := by
    intro k hk q b y
    refine at_update_same hp rfl (by rw [hr]; rfl) fun _ => ?_
    rw [hr]
    cases k <;> first | rfl | exact absurd rfl hk
  have hslot : slot s.disk.availIdx = slot s.hist.submitted.length := by
    rw [h.rings.availIdx, slot_u16]
  have hfew := h.queue_few
  have hrings : Rings (WhuOs.Dev.ring p r x s) := by
    refine { h.rings with avail := fun k n hk hn => ?_ }
    change Function.update s.disk.avail (slot s.disk.availIdx) _ (slot k) = n
    have hlt := (List.getElem?_eq_some_iff.mp hn).1
    have hk' : s.hist.consumed.length ≤ k := hk
    rw [Function.update_of_ne, h.rings.avail k n hk hn]
    rw [hslot]
    exact slot_ne hlt (by omega)
  refine ⟨(h.descs.congr' ?_).disk_congr rfl rfl fun _ =>
    rfl, h.bufs_update hp rfl, h.status, h.nodup, fun n =>
      ?_, hrings, h.doing, h.ended, fun q b y hy => ?_, fun q b y hy => ?_,
    fun q b y hy => ?_, fun q b y hy => ?_, ?_⟩
  · exact fun k hk => hsame k (by rcases hk with rfl | rfl <;> decide)
  · change n ∈ s.flight ↔ _
    rw [h.flight]
    simp only [WhuOs.Dev.ring, Sys.setReq, hsame .submitted (by decide)]
  · exact h.idle q b y ((hsame .submitted (by decide) q b y).mp hy)
  · exact h.preset q b y ((hsame .preset (by decide) q b y).mp hy)
  · change Function.update s.disk.avail (slot s.disk.availIdx) _ (slot s.hist.submitted.length) = _
    have hq : q = p := by
      by_contra hq
      obtain ⟨z, hz, -, -, hk⟩ := (at_update_ne hq).mp hy
      refine h.alone hp (by rw [hr]; rfl) q z hq hz ?_
      cases hz : z.stage <;> rw [hz] at hk <;> first | rfl | cases hk
    subst hq
    rw [hslot, Function.update_self]
    rw [Option.some.inj (at_update_self.mp hy).2.1]
  · exact h.finishing q b y ((hsame .finishing (by decide) q b y).mp hy)
  · exact lock_update (fun _ _ _ => h.lock p r hp (by rw [hr]; rfl)) fun q y _ => h.lock q y

theorem Inv.publish (h : Inv s) (hp : s.req p = some r) (hr : r.stage = .publish x) :
    Inv (publish p r x s) := by
  have hx : ∀ k, Kind.has k (.publish x) = true → At s.req k p r.buf x := by
    intro k hk
    exact (at_some hp).mpr ⟨rfl, by rw [hr]; rfl, by rw [hr]; exact hk⟩
  have hsame : ∀ k, Kind.has k (.wait x) = Kind.has k (.publish x) → ∀ q b y,
      At (Function.update s.req p (some { r with stage := .wait x })) k q b y ↔ At s.req k q b y :=
    fun k hk q b y => at_update_same hp rfl (by rw [hr]; rfl) fun _ => by rw [hr]; exact hk
  have hother : ∀ k, Kind.has k (.wait x) = false → ∀ q b y,
      At (Function.update s.req p (some { r with stage := .wait x })) k q b y →
      q ≠ p ∧ At s.req k q b y := by
    intro k hk q b y hy
    have hq : q ≠ p := by
      rintro rfl
      rw [at_update_self, hk] at hy
      cases hy.2.2
    exact ⟨hq, (at_update_ne hq).mp hy⟩
  have hnot : ∀ b y, ¬ At s.req .submitted p b y := fun b y => not_at hp (by rw [hr]; rfl)
  have hfst : x.fst.val ∉ s.flight := h.not_flight (hx .any rfl) fun b y hy => absurd hy (hnot b y)
  have hle := h.rings.consumed.length_le
  have hqueue : (WhuOs.Dev.publish p r x s).hist.queue = s.hist.queue ++ [x.fst.val] :=
    List.drop_append_of_le_length hle
  have hdoing : ∀ n, n ∈ (WhuOs.Dev.publish p r x s).doing ↔ n = x.fst.val ∨ n ∈ s.doing := by
    intro n
    unfold Sys.doing
    rw [hqueue]
    simp only [List.mem_append, List.mem_singleton]
    change ((n ∈ s.hist.queue ∨ n = x.fst.val) ∨ n ∈ s.dev.active) ↔ _
    tauto
  have hperm : (WhuOs.Dev.publish p r x s).flight.Perm (x.fst.val :: s.flight) := by
    unfold Sys.flight Sys.doing
    rw [hqueue, List.append_assoc, List.append_assoc, List.append_assoc]
    exact List.perm_middle
  have hfin : ∀ n, n ≠ x.fst.val →
    (WhuOs.Dev.publish p r x s).hist.finished n = s.hist.finished n :=
    fun n hn => Function.update_of_ne hn _ _
  refine ⟨(h.descs.congr' ?_).disk_congr rfl rfl fun _ =>
    rfl, h.bufs_update hp rfl, h.status, ?_, fun n => ?_, ?_,
    fun n hn => ?_, fun n hn => ?_, fun q b y hy hb => ?_, fun q b y hy => ?_, fun q b y hy => ?_,
    fun q b y hy => ?_, ?_⟩
  · intro k hk
    exact hsame k (by rcases hk with rfl | rfl <;> rfl)
  · exact hperm.nodup_iff.mpr (List.nodup_cons.mpr ⟨hfst, h.nodup⟩)
  · rw [hperm.mem_iff, List.mem_cons, h.flight]
    constructor
    · rintro (rfl | ⟨q, b, y, hy, hb, rfl⟩)
      · exact ⟨p, r.buf, x, at_update_self.mpr ⟨rfl, rfl, rfl⟩,
          h.preset p _ x (hx .preset rfl), rfl⟩
      · have hq : q ≠ p := by
          rintro rfl
          exact hnot b y hy
        exact ⟨q, b, y, (at_update_ne hq).mpr hy, hb, rfl⟩
    · rintro ⟨q, b, y, hy, hb, rfl⟩
      by_cases hq : q = p
      · subst hq
        exact .inl (congrArg (fun i : Idx => i.fst.val)
          (Option.some.inj (at_update_self.mp hy).2.1).symm)
      · exact .inr ⟨q, b, y, (at_update_ne hq).mp hy, hb, rfl⟩
  · refine { h.rings with consumed := ?_, avail := fun k n hk hn => ?_, availIdx := ?_ }
    · exact h.rings.consumed.trans (List.prefix_append _ _)
    · change (s.hist.submitted ++ [x.fst.val])[k]? = some n at hn
      rcases getElem?_snoc hn with hn | ⟨rfl, rfl⟩
      · exact h.rings.avail k n hk hn
      · exact h.staged p _ x (hx .staged rfl)
    · change u16 (s.disk.availIdx + 1) = u16 (s.hist.submitted ++ [x.fst.val]).length
      rw [h.rings.availIdx, u16_succ, List.length_append, List.length_singleton]
  · rcases (hdoing n).mp hn with rfl | hn
    · exact Function.update_self _ _ _
    · rw [hfin n fun hc => hfst (hc ▸ List.mem_append_left _ hn)]
      exact h.doing n hn
  · rw [hfin n fun hc => hfst (hc ▸ List.mem_append_right _ hn)]
    exact h.ended n hn
  · have hq : q ≠ p := by
      rintro rfl
      obtain rfl := (at_update_self.mp hy).1
      have hbusy : s.busy r.buf = true := h.preset q _ x (hx .preset rfl)
      change s.busy r.buf = false at hb
      rw [hbusy] at hb
      cases hb
    have hy' := (at_update_ne hq).mp hy
    rw [hfin y.fst.val fun hc => hq (h.descs.head_inj hy' (hx .any rfl) (Fin.ext hc))]
    exact h.idle q b y hy' hb
  · exact h.preset q b y (hother .preset rfl q b y hy).2
  · obtain ⟨hq, z, hz, -, -, hk⟩ := hother .staged rfl q b y hy
    refine (h.alone hp (by rw [hr]; rfl) q z hq hz ?_).elim
    cases hst : z.stage <;> rw [hst] at hk <;> first | rfl | cases hk
  · exact h.finishing q b y (hother .finishing rfl q b y hy).2
  · exact lock_update (fun _ _ _ => h.lock p r hp (by rw [hr]; rfl)) fun q y _ => h.lock q y

/-! ## Completion -/

theorem Inv.check [DecidableEq B] (h : Inv s) (hp : s.req p = some r) (hr : r.stage = .wait x) :
    Inv (check p r x s) := by
  have hlocked : r.stage.locked = true := by rw [hr]; rfl
  unfold WhuOs.Dev.check
  split
  · refine h.move hp (by rw [hr]; rfl) (fun k _ => by rw [hr]; cases k <;> rfl)
      (fun hc => nomatch hc) ?_
    intro q y hq hy hl
    exact (h.alone hp hlocked q y hq hy hl).elim
  next hbusy =>
  have hsame : ∀ k, k ≠ .finishing → ∀ q b y,
      At (Function.update s.req p (some { r with stage := .finish x })) k q b y ↔
      At s.req k q b y := by
    intro k hk q b y
    refine at_update_same hp rfl (by rw [hr]; rfl) fun _ => ?_
    rw [hr]
    cases k <;> first | rfl | exact absurd rfl hk
  refine ⟨h.descs.congr' ?_, h.bufs_update hp rfl, h.status, h.nodup, fun n => ?_,
    h.rings.congr rfl rfl rfl rfl rfl rfl rfl, h.doing, h.ended, fun q b y hy =>
      ?_, fun q b y hy => ?_,
    fun q b y hy => ?_, fun q b y hy => ?_, ?_⟩
  · exact fun k hk => hsame k (by rcases hk with rfl | rfl <;> decide)
  · change n ∈ s.flight ↔ _
    rw [h.flight]
    simp only [Sys.setReq, hsame .submitted (by decide)]
  · exact h.idle q b y ((hsame .submitted (by decide) q b y).mp hy)
  · exact h.preset q b y ((hsame .preset (by decide) q b y).mp hy)
  · exact h.staged q b y ((hsame .staged (by decide) q b y).mp hy)
  · by_cases hq : q = p
    · subst hq
      obtain rfl := (at_update_self.mp hy).1
      exact Bool.eq_false_iff.mpr hbusy
    · exact h.finishing q b y ((at_update_ne hq).mp hy)
  · exact lock_update (fun _ _ _ => h.lock p r hp hlocked) fun q y _ => h.lock q y

/-- The request is done: its descriptors are free and it is gone. -/
theorem Inv.drop (h : Inv s) (hp : s.req p = some r) (hr : r.stage = .finish x)
    (hd : Descs d (Function.update s.req p none))
    (hdisk : { d with desc := s.disk.desc, free := s.disk.free, info := s.disk.info } = s.disk)
    (hstatus : ∀ i, (d.info i).status = 0) :
    Inv { s with disk := d, lock := none, req := Function.update s.req p none } := by
  have hat : ∀ k q b y, At (Function.update s.req p none) k q b y → q ≠ p ∧ At s.req k q b y := by
    intro k q b y hy
    have hq : q ≠ p := by
      rintro rfl
      obtain ⟨z, hz, -⟩ := hy
      rw [Function.update_self] at hz
      cases hz
    exact ⟨hq, (at_update_ne hq).mp hy⟩
  have hx : At s.req .finishing p r.buf x :=
    (at_some hp).mpr ⟨rfl, by rw [hr]; rfl, by rw [hr]; rfl⟩
  have hrings : Rings { s with disk := d, lock := none, req := Function.update s.req p none } :=
    h.rings.congr (congrArg Disk.avail hdisk :) (congrArg Disk.availIdx hdisk :)
      (congrArg Disk.usedElems hdisk :)
      (congrArg Disk.usedRing hdisk :) (congrArg Disk.usedIdx hdisk :) rfl rfl
  refine ⟨hd, ?_, hstatus, h.nodup, fun n => ?_, hrings, h.doing, h.ended, fun q b y hy => ?_, fun q b y hy => ?_,
    fun q b y hy => ?_, fun q b y hy => ?_, ?_⟩
  · intro a c y z hy hz
    have hback : ∀ a y, Function.update s.req p none a = some y → s.req a = some y := by
      intro a y hy
      by_cases ha : a = p
      · subst ha
        rw [Function.update_self] at hy
        cases hy
      · rwa [Function.update_of_ne ha] at hy
    exact h.bufs a c y z (hback a y hy) (hback c z hz)
  · change n ∈ s.flight ↔ _
    rw [h.flight]
    constructor
    · rintro ⟨q, b, y, hy, hb, hn⟩
      have hq : q ≠ p := by
        -- the buffer of the request is no longer busy
        rintro rfl
        obtain ⟨rfl, -⟩ := hy.unique hx
        rw [h.finishing q _ x hx] at hb
        cases hb
      exact ⟨q, b, y, (at_update_ne hq).mpr hy, hb, hn⟩
    · rintro ⟨q, b, y, hy, hb, hn⟩
      exact ⟨q, b, y, (hat _ _ _ _ hy).2, hb, hn⟩
  · exact h.idle q b y (hat _ _ _ _ hy).2
  · exact h.preset q b y (hat _ _ _ _ hy).2
  · have havail : d.avail = s.disk.avail := (congrArg Disk.avail hdisk :)
    change d.avail _ = _
    rw [havail]
    exact h.staged q b y (hat _ _ _ _ hy).2
  · exact h.finishing q b y (hat _ _ _ _ hy).2
  · refine lock_update (fun y hy => nomatch hy) fun q y hq hy hl => ?_
    exact (h.alone hp (by rw [hr]; rfl) q y hq hy hl).elim

theorem Inv.finish (h : Inv s) (hp : s.req p = some r) (hr : r.stage = .finish x) :
    ∃ s', finish p x s = .ok s' ∧ Inv s' := by
  have hx : ∀ k, Kind.has k (.finish x) = true → At s.req k p r.buf x := by
    intro k hk
    exact (at_some hp).mpr ⟨rfl, by rw [hr]; rfl, by rw [hr]; exact hk⟩
  have hn := h.descs.nodup p _ x (hx .any rfl)
  have hused : ∀ i ∈ x.list, s.disk.free i = false := by
    intro i hi
    refine Bool.eq_false_iff.mpr fun hf => ?_
    exact (h.descs.free i).mp hf p _ x (hx .any rfl) hi
  let s₀ : Sys P B :=
    { s with disk := { s.disk with info := Function.update s.disk.info x.fst { s.disk.info x.fst with b := none } } }
  have he : freeChain x.fst s₀ = _ := freeChain_eq (h.descs.chain p _ x (hx .formatted rfl)) rfl hn hused
  have hrel := Released.freed s₀ x
  generalize ((s₀.freed x.fst).freed x.snd).freed x.thd = s₁ at he hrel
  refine ⟨{ s₁.setReq p none with lock := none }, ?_, ?_⟩
  · change (freeChain x.fst s₀ >>= fun t => pure { t.setReq p none with lock := none }) = _
    rw [he]
    rfl
  have hw := h.woken hrel.req
  obtain ⟨z, hz, hzst⟩ : ∃ z, s₁.req p = some z ∧ z.stage = .finish x := by
    obtain ⟨z, hz, -, hzi, hzk⟩ := (hrel.req.at_iff .finishing p r.buf x).mpr (hx .finishing rfl)
    refine ⟨z, hz, ?_⟩
    cases hst : z.stage <;> rw [hst] at hzk hzi <;> first | exact congrArg Stage.finish (Option.some.inj hzi) | cases hzk
  have hdisk : s₁.disk.info = s₀.disk.info := (congrArg Disk.info hrel.disk :)
  have hinfo : ∀ i, i ≠ x.fst → s₁.disk.info i = s.disk.info i := by
    intro i hi
    rw [hdisk]
    exact Function.update_of_ne hi _ _
  have hfst : s₁.disk.info x.fst = { s.disk.info x.fst with b := none } := by
    rw [hdisk]
    exact Function.update_self _ _ _
  have hat : ∀ k q b y, At (Function.update s₁.req p none) k q b y → q ≠ p ∧ At s.req k q b y := by
    intro k q b y hy
    have hq : q ≠ p := by
      rintro rfl
      obtain ⟨z, hz, -⟩ := hy
      rw [Function.update_self] at hz
      cases hz
    exact ⟨hq, (hrel.req.at_iff _ _ _ _).mp ((at_update_ne hq).mp hy)⟩
  have hdescs : Descs s₁.disk (Function.update s₁.req p none) := by
    refine ⟨fun q b y hy => h.descs.nodup q b y (hat _ _ _ _ hy).2, fun q q' b b' y y' hy hy' =>
      h.descs.apart q q' b b' y y' (hat _ _ _ _ hy).2 (hat _ _ _ _ hy').2, fun i =>
        ?_, fun q b y hy => ?_⟩
    · rw [hrel.free]
      change (s.disk.free i = true ∨ _) ↔ _
      rw [h.descs.free]
      constructor
      · rintro (hi | hi) q b y hy
        · exact hi q b y (hat _ _ _ _ hy).2
        · obtain ⟨hq, hy⟩ := hat _ _ _ _ hy
          exact h.descs.apart p q _ b x y (hx .any rfl) hy (Ne.symm hq) hi
      · intro hall
        by_cases hi : i ∈ x.list
        · exact .inr hi
        · refine .inl fun q b y hy => ?_
          by_cases hq : q = p
          · subst hq
            obtain ⟨-, rfl⟩ := hy.unique (hx .any rfl)
            exact hi
          · exact hall q b y ((at_update_ne hq).mpr ((hrel.req.at_iff _ _ _ _).mpr hy))
    · obtain ⟨hq, hy⟩ := hat _ _ _ _ hy
      have hap := h.descs.apart p q _ b x y (hx .any rfl) hy.any (Ne.symm hq)
      refine (h.descs.chain q b y hy).congr (fun i hi => hrel.desc i fun hc => hap hc hi) ?_
      rw [hinfo]
      intro hc
      exact hap (a := y.fst) (by rw [hc]; simp [Idx.list]) (by simp [Idx.list])
  have hkeep :
      { s₁.disk with desc := s.disk.desc, free := s.disk.free, info := s.disk.info } = s.disk :=
    (congrArg (fun e : Disk B => { e with info := s.disk.info }) hrel.disk :)
  have hdrop := hw.drop hz hzst hdescs hkeep fun i => ?_
  · have hs₁ : { s₁.setReq p none with lock := none } =
        { s with disk := s₁.disk, lock := none, req := Function.update s₁.req p none } := by
      unfold Sys.setReq
      rw [hrel.busy, hrel.dev, hrel.hist]
    rw [hs₁]
    exact hdrop
  · by_cases hi : i = x.fst
    · rw [hi, hfst]
      exact h.status x.fst
    · rw [hinfo i hi]
      exact h.status i

end

end WhuOs.Dev
