import WhuOs.Fs.Buf

/-! # The store a client sees through the cache

`Evolves` relates two states between which a client has only written the blocks
`W`: buffers it holds are untouched, and every other block still reads as before,
except that a copy which was never written back may have been evicted and reads
as the disk again. `Loaded` and `Stored` are the net effect of reading a block
and of replacing one; `Clean` states are those in which nothing can be lost.
-/

namespace WhuOs.Fs

open Prog

structure Evolves (held : List BufId) (W : Nat → Prop) (s s' : State) : Prop where
  inv : CacheInv held s'
  held : ∀ i ∈ held, s'.cache.bufs i = s.cache.bufs i
  disk : ∀ b, ¬ W b → s'.disk b = s.disk b
  view : ∀ b, ¬ W b → s'.view b = s.view b ∨ s'.view b = s.disk b

section

variable {held : List BufId} {s s₁ s₂ s₃ : State} {W W' : Nat → Prop} {b : Nat} {i : BufId}
  {d : Block} {G : Event → Prop} {E : Panic → Prop} {α : Type} {Q : α → State → Prop}

theorem Evolves.refl (h : CacheInv held s) : Evolves held W s s :=
  ⟨h, fun _ _ => rfl, fun _ _ => rfl, fun _ _ => Or.inl rfl⟩

theorem Evolves.trans (h : Evolves held W s s₁) (h' : Evolves held W' s₁ s₂) :
    Evolves held (fun b => W b ∨ W' b) s s₂ := by
  refine ⟨h'.inv, fun i hi => (h'.held i hi).trans (h.held i hi), ?_, ?_⟩
  · intro b hb
    push Not at hb
    exact (h'.disk b hb.2).trans (h.disk b hb.1)
  · intro b hb
    push Not at hb
    rcases h'.view b hb.2 with hv | hv
    · rw [hv]
      exact h.view b hb.1
    · rw [hv, h.disk b hb.1]
      exact Or.inr rfl

theorem Evolves.mono (h : Evolves held W s s₁) (hW : ∀ b, W b → W' b) : Evolves held W' s s₁ :=
  ⟨h.inv, h.held, fun b hb => h.disk b fun hw => hb (hW b hw),
    fun b hb => h.view b fun hw => hb (hW b hw)⟩

/-- A block that was written through reads as the disk, as long as it is not written. -/
theorem Evolves.synced (h : Evolves held W s s₁) (hb : ¬ W b) (hs : s.view b = s.disk b) :
    s₁.view b = s₁.disk b := by
  rw [h.disk b hb]
  rcases h.view b hb with hv | hv
  · rw [hv, hs]
  · exact hv

/-- A held block reads as before. -/
theorem Evolves.view_held (h : Evolves held W s s₁) (hs : CacheInv held s) (hi : i ∈ held)
    (hne : (s.cache.bufs i).blockNum ≠ blockNumUnused) :
    s₁.view (s.cache.bufs i).blockNum = s.view (s.cache.bufs i).blockNum := by
  have he := h.held i hi
  have hv := h.inv.view_cached (i := i) (by rw [he]; exact hne)
  rw [he] at hv
  rw [hv, hs.view_cached hne]

/-! ## Reading and replacing one block -/

theorem ReadPost.disk_eq (p : ReadPost held s b i s₁) : s₁.disk = s.disk := by rw [p.eq]

theorem ReadPost.view (p : ReadPost held s b i s₁) (hs : CacheInv held s) (b' : Nat) :
    s₁.view b' = s.view b' ∨ s₁.view b' = s.disk b' := by
  by_cases hc : ∃ j, (s₁.cache.bufs j).blockNum = b'
  · obtain ⟨j, hj⟩ := hc
    by_cases hu : b' = blockNumUnused
    · rw [hu, State.view_unused, p.disk_eq]
      exact Or.inr rfl
    have hv := p.inv.view_cached (i := j) (hj ▸ hu)
    rw [hj] at hv
    rw [hv]
    left
    by_cases hji : j = i
    · rw [hji, p.num] at hj
      rw [hji, p.data, hj]
    · have hsj : (s.cache.bufs j).blockNum = b' := by rw [← p.other j hji, hj]
      have hw := hs.view_cached (i := j) (hsj ▸ hu)
      rw [hsj] at hw
      rw [hw, p.other j hji]
  · rw [p.inv.view_uncached fun j hj => hc ⟨j, hj⟩, p.disk_eq]
    exact Or.inr rfl

theorem ReleasePost.view {i : BufId} (p : ReleasePost held s i s₁)
    (hs : CacheInv (i :: held) s) (b : Nat) : s₁.view b = s.view b :=
  hs.view_congr p.inv (fun j _ => ⟨p.num j, p.data j⟩) (by rw [p.eq])

/-- Net effect of reading and releasing block `b`. -/
structure Loaded (held : List BufId) (s s' : State) : Prop where
  core : s'.toCore = s.toCore
  evolves : Evolves held (fun _ => False) s s'

/-- Net effect of replacing block `b` by `d`, on disk and in the cache. -/
structure Stored (held : List BufId) (s : State) (b : Nat) (d : Block) (s' : State) : Prop where
  core : s'.toCore = { s.toCore with disk := Function.update s.disk b d }
  evolves : Evolves held (· = b) s s'
  view : s'.view b = d

/-- The locks after a buffer was handed out and released again. -/
theorem CacheInv.relock_buf (hs : CacheInv held s) (hi : i ∉ held) :
    Function.update (Function.update s.locks (.buf i) true) (.buf i) false = s.locks := by
  have hlk : s.locks (.buf i) = false := by rw [hs.locked i]; simpa using hi
  rw [Function.update_idem, ← hlk, Function.update_eq_self]

theorem ReadPost.loaded (p : ReadPost held s b i s₁) (hs : CacheInv held s)
    (r : ReleasePost held s₁ i s₂) : Loaded held s s₂ := by
  have hcore : s₂.toCore = s.toCore := by
    rw [r.eq, p.eq]
    simp only [hs.relock_buf p.fresh]
  refine ⟨hcore, r.inv, ?_, fun b _ => by rw [hcore], fun b _ => ?_⟩
  · intro j hj
    have hne : j ≠ i := fun h => p.fresh (h ▸ hj)
    rw [r.other j hne, p.other j hne]
  · rw [r.view p.inv]
    exact p.view hs b

/-- The state in which a held buffer has been overwritten and written to disk. -/
def State.putBuf (s : State) (i : BufId) (d : Block) : State :=
  { s.setBuf i { s.cache.bufs i with data := d } with
    disk := Function.update s.disk (s.cache.bufs i).blockNum d }

theorem CacheInv.setData (h : CacheInv held s) (i : BufId) (d : Block) :
    CacheInv held (s.setBuf i { s.cache.bufs i with data := d }) := by
  have keep : ∀ j, ((s.setBuf i { s.cache.bufs i with data := d }).cache.bufs j).blockNum =
      (s.cache.bufs j).blockNum := by
    intro j
    by_cases hj : j = i <;> simp [State.setBuf, hj]
  refine ⟨h.nodup, h.mem, ?_, h.locked, ?_, h.lk⟩
  · intro j k hjk hne
    rw [keep, keep] at hjk
    rw [keep] at hne
    exact h.uniq j k hjk hne
  · intro j
    rw [← h.ref j]
    by_cases hj : j = i <;> simp [State.setBuf, hj]

theorem CacheInv.putBuf (h : CacheInv held s) (i : BufId) (d : Block) :
    CacheInv held (s.putBuf i d) :=
  have hd := h.setData i d
  ⟨hd.nodup, hd.mem, hd.uniq, hd.locked, hd.ref, hd.lk⟩

theorem ReadPost.stored (p : ReadPost held s b i s₁) (hs : CacheInv held s)
    (hb : b ≠ blockNumUnused) (r : ReleasePost held (s₁.putBuf i d) i s₂) :
    Stored held s b d s₂ := by
  have hcore : s₂.toCore = { s.toCore with disk := Function.update s.disk b d } := by
    rw [r.eq]
    simp only [State.putBuf, State.setBuf, p.num]
    rw [p.eq]
    simp only [hs.relock_buf p.fresh]
  have hinv := p.inv.putBuf i d
  have hself : ((s₁.putBuf i d).cache.bufs i).blockNum = b := by
    simp [State.putBuf, State.setBuf, p.num]
  have hview : s₂.view b = d := by
    rw [r.view hinv]
    have hv := hinv.view_cached (i := i) (by rw [hself]; exact hb)
    rw [hself] at hv
    rw [hv]
    simp [State.putBuf, State.setBuf]
  refine ⟨hcore, ⟨r.inv, ?_, ?_, ?_⟩, hview⟩
  · intro j hj
    have hne : j ≠ i := fun h => p.fresh (h ▸ hj)
    rw [r.other j hne]
    simp [State.putBuf, State.setBuf, hne, p.other j hne]
  · intro b' hb'
    rw [hcore]
    exact Function.update_of_ne hb' _ _
  · intro b' hb'
    rw [r.view hinv]
    have hkeep : (s₁.putBuf i d).view b' = s₁.view b' := by
      refine p.inv.view_congr hinv ?_ ?_
      · intro j hj
        by_cases hji : j = i
        · rw [hji, hself, p.num] at hj
          exact absurd (hj.elim Eq.symm Eq.symm) hb'
        · simp [State.putBuf, State.setBuf, hji]
      · simp only [State.putBuf, p.num]
        exact Function.update_of_ne hb' _ _
    rw [hkeep]
    exact p.view hs b'

/-! ## Program fragments -/

/-- Release a buffer that was only read. -/
theorem ReadPost.release_sat (p : ReadPost held s b i s₁) (hs : CacheInv held s)
    {k : Unit → FsM α} (hk : ∀ s', Loaded held s s' → Sat (k ()) s' G Q E) :
    Sat (bufRelease i >>= k) s₁ G Q E :=
  (bufRelease_sat p.inv p.fresh).bind fun _ _ r => hk _ (p.loaded hs r)

/-- Overwrite, write back and release a buffer. -/
theorem ReadPost.store_sat (p : ReadPost held s b i s₁) (hs : CacheInv held s)
    (hb : b ≠ blockNumUnused) (hG : G (.diskWrite b)) {k : Unit → FsM α}
    (hk : ∀ s', Stored held s b d s' → Sat (k ()) s' G Q E) :
    Sat (setBufData i d >>= fun _ => bufWrite i >>= fun _ => bufRelease i >>= k) s₁ G Q E := by
  rw [sat_bind, sat_setBufData, sat_bind, bufWrite_sat (p.inv.setData i d) List.mem_cons_self]
  have hnum : ((s₁.setBuf i { s₁.cache.bufs i with data := d }).cache.bufs i).blockNum = b := by
    simp [State.setBuf, p.num]
  refine ⟨by rw [hnum]; exact hG, ?_⟩
  have hput : { s₁.setBuf i { s₁.cache.bufs i with data := d } with
      disk := Function.update (s₁.setBuf i { s₁.cache.bufs i with data := d }).disk
        ((s₁.setBuf i { s₁.cache.bufs i with data := d }).cache.bufs i).blockNum
        ((s₁.setBuf i { s₁.cache.bufs i with data := d }).cache.bufs i).data } = s₁.putBuf i d := by
    simp [State.putBuf, State.setBuf]
  rw [hput]
  exact (bufRelease_sat (p.inv.putBuf i d) p.fresh).bind fun _ _ r => hk _ (p.stored hs hb r)

/-- The store fragment inside a conditional triple. -/
theorem ReadPost.store_on {H : Event → Prop} (p : ReadPost held s b i s₁) (hs : CacheInv held s)
    (hb : b ≠ blockNumUnused) (hH : H (.diskWrite b)) {k : Unit → FsM α}
    (hk : ∀ s', Stored held s b d s' → SatOn (k ()) s' G H Q) :
    SatOn (setBufData i d >>= fun _ => bufWrite i >>= fun _ => bufRelease i >>= k) s₁ G H Q := by
  have hst : Sat (setBufData i d >>= fun _ => bufWrite i >>= fun _ => bufRelease i >>= pure) s₁ H
      (fun _ => Stored held s b d) (fun _ => False) :=
    p.store_sat hs hb hH fun s' h => (sat_pure _).mpr h
  have hassoc : (setBufData i d >>= fun _ => bufWrite i >>= fun _ => bufRelease i >>= k) =
      (setBufData i d >>= fun _ => bufWrite i >>= fun _ => bufRelease i >>= pure) >>= k := by
    simp only [seq_assoc, ret_bind]
  rw [hassoc]
  exact hst.on.bind fun _ s' h => hk s' h

/-! ## Clean states -/

/-- Every cached copy agrees with the disk. -/
structure Clean (held : List BufId) (s : State) : Prop where
  inv : CacheInv held s
  view : ∀ b, s.view b = s.disk b

theorem Loaded.clean (h : Loaded held s s₁) (hs : Clean held s) : Clean held s₁ := by
  refine ⟨h.evolves.inv, fun b => ?_⟩
  have hd : s₁.disk b = s.disk b := h.evolves.disk b id
  rcases h.evolves.view b id with hv | hv
  · rw [hv, hs.view b, hd]
  · rw [hv, hd]

theorem Stored.clean (h : Stored held s b d s₁) (hs : Clean held s) : Clean held s₁ := by
  refine ⟨h.evolves.inv, fun b' => ?_⟩
  by_cases hb : b' = b
  · simp [hb, h.view, h.core]
  · have hd : s₁.disk b' = s.disk b' := h.evolves.disk b' hb
    rcases h.evolves.view b' hb with hv | hv
    · rw [hv, hs.view b', hd]
    · rw [hv, hd]

end

end WhuOs.Fs
