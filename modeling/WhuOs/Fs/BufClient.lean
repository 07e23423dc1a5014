import WhuOs.Fs.BufRing

/-! # A client of the buffer cache

One client reads, modifies, writes and releases blocks through the cache. `plain`
is a disk without a cache: each block holds what the last `buf_write` stored in
it. Whatever was evicted and read again in between, `buf_read` delivers the
contents of that disk.
-/

namespace WhuOs.Fs

open Prog

/-- What the client knows: the buffers it holds, those among them it modified since their last
`buf_write`, and the data last written to each block. -/
structure Client where
  held : List BufId
  dirty : List BufId
  plain : Nat → Block

inductive ClientStep (c : Client) (r : RawState) : Client → RawState → Prop where
  | read {b : Nat} {i : BufId} {r' : RawState} (num : b ≠ blockNumUnused)
      (fresh : ∀ j ∈ c.held, (r.bufs j).blockNum ≠ b) (run : (Raw.bufRead b r).1 = .ok (i, r')) :
      ClientStep c r { c with held := i :: c.held } r'
  | modify {i : BufId} {d : Block} {r' : RawState} (holder : i ∈ c.held)
      (run : (Raw.modifyBuf i (fun b => { b with data := d }) r).1 = .ok ((), r')) :
      ClientStep c r { c with dirty := i :: c.dirty } r'
  | write {i : BufId} {r' : RawState} (holder : i ∈ c.held)
      (run : (Raw.bufWrite i r).1 = .ok ((), r')) :
      ClientStep c r
        { c with
          dirty := c.dirty.filter (· ≠ i)
          plain := Function.update c.plain (r.bufs i).blockNum (r.bufs i).data } r'
  | release {i : BufId} {r' : RawState} (holder : i ∈ c.held) (clean : i ∉ c.dirty)
      (run : (Raw.bufRelease i r).1 = .ok ((), r')) :
      ClientStep c r { c with held := c.held.erase i } r'

/-- The client's runs after `buf_init`; at first every block holds its contents on disk. -/
inductive ClientRuns : Client → RawState → Prop where
  | init {r₀ r : RawState} (blank : Blank r₀) (run : (Raw.bufInit r₀).1 = .ok ((), r)) :
      ClientRuns ⟨[], [], r₀.disk⟩ r
  | step {c c' : Client} {r r' : RawState} (run : ClientRuns c r) (last : ClientStep c r c' r') :
      ClientRuns c' r'

/-- The disk is the plain disk, and so is every buffer the client is not about to write. -/
structure Refines (c : Client) (s : State) : Prop where
  inv : CacheInv c.held s
  nodup : c.held.Nodup
  disk : s.disk = c.plain
  synced : ∀ i, i ∉ c.dirty → (s.cache.bufs i).blockNum ≠ blockNumUnused →
    (s.cache.bufs i).data = s.disk (s.cache.bufs i).blockNum
  dirty : ∀ i ∈ c.dirty, i ∈ c.held

section

variable {c c' : Client} {s : State} {r r' : RawState} {i : BufId} {b : Nat}

/-- What the client does not hold reads as on the plain disk. -/
theorem Refines.view_eq (h : Refines c s) (hb : b ≠ blockNumUnused)
    (hfresh : ∀ j ∈ c.held, (s.cache.bufs j).blockNum ≠ b) : s.view b = c.plain b := by
  by_cases hcached : ∃ i, (s.cache.bufs i).blockNum = b
  · obtain ⟨i, rfl⟩ := hcached
    have hclean : i ∉ c.dirty := fun hi => hfresh i (h.dirty i hi) rfl
    rw [h.inv.view_cached hb, h.synced i hclean hb, h.disk]
  · rw [h.inv.view_uncached fun i hi => hcached ⟨i, hi⟩, h.disk]

theorem Refines.read {s' : State} (h : Refines c s) (hb : b ≠ blockNumUnused)
    (hfresh : ∀ j ∈ c.held, (s.cache.bufs j).blockNum ≠ b) (hp : ReadPost c.held s b i s') :
    Refines { c with held := i :: c.held } s' := by
  have hd : s'.disk = s.disk := by rw [hp.eq]
  refine ⟨hp.inv, List.nodup_cons.mpr ⟨hp.fresh, h.nodup⟩, hd.trans h.disk, ?_,
    fun j hj => List.mem_cons_of_mem _ (h.dirty j hj)⟩
  intro j hj hne
  by_cases hji : j = i
  · rw [hji, hp.num, hp.data, h.view_eq hb hfresh, hd, h.disk]
  · rw [hp.other j hji] at hne ⊢
    rw [hd]
    exact h.synced j hj hne

theorem Refines.modify (h : Refines c s) (hi : i ∈ c.held) (d : Block) :
    Refines { c with dirty := i :: c.dirty } (s.setBuf i { s.cache.bufs i with data := d }) := by
  refine ⟨h.inv.setData i d, h.nodup, h.disk, fun j hj hne => ?_, fun j hj => ?_⟩
  · rw [List.mem_cons, not_or] at hj
    have hbuf : (s.setBuf i { s.cache.bufs i with data := d }).cache.bufs j = s.cache.bufs j := by
      simp [State.setBuf, hj.1]
    rw [hbuf] at hne ⊢
    exact h.synced j hj.2 hne
  · rcases List.mem_cons.mp hj with rfl | hj
    · exact hi
    · exact h.dirty j hj

theorem Refines.write (h : Refines c s) :
    Refines
      { c with
        dirty := c.dirty.filter (· ≠ i)
        plain := Function.update c.plain (s.cache.bufs i).blockNum (s.cache.bufs i).data }
      { s with disk := Function.update s.disk (s.cache.bufs i).blockNum (s.cache.bufs i).data } := by
  refine ⟨⟨h.inv.nodup, h.inv.mem, h.inv.uniq, h.inv.locked, h.inv.ref, h.inv.lk⟩, h.nodup,
    by rw [← h.disk], fun j hj hne => ?_, fun j hj => h.dirty j (List.mem_filter.mp hj).1⟩
  by_cases hji : j = i
  · simp [hji]
  · -- no other buffer carries the block that was written
    have hother : (s.cache.bufs j).blockNum ≠ (s.cache.bufs i).blockNum :=
      fun he => hji (h.inv.uniq j i he hne)
    have hclean : j ∉ c.dirty := by simpa [hji] using hj
    dsimp only at hne ⊢
    rw [Function.update_of_ne hother]
    exact h.synced j hclean hne

theorem Refines.inv_cons (h : Refines c s) (hi : i ∈ c.held) : CacheInv (i :: c.held.erase i) s :=
  h.inv.of_mem_iff fun _ => (List.perm_cons_erase hi).mem_iff

theorem Refines.release {s' : State} (h : Refines c s) (hclean : i ∉ c.dirty)
    (hp : ReleasePost (c.held.erase i) s i s') : Refines { c with held := c.held.erase i } s' := by
  have hd : s'.disk = s.disk := by rw [hp.eq]
  refine ⟨hp.inv, h.nodup.erase i, hd.trans h.disk, fun j hj hne => ?_, fun j hj => ?_⟩
  · rw [hp.num] at hne
    rw [hp.num, hp.data, hd]
    exact h.synced j hj hne
  · have hne : j ≠ i := by
      rintro rfl
      exact hclean hj
    exact (List.mem_erase_of_ne hne).mpr (h.dirty j hj)

theorem ClientStep.refines (hs : ClientStep c r c' r') (ha : Abs r s) (h : Refines c s) :
    ∃ s', Abs r' s' ∧ Refines c' s' := by
  cases hs with
  | @read b i _ num fresh run =>
      obtain ⟨s', hrun, ha'⟩ := (bufRead_sim ha b).of_ok run
      rw [ha.bufs] at fresh
      exact ⟨s', ha', h.read num fresh ((bufRead_sat_or h.inv num).of_ok hrun)⟩
  | @modify i d _ holder run =>
      obtain ⟨s', hrun, ha'⟩ := (modifyBuf_sim ha i _).of_ok run
      cases hrun
      exact ⟨_, ha', h.modify holder d⟩
  | @write i _ holder run =>
      obtain ⟨s', hrun, ha'⟩ := (bufWrite_sim ha i).of_ok run
      have hw := ((bufWrite_sat (G := fun _ => True) (E := fun _ => True) (Q := fun _ s' => s' =
        { s with disk := Function.update s.disk (s.cache.bufs i).blockNum (s.cache.bufs i).data })
        h.inv holder).mpr ⟨trivial, rfl⟩).of_ok hrun
      subst hw
      rw [ha.bufs]
      exact ⟨_, ha', h.write⟩
  | @release i _ holder clean run =>
      obtain ⟨s', hrun, ha'⟩ := (bufRelease_sim ha i).of_ok run
      exact ⟨s', ha',
        h.release clean
          ((bufRelease_sat (G := fun _ => True) (E := fun _ => True) (h.inv_cons holder)
        h.nodup.not_mem_erase).of_ok hrun)⟩

theorem ClientRuns.refines (h : ClientRuns c r) : ∃ s, Abs r s ∧ Refines c s := by
  induction h with
  | init blank run =>
      obtain ⟨s, ha, hinv, hd, hblank⟩ := bufInit_abs blank run
      exact ⟨s, ha, hinv, List.nodup_nil, hd, fun i _ hne => absurd (hblank i) hne, nofun⟩
  | step _ last ih =>
      obtain ⟨s, ha, href⟩ := ih
      exact last.refines ha href

/-- A buffer that the client holds can be written. -/
theorem ClientRuns.writes (h : ClientRuns c r) (hi : i ∈ c.held) :
    ∃ r', (Raw.bufWrite i r).1 = .ok ((), r') := by
  obtain ⟨s, ha, href⟩ := h.refines
  obtain ⟨_, s', hrun, -⟩ :=
    ((bufWrite_sat (G := fun _ => True) (E := fun _ => False)
      (Q := fun _ _ => True) href.inv hi).mpr
    ⟨trivial, trivial⟩).returns
  obtain ⟨r', hr, -⟩ := (bufWrite_sim ha i).ok_of hrun
  exact ⟨r', hr⟩

/-- A buffer that the client holds can be released. -/
theorem ClientRuns.releases (h : ClientRuns c r) (hi : i ∈ c.held) :
    ∃ r', (Raw.bufRelease i r).1 = .ok ((), r') := by
  obtain ⟨s, ha, href⟩ := h.refines
  obtain ⟨_, s', hrun, -⟩ :=
    (bufRelease_sat (G := fun _ => True) (E := fun _ => False) (href.inv_cons hi)
    href.nodup.not_mem_erase).returns
  obtain ⟨r', hr, -⟩ := (bufRelease_sim ha i).ok_of hrun
  exact ⟨r', hr⟩

theorem Raw.modifyBuf_data (i : BufId) (d : Block) (r : RawState) :
    ∃ r', (Raw.modifyBuf i (fun b => { b with data := d }) r).1 = .ok ((), r') ∧
      (r'.bufs i).blockNum = (r.bufs i).blockNum ∧ (r'.bufs i).data = d := by
  have hself :
      Function.update r.bufs i { r.bufs i with data := d } i = { r.bufs i with data := d } :=
      Function.update_self ..
  exact ⟨{ r with bufs := Function.update r.bufs i { r.bufs i with data := d } }, rfl,
    (congrArg Buf.blockNum hself :), (congrArg Buf.data hself :)⟩

end

/-- Every `buf_read` of a block the client does not hold returns a buffer of that block with the
data last written to it, unless the client holds all buffers. -/
theorem cached_disk_refines (c : Client) (r : RawState) (h : ClientRuns c r) (b : Nat)
    (hb : b ≠ blockNumUnused) (hfresh : ∀ j ∈ c.held, (r.bufs j).blockNum ≠ b) :
    (∀ i r', (Raw.bufRead b r).1 = .ok (i, r') →
      (r'.bufs i).blockNum = b ∧ (r'.bufs i).data = c.plain b) ∧
    ((∃ i, i ∉ c.held) → ∃ i r', (Raw.bufRead b r).1 = .ok (i, r')) := by
  obtain ⟨s, ha, href⟩ := h.refines
  rw [ha.bufs] at hfresh
  refine ⟨fun i r' hrun => ?_, fun hroom => ?_⟩
  · obtain ⟨s', hrun', ha'⟩ := (bufRead_sim ha b).of_ok hrun
    have hp := (bufRead_sat_or href.inv hb).of_ok hrun'
    rw [ha'.bufs]
    exact ⟨hp.num, hp.data.trans (href.view_eq hb hfresh)⟩
  · obtain ⟨i, s', hrun, -⟩ := (bufRead_sat_of_room (G := fun _ => True) (E := fun _ => False)
      href.inv hb hfresh hroom).returns
    obtain ⟨r', hr, -⟩ := (bufRead_sim ha b).ok_of hrun
    exact ⟨i, r', hr⟩

/-- A block that was read, changed, written and released is read again. -/
theorem cached_disk_refines_reread : ∃ c r i r', ClientRuns c r ∧ c.plain 5 = (fun _ => 9) ∧
    (Raw.bufRead 5 r).1 = .ok (i, r') ∧ (r'.bufs i).data = fun _ => 9 := by
  have hblank : Blank ⟨(powerOn fun b k => UInt8.ofNat (b + k)).toCore,
      (powerOn fun _ _ => 0).cache.bufs, ⟨fun _ => none, fun _ => none⟩⟩ :=
    ⟨fun _ => rfl, fun _ => rfl⟩
  obtain ⟨r, hinit, -⟩ := (bufInit_sim
    (s := ⟨(powerOn fun b k => UInt8.ofNat (b + k)).toCore, (powerOn fun _ _ => 0).cache⟩)
    hblank rfl rfl).ok_of rfl
  have hruns := ClientRuns.init hblank hinit
  have hfree : ∀ j ∈ ([] : List BufId), (r.bufs j).blockNum ≠ 5 :=
    fun j hj => absurd hj List.not_mem_nil
  obtain ⟨hdata, hok⟩ := cached_disk_refines _ r hruns 5 (by decide) hfree
  obtain ⟨i, r₁, hread⟩ := hok ⟨0, List.not_mem_nil⟩
  have hnum := (hdata i r₁ hread).1
  have hruns₁ := hruns.step (.read (by decide) hfree hread)
  obtain ⟨r₂, hmodify, hnum₂, hdata₂⟩ := Raw.modifyBuf_data i (fun _ => 9) r₁
  have hruns₂ := hruns₁.step (.modify List.mem_cons_self hmodify)
  obtain ⟨r₃, hwrite⟩ := hruns₂.writes List.mem_cons_self
  have hruns₃ := hruns₂.step (.write List.mem_cons_self hwrite)
  obtain ⟨r₄, hrelease⟩ := hruns₃.releases List.mem_cons_self
  have hruns₄ := hruns₃.step (.release List.mem_cons_self (by simp) hrelease)
  obtain ⟨hdata₄, hok₄⟩ := cached_disk_refines _ r₄ hruns₄ 5 (by decide) (by simp)
  obtain ⟨j, r₅, hreread⟩ := hok₄ ⟨0, by simp⟩
  have hplain :
      Function.update (powerOn fun b k => UInt8.ofNat (b + k)).disk (r₂.bufs i).blockNum
        (r₂.bufs i).data 5 = fun _ => 9 := by
    rw [hnum₂, hnum, hdata₂, Function.update_self]
  exact ⟨_, r₄, j, r₅, hruns₄, hplain, hreread, (hdata₄ j r₅ hreread).2.trans hplain⟩

end WhuOs.Fs
