import WhuOs.MkfsSpec

/-! # Mounting an image

`fs_init` on a `mkfs` image ends in one known state: the layout constants are
those of `mkfs`, every `icache` entry is unused, no lock is held, and the cache
agrees with the disk.
-/

namespace WhuOs.Fs

open Prog Bytes

/-- An `icache` entry that was never used. -/
def unusedInode : Inode :=
  { type := 0, major := 0, minor := 0, nlink := 0, size := 0, addrs := fun _ => 0,
    inodeNum := inodeNumUnused, ref := 0, valid := false }

/-- The kernel state after mounting, apart from the cache. -/
def bootCore (disk : Nat → Block) : Core where
  sb := Mkfs.sb
  disk := disk
  icache := fun _ => unusedInode
  locks := fun _ => false
  cwd := none

theorem decodeSb_sbBytes :
    decodeSb (splice (fun _ => 0) 0 (Mkfs.sbBytes Mkfs.sb) 36) = Mkfs.sb := by
  decide +kernel

/-- The cache after `buf_init`. -/
theorem bufInit_clean (disk : Nat → Block) :
    Sat bufInit (powerOn disk) (fun _ => True)
      (fun _ s => s.toCore = (powerOn disk).toCore ∧ Clean [] s) (fun _ => False) := by
  rw [bufInit, sat_modify]
  have hinv : CacheInv [] { powerOn disk with
      cache :=
        { bufs := fun i => { (powerOn disk).cache.bufs i with blockNum := blockNumUnused, ref := 0 }
          lru := List.finRange nBlockBuf } } := by
    refine ⟨List.nodup_finRange _, List.mem_finRange, ?_, ?_, ?_, rfl⟩
    · intro i j _ hne
      exact absurd rfl hne
    · intro i
      simp [powerOn]
    · intro i
      simp
  refine ⟨rfl, hinv, fun b => ?_⟩
  by_cases hb : b = blockNumUnused
  · rw [hb]
    exact State.view_unused _
  · exact hinv.view_uncached fun i h => hb h.symm

theorem CacheInv.withSb {held : List BufId} {s : State} (h : CacheInv held s) (b : SuperBlock) :
    CacheInv held { s with sb := b } :=
  ⟨h.nodup, h.mem, h.uniq, h.locked, h.ref, h.lk⟩

theorem ReadPost.withSb {held : List BufId} {s s₁ : State} {n : Nat} {i : BufId}
    (p : ReadPost held s n i s₁) (b : SuperBlock) :
    ReadPost held { s with sb := b } n i { s₁ with sb := b } := by
  refine ⟨p.fresh, ?_, p.inv.withSb b, p.num, p.data, p.other⟩
  conv_lhs => rw [p.eq]

theorem fsInit_sat {junk : Bytes} {files : List Mkfs.HostFile} {img : Mkfs.Image}
    (h : Mkfs.main junk files = some img) :
    Sat fsInit (powerOn img) (fun _ => True)
      (fun _ s => s.toCore = bootCore img ∧ Clean [] s) (fun _ => False) := by
  have hf := Mkfs.main_fresh h
  unfold fsInit
  refine (bufInit_clean img).bind fun _ s ⟨hcore, hclean⟩ => ?_
  refine (bufRead_sat hclean.inv (by decide) (by simp) (by simp)).bind fun i s₁ p => ?_
  have hdata : decodeSb (s₁.cache.bufs i).data = Mkfs.sb := by
    have hd : s.disk = img := congrArg Core.disk hcore
    rw [p.data, hclean.view, hd, hf.super, decodeSb_sbBytes]
  simp only [sat_bind, sat_bufData, sat_modify, sat_state, hdata]
  rw [sat_assert (by decide), sat_assert (by rfl)]
  have q := p.withSb Mkfs.sb
  have hrel := q.release_sat (G := fun _ => True) (E := fun _ => False) (k := fun _ => inodeInit)
    (Q := fun _ s => s.toCore = bootCore img ∧ Clean [] s) (hclean.inv.withSb _) ?_
  · simpa only [sat_bind] using hrel
  · intro s₂ hl
    have hc : Clean [] { s with sb := Mkfs.sb } := ⟨hclean.inv.withSb _, hclean.view⟩
    have hc₂ := hl.clean hc
    rw [inodeInit, sat_modify]
    refine ⟨?_, ⟨hc₂.inv.nodup, hc₂.inv.mem, hc₂.inv.uniq, hc₂.inv.locked, hc₂.inv.ref, hc₂.inv.lk⟩,
      hc₂.view⟩
    have hcore₂ : s₂.toCore = { (powerOn img).toCore with sb := Mkfs.sb } := by
      rw [hl.core, ← hcore]
    simp only [hcore₂]
    rfl

theorem exists_mounted {junk : Bytes} {files : List Mkfs.HostFile} {img : Mkfs.Image}
    (h : Mkfs.main junk files = some img) : ∃ s, Mounted img s := by
  obtain ⟨_, s, hs, -⟩ := (fsInit_sat h).returns
  exact ⟨s, hs⟩

theorem Mounted.boot {junk : Bytes} {files : List Mkfs.HostFile} {img : Mkfs.Image} {s : State}
    (hm : Mounted img s) (h : Mkfs.main junk files = some img) :
    s.toCore = bootCore img ∧ Clean [] s :=
  (fsInit_sat h).of_ok hm

/-- Mount an image and perform the operations of a list. -/
def mountRun {ι : Type} (ok : ι → State → Bool) (f : ι → FsM Unit) (img : Mkfs.Image)
    (ops : List ι) : Option State :=
  match (fsInit (powerOn img)).1 with
  | .ok (_, s) => tryAll ok f ops s
  | .error _ => none

/-- Build an image, mount it and perform the operations of a list. -/
def bootRun {ι : Type} (ok : ι → State → Bool) (f : ι → FsM Unit) (files : List Mkfs.HostFile)
    (ops : List ι) : Option State := do
  mountRun ok f (← Mkfs.main (fun _ => 0) files) ops

theorem reach_of_bootRun {ι : Type} {ok : ι → State → Bool} {f : ι → FsM Unit}
    {files : List Mkfs.HostFile} {ops : List ι} {may : ι → State → Prop} {s : State}
    (hok : ∀ i s, ok i s = true → may i s) (h : bootRun ok f files ops = some s) :
    ∃ img s₀, Mkfs.main (fun _ => 0) files = some img ∧ Mounted img s₀ ∧ Reach may f s₀ s := by
  simp only [bootRun, Option.bind_eq_bind, Option.bind_eq_some_iff] at h
  obtain ⟨img, himg, h⟩ := h
  unfold mountRun at h
  split at h
  · next s₀ hs₀ => exact ⟨img, s₀, himg, hs₀, reach_of_tryAll hok ops h⟩
  · cases h

/-- What an evaluated run satisfies. -/
theorem exists_of_any {α : Type} {o : Option α} {p : α → Bool} (h : o.any p = true) :
    ∃ a, o = some a ∧ p a = true := by
  cases o with
  | none => cases h
  | some a => exact ⟨a, rfl, h⟩

end WhuOs.Fs
