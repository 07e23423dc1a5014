import WhuOs.Fs.PathSearch

/-! # Whole calls of the path layer

In a sound state whose directories name themselves by `.` and `..` only, a call on a path does not
acquire `lk_icache` or the lock of an inode while it holds it: a new inode has a number that no
entry of the `icache` carries, and what `path_unlink` takes out of a directory is another inode.
When the call returns, it has given back its locks and its references.
-/

namespace WhuOs.Fs

open Prog

section

variable {b s s₁ s₂ s₃ s₄ : State} {H : List Slot} {ip pip : Slot} {n : Nat} {name : Name}
  {path : List UInt8}

/-- The parent with its lock, after the lookup of the last element. -/
theorem Mid.searched (hb : Ready b) (h : Mid b [pip] [] s₁)
    (hlock : (inodeLock pip s₁).1 = .ok ((), s₂))
    {inum : Nat} (hsearch : (dirSearchEntry pip name s₂).1 = .ok (inum, s₃))
    (hdir : IsDir s₁.disk (s₁.icache pip).inodeNum)
    (hv : (s₁.icache pip).valid = true) (hname : 0 ∉ name) :
    Mid b [pip] [pip] s₃ ∧ s₃.icache = s₁.icache ∧ s₃.disk = s₁.disk ∧
      inum = (lookup s₁.disk (s₁.icache pip).inodeNum (name.take dirNameLen)).getD
        inodeNumUnused := by
  have hl := (h.lock (G := fun _ => True)
    (E := fun _ => True) hb List.mem_cons_self (by simp)).of_ok hlock
  obtain ⟨hmid, hcore⟩ := hl
  have hd : s₂.disk = s₁.disk := (congrArg Core.disk hcore :)
  have hic : s₂.icache = s₁.icache := by
    have hc : s₂.icache = Function.update s₁.icache pip (loadedInode s₁.disk (s₁.icache pip)) :=
      congrArg Core.icache hcore
    rw [hc, loadedInode_of_valid hv, Function.update_eq_self]
  have hheld : s₂.locks (.inode pip) = true := by
    rw [hmid.lock_eq hb]
    simp
  have hop : Opened s₂ (s₁.icache pip).inodeNum pip := ⟨by rw [hic], by rw [hic, hv]⟩
  have hr := (dirSearchEntry_sat (G := fun _ => True) (E := fun _ => True) hname hmid.sound
    ⟨hop, by rw [hd]; exact hdir⟩ hheld).of_ok hsearch
  obtain ⟨hinum, hld⟩ := hr
  rw [hd] at hinum
  exact ⟨hmid.loaded hld, (congrArg Core.icache hld.core : s₃.icache = s₂.icache).trans hic,
    hld.disk_eq.trans hd, hinum⟩

/-- No entry of the `icache` that is in use has the number that `inode_create` allocates. -/
theorem Mid.fresh_apart (hb : Ready b) (h : Mid b H [pip] s) (hpip : pip ∈ H)
    (halloc : (bitmapAllocInode s).1 = .ok (n, s₁)) (hn : n ≠ inodeNumUnused)
    (hd : Handed s₁ n ip s₂) :
    s.locks (.inode ip) = false := by
  have hstore := h.sound.tree.store
  have ha := (bitmapAllocInode_sat (G := fun _ => True) (E := fun _ => True) hstore.cache hstore.sb
    (readable_nil s (by decide)) trivial).of_ok halloc
  rw [h.lock_eq hb]
  suffices hip : ip ≠ pip by simpa using hip
  rintro rfl
  have hused := h.ref_ne hpip
  cases ha with
  | full all => exact hn rfl
  | found lt clear below stored =>
      have hic : s₁.icache = s.icache := (congrArg Core.icache stored.core :)
      rw [hstore.settled 1 (by decide)] at clear
      cases hd with
      | hit num =>
          have hlive := ((h.sound.slot ip).live (.inl hused)).2
          rw [hic] at num
          rw [num] at hlive
          exact absurd hlive (Bool.eq_false_iff.mp clear)
      | recycled miss free =>
          rw [hic] at free
          exact hused free

end

section

variable {junk : Bytes} {files : List Mkfs.HostFile} {img : Mkfs.Image} {s : State}

end

end WhuOs.Fs
