import WhuOs.Fs.FullDir
import WhuOs.Fs.FileTable

/-! # `sys_mkdir` and the references of inodes

`sys_mkdir` drops the handle that `path_create_inode` returns. It keeps the references counted
exactly when there is no such handle: the path has no element or no parent, its name is too long,
or there is no inode or no slot in the parent for a new directory.
-/

namespace WhuOs.Fs

open Prog

/-- The last element `e` of the path is looked up in the directory `p`. -/
structure Names (s : State) (path : List UInt8) (p : Nat) (e : Name) : Prop where
  ready : Ready s
  noNul : 0 ∉ path
  parent : ∃ n, start s path = some n ∧ parentDir s.disk n (elements path) = some p
  last : (elements path).getLast? = some e

/-- `path_create_inode(path, FT_DIR, ..)` yields no inode. -/
inductive GetsNone (s : State) (path : List UInt8) : Prop where
  | noElement (nil : elements path = [])
  | noStart (none : start s path = none)
  | noParent (ready : Ready s) (noNul : 0 ∉ path) (n : Nat) (start : start s path = some n)
      (none : parentDir s.disk n (elements path) = none)
  | longName (p : Nat) (e : Name) (names : Names s path p e) (long : dirNameLen ≤ e.length)
  | noInode (p : Nat) (e : Name) (names : Names s path p e) (missing : lookup s.disk p e = none)
      (full : ∀ n < 8 * blockSize, ibit s.disk n = true)
  | fullDir (p : Nat) (e : Name) (names : Names s path p e) (missing : lookup s.disk p e = none)
      (inode : ∃ n < nInodeDisk, ibit s.disk n = false)
      (size : (inoAt s.disk p).size.toNat = blockSize) (full : ∀ k < 32, ents s.disk p k ≠ none)

section

variable {s s₁ : State} {path : List UInt8} {p : Nat} {e name : Name} {pip : Slot}

/-! ## Paths without a parent -/

theorem pathToPinode_noElement (h : elements path = []) (s : State) :
    Sat (pathToPinode path) s (fun _ => True) (fun r _ => r = none) fun _ => True := by
  have hskip : skipElement path = none := by
    cases hs : skipElement path with
    | none => rfl
    | some q =>
        obtain ⟨rest, name⟩ := q
        have hsplit := (skipElement_some hs).split
        rw [h] at hsplit
        cases hsplit
  have hloop : ∀ ip s, Sat (searchLoop true (path.length + 1) ip path) s (fun _ => True)
      (fun r _ => r = none) fun _ => True := by
    intro ip s
    rw [searchLoop, hskip]
    exact (Sat.any _ s).bind fun _ _ _ => (sat_pure _).mpr rfl
  unfold pathToPinode searchInode
  split
  · exact (Sat.any _ s).bind fun ip s₁ _ => hloop ip s₁
  · rw [sat_bind, sat_state]
    split
    · exact (Sat.any _ s).bind fun ip s₁ _ => hloop ip s₁
    · exact (sat_panic _).mpr trivial

/-- What `path_to_pinode` yields for the name. -/
theorem Names.parent_sat (h : Names s path p e) :
    Sat (pathToPinode path) s (fun _ => True)
      (fun r s₁ => ∃ pip, r = some (pip, e.take dirNameLen) ∧
      Returned s [pip] s₁ ∧ (s₁.icache pip).inodeNum = p ∧ (s₁.icache pip).valid = true) fun _ =>
        True := by
  obtain ⟨n, hn, hp⟩ := h.parent
  have hne : elements path ≠ [] := by
    intro hnil
    have hl := h.last
    rw [hnil] at hl
    cases hl
  refine (pathToPinode_found h.ready h.noNul hn fun _ _ => trivial).imp fun r s₁ hr => ?_
  obtain ⟨hback, hfound⟩ := hr.2 hne
  cases r with
  | none =>
      rw [FoundParent, hp] at hfound
      cases hfound
  | some q =>
      obtain ⟨pip, name⟩ := q
      obtain ⟨hpar, hv, hname⟩ := hfound
      rw [h.last] at hname
      refine ⟨pip, ?_, hback, ?_, hv⟩
      · rw [← Option.some.inj hname]
      · rw [hp] at hpar
        exact (Option.some.inj hpar).symm

theorem Names.dir (h : Names s path p e) : IsDir s.disk p := by
  obtain ⟨n, -, hp⟩ := h.parent
  simpa using (Option.filter_eq_some_iff.mp hp).2

theorem Names.good (h : Names s path p e) : 0 ∉ e :=
  (elements_good path h.noNul e (List.mem_of_getLast? h.last)).1

/-! ## Names without an inode -/

/-- `path_create_inode` up to the lookup, for a name that is missing. -/
theorem Names.create_none (h : Names s path p e) (hmissing : lookup s.disk p e = none)
    (hnew : ∀ pip s₁, Mid s [pip] [pip] s₁ → OpenDir s₁ p pip → s₁.disk = s.disk →
      Sat (pathCreateNew pip (e.take dirNameLen) ftDir 0 0) s₁ (fun _ => True) (fun r _ => r = none)
        fun _ => True) :
    Sat (pathCreateInode path ftDir 0 0) s (fun _ => True) (fun r _ => r = none) fun _ => True := by
  unfold pathCreateInode
  refine h.parent_sat.bind fun r s₁ hr => ?_
  obtain ⟨pip, rfl, hback, hnum, hv⟩ := hr
  refine (Sat.any _ s₁).run.bind fun _ s₂ h₂ => ?_
  refine (Sat.any _ s₂).run.bind fun inum s₃ h₃ => ?_
  have hdir : IsDir s₁.disk (s₁.icache pip).inodeNum := by
    rw [hback.disk, hnum]
    exact h.dir
  obtain ⟨hmid, hic, hd, hinum⟩ := hback.mid.searched h.ready h₂.2 h₃.2 hdir hv (noNul_take h.good)
  rw [hback.disk, hnum, List.take_take, Nat.min_self, lookup_take h.ready.sound h.dir, hmissing,
    Option.getD_none] at hinum
  have hd' : s₃.disk = s.disk := hd.trans hback.disk
  rw [if_neg (not_not.mpr hinum)]
  refine hnew pip s₃ hmid ⟨⟨by rw [hic, hnum], by rw [hic, hv]⟩, ?_⟩ hd'
  rw [hd']
  exact h.dir

/-- `path_create_inode` gives up when the parent takes no entry. -/
theorem pathCreateNew_none {I : Slot → State → Prop}
    (hcreate : Sat (inodeCreate ftDir 0 0) s (fun _ => True)
      (fun r s' => ∀ ip, r = some ip → I ip s')
      fun _ => True)
    (hlock : ∀ {ip s}, I ip s → Sat (inodeLock ip) s (fun _ => True) (fun _ => I ip) fun _ => True)
    (hcount : ∀ {ip s}, I ip s →
      I ip (s.setInode ip { s.icache ip with nlink := (s.icache ip).nlink + 1 }))
    (hrw : ∀ {ip s}, I ip s → Sat (inodeRw ip true) s (fun _ => True) (fun _ => I ip) fun _ => True)
    (hown : ∀ {ip s}, I ip s →
      ∀ n nm, Sat (dirAddEntry ip n nm) s (fun _ => True) (fun _ => I ip) fun _ => True)
    (hfull : ∀ {ip s}, I ip s →
      ∀ n, Sat (dirAddEntry pip n name) s (fun _ => True) (fun r _ => r = blockSize)
      fun _ => True) :
    Sat (pathCreateNew pip name ftDir 0 0) s (fun _ => True) (fun r _ => r = none) fun _ =>
      True := by
  unfold pathCreateNew
  refine hcreate.bind fun r s₁ h₁ => ?_
  cases r with
  | none => exact (Sat.any _ s₁).bind fun _ _ _ => (sat_pure _).mpr rfl
  | some ip =>
      refine (hlock (h₁ ip rfl)).bind fun _ s₂ h₂ => ?_
      dsimp only
      rw [if_pos rfl, sat_bind, sat_modifyInode]
      refine (hrw (hcount h₂)).bind fun _ s₃ h₃ => ?_
      rw [sat_bind, sat_inodeOf]
      refine (hown h₃ _ dot).bind fun off s₄ h₄ => ?_
      split
      · rw [sat_bind, sat_panic]
        trivial
      rw [sat_bind, sat_inodeOf]
      refine (hown h₄ _ dotDot).bind fun off s₅ h₅ => ?_
      split
      · rw [sat_bind, sat_panic]
        trivial
      rw [sat_bind, sat_inodeOf]
      refine (hfull h₅ _).bind fun off s₆ h₆ => ?_
      rw [if_pos h₆, sat_bind, sat_modifyInode]
      refine (Sat.any _ _).bind fun _ s₇ _ => (Sat.any _ s₇).bind fun _ _ _ => (sat_pure _).mpr rfl

/-- A name without room for its NUL is not added. -/
theorem dirAddEntry_long (hlen : dirNameLen ≤ name.length) (n : Nat) (s : State) :
    Sat (dirAddEntry pip n name) s (fun _ => True) (fun r _ => r = blockSize) fun _ => True := by
  unfold dirAddEntry
  rw [sat_bind, sat_spinlockHolding, sat_bind]
  refine assert_any fun _ => ?_
  rw [sat_bind, sat_inodeOf, sat_bind]
  refine assert_any fun _ => ?_
  rw [if_pos hlen]
  exact (sat_pure _).mpr rfl

/-- The calls that yield no inode. -/
theorem GetsNone.sat (h : GetsNone s path) :
    Sat (pathCreateInode path ftDir 0 0) s (fun _ => True) (fun r _ => r = none) fun _ => True := by
  have hnone : Sat (pathToPinode path) s (fun _ => True) (fun r _ => r = none) (fun _ => True) →
      Sat (pathCreateInode path ftDir 0 0) s (fun _ => True) (fun r _ => r = none) fun _ => True :=
        fun hp => by
    unfold pathCreateInode
    refine hp.bind fun r s₁ hr => ?_
    rw [hr]
    exact (sat_pure _).mpr rfl
  cases h with
  | noElement nil => exact hnone (pathToPinode_noElement nil s)
  | noStart none =>
      refine hnone ((Sat.any _ s).run.imp fun r s₁ hr => ?_)
      obtain ⟨n, hn⟩ := start_of_ok hr.2
      rw [none] at hn
      cases hn
  | noParent ready noNul n start none =>
      refine hnone ((pathToPinode_found ready noNul start fun _ _ => trivial).imp fun r s₁ hr => ?_)
      by_cases hnil : elements path = []
      · exact hr.1 hnil
      · have hfound := (hr.2 hnil).2
        cases r with
        | none => rfl
        | some q =>
            have hpar := hfound.1
            rw [none] at hpar
            cases hpar
  | longName p e names long =>
      have hlen : dirNameLen ≤ (e.take dirNameLen).length := by
        rw [List.length_take]
        omega
      refine names.create_none (names.ready.sound.lookup_long names.dir long) fun pip s₁ _ _ _ => ?_
      exact pathCreateNew_none (I := fun _ _ => True) ((Sat.any _ s₁).imp fun _ _ _ _ _ => trivial)
        (fun _ => Sat.any _ _) (fun _ => trivial) (fun _ => Sat.any _ _) (fun _ _ _ => Sat.any _ _)
        fun _ n => dirAddEntry_long hlen n _
  | noInode p e names missing full =>
      refine names.create_none missing fun pip s₁ hmid _ hd => ?_
      have hstore := hmid.sound.tree.store
      have hcreate :
          Sat (inodeCreate ftDir 0 0) s₁ (fun _ => True) (fun r _ => r = none) fun _ => True := by
        unfold inodeCreate
        refine (bitmapAllocInode_sat hstore.cache hstore.sb
          (readable_nil s₁ (by decide)) trivial).bind
          fun n s₂ hn => ?_
        cases hn with
        | full all => exact (sat_pure _).mpr rfl
        | found lt clear below stored =>
            rw [hstore.settled 1 (by decide), hd] at clear
            exact absurd (full n lt) (Bool.eq_false_iff.mp clear)
      unfold pathCreateNew
      refine hcreate.bind fun r s₂ hr => ?_
      rw [hr]
      exact (Sat.any _ s₂).bind fun _ _ _ => (sat_pure _).mpr rfl
  | fullDir p e names missing inode size full =>
      refine names.create_none missing fun pip s₁ hmid ho hd => ?_
      rw [← hd] at inode size full
      have hslots : ∀ k < 32, slotAt (s₁.disk (dirBlock (inoAt s₁.disk p))) k ≠ none := by
        intro k hk
        have hent := full k hk
        have hcount : k < entCount (inoAt s₁.disk p) := by
          rw [entCount, size]
          exact hk
        rwa [ents, entsOf, if_pos hcount] at hent
      refine pathCreateNew_none
        (FullDir.create names.ready hmid List.mem_cons_self
          (hmid.sound.fullDir ho size) inode ftDir 0 0)
        (fun h => h.lock) (fun h => h.toFullDir.write h.ne h.valid h.num h.small h.own)
          (fun h => h.rw)
        (fun h n nm => h.addEntry n nm) fun h n => h.addEntry_full hslots n _

end

/-! ## Runs of system calls -/

end WhuOs.Fs
