import WhuOs.Fs.Icache

/-! # References and locks of the path layer

`Holds b H L s`: since the state `b` the running call has taken the handles `H` and
the inode locks `L`, and nothing else changed in the references, the locks and the
working directory. Every path function gives back what it takes, except for the
handle it returns, whatever is on disk. The argument is made once for every
predicate that follows the calls on handles (`Rules`).
-/

namespace WhuOs.Fs

open Prog

structure Holds (b : State) (H L : List Slot) (s : State) : Prop where
  ref : ∀ j, (s.icache j).ref = (b.icache j).ref + H.count j
  lock : ∀ j, s.locks (.inode j) = (b.locks (.inode j) || decide (j ∈ L))
  free : ∀ j ∈ L, b.locks (.inode j) = false
  nodup : L.Nodup
  icache : s.locks .icache = b.locks .icache
  cwd : s.cwd = b.cwd

section

variable {b s s' : State} {H L : List Slot} {ip : Slot}

theorem holds_refl (b : State) : Holds b [] [] b :=
  ⟨by simp, by simp, by simp, List.nodup_nil, rfl, rfl⟩

theorem Holds.keep (h : Holds b H L s) (hk : holding s' = holding s) : Holds b H L s' := by
  have hs := slots_of_holding hk
  have hl : ∀ j, s'.locks (.inode j) = s.locks (.inode j) := fun j =>
    congrFun (congrArg (fun h => h.2.1) hk) j
  refine ⟨fun j => ?_, fun j => (hl j).trans (h.lock j), h.free, h.nodup, ?_, ?_⟩
  · rw [← h.ref j]
    exact congrArg Prod.snd (congrFun hs j)
  · rw [← h.icache]
    exact congrArg (fun h => h.2.2.1) hk
  · rw [← h.cwd]
    exact congrArg (fun h => h.2.2.2) hk

/-- Other references on one entry. -/
theorem Holds.setRef {H' : List Slot} {v : Nat × Nat} (h : Holds b H L s)
    (hk : holding s' = withSlot s ip v) (hv : v.2 = (b.icache ip).ref + H'.count ip)
    (hH : ∀ j, j ≠ ip → H'.count j = H.count j) : Holds b H' L s' := by
  have hs : slots s' = Function.update (slots s) ip v := congrArg Prod.fst hk
  have hl : ∀ j, s'.locks (.inode j) = s.locks (.inode j) := fun j =>
    congrFun (congrArg (fun h => h.2.1) hk) j
  refine ⟨fun j => ?_, fun j => (hl j).trans (h.lock j), h.free, h.nodup, ?_, ?_⟩
  · have hj : slots s' j = Function.update (slots s) ip v j := congrFun hs j
    by_cases hji : j = ip
    · subst hji
      rw [Function.update_self] at hj
      rw [← hv, ← hj]
      rfl
    · rw [Function.update_of_ne hji] at hj
      rw [hH j hji, ← h.ref j]
      exact congrArg Prod.snd hj
  · rw [← h.icache]
    exact congrArg (fun h => h.2.2.1) hk
  · rw [← h.cwd]
    exact congrArg (fun h => h.2.2.2) hk

/-! ## Calls on handles -/

theorem Holds.take {n : Nat} (h : Holds b H L s) (ha : AllocPost (· + 1) s n ip s') :
    Holds b (ip :: H) L s' := by
  refine h.setRef ha.holding ?_ fun j hj => List.count_cons_of_ne (Ne.symm hj)
  rw [List.count_cons_self, ← Nat.add_assoc, ← h.ref ip]
  rfl

theorem Holds.alloc (h : Holds b H L s) (n : Nat) :
    Sat (inodeAlloc n) s (fun _ => True) (fun ip => Holds b (ip :: H) L) fun _ => True :=
  (inodeAlloc_any n s).imp fun _ _ ha => h.take ha

theorem Holds.dup (h : Holds b H L s) (ip : Slot) :
    Sat (inodeDup ip) s (fun _ => True) (fun r => Holds b (r :: H) L) fun _ => True := by
  refine (inodeDup_any ip s).imp fun r s' hd => ?_
  obtain ⟨rfl, hd⟩ := hd
  exact h.take ⟨hd, Or.inl rfl⟩

theorem Holds.create (h : Holds b H L s) (type major minor : UInt16) :
    Sat (inodeCreate type major minor) s (fun _ => True)
      (fun r => Holds b (r.toList ++ H) L) fun _ => True := by
  refine (inodeCreate_any type major minor s).imp fun r s' hc => ?_
  cases r with
  | none => exact h.keep hc
  | some ip =>
      obtain ⟨n, -, ha⟩ := hc
      exact h.take ha

theorem Holds.release {H' : List Slot} (h : Holds b H L s) (hp : H.Perm (ip :: H')) :
    Sat (inodeFree ip) s (fun _ => True) (fun _ => Holds b H' L) fun _ => True := by
  refine (inodeFree_any ip s).imp fun _ s' hf => ?_
  obtain ⟨num, hf, -⟩ := hf
  refine h.setRef hf ?_ fun j hj => ?_
  · have href : (slots s ip).2 = (b.icache ip).ref + H.count ip := h.ref ip
    rw [hp.count_eq, List.count_cons_self] at href
    dsimp only
    omega
  · rw [hp.count_eq, List.count_cons_of_ne (Ne.symm hj)]

theorem Holds.lockIt (h : Holds b H L s) (ip : Slot) :
    Sat (inodeLock ip) s (fun _ => True) (fun _ => Holds b H (ip :: L)) fun _ => True := by
  refine (inodeLock_any ip s).imp fun _ s' hl => ?_
  obtain ⟨hfree, hk⟩ := hl
  have hbase := (h.lock ip).symm.trans hfree
  rw [Bool.or_eq_false_iff, decide_eq_false_iff_not] at hbase
  have hlock : ∀ j, s'.locks (.inode j) =
      Function.update (fun j => s.locks (.inode j)) ip true j := fun j =>
    congrFun (congrArg (fun h => h.2.1) hk) j
  refine ⟨fun j => ?_, fun j => ?_, fun j hj => ?_, List.nodup_cons.mpr ⟨hbase.2, h.nodup⟩, ?_, ?_⟩
  · rw [← h.ref j]
    exact congrArg Prod.snd (congrFun (congrArg Prod.fst hk) j)
  · rw [hlock j]
    by_cases hj : j = ip
    · simp [hj]
    · rw [Function.update_of_ne hj, h.lock j]
      simp [hj]
  · rcases List.mem_cons.mp hj with rfl | hj
    · exact hbase.1
    · exact h.free j hj
  · rw [← h.icache]
    exact congrArg (fun h => h.2.2.1) hk
  · rw [← h.cwd]
    exact congrArg (fun h => h.2.2.2) hk

theorem Holds.unlockIt {L' : List Slot} (h : Holds b H L s) (hp : L.Perm (ip :: L')) :
    Sat (inodeUnlock ip) s (fun _ => True) (fun _ => Holds b H L') fun _ => True := by
  refine (inodeUnlock_any ip s).imp fun _ s' hl => ?_
  obtain ⟨-, hk⟩ := hl
  have hlock : ∀ j, s'.locks (.inode j) =
      Function.update (fun j => s.locks (.inode j)) ip false j := fun j =>
    congrFun (congrArg (fun h => h.2.1) hk) j
  have hnd := List.nodup_cons.mp (hp.nodup_iff.mp h.nodup)
  have hmem : ∀ j, j ∈ L ↔ j = ip ∨ j ∈ L' := fun j => by rw [hp.mem_iff, List.mem_cons]
  refine ⟨fun j => ?_, fun j => ?_, fun j hj => h.free j ((hmem j).mpr (Or.inr hj)), hnd.2, ?_, ?_⟩
  · rw [← h.ref j]
    exact congrArg Prod.snd (congrFun (congrArg Prod.fst hk) j)
  · rw [hlock j]
    by_cases hj : j = ip
    · rw [hj, Function.update_self, h.free ip ((hmem ip).mpr (Or.inl rfl))]
      simp [hnd.1]
    · rw [Function.update_of_ne hj, h.lock j]
      simp only [hmem, hj, false_or]
  · rw [← h.icache]
    exact congrArg (fun h => h.2.2.1) hk
  · rw [← h.cwd]
    exact congrArg (fun h => h.2.2.2) hk

/-! ## Paths -/

/-- What the calls on handles do to a predicate on states `R H L`, where `H` are the handles and `L`
the inode locks that the running call holds. Where `E` forbids the double acquire, a lock in `L`
is not acquired. -/
structure Rules (E : Panic → Prop) (R : List Slot → List Slot → State → Prop) : Prop where
  once : ∀ {e}, Once e → E e
  keep : ∀ {H L s s'}, R H L s → bare s' = bare s → R H L s'
  alloc : ∀ {H L s}, R H L s → ∀ n,
    Sat (inodeAlloc n) s (fun _ => True) (fun ip => R (ip :: H) L) E
  dup : ∀ {H L s}, R H L s → ∀ ip,
    Sat (inodeDup ip) s (fun _ => True) (fun r => R (r :: H) L) E
  release : ∀ {H H' L s ip}, R H L s → H.Perm (ip :: H') → (¬ E .doubleAcquireInode → ip ∉ L) →
    Sat (inodeFree ip) s (fun _ => True) (fun _ => R H' L) E
  lock : ∀ {H L s}, R H L s → ∀ ip, (¬ E .doubleAcquireInode → ip ∉ L) →
    Sat (inodeLock ip) s (fun _ => True) (fun _ => R H (ip :: L)) E
  unlock : ∀ {H L L' s ip}, R H L s → L.Perm (ip :: L') →
    Sat (inodeUnlock ip) s (fun _ => True) (fun _ => R H L') E
  recount : ∀ {H L s}, R H L s → ∀ ip nlink,
    R H L (s.setInode ip { s.icache ip with nlink := nlink })
  addEntry : ∀ {H L s}, R H L s → ∀ pip n name,
    Sat (dirAddEntry pip n name) s (fun _ => True) (fun _ => R H L) E
  deleteEntry : ∀ {H L s}, R H L s → ∀ pip name,
    Sat (dirDeleteEntry pip name) s (fun _ => True) (fun _ => R H L) E

def handles (r : Option (Slot × Name)) : List Slot := (r.map Prod.fst).toList

section

variable {E : Panic → Prop} {R : List Slot → List Slot → State → Prop}

theorem Rules.keeps {α : Type} {m : FsM α} (hR : Rules E R) (h : R H L s) (hm : Leaves bare m) :
    Sat m s (fun _ => True) (fun _ => R H L) E :=
  (hm s).mono (fun _ _ hk => hR.keep h hk) fun _ he => hR.once he

theorem apart_nil {p : Prop} (ip : Slot) : p → ip ∉ ([] : List Slot) := fun _ => List.not_mem_nil

theorem Rules.unlockFree {H' L' : List Slot} (hR : Rules E R) (h : R H L s) (hH : H.Perm (ip :: H'))
    (hL : L.Perm (ip :: L')) (hip : ¬ E .doubleAcquireInode → ip ∉ L') :
    Sat (inodeUnlockFree ip) s (fun _ => True) (fun _ => R H' L') E :=
  (hR.unlock h hL).bind fun _ _ h' => hR.release h' hH hip

/-- The last lock is released with its handle. -/
theorem Rules.leave (hR : Rules E R) (h : R (ip :: H) [ip] s) :
    Sat (inodeUnlockFree ip) s (fun _ => True) (fun _ => R H []) E :=
  hR.unlockFree h (.refl _) (.refl _) (apart_nil ip)

/-- A new link count, in memory and on disk. -/
theorem Rules.setNlink {α : Type} {k : FsM α} {Q : α → State → Prop} (hR : Rules E R) (h : R H L s)
    (f : UInt16 → UInt16)
    (hk : ∀ s', R H L s' → Sat k s' (fun _ => True) Q E) :
    Sat (do modifyInode ip fun x => { x with nlink := f x.nlink }
            inodeRw ip true
            k) s (fun _ => True) Q E := by
  rw [sat_bind, sat_modifyInode]
  exact (hR.keeps (hR.recount h ip _) (keeps_bare (inodeRw_write_keeps ip))).bind fun _ => hk

theorem Rules.searchLoop (hR : Rules E R) (findParent : Bool) (fuel : Nat) {path : List UInt8}
    (h : R (ip :: H) [] s) :
    Sat (searchLoop findParent fuel ip path) s (fun _ => True)
      (fun r => R (handles r ++ H) []) E := by
  induction fuel generalizing ip path s with
  | zero => exact (sat_panic _).mpr (hR.once (by decide))
  | succ fuel ih =>
      unfold Fs.searchLoop
      split
      · split
        · exact (hR.release h (.refl _) (apart_nil ip)).bind fun _ s' h' => (sat_pure _).mpr h'
        · exact (sat_pure _).mpr h
      · next path name _ =>
        refine (hR.lock h ip (apart_nil ip)).bind fun _ s₁ h₁ => ?_
        rw [sat_bind, sat_inodeOf]
        split
        · exact (hR.leave h₁).bind fun _ s' h' => (sat_pure _).mpr h'
        split
        · exact (hR.unlock h₁ (.refl _)).bind fun _ s' h' => (sat_pure _).mpr h'
        refine (hR.keeps h₁ (dirSearchEntry_keeps ip name)).bind fun inum s₂ h₂ => ?_
        split
        · exact (hR.leave h₂).bind fun _ s' h' => (sat_pure _).mpr h'
        refine (hR.unlock h₂ (.refl _)).bind fun _ s₃ h₃ => ?_
        refine (hR.alloc h₃ inum).bind fun next s₄ h₄ => ?_
        refine (hR.release h₄ (List.Perm.swap _ _ _) (apart_nil ip)).bind fun _ s₅ h₅ => ?_
        exact ih h₅

theorem Rules.searchInode (hR : Rules E R) (h : R H [] s) (path : List UInt8) (findParent : Bool) :
    Sat (searchInode path findParent) s (fun _ => True) (fun r => R (handles r ++ H) []) E := by
  unfold Fs.searchInode
  split
  · exact (hR.alloc h inodeRoot).bind fun ip s₁ h₁ => hR.searchLoop findParent _ h₁
  · simp only [sat_bind, sat_state]
    split
    · exact (hR.dup h _).bind fun ip s₁ h₁ => hR.searchLoop findParent _ h₁
    · exact (sat_panic _).mpr (hR.once (by decide))

theorem Rules.pathToInode (hR : Rules E R) (h : R H [] s) (path : List UInt8) :
    Sat (pathToInode path) s (fun _ => True) (fun r => R (r.toList ++ H) []) E := by
  unfold Fs.pathToInode
  refine (hR.searchInode h path false).bind fun r s' h' => ?_
  exact (sat_pure _).mpr h'

theorem Rules.pathToPinode (hR : Rules E R) (h : R H [] s) (path : List UInt8) :
    Sat (pathToPinode path) s (fun _ => True) (fun r => R (handles r ++ H) []) E :=
  hR.searchInode h path true

theorem Rules.pathCreateNew {pip : Slot} (hR : Rules E R) (name : Name) (type major minor : UInt16)
    (hcreate : Sat (inodeCreate type major minor) s (fun _ => True) (fun r s' =>
      R (r.toList ++ pip :: H) [pip] s' ∧ ∀ ip, r = some ip →
      ¬ E .doubleAcquireInode → ip ≠ pip) E) :
    Sat (pathCreateNew pip name type major minor) s (fun _ => True)
      (fun r => R (r.toList ++ H) []) E := by
  unfold Fs.pathCreateNew
  refine hcreate.bind fun r s₁ h₁ => ?_
  obtain ⟨h₁, hne⟩ := h₁
  cases r with
  | none => exact (hR.leave h₁).bind fun _ s' h' => (sat_pure _).mpr h'
  | some ip =>
      have hip : ¬ E .doubleAcquireInode → ip ∉ [pip] := fun hE => by simpa using hne ip rfl hE
      have hpip : ¬ E .doubleAcquireInode → pip ∉ [ip] :=
        fun hE => by simpa using (hne ip rfl hE).symm
      refine (hR.lock h₁ ip hip).bind fun _ s₂ h₂ => ?_
      have hfail : ∀ s₃, R (ip :: pip :: H) [ip, pip] s₃ → Sat (do
          Fs.modifyInode ip fun x => { x with nlink := 0 }
          inodeUnlockFree ip
          inodeUnlockFree pip
          return none) s₃ (fun _ => True) (fun r => R (r.toList ++ H) []) E := by
        intro s₃ h₃
        rw [sat_bind, sat_modifyInode]
        refine (hR.unlockFree (hR.recount h₃ ip 0) (.refl _) (.refl _) hip).bind fun _ s₅ h₅ => ?_
        exact (hR.leave h₅).bind fun _ s' h' => (sat_pure _).mpr h'
      have hend : ∀ s₃, R (ip :: pip :: H) [ip, pip] s₃ → Sat (do
          inodeUnlockFree pip
          inodeUnlock ip
          return some ip) s₃ (fun _ => True) (fun r => R (r.toList ++ H) []) E := by
        intro s₃ h₃
        refine (hR.unlockFree h₃ (List.Perm.swap _ _ _) (List.Perm.swap _ _ _) hpip).bind
          fun _ s₄ h₄ => ?_
        exact (hR.unlock h₄ (.refl _)).bind fun _ s' h' => (sat_pure _).mpr h'
      dsimp only
      split
      · refine hR.setNlink h₂ (· + 1) fun s₄ h₄ => ?_
        rw [sat_bind, sat_inodeOf]
        refine (hR.addEntry h₄ ip _ dot).bind fun off s₅ h₅ => ?_
        split
        · exact (sat_panic _).mpr (hR.once (by decide))
        rw [sat_bind, sat_inodeOf]
        refine (hR.addEntry h₅ ip _ dotDot).bind fun off s₆ h₆ => ?_
        split
        · exact (sat_panic _).mpr (hR.once (by decide))
        rw [sat_bind, sat_inodeOf]
        refine (hR.addEntry h₆ pip _ name).bind fun off s₇ h₇ => ?_
        split
        · exact hfail s₇ h₇
        exact hR.setNlink h₇ (· + 1) hend
      · rw [sat_bind, sat_inodeOf]
        refine (hR.addEntry h₂ pip _ name).bind fun off s₃ h₃ => ?_
        split
        · exact hfail s₃ h₃
        · exact hend s₃ h₃

/-- `path_create_inode`, given what `inode_create` does where it is called. -/
theorem Rules.pathCreateInode (hR : Rules E R) (h : R H [] s) (path : List UInt8)
    (type major minor : UInt16)
    (hcreate : ∀ pip name s₁ s₂ s₃, (Fs.pathToPinode path s).1 = .ok (some (pip, name), s₁) →
      (inodeLock pip s₁).1 = .ok ((), s₂) →
      (dirSearchEntry pip name s₂).1 = .ok (inodeNumUnused, s₃) → R (pip :: H) [pip] s₃ →
      Sat (inodeCreate type major minor) s₃ (fun _ => True) (fun r s' =>
        R (r.toList ++ pip :: H) [pip] s' ∧ ∀ ip, r = some ip →
        ¬ E .doubleAcquireInode → ip ≠ pip) E) :
    Sat (pathCreateInode path type major minor) s (fun _ => True)
      (fun r => R (r.toList ++ H) []) E := by
  unfold Fs.pathCreateInode
  refine (hR.pathToPinode h path).run.bind fun r s₁ h₁ => ?_
  obtain ⟨h₁, hpath⟩ := h₁
  split
  · exact (sat_pure _).mpr h₁
  · next pip name =>
    refine (hR.lock h₁ pip (apart_nil pip)).run.bind fun _ s₂ h₂ => ?_
    refine (hR.keeps h₂.1 (dirSearchEntry_keeps pip name)).run.bind fun inum s₃ h₃ => ?_
    split
    · refine (hR.unlock h₃.1 (.refl _)).bind fun _ s₄ h₄ => ?_
      refine (hR.release h₄ (.refl _) (apart_nil pip)).bind fun _ s₅ h₅ => ?_
      exact (hR.alloc h₅ inum).bind fun ip s' h' => (sat_pure _).mpr h'
    · next hinum =>
      obtain rfl := not_not.mp hinum
      exact hR.pathCreateNew name type major minor (hcreate pip name s₁ s₂ s₃ hpath h₂.2 h₃.2 h₃.1)

theorem Rules.pathLinkBad (hR : Rules E R) (h : R (ip :: H) [] s) :
    Sat (pathLinkBad ip) s (fun _ => True) (fun _ => R H []) E := by
  unfold Fs.pathLinkBad
  refine (hR.lock h ip (apart_nil ip)).bind fun _ s₁ h₁ => hR.setNlink h₁ (· - 1) fun s₃ h₃ => ?_
  exact (hR.leave h₃).bind fun _ s' h' => (sat_pure _).mpr h'

theorem Rules.pathLink (hR : Rules E R) (h : R H [] s) (oldPath newPath : List UInt8) :
    Sat (pathLink oldPath newPath) s (fun _ => True) (fun _ => R H []) E := by
  unfold Fs.pathLink
  refine (hR.pathToInode h oldPath).bind fun r s₁ h₁ => ?_
  split
  · exact (sat_pure _).mpr h₁
  · next ip =>
    refine (hR.lock h₁ ip (apart_nil ip)).bind fun _ s₂ h₂ => ?_
    rw [sat_bind, sat_inodeOf]
    split
    · exact (hR.leave h₂).bind fun _ s' h' => (sat_pure _).mpr h'
    refine hR.setNlink h₂ (· + 1) fun s₄ h₄ => ?_
    refine (hR.unlock h₄ (.refl _)).bind fun _ s₅ h₅ => ?_
    refine (hR.pathToPinode h₅ newPath).bind fun r s₆ h₆ => ?_
    split
    · exact hR.pathLinkBad h₆
    · next pip name =>
      refine (hR.lock h₆ pip (apart_nil pip)).bind fun _ s₇ h₇ => ?_
      rw [sat_bind, sat_inodeOf]
      refine (hR.addEntry h₇ pip _ name).bind fun off s₈ h₈ => ?_
      split
      · exact (hR.leave h₈).bind fun _ s₉ h₉ => hR.pathLinkBad h₉
      · refine (hR.leave h₈).bind fun _ s₉ h₉ => ?_
        exact (hR.release h₉ (.refl _) (apart_nil ip)).bind fun _ s' h' => (sat_pure _).mpr h'

theorem Rules.pathUnlinkEntry {pip : Slot} (hR : Rules E R)
    (h : R (ip :: pip :: H) [ip, pip] s)
    (hne : ¬ E .doubleAcquireInode → pip ∉ [ip]) (name : Name) :
    Sat (pathUnlinkEntry pip ip name) s (fun _ => True) (fun _ => R H []) E := by
  unfold Fs.pathUnlinkEntry
  refine (hR.deleteEntry h pip name).bind fun r s₁ h₁ => ?_
  split
  · exact (sat_panic _).mpr (hR.once (by decide))
  refine (hR.unlockFree h₁ (List.Perm.swap _ _ _) (List.Perm.swap _ _ _) hne).bind fun _ s₂ h₂ => ?_
  refine hR.setNlink h₂ (· - 1) fun s₄ h₄ => ?_
  exact (hR.leave h₄).bind fun _ s' h' => (sat_pure _).mpr h'

/-- `path_unlink`, given that no directory is named in itself. -/
theorem Rules.pathUnlink (hR : Rules E R) (h : R H [] s) (path : List UInt8)
    (hself : ∀ pip name inum ip s₁ s₂ s₃ s₄,
      (Fs.pathToPinode path s).1 = .ok (some (pip, name), s₁) →
      (inodeLock pip s₁).1 = .ok ((), s₂) →
      ¬ (strncmp (bytesOf name) (bytesOf dot) dirNameLen = 0 ∨
        strncmp (bytesOf name) (bytesOf dotDot) dirNameLen = 0) →
      (dirSearchEntry pip name s₂).1 = .ok (inum, s₃) → inum ≠ inodeNumUnused →
      (inodeAlloc inum s₃).1 = .ok (ip, s₄) → ¬ E .doubleAcquireInode → ip ≠ pip) :
    Sat (pathUnlink path) s (fun _ => True) (fun _ => R H []) E := by
  unfold Fs.pathUnlink
  refine (hR.pathToPinode h path).run.bind fun r s₁ h₁ => ?_
  obtain ⟨h₁, hpath⟩ := h₁
  split
  · exact (sat_pure _).mpr h₁
  · next pip name =>
    refine (hR.lock h₁ pip (apart_nil pip)).run.bind fun _ s₂ h₂ => ?_
    obtain ⟨h₂, hlock⟩ := h₂
    split
    · exact (hR.leave h₂).bind fun _ s' h' => (sat_pure _).mpr h'
    next hdots =>
    refine (hR.keeps h₂ (dirSearchEntry_keeps pip name)).run.bind fun inum s₃ h₃ => ?_
    split
    · exact (hR.leave h₃.1).bind fun _ s' h' => (sat_pure _).mpr h'
    next hinum =>
    refine (hR.alloc h₃.1 inum).run.bind fun ip s₄ h₄ => ?_
    have hne := hself pip name inum ip s₁ s₂ s₃ s₄ hpath hlock hdots h₃.2 hinum h₄.2
    have hip : ¬ E .doubleAcquireInode → ip ∉ [pip] := fun hE => by simpa using hne hE
    have hpip : ¬ E .doubleAcquireInode → pip ∉ [ip] := fun hE => by simpa using (hne hE).symm
    refine (hR.lock h₄.1 ip hip).bind fun _ s₅ h₅ => ?_
    rw [sat_bind, sat_inodeOf]
    split
    · refine (hR.keeps h₅ (checkUnlink_keeps ip)).bind fun ok s₆ h₆ => ?_
      split
      · refine (hR.unlockFree h₆ (.refl _) (.refl _) hip).bind fun _ s₇ h₇ => ?_
        exact (hR.leave h₇).bind fun _ s' h' => (sat_pure _).mpr h'
      · exact hR.setNlink h₆ (· - 1) fun s₈ h₈ => hR.pathUnlinkEntry h₈ hpip name
    · exact hR.pathUnlinkEntry h₅ hpip name

end

theorem Holds.keeps {α : Type} {m : FsM α} (h : Holds b H L s) (hm : Leaves holding m) :
    Sat m s (fun _ => True) (fun _ => Holds b H L) Once :=
  (hm s).imp fun _ _ hk => h.keep hk

theorem holds_rules (b : State) : Rules (fun _ => True) (Holds b) where
  once _ := trivial
  keep h hb := h.keep (congrArg (fun o => (fun j => ((o.1 j).inodeNum, (o.1 j).ref), o.2)) hb)
  alloc h n := h.alloc n
  dup h ip := h.dup ip
  release h hp _ := h.release hp
  lock h ip _ := h.lockIt ip
  unlock h hp := h.unlockIt hp
  recount h _ _ := h.keep ((holding_setInode _).trans (withSlot_self rfl))
  addEntry h pip n name :=
    (h.keeps (dirAddEntry_keeps pip n name)).mono (fun _ _ h' => h') fun _ _ => trivial
  deleteEntry h pip name :=
    (h.keeps (dirDeleteEntry_keeps pip name)).mono (fun _ _ h' => h') fun _ _ => trivial

theorem Holds.unlockFree {H' L' : List Slot} (h : Holds b H L s) (hH : H.Perm (ip :: H'))
    (hL : L.Perm (ip :: L')) :
    Sat (inodeUnlockFree ip) s (fun _ => True) (fun _ => Holds b H' L') fun _ => True :=
  (holds_rules b).unlockFree h hH hL fun hE => absurd trivial hE

theorem Holds.pathToInode (h : Holds b H [] s) (path : List UInt8) :
    Sat (pathToInode path) s (fun _ => True) (fun r => Holds b (r.toList ++ H) []) fun _ => True :=
  (holds_rules b).pathToInode h path

theorem Holds.pathCreateInode (h : Holds b H [] s) (path : List UInt8) (type major minor : UInt16) :
    Sat (pathCreateInode path type major minor) s (fun _ => True)
      (fun r => Holds b (r.toList ++ H) []) fun _ => True :=
  (holds_rules b).pathCreateInode h path type major minor fun _ _ _ _ _ _ _ _ h' =>
    (h'.create type major minor).imp fun _ _ hr => ⟨hr, fun _ _ hE => absurd trivial hE⟩

theorem Holds.pathLink (h : Holds b H [] s) (oldPath newPath : List UInt8) :
    Sat (pathLink oldPath newPath) s (fun _ => True) (fun _ => Holds b H []) fun _ => True :=
  (holds_rules b).pathLink h oldPath newPath

theorem Holds.pathUnlink (h : Holds b H [] s) (path : List UInt8) :
    Sat (pathUnlink path) s (fun _ => True) (fun _ => Holds b H []) fun _ => True :=
  (holds_rules b).pathUnlink h path fun _ _ _ _ _ _ _ _ _ _ _ _ _ _ hE => absurd trivial hE

/-! ## Calls that return -/

/-- Every inode lock and `lk_icache` is as before the call, and every reference count too, but for
one reference on the returned inode. -/
structure Balanced (b : State) (r : Option Slot) (s : State) : Prop where
  locks : ∀ j, s.locks (.inode j) = b.locks (.inode j)
  icache : s.locks .icache = b.locks .icache
  ref : ∀ j, (s.icache j).ref = (b.icache j).ref + if r = some j then 1 else 0

theorem Holds.balanced {r : Option Slot} (h : Holds b r.toList [] s) : Balanced b r s := by
  refine ⟨fun j => by simpa using h.lock j, h.icache, fun j => ?_⟩
  rw [h.ref j]
  cases r with
  | none => rfl
  | some ip =>
      by_cases hj : ip = j
      · simp [hj]
      · simp [hj, List.count_eq_zero.mpr, Ne.symm hj]

end

section

variable {s s' : State}

/-! ## The working directory -/

theorem inodeFree_ref (ip : Slot) (s : State) (hpos : 0 < (s.icache ip).ref) :
    Sat (inodeFree ip) s (fun _ => True) (fun _ s' => s'.cwd = s.cwd ∧
      ∀ j, (s'.icache j).ref + (if ip = j then 1 else 0) = (s.icache j).ref) fun _ => True := by
  refine (inodeFree_any ip s).imp fun _ s' hf => ?_
  obtain ⟨num, hf, -⟩ := hf
  refine ⟨congrArg (fun h => h.2.2.2) hf, fun j => ?_⟩
  have hj : slots s' j = Function.update (slots s) ip (num, (slots s ip).2 - 1) j :=
    congrFun (congrArg Prod.fst hf) j
  have href : (s'.icache j).ref = (slots s' j).2 := rfl
  by_cases hip : ip = j
  · subst hip
    rw [Function.update_self] at hj
    rw [if_pos rfl, href, hj]
    exact Nat.sub_add_cancel hpos
  · rw [Function.update_of_ne (Ne.symm hip)] at hj
    rw [if_neg hip, href, hj]
    rfl

/-- `dir_change` exchanges the handle of the working directory. -/
theorem dirChange_any (s : State) (path : List UInt8)
    (hcwd : ∀ c, s.cwd = some c → 0 < (s.icache c).ref) :
    Sat (dirChange path) s (fun _ => True) (fun _ s' => ∀ j,
      (s'.icache j).ref + (if s.cwd = some j then 1 else 0) =
        (s.icache j).ref + if s'.cwd = some j then 1 else 0) fun _ => True := by
  have hback : ∀ {s' : State}, Holds s [] [] s' → ∀ j,
      (s'.icache j).ref + (if s.cwd = some j then 1 else 0) =
        (s.icache j).ref + if s'.cwd = some j then 1 else 0 := by
    intro s' h j
    rw [h.ref j, h.cwd]
    rfl
  unfold dirChange
  refine ((holds_refl s).pathToInode path).bind fun r s₁ h₁ => ?_
  split
  · exact (sat_pure _).mpr (hback h₁)
  · next ip =>
    refine (h₁.lockIt ip).bind fun _ s₂ h₂ => ?_
    rw [sat_bind, sat_inodeOf]
    split
    · exact (h₂.unlockFree (.refl _) (.refl _)).bind fun _ s' h' => (sat_pure _).mpr (hback h')
    refine (h₂.unlockIt (.refl _)).bind fun _ s₃ h₃ => ?_
    have href : ∀ j, (s₃.icache j).ref = (s.icache j).ref + if ip = j then 1 else 0 := by
      intro j
      rw [h₃.ref j]
      by_cases hj : ip = j
      · simp [hj]
      · simp [hj, List.count_eq_zero.mpr, Ne.symm hj]
    rw [sat_bind, sat_state, h₃.cwd]
    split
    · next c hc =>
      have hpos : 0 < (s₃.icache c).ref := by
        have h0 := hcwd c hc
        rw [href c]
        omega
      refine (inodeFree_ref c s₃ hpos).bind fun _ s₄ h₄ => ?_
      rw [sat_bind, sat_modify, sat_pure]
      intro j
      have h4 := h₄.2 j
      rw [href j] at h4
      rw [hc]
      simpa using h4
    · next hc =>
      rw [sat_bind, sat_modify, sat_pure]
      intro j
      rw [hc]
      simpa using href j

end

end WhuOs.Fs
