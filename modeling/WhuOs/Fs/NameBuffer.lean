import WhuOs.Fs.PathSearch
import WhuOs.Fs.InodeArea

/-! # The buffer for path elements

`skip_element` and the loop of `search_inode` with the 30 bytes of `name` written out. The
buffer is not cleared between elements, and an element of 30 characters or more fills it.
-/

namespace WhuOs.Fs

open Prog Bytes

/-- The buffer after `skip_element` has written an element to it. -/
def filledWith (name : Bytes) (e : Name) : Bytes :=
  if e.length ≥ dirNameLen then splice name 0 (bytesOf e) dirNameLen
  else Function.update (splice name 0 (bytesOf e) e.length) e.length 0

/-- `skip_element` with the bytes of `name` before and after it. -/
def skipElementIn (path : List UInt8) (name : Bytes) : Option (List UInt8 × Bytes) :=
  let s := path.dropWhile (· = slash)
  if s = [] then none
  else some ((s.dropWhile (· ≠ slash)).dropWhile (· = slash),
    filledWith name (s.takeWhile (· ≠ slash)))

def HasNul (name : Bytes) : Prop := ∃ i < dirNameLen, name i = 0

def bufName (name : Bytes) : Name := ((List.range dirNameLen).map name).takeWhile (· ≠ 0)

def searchLoopIn (findParent : Bool) : Nat → Slot → List UInt8 → Bytes → FsM (Option (Slot × Bytes))
  | 0, _, _, _ => panic .depth
  | fuel + 1, ip, path, name =>
      match skipElementIn path name with
      | none => do
          if findParent then
            inodeFree ip
            return none
          else return some (ip, name)
      | some (path, name) => do
          inodeLock ip
          if (← inodeOf ip).type ≠ ftDir then
            inodeUnlockFree ip
            return none
          if findParent ∧ path = [] then
            inodeUnlock ip
            return some (ip, name)
          let inum ← dirSearchEntry ip (bufName name)
          if inum = inodeNumUnused then
            inodeUnlockFree ip
            return none
          inodeUnlock ip
          let next ← inodeAlloc inum
          inodeFree ip
          searchLoopIn findParent fuel next path name

def searchInodeIn (path : List UInt8) (name : Bytes) (findParent : Bool) :
    FsM (Option (Slot × Bytes)) := do
  let ip ←
    if path.head? = some slash then inodeAlloc inodeRoot
    else
      match (← state).cwd with
      | some cwd => inodeDup cwd
      | none => panic .nullPointer
  searchLoopIn findParent (path.length + 1) ip path name

/-- How far a call gets: it returns, or it is about to call `dir_add_entry` on the parent. -/
inductive Upto (α : Type) where
  | returned (a : α)
  | adds (pip ip : Slot) (name : Bytes)

/-- `path_create_inode` before it adds the entry to the parent. -/
def createUpto (path : List UInt8) (name : Bytes) (type major minor : UInt16) :
    FsM (Upto (Option Slot)) := do
  match ← searchInodeIn path name true with
  | none => return .returned none
  | some (pip, name) =>
      inodeLock pip
      let inum ← dirSearchEntry pip (bufName name)
      if inum ≠ inodeNumUnused then
        inodeUnlock pip
        inodeFree pip
        return .returned (some (← inodeAlloc inum))
      match ← inodeCreate type major minor with
      | none =>
          inodeUnlockFree pip
          return .returned none
      | some ip =>
          inodeLock ip
          if type = ftDir then
            modifyInode ip fun x => { x with nlink := x.nlink + 1 }
            inodeRw ip true
            if (← dirAddEntry ip (← inodeOf ip).inodeNum dot) = blockSize then
              panic .pathCreateInodeDot
            if (← dirAddEntry ip (← inodeOf pip).inodeNum dotDot) = blockSize then
              panic .pathCreateInodeDotDot
          return .adds pip ip name

def createFrom (type : UInt16) : Upto (Option Slot) → FsM (Option Slot)
  | .returned r => return r
  | .adds pip ip name => do
      if (← dirAddEntry pip (← inodeOf ip).inodeNum (bufName name)) = blockSize then
        modifyInode ip fun x => { x with nlink := 0 }
        inodeUnlockFree ip
        inodeUnlockFree pip
        return none
      if type = ftDir then
        modifyInode pip fun x => { x with nlink := x.nlink + 1 }
        inodeRw pip true
      inodeUnlockFree pip
      inodeUnlock ip
      return some ip

def linkUpto (oldPath newPath : List UInt8) (name : Bytes) : FsM (Upto Bool) := do
  match ← pathToInode oldPath with
  | none => return .returned false
  | some ip =>
      inodeLock ip
      if (← inodeOf ip).type = ftDir then
        inodeUnlockFree ip
        return .returned false
      modifyInode ip fun x => { x with nlink := x.nlink + 1 }
      inodeRw ip true
      inodeUnlock ip
      match ← searchInodeIn newPath name true with
      | none => return .returned (← pathLinkBad ip)
      | some (pip, name) =>
          inodeLock pip
          return .adds pip ip name

def linkFrom : Upto Bool → FsM Bool
  | .returned r => return r
  | .adds pip ip name => do
      if (← dirAddEntry pip (← inodeOf ip).inodeNum (bufName name)) = blockSize then
        inodeUnlockFree pip
        pathLinkBad ip
      else
        inodeUnlockFree pip
        inodeFree ip
        return true

/-- In some state `path_create_inode(path, ..)` or `path_link(.., path)` calls `dir_add_entry` with
these bytes in its buffer. -/
inductive Passes (path : List UInt8) (name : Bytes) : Prop where
  | create {junk : Bytes} {type major minor : UInt16} {s s' : State} {pip ip : Slot}
      (run : (createUpto path junk type major minor s).1 = .ok (.adds pip ip name, s')) :
      Passes path name
  | link {junk : Bytes} {oldPath : List UInt8} {s s' : State} {pip ip : Slot}
      (run : (linkUpto oldPath path junk s).1 = .ok (.adds pip ip name, s')) : Passes path name

section

variable {path rest : List UInt8} {b name : Bytes} {e : Name} {s : State}

/-! ## One element -/

theorem filledWith_byte (b : Bytes) (e : Name) {i : Nat}
    (hi : i < dirNameLen) (hle : i ≤ e.length) :
    filledWith b e i = e.getD i 0 := by
  unfold filledWith
  split
  · rw [splice_in (by omega) (by omega)]
    rfl
  · next hlt =>
    by_cases he : i = e.length
    · rw [he, Function.update_self, List.getD_eq_default _ _ (Nat.le_refl _)]
    · rw [Function.update_of_ne he, splice_in (by omega) (by omega)]
      rfl

/-- The buffer is a string exactly when the element leaves room for its end. -/
theorem hasNul_filledWith (b : Bytes) (h0 : 0 ∉ e) :
    HasNul (filledWith b e) ↔ e.length < dirNameLen := by
  constructor
  · rintro ⟨i, hi, hz⟩
    by_contra hlong
    rw [filledWith_byte b e hi (by omega), List.getD_eq_getElem _ _ (by omega)] at hz
    exact h0 (hz ▸ List.getElem_mem _)
  · intro hlt
    refine ⟨e.length, hlt, ?_⟩
    rw [filledWith_byte b e hlt (Nat.le_refl _), List.getD_eq_default _ _ (Nat.le_refl _)]

theorem bufName_filledWith (b : Bytes) (h0 : 0 ∉ e) :
    bufName (filledWith b e) = e.take dirNameLen := by
  have hpre : (List.range (e.take dirNameLen).length).map (filledWith b e) = e.take dirNameLen := by
    apply List.ext_getElem
    · simp
    · intro i h1 h2
      rw [List.length_take] at h2
      rw [List.getElem_map, List.getElem_range, filledWith_byte b e (by omega) (by omega),
        List.getD_eq_getElem _ _ (by omega), List.getElem_take]
  obtain ⟨d, hd⟩ : ∃ d, dirNameLen = (e.take dirNameLen).length + d := by
    refine ⟨dirNameLen - (e.take dirNameLen).length, ?_⟩
    rw [List.length_take]
    omega
  have hrange : (List.range dirNameLen).map (filledWith b e) = e.take dirNameLen ++
      (List.range d).map fun i => filledWith b e ((e.take dirNameLen).length + i) := by
    conv_lhs => rw [hd, List.range_add, List.map_append, hpre, List.map_map]
    rfl
  have hne : ∀ c ∈ e.take dirNameLen, decide (c ≠ 0) = true := fun c hc =>
    decide_eq_true fun hz => h0 (hz ▸ List.mem_of_mem_take hc)
  rw [bufName, hrange, List.takeWhile_append_of_pos hne]
  cases d with
  | zero => exact List.append_nil _
  | succ d =>
      -- the byte behind the element is the NUL
      rw [List.length_take] at hd ⊢
      rw [List.range_succ_eq_map, List.map_cons, List.takeWhile_cons_of_neg, List.append_nil]
      rw [Nat.add_zero, filledWith_byte b e (by omega) (by omega),
        List.getD_eq_default _ _ (by omega)]
      decide

theorem skipElementIn_none (h : skipElement path = none) : skipElementIn path b = none := by
  unfold skipElement at h
  dsimp only at h
  split at h
  · next hnil =>
    unfold skipElementIn
    dsimp only
    rw [if_pos hnil]
  · cases h

theorem skipElementIn_some {cut : Name} (h : skipElement path = some (rest, cut)) :
    ∃ e, Skipped path rest cut e ∧ skipElementIn path b = some (rest, filledWith b e) := by
  refine ⟨_, skipElement_some h, ?_⟩
  unfold skipElement at h
  dsimp only at h
  split at h
  · cases h
  · next hne =>
    obtain ⟨hrest, -⟩ := Prod.mk.inj (Option.some.inj h)
    unfold skipElementIn
    dsimp only
    rw [if_neg hne, hrest]

/-! ## The search -/

def seen (r : Option (Slot × Bytes)) : Option (Slot × Name) := r.map fun q => (q.1, bufName q.2)

/-- The loop with the buffer is the loop on names. -/
theorem searchLoopIn_seen (fuel : Nat) (ip : Slot) (h0 : 0 ∉ path) :
    searchLoop true fuel ip path = searchLoopIn true fuel ip path b >>= fun r => pure (seen r) := by
  induction fuel generalizing ip path b with
  | zero => rfl
  | succ fuel ih =>
      rw [searchLoop, searchLoopIn]
      cases hs : skipElement path with
      | none =>
          rw [skipElementIn_none hs]
          dsimp only
          rw [if_pos rfl, if_pos rfl, Prog.seq_assoc]
          rfl
      | some q =>
          obtain ⟨rest, cut⟩ := q
          obtain ⟨e, hskip, hin⟩ := skipElementIn_some (b := b) hs
          have he : bufName (filledWith b e) = cut := by
            rw [hskip.name]
            exact bufName_filledWith b fun hc => h0 (hskip.mem 0 hc)
          have hrest : 0 ∉ rest := fun hc => h0 (hskip.rest_mem 0 hc)
          rw [hin]
          dsimp only
          rw [he, Prog.seq_assoc]
          refine bind_congr fun _ => ?_
          rw [Prog.seq_assoc]
          refine bind_congr fun x => ?_
          split
          · rw [Prog.seq_assoc]
            rfl
          split
          · rw [Prog.seq_assoc, ← he]
            rfl
          rw [Prog.seq_assoc]
          refine bind_congr fun inum => ?_
          split
          · rw [Prog.seq_assoc]
            rfl
          rw [Prog.seq_assoc]
          refine bind_congr fun _ => ?_
          rw [Prog.seq_assoc]
          refine bind_congr fun next => ?_
          rw [Prog.seq_assoc]
          exact bind_congr fun _ => ih next hrest

theorem searchInodeIn_seen (h0 : 0 ∉ path) :
    pathToPinode path = searchInodeIn path b true >>= fun r => pure (seen r) := by
  have hloop : ∀ ip, searchLoop true (path.length + 1) ip path =
      searchLoopIn true (path.length + 1) ip path b >>= fun r => pure (seen r) :=
    fun ip => searchLoopIn_seen _ ip h0
  unfold pathToPinode searchInode searchInodeIn
  dsimp only
  split
  · rw [Prog.seq_assoc]
    exact bind_congr hloop
  · rw [Prog.seq_assoc]
    refine bind_congr fun s => ?_
    cases s.cwd with
    | some cwd =>
        dsimp only
        rw [Prog.seq_assoc]
        exact bind_congr hloop
    | none => rfl

/-- A parent is only found when all elements have gone through the buffer. -/
theorem searchLoopIn_last {s' : State} {pip : Slot} (fuel : Nat) (ip : Slot) (h0 : 0 ∉ path)
    (hr : (searchLoopIn true fuel ip path b s).1 = .ok (some (pip, name), s')) :
    ∃ e b', (elements path).getLast? = some e ∧ 0 ∉ e ∧ name = filledWith b' e := by
  induction fuel generalizing ip path b s with
  | zero => cases hr
  | succ fuel ih =>
      rw [searchLoopIn] at hr
      cases hs : skipElement path with
      | none =>
          rw [skipElementIn_none hs] at hr
          obtain ⟨_, _, -, hr⟩ := ok_of_bind hr
          cases hr
      | some q =>
          obtain ⟨rest, cut⟩ := q
          obtain ⟨e, hskip, hin⟩ := skipElementIn_some (b := b) hs
          have he : 0 ∉ e := fun hc => h0 (hskip.mem 0 hc)
          rw [hin] at hr
          obtain ⟨_, _, -, hr⟩ := ok_of_bind hr
          obtain ⟨x, _, -, hr⟩ := ok_of_bind hr
          split at hr
          · obtain ⟨_, _, -, hr⟩ := ok_of_bind hr
            cases hr
          split at hr
          · next hlast =>
            obtain ⟨_, _, -, hr⟩ := ok_of_bind hr
            cases hr
            refine ⟨e, b, ?_, he, rfl⟩
            rw [hskip.split, hskip.last.mp hlast.2]
            rfl
          · next hmore =>
            obtain ⟨inum, _, -, hr⟩ := ok_of_bind hr
            split at hr
            · obtain ⟨_, _, -, hr⟩ := ok_of_bind hr
              cases hr
            obtain ⟨_, _, -, hr⟩ := ok_of_bind hr
            obtain ⟨next, _, -, hr⟩ := ok_of_bind hr
            obtain ⟨_, _, -, hr⟩ := ok_of_bind hr
            obtain ⟨e', b', hlast, hz, hname⟩ := ih next (fun hc => h0 (hskip.rest_mem 0 hc)) hr
            refine ⟨e', b', ?_, hz, hname⟩
            have hne : elements rest ≠ [] := fun hc => hmore ⟨rfl, hskip.last.mpr hc⟩
            rw [hskip.split, List.getLast?_cons_of_ne_nil hne]
            exact hlast

theorem searchInodeIn_last {s' : State} {pip : Slot} (h0 : 0 ∉ path)
    (hr : (searchInodeIn path b true s).1 = .ok (some (pip, name), s')) :
    ∃ e b', (elements path).getLast? = some e ∧ 0 ∉ e ∧ name = filledWith b' e := by
  unfold searchInodeIn at hr
  dsimp only at hr
  split at hr
  · obtain ⟨ip, _, -, hr⟩ := ok_of_bind hr
    exact searchLoopIn_last _ ip h0 hr
  · obtain ⟨x, _, -, hr⟩ := ok_of_bind hr
    cases hc : x.cwd with
    | none =>
        rw [hc] at hr
        cases hr
    | some cwd =>
        rw [hc] at hr
        obtain ⟨ip, _, -, hr⟩ := ok_of_bind hr
        exact searchLoopIn_last _ ip h0 hr

/-! ## The calls -/

/-- `path_create_inode` is its part before the call, and the rest. -/
theorem pathCreateInode_upto (h0 : 0 ∉ path) (b : Bytes) (type major minor : UInt16) :
    pathCreateInode path type major minor =
      createUpto path b type major minor >>= createFrom type := by
  unfold pathCreateInode createUpto
  rw [searchInodeIn_seen (b := b) h0, Prog.seq_assoc, Prog.seq_assoc]
  refine bind_congr fun r => ?_
  rw [ret_bind]
  cases r with
  | none => rfl
  | some q =>
      obtain ⟨pip, name⟩ := q
      dsimp only [seen, Option.map_some]
      rw [Prog.seq_assoc]
      refine bind_congr fun _ => ?_
      rw [Prog.seq_assoc]
      refine bind_congr fun inum => ?_
      split
      · simp only [Prog.seq_assoc]
        rfl
      unfold pathCreateNew
      rw [Prog.seq_assoc]
      refine bind_congr fun r => ?_
      cases r with
      | none =>
          dsimp only
          rw [Prog.seq_assoc]
          rfl
      | some ip =>
          dsimp only
          rw [Prog.seq_assoc]
          refine bind_congr fun _ => ?_
          by_cases hd : type = ftDir
          · simp only [if_pos hd, Prog.seq_assoc]
            refine bind_congr fun _ => bind_congr fun _ =>
            bind_congr fun x => bind_congr fun k => ?_
            split
            · rfl
            simp only [Prog.seq_assoc]
            refine bind_congr fun x => bind_congr fun k => ?_
            split
            · rfl
            rw [ret_bind]
            unfold createFrom
            simp only [if_pos hd]
          · simp only [if_neg hd, ret_bind]
            unfold createFrom
            simp only [if_neg hd]

/-- `path_link` likewise. -/
theorem pathLink_upto (oldPath : List UInt8) (h0 : 0 ∉ path) (b : Bytes) :
    pathLink oldPath path = linkUpto oldPath path b >>= linkFrom := by
  unfold pathLink linkUpto
  rw [Prog.seq_assoc]
  refine bind_congr fun r => ?_
  cases r with
  | none => rfl
  | some ip =>
      dsimp only
      rw [Prog.seq_assoc]
      refine bind_congr fun _ => ?_
      rw [Prog.seq_assoc]
      refine bind_congr fun x => ?_
      split
      · rw [Prog.seq_assoc]
        rfl
      simp only [Prog.seq_assoc]
      refine bind_congr fun _ => bind_congr fun _ => bind_congr fun _ => ?_
      rw [searchInodeIn_seen (b := b) h0, Prog.seq_assoc]
      refine bind_congr fun r => ?_
      rw [ret_bind]
      cases r with
      | none =>
          dsimp only [seen, Option.map_none]
          rw [Prog.seq_assoc]
          exact (bind_ret _).symm
      | some q =>
          dsimp only [seen, Option.map_some]
          rw [Prog.seq_assoc]
          rfl

theorem createUpto_adds {type major minor : UInt16} {s' : State} {pip ip : Slot}
    (run : (createUpto path b type major minor s).1 = .ok (.adds pip ip name, s')) :
    ∃ s₁, (searchInodeIn path b true s).1 = .ok (some (pip, name), s₁) := by
  obtain ⟨r, s₁, hs, run⟩ := ok_of_bind run
  cases r with
  | none => cases run
  | some q =>
      obtain ⟨_, _, -, run⟩ := ok_of_bind run
      obtain ⟨inum, _, -, run⟩ := ok_of_bind run
      split at run
      · obtain ⟨_, _, -, run⟩ := ok_of_bind run
        obtain ⟨_, _, -, run⟩ := ok_of_bind run
        obtain ⟨_, _, -, run⟩ := ok_of_bind run
        cases run
      obtain ⟨r, _, -, run⟩ := ok_of_bind run
      cases r with
      | none =>
          obtain ⟨_, _, -, run⟩ := ok_of_bind run
          cases run
      | some jp =>
          obtain ⟨_, _, -, run⟩ := ok_of_bind run
          have hend : ∀ t, ((pure (.adds q.1 jp q.2) : FsM (Upto (Option Slot))) t).1 =
            .ok (.adds pip ip name, s') →
              ∃ s₁, (searchInodeIn path b true s).1 = .ok (some (pip, name), s₁) := by
            intro t hr
            cases hr
            exact ⟨s₁, hs⟩
          dsimp only at run
          split at run
          · obtain ⟨_, _, -, run⟩ := ok_of_bind run
            obtain ⟨_, _, -, run⟩ := ok_of_bind run
            obtain ⟨_, _, -, run⟩ := ok_of_bind run
            obtain ⟨_, _, -, run⟩ := ok_of_bind run
            split at run
            · cases run
            obtain ⟨_, _, -, run⟩ := ok_of_bind run
            obtain ⟨_, _, -, run⟩ := ok_of_bind run
            split at run
            · cases run
            · exact hend _ run
          · exact hend _ run

theorem linkUpto_adds {oldPath : List UInt8} {s' : State} {pip ip : Slot}
    (run : (linkUpto oldPath path b s).1 = .ok (.adds pip ip name, s')) :
    ∃ s₁ s₂, (searchInodeIn path b true s₁).1 = .ok (some (pip, name), s₂) := by
  obtain ⟨r, _, -, run⟩ := ok_of_bind run
  cases r with
  | none => cases run
  | some jp =>
      obtain ⟨_, _, -, run⟩ := ok_of_bind run
      obtain ⟨x, _, -, run⟩ := ok_of_bind run
      split at run
      · obtain ⟨_, _, -, run⟩ := ok_of_bind run
        cases run
      obtain ⟨_, _, -, run⟩ := ok_of_bind run
      obtain ⟨_, _, -, run⟩ := ok_of_bind run
      obtain ⟨_, s₁, -, run⟩ := ok_of_bind run
      obtain ⟨r, s₂, hs, run⟩ := ok_of_bind run
      cases r with
      | none =>
          obtain ⟨_, _, -, run⟩ := ok_of_bind run
          cases run
      | some q =>
          obtain ⟨_, _, -, run⟩ := ok_of_bind run
          cases run
          exact ⟨s₁, s₂, hs⟩

/-- The buffer that reaches `dir_add_entry` is a string exactly when the last element of the path
has fewer than `DIR_NAME_LEN` characters. -/
theorem passed_name_terminated_iff (h0 : 0 ∉ path) (h : Passes path name) :
    HasNul name ↔ ((elements path).getLastD []).length < dirNameLen := by
  have hlast : ∃ e b', (elements path).getLast? = some e ∧ 0 ∉ e ∧ name = filledWith b' e := by
    cases h with
    | create run =>
        obtain ⟨s₁, hs⟩ := createUpto_adds run
        exact searchInodeIn_last h0 hs
    | link run =>
        obtain ⟨s₁, s₂, hs⟩ := linkUpto_adds run
        exact searchInodeIn_last h0 hs
  obtain ⟨e, b', hlast, hz, rfl⟩ := hlast
  rw [List.getLastD_eq_getLast?, hlast]
  exact hasNul_filledWith b' hz

/-! ## Calls that get there -/

/-- `inode_create` while the parent is locked, with a free inode number and a free handle. -/
theorem inodeCreate_found {pip : Slot} {a : State} {H : List Slot} (ha : Ready a)
    (h : Mid a H [pip] s) (hpip : pip ∈ H)
    (hbit : ∃ n < nInodeDisk, ibit s.disk n = false) (hroom : ∃ j, (s.icache j).ref = 0)
    (type major minor : UInt16) :
    Sat (inodeCreate type major minor) s (fun _ => True) (fun r s' => ∃ ip, r = some ip ∧
      s'.locks (.inode ip) = false ∧ (s'.icache ip).valid = true) fun _ => False := by
  have hstore := h.sound.tree.store
  have hview : s.view 1 = s.disk 1 := hstore.settled 1 (by decide)
  obtain ⟨k, hk, hclear⟩ := hbit
  unfold inodeCreate
  refine (bitmapAllocInode_sat hstore.cache hstore.sb (readable_nil s (by decide)) trivial).bind
    fun n s₁ hn => ?_
  cases hn with
  | full all =>
      have hset := all k (Nat.lt_trans hk (by decide))
      rw [hview] at hset
      exact absurd hset (Bool.eq_false_iff.mp hclear)
  | found lt clear below stored =>
      rw [hview] at clear below
      have hn : n < nInodeDisk := by
        refine Nat.lt_of_le_of_lt (Nat.le_of_not_lt fun hgt => ?_) hk
        exact absurd (below k hgt) (Bool.eq_false_iff.mp hclear)
      have hic : s₁.icache = s.icache := (congrArg Core.icache stored.core :)
      have hlk : s₁.locks = s.locks := (congrArg Core.locks stored.core :)
      have hsb : s₁.sb = Mkfs.sb := (congrArg Core.sb stored.core).trans hstore.sb
      rw [if_neg (by unfold nInodeDisk at hn; omega)]
      refine (inodeAlloc_sat (by rw [hlk]; exact h.icache_free ha) fun hfull =>
        ?_).bind fun ip s₂ hd => ?_
      · obtain ⟨j, hj⟩ := hroom
        rw [hic] at hfull
        exact hfull j hj
      have hip : ip ≠ pip := by
        rintro rfl
        have hlive := (h.sound.slot ip).live (.inl (h.ref_ne hpip))
        cases hd with
        | hit num =>
            rw [hic] at num
            rw [num] at hlive
            exact absurd hlive.2 (Bool.eq_false_iff.mp clear)
        | recycled _ free =>
            rw [hic] at free
            exact h.ref_ne hpip free
      obtain ⟨x, rfl, hx⟩ : ∃ x, s₂ = s₁.setInode ip x ∧ x.inodeNum = n := by
        cases hd with
        | hit num => exact ⟨_, rfl, num⟩
        | recycled _ _ => exact ⟨_, rfl, rfl⟩
      have hfree : s₁.locks (.inode ip) = false := by
        rw [hlk, h.lock_eq ha]
        simpa using hip
      rw [sat_bind, sat_acquire (by rw [setInode_locks]; exact hfree), sat_bind, sat_modifyInode]
      have hinv : CacheInv [] ((s₁.setInode ip x).setLock (.inode ip) true) :=
        (stored.evolves.inv.setInode x).setLock (by simp) (by simp) true
      have hblk := inodeBlock_range hn
      refine (inodeRw_write_sat (b := inodeBlock Mkfs.sb n) (hinv.setInode _) ?_ ?_ trivial).bind
        fun _ s₃ st => ?_
      · simp [hx, hsb]
      · exact readable_nil _ (by unfold blockNumUnused; omega)
      · rw [sat_bind, sat_release (by rw [st.core]; simp), sat_pure]
        refine ⟨ip, rfl, by simp, ?_⟩
        rw [setLock_icache, st.core]
        simp

/-- A name that the root does not have, right after boot. -/
theorem createUpto_root {img : Mkfs.Image} {junk : Bytes}
    (himg : Mkfs.main junk [] = some img) (hm : Mounted img s)
    (hel : elements (slash :: e) = [e]) (hgood : 0 ∉ e ∧ e ≠ [])
    (hnone : lookup img inodeRoot (e.take dirNameLen) = none)
    (b : Bytes) :
    ∃ pip ip name s', (createUpto (slash :: e) b ftFile 0 0 s).1 = .ok (.adds pip ip name, s') := by
  have hready := ready_mounted himg hm
  have hE := (room_mounted himg hm).not_full
  have hd : s.disk = img := congrArg Core.disk (hm.boot himg).1
  have hdir : IsDir s.disk inodeRoot := by
    rw [hd]
    exact (isDir_boot (Mkfs.main_fresh himg)).mpr rfl
  have h0 : 0 ∉ slash :: e := by simpa [slash] using hgood.1
  have hes : ∀ e' ∈ [e], 0 ∉ e' ∧ e' ≠ [] := by simpa using hgood
  have hsearch : Sat (pathToPinode (slash :: e)) s (fun _ => True)
      (fun r s' => Returned s (handles r ++ []) s' ∧ FoundParent s.disk inodeRoot [e] s' r) fun _ =>
      False :=
    searchInode_from hready ⟨hready.mid, rfl⟩ rfl hE true fun ip s' h => by
      rw [hel]
      exact searchElements_parent hready h hes (by simp) hE
  rw [searchInodeIn_seen (b := b) h0, sat_bind] at hsearch
  suffices hs : Sat (createUpto (slash :: e) b ftFile 0 0) s (fun _ => True)
      (fun r _ => ∃ pip ip name, r = .adds pip ip name) fun _ => False by
    obtain ⟨_, s', hr, pip, ip, name, rfl⟩ := hs.returns
    exact ⟨pip, ip, name, s', hr⟩
  unfold createUpto
  refine hsearch.bind fun r s₁ hr => ?_
  rw [sat_pure] at hr
  cases r with
  | none =>
      have hf := hr.2
      rw [seen, Option.map_none, FoundParent, parentDir_single, if_pos hdir] at hf
      cases hf
  | some q =>
      obtain ⟨pip, name⟩ := q
      obtain ⟨hret, hroot, hv, hname⟩ := hr
      have hbuf : bufName name = e.take dirNameLen := (Option.some.inj hname).symm
      have hnum : (s₁.icache pip).inodeNum = inodeRoot := by
        rw [parentDir_single, if_pos hdir] at hroot
        exact (Option.some.inj hroot).symm
      dsimp only
      refine (hret.mid.lock hready List.mem_cons_self (by simp)).bind fun _ s₂ h₂ => ?_
      obtain ⟨hmid, hcore⟩ := h₂
      have hd₂ : s₂.disk = img := ((congrArg Core.disk hcore :).trans hret.disk).trans hd
      have hic : s₂.icache = Function.update s₁.icache pip (s₁.icache pip) := by
        have hc := (congrArg Core.icache hcore :)
        rwa [loadedInode_of_valid hv] at hc
      rw [Function.update_eq_self] at hic
      have hop : Opened s₂ inodeRoot pip := ⟨by rw [hic, hnum], by rw [hic, hv]⟩
      rw [hbuf]
      refine (dirSearchEntry_sat (noNul_take hgood.1) hmid.sound
        ⟨hop, by rw [hd₂, ← hd]; exact hdir⟩ ?_).bind
        fun r s₃ hr => ?_
      · rw [hmid.lock_eq hready]
        simp
      have hr0 : r = inodeNumUnused := by
        rw [hr.1, List.take_take, Nat.min_self, hd₂, hnone]
        rfl
      rw [if_neg (not_not.mpr hr0)]
      refine (inodeCreate_found hready (hmid.loaded hr.2) List.mem_cons_self
        ⟨1, by decide, ?_⟩ ?_ ftFile 0 0).bind
        fun r s₄ hc => ?_
      · rw [show s₃.disk = s₂.disk from (congrArg Core.disk hr.2.core :), hd₂]
        exact (Mkfs.main_fresh himg).inodes 1
      · obtain ⟨i, j, hij, hi, hj⟩ := room_mounted himg hm
        have hheld := (hmid.loaded hr.2).holds.ref
        by_cases hp : pip = i
        · refine ⟨j, ?_⟩
          rw [hheld j]
          simpa [handles, seen, List.count_cons, hp, hij] using hj
        · refine ⟨i, ?_⟩
          rw [hheld i]
          simpa [handles, seen, List.count_cons, hp] using hi
      obtain ⟨ip, rfl, hfree, hvalid⟩ := hc
      dsimp only
      rw [sat_bind, inodeLock_valid hfree hvalid, if_neg (by decide), sat_pure]
      exact ⟨pip, ip, name, rfl⟩

end

/-- The first file of an empty image gets a name of one letter. -/
theorem passed_name_terminated_short : ∃ name, Passes (slash :: [97]) name ∧
    (HasNul name ↔ ((elements (slash :: [97])).getLastD []).length < dirNameLen) := by
  have hsome : (Mkfs.main (fun _ => 0) []).isSome := by decide +kernel
  obtain ⟨img, himg⟩ := Option.isSome_iff_exists.mp hsome
  obtain ⟨s, hm⟩ := exists_mounted himg
  have hnone : lookup img inodeRoot (List.take dirNameLen [97]) = none := by
    have hf := Mkfs.main_fresh himg
    have hcount : entCount (inoAt img inodeRoot) = 2 := by
      rw [show inoAt img inodeRoot = _ from hf.root, entCount_rootInode hf.few]
      rfl
    rw [lookup, hcount, lookupFrom, lookupFrom, lookupFrom,
      show ents img inodeRoot 0 = bootEntry [] 0 from ents_boot hf 0,
      show ents img inodeRoot 1 = bootEntry [] 1 from ents_boot hf 1]
    decide
  obtain ⟨pip, ip, name, s', hr⟩ :=
    createUpto_root himg hm (by decide) ⟨by decide, by decide⟩ hnone fun _ => 0
  exact ⟨name, .create hr, passed_name_terminated_iff (by decide) (.create hr)⟩

/-- A name of 30 letters reaches `dir_add_entry` without its NUL. -/
theorem passed_name_unterminated :
    ∃ img s pip ip name s', Mkfs.main (fun _ => 0) [] = some img ∧ Mounted img s ∧
    (createUpto (slash :: List.replicate 30 97) (fun _ => 0) ftFile 0 0 s).1 =
    .ok (.adds pip ip name, s') ∧
    ¬ HasNul name := by
  have hsome : (Mkfs.main (fun _ => 0) []).isSome := by decide +kernel
  obtain ⟨img, himg⟩ := Option.isSome_iff_exists.mp hsome
  obtain ⟨s, hm⟩ := exists_mounted himg
  have hd : s.disk = img := congrArg Core.disk (hm.boot himg).1
  have hdir : IsDir s.disk inodeRoot := by
    rw [hd]
    exact (isDir_boot (Mkfs.main_fresh himg)).mpr rfl
  have hnone : lookup img inodeRoot ((List.replicate 30 97).take dirNameLen) = none := by
    rw [← hd]
    exact (sound_mounted himg hm).lookup_long hdir (by decide)
  obtain ⟨pip, ip, name, s', hr⟩ :=
    createUpto_root himg hm (by decide) ⟨by decide, by decide⟩ hnone fun _ => 0
  refine ⟨img, s, pip, ip, name, s', himg, hm, hr, ?_⟩
  obtain ⟨s₁, hs⟩ := createUpto_adds hr
  obtain ⟨e, b', hlast, hz, rfl⟩ := searchInodeIn_last (by decide) hs
  obtain rfl : e = List.replicate 30 97 := Option.some.inj (hlast.symm.trans (by decide))
  rw [hasNul_filledWith b' hz]
  decide

end WhuOs.Fs
