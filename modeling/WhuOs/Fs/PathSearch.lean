import Mathlib.Data.List.TakeWhile
import WhuOs.Fs.Balance
import WhuOs.Fs.DirRead

/-! # Path lookup

The abstract side is a walk over the elements of a path, from directory to
directory. `search_inode` performs this walk from every sound state in which no
inode lock is held, and changes nothing on disk.
-/

namespace WhuOs.Fs

open Prog

/-! ## Elements of a path -/

/-- The elements of a path: what stands between its slashes. -/
def elements (path : List UInt8) : List Name := (path.splitOn slash).filter (· ≠ [])

section

variable {p q : List UInt8} {e : Name}

@[simp] theorem elements_nil : elements [] = [] := by
  simp [elements]

theorem elements_append_slash (p q : List UInt8) :
    elements (p ++ slash :: q) = elements p ++ elements q := by
  unfold elements
  rw [List.splitOn_append_cons_self, List.filter_append]

@[simp] theorem elements_slash (q : List UInt8) : elements (slash :: q) = elements q := by
  have h := elements_append_slash [] q
  simpa using h

theorem elements_word (hs : slash ∉ e) (hne : e ≠ []) : elements e = [e] := by
  unfold elements
  rw [List.splitOn_eq_singleton hs]
  simp [hne]

theorem elements_dropWhile (p : List UInt8) : elements (p.dropWhile (· = slash)) = elements p := by
  induction p with
  | nil => rfl
  | cons c p ih =>
      by_cases hc : c = slash
      · rw [List.dropWhile_cons_of_pos (by simpa using hc), ih, hc, elements_slash]
      · rw [List.dropWhile_cons_of_neg (by simpa using hc)]

/-- A path that does not start with a slash starts with an element. -/
theorem elements_split (hne : p ≠ []) (hc : p.head? ≠ some slash) :
    elements p = p.takeWhile (· ≠ slash) :: elements (p.dropWhile (· ≠ slash)) ∧
      p.takeWhile (· ≠ slash) ≠ [] := by
  have hword : p.takeWhile (· ≠ slash) ≠ [] := by
    cases p with
    | nil => exact absurd rfl hne
    | cons c p =>
        have hcs : c ≠ slash := by simpa using hc
        rw [List.takeWhile_cons_of_pos (by simpa using hcs)]
        simp
  have hno : slash ∉ p.takeWhile (· ≠ slash) := by
    intro hm
    have hp := List.mem_takeWhile_imp hm
    simp at hp
  refine ⟨?_, hword⟩
  have hsplit := List.takeWhile_append_dropWhile (p := (· ≠ slash)) (l := p)
  cases hd : p.dropWhile (· ≠ slash) with
  | nil =>
      rw [hd, List.append_nil] at hsplit
      rw [elements_nil]
      conv_lhs => rw [← hsplit]
      exact elements_word hno hword
  | cons c r =>
      have hcs : c = slash := by
        have hhead := List.head?_dropWhile_not (· ≠ slash) p
        rw [hd] at hhead
        simpa using hhead
      rw [hd, hcs] at hsplit
      rw [hcs]
      conv_lhs => rw [← hsplit]
      rw [elements_append_slash, elements_word hno hword, elements_slash]
      rfl

structure Skipped (path rest : List UInt8) (name e : Name) : Prop where
  split : elements path = e :: elements rest
  name : name = e.take dirNameLen
  ne : e ≠ []
  last : rest = [] ↔ elements rest = []
  shorter : rest.length < path.length
  rest_mem : ∀ c ∈ rest, c ∈ path
  mem : ∀ c ∈ e, c ∈ path

theorem skipElement_none {path : List UInt8} (h : skipElement path = none) :
    elements path = [] := by
  unfold skipElement at h
  dsimp only at h
  split at h
  · next hnil =>
    rw [← elements_dropWhile, hnil]
    rfl
  · cases h

theorem skipElement_some {path rest : List UInt8} {name : Name}
    (h : skipElement path = some (rest, name)) :
    Skipped path rest name ((path.dropWhile (· = slash)).takeWhile (· ≠ slash)) := by
  unfold skipElement at h
  dsimp only at h
  split at h
  · cases h
  · next hne =>
    obtain ⟨hrest, hname⟩ := Prod.mk.inj (Option.some.inj h)
    have hhead : (path.dropWhile (· = slash)).head? ≠ some slash := by
      intro hh
      obtain ⟨t, ht⟩ : ∃ t, path.dropWhile (· = slash) = slash :: t := by
        cases hp : path.dropWhile (· = slash) with
        | nil => exact absurd hp hne
        | cons c t =>
            rw [hp] at hh
            exact ⟨t, by rw [Option.some.inj hh]⟩
      have hnot := List.head?_dropWhile_not (· = slash) path
      rw [ht] at hnot
      simp at hnot
    obtain ⟨hsplit, hword⟩ := elements_split hne hhead
    have hsub : ∀ c ∈ path.dropWhile (· = slash), c ∈ path := fun c hc =>
      (List.dropWhile_sublist _).subset hc
    refine ⟨?_, hname.symm, hword, ?_, ?_, ?_, ?_⟩
    · rw [← elements_dropWhile path, hsplit, ← hrest, elements_dropWhile]
    · constructor
      · intro hr
        rw [hr]
        rfl
      · intro hr
        by_contra hrn
        have hhd : rest.head? ≠ some slash := by
          intro hh
          cases hp : rest with
          | nil => exact hrn hp
          | cons c t =>
              have hnot := List.head?_dropWhile_not (· = slash)
                ((path.dropWhile (· = slash)).dropWhile (· ≠ slash))
              rw [hrest, hp] at hnot
              rw [hp] at hh
              simp only [List.head?_cons, Option.some.injEq] at hh
              simp [hh] at hnot
        rw [(elements_split hrn hhd).1] at hr
        cases hr
    · have h1 : rest.length ≤ ((path.dropWhile (· = slash)).dropWhile (· ≠ slash)).length := by
        rw [← hrest]
        exact (List.dropWhile_sublist _).length_le
      have h2 := congrArg List.length
        (List.takeWhile_append_dropWhile (p := (· ≠ slash)) (l := path.dropWhile (· = slash)))
      have h3 : (path.dropWhile (· = slash)).length ≤ path.length :=
        (List.dropWhile_sublist _).length_le
      have h4 : 0 < ((path.dropWhile (· = slash)).takeWhile (· ≠ slash)).length :=
        List.length_pos_iff.mpr hword
      rw [List.length_append] at h2
      omega
    · intro c hc
      rw [← hrest] at hc
      exact hsub c ((List.dropWhile_sublist _).subset ((List.dropWhile_sublist _).subset hc))
    · intro c hc
      exact hsub c ((List.takeWhile_sublist _).subset hc)

end

/-! ## The walk -/

def dirStep (D : Disk) (d : Nat) (e : Name) : Option Nat := if IsDir D d then lookup D d e else none

/-- The inode behind the elements of a path, from the inode `d` on. -/
def walk (D : Disk) : Nat → List Name → Option Nat
  | d, [] => some d
  | d, e :: es => (dirStep D d e).bind fun n => walk D n es

/-- The directory in which the last element of a path is looked up. -/
def parentDir (D : Disk) (d : Nat) (es : List Name) : Option Nat :=
  (walk D d es.dropLast).filter fun p => IsDir D p

section

variable {D : Disk} {d : Nat} {e e' : Name} {es : List Name}

theorem parentDir_single : parentDir D d [e] = if IsDir D d then some d else none := by
  by_cases h : IsDir D d
  · simp [parentDir, walk, h]
  · simp [parentDir, walk, h]

theorem parentDir_cons (he : es ≠ []) :
    parentDir D d (e :: es) = (dirStep D d e).bind fun n => parentDir D n es := by
  unfold parentDir
  rw [List.dropLast_cons_of_ne_nil he, walk]
  cases dirStep D d e with
  | none => rfl
  | some n => rfl

/-- The last element is looked up in the parent. -/
theorem walk_parent (he : es ≠ []) (n : Nat) (hp : parentDir D d es = some n) :
    walk D d es = lookup D n (es.getLast he) := by
  induction es generalizing d with
  | nil => exact absurd rfl he
  | cons e es ih =>
      cases es with
      | nil =>
          rw [parentDir_single] at hp
          split at hp
          · next hdir =>
            obtain rfl := Option.some.inj hp
            simp [walk, dirStep, hdir]
          · cases hp
      | cons e' es =>
          rw [parentDir_cons (List.cons_ne_nil _ _), Option.bind_eq_some_iff] at hp
          obtain ⟨m, hm, hp⟩ := hp
          rw [walk, hm, Option.bind_some, ih (List.cons_ne_nil _ _) hp]
          rfl

end

/-! ## The search as a recursion on the elements -/

def searchElements (findParent : Bool) : Slot → List Name → FsM (Option (Slot × Name))
  | ip, [] => do
      if findParent then
        inodeFree ip
        return none
      else return some (ip, [])
  | ip, e :: es => do
      inodeLock ip
      if (← inodeOf ip).type ≠ ftDir then
        inodeUnlockFree ip
        return none
      if findParent ∧ es = [] then
        inodeUnlock ip
        return some (ip, e.take dirNameLen)
      let inum ← dirSearchEntry ip (e.take dirNameLen)
      if inum = inodeNumUnused then
        inodeUnlockFree ip
        return none
      inodeUnlock ip
      let next ← inodeAlloc inum
      inodeFree ip
      searchElements findParent next es

/-- The scanner and the lookups may be interleaved or not. -/
theorem searchLoop_elements (findParent : Bool) (fuel : Nat) (ip : Slot) (path : List UInt8)
    (hfuel : path.length < fuel) :
    searchLoop findParent fuel ip path = searchElements findParent ip (elements path) := by
  induction fuel generalizing ip path with
  | zero => omega
  | succ fuel ih =>
      rw [searchLoop]
      split
      · next hnone => rw [skipElement_none hnone, searchElements]
      · next rest name hsome =>
        have hs := skipElement_some hsome
        have hshort := hs.shorter
        rw [hs.split, searchElements, hs.name]
        simp only [hs.last, ih _ rest (by omega)]

/-- The elements of a path and its first character decide the search. -/
theorem searchInode_congr {p q : List UInt8} (he : elements p = elements q)
    (hh : p.head? = some slash ↔ q.head? = some slash) (findParent : Bool) :
    searchInode p findParent = searchInode q findParent := by
  unfold searchInode
  simp only [hh, searchLoop_elements _ _ _ _ (Nat.lt_succ_self _), he]

/-! ## Sound states with handles and locks -/

/-- A state between two calls: sound, no lock of an inode or of the `icache` is held, and the
working directory, if there is one, is referenced. -/
structure Ready (s : State) : Prop where
  sound : Sound s
  icache : s.locks .icache = false
  inode : ∀ j, s.locks (.inode j) = false
  cwd : ∀ c, s.cwd = some c → (s.icache c).ref ≠ 0

/-- A sound state inside a call that was made in the state `b` and holds `H` and `L`. -/
structure Mid (b : State) (H L : List Slot) (s : State) : Prop where
  holds : Holds b H L s
  sound : Sound s

section

variable {b s s' : State} {H H' L L' : List Slot} {ip : Slot} {n : Nat} {G : Event → Prop}
  {E : Panic → Prop}

theorem Ready.mid (hb : Ready b) : Mid b [] [] b := ⟨holds_refl b, hb.sound⟩

theorem Mid.icache_free (hb : Ready b) (h : Mid b H L s) : s.locks .icache = false :=
  h.holds.icache.trans hb.icache

theorem Mid.lock_eq (hb : Ready b) (h : Mid b H L s) (j : Slot) :
    s.locks (.inode j) = decide (j ∈ L) := by
  rw [h.holds.lock j, hb.inode j, Bool.false_or]

theorem Mid.ref_ne (h : Mid b H L s) (hip : ip ∈ H) : (s.icache ip).ref ≠ 0 := by
  have hc := List.count_pos_iff.mpr hip
  rw [h.holds.ref ip]
  omega

theorem Mid.loaded (h : Mid b H L s) (hl : Loaded [] s s') : Mid b H L s' := by
  refine ⟨h.holds.keep ?_, h.sound.loaded hl⟩
  have hic : s'.icache = s.icache := congrArg Core.icache hl.core
  have hlk : s'.locks = s.locks := congrArg Core.locks hl.core
  have hcwd : s'.cwd = s.cwd := congrArg Core.cwd hl.core
  unfold holding
  rw [hlk, hcwd, show slots s' = slots s from funext fun j => by rw [slots, slots, hic]]

theorem Mid.alloc (hb : Ready b) (h : Mid b H L s) (hn : n < nInodeDisk)
    (hlive : ibit s.disk n = true)
    (hE : (∀ j, (b.icache j).ref + H.count j ≠ 0) → E .inodeAllocNoInodes) :
    Sat (inodeAlloc n) s G (fun ip s' => Mid b (ip :: H) L s' ∧ Alloced s n ip s') E := by
  have hE' : (∀ j, (s.icache j).ref ≠ 0) → E .inodeAllocNoInodes := fun hall =>
    hE fun j => by rw [← h.holds.ref j]; exact hall j
  refine (inodeAlloc_sound h.sound (h.icache_free hb) hn hlive hE').run.imp fun ip s' ha => ?_
  exact ⟨⟨(h.holds.alloc n).of_ok ha.2, ha.1.sound⟩, ha.1⟩

theorem Mid.lock (hb : Ready b) (h : Mid b H L s) (hip : ip ∈ H) (hL : ip ∉ L) :
    Sat (inodeLock ip) s G (fun _ s' => Mid b H (ip :: L) s' ∧ s'.toCore = { s.toCore with
      icache := Function.update s.icache ip (loadedInode s.disk (s.icache ip))
      locks := Function.update s.locks (.inode ip) true }) E := by
  have hfree : s.locks (.inode ip) = false := by
    rw [h.lock_eq hb]
    simpa using hL
  refine (inodeLock_sound h.sound hfree (h.ref_ne hip)).run.imp fun _ s' hl => ?_
  exact ⟨⟨(h.holds.lockIt ip).of_ok hl.2, hl.1.1⟩, hl.1.2⟩

theorem Mid.unlock (hb : Ready b) (h : Mid b H L s) (hp : L.Perm (ip :: L')) :
    Sat (inodeUnlock ip) s G (fun _ s' => Mid b H L' s' ∧ s' = s.setLock (.inode ip) false) E := by
  have hheld : s.locks (.inode ip) = true := by
    rw [h.lock_eq hb, decide_eq_true_eq, hp.mem_iff]
    exact List.mem_cons_self
  have hs : Sat (inodeUnlock ip) s G (fun _ s' => s' = s.setLock (.inode ip) false) E :=
    (inodeUnlock_sat hheld).mpr rfl
  refine hs.run.imp fun _ s' hu => ?_
  refine ⟨⟨(h.holds.unlockIt hp).of_ok hu.2, ?_⟩, hu.1⟩
  rw [hu.1]
  exact h.sound.setLock (by simp) (by simp) false

theorem Mid.free (hb : Ready b) (h : Mid b H L s) (hp : H.Perm (ip :: H'))
    (hk : 2 ≤ (s.icache ip).ref ∨ (s.icache ip).nlink ≠ 0) :
    Sat (inodeFree ip) s G (fun _ s' => Mid b H' L s' ∧
      s' = s.setInode ip { s.icache ip with ref := (s.icache ip).ref - 1 }) E := by
  have hs : Sat (inodeFree ip) s G
      (fun _ s' => s' = s.setInode ip { s.icache ip with ref := (s.icache ip).ref - 1 }) E :=
    (inodeFree_keep (h.icache_free hb) hk).mpr rfl
  refine hs.run.imp fun _ s' hu => ?_
  refine ⟨⟨(h.holds.release hp).of_ok hu.2, ?_⟩, hu.1⟩
  rw [hu.1]
  exact h.sound.drop (h.ref_ne (hp.mem_iff.mpr List.mem_cons_self)) hk

theorem Mid.unlockFree (hb : Ready b) (h : Mid b H L s) (hH : H.Perm (ip :: H'))
    (hL : L.Perm (ip :: L')) (hk : 2 ≤ (s.icache ip).ref ∨ (s.icache ip).nlink ≠ 0) :
    Sat (inodeUnlockFree ip) s G
      (fun _ s' => Mid b H' L' s' ∧ s' = (s.setLock (.inode ip) false).setInode ip
      { s.icache ip with ref := (s.icache ip).ref - 1 }) E := by
  refine (h.unlock hb hL).bind fun _ s₁ h₁ => ?_
  obtain ⟨h₁, rfl⟩ := h₁
  exact h₁.free hb hH hk

end

/-! ## The search from sound states -/

/-- The search that a call makes in the state `b` stands on inode `n` with the handle `ip`; the
release of this handle destroys nothing. -/
structure Stands (b : State) (H : List Slot) (n : Nat) (ip : Slot) (s : State) : Prop where
  mid : Mid b (ip :: H) [] s
  disk : s.disk = b.disk
  num : (s.icache ip).inodeNum = n
  kept : 2 ≤ (s.icache ip).ref ∨ (inoAt b.disk n).nlink ≠ 0

/-- What a search leaves behind apart from its result. -/
structure Returned (b : State) (H : List Slot) (s : State) : Prop where
  mid : Mid b H [] s
  disk : s.disk = b.disk

section

variable {b s s' : State} {H L : List Slot} {ip : Slot} {n : Nat} {e : Name} {es : List Name}
  {G : Event → Prop} {E : Panic → Prop} {Q : Option (Slot × Name) → State → Prop}

/-- The link count of a loaded entry is the one on disk. -/
theorem Sound.nlink_eq (h : Sound s) (hn : (s.icache ip).inodeNum = n)
    (hv : (s.icache ip).valid = true) : (s.icache ip).nlink = (inoAt s.disk n).nlink := by
  rw [← hn]
  exact ((h.slot ip).agree hv).nlink

theorem lookup_take (h : Sound s) (hd : IsDir s.disk n) (e : Name) :
    lookup s.disk n (e.take dirNameLen) = lookup s.disk n e := by
  by_cases hlen : e.length < dirNameLen
  · rw [List.take_of_length_le (by omega)]
  · rw [h.lookup_long hd (by rw [List.length_take]; omega), h.lookup_long hd (by omega)]

theorem noNul_take (h0 : 0 ∉ e) : 0 ∉ e.take dirNameLen := fun hm => h0 (List.mem_of_mem_take hm)

/-- The state in which the search has locked the inode it stands on. -/
structure Inside (b : State) (H : List Slot) (n : Nat) (ip : Slot) (s : State) : Prop where
  mid : Mid b (ip :: H) [ip] s
  disk : s.disk = b.disk
  opened : Opened s n ip
  kept : 2 ≤ (s.icache ip).ref ∨ (s.icache ip).nlink ≠ 0
  dir : (s.icache ip).type = ftDir ↔ IsDir b.disk n

theorem Stands.lock (hb : Ready b) (h : Stands b H n ip s) :
    Sat (inodeLock ip) s G (fun _ => Inside b H n ip) E := by
  refine (h.mid.lock hb List.mem_cons_self (by simp)).imp fun _ s₁ hl => ?_
  obtain ⟨hmid, hcore⟩ := hl
  have hd : s₁.disk = b.disk := (congrArg Core.disk hcore).trans h.disk
  have hic : s₁.icache ip = loadedInode s.disk (s.icache ip) := by
    have hc : s₁.icache = Function.update s.icache ip (loadedInode s.disk (s.icache ip)) :=
      congrArg Core.icache hcore
    rw [hc, Function.update_self]
  have hop : Opened s₁ n ip := ⟨by rw [hic, loadedInode_num, h.num], by rw [hic, loadedInode_valid]⟩
  have hagree := (hmid.sound.slot ip).agree hop.valid
  rw [hop.num, hd] at hagree
  refine ⟨hmid, hd, hop, ?_, ?_⟩
  · rw [hagree.nlink, hic, loadedInode_ref]
    exact h.kept
  · have hlive := (hmid.sound.slot ip).live (Or.inr hop.valid)
    rw [hop.num, hd] at hlive
    rw [hagree.type]
    exact ⟨fun ht => ⟨hlive.1, hlive.2, ht⟩, fun hdir => hdir.type⟩

theorem Inside.loaded (h : Inside b H n ip s) (hl : Loaded [] s s') : Inside b H n ip s' := by
  have hic : s'.icache = s.icache := congrArg Core.icache hl.core
  refine ⟨h.mid.loaded hl, hl.disk_eq.trans h.disk, h.opened.congr hic, ?_, ?_⟩
  · rw [hic]
    exact h.kept
  · rw [hic]
    exact h.dir

theorem Inside.leave (hb : Ready b) (h : Inside b H n ip s) :
    Sat (inodeUnlockFree ip) s G (fun _ => Returned b H) E := by
  refine (h.mid.unlockFree hb (.refl _) (.refl _) h.kept).imp fun _ s₁ hf => ?_
  obtain ⟨hmid, rfl⟩ := hf
  exact ⟨hmid, h.disk⟩

theorem Inside.search (h : Inside b H n ip s) (hdir : IsDir b.disk n) (hb : Ready b) (h0 : 0 ∉ e) :
    Sat (dirSearchEntry ip (e.take dirNameLen)) s G (fun r s' =>
      r = (lookup b.disk n e).getD inodeNumUnused ∧ Inside b H n ip s') E := by
  have hd : IsDir s.disk n := by
    rw [h.disk]
    exact hdir
  have hl : s.locks (.inode ip) = true := by
    rw [h.mid.lock_eq hb]
    simp
  refine (dirSearchEntry_sat (noNul_take h0) h.mid.sound ⟨h.opened, hd⟩ hl).imp
    fun r s' hr => ?_
  rw [List.take_take, Nat.min_self, lookup_take h.mid.sound hd, h.disk] at hr
  exact ⟨hr.1, h.loaded hr.2⟩

/-- From one inode to the next. -/
theorem Inside.next {m : Nat} (hb : Ready b) (h : Inside b H n ip s) (hm : Linked b.disk m)
    (hE : (∀ j, (b.icache j).ref + (ip :: H).count j ≠ 0) → E .inodeAllocNoInodes) :
    Sat (do inodeUnlock ip; let next ← inodeAlloc m; inodeFree ip; return next) s G
      (fun next => Stands b H m next) E := by
  refine (h.mid.unlock hb (.refl _)).bind fun _ s₁ h₁ => ?_
  obtain ⟨hmid₁, rfl⟩ := h₁
  refine (hmid₁.alloc hb hm.lt (by rw [setLock_disk, h.disk]; exact hm.live) hE).bind
    fun next s₂ h₂ => ?_
  obtain ⟨hmid₂, ha⟩ := h₂
  have hd₂ : s₂.disk = b.disk := by
    rw [ha.eq]
    exact h.disk
  -- the entry that is left keeps its fields and loses no reference by the allocation
  have hold : (s.icache ip).ref ≤ (s₂.icache ip).ref ∧
    (s₂.icache ip).nlink = (s.icache ip).nlink := by
    by_cases hi : ip = next
    · subst hi
      have hr := ha.ref
      have hf := ha.fields
      rw [setLock_icache] at hr hf
      exact ⟨by omega, by rw [hf]⟩
    · have hi₂ : s₂.icache ip = s.icache ip := by
        rw [ha.eq, setInode_icache, Function.update_of_ne hi, setLock_icache]
      rw [hi₂]
      exact ⟨le_refl _, rfl⟩
  have hk : 2 ≤ (s₂.icache ip).ref ∨ (s₂.icache ip).nlink ≠ 0 := by
    rw [hold.2]
    exact h.kept.imp_left fun hr => hr.trans hold.1
  refine (hmid₂.free hb (List.Perm.swap ip next H) hk).bind fun _ s₃ h₃ => ?_
  obtain ⟨hmid₃, rfl⟩ := h₃
  refine (sat_pure _).mpr ⟨hmid₃, hd₂, ?_, Or.inr hm.nlink⟩
  by_cases hi : next = ip
  · subst hi
    simpa using ha.num
  · simpa [hi] using ha.num

end

section

variable {b s : State} {H : List Slot} {ip : Slot} {n : Nat} {e : Name} {es : List Name}
  {findParent : Bool} {G : Event → Prop} {E : Panic → Prop}
  {Q : Option (Slot × Name) → State → Prop}

/-- One element of the path, unless it is the last one of a search for the parent. -/
theorem Stands.step (hb : Ready b) (h : Stands b H n ip s) (h0 : 0 ∉ e)
    (hstop : ¬ (findParent = true ∧ es = []))
    (hE : ∀ ip, (∀ j, (b.icache j).ref + (ip :: H).count j ≠ 0) → E .inodeAllocNoInodes)
    (hnone : dirStep b.disk n e = none → ∀ s', Returned b H s' → Q none s')
    (hsome : ∀ m next s', dirStep b.disk n e = some m → Stands b H m next s' →
      Sat (searchElements findParent next es) s' G Q E) :
    Sat (searchElements findParent ip (e :: es)) s G Q E := by
  rw [searchElements]
  refine (h.lock hb).bind fun _ s₁ h₁ => ?_
  rw [sat_bind, sat_inodeOf]
  by_cases hdir : IsDir b.disk n
  · rw [if_neg (not_not.mpr (h₁.dir.mpr hdir)), if_neg hstop]
    refine (h₁.search hdir hb h0).bind fun r s₂ h₂ => ?_
    obtain ⟨hr, h₂⟩ := h₂
    have hstep : dirStep b.disk n e = lookup b.disk n e := if_pos hdir
    split
    · next hu =>
      rw [hr, hb.sound.lookup_ne_unused hdir] at hu
      refine (h₂.leave hb).bind fun _ s₃ h₃ => ?_
      exact (sat_pure _).mpr (hnone (hstep.trans hu) s₃ h₃)
    · next hu =>
      rw [hr, hb.sound.lookup_ne_unused hdir] at hu
      obtain ⟨m, hm⟩ := Option.ne_none_iff_exists'.mp hu
      rw [hm, Option.getD_some] at hr
      rw [hr]
      have hnext := h₂.next (G := G) hb (hb.sound.lookup_linked hdir hm) (hE ip)
      simp only [sat_bind, sat_pure] at hnext ⊢
      exact hnext.imp fun _ _ hu => hu.imp fun next _ ha => ha.imp fun _ s₃ h₃ =>
        hsome m next s₃ (hstep.trans hm) h₃
  · rw [if_pos fun ht => hdir (h₁.dir.mp ht)]
    refine (h₁.leave hb).bind fun _ s₂ h₂ => ?_
    exact (sat_pure _).mpr (hnone (if_neg hdir) s₂ h₂)

/-- The search for the inode itself. -/
theorem searchElements_inode (hb : Ready b) (h : Stands b H n ip s)
    (hes : ∀ e ∈ es, 0 ∉ e ∧ e ≠ [])
    (hE : ∀ ip, (∀ j, (b.icache j).ref + (ip :: H).count j ≠ 0) → E .inodeAllocNoInodes) :
    Sat (searchElements false ip es) s G (fun r s' => Returned b (handles r ++ H) s' ∧
      r.map (fun q => (s'.icache q.1).inodeNum) = walk b.disk n es) E := by
  induction es generalizing n ip s with
  | nil =>
      rw [searchElements, if_neg (by simp), sat_pure, walk]
      exact ⟨⟨h.mid, h.disk⟩, congrArg some h.num⟩
  | cons e es ih =>
      obtain ⟨he, hes⟩ := List.forall_mem_cons.mp hes
      refine h.step hb he.1 (by simp) hE (fun hnone s' hs => ?_) fun m next s' hsome hs => ?_
      · rw [walk, hnone]
        exact ⟨hs, rfl⟩
      · rw [walk, hsome]
        exact ih hs hes

def FoundParent (D : Disk) (n : Nat) (es : List Name) (s : State) : Option (Slot × Name) → Prop
  | none => parentDir D n es = none
  | some (pip, name) =>
      parentDir D n es = some (s.icache pip).inodeNum ∧ (s.icache pip).valid = true ∧
      es.getLast?.map (·.take dirNameLen) = some name

/-- The search for the parent, on a path with an element. -/
theorem searchElements_parent (hb : Ready b) (h : Stands b H n ip s)
    (hes : ∀ e ∈ es, 0 ∉ e ∧ e ≠ []) (hne : es ≠ [])
    (hE : ∀ ip, (∀ j, (b.icache j).ref + (ip :: H).count j ≠ 0) → E .inodeAllocNoInodes) :
    Sat (searchElements true ip es) s G (fun r s' => Returned b (handles r ++ H) s' ∧
      FoundParent b.disk n es s' r) E := by
  induction es generalizing n ip s with
  | nil => exact absurd rfl hne
  | cons e es ih =>
      obtain ⟨he, hes⟩ := List.forall_mem_cons.mp hes
      by_cases hlast : es = []
      · subst hlast
        rw [searchElements]
        refine (h.lock hb).bind fun _ s₁ h₁ => ?_
        rw [sat_bind, sat_inodeOf]
        by_cases hdir : IsDir b.disk n
        · rw [if_neg (not_not.mpr (h₁.dir.mpr hdir)), if_pos ⟨rfl, rfl⟩]
          refine (h₁.mid.unlock hb (.refl _)).bind fun _ s₂ h₂ => ?_
          obtain ⟨hmid, rfl⟩ := h₂
          refine (sat_pure _).mpr ⟨⟨hmid, h₁.disk⟩, ?_, h₁.opened.valid, rfl⟩
          rw [parentDir_single, if_pos hdir]
          exact congrArg some h₁.opened.num.symm
        · rw [if_pos fun ht => hdir (h₁.dir.mp ht)]
          refine (h₁.leave hb).bind fun _ s₂ h₂ => ?_
          refine (sat_pure _).mpr ⟨h₂, ?_⟩
          rw [FoundParent, parentDir_single, if_neg hdir]
      · refine h.step hb he.1 (fun hs => hlast hs.2) hE (fun hnone s' hs => ?_)
          fun m next s' hsome hs => (ih hs hes hlast).imp fun r s'' hr => ?_
        · refine ⟨hs, ?_⟩
          rw [FoundParent, parentDir_cons hlast, hnone]
          rfl
        · refine ⟨hr.1, ?_⟩
          have hp : parentDir b.disk n (e :: es) = parentDir b.disk m es := by
            rw [parentDir_cons hlast, hsome]
            rfl
          have hl : (e :: es).getLast? = es.getLast? := by
            rw [List.getLast?_cons, List.getLast?_eq_some_getLast hlast]
            rfl
          cases r with
          | none => exact hp.trans hr.2
          | some q =>
              obtain ⟨h1, h2, h3⟩ := hr.2
              exact ⟨hp.trans h1, h2, by rw [hl]; exact h3⟩

end

/-! ## Where a search starts -/

def start (s : State) (path : List UInt8) : Option Nat :=
  if path.head? = some slash then some inodeRoot else s.cwd.map fun c => (s.icache c).inodeNum

/-- Two entries of the `icache` are free besides the handles `H`. -/
def Room (b : State) (H : List Slot) : Prop :=
  ∃ i j, i ≠ j ∧ (b.icache i).ref + H.count i = 0 ∧ (b.icache j).ref + H.count j = 0

section

variable {b s s' : State} {H L : List Slot} {ip : Slot} {n : Nat} {path : List UInt8}
  {G : Event → Prop} {E : Panic → Prop}

theorem Room.not_full (h : Room b H) (ip : Slot) :
    ¬ ∀ j, (b.icache j).ref + (ip :: H).count j ≠ 0 := by
  obtain ⟨i, j, hij, hi, hj⟩ := h
  intro hall
  by_cases he : ip = i
  · have hne : ip ≠ j := fun hj => hij (he ▸ hj)
    refine hall j ?_
    rw [List.count_cons_of_ne hne]
    exact hj
  · refine hall i ?_
    rw [List.count_cons_of_ne he]
    exact hi

theorem Mid.dup (hb : Ready b) (h : Mid b H L s) (hr : (s.icache ip).ref ≠ 0) :
    Sat (inodeDup ip) s G (fun r s' => Mid b (r :: H) L s' ∧ r = ip ∧
      s' = s.setInode ip { s.icache ip with ref := (s.icache ip).ref + 1 }) E := by
  have hs : Sat (inodeDup ip) s G (fun r s' => r = ip ∧
      s' = s.setInode ip { s.icache ip with ref := (s.icache ip).ref + 1 }) E :=
    (inodeDup_sat (h.icache_free hb)).mpr ⟨rfl, rfl⟩
  refine hs.run.imp fun r s' hd => ?_
  refine ⟨⟨(h.holds.dup ip).of_ok hd.2, ?_⟩, hd.1⟩
  rw [hd.1.2]
  exact h.sound.setRef ((h.sound.slot ip).live (Or.inl hr)) fun h0 => absurd h0 (Nat.succ_ne_zero _)

/-- The search behind its first handle. -/
theorem searchInode_from (hb : Ready b) (h : Returned b H s) (hstart : start s path = some n)
    (hE : ∀ ip, (∀ j, (b.icache j).ref + (ip :: H).count j ≠ 0) → E .inodeAllocNoInodes)
    (findParent : Bool) {Q : Option (Slot × Name) → State → Prop}
    (hsearch : ∀ ip s', Stands b H n ip s' →
      Sat (searchElements findParent ip (elements path)) s' G Q E) :
    Sat (searchInode path findParent) s G Q E := by
  unfold searchInode
  simp only [searchLoop_elements _ _ _ _ (Nat.lt_succ_self _)]
  unfold start at hstart
  split at hstart
  · next hslash =>
    rw [if_pos hslash]
    obtain rfl := Option.some.inj hstart
    have hroot := hb.sound.root
    have hfull : (∀ j, (b.icache j).ref + H.count j ≠ 0) → E .inodeAllocNoInodes := fun hall =>
      hE 0 fun j => by
        have hj := hall j
        have hc := List.count_le_count_cons (l := H) (a := j) (b := (0 : Slot))
        omega
    refine (h.mid.alloc hb hroot.lt (by rw [h.disk]; exact hroot.live) hfull).bind fun ip s₁ ha =>
      ?_
    refine hsearch ip s₁ ⟨ha.1, ?_, ha.2.num, Or.inr hroot.nlink⟩
    rw [ha.2.eq]
    exact h.disk
  · next hslash =>
    rw [if_neg hslash, sat_bind, sat_state]
    obtain ⟨c, hc, hn⟩ := Option.map_eq_some_iff.mp hstart
    rw [hc]
    have href : (s.icache c).ref ≠ 0 := by
      have hr := hb.cwd c (h.mid.holds.cwd ▸ hc)
      rw [h.mid.holds.ref c]
      omega
    refine (h.mid.dup hb href).bind fun r s₁ hd => ?_
    obtain ⟨hmid, rfl, rfl⟩ := hd
    refine hsearch r _ ⟨hmid, h.disk, ?_, Or.inl ?_⟩
    · simpa using hn
    · simp only [setInode_icache, Function.update_self]
      omega

/-- The release of a handle that was never locked returns, also when it destroys the inode. -/
theorem Stands.free_bare (hb : Ready b) (h : Stands b H n ip s) :
    Sat (inodeFree ip) s (fun _ => True) (fun _ _ => True) E := by
  by_cases hk : 2 ≤ (s.icache ip).ref ∨ (s.icache ip).nlink ≠ 0
  · exact (h.mid.free hb (.refl _) hk).imp fun _ _ _ => trivial
  · have hr : (s.icache ip).ref ≠ 0 := h.mid.ref_ne List.mem_cons_self
    rw [not_or, not_not] at hk
    obtain ⟨href, hz⟩ := hk
    have hone : (s.icache ip).ref = 1 := by omega
    have hok := h.mid.sound.slot ip
    have hv : (s.icache ip).valid = false := by
      -- a loaded entry has the link count of the disk
      by_contra hv
      have hl := h.mid.sound.nlink_eq h.num (by simpa using hv)
      rw [hz, h.disk] at hl
      exact h.kept.elim href fun hne => hne hl.symm
    have hlive := hok.live (Or.inl hr)
    unfold inodeFree
    rw [sat_bind, sat_acquire (h.mid.icache_free hb), sat_bind, sat_modifyInode, setInode_setLock,
      sat_bind, sat_inodeOf]
    simp only [setLock_icache, setInode_icache, Function.update_self, hone, hz,
      Nat.sub_self, and_self,
      if_true, sat_bind]
    have hst := h.mid.sound.tree.store
    have hs : StoreInv [] ((s.setInode ip { s.icache ip with ref := 0 }).setLock .icache true) :=
      ⟨hst.sb, (hst.cache.setInode _).setLock (by simp) (by simp) true, hst.settled, hst.kept⟩
    refine (inodeDestroy_bare hs (by simp) hlive.1 ?_ ?_ (fun _ => trivial) trivial).imp
      fun _ s₁ hd => ?_
    · simpa using hok.stale (Or.inr hv) hz
    · rw [setLock_locks, Function.update_of_ne (by simp), setInode_locks, h.mid.lock_eq hb]
      simp
    · rw [sat_release (by rw [hd.2]; simp)]
      trivial

end

/-! ## Path resolution -/

/-- A slash is doubled, or one is put behind a path that is not empty. -/
inductive AddSlash : List UInt8 → List UInt8 → Prop
  | double (p q : List UInt8) : AddSlash (p ++ slash :: q) (p ++ slash :: slash :: q)
  | trail (p : List UInt8) (ne : p ≠ []) : AddSlash p (p ++ [slash])

section

variable {b s : State} {n : Nat} {p q path : List UInt8} {e : Name} {es es' : List Name}
  {G : Event → Prop} {E : Panic → Prop}

theorem AddSlash.same (h : AddSlash p q) :
    elements p = elements q ∧ (p.head? = some slash ↔ q.head? = some slash) := by
  cases h with
  | double p q =>
      refine ⟨?_, ?_⟩
      · rw [elements_append_slash, elements_append_slash, elements_slash]
      · cases p with
        | nil => simp
        | cons c p => simp
  | trail p ne =>
      refine ⟨?_, ?_⟩
      · rw [elements_append_slash, elements_nil, List.append_nil]
      · cases p with
        | nil => exact absurd rfl ne
        | cons c p => simp

theorem AddSlash.search (h : Relation.EqvGen AddSlash p q) (findParent : Bool) :
    searchInode p findParent = searchInode q findParent := by
  induction h with
  | rel p q h => exact searchInode_congr h.same.1 h.same.2 findParent
  | refl p => rfl
  | symm p q _ ih => exact ih.symm
  | trans p q r _ _ ih ih' => exact ih.trans ih'

/-- The elements of a string are strings. -/
theorem elements_good (path : List UInt8) (h0 : 0 ∉ path) :
    ∀ e ∈ elements path, 0 ∉ e ∧ e ≠ [] := by
  induction hl : path.length using Nat.strong_induction_on generalizing path with
  | _ k ih =>
      subst hl
      cases hs : skipElement path with
      | none =>
          rw [skipElement_none hs]
          simp
      | some r =>
          obtain ⟨rest, name⟩ := r
          have he := skipElement_some hs
          rw [he.split, List.forall_mem_cons]
          refine ⟨⟨fun hm => h0 (he.mem 0 hm), he.ne⟩, ?_⟩
          exact ih _ he.shorter rest (fun hm => h0 (he.rest_mem 0 hm)) rfl

/-- A long element is missing wherever it is looked up. -/
theorem walk_long (h : Sound s) (hlen : dirNameLen ≤ e.length) :
    walk s.disk n (es ++ e :: es') = none := by
  induction es generalizing n with
  | nil =>
      rw [List.nil_append, walk, dirStep]
      split
      · next hd => rw [h.lookup_long hd hlen, Option.bind_none]
      · rfl
  | cons e₀ es ih =>
      rw [List.cons_append, walk]
      cases dirStep s.disk n e₀ with
      | none => rfl
      | some m => exact ih

/-- Looking up the last element in the directory that `path_to_pinode` found. -/
theorem FoundParent.lookup (hb : Ready b) {pip : Slot} {name : Name} (h : Returned b [pip] s)
    (hes : ∀ e ∈ es, 0 ∉ e ∧ e ≠ []) (hf : FoundParent b.disk n es s (some (pip, name))) :
    Sat (do inodeLock pip; dirSearchEntry pip name) s (fun _ => True) (fun r _ =>
      walk b.disk n es = if r = inodeNumUnused then none else some r) fun _ => False := by
  obtain ⟨hp, hv, hname⟩ := hf
  obtain ⟨e, hlast, rfl⟩ := Option.map_eq_some_iff.mp hname
  have hne : es ≠ [] := by
    rintro rfl
    cases hlast
  have hget : es.getLast hne = e := by
    rw [List.getLast?_eq_some_getLast hne] at hlast
    exact Option.some.inj hlast
  have hgood := hes e (List.mem_of_getLast? hlast)
  have hdir : IsDir b.disk (s.icache pip).inodeNum := by
    have hm := (Option.filter_eq_some_iff.mp hp).2
    simpa using hm
  refine (h.mid.lock hb List.mem_cons_self (by simp)).bind fun _ s₁ h₁ => ?_
  obtain ⟨hmid, hcore⟩ := h₁
  have hd : s₁.disk = b.disk := (congrArg Core.disk hcore).trans h.disk
  have hic : s₁.icache pip = s.icache pip := by
    have hc : s₁.icache = Function.update s.icache pip (loadedInode s.disk (s.icache pip)) :=
      congrArg Core.icache hcore
    rw [hc, Function.update_self, loadedInode_of_valid hv]
  have hl : s₁.locks (.inode pip) = true := by
    rw [hmid.lock_eq hb]
    simp
  have hop : Opened s₁ (s.icache pip).inodeNum pip := ⟨by rw [hic], by rw [hic, hv]⟩
  refine (dirSearchEntry_sat (noNul_take hgood.1) hmid.sound
    ⟨hop, by rw [hd]; exact hdir⟩ hl).imp fun r s₂ hr => ?_
  rw [List.take_take, Nat.min_self, lookup_take hmid.sound (by rw [hd]; exact hdir), hd] at hr
  rw [walk_parent hne _ hp, hget]
  have hu : (Fs.lookup b.disk _ e).getD inodeNumUnused = inodeNumUnused ↔ _ :=
    hb.sound.lookup_ne_unused hdir
  split
  · next hn => exact hu.mp (hr.1 ▸ hn)
  · next hn =>
    obtain ⟨m, hm⟩ := Option.ne_none_iff_exists'.mp fun hnone => hn (hr.1.trans (hu.mpr hnone))
    rw [hm, hr.1, hm, Option.getD_some]

theorem pathToInode_walk (hb : Ready b) (h0 : 0 ∉ path) (hn : start b path = some n)
    (hE : ∀ ip, (∀ j, (b.icache j).ref + ([ip] : List Slot).count j ≠ 0) → E .inodeAllocNoInodes) :
    Sat (pathToInode path) b G (fun r s =>
      r.map (fun ip => (s.icache ip).inodeNum) = walk b.disk n (elements path)) E := by
  unfold pathToInode
  refine Sat.bind (searchInode_from hb ⟨hb.mid, rfl⟩ hn hE false fun ip s' h =>
    searchElements_inode hb h (elements_good path h0) hE) fun r s' hr => ?_
  rw [sat_pure, ← hr.2, Option.map_map]
  rfl

theorem pathToPinode_found (hb : Ready b) (h0 : 0 ∉ path) (hn : start b path = some n)
    (hE : ∀ ip, (∀ j, (b.icache j).ref + ([ip] : List Slot).count j ≠ 0) → E .inodeAllocNoInodes) :
    Sat (pathToPinode path) b (fun _ => True) (fun r s => (elements path = [] → r = none) ∧
      (elements path ≠ [] →
        Returned b (handles r) s ∧ FoundParent b.disk n (elements path) s r)) E := by
  refine searchInode_from hb ⟨hb.mid, rfl⟩ hn hE true fun ip s' h => ?_
  by_cases hnil : elements path = []
  · rw [hnil, searchElements, if_pos rfl]
    exact (h.free_bare hb).bind fun _ _ _ =>
    (sat_pure _).mpr ⟨fun _ => rfl, fun hne => absurd rfl hne⟩
  · refine (searchElements_parent hb h (elements_good path h0) hnil hE).imp fun r s hr => ?_
    refine ⟨fun h => absurd h hnil, fun _ => ?_⟩
    simpa using hr

/-- Without a start the search does not return. -/
theorem start_of_ok {r : Option (Slot × Name)} {findParent : Bool}
    (hr : (searchInode path findParent b).1 = .ok (r, s)) : ∃ n, start b path = some n := by
  unfold start
  split
  · exact ⟨_, rfl⟩
  · next hslash =>
    cases hc : b.cwd with
    | some c => exact ⟨_, rfl⟩
    | none =>
        have hs : Sat (searchInode path findParent) b (fun _ => True) (fun _ _ => False) fun _ =>
          True := by
          unfold searchInode
          rw [if_neg hslash, sat_bind, sat_state, hc]
          exact (sat_panic _).mpr trivial
        exact (hs.of_ok hr).elim

/-- `path_to_inode` and `path_to_pinode` compute the walk over the elements of the path. -/
theorem path_search_correct (b : State) (hb : Ready b) (hroom : Room b []) (path : List UInt8)
    (h0 : 0 ∉ path) (n : Nat) (hn : start b path = some n) :
    (∃ r s, (pathToInode path b).1 = .ok (r, s) ∧
      r.map (fun ip => (s.icache ip).inodeNum) = walk b.disk n (elements path)) ∧
    (∃ r s, (pathToPinode path b).1 = .ok (r, s) ∧ (elements path = [] → r = none) ∧
      (elements path ≠ [] → FoundParent b.disk n (elements path) s r) ∧
      ∀ pip name, r = some (pip, name) → ∃ m s',
        ((do inodeLock pip; dirSearchEntry pip name : FsM Nat) s).1 = .ok (m, s') ∧
        walk b.disk n (elements path) = if m = inodeNumUnused then none else some m) ∧
    (∀ es e es', elements path = es ++ e :: es' → dirNameLen ≤ e.length →
      walk b.disk n (elements path) = none) ∧
    ∀ q, Relation.EqvGen AddSlash path q →
      pathToInode q = pathToInode path ∧ pathToPinode q = pathToPinode path := by
  have hE : ∀ ip, (∀ j, (b.icache j).ref + ([ip] : List Slot).count j ≠ 0) → False := hroom.not_full
  refine ⟨?_, ?_, fun es e es' he hlen => ?_, fun q hq => ?_⟩
  · obtain ⟨r, s, hr, hq⟩ :=
      (pathToInode_walk (G := fun _ => True) (E := fun _ => False) hb h0 hn hE).returns
    exact ⟨r, s, hr, hq⟩
  · obtain ⟨r, s, hr, hnil, hfound⟩ :=
      (pathToPinode_found (E := fun _ => False) hb h0 hn hE).returns
    refine ⟨r, s, hr, hnil, fun hne => (hfound hne).2, ?_⟩
    rintro pip name rfl
    have hne : elements path ≠ [] := fun he => by simpa using hnil he
    obtain ⟨hback, hf⟩ := hfound hne
    exact (FoundParent.lookup hb hback (elements_good path h0) hf).returns
  · rw [he]
    exact walk_long hb.sound hlen
  · have h1 := AddSlash.search hq false
    have h2 := AddSlash.search hq true
    exact ⟨by rw [pathToInode, pathToInode, h1], h2.symm⟩

end

section Boot

variable {junk : Bytes} {files : List Mkfs.HostFile} {img : Mkfs.Image} {s : State}

theorem ready_mounted (h : Mkfs.main junk files = some img) (hm : Mounted img s) : Ready s := by
  have hcore := (hm.boot h).1
  have hl : s.locks = (bootCore img).locks := congrArg Core.locks hcore
  have hc : s.cwd = none := congrArg Core.cwd hcore
  refine ⟨sound_mounted h hm, by rw [hl]; rfl, fun j => by rw [hl]; rfl, fun c hcwd => ?_⟩
  rw [hc] at hcwd
  cases hcwd

theorem room_mounted (h : Mkfs.main junk files = some img) (hm : Mounted img s) : Room s [] := by
  have hic : s.icache = fun _ => unusedInode := congrArg Core.icache (hm.boot h).1
  refine ⟨0, 1, by decide, ?_, ?_⟩
  · rw [hic]
    rfl
  · rw [hic]
    rfl

/-- The root directory of an image names itself. -/
theorem lookup_root_dot (h : Mkfs.main junk files = some img) :
    lookup img inodeRoot dot = some inodeRoot := by
  have hf := Mkfs.main_fresh h
  have hcount : entCount (inoAt img inodeRoot) = files.length + 1 + 1 := by
    rw [show inoAt img inodeRoot = _ from hf.root, entCount_rootInode hf.few]
  rw [lookup, hcount, lookupFrom, show ents img inodeRoot 0 = bootEntry files 0 from ents_boot hf 0]
  rfl

end Boot

/-- The root directory is found in itself. -/
theorem path_search_correct_root : ∃ img s, Mkfs.main (fun _ => 0) [] = some img ∧ Mounted img s ∧
    ∃ r s', (pathToInode (slash :: dot) s).1 = .ok (r, s') ∧
      r.map (fun ip => (s'.icache ip).inodeNum) = some inodeRoot := by
  have hsome : (Mkfs.main (fun _ => 0) []).isSome := by decide +kernel
  obtain ⟨img, himg⟩ := Option.isSome_iff_exists.mp hsome
  obtain ⟨s, hm⟩ := exists_mounted himg
  obtain ⟨⟨r, s', hr, hwalk⟩, -⟩ := path_search_correct s (ready_mounted himg hm)
    (room_mounted himg hm) (slash :: dot) (by decide) inodeRoot rfl
  refine ⟨img, s, himg, hm, r, s', hr, ?_⟩
  have hd : s.disk = img := congrArg Core.disk (hm.boot himg).1
  have hdir : IsDir img inodeRoot := (isDir_boot (Mkfs.main_fresh himg)).mpr rfl
  rw [hwalk, hd, show elements (slash :: dot) = [dot] by decide, walk, dirStep, if_pos hdir,
    lookup_root_dot himg]
  rfl

/-- A name of 31 characters reaches the caller of `path_to_pinode` with 30. -/
theorem pinode_name_cut :
    ∃ img s pip name s', Mkfs.main (fun _ => 0) [] = some img ∧ Mounted img s ∧
    (pathToPinode (slash :: List.replicate 31 97) s).1 = .ok (some (pip, name), s') ∧
    (elements (slash :: List.replicate 31 97)).getLast? ≠ some name := by
  have hsome : (Mkfs.main (fun _ => 0) []).isSome := by decide +kernel
  obtain ⟨img, himg⟩ := Option.isSome_iff_exists.mp hsome
  obtain ⟨s, hm⟩ := exists_mounted himg
  have hb := ready_mounted himg hm
  have hE := (room_mounted himg hm).not_full
  have hd : s.disk = img := congrArg Core.disk (hm.boot himg).1
  have hdir : IsDir s.disk inodeRoot := by
    rw [hd]
    exact (isDir_boot (Mkfs.main_fresh himg)).mpr rfl
  have hel : elements (slash :: List.replicate 31 97) = [List.replicate 31 97] := by decide
  have hs : Sat (pathToPinode (slash :: List.replicate 31 97)) s (fun _ => True)
      (fun r s' => FoundParent s.disk inodeRoot [List.replicate 31 97] s' r) (fun _ => False) :=
    searchInode_from hb ⟨hb.mid, rfl⟩ rfl hE true fun ip s' h => by
      rw [hel]
      exact (searchElements_parent hb h (by decide) (by simp) hE).imp fun _ _ hr => hr.2
  obtain ⟨r, s', hr, hf⟩ := hs.returns
  cases r with
  | none =>
      rw [FoundParent, parentDir_single, if_pos hdir] at hf
      cases hf
  | some q =>
      refine ⟨img, s, q.1, q.2, s', himg, hm, hr, ?_⟩
      rw [hel, ← hf.2.2]
      decide

end WhuOs.Fs
