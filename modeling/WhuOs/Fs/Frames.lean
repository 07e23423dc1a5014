import WhuOs.Fs.Dir

/-! # What the lower calls leave alone

Whatever the state, a call of the buffer cache or of a bitmap that returns leaves
the `icache`, the locks of inodes and the working directory as they were
(`outer`). A lookup of blocks changes pointers to blocks only (`bare`), a change of
one inode leaves the other entries (`around`), and neither touches the numbers and
references of the entries (`holding`).
-/

namespace WhuOs.Fs

open Prog

def outer (s : State) : SuperBlock × (Slot → Inode) × (Slot → Bool) × Bool × Option Slot :=
  (s.sb, s.icache, fun j => s.locks (.inode j), s.locks .icache, s.cwd)

def slots (s : State) (j : Slot) : Nat × Nat := ((s.icache j).inodeNum, (s.icache j).ref)

/-- Who holds what: the entries, the locks around them and the working directory. -/
def holding (s : State) : (Slot → Nat × Nat) × (Slot → Bool) × Bool × Option Slot :=
  (slots s, fun j => s.locks (.inode j), s.locks .icache, s.cwd)

def bareInode (x : Inode) : Inode := { x with addrs := fun _ => 0 }

def bare (s : State) : (Slot → Inode) × (Slot → Bool) × Bool × Option Slot :=
  (fun j => bareInode (s.icache j), fun j => s.locks (.inode j), s.locks .icache, s.cwd)

def around (ip : Slot) (s : State) :
    ((Slot → Nat × Nat) × (Slot → Bool) × Bool × Option Slot) × (Slot → Option Inode) :=
  (holding s, fun j => if j = ip then none else some (s.icache j))

def others (ip : Slot) (s : State) : Slot → Option Inode :=
  fun j => if j = ip then none else some (s.icache j)

/-- Not the double acquire of `lk_icache` or of the lock of an inode. -/
abbrev Once (e : Panic) : Prop := e ≠ .doubleAcquireInode

section

variable {α ω : Type} {m : FsM α}

/-- The call leaves the observation as it was and takes neither `lk_icache` nor the lock of an inode
twice. -/
abbrev Leaves (obs : State → ω) (m : FsM α) : Prop := KeepsWith Once obs m

theorem keeps_bare (h : Leaves outer m) : Leaves bare m :=
  h.comp fun o => (fun j => bareInode (o.2.1 j), o.2.2)

theorem keeps_around (ip : Slot) (h : Leaves outer m) : Leaves (around ip) m :=
  h.comp fun o => ((fun j => ((o.2.1 j).inodeNum, (o.2.1 j).ref), o.2.2),
    fun j => if j = ip then none else some (o.2.1 j))

theorem holding_of_bare (h : Leaves bare m) : Leaves holding m :=
  h.comp fun o => (fun j => ((o.1 j).inodeNum, (o.1 j).ref), o.2)

theorem holding_of_around {ip : Slot} (h : Leaves (around ip) m) :
    Leaves holding m := h.comp Prod.fst

theorem others_of_around {ip : Slot} (h : Leaves (around ip) m) :
    Leaves (others ip) m := h.comp Prod.snd

theorem keeps_others (ip : Slot) (h : Leaves outer m) : Leaves (others ip) m :=
  others_of_around (keeps_around ip h)

theorem keeps_holding (h : Leaves outer m) : Leaves holding m := holding_of_bare (keeps_bare h)

end

def Lock.isBuf : Lock → Bool
  | .bufCache | .buf _ => true
  | _ => false

theorem outer_setLock (s : State) {lk : Lock} (h : lk.isBuf = true) (v : Bool) :
    outer { s with locks := Function.update s.locks lk v } = outer s := by
  have hi : ∀ j, Lock.inode j ≠ lk := by
    rintro j rfl
    cases h
  have hc : Lock.icache ≠ lk := by
    rintro rfl
    cases h
  simp only [outer, Function.update_of_ne hc, Function.update_of_ne (hi _)]

theorem twice_isBuf {lk : Lock} (h : lk.isBuf = true) : Once lk.twice := by
  cases lk with
  | bufCache => decide
  | icache => cases h
  | buf i => simp [Lock.twice]
  | inode ip => cases h

/-! ## The buffer cache -/

theorem spinlockHolding_keeps {ω : Type} {E : Panic → Prop} {obs : State → ω} (lk : Lock) :
    KeepsWith E obs (spinlockHolding lk) :=
  keeps_state.bind fun _ => keeps_pure _

theorem assert_keeps {ω : Type} {obs : State → ω} (c : Bool) {w : Panic} (hw : Once w) :
    Leaves obs (assert c w) :=
  keeps_ite (keeps_pure _) (keeps_panic hw)

theorem spinlockAcquire_keeps {lk : Lock} (h : lk.isBuf = true) :
    Leaves outer (spinlockAcquire lk) := by
  unfold spinlockAcquire
  refine (spinlockHolding_keeps lk).bind fun b => ?_
  exact keeps_ite (keeps_panic (twice_isBuf h)) (keeps_modify fun s => outer_setLock s h true)

theorem spinlockRelease_keeps {lk : Lock} (h : lk.isBuf = true) :
    Leaves outer (spinlockRelease lk) := by
  unfold spinlockRelease
  refine (spinlockHolding_keeps lk).bind fun b => ?_
  exact keeps_ite (keeps_panic (by decide)) (keeps_modify fun s => outer_setLock s h false)

theorem modifyBuf_keeps (i : BufId) (f : Buf → Buf) : Leaves outer (modifyBuf i f) :=
  keeps_modify fun _ => rfl

theorem bufData_keeps {ω : Type} {E : Panic → Prop} {obs : State → ω} (i : BufId) :
    KeepsWith E obs (bufData i) :=
  keeps_state.bind fun _ => keeps_pure _

theorem virtioDiskRw_keeps (i : BufId) (write : Bool) : Leaves outer (virtioDiskRw i write) := by
  unfold virtioDiskRw
  refine keeps_state.bind fun s => keeps_ite ?_ ?_
  · exact (keeps_emit _).bind fun _ => keeps_modify fun _ => rfl
  · exact keeps_state.bind fun _ => modifyBuf_keeps i _

theorem bufRead_keeps (b : Nat) : Leaves outer (bufRead b) := by
  unfold bufRead
  refine (spinlockAcquire_keeps rfl).bind fun _ => keeps_state.bind fun s => ?_
  dsimp only
  split
  · refine (modifyBuf_keeps _ _).bind fun _ => (spinlockRelease_keeps rfl).bind fun _ => ?_
    exact (spinlockAcquire_keeps rfl).bind fun _ => keeps_pure _
  · split
    · refine (modifyBuf_keeps _ _).bind fun _ => (spinlockRelease_keeps rfl).bind fun _ => ?_
      refine (spinlockAcquire_keeps rfl).bind fun _ => ?_
      exact (virtioDiskRw_keeps _ _).bind fun _ => keeps_pure _
    · exact (spinlockRelease_keeps rfl).bind fun _ => keeps_panic (by decide)

theorem bufWrite_keeps (i : BufId) : Leaves outer (bufWrite i) := by
  unfold bufWrite
  refine (spinlockHolding_keeps _).bind fun b => ?_
  exact keeps_ite (keeps_panic (by decide)) (virtioDiskRw_keeps i true)

theorem insertHead_keeps (i : BufId) : Leaves outer (insertHead i) :=
  keeps_modify fun _ => rfl

theorem bufRelease_keeps (i : BufId) : Leaves outer (bufRelease i) := by
  unfold bufRelease
  refine (spinlockHolding_keeps _).bind fun b => keeps_ite (keeps_panic (by decide)) ?_
  refine (spinlockRelease_keeps rfl).bind fun _ => (spinlockAcquire_keeps rfl).bind fun _ => ?_
  refine (modifyBuf_keeps i _).bind fun _ => keeps_state.bind fun s => keeps_ite ?_ ?_
  · exact (insertHead_keeps i).bind fun _ => spinlockRelease_keeps rfl
  · exact spinlockRelease_keeps rfl

theorem setBufData_keeps (i : BufId) (d : Block) : Leaves outer (setBufData i d) :=
  modifyBuf_keeps i _

/-! ## Bitmaps -/

theorem bitmapSearchAndSet_keeps (bb : Nat) : Leaves outer (bitmapSearchAndSet bb) := by
  unfold bitmapSearchAndSet
  refine (bufRead_keeps bb).bind fun buf => (bufData_keeps buf).bind fun data => ?_
  split
  · refine (setBufData_keeps buf _).bind fun _ => (bufWrite_keeps buf).bind fun _ => ?_
    exact (bufRelease_keeps buf).bind fun _ => keeps_pure _
  · exact (bufRelease_keeps buf).bind fun _ => keeps_pure _

theorem bitmapUnset_keeps (bb num : Nat) : Leaves outer (bitmapUnset bb num) := by
  unfold bitmapUnset
  refine (bufRead_keeps bb).bind fun buf => keeps_ite (keeps_panic (by decide)) ?_
  refine (bufData_keeps buf).bind fun data => keeps_ite (bufRelease_keeps buf) ?_
  refine (setBufData_keeps buf _).bind fun _ => (bufWrite_keeps buf).bind fun _ => ?_
  exact bufRelease_keeps buf

theorem bitmapAllocBlock_keeps : Leaves outer bitmapAllocBlock := by
  unfold bitmapAllocBlock
  refine keeps_state.bind fun s => (bitmapSearchAndSet_keeps _).bind fun bit => keeps_ite ?_ ?_
  · exact (keeps_emit _).bind fun _ => keeps_pure _
  · exact keeps_pure _

theorem bitmapFreeBlock_keeps (b : Nat) : Leaves outer (bitmapFreeBlock b) := by
  unfold bitmapFreeBlock
  exact keeps_state.bind fun s => keeps_ite (keeps_pure _) (bitmapUnset_keeps _ _)

theorem bitmapAllocInode_keeps : Leaves outer bitmapAllocInode := by
  unfold bitmapAllocInode
  refine keeps_state.bind fun s => (bitmapSearchAndSet_keeps _).bind fun bit => ?_
  exact keeps_ite (keeps_pure _) (keeps_pure _)

theorem bitmapFreeInode_keeps (n : Nat) : Leaves outer (bitmapFreeInode n) := by
  unfold bitmapFreeInode
  exact keeps_state.bind fun s => bitmapUnset_keeps _ _

/-! ## Inodes -/

theorem inodeOf_keeps {ω : Type} {E : Panic → Prop} {obs : State → ω} (ip : Slot) :
    KeepsWith E obs (inodeOf ip) :=
  keeps_state.bind fun _ => keeps_pure _

theorem slots_setInode (s : State) (ip : Slot) (x : Inode) :
    slots (s.setInode ip x) = Function.update (slots s) ip (x.inodeNum, x.ref) := by
  funext j
  by_cases hj : j = ip
  · simp [slots, State.setInode, hj]
  · simp [slots, State.setInode, hj]

/-- An update of the fields copied from disk. -/
theorem modifyInode_keeps (ip : Slot) {f : Inode → Inode}
    (h : ∀ x, (f x).inodeNum = x.inodeNum ∧ (f x).ref = x.ref) :
    Leaves (around ip) (modifyInode ip f) := by
  refine keeps_modify fun s => ?_
  have hs : slots (s.setInode ip (f (s.icache ip))) = slots s := by
    rw [slots_setInode, Function.update_eq_self_iff, (h _).1, (h _).2]
    rfl
  have hother : (fun j => if j = ip then none else
      some ((s.setInode ip (f (s.icache ip))).icache j)) =
      fun j => if j = ip then none else some (s.icache j) := by
    funext j
    by_cases hj : j = ip
    · rw [if_pos hj, if_pos hj]
    · rw [if_neg hj, if_neg hj]
      exact congrArg some (Function.update_of_ne hj _ _)
  refine Prod.ext ?_ hother
  unfold around holding
  rw [hs]
  rfl

theorem inodeRw_keeps (ip : Slot) (write : Bool) : Leaves (around ip) (inodeRw ip write) := by
  unfold inodeRw
  refine (inodeOf_keeps ip).bind fun x => keeps_state.bind fun s => ?_
  refine (keeps_around ip (bufRead_keeps _)).bind fun buf => (bufData_keeps buf).bind fun data => ?_
  refine keeps_ite ?_ ?_
  · refine (keeps_around ip (setBufData_keeps buf _)).bind fun _ => ?_
    exact (keeps_around ip (bufWrite_keeps buf)).bind fun _ =>
    keeps_around ip (bufRelease_keeps buf)
  · refine KeepsWith.bind (modifyInode_keeps ip fun _ => ⟨rfl, rfl⟩) fun _ => ?_
    exact keeps_around ip (bufRelease_keeps buf)

theorem inodeRw_write_keeps (ip : Slot) : Leaves outer (inodeRw ip true) := by
  unfold inodeRw
  refine (inodeOf_keeps ip).bind fun x => keeps_state.bind fun s => ?_
  refine (bufRead_keeps _).bind fun buf => (bufData_keeps buf).bind fun data => ?_
  rw [if_pos rfl]
  exact (setBufData_keeps buf _).bind fun _ =>
    (bufWrite_keeps buf).bind fun _ => bufRelease_keeps buf

theorem freeEntries_keeps {free : Nat → FsM Unit} (hf : ∀ b, Leaves outer (free b)) (buf : BufId)
    (n k : Nat) : Leaves outer (freeEntries free buf n k) := by
  induction n generalizing k with
  | zero => exact keeps_pure _
  | succ n ih =>
      unfold freeEntries
      refine (bufData_keeps buf).bind fun data => keeps_ite (keeps_pure _) ?_
      exact (hf _).bind fun _ => ih (k + 1)

theorem dataFree_keeps (level b : Nat) : Leaves outer (dataFree level b) := by
  induction level generalizing b with
  | zero => exact (assert_keeps _ (by decide)).bind fun _ => bitmapFreeBlock_keeps b
  | succ level ih =>
      unfold dataFree
      refine (assert_keeps _ (by decide)).bind fun _ => (bufRead_keeps b).bind fun buf => ?_
      refine (freeEntries_keeps ih buf _ _).bind fun _ => (bufRelease_keeps buf).bind fun _ => ?_
      exact bitmapFreeBlock_keeps b

theorem freeAddrs_keeps (ip : Slot) (is : List (Fin 13)) :
    Leaves (around ip) (freeAddrs ip is) := by
  induction is with
  | nil => exact keeps_pure _
  | cons i is ih =>
      unfold freeAddrs freeAddr
      refine KeepsWith.bind ?_ fun _ => ih
      refine (inodeOf_keeps ip).bind fun x => keeps_ite ?_ (keeps_pure _)
      refine keeps_ite ?_ ?_
      · refine (keeps_around ip (bitmapFreeBlock_keeps _)).bind fun _ => ?_
        exact modifyInode_keeps ip fun _ => ⟨rfl, rfl⟩
      · refine (keeps_around ip (dataFree_keeps _ _)).bind fun _ => ?_
        exact modifyInode_keeps ip fun _ => ⟨rfl, rfl⟩

theorem inodeFreeData_keeps (ip : Slot) : Leaves (around ip) (inodeFreeData ip) := by
  unfold inodeFreeData
  exact (freeAddrs_keeps ip _).bind fun _ => modifyInode_keeps ip fun _ => ⟨rfl, rfl⟩

/-! ## Data -/

theorem readEntry_keeps {ω : Type} {E : Panic → Prop} {obs : State → ω} (e : Entry) :
    KeepsWith E obs (readEntry e) := by
  cases e with
  | addr ip i => exact (inodeOf_keeps ip).bind fun _ => keeps_pure _
  | word buf k => exact (bufData_keeps buf).bind fun _ => keeps_pure _

theorem writeEntry_keeps (e : Entry) (v : Nat) : Leaves bare (writeEntry e v) := by
  cases e with
  | addr ip i =>
      refine keeps_modify fun s => Prod.ext ?_ rfl
      funext j
      by_cases hj : j = ip
      · simp [bare, bareInode, State.setInode, hj]
      · simp [bare, bareInode, State.setInode, hj]
  | word buf k => exact (bufData_keeps buf).bind fun _ => (keeps_bare (setBufData_keeps buf _))

theorem locateBlock_keeps (fuel : Nat) (e : Entry) (bn size : Nat) :
    Leaves bare (locateBlock fuel e bn size) := by
  induction fuel generalizing e bn size with
  | zero => exact keeps_panic (by decide)
  | succ fuel ih =>
      have hrest : ∀ v : Nat, Leaves bare (do
          if size = 1 then readEntry e
          else
            let nextSize := size / entryPerBlock
            let nextBn := bn % nextSize
            let block ← readEntry e
            let buf ← bufRead block
            if v = 0 then emit (.newIndex block (← bufData buf))
            let ret ← locateBlock fuel (.word buf (bn / nextSize)) nextBn nextSize
            bufRelease buf
            return ret) := by
        intro v
        refine keeps_ite (readEntry_keeps e) ?_
        refine (readEntry_keeps e).bind fun block =>
          (keeps_bare (bufRead_keeps block)).bind fun buf => ?_
        have htail : Leaves bare (do
            let ret ← locateBlock fuel (.word buf (bn / (size / entryPerBlock)))
              (bn % (size / entryPerBlock)) (size / entryPerBlock)
            bufRelease buf
            return ret) := by
          refine (ih _ _ _).bind fun ret => (keeps_bare (bufRelease_keeps buf)).bind fun _ => ?_
          exact keeps_pure _
        refine keeps_ite ?_ htail
        exact (bufData_keeps buf).bind fun _ => (keeps_emit _).bind fun _ => htail
      unfold locateBlock
      refine (readEntry_keeps e).bind fun v => keeps_ite ?_ ?_
      · refine (keeps_bare bitmapAllocBlock_keeps).bind fun b =>
          (writeEntry_keeps e b).bind fun _ => ?_
        exact hrest v
      · exact hrest v

theorem inodeLocateBlock_keeps (ip : Slot) (bn : Nat) : Leaves bare (inodeLocateBlock ip bn) := by
  unfold inodeLocateBlock
  split
  · exact locateBlock_keeps _ _ _ _
  · dsimp only
    split
    · exact locateBlock_keeps _ _ _ _
    · split
      · exact locateBlock_keeps _ _ _ _
      · exact keeps_panic (by decide)

theorem readLoop_keeps (ip : Slot) (fuel offset total len : Nat) (dst : Bytes) :
    Leaves bare (readLoop ip fuel offset total len dst) := by
  induction fuel generalizing offset total dst with
  | zero => exact keeps_pure _
  | succ fuel ih =>
      unfold readLoop
      refine keeps_ite ?_ (keeps_pure _)
      refine (inodeLocateBlock_keeps ip _).bind fun b =>
        (keeps_bare (bufRead_keeps b)).bind fun buf => ?_
      refine (bufData_keeps buf).bind fun data =>
        (keeps_bare (bufRelease_keeps buf)).bind fun _ => ?_
      exact ih _ _ _

theorem inodeReadData_keeps (ip : Slot) (offset len : Nat) (dst : Bytes) :
    Leaves bare (inodeReadData ip offset len dst) := by
  unfold inodeReadData
  refine (inodeOf_keeps ip).bind fun x => keeps_ite (keeps_pure _) ?_
  exact readLoop_keeps ip _ _ _ _ _

theorem writeLoop_keeps (ip : Slot) (src : Bytes) (fuel offset total len : Nat) :
    Leaves bare (writeLoop ip src fuel offset total len) := by
  induction fuel generalizing offset total with
  | zero => exact keeps_pure _
  | succ fuel ih =>
      unfold writeLoop
      refine keeps_ite ?_ (keeps_pure _)
      refine (inodeLocateBlock_keeps ip _).bind fun b =>
        (keeps_bare (bufRead_keeps b)).bind fun buf => ?_
      refine (bufData_keeps buf).bind fun data =>
        (keeps_bare (setBufData_keeps buf _)).bind fun _ => ?_
      refine (keeps_bare (bufWrite_keeps buf)).bind fun _ =>
        (keeps_bare (bufRelease_keeps buf)).bind fun _ => ?_
      exact ih _ _

theorem inodeWriteData_keeps (ip : Slot) (offset len : Nat) (src : Bytes) :
    Leaves holding (inodeWriteData ip offset len src) := by
  unfold inodeWriteData
  refine keeps_ite (keeps_pure _)
    ((holding_of_bare (writeLoop_keeps ip src _ _ _ _)).bind fun r => ?_)
  refine (inodeOf_keeps ip).bind fun x => keeps_ite ?_ (keeps_pure _)
  refine KeepsWith.bind (holding_of_around (modifyInode_keeps ip fun _ => ⟨rfl, rfl⟩)) fun _ => ?_
  exact (holding_of_around (inodeRw_keeps ip true)).bind fun _ => keeps_pure _

/-! ## Directories -/

theorem dirSearchLoop_keeps (pip : Slot) (name : Name) (fuel offset : Nat) :
    Leaves bare (dirSearchLoop pip name fuel offset) := by
  induction fuel generalizing offset with
  | zero => exact keeps_pure _
  | succ fuel ih =>
      unfold dirSearchLoop
      refine (inodeOf_keeps pip).bind fun x => keeps_ite ?_ (keeps_pure _)
      refine (inodeReadData_keeps pip _ _ _).bind fun r => keeps_ite (keeps_panic (by decide)) ?_
      exact keeps_ite (keeps_pure _) (ih _)

theorem dirSearchEntry_keeps (pip : Slot) (name : Name) :
    Leaves bare (dirSearchEntry pip name) := by
  unfold dirSearchEntry
  refine (spinlockHolding_keeps _).bind fun _ => (assert_keeps _ (by decide)).bind fun _ => ?_
  refine (inodeOf_keeps pip).bind fun _ => (assert_keeps _ (by decide)).bind fun _ => ?_
  exact (inodeOf_keeps pip).bind fun _ => dirSearchLoop_keeps pip name _ _

theorem dirFreeLoop_keeps (pip : Slot) (fuel offset : Nat) (de : Bytes) :
    Leaves bare (dirFreeLoop pip fuel offset de) := by
  induction fuel generalizing offset de with
  | zero => exact keeps_pure _
  | succ fuel ih =>
      unfold dirFreeLoop
      refine keeps_ite ?_ (keeps_pure _)
      refine (inodeOf_keeps pip).bind fun x => keeps_ite ?_ (keeps_pure _)
      refine (inodeReadData_keeps pip _ _ _).bind fun r => keeps_ite (keeps_panic (by decide)) ?_
      exact keeps_ite (keeps_pure _) (ih _ _)

theorem dirAddEntry_keeps (pip : Slot) (n : Nat) (name : Name) :
    Leaves holding (dirAddEntry pip n name) := by
  unfold dirAddEntry
  refine (spinlockHolding_keeps _).bind fun _ => (assert_keeps _ (by decide)).bind fun _ => ?_
  refine (inodeOf_keeps pip).bind fun _ => (assert_keeps _ (by decide)).bind fun _ => ?_
  refine keeps_ite (keeps_pure _)
    ((holding_of_bare (dirSearchEntry_keeps pip name)).bind fun r => ?_)
  refine keeps_ite (keeps_pure _) ((holding_of_bare (dirFreeLoop_keeps pip _ _ _)).bind fun r => ?_)
  refine keeps_ite (keeps_pure _) ((inodeWriteData_keeps pip _ _ _).bind fun r => ?_)
  exact keeps_ite (keeps_panic (by decide)) (keeps_pure _)

theorem dirDeleteLoop_keeps (pip : Slot) (name : Name) (fuel offset : Nat) :
    Leaves holding (dirDeleteLoop pip name fuel offset) := by
  induction fuel generalizing offset with
  | zero => exact keeps_pure _
  | succ fuel ih =>
      unfold dirDeleteLoop
      refine (inodeOf_keeps pip).bind fun x => keeps_ite ?_ (keeps_pure _)
      refine (holding_of_bare (inodeReadData_keeps pip _ _ _)).bind fun r =>
        keeps_ite (keeps_panic (by decide)) ?_
      refine keeps_ite ?_ (ih _)
      refine (inodeWriteData_keeps pip _ _ _).bind fun r => ?_
      exact keeps_ite (keeps_panic (by decide)) (keeps_pure _)

theorem dirDeleteEntry_keeps (pip : Slot) (name : Name) :
    Leaves holding (dirDeleteEntry pip name) := by
  unfold dirDeleteEntry
  refine (spinlockHolding_keeps _).bind fun _ => (assert_keeps _ (by decide)).bind fun _ => ?_
  refine (inodeOf_keeps pip).bind fun _ => (assert_keeps _ (by decide)).bind fun _ => ?_
  exact (inodeOf_keeps pip).bind fun _ => dirDeleteLoop_keeps pip name _ _

theorem dirGetLoop_keeps (pip : Slot) (len fuel offset total : Nat) (dst : Bytes) :
    Leaves bare (dirGetLoop pip len fuel offset total dst) := by
  induction fuel generalizing offset total dst with
  | zero => exact keeps_pure _
  | succ fuel ih =>
      unfold dirGetLoop
      refine (inodeOf_keeps pip).bind fun x => keeps_ite ?_ (keeps_pure _)
      refine (inodeReadData_keeps pip _ _ _).bind fun r => keeps_ite (keeps_pure _) ?_
      exact keeps_ite (ih _ _ _) (ih _ _ _)

theorem dirGetEntries_keeps (pip : Slot) (len : Nat) (dst : Bytes) :
    Leaves bare (dirGetEntries pip len dst) := by
  unfold dirGetEntries
  refine (spinlockHolding_keeps _).bind fun _ => (assert_keeps _ (by decide)).bind fun _ => ?_
  refine (inodeOf_keeps pip).bind fun _ => (assert_keeps _ (by decide)).bind fun _ => ?_
  exact (inodeOf_keeps pip).bind fun _ => dirGetLoop_keeps pip len _ _ _ _

theorem checkUnlink_keeps (ip : Slot) : Leaves bare (checkUnlink ip) := by
  unfold checkUnlink
  refine (spinlockHolding_keeps _).bind fun _ => (assert_keeps _ (by decide)).bind fun _ => ?_
  refine (dirGetEntries_keeps ip _ _).bind fun r => keeps_ite (keeps_pure _) ?_
  exact keeps_ite (keeps_pure _) (keeps_panic (by decide))

end WhuOs.Fs
