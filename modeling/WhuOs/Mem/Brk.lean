import WhuOs.Mem.Boot
import WhuOs.Mem.HeapTop

/-! # The heap top that `sys_brk` answers

The difference of the two tops is passed on as a `uint32`.
-/

namespace WhuOs.Mem

open Prog Bytes

/-- What `sys_brk` promises for its answer `r` and the state `s'` after it. -/
def BrkHonoured (s : Kernel) (p : ProcId) (new r : Nat) (s' : Kernel) : Prop :=
  (r = negOne ∧ s'.procs p = s.procs p ∧ s'.mem = s.mem) ∨
    (new = 0 ∧ r = (s.procs p).heapTop ∧ (s'.procs p).heapTop = r) ∨
    (r = new ∧ (s'.procs p).heapTop = r)

/-- The difference of the tops fits in 32 bits, or there is no difference to pass on. The last two
cases are about tops that no process has: the multiple of 2^32 disappears, and the answer is -1. -/
def BrkFits (top new : Nat) : Prop :=
  new = 0 ∨ (new < top + 2 ^ 32 ∧ top < new + 2 ^ 32) ∨ (top = 0 ∧ new % 2 ^ 32 = 0) ∨
    (top = negOne ∧ (top - new) % 2 ^ 32 = 0)

section

variable {s s' : Kernel} {p : ProcId}

/-! ## The process table is left alone -/

theorem load_keeps (a : Nat) : Keeps Kernel.procs (load a) :=
  keeps_state.bind fun _ => keeps_pure _

theorem store_keeps (a v : Nat) : Keeps Kernel.procs (store a v) := keeps_modify fun _ => rfl

theorem clearPage_keeps (a : Nat) : Keeps Kernel.procs (clearPage a) := keeps_modify fun _ => rfl

theorem assert_keeps (c : Bool) (e : Panic) : Keeps Kernel.procs (assert c e) :=
  keeps_ite (keeps_pure ()) (keeps_panic trivial)

theorem spinlockAcquire_keeps (lk : Lock) : Keeps Kernel.procs (spinlockAcquire lk) :=
  keeps_state.bind fun _ => keeps_check (keeps_modify fun _ => rfl)

theorem spinlockRelease_keeps (lk : Lock) : Keeps Kernel.procs (spinlockRelease lk) :=
  keeps_state.bind fun _ => keeps_check (keeps_modify fun _ => rfl)

theorem pmemAlloc_keeps (k : Bool) : Keeps Kernel.procs (pmemAlloc k) := by
  refine (spinlockAcquire_keeps _).bind fun _ => keeps_state.bind fun s => ?_
  have hrest : Keeps Kernel.procs (do
      spinlockRelease (.pmem k)
      return (s.region k).head : MemM Nat) := (spinlockRelease_keeps _).bind fun _ => keeps_pure _
  refine keeps_ite ?_ hrest
  exact (load_keeps _).bind fun _ => (keeps_modify fun _ => setRegion_procs ..).bind fun _ => hrest

theorem regionFreePage_keeps (k : Bool) (q : Nat) : Keeps Kernel.procs (regionFreePage k q) := by
  refine keeps_state.bind fun s => keeps_check ?_
  refine (spinlockAcquire_keeps _).bind fun _ => keeps_state.bind fun s =>
    (store_keeps _ _).bind fun _ => ?_
  exact (keeps_modify fun _ => setRegion_procs ..).bind fun _ => spinlockRelease_keeps _

theorem pmemFree_keeps (q : Nat) (k : Bool) : Keeps Kernel.procs (pmemFree q k) :=
  keeps_state.bind fun _ => keeps_check ((keeps_emit _).bind fun _ => regionFreePage_keeps k q)

theorem allocPgtbl_keeps : Keeps Kernel.procs allocPgtbl := by
  refine (pmemAlloc_keeps _).bind fun q => keeps_ite (keeps_pure _) ?_
  exact (clearPage_keeps _).bind fun _ => keeps_pure _

theorem getpteLoop_keeps (va : Nat) (alloc : Bool) (level r : Nat) :
    Keeps Kernel.procs (getpteLoop va alloc level r) := by
  induction level generalizing r with
  | zero => exact keeps_pure _
  | succ level ih =>
      refine (load_keeps _).bind fun e => keeps_ite (ih _) (keeps_ite (keeps_pure _) ?_)
      refine allocPgtbl_keeps.bind fun new => keeps_ite (keeps_pure _) ?_
      exact (store_keeps _ _).bind fun _ => ih _

theorem vmGetpte_keeps (r va : Nat) (alloc : Bool) : Keeps Kernel.procs (vmGetpte r va alloc) :=
  keeps_check (getpteLoop_keeps va alloc 2 r)

theorem mappagesLoop_keeps (r last perm fuel a pa : Nat) :
    Keeps Kernel.procs (mappagesLoop r last perm fuel a pa) := by
  induction fuel generalizing a pa with
  | zero => exact keeps_panic trivial
  | succ fuel ih =>
      refine (vmGetpte_keeps _ _ _).bind fun pte => keeps_check ?_
      exact (store_keeps _ _).bind fun _ => keeps_ite (keeps_pure _) (ih _ _)

theorem vmMappages_keeps (r va pa len perm : Nat) :
    Keeps Kernel.procs (vmMappages r va pa len perm) :=
  keeps_check (mappagesLoop_keeps r _ perm _ _ pa)

theorem unmapPage_keeps (r : Nat) (freeit : Bool) (a : Nat) :
    Keeps Kernel.procs (unmapPage r freeit a) := by
  refine (vmGetpte_keeps _ _ _).bind fun pte => keeps_check ((load_keeps _).bind fun e => ?_)
  refine keeps_check (keeps_check (keeps_ite ?_ (store_keeps _ _)))
  exact keeps_state.bind fun s => (pmemFree_keeps _ _).bind fun _ => store_keeps _ _

theorem unmappagesLoop_keeps (r stop : Nat) (freeit : Bool) (fuel a : Nat) :
    Keeps Kernel.procs (unmappagesLoop r stop freeit fuel a) := by
  induction fuel generalizing a with
  | zero => exact keeps_panic trivial
  | succ fuel ih => exact keeps_ite ((unmapPage_keeps r freeit a).bind fun _ => ih _) (keeps_pure _)

theorem vmUnmappages_keeps (r va len : Nat) (freeit : Bool) :
    Keeps Kernel.procs (vmUnmappages r va len freeit) :=
  keeps_check (unmappagesLoop_keeps r _ freeit _ va)

theorem growLoop_keeps (r start n i : Nat) : Keeps Kernel.procs (growLoop r start n i) := by
  induction n generalizing i with
  | zero => exact keeps_pure _
  | succ n ih =>
      refine (pmemAlloc_keeps _).bind fun q => (assert_keeps _ _).bind fun _ =>
        (clearPage_keeps _).bind fun _ => ?_
      exact (vmMappages_keeps _ _ _ _ _).bind fun _ => ih _

/-! ## The answer -/

theorem uvmHeapGrow_answer (r top len : Nat) :
    Sat (uvmHeapGrow r top len) s (fun _ => True)
      (fun b s' => b = u64 (top + len) ∧ b < trapframeVa ∧
      s'.procs = s.procs ∧ (pgRoundUp b ≤ pgRoundUp top → s' = s)) fun _ => True := by
  unfold uvmHeapGrow assert
  dsimp only
  split
  · next hlt =>
    rw [sat_bind, sat_pure]
    split
    · next hgt =>
      refine ((growLoop_keeps r _ _ 0).sat s).bind fun _ s' hp => ?_
      rw [sat_pure]
      exact ⟨rfl, of_decide_eq_true hlt, hp, fun hle => absurd hgt (Nat.not_lt.mpr hle)⟩
    · rw [sat_pure]
      exact ⟨rfl, of_decide_eq_true hlt, rfl, fun _ => rfl⟩
  · rw [sat_bind, sat_panic]
    trivial

theorem uvmHeapUngrow_answer (r top len : Nat) :
    Sat (uvmHeapUngrow r top len) s (fun _ => True) (fun b s' => b = sub64 top len ∧
      s'.procs = s.procs ∧ (pgRoundUp top ≤ pgRoundUp b → s' = s)) fun _ => True := by
  unfold uvmHeapUngrow assert
  dsimp only
  split
  · rw [sat_bind, sat_pure]
    split
    · next hlt =>
      refine ((vmUnmappages_keeps r _ _ true).sat s).bind fun _ s' hp => ?_
      rw [sat_pure]
      exact ⟨rfl, hp, fun hle => absurd hlt (Nat.not_lt.mpr hle)⟩
    · rw [sat_pure]
      exact ⟨rfl, rfl, fun _ => rfl⟩
  · rw [sat_bind, sat_panic]
    trivial

/-- The tops differ by `d`, and the growing branch passes on `u32 d`. -/
theorem grow_honoured {top d r : Nat} (hd : 0 < d) (hnew : top + d < 2 ^ 64)
    (htop : (s.procs p).heapTop = top)
    (hr : r = u64 (top + u32 d)) (hlt : r < trapframeVa) (hprocs : s'.procs = s.procs)
    (hsame : pgRoundUp r ≤ pgRoundUp top → s' = s) :
    (r = 0 → (BrkHonoured s p (top + d) negOne s' ↔ BrkFits top (top + d))) ∧
    (r ≠ 0 → (BrkHonoured s p (top + d) r (s'.setProc p { s'.procs p with heapTop := r }) ↔
      BrkFits top (top + d))) := by
  unfold u64 u32 at hr
  have hle : d % 2 ^ 32 ≤ d := Nat.mod_le ..
  rw [Nat.mod_eq_of_lt (by omega)] at hr
  refine ⟨fun h0 => ?_, fun h0 => ?_⟩
  · obtain rfl : s' = s := hsame (by rw [h0, show top = 0 by omega])
    refine iff_of_true (.inl ⟨rfl, rfl, rfl⟩) ?_
    unfold BrkFits
    omega
  · have hneg : r ≠ negOne := by
      have ht : trapframeVa < negOne := by decide
      omega
    have hself :
      ((s'.setProc p { s'.procs p with heapTop := r }).procs p).heapTop = r := by rw [setProc_self]
    unfold BrkHonoured BrkFits
    rw [hself]
    simp only [hneg, false_and, false_or, and_true]
    have hbig : top ≠ negOne := by
      unfold negOne
      omega
    omega

/-- The same for the shrinking branch. -/
theorem ungrow_honoured {new d r : Nat} (hd : 0 < d) (hn : 0 < new) (hlt : new + d < 2 ^ 64)
    (htop : (s.procs p).heapTop = new + d) (hr : r = sub64 (new + d) (u32 d))
    (hprocs : s'.procs = s.procs)
    (hsame : pgRoundUp (new + d) ≤ pgRoundUp r → s' = s) :
    BrkHonoured s p new r (s'.setProc p { s'.procs p with heapTop := r }) ↔
    BrkFits (new + d) new := by
  have hle : u32 d ≤ d := Nat.mod_le ..
  rw [sub64_of_le (by omega) hlt] at hr
  have hself :
      ((s'.setProc p { s'.procs p with heapTop := r }).procs p).heapTop = r := by rw [setProc_self]
  by_cases hneg : r = negOne
  · have hm : d % 2 ^ 32 = 0 ∧ new + d = negOne := by
      unfold negOne u32 at *
      omega
    obtain rfl : s' = s := hsame (by rw [hneg, hm.2])
    refine iff_of_true (.inl ⟨hneg, ?_, rfl⟩) (.inr (.inr (.inr ⟨hm.2, ?_⟩)))
    · rw [setProc_self, hneg, ← hm.2, ← htop]
    · rw [Nat.add_sub_cancel_left]
      exact hm.1
  · unfold BrkHonoured BrkFits
    rw [hself]
    simp only [hneg, false_and, false_or, and_true]
    unfold negOne u32 at *
    omega

/-- `sys_brk` keeps its promise in a call that returns exactly when the difference fits. -/
theorem sysBrk_honoured_iff {new r : Nat} (hnew : new < 2 ^ 64)
    (htop : (s.procs p).heapTop < 2 ^ 64)
    (hr : (sysBrk p new s).1 = .ok (r, s')) :
    BrkHonoured s p new r s' ↔ BrkFits (s.procs p).heapTop new := by
  suffices h : Sat (sysBrk p new) s (fun _ => True)
      (fun r s' => BrkHonoured s p new r s' ↔ BrkFits (s.procs p).heapTop new)
      fun _ => True from h.of_ok hr
  unfold sysBrk procOf
  simp only [sat_bind, sat_state, sat_pure]
  split
  · next h0 =>
    rw [sat_pure]
    exact iff_of_true (.inr (.inl ⟨h0, rfl, rfl⟩)) (.inl h0)
  split
  · next h0 hgt =>
    obtain ⟨d, hd⟩ := Nat.le.dest (Nat.le_of_lt hgt)
    refine (uvmHeapGrow_answer _ _ _).bind fun b s₁ ha => ?_
    obtain ⟨hb, hlt, hprocs, hsame⟩ := ha
    rw [← hd, Nat.add_sub_cancel_left] at hb
    have hgrow := grow_honoured (p := p) (by omega) (by omega) rfl hb hlt hprocs hsame
    rw [hd] at hgrow
    split
    · next hz => exact (sat_pure _).mpr (hgrow.1 hz)
    · next hz =>
      unfold modifyProc
      rw [sat_bind, sat_modify, sat_pure]
      exact hgrow.2 hz
  split
  · next h0 _ hlt =>
    obtain ⟨d, hd⟩ := Nat.le.dest (Nat.le_of_lt hlt)
    refine (uvmHeapUngrow_answer _ _ _).bind fun b s₁ ha => ?_
    obtain ⟨hb, hprocs, hsame⟩ := ha
    rw [← hd, Nat.add_sub_cancel_left] at hb
    rw [← hd] at hsame
    unfold modifyProc
    rw [sat_bind, sat_modify, sat_pure, ← hd]
    exact ungrow_honoured (by omega) (by omega) (by omega) hd.symm hb hprocs hsame
  · next h0 hng hnl =>
    rw [sat_pure]
    have he : (s.procs p).heapTop = new := by omega
    refine iff_of_true (.inr (.inr ⟨he, rfl⟩)) ?_
    unfold BrkFits
    omega

/-- A process without mapped pages whose heap ends at `PGSIZE`, one free user page and two kernel
pages. -/
def oneHeap : Kernel :=
  (oneUserPage ⟨0x80030000, 0x80430000, 2, 0x80030000⟩).setProc 0
    { slotProc 0 with pgtbl := emptyRoot, heapTop := pgSize }

/-- A call that moves the top by a byte: the page is mapped, and the answer is the new top. -/
theorem sysBrk_honoured_byte : ∃ s', (sysBrk 0 (pgSize + 1) oneHeap).1 = .ok (pgSize + 1, s') ∧
    (BrkHonoured oneHeap 0 (pgSize + 1) (pgSize + 1) s' ↔
      BrkFits (oneHeap.procs 0).heapTop (pgSize + 1)) := by
  have hanswer :
    (sysBrk 0 (pgSize + 1) oneHeap).1.toOption.map Prod.fst = some (pgSize + 1) := by decide +kernel
  cases hr : (sysBrk 0 (pgSize + 1) oneHeap).1 with
  | error e =>
      rw [hr] at hanswer
      cases hanswer
  | ok p =>
      obtain ⟨r, s'⟩ := p
      rw [hr] at hanswer
      obtain rfl : r = pgSize + 1 := Option.some.inj hanswer
      exact ⟨s', rfl, sysBrk_honoured_iff (by decide) (by decide) hr⟩

/-- After boot the heap of the first process ends at `PGSIZE`, and `brk(PGSIZE + 2^32)` answers
`PGSIZE`. -/
theorem sysBrk_truncates : ∃ s r s',
    ((bootKernel >>= fun _ => procMakeFirst)
      (Kernel.start 0x80010000 0x80000000 0x80008000 fun _ => 0)).1 = .ok ((), s) ∧
    (sysBrk 0 (pgSize + 2 ^ 32) s).1 = .ok (r, s') ∧ ¬ BrkHonoured s 0 (pgSize + 2 ^ 32) r s' := by
  have hlinked : Linked (Kernel.start 0x80010000 0x80000000 0x80008000 fun _ => 0) :=
    ⟨⟨by decide, by decide, by decide, by decide⟩, by decide, by decide, by decide⟩
  have hboot :
      Sat (bootKernel >>= fun _ => procMakeFirst)
        (Kernel.start 0x80010000 0x80000000 0x80008000 fun _ => 0)
        (fun _ => True) (fun _ s => (s.procs 0).heapTop = pgSize) fun _ => False := by
    rw [sat_bind]
    refine bootKernel_sat hlinked fun g s hready =>
      procMakeFirst_sat hready (by decide) fun g' s' hmade => ?_
    obtain ⟨r, tf, pgtbl, hrest⟩ := hmade.rest
    have hprocs : s'.procs = Function.update slotProc 0 (firstProc tf pgtbl) :=
      (congrArg Kernel.procs hrest :)
    rw [hprocs, Function.update_self]
    rfl
  obtain ⟨_, s, hs, htop⟩ := hboot.returns
  -- the growing branch is passed a length of 0
  have hcall :
      (sysBrk 0 (pgSize + 2 ^ 32) s).1 =
      .ok (pgSize, s.setProc 0 { s.procs 0 with heapTop := pgSize }) := by
    unfold sysBrk procOf
    simp only [Bind.bind, seq, state, pure, ret, htop]
    rfl
  refine ⟨s, pgSize, _, hs, hcall, fun hc => ?_⟩
  rcases hc with ⟨h, -⟩ | ⟨h, -⟩ | ⟨h, -⟩
  · exact absurd h (by decide)
  · exact absurd h (by decide)
  · exact absurd h (by decide)

end

end WhuOs.Mem
