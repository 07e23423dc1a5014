import Mathlib.Data.List.Perm.Basic
import Mathlib.Tactic.Common
import WhuOs.Mem.Types

/-! # Spinlocks and interrupts (`kernel/lib/spinlock.c`, `kernel/proc/cpu.c`)

`push_off` and `pop_off` count how deep interrupts are switched off, each lock that a
hart holds is one level, and the state of interrupts before the first level comes back
with the last one. Locks are taken and given back in any order, with calls of
`push_off` and `pop_off` between them. The other harts may change the locks that this
one does not hold. The count is an `int`: it is right below 2^31 levels, and with 2^31
of them the next `pop_off` panics.
-/

namespace WhuOs.Spin

open Mem (ProcId)

/-- Wrap-around of `int` arithmetic. -/
def i32 (n : Int) : Int := Int.bmod n (2 ^ 32)

/-- `cpu_t` without the saved context -/
structure Cpu where
  noff : Int
  origin : Bool
  proc : Option ProcId
deriving DecidableEq

/-- `spinlock_t` without the name -/
structure Spinlock where
  locked : Bool
  cpuid : Int
deriving DecidableEq

/-- A hart, with the locks of type `L`: `sie` is the bit of `sstatus`. -/
structure Hart (L : Type) where
  cpu : Cpu
  sie : Bool
  locks : L → Spinlock

inductive Fault where
  | popOffInterruptible | popOff | doubleAcquire | release
  /-- The lock is taken: the loop of `spinlock_acquire` goes on. -/
  | spins
deriving DecidableEq

section

variable {L : Type}

def intrGet (h : Hart L) : Bool := h.sie

def intrOn (h : Hart L) : Hart L := { h with sie := true }

def intrOff (h : Hart L) : Hart L := { h with sie := false }

def pushOff (h : Hart L) : Hart L :=
  let old := intrGet h
  let h := intrOff h
  let c := if h.cpu.noff = 0 then { h.cpu with origin := old } else h.cpu
  { h with cpu := { c with noff := i32 (c.noff + 1) } }

def popOff (h : Hart L) : Except Fault (Hart L) :=
  if intrGet h then .error .popOffInterruptible
  else if h.cpu.noff < 1 then .error .popOff
  else
    let h := { h with cpu := { h.cpu with noff := i32 (h.cpu.noff - 1) } }
    if h.cpu.noff = 0 && h.cpu.origin then .ok (intrOn h) else .ok h

def spinlockHolding (id : Int) (x : Spinlock) : Bool := x.locked && decide (x.cpuid = id)

variable [DecidableEq L]

def setLock (h : Hart L) (l : L) (x : Spinlock) : Hart L :=
  { h with locks := Function.update h.locks l x }

/-- `spinlock_acquire` on the hart with number `id` -/
def spinlockAcquire (id : Int) (l : L) (h : Hart L) : Except Fault (Hart L) :=
  let h := pushOff h
  if spinlockHolding id (h.locks l) then .error .doubleAcquire
  else if (h.locks l).locked then .error .spins
  else .ok (setLock h l { locked := true, cpuid := id })

def spinlockRelease (id : Int) (l : L) (h : Hart L) : Except Fault (Hart L) :=
  if !spinlockHolding id (h.locks l) then .error .release
  else popOff (setLock h l { locked := false, cpuid := -1 })

/-- `myproc`: the process, and the hart after the two calls -/
def myproc (h : Hart L) : Except Fault (Option ProcId × Hart L) := do
  let h := pushOff h
  let p := h.cpu.proc
  let h ← popOff h
  return (p, h)

/-! ## Sequences of calls -/

inductive Call (L : Type) where
  | acquire (l : L)
  | release (l : L)
  | pushOff
  | popOff
  | myproc
  /-- Another hart changes a lock. -/
  | other (l : L) (x : Spinlock)

def Call.run (id : Int) : Call L → Hart L → Except Fault (Hart L)
  | .acquire l, h => spinlockAcquire id l h
  | .release l, h => spinlockRelease id l h
  | .pushOff, h => .ok (Spin.pushOff h)
  | .popOff, h => Spin.popOff h
  | .myproc, h => (Spin.myproc h).map Prod.snd
  | .other l x, h => .ok (setLock h l x)

/-- The locks held after a sequence of calls. -/
def held (calls : List (Call L)) : List L :=
  calls.foldl (fun ls c =>
    match c with
    | .acquire l => l :: ls
    | .release l => ls.erase l
    | _ => ls) []

/-- The calls of `push_off` that wait for their `pop_off`. -/
def openCalls (calls : List (Call L)) : Nat :=
  calls.foldl (fun n c =>
    match c with
    | .pushOff => n + 1
    | .popOff => n - 1
    | _ => n) 0

/-- Free locks are acquired, held ones released, and `pop_off` follows its `push_off`. Other harts
keep away from the locks held here. -/
def Call.Allowed (id : Int) (calls : List (Call L)) (h : Hart L) : Call L → Prop
  | .acquire l => (h.locks l).locked = false
  | .release l => l ∈ held calls
  | .popOff => 0 < openCalls calls
  | .other l x => l ∉ held calls ∧ spinlockHolding id x = false
  | _ => True

/-- The states behind a sequence of allowed calls. -/
inductive Run (id : Int) (h₀ : Hart L) : List (Call L) → Hart L → Prop
  | nil : Run id h₀ [] h₀
  | call {calls : List (Call L)} {h h' : Hart L} {c : Call L} (before : Run id h₀ calls h)
      (allowed : c.Allowed id calls h) (run : c.run id h = .ok h') : Run id h₀ (calls ++ [c]) h'

/-- The levels after a sequence of calls. -/
def levels (calls : List (Call L)) : Nat := (held calls).length + openCalls calls

/-- The call opens a level, for a while in `myproc`. -/
def Call.opens : Call L → Bool
  | .acquire _ | .pushOff | .myproc => true
  | _ => false

/-- The count has room for the call. -/
def Call.Fits (calls : List (Call L)) (c : Call L) : Prop :=
  c.opens = true → levels calls + 1 < 2 ^ 31

/-- The count had room for every call. -/
def Shallow (calls : List (Call L)) : Prop := ∀ l c, l ++ [c] <+: calls → c.Fits l

/-- What holds between calls, when interrupts were `sie₀` at first. -/
structure Nested (id : Int) (sie₀ : Bool) (calls : List (Call L)) (h : Hart L) : Prop where
  depth : h.cpu.noff = levels calls
  holding : ∀ l, l ∈ held calls ↔ spinlockHolding id (h.locks l) = true
  nodup : (held calls).Nodup
  off : 0 < levels calls → h.sie = false ∧ h.cpu.origin = sie₀
  back : levels calls = 0 → h.sie = sie₀

variable {id : Int} {sie₀ : Bool} {calls : List (Call L)} {c : Call L} {h h' h₀ : Hart L} {l l' : L}
  {x : Spinlock} {n : Nat}

/-! ## Single calls -/

theorem i32_of_lt {k : Int} (h1 : -2 ^ 31 ≤ k) (h2 : k < 2 ^ 31) : i32 k = k := by
  unfold i32
  exact Int.bmod_eq_of_le (by omega) (by omega)

/-- From `n` levels to one more. -/
structure Deeper (sie₀ : Bool) (n : Nat) (h h' : Hart L) : Prop where
  noff : h'.cpu.noff = (n + 1 : Nat)
  locks : h'.locks = h.locks
  sie : h'.sie = false
  origin : h'.cpu.origin = sie₀

/-- From one level more to `n`. -/
structure Shallower (sie₀ : Bool) (n : Nat) (h h' : Hart L) : Prop where
  noff : h'.cpu.noff = n
  locks : h'.locks = h.locks
  off : 0 < n → h'.sie = false ∧ h'.cpu.origin = sie₀
  back : n = 0 → h'.sie = sie₀

omit [DecidableEq L] in
theorem pushOff_deeper (hn : h.cpu.noff = n) (hroom : n + 1 < 2 ^ 31)
    (hoff : 0 < n → h.cpu.origin = sie₀)
    (hback : n = 0 → h.sie = sie₀) : Deeper sie₀ n h (pushOff h) := by
  have hadd : i32 (h.cpu.noff + 1) = (n + 1 : Nat) := by
    rw [hn]
    exact i32_of_lt (by omega) (by omega)
  unfold pushOff intrOff intrGet
  by_cases hz : h.cpu.noff = 0
  · simp only [if_pos hz]
    exact ⟨hadd, rfl, rfl, hback (by omega)⟩
  · simp only [if_neg hz]
    exact ⟨hadd, rfl, rfl, hoff (by omega)⟩

omit [DecidableEq L] in
/-- Neither panic of `pop_off` is reached below a level. -/
theorem popOff_shallower (hn : h.cpu.noff = (n + 1 : Nat))
    (hroom : n + 1 < 2 ^ 31) (hsie : h.sie = false)
    (horigin : h.cpu.origin = sie₀) : ∃ h', popOff h = .ok h' ∧ Shallower sie₀ n h h' := by
  have hlt : ¬ h.cpu.noff < 1 := by omega
  have hsub : i32 (h.cpu.noff - 1) = n := by
    rw [i32_of_lt (by omega) (by omega)]
    omega
  have hrun : popOff h = if (n : Int) = 0 && h.cpu.origin
      then .ok (intrOn { h with cpu := { h.cpu with noff := n } })
      else .ok { h with cpu := { h.cpu with noff := n } } := by
    unfold popOff intrGet
    rw [if_neg (by rw [hsie]; decide), if_neg hlt, hsub]
  rw [hrun]
  by_cases hon : ((n : Int) = 0 && h.cpu.origin) = true
  · rw [if_pos hon]
    simp only [Bool.and_eq_true, decide_eq_true_eq] at hon
    exact ⟨_, rfl, rfl, rfl, fun hc => absurd hon.1 (by omega), fun _ => hon.2.symm.trans horigin⟩
  · rw [if_neg hon]
    simp only [Bool.and_eq_true, decide_eq_true_eq, not_and, Bool.not_eq_true] at hon
    exact ⟨_, rfl, rfl, rfl, fun _ => ⟨hsie, horigin⟩, fun hz =>
      hsie.trans ((hon (by omega)).symm.trans horigin)⟩

theorem held_append (calls : List (Call L)) (c : Call L) : held (calls ++ [c]) =
    match c with
    | .acquire l => l :: held calls
    | .release l => (held calls).erase l
    | _ => held calls := by
  unfold held
  rw [List.foldl_append]
  rfl

omit [DecidableEq L] in
theorem openCalls_append (calls : List (Call L)) (c : Call L) : openCalls (calls ++ [c]) =
    match c with
    | .pushOff => openCalls calls + 1
    | .popOff => openCalls calls - 1
    | _ => openCalls calls := by
  unfold openCalls
  rw [List.foldl_append]
  rfl

theorem setLock_same (h : Hart L) (l : L) (x : Spinlock) : (setLock h l x).locks l = x :=
  Function.update_self ..

theorem setLock_ne (hl : l' ≠ l) : (setLock h l x).locks l' = h.locks l' :=
  Function.update_of_ne hl ..

/-! ## One step -/

theorem Nested.acquire (hn : Nested id sie₀ calls h) (hfree : (h.locks l).locked = false)
    (hroom : levels calls + 1 < 2 ^ 31) :
    ∃ h', spinlockAcquire id l h = .ok h' ∧ Nested id sie₀ (calls ++ [.acquire l]) h' := by
  have hd := pushOff_deeper hn.depth hroom (fun hp => (hn.off hp).2) hn.back
  have hno : spinlockHolding id (h.locks l) = false := by
    unfold spinlockHolding
    rw [hfree, Bool.false_and]
  have hnot : l ∉ held calls := by
    rw [hn.holding, hno]
    decide
  have hrun : spinlockAcquire id l h =
    .ok (setLock (pushOff h) l { locked := true, cpuid := id }) := by
    unfold spinlockAcquire
    simp only [hd.locks, hno, hfree]
    rfl
  have hlevels : levels (calls ++ [.acquire l]) = levels calls + 1 := by
    unfold levels
    rw [held_append, openCalls_append]
    simp only [List.length_cons]
    omega
  refine ⟨_, hrun, hd.noff.trans (by rw [hlevels]), fun l' => ?_, ?_, fun _ =>
    ⟨hd.sie, hd.origin⟩, fun hz => ?_⟩
  · rw [held_append, List.mem_cons]
    by_cases hl : l' = l
    · subst hl
      rw [setLock_same]
      simp [spinlockHolding]
    · rw [setLock_ne hl, hd.locks, ← hn.holding]
      simp [hl]
  · rw [held_append]
    exact List.nodup_cons.mpr ⟨hnot, hn.nodup⟩
  · rw [hlevels] at hz
    cases hz

theorem Nested.release (hn : Nested id sie₀ calls h) (hl : l ∈ held calls)
    (hroom : levels calls < 2 ^ 31) :
    ∃ h', spinlockRelease id l h = .ok h' ∧ Nested id sie₀ (calls ++ [.release l]) h' := by
  have hlevels : levels calls = levels (calls ++ [.release l]) + 1 := by
    have hlen := List.length_pos_of_mem hl
    unfold levels
    rw [held_append, openCalls_append]
    simp only [List.length_erase_of_mem hl]
    omega
  obtain ⟨hsie, horigin⟩ := hn.off (by omega)
  obtain ⟨h', hp, hs⟩ := popOff_shallower (h := setLock h l { locked := false, cpuid := -1 })
    (n := levels (calls ++ [.release l])) (by rw [← hlevels]; exact hn.depth)
    (by omega) hsie horigin
  have hrun : spinlockRelease id l h = .ok h' := by
    unfold spinlockRelease
    rw [(hn.holding l).mp hl]
    exact hp
  refine ⟨h', hrun, hs.noff, fun l' => ?_, ?_, hs.off, hs.back⟩
  · rw [held_append, hs.locks, hn.nodup.mem_erase_iff]
    by_cases hll : l' = l
    · subst hll
      rw [setLock_same]
      simp [spinlockHolding]
    · rw [setLock_ne hll, ← hn.holding]
      simp [hll]
  · rw [held_append]
    exact hn.nodup.erase l

/-- The count stays below 2^31. -/
theorem Shallow.levels_lt (hs : Shallow calls) : levels calls < 2 ^ 31 := by
  induction calls using List.reverseRecOn with
  | nil => exact Nat.two_pow_pos 31
  | append_singleton calls c ih =>
      have hc : c.Fits calls := hs calls c (List.prefix_refl _)
      have hlt := ih fun l c hl => hs l c (hl.trans (List.prefix_append _ _))
      unfold levels at hlt ⊢
      rw [held_append, openCalls_append]
      cases c with
      | acquire l =>
          have hroom := hc rfl
          unfold levels at hroom
          simp only [List.length_cons]
          omega
      | release l =>
          have hle := List.length_erase_le (a := l) (l := held calls)
          simp only
          omega
      | pushOff =>
          have hroom := hc rfl
          unfold levels at hroom
          simp only
          omega
      | popOff =>
          simp only
          omega
      | myproc => exact hlt
      | other l x => exact hlt

theorem Nested.step (hn : Nested id sie₀ calls h) (ha : c.Allowed id calls h) (hf : c.Fits calls)
    (hlt : levels calls < 2 ^ 31) :
    ∃ h', c.run id h = .ok h' ∧ Nested id sie₀ (calls ++ [c]) h' := by
  cases c with
  | acquire l => exact hn.acquire ha (hf rfl)
  | release l => exact hn.release ha hlt
  | pushOff =>
      have hd := pushOff_deeper hn.depth (hf rfl) (fun hp => (hn.off hp).2) hn.back
      have hlevels : levels (calls ++ [.pushOff]) = levels calls + 1 := by
        unfold levels
        rw [held_append, openCalls_append]
        rfl
      refine ⟨_, rfl, hd.noff.trans (by rw [hlevels]), fun l' => ?_, ?_, fun _ =>
        ⟨hd.sie, hd.origin⟩, fun hz => ?_⟩
      · rw [held_append, hd.locks]
        exact hn.holding l'
      · rw [held_append]
        exact hn.nodup
      · rw [hlevels] at hz
        cases hz
  | popOff =>
      have hopen : 0 < openCalls calls := ha
      have hlevels : levels calls = levels (calls ++ [.popOff]) + 1 := by
        unfold levels
        rw [held_append, openCalls_append]
        simp only
        omega
      obtain ⟨hsie, horigin⟩ := hn.off (by omega)
      obtain ⟨h', hp, hs⟩ :=
        popOff_shallower (n := levels (calls ++ [.popOff])) (by rw [← hlevels]; exact hn.depth)
        (by omega) hsie horigin
      refine ⟨h', hp, hs.noff, fun l' => ?_, ?_, hs.off, hs.back⟩
      · rw [held_append, hs.locks]
        exact hn.holding l'
      · rw [held_append]
        exact hn.nodup
  | myproc =>
      have hd := pushOff_deeper hn.depth (hf rfl) (fun hp => (hn.off hp).2) hn.back
      obtain ⟨h', hp, hs⟩ := popOff_shallower hd.noff (hf rfl) hd.sie hd.origin
      have hrun : (Call.myproc : Call L).run id h = .ok h' := by
        unfold Call.run myproc
        simp only
        rw [hp]
        rfl
      have hlevels : levels (calls ++ [.myproc]) = levels calls := by
        unfold levels
        rw [held_append, openCalls_append]
      refine ⟨h', hrun, hs.noff.trans (by rw [hlevels]), fun l' =>
        ?_, ?_, fun hp => hs.off (hlevels ▸ hp),
        fun hz => hs.back (hlevels ▸ hz)⟩
      · rw [held_append, hs.locks, hd.locks]
        exact hn.holding l'
      · rw [held_append]
        exact hn.nodup
  | other l x =>
      obtain ⟨hl, hx⟩ := ha
      have hlevels : levels (calls ++ [.other l x]) = levels calls := by
        unfold levels
        rw [held_append, openCalls_append]
      refine ⟨_, rfl, hn.depth.trans (by rw [hlevels]), fun l' =>
        ?_, ?_, fun hp => hn.off (hlevels ▸ hp),
        fun hz => hn.back (hlevels ▸ hz)⟩
      · rw [held_append]
        by_cases hll : l' = l
        · subst hll
          rw [setLock_same, hx]
          simp [hl]
        · rw [setLock_ne hll]
          exact hn.holding l'
      · rw [held_append]
        exact hn.nodup

/-! ## Every sequence -/

theorem Run.nested (h0 : h₀.cpu.noff = 0) (hfree : ∀ l, spinlockHolding id (h₀.locks l) = false)
    (hr : Run id h₀ calls h) (hs : Shallow calls) : Nested id h₀.sie calls h := by
  induction hr with
  | nil =>
      refine ⟨h0, fun l => ?_, List.nodup_nil, fun hc => absurd hc (Nat.lt_irrefl 0), fun _ => rfl⟩
      rw [hfree l]
      simp [held]
  | @call calls h h' c before allowed run ih =>
      have hbefore : Shallow calls := fun l c hl => hs l c (hl.trans (List.prefix_append _ _))
      obtain ⟨h'', hrun, hn⟩ :=
        (ih hbefore).step allowed (hs calls c (List.prefix_refl _)) hbefore.levels_lt
      rw [run] at hrun
      obtain rfl := Except.ok.inj hrun
      exact hn

/-- Below 2^31 levels the depth is the number of levels, interrupts are off below the first one and
come back as they were; no call panics. -/
theorem interrupts_nest (h0 : h₀.cpu.noff = 0)
    (hfree : ∀ l, spinlockHolding id (h₀.locks l) = false)
    (hr : Run id h₀ calls h) (hs : Shallow calls) :
    h.cpu.noff = ((held calls).length + openCalls calls : Nat) ∧
      (∀ l, l ∈ held calls ↔ spinlockHolding id (h.locks l) = true) ∧
      (held calls).Nodup ∧ (0 < h.cpu.noff → h.sie = false) ∧ (h.cpu.noff = 0 → h.sie = h₀.sie) ∧
      ∀ c : Call L, c.Allowed id calls h → c.Fits calls → ∃ h', c.run id h = .ok h' := by
  have hn := hr.nested h0 hfree hs
  have hdepth := hn.depth
  refine ⟨hdepth, hn.holding, hn.nodup, fun hp => (hn.off (by omega)).1, fun hz =>
    hn.back (by omega), fun c ha hf => ?_⟩
  obtain ⟨h', hrun, -⟩ := hn.step ha hf hs.levels_lt
  exact ⟨h', hrun⟩

/-! ## 2^31 levels -/

theorem levels_pushes (n : Nat) : held (List.replicate n (Call.pushOff : Call L)) = [] ∧
    openCalls (List.replicate n (Call.pushOff : Call L)) = n := by
  induction n with
  | zero => exact ⟨rfl, rfl⟩
  | succ n ih =>
      rw [List.replicate_succ', held_append, openCalls_append]
      exact ⟨ih.1, congrArg (· + 1) ih.2⟩

theorem run_pushes (h₀ : Hart L) (h0 : h₀.cpu.noff = 0) (n : Nat) : ∃ h,
    Run id h₀ (List.replicate n .pushOff) h ∧ h.cpu.noff = i32 n ∧ (0 < n → h.sie = false) := by
  induction n with
  | zero => exact ⟨h₀, .nil, h0, fun hc => absurd hc (Nat.lt_irrefl 0)⟩
  | succ n ih =>
      obtain ⟨h, hr, hn, -⟩ := ih
      rw [List.replicate_succ']
      refine ⟨pushOff h, hr.call (c := .pushOff) trivial rfl, ?_, fun _ => ?_⟩
      · have hadd : (pushOff h).cpu.noff = i32 (h.cpu.noff + 1) := by
          unfold pushOff
          dsimp only
          split <;> rfl
        rw [hadd, hn]
        unfold i32
        rw [Int.bmod_add_bmod, Nat.cast_add, Nat.cast_one]
      · rfl

/-- Each call opens one level at most. -/
theorem levels_le (calls : List (Call L)) : levels calls ≤ calls.length := by
  induction calls using List.reverseRecOn with
  | nil => exact Nat.le_refl 0
  | append_singleton calls c ih =>
      unfold levels at ih ⊢
      rw [held_append, openCalls_append, List.length_append]
      cases c with
      | release l =>
          have hle := List.length_erase_le (a := l) (l := held calls)
          simp only [List.length_singleton]
          omega
      | _ =>
          simp only [List.length_cons]
          omega

theorem shallow_of_length (h : calls.length < 2 ^ 31) : Shallow calls := by
  intro l c hl _
  have hle := hl.length_le
  rw [List.length_append, List.length_singleton] at hle
  have hlevels := levels_le l
  omega

end

/-- With 2^31 open calls of `push_off` the count is negative, and the `pop_off` of the last one
panics. -/
theorem interrupts_nest_overflow : ∃ (calls : List (Call Bool)) (h : Hart Bool),
    Run 0 ⟨⟨0, false, none⟩, true, fun _ => ⟨false, -1⟩⟩ calls h ∧
      h.cpu.noff ≠ ((held calls).length + openCalls calls : Nat) ∧
      (Call.popOff : Call Bool).Allowed 0 calls h ∧
      (Call.popOff : Call Bool).run 0 h = .error .popOff := by
  obtain ⟨h, hr, hn, hsie⟩ :=
    run_pushes (⟨⟨0, false, none⟩, true, fun _ => ⟨false, -1⟩⟩ : Hart Bool) rfl (2 ^ 31)
  have hnoff : h.cpu.noff = -2 ^ 31 := hn
  obtain ⟨hheld, hopen⟩ := levels_pushes (L := Bool) (2 ^ 31)
  refine ⟨List.replicate (2 ^ 31) .pushOff, h, hr, ?_, ?_, ?_⟩
  · rw [hnoff, hheld, hopen]
    decide
  · change 0 < openCalls _
    rw [hopen]
    decide
  · change popOff h = _
    unfold popOff intrGet
    rw [hsie (by decide), if_neg (by decide), if_pos (by rw [hnoff]; decide)]

/-- Two locks, released in the order in which they were taken. -/
theorem interrupts_nest_crossed : ∃ h : Hart Bool,
    Run 0 ⟨⟨0, false, none⟩, true, fun _ => ⟨false, -1⟩⟩
      [.acquire true, .acquire false, .release true, .release false] h ∧ h.sie = true := by
  have hrun : Run 0 (⟨⟨0, false, none⟩, true, fun _ => ⟨false, -1⟩⟩ : Hart Bool)
      ([] ++ [.acquire true] ++ [.acquire false] ++ [.release true] ++ [.release false]) _ :=
    (((Run.nil.call (c := .acquire true) (show _ = _ from rfl) rfl).call
      (c := .acquire false) (show _ = _ from rfl)
      rfl).call (c := .release true) (show true ∈ [false, true] from .tail _ (.head _)) rfl).call
        (c := .release false)
      (show false ∈ [false] from .head _) rfl
  exact ⟨_, hrun,
    (interrupts_nest rfl (fun _ => rfl) hrun (shallow_of_length (by decide))).2.2.2.2.1 rfl⟩

end WhuOs.Spin
