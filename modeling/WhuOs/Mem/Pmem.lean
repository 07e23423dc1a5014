import Mathlib.Data.Finset.Card
import WhuOs.Lib.Chain
import WhuOs.Mem.Types

/-! # The page allocator (`kernel/mem/pmem.c`)

Two pools of pages. A free page holds the address of the next free page in its
first word.
-/

namespace WhuOs.Mem

open Prog Bytes

def regionFreePage (inKernel : Bool) (pa : Nat) : MemM Unit := do
  let r := (← state).region inKernel
  if pa % pgSize ≠ 0 ∨ pa < r.begin ∨ pa ≥ r.stop then panic .regionFreePage
  spinlockAcquire (.pmem inKernel)
  store pa ((← state).region inKernel).head
  modify fun s => s.setRegion inKernel
    { s.region inKernel with
      head := pa, allocable := u32 ((s.region inKernel).allocable + 1) }
  spinlockRelease (.pmem inKernel)

/-- The first free page, or 0. -/
def regionAllocPage (inKernel : Bool) : MemM Nat := do
  spinlockAcquire (.pmem inKernel)
  let n := ((← state).region inKernel).head
  if n ≠ 0 then
    let next ← load n
    modify fun s => s.setRegion inKernel
      { s.region inKernel with
        head := next, allocable := sub32 (s.region inKernel).allocable 1 }
  spinlockRelease (.pmem inKernel)
  return n

def initRegion (inKernel : Bool) (b e : Nat) : MemM Unit :=
  modify fun s =>
    (s.setRegion inKernel { begin := b, stop := e, allocable := 0, head := 0 }).setLock
      (.pmem inKernel) false

/-- The loop of `freerange_region`; `fuel` bounds the number of pages. -/
def freerangeLoop (inKernel : Bool) (paEnd : Nat) : Nat → Nat → MemM Unit
  | 0, _ => panic .diverges
  | fuel + 1, p => do
      if p + pgSize ≤ paEnd then
        regionFreePage inKernel p
        freerangeLoop inKernel paEnd fuel (p + pgSize)

def freerangeRegion (inKernel : Bool) (paStart paEnd : Nat) : MemM Unit :=
  freerangeLoop inKernel paEnd (paEnd / pgSize + 1) (pgRoundUp paStart)

def pmemInit : MemM Unit := do
  let a := (← state).allocBegin
  let b := physTop
  if a ≥ b then panic .pmemInitRange
  if (b - a) % pgSize ≠ 0 then panic .pmemInitAligned
  if (b - a) / pgSize < kernelPages then panic .pmemInitSmall
  let mid := a + kernelPages * pgSize
  initRegion true a mid
  initRegion false mid b
  freerangeRegion true (← state).kern.begin (← state).kern.stop
  freerangeRegion false (← state).user.begin (← state).user.stop

def pmemAlloc (inKernel : Bool) : MemM Nat := regionAllocPage inKernel

def pmemFree (page : Nat) (inKernel : Bool) : MemM Unit := do
  let r := (← state).region inKernel
  if page % pgSize ≠ 0 ∨ page < r.begin ∨ page ≥ r.stop then panic .pmemFree
  emit (.pageFreed page)
  regionFreePage inKernel page

/-! ## Free lists -/

/-- An address as a pointer. -/
def ptr (a : Nat) : Option Nat := if a = 0 then none else some a

/-- The page behind a free page. -/
def nextPage (m : Bytes) (q : Nat) : Option Nat := ptr (getLE m q 8)

/-- A free list: its pages in order. -/
structure Pool (s : Kernel) (k : Bool) (l : List Nat) : Prop where
  chain : Chain (nextPage s.mem) (ptr (s.region k).head) l none
  count : (s.region k).allocable = l.length
  page : ∀ q ∈ l, q % pgSize = 0 ∧ (s.region k).begin ≤ q ∧ q < (s.region k).stop

/-- The boundaries of the two pools. -/
structure Layout (s : Kernel) : Prop where
  pos : kernelBase ≤ s.allocBegin
  aligned : s.allocBegin % pgSize = 0
  room : s.allocBegin + kernelPages * pgSize ≤ physTop
  kernBegin : s.kern.begin = s.allocBegin
  kernStop : s.kern.stop = s.allocBegin + kernelPages * pgSize
  userBegin : s.user.begin = s.allocBegin + kernelPages * pgSize
  userStop : s.user.stop = physTop

/-- The two pools between calls. -/
structure Pools (s : Kernel) (l : Bool → List Nat) : Prop where
  layout : Layout s
  pool : ∀ k, Pool s k (l k)
  lock : ∀ k, s.locks (.pmem k) = false

section

variable {s s' : Kernel} {k j : Bool} {l : Bool → List Nat} {q a v : Nat} {r : Region} {m : Bytes}
  {lk : Lock} {G : Event → Prop} {E : Panic → Prop}

/-! ## Lists and memory -/

theorem ptr_some (h : ptr a = some q) : a = q ∧ q ≠ 0 := by
  unfold ptr at h
  split at h
  · cases h
  · next hne =>
    obtain rfl := Option.some.inj h
    exact ⟨rfl, hne⟩

theorem ptr_none : ptr a = none ↔ a = 0 := by
  unfold ptr
  split <;> simp_all

theorem ptr_of_ne (h : a ≠ 0) : ptr a = some a := if_neg h

theorem nextPage_congr {m' : Bytes} (h : ∀ i < 8, m' (q + i) = m (q + i)) :
    nextPage m' q = nextPage m q :=
  congrArg ptr (getLE_congr h)

theorem Layout.begin_pos (h : Layout s) (k : Bool) : kernelBase ≤ (s.region k).begin := by
  have hp := h.pos
  cases k
  · change kernelBase ≤ s.user.begin
    rw [h.userBegin]
    omega
  · change kernelBase ≤ s.kern.begin
    rw [h.kernBegin]
    exact hp

theorem Layout.stop_le (h : Layout s) (k : Bool) : (s.region k).stop ≤ physTop := by
  have hr := h.room
  cases k
  · change s.user.stop ≤ physTop
    rw [h.userStop]
  · change s.kern.stop ≤ physTop
    rw [h.kernStop]
    exact hr

theorem sub32_one {n : Nat} (h : n + 1 < 2 ^ 32) : sub32 (n + 1) 1 = n := by
  unfold sub32 u32
  omega

/-- An address is in one region. -/
theorem Layout.region_inj (h : Layout s) (hk : (s.region k).begin ≤ q ∧ q < (s.region k).stop)
    (hj : (s.region j).begin ≤ q ∧ q < (s.region j).stop) : k = j := by
  have h1 := h.kernStop
  have h2 := h.userBegin
  cases k <;> cases j
  · rfl
  · change s.user.begin ≤ q ∧ q < s.user.stop at hk
    change s.kern.begin ≤ q ∧ q < s.kern.stop at hj
    omega
  · change s.kern.begin ≤ q ∧ q < s.kern.stop at hk
    change s.user.begin ≤ q ∧ q < s.user.stop at hj
    omega
  · rfl

theorem Layout.setRegion (h : Layout s) (hb : r.begin = (s.region k).begin)
    (hs : r.stop = (s.region k).stop) : Layout (s.setRegion k r) := by
  cases k
  · exact ⟨h.pos, h.aligned, h.room, h.kernBegin, h.kernStop,
      hb.trans h.userBegin, hs.trans h.userStop⟩
  · exact ⟨h.pos, h.aligned, h.room, hb.trans h.kernBegin, hs.trans h.kernStop,
      h.userBegin, h.userStop⟩

theorem Pools.page (h : Pools s l) (hq : q ∈ l k) :
    q % pgSize = 0 ∧ kernelBase ≤ q ∧ q < physTop := by
  obtain ⟨h1, h2, h3⟩ := (h.pool k).page q hq
  have hb := h.layout.begin_pos k
  have hs := h.layout.stop_le k
  exact ⟨h1, by omega, by omega⟩

theorem Pools.disjoint (h : Pools s l) (hk : q ∈ l k) (hj : q ∈ l j) : k = j :=
  h.layout.region_inj ((h.pool k).page q hk).2 ((h.pool j).page q hj).2

theorem Pools.nodup (h : Pools s l) (k : Bool) : (l k).Nodup := (h.pool k).chain.nodup

/-- The free lists are kept by writes outside the free pages. -/
theorem Pools.withMem (h : Pools s l) (hm : ∀ k, ∀ q ∈ l k, ∀ i < 8, m (q + i) = s.mem (q + i)) :
    Pools (s.setMem m) l := by
  refine ⟨⟨h.layout.pos, h.layout.aligned, h.layout.room, h.layout.kernBegin, h.layout.kernStop,
    h.layout.userBegin, h.layout.userStop⟩, fun k =>
      ⟨?_, (h.pool k).count, (h.pool k).page⟩, h.lock⟩
  exact (h.pool k).chain.congr fun q hq => nextPage_congr (hm k q hq)

theorem length_lt_of_nodup {l : List Nat} {n : Nat} (hn : l.Nodup) (hlt : ∀ q ∈ l, q < n) :
    l.length ≤ n := by
  have hsub : l.toFinset ⊆ Finset.range n := fun q hq =>
    Finset.mem_range.mpr (hlt q (List.mem_toFinset.mp hq))
  have hcard := Finset.card_le_card hsub
  rwa [Finset.card_range, List.toFinset_card_of_nodup hn] at hcard

theorem Pools.length_lt (h : Pools s l) (k : Bool) : (l k).length + 1 < 2 ^ 32 := by
  have hlen := length_lt_of_nodup (h.nodup k) fun q hq => (h.page hq).2.2
  have htop : physTop + 1 < 2 ^ 32 := by decide
  exact Nat.lt_of_le_of_lt (Nat.add_le_add_right hlen 1) htop

/-! ## Specifications -/

/-- `pmem_alloc` takes the first page of the list. -/
inductive PageTaken (s : Kernel) (l : Bool → List Nat) (k : Bool) : Nat → Kernel → Prop
  | none (empty : l k = []) : PageTaken s l k 0 s
  | some {q : Nat} {t : List Nat} {r : Region} (head : l k = q :: t)
      (pools : Pools (s.setRegion k r) (Function.update l k t)) :
      PageTaken s l k q (s.setRegion k r)

theorem pmemAlloc_sat (h : Pools s l) (k : Bool) : Sat (pmemAlloc k) s G (PageTaken s l k) E := by
  have hpool := h.pool k
  have hlen := h.length_lt k
  unfold pmemAlloc regionAllocPage
  rw [sat_bind, sat_acquire (h.lock k), sat_bind, sat_state, setLock_region]
  cases hl : l k with
  | nil =>
      have hz : (s.region k).head = 0 := by
        have hc := hpool.chain
        rw [hl] at hc
        exact ptr_none.mp hc
      rw [hz, if_neg (by simp), sat_bind, sat_release (by simp),
        setLock_restore (h.lock k), sat_pure]
      exact .none hl
  | cons q t =>
      have hc := hpool.chain
      have hcount := hpool.count
      rw [hl] at hc hcount hlen
      obtain ⟨hhead, hne⟩ := ptr_some hc.1
      rw [hhead, if_pos hne]
      simp only [sat_bind, sat_load, sat_modify, sat_pure]
      rw [setLock_setRegion, sat_release (by simp), setLock_restore (by simpa using h.lock k)]
      refine .some hl ⟨h.layout.setRegion rfl rfl, fun j => ?_, by simpa using h.lock⟩
      by_cases hj : j = k
      · subst hj
        refine ⟨?_, ?_, fun p hp => ?_⟩
        · simp only [setRegion_mem, setRegion_region, if_true, Function.update_self]
          exact hc.2
        · simp only [setRegion_region, if_true, Function.update_self, setLock_region, hcount,
            List.length_cons]
          exact sub32_one (Nat.lt_of_succ_lt hlen)
        · simp only [Function.update_self, setRegion_region, if_true] at hp ⊢
          exact hpool.page p (hl ▸ List.mem_cons_of_mem _ hp)
      · have hp := h.pool j
        refine ⟨?_, ?_, ?_⟩
        · simpa [hj] using hp.chain
        · simpa [hj] using hp.count
        · simpa [hj] using hp.page

/-- The state after a page was put in front of its list. -/
def pushed (s : Kernel) (k : Bool) (q : Nat) : Kernel :=
  (s.setMem (putLE s.mem q 8 (s.region k).head)).setRegion k
    { s.region k with head := q, allocable := (s.region k).allocable + 1 }

@[simp] theorem pushed_mem (s : Kernel) (k : Bool) (q : Nat) :
    (pushed s k q).mem = putLE s.mem q 8 (s.region k).head := by
  simp [pushed]

theorem getLE_putLE_disjoint {m : Bytes} {a b n n' v : Nat} (h : b + n' ≤ a ∨ a + n ≤ b) :
    getLE (putLE m a n v) b n' = getLE m b n' := getLE_splice_disjoint h

/-- Distinct pages do not overlap. -/
theorem pages_apart {p q : Nat} (hp : p % pgSize = 0) (hq : q % pgSize = 0) (hne : p ≠ q) :
    p + pgSize ≤ q ∨ q + pgSize ≤ p := by
  unfold pgSize at *
  omega

theorem Pools.pushed (h : Pools s l) (ha : q % pgSize = 0)
    (hr : (s.region k).begin ≤ q ∧ q < (s.region k).stop) (hq : q ∉ l k) :
    Pools (pushed s k q) (Function.update l k (q :: l k)) := by
  have hpos := h.layout.begin_pos k
  have hne : q ≠ 0 := by
    unfold kernelBase at hpos
    omega
  have hstop := h.layout.stop_le k
  -- the page is on no list, so writing its first word keeps both
  have hfree : ∀ j, ∀ p ∈ l j, p ≠ q := by
    intro j p hp he
    subst he
    exact hq (h.layout.region_inj hr ((h.pool j).page p hp).2 ▸ hp)
  have hnext :
      ∀ j, ∀ p ∈ l j, nextPage (putLE s.mem q 8 (s.region k).head) p = nextPage s.mem p := by
    intro j p hp
    refine nextPage_congr fun i hi => ?_
    have hap := pages_apart ((h.pool j).page p hp).1 ha (hfree j p hp)
    unfold pgSize at hap
    exact splice_out (by omega)
  have hhead : (s.region k).head < 256 ^ 8 := by
    have hc := (h.pool k).chain
    cases hl : l k with
    | nil =>
        rw [hl] at hc
        rw [ptr_none.mp hc]
        decide
    | cons p t =>
        rw [hl] at hc
        have hp := h.page (k := k) (q := p) (by rw [hl]; exact List.mem_cons_self)
        rw [(ptr_some hc.1).1]
        unfold physTop at hp
        omega
  have hself : nextPage (putLE s.mem q 8 (s.region k).head) q = ptr (s.region k).head := by
    rw [nextPage, getLE_putLE_same, Nat.mod_eq_of_lt hhead]
  refine ⟨?_, fun j => ?_, ?_⟩
  · unfold Mem.pushed
    refine Layout.setRegion ?_ rfl rfl
    exact ⟨h.layout.pos, h.layout.aligned, h.layout.room, h.layout.kernBegin, h.layout.kernStop,
      h.layout.userBegin, h.layout.userStop⟩
  · by_cases hj : j = k
    · subst hj
      refine ⟨?_, ?_, fun p hp => ?_⟩
      · simp only [Mem.pushed, setRegion_mem, setRegion_region, if_true, Function.update_self]
        refine ⟨ptr_of_ne hne, ?_⟩
        rw [setMem_mem, hself]
        exact (h.pool j).chain.congr (hnext j)
      · simp [Mem.pushed, (h.pool j).count]
      · simp only [Mem.pushed, setRegion_region, if_true, Function.update_self,
          List.mem_cons] at hp ⊢
        rcases hp with rfl | hp
        · exact ⟨ha, hr⟩
        · exact (h.pool j).page p hp
    · refine ⟨?_, ?_, ?_⟩
      · simp only [Mem.pushed, setRegion_mem, setRegion_region, if_neg hj, setMem_region,
          Function.update_of_ne hj]
        exact (h.pool j).chain.congr (hnext j)
      · simpa [Mem.pushed, hj] using (h.pool j).count
      · simpa [Mem.pushed, hj] using (h.pool j).page
  · simpa [Mem.pushed] using h.lock

theorem regionFreePage_sat (h : Pools s l) (ha : q % pgSize = 0)
    (hr : (s.region k).begin ≤ q ∧ q < (s.region k).stop) {Q : Unit → Kernel → Prop} :
    Sat (regionFreePage k q) s G Q E ↔ Q () (pushed s k q) := by
  have hcount := (h.pool k).count
  have hlen := h.length_lt k
  unfold regionFreePage
  rw [sat_bind, sat_state, if_neg (by omega), sat_bind, sat_acquire (h.lock k)]
  simp only [sat_bind, sat_state, sat_store, sat_modify]
  have hu : u32 ((s.region k).allocable + 1) = (s.region k).allocable + 1 := by
    unfold u32
    rw [hcount]
    omega
  rw [setLock_setMem, setLock_setRegion, sat_release (by simp),
    setLock_restore (by simpa using h.lock k)]
  simp only [setMem_region, setLock_region, hu]
  rfl

theorem pmemFree_sat (h : Pools s l) (ha : q % pgSize = 0)
    (hr : (s.region k).begin ≤ q ∧ q < (s.region k).stop) {Q : Unit → Kernel → Prop} :
    Sat (pmemFree q k) s G Q E ↔ G (.pageFreed q) ∧ Q () (pushed s k q) := by
  unfold pmemFree
  rw [sat_bind, sat_state, if_neg (by omega), sat_bind, sat_emit, regionFreePage_sat h ha hr]

/-- A call of `pmem_free` that returns got a page of its region. -/
theorem pmemFree_any (h : Pools s l) (hE : E .pmemFree) {Q : Unit → Kernel → Prop}
    (hG : G (.pageFreed q)) (hQ : q % pgSize = 0 → (s.region k).begin ≤ q → q < (s.region k).stop →
      Q () (pushed s k q)) : Sat (pmemFree q k) s G Q E := by
  by_cases hbad : q % pgSize ≠ 0 ∨ q < (s.region k).begin ∨ q ≥ (s.region k).stop
  · unfold pmemFree
    rw [sat_bind, sat_state, if_pos hbad, sat_bind, sat_panic]
    exact hE
  · have h1 : q % pgSize = 0 := by omega
    have h2 : (s.region k).begin ≤ q := by omega
    have h3 : q < (s.region k).stop := by omega
    exact (pmemFree_sat h h1 ⟨h2, h3⟩).mpr ⟨hG, hQ h1 h2 h3⟩

end

end WhuOs.Mem
