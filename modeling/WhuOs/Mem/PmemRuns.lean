import Mathlib.Data.List.Perm.Basic
import Mathlib.Data.List.Nodup
import WhuOs.Mem.Pmem

/-! # Histories of the page allocator

The allocator together with its clients: which pages are held, region by region.
Clients allocate pages, give back pages they hold and write into pages they hold.
In every history after `pmem_init` the free pages and the held pages are, without
overlap, the pages of the managed memory.
-/

namespace WhuOs.Mem

open Prog Bytes

def pagesFrom (b n : Nat) : List Nat := (List.range n).map fun i => b + pgSize * i

def regionPages (a : Nat) (k : Bool) : List Nat :=
  if k then pagesFrom a kernelPages
  else pagesFrom (a + kernelPages * pgSize) ((physTop - (a + kernelPages * pgSize)) / pgSize)

/-- The allocator and the pages its clients hold. -/
structure Clients where
  kernel : Kernel
  held : Bool → List Nat

/-- One call or one write of a client. -/
inductive PmemStep (c : Clients) : Clients → Prop
  | alloc {k : Bool} {q : Nat} {s : Kernel} (run : (pmemAlloc k c.kernel).1 = .ok (q, s))
      (got : q ≠ 0) : PmemStep c ⟨s, Function.update c.held k (q :: c.held k)⟩
  | allocFailed {k : Bool} {s : Kernel} (run : (pmemAlloc k c.kernel).1 = .ok (0, s)) :
      PmemStep c ⟨s, c.held⟩
  | free {k : Bool} {q : Nat} {s : Kernel} (holds : q ∈ c.held k)
      (run : (pmemFree q k c.kernel).1 = .ok ((), s)) :
      PmemStep c ⟨s, Function.update c.held k ((c.held k).erase q)⟩
  | write {k : Bool} {q : Nat} {m : Bytes} (holds : q ∈ c.held k)
      (inside : ∀ a, m a ≠ c.kernel.mem a → q ≤ a ∧ a < q + pgSize) :
      PmemStep c ⟨c.kernel.setMem m, c.held⟩

/-- Every page of a region is on its free list or held, once. -/
structure Accounted (c : Clients) (l : Bool → List Nat) : Prop where
  pools : Pools c.kernel l
  all : ∀ k, (l k ++ c.held k).Perm (regionPages c.kernel.allocBegin k)

section

variable {s : Kernel} {c c' : Clients} {l : Bool → List Nat} {k : Bool} {q a b n : Nat}
  {G : Event → Prop} {E : Panic → Prop}

/-! ## Pages of a region -/

theorem mem_pagesFrom : q ∈ pagesFrom b n ↔ ∃ i < n, q = b + pgSize * i := by
  unfold pagesFrom
  simp only [List.mem_map, List.mem_range, eq_comm]

theorem pagesFrom_nodup (b n : Nat) : (pagesFrom b n).Nodup := by
  refine List.nodup_range.map fun i j h => ?_
  have h' : b + pgSize * i = b + pgSize * j := h
  unfold pgSize at h'
  omega

theorem pagesFrom_succ (b n : Nat) : pagesFrom b (n + 1) = pagesFrom b n ++ [b + pgSize * n] := by
  simp [pagesFrom, List.range_succ]

theorem pagesFrom_add (b m n : Nat) :
    pagesFrom b (m + n) = pagesFrom b m ++ pagesFrom (b + pgSize * m) n := by
  induction n with
  | zero => simp [pagesFrom]
  | succ n ih =>
      rw [← Nat.add_assoc, pagesFrom_succ, ih, pagesFrom_succ, List.append_assoc, Nat.mul_add,
        Nat.add_assoc]

/-- The two regions make up the managed memory. -/
theorem regionPages_append (hr : a + kernelPages * pgSize ≤ physTop) (ha : a % pgSize = 0) :
    regionPages a true ++ regionPages a false = pagesFrom a ((physTop - a) / pgSize) := by
  have hn : (physTop - a) / pgSize
      = kernelPages + (physTop - (a + kernelPages * pgSize)) / pgSize := by
    unfold physTop kernelPages pgSize at *
    omega
  rw [hn, pagesFrom_add, Nat.mul_comm pgSize]
  rfl

theorem regionPages_nodup (a : Nat) (k : Bool) : (regionPages a k).Nodup := by
  unfold regionPages
  split
  · exact pagesFrom_nodup _ _
  · exact pagesFrom_nodup _ _

/-- The pages of a region lie between its boundaries. -/
theorem Layout.mem_regionPages (h : Layout s) (hq : q ∈ regionPages s.allocBegin k) :
    q % pgSize = 0 ∧ (s.region k).begin ≤ q ∧ q < (s.region k).stop := by
  have ha := h.aligned
  have hr := h.room
  cases k with
  | true =>
      obtain ⟨i, hi, rfl⟩ := mem_pagesFrom.mp hq
      change _ ∧ s.kern.begin ≤ _ ∧ _ < s.kern.stop
      rw [h.kernBegin, h.kernStop]
      unfold pgSize kernelPages at *
      omega
  | false =>
      obtain ⟨i, hi, rfl⟩ := mem_pagesFrom.mp hq
      change _ ∧ s.user.begin ≤ _ ∧ _ < s.user.stop
      rw [h.userBegin, h.userStop]
      unfold pgSize kernelPages physTop at *
      omega

/-! ## Initialisation -/

def Repooled (s s' : Kernel) : Prop :=
  ∃ m kern user, s' = { s with mem := m, kern := kern, user := user }

theorem Repooled.trans {s'' : Kernel} (h : Repooled s s') (h' : Repooled s' s'') :
    Repooled s s'' := by
  obtain ⟨m, kern, user, rfl⟩ := h
  obtain ⟨m', kern', user', rfl⟩ := h'
  exact ⟨m', kern', user', rfl⟩

theorem Repooled.pushed (s : Kernel) (k : Bool) (q : Nat) : Repooled s (pushed s k q) := by
  cases k with
  | false => exact ⟨_, _, _, rfl⟩
  | true => exact ⟨_, _, _, rfl⟩

theorem freerangeLoop_sat (h : Pools s l) (fuel : Nat) (hb : b = (s.region k).begin)
    (hbp : b % pgSize = 0) (he : a = b + pgSize * n) (hl : l k = (pagesFrom b n).reverse)
    (hn : n ≤ ((s.region k).stop - b) / pgSize)
    (hfuel : ((s.region k).stop - b) / pgSize < n + fuel) :
    Sat (freerangeLoop k (s.region k).stop fuel a) s G
      (fun _ s' => Repooled s s' ∧ (∀ j, (s'.region j).begin = (s.region j).begin ∧
        (s'.region j).stop = (s.region j).stop) ∧ Pools s' (Function.update l k
        (pagesFrom b (((s.region k).stop - b) / pgSize)).reverse)) E := by
  induction fuel generalizing s l n a with
  | zero => omega
  | succ fuel ih =>
      subst he
      unfold freerangeLoop
      split
      · next hle =>
        have hlt : n < ((s.region k).stop - b) / pgSize := by
          unfold pgSize at *
          omega
        have hq : (s.region k).begin ≤ b + pgSize * n ∧ b + pgSize * n < (s.region k).stop := by
          unfold pgSize at *
          omega
        have hqa : (b + pgSize * n) % pgSize = 0 := by
          unfold pgSize at *
          omega
        have hnew : b + pgSize * n ∉ l k := by
          rw [hl, List.mem_reverse, mem_pagesFrom]
          rintro ⟨i, hi, heq⟩
          unfold pgSize at heq
          omega
        rw [sat_bind, regionFreePage_sat h hqa hq]
        have hreg : ∀ j, ((pushed s k (b + pgSize * n)).region j).begin = (s.region j).begin ∧
            ((pushed s k (b + pgSize * n)).region j).stop = (s.region j).stop := by
          intro j
          unfold pushed
          rw [setRegion_region]
          split
          · next hj => exact hj ▸ ⟨rfl, rfl⟩
          · exact ⟨rfl, rfl⟩
        have hloop := ih (h.pushed hqa hq hnew) (n := n + 1) (a := b + pgSize * n + pgSize)
          (hb.trans (hreg k).1.symm) (by rw [Nat.mul_add, Nat.mul_one, Nat.add_assoc])
          (by rw [Function.update_self, hl, pagesFrom_succ, List.reverse_append]; rfl)
          (by rw [(hreg k).2]; exact hlt) (by rw [(hreg k).2]; omega)
        rw [(hreg k).2] at hloop
        refine hloop.imp fun _ s' hs' => ⟨?_, fun j => ?_, ?_⟩
        · exact (Repooled.pushed s k _).trans hs'.1
        · exact ⟨(hs'.2.1 j).1.trans (hreg j).1, (hs'.2.1 j).2.trans (hreg j).2⟩
        · have hp := hs'.2.2
          rwa [Function.update_idem] at hp
      · next hgt =>
        have hlast : n = ((s.region k).stop - b) / pgSize := by
          unfold pgSize at *
          omega
        rw [sat_pure, ← hlast, ← hl, Function.update_eq_self]
        exact ⟨⟨_, _, _, rfl⟩, fun _ => ⟨rfl, rfl⟩, h⟩

/-- A region that was initialised before is filled. -/
theorem freerangeRegion_sat (h : Pools s l) (hl : l k = [])
    (ha : (s.region k).begin % pgSize = 0) :
    Sat (freerangeRegion k (s.region k).begin (s.region k).stop) s G
      (fun _ s' => Repooled s s' ∧ (∀ j, (s'.region j).begin = (s.region j).begin ∧
        (s'.region j).stop = (s.region j).stop) ∧ Pools s' (Function.update l k
        (pagesFrom (s.region k).begin
          (((s.region k).stop - (s.region k).begin) / pgSize)).reverse)) E := by
  have hle : (s.region k).begin ≤ physTop := by
    have hr := h.layout.room
    cases k with
    | true =>
        change s.kern.begin ≤ _
        rw [h.layout.kernBegin]
        omega
    | false =>
        change s.user.begin ≤ _
        rw [h.layout.userBegin]
        exact hr
  have hround : pgRoundUp (s.region k).begin = (s.region k).begin := by
    unfold pgRoundUp u64 pgSize physTop at *
    omega
  unfold freerangeRegion
  rw [hround]
  refine freerangeLoop_sat h _ (n := 0) rfl ha (by omega) (by rw [hl]; rfl) (Nat.zero_le _) ?_
  unfold pgSize
  omega

theorem aligned_add (ha : a % pgSize = 0) (n : Nat) : (a + n * pgSize) % pgSize = 0 := by
  rw [Nat.add_mul_mod_self_right, ha]

/-- Both regions, empty and with their boundaries set. -/
theorem pools_empty (hb : kernelBase ≤ s.allocBegin) (ha : s.allocBegin % pgSize = 0)
    (hr : s.allocBegin + kernelPages * pgSize ≤ physTop)
    (hk : s.kern = ⟨s.allocBegin, s.allocBegin + kernelPages * pgSize, 0, 0⟩)
    (hu : s.user = ⟨s.allocBegin + kernelPages * pgSize, physTop, 0, 0⟩)
    (hlock : ∀ k, s.locks (.pmem k) = false) : Pools s fun _ => [] := by
  refine ⟨⟨hb, ha, hr, by rw [hk], by rw [hk], by rw [hu], by rw [hu]⟩, fun k => ?_, hlock⟩
  have hz : (s.region k).head = 0 ∧ (s.region k).allocable = 0 := by
    cases k
    · exact ⟨congrArg Region.head hu, congrArg Region.allocable hu⟩
    · exact ⟨congrArg Region.head hk, congrArg Region.allocable hk⟩
  refine ⟨?_, hz.2, fun q hq => absurd hq List.not_mem_nil⟩
  exact ptr_none.mpr hz.1

def Kernel.poolsUnlocked (s : Kernel) : Kernel :=
  { s with
    locks := fun lk =>
      match lk with
      | .pmem _ => false
      | lk => s.locks lk }

/-- `pmem_init` fills both free lists with the pages of their regions. -/
theorem pmemInit_sat (hb : kernelBase ≤ s.allocBegin) (ha : s.allocBegin % pgSize = 0)
    (hr : s.allocBegin + kernelPages * pgSize ≤ physTop) :
    Sat pmemInit s G
      (fun _ s' => Repooled s.poolsUnlocked s' ∧
        Pools s' fun k => (regionPages s.allocBegin k).reverse) E := by
  have h1 : ¬ s.allocBegin ≥ physTop := by
    unfold kernelPages pgSize at hr
    omega
  have h2 : ¬ (physTop - s.allocBegin) % pgSize ≠ 0 := by
    unfold physTop pgSize at *
    omega
  have h3 : ¬ (physTop - s.allocBegin) / pgSize < kernelPages := by
    unfold physTop pgSize kernelPages at *
    omega
  unfold pmemInit
  rw [sat_bind, sat_state, if_neg h1, if_neg h2, if_neg h3]
  unfold initRegion
  simp only [sat_bind, sat_modify, sat_state]
  -- the state with both regions initialised
  generalize hs₁ : Kernel.setLock (Kernel.setRegion (Kernel.setLock _ _ _) _ _) _ _ = s₁
  have hbegin : s₁.allocBegin = s.allocBegin := by
    rw [← hs₁]
    rfl
  have hpooled : Repooled s.poolsUnlocked s₁ := by
    refine ⟨s.mem, s₁.kern, s₁.user, ?_⟩
    rw [← hs₁]
    refine Kernel.ext rfl rfl rfl rfl rfl rfl ?_ rfl rfl rfl rfl rfl
    funext lk
    rcases lk with k | _ | _ | _ | _ | _
    · cases k <;> rfl
    all_goals rfl
  have hk : s₁.kern = ⟨s₁.allocBegin, s₁.allocBegin + kernelPages * pgSize, 0, 0⟩ := by
    rw [← hs₁]
    rfl
  have hu : s₁.user = ⟨s₁.allocBegin + kernelPages * pgSize, physTop, 0, 0⟩ := by
    rw [← hs₁]
    rfl
  have hlock : ∀ k, s₁.locks (.pmem k) = false := by
    intro k
    rw [← hs₁]
    cases k <;> rfl
  rw [← hbegin] at hb ha hr ⊢
  have h := pools_empty hb ha hr hk hu hlock
  have hfill := freerangeRegion_sat (G := G) (E := E) (k := true) h rfl
    (show s₁.kern.begin % pgSize = 0 by rw [hk]; exact ha)
  refine hfill.imp fun _ s₂ hs₂ => ?_
  obtain ⟨hb₂, hreg₂, hp₂⟩ := hs₂
  have hub : (s₂.region false).begin = s₁.allocBegin + kernelPages * pgSize :=
    (hreg₂ false).1.trans (congrArg Region.begin hu)
  have hus : (s₂.region false).stop = physTop := (hreg₂ false).2.trans (congrArg Region.stop hu)
  have hfill₂ := freerangeRegion_sat (G := G) (E := E) (k := false) hp₂
    (Function.update_of_ne (by decide) _ _)
    (by rw [hub]; exact aligned_add ha _)
  refine hfill₂.imp fun _ s₃ hs₃ => ⟨hpooled.trans (hb₂.trans hs₃.1), ?_⟩
  convert hs₃.2.2 using 1
  funext k
  cases k with
  | false =>
      rw [Function.update_self, hub, hus]
      rfl
  | true =>
      rw [Function.update_of_ne (by decide), Function.update_self]
      have hn : ((s₁.region true).stop - (s₁.region true).begin) / pgSize = kernelPages := by
        rw [show s₁.region true = _ from hk, Nat.add_sub_cancel_left,
          Nat.mul_div_cancel _ (by decide)]
      rw [hn, show s₁.region true = _ from hk]
      rfl

/-! ## Steps -/

theorem Accounted.held_page (h : Accounted c l) (hq : q ∈ c.held k) :
    q % pgSize = 0 ∧ (c.kernel.region k).begin ≤ q ∧ q < (c.kernel.region k).stop :=
  h.pools.layout.mem_regionPages ((h.all k).mem_iff.mp (List.mem_append_right _ hq))

theorem Accounted.nodup (h : Accounted c l) (k : Bool) : (l k ++ c.held k).Nodup :=
  (h.all k).nodup_iff.mpr (regionPages_nodup _ _)

/-- A held page is on no free list. -/
theorem Accounted.held_not_free (h : Accounted c l) (hq : q ∈ c.held k) (j : Bool) : q ∉ l j := by
  intro hl
  have hj := h.pools.layout.region_inj ((h.pools.pool j).page q hl).2 (h.held_page hq).2
  subst hj
  exact List.disjoint_of_nodup_append (h.nodup j) hl hq

theorem allocBegin_setRegion (s : Kernel) (k : Bool) (r : Region) :
    (s.setRegion k r).allocBegin = s.allocBegin := by
  cases k <;> rfl

theorem Accounted.step (h : Accounted c l) (hs : PmemStep c c') : ∃ l', Accounted c' l' := by
  cases hs with
  | alloc run got =>
      rename_i k q s'
      cases (pmemAlloc_sat (G := fun _ => True) (E := fun _ => True) h.pools k).of_ok run with
      | none empty => exact absurd rfl got
      | some hhead hpools =>
          rename_i t r
          refine ⟨_, hpools, fun j => ?_⟩
          rw [allocBegin_setRegion]
          by_cases hj : j = k
          · subst hj
            simp only [Function.update_self]
            refine List.Perm.trans ?_ (h.all j)
            rw [hhead]
            exact List.perm_middle
          · simp only [Function.update_of_ne hj]
            exact h.all j
  | allocFailed run =>
      cases (pmemAlloc_sat (G := fun _ => True) (E := fun _ => True) h.pools _).of_ok run with
      | none empty => exact ⟨l, h⟩
      | some hhead hpools =>
          -- a page of a region is never the null pointer
          have hz := h.pools.page (hhead ▸ List.mem_cons_self)
          unfold kernelBase at hz
          omega
  | free holds run =>
      rename_i k q s'
      obtain ⟨hqa, hqr⟩ := h.held_page holds
      have hrun := ((pmemFree_sat (G := fun _ => True) (E := fun _ => True) h.pools hqa hqr
        (Q := fun _ s' => s' = pushed c.kernel k q)).mpr ⟨trivial, rfl⟩).of_ok run
      subst hrun
      refine ⟨_, h.pools.pushed hqa hqr (h.held_not_free holds k), fun j => ?_⟩
      have hb : (pushed c.kernel k q).allocBegin = c.kernel.allocBegin := allocBegin_setRegion _ _ _
      rw [hb]
      by_cases hj : j = k
      · subst hj
        simp only [Function.update_self]
        refine List.Perm.trans ?_ (h.all j)
        refine List.Perm.trans List.perm_middle.symm ?_
        exact (List.perm_cons_erase holds).symm.append_left _
      · simp only [Function.update_of_ne hj]
        exact h.all j
  | write holds inside =>
      rename_i k q m
      refine ⟨l, h.pools.withMem fun j p hp i hi => ?_, h.all⟩
      by_contra hne
      have hin := inside (p + i) hne
      have hpq : p ≠ q := fun he => h.held_not_free holds j (he ▸ hp)
      have hap := pages_apart ((h.pools.pool j).page p hp).1 (h.held_page holds).1 hpq
      unfold pgSize at hap hin
      omega

theorem Accounted.run (h : Accounted c l) (hr : Relation.ReflTransGen PmemStep c c') :
    ∃ l', Accounted c' l' := by
  induction hr with
  | refl => exact ⟨l, h⟩
  | tail _ hlast ih =>
      obtain ⟨l₁, h₁⟩ := ih
      exact h₁.step hlast

/-! ## Every history -/

/-- What the free lists `l` of a state have to do with the pages held. -/
structure Balanced (c : Clients) (l : Bool → List Nat) : Prop where
  chain : ∀ k, Chain (nextPage c.kernel.mem) (ptr (c.kernel.region k).head) (l k) none
  nodup : ∀ k, (l k).Nodup
  disjoint : List.Disjoint (l true) (l false)
  inside : ∀ k, ∀ q ∈ l k,
    q % pgSize = 0 ∧ (c.kernel.region k).begin ≤ q ∧ q < (c.kernel.region k).stop
  count : ∀ k, (c.kernel.region k).allocable = (l k).length
  /-- Free and held pages are all pages, each once. -/
  all : (l true ++ c.held true ++ (l false ++ c.held false)).Perm
    (pagesFrom c.kernel.allocBegin ((physTop - c.kernel.allocBegin) / pgSize))
  /-- A page that is handed out was held by nobody. -/
  alloc : ∀ k, ∃ q s, (pmemAlloc k c.kernel).1 = .ok (q, s) ∧ (q = 0 ↔ l k = []) ∧ ∀ j, q ∉ c.held j
  /-- A page that is given back is accepted. -/
  free : ∀ k, ∀ q ∈ c.held k, ∃ s, (pmemFree q k c.kernel).1 = .ok ((), s)

theorem Accounted.balanced (h : Accounted c l) : Balanced c l where
  chain k := (h.pools.pool k).chain
  nodup := h.pools.nodup
  disjoint q h1 h2 := absurd (h.pools.disjoint h1 h2) (by decide)
  inside k := (h.pools.pool k).page
  count k := (h.pools.pool k).count
  all := by
    rw [← regionPages_append h.pools.layout.room h.pools.layout.aligned]
    exact (h.all true).append (h.all false)
  alloc k := by
    have hsat := pmemAlloc_sat (G := fun _ => True) (E := fun _ => False) h.pools k
    obtain ⟨q, s, hr, ht⟩ := hsat.returns
    refine ⟨q, s, hr, ?_⟩
    cases ht with
    | none empty =>
        refine ⟨⟨fun _ => empty, fun _ => rfl⟩, fun j hj => ?_⟩
        have hz := h.held_page hj
        have hpos := h.pools.layout.begin_pos j
        unfold kernelBase at hpos
        omega
    | some hhead hpools =>
        have hmem : q ∈ l k := hhead ▸ List.mem_cons_self
        have hpos := (h.pools.page hmem).2.1
        refine ⟨⟨fun hz => ?_, fun he => ?_⟩, fun j hj => h.held_not_free hj k hmem⟩
        · unfold kernelBase at hpos
          omega
        · rw [he] at hmem
          exact absurd hmem List.not_mem_nil
  free k q hq := by
    obtain ⟨hqa, hqr⟩ := h.held_page hq
    have hsat := (pmemFree_sat (G := fun _ => True) (E := fun _ => False) h.pools hqa hqr
      (Q := fun _ _ => True)).mpr ⟨trivial, trivial⟩
    obtain ⟨_, s, hr, _⟩ := hsat.returns
    exact ⟨s, hr⟩

/-- After `pmem_init`, along every history of the clients, the free pages and the held pages are
exactly the pages of the managed memory. -/
theorem pmem_pages_accounted (s₀ : Kernel) (hbase : kernelBase ≤ s₀.allocBegin)
    (haligned : s₀.allocBegin % pgSize = 0)
    (hroom : s₀.allocBegin + kernelPages * pgSize ≤ physTop) :
    ∃ s, (pmemInit s₀).1 = .ok ((), s) ∧ s.allocBegin = s₀.allocBegin ∧
      ∀ c, Relation.ReflTransGen PmemStep ⟨s, fun _ => []⟩ c → ∃ l, Balanced c l := by
  have hsat := pmemInit_sat (G := fun _ => True) (E := fun _ => False) hbase haligned hroom
  obtain ⟨_, s, hr, hpooled, hp⟩ := hsat.returns
  have hb : s.allocBegin = s₀.allocBegin := by
    obtain ⟨_, _, _, rfl⟩ := hpooled
    rfl
  refine ⟨s, hr, hb, fun c hc => ?_⟩
  have h₀ : Accounted ⟨s, fun _ => []⟩ fun k => (regionPages s₀.allocBegin k).reverse := by
    refine ⟨hp, fun k => ?_⟩
    simp only [List.append_nil, hb]
    exact List.reverse_perm _
  obtain ⟨l, h⟩ := h₀.run hc
  exact ⟨l, h.balanced⟩

theorem pmem_pages_accounted_start :
    ∃ s, (pmemInit (Kernel.start 0x80030000 0x80007000 0x80008000 fun _ => 0)).1 = .ok ((), s) ∧
      s.allocBegin = 0x80030000 ∧
      ∀ c, Relation.ReflTransGen PmemStep ⟨s, fun _ => []⟩ c → ∃ l, Balanced c l :=
  pmem_pages_accounted _ (by decide) (by decide) (by decide)

end

end WhuOs.Mem
