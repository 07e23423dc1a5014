import WhuOs.Mem.Fork
import WhuOs.Mem.PmemRuns

/-! # The first process

`main` fills the page pools, maps the kernel and makes the first process. Where the
linker script put the kernel, nothing of this fails, and the invariant of all
processes holds from then on.
-/

namespace WhuOs.Mem

open Prog Bytes

/-- The calls of `main` on memory and processes before `proc_make_first`. -/
def bootKernel : MemM Unit := do
  pmemInit
  mmapInit
  kvmInit
  procInit

/-- Where the linker script puts the kernel. Memory above it holds at least the pool of the
kernel. -/
structure Linked (s : Kernel) : Prop where
  text : Text s
  base : kernelBase ≤ s.trampoline
  aligned : s.allocBegin % pgSize = 0
  room : s.allocBegin + kernelPages * pgSize ≤ physTop

/-- All pages are free. -/
def Ledger.boot (l : Bool → List Nat) : Ledger where
  own q := if q ∈ l true then .free true else if q ∈ l false then .free false else .other
  free := l

def userPages (allocBegin : Nat) : Nat := (physTop - (allocBegin + kernelPages * pgSize)) / pgSize

/-- The kernel's table while `kvm_init` fills it: no kernel stack is mapped, and at most `n` pages
of the kernel's pool are taken. -/
structure KvmStage (r : Nat) (s₀ : Kernel) (n : Nat) (g : Ledger) (s : Kernel) : Prop where
  heap : Heap g s
  homed : Homed g s
  live : g.Live r
  only : ∀ q r' x, g.own q = .table r' x → r' = r
  tops : Tops g s r
  unstacked : ∀ p, leaf s.mem r (kstackVpn p) = 0
  rest : s.rest = s₀.rest
  used : kernelPages ≤ (g.free true).length + n
  user : (g.free false).length = userPages s₀.allocBegin

section

variable {A : ProcId → Prop} {g g' : Ledger} {s s₀ s' : Kernel} {l : Bool → List Nat}
  {r n : Nat} {G : Event → Prop}
  {E : Panic → Prop}

/-! ## Free pages -/

theorem boot_own (h : Pools s l) (q : Nat) (k : Bool) :
    (Ledger.boot l).own q = .free k ↔ q ∈ l k := by
  unfold Ledger.boot
  dsimp only
  by_cases ht : q ∈ l true
  · rw [if_pos ht]
    constructor
    · intro he
      rwa [← Use.free.inj he]
    · intro hk
      rw [h.disjoint ht hk]
  rw [if_neg ht]
  by_cases hf : q ∈ l false
  · rw [if_pos hf]
    constructor
    · intro he
      rwa [← Use.free.inj he]
    · intro hk
      rw [h.disjoint hf hk]
  · rw [if_neg hf]
    refine ⟨(fun he => nomatch he), fun hk => ?_⟩
    cases k with
    | false => exact absurd hk hf
    | true => exact absurd hk ht

theorem boot_free (q : Nat) :
    (Ledger.boot l).own q = .other ∨ ∃ k, q ∈ l k ∧ (Ledger.boot l).own q = .free k := by
  unfold Ledger.boot
  dsimp only
  split
  · next ht => exact .inr ⟨true, ht, rfl⟩
  split
  · next hf => exact .inr ⟨false, hf, rfl⟩
  · exact .inl rfl

theorem boot_table (q r : Nat) (x : List Nat) : (Ledger.boot l).own q ≠ .table r x := by
  rcases boot_free (l := l) q with h | ⟨k, -, h⟩ <;> rw [h] <;> exact Use.noConfusion

theorem Pools.heap (h : Pools s l) : Heap (Ledger.boot l) s := by
  refine ⟨h, fun q k => (boot_own h q k).symm, fun q hq => ?_, fun q r hq =>
    absurd hq (boot_table q r []),
    fun r q x i _ hq => absurd hq (boot_table q r x)⟩
  rcases boot_free (l := l) q with hq' | ⟨k, hk, -⟩
  · exact absurd hq' hq
  · have hpage := h.page hk
    have hpos : 0 < kernelBase := by decide
    exact ⟨hpage.1, by omega⟩

theorem Pools.homed (h : Pools s l) : Homed (Ledger.boot l) s := by
  refine ⟨fun q k hq => ?_, fun q r x i hq => absurd hq (boot_table q r _)⟩
  rcases boot_free (l := l) q with hq' | ⟨j, hj, hq'⟩
  · rw [hq'] at hq
    cases hq
  · rw [hq'] at hq
    obtain rfl := Option.some.inj hq
    obtain ⟨-, h1, h2⟩ := (h.pool j).page q hj
    have hlay := h.layout
    have hroom := hlay.room
    unfold Managed inKernelOf
    cases j with
    | false =>
        change s.user.begin ≤ q at h1
        change q < s.user.stop at h2
        rw [hlay.userBegin] at h1
        rw [hlay.userStop] at h2
        exact ⟨⟨by omega, h2⟩, decide_eq_false (by omega)⟩
    | true =>
        change s.kern.begin ≤ q at h1
        change q < s.kern.stop at h2
        rw [hlay.kernBegin] at h1
        rw [hlay.kernStop] at h2
        exact ⟨⟨h1, by omega⟩, decide_eq_true ⟨h1, h2⟩⟩

/-! ## `kvm_init` -/

theorem mapPte_bound {pa perm k : Nat} (hlt : pa + k * pgSize < 2 ^ 40) (hperm : perm < 2 ^ 10) :
    mapPte pa perm k < 2 ^ 56 := by
  unfold mapPte
  rw [u64_of_lt (Nat.lt_trans hlt (by decide)), Nat.or_assoc,
    pte_eq_add (Nat.or_lt_two_pow hperm (by decide))]
  have hor : perm ||| pteV < 2 ^ 10 := Nat.or_lt_two_pow hperm (by decide)
  omega

/-- A range beside the kernel stacks is mapped. -/
theorem KvmStage.map {va pa len perm k : Nat} {Q : Unit → Kernel → Prop} (h : KvmStage r s₀ n g s)
    (hlen : 0 < len) (hva : va + len ≤ vaMax)
    (hpa : pa + len < 2 ^ 39) (hperm : perm < 2 ^ 10)
    (hbeside : va + len ≤ kstackVa 63 ∨ kstackVa 0 + pgSize ≤ va)
    (hn : 2 * ((va + len - 1) / pgSize / 512 - va / pgSize / 512 + 1) ≤ k)
    (hroom : n + k ≤ kernelPages)
    (hQ : ∀ g' s', KvmStage r s₀ (n + k) g' s' → (∀ v < vaPages, leaf s'.mem r v =
      if va / pgSize ≤ v ∧ v ≤ (va + len - 1) / pgSize then mapPte pa perm (v - va / pgSize)
        else leaf s.mem r v) →
      Q () s') :
    Sat (vmMappages r va pa len perm) s G Q E := by
  have hused := h.used
  have hcost : tablesFor s.mem r (va / pgSize) ((va + len - 1) / pgSize - va / pgSize) ≤ k := by
    refine Nat.le_trans (tablesFor_le _ _ _ _) ?_
    have hle : va / pgSize ≤ (va + len - 1) / pgSize := Nat.div_le_div_right (by omega)
    rw [Nat.add_sub_cancel' hle]
    exact hn
  refine (vmMappages_sat h.heap h.live hlen hva (by omega) (Nat.lt_trans hperm (by decide))).mono ?_
    fun e he => absurd he.2 (by omega)
  rintro - s' ⟨g', he⟩
  have hused' := he.used
  refine hQ g' s' ⟨he.heap, he.homed h.homed, he.live, fun q r' x hq =>
    ?_, he.tops (fun v hv => ?_) h.tops,
    fun p => ?_, he.framed.rest.trans h.rest, by omega, by rw [he.user]; exact h.user⟩ he.leaf
  · rcases he.framed.own q with h1 | ⟨-, h1⟩
    · rw [h1] at hq
      exact h.only q r' x hq
    · rw [hq] at h1
      cases h1
      rfl
  · split
    · next hin =>
      refine .inl (mapPte_bound ?_ hperm)
      have hpg : pgSize = 4096 := rfl
      have h1 : (v - va / pgSize) * pgSize ≤ len + pgSize := by
        obtain ⟨h2, h3⟩ := hin
        rw [hpg] at *
        omega
      omega
    · exact .inr rfl
  · rw [he.leaf _ (kstackVpn_lt p), if_neg, h.unstacked p]
    have hp := p.isLt
    unfold kstackVpn kstackVa trapframeVa trampolineVa vaMax pgSize at *
    omega

/-- The kernel is mapped, with one kernel stack. -/
structure KvmReady (r : Nat) (s₀ : Kernel) (g : Ledger) (s : Kernel) : Prop where
  heap : Heap g s
  homed : Homed g s
  live : g.Live r
  only : ∀ q r' x, g.own q = .table r' x → r' = r
  tops : Tops g s r
  kstack : ∀ p, leaf s.mem r (kstackVpn p) = 0 ∨
    p = 0 ∧ g.own (pteToPa (leaf s.mem r (kstackVpn p))) = .kstack p
  trampoline : leaf s.mem r trampolineVpn ≠ 0
  rest : s.rest = ({ s₀ with kernelPgtbl := r } : Kernel).rest
  used : kernelPages ≤ (g.free true).length + 300
  user : (g.free false).length = userPages s₀.allocBegin

theorem sub64_of_le {a b : Nat} (h : b ≤ a) (ha : a < 2 ^ 64) : sub64 a b = a - b := by
  unfold sub64 u64
  omega

/-- The one kernel stack of `kvm_init`. -/
theorem KvmStage.stack (h : KvmStage r { s₀ with kernelPgtbl := r } 267 g s)
    (htop : leaf s.mem r trampolineVpn ≠ 0) {Q : Unit → Kernel → Prop}
    (hQ : ∀ g' s', KvmReady r s₀ g' s' → Q () s') :
    Sat (do
      let pa ← pmemAlloc true
      if pa = 0 then panic .kvmInitKstack
      vmMappages r (kstackVa 0) pa pgSize (pteR ||| pteW)) s G Q E := by
  have hused := h.used
  have hkp : kernelPages = 1024 := rfl
  refine (pmemAlloc_heap h.heap true (u := .kstack 0) trivial).bind fun pa s₁ ⟨g₁, hg⟩ => ?_
  cases hg with
  | none hempty =>
      rw [hempty, List.length_nil] at hused
      omega
  | some pos lt was length heap mem rest =>
  have hown : (g.grant true pa (.kstack 0)).own pa = .kstack 0 := Ledger.grant_own_self
  have hback : ∀ q r' x, (g.grant true pa (.kstack 0)).own q = .table r' x →
    g.own q = .table r' x := by
    intro q r' x hq
    by_cases hqp : q = pa
    · rw [hqp, hown] at hq
      cases hq
    · rwa [Ledger.grant_own_ne hqp] at hq
  have hlive : (g.grant true pa (.kstack 0)).Live r := by
    have hne : r ≠ pa := by
      rintro rfl
      have hl := h.live
      unfold Ledger.Live at hl
      rw [was] at hl
      cases hl
    exact (Ledger.grant_own_ne hne).trans h.live
  have hpage := heap.page pa (by rw [hown]; exact Use.noConfusion)
  have hhomed : Homed (g.grant true pa (.kstack 0)) s := by
    refine h.homed.move (u := .kstack 0) rfl trivial (.inl ?_)
    rw [was]
    rfl
  obtain ⟨low, hlow⟩ : ∃ q, tableAt s₁.mem r (lowPos trampolineVpn) = some q := by
    rw [mem]
    exact leaf_ne_zero htop
  rw [← lowPos_congr (kstack_low 0)] at hlow
  rw [if_neg (by omega)]
  have hva : kstackVa 0 = kstackVpn 0 * pgSize := (kstackVpn_mul 0).symm
  rw [hva]
  refine (mapPage_present heap hlive (Nat.lt_trans lt (by decide)) (by decide)
    (kstackVpn_lt 0) hlow).imp ?_
  rintro - s₂ ⟨g₂, he⟩
  have hused₂ := he.used
  refine hQ g₂ s₂ ⟨he.heap, he.homed (hhomed.of_rest rest), he.live, fun q r' x hq =>
    ?_, he.tops (fun v _ => ?_) ?_, fun p => ?_, ?_,
    ?_, by omega, ?_⟩
  · rcases he.framed.own q with h1 | ⟨-, h1⟩
    · rw [h1] at hq
      exact h.only q r' x (hback q r' x hq)
    · rw [hq] at h1
      cases h1
      rfl
  · split
    · exact .inl (mapPte_small lt (by decide))
    · exact .inr rfl
  · intro q x hq
    rw [mem]
    exact h.tops q x (hback q r x hq)
  · by_cases hp : p = 0
    · subst hp
      refine .inr ⟨rfl, ?_⟩
      rw [he.leaf _ (kstackVpn_lt 0), if_pos rfl,
        mapPte_pa hpage.1 (Nat.lt_trans lt (by decide)) (by decide)]
      exact (he.framed.own_eq (by rw [hown]; exact fun hc => nomatch hc)).trans hown
    · refine .inl ?_
      rw [he.leaf _ (kstackVpn_lt p), if_neg fun hc => hp (kstackVpn_inj hc), mem]
      exact h.unstacked p
  · rw [he.leaf _ (by decide), if_neg (by decide), mem]
    exact htop
  · exact he.framed.rest.trans (rest.trans h.rest)
  · rw [he.user, Ledger.grant_free_ne (by decide)]
    exact h.user

theorem Heap.setRoot (h : Heap g s) (r : Nat) : Heap g { s with kernelPgtbl := r } := by
  have hl := h.pools.layout
  refine ⟨⟨⟨hl.pos, hl.aligned, hl.room, hl.kernBegin, hl.kernStop, hl.userBegin, hl.userStop⟩,
    fun k => ?_, h.pools.lock⟩,
    h.free_iff, h.page, h.root, h.child⟩
  exact ⟨(h.pools.pool k).chain, (h.pools.pool k).count, (h.pools.pool k).page⟩

/-- The root of the kernel's table: the page is cleared, and nothing is mapped. -/
theorem KvmStage.root {s₁ : Kernel} {g₁ : Ledger} (hp : Pools s l)
    (hk : (l true).length = kernelPages) (hu : (l false).length = userPages s.allocBegin)
    (hg : Granted (Ledger.boot l) s true .scratch r g₁ s₁) (hr0 : r ≠ 0) :
    KvmStage r { s with kernelPgtbl := r } 1 ((Ledger.boot l).grant true r (.table r []))
      { s₁.setMem (splice s₁.mem r (fun _ => 0) pgSize) with kernelPgtbl := r } := by
  obtain ⟨hheap, hhomed, htops, hleaf, -, honly⟩ :=
    emptyTable_granted hp.homed (fun q r x hq => absurd hq (boot_table q r x)) hg hr0
  obtain ⟨hrest, hlen⟩ : s₁.rest = s.rest ∧
      (l true).length = (((Ledger.boot l).grant true r (.table r [])).free true).length + 1 := by
    cases hg with
    | none => exact absurd rfl hr0
    | some pos lt was length heap mem rest => exact ⟨rest, length⟩
  refine ⟨hheap.setRoot r, ⟨hhomed.home, hhomed.top⟩, Ledger.grant_own_self,
    fun q r' x hq => ?_, htops, fun p => hleaf _, ?_, by omega, ?_⟩
  · by_contra hne
    have hqr : q ≠ r := by
      rintro rfl
      rw [Ledger.grant_own_self] at hq
      exact hne (Use.table.inj hq).1.symm
    rw [Ledger.grant_own_ne hqr] at hq
    exact boot_table q r' x hq
  · exact congrArg (fun t : Kernel => { t with kernelPgtbl := r }) hrest
  · rw [Ledger.grant_free_ne (by decide)]
    exact hu

/-- The entry of the trampoline is not zero. -/
theorem trampoline_entry (a : Nat) : mapPte a (pteR ||| pteX) 0 ≠ 0 := by
  intro hz
  have hv : hasFlag (mapPte a (pteR ||| pteX) 0) pteV = true := mapPte_valid (by decide)
  rw [hz, hasFlag_zero] at hv
  cases hv

/-- `kvm_init` after the pools are filled. -/
theorem kvmInit_sat {Q : Unit → Kernel → Prop} (h : Linked s) (hp : Pools s l)
    (hk : (l true).length = kernelPages)
    (hu : (l false).length = userPages s.allocBegin)
    (hQ : ∀ r g' s', KvmReady r s g' s' → Q () s') :
    Sat kvmInit s G Q E := by
  have hkp : kernelPages = 1024 := rfl
  have hpg : pgSize = 4096 := rfl
  have hpt : physTop = 0x88000000 := rfl
  have hkb : kernelBase = 0x80000000 := rfl
  obtain ⟨⟨htr, hbelow, hetext, hend⟩, hbase, hal, hroom⟩ := h
  rw [show kernelPages * pgSize = 0x400000 from rfl] at hroom
  have htext :
    2 * ((kernelBase + (s.etext - kernelBase) - 1) / pgSize / 512 - kernelBase / pgSize / 512 + 1) ≤
      128 := by
    rw [hpg, hkb]
    omega
  have hdata :
      2 * ((s.etext + (physTop - s.etext) - 1) / pgSize / 512 - s.etext / pgSize / 512 + 1) ≤
        128 := by
    rw [hpg, hpt]
    omega
  unfold kvmInit allocPgtbl
  rw [sat_bind]
  refine (pmemAlloc_heap hp.heap true (u := .scratch) trivial).bind fun r s₁ ⟨g₁, hg⟩ => ?_
  have hr0 : r ≠ 0 := by
    rintro rfl
    cases hg with
    | none hempty =>
        have hl : l true = [] := hempty
        rw [hl, List.length_nil] at hk
        omega
    | some pos => exact absurd pos (Nat.lt_irrefl 0)
  have hst := KvmStage.root hp hk hu hg hr0
  simp only [if_neg hr0, sat_bind, sat_clearPage, sat_pure, sat_modify, sat_state]
  have he₁ : (s₁.setMem (splice s₁.mem r (fun _ => 0) pgSize)).etext = s.etext :=
    (congrArg Kernel.etext hst.rest :)
  generalize ({ s₁.setMem (splice s₁.mem r (fun _ => 0) pgSize) with kernelPgtbl := r } : Kernel) =
    t at hst ⊢
  rw [he₁]
  -- the devices
  refine hst.map (k := 2) (by decide) (by decide) (by decide) (by decide) (by decide)
    (by decide) (by decide) ?_
  intro g₂ s₂ h₂ _
  refine h₂.map (k := 2) (by decide) (by decide) (by decide) (by decide) (by decide)
    (by decide) (by decide) ?_
  intro g₃ s₃ h₃ _
  refine h₃.map (k := 4) (by decide) (by decide) (by decide) (by decide) (by decide)
    (by decide) (by decide) ?_
  intro g₄ s₄ h₄ _
  -- kernel text and the rest of memory
  rw [sub64_of_le (a := s.etext) (by omega) (by omega)]
  refine h₄.map (k := 128) (by omega) ?_ (by omega) (by decide) ?_ htext (by omega) ?_
  · unfold vaMax
    omega
  · refine .inl ?_
    unfold kstackVa trapframeVa trampolineVa vaMax
    omega
  intro g₅ s₅ h₅ _
  rw [sub64_of_le (a := physTop) (by omega) (by omega)]
  refine h₅.map (k := 128) (by omega) ?_ (by omega) (by decide) ?_ hdata (by omega) ?_
  · unfold vaMax
    omega
  · refine .inl ?_
    unfold kstackVa trapframeVa trampolineVa vaMax
    omega
  intro g₆ s₆ h₆ _
  have htr₆ : s₆.trampoline = s.trampoline := (congrArg Kernel.trampoline h₆.rest :)
  rw [htr₆]
  refine h₆.map (k := 2) (by decide) (by decide) (by omega) (by decide) (.inr (by decide))
    (by decide) (by omega) ?_
  intro g₇ s₇ h₇ hleaf₇
  have htop : leaf s₇.mem r trampolineVpn ≠ 0 := by
    rw [hleaf₇ _ (by decide), if_pos (by decide)]
    exact trampoline_entry s.trampoline
  have hend' := KvmStage.stack (G := G) (E := E) h₇ htop (hQ r)
  rw [sat_bind] at hend'
  exact hend'

/-! ## Before the first process -/

def slotProc (p : ProcId) : Proc := ⟨0, .unused, none, 0, none, 0, 0, 0, 0, none, 0, kstackVa p⟩

def warehouse (i : NodeId) : Node :=
  ⟨0, 0, none, if h : i.val + 1 < nMmap then some ⟨i.val + 1, h⟩ else none⟩

/-- The kernel without processes. -/
structure Ready (s₀ : Kernel) (g : Ledger) (s : Kernel) : Prop where
  world : World (fun _ => False) g s
  unstacked : ∀ p, p ≠ 0 → leaf s.mem s.kernelPgtbl (kstackVpn p) = 0
  trampoline : leaf s.mem s.kernelPgtbl trampolineVpn ≠ 0
  rest : ∃ r, s.rest =
    ({ s₀ with kernelPgtbl := r, nodes := warehouse, procs := slotProc } : Kernel).rest
  used : kernelPages ≤ (g.free true).length + 300
  user : (g.free false).length = userPages s₀.allocBegin

theorem KvmReady.ready {s₁ : Kernel} (h : KvmReady r s₁ g s) (htext : Text s₀)
    (hs : s'.rest = { s.rest with procs := slotProc }) (hmem : SameMem s s')
    (hn : s₁.rest = ({ s₀ with nodes := warehouse } : Kernel).rest) : Ready s₀ g s' := by
  have hk : s.kernelPgtbl = r := (congrArg Kernel.kernelPgtbl h.rest :)
  have hk' : s'.kernelPgtbl = r := hmem.kernelPgtbl.trans hk
  have htr : s'.trampoline = s₀.trampoline :=
    hmem.trampoline.trans
      ((congrArg Kernel.trampoline h.rest :).trans (congrArg Kernel.trampoline hn :))
  have het : s'.etext = s₀.etext :=
    hmem.etext.trans ((congrArg Kernel.etext h.rest :).trans (congrArg Kernel.etext hn :))
  have hab₁ : s₁.allocBegin = s₀.allocBegin := (congrArg Kernel.allocBegin hn :)
  have hab : s'.allocBegin = s₀.allocBegin :=
    hmem.allocBegin.trans ((congrArg Kernel.allocBegin h.rest :).trans hab₁)
  refine ⟨⟨⟨?_, ?_, ?_, ?_⟩, h.heap.same hmem, h.homed.same hmem, fun q r' x hq => ?_, fun r' hl =>
    ?_, ?_, fun p hv => ?_,
    fun p => ?_, fun p hp => hp.elim, fun p q hp => hp.elim⟩, fun p hp =>
      ?_, ?_, ⟨r, ?_⟩, h.used, hab₁ ▸ h.user⟩
  · rw [htr]
    exact htext.trampoline
  · rw [htr, het]
    exact htext.below
  · rw [het]
    exact htext.etext
  · rw [het, hab]
    exact htext.end_le
  · rw [h.only q r' x hq]
    exact h.live
  · obtain rfl := h.only r' r' [] hl
    exact h.tops.same hmem
  · rw [hk']
    exact h.live
  · rw [hmem.mem, hk'] at hv ⊢
    rcases h.kstack p with hz | ⟨-, hown⟩
    · rw [hz, hasFlag_zero] at hv
      cases hv
    · exact hown
  · have hp : s'.procs p = slotProc p := (congrFun (congrArg Kernel.procs hs) p :)
    rw [hp]
    rfl
  · rw [hmem.mem, hk']
    exact (h.kstack p).resolve_right fun hc => hp hc.1
  · rw [hmem.mem, hk']
    exact h.trampoline
  · rw [hs, h.rest]
    exact congrArg (fun x : Kernel => { x with kernelPgtbl := r, procs := slotProc }) hn

theorem length_regionPages (a : Nat) (k : Bool) :
    (regionPages a k).length = if k then kernelPages else userPages a := by
  unfold regionPages pagesFrom userPages
  cases k with
  | true => rw [if_pos rfl, if_pos rfl, List.length_map, List.length_range]
  | false => rw [if_neg (by decide), if_neg (by decide), List.length_map, List.length_range]

theorem bootKernel_sat {a t e : Nat} {m : Bytes} {Q : Unit → Kernel → Prop}
    (h : Linked (Kernel.start a t e m))
    (hQ : ∀ g s, Ready (Kernel.start a t e m) g s → Q () s) :
    Sat bootKernel (Kernel.start a t e m) G Q E := by
  have hb : kernelBase ≤ (Kernel.start a t e m).allocBegin := by
    have h1 := h.base
    have h2 := h.text.below
    have h3 := h.text.end_le
    omega
  unfold bootKernel
  refine (pmemInit_sat hb h.aligned h.room).bind fun _ s₁ hinit => ?_
  obtain ⟨⟨m', kern, user, hs₁⟩, hp⟩ := hinit
  have hlk₁ : ∀ lk, s₁.locks lk = false := by
    intro lk
    rw [hs₁]
    cases lk <;> rfl
  -- the warehouse of `mmap` nodes
  unfold mmapInit
  rw [sat_bind, sat_modify, sat_bind]
  generalize hs₂ : ({ s₁ with
      locks := Function.update s₁.locks .mmapList false
      nodes := fun i =>
        { s₁.nodes i with link := if h : i.val + 1 < nMmap then some ⟨i.val + 1, h⟩ else none } } :
          Kernel) = s₂
  have hlk₂ : s₂.locks = fun _ => false := by
    rw [← hs₂]
    funext lk
    change Function.update s₁.locks .mmapList false lk = false
    by_cases hl : lk = .mmapList
    · rw [hl, Function.update_self]
    · rw [Function.update_of_ne hl, hlk₁]
  have hsame₂ : SameMem s₁ s₂ := by
    refine ⟨?_, fun k => ?_, fun k => ?_, ?_, ?_, ?_, ?_⟩
    · rw [← hs₂]
    · rw [← hs₂]; rfl
    · rw [hlk₂, hlk₁]
    · rw [← hs₂]
    · rw [← hs₂]
    · rw [← hs₂]
    · rw [← hs₂]
  have hrest₂ : s₂.rest = ({ Kernel.start a t e m with nodes := warehouse } : Kernel).rest := by
    refine Kernel.ext ?_ ?_ ?_ rfl rfl rfl hlk₂ ?_ ?_ ?_ ?_ ?_
    all_goals
      rw [← hs₂, hs₁]
      rfl
  have hpools₂ : Pools s₂ fun k => (regionPages a k).reverse := ((Pools.heap hp).same hsame₂).pools
  have hlinked₂ : Linked s₂ := by
    obtain ⟨⟨h1, h2, h3, h4⟩, h5, h6, h7⟩ := h
    have htr : s₂.trampoline = t := (congrArg Kernel.trampoline hrest₂ :)
    have het : s₂.etext = e := (congrArg Kernel.etext hrest₂ :)
    have hal : s₂.allocBegin = a := (congrArg Kernel.allocBegin hrest₂ :)
    refine ⟨⟨?_, ?_, ?_, ?_⟩, ?_, ?_, ?_⟩
    · rw [htr]; exact h1
    · rw [htr, het]; exact h2
    · rw [het]; exact h3
    · rw [het, hal]; exact h4
    · rw [htr]; exact h5
    · rw [hal]; exact h6
    · rw [hal]; exact h7
  have hab₂ : s₂.allocBegin = a := (congrArg Kernel.allocBegin hrest₂ :)
  refine kvmInit_sat hlinked₂ hpools₂ ?_ ?_ fun r g s₃ h₃ => ?_
  · rw [List.length_reverse, length_regionPages, if_pos rfl]
  · rw [List.length_reverse, length_regionPages, hab₂, if_neg (by decide)]
  -- the process table
  unfold procInit
  rw [sat_modify]
  have hlk₃ : s₃.locks = fun _ => false := (congrArg Kernel.locks h₃.rest :).trans hlk₂
  have hprocs₃ : s₃.procs = fun _ => ⟨0, .unused, none, 0, none, 0, 0, 0, 0, none, 0, 0⟩ :=
    (congrArg Kernel.procs h₃.rest :).trans (congrArg Kernel.procs hrest₂ :)
  refine hQ g _ (h₃.ready h.text ?_ ⟨rfl, fun _ => rfl, fun k => rfl, rfl, rfl, rfl, rfl⟩ hrest₂)
  refine Kernel.ext rfl rfl rfl rfl rfl rfl ?_ rfl rfl ?_ rfl rfl
  · funext lk
    cases lk
    all_goals first | rfl | exact (congrFun hlk₃ _).symm
  change (fun p => { s₃.procs p with state := .unused, kstack := kstackVa p }) = slotProc
  rw [hprocs₃]
  rfl

/-! ## `proc_make_first` -/

/-- A page of a process: new, cleared and mapped. -/
theorem clearedPage_sat {p : ProcId} (v perm : Nat) {e : Panic} {k : Nat → MemM Unit}
    {Q : Unit → Kernel → Prop}
    (h : World A g s) (ha : A p) (hown : g.own (s.procs p).tf = .trapframe p) (hv : v < vaPages)
    (hperm : perm < 2 ^ 10) (hne : perm ||| pteV ≠ pteR ||| pteW ||| pteV)
    (hroom : 1 ≤ (g.free false).length ∧ 2 ≤ (g.free true).length)
    (hk : ∀ q s₁, s₁.procs = s.procs →
      (∀ R : Unit → Kernel → Prop,
        (∀ m g' s', NewPage (s.procs p).pgtbl (s.procs p).tf v q perm m g s g' s' →
        World A g' s' → g'.own (s.procs p).tf = .trapframe p → R () s') →
        Sat (vmMappages (s.procs p).pgtbl (v * pgSize) q pgSize perm) s₁ G R E) →
          Sat (k q) s₁ G Q E) :
    Sat (do
      let pa ← pmemAlloc false
      if pa = 0 then panic e
      clearPage pa
      k pa) s G Q E := by
  have ht := h.proc p ha
  have htf := h.heap.page_of_own hown Use.noConfusion
  refine (pmemAlloc_heap h.heap false (u := .frame (s.procs p).pgtbl v) trivial).bind
    fun q s₁ ⟨g₁, hg⟩ => ?_
  have hq : q ≠ 0 := by
    rintro rfl
    cases hg with
    | some pos => exact absurd pos (Nat.lt_irrefl 0)
    | none hempty =>
        rw [hempty] at hroom
        exact absurd hroom.1 (by decide)
  have hprocs : s₁.procs = s.procs := by
    cases hg with
    | none => exact absurd rfl hq
    | some pos lt was length heap mem rest => exact rest_procs rest
  rw [if_neg hq, sat_bind, sat_clearPage]
  refine hk q _ hprocs fun R hR => ?_
  refine ht.space.mapNew hg hq (fun a hne => ?_) hperm (fun hbad => absurd ⟨hv, hroom.2⟩ hbad)
    fun _ g' s' hnew => ?_
  · by_contra hc
    exact hne (splice_out (by omega))
  have hadd := hnew.added (Added.refl hnew.space)
  refine hR _ g' s' hnew (h.added ha rfl rfl hadd hperm hne) ?_
  exact (hnew.kept _ htf.1 (by rw [hown]; trivial)).1.trans hown

def firstProc (tf pgtbl : Nat) : Proc :=
  ⟨1, .runnable, none, 0, none, pgtbl, pgSize, 0x10000, 1, none, tf, kstackVa 0⟩

/-- The kernel with the first process. -/
structure FirstMade (s₀ : Kernel) (g : Ledger) (s : Kernel) : Prop where
  world : World (fun p => p = 0) g s
  trapframe : g.own (s.procs 0).tf = .trapframe 0
  stack : Stacked s 0
  unstacked : ∀ p, p ≠ 0 → leaf s.mem s.kernelPgtbl (kstackVpn p) = 0
  trampoline : leaf s.mem s.kernelPgtbl trampolineVpn ≠ 0
  leaf : ∃ q q', g.own q = .frame (s.procs 0).pgtbl 0 ∧ g.own q' = .frame (s.procs 0).pgtbl 16 ∧
    ∀ v < vaPages, leaf s.mem (s.procs 0).pgtbl v =
      if v = 0 then mapPte q (pteR ||| pteW ||| pteX ||| pteU) 0
      else if v = 16 then mapPte q' (pteR ||| pteW ||| pteU) 0
      else if v = trapframeVpn then trapframePte (s.procs 0).tf
      else if v = trampolineVpn then trampolinePte s else 0
  rest : ∃ r tf pgtbl, s.rest = ({ s₀ with
    kernelPgtbl := r, nodes := warehouse, procs := Function.update slotProc 0 (firstProc tf pgtbl)
    proczero := some 0, globalPid := 2 } : Kernel).rest
  used : kernelPages ≤ (g.free true).length + 308
  user : userPages s₀.allocBegin ≤ (g.free false).length + 3

/-! ## The first process, while it is made -/

/-- The record of the first process when `proc_alloc` is done. -/
def firstSlot (tf pgtbl : Nat) : Proc :=
  { slotProc 0 with pid := 1, state := .runnable, tf := tf, pgtbl := pgtbl }

/-- Between `proc_alloc` and the release of the lock: `x` is the record of the first process, `F`
what its table maps; the kernel's table is that of `s₁`, and `m` and `n` pages were taken from the
two pools. -/
structure Making (g : Ledger) (s s₁ : Kernel) (x : Proc) (F : Nat → Nat) (m n : Nat) (g' : Ledger)
    (s' : Kernel) : Prop where
  world : World (fun p => p = 0) g' s'
  own : g'.own x.tf = .trapframe 0
  rest : s'.rest = ({ s with proczero := some 0, globalPid := 2, locks := Function.update s.locks (.proc 0) true
                             procs := Function.update s.procs 0 x } : Kernel).rest
  root : x.pgtbl ≠ s.kernelPgtbl
  kernel : ∀ v, leaf s'.mem s.kernelPgtbl v = leaf s₁.mem s.kernelPgtbl v
  leaf : ∀ v < vaPages, leaf s'.mem x.pgtbl v = F v
  user : (g.free false).length ≤ (g'.free false).length + m
  used : (g.free true).length ≤ (g'.free true).length + n

section

variable {s₁ s₂ : Kernel} {g₂ : Ledger} {x : Proc} {F : Nat → Nat} {m n : Nat}

theorem Making.self (h : Making g s s₁ x F m n g₂ s₂) : s₂.procs 0 = x := by
  have hprocs : s₂.procs = Function.update s.procs 0 x := (congrArg Kernel.procs h.rest :)
  rw [hprocs, Function.update_self]

theorem Making.root_eq (h : Making g s s₁ x F m n g₂ s₂) : s₂.kernelPgtbl = s.kernelPgtbl := (congrArg Kernel.kernelPgtbl h.rest :)

theorem Making.held (h : Making g s s₁ x F m n g₂ s₂) : s₂.locks (.proc 0) = true := by
  have hlocks : s₂.locks = Function.update s.locks (.proc 0) true :=
    (congrArg Kernel.locks h.rest :)
  rw [hlocks, Function.update_self]

theorem Making.live (h : Making g s s₁ x F m n g₂ s₂) : g₂.Live x.pgtbl :=
  h.self ▸ (h.world.proc 0 rfl).space.live

theorem Making.begun (hprocs : s.procs = slotProc) (hpid : s.globalPid = 1)
    (har : Arrived (fun _ => False) 0 g s g₂ s₂) :
    ∃ tf pgtbl, Making g s s₂ (firstSlot tf pgtbl)
      (fun v => if v = trapframeVpn then trapframePte tf else if v = trampolineVpn then trampolinePte s else 0) 1 4 g₂
      { s₂ with proczero := some 0 } := by
  obtain ⟨tf, pgtbl, hrest⟩ := har.rest
  have hself : s₂.procs 0 = firstSlot tf pgtbl := by
    have hup : s₂.procs = Function.update s.procs 0
        { s.procs 0 with pid := s.globalPid, state := .runnable, tf := tf, pgtbl := pgtbl } :=
      (congrArg Kernel.procs hrest :)
    rw [hup, Function.update_self, hprocs, hpid]
    rfl
  have hap := har.apart
  have hw : World (fun p => p = 0) g₂ s₂ := by
    refine World.anti (A := fun q => False ∨ q = 0) ?_ fun q hq => .inr hq
    exact har.world.insert ⟨hap.space, hap.user, fun _ => hap.trapframe⟩ fun q hq => hq.elim
  have hkern : s₂.kernelPgtbl = s.kernelPgtbl := (congrArg Kernel.kernelPgtbl hrest :)
  refine ⟨tf, pgtbl, hw.same ⟨rfl, fun _ => rfl, fun _ => rfl, rfl, rfl, rfl, rfl⟩ (fun _ => rfl) fun _ _ => ⟨rfl, rfl, .inl⟩,
    ?_, ?_, ?_, fun v => rfl, fun v hv => ?_, har.user, har.used⟩
  · have hown := hap.trapframe
    rwa [hself] at hown
  · refine (congrArg (fun t : Kernel => { t with proczero := some 0 }) hrest).trans ?_
    refine Kernel.ext rfl rfl rfl rfl rfl rfl rfl rfl rfl ?_ rfl ?_
    · change Function.update s.procs 0 { s.procs 0 with pid := s.globalPid, state := .runnable, tf := tf, pgtbl := pgtbl } =
        Function.update s.procs 0 (firstSlot tf pgtbl)
      rw [hprocs, hpid]
      rfl
    · change s.globalPid + 1 = 2
      rw [hpid]
  · have hne := hap.user
    rwa [hself, hkern] at hne
  · have hleaf := har.leaf v hv
    rwa [hself] at hleaf

/-- A page is mapped. -/
theorem Making.page {v q perm : Nat} {d : Bytes} (h : Making g s s₁ x F m n g₂ s₂) (hnew : NewPage x.pgtbl x.tf v q perm d g₂ s₂ g' s')
    (hw : World (fun p => p = 0) g' s') :
    Making g s s₁ x (fun w => if w = v then mapPte q perm 0 else F w) (m + 1) (n + 2) g' s' := by
  have hpage := h.world.heap.page_of_own h.own Use.noConfusion
  have hno : ∀ y, ¬ UserUse x.pgtbl (.table s.kernelPgtbl y) := fun y hy => h.root ((UserUse.onRoot x.pgtbl).table _ _ hy).symm
  refine ⟨hw, ?_, hnew.framed.rest.trans h.rest, h.root, fun v => ?_, fun w hw => ?_, ?_, ?_⟩
  · exact (hnew.kept _ hpage.1 (by rw [h.own]; trivial)).1.trans h.own
  · exact (hnew.framed.leaf h.world.heap (h.root_eq ▸ h.world.kernel) hno).trans (h.kernel v)
  · rw [hnew.leaf w hw, h.leaf w hw]
  · have huser := hnew.user
    have huser₀ := h.user
    omega
  · have hused := hnew.used
    have hused₀ := h.used
    omega

/-- Something is written to a page that is no table. -/
theorem Making.write {q : Nat} {d : Bytes} (h : Making g s s₁ x F m n g₂ s₂) (hq : q % pgSize = 0) (hd : (g₂.own q).IsData)
    (hin : Inside q s₂.mem d) : Making g s s₁ x F m n g₂ (s₂.setMem d) := by
  refine ⟨h.world.write_page hq hd hin, h.own, h.rest, h.root, fun v => ?_, fun v hv => ?_, h.user, h.used⟩
  · exact (h.world.heap.write_leaf (h.root_eq ▸ h.world.kernel) hq hd hin).trans (h.kernel v)
  · exact (h.world.heap.write_leaf h.live hq hd hin).trans (h.leaf v hv)

/-- The record is changed. -/
theorem Making.recorded (h : Making g s s₁ x F m n g₂ s₂) (x' : Proc) (htf : x'.tf = x.tf)
    (hpgtbl : x'.pgtbl = x.pgtbl)
    (hkstack : x'.kstack = x.kstack) (hstate : x'.state ≠ .zombie) : Making g s s₁ x' F m n g₂ (s₂.setProc 0 x') := by
  refine ⟨h.world.setProc (by rw [h.self, hkstack]) fun _ => ?_, by rw [htf]; exact h.own, ?_, by rw [hpgtbl]; exact h.root, h.kernel,
    fun v hv => ?_, h.user, h.used⟩
  · rw [h.self]
    exact ⟨hpgtbl, htf, fun hz => absurd hz hstate⟩
  · rw [rest_setProc, h.rest]
    exact Kernel.ext rfl rfl rfl rfl rfl rfl rfl rfl rfl (Function.update_idem _ _ _) rfl rfl
  · rw [hpgtbl]
    exact h.leaf v hv

end

/-- The lock of the first process is released. -/
theorem Making.made {a t e : Nat} {d : Bytes} {s₁ s₂ : Kernel} {g₁ g₂ : Ledger}
    {tf pgtbl q q' : Nat} {F : Nat → Nat}
    (h : Ready (Kernel.start a t e d) g s) (har : Arrived (fun _ => False) 0 g s g₁ s₁)
    (hm : Making g s s₁ (firstProc tf pgtbl) F 3 8 g₂ s₂) (hq : g₂.own q = .frame pgtbl 0) (hq' : g₂.own q' = .frame pgtbl 16)
    (hF : ∀ v, F v = if v = 0 then mapPte q (pteR ||| pteW ||| pteX ||| pteU) 0
      else if v = 16 then mapPte q' (pteR ||| pteW ||| pteU) 0
      else if v = trapframeVpn then trapframePte tf else if v = trampolineVpn then trampolinePte s else 0) :
    FirstMade (Kernel.start a t e d) g₂ (s₂.setLock (.proc 0) false) := by
  obtain ⟨r, hrest⟩ := h.rest
  have hself : (s₂.setLock (.proc 0) false).procs 0 = firstProc tf pgtbl := hm.self
  have hroot : (s₂.setLock (.proc 0) false).kernelPgtbl = s.kernelPgtbl := hm.root_eq
  have htr : trampolinePte (s₂.setLock (.proc 0) false) = trampolinePte s :=
    congrArg (fun x => mapPte x (pteR ||| pteX) 0) (congrArg Kernel.trampoline hm.rest :)
  have hused := h.used
  have huser := h.user
  have hused₂ := hm.used
  have huser₂ := hm.user
  refine ⟨?_, ?_, ?_, fun p hp =>
    ?_, ?_, ⟨q, q', ?_, ?_, fun v hv => ?_⟩, ⟨r, tf, pgtbl, ?_⟩, by omega, by omega⟩
  · refine hm.world.same ⟨rfl, fun _ => rfl, fun k => ?_, rfl, rfl, rfl, rfl⟩ (fun _ => rfl)
      fun _ _ => ⟨rfl, rfl, .inl⟩
    change Function.update _ (Lock.proc 0) false (.pmem k) = _
    exact Function.update_of_ne (show Lock.pmem k ≠ .proc 0 from nofun) _ _
  · rw [hself]
    exact hm.own
  · obtain ⟨k, hk1, hk2, hk3⟩ := har.apart.stack
    have hroot₁ : s₁.kernelPgtbl = s.kernelPgtbl := by
      obtain ⟨tf', pgtbl', hrest₁⟩ := har.rest
      exact (congrArg Kernel.kernelPgtbl hrest₁ :)
    refine ⟨k, hk1, hk2, ?_⟩
    rw [hroot, ← hk3, hroot₁]
    exact hm.kernel _
  · rw [hroot]
    refine (hm.kernel _).trans ?_
    rw [har.kernel _ (kstackVpn_lt p) fun hc => hp (kstackVpn_inj hc)]
    exact h.unstacked p hp
  · rw [hroot]
    refine (congrArg (· ≠ 0) ((hm.kernel _).trans (har.kernel _ (by decide) (by decide)))).mpr ?_
    exact h.trampoline
  · rw [hself]
    exact hq
  · rw [hself]
    exact hq'
  · rw [hself, htr]
    exact (hm.leaf v hv).trans (hF v)
  · have hlocks : s.locks = fun _ => false := (congrArg Kernel.locks hrest :)
    refine (congrArg (fun t : Kernel => t.setLock (.proc 0) false) hm.rest).trans ?_
    refine Kernel.ext ?_ ?_ ?_ rfl rfl rfl ?_ ?_ ?_ ?_ rfl rfl
    · exact (congrArg Kernel.allocBegin hrest :)
    · exact (congrArg Kernel.trampoline hrest :)
    · exact (congrArg Kernel.etext hrest :)
    · change Function.update (Function.update s.locks (.proc 0) true) (.proc 0) false = fun _ =>
        false
      rw [Function.update_idem, hlocks, Function.update_eq_self_iff]
    · exact (congrArg Kernel.nodes hrest :)
    · exact (congrArg Kernel.kernelPgtbl hrest :)
    · change Function.update s.procs 0 (firstProc tf pgtbl) = _
      rw [show s.procs = slotProc from (congrArg Kernel.procs hrest :)]
      rfl

/-- The first process is made: there is memory for it. -/
theorem procMakeFirst_sat {a t e : Nat} {m : Bytes} {Q : Unit → Kernel → Prop} (h : Ready (Kernel.start a t e m) g s)
    (hroom : 3 ≤ userPages a) (hQ : ∀ g' s', FirstMade (Kernel.start a t e m) g' s' → Q () s') :
    Sat procMakeFirst s (fun _ => True) Q E := by
  have hkp : kernelPages = 1024 := rfl
  have hused := h.used
  have huser := h.user
  obtain ⟨r, hrest⟩ := h.rest
  have hprocs : s.procs = slotProc := (congrArg Kernel.procs hrest :)
  have hlk : ∀ lk, s.locks lk = false := fun lk => (congrFun (congrArg Kernel.locks hrest) lk :)
  have hpid : s.globalPid = 1 := (congrArg Kernel.globalPid hrest :)
  change _ = userPages a at huser
  unfold procMakeFirst
  rw [sat_bind]
  have henough : 1 ≤ (g.free false).length ∧ 4 ≤ (g.free true).length := by omega
  refine procAlloc_sat h.world (fun p _ => ⟨id, ?_, fun hc => absurd henough hc⟩) hlk h.trampoline
    (fun hc => absurd ⟨by rw [hpid]; decide, henough⟩ hc) (fun hall => ?_) fun p g₁ s₁ hst hfirst _ har => ?_
  · rw [hprocs]
    exact ⟨rfl, rfl⟩
  · refine absurd ?_ (hall 0)
    rw [hprocs]
    rfl
  obtain rfl : p = 0 := by
    by_contra hp
    refine hfirst 0 (Fin.pos_iff_ne_zero.mpr hp) ?_
    rw [hprocs]
    rfl
  rw [sat_bind, sat_modify]
  obtain ⟨tf, pgtbl, hm₂⟩ := Making.begun hprocs hpid har
  generalize ({ s₁ with proczero := some 0 } : Kernel) = s₂ at hm₂ ⊢
  have hself₂ := hm₂.self
  have huser₂ := hm₂.user
  have hused₂ := hm₂.used
  -- the page of the program
  refine clearedPage_sat 0 (pteR ||| pteW ||| pteX ||| pteU) hm₂.world rfl
    (by rw [hself₂]; exact hm₂.own) (by decide) (by decide)
    (by decide) ⟨by omega, by omega⟩ fun q s' hs hmap => ?_
  rw [hself₂] at hmap
  rw [sat_bind, sat_procOf, hs, hself₂, sat_bind]
  refine hmap _ fun m₃ g₃ s₃ hnew₃ hw₃ _ => ?_
  have hm₃ := hm₂.page hnew₃ hw₃
  have htext₃ : s₃.etext ≤ q := Nat.le_trans hw₃.text.end_le (hw₃.homed.lt hnew₃.own rfl).1
  rw [sat_bind, sat_storeBytes htext₃, sat_bind, sat_modifyProc, sat_bind,
    sat_modifyProc, setProc_setProc]
  simp only [setProc_self, setMem_procs, hm₃.self]
  have hin₃ : Inside q s₃.mem (splice s₃.mem q (fun i => initcode.getD i 0) initcode.length) :=
    inside_splice (Nat.le_refl q) (Nat.add_le_add_left (by decide) q)
  have hm₄ := (hm₃.write hnew₃.page.1 (by rw [hnew₃.own]; trivial) hin₃).recorded
    (firstProc tf pgtbl) rfl rfl rfl nofun
  change Sat _
    ((s₃.setMem (splice s₃.mem q (fun i => initcode.getD i 0) initcode.length)).setProc 0
      (firstProc tf pgtbl)) _ _ _
  generalize (s₃.setMem (splice s₃.mem q (fun i => initcode.getD i 0) initcode.length)).setProc 0
    (firstProc tf pgtbl) = s₄ at hm₄ ⊢
  have hself₄ := hm₄.self
  have huser₄ := hm₄.user
  have hused₄ := hm₄.used
  -- the page of the stack
  refine clearedPage_sat 16 (pteR ||| pteW ||| pteU) hm₄.world rfl (by rw [hself₄]; exact hm₄.own)
    (by decide) (by decide)
    (by decide) ⟨by omega, by omega⟩ fun q' s' hs hmap => ?_
  rw [hself₄] at hmap
  rw [sat_bind, sat_procOf, sat_bind, sat_procOf, hs, hself₄, sat_bind]
  refine hmap _ fun m₅ g₅ s₅ hnew₅ hw₅ _ => ?_
  have hm₅ := hm₄.page hnew₅ hw₅
  rw [sat_bind, sat_procOf, sat_bind, sat_store, sat_bind, sat_procOf, sat_bind,
    sat_procOf, sat_bind, sat_store,
    sat_bind, sat_modifyProc]
  simp only [setMem_procs, hm₅.self, setMem_setMem, setMem_mem]
  have hin₅ : Inside tf s₅.mem
    (putLE (putLE s₅.mem (tf + tfEpc) 8 0) (tf + tfSp) 8 (u64 (0x10000 + pgSize))) := by
    refine Inside.trans (inside_splice ?_ ?_) (inside_splice ?_ ?_)
    · exact Nat.le_add_right _ _
    · unfold tfEpc pgSize
      omega
    · exact Nat.le_add_right _ _
    · unfold tfSp pgSize
      omega
  have hm₆ := (hm₅.write (hw₅.heap.page_of_own hm₅.own Use.noConfusion).1
    (by rw [hm₅.own]; trivial) hin₅).recorded
    (firstProc tf pgtbl) rfl rfl rfl nofun
  change Sat _
    ((s₅.setMem (putLE (putLE s₅.mem (tf + tfEpc) 8 0) (tf + tfSp) 8
      (u64 (0x10000 + pgSize)))).setProc 0
    (firstProc tf pgtbl)) _ _ _
  rw [sat_release hm₆.held]
  have hcode : g₅.own q = .frame pgtbl 0 :=
    (hnew₅.kept q hnew₃.page.1 (by rw [hnew₃.own]; trivial)).1.trans hnew₃.own
  refine hQ g₅ _ (hm₆.made h har hcode hnew₅.own fun v => ?_)
  by_cases h0 : v = 0
  · subst h0
    rfl
  · rw [if_neg h0, if_neg h0]

end

end WhuOs.Mem
