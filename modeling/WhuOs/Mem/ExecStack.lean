import WhuOs.Mem.ExecArgs

/-! # The stack page of `sys_exec`

The strings go onto the stack page from the last to the first, each at the next lower multiple of 16
that has room for it, and the array of pointers goes below them. The block fits when the sizes,
rounded up to multiples of 16, add up to a page at most.
-/

namespace WhuOs.Mem

open Prog Bytes

def up16 (n : Nat) : Nat := (n + 15) / 16 * 16

def argBytes (strs : List (List UInt8)) : Nat := (strs.map fun str => up16 (str.length + 1)).sum

def blockBytes (strs : List (List UInt8)) : Nat := argBytes strs + up16 ((strs.length + 1) * 8)

/-- The strings end at the end of the page and are in order; `ustack` are their addresses. -/
def Placed (base : Nat) (data : Bytes) : List Nat → List (List UInt8) → Prop
  | [], [] => True
  | a :: ustack, str :: strs =>
      (argBytes (str :: strs) ≤ pgSize ∧ a = base + (pgSize - argBytes (str :: strs)) ∧
        CStr (window data (pgSize - argBytes (str :: strs))) str) ∧ Placed base data ustack strs
  | _, _ => False

def KernelSrc.bytes (m : Bytes) : KernelSrc → Bytes
  | .memory a => window m a
  | .object b => b

section

variable {A : ProcId → Prop} {g g' g₁ g₂ : Ledger} {s s' s₁ s₂ : Kernel} {p : ProcId}
  {r t v w n q a b i k o : Nat} {P : Pages}
  {x : Page} {str : List UInt8} {strs rest : List (List UInt8)}
  {pages ustack : List Nat} {m m' data : Bytes}
  {G : ExecEvent → Prop} {E : Panic → Prop}

/-! ## Sizes -/

theorem up16_bounds (n : Nat) : n ≤ up16 n ∧ up16 n < n + 16 ∧ up16 n % 16 = 0 := by
  unfold up16
  omega

theorem argBytes_cons (str : List UInt8) (strs : List (List UInt8)) :
    argBytes (str :: strs) = up16 (str.length + 1) + argBytes strs := rfl

theorem argBytes_aligned (strs : List (List UInt8)) : argBytes strs % 16 = 0 := by
  induction strs with
  | nil => rfl
  | cons str strs ih =>
      have h := (up16_bounds (str.length + 1)).2.2
      rw [argBytes_cons]
      omega

theorem argBytes_append (strs strs' : List (List UInt8)) :
    argBytes (strs ++ strs') = argBytes strs + argBytes strs' := by
  unfold argBytes
  rw [List.map_append, List.sum_append]

/-- The subtraction and the alignment of `sp`, where nothing wraps around. -/
theorem sp_drop {base : Nat} (hb : base % pgSize = 0) (hpos : pgSize ≤ base)
    (hlt : base + pgSize < 2 ^ 64) (ho : o % 16 = 0)
    (hop : o ≤ pgSize) (hn : n ≤ pgSize) :
    n ≤ base + o ∧
    (up16 n ≤ o → sub64 (base + o) n - sub64 (base + o) n % 16 = base + (o - up16 n)) ∧
      (sub64 (base + o) n - sub64 (base + o) n % 16 < base ↔ ¬ up16 n ≤ o) := by
  have hsub : sub64 (base + o) n = base + o - n := by
    unfold sub64 u64
    omega
  rw [hsub]
  unfold up16
  unfold pgSize at *
  omega

/-! ## The length of a string -/

theorem strlenLoop_sat {Q : Nat → Kernel → Prop} {G : Event → Prop} (fuel : Nat)
    (h : CStr (window s.mem a) str) (hn : n ≤ str.length)
    (hfuel : str.length < n + fuel) (hQ : Q str.length s) : Sat (strlenLoop a fuel n) s G Q E := by
  induction fuel generalizing n with
  | zero => omega
  | succ fuel ih =>
      unfold strlenLoop
      rw [sat_bind, sat_loadByte]
      by_cases hend : n = str.length
      · subst hend
        have hz : s.mem (a + str.length) = 0 := h.2
        rw [if_pos hz, sat_pure]
        exact hQ
      · have hnz : s.mem (a + n) ≠ 0 := (h.1 n (by omega)).2
        rw [if_neg hnz]
        exact ih (by omega) (by omega)

theorem strlen_sat {Q : Nat → Kernel → Prop} {G : Event → Prop} (h : CStr (window s.mem a) str)
    (hlt : a + str.length < physTop)
    (hQ : Q str.length s) : Sat (strlen a) s G Q E :=
  strlenLoop_sat _ h (Nat.zero_le _) (by omega) hQ

/-! ## Copies inside a page -/

theorem KernelSrc.move_bytes {src : KernelSrc} {dst : Nat} {Q : Unit → Kernel → Prop}
    {G : Event → Prop} (h : s.etext ≤ dst)
    (hQ : Q () (s.setMem (splice s.mem dst (src.bytes s.mem) n))) :
    Sat (src.move dst n) s G Q E := by
  cases src with
  | memory a =>
      change Sat (memmove dst a n) s G Q E
      rw [sat_memmove h]
      exact hQ
  | object b =>
      change Sat (storeBytes dst b n) s G Q E
      rw [sat_storeBytes h]
      exact hQ

/-- `uvm_copyout` into one page. -/
theorem uvmCopyout_page {src : KernelSrc} {Q : Unit → Kernel → Prop} {G : Event → Prop}
    (h : Heap g s) (hl : g.Live r)
    (hv : Present s r v) (hn : o + n ≤ pgSize) (htext : s.etext ≤ pteToPa (leaf s.mem r v))
    (hQ : Q () (s.setMem (splice s.mem (pteToPa (leaf s.mem r v) + o) (src.bytes s.mem) n))) :
    Sat (uvmCopyout r (v * pgSize + o) src n) s G Q E := by
  unfold uvmCopyout
  cases n with
  | zero =>
      rw [splice_zero] at hQ
      rw [copyoutLoop, sat_pure]
      exact hQ
  | succ n =>
      have hdown : pgRoundDown (v * pgSize + o) = v * pgSize := by
        unfold pgRoundDown pgSize at *
        omega
      have hmod : (v * pgSize + o) % pgSize = o := by
        unfold pgSize at *
        omega
      have hchunk : chunk (v * pgSize + o) (n + 1) = n + 1 := by
        unfold chunk
        rw [hmod]
        omega
      unfold copyoutLoop
      rw [if_pos (Nat.succ_pos n), hdown, hchunk, hmod, sat_bind]
      refine userPage_sat h hl (fun hc => absurd hv hc) fun _ => ?_
      rw [sat_bind]
      refine KernelSrc.move_bytes (by omega) ?_
      rw [Nat.sub_self, copyoutLoop_done]
      exact hQ

/-- Bytes of the kernel go to a page of the image. -/
theorem Built.copyout {src : KernelSrc} {Q : Unit → Kernel → Prop} {G : Event → Prop}
    (h : Built A p r P a b g s g₁ s₁)
    (hv : v < vaPages) (hx : P v = some x) (hn : o + n ≤ pgSize)
    (hQ : ∀ m, Built A p r (P.write v o (src.bytes s₁.mem) n) a b g s g₁ (s₁.setMem m) →
      (∀ q, q % pgSize = 0 → g₁.own q = .scratch → ∀ i < pgSize, m (q + i) = s₁.mem (q + i)) →
      Q () (s₁.setMem m)) :
    Sat (uvmCopyout r (v * pgSize + o) src n) s₁ G Q E := by
  obtain ⟨q, hq⟩ := h.backed.page v hv x hx
  have hval : Present s₁ r v := ⟨hv, by rw [hq.leaf]; exact mapPte_valid hq.perm⟩
  refine uvmCopyout_page h.space.heap h.space.live hval hn (hq.pa.symm ▸ h.frame_text hq) ?_
  rw [hq.pa]
  refine hQ _ (h.writeFrame hv hx hq hn) fun q' hq' hown i hi => ?_
  refine (inside_splice (Nat.le_add_right q o) (by omega)).other hq.page.1 hq' ?_ hi
  rintro rfl
  exact nomatch hown.symm.trans hq.own

/-! ## Pushing the strings -/

/-- The strings that are placed use the end of the page only. -/
theorem Placed.congr {base : Nat} (h : Placed base data ustack strs)
    (he : ∀ i, pgSize - argBytes strs ≤ i → i < pgSize → m i = data i) :
    Placed base m ustack strs := by
  induction ustack generalizing strs with
  | nil =>
      cases strs with
      | nil => trivial
      | cons str strs => exact h.elim
  | cons a ustack ih =>
      cases strs with
      | nil => exact h.elim
      | cons str strs =>
          obtain ⟨⟨h1, h2, h3⟩, h4⟩ := h
          have hroom := (up16_bounds (str.length + 1)).1
          rw [argBytes_cons] at h1 he
          refine ⟨⟨by rw [argBytes_cons]; exact h1, h2, h3.congr fun i hi => ?_⟩,
            ih h4 fun i h5 h6 => he i (by omega) h6⟩
          rw [window, window, argBytes_cons]
          exact he _ (by omega) (by omega)

/-- One string more, below the others. -/
theorem Placed.cons {base : Nat} (h : Placed base data ustack strs)
    (hfit : argBytes (str :: strs) ≤ pgSize)
    (hstr : CStr m str) :
    Placed base (splice data (pgSize - argBytes (str :: strs)) m (str.length + 1))
      ((base + (pgSize - argBytes (str :: strs))) :: ustack) (str :: strs) := by
  have hroom := (up16_bounds (str.length + 1)).1
  refine ⟨⟨hfit, rfl, hstr.congr fun i hi => window_splice_same _ _ _ _ _ (Nat.lt_succ_of_le hi)⟩,
    h.congr fun i h1 h2 => ?_⟩
  rw [argBytes_cons] at hfit ⊢
  exact splice_out (by omega)

/-- Argument pages are aligned and end below the end of memory. -/
theorem ArgPage.room {page : Nat} (h : ArgPage g s page str) (hw : World A g s) :
    page % pgSize = 0 ∧ page + str.length < physTop := by
  have hpage := (hw.heap.page page (by rw [h.own]; exact Use.noConfusion)).1
  have hlt := (hw.scratch_text h.own).2
  have hshort := h.short
  unfold physTop pgSize at *
  omega

def ArgsKept (g : Ledger) (s s' : Kernel) : Prop :=
  ∀ q, q % pgSize = 0 → g.own q = .scratch → ∀ i < pgSize, s'.mem (q + i) = s.mem (q + i)

theorem ArgPage.keep {page : Nat} (h : ArgPage g s page str) (hp : page % pgSize = 0)
    (hk : ArgsKept g s s') : ArgPage g s' page str :=
  ⟨h.own, h.short, h.str.congr fun i hi => hk page hp h.own i (Nat.lt_of_le_of_lt hi h.short)⟩

theorem pushArgsT_sat {V : Nat} {Q : Option (List Nat × Nat) → Kernel → Prop}
    (h : Built A p r P a b g s g₁ s₁) (hpos : 0 < V)
    (hV : V < vaPages) (hx : P V = some x) (hpages : List.Forall₂ (ArgPage g₁ s₁) pages rest)
    (hplaced : Placed (V * pgSize) x.data ustack strs) (hfit : argBytes strs ≤ pgSize)
    (hG : ∀ i < pages.length, G (.argv i) ∧ G (.ustack i)) (hdrop : ∀ sp n, n ≤ sp → G (.drop sp n))
    (hfail : ¬ argBytes (rest.reverse ++ strs) ≤ pgSize → ∀ P' s', Built A p r P' a b g s g₁ s' →
      P'.Same P → ArgsKept g₁ s₁ s' → Q none s')
    (hQ : argBytes (rest.reverse ++ strs) ≤ pgSize →
      ∀ P' x' ustack' s', Built A p r P' a b g s g₁ s' → P'.Same P →
      P' V = some x' → (∀ w, w ≠ V → P' w = P w) →
      Placed (V * pgSize) x'.data ustack' (rest.reverse ++ strs) → ArgsKept g₁ s₁ s' →
      Q (some (ustack', V * pgSize + (pgSize - argBytes (rest.reverse ++ strs)))) s') :
    Sat (pushArgsT r (V * pgSize) pages ustack
      (V * pgSize + (pgSize - argBytes strs))) s₁ G Q E := by
  induction pages generalizing P x s₁ ustack strs rest with
  | nil =>
      cases hpages
      rw [pushArgsT, sat_pure]
      exact hQ hfit P x ustack s₁ h (.refl P) hx (fun _ _ => rfl) hplaced fun _ _ _ _ _ => rfl
  | cons page pages ih =>
      obtain ⟨str, rest, hpage, htail, rfl⟩ := List.forall₂_cons_left_iff.mp hpages
      obtain ⟨hpa, hroom⟩ := hpage.room h.world
      have hrev : (str :: rest).reverse ++ strs = rest.reverse ++ (str :: strs) := by
        rw [List.reverse_cons, List.append_assoc]
        rfl
      have hmore : argBytes (str :: strs) ≤ argBytes (rest.reverse ++ (str :: strs)) := by
        rw [argBytes_append]
        exact Nat.le_add_left _ _
      have hbound := page_below (Nat.succ_le_of_lt hV)
      have halign := argBytes_aligned strs
      have hshort := hpage.short
      obtain ⟨hno, hyes, hlow⟩ := sp_drop (o := pgSize - argBytes strs) (n := str.length + 1)
        (Nat.mul_mod_left V pgSize) (Nat.le_mul_of_pos_left _ hpos)
        (by rw [Nat.succ_mul] at hbound; exact hbound)
        (by unfold pgSize at *; omega) (Nat.sub_le _ _) hshort
      obtain ⟨hG1, hG2⟩ := hG pages.length (Nat.lt_succ_self _)
      rw [hrev] at hfail hQ
      unfold pushArgsT
      rw [sat_bind, sat_emit, sat_bind, sat_mute]
      refine ⟨hG1, strlen_sat hpage.str hroom ?_⟩
      rw [sat_bind, sat_emit, sat_bind, sat_emit]
      refine ⟨hdrop _ _ hno, hdrop _ _ (Nat.mod_le _ _), ?_⟩
      by_cases hmoreFits : argBytes (str :: strs) ≤ pgSize
      swap
      · have hcons := argBytes_cons str strs
        rw [if_pos (hlow.mpr (by omega)), sat_pure]
        exact hfail (by omega) P s₁ h (.refl P) fun _ _ _ _ _ => rfl
      have hcons := argBytes_cons str strs
      have hle : up16 (str.length + 1) ≤ pgSize - argBytes strs := by omega
      have hsp : pgSize - argBytes strs - up16 (str.length + 1) =
        pgSize - argBytes (str :: strs) := by omega
      rw [if_neg (fun hc => hlow.mp hc hle), hyes hle, hsp, sat_bind, sat_emitAll]
      refine ⟨by simp [hG1], ?_⟩
      have hup := (up16_bounds (str.length + 1)).1
      have hlen32 : u32 (str.length + 1) = str.length + 1 := by
        refine Nat.mod_eq_of_lt ?_
        unfold pgSize at hshort
        omega
      rw [sat_bind, sat_mute, hlen32]
      refine h.copyout hV hx (by omega) fun m hb hkeep => ?_
      rw [sat_bind, sat_emit]
      let y : Page :=
        { x with data := splice x.data (pgSize - argBytes (str :: strs)) (window s₁.mem page) (str.length + 1) }
      have hy : P.write V (pgSize - argBytes (str :: strs)) (window s₁.mem page)
        (str.length + 1) V = some y := by
        rw [Pages.write, if_pos rfl, hx]
        rfl
      have hrest : List.Forall₂ (ArgPage g₁ (s₁.setMem m)) pages rest :=
        List.Forall₂.imp (fun q st hq => hq.keep (hq.room h.world).1 hkeep) htail
      refine ⟨hG2,
        ih hb hy hrest (hplaced.cons hmoreFits hpage.str) hmoreFits
          (fun i hi => hG i (Nat.lt_succ_of_lt hi))
        (fun hbad P' s' hb' hs hk => ?_) fun hall P' x' ustack' s' hb' hs hx' hother hpl hk => ?_⟩
      · exact hfail hbad P' s' hb' ((Pages.write_same _ _ _ _ _).trans hs) fun q hq ho i hi =>
          (hk q hq ho i hi).trans (hkeep q hq ho i hi)
      · refine hQ hall P' x' ustack' s' hb'
          ((Pages.write_same _ _ _ _ _).trans hs) hx' (fun w hw => ?_) hpl
          fun q hq ho i hi => (hk q hq ho i hi).trans (hkeep q hq ho i hi)
        rw [hother w hw, Pages.write, if_neg hw]

end

end WhuOs.Mem
