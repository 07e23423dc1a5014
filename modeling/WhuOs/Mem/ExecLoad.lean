import WhuOs.Mem.ExecSpace
import Mathlib.Data.List.GetD

/-! # The segments of a file

The image that the program headers of a file describe: each accepted header replaces the pages from
`vaddr` on by zeroed ones and fills them with bytes of the file, page by page. The loop over the
headers builds this image, as far as there is memory and the headers and segments can be read.
-/

namespace WhuOs.Mem

open Prog Bytes

def fileImage (l : List UInt8) : Image where
  read off len := (l.drop off).take len
  short off len := by
    rw [List.length_take]
    exact Nat.min_le_left _ _

def headerAt (file : List UInt8) (elf : ElfHdr) (i : Nat) : Option ProgHdr :=
  let data := (fileImage file).read (u32 (elf.phoff + i * progHdrSize)) progHdrSize
  if data.length ≠ progHdrSize then none else some (progHdr (regionOf data))

namespace ProgHdr

variable (ph : ProgHdr)

def Accepted : Prop :=
  ph.filesz ≤ ph.memsz ∧ ph.vaddr ≤ u64 (ph.vaddr + ph.memsz) ∧ ph.vaddr % pgSize = 0

instance : Decidable ph.Accepted := inferInstanceAs (Decidable (_ ∧ _ ∧ _))

def first : Nat := ph.vaddr / pgSize

def stop : Nat := pgRoundUp (u64 (ph.vaddr + ph.memsz))

def pages : Nat := pageSteps ph.first ph.stop

def perm : Nat := flags2perm ph.flags ||| pteU

end ProgHdr

def Pages.Below (V : Nat) (P : Pages) : Prop := ∀ w, V ≤ w → P w = none

/-- Pages `v` to `v + k`, filled with `sz` bytes of the file; the offset in the file has 32 bits. -/
def Pages.load (P : Pages) (file : List UInt8) (v off sz k : Nat) : Pages := fun w =>
  (P w).map fun x =>
    if v ≤ w ∧ w < v + k then
      { x with data := fun o =>
          if o < pgSize ∧ (w - v) * pgSize + o < sz then file.getD (u32 (off + (w - v) * pgSize) + o) 0 else x.data o }
    else x

def Pages.place (file : List UInt8) (P : Pages) (ph : ProgHdr) : Pages :=
  (P.clear ph.perm ph.first ph.pages).load file ph.first (u32 ph.off) (u32 ph.filesz) ph.pages

/-- The headers that are loaded, from number `i` on: up to the first one that can not be read or is
refused. -/
def planned (file : List UInt8) (elf : ElfHdr) : Nat → Nat → List ProgHdr
  | 0, _ => []
  | n + 1, i =>
      match headerAt file elf i with
      | none => []
      | some ph =>
        if ph.type ≠ elfProgLoad then planned file elf n (i + 1)
        else if ph.Accepted then ph :: planned file elf n (i + 1)
        else []

def segmentPages (l : List ProgHdr) : Nat := (l.map ProgHdr.pages).sum

/-- What `loadseg` reads for a segment is in the file. -/
structure ProgHdr.Read (file : List UInt8) (ph : ProgHdr) : Prop where
  size : ph.filesz < 2 ^ 32
  inside : ∀ j, j * pgSize < ph.filesz →
    u32 (u32 ph.off + j * pgSize) + min pgSize (ph.filesz - j * pgSize) ≤ file.length

def ProgHdr.page (file : List UInt8) (ph : ProgHdr) (w : Nat) : Page where
  perm := ph.perm
  data o := if o < pgSize ∧ (w - ph.first) * pgSize + o < u32 ph.filesz then
    file.getD (u32 (u32 ph.off + (w - ph.first) * pgSize) + o) 0 else 0

def ProgHdr.Has (ph : ProgHdr) (w : Nat) : Prop := ph.first ≤ w ∧ w < ph.first + ph.pages

/-- The headers from number `i` on are in the file, and no segment is refused. -/
def Complete (file : List UInt8) (elf : ElfHdr) (n i : Nat) : Prop :=
  ∀ j, i ≤ j → j < i + n →
    ∃ ph, headerAt file elf j = some ph ∧ (ph.type = elfProgLoad → ph.Accepted)

section

variable {A : ProcId → Prop} {g g' g₁ g₂ : Ledger} {s s' s₁ s₂ : Kernel} {p : ProcId}
  {r v w n q a b i k o off sz : Nat} {P : Pages}
  {x : Page} {file : List UInt8} {elf : ElfHdr} {ph : ProgHdr} {G : Event → Prop} {E : Panic → Prop}

/-! ## The image of a file -/

theorem read_length (file : List UInt8) (off len : Nat) :
    ((fileImage file).read off len).length = min len (file.length - off) := by
  change ((file.drop off).take len).length = _
  rw [List.length_take, List.length_drop]

theorem read_get (h : o < ((fileImage file).read off n).length) :
    ((fileImage file).read off n).getD o 0 = file.getD (off + o) 0 := by
  change ((file.drop off).take n).getD o 0 = _
  have hlen := read_length file off n
  rw [List.getD_eq_getElem?_getD, List.getD_eq_getElem?_getD,
    List.getElem?_take_of_lt (by omega), List.getElem?_drop]

theorem Pages.load_zero (P : Pages) (file : List UInt8) (v off sz : Nat) : P.load file v off sz 0 = P := by
  funext w
  unfold Pages.load
  cases P w with
  | none => rfl
  | some x => rw [Option.map_some, if_neg (by omega)]

theorem Pages.load_perm (P : Pages) (file : List UInt8) (v off sz k : Nat) :
    (P.load file v off sz k).Same P := by
  intro w
  unfold Pages.load
  cases P w with
  | none => rfl
  | some x =>
      rw [Option.map_some]
      split <;> rfl

/-- One page more is read from the file. -/
theorem Pages.load_succ {len : Nat} (hk : k * pgSize < sz)
    (hlen : len = min pgSize (sz - k * pgSize))
    (hread : ((fileImage file).read (u32 (off + k * pgSize)) len).length = len) :
    (P.load file v off sz k).write (v + k) 0 (regionOf ((fileImage file).read (u32 (off + k * pgSize)) len)) len =
      P.load file v off sz (k + 1) := by
  funext w
  unfold Pages.write Pages.load
  by_cases hw : w = v + k
  · subst hw
    rw [if_pos rfl]
    cases P (v + k) with
    | none => rfl
    | some x =>
        rw [Option.map_some, Option.map_some, Option.map_some, if_neg (by omega), if_pos (by omega), Nat.add_sub_cancel_left]
        congr 2
        funext o
        by_cases ho : o < len
        · rw [splice_in (Nat.zero_le _) (by omega), if_pos (by omega), Nat.sub_zero]
          exact read_get (by omega)
        · rw [splice_out (by omega), if_neg (by omega)]
  · rw [if_neg hw]
    cases P w with
    | none => rfl
    | some x =>
        rw [Option.map_some, Option.map_some]
        by_cases hin : v ≤ w ∧ w < v + k
        · rw [if_pos hin, if_pos (by omega)]
        · rw [if_neg hin, if_neg (by omega)]

/-! ## The pages of the segments -/

theorem Pages.place_in (h : ph.Has w) : P.place file ph w = some (ph.page file w) := by
  unfold Pages.place Pages.load Pages.clear ProgHdr.page
  obtain ⟨h1, h2⟩ := h
  rw [if_pos ⟨h1, h2⟩, Option.map_some, if_pos ⟨h1, h2⟩]

theorem Pages.place_out (h : ¬ ph.Has w) : P.place file ph w = P w := by
  unfold Pages.place Pages.load Pages.clear
  unfold ProgHdr.Has at h
  rw [if_neg h]
  cases P w with
  | none => rfl
  | some x => rw [Option.map_some, if_neg h]

theorem foldl_place_out {l : List ProgHdr} (h : ∀ ph ∈ l, ¬ ph.Has w) :
    l.foldl (Pages.place file) P w = P w := by
  induction l generalizing P with
  | nil => rfl
  | cons ph l ih =>
      rw [List.foldl_cons, ih fun q hq => h q (List.mem_cons_of_mem _ hq)]
      exact Pages.place_out (h ph List.mem_cons_self)

/-- Disjoint segments do not disturb each other. -/
theorem foldl_place_in {l : List ProgHdr} (hdisj : l.Pairwise fun x y => ∀ w, ¬ (x.Has w ∧ y.Has w))
    (hph : ph ∈ l) (hw : ph.Has w) :
    l.foldl (Pages.place file) P w = some (ph.page file w) := by
  induction l generalizing P with
  | nil => cases hph
  | cons x l ih =>
      obtain ⟨hx, hl⟩ := List.pairwise_cons.mp hdisj
      rw [List.foldl_cons]
      rcases List.mem_cons.mp hph with rfl | hmem
      · rw [foldl_place_out fun q hq hc => hx q hq w ⟨hw, hc⟩]
        exact Pages.place_in hw
      · exact ih hl hmem

/-! ## `loadseg` -/

/-- The pages of the range are in the image: they are filled, or the file is too short. -/
theorem loadsegLoop_sat {Q : Bool → Kernel → Prop} (fuel : Nat)
    (h : Built A p r (P.load file v off sz k) a b g s g₁ s₁)
    (hsz : sz + pgSize ≤ 2 ^ 32) (hk : k * pgSize < sz + pgSize)
    (hfuel : sz + pgSize ≤ (k + fuel) * pgSize)
    (hpages : ∀ j, k ≤ j → j * pgSize < sz → v + j < vaPages ∧ ∃ x, P (v + j) = some x)
    (hfail : (∃ j, k ≤ j ∧ j * pgSize < sz ∧
      file.length < u32 (off + j * pgSize) + min pgSize (sz - j * pgSize)) →
      ∀ P' s', P'.Same P → Built A p r P' a b g s g₁ s' → Q false s')
    (hQ : ∀ n s', sz ≤ n * pgSize → n * pgSize < sz + pgSize →
      (∀ j, k ≤ j → j * pgSize < sz → u32 (off + j * pgSize) + min pgSize (sz - j * pgSize) ≤ file.length) →
      Built A p r (P.load file v off sz n) a b g s g₁ s' → Q true s') :
    Sat (loadsegLoop (fileImage file) r (v * pgSize) off sz fuel (k * pgSize)) s₁ G Q E := by
  induction fuel generalizing k s₁ with
  | zero =>
      rw [Nat.add_zero] at hfuel
      exact absurd hfuel (Nat.not_le.mpr hk)
  | succ fuel ih =>
      unfold loadsegLoop
      by_cases hlt : k * pgSize < sz
      swap
      · rw [if_neg hlt, sat_pure]
        refine hQ k s₁ (Nat.le_of_not_lt hlt) hk (fun j hkj hj => absurd hj ?_) h
        have hmul := Nat.mul_le_mul_right pgSize hkj
        omega
      obtain ⟨hv, x, hx⟩ := hpages k (Nat.le_refl k) hlt
      have hxk : P.load file v off sz k (v + k) = some x := by
        unfold Pages.load
        rw [hx, Option.map_some, if_neg (by omega)]
      obtain ⟨q, hq⟩ := h.backed.page (v + k) hv x hxk
      have hpresent : Present s₁ r (v + k) := ⟨hv, by rw [hq.leaf]; exact mapPte_valid hq.perm⟩
      have haddr : u64 (v * pgSize + k * pgSize) = (v + k) * pgSize := by
        rw [← Nat.add_mul]
        exact u64_of_lt (page_below (Nat.le_of_lt hv))
      have hnext : u32 (k * pgSize + pgSize) = (k + 1) * pgSize := by
        rw [Nat.succ_mul]
        exact Nat.mod_eq_of_lt (by omega)
      have hlen : (if sz - k * pgSize < pgSize then sz - k * pgSize else pgSize) =
        min pgSize (sz - k * pgSize) := by
        split <;> omega
      rw [if_pos hlt, haddr, hlen, hnext]
      refine segmentEntry_sat h.space.heap h.space.live (fun hc => absurd hv hc)
        (fun hc => absurd hpresent hc) fun hp => ?_
      dsimp only
      rw [sat_bind]
      have hshort := (fileImage file).short (u32 (off + k * pgSize)) (min pgSize (sz - k * pgSize))
      refine storeSegment_sat h hp (Nat.le_trans hshort (Nat.min_le_left _ _))
        (fun hc => absurd (hxk.symm.trans hc) (Option.some_ne_none x)) fun P' s' hs hw hb => ?_
      by_cases hread :
        ((fileImage file).read (u32 (off + k * pgSize)) (min pgSize (sz - k * pgSize))).length =
        min pgSize (sz - k * pgSize)
      swap
      · rw [if_pos hread, sat_pure]
        have hl := read_length file (u32 (off + k * pgSize)) (min pgSize (sz - k * pgSize))
        exact hfail ⟨k, Nat.le_refl k, hlt, by omega⟩ P' s'
          ((Pages.load_perm _ _ _ _ _ _).trans hs) hb
      rw [if_neg (by simp [hread])]
      rw [hw x hxk, hread, Pages.load_succ hlt rfl hread] at hb
      refine ih hb (by rw [Nat.succ_mul]; omega)
        (by rw [show k + 1 + fuel = k + (fuel + 1) by omega]; exact hfuel)
        (fun j hj => hpages j (by omega))
        (fun hbad => hfail (hbad.imp fun j hj => ⟨by omega, hj.2⟩))
        fun n s'' h1 h2 h3 => hQ n s'' h1 h2 fun j hkj hj => ?_
      rcases Nat.lt_or_eq_of_le hkj with hlt' | rfl
      · exact h3 j hlt' hj
      · have hl := read_length file (u32 (off + k * pgSize)) (min pgSize (sz - k * pgSize))
        have hpg : 0 < pgSize := by decide
        omega

/-- The bytes of the segment end before its pages do. -/
theorem Pages.load_enough (hn : sz ≤ n * pgSize) (hle : n ≤ k) (P : Pages)
    (file : List UInt8) (v off : Nat) :
    P.load file v off sz n = P.load file v off sz k := by
  funext w
  unfold Pages.load
  cases P w with
  | none => rfl
  | some x =>
      rw [Option.map_some, Option.map_some]
      by_cases hin : v ≤ w ∧ w < v + n
      · rw [if_pos hin, if_pos (by omega)]
      · rw [if_neg hin]
        by_cases hk : v ≤ w ∧ w < v + k
        · have hmul : n * pgSize ≤ (w - v) * pgSize := Nat.mul_le_mul_right _ (by omega)
          have hdata : (fun o => if o < pgSize ∧ (w - v) * pgSize + o < sz then
              file.getD (u32 (off + (w - v) * pgSize) + o) 0 else x.data o) = x.data := by
            funext o
            rw [if_neg (by omega)]
          rw [if_pos hk, hdata]
        · rw [if_neg hk]

/-! ## The segments -/

/-- There are fewer pages than addresses in 32 bits. -/
theorem Heap.free_bound (h : Heap g s) (k : Bool) : (g.free k).length * pgSize ≤ physTop := by
  have hpage := (h.pools.pool k).page
  have hbound : ∀ q ∈ g.free k, q < physTop := fun q hq => by
    have hown := (h.free_iff q k).mp hq
    have hman := (h.home hown).1
    exact hman.2
  have hnd : ((g.free k).map (· / pgSize)).Nodup := by
    refine (List.nodup_map_iff_inj_on (h.pools.nodup k)).mpr fun a ha b hb hab => ?_
    have h1 := (hpage a ha).1
    have h2 := (hpage b hb).1
    unfold pgSize at *
    omega
  have hlen := length_lt_of_nodup hnd (n := physTop / pgSize) fun q hq => by
    obtain ⟨c, hc, rfl⟩ := List.mem_map.mp hq
    have hlt := hbound c hc
    unfold physTop pgSize at *
    omega
  rw [List.length_map] at hlen
  unfold physTop pgSize at *
  omega

theorem ProgHdr.Accepted.range {V : Nat} (h : ph.Accepted) (hV : V ≤ vaPages)
    (htame : ph.vaddr + ph.memsz ≤ V * pgSize) :
    ph.vaddr = ph.first * pgSize ∧ ph.stop = (ph.first + ph.pages) * pgSize ∧
    ph.first + ph.pages ≤ V ∧
      ph.memsz ≤ ph.pages * pgSize ∧ ph.pages * pgSize < ph.memsz + pgSize := by
  obtain ⟨-, -, hal⟩ := h
  have hbound := page_below hV
  have hdiv : ph.vaddr = ph.first * pgSize := (Nat.div_mul_cancel (Nat.dvd_of_mod_eq_zero hal)).symm
  have hstop : ph.stop = (ph.first + (ph.memsz + (pgSize - 1)) / pgSize) * pgSize := by
    unfold ProgHdr.stop pgRoundUp
    rw [u64_of_lt (Nat.lt_of_le_of_lt htame hbound)]
    have hV' : V ≤ 2 ^ 26 := hV
    unfold u64 pgSize at *
    omega
  have hpages : ph.pages = (ph.memsz + (pgSize - 1)) / pgSize := by
    unfold ProgHdr.pages pageSteps
    rw [hstop, Nat.mul_div_cancel _ (by decide), Nat.add_sub_cancel_left]
  rw [← hpages] at hstop
  refine ⟨hdiv, hstop, ?_, ?_⟩
  · rw [hpages]
    unfold pgSize at *
    omega
  · rw [hpages]
    unfold pgSize
    omega

theorem Pages.Below.same {V : Nat} {P' : Pages} (h : P.Below V) (hs : P'.Same P) : P'.Below V := by
  intro w hw
  have hmap := hs w
  rw [h w hw] at hmap
  exact Option.map_eq_none_iff.mp hmap

theorem Pages.Below.clear {V perm : Nat} (h : P.Below V) (hv : v + n ≤ V) :
    (P.clear perm v n).Below V := by
  intro w hw
  unfold Pages.clear
  rw [if_neg (by omega)]
  exact h w hw

theorem Pages.Below.place {V : Nat} (h : P.Below V) (hv : ph.first + ph.pages ≤ V) :
    (P.place file ph).Below V :=
  (h.clear hv).same (Pages.load_perm _ _ _ _ _ _)

/-- One segment. -/
theorem segment_sat {V : Nat} {Q : Option Nat → Kernel → Prop} {m : MemM (Option Nat)}
    (h : Built A p r P a b g s g₁ s₁)
    (hacc : ph.Accepted) (hV : V ≤ vaPages)
    (htame : ph.vaddr + ph.memsz ≤ V * pgSize) (hP : P.Below V)
    (hE : ¬ 2 * min ph.pages (g₁.free false).length ≤ (g₁.free true).length → ∀ e, E e)
    (hnone : ¬ (ph.pages ≤ (g₁.free false).length ∧ ph.Read file) →
      ∀ P' a' b' g' s', P'.Below V → Built A p r P' a' b' g s g' s' → Q none s')
    (hQ : ∀ g' s', ph.Read file →
      Built A p r (P.place file ph) (a + ph.pages) (b + 2 * ph.pages) g s g' s' →
      (g₁.free false).length = (g'.free false).length + ph.pages →
      (g₁.free true).length ≤ (g'.free true).length + 2 * ph.pages →
      Sat m s' G Q E) :
    Sat (do
      if !(← segmentLoop r ph.stop ph.perm (vaPages + 1) (pgRoundDown ph.vaddr)) then return none
      if !(← loadseg (fileImage file) r ph.vaddr (u32 ph.off) (u32 ph.filesz)) then return none
      m) s₁ G Q E := by
  obtain ⟨hva, hstop, hrange, hmem, -⟩ := hacc.range hV htame
  have hdown : pgRoundDown ph.vaddr = ph.first * pgSize := rfl
  rw [hdown, sat_bind]
  refine segmentLoop_sat _ h (flags2perm_lt _) (n := ph.pages)
    (pageSteps_iff (by rw [hstop]; exact Nat.mul_mod_left _ _) _)
    (fun hbad => hE fun hc => hbad ⟨by omega, by omega, hc⟩) (fun k hk g' s' hb hdry => ?_)
    fun g₂ s₂ hb hu hk => ?_
  · rw [if_pos (by decide), sat_pure]
    exact hnone (fun hc => by omega) _ _ _ _ _ (hP.clear (by omega)) hb
  rw [if_neg (by decide), sat_bind]
  have hfew : ph.pages * pgSize ≤ physTop := by
    refine Nat.le_trans (Nat.mul_le_mul_right _ ?_) (h.space.heap.free_bound false)
    omega
  have hphys : physTop + pgSize ≤ 2 ^ 32 := by decide
  have hall : vaPages * pgSize = 2 ^ 38 := by decide
  have hpos : 0 < pgSize := by decide
  have hle := hacc.1
  have hfile : u32 ph.filesz = ph.filesz := Nat.mod_eq_of_lt (by omega)
  rw [hfile]
  unfold loadseg
  rw [hva]
  have hnow := hb
  rw [← Pages.load_zero (P.clear ph.perm ph.first ph.pages) file ph.first
    (u32 ph.off) ph.filesz] at hnow
  rw [show (0 : Nat) = 0 * pgSize from rfl]
  refine loadsegLoop_sat _ hnow (by omega) (by omega) ?_ (fun j _ hj => ?_)
    (fun hshort P' s' hs hb' => ?_)
    fun n s' h1 h2 h3 hb' => ?_
  · rw [Nat.zero_add, Nat.succ_mul, hall]
    omega
  · have hjp : j < ph.pages := by
      by_contra hc
      have hmul := Nat.mul_le_mul_right pgSize (Nat.le_of_not_lt hc)
      omega
    refine ⟨by omega, ⟨ph.perm, fun _ => 0⟩, ?_⟩
    unfold Pages.clear
    rw [if_pos (by omega)]
  · obtain ⟨j, -, hj, hlt⟩ := hshort
    rw [if_pos (by decide), sat_pure]
    exact hnone (fun hc => absurd (hc.2.inside j hj) (Nat.not_le.mpr hlt)) _ _ _ _ _
      ((hP.clear hrange).same hs) hb'
  · rw [if_neg (by decide)]
    have hn : n ≤ ph.pages := by
      by_contra hc
      have hmul := Nat.mul_le_mul_right pgSize (Nat.succ_le_of_lt (Nat.lt_of_not_le hc))
      rw [Nat.succ_mul] at hmul
      omega
    have hread : ph.Read file := ⟨by omega, fun j hj => h3 j (Nat.zero_le j) hj⟩
    rw [Pages.load_enough h1 hn, ← hfile] at hb'
    exact hQ _ s' hread hb' hu hk

def endPage (V : Nat) (l : List ProgHdr) : Nat := l.foldl (fun _ ph => ph.first + ph.pages) V

theorem endPage_le {V N : Nat} {l : List ProgHdr} (hV : V ≤ N)
    (h : ∀ ph ∈ l, ph.first + ph.pages ≤ N) : endPage V l ≤ N := by
  induction l generalizing V with
  | nil => exact hV
  | cons ph l ih => exact ih (h ph List.mem_cons_self) fun q hq => h q (List.mem_cons_of_mem _ hq)

theorem segmentPages_cons (ph : ProgHdr) (l : List ProgHdr) :
    segmentPages (ph :: l) = ph.pages + segmentPages l := rfl

/-- The loop over the program headers builds the image that they describe. -/
theorem segmentsLoop_sat {V N : Nat} {Q : Option Nat → Kernel → Prop} (n : Nat)
    (h : Built A p r P a b g s g₁ s₁) (hN : N ≤ vaPages)
    (htame : ∀ ph ∈ planned file elf n i, ph.vaddr + ph.memsz ≤ N * pgSize) (hP : P.Below N)
    (hE : ¬ 2 * min (segmentPages (planned file elf n i)) (g₁.free false).length ≤
      (g₁.free true).length → ∀ e, E e)
    (hnone : ¬ (Complete file elf n i ∧ (∀ ph ∈ planned file elf n i, ph.Read file) ∧
        segmentPages (planned file elf n i) ≤ (g₁.free false).length) →
      ∀ P' a' b' g' s', P'.Below N → Built A p r P' a' b' g s g' s' → Q none s')
    (hQ : ∀ a' b' g' s', Complete file elf n i →
      (∀ ph ∈ planned file elf n i, ph.Accepted ∧ ph.Read file) →
      Built A p r ((planned file elf n i).foldl (Pages.place file) P) a' b' g s g' s' →
      (g₁.free false).length = (g'.free false).length + segmentPages (planned file elf n i) →
      (g₁.free true).length ≤ (g'.free true).length + 2 * segmentPages (planned file elf n i) →
      Q (some (endPage V (planned file elf n i) * pgSize)) s') :
    Sat (segmentsLoop (fileImage file) r elf n i (V * pgSize)) s₁ G Q E := by
  induction n generalizing P a b g₁ s₁ i V with
  | zero =>
      rw [segmentsLoop, sat_pure]
      refine hQ a b g₁ s₁ (fun j h1 h2 => ?_) (fun ph hph => absurd hph List.not_mem_nil) h rfl
        (Nat.le_add_right _ _)
      omega
  | succ n ih =>
      unfold segmentsLoop
      dsimp only
      have hread := rfl (a := headerAt file elf i)
      conv at hread => rhs; unfold headerAt
      dsimp only at hread
      split
      · next hshort =>
          rw [sat_pure]
          refine hnone (fun hc => ?_) P a b g₁ s₁ hP h
          obtain ⟨ph, hph, -⟩ := hc.1 i (Nat.le_refl i) (by omega)
          rw [if_pos hshort] at hread
          rw [hread] at hph
          cases hph
      next hlong =>
      rw [if_neg hlong] at hread
      generalize progHdr
        (regionOf ((fileImage file).read (u32 (elf.phoff + i * progHdrSize)) progHdrSize)) =
        ph at hread ⊢
      have hmore :
          Complete file elf (n + 1) i ↔
          Complete file elf n (i + 1) ∧ (ph.type = elfProgLoad → ph.Accepted) := by
        constructor
        · intro hc
          obtain ⟨q, hq, hacc⟩ := hc i (Nat.le_refl i) (by omega)
          rw [hread] at hq
          obtain rfl := Option.some.inj hq
          exact ⟨fun j h1 h2 => hc j (by omega) (by omega), hacc⟩
        · rintro ⟨hc, hacc⟩ j h1 h2
          rcases Nat.lt_or_eq_of_le h1 with hlt | rfl
          · exact hc j hlt (by omega)
          · exact ⟨ph, hread, hacc⟩
      rw [hmore] at hnone hQ
      unfold planned at htame hE hQ hnone
      rw [hread] at htame hE hQ hnone
      dsimp only at htame hE hQ hnone
      split
      · next hother =>
          rw [if_pos hother] at htame hE hQ hnone
          exact ih h htame hP hE (fun hno => hnone fun hc => hno ⟨hc.1.1, hc.2⟩)
            fun a' b' g' s' hc =>
            hQ a' b' g' s' ⟨hc, fun ht => absurd ht hother⟩
      next hload =>
      rw [if_neg hload] at htame hE hQ hnone
      have hload := Decidable.not_not.mp hload
      have hrefused : ¬ ph.Accepted → Sat (pure none : MemM (Option Nat)) s₁ G Q E := fun hno =>
        (sat_pure none).mpr (hnone (fun hc => hno (hc.1.2 hload)) P a b g₁ s₁ hP h)
      split
      · next h1 => exact hrefused fun hc => Nat.not_le.mpr h1 hc.1
      split
      · next h2 => exact hrefused fun hc => Nat.not_le.mpr h2 hc.2.1
      split
      · next h3 => exact hrefused fun hc => h3 hc.2.2
      next h1 h2 h3 =>
      have hacc : ph.Accepted := ⟨Nat.le_of_not_lt h1, Nat.le_of_not_lt h2, Decidable.not_not.mp h3⟩
      rw [if_pos hacc] at htame hE hQ hnone
      rw [segmentPages_cons] at hE hQ hnone
      have hrange := (hacc.range hN (htame ph List.mem_cons_self)).2
      refine segment_sat h hacc hN (htame ph List.mem_cons_self) hP (fun hbad => hE (by omega))
        (fun hno => hnone fun hc => hno ⟨by omega, hc.2.1 ph List.mem_cons_self⟩)
        fun g₂ s₂ hr hb hu hk => ?_
      change Sat (segmentsLoop (fileImage file) r elf n (i + 1) ph.stop) s₂ G Q E
      rw [hrange.1]
      refine ih hb (fun q hq => htame q (List.mem_cons_of_mem _ hq)) (hP.place hrange.2.1)
        (fun hbad => hE (by omega))
        (fun hno => hnone fun hc =>
          hno ⟨hc.1.1, fun q hq => hc.2.1 q (List.mem_cons_of_mem _ hq), by omega⟩)
        fun a' b' g' s' hc hall hb' hu' hk' => ?_
      refine hQ a' b' g' s' ⟨hc, fun _ => hacc⟩ (fun q hq => ?_) hb' (by omega) (by omega)
      rcases List.mem_cons.mp hq with rfl | hq
      · exact ⟨hacc, hr⟩
      · exact hall q hq

end

end WhuOs.Mem
