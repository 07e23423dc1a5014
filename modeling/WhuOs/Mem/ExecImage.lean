import WhuOs.Mem.ExecBounds

/-! # The image of an executable

A call of `sys_exec` that succeeds gives the process the segments of the file, if their offsets have
32 bits and the stack meets none of them. The stack goes behind the segment that is listed last,
wherever the others are.
-/

namespace WhuOs.Mem

open Prog Bytes

def fileElf (file : List UInt8) : ElfHdr := elfHdr (regionOf ((fileImage file).read 0 elfHdrSize))

/-- A file with its program headers inside. -/
structure Executable where
  file : List UInt8
  short : file.length < 2 ^ 32
  table : (fileElf file).phoff + (fileElf file).phnum * progHdrSize ≤ file.length

namespace Executable

variable (x : Executable)

def header (i : Nat) : ProgHdr :=
  progHdr (regionOf ((x.file.drop ((fileElf x.file).phoff + i * progHdrSize)).take progHdrSize))

def segments : List ProgHdr :=
  ((List.range (fileElf x.file).phnum).map x.header).filter fun ph => ph.type = elfProgLoad

/-- The number of the page behind the segment that is listed last. -/
def top : Nat :=
  match x.segments.getLast? with
  | none => 0
  | some ph => (ph.vaddr + ph.memsz + (pgSize - 1)) / pgSize

end Executable

namespace ProgHdr

variable (ph : ProgHdr)

def Covers (w : Nat) : Prop := ph.vaddr < (w + 1) * pgSize ∧ w * pgSize < ph.vaddr + ph.memsz

/-- The segment is in memory as the file describes it. -/
structure InMemory (file : List UInt8) (m : Bytes) (r : Nat) : Prop where
  byte : ∀ k < ph.filesz, file[ph.off + k]? = some (userWindow m r ph.vaddr k)
  zero : ∀ k, ph.filesz ≤ k → k < pgRoundUp ph.memsz → userWindow m r ph.vaddr k = 0
  perm : ∀ w, ph.Covers w → pteFlags (leaf m r w) = flags2perm ph.flags ||| pteU ||| pteV

end ProgHdr

/-- The memory of process `p` matches the file. -/
structure Executable.Loaded (x : Executable) (p : ProcId) (s : Kernel) : Prop where
  segment : ∀ ph ∈ x.segments, ph.InMemory x.file s.mem (s.procs p).pgtbl
  heap : ∀ ph ∈ x.segments, ¬ ph.Covers ((s.procs p).heapTop / pgSize)
  stack : ∀ ph ∈ x.segments, ∀ k < (s.procs p).ustackPages,
    ¬ ph.Covers ((s.procs p).ustackBase / pgSize + k)

/-- The offsets of the segments fit in 32 bits, and the two pages behind the one listed last belong
to no segment. -/
structure Executable.Fits (x : Executable) : Prop where
  offset : ∀ ph ∈ x.segments, 0 < ph.filesz → ph.off < 2 ^ 32
  stack : ∀ ph ∈ x.segments, ¬ ph.Covers x.top ∧ ¬ ph.Covers (x.top + 1)

/-- The process runs the image of the file, with the stack behind it. -/
def ExecImage (A : ProcId → Prop) (p : ProcId) (file : List UInt8) (s : Kernel) : Prop :=
  ∃ r P V entry sp g, V = endPage 0 (planned file (fileElf file) (fileElf file).phnum 0) ∧
    Complete file (fileElf file) (fileElf file).phnum 0 ∧
    (∀ ph ∈ planned file (fileElf file) (fileElf file).phnum 0, ph.Accepted ∧ ph.Read file) ∧
    (∀ w, w ≠ V → w ≠ V + 1 →
      P w = (planned file (fileElf file) (fileElf file).phnum 0).foldl
        (Pages.place file) (fun _ => none) w) ∧
    Running A p r P V entry sp g s

/-- Why a call fails that read the path `path` and has the arguments `strs`, with `u` user pages and
`k` kernel pages free. -/
def ExecReason (lookup : List UInt8 → Option Image) (path file : List UInt8)
    (strs : List (List UInt8)) (u k : Nat) : ExecStop → Prop
  | .page => u < strs.length
  | .file => lookup path = none
  | .header => ¬ (elfHdrSize ≤ file.length ∧ (fileElf file).magic = elfMagic)
  | .table => u < strs.length + 1 ∨ k < 2
  | .segment =>
      ¬ (Complete file (fileElf file) (fileElf file).phnum 0 ∧
        (∀ ph ∈ planned file (fileElf file) (fileElf file).phnum 0, ph.Read file) ∧
        strs.length + 1 + segmentPages (planned file (fileElf file) (fileElf file).phnum 0) ≤ u)
  | .stack => u < strs.length + 1 + segmentPages
      (planned file (fileElf file) (fileElf file).phnum 0) + 2
  | .argument | .pointers => ¬ blockBytes strs ≤ pgSize

def ExecOutcome (A : ProcId → Prop) (p : ProcId) (lookup : List UInt8 → Option Image)
    (path file : List UInt8)
    (strs : List (List UInt8)) (u k : Nat) : Except ExecStop Nat → Kernel → Prop
  | .ok argc, s => argc = strs.length ∧ ExecImage A p file s
  | .error why, s => ExecReason lookup path file strs u k why ∧ ∃ g, World A g s

section

variable {A : ProcId → Prop} {g g' g₁ g₂ : Ledger} {s s' s₁ s₂ : Kernel} {p : ProcId}
  {r v w n q a b i j k o V entry sp : Nat} {P : Pages}
  {x : Executable} {file : List UInt8} {elf : ElfHdr} {ph : ProgHdr} {pages : List Nat}
  {strs : List (List UInt8)}

/-! ## The headers of an executable -/

theorem Executable.headerAt_eq (x : Executable) (hi : i < (fileElf x.file).phnum) :
    headerAt x.file (fileElf x.file) i = some (x.header i) := by
  have hmul : (i + 1) * progHdrSize ≤ (fileElf x.file).phnum * progHdrSize :=
    Nat.mul_le_mul_right _ hi
  have htable := x.table
  have hshort := x.short
  rw [Nat.succ_mul] at hmul
  have hoff : u32 ((fileElf x.file).phoff + i * progHdrSize) =
    (fileElf x.file).phoff + i * progHdrSize :=
    Nat.mod_eq_of_lt (by unfold progHdrSize at *; omega)
  have hlen := read_length x.file ((fileElf x.file).phoff + i * progHdrSize) progHdrSize
  unfold headerAt
  dsimp only
  rw [hoff, if_neg (by omega)]
  rfl

/-- The headers that are loaded are the segments from number `i` on, if none is refused. -/
theorem Executable.planned_eq (x : Executable) (hn : i + n ≤ (fileElf x.file).phnum)
    (hc : Complete x.file (fileElf x.file) n i) :
    planned x.file (fileElf x.file) n i = ((List.range' i n).map x.header).filter fun ph =>
      ph.type = elfProgLoad := by
  induction n generalizing i with
  | zero => rfl
  | succ n ih =>
      have hrest := ih (i := i + 1) (by omega) fun j h1 h2 => hc j (by omega) (by omega)
      obtain ⟨ph, hph, hacc⟩ := hc i (Nat.le_refl i) (by omega)
      have hhead := x.headerAt_eq (i := i) (by omega)
      rw [hhead] at hph
      obtain rfl := Option.some.inj hph
      unfold planned
      rw [hhead, List.range'_succ, List.map_cons]
      dsimp only
      by_cases hload : (x.header i).type = elfProgLoad
      · rw [if_neg (fun hne => hne hload), if_pos (hacc hload),
          List.filter_cons_of_pos (by simpa using hload), hrest]
      · rw [if_pos hload, List.filter_cons_of_neg (by simpa using hload), hrest]

/-- The headers that are loaded are segments in any case. -/
theorem Executable.planned_mem (x : Executable) (hn : i + n ≤ (fileElf x.file).phnum) :
    ∀ ph ∈ planned x.file (fileElf x.file) n i, ph ∈ x.segments := by
  induction n generalizing i with
  | zero =>
      intro ph hph
      exact absurd hph List.not_mem_nil
  | succ n ih =>
      have hrest := ih (i := i + 1) (by omega)
      unfold planned
      rw [x.headerAt_eq (by omega)]
      dsimp only
      split
      · exact hrest
      next hload =>
      split
      swap
      · intro ph hph
        exact absurd hph List.not_mem_nil
      intro ph hph
      rcases List.mem_cons.mp hph with rfl | hmem
      · refine List.mem_filter.mpr ⟨List.mem_map.mpr ⟨i, List.mem_range.mpr (by omega), rfl⟩, ?_⟩
        simpa using hload
      · exact hrest ph hmem

theorem Executable.complete (x : Executable) (hacc : ∀ ph ∈ x.segments, ph.Accepted) :
    Complete x.file (fileElf x.file) (fileElf x.file).phnum 0 := by
  intro j _ hj
  have hj : j < (fileElf x.file).phnum := by omega
  refine ⟨x.header j, x.headerAt_eq hj, fun hload =>
    hacc _ (List.mem_filter.mpr ⟨?_, by simpa using hload⟩)⟩
  exact List.mem_map.mpr ⟨j, List.mem_range.mpr hj, rfl⟩

/-! ## The call -/

theorem execLoadT_image {lookup : List UInt8 → Option Image} {path : List UInt8}
    (hargs : ArgsHeld A p strs pages g s g₁ s₁) (h : Built A p r (fun _ => none) 1 2 g₁ s₁ g₂ s₂)
    (ha : A p)
    (hlen : strs.length ≤ elfMaxArgs) (hover : strs.length = elfMaxArgs → E .ustackOverrun)
    (hN : n + 2 ≤ vaPages)
    (htame : ∀ ph ∈ planned file (fileElf file) (fileElf file).phnum 0,
      ph.vaddr + ph.memsz ≤ n * pgSize)
    (hE : ¬ 2 + 2 * min (segmentPages (planned file (fileElf file) (fileElf file).phnum 0) + 2)
      (g.free false).length ≤
      (g.free true).length → ∀ e, E e) :
    Sat (execLoadT p (fileImage file) (fileElf file) pages r) s₂ (fun _ => True)
      (ExecOutcome A p lookup path file strs (g.free false).length (g.free true).length) E := by
  have hcount : pages.length = strs.length := hargs.held.length_eq
  have hu₁ := hargs.user
  have hu₂ := h.user
  have hk₂ := h.used
  rw [hargs.kernel] at hk₂
  -- the label `bad`, from any state in which the table is built
  have hbad : ∀ ip why P' a' b' g' s',
    ExecReason lookup path file strs (g.free false).length (g.free true).length why →
      Built A p r P' a' b' g₁ s₁ g' s' → Sat (execBadT ip r pages why) s' (fun _ => True)
        (ExecOutcome A p lookup path file strs (g.free false).length (g.free true).length) E := by
    intro ip why P' a' b' g' s' hwhy hb
    refine hb.prepared.bad (fun q hq => ?_) (fun q hq => ?_) hargs.nodup
      (fun _ _ => trivial) (fun _ => trivial)
      fun _ _ g'' s'' _ hw _ => ⟨hwhy, g'', hw⟩
    · rw [rest_procs hb.framed.rest]
      exact hb.other q hq
    · obtain ⟨i, hi, rfl⟩ := List.mem_iff_getElem.mp hq
      exact ((List.forall₂_iff_get.mp (hargs.kept hb.framed)).2 i hi (by omega)).own
  unfold execLoadT
  rw [sat_bind]
  refine (segmentsLoopT_same _ _ _ _ _ _).withEvents (fun _ _ => trivial) ?_
  refine segmentsLoop_sat (V := 0) (i := 0) _ h (by omega) htame (fun _ _ => rfl)
    (fun hno => hE (by omega))
    (fun hno P' a' b' g' s' _ hb =>
      hbad true .segment P' a' b' g' s' (fun hc => hno ⟨hc.1, hc.2.1, by omega⟩) hb)
    fun a₃ b₃ g₃ s₃ hcomplete hall h₃ hu₃ hk₃ => ?_
  have hV : endPage 0 (planned file (fileElf file) (fileElf file).phnum 0) ≤ n :=
    endPage_le (Nat.zero_le n) fun ph hph =>
    ((hall ph hph).1.range (by omega) (htame ph hph)).2.2.1
  have hbound : endPage 0 (planned file (fileElf file) (fileElf file).phnum 0) * pgSize < 2 ^ 64 :=
    page_below (by omega)
  dsimp only
  rw [pgRoundUp_mul hbound, sat_bind, sat_emit, sat_bind]
  refine ⟨trivial, (stackLoopT_same _ _ _ _).withEvents (fun _ _ => trivial) ?_⟩
  refine stackLoop_sat (i := 0) h₃ (by rw [Nat.add_zero]; exact hbound) (fun hno => hE (by omega))
    (fun k hk g' s' hb hdry => hbad false .stack _ _ _ g' s' (by change _ < _; omega) hb)
    fun hroom g₄ s₄ h₄ => ?_
  rw [if_neg (by decide)]
  refine execStackT_sat (x := ⟨pteW ||| pteR ||| pteU, fun _ => 0⟩) h₄ ha (hroom (by decide)) ?_
    (hargs.kept h₄.framed) hargs.nodup hlen hover
    (getLE_lt _ _ _) (fun _ _ => trivial) (fun _ _ => trivial)
    (fun _ => trivial) (fun _ _ _ => trivial)
    (fun hno why hwhy P' s' _ hb _ => hbad false why P' _ _ _ s' ?_ hb)
      fun _ P' x' g' s' _ hother _ hr => ?_
  · unfold Pages.clear
    rw [if_pos (by omega)]
  · rcases hwhy with rfl | rfl <;> exact hno
  · refine ⟨rfl, r, P', _, _, _, g', rfl, hcomplete, hall, fun w h1 h2 => ?_, hr⟩
    rw [hother w h2]
    unfold Pages.clear
    rw [if_neg (by omega)]

theorem execFileT_image {lookup : List UInt8 → Option Image} {path : List UInt8}
    (h : ArgsHeld A p strs pages g s g₁ s₁) (ha : A p)
    (hlen : strs.length ≤ elfMaxArgs) (hover : strs.length = elfMaxArgs → E .ustackOverrun)
    (hlookup : ∀ img, lookup path = some img → img = fileImage file) (hN : n + 2 ≤ vaPages)
    (htame : ∀ ph ∈ planned file (fileElf file) (fileElf file).phnum 0,
      ph.vaddr + ph.memsz ≤ n * pgSize)
    (hE : ¬ 2 + 2 * min (segmentPages (planned file (fileElf file) (fileElf file).phnum 0) + 2)
      (g.free false).length ≤
      (g.free true).length → ∀ e, E e) :
    Sat (execFileT p lookup path pages) s₁ (fun _ => True)
      (ExecOutcome A p lookup path file strs (g.free false).length (g.free true).length) E := by
  have hcount : pages.length = strs.length := h.held.length_eq
  have hu₁ := h.user
  have hscratch := h.pending.scratch
  have hbad : ∀ ip why g' s',
    ExecReason lookup path file strs (g.free false).length (g.free true).length why →
    World A g' s' →
      (∀ q ∈ pages, g'.own q = .scratch) → Sat (execBadT ip 0 pages why) s' (fun _ => True)
        (ExecOutcome A p lookup path file strs (g.free false).length (g.free true).length) E :=
        fun ip why g' s' hwhy hw hs =>
    hw.bad hs h.nodup (fun _ _ => trivial) (fun _ => trivial) fun g'' s'' hw' _ => ⟨hwhy, g'', hw'⟩
  have htf : g₁.own (s₁.procs p).tf = .trapframe p := h.pending.trap
  refine execFileT_sat h.world htf trivial (fun hno => hbad false .file g₁ s₁ hno h.world hscratch)
    (fun img hpath hno => hbad true .header g₁ s₁ (fun hc => ?_) h.world hscratch)
    (fun hno g' s' hu => hbad true .table g' s' ?_ (h.world.undone hu) fun q hq => ?_)
      fun img r g₂ s₂ hpath h₂ => ?_
  · obtain rfl := hlookup img hpath
    have hl := read_length file 0 elfHdrSize
    exact hno ⟨by omega, hc.2⟩
  · rw [h.kernel] at hno
    change _ ∨ _
    omega
  · have hown := hscratch q hq
    rcases hu.framed with ⟨rfl, -⟩ | ⟨r, -, hf, -⟩
    · exact hown
    · exact (hf.own_eq (hown ▸ nofun)).trans hown
  · obtain rfl := hlookup img hpath
    exact execLoadT_image h h₂ ha hlen hover hN htame hE

/-- A call with a vector of strings. -/
theorem sysExecT_image {lookup : List UInt8 → Option Image} {path : List UInt8}
    {pathAddr argvAddr : Nat} (hw : World A g s) (ha : A p)
    (htrap : g.own (s.procs p).tf = .trapframe p)
    (hvec : ArgArray s (s.procs p).pgtbl argvAddr elfMaxArgs 0 strs)
    (hlen : strs.length < elfMaxArgs)
    (hread : path = userString s.mem (s.procs p).pgtbl pathAddr dirPathLen)
    (hlookup : ∀ img, lookup path = some img → img = fileImage file) (hN : n + 2 ≤ vaPages)
    (htame : ∀ ph ∈ planned file (fileElf file) (fileElf file).phnum 0,
      ph.vaddr + ph.memsz ≤ n * pgSize)
    (hE : ¬ ((∀ i, Looked s.mem (s.procs p).pgtbl pathAddr dirPathLen i →
      Present s (s.procs p).pgtbl ((pathAddr + i) / pgSize)) ∧
      2 + 2 * min (segmentPages (planned file (fileElf file) (fileElf file).phnum 0) + 2)
        (g.free false).length ≤
        (g.free true).length) → ∀ e, E e) :
    Sat (sysExecT p lookup pathAddr argvAddr) s (fun _ => True)
      (ExecOutcome A p lookup path file strs (g.free false).length (g.free true).length) E := by
  subst hread
  unfold sysExecT
  rw [sat_bind, sat_mute, sat_bind, sat_procOf]
  refine uvmCopyinStrVar_sat hw.heap (hw.proc p ha).space.live (fun hno => hE fun hc =>
    hno hc.1) fun hpath => ?_
  rw [sat_bind]
  refine argvLoopT_sat hw ha htrap (ArgsHeld.nil hw htrap) hvec (fun _ _ _ => trivial) (fun _ pages' g' s' hh hempty hlt => ?_)
    fun pages g' s' hh => ?_
  · have hu := hh.user
    rw [hempty, List.length_nil] at hu
    rw [List.length_nil] at hlt
    rw [sat_pure]
    exact ⟨by change _ < _; omega, g', hh.world⟩
  · rw [List.nil_append] at hh
    exact execFileT_image hh ha hvec.length_le (fun hc => absurd hc (Nat.ne_of_lt hlen)) hlookup hN htame fun hno => hE fun hc => hno hc.2

/-- What a call leaves that succeeds, with whatever it finds for arguments. -/
theorem sysExecT_loads {lookup : List UInt8 → Option Image} {pathAddr argvAddr : Nat}
    (hw : World A g s) (ha : A p)
    (htrap : g.own (s.procs p).tf = .trapframe p)
    (hlookup : ∀ img, lookup (userString s.mem (s.procs p).pgtbl pathAddr dirPathLen) = some img →
      img = fileImage file)
    (hN : n + 2 ≤ vaPages)
    (htame : ∀ ph ∈ planned file (fileElf file) (fileElf file).phnum 0,
      ph.vaddr + ph.memsz ≤ n * pgSize) :
    Sat (sysExecT p lookup pathAddr argvAddr) s (fun _ => True) (fun d s' => ∀ argc, d = .ok argc →
      ExecImage A p file s') fun _ => True := by
  unfold sysExecT
  rw [sat_bind, sat_mute, sat_bind, sat_procOf]
  refine uvmCopyinStrVar_sat hw.heap (hw.proc p ha).space.live (fun _ _ => trivial) fun _ => ?_
  rw [sat_bind]
  refine (argvLoopT_any hw ha htrap (ArgsHeld.nil hw htrap) fun _ _ _ => trivial).imp fun o s' ho =>
    ?_
  cases o with
  | none =>
      rw [sat_pure]
      exact nofun
  | some l =>
      obtain ⟨hle, ⟨rest, g', hrest, hh⟩ | ⟨g', hp, hlong⟩⟩ := ho l rfl
      · rw [List.nil_append] at hh
        refine (execFileT_image hh ha hrest.length_le (fun _ => trivial) hlookup hN htame
          fun _ _ => trivial).imp ?_
        rintro d s'' hd argc rfl
        exact hd.2
      · refine (execFileT_long hp hlong (fun _ _ => ⟨trivial, trivial⟩) (fun _ => trivial)
          (fun _ _ => trivial) fun _ _ => trivial).imp ?_
        rintro d s'' hd argc rfl
        exact absurd rfl (hd argc)

/-! ## The bytes of a segment -/

theorem ProgHdr.covers_iff (hacc : ph.Accepted) (hN : n ≤ vaPages)
    (htame : ph.vaddr + ph.memsz ≤ n * pgSize) :
    ph.Covers w ↔ ph.Has w := by
  obtain ⟨hva, -, -, hlow, hhigh⟩ := hacc.range hN htame
  unfold ProgHdr.Covers ProgHdr.Has
  rw [hva]
  unfold pgSize at *
  omega

/-- The offsets of the pages that are read do not wrap around. -/
theorem ProgHdr.Read.offset (h : ph.Read file) (hoff : ph.off < 2 ^ 32)
    (hshort : file.length < 2 ^ 32) (hj : j * pgSize < ph.filesz) :
    u32 (u32 ph.off + j * pgSize) = ph.off + j * pgSize := by
  have hsame : u32 ph.off = ph.off := Nat.mod_eq_of_lt hoff
  rw [hsame]
  induction j with
  | zero =>
      rw [Nat.zero_mul, Nat.add_zero]
      exact hsame
  | succ j ih =>
      rw [Nat.succ_mul] at hj ⊢
      have hprev := h.inside j (by omega)
      rw [hsame, ih (by omega)] at hprev
      exact Nat.mod_eq_of_lt (by omega)

/-- A byte of the file is where the segment wants it. -/
theorem ProgHdr.page_byte (h : ph.Read file) (hoff : ph.off < 2 ^ 32)
    (hshort : file.length < 2 ^ 32) (hk : k < ph.filesz) :
    file[ph.off + k]? = some ((ph.page file (ph.first + k / pgSize)).data (k % pgSize)) := by
  have hpos : 0 < pgSize := by decide
  have hdiv : k / pgSize * pgSize + k % pgSize = k := Nat.div_add_mod' k pgSize
  have hmod := Nat.mod_lt k hpos
  have hin := h.inside (k / pgSize) (by omega)
  have hsize : u32 ph.filesz = ph.filesz := Nat.mod_eq_of_lt h.size
  rw [h.offset hoff hshort (by omega)] at hin
  have hlt : ph.off + k < file.length := by omega
  unfold ProgHdr.page
  dsimp only
  rw [Nat.add_sub_cancel_left, hsize, if_pos (by omega),
    h.offset hoff hshort (by omega), Nat.add_assoc, hdiv,
    List.getD_eq_getElem _ _ hlt, List.getElem?_eq_getElem hlt]

/-- Behind the bytes of the file the page is zero. -/
theorem ProgHdr.page_zero (h : ph.Read file) (hk : ph.filesz ≤ k) :
    (ph.page file (ph.first + k / pgSize)).data (k % pgSize) = 0 := by
  have hdiv : k / pgSize * pgSize + k % pgSize = k := Nat.div_add_mod' k pgSize
  have hsize : u32 ph.filesz = ph.filesz := Nat.mod_eq_of_lt h.size
  unfold ProgHdr.page
  dsimp only
  rw [Nat.add_sub_cancel_left, hsize, if_neg (by omega)]

theorem pgRoundUp_le (h : a ≤ n * pgSize) : pgRoundUp a ≤ n * pgSize := by
  unfold pgRoundUp u64 pgSize at *
  omega

/-- The pages of a segment are mapped as the image has them. -/
theorem Backed.inMemory {t : Nat} (hb : Backed g s r t P) (hacc : ph.Accepted)
    (hr : ph.Read file) (hN : n ≤ vaPages)
    (htame : ph.vaddr + ph.memsz ≤ n * pgSize) (hoff : 0 < ph.filesz → ph.off < 2 ^ 32)
    (hshort : file.length < 2 ^ 32)
    (hpages : ∀ w, ph.Has w → P w = some (ph.page file w)) : ph.InMemory file s.mem r := by
  obtain ⟨hva, -, hrange, hlow, hhigh⟩ := hacc.range hN htame
  have hle := hacc.1
  have hpos : 0 < pgSize := by decide
  have hpage : ∀ w, ph.Has w → ∃ q, PageBacked g s r w (ph.page file w) q := fun w hw =>
    hb.page w (by have := hw.2; omega) _ (hpages w hw)
  have hbyte :
      ∀ k < ph.pages * pgSize,
      userWindow s.mem r ph.vaddr k = (ph.page file (ph.first + k / pgSize)).data (k % pgSize) := by
    intro k hk
    have hmod := Nat.mod_lt k hpos
    have hlt : k / pgSize < ph.pages := (Nat.div_lt_iff_lt_mul hpos).mpr hk
    obtain ⟨q, hq⟩ := hpage (ph.first + k / pgSize) ⟨Nat.le_add_right _ _, by omega⟩
    have huser := hq.user (o := 0) (i := k % pgSize) (by omega)
    rw [Nat.zero_add] at huser
    rw [← huser]
    unfold userWindow
    rw [hva, Nat.add_mul, Nat.add_zero, Nat.add_assoc, Nat.div_add_mod']
  refine ⟨fun k hk => ?_, fun k h1 h2 => ?_, fun w hw => ?_⟩
  · rw [hbyte k (by omega)]
    exact ProgHdr.page_byte hr (hoff (by omega)) hshort hk
  · rw [hbyte k (Nat.lt_of_lt_of_le h2 (pgRoundUp_le hlow))]
    exact ProgHdr.page_zero hr h1
  · obtain ⟨q, hq⟩ := hpage w ((ProgHdr.covers_iff hacc hN htame).mp hw)
    rw [hq.leaf, mapPte, Nat.or_assoc, pteFlags_pte (Nat.or_lt_two_pow hq.perm (by decide))]
    rfl

/-! ## What matches -/

/-- The end of the segment that is listed last. -/
theorem endPage_last {l : List ProgHdr} (hall : ∀ ph ∈ l, ph.Accepted) (hN : n ≤ vaPages)
    (htame : ∀ ph ∈ l, ph.vaddr + ph.memsz ≤ n * pgSize) (V : Nat) :
    endPage V l = match l.getLast? with
      | none => V
      | some ph => (ph.vaddr + ph.memsz + (pgSize - 1)) / pgSize := by
  rcases List.eq_nil_or_concat l with rfl | ⟨l', ph, rfl⟩
  · rfl
  · have hmem : ph ∈ l'.concat ph := by simp
    obtain ⟨hva, -, -, hlow, hhigh⟩ := (hall ph hmem).range hN (htame ph hmem)
    have hlast : endPage V (l'.concat ph) = ph.first + ph.pages := by
      unfold endPage
      rw [List.concat_eq_append, List.foldl_append]
      rfl
    rw [hlast, List.concat_eq_append, List.getLast?_append, List.getLast?_singleton]
    change _ = (ph.vaddr + ph.memsz + (pgSize - 1)) / pgSize
    rw [hva]
    unfold pgSize at *
    omega

theorem Executable.segments_eq (x : Executable) (hc : Complete x.file (fileElf x.file) (fileElf x.file).phnum 0) :
    planned x.file (fileElf x.file) (fileElf x.file).phnum 0 = x.segments := by
  rw [x.planned_eq (by omega) hc, ← List.range_eq_range']
  rfl

/-- A process that runs the image finds the segments in its memory exactly if they fit. -/
theorem ExecImage.loaded_iff (h : ExecImage A p x.file s) (hN : n ≤ vaPages)
    (htame : ∀ ph ∈ x.segments, ph.vaddr + ph.memsz ≤ n * pgSize)
    (hdisj : x.segments.Pairwise fun a b => ∀ w, ¬ (a.Covers w ∧ b.Covers w)) : x.Loaded p s ↔ x.Fits := by
  obtain ⟨r, P, V, entry, sp, g, hV, hcomplete, hall, hother, hrun⟩ := h
  rw [x.segments_eq hcomplete] at hV hall hother
  have hcov : ∀ ph ∈ x.segments, ∀ w, ph.Covers w ↔ ph.Has w := fun ph hph w =>
    ProgHdr.covers_iff (hall ph hph).1 hN (htame ph hph)
  have htop : x.top = V := by
    rw [hV, endPage_last (fun ph hph => (hall ph hph).1) hN htame]
    rfl
  have hheap : (s.procs p).heapTop / pgSize = V := by
    rw [hrun.heapTop]
    exact Nat.mul_div_cancel _ (by decide)
  have hstack : (s.procs p).ustackBase / pgSize = V + 1 := by
    rw [hrun.ustackBase]
    exact Nat.mul_div_cancel _ (by decide)
  constructor
  · intro hl
    refine ⟨fun ph hph hsize => ?_, fun ph hph => ⟨?_, ?_⟩⟩
    · have hbyte := (hl.segment ph hph).byte 0 hsize
      have hlt := (List.getElem?_eq_some_iff.mp hbyte).1
      exact Nat.lt_trans hlt x.short
    · rw [htop, ← hheap]
      exact hl.heap ph hph
    · rw [htop, ← hstack]
      exact hl.stack ph hph 0 (by rw [hrun.ustackPages]; decide)
  · intro hf
    refine ⟨fun ph hph => ?_, fun ph hph => ?_, fun ph hph k hk => ?_⟩
    · rw [hrun.pgtbl]
      refine hrun.ready.backed.inMemory (hall ph hph).1 (hall ph hph).2 hN (htame ph hph) (hf.offset ph hph) x.short fun w hw => ?_
      have hw' := (hcov ph hph w).mpr hw
      obtain ⟨h1, h2⟩ := hf.stack ph hph
      rw [hother w ?_ ?_]
      · refine foldl_place_in (hdisj.imp_of_mem fun {a b} ha hb hab w hc => ?_) hph hw
        exact hab w ⟨(hcov a ha w).mpr hc.1, (hcov b hb w).mpr hc.2⟩
      · rintro rfl
        exact h1 (htop ▸ hw')
      · rintro rfl
        exact h2 (htop ▸ hw')
    · rw [hheap, ← htop]
      exact (hf.stack ph hph).1
    · rw [hrun.ustackPages] at hk
      obtain rfl : k = 0 := by omega
      rw [hstack, ← htop]
      exact (hf.stack ph hph).2

/-- The outcome of the recorded call is that of the call. -/
theorem sysExec_of_sysExecT {lookup : List UInt8 → Option Image} {pathAddr argvAddr : Nat}
    {d : Except ExecStop Nat}
    (hrun : (sysExecT p lookup pathAddr argvAddr s).1 = .ok (d, s')) :
    (sysExec p lookup pathAddr argvAddr s).1 = .ok (execAnswer d, s') := by
  have hsat : Sat (sysExecT p lookup pathAddr argvAddr >>= fun d =>
    pure (execAnswer d)) s (fun _ => True)
      (fun n t => n = execAnswer d ∧ t = s') fun _ => False := by
    rw [sat_bind]
    refine ⟨fun _ _ => trivial, ?_⟩
    rw [hrun]
    exact (sat_pure _).mpr ⟨rfl, rfl⟩
  obtain ⟨n, t, hr, rfl, rfl⟩ := ((sysExecT_same p lookup pathAddr argvAddr).sat hsat).returns
  exact hr

theorem sysExec_image {lookup : List UInt8 → Option Image} {pathAddr argvAddr argc : Nat}
    (hw : World A g s) (ha : A p)
    (htrap : g.own (s.procs p).tf = .trapframe p)
    (hlookup : ∀ img, lookup (userString s.mem (s.procs p).pgtbl pathAddr dirPathLen) = some img →
      img = fileImage x.file)
    (hbelow : ∀ ph ∈ x.segments, ph.vaddr + ph.memsz ≤ (trapframeVpn - 2) * pgSize)
    (hrun : (sysExec p lookup pathAddr argvAddr s).1 = .ok (argc, s')) (hok : argc ≠ negOne) :
    ExecImage A p x.file s' := by
  have hN : trapframeVpn - 2 + 2 ≤ vaPages := by decide
  have hT : Sat (sysExecT p lookup pathAddr argvAddr) s (fun _ => True)
    (fun d s' => ∀ argc, d = .ok argc → ExecImage A p x.file s')
      fun _ => True :=
    sysExecT_loads hw ha htrap hlookup hN fun ph hph => hbelow ph (x.planned_mem (by omega) ph hph)
  have hloads :
      Sat (sysExecT p lookup pathAddr argvAddr >>= fun d => pure (execAnswer d)) s (fun _ => True)
        (fun n s' => n ≠ negOne → ExecImage A p x.file s') fun _ => True := by
    rw [sat_bind]
    refine hT.imp fun d s' hd => ?_
    rw [sat_pure]
    cases d with
    | error why => exact fun hc => absurd rfl hc
    | ok n => exact fun _ => hd n rfl
  exact ((sysExecT_same p lookup pathAddr argvAddr).sat hloads).of_ok hrun hok

/-! ## A call that succeeds -/

/-- With memory left, a good file is loaded. -/
theorem Started.loads {page : Nat → Bytes} {argvAddr : Nat} (h : Started page g s)
    (hvec : ArgArray s (s.procs 0).pgtbl argvAddr elfMaxArgs 0 strs)
    (hlen : strs.length < elfMaxArgs)
    (hfit : blockBytes strs ≤ pgSize)
    (hmagic : elfHdrSize ≤ x.file.length ∧ (fileElf x.file).magic = elfMagic)
    (hc : Complete x.file (fileElf x.file) (fileElf x.file).phnum 0)
    (hread : ∀ ph ∈ x.segments, ph.Read x.file)
    (hbelow : ∀ ph ∈ x.segments, ph.vaddr + ph.memsz ≤ (trapframeVpn - 2) * pgSize)
    (hfew : segmentPages x.segments ≤ 300) :
    ∃ s', (sysExecT 0 (fun _ => some (fileImage x.file)) 0 argvAddr s).1 =
      .ok (.ok strs.length, s') := by
  have hle := hvec.length_le
  have hmax : elfMaxArgs = 32 := rfl
  have huser := h.user
  have hkernel := h.kernel
  have hT : Sat (sysExecT 0 (fun _ => some (fileImage x.file)) 0 argvAddr) s (fun _ => True)
      (ExecOutcome (fun p => p = 0) 0 (fun _ => some (fileImage x.file))
        (userString s.mem (s.procs 0).pgtbl 0 dirPathLen) x.file strs
        (g.free false).length (g.free true).length)
      fun _ => False := by
    refine sysExecT_image h.world rfl h.trap hvec hlen (n := trapframeVpn - 2) rfl
      (fun _ he => (Option.some.inj he).symm) (by decide) ?_
      fun hno => absurd ⟨h.path, ?_⟩ hno
    · rw [x.segments_eq hc]
      exact hbelow
    · rw [x.segments_eq hc]
      omega
  obtain ⟨d, s', hrun, hd⟩ := hT.returns
  cases d with
  | ok argc =>
      obtain rfl : argc = strs.length := hd.1
      exact ⟨s', hrun⟩
  | error why =>
      -- there is no reason to fail
      exfalso
      have hwhy := hd.1
      cases why with
      | page =>
          change _ < _ at hwhy
          omega
      | file => cases hwhy
      | header => exact hwhy hmagic
      | table =>
          change _ ∨ _ at hwhy
          omega
      | segment =>
          unfold ExecReason at hwhy
          rw [x.segments_eq hc] at hwhy
          exact hwhy ⟨hc, hread, by omega⟩
      | stack =>
          unfold ExecReason at hwhy
          rw [x.segments_eq hc] at hwhy
          omega
      | argument => exact hwhy hfit
      | pointers => exact hwhy hfit

/-! ## Two segments -/

def wordBytes (n v : Nat) : List UInt8 := (List.range n).map (leBytes v)

/-- A program header of a segment without bytes in the file. -/
def blankHeader (vaddr memsz : Nat) : List UInt8 :=
  wordBytes 4 elfProgLoad ++ wordBytes 4 4 ++ wordBytes 8 0 ++ wordBytes 8 vaddr ++ wordBytes 8 0 ++
    wordBytes 8 0 ++ wordBytes 8 memsz ++ wordBytes 8 0

def pairFile (a b : Nat) : List UInt8 :=
  wordBytes 4 elfMagic ++ wordBytes 28 0 ++ wordBytes 8 elfHdrSize ++ wordBytes 16 0 ++ wordBytes
    2 2 ++ wordBytes 6 0 ++
    blankHeader a pgSize ++ blankHeader b pgSize

def ascending : Executable where
  file := pairFile 0 pgSize
  short := by decide +kernel
  table := by decide +kernel

def descending : Executable where
  file := pairFile pgSize 0
  short := by decide +kernel
  table := by decide +kernel

theorem ascending_segments :
    ascending.segments = [⟨1, 4, 0, 0, 0, pgSize⟩, ⟨1, 4, 0, pgSize, 0, pgSize⟩] := rfl

theorem descending_segments :
    descending.segments = [⟨1, 4, 0, pgSize, 0, pgSize⟩, ⟨1, 4, 0, 0, 0, pgSize⟩] := rfl

/-- Two segments on different pages are in order. -/
theorem pair_good {a b : Nat} (hab : a = 0 ∧ b = pgSize ∨ a = pgSize ∧ b = 0)
    (hsegs : x.segments = [⟨1, 4, 0, a, 0, pgSize⟩, ⟨1, 4, 0, b, 0, pgSize⟩]) :
    (∀ ph ∈ x.segments, ph.vaddr + ph.memsz ≤ (trapframeVpn - 2) * pgSize) ∧
    (∀ ph ∈ x.segments, ph.Accepted) ∧
      (∀ ph ∈ x.segments, ph.Read x.file) ∧ segmentPages x.segments ≤ 300 := by
  rw [hsegs]
  refine ⟨?_, ?_, ?_, ?_⟩
  · rcases hab with ⟨rfl, rfl⟩ | ⟨rfl, rfl⟩ <;> decide
  · rcases hab with ⟨rfl, rfl⟩ | ⟨rfl, rfl⟩ <;> decide
  · have hzero : (0 : Nat) < 2 ^ 32 := by decide
    have hnone : ∀ v j, j * pgSize < (⟨1, 4, 0, v, 0, pgSize⟩ : ProgHdr).filesz → False :=
    fun v j hj => Nat.not_lt_zero _ hj
    simp only [List.forall_mem_cons, List.not_mem_nil, false_implies, implies_true, and_true]
    exact ⟨⟨hzero, fun j hj => (hnone a j hj).elim⟩, ⟨hzero, fun j hj => (hnone b j hj).elim⟩⟩
  · rcases hab with ⟨rfl, rfl⟩ | ⟨rfl, rfl⟩ <;> decide

/-- Two segments on different pages are loaded, in either order. -/
theorem pair_loads {a b : Nat} (hab : a = 0 ∧ b = pgSize ∨ a = pgSize ∧ b = 0)
    (hsegs : x.segments = [⟨1, 4, 0, a, 0, pgSize⟩, ⟨1, 4, 0, b, 0, pgSize⟩])
    (hmagic : elfHdrSize ≤ x.file.length ∧ (fileElf x.file).magic = elfMagic) :
    (∀ ph ∈ x.segments, ph.vaddr + ph.memsz ≤ (trapframeVpn - 2) * pgSize) ∧
      x.segments.Pairwise (fun a b => ∀ w, ¬ (a.Covers w ∧ b.Covers w)) ∧
      ∃ g s s', World (fun p => p = 0) g s ∧ g.own (s.procs 0).tf = .trapframe 0 ∧
        (sysExec 0 (fun _ => some (fileImage x.file)) 0 0x10000 s).1 = .ok (0, s') := by
  obtain ⟨hbelow, hacc, hread, hfew⟩ := pair_good hab hsegs
  refine ⟨hbelow, ?_, ?_⟩
  · rw [hsegs]
    refine List.pairwise_pair.mpr fun w hc => ?_
    unfold ProgHdr.Covers at hc
    dsimp only at hc
    unfold pgSize at *
    omega
  · obtain ⟨g, s, h⟩ := exists_started fun _ _ => 0
    have hvec : ArgArray s (s.procs 0).pgtbl 0x10000 elfMaxArgs 0 [] :=
      ⟨h.readable (v := 16) (o := 0) (.inr rfl) (by decide),
        (h.word (v := 16) (o := 0) (.inr rfl) (by decide)).trans (getLE_zero _ _)⟩
    obtain ⟨s', hrun⟩ :=
      h.loads hvec (by decide) (by decide) hmagic (x.complete hacc) hread hbelow hfew
    exact ⟨g, s, s', h.world, h.trap, sysExec_of_sysExecT hrun⟩

/-- For every executable whose segments are on different pages below the trap frame and the stack:
after a call that succeeds the memory matches the file if and only if the offsets of the segments
with bytes fit in 32 bits and no segment has one of the two pages behind the segment that is listed
last. -/
theorem image_matches_iff {lookup : List UInt8 → Option Image} {pathAddr argvAddr argc : Nat}
    (hw : World A g s) (ha : A p)
    (htrap : g.own (s.procs p).tf = .trapframe p)
    (hlookup : ∀ img, lookup (userString s.mem (s.procs p).pgtbl pathAddr dirPathLen) = some img →
      img = fileImage x.file)
    (hbelow : ∀ ph ∈ x.segments, ph.vaddr + ph.memsz ≤ (trapframeVpn - 2) * pgSize)
    (hdisj : x.segments.Pairwise fun a b => ∀ w, ¬ (a.Covers w ∧ b.Covers w))
    (hrun : (sysExec p lookup pathAddr argvAddr s).1 = .ok (argc, s')) (hok : argc ≠ negOne) :
    x.Loaded p s' ↔ x.Fits := by
  have hN : trapframeVpn - 2 ≤ vaPages := by decide
  exact (sysExec_image hw ha htrap hlookup hbelow hrun hok).loaded_iff hN hbelow hdisj

end

/-- The segments in ascending order. -/
theorem image_matches_ascending :
    ∃ g s s', World (fun p => p = 0) g s ∧ g.own (s.procs 0).tf = .trapframe 0 ∧
    (sysExec 0 (fun _ => some (fileImage ascending.file)) 0 0x10000 s).1 = .ok (0, s') ∧
    (ascending.Loaded 0 s' ↔ ascending.Fits) := by
  obtain ⟨hbelow, hdisj, g, s, s', hw, htrap, hrun⟩ :=
    pair_loads (.inl ⟨rfl, rfl⟩) ascending_segments ⟨by decide +kernel, by decide +kernel⟩
  exact ⟨g, s, s', hw, htrap, hrun,
    image_matches_iff hw rfl htrap (fun _ he => (Option.some.inj he).symm) hbelow hdisj hrun
      (by decide)⟩

/-- Two segments listed in descending order: the stack is put on the upper one. -/
theorem stack_on_segment :
    (∀ ph ∈ descending.segments, ph.vaddr + ph.memsz ≤ (trapframeVpn - 2) * pgSize) ∧
    descending.segments.Pairwise (fun a b => ∀ w, ¬ (a.Covers w ∧ b.Covers w)) ∧
    ∃ g s s', World (fun p => p = 0) g s ∧ g.own (s.procs 0).tf = .trapframe 0 ∧
      (sysExec 0 (fun _ => some (fileImage descending.file)) 0 0x10000 s).1 = .ok (0, s') ∧
      ¬ descending.Loaded 0 s' := by
  obtain ⟨hbelow, hdisj, g, s, s', hw, htrap, hrun⟩ :=
    pair_loads (.inr ⟨rfl, rfl⟩) descending_segments ⟨by decide +kernel, by decide +kernel⟩
  refine ⟨hbelow, hdisj, g, s, s', hw, htrap, hrun, fun hl => ?_⟩
  have himage : ExecImage (fun p => p = 0) 0 descending.file s' :=
    sysExec_image hw rfl htrap (fun _ he => (Option.some.inj he).symm) hbelow hrun (by decide)
  have hfits :=
    ((himage.loaded_iff (n := trapframeVpn - 2) (by decide) hbelow hdisj).mp hl).stack _
    (by rw [descending_segments]; exact List.mem_cons_self)
  have htop : descending.top = 1 := rfl
  rw [htop] at hfits
  exact hfits.1 ⟨by decide, by decide⟩

end WhuOs.Mem
