import WhuOs.Mem.Lists
import WhuOs.Lib.Chain
import WhuOs.Lib.Interval
import Mathlib.Data.Fintype.Card

/-! # Trimming the regions of a process

The first loop of `uvm_munmap` walks the `mmap` list with a pointer to the `next` field
that led to the current node. It cuts the range out of every region; nodes go back to the
warehouse and come from it on the way.
-/

namespace WhuOs.Mem

open Prog Intervals

def Node.region (x : Node) : Nat × Nat := (x.begin, x.begin + x.npages * pgSize)

structure Node.Sound (x : Node) : Prop where
  aligned : x.begin % pgSize = 0
  nonempty : 1 ≤ x.npages
  counted : x.npages < 2 ^ 20
  unwrapped : x.begin + x.npages * pgSize < 2 ^ 64

/-- What happens to the warehouse: its first node is taken, or a node is put in front. -/
inductive WarehouseOp where
  | take (i : NodeId)
  | free (i : NodeId)

/-- A node is taken when it is the first one, and freed when it is not there already. -/
def runWarehouse : List WarehouseOp → List NodeId → Option (List NodeId)
  | [], F => some F
  | .take i :: ops, F => if F.head? = some i then runWarehouse ops F.tail else none
  | .free i :: ops, F => if i ∈ F then none else runWarehouse ops (i :: F)

def takenBy (ops : List WarehouseOp) : List NodeId :=
  ops.filterMap fun op => match op with
    | .take i => some i
    | .free _ => none

def freedBy (ops : List WarehouseOp) : List NodeId :=
  ops.filterMap fun op => match op with
    | .take _ => none
    | .free i => some i

def inside (start stop : Nat) (r : Nat × Nat) : Bool := decide (start ≤ r.1 ∧ r.2 ≤ stop)

/-- The warehouse, with `free` nodes at first, has a node whenever a region is split. -/
def roomToSplit (start stop : Nat) : List (Nat × Nat) → Nat → Prop
  | [], _ => True
  | r :: l, free =>
      if r.1 < start ∧ stop < r.2 then 0 < free ∧ roomToSplit start stop l (free - 1)
      else if inside start stop r then roomToSplit start stop l (free + 1)
      else roomToSplit start stop l free

/-- The pointer that `setNext` writes and `getNext` reads. -/
def Kernel.nextOf (s : Kernel) (p : ProcId) (prev : Option NodeId) : Option NodeId :=
  match prev with
  | none => (s.procs p).mmap
  | some n => (s.nodes n).next

def Kernel.putNext (s : Kernel) (p : ProcId) (prev next : Option NodeId) : Kernel :=
  match prev with
  | none => s.setProc p { s.procs p with mmap := next }
  | some n => s.setNode n { s.nodes n with next := next }

/-- Behind a pointer the list has the nodes `L`, and the warehouse has the nodes `F`. -/
structure Behind (p : ProcId) (prev : Option NodeId) (L F : List NodeId) (s : Kernel) : Prop where
  rest : Chain (fun i => (s.nodes i).next) (s.nextOf p prev) L none
  warehouse : Chain (fun i => (s.nodes i).link) (s.nodes 0).link F none
  apart : (0 :: (L ++ F)).Nodup
  prev : ∀ n ∈ prev, n ∉ 0 :: (L ++ F)
  lock : s.locks .mmapList = false

/-- The range was cut out of the regions of `L`: what is left is `L'`. -/
structure Trimmed (start stop : Nat) (p : ProcId) (prev : Option NodeId)
    (L F : List NodeId) (s : Kernel)
    (L' F' : List NodeId) (ops : List WarehouseOp) (s' : Kernel) : Prop where
  rest : Chain (fun i => (s'.nodes i).next) (s'.nextOf p prev) L' none
  warehouse : Chain (fun i => (s'.nodes i).link) (s'.nodes 0).link F' none
  nodes : (L' ++ F').Perm (L ++ F)
  others : ∀ i, i ∉ 0 :: (L ++ F) → some i ≠ prev → s'.nodes i = s.nodes i
  held : ∀ n ∈ prev, s'.nodes n = { s.nodes n with next := (s'.nodes n).next }
  procs : prev ≠ none → s'.procs = s.procs
  regions : L'.map (fun i => (s'.nodes i).region) =
    (L.map fun i => (s.nodes i).region).flatMap (cut start stop)
  sound : ∀ i ∈ L', (s'.nodes i).Sound
  run : runWarehouse ops F = some F'
  freed : freedBy ops = L.filter fun i => inside start stop (s.nodes i).region
  kept : L'.Perm ((L.filter fun i => !inside start stop (s.nodes i).region) ++ takenBy ops)

section

variable {p : ProcId} {prev : Option NodeId} {L L' F F' : List NodeId}
  {ops : List WarehouseOp} {s s₁ s' : Kernel}
  {i j : NodeId} {start stop : Nat} {G : Event → Prop} {E : Panic → Prop} {Q : Unit → Kernel → Prop}

theorem Node.Sound.regionEnd {x : Node} (h : x.Sound) :
    regionEnd x = x.begin + x.npages * pgSize := by
  have h2 := h.counted
  have h3 := h.unwrapped
  unfold Mem.regionEnd u32 u64
  rw [Nat.mod_eq_of_lt (a := x.npages * pgSize) (by unfold pgSize; omega), Nat.mod_eq_of_lt h3]

theorem sat_setNext {next : Option NodeId} :
    Sat (setNext p prev next) s G Q E ↔ Q () (s.putNext p prev next) := by
  cases prev with
  | none => exact sat_modifyProc
  | some n => exact sat_modifyNode

theorem sat_getNext {Q : Option NodeId → Kernel → Prop} :
    Sat (getNext p prev) s G Q E ↔ Q (s.nextOf p prev) s := by
  cases prev with
  | none =>
      unfold getNext
      rw [sat_bind, sat_procOf, sat_pure]
      rfl
  | some n =>
      unfold getNext
      rw [sat_bind, sat_nodeOf, sat_pure]
      rfl

theorem Trimmed.refl (h : Behind p prev [] F s) : Trimmed start stop p prev [] F s [] F [] s where
  rest := h.rest
  warehouse := h.warehouse
  nodes := .refl _
  others _ _ _ := rfl
  held _ _ := rfl
  procs _ := rfl
  regions := rfl
  sound _ hi := absurd hi List.not_mem_nil
  run := rfl
  freed := rfl
  kept := .refl _

/-! ## Nodes that were not written -/

theorem Behind.parts (h : Behind p prev (i :: L) F s) : (i ≠ 0 ∧ i ∉ L ∧ i ∉ F) ∧
    (∀ j ∈ L, j ≠ i ∧ j ≠ 0 ∧ j ∉ F) ∧ (∀ j ∈ F, j ≠ i ∧ j ≠ 0) ∧ (0 :: (L ++ F)).Nodup := by
  have hnd := h.apart
  simp only [List.cons_append, List.nodup_cons, List.mem_cons, List.mem_append,
    List.nodup_append] at hnd ⊢
  grind

theorem nextOf_congr (hn : ∀ n ∈ prev, s'.nodes n = s.nodes n) (hp : s'.procs = s.procs) :
    s'.nextOf p prev = s.nextOf p prev := by
  cases prev with
  | none => exact congrArg (fun f : ProcId → Proc => (f p).mmap) hp
  | some n => exact congrArg Node.next (hn n rfl)

theorem regions_congr (h : ∀ i ∈ L, s'.nodes i = s.nodes i) :
    (L.map fun i => (s'.nodes i).region) = L.map fun i => (s.nodes i).region :=
  List.map_congr_left fun i hi => by rw [h i hi]

theorem filter_congr {f : Nat × Nat → Bool} (h : ∀ i ∈ L, s'.nodes i = s.nodes i) :
    (L.filter fun i => f (s'.nodes i).region) = L.filter fun i => f (s.nodes i).region :=
  List.filter_congr fun i hi => by rw [h i hi]

/-! ## A node that stays

The node is left alone or gets new bounds; its place in the list is the same.
-/

def Kernel.rebound (s : Kernel) (i : NodeId) (b n : Nat) : Kernel :=
  s.setNode i { s.nodes i with begin := b, npages := n }

theorem rebound_node {b n : Nat} :
    (s.rebound i b n).nodes i = { s.nodes i with begin := b, npages := n } :=
  Function.update_self _ _ _

theorem rebound_other {b n : Nat} (h : j ≠ i) : (s.rebound i b n).nodes j = s.nodes j :=
  Function.update_of_ne h _ _

theorem Behind.stay {b n : Nat} (h : Behind p prev (i :: L) F s) :
    Behind p (some i) L F (s.rebound i b n) := by
  obtain ⟨hi, hL, hF, hnd⟩ := h.parts
  refine ⟨?_, ?_, hnd, ?_, h.lock⟩
  · have hnext : (s.rebound i b n).nextOf p (some i) = (s.nodes i).next := by
      unfold Kernel.nextOf
      dsimp only
      rw [rebound_node]
    rw [hnext]
    exact h.rest.2.congr fun j hj => congrArg Node.next (rebound_other (hL j hj).1)
  · rw [rebound_other hi.1.symm]
    exact h.warehouse.congr fun j hj => congrArg Node.link (rebound_other (hF j hj).1)
  · intro m hm
    cases hm
    simp [hi]

theorem Trimmed.stay {b n : Nat} (h : Behind p prev (i :: L) F s)
    (hcut : cut start stop (s.nodes i).region = [(b, b + n * pgSize)])
    (hin : inside start stop (s.nodes i).region = false)
    (hs : Node.Sound { s.nodes i with begin := b, npages := n })
    (ht : Trimmed start stop p (some i) L F (s.rebound i b n) L' F' ops s') :
    Trimmed start stop p prev (i :: L) F s (i :: L') F' ops s' := by
  obtain ⟨hi, hL, hF, hnd⟩ := h.parts
  have hsame : ∀ j ∈ L, (s.rebound i b n).nodes j = s.nodes j :=
    fun j hj => rebound_other (hL j hj).1
  have hprev : ∀ m ∈ prev, s'.nodes m = s.nodes m := by
    intro m hm
    have hout := h.prev m hm
    simp only [List.cons_append, List.mem_cons, not_or] at hout
    rw [ht.others m (by simp [hout]) (by simpa using hout.2.1), rebound_other hout.2.1]
  have hheld := ht.held i rfl
  rw [rebound_node] at hheld
  refine ⟨⟨?_, ht.rest⟩, ht.warehouse, ht.nodes.cons i, fun j hj hne => ?_, fun m hm =>
    ?_, fun _ => ?_, ?_, ?_,
    ht.run, ?_, ?_⟩
  · rw [nextOf_congr hprev (ht.procs nofun)]
    exact h.rest.1
  · simp only [List.cons_append, List.mem_cons, not_or] at hj
    rw [ht.others j (by simp [hj]) (by simpa using hj.2.1), rebound_other hj.2.1]
  · rw [hprev m hm]
  · exact ht.procs nofun
  · rw [List.map_cons, List.map_cons, List.flatMap_cons, hcut, ht.regions,
      regions_congr hsame, hheld]
    rfl
  · intro j hj
    rcases List.mem_cons.mp hj with rfl | hj
    · rw [hheld]
      exact ⟨hs.aligned, hs.nonempty, hs.counted, hs.unwrapped⟩
    · exact ht.sound j hj
  · rw [ht.freed, filter_congr hsame, List.filter_cons, if_neg (by simp [hin])]
  · have hk := ht.kept
    rw [filter_congr (f := fun r => !inside start stop r) hsame] at hk
    rw [List.filter_cons, if_pos (by simp [hin])]
    exact hk.cons i

/-! ## A node that is deleted -/

/-- The pointer leads past the node, and the warehouse gets it. -/
def Kernel.deleted (s : Kernel) (p : ProcId) (prev : Option NodeId) (i : NodeId) : Kernel :=
  (s.putNext p prev (s.nodes i).next).returned i

theorem returned_node (hi : i ≠ 0) :
    (s.returned i).nodes i = { s.nodes i with link := (s.nodes 0).link } := by
  unfold Kernel.returned
  rw [setNode_nodes, Function.update_of_ne hi, setNode_nodes, Function.update_self]

theorem returned_zero (hi : i ≠ 0) :
    (s.returned i).nodes 0 = { s.nodes 0 with link := some i } := by
  unfold Kernel.returned
  rw [setNode_nodes, Function.update_self, setNode_nodes, Function.update_of_ne hi.symm]

theorem returned_other (hj : j ≠ i) (h0 : j ≠ 0) : (s.returned i).nodes j = s.nodes j := by
  unfold Kernel.returned
  rw [setNode_nodes, Function.update_of_ne h0, setNode_nodes, Function.update_of_ne hj]

theorem putNext_other {next : Option NodeId} (h : some j ≠ prev) :
    (s.putNext p prev next).nodes j = s.nodes j := by
  cases prev with
  | none => rfl
  | some n => exact Function.update_of_ne (fun he => h (congrArg some he)) _ _

theorem putNext_held {next : Option NodeId} {n : NodeId} (h : n ∈ prev) :
    (s.putNext p prev next).nodes n = { s.nodes n with next := next } := by
  cases h
  exact Function.update_self _ _ _

theorem nextOf_putNext {next : Option NodeId} : (s.putNext p prev next).nextOf p prev = next := by
  cases prev with
  | none =>
      show (Function.update s.procs p { s.procs p with mmap := next } p).mmap = next
      rw [Function.update_self]
  | some n =>
      show (Function.update s.nodes n { s.nodes n with next := next } n).next = next
      rw [Function.update_self]

theorem Behind.ne_prev (h : Behind p prev L F s) (hj : j ∈ 0 :: (L ++ F)) : some j ≠ prev :=
  fun he => h.prev j he.symm hj

/-- Off the pointer, the node and the head of the warehouse nothing is written. -/
theorem deleted_other (hp : some j ≠ prev) (hj : j ≠ i) (h0 : j ≠ 0) :
    (s.deleted p prev i).nodes j = s.nodes j := by
  unfold Kernel.deleted
  rw [returned_other hj h0, putNext_other hp]

theorem deleted_held {n : NodeId} (h : n ∈ prev) (hj : n ≠ i) (h0 : n ≠ 0) :
    (s.deleted p prev i).nodes n = { s.nodes n with next := (s.nodes i).next } := by
  unfold Kernel.deleted
  rw [returned_other hj h0, putNext_held h]

theorem deleted_nextOf (h : ∀ n ∈ prev, n ≠ i ∧ n ≠ 0) :
    (s.deleted p prev i).nextOf p prev = (s.nodes i).next := by
  have hsame :
      (s.deleted p prev i).nextOf p prev = (s.putNext p prev (s.nodes i).next).nextOf p prev :=
    nextOf_congr (fun n hn => returned_other (h n hn).1 (h n hn).2) rfl
  rw [hsame, nextOf_putNext]

theorem Behind.off (h : Behind p prev (i :: L) F s) : ∀ n ∈ prev, n ≠ i ∧ n ≠ 0 := by
  intro n hn
  have hout := h.prev n hn
  simp only [List.cons_append, List.mem_cons, not_or] at hout
  exact ⟨hout.2.1, hout.1⟩

theorem Behind.delete (h : Behind p prev (i :: L) F s) :
    Behind p prev L (i :: F) (s.deleted p prev i) := by
  obtain ⟨hi, hL, hF, hnd⟩ := h.parts
  have hrest : ∀ j ∈ L, (s.deleted p prev i).nodes j = s.nodes j := fun j hj =>
    deleted_other (h.ne_prev (by simp [hj])) (hL j hj).1 (hL j hj).2.1
  have hnode : ∀ j ∈ 0 :: i :: F, (s.putNext p prev (s.nodes i).next).nodes j = s.nodes j :=
    fun j hj =>
    putNext_other (h.ne_prev (by
      rw [List.cons_append, List.mem_cons, List.mem_cons, List.mem_append]
      simp only [List.mem_cons] at hj
      tauto))
  refine ⟨?_, ⟨?_, ?_⟩, ?_, ?_, ?_⟩
  · rw [deleted_nextOf h.off]
    exact h.rest.2.congr fun j hj => congrArg Node.next (hrest j hj)
  · unfold Kernel.deleted
    rw [returned_zero hi.1]
  · have hlink : ((s.deleted p prev i).nodes i).link = (s.nodes 0).link := by
      unfold Kernel.deleted
      rw [returned_node hi.1, hnode 0 (by simp)]
    dsimp only
    rw [hlink]
    refine h.warehouse.congr fun j hj => ?_
    unfold Kernel.deleted
    rw [returned_other (hF j hj).1 (hF j hj).2, hnode j (by simp [hj])]
  · have hperm : (0 :: (L ++ i :: F)).Perm (0 :: (i :: L ++ F)) := List.perm_middle.cons 0
    exact hperm.nodup_iff.mpr h.apart
  · intro n hn hmem
    refine h.prev n hn ?_
    have hperm : (0 :: (L ++ i :: F)).Perm (0 :: (i :: L ++ F)) := List.perm_middle.cons 0
    exact hperm.mem_iff.mp hmem
  · have hlock := h.lock
    unfold Kernel.deleted
    cases prev with
    | none => exact hlock
    | some n => exact hlock

theorem Trimmed.delete (h : Behind p prev (i :: L) F s)
    (hcut : cut start stop (s.nodes i).region = [])
    (hin : inside start stop (s.nodes i).region = true)
    (ht : Trimmed start stop p prev L (i :: F) (s.deleted p prev i) L' F' ops s') :
    Trimmed start stop p prev (i :: L) F s L' F' (.free i :: ops) s' := by
  obtain ⟨hi, hL, hF, hnd⟩ := h.parts
  have hsame : ∀ j ∈ L, (s.deleted p prev i).nodes j = s.nodes j := fun j hj =>
    deleted_other (h.ne_prev (by simp [hj])) (hL j hj).1 (hL j hj).2.1
  refine ⟨ht.rest, ht.warehouse, ht.nodes.trans List.perm_middle, fun j hj hne =>
    ?_, fun n hn => ?_, fun hne => ?_, ?_,
    ht.sound, ?_, ?_, ?_⟩
  · have hj' := hj
    simp only [List.cons_append, List.mem_cons, List.mem_append, not_or] at hj'
    rw [ht.others j (by simp [hj']) hne, deleted_other hne hj'.2.1 hj'.1]
  · obtain ⟨h1, h2⟩ := h.off n hn
    have hheld := ht.held n hn
    rw [deleted_held hn h1 h2] at hheld
    exact hheld
  · rw [ht.procs hne]
    unfold Kernel.deleted
    cases prev with
    | none => exact absurd rfl hne
    | some n => rfl
  · rw [List.map_cons, List.flatMap_cons, hcut, List.nil_append, ht.regions, regions_congr hsame]
  · unfold runWarehouse
    rw [if_neg hi.2.2]
    exact ht.run
  · have hf := ht.freed
    rw [filter_congr hsame] at hf
    rw [List.filter_cons, if_pos hin, ← hf]
    rfl
  · have hk := ht.kept
    rw [filter_congr (f := fun r => !inside start stop r) hsame] at hk
    rw [List.filter_cons, if_neg (by simp [hin])]
    exact hk

/-! ## A node that is split -/

/-- The node keeps the pages before the range, and a node from the warehouse behind it gets the
pages after it. -/
def Kernel.split (s : Kernel) (i j : NodeId) (before stop after : Nat) : Kernel :=
  ((s.setNode 0 { s.nodes 0 with link := (s.nodes j).link }).setNode j
    { s.nodes j with begin := stop, npages := after, next := (s.nodes i).next }).setNode i
      { s.nodes i with npages := before, next := some j }

section

variable {before after : Nat}

theorem split_node :
    (s.split i j before stop after).nodes i = { s.nodes i with npages := before, next := some j } :=
  Function.update_self _ _ _

theorem split_new (hji : j ≠ i) : (s.split i j before stop after).nodes j =
    { s.nodes j with begin := stop, npages := after, next := (s.nodes i).next } := by
  unfold Kernel.split
  rw [setNode_nodes, Function.update_of_ne hji, setNode_nodes, Function.update_self]

theorem split_zero (hi : i ≠ 0) (hj : j ≠ 0) : (s.split i j before stop after).nodes 0 =
    { s.nodes 0 with link := (s.nodes j).link } := by
  unfold Kernel.split
  rw [setNode_nodes, Function.update_of_ne hi.symm, setNode_nodes,
    Function.update_of_ne hj.symm, setNode_nodes,
    Function.update_self]

theorem split_other {k : NodeId} (hi : k ≠ i) (hj : k ≠ j) (h0 : k ≠ 0) :
    (s.split i j before stop after).nodes k = s.nodes k := by
  unfold Kernel.split
  rw [setNode_nodes, Function.update_of_ne hi, setNode_nodes,
    Function.update_of_ne hj, setNode_nodes,
    Function.update_of_ne h0]

theorem Behind.split (h : Behind p prev (i :: L) (j :: F) s) :
    Behind p (some j) L F (s.split i j before stop after) := by
  obtain ⟨hi, hL, hF, hnd⟩ := h.parts
  have hj := hF j List.mem_cons_self
  have hnd' := hnd
  simp only [List.nodup_cons, List.mem_append, List.mem_cons, List.nodup_append] at hnd'
  have hL' : ∀ k ∈ L, (s.split i j before stop after).nodes k = s.nodes k := fun k hk =>
    split_other (hL k hk).1 (fun he => (hL k hk).2.2 (he ▸ List.mem_cons_self)) (hL k hk).2.1
  have hF' : ∀ k ∈ F, (s.split i j before stop after).nodes k = s.nodes k := fun k hk =>
    split_other (hF k (List.mem_cons_of_mem j hk)).1 (fun he => hnd'.2.2.1.1 (he ▸ hk))
      (hF k (List.mem_cons_of_mem j hk)).2
  refine ⟨?_, ?_, ?_, ?_, h.lock⟩
  · have hnext : (s.split i j before stop after).nextOf p (some j) = (s.nodes i).next := by
      unfold Kernel.nextOf
      dsimp only
      rw [split_new hj.1]
    rw [hnext]
    exact h.rest.2.congr fun k hk => congrArg Node.next (hL' k hk)
  · rw [split_zero hi.1 hj.2]
    exact h.warehouse.2.congr fun k hk => congrArg Node.link (hF' k hk)
  · have hsub : (0 :: (L ++ F)).Sublist (0 :: (L ++ j :: F)) :=
      (List.Sublist.append_left (List.sublist_cons_self j F) L).cons_cons 0
    exact hnd.sublist hsub
  · intro n hn
    cases hn
    simp only [List.mem_cons, List.mem_append, not_or]
    exact ⟨hj.2, fun hk => (hL j hk).2.2 List.mem_cons_self, hnd'.2.2.1.1⟩

theorem Trimmed.split (h : Behind p prev (i :: L) (j :: F) s)
    (hcut : cut start stop (s.nodes i).region =
      [((s.nodes i).begin, (s.nodes i).begin + before * pgSize), (stop, stop + after * pgSize)])
    (hin : inside start stop (s.nodes i).region = false)
    (hs₁ : Node.Sound { s.nodes i with npages := before })
    (hs₂ : Node.Sound { s.nodes j with begin := stop, npages := after })
    (ht : Trimmed start stop p (some j) L F (s.split i j before stop after) L' F' ops s') :
    Trimmed start stop p prev (i :: L) (j :: F) s (i :: j :: L') F' (.take j :: ops) s' := by
  obtain ⟨hi, hL, hF, hnd⟩ := h.parts
  have hj := hF j List.mem_cons_self
  have hsame : ∀ k ∈ L, (s.split i j before stop after).nodes k = s.nodes k := fun k hk =>
    split_other (hL k hk).1 (fun he => (hL k hk).2.2 (he ▸ List.mem_cons_self)) (hL k hk).2.1
  have hout : ∀ k, k ∉ 0 :: (i :: L ++ j :: F) → s'.nodes k = s.nodes k := by
    intro k hk
    simp only [List.cons_append, List.mem_cons, List.mem_append, not_or] at hk
    rw [ht.others k (by simp [hk]) (by simpa using hk.2.2.2.1), split_other hk.2.1 hk.2.2.2.1 hk.1]
  have hprev : ∀ m ∈ prev, s'.nodes m = s.nodes m := fun m hm => hout m (h.prev m hm)
  have hnode : s'.nodes i = { s.nodes i with npages := before, next := some j } := by
    have hFi : i ∉ F := fun hk => hi.2.2 (List.mem_cons_of_mem j hk)
    rw [ht.others i (by simp [hi, hFi]) (by simpa using hj.1.symm), split_node]
  have hnew := ht.held j rfl
  rw [split_new hj.1] at hnew
  refine ⟨⟨?_, ?_, ht.rest⟩, ht.warehouse, ?_, fun k hk _ => hout k hk, fun m hm => ?_, fun _ =>
    ?_, ?_, ?_, ?_, ?_, ?_⟩
  · rw [nextOf_congr hprev (ht.procs nofun)]
    exact h.rest.1
  · dsimp only
    rw [hnode]
  · have hperm : (j :: (L' ++ F')).Perm (L ++ j :: F) :=
      (ht.nodes.cons j).trans List.perm_middle.symm
    exact hperm.cons i
  · rw [hprev m hm]
  · exact ht.procs nofun
  · rw [List.map_cons, List.map_cons, List.map_cons, List.flatMap_cons, hcut, ht.regions,
      regions_congr hsame, hnode, hnew]
    rfl
  · intro k hk
    rcases List.mem_cons.mp hk with rfl | hk
    · rw [hnode]
      exact ⟨hs₁.aligned, hs₁.nonempty, hs₁.counted, hs₁.unwrapped⟩
    rcases List.mem_cons.mp hk with rfl | hk
    · rw [hnew]
      exact ⟨hs₂.aligned, hs₂.nonempty, hs₂.counted, hs₂.unwrapped⟩
    · exact ht.sound k hk
  · unfold runWarehouse
    rw [if_pos (show (j :: F).head? = some j from rfl)]
    exact ht.run
  · have hf := ht.freed
    rw [filter_congr hsame] at hf
    rw [List.filter_cons, if_neg (by simp [hin]), ← hf]
    rfl
  · have hk := ht.kept
    rw [filter_congr (f := fun r => !inside start stop r) hsame] at hk
    rw [List.filter_cons, if_pos (by simp [hin])]
    have hperm :
        (j :: L').Perm
        ((L.filter fun k => !inside start stop (s.nodes k).region) ++ j :: takenBy ops) :=
      (hk.cons j).trans List.perm_middle.symm
    exact hperm.cons i

end

/-! ## The loop -/

/-- The states differ in the nodes only. -/
def SameButNodes (s t : Kernel) : Prop := ∃ f, t = { s with nodes := f }

theorem SameButNodes.refl (s : Kernel) : SameButNodes s s := ⟨s.nodes, rfl⟩

theorem SameButNodes.setNode {t : Kernel} (h : SameButNodes s t) (k : NodeId) (x : Node) :
    SameButNodes s (t.setNode k x) := by
  obtain ⟨f, rfl⟩ := h
  exact ⟨_, rfl⟩

theorem nodes_ext {t t' : Kernel} (h : SameButNodes s t) (h' : SameButNodes s t')
    (hk : ∀ k, t.nodes k = t'.nodes k) : t = t' := by
  obtain ⟨f, rfl⟩ := h
  obtain ⟨f', rfl⟩ := h'
  rw [show f = f' from funext hk]

/-- The writes of the split one after the other. -/
theorem split_steps {before after : Nat} {s₁ s₂ s₃ s₄ : Kernel} (hi : i ≠ 0)
    (hj : j ≠ 0) (hji : j ≠ i)
    (h₁ : s₁ = s.setNode i { s.nodes i with npages := before })
    (h₂ : s₂ = s₁.setNode 0 { s₁.nodes 0 with link := (s₁.nodes j).link })
    (h₃ : s₃ = s₂.setNode j { s₂.nodes j with begin := stop, npages := after })
    (h₄ : s₄ = s₃.setNode j { s₃.nodes j with next := (s₃.nodes i).next }) :
    s₄.setNode i { s₄.nodes i with next := some j } = s.split i j before stop after := by
  have hsame₁ : SameButNodes s s₁ := h₁ ▸ (SameButNodes.refl s).setNode _ _
  have hsame₂ : SameButNodes s s₂ := h₂ ▸ hsame₁.setNode _ _
  have hsame₃ : SameButNodes s s₃ := h₃ ▸ hsame₂.setNode _ _
  have hsame₄ : SameButNodes s s₄ := h₄ ▸ hsame₃.setNode _ _
  have hsplit : SameButNodes s (s.split i j before stop after) :=
    (((SameButNodes.refl s).setNode _ _).setNode _ _).setNode _ _
  refine nodes_ext (hsame₄.setNode _ _) hsplit fun k => ?_
  subst h₁ h₂ h₃ h₄
  unfold Kernel.split
  simp only [setNode_nodes]
  by_cases hki : k = i
  · subst hki
    simp [hi, hji, hji.symm]
  by_cases hkj : k = j
  · subst hkj
    simp [hi, hj, hji, hji.symm]
  by_cases hk0 : k = 0
  · subst hk0
    simp [hj, hji, hki, hkj]
  · simp [hki, hkj, hk0]

/-- From a list that has been trimmed up to a pointer, `m` trims the rest, or it stops where a split
finds the warehouse empty. -/
def Trims (start stop : Nat) (p : ProcId) (prev : Option NodeId) (L F : List NodeId)
    (s : Kernel) (m : MemM Unit)
    (t : Kernel) : Prop :=
  Sat m t (fun _ => False)
    (fun _ s' => roomToSplit start stop (L.map fun i => (s.nodes i).region) F.length ∧
      ∃ L' F' ops, Trimmed start stop p prev L F s L' F' ops s')
    fun e => e = .mmapRegionAlloc ∧
      ¬ roomToSplit start stop (L.map fun i => (s.nodes i).region) F.length

section

variable {m : MemM Unit} {t : Kernel} {b n before after : Nat}

theorem Trims.stay (h : Behind p prev (i :: L) F s)
    (hstrict : ¬ ((s.nodes i).region.1 < start ∧ stop < (s.nodes i).region.2))
    (hcut : cut start stop (s.nodes i).region = [(b, b + n * pgSize)])
    (hin : inside start stop (s.nodes i).region = false)
    (hs : Node.Sound { s.nodes i with begin := b, npages := n })
    (ht : Trims start stop p (some i) L F (s.rebound i b n) m t) :
      Trims start stop p prev (i :: L) F s m t := by
  obtain ⟨-, hL, -, -⟩ := h.parts
  have hroom : roomToSplit start stop ((i :: L).map fun i => (s.nodes i).region) F.length ↔
      roomToSplit start stop (L.map fun j => ((s.rebound i b n).nodes j).region) F.length := by
    rw [List.map_cons, roomToSplit, if_neg hstrict, if_neg (by simp [hin]),
      regions_congr fun j hj => rebound_other (hL j hj).1]
  unfold Trims at ht ⊢
  rw [hroom]
  refine ht.imp ?_
  rintro _ s' ⟨hr, L', F', ops, hT⟩
  exact ⟨hr, i :: L', F', ops, hT.stay h hcut hin hs⟩

theorem Trims.delete (h : Behind p prev (i :: L) F s)
    (hstrict : ¬ ((s.nodes i).region.1 < start ∧ stop < (s.nodes i).region.2))
    (hcut : cut start stop (s.nodes i).region = [])
    (hin : inside start stop (s.nodes i).region = true)
    (ht : Trims start stop p prev L (i :: F) (s.deleted p prev i) m t) :
    Trims start stop p prev (i :: L) F s m t := by
  obtain ⟨-, hL, -, -⟩ := h.parts
  have hsame : ∀ j ∈ L, (s.deleted p prev i).nodes j = s.nodes j := fun j hj =>
    deleted_other (h.ne_prev (by simp [hj])) (hL j hj).1 (hL j hj).2.1
  have hroom : roomToSplit start stop ((i :: L).map fun i => (s.nodes i).region) F.length ↔
      roomToSplit start stop (L.map fun j => ((s.deleted p prev i).nodes j).region)
        (i :: F).length := by
    rw [List.map_cons, roomToSplit, if_neg hstrict, if_pos hin,
      regions_congr hsame, List.length_cons]
  unfold Trims at ht ⊢
  rw [hroom]
  refine ht.imp ?_
  rintro _ s' ⟨hr, L', F', ops, hT⟩
  exact ⟨hr, L', F', .free i :: ops, hT.delete h hcut hin⟩

theorem Trims.split (h : Behind p prev (i :: L) (j :: F) s)
    (hstrict : (s.nodes i).region.1 < start ∧ stop < (s.nodes i).region.2)
    (hcut : cut start stop (s.nodes i).region =
      [((s.nodes i).begin, (s.nodes i).begin + before * pgSize), (stop, stop + after * pgSize)])
    (hin : inside start stop (s.nodes i).region = false)
    (hs₁ : Node.Sound { s.nodes i with npages := before })
    (hs₂ : Node.Sound { s.nodes j with begin := stop, npages := after })
    (ht : Trims start stop p (some j) L F (s.split i j before stop after) m t) :
    Trims start stop p prev (i :: L) (j :: F) s m t := by
  obtain ⟨-, hL, -, -⟩ := h.parts
  have hsame : ∀ k ∈ L, (s.split i j before stop after).nodes k = s.nodes k := fun k hk =>
    split_other (hL k hk).1 (fun he => (hL k hk).2.2 (he ▸ List.mem_cons_self)) (hL k hk).2.1
  have hroom : roomToSplit start stop ((i :: L).map fun i => (s.nodes i).region) (j :: F).length ↔
      roomToSplit start stop (L.map fun k =>
        ((s.split i j before stop after).nodes k).region) F.length := by
    rw [List.map_cons, roomToSplit, if_pos hstrict, regions_congr hsame,
      List.length_cons, Nat.add_sub_cancel]
    exact and_iff_right (Nat.succ_pos _)
  unfold Trims at ht ⊢
  rw [hroom]
  refine ht.imp ?_
  rintro _ s' ⟨hr, L', F', ops, hT⟩
  exact ⟨hr, i :: j :: L', F', .take j :: ops, hT.split h hcut hin hs₁ hs₂⟩

end

theorem mmapRegionAlloc_empty {Q : NodeId → Kernel → Prop} (hl : s.locks .mmapList = false)
    (h : (s.nodes 0).link = none) : Sat mmapRegionAlloc s G Q E ↔ E .mmapRegionAlloc := by
  unfold mmapRegionAlloc
  rw [sat_bind, sat_acquire hl, sat_bind, sat_nodeOf, setLock_nodes, h, sat_bind,
    sat_release (by simp), sat_panic]

theorem mmapRegionAlloc_first {Q : NodeId → Kernel → Prop} (hl : s.locks .mmapList = false)
    (h : (s.nodes 0).link = some i)
    (hQ : Q i (s.setNode 0 { s.nodes 0 with link := (s.nodes i).link })) :
    Sat mmapRegionAlloc s G Q E := by
  refine mmapRegionAlloc_sat hl (fun hn => ?_) fun k hk => ?_
  · rw [h] at hn
    cases hn
  · rw [h] at hk
    cases hk
    exact hQ

/-- A part of the pages of a region. -/
theorem Node.Sound.part {x y : Node} {b e : Nat} (h : x.Sound) (hb : b % pgSize = 0)
    (he : e % pgSize = 0) (hlt : b < e)
    (h₁ : x.begin ≤ b) (h₂ : e ≤ x.begin + x.npages * pgSize) (hy : y.begin = b)
    (hn : y.npages = u32 ((e - b) / pgSize)) : y.Sound ∧ b + y.npages * pgSize = e := by
  have h3 := h.counted
  have h4 := h.unwrapped
  unfold pgSize at hb he h₂ h4 hn ⊢
  have hu : u32 ((e - b) / 4096) = (e - b) / 4096 := Nat.mod_eq_of_lt (by omega)
  rw [hu] at hn
  have hend : b + y.npages * 4096 = e := by omega
  refine ⟨⟨?_, ?_, ?_, ?_⟩, hend⟩
  · unfold pgSize
    rw [hy]
    exact hb
  · omega
  · omega
  · unfold pgSize
    omega

/-- The loop, with `fuel` to spare, trims the nodes `L` wherever it meets them. -/
def LoopTrims (start stop : Nat) (p : ProcId) (fuel : Nat) (L : List NodeId) : Prop :=
  ∀ prev F s, Behind p prev L F s → (∀ i ∈ L, (s.nodes i).Sound) →
    Trims start stop p prev L F s (munmapLoop p start stop fuel prev (s.nextOf p prev)) s

section

variable {fuel fin : Nat}

/-- The nodes behind a node that is changed are sound as before. -/
theorem sound_tail {t : Kernel} (hs : ∀ k ∈ i :: L, (s.nodes k).Sound)
    (ht : ∀ k ∈ L, t.nodes k = s.nodes k) :
    ∀ k ∈ L, (t.nodes k).Sound := by
  intro k hk
  rw [ht k hk]
  exact hs k (List.mem_cons_of_mem i hk)

/-- The node stays with the pages from `b` to `e`. -/
theorem LoopTrims.stay {b e n : Nat} (ih : LoopTrims start stop p fuel L)
    (h : Behind p prev (i :: L) F s)
    (hs : ∀ k ∈ i :: L, (s.nodes k).Sound) (hregion : (s.nodes i).region = ((s.nodes i).begin, fin))
    (hb : b % pgSize = 0)
    (he : e % pgSize = 0) (hlt : b < e) (h1 : (s.nodes i).begin ≤ b) (h2 : e ≤ fin)
    (hn : n = u32 ((e - b) / pgSize))
    (hstrict : ¬ ((s.nodes i).begin < start ∧ stop < fin))
    (hcut : cut start stop (s.nodes i).region = [(b, e)])
    (hinside : ¬ (start ≤ (s.nodes i).begin ∧ fin ≤ stop)) :
    Trims start stop p prev (i :: L) F s (munmapLoop p start stop fuel (some i) (s.nodes i).next)
      (s.rebound i b n) := by
  obtain ⟨-, hL, -, -⟩ := h.parts
  have hfin : (s.nodes i).begin + (s.nodes i).npages * pgSize = fin := (Prod.mk.inj hregion).2
  obtain ⟨hsound, hend⟩ :=
    (hs i List.mem_cons_self).part (y := { s.nodes i with begin := b, npages := n }) hb he hlt h1
    (hfin.symm ▸ h2) rfl hn
  dsimp only at hend
  rw [← hend] at hcut
  refine Trims.stay h (by rw [hregion]; exact hstrict) hcut
    (by rw [hregion]; exact decide_eq_false hinside) hsound ?_
  have hnext : (s.nodes i).next = (s.rebound i b n).nextOf p (some i) := by
    unfold Kernel.nextOf
    dsimp only
    rw [rebound_node]
  rw [hnext]
  exact ih _ _ _ h.stay (sound_tail hs fun j hj => rebound_other (hL j hj).1)

/-- The node goes. -/
theorem LoopTrims.delete (ih : LoopTrims start stop p fuel L) (h : Behind p prev (i :: L) F s)
    (hs : ∀ k ∈ i :: L, (s.nodes k).Sound)
    (hstrict : ¬ ((s.nodes i).region.1 < start ∧ stop < (s.nodes i).region.2))
    (hcut : cut start stop (s.nodes i).region = [])
    (hin : inside start stop (s.nodes i).region = true) :
    Trims start stop p prev (i :: L) F s (do
      setNext p prev (s.nodes i).next
      mmapRegionFree i
      munmapLoop p start stop fuel prev (← getNext p prev)) s := by
  obtain ⟨-, hL, -, -⟩ := h.parts
  have hsame : ∀ j ∈ L, (s.deleted p prev i).nodes j = s.nodes j := fun j hj =>
    deleted_other (h.ne_prev (by simp [hj])) (hL j hj).1 (hL j hj).2.1
  have hlock : (s.putNext p prev (s.nodes i).next).locks .mmapList = false := by
    have hl := h.lock
    cases prev with
    | none => exact hl
    | some n => exact hl
  have ht := (ih _ _ _ h.delete (sound_tail hs hsame)).delete h hstrict hcut hin
  unfold Trims
  rw [sat_bind, sat_setNext, sat_bind, mmapRegionFree_sat hlock, sat_bind, sat_getNext]
  exact ht

/-- The node is split, with a node from the warehouse. -/
theorem LoopTrims.split (hstart : start % pgSize = 0) (hstop : stop % pgSize = 0)
    (ih : LoopTrims start stop p fuel L)
    (h : Behind p prev (i :: L) F s) (hs : ∀ k ∈ i :: L, (s.nodes k).Sound)
    (hregion : (s.nodes i).region = ((s.nodes i).begin, fin))
    (hstrict : (s.nodes i).begin < start ∧ stop < fin)
    (hover : start < fin ∧ (s.nodes i).begin < stop) :
    Trims start stop p prev (i :: L) F s (do
      modifyNode i fun x => { x with npages := u32 ((start - (s.nodes i).begin) / pgSize) }
      let node ← mmapRegionAlloc
      modifyNode node fun x => { x with begin := stop, npages := u32 ((fin - stop) / pgSize) }
      let next := (← nodeOf i).next
      modifyNode node fun x => { x with next := next }
      modifyNode i fun x => { x with next := some node }
      munmapLoop p start stop fuel (some node) (← nodeOf node).next) s := by
  obtain ⟨hi, hL, hF, -⟩ := h.parts
  have hsi := hs i List.mem_cons_self
  have hfin : (s.nodes i).begin + (s.nodes i).npages * pgSize = fin := (Prod.mk.inj hregion).2
  have halign : fin % pgSize = 0 := by
    rw [← hfin, Nat.add_mul_mod_self_right]
    exact hsi.aligned
  have hlock :
      (s.setNode i { s.nodes i with npages := u32 ((start - (s.nodes i).begin) / pgSize) }).locks
      .mmapList =
        false := h.lock
  unfold Trims
  rw [sat_bind, sat_modifyNode, sat_bind]
  cases F with
  | nil =>
      have hempty :
        ((s.setNode i { s.nodes i with npages := u32 ((start - (s.nodes i).begin) / pgSize) }).nodes
          0).link
          = none := by
        rw [setNode_nodes, Function.update_of_ne hi.1.symm]
        exact h.warehouse
      rw [mmapRegionAlloc_empty hlock hempty]
      refine ⟨rfl, ?_⟩
      rw [List.map_cons, roomToSplit, hregion, if_pos hstrict]
      rintro ⟨hpos, -⟩
      exact absurd hpos (Nat.lt_irrefl 0)
  | cons j F =>
      have hj := hF j List.mem_cons_self
      obtain ⟨hs₁, he₁⟩ := hsi.part
        (y := { s.nodes i with npages := u32 ((start - (s.nodes i).begin) / pgSize) })
        hsi.aligned hstart hstrict.1
        (Nat.le_refl _) (by omega) rfl rfl
      obtain ⟨hs₂, he₂⟩ := hsi.part
        (y := { s.nodes j with begin := stop, npages := u32 ((fin - stop) / pgSize) }) hstop halign
        hstrict.2
        (by omega) (by omega) rfl rfl
      dsimp only at he₁ he₂
      have hcut : cut start stop (s.nodes i).region = [((s.nodes i).begin, (s.nodes i).begin +
          u32 ((start - (s.nodes i).begin) / pgSize) * pgSize),
            (stop, stop + u32 ((fin - stop) / pgSize) * pgSize)] := by
        unfold cut
        rw [he₁, he₂, hregion, if_neg (by dsimp only; omega),
          if_neg (by dsimp only; omega), if_pos hstrict]
      have hin : inside start stop (s.nodes i).region = false := by
        rw [hregion]
        exact decide_eq_false (by dsimp only; omega)
      have hfirst :
        ((s.setNode i { s.nodes i with npages := u32 ((start - (s.nodes i).begin) / pgSize) }).nodes
          0).link
          = some j := by
        rw [setNode_nodes, Function.update_of_ne hi.1.symm]
        exact h.warehouse.1
      refine mmapRegionAlloc_first hlock hfirst ?_
      rw [sat_bind, sat_modifyNode, sat_bind, sat_nodeOf, sat_bind, sat_modifyNode,
        sat_bind, sat_modifyNode,
        split_steps hi.1 hj.2 hj.1 rfl rfl rfl rfl, sat_bind, sat_nodeOf]
      refine Trims.split h (by rw [hregion]; exact hstrict) hcut hin hs₁ hs₂ ?_
      exact ih _ _ _ h.split (sound_tail hs fun k hk => split_other (hL k hk).1
        (fun he => (hL k hk).2.2 (he ▸ List.mem_cons_self)) (hL k hk).2.1)

end

theorem munmapLoop_sat (hstart : start % pgSize = 0) (hstop : stop % pgSize = 0)
    (hlt : start < stop) {fuel : Nat}
    (hfuel : L.length ≤ fuel) : LoopTrims start stop p fuel L := by
  induction L generalizing fuel with
  | nil =>
      intro prev F s h _
      rw [show s.nextOf p prev = none from h.rest]
      have hend : munmapLoop p start stop fuel prev none = pure () := by
        cases fuel <;> rfl
      unfold Trims
      rw [hend, sat_pure]
      exact ⟨trivial, [], F, [], .refl h⟩
  | cons i L ih =>
      intro prev F s h hs
      obtain ⟨fuel, rfl⟩ : ∃ f, fuel = f + 1 :=
        ⟨fuel - 1, by simp only [List.length_cons] at hfuel; omega⟩
      have hloop : LoopTrims start stop p fuel L := ih (Nat.le_of_succ_le_succ hfuel)
      have hsi := hs i List.mem_cons_self
      rw [show s.nextOf p prev = some i from h.rest.1]
      unfold munmapLoop Trims
      rw [sat_bind, sat_nodeOf]
      dsimp only
      rw [hsi.regionEnd]
      obtain ⟨fin, hfin⟩ : ∃ fin, (s.nodes i).begin + (s.nodes i).npages * pgSize = fin := ⟨_, rfl⟩
      have hregion : (s.nodes i).region = ((s.nodes i).begin, fin) := by rw [← hfin]; rfl
      have halign : fin % pgSize = 0 := by
        rw [← hfin, Nat.add_mul_mod_self_right]
        exact hsi.aligned
      have hfull : (s.nodes i).begin < fin := by
        have hne := hsi.nonempty
        unfold pgSize at hfin
        omega
      rw [hfin]
      by_cases hapart : fin ≤ start ∨ (s.nodes i).begin ≥ stop
      · -- no overlap
        rw [if_pos hapart, sat_bind, sat_nodeOf]
        have hsame : s.rebound i (s.nodes i).begin (s.nodes i).npages = s := by
          refine nodes_ext ((SameButNodes.refl s).setNode _ _) (SameButNodes.refl s) fun k => ?_
          by_cases hk : k = i
          · rw [hk, rebound_node]
          · exact rebound_other hk
        have hcount : (s.nodes i).npages = u32 ((fin - (s.nodes i).begin) / pgSize) := by
          have hc := hsi.counted
          unfold pgSize at hfin ⊢
          unfold u32
          omega
        have hcut : cut start stop (s.nodes i).region = [((s.nodes i).begin, fin)] := by
          unfold cut
          rw [hregion, if_pos hapart]
        have ht := hloop.stay h hs hregion hsi.aligned halign hfull (Nat.le_refl _)
          (Nat.le_refl _) hcount (by omega) hcut (by omega)
        rw [hsame] at ht
        exact ht
      rw [if_neg hapart]
      by_cases hinside : (s.nodes i).begin ≥ start ∧ fin ≤ stop
      · -- the region goes
        have hcut : cut start stop (s.nodes i).region = [] := by
          unfold cut
          rw [hregion, if_neg hapart, if_pos hinside]
        rw [if_pos hinside]
        exact hloop.delete h hs (by rw [hregion]; dsimp only; omega) hcut
          (by rw [hregion]; exact decide_eq_true hinside)
      rw [if_neg hinside]
      by_cases hstrict : (s.nodes i).begin < start ∧ fin > stop
      · -- the region is split
        rw [if_pos hstrict]
        exact hloop.split hstart hstop h hs hregion hstrict (by omega)
      rw [if_neg hstrict]
      by_cases hleft : (s.nodes i).begin < start
      · -- the pages in front of the range stay
        have hcut : cut start stop (s.nodes i).region = [((s.nodes i).begin, start)] := by
          unfold cut
          rw [hregion, if_neg hapart, if_neg hinside, if_neg hstrict, if_pos hleft]
        rw [if_pos hleft, sat_bind, sat_modifyNode, sat_bind, sat_nodeOf,
          setNode_nodes, Function.update_self]
        exact hloop.stay h hs hregion hsi.aligned hstart hleft (Nat.le_refl _)
          (by omega) rfl hstrict hcut hinside
      · -- the pages behind the range stay
        have hcut : cut start stop (s.nodes i).region = [(stop, fin)] := by
          unfold cut
          rw [hregion, if_neg hapart, if_neg hinside, if_neg hstrict, if_neg hleft]
        rw [if_neg hleft, sat_bind, sat_modifyNode, sat_bind, sat_nodeOf,
          setNode_nodes, Function.update_self]
        exact hloop.stay h hs hregion hstop halign (by omega) (by omega)
          (Nat.le_refl _) rfl hstrict hcut hinside

/-! ## What is left of the regions -/

theorem Trimmed.apart (h : Trimmed start stop p prev L F s L' F' ops s')
    (hnd : (0 :: (L ++ F)).Nodup) :
    (0 :: (L' ++ F')).Nodup :=
  (h.nodes.cons 0).nodup_iff.mpr hnd

theorem Trimmed.outside (h : Trimmed start stop p prev L F s L' F' ops s')
    (hlt : start < stop) (a : Nat) :
    covers (L'.map fun i => (s'.nodes i).region) a =
      if start ≤ a ∧ a < stop then 0 else covers (L.map fun i => (s.nodes i).region) a := by
  rw [h.regions, covers_cuts hlt]

/-- The loop cuts the range out of the list and keeps account of the nodes, or it stops where the
warehouse has no node for a split. -/
theorem munmap_trims_regions {npages : Nat}
    (hlist : Chain (fun i => (s.nodes i).next) (s.procs p).mmap L none)
    (hwarehouse : Chain (fun i => (s.nodes i).link) (s.nodes 0).link F none)
    (hapart : (0 :: (L ++ F)).Nodup)
    (hlock : s.locks .mmapList = false) (hsound : ∀ i ∈ L, (s.nodes i).Sound)
    (hstart : start % pgSize = 0)
    (hn : 0 < npages) (hstop : start + npages * pgSize < 2 ^ 64) :
    (npages < 2 ^ 20 → u64 (start + u32 (npages * pgSize)) = start + npages * pgSize) ∧
    Sat (munmapLoop p start (start + npages * pgSize) listFuel none (s.procs p).mmap) s
      (fun _ => False)
      (fun _ s' =>
        roomToSplit start (start + npages * pgSize) (L.map fun i => (s.nodes i).region) F.length ∧
        ∃ L' F' ops, Chain (fun i => (s'.nodes i).next) (s'.procs p).mmap L' none ∧
          Chain (fun i => (s'.nodes i).link) (s'.nodes 0).link F' none ∧ (0 :: (L' ++ F')).Nodup ∧
          (∀ a, ¬ (start ≤ a ∧ a < start + npages * pgSize) →
            covers (L'.map fun i => (s'.nodes i).region) a =
              covers (L.map fun i => (s.nodes i).region) a) ∧
          (∀ a, start ≤ a → a < start + npages * pgSize →
            covers (L'.map fun i => (s'.nodes i).region) a = 0) ∧
          (∀ i ∈ L', 1 ≤ (s'.nodes i).npages) ∧
          ((L.map fun i => (s.nodes i).region).Pairwise Beside →
            (L'.map fun i => (s'.nodes i).region).Pairwise Beside) ∧
          runWarehouse ops F = some F' ∧
          freedBy ops =
            (L.filter fun i => inside start (start + npages * pgSize) (s.nodes i).region) ∧
          L'.Perm ((L.filter fun i =>
            !inside start (start + npages * pgSize) (s.nodes i).region) ++ takenBy ops))
      fun e => e = .mmapRegionAlloc ∧
        ¬ roomToSplit start (start + npages * pgSize) (L.map fun i =>
          (s.nodes i).region) F.length := by
  constructor
  · intro hfit
    unfold u64 u32
    rw [Nat.mod_eq_of_lt (a := npages * pgSize) (by unfold pgSize; omega), Nat.mod_eq_of_lt hstop]
  have hlt : start < start + npages * pgSize := by
    unfold pgSize
    omega
  have hend : (start + npages * pgSize) % pgSize = 0 := by
    rw [Nat.add_mul_mod_self_right]
    exact hstart
  have hfuel : L.length ≤ listFuel := by
    have hnd : L.Nodup := (List.nodup_append.mp (List.nodup_cons.mp hapart).2).1
    have hcard := List.Nodup.length_le_card hnd
    rw [Fintype.card_fin] at hcard
    have hbound : 256 ≤ listFuel := by decide
    omega
  have hbehind : Behind p none L F s := ⟨hlist, hwarehouse, hapart, nofun, hlock⟩
  have hrun : Trims start (start + npages * pgSize) p none L F s
      (munmapLoop p start (start + npages * pgSize) listFuel none (s.procs p).mmap) s :=
    munmapLoop_sat hstart hend hlt hfuel _ _ _ hbehind hsound
  unfold Trims at hrun
  refine hrun.imp ?_
  rintro _ s' ⟨hroom, L', F', ops, hT⟩
  refine ⟨hroom, L', F', ops, hT.rest, hT.warehouse, hT.apart hapart,
    fun a ha => ?_, fun a h1 h2 => ?_,
    fun i hi => (hT.sound i hi).nonempty, fun hdis => ?_, hT.run, hT.freed, hT.kept⟩
  · rw [hT.outside hlt, if_neg ha]
  · rw [hT.outside hlt, if_pos ⟨h1, h2⟩]
  · rw [hT.regions]
    exact pairwise_cuts hlt hdis

end

/-- A process with one region of three pages; `F` is the warehouse. -/
def threePages (F : Option NodeId) : Kernel :=
  ((Kernel.start 0 0 0 fun _ => 0).setNode 1 ⟨0x30000, 3, none, none⟩).setNode 0
    ⟨0, 0, none, F⟩ |>.setProc 0
    { (Kernel.start 0 0 0 fun _ => 0).procs 0 with mmap := some 1 }

theorem threePages_sound (F : Option NodeId) : ∀ i ∈ [1], ((threePages F).nodes i).Sound := by
  intro i hi
  have hnode : (threePages F).nodes 1 = ⟨0x30000, 3, none, none⟩ := rfl
  rw [List.mem_singleton.mp hi, hnode]
  constructor <;> decide

/-- The page in the middle is unmapped, and there is a node for the third page. -/
theorem munmap_trims_regions_middle :
    ∃ s' L', (munmapLoop 0 0x31000 (0x31000 + 1 * pgSize) listFuel none
      ((threePages (some 2)).procs 0).mmap (threePages (some 2))).1 = .ok ((), s') ∧
    Chain (fun i => (s'.nodes i).next) (s'.procs 0).mmap L' none ∧
    covers (L'.map fun i => (s'.nodes i).region) 0x31000 = 0 := by
  have h := (munmap_trims_regions (s := threePages (some 2)) (p := 0) (L := [1]) (F := [2])
    ⟨rfl, rfl⟩ ⟨rfl, rfl⟩ (by decide) rfl (threePages_sound (some 2))
    (show 0x31000 % pgSize = 0 by decide)
    (show 0 < 1 by decide) (by decide)).2
  have hroom :
      roomToSplit 0x31000 (0x31000 + 1 * pgSize) ([1].map fun i =>
        ((threePages (some 2)).nodes i).region)
        [(2 : NodeId)].length := by
    rw [List.map_cons, roomToSplit, if_pos (by decide)]
    exact ⟨by decide, trivial⟩
  obtain ⟨_, s', hr, -, L', -, -, hlist, -, -, -, hin, -⟩ :=
    (h.never fun e he => he.2 hroom).returns
  exact ⟨s', L', hr, hlist, hin 0x31000 (Nat.le_refl _) (by decide)⟩

/-- With an empty warehouse the loop does not get past a region that contains the range. -/
theorem munmap_split_panics :
    Chain (fun i => ((threePages none).nodes i).next) ((threePages none).procs 0).mmap [1] none ∧
      Chain (fun i => ((threePages none).nodes i).link) ((threePages none).nodes 0).link [] none ∧
      ((threePages none).nodes 1).region = (0x30000, 0x33000) ∧
      (munmapLoop 0 0x31000 (0x31000 + 1 * pgSize) listFuel none
        ((threePages none).procs 0).mmap (threePages none)).1 =
        .error .mmapRegionAlloc :=
  ⟨⟨rfl, rfl⟩, rfl, by decide, rfl⟩

end WhuOs.Mem
