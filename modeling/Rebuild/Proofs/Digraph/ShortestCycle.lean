/-
The breadth-first search finds a shortest cycle.

`Digraph.cycleThrough?` keeps for every node that it meets the node from which it met it, and reads
the cycle off by walking back.  It keeps no distances; the number of steps back to the start can be
computed from the parents alone, and the invariant says that nodes are met in the order of this
number.

Main definitions:

* `ShortestCycle` — a cycle through a given element, each element once, and none is shorter;
* `Digraph.Tree`, `Digraph.depth` — parents that lead back to the start, and in how many steps;
* `Digraph.Searching` — **the invariant of the search**: the nodes done and the queue behind them are
  all that were met, by growing depth, and no edge from a node done leads back or skips a depth;
* `Digraph.Expanded` — what looking at the successors of a node leads to.

Main results:

* `Digraph.Tree.walkBack?` — **walking back never misses a parent**, and takes as many steps as the
  node is deep;
* `Digraph.Searching.exists_queued` — every cycle through the start leaves the nodes done at a node
  of the queue;
* `Digraph.closing?_spec` — the search ends at a node with an edge to the start;
* `Digraph.shortestCycle_of_cycleThrough?` — **a shortest cycle through the start is found**.
-/
import Rebuild.Proofs.Digraph.Components

set_option relaxedAutoImplicit false
set_option autoImplicit false

namespace Rebuild

/-- The elements of `rest` lead from `a` back to `a`, and no other way back is shorter. -/
structure ShortestCycle {α : Type} (r : α → α → Prop) (a : α) (rest : List α) : Prop where
  chain : (a :: rest ++ [a]).IsChain r
  nodup : (a :: rest).Nodup
  least : ∀ way, (a :: way ++ [a]).IsChain r → rest.length ≤ way.length

/-- A shortest cycle stays one if its elements are renamed and relations between the new names come
from relations between the old ones. -/
theorem ShortestCycle.map {α β : Type} {r : α → α → Prop} {q : β → β → Prop} {a : α} {rest : List α}
    (h : ShortestCycle r a rest) (f : α → β) (old : β → α) (hold : ∀ x ∈ a :: rest, old (f x) = x)
    (hf : ∀ x y, r x y → q (f x) (f y)) (hq : ∀ x y, q x y → r (old x) (old y)) :
    ShortestCycle q (f a) (rest.map f) where
  chain := by
    have hchain := List.isChain_map_of_isChain f hf h.chain
    rwa [List.map_append, List.map_cons] at hchain
  nodup := by
    rw [← List.map_cons]
    refine h.nodup.map_on fun x hx y hy hxy => ?_
    rw [← hold x hx, ← hold y hy, hxy]
  least way hway := by
    have hchain := List.isChain_map_of_isChain old hq hway
    rw [List.map_append, List.map_cons, List.map_singleton, hold a (List.mem_cons_self ..)] at hchain
    simpa using h.least _ hchain

namespace Digraph

open Relation

variable {g : Digraph} {start v w x : ℕ} {members done queue way : List ℕ} {parents : Parents}

/-! ### Parents -/

/-- The start and the nodes that have a parent. -/
def Met (start : ℕ) (parents : Parents) (x : ℕ) : Prop :=
  x = start ∨ x ∈ parents.map Prod.fst

/-- The number of steps back to the start. -/
def depth : Parents → ℕ → ℕ
  | [], _ => 0
  | (node, parent) :: parents, x => if x = node then depth parents parent + 1 else depth parents x

/-- Every node was met once, inside `members` and over an edge from a node met before. -/
inductive Tree (g : Digraph) (start : ℕ) (members : List ℕ) : Parents → Prop
  | root : Tree g start members []
  | meet {parents : Parents} {v w : ℕ} (tree : Tree g start members parents)
      (parent : Met start parents v) (fresh : ¬ Met start parents w) (edge : g.Edge v w)
      (inside : w ∈ members) : Tree g start members ((w, v) :: parents)

theorem met_cons : Met start ((w, v) :: parents) x ↔ x = w ∨ Met start parents x := by
  simp only [Met, List.map_cons, List.mem_cons]
  exact or_left_comm

theorem depth_cons_of_met (hw : ¬ Met start parents w) (hx : Met start parents x) :
    depth ((w, v) :: parents) x = depth parents x := by
  have hne : x ≠ w := fun heq => hw (heq ▸ hx)
  rw [depth, if_neg hne]

theorem depth_le_length (parents : Parents) (x : ℕ) : depth parents x ≤ parents.length := by
  induction parents generalizing x with
  | nil => rfl
  | cons entry parents ih =>
      rw [depth, List.length_cons]
      split
      · exact Nat.succ_le_succ (ih _)
      · exact Nat.le_succ_of_le (ih x)

theorem lookup_isNone_iff : (parents.lookup x).isNone = true ↔ x ∉ parents.map Prod.fst := by
  simp only [Option.isNone_iff_eq_none, List.lookup_eq_none_iff, List.mem_map, bne_iff_ne]
  constructor
  · rintro h ⟨entry, hmem, rfl⟩
    exact h entry hmem rfl
  · exact fun h entry hmem heq => h ⟨entry, hmem, heq.symm⟩

theorem Tree.depth_start (h : g.Tree start members parents) : depth parents start = 0 := by
  induction h with
  | root => rfl
  | meet _ _ fresh _ _ ih => rw [depth_cons_of_met fresh (Or.inl rfl), ih]

theorem Tree.mem_members (h : g.Tree start members parents) (hs : start ∈ members)
    (hx : Met start parents x) : x ∈ members := by
  induction h with
  | root =>
      obtain rfl : x = start := by simpa [Met] using hx
      exact hs
  | meet _ _ _ _ inside ih =>
      rcases met_cons.1 hx with rfl | hx
      · exact inside
      · exact ih hx

/-- A node met later is no matter to those who do not pass it. -/
theorem walkBack?_cons {bound : ℕ} {back : List ℕ} (h : walkBack? parents start bound x = some back)
    (hw : w ∉ back) : walkBack? ((w, v) :: parents) start bound x = some back := by
  induction bound generalizing x back with
  | zero => exact h
  | succ bound ih =>
      by_cases hx : x = start
      · simpa [walkBack?, hx] using h
      · simp only [walkBack?, if_neg hx, Option.bind_eq_bind, Option.bind_eq_some_iff] at h ⊢
        obtain ⟨parent, hparent, rest, hrest, heq⟩ := h
        obtain rfl := Option.some.inj heq
        have hne : (x == w) = false :=
          beq_eq_false_iff_ne.2 fun heq => hw (heq ▸ List.mem_cons_self ..)
        refine ⟨parent, ?_, rest, ih hrest fun hmem => hw (List.mem_cons_of_mem _ hmem), rfl⟩
        rw [List.lookup_cons, hne, hparent]

/-- The way from a node back to the start, along edges and through nodes that have a parent. -/
structure WayBack (g : Digraph) (start : ℕ) (parents : Parents) (x : ℕ) (back : List ℕ) : Prop where
  length : back.length = depth parents x
  nodup : (back ++ [start]).Nodup
  keys : ∀ y ∈ back, y ∈ parents.map Prod.fst
  head : (back ++ [start]).head? = some x
  chain : (back ++ [start]).IsChain fun a b => g.Edge b a

/-- **Walking back never misses a parent.** -/
theorem Tree.walkBack? (h : g.Tree start members parents) (hx : Met start parents x) {bound : ℕ}
    (hbound : depth parents x ≤ bound) :
    ∃ back, walkBack? parents start bound x = some back ∧ g.WayBack start parents x back := by
  induction h generalizing x bound with
  | root =>
      obtain rfl : x = start := by simpa [Met] using hx
      refine ⟨[], by cases bound <;> simp [Digraph.walkBack?], rfl, by simp, by simp, rfl, ?_⟩
      exact List.isChain_singleton x
  | @meet parents v w tree parent fresh edge inside ih =>
      have hkey : w ∉ parents.map Prod.fst := fun hmem => fresh (Or.inr hmem)
      rcases met_cons.1 hx with rfl | hx
      · -- the node met last: one step to its parent, whose way back is an old one
        have hstart : x ≠ start := fun heq => fresh (Or.inl heq)
        rw [depth, if_pos rfl] at hbound
        obtain ⟨bound, rfl⟩ := Nat.exists_eq_add_of_lt (Nat.lt_of_succ_le hbound)
        obtain ⟨back, hback, hway⟩ := ih parent (Nat.le_add_right (depth parents v) bound)
        have hnot : x ∉ back := fun hmem => hkey (hway.keys x hmem)
        refine ⟨x :: back, ?_, ?_, ?_, ?_, rfl, ?_⟩
        · simp [Digraph.walkBack?, hstart, walkBack?_cons hback hnot]
        · rw [depth, if_pos rfl, List.length_cons, hway.length]
        · exact List.nodup_cons.2 ⟨by simp [hnot, hstart], hway.nodup⟩
        · simpa using fun y hy => Or.inr (by simpa using hway.keys y hy)
        · rw [List.cons_append]
          refine List.isChain_cons.2 ⟨fun y hy => ?_, hway.chain⟩
          obtain rfl := Option.some.inj (hway.head.symm.trans hy)
          exact edge
      · rw [depth_cons_of_met fresh hx] at hbound
        obtain ⟨back, hback, hway⟩ := ih hx hbound
        have hnot : w ∉ back := fun hmem => hkey (hway.keys w hmem)
        refine ⟨back, walkBack?_cons hback hnot, ?_, hway.nodup, fun y hy => ?_, hway.head,
          hway.chain⟩
        · rw [depth_cons_of_met fresh hx, hway.length]
        · exact List.mem_cons_of_mem _ (hway.keys y hy)

/-! ### The search -/

/-- **The invariant of the search**, for the nodes whose successors were all looked at and the queue
of those that wait. -/
structure Searching (g : Digraph) (start : ℕ) (members done queue : List ℕ) (parents : Parents) :
    Prop where
  tree : g.Tree start members parents
  met_iff : ∀ x, Met start parents x ↔ x ∈ done ++ queue
  nodup : (done ++ queue).Nodup
  /-- Nodes were met in the order of their depths. -/
  sorted : (done ++ queue).Pairwise fun a b => depth parents a ≤ depth parents b
  /-- The queue holds nodes of at most two depths. -/
  span : ∀ a ∈ queue, ∀ b ∈ queue, depth parents b ≤ depth parents a + 1
  closed : ∀ a ∈ done, ∀ b ∈ members, g.Edge a b →
    b ≠ start ∧ Met start parents b ∧ depth parents b ≤ depth parents a + 1

theorem searching_start (g : Digraph) (start : ℕ) (members : List ℕ) :
    g.Searching start members [] [start] [] where
  tree := .root
  met_iff := by simp [Met]
  nodup := by simp
  sorted := by simp
  span := by simp [depth]
  closed := by simp

/-- A node that was met is at most one deeper than the one at the front. -/
theorem Searching.depth_le (h : g.Searching start members done (v :: queue) parents)
    (hx : Met start parents x) : depth parents x ≤ depth parents v + 1 := by
  rcases List.mem_append.1 ((h.met_iff x).1 hx) with hdone | hqueue
  · have hle := (List.pairwise_append.1 h.sorted).2.2 x hdone v (List.mem_cons_self ..)
    omega
  · exact h.span v (List.mem_cons_self ..) x hqueue

/-- No node of the queue is less deep than the one at the front. -/
theorem Searching.front_le (h : g.Searching start members done (v :: queue) parents)
    (hx : x ∈ v :: queue) : depth parents v ≤ depth parents x := by
  rcases List.mem_cons.1 hx with rfl | hx
  · rfl
  · exact List.rel_of_pairwise_cons (List.pairwise_append.1 h.sorted).2.1 hx

/-- Meeting a successor of the node at the front. -/
theorem Searching.meet (h : g.Searching start members done (v :: queue) parents) (hvw : g.Edge v w)
    (hw : w ∈ members) (hfresh : ¬ Met start parents w) :
    g.Searching start members done (v :: (queue ++ [w])) ((w, v) :: parents) := by
  have hmet : ∀ {x}, x ∈ done ++ v :: queue → Met start parents x := fun hx => (h.met_iff _).2 hx
  have hdepth : ∀ {x}, x ∈ done ++ v :: queue → depth ((w, v) :: parents) x = depth parents x :=
    fun hx => depth_cons_of_met hfresh (hmet hx)
  have hv : v ∈ done ++ v :: queue := by simp
  have hnew : depth ((w, v) :: parents) w = depth parents v + 1 := by rw [depth, if_pos rfl]
  have hassoc : done ++ v :: (queue ++ [w]) = (done ++ v :: queue) ++ [w] := by simp
  refine ⟨h.tree.meet (hmet hv) hfresh hvw hw, fun x => ?_, ?_, ?_, ?_, ?_⟩
  · rw [met_cons, h.met_iff, hassoc, List.mem_append (s := done ++ v :: queue), List.mem_singleton,
      or_comm]
  · rw [hassoc, ← List.concat_eq_append]
    exact h.nodup.concat fun hmem => hfresh (hmet hmem)
  · rw [hassoc]
    refine List.pairwise_append.2 ⟨?_, List.pairwise_singleton .., fun a ha b hb => ?_⟩
    · refine h.sorted.imp_of_mem fun ha hb hab => ?_
      rwa [hdepth ha, hdepth hb]
    · obtain rfl := List.mem_singleton.1 hb
      rw [hdepth ha, hnew]
      exact h.depth_le (hmet ha)
  · -- all that waits is as deep as the front or one deeper, and the new node is one deeper
    have hwait : ∀ a ∈ v :: (queue ++ [w]), depth parents v ≤ depth ((w, v) :: parents) a ∧
        depth ((w, v) :: parents) a ≤ depth parents v + 1 := by
      intro a ha
      rcases List.mem_append.1 (List.cons_append ▸ ha) with ha | ha
      · have hmem : a ∈ done ++ v :: queue := List.mem_append_right _ ha
        rw [hdepth hmem]
        exact ⟨h.front_le ha, h.depth_le (hmet hmem)⟩
      · rw [List.mem_singleton.1 ha, hnew]
        omega
    intro a ha b hb
    have := (hwait a ha).1
    have := (hwait b hb).2
    omega
  · intro a ha b hb hab
    obtain ⟨hne, hmetb, hle⟩ := h.closed a ha b hb hab
    rw [hdepth (List.mem_append_left _ ha), hdepth ((h.met_iff b).1 hmetb)]
    exact ⟨hne, met_cons.2 (Or.inr hmetb), hle⟩

/-- Going on to the next node once all successors of the front were met. -/
theorem Searching.next (h : g.Searching start members done (v :: queue) parents)
    (hall : ∀ b ∈ members, g.Edge v b → b ≠ start ∧ Met start parents b) :
    g.Searching start members (done ++ [v]) queue parents := by
  have hassoc : done ++ [v] ++ queue = done ++ v :: queue := by simp
  refine ⟨h.tree, fun x => hassoc ▸ h.met_iff x, hassoc ▸ h.nodup, hassoc ▸ h.sorted, ?_, ?_⟩
  · exact fun a ha b hb => h.span a (List.mem_cons_of_mem _ ha) b (List.mem_cons_of_mem _ hb)
  · intro a ha b hb hab
    rcases List.mem_append.1 ha with ha | ha
    · exact h.closed a ha b hb hab
    · obtain rfl := List.mem_singleton.1 ha
      obtain ⟨hne, hmet⟩ := hall b hb hab
      exact ⟨hne, hmet, h.depth_le hmet⟩

/-- What looking at successors of the front leads to: it has an edge to the start, or all of the
successors inside the component have been met. -/
def Expanded (g : Digraph) (start : ℕ) (members done : List ℕ) (v : ℕ) (parents : Parents)
    (successors : List ℕ) : Expansion → Prop
  | .closes parents' => g.Edge v start ∧
      ∃ queue', g.Searching start members done (v :: queue') parents'
  | .grows parents' queue' => g.Searching start members done (v :: queue') parents' ∧
      (∀ x, Met start parents x → Met start parents' x) ∧
      ∀ b ∈ successors, b ∈ members → b ≠ start ∧ Met start parents' b

/-- One more successor that has been met. -/
theorem Expanded.cons {parents' : Parents} {successors : List ℕ} {outcome : Expansion}
    (h : g.Expanded start members done v parents' successors outcome)
    (hkept : ∀ x, Met start parents x → Met start parents' x) (hne : w ≠ start)
    (hmet : w ∈ members → Met start parents' w) :
    g.Expanded start members done v parents (w :: successors) outcome := by
  cases outcome with
  | closes found => exact h
  | grows found queue =>
      obtain ⟨hsearch, hlater, hall⟩ := h
      refine ⟨hsearch, fun x hx => hlater x (hkept x hx), fun b hb hmem => ?_⟩
      rcases List.mem_cons.1 hb with rfl | hb
      · exact ⟨hne, hlater b (hmet hmem)⟩
      · exact hall b hb hmem

/-- Looking at successors of the front keeps the invariant. -/
theorem expand_spec (successors : List ℕ)
    (h : g.Searching start members done (v :: queue) parents)
    (hedges : ∀ b ∈ successors, g.Edge v b) :
    g.Expanded start members done v parents successors
      (expand start members v parents queue successors) := by
  induction successors generalizing parents queue with
  | nil => exact ⟨h, fun _ hx => hx, by simp⟩
  | cons w successors ih =>
      have hvw := hedges w (List.mem_cons_self ..)
      have hrest := fun b hb => hedges b (List.mem_cons_of_mem w hb)
      rw [expand]
      by_cases hw : w = start
      · rw [if_pos hw]
        exact ⟨hw ▸ hvw, queue, h⟩
      rw [if_neg hw]
      by_cases hnew : (members.contains w && (parents.lookup w).isNone) = true
      · rw [if_pos hnew]
        rw [Bool.and_eq_true, List.contains_iff_mem, lookup_isNone_iff] at hnew
        have hmeet := h.meet hvw hnew.1 (not_or.2 ⟨hw, hnew.2⟩)
        exact (ih hmeet hrest).cons (fun x hx => met_cons.2 (Or.inr hx)) hw
          fun _ => met_cons.2 (Or.inl rfl)
      · rw [if_neg hnew]
        rw [Bool.and_eq_true, List.contains_iff_mem, lookup_isNone_iff] at hnew
        exact (ih h hrest).cons (fun _ hx => hx) hw
          fun hmem => Or.inr (not_not.1 fun hkey => hnew ⟨hmem, hkey⟩)

/-! ### Cycles through the start -/

/-- A cycle does not leave the component. -/
theorem IsComponent.mem_of_isChain (hc : g.IsComponent members) (hs : start ∈ members)
    (hway : (start :: way ++ [start]).IsChain g.Edge) (hx : x ∈ way) : x ∈ members := by
  have hmem : x ∈ start :: way ++ [start] := by simp [hx]
  have hfrom : g.Reaches start x :=
    hway.induction (g.Reaches start) _ (fun _ _ hab ha => ha.tail hab) (fun _ => .refl) x hmem
  have hto : g.Reaches x start :=
    hway.backwards_induction (g.Reaches · start) _ (fun _ _ hab hb => hb.head hab)
      (fun _ => by rw [List.getLast_append_singleton]; exact .refl) x hmem
  exact (hc.mem_iff start hs x).2 ⟨hfrom, hto⟩

/-- Every way back to the start from a node that is done passes the queue. -/
theorem Searching.exists_queued_of_done (h : g.Searching start members done queue parents)
    (hs : start ∈ members) (hv : v ∈ done) (hway : (v :: way ++ [start]).IsChain g.Edge)
    (hmem : ∀ x ∈ way, x ∈ members) :
    ∃ x ∈ queue, depth parents x ≤ depth parents v + way.length := by
  induction way generalizing v with
  | nil =>
      have hedge : g.Edge v start := by simpa using hway
      exact absurd rfl (h.closed v hv start hs hedge).1
  | cons w way ih =>
      obtain ⟨hvw, hrest⟩ := List.isChain_cons_cons.1 hway
      obtain ⟨_, hmet, hle⟩ := h.closed v hv w (hmem w (List.mem_cons_self ..)) hvw
      rw [List.length_cons]
      rcases List.mem_append.1 ((h.met_iff w).1 hmet) with hw | hw
      · obtain ⟨x, hx, hxle⟩ := ih hw hrest fun y hy => hmem y (List.mem_cons_of_mem w hy)
        exact ⟨x, hx, by omega⟩
      · exact ⟨w, hw, by omega⟩

/-- **Every cycle through the start passes the queue, and not before the depth of a node there.** -/
theorem Searching.exists_queued (h : g.Searching start members done queue parents)
    (hc : g.IsComponent members) (hs : start ∈ members)
    (hway : (start :: way ++ [start]).IsChain g.Edge) :
    ∃ x ∈ queue, depth parents x ≤ way.length := by
  have hdepth := h.tree.depth_start
  rcases List.mem_append.1 ((h.met_iff start).1 (Or.inl rfl)) with hdone | hqueue
  · obtain ⟨x, hx, hle⟩ :=
      h.exists_queued_of_done hs hdone hway fun y hy => hc.mem_of_isChain hs hway hy
    exact ⟨x, hx, by omega⟩
  · exact ⟨start, hqueue, by omega⟩

/-- **The search ends at a node with an edge to the start.** -/
theorem closing?_spec (hc : g.IsComponent members) (hs : start ∈ members)
    (hway : (start :: way ++ [start]).IsChain g.Edge) {bound : ℕ}
    (h : g.Searching start members done queue parents)
    (hbound : members.length ≤ done.length + bound) :
    ∃ last parents' done' queue',
      g.closing? start members bound queue parents = some (last, parents') ∧
      g.Edge last start ∧ g.Searching start members done' (last :: queue') parents' := by
  induction bound generalizing done queue parents with
  | zero =>
      -- all nodes are done, and the queue would hold one more
      exfalso
      obtain ⟨x, hx, _⟩ := h.exists_queued hc hs hway
      have hsub : done ++ queue ⊆ members := fun y hy => h.tree.mem_members hs ((h.met_iff y).2 hy)
      have hle := h.nodup.length_le_of_subset hsub
      have hpos := List.length_pos_of_mem hx
      rw [List.length_append] at hle
      omega
  | succ bound ih =>
      cases queue with
      | nil =>
          obtain ⟨x, hx, _⟩ := h.exists_queued hc hs hway
          simp at hx
      | cons v queue =>
          have hstep := expand_spec (g.successors v) h fun b hb => mem_successors.1 hb
          cases hexpand : expand start members v parents queue (g.successors v) with
          | closes parents' =>
              rw [hexpand] at hstep
              obtain ⟨hedge, queue', hsearch⟩ := hstep
              exact ⟨v, parents', done, queue', by rw [closing?, hexpand], hedge, hsearch⟩
          | grows parents' queue' =>
              rw [hexpand] at hstep
              obtain ⟨hsearch, _, hall⟩ := hstep
              rw [closing?, hexpand]
              refine ih (hsearch.next fun b hb hvb => hall b (mem_successors.2 hvb) hb) ?_
              rw [List.length_append, List.length_singleton]
              omega

/-- A node on a cycle has a way back to itself. -/
theorem exists_way (h : TransGen g.Edge v v) : ∃ way, (v :: way ++ [v]).IsChain g.Edge := by
  obtain ⟨last, hto, hback⟩ := TransGen.tail'_iff.1 h
  obtain ⟨way, hway, hlast⟩ := List.exists_isChain_cons_of_relationReflTransGen hto
  refine ⟨way, hway.append (List.isChain_singleton v) fun x hx y hy => ?_⟩
  obtain rfl : v = y := by simpa using hy
  rw [List.getLast?_eq_getLast_of_ne_nil (List.cons_ne_nil _ _), hlast] at hx
  exact Option.some.inj hx ▸ hback

/-- **A shortest cycle through the start is found**, and no parent is missing on the way back. -/
theorem shortestCycle_of_cycleThrough? (hc : g.IsComponent members) (hs : start ∈ members)
    (hcycle : TransGen g.Edge start start) :
    ∃ rest, g.cycleThrough? start members = some (start :: rest ++ [start]) ∧
      ShortestCycle g.Edge start rest := by
  obtain ⟨way, hway⟩ := exists_way hcycle
  obtain ⟨last, parents, done, queue, hclosing, hedge, h⟩ :=
    closing?_spec hc hs hway (g.searching_start start members) (Nat.le_add_left members.length 0)
  have hlast : Met start parents last := (h.met_iff last).2 (by simp)
  obtain ⟨back, hback, hwb⟩ := h.tree.walkBack? hlast (depth_le_length parents last)
  refine ⟨back.reverse, by rw [cycleThrough?, hclosing]; simp [hback], ?_, ?_, fun way hway => ?_⟩
  · -- the way back read forward, and the last edge
    have hforward : (start :: back.reverse).IsChain g.Edge := by
      have hrev : (back ++ [start]).reverse.IsChain g.Edge := List.isChain_reverse.2 hwb.chain
      simpa using hrev
    refine hforward.append (List.isChain_singleton start) fun x hx y hy => ?_
    obtain rfl : start = y := by simpa using hy
    have hhead : (start :: back.reverse).getLast? = some last := by
      rw [← hwb.head, ← List.getLast?_reverse]
      simp
    exact Option.some.inj (hhead.symm.trans hx) ▸ hedge
  · have hrev : (back ++ [start]).reverse.Nodup := List.nodup_reverse.2 hwb.nodup
    simpa using hrev
  · obtain ⟨x, hx, hle⟩ := h.exists_queued hc hs hway
    rw [List.length_reverse, hwb.length]
    exact (h.front_le hx).trans hle

end Digraph

end Rebuild
