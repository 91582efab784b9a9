/-
Placing nodes with and without counters.

The counters of `OrderGraph.order?` are brought up to date edge by edge, and one that would fall below
zero stays at zero.  So a node that is counted wrong could pass for ready.  Here the loop is followed
from one iteration to the next: where no hard edge is given twice, every counter is the number of
nodes that are still waited for, none is lowered at zero, and the loop finds what it would find if it
went through all edges again before each step.

Main definitions:

* `OrderGraph.targets` — where the hard edges out of a node lead;
* `OrderGraph.Reached` — what an iteration of the loop finds, with the set of the nodes placed before;
* `OrderGraph.readyAfresh`, `OrderGraph.nextAfresh?`, `OrderGraph.orderAfresh?` — the order without
  counters.

Main results:

* `OrderGraph.Reached.counted`, `OrderGraph.Reached.toFinset_placed` — what every iteration keeps;
* `OrderGraph.Counted.encard_sources` — **a counter is the number of nodes that are waited for**;
* `OrderGraph.Counted.pos_of_target` — **no counter is lowered at zero**;
* `OrderGraph.placeMore_eq_afresh` — **counting and looking afresh give one order**;
* `OrderGraph.counters_exact` — all of this, for every graph without doubled hard edges;
* `TaskGraph.nodup_hard_orderGraph` — the graph of planned tasks is one.
-/
import Rebuild.Proofs.TaskGraph.Resolve

set_option relaxedAutoImplicit false
set_option autoImplicit false

namespace Rebuild

namespace OrderGraph

variable {g : OrderGraph} {p : Progress} {n v w : ℕ} {done : Finset ℕ}

/-! ### The loop -/

/-- Where the hard edges out of a node lead. -/
def targets (g : OrderGraph) (v : ℕ) : List ℕ :=
  (g.hard.filter (·.1 == v)).map (·.2)

/-- The loop reaches its iteration `n` with this progress; each iteration adds the node that it places
to a set of its own.  The loop goes on while nodes are missing and one can be placed. -/
inductive Reached (g : OrderGraph) : ℕ → Finset ℕ → Progress → Prop
  | begin : Reached g 0 ∅ g.begin
  | step {n v : ℕ} {done : Finset ℕ} {p : Progress} (h : Reached g n done p)
      (hless : p.placed.length < g.size) (hv : g.next? p = some v) :
      Reached g (n + 1) (insert v done) (g.place p v)

theorem Counted.not_mem_placed_of_next? (h : g.Counted p) (hv : g.next? p = some v) :
    v ∉ p.placed :=
  (choice_of_next? h hv).ready.2.1

/-- The counters are true in every iteration. -/
theorem Reached.counted (h : g.Reached n done p) : g.Counted p := by
  induction h with
  | begin => exact counted_begin g
  | step _ _ hv ih => exact ih.place (ih.not_mem_placed_of_next? hv)

theorem Reached.nodup_placed (h : g.Reached n done p) : p.placed.Nodup := by
  induction h with
  | begin => exact List.nodup_nil
  | step h _ hv ih =>
      exact List.nodup_append.2 ⟨ih, List.nodup_singleton _, fun u hu w hw huw =>
        h.counted.not_mem_placed_of_next? hv (List.mem_singleton.1 hw ▸ huw ▸ hu)⟩

/-- The order lists the nodes that were placed. -/
theorem Reached.toFinset_placed (h : g.Reached n done p) : p.placed.toFinset = done := by
  induction h with
  | begin => rfl
  | step _ _ _ ih =>
      rw [place, List.toFinset_append, ih, Finset.insert_eq, Finset.union_comm]
      rfl

/-- Every iteration places one node. -/
theorem Reached.length_placed (h : g.Reached n done p) : p.placed.length = n := by
  induction h with
  | begin => rfl
  | step _ _ _ ih => rw [place, List.length_append, List.length_singleton, ih]

theorem Reached.le_size (h : g.Reached n done p) : n ≤ g.size := by
  cases h with
  | begin => exact Nat.zero_le _
  | step h hless _ =>
      rw [h.length_placed] at hless
      exact hless

/-- **The loop comes to an end**, and what it has found then is the order, or that there is none. -/
theorem Reached.ends {m : ℕ} (h : g.Reached n done p) (hm : n + m = g.size) :
    ∃ last all q, g.Reached last all q ∧
      ((q.placed.length = g.size ∧ g.placeMore m p = some q) ∨
        (q.placed.length < g.size ∧ g.next? q = none ∧ g.placeMore m p = none)) := by
  induction m generalizing n done p with
  | zero => exact ⟨n, done, p, h, Or.inl ⟨h.length_placed.trans hm, rfl⟩⟩
  | succ m ih =>
      have hless : p.placed.length < g.size := by
        rw [h.length_placed]
        omega
      cases hnext : g.next? p with
      | none => exact ⟨n, done, p, h, Or.inr ⟨hless, hnext, by rw [placeMore, hnext]⟩⟩
      | some v =>
          simp only [placeMore, hnext]
          exact ih (Reached.step h hless hnext) (by omega)

/-! ### What the counters count -/

theorem nodup_hardInto (h : g.hard.Nodup) (v : ℕ) : (g.hardInto v).Nodup := by
  refine (h.filter _).map_on fun e he e' he' heq => Prod.ext heq ?_
  rw [beq_iff_eq.1 (List.mem_filter.1 he).2, beq_iff_eq.1 (List.mem_filter.1 he').2]

theorem nodup_targets (h : g.hard.Nodup) (v : ℕ) : (g.targets v).Nodup := by
  refine (h.filter _).map_on fun e he e' he' heq => Prod.ext ?_ heq
  rw [beq_iff_eq.1 (List.mem_filter.1 he).2, beq_iff_eq.1 (List.mem_filter.1 he').2]

theorem mem_targets : w ∈ g.targets v ↔ g.Hard v w := by
  simp [targets, Hard]

/-- **A counter is the number of nodes that are waited for**, if no hard edge is given twice. -/
theorem Counted.encard_sources (hc : g.Counted p) (h : g.hard.Nodup) (hv : v < g.size) :
    {u | g.Hard u v ∧ u ∉ p.placed}.encard = p.waiting.getD v 0 := by
  have hset : {u | g.Hard u v ∧ u ∉ p.placed} =
      (((g.hardInto v).filter (· ∉ p.placed)).toFinset : Set ℕ) := by
    ext u
    simp [mem_hardInto]
  rw [hset, Set.encard_coe_eq_coe_finsetCard,
    List.toFinset_card_of_nodup ((nodup_hardInto h v).filter _), hc.waiting v hv,
    List.countP_eq_length_filter]

/-- A node that waits for one that is not placed has a counter above zero. -/
theorem Counted.pos_of_hard (hc : g.Counted p) (hw : w < g.size) (hvw : g.Hard v w)
    (hv : v ∉ p.placed) : 0 < p.waiting.getD w 0 := by
  rw [hc.waiting w hw, List.countP_pos_iff]
  exact ⟨v, mem_hardInto.2 hvw, by simpa using hv⟩

/-- **No counter is lowered at zero** while a node is placed, in whatever order its edges are gone
through. -/
theorem Counted.pos_of_target (hc : g.Counted p) (h : g.hard.Nodup) (hv : v ∉ p.placed)
    (hw : w < g.size) {before after : List ℕ} (hperm : (before ++ w :: after).Perm (g.targets v)) :
    0 < (before.foldl relax p.waiting).getD w 0 := by
  have hnodup : (before ++ w :: after).Nodup := hperm.nodup_iff.2 (nodup_targets h v)
  have hbefore : w ∉ before := fun hmem =>
    (List.nodup_append.1 hnodup).2.2 w hmem w (List.mem_cons_self ..) rfl
  have hvw : g.Hard v w := mem_targets.1 (hperm.mem_iff.1 (by simp))
  rw [getD_foldl_relax, List.count_eq_zero_of_not_mem hbefore, Nat.sub_zero]
  exact hc.pos_of_hard hw hvw hv

/-- **A node that needs itself is never ready.** -/
theorem Counted.not_mem_ready_self (hc : g.Counted p) (hv : g.Hard v v) : v ∉ g.ready p := by
  intro hready
  obtain ⟨_, hnot, hneeds⟩ := (mem_ready hc).1 hready
  exact hnot (hneeds v hv)

/-! ### Without counters -/

/-- The nodes that are not placed, while all that they need is, in increasing order. -/
def readyAfresh (g : OrderGraph) (placed : List ℕ) : List ℕ :=
  (List.range g.size).filter fun v => v ∉ placed ∧ ∀ e ∈ g.hard, e.2 = v → e.1 ∈ placed

/-- The first of the ready nodes whose soft edges come from placed nodes, or else the first of all. -/
def nextAfresh? (g : OrderGraph) (placed : List ℕ) : Option ℕ :=
  ((g.readyAfresh placed).find? fun v => ∀ e ∈ g.soft, e.2 = v → e.1 ∈ placed).or
    (g.readyAfresh placed).head?

/-- Places nodes until none is missing, or none is ready. -/
def orderAfresh? (g : OrderGraph) (placed : List ℕ) : Option (List ℕ) :=
  if placed.length < g.size then
    match g.nextAfresh? placed with
    | none => none
    | some v => g.orderAfresh? (placed ++ [v])
  else some placed
termination_by g.size - placed.length
decreasing_by
  rw [List.length_append, List.length_singleton]
  omega

/-- Counters show the nodes that are ready. -/
theorem Counted.ready_eq_afresh (hc : g.Counted p) : g.ready p = g.readyAfresh p.placed := by
  refine List.filter_congr fun v hv => Bool.eq_iff_iff.2 ?_
  have hready : v ∈ g.ready p ↔ g.Ready p.placed v := mem_ready hc
  rw [ready, List.mem_filter, and_iff_right hv, Ready, and_iff_right (List.mem_range.1 hv)] at hready
  rw [hready, decide_eq_true_eq]
  exact and_congr_right fun _ =>
    ⟨fun hneeds e he heq => hneeds e.1 (heq ▸ he), fun hneeds u hu => hneeds (u, v) hu rfl⟩

theorem softDone_eq (g : OrderGraph) (p : Progress) :
    g.softDone p = fun v => decide (∀ e ∈ g.soft, e.2 = v → e.1 ∈ p.placed) := by
  funext v
  refine Bool.eq_iff_iff.2 ?_
  rw [softDone_iff, decide_eq_true_eq]
  exact ⟨fun hdone e he heq => hdone e.1 (heq ▸ he), fun hdone u hu => hdone (u, v) hu rfl⟩

theorem Counted.next?_eq_afresh (hc : g.Counted p) : g.next? p = g.nextAfresh? p.placed := by
  rw [next?, nextAfresh?, ← hc.ready_eq_afresh, ← softDone_eq]
  cases g.ready p with
  | nil => rfl
  | cons first rest =>
      dsimp only
      cases (first :: rest).find? (g.softDone p) <;> rfl

/-- **Counting and looking afresh give one order.** -/
theorem placeMore_eq_afresh (hc : g.Counted p) (hn : n + p.placed.length = g.size) :
    (g.placeMore n p).map Progress.placed = g.orderAfresh? p.placed := by
  induction n generalizing p with
  | zero =>
      rw [orderAfresh?, if_neg (by omega)]
      rfl
  | succ n ih =>
      rw [orderAfresh?, if_pos (by omega), placeMore, ← hc.next?_eq_afresh]
      cases hnext : g.next? p with
      | none => rfl
      | some v =>
          refine ih (hc.place (hc.not_mem_placed_of_next? hnext)) ?_
          rw [place, List.length_append, List.length_singleton]
          omega

/-- **The counters are exact**, in every graph where no hard edge is given twice.  In each iteration
the order lists the nodes placed so far, each once; every counter is the number of nodes that are waited
for; none is lowered at zero; and a node that needs itself is not ready.  There are at most as many
iterations as nodes, and the loop ends with the order, or with none.  It is the order that is found
without counters. -/
theorem counters_exact (g : OrderGraph) (h : g.hard.Nodup) :
    (∀ n done p, g.Reached n done p →
      (p.placed.Nodup ∧ p.placed.toFinset = done ∧ p.placed.length = n ∧ n ≤ g.size) ∧
      (∀ v < g.size, {u | g.Hard u v ∧ u ∉ done}.encard = p.waiting.getD v 0) ∧
      (∀ v, g.next? p = some v → ∀ w < g.size, ∀ before after : List ℕ,
        (before ++ w :: after).Perm (g.targets v) →
          0 < (before.foldl relax p.waiting).getD w 0) ∧
      ∀ v, g.Hard v v → v ∉ g.ready p) ∧
    (∃ n done p, g.Reached n done p ∧
      ((p.placed.length = g.size ∧ g.order? = some p.placed) ∨
        (p.placed.length < g.size ∧ g.next? p = none ∧ g.order? = none))) ∧
    g.order? = g.orderAfresh? [] := by
  refine ⟨fun n done p hp => ⟨⟨hp.nodup_placed, hp.toFinset_placed, hp.length_placed, hp.le_size⟩,
    fun v hv => ?_, fun v hv w hw before after hperm => ?_, fun v hv => ?_⟩, ?_, ?_⟩
  · simp only [← hp.toFinset_placed, List.mem_toFinset]
    exact hp.counted.encard_sources h hv
  · exact hp.counted.pos_of_target h (hp.counted.not_mem_placed_of_next? hv) hw hperm
  · exact hp.counted.not_mem_ready_self hv
  · obtain ⟨n, done, p, hp, ⟨hall, heq⟩ | ⟨hless, hnone, heq⟩⟩ := Reached.begin.ends (Nat.zero_add g.size)
    · exact ⟨n, done, p, hp, Or.inl ⟨hall, by rw [order?, heq, Option.map_some]⟩⟩
    · exact ⟨n, done, p, hp, Or.inr ⟨hless, hnone, by rw [order?, heq, Option.map_none]⟩⟩
  · exact placeMore_eq_afresh (counted_begin g) (Nat.add_zero g.size)

end OrderGraph

namespace TaskGraph

variable {tasks : List Task}

/-- Names that are given once lead to edges that are given once. -/
theorem nodup_edgesBy {names : Task → List String} (hnames : ∀ t, (names t).Nodup) :
    (edgesBy tasks names).Nodup := by
  have hname : ∀ {n : String} {u : ℕ}, nodeOf? tasks n = some u →
      ∃ t, tasks[u]? = some t ∧ t.name = n := by
    intro n u hu
    obtain ⟨hlt, hbeq, _⟩ := List.findIdx?_eq_some_iff_getElem.1 hu
    exact ⟨_, List.getElem?_eq_getElem hlt, beq_iff_eq.1 hbeq⟩
  refine List.nodup_flatMap.2 ⟨fun (t, v) _ => (hnames t).filterMap ?_, ?_⟩
  · -- the edges into one task come from different tasks
    intro m n e hm hn
    obtain ⟨u, hu, rfl⟩ := Option.map_eq_some_iff.1 hm
    obtain ⟨w, hw, heq⟩ := Option.map_eq_some_iff.1 hn
    obtain rfl : w = u := congrArg Prod.fst heq
    obtain ⟨t, ht, rfl⟩ := hname hu
    obtain ⟨t', ht', rfl⟩ := hname hw
    rw [Option.some.inj (ht.symm.trans ht')]
  · -- the edges of two tasks lead to different places
    have hplaces : tasks.zipIdx.Pairwise fun x y => x.2 ≠ y.2 :=
      List.pairwise_map.1 (List.nodup_zipIdx_map_snd tasks)
    refine hplaces.imp fun hne e he he' => hne ?_
    obtain ⟨_, _, he⟩ := List.mem_filterMap.1 he
    obtain ⟨_, _, he'⟩ := List.mem_filterMap.1 he'
    obtain ⟨u, _, rfl⟩ := Option.map_eq_some_iff.1 he
    obtain ⟨w, _, heq⟩ := Option.map_eq_some_iff.1 he'
    exact (congrArg Prod.snd heq).symm

/-- **No hard edge between planned tasks is given twice.** -/
theorem nodup_hard_orderGraph (tasks : List Task) : (orderGraph tasks).hard.Nodup :=
  nodup_edgesBy fun t => t.dependsOn.sorted.imp fun hlt => ne_of_lt hlt

/-- Two tasks that want to follow each other, one of which requires the other as well, and a task that
requires itself. -/
def mixed : List Task :=
  [((Task.free "late" (.compile "late")).requiring "early").following "early",
    (Task.free "early" (.compile "early")).following "late",
    (Task.free "self" (.compile "self")).requiring "self"]

/-- The loop stops at the task that requires itself. -/
theorem mixed_counters_exact :
    (orderGraph mixed).hard.Nodup ∧
    {u | (orderGraph mixed).Hard u 2 ∧ u ∉ (∅ : Finset ℕ)}.encard = (1 : ℕ) ∧
    (∃ n done p, (orderGraph mixed).Reached n done p ∧ p.placed.length < (orderGraph mixed).size ∧
      (orderGraph mixed).next? p = none ∧ 2 ∉ (orderGraph mixed).ready p) ∧
    (orderGraph mixed).orderAfresh? [] = none := by
  have hnone : (orderGraph mixed).order? = none := by decide
  have hself : (orderGraph mixed).Hard 2 2 := by
    unfold OrderGraph.Hard
    decide
  obtain ⟨hevery, ⟨n, done, p, hp, hend⟩, hsame⟩ :=
    OrderGraph.counters_exact (orderGraph mixed) (nodup_hard_orderGraph mixed)
  obtain ⟨_, hcount, _⟩ := hevery 0 ∅ _ OrderGraph.Reached.begin
  obtain ⟨_, _, _, hnever⟩ := hevery n done p hp
  refine ⟨nodup_hard_orderGraph mixed, hcount 2 (by decide), ⟨n, done, p, hp, ?_⟩,
    hsame.symm.trans hnone⟩
  rcases hend with ⟨_, hsome⟩ | ⟨hless, hstuck, _⟩
  · cases hnone.symm.trans hsome
  · exact ⟨hless, hstuck, hnever 2 hself⟩

end TaskGraph

end Rebuild
