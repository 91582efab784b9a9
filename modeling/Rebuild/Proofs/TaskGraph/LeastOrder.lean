/-
The order of a plan is the least one.

Where hard and soft edges together have no cycle, some node is always free, so a run never falls back
on a node that is only ready.  It then places the least free node each time, and no other order that
respects all edges comes before it, position by position.

Main definitions:

* `OrderGraph.Edge`, `TaskGraph.Precedes` — hard and soft edges together, of nodes and of tasks;
* `TaskGraph.IsSchedule` — an order of the wanted tasks that respects both kinds of edges;
* `TaskGraph.RegisteredBefore` — the order of registration;
* `TaskGraph.Alike` — tasks that differ in nothing that a selection can notice.

Main results:

* `OrderGraph.exists_free`, `OrderGraph.Run.free_at` — **without cycles every choice is free**;
* `OrderGraph.Run.lex_least` — no list of free nodes comes before a run;
* `OrderGraph.Run.mem_of_lt`, `TaskGraph.mem_before_of_registered` — **ties are broken by
  registration**: a task stands before another if all that leads to it was registered before that;
* `TaskGraph.resolve_least` — **the resolved order is the least schedule**, and names after which a
  task runs have no influence if they are not planned or are its own.
-/
import Rebuild.Proofs.TaskGraph.Resolve

set_option relaxedAutoImplicit false
set_option autoImplicit false

namespace Rebuild

open Relation

/-! ### Runs without fallback -/

namespace OrderGraph

variable {g : OrderGraph} {placed rest : List ℕ} {u v : ℕ}

/-- The second node has to follow the first, or would rather do so. -/
def Edge (g : OrderGraph) (u v : ℕ) : Prop := g.Hard u v ∨ g.Soft u v

theorem Bounded.edge (hb : g.Bounded) (h : g.Edge u v) : u < g.size := by
  rcases h with h | h
  · exact (hb.hard h).1
  · exact (hb.soft h).1

/-- What leads to a node is a node. -/
theorem Bounded.lt_of_reflTransGen (hb : g.Bounded) (hv : v < g.size)
    (h : ReflTransGen g.Edge u v) : u < g.size := by
  rcases ReflTransGen.cases_head h with rfl | ⟨w, huw, _⟩
  · exact hv
  · exact hb.edge huw

theorem free_iff_edge : g.Free placed v ↔
    v < g.size ∧ v ∉ placed ∧ ∀ u, g.Edge u v → u ∈ placed := by
  unfold Free Ready Edge
  constructor
  · rintro ⟨⟨hv, hn, hhard⟩, hsoft⟩
    exact ⟨hv, hn, fun u hu => hu.elim (hhard u) (hsoft u)⟩
  · rintro ⟨hv, hn, hedge⟩
    exact ⟨⟨hv, hn, fun u hu => hedge u (Or.inl hu)⟩, fun u hu => hedge u (Or.inr hu)⟩

/-- If nothing is free while a node is left, those left hold a cycle. -/
theorem exists_cycle_of_not_free (hb : g.Bounded) (hv : v < g.size) (hn : v ∉ placed)
    (hno : ∀ u, ¬ g.Free placed u) :
    ∃ w < g.size, w ∉ placed ∧
      TransGen (fun a b => g.Edge a b ∧ a ∉ placed ∧ b ∉ placed) w w := by
  refine exists_cycle_of_stuck hb.edge hv hn fun w hw hwn => ?_
  by_contra hnone
  refine hno w (free_iff_edge.2 ⟨hw, hwn, fun u hu => ?_⟩)
  by_contra hun
  exact hnone ⟨u, hu, hun⟩

/-- While a node is left, one of those left is free. -/
theorem exists_free (hb : g.Bounded) (hacyclic : ∀ v, ¬ TransGen g.Edge v v) (hv : v < g.size)
    (hn : v ∉ placed) : ∃ u, g.Free placed u := by
  by_contra hno
  obtain ⟨w, _, _, hcycle⟩ := exists_cycle_of_not_free hb hv hn fun u hu => hno ⟨u, hu⟩
  exact hacyclic w (TransGen.mono (fun _ _ h => h.1) _ _ hcycle)

/-- **Without cycles every node of a run is free when it is placed.** -/
theorem Run.free_at (hb : g.Bounded) (hacyclic : ∀ v, ¬ TransGen g.Edge v v)
    (h : g.Run placed rest) {before after : List ℕ} (heq : rest = before ++ v :: after) :
    g.Free (placed ++ before) v := by
  have hchoice := h.choice_at heq
  obtain ⟨u, hu⟩ := exists_free hb hacyclic hchoice.ready.1 hchoice.ready.2.1
  exact (hchoice.free u hu).1

/-- **A node stands before another one if all that leads to it has smaller numbers than the other.** -/
theorem Run.mem_of_lt (hb : g.Bounded) (hacyclic : ∀ v, ¬ TransGen g.Edge v v)
    (h : g.Run placed rest) {before after : List ℕ} (heq : rest = before ++ v :: after)
    (hu : u < g.size) (hlt : ∀ w, ReflTransGen g.Edge w u → w < v) : u ∈ placed ++ before := by
  by_contra hnot
  -- of what leads to `u` and is not placed, none can be free: it would be placed instead of `v`
  let waiting : Set ℕ := {w | ReflTransGen g.Edge w u ∧ w ∉ placed ++ before}
  have hfin : waiting.Finite := (Set.finite_lt_nat v).subset fun w hw => hlt w hw.1
  have hback : ∀ w ∈ waiting, ∃ x ∈ waiting, g.Edge x w := by
    rintro w ⟨hwu, hw⟩
    by_contra hnone
    have hfree : g.Free (placed ++ before) w := by
      refine free_iff_edge.2 ⟨hb.lt_of_reflTransGen hu hwu, hw, fun x hx => ?_⟩
      by_contra hxn
      exact hnone ⟨x, ⟨ReflTransGen.head hx hwu, hxn⟩, hx⟩
    have hle := ((h.choice_at heq).free w hfree).2
    exact absurd (hlt w hwu) (Nat.not_lt.2 hle)
  obtain ⟨w, _, hcycle⟩ :=
    exists_cycle_of_backward g.Edge waiting hfin ⟨u, ReflTransGen.refl, hnot⟩ hback
  exact hacyclic w (TransGen.mono (fun _ _ hstep => hstep.1) _ _ hcycle)

/-- **No other list of free nodes comes before a run.** -/
theorem Run.lex_least (h : g.Run placed rest) {other : List ℕ}
    (hfree : ∀ before v after, other = before ++ v :: after → g.Free (placed ++ before) v)
    (hlen : other.length = rest.length) : rest = other ∨ List.Lex (· < ·) rest other := by
  induction h generalizing other with
  | done => exact Or.inl (List.length_eq_zero_iff.1 hlen).symm
  | @step placed rest v hv _ ih =>
      cases other with
      | nil => simp at hlen
      | cons w ws =>
          have hw : g.Free placed w := by simpa using hfree [] w ws rfl
          -- the run takes the least free node, so the lists part here or go on together
          rcases Nat.lt_or_eq_of_le (hv.free w hw).2 with hlt | rfl
          · exact Or.inr (List.Lex.rel hlt)
          · have hrest : rest = ws ∨ List.Lex (· < ·) rest ws := by
              refine ih (fun before u after heq => ?_) (by simpa using hlen)
              simpa using hfree (v :: before) u after (by rw [heq]; rfl)
            rcases hrest with rfl | hlex
            · exact Or.inl rfl
            · exact Or.inr (List.Lex.cons hlex)

end OrderGraph

/-! ### Schedules of tasks -/

namespace TaskGraph

variable {g g' : TaskGraph} {selected : List String} {tasks tasks' order : List Task}

/-- `a` is the name of a registered task that runs after `b` if both are planned. -/
def Follows (g : TaskGraph) (a b : String) : Prop :=
  ∃ t ∈ g.tasks, t.name = a ∧ b ∈ t.runsAfter

/-- Of two wanted tasks the second requires the first, or follows it and is another one. -/
def Precedes (g : TaskGraph) (selected : List String) (a b : String) : Prop :=
  g.Wanted selected b ∧ (g.Requires b a ∨ (g.Follows b a ∧ a ≠ b ∧ g.Wanted selected a))

theorem Precedes.wanted {a b : String} (h : g.Precedes selected a b) :
    g.Wanted selected a ∧ g.Wanted selected b := by
  obtain ⟨hb, hreq | ⟨_, _, ha⟩⟩ := h
  · exact ⟨hb.tail hreq, hb⟩
  · exact ⟨ha, hb⟩

/-- An order of the wanted tasks in which each is behind all that it requires, and behind the other
wanted tasks that it follows. -/
structure IsSchedule (g : TaskGraph) (selected : List String) (order : List Task) : Prop
    extends g.IsHardOrder selected order where
  follows : ∀ before t after, order = before ++ t :: after →
    ∀ n ∈ t.runsAfter, n ≠ t.name → g.Wanted selected n → ∃ s ∈ before, s.name = n

/-- The first task was registered earlier. -/
def RegisteredBefore (g : TaskGraph) (a b : Task) : Prop :=
  ∃ i j, g.position? a.name = some i ∧ g.position? b.name = some j ∧ i < j

/-- **No cycle of requirements and soft order among the wanted tasks.** -/
def Orderable (g : TaskGraph) (selected : List String) : Prop :=
  ∀ n, ¬ TransGen (g.Precedes selected) n n

theorem Orderable.acyclic (h : g.Orderable selected) : g.Acyclic selected := by
  intro n hw hcycle
  refine h n (TransGen.mono ?_ _ _ (hw.needed hcycle))
  rintro b a ⟨ha, hab⟩
  exact ⟨ha, Or.inl hab⟩

/-- An edge between planned nodes says that one task precedes the other. -/
theorem precedes_of_edge (h : g.planned selected = .ok tasks) {u v : ℕ}
    (he : (orderGraph tasks).Edge u v) :
    ∃ s t, tasks[u]? = some s ∧ tasks[v]? = some t ∧ g.Precedes selected s.name t.name := by
  have hn := nodup_of_planned h
  rcases he with he | he
  · obtain ⟨s, t, hs, ht, hd⟩ := (hard_iff hn).1 he
    obtain ⟨htg, hw⟩ := (mem_planned h).1 (List.mem_of_getElem? ht)
    exact ⟨s, t, hs, ht, hw, Or.inl (requires_of_mem htg hd)⟩
  · obtain ⟨hne, s, t, hs, ht, hd⟩ := (soft_iff hn).1 he
    obtain ⟨htg, hw⟩ := (mem_planned h).1 (List.mem_of_getElem? ht)
    obtain ⟨_, hsw⟩ := (mem_planned h).1 (List.mem_of_getElem? hs)
    have hname : s.name ≠ t.name := fun hname => hne (Keyed.index_eq_of_key_eq hn hs ht hname)
    exact ⟨s, t, hs, ht, hw, Or.inr ⟨⟨t, htg, rfl, hd⟩, hname, hsw⟩⟩

theorem not_edge_cycle (h : g.planned selected = .ok tasks) (ho : g.Orderable selected) (v : ℕ) :
    ¬ TransGen (orderGraph tasks).Edge v v := by
  intro hcycle
  obtain ⟨w, hvw, _⟩ := TransGen.head'_iff.1 hcycle
  obtain ⟨s, _, hs, _⟩ := precedes_of_edge h hvw
  exact ho s.name (Keyed.transGen_key (precedes_of_edge h) hcycle hs hs)

/-- What is planned was registered in that order. -/
theorem registered_pairwise (h : g.planned selected = .ok tasks) :
    tasks.Pairwise g.RegisteredBefore := by
  classical
  obtain ⟨_, rfl⟩ := planned_ok h
  refine List.Pairwise.sublist List.filter_sublist (List.pairwise_iff_getElem.2 ?_)
  intro i j hi hj hij
  exact ⟨i, j, (Keyed.findIdx?_eq_some_iff g.names_nodup).2 ⟨_, List.getElem?_eq_getElem hi, rfl⟩,
    (Keyed.findIdx?_eq_some_iff g.names_nodup).2 ⟨_, List.getElem?_eq_getElem hj, rfl⟩, hij⟩

theorem atNodes_cons {v : ℕ} {nodes : List ℕ} (hv : v < tasks.length) :
    atNodes tasks (v :: nodes) = tasks[v] :: atNodes tasks nodes :=
  List.filterMap_cons_some (List.getElem?_eq_getElem hv)

/-- Comparing nodes compares tasks. -/
theorem lex_atNodes {r : Task → Task → Prop} (hr : tasks.Pairwise r) {nodes others : List ℕ}
    (hlex : List.Lex (· < ·) nodes others) (hnodes : ∀ v ∈ nodes, v < tasks.length)
    (hothers : ∀ v ∈ others, v < tasks.length) :
    List.Lex r (atNodes tasks nodes) (atNodes tasks others) := by
  induction hlex with
  | nil =>
      rw [atNodes_cons (hothers _ (by simp))]
      exact List.Lex.nil
  | rel hlt =>
      rw [atNodes_cons (hnodes _ (List.mem_cons_self ..)),
        atNodes_cons (hothers _ (List.mem_cons_self ..))]
      exact List.Lex.rel (List.pairwise_iff_getElem.1 hr _ _ _ _ hlt)
  | cons _ ih =>
      rw [atNodes_cons (hnodes _ (List.mem_cons_self ..)),
        atNodes_cons (hothers _ (List.mem_cons_self ..))]
      exact List.Lex.cons (ih (fun v hv => hnodes v (by simp [hv]))
        fun v hv => hothers v (by simp [hv]))

/-! ### Tasks of a schedule as nodes -/

/-- The nodes of tasks. -/
def nodesOf (tasks other : List Task) : List ℕ := other.map tasks.idxOf

theorem atNodes_nodesOf {other : List Task} (h : ∀ t ∈ other, t ∈ tasks) :
    atNodes tasks (nodesOf tasks other) = other := by
  induction other with
  | nil => rfl
  | cons t ts ih =>
      have ht : t ∈ tasks := h t (by simp)
      rw [nodesOf, List.map_cons, atNodes_cons (List.idxOf_lt_length_of_mem ht), List.getElem_idxOf]
      exact congrArg (t :: ·) (ih fun u hu => h u (by simp [hu]))

/-- Every node of a schedule is free when it is its turn. -/
theorem IsSchedule.free_at (h : g.planned selected = .ok tasks) {other : List Task}
    (hs : g.IsSchedule selected other) {before after : List ℕ} {v : ℕ}
    (heq : nodesOf tasks other = before ++ v :: after) : (orderGraph tasks).Free before v := by
  have hn := nodup_of_planned h
  have hmem : ∀ t, t ∈ other ↔ t ∈ tasks := fun t => (hs.mem t).trans (mem_planned h).symm
  obtain ⟨tb, rest, rfl, rfl, hrest⟩ := List.map_eq_append_iff.1 heq
  obtain ⟨t, ta, rfl, rfl, _⟩ := List.map_eq_cons_iff.1 hrest
  have ht : t ∈ tasks := (hmem t).1 (by simp)
  have hget : tasks[tasks.idxOf t]? = some t := List.getElem?_idxOf ht
  -- a planned task whose name stands before `t` has its node there
  have hnode : ∀ {u : ℕ} {s : Task}, tasks[u]? = some s → (∃ r ∈ tb, r.name = s.name) →
      u ∈ tb.map tasks.idxOf := by
    rintro u s hu ⟨r, hr, hname⟩
    have hrt : r ∈ tasks := (hmem r).1 (by simp [hr])
    exact List.mem_map.2 ⟨r, hr, Keyed.index_eq_of_key_eq hn (List.getElem?_idxOf hrt) hu hname⟩
  refine OrderGraph.free_iff_edge.2 ⟨List.idxOf_lt_length_of_mem ht, fun hin => ?_, fun u hu => ?_⟩
  · obtain ⟨r, hr, hidx⟩ := List.mem_map.1 hin
    have hrt : r ∈ tasks := (hmem r).1 (by simp [hr])
    have hrt' : r = t := (List.idxOf_inj hrt).1 hidx
    exact (List.nodup_append.1 hs.nodup).2.2 r hr t (by simp) hrt'
  · rcases hu with hu | hu
    · obtain ⟨s, t', hs', ht', hd⟩ := (hard_iff hn).1 hu
      obtain rfl : t = t' := Option.some.inj (hget.symm.trans ht')
      exact hnode hs' (hs.after tb t ta rfl s.name hd)
    · obtain ⟨hne, s, t', hs', ht', hd⟩ := (soft_iff hn).1 hu
      obtain rfl : t = t' := Option.some.inj (hget.symm.trans ht')
      have hsw := ((mem_planned h).1 (List.mem_of_getElem? hs')).2
      have hname : s.name ≠ t.name := fun hname => hne (Keyed.index_eq_of_key_eq hn hs' hget hname)
      exact hnode hs' (hs.follows tb t ta rfl s.name hd hname hsw)

/-- Where nothing is circular, the resolved order respects soft order too. -/
theorem isSchedule_of_resolve (ho : g.Orderable selected) (h : g.resolve selected = .ok order) :
    g.IsSchedule selected order := by
  obtain ⟨tasks, hp, ha⟩ := planned_of_resolve h
  have hn := nodup_of_planned hp
  refine ⟨isHardOrder_of_resolve h, fun before t after heq n hr hne hw => ?_⟩
  obtain ⟨nodes, hnodes, rfl⟩ := arrange_ok ha
  obtain ⟨hrun, _⟩ := OrderGraph.order?_some hnodes
  obtain ⟨nb, v, na, hsplit, hv, rfl, _⟩ := atNodes_split heq
  obtain ⟨s, hs, rfl⟩ := exists_planned hp hw
  obtain ⟨u, hu⟩ := List.mem_iff_getElem?.1 hs
  have hsoft : (orderGraph tasks).Soft u v := by
    refine (soft_iff hn).2 ⟨fun huv => hne ?_, s, t, hu, hv, hr⟩
    rw [Option.some.inj (hu.symm.trans (huv ▸ hv))]
  have hfree := hrun.free_at (bounded_orderGraph hn) (not_edge_cycle hp ho) hsplit
  exact ⟨s, mem_atNodes.2 ⟨u, by simpa using hfree.2 u hsoft, hu⟩, rfl⟩

/-- The numbers of planned tasks grow in the order of registration. -/
theorem lt_of_registeredBefore (h : g.planned selected = .ok tasks) {u v : ℕ} {s t : Task}
    (hs : tasks[u]? = some s) (ht : tasks[v]? = some t) (hst : g.RegisteredBefore s t) : u < v := by
  obtain ⟨i, j, hi, hj, hij⟩ := hst
  by_contra hnot
  rcases Nat.lt_or_eq_of_le (Nat.not_lt.1 hnot) with hvu | rfl
  · obtain ⟨hu, rfl⟩ := List.getElem?_eq_some_iff.1 hs
    obtain ⟨hv, rfl⟩ := List.getElem?_eq_some_iff.1 ht
    obtain ⟨j', i', hj', hi', hji⟩ :=
      List.pairwise_iff_getElem.1 (registered_pairwise h) v u hv hu hvu
    obtain rfl := Option.some.inj (hi.symm.trans hi')
    obtain rfl := Option.some.inj (hj.symm.trans hj')
    omega
  · obtain rfl := Option.some.inj (hs.symm.trans ht)
    obtain rfl := Option.some.inj (hi.symm.trans hj)
    omega

/-- **A task stands before another one if all that leads to it was registered before the other.** -/
theorem mem_before_of_registered (ho : g.Orderable selected) (h : g.resolve selected = .ok order)
    {before after : List Task} {s t : Task} (heq : order = before ++ t :: after) (hs : s ∈ order)
    (hreg : ∀ r ∈ order, ReflTransGen (g.Precedes selected) r.name s.name → g.RegisteredBefore r t) :
    s ∈ before := by
  obtain ⟨tasks, hp, ha⟩ := planned_of_resolve h
  have hbounded := bounded_orderGraph (nodup_of_planned hp)
  obtain ⟨nodes, hnodes, rfl⟩ := arrange_ok ha
  obtain ⟨hrun, hperm⟩ := OrderGraph.order?_some hnodes
  obtain ⟨nb, v, na, hsplit, hv, rfl, _⟩ := atNodes_split heq
  obtain ⟨u, _, hu⟩ := mem_atNodes.1 hs
  have hlt : u < (orderGraph tasks).size := (List.getElem?_eq_some_iff.1 hu).1
  -- a node that leads to that of `s` has a task that leads to `s`
  have hsmaller : ∀ w, ReflTransGen (orderGraph tasks).Edge w u → w < v := by
    intro w hwu
    have hw : w < (orderGraph tasks).size := hbounded.lt_of_reflTransGen hlt hwu
    have hget : tasks[w]? = some tasks[w] := List.getElem?_eq_getElem hw
    have hmem : tasks[w] ∈ atNodes tasks nodes :=
      mem_atNodes.2 ⟨w, hperm.mem_iff.2 (List.mem_range.2 hw), hget⟩
    have hpath : ReflTransGen (g.Precedes selected) tasks[w].name s.name := by
      rcases reflTransGen_iff_eq_or_transGen.1 hwu with rfl | htrans
      · rw [Option.some.inj (hu.symm.trans hget)]
      · exact (Keyed.transGen_key (precedes_of_edge hp) htrans hget hu).to_reflTransGen
    exact lt_of_registeredBefore hp hget hv (hreg _ hmem hpath)
  have hplaced := hrun.mem_of_lt hbounded (not_edge_cycle hp ho) hsplit hlt hsmaller
  exact mem_atNodes.2 ⟨u, by simpa using hplaced, hu⟩

/-- **No other schedule comes before the resolved order.** -/
theorem lex_of_resolve (h : g.resolve selected = .ok order) {other : List Task}
    (hs : g.IsSchedule selected other) :
    order = other ∨ List.Lex g.RegisteredBefore order other := by
  obtain ⟨tasks, hp, ha⟩ := planned_of_resolve h
  have hn := nodup_of_planned hp
  obtain ⟨nodes, hnodes, rfl⟩ := arrange_ok ha
  obtain ⟨hrun, hperm⟩ := OrderGraph.order?_some hnodes
  have hmem : ∀ t ∈ other, t ∈ tasks := fun t ht => (mem_planned hp).2 ((hs.mem t).1 ht)
  have hlen : (nodesOf tasks other).length = nodes.length := by
    have hother : other.Perm tasks := by
      refine (List.perm_ext_iff_of_nodup hs.nodup hn.of_map).2 fun t => ?_
      rw [hs.mem t, mem_planned hp]
    rw [nodesOf, List.length_map, hother.length_eq, hperm.length_eq, List.length_range]
    rfl
  have hless := hrun.lex_least (fun before v after heq => by simpa using hs.free_at hp heq) hlen
  rcases hless with heq | hlex
  · left
    rw [heq, atNodes_nodesOf hmem]
  · right
    have hbound : ∀ v ∈ nodesOf tasks other, v < tasks.length := by
      intro v hv
      obtain ⟨t, ht, rfl⟩ := List.mem_map.1 hv
      exact List.idxOf_lt_length_of_mem (hmem t ht)
    have hlt := lex_atNodes (registered_pairwise hp) hlex (fun v hv => hrun.lt_size hv) hbound
    rwa [atNodes_nodesOf hmem] at hlt

/-! ### Names without influence -/

/-- Tasks that differ only in their actions and in what they follow that is not wanted or is
themselves. -/
structure Alike (g : TaskGraph) (selected : List String) (t t' : Task) : Prop where
  name : t'.name = t.name
  dependsOn : t'.dependsOn = t.dependsOn
  runsAfter : ∀ n, n ≠ t.name → g.Wanted selected n → (n ∈ t'.runsAfter ↔ n ∈ t.runsAfter)

theorem requires_iff_of_alike (h : List.Forall₂ (g.Alike selected) g.tasks g'.tasks) (a b : String) :
    g'.Requires a b ↔ g.Requires a b := by
  constructor
  · rintro ⟨t', ht', rfl, hd⟩
    obtain ⟨i, hi, rfl⟩ := List.mem_iff_getElem.1 ht'
    have hal := h.get (h.length_eq ▸ hi) hi
    exact ⟨_, List.getElem_mem (h.length_eq ▸ hi), hal.name.symm, hal.dependsOn ▸ hd⟩
  · rintro ⟨t, ht, rfl, hd⟩
    obtain ⟨i, hi, rfl⟩ := List.mem_iff_getElem.1 ht
    have hal := h.get hi (h.length_eq ▸ hi)
    exact ⟨_, List.getElem_mem (h.length_eq ▸ hi), hal.name, hal.dependsOn.symm ▸ hd⟩

theorem wanted_iff_of_alike (h : List.Forall₂ (g.Alike selected) g.tasks g'.tasks) (n : String) :
    g'.Wanted selected n ↔ g.Wanted selected n := by
  have heq : g'.Requires = g.Requires := by
    funext a b
    exact propext (requires_iff_of_alike h a b)
  rw [Wanted, Wanted, heq]

theorem closed_of_alike (h : List.Forall₂ (g.Alike selected) g.tasks g'.tasks)
    (hclosed : g.Closed selected) : g'.Closed selected := by
  intro n hn
  obtain ⟨t, ht, rfl⟩ := mem_names.1 (hclosed n ((wanted_iff_of_alike h n).1 hn))
  obtain ⟨i, hi, rfl⟩ := List.mem_iff_getElem.1 ht
  exact mem_names.2 ⟨_, List.getElem_mem (h.length_eq ▸ hi), (h.get hi (h.length_eq ▸ hi)).name⟩

theorem planned_alike (h : List.Forall₂ (g.Alike selected) g.tasks g'.tasks)
    (hp : g.planned selected = .ok tasks) (hp' : g'.planned selected = .ok tasks') :
    List.Forall₂ (g.Alike selected) tasks tasks' := by
  classical
  obtain ⟨_, rfl⟩ := planned_ok hp
  obtain ⟨_, rfl⟩ := planned_ok hp'
  refine List.rel_filter (fun t t' hal => ?_) h
  simp only [decide_eq_true_eq, hal.name, wanted_iff_of_alike h]

/-- Tasks at one place in two alike plans. -/
theorem alike_getElem? (h : List.Forall₂ (g.Alike selected) tasks tasks') {v : ℕ} {t t' : Task}
    (ht : tasks[v]? = some t) (ht' : tasks'[v]? = some t') : g.Alike selected t t' := by
  obtain ⟨hv, rfl⟩ := List.getElem?_eq_some_iff.1 ht
  obtain ⟨hv', rfl⟩ := List.getElem?_eq_some_iff.1 ht'
  exact h.get hv hv'

theorem exists_getElem?_of_length_eq {α β : Type} {l : List α} {l' : List β}
    (h : l.length = l'.length) {v : ℕ} {t : α} (ht : l[v]? = some t) : ∃ t', l'[v]? = some t' :=
  ⟨_, List.getElem?_eq_getElem (h ▸ (List.getElem?_eq_some_iff.1 ht).1)⟩

/-- Alike plans have the same order of nodes. -/
theorem order?_of_alike (hp : g.planned selected = .ok tasks) (hp' : g'.planned selected = .ok tasks')
    (h : List.Forall₂ (g.Alike selected) tasks tasks') :
    (orderGraph tasks).order? = (orderGraph tasks').order? := by
  have hn := nodup_of_planned hp
  have hn' := nodup_of_planned hp'
  have hlen := h.length_eq
  refine OrderGraph.order?_congr hlen (fun u v => ?_) (fun u v => ?_)
  · rw [hard_iff hn, hard_iff hn']
    constructor
    · rintro ⟨s, t, hs, ht, hd⟩
      obtain ⟨s', hs'⟩ := exists_getElem?_of_length_eq hlen hs
      obtain ⟨t', ht'⟩ := exists_getElem?_of_length_eq hlen ht
      refine ⟨s', t', hs', ht', ?_⟩
      rwa [(alike_getElem? h hs hs').name, (alike_getElem? h ht ht').dependsOn]
    · rintro ⟨s', t', hs', ht', hd⟩
      obtain ⟨s, hs⟩ := exists_getElem?_of_length_eq hlen.symm hs'
      obtain ⟨t, ht⟩ := exists_getElem?_of_length_eq hlen.symm ht'
      refine ⟨s, t, hs, ht, ?_⟩
      rwa [← (alike_getElem? h hs hs').name, ← (alike_getElem? h ht ht').dependsOn]
  · rw [soft_iff hn, soft_iff hn']
    refine and_congr_right fun hne => ?_
    -- a soft edge joins two planned tasks, whose names are wanted and different
    have hiff : ∀ {s t s' t'}, tasks[u]? = some s → tasks[v]? = some t → tasks'[u]? = some s' →
        tasks'[v]? = some t' → (s'.name ∈ t'.runsAfter ↔ s.name ∈ t.runsAfter) := by
      intro s t s' t' hs ht hs' ht'
      rw [(alike_getElem? h hs hs').name]
      refine (alike_getElem? h ht ht').runsAfter s.name (fun hname => hne ?_) ?_
      · exact Keyed.index_eq_of_key_eq hn hs ht hname
      · exact ((mem_planned hp).1 (List.mem_of_getElem? hs)).2
    constructor
    · rintro ⟨s, t, hs, ht, hd⟩
      obtain ⟨s', hs'⟩ := exists_getElem?_of_length_eq hlen hs
      obtain ⟨t', ht'⟩ := exists_getElem?_of_length_eq hlen ht
      exact ⟨s', t', hs', ht', (hiff hs ht hs' ht').2 hd⟩
    · rintro ⟨s', t', hs', ht', hd⟩
      obtain ⟨s, hs⟩ := exists_getElem?_of_length_eq hlen.symm hs'
      obtain ⟨t, ht⟩ := exists_getElem?_of_length_eq hlen.symm ht'
      exact ⟨s, t, hs, ht, (hiff hs ht hs' ht').1 hd⟩

theorem atNodes_alike {r : Task → Task → Prop} (h : List.Forall₂ r tasks tasks') (nodes : List ℕ) :
    List.Forall₂ r (atNodes tasks nodes) (atNodes tasks' nodes) := by
  induction nodes with
  | nil => exact List.Forall₂.nil
  | cons v vs ih =>
      by_cases hv : v < tasks.length
      · rw [atNodes_cons hv, atNodes_cons (h.length_eq ▸ hv)]
        exact List.Forall₂.cons (h.get hv (h.length_eq ▸ hv)) ih
      · have hnone : tasks[v]? = none := List.getElem?_eq_none (Nat.le_of_not_lt hv)
        have hnone' : tasks'[v]? = none :=
          List.getElem?_eq_none (h.length_eq ▸ Nat.le_of_not_lt hv)
        rw [atNodes, atNodes, List.filterMap_cons_none hnone, List.filterMap_cons_none hnone']
        exact ih

/-- **Names without influence**: alike graphs resolve to alike orders. -/
theorem resolve_alike (h : List.Forall₂ (g.Alike selected) g.tasks g'.tasks)
    (hr : g.resolve selected = .ok order) :
    ∃ order', g'.resolve selected = .ok order' ∧ List.Forall₂ (g.Alike selected) order order' := by
  obtain ⟨tasks, hp, ha⟩ := planned_of_resolve hr
  obtain ⟨tasks', hp'⟩ := planned_of_closed (closed_of_alike h (planned_ok hp).1)
  have hplan := planned_alike h hp hp'
  obtain ⟨nodes, hnodes, rfl⟩ := arrange_ok ha
  refine ⟨atNodes tasks' nodes, ?_, atNodes_alike hplan nodes⟩
  rw [resolve_eq_arrange hp', arrange]
  simp only [← order?_of_alike hp hp' hplan, hnodes]

/-- **The resolved order is the least schedule.**  Where everything wanted is registered and hard and
soft order together are not circular, resolving gives a schedule, and every other schedule comes
after it when the two are compared task by task in the order of registration.  It stays the same,
task by task, however tasks are changed in what they follow that is not wanted or is themselves. -/
theorem resolve_least (hclosed : g.Closed selected) (horderable : g.Orderable selected) :
    ∃ order, g.resolve selected = .ok order ∧ g.IsSchedule selected order ∧
      (∀ other, g.IsSchedule selected other →
        order = other ∨ List.Lex g.RegisteredBefore order other) ∧
      ∀ g' : TaskGraph, List.Forall₂ (g.Alike selected) g.tasks g'.tasks →
        ∃ order', g'.resolve selected = .ok order' ∧
          List.Forall₂ (g.Alike selected) order order' := by
  obtain ⟨order, h⟩ := resolve_ok_iff.2 ⟨hclosed, horderable.acyclic⟩
  exact ⟨order, h, isSchedule_of_resolve horderable h, fun _ => lex_of_resolve h,
    fun _ halike => resolve_alike halike h⟩

/-- A numbering that grows along hard and soft order leaves no cycle. -/
theorem orderable_of_rank (rank : String → ℕ)
    (hhard : ∀ t ∈ g.tasks, ∀ a ∈ t.dependsOn.names, rank a < rank t.name)
    (hsoft : ∀ t ∈ g.tasks, ∀ a ∈ t.runsAfter.names, a ≠ t.name → rank a < rank t.name) :
    g.Orderable selected := by
  have hstep : ∀ a b, g.Precedes selected a b → rank a < rank b := by
    rintro a b ⟨_, ⟨t, ht, rfl, ha⟩ | ⟨⟨t, ht, rfl, ha⟩, hne, _⟩⟩
    · exact hhard t ht a ha
    · exact hsoft t ht a ha hne
  exact fun n hn => lt_irrefl _ (rank_lt_of_transGen rank hstep hn)

/-- Tasks of a release, registered against the order they have to run in. -/
def release : TaskGraph where
  tasks :=
    [⟨"zip", .compile "zip", ⟨["app"], by decide⟩, ⟨["docs", "ghost", "zip"], by decide⟩⟩,
     ⟨"app", .compile "app", ⟨["lib"], by decide⟩, ⟨["tools"], by decide⟩⟩,
     .free "docs" (.compile "docs"),
     ⟨"lib", .compile "lib", .empty, ⟨["docs"], by decide⟩⟩,
     .free "tools" (.compile "tools")]
  names_nodup := by decide

/-- The release has a least schedule, although its last task was registered first. -/
theorem release_least :
    release.Closed ["zip", "docs", "zip"] ∧ release.Orderable ["zip", "docs", "zip"] ∧
    ∃ order, release.resolve ["zip", "docs", "zip"] = .ok order ∧
      release.IsSchedule ["zip", "docs", "zip"] order ∧
      (∀ other, release.IsSchedule ["zip", "docs", "zip"] other →
        order = other ∨ List.Lex release.RegisteredBefore order other) ∧
      ∀ g' : TaskGraph, List.Forall₂ (release.Alike ["zip", "docs", "zip"]) release.tasks g'.tasks →
        ∃ order', g'.resolve ["zip", "docs", "zip"] = .ok order' ∧
          List.Forall₂ (release.Alike ["zip", "docs", "zip"]) order order' := by
  have hclosed : release.Closed ["zip", "docs", "zip"] :=
    closed_of_requirements (by decide) (by decide)
  have horderable : release.Orderable ["zip", "docs", "zip"] :=
    orderable_of_rank (fun n => if n = "zip" then 3 else if n = "app" then 2 else if n = "lib" then 1
      else 0) (by decide) (by decide)
  exact ⟨hclosed, horderable, resolve_least hclosed horderable⟩

end TaskGraph

end Rebuild
