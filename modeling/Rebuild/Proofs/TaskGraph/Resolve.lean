/-
Resolving a selection: what it orders, and when it fails.

The planned tasks become nodes, numbered as they were registered, and the order of the nodes is read
back as an order of tasks.  The first half of this module carries edges, runs and cycles from nodes
to tasks; the second half says what `TaskGraph.resolve` does without mentioning a node.

Main definitions:

* `TaskGraph.Acyclic` — no wanted task requires itself, directly or through others;
* `TaskGraph.IsHardOrder` — an order of the wanted tasks, each once and behind all it requires.

Main results:

* `TaskGraph.hard_iff`, `TaskGraph.soft_iff` — what an edge between nodes says of their tasks;
* `TaskGraph.arrange_ok`, `TaskGraph.arrange_error` — orders of nodes as orders of tasks;
* `TaskGraph.resolve_ok_iff`, `TaskGraph.isHardOrder_of_resolve` — when there is an order, and what
  it is;
* `TaskGraph.resolve_outcome` — **the outcome of every selection**: an order exactly if the selection
  is closed and acyclic, else an unknown name, else a cycle.
-/
import Rebuild.TaskGraph.Resolve
import Rebuild.Proofs.Keyed
import Rebuild.Proofs.TaskGraph.Closure
import Rebuild.Proofs.TaskGraph.Order

set_option relaxedAutoImplicit false
set_option autoImplicit false

namespace Rebuild.TaskGraph

open Relation

variable {g : TaskGraph} {selected : List String} {tasks order : List Task} {nodes : List ℕ}

/-! ### Nodes and tasks -/

theorem nodeOf?_eq_some (hn : (tasks.map Task.name).Nodup) {n : String} {i : ℕ} :
    nodeOf? tasks n = some i ↔ ∃ t, tasks[i]? = some t ∧ t.name = n :=
  Keyed.findIdx?_eq_some_iff hn

theorem mem_edgesBy {names : Task → List String} {u v : ℕ} :
    (u, v) ∈ edgesBy tasks names ↔
      ∃ t, tasks[v]? = some t ∧ ∃ n ∈ names t, nodeOf? tasks n = some u := by
  unfold edgesBy
  simp only [List.mem_flatMap, List.mem_filterMap, Option.map_eq_some_iff, Prod.mk.injEq,
    Prod.exists, List.mk_mem_zipIdx_iff_getElem?]
  constructor
  · rintro ⟨t, w, ht, n, hn, _, hu, rfl, rfl⟩
    exact ⟨t, ht, n, hn, hu⟩
  · rintro ⟨t, ht, n, hn, hu⟩
    exact ⟨t, v, ht, n, hn, u, hu, rfl, rfl⟩

/-- A hard edge leads from what a planned task requires to the task. -/
theorem hard_iff (hn : (tasks.map Task.name).Nodup) {u v : ℕ} :
    (orderGraph tasks).Hard u v ↔
      ∃ s t, tasks[u]? = some s ∧ tasks[v]? = some t ∧ s.name ∈ t.dependsOn := by
  unfold OrderGraph.Hard orderGraph
  simp only [mem_edgesBy, nodeOf?_eq_some hn]
  constructor
  · rintro ⟨t, ht, _, hd, s, hs, rfl⟩
    exact ⟨s, t, hs, ht, hd⟩
  · rintro ⟨s, t, hs, ht, hd⟩
    exact ⟨t, ht, s.name, hd, s, hs, rfl⟩

/-- A soft edge leads from a planned task to another that follows it. -/
theorem soft_iff (hn : (tasks.map Task.name).Nodup) {u v : ℕ} :
    (orderGraph tasks).Soft u v ↔
      u ≠ v ∧ ∃ s t, tasks[u]? = some s ∧ tasks[v]? = some t ∧ s.name ∈ t.runsAfter := by
  unfold OrderGraph.Soft orderGraph
  simp only [List.mem_filter, mem_edgesBy, nodeOf?_eq_some hn, bne_iff_ne]
  constructor
  · rintro ⟨⟨t, ht, _, hd, s, hs, rfl⟩, hne⟩
    exact ⟨hne, s, t, hs, ht, hd⟩
  · rintro ⟨hne, s, t, hs, ht, hd⟩
    exact ⟨⟨t, ht, s.name, hd, s, hs, rfl⟩, hne⟩

theorem bounded_orderGraph (hn : (tasks.map Task.name).Nodup) : (orderGraph tasks).Bounded where
  hard := by
    intro u v h
    obtain ⟨s, t, hs, ht, _⟩ := (hard_iff hn).1 h
    exact ⟨(List.getElem?_eq_some_iff.1 hs).1, (List.getElem?_eq_some_iff.1 ht).1⟩
  soft := by
    intro u v h
    obtain ⟨_, s, t, hs, ht, _⟩ := (soft_iff hn).1 h
    exact ⟨(List.getElem?_eq_some_iff.1 hs).1, (List.getElem?_eq_some_iff.1 ht).1⟩

/-! ### Orders of nodes as orders of tasks -/

theorem mem_atNodes {t : Task} : t ∈ atNodes tasks nodes ↔ ∃ v ∈ nodes, tasks[v]? = some t :=
  List.mem_filterMap

theorem atNodes_range (tasks : List Task) : atNodes tasks (List.range tasks.length) = tasks := by
  induction tasks using List.reverseRecOn with
  | nil => rfl
  | append_singleton ts t ih =>
      rw [List.length_append, List.length_singleton, List.range_succ, atNodes,
        List.filterMap_append]
      have hinit : List.filterMap (fun v => (ts ++ [t])[v]?) (List.range ts.length) =
          atNodes ts (List.range ts.length) := by
        refine List.filterMap_congr fun v hv => ?_
        rw [List.getElem?_append_left (List.mem_range.1 hv)]
      rw [hinit, ih]
      simp

theorem atNodes_perm (h : nodes.Perm (List.range tasks.length)) : (atNodes tasks nodes).Perm tasks := by
  have hperm : (atNodes tasks nodes).Perm (atNodes tasks (List.range tasks.length)) :=
    h.filterMap _
  rwa [atNodes_range] at hperm

/-- A place in the order of tasks is a place in the order of nodes. -/
theorem atNodes_split {before after : List Task} {t : Task}
    (h : atNodes tasks nodes = before ++ t :: after) :
    ∃ nb v na, nodes = nb ++ v :: na ∧ tasks[v]? = some t ∧ atNodes tasks nb = before ∧
      atNodes tasks na = after := by
  obtain ⟨l₁, l₂, rfl, hbefore, hrest⟩ := List.filterMap_eq_append_iff.1 h
  obtain ⟨l₃, v, l₄, rfl, hnone, hv, hafter⟩ := List.filterMap_eq_cons_iff.1 hrest
  refine ⟨l₁ ++ l₃, v, l₄, by simp, hv, ?_, hafter⟩
  rw [atNodes, List.filterMap_append, hbefore, List.filterMap_eq_nil_iff.2 hnone,
    List.append_nil]

theorem arrange_ok (h : arrange tasks = .ok order) :
    ∃ nodes, (orderGraph tasks).order? = some nodes ∧ order = atNodes tasks nodes := by
  unfold arrange at h
  dsimp only at h
  split at h
  · rename_i nodes hnodes
    exact ⟨nodes, hnodes, (Except.ok.inj h).symm⟩
  · cases h

theorem arrange_error {e : GraphError} (h : arrange tasks = .error e) :
    (orderGraph tasks).order? = none ∧ ∃ names, e = .cycle names := by
  unfold arrange at h
  dsimp only at h
  split at h
  · cases h
  · rename_i hnone
    exact ⟨hnone, _, (Except.error.inj h).symm⟩

/-- What a task requires of the planned ones stands before it. -/
theorem arrange_after (hn : (tasks.map Task.name).Nodup) (h : arrange tasks = .ok order)
    {before after : List Task} {s t : Task} (heq : order = before ++ t :: after) (hs : s ∈ tasks)
    (hd : s.name ∈ t.dependsOn) : s ∈ before := by
  obtain ⟨nodes, hnodes, rfl⟩ := arrange_ok h
  obtain ⟨hrun, _⟩ := OrderGraph.order?_some hnodes
  obtain ⟨nb, v, na, hsplit, hv, rfl, _⟩ := atNodes_split heq
  obtain ⟨u, hu, rfl⟩ := List.mem_iff_getElem.1 hs
  have hsu : tasks[u]? = some tasks[u] := List.getElem?_eq_getElem hu
  have hmem : u ∈ nb := hrun.hard_before hsplit ((hard_iff hn).2 ⟨_, _, hsu, hv, hd⟩)
  exact mem_atNodes.2 ⟨u, hmem, hsu⟩

/-! ### Plans -/

theorem nodup_of_planned (h : g.planned selected = .ok tasks) : (tasks.map Task.name).Nodup := by
  classical
  obtain ⟨_, rfl⟩ := planned_ok h
  exact (List.filter_sublist.map Task.name).nodup g.names_nodup

theorem mem_planned (h : g.planned selected = .ok tasks) {t : Task} :
    t ∈ tasks ↔ t ∈ g.tasks ∧ g.Wanted selected t.name := by
  classical
  obtain ⟨_, rfl⟩ := planned_ok h
  simp

/-- Every wanted name has a planned task. -/
theorem exists_planned (h : g.planned selected = .ok tasks) {n : String}
    (hw : g.Wanted selected n) : ∃ t ∈ tasks, t.name = n := by
  obtain ⟨t, ht, rfl⟩ := mem_names.1 ((planned_ok h).1 n hw)
  exact ⟨t, (mem_planned h).2 ⟨ht, hw⟩, rfl⟩

/-- A selection that leads to every task plans them all. -/
theorem planned_all (hclosed : g.Closed selected)
    (hall : ∀ t ∈ g.tasks, g.Wanted selected t.name) : g.planned selected = .ok g.tasks := by
  classical
  obtain ⟨tasks, hp⟩ := planned_of_closed hclosed
  obtain ⟨_, rfl⟩ := planned_ok hp
  rw [hp, List.filter_eq_self.2 (by simpa using hall)]

/-- No wanted task requires itself, directly or through others. -/
def Acyclic (g : TaskGraph) (selected : List String) : Prop :=
  ∀ n, g.Wanted selected n → ¬ TransGen g.Requires n n

/-- The first name is required by a wanted task, the second. -/
def Needed (g : TaskGraph) (selected : List String) (b a : String) : Prop :=
  g.Wanted selected a ∧ g.Requires a b

/-- All that a wanted task requires, directly or through others, is needed on the way. -/
theorem Wanted.needed {n b : String} (hw : g.Wanted selected n) (h : TransGen g.Requires n b) :
    TransGen (g.Needed selected) b n := by
  induction h with
  | single hab => exact TransGen.single ⟨hw, hab⟩
  | tail hab hbc ih => exact TransGen.head ⟨hw.trans hab.to_reflTransGen, hbc⟩ ih

/-- A cycle of hard edges between nodes is a cycle of requirements. -/
theorem not_acyclic_of_hard (h : g.planned selected = .ok tasks) {v : ℕ}
    (hv : v < (orderGraph tasks).size) (hcycle : TransGen (orderGraph tasks).Hard v v) :
    ¬ g.Acyclic selected := by
  have hstep : ∀ {u w}, (orderGraph tasks).Hard u w → ∃ s t, tasks[u]? = some s ∧
      tasks[w]? = some t ∧ Function.swap g.Requires s.name t.name := by
    intro u w huw
    obtain ⟨s, t, hs, ht, hd⟩ := (hard_iff (nodup_of_planned h)).1 huw
    have htg := ((mem_planned h).1 (List.mem_of_getElem? ht)).1
    exact ⟨s, t, hs, ht, requires_of_mem htg hd⟩
  -- edges lead from what is required, requirements lead to it
  have hget : tasks[v]? = some tasks[v] := List.getElem?_eq_getElem hv
  have hback := Keyed.transGen_key hstep hcycle hget hget
  intro hacyclic
  have hw := ((mem_planned h).1 (List.mem_of_getElem? hget)).2
  exact hacyclic _ hw (transGen_swap.1 hback)

/-- A cycle of requirements among the wanted tasks leaves no order of the nodes. -/
theorem acyclic_of_order (h : g.planned selected = .ok tasks)
    (ho : (orderGraph tasks).order? = some nodes) : g.Acyclic selected := by
  have hn := nodup_of_planned h
  have hno := OrderGraph.not_hard_cycle (bounded_orderGraph hn) ho
  have hstep : ∀ {u v s t}, tasks[u]? = some s → tasks[v]? = some t →
      g.Needed selected s.name t.name → (orderGraph tasks).Hard u v := by
    rintro u v s t hs ht ⟨_, t', ht', hname, hd⟩
    have htg := ((mem_planned h).1 (List.mem_of_getElem? ht)).1
    obtain rfl : t' = t := g.eq_of_name_eq ht' htg hname
    exact (hard_iff hn).2 ⟨s, t', hs, ht, hd⟩
  have hmem : ∀ {b a}, g.Needed selected b a → b ∈ tasks.map Task.name := by
    rintro b a ⟨hw, hreq⟩
    obtain ⟨s, hs, rfl⟩ := exists_planned h (hw.tail hreq)
    exact List.mem_map_of_mem hs
  intro n hw hcycle
  obtain ⟨t, ht, rfl⟩ := exists_planned h hw
  obtain ⟨v, hv⟩ := List.mem_iff_getElem?.1 ht
  exact hno v (Keyed.transGen_index hstep hmem (hw.needed hcycle) hv hv)

/-! ### Outcomes -/

/-- An order of the wanted tasks: each of them once, and behind all that it requires. -/
structure IsHardOrder (g : TaskGraph) (selected : List String) (order : List Task) : Prop where
  nodup : order.Nodup
  mem : ∀ t, t ∈ order ↔ t ∈ g.tasks ∧ g.Wanted selected t.name
  after : ∀ before t after, order = before ++ t :: after →
    ∀ d ∈ t.dependsOn, ∃ s ∈ before, s.name = d

theorem resolve_eq_arrange (h : g.planned selected = .ok tasks) :
    g.resolve selected = arrange tasks := by
  rw [resolve, h]
  rfl

theorem planned_of_resolve (h : g.resolve selected = .ok order) :
    ∃ tasks, g.planned selected = .ok tasks ∧ arrange tasks = .ok order := by
  cases hp : g.planned selected with
  | ok tasks => exact ⟨tasks, rfl, resolve_eq_arrange hp ▸ h⟩
  | error e =>
      rw [resolve, hp] at h
      cases h

/-- **A selection that resolves gives a full order.** -/
theorem isHardOrder_of_resolve (h : g.resolve selected = .ok order) :
    g.IsHardOrder selected order := by
  obtain ⟨tasks, hp, ha⟩ := planned_of_resolve h
  have hn := nodup_of_planned hp
  obtain ⟨nodes, hnodes, horder⟩ := arrange_ok ha
  have hperm : order.Perm tasks :=
    horder ▸ atNodes_perm (OrderGraph.order?_some hnodes).2
  refine ⟨hperm.nodup_iff.2 hn.of_map, fun t => ?_, fun before t after heq d hd => ?_⟩
  · rw [hperm.mem_iff, mem_planned hp]
  · have ht : t ∈ tasks := hperm.mem_iff.1 (by simp [heq])
    obtain ⟨htg, hw⟩ := (mem_planned hp).1 ht
    obtain ⟨s, hs, rfl⟩ := exists_planned hp (hw.tail (requires_of_mem htg hd))
    exact ⟨s, arrange_after hn ha heq hs hd, rfl⟩

/-- **There is an order exactly if the selection is closed and acyclic.** -/
theorem resolve_ok_iff :
    (∃ order, g.resolve selected = .ok order) ↔ g.Closed selected ∧ g.Acyclic selected := by
  constructor
  · rintro ⟨order, h⟩
    obtain ⟨tasks, hp, ha⟩ := planned_of_resolve h
    obtain ⟨nodes, hnodes, _⟩ := arrange_ok ha
    exact ⟨(planned_ok hp).1, acyclic_of_order hp hnodes⟩
  · rintro ⟨hclosed, hacyclic⟩
    obtain ⟨tasks, hp⟩ := planned_of_closed hclosed
    rw [resolve_eq_arrange hp]
    cases ha : arrange tasks with
    | ok order => exact ⟨order, rfl⟩
    | error e =>
        obtain ⟨hnone, _⟩ := arrange_error ha
        obtain ⟨v, hv, hcycle⟩ :=
          OrderGraph.order?_none (bounded_orderGraph (nodup_of_planned hp)) hnone
        exact absurd hacyclic (not_acyclic_of_hard hp hv hcycle)

/-- The names of an order are the wanted ones. -/
theorem mem_names_of_resolve (h : g.resolve selected = .ok order) {n : String} :
    n ∈ order.map Task.name ↔ g.Wanted selected n := by
  have hmem := (isHardOrder_of_resolve h).mem
  constructor
  · intro hn
    obtain ⟨t, ht, rfl⟩ := List.mem_map.1 hn
    exact ((hmem t).1 ht).2
  · intro hw
    obtain ⟨t, ht, rfl⟩ := mem_names.1 ((resolve_ok_iff.1 ⟨order, h⟩).1 n hw)
    exact List.mem_map_of_mem ((hmem t).2 ⟨ht, hw⟩)

/-- No two tasks of an order have one name. -/
theorem nodup_names_of_resolve (h : g.resolve selected = .ok order) :
    (order.map Task.name).Nodup := by
  have horder := isHardOrder_of_resolve h
  refine horder.nodup.map_on fun s hs t ht hname => ?_
  exact g.eq_of_name_eq ((horder.mem s).1 hs).1 ((horder.mem t).1 ht).1 hname

/-- Not only what a task requires stands before it, but all that this leads to. -/
theorem IsHardOrder.mem_before_of_path (h : g.IsHardOrder selected order) {before after : List Task}
    {t : Task} {d : String} (heq : order = before ++ t :: after)
    (hpath : TransGen g.Requires t.name d) : ∃ s ∈ before, s.name = d := by
  have hstep : ∀ {front back : List Task} {u : Task} {n : String}, order = front ++ u :: back →
      g.Requires u.name n → ∃ s ∈ front, s.name = n := by
    rintro front back u n heq ⟨u', hu', hname, hn⟩
    have hu := ((h.mem u).1 (by simp [heq])).1
    obtain rfl := g.eq_of_name_eq hu' hu hname
    exact h.after front _ back heq n hn
  induction hpath with
  | single hd => exact hstep heq hd
  | tail _ hd ih =>
      obtain ⟨s, hs, rfl⟩ := ih
      obtain ⟨front, back, rfl⟩ := List.append_of_mem hs
      rw [List.append_assoc] at heq
      obtain ⟨r, hr, hname⟩ := hstep heq hd
      exact ⟨r, List.mem_append_left _ hr, hname⟩

/-- **What can be ordered as a whole can be ordered in part.** -/
theorem resolve_subset {all : List String} (h : g.resolve all = .ok order)
    (hsub : ∀ n ∈ selected, n ∈ all) : ∃ order, g.resolve selected = .ok order := by
  obtain ⟨hclosed, hacyclic⟩ := resolve_ok_iff.1 ⟨order, h⟩
  refine resolve_ok_iff.2 ⟨fun n hw => ?_, fun n hw => ?_⟩
  · exact hclosed n (hw.mono hsub)
  · exact hacyclic n (hw.mono hsub)

/-- All tasks resolve if the requirements are known and a number grows along them. -/
theorem validate_of_rank (rank : String → ℕ)
    (hknown : ∀ t ∈ g.tasks, ∀ d ∈ t.dependsOn.names, d ∈ g.names)
    (hrank : ∀ t ∈ g.tasks, ∀ d ∈ t.dependsOn.names, rank d < rank t.name) :
    g.validate = .ok () := by
  have hacyclic : g.Acyclic g.names := by
    intro n _ hcycle
    have hstep : ∀ a b, Function.swap g.Requires a b → rank a < rank b := by
      rintro a _ ⟨t, ht, rfl, ha⟩
      exact hrank t ht a ha
    exact lt_irrefl _ (rank_lt_of_transGen rank hstep (transGen_swap.2 hcycle))
  have hclosed : g.Closed g.names := closed_of_requirements (fun _ hn => hn) hknown
  obtain ⟨order, horder⟩ := resolve_ok_iff.2 ⟨hclosed, hacyclic⟩
  rw [validate, horder]
  rfl

/-- A selection that is not closed fails with a justified request for an unknown name. -/
theorem resolve_unknown (h : ¬ g.Closed selected) :
    ∃ r : Request, g.resolve selected = .error (.unknownTask r.name r.requiredBy) ∧
      g.Justified selected r ∧ r.name ∉ g.names := by
  cases hp : g.planned selected with
  | ok tasks => exact absurd (planned_ok hp).1 h
  | error e =>
      obtain ⟨r, rfl, hj, hn⟩ := planned_error hp
      refine ⟨r, ?_, hj, hn⟩
      rw [resolve, hp]
      rfl

/-- A closed selection that is not acyclic fails with a cycle. -/
theorem resolve_cycle (hclosed : g.Closed selected) (h : ¬ g.Acyclic selected) :
    ∃ names, g.resolve selected = .error (.cycle names) := by
  obtain ⟨tasks, hp⟩ := planned_of_closed hclosed
  rw [resolve_eq_arrange hp]
  cases ha : arrange tasks with
  | ok order =>
      obtain ⟨nodes, hnodes, _⟩ := arrange_ok ha
      exact absurd (acyclic_of_order hp hnodes) h
  | error e =>
      obtain ⟨_, names, rfl⟩ := arrange_error ha
      exact ⟨names, rfl⟩

/-- **The outcome of every selection.**  There is an order exactly if everything wanted is registered
and no wanted task requires itself; the order holds the wanted tasks, each once and behind all it
requires.  If a wanted name is not registered, the error gives such a name and who asked for it;
otherwise a circular requirement is reported as a cycle. -/
theorem resolve_outcome (g : TaskGraph) (selected : List String) :
    ((∃ order, g.resolve selected = .ok order) ↔ g.Closed selected ∧ g.Acyclic selected) ∧
    (∀ order, g.resolve selected = .ok order → g.IsHardOrder selected order) ∧
    (¬ g.Closed selected →
      ∃ task requiredBy, g.resolve selected = .error (.unknownTask task requiredBy) ∧
        g.Wanted selected task ∧ task ∉ g.names ∧
        ((requiredBy = none ∧ task ∈ selected) ∨
          ∃ p, requiredBy = some p ∧ g.Wanted selected p ∧ g.Requires p task)) ∧
    (g.Closed selected → ¬ g.Acyclic selected →
      ∃ names, g.resolve selected = .error (.cycle names)) := by
  refine ⟨resolve_ok_iff, fun _ => isHardOrder_of_resolve, fun h => ?_, resolve_cycle⟩
  obtain ⟨r, hr, hj, hn⟩ := resolve_unknown h
  exact ⟨r.name, r.requiredBy, hr, hj.wanted, hn, hj⟩

end Rebuild.TaskGraph
