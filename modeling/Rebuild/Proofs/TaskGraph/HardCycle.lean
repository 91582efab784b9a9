/-
The cycle that is reported when a selection cannot be ordered.

The cycle is found among the numbers of the planned tasks and reported by names.  Numbers grow in the
order of registration, so the smallest number of a component belongs to the task that was registered
first.

Main definitions:

* `TaskGraph.nameAt`, `TaskGraph.placeOf` — names and numbers of planned tasks;
* `TaskGraph.EarliestAmong` — the first registered of the tasks that need each other.

Main results:

* `OrderGraph.hardCycle?_spec` — where nodes cannot be ordered, the smallest node of a component has a
  shortest cycle, and it is found;
* `TaskGraph.reported_hard_cycle` — **a reported cycle is a shortest one through the earliest task of
  its component**.
-/
import Rebuild.Proofs.Digraph.ShortestCycle
import Rebuild.Proofs.TaskGraph.LeastOrder

set_option relaxedAutoImplicit false
set_option autoImplicit false

namespace Rebuild

open Relation

/-! ### Nodes -/

namespace OrderGraph

variable {g : OrderGraph}

/-- **Nodes that cannot be ordered have a hard cycle, and it is found**: a shortest one through the
smallest of the nodes that reach each other. -/
theorem hardCycle?_spec (hb : g.Bounded) (h : g.order? = none) :
    ∃ start rest, g.hardCycle? = some (start :: rest ++ [start]) ∧
      ShortestCycle g.Hard start rest ∧ (∀ v ∈ start :: rest, v < g.size) ∧
      ∀ v, ReflTransGen g.Hard start v → ReflTransGen g.Hard v start → start ≤ v := by
  have hbounded : g.hardGraph.Bounded := fun huv => hb.hard huv
  obtain ⟨v, _, hcycle⟩ := order?_none hb h
  cases hfound : g.hardGraph.cyclicComponent? with
  | none => exact absurd hcycle ((Digraph.cyclicComponent?_eq_none_iff hbounded).1 hfound v)
  | some members =>
      obtain ⟨hcomponent, hcyclic⟩ := Digraph.cyclicComponent?_some hbounded hfound
      obtain ⟨start, hmin⟩ : ∃ start, members.min? = some start :=
        Option.isSome_iff_exists.1 (List.isSome_min?_of_ne_nil hcomponent.nonempty)
      obtain ⟨hs, hleast⟩ := List.min?_eq_some_iff.1 hmin
      obtain ⟨rest, hfind, hshortest⟩ := Digraph.shortestCycle_of_cycleThrough? hcomponent hs
        ((Digraph.isCyclic_iff hcomponent hs).1 hcyclic)
      refine ⟨start, rest, ?_, hshortest, fun v hv => ?_, fun v hto hback => ?_⟩
      · simp only [hardCycle?, hfound, hmin, hfind]
      · apply hcomponent.lt_size
        rcases List.mem_cons.1 hv with rfl | hv
        · exact hs
        · exact hcomponent.mem_of_isChain hs hshortest.chain hv
      · exact hleast v ((hcomponent.mem_iff start hs v).2 ⟨hto, hback⟩)

end OrderGraph

/-! ### Names -/

namespace TaskGraph

variable {g : TaskGraph} {selected : List String} {tasks : List Task} {t : Task} {v : ℕ}

/-- The name of a node. -/
def nameAt (tasks : List Task) (v : ℕ) : String := (tasks[v]?.map Task.name).getD ""

/-- The node of a name. -/
def placeOf (tasks : List Task) (n : String) : ℕ := (nodeOf? tasks n).getD 0

theorem nameAt_eq (h : tasks[v]? = some t) : nameAt tasks v = t.name := by
  simp [nameAt, h]

theorem placeOf_eq (hn : (tasks.map Task.name).Nodup) (h : tasks[v]? = some t) :
    placeOf tasks t.name = v := by
  rw [placeOf, (nodeOf?_eq_some hn).2 ⟨t, h, rfl⟩, Option.getD_some]

theorem map_name_atNodes {nodes : List ℕ} (h : ∀ v ∈ nodes, v < tasks.length) :
    (atNodes tasks nodes).map Task.name = nodes.map (nameAt tasks) := by
  induction nodes with
  | nil => rfl
  | cons v nodes ih =>
      have hv := h v (List.mem_cons_self ..)
      rw [atNodes_cons hv, List.map_cons, List.map_cons, nameAt_eq (List.getElem?_eq_getElem hv),
        ih fun u hu => h u (List.mem_cons_of_mem v hu)]

/-- Hard edges between planned nodes are needs between their tasks. -/
theorem hard_iff_needed (h : g.planned selected = .ok tasks) {u v : ℕ} :
    (orderGraph tasks).Hard u v ↔ ∃ s t, tasks[u]? = some s ∧ tasks[v]? = some t ∧
      g.Needed selected s.name t.name := by
  rw [hard_iff (nodup_of_planned h)]
  constructor
  · rintro ⟨s, t, hs, ht, hd⟩
    obtain ⟨htg, hw⟩ := (mem_planned h).1 (List.mem_of_getElem? ht)
    exact ⟨s, t, hs, ht, hw, requires_of_mem htg hd⟩
  · rintro ⟨s, t, hs, ht, _, t', ht', hname, hd⟩
    obtain rfl := g.eq_of_name_eq ht' ((mem_planned h).1 (List.mem_of_getElem? ht)).1 hname
    exact ⟨s, t', hs, ht, hd⟩

/-- Both names of a need are those of planned tasks. -/
theorem Needed.planned (h : g.planned selected = .ok tasks) {a b : String}
    (hab : g.Needed selected a b) :
    (∃ s ∈ tasks, s.name = a) ∧ ∃ t ∈ tasks, t.name = b :=
  ⟨exists_planned h (hab.1.tail hab.2), exists_planned h hab.1⟩

/-- `t` was registered before every other task that needs it and that it needs, directly or through
other tasks of the plan. -/
def EarliestAmong (g : TaskGraph) (selected : List String) (t : Task) : Prop :=
  ∀ u ∈ g.tasks, ReflTransGen (g.Needed selected) t.name u.name →
    ReflTransGen (g.Needed selected) u.name t.name → u = t ∨ g.RegisteredBefore t u

/-- A selection that fails with a cycle was planned, and its nodes could not be ordered. -/
theorem planned_of_cycle {names : List String} (h : g.resolve selected = .error (.cycle names)) :
    ∃ tasks, g.planned selected = .ok tasks ∧ (orderGraph tasks).order? = none ∧
      names = (atNodes tasks ((orderGraph tasks).hardCycle?.getD [])).map Task.name := by
  cases hp : g.planned selected with
  | ok tasks =>
      rw [resolve_eq_arrange hp] at h
      obtain ⟨hnone, _⟩ := arrange_error h
      simp only [arrange, hnone] at h
      cases h
      exact ⟨tasks, rfl, hnone, rfl⟩
  | error e =>
      obtain ⟨r, rfl, _⟩ := planned_error hp
      rw [resolve, hp] at h
      cases h

/-- The smallest of the nodes that reach each other is the earliest of the tasks that need each
other. -/
theorem earliestAmong_of_least (h : g.planned selected = .ok tasks) {start : ℕ}
    (hstart : tasks[start]? = some t)
    (hleast : ∀ v, ReflTransGen (orderGraph tasks).Hard start v →
      ReflTransGen (orderGraph tasks).Hard v start → start ≤ v) :
    g.EarliestAmong selected t := by
  have hn := nodup_of_planned h
  have hmem : ∀ {a b}, g.Needed selected a b → a ∈ tasks.map Task.name := fun hab =>
    List.mem_map.2 (hab.planned h).1
  intro u hu hto hback
  -- a task other than `t` needs something on the way, so it is planned
  rcases reflTransGen_iff_eq_or_transGen.1 hto with heq | hpath
  · exact Or.inl (g.eq_of_name_eq hu ((mem_planned h).1 (List.mem_of_getElem? hstart)).1 heq)
  obtain ⟨_, _, hlast⟩ := TransGen.tail'_iff.1 hpath
  obtain ⟨v, hv⟩ := List.mem_iff_getElem?.1 ((mem_planned h).2 ⟨hu, hlast.1⟩)
  have hle : start ≤ v := hleast v
    ((Keyed.reflTransGen_iff hn (hard_iff_needed h) hmem hstart hv).2 hto)
    ((Keyed.reflTransGen_iff hn (hard_iff_needed h) hmem hv hstart).2 hback)
  rcases Nat.lt_or_eq_of_le hle with hlt | rfl
  · obtain ⟨hlen, rfl⟩ := List.getElem?_eq_some_iff.1 hstart
    obtain ⟨hvlen, rfl⟩ := List.getElem?_eq_some_iff.1 hv
    exact Or.inr (List.pairwise_iff_getElem.1 (registered_pairwise h) start v hlen hvlen hlt)
  · exact Or.inl (Option.some.inj (hv.symm.trans hstart))

/-- A shortest cycle of hard edges is a shortest cycle of needs. -/
theorem shortestCycle_names (h : g.planned selected = .ok tasks) {start : ℕ} {rest : List ℕ}
    (hlt : ∀ v ∈ start :: rest, v < tasks.length)
    (hcycle : ShortestCycle (orderGraph tasks).Hard start rest) :
    ShortestCycle (g.Needed selected) (nameAt tasks start) (rest.map (nameAt tasks)) := by
  have hn := nodup_of_planned h
  refine hcycle.map (nameAt tasks) (placeOf tasks) (fun v hv => ?_) (fun u v huv => ?_)
    fun a b hab => ?_
  · have hget := List.getElem?_eq_getElem (hlt v hv)
    rw [nameAt_eq hget, placeOf_eq hn hget]
  · obtain ⟨s, t, hs, ht, hst⟩ := (hard_iff_needed h).1 huv
    rwa [nameAt_eq hs, nameAt_eq ht]
  · obtain ⟨⟨s, hs, rfl⟩, t, ht, rfl⟩ := hab.planned h
    obtain ⟨u, hu⟩ := List.mem_iff_getElem?.1 hs
    obtain ⟨v, hv⟩ := List.mem_iff_getElem?.1 ht
    rw [placeOf_eq hn hu, placeOf_eq hn hv]
    exact (hard_iff_needed h).2 ⟨s, t, hu, hv, hab⟩

/-- **What is reported as a cycle.**  A cycle is always found, with no parent missing on the way back.
It names planned tasks; it begins and ends with the same task and names no other one twice; each task
in it requires the one named before it.  The first one was registered before all other tasks of its
component, and no cycle of planned tasks through it is shorter. -/
theorem reported_hard_cycle {names : List String}
    (h : g.resolve selected = .error (.cycle names)) :
    ∃ tasks nodes first rest, g.planned selected = .ok tasks ∧
      (orderGraph tasks).hardCycle? = some nodes ∧
      names = (atNodes tasks nodes).map Task.name ∧
      first ∈ tasks ∧ names = first.name :: rest ++ [first.name] ∧ (first.name :: rest).Nodup ∧
      (∀ n ∈ names, ∃ t ∈ tasks, t.name = n) ∧ names.IsChain (fun a b => g.Requires b a) ∧
      g.EarliestAmong selected first ∧
      ∀ way, (first.name :: way ++ [first.name]).IsChain (g.Needed selected) →
        rest.length ≤ way.length := by
  obtain ⟨tasks, hp, hnone, hnames⟩ := planned_of_cycle h
  obtain ⟨start, rest, hfound, hcycle, hlt, hleast⟩ :=
    OrderGraph.hardCycle?_spec (bounded_orderGraph (nodup_of_planned hp)) hnone
  rw [hfound, Option.getD_some] at hnames
  obtain ⟨first, hget⟩ : ∃ first, tasks[start]? = some first :=
    ⟨_, List.getElem?_eq_getElem (hlt start (List.mem_cons_self ..))⟩
  have hfirst : nameAt tasks start = first.name := nameAt_eq hget
  have hshortest := shortestCycle_names hp hlt hcycle
  rw [hfirst] at hshortest
  have hlist : names = first.name :: rest.map (nameAt tasks) ++ [first.name] := by
    have hall : ∀ v ∈ start :: rest ++ [start], v < tasks.length := by
      intro v hv
      refine hlt v ?_
      rcases List.mem_append.1 hv with hv | hv
      · exact hv
      · exact List.mem_singleton.1 hv ▸ List.mem_cons_self ..
    rw [hnames, map_name_atNodes hall, List.map_append, List.map_cons, List.map_singleton, hfirst]
  refine ⟨tasks, _, first, rest.map (nameAt tasks), hp, hfound, hnames, List.mem_of_getElem? hget,
    hlist, hshortest.nodup, fun n hn => ?_, ?_, earliestAmong_of_least hp hget hleast,
    hshortest.least⟩
  · rw [hnames] at hn
    obtain ⟨t, ht, rfl⟩ := List.mem_map.1 hn
    obtain ⟨v, _, hv⟩ := mem_atNodes.1 ht
    exact ⟨t, List.mem_of_getElem? hv, rfl⟩
  · rw [hlist]
    exact hshortest.chain.imp fun _ _ hab => hab.2

/-- An application and a library that require each other, directly and through the manual. -/
def knot : TaskGraph where
  tasks :=
    [.free "tools" (.compile "tools"),
     (Task.free "lib" (.compile "lib")).requiring "docs" |>.requiring "app" |>.requiring "tools",
     (Task.free "docs" (.compile "docs")).requiring "app",
     (Task.free "app" (.compile "app")).requiring "lib"]
  names_nodup := by decide

/-- The short way round is reported, from the library on. -/
theorem knot_reported :
    knot.resolve ["app"] = .error (.cycle ["lib", "app", "lib"]) ∧
    ∃ tasks nodes first rest, knot.planned ["app"] = .ok tasks ∧
      (orderGraph tasks).hardCycle? = some nodes ∧
      ["lib", "app", "lib"] = (atNodes tasks nodes).map Task.name ∧
      first ∈ tasks ∧ ["lib", "app", "lib"] = first.name :: rest ++ [first.name] ∧
      (first.name :: rest).Nodup ∧
      (∀ n ∈ ["lib", "app", "lib"], ∃ t ∈ tasks, t.name = n) ∧
      ["lib", "app", "lib"].IsChain (fun a b => knot.Requires b a) ∧
      knot.EarliestAmong ["app"] first ∧
      ∀ way, (first.name :: way ++ [first.name]).IsChain (knot.Needed ["app"]) →
        rest.length ≤ way.length := by
  have hresolve : knot.resolve ["app"] = .error (.cycle ["lib", "app", "lib"]) := by cbv
  exact ⟨hresolve, reported_hard_cycle hresolve⟩

end TaskGraph

end Rebuild
