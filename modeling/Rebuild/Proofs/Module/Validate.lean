/-
Which lists of modules are valid.

The dependencies of modules become the edges of a graph on their places in the list, and the cyclic
component that the search finds there is read back as a list of names.

Main definitions:

* `Module.DependsOn` — one name has another among its dependencies;
* `Module.WellFormed` — what is asked of modules apart from cycles;
* `Module.IsCyclicComponent` — **all modules that depend on each other**, each once, with a cycle
  through them.

Main results:

* `Module.checkEach_eq_ok_iff`, `Module.unknownDependency?_eq_none_iff` — the checks before cycles;
* `Module.edge_graph_iff` — an edge of the graph is a dependency;
* `Module.isCyclicComponent_of_nodes` — components of nodes as components of names;
* `Module.validate_outcome` — **modules are valid exactly if they are well formed and no module
  depends on itself**, and a reported cycle is a whole component.
-/
import Rebuild.Module
import Rebuild.Proofs.Keyed
import Rebuild.Proofs.Digraph.Components

set_option relaxedAutoImplicit false
set_option autoImplicit false

namespace Rebuild.Module

open Relation

variable {modules : List Module} {seen : List String} {nodes : List ℕ}

/-- `m` is the name of a module that has `d` among its dependencies. -/
def DependsOn (modules : List Module) (m d : String) : Prop :=
  ∃ x ∈ modules, x.name = m ∧ d ∈ x.deps

/-- Names are unique, every module has an entry, and all dependencies are modules of the list. -/
structure WellFormed (modules : List Module) : Prop where
  nodup : (modules.map Module.name).Nodup
  entries : ∀ m ∈ modules, m.entries ≠ []
  known : ∀ m ∈ modules, ∀ d ∈ m.deps, d ∈ modules.map Module.name

/-- No module depends on itself, directly or through others. -/
def Acyclic (modules : List Module) : Prop :=
  ∀ n, ¬ TransGen (DependsOn modules) n n

/-- The names of all modules that depend on each other, each once; there are at least two, or a single
one that depends on itself. -/
structure IsCyclicComponent (modules : List Module) (names : List String) : Prop where
  nodup : names.Nodup
  known : ∀ a ∈ names, a ∈ modules.map Module.name
  mem_iff : ∀ a ∈ names, ∀ b, b ∈ names ↔
    ReflTransGen (DependsOn modules) a b ∧ ReflTransGen (DependsOn modules) b a
  cyclic : 2 ≤ names.length ∨ ∃ a, names = [a] ∧ DependsOn modules a a

/-! ### Checks before cycles -/

theorem checkEach_eq_ok_iff : checkEach seen modules = .ok () ↔
    (modules.map Module.name).Nodup ∧ (∀ m ∈ modules, m.name ∉ seen) ∧
      ∀ m ∈ modules, m.entries ≠ [] := by
  induction modules generalizing seen with
  | nil => simp [checkEach]
  | cons m ms ih =>
      rw [checkEach]
      by_cases hseen : m.name ∈ seen
      · simp [hseen]
      · by_cases hentries : m.entries = []
        · simp [hseen, hentries]
        · simp only [List.contains_eq_mem, hseen, decide_false, Bool.false_eq_true, if_false,
            List.isEmpty_iff, hentries, ih, List.map_cons, List.nodup_cons, List.mem_cons,
            forall_eq_or_imp, not_or, List.mem_map, not_exists, not_and, ne_eq]
          -- a later module is not this one exactly if its name is not among the later ones
          constructor
          · rintro ⟨hnodup, hnew, hrest⟩
            exact ⟨⟨fun x hx => (hnew x hx).1, hnodup⟩, ⟨not_false, fun x hx => (hnew x hx).2⟩,
              not_false, hrest⟩
          · rintro ⟨⟨hne, hnodup⟩, ⟨_, hnew⟩, _, hrest⟩
            exact ⟨hnodup, fun x hx => ⟨hne x hx, hnew x hx⟩, hrest⟩

/-- Only these two faults are found module by module. -/
theorem checkEach_error {e : ModuleError} (h : checkEach seen modules = .error e) :
    ∃ n, e = .duplicate n ∨ e = .noEntries n := by
  induction modules generalizing seen with
  | nil => cases h
  | cons m ms ih =>
      rw [checkEach] at h
      split at h
      · exact ⟨m.name, Or.inl (Except.error.inj h).symm⟩
      · split at h
        · exact ⟨m.name, Or.inr (Except.error.inj h).symm⟩
        · exact ih h

theorem unknownDependency?_eq_none_iff : unknownDependency? modules = none ↔
    ∀ m ∈ modules, ∀ d ∈ m.deps, d ∈ modules.map Module.name := by
  simp [unknownDependency?, List.findSome?_eq_none_iff]

/-! ### Dependencies as edges -/

theorem mem_distinct {n : String} {names : List String} :
    n ∈ distinct seen names ↔ n ∈ names ∧ n ∉ seen := by
  induction names generalizing seen with
  | nil => simp [distinct]
  | cons x xs ih =>
      rw [distinct]
      by_cases hx : x ∈ seen
      · simp only [List.contains_eq_mem, hx, decide_true, if_true, ih, List.mem_cons]
        constructor
        · exact fun ⟨hn, hs⟩ => ⟨Or.inr hn, hs⟩
        · rintro ⟨rfl | hn, hs⟩
          · exact absurd hx hs
          · exact ⟨hn, hs⟩
      · simp only [List.contains_eq_mem, hx, decide_false, Bool.false_eq_true, if_false,
          List.mem_cons, ih, not_or]
        constructor
        · rintro (rfl | ⟨hn, _, hs⟩)
          · exact ⟨Or.inl rfl, hx⟩
          · exact ⟨Or.inr hn, hs⟩
        · rintro ⟨hn, hs⟩
          by_cases hnx : n = x
          · exact Or.inl hnx
          · exact Or.inr ⟨hn.resolve_left hnx, hnx, hs⟩

/-- An edge leads from a dependency to the module that has it. -/
theorem edge_graph_iff (hn : (modules.map Module.name).Nodup) {u v : ℕ} :
    (graph modules).Edge u v ↔ ∃ a b, modules[u]? = some a ∧ modules[v]? = some b ∧
      Function.swap (DependsOn modules) a.name b.name := by
  unfold Digraph.Edge graph
  simp only [List.mem_flatMap, List.mem_filterMap, Option.map_eq_some_iff, Prod.mk.injEq,
    Prod.exists, List.mk_mem_zipIdx_iff_getElem?, mem_distinct, Keyed.findIdx?_eq_some_iff hn]
  constructor
  · rintro ⟨b, _, hb, _, ⟨hd, _⟩, _, ⟨a, ha, rfl⟩, rfl, rfl⟩
    exact ⟨a, b, ha, hb, b, List.mem_of_getElem? hb, rfl, hd⟩
  · rintro ⟨a, b, ha, hb, x, hx, hname, hd⟩
    obtain rfl : x = b := List.inj_on_of_nodup_map hn hx (List.mem_of_getElem? hb) hname
    exact ⟨x, v, hb, a.name, ⟨hd, by simp⟩, u, ⟨a, ha, rfl⟩, rfl, rfl⟩

theorem bounded_graph (hn : (modules.map Module.name).Nodup) : (graph modules).Bounded := by
  intro u v huv
  obtain ⟨a, b, ha, hb, _⟩ := (edge_graph_iff hn).1 huv
  exact ⟨(List.getElem?_eq_some_iff.1 ha).1, (List.getElem?_eq_some_iff.1 hb).1⟩

theorem WellFormed.known_of_dependsOn (h : WellFormed modules) {m d : String}
    (hd : DependsOn modules m d) : d ∈ modules.map Module.name := by
  obtain ⟨x, hx, rfl, hd⟩ := hd
  exact h.known x hx d hd

/-- **The graph has a cycle exactly if some module depends on itself.** -/
theorem acyclic_graph_iff (h : WellFormed modules) : (graph modules).Acyclic ↔ Acyclic modules := by
  constructor
  · intro hgraph n hcycle
    obtain ⟨_, hnd, _⟩ := TransGen.head'_iff.1 hcycle
    obtain ⟨x, hx, rfl, _⟩ := hnd
    obtain ⟨v, hv⟩ := List.mem_iff_getElem?.1 hx
    refine hgraph v (Keyed.transGen_index ?_ h.known_of_dependsOn (transGen_swap.2 hcycle) hv hv)
    exact fun ha hb hab => (edge_graph_iff h.nodup).2 ⟨_, _, ha, hb, hab⟩
  · intro hmodules v hcycle
    obtain ⟨_, hvw, _⟩ := TransGen.head'_iff.1 hcycle
    obtain ⟨a, _, ha, _⟩ := (edge_graph_iff h.nodup).1 hvw
    exact hmodules a.name (transGen_swap.1 (Keyed.transGen_key (edge_graph_iff h.nodup).1 hcycle ha ha))

/-! ### Components of names -/

/-- The names of the modules at the given nodes, the last node first. -/
def componentNames (modules : List Module) (nodes : List ℕ) : List String :=
  nodes.reverse.filterMap fun v => (modules[v]?).map Module.name

theorem mem_componentNames {n : String} : n ∈ componentNames modules nodes ↔
    ∃ v ∈ nodes, ∃ a, modules[v]? = some a ∧ a.name = n := by
  simp [componentNames]

theorem nodup_componentNames (hn : (modules.map Module.name).Nodup) (hnodes : nodes.Nodup) :
    (componentNames modules nodes).Nodup := by
  refine List.Nodup.filterMap ?_ (List.nodup_reverse.2 hnodes)
  intro u v n hu hv
  obtain ⟨a, ha, rfl⟩ := Option.map_eq_some_iff.1 hu
  obtain ⟨b, hb, hname⟩ := Option.map_eq_some_iff.1 hv
  exact Keyed.index_eq_of_key_eq hn ha hb hname.symm

theorem length_componentNames (hlt : ∀ v ∈ nodes, v < modules.length) :
    (componentNames modules nodes).length = nodes.length := by
  rw [componentNames, List.length_filterMap_eq_countP, List.countP_eq_length.2,
    List.length_reverse]
  intro v hv
  simp [hlt v (List.mem_reverse.1 hv)]

/-- **A cyclic component of nodes is a cyclic component of names.** -/
theorem isCyclicComponent_of_nodes (h : WellFormed modules) (hc : (graph modules).IsComponent nodes)
    (hcyclic : (graph modules).isCyclic nodes = true) :
    IsCyclicComponent modules (componentNames modules nodes) := by
  have hlen : (componentNames modules nodes).length = nodes.length :=
    length_componentNames hc.lt_size
  refine ⟨nodup_componentNames h.nodup hc.nodup, fun a ha => ?_, fun a ha b => ?_, ?_⟩
  · obtain ⟨v, _, x, hx, rfl⟩ := mem_componentNames.1 ha
    exact List.mem_map_of_mem (List.mem_of_getElem? hx)
  · obtain ⟨v, hv, x, hx, rfl⟩ := mem_componentNames.1 ha
    -- nodes reach each other as names do, along edges that lead the other way
    have hreach : ∀ {u w a b}, modules[u]? = some a → modules[w]? = some b →
        ((graph modules).Reaches u w ↔ ReflTransGen (DependsOn modules) b.name a.name) := by
      intro u w a b hu hw
      rw [← reflTransGen_swap]
      exact Keyed.reflTransGen_iff h.nodup (edge_graph_iff h.nodup) h.known_of_dependsOn hu hw
    constructor
    · intro hb
      obtain ⟨w, hw, y, hy, rfl⟩ := mem_componentNames.1 hb
      obtain ⟨hvw, hwv⟩ := (hc.mem_iff v hv w).1 hw
      exact ⟨(hreach hy hx).1 hwv, (hreach hx hy).1 hvw⟩
    · rintro ⟨hxb, hbx⟩
      have hb : b ∈ modules.map Module.name := by
        rcases ReflTransGen.cases_tail hxb with rfl | ⟨_, _, hcb⟩
        · exact List.mem_map_of_mem (List.mem_of_getElem? hx)
        · exact h.known_of_dependsOn hcb
      obtain ⟨y, hy, rfl⟩ := List.mem_map.1 hb
      obtain ⟨w, hw⟩ := List.mem_iff_getElem?.1 hy
      have hmutual : (graph modules).Mutual v w := ⟨(hreach hx hw).2 hbx, (hreach hw hx).2 hxb⟩
      exact mem_componentNames.2 ⟨w, (hc.mem_iff v hv w).2 hmutual, y, hw, rfl⟩
  · -- an empty list of nodes is not cyclic
    match nodes, hcyclic with
    | [v], hcyclic =>
        right
        have hedge : (graph modules).Edge v v := by
          simpa [Digraph.isCyclic, Digraph.hasEdge, Digraph.Edge] using hcyclic
        obtain ⟨x, y, hx, hy, hxy⟩ := (edge_graph_iff h.nodup).1 hedge
        obtain rfl : x = y := Option.some.inj (hx.symm.trans hy)
        exact ⟨x.name, by simp [componentNames, hx], hxy⟩
    | u :: v :: rest, _ =>
        left
        rw [hlen, List.length_cons, List.length_cons]
        omega

/-! ### The outcome -/

theorem wellFormed_iff : WellFormed modules ↔
    checkEach [] modules = .ok () ∧ unknownDependency? modules = none := by
  rw [checkEach_eq_ok_iff, unknownDependency?_eq_none_iff]
  constructor
  · exact fun h => ⟨⟨h.nodup, by simp, h.entries⟩, h.known⟩
  · exact fun ⟨⟨hnodup, _, hentries⟩, hknown⟩ => ⟨hnodup, hentries, hknown⟩

/-- What is left to check of well-formed modules. -/
theorem validate_of_wellFormed (h : WellFormed modules) :
    validate modules = match (graph modules).cyclicComponent? with
      | some nodes => .error (.cycle (cycleNames modules nodes))
      | none => .ok () := by
  obtain ⟨heach, hknown⟩ := wellFormed_iff.1 h
  simp only [validate, heach, hknown]
  rfl

/-- Modules that are not well formed are reported as such before any cycle. -/
theorem validate_of_not_wellFormed (h : ¬ WellFormed modules) :
    ∃ e, validate modules = .error e ∧ ∀ c, e ≠ .cycle c := by
  rw [wellFormed_iff, not_and_or] at h
  cases heach : checkEach [] modules with
  | error e =>
      refine ⟨e, by rw [validate, heach]; rfl, ?_⟩
      obtain ⟨n, rfl | rfl⟩ := checkEach_error heach <;> simp
  | ok u =>
      cases hknown : unknownDependency? modules with
      | none => exact absurd ⟨heach, hknown⟩ (not_and_or.2 h)
      | some d =>
          refine ⟨.unknownDependency d.1 d.2, ?_, by simp⟩
          simp only [validate, heach, hknown]
          rfl

/-- What is known of modules that passed all checks. -/
theorem of_validate (h : validate modules = .ok ()) : WellFormed modules ∧ Acyclic modules := by
  by_cases hw : WellFormed modules
  · rw [validate_of_wellFormed hw] at h
    cases hfound : (graph modules).cyclicComponent? with
    | none =>
        have hgraph := (Digraph.cyclicComponent?_eq_none_iff (bounded_graph hw.nodup)).1 hfound
        exact ⟨hw, (acyclic_graph_iff hw).1 hgraph⟩
    | some nodes =>
        rw [hfound] at h
        cases h
  · obtain ⟨e, he, _⟩ := validate_of_not_wellFormed hw
    rw [he] at h
    cases h

theorem IsCyclicComponent.ne_nil {names : List String} (h : IsCyclicComponent modules names) :
    names ≠ [] := by
  rintro rfl
  rcases h.cyclic with hlen | ⟨a, ha, _⟩
  · simp at hlen
  · cases ha

theorem cycleNames_eq {first : String} {rest : List String}
    (h : componentNames modules nodes = first :: rest) :
    cycleNames modules nodes = first :: rest ++ [first] := by
  change componentNames modules nodes ++ (componentNames modules nodes).take 1 = _
  rw [h]
  rfl

/-- **Modules are valid exactly if they are well formed and no module depends on itself.**  A cycle is
reported only of well-formed modules, and always if they have one; up to its last name, which is the
first one again, it lists one component of the dependencies in which there is a cycle. -/
theorem validate_outcome (modules : List Module) :
    (validate modules = .ok () ↔ WellFormed modules ∧ Acyclic modules) ∧
    (∀ c, validate modules = .error (.cycle c) → WellFormed modules ∧
      ∃ first rest, c = first :: rest ++ [first] ∧ IsCyclicComponent modules (first :: rest)) ∧
    (WellFormed modules → ¬ Acyclic modules → ∃ c, validate modules = .error (.cycle c)) := by
  by_cases h : WellFormed modules
  · have hbounded : (graph modules).Bounded := bounded_graph h.nodup
    rw [← acyclic_graph_iff h, ← Digraph.cyclicComponent?_eq_none_iff hbounded,
      validate_of_wellFormed h]
    cases hfound : (graph modules).cyclicComponent? with
    | none => simp [h]
    | some nodes =>
        refine ⟨by simp, fun c hc => ⟨h, ?_⟩, fun _ _ => ⟨_, rfl⟩⟩
        obtain ⟨hcomponent, hcyclic⟩ := Digraph.cyclicComponent?_some hbounded hfound
        have hnames := isCyclicComponent_of_nodes h hcomponent hcyclic
        obtain ⟨first, rest, hcons⟩ := List.exists_cons_of_ne_nil hnames.ne_nil
        simp only [Except.error.injEq, ModuleError.cycle.injEq] at hc
        exact ⟨first, rest, hc.symm.trans (cycleNames_eq hcons), hcons ▸ hnames⟩
  · obtain ⟨e, he, hno⟩ := validate_of_not_wellFormed h
    simp [he, h, hno]

end Rebuild.Module
