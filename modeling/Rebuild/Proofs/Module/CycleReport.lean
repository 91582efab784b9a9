/-
What the report of a dependency cycle says.

A cycle of modules is reported as a whole component, in the order in which the search lists it.  That
order need not follow dependencies: where a module has two dependents in the component, both are listed
behind it, and the second of them is then printed as if it depended on the first.

Main definitions:

* `Module.IsRing` — no module of a list is a dependency of two others of the list.

Main results:

* `Module.led_of_validate` — every module that is printed behind the first depends on one before it;
* `Module.reported_cycle` — **the modules of a ring are printed in the order of their dependencies**;
* `Module.hub_not_in_order` — two modules that depend on a third, and it on them, are not.
-/
import Rebuild.Proofs.Digraph.SearchOrder
import Rebuild.Proofs.Module.Validate

set_option relaxedAutoImplicit false
set_option autoImplicit false

namespace Rebuild.Module

open Relation

variable {modules : List Module} {names c : List String} {first : String} {rest : List String}

instance (modules : List Module) (m d : String) : Decidable (DependsOn modules m d) :=
  inferInstanceAs (Decidable (∃ x ∈ modules, _))

/-- No module of the list is a dependency of two others of the list. -/
def IsRing (modules : List Module) (names : List String) : Prop :=
  ∀ x ∈ names, ∀ y ∈ names, ∀ z ∈ names, y ≠ x → z ≠ x →
    DependsOn modules y x → DependsOn modules z x → y = z

instance (modules : List Module) (names : List String) : Decidable (IsRing modules names) :=
  inferInstanceAs (Decidable (∀ x ∈ names, _))

/-- The first step that leaves a name on the way to another one. -/
theorem exists_dependency_ne {a b : String} (h : ReflTransGen (DependsOn modules) a b) (hne : a ≠ b) :
    ∃ d, d ≠ a ∧ DependsOn modules a d ∧ ReflTransGen (DependsOn modules) d b := by
  induction h using ReflTransGen.head_induction_on with
  | refl => exact absurd rfl hne
  | @head a d had hdb ih =>
      by_cases hda : d = a
      · subst hda
        exact ih hne
      · exact ⟨d, hda, had, hdb⟩

/-- Every module of a cyclic component depends on one of its modules, and on another one if there is
another. -/
theorem IsCyclicComponent.exists_dependency (h : IsCyclicComponent modules (first :: rest)) :
    ∃ d ∈ first :: rest, DependsOn modules first d ∧ (d = first → rest = []) := by
  have hfirst : first ∈ first :: rest := List.mem_cons_self ..
  cases rest with
  | nil =>
      obtain ⟨a, ha, hself⟩ := h.cyclic.resolve_left (by simp)
      obtain rfl : first = a := by simpa using ha
      exact ⟨first, hfirst, hself, fun _ => rfl⟩
  | cons second rest =>
      have hne : first ≠ second := fun heq => (List.nodup_cons.1 h.nodup).1 (by simp [heq])
      obtain ⟨hgo, hback⟩ := (h.mem_iff first hfirst second).1 (by simp)
      obtain ⟨d, hd, hdep, hrest⟩ := exists_dependency_ne hgo hne
      refine ⟨d, ?_, hdep, fun heq => absurd heq hd⟩
      exact (h.mem_iff first hfirst d).2 ⟨ReflTransGen.single hdep, hrest.trans hback⟩

/-- **Every module that is printed behind the first depends on one that is printed before it.** -/
theorem led_of_validate (h : validate modules = .error (.cycle c)) :
    ∃ first rest, c = first :: rest ++ [first] ∧ IsCyclicComponent modules (first :: rest) ∧
      Led (Function.swap (DependsOn modules)) [first] rest := by
  by_cases hw : WellFormed modules
  · have hbounded : (graph modules).Bounded := bounded_graph hw.nodup
    rw [validate_of_wellFormed hw] at h
    cases hfound : (graph modules).cyclicComponent? with
    | none =>
        rw [hfound] at h
        cases h
    | some nodes =>
        rw [hfound] at h
        simp only [Except.error.injEq, ModuleError.cycle.injEq] at h
        obtain ⟨hcomponent, hcyclic⟩ := Digraph.cyclicComponent?_some hbounded hfound
        have hnames := isCyclicComponent_of_nodes hw hcomponent hcyclic
        obtain ⟨v, others, hreverse, hled⟩ :=
          Digraph.components_inTurn hbounded nodes (List.mem_of_find?_eq_some hfound)
        obtain ⟨m, hm⟩ : ∃ m, modules[v]? = some m := by
          refine ⟨_, List.getElem?_eq_getElem (hcomponent.lt_size v ?_)⟩
          exact List.mem_reverse.1 (hreverse ▸ List.mem_cons_self ..)
        have hedge : ∀ {u w}, (graph modules).Edge u w → ∃ x y,
            (modules[u]?).map Module.name = some x ∧ (modules[w]?).map Module.name = some y ∧
              Function.swap (DependsOn modules) x y := by
          intro u w huw
          obtain ⟨a, b, ha, hb, hab⟩ := (edge_graph_iff hw.nodup).1 huw
          exact ⟨a.name, b.name, by simp [ha], by simp [hb], hab⟩
        have hcons : componentNames modules nodes =
            m.name :: others.filterMap fun v => (modules[v]?).map Module.name := by
          simp [componentNames, hreverse, hm]
        refine ⟨m.name, _, h.symm.trans (cycleNames_eq hcons), hcons ▸ hnames, ?_⟩
        have hmapped := hled.filterMap hedge
        rwa [List.filterMap_cons_some (by simp [hm]; rfl), List.filterMap_nil] at hmapped
  · obtain ⟨e, he, hno⟩ := validate_of_not_wellFormed hw
    rw [he] at h
    exact absurd (Except.error.inj h) (hno c)

/-- **What a reported cycle says of dependencies.**  Its last name is the first one again; every other
name but the first is that of a module that depends on one printed before it, and the first depends on
one of those printed.  If none of them is a dependency of two others, each name is that of a dependency
of the next. -/
theorem reported_cycle (modules : List Module) (c : List String)
    (h : validate modules = .error (.cycle c)) :
    (∃ first rest, c = first :: rest ++ [first] ∧
      Led (Function.swap (DependsOn modules)) [first] rest ∧
      ∃ d ∈ first :: rest, DependsOn modules first d) ∧
    (IsRing modules c → c.IsChain fun x y => DependsOn modules y x) := by
  obtain ⟨first, rest, rfl, hcomponent, hled⟩ := led_of_validate h
  obtain ⟨d, hd, hdep, halone⟩ := hcomponent.exists_dependency
  refine ⟨⟨first, rest, rfl, hled, d, hd, hdep⟩, fun hring => ?_⟩
  have hmem : ∀ x ∈ first :: rest, x ∈ first :: rest ++ [first] := fun x hx =>
    List.mem_append_left _ hx
  refine hled.isChain_closed hcomponent.nodup ?_ ⟨d, hd, hdep, halone⟩
  intro x hx y hy z hz
  exact hring x (hmem x hx) y (hmem y hy) z (hmem z hz)

/-! ### A ring and a hub -/

/-- A module with dependencies and nothing else. -/
def bare (name : String) (deps : List String) : Module where
  name := name
  sources := []
  entries := [⟨"x"⟩]
  outputDir := defaultOutputDir
  artifact := ⟨"y"⟩
  libraries := []
  deps := deps
  requires := []
  relocations := []

/-- Three modules that depend on each other in a ring. -/
def ringed : List Module := [bare "a" ["c"], bare "b" ["a"], bare "c" ["b"]]

/-- Two modules that depend on a third, which depends on them. -/
def hubbed : List Module := [bare "a" ["b", "c"], bare "b" ["a"], bare "c" ["a"]]

/-- The modules of a ring are printed in the order of their dependencies. -/
theorem ring_in_order :
    validate ringed = .error (.cycle ["a", "b", "c", "a"]) ∧ IsRing ringed ["a", "b", "c", "a"] ∧
    ["a", "b", "c", "a"].IsChain fun x y => DependsOn ringed y x := by
  have h : validate ringed = .error (.cycle ["a", "b", "c", "a"]) := by decide +kernel
  have hring : IsRing ringed ["a", "b", "c", "a"] := by decide +kernel
  exact ⟨h, hring, (reported_cycle ringed _ h).2 hring⟩

/-- **Around a hub they are not**: the third module is printed as if it depended on the second. -/
theorem hub_not_in_order :
    validate hubbed = .error (.cycle ["a", "b", "c", "a"]) ∧
    ¬ DependsOn hubbed "c" "b" ∧ ¬ ["a", "b", "c", "a"].IsChain fun x y => DependsOn hubbed y x := by
  have hno : ¬ DependsOn hubbed "c" "b" := by decide +kernel
  refine ⟨by decide +kernel, hno, fun hchain => hno ?_⟩
  exact (List.isChain_cons_cons.1 (List.isChain_cons_cons.1 hchain).2).1

end Rebuild.Module
