/-
What a resolved order depends on.

A selection is served by following requirements through the whole registry, but what comes out hangs
on the planned tasks alone: which they are, and in which order they were registered.  So the order and
the repetition of the selected names do not matter, an order can be resolved again from its own names,
and a task that nothing planned requires has no influence, wherever it is registered and whoever would
rather run after it.

Main definitions:

* `TaskGraph.SamePlan` — **two selections lead to the same tasks, registered in the same order**.

Main results:

* `TaskGraph.samePlan_iff` — two selections lead to the same tasks exactly if they are planned alike;
* `TaskGraph.samePlan_of_extended` — registering more leaves what a closed selection leads to;
* `TaskGraph.resolve_of_plan` — **the same plan gives the same result**.
-/
import Rebuild.Proofs.TaskGraph.LeastOrder
import Rebuild.Proofs.TaskGraph.Registration

set_option relaxedAutoImplicit false
set_option autoImplicit false

namespace Rebuild.TaskGraph

open Relation

variable {g g' : TaskGraph} {s s' : List String} {tasks order : List Task} {t u : Task}

/-- The task is one of those that the selection leads to. -/
def Leads (g : TaskGraph) (s : List String) (t : Task) : Prop := t ∈ g.tasks ∧ g.Wanted s t.name

/-- **Two selections lead to the same tasks, registered in the same order**, and to no name that is not
registered. -/
structure SamePlan (g : TaskGraph) (s : List String) (g' : TaskGraph) (s' : List String) : Prop where
  closed : g.Closed s
  closed' : g'.Closed s'
  tasks : ∀ t, g.Leads s t ↔ g'.Leads s' t
  order : ∀ t u, g.Leads s t → g.Leads s u → (g.RegisteredBefore t u ↔ g'.RegisteredBefore t u)

/-! ### Plans -/

theorem RegisteredBefore.asymm (h : g.RegisteredBefore t u) : ¬ g.RegisteredBefore u t := by
  rintro ⟨j, i, hj, hi, hji⟩
  obtain ⟨i', j', hi', hj', hij⟩ := h
  obtain rfl := Option.some.inj (hi.symm.trans hi')
  obtain rfl := Option.some.inj (hj.symm.trans hj')
  exact absurd hij (Nat.lt_asymm hji)

theorem mem_planned_iff (h : g.planned s = .ok tasks) : t ∈ tasks ↔ g.Leads s t :=
  mem_planned h

/-- Planned tasks stand in their plan as they were registered. -/
theorem registeredBefore_iff (h : g.planned s = .ok tasks) {i j : ℕ} (ht : tasks[i]? = some t)
    (hu : tasks[j]? = some u) : g.RegisteredBefore t u ↔ i < j := by
  refine ⟨lt_of_registeredBefore h ht hu, fun hij => ?_⟩
  obtain ⟨hi, rfl⟩ := List.getElem?_eq_some_iff.1 ht
  obtain ⟨hj, rfl⟩ := List.getElem?_eq_some_iff.1 hu
  exact List.pairwise_iff_getElem.1 (registered_pairwise h) i j hi hj hij

/-- **Two selections lead to the same tasks exactly if they are planned alike.** -/
theorem samePlan_iff :
    g.SamePlan s g' s' ↔ ∃ tasks, g.planned s = .ok tasks ∧ g'.planned s' = .ok tasks := by
  constructor
  · intro h
    obtain ⟨tasks, hp⟩ := planned_of_closed h.closed
    obtain ⟨tasks', hp'⟩ := planned_of_closed h.closed'
    have hperm : tasks.Perm tasks' := by
      refine (List.perm_ext_iff_of_nodup (nodup_of_planned hp).of_map
        (nodup_of_planned hp').of_map).2 fun t => ?_
      rw [mem_planned_iff hp, mem_planned_iff hp', h.tasks t]
    -- both lists are sorted by the second order of registration
    have hsorted : tasks.Pairwise g'.RegisteredBefore :=
      (registered_pairwise hp).imp_of_mem fun ht hu htu =>
        (h.order _ _ ((mem_planned_iff hp).1 ht) ((mem_planned_iff hp).1 hu)).1 htu
    obtain rfl : tasks = tasks' := hperm.eq_of_pairwise
      (fun t u _ _ htu hut => absurd hut htu.asymm) hsorted (registered_pairwise hp')
    exact ⟨tasks, hp, hp'⟩
  · rintro ⟨tasks, hp, hp'⟩
    refine ⟨(planned_ok hp).1, (planned_ok hp').1, fun t => ?_, fun t u ht hu => ?_⟩
    · rw [← mem_planned_iff hp, mem_planned_iff hp']
    · obtain ⟨i, hi⟩ := List.mem_iff_getElem?.1 ((mem_planned_iff hp).2 ht)
      obtain ⟨j, hj⟩ := List.mem_iff_getElem?.1 ((mem_planned_iff hp).2 hu)
      rw [registeredBefore_iff hp hi hj, registeredBefore_iff hp' hi hj]

theorem SamePlan.resolve_eq (h : g.SamePlan s g' s') : g.resolve s = g'.resolve s' := by
  obtain ⟨tasks, hp, hp'⟩ := samePlan_iff.1 h
  rw [resolve_eq_arrange hp, resolve_eq_arrange hp']

/-! ### Selections of one registry -/

/-- Selections that want the same names have the same plan. -/
theorem samePlan_of_wanted (hclosed : g.Closed s) (h : ∀ n, g.Wanted s n ↔ g.Wanted s' n) :
    g.SamePlan s g s' where
  closed := hclosed
  closed' := fun n hn => hclosed n ((h n).2 hn)
  tasks := fun t => and_congr_right fun _ => h t.name
  order := fun _ _ _ _ => Iff.rfl

/-- Selections of the same names want the same. -/
theorem wanted_congr (h : ∀ n, n ∈ s' ↔ n ∈ s) (n : String) : g.Wanted s n ↔ g.Wanted s' n :=
  ⟨Wanted.mono fun m hm => (h m).2 hm, Wanted.mono fun m hm => (h m).1 hm⟩

/-- The names of an order lead to nothing new. -/
theorem wanted_names_iff (h : g.resolve s = .ok order) (n : String) :
    g.Wanted s n ↔ g.Wanted (order.map Task.name) n := by
  constructor
  · intro hn
    exact wanted_of_mem ((mem_names_of_resolve h).2 hn)
  · rintro ⟨m, hm, hmn⟩
    exact ((mem_names_of_resolve h).1 hm).trans hmn

/-! ### Registries that grow -/

/-- What a registered task requires, it requires in every registry that goes on from there. -/
theorem requires_iff_of_extended (h : g.tasks <+: g'.tasks) {a : String} (ha : a ∈ g.names)
    (b : String) : g'.Requires a b ↔ g.Requires a b := by
  constructor
  · rintro ⟨t, ht, rfl, hb⟩
    obtain ⟨u, hu, hname⟩ := mem_names.1 ha
    obtain rfl := g'.eq_of_name_eq (h.subset hu) ht hname
    exact ⟨u, hu, rfl, hb⟩
  · rintro ⟨t, ht, rfl, hb⟩
    exact ⟨t, h.subset ht, rfl, hb⟩

theorem wanted_iff_of_extended (h : g.tasks <+: g'.tasks) (hclosed : g.Closed s) (n : String) :
    g.Wanted s n ↔ g'.Wanted s n := by
  constructor
  · rintro ⟨m, hm, hmn⟩
    have hle : ∀ a b, g.Requires a b → g'.Requires a b := by
      rintro a b ⟨t, ht, hname, hb⟩
      exact ⟨t, h.subset ht, hname, hb⟩
    exact ⟨m, hm, ReflTransGen.mono hle m n hmn⟩
  · -- along the path from the selection: no name on it is new
    rintro ⟨m, hm, hmn⟩
    induction hmn with
    | refl => exact wanted_of_mem hm
    | tail _ hab ih => exact ih.tail ((requires_iff_of_extended h (hclosed _ ih) _).1 hab)

/-- A task keeps its place when more are registered. -/
theorem position?_of_extended (h : g.tasks <+: g'.tasks) {n : String} (hn : n ∈ g.names) :
    g'.position? n = g.position? n := by
  obtain ⟨more, hmore⟩ := h
  obtain ⟨t, ht, rfl⟩ := mem_names.1 hn
  have hsome : (g.tasks.findIdx? (·.name == t.name)).isSome = true := by
    rw [List.findIdx?_isSome]
    exact List.any_eq_true.2 ⟨t, ht, by simp⟩
  rw [position?, ← hmore, List.findIdx?_append, Option.or_of_isSome hsome]
  rfl

/-- **Registering more leaves what a closed selection leads to.** -/
theorem samePlan_of_extended (h : g.tasks <+: g'.tasks) (hclosed : g.Closed s) :
    g.SamePlan s g' s := by
  have hnames : ∀ {n}, g'.Wanted s n → n ∈ g.names := fun hn =>
    hclosed _ ((wanted_iff_of_extended h hclosed _).2 hn)
  refine ⟨hclosed, fun n hn => ?_, fun t => ⟨fun ⟨ht, hw⟩ => ?_, fun ⟨ht, hw⟩ => ?_⟩,
    fun t u ht hu => ?_⟩
  · obtain ⟨t, ht, rfl⟩ := mem_names.1 (hnames hn)
    exact mem_names.2 ⟨t, h.subset ht, rfl⟩
  · exact ⟨h.subset ht, (wanted_iff_of_extended h hclosed _).1 hw⟩
  · obtain ⟨u, hu, hname⟩ := mem_names.1 (hnames hw)
    obtain rfl := g'.eq_of_name_eq (h.subset hu) ht hname
    exact ⟨hu, (wanted_iff_of_extended h hclosed _).2 hw⟩
  · unfold RegisteredBefore
    rw [position?_of_extended h (mem_names.2 ⟨t, ht.1, rfl⟩),
      position?_of_extended h (mem_names.2 ⟨u, hu.1, rfl⟩)]

/-! ### Results -/

/-- A closed selection has an order, or a cycle is reported. -/
theorem known_of_closed (h : g.Closed s) :
    (∃ order, g.resolve s = .ok order) ∨ ∃ names, g.resolve s = .error (.cycle names) := by
  by_cases hacyclic : g.Acyclic s
  · exact Or.inl (resolve_ok_iff.2 ⟨h, hacyclic⟩)
  · exact Or.inr (resolve_cycle h hacyclic)

/-- A selection that asks for nothing unknown is closed. -/
theorem closed_of_known
    (h : ∀ name requiredBy, g.resolve s ≠ .error (.unknownTask name requiredBy)) : g.Closed s := by
  by_contra hclosed
  obtain ⟨r, hr, _⟩ := resolve_unknown hclosed
  exact h _ _ hr

/-- **The result hangs on the planned tasks alone.**  Two selections, of one registry or of two, that
lead to the same tasks in the same order of registration have the same result: the same order, or the
same cycle.  So selections of the same names have the same result, whatever their order and repetition,
unless they ask for something unknown, which both then report; the names of an order give this order
again; and registering more tasks changes no result but that of a selection that asked for something
unknown. -/
theorem resolve_of_plan (g : TaskGraph) (s : List String) :
    (∀ g' s', g.SamePlan s g' s' → g.resolve s = g'.resolve s' ∧
      ((∃ order, g.resolve s = .ok order) ∨ ∃ names, g.resolve s = .error (.cycle names))) ∧
    (∀ s', (∀ n, n ∈ s' ↔ n ∈ s) → g.resolve s' = g.resolve s ∨
      (∃ name requiredBy, g.resolve s = .error (.unknownTask name requiredBy)) ∧
        ∃ name requiredBy, g.resolve s' = .error (.unknownTask name requiredBy)) ∧
    (∀ order, g.resolve s = .ok order → g.resolve (order.map Task.name) = .ok order) ∧
    ∀ more g', g.registerAll more = .ok g' →
      (∀ name requiredBy, g.resolve s ≠ .error (.unknownTask name requiredBy)) →
        g'.resolve s = g.resolve s := by
  refine ⟨fun g' s' h => ⟨h.resolve_eq, known_of_closed h.closed⟩, fun s' h => ?_,
    fun order h => ?_, fun more g' hmore hknown => ?_⟩
  · by_cases hclosed : g.Closed s
    · exact Or.inl (samePlan_of_wanted hclosed (wanted_congr h)).resolve_eq.symm
    · have hclosed' : ¬ g.Closed s' := fun hs' => hclosed fun n hn => hs' n ((wanted_congr h n).1 hn)
      obtain ⟨r, hr, _⟩ := resolve_unknown hclosed
      obtain ⟨r', hr', _⟩ := resolve_unknown hclosed'
      exact Or.inr ⟨⟨_, _, hr⟩, _, _, hr'⟩
  · have hclosed := (resolve_ok_iff.1 ⟨order, h⟩).1
    rw [← (samePlan_of_wanted hclosed (wanted_names_iff h)).resolve_eq, h]
  · have hprefix : g.tasks <+: g'.tasks := ⟨more, (tasks_of_registerAll hmore).symm⟩
    exact (samePlan_of_extended hprefix (closed_of_known hknown)).resolve_eq.symm

/-! ### An application in three registries -/

def forgedTools : Task := .free "tools" (.compile "tools")

def forgedLib : Task := (Task.free "lib" (.compile "lib")).requiring "tools"

/-- The application would rather follow its manual and the archive. -/
def forgedApp : Task :=
  (Task.free "app" (.compile "app")).requiring "lib" |>.following "docs" |>.following "zip"

def forgedZip : Task := (Task.free "zip" (.compile "zip")).requiring "app"

/-- The manual is registered, and the tools last. -/
def forge : TaskGraph where
  tasks := [.free "docs" (.compile "docs"), forgedApp, forgedLib, forgedTools]
  names_nodup := by decide

/-- Nothing is known of a manual, but the archive requires the application. -/
def annex : TaskGraph where
  tasks := [forgedApp, forgedLib, forgedZip, forgedTools]
  names_nodup := by decide

/-- The archive is registered later. -/
def grownForge : TaskGraph where
  tasks := forge.tasks ++ [forgedZip]
  names_nodup := by decide

theorem forge_samePlan : forge.SamePlan ["app"] annex ["tools", "app", "tools"] :=
  samePlan_iff.2 ⟨[forgedApp, forgedLib, forgedTools], by cbv, by cbv⟩

theorem forge_grows : forge.registerAll [forgedZip] = .ok grownForge := rfl

/-- The application is compiled last, wherever it is registered and however it is selected. -/
theorem forge_resolve_of_plan :
    forge.SamePlan ["app"] annex ["tools", "app", "tools"] ∧
      forge.registerAll [forgedZip] = .ok grownForge ∧
      forge.resolve ["app"] = .ok [forgedTools, forgedLib, forgedApp] ∧
      annex.resolve ["tools", "app", "tools"] = .ok [forgedTools, forgedLib, forgedApp] ∧
      forge.resolve ["tools", "lib", "app"] = .ok [forgedTools, forgedLib, forgedApp] ∧
      grownForge.resolve ["app"] = .ok [forgedTools, forgedLib, forgedApp] := by
  have horder : forge.resolve ["app"] = .ok [forgedTools, forgedLib, forgedApp] := by cbv
  have hplan := resolve_of_plan forge ["app"]
  refine ⟨forge_samePlan, forge_grows, horder, ?_, hplan.2.2.1 _ horder, ?_⟩
  · rw [← (hplan.1 _ _ forge_samePlan).1, horder]
  · rw [hplan.2.2.2 _ _ forge_grows (by simp [horder]), horder]

end Rebuild.TaskGraph
