/-
In which order modules are compiled.

The dependencies of a module become soft order between compile tasks, and what it requires becomes
hard order.  Dependencies alone have no cycle, so soft order is kept unless required compile tasks
close one.

Soft order is kept between tasks that are planned.  A chain of dependencies through a module that is
up to date leaves no order between its ends, and then the list of modules decides.

Main definitions:

* `Module.IsDepOf`, `Module.IsRequiredBy`, `Module.Precedes` — how one module comes before another;
* `Plan.scheduled`, `Plan.Before` — the modules that a plan compiles, and the order of its tasks.

Main results:

* `Builder.cycleThrough_of_not_orderable` — tasks that cannot all be ordered come from modules with a
  cycle through a requirement;
* `Builder.dependency_order` — **a module is compiled before one of its dependencies only if required
  compile tasks close a cycle**;
* `Builder.before_of_listed` — a module that is listed before another, with all that leads to it, is
  compiled before it;
* `Builder.transitive_order` — **when indirect dependencies are compiled first**;
* `Builder.reversed_chain` — and that they are not always.
-/
import Rebuild.Proofs.Build.Plan
import Rebuild.Proofs.Module.Validate
import Rebuild.Proofs.TaskGraph.SoftOrder

set_option relaxedAutoImplicit false
set_option autoImplicit false

namespace Rebuild

open Relation

/-! ### Modules before modules, tasks before tasks -/

namespace Module

/-- The second module has the first among its dependencies. -/
def IsDepOf (d m : Module) : Prop := d.name ∈ m.deps

/-- The task of the second module requires that of the first. -/
def IsRequiredBy (d m : Module) : Prop := d.taskName ∈ m.requires

/-- The first module comes before the second, as a dependency or as a requirement. -/
def Precedes (d m : Module) : Prop := d.IsDepOf m ∨ d.IsRequiredBy m

/-- Dependencies of valid modules make no cycle. -/
theorem not_isDepOf_cycle {modules part : List Module} (hvalid : validate modules = .ok ())
    (hsub : ∀ m ∈ part, m ∈ modules) (m : Module) : ¬ TransGen (Among part IsDepOf) m m := by
  intro hcycle
  have hnames : TransGen (Function.swap (DependsOn modules)) m.name m.name :=
    TransGen.lift Module.name (fun d x hdx => ⟨x, hsub x hdx.2.1, rfl, hdx.2.2⟩) _ _ hcycle
  exact (of_validate hvalid).2 m.name (transGen_swap.1 hnames)

/-- No valid module depends on itself. -/
theorem IsDepOf.name_ne {modules : List Module} {d m : Module} (hdep : d.IsDepOf m)
    (hvalid : validate modules = .ok ()) (hm : m ∈ modules) : d.name ≠ m.name := by
  intro hname
  exact (of_validate hvalid).2 m.name (TransGen.single ⟨m, hm, rfl, hname ▸ hdep⟩)

end Module

/-- No module requires the task of a module. -/
def Config.RequiresNoModule (c : Config) : Prop :=
  ∀ x ∈ c.modules, ∀ y ∈ c.modules, ¬ y.IsRequiredBy x

theorem Config.requiresNoModule_of_nil {c : Config} (h : ∀ x ∈ c.modules, x.requires = []) :
    c.RequiresNoModule := by
  intro x hx y _ hyx
  rw [Module.IsRequiredBy, h x hx] at hyx
  exact List.not_mem_nil hyx

namespace Plan

variable {p : Plan} {a b n : String} {m : Module} {modules : List Module}

/-- The modules whose tasks are planned. -/
def scheduled (p : Plan) (modules : List Module) : List Module :=
  modules.filter fun m => m.taskName ∈ p.names

theorem mem_scheduled : m ∈ p.scheduled modules ↔ m ∈ modules ∧ m.taskName ∈ p.names := by
  simp [scheduled]

/-- Both tasks are planned, the first at an earlier place. -/
def Before (p : Plan) (a b : String) : Prop := b ∈ p.names ∧ p.names.idxOf a < p.names.idxOf b

theorem Before.mem_left (h : p.Before a b) : a ∈ p.names :=
  List.idxOf_lt_length_iff.1 (h.2.trans (List.idxOf_lt_length_iff.2 h.1))

theorem Before.trans (hab : p.Before a b) (hbn : p.Before b n) : p.Before a n :=
  ⟨hbn.1, hab.2.trans hbn.2⟩

theorem Before.asymm (hab : p.Before a b) : ¬ p.Before b a := by
  intro hba
  exact absurd hab.2 (Nat.not_lt.2 (le_of_lt hba.2))

theorem before_of_split {before after : List Task} {s t : Task} (hn : p.names.Nodup)
    (heq : p.tasks = before ++ t :: after) (hs : s ∈ before) : p.Before s.name t.name := by
  have hnames : p.names = before.map Task.name ++ t.name :: after.map Task.name := by
    rw [names, heq, List.map_append, List.map_cons]
  have hmem : s.name ∈ before.map Task.name := List.mem_map_of_mem hs
  have hnot : t.name ∉ before.map Task.name := by
    rw [hnames] at hn
    exact fun ht => (List.nodup_append.1 hn).2.2 t.name ht t.name (List.mem_cons_self ..) rfl
  refine ⟨by simp [hnames], ?_⟩
  rw [hnames, List.idxOf_append_of_mem hmem, List.idxOf_append_of_notMem hnot, List.idxOf_cons_self]
  have := List.idxOf_lt_length_iff.2 hmem
  omega

end Plan

namespace Builder

variable {b : Builder} {c : Config} {fs : FileSystem} {plan : Plan} {m d : Module} {a n : String}
  {selected : List String}

/-! ### What precedes the task of a module -/

/-- **The soft order of the graph is that of the modules.** -/
theorem follows_iff (h : b.graph.tasks = c.taskList) : b.graph.Follows a n ↔
    ∃ m ∈ c.modules, m.taskName = a ∧ ∃ d ∈ m.deps, Module.compileTask d = n := by
  unfold TaskGraph.Follows
  rw [h, Config.taskList]
  constructor
  · rintro ⟨t, ht, rfl, hn⟩
    rcases List.mem_cons.1 ht with rfl | ht
    · cases hn
    · rcases List.mem_cons.1 ht with rfl | ht
      · cases hn
      · obtain ⟨m, hm, rfl⟩ := List.mem_map.1 ht
        exact ⟨m, hm, m.name_toTask.symm, Module.mem_runsAfter_toTask.1 hn⟩
  · rintro ⟨m, hm, rfl, hn⟩
    refine ⟨m.toTask, ?_, m.name_toTask, Module.mem_runsAfter_toTask.2 hn⟩
    exact List.mem_cons_of_mem _ (List.mem_cons_of_mem _ (List.mem_map_of_mem hm))

theorem not_precedes_outline (h : b.graph.tasks = c.taskList) :
    ¬ b.graph.Precedes selected a Module.outlineTask := by
  rintro ⟨_, hreq | ⟨hfollows, _⟩⟩
  · exact not_requires_outline h hreq
  · obtain ⟨m, _, hname, _⟩ := (follows_iff h).1 hfollows
    exact Module.compileTask_ne_outlineTask m.name hname

/-- Only the outline precedes the tools. -/
theorem eq_of_precedes_tools (h : b.graph.tasks = c.taskList)
    (ha : b.graph.Precedes selected a Module.toolsTask) : a = Module.outlineTask := by
  obtain ⟨_, hreq | ⟨hfollows, _⟩⟩ := ha
  · rcases (requires_iff h).1 hreq with ⟨m, _, hname, _⟩ | ⟨_, heq⟩
    · exact absurd hname (Module.compileTask_ne_toolsTask m.name)
    · exact heq
  · obtain ⟨m, _, hname, _⟩ := (follows_iff h).1 hfollows
    exact absurd hname (Module.compileTask_ne_toolsTask m.name)

/-- What the task of a module precedes is the task of a module. -/
theorem module_of_precedes (h : b.graph.tasks = c.taskList)
    (hd : b.graph.Precedes selected d.taskName n) :
    ∃ m ∈ c.modules, m.taskName = n ∧ d.Precedes m := by
  obtain ⟨_, hreq | ⟨hfollows, _⟩⟩ := hd
  · rcases (requires_iff h).1 hreq with ⟨m, hm, hname, hreq⟩ | ⟨_, heq⟩
    · exact ⟨m, hm, hname, Or.inr hreq⟩
    · exact absurd heq (Module.compileTask_ne_outlineTask d.name)
  · obtain ⟨m, hm, hname, e, he, hed⟩ := (follows_iff h).1 hfollows
    obtain rfl := Module.compileTask_injective hed
    exact ⟨m, hm, hname, Or.inl he⟩

theorem eq_of_taskName_eq (h : ofConfig c = .ok b) (hm : m ∈ c.modules) (hd : d ∈ c.modules)
    (hname : m.taskName = d.taskName) : m = d :=
  List.inj_on_of_nodup_map (nodup_names h) hm hd (Module.compileTask_injective hname)

/-! ### Registration -/

theorem position?_taskName (h : b.graph.tasks = c.taskList) (hm : m ∈ c.modules) :
    b.graph.position? m.taskName = some (c.modules.idxOf m + 2) := by
  refine (Keyed.findIdx?_eq_some_iff b.graph.names_nodup).2 ⟨m.toTask, ?_, m.name_toTask⟩
  rw [h, Config.taskList]
  simp [List.getElem?_idxOf hm]

/-- The copying tasks are registered before those of modules. -/
theorem position?_copying (h : b.graph.tasks = c.taskList)
    (hn : n = Module.outlineTask ∨ n = Module.toolsTask) : ∃ i < 2, b.graph.position? n = some i := by
  rcases hn with rfl | rfl
  · refine ⟨0, by omega, (Keyed.findIdx?_eq_some_iff b.graph.names_nodup).2 ⟨c.outlineTask, ?_, rfl⟩⟩
    rw [h]
    rfl
  · refine ⟨1, by omega, (Keyed.findIdx?_eq_some_iff b.graph.names_nodup).2 ⟨c.toolsTask, ?_, rfl⟩⟩
    rw [h]
    rfl

/-! ### Cycles of tasks as cycles of modules -/

section Resolved

variable (h : ofConfig c = .ok b) (hr : b.graph.resolve selected = .ok plan.tasks)

include hr

theorem mem_scheduled_iff :
    m ∈ plan.scheduled c.modules ↔ m ∈ c.modules ∧ b.graph.Wanted selected m.taskName := by
  rw [Plan.mem_scheduled, Plan.names, TaskGraph.mem_names_of_resolve hr]

include h

/-- A wanted task is one of the two copying tasks or that of a scheduled module. -/
theorem module_of_wanted (hn : b.graph.Wanted selected n) : n = Module.outlineTask ∨
    n = Module.toolsTask ∨ ∃ m ∈ plan.scheduled c.modules, m.taskName = n := by
  have hclosed := (TaskGraph.resolve_ok_iff.1 ⟨_, hr⟩).1
  rcases (mem_names_iff (of_ofConfig h).2.1).1 (hclosed n hn) with rfl | rfl | ⟨m, hm, rfl⟩
  · exact Or.inl rfl
  · exact Or.inr (Or.inl rfl)
  · exact Or.inr (Or.inr ⟨m, (mem_scheduled_iff hr).2 ⟨hm, hn⟩, rfl⟩)

/-- A path of tasks that starts at a module is a path of modules. -/
theorem path_of_precedes (hd : d ∈ c.modules)
    (hpath : TransGen (b.graph.Precedes selected) d.taskName n) : ∃ m ∈ c.modules, m.taskName = n ∧
      TransGen (Among (plan.scheduled c.modules) Module.Precedes) d m := by
  have htasks := (of_ofConfig h).2.1
  have hstep : ∀ {d n}, d ∈ c.modules → b.graph.Precedes selected d.taskName n →
      ∃ m ∈ c.modules, m.taskName = n ∧
        Among (plan.scheduled c.modules) Module.Precedes d m := by
    intro d n hd hdn
    obtain ⟨m, hm, rfl, hdm⟩ := module_of_precedes htasks hdn
    exact ⟨m, hm, rfl, (mem_scheduled_iff hr).2 ⟨hd, hdn.wanted.1⟩,
      (mem_scheduled_iff hr).2 ⟨hm, hdn.wanted.2⟩, hdm⟩
  induction hpath with
  | single hdn =>
      obtain ⟨m, hm, hname, hdm⟩ := hstep hd hdn
      exact ⟨m, hm, hname, TransGen.single hdm⟩
  | tail _ hyn ih =>
      obtain ⟨y, hy, rfl, hdy⟩ := ih
      obtain ⟨m, hm, hname, hym⟩ := hstep hy hyn
      exact ⟨m, hm, hname, hdy.tail hym⟩

/-- A cycle of tasks goes through no copying task. -/
theorem module_of_cycle (hcycle : TransGen (b.graph.Precedes selected) n n) :
    ∃ m ∈ c.modules, m.taskName = n := by
  have htasks := (of_ofConfig h).2.1
  obtain ⟨y, hny, hyn⟩ := TransGen.tail'_iff.1 hcycle
  rcases module_of_wanted h hr hyn.wanted.2 with rfl | rfl | ⟨m, hm, hname⟩
  · exact absurd hyn (not_precedes_outline htasks)
  · -- the step to the tools comes from the outline, and no step leads there
    obtain rfl := eq_of_precedes_tools htasks hyn
    rcases ReflTransGen.cases_tail hny with heq | ⟨x, _, hx⟩
    · exact absurd heq (by decide)
    · exact absurd hx (not_precedes_outline htasks)
  · exact ⟨m, (Plan.mem_scheduled.1 hm).1, hname⟩

/-- **Tasks of valid modules that cannot all be ordered**: the scheduled modules have a cycle of
dependencies and requirements, and a requirement is part of it. -/
theorem cycleThrough_of_not_orderable (hvalid : Module.validate c.modules = .ok ())
    (hno : ¬ b.graph.Orderable selected) :
    CycleThrough (plan.scheduled c.modules) Module.Precedes Module.IsRequiredBy := by
  obtain ⟨n, hn⟩ := not_forall.1 hno
  have hcycle := not_not.1 hn
  obtain ⟨d, hd, rfl⟩ := module_of_cycle h hr hcycle
  obtain ⟨m, hm, hname, hpath⟩ := path_of_precedes h hr hd hcycle
  obtain rfl := eq_of_taskName_eq h hm hd hname
  refine cycleThrough_of_cycle (p := Module.IsDepOf) ?_ hpath
  exact Module.not_isDepOf_cycle hvalid fun x hx => (Plan.mem_scheduled.1 hx).1

/-- Without required compile tasks all tasks can be ordered. -/
theorem orderable_of_free (hvalid : Module.validate c.modules = .ok ())
    (hfree : c.RequiresNoModule) : b.graph.Orderable selected := by
  by_contra hno
  obtain ⟨y, x, ⟨hy, hx, hyx⟩, _⟩ := cycleThrough_of_not_orderable h hr hvalid hno
  exact hfree x (Plan.mem_scheduled.1 hx).1 y (Plan.mem_scheduled.1 hy).1 hyx

/-! ### Direct dependencies -/

/-- The place of a scheduled module in the plan. -/
theorem split_of_scheduled (hm : m ∈ plan.scheduled c.modules) :
    ∃ before after, plan.tasks = before ++ m.toTask :: after := by
  obtain ⟨hm, hname⟩ := Plan.mem_scheduled.1 hm
  obtain ⟨t, ht, htm⟩ := List.mem_map.1 hname
  have htg := (((TaskGraph.isHardOrder_of_resolve hr).mem t).1 ht).1
  have hmg : m.toTask ∈ b.graph.tasks := by
    rw [(of_ofConfig h).2.1, Config.taskList]
    exact List.mem_cons_of_mem _ (List.mem_cons_of_mem _ (List.mem_map_of_mem hm))
  obtain rfl := b.graph.eq_of_name_eq htg hmg (htm.trans m.name_toTask.symm)
  exact List.append_of_mem ht

/-- A required module is compiled first. -/
theorem before_of_isRequiredBy (hm : m ∈ plan.scheduled c.modules) (hd : d.IsRequiredBy m) :
    plan.Before d.taskName m.taskName := by
  obtain ⟨before, after, heq⟩ := split_of_scheduled h hr hm
  have hafter := (TaskGraph.isHardOrder_of_resolve hr).after before _ after heq
  obtain ⟨s, hs, hname⟩ := hafter d.taskName (Module.mem_dependsOn_toTask.2 hd)
  have hbefore := Plan.before_of_split (TaskGraph.nodup_names_of_resolve hr) heq hs
  rwa [hname, m.name_toTask] at hbefore

/-- **Where all tasks can be ordered, a dependency is compiled first.** -/
theorem before_of_isDepOf (ho : b.graph.Orderable selected) (hm : m ∈ plan.scheduled c.modules)
    (hd : d ∈ plan.scheduled c.modules) (hdep : d.IsDepOf m) (hne : d.name ≠ m.name) :
    plan.Before d.taskName m.taskName := by
  obtain ⟨before, after, heq⟩ := split_of_scheduled h hr hm
  have hschedule := TaskGraph.isSchedule_of_resolve ho hr
  have hfollows : d.taskName ∈ m.toTask.runsAfter :=
    Module.mem_runsAfter_toTask.2 ⟨d.name, hdep, rfl⟩
  have hother : d.taskName ≠ m.toTask.name := by
    rw [m.name_toTask]
    exact fun hname => hne (Module.compileTask_injective hname)
  have hwanted := ((mem_scheduled_iff hr).1 hd).2
  obtain ⟨s, hs, hname⟩ := hschedule.follows before _ after heq _ hfollows hother hwanted
  have hbefore := Plan.before_of_split (TaskGraph.nodup_names_of_resolve hr) heq hs
  rwa [hname, m.name_toTask] at hbefore

/-- Where all modules of a chain of dependencies are compiled, they are compiled along it. -/
theorem before_of_path (hvalid : Module.validate c.modules = .ok ())
    (ho : b.graph.Orderable selected)
    (hpath : TransGen (Among (plan.scheduled c.modules) Module.IsDepOf) d m) :
    plan.Before d.taskName m.taskName := by
  have hstep : ∀ {x y}, Among (plan.scheduled c.modules) Module.IsDepOf x y →
      plan.Before x.taskName y.taskName := by
    rintro x y ⟨hx, hy, hdep⟩
    exact before_of_isDepOf h hr ho hy hx hdep (hdep.name_ne hvalid (Plan.mem_scheduled.1 hy).1)
  induction hpath with
  | single hdx => exact hstep hdx
  | tail _ hxy ih => exact ih.trans (hstep hxy)

/-! ### The order of the list -/

/-- Where no compile task is required, only dependencies and copying tasks lead to a module. -/
theorem leads_to_module (hfree : c.RequiresNoModule) (hd : d ∈ plan.scheduled c.modules)
    (hpath : ReflTransGen (b.graph.Precedes selected) n d.taskName) :
    (n = Module.outlineTask ∨ n = Module.toolsTask) ∨ ∃ e ∈ plan.scheduled c.modules,
      e.taskName = n ∧ ReflTransGen (Among (plan.scheduled c.modules) Module.IsDepOf) e d := by
  have htasks := (of_ofConfig h).2.1
  induction hpath using ReflTransGen.head_induction_on with
  | refl => exact Or.inr ⟨d, hd, rfl, ReflTransGen.refl⟩
  | head hax _ ih =>
      rcases ih with (rfl | rfl) | ⟨e, he, rfl, hed⟩
      · exact absurd hax (not_precedes_outline htasks)
      · exact Or.inl (Or.inl (eq_of_precedes_tools htasks hax))
      · rcases module_of_wanted h hr hax.wanted.1 with rfl | rfl | ⟨y, hy, rfl⟩
        · exact Or.inl (Or.inl rfl)
        · exact Or.inl (Or.inr rfl)
        · have hym := (Plan.mem_scheduled.1 hy).1
          have hem := (Plan.mem_scheduled.1 he).1
          obtain ⟨x, hx, hname, hyx⟩ := module_of_precedes htasks hax
          obtain rfl := eq_of_taskName_eq h hx hem hname
          have hdep : y.IsDepOf x := hyx.resolve_right (hfree x hx y hym)
          exact Or.inr ⟨y, hy, rfl, ReflTransGen.head ⟨hy, he, hdep⟩ hed⟩

/-- **A module is compiled before another if it is listed before it, with all that leads to it.** -/
theorem before_of_listed (ho : b.graph.Orderable selected) (hfree : c.RequiresNoModule)
    (hm : m ∈ plan.scheduled c.modules) (hd : d ∈ plan.scheduled c.modules)
    (hlisted : ∀ e, ReflTransGen (Among (plan.scheduled c.modules) Module.IsDepOf) e d →
      c.modules.idxOf e < c.modules.idxOf m) : plan.Before d.taskName m.taskName := by
  have htasks := (of_ofConfig h).2.1
  have hplace : b.graph.position? m.toTask.name = some (c.modules.idxOf m + 2) :=
    m.name_toTask ▸ position?_taskName htasks (Plan.mem_scheduled.1 hm).1
  obtain ⟨before, after, heq⟩ := split_of_scheduled h hr hm
  obtain ⟨_, _, hsplit⟩ := split_of_scheduled h hr hd
  have hmem : d.toTask ∈ plan.tasks := by simp [hsplit]
  have hregistered : ∀ t ∈ plan.tasks, ReflTransGen (b.graph.Precedes selected) t.name d.toTask.name →
      b.graph.RegisteredBefore t m.toTask := by
    intro t _ hpath
    rw [d.name_toTask] at hpath
    rcases leads_to_module h hr hfree hd hpath with hcopying | ⟨e, he, hname, hed⟩
    · obtain ⟨i, hi, hpos⟩ := position?_copying htasks hcopying
      exact ⟨i, _, hpos, hplace, by omega⟩
    · have hpos := position?_taskName htasks (Plan.mem_scheduled.1 he).1
      have hlt := hlisted e hed
      exact ⟨_, _, hname ▸ hpos, hplace, by omega⟩
  have hbefore := TaskGraph.mem_before_of_registered ho hr heq hmem hregistered
  have hplan := Plan.before_of_split (TaskGraph.nodup_names_of_resolve hr) heq hbefore
  rwa [d.name_toTask, m.name_toTask] at hplan

end Resolved

/-! ### Stale modules -/

/-- A stale module is compiled. -/
theorem mem_scheduled_of_stale (h : ofConfig c = .ok b) (hp : b.plan fs = .ok plan)
    (hm : m ∈ c.modules) (hstale : (Staleness.check m c.layout fs).isStale = true) :
    m ∈ plan.scheduled c.modules :=
  Plan.mem_scheduled.2 ⟨hm, (mem_plan_iff h hp).2 ⟨m, hm, hstale, ReflTransGen.refl⟩⟩

/-- Where no compile task is required, the stale modules are all that is compiled. -/
theorem scheduled_of_free (h : ofConfig c = .ok b) (hp : b.plan fs = .ok plan)
    (hfree : c.RequiresNoModule) :
    plan.scheduled c.modules = c.modules.filter fun m => (Staleness.check m c.layout fs).isStale := by
  refine List.filter_congr fun m hm => ?_
  rw [Bool.eq_iff_iff, decide_eq_true_iff]
  constructor
  · intro hname
    obtain ⟨s, hs, hstale, hpulls⟩ := (mem_plan_iff h hp).1 hname
    rcases ReflTransGen.cases_tail hpulls with heq | ⟨_, _, x, hx, _, hreq⟩
    · obtain rfl := eq_of_taskName_eq h hm hs heq
      exact hstale
    · exact absurd hreq (hfree x hx m hm)
  · intro hstale
    exact (Plan.mem_scheduled.1 (mem_scheduled_of_stale h hp hm hstale)).2

/-! ### Outcomes -/

/-- **The order of direct dependencies.**  If a module is compiled before one of its dependencies, the
scheduled modules have a cycle of dependencies and requirements that a requirement is part of.  So
where no compile task is required, every module is compiled after those of its dependencies that are
compiled at all. -/
theorem dependency_order (hvalid : Module.validate c.modules = .ok ()) (h : ofConfig c = .ok b)
    (hp : b.plan fs = .ok plan) :
    (∀ m ∈ c.modules, ∀ d ∈ c.modules, d.IsDepOf m → plan.Before m.taskName d.taskName →
      CycleThrough (plan.scheduled c.modules) Module.Precedes Module.IsRequiredBy) ∧
    (c.RequiresNoModule → ∀ m ∈ plan.scheduled c.modules, ∀ d ∈ plan.scheduled c.modules,
      d.IsDepOf m → plan.Before d.taskName m.taskName) := by
  have hr := plan_eq_ok hp
  refine ⟨fun m hm d hd hdep hbefore => ?_, fun hfree m hm d hd hdep => ?_⟩
  · by_contra hno
    have ho : b.graph.Orderable _ :=
      by_contra fun ho => hno (cycleThrough_of_not_orderable h hr hvalid ho)
    have hms := Plan.mem_scheduled.2 ⟨hm, hbefore.mem_left⟩
    have hds := Plan.mem_scheduled.2 ⟨hd, hbefore.1⟩
    exact hbefore.asymm (before_of_isDepOf h hr ho hms hds hdep (hdep.name_ne hvalid hm))
  · have hne := hdep.name_ne hvalid (Plan.mem_scheduled.1 hm).1
    exact before_of_isDepOf h hr (orderable_of_free h hr hvalid hfree) hm hd hdep hne

/-- A module with its own sources and an artifact of its own name. -/
def link (name : String) (deps requires : List String) : Module where
  name := name
  sources := [⟨name⟩]
  entries := [Path.join ⟨name⟩ ⟨"module.x"⟩]
  outputDir := Module.defaultOutputDir
  artifact := ⟨"lib/" ++ name ++ ".xtc"⟩
  libraries := []
  deps := deps
  requires := requires
  relocations := []

def linkConfig (modules : List Module) : Config :=
  { Config.standard with projectRoot := ⟨"/p"⟩, outputRoot := ⟨"o"⟩, modules := modules }

/-- Such a project is accepted if a numbering grows along what its tasks require. -/
theorem ofConfig_link {modules : List Module} {g : TaskGraph}
    (hgraph : (linkConfig modules).taskGraph = .ok g) (rank : String → ℕ)
    (hknown : ∀ t ∈ g.tasks, ∀ d ∈ t.dependsOn.names, d ∈ g.names)
    (hrank : ∀ t ∈ g.tasks, ∀ d ∈ t.dependsOn.names, rank d < rank t.name) :
    ofConfig (linkConfig modules) = .ok ⟨linkConfig modules, g⟩ :=
  ofConfig_eq_ok (checkOutputRoot_inside rfl rfl) hgraph
    (TaskGraph.validate_of_rank rank hknown hrank)

/-- A project without sources, in which one artifact exists. -/
def linkFiles : FileSystem :=
  [(["p"], .directory ⟨0⟩), (["p", "o"], .directory ⟨0⟩), (["p", "o", "lib"], .directory ⟨0⟩),
   (["p", "o", "lib", "b.xtc"], .file ⟨[], ⟨1⟩, false⟩)].foldl
    (fun fs (entry : Location × Node) => fs.put entry.1 entry.2) ⟨[], ["p"], ⟨5⟩⟩

/-- Two modules, each to be compiled before the other. -/
def knot : List Module := [link "a" ["c"] [], link "c" [] ["compile-a"]]

def knotGraph : TaskGraph := ⟨(linkConfig knot).taskList, by decide⟩

theorem ofConfig_knot : ofConfig (linkConfig knot) = .ok ⟨linkConfig knot, knotGraph⟩ :=
  ofConfig_link rfl (fun n => if n = "copy-outline" then 0 else if n = "compile-c" then 2 else 1)
    (by decide) (by decide)

/-- Three modules, each depending on the one before. -/
def chain : List Module := [link "a" [] [], link "b" ["a"] [], link "c" ["b"] []]

/-- The last module of the chain reaches the first through the one between them. -/
theorem chain_reaches {modules : List Module} (hall : ∀ m ∈ chain, m ∈ modules) :
    TransGen (Among modules Module.IsDepOf) (link "a" [] []) (link "c" ["b"] []) := by
  have hab : Among modules Module.IsDepOf (link "a" [] []) (link "b" ["a"] []) :=
    ⟨hall _ (by decide), hall _ (by decide), List.mem_singleton_self _⟩
  have hbc : Among modules Module.IsDepOf (link "b" ["a"] []) (link "c" ["b"] []) :=
    ⟨hall _ (by decide), hall _ (by decide), List.mem_singleton_self _⟩
  exact (TransGen.single hab).tail hbc

def chainGraph : TaskGraph := ⟨(linkConfig chain).taskList, by decide⟩

theorem ofConfig_chain : ofConfig (linkConfig chain) = .ok ⟨linkConfig chain, chainGraph⟩ :=
  ofConfig_link rfl (fun n => if n = "copy-outline" then 0 else 1) (by decide) (by decide)

/-- The same modules, listed from the last to the first. -/
def reversedGraph : TaskGraph := ⟨(linkConfig chain.reverse).taskList, by decide⟩

theorem ofConfig_reversed :
    ofConfig (linkConfig chain.reverse) = .ok ⟨linkConfig chain.reverse, reversedGraph⟩ :=
  ofConfig_link rfl (fun n => if n = "copy-outline" then 0 else 1) (by decide) (by decide)

/-- A knot is compiled against a dependency, and has a cycle; a chain of stale modules is compiled
from its first module on, although it is listed from its last. -/
theorem links_dependency_order :
    (∃ plan, Builder.plan ⟨linkConfig knot, knotGraph⟩ linkFiles = .ok plan ∧
      plan.Before "compile-a" "compile-c" ∧
      CycleThrough (plan.scheduled knot) Module.Precedes Module.IsRequiredBy) ∧
    ∃ plan, Builder.plan ⟨linkConfig chain.reverse, reversedGraph⟩ ⟨[], ["p"], ⟨5⟩⟩ = .ok plan ∧
      plan.Before "compile-a" "compile-b" ∧ plan.Before "compile-b" "compile-c" := by
  constructor
  · obtain ⟨plan, hp⟩ := plan_total ofConfig_knot linkFiles
    have hc : link "c" [] ["compile-a"] ∈ plan.scheduled knot :=
      mem_scheduled_of_stale ofConfig_knot hp (by simp [linkConfig, knot]) (by decide +kernel)
    have hbefore : plan.Before "compile-a" "compile-c" :=
      before_of_isRequiredBy (d := link "a" ["c"] []) ofConfig_knot (plan_eq_ok hp) hc
        (List.mem_singleton_self _)
    have horder := (dependency_order (by decide +kernel) ofConfig_knot hp).1
    refine ⟨plan, hp, hbefore, ?_⟩
    exact horder (link "a" ["c"] []) (by simp [linkConfig, knot]) (link "c" [] ["compile-a"])
      (by simp [linkConfig, knot]) (List.mem_singleton_self _) hbefore
  · obtain ⟨plan, hp⟩ := plan_total ofConfig_reversed ⟨[], ["p"], ⟨5⟩⟩
    have hstale : ∀ m ∈ chain.reverse, m ∈ plan.scheduled chain.reverse := by
      intro m hm
      refine mem_scheduled_of_stale ofConfig_reversed hp hm ?_
      revert m
      decide +kernel
    have horder := (dependency_order (by decide +kernel) ofConfig_reversed hp).2
      (Config.requiresNoModule_of_nil (by decide))
    refine ⟨plan, hp, ?_, ?_⟩
    · exact horder (link "b" ["a"] []) (hstale _ (by decide)) (link "a" [] []) (hstale _ (by decide))
        (List.mem_singleton_self _)
    · exact horder (link "c" ["b"] []) (hstale _ (by decide)) (link "b" ["a"] [])
        (hstale _ (by decide)) (List.mem_singleton_self _)

/-- **The order of indirect dependencies**, where no compile task is required.  A module that another
one leads back to through dependencies is compiled before it if all modules of some chain between the
two are compiled; or if it is listed before it, together with every module that is compiled and leads
to it; so in particular if every module is listed after its dependencies. -/
theorem transitive_order (hvalid : Module.validate c.modules = .ok ()) (h : ofConfig c = .ok b)
    (hfree : c.RequiresNoModule) (hp : b.plan fs = .ok plan)
    (hm : m ∈ plan.scheduled c.modules) (hd : d ∈ plan.scheduled c.modules)
    (hreach : TransGen (Among c.modules Module.IsDepOf) d m) :
    (TransGen (Among (plan.scheduled c.modules) Module.IsDepOf) d m →
      plan.Before d.taskName m.taskName) ∧
    ((∀ e, ReflTransGen (Among (plan.scheduled c.modules) Module.IsDepOf) e d →
        c.modules.idxOf e < c.modules.idxOf m) → plan.Before d.taskName m.taskName) ∧
    ((∀ x ∈ c.modules, ∀ y ∈ c.modules, y.IsDepOf x → c.modules.idxOf y < c.modules.idxOf x) →
      plan.Before d.taskName m.taskName) := by
  have hr := plan_eq_ok hp
  have ho := orderable_of_free h hr hvalid hfree
  have hlisted := before_of_listed h hr ho hfree hm hd
  refine ⟨before_of_path h hr hvalid ho, hlisted, fun hlist => hlisted fun e hed => ?_⟩
  -- in such a list the places of modules grow along dependencies
  have hdm : c.modules.idxOf d < c.modules.idxOf m :=
    rank_lt_of_transGen c.modules.idxOf (fun x y hxy => hlist y hxy.2.1 x hxy.1 hxy.2.2) hreach
  rcases reflTransGen_iff_eq_or_transGen.1 hed with rfl | hpath
  · exact hdm
  · have hled : c.modules.idxOf e < c.modules.idxOf d := by
      refine rank_lt_of_transGen c.modules.idxOf (fun x y hxy => ?_) hpath
      exact hlist y (Plan.mem_scheduled.1 hxy.2.1).1 x (Plan.mem_scheduled.1 hxy.1).1 hxy.2.2
    exact hled.trans hdm

/-- The ends of a chain that is listed from its first module on are compiled in order, with nothing to
compile between them. -/
theorem chain_transitive_order :
    ∃ plan, Builder.plan ⟨linkConfig chain, chainGraph⟩ linkFiles = .ok plan ∧
      plan.scheduled chain = [link "a" [] [], link "c" ["b"] []] ∧
      plan.Before "compile-a" "compile-c" := by
  obtain ⟨plan, hp⟩ := plan_total ofConfig_chain linkFiles
  have hfree : (linkConfig chain).RequiresNoModule := Config.requiresNoModule_of_nil (by decide)
  have hscheduled : plan.scheduled chain = [link "a" [] [], link "c" ["b"] []] :=
    (scheduled_of_free ofConfig_chain hp hfree).trans (by decide +kernel)
  have horder := transitive_order (m := link "c" ["b"] []) (d := link "a" [] []) (by decide +kernel)
    ofConfig_chain hfree hp (by rw [linkConfig, hscheduled]; simp)
    (by rw [linkConfig, hscheduled]; simp) (chain_reaches fun _ hm => hm)
  exact ⟨plan, hp, hscheduled, horder.2.2 (by unfold Module.IsDepOf; decide)⟩

/-- Listed from its last module on, the same chain is compiled against its order: the module between
the ends is up to date, and the list alone decides. -/
theorem reversed_chain :
    Module.validate (linkConfig chain.reverse).modules = .ok () ∧
    ofConfig (linkConfig chain.reverse) = .ok ⟨linkConfig chain.reverse, reversedGraph⟩ ∧
    (linkConfig chain.reverse).RequiresNoModule ∧
    TransGen (Among chain.reverse Module.IsDepOf) (link "a" [] []) (link "c" ["b"] []) ∧
    ∃ plan, Builder.plan ⟨linkConfig chain.reverse, reversedGraph⟩ linkFiles = .ok plan ∧
      plan.scheduled chain.reverse = [link "c" ["b"] [], link "a" [] []] ∧
      ¬ plan.Before "compile-a" "compile-c" := by
  obtain ⟨plan, hp⟩ := plan_total ofConfig_reversed linkFiles
  have hvalid : Module.validate (linkConfig chain.reverse).modules = .ok () := by decide +kernel
  have hfree : (linkConfig chain.reverse).RequiresNoModule :=
    Config.requiresNoModule_of_nil (by decide)
  have hscheduled : plan.scheduled (linkConfig chain.reverse).modules =
      [link "c" ["b"] [], link "a" [] []] :=
    (scheduled_of_free ofConfig_reversed hp hfree).trans (by decide +kernel)
  have hr := plan_eq_ok hp
  have ho := orderable_of_free ofConfig_reversed hr hvalid hfree
  have hbefore : plan.Before "compile-c" "compile-a" := by
    refine before_of_listed (m := link "a" [] []) (d := link "c" ["b"] []) ofConfig_reversed hr ho
      hfree (by rw [hscheduled]; simp) (by rw [hscheduled]; simp) fun e hpath => ?_
    rcases ReflTransGen.cases_tail hpath with rfl | ⟨y, _, hy, _, hyc⟩
    · decide
    · -- the module between them is not compiled
      have hnone : ∀ y ∈ [link "c" ["b"] [], link "a" [] []], y.name ∉ ["b"] := by decide
      exact absurd hyc (hnone y (hscheduled ▸ hy))
  exact ⟨hvalid, ofConfig_reversed, hfree, chain_reaches (by decide), plan, hp, hscheduled,
    hbefore.asymm⟩

end Builder

end Rebuild
