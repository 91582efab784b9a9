/-
Which tasks a plan holds, and where.

The two copying tasks are registered first, and neither waits for the task of a module.  So no other
task overtakes them: every plan starts with them and goes on with tasks of modules alone, those of the
modules that are due.

Main definitions:

* `Config.Due` — **a module is stale, or a stale one leads to it through requirements**.

Main results:

* `TaskGraph.not_overtaken` — a task whose turn it is gives way only to one that was registered before;
* `Builder.tasks_of_plan` — **a plan is the two copying tasks, then tasks of modules**;
* `Builder.taskName_mem_iff` — the modules among them are those that are due;
* `Builder.plan_contents` — what every plan holds.
-/
import Rebuild.Proofs.Build.CompileOrder

set_option relaxedAutoImplicit false
set_option autoImplicit false

namespace Rebuild

open Relation

/-! ### Tasks whose turn it is -/

namespace TaskGraph

variable {g : TaskGraph} {selected : List String} {order before after : List Task} {t u : Task}

/-- **A task whose turn it is gives way only to one that was registered before it**: all that it
requires or follows stands before the place that the other one has. -/
theorem not_overtaken (h : g.resolve selected = .ok order) (heq : order = before ++ t :: after)
    (hu : u ∈ t :: after)
    (hplaced : ∀ n, n ∈ u.dependsOn ∨ n ∈ u.runsAfter → ∃ r ∈ before, r.name = n) :
    u = t ∨ g.RegisteredBefore t u := by
  obtain ⟨tasks, nodes, nb, v, na, hp, hnodes, hsplit, hv, rfl, rfl, hchoice⟩ :=
    choice_of_resolve h heq
  have hn := nodup_of_planned hp
  have hnodup : (nb ++ v :: na).Nodup := hsplit ▸ (OrderGraph.order?_some hnodes).1.nodup
  have htasks : atNodes tasks (v :: na) = t :: atNodes tasks na := List.filterMap_cons_some hv
  obtain ⟨w, hw, huw⟩ := mem_atNodes.1 (htasks ▸ hu)
  have hnot : w ∉ nb := fun hwb => (List.nodup_append.1 hnodup).2.2 w hwb w hw rfl
  have hfree : (orderGraph tasks).Free nb w := by
    refine ⟨ready_of_placed hn huw hnot fun d hd => hplaced d (Or.inl hd), fun x hx => ?_⟩
    obtain ⟨_, s, u', hs, hu', hsu⟩ := (soft_iff hn).1 hx
    obtain rfl : u = u' := Option.some.inj (huw.symm.trans hu')
    obtain ⟨r, hr, hname⟩ := hplaced s.name (Or.inr hsu)
    obtain ⟨y, hy, hry⟩ := mem_atNodes.1 hr
    exact Keyed.index_eq_of_key_eq hn hry hs hname ▸ hy
  -- the chosen node is no greater than any free one
  rcases Nat.lt_or_eq_of_le (hchoice.free w hfree).2 with hvw | rfl
  · right
    obtain ⟨hvlt, rfl⟩ := List.getElem?_eq_some_iff.1 hv
    obtain ⟨hwlt, rfl⟩ := List.getElem?_eq_some_iff.1 huw
    exact List.pairwise_iff_getElem.1 (registered_pairwise hp) v w hvlt hwlt hvw
  · exact Or.inl (Option.some.inj (huw.symm.trans hv))

end TaskGraph

/-! ### Modules that are due -/

/-- The module is stale, or the task of a stale one leads to its task through requirements. -/
def Config.Due (c : Config) (fs : FileSystem) (m : Module) : Prop :=
  (Staleness.check m c.layout fs).isStale = true ∨
    ∃ s ∈ c.modules, (Staleness.check s c.layout fs).isStale = true ∧
      TransGen c.Needs s.taskName m.taskName

namespace Builder

variable {b : Builder} {c : Config} {fs : FileSystem} {plan : Plan} {m : Module}

/-- **The modules of a plan are those that are due.** -/
theorem taskName_mem_iff (h : ofConfig c = .ok b) (hp : b.plan fs = .ok plan) (hm : m ∈ c.modules) :
    m.taskName ∈ plan.names ↔ c.Due fs m := by
  rw [mem_plan_iff h hp]
  constructor
  · rintro ⟨s, hs, hstale, hpulls⟩
    rcases reflTransGen_iff_eq_or_transGen.1 hpulls with heq | hpath
    · obtain rfl := eq_of_taskName_eq h hm hs heq
      exact Or.inl hstale
    · exact Or.inr ⟨s, hs, hstale, hpath⟩
  · rintro (hstale | ⟨s, hs, hstale, hpath⟩)
    · exact ⟨m, hm, hstale, ReflTransGen.refl⟩
    · exact ⟨s, hs, hstale, hpath.to_reflTransGen⟩

/-! ### The first two tasks -/

theorem mem_tasks_of_plan (h : ofConfig c = .ok b) (hp : b.plan fs = .ok plan) {t : Task} :
    t ∈ plan.tasks ↔ t ∈ c.taskList ∧ t.name ∈ plan.names := by
  rw [(TaskGraph.isHardOrder_of_resolve (plan_eq_ok hp)).mem t, (of_ofConfig h).2.1, Plan.names,
    TaskGraph.mem_names_of_resolve (plan_eq_ok hp)]

/-- The tools are planned, and so is the outline that they need. -/
theorem copying_mem_plan (h : ofConfig c = .ok b) (hp : b.plan fs = .ok plan) :
    c.outlineTask ∈ plan.tasks ∧ c.toolsTask ∈ plan.tasks := by
  have hr := plan_eq_ok hp
  have htools : Module.toolsTask ∈ plan.names :=
    (TaskGraph.mem_names_of_resolve hr).2 (TaskGraph.wanted_of_mem (List.mem_cons_self ..))
  have hneeds : b.graph.Requires Module.toolsTask Module.outlineTask :=
    (requires_iff (of_ofConfig h).2.1).2 (Or.inr ⟨rfl, rfl⟩)
  constructor
  · refine (mem_tasks_of_plan h hp).2 ⟨by simp [Config.taskList], ?_⟩
    have hwanted := (TaskGraph.mem_names_of_resolve hr).1 htools
    exact (TaskGraph.mem_names_of_resolve hr).2 (hwanted.tail hneeds)
  · exact (mem_tasks_of_plan h hp).2 ⟨by simp [Config.taskList], htools⟩

/-- Only the outline is registered before the tools, and nothing before the outline. -/
theorem registeredBefore_tools (h : ofConfig c = .ok b) {t : Task} (ht : t ∈ c.taskList)
    (hbefore : b.graph.RegisteredBefore t c.toolsTask) : t = c.outlineTask := by
  have htasks := (of_ofConfig h).2.1
  obtain ⟨i, j, hi, hj, hij⟩ := hbefore
  have htools : b.graph.position? c.toolsTask.name = some 1 :=
    (Keyed.findIdx?_eq_some_iff b.graph.names_nodup).2 ⟨c.toolsTask, by rw [htasks]; rfl, rfl⟩
  obtain rfl := Option.some.inj (hj.symm.trans htools)
  obtain rfl : i = 0 := by omega
  obtain ⟨u, hu, hname⟩ := (Keyed.findIdx?_eq_some_iff b.graph.names_nodup).1 hi
  rw [htasks] at hu
  obtain rfl := Option.some.inj hu
  exact b.graph.eq_of_name_eq (htasks ▸ ht) (htasks ▸ List.mem_cons_self ..) hname.symm

theorem not_registeredBefore_outline (h : ofConfig c = .ok b) {t : Task} :
    ¬ b.graph.RegisteredBefore t c.outlineTask := by
  rintro ⟨i, j, hi, hj, hij⟩
  have houtline : b.graph.position? c.outlineTask.name = some 0 :=
    (Keyed.findIdx?_eq_some_iff b.graph.names_nodup).2
      ⟨c.outlineTask, by rw [(of_ofConfig h).2.1]; rfl, rfl⟩
  obtain rfl := Option.some.inj (hj.symm.trans houtline)
  omega

/-- Nothing stands before the outline, since nothing was registered before it. -/
theorem outline_first (h : ofConfig c = .ok b) (hp : b.plan fs = .ok plan) :
    ∃ rest, plan.tasks = c.outlineTask :: rest := by
  obtain ⟨houtline, _⟩ := copying_mem_plan h hp
  obtain ⟨first, rest, heq⟩ := List.exists_cons_of_ne_nil (List.ne_nil_of_mem houtline)
  have hsplit : plan.tasks = [] ++ first :: rest := heq
  have hturn := TaskGraph.not_overtaken (plan_eq_ok hp) hsplit (heq ▸ houtline)
    (by rintro n (hn | hn) <;> cases hn)
  obtain rfl := hturn.resolve_right (not_registeredBefore_outline h)
  exact ⟨rest, heq⟩

/-- Only the outline stands before the tools. -/
theorem tools_second (h : ofConfig c = .ok b) (hp : b.plan fs = .ok plan) :
    ∃ rest, plan.tasks = c.outlineTask :: c.toolsTask :: rest := by
  obtain ⟨_, htools⟩ := copying_mem_plan h hp
  obtain ⟨rest, heq⟩ := outline_first h hp
  have hnames : Module.toolsTask ≠ Module.outlineTask := by decide
  have hne : c.toolsTask ≠ c.outlineTask := fun heq => hnames (congrArg Task.name heq)
  have hmem : c.toolsTask ∈ rest := (List.mem_cons.1 (heq ▸ htools)).resolve_left hne
  obtain ⟨second, rest, rfl⟩ := List.exists_cons_of_ne_nil (List.ne_nil_of_mem hmem)
  have hsplit : plan.tasks = [c.outlineTask] ++ second :: rest := heq
  have hturn := TaskGraph.not_overtaken (plan_eq_ok hp) hsplit hmem (by
    rintro n (hn | hn)
    · rcases NameSet.mem_insert.1 hn with rfl | hn
      · exact ⟨_, List.mem_singleton_self _, rfl⟩
      · cases hn
    · cases hn)
  obtain rfl : c.toolsTask = second := by
    refine hturn.resolve_right fun hbefore => ?_
    have hlisted := ((mem_tasks_of_plan h hp).1 (by simp [heq] : second ∈ plan.tasks)).1
    have hnodup := (TaskGraph.isHardOrder_of_resolve (plan_eq_ok hp)).nodup
    rw [heq, registeredBefore_tools h hlisted hbefore] at hnodup
    simp at hnodup
  exact ⟨rest, heq⟩

/-- **A plan is the two copying tasks, then tasks of modules.** -/
theorem tasks_of_plan (h : ofConfig c = .ok b) (hp : b.plan fs = .ok plan) :
    ∃ compiled : List Module, (∀ m ∈ compiled, m ∈ c.modules) ∧
      plan.tasks = c.outlineTask :: c.toolsTask :: compiled.map Module.toTask := by
  obtain ⟨rest, heq⟩ := tools_second h hp
  have hnodup := (TaskGraph.isHardOrder_of_resolve (plan_eq_ok hp)).nodup
  rw [heq, List.nodup_cons, List.nodup_cons] at hnodup
  -- what is left is neither of the two
  have hmodules : ∀ t ∈ rest, ∃ m ∈ c.modules, m.toTask = t := by
    intro t ht
    have hlisted := ((mem_tasks_of_plan h hp).1 (by simp [heq, ht] : t ∈ plan.tasks)).1
    rcases List.mem_cons.1 hlisted with rfl | hlisted
    · exact absurd (List.mem_cons_of_mem _ ht) hnodup.1
    · rcases List.mem_cons.1 hlisted with rfl | hmodule
      · exact absurd ht hnodup.2.1
      · exact List.mem_map.1 hmodule
  choose! module hmodule using hmodules
  refine ⟨rest.map module, ?_, ?_⟩
  · intro m hm
    obtain ⟨t, ht, rfl⟩ := List.mem_map.1 hm
    exact (hmodule t ht).1
  · have hmap : (rest.map module).map Module.toTask = rest := by
      rw [List.map_map]
      exact (List.map_congr_left fun t ht => (hmodule t ht).2).trans (List.map_id _)
    rw [heq, hmap]

/-! ### The outcome -/

/-- The modules that a plan compiles can be read off its tasks. -/
theorem compiledModules_eq {compiled : List Module}
    (heq : plan.tasks = c.outlineTask :: c.toolsTask :: compiled.map Module.toTask) :
    plan.compiledModules = compiled.map Module.name := by
  rw [Plan.compiledModules, heq, List.filterMap_cons_none rfl, List.filterMap_cons_none rfl,
    List.filterMap_map, ← List.filterMap_eq_map]
  refine List.filterMap_congr fun m _ => ?_
  simp [m.action_toTask]

/-- The modules whose tasks a plan lists are those that are due. -/
theorem mem_compiled_iff (h : ofConfig c = .ok b) (hp : b.plan fs = .ok plan)
    {compiled : List Module} (hmodules : ∀ m ∈ compiled, m ∈ c.modules)
    (htasks : plan.tasks = c.outlineTask :: c.toolsTask :: compiled.map Module.toTask) :
    m ∈ compiled ↔ m ∈ c.modules ∧ c.Due fs m := by
  constructor
  · intro hm
    refine ⟨hmodules m hm, (taskName_mem_iff h hp (hmodules m hm)).1 ?_⟩
    rw [Plan.names, htasks, ← m.name_toTask]
    have hmem : m.toTask ∈ compiled.map Module.toTask := List.mem_map_of_mem hm
    exact List.mem_map_of_mem (List.mem_cons_of_mem _ (List.mem_cons_of_mem _ hmem))
  · rintro ⟨hm, hdue⟩
    obtain ⟨t, ht, hname⟩ := List.mem_map.1 ((taskName_mem_iff h hp hm).2 hdue)
    rw [htasks] at ht
    simp only [List.mem_cons, List.mem_map] at ht
    rcases ht with rfl | rfl | ⟨d, hd, rfl⟩
    · exact absurd hname.symm (Module.compileTask_ne_outlineTask m.name)
    · exact absurd hname.symm (Module.compileTask_ne_toolsTask m.name)
    · obtain rfl := eq_of_taskName_eq h (hmodules d hd) hm (d.name_toTask.symm.trans hname)
      exact hd

/-- Behind the task of a module stand only tasks of modules. -/
theorem module_behind_module {compiled : List Module}
    (htasks : plan.tasks = c.outlineTask :: c.toolsTask :: compiled.map Module.toTask)
    {before after : List Task} {t s : Task} {n : String} (heq : plan.tasks = before ++ t :: after)
    (ht : t.action = .compile n) (hs : s ∈ after) : ∃ d ∈ compiled, d.toTask = s := by
  rw [htasks] at heq
  rcases before with _ | ⟨_, _ | ⟨_, before⟩⟩
  · cases heq
    cases ht
  · cases heq
    cases ht
  · simp only [List.cons_append, List.cons.injEq] at heq
    exact List.mem_map.1 (heq.2.2 ▸ by simp [hs])

/-- **What a plan holds.**  Every plan can be made.  It is the two copying tasks and then tasks of
modules, none of them twice; the modules are those that are due, and they are listed as compiled in the
same order.  So behind the task of a module stand only tasks of modules, and a module that is up to
date is compiled only if a stale one leads to it. -/
theorem plan_contents (h : ofConfig c = .ok b) (fs : FileSystem) :
    ∃ (plan : Plan) (compiled : List Module), b.plan fs = .ok plan ∧
      plan.tasks = c.outlineTask :: c.toolsTask :: compiled.map Module.toTask ∧
      plan.names.Nodup ∧ plan.compiledModules = compiled.map Module.name ∧
      (∀ m, m ∈ compiled ↔ m ∈ c.modules ∧ c.Due fs m) ∧
      (∀ before t after n, plan.tasks = before ++ t :: after → t.action = .compile n →
        ∀ s ∈ after, ∃ k, s.action = .compile k) ∧
      ∀ m ∈ c.modules, (Staleness.check m c.layout fs).isStale = false →
        (∀ s ∈ c.modules, (Staleness.check s c.layout fs).isStale = true →
          ¬ TransGen c.Needs s.taskName m.taskName) → m.name ∉ plan.compiledModules := by
  obtain ⟨plan, hp⟩ := plan_total h fs
  obtain ⟨compiled, hmodules, htasks⟩ := tasks_of_plan h hp
  have hcompiled := compiledModules_eq htasks
  have hiff : ∀ m, m ∈ compiled ↔ m ∈ c.modules ∧ c.Due fs m := fun m =>
    mem_compiled_iff h hp hmodules htasks
  refine ⟨plan, compiled, hp, htasks, TaskGraph.nodup_names_of_resolve (plan_eq_ok hp), hcompiled,
    hiff, ?_, ?_⟩
  · intro before t after n heq ht s hs
    obtain ⟨d, _, rfl⟩ := module_behind_module htasks heq ht hs
    exact ⟨d.name, d.action_toTask⟩
  · intro m hm hfresh hfree hmem
    obtain ⟨d, hd, hname⟩ := List.mem_map.1 (hcompiled ▸ hmem)
    obtain rfl := List.inj_on_of_nodup_map (nodup_names h) (hmodules d hd) hm hname
    rcases ((hiff d).1 hd).2 with hstale | ⟨s, hs, hstale, hpath⟩
    · exact Bool.false_ne_true (hfresh.symm.trans hstale)
    · exact hfree s hs hstale hpath

/-- In the knot, an artifact of the first module alone. -/
def halfKnotFiles : FileSystem :=
  linkFiles.put ["p", "o", "lib", "a.xtc"] (.file ⟨[], ⟨1⟩, false⟩)

/-- The first module of the knot is up to date, and still compiled: the second one is stale and
requires it. -/
theorem knot_contents : ∃ (plan : Plan) (compiled : List Module),
    Builder.plan ⟨linkConfig knot, knotGraph⟩ halfKnotFiles = .ok plan ∧
    plan.compiledModules = compiled.map Module.name ∧
    (Staleness.check (link "a" ["c"] []) (linkConfig knot).layout halfKnotFiles).isStale = false ∧
    link "a" ["c"] [] ∈ compiled ∧ link "c" [] ["compile-a"] ∈ compiled := by
  obtain ⟨plan, compiled, hp, _, _, hcompiled, hiff, _⟩ := plan_contents ofConfig_knot halfKnotFiles
  have hstale : (Staleness.check (link "c" [] ["compile-a"]) (linkConfig knot).layout
      halfKnotFiles).isStale = true := by decide +kernel
  have hneeds : (linkConfig knot).Needs "compile-c" "compile-a" :=
    ⟨link "c" [] ["compile-a"], by simp [linkConfig, knot], rfl, List.mem_singleton_self _⟩
  refine ⟨plan, compiled, hp, hcompiled, by decide +kernel, (hiff _).2 ⟨?_, Or.inr ?_⟩,
    (hiff _).2 ⟨?_, Or.inl hstale⟩⟩
  · simp [linkConfig, knot]
  · exact ⟨_, by simp [linkConfig, knot], hstale, TransGen.single hneeds⟩
  · simp [linkConfig, knot]

end Builder

end Rebuild
