/-
What a plan holds.

The tasks of a configuration are registered one after another, and a builder exists only if all of
them can be ordered.  Then every plan can be made, and a module is in it because it is stale or because
the task of a stale module requires it.

Main definitions:

* `Config.Needs` — a task of a module requires another task;
* `Config.PullsIn` — **the task of one module leads to that of another through requirements**.

Main results:

* `Builder.of_ofConfig` — what is known of a builder that was made;
* `Builder.requires_iff` — the requirements of the task graph are those of the modules;
* `Builder.plan_total` — **a plan can be made of every file system**;
* `Builder.mem_plan_iff` — which modules are in a plan.
-/
import Rebuild.Build
import Rebuild.Proofs.TaskGraph.Registration
import Rebuild.Proofs.TaskGraph.Resolve

set_option relaxedAutoImplicit false
set_option autoImplicit false

namespace Rebuild

open Relation

/-! ### Tasks of modules -/

namespace Task

theorem mem_dependsOn_foldl_requiring {names : List String} {t : Task} {d : String} :
    d ∈ (names.foldl requiring t).dependsOn ↔ d ∈ names ∨ d ∈ t.dependsOn := by
  induction names generalizing t with
  | nil => simp
  | cons n ns ih =>
      rw [List.foldl_cons, ih, requiring, NameSet.mem_insert, List.mem_cons]
      tauto

theorem mem_runsAfter_foldl_following {names : List String} {t : Task} {d : String} :
    d ∈ (names.foldl following t).runsAfter ↔ d ∈ names ∨ d ∈ t.runsAfter := by
  induction names generalizing t with
  | nil => simp
  | cons n ns ih =>
      rw [List.foldl_cons, ih, following, NameSet.mem_insert, List.mem_cons]
      tauto

/-- Requiring more tasks changes nothing else. -/
theorem foldl_requiring (names : List String) (t : Task) :
    (names.foldl requiring t).name = t.name ∧ (names.foldl requiring t).action = t.action ∧
      (names.foldl requiring t).runsAfter = t.runsAfter := by
  induction names generalizing t with
  | nil => exact ⟨rfl, rfl, rfl⟩
  | cons n ns ih => exact ih (t.requiring n)

/-- Following more tasks changes nothing else. -/
theorem foldl_following (names : List String) (t : Task) :
    (names.foldl following t).name = t.name ∧ (names.foldl following t).action = t.action ∧
      (names.foldl following t).dependsOn = t.dependsOn := by
  induction names generalizing t with
  | nil => exact ⟨rfl, rfl, rfl⟩
  | cons n ns ih => exact ih (t.following n)

end Task

namespace Module

variable {m m' : Module}

theorem name_toTask (m : Module) : m.toTask.name = m.taskName :=
  (Task.foldl_following _ _).1.trans (Task.foldl_requiring _ _).1

theorem action_toTask (m : Module) : m.toTask.action = .compile m.name :=
  (Task.foldl_following _ _).2.1.trans (Task.foldl_requiring _ _).2.1

theorem mem_dependsOn_toTask {d : String} : d ∈ m.toTask.dependsOn ↔ d ∈ m.requires := by
  unfold toTask
  rw [(Task.foldl_following _ _).2.2, Task.mem_dependsOn_foldl_requiring]
  exact or_iff_left (List.not_mem_nil (a := d))

/-- A module follows the tasks of its dependencies. -/
theorem mem_runsAfter_toTask {a : String} :
    a ∈ m.toTask.runsAfter ↔ ∃ d ∈ m.deps, compileTask d = a := by
  unfold toTask
  rw [Task.mem_runsAfter_foldl_following, (Task.foldl_requiring _ _).2.2, List.mem_map]
  exact or_iff_left (List.not_mem_nil (a := a))

theorem compileTask_injective : Function.Injective compileTask := by
  intro a b h
  have hlist := congrArg String.toList h
  exact String.toList_inj.1 (by simpa [compileTask] using hlist)

theorem compileTask_ne_outlineTask (n : String) : compileTask n ≠ outlineTask := by
  intro h
  have hlist := congrArg String.toList h
  simp [compileTask, outlineTask] at hlist

theorem compileTask_ne_toolsTask (n : String) : compileTask n ≠ toolsTask := by
  intro h
  have hlist := congrArg String.toList h
  simp [compileTask, toolsTask] at hlist

end Module

/-! ### The task graph -/

namespace Config

/-- The task of some module has that name and requires the other task. -/
def Needs (c : Config) (a d : String) : Prop := ∃ m ∈ c.modules, m.taskName = a ∧ d ∈ m.requires

/-- The task of the first module leads to that of the second through requirements. -/
def PullsIn (c : Config) (s m : Module) : Prop := ReflTransGen c.Needs s.taskName m.taskName

end Config

namespace Builder

variable {b : Builder} {c : Config} {fs : FileSystem} {plan : Plan} {m : Module}

/-- A builder that was made holds its configuration, all of its tasks, and an order of them. -/
theorem of_ofConfig (h : ofConfig c = .ok b) :
    b.config = c ∧ b.graph.tasks = c.taskList ∧ ∃ order, b.graph.resolve b.graph.names = .ok order := by
  unfold ofConfig at h
  split at h
  · cases h
  · split at h
    · cases h
    · rename_i g hg
      split at h
      · cases h
      · rename_i hvalid
        obtain rfl := Except.ok.inj h
        refine ⟨rfl, TaskGraph.tasks_of_registerAll hg, ?_⟩
        cases hr : g.resolve g.names with
        | ok order => exact ⟨order, rfl⟩
        | error e =>
            rw [TaskGraph.validate, hr] at hvalid
            cases hvalid

/-- What a builder is made of. -/
theorem ofConfig_eq_ok {g : TaskGraph} (hroot : c.checkOutputRoot = .ok ())
    (hgraph : c.taskGraph = .ok g) (hvalid : g.validate = .ok ()) : ofConfig c = .ok ⟨c, g⟩ := by
  unfold ofConfig
  rw [hroot]
  dsimp only
  rw [hgraph]
  dsimp only
  rw [hvalid]

/-- A project at `/p` may put its output into `/p/o`. -/
theorem checkOutputRoot_inside (hproject : c.projectRoot = ⟨"/p"⟩) (houtput : c.outputRoot = ⟨"o"⟩) :
    c.checkOutputRoot = .ok () := by
  have hcovers : (Layout.ofRoots ⟨"/p"⟩ (Path.join ⟨"/p"⟩ ⟨"o"⟩)).outputCoversProject = false := by
    decide +kernel
  unfold Config.checkOutputRoot Config.layout
  rw [hproject, houtput]
  exact if_neg (Bool.eq_false_iff.1 hcovers)

theorem mem_names_iff (h : b.graph.tasks = c.taskList) {n : String} : n ∈ b.graph.names ↔
    n = Module.outlineTask ∨ n = Module.toolsTask ∨ ∃ m ∈ c.modules, m.taskName = n := by
  rw [TaskGraph.names, h, Config.taskList]
  simp [Config.outlineTask, Config.toolsTask, Task.free, Task.requiring, Module.name_toTask]

/-- No two modules have one name. -/
theorem nodup_names (h : ofConfig c = .ok b) : (c.modules.map Module.name).Nodup := by
  have hnodup := b.graph.names_nodup
  rw [(of_ofConfig h).2.1, Config.taskList, List.map_cons, List.map_cons, List.map_map] at hnodup
  have htasks := (List.nodup_cons.1 (List.nodup_cons.1 hnodup).2).2
  -- two modules of one name would have one task name
  have heq : Task.name ∘ Module.toTask = Module.compileTask ∘ Module.name := by
    funext m
    exact m.name_toTask
  rw [heq, ← List.map_map] at htasks
  exact htasks.of_map

/-- **The requirements of the graph are those of the modules**, and the tools need the outline. -/
theorem requires_iff (h : b.graph.tasks = c.taskList) {a d : String} : b.graph.Requires a d ↔
    c.Needs a d ∨ a = Module.toolsTask ∧ d = Module.outlineTask := by
  unfold TaskGraph.Requires
  rw [h, Config.taskList]
  constructor
  · rintro ⟨t, ht, rfl, hd⟩
    rcases List.mem_cons.1 ht with rfl | ht
    · cases hd
    · rcases List.mem_cons.1 ht with rfl | ht
      · right
        refine ⟨rfl, ?_⟩
        rcases NameSet.mem_insert.1 hd with hd | hd
        · exact hd
        · cases hd
      · obtain ⟨m, hm, rfl⟩ := List.mem_map.1 ht
        exact Or.inl ⟨m, hm, m.name_toTask.symm, Module.mem_dependsOn_toTask.1 hd⟩
  · rintro (⟨m, hm, rfl, hd⟩ | ⟨rfl, rfl⟩)
    · refine ⟨m.toTask, ?_, m.name_toTask, Module.mem_dependsOn_toTask.2 hd⟩
      exact List.mem_cons_of_mem _ (List.mem_cons_of_mem _ (List.mem_map_of_mem hm))
    · exact ⟨c.toolsTask, by simp, rfl, NameSet.mem_insert.2 (Or.inl rfl)⟩

theorem not_requires_outline (h : b.graph.tasks = c.taskList) {d : String} :
    ¬ b.graph.Requires Module.outlineTask d := by
  intro hd
  rcases (requires_iff h).1 hd with ⟨m, _, hname, _⟩ | ⟨htools, _⟩
  · exact Module.compileTask_ne_outlineTask m.name hname
  · exact absurd htools (by decide)

/-- Only requirements of modules lead to the task of a module. -/
theorem reflTransGen_requires_iff (h : b.graph.tasks = c.taskList) {a : String} :
    ReflTransGen b.graph.Requires a m.taskName ↔ ReflTransGen c.Needs a m.taskName := by
  constructor
  · intro hpath
    induction hpath using ReflTransGen.head_induction_on with
    | refl => exact ReflTransGen.refl
    | head hab hpath ih =>
        rcases (requires_iff h).1 hab with hab | ⟨rfl, rfl⟩
        · exact ReflTransGen.head hab ih
        · -- the outline requires nothing, so no path goes on from there
          exfalso
          rcases ReflTransGen.cases_head hpath with heq | ⟨d, hd, _⟩
          · exact Module.compileTask_ne_outlineTask m.name heq.symm
          · exact not_requires_outline h hd
  · exact ReflTransGen.mono (fun _ _ hab => (requires_iff h).2 (Or.inl hab)) _ _

/-! ### Plans -/

/-- The tools are always asked for, and the task of every stale module. -/
theorem mem_selection {n : String} {modules : List Module} {layout : Layout} :
    n ∈ selection (modules.map (Staleness.check · layout fs)) ↔ n = Module.toolsTask ∨
      ∃ s ∈ modules, (Staleness.check s layout fs).isStale = true ∧ s.taskName = n := by
  simp only [selection, List.mem_cons, List.mem_map, List.mem_filter]
  refine or_congr_right ⟨?_, ?_⟩
  · rintro ⟨_, ⟨⟨s, hs, rfl⟩, hstale⟩, rfl⟩
    exact ⟨s, hs, hstale, rfl⟩
  · rintro ⟨s, hs, hstale, rfl⟩
    exact ⟨_, ⟨⟨s, hs, rfl⟩, hstale⟩, rfl⟩

theorem plan_eq_ok (h : b.plan fs = .ok plan) : b.graph.resolve
    (selection (b.config.modules.map (Staleness.check · b.config.layout fs))) = .ok plan.tasks := by
  unfold Builder.plan at h
  dsimp only at h
  split at h
  · cases h
  · rename_i tasks hr
    obtain rfl := Except.ok.inj h
    exact hr

/-- Only the order of tasks can keep a plan from being made. -/
theorem plan_error {e : BuildError} (h : b.plan fs = .error e) : ∃ cause, e = .graph cause := by
  unfold Builder.plan at h
  dsimp only at h
  split at h
  · exact ⟨_, (Except.error.inj h).symm⟩
  · cases h

/-- **A plan can be made of every file system.** -/
theorem plan_total (h : ofConfig c = .ok b) (fs : FileSystem) : ∃ plan, b.plan fs = .ok plan := by
  obtain ⟨rfl, htasks, all, hall⟩ := of_ofConfig h
  -- all tasks together can be ordered, so every selection of them can
  have hsub : ∀ n ∈ selection (b.config.modules.map (Staleness.check · b.config.layout fs)),
      n ∈ b.graph.names := by
    intro n hn
    rw [mem_names_iff htasks]
    rcases mem_selection.1 hn with rfl | ⟨s, hs, _, rfl⟩
    · exact Or.inr (Or.inl rfl)
    · exact Or.inr (Or.inr ⟨s, hs, rfl⟩)
  obtain ⟨order, horder⟩ := TaskGraph.resolve_subset hall hsub
  unfold Builder.plan
  simp only [horder]
  exact ⟨_, rfl⟩

/-- **A module is in a plan exactly if it is stale, or if a stale module pulls it in.** -/
theorem mem_plan_iff (h : ofConfig c = .ok b) (hp : b.plan fs = .ok plan) :
    m.taskName ∈ plan.names ↔
      ∃ s ∈ c.modules, (Staleness.check s c.layout fs).isStale = true ∧ c.PullsIn s m := by
  obtain ⟨rfl, htasks, _⟩ := of_ofConfig h
  rw [Plan.names, TaskGraph.mem_names_of_resolve (plan_eq_ok hp)]
  unfold TaskGraph.Wanted Config.PullsIn
  simp only [mem_selection, reflTransGen_requires_iff htasks]
  constructor
  · rintro ⟨_, rfl | ⟨s, hs, hstale, rfl⟩, hpath⟩
    · -- the tools require no module
      exfalso
      rcases ReflTransGen.cases_head hpath with heq | ⟨d, ⟨x, _, hname, _⟩, _⟩
      · exact Module.compileTask_ne_toolsTask m.name heq.symm
      · exact Module.compileTask_ne_toolsTask x.name hname
    · exact ⟨s, hs, hstale, hpath⟩
  · rintro ⟨s, hs, hstale, hpath⟩
    exact ⟨s.taskName, Or.inr ⟨s, hs, hstale, rfl⟩, hpath⟩

end Builder

end Rebuild
