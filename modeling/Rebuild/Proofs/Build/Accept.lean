/-
Which configurations are accepted, and what can go wrong with them later.

A configuration that has been checked can still ask for tasks that do not exist, or for tasks that
require each other; nothing else keeps a builder from being made.  Once it is made, every plan can be
made, and of the errors that a build can end with, those that speak of configuration, graph or unknown
modules do not occur.

Main definitions:

* `Config.Known` — the name of one of the tasks;
* `ActionError.Known` — an error that does not speak of an unknown module.

Main results:

* `Config.check_of_load` — what is loaded has been checked;
* `Config.taskGraph_of_nodup` — **modules with different names can all be registered**;
* `Builder.closed_iff`, `Builder.acyclic_iff` — what keeps tasks from being ordered, in terms of modules;
* `Builder.runTask_failsWith` — no task fails over an unknown module;
* `Builder.validated_outcome` — **what becomes of a checked configuration**.
-/
import Rebuild.Proofs.Build.CompileOrder
import Rebuild.Proofs.Build.Retry
import Rebuild.Proofs.Module.Validate

set_option relaxedAutoImplicit false
set_option autoImplicit false

namespace Rebuild

open Relation

/-! ### Checked configurations -/

theorem except_bind_eq_ok {ε α β : Type} {x : Except ε α} {f : α → Except ε β} {b : β} :
    x >>= f = .ok b ↔ ∃ a, x = .ok a ∧ f a = .ok b := by
  cases x <;> simp [bind, Except.bind]

namespace Config

variable {c : Config}

theorem check_eq_ok_iff :
    c.check = .ok () ↔ c.checkOutputRoot = .ok () ∧ Module.validate c.modules = .ok () := by
  unfold check
  cases c.checkOutputRoot with
  | error e => simp [bind, Except.bind]
  | ok u => cases Module.validate c.modules <;> simp [bind, Except.bind]

/-- **What is loaded has been checked.** -/
theorem check_of_load {fs : FileSystem} {project : Path} {given : Option Path} {env : Environment}
    (h : load fs project given env = .ok c) : c.check = .ok () := by
  unfold load at h
  split at h
  · cases h
  · obtain ⟨file, _, h⟩ := except_bind_eq_ok.1 h
    dsimp only at h
    split at h
    all_goals
      obtain ⟨read, _, h⟩ := except_bind_eq_ok.1 h
      obtain ⟨_, hcheck, h⟩ := except_bind_eq_ok.1 h
      obtain rfl := Except.ok.inj h
      exact hcheck

/-- The name of one of the tasks. -/
def Known (c : Config) (n : String) : Prop :=
  n = Module.outlineTask ∨ n = Module.toolsTask ∨ ∃ x ∈ c.modules, x.taskName = n

end Config

/-! ### Registration -/

namespace Config

variable {c : Config}

theorem nodup_taskList (h : (c.modules.map Module.name).Nodup) : (c.taskList.map Task.name).Nodup := by
  have hnames : (c.modules.map Module.toTask).map Task.name =
      (c.modules.map Module.name).map Module.compileTask := by
    simp only [List.map_map]
    exact List.map_congr_left fun m _ => m.name_toTask
  have hne : Module.outlineTask ≠ Module.toolsTask := by decide
  rw [taskList, List.map_cons, List.map_cons, hnames, List.nodup_cons, List.nodup_cons]
  refine ⟨?_, ?_, h.map Module.compileTask_injective⟩
  · intro hmem
    rcases List.mem_cons.1 hmem with heq | hmem
    · exact hne heq
    · obtain ⟨n, _, heq⟩ := List.mem_map.1 hmem
      exact Module.compileTask_ne_outlineTask n heq
  · intro hmem
    obtain ⟨n, _, heq⟩ := List.mem_map.1 hmem
    exact Module.compileTask_ne_toolsTask n heq

/-- **Modules with different names can all be registered.** -/
theorem taskGraph_of_nodup (h : (c.modules.map Module.name).Nodup) :
    ∃ g, c.taskGraph = .ok g ∧ g.tasks = c.taskList := by
  have hnodup : ((TaskGraph.empty.tasks ++ c.taskList).map Task.name).Nodup := nodup_taskList h
  obtain ⟨g, hg⟩ := TaskGraph.registerAll_of_nodup hnodup
  exact ⟨g, hg, TaskGraph.tasks_of_registerAll hg⟩

end Config

/-! ### What keeps tasks from being ordered -/

theorem TaskGraph.validate_eq_ok_iff {g : TaskGraph} :
    g.validate = .ok () ↔ g.Closed g.names ∧ g.Acyclic g.names := by
  rw [← resolve_ok_iff, validate]
  cases g.resolve g.names <;> simp [Functor.discard, Functor.mapConst, Except.map]

theorem TaskGraph.validate_eq_error {g : TaskGraph} {e : GraphError}
    (h : g.resolve g.names = .error e) : g.validate = .error e := by
  rw [validate, h]
  rfl

namespace Builder

variable {b : Builder} {c : Config} {g : TaskGraph} {w w' : World} {m : Module}

theorem mem_names_iff_known (h : g.tasks = c.taskList) {n : String} : n ∈ g.names ↔ c.Known n :=
  mem_names_iff (b := ⟨c, g⟩) h

/-- All names can be resolved exactly if all that modules require are names of tasks. -/
theorem closed_iff (h : g.tasks = c.taskList) :
    g.Closed g.names ↔ ∀ m ∈ c.modules, ∀ n ∈ m.requires, c.Known n := by
  have hrequires := fun {a d} => requires_iff (b := ⟨c, g⟩) (a := a) (d := d) h
  constructor
  · intro hclosed m hm n hn
    have hwanted : g.Wanted g.names m.taskName :=
      TaskGraph.wanted_of_mem ((mem_names_iff_known h).2 (Or.inr (Or.inr ⟨m, hm, rfl⟩)))
    exact (mem_names_iff_known h).1 (hclosed n (hwanted.tail (hrequires.2 (Or.inl ⟨m, hm, rfl, hn⟩))))
  · intro hknown
    refine TaskGraph.closed_of_requirements (fun _ hn => hn) fun t ht d hd => ?_
    rcases hrequires.1 (TaskGraph.requires_of_mem ht hd) with ⟨m, hm, _, hd⟩ | ⟨_, rfl⟩
    · exact (mem_names_iff_known h).2 (hknown m hm d hd)
    · exact (mem_names_iff_known h).2 (Or.inl rfl)

/-- **Tasks require themselves exactly if those of modules do.** -/
theorem acyclic_iff (h : g.tasks = c.taskList) :
    g.Acyclic g.names ↔ ∀ n, ¬ TransGen c.Needs n n := by
  have hrequires := fun {a d} => requires_iff (b := ⟨c, g⟩) (a := a) (d := d) h
  constructor
  · intro hacyclic n hcycle
    obtain ⟨_, ⟨m, hm, rfl, _⟩, _⟩ := TransGen.head'_iff.1 hcycle
    have hname := (mem_names_iff_known h).2 (Or.inr (Or.inr ⟨m, hm, rfl⟩))
    refine hacyclic _ (TaskGraph.wanted_of_mem hname) (TransGen.mono ?_ _ _ hcycle)
    exact fun _ _ hab => hrequires.2 (Or.inl hab)
  · intro hacyclic n _ hcycle
    obtain ⟨d, hnd, hdn⟩ := TransGen.head'_iff.1 hcycle
    rcases hrequires.1 hnd with hneeds | ⟨rfl, rfl⟩
    · have hstep := hneeds
      obtain ⟨m, _, rfl, _⟩ := hneeds
      have hpath := (reflTransGen_requires_iff (b := ⟨c, g⟩) h).1 hdn
      exact hacyclic _ (TransGen.head' hstep hpath)
    · -- the tools need the outline, and nothing leads back from there
      rcases ReflTransGen.cases_head hdn with heq | ⟨x, hx, _⟩
      · exact absurd heq (by decide)
      · exact not_requires_outline (b := ⟨c, g⟩) h hx

/-- What decides whether a checked configuration is accepted. -/
theorem ofConfig_eq (hroot : c.checkOutputRoot = .ok ()) (hgraph : c.taskGraph = .ok g) :
    ofConfig c = match g.validate with
      | .error e => .error (.graph e)
      | .ok _ => .ok ⟨c, g⟩ := by
  unfold ofConfig
  cases hvalid : g.validate <;> simp only [hroot, hgraph, hvalid]

/-- A requirement that is no task is reported, with the module that has it. -/
theorem ofConfig_unknown (hroot : c.checkOutputRoot = .ok ()) (hgraph : c.taskGraph = .ok g)
    (htasks : g.tasks = c.taskList) (hunknown : ¬ ∀ m ∈ c.modules, ∀ n ∈ m.requires, c.Known n) :
    ∃ m ∈ c.modules, ∃ n ∈ m.requires, ¬ c.Known n ∧
      ofConfig c = .error (.graph (.unknownTask n (some m.taskName))) := by
  obtain ⟨⟨n, requiredBy⟩, herror, hjustified, hnew⟩ :=
    TaskGraph.resolve_unknown (mt (closed_iff htasks).1 hunknown)
  rcases hjustified with ⟨_, hmem⟩ | ⟨p, hp, _, hreq⟩
  · exact absurd hmem hnew
  · dsimp only at hp hreq hnew herror
    subst hp
    rcases (requires_iff (b := ⟨c, g⟩) htasks).1 hreq with ⟨m, hm, rfl, hn⟩ | ⟨_, rfl⟩
    · refine ⟨m, hm, n, hn, mt (mem_names_iff_known htasks).2 hnew, ?_⟩
      rw [ofConfig_eq hroot hgraph, TaskGraph.validate_eq_error herror]
    · exact absurd ((mem_names_iff_known htasks).2 (Or.inl rfl)) hnew

/-- Requirements that lead back to where they started are reported as a cycle. -/
theorem ofConfig_cycle (hroot : c.checkOutputRoot = .ok ()) (hgraph : c.taskGraph = .ok g)
    (htasks : g.tasks = c.taskList) (hknown : ∀ m ∈ c.modules, ∀ n ∈ m.requires, c.Known n)
    (hcycle : ¬ ∀ n, ¬ TransGen c.Needs n n) :
    ∃ names, ofConfig c = .error (.graph (.cycle names)) := by
  obtain ⟨names, herror⟩ :=
    TaskGraph.resolve_cycle ((closed_iff htasks).2 hknown) (mt (acyclic_iff htasks).1 hcycle)
  refine ⟨names, ?_⟩
  rw [ofConfig_eq hroot hgraph, TaskGraph.validate_eq_error herror]

/-- **Modules that require no more than the copying tasks are accepted.** -/
theorem exists_ofConfig (hroot : c.checkOutputRoot = .ok ()) (hnodup : (c.modules.map Module.name).Nodup)
    (hrequires : ∀ m ∈ c.modules, ∀ n ∈ m.requires, n = Module.outlineTask ∨ n = Module.toolsTask) :
    ∃ b, ofConfig c = .ok b := by
  obtain ⟨g, hgraph, htasks⟩ := Config.taskGraph_of_nodup hnodup
  have hknown : ∀ m ∈ c.modules, ∀ n ∈ m.requires, c.Known n := fun m hm n hn =>
    (hrequires m hm n hn).imp_right Or.inl
  have hcopying : ∀ {a d}, c.Needs a d → ∀ x, ¬ c.Needs d x := by
    rintro a d ⟨m, hm, _, hd⟩ x ⟨m', _, rfl, _⟩
    rcases hrequires m hm _ hd with hname | hname
    · exact Module.compileTask_ne_outlineTask m'.name hname
    · exact Module.compileTask_ne_toolsTask m'.name hname
  -- requirements end after one step, so none leads back
  have hacyclic : ∀ n, ¬ TransGen c.Needs n n := by
    intro n hcycle
    obtain ⟨d, hnd, hdn⟩ := TransGen.head'_iff.1 hcycle
    rcases ReflTransGen.cases_head hdn with rfl | ⟨x, hx, _⟩
    · exact hcopying hnd _ hnd
    · exact hcopying hnd x hx
  have hvalid := TaskGraph.validate_eq_ok_iff.2 ⟨(closed_iff htasks).2 hknown, (acyclic_iff htasks).2 hacyclic⟩
  exact ⟨_, ofConfig_eq_ok hroot hgraph hvalid⟩

end Builder

/-! ### Errors of tasks -/

/-- The error does not speak of an unknown module. -/
def ActionError.Known (e : ActionError) : Prop := ∀ n, e ≠ .unknownModule n

theorem onFiles_failsWith {α : Type} (act : Disk α) :
    FailsWith ActionError.Known (World.onFiles .io act) := by
  intro w e w' h
  unfold World.onFiles at h
  split at h
  · cases h
  · cases h
    exact fun n hn => by cases hn

theorem require_failsWith (ok : FileSystem → Bool) {e : ActionError} (he : e.Known) :
    FailsWith ActionError.Known (require ok e) := by
  intro w e' w' h
  unfold require at h
  split at h
  · cases h
  · cases h
    exact he

theorem makeParent_failsWith (p : Path) : FailsWith ActionError.Known (makeParent p) := by
  unfold makeParent
  split
  · exact onFiles_failsWith _
  · exact FailsWith.pure ()

theorem copyEntries_failsWith (source target : Path)
    (entries : List (Except IoError (Location × Node))) :
    FailsWith ActionError.Known (copyEntries source target entries) := by
  induction entries with
  | nil => exact FailsWith.pure 0
  | cons e rest ih =>
      obtain cause | ⟨rel, node⟩ := e
      · exact FailsWith.throw (by simp [ActionError.Known])
      unfold copyEntries
      cases node with
      | directory t => exact (onFiles_failsWith _).bind fun _ => ih
      | file data =>
          refine (makeParent_failsWith _).bind fun _ => (onFiles_failsWith _).bind fun _ => ?_
          exact ih.bind fun n => FailsWith.pure (n + 1)
      | link path => exact ih

theorem copyTree_failsWith (source target : Path) :
    FailsWith ActionError.Known (copyTree source target) := by
  refine (require_failsWith _ (by simp [ActionError.Known])).bind fun _ => FailsWith.get.bind fun w => ?_
  refine (copyEntries_failsWith _ _ _).bind fun first => ?_
  refine (require_failsWith _ (by simp [ActionError.Known])).bind fun _ => FailsWith.get.bind fun w => ?_
  exact (copyEntries_failsWith _ _ _).bind fun rest => FailsWith.pure (first + rest)

theorem copyInto_failsWith (into file : Path) :
    FailsWith ActionError.Known (copyInto into file) := by
  unfold copyInto
  split
  · exact FailsWith.throw (by simp [ActionError.Known])
  · refine (require_failsWith _ (by simp [ActionError.Known])).bind fun _ => ?_
    exact (onFiles_failsWith _).bind fun _ => FailsWith.pure _

theorem copyFiles_failsWith (files : List Path) (into : Path) :
    FailsWith ActionError.Known (copyFiles files into) := by
  refine (onFiles_failsWith _).bind fun _ => ?_
  induction files with
  | nil => exact FailsWith.pure []
  | cons file rest ih =>
      exact (copyInto_failsWith into file).bind fun dest => ih.bind fun dests => FailsWith.pure _

theorem relocate_failsWith (source target : Path) :
    FailsWith ActionError.Known (relocate source target) :=
  (require_failsWith _ (by simp [ActionError.Known])).bind fun _ =>
    (makeParent_failsWith target).bind fun _ => onFiles_failsWith _

theorem start_failsWith (program : String) (arguments : List String) (limit : Option Duration) :
    FailsWith ActionError.Known (start program arguments limit) := by
  intro w e w' h
  unfold start at h
  split at h
  · cases h
    simp [ActionError.Known]
  · split at h
    · cases h
      simp [ActionError.Known]
    · cases h

theorem judgeEnding_known {module : String} {limit : Option Duration} {ending : Ending}
    {e : ActionError} (h : judgeEnding module limit ending = .error e) : e.Known := by
  unfold judgeEnding at h
  split at h
  · cases h
    simp [ActionError.Known]
  · dsimp only at h
    split at h
    · cases h
    · cases h
      simp [ActionError.Known]

theorem compile_failsWith (command : CompilerCommand) (request : CompileRequest)
    (limit : Option Duration) : FailsWith ActionError.Known (compile command request limit) := by
  refine (onFiles_failsWith _).bind fun _ => (start_failsWith _ _ _).bind fun ending => ?_
  cases hending : judgeEnding request.module limit ending with
  | ok output => exact FailsWith.pure output
  | error e => exact FailsWith.throw (judgeEnding_known hending)

namespace Builder

variable {b : Builder} {c : Config} {w w' : World} {m : Module}

theorem checkDeps_failsWith (m : Module) {deps : List String}
    (hknown : ∀ d ∈ deps, ∃ dep, b.config.module? d = some dep) :
    FailsWith ActionError.Known (b.checkDeps m deps) := by
  induction deps with
  | nil => exact FailsWith.pure ()
  | cons name rest ih =>
      refine FailsWith.bind ?_ fun _ => ih fun d hd => hknown d (List.mem_cons_of_mem _ hd)
      obtain ⟨dep, hdep⟩ := hknown name (List.mem_cons_self ..)
      intro w e w' h
      unfold checkDep at h
      rw [hdep] at h
      dsimp only at h
      split at h
      · cases h
        simp [ActionError.Known]
      · cases h

theorem relocateAll_failsWith (layout : Layout) (relocations : List Relocation) :
    FailsWith ActionError.Known (relocateAll layout relocations) := by
  induction relocations with
  | nil => exact FailsWith.pure ()
  | cons r rest ih => exact (relocate_failsWith _ _).bind fun _ => ih

/-- **No configured task fails over an unknown module** if all dependencies are modules. -/
theorem runTask_failsWith (hb : ofConfig c = .ok b) (hvalid : Module.validate c.modules = .ok ())
    {t : Task} (ht : t ∈ c.taskList) : FailsWith ActionError.Known (b.runTask t) := by
  rcases List.mem_cons.1 ht with rfl | ht
  · exact (copyTree_failsWith _ _).discard
  · rcases List.mem_cons.1 ht with rfl | ht
    · exact (copyFiles_failsWith _ _).discard
    · obtain ⟨m, hm, rfl⟩ := List.mem_map.1 ht
      rw [runTask_toTask hb hm]
      refine (checkDeps_failsWith m fun d hd => ?_).bind fun _ => ?_
      · obtain ⟨dep, hdep, rfl⟩ := List.mem_map.1 ((Module.of_validate hvalid).1.known m hm d hd)
        exact ⟨dep, (of_ofConfig hb).1 ▸ module?_eq_some hb hdep⟩
      · exact (compile_failsWith _ _ _).discard.bind fun _ => relocateAll_failsWith _ _

/-- **Of an accepted configuration, a build fails with a task, a launcher or packaging**, and with no
task that names an unknown module. -/
theorem build_error (hb : ofConfig c = .ok b) (hvalid : Module.validate c.modules = .ok ())
    {e : BuildError} (h : b.build w = .error e w') :
    (∃ name cause, e = .task name cause ∧ cause.Known) ∨ (∃ cause, e = .fetch cause) ∨
      ∃ cause, e = .package cause := by
  obtain ⟨plan, hplan⟩ := plan_total hb (b.obtain b.config.launchers w).2.files
  cases e with
  | task name cause =>
      obtain ⟨t, start, hreaches, _, hfail⟩ := build_task_error h
      have hknown := runTask_failsWith hb hvalid (hreaches.mem_taskList hb)
      exact Or.inl ⟨name, cause, rfl, hknown _ _ _ hfail⟩
  | fetch cause => exact Or.inr (Or.inl ⟨cause, rfl⟩)
  | package cause => exact Or.inr (Or.inr ⟨cause, rfl⟩)
  | _ =>
      exfalso
      unfold build at h
      simp only [hplan] at h
      repeat' split at h
      all_goals cases h

/-! ### The outcome -/

/-- **What becomes of a checked configuration**, as every loaded one is.  It is accepted exactly if
all that its modules require are tasks and none of these requires itself.  A requirement that is no
task is reported together with the module that has it, and otherwise a cycle is; there are no other
errors.  Once accepted, every plan can be made, and no build ends with an error of configuration or
graph or with a task that names an unknown module. -/
theorem validated_outcome (c : Config) :
    (∀ fs project given env, Config.load fs project given env = .ok c →
      c.checkOutputRoot = .ok () ∧ Module.validate c.modules = .ok ()) ∧
    (c.checkOutputRoot = .ok () → Module.validate c.modules = .ok () →
      ((∃ b, ofConfig c = .ok b) ↔
        (∀ m ∈ c.modules, ∀ n ∈ m.requires, c.Known n) ∧ ∀ n, ¬ TransGen c.Needs n n) ∧
      ((¬ ∀ m ∈ c.modules, ∀ n ∈ m.requires, c.Known n) →
        ∃ m ∈ c.modules, ∃ n ∈ m.requires, ¬ c.Known n ∧
          ofConfig c = .error (.graph (.unknownTask n (some m.taskName)))) ∧
      ((∀ m ∈ c.modules, ∀ n ∈ m.requires, c.Known n) → (¬ ∀ n, ¬ TransGen c.Needs n n) →
        ∃ names, ofConfig c = .error (.graph (.cycle names))) ∧
      (∀ e, ofConfig c = .error e →
        (∀ cause, e ≠ .config cause) ∧ ∀ n, e ≠ .graph (.duplicateTask n)) ∧
      ∀ b, ofConfig c = .ok b → (∀ fs, ∃ plan, b.plan fs = .ok plan) ∧
        ∀ w e w', b.build w = .error e w' → (∀ cause, e ≠ .config cause) ∧
          (∀ cause, e ≠ .graph cause) ∧ ∀ name n, e ≠ .task name (.unknownModule n)) := by
  refine ⟨fun fs project given env hload => ?_, fun hroot hvalid => ?_⟩
  · exact Config.check_eq_ok_iff.1 (Config.check_of_load hload)
  obtain ⟨g, hgraph, htasks⟩ := Config.taskGraph_of_nodup (Module.of_validate hvalid).1.nodup
  have hunknown := ofConfig_unknown hroot hgraph htasks
  have hcycle := ofConfig_cycle hroot hgraph htasks
  have hiff : (∃ b, ofConfig c = .ok b) ↔
      (∀ m ∈ c.modules, ∀ n ∈ m.requires, c.Known n) ∧ ∀ n, ¬ TransGen c.Needs n n := by
    rw [← closed_iff htasks, ← acyclic_iff htasks, ← TaskGraph.validate_eq_ok_iff,
      ofConfig_eq hroot hgraph]
    cases g.validate <;> simp
  refine ⟨hiff, hunknown, hcycle, fun e he => ?_, fun b hb => ⟨plan_total hb, fun w e w' he => ?_⟩⟩
  · by_cases hknown : ∀ m ∈ c.modules, ∀ n ∈ m.requires, c.Known n
    · by_cases hacyclic : ∀ n, ¬ TransGen c.Needs n n
      · obtain ⟨b, hb⟩ := hiff.2 ⟨hknown, hacyclic⟩
        cases hb.symm.trans he
      · obtain ⟨names, hnames⟩ := hcycle hknown hacyclic
        cases hnames.symm.trans he
        simp
    · obtain ⟨m, _, n, _, _, hn⟩ := hunknown hknown
      cases hn.symm.trans he
      simp
  · rcases build_error hb hvalid he with ⟨name, cause, rfl, hcause⟩ | ⟨cause, rfl⟩ | ⟨cause, rfl⟩
    · refine ⟨by simp, by simp, fun _ n heq => hcause n (BuildError.task.inj heq).2⟩
    · simp
    · simp

/-- A module that asks for a task that nobody has, and two that ask for each other. -/
def astray : List Module := [link "a" [] ["compile-z"], link "b" [] ["copy-javatools"]]

def entangled : List Module := [link "a" [] ["compile-b"], link "b" [] ["compile-a"]]

/-- Of three valid lists of modules one is refused for a task that does not exist, one for a cycle, and
one is accepted and can be planned for an empty disk. -/
theorem links_validated :
    (∃ m ∈ astray, ∃ n ∈ m.requires, ¬ (linkConfig astray).Known n ∧
      ofConfig (linkConfig astray) = .error (.graph (.unknownTask n (some m.taskName)))) ∧
    (∃ names, ofConfig (linkConfig entangled) = .error (.graph (.cycle names))) ∧
    ∃ b plan, ofConfig (linkConfig knot) = .ok b ∧ b.plan ⟨[], ["p"], ⟨5⟩⟩ = .ok plan := by
  refine ⟨?_, ?_, ?_⟩
  · obtain ⟨_, hunknown, _⟩ := (validated_outcome (linkConfig astray)).2
      (checkOutputRoot_inside rfl rfl) (by decide +kernel)
    refine hunknown fun hall => ?_
    have hknown := hall (link "a" [] ["compile-z"]) (by simp [linkConfig, astray]) "compile-z"
      (List.mem_singleton_self _)
    revert hknown
    unfold Config.Known
    decide
  · obtain ⟨_, _, hcycle, _⟩ := (validated_outcome (linkConfig entangled)).2
      (checkOutputRoot_inside rfl rfl) (by decide +kernel)
    refine hcycle ?_ fun hacyclic => ?_
    · unfold Config.Known
      decide
    · have hab : (linkConfig entangled).Needs "compile-a" "compile-b" :=
        ⟨link "a" [] ["compile-b"], by simp [linkConfig, entangled], rfl, List.mem_singleton_self _⟩
      have hba : (linkConfig entangled).Needs "compile-b" "compile-a" :=
        ⟨link "b" [] ["compile-a"], by simp [linkConfig, entangled], rfl, List.mem_singleton_self _⟩
      exact hacyclic _ ((TransGen.single hab).tail hba)
  · obtain ⟨_, _, _, _, haccepted⟩ := (validated_outcome (linkConfig knot)).2
      (checkOutputRoot_inside rfl rfl) (by decide +kernel)
    obtain ⟨plan, hplan⟩ := (haccepted _ ofConfig_knot).1 ⟨[], ["p"], ⟨5⟩⟩
    exact ⟨_, plan, ofConfig_knot, hplan⟩

end Builder

end Rebuild
