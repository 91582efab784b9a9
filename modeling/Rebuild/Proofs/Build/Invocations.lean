/-
When the compiler is started in a build.

The task of a module prepares, starts the compiler, and then moves files.  So every start of the
compiler belongs to the start of a task in the record of the run, and what is known of that moment
carries over: the tasks before it have succeeded, and the outputs of the dependencies, which were
checked, are still there after a directory was made.

Main definitions:

* `Builder.prepare`, `Builder.finish` — what the task of a module does before the compiler is started,
  and from then on;
* `Builder.Invocation`, `Builder.invocations` — **the starts of the compiler in a build**, each with the
  world at that moment;
* `World.SameRecord` — no program was started in between.

Main results:

* `Builder.compileModule_eq` — preparing and finishing is all that the task of a module does;
* `Builder.prepare_eq_ok` — **when the compiler is started, all outputs of dependencies exist**;
* `Builder.started_execute`, `Builder.started_build` — the record of programs lists these invocations;
* `Builder.compiler_invocations` — what is known of all of them together.
-/
import Rebuild.Proofs.Build.Retry
import Rebuild.Proofs.Build.Tasks
import Rebuild.Proofs.Execution.History

set_option relaxedAutoImplicit false
set_option autoImplicit false

namespace Rebuild

/-! ### The record of programs -/

namespace World

/-- No program was started in between. -/
def SameRecord (w w' : World) : Prop := w'.started = w.started

instance : Indifferent SameRecord where
  refl := fun _ => rfl
  trans := fun _ _ _ h h' => Eq.trans h' h
  files := fun _ _ => rfl
  network := fun _ _ => rfl

/-- The program can be started. -/
def begins (w : World) (program : String) (arguments : List String) : Bool :=
  !(program :: arguments).any holdsNul && (w.program? program).isOk

end World

/-- **A program that is started is put on record**, whatever its limit. -/
theorem started_start (program : String) (arguments : List String) (limit : Option Duration)
    (w : World) : (endOf (start program arguments limit w)).started =
      w.started ++ if w.begins program arguments then [arguments] else [] := by
  unfold start World.begins
  by_cases hnul : (program :: arguments).any holdsNul = true
  · simp [hnul, endOf]
  · rw [if_neg hnul]
    cases hprogram : w.program? program with
    | error e => simp [endOf, Except.isOk, Except.toBool]
    | ok p => simp [hnul, endOf, Except.isOk, Except.toBool]

/-! ### The task of a module in two parts -/

namespace Builder

variable {b : Builder} {c : Config} {m : Module} {w w' : World} {e : ActionError}

/-- What is done for a module before its compiler is started. -/
def prepare (b : Builder) (m : Module) : Work Unit := do
  b.checkDeps m m.deps
  World.onFiles .io (Disk.makeDirectories (b.config.layout.output m.outputDir))

/-- The arguments that the compiler is started with. -/
def argumentsFor (b : Builder) (m : Module) : List String :=
  b.config.compilerCommand.arguments (requestFor b.config.layout m)

/-- Starts the compiler and waits for it to succeed. -/
def invoke (b : Builder) (m : Module) : Work Unit := do
  let ending ← start b.config.compilerCommand.program (b.argumentsFor m) b.config.compileTimeout
  match judgeEnding m.name b.config.compileTimeout ending with
  | .ok _ => pure ()
  | .error e => throw e

/-- From the start of the compiler on: when it has succeeded, files are moved. -/
def finish (b : Builder) (m : Module) : Work Unit := do
  b.invoke m
  relocateAll b.config.layout m.relocations

/-- **The task of a module prepares and finishes, and nothing else.** -/
theorem compileModule_eq (b : Builder) (m : Module) : b.compileModule m = (do
    b.prepare m
    b.finish m) := by
  have hcompile : discard (compile b.config.compilerCommand (requestFor b.config.layout m)
      b.config.compileTimeout) = (do
        World.onFiles .io (Disk.makeDirectories (b.config.layout.output m.outputDir))
        b.invoke m) := by
    rw [compile, discard_eq_bind, bind_assoc]
    refine congrArg _ (funext fun _ => ?_)
    rw [bind_assoc]
    refine congrArg _ (funext fun ending => ?_)
    change (match judgeEnding m.name b.config.compileTimeout ending with
      | .ok output => pure output
      | .error e => throw e) >>= (fun _ => pure ()) = _
    cases judgeEnding m.name b.config.compileTimeout ending <;> rfl
  rw [compileModule, hcompile]
  simp only [prepare, finish, bind_assoc]

/-- Dependencies pass only if all their outputs exist. -/
theorem checkDeps_eq_ok {deps : List String} (h : b.checkDeps m deps w = .ok () w') :
    ∀ d ∈ deps, ∃ dep, b.config.module? d = some dep ∧
      ∀ p ∈ dep.outputs, w.files.present (b.config.layout.output p) = true := by
  induction deps with
  | nil => simp
  | cons name rest ih =>
      obtain ⟨_, mid, hfirst, hrest⟩ := bind_eq_ok.1 h
      unfold checkDep at hfirst
      cases hdep : b.config.module? name with
      | none =>
          rw [hdep] at hfirst
          cases hfirst
      | some dep =>
          rw [hdep] at hfirst
          cases hmissing : missingOutput? b.config.layout w.files dep with
          | some p => simp [hmissing] at hfirst
          | none =>
              simp only [hmissing, EStateM.Result.ok.injEq, true_and] at hfirst
              subst hfirst
              intro d hd
              rcases List.mem_cons.1 hd with rfl | hd
              · refine ⟨dep, hdep, fun p hp => ?_⟩
                have hnone := List.find?_eq_none.1 hmissing _ (List.mem_map_of_mem hp)
                simpa using hnone
              · exact ih hrest d hd

/-- **When the compiler is started, all outputs of dependencies exist.** -/
theorem prepare_eq_ok (h : b.prepare m w = .ok () w') :
    ∀ d ∈ m.deps, ∃ dep, b.config.module? d = some dep ∧
      ∀ p ∈ dep.outputs, w'.files.present (b.config.layout.output p) = true := by
  obtain ⟨_, mid, hdeps, hmake⟩ := bind_eq_ok.1 h
  obtain rfl := (b.keepsTo_eq_checkDeps m m.deps).of_ok hdeps
  -- a directory was made since they were checked, and that takes nothing away
  have hgrows := (World.overFiles_onFiles ActionError.io
    (Disk.keepsTo_makeDirectories (b.config.layout.output m.outputDir))).of_ok hmake
  intro d hd
  obtain ⟨dep, hdep, hpresent⟩ := checkDeps_eq_ok hdeps d hd
  exact ⟨dep, hdep, fun p hp => hgrows.retains.present (hpresent p hp)⟩

theorem prepare_sameRecord (b : Builder) (m : Module) : KeepsTo World.SameRecord (b.prepare m) :=
  (b.keepsTo_checkDeps m m.deps).bind fun _ => World.keepsTo_onFiles _ _

theorem started_bind {α β : Type} {x : Work α} {f : α → Work β}
    (hf : ∀ a, KeepsTo World.SameRecord (f a)) (w : World) :
    (endOf ((x >>= f) w)).started = (endOf (x w)).started := by
  change (endOf (EStateM.bind x f w)).started = _
  unfold EStateM.bind
  cases x w with
  | ok a mid => exact hf a mid
  | error e mid => rfl

/-- Of all that follows, only the compiler itself is put on record. -/
theorem started_finish (b : Builder) (m : Module) (w : World) : (endOf (b.finish m w)).started =
    w.started ++ if w.begins b.config.compilerCommand.program (b.argumentsFor m) then
      [b.argumentsFor m] else [] := by
  rw [finish, started_bind fun _ => keepsTo_relocateAll_of keepsTo_relocate _ _, invoke, started_bind,
    started_start]
  intro ending
  cases judgeEnding m.name b.config.compileTimeout ending with
  | ok output => exact KeepsTo.pure ()
  | error e => exact KeepsTo.throw e

/-! ### Invocations -/

/-- One start of the compiler. -/
structure Invocation where
  module : Module
  /-- The world at the moment of the start. -/
  world : World

variable {plan : Plan} {tasks : List Task} {t : Task} {i : Invocation}

/-- The start of the compiler that belongs to the start of a task, if it gets that far. -/
def invocation? (b : Builder) : Event World → Option Invocation
  | .started t w =>
    match t.action with
    | .compile n => (b.config.module? n).bind fun m =>
      match b.prepare m w with
      | .ok _ w => some ⟨m, w⟩
      | .error _ _ => none
    | _ => none
  | .ended _ _ => none

/-- **The starts of the compiler while tasks run**, in order. -/
def invocationsIn (b : Builder) (tasks : List Task) (w : World) : List Invocation :=
  (history b.runTask tasks w).filterMap b.invocation?

/-- The starts of the compiler in a build, in order. -/
def invocations (b : Builder) (w : World) : List Invocation :=
  match b.plan (b.obtain b.config.launchers w).2.files with
  | .ok plan => b.invocationsIn plan.tasks (b.obtain b.config.launchers w).2
  | .error _ => []

/-- The compiler can be started. -/
def Begins (b : Builder) (i : Invocation) : Bool :=
  i.world.begins b.config.compilerCommand.program (b.argumentsFor i.module)

theorem invocation?_eq_some {event : Event World} (h : b.invocation? event = some i) :
    ∃ t w, event = .started t w ∧ t.action = .compile i.module.name ∧
      b.config.module? i.module.name = some i.module ∧ b.prepare i.module w = .ok () i.world := by
  cases event with
  | ended t status => cases h
  | started t w =>
      unfold invocation? at h
      dsimp only at h
      split at h
      · rename_i n haction
        obtain ⟨m, hm, h⟩ := Option.bind_eq_some_iff.1 h
        split at h
        · rename_i w' hprepare
          obtain rfl := Option.some.inj h
          have hname : m.name = n := by simpa using List.find?_some hm
          subst hname
          exact ⟨t, w, rfl, haction, hm, hprepare⟩
        · cases h
      · cases h

/-- **What one task adds to the record of programs.** -/
theorem started_runTask (hb : ofConfig c = .ok b) (ht : t ∈ c.taskList) (w : World) :
    (endOf (b.runTask t w)).started = w.started ++
      ((b.invocation? (.started t w)).toList.filter b.Begins).map (b.argumentsFor ·.module) := by
  rcases List.mem_cons.1 ht with rfl | ht
  · have hsame : (endOf (b.runTask c.outlineTask w)).started = w.started :=
      (keepsTo_copyTree (r := World.SameRecord) _ _).discard w
    rw [hsame]
    exact (List.append_nil _).symm
  · rcases List.mem_cons.1 ht with rfl | ht
    · have hsame : (endOf (b.runTask c.toolsTask w)).started = w.started :=
        (keepsTo_copyFiles (r := World.SameRecord) _ _).discard w
      rw [hsame]
      exact (List.append_nil _).symm
    · obtain ⟨m, hm, rfl⟩ := List.mem_map.1 ht
      have hmodule : b.config.module? m.name = some m := (of_ofConfig hb).1 ▸ module?_eq_some hb hm
      have hprepared : (endOf (b.prepare m w)).started = w.started := prepare_sameRecord b m w
      rw [runTask_toTask hb hm, compileModule_eq]
      change (endOf (EStateM.bind _ _ w)).started = _
      simp only [invocation?, m.action_toTask, hmodule, Option.bind_some]
      unfold EStateM.bind
      cases hprepare : b.prepare m w with
      | error e mid =>
          rw [hprepare] at hprepared
          exact hprepared.trans (List.append_nil _).symm
      | ok u mid =>
          rw [hprepare] at hprepared
          have hstarted : mid.started = w.started := hprepared
          simp only [started_finish, hstarted, Option.toList_some, List.filter_singleton, Begins]
          cases mid.begins b.config.compilerCommand.program (b.argumentsFor m) <;> rfl

theorem invocationsIn_cons_ok (ht : b.runTask t w = .ok () w') (ts : List Task) :
    b.invocationsIn (t :: ts) w = (b.invocation? (.started t w)).toList ++ b.invocationsIn ts w' := by
  rw [invocationsIn, history_cons_ok ht]
  simp only [List.filterMap_cons]
  cases b.invocation? (.started t w) <;> rfl

theorem invocationsIn_cons_error (ht : b.runTask t w = .error e w') (ts : List Task) :
    b.invocationsIn (t :: ts) w = (b.invocation? (.started t w)).toList := by
  rw [invocationsIn, history_cons_error ht]
  simp only [List.filterMap_cons]
  cases b.invocation? (.started t w) <;> rfl

/-- **A run of tasks puts its invocations on record**, as far as the compiler can be started. -/
theorem started_execute (hb : ofConfig c = .ok b) (htasks : ∀ t ∈ tasks, t ∈ c.taskList) (w : World) :
    (execute b.runTask tasks w).2.started = w.started ++
      ((b.invocationsIn tasks w).filter b.Begins).map (b.argumentsFor ·.module) := by
  induction tasks generalizing w with
  | nil => simp [execute, invocationsIn, history]
  | cons t ts ih =>
      have hstep := started_runTask hb (htasks t (List.mem_cons_self ..)) w
      cases ht : b.runTask t w with
      | error e mid =>
          rw [ht] at hstep
          rw [invocationsIn_cons_error ht, execute, ht]
          exact hstep
      | ok u mid =>
          rw [ht] at hstep
          have hmid : mid.started = _ := hstep
          have hrest := ih (fun t ht => htasks t (List.mem_cons_of_mem _ ht)) mid
          rw [invocationsIn_cons_ok ht, execute, ht, List.filter_append, List.map_append,
            ← List.append_assoc, ← hmid]
          exact hrest

/-- An invocation of a configured task is of its module, and its world is what preparing left. -/
theorem eq_toTask_of_invocation? (hb : ofConfig c = .ok b) (ht : t ∈ c.taskList)
    (h : b.invocation? (.started t w) = some i) :
    i.module ∈ c.modules ∧ t = i.module.toTask ∧ b.prepare i.module w = .ok () i.world := by
  obtain ⟨_, _, hevent, haction, hmodule, hprepare⟩ := invocation?_eq_some h
  cases hevent
  rcases List.mem_cons.1 ht with rfl | ht
  · cases haction
  · rcases List.mem_cons.1 ht with rfl | ht
    · cases haction
    · obtain ⟨m, hm, rfl⟩ := List.mem_map.1 ht
      have hname : m.name = i.module.name := by simpa [m.action_toTask] using haction
      rw [← hname, (of_ofConfig hb).1, module?_eq_some hb hm] at hmodule
      obtain rfl := Option.some.inj hmodule
      exact ⟨hm, rfl, hprepare⟩

/-- **The modules of the invocations are found among the tasks**, in the same order. -/
theorem sublist_invocationsIn (hb : ofConfig c = .ok b) (htasks : ∀ t ∈ tasks, t ∈ c.taskList)
    (w : World) : ((b.invocationsIn tasks w).map (·.module.toTask)).Sublist tasks := by
  induction tasks generalizing w with
  | nil => exact List.nil_sublist _
  | cons t ts ih =>
      have hfirst : ((b.invocation? (.started t w)).toList.map (·.module.toTask)).Sublist [t] := by
        cases hi : b.invocation? (.started t w) with
        | none => exact List.nil_sublist _
        | some i =>
            obtain ⟨_, rfl, _⟩ := eq_toTask_of_invocation? hb (htasks t (List.mem_cons_self ..)) hi
            exact List.Sublist.refl _
      cases ht : b.runTask t w with
      | error e mid =>
          rw [invocationsIn_cons_error ht]
          exact hfirst.trans (List.sublist_append_left [t] ts)
      | ok u mid =>
          rw [invocationsIn_cons_ok ht, List.map_append]
          exact hfirst.append (ih (fun t ht => htasks t (List.mem_cons_of_mem _ ht)) mid)

/-- **A task of the run belongs to every invocation.**  All tasks before it had succeeded by then, and
if it fails, the compiler is not started again. -/
theorem invocation_at (hb : ofConfig c = .ok b) (htasks : ∀ t ∈ tasks, t ∈ c.taskList)
    {earlier later : List Invocation} (h : b.invocationsIn tasks w = earlier ++ i :: later) :
    i.module ∈ c.modules ∧ ∃ done rest x, tasks = done ++ i.module.toTask :: rest ∧
      Runs b.runTask done w x ∧ b.prepare i.module x = .ok () i.world ∧
      ∀ e w', b.finish i.module i.world = .error e w' →
        later = [] ∧ b.runTask i.module.toTask x = .error e w' := by
  obtain ⟨before, after, hhistory, _, hafter⟩ := List.filterMap_eq_append_iff.1 h
  obtain ⟨silent, event, after, rfl, hsilent, hevent, rfl⟩ := List.filterMap_eq_cons_iff.1 hafter
  obtain ⟨t, x, rfl, _⟩ := invocation?_eq_some hevent
  rw [← List.append_assoc] at hhistory
  obtain ⟨done, rest, rfl, hruns, hbefore⟩ := history_at_start hhistory
  obtain ⟨hm, rfl, hprepare⟩ := eq_toTask_of_invocation? hb (htasks t (by simp)) hevent
  refine ⟨hm, done, rest, x, rfl, hruns, hprepare, fun e w' hfinish => ?_⟩
  have hfail : b.runTask i.module.toTask x = .error e w' := by
    rw [runTask_toTask hb hm, compileModule_eq]
    exact bind_eq_error.2 (Or.inr ⟨(), _, hprepare, hfinish⟩)
  refine ⟨?_, hfail⟩
  -- the record ends with the task that failed
  rw [hruns.history_append, history_cons_error hfail, hbefore, List.append_right_inj] at hhistory
  rw [← (List.cons.inj hhistory).2]
  rfl

/-! ### Builds -/

/-- What is planned is configured. -/
theorem mem_taskList_of_plan {fs : FileSystem} (h : ofConfig c = .ok b) (hp : b.plan fs = .ok plan) :
    ∀ t ∈ plan.tasks, t ∈ c.taskList := fun _ ht => ((mem_tasks_of_plan h hp).1 ht).1

/-- **A build puts its invocations on record, and no other program.** -/
theorem started_build (hb : ofConfig c = .ok b) (w : World) : (endOf (b.build w)).started =
    w.started ++ ((b.invocations w).filter b.Begins).map (b.argumentsFor ·.module) := by
  have hobtain : (b.obtain b.config.launchers w).2.started = w.started :=
    b.keepsTo_obtain (r := World.SameRecord) b.config.launchers w
  obtain ⟨plan, hplan⟩ := plan_total hb (b.obtain b.config.launchers w).2.files
  have hrun := started_execute hb (mem_taskList_of_plan hb hplan) (b.obtain b.config.launchers w).2
  rw [hobtain] at hrun
  unfold build invocations
  simp only [hplan]
  rw [← hrun]
  split
  · rfl
  · split
    · rfl
    · -- the launchers are copied, which starts nothing
      have hpackage := keepsTo_copyFiles (r := World.SameRecord)
        (b.config.launchers.map fun l => b.config.layout.source l.path) (b.config.layout.output ⟨"bin"⟩)
      split
      · rename_i h
        exact hpackage.of_error h
      · rename_i h
        exact hpackage.of_ok h

/-- A task that fails fails the build. -/
theorem build_of_failure {x : World} {done rest : List Task}
    (hplan : b.plan (b.obtain b.config.launchers w).2.files = .ok plan)
    (htasks : plan.tasks = done ++ t :: rest)
    (hruns : Runs b.runTask done (b.obtain b.config.launchers w).2 x)
    (hfail : b.runTask t x = .error e w') : b.build w = .error (.task t.name e) w' := by
  unfold build
  simp only [hplan, htasks, hruns.execute_stop hfail]

/-- **The invocations of the compiler in a build**, whatever the compiler does.  They are what the build
puts on record, as far as the compiler can be started; they are of different modules, in the order of
the plan; and the arguments are those of the module.  At each of them, all tasks planned before have
succeeded, and all outputs of the dependencies exist; and if the compiler fails, or moving files after
it does, the build fails with it and there is no further invocation. -/
theorem compiler_invocations (h : ofConfig c = .ok b) (w : World) :
    ∃ plan, b.plan (b.obtain c.launchers w).2.files = .ok plan ∧
      (endOf (b.build w)).started =
        w.started ++ ((b.invocations w).filter b.Begins).map (b.argumentsFor ·.module) ∧
      ((b.invocations w).map (·.module.toTask)).Sublist plan.tasks ∧
      ((b.invocations w).map (·.module.name)).Nodup ∧
      ∀ earlier i later, b.invocations w = earlier ++ i :: later → i.module ∈ c.modules ∧
        b.argumentsFor i.module = c.compilerCommand.args ++
          ["-verbose", "-o", (c.layout.output i.module.outputDir).text] ++
          i.module.libraries.flatMap (fun p => ["-L", (c.layout.output p).text]) ++
          i.module.entries.map (fun p => (c.layout.source p).text) ∧
        (∃ done rest x, plan.tasks = done ++ i.module.toTask :: rest ∧
          Runs b.runTask done (b.obtain c.launchers w).2 x ∧ b.prepare i.module x = .ok () i.world ∧
          ∀ t ∈ done, (execute b.runTask plan.tasks (b.obtain c.launchers w).2).1.statusOf? t.name =
            some .succeeded) ∧
        (∀ d ∈ i.module.deps, ∃ dep ∈ c.modules, dep.name = d ∧
          ∀ p ∈ dep.outputs, i.world.files.present (c.layout.output p) = true) ∧
        ∀ e w', b.finish i.module i.world = .error e w' →
          later = [] ∧ b.build w = .error (.task i.module.taskName e) w' := by
  obtain ⟨plan, hplan⟩ := plan_total h (b.obtain c.launchers w).2.files
  have hconfig := (of_ofConfig h).1
  have hin : b.invocations w = b.invocationsIn plan.tasks (b.obtain c.launchers w).2 := by
    rw [invocations, hconfig, hplan]
  have hlisted := mem_taskList_of_plan h hplan
  have hsub := sublist_invocationsIn h hlisted (b.obtain c.launchers w).2
  refine ⟨plan, hplan, started_build h w, hin ▸ hsub, ?_, ?_⟩
  · have hnodup := (hsub.map Task.name).nodup (TaskGraph.nodup_names_of_resolve (plan_eq_ok hplan))
    rw [← hin] at hnodup
    simp only [List.map_map, Function.comp_def, Module.name_toTask] at hnodup
    refine List.Nodup.of_map Module.compileTask ?_
    rwa [List.map_map]
  · intro earlier i later heq
    obtain ⟨hm, done, rest, x, htasks, hruns, hprepare, hlast⟩ := invocation_at h hlisted (hin ▸ heq)
    refine ⟨hm, ?_, ⟨done, rest, x, htasks, hruns, hprepare, fun t ht => ?_⟩, fun d hd => ?_,
      fun e w' hfinish => ?_⟩
    · simp [argumentsFor, CompilerCommand.arguments, requestFor, hconfig, List.flatMap_map]
    · rw [TaskGraph.statusOf?_execute (plan_eq_ok hplan), htasks, hruns.execute_append]
      exact List.mem_append_left _ (List.mem_map_of_mem ht)
    · obtain ⟨dep, hdep, hpresent⟩ := prepare_eq_ok hprepare d hd
      rw [hconfig] at hdep hpresent
      exact ⟨dep, List.mem_of_find?_eq_some hdep, by simpa using List.find?_some hdep, hpresent⟩
    · obtain ⟨rfl, hfail⟩ := hlast e w' hfinish
      refine ⟨rfl, ?_⟩
      rw [← hconfig] at hplan hruns
      exact i.module.name_toTask ▸ build_of_failure hplan htasks hruns hfail

/-- A project whose one module wants a file moved that its compiler does not write. -/
def unmovedBuilder : Builder := soloBuilder ⟨"lib/a.xtc"⟩ [⟨⟨"lib/n.xtc"⟩, ⟨"x"⟩⟩]

/-- What fails from the start of the compiler on. -/
def failure? (b : Builder) (i : Invocation) : Option ActionError :=
  match b.finish i.module i.world with
  | .ok _ _ => none
  | .error e _ => some e

/-- The compiler is started once and succeeds; then the file is missed, and the build fails. -/
theorem unmoved_invocations : ∃ i w',
    unmovedBuilder.invocations (soloWorld (soloFiles []) writing) = [i] ∧
    unmovedBuilder.build (soloWorld (soloFiles []) writing) =
      .error (.task "compile-a" (.missingRelocation ⟨"/p/o/lib/n.xtc"⟩)) w' ∧
    w'.started = [["-verbose", "-o", "/p/o/lib", "/p/a/module.x"]] := by
  have hstale : soloStale ⟨"lib/a.xtc"⟩ [⟨⟨"lib/n.xtc"⟩, ⟨"x"⟩⟩] (soloFiles []) = true := by
    decide +kernel
  obtain ⟨plan, hplan, htasks⟩ := plan_solo hstale
  have hin : unmovedBuilder.invocations (soloWorld (soloFiles []) writing) =
      unmovedBuilder.invocationsIn soloGraph.tasks (soloWorld (soloFiles []) writing) := by
    have hobtain : unmovedBuilder.plan (unmovedBuilder.obtain unmovedBuilder.config.launchers
        (soloWorld (soloFiles []) writing)).2.files = .ok plan := hplan
    rw [invocations, hobtain, ← htasks]
    rfl
  have hrun : (unmovedBuilder.invocationsIn soloGraph.tasks (soloWorld (soloFiles []) writing)).map
      (fun i => (i.module.name, unmovedBuilder.Begins i, unmovedBuilder.argumentsFor i.module,
        unmovedBuilder.failure? i)) = [("a", true, ["-verbose", "-o", "/p/o/lib", "/p/a/module.x"],
          some (.missingRelocation ⟨"/p/o/lib/n.xtc"⟩))] := by
    decide +kernel
  rw [← hin] at hrun
  obtain ⟨i, hone, hi⟩ := List.map_eq_singleton_iff.1 hrun
  simp only [Prod.mk.injEq] at hi
  obtain ⟨hname, hbegins, harguments, hfailure⟩ := hi
  have haccepted : ofConfig unmovedBuilder.config = .ok unmovedBuilder := ofConfig_solo _ _
  obtain ⟨_, _, hrecord, _, _, hat⟩ :=
    compiler_invocations haccepted (soloWorld (soloFiles []) writing)
  obtain ⟨_, _, _, _, hlast⟩ := hat [] i [] hone
  unfold failure? at hfailure
  split at hfailure
  · cases hfailure
  · rename_i e w' hfinish
    obtain rfl := Option.some.inj hfailure
    have hbuild := (hlast _ w' hfinish).2
    rw [hbuild] at hrecord
    refine ⟨i, w', hone, ?_, ?_⟩
    · rw [Module.taskName, hname] at hbuild
      exact hbuild
    · rw [hone, List.filter_singleton, hbegins] at hrecord
      exact hrecord.trans (congrArg (fun a => [a]) harguments)

end Builder

end Rebuild
