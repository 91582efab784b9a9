/-
Whether a module that failed is compiled again.

Nothing records that a task failed: the next plan looks at the files alone, and of a module only at its
artifact.  So a module is tried again exactly if it, or one that pulls it in, looks stale in what the
failed build left behind.  A compiler that fails writes nothing, and then the failed task has done no
more than make directories; but a file that cannot be moved is missed only after the compiler wrote
the artifact.

Main definitions:

* `Program.FailsCleanly` — a program that writes nothing unless it succeeds;
* `Builder.Reaches` — the world in which a build starts one of its tasks;
* `Builder.Compiled` — the compiler of a module succeeded, so that files are moved next;
* `Module.Outdated` — the artifact is a file, and a source is newer.

Main results:

* `Builder.build_task_error` — **a build that fails with a task did all tasks planned before it**;
* `Builder.compileModule_failed` — a failure before the compiler succeeded leaves only directories;
* `Builder.retried_iff` — **a failed module is planned again exactly if it or one that pulls it in is
  stale**, which it stays if the compiler failed;
* `Builder.not_retried` — failures after which nothing is tried again.
-/
import Rebuild.Config.Load
import Rebuild.Proofs.Build.Plan
import Rebuild.Proofs.Execution
import Rebuild.Proofs.FileSystem.Directories
import Rebuild.Proofs.Programs

set_option relaxedAutoImplicit false
set_option autoImplicit false

namespace Rebuild

/-! ### Compilers that fail -/

/-- A run that does not succeed writes nothing; it only takes its time. -/
def Program.FailsCleanly (p : Program) : Prop :=
  ∀ arguments limit fs, (∀ out err, (p.run arguments limit fs).1 ≠ .exited (some 0) out err) →
    ∃ nanos, (p.run arguments limit fs).2 = fs.elapse nanos

/-- Whatever program has that name writes nothing unless it succeeds. -/
def World.FailsCleanly (w : World) (name : String) : Prop :=
  ∀ p, w.programs.lookup name = some p → p.FailsCleanly

variable {w w' : World} {command : CompilerCommand} {request : CompileRequest}
  {limit : Option Duration} {e : ActionError}

theorem World.FailsCleanly.of_samePrograms {name : String} (h : w.FailsCleanly name)
    (hsame : w.SamePrograms w') : w'.FailsCleanly name := by
  intro p hp
  exact h p (hsame ▸ hp)

theorem World.lookup_of_program? {name : String} {p : Program} (h : w.program? name = .ok p) :
    w.programs.lookup name = some p := by
  unfold program? at h
  split at h
  · rename_i q hq
    rw [hq, Except.ok.inj h]
  · split at h
    · cases h
    · split at h <;> cases h

theorem judgeEnding_error {module : String} {ending : Ending}
    (h : judgeEnding module limit ending = .error e) (out err : Bytes) :
    ending ≠ .exited (some 0) out err := by
  rintro rfl
  simp [judgeEnding] at h

theorem start_error {program : String} {arguments : List String}
    (h : start program arguments limit w = .error e w') : w' = w := by
  unfold start at h
  split at h
  · cases h
    rfl
  · split at h
    · cases h
      rfl
    · cases h

/-- A program that was started was run on the files as they were. -/
theorem start_eq_ok {program : String} {arguments : List String} {ending : Ending}
    (h : start program arguments limit w = .ok ending w') :
    ∃ p, w.programs.lookup program = some p ∧ p.run arguments limit w.files = (ending, w'.files) := by
  unfold start at h
  split at h
  · cases h
  · split at h
    · cases h
    · rename_i p hp
      cases h
      exact ⟨p, World.lookup_of_program? hp, rfl⟩

/-- A program that was started and did not succeed has made no more than directories. -/
theorem grows_of_start {program : String} {arguments : List String} {ending : Ending}
    (hclean : w.FailsCleanly program) (h : start program arguments limit w = .ok ending w')
    (hfail : ∀ out err, ending ≠ .exited (some 0) out err) : w.files.Grows w'.files := by
  obtain ⟨p, hp, hrun⟩ := start_eq_ok h
  obtain ⟨nanos, hfiles⟩ := hclean p hp arguments limit w.files (by rwa [hrun])
  rw [hrun] at hfiles
  change w'.files = _ at hfiles
  rw [hfiles]
  exact FileSystem.grows_elapse _ nanos

/-- **A compilation that fails has made no more than directories.** -/
theorem grows_of_compile_error (hclean : w.FailsCleanly command.program)
    (h : compile command request limit w = .error e w') : w.files.Grows w'.files := by
  have hmake := World.overFiles_onFiles ActionError.io
    (Disk.keepsTo_makeDirectories request.outputDir)
  -- it failed making directories, starting the program, or by how the program ended
  rcases bind_eq_error.1 h with hdir | ⟨_, w₁, hdir, hrest⟩
  · exact hmake.of_error hdir
  · have hgrows := hmake.of_ok hdir
    have hclean₁ := hclean.of_samePrograms ((World.keepsTo_onFiles _ _).of_ok hdir)
    rcases bind_eq_error.1 hrest with hstart | ⟨ending, w₂, hstart, hjudge⟩
    · rwa [start_error hstart]
    · cases hending : judgeEnding request.module limit ending with
      | ok output =>
          rw [hending] at hjudge
          cases hjudge
      | error e' =>
          rw [hending] at hjudge
          cases hjudge
          exact hgrows.trans (grows_of_start hclean₁ hstart (judgeEnding_error hending))

/-! ### Verdicts that stay -/

namespace Module

variable {m : Module} {layout : Layout} {fs fs' : FileSystem}

/-- The artifact of the module is a file, and one of its sources is newer. -/
def Outdated (m : Module) (layout : Layout) (fs : FileSystem) : Prop :=
  fs.isFile (layout.output m.artifact) = true ∧ ∃ source artifact,
    fs.newestUnderAll? (m.sources.map layout.source) = some source ∧
    fs.timeOf? (layout.output m.artifact) = some artifact ∧ artifact < source

theorem isStale_of_missing (h : fs.present (layout.output m.artifact) = false) :
    (Staleness.check m layout fs).isStale = true := by
  have hstat : fs.stat? (layout.output m.artifact) = none := by
    simpa [FileSystem.present] using h
  have htime : fs.timeOf? (layout.output m.artifact) = none := by
    rw [FileSystem.timeOf?, hstat]
    rfl
  simp [Staleness.check, Staleness.isStale, judge, htime]

/-- **A module that is out of date stays so when directories are made.** -/
theorem Outdated.isStale (h : m.Outdated layout fs) (hgrows : fs.Grows fs') :
    (Staleness.check m layout fs').isStale = true := by
  obtain ⟨hfile, source, artifact, hsource, hartifact, hlt⟩ := h
  obtain ⟨source', hsource', hle⟩ := hgrows.newestUnderAll? _ source hsource
  have hartifact' := (hgrows.timeOf? hfile).trans hartifact
  have hlt' : artifact < source' := Int.lt_of_lt_of_le hlt hle
  simp [Staleness.check, Staleness.isStale, judge, hsource', hartifact', hlt']

end Module

/-! ### Builds that fail -/

namespace Builder

variable {b : Builder} {c : Config} {m : Module} {t : Task} {start : World}

/-- A build from the first world gets as far as starting the task, in the second world. -/
def Reaches (b : Builder) (w : World) (t : Task) (start : World) : Prop :=
  ∃ plan done rest, b.plan (b.obtain b.config.launchers w).2.files = .ok plan ∧
    plan.tasks = done ++ t :: rest ∧
    Runs b.runTask done (b.obtain b.config.launchers w).2 start

/-- **A build that fails with a task did all tasks planned before it.** -/
theorem build_task_error {name : String} (h : b.build w = .error (.task name e) w') :
    ∃ t start, b.Reaches w t start ∧ t.name = name ∧ b.runTask t start = .error e w' := by
  unfold build at h
  dsimp only at h
  cases hplan : b.plan (b.obtain b.config.launchers w).2.files with
  | error e' =>
      rw [hplan] at h
      cases h
      obtain ⟨_, hcause⟩ := plan_error hplan
      cases hcause
  | ok plan =>
      rw [hplan] at h
      dsimp only at h
      cases hfailed : (execute b.runTask plan.tasks (b.obtain b.config.launchers w).2).1.failed with
      | none =>
          -- what fails after all tasks is no task
          rw [hfailed] at h
          dsimp only at h
          split at h
          · cases h
          · split at h <;> cases h
      | some failure =>
          rw [hfailed] at h
          cases h
          obtain ⟨done, t, rest, start, htasks, hname, hruns, hfail⟩ := execute_failed hfailed
          exact ⟨t, start, ⟨plan, done, rest, hplan, htasks, hruns⟩, hname, hfail⟩

/-- The programs are the same when a task starts. -/
theorem Reaches.samePrograms (h : b.Reaches w t start) : w.SamePrograms start := by
  obtain ⟨_, _, _, _, _, hruns⟩ := h
  exact IsTrans.trans _ _ _ (b.keepsTo_obtain _ w) (hruns.keepsTo b.samePrograms_runTask)

/-- A task that a build starts is one of the configured ones. -/
theorem Reaches.mem_taskList (hb : ofConfig c = .ok b) (h : b.Reaches w t start) : t ∈ c.taskList := by
  obtain ⟨plan, done, rest, hplan, htasks, _⟩ := h
  have ht : t ∈ plan.tasks := by simp [htasks]
  have hgraph := ((TaskGraph.isHardOrder_of_resolve (plan_eq_ok hplan)).mem t).1 ht
  rw [← (of_ofConfig hb).2.1]
  exact hgraph.1

theorem module?_eq_some (hb : ofConfig c = .ok b) (hm : m ∈ c.modules) :
    c.module? m.name = some m := by
  unfold Config.module? Module.find?
  cases hfind : c.modules.find? (·.name == m.name) with
  | none =>
      have hno := List.find?_eq_none.1 hfind m hm
      simp at hno
  | some m' =>
      have hname : m'.name = m.name := by simpa using List.find?_some hfind
      rw [List.inj_on_of_nodup_map (nodup_names hb) (List.mem_of_find?_eq_some hfind) hm hname]

theorem runTask_toTask (hb : ofConfig c = .ok b) (hm : m ∈ c.modules) :
    b.runTask m.toTask = b.compileModule m := by
  unfold runTask
  obtain ⟨rfl, _⟩ := of_ofConfig hb
  simp only [m.action_toTask, module?_eq_some hb hm]

/-- A failure of a task of that name is a failure to compile a module. -/
theorem compile_failed (hb : ofConfig c = .ok b) {n : String}
    (h : b.build w = .error (.task (Module.compileTask n) e) w') :
    ∃ m ∈ c.modules, m.name = n ∧ ∃ start, b.Reaches w m.toTask start ∧
      b.compileModule m start = .error e w' := by
  obtain ⟨t, start, hreaches, hname, hfail⟩ := build_task_error h
  rcases List.mem_cons.1 (hreaches.mem_taskList hb) with rfl | ht
  · exact absurd hname.symm (Module.compileTask_ne_outlineTask n)
  · rcases List.mem_cons.1 ht with rfl | ht
    · exact absurd hname.symm (Module.compileTask_ne_toolsTask n)
    · obtain ⟨m, hm, rfl⟩ := List.mem_map.1 ht
      have hmn : m.name = n := Module.compileTask_injective (m.name_toTask.symm.trans hname)
      rw [runTask_toTask hb hm] at hfail
      exact ⟨m, hm, hmn, start, hreaches, hfail⟩

/-- The compiler was run for the module and succeeded. -/
def Compiled (b : Builder) (m : Module) (start : World) : Prop :=
  b.checkDeps m m.deps start = .ok () start ∧ ∃ output w',
    compile b.config.compilerCommand (requestFor b.config.layout m) b.config.compileTimeout start =
      .ok output w'

/-- **Before the compiler has succeeded, a task does no more than make directories.** -/
theorem compileModule_failed (hclean : start.FailsCleanly b.config.compilerCommand.program)
    (h : b.compileModule m start = .error e w') (hnot : ¬ b.Compiled m start) :
    start.files.Grows w'.files := by
  -- it failed at a dependency or in the compiler; files are moved only after both
  rcases bind_eq_error.1 h with hdeps | ⟨_, w₁, hdeps, hrest⟩
  · rw [← (b.keepsTo_eq_checkDeps m m.deps).of_error hdeps]
    exact FileSystem.Grows.refl _
  · obtain rfl := (b.keepsTo_eq_checkDeps m m.deps).of_ok hdeps
    rcases bind_eq_error.1 hrest with hcompile | ⟨_, w₂, hcompile, _⟩
    · exact grows_of_compile_error hclean (discard_eq_error.1 hcompile)
    · obtain ⟨output, hok⟩ := discard_eq_ok.1 hcompile
      exact absurd ⟨hdeps, output, w₂, hok⟩ hnot

/-! ### Trying again -/

/-- **A failed module is planned again exactly if it or one that pulls it in is stale.**  The plan on
what the build left behind can be made.  If the compiler did not succeed, only directories were made
since the task started: then every module whose artifact was a file older than a source, or does not
exist, is still stale, so the failed module is planned again if one of those pulls it in. -/
theorem retried_iff (hb : ofConfig c = .ok b) (hclean : w.FailsCleanly c.compilerCommand.program)
    {n : String} (hbuild : b.build w = .error (.task (Module.compileTask n) e) w') :
    ∃ m ∈ c.modules, m.name = n ∧ ∃ start plan, b.Reaches w m.toTask start ∧
      b.compileModule m start = .error e w' ∧ b.plan w'.files = .ok plan ∧
      (m.taskName ∈ plan.names ↔ ∃ s ∈ c.modules,
        (Staleness.check s c.layout w'.files).isStale = true ∧ c.PullsIn s m) ∧
      (¬ b.Compiled m start → ∀ s ∈ c.modules, c.PullsIn s m →
        (s.Outdated c.layout start.files ∨ w'.files.present (c.layout.output s.artifact) = false) →
        m.taskName ∈ plan.names) := by
  obtain ⟨m, hm, hname, start, hreaches, hfail⟩ := compile_failed hb hbuild
  obtain ⟨plan, hplan⟩ := plan_total hb w'.files
  have hiff := mem_plan_iff (m := m) hb hplan
  refine ⟨m, hm, hname, start, plan, hreaches, hfail, hplan, hiff, ?_⟩
  intro hnot s hs hpulls hstale
  refine hiff.2 ⟨s, hs, ?_, hpulls⟩
  rcases hstale with houtdated | hmissing
  · have hstart : start.FailsCleanly b.config.compilerCommand.program := by
      rw [(of_ofConfig hb).1]
      exact hclean.of_samePrograms hreaches.samePrograms
    exact houtdated.isStale (compileModule_failed hstart hfail hnot)
  · exact Module.isStale_of_missing hmissing

/-! ### A project of one module -/

/-- A module with one source; where its artifact is, and what is moved, is left open. -/
def solo (artifact : Path) (relocations : List Relocation) : Module where
  name := "a"
  sources := [⟨"a"⟩]
  entries := [⟨"a/module.x"⟩]
  outputDir := ⟨"lib"⟩
  artifact := artifact
  libraries := []
  deps := []
  requires := []
  relocations := relocations

def soloConfig (artifact : Path) (relocations : List Relocation) : Config :=
  { Config.standard with
    projectRoot := ⟨"/p"⟩
    outputRoot := ⟨"o"⟩
    resourcesDir := ⟨"res"⟩
    toolArtifact := ⟨"jt.jar"⟩
    compiler := some ⟨"xc", []⟩
    launchers := []
    modules := [solo artifact relocations] }

/-- The tasks do not hang on what is left open. -/
def soloGraph : TaskGraph := ⟨(soloConfig ⟨""⟩ []).taskList, by decide⟩

def soloBuilder (artifact : Path) (relocations : List Relocation) : Builder :=
  ⟨soloConfig artifact relocations, soloGraph⟩

/-- Whether the module of the project is stale. -/
def soloStale (artifact : Path) (relocations : List Relocation) (fs : FileSystem) : Bool :=
  (Staleness.check (solo artifact relocations) (soloConfig artifact relocations).layout fs).isStale

/-- The tasks of the project, run until one fails. -/
def soloRun (artifact : Path) (relocations : List Relocation) (w : World) :
    Report ActionError × World :=
  execute (soloBuilder artifact relocations).runTask soloGraph.tasks w

section Solo

variable (artifact : Path) (relocations : List Relocation)

theorem check_solo : (soloConfig artifact relocations).check = .ok () := by
  have hvalid : Module.validate (soloConfig artifact relocations).modules = .ok () := rfl
  unfold Config.check
  rw [checkOutputRoot_inside rfl rfl, hvalid]
  rfl

/-- Every selection of the tools and the module gives all tasks as they stand. -/
theorem resolve_solo {selected : List String} (hknown : ∀ n ∈ selected, n ∈ soloGraph.names)
    (htools : Module.toolsTask ∈ selected) (hmodule : Module.compileTask "a" ∈ selected) :
    soloGraph.resolve selected = .ok soloGraph.tasks := by
  have hneeds : soloGraph.Requires Module.toolsTask Module.outlineTask :=
    ⟨(soloConfig ⟨""⟩ []).toolsTask, by decide, rfl, NameSet.mem_insert.2 (Or.inl rfl)⟩
  have hwanted : ∀ t ∈ soloGraph.tasks, soloGraph.Wanted selected t.name := by
    intro t ht
    have hname : t.name ∈ [Module.outlineTask, Module.toolsTask, Module.compileTask "a"] :=
      List.mem_map_of_mem (f := Task.name) ht
    simp only [List.mem_cons, List.not_mem_nil, or_false] at hname
    rcases hname with h | h | h
    · exact h ▸ (TaskGraph.wanted_of_mem htools).tail hneeds
    · exact h ▸ TaskGraph.wanted_of_mem htools
    · exact h ▸ TaskGraph.wanted_of_mem hmodule
  have hclosed := TaskGraph.closed_of_requirements (g := soloGraph) hknown (by decide)
  rw [TaskGraph.resolve_eq_arrange (TaskGraph.planned_all hclosed hwanted)]
  rfl

theorem validate_solo : soloGraph.validate = .ok () := by
  rw [TaskGraph.validate, resolve_solo (fun _ h => h) (by decide) (by decide)]
  rfl

theorem ofConfig_solo : ofConfig (soloConfig artifact relocations) =
    .ok (soloBuilder artifact relocations) := by
  have hgraph : (soloConfig artifact relocations).taskGraph = .ok soloGraph := rfl
  exact ofConfig_eq_ok (checkOutputRoot_inside rfl rfl) hgraph validate_solo

variable {artifact relocations}

/-- A plan for a stale module has all tasks as they stand. -/
theorem plan_solo {fs : FileSystem} (hstale : soloStale artifact relocations fs = true) :
    ∃ plan, (soloBuilder artifact relocations).plan fs = .ok plan ∧ plan.tasks = soloGraph.tasks := by
  let verdict := Staleness.check (solo artifact relocations)
    (soloConfig artifact relocations).layout fs
  have hselection : selection [verdict] = [Module.toolsTask, Module.compileTask "a"] := by
    have hverdict : verdict.isStale = true := hstale
    simp only [selection, List.filter_cons, hverdict]
    rfl
  have hresolve : soloGraph.resolve (selection [verdict]) = .ok soloGraph.tasks := by
    rw [hselection]
    exact resolve_solo (by decide) (by decide) (by decide)
  obtain ⟨plan, hplan⟩ := plan_total (ofConfig_solo artifact relocations) fs
  exact ⟨plan, hplan, Except.ok.inj ((plan_eq_ok hplan).symm.trans hresolve)⟩

/-- A build of a stale module runs all tasks as they stand. -/
theorem build_solo {name : String} (hstale : soloStale artifact relocations w.files = true)
    (hfailed : (soloRun artifact relocations w).1.failed = some (name, e)) :
    (soloBuilder artifact relocations).build w =
      .error (.task name e) (soloRun artifact relocations w).2 := by
  obtain ⟨plan, hplan, htasks⟩ := plan_solo hstale
  have hobtain : (soloBuilder artifact relocations).obtain
      (soloBuilder artifact relocations).config.launchers w = (([], none), w) := rfl
  unfold Builder.build
  simp only [hobtain, hplan, htasks]
  unfold soloRun at hfailed ⊢
  rw [hfailed]

end Solo

/-- What the project consists of; its source is of time 1. -/
def soloEntries : List (Location × Node) :=
  [(["p"], .directory ⟨0⟩), (["p", "res"], .directory ⟨0⟩), (["p", "a"], .directory ⟨0⟩),
   (["p", "a", "module.x"], .file ⟨[], ⟨1⟩, false⟩), (["p", "jt.jar"], .file ⟨[], ⟨0⟩, false⟩)]

/-- The project with more files, at time 5. -/
def soloFiles (more : List (Location × Node)) : FileSystem :=
  (soloEntries ++ more).foldl (fun fs entry => fs.put entry.1 entry.2) ⟨[], ["p"], ⟨5⟩⟩

def soloWorld (files : FileSystem) (compiler : Program) : World :=
  ⟨files, .silent, [("xc", compiler)], []⟩

/-- A compiler that writes an artifact of time 7. -/
def writing : Program where
  run _ _ fs :=
    (.exited (some 0) [] [], match fs.writeFile ⟨"/p/o/lib/a.xtc"⟩ ⟨[], ⟨7⟩, false⟩ with
      | .ok fs => fs
      | .error _ => fs)

/-- A compiler that writes nothing and fails. -/
def refusing : Program where
  run _ _ fs := (.exited (some 3) [] [], fs)

theorem failsCleanly_writing (files : FileSystem) :
    (soloWorld files writing).FailsCleanly "xc" := by
  intro p hp
  obtain rfl := Option.some.inj hp
  intro _ _ _ hfail
  exact absurd rfl (hfail [] [])

theorem failsCleanly_refusing (files : FileSystem) :
    (soloWorld files refusing).FailsCleanly "xc" := by
  intro p hp
  obtain rfl := Option.some.inj hp
  intro _ _ fs _
  exact ⟨0, by simp [refusing, FileSystem.elapse]⟩

/-- An artifact of time 0, which is older than the source. -/
def oldArtifact : List (Location × Node) :=
  [(["p", "o"], .directory ⟨0⟩), (["p", "o", "lib"], .directory ⟨0⟩),
   (["p", "o", "lib", "a.xtc"], .file ⟨[], ⟨0⟩, false⟩)]

/-- A module whose compiler refuses it keeps its old artifact and is planned again. -/
theorem refused_retried : ∃ w' plan,
    (soloBuilder ⟨"lib/a.xtc"⟩ []).build (soloWorld (soloFiles oldArtifact) refusing) =
      .error (.task (Module.compileTask "a") (.compileFailed "a" (some 3) "")) w' ∧
    (soloBuilder ⟨"lib/a.xtc"⟩ []).plan w'.files = .ok plan ∧
    Module.compileTask "a" ∈ plan.names := by
  have hfailed : (soloRun ⟨"lib/a.xtc"⟩ [] (soloWorld (soloFiles oldArtifact) refusing)).1.failed =
      some (Module.compileTask "a", .compileFailed "a" (some 3) "") := by
    decide +kernel
  have hbuild := build_solo (by decide +kernel) hfailed
  obtain ⟨m, hm, _, _, plan, _, _, hplan, hiff, _⟩ :=
    retried_iff (ofConfig_solo _ _) (failsCleanly_refusing _) hbuild
  obtain rfl := List.mem_singleton.1 hm
  refine ⟨_, plan, hbuild, hplan, hiff.2 ⟨_, hm, ?_, Relation.ReflTransGen.refl⟩⟩
  decide +kernel

/-- A configuration that passes all checks, and a world in which its module fails although the compiler
does as it should, and is not planned again. -/
def Abandoned (c : Config) (b : Builder) (w : World) : Prop :=
  c.check = .ok () ∧ ofConfig c = .ok b ∧ w.FailsCleanly c.compilerCommand.program ∧
  ∃ e w' plan, b.build w = .error (.task (Module.compileTask "a") e) w' ∧
    b.plan w'.files = .ok plan ∧ Module.compileTask "a" ∉ plan.names

theorem abandoned_solo {artifact : Path} {relocations : List Relocation}
    (hclean : w.FailsCleanly "xc") (hstale : soloStale artifact relocations w.files = true)
    (hfailed : (soloRun artifact relocations w).1.failed = some (Module.compileTask "a", e))
    (hfresh : soloStale artifact relocations (soloRun artifact relocations w).2.files = false) :
    Abandoned (soloConfig artifact relocations) (soloBuilder artifact relocations) w := by
  have hb := ofConfig_solo artifact relocations
  obtain ⟨plan, hplan⟩ := plan_total hb (soloRun artifact relocations w).2.files
  refine ⟨check_solo _ _, hb, hclean, e, _, plan, build_solo hstale hfailed, hplan, fun hmem => ?_⟩
  obtain ⟨s, hs, hagain, _⟩ := (mem_plan_iff (m := solo artifact relocations) hb hplan).1 hmem
  obtain rfl := List.mem_singleton.1 hs
  exact Bool.false_ne_true (hfresh.symm.trans hagain)

/-- **Failures after which nothing is tried again**: a file to be moved was not written, while the
artifact was; a resource was copied over the artifact before the compiler refused the module; the
artifact is the directory that is made for the compiler. -/
theorem not_retried :
    Abandoned (soloConfig ⟨"lib/a.xtc"⟩ [⟨⟨"lib/n.xtc"⟩, ⟨"x"⟩⟩])
      (soloBuilder ⟨"lib/a.xtc"⟩ [⟨⟨"lib/n.xtc"⟩, ⟨"x"⟩⟩]) (soloWorld (soloFiles []) writing) ∧
    Abandoned (soloConfig ⟨"a.xtc"⟩ []) (soloBuilder ⟨"a.xtc"⟩ [])
      (soloWorld (soloFiles [(["p", "res", "a.xtc"], .file ⟨[], ⟨0⟩, false⟩)]) refusing) ∧
    Abandoned (soloConfig ⟨"lib"⟩ []) (soloBuilder ⟨"lib"⟩ [])
      (soloWorld (soloFiles []) refusing) := by
  refine ⟨abandoned_solo (e := .missingRelocation ⟨"/p/o/lib/n.xtc"⟩) (failsCleanly_writing _) ?_ ?_ ?_,
    abandoned_solo (e := .compileFailed "a" (some 3) "") (failsCleanly_refusing _) ?_ ?_ ?_,
    abandoned_solo (e := .compileFailed "a" (some 3) "") (failsCleanly_refusing _) ?_ ?_ ?_⟩
  all_goals decide +kernel

end Builder

end Rebuild
