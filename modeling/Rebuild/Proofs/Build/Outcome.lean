/-
How a build ends.

A build can fail in three ways that do not hang on each other: a launcher cannot be fetched, a task
fails, a launcher cannot be packaged.  What is reported is decided by where the build stops.  Launchers
come first but are only noted; tasks stop the build; a noted failure comes up when all tasks have run,
before anything is packaged.

Main definitions:

* `Builder.Tries` — launchers are tried one after another, **whatever became of those before**;
* `Builder.Ends` — the four ends of a build, each with all that led to it.

Main results:

* `Builder.Tries.obtain_all`, `Builder.Tries.obtain_first` — what is noted of the launchers;
* `Builder.build_eq_iff` — **a build ends in exactly one of these ways**, and nothing that a task has
  done is undone.
-/
import Rebuild.Proofs.Build.Invocations
import Rebuild.Proofs.Placement.Files

set_option relaxedAutoImplicit false
set_option autoImplicit false

namespace Rebuild

/-- Results are all fine, or one is the first that is not. -/
theorem all_ok_or_first_error {ε α : Type} (results : List (Except ε α)) :
    (∃ values : List α, results = values.map .ok) ∨
      ∃ (before : List α) (e : ε) (after : List (Except ε α)),
        results = before.map .ok ++ .error e :: after := by
  induction results with
  | nil => exact Or.inl ⟨[], rfl⟩
  | cons r rs ih =>
      cases r with
      | error e => exact Or.inr ⟨[], e, rs, rfl⟩
      | ok a =>
          rcases ih with ⟨values, rfl⟩ | ⟨before, e, after, rfl⟩
          · exact Or.inl ⟨a :: values, rfl⟩
          · exact Or.inr ⟨a :: before, e, after, rfl⟩

namespace Builder

variable {b : Builder} {c : Config} {w w' tried last : World} {plan : Plan} {ls : List Launcher}
  {results : List (Except FetchError FetchOutcome)} {outcomes : List FetchOutcome}

/-! ### Launchers -/

/-- The launchers are tried in order, each in the world that the one before it left, whatever became of
that one. -/
inductive Tries (b : Builder) :
    List Launcher → World → List (Except FetchError FetchOutcome) → World → Prop
  | done (w : World) : Tries b [] w [] w
  | step {l : Launcher} {ls : List Launcher} {results : List (Except FetchError FetchOutcome)}
      {w w' : World} (hrest : Tries b ls (b.fetch l w).2 results w') :
      Tries b (l :: ls) w ((b.fetch l w).1 :: results) w'

theorem obtain_cons_world (b : Builder) (l : Launcher) (ls : List Launcher) (w : World) :
    (b.obtain (l :: ls) w).2 = (b.obtain ls (b.fetch l w).2).2 := by
  rw [obtain]

theorem tries_obtain (b : Builder) (ls : List Launcher) (w : World) :
    ∃ results, b.Tries ls w results (b.obtain ls w).2 := by
  induction ls generalizing w with
  | nil => exact ⟨[], Tries.done w⟩
  | cons l ls ih =>
      obtain ⟨results, hrest⟩ := ih (b.fetch l w).2
      rw [obtain_cons_world]
      exact ⟨_, Tries.step hrest⟩

theorem Tries.obtain_world (h : b.Tries ls w results tried) : (b.obtain ls w).2 = tried := by
  induction h with
  | done w => rfl
  | step _ ih => rw [obtain_cons_world, ih]

/-- Each launcher has its result. -/
theorem Tries.length_eq (h : b.Tries ls w results tried) : results.length = ls.length := by
  induction h with
  | done w => rfl
  | step _ ih => rw [List.length_cons, List.length_cons, ih]

/-- The statuses of launchers that are all there, in their order. -/
def statuses (ls : List Launcher) (outcomes : List FetchOutcome) : List LauncherStatus :=
  List.zipWith (fun l outcome => ⟨l.file, outcome⟩) ls outcomes

theorem Tries.obtain_all (h : b.Tries ls w results tried) (hall : results = outcomes.map .ok) :
    (b.obtain ls w).1 = (statuses ls outcomes, none) := by
  induction h generalizing outcomes with
  | done w => rfl
  | @step l ls results w w' _ ih =>
      cases outcomes with
      | nil => cases hall
      | cons outcome outcomes =>
          obtain ⟨hfirst, hrest⟩ := List.cons.inj hall
          rw [obtain, hfirst]
          dsimp only
          rw [ih hrest]
          rfl

/-- **The first failure is kept, and the launchers after it are still tried.** -/
theorem Tries.obtain_first {e : FetchError} {after : List (Except FetchError FetchOutcome)}
    (h : b.Tries ls w results tried) (hfirst : results = outcomes.map .ok ++ .error e :: after) :
    (b.obtain ls w).1.2 = some e := by
  induction h generalizing outcomes with
  | done w => simp at hfirst
  | @step l ls results w w' _ ih =>
      cases outcomes with
      | nil =>
          obtain ⟨hfail, _⟩ := List.cons.inj hfirst
          rw [obtain, hfail]
          rfl
      | cons outcome outcomes =>
          obtain ⟨hok, hrest⟩ := List.cons.inj hfirst
          rw [obtain, hok]
          exact ih hrest

/-! ### The end of a build -/

/-- How a build may end, given what became of the launchers and the world they were left in. -/
inductive Ends (b : Builder) (plan : Plan) (results : List (Except FetchError FetchOutcome))
    (tried : World) : EStateM.Result BuildError World BuildReport → Prop
  /-- The first task that fails; what the tasks before it did is what it was run on. -/
  | task {done rest : List Task} {t : Task} {mid w' : World} {e : ActionError}
      (htasks : plan.tasks = done ++ t :: rest) (hdone : Runs b.runTask done tried mid)
      (hfail : b.runTask t mid = .error e w') : Ends b plan results tried (.error (.task t.name e) w')
  /-- All tasks succeed, and the first launcher that failed is told. -/
  | fetch {before : List FetchOutcome} {after : List (Except FetchError FetchOutcome)}
      {last : World} {e : FetchError} (hruns : Runs b.runTask plan.tasks tried last)
      (hfirst : results = before.map .ok ++ .error e :: after) :
      Ends b plan results tried (.error (.fetch e) last)
  | package {outcomes : List FetchOutcome} {last w' : World} {e : ActionError}
      (hruns : Runs b.runTask plan.tasks tried last) (hall : results = outcomes.map .ok)
      (hfail : b.package last = .error e w') : Ends b plan results tried (.error (.package e) w')
  /-- All tasks succeed, all launchers are there, and each of them is put into the output. -/
  | success {outcomes : List FetchOutcome} {last w' : World} {packaged : List Path}
      (hruns : Runs b.runTask plan.tasks tried last) (hall : results = outcomes.map .ok)
      (hpackage : b.package last = .ok packaged w')
      (hpaths : List.Forall₂ (fun l => IsCopy (b.config.layout.output ⟨"bin"⟩)
        (b.config.layout.source l.path)) b.config.launchers packaged) :
      Ends b plan results tried (.ok ⟨plan, ⟨plan.tasks.map fun t => (t.name, .succeeded), none⟩,
        statuses b.config.launchers outcomes, packaged⟩ w')

theorem forall₂_of_package {packaged : List Path} (h : b.package w = .ok packaged w') :
    List.Forall₂ (fun l => IsCopy (b.config.layout.output ⟨"bin"⟩) (b.config.layout.source l.path))
      b.config.launchers packaged :=
  List.forall₂_map_left_iff.1 (forall₂_of_copyFiles h)

/-- Tasks that all succeed are all reported so. -/
theorem execute_of_runs (h : Runs b.runTask plan.tasks tried last) :
    execute b.runTask plan.tasks tried =
      (⟨plan.tasks.map fun t => (t.name, .succeeded), none⟩, last) := by
  have hall := h.execute_append []
  rwa [List.append_nil, execute, List.append_nil] at hall

/-- **Every one of these ends is the end of the build.** -/
theorem Ends.build_eq {r : EStateM.Result BuildError World BuildReport}
    (htries : b.Tries b.config.launchers w results tried) (hplan : b.plan tried.files = .ok plan)
    (h : b.Ends plan results tried r) : b.build w = r := by
  obtain rfl := htries.obtain_world
  cases h with
  | task htasks hdone hfail => exact build_of_failure hplan htasks hdone hfail
  | fetch hruns hfirst =>
      unfold build
      simp only [hplan, execute_of_runs hruns, htries.obtain_first hfirst]
  | package hruns hall hfail =>
      unfold build
      simp only [hplan, execute_of_runs hruns, htries.obtain_all hall, hfail]
  | success hruns hall hpackage _ =>
      unfold build
      simp only [hplan, execute_of_runs hruns, htries.obtain_all hall, hpackage]

/-- Tasks, launchers and packaging leave one of the ends open. -/
theorem exists_ends (b : Builder) (plan : Plan) (results : List (Except FetchError FetchOutcome))
    (tried : World) : ∃ r, b.Ends plan results tried r := by
  rcases runs_or_stops b.runTask plan.tasks tried with
    ⟨last, hruns⟩ | ⟨done, t, rest, mid, e, w', htasks, hdone, hfail⟩
  · rcases all_ok_or_first_error results with ⟨outcomes, hall⟩ | ⟨before, e, after, hfirst⟩
    · cases hpackage : b.package last with
      | ok packaged w' => exact ⟨_, Ends.success hruns hall hpackage (forall₂_of_package hpackage)⟩
      | error e w' => exact ⟨_, Ends.package hruns hall hpackage⟩
    · exact ⟨_, Ends.fetch hruns hfirst⟩
  · exact ⟨_, Ends.task htasks hdone hfail⟩

/-- **How a build ends**, whatever files, compiler and network do.  All launchers are tried in order, and
a plan is made of what they leave.  If a planned task fails, the build fails with the first one that
does, and ends in what that task made of the work of those before it.  Otherwise, if a launcher failed,
the build fails with the first one that did, in the world that the last task left.  Otherwise it ends
as packaging does; in the report of a build that succeeds, all tasks succeeded, and there are a status
and a packaged path for each launcher, in order. -/
theorem build_eq_iff (h : ofConfig c = .ok b) (w : World) :
    ∃ results tried plan, b.Tries c.launchers w results tried ∧
      results.length = c.launchers.length ∧ b.plan tried.files = .ok plan ∧
      ∀ r, b.build w = r ↔ b.Ends plan results tried r := by
  obtain rfl := (of_ofConfig h).1
  obtain ⟨results, htries⟩ := b.tries_obtain b.config.launchers w
  obtain ⟨plan, hplan⟩ := plan_total h (b.obtain b.config.launchers w).2.files
  refine ⟨results, _, plan, htries, htries.length_eq, hplan,
    fun r => ⟨?_, fun hr => hr.build_eq htries hplan⟩⟩
  rintro rfl
  obtain ⟨r, hr⟩ := b.exists_ends plan results (b.obtain b.config.launchers w).2
  rwa [hr.build_eq htries hplan]

/-! ### A project with launchers -/

/-- The project of one module, with launchers that are asked for once. -/
def shipConfig (launchers : List Launcher) : Config :=
  { soloConfig ⟨"lib/a.xtc"⟩ [] with
    launchers := launchers
    launcherBaseUrl := "http://s"
    fetchRetry := ⟨1, Duration.ofMillis 1, by decide⟩ }

def shipBuilder (launchers : List Launcher) : Builder := ⟨shipConfig launchers, soloGraph⟩

theorem ofConfig_ship (launchers : List Launcher) :
    ofConfig (shipConfig launchers) = .ok (shipBuilder launchers) :=
  ofConfig_eq_ok (checkOutputRoot_inside rfl rfl) rfl validate_solo

/-- A plan for the project of one module does not hang on the launchers. -/
theorem plan_ship {launchers : List Launcher} {fs : FileSystem}
    (h : (shipBuilder launchers).plan fs = .ok plan) (hstale : soloStale ⟨"lib/a.xtc"⟩ [] fs = true) :
    plan.tasks = soloGraph.tasks := by
  obtain ⟨plan', hplan, htasks⟩ := plan_solo hstale
  rw [← htasks, Except.ok.inj (h.symm.trans hplan)]

/-- A launcher that is not there, before one that is. -/
def shipped : List Launcher := [⟨"l", ⟨"l"⟩, none⟩, ⟨"k", ⟨"jt.jar"⟩, none⟩]

theorem unanswered (later : List (Except FetchError FetchOutcome)) :
    ((shipBuilder shipped).fetch ⟨"l", ⟨"l"⟩, none⟩ (soloWorld (soloFiles []) writing)).1 :: later =
      [].map .ok ++
        .error (.http "http://s/l" 1 "error sending request for url (http://s/l)") :: later :=
  congrArg (· :: later) (by decide +kernel)

/-- Nobody answers, so the first launcher is missed when the module has been compiled; nothing is
packaged. -/
theorem unanswered_build : ∃ w', (shipBuilder shipped).build (soloWorld (soloFiles []) writing) =
      .error (.fetch (.http "http://s/l" 1 "error sending request for url (http://s/l)")) w' ∧
    w'.files.isFile ⟨"/p/o/lib/a.xtc"⟩ = true ∧ w'.files.present ⟨"/p/o/bin"⟩ = false := by
  obtain ⟨results, tried, plan, htries, _, hplan, hiff⟩ :=
    build_eq_iff (ofConfig_ship shipped) (soloWorld (soloFiles []) writing)
  -- two launchers are tried
  cases htries with
  | step hrest =>
      cases hrest with
      | step hnone =>
          cases hnone with
          | done tried =>
              have htasks := plan_ship hplan (by decide +kernel)
              refine ⟨_, (hiff _).2 (Ends.fetch (runs_of_execute ?_) (unanswered _)), ?_⟩
              · rw [htasks]
                decide +kernel
              · rw [htasks]
                decide +kernel

end Builder

end Rebuild
