/-
What a plan says of a build.

A build makes its plan only when the launchers were fetched.  Fetching makes files and directories, but
only above the places of the launchers, and verdicts look only at and below the sources and at the
artifacts.  If no launcher lies there, the plan of the build is the plan that was made before it.

Main definitions:

* `Config.launcherPlaces` — where the launchers are kept;
* `Config.LaunchersApart` — **no launcher lies in a root of sources, or in an artifact**.

Main results:

* `Builder.changesAbove_obtain` — fetching changes nothing but above the launchers;
* `Builder.plan_obtain` — **the plan is the same before and after**;
* `Builder.build_as_planned` — a build that succeeds was planned so, and one that fails with a task fails
  with a planned one.
-/
import Rebuild.Proofs.Build.Outcome
import Rebuild.Proofs.Build.SecondBuild
import Rebuild.Proofs.FileSystem.ChangesAbove

set_option relaxedAutoImplicit false
set_option autoImplicit false

namespace Rebuild

open World (OverFiles overFiles_onFiles)

namespace Config

/-- Where the launchers are kept, seen from a location. -/
def launcherPlaces (c : Config) (s : Location) : List Location :=
  c.launchers.map fun l => (c.layout.source l.path).place s

theorem place_mem_launcherPlaces {c : Config} {l : Launcher} (hl : l ∈ c.launchers) (s : Location) :
    (c.layout.source l.path).place s ∈ c.launcherPlaces s :=
  List.mem_map_of_mem hl

/-- No launcher is kept at or below a root of sources, or at or below the place of an artifact. -/
structure LaunchersApart (c : Config) (s : Location) : Prop where
  sources : ∀ d ∈ c.launcherPlaces s, ∀ m ∈ c.modules, ∀ p ∈ m.sources,
    ¬ (c.layout.source p).place s <+: d
  artifacts : ∀ d ∈ c.launcherPlaces s, ∀ m ∈ c.modules, ¬ (c.layout.output m.artifact).place s <+: d

end Config

instance {s : Location} {ds : List Location} :
    World.Patient (OverFiles (FileSystem.WorksAbove s ds)) where
  wait := fun w d => FileSystem.worksAbove_elapse w.files d.toNanos
  network := fun w _ => refl (r := FileSystem.WorksAbove s ds) w.files

/-- **Verdicts are the same** if all changes are above the launchers. -/
theorem Staleness.check_eq {c : Config} {m : Module} {fs fs' : FileSystem} (hm : m ∈ c.modules)
    (hplain : fs.Plain) (hapart : c.LaunchersApart fs.workDir)
    (h : fs.ChangesAbove (c.launcherPlaces fs.workDir) fs') :
    Staleness.check m c.layout fs' = Staleness.check m c.layout fs := by
  have hsources : fs'.newestUnderAll? (m.sources.map c.layout.source) =
      fs.newestUnderAll? (m.sources.map c.layout.source) := by
    refine h.newestUnderAll?_eq hplain fun p hp => ?_
    obtain ⟨q, hq, rfl⟩ := List.mem_map.1 hp
    exact ⟨c.layout.direct_source q, fun d hd => hapart.sources d hd m hm q hq⟩
  have hartifact : fs'.timeOf? (c.layout.output m.artifact) = fs.timeOf? (c.layout.output m.artifact) :=
    h.timeOf?_eq hplain (c.layout.direct_output m.artifact) fun d hd => hapart.artifacts d hd m hm
  unfold Staleness.check
  rw [hsources, hartifact]

namespace Builder

variable {b : Builder} {c : Config} {w w' : World}

/-- **Fetching launchers changes nothing but above their places.** -/
theorem changesAbove_obtain (b : Builder) (hplain : w.files.Plain) :
    w.files.ChangesAbove (b.config.launcherPlaces w.files.workDir)
      (b.obtain b.config.launchers w).2.files := by
  have hobtain := b.keepsTo_obtain_of_install
    (r := OverFiles (FileSystem.WorksAbove w.files.workDir (b.config.launcherPlaces w.files.workDir)))
    (fun l hl bytes => overFiles_onFiles _ (FileSystem.keepsTo_installProgram
      (b.config.layout.direct_source l.path) (Config.place_mem_launcherPlaces hl _) bytes)) w
  exact hobtain hplain rfl

/-- **The plan is the same before and after launchers were fetched.** -/
theorem plan_obtain (hplain : w.files.Plain) (hapart : b.config.LaunchersApart w.files.workDir) :
    b.plan (b.obtain b.config.launchers w).2.files = b.plan w.files := by
  have hverdicts : b.config.modules.map
      (Staleness.check · b.config.layout (b.obtain b.config.launchers w).2.files) =
        b.config.modules.map (Staleness.check · b.config.layout w.files) :=
    List.map_congr_left fun m hm => Staleness.check_eq hm hplain hapart (b.changesAbove_obtain hplain)
  unfold plan
  dsimp only
  rw [hverdicts]

/-- **A plan says what a build will do**, if there are no links and no launcher lies in sources or in an
artifact.  A build that succeeds reports the plan that is made of the files it starts from; a task that
a build fails with is a task of that plan. -/
theorem build_as_planned (h : ofConfig c = .ok b) (hplain : w.files.Plain)
    (hapart : c.LaunchersApart w.files.workDir) :
    (∀ report w', b.build w = .ok report w' → b.plan w.files = .ok report.plan) ∧
    ∀ name e w', b.build w = .error (.task name e) w' →
      ∃ plan, b.plan w.files = .ok plan ∧ name ∈ plan.names := by
  obtain rfl := (of_ofConfig h).1
  have hplan := plan_obtain hplain hapart
  constructor
  · intro report w' hbuild
    obtain ⟨_, hmade, _⟩ := build_eq_ok hbuild
    exact hplan ▸ hmade
  · intro name e w' hbuild
    obtain ⟨t, _, ⟨plan, done, rest, hmade, htasks, _⟩, rfl, _⟩ := build_task_error hbuild
    refine ⟨plan, hplan ▸ hmade, List.mem_map_of_mem ?_⟩
    rw [htasks]
    exact List.mem_append_right done (List.mem_cons_self ..)

/-! ### A launcher that is fetched -/

/-- The tasks of the project of one module, run after its launchers were tried. -/
def shipRun (launchers : List Launcher) (w : World) : Report ActionError × World :=
  execute (shipBuilder launchers).runTask soloGraph.tasks ((shipBuilder launchers).obtain launchers w).2

/-- A build of the project succeeds if launchers, tasks and packaging do. -/
theorem build_ship_ok {launchers : List Launcher} {paths : List Path} {test : World → Bool}
    (hfetched : ((shipBuilder launchers).obtain launchers w).1.2 = none)
    (hstale : soloStale ⟨"lib/a.xtc"⟩ [] ((shipBuilder launchers).obtain launchers w).2.files = true)
    (hfailed : (shipRun launchers w).1.failed = none)
    (hpackage : endsWith paths test
      ((shipBuilder launchers).package (shipRun launchers w).2) = true) :
    ∃ report w', (shipBuilder launchers).build w = .ok report w' ∧ report.packaged = paths ∧
      test w' = true := by
  obtain ⟨plan, hplan, htasks⟩ := plan_solo hstale
  have hplan : (shipBuilder launchers).plan ((shipBuilder launchers).obtain launchers w).2.files =
      .ok plan := hplan
  have hconfig : (shipBuilder launchers).config.launchers = launchers := rfl
  obtain ⟨w', hdone, htest⟩ := exists_of_endsWith hpackage
  unfold shipRun at hfailed hdone
  unfold build
  simp only [hconfig, hplan, htasks, hfailed, hfetched, hdone]
  exact ⟨_, w', rfl, rfl, htest⟩

/-- A launcher in a directory of its own. -/
def housed : List Launcher := [⟨"l", ⟨"bin/l"⟩, none⟩]

/-- The project, where everything that is asked for is answered. -/
def answeredWorld : World :=
  { soloWorld (soloFiles []) writing with network := ⟨fun _ _ => .status 200 [], []⟩ }

/-- A launcher is fetched into a new directory, and the plan of the build is the one made before. -/
theorem answered_build : ∃ report w', (shipBuilder housed).build answeredWorld = .ok report w' ∧
    (shipBuilder housed).plan answeredWorld.files = .ok report.plan ∧
    answeredWorld.files.present ⟨"/p/bin"⟩ = false ∧
    ((shipBuilder housed).obtain housed answeredWorld).2.files.isFile ⟨"/p/bin/l"⟩ = true := by
  obtain ⟨report, w', hbuild, _⟩ : ∃ report w',
      (shipBuilder housed).build answeredWorld = .ok report w' ∧ report.packaged = [⟨"/p/o/bin/l"⟩] ∧
        true = true :=
    build_ship_ok (by decide +kernel) (by decide +kernel) (by decide +kernel) (by decide +kernel)
  have hplain : answeredWorld.files.Plain :=
    FileSystem.Plain.of_nodes (by decide +kernel) (by decide +kernel)
  have hapart : (shipConfig housed).LaunchersApart answeredWorld.files.workDir :=
    ⟨by decide +kernel, by decide +kernel⟩
  exact ⟨report, w', hbuild, (build_as_planned (ofConfig_ship housed) hplain hapart).1 report w' hbuild,
    by decide +kernel, by decide +kernel⟩

end Builder

end Rebuild
