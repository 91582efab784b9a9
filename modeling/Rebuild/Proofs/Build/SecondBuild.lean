/-
A second build compiles nothing.

Whatever a build does, it does below the root of the output, and an artifact that is there is at most
written anew.  So the sources stay as old as they were, a module that was up to date stays so, and one
that was stale is compiled on the way: when the build has succeeded, no artifact is older than a source.

The compiler may write what it likes in its output directory, but no links.  A file that is moved through
a link may end up among the sources, and be newer than the artifact.

Main definitions:

* `FileSystem.Confined` — a run of a program wrote below one directory alone, and deleted nothing;
* `FileSystem.WrittenBelow` — and **left no link**;
* `Program.Compiles` — **what is asked of a compiler**;
* `Config.Separated` — sources and output are apart, and no artifact is moved;
* `Config.workplace` — the root of the output, with the artifacts to be kept.

Main results:

* `Builder.leaves_compileModule` — **compiling is work below the output**, and leaves an artifact that is
  no older than the start of the compiler;
* `Builder.leaves_runTask`, `Builder.leaves_runs` — so is every task, and a run of tasks;
* `Builder.gains_obtain` — fetching launchers makes no source newer than now;
* `Builder.second_build_idle` — after a build everything is up to date;
* `Builder.linking_compiled_again` — it need not be if the compiler leaves a link.
-/
import Rebuild.Proofs.Build.Invocations
import Rebuild.Proofs.FileSystem.Absolute
import Rebuild.Proofs.FileSystem.Writing
import Rebuild.Proofs.Placement

set_option relaxedAutoImplicit false
set_option autoImplicit false

namespace Rebuild

open World (OverFiles overFiles_onFiles)

/-! ### Compilers -/

/-- Nothing was deleted; what is new or different lies below the directory and was written at a time that
the clock had not passed at first. -/
structure FileSystem.Confined (dir : Location) (fs fs' : FileSystem) : Prop where
  workDir : fs'.workDir = fs.workDir
  clock : fs.clock ≤ fs'.clock
  stays : ∀ {loc n}, fs.node? loc = some n → ∃ n', fs'.node? loc = some n'
  written : ∀ {loc n}, fs'.node? loc = some n →
    fs.node? loc = some n ∨ dir <+: loc ∧ ∀ t, n.time? = some t → fs.clock ≤ t

/-- And there is no link. -/
structure FileSystem.WrittenBelow (dir : Location) (fs fs' : FileSystem) : Prop
    extends fs.Confined dir fs' where
  plain : fs'.Plain

/-- Only a link has no time. -/
theorem Node.exists_time {n : Node} (h : n.isLink = false) : ∃ t, n.time? = some t := by
  cases n with
  | file data => exact ⟨data.time, rfl⟩
  | directory t => exact ⟨t, rfl⟩
  | link target => cases h

section

variable {dir : Location} {fs fs' fs'' : FileSystem}

/-- A run that is confined may be followed by another one. -/
theorem FileSystem.Confined.trans (h : fs.Confined dir fs') (h' : fs'.Confined dir fs'') :
    fs.Confined dir fs'' where
  workDir := h'.workDir.trans h.workDir
  clock := Time.le_trans h.clock h'.clock
  stays := fun hn => by
    obtain ⟨_, hn'⟩ := h.stays hn
    exact h'.stays hn'
  written := fun {loc n} hn => by
    rcases h'.written hn with hmid | ⟨hbelow, hlater⟩
    · exact h.written hmid
    · exact Or.inr ⟨hbelow, fun t ht => Time.le_trans h.clock (hlater t ht)⟩

theorem FileSystem.confined_elapse (dir : Location) (fs : FileSystem) (nanos : ℕ) :
    fs.Confined dir (fs.elapse nanos) where
  workDir := rfl
  clock := Int.le_add_of_nonneg_right (Int.natCast_nonneg nanos)
  stays := fun hn => ⟨_, hn⟩
  written := Or.inl

/-- One entry that is made now is confined to the directory it is in. -/
theorem FileSystem.confined_of_sets {loc : Location} {node : Node}
    (hs : fs.Sets loc (some node) fs') (htime : ∀ t, node.time? = some t → t = fs.clock) :
    fs.Confined loc.dropLast fs' where
  workDir := hs.workDir
  clock := hs.clock ▸ Time.le_refl _
  stays := fun {l n} hn => by
    by_cases heq : l = loc
    · exact ⟨_, heq ▸ hs.here⟩
    · rcases hs.elsewhere heq with hsame | ⟨_, _, hdated⟩
      · exact ⟨n, hsame.trans hn⟩
      · exact ⟨_, hdated⟩
  written := fun {l n} hn => by
    by_cases heq : l = loc
    · subst heq
      obtain rfl := Option.some.inj (hs.here.symm.trans hn)
      exact Or.inr ⟨List.dropLast_prefix l, fun t ht => htime t ht ▸ Time.le_refl _⟩
    · rcases hs.elsewhere heq with hsame | ⟨rfl, _, hdated⟩
      · exact Or.inl (hsame.symm.trans hn)
      · obtain rfl := Option.some.inj (hdated.symm.trans hn)
        exact Or.inr ⟨List.prefix_refl _, fun t ht => Option.some.inj ht ▸ Time.le_refl _⟩

/-- What was written in time is in time, if it is written anew at most. -/
theorem FileSystem.Confined.writtenSince {since : Time} {p : Path} (h : fs.Confined dir fs')
    (hretains : fs.Retains fs') (hsince : since ≤ fs.clock) (hwritten : fs.WrittenSince since p) :
    fs'.WrittenSince since p := by
  obtain ⟨t, ht, hle⟩ := hwritten
  obtain ⟨n, hstat, htime⟩ := Option.bind_eq_some_iff.1 ht
  obtain ⟨loc, hloc, hn⟩ := lookup_eq_ok_iff.1 (stat?_eq_some_iff.1 hstat)
  obtain ⟨n', hn', halike⟩ := hretains.entry hn
  have hstat' : fs'.stat? p = some n' :=
    stat?_eq_some_iff.2 (lookup_eq_ok_iff.2 ⟨loc, hretains.locate (by simp) hloc, hn'⟩)
  have hlink : n'.isLink = false := by
    rw [halike.isLink_eq]
    cases n with
    | file data => rfl
    | directory t => rfl
    | link target => cases htime
  obtain ⟨t', ht'⟩ := Node.exists_time hlink
  refine ⟨t', Option.bind_eq_some_iff.2 ⟨n', hstat', ht'⟩, ?_⟩
  rcases h.written hn' with hsame | ⟨_, hlater⟩
  · obtain rfl := Option.some.inj (hn.symm.trans hsame)
    obtain rfl := Option.some.inj (htime.symm.trans ht')
    exact hle
  · exact Time.le_trans hsince (hlater t' ht')

end

/-- **What is asked of a compiler**: if it succeeds for the module, it has written below the output
directory alone, and what is at the place of the artifact was written by then. -/
def Program.Compiles (p : Program) (c : Config) (m : Module) : Prop :=
  ∀ fs fs' out err, fs.Plain →
    p.run (c.compilerCommand.arguments (Builder.requestFor c.layout m)) c.compileTimeout fs =
      (.exited (some 0) out err, fs') →
    fs.WrittenBelow ((c.layout.output m.outputDir).place fs.workDir) fs' ∧
      fs'.WrittenSince fs.clock (c.layout.output m.artifact)

/-- The same of a compiler that may leave links. -/
def Program.CompilesOrLinks (p : Program) (c : Config) (m : Module) : Prop :=
  ∀ fs fs' out err, fs.Plain →
    p.run (c.compilerCommand.arguments (Builder.requestFor c.layout m)) c.compileTimeout fs =
      (.exited (some 0) out err, fs') →
    fs.Confined ((c.layout.output m.outputDir).place fs.workDir) fs' ∧
      fs'.WrittenSince fs.clock (c.layout.output m.artifact)

/-- The compiler does what is asked of it, for every module. -/
def World.Compiles (w : World) (c : Config) : Prop :=
  ∀ p, w.programs.lookup c.compilerCommand.program = some p → ∀ m ∈ c.modules, p.Compiles c m

theorem World.Compiles.of_samePrograms {w w' : World} {c : Config} (h : w.Compiles c)
    (hsame : w.SamePrograms w') : w'.Compiles c := by
  intro p hp
  exact h p (hsame ▸ hp)

theorem judgeEnding_eq_ok {module output : String} {limit : Option Duration} {ending : Ending}
    (h : judgeEnding module limit ending = .ok output) :
    ∃ out err, ending = .exited (some 0) out err := by
  unfold judgeEnding at h
  split at h
  · cases h
  · rename_i code out err
    dsimp only at h
    split at h
    · rename_i hcode
      exact ⟨out, err, by rw [hcode]⟩
    · cases h

/-- What is written below the location of a workplace is work there. -/
theorem Workplace.leaves_of_writtenBelow {k : Workplace} {fs fs' : FileSystem} {dir : Location}
    (hready : k.Ready fs) (hdir : k.out <+: dir) (h : fs.WrittenBelow dir fs') : k.Leaves fs fs' where
  ready := ⟨h.plain, h.workDir.trans hready.workDir⟩
  clock := h.clock
  outside := fun {loc data} hout => by
    have hold : ∀ {n}, fs'.node? loc = some n → fs.node? loc = some n := fun hn =>
      (h.written hn).resolve_right fun hbelow => hout (hdir.trans hbelow.1)
    refine ⟨hold, fun hn => ?_⟩
    obtain ⟨n', hn'⟩ := h.stays hn
    rw [hn', ← hold hn', hn]
  kept := fun {loc n} _ hn => by
    obtain ⟨n', hn'⟩ := h.stays hn
    rcases h.written hn' with hsame | ⟨_, hlater⟩
    · obtain rfl := Option.some.inj (hn.symm.trans hsame)
      exact ⟨_, hn', Or.inl rfl⟩
    · obtain ⟨t, ht⟩ := Node.exists_time (h.plain.noLink hn')
      exact ⟨n', hn', Or.inr ⟨t, ht, hlater t ht⟩⟩

/-! ### Projects -/

namespace Config

/-- Sources and output are apart, seen from a location: what is produced stays below the output, no
root of sources contains the output or lies in it, and no file is moved from or to an artifact. -/
structure Separated (c : Config) (s : Location) : Prop where
  inner : ∀ m ∈ c.modules, m.outputDir.Inner ∧ m.artifact.Inner ∧
    ∀ r ∈ m.relocations, r.source.Inner ∧ r.target.Inner
  apart : ∀ m ∈ c.modules, ∀ p ∈ m.sources,
    ¬ (c.layout.source p).place s <+: c.layout.outputRoot.place s ∧
    ¬ c.layout.outputRoot.place s <+: (c.layout.source p).place s
  unmoved : ∀ m ∈ c.modules, ∀ r ∈ m.relocations, ∀ a ∈ c.modules,
    (c.layout.output r.source).place s ≠ (c.layout.output a.artifact).place s ∧
    (c.layout.output r.target).place s ≠ (c.layout.output a.artifact).place s

/-- The root of the output, with the artifacts to be kept. -/
def workplace (c : Config) (s : Location) : Workplace where
  workDir := s
  out := c.layout.outputRoot.place s
  kept := fun loc => ∃ m ∈ c.modules, (c.layout.output m.artifact).place s = loc

theorem workplace_out (c : Config) (s : Location) :
    (c.workplace s).out = c.layout.outputRoot.place s := by
  simp only [workplace]

/-- What stays inside is placed below the root of the output. -/
theorem isPrefix_output (c : Config) {p : Path} (h : p.Inner) (s : Location) :
    (c.workplace s).out <+: (c.layout.output p).place (c.workplace s).workDir := by
  rw [workplace_out]
  exact c.layout.isPrefix_place_output h s

/-- When the sources of a module were last changed, as a verdict sees it. -/
def sourceTime (c : Config) (fs : FileSystem) (m : Module) : Time :=
  (fs.newestUnderAll? (m.sources.map c.layout.source)).getD .epoch

end Config

/-- A module is up to date exactly if no source is newer than the artifact. -/
theorem Staleness.upToDate_iff {c : Config} {m : Module} {fs : FileSystem} :
    (Staleness.check m c.layout fs).reason = .upToDate ↔
      fs.WrittenSince (c.sourceTime fs m) (c.layout.output m.artifact) := by
  unfold Staleness.check judge FileSystem.WrittenSince Config.sourceTime
  dsimp only
  cases fs.timeOf? (c.layout.output m.artifact) with
  | none => simp
  | some t =>
      dsimp only
      split
      · rename_i hlt
        have hnot : ¬ (fs.newestUnderAll? (m.sources.map c.layout.source)).getD .epoch ≤ t :=
          Int.not_le.2 hlt
        simpa using hnot
      · rename_i hnot
        simpa using Time.not_lt.1 hnot

namespace Builder

variable {b : Builder} {c : Config} {m : Module} {t : Task} {tasks : List Task} {s : Location}
  {w w' x y : World} {plan : Plan}

/-- Work below the output leaves no artifact older. -/
theorem writtenSince_artifact {since : Time} (hm : m ∈ c.modules)
    (hready : (c.workplace s).Ready x.files) (h : (c.workplace s).Leaves x.files y.files)
    (hsince : since ≤ x.files.clock)
    (hwritten : x.files.WrittenSince since (c.layout.output m.artifact)) :
    y.files.WrittenSince since (c.layout.output m.artifact) :=
  h.writtenSince hready (c.layout.direct_output m.artifact) ⟨m, hm, rfl⟩ hsince hwritten

/-- Work below the output leaves the sources as old as they were. -/
theorem sourceTime_of_leaves (hsep : c.Separated s) (hm : m ∈ c.modules)
    (hready : (c.workplace s).Ready x.files) (h : (c.workplace s).Leaves x.files y.files) :
    c.sourceTime y.files m = c.sourceTime x.files m := by
  have hnewest := h.newestUnderAll?_eq hready fun p (hp : p ∈ m.sources.map c.layout.source) => by
    obtain ⟨q, hq, rfl⟩ := List.mem_map.1 hp
    rw [c.workplace_out]
    exact ⟨c.layout.direct_source q, hsep.apart m hm q hq⟩
  rw [Config.sourceTime, Config.sourceTime, hnewest]

/-! ### Tasks -/

/-- The compiler works below the output, and leaves a new artifact. -/
theorem leaves_invoke (hb : b.config = c) (hsep : c.Separated s) (hm : m ∈ c.modules)
    (hcompiles : x.Compiles c) (hready : (c.workplace s).Ready x.files)
    (h : b.invoke m x = .ok () y) : (c.workplace s).Leaves x.files y.files ∧
      y.files.WrittenSince x.files.clock (c.layout.output m.artifact) := by
  subst hb
  obtain ⟨ending, mid, hstart, hjudge⟩ := bind_eq_ok.1 h
  cases hending : judgeEnding m.name b.config.compileTimeout ending with
  | error e =>
      rw [hending] at hjudge
      cases hjudge
  | ok output =>
      rw [hending] at hjudge
      cases hjudge
      obtain ⟨out, err, rfl⟩ := judgeEnding_eq_ok hending
      obtain ⟨p, hp, hrun⟩ := start_eq_ok hstart
      obtain ⟨hbelow, hwritten⟩ := hcompiles p hp m hm _ _ out err hready.plain hrun
      have hdir := b.config.isPrefix_output (hsep.inner m hm).1 s
      rw [← hready.workDir] at hdir
      exact ⟨Workplace.leaves_of_writtenBelow hready hdir hbelow, hwritten⟩

theorem worksOn_relocateAll (hsep : c.Separated s) (hm : m ∈ c.modules) {moves : List Relocation}
    (hmoves : ∀ r ∈ moves, r ∈ m.relocations) (h : relocateAll c.layout moves x = .ok () y) :
    (c.workplace s).WorksOn x.files y.files := by
  induction moves generalizing x with
  | nil =>
      cases h
      exact Workplace.Leaves.refl
  | cons r rest ih =>
      obtain ⟨_, mid, hfirst, hrest⟩ := bind_eq_ok.1 h
      have hr := hmoves r (List.mem_cons_self ..)
      obtain ⟨hsource, htarget⟩ := (hsep.inner m hm).2.2 r hr
      have hunmoved := hsep.unmoved m hm r hr
      have hskept : ¬ (c.workplace s).kept ((c.layout.output r.source).place s) := by
        rintro ⟨a, ha, heq⟩
        exact (hunmoved a ha).1 heq.symm
      have htkept : ¬ (c.workplace s).kept ((c.layout.output r.target).place s) := by
        rintro ⟨a, ha, heq⟩
        exact (hunmoved a ha).2 heq.symm
      intro hready
      have hmoved := Workplace.worksOn_relocate (c.isPrefix_output hsource s)
        (c.isPrefix_output htarget s) hskept htkept hfirst hready
      exact hmoved.trans (ih (fun r hr => hmoves r (List.mem_cons_of_mem _ hr)) hrest hmoved.ready)

/-- **Compiling is work below the output**, and leaves an artifact that is no older than its start. -/
theorem leaves_compileModule (hb : b.config = c) (hsep : c.Separated s) (hm : m ∈ c.modules)
    (hcompiles : x.Compiles c) (hready : (c.workplace s).Ready x.files)
    (h : b.compileModule m x = .ok () y) : (c.workplace s).Leaves x.files y.files ∧
      y.files.WrittenSince x.files.clock (c.layout.output m.artifact) := by
  rw [compileModule_eq] at h
  obtain ⟨_, before, hprepare, hfinish⟩ := bind_eq_ok.1 h
  obtain ⟨_, after, hinvoke, hmove⟩ := bind_eq_ok.1 hfinish
  -- directories are made, the compiler runs, and files are moved
  have hprepared : KeepsTo (OverFiles (c.workplace s).WorksOn) (b.prepare m) :=
    (b.keepsTo_checkDeps m m.deps).bind fun _ =>
      overFiles_onFiles _ ((c.workplace s).keepsTo_makeDirectories _)
  have hfirst : (c.workplace s).Leaves x.files before.files := hprepared.of_ok hprepare hready
  have hsame : x.SamePrograms before := by
    have hkeeps : KeepsTo World.SamePrograms (b.prepare m) :=
      (b.keepsTo_checkDeps m m.deps).bind fun _ => World.keepsTo_onFiles _ _
    exact hkeeps.of_ok hprepare
  obtain ⟨hsecond, hwritten⟩ :=
    leaves_invoke hb hsep hm (hcompiles.of_samePrograms hsame) hfirst.ready hinvoke
  have hthird : (c.workplace s).Leaves after.files y.files :=
    worksOn_relocateAll hsep hm (fun r hr => hr) (hb ▸ hmove) hsecond.ready
  exact ⟨(hfirst.trans hsecond).trans hthird, writtenSince_artifact hm hsecond.ready hthird
    (hfirst.trans hsecond).clock (hwritten.mono hfirst.clock)⟩

/-- **Every task works below the output.** -/
theorem leaves_runTask (hb : ofConfig c = .ok b) (hsep : c.Separated s) (ht : t ∈ c.taskList)
    (hcompiles : x.Compiles c) (hready : (c.workplace s).Ready x.files)
    (h : b.runTask t x = .ok () y) : (c.workplace s).Leaves x.files y.files := by
  have hconfig := (of_ofConfig hb).1
  rcases List.mem_cons.1 ht with rfl | ht
  · have hcopy : KeepsTo (OverFiles (b.config.workplace s).WorksOn) (b.runTask c.outlineTask) :=
      (Workplace.keepsTo_copyTree _ (b.config.isPrefix_output (by decide) s)).discard
    rw [hconfig] at hcopy
    exact hcopy.of_ok h hready
  · rcases List.mem_cons.1 ht with rfl | ht
    · have hcopy : KeepsTo (OverFiles (b.config.workplace s).WorksOn) (b.runTask c.toolsTask) :=
        (Workplace.keepsTo_copyFiles _ (b.config.isPrefix_output (by decide) s)).discard
      rw [hconfig] at hcopy
      exact hcopy.of_ok h hready
    · obtain ⟨m, hm, rfl⟩ := List.mem_map.1 ht
      rw [runTask_toTask hb hm] at h
      exact (leaves_compileModule hconfig hsep hm hcompiles hready h).1

/-- **A run of tasks works below the output.** -/
theorem leaves_runs (hb : ofConfig c = .ok b) (hsep : c.Separated s)
    (htasks : ∀ t ∈ tasks, t ∈ c.taskList) (hcompiles : x.Compiles c)
    (hready : (c.workplace s).Ready x.files) (h : Runs b.runTask tasks x y) :
    (c.workplace s).Leaves x.files y.files := by
  induction h with
  | done x => exact Workplace.Leaves.refl hready
  | step ht _ ih =>
      have hfirst := leaves_runTask hb hsep (htasks _ (List.mem_cons_self ..)) hcompiles hready ht
      have hsame := (b.samePrograms_runTask _).of_ok ht
      exact hfirst.trans (ih (fun t ht => htasks t (List.mem_cons_of_mem _ ht))
        (hcompiles.of_samePrograms hsame) hfirst.ready)

/-! ### Before and after the tasks -/

instance : World.Patient (OverFiles FileSystem.OnlyGains) where
  wait := fun w d => FileSystem.onlyGains_elapse w.files d.toNanos
  network := fun w _ => refl (r := FileSystem.OnlyGains) w.files

theorem onlyGains_installProgram (dest : Path) (bytes : Bytes) :
    KeepsTo FileSystem.OnlyGains (installProgram dest bytes) := by
  refine (Disk.keepsTo_makeFirst fun _ => FileSystem.onlyGains_makeDirectory).bind fun _ => ?_
  exact Disk.keepsTo_change (r := FileSystem.OnlyGains) fun hok => FileSystem.onlyGains_install rfl hok

/-- **Fetching launchers puts files in place and does nothing else.** -/
theorem gains_obtain (b : Builder) (launchers : List Launcher) (w : World) :
    w.files.OnlyGains (b.obtain launchers w).2.files :=
  b.keepsTo_obtain_of_install (r := OverFiles FileSystem.OnlyGains)
    (fun _ _ _ => overFiles_onFiles _ (onlyGains_installProgram _ _)) w

/-- What a build that succeeded has done. -/
theorem build_eq_ok {report : BuildReport} (h : b.build w = .ok report w') :
    ∃ mid, b.plan (b.obtain b.config.launchers w).2.files = .ok report.plan ∧
      Runs b.runTask report.plan.tasks (b.obtain b.config.launchers w).2 mid ∧
      b.package mid = .ok report.packaged w' := by
  unfold build at h
  dsimp only at h
  split at h
  · cases h
  · rename_i plan hplan
    split at h
    · cases h
    · rename_i hfailed
      split at h
      · cases h
      · split at h
        · cases h
        · rename_i paths w'' hpackage
          cases h
          exact ⟨_, hplan, runs_of_execute hfailed, hpackage⟩

theorem leaves_package (hb : b.config = c) (hready : (c.workplace s).Ready x.files) {paths : List Path}
    (h : b.package x = .ok paths y) : (c.workplace s).Leaves x.files y.files := by
  subst hb
  have hcopy : KeepsTo (OverFiles (b.config.workplace s).WorksOn) b.package :=
    Workplace.keepsTo_copyFiles _ (b.config.isPrefix_output (by decide) s)
  exact hcopy.of_ok h hready

theorem modules_of_plan {fs : FileSystem} (h : b.plan fs = .ok plan) :
    plan.modules = b.config.modules.map (Staleness.check · b.config.layout fs) := by
  unfold Builder.plan at h
  dsimp only at h
  split at h
  · cases h
  · cases h
    rfl

/-! ### The outcome -/

/-- **The artifact of a module that is planned is written anew**, and nothing that runs later makes it
older. -/
theorem writtenSince_of_planned (hb : ofConfig c = .ok b) (hsep : c.Separated s) (hm : m ∈ c.modules)
    (htasks : ∀ t ∈ tasks, t ∈ c.taskList) (hmem : m.toTask ∈ tasks) (hcompiles : x.Compiles c)
    (hready : (c.workplace s).Ready x.files) (h : Runs b.runTask tasks x y) :
    y.files.WrittenSince x.files.clock (c.layout.output m.artifact) := by
  obtain ⟨done, rest, rfl⟩ := List.append_of_mem hmem
  obtain ⟨before, hdone, hrest⟩ := h.split
  obtain ⟨after, hcompile, hrest⟩ : ∃ after, b.runTask m.toTask before = .ok () after ∧
      Runs b.runTask rest after y := by
    cases hrest with
    | step ht hts => exact ⟨_, ht, hts⟩
  have hsame := hcompiles.of_samePrograms (hdone.keepsTo b.samePrograms_runTask)
  have hsame' := hsame.of_samePrograms ((b.samePrograms_runTask m.toTask).of_ok hcompile)
  have hfirst := leaves_runs hb hsep (fun t ht => htasks t (by simp [ht])) hcompiles hready hdone
  rw [runTask_toTask hb hm] at hcompile
  obtain ⟨hsecond, hwritten⟩ :=
    leaves_compileModule (of_ofConfig hb).1 hsep hm hsame hfirst.ready hcompile
  have hthird := leaves_runs hb hsep (fun t ht => htasks t (by simp [ht])) hsame' hsecond.ready hrest
  exact writtenSince_artifact hm hsecond.ready hthird (hfirst.trans hsecond).clock
    (hwritten.mono hfirst.clock)

/-- **A module is up to date when the tasks of a plan have run**: if it was stale it was compiled on the
way, and if it was not, its artifact is still no older than its sources. -/
theorem upToDate_of_runs (hb : ofConfig c = .ok b) (hsep : c.Separated s) (hm : m ∈ c.modules)
    (hcompiles : x.Compiles c) (hready : (c.workplace s).Ready x.files)
    (hpast : c.sourceTime x.files m ≤ x.files.clock) (hplan : b.plan x.files = .ok plan)
    (hruns : Runs b.runTask plan.tasks x y) (hend : (c.workplace s).Leaves y.files w.files) :
    (Staleness.check m c.layout w.files).reason = .upToDate := by
  have htasks := mem_taskList_of_plan hb hplan
  have hrun := leaves_runs hb hsep htasks hcompiles hready hruns
  have hall := hrun.trans hend
  rw [Staleness.upToDate_iff, sourceTime_of_leaves hsep hm hready hall]
  by_cases hstale : (Staleness.check m c.layout x.files).isStale = true
  · have hmem : m.toTask ∈ plan.tasks := by
      refine (mem_tasks_of_plan hb hplan).2 ⟨?_, ?_⟩
      · exact List.mem_cons_of_mem _ (List.mem_cons_of_mem _ (List.mem_map_of_mem hm))
      · rw [m.name_toTask]
        exact (taskName_mem_iff hb hplan hm).2 (Or.inl hstale)
    have hwritten := writtenSince_of_planned hb hsep hm htasks hmem hcompiles hready hruns
    exact (writtenSince_artifact hm hrun.ready hend hrun.clock hwritten).mono hpast
  · refine writtenSince_artifact hm hready hall hpast (Staleness.upToDate_iff.1 ?_)
    simpa [Staleness.isStale] using hstale

/-- Where all modules are up to date, only the two copying tasks are planned. -/
theorem plan_of_upToDate {fs : FileSystem} (hb : ofConfig c = .ok b)
    (hfresh : ∀ m ∈ c.modules, (Staleness.check m c.layout fs).reason = .upToDate) :
    ∃ plan, b.plan fs = .ok plan ∧ plan.modules.map (·.module) = c.modules.map Module.name ∧
      (∀ verdict ∈ plan.modules, verdict.reason = .upToDate) ∧
      plan.tasks = [c.outlineTask, c.toolsTask] := by
  obtain ⟨plan, hplan⟩ := plan_total hb fs
  have hmodules := modules_of_plan hplan
  rw [(of_ofConfig hb).1] at hmodules
  refine ⟨plan, hplan, ?_, ?_, ?_⟩
  · rw [hmodules, List.map_map]
    rfl
  · intro verdict hverdict
    rw [hmodules] at hverdict
    obtain ⟨m, hm, rfl⟩ := List.mem_map.1 hverdict
    exact hfresh m hm
  · obtain ⟨compiled, hcompiled, heq⟩ := tasks_of_plan hb hplan
    have hnone : ∀ m ∈ c.modules, (Staleness.check m c.layout fs).isStale ≠ true := fun m hm => by
      simp [Staleness.isStale, hfresh m hm]
    have hnil : compiled = [] := by
      rw [List.eq_nil_iff_forall_not_mem]
      intro m hm
      obtain ⟨hmem, hstale | ⟨stale, hs, hstale, _⟩⟩ := (mem_compiled_iff hb hplan hcompiled heq).1 hm
      · exact hnone m hmem hstale
      · exact hnone stale hs hstale
    rw [heq, hnil]
    rfl

/-- A compiler that writes an artifact of the current time, and fails if it cannot. -/
def stamping : Program where
  run _ _ fs :=
    match fs.writeFile ⟨"/p/o/lib/a.xtc"⟩ ⟨[], fs.clock, false⟩ with
    | .ok fs => (.exited (some 0) [] [], fs)
    | .error _ => (.exited (some 1) [] [], fs)

/-- Where the compiler is told to write. -/
theorem place_lib (moves : List Relocation) (s : Location) :
    ((soloConfig ⟨"lib/a.xtc"⟩ moves).layout.output (solo ⟨"lib/a.xtc"⟩ moves).outputDir).place s =
      ["p", "o", "lib"] := by
  have houtput : (soloConfig ⟨"lib/a.xtc"⟩ []).layout.output ⟨"lib"⟩ =
      FileSystem.pathOf ["p", "o", "lib"] := by
    decide +kernel
  exact (congrArg (·.place s) houtput).trans (Path.place_pathOf (by decide +kernel) s)

theorem compiles_stamping :
    stamping.Compiles (soloConfig ⟨"lib/a.xtc"⟩ []) (solo ⟨"lib/a.xtc"⟩ []) := by
  have hartifact : (soloConfig ⟨"lib/a.xtc"⟩ []).layout.output ⟨"lib/a.xtc"⟩ = ⟨"/p/o/lib/a.xtc"⟩ ∧
      (⟨"/p/o/lib/a.xtc"⟩ : Path) = FileSystem.pathOf ["p", "o", "lib", "a.xtc"] := by
    decide +kernel
  have hplace : ∀ s, Path.place ⟨"/p/o/lib/a.xtc"⟩ s = ["p", "o", "lib", "a.xtc"] := fun s =>
    hartifact.2 ▸ Path.place_pathOf (by decide +kernel) s
  have hfollow : Path.Followable ⟨"/p/o/lib/a.xtc"⟩ := by
    have hsteps : Path.steps ⟨"/p/o/lib/a.xtc"⟩ = ["p", "o", "lib", "a.xtc"].map .name := by
      decide +kernel
    refine ⟨by decide +kernel, fun x hx => ?_⟩
    rw [hsteps] at hx
    have hshort : ∀ x ∈ ["p", "o", "lib", "a.xtc"], ¬ maxNameLength < x.utf8ByteSize := by
      decide +kernel
    exact hshort x (by simpa using hx)
  intro fs fs' out err hplain hrun
  unfold stamping at hrun
  dsimp only at hrun
  split at hrun
  · rename_i after hok
    obtain rfl : after = fs' := (Prod.mk.inj hrun).2
    obtain ⟨hroom, hnodir, hsets⟩ := hplain.writeFile hok
    have hafter : after.Plain := hplain.of_sets hsets hnodir (by rintro n ⟨⟩; exact ⟨rfl, hroom⟩)
    have hbelow := FileSystem.confined_of_sets hsets fun t ht => (Option.some.inj ht).symm
    have hdirect := (soloConfig ⟨"lib/a.xtc"⟩ []).layout.direct_output ⟨"lib/a.xtc"⟩
    have htime : after.timeOf? ⟨"/p/o/lib/a.xtc"⟩ = some fs.clock := by
      rw [← hsets.workDir] at hsets
      exact (hafter.timeOf?_eq_some_iff (hartifact.1 ▸ hdirect)).2 ⟨hfollow, _, hsets.here, rfl⟩
    rw [hplace] at hbelow
    refine ⟨⟨?_, hafter⟩, fs.clock, hartifact.1 ▸ htime, Time.le_refl _⟩
    rw [place_lib]
    exact hbelow
  · cases (Prod.mk.inj hrun).1

/-- A build of a stale module succeeds if its tasks and the packaging do; what it leaves can be tested. -/
theorem build_solo_ok {artifact : Path} {moves : List Relocation} {test : World → Bool}
    (hstale : soloStale artifact moves w.files = true)
    (hfailed : (soloRun artifact moves w).1.failed = none)
    (hpackage : endsWith [] test
      ((soloBuilder artifact moves).package (soloRun artifact moves w).2) = true) :
    ∃ report w', (soloBuilder artifact moves).build w = .ok report w' ∧ test w' = true := by
  obtain ⟨w', hpackage, htest⟩ := exists_of_endsWith hpackage
  obtain ⟨plan, hplan, htasks⟩ := plan_solo hstale
  have hobtain : (soloBuilder artifact moves).obtain (soloBuilder artifact moves).config.launchers w =
      (([], none), w) := rfl
  unfold soloRun at hfailed hpackage
  unfold build
  simp only [hobtain, hplan, htasks, hfailed, hpackage]
  exact ⟨_, w', rfl, htest⟩

/-- A compiler that writes an artifact, and later another file and a link to the sources. -/
def linking : Program where
  run arguments limit fs :=
    match stamping.run arguments limit fs with
    | (.exited (some 0) out err, made) =>
      match (made.elapse 1).writeFile ⟨"/p/o/lib/n.xtc"⟩ ⟨[], (made.elapse 1).clock, false⟩ with
      | .ok more =>
        if (more.node? ["p", "o", "lib", "x"]).isNone then
          (.exited (some 0) out err, more.store ["p", "o", "lib", "x"] (.link ⟨"/p/a"⟩))
        else (.exited (some 1) [] [], more)
      | .error _ => (.exited (some 1) [] [], made)
    | failed => failed

/-- The other file is moved to where the link leads. -/
def throughLink : List Relocation := [⟨⟨"lib/n.xtc"⟩, ⟨"lib/x/module.x"⟩⟩]

theorem compilesOrLinks_linking : linking.CompilesOrLinks (soloConfig ⟨"lib/a.xtc"⟩ throughLink)
    (solo ⟨"lib/a.xtc"⟩ throughLink) := by
  intro fs fs' out err hplain hrun
  have hother : ∀ s, Path.place ⟨"/p/o/lib/n.xtc"⟩ s = ["p", "o", "lib", "n.xtc"] := fun s => by
    have hpath : (⟨"/p/o/lib/n.xtc"⟩ : Path) = FileSystem.pathOf ["p", "o", "lib", "n.xtc"] := by
      decide +kernel
    exact hpath ▸ Path.place_pathOf (by decide +kernel) s
  unfold linking at hrun
  dsimp only at hrun
  split at hrun
  · rename_i out' err' made hmade
    -- the artifact
    obtain ⟨hbelow, hwritten⟩ := compiles_stamping fs made out' err' hplain hmade
    rw [place_lib] at hbelow
    -- some time goes by
    have hlater := FileSystem.confined_elapse ["p", "o", "lib"] made 1
    have hkept : made.Retains (made.elapse 1) := ⟨rfl, fun hn => ⟨_, hn, .refl _⟩⟩
    have hready := hbelow.plain.elapse 1
    split at hrun
    · rename_i more hmore
      -- the other file
      obtain ⟨_, _, hfile⟩ := hready.writeFile hmore
      rw [hother] at hfile
      have hkept := hkept.trans (FileSystem.upholds_writeFile hmore hready.rooted).1
      have hsecond := hlater.trans (FileSystem.confined_of_sets hfile fun t ht => (Option.some.inj ht).symm)
      split at hrun
      · rename_i hnone
        obtain rfl := (Prod.mk.inj hrun).2
        -- the link, where nothing was
        have hlink : more.Sets ["p", "o", "lib", "x"] (some (.link ⟨"/p/a"⟩)) _ :=
          FileSystem.sets_store (by simp) _
        have hkept := hkept.trans <| FileSystem.retains_of_sets hlink fun m hm => by
          rw [hm] at hnone
          cases hnone
        have hthird := hsecond.trans (FileSystem.confined_of_sets hlink fun t ht => by cases ht)
        rw [place_lib]
        refine ⟨hbelow.toConfined.trans hthird, ?_⟩
        exact hthird.writtenSince hkept hbelow.clock hwritten
      · cases (Prod.mk.inj hrun).1
    · cases (Prod.mk.inj hrun).1
  · rename_i hfailed
    exact absurd hrun (hfailed _ _ _)

end Builder

end Rebuild
