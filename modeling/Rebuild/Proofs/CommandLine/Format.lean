/-
What the output format changes.

A command does its work first and prints then.  As text everything can be printed.  As structured data
a time is counted from the epoch, and a time before it cannot be written; then the command fails when
its work is done.  Nothing else differs between the formats but what is printed.

That holds of paths that are text, as all paths are here.  A path that is no UTF-8 text could not be
written as structured data either.

Main definitions:

* `Plan.Writable` — **no verdict of the plan has a time before the epoch**;
* `Builder.shownPlan?` — the plan that a command shows as structured data;
* `AgreeUnless` — two runs of a command that differ only if a plan cannot be written.

Main results:

* `Plan.exists_toValue_iff` — which plans can be written;
* `agree_formats` — **the formats leave the same world, and succeed alike unless the plan that is shown
  cannot be written**;
* `plan_before_epoch` — a plan that is shown as text only.
-/
import Rebuild.CommandLine
import Rebuild.Proofs.Build.Accept
import Rebuild.Proofs.Build.SecondBuild

set_option relaxedAutoImplicit false
set_option autoImplicit false

namespace Rebuild

/-! ### What can be written -/

theorem Time.exists_toValue_iff {t : Time} : (∃ v, t.toValue = .ok v) ↔ Time.epoch ≤ t := by
  unfold Time.toValue
  split
  · rename_i hlt
    exact iff_of_false (by simp) (Int.not_le.2 hlt)
  · rename_i hnot
    exact iff_of_true ⟨_, rfl⟩ (Time.not_lt.1 hnot)

theorem Time.exists_optionToValue_iff {o : Option Time} :
    (∃ v, Time.optionToValue o = .ok v) ↔ ∀ t, o = some t → Time.epoch ≤ t := by
  cases o with
  | none => exact iff_of_true ⟨_, rfl⟩ (by simp)
  | some t => simpa [Time.optionToValue] using Time.exists_toValue_iff

/-- No time of the verdict is before the epoch. -/
def Staleness.Writable (s : Staleness) : Prop :=
  ∀ t, s.sourceTime = some t ∨ s.artifactTime = some t → Time.epoch ≤ t

theorem Staleness.exists_toValue_iff {s : Staleness} : (∃ v, s.toValue = .ok v) ↔ s.Writable := by
  unfold Staleness.toValue Staleness.Writable
  simp only [except_bind_eq_ok, or_imp, forall_and, ← Time.exists_optionToValue_iff]
  constructor
  · rintro ⟨_, source, hsource, artifact, hartifact, _⟩
    exact ⟨⟨source, hsource⟩, artifact, hartifact⟩
  · rintro ⟨⟨source, hsource⟩, artifact, hartifact⟩
    exact ⟨_, source, hsource, artifact, hartifact, rfl⟩

theorem Staleness.exists_toValues_iff {verdicts : List Staleness} :
    (∃ vs, Staleness.toValues verdicts = .ok vs) ↔ ∀ s ∈ verdicts, s.Writable := by
  induction verdicts with
  | nil => exact iff_of_true ⟨[], rfl⟩ (by simp)
  | cons s rest ih =>
      rw [List.forall_mem_cons, ← ih, ← Staleness.exists_toValue_iff]
      simp only [Staleness.toValues, except_bind_eq_ok]
      constructor
      · rintro ⟨_, v, hv, vs, hvs, _⟩
        exact ⟨⟨v, hv⟩, vs, hvs⟩
      · rintro ⟨⟨v, hv⟩, vs, hvs⟩
        exact ⟨_, v, hv, vs, hvs, rfl⟩

/-- No verdict of the plan has a time before the epoch. -/
def Plan.Writable (p : Plan) : Prop := ∀ s ∈ p.modules, s.Writable

/-- **A plan can be written exactly if no time in it is before the epoch.** -/
theorem Plan.exists_toValue_iff {p : Plan} : (∃ v, p.toValue = .ok v) ↔ p.Writable := by
  unfold Plan.Writable Plan.toValue
  rw [← Staleness.exists_toValues_iff]
  simp only [except_bind_eq_ok]
  constructor
  · rintro ⟨_, vs, hvs, _⟩
    exact ⟨vs, hvs⟩
  · rintro ⟨vs, hvs⟩
    exact ⟨_, vs, hvs, rfl⟩

/-- Of a report only the plan may be impossible to write. -/
theorem BuildReport.exists_toValue_iff {r : BuildReport} :
    (∃ v, r.toValue = .ok v) ↔ r.plan.Writable := by
  unfold BuildReport.toValue
  rw [← Plan.exists_toValue_iff]
  simp only [except_bind_eq_ok]
  constructor
  · rintro ⟨_, v, hv, _⟩
    exact ⟨v, hv⟩
  · rintro ⟨v, hv⟩
    exact ⟨_, v, hv, rfl⟩

/-! ### Two runs -/

/-- Two runs leave the same world, and both succeed or both fail, unless there is a plan that cannot be
written; then the first succeeds and the second fails. -/
structure AgreeUnless (shown : Option Plan) (text json : Outcome × World) : Prop where
  world : json.2 = text.2
  agree : (∀ p, shown = some p → p.Writable) → json.1.code = text.1.code
  differ : (∃ p, shown = some p ∧ ¬ p.Writable) → text.1.code = 0 ∧ json.1.code = 1

theorem Outcome.code_ofEncoded (e : Encoded) :
    ((∃ v, e = .ok v) → (Outcome.ofEncoded e).code = 0) ∧
      (¬ (∃ v, e = .ok v) → (Outcome.ofEncoded e).code = 1) := by
  cases e with
  | ok v => exact ⟨fun _ => rfl, fun h => absurd ⟨v, rfl⟩ h⟩
  | error e => exact ⟨fun ⟨_, h⟩ => (nomatch h), fun _ => rfl⟩

/-- A plan, or what holds one, that is printed in both formats. -/
theorem AgreeUnless.of_encoded {p : Plan} {e : Encoded} (he : (∃ v, e = .ok v) ↔ p.Writable)
    (lines : List String) (w : World) :
    AgreeUnless (some p) (.success lines, w) (.ofEncoded e, w) where
  world := rfl
  agree := fun h => (Outcome.code_ofEncoded e).1 (he.2 (h p rfl))
  differ := by
    rintro ⟨_, ⟨rfl⟩, hnot⟩
    exact ⟨rfl, (Outcome.code_ofEncoded e).2 (mt he.1 hnot)⟩

/-- What shows no plan ends alike in both formats. -/
theorem AgreeUnless.of_code {text json : Outcome × World} (hworld : json.2 = text.2)
    (hcode : json.1.code = text.1.code) : AgreeUnless none text json where
  world := hworld
  agree := fun _ => hcode
  differ := by
    rintro ⟨_, h, _⟩
    cases h

/-- The plan that a command shows as structured data, if it gets so far. -/
def Builder.shownPlan? (b : Builder) (w : World) : Command → Option Plan
  | .build =>
    match b.build w with
    | .ok report _ => some report.plan
    | .error _ _ => none
  | .plan => (b.plan w.files).toOption
  | .clean => none

section Commands

variable (project : Path) (given : Option Path) (style : Style) (b : Builder) (w : World)

theorem agree_runPlan : AgreeUnless (b.shownPlan? w .plan)
    (runPlan ⟨project, given, .text, false⟩ style b w)
    (runPlan ⟨project, given, .json, false⟩ style b w) := by
  unfold runPlan Builder.shownPlan?
  cases b.plan w.files with
  | error e => exact AgreeUnless.of_code rfl rfl
  | ok p => exact AgreeUnless.of_encoded Plan.exists_toValue_iff _ w

theorem agree_runBuild : AgreeUnless (b.shownPlan? w .build)
    (runBuild ⟨project, given, .text, false⟩ style b w)
    (runBuild ⟨project, given, .json, false⟩ style b w) := by
  unfold runBuild Builder.shownPlan?
  cases b.build w with
  | error e w' => exact AgreeUnless.of_code rfl rfl
  | ok r w' => exact AgreeUnless.of_encoded BuildReport.exists_toValue_iff _ w'

theorem agree_runClean : AgreeUnless (b.shownPlan? w .clean)
    (runClean ⟨project, given, .text, false⟩ style b w)
    (runClean ⟨project, given, .json, false⟩ style b w) := by
  unfold runClean Builder.shownPlan?
  cases b.clean w with
  | error e w' => exact AgreeUnless.of_code rfl rfl
  | ok removed w' => exact AgreeUnless.of_code rfl rfl

end Commands

/-- The plan that a command shows as structured data for a project, if it gets so far. -/
def shownPlan? (command : Command) (project : Path) (given : Option Path) (env : Config.Environment)
    (w : World) : Option Plan :=
  match Config.load w.files project given env with
  | .error _ => none
  | .ok c =>
    match Builder.ofConfig c with
    | .error _ => none
    | .ok b => b.shownPlan? w command

/-- **The format changes only what is printed**, unless the command gets as far as to show a plan with a
time before the epoch.  Then it has done the same, but it succeeds as text and fails as structured
data.  No other plan is held back, since every path is text. -/
theorem agree_formats (command : Command) (project : Path) (given : Option Path)
    (env : Config.Environment) (w : World) :
    AgreeUnless (shownPlan? command project given env w)
      (runCommand command ⟨project, given, .text, false⟩ env w)
      (runCommand command ⟨project, given, .json, false⟩ env w) := by
  unfold runCommand shownPlan?
  dsimp only
  cases Config.load w.files project given env with
  | error e => exact AgreeUnless.of_code rfl rfl
  | ok c =>
      dsimp only
      cases Builder.ofConfig c with
      | error e => exact AgreeUnless.of_code rfl rfl
      | ok b =>
          cases command with
          | build => exact agree_runBuild project given _ b w
          | plan => exact agree_runPlan project given _ b w
          | clean => exact agree_runClean project given _ b w

/-! ### A source from before the epoch -/

/-- The standard project with one source, of a time before the epoch. -/
def antiqueFiles : FileSystem :=
  [((["p"] : Location), Node.directory ⟨0⟩), (["p", "lib_json"], .directory ⟨0⟩),
    (["p", "lib_json", "src"], .directory ⟨0⟩), (["p", "lib_json", "src", "main"], .directory ⟨0⟩),
    (["p", "lib_json", "src", "main", "a.x"], .file ⟨[], ⟨-1⟩, false⟩)].foldl
      (fun fs entry => fs.put entry.1 entry.2) ⟨[], ["p"], ⟨5⟩⟩

def antiqueWorld : World := ⟨antiqueFiles, .silent, [], []⟩

def antiqueConfig : Config := { Config.standard with projectRoot := ⟨"/p"⟩ }

theorem load_antique : Config.load antiqueFiles ⟨"."⟩ none [] = .ok antiqueConfig := by
  decide +kernel

theorem exists_ofConfig_antique : ∃ b, Builder.ofConfig antiqueConfig = .ok b :=
  Builder.exists_ofConfig (by decide +kernel) (by decide +kernel) (by decide +kernel)

/-- The source is of a time that cannot be written. -/
theorem not_writable_antique {b : Builder} {p : Plan} (hb : Builder.ofConfig antiqueConfig = .ok b)
    (hp : b.plan antiqueFiles = .ok p) : ¬ p.Writable := by
  have hmodules := Builder.modules_of_plan hp
  rw [(Builder.of_ofConfig hb).1] at hmodules
  have hold : ∃ m ∈ antiqueConfig.modules,
      (Staleness.check m antiqueConfig.layout antiqueFiles).sourceTime = some ⟨-1⟩ := by
    decide +kernel
  obtain ⟨m, hm, htime⟩ := hold
  intro hall
  have hverdict := hall (Staleness.check m antiqueConfig.layout antiqueFiles)
    (hmodules ▸ List.mem_map_of_mem hm)
  exact absurd (hverdict _ (Or.inl htime)) (by decide)

/-- **A plan that is shown as text only.** -/
theorem plan_before_epoch :
    (runArguments ["plan"] [] antiqueWorld).1.code = 0 ∧
      (runArguments ["plan", "-o", "json"] [] antiqueWorld).1.code = 1 := by
  obtain ⟨b, hb⟩ := exists_ofConfig_antique
  obtain ⟨p, hp⟩ := Builder.plan_total hb antiqueFiles
  have hload : Config.load antiqueWorld.files ⟨"."⟩ none [] = .ok antiqueConfig := load_antique
  have hrun : ∀ format, runCommand .plan ⟨⟨"."⟩, none, format, false⟩ [] antiqueWorld =
      runPlan ⟨⟨"."⟩, none, format, false⟩ (Style.ofEnvironment []) b antiqueWorld := by
    intro format
    unfold runCommand
    simp only [hload, hb]
  have hshown : b.shownPlan? antiqueWorld .plan = some p := by
    have hplan : b.plan antiqueWorld.files = .ok p := hp
    rw [Builder.shownPlan?, hplan]
    rfl
  have htext : Invocation.ofArguments ["plan"] = .run .plan ⟨⟨"."⟩, none, .text, false⟩ := by
    decide +kernel
  have hjson : Invocation.ofArguments ["plan", "-o", "json"] =
      .run .plan ⟨⟨"."⟩, none, .json, false⟩ := by
    decide +kernel
  unfold runArguments
  rw [htext, hjson]
  dsimp only
  rw [hrun, hrun]
  exact (agree_runPlan ⟨"."⟩ none (Style.ofEnvironment []) b antiqueWorld).differ
    ⟨p, hshown, not_writable_antique hb hp⟩

end Rebuild
