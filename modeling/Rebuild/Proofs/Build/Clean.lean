/-
What cleaning removes.

Cleaning removes the root of the output with all in it.  Nothing but a comparison of two normal forms
keeps it from removing the project, and normal forms are made without looking at any file.  Both roots
are absolute, so their normal forms are the places that they lead to, and the comparison is right: what
is removed never holds the project.

Main definitions:

* `FileSystem.Clears` — **one file system is another without a tree**;
* `Config.outputPlace` — the root of the output, read component by component from the project on.

Main results:

* `Config.checkOutputRoot_eq_ok_iff` — **an output is refused exactly if the project lies in it**;
* `FileSystem.Plain.of_clears`, `FileSystem.Plain.missingOn_of_clears` — what is left is a plain file
  system in which the tree is missing;
* `Builder.clean_outcome` — what cleaning does to every entry, and when it finds something to remove;
* `Builder.clean_dates_project` — the directory that the output was in is dated.
-/
import Rebuild.Proofs.Build.Retry
import Rebuild.Proofs.FileSystem.Absolute
import Rebuild.Proofs.FileSystem.Workplace

set_option relaxedAutoImplicit false
set_option autoImplicit false

namespace Rebuild

open FileSystem (pathOf)

/-! ### Removing a tree -/

namespace FileSystem

variable {fs fs' : FileSystem} {loc : Location} {n : Node} {p : Path}

/-- Nothing is at the location or below it any more, and nothing else has changed, but that the directory
it was in may have been dated. -/
structure Clears (fs : FileSystem) (loc : Location) (fs' : FileSystem) : Prop where
  gone : ∀ {l}, loc <+: l → fs'.node? l = none
  elsewhere : ∀ {l}, ¬ loc <+: l → fs'.node? l = fs.node? l ∨
    l = loc.dropLast ∧ fs.isDirectoryAt l = true ∧ fs'.node? l = some (.directory fs.clock)

theorem Clears.ne_nil (h : fs.Clears loc fs') : loc ≠ [] := by
  rintro rfl
  cases h.gone (List.prefix_refl [])

theorem not_prefix_dropLast (hloc : loc ≠ []) : ¬ loc <+: loc.dropLast := by
  intro hprefix
  have hle := hprefix.length_le
  rw [List.length_dropLast] at hle
  have hpos := List.length_pos_iff.2 hloc
  omega

theorem clears_remove (hloc : loc ≠ []) : fs.Clears loc (fs.remove loc) := by
  have hdrop : ∀ {l}, ¬ loc <+: l → (fs.dropTree loc).node? l = fs.node? l := fun hl => by
    rw [node?_dropTree _ _ _ hloc, if_neg (by rwa [List.isPrefixOf_iff_prefix])]
  have hgone : ∀ {l}, loc <+: l → (fs.dropTree loc).node? l = none := fun hl => by
    rw [node?_dropTree _ _ _ hloc, if_pos (by rwa [List.isPrefixOf_iff_prefix])]
  have hparent := not_prefix_dropLast hloc
  unfold FileSystem.remove FileSystem.stampParent
  dsimp only
  split
  · rename_i hstamp
    refine ⟨fun {l} hl => ?_, fun {l} hl => ?_⟩
    · rw [node?_put _ _ _ _ hstamp.1, if_neg (by rintro rfl; exact hparent hl), hgone hl]
    · rw [node?_put _ _ _ _ hstamp.1]
      split
      · rename_i heq
        subst heq
        have hdir := hstamp.2
        rw [isDirectoryAt, hdrop hparent] at hdir
        exact Or.inr ⟨rfl, hdir, rfl⟩
      · exact Or.inl (hdrop hl)
  · exact ⟨hgone, fun hl => Or.inl (hdrop hl)⟩

/-- Elsewhere a directory stays one. -/
theorem Clears.isDirectoryAt (h : fs.Clears loc fs') {l : Location} (hl : ¬ loc <+: l)
    (hdir : fs.isDirectoryAt l = true) : fs'.isDirectoryAt l = true := by
  rcases h.elsewhere hl with hsame | ⟨_, _, hdated⟩
  · rwa [FileSystem.isDirectoryAt, hsame]
  · rw [FileSystem.isDirectoryAt, hdated]
    rfl

namespace Plain

/-- **What is left is a plain file system**, but that the working directory may be gone. -/
theorem of_clears (h : fs.Plain) (hc : fs.Clears loc fs') : fs'.atRoot.Plain := by
  have hold : ∀ {l n}, fs'.node? l = some n →
      ¬ loc <+: l ∧ (fs.node? l = some n ∨ ∃ t, n = .directory t ∧ fs.isDirectoryAt l = true) := by
    intro l n hn
    have hl : ¬ loc <+: l := fun hl => by
      rw [hc.gone hl] at hn
      cases hn
    refine ⟨hl, ?_⟩
    rcases hc.elsewhere hl with hsame | ⟨_, hdir, hdated⟩
    · exact Or.inl (hsame ▸ hn)
    · exact Or.inr ⟨_, Option.some.inj (hn.symm.trans hdated), hdir⟩
  have hbefore : ∀ {l n}, fs'.node? l = some n → ∃ n', fs.node? l = some n' := fun hn => by
    rcases (hold hn).2 with hsame | ⟨_, _, hdir⟩
    · exact ⟨_, hsame⟩
    · exact Option.isSome_iff_exists.1 (isSome_of_isDirectoryAt hdir)
  refine ⟨fun hn => ?_, fun {l n} hn => ?_, fun hn => ?_, rfl⟩
  · rcases (hold hn).2 with hsame | ⟨_, rfl, _⟩
    · exact h.noLink hsame
    · rfl
  · obtain ⟨n', hn'⟩ := hbefore hn
    exact hc.isDirectoryAt (fun hl => (hold hn).1 (hl.trans (List.dropLast_prefix l))) (h.parent hn')
  · obtain ⟨n', hn'⟩ := hbefore hn
    exact h.isName hn'

/-- **What was removed is missing**, in a directory that is still there. -/
theorem missingOn_of_clears (h : fs.Plain) (hc : fs.Clears loc fs') (hn : fs.node? loc = some n)
    (hshort : ∀ x ∈ loc, ¬ maxNameLength < x.utf8ByteSize) : fs'.MissingOn [] loc := by
  have hlast := List.dropLast_append_getLast hc.ne_nil
  refine ⟨loc.dropLast, loc.getLast hc.ne_nil, [], hlast.symm, by rwa [hlast], ?_, ?_⟩
  · exact hc.isDirectoryAt (not_prefix_dropLast hc.ne_nil) (h.parent hn)
  · rw [List.nil_append, hlast]
    exact hc.gone (List.prefix_refl loc)

/-- A path leads to a directory exactly if it can be followed and one is at its place. -/
theorem isDirectory_iff (h : fs.Plain) (hp : p.Direct) :
    fs.isDirectory p = true ↔ p.Followable ∧ fs.isDirectoryAt (p.place fs.workDir) = true := by
  simp only [FileSystem.isDirectory, FileSystem.isDirectoryAt, Option.any_eq_true, stat?_eq_some_iff,
    h.lookup_iff hp (by simp : Goal.target ≠ .creation), and_assoc, exists_and_left]

/-- **A tree is removed exactly if it is a directory.** -/
theorem removeTree_eq (h : fs.Plain) (hp : p.Direct) (hdir : fs.isDirectory p = true) :
    fs.removeTree p = .ok (fs.remove (p.place fs.workDir)) := by
  obtain ⟨hfollow, hat⟩ := (h.isDirectory_iff hp).1 hdir
  obtain ⟨t, ht⟩ := isDirectoryAt_eq_true_iff.1 hat
  have hlocate := (h.locate_iff hp (by simp : Goal.entry ≠ .creation)).2 ⟨hfollow, rfl, _, ht⟩
  simp only [FileSystem.removeTree, hlocate, bind, Except.bind, ht]

/-- Where there is no directory, something is wrong with the path, or nothing is found, or a file. -/
theorem removeTree_error (h : fs.Plain) (hp : p.Direct) (hdir : ¬ fs.isDirectory p = true) :
    fs.locate .entry p = .error .notFound ∧ fs.removeTree p = .error .notFound ∨
      ∃ e, e ≠ .notFound ∧ fs.removeTree p = .error e := by
  cases hlocate : fs.locate .entry p with
  | error e =>
      have herror : fs.removeTree p = .error e := by
        simp only [FileSystem.removeTree, hlocate, bind, Except.bind]
      by_cases heq : e = .notFound
      · subst heq
        exact Or.inl ⟨rfl, herror⟩
      · exact Or.inr ⟨e, heq, herror⟩
  | ok loc =>
      obtain ⟨hfollow, rfl, n, hn⟩ := (h.locate_iff hp (by simp)).1 hlocate
      cases n with
      | file data =>
          refine Or.inr ⟨.notADirectory, by simp, ?_⟩
          simp only [FileSystem.removeTree, hlocate, bind, Except.bind, hn]
      | directory t =>
          exact absurd ((h.isDirectory_iff hp).2 ⟨hfollow, isDirectoryAt_eq_true_iff.2 ⟨t, hn⟩⟩) hdir
      | link target => cases h.noLink hn

end Plain

end FileSystem

/-! ### The output and the project -/

namespace Config

variable {c : Config}

/-- The place of the output, read component by component from the project on. -/
def outputPlace (c : Config) : Location := c.outputRoot.place (c.projectRoot.place [])

theorem place_outputRoot (c : Config) : (c.projectRoot.join c.outputRoot).place [] = c.outputPlace :=
  Path.place_join _ _ _

theorem outputRoot_eq (habs : c.projectRoot.isAbsolute = true) :
    c.layout.outputRoot = pathOf c.outputPlace := by
  rw [← c.place_outputRoot]
  exact Path.normalize_eq_pathOf (Path.isAbsolute_join_of_left habs _)

theorem isName_outputPlace (habs : c.projectRoot.isAbsolute = true) :
    ∀ x ∈ c.outputPlace, IsName x := by
  rw [← c.place_outputRoot]
  exact Path.isName_of_mem_place (Path.isAbsolute_join_of_left habs _)

/-- **An output is refused exactly if the project lies in it.** -/
theorem checkOutputRoot_eq_ok_iff (habs : c.projectRoot.isAbsolute = true) :
    c.checkOutputRoot = .ok () ↔ ¬ c.outputPlace <+: c.projectRoot.place [] := by
  have hproject : c.layout.projectRoot = pathOf (c.projectRoot.place []) := Path.normalize_eq_pathOf habs
  have hcovers : c.layout.outputCoversProject = true ↔ c.outputPlace <+: c.projectRoot.place [] := by
    rw [Layout.outputCoversProject, hproject, outputRoot_eq habs]
    exact Path.startsWith_pathOf (Path.isName_of_mem_place habs) (isName_outputPlace habs)
  rw [← hcovers, checkOutputRoot]
  split
  · rename_i hyes
    simp [hyes]
  · rename_i hno
    simp [hno]

/-- An artifact is resolved from the place of the output on. -/
theorem output_eq (habs : c.projectRoot.isAbsolute = true) (p : Path) :
    c.layout.output p = pathOf (p.place c.outputPlace) := by
  have hroot := Path.isAbsolute_pathOf c.outputPlace
  rw [Layout.output, outputRoot_eq habs, Path.normalize_eq_pathOf (Path.isAbsolute_join_of_left hroot p),
    Path.place_join, Path.place_pathOf (isName_outputPlace habs)]

end Config

/-! ### Cleaning -/

namespace Builder

variable {b : Builder} {c : Config} {w w' : World}

/-- The output is a directory and is removed, or nothing is changed. -/
theorem clean_cases (hb : b.config = c) (habs : c.projectRoot.isAbsolute = true)
    (hplain : w.files.Plain) :
    w.files.isDirectory c.layout.outputRoot = true ∧
        b.clean w = .ok true { w with files := w.files.remove c.outputPlace } ∨
      ¬ w.files.isDirectory c.layout.outputRoot = true ∧
        (w.files.locate .entry c.layout.outputRoot = .error .notFound ∧ b.clean w = .ok false w ∨
          ∃ e, b.clean w = .error e w) := by
  subst hb
  have hnames := Config.isName_outputPlace habs
  have hdirect := Path.direct_pathOf hnames
  unfold clean
  rw [Config.outputRoot_eq habs]
  dsimp only
  by_cases hdir : w.files.isDirectory (pathOf b.config.outputPlace) = true
  · refine Or.inl ⟨hdir, ?_⟩
    rw [hplain.removeTree_eq hdirect hdir, Path.place_pathOf hnames]
  · refine Or.inr ⟨hdir, ?_⟩
    rcases hplain.removeTree_error hdirect hdir with ⟨hlocate, herror⟩ | ⟨e, hne, herror⟩
    · exact Or.inl ⟨hlocate, by rw [herror]⟩
    · exact Or.inr ⟨.clean (pathOf b.config.outputPlace) e, by simp only [herror]⟩

/-- **A directory that was removed is not found any more**, and nothing else is removed. -/
theorem clean_again (hb : b.config = c) (habs : c.projectRoot.isAbsolute = true)
    (hplain : w.files.Plain) (hdir : w.files.isDirectory c.layout.outputRoot = true)
    (hclears : w.files.Clears c.outputPlace w'.files) : b.clean w' = .ok false w' := by
  subst hb
  have hnames := Config.isName_outputPlace habs
  rw [Config.outputRoot_eq habs] at hdir
  obtain ⟨⟨hfault, hshort⟩, hat⟩ := (hplain.isDirectory_iff (Path.direct_pathOf hnames)).1 hdir
  rw [Path.place_pathOf hnames] at hat
  rw [Path.steps_pathOf hnames] at hshort
  obtain ⟨t, ht⟩ := FileSystem.isDirectoryAt_eq_true_iff.1 hat
  have hmissing := hplain.missingOn_of_clears hclears ht fun x hx =>
    hshort x (List.mem_map_of_mem hx)
  -- the output may have held the working directory, so this is seen from the root
  have hlocate := ((hplain.of_clears hclears).locate_pathOf_eq_notFound
    (by simp : FileSystem.Goal.entry ≠ .creation) hnames).2 ⟨hfault, hmissing⟩
  rw [FileSystem.locate_atRoot (Path.isAbsolute_pathOf _)] at hlocate
  have herror : w'.files.removeTree (pathOf b.config.outputPlace) = .error .notFound := by
    simp only [FileSystem.removeTree, hlocate, bind, Except.bind]
  unfold clean
  rw [Config.outputRoot_eq habs]
  dsimp only
  rw [herror]

/-- An artifact in the output is missing where the output is. -/
theorem artifactMissing_of_gone {fs : FileSystem} (hplain : fs.atRoot.Plain)
    (habs : c.projectRoot.isAbsolute = true)
    (hgone : ∀ loc, c.outputPlace <+: loc → fs.node? loc = none) {m : Module}
    (hm : c.outputPlace <+: m.artifact.place c.outputPlace) :
    (Staleness.check m c.layout fs).reason = .artifactMissing := by
  have hdirect := c.layout.direct_output m.artifact
  have houtput := c.output_eq habs m.artifact
  have hplace : (c.layout.output m.artifact).place [] = m.artifact.place c.outputPlace := by
    rw [Layout.output, Path.place_normalize, Path.place_join, Config.outputRoot_eq habs,
      Path.place_pathOf (Config.isName_outputPlace habs)]
  have htime : fs.timeOf? (c.layout.output m.artifact) = none := by
    rw [← FileSystem.timeOf?_atRoot (houtput ▸ Path.isAbsolute_pathOf _), Option.eq_none_iff_forall_not_mem]
    intro t ht
    obtain ⟨_, n, hn, _⟩ := (hplain.timeOf?_eq_some_iff hdirect).1 ht
    have hnone := hgone _ hm
    rw [← hplace] at hnone
    exact Option.some_ne_none n (hn.symm.trans hnone)
  simp [Staleness.check, judge, htime]

section Outcome

variable (hb : b.config = c) (habs : c.projectRoot.isAbsolute = true) (hok : c.checkOutputRoot = .ok ())
  (hplain : w.files.Plain)

include habs hok in
theorem clears_output (fs : FileSystem) : fs.Clears c.outputPlace (fs.remove c.outputPlace) :=
  FileSystem.clears_remove fun hnil =>
    (Config.checkOutputRoot_eq_ok_iff habs).1 hok (hnil ▸ List.nil_prefix)

include hb habs hplain

theorem clean_eq_true_iff :
    (∃ w', b.clean w = .ok true w') ↔ w.files.isDirectory c.layout.outputRoot = true := by
  rcases clean_cases hb habs hplain with ⟨hdir, hclean⟩ | ⟨hdir, ⟨_, hclean⟩ | ⟨e, hclean⟩⟩
  · exact iff_of_true ⟨_, hclean⟩ hdir
  · exact iff_of_false (by simp [hclean]) hdir
  · exact iff_of_false (by simp [hclean]) hdir

/-- **Where nothing is found, nothing is**, and nothing is changed. -/
theorem eq_of_clean_eq_false (h : b.clean w = .ok false w') :
    w' = w ∧ w.files.node? c.outputPlace = none := by
  rcases clean_cases hb habs hplain with ⟨_, hclean⟩ | ⟨_, ⟨hlocate, hclean⟩ | ⟨e, hclean⟩⟩
  · cases hclean.symm.trans h
  · cases hclean.symm.trans h
    rw [Config.outputRoot_eq habs] at hlocate
    have hmissing := (hplain.locate_pathOf_eq_notFound (by simp) (Config.isName_outputPlace habs)).1 hlocate
    exact ⟨rfl, hplain.none_of_missingOn hmissing.2⟩
  · cases hclean.symm.trans h

include hok

/-- **Outside the output every entry stays**, but that one directory is dated. -/
theorem clean_elsewhere {loc : Location} (hloc : ¬ c.outputPlace <+: loc) :
    (endOf (b.clean w)).files.node? loc = w.files.node? loc ∨
      (∃ w', b.clean w = .ok true w') ∧ loc = c.outputPlace.dropLast ∧
        w.files.isDirectoryAt loc = true ∧
        (endOf (b.clean w)).files.node? loc = some (.directory w.files.clock) := by
  rcases clean_cases hb habs hplain with ⟨_, hclean⟩ | ⟨_, ⟨_, hclean⟩ | ⟨e, hclean⟩⟩
  · rw [hclean]
    exact ((clears_output habs hok w.files).elsewhere hloc).imp_right fun hdated => ⟨⟨_, rfl⟩, hdated⟩
  · rw [hclean]
    exact Or.inl rfl
  · rw [hclean]
    exact Or.inl rfl

/-- **What is left has nothing in the output**, and there is nothing more to clean. -/
theorem clean_ok {removed : Bool} (h : b.clean w = .ok removed w') :
    (∀ loc, c.outputPlace <+: loc → w'.files.node? loc = none) ∧ b.clean w' = .ok false w' ∧
      w'.files.atRoot.Plain := by
  rcases clean_cases hb habs hplain with ⟨hdir, hclean⟩ | ⟨_, ⟨_, hclean⟩ | ⟨e, hclean⟩⟩
  · cases hclean.symm.trans h
    have hclears := clears_output habs hok w.files
    exact ⟨fun _ hloc => hclears.gone hloc, clean_again hb habs hplain hdir hclears,
      hplain.of_clears hclears⟩
  · cases hclean.symm.trans h
    obtain ⟨_, hnone⟩ := eq_of_clean_eq_false hb habs hplain hclean
    refine ⟨?_, hclean, ⟨hplain.noLink, hplain.parent, hplain.isName, rfl⟩⟩
    rintro _ ⟨rel, rfl⟩
    exact hplain.rooted.none_below hnone rel
  · cases hclean.symm.trans h

end Outcome

/-- **What cleaning does.**  An output is refused exactly if the project is there or below it.  If it is
not, cleaning leaves every entry outside the output as it was, but that the directory the output was in
is dated when the output is removed.  It removes something exactly if the output is a directory, and
finds nothing only where nothing is; in both cases nothing is in the output then, the next cleaning finds
nothing, and every artifact in the output is missing. -/
theorem clean_outcome (c : Config) (habs : c.projectRoot.isAbsolute = true) :
    ((∃ e, c.checkOutputRoot = .error e) ↔ c.outputPlace <+: c.projectRoot.place []) ∧
    ∀ (b : Builder) (w : World), b.config = c → c.checkOutputRoot = .ok () → w.files.Plain →
      (∀ loc, ¬ c.outputPlace <+: loc →
        (endOf (b.clean w)).files.node? loc = w.files.node? loc ∨
        (∃ w', b.clean w = .ok true w') ∧ loc = c.outputPlace.dropLast ∧
          w.files.isDirectoryAt loc = true ∧
          (endOf (b.clean w)).files.node? loc = some (.directory w.files.clock)) ∧
      ((∃ w', b.clean w = .ok true w') ↔ w.files.isDirectory c.layout.outputRoot = true) ∧
      (∀ w', b.clean w = .ok false w' → w' = w ∧ w.files.node? c.outputPlace = none) ∧
      ∀ removed w', b.clean w = .ok removed w' →
        (∀ loc, c.outputPlace <+: loc → w'.files.node? loc = none) ∧
        b.clean w' = .ok false w' ∧
        ∀ m : Module, c.outputPlace <+: m.artifact.place c.outputPlace →
          (Staleness.check m c.layout w'.files).reason = .artifactMissing := by
  constructor
  · rw [← not_iff_not, ← Config.checkOutputRoot_eq_ok_iff habs]
    cases c.checkOutputRoot with
    | ok u => simp
    | error e => simp
  · intro b w hb hok hplain
    refine ⟨fun loc hloc => clean_elsewhere hb habs hok hplain hloc, clean_eq_true_iff hb habs hplain,
      fun w' h => eq_of_clean_eq_false hb habs hplain h, fun removed w' h => ?_⟩
    obtain ⟨hgone, hagain, hleft⟩ := clean_ok hb habs hok hplain h
    exact ⟨hgone, hagain, fun m => artifactMissing_of_gone hleft habs hgone⟩

/-! ### A project that is cleaned -/

/-- An artifact is removed, and missed then. -/
theorem solo_clean : ∃ w',
    (soloBuilder ⟨"lib/a.xtc"⟩ []).clean (soloWorld (soloFiles oldArtifact) refusing) = .ok true w' ∧
    w'.files.node? ["p", "o", "lib", "a.xtc"] = none ∧
    w'.files.isFile ⟨"/p/a/module.x"⟩ = true ∧
    (Staleness.check (solo ⟨"lib/a.xtc"⟩ []) (soloConfig ⟨"lib/a.xtc"⟩ []).layout w'.files).reason =
      .artifactMissing := by
  have hplain : (soloFiles oldArtifact).Plain :=
    FileSystem.Plain.of_nodes (by decide +kernel) (by decide +kernel)
  obtain ⟨_, hclean⟩ := clean_outcome (soloConfig ⟨"lib/a.xtc"⟩ []) rfl
  obtain ⟨_, hremoves, _, hafter⟩ := hclean (soloBuilder ⟨"lib/a.xtc"⟩ [])
    (soloWorld (soloFiles oldArtifact) refusing) rfl (checkOutputRoot_inside rfl rfl) hplain
  obtain ⟨w', h⟩ := hremoves.2 (by decide +kernel)
  obtain ⟨hgone, _, hmissing⟩ := hafter true w' h
  refine ⟨w', h, hgone _ (by decide +kernel), ?_, hmissing _ (by decide +kernel)⟩
  have hsource : (endOf ((soloBuilder ⟨"lib/a.xtc"⟩ []).clean
      (soloWorld (soloFiles oldArtifact) refusing))).files.isFile ⟨"/p/a/module.x"⟩ = true := by
    decide +kernel
  rwa [h] at hsource

/-- **The project is dated when the output is removed**, so it is not exactly what it was. -/
theorem clean_dates_project :
    (soloConfig ⟨"lib/a.xtc"⟩ []).projectRoot.isAbsolute = true ∧
    (soloConfig ⟨"lib/a.xtc"⟩ []).checkOutputRoot = .ok () ∧ (soloFiles oldArtifact).Plain ∧
    ¬ (soloConfig ⟨"lib/a.xtc"⟩ []).outputPlace <+: ["p"] ∧
    (soloFiles oldArtifact).node? ["p"] = some (.directory ⟨0⟩) ∧
    (endOf ((soloBuilder ⟨"lib/a.xtc"⟩ []).clean
      (soloWorld (soloFiles oldArtifact) refusing))).files.node? ["p"] = some (.directory ⟨5⟩) :=
  ⟨rfl, checkOutputRoot_inside rfl rfl,
    FileSystem.Plain.of_nodes (by decide +kernel) (by decide +kernel), by decide +kernel,
    by decide +kernel, by decide +kernel⟩

end Builder

end Rebuild
