/-
What becomes of the launchers in a build.

A launcher has a name that it is fetched and reported under, and a path in the project, which may end in
another name.  It is packaged under that other one.  So the packaged file is the one that was wanted if
both names are the same; and it holds what the launcher holds unless launchers share a name in the
project, or one is kept where it is to be packaged.

Main definitions:

* `World.Orderly` — every entry is in a directory, and no program changes that.

Main results:

* `Builder.staysOrderly_runTask`, `Builder.staysOrderly_obtain` — tasks and fetched launchers leave a
  world orderly;
* `Builder.launchers_packaged` — **under which names launchers are packaged, and what the packaged files
  hold**.
-/
import Rebuild.Proofs.Build.DryRun
import Rebuild.Proofs.Placement.Files

set_option relaxedAutoImplicit false
set_option autoImplicit false

namespace Rebuild

open World (overFiles_onFiles)

/-! ### Worlds that stay orderly -/

/-- A rooted file system stays one. -/
def FileSystem.StaysRooted (fs fs' : FileSystem) : Prop := fs.Rooted → fs'.Rooted

/-- The program leaves a rooted file system rooted. -/
def Program.Orderly (p : Program) : Prop :=
  ∀ arguments limit (fs : FileSystem), fs.StaysRooted (p.run arguments limit fs).2

/-- Every entry is in a directory, and every program leaves it so. -/
structure World.Orderly (w : World) : Prop where
  rooted : w.files.Rooted
  programs : ∀ {name p}, w.programs.lookup name = some p → p.Orderly

/-- An orderly world stays one. -/
def World.StaysOrderly (w w' : World) : Prop := w.Orderly → w'.Orderly

instance : IsPreorder FileSystem FileSystem.StaysRooted where
  refl := fun _ h => h
  trans := fun _ _ _ h h' hroot => h' (h hroot)

instance : World.Patient World.StaysOrderly where
  refl := fun _ h => h
  trans := fun _ _ _ h h' hw => h' (h hw)
  wait := fun _ _ h => ⟨⟨h.rooted.parent⟩, h.programs⟩
  network := fun _ _ h => ⟨h.rooted, h.programs⟩

theorem FileSystem.Upholds.staysRooted {fs fs' : FileSystem} (h : fs.Upholds fs') :
    fs.StaysRooted fs' := fun hroot => (h hroot).2

theorem staysOrderly_onFiles {ε α : Type} {wrap : IoError → ε} {act : Disk α} {w : World}
    (h : w.files.StaysRooted (endOf (act w.files))) :
    w.StaysOrderly (endOf (World.onFiles wrap act w)) := by
  intro hw
  have hend := h hw.rooted
  unfold World.onFiles
  cases hact : act w.files with
  | ok a fs =>
      rw [hact] at hend
      exact ⟨hend, hw.programs⟩
  | error e fs =>
      rw [hact] at hend
      exact ⟨hend, hw.programs⟩

/-! ### Actions -/

theorem staysOrderly_makeDirectories (p : Path) :
    KeepsTo World.StaysOrderly (World.onFiles ActionError.io (Disk.makeDirectories p)) := fun w =>
  staysOrderly_onFiles (Disk.upholds_makeDirectories p w.files).staysRooted

theorem staysOrderly_makeParent (p : Path) : KeepsTo World.StaysOrderly (makeParent p) := by
  unfold makeParent
  split
  · exact staysOrderly_makeDirectories _
  · exact KeepsTo.pure ()

theorem staysOrderly_copy (p q : Path) :
    KeepsTo World.StaysOrderly (World.onFiles ActionError.io (Disk.change (·.copy p q))) := fun _ =>
  staysOrderly_onFiles (Disk.endOf_change fun hok => (FileSystem.upholds_copy hok).staysRooted)

theorem staysOrderly_copyTree (source target : Path) :
    KeepsTo World.StaysOrderly (copyTree source target) :=
  keepsTo_copyTree_of fun w _ _ => keepsTo_copyEntries_of
    (fun _ _ _ => staysOrderly_makeDirectories _) (fun _ _ _ => staysOrderly_makeParent _)
    (fun _ _ _ => staysOrderly_copy _ _) w

theorem staysOrderly_copyFiles (files : List Path) (into : Path) :
    KeepsTo World.StaysOrderly (copyFiles files into) :=
  keepsTo_copyFiles_of (staysOrderly_makeDirectories _) fun _ _ _ _ => staysOrderly_copy _ _

/-- **Only files are moved**, so no directory is moved into itself. -/
theorem staysOrderly_relocate (source target : Path) :
    KeepsTo World.StaysOrderly (relocate source target) := by
  intro w hw
  refine bind_of_ok (r := World.StaysOrderly) (keepsTo_require _ _ w) (fun _ mid hrequire => ?_) hw
  obtain ⟨hfile, rfl⟩ := require_eq_ok_iff.1 hrequire
  refine bind_of_ok (staysOrderly_makeParent target w) fun _ mid hparent => ?_
  -- the file is still there when the directories are made
  have hupholds : w.files.Upholds mid.files :=
    (overFiles_makeParent Disk.upholds_makeDirectories target).of_ok hparent
  have hstill := (hupholds hw.rooted).1.isFile hfile
  exact staysOrderly_onFiles (Disk.endOf_change fun hok hroot => hroot.rename hstill hok)

theorem staysOrderly_start (program : String) (arguments : List String) (limit : Option Duration) :
    KeepsTo World.StaysOrderly (start program arguments limit) := by
  intro w
  unfold start
  split
  · exact fun hw => hw
  · split
    · exact fun hw => hw
    · rename_i p hp
      intro hw
      have horderly : p.Orderly := hw.programs (World.lookup_of_program? hp)
      exact ⟨horderly arguments limit _ hw.rooted, hw.programs⟩

theorem staysOrderly_installProgram (dest : Path) (bytes : Bytes) :
    KeepsTo World.StaysOrderly (World.onFiles (FetchError.write dest) (installProgram dest bytes)) := by
  have hinstall : KeepsTo FileSystem.StaysRooted (installProgram dest bytes) := by
    refine KeepsTo.bind (fun fs => (Disk.upholds_makeDirectories _ fs).staysRooted) fun _ => ?_
    exact Disk.keepsTo_change fun hok hroot => hroot.install hok
  exact fun w => staysOrderly_onFiles (hinstall w.files)

/-! ### Builds -/

namespace Builder

variable {b : Builder} {c : Config} {w w' : World}

/-- **No task leaves a world disorderly.** -/
theorem staysOrderly_runTask (b : Builder) (t : Task) : KeepsTo World.StaysOrderly (b.runTask t) :=
  b.keepsTo_runTask_of
    (fun _ _ _ => keepsTo_compile_of (staysOrderly_makeDirectories _) (staysOrderly_start _ _ _))
    staysOrderly_relocate staysOrderly_copyTree staysOrderly_copyFiles t

theorem staysOrderly_obtain (b : Builder) (launchers : List Launcher) (w : World) :
    w.StaysOrderly (b.obtain launchers w).2 :=
  b.keepsTo_obtain_of_install (fun _ _ _ => staysOrderly_installProgram _ _) w

/-- Launchers are packaged in an orderly world. -/
theorem orderly_package {report : BuildReport} (hw : w.Orderly) (h : b.build w = .ok report w') :
    ∃ mid : World, mid.Orderly ∧ b.package mid = .ok report.packaged w' := by
  obtain ⟨mid, _, hruns, hpackage⟩ := build_eq_ok h
  exact ⟨mid, hruns.keepsTo b.staysOrderly_runTask (b.staysOrderly_obtain _ _ hw), hpackage⟩

/-- The packaged files are called as the launchers are exactly if the launchers are kept under these
names. -/
theorem packaged_eq_iff {into : Path} {source : Path → Path} {launchers : List Launcher}
    {packaged : List Path} (hnames : ∀ l ∈ launchers, IsName l.file)
    (h : List.Forall₂ (fun l => IsCopy into (source l.path)) launchers packaged) :
    packaged = launchers.map (fun l => into.join ⟨l.file⟩) ↔
      ∀ l ∈ launchers, (source l.path).fileName? = some l.file := by
  induction h with
  | nil => simp
  | @cons l path launchers packaged hcopy _ ih =>
      obtain ⟨hname, hnames⟩ := List.forall_mem_cons.1 hnames
      rw [List.map_cons, List.cons_eq_cons, List.forall_mem_cons, ih hnames, hcopy.eq_join_iff hname]

/-- **What becomes of the launchers** in a build that succeeds.  Each of them is packaged under the name
that its path in the project ends in, in order; so the packaged files are called as the launchers are
exactly if all launchers are kept under these names.  At its path there is a file when the build is done,
and the packaged file holds what that file holds, unless another one was packaged to the place of the
file, or a later one to the same place; and if a launcher is kept where it is to be packaged, the file is
empty.  Without links that is all that can happen if the launchers are kept under distinct names. -/
theorem launchers_packaged (hb : ofConfig c = .ok b) (hw : w.Orderly) {report : BuildReport}
    (h : b.build w = .ok report w') :
    List.Forall₂ (fun l => IsCopy (c.layout.output ⟨"bin"⟩) (c.layout.source l.path)) c.launchers
      report.packaged ∧
    ((∀ l ∈ c.launchers, IsName l.file) →
      (report.packaged = c.launchers.map (fun l => (c.layout.output ⟨"bin"⟩).join ⟨l.file⟩) ↔
        ∀ l ∈ c.launchers, (c.layout.source l.path).fileName? = some l.file)) ∧
    (∀ (i : ℕ) (l : Launcher) (path : Path), c.launchers[i]? = some l →
      report.packaged[i]? = some path → ∃ s d kept copied,
        w'.files.Finds (c.layout.source l.path) s kept ∧ w'.files.Finds path d copied ∧
        ((∀ e ∈ report.packaged.eraseIdx i, w'.files.locate .target e ≠ .ok s) →
          (∀ e ∈ report.packaged.drop (i + 1), w'.files.locate .target e ≠ .ok d) →
            copied.bytes = (if d = s then [] else kept.bytes) ∧
              copied.executable = kept.executable)) ∧
    (w'.files.Plain → (c.launchers.map fun l => (c.layout.source l.path).fileName?).Nodup →
      ∀ (i : ℕ) (l : Launcher) (path : Path), c.launchers[i]? = some l →
        report.packaged[i]? = some path → ∃ kept copied,
          w'.files.node? ((c.layout.source l.path).place w'.files.workDir) = some (.file kept) ∧
          w'.files.node? (path.place w'.files.workDir) = some (.file copied) ∧
          copied.bytes = (if path.place w'.files.workDir =
            (c.layout.source l.path).place w'.files.workDir then [] else kept.bytes) ∧
          copied.executable = kept.executable) := by
  obtain rfl := (of_ofConfig hb).1
  obtain ⟨mid, hmid, hpackage⟩ := orderly_package hw h
  have hpaths := forall₂_of_package hpackage
  have hfile : ∀ {i : ℕ} {l : Launcher}, b.config.launchers[i]? = some l →
      (b.config.launchers.map fun l => b.config.layout.source l.path)[i]? =
        some (b.config.layout.source l.path) := fun hl => by
    rw [List.getElem?_map, hl, Option.map_some]
  exact ⟨hpaths, fun hnames => packaged_eq_iff hnames hpaths, fun i l path hl hpath =>
    copyFiles_alike hmid.rooted hpackage (hfile hl) hpath, fun hplain hnames i l path hl hpath =>
    copyFiles_alike_plain hmid.rooted hplain (by simpa only [List.map_map, Function.comp_def] using hnames)
      hpackage (hfile hl) hpath⟩

/-! ### A launcher that is kept under another name -/

theorem orderly_writing : writing.Orderly := by
  intro arguments limit fs hroot
  unfold writing
  dsimp only
  split
  · rename_i fs' hok
    exact (FileSystem.upholds_writeFile hok).staysRooted hroot
  · exact hroot

/-- The project, where one byte is the answer to everything. -/
def servedWorld : World :=
  { soloWorld (soloFiles []) writing with network := ⟨fun _ _ => .status 200 [7], []⟩ }

theorem orderly_served : servedWorld.Orderly where
  rooted := FileSystem.rooted_of_nodes (by decide +kernel)
  programs := fun {name p} hp => by
    change [("xc", writing)].lookup name = some p at hp
    rw [List.lookup_cons, List.lookup_nil] at hp
    split at hp
    · obtain rfl := Option.some.inj hp
      exact orderly_writing
    · cases hp

/-- A launcher that is kept under its own name is fetched and packaged, and both files are alike. -/
theorem housed_packaged : servedWorld.Orderly ∧ ∃ report w',
    (shipBuilder housed).build servedWorld = .ok report w' ∧
    report.packaged = [⟨"/p/o/bin/l"⟩] ∧ ∃ s d kept copied,
      w'.files.Finds ⟨"/p/bin/l"⟩ s kept ∧ w'.files.Finds ⟨"/p/o/bin/l"⟩ d copied ∧
      copied.bytes = kept.bytes := by
  have hship : endsWith [⟨"/p/o/bin/l"⟩]
      (fun w => decide (w.files.locate .target ⟨"/p/bin/l"⟩ = .ok ["p", "bin", "l"] ∧
        w.files.locate .target ⟨"/p/o/bin/l"⟩ = .ok ["p", "o", "bin", "l"]))
      ((shipBuilder housed).package (shipRun housed servedWorld).2) = true := by decide +kernel
  obtain ⟨report, w', hbuild, hpackaged, htest⟩ :=
    build_ship_ok (by decide +kernel) (by decide +kernel) (by decide +kernel) hship
  obtain ⟨hsource, htarget⟩ := of_decide_eq_true htest
  obtain ⟨_, _, hcontent, _⟩ := launchers_packaged (ofConfig_ship housed) orderly_served hbuild
  rw [hpackaged] at hcontent
  obtain ⟨s, d, kept, copied, hkept, hcopied, halike⟩ := hcontent 0 ⟨"l", ⟨"bin/l"⟩, none⟩ _ rfl rfl
  have hpath : (shipConfig housed).layout.source ⟨"bin/l"⟩ = ⟨"/p/bin/l"⟩ := by decide +kernel
  rw [hpath] at hkept
  obtain rfl := Except.ok.inj (hsource.symm.trans hkept.1)
  obtain rfl := Except.ok.inj (htarget.symm.trans hcopied.1)
  obtain ⟨hbytes, _⟩ := halike (by simp) (by simp)
  exact ⟨orderly_served, report, w', hbuild, hpackaged, _, _, kept, copied, hkept, hcopied, hbytes⟩

/-- **A launcher that is kept under another name is packaged under that one**, and no file is called as
the launcher is. -/
theorem misnamed_launcher : ∃ report w',
    (shipBuilder [⟨"mac", ⟨"x/foo"⟩, none⟩]).build servedWorld = .ok report w' ∧
    report.packaged = [⟨"/p/o/bin/foo"⟩] ∧ w'.files.present ⟨"/p/o/bin/mac"⟩ = false := by
  have hship : endsWith [⟨"/p/o/bin/foo"⟩] (fun w => !w.files.present ⟨"/p/o/bin/mac"⟩)
      ((shipBuilder [⟨"mac", ⟨"x/foo"⟩, none⟩]).package
        (shipRun [⟨"mac", ⟨"x/foo"⟩, none⟩] servedWorld).2) = true := by decide +kernel
  obtain ⟨report, w', hbuild, hpackaged, htest⟩ :=
    build_ship_ok (by decide +kernel) (by decide +kernel) (by decide +kernel) hship
  exact ⟨report, w', hbuild, hpackaged, by simpa using htest⟩

end Builder

end Rebuild
