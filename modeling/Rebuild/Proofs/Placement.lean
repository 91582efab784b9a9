/-
Putting files below one location.

Copying a tree, copying files and moving a file are work at a workplace, if the place that they put
files at lies below it.  A tree is copied to where its own names lead from the target, and names of a
plain file system do not lead out of it.

* `Workplace.keepsTo_copyTree`, `Workplace.keepsTo_copyFiles` — **copies below the location of a
  workplace are work there**, also if they fail on the way;
* `Workplace.worksOn_relocate` — a file that is moved between places that are not kept.
-/
import Rebuild.Proofs.FileSystem.Workplace
import Rebuild.Proofs.Programs

set_option relaxedAutoImplicit false
set_option autoImplicit false

namespace Rebuild

open World (OverFiles overFiles_onFiles)

theorem World.onFiles_eq_ok {ε α : Type} {wrap : IoError → ε} {act : Disk α} {w w' : World} {a : α}
    (h : World.onFiles wrap act w = .ok a w') : act w.files = .ok a w'.files := by
  unfold World.onFiles at h
  split at h
  · rename_i hact
    cases h
    exact hact
  · cases h

theorem Disk.change_eq_ok {f : FileSystem → Except IoError FileSystem} {fs fs' : FileSystem} {u : Unit}
    (h : Disk.change f fs = .ok u fs') : f fs = .ok fs' := by
  unfold Disk.change at h
  split at h
  · rename_i hf
    cases h
    exact hf
  · cases h

theorem require_eq_ok_iff {ok : FileSystem → Bool} {e : ActionError} {w w' : World} {u : Unit} :
    require ok e w = .ok u w' ↔ ok w.files = true ∧ w = w' := by
  unfold require
  split
  · rename_i hok
    simp [hok]
  · rename_i hok
    simp [hok]

theorem overFiles_makeParent {r : FileSystem → FileSystem → Prop} [IsPreorder FileSystem r]
    (h : ∀ p, KeepsTo r (Disk.makeDirectories p)) (p : Path) : KeepsTo (OverFiles r) (makeParent p) := by
  unfold makeParent
  split
  · exact overFiles_onFiles _ (h _)
  · exact KeepsTo.pure ()

/-- A file in a plain file system is at the place of its path. -/
theorem FileSystem.Plain.file_of_isFile {fs : FileSystem} {p : Path} (h : fs.Plain)
    (hfile : fs.isFile p = true) : ∃ data, fs.node? (p.place fs.workDir) = some (.file data) := by
  obtain ⟨n, hn, hkind⟩ := (Option.any_eq_true _ _).1 hfile
  obtain ⟨loc, hloc, hnode⟩ := FileSystem.lookup_eq_ok_iff.1 (FileSystem.stat?_eq_some_iff.1 hn)
  obtain ⟨rfl, _⟩ := h.locate (by simp) hloc
  cases n with
  | file data => exact ⟨data, hnode⟩
  | directory t => cases hkind
  | link target => cases hkind

namespace Workplace

variable {k : Workplace} {source target into : Path} {w w' : World}

/-- **A tree is copied to where its own names lead from the target.** -/
theorem keepsTo_copyTree (source : Path) (hout : k.out <+: target.place k.workDir) :
    KeepsTo (OverFiles k.WorksOn) (copyTree source target) := by
  refine keepsTo_copyTree_of fun w entries hentries hready => ?_
  rw [← Path.place_ofComponents_components] at hout
  have hnames : ∀ {rel n}, .ok (rel, n) ∈ entries → ∀ x ∈ rel, IsName x := by
    intro rel n he x hx
    obtain ⟨_, _, ⟨rfl, _⟩ | ⟨_, loc, _, hn⟩⟩ := FileSystem.mem_tree.1 (hentries _ he)
    · cases hx
    · exact hready.plain.isName hn x (List.mem_append_right loc hx)
  have hmake : ∀ p, KeepsTo k.WorksOn (Disk.makeDirectories p) := k.keepsTo_makeDirectories
  refine keepsTo_copyEntries_of (r := OverFiles k.WorksOn) (fun rel t _ => overFiles_onFiles _ (hmake _))
    (fun rel data _ => overFiles_makeParent hmake _) (fun rel data he => ?_) w hready
  refine overFiles_onFiles _ (keepsTo_copy ?_ _)
  rw [entryPath, Path.place_join_names (hnames he)]
  exact hout.trans (List.prefix_append _ rel)

/-- **Files are copied into the directory under their own names.** -/
theorem keepsTo_copyFiles (files : List Path) (hout : k.out <+: into.place k.workDir) :
    KeepsTo (OverFiles k.WorksOn) (copyFiles files into) := by
  refine keepsTo_copyFiles_of (overFiles_onFiles _ (k.keepsTo_makeDirectories into)) ?_
  intro file _ name hname
  refine overFiles_onFiles _ (keepsTo_copy ?_ _)
  rw [Path.place_join_name (Path.isName_of_fileName? hname)]
  exact hout.trans (List.prefix_append _ [name])

/-- **A file is moved below the location**, from and to places that are not kept. -/
theorem worksOn_relocate (hsource : k.out <+: source.place k.workDir)
    (htarget : k.out <+: target.place k.workDir) (hskept : ¬ k.kept (source.place k.workDir))
    (htkept : ¬ k.kept (target.place k.workDir)) (h : relocate source target w = .ok () w') :
    k.WorksOn w.files w'.files := by
  intro hready
  obtain ⟨_, _, hrequire, hmove⟩ := bind_eq_ok.1 h
  obtain ⟨hfile, rfl⟩ := require_eq_ok_iff.1 hrequire
  obtain ⟨_, mid, hparent, hrename⟩ := bind_eq_ok.1 hmove
  have hrename := Disk.change_eq_ok (World.onFiles_eq_ok hrename)
  -- the file is still there when the directories are made
  have hgrows : w.files.Grows mid.files :=
    (overFiles_makeParent Disk.keepsTo_makeDirectories target).of_ok hparent
  obtain ⟨data, hnode⟩ := hready.plain.file_of_isFile hfile
  have hmid : k.Leaves w.files mid.files :=
    (overFiles_makeParent k.keepsTo_makeDirectories target).of_ok hparent hready
  have hstill := hgrows.entry hnode rfl
  rw [← hgrows.workDir] at hstill
  exact hmid.trans (worksOn_rename hstill hsource htarget hskept htkept hrename hmid.ready)

end Workplace

end Rebuild
