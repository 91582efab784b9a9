/-
What a build can start stays the same while it runs.

A build changes files and asks the network, but the programs that it can start are given from outside:
no action takes one away or puts another in its place.  Most actions start no program at all, and keep
to every relation that looks neither at files nor at the network.

* `World.Indifferent` — such a relation;
* `World.OverFiles` — a relation that looks at files alone, with `World.overFiles_onFiles`;
* `keepsTo_copyTree`, `keepsTo_copyFiles`, `keepsTo_relocate`, `Builder.keepsTo_obtain` — **what starts
  no program keeps to it**;
* `keepsTo_copyTree_of`, `keepsTo_copyFiles_of`, `Builder.keepsTo_runTask_of` — what the steps of an
  action keep to, it keeps to;
* `World.SamePrograms` — two worlds with the same programs;
* `Builder.samePrograms_runTask` — no task changes the programs.
-/
import Rebuild.Build
import Rebuild.Proofs.Action
import Rebuild.Proofs.FileSystem.Scan

set_option relaxedAutoImplicit false
set_option autoImplicit false

namespace Rebuild

namespace World

/-- A relation between worlds that time and further requests leave as it is. -/
class Patient (r : World → World → Prop) : Prop extends IsPreorder World r where
  wait : ∀ w d, r w (w.wait d)
  network : ∀ w n, r w { w with network := n }

/-- A relation between worlds that changed files and further requests leave as it is. -/
class Indifferent (r : World → World → Prop) : Prop extends IsPreorder World r where
  files : ∀ w fs, r w { w with files := fs }
  network : ∀ w n, r w { w with network := n }

instance {r : World → World → Prop} [Indifferent r] : Patient r where
  wait := fun w d => Indifferent.files w (w.files.elapse d.toNanos)
  network := Indifferent.network

/-- The same programs can be started in both worlds. -/
def SamePrograms (w w' : World) : Prop := w'.programs = w.programs

instance : Indifferent SamePrograms where
  refl := fun _ => rfl
  trans := fun _ _ _ h h' => Eq.trans h' h
  files := fun _ _ => rfl
  network := fun _ _ => rfl

/-- The files of two worlds are related. -/
def OverFiles (r : FileSystem → FileSystem → Prop) (w w' : World) : Prop := r w.files w'.files

instance {r : FileSystem → FileSystem → Prop} [IsPreorder FileSystem r] :
    IsPreorder World (OverFiles r) where
  refl := fun w => refl (r := r) w.files
  trans := fun _ _ _ h h' => IsTrans.trans (r := r) _ _ _ h h'

/-- What a change of files keeps to, it keeps to in a world. -/
theorem overFiles_onFiles {r : FileSystem → FileSystem → Prop} {ε α : Type} (wrap : IoError → ε)
    {act : Disk α} (h : KeepsTo r act) : KeepsTo (OverFiles r) (onFiles wrap act) := by
  intro w
  have hact := h w.files
  unfold onFiles
  cases hend : act w.files with
  | ok a fs => rwa [hend] at hact
  | error e fs => rwa [hend] at hact

theorem keepsTo_onFiles {r : World → World → Prop} [Indifferent r] {ε α : Type} (wrap : IoError → ε)
    (act : Disk α) : KeepsTo r (onFiles wrap act) := by
  intro w
  unfold onFiles
  cases act w.files with
  | ok a fs => exact Indifferent.files w fs
  | error e fs => exact Indifferent.files w fs

end World

open World (Indifferent SamePrograms keepsTo_onFiles)

/-! ### Actions of tasks -/

theorem keepsTo_require {r : World → World → Prop} [IsPreorder World r] (ok : FileSystem → Bool)
    (e : ActionError) : KeepsTo r (require ok e) := by
  intro w
  unfold require
  split
  · exact refl w
  · exact refl w

section

variable {r : World → World → Prop} [IsPreorder World r] {source target into : Path}

/-- **What making directories and single copies keep to, copying entries keeps to.** -/
theorem keepsTo_copyEntries_of {entries : List (Except IoError (Location × Node))}
    (hdirectory : ∀ rel t, .ok (rel, .directory t) ∈ entries →
      KeepsTo r (World.onFiles ActionError.io (Disk.makeDirectories (entryPath target rel))))
    (hparent : ∀ rel data, .ok (rel, .file data) ∈ entries →
      KeepsTo r (makeParent (entryPath target rel)))
    (hfile : ∀ rel data, .ok (rel, .file data) ∈ entries → KeepsTo r (World.onFiles ActionError.io
      (Disk.change (·.copy (entryPath source rel) (entryPath target rel))))) :
    KeepsTo r (copyEntries source target entries) := by
  induction entries with
  | nil => exact KeepsTo.pure 0
  | cons e rest ih =>
      obtain cause | ⟨rel, node⟩ := e
      · exact KeepsTo.throw (ActionError.io cause)
      have hrest := ih (fun rel t h => hdirectory rel t (List.mem_cons_of_mem _ h))
        (fun rel data h => hparent rel data (List.mem_cons_of_mem _ h))
        fun rel data h => hfile rel data (List.mem_cons_of_mem _ h)
      unfold copyEntries
      cases node with
      | directory t => exact (hdirectory rel t (List.mem_cons_self ..)).bind fun _ => hrest
      | link path => exact hrest
      | file data =>
          refine (hparent rel data (List.mem_cons_self ..)).bind fun _ => ?_
          refine (hfile rel data (List.mem_cons_self ..)).bind fun _ => ?_
          exact hrest.bind fun n => KeepsTo.pure (n + 1)

/-- A tree is copied entry by entry, as it stands when it is scanned. -/
theorem keepsTo_copyTree_of (h : ∀ (w : World) (entries : List (Except IoError (Location × Node))),
      (∀ e, .ok e ∈ entries → e ∈ w.files.tree source) →
        r w (endOf (copyEntries source (.ofComponents target.components) entries w))) :
    KeepsTo r (copyTree source target) := by
  have hscan : ∀ (w : World) (entries : List (Except IoError (Location × Node))),
      entries ⊆ w.files.scan source → ∀ e, .ok e ∈ entries → e ∈ w.files.tree source :=
    fun w entries hsub e he => (FileSystem.ok_mem_scan.1 (hsub he)).1
  refine (keepsTo_require _ _).bind fun _ => KeepsTo.get_bind fun w => ?_
  refine bind_of_keepsTo (h w _ (hscan w _ (List.take_subset 1 _))) fun first => ?_
  refine (keepsTo_require _ _).bind fun _ => KeepsTo.get_bind fun w => ?_
  refine bind_of_keepsTo (h w _ (hscan w _ (List.drop_subset 1 _))) fun rest => ?_
  exact KeepsTo.pure (first + rest)

/-- A file that has a name is copied under it, or refused. -/
theorem keepsTo_copyInto_of {file : Path} (hcopy : ∀ name, file.fileName? = some name →
      KeepsTo r (World.onFiles ActionError.io (Disk.change (·.copy file (into.join ⟨name⟩))))) :
    KeepsTo r (copyInto into file) := by
  unfold copyInto
  split
  · exact KeepsTo.throw _
  · rename_i name hname
    refine (keepsTo_require _ _).bind fun _ => ?_
    exact (hcopy name hname).bind fun _ => KeepsTo.pure _

/-- **What making a directory and single copies keep to, copying files into it keeps to.** -/
theorem keepsTo_copyFiles_of {files : List Path}
    (hmake : KeepsTo r (World.onFiles ActionError.io (Disk.makeDirectories into)))
    (hcopy : ∀ file ∈ files, ∀ name, file.fileName? = some name →
      KeepsTo r (World.onFiles ActionError.io (Disk.change (·.copy file (into.join ⟨name⟩))))) :
    KeepsTo r (copyFiles files into) := by
  refine hmake.bind fun _ => ?_
  induction files with
  | nil => exact KeepsTo.pure []
  | cons file rest ih =>
      have hrest := ih fun file hfile => hcopy file (List.mem_cons_of_mem _ hfile)
      refine (keepsTo_copyInto_of (hcopy file (List.mem_cons_self ..))).bind fun dest => ?_
      exact hrest.bind fun dests => KeepsTo.pure _

end

variable {r : World → World → Prop} [Indifferent r]

theorem keepsTo_makeParent (p : Path) : KeepsTo r (makeParent p) := by
  unfold makeParent
  split
  · exact keepsTo_onFiles _ _
  · exact KeepsTo.pure ()

theorem keepsTo_copyTree (source target : Path) : KeepsTo r (copyTree source target) :=
  keepsTo_copyTree_of fun w _ _ => keepsTo_copyEntries_of (fun _ _ _ => keepsTo_onFiles _ _)
    (fun _ _ _ => keepsTo_makeParent _) (fun _ _ _ => keepsTo_onFiles _ _) w

theorem keepsTo_copyFiles (files : List Path) (into : Path) : KeepsTo r (copyFiles files into) :=
  keepsTo_copyFiles_of (keepsTo_onFiles _ _) fun _ _ _ _ => keepsTo_onFiles _ _

theorem keepsTo_relocate (source target : Path) : KeepsTo r (relocate source target) :=
  (keepsTo_require _ _).bind fun _ => (keepsTo_makeParent target).bind fun _ => keepsTo_onFiles _ _

theorem keepsTo_start (program : String) (arguments : List String) (limit : Option Duration) :
    KeepsTo SamePrograms (start program arguments limit) := by
  intro w
  unfold start
  split
  · rfl
  · split <;> rfl

/-- **What making directories and starting programs keep to, compiling keeps to.** -/
theorem keepsTo_compile_of {r : World → World → Prop} [IsPreorder World r] {command : CompilerCommand}
    {request : CompileRequest} {limit : Option Duration}
    (hmake : KeepsTo r (World.onFiles ActionError.io (Disk.makeDirectories request.outputDir)))
    (hstart : KeepsTo r (start command.program (command.arguments request) limit)) :
    KeepsTo r (compile command request limit) := by
  refine hmake.bind fun _ => hstart.bind fun ending => ?_
  cases judgeEnding request.module limit ending with
  | ok output => exact KeepsTo.pure output
  | error e => exact KeepsTo.throw e

/-! ### Tasks and launchers -/

namespace Builder

variable (b : Builder)

/-- Checking dependencies changes nothing at all. -/
theorem keepsTo_eq_checkDeps (m : Module) (deps : List String) : KeepsTo Eq (b.checkDeps m deps) := by
  induction deps with
  | nil => exact KeepsTo.pure ()
  | cons name rest ih =>
      refine KeepsTo.bind ?_ fun _ => ih
      unfold checkDep
      split
      · exact KeepsTo.throw _
      · intro w
        dsimp only
        split <;> rfl

theorem keepsTo_checkDeps {r : World → World → Prop} [IsPreorder World r] (m : Module)
    (deps : List String) : KeepsTo r (b.checkDeps m deps) := by
  intro w
  rw [← b.keepsTo_eq_checkDeps m deps w]
  exact refl w

theorem keepsTo_relocateAll_of {r : World → World → Prop} [IsPreorder World r]
    (h : ∀ source target, KeepsTo r (relocate source target)) (layout : Layout)
    (relocations : List Relocation) : KeepsTo r (relocateAll layout relocations) := by
  induction relocations with
  | nil => exact KeepsTo.pure ()
  | cons r rest ih => exact (h _ _).bind fun _ => ih

/-- **What every action keeps to, every task keeps to.** -/
theorem keepsTo_runTask_of {r : World → World → Prop} [IsPreorder World r]
    (hcompile : ∀ command request limit, KeepsTo r (compile command request limit))
    (hrelocate : ∀ source target, KeepsTo r (relocate source target))
    (hcopyTree : ∀ source target, KeepsTo r (copyTree source target))
    (hcopyFiles : ∀ files into, KeepsTo r (copyFiles files into)) (t : Task) :
    KeepsTo r (b.runTask t) := by
  unfold runTask
  dsimp only
  split
  · split
    · exact KeepsTo.throw _
    · rename_i m _
      refine (b.keepsTo_checkDeps m m.deps).bind fun _ => ?_
      exact (hcompile _ _ _).discard.bind fun _ => keepsTo_relocateAll_of hrelocate _ _
  · exact (hcopyTree _ _).discard
  · exact (hcopyFiles _ _).discard

/-- **No task changes the programs.** -/
theorem samePrograms_runTask (t : Task) : KeepsTo SamePrograms (b.runTask t) :=
  b.keepsTo_runTask_of
    (fun _ _ _ => keepsTo_compile_of (keepsTo_onFiles _ _) (keepsTo_start _ _ _))
    keepsTo_relocate keepsTo_copyTree keepsTo_copyFiles t

end Builder

section Launchers

variable {r : World → World → Prop} [World.Patient r]

theorem keepsTo_request (url : String) : KeepsTo r (request url) := by
  intro w
  unfold request
  split
  · exact refl w
  · dsimp only
    split
    · split <;> exact World.Patient.network w _
    · exact refl w

theorem keepsTo_requestAgain (url : String) (more : ℕ) (delay : Duration) :
    KeepsTo r (requestAgain url more delay) := by
  induction more generalizing delay with
  | zero => exact keepsTo_request url
  | succ more ih =>
      intro w
      have hfirst := keepsTo_request (r := r) url
      unfold requestAgain
      cases h : request url w with
      | ok body w' => exact hfirst.of_ok h
      | error message w' =>
          exact IsTrans.trans _ _ _
            (IsTrans.trans _ _ _ (hfirst.of_error h) (World.Patient.wait w' delay))
            (ih delay.double (w'.wait delay))

theorem keepsTo_ensureLauncher {dest : Path}
    (hinstall : ∀ bytes, KeepsTo r (World.onFiles (FetchError.write dest) (installProgram dest bytes)))
    (l : Launcher) (baseUrl : String) (retry : RetryPolicy) :
    KeepsTo r (ensureLauncher l dest baseUrl retry) := by
  refine KeepsTo.get.bind fun w => ?_
  split
  · exact KeepsTo.pure _
  · refine KeepsTo.bind (fun w => ?_) fun bytes => ?_
    · have hasked := keepsTo_requestAgain (r := r) (launcherUrl baseUrl l.file) (retry.total - 1)
        retry.initialDelay
      unfold download
      split
      · rename_i h
        exact hasked.of_ok h
      · rename_i h
        exact hasked.of_error h
    · split
      · exact KeepsTo.throw _
      · exact (hinstall bytes).bind fun _ => KeepsTo.pure _

/-- **Fetching launchers keeps to what installing each of them does.** -/
theorem Builder.keepsTo_obtain_of_install (b : Builder) {launchers : List Launcher}
    (hinstall : ∀ l ∈ launchers, ∀ bytes, KeepsTo r (World.onFiles
      (FetchError.write (b.config.layout.source l.path))
      (installProgram (b.config.layout.source l.path) bytes)))
    (w : World) : r w (b.obtain launchers w).2 := by
  induction launchers generalizing w with
  | nil => exact refl w
  | cons l ls ih =>
      have hfirst : r w (b.fetch l w).2 := by
        have hensure := keepsTo_ensureLauncher (hinstall l (List.mem_cons_self ..)) l
          b.config.launcherBaseUrl b.config.fetchRetry
        unfold fetch
        split
        · rename_i h
          exact hensure.of_ok h
        · rename_i h
          exact hensure.of_error h
      rw [obtain]
      exact IsTrans.trans _ _ _ hfirst
        (ih (fun l hl => hinstall l (List.mem_cons_of_mem _ hl)) (b.fetch l w).2)

end Launchers

/-- **Fetching launchers starts no program.** -/
theorem Builder.keepsTo_obtain (b : Builder) (launchers : List Launcher) (w : World) :
    r w (b.obtain launchers w).2 :=
  b.keepsTo_obtain_of_install (fun _ _ _ => keepsTo_onFiles _ _) w

end Rebuild
