/-
Writing files where paths lead.

A file is written over another one or to a place in a directory where nothing is; a link on the way is
followed, so nothing that is written takes the place of a link.  So what was there stays there and of its
kind, and the path of a file that was written leads to it from then on.

Main definitions:

* `FileSystem.Open` — **a file may be written there**;
* `FileSystem.Upholds` — a rooted file system stays one and retains what it had;
* `FileSystem.Provided` — the directory is there, or none is asked for.

Main results:

* `FileSystem.Retains.locate_of_creation` — where a file is written, its path leads ever after;
* `FileSystem.copy_eq_ok_iff` — what a copy reads and writes;
* `FileSystem.upholds_copy`, `Disk.upholds_makeDirectories` — **copies and new directories leave what was
  there of its kind**;
* `Disk.makeDirectories_eq_ok`, `Disk.makeDirectories_idle` — directories that were made are there, and
  where they are there nothing is made.
-/
import Rebuild.Proofs.FileSystem.MakeDirectories

set_option relaxedAutoImplicit false
set_option autoImplicit false

namespace Rebuild

namespace FileSystem

variable {fs fs' : FileSystem} {goal : Goal} {cur loc l : Location} {n : Node} {p q : Path} {x : String}

/-! ### Paths of what is created -/

theorem Retains.walkWith_of_creation (h : fs.Retains fs') (hgoal : goal ≠ .entry) (hend : fs'.Solid loc)
    {onLink onLink' : Location → List Step → Except IoError Location}
    (hlink : ∀ {cur steps}, onLink cur steps = .ok loc → onLink' cur steps = .ok loc)
    {steps : List Step} (hwalk : fs.walkWith .creation onLink cur steps = .ok loc) :
    fs'.walkWith goal onLink' cur steps = .ok loc := by
  induction steps generalizing cur with
  | nil => exact hwalk
  | cons step rest ih =>
      have hdir := isDirectoryAt_of_walkWith hwalk
      have hdir' := h.directory hdir
      match step with
      | .slash | .go .root | .go .here | .go .up =>
          rw [FileSystem.walkWith, if_pos hdir] at hwalk
          rw [FileSystem.walkWith, if_pos hdir']
          exact ih hwalk
      | .go (.name x) =>
          obtain ⟨_, hslash, hshort, hnext⟩ := walkWith_name_cases.1 hwalk
          have hslash' : ¬ (goal = .creation ∧ rest = [.slash]) := fun hq => hslash ⟨rfl, hq.2⟩
          refine walkWith_name_cases.2 ⟨hdir', hslash', hshort, Or.inr ?_⟩
          rcases hnext with
            ⟨_, _, rfl, rfl⟩ | ⟨n, hn, ⟨hpass, hnext⟩ | ⟨target, rfl, ⟨hentry, _⟩ | ⟨_, hnext⟩⟩⟩
          · -- something was put there in the meantime
            obtain ⟨n, hn, hkind⟩ := hend
            exact ⟨n, hn, Or.inl ⟨hkind, rfl⟩⟩
          · obtain ⟨n', hn', halike⟩ := h.entry hn
            exact ⟨n', hn', Or.inl ⟨halike.isLink_eq.trans hpass, ih hnext⟩⟩
          · cases hentry
          · exact ⟨_, h.link hn, Or.inr ⟨target, rfl, Or.inr ⟨fun hq => hgoal hq.1, hlink hnext⟩⟩⟩

theorem Retains.walk_of_creation (h : fs.Retains fs') (hgoal : goal ≠ .entry) (hend : fs'.Solid loc)
    {links : ℕ} {steps : List Step} (hwalk : fs.walk .creation links cur steps = .ok loc) :
    fs'.walk goal links cur steps = .ok loc := by
  -- on the links that may still be followed; each link starts a walk with one fewer
  induction links generalizing cur steps with
  | zero => exact h.walkWith_of_creation hgoal hend (fun hl => by cases hl) hwalk
  | succ links ih => exact h.walkWith_of_creation hgoal hend ih hwalk

/-- **Once something is where a path may create it, the path leads there.** -/
theorem Retains.locate_of_creation (h : fs.Retains fs') (hgoal : goal ≠ .entry)
    (hloc : fs.locate .creation p = .ok loc) (hend : fs'.Solid loc) : fs'.locate goal p = .ok loc := by
  unfold FileSystem.locate follow startOf at hloc ⊢
  rw [h.workDir]
  split at hloc
  · cases hloc
  · exact h.walk_of_creation hgoal hend hloc

/-! ### Places to write at -/

/-- A file may be written there: over another file, or where nothing is in a directory. -/
def Open (fs : FileSystem) (loc : Location) : Prop :=
  fs.Vacant loc ∨ ∃ data, fs.node? loc = some (.file data)

theorem Open.ne_nil (h : fs.Open loc) : loc ≠ [] := by
  rintro rfl
  rcases h with ⟨hnone, _⟩ | ⟨data, hn⟩
  · cases hnone
  · cases hn

theorem Open.isDirectoryAt_eq (h : fs.Open loc) : fs.isDirectoryAt loc = false := by
  rcases h with ⟨hnone, _⟩ | ⟨data, hn⟩
  · rw [isDirectoryAt, hnone]
    rfl
  · rw [isDirectoryAt, hn]
    rfl

theorem Open.alike (h : fs.Open loc) (hn : fs.node? loc = some n) (data : FileData) :
    n.Alike (.file data) := by
  rcases h with ⟨hnone, _⟩ | ⟨data', hn'⟩
  · rw [hnone] at hn
    cases hn
  · obtain rfl := Option.some.inj (hn'.symm.trans hn)
    exact .file data' data

theorem Rooted.parent_of_open (h : fs.Rooted) (hopen : fs.Open loc) :
    fs.isDirectoryAt loc.dropLast = true := by
  rcases hopen with ⟨_, hparent⟩ | ⟨data, hn⟩
  · exact hparent
  · exact h.parent hn

theorem writePlace_eq_ok_iff : fs.writePlace p = .ok loc ↔
    fs.locate .creation p = .ok loc ∧ fs.isDirectoryAt loc = false := by
  unfold writePlace
  cases hlocate : fs.locate .creation p with
  | error e => simp [bind, Except.bind]
  | ok place =>
      simp only [bind, Except.bind, Except.ok.injEq]
      split
      · rename_i hdir
        simp only [reduceCtorEq, false_iff, not_and, Bool.not_eq_false]
        rintro rfl
        exact hdir
      · rename_i hdir
        simp only [Except.ok.injEq]
        constructor
        · rintro rfl
          exact ⟨rfl, Bool.eq_false_iff.2 hdir⟩
        · exact fun h => h.1

/-- **A file is never written over a link.** -/
theorem Rooted.open_of_writePlace (h : fs.Rooted) (hplace : fs.writePlace p = .ok loc) :
    fs.Open loc := by
  obtain ⟨hloc, hdir⟩ := writePlace_eq_ok_iff.1 hplace
  rcases h.locate_ends (by simp) hloc with ⟨n, hn, hlink⟩ | ⟨_, hvacant⟩
  · cases n with
    | file data => exact Or.inr ⟨data, hn⟩
    | directory t =>
        rw [isDirectoryAt, hn] at hdir
        cases hdir
    | link target => cases hlink
  · exact Or.inl hvacant

/-! ### Copies -/

theorem readFile_eq_ok_iff {data : FileData} : fs.readFile p = .ok data ↔
    ∃ loc, fs.locate .target p = .ok loc ∧ fs.node? loc = some (.file data) := by
  unfold readFile
  rw [← lookup_eq_ok_iff]
  cases fs.lookup .target p with
  | error e => simp [bind, Except.bind]
  | ok n =>
      cases n <;> simp [bind, Except.bind]

/-- **What a copy reads and writes.**  A file that is copied onto itself ends up empty. -/
theorem copy_eq_ok_iff : fs.copy p q = .ok fs' ↔ ∃ (data : FileData) (place loc : Location),
    fs.locate .target p = .ok place ∧ fs.node? place = some (.file data) ∧ fs.writePlace q = .ok loc ∧
      fs' = fs.store loc
        (.file ⟨if loc = place then [] else data.bytes, fs.clock, data.executable⟩) := by
  unfold copy
  constructor
  · intro h
    cases hread : fs.readFile p with
    | error e =>
        rw [hread] at h
        cases h
    | ok data =>
        obtain ⟨place, hlocate, hn⟩ := readFile_eq_ok_iff.1 hread
        cases hplace : fs.writePlace q with
        | error e =>
            simp only [hread, hlocate, hplace, bind, Except.bind] at h
            cases h
        | ok loc =>
            simp only [hread, hlocate, hplace, bind, Except.bind, Except.ok.injEq] at h
            exact ⟨data, place, loc, hlocate, hn, rfl, h.symm⟩
  · rintro ⟨data, place, loc, hlocate, hn, hplace, rfl⟩
    have hread := readFile_eq_ok_iff.2 ⟨place, hlocate, hn⟩
    simp only [hread, hlocate, hplace, bind, Except.bind]

/-! ### What stays of its kind -/

theorem retains_of_sets (hs : fs.Sets loc (some n) fs')
    (hkind : ∀ m, fs.node? loc = some m → m.Alike n) : fs.Retains fs' := by
  refine ⟨hs.workDir, fun {l m} hm => ?_⟩
  by_cases hl : l = loc
  · subst hl
    exact ⟨n, hs.here, hkind m hm⟩
  · rcases hs.elsewhere hl with hsame | ⟨_, hdir, hdated⟩
    · exact ⟨m, hsame.trans hm, .refl m⟩
    · obtain ⟨t, ht⟩ := isDirectoryAt_eq_true_iff.1 hdir
      obtain rfl := Option.some.inj (ht.symm.trans hm)
      exact ⟨_, hdated, .directory ..⟩

/-- A rooted file system stays one and retains what it had. -/
def Upholds (fs fs' : FileSystem) : Prop := fs.Rooted → fs.Retains fs' ∧ fs'.Rooted

instance : IsPreorder FileSystem Upholds where
  refl := fun fs h => ⟨.refl fs, h⟩
  trans := fun _ _ _ h h' hroot => by
    obtain ⟨hfirst, hmid⟩ := h hroot
    obtain ⟨hsecond, hlast⟩ := h' hmid
    exact ⟨hfirst.trans hsecond, hlast⟩

theorem upholds_of_sets (hs : fs.Sets loc (some n) fs') (hdir : fs.isDirectoryAt loc = false)
    (hparent : fs.isDirectoryAt loc.dropLast = true)
    (hkind : ∀ m, fs.node? loc = some m → m.Alike n) : fs.Upholds fs' := fun h =>
  ⟨retains_of_sets hs hkind, h.of_sets hs hdir fun _ _ => hparent⟩

theorem upholds_makeDirectory (h : fs.makeDirectory p = .ok fs') : fs.Upholds fs' := by
  obtain ⟨loc, hslot, hnone, rfl⟩ := makeDirectory_eq_ok h
  obtain ⟨_, _, x, parent, _, _, hparent, _, rfl⟩ := slot_eq_ok hslot
  refine upholds_of_sets (sets_store (slot_ne_nil hslot) _) ?_ ?_ fun m hm => ?_
  · rw [isDirectoryAt, hnone]
    rfl
  · rwa [List.dropLast_concat]
  · rw [hnone] at hm
    cases hm

theorem upholds_writeFile {data : FileData} (h : fs.writeFile p data = .ok fs') :
    fs.Upholds fs' := by
  unfold writeFile at h
  cases hplace : fs.writePlace p with
  | error e =>
      rw [hplace] at h
      cases h
  | ok loc =>
      simp only [hplace, bind, Except.bind, Except.ok.injEq] at h
      subst h
      intro hroot
      have hopen := hroot.open_of_writePlace hplace
      exact upholds_of_sets (sets_store hopen.ne_nil _) hopen.isDirectoryAt_eq
        (hroot.parent_of_open hopen) (fun m hm => hopen.alike hm data) hroot

theorem upholds_copy (h : fs.copy p q = .ok fs') : fs.Upholds fs' := by
  obtain ⟨data, place, loc, _, _, hplace, rfl⟩ := copy_eq_ok_iff.1 h
  intro hroot
  have hopen := hroot.open_of_writePlace hplace
  exact upholds_of_sets (sets_store hopen.ne_nil _) hopen.isDirectoryAt_eq (hroot.parent_of_open hopen)
    (fun m hm => hopen.alike hm _) hroot

/-! ### What stays rooted -/

theorem movePlace_eq_ok (h : fs.movePlace p = .ok loc) : fs.slot .busy p = .ok loc ∧
    p.endsInSlash = false ∧ fs.isDirectoryAt loc = false := by
  unfold movePlace at h
  cases hslot : fs.slot .busy p with
  | error e =>
      rw [hslot] at h
      cases h
  | ok place =>
      simp only [hslot, bind, Except.bind] at h
      split at h
      · cases h
      · rename_i hslash
        split at h
        · cases h
        · rename_i hdir
          obtain rfl := Except.ok.inj h
          exact ⟨rfl, Bool.eq_false_iff.2 hslash, Bool.eq_false_iff.2 hdir⟩

theorem install_eq_ok {data : FileData} (h : fs.install p data = .ok fs') :
    ∃ loc, fs.movePlace p = .ok loc ∧ fs' = fs.replace loc (.file data) := by
  unfold install at h
  cases hplace : fs.movePlace p with
  | error e =>
      rw [hplace] at h
      cases h
  | ok loc =>
      simp only [hplace, bind, Except.bind] at h
      exact ⟨loc, rfl, (Except.ok.inj h).symm⟩

/-- Where something is moved to, it is in a directory and takes none away. -/
theorem movePlace_free (h : fs.movePlace p = .ok loc) : loc ≠ [] ∧ fs.isDirectoryAt loc = false ∧
    fs.isDirectoryAt loc.dropLast = true := by
  obtain ⟨hslot, _, hdir⟩ := movePlace_eq_ok h
  obtain ⟨_, _, x, parent, _, _, hparent, _, rfl⟩ := slot_eq_ok hslot
  exact ⟨by simp, hdir, by rwa [List.dropLast_concat]⟩

theorem Rooted.install {data : FileData} (h : fs.Rooted) (hok : fs.install p data = .ok fs') :
    fs'.Rooted := by
  obtain ⟨loc, hplace, rfl⟩ := install_eq_ok hok
  obtain ⟨hnil, hdir, hparent⟩ := movePlace_free hplace
  exact h.of_sets (sets_replace hnil _) hdir fun _ _ => hparent

/-- **A file that is moved leaves a file system rooted.**  (So would a link, but not a directory that is
moved into itself.) -/
theorem Rooted.rename (h : fs.Rooted) (hfile : fs.isFile p = true) (hok : fs.rename p q = .ok fs') :
    fs'.Rooted := by
  unfold FileSystem.rename at hok
  cases hplace : fs.locate .entry p with
  | error e =>
      rw [hplace] at hok
      cases hok
  | ok place =>
      cases hn : fs.node? place with
      | none =>
          simp only [hplace, hn, bind, Except.bind] at hok
          cases hok
      | some n =>
          cases hmove : fs.movePlace q with
          | error e =>
              simp only [hplace, hn, hmove, bind, Except.bind] at hok
              cases hok
          | ok loc =>
              simp only [hplace, hn, hmove, bind, Except.bind] at hok
              split at hok
              · cases hok
                exact h
              · rename_i hne
                cases hok
                have hnodir : fs.isDirectoryAt place = false := by
                  rw [Bool.eq_false_iff]
                  intro hdir
                  obtain ⟨t, ht⟩ := isDirectoryAt_eq_true_iff.1 hdir
                  have htarget := locate_target_of_entry hplace fun target hlink => by
                    rw [ht] at hlink
                    cases hlink
                  rw [isFile, stat?_eq_some_iff.2 (lookup_eq_ok_iff.2 ⟨place, htarget, ht⟩)] at hfile
                  cases hfile
                have hnil : place ≠ [] := by
                  rintro rfl
                  cases hnodir
                have hremove := h.sets_remove hnil hnodir
                obtain ⟨hlocnil, hdir, hparent⟩ := movePlace_free hmove
                -- the directory that it goes to is not what was removed
                have hother : loc.dropLast ≠ place := by
                  rintro rfl
                  exact Bool.false_ne_true (hnodir.symm.trans hparent)
                have hmid : (fs.remove place).Rooted := h.of_sets hremove hnodir fun _ hnone => by
                  cases hnone
                refine hmid.of_sets (sets_replace hlocnil n) ?_ fun _ _ => ?_
                · rwa [hremove.isDirectoryAt_eq hne]
                · rwa [hremove.isDirectoryAt_eq hother]

/-! ### Directories that were made -/

/-- There is nothing to make: the directory is there, or the path is empty and asks for none. -/
def Provided (fs : FileSystem) (p : Path) : Prop := p.text.isEmpty = true ∨ fs.isDirectory p = true

theorem Retains.provided (h : fs.Retains fs') (hp : fs.Provided p) : fs'.Provided p :=
  hp.imp_right h.isDirectory

/-- What is provided is at the place of the path. -/
theorem Sound.isDirectoryAt_of_provided (h : fs.Sound) (hlinks : fs.Unlinked p) (hp : fs.Provided p) :
    fs.isDirectoryAt (p.place fs.workDir) = true := by
  rcases hp with htext | hdir
  · have hplace : p.place fs.workDir = fs.workDir := by
      rw [Path.place, Path.steps, Path.isAbsolute, String.isEmpty_iff.1 htext]
      rfl
    rw [hplace]
    exact h.workDir
  · obtain ⟨n, hn, hkind⟩ := (Option.any_eq_true _ _).1 hdir
    obtain ⟨loc, hloc, hnode⟩ := lookup_eq_ok_iff.1 (stat?_eq_some_iff.1 hn)
    obtain ⟨rfl, _⟩ := h.locate hlinks (by simp) hloc
    rw [isDirectoryAt, hnode]
    exact hkind

/-- Where a directory is provided, everything on the way to it is there. -/
theorem Sound.isSome_of_provided (h : fs.Sound) (hlinks : fs.Unlinked p) (hp : fs.Provided p)
    {l : Location} (hl : l ∈ p.way fs.workDir) : (fs.node? l).isSome = true := by
  rcases hp with htext | hdir
  · have hway : p.way fs.workDir = [fs.workDir] := by
      rw [Path.way, Path.steps, Path.isAbsolute, String.isEmpty_iff.1 htext]
      rfl
    rw [hway, List.mem_singleton] at hl
    exact hl ▸ isSome_of_isDirectoryAt h.workDir
  · obtain ⟨n, hn, _⟩ := (Option.any_eq_true _ _).1 hdir
    obtain ⟨loc, hloc, _⟩ := lookup_eq_ok_iff.1 (stat?_eq_some_iff.1 hn)
    exact h.isSome_of_mem_way hlinks (by simp) hloc hl

/-- A directory that was made is where its path leads. -/
theorem isDirectory_of_makeDirectory (h : fs.makeDirectory p = .ok fs') :
    fs'.isDirectory p = true := by
  have hgrows := grows_makeDirectory h
  obtain ⟨loc, hslot, _, rfl⟩ := makeDirectory_eq_ok h
  obtain ⟨hfault, front, x, parent, hsteps, hwalk, hdir, hshort, rfl⟩ := slot_eq_ok hslot
  have hsets : fs.Sets (parent ++ [x]) _ _ := sets_store (slot_ne_nil hslot) (.directory fs.clock)
  have hhere := hsets.here
  generalize fs.store (parent ++ [x]) (.directory fs.clock) = made at hgrows hhere
  have hnew : made.isDirectoryAt (parent ++ [x]) = true := by
    rw [isDirectoryAt, hhere]
    rfl
  -- the last step goes to the new directory, and a slash may follow
  obtain ⟨tail, hsplit, hidle⟩ : ∃ tail, p.walkSteps = front.map .go ++ .go (.name x) :: tail ∧
      ∀ onLink, made.walkWith .target onLink (parent ++ [x]) tail = .ok (parent ++ [x]) := by
    have hgo : p.steps.map Step.go = front.map .go ++ [.go (.name x)] := by
      rw [hsteps, List.map_append, List.map_singleton]
    rcases p.walkSteps_eq with heq | heq
    · exact ⟨[], heq.trans hgo, fun _ => rfl⟩
    · refine ⟨[.slash], by rw [heq, hgo, List.append_assoc]; rfl, fun onLink => ?_⟩
      rw [walkWith, if_pos hnew]
      rfl
  have hloc : made.locate .target p = .ok (parent ++ [x]) := by
    obtain ⟨left, hrest⟩ := walk_rest (hgrows.walk (by simp) hwalk) (.go (.name x) :: tail)
    obtain ⟨onLink, heq⟩ := exists_walk_eq made .target left
    have hstart : made.startOf p = fs.startOf p := by rw [startOf, hgrows.workDir, startOf]
    rw [locate, hfault]
    dsimp only
    rw [follow, hsplit, hstart, hrest, heq]
    exact (walkWith_name_iff (by simp)).2
      ⟨hgrows.directory hdir, hshort, _, hhere, Or.inl ⟨rfl, hidle onLink⟩⟩
  rw [isDirectory, stat?_eq_some_iff.2 (lookup_eq_ok_iff.2 ⟨_, hloc, hhere⟩)]
  rfl

end FileSystem

namespace Disk

variable {fs fs' : FileSystem} {p : Path} {above : List Path} {u : Unit}

/-- What making a directory keeps of a rooted file system. -/
theorem upholds_makeDirectories (p : Path) : KeepsTo FileSystem.Upholds (makeDirectories p) :=
  keepsTo_makeFirst fun _ => FileSystem.upholds_makeDirectory

/-- Directories that are made are all that is new. -/
theorem widens_makeDirectories (p : Path) : KeepsTo FileSystem.Widens (makeDirectories p) :=
  keepsTo_makeFirst fun _ => FileSystem.widens_makeDirectory

/-- The directories that are made above a path are on its way. -/
theorem way_of_makeDirectory {q : Path} (hq : q ∈ ancestors p) (hok : fs.makeDirectory q = .ok fs')
    (s : Location) : q.way s ⊆ p.way s := by
  rcases List.mem_cons.1 hq with rfl | hq
  · exact fun _ hl => hl
  · obtain ⟨n, _, rfl⟩ := List.mem_map.1 hq
    refine p.way_ofComponents fun htext => ?_
    -- the empty path has no last name
    obtain ⟨_, hslot, _⟩ := FileSystem.makeDirectory_eq_ok hok
    obtain ⟨_, front, x, _, hsteps, _⟩ := FileSystem.slot_eq_ok hslot
    rw [Path.steps, htext] at hsteps
    exact List.append_ne_nil_of_right_ne_nil front (List.cons_ne_nil _ _) hsteps.symm

theorem isDirectory_of_settle {e : IoError} (h : settle p e fs = .ok u fs') :
    fs'.isDirectory p = true := by
  unfold settle at h
  split at h
  · rename_i hdir
    cases h
    exact hdir
  · cases h

/-- **Directories that were made are there.** -/
theorem makeDirectories_eq_ok (h : makeDirectories p fs = .ok u fs') : fs'.Provided p := by
  unfold makeDirectories ancestors at h
  generalize List.map _ _ = above at h
  have hmakes := makes p above fs
  generalize hresult : makeFirst (p :: above) fs = result at h hmakes
  cases hmakes with
  | idle htext => exact Or.inl htext
  | once hmake | after _ _ hmake =>
      cases h
      exact Or.inr (FileSystem.isDirectory_of_makeDirectory hmake)
  | refused _ _ | still _ _ _ => exact Or.inr (isDirectory_of_settle h)
  | stuck _ _ => cases h

/-- Where the directory is there already, nothing is made. -/
theorem makeDirectories_idle (h : fs.Provided p) :
    makeDirectories p fs = .ok () fs := by
  rcases h with htext | hdir
  · change (if p.text.isEmpty then _ else _) = _
    rw [if_pos htext]
  · exact makeFirst_of_isDirectory hdir

end Disk

end Rebuild
