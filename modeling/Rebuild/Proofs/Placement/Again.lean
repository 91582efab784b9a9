/-
Copying a tree once more.

When a tree was copied, there is a directory for each of its directories and a file for each of its
files.  Copying it once more then makes nothing and writes each file as it is; only the times of the
copies are new.

Main definitions:

* `FileSystem.Redated` — files were written again as they were;
* `Laid` — an entry is where it would be copied to, as it is.

Main results:

* `copyTree_eq_ok_iff` — a tree is copied in two steps;
* `copyEntries_eq_ok` — when a copying went well, there was nothing that could not be read;
* `copyEntries_again` — what is laid is copied once more, by induction on the entries;
* `copyTree_again` — **a tree that is laid already is copied once more**.
-/
import Rebuild.Proofs.FileSystem.Listing
import Rebuild.Proofs.FileSystem.Writing
import Rebuild.Proofs.Placement

set_option relaxedAutoImplicit false
set_option autoImplicit false

namespace Rebuild

/-! ### Files that were written again -/

namespace FileSystem

variable {fs fs' fs'' : FileSystem}

/-- Files may have been written again as they were; nothing else is different. -/
structure Redated (fs fs' : FileSystem) : Prop where
  workDir : fs'.workDir = fs.workDir
  entry : ∀ l, fs'.node? l = fs.node? l ∨ ∃ (data : FileData) (t : Time),
    fs.node? l = some (.file data) ∧ fs'.node? l = some (.file { data with time := t })

namespace Redated

theorem refl (fs : FileSystem) : fs.Redated fs := ⟨rfl, fun _ => Or.inl rfl⟩

theorem trans (h : fs.Redated fs') (h' : fs'.Redated fs'') : fs.Redated fs'' := by
  refine ⟨h'.workDir.trans h.workDir, fun l => ?_⟩
  rcases h'.entry l with hsame | ⟨data, t, hold, hnew⟩
  · rcases h.entry l with hsame' | ⟨data, t, hold, hnew⟩
    · exact Or.inl (hsame.trans hsame')
    · exact Or.inr ⟨data, t, hold, hsame.trans hnew⟩
  · rcases h.entry l with hsame' | ⟨data', t', hold', hnew'⟩
    · exact Or.inr ⟨data, t, hsame' ▸ hold, hnew⟩
    · obtain rfl := Node.file.inj (Option.some.inj (hold.symm.trans hnew'))
      exact Or.inr ⟨data', t, hold', hnew⟩

theorem retains (h : fs.Redated fs') : fs.Retains fs' := by
  refine ⟨h.workDir, fun {l n} hn => ?_⟩
  rcases h.entry l with hsame | ⟨data, t, hold, hnew⟩
  · exact ⟨n, hsame.trans hn, .refl n⟩
  · obtain rfl := Option.some.inj (hold.symm.trans hn)
    exact ⟨_, hnew, .file ..⟩

/-- A file still holds what it held. -/
theorem file {l : Location} {data : FileData} (h : fs.Redated fs') (hn : fs.node? l = some (.file data)) :
    ∃ t, fs'.node? l = some (.file { data with time := t }) := by
  rcases h.entry l with hsame | ⟨data', t, hold, hnew⟩
  · exact ⟨data.time, hsame.trans hn⟩
  · obtain rfl := Node.file.inj (Option.some.inj (hn.symm.trans hold))
    exact ⟨t, hnew⟩

end Redated

/-- Paths to apart places do not lead below each other. -/
theorem Sound.isBelow_eq_false {p q : Path} (h : fs.Sound) (hp : fs.Unlinked p) (hq : fs.Unlinked q)
    (hapart : ¬ q.place fs.workDir <+: p.place fs.workDir) : isBelow fs p q = false := by
  unfold isBelow
  split
  · rename_i a b ha hb
    obtain ⟨rfl, _⟩ := h.locate hp (by simp) ha
    obtain ⟨rfl, _⟩ := h.locate hq (by simp) hb
    have hpre : ((q.place fs.workDir).isPrefixOf (p.place fs.workDir)) = false := by
      rw [Bool.eq_false_iff]
      exact fun hpre => hapart (List.isPrefixOf_iff_prefix.1 hpre)
    simp [hpre]
  · rfl

end FileSystem

/-- The entry is where it would be copied to, as it is. -/
inductive Laid (source target : Path) (fs : FileSystem) : Location × Node → Prop
  | directory {rel : Location} {t : Time} (h : fs.Provided (entryPath target rel)) :
      Laid source target fs (rel, .directory t)
  | file {rel s d : Location} {data kept copied : FileData}
      (hparent : ∀ p, (entryPath target rel).parent? = some p → fs.Provided p)
      (hsource : fs.locate .target (entryPath source rel) = .ok s)
      (hkept : fs.node? s = some (.file kept))
      (htarget : fs.locate .creation (entryPath target rel) = .ok d)
      (hcopied : fs.node? d = some (.file copied)) (hne : d ≠ s) (hbytes : copied.bytes = kept.bytes)
      (hexecutable : copied.executable = kept.executable) : Laid source target fs (rel, .file data)
  | link {rel : Location} {link : Path} : Laid source target fs (rel, .link link)

section

variable {source target : Path} {fs fs' : FileSystem} {w : World} {e : Location × Node}

theorem Laid.redated (h : Laid source target fs e) (hre : fs.Redated fs') :
    Laid source target fs' e := by
  cases h with
  | directory h => exact .directory (hre.retains.provided h)
  | file hparent hsource hkept htarget hcopied hne hbytes hexecutable =>
      obtain ⟨_, hkept'⟩ := hre.file hkept
      obtain ⟨_, hcopied'⟩ := hre.file hcopied
      exact .file (fun p hp => hre.retains.provided (hparent p hp))
        (hre.retains.locate (by simp) hsource) hkept'
        (hre.retains.locate_of_creation (by simp) htarget ⟨_, hcopied', rfl⟩) hcopied' hne hbytes
        hexecutable
  | link => exact .link

theorem makeDirectories_provided {p : Path} (h : w.files.Provided p) :
    World.onFiles ActionError.io (Disk.makeDirectories p) w = .ok () w := by
  rw [World.onFiles, Disk.makeDirectories_idle h]

theorem makeParent_provided {p : Path} (h : ∀ q, p.parent? = some q → w.files.Provided q) :
    makeParent p w = .ok () w := by
  rw [makeParent]
  cases hq : p.parent? with
  | none => rfl
  | some q => exact makeDirectories_provided (h q hq)

/-- A file that is there already is written again. -/
theorem copy_laid {rel : Location} {data : FileData} (h : Laid source target w.files (rel, .file data)) :
    ∃ w' : World, makeParent (entryPath target rel) w = .ok () w ∧
      World.onFiles ActionError.io
        (Disk.change (·.copy (entryPath source rel) (entryPath target rel))) w = .ok () w' ∧
      w.files.Redated w'.files := by
  cases h with
  | @file _ s d _ kept copied hparent hsource hkept htarget hcopied hne hbytes hexecutable =>
      have hnodir : w.files.isDirectoryAt d = false := by
        rw [FileSystem.isDirectoryAt, hcopied]
        rfl
      have hnil : d ≠ [] := by
        rintro rfl
        cases hnodir
      have hok : w.files.copy (entryPath source rel) (entryPath target rel) = .ok _ :=
        FileSystem.copy_eq_ok_iff.2 ⟨kept, s, d, hsource, hkept,
          FileSystem.writePlace_eq_ok_iff.2 ⟨htarget, hnodir⟩, rfl⟩
      rw [if_neg hne, ← hbytes, ← hexecutable] at hok
      refine ⟨{ w with files := w.files.store d (.file { copied with time := w.files.clock }) },
        makeParent_provided hparent, ?_, ?_⟩
      · rw [World.onFiles, Disk.change, hok]
      · refine ⟨(FileSystem.sets_store hnil _).workDir, fun l => ?_⟩
        by_cases hl : l = d
        · subst hl
          exact Or.inr ⟨copied, w.files.clock, hcopied, (FileSystem.sets_store hnil _).here⟩
        · rcases FileSystem.elsewhere_store hnil _ hl with hsame | ⟨hnone, _⟩
          · exact Or.inl hsame
          · rw [hcopied] at hnone
            cases hnone

/-- **What is laid is copied once more**, and every file is written as it was. -/
theorem copyEntries_again {entries : List (Location × Node)}
    (h : ∀ e ∈ entries, Laid source target w.files e) :
    ∃ w', copyEntries source target (entries.map .ok) w = .ok (entries.countP (·.2.isFile)) w' ∧
      w.files.Redated w'.files := by
  induction entries generalizing w with
  | nil => exact ⟨w, rfl, .refl _⟩
  | cons e rest ih =>
      obtain ⟨rel, node⟩ := e
      obtain ⟨hfirst, hrest⟩ := List.forall_mem_cons.1 h
      cases node with
      | directory t =>
          obtain ⟨w', hcopy, hre⟩ := ih hrest
          cases hfirst with
          | directory hprovided =>
              refine ⟨w', bind_eq_ok.2 ⟨(), w, makeDirectories_provided hprovided, ?_⟩, hre⟩
              simpa [Node.isFile] using hcopy
      | file data =>
          obtain ⟨mid, hparent, hfile, hmid⟩ := copy_laid hfirst
          obtain ⟨w', hcopy, hre⟩ := ih fun e he => (hrest e he).redated hmid
          refine ⟨w', bind_eq_ok.2 ⟨(), w, hparent, bind_eq_ok.2 ⟨(), mid, hfile, bind_eq_ok.2
            ⟨_, w', hcopy, ?_⟩⟩⟩, hmid.trans hre⟩
          rw [List.countP_cons_of_pos rfl]
          rfl
      | link link =>
          obtain ⟨w', hcopy, hre⟩ := ih hrest
          exact ⟨w', by simpa [copyEntries, Node.isFile] using hcopy, hre⟩

end

/-! ### Copying a tree -/

section

variable {source target : Path} {w w' : World} {n : ℕ}

theorem copyTree_of_not_directory (h : w.files.isDirectory source = false) :
    copyTree source target w = .error (.missingInput source) w := by
  change EStateM.bind (require _ _) _ w = _
  rw [EStateM.bind, require, if_neg (by simp [h])]

/-- **A tree is copied in two steps**: the directory itself, and then what is in it by then. -/
theorem copyTree_eq_ok_iff : copyTree source target w = .ok n w' ↔ w.files.isDirectory source = true ∧
    ∃ head rest mid,
      copyEntries source (.ofComponents target.components) ((w.files.scan source).take 1) w =
        .ok head mid ∧
      isBelow mid.files (.ofComponents target.components) source = false ∧
      copyEntries source (.ofComponents target.components) ((mid.files.scan source).drop 1) mid =
        .ok rest w' ∧
      head + rest = n := by
  unfold copyTree
  simp only [bind_eq_ok, require_eq_ok_iff]
  constructor
  · rintro ⟨_, _, ⟨hdir, rfl⟩, _, _, hget, head, mid, hhead, _, _, ⟨hbelow, rfl⟩, _, _, hget', rest, _,
      hrest, hn⟩
    cases hget
    cases hget'
    cases hn
    exact ⟨hdir, head, rest, mid, hhead, by simpa using hbelow, hrest, rfl⟩
  · rintro ⟨hdir, head, rest, mid, hhead, hbelow, hrest, rfl⟩
    exact ⟨(), w, ⟨hdir, rfl⟩, w, w, rfl, head, mid, hhead, (), mid, ⟨by simpa using hbelow, rfl⟩, mid,
      mid, rfl, rest, w', hrest, rfl⟩

/-- What a copying that went well has come to, it could read. -/
theorem copyEntries_eq_ok {entries : List (Except IoError (Location × Node))}
    (h : copyEntries source target entries w = .ok n w') (cause : IoError) : .error cause ∉ entries := by
  induction entries generalizing n w w' with
  | nil => exact List.not_mem_nil
  | cons e rest ih =>
      obtain failure | ⟨rel, node⟩ := e
      · cases h
      refine List.not_mem_cons_of_ne_of_not_mem (by simp) ?_
      cases node with
      | directory t =>
          obtain ⟨_, mid, _, h⟩ := bind_eq_ok.1 h
          exact ih h
      | file data =>
          obtain ⟨_, first, _, h⟩ := bind_eq_ok.1 h
          obtain ⟨_, mid, _, h⟩ := bind_eq_ok.1 h
          obtain ⟨_, last, h, _⟩ := bind_eq_ok.1 h
          exact ih h
      | link link => exact ih h

/-- **A tree that is laid already is copied once more**, if all of it can be read. -/
theorem copyTree_again (hsound : w.files.Sound) (hsource : w.files.Unlinked source)
    (htarget : w.files.Unlinked target)
    (hapart : ¬ source.place w.files.workDir <+: target.place w.files.workDir)
    (hdir : w.files.isDirectory source = true) (hread : ∀ cause, .error cause ∉ w.files.scan source)
    (hlaid : ∀ e ∈ w.files.tree source, Laid source (.ofComponents target.components) w.files e) :
    ∃ w', copyTree source target w = .ok ((w.files.tree source).countP (·.2.isFile)) w' ∧
      w.files.Redated w'.files := by
  obtain ⟨t, _, htree⟩ := hsound.tree_eq hsource hdir
  have hscan := hsound.scan_eq hsource hdir hread
  have hhead : Laid source (.ofComponents target.components) w.files ([], .directory t) :=
    hlaid _ (by simp [htree])
  obtain ⟨w', hrest, hre⟩ := copyEntries_again fun e he => hlaid e (List.drop_subset 1 _ he)
  rw [List.map_drop, ← hscan] at hrest
  refine ⟨w', copyTree_eq_ok_iff.2 ⟨hdir, 0, _, w, ?_, ?_, hrest, ?_⟩, hre⟩
  · -- the directory that is copied to is there
    rw [FileSystem.take_scan htree]
    cases hhead with
    | directory h => exact bind_eq_ok.2 ⟨(), w, makeDirectories_provided h, rfl⟩
  · refine hsound.isBelow_eq_false (htarget.of_subset target.way_ofComponents_components) hsource ?_
    rwa [Path.place_ofComponents_components]
  · simp [htree, Node.isFile]

end

end Rebuild
