/-
Copying files into a directory.

Files are copied one after another, each as it is when its turn comes.  So a copy holds what the file
held before, unless the file was overwritten by then: by the copy of an earlier file, to which the same
path leads by links, or by its own copy, which empties it first.  Nothing else is overwritten.

Main definitions:

* `FileSystem.Finds` — the path leads to that file;
* `IsCopy` — the new path of a file that was copied;
* `Copies` — **the files were copied one after another**.

Main results:

* `FileSystem.Rooted.copy` — what one copy sets, and that its path leads there;
* `Copies.untouched`, `Copies.arrives` — what a run leaves and what it writes, by induction on the run;
* `locate_ne_of_copies` — files of distinct names do not meet;
* `copyFiles_outcome` — **what becomes of every file**, of those that were copied and of all others.
-/
import Rebuild.Proofs.FileSystem.Writing
import Rebuild.Proofs.Placement

set_option relaxedAutoImplicit false
set_option autoImplicit false

namespace Rebuild

/-- The path leads to that file. -/
def FileSystem.Finds (fs : FileSystem) (p : Path) (loc : Location) (data : FileData) : Prop :=
  fs.locate .target p = .ok loc ∧ fs.node? loc = some (.file data)

/-- The new path of a file has its name, in the directory that it was copied into. -/
def IsCopy (into file path : Path) : Prop := ∃ name, file.fileName? = some name ∧ path = into.join ⟨name⟩

/-- The files were copied into the directory one after another, each to its new path. -/
inductive Copies (into : Path) : List Path → FileSystem → List Path → FileSystem → Prop where
  | done (fs : FileSystem) : Copies into [] fs [] fs
  | step {file dest : Path} {rest dests : List Path} {fs mid fs' : FileSystem}
      (hdest : IsCopy into file dest) (hcopy : fs.copy file dest = .ok mid)
      (hrest : Copies into rest mid dests fs') : Copies into (file :: rest) fs (dest :: dests) fs'

/-! ### One copy -/

namespace FileSystem

variable {fs fs' mid : FileSystem} {loc l s : Location} {n : Node} {p q file dest : Path} {data : FileData}

/-- A path that leads to a file leads to it when it is written anew. -/
theorem Retains.finds (h : fs.Retains fs') (hfinds : fs.Finds p loc data) :
    ∃ data', fs'.Finds p loc data' := by
  obtain ⟨n, hn, halike⟩ := h.entry hfinds.2
  cases halike
  exact ⟨_, h.locate (by simp) hfinds.1, hn⟩

/-- **A copy sets one file**, the one that its path leads to from then on.  It holds what the other one
held, or nothing if they are the same. -/
theorem Rooted.copy (h : fs.Rooted) (hok : fs.copy p q = .ok fs') :
    ∃ data place loc, fs.Finds p place data ∧ fs'.locate .target q = .ok loc ∧ fs.Sets loc
      (some (.file ⟨if loc = place then [] else data.bytes, fs.clock, data.executable⟩)) fs' := by
  have hretains := (upholds_copy hok h).1
  obtain ⟨data, place, loc, hlocate, hn, hplace, rfl⟩ := copy_eq_ok_iff.1 hok
  have hsets : fs.Sets loc _ _ := sets_store (h.open_of_writePlace hplace).ne_nil
    (.file ⟨if loc = place then [] else data.bytes, fs.clock, data.executable⟩)
  refine ⟨data, place, loc, ⟨hlocate, hn⟩, ?_, hsets⟩
  exact hretains.locate_of_creation (by simp) (writePlace_eq_ok_iff.1 hplace).1 ⟨_, hsets.here, rfl⟩

/-- What the copy does not lead to is as it was, directories aside. -/
theorem Rooted.copy_untouched (h : fs.Rooted) (hok : fs.copy p q = .ok fs')
    (hn : n.isDirectory = false) (hnot : fs'.locate .target q ≠ .ok l) :
    fs'.node? l = some n ↔ fs.node? l = some n := by
  obtain ⟨_, _, loc, _, hlocate, hsets⟩ := h.copy hok
  refine hsets.node?_iff ?_ hn
  rintro rfl
  exact hnot hlocate

end FileSystem

/-! ### One copy after another -/

namespace Copies

variable {into file dest : Path} {files dests : List Path} {fs fs' mid : FileSystem} {l s d : Location}
  {n : Node} {i : ℕ}

theorem forall₂ (h : Copies into files fs dests fs') : List.Forall₂ (IsCopy into) files dests := by
  induction h with
  | done fs => exact .nil
  | step hdest _ _ ih => exact .cons hdest ih

theorem upholds (h : Copies into files fs dests fs') : fs.Upholds fs' := by
  induction h with
  | done fs => exact refl fs
  | step _ hcopy _ ih => exact IsTrans.trans _ _ _ (FileSystem.upholds_copy hcopy) ih

/-- **What no copy leads to is as it was**, directories aside. -/
theorem untouched (h : Copies into files fs dests fs') (hroot : fs.Rooted) (hn : n.isDirectory = false)
    (hnot : ∀ dest ∈ dests, fs'.locate .target dest ≠ .ok l) :
    fs'.node? l = some n ↔ fs.node? l = some n := by
  induction h with
  | done fs => rfl
  | @step file dest rest dests fs mid fs' _ hcopy hrest ih =>
      have hmid := (FileSystem.upholds_copy hcopy hroot).2
      obtain ⟨hdest, hdests⟩ := List.forall_mem_cons.1 hnot
      -- where a path leads after a copy, it still leads when all copies are made
      have hnow : mid.locate .target dest ≠ .ok l := fun hl =>
        hdest ((hrest.upholds hmid).1.locate (by simp) hl)
      exact (ih hmid hdests).trans (hroot.copy_untouched hcopy hn hnow)

/-- Without links there are none when files were copied. -/
theorem plain (h : Copies into files fs dests fs') (hplain : fs.Plain) : fs'.Plain := by
  induction h with
  | done fs => exact hplain
  | step _ hcopy _ ih => exact ih (hplain.of_copy hcopy)

/-- **What becomes of one of the files.**  Its path and its new path lead to files.  If no copy of an
earlier file is at its place, then it was there before the first copy; and if no copy of a later one is at
the place of its own copy, that holds what the file held before, or nothing if the two places are the
same. -/
theorem arrives (h : Copies into files fs dests fs') (hroot : fs.Rooted) (hfile : files[i]? = some file)
    (hdest : dests[i]? = some dest) : ∃ s d kept copied, fs'.Finds file s kept ∧
      fs'.Finds dest d copied ∧ ((∀ e ∈ dests.take i, fs'.locate .target e ≠ .ok s) →
        ∃ data, fs.node? s = some (.file data) ∧
          ((∀ e ∈ dests.drop (i + 1), fs'.locate .target e ≠ .ok d) →
            copied.bytes = (if d = s then [] else data.bytes) ∧
              copied.executable = data.executable)) := by
  induction h generalizing i with
  | done fs => cases hfile
  | @step head target rest dests fs mid fs' _ hcopy hrest ih =>
      have ⟨hretains, hmid⟩ := FileSystem.upholds_copy hcopy hroot
      have hlater := (hrest.upholds hmid).1
      cases i with
      | zero =>
          obtain rfl := Option.some.inj hfile
          obtain rfl := Option.some.inj hdest
          obtain ⟨data, s, d, hfinds, hlocate, hsets⟩ := hroot.copy hcopy
          obtain ⟨kept, hkept⟩ := (hretains.trans hlater).finds hfinds
          obtain ⟨copied, hcopied⟩ := hlater.finds ⟨hlocate, hsets.here⟩
          refine ⟨s, d, kept, copied, hkept, hcopied, fun _ => ⟨data, hfinds.2, fun hnot => ?_⟩⟩
          -- no later copy leads to the place of this one
          have hstays := (hrest.untouched hmid rfl hnot).2 hsets.here
          obtain rfl := Node.file.inj (Option.some.inj (hcopied.2.symm.trans hstays))
          exact ⟨rfl, rfl⟩
      | succ i =>
          obtain ⟨s, d, kept, copied, hkept, hcopied, harrives⟩ := ih hmid hfile hdest
          refine ⟨s, d, kept, copied, hkept, hcopied, fun hearlier => ?_⟩
          rw [List.take_succ_cons] at hearlier
          obtain ⟨hfirst, hearlier⟩ := List.forall_mem_cons.1 hearlier
          obtain ⟨data, hdata, hlast⟩ := harrives hearlier
          refine ⟨data, (hroot.copy_untouched hcopy rfl fun hs => ?_).1 hdata, hlast⟩
          exact hfirst (hlater.locate (by simp) hs)

end Copies

/-! ### Copying files -/

variable {into file path : Path} {files paths placed : List Path} {w w' : World}

theorem copyInto_eq_ok (h : copyInto into file w = .ok path w') :
    IsCopy into file path ∧ w.files.copy file path = .ok w'.files := by
  unfold copyInto at h
  cases hname : file.fileName? with
  | none =>
      rw [hname] at h
      cases h
  | some name =>
      rw [hname] at h
      obtain ⟨_, _, hrequire, hcopy⟩ := bind_eq_ok.1 h
      obtain ⟨_, rfl⟩ := require_eq_ok_iff.1 hrequire
      obtain ⟨_, _, hcopy, hpath⟩ := bind_eq_ok.1 hcopy
      cases hpath
      exact ⟨⟨name, hname, rfl⟩, Disk.change_eq_ok (World.onFiles_eq_ok hcopy)⟩

theorem copies_of_copyEach (h : copyEach into files w = .ok paths w') :
    Copies into files w.files paths w'.files := by
  induction files generalizing paths w with
  | nil =>
      cases h
      exact .done _
  | cons file rest ih =>
      obtain ⟨path, mid, hfirst, h⟩ := bind_eq_ok.1 h
      obtain ⟨others, _, hrest, hpaths⟩ := bind_eq_ok.1 h
      cases hpaths
      obtain ⟨hdest, hcopy⟩ := copyInto_eq_ok hfirst
      exact .step hdest hcopy (ih hrest)

/-- The directory is made, and then the files are copied. -/
theorem copyFiles_eq_ok (h : copyFiles files into w = .ok placed w') : ∃ made : FileSystem,
    Disk.makeDirectories into w.files = .ok () made ∧ Copies into files made placed w'.files := by
  obtain ⟨_, mid, hmake, heach⟩ := bind_eq_ok.1 h
  exact ⟨mid.files, World.onFiles_eq_ok hmake, copies_of_copyEach heach⟩

/-- **Copied files have one new path each, in order.** -/
theorem forall₂_of_copyFiles (h : copyFiles files into w = .ok placed w') :
    List.Forall₂ (IsCopy into) files placed := by
  obtain ⟨_, _, hcopies⟩ := copyFiles_eq_ok h
  exact hcopies.forall₂

/-- What no new path leads to is as it was, directories aside. -/
theorem copyFiles_untouched (hroot : w.files.Rooted) (h : copyFiles files into w = .ok placed w')
    {loc : Location} {n : Node} (hn : n.isDirectory = false)
    (hnot : ∀ dest ∈ placed, w'.files.locate .target dest ≠ .ok loc) :
    w'.files.node? loc = some n ↔ w.files.node? loc = some n := by
  obtain ⟨made, hmake, hcopies⟩ := copyFiles_eq_ok h
  have hmade := ((Disk.upholds_makeDirectories into).of_ok hmake hroot).2
  have hwidens := (Disk.widens_makeDirectories into).of_ok hmake
  exact (hcopies.untouched hmade hn hnot).trans (hwidens.node?_iff hn)

/-- What becomes of one of the files, whatever links there are. -/
theorem copyFiles_arrives (hroot : w.files.Rooted) (h : copyFiles files into w = .ok placed w') {i : ℕ}
    (hfile : files[i]? = some file) (hdest : placed[i]? = some path) :
    ∃ s d kept copied, w'.files.Finds file s kept ∧ w'.files.Finds path d copied ∧
      (∀ s', w.files.locate .target file = .ok s' → s' = s) ∧
      ((∀ e ∈ placed.take i, w'.files.locate .target e ≠ .ok s) →
        ∃ data, w.files.node? s = some (.file data) ∧
          ((∀ e ∈ placed.drop (i + 1), w'.files.locate .target e ≠ .ok d) →
            copied.bytes = (if d = s then [] else data.bytes) ∧
              copied.executable = data.executable)) := by
  obtain ⟨made, hmake, hcopies⟩ := copyFiles_eq_ok h
  have hwidens := (Disk.widens_makeDirectories into).of_ok hmake
  have hmade := ((Disk.upholds_makeDirectories into).of_ok hmake hroot).2
  obtain ⟨s, d, kept, copied, hkept, hcopied, harrives⟩ := hcopies.arrives hmade hfile hdest
  refine ⟨s, d, kept, copied, hkept, hcopied, fun s' hs' => ?_, fun hearlier => ?_⟩
  · have hstill := (hwidens.grows.retains.trans (hcopies.upholds hmade).1).locate (by simp) hs'
    exact Except.ok.inj (hstill.symm.trans hkept.1)
  · obtain ⟨data, hdata, hlast⟩ := harrives hearlier
    exact ⟨data, (hwidens.node?_iff rfl).1 hdata, hlast⟩

theorem eq_or_mem_eraseIdx {i : ℕ} {e : Path} (hdest : placed[i]? = some path) (he : e ∈ placed) :
    e = path ∨ e ∈ placed.eraseIdx i := by
  obtain ⟨j, hj⟩ := List.getElem?_of_mem he
  by_cases hij : j = i
  · subst hij
    exact Or.inl (Option.some.inj (hj.symm.trans hdest))
  · exact Or.inr (List.mem_eraseIdx_iff_getElem?.2 ⟨j, hij, hj⟩)

/-- A file is left as it was if its copy goes elsewhere and no other copy to its place. -/
theorem copyFiles_kept (hroot : w.files.Rooted) (h : copyFiles files into w = .ok placed w') {i : ℕ}
    (hdest : placed[i]? = some path) {s d : Location} (hd : w'.files.locate .target path = .ok d)
    (hne : d ≠ s) (hother : ∀ e ∈ placed.eraseIdx i, w'.files.locate .target e ≠ .ok s)
    {data : FileData} :
    w'.files.node? s = some (.file data) ↔ w.files.node? s = some (.file data) := by
  refine copyFiles_untouched hroot h rfl fun e he hloc => ?_
  rcases eq_or_mem_eraseIdx hdest he with rfl | he
  · exact hne (Except.ok.inj (hd.symm.trans hloc))
  · exact hother e he hloc

/-- **A copy holds what its file holds**, or nothing if they are the same, unless another copy is at the
place of the file or a later one at that of the copy. -/
theorem copyFiles_alike (hroot : w.files.Rooted) (h : copyFiles files into w = .ok placed w') {i : ℕ}
    (hfile : files[i]? = some file) (hdest : placed[i]? = some path) :
    ∃ s d kept copied, w'.files.Finds file s kept ∧ w'.files.Finds path d copied ∧
      ((∀ e ∈ placed.eraseIdx i, w'.files.locate .target e ≠ .ok s) →
        (∀ e ∈ placed.drop (i + 1), w'.files.locate .target e ≠ .ok d) →
          copied.bytes = (if d = s then [] else kept.bytes) ∧ copied.executable = kept.executable) := by
  obtain ⟨s, d, kept, copied, hkept, hcopied, _, harrives⟩ := copyFiles_arrives hroot h hfile hdest
  refine ⟨s, d, kept, copied, hkept, hcopied, fun hother hlater => ?_⟩
  obtain ⟨data, hdata, hlast⟩ := harrives fun e he => hother e (by
    rw [List.eraseIdx_eq_take_drop_succ]
    exact List.mem_append_left _ he)
  obtain ⟨hbytes, hexecutable⟩ := hlast hlater
  by_cases hds : d = s
  · subst hds
    obtain rfl := Node.file.inj (Option.some.inj (hkept.2.symm.trans hcopied.2))
    exact ⟨by rwa [if_pos rfl] at hbytes ⊢, rfl⟩
  · have hstays := (copyFiles_kept hroot h hdest hcopied.1 hds hother).2 hdata
    obtain rfl := Node.file.inj (Option.some.inj (hkept.2.symm.trans hstays))
    exact ⟨hbytes, hexecutable⟩

/-! ### Distinct names -/

/-- The name of a file is the last one of its place. -/
theorem Path.place_of_fileName? {p : Path} {x : String} (h : p.fileName? = some x) (s : Location) :
    ∃ parent, p.place s = parent ++ [x] := by
  unfold fileName? at h
  split at h
  · rename_i n hlast
    obtain rfl := Option.some.inj h
    obtain ⟨front, hfront⟩ := List.getLast?_eq_some_iff.1 hlast
    refine ⟨front.foldl Component.move s, ?_⟩
    rw [place_eq_components, hfront, List.foldl_append]
    rfl
  · cases h

/-- A new path has the name of its file. -/
theorem IsCopy.place (h : IsCopy into file path) (s : Location) :
    ∃ x, file.fileName? = some x ∧ path.place s = into.place s ++ [x] := by
  obtain ⟨x, hx, rfl⟩ := h
  exact ⟨x, hx, Path.place_join_name (Path.isName_of_fileName? hx) s⟩

/-- A file is copied to a name exactly if that is its own. -/
theorem IsCopy.eq_join_iff (h : IsCopy into file path) {x : String} (hx : IsName x) :
    path = into.join ⟨x⟩ ↔ file.fileName? = some x := by
  obtain ⟨y, hy, rfl⟩ := h
  constructor
  · intro heq
    have hplace := congrArg (Path.place · []) heq
    simp only [Path.place_join_name hx, Path.place_join_name (Path.isName_of_fileName? hy)] at hplace
    obtain ⟨_, hyx⟩ := List.append_inj' hplace rfl
    rw [hy, (List.cons.inj hyx).1]
  · intro hname
    rw [Option.some.inj (hy.symm.trans hname)]

/-- Files of other names are copied to other places. -/
theorem place_ne_of_copies (hcopies : List.Forall₂ (IsCopy into) files placed)
    (hnames : (files.map Path.fileName?).Nodup) {i : ℕ} (hfile : files[i]? = some file) {e : Path}
    (he : e ∈ placed.eraseIdx i) {x : String} (hx : file.fileName? = some x) (s loc : Location) :
    e.place s ≠ loc ++ [x] := by
  obtain ⟨j, hij, hej⟩ := List.mem_eraseIdx_iff_getElem?.1 he
  obtain ⟨hj, rfl⟩ := List.getElem?_eq_some_iff.1 hej
  have hjf : j < files.length := hcopies.length_eq ▸ hj
  obtain ⟨y, hy, hplace⟩ := (hcopies.get hjf hj).place s
  rw [List.get_eq_getElem] at hy hplace
  intro heq
  rw [hplace] at heq
  obtain ⟨_, hxy⟩ := List.append_inj' heq rfl
  obtain rfl : y = x := by simpa using hxy
  have hsame : (files.map Path.fileName?)[j]? = (files.map Path.fileName?)[i]? := by
    rw [List.getElem?_map, List.getElem?_map, hfile, List.getElem?_eq_getElem hjf]
    simpa [hx] using hy
  exact hij (List.getElem?_inj (by simpa using hjf) hnames |>.1 hsame)

/-- **Without links no file is at the place of the copy of another one.** -/
theorem locate_ne_of_copies (hplain : w.files.Plain) (hcopies : List.Forall₂ (IsCopy into) files placed)
    (hnames : (files.map Path.fileName?).Nodup) {i : ℕ} (hfile : files[i]? = some file)
    (hdest : placed[i]? = some path) {e : Path} (he : e ∈ placed.eraseIdx i) {loc : Location}
    (hloc : w.files.locate .target e = .ok loc) :
    loc ≠ file.place w.files.workDir ∧ loc ≠ path.place w.files.workDir := by
  obtain ⟨rfl, _⟩ := hplain.locate (by simp) hloc
  obtain ⟨hi, rfl⟩ := List.getElem?_eq_some_iff.1 hfile
  obtain ⟨hi', rfl⟩ := List.getElem?_eq_some_iff.1 hdest
  obtain ⟨x, hx, hplace⟩ := (hcopies.get hi hi').place w.files.workDir
  rw [List.get_eq_getElem] at hx hplace
  obtain ⟨parent, hparent⟩ := Path.place_of_fileName? hx w.files.workDir
  have hother := place_ne_of_copies hcopies hnames hfile he hx w.files.workDir
  exact ⟨hparent ▸ hother parent, hplace ▸ hother _⟩

/-- So without links a copy holds what its file holds, or nothing if they are the same. -/
theorem copyFiles_alike_plain (hroot : w.files.Rooted) (hplain : w'.files.Plain)
    (hnames : (files.map Path.fileName?).Nodup) (h : copyFiles files into w = .ok placed w') {i : ℕ}
    (hfile : files[i]? = some file) (hdest : placed[i]? = some path) :
    ∃ kept copied, w'.files.node? (file.place w'.files.workDir) = some (.file kept) ∧
      w'.files.node? (path.place w'.files.workDir) = some (.file copied) ∧
      copied.bytes =
        (if path.place w'.files.workDir = file.place w'.files.workDir then [] else kept.bytes) ∧
      copied.executable = kept.executable := by
  obtain ⟨s, d, kept, copied, hkept, hcopied, halike⟩ := copyFiles_alike hroot h hfile hdest
  obtain ⟨rfl, _⟩ := hplain.locate (by simp) hkept.1
  obtain ⟨rfl, _⟩ := hplain.locate (by simp) hcopied.1
  have hother : ∀ e ∈ placed.eraseIdx i, ∀ loc, w'.files.locate .target e = .ok loc →
      loc ≠ file.place w'.files.workDir ∧ loc ≠ path.place w'.files.workDir :=
    fun e he loc => locate_ne_of_copies hplain (forall₂_of_copyFiles h) hnames hfile hdest he
  refine ⟨kept, copied, hkept.2, hcopied.2, halike (fun e he hloc => (hother e he _ hloc).1 rfl)
    fun e he hloc => ?_⟩
  refine (hother e ?_ _ hloc).2 rfl
  rw [List.eraseIdx_eq_take_drop_succ]
  exact List.mem_append_right _ he

/-- **Without links a file is intact wherever it was copied to and from**, unless it is already where it is
to be copied to; then it ends up empty. -/
theorem copyFiles_plain (hplain : w.files.Plain) (hnames : (files.map Path.fileName?).Nodup)
    (h : copyFiles files into w = .ok placed w') {i : ℕ} (hfile : files[i]? = some file)
    (hdest : placed[i]? = some path) :
    ∃ data copied, w.files.node? (file.place w.files.workDir) = some (.file data) ∧
      w'.files.node? (path.place w.files.workDir) = some (.file copied) ∧
      copied.executable = data.executable ∧
      copied.bytes =
        (if path.place w.files.workDir = file.place w.files.workDir then [] else data.bytes) ∧
      (path.place w.files.workDir ≠ file.place w.files.workDir →
        w'.files.node? (file.place w.files.workDir) = some (.file data)) := by
  obtain ⟨made, hmake, hcopies⟩ := copyFiles_eq_ok h
  have hmade : made.Plain :=
    ((Workplace.mk w.files.workDir [] fun _ => False).keepsTo_makeDirectories into).of_ok hmake
      ⟨hplain, rfl⟩ |>.ready.plain
  have hplain' := hcopies.plain hmade
  have hwork : w'.files.workDir = w.files.workDir :=
    (hcopies.upholds hmade.rooted).1.workDir.trans
      ((Disk.widens_makeDirectories into).of_ok hmake).grows.workDir
  obtain ⟨s, d, kept, copied, hkept, hcopied, _, harrives⟩ :=
    copyFiles_arrives hplain.rooted h hfile hdest
  obtain ⟨rfl, _⟩ := hplain'.locate (by simp) hkept.1
  obtain ⟨rfl, _⟩ := hplain'.locate (by simp) hcopied.1
  -- no other copy is where this file is, or where its copy is
  have hother : ∀ e ∈ placed.eraseIdx i, ∀ loc, w'.files.locate .target e = .ok loc →
      loc ≠ file.place w'.files.workDir ∧ loc ≠ path.place w'.files.workDir :=
    fun e he loc => locate_ne_of_copies hplain' hcopies.forall₂ hnames hfile hdest he
  have hsplit : placed.eraseIdx i = _ := List.eraseIdx_eq_take_drop_succ ..
  obtain ⟨data, hdata, hlast⟩ := harrives fun e he hloc =>
    (hother e (hsplit ▸ List.mem_append_left _ he) _ hloc).1 rfl
  obtain ⟨hbytes, hexecutable⟩ := hlast fun e he hloc =>
    (hother e (hsplit ▸ List.mem_append_right _ he) _ hloc).2 rfl
  rw [← hwork]
  refine ⟨data, copied, hdata, hcopied.2, hexecutable, hbytes, fun hne => ?_⟩
  exact (copyFiles_kept hplain.rooted h hdest hcopied.1 hne fun e he hloc =>
    (hother e he _ hloc).1 rfl).2 hdata

/-- **What becomes of every file** when files of distinct names were copied.  Each has its new path, in
order.  Whatever no new path leads to is as it was, directories aside.  Of each file, if its place is not
that of the copy of an earlier file, it was there before, and if the place of its copy is not that of the
copy of a later one, its copy holds what it held before; but if these two places are the same, the file
ends up empty.  Without links no file is at the place of the copy of another one, so all files are intact,
and so are their copies, except that **a file that is already where it is to be copied to is lost**. -/
theorem copyFiles_outcome (hroot : w.files.Rooted) (hnames : (files.map Path.fileName?).Nodup)
    (h : copyFiles files into w = .ok placed w') :
    List.Forall₂ (IsCopy into) files placed ∧
    (∀ loc n, n.isDirectory = false → (∀ dest ∈ placed, w'.files.locate .target dest ≠ .ok loc) →
      (w'.files.node? loc = some n ↔ w.files.node? loc = some n)) ∧
    (∀ (i : ℕ) (file dest : Path), files[i]? = some file → placed[i]? = some dest →
      ∃ s d kept copied, w'.files.Finds file s kept ∧ w'.files.Finds dest d copied ∧
        (∀ s', w.files.locate .target file = .ok s' → s' = s) ∧
        ((∀ e ∈ placed.take i, w'.files.locate .target e ≠ .ok s) →
          ∃ data, w.files.node? s = some (.file data) ∧
            ((∀ e ∈ placed.drop (i + 1), w'.files.locate .target e ≠ .ok d) →
              copied.bytes = (if d = s then [] else data.bytes) ∧
                copied.executable = data.executable))) ∧
    (w.files.Plain → ∀ (i : ℕ) (file dest : Path), files[i]? = some file → placed[i]? = some dest →
      ∃ data copied, w.files.node? (file.place w.files.workDir) = some (.file data) ∧
        w'.files.node? (dest.place w.files.workDir) = some (.file copied) ∧
        copied.executable = data.executable ∧
        copied.bytes =
          (if dest.place w.files.workDir = file.place w.files.workDir then [] else data.bytes) ∧
        (dest.place w.files.workDir ≠ file.place w.files.workDir →
          w'.files.node? (file.place w.files.workDir) = some (.file data))) := by
  exact ⟨forall₂_of_copyFiles h, fun _ _ => copyFiles_untouched hroot h,
    fun _ _ _ => copyFiles_arrives hroot h, fun hplain _ _ _ => copyFiles_plain hplain hnames h⟩

/-! ### A shelf -/

def shelfEntries : List (Location × Node) :=
  [(["p"], .directory ⟨0⟩), (["p", "a"], .file ⟨[1], ⟨0⟩, false⟩), (["p", "o"], .directory ⟨0⟩),
    (["p", "o", "b"], .file ⟨[2], ⟨0⟩, true⟩)]

/-- A directory in which one of two files is already. -/
def shelf : FileSystem :=
  shelfEntries.foldl (fun fs entry => fs.put entry.1 entry.2) ⟨[], ["p"], ⟨5⟩⟩

def shelfWorld : World := ⟨shelf, .silent, [], []⟩

/-- One file is copied from elsewhere and intact; the other one is copied onto itself. -/
theorem shelf_copied : shelf.Rooted ∧ ([⟨"a"⟩, ⟨"/p/o/b"⟩].map Path.fileName?).Nodup ∧ shelf.Plain ∧
    ∃ w', copyFiles [⟨"a"⟩, ⟨"/p/o/b"⟩] ⟨"o"⟩ shelfWorld = .ok [⟨"o/a"⟩, ⟨"o/b"⟩] w' ∧
      w'.files.node? ["p", "a"] = some (.file ⟨[1], ⟨0⟩, false⟩) ∧
      (∃ copied, w'.files.node? ["p", "o", "a"] = some (.file copied) ∧ copied.bytes = [1]) ∧
      ∃ copied, w'.files.node? ["p", "o", "b"] = some (.file copied) ∧ copied.bytes = [] := by
  have hplain : shelf.Plain := FileSystem.Plain.of_nodes (by decide +kernel) (by decide +kernel)
  have hnames : ([⟨"a"⟩, ⟨"/p/o/b"⟩].map Path.fileName?).Nodup := by decide +kernel
  have hrun : endsWith [⟨"o/a"⟩, ⟨"o/b"⟩] (fun _ => true)
      (copyFiles [⟨"a"⟩, ⟨"/p/o/b"⟩] ⟨"o"⟩ shelfWorld) = true := by decide +kernel
  obtain ⟨w', hok, _⟩ := exists_of_endsWith hrun
  obtain ⟨_, _, _, heach⟩ := copyFiles_outcome hplain.rooted hnames hok
  obtain ⟨data, copied, hdata, hcopied, _, hbytes, hkept⟩ := heach hplain 0 _ _ rfl rfl
  obtain ⟨_, emptied, _, hemptied, _, hnone, _⟩ := heach hplain 1 _ _ rfl rfl
  -- where the files are, and where they go
  have hsource : (Path.mk "a").place shelfWorld.files.workDir = ["p", "a"] := by decide +kernel
  have htarget : (Path.mk "o/a").place shelfWorld.files.workDir = ["p", "o", "a"] := by decide +kernel
  have hthere : (Path.mk "/p/o/b").place shelfWorld.files.workDir = ["p", "o", "b"] := by
    decide +kernel
  have hstays : (Path.mk "o/b").place shelfWorld.files.workDir = ["p", "o", "b"] := by decide +kernel
  rw [hsource, htarget] at hbytes hkept
  rw [hsource] at hdata
  rw [hstays, hthere, if_pos rfl] at hnone
  have hheld : shelfWorld.files.node? ["p", "a"] = some (.file ⟨[1], ⟨0⟩, false⟩) := by decide +kernel
  obtain rfl := Node.file.inj (Option.some.inj (hheld.symm.trans hdata))
  exact ⟨hplain.rooted, hnames, hplain, w', hok, hkept (by decide), ⟨copied, htarget ▸ hcopied, hbytes⟩,
    emptied, hstays ▸ hemptied, hnone⟩

/-- **A file that is already in the directory is lost**, and its copy is told to be made. -/
theorem shelf_file_lost : shelf.Plain ∧
    shelf.stat? ⟨"/p/o/b"⟩ = some (.file ⟨[2], ⟨0⟩, true⟩) ∧
    ∃ w', copyFiles [⟨"/p/o/b"⟩] ⟨"o"⟩ shelfWorld = .ok [⟨"o/b"⟩] w' ∧
      w'.files.stat? ⟨"/p/o/b"⟩ = some (.file ⟨[], ⟨5⟩, true⟩) := by
  have hrun : endsWith [⟨"o/b"⟩]
      (fun w => decide (w.files.stat? ⟨"/p/o/b"⟩ = some (.file ⟨[], ⟨5⟩, true⟩)))
      (copyFiles [⟨"/p/o/b"⟩] ⟨"o"⟩ shelfWorld) = true := by decide +kernel
  obtain ⟨w', hok, hlost⟩ := exists_of_endsWith hrun
  exact ⟨FileSystem.Plain.of_nodes (by decide +kernel) (by decide +kernel), by decide +kernel, w', hok,
    of_decide_eq_true hlost⟩

end Rebuild
