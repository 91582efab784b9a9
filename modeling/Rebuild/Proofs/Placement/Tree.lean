/-
Copying a tree.

The target is made first, with what is missing on the way to it; then the source is scanned, and entry
after entry is copied.  What the scan cannot read ends the copying.  When all went well there is a
directory for each directory of the source and a copy of each file, and copying once more finds everything
made and writes the files again.

Main definitions:

* `Graft.Settled` — an entry was copied in this run;
* `Graft.respelled` — the same with the target written component by component.

Main results:

* `Graft.settled_of_copyEntries` — every entry that was gone through is settled, by induction on them;
* `Graft.advances_copyTree` — **whatever stops it, copying a tree leaves a stage of it**;
* `Graft.copied` — what is in the target when all went well, and that it can be copied once more;
* `copyTree_outcome` — **what becomes of every place when a tree is copied**;
* `orchard_dated` — the directory that the target is made in is dated.
-/
import Rebuild.Proofs.Placement.Again
import Rebuild.Proofs.Placement.Graft

set_option relaxedAutoImplicit false
set_option autoImplicit false

namespace Rebuild

open World (OverFiles overFiles_onFiles)

namespace Graft

variable {g : Graft} {fs fs' : FileSystem} {rel : Location} {n : Node} {data : FileData}
  {entries : List (Location × Node)} {e : Location × Node} {w w' mid : World} {count : ℕ}

/-! ### Entries on their way -/

theorem Leaf.isName (h : g.Leaf data rel) : ∀ x ∈ rel, IsName x := by
  obtain ⟨htwig, hx, _⟩ := h
  intro y hy
  rcases List.mem_append.1 hy with hy | hy
  · exact htwig.isName y hy
  · rwa [List.mem_singleton.1 hy]

theorem Leaf.source (h : g.Leaf data rel) : g.before.node? (g.root ++ rel) = some (.file data) := by
  obtain ⟨_, _, hsource⟩ := h
  exact hsource

/-- The entry can be copied. -/
def Lists (g : Graft) : Location × Node → Prop
  | (rel, .directory _) => g.Twig rel
  | (rel, .file data) => g.Leaf data rel
  | (_, .link _) => True

theorem Stage.unlinked (hg : g.Clear) (h : g.Stage fs) : fs.Unlinked g.source :=
  h.unlinked_of_before hg.source

theorem Stage.tree_eq (hg : g.Clear) (h : g.Stage fs) (hdir : fs.isDirectory g.source = true) :
    ∃ t, fs.node? g.root = some (.directory t) ∧
      fs.tree g.source = ([], .directory t) :: fs.below g.root := by
  have htree := h.sound.tree_eq (h.unlinked hg) hdir
  rwa [h.workDir] at htree

theorem Stage.mem_tree_iff (hg : g.Clear) (h : g.Stage fs) (hdir : fs.isDirectory g.source = true) :
    (rel, n) ∈ fs.tree g.source ↔ fs.node? (g.root ++ rel) = some n := by
  obtain ⟨t, ht, htree⟩ := h.tree_eq hg hdir
  rw [htree, List.mem_cons, FileSystem.mem_below]
  by_cases hrel : rel = []
  · simp [hrel, ht, eq_comm]
  · simp [hrel]

/-- **What is listed can be copied.** -/
theorem Stage.lists (hg : g.Clear) (h : g.Stage fs) (hdir : fs.isDirectory g.source = true)
    (hmem : e ∈ fs.tree g.source) : g.Lists e := by
  obtain ⟨t, ht, _⟩ := h.tree_eq hg hdir
  have hroot := FileSystem.isDirectoryAt_eq_true_iff.2 ⟨t, ht⟩
  obtain ⟨rel, n⟩ := e
  have hn := (h.mem_tree_iff hg hdir).1 hmem
  cases n with
  | directory t => exact h.twig_of_directory hg (FileSystem.isDirectoryAt_eq_true_iff.2 ⟨t, hn⟩)
  | file data => exact h.leaf_of_file hg hroot hn
  | link link => trivial

theorem makeParent_entryPath {p : Path} {front : Location} {x : String} (hnames : ∀ y ∈ front, IsName y)
    (hx : IsName x) : makeParent (entryPath p (front ++ [x])) =
      World.onFiles .io (Disk.makeDirectories (.ofComponents (entryPath p front).components)) := by
  rw [makeParent, parent?_entryPath hnames hx]

theorem advances_directory (hg : g.Clear) (hrel : g.Twig rel) : KeepsTo (OverFiles g.Advances)
    (World.onFiles ActionError.io (Disk.makeDirectories (entryPath g.target rel))) :=
  overFiles_onFiles _ (advances_makeDirectories hg hrel fun _ hl => hl)

theorem advances_makeParent (hg : g.Clear) (h : g.Leaf data rel) :
    KeepsTo (OverFiles g.Advances) (makeParent (entryPath g.target rel)) := by
  obtain ⟨htwig, hx, _⟩ := h
  rw [makeParent_entryPath htwig.isName hx]
  exact overFiles_onFiles _
    (advances_makeDirectories hg htwig (Path.way_ofComponents_components _))

theorem advances_file (hg : g.Clear) (h : g.Leaf data rel) :
    KeepsTo (OverFiles g.Advances) (World.onFiles ActionError.io
      (Disk.change (·.copy (entryPath g.source rel) (entryPath g.target rel)))) :=
  overFiles_onFiles _ (Disk.keepsTo_change fun hok => advances_copy hg h.isName h.source hok)

theorem advances_copyEntries (hg : g.Clear) {scanned : List (Except IoError (Location × Node))}
    (h : ∀ e, .ok e ∈ scanned → g.Lists e) :
    KeepsTo (OverFiles g.Advances) (copyEntries g.source g.target scanned) :=
  keepsTo_copyEntries_of (fun _ _ he => advances_directory hg (h _ he))
    (fun _ _ he => advances_makeParent hg (h _ he)) (fun _ _ he => advances_file hg (h _ he))

/-! ### Entries that were copied -/

/-- The entry was copied in this run: a directory is there, or a file with the directory it is in. -/
inductive Settled (g : Graft) (fs : FileSystem) : Location × Node → Prop
  | directory {rel : Location} {t : Time} (h : fs.Provided (entryPath g.target rel)) :
      Settled g fs (rel, .directory t)
  | file {rel : Location} {data : FileData}
      (hparent : ∀ p, (entryPath g.target rel).parent? = some p → fs.Provided p)
      (hsource : fs.locate .target (entryPath g.source rel) = .ok (g.root ++ rel))
      (htarget : fs.locate .creation (entryPath g.target rel) = .ok (g.base ++ rel))
      (hcopied : fs.node? (g.base ++ rel) = some (.file (g.copyOf data))) : Settled g fs (rel, .file data)
  | link {rel : Location} {link : Path} : Settled g fs (rel, .link link)

/-- **What was copied stays so** when the copying goes on. -/
theorem Settled.next (he : g.Lists e) (h : g.Settled fs e) (hnext : g.Next fs fs') : g.Settled fs' e := by
  cases h with
  | directory h => exact .directory (hnext.retains.provided h)
  | file hparent hsource htarget hcopied =>
      have hcopied' := hnext.laid (Leaf.source he) hcopied
      refine .file (fun p hp => hnext.retains.provided (hparent p hp))
        (hnext.retains.locate (by simp) hsource) ?_ hcopied'
      exact hnext.retains.locate_of_creation (by simp) htarget ⟨_, hcopied', rfl⟩
  | link => exact .link

/-- A file is copied when the directory that it goes to is there. -/
theorem settled_of_copy (hg : g.Clear) (hleaf : g.Leaf data rel)
    (hstage : g.Stage w.files) {u v : Unit} (hparent : makeParent (entryPath g.target rel) w = .ok u mid)
    (hcopy : World.onFiles ActionError.io
      (Disk.change (·.copy (entryPath g.source rel) (entryPath g.target rel))) mid = .ok v w') :
    g.Next w.files w'.files ∧ g.Settled w'.files (rel, .file data) := by
  have hmid := (advances_makeParent hg hleaf).of_ok hparent hstage
  have hlast := (advances_file hg hleaf).of_ok hcopy hmid.stage
  have hok := Disk.change_eq_ok (World.onFiles_eq_ok hcopy)
  obtain ⟨_, hsets, hsource, htarget⟩ := hmid.stage.copy hg hleaf.isName hleaf.source hok
  refine ⟨IsTrans.trans (r := g.Advances) _ _ _ (fun _ => hmid) (fun _ => hlast) hstage, ?_⟩
  refine .file (fun p hp => hlast.retains.provided ?_) (hlast.retains.locate (by simp) hsource)
    (hlast.retains.locate_of_creation (by simp) htarget ⟨_, hsets.here, rfl⟩) hsets.here
  rw [makeParent, hp] at hparent
  exact Disk.makeDirectories_eq_ok (World.onFiles_eq_ok hparent)

/-- **Every entry that was gone through is settled**, and the files among them are counted. -/
theorem settled_of_copyEntries (hg : g.Clear) (hlists : ∀ e ∈ entries, g.Lists e)
    (hstage : g.Stage w.files)
    (h : copyEntries g.source g.target (entries.map .ok) w = .ok count w') :
    count = entries.countP (·.2.isFile) ∧ ∀ e ∈ entries, g.Settled w'.files e := by
  induction entries generalizing count w with
  | nil =>
      cases h
      exact ⟨rfl, by simp⟩
  | cons e rest ih =>
      obtain ⟨rel, node⟩ := e
      obtain ⟨hfirst, hrest⟩ := List.forall_mem_cons.1 hlists
      -- what is settled now is settled when the rest is copied
      have hlater : ∀ {mid : World} {k : ℕ},
          copyEntries g.source g.target (rest.map .ok) mid = .ok k w' →
          g.Stage mid.files → g.Settled mid.files (rel, node) → g.Settled w'.files (rel, node) :=
        fun hcopy hmid hsettled => hsettled.next hfirst
          ((advances_copyEntries hg fun e he => hrest e (by simpa using he)).of_ok hcopy hmid)
      cases node with
      | directory t =>
          obtain ⟨_, mid, hmake, h⟩ := bind_eq_ok.1 h
          have hmid := ((advances_directory hg hfirst).of_ok hmake hstage).stage
          obtain ⟨rfl, hall⟩ := ih hrest hmid h
          have hsettled : g.Settled mid.files (rel, .directory t) :=
            .directory (Disk.makeDirectories_eq_ok (World.onFiles_eq_ok hmake))
          exact ⟨by simp [Node.isFile], List.forall_mem_cons.2 ⟨hlater h hmid hsettled, hall⟩⟩
      | file data =>
          obtain ⟨_, first, hparent, h⟩ := bind_eq_ok.1 h
          obtain ⟨_, mid, hcopy, h⟩ := bind_eq_ok.1 h
          obtain ⟨k, last, h, hcount⟩ := bind_eq_ok.1 h
          cases hcount
          obtain ⟨hnext, hsettled⟩ := settled_of_copy hg hfirst hstage hparent hcopy
          obtain ⟨rfl, hall⟩ := ih hrest hnext.stage h
          exact ⟨by simp [Node.isFile],
            List.forall_mem_cons.2 ⟨hlater h hnext.stage hsettled, hall⟩⟩
      | link link =>
          obtain ⟨rfl, hall⟩ := ih hrest hstage h
          exact ⟨by simp [Node.isFile], List.forall_mem_cons.2 ⟨.link, hall⟩⟩

/-! ### The whole tree -/

/-- The files of the source, by where they are in it. -/
def files (g : Graft) : Set Location := {rel | ∃ data, g.before.node? (g.root ++ rel) = some (.file data)}

/-- At any stage there are as many files in the source as before. -/
theorem Stage.encard_files (hg : g.Clear) (h : g.Stage fs) (hdir : fs.isDirectory g.source = true) :
    g.files.encard = (fs.tree g.source).countP (·.2.isFile) := by
  obtain ⟨t, ht, htree⟩ := h.tree_eq hg hdir
  have hnot : ∀ data, fs.node? g.root ≠ some (.file data) := by simp [ht]
  have hbelow := FileSystem.encard_files_below hnot
  simp only [h.file_iff hg] at hbelow
  rw [files, hbelow, htree]
  rfl

/-- When the target is there, everything on the way to it is. -/
theorem Stage.isSome_of_mem_way (hg : g.Clear) (h : g.Stage fs)
    (hprovided : fs.Provided (entryPath g.target [])) {l : Location} (hl : l ∈ g.way) :
    (fs.node? l).isSome = true := by
  rw [way, ← h.workDir, ← way_entryPath_nil] at hl
  exact h.sound.isSome_of_provided (h.unlinked_target hg (by simp) fun _ hl => hl) hprovided hl

/-- **No directory of the source is missed**: when the target is there, the copying makes none in the
source any more. -/
theorem Stage.directory_of_next (hg : g.Clear) (h : g.Stage fs) (hnext : g.Next fs fs')
    (hprovided : fs.Provided (entryPath g.target []))
    (hdir : fs'.isDirectoryAt (g.root ++ rel) = true) : fs.isDirectoryAt (g.root ++ rel) = true := by
  rcases hnext.stage.directory_before hg hdir with hbefore | hway
  · exact h.retains.directory hbefore
  · obtain ⟨n, hn⟩ := Option.isSome_iff_exists.1 (h.isSome_of_mem_way hg hprovided hway)
    obtain ⟨n', hn', halike⟩ := hnext.retains.entry hn
    rw [FileSystem.isDirectoryAt, hn', Option.any_some, halike.isDirectory_eq] at hdir
    rw [FileSystem.isDirectoryAt, hn]
    exact hdir

/-- **Everything in the source is settled** when both steps went well, and all of it can be read. -/
theorem settled_of_steps (hg : g.Clear) (h : g.Stage w.files)
    (hdir : w.files.isDirectory g.source = true) {head rest : ℕ}
    (hhead : copyEntries g.source g.target ((w.files.scan g.source).take 1) w = .ok head mid)
    (hrest : copyEntries g.source g.target ((mid.files.scan g.source).drop 1) mid = .ok rest w') :
    g.Stage w'.files ∧ w'.files.isDirectory g.source = true ∧ g.files.encard = (head + rest : ℕ) ∧
      (∀ cause, .error cause ∉ w'.files.scan g.source) ∧
      ∀ e ∈ w'.files.tree g.source, g.Settled w'.files e := by
  obtain ⟨t, _, htree⟩ := h.tree_eq hg hdir
  -- the directory itself
  have hlists : ∀ e ∈ [(([] : Location), Node.directory t)], g.Lists e := fun e he =>
    h.lists hg hdir (by simp_all)
  have hfirst : (w.files.scan g.source).take 1 = [([], .directory t)].map .ok := FileSystem.take_scan htree
  rw [hfirst] at hhead
  obtain ⟨rfl, hsettled⟩ := settled_of_copyEntries hg hlists h hhead
  have hmid := (advances_copyEntries hg fun e he => hlists e (by simpa using he)).of_ok hhead h
  obtain ⟨hprovided⟩ := hsettled ([], .directory t) (by simp)
  have hdir' := hmid.retains.isDirectory hdir
  -- what is in it by then, of which all could be read
  obtain ⟨t', _, htree'⟩ := hmid.stage.tree_eq hg hdir'
  have hread : ∀ cause, .error cause ∉ mid.files.scan g.source := by
    intro cause
    rw [← List.take_append_drop 1 (mid.files.scan g.source), FileSystem.take_scan htree']
    simpa using copyEntries_eq_ok hrest cause
  rw [hmid.stage.sound.scan_eq (hmid.stage.unlinked hg) hdir' hread, ← List.map_drop] at hrest
  have hlists' : ∀ e ∈ (mid.files.tree g.source).drop 1, g.Lists e := fun e he =>
    hmid.stage.lists hg hdir' (List.drop_subset 1 _ he)
  obtain ⟨rfl, hsettled'⟩ := settled_of_copyEntries hg hlists' hmid.stage hrest
  have hlast := (advances_copyEntries hg fun e he => hlists' e
    ((List.mem_map_of_injective fun _ _ => Except.ok.inj).1 he)).of_ok hrest hmid.stage
  have hlastdir := hlast.retains.isDirectory hdir'
  have hall : ∀ e ∈ mid.files.tree g.source, g.Settled w'.files e := by
    intro e he
    rw [htree'] at he
    rcases List.mem_cons.1 he with rfl | he
    · exact .directory (hlast.retains.provided hprovided)
    · exact hsettled' e (by rwa [htree'])
  -- its directories were there when the second step began
  have hbefore : ∀ {rel s}, (rel, .directory s) ∈ w'.files.tree g.source →
      ∃ s', (rel, .directory s') ∈ mid.files.tree g.source := by
    intro rel s he
    have hs := (hlast.stage.mem_tree_iff hg hlastdir).1 he
    obtain ⟨s', hs'⟩ := FileSystem.isDirectoryAt_eq_true_iff.1 (hmid.stage.directory_of_next hg hlast
      hprovided (FileSystem.isDirectoryAt_eq_true_iff.2 ⟨s, hs⟩))
    exact ⟨s', (hmid.stage.mem_tree_iff hg hdir').2 hs'⟩
  refine ⟨hlast.stage, hlastdir, ?_, fun cause he => ?_, ?_⟩
  · rw [hmid.stage.encard_files hg hdir', htree']
    simp [Node.isFile]
  · obtain ⟨rel, s, refusal, hmem, hway, hrefusal, hcause⟩ := FileSystem.error_mem_scan.1 he
    obtain ⟨s', hs'⟩ := hbefore hmem
    exact hread cause (FileSystem.error_mem_scan.2 ⟨rel, s', refusal, hs', hway, hrefusal, hcause⟩)
  · rintro ⟨rel, n⟩ he
    cases n with
    | directory s =>
        obtain ⟨s', hs'⟩ := hbefore he
        obtain ⟨hs⟩ := hall _ hs'
        exact .directory hs
    | file data =>
        have hn := (hlast.stage.mem_tree_iff hg hlastdir).1 he
        refine hall _ ((hmid.stage.mem_tree_iff hg hdir').2 ?_)
        exact (hmid.stage.file_iff hg).2 ((hlast.stage.file_iff hg).1 hn)
    | link link => exact .link

/-- Everything in the source is laid in the target. -/
theorem Stage.laid (hg : g.Clear) (h : g.Stage fs) (hdir : fs.isDirectory g.source = true)
    (he : (rel, n) ∈ fs.tree g.source) (hsettled : g.Settled fs (rel, n)) :
    Laid g.source g.target fs (rel, n) := by
  cases hsettled with
  | directory h => exact .directory h
  | @file _ data hparent hsource htarget hcopied =>
      have hkept := (h.mem_tree_iff hg hdir).1 he
      exact .file hparent hsource hkept htarget hcopied (hg.apart rel rel).symm rfl rfl
  | link => exact .link

/-- The target written again; paths are not made as they are written, but component by component. -/
def respelled (g : Graft) : Graft := { g with target := .ofComponents g.target.components }

@[simp]
theorem base_respelled (g : Graft) : g.respelled.base = g.base :=
  Path.place_ofComponents_components g.target g.before.workDir

theorem Clear.respelled (hg : g.Clear) : g.respelled.Clear where
  sound := hg.sound
  source := hg.source
  target := hg.target.of_subset g.target.way_ofComponents_components
  below := by
    rw [base_respelled]
    exact hg.below
  outer := by
    rw [base_respelled]
    exact hg.outer
  inner := by
    rw [base_respelled]
    exact hg.inner

theorem Branch.of_respelled {l : Location} (h : g.respelled.Branch l) : g.Branch l := by
  have hway : g.respelled.way ⊆ g.way := g.target.way_ofComponents_components
  rcases h with h | ⟨rel, rfl, h⟩
  · exact Or.inl (hway h)
  · rw [base_respelled]
    exact Or.inr ⟨rel, rfl, h.imp_right fun h => hway h⟩

theorem Fate.of_respelled {l : Location} (h : g.respelled.Fate fs l) : g.Fate fs l := by
  cases h with
  | same h => exact .same h
  | dated hbefore hnow hnone hmade => exact .dated hbefore hnow hnone hmade
  | made hnone hbranch hnow => exact .made hnone hbranch.of_respelled hnow
  | written hl hsource hbefore hnow =>
      rw [base_respelled] at hl
      exact .written hl hsource hbefore hnow

/-- **Whatever stops it, copying a tree leaves a stage of it.** -/
theorem advances_copyTree (hg : g.Clear) (hdir : g.before.isDirectory g.source = true) :
    KeepsTo (OverFiles g.respelled.Advances) (copyTree g.source g.target) := by
  refine keepsTo_copyTree_of (r := OverFiles g.respelled.Advances) fun w entries hentries h => ?_
  exact advances_copyEntries hg.respelled
    (fun e he => h.lists hg.respelled (h.retains.isDirectory hdir) (hentries e he)) w h

theorem fate_copyTree (hg : g.Clear) (hw : w.files = g.before) (l : Location) :
    g.Fate (endOf (copyTree g.source g.target w)).files l := by
  cases hdir : w.files.isDirectory g.source with
  | false =>
      rw [copyTree_of_not_directory hdir]
      exact .same (by rw [endOf, hw])
  | true =>
      have hstart : g.respelled.Stage w.files := hw ▸ hg.respelled.start
      exact ((advances_copyTree hg (hw ▸ hdir) w hstart).stage.fate l).of_respelled

/-- Where the source has a link, nothing is made. -/
theorem Fate.skipped (hg : g.Clear) {link : Path} (hfate : g.Fate fs (g.base ++ rel))
    (hlink : g.before.node? (g.root ++ rel) = some (.link link))
    (hnone : g.before.node? (g.base ++ rel) = none) (hway : g.base ++ rel ∉ g.way) :
    fs.node? (g.base ++ rel) = none := by
  cases hfate with
  | same h => rw [h, hnone]
  | dated hbefore _ _ _ =>
      rw [hnone] at hbefore
      cases hbefore
  | made _ hbranch _ =>
      rcases hbranch with hl | ⟨rel', heq, hdir | hl⟩
      · exact absurd hl hway
      · obtain rfl := List.append_cancel_left heq
        rw [FileSystem.isDirectoryAt, hlink] at hdir
        cases hdir
      · obtain rfl := List.append_cancel_left heq
        exact absurd hlink (hg.target _ hl link)
  | written hl hsource _ _ =>
      obtain rfl := List.append_cancel_left hl
      rw [hlink] at hsource
      cases hsource

/-- A tree that was copied is copied once more at any later time. -/
theorem copyTree_after (hg : g.Clear) (h : g.respelled.Stage w.files)
    (hdir : w.files.isDirectory g.source = true) (hcount : g.files.encard = count)
    (hread : ∀ cause, .error cause ∉ w.files.scan g.source)
    (hall : ∀ e ∈ w.files.tree g.source, g.respelled.Settled w.files e) (d : Duration) :
    ∃ w', copyTree g.source g.target (w.wait d) = .ok count w' ∧ w.files.Redated w'.files := by
  have hre : w.files.Redated (w.wait d).files := ⟨rfl, fun _ => Or.inl rfl⟩
  have htree : (w.wait d).files.tree g.source = w.files.tree g.source :=
    FileSystem.tree_elapse w.files d.toNanos g.source
  have hsource : w.files.Unlinked g.source := h.unlinked_of_before hg.source
  have htarget : w.files.Unlinked g.target := h.unlinked_of_before hg.target
  have hapart : ¬ g.source.place w.files.workDir <+: g.target.place w.files.workDir := by
    rw [h.workDir]
    exact hg.outer
  have hlaid : ∀ e ∈ (w.wait d).files.tree g.source,
      Laid g.source g.respelled.target (w.wait d).files e := by
    rw [htree]
    exact fun e he => (h.laid hg.respelled hdir he (hall e he)).redated hre
  have hread' : ∀ cause, .error cause ∉ (w.wait d).files.scan g.source := by
    rwa [World.wait, FileSystem.scan_elapse]
  obtain ⟨w', hagain, hre'⟩ := copyTree_again (w := w.wait d) (h.sound.elapse d.toNanos) hsource
    htarget hapart (hre.retains.isDirectory hdir) hread' hlaid
  have hsame : (w.files.tree g.source).countP (·.2.isFile) = count := by
    rw [← Nat.cast_inj (R := ℕ∞), ← hcount]
    exact (h.encard_files hg.respelled hdir).symm
  rw [htree, hsame] at hagain
  exact ⟨w', hagain, hre.trans hre'⟩

/-- **What is in the target when a tree was copied**, and that it can be copied once more. -/
theorem copied (hg : g.Clear) (hw : w.files = g.before)
    (h : copyTree g.source g.target w = .ok count w') :
    g.files.encard = count ∧
    (∀ rel data, g.before.node? (g.root ++ rel) = some (.file data) →
      w'.files.node? (g.base ++ rel) = some (.file (g.copyOf data))) ∧
    (∀ rel, w'.files.isDirectoryAt (g.root ++ rel) = true →
      w'.files.isDirectoryAt (g.base ++ rel) = true) ∧
    ∀ d, ∃ w'', copyTree g.source g.target (w'.wait d) = .ok count w'' ∧
      w'.files.Redated w''.files := by
  obtain ⟨hdir, head, rest, mid, hhead, _, hrest, rfl⟩ := copyTree_eq_ok_iff.1 h
  have hclear := hg.respelled
  obtain ⟨hstage, hdir', hcount, hread, hall⟩ :=
    settled_of_steps hclear (hw ▸ hclear.start) hdir hhead hrest
  have hbase := g.base_respelled
  refine ⟨hcount, fun rel data hdata => ?_, fun rel hrel => ?_, fun d => ?_⟩
  · have hmem := (hstage.mem_tree_iff hclear hdir').2 ((hstage.file_iff hclear).2 hdata)
    cases hall _ hmem with
    | file _ _ _ hcopied => rwa [hbase] at hcopied
  · obtain ⟨t, ht⟩ := FileSystem.isDirectoryAt_eq_true_iff.1 hrel
    cases hall _ ((hstage.mem_tree_iff hclear hdir').2 ht) with
    | directory hprovided =>
        have htwig := hstage.twig_of_directory hclear hrel
        have hthere := hstage.sound.isDirectoryAt_of_provided
          (hstage.unlinked_target hclear htwig.isName fun _ hl => hl) hprovided
        rw [place_entryPath htwig.isName, hstage.workDir] at hthere
        rwa [← hbase]
  · exact copyTree_after hg hstage hdir' hcount hread hall d

end Graft

/-- **What becomes of every place when a tree is copied.**  If the source is no directory, nothing is done.
However it ends, each place is what it was, or a directory that something new was put in, a directory made
where one belongs or the copy of a file; and where the source has a link, nothing is put.  When all went
well, the number is that of the files in the source, each of them is copied, there is a directory for each
of its directories, and copying once more, at any later time, changes nothing but the times of copies. -/
theorem copyTree_outcome {g : Graft} {w : World} (hg : g.Clear) (hw : w.files = g.before) :
    (w.files.isDirectory g.source = false →
      copyTree g.source g.target w = .error (.missingInput g.source) w) ∧
    (∀ l, g.Fate (endOf (copyTree g.source g.target w)).files l) ∧
    (∀ rel link, g.before.node? (g.root ++ rel) = some (.link link) →
      g.before.node? (g.base ++ rel) = none → g.base ++ rel ∉ g.way →
        (endOf (copyTree g.source g.target w)).files.node? (g.base ++ rel) = none) ∧
    ∀ n w', copyTree g.source g.target w = .ok n w' →
      g.files.encard = n ∧
      (∀ rel data, g.before.node? (g.root ++ rel) = some (.file data) →
        w'.files.node? (g.base ++ rel) = some (.file (g.copyOf data))) ∧
      (∀ rel, w'.files.isDirectoryAt (g.root ++ rel) = true →
        w'.files.isDirectoryAt (g.base ++ rel) = true) ∧
      ∀ d, ∃ w'', copyTree g.source g.target (w'.wait d) = .ok n w'' ∧
        w'.files.Redated w''.files :=
  ⟨copyTree_of_not_directory, Graft.fate_copyTree hg hw,
    fun _ _ hlink hnone hway => (Graft.fate_copyTree hg hw _).skipped hg hlink hnone hway,
    fun _ _ => Graft.copied hg hw⟩

/-! ### An orchard -/

def orchardEntries : List (Location × Node) :=
  [(["p"], .directory ⟨0⟩), (["p", "src"], .directory ⟨0⟩), (["p", "src", "a"], .file ⟨[1], ⟨0⟩, false⟩),
    (["p", "src", "l"], .link ⟨"a"⟩), (["p", "src", "sub"], .directory ⟨0⟩),
    (["p", "src", "sub", "b"], .file ⟨[2], ⟨0⟩, true⟩), (["p", "out"], .directory ⟨0⟩),
    (["p", "out", "a"], .file ⟨[7], ⟨0⟩, false⟩)]

/-- A tree with a link in it, and a directory that holds a file of the same name. -/
def orchard : FileSystem :=
  orchardEntries.foldl (fun fs entry => fs.put entry.1 entry.2) ⟨[], ["p"], ⟨5⟩⟩

def orchardWorld : World := ⟨orchard, .silent, [], []⟩

def grafted (target : Path) : Graft := ⟨orchard, ⟨"src"⟩, target⟩

/-- What is in the tree. -/
def boughs : List (Location × Node) :=
  [(["a"], .file ⟨[1], ⟨0⟩, false⟩), (["l"], .link ⟨"a"⟩), (["sub"], .directory ⟨0⟩),
    (["sub", "b"], .file ⟨[2], ⟨0⟩, true⟩)]

theorem sound_orchard : orchard.Sound := FileSystem.Sound.of_nodes (by decide +kernel) (by decide +kernel)

/-- All of the tree can be read. -/
theorem scan_eq_boughs {fs : FileSystem} (h : fs.tree ⟨"src"⟩ = ([], .directory ⟨0⟩) :: boughs) :
    fs.scan ⟨"src"⟩ = .ok ([], .directory ⟨0⟩) :: boughs.map .ok := by
  have hread : ∀ e ∈ ([], .directory ⟨0⟩) :: boughs,
      (e.1 = [] ∨ (Path.down ⟨"src"⟩ e.1.dropLast).refusal? = none) ∧
        (e.2.isDirectory = true → (Path.down ⟨"src"⟩ e.1).refusal? = none) := by
    decide +kernel
  rw [FileSystem.scan_eq_map (by rwa [h]), h]
  rfl

theorem scan_orchard : orchard.scan ⟨"src"⟩ = .ok ([], .directory ⟨0⟩) :: boughs.map .ok :=
  scan_eq_boughs (by cbv)

/-- **A tree is copied over files**, but not the link in it, and it is copied once more later. -/
theorem orchard_copied : (grafted ⟨"out"⟩).Clear ∧
    ∃ w', copyTree ⟨"src"⟩ ⟨"out"⟩ orchardWorld = .ok 2 w' ∧
      w'.files.node? ["p", "out", "a"] = some (.file ⟨[1], ⟨5⟩, false⟩) ∧
      w'.files.node? ["p", "out", "sub", "b"] = some (.file ⟨[2], ⟨5⟩, true⟩) ∧
      w'.files.node? ["p", "out", "l"] = none ∧
      ∃ w'', copyTree ⟨"src"⟩ ⟨"out"⟩ (w'.wait (.ofMillis 1)) = .ok 2 w'' ∧
        w'.files.Redated w''.files := by
  have hclear : (grafted ⟨"out"⟩).Clear := .of_nodes sound_orchard (by decide +kernel)
    (by decide +kernel) (by decide +kernel) (by decide +kernel) (by decide +kernel)
  have hscan := scan_orchard
  -- the directory is there, and then the rest is copied
  have hrun : endsWith 2 (fun _ => true)
      (copyEntries ⟨"src"⟩ (.ofComponents (Path.mk "out").components) (boughs.map .ok)
        orchardWorld) = true := by
    decide +kernel
  obtain ⟨w', hrest, _⟩ := exists_of_endsWith hrun
  have hok : copyTree ⟨"src"⟩ ⟨"out"⟩ orchardWorld = .ok 2 w' :=
    copyTree_eq_ok_iff.2 ⟨by decide +kernel, 0, 2, orchardWorld, hscan ▸ rfl, by decide +kernel,
      hscan ▸ hrest, rfl⟩
  obtain ⟨_, _, hskipped, hcopied⟩ := copyTree_outcome (w := orchardWorld) hclear rfl
  obtain ⟨_, hfiles, _, hagain⟩ := hcopied 2 w' hok
  have hend : endOf (copyTree (grafted ⟨"out"⟩).source (grafted ⟨"out"⟩).target orchardWorld) = w' :=
    congrArg endOf hok
  have hlink := hskipped ["l"] ⟨"a"⟩ (by decide +kernel) (by decide +kernel) (by decide +kernel)
  rw [hend] at hlink
  exact ⟨hclear, w', hok, hfiles ["a"] ⟨[1], ⟨0⟩, false⟩ (by decide +kernel),
    hfiles ["sub", "b"] ⟨[2], ⟨0⟩, true⟩ (by decide +kernel), hlink, hagain _⟩

/-- The orchard with a new directory in it. -/
def clearing : World := { orchardWorld with files := orchard.store ["p", "new"] (.directory ⟨5⟩) }

/-- **The directory is dated that the target is made in**, so it is not unchanged. -/
theorem orchard_dated : (grafted ⟨"new"⟩).Clear ∧ ¬ (grafted ⟨"new"⟩).base <+: ["p"] ∧
    orchard.node? ["p"] = some (.directory ⟨0⟩) ∧
    ∃ w', copyTree ⟨"src"⟩ ⟨"new"⟩ orchardWorld = .ok 2 w' ∧
      w'.files.node? ["p"] = some (.directory ⟨5⟩) := by
  have hclear : (grafted ⟨"new"⟩).Clear := .of_nodes sound_orchard (by decide +kernel)
    (by decide +kernel) (by decide +kernel) (by decide +kernel) (by decide +kernel)
  have hscan := scan_orchard
  have hscan' : clearing.files.scan ⟨"src"⟩ = .ok ([], .directory ⟨0⟩) :: boughs.map .ok :=
    scan_eq_boughs (by cbv)
  have hrun : endsWith 2 (fun w => decide (w.files.node? ["p"] = some (.directory ⟨5⟩)))
      (copyEntries ⟨"src"⟩ (.ofComponents (Path.mk "new").components) (boughs.map .ok)
        clearing) = true := by
    decide +kernel
  obtain ⟨w', hrest, hdated⟩ := exists_of_endsWith hrun
  refine ⟨hclear, by decide +kernel, by decide +kernel, w', ?_, of_decide_eq_true hdated⟩
  exact copyTree_eq_ok_iff.2 ⟨by decide +kernel, 0, 2, clearing, hscan ▸ rfl, by decide +kernel,
    hscan' ▸ hrest, rfl⟩

end Rebuild
