/-
Laying one tree over another.

A tree is copied entry by entry: a directory is made where it is missing, a file is written where its own
names lead from the target.  If neither tree is in the other one and no link is on the way, each step
leaves the source as it is, so at every stage it can be said of every place what became of it.

Main definitions:

* `Graft` — a tree that is to be copied, with the files before;
* `Graft.Clear` — **no link is on the way, and neither tree is in the other**;
* `Graft.Fate` — what may have become of a place by now;
* `Graft.Stage` — the copying has got that far;
* `Graft.Advances` — what one step does to a stage.

Main results:

* `Graft.Stage.makeDirectory`, `Graft.Stage.copy` — **the two steps**;
* `Graft.Stage.file_iff`, `Graft.Stage.twig_of_directory` — what the source holds at any stage;
* `Graft.advances_makeDirectories`, `Graft.advances_copy` — and what a stage keeps when it advances.
-/
import Rebuild.Proofs.FileSystem.Writing
import Rebuild.Proofs.Placement

set_option relaxedAutoImplicit false
set_option autoImplicit false

namespace Rebuild

/-! ### Paths of entries -/

section

variable {p : Path} {rel front : Location} {l s : Location} {x : String}

theorem place_entryPath (hnames : ∀ x ∈ rel, IsName x) : (entryPath p rel).place s = p.place s ++ rel :=
  Path.place_join_names hnames s

/-- The way to an entry goes on from the directory along its names. -/
theorem mem_way_entryPath (hnames : ∀ x ∈ rel, IsName x) (hl : l ∈ (entryPath p rel).way s) :
    l ∈ p.way s ∨ ∃ front, front <+: rel ∧ l = p.place s ++ front :=
  Path.way_join hnames hl

theorem way_entryPath_nil : (entryPath p []).way s = p.way s := by
  have hrel : (Path.ofComponents []).isAbsolute = false := rfl
  rw [entryPath, List.map_nil, Path.way, Path.way, Path.steps_join hrel, Path.isAbsolute_join hrel]
  simp [Path.steps_ofComponents]

/-- An entry is in the directory that it is listed in. -/
theorem parent?_entryPath (hnames : ∀ y ∈ front, IsName y) (hx : IsName x) :
    (entryPath p (front ++ [x])).parent? = some (.ofComponents (entryPath p front).components) :=
  (Path.extends_join hnames hx).parent?

end

/-- A tree that is to be copied: the files before, and the paths that it is copied from and to. -/
structure Graft where
  before : FileSystem
  source : Path
  target : Path

namespace Graft

variable {g : Graft} {fs fs' : FileSystem} {l loc rel rel' : Location} {n : Node} {p q : Path}
  {data : FileData} {x : String}

/-- Where the tree is. -/
def root (g : Graft) : Location := g.source.place g.before.workDir

/-- Where it is copied to. -/
def base (g : Graft) : Location := g.target.place g.before.workDir

/-- The places on the way to the target, which are made if they are missing. -/
def way (g : Graft) : List Location := g.target.way g.before.workDir

/-- A directory may be made there: on the way to the target, or below it where the source has one, be it
one that was made on the way. -/
def Branch (g : Graft) (l : Location) : Prop :=
  l ∈ g.way ∨ ∃ rel, l = g.base ++ rel ∧
    (g.before.isDirectoryAt (g.root ++ rel) = true ∨ g.root ++ rel ∈ g.way)

/-- A file as it is copied: all but its time is kept. -/
def copyOf (g : Graft) (data : FileData) : FileData := { data with time := g.before.clock }

/-- **What copying relies on**: no link is on the way to the source or the target or below the target, and
neither of them is at or in the other one. -/
structure Clear (g : Graft) : Prop where
  sound : g.before.Sound
  source : g.before.Unlinked g.source
  target : g.before.Unlinked g.target
  below : ∀ rel link, g.before.node? (g.base ++ rel) ≠ some (.link link)
  outer : ¬ g.root <+: g.base
  inner : ¬ g.base <+: g.root

/-- What may have become of a place by now. -/
inductive Fate (g : Graft) (fs : FileSystem) (l : Location) : Prop
  | same (h : fs.node? l = g.before.node? l)
  /-- A directory that something was made in. -/
  | dated {t : Time} {x : String} (hbefore : g.before.node? l = some (.directory t))
      (hnow : fs.node? l = some (.directory g.before.clock)) (hnone : g.before.node? (l ++ [x]) = none)
      (hmade : (fs.node? (l ++ [x])).isSome = true)
  | made (hnone : g.before.node? l = none) (hbranch : g.Branch l)
      (hnow : fs.node? l = some (.directory g.before.clock))
  /-- The copy of a file, in the place of another file or of none. -/
  | written {rel : Location} {data : FileData} (hl : l = g.base ++ rel)
      (hsource : g.before.node? (g.root ++ rel) = some (.file data))
      (hbefore : g.before.node? l = none ∨ ∃ old, g.before.node? l = some (.file old))
      (hnow : fs.node? l = some (.file (g.copyOf data)))

/-- **A stage of the copying.** -/
structure Stage (g : Graft) (fs : FileSystem) : Prop where
  sound : fs.Sound
  workDir : fs.workDir = g.before.workDir
  clock : fs.clock = g.before.clock
  fate : ∀ l, g.Fate fs l

/-- Directories may be made at all places down to that of the entry. -/
structure Twig (g : Graft) (rel : Location) : Prop where
  isName : ∀ x ∈ rel, IsName x
  branch : ∀ front, front <+: rel → g.Branch (g.base ++ front)

/-- The source holds that file, in directories that may be made. -/
inductive Leaf (g : Graft) (data : FileData) : Location → Prop
  | intro {front : Location} {x : String} (htwig : g.Twig front) (hx : IsName x)
      (hsource : g.before.node? (g.root ++ (front ++ [x])) = some (.file data)) :
      Leaf g data (front ++ [x])

/-! ### What is apart -/

theorem Clear.apart (hg : g.Clear) (rel rel' : Location) : g.root ++ rel ≠ g.base ++ rel' := by
  intro heq
  rcases List.prefix_or_prefix_of_prefix (List.prefix_append g.root rel)
    (heq ▸ List.prefix_append g.base rel') with hpre | hpre
  · exact hg.outer hpre
  · exact hg.inner hpre

/-- The entries can be looked at one by one. -/
theorem Clear.of_nodes (hsound : g.before.Sound) (hsource : g.before.Unlinked g.source)
    (htarget : g.before.Unlinked g.target)
    (hbelow : ∀ e ∈ g.before.nodes, g.base <+: e.1 → e.2.isLink = false)
    (houter : ¬ g.root <+: g.base) (hinner : ¬ g.base <+: g.root) : g.Clear := by
  refine ⟨hsound, hsource, htarget, fun rel link hn => ?_, houter, hinner⟩
  have hlink := FileSystem.forall_of_nodes (P := fun loc n => g.base <+: loc → n.isLink = false)
    (fun _ _ => rfl) hbelow hn (List.prefix_append _ _)
  cases hlink

theorem Clear.start (hg : g.Clear) : g.Stage g.before :=
  ⟨hg.sound, rfl, rfl, fun _ => .same rfl⟩

/-! ### What a stage holds -/

namespace Stage

/-- Nothing is taken away, and everything stays of its kind. -/
theorem retains (h : g.Stage fs) : g.before.Retains fs := by
  refine ⟨h.workDir, fun {l n} hn => ?_⟩
  cases h.fate l with
  | same hsame => exact ⟨n, hsame.trans hn, .refl n⟩
  | dated hbefore hnow _ _ =>
      obtain rfl := Option.some.inj (hbefore.symm.trans hn)
      exact ⟨_, hnow, .directory ..⟩
  | made hnone _ _ =>
      rw [hnone] at hn
      cases hn
  | written _ _ hbefore hnow =>
      rcases hbefore with hnone | ⟨old, hold⟩
      · rw [hnone] at hn
        cases hn
      · obtain rfl := Option.some.inj (hold.symm.trans hn)
        exact ⟨_, hnow, .file ..⟩

theorem none_before (h : g.Stage fs) (hn : fs.node? l = none) : g.before.node? l = none := by
  by_contra hsome
  obtain ⟨n, hn'⟩ := Option.ne_none_iff_exists'.1 hsome
  obtain ⟨m, hm, _⟩ := h.retains.entry hn'
  rw [hn] at hm
  cases hm

/-- No link is made. -/
theorem link_before (h : g.Stage fs) (hn : fs.node? l = some (.link p)) :
    g.before.node? l = some (.link p) := by
  cases h.fate l with
  | same hsame => exact hsame ▸ hn
  | dated _ hnow _ _ | made _ _ hnow | written _ _ _ hnow =>
      rw [hnow] at hn
      cases hn

/-- **The files of the source stay what they are.** -/
theorem file_iff (hg : g.Clear) (h : g.Stage fs) :
    fs.node? (g.root ++ rel) = some (.file data) ↔
      g.before.node? (g.root ++ rel) = some (.file data) := by
  cases h.fate (g.root ++ rel) with
  | same hsame => rw [hsame]
  | dated hbefore hnow _ _ => simp [hbefore, hnow]
  | made hnone _ hnow => simp [hnone, hnow]
  | written hl _ _ _ => exact absurd hl (hg.apart _ _)

/-- A directory of the source was there, or it was made on the way to the target. -/
theorem directory_before (hg : g.Clear) (h : g.Stage fs)
    (hdir : fs.isDirectoryAt (g.root ++ rel) = true) :
    g.before.isDirectoryAt (g.root ++ rel) = true ∨ g.root ++ rel ∈ g.way := by
  cases h.fate (g.root ++ rel) with
  | same hsame =>
      rw [FileSystem.isDirectoryAt, hsame] at hdir
      exact Or.inl hdir
  | dated hbefore _ _ _ => exact Or.inl (FileSystem.isDirectoryAt_eq_true_iff.2 ⟨_, hbefore⟩)
  | made _ hbranch _ =>
      rcases hbranch with hway | ⟨rel', heq, _⟩
      · exact Or.inr hway
      · exact absurd heq (hg.apart _ _)
  | written hl _ _ _ => exact absurd hl (hg.apart _ _)

/-- **Directories may be made wherever the source has one.** -/
theorem twig_of_directory (hg : g.Clear) (h : g.Stage fs)
    (hdir : fs.isDirectoryAt (g.root ++ rel) = true) : g.Twig rel := by
  obtain ⟨t, ht⟩ := FileSystem.isDirectoryAt_eq_true_iff.1 hdir
  refine ⟨fun x hx => h.sound.isName ht x (List.mem_append_right _ hx), ?_⟩
  rintro front ⟨back, rfl⟩
  refine Or.inr ⟨front, rfl, h.directory_before hg ?_⟩
  by_cases hback : back = []
  · rwa [hback, List.append_nil] at hdir
  · rw [← List.append_assoc] at ht
    exact h.sound.rooted.above ht hback

theorem leaf_of_file (hg : g.Clear) (h : g.Stage fs)
    (hroot : fs.isDirectoryAt g.root = true) (hn : fs.node? (g.root ++ rel) = some (.file data)) :
    g.Leaf data rel := by
  rcases List.eq_nil_or_concat rel with rfl | ⟨front, x, rfl⟩
  · rw [List.append_nil] at hn
    rw [FileSystem.isDirectoryAt, hn] at hroot
    cases hroot
  · rw [List.concat_eq_append] at hn ⊢
    have hx : IsName x := h.sound.isName hn x (by simp)
    rw [← List.append_assoc] at hn
    have hdir := h.sound.parent hn
    rw [List.dropLast_concat] at hdir
    rw [List.append_assoc] at hn
    exact .intro (h.twig_of_directory hg hdir) hx ((h.file_iff hg).1 hn)

/-! ### Paths without links -/

theorem unlinked_of_before (h : g.Stage fs)
    (hp : ∀ l ∈ p.way g.before.workDir, ∀ link, g.before.node? l ≠ some (.link link)) :
    fs.Unlinked p := by
  intro l hl link hn
  rw [h.workDir] at hl
  exact hp l hl link (h.link_before hn)

theorem unlinked_target (hg : g.Clear) (h : g.Stage fs) (hnames : ∀ x ∈ rel, IsName x)
    (hp : p.way g.before.workDir ⊆ (entryPath g.target rel).way g.before.workDir) : fs.Unlinked p := by
  refine h.unlinked_of_before fun l hl link => ?_
  rcases mem_way_entryPath hnames (hp hl) with hway | ⟨front, _, rfl⟩
  · exact hg.target l hway link
  · exact hg.below front link

/-- A file of the source can be reached without links. -/
theorem unlinked_source (hg : g.Clear) (h : g.Stage fs) (hn : fs.node? (g.root ++ rel) = some (.file data)) :
    fs.Unlinked (entryPath g.source rel) := by
  intro l hl link hlink
  rw [h.workDir] at hl
  have hnames : ∀ x ∈ rel, IsName x := fun x hx => h.sound.isName hn x (List.mem_append_right _ hx)
  rcases mem_way_entryPath hnames hl with hway | ⟨front, ⟨back, rfl⟩, rfl⟩
  · exact hg.source l hway link (h.link_before hlink)
  · by_cases hback : back = []
    · subst hback
      rw [List.append_nil] at hn
      cases Option.some.inj (hn.symm.trans hlink)
    · rw [← List.append_assoc] at hn
      have hdir := h.sound.rooted.above hn hback
      obtain ⟨t, ht⟩ := FileSystem.isDirectoryAt_eq_true_iff.1 hdir
      cases Option.some.inj (ht.symm.trans hlink)

/-! ### Steps -/

/-- **One entry is set, and its directory is dated if it is new.** -/
theorem of_store (h : g.Stage fs) (hroom : fs.Room loc) (hdir : fs.isDirectoryAt loc = false)
    (hfate : g.Fate (fs.store loc n) loc) : g.Stage (fs.store loc n) := by
  have hsets : fs.Sets loc (some n) (fs.store loc n) := FileSystem.sets_store hroom.ne_nil n
  have hstays : ∀ {l}, (fs.node? l).isSome = true → ((fs.store loc n).node? l).isSome = true := by
    intro l hl
    by_cases heq : l = loc
    · rw [heq, hsets.here]
      rfl
    · rcases hsets.elsewhere heq with hsame | ⟨_, _, hdated⟩
      · rwa [hsame]
      · rw [hdated]
        rfl
  refine ⟨h.sound.of_sets hsets hdir fun _ _ => hroom, hsets.workDir.trans h.workDir,
    hsets.clock.trans h.clock, fun l => ?_⟩
  by_cases hl : l = loc
  · exact hl ▸ hfate
  · rcases FileSystem.elsewhere_store hroom.ne_nil n hl with hsame | ⟨hnone, rfl, hold, hnow⟩
    · cases h.fate l with
      | same h => exact .same (hsame.trans h)
      | dated hbefore hnow hnone hmade => exact .dated hbefore (hsame.trans hnow) hnone (hstays hmade)
      | made hnone hbranch hnow => exact .made hnone hbranch (hsame.trans hnow)
      | written hl hsource hbefore hnow => exact .written hl hsource hbefore (hsame.trans hnow)
    · rw [h.clock] at hnow
      obtain ⟨t, ht⟩ := FileSystem.isDirectoryAt_eq_true_iff.1 hold
      cases h.fate loc.dropLast with
      | same h' =>
          -- the new entry is what the directory is dated for
          obtain ⟨parent, x, rfl, _⟩ := hroom
          rw [List.dropLast_concat] at *
          exact .dated (h' ▸ ht) hnow (h.none_before hnone) (by rw [hsets.here]; rfl)
      | dated hbefore _ hnone hmade => exact .dated hbefore hnow hnone (hstays hmade)
      | made hnone hbranch _ => exact .made hnone hbranch hnow
      | written _ _ _ hfile =>
          rw [hfile] at ht
          cases ht

/-- **A directory is made** where one may be. -/
theorem makeDirectory (h : g.Stage fs) (hp : fs.Unlinked p) (hbranch : g.Branch (p.place fs.workDir))
    (hok : fs.makeDirectory p = .ok fs') : g.Stage fs' := by
  obtain ⟨loc, hslot, hnone, rfl⟩ := FileSystem.makeDirectory_eq_ok hok
  obtain ⟨rfl, hroom⟩ := h.sound.slot hp hslot
  refine h.of_store hroom ?_ (.made (h.none_before hnone) hbranch ?_)
  · rw [FileSystem.isDirectoryAt, hnone]
    rfl
  · rw [← h.clock]
    exact (FileSystem.sets_store hroom.ne_nil _).here

/-- **A file of the source is copied** to where its names lead from the target. -/
theorem copy (hg : g.Clear) (h : g.Stage fs) (hnames : ∀ x ∈ rel, IsName x)
    (hsource : g.before.node? (g.root ++ rel) = some (.file data))
    (hok : fs.copy (entryPath g.source rel) (entryPath g.target rel) = .ok fs') :
    g.Stage fs' ∧ fs.Sets (g.base ++ rel) (some (.file (g.copyOf data))) fs' ∧
      fs.locate .target (entryPath g.source rel) = .ok (g.root ++ rel) ∧
      fs.locate .creation (entryPath g.target rel) = .ok (g.base ++ rel) := by
  have hn := (h.file_iff hg).2 hsource
  obtain ⟨data', place, loc, hlocate, hread, hwrite, rfl⟩ := FileSystem.copy_eq_ok_iff.1 hok
  -- both paths lead where they say
  have hplace := (h.sound.locate (h.unlinked_source hg hn) (by simp) hlocate).1
  obtain ⟨hloc, hroom, hdir⟩ := h.sound.writePlace (h.unlinked_target hg hnames fun _ hl => hl) hwrite
  rw [place_entryPath hnames, h.workDir] at hplace hloc
  obtain rfl : place = g.root ++ rel := hplace
  obtain rfl : loc = g.base ++ rel := hloc
  obtain rfl := Node.file.inj (Option.some.inj (hread.symm.trans hn))
  rw [if_neg fun heq => hg.apart _ _ heq.symm, h.clock]
  have hsets : fs.Sets (g.base ++ rel) (some (.file (g.copyOf data')))
      (fs.store (g.base ++ rel) (.file (g.copyOf data'))) := FileSystem.sets_store hroom.ne_nil _
  refine ⟨h.of_store hroom hdir (.written rfl hsource ?_ hsets.here), hsets, hlocate,
    (FileSystem.writePlace_eq_ok_iff.1 hwrite).1⟩
  rcases h.sound.rooted.open_of_writePlace hwrite with ⟨hnone, _⟩ | ⟨old, hold⟩
  · exact Or.inl (h.none_before hnone)
  · cases h.fate (g.base ++ rel) with
    | same hsame => exact Or.inr ⟨old, hsame ▸ hold⟩
    | dated _ hnow _ _ | made _ _ hnow =>
        rw [hnow] at hold
        cases hold
    | written _ _ hbefore _ => exact hbefore

end Stage

/-! ### What advances -/

/-- What is left of a stage when the copying has gone on: what there was is there, and what was copied
stays. -/
structure Next (g : Graft) (fs fs' : FileSystem) : Prop where
  stage : g.Stage fs'
  retains : fs.Retains fs'
  laid : ∀ {rel data}, g.before.node? (g.root ++ rel) = some (.file data) →
    fs.node? (g.base ++ rel) = some (.file (g.copyOf data)) →
    fs'.node? (g.base ++ rel) = some (.file (g.copyOf data))

/-- The copying goes on from one stage to another. -/
def Advances (g : Graft) (fs fs' : FileSystem) : Prop := g.Stage fs → g.Next fs fs'

instance : IsPreorder FileSystem g.Advances where
  refl := fun fs h => ⟨h, .refl fs, fun _ hlaid => hlaid⟩
  trans := fun _ _ _ h h' hstage => by
    have hnext := h hstage
    have hlast := h' hnext.stage
    exact ⟨hlast.stage, hnext.retains.trans hlast.retains, fun hsource hlaid =>
      hlast.laid hsource (hnext.laid hsource hlaid)⟩

theorem advances_copy (hg : g.Clear) (hnames : ∀ x ∈ rel, IsName x)
    (hsource : g.before.node? (g.root ++ rel) = some (.file data))
    (hok : fs.copy (entryPath g.source rel) (entryPath g.target rel) = .ok fs') :
    g.Advances fs fs' := by
  intro h
  obtain ⟨hstage, hsets, _⟩ := h.copy hg hnames hsource hok
  refine ⟨hstage, (FileSystem.upholds_copy hok h.sound.rooted).1, fun {rel' data'} hsource' hlaid => ?_⟩
  by_cases heq : g.base ++ rel' = g.base ++ rel
  · -- it is the copy of the same file
    obtain rfl := List.append_cancel_left heq
    obtain rfl := Node.file.inj (Option.some.inj (hsource.symm.trans hsource'))
    exact hsets.here
  · exact (hsets.file_iff heq).2 hlaid

/-- **Directories are made along the way to an entry.** -/
theorem advances_makeDirectories (hg : g.Clear) (hrel : g.Twig rel)
    (hp : p.way g.before.workDir ⊆ (entryPath g.target rel).way g.before.workDir) :
    KeepsTo g.Advances (Disk.makeDirectories p) := by
  refine Disk.keepsTo_makeFirst fun {fs fs' q} hq hok h => ?_
  -- the directory is on the way to the entry
  have hway := List.Subset.trans (Disk.way_of_makeDirectory hq hok g.before.workDir) hp
  have hbranch : g.Branch (q.place fs.workDir) := by
    rw [h.workDir]
    rcases mem_way_entryPath hrel.isName (hway (q.place_mem_way _)) with hl | ⟨front, hfront, heq⟩
    · exact Or.inl hl
    · exact heq ▸ hrel.branch front hfront
  refine ⟨h.makeDirectory (h.unlinked_target hg hrel.isName hway) hbranch hok,
    (FileSystem.upholds_makeDirectory hok h.sound.rooted).1, fun _ hlaid => ?_⟩
  exact (FileSystem.widens_makeDirectory hok).node?_iff rfl |>.2 hlaid

end Graft

end Rebuild
