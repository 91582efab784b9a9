/-
When a module has to be compiled.

The verdict on a module compares two times: that of its artifact, and that of the newest file that is
found under its roots.  The second is a maximum over a set of files, and the set is all that matters: in
which order the roots are given and the directories are read, whether a root is given twice, lies below
another one or is missing.  A module without any source counts as one written at the epoch.

A file is found if the path that leads to it from its root can be followed.  One that is deeper is passed
over, however new it is.

Main definitions:

* `Module.roots` — where the sources of a module are looked for;
* `FileSystem.Within` — the trees of one list of paths are parts of those of another, and found there;
* `FileSystem.Shallow` — no file is too deep;
* `FileSystem.newestWalked?` — the newest file, if the trees are read in another order.

Main results:

* `FileSystem.Rooted.newestUnderAll?_within` — **trees that are parts of each other have the same newest
  file**;
* `FileSystem.newestWalked?_eq` — the order in which directories are read does not matter;
* `Staleness.check_outcome` — **what the verdict is, and when**;
* `Staleness.abyss_upToDate` — a source that is too deep to be found.
-/
import Rebuild.Proofs.FileSystem.Rooted
import Rebuild.Staleness

set_option relaxedAutoImplicit false
set_option autoImplicit false

namespace Rebuild

/-- Where the sources of a module are looked for. -/
def Module.roots (m : Module) (layout : Layout) : List Path := m.sources.map layout.source

namespace FileSystem

variable {fs : FileSystem} {ps qs : List Path} {data : FileData}

/-- Each path of the first list that leads anywhere leads to where one of the second list leads, or to
somewhere below; and a file that is found from the first path is not too deep for the second. -/
def Within (fs : FileSystem) (ps qs : List Path) : Prop :=
  ∀ p ∈ ps, ∀ loc, fs.locate .entry p = .ok loc →
    ∃ q ∈ qs, ∃ top between, fs.locate .entry q = .ok top ∧ loc = top ++ between ∧
      ∀ rel data, fs.node? (loc ++ rel) = some (.file data) → (p.down rel).refusal? = none →
        (q.down (between ++ rel)).refusal? = none

/-- No file is too deep in any of the trees. -/
def Shallow (fs : FileSystem) (ps : List Path) : Prop :=
  ∀ p ∈ ps, ∀ loc rel data, fs.locate .entry p = .ok loc →
    fs.node? (loc ++ rel) = some (.file data) → (p.down rel).refusal? = none

/-- The time of the newest file in any of the trees, if the scan of each comes to what is `walked`. -/
def newestWalked? (fs : FileSystem) (walked : Path → List (Except IoError (Location × Node)))
    (ps : List Path) : Option Time :=
  Time.latest? (ps.filterMap fun p =>
    if fs.present p then Time.latest? ((walked p).filterMap (scannedTime? p)) else none)

/-- A file that is found in a part is found in the whole. -/
theorem DiscoversIn.within (h : fs.DiscoversIn ps data) (hwithin : fs.Within ps qs) :
    fs.DiscoversIn qs data := by
  obtain ⟨p, hp, loc, rel, hloc, hn, hread⟩ := h
  obtain ⟨q, hq, top, between, htop, rfl, hdeep⟩ := hwithin p hp loc hloc
  have hn' : fs.node? (top ++ (between ++ rel)) = some (.file data) := by
    rwa [← List.append_assoc]
  exact ⟨q, hq, top, between ++ rel, htop, hn', hdeep rel data hn hread⟩

/-- A path that goes on from another one, name after name, is within it. -/
theorem within_of_down (h : ∀ p ∈ ps, ∀ loc, fs.locate .entry p = .ok loc → ∃ q ∈ qs, ∃ top between,
    fs.locate .entry q = .ok top ∧ loc = top ++ between ∧ p = q.down between) : fs.Within ps qs := by
  intro p hp loc hloc
  obtain ⟨q, hq, top, between, htop, hlocEq, rfl⟩ := h p hp loc hloc
  exact ⟨q, hq, top, between, htop, hlocEq, fun rel _ _ hread => by rwa [Path.down_append]⟩

/-- Where no file is too deep, a scan finds what is there. -/
theorem discoversIn_iff_holdsIn (h : fs.Shallow ps) : fs.DiscoversIn ps data ↔ fs.HoldsIn ps data := by
  constructor
  · rintro ⟨p, hp, loc, rel, hloc, hn, _⟩
    exact ⟨p, hp, loc, rel, hloc, hn⟩
  · rintro ⟨p, hp, loc, rel, hloc, hn⟩
    exact ⟨p, hp, loc, rel, hloc, hn, h p hp loc rel data hloc hn⟩

/-- **Trees that are parts of each other have the same newest file.** -/
theorem Rooted.newestUnderAll?_within (h : fs.Rooted) (hps : ∀ p ∈ ps, fs.isLink p = false)
    (hqs : ∀ q ∈ qs, fs.isLink q = false) (hwithin : fs.Within ps qs) (hwithin' : fs.Within qs ps) :
    fs.newestUnderAll? ps = fs.newestUnderAll? qs := by
  have hsame : ∀ data, fs.DiscoversIn ps data ↔ fs.DiscoversIn qs data := fun data =>
    ⟨fun hdata => hdata.within hwithin, fun hdata => hdata.within hwithin'⟩
  ext t
  rw [h.newestUnderAll?_eq_some_iff hps, h.newestUnderAll?_eq_some_iff hqs]
  simp only [hsame]

/-- **The order in which directories are read does not matter.** -/
theorem newestWalked?_eq {walked : Path → List (Except IoError (Location × Node))}
    (h : ∀ p ∈ ps, (walked p).Perm (fs.scan p)) : fs.newestWalked? walked ps = fs.newestUnderAll? ps := by
  unfold newestWalked? newestUnderAll?
  congr 1
  refine List.filterMap_congr fun p hp => ?_
  unfold newestUnder?
  split
  · exact Time.latest?_congr fun t => ((h p hp).filterMap _).mem_iff
  · rfl

end FileSystem

/-! ### The verdict -/

section

variable {source artifact : Option Time}

theorem judge_eq_artifactMissing_iff : judge source artifact = .artifactMissing ↔ artifact = none := by
  cases artifact with
  | none => simp [judge]
  | some t =>
      rw [judge]
      split <;> simp

theorem judge_eq_sourcesNewer_iff : judge source artifact = .sourcesNewer ↔
    ∃ t, artifact = some t ∧ t < source.getD .epoch := by
  cases artifact with
  | none => simp [judge]
  | some t =>
      rw [judge]
      split <;> simp_all

theorem judge_eq_upToDate_iff : judge source artifact = .upToDate ↔
    ∃ t, artifact = some t ∧ ¬ t < source.getD .epoch := by
  cases artifact with
  | none => simp [judge]
  | some t =>
      rw [judge]
      split <;> simp_all

end

namespace Staleness

variable {m : Module} {layout : Layout} {fs : FileSystem}

theorem reason_eq (m : Module) (layout : Layout) (fs : FileSystem) : (check m layout fs).reason =
    judge (fs.newestUnderAll? (m.roots layout)) (fs.timeOf? (layout.output m.artifact)) := by
  simp only [check, Module.roots]

theorem sourceTime_eq (m : Module) (layout : Layout) (fs : FileSystem) :
    (check m layout fs).sourceTime = fs.newestUnderAll? (m.roots layout) := by
  simp only [check, Module.roots]

/-- A time is earlier than the newest of several trees if it is earlier than a file found in one, or if
none is found and it is before the epoch. -/
theorem lt_newest_iff (htree : fs.Rooted) {ps : List Path} (hps : ∀ p ∈ ps, fs.isLink p = false)
    (t : Time) : t < (fs.newestUnderAll? ps).getD .epoch ↔
      (∃ data, fs.DiscoversIn ps data ∧ t < data.time) ∨
        (∀ data, ¬ fs.DiscoversIn ps data) ∧ t < .epoch := by
  cases hnewest : fs.newestUnderAll? ps with
  | none =>
      have hnone := (htree.newestUnderAll?_eq_none_iff hps).1 hnewest
      simp [hnone]
  | some newest =>
      obtain ⟨⟨latest, hlatest, rfl⟩, hmax⟩ := (htree.newestUnderAll?_eq_some_iff hps).1 hnewest
      constructor
      · intro hlt
        exact Or.inl ⟨latest, hlatest, hlt⟩
      · rintro (⟨data, hdata, hlt⟩ | ⟨hnone, _⟩)
        · exact Int.lt_of_lt_of_le hlt (hmax data hdata)
        · exact absurd hlatest (hnone latest)

/-- **What the verdict on a module is, and when.**  The artifact is missing if nothing is at its path.
Otherwise the sources are newer if one of the files found under the roots is strictly newer than the
artifact, or if none is found and the artifact is dated before the epoch; and if not, the module is up to
date.  The time of the sources is the latest of the times of exactly these files.  If none is too deep,
these are all the files there are.  The time is the same for a module whose roots lead into the same
trees, and however the directories are read. -/
theorem check_outcome (m : Module) (layout : Layout) (fs : FileSystem) (htree : fs.Rooted)
    (hroots : ∀ p ∈ m.roots layout, fs.isLink p = false) :
    ((check m layout fs).reason = .artifactMissing ↔ fs.present (layout.output m.artifact) = false) ∧
    ((check m layout fs).reason = .sourcesNewer ↔
      ∃ artifact, fs.timeOf? (layout.output m.artifact) = some artifact ∧
        ((∃ data, fs.DiscoversIn (m.roots layout) data ∧ artifact < data.time) ∨
          (∀ data, ¬ fs.DiscoversIn (m.roots layout) data) ∧ artifact < .epoch)) ∧
    ((check m layout fs).reason = .upToDate ↔
      ∃ artifact, fs.timeOf? (layout.output m.artifact) = some artifact ∧
        ¬ ((∃ data, fs.DiscoversIn (m.roots layout) data ∧ artifact < data.time) ∨
          (∀ data, ¬ fs.DiscoversIn (m.roots layout) data) ∧ artifact < .epoch)) ∧
    (∀ t, (check m layout fs).sourceTime = some t ↔
      (∃ data, fs.DiscoversIn (m.roots layout) data ∧ data.time = t) ∧
        ∀ data, fs.DiscoversIn (m.roots layout) data → data.time ≤ t) ∧
    ((check m layout fs).sourceTime = none ↔ ∀ data, ¬ fs.DiscoversIn (m.roots layout) data) ∧
    (fs.Shallow (m.roots layout) →
      ∀ data, fs.DiscoversIn (m.roots layout) data ↔ fs.HoldsIn (m.roots layout) data) ∧
    (∀ m' : Module, (∀ p ∈ m'.roots layout, fs.isLink p = false) →
      fs.Within (m'.roots layout) (m.roots layout) → fs.Within (m.roots layout) (m'.roots layout) →
        (check m' layout fs).sourceTime = (check m layout fs).sourceTime) ∧
    ∀ walked : Path → List (Except IoError (Location × Node)),
      (∀ p ∈ m.roots layout, (walked p).Perm (fs.scan p)) →
        fs.newestWalked? walked (m.roots layout) = (check m layout fs).sourceTime := by
  rw [reason_eq, sourceTime_eq]
  refine ⟨?_, ?_, ?_, fun t => htree.newestUnderAll?_eq_some_iff hroots,
    htree.newestUnderAll?_eq_none_iff hroots,
    fun hshallow _ => FileSystem.discoversIn_iff_holdsIn hshallow, fun m' hroots' hin hin' => ?_,
    fun walked hwalked => FileSystem.newestWalked?_eq hwalked⟩
  · rw [judge_eq_artifactMissing_iff, Option.eq_none_iff_forall_ne_some, Bool.eq_false_iff, Ne,
      htree.present_iff, not_exists]
  · simp only [judge_eq_sourcesNewer_iff, lt_newest_iff htree hroots]
  · simp only [judge_eq_upToDate_iff, lt_newest_iff htree hroots]
  · rw [sourceTime_eq]
    exact htree.newestUnderAll?_within hroots' hroots hin hin'

/-! ### A module whose roots lie within each other -/

/-- Two sources, a link to where a newer file is, and artifacts as old as the newer source and from
before the epoch. -/
def atticFiles : FileSystem where
  nodes := [(["p"], .directory ⟨1⟩), (["p", "src"], .directory ⟨9⟩),
    (["p", "src", "a.x"], .file ⟨[], ⟨5⟩, false⟩), (["p", "src", "in"], .directory ⟨9⟩),
    (["p", "src", "in", "b.x"], .file ⟨[], ⟨7⟩, false⟩), (["p", "src", "far"], .link ⟨"/q"⟩),
    (["q"], .directory ⟨1⟩), (["q", "c.x"], .file ⟨[], ⟨99⟩, false⟩),
    (["out"], .directory ⟨1⟩), (["out", "m.xtc"], .file ⟨[], ⟨7⟩, false⟩),
    (["out", "old.xtc"], .file ⟨[], ⟨-1⟩, false⟩)]
  workDir := []
  clock := ⟨9⟩
  separate := ⟨by decide⟩

def atticModule (sources : List Path) (artifact : Path) : Module where
  name := "attic"
  sources := sources
  entries := [⟨"src/a.x"⟩]
  outputDir := ⟨""⟩
  artifact := artifact
  libraries := []
  deps := []
  requires := []
  relocations := []

def atticLayout : Layout := .ofRoots ⟨"/p"⟩ ⟨"/out"⟩

/-- A root that is a file, one that is missing, and one in another one that is given twice. -/
def atticSources : List Path := [⟨"src/in/b.x"⟩, ⟨"gone"⟩, ⟨"src"⟩, ⟨"src/in"⟩, ⟨"./src"⟩]

theorem attic_rooted : atticFiles.Rooted := FileSystem.rooted_of_nodes (by decide)

/-- The roots lead to the sources, into them, or nowhere. -/
theorem attic_roots : atticFiles.locate .entry (atticLayout.source ⟨"src"⟩) = .ok ["p", "src"] ∧
    ∀ p ∈ atticSources.map atticLayout.source, atticFiles.isLink p = false ∧
      ∀ loc ∈ (atticFiles.locate .entry p).toOption, loc = ["p", "src"] ++ loc.drop 2 ∧
        p = (atticLayout.source ⟨"src"⟩).down (loc.drop 2) := by
  decide +kernel

theorem attic_within (artifact artifact' : Path) :
    atticFiles.Within ((atticModule atticSources artifact).roots atticLayout)
        ((atticModule [⟨"src"⟩] artifact').roots atticLayout) ∧
      atticFiles.Within ((atticModule [⟨"src"⟩] artifact').roots atticLayout)
        ((atticModule atticSources artifact).roots atticLayout) := by
  constructor
  · refine FileSystem.within_of_down fun p hp loc hloc => ?_
    obtain ⟨hloc', hp'⟩ := (attic_roots.2 p hp).2 loc (by rw [hloc]; rfl)
    exact ⟨_, List.mem_singleton.2 rfl, _, _, attic_roots.1, hloc', hp'⟩
  · refine FileSystem.within_of_down fun p hp loc hloc => ?_
    have hsrc : ⟨"src"⟩ ∈ atticSources := by decide
    exact ⟨p, List.mem_map.2 ⟨_, hsrc, (List.mem_singleton.1 hp).symm⟩, loc, [], hloc,
      (List.append_nil _).symm, rfl⟩

theorem attic_isLink {sources : List Path} (h : ∀ s ∈ sources, s ∈ atticSources) (artifact : Path) :
    ∀ p ∈ (atticModule sources artifact).roots atticLayout, atticFiles.isLink p = false := by
  intro p hp
  obtain ⟨s, hs, rfl⟩ := List.mem_map.1 hp
  exact (attic_roots.2 _ (List.mem_map_of_mem (h s hs))).1

/-- What the link leads to is no source. -/
theorem attic_time_le {artifact : Path} {data : FileData}
    (h : atticFiles.DiscoversIn ((atticModule atticSources artifact).roots atticLayout) data) :
    data.time ≤ ⟨7⟩ := by
  have hall : ∀ e ∈ atticFiles.nodes, ["p", "src"].isPrefixOf e.1 = true → e.2.isFile = true →
      e.2.time?.getD .epoch ≤ ⟨7⟩ := by decide
  obtain ⟨p, hp, loc, rel, hloc, hn, _⟩ := h.within (attic_within artifact artifact).1
  obtain rfl := List.mem_singleton.1 hp
  obtain rfl := Except.ok.inj (attic_roots.1.symm.trans hloc)
  exact hall _ ((FileSystem.node?_eq_some_iff (by simp)).1 hn)
    (List.isPrefixOf_iff_prefix.2 (List.prefix_append ..)) rfl

/-- The newest source counts once, wherever it is found, and not what the link leads to. -/
theorem attic_check_outcome :
    atticFiles.Rooted ∧
      (check (atticModule atticSources ⟨"m.xtc"⟩) atticLayout atticFiles).reason = .upToDate ∧
      (check (atticModule atticSources ⟨"m.xtc"⟩) atticLayout atticFiles).sourceTime = some ⟨7⟩ ∧
      (check (atticModule [⟨"src"⟩] ⟨"no.xtc"⟩) atticLayout atticFiles).sourceTime = some ⟨7⟩ ∧
      (check (atticModule [⟨"src"⟩] ⟨"no.xtc"⟩) atticLayout atticFiles).reason = .artifactMissing ∧
      atticFiles.newestWalked? (fun p => (atticFiles.scan p).reverse)
        ((atticModule atticSources ⟨"m.xtc"⟩).roots atticLayout) = some ⟨7⟩ ∧
      (check (atticModule [] ⟨"old.xtc"⟩) atticLayout atticFiles).reason = .sourcesNewer ∧
      (check (atticModule [] ⟨"old.xtc"⟩) atticLayout atticFiles).sourceTime = none := by
  obtain ⟨_, _, hfresh, htime, _, _, hroots, hwalked⟩ := check_outcome (atticModule atticSources ⟨"m.xtc"⟩)
    atticLayout atticFiles attic_rooted (attic_isLink (fun _ h => h) _)
  obtain ⟨hmissing, _⟩ := check_outcome (atticModule [⟨"src"⟩] ⟨"no.xtc"⟩) atticLayout atticFiles
    attic_rooted (attic_isLink (by decide) _)
  obtain ⟨_, hnewer, _, _, hbare, _⟩ := check_outcome (atticModule [] ⟨"old.xtc"⟩) atticLayout atticFiles
    attic_rooted (attic_isLink (by decide) _)
  have hin : atticFiles.DiscoversIn ((atticModule atticSources ⟨"m.xtc"⟩).roots atticLayout)
      ⟨[], ⟨7⟩, false⟩ :=
    ⟨atticLayout.source ⟨"src"⟩, List.mem_map_of_mem (by decide), _, ["in", "b.x"], attic_roots.1, rfl,
      by decide +kernel⟩
  have hsource := (htime ⟨7⟩).2 ⟨⟨_, hin, rfl⟩, fun data hdata => attic_time_le hdata⟩
  have hno : ∀ data, ¬ atticFiles.DiscoversIn ((atticModule [] ⟨"old.xtc"⟩).roots atticLayout) data := by
    rintro data ⟨p, hp, _⟩
    cases hp
  have hwithin := attic_within ⟨"m.xtc"⟩ ⟨"no.xtc"⟩
  refine ⟨attic_rooted, ?_, hsource, ?_, ?_, ?_, ?_, hbare.2 hno⟩
  · refine hfresh.2 ⟨⟨7⟩, by decide +kernel, ?_⟩
    rintro (⟨data, hdata, hlt⟩ | ⟨hnone, _⟩)
    · exact Time.not_lt.2 (attic_time_le hdata) hlt
    · exact hnone _ hin
  · rw [hroots _ (attic_isLink (by decide) _) hwithin.2 hwithin.1, hsource]
  · exact hmissing.2 (by decide +kernel)
  · rw [hwalked _ fun p _ => List.reverse_perm _, hsource]
  · exact hnewer.2 ⟨⟨-1⟩, by decide +kernel, Or.inr ⟨hno, by decide⟩⟩

/-! ### A source that is too deep -/

/-- A name of the greatest length. -/
def longName : String := String.ofList (List.replicate maxNameLength 'd')

theorem size_longName : longName.utf8ByteSize = maxNameLength := by
  rw [longName, String.utf8ByteSize_ofList]
  generalize maxNameLength = n
  induction n with
  | zero => rfl
  | succ n ih =>
      rw [List.replicate_succ, String.utf8Len_cons, ih]
      rfl

/-- A directory that many directories below the sources. -/
def abyss (depth : ℕ) : Location := ["p", "src"] ++ List.replicate depth longName

theorem abyss_injective : Function.Injective abyss := by
  intro depth depth' h
  simpa [abyss] using congrArg List.length h

theorem dropLast_abyss (depth : ℕ) : (abyss (depth + 1)).dropLast = abyss depth := by
  rw [abyss, List.replicate_succ', ← List.append_assoc, List.dropLast_concat, abyss]

theorem source_notMem_abyss (depth : ℕ) : "a.x" ∉ abyss depth := by
  have hname : "a.x" ≠ longName := by
    intro h
    have hsize := congrArg String.utf8ByteSize h
    rw [size_longName] at hsize
    exact absurd hsize (by decide)
  simp [abyss, hname]

/-- An artifact, and a newer source where the paths are longer than any that can be followed. -/
def abyssFiles : FileSystem where
  nodes := [(["p"], .directory ⟨1⟩), (["out"], .directory ⟨1⟩),
    (["out", "m.xtc"], .file ⟨[], ⟨5⟩, false⟩), (abyss 17 ++ ["a.x"], .file ⟨[], ⟨9⟩, false⟩)] ++
      (List.range 18).map fun depth => (abyss depth, .directory ⟨1⟩)
  workDir := []
  clock := ⟨9⟩
  separate := by
    refine ⟨?_⟩
    rw [List.map_append, List.map_map]
    refine List.nodup_append.2 ⟨by simp [abyss], List.nodup_range.map abyss_injective, ?_⟩
    -- none of the directories is one of the entries that are written out
    rintro loc hloc _ hdir rfl
    obtain ⟨depth, _, rfl⟩ := List.mem_map.1 hdir
    have hsource : abyss depth ≠ abyss 17 ++ ["a.x"] := fun h =>
      source_notMem_abyss depth (by simp [h])
    simp only [List.map_cons, List.map_nil, List.mem_cons, List.not_mem_nil, or_false,
      Function.comp_apply, hsource] at hloc
    simp [abyss] at hloc

theorem abyss_directory {depth : ℕ} (h : depth < 18) : abyssFiles.isDirectoryAt (abyss depth) = true := by
  have hmem : (abyss depth, .directory ⟨1⟩) ∈ abyssFiles.nodes :=
    List.mem_append_right _ (List.mem_map.2 ⟨depth, List.mem_range.2 h, rfl⟩)
  exact FileSystem.isDirectoryAt_eq_true_iff.2
    ⟨⟨1⟩, (FileSystem.node?_eq_some_iff (by simp [abyss])).2 hmem⟩

theorem abyss_rooted : abyssFiles.Rooted := by
  refine FileSystem.rooted_of_nodes fun e he => ?_
  rcases List.mem_append.1 he with he | he
  · simp only [List.mem_cons, List.not_mem_nil, or_false] at he
    rcases he with rfl | rfl | rfl | rfl
    · rfl
    · rfl
    · rfl
    · rw [List.dropLast_concat]
      exact abyss_directory (by decide)
  · obtain ⟨depth, hdepth, rfl⟩ := List.mem_map.1 he
    cases depth with
    | zero => rfl
    | succ depth =>
        rw [dropLast_abyss]
        exact abyss_directory (by have := List.mem_range.1 hdepth; omega)

theorem abyss_locate : abyssFiles.locate .entry (atticLayout.source ⟨"src"⟩) = .ok ["p", "src"] := by
  decide +kernel

/-- The only source is not found. -/
theorem abyss_not_discovered (artifact : Path) (data : FileData) :
    ¬ abyssFiles.DiscoversIn ((atticModule [⟨"src"⟩] artifact).roots atticLayout) data := by
  rintro ⟨p, hp, loc, rel, hloc, hn, hread⟩
  obtain rfl := List.mem_singleton.1 hp
  obtain rfl := Except.ok.inj (abyss_locate.symm.trans hloc)
  have hrel : rel = List.replicate 17 longName ++ ["a.x"] := by
    rcases List.mem_append.1 ((FileSystem.node?_eq_some_iff (by simp)).1 hn) with hmem | hmem
    · simp only [List.mem_cons, List.not_mem_nil, or_false, Prod.mk.injEq] at hmem
      rcases hmem with ⟨_, h⟩ | ⟨_, h⟩ | ⟨h, _⟩ | ⟨h, _⟩
      · cases h
      · cases h
      · simp at h
      · rw [abyss, List.append_assoc] at h
        exact List.append_cancel_left h
    · simp at hmem
  refine Path.refusal?_ne_none_of_long ?_ hread
  rw [hrel, List.map_append, List.map_replicate, size_longName]
  decide

/-- **A newer source that is too deep to be found leaves the module up to date.** -/
theorem abyss_upToDate : abyssFiles.Rooted ∧
    (∀ p ∈ (atticModule [⟨"src"⟩] ⟨"m.xtc"⟩).roots atticLayout, abyssFiles.isLink p = false) ∧
    abyssFiles.timeOf? (atticLayout.output ⟨"m.xtc"⟩) = some ⟨5⟩ ∧
    abyssFiles.HoldsIn ((atticModule [⟨"src"⟩] ⟨"m.xtc"⟩).roots atticLayout) ⟨[], ⟨9⟩, false⟩ ∧
    (check (atticModule [⟨"src"⟩] ⟨"m.xtc"⟩) atticLayout abyssFiles).reason = .upToDate ∧
    (check (atticModule [⟨"src"⟩] ⟨"m.xtc"⟩) atticLayout abyssFiles).sourceTime = none := by
  have hroots : ∀ p ∈ (atticModule [⟨"src"⟩] ⟨"m.xtc"⟩).roots atticLayout,
      abyssFiles.isLink p = false := by
    intro p hp
    obtain rfl := List.mem_singleton.1 hp
    decide +kernel
  have hartifact : abyssFiles.timeOf? (atticLayout.output ⟨"m.xtc"⟩) = some ⟨5⟩ := by decide +kernel
  have hsource : abyssFiles.node? (["p", "src"] ++ (List.replicate 17 longName ++ ["a.x"])) =
      some (.file ⟨[], ⟨9⟩, false⟩) := by
    rw [← List.append_assoc]
    exact (FileSystem.node?_eq_some_iff (by simp)).2 (by simp [abyssFiles, abyss])
  have hnone := (abyss_rooted.newestUnderAll?_eq_none_iff hroots).2 (abyss_not_discovered _)
  refine ⟨abyss_rooted, hroots, hartifact, ⟨_, List.mem_singleton.2 rfl, _, _, abyss_locate, hsource⟩, ?_,
    hnone⟩
  rw [reason_eq, judge_eq_upToDate_iff, hnone]
  exact ⟨_, hartifact, by decide⟩

end Staleness

end Rebuild
