/-
File systems in which every entry is in a directory, links or not.

A table of entries can hold an entry whose directory is missing; no disk can.  Where every entry is in
a directory, following a path never ends at a link, and what a path names is what it leads to unless
that is a link itself.  So which files a scan of a tree finds can be read off the entries and their paths,
and the newest of several trees is the latest of the times of these files.

Main definitions:

* `FileSystem.Rooted` — **every entry is in a directory**;
* `FileSystem.isLink` — the path names a link;
* `FileSystem.Holds` — the file is at a path or anywhere below, no link followed on the way down;
* `FileSystem.Discovers` — and **the path that a scan comes to it by can be followed**.

Main results:

* `FileSystem.Rooted.locate_ends` — where a path that is followed can end;
* `FileSystem.Rooted.present_iff` — what is there has a time;
* `FileSystem.locate_target_of_entry` — **what a path names is what it leads to**, unless it is a link;
* `FileSystem.Rooted.newestUnderAll?_eq_some_iff`, `FileSystem.Rooted.newestUnderAll?_eq_none_iff` — the
  newest of several trees is the maximum over the files that scans of them find.
-/
import Rebuild.Proofs.FileSystem.Directories
import Rebuild.Proofs.Path

set_option relaxedAutoImplicit false
set_option autoImplicit false

namespace Rebuild

/-- A path that says something has a step to go, or starts at the root. -/
theorem Path.walkSteps_ne_nil {p : Path} (hfault : p.fault? = none) (hrel : p.isAbsolute = false) :
    p.walkSteps ≠ [] := by
  have htext : p.text.isEmpty = false := by
    cases hempty : p.text.isEmpty with
    | false => rfl
    | true =>
        unfold fault? at hfault
        split at hfault
        · cases hfault
        · simp at hfault
  obtain ⟨c, cs, hcs⟩ : ∃ c cs, p.text.toList = c :: cs := by
    refine List.exists_cons_of_ne_nil fun hnil => ?_
    simp [String.toList_eq_nil_iff.1 hnil] at htext
  have hc : c ≠ '/' := by
    rintro rfl
    rw [isAbsolute_iff.2 ⟨cs, hcs⟩] at hrel
    cases hrel
  -- the first piece holds at least the first letter
  obtain ⟨piece, rest, hpieces⟩ : ∃ piece rest, pieces p.text.toList = (c :: piece) :: rest := by
    rw [hcs, pieces, if_neg hc]
    split
    · exact ⟨_, _, rfl⟩
    · exact ⟨_, _, rfl⟩
  have hsome : ∃ d, Component.ofPiece? (c :: piece) = some d := by
    unfold Component.ofPiece?
    split <;> simp_all
  obtain ⟨d, hd⟩ := hsome
  rw [walkSteps, steps, hpieces, List.filterMap_cons_some hd]
  simp

/-- Only the empty text names nothing before the walk begins. -/
theorem Path.fault?_ne_notFound {p : Path} (h : p.text.isEmpty = false) :
    p.fault? ≠ some .notFound := by
  unfold fault?
  rw [h]
  split
  · simp
  · split
    · rename_i hfalse
      cases hfalse
    · split <;> simp

namespace FileSystem

/-- **Every entry is in a directory.** -/
structure Rooted (fs : FileSystem) : Prop where
  parent : ∀ {loc n}, fs.node? loc = some n → fs.isDirectoryAt loc.dropLast = true

/-- The path names a link. -/
def isLink (fs : FileSystem) (p : Path) : Bool := (fs.lookup .entry p).toOption.any Node.isLink

/-- The file is at the path or anywhere below, no link followed on the way down. -/
def Holds (fs : FileSystem) (p : Path) (data : FileData) : Prop :=
  ∃ loc rel, fs.locate .entry p = .ok loc ∧ fs.node? (loc ++ rel) = some (.file data)

/-- The file is in one of the trees. -/
def HoldsIn (fs : FileSystem) (ps : List Path) (data : FileData) : Prop :=
  ∃ p ∈ ps, fs.Holds p data

/-- **A scan from the path comes to the file**: it is at the path or anywhere below, and the path that the
scan comes to it by, name after name, can be followed. -/
def Discovers (fs : FileSystem) (p : Path) (data : FileData) : Prop :=
  ∃ loc rel, fs.locate .entry p = .ok loc ∧ fs.node? (loc ++ rel) = some (.file data) ∧
    (p.down rel).refusal? = none

/-- The file is found in one of the trees. -/
def DiscoversIn (fs : FileSystem) (ps : List Path) (data : FileData) : Prop :=
  ∃ p ∈ ps, fs.Discovers p data

/-- Something is there, and it is no link. -/
def Solid (fs : FileSystem) (loc : Location) : Prop := ∃ n, fs.node? loc = some n ∧ n.isLink = false

/-- Nothing is there, in a directory. -/
def Vacant (fs : FileSystem) (loc : Location) : Prop :=
  fs.node? loc = none ∧ fs.isDirectoryAt loc.dropLast = true

variable {fs : FileSystem} {goal : Goal} {cur loc : Location} {n : Node} {p : Path} {t : Time}

/-! ### What is above an entry -/

theorem isDirectoryAt_eq_true_iff : fs.isDirectoryAt loc = true ↔
    ∃ t, fs.node? loc = some (.directory t) := by
  unfold isDirectoryAt
  cases fs.node? loc with
  | none => simp
  | some n => cases n <;> simp [Node.isDirectory]

theorem isSome_of_isDirectoryAt (h : fs.isDirectoryAt loc = true) : (fs.node? loc).isSome = true := by
  obtain ⟨t, ht⟩ := isDirectoryAt_eq_true_iff.1 h
  rw [ht]
  rfl

theorem solid_of_isDirectoryAt (h : fs.isDirectoryAt loc = true) : fs.Solid loc := by
  obtain ⟨t, ht⟩ := isDirectoryAt_eq_true_iff.1 h
  exact ⟨_, ht, rfl⟩

/-- The entries can be looked at one by one. -/
theorem forall_of_nodes {P : Location → Node → Prop} (hroot : ∀ t, P [] (.directory t))
    (h : ∀ e ∈ fs.nodes, P e.1 e.2) (hn : fs.node? loc = some n) : P loc n := by
  by_cases hnil : loc = []
  · subst hnil
    obtain rfl := Option.some.inj hn
    exact hroot _
  · exact h _ ((node?_eq_some_iff hnil).1 hn)

theorem rooted_of_nodes (h : ∀ e ∈ fs.nodes, fs.isDirectoryAt e.1.dropLast = true) : fs.Rooted :=
  ⟨forall_of_nodes (P := fun loc _ => fs.isDirectoryAt loc.dropLast = true) (fun _ => rfl) h⟩

/-- Whatever is above an entry is a directory. -/
theorem Rooted.above {rel : Location} (h : fs.Rooted) (hn : fs.node? (loc ++ rel) = some n)
    (hrel : rel ≠ []) : fs.isDirectoryAt loc = true := by
  induction rel using List.reverseRecOn generalizing n with
  | nil => exact absurd rfl hrel
  | append_singleton rel x ih =>
      have hparent := h.parent hn
      rw [← List.append_assoc, List.dropLast_concat] at hparent
      by_cases hnil : rel = []
      · simpa [hnil] using hparent
      · obtain ⟨t, ht⟩ := isDirectoryAt_eq_true_iff.1 hparent
        exact ih ht hnil

/-- Where nothing is, nothing is below. -/
theorem Rooted.none_below (h : fs.Rooted) (hn : fs.node? loc = none) (rel : Location) :
    fs.node? (loc ++ rel) = none := by
  by_cases hrel : rel = []
  · rw [hrel, List.append_nil, hn]
  · by_contra hsome
    obtain ⟨n, hbelow⟩ := Option.ne_none_iff_exists'.1 hsome
    have habove := isSome_of_isDirectoryAt (h.above hbelow hrel)
    rw [hn] at habove
    cases habove

/-! ### Where walks end -/

/-- Walks differ only in what they do at a link. -/
theorem exists_walk_eq (fs : FileSystem) (goal : Goal) (links : ℕ) :
    ∃ onLink, fs.walk goal links = fs.walkWith goal onLink := by
  cases links with
  | zero => exact ⟨_, rfl⟩
  | succ links => exact ⟨_, rfl⟩

theorem Rooted.walkWith_ends (h : fs.Rooted) (hgoal : goal ≠ .entry)
    {onLink : Location → List Step → Except IoError Location}
    (hlink : ∀ {cur steps loc}, fs.Solid cur → onLink cur steps = .ok loc →
      fs.Solid loc ∨ goal = .creation ∧ fs.Vacant loc)
    {steps : List Step} (hcur : fs.Solid cur) (hwalk : fs.walkWith goal onLink cur steps = .ok loc) :
    fs.Solid loc ∨ goal = .creation ∧ fs.Vacant loc := by
  induction steps generalizing cur with
  | nil =>
      obtain rfl := Except.ok.inj hwalk
      exact Or.inl hcur
  | cons step rest ih =>
      have hdir := isDirectoryAt_of_walkWith hwalk
      match step with
      | .slash | .go .here =>
          rw [walkWith, if_pos hdir] at hwalk
          exact ih hcur hwalk
      | .go .root =>
          rw [walkWith, if_pos hdir] at hwalk
          exact ih (solid_of_isDirectoryAt rfl) hwalk
      | .go .up =>
          rw [walkWith, if_pos hdir] at hwalk
          obtain ⟨n, hn, _⟩ := hcur
          exact ih (solid_of_isDirectoryAt (h.parent hn)) hwalk
      | .go (.name x) =>
          obtain ⟨_, _, _, ⟨hnone, hcreation, _, rfl⟩ |
              ⟨n, hn, ⟨hpass, hnext⟩ | ⟨target, _, ⟨hend, _⟩ | ⟨_, hnext⟩⟩⟩⟩ :=
            walkWith_name_cases.1 hwalk
          · exact Or.inr ⟨hcreation, hnone, by rwa [List.dropLast_concat]⟩
          · exact ih ⟨n, hn, hpass⟩ hnext
          · exact absurd hend hgoal
          · refine hlink ?_ hnext
            split
            · exact solid_of_isDirectoryAt rfl
            · exact hcur

theorem Rooted.walk_ends (h : fs.Rooted) (hgoal : goal ≠ .entry) {links : ℕ} {steps : List Step}
    (hcur : fs.Solid cur) (hwalk : fs.walk goal links cur steps = .ok loc) :
    fs.Solid loc ∨ goal = .creation ∧ fs.Vacant loc := by
  -- on the links that may still be followed; each link starts a walk with one fewer
  induction links generalizing cur steps loc with
  | zero => exact h.walkWith_ends hgoal (fun _ hl => by cases hl) hcur hwalk
  | succ links ih => exact h.walkWith_ends hgoal ih hcur hwalk

/-- **A path that is followed never ends at a link**: something else is there, or something may be
created there. -/
theorem Rooted.locate_ends (h : fs.Rooted) (hgoal : goal ≠ .entry) (hloc : fs.locate goal p = .ok loc) :
    fs.Solid loc ∨ goal = .creation ∧ fs.Vacant loc := by
  unfold locate follow at hloc
  split at hloc
  · cases hloc
  · rename_i hfault
    cases habs : p.isAbsolute with
    | true =>
        rw [startOf, if_pos habs] at hloc
        exact h.walk_ends hgoal (solid_of_isDirectoryAt rfl) hloc
    | false =>
        obtain ⟨step, rest, hsteps⟩ := List.exists_cons_of_ne_nil (Path.walkSteps_ne_nil hfault habs)
        rw [hsteps] at hloc
        obtain ⟨onLink, heq⟩ := exists_walk_eq fs goal maxLinks
        have hdir := isDirectoryAt_of_walkWith (heq ▸ hloc)
        exact h.walk_ends hgoal (solid_of_isDirectoryAt hdir) hloc

/-- What a path leads to is no link. -/
theorem Rooted.locate_solid (h : fs.Rooted) (hloc : fs.locate .target p = .ok loc) : fs.Solid loc := by
  rcases h.locate_ends (by simp) hloc with hsolid | ⟨hcreation, _⟩
  · exact hsolid
  · cases hcreation

theorem walkWith_target_of_entry {onLink onLink' : Location → List Step → Except IoError Location}
    (hlink : ∀ {cur steps loc}, (∀ target, fs.node? loc ≠ some (.link target)) →
      onLink cur steps = .ok loc → onLink' cur steps = .ok loc)
    {steps : List Step} (hend : ∀ target, fs.node? loc ≠ some (.link target))
    (hwalk : fs.walkWith .entry onLink cur steps = .ok loc) :
    fs.walkWith .target onLink' cur steps = .ok loc := by
  induction steps generalizing cur with
  | nil => exact hwalk
  | cons step rest ih =>
      have hdir := isDirectoryAt_of_walkWith hwalk
      match step with
      | .slash | .go .root | .go .here | .go .up =>
          rw [walkWith, if_pos hdir] at hwalk ⊢
          exact ih hwalk
      | .go (.name x) =>
          obtain ⟨_, hshort, n, hn, hnext⟩ := (walkWith_name_iff (by simp)).1 hwalk
          refine (walkWith_name_iff (by simp)).2 ⟨hdir, hshort, n, hn, ?_⟩
          rcases hnext with ⟨hpass, hnext⟩ | ⟨target, rfl, ⟨_, _, rfl⟩ | ⟨_, hnext⟩⟩
          · exact Or.inl ⟨hpass, ih hnext⟩
          · -- the walk would end at this link
            exact absurd hn (hend target)
          · exact Or.inr ⟨target, rfl, Or.inr ⟨by simp, hlink hend hnext⟩⟩

theorem walk_target_of_entry {links : ℕ} {steps : List Step}
    (hend : ∀ target, fs.node? loc ≠ some (.link target))
    (hwalk : fs.walk .entry links cur steps = .ok loc) :
    fs.walk .target links cur steps = .ok loc := by
  induction links generalizing cur steps loc with
  | zero => exact walkWith_target_of_entry (fun _ hl => by cases hl) hend hwalk
  | succ links ih => exact walkWith_target_of_entry ih hend hwalk

/-- **What a path names is what it leads to**, unless it is a link. -/
theorem locate_target_of_entry (hloc : fs.locate .entry p = .ok loc)
    (hend : ∀ target, fs.node? loc ≠ some (.link target)) : fs.locate .target p = .ok loc := by
  unfold locate follow at hloc ⊢
  split at hloc
  · cases hloc
  · exact walk_target_of_entry hend hloc

theorem isLink_eq_false_iff : fs.isLink p = false ↔
    ∀ loc target, fs.locate .entry p = .ok loc → fs.node? loc ≠ some (.link target) := by
  constructor
  · rintro h loc target hloc hn
    rw [isLink, lookup_eq_ok_iff.2 ⟨loc, hloc, hn⟩] at h
    cases h
  · intro h
    rw [isLink]
    cases hlookup : fs.lookup .entry p with
    | error e => rfl
    | ok n =>
        obtain ⟨loc, hloc, hn⟩ := lookup_eq_ok_iff.1 hlookup
        cases n with
        | file data => rfl
        | directory t => rfl
        | link target => exact absurd hn (h loc target hloc)

/-! ### Times -/

/-- **What is there has a time.** -/
theorem Rooted.present_iff (h : fs.Rooted) : fs.present p = true ↔ ∃ t, fs.timeOf? p = some t := by
  rw [present, timeOf?]
  cases hstat : fs.stat? p with
  | none => simp
  | some n =>
      obtain ⟨loc, hloc, hn⟩ := lookup_eq_ok_iff.1 (stat?_eq_some_iff.1 hstat)
      obtain ⟨n', hn', hlink⟩ := h.locate_solid hloc
      obtain rfl := Option.some.inj (hn.symm.trans hn')
      cases n with
      | file data => simp [Node.time?]
      | directory t => simp [Node.time?]
      | link target => cases hlink

/-! ### Trees -/

/-- What leads to a tree that holds a file. -/
theorem Rooted.solid_of_below (h : fs.Rooted) (hp : fs.isLink p = false)
    (hloc : fs.locate .entry p = .ok loc) {rel : Location} (hn : fs.node? (loc ++ rel) = some n) :
    fs.locate .target p = .ok loc ∧ ∃ root, fs.node? loc = some root := by
  refine ⟨locate_target_of_entry hloc fun target => isLink_eq_false_iff.1 hp loc target hloc, ?_⟩
  by_contra hnone
  rw [h.none_below (Option.eq_none_iff_forall_ne_some.2 fun root hroot => hnone ⟨root, hroot⟩)] at hn
  cases hn

/-- **The times that a scan of a tree finds are those of the files that it finds.** -/
theorem Rooted.mem_fileTimes (h : fs.Rooted) (hp : fs.isLink p = false) :
    t ∈ fs.fileTimes p ↔ ∃ data, fs.Discovers p data ∧ data.time = t := by
  rw [FileSystem.mem_fileTimes]
  simp only [mem_tree, lookup_eq_ok_iff, Discovers]
  constructor
  · rintro ⟨rel, data, ⟨root, ⟨loc, hloc, hroot⟩, ⟨rfl, rfl⟩ | ⟨_, loc', hloc', hn⟩⟩, hread, rfl⟩
    · exact ⟨data, ⟨loc, [], hloc, by simpa using hroot, hread⟩, rfl⟩
    · have htarget := (h.solid_of_below hp hloc (by simpa using hroot : fs.node? (loc ++ []) = _)).1
      obtain rfl := Except.ok.inj (htarget.symm.trans hloc')
      exact ⟨data, ⟨loc, rel, hloc, hn, hread⟩, rfl⟩
  · rintro ⟨data, ⟨loc, rel, hloc, hn, hread⟩, rfl⟩
    obtain ⟨htarget, root, hroot⟩ := h.solid_of_below hp hloc hn
    refine ⟨rel, data, ⟨root, ⟨loc, hloc, hroot⟩, ?_⟩, hread, rfl⟩
    by_cases hrel : rel = []
    · subst hrel
      rw [List.append_nil, hroot] at hn
      exact Or.inl ⟨rfl, (Option.some.inj hn).symm⟩
    · exact Or.inr ⟨hrel, loc, htarget, hn⟩

theorem Rooted.newestUnder?_eq (h : fs.Rooted) (hp : fs.isLink p = false) :
    fs.newestUnder? p = Time.latest? (fs.fileTimes p) := by
  unfold newestUnder?
  split
  · rfl
  · rename_i habsent
    -- what is not there has no files in it
    have hnone : fs.fileTimes p = [] := by
      rw [List.eq_nil_iff_forall_not_mem]
      intro t ht
      obtain ⟨data, ⟨loc, rel, hloc, hn, _⟩, _⟩ := (h.mem_fileTimes hp).1 ht
      obtain ⟨htarget, root, hroot⟩ := h.solid_of_below hp hloc hn
      exact habsent (Option.isSome_iff_exists.2
        ⟨root, stat?_eq_some_iff.2 (lookup_eq_ok_iff.2 ⟨loc, htarget, hroot⟩)⟩)
    rw [hnone]
    rfl

/-- **The newest of several trees is the newest of all the files found in them.** -/
theorem Rooted.newestUnderAll?_eq (h : fs.Rooted) {ps : List Path}
    (hps : ∀ p ∈ ps, fs.isLink p = false) :
    fs.newestUnderAll? ps = Time.latest? (ps.flatMap fs.fileTimes) := by
  have heach : ps.filterMap fs.newestUnder? = ps.filterMap fun p => Time.latest? (fs.fileTimes p) :=
    List.filterMap_congr fun p hp => h.newestUnder?_eq (hps p hp)
  rw [newestUnderAll?, heach, Time.latest?_filterMap]

theorem Rooted.mem_flatMap_fileTimes (h : fs.Rooted) {ps : List Path}
    (hps : ∀ p ∈ ps, fs.isLink p = false) :
    t ∈ ps.flatMap fs.fileTimes ↔ ∃ data, fs.DiscoversIn ps data ∧ data.time = t := by
  rw [List.mem_flatMap]
  constructor
  · rintro ⟨p, hp, ht⟩
    obtain ⟨data, hdata, htime⟩ := (h.mem_fileTimes (hps p hp)).1 ht
    exact ⟨data, ⟨p, hp, hdata⟩, htime⟩
  · rintro ⟨data, ⟨p, hp, hdata⟩, htime⟩
    exact ⟨p, hp, (h.mem_fileTimes (hps p hp)).2 ⟨data, hdata, htime⟩⟩

/-- **The newest of several trees is the latest time of a file that is found in them.** -/
theorem Rooted.newestUnderAll?_eq_some_iff (h : fs.Rooted) {ps : List Path}
    (hps : ∀ p ∈ ps, fs.isLink p = false) : fs.newestUnderAll? ps = some t ↔
      (∃ data, fs.DiscoversIn ps data ∧ data.time = t) ∧
        ∀ data, fs.DiscoversIn ps data → data.time ≤ t := by
  rw [h.newestUnderAll?_eq hps, Time.latest?_eq_some_iff]
  simp only [h.mem_flatMap_fileTimes hps]
  exact and_congr_right fun _ => ⟨fun hmax data hdata => hmax _ ⟨data, hdata, rfl⟩,
    fun hmax _ ⟨data, hdata, heq⟩ => heq ▸ hmax data hdata⟩

theorem Rooted.newestUnderAll?_eq_none_iff (h : fs.Rooted) {ps : List Path}
    (hps : ∀ p ∈ ps, fs.isLink p = false) :
    fs.newestUnderAll? ps = none ↔ ∀ data, ¬ fs.DiscoversIn ps data := by
  rw [h.newestUnderAll?_eq hps, Time.latest?_eq_none_iff, List.eq_nil_iff_forall_not_mem]
  simp only [h.mem_flatMap_fileTimes hps]
  exact ⟨fun hnone data hdata => hnone _ ⟨data, hdata, rfl⟩,
    fun hnone _ ⟨data, hdata, _⟩ => hnone data hdata⟩

end FileSystem

end Rebuild
