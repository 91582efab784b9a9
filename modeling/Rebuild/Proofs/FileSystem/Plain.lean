/-
File systems in which paths lead where they say.

A table of entries can hold more than any disk: an entry without a directory, a name with a slash in
it.  A plain file system has none of that, and no links.  Where there are no links, a walk along a path
can only end at the place that the path names.  If every entry is in a directory, a direct path gets
there exactly if something is there.  So what a path leads to, when it was written and how new a tree
is can be read off the entries alone.

Main definitions:

* `FileSystem.Plain` — **no links, every entry in a directory, every name one that can be written**;
* `Path.Followable` — nothing about the path itself keeps it from being followed.

Main results:

* `FileSystem.Plain.locate`, `FileSystem.Plain.slot`, `FileSystem.Plain.writePlace` — walks end at the
  place that was named;
* `FileSystem.Plain.locate_iff` — **a direct path leads to what is at its place**;
* `FileSystem.Plain.timeOf?_eq_some_iff`, `FileSystem.Plain.mem_fileTimes` — times, read off the entries;
* `FileSystem.Plain.lookup_down_iff` — **an entry is got at by its path if that can be followed**, so a
  scan passes over just what cannot be got at;
* `FileSystem.Plain.newestUnderAll?_eq` — the newest of several trees.
-/
import Rebuild.Proofs.FileSystem.Unlinked

set_option relaxedAutoImplicit false
set_option autoImplicit false

namespace Rebuild

/-- Neither the path nor a name in it is too long, or without any meaning. -/
def Path.Followable (p : Path) : Prop :=
  p.fault? = none ∧ ∀ x, .name x ∈ p.steps → ¬ maxNameLength < x.utf8ByteSize

theorem Path.followable_iff {p : Path} : p.Followable ↔ p.refusal? = none := by
  rw [refusal?_eq_none_iff, Followable]
  refine and_congr_right fun _ => ⟨fun h c hc => ?_, fun h x hx => ?_⟩
  · cases c with
    | name x => simpa [Component.isTooLong] using h x hc
    | root | here | up => rfl
  · simpa [Component.isTooLong] using h _ hx

namespace FileSystem

/-- **A file system without links**, in which every entry is in a directory and has a name that paths
can be written with. -/
structure Plain (fs : FileSystem) : Prop where
  noLink : ∀ {loc n}, fs.node? loc = some n → n.isLink = false
  parent : ∀ {loc n}, fs.node? loc = some n → fs.isDirectoryAt loc.dropLast = true
  isName : ∀ {loc n}, fs.node? loc = some n → ∀ x ∈ loc, IsName x
  workDir : fs.isDirectoryAt fs.workDir = true

variable {fs fs' : FileSystem} {goal : Goal} {cur loc : Location} {n : Node} {p : Path} {t : Time}

namespace Plain

/-- The entries can be looked at one by one. -/
theorem of_nodes (hnodes : ∀ e ∈ fs.nodes, e.2.isLink = false ∧
      fs.isDirectoryAt e.1.dropLast = true ∧ ∀ x ∈ e.1, IsName x)
    (hwork : fs.isDirectoryAt fs.workDir = true) : fs.Plain := by
  have hsound := Sound.of_nodes (fun e he => (hnodes e he).2) hwork
  refine ⟨fun {loc n} hn => ?_, hsound.parent, hsound.isName, hsound.workDir⟩
  exact forall_of_nodes (P := fun _ n => n.isLink = false) (fun _ => rfl) (fun e he => (hnodes e he).1) hn

theorem sound (h : fs.Plain) : fs.Sound := ⟨h.parent, h.isName, h.workDir⟩

theorem rooted (h : fs.Plain) : fs.Rooted := ⟨h.parent⟩

theorem unlinked (h : fs.Plain) (p : Path) : fs.Unlinked p := by
  intro loc _ target hn
  cases h.noLink hn

theorem isLink_eq_false (h : fs.Plain) (p : Path) : fs.isLink p = false := by
  refine isLink_eq_false_iff.2 fun loc target _ hn => ?_
  cases h.noLink hn

/-! ### Walks -/

/-- **A path leads to the place that it names.** -/
theorem locate (h : fs.Plain) (hgoal : goal ≠ .creation) (hloc : fs.locate goal p = .ok loc) :
    loc = p.place fs.workDir ∧ ∃ n, fs.node? loc = some n :=
  h.sound.locate (h.unlinked p) hgoal hloc

/-- A file is written where its path says, in a directory that is there. -/
theorem writePlace (h : fs.Plain) (hloc : fs.writePlace p = .ok loc) :
    loc = p.place fs.workDir ∧ fs.Room loc ∧ fs.isDirectoryAt loc = false :=
  h.sound.writePlace (h.unlinked p) hloc

/-- A new entry is put where its path says, in a directory that is there. -/
theorem slot {blocked : IoError} (h : fs.Plain) (hloc : fs.slot blocked p = .ok loc) :
    loc = p.place fs.workDir ∧ fs.Room loc :=
  h.sound.slot (h.unlinked p) hloc

theorem movePlace (h : fs.Plain) (hloc : fs.movePlace p = .ok loc) :
    loc = p.place fs.workDir ∧ fs.Room loc ∧ fs.isDirectoryAt loc = false := by
  unfold FileSystem.movePlace at hloc
  cases hslot : fs.slot .busy p with
  | error e =>
      rw [hslot] at hloc
      cases hloc
  | ok place =>
      simp only [hslot, bind, Except.bind] at hloc
      split at hloc
      · cases hloc
      · split at hloc
        · cases hloc
        · rename_i hdir
          obtain rfl := Except.ok.inj hloc
          obtain ⟨hplace, hroom⟩ := h.slot hslot
          exact ⟨hplace, hroom, Bool.eq_false_iff.2 hdir⟩

/-! ### Direct paths -/

/-- Going down by names ends at an entry, and every entry below is reached so. -/
theorem walkWith_names (h : fs.Plain) (hgoal : goal ≠ .creation)
    {onLink : Location → List Step → Except IoError Location} {names : List String}
    (hcur : (fs.node? cur).isSome = true) :
    fs.walkWith goal onLink cur (names.map fun x => .go (.name x)) = .ok loc ↔
      (∀ x ∈ names, ¬ maxNameLength < x.utf8ByteSize) ∧ loc = cur ++ names ∧
        (fs.node? loc).isSome = true := by
  induction names generalizing cur with
  | nil =>
      simp only [List.map_nil, FileSystem.walkWith, Except.ok.injEq, List.append_nil]
      constructor
      · rintro rfl
        exact ⟨by simp, rfl, hcur⟩
      · rintro ⟨_, rfl, _⟩
        rfl
  | cons x xs ih =>
      have hsplit : cur ++ x :: xs = (cur ++ [x]) ++ xs := by simp
      rw [List.map_cons, walkWith_name_iff hgoal, hsplit, List.forall_mem_cons]
      constructor
      · rintro ⟨_, hshort, n, hn, ⟨_, hwalk⟩ | ⟨target, rfl, _⟩⟩
        · obtain ⟨hall, hend⟩ := (ih (Option.isSome_iff_exists.2 ⟨n, hn⟩)).1 hwalk
          exact ⟨⟨hshort, hall⟩, hend⟩
        · cases h.noLink hn
      · rintro ⟨⟨hshort, hall⟩, rfl, hsome⟩
        obtain ⟨n, hn⟩ := Option.isSome_iff_exists.1 hsome
        have hnext : (fs.node? (cur ++ [x])).isSome = true := by
          by_contra hnone
          rw [h.rooted.none_below (by simpa using hnone)] at hsome
          cases hsome
        have hdir : fs.isDirectoryAt cur = true := h.rooted.above (hsplit ▸ hn) (by simp)
        obtain ⟨m, hm⟩ := Option.isSome_iff_exists.1 hnext
        exact ⟨hdir, hshort, m, hm, Or.inl ⟨h.noLink hm, (ih hnext).2 ⟨hall, rfl, hsome⟩⟩⟩

theorem walkWith_ups (h : fs.Plain) {onLink : Location → List Step → Except IoError Location}
    (k : ℕ) (rest : List Step) (hcur : fs.isDirectoryAt cur = true) :
    fs.walkWith goal onLink cur (List.replicate k (.go .up) ++ rest) =
        fs.walkWith goal onLink ((List.replicate k Component.up).foldl Component.move cur) rest ∧
      fs.isDirectoryAt ((List.replicate k Component.up).foldl Component.move cur) = true := by
  induction k generalizing cur with
  | zero => exact ⟨rfl, hcur⟩
  | succ k ih =>
      obtain ⟨t, ht⟩ := isDirectoryAt_eq_true_iff.1 hcur
      have hnext := ih (h.parent ht)
      rw [List.replicate_succ, List.cons_append, FileSystem.walkWith, if_pos hcur]
      exact hnext

/-- **A direct path leads to what is at its place**, if it can be followed at all. -/
theorem locate_iff (h : fs.Plain) (hp : p.Direct) (hgoal : goal ≠ .creation) :
    fs.locate goal p = .ok loc ↔
      p.Followable ∧ loc = p.place fs.workDir ∧ ∃ n, fs.node? loc = some n := by
  obtain ⟨⟨k, names, hsteps⟩, hslash⟩ := hp
  have hwalk : p.walkSteps = List.replicate k (.go .up) ++ names.map fun x => .go (.name x) := by
    unfold Path.walkSteps
    rw [if_neg, hsteps]
    · simp [Function.comp_def]
    · intro hend
      rw [Bool.and_eq_true] at hend
      simp [hslash hend.1] at hend
  have hplace : p.place fs.workDir =
      (List.replicate k Component.up).foldl Component.move (fs.startOf p) ++ names := by
    rw [Path.place, hsteps, List.foldl_append, Path.foldl_move_names]
    rfl
  have hnames : (∀ x, .name x ∈ p.steps → ¬ maxNameLength < x.utf8ByteSize) ↔
      ∀ x ∈ names, ¬ maxNameLength < x.utf8ByteSize := by
    rw [hsteps]
    simp
  obtain ⟨onLink, hlinks⟩ := exists_walk_eq fs goal maxLinks
  have hfollow : fs.walkWith goal onLink (fs.startOf p) p.walkSteps = .ok loc ↔
      (∀ x ∈ names, ¬ maxNameLength < x.utf8ByteSize) ∧ loc = p.place fs.workDir ∧
        (fs.node? loc).isSome = true := by
    obtain ⟨heq, hdir⟩ := h.walkWith_ups k (names.map fun x => .go (.name x))
      (h.sound.isDirectoryAt_startOf p)
    rw [hwalk, heq, hplace]
    exact h.walkWith_names hgoal (isSome_of_isDirectoryAt hdir)
  unfold FileSystem.locate follow Path.Followable
  cases hfault : p.fault? with
  | some e => simp
  | none =>
      rw [hnames, hlinks]
      simpa [and_assoc, Option.isSome_iff_exists] using hfollow

theorem lookup_iff (h : fs.Plain) (hp : p.Direct) (hgoal : goal ≠ .creation) :
    fs.lookup goal p = .ok n ↔ p.Followable ∧ fs.node? (p.place fs.workDir) = some n := by
  rw [lookup_eq_ok_iff]
  simp only [h.locate_iff hp hgoal]
  constructor
  · rintro ⟨loc, ⟨hfollow, rfl, _⟩, hn⟩
    exact ⟨hfollow, hn⟩
  · rintro ⟨hfollow, hn⟩
    exact ⟨_, ⟨hfollow, rfl, n, hn⟩, hn⟩

/-- **The time of what a direct path leads to is that of the entry at its place.** -/
theorem timeOf?_eq_some_iff (h : fs.Plain) (hp : p.Direct) : fs.timeOf? p = some t ↔
    p.Followable ∧ ∃ n, fs.node? (p.place fs.workDir) = some n ∧ n.time? = some t := by
  simp only [timeOf?, Option.bind_eq_some_iff, stat?_eq_some_iff,
    h.lookup_iff hp (by simp : Goal.target ≠ .creation), and_assoc, exists_and_left]

/-! ### Trees -/

/-- **An entry is got at by its own path exactly if that can be followed.**  So what a scan passes over is
what cannot be got at. -/
theorem lookup_down_iff (h : fs.Plain) (hp : p.Direct) (hne : p.text ≠ "") {rel : Location}
    (hnames : ∀ x ∈ rel, IsName x) : fs.lookup .entry (p.down rel) = .ok n ↔
      (p.down rel).refusal? = none ∧ fs.node? (p.place fs.workDir ++ rel) = some n := by
  obtain ⟨hdirect, hplace⟩ := hp.down hne hnames
  rw [h.lookup_iff hdirect (by simp), Path.followable_iff, hplace]

/-- **The times that a scan of a tree finds** are those of the files at its place and below whose paths can
be followed. -/
theorem mem_fileTimes (h : fs.Plain) (hp : p.Direct) : t ∈ fs.fileTimes p ↔ p.Followable ∧
    ∃ rel data, fs.node? (p.place fs.workDir ++ rel) = some (.file data) ∧
      (p.down rel).refusal? = none ∧ data.time = t := by
  rw [h.rooted.mem_fileTimes (h.isLink_eq_false p)]
  simp only [Discovers, h.locate_iff hp (by simp : Goal.entry ≠ .creation)]
  constructor
  · rintro ⟨data, ⟨loc, rel, ⟨hfollow, rfl, _⟩, hn, hread⟩, rfl⟩
    exact ⟨hfollow, rel, data, hn, hread, rfl⟩
  · rintro ⟨hfollow, rel, data, hn, hread, rfl⟩
    refine ⟨data, ⟨_, rel, ⟨hfollow, rfl, ?_⟩, hn, hread⟩, rfl⟩
    by_contra hnone
    rw [h.rooted.none_below (Option.eq_none_iff_forall_ne_some.2 fun n hn => hnone ⟨n, hn⟩)] at hn
    cases hn

/-- **The newest of several trees is the newest of all the files found in them.** -/
theorem newestUnderAll?_eq (h : fs.Plain) (ps : List Path) :
    fs.newestUnderAll? ps = Time.latest? (ps.flatMap fs.fileTimes) :=
  h.rooted.newestUnderAll?_eq fun p _ => h.isLink_eq_false p

/-- The newest of several trees hangs on their files alone. -/
theorem newestUnderAll?_congr (h : fs.Plain) (h' : fs'.Plain) (hwork : fs'.workDir = fs.workDir)
    {ps : List Path} (hps : ∀ p ∈ ps, p.Direct)
    (hsame : ∀ p ∈ ps, ∀ rel data, fs'.node? (p.place fs.workDir ++ rel) = some (.file data) ↔
      fs.node? (p.place fs.workDir ++ rel) = some (.file data)) :
    fs'.newestUnderAll? ps = fs.newestUnderAll? ps := by
  rw [h'.newestUnderAll?_eq ps, h.newestUnderAll?_eq ps]
  refine Time.latest?_congr fun t => ?_
  simp only [List.mem_flatMap]
  refine exists_congr fun p => and_congr_right fun hp => ?_
  rw [h'.mem_fileTimes (hps p hp), h.mem_fileTimes (hps p hp), hwork]
  refine and_congr_right fun _ => exists_congr fun rel => exists_congr fun data => ?_
  rw [hsame p hp]

/-- The time of what a direct path leads to hangs on the entry at its place alone. -/
theorem timeOf?_congr (h : fs.Plain) (h' : fs'.Plain) (hwork : fs'.workDir = fs.workDir)
    (hp : p.Direct) (hsame : fs'.node? (p.place fs.workDir) = fs.node? (p.place fs.workDir)) :
    fs'.timeOf? p = fs.timeOf? p := by
  ext t
  rw [h'.timeOf?_eq_some_iff hp, h.timeOf?_eq_some_iff hp, hwork, hsame]

end Plain

end FileSystem

end Rebuild
