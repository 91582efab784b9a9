/-
Walks that still lead where they led.

A walk passes directories and follows links, and looks at nothing else of what it passes.  So where every
entry is still there and of its kind, and every link leads where it led, each path that led to something
leads to the same place.

Main definitions:

* `Node.Alike` — two entries are of one kind, and lead to the same place if they are links;
* `FileSystem.Retains` — **what was there is there, and still of its kind**.

Main results:

* `FileSystem.walkWith_name_cases` — what one step to a name does, whatever the walk is to end at;
* `FileSystem.Retains.locate`, `FileSystem.Retains.lookup` — **paths lead where they led**, to an entry of
  the same kind.
-/
import Rebuild.FileSystem.Change
import Mathlib

set_option relaxedAutoImplicit false
set_option autoImplicit false

namespace Rebuild

/-! ### Entries of one kind -/

/-- The entries are of one kind, and lead to the same place if they are links. -/
inductive Node.Alike : Node → Node → Prop where
  | file (data data' : FileData) : Alike (.file data) (.file data')
  | directory (t t' : Time) : Alike (.directory t) (.directory t')
  | link (target : Path) : Alike (.link target) (.link target)

namespace Node.Alike

variable {n n' n'' : Node} {target : Path}

theorem refl (n : Node) : n.Alike n := by
  cases n with
  | file data => exact .file data data
  | directory t => exact .directory t t
  | link target => exact .link target

theorem trans (h : n.Alike n') (h' : n'.Alike n'') : n.Alike n'' := by
  cases h with
  | file data _ =>
      cases h' with
      | file _ data'' => exact .file data data''
  | directory t _ =>
      cases h' with
      | directory _ t'' => exact .directory t t''
  | link target => exact h'

theorem isDirectory_eq (h : n.Alike n') : n'.isDirectory = n.isDirectory := by
  cases h <;> rfl

theorem isFile_eq (h : n.Alike n') : n'.isFile = n.isFile := by
  cases h <;> rfl

theorem isLink_eq (h : n.Alike n') : n'.isLink = n.isLink := by
  cases h <;> rfl

end Node.Alike

namespace FileSystem

variable {fs fs' fs'' : FileSystem} {goal : Goal} {cur loc : Location} {n : Node} {p : Path}

/-! ### Steps of a walk -/

/-- **What one step to a name does**: a link is followed unless the walk ends at it, anything else is
passed, and where nothing is, a walk may end that asks for a place to create something. -/
theorem walkWith_name_cases {onLink : Location → List Step → Except IoError Location} {x : String}
    {rest : List Step} :
    fs.walkWith goal onLink cur (.go (.name x) :: rest) = .ok loc ↔
      fs.isDirectoryAt cur = true ∧ ¬ (goal = .creation ∧ rest = [.slash]) ∧
        ¬ maxNameLength < x.utf8ByteSize ∧
        (fs.node? (cur ++ [x]) = none ∧ goal = .creation ∧ rest = [] ∧ cur ++ [x] = loc ∨
          ∃ n, fs.node? (cur ++ [x]) = some n ∧
            (n.isLink = false ∧ fs.walkWith goal onLink (cur ++ [x]) rest = .ok loc ∨
              ∃ target, n = .link target ∧
                (goal = .entry ∧ rest = [] ∧ cur ++ [x] = loc ∨ ¬ (goal = .entry ∧ rest = []) ∧
                  onLink (if target.isAbsolute then [] else cur) (target.walkSteps ++ rest) =
                    .ok loc))) := by
  rw [walkWith]
  by_cases hdir : fs.isDirectoryAt cur = true
  · rw [if_pos hdir, and_iff_right hdir]
    by_cases hslash : goal = .creation ∧ rest = [.slash]
    · simp [hslash]
    · by_cases hlong : maxNameLength < x.utf8ByteSize
      · simp [hslash, hlong]
      · simp only [if_neg hslash, if_neg hlong, and_iff_right hslash, and_iff_right hlong]
        cases hn : fs.node? (cur ++ [x]) with
        | none =>
            by_cases hend : goal = .creation ∧ rest = []
            · simp [hend]
            · simp [hend, ← and_assoc]
        | some n =>
            cases n with
            | file data => simp [Node.isLink]
            | directory t => simp [Node.isLink]
            | link target =>
                by_cases hend : goal = .entry ∧ rest = []
                · simp [Node.isLink, hend]
                · simp [Node.isLink, hend, ← and_assoc]
  · simp [hdir]

/-- The same where nothing is to be created. -/
theorem walkWith_name_iff (hgoal : goal ≠ .creation)
    {onLink : Location → List Step → Except IoError Location} {x : String} {rest : List Step} :
    fs.walkWith goal onLink cur (.go (.name x) :: rest) = .ok loc ↔
      fs.isDirectoryAt cur = true ∧ ¬ maxNameLength < x.utf8ByteSize ∧
        ∃ n, fs.node? (cur ++ [x]) = some n ∧
          (n.isLink = false ∧ fs.walkWith goal onLink (cur ++ [x]) rest = .ok loc ∨
            ∃ target, n = .link target ∧
              (goal = .entry ∧ rest = [] ∧ cur ++ [x] = loc ∨ ¬ (goal = .entry ∧ rest = []) ∧
                onLink (if target.isAbsolute then [] else cur) (target.walkSteps ++ rest) = .ok loc)) := by
  simp only [walkWith_name_cases, hgoal, false_and, and_false, not_false_eq_true, true_and, false_or]

theorem isDirectoryAt_of_walkWith {onLink : Location → List Step → Except IoError Location}
    {step : Step} {rest : List Step} (hwalk : fs.walkWith goal onLink cur (step :: rest) = .ok loc) :
    fs.isDirectoryAt cur = true := by
  unfold walkWith at hwalk
  by_contra hdir
  rw [if_neg hdir] at hwalk
  cases hwalk

/-! ### Looking up what paths lead to -/

theorem lookup_eq_ok_iff : fs.lookup goal p = .ok n ↔
    ∃ loc, fs.locate goal p = .ok loc ∧ fs.node? loc = some n := by
  unfold FileSystem.lookup
  cases hloc : fs.locate goal p with
  | error e => simp [bind, Except.bind]
  | ok loc =>
      cases hn : fs.node? loc with
      | none => simp [bind, Except.bind, hn]
      | some n' => simp [bind, Except.bind, hn]

theorem stat?_eq_some_iff : fs.stat? p = some n ↔ fs.lookup .target p = .ok n := by
  unfold stat?
  cases fs.lookup .target p with
  | error e => simp [Except.toOption]
  | ok n' => simp [Except.toOption]

/-! ### What was there is there -/

/-- What was there is there, and still of its kind; there may be more. -/
structure Retains (fs fs' : FileSystem) : Prop where
  workDir : fs'.workDir = fs.workDir
  entry : ∀ {loc n}, fs.node? loc = some n → ∃ n', fs'.node? loc = some n' ∧ n.Alike n'

namespace Retains

theorem refl (fs : FileSystem) : fs.Retains fs := ⟨rfl, fun hn => ⟨_, hn, .refl _⟩⟩

theorem trans (h : fs.Retains fs') (h' : fs'.Retains fs'') : fs.Retains fs'' := by
  refine ⟨h'.workDir.trans h.workDir, fun hn => ?_⟩
  obtain ⟨n', hn', halike⟩ := h.entry hn
  obtain ⟨n'', hn'', halike'⟩ := h'.entry hn'
  exact ⟨n'', hn'', halike.trans halike'⟩

theorem link {target : Path} (h : fs.Retains fs') (hn : fs.node? loc = some (.link target)) :
    fs'.node? loc = some (.link target) := by
  obtain ⟨_, hn', halike⟩ := h.entry hn
  cases halike
  exact hn'

theorem directory (h : fs.Retains fs') (hdir : fs.isDirectoryAt loc = true) :
    fs'.isDirectoryAt loc = true := by
  obtain ⟨n, hn, hkind⟩ := (Option.any_eq_true _ _).1 hdir
  obtain ⟨n', hn', halike⟩ := h.entry hn
  rw [isDirectoryAt, hn', Option.any_some, halike.isDirectory_eq]
  exact hkind

/-! ### Walks -/

theorem walkWith (h : fs.Retains fs') (hgoal : goal ≠ .creation)
    {onLink onLink' : Location → List Step → Except IoError Location}
    (hlink : ∀ {cur steps loc}, onLink cur steps = .ok loc → onLink' cur steps = .ok loc)
    {steps : List Step} (hwalk : fs.walkWith goal onLink cur steps = .ok loc) :
    fs'.walkWith goal onLink' cur steps = .ok loc := by
  induction steps generalizing cur with
  | nil => exact hwalk
  | cons step rest ih =>
      have hdir := isDirectoryAt_of_walkWith hwalk
      have hdir' := h.directory hdir
      match step with
      | .slash | .go .root | .go .here | .go .up =>
          rw [FileSystem.walkWith, if_pos hdir] at hwalk
          rw [FileSystem.walkWith, if_pos hdir']
          exact ih hwalk
      | .go (.name x) =>
          obtain ⟨_, hshort, n, hn, hnext⟩ := (walkWith_name_iff hgoal).1 hwalk
          refine (walkWith_name_iff hgoal).2 ⟨hdir', hshort, ?_⟩
          rcases hnext with ⟨hpass, hnext⟩ | ⟨target, rfl, ⟨hend, hrest, hloc⟩ | ⟨hend, hnext⟩⟩
          · -- no walk looks at the time or the content of what it passes
            obtain ⟨n', hn', halike⟩ := h.entry hn
            exact ⟨n', hn', Or.inl ⟨halike.isLink_eq.trans hpass, ih hnext⟩⟩
          · exact ⟨_, h.link hn, Or.inr ⟨target, rfl, Or.inl ⟨hend, hrest, hloc⟩⟩⟩
          · exact ⟨_, h.link hn, Or.inr ⟨target, rfl, Or.inr ⟨hend, hlink hnext⟩⟩⟩

theorem walk (h : fs.Retains fs') (hgoal : goal ≠ .creation) {links : ℕ} {steps : List Step}
    (hwalk : fs.walk goal links cur steps = .ok loc) :
    fs'.walk goal links cur steps = .ok loc := by
  -- on the links that may still be followed; each link starts a walk with one fewer
  induction links generalizing cur steps loc with
  | zero => exact h.walkWith hgoal (fun hl => hl) hwalk
  | succ links ih => exact h.walkWith hgoal ih hwalk

/-- **Paths lead where they led.** -/
theorem locate (h : fs.Retains fs') (hgoal : goal ≠ .creation)
    (hloc : fs.locate goal p = .ok loc) : fs'.locate goal p = .ok loc := by
  unfold FileSystem.locate follow startOf at hloc ⊢
  rw [h.workDir]
  split at hloc
  · cases hloc
  · exact h.walk hgoal hloc

/-- What a path led to is there and still of its kind. -/
theorem lookup (h : fs.Retains fs') (hgoal : goal ≠ .creation) (hn : fs.lookup goal p = .ok n) :
    ∃ n', fs'.lookup goal p = .ok n' ∧ n.Alike n' := by
  obtain ⟨loc, hloc, hnode⟩ := lookup_eq_ok_iff.1 hn
  obtain ⟨n', hn', halike⟩ := h.entry hnode
  exact ⟨n', lookup_eq_ok_iff.2 ⟨loc, h.locate hgoal hloc, hn'⟩, halike⟩

theorem present (h : fs.Retains fs') (hp : fs.present p = true) : fs'.present p = true := by
  obtain ⟨n, hn⟩ := Option.isSome_iff_exists.1 hp
  obtain ⟨n', hn', _⟩ := h.lookup (by simp) (stat?_eq_some_iff.1 hn)
  exact Option.isSome_iff_exists.2 ⟨n', stat?_eq_some_iff.2 hn'⟩

theorem isFile (h : fs.Retains fs') (hp : fs.isFile p = true) : fs'.isFile p = true := by
  obtain ⟨n, hn, hkind⟩ := (Option.any_eq_true _ _).1 hp
  obtain ⟨n', hn', halike⟩ := h.lookup (by simp) (stat?_eq_some_iff.1 hn)
  rw [FileSystem.isFile, stat?_eq_some_iff.2 hn', Option.any_some, halike.isFile_eq]
  exact hkind

theorem isDirectory (h : fs.Retains fs') (hp : fs.isDirectory p = true) :
    fs'.isDirectory p = true := by
  obtain ⟨n, hn, hkind⟩ := (Option.any_eq_true _ _).1 hp
  obtain ⟨n', hn', halike⟩ := h.lookup (by simp) (stat?_eq_some_iff.1 hn)
  rw [FileSystem.isDirectory, stat?_eq_some_iff.2 hn', Option.any_some, halike.isDirectory_eq]
  exact hkind

end Retains

end FileSystem

end Rebuild
