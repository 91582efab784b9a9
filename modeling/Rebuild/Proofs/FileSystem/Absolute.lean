/-
Absolute paths.

An absolute path names one place, from wherever it is seen, and its normal form is that place written
as a path.  So whether one place is above another can be told from the normal forms alone, and what
such a path leads to does not hang on the working directory.

Main definitions:

* `FileSystem.atRoot` — the same entries, with relative paths starting at the root;
* `FileSystem.MissingOn` — **the first name on the way to a location that is not there**.

Main results:

* `Path.normalize_eq_pathOf` — the normal form of an absolute path is its place;
* `Path.startsWith_pathOf` — **one path starts with another exactly if its place is there or below**;
* `FileSystem.locate_atRoot` — absolute paths lead to the same from everywhere;
* `FileSystem.Plain.locate_pathOf_eq_notFound` — when nothing is found at a place.
-/
import Rebuild.Proofs.FileSystem.Following
import Rebuild.Proofs.FileSystem.Plain

set_option relaxedAutoImplicit false
set_option autoImplicit false

namespace Rebuild

open FileSystem (pathOf)

/-! ### Places written as paths -/

namespace Path

variable {p base : Path} {cs : List Component} {loc loc' s : Location}

theorem isName_of_mem_foldl_move (hcs : ∀ c ∈ cs, c.Legible) (hs : ∀ x ∈ s, IsName x) :
    ∀ x ∈ cs.foldl Component.move s, IsName x := by
  induction cs generalizing s with
  | nil => exact hs
  | cons c cs ih =>
      refine ih (fun d hd => hcs d (List.mem_cons_of_mem _ hd)) fun x hx => ?_
      cases c with
      | root => cases hx
      | here => exact hs x hx
      | up => exact hs x (List.mem_of_mem_dropLast hx)
      | name y =>
          rcases List.mem_append.1 hx with hx | hx
          · exact hs x hx
          · rw [List.mem_singleton.1 hx]
            exact hcs _ (List.mem_cons_self ..)

/-- The place of an absolute path has names that can be written. -/
theorem isName_of_mem_place (h : p.isAbsolute = true) : ∀ x ∈ p.place s, IsName x := by
  rw [place, if_pos h]
  exact isName_of_mem_foldl_move (fun c hc => legible_of_mem_steps hc) (by simp)

/-- Behind the root, a component does to a normal form what it does to a place. -/
theorem push_behind_root {c : Component} (hc : c.Legible) (loc : Location) :
    push ((loc.map .name).reverse ++ [.root]) c = ((c.move loc).map .name).reverse ++ [.root] := by
  cases c with
  | root => cases hc
  | here => rfl
  | name x => simp [push, Component.move]
  | up =>
      rcases List.eq_nil_or_concat loc with rfl | ⟨front, x, rfl⟩
      · rfl
      · simp [push, Component.move]

theorem foldl_push_behind_root (hcs : ∀ c ∈ cs, c.Legible) (loc : Location) :
    cs.foldl push ((loc.map .name).reverse ++ [.root]) =
      ((cs.foldl Component.move loc).map .name).reverse ++ [.root] := by
  induction cs generalizing loc with
  | nil => rfl
  | cons c cs ih =>
      rw [List.foldl_cons, push_behind_root (hcs c (List.mem_cons_self ..)),
        ih fun d hd => hcs d (List.mem_cons_of_mem _ hd)]
      rfl

/-- **The normal form of an absolute path is its place**, written as a path. -/
theorem normalize_eq_pathOf (h : p.isAbsolute = true) : p.normalize = pathOf (p.place []) := by
  have hcomponents : p.components = .root :: p.steps.filter (· ≠ .here) := if_pos h
  have hcs : ∀ c ∈ p.steps.filter (· ≠ .here), c.Legible := fun c hc =>
    legible_of_mem_steps (List.mem_of_mem_filter hc)
  have hpush := foldl_push_behind_root hcs []
  rw [normalize, place_eq_components, hcomponents, List.foldl_cons, List.foldl_cons]
  change ofComponents ((p.steps.filter (· ≠ .here)).foldl push [.root]).reverse = _
  rw [List.map_nil, List.reverse_nil, List.nil_append] at hpush
  rw [hpush, List.reverse_append, List.reverse_reverse]
  rfl

/-- A location that is written as a path is the place of that path. -/
theorem place_pathOf (h : ∀ x ∈ loc, IsName x) (s : Location) : (pathOf loc).place s = loc := by
  rw [pathOf, place_ofComponents_root (legible_names h), foldl_move_names]
  rfl

/-- What is joined to an absolute path is absolute. -/
theorem isAbsolute_join_of_left (h : base.isAbsolute = true) (rel : Path) :
    (base.join rel).isAbsolute = true := by
  cases hrel : rel.isAbsolute with
  | true => rwa [join, if_pos hrel]
  | false => rwa [isAbsolute_join hrel]

theorem isAbsolute_pathOf (loc : Location) : (pathOf loc).isAbsolute = true :=
  isAbsolute_ofComponents_root

theorem steps_pathOf (h : ∀ x ∈ loc, IsName x) : (pathOf loc).steps = loc.map .name :=
  steps_ofComponents_root (legible_names h)

theorem components_pathOf (h : ∀ x ∈ loc, IsName x) :
    (pathOf loc).components = .root :: loc.map .name :=
  (components_ofComponents (legible_names h) (by simp)).2

/-- **A path starts with another exactly if its place is there or below.** -/
theorem startsWith_pathOf (h : ∀ x ∈ loc, IsName x) (h' : ∀ x ∈ loc', IsName x) :
    (pathOf loc).startsWith (pathOf loc') = true ↔ loc' <+: loc := by
  rw [startsWith, components_pathOf h, components_pathOf h', List.isPrefixOf_iff_prefix,
    List.cons_prefix_cons, and_iff_right rfl]
  exact List.prefix_map_iff_of_injective fun _ _ => Component.name.inj

theorem direct_pathOf (h : ∀ x ∈ loc, IsName x) : (pathOf loc).Direct := by
  refine ⟨⟨0, loc, steps_pathOf h⟩, fun hslash => ?_⟩
  cases loc with
  | nil => exact steps_pathOf h
  | cons x xs =>
      have hend := (endsInSlash_ofComponents (legible_names h) (by simp)).2
      exact absurd (hend.symm.trans hslash) Bool.false_ne_true

/-- The steps of a walk along a place are its names. -/
theorem walkSteps_pathOf (h : ∀ x ∈ loc, IsName x) :
    (pathOf loc).walkSteps = loc.map fun x => .go (.name x) := by
  unfold walkSteps
  rw [steps_pathOf h, List.map_map, if_neg, List.append_nil]
  · rfl
  · intro hend
    rw [Bool.and_eq_true] at hend
    have hsteps := (direct_pathOf h).2 hend.1
    rw [steps_pathOf h] at hsteps
    simp [hsteps] at hend

/-- A place that is written as a path is no empty text. -/
theorem fault?_pathOf_ne_notFound (loc : Location) : (pathOf loc).fault? ≠ some .notFound := by
  have htext : (pathOf loc).text.isEmpty = false := by
    rw [Bool.eq_false_iff, Ne, String.isEmpty_iff]
    intro hempty
    have hlist := congrArg String.toList hempty
    simp [pathOf, ofComponents] at hlist
  exact fault?_ne_notFound htext

end Path

/-! ### Walks from the root -/

namespace FileSystem

variable {fs fs' : FileSystem} {goal : Goal} {loc : Location} {p : Path}

/-- The same entries, with relative paths starting at the root. -/
def atRoot (fs : FileSystem) : FileSystem := { fs with workDir := [] }

@[simp] theorem node?_atRoot (fs : FileSystem) (loc : Location) : fs.atRoot.node? loc = fs.node? loc :=
  rfl

/-- **An absolute path leads to the same from everywhere.** -/
theorem locate_atRoot (h : p.isAbsolute = true) : fs.atRoot.locate goal p = fs.locate goal p := by
  have hstart : fs.atRoot.startOf p = fs.startOf p := by rw [startOf, startOf, if_pos h, if_pos h]
  have hwalk : fs.atRoot.walk goal maxLinks = fs.walk goal maxLinks :=
    walk_congr fs.node?_atRoot maxLinks
  unfold locate follow
  rw [hstart, hwalk]

theorem timeOf?_atRoot (h : p.isAbsolute = true) : fs.atRoot.timeOf? p = fs.timeOf? p := by
  unfold timeOf? stat? lookup
  rw [locate_atRoot h]
  rfl

/-- The way to the location goes as far as a directory, and the next name is not in it. -/
def MissingOn (fs : FileSystem) (cur : Location) (names : List String) : Prop :=
  ∃ before x after, names = before ++ x :: after ∧
    (∀ y ∈ before ++ [x], ¬ maxNameLength < y.utf8ByteSize) ∧
    fs.isDirectoryAt (cur ++ before) = true ∧ fs.node? (cur ++ before ++ [x]) = none

theorem missingOn_cons {cur : Location} {x : String} {names : List String} :
    fs.MissingOn cur (x :: names) ↔ ¬ maxNameLength < x.utf8ByteSize ∧
      (fs.isDirectoryAt cur = true ∧ fs.node? (cur ++ [x]) = none ∨ fs.MissingOn (cur ++ [x]) names) := by
  constructor
  · rintro ⟨before, y, after, heq, hshort, hdir, hnone⟩
    cases before with
    | nil =>
        obtain ⟨rfl, rfl⟩ := List.cons.inj heq
        exact ⟨hshort x (by simp), Or.inl ⟨by simpa using hdir, by simpa using hnone⟩⟩
    | cons z before =>
        obtain ⟨rfl, rfl⟩ := List.cons.inj heq
        refine ⟨hshort x (by simp), Or.inr ⟨before, y, after, rfl, fun u hu => ?_, ?_, ?_⟩⟩
        · exact hshort u (List.mem_cons_of_mem _ hu)
        · simpa using hdir
        · simpa using hnone
  · rintro ⟨hx, ⟨hdir, hnone⟩ | ⟨before, y, after, rfl, hshort, hdir, hnone⟩⟩
    · exact ⟨[], x, names, rfl, by simpa using hx, by simpa using hdir, by simpa using hnone⟩
    · refine ⟨x :: before, y, after, rfl, fun u hu => ?_, by simpa using hdir, by simpa using hnone⟩
      rcases List.mem_cons.1 hu with rfl | hu
      · exact hx
      · exact hshort u hu

namespace Plain

/-- Behind what is missing there is nothing. -/
theorem none_of_missingOn {cur : Location} {names : List String} (h : fs.Plain)
    (hmissing : fs.MissingOn cur names) : fs.node? (cur ++ names) = none := by
  obtain ⟨before, x, after, rfl, _, _, hnone⟩ := hmissing
  have hsplit : cur ++ (before ++ x :: after) = cur ++ before ++ [x] ++ after := by simp
  rw [hsplit]
  exact h.rooted.none_below hnone after

/-- What is missing further on is missing in a directory. -/
theorem isDirectoryAt_of_missingOn {cur : Location} {x : String} {names : List String} (h : fs.Plain)
    (hmissing : fs.MissingOn (cur ++ [x]) names) : fs.isDirectoryAt cur = true := by
  obtain ⟨before, _, _, _, _, hdir, _⟩ := hmissing
  obtain ⟨t, ht⟩ := isDirectoryAt_eq_true_iff.1 hdir
  rw [List.append_assoc] at ht
  exact h.rooted.above ht (by simp)

/-- **What is not found is missing on the way.** -/
theorem walkWith_names_eq_notFound (h : fs.Plain) (hgoal : goal ≠ .creation)
    {onLink : Location → List Step → Except IoError Location} {cur : Location} {names : List String} :
    fs.walkWith goal onLink cur (names.map fun x => .go (.name x)) = .error .notFound ↔
      fs.MissingOn cur names := by
  induction names generalizing cur with
  | nil => simp [FileSystem.walkWith, MissingOn]
  | cons x xs ih =>
      rw [List.map_cons, FileSystem.walkWith, missingOn_cons]
      by_cases hdir : fs.isDirectoryAt cur = true
      · rw [if_pos hdir]
        have hslash : ¬ (goal = .creation ∧ (xs.map fun x => Step.go (.name x)) = [.slash]) :=
          fun hc => hgoal hc.1
        by_cases hlong : maxNameLength < x.utf8ByteSize
        · simp [hlong]
        · simp only [if_neg hslash, if_neg hlong, and_iff_right hlong, hdir, true_and]
          cases hn : fs.node? (cur ++ [x]) with
          | none => simp [hgoal]
          | some n =>
              cases n with
              | file data => simp [ih]
              | directory t => simp [ih]
              | link target => cases h.noLink hn
      · rw [if_neg hdir]
        refine iff_of_false (by simp) ?_
        rintro ⟨_, ⟨hdir', _⟩ | hmissing⟩
        · exact hdir hdir'
        · exact hdir (h.isDirectoryAt_of_missingOn hmissing)

/-- **Nothing is found at a place**, if the path can be followed until a name is missing. -/
theorem locate_pathOf_eq_notFound (h : fs.Plain) (hgoal : goal ≠ .creation)
    (hloc : ∀ x ∈ loc, IsName x) : fs.locate goal (pathOf loc) = .error .notFound ↔
      (pathOf loc).fault? = none ∧ fs.MissingOn [] loc := by
  obtain ⟨onLink, hlinks⟩ := exists_walk_eq fs goal maxLinks
  have hstart : fs.startOf (pathOf loc) = [] := if_pos (Path.isAbsolute_pathOf loc)
  unfold FileSystem.locate follow
  cases hfault : (pathOf loc).fault? with
  | some e =>
      have hne := Path.fault?_pathOf_ne_notFound loc
      rw [hfault] at hne
      simpa using hne
  | none =>
      rw [hlinks, hstart, Path.walkSteps_pathOf hloc, and_iff_right rfl]
      exact h.walkWith_names_eq_notFound hgoal

end Plain

end FileSystem

end Rebuild
