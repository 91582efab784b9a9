/-
How walks go on.

A walk spends links: it gives up after so many of them, whatever they lead to.  A walk along more steps
goes on from where the first steps ended with the links that are left; so whoever knows that the first
part succeeds can look at the last step alone.  Other numbers of links lead to the same place or to
nothing, and steps that only ask for a directory can be left out.

Main definitions:

* `FileSystem.Skips` — some steps that only ask for a directory are left out.

Main results:

* `FileSystem.walk_append` — **a longer walk goes on where the shorter one ended**;
* `FileSystem.walk_links` — the place does not hang on the number of links;
* `FileSystem.walk_skip` — a walk needs no steps that only ask for a directory;
* `FileSystem.locate_congr`, `FileSystem.locate_elapse` — a walk looks at nothing but entries.
-/
import Rebuild.Proofs.FileSystem.Rooted

set_option relaxedAutoImplicit false
set_option autoImplicit false

namespace Rebuild.FileSystem

variable {fs : FileSystem} {cur loc : Location} {links left : ℕ}
  {onLink onLink' : Location → List Step → Except IoError Location} {x : String} {step : Step}
  {front rest steps steps' : List Step}

/-- One step of a walk that follows every link. -/
theorem walkWith_name : fs.walkWith .target onLink cur (.go (.name x) :: rest) =
    if fs.isDirectoryAt cur then
      if maxNameLength < x.utf8ByteSize then .error .nameTooLong
      else match fs.node? (cur ++ [x]) with
        | none => .error .notFound
        | some (.link target) =>
          onLink (if target.isAbsolute then [] else cur) (target.walkSteps ++ rest)
        | some _ => fs.walkWith .target onLink (cur ++ [x]) rest
    else .error .notADirectory := by
  rw [walkWith]
  rcases fs.node? (cur ++ [x]) with _ | _ | _ | _ <;> simp

theorem walkWith_of_not_isDirectoryAt (h : ¬ fs.isDirectoryAt cur = true) :
    fs.walkWith .target onLink cur (step :: rest) = .error .notADirectory := by
  rw [walkWith.eq_def]
  simp only [if_neg h]

/-! ### Longer walks -/

/-- Two walks of which the second goes on behind the end of the first: it goes on from there with the
links that are left, or it ends as the first did. -/
def GoesOn (fs : FileSystem) (rest : List Step) (first whole : Except IoError Location) : Prop :=
  (∃ mid left, first = .ok mid ∧ whole = fs.walk .target left mid rest) ∨
    ∃ e, first = .error e ∧ whole = .error e

theorem walkWith_append (hself : fs.walk .target links = fs.walkWith .target onLink)
    (hlink : ∀ cur steps, fs.GoesOn rest (onLink cur steps) (onLink cur (steps ++ rest)))
    (cur : Location) (front : List Step) :
    fs.GoesOn rest (fs.walkWith .target onLink cur front)
      (fs.walkWith .target onLink cur (front ++ rest)) := by
  induction front generalizing cur with
  | nil => exact Or.inl ⟨cur, links, rfl, by rw [hself, List.nil_append]⟩
  | cons step front ih =>
      by_cases hdir : fs.isDirectoryAt cur = true
      · match step with
        | .slash | .go .root | .go .here | .go .up =>
            rw [List.cons_append, walkWith, if_pos hdir, walkWith, if_pos hdir]
            exact ih _
        | .go (.name x) =>
            rw [List.cons_append, walkWith_name, if_pos hdir, walkWith_name, if_pos hdir]
            split
            · exact Or.inr ⟨_, rfl, rfl⟩
            · split
              · exact Or.inr ⟨_, rfl, rfl⟩
              · rw [← List.append_assoc]
                exact hlink _ _
              · exact ih _
      · rw [List.cons_append, walkWith_of_not_isDirectoryAt hdir, walkWith_of_not_isDirectoryAt hdir]
        exact Or.inr ⟨_, rfl, rfl⟩

/-- **A walk along more steps goes on from where the first steps ended**, with the links that are left,
or fails as they did. -/
theorem walk_append (fs : FileSystem) (links : ℕ) (cur : Location) (front rest : List Step) :
    fs.GoesOn rest (fs.walk .target links cur front) (fs.walk .target links cur (front ++ rest)) := by
  -- on the links that may still be followed; behind a link the walk has one fewer
  induction links generalizing cur front with
  | zero =>
      have hself : fs.walk .target 0 = fs.walkWith .target fun _ _ => .error .tooManyLinks := rfl
      exact walkWith_append hself (fun _ _ => Or.inr ⟨_, rfl, rfl⟩) cur front
  | succ links ih =>
      have hself : fs.walk .target (links + 1) = fs.walkWith .target (fs.walk .target links) := rfl
      exact walkWith_append hself ih cur front

/-- Where a walk succeeds, its first steps do. -/
theorem walk_front (h : fs.walk .target links cur (front ++ rest) = .ok loc) :
    ∃ mid left, fs.walk .target links cur front = .ok mid ∧
      fs.walk .target left mid rest = .ok loc := by
  rcases fs.walk_append links cur front rest with ⟨mid, left, hfront, hwhole⟩ | ⟨e, _, hwhole⟩
  · exact ⟨mid, left, hfront, hwhole ▸ h⟩
  · rw [hwhole] at h
    cases h

/-- Where its first steps end, a walk goes on. -/
theorem walk_rest (h : fs.walk .target links cur front = .ok loc) (rest : List Step) :
    ∃ left, fs.walk .target links cur (front ++ rest) = fs.walk .target left loc rest := by
  rcases fs.walk_append links cur front rest with ⟨mid, left, hfront, hwhole⟩ | ⟨e, hfront, _⟩
  · obtain rfl := Except.ok.inj (hfront.symm.trans h)
    exact ⟨left, hwhole⟩
  · rw [hfront] at h
    cases h

theorem isDirectoryAt_of_walk (h : fs.walk .target links cur (step :: rest) = .ok loc) :
    fs.isDirectoryAt cur = true := by
  obtain ⟨onLink, heq⟩ := exists_walk_eq fs .target links
  rw [heq] at h
  exact isDirectoryAt_of_walkWith h

/-! ### Other numbers of links -/

theorem walkWith_links
    (hlink : ∀ {cur steps loc}, onLink cur steps = .ok loc →
      onLink' cur steps = .ok loc ∨ onLink' cur steps = .error .tooManyLinks)
    (h : fs.walkWith .target onLink cur steps = .ok loc) :
    fs.walkWith .target onLink' cur steps = .ok loc ∨
      fs.walkWith .target onLink' cur steps = .error .tooManyLinks := by
  induction steps generalizing cur with
  | nil => exact Or.inl h
  | cons step rest ih =>
      have hdir := isDirectoryAt_of_walkWith h
      match step with
      | .slash | .go .root | .go .here | .go .up =>
          rw [walkWith, if_pos hdir] at h ⊢
          exact ih h
      | .go (.name x) =>
          rw [walkWith_name, if_pos hdir] at h ⊢
          split at h
          · cases h
          · rename_i hshort
            rw [if_neg hshort]
            split at h
            · cases h
            · exact hlink h
            · exact ih h

/-- **The place does not hang on the number of links**: a walk that succeeds with some ends there with
any other number, or there are too few. -/
theorem walk_links (h : fs.walk .target links cur steps = .ok loc) (left : ℕ) :
    fs.walk .target left cur steps = .ok loc ∨
      fs.walk .target left cur steps = .error .tooManyLinks := by
  induction left generalizing links cur steps loc with
  | zero =>
      obtain ⟨onLink, heq⟩ := exists_walk_eq fs .target links
      rw [heq] at h
      exact walkWith_links (fun _ => Or.inr rfl) h
  | succ left ih =>
      cases links with
      | zero => exact walkWith_links (fun hl => by cases hl) h
      | succ links => exact walkWith_links ih h

/-! ### Steps that can be left out -/

/-- Some steps that only ask for a directory are left out. -/
inductive Skips : List Step → List Step → Prop where
  | nil : Skips [] []
  | keep (step : Step) {steps steps' : List Step} : Skips steps steps' →
      Skips (step :: steps) (step :: steps')
  | slash {steps steps' : List Step} : Skips steps steps' → Skips (.slash :: steps) steps'
  | here {steps steps' : List Step} : Skips steps steps' → Skips (.go .here :: steps) steps'

theorem Skips.refl (steps : List Step) : Skips steps steps := by
  induction steps with
  | nil => exact .nil
  | cons step steps ih => exact .keep step ih

theorem Skips.behind (h : Skips steps steps') (front : List Step) :
    Skips (front ++ steps) (front ++ steps') := by
  induction front with
  | nil => exact h
  | cons step front ih => exact .keep step ih

/-- No name is left out. -/
theorem Skips.mem_of_name (h : Skips steps steps') (hx : .go (.name x) ∈ steps) :
    .go (.name x) ∈ steps' := by
  induction h with
  | nil => exact hx
  | keep step _ ih =>
      rcases List.mem_cons.1 hx with rfl | hx
      · exact List.mem_cons_self ..
      · exact List.mem_cons_of_mem _ (ih hx)
  | slash _ ih => exact ih ((List.mem_cons.1 hx).resolve_left (by simp))
  | here _ ih => exact ih ((List.mem_cons.1 hx).resolve_left (by simp))

/-- What is left out is left out before the last name. -/
theorem Skips.of_concat {y : String} (h : Skips (steps ++ [.go (.name y)]) (steps' ++ [.go (.name x)])) :
    Skips steps steps' := by
  generalize hwhole : steps ++ [.go (.name y)] = whole at h
  generalize hpart : steps' ++ [.go (.name x)] = part at h
  induction h generalizing steps steps' with
  | nil => simp at hwhole
  | keep step hskips ih =>
      cases steps with
      | nil =>
          obtain ⟨rfl, rfl⟩ := List.cons.inj hwhole
          cases hskips
          obtain ⟨rfl, _⟩ := List.append_inj' (hpart.trans (List.nil_append _).symm) rfl
          exact .nil
      | cons c steps =>
          obtain ⟨rfl, hrest⟩ := List.cons.inj hwhole
          cases steps' with
          | nil =>
              obtain ⟨_, hnil⟩ := List.cons.inj hpart
              obtain rfl : steps ++ [.go (.name y)] = _ := hrest
              have hmem := hskips.mem_of_name (List.mem_append_right steps (List.mem_cons_self ..))
              rw [← hnil] at hmem
              cases hmem
          | cons c' steps' =>
              obtain ⟨rfl, hrest'⟩ := List.cons.inj hpart
              exact .keep _ (ih hrest hrest')
  | slash hskips ih =>
      cases steps with
      | nil => cases (List.cons.inj hwhole).1
      | cons c steps =>
          obtain ⟨rfl, hrest⟩ := List.cons.inj hwhole
          exact .slash (ih hrest hpart)
  | here hskips ih =>
      cases steps with
      | nil => cases (List.cons.inj hwhole).1
      | cons c steps =>
          obtain ⟨rfl, hrest⟩ := List.cons.inj hwhole
          exact .here (ih hrest hpart)

theorem walkWith_skip
    (hlink : ∀ {cur steps steps' loc}, Skips steps steps' → onLink cur steps = .ok loc →
      onLink' cur steps' = .ok loc)
    (hskips : Skips steps steps') (h : fs.walkWith .target onLink cur steps = .ok loc) :
    fs.walkWith .target onLink' cur steps' = .ok loc := by
  induction hskips generalizing cur with
  | nil => exact h
  | slash _ ih | here _ ih =>
      have hdir := isDirectoryAt_of_walkWith h
      rw [walkWith, if_pos hdir] at h
      exact ih h
  | keep step hskips ih =>
      have hdir := isDirectoryAt_of_walkWith h
      cases step with
      | slash =>
          rw [walkWith, if_pos hdir] at h ⊢
          exact ih h
      | go c =>
          cases c with
          | root | here | up =>
              rw [walkWith, if_pos hdir] at h ⊢
              exact ih h
          | name x =>
              rw [walkWith_name, if_pos hdir] at h ⊢
              split at h
              · cases h
              · rename_i hshort
                rw [if_neg hshort]
                split at h
                · cases h
                · exact hlink (hskips.behind _) h
                · exact ih h

/-- **A walk needs no steps that only ask for a directory.** -/
theorem walk_skip (hskips : Skips steps steps') (h : fs.walk .target links cur steps = .ok loc) :
    fs.walk .target links cur steps' = .ok loc := by
  induction links generalizing cur steps steps' loc with
  | zero => exact walkWith_skip (fun _ hl => by cases hl) hskips h
  | succ links ih => exact walkWith_skip ih hskips h

/-! ### Other file systems -/

section

variable {fs' : FileSystem} {goal : Goal} {p : Path}

/-- **A walk looks at nothing but entries.** -/
theorem walkWith_congr (h : ∀ l, fs'.node? l = fs.node? l)
    (onLink : Location → List Step → Except IoError Location) (cur : Location) (steps : List Step) :
    fs'.walkWith goal onLink cur steps = fs.walkWith goal onLink cur steps := by
  have hdir : ∀ l, fs'.isDirectoryAt l = fs.isDirectoryAt l := fun l => by
    rw [isDirectoryAt, h]
    rfl
  induction steps generalizing cur with
  | nil => rfl
  | cons step rest ih =>
      unfold walkWith
      simp only [hdir, h, ih]

theorem walk_congr (h : ∀ l, fs'.node? l = fs.node? l) (links : ℕ) :
    fs'.walk goal links = fs.walk goal links := by
  induction links with
  | zero =>
      funext cur steps
      exact walkWith_congr h _ cur steps
  | succ links ih =>
      funext cur steps
      rw [walk, walk, ih]
      exact walkWith_congr h _ cur steps

/-- Where a path leads hangs on the entries and on the working directory. -/
theorem locate_congr (h : ∀ l, fs'.node? l = fs.node? l) (hwork : fs'.workDir = fs.workDir) :
    fs'.locate goal p = fs.locate goal p := by
  unfold locate follow startOf
  rw [walk_congr h, hwork]

theorem slot_congr (h : ∀ l, fs'.node? l = fs.node? l) (hwork : fs'.workDir = fs.workDir)
    (blocked : IoError) : fs'.slot blocked p = fs.slot blocked p := by
  unfold slot startOf isDirectoryAt
  simp only [walk_congr h, hwork, h]

theorem locate_elapse (fs : FileSystem) (nanos : ℕ) (goal : Goal) (p : Path) :
    (fs.elapse nanos).locate goal p = fs.locate goal p :=
  locate_congr (fun _ => rfl) rfl

end

end Rebuild.FileSystem
