/-
Paths with no link on their way.

A path goes from place to place.  If no link stands at any of them, a walk along the path can only end at
the place that the path names, whatever links there are elsewhere.

Main definitions:

* `FileSystem.Sound` — **every entry is in a directory, under a name that can be written**;
* `FileSystem.Room` — a location that an entry may be put at;
* `Path.way` — the places that a path goes through, with the one that it names at the end;
* `FileSystem.Unlinked` — no link is on the way of the path.

Main results:

* `FileSystem.Unlinked.locate_entry` — what such a path leads to is what it names;
* `FileSystem.Sound.locate_or` — **a path with no link on its way leads to the place that it names**;
* `FileSystem.Sound.slot`, `FileSystem.Sound.writePlace` — and so does what is put there;
* `Path.way_ofComponents`, `Path.way_join` — ways of paths that are written again, cut short or joined.
-/
import Rebuild.Proofs.FileSystem.Rooted

set_option relaxedAutoImplicit false
set_option autoImplicit false

namespace Rebuild

/-- What a step of a walk does to a location, if there are no links. -/
def Step.move (loc : Location) : Step → Location
  | .go c => c.move loc
  | .slash => loc

namespace Path

variable {p q base rel : Path} {cs : List Component} {loc s : Location}

theorem foldl_move_go (cs : List Component) (s : Location) :
    (cs.map Step.go).foldl Step.move s = cs.foldl Component.move s := by
  rw [List.foldl_map]
  rfl

/-- A slash may follow the steps. -/
theorem walkSteps_eq (p : Path) :
    p.walkSteps = p.steps.map .go ∨ p.walkSteps = p.steps.map .go ++ [.slash] := by
  unfold walkSteps
  split
  · exact Or.inr rfl
  · exact Or.inl (List.append_nil _)

theorem foldl_move_walkSteps (p : Path) (s : Location) :
    p.walkSteps.foldl Step.move s = p.steps.foldl Component.move s := by
  rcases p.walkSteps_eq with heq | heq
  · rw [heq, foldl_move_go]
  · rw [heq, List.foldl_append, foldl_move_go]
    rfl

/-- A walk along a path goes nowhere else than its steps. -/
theorem legible_of_go_mem {c : Component} (hc : .go c ∈ p.walkSteps) : c.Legible := by
  have hmem : Step.go c ∈ p.steps.map Step.go := by
    rcases p.walkSteps_eq with heq | heq
    · rwa [heq] at hc
    · rw [heq] at hc
      exact (List.mem_append.1 hc).resolve_right (by simp)
  obtain ⟨d, hd, heq⟩ := List.mem_map.1 hmem
  obtain rfl := Step.go.inj heq
  exact legible_of_mem_steps hd

/-! ### Ways -/

/-- The places that a path goes through, seen from a location, if there are no links; the last one is the
place that it names. -/
def way (p : Path) (s : Location) : List Location :=
  p.steps.inits.map fun front => front.foldl Component.move (if p.isAbsolute then [] else s)

theorem mem_way : loc ∈ p.way s ↔
    ∃ front, front <+: p.steps ∧ front.foldl Component.move (if p.isAbsolute then [] else s) = loc := by
  simp [way]

theorem place_mem_way (p : Path) (s : Location) : p.place s ∈ p.way s :=
  mem_way.2 ⟨p.steps, List.prefix_rfl, rfl⟩

/-- The first steps of a walk lead along the way. -/
theorem foldl_move_mem_way {front : List Step} (hfront : front <+: p.walkSteps) :
    front.foldl Step.move (if p.isAbsolute then [] else s) ∈ p.way s := by
  have hgo : ∀ front, front <+: p.steps.map Step.go →
      front.foldl Step.move (if p.isAbsolute then [] else s) ∈ p.way s := by
    intro front hfront
    obtain ⟨cs, hcs, rfl⟩ := List.prefix_map_iff.1 hfront
    rw [foldl_move_go]
    exact mem_way.2 ⟨cs, hcs, rfl⟩
  rcases p.walkSteps_eq with heq | heq
  · exact hgo front (heq ▸ hfront)
  · rw [heq] at hfront
    rcases List.prefix_concat_iff.1 hfront with rfl | hfront
    · -- the slash goes nowhere
      rw [List.foldl_append]
      exact hgo _ List.prefix_rfl
    · exact hgo front hfront

/-- A path that starts where another one does and has some of its first steps, dots aside, does not leave
its way. -/
theorem way_subset (habs : p.isAbsolute = q.isAbsolute)
    (hsteps : p.steps.filter (· ≠ .here) <+: q.steps.filter (· ≠ .here)) : p.way s ⊆ q.way s := by
  intro loc hloc
  obtain ⟨front, hfront, rfl⟩ := mem_way.1 hloc
  obtain ⟨front', hfront', heq⟩ := List.prefix_filter_iff.1 ((hfront.filter _).trans hsteps)
  refine mem_way.2 ⟨front', hfront', ?_⟩
  rw [← foldl_move_filter front', ← heq, foldl_move_filter, habs]

/-- Written from the first components of a path, the root among them, a path does not leave its way. -/
theorem way_take (p : Path) {n : ℕ} (hroot : p.isAbsolute = true → n ≠ 0) :
    (ofComponents (p.components.take n)).way s ⊆ p.way s := by
  have hlegible : ∀ cs : List Component, cs ⊆ p.steps → ∀ c ∈ cs, c.Legible :=
    fun cs hcs c hc => legible_of_mem_steps (hcs hc)
  cases habs : p.isAbsolute with
  | true =>
      have hcomponents : p.components = .root :: p.steps.filter (· ≠ .here) := by
        rw [components, if_pos habs]
      cases n with
      | zero => exact absurd rfl (hroot habs)
      | succ n =>
          have htake := hlegible ((p.steps.filter (· ≠ .here)).take n) fun c hc =>
            List.mem_of_mem_filter (List.mem_of_mem_take hc)
          rw [hcomponents, List.take_succ_cons]
          refine way_subset (isAbsolute_ofComponents_root.trans habs.symm) ?_
          rw [steps_ofComponents_root htake]
          simpa using (List.take_prefix n (p.steps.filter (· ≠ .here))).filter (· ≠ .here)
  | false =>
      have hsub : p.components ⊆ p.steps := by
        intro c hc
        rw [components, habs, if_neg Bool.false_ne_true] at hc
        split at hc
        · rename_i rest hsteps
          rw [hsteps]
          exact (List.mem_cons.1 hc).elim (fun heq => heq ▸ List.mem_cons_self ..)
            fun hc => List.mem_cons_of_mem _ (List.mem_of_mem_filter hc)
        · exact List.mem_of_mem_filter hc
      have htake := hlegible (p.components.take n) fun c hc => hsub (List.mem_of_mem_take hc)
      have hfilter : p.components.filter (· ≠ .here) = p.steps.filter (· ≠ .here) := by
        rw [components, habs, if_neg Bool.false_ne_true]
        split
        · rename_i rest hsteps
          simp [hsteps]
        · simp
      refine way_subset ((isAbsolute_ofComponents htake).trans habs.symm) ?_
      rw [steps_ofComponents htake, ← hfilter]
      exact (List.take_prefix n _).filter _

theorem way_ofComponents (p : Path) {n : ℕ} (htext : (ofComponents (p.components.take n)).text ≠ "") :
    (ofComponents (p.components.take n)).way s ⊆ p.way s := by
  refine p.way_take fun _ hn => htext ?_
  subst hn
  rfl

/-- Written again, a path does not leave its way. -/
theorem way_ofComponents_components (p : Path) : (ofComponents p.components).way s ⊆ p.way s := by
  rw [← List.take_length (l := p.components)]
  refine p.way_take fun habs hlength => ?_
  rw [components, if_pos habs] at hlength
  cases hlength

/-- A joined path goes the way of the first path, and from its place down along the names. -/
theorem way_join {names : List String} (hnames : ∀ x ∈ names, IsName x)
    (hloc : loc ∈ (base.join (ofComponents (names.map .name))).way s) :
    loc ∈ base.way s ∨ ∃ front, front <+: names ∧ loc = base.place s ++ front := by
  have hlegible := legible_names hnames
  have hrel := isAbsolute_ofComponents hlegible
  obtain ⟨front, hfront, rfl⟩ := mem_way.1 hloc
  rw [steps_join hrel, steps_ofComponents hlegible] at hfront
  rw [isAbsolute_join hrel]
  rcases List.prefix_or_prefix_of_prefix hfront (List.prefix_append _ _) with hbase | ⟨back, rfl⟩
  · exact Or.inl (mem_way.2 ⟨front, hbase, rfl⟩)
  · obtain ⟨down, hdown, rfl⟩ :=
      List.prefix_map_iff.1 ((List.prefix_append_right_inj _).1 hfront)
    refine Or.inr ⟨down, hdown, ?_⟩
    rw [List.foldl_append, foldl_move_names, place]

end Path

namespace FileSystem

/-- **A sound file system**: every entry is in a directory and has a name that paths can be written with,
and relative paths start at a directory.  There may be links. -/
structure Sound (fs : FileSystem) : Prop where
  parent : ∀ {loc n}, fs.node? loc = some n → fs.isDirectoryAt loc.dropLast = true
  isName : ∀ {loc n}, fs.node? loc = some n → ∀ x ∈ loc, IsName x
  workDir : fs.isDirectoryAt fs.workDir = true

/-- An entry may be put there: the directory is there, and the last name is one that can be written. -/
def Room (fs : FileSystem) (loc : Location) : Prop :=
  ∃ parent x, loc = parent ++ [x] ∧ fs.isDirectoryAt parent = true ∧ IsName x

/-- No link is on the way of the path, or at the end of it. -/
def Unlinked (fs : FileSystem) (p : Path) : Prop :=
  ∀ loc ∈ p.way fs.workDir, ∀ target, fs.node? loc ≠ some (.link target)

variable {fs fs' : FileSystem} {goal : Goal} {cur loc : Location} {n : Node} {p q : Path}

theorem Room.ne_nil (h : fs.Room loc) : loc ≠ [] := by
  obtain ⟨parent, x, rfl, _⟩ := h
  simp

theorem Unlinked.of_subset (h : fs.Unlinked p) (hsub : q.way fs.workDir ⊆ p.way fs.workDir) :
    fs.Unlinked q := fun loc hloc => h loc (hsub hloc)

/-- The places on the way can be looked at one by one. -/
theorem unlinked_iff :
    fs.Unlinked p ↔ ∀ loc ∈ p.way fs.workDir, (fs.node? loc).any Node.isLink = false := by
  refine forall₂_congr fun loc _ => ?_
  cases fs.node? loc with
  | none => simp
  | some n => cases n <;> simp [Node.isLink]

instance (fs : FileSystem) (p : Path) : Decidable (fs.Unlinked p) := decidable_of_iff _ unlinked_iff.symm

/-- No link is at any place that the steps go through. -/
def Unbarred (fs : FileSystem) (cur : Location) (steps : List Step) : Prop :=
  ∀ front, front <+: steps → ∀ target, fs.node? (front.foldl Step.move cur) ≠ some (.link target)

theorem Unbarred.tail {step : Step} {rest : List Step} (h : fs.Unbarred cur (step :: rest)) :
    fs.Unbarred (Step.move cur step) rest :=
  fun front hfront => h (step :: front) (List.cons_prefix_cons.2 ⟨rfl, hfront⟩)

theorem Unlinked.unbarred (hp : fs.Unlinked p) {steps : List Step} (hsteps : steps <+: p.walkSteps) :
    fs.Unbarred (fs.startOf p) steps :=
  fun _ hfront => hp _ (Path.foldl_move_mem_way (hfront.trans hsteps))

/-- Where no link is passed, it does not matter what is done at links. -/
theorem walkWith_entry {onLink onLink' : Location → List Step → Except IoError Location}
    {steps : List Step} (hclear : fs.Unbarred cur steps)
    (hwalk : fs.walkWith .target onLink cur steps = .ok loc) :
    fs.walkWith .entry onLink' cur steps = .ok loc := by
  induction steps generalizing cur with
  | nil => exact hwalk
  | cons step rest ih =>
      have hdir := isDirectoryAt_of_walkWith hwalk
      match step with
      | .slash | .go .root | .go .here | .go .up =>
          rw [FileSystem.walkWith, if_pos hdir] at hwalk ⊢
          exact ih hclear.tail hwalk
      | .go (.name x) =>
          obtain ⟨_, hshort, n, hn, ⟨hpass, hnext⟩ | ⟨target, rfl, _⟩⟩ :=
            (walkWith_name_iff (by simp)).1 hwalk
          · exact (walkWith_name_iff (by simp)).2 ⟨hdir, hshort, n, hn, Or.inl ⟨hpass, ih hclear.tail hnext⟩⟩
          · exact absurd hn (hclear.tail [] (List.nil_prefix ..) target)

/-- What a path with no link on its way leads to is what it names. -/
theorem Unlinked.locate_entry (hp : fs.Unlinked p) (hloc : fs.locate .target p = .ok loc) :
    fs.locate .entry p = .ok loc := by
  unfold FileSystem.locate follow at hloc ⊢
  split at hloc
  · cases hloc
  · obtain ⟨onLink, heq⟩ := exists_walk_eq fs .target maxLinks
    obtain ⟨onLink', heq'⟩ := exists_walk_eq fs .entry maxLinks
    rw [heq] at hloc
    rw [heq']
    exact walkWith_entry (hp.unbarred List.prefix_rfl) hloc

namespace Sound

/-- The entries can be looked at one by one. -/
theorem of_nodes (hnodes : ∀ e ∈ fs.nodes, fs.isDirectoryAt e.1.dropLast = true ∧ ∀ x ∈ e.1, IsName x)
    (hwork : fs.isDirectoryAt fs.workDir = true) : fs.Sound := by
  have hentry : ∀ {loc n}, fs.node? loc = some n →
      fs.isDirectoryAt loc.dropLast = true ∧ ∀ x ∈ loc, IsName x := fun hn =>
    forall_of_nodes (P := fun loc _ => fs.isDirectoryAt loc.dropLast = true ∧ ∀ x ∈ loc, IsName x)
      (fun _ => ⟨rfl, by simp⟩) hnodes hn
  exact ⟨fun hn => (hentry hn).1, fun hn => (hentry hn).2, hwork⟩

theorem rooted (h : fs.Sound) : fs.Rooted := ⟨h.parent⟩

theorem room_of_entry (h : fs.Sound) (hn : fs.node? loc = some n) (hne : loc ≠ []) : fs.Room loc := by
  refine ⟨loc.dropLast, loc.getLast hne, (List.dropLast_append_getLast hne).symm, h.parent hn, ?_⟩
  exact h.isName hn _ (List.getLast_mem hne)

/-! ### Walks -/

/-- **A walk ends where its steps lead**, at an entry or where one may be put. -/
theorem walkWith (h : fs.Sound) {onLink : Location → List Step → Except IoError Location}
    {steps : List Step} (hsteps : ∀ c, .go c ∈ steps → c.Legible) (hcur : (fs.node? cur).isSome = true)
    (hclear : fs.Unbarred cur steps)
    (hwalk : fs.walkWith goal onLink cur steps = .ok loc) : loc = steps.foldl Step.move cur ∧
      ((fs.node? loc).isSome = true ∨ goal = .creation ∧ fs.Room loc) := by
  induction steps generalizing cur with
  | nil =>
      obtain rfl := Except.ok.inj hwalk
      exact ⟨rfl, Or.inl hcur⟩
  | cons step rest ih =>
      have hdir := isDirectoryAt_of_walkWith hwalk
      have hrest : ∀ c, .go c ∈ rest → c.Legible := fun c hc => hsteps c (List.mem_cons_of_mem _ hc)
      match step with
      | .go .root => cases hsteps .root (List.mem_cons_self ..)
      | .slash | .go .here =>
          rw [FileSystem.walkWith, if_pos hdir] at hwalk
          exact ih hrest hcur hclear.tail hwalk
      | .go .up =>
          rw [FileSystem.walkWith, if_pos hdir] at hwalk
          obtain ⟨n, hn⟩ := Option.isSome_iff_exists.1 hcur
          exact ih hrest (isSome_of_isDirectoryAt (h.parent hn)) hclear.tail hwalk
      | .go (.name x) =>
          obtain ⟨_, _, _, ⟨_, rfl, rfl, rfl⟩ | ⟨n, hn, ⟨_, hnext⟩ | ⟨target, rfl, _⟩⟩⟩ :=
            walkWith_name_cases.1 hwalk
          · exact ⟨rfl, Or.inr ⟨rfl, cur, x, rfl, hdir, hsteps _ (List.mem_cons_self ..)⟩⟩
          · exact ih hrest (Option.isSome_iff_exists.2 ⟨n, hn⟩) hclear.tail hnext
          · exact absurd hn (hclear.tail [] (List.nil_prefix ..) target)

/-- **Something is wherever a walk passes.** -/
theorem walkWith_passes (h : fs.Sound) (hgoal : goal ≠ .creation)
    {onLink : Location → List Step → Except IoError Location} {steps : List Step}
    (hsteps : ∀ c, .go c ∈ steps → c.Legible) (hcur : (fs.node? cur).isSome = true)
    (hclear : fs.Unbarred cur steps)
    (hwalk : fs.walkWith goal onLink cur steps = .ok loc) {front : List Step} (hfront : front <+: steps) :
    (fs.node? (front.foldl Step.move cur)).isSome = true := by
  induction steps generalizing cur front with
  | nil =>
      obtain rfl := List.prefix_nil.1 hfront
      exact hcur
  | cons step rest ih =>
      rcases List.prefix_cons_iff.1 hfront with rfl | ⟨front, rfl, htail⟩
      · exact hcur
      · have hdir := isDirectoryAt_of_walkWith hwalk
        have hrest : ∀ c, .go c ∈ rest → c.Legible := fun c hc => hsteps c (List.mem_cons_of_mem _ hc)
        match step with
        | .go .root => cases hsteps .root (List.mem_cons_self ..)
        | .slash | .go .here =>
            rw [FileSystem.walkWith, if_pos hdir] at hwalk
            have hpasses := ih hrest hcur hclear.tail hwalk htail
            exact hpasses
        | .go .up =>
            rw [FileSystem.walkWith, if_pos hdir] at hwalk
            obtain ⟨n, hn⟩ := Option.isSome_iff_exists.1 hcur
            exact ih hrest (isSome_of_isDirectoryAt (h.parent hn)) hclear.tail hwalk htail
        | .go (.name x) =>
            obtain ⟨_, _, n, hn, ⟨_, hnext⟩ | ⟨target, rfl, _⟩⟩ := (walkWith_name_iff hgoal).1 hwalk
            · exact ih hrest (Option.isSome_iff_exists.2 ⟨n, hn⟩) hclear.tail hnext htail
            · exact absurd hn (hclear.tail [] (List.nil_prefix ..) target)

theorem isDirectoryAt_startOf (h : fs.Sound) (p : Path) : fs.isDirectoryAt (fs.startOf p) = true := by
  unfold startOf
  split
  · rfl
  · exact h.workDir

/-- The first steps along a path, or all of them, lead to a place on its way. -/
theorem walk (h : fs.Sound) (hp : fs.Unlinked p) {links : ℕ} {steps : List Step}
    (hsteps : steps <+: p.walkSteps) (hwalk : fs.walk goal links (fs.startOf p) steps = .ok loc) :
    loc = steps.foldl Step.move (fs.startOf p) ∧
      ((fs.node? loc).isSome = true ∨ goal = .creation ∧ fs.Room loc) := by
  obtain ⟨onLink, heq⟩ := exists_walk_eq fs goal links
  rw [heq] at hwalk
  exact h.walkWith (fun c hc => Path.legible_of_go_mem (hsteps.subset hc))
    (isSome_of_isDirectoryAt (h.isDirectoryAt_startOf p)) (hp.unbarred hsteps) hwalk

theorem locate_or (h : fs.Sound) (hp : fs.Unlinked p) (hloc : fs.locate goal p = .ok loc) :
    loc = p.place fs.workDir ∧ ((fs.node? loc).isSome = true ∨ goal = .creation ∧ fs.Room loc) := by
  unfold FileSystem.locate follow at hloc
  split at hloc
  · cases hloc
  · have hend := h.walk hp List.prefix_rfl hloc
    rwa [Path.foldl_move_walkSteps] at hend

/-- **A path with no link on its way leads to the place that it names.** -/
theorem locate (h : fs.Sound) (hp : fs.Unlinked p) (hgoal : goal ≠ .creation)
    (hloc : fs.locate goal p = .ok loc) : loc = p.place fs.workDir ∧ ∃ n, fs.node? loc = some n := by
  obtain ⟨hplace, hsome | ⟨hcreation, _⟩⟩ := h.locate_or hp hloc
  · exact ⟨hplace, Option.isSome_iff_exists.1 hsome⟩
  · exact absurd hcreation hgoal

/-- **Something is at every place on the way** of a path that leads somewhere. -/
theorem isSome_of_mem_way (h : fs.Sound) (hp : fs.Unlinked p) (hgoal : goal ≠ .creation)
    (hloc : fs.locate goal p = .ok loc) {l : Location} (hl : l ∈ p.way fs.workDir) :
    (fs.node? l).isSome = true := by
  unfold FileSystem.locate follow at hloc
  split at hloc
  · cases hloc
  · obtain ⟨onLink, heq⟩ := exists_walk_eq fs goal maxLinks
    rw [heq] at hloc
    obtain ⟨front, hfront, rfl⟩ := Path.mem_way.1 hl
    have hsteps : front.map Step.go <+: p.walkSteps := by
      rw [Path.walkSteps]
      exact (hfront.map Step.go).trans (List.prefix_append _ _)
    have hpasses := h.walkWith_passes hgoal (fun c hc => Path.legible_of_go_mem hc)
      (isSome_of_isDirectoryAt (h.isDirectoryAt_startOf p))
      (hp.unbarred List.prefix_rfl) hloc hsteps
    rwa [Path.foldl_move_go] at hpasses

/-- A file is written where its path says, in a directory that is there. -/
theorem writePlace (h : fs.Sound) (hp : fs.Unlinked p) (hloc : fs.writePlace p = .ok loc) :
    loc = p.place fs.workDir ∧ fs.Room loc ∧ fs.isDirectoryAt loc = false := by
  unfold FileSystem.writePlace at hloc
  cases hlocate : fs.locate .creation p with
  | error e =>
      rw [hlocate] at hloc
      cases hloc
  | ok place =>
      simp only [hlocate, bind, Except.bind] at hloc
      split at hloc
      · cases hloc
      · rename_i hdir
        obtain rfl := Except.ok.inj hloc
        obtain ⟨hplace, hend⟩ := h.locate_or hp hlocate
        refine ⟨hplace, ?_, Bool.eq_false_iff.2 hdir⟩
        rcases hend with hsome | ⟨_, hroom⟩
        · obtain ⟨n, hn⟩ := Option.isSome_iff_exists.1 hsome
          refine h.room_of_entry hn ?_
          rintro rfl
          exact hdir rfl
        · exact hroom

/-- A new entry is put where its path says, in a directory that is there. -/
theorem slot {blocked : IoError} (h : fs.Sound) (hp : fs.Unlinked p)
    (hloc : fs.slot blocked p = .ok loc) : loc = p.place fs.workDir ∧ fs.Room loc := by
  obtain ⟨_, front, x, parent, hsteps, hwalk, hdir, _, rfl⟩ := slot_eq_ok hloc
  have hx : (Component.name x).Legible := Path.legible_of_mem_steps (p := p) (by simp [hsteps])
  have hfront : front.map Step.go <+: p.walkSteps := by
    rw [Path.walkSteps, hsteps, List.map_append, List.append_assoc]
    exact List.prefix_append _ _
  have hparent := (h.walk hp hfront hwalk).1
  refine ⟨?_, parent, x, rfl, hdir, hx⟩
  rw [Path.place, hsteps, List.foldl_append, hparent, Path.foldl_move_go]
  rfl

end Sound

end FileSystem

end Rebuild
