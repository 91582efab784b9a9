/-
Making a directory and those above it.

If a path goes up only at its start, or to a directory that is there already, making its directory either
changes nothing, or it leaves a directory with nothing in it: the first directory that is missing is made,
and then only directories in it.  If it fails, nothing was changed, or the directory is not there.  A path
that goes up behind a name can do otherwise: once the directory of that name was made, it may lead
somewhere else.

Main definitions:

* `FileSystem.Firm` — **the path goes up at its start, or to a directory that is there**;
* `FileSystem.Enters` — the steps of the path lead to a directory;
* `FileSystem.Bare` — what the steps of the path lead to has nothing in it;
* `FileSystem.Widens` — **one file system is another with directories, and nothing else, added**;
* `Ladder` — each path has one name more than the next, down to one without names;
* `Disk.Makes` — the ways in which directories are made.

Main results:

* `FileSystem.reach_extends`, `FileSystem.Bare.not_reach` — one name more is one step more;
* `FileSystem.bare_of_makeDirectory` — a directory that was made has nothing in it;
* `Disk.endsClean_makeFirst` — **making directories changes nothing or leaves an empty one**.
-/
import Rebuild.Proofs.FileSystem.ChangesAbove
import Rebuild.Proofs.FileSystem.Following

set_option relaxedAutoImplicit false
set_option autoImplicit false

namespace Rebuild

/-! ### Paths and the paths above them -/

namespace Path

variable {p q : Path} {x : String} {n : ℕ}

/-- The path has one name more. -/
def Extends (p q : Path) (x : String) : Prop :=
  p.isAbsolute = q.isAbsolute ∧ p.steps = q.steps ++ [.name x]

/-- The name is the last component. -/
theorem Extends.components (h : p.Extends q x) : p.components = q.components ++ [.name x] := by
  unfold Path.components
  rw [h.1, h.2]
  cases q.isAbsolute with
  | true => simp
  | false =>
      cases q.steps with
      | nil => simp
      | cons c cs => cases c <;> simp

theorem Extends.parent? (h : p.Extends q x) : p.parent? = some (ofComponents q.components) := by
  rw [Path.parent?, h.components, List.getLast?_concat, List.dropLast_concat]

theorem extends_join {base : Path} {names : List String} (hnames : ∀ y ∈ names, IsName y)
    (hx : IsName x) : (base.join (ofComponents ((names ++ [x]).map .name))).Extends
      (base.join (ofComponents (names.map .name))) x := by
  have hall : ∀ y ∈ names ++ [x], IsName y := by
    intro y hy
    rcases List.mem_append.1 hy with hy | hy
    · exact hnames y hy
    · rwa [List.mem_singleton.1 hy]
  have hlegible := legible_names hnames
  have hlegible' := legible_names hall
  refine ⟨?_, ?_⟩
  · rw [isAbsolute_join (isAbsolute_ofComponents hlegible),
      isAbsolute_join (isAbsolute_ofComponents hlegible')]
  · rw [steps_join (isAbsolute_ofComponents hlegible), steps_join (isAbsolute_ofComponents hlegible'),
      steps_ofComponents hlegible, steps_ofComponents hlegible', List.map_append, List.append_assoc]
    rfl

/-- No name is in the path. -/
def Nameless (p : Path) : Prop := ∀ x, .name x ∉ p.steps

/-- Written from its components, a path is as absolute as before. -/
theorem isAbsolute_ofComponents_components (p : Path) :
    (ofComponents p.components).isAbsolute = p.isAbsolute := by
  have hlegible : ∀ c ∈ p.steps, c.Legible := fun c hc => legible_of_mem_steps hc
  have hfilter : ∀ cs : List Component, (∀ c ∈ cs, c.Legible) →
      ∀ c ∈ cs.filter (· ≠ .here), c.Legible := fun cs hcs c hc => hcs c (List.mem_of_mem_filter hc)
  unfold components
  split
  · rename_i habs
    rw [isAbsolute_ofComponents_root, habs]
  · rename_i hrel
    rw [Bool.not_eq_true] at hrel
    rw [hrel]
    split
    · rename_i rest hsteps
      refine isAbsolute_ofComponents (List.forall_mem_cons.2 ⟨trivial, hfilter rest fun c hc => ?_⟩)
      exact hlegible c (hsteps ▸ List.mem_cons_of_mem _ hc)
    · exact isAbsolute_ofComponents (hfilter _ hlegible)

/-- A path that is written from components of another one has no other steps. -/
theorem mem_take_of_mem_steps {c : Component}
    (hc : c ∈ (ofComponents (p.components.take n)).steps) : c ∈ p.components.take n := by
  obtain ⟨cs, hcs, heq | heq⟩ := p.components_cases
  · rw [heq] at hc ⊢
    rwa [steps_ofComponents fun c hc => hcs c (List.mem_of_mem_take hc)] at hc
  · cases n with
    | zero => exact absurd hc (by simp [ofComponents, steps, pieces, Component.ofPiece?])
    | succ n =>
        rw [heq, List.take_succ_cons] at hc ⊢
        rw [steps_ofComponents_root fun c hc => hcs c (List.mem_of_mem_take hc)] at hc
        exact List.mem_cons_of_mem _ hc

/-- A path that is written from one component more has one name more, if that is a name. -/
theorem extends_take (h : p.components.take (n + 1) = p.components.take n ++ [.name x]) :
    (ofComponents (p.components.take (n + 1))).Extends (ofComponents (p.components.take n)) x := by
  obtain ⟨cs, hcs, heq | heq⟩ := p.components_cases
  · have htake : ∀ k, ∀ c ∈ cs.take k, c.Legible := fun k c hc => hcs c (List.mem_of_mem_take hc)
    rw [heq] at h ⊢
    refine ⟨?_, ?_⟩
    · rw [isAbsolute_ofComponents (htake _), isAbsolute_ofComponents (htake _)]
    · rw [steps_ofComponents (htake _), steps_ofComponents (htake _), h]
  · cases n with
    | zero =>
        rw [heq] at h
        cases h
    | succ n =>
        have htake : ∀ k, ∀ c ∈ cs.take k, c.Legible := fun k c hc => hcs c (List.mem_of_mem_take hc)
        rw [heq, List.take_succ_cons, List.take_succ_cons, List.cons_append] at h
        rw [heq, List.take_succ_cons, List.take_succ_cons]
        refine ⟨?_, ?_⟩
        · rw [isAbsolute_ofComponents_root, isAbsolute_ofComponents_root]
        · rw [steps_ofComponents_root (htake _), steps_ofComponents_root (htake _)]
          exact (List.cons.inj h).2

end Path

/-! ### Where the steps of a path lead -/

namespace FileSystem

variable {fs fs' : FileSystem} {p q : Path} {x : String} {loc parent : Location}

/-- Where the steps of the path lead, a slash at its end left out. -/
def reach (fs : FileSystem) (p : Path) : Except IoError Location :=
  fs.walk .target maxLinks (fs.startOf p) (p.steps.map .go)

/-- The steps of the path lead to a directory. -/
def Enters (fs : FileSystem) (p : Path) : Prop :=
  ∃ loc, fs.reach p = .ok loc ∧ fs.isDirectoryAt loc = true

/-- The path goes up at its start, if at all, or it goes up to a directory that is there already. -/
def Firm (fs : FileSystem) (p : Path) : Prop := ∃ (front : List Component) (names : List String),
  p.components = front ++ names.map .name ∧
    ((∀ x, .name x ∉ front) ∨ names ≠ [] ∧ fs.isDirectory (.ofComponents front) = true)

/-- What the steps of the path lead to has nothing in it. -/
def Bare (fs : FileSystem) (p : Path) : Prop :=
  ∃ loc, fs.reach p = .ok loc ∧ ∀ rel ≠ [], fs.node? (loc ++ rel) = none

theorem firm_of_direct (h : p.Direct) : fs.Firm p := by
  obtain ⟨front, names, heq, hfront, _⟩ := h.components_eq
  exact ⟨front, names, heq, Or.inl hfront⟩

theorem skips_walkSteps (p : Path) : Skips p.walkSteps (p.steps.map .go) := by
  unfold Path.walkSteps
  split
  · simpa using (Skips.slash .nil).behind (p.steps.map .go)
  · rw [List.append_nil]
    exact Skips.refl _

/-- Only the components of a path matter for where its steps lead. -/
theorem skips_components (p : Path) :
    Skips (p.steps.map .go) ((Path.ofComponents p.components).steps.map .go) := by
  have hlegible : ∀ c ∈ p.steps, c.Legible := fun c hc => Path.legible_of_mem_steps hc
  have hfilter : ∀ cs : List Component, (∀ c ∈ cs, c.Legible) →
      ∀ c ∈ cs.filter (· ≠ .here), c.Legible := fun cs hcs c hc => hcs c (List.mem_of_mem_filter hc)
  have hskips : ∀ cs : List Component,
      Skips (cs.map .go) ((cs.filter (· ≠ .here)).map .go) := by
    intro cs
    induction cs with
    | nil => exact .nil
    | cons c cs ih =>
        cases c with
        | here => exact .here ih
        | root => exact .keep _ ih
        | up => exact .keep _ ih
        | name x => exact .keep _ ih
  unfold Path.components
  split
  · rw [Path.steps_ofComponents_root (hfilter _ hlegible)]
    exact hskips _
  · split
    · rename_i rest hsteps
      have hrest : ∀ c ∈ rest, c.Legible := fun c hc =>
        hlegible c (hsteps ▸ List.mem_cons_of_mem _ hc)
      have hwritten : ∀ c ∈ Component.here :: rest.filter (· ≠ .here), c.Legible :=
        List.forall_mem_cons.2 ⟨trivial, hfilter _ hrest⟩
      rw [Path.steps_ofComponents hwritten, hsteps]
      exact .keep _ (hskips rest)
    · rw [Path.steps_ofComponents (hfilter _ hlegible)]
      exact hskips _

theorem startOf_congr (h : p.isAbsolute = q.isAbsolute) : fs.startOf p = fs.startOf q := by
  rw [startOf, startOf, h]

theorem fault?_of_locate {goal : Goal} (h : fs.locate goal p = .ok loc) : p.fault? = none := by
  unfold locate at h
  split at h
  · cases h
  · assumption

theorem reach_of_locate (h : fs.locate .target p = .ok loc) : fs.reach p = .ok loc := by
  unfold locate at h
  rw [fault?_of_locate h] at h
  exact walk_skip (skips_walkSteps p) h

theorem reach_components (h : fs.reach p = .ok loc) :
    fs.reach (Path.ofComponents p.components) = .ok loc := by
  rw [reach, startOf_congr p.isAbsolute_ofComponents_components]
  exact walk_skip (skips_components p) h

theorem exists_of_present (h : fs.present p = true) : ∃ loc n, fs.locate .target p = .ok loc ∧
    fs.node? loc = some n := by
  obtain ⟨n, hn⟩ := Option.isSome_iff_exists.1 h
  obtain ⟨loc, hloc, hnode⟩ := lookup_eq_ok_iff.1 (stat?_eq_some_iff.1 hn)
  exact ⟨loc, n, hloc, hnode⟩

theorem present_of_locate {n : Node} (h : fs.locate .target p = .ok loc) (hn : fs.node? loc = some n) :
    fs.present p = true := by
  rw [present, stat?_eq_some_iff.2 (lookup_eq_ok_iff.2 ⟨loc, h, hn⟩)]
  rfl

theorem enters_of_isDirectory (h : fs.isDirectory p = true) : fs.Enters p := by
  obtain ⟨n, hn, hdir⟩ := (Option.any_eq_true _ _).1 h
  obtain ⟨loc, hloc, hnode⟩ := lookup_eq_ok_iff.1 (stat?_eq_some_iff.1 hn)
  refine ⟨loc, reach_of_locate hloc, ?_⟩
  rw [isDirectoryAt, hnode]
  exact hdir

/-- One name more is one step more, in the directory that was reached. -/
theorem reach_extends (hpq : p.Extends q x) (h : fs.reach p = .ok loc) :
    ∃ mid left, fs.reach q = .ok mid ∧ fs.isDirectoryAt mid = true ∧
      fs.walk .target left mid [.go (.name x)] = .ok loc := by
  rw [reach, hpq.2, List.map_append, startOf_congr hpq.1] at h
  obtain ⟨mid, left, hfront, hlast⟩ := walk_front h
  exact ⟨mid, left, hfront, isDirectoryAt_of_walk hlast, hlast⟩

theorem Enters.of_extends (hpq : p.Extends q x) (h : fs.Enters p) : fs.Enters q := by
  obtain ⟨loc, hloc, _⟩ := h
  obtain ⟨mid, _, hmid, hdir, _⟩ := reach_extends hpq hloc
  exact ⟨mid, hmid, hdir⟩

/-- The last step of a walk, to a name. -/
theorem walk_name {left : ℕ} (hdir : fs.isDirectoryAt parent = true)
    (hshort : ¬ maxNameLength < x.utf8ByteSize) : fs.walk .target left parent [.go (.name x)] =
      match fs.node? (parent ++ [x]) with
      | none => .error .notFound
      | some (.link target) => match left with
        | 0 => .error .tooManyLinks
        | left + 1 => fs.walk .target left (if target.isAbsolute then [] else parent) target.walkSteps
      | some _ => .ok (parent ++ [x]) := by
  cases left with
  | zero =>
      rw [walk, walkWith_name, if_pos hdir, if_neg hshort]
      rcases fs.node? (parent ++ [x]) with _ | _ | _ | _ <;> rfl
  | succ left =>
      rw [walk, walkWith_name, if_pos hdir, if_neg hshort]
      rcases fs.node? (parent ++ [x]) with _ | _ | _ | target
      · rfl
      · rfl
      · rfl
      · dsimp only
        rw [List.append_nil]

/-- Nothing is behind a name in a directory that has nothing in it. -/
theorem Bare.not_reach (hbare : fs.Bare q) (hpq : p.Extends q x) (loc : Location) :
    fs.reach p ≠ .ok loc := by
  intro h
  obtain ⟨mid, left, hmid, hdir, hlast⟩ := reach_extends hpq h
  obtain ⟨mid', hmid', hnone⟩ := hbare
  obtain rfl := Except.ok.inj (hmid.symm.trans hmid')
  by_cases hlong : maxNameLength < x.utf8ByteSize
  · obtain ⟨onLink, heq⟩ := exists_walk_eq fs .target left
    rw [heq, walkWith_name, if_pos hdir, if_pos hlong] at hlast
    cases hlast
  · rw [walk_name hdir hlong, hnone [x] (by simp)] at hlast
    cases hlast

/-! ### Making one directory -/

theorem makeDirectory_eq_ok (h : fs.makeDirectory p = .ok fs') :
    ∃ loc, fs.slot .alreadyExists p = .ok loc ∧ fs.node? loc = none ∧
      fs' = fs.store loc (.directory fs.clock) := by
  unfold makeDirectory at h
  cases hslot : fs.slot .alreadyExists p with
  | error e =>
      rw [hslot] at h
      cases h
  | ok loc =>
      simp only [hslot, bind, Except.bind] at h
      split at h
      · cases h
      · rename_i hnone
        exact ⟨loc, rfl, hnone, (Except.ok.inj h).symm⟩

/-- The second file system is the first with directories made or dated, and with nothing else. -/
structure Widens (fs fs' : FileSystem) : Prop where
  grows : fs.Grows fs'
  nothingElse : ∀ {loc n}, fs'.node? loc = some n → n.isDirectory = false → fs.node? loc = some n

instance : IsPreorder FileSystem Widens where
  refl := fun fs => ⟨.refl fs, fun hn _ => hn⟩
  trans := fun _ _ _ h h' => ⟨h.grows.trans h'.grows, fun hn hfile =>
    h.nothingElse (h'.nothingElse hn hfile) hfile⟩

theorem Widens.node?_iff {n : Node} (h : fs.Widens fs') (hn : n.isDirectory = false) :
    fs'.node? loc = some n ↔ fs.node? loc = some n :=
  ⟨fun hnode => h.nothingElse hnode hn, fun hnode => h.grows.entry hnode hn⟩

theorem widens_elapse (fs : FileSystem) (nanos : ℕ) : fs.Widens (fs.elapse nanos) :=
  ⟨grows_elapse fs nanos, fun hn _ => hn⟩

theorem widens_makeDirectory (h : fs.makeDirectory p = .ok fs') : fs.Widens fs' := by
  refine ⟨grows_makeDirectory h, fun {l n} hn hfile => ?_⟩
  obtain ⟨loc, hslot, _, rfl⟩ := makeDirectory_eq_ok h
  have hsets : fs.Sets loc _ (fs.store loc (.directory fs.clock)) :=
    sets_store (slot_ne_nil hslot) (.directory fs.clock)
  by_cases hl : l = loc
  · rw [hl, hsets.here] at hn
    obtain rfl := Option.some.inj hn
    cases hfile
  · rcases hsets.elsewhere hl with hsame | ⟨_, _, hdated⟩
    · rwa [hsame] at hn
    · obtain rfl := Option.some.inj (hdated.symm.trans hn)
      cases hfile

/-- A directory that was made has nothing in it, if nothing was below its place. -/
theorem bare_of_makeDirectory (h : fs.makeDirectory p = .ok fs')
    (hbelow : ∀ loc, fs.slot .alreadyExists p = .ok loc → ∀ rel ≠ [], fs.node? (loc ++ rel) = none) :
    fs'.Bare p := by
  have hgrows := grows_makeDirectory h
  obtain ⟨loc, hslot, _, rfl⟩ := makeDirectory_eq_ok h
  obtain ⟨_, front, x, parent, hsteps, hwalk, hdir, hshort, rfl⟩ := slot_eq_ok hslot
  have hsets : fs.Sets (parent ++ [x]) (some (.directory fs.clock))
      (fs.store (parent ++ [x]) (.directory fs.clock)) := sets_store (by simp) _
  refine ⟨parent ++ [x], ?_, fun rel hrel => ?_⟩
  · obtain ⟨left, hrest⟩ := walk_rest (hgrows.walk (by simp) hwalk) [.go (.name x)]
    have hstart : (fs.store (parent ++ [x]) (.directory fs.clock)).startOf p = fs.startOf p := by
      rw [startOf, hgrows.workDir, startOf]
    rw [reach, hstart, hsteps, List.map_append, List.map_singleton, hrest,
      walk_name (hgrows.directory hdir) hshort, hsets.here]
  · have hne : parent ++ [x] ++ rel ≠ parent ++ [x] := by simpa using hrel
    rcases hsets.elsewhere hne with hsame | ⟨heq, _⟩
    · rw [hsame]
      exact hbelow _ hslot rel hrel
    · have hlen := congrArg List.length heq
      simp at hlen

/-- Where a directory is reached there is no place for another one. -/
theorem slot_of_reach (hfault : p.fault? = none) (hreach : fs.reach p = .ok loc)
    (hdir : fs.isDirectoryAt loc = true) : fs.slot .alreadyExists p = .error .alreadyExists ∨
      ∃ place n, fs.slot .alreadyExists p = .ok place ∧ fs.node? place = some n := by
  unfold slot
  rw [hfault]
  rcases List.eq_nil_or_concat p.steps with hnil | ⟨front, c, hsteps⟩
  · rw [reach, hnil] at hreach
    rw [hnil, List.dropLast_nil, hreach]
    simp [bind, Except.bind, hdir]
  · rw [List.concat_eq_append] at hsteps
    rw [reach, hsteps, List.map_append, List.map_singleton] at hreach
    obtain ⟨parent, left, hparent, hlast⟩ := walk_front hreach
    have hparentdir := isDirectoryAt_of_walk hlast
    rw [hsteps, List.dropLast_concat, hparent, List.getLast?_concat]
    simp only [bind, Except.bind, if_pos hparentdir]
    cases c with
    | root | here | up => exact Or.inl rfl
    | name x =>
        right
        obtain ⟨onLink, heq⟩ := exists_walk_eq fs .target left
        rw [heq] at hlast
        obtain ⟨_, hshort, n, hn, _⟩ := (walkWith_name_iff (by simp)).1 hlast
        dsimp only
        rw [if_neg hshort]
        exact ⟨_, n, rfl, hn⟩

/-- A directory that is there is not made. -/
theorem makeDirectory_of_isDirectory (h : fs.isDirectory p = true) :
    fs.makeDirectory p = .error .alreadyExists := by
  obtain ⟨n, hn, _⟩ := (Option.any_eq_true _ _).1 h
  obtain ⟨_, hloc, _⟩ := lookup_eq_ok_iff.1 (stat?_eq_some_iff.1 hn)
  obtain ⟨loc, hreach, hdir⟩ := enters_of_isDirectory h
  unfold makeDirectory
  rcases slot_of_reach (fault?_of_locate hloc) hreach hdir with hslot | ⟨place, n, hslot, hnode⟩
  · rw [hslot]
    rfl
  · rw [hslot]
    simp only [bind, Except.bind, hnode]

/-- Without a name among them, steps lead somewhere if what they start from is a directory. -/
theorem walk_of_nameless (fs : FileSystem) {steps : List Component} (h : ∀ x, .name x ∉ steps)
    (cur : Location) :
    (∃ loc, fs.walk .target maxLinks cur (steps.map .go) = .ok loc) ∨
      fs.walk .target maxLinks cur (steps.map .go) = .error .notADirectory := by
  obtain ⟨onLink, heq⟩ := exists_walk_eq fs .target maxLinks
  rw [heq]
  induction steps generalizing cur with
  | nil => exact Or.inl ⟨cur, rfl⟩
  | cons c steps ih =>
      have hrest : ∀ x, .name x ∉ steps := fun x hx => h x (List.mem_cons_of_mem _ hx)
      by_cases hdir : fs.isDirectoryAt cur = true
      · cases c with
        | root | here | up =>
            rw [List.map_cons, walkWith, if_pos hdir]
            exact ih hrest _
        | name x => exact absurd (List.mem_cons_self ..) (h x)
      · exact Or.inr (walkWith_of_not_isDirectoryAt hdir)

theorem slot_of_nameless (fs : FileSystem) (h : p.Nameless) (htext : p.text.isEmpty = false) :
    ∃ e, fs.slot .alreadyExists p = .error e ∧ e ≠ .notFound := by
  unfold slot
  cases hfault : p.fault? with
  | some e =>
      refine ⟨e, rfl, ?_⟩
      rintro rfl
      exact Path.fault?_ne_notFound htext hfault
  | none =>
      rcases fs.walk_of_nameless (fun x hx => h x (List.mem_of_mem_dropLast hx)) (fs.startOf p) with
        ⟨loc, hloc⟩ | herror
      · simp only [hloc, bind, Except.bind]
        split
        · split
          · rename_i x hlast
            exact absurd (List.mem_of_getLast? hlast) (h x)
          · exact ⟨_, rfl, by simp⟩
        · exact ⟨_, rfl, by simp⟩
      · rw [herror]
        exact ⟨_, rfl, by simp⟩

/-- Without a name in the path there is no directory to be made, and no directory above is missing. -/
theorem makeDirectory_of_nameless (h : p.Nameless) (htext : p.text.isEmpty = false) :
    ∃ e, fs.makeDirectory p = .error e ∧ e ≠ .notFound := by
  obtain ⟨e, hslot, hne⟩ := fs.slot_of_nameless h htext
  refine ⟨e, ?_, hne⟩
  rw [makeDirectory, hslot]
  rfl

end FileSystem

/-! ### Making directories -/

/-- The path has one name more than the first of the others, and so on down to one without names, or to a
directory that is there. -/
inductive Ladder (fs : FileSystem) : Path → List Path → Prop where
  | foot {p : Path} (above : List Path) : p.Nameless ∨ fs.isDirectory p = true → Ladder fs p above
  | rung {p q : Path} {x : String} {above : List Path} : p.Extends q x → Ladder fs q above →
      Ladder fs p (q :: above)

/-- The paths above a path are a ladder, down to where it goes up last. -/
theorem ladder_of_components {fs : FileSystem} {p : Path} {front : List Component}
    {names : List String} (hcomponents : p.components = front ++ names.map .name)
    (hfront : (∀ x, .name x ∉ front) ∨ fs.isDirectory (.ofComponents front) = true) {n : ℕ}
    (hn : n ≤ names.length) : Ladder fs (.ofComponents (p.components.take (front.length + n)))
      ((List.range (front.length + n)).reverse.map fun k => .ofComponents (p.components.take k)) := by
  induction n with
  | zero =>
      refine .foot _ ?_
      have htake : p.components.take front.length = front := by rw [hcomponents, List.take_left]
      rw [Nat.add_zero]
      refine hfront.imp (fun hnone x hx => ?_) fun hdir => by rwa [htake]
      have hmem := Path.mem_take_of_mem_steps hx
      rw [htake] at hmem
      exact hnone x hmem
  | succ n ih =>
      rw [← Nat.add_assoc, List.range_succ, List.reverse_append, List.reverse_singleton,
        List.map_append, List.map_singleton, List.singleton_append]
      have htake : p.components.take (front.length + n + 1) =
          p.components.take (front.length + n) ++ [.name names[n]] := by
        rw [List.take_add_one, hcomponents, List.getElem?_append_right (Nat.le_add_right ..)]
        simp [Nat.lt_of_succ_le hn]
      exact .rung (Path.extends_take htake) (ih (Nat.le_of_succ_le hn))

theorem ancestors_take (p : Path) {n : ℕ} (hn : n ≤ p.components.length) :
    Disk.ancestors (.ofComponents (p.components.take n)) = .ofComponents (p.components.take n) ::
      (List.range n).reverse.map fun k => .ofComponents (p.components.take k) := by
  rw [Disk.ancestors, Path.components_take, List.length_take, Nat.min_eq_left hn]
  congr 1
  refine List.map_congr_left fun k hk => ?_
  rw [List.mem_reverse, List.mem_range] at hk
  rw [List.take_take, Nat.min_eq_left (Nat.le_of_lt hk)]

namespace Disk

open FileSystem (Bare Enters)

variable {fs fs' : FileSystem} {p : Path} {above : List Path} {e : IoError} {u : Unit}

/-- **How directories are made**: the first one at once, or after those above it, or not at all. -/
inductive Makes (p : Path) (above : List Path) (fs : FileSystem) :
    EStateM.Result IoError FileSystem Unit → Prop where
  | idle : p.text.isEmpty = true → Makes p above fs (.ok () fs)
  | once {fs' : FileSystem} : fs.makeDirectory p = .ok fs' → Makes p above fs (.ok () fs')
  | refused {e : IoError} : fs.makeDirectory p = .error e → e ≠ .notFound →
      Makes p above fs (settle p e fs)
  | stuck {e : IoError} {fs' : FileSystem} : fs.makeDirectory p = .error .notFound →
      makeFirst above fs = .error e fs' → Makes p above fs (.error e fs')
  | after {fs' fs'' : FileSystem} : fs.makeDirectory p = .error .notFound →
      makeFirst above fs = .ok () fs' → fs'.makeDirectory p = .ok fs'' → Makes p above fs (.ok () fs'')
  | still {e : IoError} {fs' : FileSystem} : fs.makeDirectory p = .error .notFound →
      makeFirst above fs = .ok () fs' → fs'.makeDirectory p = .error e →
      Makes p above fs (settle p e fs')

theorem makes (p : Path) (above : List Path) (fs : FileSystem) :
    Makes p above fs (makeFirst (p :: above) fs) := by
  change Makes p above fs (if p.text.isEmpty then _ else _)
  split
  · rename_i htext
    exact .idle htext
  · split
    · rename_i hmake
      exact .once hmake
    · rename_i hmissing
      split
      · rename_i habove
        exact .stuck hmissing habove
      · rename_i habove
        split
        · rename_i hmake
          exact .after hmissing habove hmake
        · rename_i hmake
          exact .still hmissing habove hmake
    · rename_i hne hmake
      exact .refused hmake hne

/-- Without a name in the path nothing is made. -/
theorem endOf_makeFirst_of_nameless (h : p.Nameless) : endOf (makeFirst (p :: above) fs) = fs := by
  cases htext : p.text.isEmpty with
  | true =>
      change endOf (if p.text.isEmpty then _ else _) = fs
      rw [if_pos htext]
      rfl
  | false =>
      obtain ⟨e, hmake, hne⟩ := fs.makeDirectory_of_nameless h htext
      have hmakes := makes p above fs
      generalize makeFirst (p :: above) fs = result at hmakes ⊢
      cases hmakes with
      | idle _ => rfl
      | once hmake' => simp_all
      | refused _ _ => rw [endOf_settle]
      | stuck hmissing _ | after hmissing _ _ | still hmissing _ _ => simp_all

/-- A directory that is there is left as it is. -/
theorem makeFirst_of_isDirectory (h : fs.isDirectory p = true) :
    makeFirst (p :: above) fs = .ok () fs := by
  have hmakes := makes p above fs
  have hthere := FileSystem.makeDirectory_of_isDirectory h
  generalize makeFirst (p :: above) fs = result at hmakes ⊢
  cases hmakes with
  | idle _ => rfl
  | once hmake => simp_all
  | refused _ _ => rw [settle, if_pos h]
  | stuck hmissing _ | after hmissing _ _ | still hmissing _ _ => simp_all

/-- Nothing was changed, or there is now an empty directory; after a failure nothing was changed, or the
directory is not there. -/
def EndsClean (fs : FileSystem) (p : Path) : EStateM.Result IoError FileSystem Unit → Prop
  | .ok _ fs' => fs' = fs ∨ fs'.Bare p
  | .error _ fs' => fs' = fs ∨ ¬ fs'.Enters p

theorem endsClean_of_endOf {result : EStateM.Result IoError FileSystem Unit} (h : endOf result = fs) :
    EndsClean fs p result := by
  cases result with
  | ok _ fs' => exact Or.inl h
  | error e fs' => exact Or.inl h

/-- **Making directories changes nothing or leaves an empty one.** -/
theorem endsClean_makeFirst (hroot : fs.Rooted) (hladder : Ladder fs p above) :
    EndsClean fs p (makeFirst (p :: above) fs) := by
  induction hladder with
  | foot above hfoot =>
      rcases hfoot with hnameless | hdir
      · exact endsClean_of_endOf (endOf_makeFirst_of_nameless hnameless)
      · rw [makeFirst_of_isDirectory hdir]
        exact Or.inl rfl
  | @rung p q x above hpq _ ih =>
      have hmakes := makes p (q :: above) fs
      generalize makeFirst (p :: q :: above) fs = result at hmakes ⊢
      cases hmakes with
      | idle _ => exact Or.inl rfl
      | refused _ _ => exact endsClean_of_endOf (endOf_settle _ _ _)
      | once hmake =>
          refine Or.inr (FileSystem.bare_of_makeDirectory hmake fun loc hslot rel _ => ?_)
          obtain ⟨loc', hslot', hnone, _⟩ := FileSystem.makeDirectory_eq_ok hmake
          obtain rfl := Except.ok.inj (hslot.symm.trans hslot')
          exact hroot.none_below hnone rel
      | stuck _ habove =>
          rw [habove] at ih
          exact ih.imp_right fun henters hp => henters (hp.of_extends hpq)
      | @after fs' fs'' hmissing habove hmake =>
          rw [habove] at ih
          rcases ih with rfl | hbare
          · rw [hmissing] at hmake
            cases hmake
          · -- the place of the directory is in one that has nothing in it
            refine Or.inr (FileSystem.bare_of_makeDirectory hmake fun loc hslot rel _ => ?_)
            obtain ⟨_, front, y, parent, hsteps, hwalk, _, _, rfl⟩ := FileSystem.slot_eq_ok hslot
            obtain ⟨rfl, _⟩ := List.append_inj' (hsteps.symm.trans hpq.2) rfl
            obtain ⟨mid, hmid, hnone⟩ := hbare
            rw [FileSystem.reach, ← FileSystem.startOf_congr hpq.1, hwalk] at hmid
            obtain rfl := Except.ok.inj hmid
            rw [List.append_assoc]
            exact hnone _ (by simp)
      | @still e fs' hmissing habove hmake =>
          rw [habove] at ih
          rcases ih with rfl | hbare
          · exact endsClean_of_endOf (endOf_settle _ _ _)
          · have hno : ¬ fs'.Enters p := fun ⟨loc, hloc, _⟩ => hbare.not_reach hpq loc hloc
            rw [settle, if_neg fun hdir => hno (FileSystem.enters_of_isDirectory hdir)]
            exact Or.inr hno

end Disk

end Rebuild
