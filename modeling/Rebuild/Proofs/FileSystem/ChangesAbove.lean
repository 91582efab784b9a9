/-
Putting a program in place.

A program goes into a directory that may have to be made first, and so may those above it.  All that
changes is then above the place of the program: directories that are new, or that have a new entry.
What is at or below a place that the program does not lie in is the same, and so are its times.

Main definitions:

* `FileSystem.ChangesAbove` — **only entries at some places, or above one of them, are different**;
* `FileSystem.WorksAbove` — work on a plain file system that changes nothing else.

Main results:

* `Path.Direct.isPrefix_place_take` — the paths above a direct path name places above its place;
* `FileSystem.keepsTo_installProgram` — **putting a program in place is such work**;
* `FileSystem.ChangesAbove.newestUnderAll?_eq`, `FileSystem.ChangesAbove.timeOf?_eq` — times that stay.
-/
import Rebuild.Launcher
import Rebuild.Proofs.FileSystem.Workplace

set_option relaxedAutoImplicit false
set_option autoImplicit false

namespace Rebuild

/-! ### Paths above a path -/

namespace Path

variable {p q parent : Path} {cs : List Component} {s : Location} {x : String}

/-- The first components of a path are those of the path that is written from them. -/
theorem components_take (p : Path) (n : ℕ) :
    (ofComponents (p.components.take n)).components = p.components.take n := by
  have hrest : ∀ (cs : List Component) (k : ℕ), (∀ c ∈ cs, c.Legible) →
      (∀ c ∈ (cs.filter (· ≠ .here)).take k, c.Legible) ∧
        .here ∉ (cs.filter (· ≠ .here)).take k := fun cs k hcs =>
    ⟨fun c hc => hcs c (List.mem_of_mem_filter (List.mem_of_mem_take hc)),
      fun hmem => by simpa using List.of_mem_filter (List.mem_of_mem_take hmem)⟩
  have hlegible : ∀ c ∈ p.steps, c.Legible := fun c hc => legible_of_mem_steps hc
  cases n with
  | zero => rfl
  | succ n =>
      unfold components
      split
      · rw [List.take_succ_cons]
        exact (components_ofComponents (hrest _ n hlegible).1 (hrest _ n hlegible).2).2
      · split
        · -- the dot that a relative path starts with is read again
          rename_i rest hsteps
          obtain ⟨hcs, hhere⟩ := hrest rest n fun c hc => hlegible c (hsteps ▸ List.mem_cons_of_mem _ hc)
          have hcs' : ∀ c ∈ Component.here :: (rest.filter (· ≠ .here)).take n, c.Legible :=
            List.forall_mem_cons.2 ⟨trivial, hcs⟩
          rw [List.take_succ_cons, isAbsolute_ofComponents hcs', if_neg Bool.false_ne_true,
            steps_ofComponents hcs']
          exact congrArg (Component.here :: ·) (filter_ne_here hhere)
        · exact (components_ofComponents (hrest _ (n + 1) hlegible).1 (hrest _ (n + 1) hlegible).2).1

/-- A direct path has names at its end, and before them only what leads up. -/
theorem Direct.components_eq (h : p.Direct) : ∃ (front : List Component) (names : List String),
    p.components = front ++ names.map .name ∧ (∀ y, .name y ∉ front) ∧ .here ∉ p.components := by
  obtain ⟨⟨k, names, hsteps⟩, _⟩ := h
  have hhere : .here ∉ p.steps := by simp [hsteps]
  unfold components
  split
  · refine ⟨.root :: List.replicate k .up, names, ?_, by simp, by simp [hhere]⟩
    rw [filter_ne_here hhere, hsteps, List.cons_append]
  · split
    · rename_i rest heq
      exact absurd (heq ▸ List.mem_cons_self ..) hhere
    · rw [filter_ne_here hhere]
      exact ⟨_, names, hsteps, by simp, hhere⟩

/-- **A path above a direct one names a place above**, if it ends in a name. -/
theorem Direct.isPrefix_place_take (h : p.Direct) {n : ℕ}
    (hlast : (p.components.take n).getLast? = some (.name x)) (s : Location) :
    (ofComponents (p.components.take n)).place s <+: p.place s := by
  obtain ⟨front, names, hcomponents, hfront, hhere⟩ := h.components_eq
  have hrest : ∃ more : List String, p.components.drop n = more.map .name := by
    rw [hcomponents, List.take_append] at hlast
    have hn : front.length < n := by
      by_contra hle
      have hzero : n - front.length = 0 := by omega
      rw [hzero, List.take_zero, List.append_nil] at hlast
      exact hfront x (List.mem_of_mem_take (List.mem_of_getLast? hlast))
    refine ⟨names.drop (n - front.length), ?_⟩
    rw [hcomponents, List.drop_append, List.drop_eq_nil_of_le (Nat.le_of_lt hn), List.nil_append,
      List.map_drop]
  obtain ⟨more, hmore⟩ := hrest
  refine ⟨more, ?_⟩
  rw [place_eq_components (ofComponents _), components_take, ← foldl_move_names,
    ← List.foldl_append, ← hmore, List.take_append_drop, place_eq_components]

/-- What the last step of a path is, its last component is. -/
theorem getLast?_components (h : p.steps.getLast? = some (.name x)) :
    p.components.getLast? = some (.name x) := by
  obtain ⟨front, hsteps⟩ := List.getLast?_eq_some_iff.1 h
  have hfilter : ∀ cs : List Component,
      ((cs ++ [Component.name x]).filter (· ≠ Component.here)).getLast? = some (.name x) := by
    intro cs
    rw [List.filter_append, List.filter_singleton]
    exact List.getLast?_concat
  have hcons : ∀ (c : Component) (cs : List Component),
      cs.getLast? = some (.name x) → (c :: cs).getLast? = some (.name x) := by
    intro c cs hcs
    rw [List.getLast?_cons, hcs]
    rfl
  unfold components
  rw [hsteps]
  split
  · exact hcons _ _ (hfilter front)
  · split
    · rename_i rest heq
      cases front with
      | nil => cases heq
      | cons c front =>
          obtain ⟨_, rfl⟩ := List.cons.inj heq
          exact hcons _ _ (hfilter front)
    · exact hfilter front

/-- The directories that have to be there for a path are written from its first components. -/
theorem Direct.exists_take (h : p.Direct) (hparent : p.parent? = some parent)
    (hq : q ∈ Disk.ancestors parent) : ∃ n, q = ofComponents (p.components.take n) := by
  obtain ⟨_, _, _, _, hhere⟩ := h.components_eq
  have heq : parent = ofComponents (p.components.take (p.components.length - 1)) := by
    unfold parent? at hparent
    split at hparent
    · cases hparent
    · cases hparent
    · rw [← List.dropLast_eq_take]
      exact (Option.some.inj hparent).symm
  rcases List.mem_cons.1 hq with rfl | hq
  · exact ⟨_, heq⟩
  · obtain ⟨n, _, rfl⟩ := List.mem_map.1 hq
    rw [heq, components_take, List.take_take]
    exact ⟨_, rfl⟩

end Path

/-! ### Changes above places -/

namespace FileSystem

variable {fs fs' : FileSystem} {loc d s : Location} {ds : List Location} {o : Option Node} {p q : Path}

/-- The file system stays plain, and entries are the same unless they are at one of the places or above
one. -/
structure ChangesAbove (ds : List Location) (fs fs' : FileSystem) : Prop where
  plain : fs'.Plain
  workDir : fs'.workDir = fs.workDir
  same : ∀ {loc}, (∀ d ∈ ds, ¬ loc <+: d) → fs'.node? loc = fs.node? loc

/-- A plain file system whose relative paths start at the location is changed above the places alone. -/
def WorksAbove (s : Location) (ds : List Location) (fs fs' : FileSystem) : Prop :=
  fs.Plain → fs.workDir = s → fs.ChangesAbove ds fs'

instance : IsPreorder FileSystem (WorksAbove s ds) where
  refl := fun _ hplain _ => ⟨hplain, rfl, fun _ => rfl⟩
  trans := fun _ _ _ h h' hplain hs => by
    have hfirst := h hplain hs
    have hsecond := h' hfirst.plain (hfirst.workDir.trans hs)
    exact ⟨hsecond.plain, hsecond.workDir.trans hfirst.workDir,
      fun hloc => (hsecond.same hloc).trans (hfirst.same hloc)⟩

theorem worksAbove_elapse (fs : FileSystem) (nanos : ℕ) : WorksAbove s ds fs (fs.elapse nanos) :=
  fun hplain _ => ⟨hplain.elapse nanos, rfl, fun _ => rfl⟩

/-- What is set above a place is a change above it, and so is the dating of the directory. -/
theorem changesAbove_of_sets (hs : fs.Sets loc o fs') (hplain : fs'.Plain) (hd : d ∈ ds)
    (hloc : loc <+: d) : fs.ChangesAbove ds fs' where
  plain := hplain
  workDir := hs.workDir
  same := fun {l} hl => by
    have hne : l ≠ loc := by
      rintro rfl
      exact hl d hd hloc
    refine (hs.elsewhere hne).resolve_right ?_
    rintro ⟨rfl, _⟩
    exact hl d hd ((List.dropLast_prefix loc).trans hloc)

/-- Only a path that ends in a name has a place for a new entry. -/
theorem exists_name_of_slot {blocked : IoError} (h : fs.slot blocked q = .ok loc) :
    ∃ x, q.steps.getLast? = some (.name x) := by
  obtain ⟨_, front, x, _, hsteps, _⟩ := slot_eq_ok h
  exact ⟨x, by rw [hsteps, List.getLast?_concat]⟩

theorem exists_name_of_makeDirectory (h : fs.makeDirectory q = .ok fs') :
    ∃ x, q.steps.getLast? = some (.name x) := by
  unfold makeDirectory at h
  cases hslot : fs.slot .alreadyExists q with
  | error e =>
      rw [hslot] at h
      cases h
  | ok loc => exact exists_name_of_slot hslot

/-- Making one of the directories above a direct path. -/
theorem worksAbove_makeDirectory (hp : p.Direct) (hd : p.place s ∈ ds) {n : ℕ}
    (hq : q = Path.ofComponents (p.components.take n)) (hok : fs.makeDirectory q = .ok fs') :
    WorksAbove s ds fs fs' := by
  intro hplain hs
  obtain ⟨hroom, hnone, hsets⟩ := hplain.makeDirectory hok
  have hnodir : fs.isDirectoryAt (q.place fs.workDir) = false := by
    rw [isDirectoryAt, hnone]
    rfl
  have hplain' : fs'.Plain := hplain.of_sets hsets hnodir (by rintro n ⟨⟩; exact ⟨rfl, hroom⟩)
  refine changesAbove_of_sets hsets hplain' hd ?_
  obtain ⟨x, hlast⟩ := exists_name_of_makeDirectory hok
  have hlast := Path.getLast?_components hlast
  obtain ⟨_, _, _, _, hhere⟩ := hp.components_eq
  rw [hq, Path.components_take] at hlast
  rw [hs, hq]
  exact hp.isPrefix_place_take hlast s

theorem worksAbove_install {data : FileData} (hd : p.place s ∈ ds)
    (hok : fs.install p data = .ok fs') : WorksAbove s ds fs fs' := by
  rintro hplain rfl
  obtain ⟨hroom, hdir, hsets⟩ := hplain.install hok
  have hplain' : fs'.Plain := hplain.of_sets hsets hdir (by rintro n ⟨⟩; exact ⟨rfl, hroom⟩)
  exact changesAbove_of_sets hsets hplain' hd (List.prefix_refl _)

/-- **Putting a program in place changes nothing but above its place**, also if it fails on the way. -/
theorem keepsTo_installProgram (hp : p.Direct) (hd : p.place s ∈ ds) (bytes : Bytes) :
    KeepsTo (WorksAbove s ds) (installProgram p bytes) := by
  have hidle : KeepsTo (WorksAbove s ds) (Disk.makeDirectories ⟨"."⟩) := by
    refine Disk.keepsTo_makeFirst fun {fs fs' q} hq hok => ?_
    -- neither the dot nor the empty path, which is above it, ends in a name
    obtain ⟨x, hlast⟩ := exists_name_of_makeDirectory hok
    have hsteps : ∀ q ∈ Disk.ancestors ⟨"."⟩, q.steps.getLast? = none ∨ q.steps.getLast? = some .here := by
      decide +kernel
    rcases hsteps q hq with h | h
    · cases h.symm.trans hlast
    · cases h.symm.trans hlast
  refine KeepsTo.bind ?_ fun _ => Disk.keepsTo_change (r := WorksAbove s ds) (worksAbove_install hd)
  cases hparent : p.parent? with
  | none => exact hidle
  | some parent =>
      dsimp only
      split
      · exact hidle
      · refine Disk.keepsTo_makeFirst fun hq hok => ?_
        obtain ⟨n, heq⟩ := hp.exists_take hparent hq
        exact worksAbove_makeDirectory hp hd heq hok

/-! ### Times -/

/-- **The newest file of trees that no place lies in is the same.** -/
theorem ChangesAbove.newestUnderAll?_eq (h : fs.ChangesAbove ds fs') (hplain : fs.Plain) {ps : List Path}
    (hps : ∀ p ∈ ps, p.Direct ∧ ∀ d ∈ ds, ¬ p.place fs.workDir <+: d) :
    fs'.newestUnderAll? ps = fs.newestUnderAll? ps := by
  refine hplain.newestUnderAll?_congr h.plain h.workDir (fun p hp => (hps p hp).1) fun p hp rel data => ?_
  rw [h.same fun d hd hprefix => (hps p hp).2 d hd ((List.prefix_append _ rel).trans hprefix)]

theorem ChangesAbove.timeOf?_eq (h : fs.ChangesAbove ds fs') (hplain : fs.Plain) (hp : p.Direct)
    (hout : ∀ d ∈ ds, ¬ p.place fs.workDir <+: d) : fs'.timeOf? p = fs.timeOf? p :=
  hplain.timeOf?_congr h.plain h.workDir hp (h.same hout)

end FileSystem

end Rebuild
