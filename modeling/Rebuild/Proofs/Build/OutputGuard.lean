/-
The guard of the output under a relative project.

The guard compares normal forms component by component and never asks where it is run.  For an absolute
project that is enough.  A relative one goes up `k` times and then down, and a directory above its
highest point can only be written with more double dots or from the root on: such an output never reads
as a beginning of the project, even where the project lies in it.

Main definitions:

* `Path.climb` — how often a normal form goes up;
* `Config.Refused`, `Config.CoversFrom` — the guard, and what it is there for;
* `Config.seenFrom` — the same configuration with the project written from a working directory on;
* `Config.Comparable` — **the output is written so that it can be compared with the project**.

Main results:

* `Path.Climbs.foldl_push` — what follows a path can make it go up more often, never less;
* `Config.covers_iff` — a relative project is found in the output exactly if it lies there and the two
  can be compared;
* `Builder.output_guard` — **the guard says the same of a project however it is written, but for outputs
  that cannot be compared**: those are never refused.
-/
import Rebuild.Proofs.Build.Accept
import Rebuild.Proofs.Build.Clean
import Rebuild.Proofs.Path.Canonical

set_option relaxedAutoImplicit false
set_option autoImplicit false

namespace Rebuild

/-! ### Going up -/

namespace Path

variable {p base rel : Path} {cs out : List Component} {k : ℕ}

/-- How often the normal form of a path goes up. -/
def climb (p : Path) : ℕ := p.normalize.components.count .up

/-- A normal form in reverse that goes up `k` times: names, and before them double dots. -/
def Climbs (out : List Component) (k : ℕ) : Prop :=
  ∃ names : List String, (∀ x ∈ names, IsName x) ∧ out = names.map .name ++ List.replicate k .up

theorem Climbs.push {c : Component} (h : Climbs out k) (hc : c.Legible) :
    ∃ j, k ≤ j ∧ Climbs (push out c) j := by
  obtain ⟨names, hnames, rfl⟩ := h
  cases c with
  | root => cases hc
  | here => exact ⟨k, le_refl k, names, hnames, rfl⟩
  | name x =>
      refine ⟨k, le_refl k, x :: names, fun y hy => ?_, rfl⟩
      rcases List.mem_cons.1 hy with rfl | hy
      · exact hc
      · exact hnames y hy
  | up =>
      cases names with
      | cons x xs => exact ⟨k, le_refl k, xs, fun y hy => hnames y (List.mem_cons_of_mem _ hy), rfl⟩
      | nil =>
          refine ⟨k + 1, Nat.le_succ k, [], by simp, ?_⟩
          cases k <;> rfl

/-- **What follows can make a path go up more often, never less.** -/
theorem Climbs.foldl_push (h : Climbs out k) (hcs : ∀ c ∈ cs, c.Legible) :
    ∃ j, k ≤ j ∧ Climbs (cs.foldl Path.push out) j := by
  induction cs generalizing out k with
  | nil => exact ⟨k, le_refl k, h⟩
  | cons c cs ih =>
      obtain ⟨i, hki, hi⟩ := h.push (hcs c (List.mem_cons_self ..))
      obtain ⟨j, hij, hj⟩ := ih hi fun d hd => hcs d (List.mem_cons_of_mem _ hd)
      exact ⟨j, hki.trans hij, hj⟩

/-- A relative path starts where it is seen from, not higher. -/
theorem exists_climbs (h : p.isAbsolute = false) : ∃ k, Climbs (p.components.foldl push []) k := by
  have hstart : Climbs [] 0 := ⟨[], by simp, rfl⟩
  obtain ⟨k, _, hk⟩ := hstart.foldl_push fun c hc => legible_of_mem_steps (p := p) hc
  rw [foldl_push_components, if_neg (Bool.eq_false_iff.1 h)]
  exact ⟨k, hk⟩

/-- The normal form of a path that goes up `k` times. -/
theorem Climbs.components_normalize (h : Climbs (p.components.foldl Path.push []) k) :
    ∃ names : List String,
      p.normalize.components = List.replicate k .up ++ names.map .name ∧ p.climb = k := by
  obtain ⟨names, hnames, heq⟩ := h
  have hreverse : (p.components.foldl Path.push []).reverse =
      List.replicate k .up ++ names.reverse.map .name := by
    simp [heq]
  have hnames' : ∀ x ∈ names.reverse, IsName x := fun x hx => hnames x (List.mem_reverse.1 hx)
  have hlegible := legible_ups_names hnames' k
  have hcomponents : p.normalize.components = List.replicate k .up ++ names.reverse.map .name := by
    rw [normalize, hreverse]
    exact (components_ofComponents hlegible (by simp [List.mem_replicate])).1
  refine ⟨names.reverse, hcomponents, ?_⟩
  have hnot : Component.up ∉ names.reverse.map Component.name := by simp
  rw [climb, hcomponents, List.count_append, List.count_replicate_self, List.count_eq_zero.2 hnot]
  rfl

/-- The place of a path by its normal form: up, and then down. -/
theorem place_of_components {names : List String}
    (h : p.normalize.components = List.replicate k .up ++ names.map .name) (s : Location) :
    p.place s = (List.replicate k Component.up).foldl Component.move s ++ names := by
  rw [← place_normalize, place_eq_components, h, List.foldl_append, foldl_move_names]

/-- A path that goes up more often is not the beginning of one that goes up less often. -/
theorem ups_prefix_iff {j : ℕ} {names names' : List String} (hkj : k ≤ j) :
    List.replicate j Component.up ++ names'.map .name <+: List.replicate k .up ++ names.map .name ↔
      j ≤ k ∧ names' <+: names := by
  obtain ⟨d, rfl⟩ := Nat.exists_eq_add_of_le hkj
  rw [List.replicate_add, List.append_assoc, List.prefix_append_right_inj]
  cases d with
  | zero =>
      simp only [List.replicate_zero, List.nil_append, Nat.add_zero, le_refl, true_and]
      exact List.prefix_map_iff_of_injective fun _ _ => Component.name.inj
  | succ d =>
      refine iff_of_false ?_ (by omega)
      cases names <;> simp [List.replicate_succ]

end Path

/-! ### The guard -/

namespace Config

variable {c : Config} {cwd : Path} {s : Location}

/-- The guard rejects the output. -/
def Refused (c : Config) : Prop := ∃ e, c.checkOutputRoot = .error e

/-- Seen from a location, the project is the output or lies in it. -/
def CoversFrom (c : Config) (s : Location) : Prop :=
  c.outputRoot.place (c.projectRoot.place s) <+: c.projectRoot.place s

/-- The same configuration with the project written from a working directory on. -/
def seenFrom (c : Config) (cwd : Path) : Config :=
  { c with projectRoot := cwd.join c.projectRoot }

/-- The project is absolute, or the output is written from it on and goes up no more often. -/
def Comparable (c : Config) : Prop :=
  c.projectRoot.isAbsolute = true ∨
    c.outputRoot.isAbsolute = false ∧
      (c.projectRoot.join c.outputRoot).climb ≤ c.projectRoot.climb

instance (c : Config) : Decidable c.Comparable := inferInstanceAs (Decidable (_ ∨ _))

instance (c : Config) (s : Location) : Decidable (c.CoversFrom s) :=
  inferInstanceAs (Decidable (_ <+: _))

theorem refused_iff : c.Refused ↔ c.layout.outputCoversProject = true := by
  unfold Refused checkOutputRoot
  split
  · rename_i hyes
    simp [hyes]
  · rename_i hno
    simp [hno]

/-- An output written from the root on is not found at the beginning of a relative project. -/
theorem not_covers_of_absolute (hproject : c.projectRoot.isAbsolute = false)
    (houtput : c.outputRoot.isAbsolute = true) : ¬ c.layout.outputCoversProject = true := by
  obtain ⟨k, hk⟩ := Path.exists_climbs hproject
  obtain ⟨names, hcomponents, _⟩ := hk.components_normalize
  have hroot : c.layout.outputRoot = FileSystem.pathOf (c.outputRoot.place []) := by
    rw [layout, Layout.ofRoots, Path.join, if_pos houtput]
    exact Path.normalize_eq_pathOf houtput
  rw [Layout.outputCoversProject, hroot, Path.startsWith,
    Path.components_pathOf (Path.isName_of_mem_place houtput), List.isPrefixOf_iff_prefix]
  change ¬ _ <+: c.projectRoot.normalize.components
  rw [hcomponents]
  cases k with
  | zero => cases names <;> simp
  | succ k => simp [List.replicate_succ]

/-- **A relative project is found in the output exactly if it lies there and the two can be compared**,
from wherever both are seen. -/
theorem covers_iff (hproject : c.projectRoot.isAbsolute = false) (s : Location) :
    c.layout.outputCoversProject = true ↔ c.CoversFrom s ∧ c.Comparable := by
  cases houtput : c.outputRoot.isAbsolute with
  | true =>
      refine iff_of_false (not_covers_of_absolute hproject houtput) ?_
      rintro ⟨_, habs | ⟨hrel, _⟩⟩
      · exact Bool.false_ne_true (hproject.symm.trans habs)
      · exact Bool.false_ne_true (hrel.symm.trans houtput)
  | false =>
      obtain ⟨k, hk⟩ := Path.exists_climbs hproject
      obtain ⟨j, hkj, hj⟩ :=
        hk.foldl_push fun d hd => Path.legible_of_mem_steps (p := c.outputRoot) hd
      rw [← Path.foldl_push_join houtput] at hj
      obtain ⟨names, hnames, hclimb⟩ := hk.components_normalize
      obtain ⟨names', hnames', hclimb'⟩ := hj.components_normalize
      have hcomparable : c.Comparable ↔ j ≤ k := by
        simp [Comparable, hproject, houtput, hclimb, hclimb']
      have hcovers : c.layout.outputCoversProject = true ↔ j ≤ k ∧ names' <+: names := by
        rw [Layout.outputCoversProject, Path.startsWith, List.isPrefixOf_iff_prefix,
          ← Path.ups_prefix_iff hkj, ← hnames, ← hnames']
        rfl
      rw [hcovers, hcomparable, and_comm]
      -- going up equally often, both go on from the same place
      refine and_congr_left fun hjk => ?_
      obtain rfl : k = j := le_antisymm hkj hjk
      rw [CoversFrom, ← Path.place_join, Path.place_of_components hnames,
        Path.place_of_components hnames', List.prefix_append_right_inj]

/-- Written from a working directory on, the output is refused exactly if the project lies in it. -/
theorem refused_seenFrom_iff (habs : cwd.isAbsolute = true) :
    (c.seenFrom cwd).Refused ↔ c.CoversFrom (cwd.place []) := by
  have hproject : (c.seenFrom cwd).projectRoot.isAbsolute = true :=
    Path.isAbsolute_join_of_left habs _
  have hplace : (c.seenFrom cwd).projectRoot.place [] = c.projectRoot.place (cwd.place []) :=
    Path.place_join _ _ _
  rw [CoversFrom, ← hplace]
  refine Iff.trans ?_ (not_iff_comm.1 (checkOutputRoot_eq_ok_iff hproject).symm)
  cases h : (c.seenFrom cwd).checkOutputRoot with
  | ok u => simp [Refused, h]
  | error e => simp [Refused, h]

end Config

namespace Builder

variable {c : Config}

/-- A configuration is rejected as such exactly if its output is refused. -/
theorem ofConfig_refused_iff (c : Config) :
    (∃ e, ofConfig c = .error (.config e)) ↔ c.Refused := by
  unfold ofConfig Config.Refused
  split
  · rename_i e he
    simp [he]
  · rename_i hok
    simp only [hok, reduceCtorEq, exists_false, iff_false, not_exists]
    intro e
    split
    · simp
    · split <;> simp

/-- **The guard and the working directory.**  Written from an absolute working directory on, an output
is refused exactly if the project is there or below it.  As it is written, it is refused exactly if this
holds and the two can be compared; so for every output that can be compared it makes no difference how
the project is written, and no builder has one that holds its project. -/
theorem output_guard (c : Config) (cwd : Path) (habs : cwd.isAbsolute = true) :
    ((c.seenFrom cwd).Refused ↔ c.CoversFrom (cwd.place [])) ∧
    (c.Refused ↔ (c.seenFrom cwd).Refused ∧ c.Comparable) ∧
    (∀ d : Config, (∃ e, ofConfig d = .error (.config e)) ↔ d.Refused) ∧
    (c.Comparable → ∀ b, ofConfig c = .ok b → ¬ c.CoversFrom (cwd.place [])) := by
  have hseen := Config.refused_seenFrom_iff (c := c) habs
  have hguard : c.Refused ↔ (c.seenFrom cwd).Refused ∧ c.Comparable := by
    cases hproject : c.projectRoot.isAbsolute with
    | true =>
        -- an absolute project is not changed by what is written in front of it
        have hsame : c.seenFrom cwd = c := by rw [Config.seenFrom, Path.join, if_pos hproject]
        have hcomparable : c.Comparable := Or.inl hproject
        rw [hsame, and_iff_left hcomparable]
    | false => rw [hseen, Config.refused_iff, Config.covers_iff hproject]
  refine ⟨hseen, hguard, ofConfig_refused_iff, fun hcomparable b hb hcovers => ?_⟩
  obtain ⟨e, he⟩ := (ofConfig_refused_iff c).2 (hguard.2 ⟨hseen.2 hcovers, hcomparable⟩)
  cases he.symm.trans hb

/-! ### Outputs above a relative project -/

/-- The standard settings with other roots. -/
def rooted (projectRoot outputRoot : Path) : Config :=
  { Config.standard with projectRoot := projectRoot, outputRoot := outputRoot }

/-- An output that is a directory above is refused if the project is written with as many double
dots. -/
theorem sibling_output_guard :
    (rooted ⟨"../p"⟩ ⟨".."⟩).Comparable ∧ (rooted ⟨"../p"⟩ ⟨".."⟩).CoversFrom ["w", "q"] ∧
    (rooted ⟨"../p"⟩ ⟨".."⟩).Refused ∧
    ∃ e, ofConfig ((rooted ⟨"../p"⟩ ⟨".."⟩).seenFrom ⟨"/w/q"⟩) = .error (.config e) := by
  have hcomparable : (rooted ⟨"../p"⟩ ⟨".."⟩).Comparable := by decide +kernel
  have hcovers : (rooted ⟨"../p"⟩ ⟨".."⟩).CoversFrom ["w", "q"] := by decide +kernel
  have hplace : Path.place ⟨"/w/q"⟩ [] = ["w", "q"] := by decide +kernel
  obtain ⟨hseen, hguard, hbuilder, _⟩ :=
    output_guard (rooted ⟨"../p"⟩ ⟨".."⟩) ⟨"/w/q"⟩ (by decide +kernel)
  have hrefused := hseen.2 (hplace ▸ hcovers)
  exact ⟨hcomparable, hcovers, hguard.2 ⟨hrefused, hcomparable⟩, (hbuilder _).2 hrefused⟩

/-- **The directory above the working directory is accepted as the output of the project here**, though
the project lies in it. -/
theorem parent_output_accepted :
    (∃ b, ofConfig (rooted ⟨"."⟩ ⟨".."⟩) = .ok b) ∧ ¬ (rooted ⟨"."⟩ ⟨".."⟩).Refused ∧
    (rooted ⟨"."⟩ ⟨".."⟩).CoversFrom ["w"] ∧ ((rooted ⟨"."⟩ ⟨".."⟩).seenFrom ⟨"/w"⟩).Refused := by
  have hcovers : (rooted ⟨"."⟩ ⟨".."⟩).layout.outputCoversProject = false := by decide +kernel
  refine ⟨?_, by simp [Config.refused_iff, hcovers], by decide +kernel, ?_⟩
  · refine exists_ofConfig (if_neg (Bool.eq_false_iff.1 hcovers)) (by decide +kernel) ?_
    decide +kernel
  · refine Config.refused_iff.2 ?_
    decide +kernel

end Builder

end Rebuild
