/-
Where paths lead.

A path is read from left to right: a name goes down, a double dot goes up, an absolute path starts at
the root.  Where no link is on the way, this is the place that the path names, and it does not hang on
how the path was put together: joined paths go one after the other, and a normal form leads where the
path itself leads.

Main definitions:

* `IsName` — a text that can be the name of an entry;
* `Path.place` — **the place that a path names**, if no link is on the way;
* `Path.Direct` — a path that goes up first and then only down;
* `Path.Inner` — a path that stays below the place it starts from.

Main results:

* `Path.pieces_intercalate` — what is written with slashes is cut at them;
* `Path.place_ofComponents`, `Path.place_join` — the place of a path that was put together;
* `Path.place_normalize`, `Path.direct_normalize` — **a normal form leads to the same place, directly**.
-/
import Rebuild.FileSystem
import Rebuild.Layout
import Mathlib

set_option relaxedAutoImplicit false
set_option autoImplicit false

namespace Rebuild

/-! ### Pieces -/

/-- A text that reads as the name of an entry: it has no slash, and is neither empty nor only dots
that mean something else. -/
def IsName (x : String) : Prop := '/' ∉ x.toList ∧ Component.ofPiece? x.toList = some (.name x)

instance (x : String) : Decidable (IsName x) := inferInstanceAs (Decidable (_ ∧ _))

/-- A component that reads as itself between two slashes. -/
def Component.Legible : Component → Prop
  | .root => False
  | .here => True
  | .up => True
  | .name x => IsName x

namespace Component

variable {c : Component}

theorem Legible.noSlash (h : c.Legible) : '/' ∉ c.text.toList := by
  cases c with
  | root => cases h
  | here => decide
  | up => decide
  | name x => exact h.1

theorem Legible.ofPiece? (h : c.Legible) : Component.ofPiece? c.text.toList = some c := by
  cases c with
  | root => cases h
  | here => rfl
  | up => rfl
  | name x => exact h.2

theorem Legible.text_ne_nil (h : c.Legible) : c.text.toList ≠ [] := by
  intro hnil
  have hpiece := h.ofPiece?
  rw [hnil] at hpiece
  cases hpiece

theorem legible_of_ofPiece? {piece : List Char} (hslash : '/' ∉ piece)
    (h : Component.ofPiece? piece = some c) : c.Legible := by
  unfold Component.ofPiece? at h
  split at h
  · cases h
  · obtain rfl := Option.some.inj h
    trivial
  · obtain rfl := Option.some.inj h
    trivial
  · rename_i hempty hhere hup
    obtain rfl := Option.some.inj h
    refine ⟨by simpa using hslash, ?_⟩
    rw [String.toList_ofList, Component.ofPiece?]
    · exact hempty
    · exact hhere
    · exact hup

end Component

namespace Path

variable {p base rel : Path} {cs : List Component} {s : Location}

theorem pieces_ne_nil (cs : List Char) : pieces cs ≠ [] := by
  cases cs with
  | nil => simp [pieces]
  | cons c cs =>
      unfold pieces
      split
      · simp
      · split <;> simp

theorem noSlash_of_mem_pieces {cs piece : List Char} (h : piece ∈ pieces cs) : '/' ∉ piece := by
  induction cs generalizing piece with
  | nil =>
      obtain rfl := List.mem_singleton.1 h
      exact List.not_mem_nil
  | cons c cs ih =>
      unfold pieces at h
      split at h
      · rcases List.mem_cons.1 h with rfl | h
        · exact List.not_mem_nil
        · exact ih h
      · rename_i hc
        split at h
        · rename_i hnil
          exact absurd hnil (pieces_ne_nil cs)
        · rename_i first more heq
          rw [heq] at ih
          rcases List.mem_cons.1 h with rfl | h
          · rw [List.mem_cons, not_or]
            exact ⟨fun hslash => hc hslash.symm, ih (List.mem_cons_self ..)⟩
          · exact ih (List.mem_cons_of_mem _ h)

/-- A slash cuts. -/
theorem pieces_append (a b : List Char) : pieces (a ++ '/' :: b) = pieces a ++ pieces b := by
  induction a with
  | nil => simp [pieces]
  | cons c a ih =>
      rw [List.cons_append, pieces, pieces, ih]
      split
      · rfl
      · cases h : pieces a with
        | nil => exact absurd h (pieces_ne_nil a)
        | cons first more => rfl

theorem pieces_of_noSlash {cs : List Char} (h : '/' ∉ cs) : pieces cs = [cs] := by
  induction cs with
  | nil => rfl
  | cons c cs ih =>
      rw [List.mem_cons, not_or] at h
      rw [pieces, if_neg (Ne.symm h.1), ih h.2]

/-- **What is written with slashes is cut at them.** -/
theorem pieces_intercalate (hcs : ∀ c ∈ cs, c.Legible) (hne : cs ≠ []) :
    pieces ("/".intercalate (cs.map Component.text)).toList = cs.map (·.text.toList) := by
  induction cs with
  | nil => exact absurd rfl hne
  | cons c cs ih =>
      have hc := pieces_of_noSlash (hcs c (List.mem_cons_self ..)).noSlash
      cases cs with
      | nil => simpa using hc
      | cons d ds =>
          have hrest := ih (fun e he => hcs e (List.mem_cons_of_mem _ he)) (by simp)
          rw [List.map_cons, List.map_cons, String.intercalate_cons_cons, ← List.map_cons]
          have htext : (c.text ++ "/" ++ "/".intercalate ((d :: ds).map Component.text)).toList =
              c.text.toList ++ '/' :: ("/".intercalate ((d :: ds).map Component.text)).toList := by
            simp
          rw [htext, pieces_append, hc, hrest]
          rfl

/-! ### Reading what was written -/

theorem isAbsolute_iff : p.isAbsolute = true ↔ ∃ cs, p.text.toList = '/' :: cs := by
  unfold isAbsolute
  cases p.text.toList with
  | nil => simp
  | cons c cs => simp

theorem endsInSlash_iff : p.endsInSlash = true ↔ ∃ cs, p.text.toList = cs ++ ['/'] := by
  rw [endsInSlash, beq_iff_eq, List.getLast?_eq_some_iff]

theorem legible_of_mem_steps {c : Component} (h : c ∈ p.steps) : c.Legible := by
  obtain ⟨piece, hmem, hpiece⟩ := List.mem_filterMap.1 h
  exact Component.legible_of_ofPiece? (noSlash_of_mem_pieces hmem) hpiece

theorem ofComponents_relative (hcs : ∀ c ∈ cs, c.Legible) :
    ofComponents cs = ⟨"/".intercalate (cs.map Component.text)⟩ := by
  unfold ofComponents
  split
  · cases hcs .root (List.mem_cons_self ..)
  · rfl

theorem filterMap_ofPiece? (hcs : ∀ c ∈ cs, c.Legible) :
    (cs.map (·.text.toList)).filterMap Component.ofPiece? = cs := by
  induction cs with
  | nil => rfl
  | cons c cs ih =>
      rw [List.map_cons, List.filterMap_cons_some (hcs c (List.mem_cons_self ..)).ofPiece?,
        ih fun d hd => hcs d (List.mem_cons_of_mem _ hd)]

/-- **Components that were written are read again.** -/
theorem steps_ofComponents (hcs : ∀ c ∈ cs, c.Legible) : (ofComponents cs).steps = cs := by
  rw [ofComponents_relative hcs, steps]
  by_cases hne : cs = []
  · subst hne
    rfl
  · rw [pieces_intercalate hcs hne, filterMap_ofPiece? hcs]

theorem steps_ofComponents_root (hcs : ∀ c ∈ cs, c.Legible) :
    (ofComponents (.root :: cs)).steps = cs := by
  have htext : (ofComponents (.root :: cs)).text.toList =
      [] ++ '/' :: (ofComponents cs).text.toList := by
    rw [ofComponents_relative hcs]
    simp [ofComponents]
  rw [steps, htext, pieces_append, List.filterMap_append]
  exact steps_ofComponents hcs

theorem isAbsolute_ofComponents (hcs : ∀ c ∈ cs, c.Legible) :
    (ofComponents cs).isAbsolute = false := by
  rw [ofComponents_relative hcs, Bool.eq_false_iff]
  intro habs
  obtain ⟨rest, hrest⟩ := isAbsolute_iff.1 habs
  by_cases hne : cs = []
  · subst hne
    simp at hrest
  · -- the first piece would be empty
    have hpieces := pieces_intercalate hcs hne
    rw [hrest, ← List.nil_append ('/' :: rest), pieces_append] at hpieces
    have hmem : ([] : List Char) ∈ cs.map (·.text.toList) := by
      rw [← hpieces]
      simp [pieces]
    obtain ⟨c, hc, hnil⟩ := List.mem_map.1 hmem
    exact (hcs c hc).text_ne_nil hnil

theorem isAbsolute_ofComponents_root : (ofComponents (.root :: cs)).isAbsolute = true :=
  isAbsolute_iff.2 ⟨("/".intercalate (cs.map Component.text)).toList, by simp [ofComponents]⟩

theorem filter_ne_here (h : .here ∉ cs) : cs.filter (· ≠ .here) = cs := by
  rw [List.filter_eq_self]
  intro c hc
  have hne : c ≠ .here := by
    rintro rfl
    exact h hc
  simpa using hne

/-- Components without dots are those of the path that is written from them. -/
theorem components_ofComponents (hcs : ∀ c ∈ cs, c.Legible) (hhere : .here ∉ cs) :
    (ofComponents cs).components = cs ∧ (ofComponents (.root :: cs)).components = .root :: cs := by
  constructor
  · rw [components, isAbsolute_ofComponents hcs, steps_ofComponents hcs, if_neg Bool.false_ne_true]
    split
    · exact absurd (List.mem_cons_self ..) hhere
    · exact filter_ne_here hhere
  · rw [components, isAbsolute_ofComponents_root, steps_ofComponents_root hcs, if_pos rfl,
      filter_ne_here hhere]

/-- A path that was written from components ends in a slash only if it is the root. -/
theorem endsInSlash_ofComponents (hcs : ∀ c ∈ cs, c.Legible) (hne : cs ≠ []) :
    (ofComponents cs).endsInSlash = false ∧ (ofComponents (.root :: cs)).endsInSlash = false := by
  -- otherwise the last piece would be empty
  have hlast : ∀ text before : List Char, text = before ++ ['/'] →
      (∃ first : List (List Char), pieces text = first ++ cs.map (·.text.toList)) → False := by
    rintro _ before rfl ⟨first, hpieces⟩
    rw [pieces_append] at hpieces
    obtain ⟨front, last, rfl⟩ := List.eq_nil_or_concat cs |>.resolve_left hne
    rw [List.concat_eq_append, List.map_append, ← List.append_assoc] at hpieces
    have hnil := (List.append_inj' hpieces rfl).2
    exact (hcs last (by simp)).text_ne_nil (by simpa [pieces] using hnil.symm)
  have hpieces := pieces_intercalate hcs hne
  constructor
  · rw [ofComponents_relative hcs, Bool.eq_false_iff]
    intro hslash
    obtain ⟨before, heq⟩ := endsInSlash_iff.1 hslash
    exact hlast _ before heq ⟨[], by simpa using hpieces⟩
  · rw [Bool.eq_false_iff]
    intro hslash
    obtain ⟨before, heq⟩ := endsInSlash_iff.1 hslash
    refine hlast _ before heq ⟨[[]], ?_⟩
    have htext : (ofComponents (.root :: cs)).text.toList =
        [] ++ '/' :: ("/".intercalate (cs.map Component.text)).toList := by
      simp [ofComponents]
    rw [htext, pieces_append, hpieces]
    rfl

/-! ### Places -/

end Path

/-- Where a component leads from a location, if there are no links. -/
def Component.move (loc : Location) : Component → Location
  | .root => []
  | .here => loc
  | .up => loc.dropLast
  | .name x => loc ++ [x]

namespace Path

variable {p base rel : Path} {cs : List Component} {s : Location}

/-- **The place that a path names**, seen from a location, if there are no links. -/
def place (p : Path) (s : Location) : Location :=
  p.steps.foldl Component.move (if p.isAbsolute then [] else s)

theorem foldl_move_filter (cs : List Component) (s : Location) :
    (cs.filter (· ≠ .here)).foldl Component.move s = cs.foldl Component.move s := by
  induction cs generalizing s with
  | nil => rfl
  | cons c cs ih =>
      cases c with
      | here => simpa [Component.move] using ih s
      | root => simpa using ih _
      | up => simpa using ih _
      | name x => simpa using ih _

/-- Only the components of a path matter for its place. -/
theorem place_eq_components (p : Path) (s : Location) :
    p.place s = p.components.foldl Component.move s := by
  unfold place components
  split
  · rw [List.foldl_cons, foldl_move_filter]
    rfl
  · split
    · rename_i rest heq
      rw [heq, List.foldl_cons, List.foldl_cons, foldl_move_filter]
    · rw [foldl_move_filter]

theorem place_ofComponents (hcs : ∀ c ∈ cs, c.Legible) (s : Location) :
    (ofComponents cs).place s = cs.foldl Component.move s := by
  rw [place, steps_ofComponents hcs, isAbsolute_ofComponents hcs]
  rfl

theorem place_ofComponents_root (hcs : ∀ c ∈ cs, c.Legible) (s : Location) :
    (ofComponents (.root :: cs)).place s = cs.foldl Component.move [] := by
  rw [place, steps_ofComponents_root hcs, isAbsolute_ofComponents_root]
  rfl

/-- The components of a path are legible, but for the root in front. -/
theorem components_cases (p : Path) : ∃ cs, (∀ c ∈ cs, c.Legible) ∧
    (p.components = cs ∨ p.components = .root :: cs) := by
  have hsteps : ∀ c ∈ p.steps.filter (· ≠ .here), c.Legible := fun c hc =>
    legible_of_mem_steps (List.mem_of_mem_filter hc)
  unfold components
  split
  · exact ⟨_, hsteps, Or.inr rfl⟩
  · split
    · rename_i rest heq
      refine ⟨_, fun c hc => ?_, Or.inl rfl⟩
      rcases List.mem_cons.1 hc with rfl | hc
      · trivial
      · exact legible_of_mem_steps (heq ▸ List.mem_cons_of_mem _ (List.mem_of_mem_filter hc))
    · exact ⟨_, hsteps, Or.inl rfl⟩

/-- A path that is written again leads to the same place. -/
theorem place_ofComponents_components (p : Path) (s : Location) :
    (ofComponents p.components).place s = p.place s := by
  rw [place_eq_components p]
  obtain ⟨cs, hcs, heq | heq⟩ := p.components_cases
  · rw [heq, place_ofComponents hcs]
  · rw [heq, place_ofComponents_root hcs]
    rfl

theorem isName_of_fileName? {x : String} (h : p.fileName? = some x) : IsName x := by
  unfold fileName? at h
  split at h
  · rename_i n heq
    obtain rfl := Option.some.inj h
    have hmem : Component.name n ∈ p.components := List.mem_of_getLast? heq
    obtain ⟨cs, hcs, hcomponents | hcomponents⟩ := p.components_cases
    · exact hcs _ (hcomponents ▸ hmem)
    · rw [hcomponents] at hmem
      exact hcs _ ((List.mem_cons.1 hmem).resolve_left (by simp))
  · cases h

theorem foldl_move_names (names : List String) (s : Location) :
    (names.map Component.name).foldl Component.move s = s ++ names := by
  induction names generalizing s with
  | nil => simp
  | cons x xs ih =>
      rw [List.map_cons, List.foldl_cons, ih]
      simp [Component.move]

theorem legible_names {names : List String} (h : ∀ x ∈ names, IsName x) :
    ∀ c ∈ names.map Component.name, c.Legible := by
  intro c hc
  obtain ⟨x, hx, rfl⟩ := List.mem_map.1 hc
  exact h x hx

/-! ### Joining -/

/-- **A joined path goes one way after the other.** -/
theorem steps_join (hrel : rel.isAbsolute = false) :
    (base.join rel).steps = base.steps ++ rel.steps := by
  unfold join
  rw [if_neg (Bool.eq_false_iff.1 hrel)]
  split
  · rename_i h
    rcases Bool.or_eq_true _ _ ▸ h with hempty | hslash
    · have htext : base.text = "" := String.isEmpty_iff.1 hempty
      simp [steps, htext, pieces, Component.ofPiece?]
    · obtain ⟨before, heq⟩ := endsInSlash_iff.1 hslash
      have hall : (base.text ++ rel.text).toList = before ++ '/' :: rel.text.toList := by
        simp [heq]
      rw [steps, steps, steps, hall, heq, pieces_append, pieces_append]
      simp [pieces, Component.ofPiece?]
  · have hall : (base.text ++ "/" ++ rel.text).toList = base.text.toList ++ '/' :: rel.text.toList := by
      simp
    rw [steps, steps, steps, hall, pieces_append, List.filterMap_append]

theorem isAbsolute_join (hrel : rel.isAbsolute = false) :
    (base.join rel).isAbsolute = base.isAbsolute := by
  unfold join
  rw [if_neg (Bool.eq_false_iff.1 hrel)]
  unfold isAbsolute at hrel ⊢
  split
  · cases h : base.text.toList with
    | nil => simpa [h] using hrel
    | cons c cs => simp [h]
  · rename_i hne
    cases h : base.text.toList with
    | nil =>
        have hempty : base.text = "" := String.toList_inj.1 h
        simp [hempty] at hne
    | cons c cs => simp [h]

/-- An absolute path leads to the same place from everywhere. -/
theorem place_of_isAbsolute (h : p.isAbsolute = true) (s t : Location) : p.place s = p.place t := by
  rw [place, place, if_pos h, if_pos h]

theorem place_join (base rel : Path) (s : Location) :
    (base.join rel).place s = rel.place (base.place s) := by
  cases hrel : rel.isAbsolute with
  | true =>
      rw [join, if_pos hrel]
      exact place_of_isAbsolute hrel _ _
  | false =>
      rw [place, place, place, steps_join hrel, isAbsolute_join hrel, hrel, List.foldl_append]
      rfl

/-- Names that are joined to a path are the last ones of its place. -/
theorem place_join_names {names : List String} (h : ∀ x ∈ names, IsName x) (s : Location) :
    (base.join (ofComponents (names.map .name))).place s = base.place s ++ names := by
  rw [place_join, place_ofComponents (legible_names h), foldl_move_names]

theorem place_join_name {x : String} (h : IsName x) (s : Location) :
    (base.join ⟨x⟩).place s = base.place s ++ [x] := by
  have hone : ofComponents ([x].map .name) = ⟨x⟩ := by simp [ofComponents, Component.text]
  rw [← hone]
  exact place_join_names (by simpa using h) s

/-! ### Normal forms -/

/-- The path goes up as often as it has to, and then only down. -/
def Direct (p : Path) : Prop :=
  (∃ (k : ℕ) (names : List String), p.steps = List.replicate k .up ++ names.map .name) ∧
    (p.endsInSlash = true → p.steps = [])

/-- A component does to a normal form what it does to a place. -/
theorem foldl_move_push (out : List Component) (c : Component) (s : Location) :
    (push out c).reverse.foldl Component.move s =
      Component.move (out.reverse.foldl Component.move s) c := by
  cases c with
  | root => simp [push]
  | here => rfl
  | name x => simp [push]
  | up =>
      rcases out with _ | ⟨d, out⟩
      · rfl
      · cases d with
        | name x => simp [push, Component.move]
        | root => simp [push, Component.move]
        | here => simp [push, Component.move]
        | up => simp [push, Component.move]

theorem foldl_move_foldl_push (cs out : List Component) (s : Location) :
    (cs.foldl push out).reverse.foldl Component.move s =
      cs.foldl Component.move (out.reverse.foldl Component.move s) := by
  induction cs generalizing out with
  | nil => rfl
  | cons c cs ih => rw [List.foldl_cons, ih, foldl_move_push, List.foldl_cons]

/-- A normal form in reverse: names, and before them the root or double dots. -/
def Folded (out : List Component) : Prop :=
  ∃ (names : List String) (front : List Component), (∀ x ∈ names, IsName x) ∧
    out = names.map .name ++ front ∧ (front = [.root] ∨ ∃ k, front = List.replicate k .up)

theorem Folded.push {out : List Component} {c : Component} (h : Folded out) (hc : c.Legible) :
    Folded (push out c) := by
  obtain ⟨names, front, hnames, rfl, hfront⟩ := h
  cases c with
  | root => cases hc
  | here => exact ⟨names, front, hnames, rfl, hfront⟩
  | name x =>
      refine ⟨x :: names, front, fun y hy => ?_, rfl, hfront⟩
      rcases List.mem_cons.1 hy with rfl | hy
      · exact hc
      · exact hnames y hy
  | up =>
      cases names with
      | cons x xs => exact ⟨xs, front, fun y hy => hnames y (List.mem_cons_of_mem _ hy), rfl, hfront⟩
      | nil =>
          rcases hfront with rfl | ⟨k, rfl⟩
          · exact ⟨[], [.root], by simp, rfl, Or.inl rfl⟩
          · refine ⟨[], List.replicate (k + 1) .up, by simp, ?_, Or.inr ⟨k + 1, rfl⟩⟩
            cases k <;> rfl

theorem Folded.foldl_push {out : List Component} (h : Folded out) (hcs : ∀ c ∈ cs, c.Legible) :
    Folded (cs.foldl Path.push out) := by
  induction cs generalizing out with
  | nil => exact h
  | cons c cs ih =>
      exact ih (h.push (hcs c (List.mem_cons_self ..))) fun d hd => hcs d (List.mem_cons_of_mem _ hd)

theorem folded_components (p : Path) : Folded (p.components.foldl push []) := by
  obtain ⟨cs, hcs, heq | heq⟩ := p.components_cases
  · rw [heq]
    exact Folded.foldl_push ⟨[], [], by simp, rfl, Or.inr ⟨0, rfl⟩⟩ hcs
  · rw [heq]
    have hroot : Folded [.root] := ⟨[], [.root], by simp, rfl, Or.inl rfl⟩
    exact hroot.foldl_push hcs

/-- What a normal form is written from. -/
theorem normalize_cases (p : Path) : ∃ (names : List String) (k : ℕ), (∀ x ∈ names, IsName x) ∧
    ((p.components.foldl push []).reverse = .root :: names.map .name ∨
      (p.components.foldl push []).reverse = List.replicate k .up ++ names.map .name) := by
  obtain ⟨names, front, hnames, heq, hfront⟩ := p.folded_components
  have hreversed : ∀ x ∈ names.reverse, IsName x := fun x hx => hnames x (List.mem_reverse.1 hx)
  rcases hfront with rfl | ⟨k, rfl⟩
  · exact ⟨names.reverse, 0, hreversed, Or.inl (by simp [heq])⟩
  · exact ⟨names.reverse, k, hreversed, Or.inr (by simp [heq])⟩

theorem legible_ups_names {names : List String} (h : ∀ x ∈ names, IsName x) (k : ℕ) :
    ∀ c ∈ List.replicate k Component.up ++ names.map .name, c.Legible := by
  intro c hc
  rcases List.mem_append.1 hc with hc | hc
  · rw [List.eq_of_mem_replicate hc]
    trivial
  · exact legible_names h c hc

/-- **A normal form leads where the path leads.** -/
theorem place_normalize (p : Path) (s : Location) : p.normalize.place s = p.place s := by
  have hfold := foldl_move_foldl_push p.components [] s
  rw [List.reverse_nil, List.foldl_nil, ← place_eq_components] at hfold
  rw [← hfold, normalize]
  obtain ⟨names, k, hnames, heq | heq⟩ := p.normalize_cases
  · rw [heq, place_ofComponents_root (legible_names hnames)]
    rfl
  · rw [heq, place_ofComponents (legible_ups_names hnames k)]

/-- **A normal form is direct.** -/
theorem direct_normalize (p : Path) : p.normalize.Direct := by
  unfold normalize
  obtain ⟨names, k, hnames, heq | heq⟩ := p.normalize_cases
  · rw [heq]
    have hsteps := steps_ofComponents_root (legible_names hnames)
    refine ⟨⟨0, names, by simpa using hsteps⟩, fun hslash => ?_⟩
    by_contra hne
    rw [hsteps] at hne
    exact Bool.false_ne_true
      ((endsInSlash_ofComponents (legible_names hnames) hne).2.symm.trans hslash)
  · rw [heq]
    have hsteps := steps_ofComponents (legible_ups_names hnames k)
    refine ⟨⟨k, names, hsteps⟩, fun hslash => ?_⟩
    by_contra hne
    rw [hsteps] at hne
    exact Bool.false_ne_true
      ((endsInSlash_ofComponents (legible_ups_names hnames k) hne).1.symm.trans hslash)

/-! ### Paths that stay inside -/

/-- The path is relative and never goes up. -/
def Inner (p : Path) : Prop := p.isAbsolute = false ∧ Component.up ∉ p.steps

instance (p : Path) : Decidable p.Inner := inferInstanceAs (Decidable (_ ∧ _))

theorem Inner.isPrefix_place (h : p.Inner) (s : Location) : s <+: p.place s := by
  have hfold : ∀ (cs : List Component) (t : Location), (∀ c ∈ cs, c.Legible) → .up ∉ cs →
      t <+: cs.foldl Component.move t := by
    intro cs
    induction cs with
    | nil => exact fun t _ _ => List.prefix_refl t
    | cons c cs ih =>
        intro t hlegible hup
        rw [List.mem_cons, not_or] at hup
        refine List.IsPrefix.trans ?_ (ih _ (fun d hd => hlegible d (List.mem_cons_of_mem _ hd)) hup.2)
        cases c with
        | root => cases hlegible .root (List.mem_cons_self ..)
        | here => exact List.prefix_refl t
        | up => exact absurd rfl hup.1
        | name x => exact List.prefix_append t [x]
  rw [place, h.1]
  exact hfold p.steps s (fun c hc => legible_of_mem_steps hc) h.2

end Path

namespace Layout

theorem direct_source (layout : Layout) (p : Path) : (layout.source p).Direct :=
  Path.direct_normalize _

theorem direct_output (layout : Layout) (p : Path) : (layout.output p).Direct :=
  Path.direct_normalize _

/-- **What stays inside is below the root of the output.** -/
theorem isPrefix_place_output (layout : Layout) {p : Path} (h : p.Inner) (s : Location) :
    layout.outputRoot.place s <+: (layout.output p).place s := by
  rw [output, Path.place_normalize, Path.place_join]
  exact h.isPrefix_place _

end Layout

end Rebuild
