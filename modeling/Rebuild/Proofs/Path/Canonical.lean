/-
What normal forms look like.

A normal form is made component by component on a stack that is kept in reverse.  Read as a text again
it holds nothing idle: no dot, no slash that could be left out, and a double dot only at the front of a
relative path.  These texts are exactly the ones that are their own normal forms.  Since the stack of a
normal form is the one it was written from, what follows a path can be put on top of it before or after
the path was made normal.

Main definitions:

* `Path.Canonical` — **a text with nothing idle in it**.

Main results:

* `Path.foldl_push_join` — a joined path goes on with the stack of its first part;
* `Path.Folded.foldl_push_reverse`, `Path.foldl_push_normalize` — a normal form has the stack it was
  written from;
* `Path.canonical_iff` — **the canonical texts are the normal forms**;
* `Path.normal_form` — a normal form is canonical and final, leads to the same place, and can be taken
  before or after joining.
-/
import Rebuild.Proofs.Path

set_option relaxedAutoImplicit false
set_option autoImplicit false

namespace Rebuild

namespace Path

variable {p base rel : Path} {cs out : List Component} {names : List String}

/-! ### The stack of a path -/

theorem foldl_push_filter (cs out : List Component) :
    (cs.filter (· ≠ .here)).foldl push out = cs.foldl push out := by
  induction cs generalizing out with
  | nil => rfl
  | cons c cs ih =>
      cases c with
      | here => simpa [push] using ih out
      | root => simpa using ih _
      | up => simpa using ih _
      | name x => simpa using ih _

/-- Idle dots do not matter for a normal form. -/
theorem foldl_push_components (p : Path) :
    p.components.foldl push [] = p.steps.foldl push (if p.isAbsolute then [.root] else []) := by
  unfold components
  split
  · rw [List.foldl_cons, foldl_push_filter]
    rfl
  · split
    · rename_i rest heq
      rw [heq, List.foldl_cons, List.foldl_cons, foldl_push_filter]
    · exact foldl_push_filter p.steps []

/-- Joining goes on where the first path ends. -/
theorem foldl_push_join (hrel : rel.isAbsolute = false) :
    (base.join rel).components.foldl push [] =
      rel.steps.foldl push (base.components.foldl push []) := by
  rw [foldl_push_components, foldl_push_components base, steps_join hrel, isAbsolute_join hrel,
    List.foldl_append]

theorem foldl_push_names (names : List String) (out : List Component) :
    (names.map Component.name).foldl push out = (names.map Component.name).reverse ++ out := by
  induction names generalizing out with
  | nil => rfl
  | cons x xs ih =>
      rw [List.map_cons, List.foldl_cons, ih]
      simp [push]

theorem foldl_push_ups (j k : ℕ) : (List.replicate j Component.up).foldl push (List.replicate k .up) =
    List.replicate (k + j) .up := by
  induction j generalizing k with
  | zero => rfl
  | succ j ih =>
      have hpush : push (List.replicate k .up) .up = List.replicate (k + 1) .up := by
        cases k <;> rfl
      rw [List.replicate_succ, List.foldl_cons, hpush, ih, Nat.add_right_comm, Nat.add_assoc]

/-- **A stack that was folded is folded again as it is.** -/
theorem Folded.foldl_push_reverse (h : Folded out) : out.reverse.foldl Path.push [] = out := by
  obtain ⟨names, front, _, rfl, hfront⟩ := h
  have hstart : front.reverse.foldl Path.push [] = front := by
    rcases hfront with rfl | ⟨k, rfl⟩
    · rfl
    · rw [List.reverse_replicate]
      simpa using foldl_push_ups k 0
  rw [List.reverse_append, List.foldl_append, hstart, ← List.map_reverse, foldl_push_names,
    ← List.map_reverse, List.reverse_reverse]

theorem Folded.components_ofComponents (h : Folded out) :
    (ofComponents out.reverse).components = out.reverse := by
  obtain ⟨names, front, hnames, rfl, hfront⟩ := h
  have hreversed : ∀ x ∈ names.reverse, IsName x := fun x hx => hnames x (List.mem_reverse.1 hx)
  rw [List.reverse_append, ← List.map_reverse]
  rcases hfront with rfl | ⟨k, rfl⟩
  · exact (Path.components_ofComponents (legible_names hreversed) (by simp)).2
  · rw [List.reverse_replicate]
    exact (Path.components_ofComponents (legible_ups_names hreversed k)
      (by simp [List.mem_replicate])).1

/-- **A normal form has the stack it was written from.** -/
theorem foldl_push_normalize (p : Path) :
    p.normalize.components.foldl push [] = p.components.foldl push [] := by
  have hfolded : Folded (p.components.foldl push []) := p.folded_components
  rw [normalize, hfolded.components_ofComponents, hfolded.foldl_push_reverse]

/-- **What is joined may be joined to the normal form.** -/
theorem normalize_join (base rel : Path) :
    (base.join rel).normalize = (base.normalize.join rel).normalize := by
  cases hrel : rel.isAbsolute with
  | true => rw [join, join, if_pos hrel, if_pos hrel]
  | false =>
      rw [normalize, foldl_push_join hrel, ← foldl_push_normalize base, ← foldl_push_join hrel]
      rfl

/-- What was written from a folded stack is its own normal form. -/
theorem normalize_ofComponents (h : Folded cs.reverse) :
    (ofComponents cs).normalize = ofComponents cs := by
  have hstack := h.foldl_push_reverse
  have hcomponents := h.components_ofComponents
  rw [List.reverse_reverse] at hstack hcomponents
  rw [normalize, hcomponents, hstack, List.reverse_reverse]

/-! ### Pieces -/

/-- **Nothing is lost by cutting.** -/
theorem intercalate_pieces (cs : List Char) : ['/'].intercalate (pieces cs) = cs := by
  induction cs with
  | nil => rfl
  | cons c cs ih =>
      unfold pieces
      cases h : pieces cs with
      | nil => exact absurd h (pieces_ne_nil cs)
      | cons first more =>
          rw [h] at ih
          split
          · rename_i hc
            rw [List.intercalate_cons_cons, ih, hc]
            rfl
          · cases more with
            | nil => simpa using ih
            | cons second more =>
                rw [List.intercalate_cons_cons] at ih
                rw [List.intercalate_cons_cons, ← ih]
                simp

theorem pieces_injective : Function.Injective pieces :=
  Function.LeftInverse.injective intercalate_pieces

/-- An empty piece, other than the first, is between two slashes or behind the last one. -/
theorem nil_mem_tail_pieces {cs : List Char} (h : [] ∈ (pieces cs).tail) :
    ['/', '/'] <:+: cs ∨ cs.getLast? = some '/' := by
  induction cs with
  | nil => simp [pieces] at h
  | cons c cs ih =>
      have hrest : [] ∈ (pieces cs).tail → ['/', '/'] <:+: c :: cs ∨ (c :: cs).getLast? = some '/' := by
        intro htail
        rcases ih htail with hinfix | hlast
        · exact Or.inl (List.infix_cons hinfix)
        · rw [List.getLast?_cons, hlast]
          exact Or.inr rfl
      unfold pieces at h
      split at h
      · rename_i hc
        subst hc
        cases cs with
        | nil => exact Or.inr rfl
        | cons d ds =>
            by_cases hd : d = '/'
            · subst hd
              exact Or.inl ⟨[], ds, rfl⟩
            · refine hrest ?_
              rw [List.tail_cons, pieces, if_neg hd] at h
              rw [pieces, if_neg hd]
              split at h
              · simp at h
              · simpa using h
      · cases hcs : pieces cs with
        | nil => exact absurd hcs (pieces_ne_nil cs)
        | cons first more =>
            rw [hcs] at h hrest
            exact hrest h

/-- The first piece is empty only if the text starts with a slash, or holds nothing at all. -/
theorem starts_of_pieces {cs : List Char} {ps : List (List Char)} (h : pieces cs = [] :: ps) :
    cs = [] ∨ ∃ ds, cs = '/' :: ds := by
  have hall := intercalate_pieces cs
  rw [h] at hall
  cases ps with
  | nil => exact Or.inl (by simpa using hall.symm)
  | cons second more =>
      rw [List.intercalate_cons_cons] at hall
      exact Or.inr ⟨_, hall.symm⟩

/-- Two slashes in a row have nothing between them. -/
theorem nil_mem_tail_of_double {cs : List Char} (h : ['/', '/'] <:+: cs) : [] ∈ (pieces cs).tail := by
  obtain ⟨before, after, rfl⟩ := h
  have hcut : before ++ ['/', '/'] ++ after = before ++ '/' :: '/' :: after := by simp
  rw [hcut, pieces_append, List.tail_append_of_ne_nil (pieces_ne_nil before)]
  exact List.mem_append_right _ (by simp [pieces])

/-- The pieces of a text that was written from components. -/
theorem pieces_ofComponents (hcs : ∀ c ∈ cs, c.Legible) (hne : cs ≠ []) :
    pieces (ofComponents cs).text.toList = cs.map (·.text.toList) := by
  rw [ofComponents_relative hcs]
  exact pieces_intercalate hcs hne

theorem pieces_ofComponents_root (hcs : ∀ c ∈ cs, c.Legible) (hne : cs ≠ []) :
    pieces (ofComponents (.root :: cs)).text.toList = [] :: cs.map (·.text.toList) := by
  have htext : (ofComponents (.root :: cs)).text.toList =
      [] ++ '/' :: (ofComponents cs).text.toList := by
    rw [ofComponents_relative hcs]
    simp [ofComponents]
  rw [htext, pieces_append, pieces_ofComponents hcs hne]
  rfl

theorem toList_ne_of_isName {x : String} (h : IsName x) :
    x.toList ≠ [] ∧ x.toList ≠ ['.'] ∧ x.toList ≠ ['.', '.'] := by
  have hpiece := h.2
  refine ⟨fun heq => ?_, fun heq => ?_, fun heq => ?_⟩
  · rw [heq] at hpiece
    cases hpiece
  · rw [heq] at hpiece
    cases hpiece
  · rw [heq] at hpiece
    cases hpiece

/-- Pieces without any other meaning are names. -/
theorem exists_names {ps : List (List Char)} (hslash : ∀ piece ∈ ps, '/' ∉ piece) (hnil : [] ∉ ps)
    (hdot : ['.'] ∉ ps) (hup : ['.', '.'] ∉ ps) :
    ∃ names : List String, (∀ x ∈ names, IsName x) ∧ ps = names.map String.toList := by
  refine ⟨ps.map String.ofList, fun x hx => ?_, by simp [Function.comp_def]⟩
  obtain ⟨piece, hmem, rfl⟩ := List.mem_map.1 hx
  rw [IsName, String.toList_ofList]
  refine ⟨hslash piece hmem, ?_⟩
  unfold Component.ofPiece?
  split
  · exact absurd hmem hnil
  · exact absurd hmem hdot
  · exact absurd hmem hup
  · rfl

/-! ### Canonical texts -/

/-- **A text with nothing idle in it**: no slash after another or at the end, but for the root itself;
no dot; and a double dot only in a relative path, before everything else. -/
structure Canonical (p : Path) : Prop where
  noDouble : ¬ ['/', '/'] <:+: p.text.toList
  noTrailing : p.endsInSlash = true → p.text = "/"
  noDot : ['.'] ∉ pieces p.text.toList
  absolute : p.isAbsolute = true → ['.', '.'] ∉ pieces p.text.toList
  relative : p.isAbsolute = false → ∃ k rest,
    pieces p.text.toList = List.replicate k ['.', '.'] ++ rest ∧ ['.', '.'] ∉ rest

theorem not_mem_map_toList (h : ∀ x ∈ names, IsName x) (piece : List Char)
    (hpiece : piece = [] ∨ piece = ['.'] ∨ piece = ['.', '.']) : piece ∉ names.map String.toList := by
  intro hmem
  obtain ⟨x, hx, rfl⟩ := List.mem_map.1 hmem
  obtain ⟨hnil, hdot, hup⟩ := toList_ne_of_isName (h x hx)
  rcases hpiece with heq | heq | heq
  · exact hnil heq
  · exact hdot heq
  · exact hup heq

theorem canonical_names (h : ∀ x ∈ names, IsName x) :
    (ofComponents (.root :: names.map .name)).Canonical := by
  have hrelative : (ofComponents (.root :: names.map .name)).isAbsolute = false → False := by
    rw [isAbsolute_ofComponents_root]
    exact Bool.noConfusion
  by_cases hne : names = []
  · subst hne
    exact ⟨by decide, fun _ => rfl, by decide, fun _ => by decide, fun hrel => (hrelative hrel).elim⟩
  · have hne' : names.map Component.name ≠ [] := by simpa using hne
    have hpieces : pieces (ofComponents (.root :: names.map .name)).text.toList =
        [] :: names.map String.toList := by
      rw [pieces_ofComponents_root (legible_names h) hne', List.map_map]
      rfl
    refine ⟨fun hdouble => ?_, fun hslash => ?_, ?_, fun _ => ?_, fun hrel => (hrelative hrel).elim⟩
    · have hnil := nil_mem_tail_of_double hdouble
      rw [hpieces] at hnil
      exact not_mem_map_toList h _ (by simp) hnil
    · have hend := (endsInSlash_ofComponents (legible_names h) hne').2
      exact absurd (hend.symm.trans hslash) Bool.false_ne_true
    · rw [hpieces]
      simpa using not_mem_map_toList h ['.'] (by simp)
    · rw [hpieces]
      simpa using not_mem_map_toList h ['.', '.'] (by simp)

theorem canonical_ups_names (h : ∀ x ∈ names, IsName x) (k : ℕ) :
    (ofComponents (List.replicate k .up ++ names.map .name)).Canonical := by
  have hlegible := legible_ups_names h k
  have habsolute : (ofComponents (List.replicate k .up ++ names.map .name)).isAbsolute = true →
      False := by
    rw [isAbsolute_ofComponents hlegible]
    exact Bool.noConfusion
  by_cases hne : List.replicate k Component.up ++ names.map .name = []
  · rw [hne]
    exact ⟨by decide, by decide, by decide, by decide, fun _ => ⟨0, [[]], rfl, by decide⟩⟩
  · have hpieces : pieces (ofComponents (List.replicate k .up ++ names.map .name)).text.toList =
        List.replicate k ['.', '.'] ++ names.map String.toList := by
      rw [pieces_ofComponents hlegible hne, List.map_append, List.map_replicate, List.map_map]
      rfl
    refine ⟨fun hdouble => ?_, fun hslash => ?_, ?_, fun habs => (habsolute habs).elim,
      fun _ => ⟨k, _, hpieces, not_mem_map_toList h _ (by simp)⟩⟩
    · have hnil := List.mem_of_mem_tail (nil_mem_tail_of_double hdouble)
      rw [hpieces, List.mem_append] at hnil
      rcases hnil with hnil | hnil
      · simp [List.mem_replicate] at hnil
      · exact not_mem_map_toList h _ (by simp) hnil
    · have hend := (endsInSlash_ofComponents hlegible hne).1
      exact absurd (hend.symm.trans hslash) Bool.false_ne_true
    · rw [hpieces, List.mem_append, not_or]
      exact ⟨by simp [List.mem_replicate], not_mem_map_toList h _ (by simp)⟩

/-- Only the root has an empty piece behind its first. -/
theorem Canonical.eq_root (h : p.Canonical) (hnil : [] ∈ (pieces p.text.toList).tail) : p.text = "/" := by
  rcases nil_mem_tail_pieces hnil with hdouble | hlast
  · exact absurd hdouble h.noDouble
  · exact h.noTrailing (beq_iff_eq.2 hlast)

/-- A path is known by its pieces. -/
theorem eq_of_pieces {q : Path} (h : pieces p.text.toList = pieces q.text.toList) : p = q :=
  congrArg Path.mk (String.toList_inj.1 (pieces_injective h))

theorem Canonical.eq_names (h : p.Canonical) (habs : p.isAbsolute = true) :
    ∃ names : List String, (∀ x ∈ names, IsName x) ∧ p = ofComponents (.root :: names.map .name) := by
  by_cases hroot : p.text = "/"
  · exact ⟨[], by simp, congrArg Path.mk hroot⟩
  · obtain ⟨cs, hcs⟩ := isAbsolute_iff.1 habs
    have hpieces : pieces p.text.toList = [] :: pieces cs := by
      rw [hcs]
      simp [pieces]
    obtain ⟨names, hnames, hrest⟩ := exists_names (fun _ => noSlash_of_mem_pieces)
      (fun hnil => hroot (h.eq_root (by rwa [hpieces])))
      (fun hdot => h.noDot (hpieces ▸ List.mem_cons_of_mem _ hdot))
      (fun hup => h.absolute habs (hpieces ▸ List.mem_cons_of_mem _ hup))
    have hne : names.map Component.name ≠ [] := by
      intro hnil
      rw [List.map_eq_nil_iff] at hnil
      exact pieces_ne_nil cs (by rw [hrest, hnil]; rfl)
    refine ⟨names, hnames, eq_of_pieces ?_⟩
    rw [pieces_ofComponents_root (legible_names hnames) hne, hpieces, hrest, List.map_map]
    rfl

theorem Canonical.eq_ups_names (h : p.Canonical) (habs : p.isAbsolute = false) :
    ∃ (k : ℕ) (names : List String), (∀ x ∈ names, IsName x) ∧
      p = ofComponents (List.replicate k .up ++ names.map .name) := by
  have hstart : ¬ ∃ ds, p.text.toList = '/' :: ds := fun hslash =>
    Bool.false_ne_true (habs.symm.trans (isAbsolute_iff.2 hslash))
  by_cases hempty : p.text = ""
  · exact ⟨0, [], by simp, congrArg Path.mk hempty⟩
  · obtain ⟨k, rest, hpieces, hup⟩ := h.relative habs
    have hnil : [] ∉ pieces p.text.toList := by
      intro hmem
      obtain ⟨first, more, hcut⟩ := List.exists_cons_of_ne_nil (pieces_ne_nil p.text.toList)
      rw [hcut] at hmem
      rcases List.mem_cons.1 hmem with rfl | hmem
      · rcases starts_of_pieces hcut with hchars | hchars
        · exact hempty (String.toList_inj.1 hchars)
        · exact hstart hchars
      · have hroot := h.eq_root (by rwa [hcut])
        exact hstart ⟨[], by simp [hroot]⟩
    have hmem : ∀ {piece}, piece ∈ rest → piece ∈ pieces p.text.toList := fun hpiece =>
      hpieces ▸ List.mem_append_right _ hpiece
    obtain ⟨names, hnames, rfl⟩ := exists_names (fun _ hpiece => noSlash_of_mem_pieces (hmem hpiece))
      (fun hpiece => hnil (hmem hpiece)) (fun hdot => h.noDot (hmem hdot)) hup
    have hne : List.replicate k Component.up ++ names.map .name ≠ [] := by
      intro hnone
      rw [List.append_eq_nil_iff, List.replicate_eq_nil_iff, List.map_eq_nil_iff] at hnone
      refine pieces_ne_nil p.text.toList ?_
      rw [hpieces, hnone.1, hnone.2]
      rfl
    refine ⟨k, names, hnames, eq_of_pieces ?_⟩
    rw [pieces_ofComponents (legible_ups_names hnames k) hne, hpieces, List.map_append,
      List.map_replicate, List.map_map]
    rfl

/-- **The canonical texts are the normal forms.** -/
theorem canonical_iff : p.Canonical ↔ p.normalize = p := by
  constructor
  · intro h
    cases habs : p.isAbsolute with
    | true =>
        obtain ⟨names, hnames, rfl⟩ := h.eq_names habs
        exact normalize_ofComponents
          ⟨names.reverse, [.root], by simpa using hnames, by simp, Or.inl rfl⟩
    | false =>
        obtain ⟨k, names, hnames, rfl⟩ := h.eq_ups_names habs
        exact normalize_ofComponents
          ⟨names.reverse, List.replicate k .up, by simpa using hnames, by simp, Or.inr ⟨k, rfl⟩⟩
  · intro h
    rw [← h, normalize]
    obtain ⟨names, k, hnames, heq | heq⟩ := p.normalize_cases
    · rw [heq]
      exact canonical_names hnames
    · rw [heq]
      exact canonical_ups_names hnames k

/-- **What a normal form is.**  It is a text with nothing idle in it, and these texts are the ones that
are their own normal forms, so taking the normal form again changes nothing.  From every location it
leads where the path leads.  What is joined to a path may be joined to its normal form; so a layout,
which keeps its roots in normal form, resolves a path as if the whole of it had been made normal at
once. -/
theorem normal_form (p : Path) :
    p.normalize.Canonical ∧ (∀ q : Path, q.Canonical ↔ q.normalize = q) ∧
      p.normalize.normalize = p.normalize ∧ (∀ c : Location, p.normalize.place c = p.place c) ∧
      ∀ q : Path, (p.join q).normalize = (p.normalize.join q).normalize ∧
        (∀ output, (Layout.ofRoots p output).source q = (p.join q).normalize) ∧
        ∀ project, (Layout.ofRoots project p).output q = (p.join q).normalize := by
  have hfinal : p.normalize.normalize = p.normalize := by
    rw [normalize, foldl_push_normalize]
    rfl
  refine ⟨canonical_iff.2 hfinal, fun q => canonical_iff, hfinal, p.place_normalize, fun q => ?_⟩
  have hjoin := normalize_join p q
  exact ⟨hjoin, fun _ => hjoin.symm, fun _ => hjoin.symm⟩

end Path

end Rebuild
