/-
The components that the search finds are the strongly connected ones.

Main definitions:

* `Digraph.Acyclic` — no node reaches itself along an edge.

Main results:

* `Digraph.search_spec` — the search ends with no node active and none fresh;
* `Digraph.components_spec` — **every node is in exactly one of the components found, and each of
  them holds all nodes that reach each other**;
* `Digraph.isCyclic_iff` — the test for a cycle is right on components;
* `Digraph.cyclicComponent?_eq_none_iff` — **no component is cyclic exactly if the graph is acyclic**.
-/
import Rebuild.Proofs.Digraph.Visit

set_option relaxedAutoImplicit false
set_option autoImplicit false

namespace Rebuild.Digraph

open Relation

variable {g : Digraph} {s s' : Search} {grown : List ℕ} {v w x : ℕ}

/-! ### The whole search -/

theorem mark_start (n v : ℕ) : (Search.start n).mark v = if v < n then .fresh else .closed := by
  unfold Search.start Search.mark
  by_cases h : v < n
  · simp [List.getD_eq_getElem?_getD, h]
  · simp [List.getD_eq_getElem?_getD, h]

theorem sound_start (hb : g.Bounded) : g.Sound (Search.start g.size) [] := by
  refine ⟨by simp [Search.start], List.nodup_nil, rfl, ?_, ?_, ?_, ?_, ?_, ?_, ?_, ?_, ?_, ?_⟩
  · intro v
    rw [mark_start]
    split <;> simp
  · simp [Search.start]
  · intro v low hlow
    rw [mark_start] at hlow
    split at hlow <;> cases hlow
  · intro v low hlow
    rw [mark_start] at hlow
    split at hlow <;> cases hlow
  · simp [Search.start]
  · simp [Search.start]
  · intro v w hv hvw
    rw [mark_start, if_pos (hb hvw).1] at hv
    cases hv
  · intro v hv
    rw [mark_start, if_pos hv]
    simp [Search.start]
  · simp [Search.start]
  · simp [Search.start]

/-- A visit that starts with no node active ends with none: the earliest active node could only be
on the stack if it reached back further. -/
theorem Visited.grown_eq_nil (h : g.Visited s s' [] grown v) : grown = [] := by
  obtain ⟨top, hstack, hperm⟩ := h.stack
  rcases List.eq_nil_or_concat grown with hnil | ⟨later, first, hlast⟩
  · exact hnil
  · exfalso
    rw [List.concat_eq_append] at hlast
    subst hlast
    have hsound := h.sound
    rw [List.append_nil] at hsound
    have hfirst : first ∈ later ++ [first] := by simp
    have hmem : first ∈ s'.stack := by
      rw [hstack]
      exact List.mem_append_left _ (hperm.mem_iff.2 hfirst)
    have hlater : first ∉ later := fun hl =>
      (List.nodup_append.1 hsound.nodup).2.2 first hl first (by simp) rfl
    obtain ⟨low, hlow⟩ := (hsound.active_iff first).1 hfirst
    have hlt := hsound.left_low first hmem low hlow
    rw [rank_append_of_notMem hlater, rank_cons_self, List.length_nil] at hlt
    obtain ⟨y, hy, hrank, _⟩ := hsound.low_reach first low hlow
    -- the low link would have to be below 1, the number of the first active node
    have := rank_pos hy
    omega

theorem card_freshNodes_le (g : Digraph) (s : Search) : (g.freshNodes s).card ≤ g.size := by
  have hle := Finset.card_filter_le (Finset.range g.size) fun v => s.mark v = .fresh
  rwa [Finset.card_range] at hle

/-- The search goes on from a node that is still fresh. -/
def visitFresh (g : Digraph) (s : Search) (v : ℕ) : Search :=
  if s.mark v = .fresh then g.visit g.size v s else s

/-- Searching from one more node. -/
theorem Sound.visitFresh (h : g.Sound s []) (v : ℕ) :
    g.Sound (g.visitFresh s v) [] ∧ (g.visitFresh s v).mark v ≠ .fresh ∧
      ∀ x, (g.visitFresh s v).mark x = .fresh → s.mark x = .fresh := by
  unfold Digraph.visitFresh
  split
  · rename_i hfresh
    obtain ⟨grown, hvisit⟩ := visit_spec g g.size h hfresh (g.card_freshNodes_le s)
    obtain rfl := hvisit.grown_eq_nil
    exact ⟨hvisit.sound, hvisit.met, hvisit.fresh⟩
  · rename_i hfresh
    exact ⟨h, hfresh, fun _ hx => hx⟩

/-- Searching from more nodes. -/
theorem sound_foldl_visit (nodes : List ℕ) (h : g.Sound s []) :
    let s' := nodes.foldl g.visitFresh s
    g.Sound s' [] ∧ (∀ v ∈ nodes, s'.mark v ≠ .fresh) ∧
      ∀ x, s'.mark x = .fresh → s.mark x = .fresh := by
  induction nodes generalizing s with
  | nil => exact ⟨h, by simp, fun _ hx => hx⟩
  | cons v nodes ih =>
      rw [List.foldl_cons]
      obtain ⟨hstep, hv, hback⟩ := h.visitFresh v
      obtain ⟨hsound, hnodes, hrest⟩ := ih hstep
      refine ⟨hsound, fun u hu => ?_, fun x hx => hback x (hrest x hx)⟩
      rcases List.mem_cons.1 hu with rfl | hu
      · exact fun hf => hv (hrest u hf)
      · exact hnodes u hu

/-- **The search meets every node and leaves none active.** -/
theorem search_spec (hb : g.Bounded) :
    g.Sound g.search [] ∧ ∀ v < g.size, g.search.mark v = .closed := by
  obtain ⟨hsound, hmet, _⟩ := sound_foldl_visit (List.range g.size) (sound_start hb)
  refine ⟨hsound, fun v hv => ?_⟩
  exact hsound.closed_of_not (hmet v (List.mem_range.2 hv)) (by simp)

/-! ### Components -/

/-- **The components found are the strongly connected ones, and every node is in exactly one.** -/
theorem components_spec (hb : g.Bounded) :
    (∀ c ∈ g.components, g.IsComponent c) ∧ g.components.flatten.Nodup ∧
      ∀ v < g.size, ∃ c ∈ g.components, v ∈ c := by
  obtain ⟨hsound, hclosed⟩ := search_spec hb
  refine ⟨fun c hc => hsound.found_component c (List.mem_reverse.1 hc), ?_, fun v hv => ?_⟩
  · exact (List.reverse_perm _).flatten.nodup_iff.2 hsound.found_nodup
  · obtain ⟨c, hc, hvc⟩ := (hsound.found_iff v hv).1 (hclosed v hv)
    exact ⟨c, List.mem_reverse.2 hc, hvc⟩

/-- No node reaches itself along an edge. -/
def Acyclic (g : Digraph) : Prop := ∀ v, ¬ TransGen g.Edge v v

/-- A component has two members or a loop exactly if its nodes lie on cycles. -/
theorem isCyclic_iff {c : List ℕ} (hc : g.IsComponent c) (hv : v ∈ c) :
    g.isCyclic c = true ↔ TransGen g.Edge v v := by
  match c with
  | [] => simp at hv
  | [a] =>
      obtain rfl := List.mem_singleton.1 hv
      rw [isCyclic, hasEdge, List.contains_eq_mem, decide_eq_true_eq]
      constructor
      · exact fun h => TransGen.single h
      · -- the first step of a cycle stays in the component
        intro h
        obtain ⟨b, hvb, hbv⟩ := TransGen.head'_iff.1 h
        have hb : b ∈ [v] := (hc.mem_iff v hv b).2 ⟨ReflTransGen.single hvb, hbv⟩
        exact List.mem_singleton.1 hb ▸ hvb
  | a :: b :: rest =>
      refine ⟨fun _ => ?_, fun _ => rfl⟩
      obtain ⟨x, hx, hne⟩ : ∃ x ∈ a :: b :: rest, x ≠ v := by
        by_cases ha : a = v
        · refine ⟨b, by simp, fun hb => ?_⟩
          exact (List.nodup_cons.1 hc.nodup).1 (by simp [ha, hb])
        · exact ⟨a, by simp, ha⟩
      obtain ⟨hvx, hxv⟩ := (hc.mem_iff v hv x).1 hx
      rcases reflTransGen_iff_eq_or_transGen.1 hvx with heq | hpath
      · exact absurd heq hne
      · exact hpath.trans_left hxv

/-- **No component is cyclic exactly if the graph is acyclic.** -/
theorem cyclicComponent?_eq_none_iff (hb : g.Bounded) : g.cyclicComponent? = none ↔ g.Acyclic := by
  obtain ⟨hcomponent, _, hcover⟩ := components_spec hb
  rw [cyclicComponent?, List.find?_eq_none]
  constructor
  · intro h v hcycle
    obtain ⟨w, hvw, _⟩ := TransGen.head'_iff.1 hcycle
    obtain ⟨c, hc, hv⟩ := hcover v (hb hvw).1
    exact h c hc ((isCyclic_iff (hcomponent c hc) hv).2 hcycle)
  · intro h c hc hcyclic
    obtain ⟨v, hv⟩ := List.exists_mem_of_ne_nil c (hcomponent c hc).nonempty
    exact h v ((isCyclic_iff (hcomponent c hc) hv).1 hcyclic)

/-- A cyclic component that was found is a component and is cyclic. -/
theorem cyclicComponent?_some (hb : g.Bounded) {c : List ℕ} (h : g.cyclicComponent? = some c) :
    g.IsComponent c ∧ g.isCyclic c = true :=
  ⟨(components_spec hb).1 c (List.mem_of_find?_eq_some h), List.find?_some h⟩

end Rebuild.Digraph
