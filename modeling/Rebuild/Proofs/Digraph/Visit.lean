/-
How a visit of the search for components ends.

A node that reaches back further than itself is put on the stack; any other is a root, and completes
the component made of it and of all that became active after it.

Main definitions:

* `Digraph.freshNodes` — the nodes that were not met yet, which bound how deep visits go;
* `Digraph.lookAt` — one step of a visit.

Main results:

* `Digraph.Scanning.leave_inner` — a node on the stack leads to an earlier active one;
* `Digraph.Scanning.isComponent` — **a root and what became active after it are a component**;
* `Digraph.Scanning.sound_close`, `Digraph.Scanning.leave_root` — completing it keeps the invariant;
* `Digraph.visit_spec` — **every visit keeps the invariant**.
-/
import Rebuild.Proofs.Digraph.Search

set_option relaxedAutoImplicit false
set_option autoImplicit false

namespace Rebuild.Digraph

open Relation

variable {g : Digraph} {s s₀ : Search} {active grown : List ℕ} {v w x : ℕ}

/-! ### Leaving a node -/

section Leave

variable {seen : List ℕ}

/-- A node that reaches back further goes on the stack. -/
theorem Scanning.leave_inner (h : g.Scanning s₀ s v active grown false seen)
    (hall : ∀ w, g.Edge v w → w ∈ seen) :
    g.Visited s₀ { s with stack := v :: s.stack } active (grown ++ [v]) v := by
  obtain ⟨lv, hlv, hroot, hgrown, hseen⟩ := h.low
  have happend : (grown ++ [v]) ++ active = grown ++ v :: active := by simp
  have hlt : lv < rank (grown ++ v :: active) v := by
    have hle := h.sound.low_le v lv hlv
    rw [h.rank_self] at hle ⊢
    have hne : lv ≠ active.length + 1 := fun heq => Bool.false_ne_true (hroot.2 heq)
    omega
  have hmark : ∀ {x l}, Search.mark { s with stack := v :: s.stack } x = .active l →
      s.mark x = .active l := fun hx => hx
  have hsound : g.Sound { s with stack := v :: s.stack } (grown ++ v :: active) := by
    refine { h.sound with stack_active := ?_, left_low := ?_, left_edges := ?_ }
    · intro x hx
      rcases List.mem_cons.1 hx with rfl | hx
      · simp
      · exact h.sound.stack_active x hx
    · intro x hx low hlow
      rcases List.mem_cons.1 hx with rfl | hx
      · obtain rfl : lv = low := by simpa [hlv] using hmark hlow
        exact hlt
      · exact h.sound.left_low x hx low hlow
    · intro x hx low hlow w hw
      rcases List.mem_cons.1 hx with rfl | hx
      · obtain rfl : lv = low := by simpa [hlv] using hmark hlow
        exact hseen w (hall w hw)
      · exact h.sound.left_edges x hx low hlow w hw
  refine ⟨happend ▸ hsound, ?_, h.frame, h.closed, h.fresh, ?_, ?_, ?_, ?_⟩
  · obtain ⟨top, htop, hperm⟩ := h.stack
    refine ⟨v :: top, by simp [htop], ?_⟩
    exact (hperm.cons v).trans (List.perm_append_singleton v grown).symm
  · intro x hx
    rcases List.mem_append.1 hx with hx | hx
    · exact h.reach x hx
    · rw [List.mem_singleton.1 hx]
      exact ReflTransGen.refl
  · intro hf
    have hf' : s.mark v = .fresh := hf
    simp [hlv] at hf'
  · intro low hlow x hx l hl
    obtain rfl : lv = low := by simpa [hlv] using hmark hlow
    rcases List.mem_append.1 hx with hx | hx
    · exact hgrown x hx l hl
    · rw [List.mem_singleton.1 hx] at hl
      obtain rfl : lv = l := by simpa [hlv] using hmark hl
      exact le_refl _
  · intro hc
    have hc' : s.mark v = .closed := hc
    simp [hlv] at hc'

/-- The nodes that became active during the visit of a root lie on top of the stack, and no others
reach back no further. -/
theorem Scanning.part_eq (h : g.Scanning s₀ s v active grown true seen) {top : List ℕ}
    (hstack : s.stack = top ++ s₀.stack) (hperm : top.Perm grown) :
    (s.stack.takeWhile fun w => !s.reachesBack w v) = top := by
  obtain ⟨lv, hlv, hroot, hgrown, _⟩ := h.low
  have hlv_eq : lv = active.length + 1 := hroot.1 rfl
  have htop : ∀ w ∈ top, (!s.reachesBack w v) = true := by
    intro w hw
    rw [Bool.not_eq_true', Bool.eq_false_iff]
    intro hback
    obtain ⟨lw, lv', hmw, hmv, hlt⟩ := reachesBack_iff.1 hback
    obtain rfl : lv = lv' := by simpa [hlv] using hmv
    have := hgrown w (hperm.mem_iff.1 hw) lw hmw
    omega
  -- what lay on the stack before has its number among the earlier ones
  have hbelow : ∀ w ∈ s₀.stack, (!s.reachesBack w v) = false := by
    intro w hw
    have hwa := h.start.stack_active w hw
    obtain ⟨lw, hlw⟩ := (h.start.active_iff w).1 hwa
    have hle := (h.start.low_le w lw hlw).trans (rank_le active w)
    rw [Bool.not_eq_false']
    exact reachesBack_iff.2 ⟨lw, lv, by rw [h.frame w hwa, hlw], hlv, by omega⟩
  rw [hstack, List.takeWhile_append_of_pos htop]
  have hnil : (s₀.stack.takeWhile fun w => !s.reachesBack w v) = [] := by
    cases hs : s₀.stack with
    | nil => rfl
    | cons w ws => rw [List.takeWhile_cons, hbelow w (by simp [hs])]; rfl
  rw [hnil, List.append_nil]

/-- Nodes that were active before the visit did not become active during it. -/
theorem Scanning.old_not_mem {isRoot : Bool} (h : g.Scanning s₀ s v active grown isRoot seen)
    (hx : x ∈ active) : x ∉ v :: grown := by
  intro hin
  rcases List.mem_cons.1 hin with rfl | hin
  · exact h.not_mem_active hx
  · exact (List.nodup_append.1 h.sound.nodup).2.2 x hin x (List.mem_cons_of_mem _ hx) rfl

/-- Nodes that were active before the visit have smaller numbers than the root. -/
theorem Scanning.rank_old {isRoot : Bool} (h : g.Scanning s₀ s v active grown isRoot seen)
    (hx : x ∈ active) : rank (grown ++ v :: active) x ≤ active.length := by
  have hnot := h.old_not_mem hx
  rw [List.mem_cons, not_or] at hnot
  rw [rank_append_of_notMem hnot.2, rank_cons_of_ne hnot.1]
  exact rank_le active x

/-- What became active during the visit of a root leads back to it. -/
theorem Scanning.back_to_root (h : g.Scanning s₀ s v active grown true seen) (hx : x ∈ grown) :
    g.Reaches x v := by
  obtain ⟨lv, hlv, hroot, hgrown, _⟩ := h.low
  obtain ⟨top, hstack, hperm⟩ := h.stack
  have hlv_eq : lv = active.length + 1 := hroot.1 rfl
  -- each low link leads to a smaller number, and none of them below that of the root
  induction hrank : rank (grown ++ v :: active) x using Nat.strong_induction_on generalizing x with
  | _ n ih =>
      have hxs : x ∈ s.stack := by
        rw [hstack]
        exact List.mem_append_left _ (hperm.mem_iff.2 hx)
      obtain ⟨lx, hlx⟩ := (h.sound.active_iff x).1 (List.mem_append_left _ hx)
      obtain ⟨y, hy, hyr, hxy⟩ := h.sound.low_reach x lx hlx
      have hlt := h.sound.left_low x hxs lx hlx
      have hge := hgrown x hx lx hlx
      rcases List.mem_append.1 hy with hy | hy
      · exact hxy.trans (ih lx (by omega) hy hyr)
      · rcases List.mem_cons.1 hy with rfl | hy
        · exact hxy
        · have := h.rank_old hy
          omega

/-- No edge leads from the component of a root to an active node outside it. -/
theorem Scanning.edges_inside (h : g.Scanning s₀ s v active grown true seen)
    (hall : ∀ w, g.Edge v w → w ∈ seen) (hx : x ∈ v :: grown) (hedge : g.Edge x w) :
    w ∈ v :: grown ∨ s.mark w = .closed := by
  obtain ⟨lv, hlv, hroot, hgrown, hseen⟩ := h.low
  obtain ⟨top, hstack, hperm⟩ := h.stack
  have hlv_eq : lv = active.length + 1 := hroot.1 rfl
  have hout : s.mark w ≠ .fresh ∧
      (w ∈ grown ++ v :: active → active.length + 1 ≤ rank (grown ++ v :: active) w) := by
    rcases List.mem_cons.1 hx with rfl | hx
    · obtain ⟨hfresh, hle⟩ := hseen w (hall w hedge)
      exact ⟨hfresh, fun hw => hlv_eq ▸ hle hw⟩
    · have hxs : x ∈ s.stack := by
        rw [hstack]
        exact List.mem_append_left _ (hperm.mem_iff.2 hx)
      obtain ⟨lx, hlx⟩ := (h.sound.active_iff x).1 (List.mem_append_left _ hx)
      obtain ⟨hfresh, hle⟩ := h.sound.left_edges x hxs lx hlx w hedge
      have hge := hgrown x hx lx hlx
      refine ⟨hfresh, fun hw => ?_⟩
      have := hle hw
      omega
  -- an active node that is not in the component has a number below that of the root
  by_cases hw : w ∈ grown ++ v :: active
  · left
    rcases List.mem_append.1 hw with hwg | hwg
    · exact List.mem_cons_of_mem _ hwg
    · rcases List.mem_cons.1 hwg with rfl | hwa
      · exact List.mem_cons_self ..
      · have hle := hout.2 hw
        have := h.rank_old hwa
        omega
  · exact Or.inr (h.sound.closed_of_not hout.1 hw)

theorem mem_active_of_mem_cons (hx : x ∈ v :: grown) : x ∈ grown ++ v :: active := by
  rcases List.mem_cons.1 hx with rfl | hx
  · simp
  · exact List.mem_append_left _ hx

/-- Paths from the component of a root lead into it or to closed nodes. -/
theorem Scanning.paths_inside (h : g.Scanning s₀ s v active grown true seen)
    (hall : ∀ w, g.Edge v w → w ∈ seen) (hx : x ∈ v :: grown) (hxw : g.Reaches x w) :
    w ∈ v :: grown ∨ s.mark w = .closed := by
  induction hxw with
  | refl => exact Or.inl hx
  | tail _ hstep ih =>
      rcases ih with hin | hclosed
      · exact h.edges_inside hall hin hstep
      · exact Or.inr (h.sound.closed_edges _ _ hclosed hstep)

/-- A root and what became active after it reach each other. -/
theorem Scanning.mutual_root (h : g.Scanning s₀ s v active grown true seen) (hx : x ∈ v :: grown) :
    g.Mutual v x := by
  rcases List.mem_cons.1 hx with rfl | hx
  · exact ⟨ReflTransGen.refl, ReflTransGen.refl⟩
  · exact ⟨h.reach x hx, h.back_to_root hx⟩

/-- **A root and what became active after it are a component.** -/
theorem Scanning.isComponent (h : g.Scanning s₀ s v active grown true seen)
    (hall : ∀ w, g.Edge v w → w ∈ seen) {c : List ℕ} (hperm : c.Perm (v :: grown)) :
    g.IsComponent c := by
  have hnodup : (v :: grown).Nodup :=
    List.nodup_cons.2 ⟨h.not_mem_grown, (List.nodup_append.1 h.sound.nodup).1⟩
  refine ⟨hperm.nodup_iff.2 hnodup, ?_, fun x hx => ?_, fun x hx w => ?_⟩
  · rintro rfl
    simpa using hperm.length_eq
  · exact h.sound.lt_size (mem_active_of_mem_cons (hperm.mem_iff.1 hx))
  · rw [hperm.mem_iff] at hx ⊢
    obtain ⟨hvx, hxv⟩ := h.mutual_root hx
    constructor
    · intro hw
      obtain ⟨hvw, hwv⟩ := h.mutual_root hw
      exact ⟨hxv.trans hvw, hwv.trans hvx⟩
    · rintro ⟨hxw, hwx⟩
      rcases h.paths_inside hall hx hxw with hw | hclosed
      · exact hw
      · -- a closed node reaches closed nodes only
        obtain ⟨low, hlow⟩ := (h.sound.active_iff x).1 (mem_active_of_mem_cons hx)
        have := h.sound.closed_reaches hclosed hwx
        simp [hlow] at this

/-- The marks after a component is complete. -/
theorem Scanning.mark_close (h : g.Scanning s₀ s v active grown true seen) (x : ℕ) :
    (s.close v).mark x = if x ∈ v :: grown then .closed else s.mark x := by
  obtain ⟨top, hstack, hperm⟩ := h.stack
  have hmem : x ∈ v :: top ↔ x ∈ v :: grown := by
    rw [List.mem_cons, List.mem_cons, hperm.mem_iff]
  rw [Search.close, h.part_eq hstack hperm, Search.mark, getD_foldl_closed]
  simp only [hmem]
  rfl

/-- The stack is what it was before the visit. -/
theorem Scanning.stack_close (h : g.Scanning s₀ s v active grown true seen) :
    (s.close v).stack = s₀.stack := by
  obtain ⟨top, hstack, hperm⟩ := h.stack
  rw [Search.close, h.part_eq hstack hperm, hstack, List.drop_left]

/-- The numbers of the component are free again. -/
theorem Scanning.next_close (h : g.Scanning s₀ s v active grown true seen) :
    (s.close v).next = active.length + 1 := by
  obtain ⟨top, hstack, hperm⟩ := h.stack
  simp only [Search.close, h.part_eq hstack hperm, h.sound.next, hperm.length_eq,
    List.length_append, List.length_cons]
  omega

theorem Scanning.mark_close_old (h : g.Scanning s₀ s v active grown true seen) (hx : x ∈ active) :
    (s.close v).mark x = s₀.mark x := by
  rw [h.mark_close, if_neg (h.old_not_mem hx), h.frame x hx]

theorem Scanning.active_of_close (h : g.Scanning s₀ s v active grown true seen) {low : ℕ}
    (hx : (s.close v).mark x = .active low) : x ∈ active := by
  rw [h.mark_close] at hx
  split at hx
  · cases hx
  · rename_i hnot
    have hxa := (h.sound.active_iff x).2 ⟨low, hx⟩
    rcases List.mem_append.1 hxa with hxg | hxa
    · exact absurd (List.mem_cons_of_mem _ hxg) hnot
    · rcases List.mem_cons.1 hxa with rfl | hxa
      · exact absurd (List.mem_cons_self ..) hnot
      · exact hxa

theorem Scanning.fresh_of_close (h : g.Scanning s₀ s v active grown true seen)
    (hx : (s.close v).mark x = .fresh) : s₀.mark x = .fresh := by
  rw [h.mark_close] at hx
  split at hx
  · cases hx
  · exact h.fresh x hx

theorem Scanning.closed_close_iff (h : g.Scanning s₀ s v active grown true seen) :
    (s.close v).mark x = .closed ↔ x ∈ v :: grown ∨ s.mark x = .closed := by
  rw [h.mark_close]
  split
  · rename_i hin
    exact ⟨fun _ => Or.inl hin, fun _ => rfl⟩
  · rename_i hnot
    exact ⟨Or.inr, fun hx => hx.resolve_left hnot⟩

/-- What was found, with the new component. -/
theorem Scanning.found_close (h : g.Scanning s₀ s v active grown true seen) :
    ∃ c, (s.close v).found = c :: s.found ∧ c.Perm (v :: grown) := by
  obtain ⟨top, hstack, hperm⟩ := h.stack
  refine ⟨top.reverse ++ [v], by rw [Search.close, h.part_eq hstack hperm], ?_⟩
  exact (List.perm_append_singleton v _).trans (((List.reverse_perm top).trans hperm).cons v)

/-- **Completing a component keeps the invariant.** -/
theorem Scanning.sound_close (h : g.Scanning s₀ s v active grown true seen)
    (hall : ∀ w, g.Edge v w → w ∈ seen) : g.Sound (s.close v) active := by
  obtain ⟨c, hfound, hperm⟩ := h.found_close
  have hcomponent := h.isComponent hall hperm
  refine ⟨?_, h.start.nodup, h.next_close, ?_, ?_, ?_, ?_, ?_, ?_, ?_, ?_, ?_, ?_⟩
  · rw [Search.close, length_foldl_closed]
    exact h.sound.length
  · intro x
    refine ⟨fun hx => ?_, fun ⟨low, hlow⟩ => h.active_of_close hlow⟩
    rw [h.mark_close_old hx]
    exact (h.start.active_iff x).1 hx
  · rw [h.stack_close]
    exact h.start.stack_active
  · -- active nodes are as they were before the visit, so are their low links
    intro x low hlow
    rw [h.mark_close_old (h.active_of_close hlow)] at hlow
    exact h.start.low_le x low hlow
  · intro x low hlow
    rw [h.mark_close_old (h.active_of_close hlow)] at hlow
    exact h.start.low_reach x low hlow
  · intro x hx low hlow
    rw [h.stack_close] at hx
    rw [h.mark_close_old (h.active_of_close hlow)] at hlow
    exact h.start.left_low x hx low hlow
  · intro x hx low hlow w hw
    rw [h.stack_close] at hx
    rw [h.mark_close_old (h.active_of_close hlow)] at hlow
    obtain ⟨hwf, hle⟩ := h.start.left_edges x hx low hlow w hw
    exact ⟨fun hf => hwf (h.fresh_of_close hf), hle⟩
  · intro x w hx hw
    rw [h.closed_close_iff] at hx ⊢
    rcases hx with hx | hx
    · exact h.edges_inside hall hx hw
    · exact Or.inr (h.sound.closed_edges x w hx hw)
  · intro x hx
    rw [h.closed_close_iff, hfound, h.sound.found_iff x hx, ← hperm.mem_iff]
    simp
  · intro d hd
    rw [hfound] at hd
    rcases List.mem_cons.1 hd with rfl | hd
    · exact hcomponent
    · exact h.sound.found_component d hd
  · rw [hfound, List.flatten_cons, List.nodup_append]
    refine ⟨hcomponent.nodup, h.sound.found_nodup, ?_⟩
    rintro x hx y hy rfl
    obtain ⟨d, hd, hxd⟩ := List.mem_flatten.1 hy
    -- the new component was active, the others are closed
    have hclosed := (h.sound.found_iff x (hcomponent.lt_size x hx)).2 ⟨d, hd, hxd⟩
    obtain ⟨low, hlow⟩ := (h.sound.active_iff x).1 (mem_active_of_mem_cons (hperm.mem_iff.1 hx))
    simp [hlow] at hclosed

/-- A node that does not reach back further completes a component. -/
theorem Scanning.leave_root (h : g.Scanning s₀ s v active grown true seen)
    (hall : ∀ w, g.Edge v w → w ∈ seen) : g.Visited s₀ (s.close v) active [] v := by
  refine ⟨h.sound_close hall, ⟨[], by simp [h.stack_close], List.Perm.refl _⟩,
    fun x hx => h.mark_close_old hx, ?_, fun x hx => h.fresh_of_close hx, by simp, ?_, by simp,
    fun _ => rfl⟩
  · intro x hx
    exact h.closed_close_iff.2 (Or.inr (h.closed x hx))
  · rw [h.closed_close_iff.2 (Or.inl (List.mem_cons_self ..))]
    simp

end Leave

/-! ### Visits -/

/-- The nodes that were not met yet. -/
def freshNodes (g : Digraph) (s : Search) : Finset ℕ :=
  (Finset.range g.size).filter fun v => s.mark v = .fresh

theorem mem_freshNodes (hlen : s.marks.length = g.size) :
    v ∈ g.freshNodes s ↔ s.mark v = .fresh := by
  rw [freshNodes, Finset.mem_filter, Finset.mem_range]
  exact ⟨fun h => h.2, fun h => ⟨lt_of_mark_ne_closed hlen (by simp [h]), h⟩⟩

/-- While a node is visited, fewer nodes are fresh than before. -/
theorem Scanning.freshNodes_lt {isRoot : Bool} {seen : List ℕ}
    (h : g.Scanning s₀ s v active grown isRoot seen) (hv : s₀.mark v = .fresh) :
    (g.freshNodes s).card < (g.freshNodes s₀).card := by
  obtain ⟨lv, hlv, _⟩ := h.low
  refine Finset.card_lt_card (Finset.ssubset_iff_of_subset ?_ |>.2 ⟨v, ?_, ?_⟩)
  · intro x hx
    rw [mem_freshNodes h.sound.length] at hx
    exact (mem_freshNodes h.start.length).2 (h.fresh x hx)
  · exact (mem_freshNodes h.start.length).2 hv
  · rw [mem_freshNodes h.sound.length, hlv]
    simp

/-- One step of a visit: a fresh successor is visited, and its low link taken over. -/
def lookAt (g : Digraph) (bound v : ℕ) (acc : Search × Bool) (w : ℕ) : Search × Bool :=
  let s := if acc.1.mark w = .fresh then g.visit bound w acc.1 else acc.1
  if s.reachesBack w v then (s.lower w v, false) else (s, acc.2)

theorem visit_succ (g : Digraph) (bound v : ℕ) (s : Search) :
    g.visit (bound + 1) v s =
      let r := (g.successors v).foldl (g.lookAt bound v) (s.enter v, true)
      r.1.leave v r.2 := rfl

/-- What is to be shown of visits with a given bound. -/
def VisitsSound (g : Digraph) (bound : ℕ) : Prop :=
  ∀ {s : Search} {active : List ℕ} {v : ℕ}, g.Sound s active → s.mark v = .fresh →
    (g.freshNodes s).card ≤ bound → ∃ grown, g.Visited s (g.visit bound v s) active grown v

/-- A successor is visited with a smaller bound if it is fresh, and left as it is otherwise. -/
theorem Scanning.lookAt {bound : ℕ} {acc : Search × Bool} {seen : List ℕ}
    (h : g.Scanning s₀ acc.1 v active grown acc.2 seen) (ih : g.VisitsSound bound)
    (hfresh : s₀.mark v = .fresh) (hcard : (g.freshNodes s₀).card ≤ bound + 1) (hedge : g.Edge v w) :
    ∃ grown', g.Scanning s₀ (g.lookAt bound v acc w).1 v active grown' (g.lookAt bound v acc w).2
      (w :: seen) := by
  obtain ⟨grown', hw⟩ : ∃ grown', g.Visited acc.1
      (if acc.1.mark w = .fresh then g.visit bound w acc.1 else acc.1)
      (grown ++ v :: active) grown' w := by
    split
    · rename_i hwf
      have hlt := h.freshNodes_lt hfresh
      exact ih h.sound hwf (by omega)
    · rename_i hwf
      exact ⟨[], h.sound.visited_self hwf⟩
  exact ⟨grown' ++ grown, h.look hw hedge⟩

/-- Looking at successors one after another. -/
theorem Scanning.foldl_look {bound : ℕ} (ih : g.VisitsSound bound) (hfresh : s₀.mark v = .fresh)
    (hcard : (g.freshNodes s₀).card ≤ bound + 1) :
    ∀ {ws : List ℕ} {acc : Search × Bool} {grown seen : List ℕ}, (∀ w ∈ ws, g.Edge v w) →
      g.Scanning s₀ acc.1 v active grown acc.2 seen →
      ∃ grown', g.Scanning s₀ (ws.foldl (g.lookAt bound v) acc).1 v active grown'
        (ws.foldl (g.lookAt bound v) acc).2 (ws.reverse ++ seen) := by
  intro ws
  induction ws with
  | nil => intro acc grown seen _ h; exact ⟨grown, h⟩
  | cons w ws ihws =>
      intro acc grown seen hedges h
      obtain ⟨grown', hnext⟩ := h.lookAt ih hfresh hcard (hedges w (List.mem_cons_self ..))
      have hrest := ihws (fun u hu => hedges u (List.mem_cons_of_mem _ hu)) hnext
      simpa using hrest

/-- **Every visit of a fresh node keeps the invariant**, if its bound allows for all fresh nodes. -/
theorem visit_spec (g : Digraph) (bound : ℕ) : g.VisitsSound bound := by
  induction bound with
  | zero =>
      intro s active v h hv hcard
      have hmem := (mem_freshNodes h.length).2 hv
      rw [Finset.card_eq_zero.1 (Nat.le_zero.1 hcard)] at hmem
      simp at hmem
  | succ bound ih =>
      intro s active v h hv hcard
      have hstart : g.Scanning s (s.enter v, true).1 v active [] (s.enter v, true).2 [] :=
        h.scanning hv
      obtain ⟨grown, hscan⟩ :=
        Scanning.foldl_look ih hv hcard (fun w hw => mem_successors.1 hw) hstart
      have hall : ∀ w, g.Edge v w → w ∈ (g.successors v).reverse ++ [] := by
        intro w hw
        simpa using mem_successors.2 hw
      rw [visit_succ]
      dsimp only
      generalize (g.successors v).foldl (g.lookAt bound v) (s.enter v, true) = r at hscan
      obtain ⟨t, isRoot⟩ := r
      cases isRoot with
      | true => exact ⟨[], hscan.leave_root hall⟩
      | false => exact ⟨grown ++ [v], hscan.leave_inner hall⟩

end Rebuild.Digraph
