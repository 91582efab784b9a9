/-
What the depth-first search for components knows.

`Digraph.visit` gives every node it meets a number and lowers it to that of the earliest active node
it can reach back to.  Numbers are used again once a component is complete, so a number alone says
nothing; what it stands for is a place in the list of the active nodes, latest first, which the
search itself does not keep.  The invariant is stated with that list.

Main definitions:

* `Digraph.Edge`, `Digraph.Reaches`, `Digraph.Mutual` — edges, paths, and paths both ways;
* `Digraph.IsComponent` — a list of all nodes that reach each other;
* `Digraph.rank` — the number that a node got when it became active;
* `Digraph.Sound` — **the invariant of the search**: low links lead to active nodes, nodes on the
  stack reach back further than themselves, and complete components are closed under edges;
* `Digraph.Visited`, `Digraph.Scanning` — what a visit does, and what it has done half-way.

Main results:

* `Digraph.Sound.enter`, `Digraph.Sound.lower` — entering a node and taking over a low link keep the
  invariant;
* `Digraph.Scanning.look` — **looking at one more successor** keeps what a visit has done so far.

How a visit ends, and that it always does, is in `Rebuild/Proofs/Digraph/Visit.lean`.
-/
import Rebuild.Digraph
import Mathlib

set_option relaxedAutoImplicit false
set_option autoImplicit false

namespace Rebuild.Digraph

open Relation

variable {g : Digraph} {s s' s₀ : Search} {active grown grown' : List ℕ} {u v w x : ℕ}

/-! ### Paths -/

def Edge (g : Digraph) (v w : ℕ) : Prop := (v, w) ∈ g.edges

/-- All edges are between nodes. -/
def Bounded (g : Digraph) : Prop := ∀ {v w}, g.Edge v w → v < g.size ∧ w < g.size

/-- There is a path, possibly of no edge. -/
def Reaches (g : Digraph) : ℕ → ℕ → Prop := ReflTransGen g.Edge

/-- There are paths both ways. -/
def Mutual (g : Digraph) (v w : ℕ) : Prop := g.Reaches v w ∧ g.Reaches w v

/-- All nodes that reach each other, each once. -/
structure IsComponent (g : Digraph) (c : List ℕ) : Prop where
  nodup : c.Nodup
  nonempty : c ≠ []
  lt_size : ∀ v ∈ c, v < g.size
  mem_iff : ∀ v ∈ c, ∀ w, w ∈ c ↔ g.Mutual v w

theorem mem_successors : w ∈ g.successors v ↔ g.Edge v w := by
  simp [successors, Edge]

/-! ### Numbers of active nodes -/

/-- The number of a node, given the active nodes, latest first: how many there are up to it. -/
def rank : List ℕ → ℕ → ℕ
  | [], _ => 0
  | v :: active, x => if x = v then active.length + 1 else rank active x

@[simp] theorem rank_cons_self (v : ℕ) (active : List ℕ) :
    rank (v :: active) v = active.length + 1 := by simp [rank]

theorem rank_cons_of_ne (h : x ≠ v) : rank (v :: active) x = rank active x := by simp [rank, h]

theorem rank_le (active : List ℕ) (x : ℕ) : rank active x ≤ active.length := by
  induction active with
  | nil => rfl
  | cons v active ih =>
      by_cases h : x = v
      · simp [h]
      · rw [rank_cons_of_ne h, List.length_cons]
        omega

theorem rank_pos (h : x ∈ active) : 0 < rank active x := by
  induction active with
  | nil => simp at h
  | cons v active ih =>
      by_cases hx : x = v
      · simp [hx]
      · rw [rank_cons_of_ne hx]
        exact ih ((List.mem_cons.1 h).resolve_left hx)

/-- Nodes that become active later do not change a number. -/
theorem rank_append_of_notMem (h : x ∉ grown) : rank (grown ++ active) x = rank active x := by
  induction grown with
  | nil => rfl
  | cons v grown ih =>
      have hne : x ≠ v := by
        rintro rfl
        exact h (List.mem_cons_self ..)
      rw [List.cons_append, rank_cons_of_ne hne]
      exact ih fun hx => h (List.mem_cons_of_mem _ hx)

/-- Nodes that become active later have greater numbers. -/
theorem lt_rank_append (h : x ∈ grown) : active.length < rank (grown ++ active) x := by
  induction grown with
  | nil => simp at h
  | cons v grown ih =>
      by_cases hx : x = v
      · rw [hx, List.cons_append, rank_cons_self, List.length_append]
        omega
      · rw [List.cons_append, rank_cons_of_ne hx]
        exact ih ((List.mem_cons.1 h).resolve_left hx)

/-! ### Marks -/

theorem lt_of_mark_ne_closed (hlen : s.marks.length = g.size) (h : s.mark v ≠ .closed) :
    v < g.size := by
  by_contra hv
  refine h ?_
  simp [Search.mark, List.getD_eq_getElem?_getD, hlen, Nat.le_of_not_lt hv]

theorem getD_set_mark (marks : List Mark) (m : Mark) (v x : ℕ) (hv : v < marks.length) :
    (marks.set v m).getD x .closed = if x = v then m else marks.getD x .closed := by
  by_cases h : x = v
  · subst h
    simp [List.getD_eq_getElem?_getD, hv]
  · have hvx : v ≠ x := fun hvx => h hvx.symm
    simp [List.getD_eq_getElem?_getD, h, hvx]

theorem mark_enter (hv : v < s.marks.length) :
    (s.enter v).mark x = if x = v then .active s.next else s.mark x :=
  getD_set_mark s.marks _ v x hv

theorem mark_lower (hv : v < s.marks.length) :
    (s.lower w v).mark x = if x = v then s.mark w else s.mark x :=
  getD_set_mark s.marks _ v x hv

theorem getD_foldl_closed (nodes : List ℕ) (marks : List Mark) (x : ℕ) :
    (nodes.foldl (fun marks w => marks.set w .closed) marks).getD x .closed =
      if x ∈ nodes then .closed else marks.getD x .closed := by
  induction nodes generalizing marks with
  | nil => simp
  | cons v nodes ih =>
      rw [List.foldl_cons, ih]
      by_cases hv : v < marks.length
      · rw [getD_set_mark _ _ _ _ hv]
        by_cases hx : x ∈ nodes <;> by_cases hxv : x = v <;> simp [hx, hxv]
      · -- out of range every node counts as closed
        rw [List.set_eq_of_length_le (Nat.le_of_not_lt hv)]
        by_cases hxv : x = v
        · subst hxv
          simp [List.getD_eq_getElem?_getD, Nat.le_of_not_lt hv]
        · simp [hxv]

theorem length_foldl_closed (nodes : List ℕ) (marks : List Mark) :
    (nodes.foldl (fun marks w => marks.set w .closed) marks).length = marks.length := by
  induction nodes generalizing marks with
  | nil => rfl
  | cons v nodes ih => rw [List.foldl_cons, ih, List.length_set]

theorem reachesBack_iff :
    s.reachesBack w v = true ↔
      ∃ lw lv, s.mark w = .active lw ∧ s.mark v = .active lv ∧ lw < lv := by
  unfold Search.reachesBack
  split
  · rename_i lw lv hw hv
    simp [hw, hv]
  · rename_i hno
    constructor
    · intro h
      cases h
    · rintro ⟨lw, lv, hw, hv, _⟩
      exact absurd hv (hno lw lv hw)

/-! ### The invariant -/

/-- **The invariant of the search**, given its active nodes, latest first. -/
structure Sound (g : Digraph) (s : Search) (active : List ℕ) : Prop where
  length : s.marks.length = g.size
  nodup : active.Nodup
  next : s.next = active.length + 1
  active_iff : ∀ v, v ∈ active ↔ ∃ low, s.mark v = .active low
  stack_active : ∀ v ∈ s.stack, v ∈ active
  low_le : ∀ v low, s.mark v = .active low → low ≤ rank active v
  low_reach : ∀ v low, s.mark v = .active low → ∃ y ∈ active, rank active y = low ∧ g.Reaches v y
  left_low : ∀ v ∈ s.stack, ∀ low, s.mark v = .active low → low < rank active v
  left_edges : ∀ v ∈ s.stack, ∀ low, s.mark v = .active low → ∀ w, g.Edge v w →
    s.mark w ≠ .fresh ∧ (w ∈ active → low ≤ rank active w)
  closed_edges : ∀ v w, s.mark v = .closed → g.Edge v w → s.mark w = .closed
  found_iff : ∀ v < g.size, s.mark v = .closed ↔ ∃ c ∈ s.found, v ∈ c
  found_component : ∀ c ∈ s.found, g.IsComponent c
  found_nodup : s.found.flatten.Nodup

theorem Sound.closed_reaches (h : g.Sound s active) (hv : s.mark v = .closed)
    (hvw : g.Reaches v w) : s.mark w = .closed := by
  induction hvw with
  | refl => exact hv
  | tail _ hstep ih => exact h.closed_edges _ _ ih hstep

theorem Sound.lt_size (h : g.Sound s active) (hv : v ∈ active) : v < g.size := by
  obtain ⟨low, hlow⟩ := (h.active_iff v).1 hv
  exact lt_of_mark_ne_closed h.length (by simp [hlow])

/-- A mark is fresh, active or closed. -/
theorem Sound.closed_of_not (h : g.Sound s active) (hfresh : s.mark v ≠ .fresh)
    (hactive : v ∉ active) : s.mark v = .closed := by
  cases hm : s.mark v with
  | fresh => exact absurd hm hfresh
  | active low => exact absurd ((h.active_iff v).2 ⟨low, hm⟩) hactive
  | closed => rfl

/-- What a visit of `v` does: the nodes in `grown` are the new active ones, and all of them are on the
stack.  If `v` is active, none of them reaches back further than it. -/
structure Visited (g : Digraph) (s s' : Search) (active grown : List ℕ) (v : ℕ) : Prop where
  sound : g.Sound s' (grown ++ active)
  stack : ∃ top, s'.stack = top ++ s.stack ∧ top.Perm grown
  frame : ∀ x ∈ active, s'.mark x = s.mark x
  closed : ∀ x, s.mark x = .closed → s'.mark x = .closed
  fresh : ∀ x, s'.mark x = .fresh → s.mark x = .fresh
  reach : ∀ x ∈ grown, g.Reaches v x
  met : s'.mark v ≠ .fresh
  low : ∀ low, s'.mark v = .active low → ∀ x ∈ grown, ∀ l, s'.mark x = .active l → low ≤ l
  complete : s'.mark v = .closed → grown = []

/-- A node that was met before need not be visited. -/
theorem Sound.visited_self (h : g.Sound s active) (hv : s.mark v ≠ .fresh) :
    g.Visited s s active [] v where
  sound := h
  stack := ⟨[], rfl, List.Perm.refl _⟩
  frame := fun _ _ => rfl
  closed := fun _ hx => hx
  fresh := fun _ hx => hx
  reach := by simp
  met := hv
  low := by simp
  complete := fun _ => rfl

/-- A visit of `v` half-way: it has looked at the nodes in `seen`, and `s₀` is the search before it. -/
structure Scanning (g : Digraph) (s₀ s : Search) (v : ℕ) (active grown : List ℕ) (isRoot : Bool)
    (seen : List ℕ) : Prop where
  start : g.Sound s₀ active
  sound : g.Sound s (grown ++ v :: active)
  stack : ∃ top, s.stack = top ++ s₀.stack ∧ top.Perm grown
  frame : ∀ x ∈ active, s.mark x = s₀.mark x
  closed : ∀ x, s₀.mark x = .closed → s.mark x = .closed
  fresh : ∀ x, s.mark x = .fresh → s₀.mark x = .fresh
  reach : ∀ x ∈ grown, g.Reaches v x
  low : ∃ low, s.mark v = .active low ∧ (isRoot = true ↔ low = active.length + 1) ∧
    (∀ x ∈ grown, ∀ l, s.mark x = .active l → low ≤ l) ∧
    ∀ w ∈ seen, s.mark w ≠ .fresh ∧
      (w ∈ grown ++ v :: active → low ≤ rank (grown ++ v :: active) w)

/-! ### Entering a node -/

theorem Sound.enter (h : g.Sound s active) (hv : s.mark v = .fresh) :
    g.Sound (s.enter v) (v :: active) := by
  have hlt : v < s.marks.length := by
    rw [h.length]
    exact lt_of_mark_ne_closed h.length (by simp [hv])
  have hnot : v ∉ active := by
    intro hmem
    obtain ⟨low, hlow⟩ := (h.active_iff v).1 hmem
    simp [hv] at hlow
  have hmark : ∀ x, (s.enter v).mark x = if x = v then .active s.next else s.mark x :=
    fun x => mark_enter hlt
  have hself : (s.enter v).mark v = .active (active.length + 1) := by simp [hmark, h.next]
  have hother : ∀ {x}, x ≠ v → (s.enter v).mark x = s.mark x := by
    intro x hx
    simp [hmark, hx]
  have hstack : (s.enter v).stack = s.stack := rfl
  have hne : ∀ {x}, x ∈ active → x ≠ v := by
    rintro x hx rfl
    exact hnot hx
  refine ⟨?_, List.nodup_cons.2 ⟨hnot, h.nodup⟩, ?_, ?_, ?_, ?_, ?_, ?_, ?_, ?_, ?_,
    h.found_component, h.found_nodup⟩
  · rw [Search.enter, List.length_set]
    exact h.length
  · rw [Search.enter, h.next, List.length_cons]
  · intro x
    by_cases hx : x = v
    · subst hx
      simp [hself]
    · rw [hother hx, List.mem_cons, ← h.active_iff x]
      simp [hx]
  · intro x hx
    exact List.mem_cons_of_mem _ (h.stack_active x hx)
  · intro x low hlow
    by_cases hx : x = v
    · subst hx
      rw [hself] at hlow
      cases hlow
      simp
    · rw [hother hx] at hlow
      rw [rank_cons_of_ne hx]
      exact h.low_le x low hlow
  · intro x low hlow
    by_cases hx : x = v
    · subst hx
      rw [hself] at hlow
      cases hlow
      exact ⟨x, List.mem_cons_self .., by simp, ReflTransGen.refl⟩
    · rw [hother hx] at hlow
      obtain ⟨y, hy, hrank, hreach⟩ := h.low_reach x low hlow
      exact ⟨y, List.mem_cons_of_mem _ hy, by rw [rank_cons_of_ne (hne hy), hrank], hreach⟩
  · intro x hx low hlow
    have hxv := hne (h.stack_active x hx)
    rw [hother hxv] at hlow
    rw [rank_cons_of_ne hxv]
    exact h.left_low x hx low hlow
  · -- successors of nodes on the stack are not fresh, so the entered node is none of them
    intro x hx low hlow w hw
    have hxv := hne (h.stack_active x hx)
    rw [hother hxv] at hlow
    obtain ⟨hfresh, hle⟩ := h.left_edges x hx low hlow w hw
    have hwv : w ≠ v := fun hwv => hfresh (hwv ▸ hv)
    rw [hother hwv, rank_cons_of_ne hwv]
    exact ⟨hfresh, fun hmem => hle ((List.mem_cons.1 hmem).resolve_left hwv)⟩
  · intro x w hx hw
    have hxv : x ≠ v := by
      rintro rfl
      simp [hself] at hx
    rw [hother hxv] at hx
    have hwc := h.closed_edges x w hx hw
    have hwv : w ≠ v := by
      rintro rfl
      simp [hv] at hwc
    rw [hother hwv, hwc]
  · intro x hx
    rw [← show s.found = (s.enter v).found from rfl, ← h.found_iff x hx]
    by_cases hxv : x = v
    · subst hxv
      simp [hself, hv]
    · rw [hother hxv]

theorem Sound.scanning (h : g.Sound s active) (hv : s.mark v = .fresh) :
    g.Scanning s (s.enter v) v active [] true [] := by
  have hlt : v < s.marks.length := by
    rw [h.length]
    exact lt_of_mark_ne_closed h.length (by simp [hv])
  refine ⟨h, h.enter hv, ⟨[], rfl, List.Perm.refl _⟩, ?_, ?_, ?_, by simp, ?_⟩
  · intro x hx
    rw [mark_enter hlt, if_neg]
    rintro rfl
    obtain ⟨low, hlow⟩ := (h.active_iff x).1 hx
    simp [hv] at hlow
  · intro x hx
    rw [mark_enter hlt, if_neg, hx]
    rintro rfl
    simp [hv] at hx
  · intro x hx
    by_cases hxv : x = v
    · rw [hxv, hv]
    · rwa [mark_enter hlt, if_neg hxv] at hx
  · exact ⟨active.length + 1, by simp [mark_enter hlt, h.next], by simp, by simp, by simp⟩

/-! ### Looking at a successor -/

/-- Taking over the low link of a successor that reaches back further. -/
theorem Sound.lower (h : g.Sound s active) (hv : v ∉ s.stack) {lw lv : ℕ}
    (hmw : s.mark w = .active lw) (hmv : s.mark v = .active lv) (hlt : lw < lv)
    (hedge : g.Edge v w) : g.Sound (s.lower w v) active := by
  have hvl : v < s.marks.length := by
    rw [h.length]
    exact h.lt_size ((h.active_iff v).2 ⟨lv, hmv⟩)
  have hself : (s.lower w v).mark v = .active lw := by rw [mark_lower hvl, if_pos rfl, hmw]
  have hother : ∀ {x}, x ≠ v → (s.lower w v).mark x = s.mark x := by
    intro x hx
    rw [mark_lower hvl, if_neg hx]
  have hfresh : ∀ {x}, (s.lower w v).mark x = .fresh ↔ s.mark x = .fresh := by
    intro x
    by_cases hx : x = v
    · subst hx
      simp [hself, hmv]
    · rw [hother hx]
  have hclosed : ∀ {x}, (s.lower w v).mark x = .closed ↔ s.mark x = .closed := by
    intro x
    by_cases hx : x = v
    · subst hx
      simp [hself, hmv]
    · rw [hother hx]
  have hne : ∀ {x}, x ∈ s.stack → x ≠ v := by
    rintro x hx rfl
    exact hv hx
  refine ⟨?_, h.nodup, h.next, ?_, h.stack_active, ?_, ?_, ?_, ?_, ?_, ?_, h.found_component,
    h.found_nodup⟩
  · rw [Search.lower, List.length_set]
    exact h.length
  · intro x
    by_cases hx : x = v
    · subst hx
      simp [h.active_iff, hself, hmv]
    · rw [hother hx, h.active_iff]
  · intro x low hlow
    by_cases hx : x = v
    · subst hx
      rw [hself] at hlow
      cases hlow
      exact (le_of_lt hlt).trans (h.low_le x lv hmv)
    · rw [hother hx] at hlow
      exact h.low_le x low hlow
  · intro x low hlow
    by_cases hx : x = v
    · subst hx
      rw [hself] at hlow
      cases hlow
      -- the low link of the successor, one edge further away
      obtain ⟨y, hy, hrank, hreach⟩ := h.low_reach w lw hmw
      exact ⟨y, hy, hrank, ReflTransGen.head hedge hreach⟩
    · rw [hother hx] at hlow
      exact h.low_reach x low hlow
  · intro x hx low hlow
    rw [hother (hne hx)] at hlow
    exact h.left_low x hx low hlow
  · intro x hx low hlow y hy
    rw [hother (hne hx)] at hlow
    rw [Ne, hfresh]
    exact h.left_edges x hx low hlow y hy
  · intro x y hx hy
    rw [hclosed] at hx ⊢
    exact h.closed_edges x y hx hy
  · intro x hx
    rw [hclosed]
    exact h.found_iff x hx

section Look

variable {isRoot isRoot' : Bool} {seen : List ℕ}

theorem Scanning.not_mem_grown (h : g.Scanning s₀ s v active grown isRoot seen) : v ∉ grown := by
  intro hv
  exact (List.nodup_append.1 h.sound.nodup).2.2 v hv v (List.mem_cons_self ..) rfl

theorem Scanning.not_mem_active (h : g.Scanning s₀ s v active grown isRoot seen) : v ∉ active :=
  (List.nodup_cons.1 (List.nodup_append.1 h.sound.nodup).2.1).1

/-- The node that is visited is not on the stack. -/
theorem Scanning.not_mem_stack (h : g.Scanning s₀ s v active grown isRoot seen) : v ∉ s.stack := by
  obtain ⟨top, hstack, hperm⟩ := h.stack
  intro hv
  rw [hstack] at hv
  rcases List.mem_append.1 hv with hv | hv
  · exact h.not_mem_grown (hperm.mem_iff.1 hv)
  · exact h.not_mem_active (h.start.stack_active v hv)

/-- The number of the node that is visited: all that became active since have greater ones. -/
theorem Scanning.rank_self (h : g.Scanning s₀ s v active grown isRoot seen) :
    rank (grown ++ v :: active) v = active.length + 1 := by
  rw [rank_append_of_notMem h.not_mem_grown, rank_cons_self]

/-- A successor was visited; whatever low link `v` has then, it may not be above the one it had, nor
above that of the successor. -/
theorem Scanning.extend (h : g.Scanning s₀ s v active grown isRoot seen)
    (hw : g.Visited s s' (grown ++ v :: active) grown' w) {t : Search} {low : ℕ}
    (hsound : g.Sound t ((grown' ++ grown) ++ v :: active)) (hstack : t.stack = s'.stack)
    (hother : ∀ {x}, x ≠ v → t.mark x = s'.mark x) (hself : t.mark v = .active low)
    (hroot : isRoot' = true ↔ low = active.length + 1) (hreach : g.Reaches v w)
    (hle : ∀ lv, s.mark v = .active lv → low ≤ lv)
    (hlw : ∀ lw, s'.mark w = .active lw → low ≤ lw) :
    g.Scanning s₀ t v active (grown' ++ grown) isRoot' (w :: seen) := by
  obtain ⟨lv, hlv, _, hgrown, hseen⟩ := h.low
  have hnodup := hsound.nodup
  have hnv : v ∉ grown' ++ grown := fun hv =>
    (List.nodup_append.1 hnodup).2.2 v hv v (List.mem_cons_self ..) rfl
  have hne : ∀ {x}, x ∈ grown' ++ grown → x ≠ v := by
    rintro x hx rfl
    exact hnv hx
  have hold : ∀ {x}, x ∈ grown ++ v :: active → x ∉ grown' := by
    intro x hx hx'
    rw [List.append_assoc] at hnodup
    exact (List.nodup_append.1 hnodup).2.2 x hx' x hx rfl
  have hfresh : ∀ {x}, t.mark x = .fresh → s'.mark x = .fresh := by
    intro x hx
    by_cases hxv : x = v
    · subst hxv
      simp [hself] at hx
    · rwa [hother hxv] at hx
  have hbound : lv ≤ active.length + 1 := h.rank_self ▸ h.sound.low_le v lv hlv
  refine ⟨h.start, hsound, ?_, ?_, ?_, ?_, ?_, low, hself, hroot, ?_, ?_⟩
  · obtain ⟨top, htop, hperm⟩ := h.stack
    obtain ⟨top', htop', hperm'⟩ := hw.stack
    exact ⟨top' ++ top, by rw [hstack, htop', htop, List.append_assoc], hperm'.append hperm⟩
  · intro x hx
    have hxv : x ≠ v := by
      rintro rfl
      exact h.not_mem_active hx
    rw [hother hxv, hw.frame x (List.mem_append_right _ (List.mem_cons_of_mem _ hx)), h.frame x hx]
  · intro x hx
    have hxc := h.closed x hx
    have hxv : x ≠ v := by
      rintro rfl
      simp [hlv] at hxc
    rw [hother hxv, hw.closed x hxc]
  · exact fun x hx => h.fresh x (hw.fresh x (hfresh hx))
  · intro x hx
    rcases List.mem_append.1 hx with hx | hx
    · exact hreach.trans (hw.reach x hx)
    · exact h.reach x hx
  · intro x hx l hl
    rw [hother (hne hx)] at hl
    rcases List.mem_append.1 hx with hx | hx
    · -- a new active node: the successor itself is active then, and reaches back at least as far
      cases hm : s'.mark w with
      | fresh => exact absurd hm hw.met
      | active lw => exact (hlw lw hm).trans (hw.low lw hm x hx l hl)
      | closed =>
          rw [hw.complete hm] at hx
          simp at hx
    · rw [hw.frame x (List.mem_append_left _ hx)] at hl
      exact (hle lv hlv).trans (hgrown x hx l hl)
  · intro y hy
    rcases List.mem_cons.1 hy with rfl | hy
    · refine ⟨fun hf => hw.met (hfresh hf), fun hmem => ?_⟩
      rw [List.append_assoc] at hmem ⊢
      obtain ⟨ly, hly⟩ := (hw.sound.active_iff y).1 hmem
      exact (hlw ly hly).trans (hw.sound.low_le y ly hly)
    · obtain ⟨hyf, hyr⟩ := hseen y hy
      refine ⟨fun hf => hyf (hw.fresh y (hfresh hf)), fun hmem => ?_⟩
      rw [List.append_assoc] at hmem ⊢
      rcases List.mem_append.1 hmem with hmem | hmem
      · -- whatever became active during the visit has a greater number than all before it
        have hlt : (grown ++ v :: active).length < rank (grown' ++ (grown ++ v :: active)) y :=
          lt_rank_append hmem
        simp only [List.length_append, List.length_cons] at hlt
        have := hle lv hlv
        omega
      · rw [rank_append_of_notMem (hold hmem)]
        exact (hle lv hlv).trans (hyr hmem)

/-- **Looking at one more successor keeps the invariant.** -/
theorem Scanning.look (h : g.Scanning s₀ s v active grown isRoot seen)
    (hw : g.Visited s s' (grown ++ v :: active) grown' w) (hedge : g.Edge v w) :
    let r := if s'.reachesBack w v then (s'.lower w v, false) else (s', isRoot)
    g.Scanning s₀ r.1 v active (grown' ++ grown) r.2 (w :: seen) := by
  obtain ⟨lv, hlv, hroot, _⟩ := h.low
  have hmem : v ∈ grown ++ v :: active := by simp
  have hmv : s'.mark v = .active lv := by rw [hw.frame v hmem, hlv]
  have hsound : g.Sound s' ((grown' ++ grown) ++ v :: active) := by
    rw [List.append_assoc]
    exact hw.sound
  have hreach : g.Reaches v w := ReflTransGen.single hedge
  -- either way `Scanning.extend` applies: with the low link of the successor, or with its own
  by_cases hback : s'.reachesBack w v = true
  · simp only [if_pos hback]
    obtain ⟨lw, lv', hmw, hmv', hlt⟩ := reachesBack_iff.1 hback
    obtain rfl : lv = lv' := by simpa [hmv] using hmv'
    have hnot : v ∉ s'.stack := by
      obtain ⟨top, htop, hperm⟩ := hw.stack
      intro hv
      rw [htop] at hv
      rcases List.mem_append.1 hv with hv | hv
      · exact (List.nodup_append.1 hw.sound.nodup).2.2 v (hperm.mem_iff.1 hv) v hmem rfl
      · exact h.not_mem_stack hv
    have hvl : v < s'.marks.length := by
      rw [hsound.length]
      exact hsound.lt_size ((hsound.active_iff v).2 ⟨lv, hmv⟩)
    have hle : lv ≤ active.length + 1 := h.rank_self ▸ h.sound.low_le v lv hlv
    have hself : (s'.lower w v).mark v = .active lw := by rw [mark_lower hvl, if_pos rfl, hmw]
    refine h.extend hw (hsound.lower hnot hmw hmv hlt hedge) rfl ?_ hself ?_ hreach ?_ ?_
    · intro x hx
      rw [mark_lower hvl, if_neg hx]
    · simp only [Bool.false_eq_true, false_iff]
      omega
    · intro l hl
      obtain rfl : lv = l := by simpa [hlv] using hl
      exact le_of_lt hlt
    · intro l hl
      obtain rfl : lw = l := by simpa [hmw] using hl
      exact le_refl _
  · simp only [if_neg hback]
    refine h.extend hw hsound rfl (fun _ => rfl) hmv hroot hreach ?_ ?_
    · intro l hl
      obtain rfl : lv = l := by simpa [hlv] using hl
      exact le_refl _
    · intro lw hlw
      by_contra hlt
      exact hback (reachesBack_iff.2 ⟨lw, lv, hlw, hmv, Nat.lt_of_not_le hlt⟩)

end Look

end Rebuild.Digraph
