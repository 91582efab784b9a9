/-
Placing nodes one at a time.

`OrderGraph.order?` keeps counters: how many hard edges into each node come from nodes that are not
placed.  Here the counters are shown to count just that, so that each step can be described without
them: it places the first node whose edges all come from placed nodes, or, where there is none, the
first whose hard edges do.

Main definitions:

* `OrderGraph.Hard`, `OrderGraph.Soft`, `OrderGraph.Bounded` — edges as relations, between nodes;
* `OrderGraph.Counted` — the invariant of the counters;
* `OrderGraph.Ready`, `OrderGraph.Free` — nodes that can be placed, by the edges into them;
* `OrderGraph.Choice`, `OrderGraph.Run` — what one step places, and what a run of steps places.

Main results:

* `exists_cycle_of_backward` — a finite set in which every element has a predecessor holds a cycle;
* `OrderGraph.counted_begin`, `OrderGraph.Counted.place` — **the counters stay true**;
* `OrderGraph.order?_eq_some_iff`, `OrderGraph.order?_none` — **an order is a run through all nodes**;
  without one, the hard edges have a cycle;
* `OrderGraph.order?_congr` — the list form of the edges does not matter;
* `OrderGraph.Run.perm_range`, `OrderGraph.Run.hard_before` — a full run lists every node once, and
  behind all that it needs.
-/
import Rebuild.TaskGraph.Order
import Mathlib

set_option relaxedAutoImplicit false
set_option autoImplicit false

namespace Rebuild

open Relation

/-! ### Paths and cycles -/

/-- A number that grows with every step grows along a path. -/
theorem rank_lt_of_transGen {α : Type} {r : α → α → Prop} (rank : α → ℕ)
    (hstep : ∀ a b, r a b → rank a < rank b) {a b : α} (h : TransGen r a b) : rank a < rank b := by
  induction h with
  | single hab => exact hstep _ _ hab
  | tail _ hbc ih => exact ih.trans (hstep _ _ hbc)

/-- If every element of a finite set has a predecessor in it, the set holds a cycle. -/
theorem exists_cycle_of_backward {α : Type} (r : α → α → Prop) (s : Set α) (hs : s.Finite)
    (hne : s.Nonempty) (hback : ∀ x ∈ s, ∃ y ∈ s, r y x) :
    ∃ x ∈ s, TransGen (fun a b => r a b ∧ a ∈ s ∧ b ∈ s) x x := by
  by_contra hno
  -- without a cycle the steps inside `s` generate a strict order, and `s` has a minimal element
  let q : α → α → Prop := TransGen fun a b => r a b ∧ a ∈ s ∧ b ∈ s
  have hirrefl : ∀ x, ¬ q x x := by
    intro x hx
    obtain ⟨y, _, hy⟩ := TransGen.tail'_iff.1 hx
    exact hno ⟨x, hy.2.2, hx⟩
  have : IsStrictOrder α q :=
    { irrefl := hirrefl, trans := fun _ _ _ => TransGen.trans }
  obtain ⟨x, hx⟩ := hne
  obtain ⟨⟨m, hm⟩, _, hmin⟩ := (hs.wellFoundedOn (r := q)).has_min Set.univ ⟨⟨x, hx⟩, trivial⟩
  obtain ⟨y, hy, hym⟩ := hback m hm
  exact hmin ⟨y, hy⟩ trivial (TransGen.single ⟨hym, hy, hm⟩)

/-- If every number below `n` that is not placed has a predecessor that is not placed either, then
those that are not placed hold a cycle. -/
theorem exists_cycle_of_stuck {n : ℕ} {r : ℕ → ℕ → Prop} {placed : List ℕ}
    (hr : ∀ {u v}, r u v → u < n) {v : ℕ} (hv : v < n) (hnot : v ∉ placed)
    (hback : ∀ w < n, w ∉ placed → ∃ u, r u w ∧ u ∉ placed) :
    ∃ w < n, w ∉ placed ∧ TransGen (fun a b => r a b ∧ a ∉ placed ∧ b ∉ placed) w w := by
  let waiting : Set ℕ := {w | w < n ∧ w ∉ placed}
  have hfin : waiting.Finite := (Set.finite_lt_nat n).subset fun w hw => hw.1
  have hpred : ∀ w ∈ waiting, ∃ u ∈ waiting, r u w := by
    rintro w ⟨hw, hwn⟩
    obtain ⟨u, hu, hun⟩ := hback w hw hwn
    exact ⟨u, ⟨hr hu, hun⟩, hu⟩
  obtain ⟨w, hw, hcycle⟩ := exists_cycle_of_backward r waiting hfin ⟨v, hv, hnot⟩ hpred
  refine ⟨w, hw.1, hw.2, TransGen.mono (fun a b hab => ?_) _ _ hcycle⟩
  exact ⟨hab.1, hab.2.1.2, hab.2.2.2⟩

namespace OrderGraph

variable {g : OrderGraph} {p : Progress} {placed rest : List ℕ} {u v : ℕ}

/-! ### Edges -/

/-- The second node needs the first. -/
def Hard (g : OrderGraph) (u v : ℕ) : Prop := (u, v) ∈ g.hard

/-- The second node would rather follow the first. -/
def Soft (g : OrderGraph) (u v : ℕ) : Prop := (u, v) ∈ g.soft

/-- All edges are between nodes. -/
structure Bounded (g : OrderGraph) : Prop where
  hard : ∀ {u v}, g.Hard u v → u < g.size ∧ v < g.size
  soft : ∀ {u v}, g.Soft u v → u < g.size ∧ v < g.size

theorem mem_hardInto : u ∈ g.hardInto v ↔ g.Hard u v := by
  simp [hardInto, Hard]

theorem mem_softInto : u ∈ g.softInto v ↔ g.Soft u v := by
  simp [softInto, Soft]

/-! ### Counters -/

/-- **The invariant of the counters**: each counts the hard edges from nodes that are not placed. -/
structure Counted (g : OrderGraph) (p : Progress) : Prop where
  length : p.waiting.length = g.size
  waiting : ∀ v < g.size, p.waiting.getD v 0 = (g.hardInto v).countP (· ∉ p.placed)

theorem length_foldl_relax (targets waiting : List ℕ) :
    (targets.foldl relax waiting).length = waiting.length := by
  induction targets generalizing waiting with
  | nil => rfl
  | cons t ts ih => rw [List.foldl_cons, ih, relax, List.length_set]

theorem getD_relax (waiting : List ℕ) (t v : ℕ) :
    (relax waiting t).getD v 0 = waiting.getD v 0 - if t = v then 1 else 0 := by
  unfold relax
  by_cases h : t = v
  · subst h
    by_cases hlt : t < waiting.length
    · simp [List.getD_eq_getElem?_getD, hlt]
    · simp [List.getD_eq_getElem?_getD, Nat.not_lt.1 hlt]
  · simp [List.getD_eq_getElem?_getD, h]

theorem getD_foldl_relax (targets waiting : List ℕ) (v : ℕ) :
    (targets.foldl relax waiting).getD v 0 = waiting.getD v 0 - targets.count v := by
  induction targets generalizing waiting with
  | nil => simp
  | cons t ts ih =>
      rw [List.foldl_cons, ih, getD_relax, List.count_cons]
      by_cases h : t = v
      · simp only [h, if_true, beq_self_eq_true]
        omega
      · simp [h]

/-- The edges from `u` to `v` are counted alike from both ends. -/
theorem count_targets (g : OrderGraph) (u v : ℕ) :
    ((g.hard.filter (·.1 == u)).map (·.2)).count v = (g.hardInto v).count u := by
  unfold hardInto
  induction g.hard with
  | nil => rfl
  | cons e es ih =>
      by_cases h₁ : e.1 = u <;> by_cases h₂ : e.2 = v <;> simp [h₁, h₂, ih]

/-- Placing a node takes its own edges out of the count. -/
theorem countP_not_mem_concat (l : List ℕ) (hu : u ∉ placed) :
    l.countP (· ∉ placed ++ [u]) = l.countP (· ∉ placed) - l.count u := by
  -- without subtraction the induction goes through
  have hsplit : l.countP (· ∉ placed) = l.countP (· ∉ placed ++ [u]) + l.count u := by
    induction l with
    | nil => rfl
    | cons a as ih =>
        by_cases hau : a = u
        · subst hau
          simp [hu]
          simp at ih
          omega
        · by_cases ha : a ∈ placed <;> simp [ha, hau] <;> simp at ih <;> omega
  omega

theorem counted_begin (g : OrderGraph) : g.Counted g.begin where
  length := by simp [begin]
  waiting := by
    intro v hv
    simp [begin, List.getD_eq_getElem?_getD, hv]

/-- **Placing a node keeps the counters true.** -/
theorem Counted.place (h : g.Counted p) (hv : v ∉ p.placed) : g.Counted (g.place p v) where
  length := by
    rw [OrderGraph.place, length_foldl_relax]
    exact h.length
  waiting := by
    intro w hw
    rw [OrderGraph.place, getD_foldl_relax, h.waiting w hw, count_targets,
      countP_not_mem_concat _ hv]

/-! ### One step -/

/-- A node that is not placed, while all that it needs is. -/
def Ready (g : OrderGraph) (placed : List ℕ) (v : ℕ) : Prop :=
  v < g.size ∧ v ∉ placed ∧ ∀ u, g.Hard u v → u ∈ placed

/-- A ready node whose soft edges come from placed nodes as well. -/
def Free (g : OrderGraph) (placed : List ℕ) (v : ℕ) : Prop :=
  g.Ready placed v ∧ ∀ u, g.Soft u v → u ∈ placed

/-- What one step places: the first free node, or the first ready one if none is free. -/
structure Choice (g : OrderGraph) (placed : List ℕ) (v : ℕ) : Prop where
  ready : g.Ready placed v
  free : ∀ u, g.Free placed u → g.Free placed v ∧ v ≤ u
  fallback : (∀ u, ¬ g.Free placed u) → ∀ u, g.Ready placed u → v ≤ u

theorem mem_ready (h : g.Counted p) : v ∈ g.ready p ↔ g.Ready p.placed v := by
  unfold ready Ready
  simp only [List.mem_filter, List.mem_range, Bool.and_eq_true, Bool.not_eq_eq_eq_not,
    Bool.not_true, List.contains_eq_mem, decide_eq_false_iff_not, beq_iff_eq]
  refine and_congr_right fun hv => and_congr_right fun _ => ?_
  rw [h.waiting v hv, List.countP_eq_zero]
  simp only [mem_hardInto, decide_eq_true_eq, not_not]

theorem ready_sorted (g : OrderGraph) (p : Progress) : (g.ready p).Pairwise (· < ·) :=
  List.pairwise_lt_range.filter _

theorem softDone_iff : g.softDone p v = true ↔ ∀ u, g.Soft u v → u ∈ p.placed := by
  simp [softDone, mem_softInto]

theorem free_iff (h : g.Counted p) :
    g.Free p.placed v ↔ v ∈ g.ready p ∧ g.softDone p v = true := by
  rw [mem_ready h, softDone_iff, Free]

/-- The first element of an increasing list that passes a test is the least that does. -/
theorem find?_least {l : List ℕ} {test : ℕ → Bool} (hl : l.Pairwise (· < ·))
    (h : l.find? test = some v) (hu : u ∈ l) (hut : test u = true) : v ≤ u := by
  obtain ⟨_, before, after, rfl, hbefore⟩ := List.find?_eq_some_iff_append.1 h
  rcases List.mem_append.1 hu with hmem | hmem
  · have hfalse := hbefore u hmem
    simp [hut] at hfalse
  · rcases List.mem_cons.1 hmem with rfl | hmem
    · exact le_refl u
    · exact le_of_lt ((List.pairwise_cons.1 (List.pairwise_append.1 hl).2.1).1 u hmem)

/-- **A step places a node exactly as `Choice` says.** -/
theorem choice_of_next? (h : g.Counted p) (hv : g.next? p = some v) : g.Choice p.placed v := by
  unfold next? at hv
  split at hv
  · cases hv
  · rename_i first others hready
    have hsorted : (first :: others).Pairwise (· < ·) := hready ▸ g.ready_sorted p
    have hfirst : g.Ready p.placed first := (mem_ready h).1 (hready ▸ List.mem_cons_self ..)
    cases hfind : (first :: others).find? (g.softDone p) with
    | some w =>
        obtain rfl : w = v := by simpa [hfind] using hv
        have hw : g.Free p.placed w := by
          rw [free_iff h, hready]
          exact ⟨List.mem_of_find?_eq_some hfind, List.find?_some hfind⟩
        refine ⟨hw.1, fun u hu => ⟨hw, ?_⟩, fun hno => absurd hw (hno w)⟩
        obtain ⟨hmem, hsoft⟩ := (free_iff h).1 hu
        exact find?_least hsorted hfind (hready ▸ hmem) hsoft
    | none =>
        -- no ready node is free, so the first ready one is taken
        obtain rfl : first = v := by simpa [hfind] using hv
        refine ⟨hfirst, fun u hu => ?_, fun _ u hu => ?_⟩
        · obtain ⟨hmem, hsoft⟩ := (free_iff h).1 hu
          exact absurd hsoft (List.find?_eq_none.1 hfind u (hready ▸ hmem))
        · have hmem : u ∈ first :: others := hready ▸ (mem_ready h).2 hu
          rcases List.mem_cons.1 hmem with rfl | hmem
          · exact le_refl u
          · exact le_of_lt ((List.pairwise_cons.1 hsorted).1 u hmem)

theorem next?_none_iff (h : g.Counted p) : g.next? p = none ↔ ∀ v, ¬ g.Ready p.placed v := by
  unfold next?
  constructor
  · intro hnone v hv
    have hmem := (mem_ready h).2 hv
    split at hnone
    · rename_i hready
      simp [hready] at hmem
    · cases hnone
  · intro hno
    cases hready : g.ready p with
    | nil => rfl
    | cons first others =>
        exact absurd ((mem_ready h).1 (hready ▸ List.mem_cons_self ..)) (hno first)

/-! ### Runs -/

/-- The nodes that a run places, one choice after another. -/
inductive Run (g : OrderGraph) : List ℕ → List ℕ → Prop
  | done (placed : List ℕ) : Run g placed []
  | step {placed rest : List ℕ} {v : ℕ} : g.Choice placed v → Run g (placed ++ [v]) rest →
      Run g placed (v :: rest)

/-- Placing more nodes is a run. -/
theorem placeMore_some (h : g.Counted p) :
    ∀ {n : ℕ} {q : Progress}, g.placeMore n p = some q →
      ∃ rest, q.placed = p.placed ++ rest ∧ rest.length = n ∧ g.Run p.placed rest := by
  intro n
  induction n generalizing p with
  | zero =>
      intro q hq
      obtain rfl : p = q := by simpa [placeMore] using hq
      exact ⟨[], by simp, rfl, Run.done _⟩
  | succ n ih =>
      intro q hq
      unfold placeMore at hq
      split at hq
      · cases hq
      · rename_i v hnext
        have hchoice := choice_of_next? h hnext
        obtain ⟨rest, hrest, hlen, hrun⟩ := ih (h.place hchoice.ready.2.1) hq
        refine ⟨v :: rest, ?_, by simp [hlen], Run.step hchoice hrun⟩
        rw [hrest, OrderGraph.place, List.append_assoc, List.singleton_append]

/-- A run that cannot go on stops at nodes none of which is ready. -/
theorem placeMore_none (h : g.Counted p) :
    ∀ {n : ℕ}, g.placeMore n p = none →
      ∃ rest, rest.length < n ∧ g.Run p.placed rest ∧ ∀ v, ¬ g.Ready (p.placed ++ rest) v := by
  intro n
  induction n generalizing p with
  | zero => intro hq; simp [placeMore] at hq
  | succ n ih =>
      intro hq
      unfold placeMore at hq
      split at hq
      · rename_i hnext
        refine ⟨[], by simp, Run.done _, ?_⟩
        simpa using (next?_none_iff h).1 hnext
      · rename_i v hnext
        have hchoice := choice_of_next? h hnext
        obtain ⟨rest, hlen, hrun, hstuck⟩ := ih (h.place hchoice.ready.2.1) hq
        refine ⟨v :: rest, by simp [hlen], Run.step hchoice hrun, ?_⟩
        simpa [OrderGraph.place] using hstuck

/-- There is only one choice. -/
theorem Choice.unique (hu : g.Choice placed u) (hv : g.Choice placed v) : u = v := by
  by_cases hfree : ∃ w, g.Free placed w
  · obtain ⟨w, hw⟩ := hfree
    exact le_antisymm (hu.free v (hv.free w hw).1).2 (hv.free u (hu.free w hw).1).2
  · have hno : ∀ w, ¬ g.Free placed w := fun w hw => hfree ⟨w, hw⟩
    exact le_antisymm (hu.fallback hno v hv.ready) (hv.fallback hno u hu.ready)

/-- Every run is one that placing more nodes makes. -/
theorem placeMore_of_run (h : g.Counted p) (hrun : g.Run p.placed rest) :
    ∃ q, g.placeMore rest.length p = some q ∧ q.placed = p.placed ++ rest := by
  generalize hplaced : p.placed = placed at hrun
  induction hrun generalizing p with
  | done => exact ⟨p, rfl, by simp [hplaced]⟩
  | @step placed rest v hv _ ih =>
      subst hplaced
      cases hnext : g.next? p with
      | none => exact absurd hv.ready ((next?_none_iff h).1 hnext v)
      | some w =>
          obtain rfl := (choice_of_next? h hnext).unique hv
          obtain ⟨q, hq, hqp⟩ := ih (h.place hv.ready.2.1) rfl
          refine ⟨q, ?_, ?_⟩
          · rw [List.length_cons, placeMore, hnext]
            exact hq
          · rw [hqp, List.append_assoc, List.singleton_append]

/-- At every place of a run stands a choice given what was placed before. -/
theorem Run.choice_at (h : g.Run placed rest) {before after : List ℕ}
    (heq : rest = before ++ v :: after) : g.Choice (placed ++ before) v := by
  induction h generalizing before with
  | done => simp at heq
  | @step placed rest w hw _ ih =>
      cases before with
      | nil =>
          obtain ⟨rfl, _⟩ := List.cons.inj heq
          simpa using hw
      | cons b before =>
          obtain ⟨rfl, hrest⟩ := List.cons.inj heq
          simpa using ih hrest

theorem Run.lt_size (h : g.Run placed rest) (hv : v ∈ rest) : v < g.size := by
  obtain ⟨before, after, heq⟩ := List.append_of_mem hv
  exact (h.choice_at heq).ready.1

theorem Run.not_mem_placed (h : g.Run placed rest) (hv : v ∈ rest) : v ∉ placed := by
  obtain ⟨before, after, heq⟩ := List.append_of_mem hv
  exact fun hp => (h.choice_at heq).ready.2.1 (List.mem_append_left _ hp)

theorem Run.nodup (h : g.Run placed rest) : rest.Nodup := by
  induction h with
  | done => exact List.nodup_nil
  | step _ hrun ih => exact List.nodup_cons.2 ⟨fun hv => hrun.not_mem_placed hv (by simp), ih⟩

/-- **What a node needs stands before it.** -/
theorem Run.hard_before (h : g.Run [] rest) {before after : List ℕ}
    (heq : rest = before ++ v :: after) (hu : g.Hard u v) : u ∈ before := by
  have hmem := (h.choice_at heq).ready.2.2 u hu
  simpa using hmem

/-- A run as long as there are nodes lists each of them once. -/
theorem Run.perm_range (h : g.Run [] rest) (hlen : rest.length = g.size) :
    rest.Perm (List.range g.size) := by
  have hsub : rest ⊆ List.range g.size := fun v hv => List.mem_range.2 (h.lt_size hv)
  exact (h.nodup.subperm hsub).perm_of_length_le (by simp [hlen])

/-! ### Orders -/

theorem order?_some {order : List ℕ} (h : g.order? = some order) :
    g.Run [] order ∧ order.Perm (List.range g.size) := by
  unfold order? at h
  obtain ⟨q, hq, rfl⟩ := Option.map_eq_some_iff.1 h
  obtain ⟨rest, hrest, hlen, hrun⟩ := placeMore_some (counted_begin g) hq
  obtain rfl : q.placed = rest := by simpa [begin] using hrest
  exact ⟨hrun, hrun.perm_range hlen⟩

/-- **The order is the one run through all nodes.** -/
theorem order?_eq_some_iff {order : List ℕ} :
    g.order? = some order ↔ g.Run [] order ∧ order.length = g.size := by
  constructor
  · intro h
    obtain ⟨hrun, hperm⟩ := order?_some h
    exact ⟨hrun, by simpa using hperm.length_eq⟩
  · rintro ⟨hrun, hlen⟩
    have hbegin : g.Run g.begin.placed order := hrun
    obtain ⟨q, hq, hplaced⟩ := placeMore_of_run (counted_begin g) hbegin
    rw [order?, ← hlen, hq, Option.map_some, hplaced]
    rfl

/-- **The order depends on the edges as relations only.** -/
theorem order?_congr {h : OrderGraph} (hsize : g.size = h.size)
    (hhard : ∀ u v, g.Hard u v ↔ h.Hard u v) (hsoft : ∀ u v, g.Soft u v ↔ h.Soft u v) :
    g.order? = h.order? := by
  have hready : g.Ready = h.Ready := by
    funext placed v
    simp only [Ready, hsize, hhard]
  have hfree : g.Free = h.Free := by
    funext placed v
    simp only [Free, hready, hsoft]
  have hchoice : ∀ placed v, g.Choice placed v ↔ h.Choice placed v := by
    intro placed v
    constructor
    · rintro ⟨h₁, h₂, h₃⟩
      exact ⟨hready ▸ h₁, hfree ▸ h₂, hready ▸ hfree ▸ h₃⟩
    · rintro ⟨h₁, h₂, h₃⟩
      exact ⟨hready ▸ h₁, hfree ▸ h₂, hready ▸ hfree ▸ h₃⟩
  have hrun : ∀ placed rest, g.Run placed rest ↔ h.Run placed rest := by
    intro placed rest
    constructor
    · intro hr
      induction hr with
      | done => exact Run.done _
      | step hv _ ih => exact Run.step ((hchoice _ _).1 hv) ih
    · intro hr
      induction hr with
      | done => exact Run.done _
      | step hv _ ih => exact Run.step ((hchoice _ _).2 hv) ih
  refine Option.ext fun order => ?_
  rw [order?_eq_some_iff, order?_eq_some_iff, hrun, hsize]

/-- **Without an order the hard edges have a cycle**: every node that is not placed needs another. -/
theorem order?_none (hb : g.Bounded) (h : g.order? = none) : ∃ v < g.size, TransGen g.Hard v v := by
  unfold order? at h
  rw [Option.map_eq_none_iff] at h
  obtain ⟨rest, hlen, hrun, hstuck⟩ := placeMore_none (counted_begin g) h
  have hrun : g.Run [] rest := hrun
  have hstuck : ∀ v, ¬ g.Ready rest v := by simpa [begin] using hstuck
  obtain ⟨v, hv, hnot⟩ : ∃ v < g.size, v ∉ rest := by
    by_contra hall
    have hsub : List.range g.size ⊆ rest := by
      intro v hv
      by_contra hnot
      exact hall ⟨v, List.mem_range.1 hv, hnot⟩
    have hle := (List.nodup_range.subperm hsub).length_le
    rw [List.length_range] at hle
    omega
  -- a node that is not ready has an edge from one that is not placed either
  have hback : ∀ w < g.size, w ∉ rest → ∃ u, g.Hard u w ∧ u ∉ rest := by
    intro w hw hwn
    by_contra hno
    refine hstuck w ⟨hw, hwn, fun u hu => ?_⟩
    by_contra hun
    exact hno ⟨u, hu, hun⟩
  obtain ⟨w, hw, _, hcycle⟩ := exists_cycle_of_stuck (fun huv => (hb.hard huv).1) hv hnot hback
  exact ⟨w, hw, TransGen.mono (fun _ _ hstep => hstep.1) _ _ hcycle⟩

/-- An order that respects a relation leaves it no cycle. -/
theorem not_transGen_of_before {order : List ℕ} {r : ℕ → ℕ → Prop} (hnodup : order.Nodup)
    (hmem : ∀ {u v}, r u v → v ∈ order)
    (hbefore : ∀ {u v before after}, order = before ++ v :: after → r u v → u ∈ before) (v : ℕ) :
    ¬ TransGen r v v := by
  have hlt : ∀ u v, r u v → order.idxOf u < order.idxOf v := by
    intro u v huv
    obtain ⟨before, after, heq⟩ := List.append_of_mem (hmem huv)
    have hu : u ∈ before := hbefore heq huv
    have hv : v ∉ before := by
      rw [heq] at hnodup
      exact fun hvb => (List.nodup_append.1 hnodup).2.2 v hvb v (List.mem_cons_self ..) rfl
    rw [heq, List.idxOf_append_of_mem hu, List.idxOf_append_of_notMem hv, List.idxOf_cons_self]
    have := List.idxOf_lt_length_iff.2 hu
    omega
  exact fun h => lt_irrefl _ (rank_lt_of_transGen order.idxOf hlt h)

/-- Where there is an order, the hard edges have no cycle. -/
theorem not_hard_cycle {order : List ℕ} (hb : g.Bounded) (h : g.order? = some order) (v : ℕ) :
    ¬ TransGen g.Hard v v := by
  obtain ⟨hrun, hperm⟩ := order?_some h
  refine not_transGen_of_before hrun.nodup (fun {u v} huv => ?_) hrun.hard_before v
  exact hperm.mem_iff.2 (List.mem_range.2 (hb.hard huv).2)

end OrderGraph

end Rebuild
