/-
When soft order is ignored.

A run takes a node that is only ready when no node is free.  Every node that is left then waits for
another one that is left, so the nodes that are left hold a cycle; and since hard edges alone make
none, a soft edge is part of it.

Main definitions:

* `Among`, `CycleThrough` — a relation between elements of a list, and a cycle of it with a step of a
  given kind;
* `Task.HardBefore`, `Task.SoftBefore`, `Task.Before` — one task requires another, follows it, or
  does either.

Main results:

* `cycleThrough_of_cycle` — a cycle of two kinds of steps, the first of which makes none alone, goes
  through a step of the second kind;
* `OrderGraph.cycleThrough_of_not_free` — **where nothing is free, the nodes that are left hold a
  cycle through a soft edge**;
* `TaskGraph.cycleThrough_of_resolve`, `TaskGraph.earliest_of_resolve` — the same of tasks, and which
  of them is taken then;
* `TaskGraph.soft_order_ignored` — **soft order is ignored only in favour of the earliest ready task,
  and only if the tasks that are left cannot all be satisfied**.
-/
import Rebuild.Proofs.TaskGraph.LeastOrder

set_option relaxedAutoImplicit false
set_option autoImplicit false

namespace Rebuild

open Relation

/-! ### Cycles with a step of a given kind -/

section Cycles

variable {α β : Type} {l : List α} {p q r : α → α → Prop} {x y : α}

/-- The relation between elements of the list. -/
def Among (l : List α) (r : α → α → Prop) (a b : α) : Prop := a ∈ l ∧ b ∈ l ∧ r a b

/-- Steps of `r` between elements of the list lead round in a circle, and one of them is a step of
`q`. -/
def CycleThrough (l : List α) (r q : α → α → Prop) : Prop :=
  ∃ a b, Among l q a b ∧ ReflTransGen (Among l r) b a

/-- A path of two kinds of steps has a step of the second kind, or is a path of the first kind. -/
theorem transGen_or (h : TransGen (Among l fun a b => p a b ∨ q a b) x y) :
    TransGen (Among l p) x y ∨ ∃ a b, ReflTransGen (Among l fun a b => p a b ∨ q a b) x a ∧
      Among l q a b ∧ ReflTransGen (Among l fun a b => p a b ∨ q a b) b y := by
  induction h with
  | single hxy =>
      obtain ⟨hx, hy, hp | hq⟩ := hxy
      · exact Or.inl (TransGen.single ⟨hx, hy, hp⟩)
      · exact Or.inr ⟨_, _, ReflTransGen.refl, ⟨hx, hy, hq⟩, ReflTransGen.refl⟩
  | tail hxy hyz ih =>
      rcases ih with ih | ⟨a, b, hxa, hab, hby⟩
      · obtain ⟨hy, hz, hp | hq⟩ := hyz
        · exact Or.inl (ih.tail ⟨hy, hz, hp⟩)
        · exact Or.inr ⟨_, _, hxy.to_reflTransGen, ⟨hy, hz, hq⟩, ReflTransGen.refl⟩
      · exact Or.inr ⟨a, b, hxa, hab, hby.tail hyz⟩

/-- **A cycle goes through the second kind of steps if the first kind makes none alone.** -/
theorem cycleThrough_of_cycle (hp : ∀ x, ¬ TransGen (Among l p) x x)
    (h : TransGen (Among l fun a b => p a b ∨ q a b) x x) :
    CycleThrough l (fun a b => p a b ∨ q a b) q := by
  rcases transGen_or h with hcycle | ⟨a, b, hxa, hab, hbx⟩
  · exact absurd hcycle (hp x)
  · exact ⟨a, b, hab, hbx.trans hxa⟩

/-- A cycle is kept by a map that keeps the steps. -/
theorem CycleThrough.map {l' : List β} {r' q' : β → β → Prop} (f : α → β)
    (hr : ∀ a b, Among l r a b → Among l' r' (f a) (f b))
    (hq : ∀ a b, Among l q a b → Among l' q' (f a) (f b)) (h : CycleThrough l r q) :
    CycleThrough l' r' q' := by
  obtain ⟨a, b, hab, hba⟩ := h
  exact ⟨f a, f b, hq a b hab, ReflTransGen.lift f hr _ _ hba⟩

end Cycles

/-! ### Nodes -/

namespace OrderGraph

variable {g : OrderGraph} {placed nodes before after : List ℕ} {u v : ℕ}

/-- A node is placed before one that it follows only if nothing is free. -/
theorem Choice.not_free (h : g.Choice placed v) (hsoft : g.Soft u v) (hu : u ∉ placed) (w : ℕ) :
    ¬ g.Free placed w :=
  fun hw => hu ((h.free w hw).1.2 u hsoft)

/-- **Where nothing is free, the nodes that are left hold a cycle through a soft edge.** -/
theorem cycleThrough_of_not_free (hb : g.Bounded) (ho : g.order? = some nodes)
    (heq : nodes = before ++ v :: after) (hno : ∀ w, ¬ g.Free before w) :
    CycleThrough (v :: after) g.Edge g.Soft := by
  obtain ⟨hrun, hperm⟩ := order?_some ho
  have hready : g.Ready before v := by simpa using (hrun.choice_at heq).ready
  obtain ⟨w, _, _, hcycle⟩ := exists_cycle_of_not_free hb hready.1 hready.2.1 hno
  -- a node that was not placed before `v` stands at `v` or behind it
  have hleft : ∀ {w}, w < g.size → w ∉ before → w ∈ v :: after := by
    intro w hw hnot
    have hmem : w ∈ before ++ v :: after := heq ▸ hperm.mem_iff.2 (List.mem_range.2 hw)
    exact (List.mem_append.1 hmem).resolve_left hnot
  have hlt : ∀ {a b}, g.Edge a b → a < g.size ∧ b < g.size := by
    intro a b hab
    exact hab.elim hb.hard hb.soft
  refine cycleThrough_of_cycle (x := w) (fun x hx => ?_) (TransGen.mono (fun a b hab => ?_) _ _ hcycle)
  · exact not_hard_cycle hb ho x (TransGen.mono (fun _ _ hab => hab.2.2) _ _ hx)
  · obtain ⟨hedge, ha, hb⟩ := hab
    exact ⟨hleft (hlt hedge).1 ha, hleft (hlt hedge).2 hb, hedge⟩

end OrderGraph

/-! ### Tasks -/

namespace Task

/-- The second task requires the first. -/
def HardBefore (s t : Task) : Prop := s.name ∈ t.dependsOn

/-- The second task follows the first, which is another one. -/
def SoftBefore (s t : Task) : Prop := s.name ∈ t.runsAfter ∧ s.name ≠ t.name

/-- The second task requires the first or follows it. -/
def Before (s t : Task) : Prop := s.HardBefore t ∨ s.SoftBefore t

end Task

namespace TaskGraph

variable {g : TaskGraph} {selected : List String} {tasks order before after : List Task}
  {nodes : List ℕ} {s t : Task}

/-- A cycle of nodes is a cycle of the tasks at them. -/
theorem cycleThrough_atNodes (hn : (tasks.map Task.name).Nodup)
    (h : CycleThrough nodes (orderGraph tasks).Edge (orderGraph tasks).Soft) :
    CycleThrough (atNodes tasks nodes) Task.Before Task.SoftBefore := by
  have hget : ∀ {v t}, tasks[v]? = some t → tasks.getD v default = t := by
    intro v t ht
    simp [List.getD_eq_getElem?_getD, ht]
  have hsoft : ∀ u v, Among nodes (orderGraph tasks).Soft u v → Among (atNodes tasks nodes)
      Task.SoftBefore (tasks.getD u default) (tasks.getD v default) := by
    rintro u v ⟨hu, hv, huv⟩
    obtain ⟨hne, s, t, hs, ht, hd⟩ := (soft_iff hn).1 huv
    rw [hget hs, hget ht]
    refine ⟨mem_atNodes.2 ⟨u, hu, hs⟩, mem_atNodes.2 ⟨v, hv, ht⟩, hd, fun hname => hne ?_⟩
    exact Keyed.index_eq_of_key_eq hn hs ht hname
  refine h.map (fun v => tasks.getD v default) (fun u v huv => ?_) hsoft
  obtain ⟨hu, hv, hedge⟩ := huv
  rcases hedge with hedge | hedge
  · obtain ⟨s, t, hs, ht, hd⟩ := (hard_iff hn).1 hedge
    rw [hget hs, hget ht]
    exact ⟨mem_atNodes.2 ⟨u, hu, hs⟩, mem_atNodes.2 ⟨v, hv, ht⟩, Or.inl hd⟩
  · obtain ⟨hs, ht, hst⟩ := hsoft u v ⟨hu, hv, hedge⟩
    exact ⟨hs, ht, Or.inr hst⟩

/-- What is known of the place of a task in a resolved order: its node was chosen there. -/
theorem choice_of_resolve (h : g.resolve selected = .ok order) (heq : order = before ++ t :: after) :
    ∃ tasks nodes nb v na, g.planned selected = .ok tasks ∧ (orderGraph tasks).order? = some nodes ∧
      nodes = nb ++ v :: na ∧ tasks[v]? = some t ∧ atNodes tasks nb = before ∧
      atNodes tasks na = after ∧ (orderGraph tasks).Choice nb v := by
  obtain ⟨tasks, hp, ha⟩ := planned_of_resolve h
  obtain ⟨nodes, hnodes, rfl⟩ := arrange_ok ha
  obtain ⟨nb, v, na, hsplit, hv, hnb, hna⟩ := atNodes_split heq
  have hchoice := (OrderGraph.order?_some hnodes).1.choice_at hsplit
  exact ⟨tasks, nodes, nb, v, na, hp, hnodes, hsplit, hv, hnb, hna, by simpa using hchoice⟩

/-- Nothing is free at the place of a task that stands before one it follows. -/
theorem not_free_of_ignored (hn : (tasks.map Task.name).Nodup) {nb na : List ℕ} {v : ℕ}
    (hv : tasks[v]? = some t) (hchoice : (orderGraph tasks).Choice nb v)
    (hnodup : (nb ++ v :: na).Nodup) (hs : s ∈ atNodes tasks na) (hsoft : s.name ∈ t.runsAfter) :
    ∀ w, ¬ (orderGraph tasks).Free nb w := by
  obtain ⟨u, hu, hsu⟩ := mem_atNodes.1 hs
  obtain ⟨_, htail, hdisjoint⟩ := List.nodup_append.1 hnodup
  have hne : u ≠ v := by
    rintro rfl
    exact (List.nodup_cons.1 htail).1 hu
  have hnot : u ∉ nb := fun hub => hdisjoint u hub u (List.mem_cons_of_mem v hu) rfl
  exact hchoice.not_free ((soft_iff hn).2 ⟨hne, s, t, hsu, hv, hsoft⟩) hnot

/-- **A task stands before one it follows only if the tasks from there on hold a cycle through soft
order.** -/
theorem cycleThrough_of_resolve (h : g.resolve selected = .ok order)
    (heq : order = before ++ t :: after) (hs : s ∈ after) (hsoft : s.name ∈ t.runsAfter) :
    CycleThrough (t :: after) Task.Before Task.SoftBefore := by
  obtain ⟨tasks, nodes, nb, v, na, hp, hnodes, hsplit, hv, rfl, rfl, hchoice⟩ :=
    choice_of_resolve h heq
  have hn := nodup_of_planned hp
  have hno := not_free_of_ignored hn hv hchoice
    (hsplit ▸ (OrderGraph.order?_some hnodes).1.nodup) hs hsoft
  have hcycle := OrderGraph.cycleThrough_of_not_free (bounded_orderGraph hn) hnodes hsplit hno
  have htasks : atNodes tasks (v :: na) = t :: atNodes tasks na := List.filterMap_cons_some hv
  exact htasks ▸ cycleThrough_atNodes hn hcycle

/-- The node of a task is ready once all that the task requires is placed. -/
theorem ready_of_placed (hn : (tasks.map Task.name).Nodup) {nb : List ℕ} {w : ℕ}
    (hw : tasks[w]? = some t) (hnot : w ∉ nb)
    (hplaced : ∀ d ∈ t.dependsOn, ∃ r ∈ atNodes tasks nb, r.name = d) :
    (orderGraph tasks).Ready nb w := by
  refine ⟨(List.getElem?_eq_some_iff.1 hw).1, hnot, fun x hx => ?_⟩
  obtain ⟨d, t', hd, ht', hdt⟩ := (hard_iff hn).1 hx
  obtain rfl : t = t' := Option.some.inj (hw.symm.trans ht')
  obtain ⟨r, hr, hname⟩ := hplaced d.name hdt
  obtain ⟨y, hy, hry⟩ := mem_atNodes.1 hr
  exact Keyed.index_eq_of_key_eq hn hry hd hname ▸ hy

/-- **A task that stands before one it follows is the earliest of those whose requirements are
placed.** -/
theorem earliest_of_resolve (h : g.resolve selected = .ok order)
    (heq : order = before ++ t :: after) (hs : s ∈ after) (hsoft : s.name ∈ t.runsAfter) {u : Task}
    (hu : u ∈ t :: after) (hplaced : ∀ d ∈ u.dependsOn, ∃ r ∈ before, r.name = d) :
    u = t ∨ g.RegisteredBefore t u := by
  obtain ⟨tasks, nodes, nb, v, na, hp, hnodes, hsplit, hv, rfl, rfl, hchoice⟩ :=
    choice_of_resolve h heq
  have hn := nodup_of_planned hp
  have hnodup : (nb ++ v :: na).Nodup := hsplit ▸ (OrderGraph.order?_some hnodes).1.nodup
  have hno := not_free_of_ignored hn hv hchoice hnodup hs hsoft
  have htasks : atNodes tasks (v :: na) = t :: atNodes tasks na := List.filterMap_cons_some hv
  obtain ⟨w, hw, huw⟩ := mem_atNodes.1 (htasks ▸ hu)
  have hlt : w < tasks.length := (List.getElem?_eq_some_iff.1 huw).1
  have hready : (orderGraph tasks).Ready nb w :=
    ready_of_placed hn huw (fun hwb => (List.nodup_append.1 hnodup).2.2 w hwb w hw rfl) hplaced
  rcases Nat.lt_or_eq_of_le (hchoice.fallback hno w hready) with hvw | rfl
  · right
    obtain ⟨hvlt, rfl⟩ := List.getElem?_eq_some_iff.1 hv
    obtain ⟨_, rfl⟩ := List.getElem?_eq_some_iff.1 huw
    exact List.pairwise_iff_getElem.1 (registered_pairwise hp) v w hvlt hlt hvw
  · exact Or.inl (Option.some.inj (huw.symm.trans hv))

/-- **When soft order is ignored.**  If a task stands before a task that it follows, then the tasks
from its place on hold a cycle of requirements and soft order that soft order is part of; and the task
is the earliest registered of those from its place on whose requirements all stand before it. -/
theorem soft_order_ignored (h : g.resolve selected = .ok order)
    (heq : order = before ++ t :: after) (hs : s ∈ after) (hsoft : s.name ∈ t.runsAfter) :
    CycleThrough (t :: after) Task.Before Task.SoftBefore ∧
    (∀ d ∈ t.dependsOn, ∃ r ∈ before, r.name = d) ∧
    ∀ u ∈ t :: after, (∀ d ∈ u.dependsOn, ∃ r ∈ before, r.name = d) →
      u = t ∨ g.RegisteredBefore t u :=
  ⟨cycleThrough_of_resolve h heq hs hsoft, (isHardOrder_of_resolve h).after before t after heq,
    fun _ => earliest_of_resolve h heq hs hsoft⟩

/-- An application that would rather follow the archive it is packed into. -/
def tangledApp : Task := (Task.free "app" (.compile "app")).following "zip"

def tangledZip : Task := ((Task.free "zip" (.compile "zip")).requiring "app").following "docs"

def tangledDocs : Task :=
  (((Task.free "docs" (.compile "docs")).requiring "tools").following "app").following "zip"

def tangledTools : Task := .free "tools" (.compile "tools")

def tangle : TaskGraph := ⟨[tangledApp, tangledZip, tangledDocs, tangledTools], by decide⟩

/-- The tools are free; then the application goes against soft order, and so does the archive. -/
theorem tangle_soft_order_ignored :
    tangle.resolve ["zip", "docs"] = .ok ([tangledTools] ++ tangledApp :: [tangledZip, tangledDocs]) ∧
    tangledZip.name ∈ tangledApp.runsAfter ∧
    CycleThrough [tangledApp, tangledZip, tangledDocs] Task.Before Task.SoftBefore ∧
    ∀ u ∈ [tangledApp, tangledZip, tangledDocs],
      (∀ d ∈ u.dependsOn, ∃ r ∈ [tangledTools], r.name = d) →
        u = tangledApp ∨ tangle.RegisteredBefore tangledApp u := by
  have hresolve : tangle.resolve ["zip", "docs"] =
      .ok ([tangledTools] ++ tangledApp :: [tangledZip, tangledDocs]) := by
    cbv
  have hsoft : tangledZip.name ∈ tangledApp.runsAfter := NameSet.mem_insert.2 (Or.inl rfl)
  obtain ⟨hcycle, _, hearliest⟩ := soft_order_ignored hresolve rfl (by simp) hsoft
  exact ⟨hresolve, hsoft, hcycle, hearliest⟩

end TaskGraph

end Rebuild
