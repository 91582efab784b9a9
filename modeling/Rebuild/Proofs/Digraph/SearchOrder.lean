/-
The order in which the search lists a component.

A component is listed by the stack of the search: first the root, then the nodes that were left last.
Such a list is no path, but it is led: every node in it but the first has an edge from one that stands
before it, since a node is left before the one from which it was entered.

Main definitions:

* `Led` — **each element has a predecessor before it**;
* `Digraph.InTurn` — a list of nodes that is led by its first one;
* `Digraph.Threaded`, `Digraph.Threading` — what a visit leaves on the stack, and what it has there
  half-way.

Main results:

* `Led.isChain_of_unique` — a led list in which no element leads to two others is a path;
* `Digraph.visit_threaded` — every visit leaves its node on the stack before all that it led to;
* `Digraph.components_inTurn` — **every component is listed in turn**.
-/
import Rebuild.Proofs.Digraph.Components

set_option relaxedAutoImplicit false
set_option autoImplicit false

namespace Rebuild

/-! ### Lists that are led -/

section Led

variable {α β : Type} {r : α → α → Prop} {q : β → β → Prop} {seen l l' : List α} {a : α}

/-- Each element of the list has a predecessor among those in `seen` and those before it. -/
def Led (r : α → α → Prop) : (seen l : List α) → Prop
  | _, [] => True
  | seen, a :: l => (∃ b ∈ seen, r b a) ∧ Led r (a :: seen) l

theorem Led.mono {seen' : List α} (h : Led r seen l) (hsub : ∀ b ∈ seen, b ∈ seen') :
    Led r seen' l := by
  induction l generalizing seen seen' with
  | nil => trivial
  | cons a l ih =>
      obtain ⟨⟨b, hb, hba⟩, hl⟩ := h
      refine ⟨⟨b, hsub b hb, hba⟩, ih hl fun c hc => ?_⟩
      rcases List.mem_cons.1 hc with rfl | hc
      · exact List.mem_cons_self ..
      · exact List.mem_cons_of_mem _ (hsub c hc)

/-- More elements that need no predecessor among the new ones. -/
theorem Led.append (h : Led r seen l) (h' : Led r seen l') : Led r seen (l ++ l') := by
  induction l generalizing seen with
  | nil => exact h'
  | cons a l ih =>
      exact ⟨h.1, ih h.2 (h'.mono fun b hb => List.mem_cons_of_mem _ hb)⟩

/-- Elements may be renamed if predecessors stay predecessors. -/
theorem Led.filterMap {f : α → Option β} (h : Led r seen l)
    (hr : ∀ {a b}, r a b → ∃ x y, f a = some x ∧ f b = some y ∧ q x y) :
    Led q (seen.filterMap f) (l.filterMap f) := by
  induction l generalizing seen with
  | nil => trivial
  | cons a l ih =>
      obtain ⟨⟨b, hb, hba⟩, hl⟩ := h
      obtain ⟨x, y, hx, hy, hxy⟩ := hr hba
      rw [List.filterMap_cons_some hy]
      refine ⟨⟨x, List.mem_filterMap.2 ⟨b, hb, hx⟩, hxy⟩, ?_⟩
      have hrest := ih hl
      rwa [List.filterMap_cons_some hy] at hrest

/-- **A led list in which no element leads to two others is a path.** -/
theorem Led.isChain_of_unique (h : Led r (a :: seen) l) (hnodup : (l.reverse ++ a :: seen).Nodup)
    (hnext : ∀ b ∈ seen, ∃ c ∈ a :: seen, r b c ∧ c ≠ b)
    (hunique : ∀ b ∈ l.reverse ++ a :: seen, ∀ c ∈ l.reverse ++ a :: seen,
      ∀ d ∈ l.reverse ++ a :: seen, c ≠ b → d ≠ b → r b c → r b d → c = d) :
    (a :: l).IsChain r := by
  induction l generalizing a seen with
  | nil => exact List.isChain_singleton a
  | cons w l ih =>
      obtain ⟨⟨b, hb, hbw⟩, hl⟩ := h
      rw [List.reverse_cons, List.append_assoc, List.singleton_append] at hnodup hunique
      have hw : w ∉ a :: seen := (List.nodup_cons.1 (List.nodup_append.1 hnodup).2.1).1
      have hmem : ∀ {x}, x ∈ a :: seen → x ∈ l.reverse ++ w :: a :: seen := fun hx =>
        List.mem_append_right _ (List.mem_cons_of_mem _ hx)
      -- an earlier element has its one successor already, and that is not the new one
      have haw : r a w := by
        rcases List.mem_cons.1 hb with rfl | hseen
        · exact hbw
        · obtain ⟨c, hc, hbc, hcb⟩ := hnext b hseen
          have hwb : w ≠ b := fun heq => hw (heq ▸ hb)
          have hcw := hunique b (hmem hb) c (hmem hc) w (by simp) hcb hwb hbc hbw
          exact absurd (hcw ▸ hc) hw
      refine List.isChain_cons_cons.2 ⟨haw, ih hl hnodup (fun b hb => ?_) hunique⟩
      rcases List.mem_cons.1 hb with rfl | hb
      · exact ⟨w, List.mem_cons_self .., haw, fun heq => hw (heq ▸ List.mem_cons_self ..)⟩
      · obtain ⟨c, hc, hbc⟩ := hnext b hb
        exact ⟨c, List.mem_cons_of_mem _ hc, hbc⟩

/-- If moreover something in the list leads to its first element, the path closes there. -/
theorem Led.isChain_closed (h : Led r [a] l) (hnodup : (a :: l).Nodup)
    (hunique : ∀ b ∈ a :: l, ∀ c ∈ a :: l, ∀ d ∈ a :: l, c ≠ b → d ≠ b → r b c → r b d → c = d)
    (hback : ∃ b ∈ a :: l, r b a ∧ (b = a → l = [])) : (a :: l ++ [a]).IsChain r := by
  have hperm : (l.reverse ++ [a]).Perm (a :: l) :=
    (List.perm_append_singleton a _).trans ((List.reverse_perm l).cons a)
  have hchain : (a :: l).IsChain r := by
    refine h.isChain_of_unique (hperm.nodup_iff.2 hnodup) (by simp) ?_
    simpa only [hperm.mem_iff] using hunique
  refine List.isChain_append.2 ⟨hchain, List.isChain_singleton a, fun x hx y hy => ?_⟩
  obtain rfl : a = y := by simpa using hy
  obtain ⟨b, hb, hba, halone⟩ := hback
  rcases List.mem_cons.1 hb with rfl | hbl
  · obtain rfl : b = x := by simpa [halone rfl] using hx
    exact hba
  · obtain ⟨front, back, rfl⟩ := List.append_of_mem hbl
    cases back with
    | nil =>
        obtain rfl : b = x := by simpa [List.getLast?_cons, List.getLast?_append] using hx
        exact hba
    | cons c back =>
        -- the next element of the path would be the first one again
        have hbc : r b c := by
          rw [← List.cons_append] at hchain
          exact (List.isChain_cons_cons.1 (List.isChain_append.1 hchain).2.1).1
        have hab : a ≠ b := fun heq => (List.nodup_cons.1 hnodup).1 (heq ▸ hbl)
        have hcb : c ≠ b := by
          rintro rfl
          have := (List.nodup_append.1 (List.nodup_cons.1 hnodup).2).2.1
          simp at this
        have hca := hunique b hb c (by simp) a (by simp) hcb hab hbc hba
        exact absurd (hca ▸ (by simp : c ∈ front ++ b :: c :: back)) (List.nodup_cons.1 hnodup).1

end Led

/-! ### Visits -/

namespace Digraph

variable {g : Digraph} {s s' s₀ : Search} {active : List ℕ} {v w : ℕ}

/-- The first node leads to all others, one after another. -/
def InTurn (g : Digraph) (l : List ℕ) : Prop := ∃ v rest, l = v :: rest ∧ Led g.Edge [v] rest

/-- What a visit of `v` leaves on the stack, and the components it finds, are listed in turn. -/
structure Threaded (g : Digraph) (s s' : Search) (v : ℕ) : Prop where
  stack : ∃ top, s'.stack = top ++ s.stack ∧
    (top = [] ∨ ∃ rest, top = v :: rest ∧ Led g.Edge [v] rest)
  found : ∀ c ∈ s'.found, c ∈ s.found ∨ g.InTurn c.reverse

theorem Threaded.refl (g : Digraph) (s : Search) (v : ℕ) : g.Threaded s s v :=
  ⟨⟨[], rfl, Or.inl rfl⟩, fun _ hc => Or.inl hc⟩

/-- A visit of `v` half-way: what it has put on the stack is led by `v`. -/
structure Threading (g : Digraph) (s₀ s : Search) (v : ℕ) : Prop where
  stack : ∃ top, s.stack = top ++ s₀.stack ∧ Led g.Edge [v] top
  found : ∀ c ∈ s.found, c ∈ s₀.found ∨ g.InTurn c.reverse

/-- Taking over a low link changes neither the stack nor what was found. -/
theorem Threading.lookAt {bound : ℕ} {acc : Search × Bool} (h : g.Threading s₀ acc.1 v)
    (hw : g.Threaded acc.1 (if acc.1.mark w = .fresh then g.visit bound w acc.1 else acc.1) w)
    (hedge : g.Edge v w) : g.Threading s₀ (g.lookAt bound v acc w).1 v := by
  unfold Digraph.lookAt
  dsimp only
  generalize (if acc.1.mark w = .fresh then g.visit bound w acc.1 else acc.1) = s' at hw
  have hkeep : g.Threading s₀ s' v := by
    obtain ⟨top, hstack, htop⟩ := h.stack
    obtain ⟨top', hstack', htop'⟩ := hw.stack
    refine ⟨⟨top' ++ top, by rw [hstack', hstack, List.append_assoc], ?_⟩, fun c hc => ?_⟩
    · refine Led.append ?_ htop
      rcases htop' with rfl | ⟨rest, rfl, hrest⟩
      · trivial
      · exact ⟨⟨v, List.mem_cons_self .., hedge⟩, hrest.mono (by simp)⟩
    · rcases hw.found c hc with hc | hc
      · exact h.found c hc
      · exact Or.inr hc
  split
  · exact ⟨hkeep.stack, hkeep.found⟩
  · exact hkeep

/-- What is to be shown of visits with a given bound. -/
def VisitsThreaded (g : Digraph) (bound : ℕ) : Prop :=
  ∀ {s : Search} {active : List ℕ} {v : ℕ}, g.Sound s active → s.mark v = .fresh →
    (g.freshNodes s).card ≤ bound → g.Threaded s (g.visit bound v s) v

/-- Looking at successors one after another. -/
theorem Threading.foldl_look {bound : ℕ} (ih : g.VisitsThreaded bound) (hfresh : s₀.mark v = .fresh)
    (hcard : (g.freshNodes s₀).card ≤ bound + 1) :
    ∀ {ws : List ℕ} {acc : Search × Bool} {grown seen : List ℕ}, (∀ w ∈ ws, g.Edge v w) →
      g.Scanning s₀ acc.1 v active grown acc.2 seen → g.Threading s₀ acc.1 v →
      g.Threading s₀ (ws.foldl (g.lookAt bound v) acc).1 v := by
  intro ws
  induction ws with
  | nil => intro acc grown seen _ _ h; exact h
  | cons w ws ihws =>
      intro acc grown seen hedges hscan h
      have hedge := hedges w (List.mem_cons_self ..)
      obtain ⟨grown', hnext⟩ := hscan.lookAt (visit_spec g bound) hfresh hcard hedge
      refine ihws (fun u hu => hedges u (List.mem_cons_of_mem _ hu)) hnext (h.lookAt ?_ hedge)
      split
      · rename_i hwf
        have hlt := hscan.freshNodes_lt hfresh
        exact ih hscan.sound hwf (by omega)
      · exact Threaded.refl g acc.1 w

/-- A node that is left goes on the stack before all that it led to, or completes a component with
them. -/
theorem Threading.leave {grown seen : List ℕ} {isRoot : Bool} (h : g.Threading s₀ s v)
    (hscan : g.Scanning s₀ s v active grown isRoot seen) : g.Threaded s₀ (s.leave v isRoot) v := by
  obtain ⟨top, hstack, htop⟩ := h.stack
  cases isRoot with
  | false => exact ⟨⟨v :: top, by simp [Search.leave, hstack], Or.inr ⟨top, rfl, htop⟩⟩, h.found⟩
  | true =>
      have hperm : top.Perm grown := by
        obtain ⟨top', hstack', hperm⟩ := hscan.stack
        rwa [List.append_cancel_right (hstack.symm.trans hstack')]
      refine ⟨⟨[], hscan.stack_close, Or.inl rfl⟩, fun c hc => ?_⟩
      simp only [Search.leave, Search.close, hscan.part_eq hstack hperm, if_true,
        List.mem_cons] at hc
      rcases hc with rfl | hc
      · exact Or.inr ⟨v, top, by simp, htop⟩
      · exact h.found c hc

/-- **Every visit leaves its node on the stack before all that it led to.** -/
theorem visit_threaded (g : Digraph) (bound : ℕ) : g.VisitsThreaded bound := by
  induction bound with
  | zero =>
      intro s active v _ _ _
      exact Threaded.refl g s v
  | succ bound ih =>
      intro s active v h hv hcard
      have hscan : g.Scanning s (s.enter v, true).1 v active [] (s.enter v, true).2 [] :=
        h.scanning hv
      have hstart : g.Threading s (s.enter v, true).1 v := ⟨⟨[], rfl, trivial⟩, fun _ hc => Or.inl hc⟩
      have hedges : ∀ w ∈ g.successors v, g.Edge v w := fun w hw => mem_successors.1 hw
      obtain ⟨grown, hend⟩ := Scanning.foldl_look (visit_spec g bound) hv hcard hedges hscan
      exact (hstart.foldl_look ih hv hcard hedges hscan).leave hend

/-- Searching from more nodes finds components that are listed in turn. -/
theorem inTurn_foldl_visit (nodes : List ℕ) (h : g.Sound s [])
    (hfound : ∀ c ∈ s.found, g.InTurn c.reverse) :
    ∀ c ∈ (nodes.foldl g.visitFresh s).found, g.InTurn c.reverse := by
  induction nodes generalizing s with
  | nil => exact hfound
  | cons v nodes ih =>
      refine ih (h.visitFresh v).1 fun c hc => ?_
      unfold visitFresh at hc
      split at hc
      · rename_i hfresh
        have hvisit := visit_threaded g g.size h hfresh (g.card_freshNodes_le s)
        exact (hvisit.found c hc).elim (hfound c) id
      · exact hfound c hc

/-- **Every component is listed in turn**, from its last node on. -/
theorem components_inTurn (hb : g.Bounded) : ∀ c ∈ g.components, g.InTurn c.reverse := by
  intro c hc
  refine inTurn_foldl_visit (List.range g.size) (sound_start hb) ?_ c (List.mem_reverse.1 hc)
  simp [Search.start]

end Digraph

end Rebuild
