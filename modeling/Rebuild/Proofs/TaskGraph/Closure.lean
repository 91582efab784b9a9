/-
What a selection pulls in is its closure under requirements.

`TaskGraph.planned` serves a stack of requests and strikes each task it reaches from a list.  Here
its result is compared with a relation that knows neither stack nor list: a name is *wanted* when it
is selected, or required by a registered task whose name is wanted.

Main definitions:

* `TaskGraph.Requires`, `TaskGraph.Wanted` — one requirement, and the names a selection leads to;
* `TaskGraph.Closed` — every wanted name is registered;
* `TaskGraph.Justified` — a request that the selection or a wanted task gives rise to;
* `TaskGraph.Serving` — the invariant of serving requests: what was reached is wanted, and what it
  requires was reached or is still on the stack.

Main results:

* `TaskGraph.unreached_spec` — every run of the stack keeps the invariant to its end;
* `TaskGraph.planned_ok` — **the planned tasks are the registered ones that are wanted**, in the
  order of registration, and then everything wanted is registered;
* `TaskGraph.planned_error` — otherwise the error names a request that is justified and unknown.
-/
import Rebuild.TaskGraph.Closure
import Mathlib

set_option relaxedAutoImplicit false
set_option autoImplicit false

namespace Rebuild.TaskGraph

open Relation

variable {g : TaskGraph} {selected : List String} {left : List Task} {stack : List Request}

/-! ### Names and tasks -/

/-- A task is known by its name. -/
theorem eq_of_name_eq (g : TaskGraph) {t u : Task} (ht : t ∈ g.tasks) (hu : u ∈ g.tasks)
    (h : t.name = u.name) : t = u :=
  List.inj_on_of_nodup_map g.names_nodup ht hu h

theorem mem_names {n : String} : n ∈ g.names ↔ ∃ t ∈ g.tasks, t.name = n :=
  List.mem_map

theorem get?_isSome_iff {n : String} : (g.get? n).isSome ↔ n ∈ g.names := by
  rw [mem_names, get?, List.find?_isSome]
  simp

/-! ### Requirements -/

/-- `a` is the name of a registered task that requires `b`. -/
def Requires (g : TaskGraph) (a b : String) : Prop :=
  ∃ t ∈ g.tasks, t.name = a ∧ b ∈ t.dependsOn

/-- The names that a selection leads to through requirements. -/
def Wanted (g : TaskGraph) (selected : List String) (n : String) : Prop :=
  ∃ s ∈ selected, ReflTransGen g.Requires s n

/-- Every name that the selection leads to is registered. -/
def Closed (g : TaskGraph) (selected : List String) : Prop :=
  ∀ n, g.Wanted selected n → n ∈ g.names

theorem wanted_of_mem {n : String} (h : n ∈ selected) : g.Wanted selected n :=
  ⟨n, h, ReflTransGen.refl⟩

theorem Wanted.tail {a b : String} (h : g.Wanted selected a) (hab : g.Requires a b) :
    g.Wanted selected b := by
  obtain ⟨s, hs, hsa⟩ := h
  exact ⟨s, hs, hsa.tail hab⟩

/-- Everything on the way from a wanted name is wanted. -/
theorem Wanted.trans {a b : String} (h : g.Wanted selected a) (hab : ReflTransGen g.Requires a b) :
    g.Wanted selected b := by
  obtain ⟨s, hs, hsa⟩ := h
  exact ⟨s, hs, hsa.trans hab⟩

theorem Wanted.mono {all : List String} {n : String} (hsub : ∀ s ∈ selected, s ∈ all)
    (h : g.Wanted selected n) : g.Wanted all n := by
  obtain ⟨s, hs, hsn⟩ := h
  exact ⟨s, hsub s hs, hsn⟩

/-- Selections of a graph that requires nothing unknown are closed. -/
theorem closed_of_requirements (hselected : ∀ n ∈ selected, n ∈ g.names)
    (hrequired : ∀ t ∈ g.tasks, ∀ d ∈ t.dependsOn.names, d ∈ g.names) : g.Closed selected := by
  rintro n ⟨s, hs, hsn⟩
  cases hsn.cases_tail with
  | inl heq => exact heq ▸ hselected s hs
  | inr hlast =>
      obtain ⟨_, _, t, ht, _, hd⟩ := hlast
      exact hrequired t ht n hd

theorem requires_of_mem {t : Task} {d : String} (ht : t ∈ g.tasks) (hd : d ∈ t.dependsOn) :
    g.Requires t.name d :=
  ⟨t, ht, rfl, hd⟩

/-! ### Serving requests -/

/-- A request that the selection makes, or a wanted task. -/
def Justified (g : TaskGraph) (selected : List String) (r : Request) : Prop :=
  (r.requiredBy = none ∧ r.name ∈ selected) ∨
    ∃ p, r.requiredBy = some p ∧ g.Wanted selected p ∧ g.Requires p r.name

theorem Justified.wanted {r : Request} (h : g.Justified selected r) : g.Wanted selected r.name := by
  rcases h with ⟨_, hr⟩ | ⟨p, _, hp, hpr⟩
  · exact wanted_of_mem hr
  · exact hp.tail hpr

/-- The name belongs to a task that was reached, or is still asked for. -/
def Met (g : TaskGraph) (left : List Task) (stack : List Request) (n : String) : Prop :=
  (∃ t ∈ g.tasks, t ∉ left ∧ t.name = n) ∨ ∃ r ∈ stack, r.name = n

/-- **The invariant of serving requests.**  The tasks that are not in `left` are the ones reached. -/
structure Serving (g : TaskGraph) (selected : List String) (left : List Task)
    (stack : List Request) : Prop where
  sublist : left.Sublist g.tasks
  justified : ∀ r ∈ stack, g.Justified selected r
  reached : ∀ t ∈ g.tasks, t ∉ left → g.Wanted selected t.name
  selection : ∀ n ∈ selected, g.Met left stack n
  requirements : ∀ t ∈ g.tasks, t ∉ left → ∀ d ∈ t.dependsOn, g.Met left stack d

theorem mem_requestsOf {t : Task} {r : Request} :
    r ∈ requestsOf t ↔ ∃ d ∈ t.dependsOn, r = ⟨d, some t.name⟩ := by
  unfold requestsOf
  simp only [List.mem_map, List.mem_reverse]
  constructor
  · rintro ⟨d, hd, rfl⟩
    exact ⟨d, hd, rfl⟩
  · rintro ⟨d, hd, rfl⟩
    exact ⟨d, hd, rfl⟩

/-- Striking out a name strikes out the one task that has it. -/
theorem mem_eraseP_name (hl : left.Sublist g.tasks) {n : String} {u : Task} :
    u ∈ left.eraseP (·.name == n) ↔ u ∈ left ∧ u.name ≠ n := by
  have hnd : (left.map Task.name).Nodup := (hl.map Task.name).nodup g.names_nodup
  clear hl
  induction left with
  | nil => simp
  | cons t ts ih =>
      obtain ⟨ht, hts⟩ := List.nodup_cons.1 hnd
      by_cases h : t.name = n
      · rw [List.eraseP_cons_of_pos (by simpa using h), List.mem_cons]
        constructor
        · intro hu
          refine ⟨Or.inr hu, ?_⟩
          rintro rfl
          exact ht (h ▸ List.mem_map_of_mem hu)
        · rintro ⟨rfl | hu, hn⟩
          · exact absurd h hn
          · exact hu
      · have hrest : u ∈ ts.eraseP (·.name == n) ↔ u ∈ ts ∧ u.name ≠ n := ih hts
        rw [List.eraseP_cons_of_neg (by simpa using h), List.mem_cons, List.mem_cons, hrest]
        constructor
        · rintro (rfl | ⟨hu, hn⟩)
          · exact ⟨Or.inl rfl, h⟩
          · exact ⟨Or.inr hu, hn⟩
        · rintro ⟨rfl | hu, hn⟩
          · exact Or.inl rfl
          · exact Or.inr ⟨hu, hn⟩

theorem serving_start (g : TaskGraph) (selected : List String) :
    g.Serving selected g.tasks (selected.reverse.map (⟨·, none⟩)) where
  sublist := List.Sublist.refl _
  justified := by
    intro r hr
    obtain ⟨n, hn, rfl⟩ := List.mem_map.1 hr
    exact Or.inl ⟨rfl, List.mem_reverse.1 hn⟩
  reached := fun t ht hn => absurd ht hn
  selection := by
    intro n hn
    exact Or.inr ⟨⟨n, none⟩, List.mem_map.2 ⟨n, List.mem_reverse.2 hn, rfl⟩, rfl⟩
  requirements := fun t ht hn => absurd ht hn

/-- A request for a task that was reached before is dropped. -/
theorem Serving.skip {r : Request} (h : g.Serving selected left (r :: stack))
    (hleft : left.find? (·.name == r.name) = none) (hr : r.name ∈ g.names) :
    g.Serving selected left stack := by
  have hmet : ∀ n, g.Met left (r :: stack) n → g.Met left stack n := by
    rintro n (hn | ⟨q, hq, rfl⟩)
    · exact Or.inl hn
    · rcases List.mem_cons.1 hq with rfl | hq
      · obtain ⟨t, ht, htn⟩ := mem_names.1 hr
        refine Or.inl ⟨t, ht, fun hmem => ?_, htn⟩
        exact List.find?_eq_none.1 hleft t hmem (by simpa using htn)
      · exact Or.inr ⟨q, hq, rfl⟩
  exact ⟨h.sublist, fun q hq => h.justified q (List.mem_cons_of_mem _ hq), h.reached,
    fun n hn => hmet n (h.selection n hn), fun t ht hn d hd => hmet d (h.requirements t ht hn d hd)⟩

/-- A task that is reached for the first time makes its own requests. -/
theorem Serving.reach {r : Request} {t : Task} (h : g.Serving selected left (r :: stack))
    (hleft : left.find? (·.name == r.name) = some t) :
    g.Serving selected (left.eraseP (·.name == r.name)) (requestsOf t ++ stack) := by
  have htl : t ∈ left := List.mem_of_find?_eq_some hleft
  have htn : t.name = r.name := by simpa using List.find?_some hleft
  have htg : t ∈ g.tasks := h.sublist.subset htl
  have hwanted : g.Wanted selected t.name :=
    htn ▸ (h.justified r (List.mem_cons_self ..)).wanted
  -- what is reached now was reached before or is `t` itself
  have hnew : ∀ u ∈ g.tasks, u ∉ left.eraseP (·.name == r.name) → u ∉ left ∨ u = t := by
    intro u hu hun
    by_cases hul : u ∈ left
    · right
      by_contra hne
      refine hun ((mem_eraseP_name h.sublist).2 ⟨hul, fun hn => hne ?_⟩)
      exact g.eq_of_name_eq hu htg (hn.trans htn.symm)
    · exact Or.inl hul
  have hmet : ∀ n, g.Met left (r :: stack) n →
      g.Met (left.eraseP (·.name == r.name)) (requestsOf t ++ stack) n := by
    rintro n (⟨u, hu, hul, rfl⟩ | ⟨q, hq, rfl⟩)
    · exact Or.inl ⟨u, hu, fun hm => hul ((mem_eraseP_name h.sublist).1 hm).1, rfl⟩
    · rcases List.mem_cons.1 hq with rfl | hq
      · exact Or.inl ⟨t, htg, fun hm => ((mem_eraseP_name h.sublist).1 hm).2 htn, htn⟩
      · exact Or.inr ⟨q, List.mem_append_right _ hq, rfl⟩
  refine ⟨List.eraseP_sublist.trans h.sublist, ?_, ?_, fun n hn => hmet n (h.selection n hn), ?_⟩
  · intro q hq
    rcases List.mem_append.1 hq with hq | hq
    · obtain ⟨d, hd, rfl⟩ := mem_requestsOf.1 hq
      exact Or.inr ⟨t.name, rfl, hwanted, requires_of_mem htg hd⟩
    · exact h.justified q (List.mem_cons_of_mem _ hq)
  · intro u hu hun
    rcases hnew u hu hun with hul | rfl
    · exact h.reached u hu hul
    · exact hwanted
  · intro u hu hun d hd
    rcases hnew u hu hun with hul | rfl
    · exact hmet d (h.requirements u hu hul d hd)
    · exact Or.inr ⟨⟨d, some u.name⟩, List.mem_append_left _ (mem_requestsOf.2 ⟨d, hd, rfl⟩), rfl⟩

/-- **Serving requests keeps the invariant to the end**: an empty stack, or a request that nothing
registered answers. -/
theorem unreached_spec (h : g.Serving selected left stack) :
    (∃ rest, g.unreached left stack = .ok rest ∧ g.Serving selected rest []) ∨
      ∃ r, g.unreached left stack = .error (.unknownTask r.name r.requiredBy) ∧
        g.Justified selected r ∧ r.name ∉ g.names := by
  -- case by case as requests are served: nothing left to serve, a task reached for the first time, a
  -- task reached before, and a name that nothing is registered for
  fun_induction unreached g left stack with
  | case1 left => exact Or.inl ⟨left, rfl, h⟩
  | case2 left r stack t hleft ih => exact ih (h.reach hleft)
  | case3 left r stack hleft hr ih => exact ih (h.skip hleft (get?_isSome_iff.1 hr))
  | case4 left r stack hleft hr =>
      refine Or.inr ⟨r, rfl, h.justified r (List.mem_cons_self ..), fun hn => hr ?_⟩
      exact get?_isSome_iff.2 hn

/-- When no request is left, every wanted name belongs to a task that was reached. -/
theorem Serving.wanted_reached (h : g.Serving selected left []) {n : String}
    (hn : g.Wanted selected n) : ∃ t ∈ g.tasks, t ∉ left ∧ t.name = n := by
  have hmet : ∀ n, g.Met left [] n → ∃ t ∈ g.tasks, t ∉ left ∧ t.name = n := by
    rintro n (hn | ⟨r, hr, _⟩)
    · exact hn
    · simp at hr
  -- along the path from the selection: what a reached task requires was reached as well
  obtain ⟨s, hs, hsn⟩ := hn
  induction hsn with
  | refl => exact hmet s (h.selection s hs)
  | tail _ hbc ih =>
      obtain ⟨t, ht, htl, rfl⟩ := ih
      obtain ⟨u, hu, hun, hd⟩ := hbc
      obtain rfl := g.eq_of_name_eq hu ht hun
      exact hmet _ (h.requirements u hu htl _ hd)

/-! ### Planned tasks -/

open Classical in
/-- **A selection that plans is closed, and its plan is made of the wanted tasks.** -/
theorem planned_ok {tasks : List Task} (h : g.planned selected = .ok tasks) :
    g.Closed selected ∧ tasks = g.tasks.filter fun t => decide (g.Wanted selected t.name) := by
  rcases unreached_spec (serving_start g selected) with ⟨rest, hrest, hinv⟩ | ⟨r, hr, _⟩
  · rw [planned, hrest] at h
    obtain rfl : g.tasks.filter (fun t => !rest.contains t) = tasks := Except.ok.inj h
    refine ⟨fun n hn => ?_, List.filter_congr fun t ht => ?_⟩
    · obtain ⟨t, ht, _, htn⟩ := hinv.wanted_reached hn
      exact mem_names.2 ⟨t, ht, htn⟩
    · have hiff : t ∉ rest ↔ g.Wanted selected t.name := by
        refine ⟨hinv.reached t ht, fun hw => ?_⟩
        obtain ⟨u, hu, hul, hun⟩ := hinv.wanted_reached hw
        exact g.eq_of_name_eq hu ht hun ▸ hul
      simp [← hiff]
  · rw [planned, hr] at h
    cases h

/-- **The only error of planning is a justified request that nothing registered answers.** -/
theorem planned_error {e : GraphError} (h : g.planned selected = .error e) :
    ∃ r, e = .unknownTask r.name r.requiredBy ∧ g.Justified selected r ∧ r.name ∉ g.names := by
  rcases unreached_spec (serving_start g selected) with ⟨rest, hrest, _⟩ | ⟨r, hr, hj, hn⟩
  · rw [planned, hrest] at h
    cases h
  · rw [planned, hr] at h
    obtain rfl : GraphError.unknownTask r.name r.requiredBy = e := Except.error.inj h
    exact ⟨r, rfl, hj, hn⟩

/-- A closed selection has a plan. -/
theorem planned_of_closed (h : g.Closed selected) : ∃ tasks, g.planned selected = .ok tasks := by
  cases hp : g.planned selected with
  | ok tasks => exact ⟨tasks, rfl⟩
  | error e =>
      obtain ⟨r, _, hj, hn⟩ := planned_error hp
      exact absurd (h r.name hj.wanted) hn

end Rebuild.TaskGraph
