/-
A registry with an index of names.

A graph finds a task by going through all of them.  A registry that is changed in place keeps a table
beside its tasks, which gives for each name the place of its task.  So two things have to be kept in
step, and a call that fails must have changed neither.

Main definitions:

* `Registry`, `Registry.register`, `Registry.get?` — tasks with their index, changed in place;
* `TaskGraph.ofCalls`, `Registry.ofCalls` — what calls leave, also those that fail;
* `TaskGraph.firstNamed` — the tasks whose names no task before them has;
* `Registry.Shows` — a registry that holds the tasks of a graph and knows their places;
* `TaskGraph.InBounds` — whatever is looked up while planned tasks are ordered is there.

Main results:

* `Registry.Shows.register_taken`, `Registry.Shows.register_new` — **one call keeps both in step**, and
  changes nothing if it fails;
* `Registry.shows_ofCalls`, `TaskGraph.tasks_ofCalls`, `TaskGraph.get?_ofCalls` — what a run of calls
  leaves;
* `TaskGraph.inBounds_of_planned` — what is planned is in bounds;
* `TaskGraph.registration_outcome` — **a graph and its index after any calls**.
-/
import Rebuild.Proofs.Action
import Rebuild.Proofs.TaskGraph.HardCycle
import Rebuild.Proofs.TaskGraph.Registration

set_option relaxedAutoImplicit false
set_option autoImplicit false

namespace Rebuild

variable {g g' : TaskGraph} {t : Task} {calls : List Task} {n : String}

/-! ### Registries -/

/-- Tasks in the order of registration, and for each name the place of its task. -/
structure Registry where
  tasks : Array Task
  index : Std.HashMap String ℕ

namespace Registry

def empty : Registry := ⟨#[], ∅⟩

/-- Adds a task behind the others, unless its name is taken. -/
def register (t : Task) : EStateM GraphError Registry Unit := do
  if (← get).index.contains t.name then throw (.duplicateTask t.name)
  modify fun r => { r with index := r.index.insert t.name r.tasks.size }
  modify fun r => { r with tasks := r.tasks.push t }

/-- The task at the place that the index gives. -/
def get? (r : Registry) (n : String) : Option Task :=
  r.index[n]?.bind fun i => r.tasks[i]?

/-- What calls leave of an empty registry, one after another. -/
def ofCalls (calls : List Task) : Registry :=
  calls.foldl (fun r t => endOf (register t r)) empty

theorem register_eq (t : Task) (r : Registry) : register t r =
    if r.index.contains t.name then .error (.duplicateTask t.name) r
    else .ok () ⟨r.tasks.push t, r.index.insert t.name r.tasks.size⟩ := by
  change (if r.index.contains t.name then _ else _ : EStateM GraphError Registry Unit) r = _
  split <;> rfl

theorem ofCalls_concat (calls : List Task) (t : Task) :
    ofCalls (calls ++ [t]) = endOf (register t (ofCalls calls)) :=
  List.foldl_concat ..

end Registry

/-! ### Graphs -/

namespace TaskGraph

/-- What calls leave of an empty graph, one after another; one that fails is passed over. -/
def ofCalls (calls : List Task) : TaskGraph :=
  calls.foldl (fun g t => (g.register t).toOption.getD g) empty

/-- The tasks whose names no task before them has, in order. -/
def firstNamed (calls : List Task) : List Task :=
  (calls.zipIdx.filter fun (t, i) => t.name ∉ (calls.take i).map Task.name).map Prod.fst

theorem ofCalls_concat (calls : List Task) (t : Task) :
    ofCalls (calls ++ [t]) = ((ofCalls calls).register t).toOption.getD (ofCalls calls) :=
  List.foldl_concat ..

theorem ofCalls_taken (h : t.name ∈ (ofCalls calls).names) :
    ofCalls (calls ++ [t]) = ofCalls calls := by
  rw [ofCalls_concat, register_error h]
  rfl

theorem ofCalls_new (h : t.name ∉ (ofCalls calls).names) :
    (ofCalls calls).register t = .ok (ofCalls (calls ++ [t])) := by
  obtain ⟨g', hreg⟩ := exists_register h
  rw [ofCalls_concat, hreg]
  rfl

/-- **A name has the place of the one task of that name.** -/
theorem position?_eq_some_iff {i : ℕ} :
    g.position? n = some i ↔ ∃ t, g.tasks[i]? = some t ∧ t.name = n :=
  Keyed.findIdx?_eq_some_iff g.names_nodup

theorem position?_isSome_iff : (g.position? n).isSome = true ↔ n ∈ g.names := by
  rw [position?, List.findIdx?_isSome, List.any_eq_true, mem_names]
  simp

/-- The place of a new task is behind all others. -/
theorem position?_of_register (h : g.register t = .ok g') (n : String) :
    g'.position? n = if t.name = n then some g.tasks.length else g.position? n := by
  have hnew : t.name ∉ g.names := by
    intro hmem
    cases h.symm.trans (register_error hmem)
  rw [position?, tasks_of_register h, List.findIdx?_append]
  by_cases hname : t.name = n
  · subst hname
    have hnone : g.position? t.name = none :=
      Option.not_isSome_iff_eq_none.1 fun hsome => hnew (position?_isSome_iff.1 hsome)
    rw [← position?, hnone]
    simp
  · simp [hname, position?]

end TaskGraph

namespace Registry

variable {r : Registry}

/-! ### Tasks and index in step -/

/-- **A registry that shows a graph**: it holds the same tasks, and its index gives their places. -/
structure Shows (r : Registry) (g : TaskGraph) : Prop where
  tasks : r.tasks.toList = g.tasks
  index : ∀ n, r.index[n]? = g.position? n

theorem shows_empty : empty.Shows TaskGraph.empty where
  tasks := rfl
  index n := by simp [empty, TaskGraph.empty, TaskGraph.position?]

theorem Shows.get?_eq (h : r.Shows g) (n : String) : r.get? n = g.get? n := by
  rw [get?, h.index, TaskGraph.get?, List.find?_eq_bind_findIdx?_getElem?, ← h.tasks,
    TaskGraph.position?, ← h.tasks]
  simp

theorem Shows.contains_iff (h : r.Shows g) : r.index.contains n = true ↔ n ∈ g.names := by
  rw [Std.HashMap.contains_eq_isSome_getElem?, h.index, TaskGraph.position?_isSome_iff]

/-- **A call with a name that is taken fails and changes nothing.** -/
theorem Shows.register_taken (h : r.Shows g) (ht : t.name ∈ g.names) :
    register t r = .error (.duplicateTask t.name) r := by
  rw [register_eq, if_pos (h.contains_iff.2 ht)]

/-- **A call with a new name keeps tasks and index in step.** -/
theorem Shows.register_new (h : r.Shows g) (ht : t.name ∉ g.names) (hreg : g.register t = .ok g') :
    ∃ r', register t r = .ok () r' ∧ r'.Shows g' := by
  refine ⟨_, by rw [register_eq, if_neg fun hmem => ht (h.contains_iff.1 hmem)], ?_, fun n => ?_⟩
  · rw [Array.toList_push, h.tasks, TaskGraph.tasks_of_register hreg]
  · rw [Std.HashMap.getElem?_insert, TaskGraph.position?_of_register hreg, h.index, ← h.tasks,
      Array.length_toList]
    simp only [beq_iff_eq]

/-- **Tasks and index are in step after any calls.** -/
theorem shows_ofCalls (calls : List Task) : (ofCalls calls).Shows (TaskGraph.ofCalls calls) := by
  induction calls using List.reverseRecOn with
  | nil => exact shows_empty
  | append_singleton calls t ih =>
      rw [ofCalls_concat]
      by_cases ht : t.name ∈ (TaskGraph.ofCalls calls).names
      · rw [ih.register_taken ht, TaskGraph.ofCalls_taken ht]
        exact ih
      · obtain ⟨r', hr', hshows⟩ := ih.register_new ht (TaskGraph.ofCalls_new ht)
        rw [hr']
        exact hshows

end Registry

namespace TaskGraph

/-! ### Runs of calls -/

theorem firstNamed_concat (calls : List Task) (t : Task) : firstNamed (calls ++ [t]) =
    firstNamed calls ++ if t.name ∈ calls.map Task.name then [] else [t] := by
  have hbefore : calls.zipIdx.filter (fun (u, i) => u.name ∉ ((calls ++ [t]).take i).map Task.name) =
      calls.zipIdx.filter fun (u, i) => u.name ∉ (calls.take i).map Task.name := by
    refine List.filter_congr fun (u, i) hu => ?_
    have hi : i ≤ calls.length := (List.snd_lt_of_mem_zipIdx hu).le
    dsimp only
    rw [List.take_append_of_le_length hi]
  rw [firstNamed, List.zipIdx_append, List.filter_append, List.map_append, hbefore, ← firstNamed]
  by_cases ht : t.name ∈ calls.map Task.name <;> simp [ht]

/-- The names of the graph are those that were called. -/
theorem mem_names_ofCalls : n ∈ (ofCalls calls).names ↔ n ∈ calls.map Task.name := by
  induction calls using List.reverseRecOn with
  | nil => rfl
  | append_singleton calls t ih =>
      rw [List.map_append, List.mem_append, ← ih]
      by_cases ht : t.name ∈ (ofCalls calls).names
      · rw [ofCalls_taken ht]
        refine (or_iff_left_of_imp fun hn => ?_).symm
        exact List.mem_singleton.1 hn ▸ ht
      · rw [names, tasks_of_register (ofCalls_new ht), List.map_append, List.mem_append]
        rfl

/-- **The tasks are those whose names were not registered before.** -/
theorem tasks_ofCalls (calls : List Task) : (ofCalls calls).tasks = firstNamed calls := by
  induction calls using List.reverseRecOn with
  | nil => rfl
  | append_singleton calls t ih =>
      rw [firstNamed_concat, ← ih]
      by_cases ht : t.name ∈ (ofCalls calls).names
      · rw [ofCalls_taken ht, if_pos (mem_names_ofCalls.1 ht), List.append_nil]
      · rw [tasks_of_register (ofCalls_new ht), if_neg fun hmem => ht (mem_names_ofCalls.2 hmem)]

/-- **A name gives the first task that was registered under it.** -/
theorem get?_ofCalls (calls : List Task) (n : String) :
    (ofCalls calls).get? n = calls.find? (·.name == n) := by
  induction calls using List.reverseRecOn with
  | nil => rfl
  | append_singleton calls t ih =>
      rw [List.find?_append, ← ih]
      by_cases ht : t.name ∈ (ofCalls calls).names
      · rw [ofCalls_taken ht]
        by_cases hname : t.name = n
        · rw [Option.or_of_isSome (get?_isSome_iff.2 (hname ▸ ht))]
        · simp [hname]
      · rw [get?, tasks_of_register (ofCalls_new ht), List.find?_append]
        rfl

/-- Later calls leave the tasks that are there at their places. -/
theorem tasks_ofCalls_prefix (calls more : List Task) :
    (ofCalls calls).tasks <+: (ofCalls (calls ++ more)).tasks := by
  induction more using List.reverseRecOn with
  | nil => rw [List.append_nil]
  | append_singleton more t ih =>
      rw [← List.append_assoc]
      by_cases ht : t.name ∈ (ofCalls (calls ++ more)).names
      · rwa [ofCalls_taken ht]
      · rw [tasks_of_register (ofCalls_new ht)]
        exact ih.trans (List.prefix_append _ _)

/-! ### Looking up what is planned -/

/-- Whatever is looked up while planned tasks are ordered is there: with `index` for the places of
names, the tasks that are required are found among the planned ones, and the nodes of an order or of a
cycle are places of planned tasks. -/
structure InBounds (g : TaskGraph) (index : String → Option ℕ) (tasks : List Task) : Prop where
  required : ∀ t ∈ tasks, ∀ d ∈ t.dependsOn,
    ∃ i s, index d = some i ∧ g.tasks[i]? = some s ∧ s ∈ tasks
  ordered : ∀ nodes, (orderGraph tasks).order? = some nodes → ∀ v ∈ nodes, v < tasks.length
  circular : (orderGraph tasks).order? = none →
    ∃ nodes, (orderGraph tasks).hardCycle? = some nodes ∧ ∀ v ∈ nodes, v < tasks.length

theorem inBounds_of_planned {selected : List String} {tasks : List Task}
    (h : g.planned selected = .ok tasks) : g.InBounds g.position? tasks where
  required := by
    intro t ht d hd
    obtain ⟨htg, hw⟩ := (mem_planned h).1 ht
    obtain ⟨s, hs, rfl⟩ := exists_planned h (hw.tail (requires_of_mem htg hd))
    obtain ⟨i, hi⟩ := List.mem_iff_getElem?.1 ((mem_planned h).1 hs).1
    exact ⟨i, s, position?_eq_some_iff.2 ⟨s, hi, rfl⟩, hi, hs⟩
  ordered := fun nodes hnodes v hv =>
    List.mem_range.1 ((OrderGraph.order?_some hnodes).2.mem_iff.1 hv)
  circular := by
    intro hnone
    obtain ⟨start, rest, hcycle, _, hlt, _⟩ :=
      OrderGraph.hardCycle?_spec (bounded_orderGraph (nodup_of_planned h)) hnone
    refine ⟨_, hcycle, fun v hv => hlt v ?_⟩
    rcases List.mem_append.1 hv with hv | hv
    · exact hv
    · exact List.mem_singleton.1 hv ▸ List.mem_cons_self ..

/-- **A graph and its index after any calls.**  The tasks are those whose names were not registered
before, in the order of the calls, and no two have one name; the index of a registry gives a place for
a name exactly if the task at that place has the name, so a name is answered with the first task
registered under it, and all that is looked up for planned tasks is there.  A further call fails exactly
if its name is taken, with that name, and leaves graph and registry as they were; and no later calls
change a task that is there, or its place. -/
theorem registration_outcome (calls : List Task) :
    ((ofCalls calls).tasks = firstNamed calls ∧ ((ofCalls calls).tasks.map Task.name).Nodup ∧
      (Registry.ofCalls calls).tasks.toList = (ofCalls calls).tasks) ∧
    (∀ n, (Registry.ofCalls calls).index[n]? = (ofCalls calls).position? n ∧
      ∀ i, (Registry.ofCalls calls).index[n]? = some i ↔
        ∃ t, (Registry.ofCalls calls).tasks[i]? = some t ∧ t.name = n) ∧
    (∀ n, (ofCalls calls).get? n = calls.find? (·.name == n) ∧
      (Registry.ofCalls calls).get? n = calls.find? (·.name == n)) ∧
    (∀ selected tasks, (ofCalls calls).planned selected = .ok tasks →
      (ofCalls calls).InBounds (fun n => (Registry.ofCalls calls).index[n]?) tasks) ∧
    (∀ t : Task, t.name ∈ (ofCalls calls).names →
      (ofCalls calls).register t = .error (.duplicateTask t.name) ∧
      ofCalls (calls ++ [t]) = ofCalls calls ∧
      Registry.register t (Registry.ofCalls calls) =
        .error (.duplicateTask t.name) (Registry.ofCalls calls)) ∧
    (∀ t : Task, t.name ∉ (ofCalls calls).names →
      (ofCalls calls).register t = .ok (ofCalls (calls ++ [t])) ∧
      Registry.register t (Registry.ofCalls calls) = .ok () (Registry.ofCalls (calls ++ [t]))) ∧
    ∀ (more : List Task) (i : ℕ) (t : Task), (ofCalls calls).tasks[i]? = some t →
      (ofCalls (calls ++ more)).tasks[i]? = some t := by
  have hshows := Registry.shows_ofCalls calls
  have hindex : (fun n => (Registry.ofCalls calls).index[n]?) = (ofCalls calls).position? :=
    funext hshows.index
  refine ⟨⟨tasks_ofCalls calls, (ofCalls calls).names_nodup, hshows.tasks⟩,
    fun n => ⟨hshows.index n, fun i => ?_⟩, fun n => ⟨get?_ofCalls calls n, ?_⟩,
    fun selected tasks h => hindex ▸ inBounds_of_planned h, fun t ht => ?_, fun t ht => ?_,
    fun more i t ht => ?_⟩
  · rw [hshows.index, position?_eq_some_iff, ← hshows.tasks]
    simp
  · rw [hshows.get?_eq, get?_ofCalls]
  · exact ⟨register_error ht, ofCalls_taken ht, hshows.register_taken ht⟩
  · obtain ⟨r', hr', _⟩ := hshows.register_new ht (ofCalls_new ht)
    refine ⟨ofCalls_new ht, ?_⟩
    rw [Registry.ofCalls_concat, hr']
    rfl
  · obtain ⟨later, hlater⟩ := tasks_ofCalls_prefix calls more
    rw [← hlater, List.getElem?_append_left (List.getElem?_eq_some_iff.1 ht).1, ht]

end TaskGraph

end Rebuild
