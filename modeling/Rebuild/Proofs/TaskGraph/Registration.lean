/-
Registering tasks one after another.

* `TaskGraph.register_error`, `TaskGraph.tasks_of_register` — a name that is taken, and one that is not;
* `TaskGraph.tasks_of_registerAll` — **what is registered is put behind what was there**;
* `TaskGraph.registerAll_of_nodup` — tasks with different names can all be registered.
-/
import Rebuild.TaskGraph
import Mathlib

set_option relaxedAutoImplicit false
set_option autoImplicit false

namespace Rebuild.TaskGraph

variable {g g' : TaskGraph} {t : Task} {ts : List Task}

/-- A name that is taken is refused. -/
theorem register_error (h : t.name ∈ g.names) : g.register t = .error (.duplicateTask t.name) :=
  dif_pos h

theorem exists_register (h : t.name ∉ g.names) : ∃ g', g.register t = .ok g' :=
  ⟨_, dif_neg h⟩

theorem tasks_of_register (h : g.register t = .ok g') : g'.tasks = g.tasks ++ [t] := by
  unfold register at h
  split at h
  · cases h
  · rw [← Except.ok.inj h]

/-- **What is registered is put behind what was there.** -/
theorem tasks_of_registerAll (h : g.registerAll ts = .ok g') : g'.tasks = g.tasks ++ ts := by
  induction ts generalizing g with
  | nil =>
      obtain rfl := Except.ok.inj h
      simp
  | cons t ts ih =>
      rw [registerAll] at h
      cases hreg : g.register t with
      | error e =>
          rw [hreg] at h
          cases h
      | ok g₁ =>
          rw [hreg] at h
          rw [ih h, tasks_of_register hreg, List.append_assoc, List.singleton_append]

/-- Tasks with different names can all be registered. -/
theorem registerAll_of_nodup (h : ((g.tasks ++ ts).map Task.name).Nodup) :
    ∃ g', g.registerAll ts = .ok g' := by
  induction ts generalizing g with
  | nil => exact ⟨g, rfl⟩
  | cons t ts ih =>
      have hnew : t.name ∉ g.tasks.map Task.name := by
        rw [List.map_append, List.map_cons] at h
        exact fun hmem => (List.nodup_append.1 h).2.2 t.name hmem t.name (List.mem_cons_self ..) rfl
      rw [registerAll, register, dif_neg hnew]
      exact ih (by simpa using h)

end Rebuild.TaskGraph
