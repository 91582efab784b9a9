/-
Running tasks until one fails.

* `Runs` — tasks that all succeed, one on the state the other left;
* `Runs.keepsTo` — **what every task keeps to, a run keeps to**;
* `runs_or_stops` — tasks all succeed, or those before one that fails do;
* `execute_failed` — a run that failed did so at one task, after all before it had succeeded.
-/
import Rebuild.Execution
import Rebuild.Proofs.Action

set_option relaxedAutoImplicit false
set_option autoImplicit false

namespace Rebuild

variable {ε σ : Type} {run : Task → EStateM ε σ Unit} {tasks : List Task} {s s' : σ}

/-- The tasks run one after another, all succeed, and lead from one state to the other. -/
inductive Runs (run : Task → EStateM ε σ Unit) : List Task → σ → σ → Prop
  | done (s : σ) : Runs run [] s s
  | step {t : Task} {ts : List Task} {s mid s' : σ} (ht : run t s = .ok () mid)
      (hts : Runs run ts mid s') : Runs run (t :: ts) s s'

theorem Runs.keepsTo {r : σ → σ → Prop} [IsPreorder σ r] (hrun : ∀ t, KeepsTo r (run t))
    (h : Runs run tasks s s') : r s s' := by
  induction h with
  | done s => exact refl s
  | step ht _ ih => exact IsTrans.trans _ _ _ ((hrun _).of_ok ht) ih

/-- **A run goes on with the tasks that are left.** -/
theorem Runs.execute_append {done : List Task} (h : Runs run done s s') (rest : List Task) :
    execute run (done ++ rest) s =
      (⟨done.map (fun t => (t.name, .succeeded)) ++ (execute run rest s').1.tasks,
        (execute run rest s').1.failed⟩, (execute run rest s').2) := by
  induction h with
  | done s => rfl
  | step ht _ ih => simp only [List.cons_append, execute, ht, ih, List.map_cons]

/-- Tasks all succeed, or those before one that fails do. -/
theorem runs_or_stops (run : Task → EStateM ε σ Unit) (tasks : List Task) (s : σ) :
    (∃ s', Runs run tasks s s') ∨ ∃ done t rest mid e s', tasks = done ++ t :: rest ∧
      Runs run done s mid ∧ run t mid = .error e s' := by
  induction tasks generalizing s with
  | nil => exact Or.inl ⟨s, Runs.done s⟩
  | cons t ts ih =>
      cases ht : run t s with
      | error e s' => exact Or.inr ⟨[], t, ts, s, e, s', rfl, Runs.done s, ht⟩
      | ok u mid =>
          rcases ih mid with ⟨s', hruns⟩ | ⟨done, t', rest, last, e, s', rfl, hruns, hfail⟩
          · exact Or.inl ⟨s', Runs.step ht hruns⟩
          · exact Or.inr ⟨t :: done, t', rest, last, e, s', rfl, Runs.step ht hruns, hfail⟩

/-- A run that did not fail ran all tasks. -/
theorem runs_of_execute (h : (execute run tasks s).1.failed = none) :
    Runs run tasks s (execute run tasks s).2 := by
  induction tasks generalizing s with
  | nil => exact Runs.done s
  | cons t ts ih =>
      unfold execute at h ⊢
      cases ht : run t s with
      | error e s' =>
          rw [ht] at h
          cases h
      | ok u mid =>
          rw [ht] at h
          exact Runs.step ht (ih h)

/-- Joined tasks run one part after the other. -/
theorem Runs.split {done rest : List Task} (h : Runs run (done ++ rest) s s') :
    ∃ mid, Runs run done s mid ∧ Runs run rest mid s' := by
  induction done generalizing s with
  | nil => exact ⟨s, Runs.done s, h⟩
  | cons t ts ih =>
      cases h with
      | step ht hrest =>
          obtain ⟨mid, hdone, hrest⟩ := ih hrest
          exact ⟨mid, Runs.step ht hdone, hrest⟩

/-- The tasks behind one that fails are not run. -/
theorem Runs.execute_stop {done : List Task} {mid : σ} {t : Task} {e : ε} (h : Runs run done s mid)
    (ht : run t mid = .error e s') (rest : List Task) : execute run (done ++ t :: rest) s =
      (⟨done.map (fun u => (u.name, .succeeded)) ++
          (t.name, .failed) :: rest.map fun u => (u.name, .notRun), some (t.name, e)⟩, s') := by
  rw [h.execute_append, execute, ht]

/-- **The first failure stops a run**: all tasks before it succeeded, and it left the final state. -/
theorem execute_failed {name : String} {e : ε}
    (h : (execute run tasks s).1.failed = some (name, e)) :
    ∃ done t rest mid, tasks = done ++ t :: rest ∧ t.name = name ∧ Runs run done s mid ∧
      run t mid = .error e (execute run tasks s).2 := by
  rcases runs_or_stops run tasks s with ⟨s', hruns⟩ | ⟨done, t, rest, mid, e', s', rfl, hruns, hfail⟩
  · rw [← List.append_nil tasks, hruns.execute_append] at h
    cases h
  · rw [hruns.execute_stop hfail] at h ⊢
    cases h
    exact ⟨done, t, rest, mid, rfl, rfl, hruns, hfail⟩

/-- Every task is reported, in order. -/
theorem names_execute (run : Task → EStateM ε σ Unit) (tasks : List Task) (s : σ) :
    (execute run tasks s).1.tasks.map Prod.fst = tasks.map Task.name := by
  induction tasks generalizing s with
  | nil => rfl
  | cons t ts ih =>
      cases ht : run t s with
      | error e s' => simp [execute, ht]
      | ok u mid => simp [execute, ht, ih mid]

end Rebuild
