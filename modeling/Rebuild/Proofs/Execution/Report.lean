/-
What a report tells of a run.

A run calls the runner on the first tasks of its plan, each on the state that the call before it left,
and the report says of every task how far that went.  A plan may name a task twice, so calls and
statuses belong together by their places and not by names.

Main definitions:

* `Call`, `calls` — a task with the state that the runner was called on, and all calls of a run;
* `CallChain` — calls made one after another, of which only the last one may fail;
* `Report.blank`, `Report.mark`, `executeMarking` — a run that marks statuses in a report which says of
  every task that it did not run;
* `Report.Tells` — what a report has to say of the calls.

Main results:

* `calls_chain` — **each call is made on the state that the one before left**, and a failure ends them;
* `Runs.tells`, `Runs.tells_stop` — what is told of a run that goes through, and of one that stops;
* `executeMarking_blank` — **marking statuses at their places gives the same report**;
* `execute_outcome` — **the report of a run agrees with the calls it made**.
-/
import Rebuild.Proofs.Execution.History

set_option relaxedAutoImplicit false
set_option autoImplicit false

namespace Rebuild

variable {ε σ : Type} {run : Task → EStateM ε σ Unit} {t : Task} {tasks done : List Task}
  {s s' mid : σ} {e : ε}

/-! ### Calls -/

/-- A task on which the runner was called, and the state it was called on. -/
structure Call (σ : Type) where
  task : Task
  state : σ

def Event.call? : Event σ → Option (Call σ)
  | .started t s => some ⟨t, s⟩
  | .ended _ _ => none

/-- The calls that a run makes, in order. -/
def calls (run : Task → EStateM ε σ Unit) (tasks : List Task) (s : σ) : List (Call σ) :=
  (history run tasks s).filterMap Event.call?

/-- Calls made one after another from a state, with the error of the last one and the state it left. -/
inductive CallChain (run : Task → EStateM ε σ Unit) : List (Call σ) → σ → Option ε → σ → Prop
  | done (s : σ) : CallChain run [] s none s
  | failed {t : Task} {s s' : σ} {e : ε} (ht : run t s = .error e s') :
      CallChain run [⟨t, s⟩] s (some e) s'
  | succeeded {t : Task} {later : List (Call σ)} {s mid s' : σ} {failure : Option ε}
      (ht : run t s = .ok () mid) (hlater : CallChain run later mid failure s') :
      CallChain run (⟨t, s⟩ :: later) s failure s'

theorem calls_nil (run : Task → EStateM ε σ Unit) (s : σ) : calls run [] s = [] := rfl

theorem calls_cons_ok (ht : run t s = .ok () mid) (ts : List Task) :
    calls run (t :: ts) s = ⟨t, s⟩ :: calls run ts mid := by
  rw [calls, history_cons_ok ht]
  rfl

theorem calls_cons_error (ht : run t s = .error e mid) (ts : List Task) :
    calls run (t :: ts) s = [⟨t, s⟩] := by
  rw [calls, history_cons_error ht]
  rfl

/-- **Each call is made on the state that the one before left.**  A failure ends the calls, and it is
the one that is reported. -/
theorem calls_chain (run : Task → EStateM ε σ Unit) (tasks : List Task) (s : σ) :
    CallChain run (calls run tasks s) s ((execute run tasks s).1.failed.map Prod.snd)
      (execute run tasks s).2 := by
  induction tasks generalizing s with
  | nil => exact CallChain.done s
  | cons t ts ih =>
      cases ht : run t s with
      | error e s' =>
          rw [calls_cons_error ht, execute, ht]
          exact CallChain.failed ht
      | ok u mid =>
          rw [calls_cons_ok ht, execute, ht]
          exact CallChain.succeeded ht (ih mid)

theorem Runs.calls_append (h : Runs run done s mid) (rest : List Task) :
    calls run (done ++ rest) s = calls run done s ++ calls run rest mid := by
  rw [calls, h.history_append, List.filterMap_append]
  rfl

theorem Runs.map_task_calls (h : Runs run done s mid) : (calls run done s).map Call.task = done := by
  induction h with
  | done s => rfl
  | step ht _ ih => rw [calls_cons_ok ht, List.map_cons, ih]

theorem Runs.length_calls (h : Runs run done s mid) : (calls run done s).length = done.length := by
  rw [← List.length_map (f := Call.task), h.map_task_calls]

/-- Calls on tasks that all succeed have succeeded. -/
theorem Runs.ok_of_mem_calls (h : Runs run done s mid) :
    ∀ c ∈ calls run done s, ∃ s', run c.task c.state = .ok () s' := by
  induction h with
  | done s => simp [calls_nil]
  | step ht _ ih =>
      rw [calls_cons_ok ht]
      exact List.forall_mem_cons.2 ⟨⟨_, ht⟩, ih⟩

/-- The last call of a run that stops is the one that fails. -/
theorem Runs.calls_stop (h : Runs run done s mid) (ht : run t mid = .error e s') (rest : List Task) :
    calls run (done ++ t :: rest) s = calls run done s ++ [⟨t, mid⟩] := by
  rw [h.calls_append, calls_cons_error ht]

/-! ### What is told -/

theorem Report.length_succeeded (r : Report ε) :
    r.succeeded.length = (r.tasks.map Prod.snd).count .succeeded := by
  rw [succeeded, List.length_map, List.count, List.countP_map, List.countP_eq_length_filter]
  rfl

theorem Report.notRun_eq_count (r : Report ε) :
    r.notRun = (r.tasks.map Prod.snd).count .notRun := by
  rw [notRun, List.count, List.countP_map, List.countP_eq_length_filter]
  rfl

/-- **What a report tells of the calls made for a plan.** -/
structure Report.Tells (run : Task → EStateM ε σ Unit) (plan : List Task) (made : List (Call σ))
    (r : Report ε) : Prop where
  /-- The calls are on the first tasks of the plan, in order and one for each place. -/
  called : made.map Call.task = plan.take made.length
  names : r.tasks.map Prod.fst = plan.map Task.name
  /-- All tasks succeeded, or the last one called failed; then those before it succeeded, and those
  behind it did not run. -/
  statuses : (made.length = plan.length ∧
      r.tasks.map Prod.snd = List.replicate plan.length .succeeded) ∨
    ∃ before behind : ℕ, made.length = before + 1 ∧ plan.length = before + 1 + behind ∧
      r.tasks.map Prod.snd =
        List.replicate before .succeeded ++ .failed :: List.replicate behind .notRun
  failed_iff : r.failed.isSome = true ↔ .failed ∈ r.tasks.map Prod.snd
  /-- The task at the place that failed is named, with the error of its call. -/
  failed_at : ∀ i, (r.tasks.map Prod.snd)[i]? = some .failed → i + 1 = made.length ∧
    ∃ c e s', made[i]? = some c ∧ plan[i]? = some c.task ∧ run c.task c.state = .error e s' ∧
      r.failed = some (c.task.name, e)
  isSuccess_iff : r.isSuccess = true ↔
    made.map Call.task = plan ∧ ∀ c ∈ made, ∃ s', run c.task c.state = .ok () s'
  /-- Every task is counted once. -/
  count : r.succeeded.length + (if r.failed.isSome then 1 else 0) + r.notRun = plan.length

/-- Of tasks that all succeed the report tells so. -/
theorem Runs.tells (h : Runs run tasks s s') :
    (execute run tasks s).1.Tells run tasks (calls run tasks s) := by
  have hreport : (execute run tasks s).1 = ⟨tasks.map fun t => (t.name, .succeeded), none⟩ := by
    simpa [execute] using congrArg Prod.fst (h.execute_append [])
  have hstatuses : (tasks.map fun t => (t.name, Status.succeeded)).map Prod.snd =
      List.replicate tasks.length .succeeded := by
    simp [Function.comp_def]
  have hnames := names_execute run tasks s
  rw [hreport] at hnames ⊢
  refine { called := ?called, names := hnames, statuses := Or.inl ⟨h.length_calls, hstatuses⟩,
           failed_iff := ?failed_iff, failed_at := ?failed_at, isSuccess_iff := ?isSuccess_iff,
           count := ?count }
  case called => rw [h.map_task_calls, h.length_calls, List.take_length]
  case failed_iff =>
    rw [hstatuses]
    simp
  case failed_at =>
    intro i hi
    rw [hstatuses] at hi
    simp [List.getElem?_replicate] at hi
  case isSuccess_iff =>
    have hsuccess : ∀ c ∈ calls run tasks s, ∃ s', run c.task c.state = .ok () s' :=
      h.ok_of_mem_calls
    simpa [Report.isSuccess, h.map_task_calls] using hsuccess
  case count =>
    rw [Report.length_succeeded, Report.notRun_eq_count, hstatuses]
    simp [List.count_replicate]

/-- Of a task that fails the report tells so, and that the tasks behind it did not run. -/
theorem Runs.tells_stop (h : Runs run done s mid) (ht : run t mid = .error e s') (rest : List Task) :
    (execute run (done ++ t :: rest) s).1.Tells run (done ++ t :: rest)
      (calls run (done ++ t :: rest) s) := by
  have hstatuses : (done.map (fun u : Task => (u.name, Status.succeeded)) ++
      (t.name, Status.failed) :: rest.map fun u : Task => (u.name, Status.notRun)).map Prod.snd =
        List.replicate done.length .succeeded ++ .failed :: List.replicate rest.length .notRun := by
    simp [Function.comp_def]
  have hmade : (calls run done s ++ [Call.mk t mid]).length = done.length + 1 := by
    rw [List.length_append, h.length_calls, List.length_singleton]
  have hplan : (done ++ t :: rest).length = done.length + 1 + rest.length := by
    rw [List.length_append, List.length_cons, Nat.add_assoc, Nat.add_comm 1]
  have hnames := names_execute run (done ++ t :: rest) s
  rw [h.execute_stop ht] at hnames ⊢
  rw [h.calls_stop ht]
  refine { called := ?called, names := hnames,
           statuses := Or.inr ⟨done.length, rest.length, hmade, hplan, hstatuses⟩,
           failed_iff := ?failed_iff, failed_at := ?failed_at, isSuccess_iff := ?isSuccess_iff,
           count := ?count }
  case called =>
    rw [List.map_append, h.map_task_calls, hmade]
    simp [List.take_append]
  case failed_iff =>
    rw [hstatuses]
    simp
  case failed_at =>
    intro i hi
    -- only the place behind the tasks that succeeded holds a failure
    obtain rfl : i = done.length := by
      rw [hstatuses] at hi
      rcases Nat.lt_trichotomy i done.length with hlt | heq | hgt
      · simp [List.getElem?_append_left, hlt] at hi
      · exact heq
      · obtain ⟨k, rfl⟩ := Nat.exists_eq_add_of_lt hgt
        simp [List.getElem?_append_right, Nat.add_assoc, List.getElem?_replicate] at hi
    have hlast : (calls run done s ++ [Call.mk t mid])[done.length]? = some ⟨t, mid⟩ := by
      rw [← h.length_calls, List.getElem?_concat_length]
    have htask : (done ++ t :: rest)[done.length]? = some t := by simp
    exact ⟨hmade.symm, ⟨t, mid⟩, e, s', hlast, htask, ht, rfl⟩
  case isSuccess_iff =>
    refine iff_of_false (by simp [Report.isSuccess]) ?_
    rintro ⟨-, hall⟩
    obtain ⟨s', hok⟩ := hall ⟨t, mid⟩ (by simp)
    cases ht.symm.trans hok
  case count =>
    rw [Report.length_succeeded, Report.notRun_eq_count, hstatuses, hplan]
    simp [List.count_replicate]

/-! ### Marking a report -/

/-- The report that says of every task that it did not run. -/
def Report.blank (plan : List Task) : Report ε :=
  ⟨plan.map fun t => (t.name, .notRun), none⟩

/-- Writes a status over the one at a place. -/
def Report.mark (r : Report ε) (i : ℕ) (status : Status) : Report ε :=
  { r with tasks := r.tasks.modify i fun told => (told.1, status) }

/-- Runs tasks with their places, and marks the end of each task at its place. -/
def executeMarking (run : Task → EStateM ε σ Unit) : List (Task × ℕ) → Report ε → σ → Report ε × σ
  | [], r, s => (r, s)
  | (t, i) :: rest, r, s =>
    match run t s with
    | .ok _ s => executeMarking run rest (r.mark i .succeeded) s
    | .error e s => ({ r.mark i .failed with failed := some (t.name, e) }, s)

/-- A mark behind the tasks that are told already changes the first of the others. -/
theorem Report.mark_append (before : List (String × Status)) (t : Task) (rest : List Task)
    (status : Status) :
    (⟨before ++ (blank (ε := ε) (t :: rest)).tasks, none⟩ : Report ε).mark before.length status =
      ⟨before ++ (t.name, status) :: (blank (ε := ε) rest).tasks, none⟩ := by
  simp [Report.mark, Report.blank, List.modify_eq_take_cons_drop]

/-- **Marking statuses at their places gives the same report**, whatever was told before. -/
theorem executeMarking_append (run : Task → EStateM ε σ Unit) (tasks : List Task)
    (before : List (String × Status)) (s : σ) :
    executeMarking run (tasks.zipIdx before.length)
        ⟨before ++ (Report.blank (ε := ε) tasks).tasks, none⟩ s =
      (⟨before ++ (execute run tasks s).1.tasks, (execute run tasks s).1.failed⟩,
        (execute run tasks s).2) := by
  induction tasks generalizing before s with
  | nil => rfl
  | cons t ts ih =>
      rw [List.zipIdx_cons, executeMarking, execute]
      cases ht : run t s with
      | error e s' =>
          dsimp only
          rw [Report.mark_append]
          rfl
      | ok u mid =>
          dsimp only
          rw [Report.mark_append]
          have hrest := ih (before ++ [(t.name, .succeeded)]) mid
          rw [List.length_append, List.append_assoc, List.append_assoc] at hrest
          exact hrest

theorem executeMarking_blank (run : Task → EStateM ε σ Unit) (plan : List Task) (s : σ) :
    executeMarking run plan.zipIdx (Report.blank plan) s = execute run plan s :=
  executeMarking_append run plan [] s

/-- **The report of a run agrees with the calls it made**, for every runner and every plan.  A runner
that keeps a record runs as it did; it is called on the first tasks of the plan, each time on the state
that the call before left; the report tells what became of these calls; and it is the report in which
every status is marked at its place. -/
theorem execute_outcome (run : Task → EStateM ε σ Unit) (plan : List Task) (s : σ) :
    execute (recording run) plan (s, []) =
      ((execute run plan s).1, (execute run plan s).2, history run plan s) ∧
    CallChain run (calls run plan s) s ((execute run plan s).1.failed.map Prod.snd)
      (execute run plan s).2 ∧
    (execute run plan s).1.Tells run plan (calls run plan s) ∧
    executeMarking run plan.zipIdx (Report.blank plan) s = execute run plan s := by
  refine ⟨execute_recording run plan s [], calls_chain run plan s, ?_,
    executeMarking_blank run plan s⟩
  rcases runs_or_stops run plan s with ⟨s', hruns⟩ | ⟨done, t, rest, mid, e, s', rfl, hruns, hfail⟩
  · exact hruns.tells
  · exact hruns.tells_stop hfail rest

end Rebuild
