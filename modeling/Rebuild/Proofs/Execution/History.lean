/-
What happens while tasks run.

A runner can be made to keep a record: when it is started on a task and a state, and how that ended.
The record has no influence on the run, and it tells what had happened when a task was started.

Main definitions:

* `Event`, `recording` — a runner that keeps a record;
* `history`, `starts` — the record of a run, and the tasks that were started in it.

Main results:

* `execute_recording` — keeping a record changes nothing else;
* `history_at_start` — **a task is started when the tasks before it have succeeded**, on the state
  they left;
* `history_at_failure` — a task that fails is the last one started;
* `TaskGraph.prerequisites_first` — **a resolved task is started once all that it requires, directly
  or not, has succeeded**, and never if some of it failed.
-/
import Rebuild.Proofs.Execution
import Rebuild.Proofs.TaskGraph.Resolve

set_option relaxedAutoImplicit false
set_option autoImplicit false

namespace Rebuild

open Relation

inductive Event (σ : Type) where
  | started (task : Task) (state : σ)
  | ended (task : Task) (status : Status)

def Event.startedTask? {σ : Type} : Event σ → Option Task
  | .started t _ => some t
  | .ended _ _ => none

/-- The tasks started in a record, in order. -/
def starts {σ : Type} (log : List (Event σ)) : List Task := log.filterMap Event.startedTask?

theorem mem_starts {σ : Type} {log : List (Event σ)} {t : Task} :
    t ∈ starts log ↔ ∃ x, .started t x ∈ log := by
  rw [starts, List.mem_filterMap]
  constructor
  · rintro ⟨event, hmem, ht⟩
    cases event with
    | started u x => exact ⟨x, Option.some.inj ht ▸ hmem⟩
    | ended u status => cases ht
  · rintro ⟨x, hmem⟩
    exact ⟨_, hmem, rfl⟩

section Recording

variable {ε σ : Type} {run : Task → EStateM ε σ Unit} {t u : Task} {tasks done rest : List Task}
  {s mid : σ} {e : ε}

/-- Runs tasks as before, and writes down each start and end behind what was written. -/
def recording (run : Task → EStateM ε σ Unit) (t : Task) : EStateM ε (σ × List (Event σ)) Unit :=
  fun (s, log) =>
    let log := log ++ [.started t s]
    match run t s with
    | .ok _ s => .ok () (s, log ++ [.ended t .succeeded])
    | .error e s => .error e (s, log ++ [.ended t .failed])

/-- What is written down while tasks run. -/
def history (run : Task → EStateM ε σ Unit) (tasks : List Task) (s : σ) : List (Event σ) :=
  (execute (recording run) tasks (s, [])).2.2

/-- **Keeping a record changes nothing else.** -/
theorem execute_recording (run : Task → EStateM ε σ Unit) (tasks : List Task) (s : σ)
    (log : List (Event σ)) : execute (recording run) tasks (s, log) =
      ((execute run tasks s).1, (execute run tasks s).2, log ++ history run tasks s) := by
  unfold history
  induction tasks generalizing s log with
  | nil => simp [execute]
  | cons t ts ih =>
      cases ht : run t s with
      | error e mid => simp [execute, recording, ht]
      | ok u mid =>
          simp only [execute, recording, ht]
          rw [ih, ih mid (_ ++ _)]
          simp

theorem history_cons_ok (ht : run t s = .ok () mid) (ts : List Task) :
    history run (t :: ts) s = .started t s :: .ended t .succeeded :: history run ts mid := by
  rw [history, execute, recording, ht]
  simp [execute_recording]

theorem history_cons_error (ht : run t s = .error e mid) (ts : List Task) :
    history run (t :: ts) s = [.started t s, .ended t .failed] := by
  rw [history, execute, recording, ht]
  rfl

/-- A task starts and ends first; more happens only if it succeeds. -/
theorem history_cons (run : Task → EStateM ε σ Unit) (t : Task) (ts : List Task) (s : σ) :
    ∃ status later, history run (t :: ts) s = .started t s :: .ended t status :: later ∧
      (later = [] ∨
        ∃ mid, run t s = .ok () mid ∧ status = .succeeded ∧ later = history run ts mid) := by
  cases ht : run t s with
  | error e mid => exact ⟨.failed, [], history_cons_error ht ts, Or.inl rfl⟩
  | ok u mid => exact ⟨.succeeded, _, history_cons_ok ht ts, Or.inr ⟨mid, rfl, rfl, rfl⟩⟩

theorem Runs.history_append (h : Runs run done s mid) (rest : List Task) :
    history run (done ++ rest) s = history run done s ++ history run rest mid := by
  induction h with
  | done s => rfl
  | step ht _ ih => simp [history_cons_ok ht, ih]

theorem Runs.starts_history (h : Runs run done s mid) : starts (history run done s) = done := by
  induction h with
  | done s => rfl
  | step ht _ ih =>
      rw [history_cons_ok ht]
      exact congrArg (List.cons _) ih

/-- Tasks that all succeed end so. -/
theorem Runs.ended_iff (h : Runs run done s mid) {status : Status} :
    .ended u status ∈ history run done s ↔ u ∈ done ∧ status = .succeeded := by
  induction h with
  | done s => simp [history, execute]
  | step ht _ ih => simp [history_cons_ok ht, ih, or_and_right]

/-! ### What the record tells -/

/-- **When a task is started, the tasks before it have succeeded**, and left the state it starts on.
Nothing else has happened. -/
theorem history_at_start {before after : List (Event σ)} {x : σ}
    (h : history run tasks s = before ++ Event.started t x :: after) :
    ∃ done rest, tasks = done ++ t :: rest ∧ Runs run done s x ∧ before = history run done s := by
  induction tasks generalizing s before with
  | nil => simp [history, execute] at h
  | cons u us ih =>
      obtain ⟨status, later, heq, hlater⟩ := history_cons run u us s
      rw [heq] at h
      rcases before with _ | ⟨_, _ | ⟨_, before⟩⟩
      · cases h
        exact ⟨[], us, rfl, Runs.done _, rfl⟩
      · cases h
      · simp only [List.cons_append, List.cons.injEq] at h
        obtain ⟨rfl, rfl, h⟩ := h
        rcases hlater with rfl | ⟨mid, hu, rfl, rfl⟩
        · simp at h
        · obtain ⟨done, rest, rfl, hruns, rfl⟩ := ih h
          exact ⟨u :: done, rest, rfl, Runs.step hu hruns, (history_cons_ok hu done).symm⟩

/-- **A task that fails is the last one started.** -/
theorem history_at_failure (h : .ended t .failed ∈ history run tasks s) :
    ∃ done rest mid e s', tasks = done ++ t :: rest ∧ Runs run done s mid ∧
      run t mid = .error e s' ∧ starts (history run tasks s) = done ++ [t] := by
  rcases runs_or_stops run tasks s with ⟨s', hruns⟩ | ⟨done, t', rest, mid, e, s', rfl, hruns, hfail⟩
  · exact absurd (hruns.ended_iff.1 h).2 (by decide)
  · have hhistory := hruns.history_append (t' :: rest)
    rw [history_cons_error hfail] at hhistory
    obtain rfl : t = t' := by simpa [hhistory, hruns.ended_iff] using h
    refine ⟨done, rest, mid, e, s', rfl, hruns, hfail, ?_⟩
    rw [hhistory, starts, List.filterMap_append, ← starts, hruns.starts_history]
    rfl

/-- The tasks that are started are the first ones. -/
theorem isPrefix_starts (run : Task → EStateM ε σ Unit) (tasks : List Task) (s : σ) :
    starts (history run tasks s) <+: tasks := by
  rcases runs_or_stops run tasks s with ⟨s', hruns⟩ | ⟨done, t, rest, mid, e, s', rfl, hruns, hfail⟩
  · rw [hruns.starts_history]
  · have hended : .ended t .failed ∈ history run (done ++ t :: rest) s := by
      rw [hruns.history_append, history_cons_error hfail]
      simp
    obtain ⟨done', rest', _, _, _, heq, _, _, hstarts⟩ := history_at_failure hended
    exact ⟨rest', by rw [hstarts, heq]; simp⟩

end Recording

/-! ### Resolved tasks -/

namespace TaskGraph

variable {ε σ : Type} {g : TaskGraph} {selected : List String} {plan : List Task}

/-- Every task of a resolved selection is reported once, so its status can be looked up. -/
theorem statusOf?_execute (h : g.resolve selected = .ok plan) (run : Task → EStateM ε σ Unit) (s : σ)
    {n : String} {status : Status} : (execute run plan s).1.statusOf? n = some status ↔
      (n, status) ∈ (execute run plan s).1.tasks :=
  Keyed.lookup_eq_some_iff (names_execute run plan s ▸ nodup_names_of_resolve h)

/-- **What a task requires, directly or not, has succeeded when the task is started.** -/
theorem prerequisites_ended (h : g.resolve selected = .ok plan) {run : Task → EStateM ε σ Unit}
    {s x : σ} {before after : List (Event σ)} {t : Task}
    (hstart : history run plan s = before ++ Event.started t x :: after) {d : String}
    (hd : TransGen g.Requires t.name d) : ∃ u ∈ plan, u.name = d ∧ .ended u .succeeded ∈ before ∧
      (execute run plan s).1.statusOf? d = some .succeeded := by
  obtain ⟨done, rest, heq, hruns, rfl⟩ := history_at_start hstart
  obtain ⟨u, hu, rfl⟩ := (isHardOrder_of_resolve h).mem_before_of_path heq hd
  refine ⟨u, by simp [heq, hu], rfl, hruns.ended_iff.2 ⟨hu, rfl⟩, (statusOf?_execute h run s).2 ?_⟩
  rw [heq, hruns.execute_append]
  exact List.mem_append_left _ (List.mem_map_of_mem hu)

theorem statusOf?_of_failed (h : g.resolve selected = .ok plan) {run : Task → EStateM ε σ Unit}
    {s : σ} {t : Task} (hfail : .ended t .failed ∈ history run plan s) :
    (execute run plan s).1.statusOf? t.name = some .failed := by
  obtain ⟨done, rest, _, _, _, heq, hruns, herror, _⟩ := history_at_failure hfail
  rw [statusOf?_execute h, heq, hruns.execute_stop herror]
  simp

/-- **What requires a task that failed, directly or not, is not started.** -/
theorem dependents_notRun (h : g.resolve selected = .ok plan) {run : Task → EStateM ε σ Unit} {s : σ}
    {t u : Task} (hfail : .ended t .failed ∈ history run plan s)
    (hu : TransGen g.Requires u.name t.name) : u ∉ starts (history run plan s) ∧
      (u ∈ plan → (execute run plan s).1.statusOf? u.name = some .notRun) := by
  have hnot : u ∉ starts (history run plan s) := by
    -- a task that is started has its requirements reported as succeeded, not as failed
    intro hmem
    obtain ⟨x, hx⟩ := mem_starts.1 hmem
    obtain ⟨before, after, hstart⟩ := List.append_of_mem hx
    obtain ⟨_, _, _, _, hsucceeded⟩ := prerequisites_ended h hstart hu
    cases hsucceeded.symm.trans (statusOf?_of_failed h hfail)
  refine ⟨hnot, fun hmem => (statusOf?_execute h run s).2 ?_⟩
  obtain ⟨done, rest, _, _, _, heq, hruns, herror, hstarts⟩ := history_at_failure hfail
  have hrest : u ∈ rest := by
    rw [heq, List.append_cons, ← hstarts] at hmem
    exact (List.mem_append.1 hmem).resolve_left hnot
  rw [heq, hruns.execute_stop herror]
  exact List.mem_append_right _ (List.mem_cons_of_mem _ (List.mem_map_of_mem hrest))

/-- **Running a resolved selection**, whatever its tasks do.  A runner that keeps a record runs as it
did; no task is started twice; when a task is started, all that it requires, directly or not, has
succeeded and is reported so; and what requires a task that fails is never started, and is reported as
not run if it is planned. -/
theorem prerequisites_first (h : g.resolve selected = .ok plan) (run : Task → EStateM ε σ Unit)
    (s : σ) :
    execute (recording run) plan (s, []) =
      ((execute run plan s).1, (execute run plan s).2, history run plan s) ∧
    (starts (history run plan s) <+: plan ∧ ((starts (history run plan s)).map Task.name).Nodup) ∧
    (∀ (before after : List (Event σ)) (t : Task) (x : σ),
      history run plan s = before ++ Event.started t x :: after →
        ∀ d, TransGen g.Requires t.name d → ∃ u ∈ plan, u.name = d ∧ .ended u .succeeded ∈ before ∧
          (execute run plan s).1.statusOf? d = some .succeeded) ∧
    ∀ t : Task, .ended t .failed ∈ history run plan s →
      (execute run plan s).1.statusOf? t.name = some .failed ∧
      ∀ u : Task, TransGen g.Requires u.name t.name → u ∉ starts (history run plan s) ∧
        (u ∈ plan → (execute run plan s).1.statusOf? u.name = some .notRun) := by
  have hfirst := isPrefix_starts run plan s
  refine ⟨execute_recording run plan s [], ⟨hfirst, ?_⟩, fun _ _ _ _ hstart _ hd => ?_,
    fun t ht => ?_⟩
  · exact (hfirst.sublist.map Task.name).nodup (nodup_names_of_resolve h)
  · exact prerequisites_ended h hstart hd
  · exact ⟨statusOf?_of_failed h ht, fun u hu => dependents_notRun h ht hu⟩

def packedBase : Task := .free "base" (.compile "base")

def packedLib : Task := (Task.free "lib" (.compile "lib")).requiring "base"

def packedApp : Task := (Task.free "app" (.compile "app")).requiring "lib"

def packedZip : Task := (Task.free "zip" (.compile "zip")).requiring "app"

/-- An archive of an application, registered against the order of its tasks. -/
def packing : TaskGraph := ⟨[packedZip, packedApp, packedLib, packedBase], by decide⟩

/-- Counts the tasks that succeed, and refuses the application. -/
def refusingApp (t : Task) : EStateM String ℕ Unit :=
  fun n => if t.name = "app" then .error "refused" n else .ok () (n + 1)

/-- The application is started on what the two tasks before it left, and the archive is not. -/
theorem packing_prerequisites_first :
    ∃ plan, packing.resolve ["zip"] = .ok plan ∧
      history refusingApp plan 0 = [.started packedBase 0, .ended packedBase .succeeded,
        .started packedLib 1, .ended packedLib .succeeded, .started packedApp 2,
        .ended packedApp .failed] ∧
      (execute refusingApp plan 0).1.statusOf? "base" = some .succeeded ∧
      packedZip ∉ starts (history refusingApp plan 0) ∧
      (execute refusingApp plan 0).1.statusOf? "zip" = some .notRun := by
  have hresolve : packing.resolve ["zip"] = .ok [packedBase, packedLib, packedApp, packedZip] := by
    cbv
  have hhistory : history refusingApp [packedBase, packedLib, packedApp, packedZip] 0 =
      [.started packedBase 0, .ended packedBase .succeeded, .started packedLib 1,
        .ended packedLib .succeeded, .started packedApp 2, .ended packedApp .failed] := by
    cbv
  have hlib : packing.Requires "app" "lib" :=
    ⟨packedApp, by simp [packing], rfl, NameSet.mem_insert.2 (Or.inl rfl)⟩
  have hbase : packing.Requires "lib" "base" :=
    ⟨packedLib, by simp [packing], rfl, NameSet.mem_insert.2 (Or.inl rfl)⟩
  have happ : packing.Requires "zip" "app" :=
    ⟨packedZip, by simp [packing], rfl, NameSet.mem_insert.2 (Or.inl rfl)⟩
  obtain ⟨_, _, hstart, hfailure⟩ := prerequisites_first hresolve refusingApp 0
  obtain ⟨_, _, _, _, hstatus⟩ := hstart [_, _, _, _] [_] packedApp 2 hhistory "base"
    ((TransGen.single hlib).tail hbase)
  obtain ⟨hnot, hzip⟩ :=
    (hfailure packedApp (by rw [hhistory]; simp)).2 packedZip (TransGen.single happ)
  exact ⟨_, hresolve, hhistory, hstatus, hnot, hzip (by decide)⟩

end TaskGraph

end Rebuild
