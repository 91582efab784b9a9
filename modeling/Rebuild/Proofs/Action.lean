/-
Actions that may fail, and what they keep to.

An action ends in a state, with a result or with an error.  Most of what is known of a longer action
is a relation between the states before and after it that each of its parts keeps to, however it ends.

Main definitions:

* `endOf` — the state that an action ends in;
* `KeepsTo` — **an action keeps to a relation between states, also if it fails**;
* `FailsWith` — all errors of an action are of one kind;
* `endsWith` — a test of how a run ended.

Main results:

* `bind_eq_error`, `bind_eq_ok` — where a failure or a success of two actions came from;
* `KeepsTo.bind`, `KeepsTo.discard` — longer actions keep to what their parts keep to;
* `FailsWith.bind`, `FailsWith.discard` — and fail as their parts fail.
-/
import Mathlib

set_option relaxedAutoImplicit false
set_option autoImplicit false

namespace Rebuild

variable {ε σ α β : Type} {r : σ → σ → Prop} {x : EStateM ε σ α} {f : α → EStateM ε σ β} {s s' : σ}
  {e : ε} {b : β}

/-! ### One action after another -/

theorem bind_eq_error : (x >>= f) s = .error e s' ↔
    x s = .error e s' ∨ ∃ a mid, x s = .ok a mid ∧ f a mid = .error e s' := by
  change EStateM.bind x f s = _ ↔ _
  unfold EStateM.bind
  cases hx : x s with
  | ok a mid => simp
  | error e' mid => simp

theorem bind_eq_ok : (x >>= f) s = .ok b s' ↔ ∃ a mid, x s = .ok a mid ∧ f a mid = .ok b s' := by
  change EStateM.bind x f s = _ ↔ _
  unfold EStateM.bind
  cases hx : x s with
  | ok a mid => simp
  | error e' mid => simp

theorem discard_eq_error : (discard x) s = .error e s' ↔ x s = .error e s' := by
  change EStateM.map _ x s = _ ↔ _
  unfold EStateM.map
  cases hx : x s with
  | ok a mid => simp
  | error e' mid => simp

theorem discard_eq_ok {u : Unit} : (discard x) s = .ok u s' ↔ ∃ a, x s = .ok a s' := by
  change EStateM.map _ x s = _ ↔ _
  unfold EStateM.map
  cases hx : x s with
  | ok a mid => simp
  | error e' mid => simp

theorem discard_eq_bind (x : EStateM ε σ α) : discard x = x >>= fun _ => pure () := by
  funext s
  change EStateM.map _ x s = EStateM.bind x _ s
  unfold EStateM.map EStateM.bind
  cases x s <;> rfl

/-! ### Runs that can be checked -/

/-- The action ended with that result, in a state that passes a test. -/
def endsWith [DecidableEq α] (a : α) (test : σ → Bool) : EStateM.Result ε σ α → Bool
  | .ok b s => b == a && test s
  | .error _ _ => false

theorem exists_of_endsWith [DecidableEq α] {a : α} {test : σ → Bool} {result : EStateM.Result ε σ α}
    (h : endsWith a test result = true) : ∃ s', result = .ok a s' ∧ test s' = true := by
  cases result with
  | error e s' => cases h
  | ok b s' =>
      obtain ⟨hb, hs⟩ := Bool.and_eq_true_iff.1 h
      exact ⟨s', by rw [eq_of_beq hb], hs⟩

/-! ### Kinds of errors -/

/-- Whatever error the action ends with is of that kind. -/
def FailsWith (p : ε → Prop) (x : EStateM ε σ α) : Prop := ∀ s e s', x s = .error e s' → p e

section FailsWith

variable {p : ε → Prop}

theorem FailsWith.pure (a : α) : FailsWith p (pure a : EStateM ε σ α) := by
  intro s e s' h
  cases h

theorem FailsWith.get : FailsWith p (get : EStateM ε σ σ) := by
  intro s e s' h
  cases h

theorem FailsWith.throw (he : p e) : FailsWith p (throw e : EStateM ε σ α) := by
  intro s e' s' h
  cases h
  exact he

theorem FailsWith.bind (hx : FailsWith p x) (hf : ∀ a, FailsWith p (f a)) : FailsWith p (x >>= f) := by
  intro s e s' h
  rcases bind_eq_error.1 h with h | ⟨a, mid, _, h⟩
  · exact hx s e s' h
  · exact hf a mid e s' h

theorem FailsWith.discard (hx : FailsWith p x) : FailsWith p (discard x) := by
  intro s e s' h
  exact hx s e s' (discard_eq_error.1 h)

end FailsWith

/-! ### Relations that actions keep to -/

/-- The state that an action ends in, with a result or with an error. -/
def endOf : EStateM.Result ε σ α → σ
  | .ok _ s => s
  | .error _ s => s

/-- From every state the action ends in a related one. -/
def KeepsTo (r : σ → σ → Prop) (x : EStateM ε σ α) : Prop := ∀ s, r s (endOf (x s))

theorem KeepsTo.of_ok {a : α} (h : KeepsTo r x) (hx : x s = .ok a s') : r s s' := by
  have := h s
  rwa [hx] at this

theorem KeepsTo.of_error (h : KeepsTo r x) (hx : x s = .error e s') : r s s' := by
  have := h s
  rwa [hx] at this

theorem KeepsTo.discard (hx : KeepsTo r x) : KeepsTo r (discard x) := by
  intro s
  have hstep := hx s
  change r s (endOf (EStateM.map _ x s))
  unfold EStateM.map
  cases h : x s with
  | ok a mid => rwa [h] at hstep
  | error e mid => rwa [h] at hstep

/-- What follows may depend on the state it was told. -/
theorem KeepsTo.get_bind {f : σ → EStateM ε σ β} (h : ∀ s, r s (endOf (f s s))) :
    KeepsTo r (MonadState.get >>= f) := h

variable [IsPreorder σ r]

theorem KeepsTo.pure (a : α) : KeepsTo r (pure a : EStateM ε σ α) := fun s => refl s

theorem KeepsTo.get : KeepsTo r (get : EStateM ε σ σ) := fun s => refl s

theorem KeepsTo.throw (e : ε) : KeepsTo r (throw e : EStateM ε σ α) := fun s => refl s

/-- What follows keeps to the relation from the state that it starts in. -/
theorem bind_of_ok (hx : r s (endOf (x s)))
    (hf : ∀ a mid, x s = .ok a mid → r mid (endOf (f a mid))) : r s (endOf ((x >>= f) s)) := by
  change r s (endOf (EStateM.bind x f s))
  unfold EStateM.bind
  cases h : x s with
  | ok a mid =>
      rw [h] at hx
      exact IsTrans.trans _ _ _ hx (hf a mid h)
  | error e mid =>
      rw [h] at hx
      exact hx

theorem bind_of_keepsTo (hx : r s (endOf (x s))) (hf : ∀ a, KeepsTo r (f a)) :
    r s (endOf ((x >>= f) s)) :=
  bind_of_ok hx fun a mid _ => hf a mid

theorem KeepsTo.bind (hx : KeepsTo r x) (hf : ∀ a, KeepsTo r (f a)) : KeepsTo r (x >>= f) := fun s =>
  bind_of_keepsTo (hx s) hf

end Rebuild
