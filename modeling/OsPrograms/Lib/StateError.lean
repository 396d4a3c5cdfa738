import Mathlib.Logic.Basic

/-!
# Reasoning about `EStateM` programs

Imperative code that mutates a state and can stop with an error is written in `EStateM`. The
lemmas here take a sequential composition apart at a given start state: `run_bind_eq_ok` and
`run_bind_eq_error` say what a composition that succeeds or fails consists of, and
`run_bind_of_ok` and `run_bind_of_error` run its first part.

`Result.Ends` is a postcondition, with one condition for a run that succeeds and one for a run that
fails; `ends_bind` takes a program through its parts under such conditions.
-/

namespace EStateM

variable {ε σ α β : Type}

/-- A composition succeeds when its first part does and its second part does from there. -/
theorem run_bind_eq_ok {x : EStateM ε σ α} {f : α → EStateM ε σ β} {s s'' : σ} {b : β} :
    (x >>= f).run s = .ok b s'' ↔
      ∃ a s', x.run s = .ok a s' ∧ (f a).run s' = .ok b s'' := by
  rw [run_bind]
  cases hx : x.run s with
  | ok a s' =>
    constructor
    · intro h
      exact ⟨a, s', rfl, h⟩
    · rintro ⟨a', t, ht, h⟩
      cases ht
      exact h
  | error e s' => simp

/-- A composition fails when its first part does, or its second part does from there. -/
theorem run_bind_eq_error {x : EStateM ε σ α} {f : α → EStateM ε σ β} {s s'' : σ} {e : ε} :
    (x >>= f).run s = .error e s'' ↔
      x.run s = .error e s'' ∨
        ∃ a s', x.run s = .ok a s' ∧ (f a).run s' = .error e s'' := by
  rw [run_bind]
  cases hx : x.run s with
  | ok a s' =>
    constructor
    · intro h
      exact .inr ⟨a, s', rfl, h⟩
    · rintro (h | ⟨a', t, ht, h⟩)
      · cases h
      · cases ht
        exact h
  | error e s' => simp

/-- After a successful first part the composition continues with the second. -/
theorem run_bind_of_ok {x : EStateM ε σ α} {s s' : σ} {a : α} (h : x.run s = .ok a s')
    (f : α → EStateM ε σ β) : (x >>= f).run s = (f a).run s' := by
  rw [run_bind, h]

/-- After a failed first part the composition fails. -/
theorem run_bind_of_error {x : EStateM ε σ α} {s s' : σ} {e : ε} (h : x.run s = .error e s')
    (f : α → EStateM ε σ β) : (x >>= f).run s = .error e s' := by
  rw [run_bind, h]

/-! ## Postconditions -/

/-- The state in which a run ends. -/
def Result.state : Result ε σ α → σ
  | .ok _ s => s
  | .error _ s => s

/-- A run that succeeds ends with `Q`, and one that fails ends with `E`. -/
def Result.Ends (Q : α → σ → Prop) (E : σ → Prop) : Result ε σ α → Prop
  | .ok a s => Q a s
  | .error _ s => E s

variable {Q Q' : α → σ → Prop} {E E' : σ → Prop} {s : σ}

/-- The conditions on the result and on the error can be weakened. -/
theorem Result.Ends.mono {r : Result ε σ α} (h : r.Ends Q E) (hQ : ∀ a s, Q a s → Q' a s)
    (hE : ∀ s, E s → E' s) : r.Ends Q' E' := by
  cases r with
  | ok a s => exact hQ a s h
  | error e s => exact hE s h

/-- A condition for both ends holds in the last state. -/
theorem Result.Ends.state {r : Result ε σ α} (h : r.Ends Q E) (hQ : ∀ a s, Q a s → E s) :
    E r.state := by
  cases r with
  | ok a s => exact hQ a s h
  | error e s => exact h

/-- The rule for sequences: what holds after the first part is what the second may assume. -/
theorem ends_bind {x : EStateM ε σ α} {f : α → EStateM ε σ β} {R : β → σ → Prop}
    (hx : (x.run s).Ends Q E) (hf : ∀ a s', Q a s' → ((f a).run s').Ends R E) :
    ((x >>= f).run s).Ends R E := by
  rw [run_bind]
  cases hrun : x.run s with
  | ok a s' =>
    rw [hrun] at hx
    exact hf a s' hx
  | error e s' =>
    rw [hrun] at hx
    exact hx

end EStateM
