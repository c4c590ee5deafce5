import Mathlib.Data.Nat.Notation

/-!
# Stateful computations that may fail

`EStateM ε σ` is the shape of a Rust method that takes `&mut self` and returns a `Result`:
when it fails, the state keeps whatever was changed before the failure.  This file adds what
running such a method on a part of a larger state needs: lifting a pure check (`ofExcept`),
running a computation on a component (`zoom`), and the inversion rules that take a finished
computation apart without unfolding it.  A pure check is an `Except`, and has the same rules.
-/

universe u

namespace Except

variable {ε α β : Type u}

theorem bind_eq_ok {x : Except ε α} {f : α → Except ε β} {b : β} :
    x >>= f = .ok b ↔ ∃ a, x = .ok a ∧ f a = .ok b := by
  cases x <;> simp [bind, Except.bind]

theorem bind_eq_error {x : Except ε α} {f : α → Except ε β} {e : ε} :
    x >>= f = .error e ↔ x = .error e ∨ ∃ a, x = .ok a ∧ f a = .error e := by
  cases x <;> simp [bind, Except.bind]

theorem map_eq_ok {x : Except ε α} {f : α → β} {b : β} :
    x.map f = .ok b ↔ ∃ a, x = .ok a ∧ f a = b := by
  cases x <;> simp [Except.map]

instance decidableEqOk {α : Type u} [DecidableEq α] (x : Except ε α) (a : α) :
    Decidable (x = .ok a) :=
  match x with
  | .ok b => decidable_of_iff (b = a) (by simp)
  | .error _ => isFalse (by simp)

instance decidableEqError {α : Type u} [DecidableEq ε] (x : Except ε α) (e : ε) :
    Decidable (x = .error e) :=
  match x with
  | .ok _ => isFalse (by simp)
  | .error e' => decidable_of_iff (e' = e) (by simp)

instance decidableExistsOk {α : Type u} {p : α → Prop} [DecidablePred p] (x : Except ε α) :
    Decidable (∃ a, x = .ok a ∧ p a) :=
  match x with
  | .ok a => decidable_of_iff (p a) (by simp)
  | .error _ => isFalse (by simp)

end Except

namespace EStateM

variable {ε ε' σ τ α β : Type u}

/-- A pure check as a computation that leaves the state alone. -/
def ofExcept (x : Except ε α) : EStateM ε σ α := fun s =>
  match x with
  | .ok a => .ok a s
  | .error e => .error e s

@[simp] theorem run_ofExcept_ok (a : α) (s : σ) :
    (ofExcept (.ok a) : EStateM ε σ α).run s = .ok a s := rfl

@[simp] theorem run_ofExcept_error (e : ε) (s : σ) :
    (ofExcept (.error e) : EStateM ε σ α).run s = .error e s := rfl

/-- Run a computation on one component of the state, naming its errors in the larger one. -/
def zoom (get : σ → τ) (set : τ → σ → σ) (wrap : ε' → ε) (x : EStateM ε' τ α) :
    EStateM ε σ α := fun s =>
  match x.run (get s) with
  | .ok a t => .ok a (set t s)
  | .error e t => .error (wrap e) (set t s)

theorem run_zoom (get : σ → τ) (set : τ → σ → σ) (wrap : ε' → ε) (x : EStateM ε' τ α) (s : σ) :
    (zoom get set wrap x).run s =
      match x.run (get s) with
      | .ok a t => .ok a (set t s)
      | .error e t => .error (wrap e) (set t s) := rfl

theorem run_bind_eq_ok {x : EStateM ε σ α} {f : α → EStateM ε σ β} {s s'' : σ} {b : β} :
    (x >>= f).run s = .ok b s'' ↔ ∃ a s', x.run s = .ok a s' ∧ (f a).run s' = .ok b s'' := by
  rw [run_bind]
  cases h : x.run s <;> simp [and_assoc]

theorem run_bind_eq_error {x : EStateM ε σ α} {f : α → EStateM ε σ β} {s s'' : σ} {e : ε} :
    (x >>= f).run s = .error e s'' ↔
      x.run s = .error e s'' ∨ ∃ a s', x.run s = .ok a s' ∧ (f a).run s' = .error e s'' := by
  rw [run_bind]
  cases h : x.run s <;> simp [and_assoc]

theorem run_map_eq_ok {x : EStateM ε σ α} {f : α → β} {s s' : σ} {b : β} :
    (f <$> x).run s = .ok b s' ↔ ∃ a, x.run s = .ok a s' ∧ f a = b := by
  have hmap : (f <$> x).run s =
      match x.run s with
      | .ok a s' => .ok (f a) s'
      | .error e s' => .error e s' := rfl
  rw [hmap]
  cases h : x.run s with
  | error e s₁ => simp
  | ok a s₁ =>
      simp only [Result.ok.injEq, and_assoc, exists_eq_left']
      exact and_comm

@[simp] theorem run_discard (x : EStateM ε σ α) (s : σ) :
    (discard x : EStateM ε σ PUnit).run s =
      match x.run s with
      | .ok _ s' => .ok ⟨⟩ s'
      | .error e s' => .error e s' := by
  simp only [discard, Functor.mapConst, EStateM.run]
  cases h : x s <;> simp [EStateM.map, h]

instance decidableExistsOk {p : α → σ → Prop} [∀ a s, Decidable (p a s)] (x : Result ε σ α) :
    Decidable (∃ a s, x = .ok a s ∧ p a s) :=
  match x with
  | .ok a s => decidable_of_iff (p a s)
      ⟨fun h => ⟨a, s, rfl, h⟩, fun ⟨_, _, heq, h⟩ => by cases heq; exact h⟩
  | .error _ _ => isFalse (by simp)

end EStateM
