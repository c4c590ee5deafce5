import Mathlib.Data.List.Induction

/-!
# Labelled transition systems and their runs

A system is a relation `step s e s'` between a state, an event and a next state.  `Run` is a
finite run with the events it took, in order.  The rules below are the ones used to lift a
fact about one step to a fact about a whole run: `Run.invariant` for what holds of every
state, `Run.preserved` for a fact that only some events can destroy, and `Run.mono` to
change the system.
-/

namespace Transition

variable {σ ε : Type*}

/-- `Run step s es s'`: the events `es`, taken in order from `s`, lead to `s'`. -/
inductive Run (step : σ → ε → σ → Prop) : σ → List ε → σ → Prop
  | nil (s : σ) : Run step s [] s
  | snoc {s s' s'' : σ} {es : List ε} {e : ε} :
      Run step s es s' → step s' e s'' → Run step s (es ++ [e]) s''

/-- The states some run leads to from an initial state. -/
def Reachable (initial : σ → Prop) (step : σ → ε → σ → Prop) (s : σ) : Prop :=
  ∃ s₀ es, initial s₀ ∧ Run step s₀ es s

variable {step step' : σ → ε → σ → Prop} {initial : σ → Prop}

theorem Run.single {s s' : σ} {e : ε} (h : step s e s') : Run step s [e] s' :=
  Run.snoc (Run.nil s) h

theorem Run.trans {s s' s'' : σ} {es es' : List ε} (h : Run step s es s')
    (h' : Run step s' es' s'') : Run step s (es ++ es') s'' := by
  induction h' with
  | nil => simpa using h
  | snoc _ hstep ih =>
      rw [← List.append_assoc]
      exact Run.snoc ih hstep

/-- A run without events stays where it is. -/
theorem Run.eq_of_nil {s s' : σ} (h : Run step s [] s') : s' = s := by
  generalize hes : ([] : List ε) = es at h
  cases h with
  | nil => rfl
  | snoc _ _ => simp at hes

/-- A run of one event is a step. -/
theorem Run.of_single {s s' : σ} {e : ε} (h : Run step s [e] s') : step s e s' := by
  generalize hes : [e] = es at h
  cases h with
  | nil => simp at hes
  | @snoc t _ es _ hrun hstep =>
      obtain ⟨rfl, hlast⟩ := List.append_inj' (show [] ++ [e] = _ from hes) rfl
      obtain rfl := List.singleton_inj.mp hlast
      exact hrun.eq_of_nil ▸ hstep

/-- A run can be parted anywhere. -/
theorem Run.of_append {s s'' : σ} {es es' : List ε} (h : Run step s (es ++ es') s'') :
    ∃ s', Run step s es s' ∧ Run step s' es' s'' := by
  induction es' using List.reverseRecOn generalizing s'' with
  | nil => exact ⟨s'', by simpa using h, Run.nil s''⟩
  | append_singleton es' e ih =>
      generalize hall : es ++ (es' ++ [e]) = all at h
      cases h with
      | nil => simp at hall
      | snoc hrun hstep =>
          rw [← List.append_assoc] at hall
          obtain ⟨rfl, hlast⟩ := List.append_inj' hall rfl
          obtain rfl := List.singleton_inj.mp hlast
          obtain ⟨s', hfront, hback⟩ := ih hrun
          exact ⟨s', hfront, Run.snoc hback hstep⟩

theorem Run.of_cons {s s'' : σ} {e : ε} {es : List ε} (h : Run step s (e :: es) s'') :
    ∃ s', step s e s' ∧ Run step s' es s'' := by
  have happend : Run step s ([e] ++ es) s'' := h
  obtain ⟨s', hfirst, hrest⟩ := happend.of_append
  exact ⟨s', hfirst.of_single, hrest⟩

/-- What one step preserves, a run preserves. -/
theorem Run.invariant {I : σ → Prop} (hstep : ∀ s e s', I s → step s e s' → I s')
    {s s' : σ} {es : List ε} (h : Run step s es s') (hs : I s) : I s' := by
  induction h with
  | nil => exact hs
  | snoc _ hlast ih => exact hstep _ _ _ ih hlast

/-- The same for a fact about a state and the events that led to it. -/
theorem Run.invariant_events {I : σ → List ε → Prop}
    (hstep : ∀ s es e s', I s es → step s e s' → I s' (es ++ [e]))
    {s s' : σ} {es es' : List ε} (h : Run step s es s') (hs : I s es') : I s' (es' ++ es) := by
  induction h with
  | nil => simpa using hs
  | snoc _ hlast ih =>
      rw [← List.append_assoc]
      exact hstep _ _ _ _ ih hlast

/-- A fact that every step keeps, as long as the invariant `I` holds and the event is not one
that may destroy it, survives a run without such an event. -/
theorem Run.preserved {I P : σ → Prop} {bad : ε → Prop}
    (hI : ∀ s e s', I s → step s e s' → I s')
    (hP : ∀ s e s', I s → P s → ¬ bad e → step s e s' → P s')
    {s s' : σ} {es : List ε} (h : Run step s es s') (hs : I s) (hp : P s)
    (hes : ∀ e ∈ es, ¬ bad e) : P s' := by
  induction h with
  | nil => exact hp
  | snoc hrun hlast ih =>
      refine hP _ _ _ (hrun.invariant hI hs) (ih fun e he => hes e (by simp [he])) ?_ hlast
      exact hes _ (by simp)

/-- A run whose events satisfy `p` is one of every system that takes these steps. -/
theorem Run.restrict {p : ε → Prop} (hsub : ∀ s e s', p e → step s e s' → step' s e s')
    {s s' : σ} {es : List ε} (h : Run step s es s') (hes : ∀ e ∈ es, p e) : Run step' s es s' := by
  induction h with
  | nil => exact Run.nil _
  | snoc _ hlast ih =>
      refine Run.snoc (ih fun e he => hes e (by simp [he])) (hsub _ _ _ ?_ hlast)
      exact hes _ (by simp)

/-- A run of steps with a condition on their events. -/
theorem Run.of_and {p : ε → Prop} {s s' : σ} {es : List ε}
    (h : Run (fun s e s' => step s e s' ∧ p e) s es s') : Run step s es s' ∧ ∀ e ∈ es, p e := by
  induction h with
  | nil => exact ⟨Run.nil _, by simp⟩
  | snoc _ hlast ih =>
      refine ⟨Run.snoc ih.1 hlast.1, fun e he => ?_⟩
      rcases List.mem_append.mp he with he | he
      · exact ih.2 e he
      · exact List.mem_singleton.mp he ▸ hlast.2

theorem Run.mono (hsub : ∀ s e s', step s e s' → step' s e s') {s s' : σ} {es : List ε}
    (h : Run step s es s') : Run step' s es s' :=
  h.restrict (p := fun _ => True) (fun s e s' _ => hsub s e s') fun _ _ => trivial

theorem Reachable.of_initial {s : σ} (h : initial s) : Reachable initial step s :=
  ⟨s, [], h, Run.nil s⟩

theorem Reachable.tail {s s' : σ} {e : ε} (h : Reachable initial step s) (h' : step s e s') :
    Reachable initial step s' := by
  obtain ⟨s₀, es, h₀, hrun⟩ := h
  exact ⟨s₀, es ++ [e], h₀, Run.snoc hrun h'⟩

/-- What holds initially and is preserved by each step holds of every reachable state. -/
theorem Reachable.invariant {I : σ → Prop} (hinit : ∀ s, initial s → I s)
    (hstep : ∀ s e s', I s → step s e s' → I s') {s : σ} (h : Reachable initial step s) : I s := by
  obtain ⟨s₀, es, h₀, hrun⟩ := h
  exact hrun.invariant hstep (hinit s₀ h₀)

theorem Reachable.mono (hsub : ∀ s e s', step s e s' → step' s e s') {s : σ}
    (h : Reachable initial step s) : Reachable initial step' s := by
  obtain ⟨s₀, es, h₀, hrun⟩ := h
  exact ⟨s₀, es, h₀, hrun.mono hsub⟩

end Transition
