import RaftLogStore.Lib.Transition

/-!
# Simulations between transition systems

A system implements a specification if a relation `R` between their states can be kept along
every run.  What an observer sees of a step is a list of events of the specification: none for
a step that only the implementation takes, and several for one that does more at once
(`Observed`).  `Simulation.run` turns a run into the run of the specification with the same
observations, in the same order.

Where the specification is deterministic, its runs are decided by what it is given
(`Run.deterministic`), and so are the observations of every system that implements it.

A system may also show a state several times over, or not show a state that is the one before it.
`Stutters` says that it shows the states of a specification all the same.
-/

namespace Transition

variable {σ τ ε ο : Type*}

/-- A step together with what an observer sees of it. -/
def Observed (step : σ → ε → σ → Prop) (shows : σ → ε → List ο) (s : σ) (seen : List ο)
    (s' : σ) : Prop :=
  ∃ e, step s e s' ∧ seen = shows s e

/-- A run that is observed is a run. -/
theorem Run.of_observed {step : σ → ε → σ → Prop} {shows : σ → ε → List ο} {s s' : σ}
    {seen : List (List ο)} (h : Run (Observed step shows) s seen s') :
    ∃ es, Run step s es s' := by
  induction h with
  | nil => exact ⟨[], Run.nil s⟩
  | snoc _ hlast ih =>
      obtain ⟨es, hes⟩ := ih
      obtain ⟨e, hstep, -⟩ := hlast
      exact ⟨_, Run.snoc hes hstep⟩

theorem Observed.mono {step step' : σ → ε → σ → Prop} {shows : σ → ε → List ο}
    (hsub : ∀ s e s', step s e s' → step' s e s') {s s' : σ} {seen : List ο}
    (h : Observed step shows s seen s') : Observed step' shows s seen s' := by
  obtain ⟨e, hstep, hseen⟩ := h
  exact ⟨e, hsub _ _ _ hstep, hseen⟩

/-- The relation `R` is kept by every step whose start satisfies the invariant `I`, when the
specification takes the steps that are observed. -/
structure Simulation (I : σ → Prop) (step : σ → List ο → σ → Prop) (spec : τ → ο → τ → Prop)
    (R : σ → τ → Prop) : Prop where
  invariant {s s' : σ} {seen : List ο} : I s → step s seen s' → I s'
  step {s s' : σ} {t : τ} {seen : List ο} :
    I s → R s t → step s seen s' → ∃ t', Run spec t seen t' ∧ R s' t'

/-- A run of the system is a run of the specification with the same observations. -/
theorem Simulation.run {I : σ → Prop} {step : σ → List ο → σ → Prop} {spec : τ → ο → τ → Prop}
    {R : σ → τ → Prop} (h : Simulation I step spec R) {s s' : σ} {t : τ} {seen : List (List ο)}
    (hrun : Run step s seen s') (hs : I s) (hR : R s t) :
    ∃ t', Run spec t seen.flatten t' ∧ I s' ∧ R s' t' := by
  induction hrun with
  | nil => exact ⟨t, by simpa using Run.nil t, hs, hR⟩
  | snoc _ hlast ih =>
      obtain ⟨t₁, hrun₁, hs₁, hR₁⟩ := ih
      obtain ⟨t₂, hrun₂, hR₂⟩ := h.step hs₁ hR₁ hlast
      exact ⟨t₂, by simpa using hrun₁.trans hrun₂, h.invariant hs₁ hlast, hR₂⟩

/-! ## Deterministic systems -/

/-- Where the input `π e` of a step decides the rest of its event and the next state, the inputs of
a run decide all its events and the state it leads to. -/
theorem Run.deterministic {ι : Type*} {step : σ → ε → σ → Prop} {π : ε → ι}
    (hdet : ∀ s e e' s₁ s₂, step s e s₁ → step s e' s₂ → π e = π e' → e = e' ∧ s₁ = s₂)
    {s s₁ s₂ : σ} {es es' : List ε} (h : Run step s es s₁) (h' : Run step s es' s₂)
    (hinputs : es.map π = es'.map π) : es = es' ∧ s₁ = s₂ := by
  induction h generalizing es' s₂ with
  | nil =>
      obtain rfl : es' = [] := by simpa using hinputs.symm
      generalize hes : ([] : List ε) = es at h'
      cases h' with
      | nil => exact ⟨rfl, rfl⟩
      | snoc _ _ => simp at hes
  | @snoc t t' es e _ hstep ih =>
      cases h' with
      | nil => simp at hinputs
      | @snoc u _ es' e' hrun' hstep' =>
          simp only [List.map_append, List.map_singleton] at hinputs
          obtain ⟨hfront, hlast⟩ := List.append_inj' hinputs rfl
          obtain ⟨rfl, rfl⟩ := ih hrun' hfront
          obtain ⟨rfl, rfl⟩ := hdet _ _ _ _ _ hstep hstep' (List.singleton_inj.mp hlast)
          exact ⟨rfl, rfl⟩

/-! ## Stuttering -/

theorem getLastD_append (l l' : List σ) (a : σ) :
    (l ++ l').getLastD a = l'.getLastD (l.getLastD a) := by
  simp only [List.getLastD_eq_getLast?, List.getLast?_append]
  cases l'.getLast? <;> rfl

/-- After the state `a`, the states `shown` are the states `states`: each is shown once or several
times, and not at all only if it is the state before it. -/
inductive Stutters : σ → List σ → List σ → Prop
  | nil (a : σ) : Stutters a [] []
  | skip {a : σ} {states shown : List σ} : Stutters a states shown → Stutters a (a :: states) shown
  | repeated {a b : σ} {states shown : List σ} (n : ℕ) :
      Stutters b states shown → Stutters a (b :: states) (List.replicate (n + 1) b ++ shown)

theorem Stutters.single (a b : σ) (n : ℕ) : Stutters a [b] (List.replicate (n + 1) b) := by
  simpa using Stutters.repeated n (Stutters.nil b)

/-- Both end in the same state. -/
theorem Stutters.getLastD_eq {a : σ} {states shown : List σ} (h : Stutters a states shown) :
    shown.getLastD a = states.getLastD a := by
  induction h with
  | nil => rfl
  | skip _ ih => rw [ih, List.getLastD_cons]
  | @repeated a b states shown n _ ih =>
      have hlast : (List.replicate (n + 1) b).getLastD a = b := by
        rw [List.replicate_succ', List.getLastD_concat]
      rw [getLastD_append, hlast, ih, List.getLastD_cons]

/-- A state that is shown again, or not at all. -/
theorem Stutters.eq_replicate {a : σ} {shown : List σ} (h : Stutters a [a] shown) :
    ∃ n, shown = List.replicate n a := by
  cases h with
  | skip h =>
      cases h with
      | nil => exact ⟨0, rfl⟩
  | repeated n h =>
      cases h with
      | nil => exact ⟨n + 1, by simp⟩

end Transition
