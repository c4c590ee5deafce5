import RaftLogStore.Lib.Refinement
import RaftLogStore.Model.MemoryWal
import RaftLogStore.Model.System

/-!
# Running a system

`System.simulate` opens a store on an empty directory and performs events on it, and so
computes a run.  Whatever it computes is reachable (`reachable_of_simulate`).

`exampleTypes` are type parameters to run it with: log ids are pairs of a term and an index, as
in the tests of the source, and a payload is a number that is its own size.
-/

namespace RaftLogStore

/-! ## Type parameters -/

instance neZero_two_pow_64 : NeZero (2 ^ 64) := ⟨by decide⟩

/-- A pair of 64-bit numbers, ordered by the first and then by the second. -/
@[ext] structure TermIndex where
  term : Fin (2 ^ 64)
  index : Fin (2 ^ 64)
  deriving DecidableEq, Repr

namespace TermIndex

/-- The position of a pair in the order. -/
def rank (l : TermIndex) : ℕ := l.term.val * 2 ^ 64 + l.index.val

theorem rank_injective : Function.Injective rank := by
  intro a b h
  simp only [rank] at h
  have hterm : a.term.val = b.term.val := by omega
  have hindex : a.index.val = b.index.val := by omega
  exact TermIndex.ext (Fin.ext hterm) (Fin.ext hindex)

instance : LinearOrder TermIndex := LinearOrder.lift' rank rank_injective

end TermIndex

/-- Type parameters of a build with or without checks. -/
abbrev exampleTypes (checks : Bool) : Types where
  LogId := TermIndex
  LogPayload := Fin (2 ^ 64)
  Vote := TermIndex
  Callback := Unit
  UserData := ℕ
  logIndex logId := logId.index.val
  logIndex_le logId := Nat.le_of_lt_succ logId.index.isLt
  payloadSize payload := payload.val
  payloadSize_le payload := Nat.le_of_lt_succ payload.isLt
  overflowChecks := checks
  debugAssertions := checks

/-- A configuration of the WAL in memory with chunks of `n` records. -/
def chunksOfSize (checks : Bool) (n : ℕ) : Config (memoryWal (exampleTypes checks)) :=
  ⟨n, ⟨none, none⟩⟩

theorem Except.eq_ok_get {ε α : Type*} {x : Except ε α} (h : x.toOption.isSome = true) :
    x = .ok (x.toOption.get h) := by
  cases x with
  | error e => exact absurd h (by simp [Except.toOption])
  | ok a => rfl

/-! ## Performing events -/

variable {T : Types} {W : ChunkedWal T}

namespace System

/-- Open a store on an empty directory. -/
def start (config : Config W) : Option (System W) :=
  match RaftLog.openLog config [] with
  | .error _ => none
  | .ok s => some
      { store := s
        hist := (W.view s.wal).written.map fun l => ⟨l, s.logState, s.stateMachine.log⟩
        synced := 0
        handled := 0
        unlinked := []
        loaded := 0
        sentBefore := [] }

theorem initial_of_start {config : Config W} {sys : System W} (h : start config = some sys) :
    Initial sys := by
  unfold start at h
  split at h
  · simp at h
  · next s hopen =>
    obtain rfl := Option.some.inj h
    exact ⟨config, hopen, rfl, rfl, rfl, rfl, rfl, rfl⟩

/-- Whether all records handed to the worker are among the first `survivors`. -/
def handedOver (sys : System W) (survivors : ℕ) : Bool :=
  sys.queue.all fun
    | .write _ upto => sys.base + upto ≤ survivors
    | _ => true

variable (allowed : RaftLog W → Op T → Prop) [∀ s op, Decidable (allowed s op)]

/-- Let an event happen, if it can. -/
def perform (sys : System W) : Event W → Option (System W)
  | .call op =>
      if allowed sys.store op then
        match op.exec.run sys.store with
        | .ok _ s => some { sys with store := s, hist := sys.hist ++ op.recorded sys.store }
        | .error (.state _) s =>
            some { sys with store := s, hist := sys.hist ++ op.recorded sys.store }
        | .error _ _ => none
      else none
  | .drainCache =>
      match RaftLog.drainCacheEvictable.run sys.store with
      | .ok _ s => some { sys with store := s }
      | .error _ _ => none
  | .persisted checkpoint => some { sys with store := sys.store.chunkPersisted checkpoint }
  | .work => (sys.queue[sys.handled]?).map sys.handle
  | .unlinkFirst n =>
      match sys.queue[sys.handled]? with
      | some (.removeChunks chunkIds) =>
          some { sys with unlinked := sys.unlinked ++ chunkIds.take n }
      | _ => none
  | .crash survivors config =>
      if sys.synced ≤ survivors ∧ survivors ≤ sys.hist.length then
        match RaftLog.openLog config (sys.disk survivors) with
        | .ok s => some (sys.reopened survivors sys.unlinked s)
        | .error _ => none
      else none
  | .restart survivors config =>
      if sys.synced ≤ survivors ∧ survivors ≤ sys.hist.length ∧ sys.loaded ≤ survivors ∧
          sys.handedOver survivors then
        match RaftLog.openLog config (sys.disk survivors) with
        | .ok s => some (sys.reopened survivors sys.sent s)
        | .error _ => none
      else none

/-- Events one after the other. -/
def performAll : List (Event W) → System W → Option (System W)
  | [], sys => some sys
  | e :: events, sys => (perform allowed sys e).bind (performAll events)

/-- The same with what is seen of each event. -/
def performShown {ο : Type*} (shows : System W → Event W → List ο) :
    List (Event W) → System W → Option (List (List ο) × System W)
  | [], sys => some ([], sys)
  | e :: events, sys =>
      (perform allowed sys e).bind fun sys' =>
        (performShown shows events sys').map fun (seen, last) => (shows sys e :: seen, last)

/-- A run from the opening of an empty directory on. -/
def simulate (config : Config W) (events : List (Event W)) : Option (System W) :=
  (start config).bind (performAll allowed events)

variable {allowed}

theorem step_of_perform {sys sys' : System W} {e : Event W}
    (h : perform allowed sys e = some sys') : Step allowed sys e sys' := by
  cases e with
  | call op =>
      simp only [perform] at h
      split_ifs at h with hallowed
      split at h
      · next s hrun =>
        obtain rfl := Option.some.inj h
        exact Step.call hallowed (Or.inl hrun)
      · next e s hrun =>
        obtain rfl := Option.some.inj h
        exact Step.call hallowed (Or.inr ⟨e, hrun⟩)
      · simp at h
  | drainCache =>
      simp only [perform] at h
      split at h
      · next s hrun =>
        obtain rfl := Option.some.inj h
        exact Step.drainCache hrun
      · simp at h
  | persisted checkpoint =>
      obtain rfl := Option.some.inj h
      exact Step.persisted checkpoint
  | work =>
      obtain ⟨request, hrequest, rfl⟩ := Option.map_eq_some_iff.mp h
      exact Step.work hrequest
  | unlinkFirst n =>
      simp only [perform] at h
      split at h
      · next chunkIds hrequest =>
        obtain rfl := Option.some.inj h
        exact Step.unlinkFirst n hrequest
      · simp at h
  | crash survivors config =>
      simp only [perform] at h
      split_ifs at h with hsurvivors
      split at h
      · next s hopen =>
        obtain rfl := Option.some.inj h
        exact Step.crash hsurvivors.1 hsurvivors.2 hopen
      · simp at h
  | restart survivors config =>
      simp only [perform] at h
      split_ifs at h with hsurvivors
      obtain ⟨hsynced, hlen, hloaded, hhanded⟩ := hsurvivors
      split at h
      · next s hopen =>
        obtain rfl := Option.some.inj h
        refine Step.restart hsynced hlen hloaded (fun sync upto hmem => ?_) hopen
        simpa using List.all_eq_true.mp hhanded _ hmem
      · simp at h

theorem run_of_performAll {sys sys' : System W} {events : List (Event W)}
    (h : performAll allowed events sys = some sys') :
    Transition.Run (Step allowed) sys events sys' := by
  induction events generalizing sys with
  | nil =>
      obtain rfl := Option.some.inj h
      exact Transition.Run.nil _
  | cons e events ih =>
      obtain ⟨sys₁, hstep, hrest⟩ := Option.bind_eq_some_iff.mp h
      exact (Transition.Run.single (step_of_perform hstep)).trans (ih hrest)

/-- A run of events that satisfy `p`, with what is seen of them. -/
theorem observed_of_performShown {ο : Type*} {shows : System W → Event W → List ο}
    {p : Event W → Prop} {sys : System W} {events : List (Event W)}
    {r : List (List ο) × System W} (h : performShown allowed shows events sys = some r)
    (hevents : ∀ e ∈ events, p e) :
    Transition.Run (Transition.Observed (fun s e s' => Step allowed s e s' ∧ p e) shows) sys
      r.1 r.2 := by
  induction events generalizing sys r with
  | nil =>
      obtain rfl := Option.some.inj h
      exact Transition.Run.nil _
  | cons e events ih =>
      obtain ⟨sys₁, hstep, hrest⟩ := Option.bind_eq_some_iff.mp h
      obtain ⟨rest, hseen, rfl⟩ := Option.map_eq_some_iff.mp hrest
      have hfirst : Transition.Run (Transition.Observed
          (fun s e s' => Step allowed s e s' ∧ p e) shows) sys [shows sys e] sys₁ :=
        Transition.Run.single ⟨e, ⟨step_of_perform hstep, hevents e (by simp)⟩, rfl⟩
      exact hfirst.trans (ih hseen fun e he => hevents e (List.mem_cons_of_mem _ he))

/-- What a simulation computes is reachable. -/
theorem reachable_of_simulate {config : Config W} {events : List (Event W)} {sys : System W}
    (h : simulate allowed config events = some sys) : Reachable allowed sys := by
  obtain ⟨sys₀, hstart, hrun⟩ := Option.bind_eq_some_iff.mp h
  exact ⟨sys₀, events, initial_of_start hstart, run_of_performAll hrun⟩

theorem reachable_get {config : Config W} {events : List (Event W)}
    (h : (simulate allowed config events).isSome = true) :
    Reachable allowed ((simulate allowed config events).get h) :=
  reachable_of_simulate (Option.some_get h).symm

end System

end RaftLogStore
