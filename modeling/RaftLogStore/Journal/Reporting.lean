import RaftLogStore.Journal.Extension
import RaftLogStore.Journal.History
import RaftLogStore.Model.Simulation

/-!
# The reports of the worker

When the worker has synced a closed chunk, it calls `on_chunk_persisted` with the checkpoint at
the end of it, and the cache takes the `last` of this checkpoint for the boundary below which it
may evict.  `Reporting` is a system together with the newest chunk that has been reported.

The reports come in the order of the chunks, each after its chunk has been synced.  Between two of
them anything may happen to the system but a restart.
-/

namespace RaftLogStore

variable {T : Types} {W : ChunkedWal T}

structure Reporting (W : ChunkedWal T) where
  system : System W
  /-- The newest chunk that the worker has reported. -/
  reported : Option ChunkId

/-- What can happen to a system and its cache. -/
inductive ReportingEvent (W : ChunkedWal T) where
  | system (e : Event W)
  | report (chunkId : ChunkId)

/-- The event is a report, of whatever checkpoint. -/
def Event.Reports : Event W → Prop
  | .persisted _ => True
  | _ => False

instance (e : Event W) : Decidable (e.Reopens ∨ e.Reports) :=
  match e with
  | .crash _ _ | .restart _ _ => isTrue (Or.inl trivial)
  | .persisted _ => isTrue (Or.inr trivial)
  | .call _ | .drainCache | .work | .unlinkFirst _ => isFalse (not_or.mpr ⟨id, id⟩)

/-- The chunk is closed, and all its records are synced. -/
def System.Persisted (sys : System W) (chunkId : ChunkId) : Prop :=
  chunkId < W.openChunkId sys.store.wal ∧
    ∀ snap ∈ sys.hist.drop sys.synced, chunkId < snap.chunkId

instance (sys : System W) (chunkId : ChunkId) : Decidable (sys.Persisted chunkId) :=
  inferInstanceAs (Decidable (_ ∧ _))

namespace Reporting

/-- The worker may report the chunk now. -/
def Reportable (r : Reporting W) (chunkId : ChunkId) : Prop :=
  (∃ snap ∈ r.system.hist, snap.chunkId = chunkId) ∧ r.system.Persisted chunkId ∧
    ∀ k ∈ r.reported, k ≤ chunkId

instance (r : Reporting W) (chunkId : ChunkId) : Decidable (r.Reportable chunkId) :=
  inferInstanceAs (Decidable (_ ∧ _))

/-- The chunk is reported: the boundary is the `last` of the checkpoint at its end. -/
def report (r : Reporting W) (chunkId : ChunkId) : Reporting W where
  system := { r.system with
    store := r.system.store.chunkPersisted (some (trailing r.system.hist chunkId)) }
  reported := some chunkId

/-- A store opened on an empty directory, of which nothing has been reported. -/
def Initial (r : Reporting W) : Prop :=
  System.Initial r.system ∧ r.system.store.stateMachine.payloadCache.lastEvictable = none ∧
    r.reported = none

/-- One step in which only the events happen that `allowed` admits. -/
inductive Step (allowed : Reporting W → ReportingEvent W → Prop) :
    Reporting W → ReportingEvent W → Reporting W → Prop
  | system {r : Reporting W} {e : Event W} {sys : System W} :
      allowed r (.system e) → ¬ (e.Reopens ∨ e.Reports) → System.Step AnyCall r.system e sys →
      Step allowed r (.system e) { r with system := sys }
  | report {r : Reporting W} {chunkId : ChunkId} :
      allowed r (.report chunkId) → r.Reportable chunkId →
      Step allowed r (.report chunkId) (r.report chunkId)

/-- The reports and everything else that `allowed` admits can lead to these. -/
def Reachable (allowed : Reporting W → ReportingEvent W → Prop) : Reporting W → Prop :=
  Transition.Reachable Initial (Step allowed)

/-- Any event. -/
def AnyEvent (_ : Reporting W) (_ : ReportingEvent W) : Prop := True

instance (r : Reporting W) (e : ReportingEvent W) : Decidable (AnyEvent r e) := isTrue trivial

variable {allowed : Reporting W → ReportingEvent W → Prop}

theorem Reachable.system {r : Reporting W} (h : Reachable allowed r) :
    System.Reachable AnyCall r.system := by
  refine Transition.Reachable.invariant (I := fun r => System.Reachable AnyCall r.system)
    (fun r hinitial => Transition.Reachable.of_initial hinitial.1) ?_ h
  intro r e r' hreachable hstep
  cases hstep with
  | system _ _ hsystem => exact hreachable.tail hsystem
  | report _ _ => exact hreachable.tail (System.Step.persisted _)

/-! ## Performing events -/

variable (allowed) [∀ r e, Decidable (allowed r e)]

/-- Let an event happen, if it can. -/
def perform (r : Reporting W) : ReportingEvent W → Option (Reporting W)
  | .system e =>
      if allowed r (.system e) ∧ ¬ (e.Reopens ∨ e.Reports) then
        (System.perform AnyCall r.system e).map fun sys => { r with system := sys }
      else none
  | .report chunkId =>
      if allowed r (.report chunkId) ∧ r.Reportable chunkId then some (r.report chunkId) else none

/-- Events one after the other. -/
def performAll : List (ReportingEvent W) → Reporting W → Option (Reporting W)
  | [], r => some r
  | e :: events, r => (perform allowed r e).bind (performAll events)

/-- A run from the opening of an empty directory on, if nothing is reported there. -/
def simulate (config : Config W) (events : List (ReportingEvent W)) : Option (Reporting W) :=
  (System.start config).bind fun sys =>
    if sys.store.stateMachine.payloadCache.lastEvictable = none then
      performAll allowed events ⟨sys, none⟩
    else none

variable {allowed}

theorem step_of_perform {r r' : Reporting W} {e : ReportingEvent W}
    (h : perform allowed r e = some r') : Step allowed r e r' := by
  cases e with
  | system e =>
      simp only [perform] at h
      split_ifs at h with hallowed
      obtain ⟨sys, hperform, rfl⟩ := Option.map_eq_some_iff.mp h
      exact Step.system hallowed.1 hallowed.2 (System.step_of_perform hperform)
  | report chunkId =>
      simp only [perform] at h
      split_ifs at h with hallowed
      obtain rfl := Option.some.inj h
      exact Step.report hallowed.1 hallowed.2

theorem run_of_performAll {r r' : Reporting W} {events : List (ReportingEvent W)}
    (h : performAll allowed events r = some r') : Transition.Run (Step allowed) r events r' := by
  induction events generalizing r with
  | nil =>
      obtain rfl := Option.some.inj h
      exact Transition.Run.nil _
  | cons e events ih =>
      obtain ⟨r₁, hstep, hrest⟩ := Option.bind_eq_some_iff.mp h
      exact (Transition.Run.single (step_of_perform hstep)).trans (ih hrest)

/-- What a simulation computes is reachable. -/
theorem reachable_get {config : Config W} {events : List (ReportingEvent W)}
    (h : (simulate allowed config events).isSome = true) :
    Reachable allowed ((simulate allowed config events).get h) := by
  obtain ⟨sys, hstart, hrun⟩ := Option.bind_eq_some_iff.mp (Option.some_get h).symm
  split_ifs at hrun with hboundary
  exact ⟨⟨sys, none⟩, events, ⟨System.initial_of_start hstart, hboundary, rfl⟩,
    run_of_performAll hrun⟩

end Reporting

end RaftLogStore
