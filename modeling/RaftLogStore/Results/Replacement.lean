import RaftLogStore.Results.Restart

/-!
# Replacing the state of a log that stays

`update_state` is documented to let `vote`, `committed` and `user_data` change while `last` and
`purged` stay as they are.  It compares the first entry with the index after `purged`.  But the
first entry of a log may have any index, since `check_append` asks for nothing when `last` is
`None`.  If the log begins behind a gap, even the state the store is in is rejected.

In any store the check asks whether the log map reaches from right after `purged` to `last`
(`checkCheckpoint_same_log`).  As long as no `next_log_index` wraps, the map agrees with the state
and only the first index is in question (`spansState_iff`).  After a wrap the map may also end at
another entry than `last`.
-/

namespace RaftLogStore

open RaftLog

variable {T : Types} {W : ChunkedWal T}

/-- The log is empty, or begins right after `purged`. -/
def BeginsAfterPurged (s : RaftLog W) : Prop :=
  ∀ e, s.stateMachine.log.firstKeyValue = some e → e.1 = T.indexAfter s.logState.purged

instance (s : RaftLog W) : Decidable (BeginsAfterPurged s) :=
  inferInstanceAs (Decidable (∀ e, e ∈ s.stateMachine.log.firstKeyValue →
    e.1 = T.indexAfter s.logState.purged))

/-- The log is empty; or it begins at the index that `next_log_index` gives for `purged`, above
`purged`, and ends at `last`. -/
def SpansState (s : RaftLog W) : Prop :=
  ∀ first, s.stateMachine.log.firstKeyValue = some first →
    ∀ last, s.stateMachine.log.lastKeyValue = some last →
      T.nextLogIndex s.logState.purged = .ok (T.logIndex first.2.logId) ∧
        s.logState.purged < some first.2.logId ∧ s.logState.last = some last.2.logId

/-- `update_state` of `state` returns, unless the WAL fails.  Then the store is in this state,
with the log map it had. -/
structure StateReplaced (s : RaftLog W) (state : RaftLogState T) : Prop where
  accepted : (∃ segment s', (updateState state).run s = .ok segment s') ∨
    ∃ e s', (updateState state).run s = .error (.io e) s'
  stored {segment : Segment} {s' : RaftLog W} : (updateState state).run s = .ok segment s' →
    s'.logState = state ∧ s'.stateMachine.log = s.stateMachine.log

theorem run_updateState (state : RaftLogState T) (s : RaftLog W) :
    (updateState state).run s =
      match s.stateMachine.checkCheckpoint state with
      | .ok () => (appendAndApply (.checkpoint state)).run s
      | .error failure => .error failure s := by
  simp only [updateState, EStateM.run_bind, EStateM.run_get]
  cases s.stateMachine.checkCheckpoint state with
  | ok _ => simp
  | error failure => simp

/-- A checkpoint can be applied in any state. -/
theorem apply_checkpoint (state : RaftLogState T) (sm : RaftLogStateMachine T) (chunkId : ChunkId)
    (segment : Segment) :
    (RaftLogStateMachine.apply (.checkpoint state) chunkId segment).run sm =
      .ok () { sm with logState := state } :=
  RaftLogStateMachine.apply_eq_ok.mpr ⟨rfl, rfl, rfl, rfl⟩

/-- What an accepted `update_state` leaves. -/
theorem stored_of_updateState {state : RaftLogState T} {s s' : RaftLog W} {segment : Segment}
    (h : (updateState state).run s = .ok segment s') :
    s'.logState = state ∧ s'.stateMachine.log = s.stateMachine.log := by
  rw [run_updateState] at h
  split at h
  · obtain ⟨wal₁, -, happly⟩ := appendAndApply_applied h
    rw [apply_checkpoint] at happly
    have hsm := (EStateM.Result.ok.inj happly).2
    exact ⟨by rw [logState, ← hsm], by rw [← hsm]⟩
  · exact absurd h (by simp)

/-- `update_state` is accepted exactly if the check accepts the state. -/
theorem stateReplaced_iff {state : RaftLogState T} {s : RaftLog W} :
    StateReplaced s state ↔ s.stateMachine.checkCheckpoint state = .ok () := by
  constructor
  · intro h
    have haccepted := h.accepted
    rw [run_updateState] at haccepted
    cases hcheck : s.stateMachine.checkCheckpoint state with
    | ok _ => rfl
    | error failure =>
        simp only [hcheck, reduceCtorEq, exists_false, false_or] at haccepted
        obtain ⟨e, s', heq⟩ := haccepted
        rw [(EStateM.Result.error.inj heq).1] at hcheck
        rcases checkCheckpoint_error hcheck with ⟨e', he'⟩ | ⟨hpanic, -, -⟩
        · exact absurd he' (by simp)
        · exact absurd hpanic (by simp)
  · intro hcheck
    refine ⟨?_, stored_of_updateState⟩
    have hreturns : (∃ segment s', (appendAndApply (.checkpoint state)).run s = .ok segment s') ∨
        ∃ e s', (appendAndApply (.checkpoint state)).run s = .error (.io e) s' := by
      refine appendAndApply_returns rfl fun chunkId segment => ?_
      exact ⟨_, apply_checkpoint state s.stateMachine chunkId segment⟩
    simpa only [run_updateState, hcheck] using hreturns

/-! ## The check -/

/-- A state with the same `last` and `purged` is accepted exactly if the log map reaches from right
after `purged` to `last`. -/
theorem checkCheckpoint_same_log {s : RaftLog W} {state : RaftLogState T}
    (hlast : state.last = s.logState.last) (hpurged : state.purged = s.logState.purged) :
    s.stateMachine.checkCheckpoint state = .ok () ↔ SpansState s := by
  unfold RaftLogStateMachine.checkCheckpoint
  cases hfirst : s.stateMachine.log.firstKeyValue with
  | none => simp [SpansState, hfirst]
  | some first =>
      obtain ⟨k, d⟩ := first
      have hget := (OrderedMap.firstKeyValue_eq_some hfirst).1
      obtain ⟨⟨m, e⟩, hlastKey⟩ := OrderedMap.exists_lastKeyValue hget
      simp only [SpansState, hfirst, hlastKey, unwrap, hpurged, hlast, Option.some.injEq,
        forall_eq', Bind.bind, Except.bind]
      cases hnext : T.nextLogIndex s.logState.purged with
      | error failure => simp
      | ok index => simp [eq_comm]

/-- In a store whose map agrees with its state, only the index of the first entry is in question. -/
theorem spansState_iff {s : RaftLog W} (hagree : Agreement s.logState s.stateMachine.log) :
    SpansState s ↔ BeginsAfterPurged s := by
  cases hfirst : s.stateMachine.log.firstKeyValue with
  | none => simp [SpansState, BeginsAfterPurged, hfirst]
  | some first =>
      obtain ⟨k, d⟩ := first
      have hget := (OrderedMap.firstKeyValue_eq_some hfirst).1
      obtain ⟨⟨m, e⟩, hlastKey⟩ := OrderedMap.exists_lastKeyValue hget
      have hends := hagree.last hlastKey
      obtain ⟨habove, hindex⟩ := hagree.above hget
      have hkey := hagree.key hget
      -- the first entry is above `purged`, so the index after `purged` is one of a log id
      have hnext : T.nextLogIndex s.logState.purged = .ok (T.indexAfter s.logState.purged) := by
        cases hp : s.logState.purged with
        | none => rfl
        | some p =>
            have hmax := T.logIndex_le d.logId
            simp only [hp, Types.indexAfter] at hindex
            exact Types.nextLogIndex_of_lt (by omega)
      simp [SpansState, BeginsAfterPurged, hfirst, hlastKey, hnext, hends, habove, hkey, eq_comm]

/-- Whatever `vote`, `committed` and `user_data` it has, a state with the same `last` and
`purged` is accepted exactly if the log map reaches from right after `purged` to `last`: as long
as no index wraps, exactly if the log is empty or begins right after `purged`. -/
theorem state_replaced_iff (hW : Lawful W) {sys : System W} {state : RaftLogState T}
    (hlast : state.last = sys.store.logState.last)
    (hpurged : state.purged = sys.store.logState.purged) :
    (StateReplaced sys.store state ↔ SpansState sys.store) ∧
      (System.Reachable Guaranteed sys →
        (StateReplaced sys.store state ↔ BeginsAfterPurged sys.store)) := by
  have hiff : StateReplaced sys.store state ↔ SpansState sys.store :=
    stateReplaced_iff.trans (checkCheckpoint_same_log hlast hpurged)
  refine ⟨hiff, fun h => ?_⟩
  have hagree := (agreement_of_reachable hW h).1
  exact hiff.trans (spansState_iff hagree)

/-- A log on a fresh store, beginning at a later index. -/
def begunBehindGap : List (Event (memoryWal (exampleTypes true))) :=
  [.call (.append [(⟨1, 5⟩, 7), (⟨1, 6⟩, 8)])]

def gapSystem : System (memoryWal (exampleTypes true)) :=
  (System.simulate Guaranteed (chunksOfSize true 10) begunBehindGap).get (by decide +kernel)

/-- A log that goes on at the index 0, in a build without overflow checks. -/
def continuedAtZero : List (Event (memoryWal (exampleTypes false))) :=
  [.call (.append [(⟨1, Fin.last _⟩, 7), (⟨2, 0⟩, 8)])]

def continuedSystem : System (memoryWal (exampleTypes false)) :=
  (System.simulate CallerGuarantee (chunksOfSize false 10) continuedAtZero).get (by decide +kernel)

/-- The state the store is in is rejected: behind a gap, and where the last entry of the map is
not `last`. -/
theorem state_replaced_iff_gapSystem :
    (System.Reachable Guaranteed gapSystem ∧
        ¬ StateReplaced gapSystem.store gapSystem.store.logState) ∧
      System.Reachable CallerGuarantee continuedSystem ∧
        BeginsAfterPurged continuedSystem.store ∧
        ¬ StateReplaced continuedSystem.store continuedSystem.store.logState := by
  have hgap : gapSystem.store.stateMachine.checkCheckpoint gapSystem.store.logState ≠ .ok () := by
    decide +kernel
  have hcontinued : continuedSystem.store.stateMachine.checkCheckpoint
      continuedSystem.store.logState ≠ .ok () := by decide +kernel
  refine ⟨⟨System.reachable_get _, fun h => hgap (stateReplaced_iff.mp h)⟩,
    System.reachable_get _, by decide +kernel, fun h => hcontinued (stateReplaced_iff.mp h)⟩

/-- Another hard state for a purged and reopened store. -/
def replacedState : RaftLogState (exampleTypes false) :=
  { reopenedSystem.store.logState with vote := some ⟨3, 1⟩, committed := none, userData := some 9 }

theorem state_replaced_iff_reopenedSystem :
    StateReplaced reopenedSystem.store replacedState ∧
      reopenedSystem.store.stateMachine.log.len = 1 := by
  have hreachable : System.Reachable Guaranteed reopenedSystem := System.reachable_get _
  have hlast : replacedState.last = reopenedSystem.store.logState.last := by decide +kernel
  have hpurged : replacedState.purged = reopenedSystem.store.logState.purged := by decide +kernel
  have hbegins : BeginsAfterPurged reopenedSystem.store := by decide +kernel
  have hiff := (state_replaced_iff (memoryWal_lawful _) hlast hpurged).2 hreachable
  exact ⟨hiff.mpr hbegins, by decide +kernel⟩

end RaftLogStore
