import RaftLogStore.Store.AppendAndApply

/-!
# What a call does

Apart from `append`, a call writes at most one record.  `Writes op s rec` says which record
the call `op` writes to the store `s` if the check accepts it.  Such a call fails or returns
before it writes, and leaves the store alone, or it does what `append_and_apply` does with its
record (`run_exec_single`).

An `append` is the same for its entries, one after the other.
-/

namespace RaftLogStore

open RaftLog

variable {T : Types} {W : ChunkedWal T}

/-- The calls that write at most one record: all but `append` and `flush`. -/
def Op.IsSingle : Op T → Prop
  | .append _ => False
  | .flush _ _ => False
  | _ => True

/-- The record a call writes if the check accepts it. -/
def Op.Writes (op : Op T) (s : RaftLog W) (rec : RaftLogRecord T) : Prop :=
  match op with
  | .saveVote vote => rec = .action (.saveVote vote)
  | .saveUserData userData => rec = .checkpoint { s.logState with userData := userData }
  | .append _ => False
  | .truncate index =>
      ∃ keep, s.truncateKeep index.toNat = .ok keep ∧ rec = .action (.truncateAfter keep)
  | .purge upto =>
      ∃ next, T.nextLogIndex s.logState.purged = .ok next ∧ ¬ T.logIndex upto < next ∧
        rec = .action (.purgeUpto upto)
  | .commit logId => rec = .action (.commit logId)
  | .updateState state =>
      s.stateMachine.checkCheckpoint state = .ok () ∧ rec = .checkpoint state
  | .flush _ _ => False

/-- The ways a call that writes at most one record can go. -/
inductive SingleRun (op : Op T) (s : RaftLog W) : Prop
  | skipped : op.exec.run s = .ok () s → SingleRun op s
  | refused {failure : Failure T} : op.exec.run s = .error failure s → SingleRun op s
  | wrote {rec : RaftLogRecord T} {segment : Segment} {s₁ s' : RaftLog W} :
      op.Writes s rec → (appendAndApply rec).run s = .ok segment s₁ → op.exec.run s = .ok () s' →
      s' = s₁ ∨ s' = s₁.bufferRemovableChunks → SingleRun op s
  | failed {rec : RaftLogRecord T} {failure : Failure T} {s₁ : RaftLog W} :
      op.Writes s rec → (appendAndApply rec).run s = .error failure s₁ →
      op.exec.run s = .error failure s₁ → SingleRun op s

theorem SingleRun.of_appendAndApply {op : Op T} {s : RaftLog W} {rec : RaftLogRecord T}
    (hwrites : op.Writes s rec)
    (hrun : op.exec.run s = (discard (appendAndApply rec) : Method W Unit).run s) :
    SingleRun op s := by
  rw [EStateM.run_discard] at hrun
  cases hrec : (appendAndApply rec).run s with
  | ok segment s₁ =>
      rw [hrec] at hrun
      exact .wrote hwrites hrec hrun (Or.inl rfl)
  | error failure s₁ =>
      rw [hrec] at hrun
      exact .failed hwrites hrec hrun

theorem run_exec_purge (upto : T.LogId) {s : RaftLog W} {next : ℕ}
    (hnext : T.nextLogIndex s.logState.purged = .ok next) :
    (Op.purge upto).exec.run s =
      if T.logIndex upto < next then .ok () s
      else match (appendAndApply (.action (.purgeUpto upto))).run s with
        | .ok _ s₁ => .ok () s₁.bufferRemovableChunks
        | .error failure s₁ => .error failure s₁ := by
  simp only [Op.exec, EStateM.run_discard, purge, EStateM.run_bind, EStateM.run_get, hnext,
    EStateM.run_ofExcept_ok]
  split_ifs with hlt
  · rfl
  · rw [EStateM.run_bind]
    cases (appendAndApply (.action (.purgeUpto upto))).run s <;> rfl

theorem run_exec_single {op : Op T} {s : RaftLog W} (hop : op.IsSingle) : SingleRun op s := by
  cases op with
  | append entries => exact hop.elim
  | flush sync callback => exact hop.elim
  | saveVote vote => exact .of_appendAndApply rfl rfl
  | saveUserData userData => exact .of_appendAndApply rfl rfl
  | commit logId => exact .of_appendAndApply rfl rfl
  | truncate index =>
      cases hkeep : s.truncateKeep index.toNat with
      | error failure =>
          have hrun : (Op.truncate index).exec.run s = .error failure s := by
            simp [Op.exec, truncate, hkeep]
          exact .refused hrun
      | ok keep =>
          refine .of_appendAndApply ⟨keep, hkeep, rfl⟩ ?_
          simp [Op.exec, truncate, hkeep]
  | updateState state =>
      cases hcheck : s.stateMachine.checkCheckpoint state with
      | error failure =>
          have hrun : (Op.updateState state).exec.run s = .error failure s := by
            simp [Op.exec, updateState, hcheck]
          exact .refused hrun
      | ok _ =>
          refine .of_appendAndApply ⟨hcheck, rfl⟩ ?_
          simp [Op.exec, updateState, hcheck]
  | purge upto =>
      cases hnext : T.nextLogIndex s.logState.purged with
      | error failure =>
          have hrun : (Op.purge upto).exec.run s = .error failure s := by
            simp [Op.exec, purge, hnext]
          exact .refused hrun
      | ok next =>
          have hrun := run_exec_purge upto hnext
          by_cases hlt : T.logIndex upto < next
          · rw [if_pos hlt] at hrun
            exact .skipped hrun
          · rw [if_neg hlt] at hrun
            cases hrec : (appendAndApply (.action (.purgeUpto upto))).run s with
            | ok segment s₁ =>
                rw [hrec] at hrun
                exact .wrote ⟨next, hnext, hlt, rfl⟩ hrec hrun (Or.inr rfl)
            | error failure s₁ =>
                rw [hrec] at hrun
                exact .failed ⟨next, hnext, hlt, rfl⟩ hrec hrun

/-- The calls that have no record, and what they do instead. -/
inductive NoRecord (s : RaftLog W) : Op T → Prop
  | truncate {index : UInt64} {failure : Failure T} :
      s.truncateKeep index.toNat = .error failure →
      (Op.truncate index).exec.run s = .error failure s → NoRecord s (.truncate index)
  | updateState {state : RaftLogState T} {failure : Failure T} :
      s.stateMachine.checkCheckpoint state = .error failure →
      (Op.updateState state).exec.run s = .error failure s → NoRecord s (.updateState state)
  | purgeFails {upto : T.LogId} {failure : Failure T} :
      T.nextLogIndex s.logState.purged = .error failure →
      (Op.purge upto).exec.run s = .error failure s → NoRecord s (.purge upto)
  | purged {upto : T.LogId} {next : ℕ} :
      T.nextLogIndex s.logState.purged = .ok next → T.logIndex upto < next →
      (Op.purge upto).exec.run s = .ok () s → NoRecord s (.purge upto)

theorem noRecord_of_single {op : Op T} {s : RaftLog W} (hop : op.IsSingle)
    (hnone : ∀ rec, ¬ op.Writes s rec) : NoRecord s op := by
  cases op with
  | append entries => exact hop.elim
  | flush sync callback => exact hop.elim
  | truncate index =>
      cases hkeep : s.truncateKeep index.toNat with
      | ok keep => exact absurd ⟨keep, hkeep, rfl⟩ (hnone _)
      | error failure => exact .truncate hkeep (by simp [Op.exec, truncate, hkeep])
  | updateState state =>
      cases hcheck : s.stateMachine.checkCheckpoint state with
      | ok _ => exact absurd ⟨hcheck, rfl⟩ (hnone _)
      | error failure => exact .updateState hcheck (by simp [Op.exec, updateState, hcheck])
  | purge upto =>
      cases hnext : T.nextLogIndex s.logState.purged with
      | error failure => exact .purgeFails hnext (by simp [Op.exec, purge, hnext])
      | ok next =>
          by_cases hlt : T.logIndex upto < next
          · exact .purged hnext hlt (by rw [run_exec_purge upto hnext, if_pos hlt])
          · exact absurd ⟨next, hnext, hlt, rfl⟩ (hnone _)
  | _ => exact absurd rfl (hnone _)

/-- What a call does after its record: only `purge` drains once more. -/
def Op.finish (op : Op T) (s : RaftLog W) : RaftLog W :=
  match op with
  | .purge _ => s.bufferRemovableChunks
  | _ => s

/-- A call that writes a record does what `append_and_apply` does with it. -/
theorem run_exec_of_writes {op : Op T} {s : RaftLog W} {rec : RaftLogRecord T}
    (hwrites : op.Writes s rec) :
    op.exec.run s =
      match (appendAndApply rec).run s with
      | .ok _ s₁ => .ok () (op.finish s₁)
      | .error failure s₁ => .error failure s₁ := by
  have hdiscard : (discard (appendAndApply rec) : Method W Unit).run s =
      match (appendAndApply rec).run s with
      | .ok _ s₁ => .ok () s₁
      | .error failure s₁ => .error failure s₁ := by
    rw [EStateM.run_discard]
    cases (appendAndApply rec).run s <;> rfl
  cases op with
  | append entries => exact hwrites.elim
  | flush sync callback => exact hwrites.elim
  | saveVote vote => exact hwrites ▸ hdiscard
  | saveUserData userData => exact hwrites ▸ hdiscard
  | commit logId => exact hwrites ▸ hdiscard
  | truncate index =>
      obtain ⟨keep, hkeep, rfl⟩ := hwrites
      have hrun : (Op.truncate index : Op T).exec.run s =
          (discard (appendAndApply (.action (.truncateAfter keep))) : Method W Unit).run s := by
        simp [Op.exec, truncate, hkeep]
      exact hrun.trans hdiscard
  | updateState state =>
      obtain ⟨hcheck, rfl⟩ := hwrites
      have hrun : (Op.updateState state).exec.run s =
          (discard (appendAndApply (.checkpoint state)) : Method W Unit).run s := by
        simp [Op.exec, updateState, hcheck]
      exact hrun.trans hdiscard
  | purge upto =>
      obtain ⟨next, hnext, hlt, rfl⟩ := hwrites
      rw [run_exec_purge upto hnext, if_neg hlt]
      cases (appendAndApply (.action (.purgeUpto upto))).run s <;> rfl

/-- A call that returned has written its record. -/
theorem ok_of_writes {op : Op T} {s s' : RaftLog W} {rec : RaftLogRecord T}
    (h : op.exec.run s = .ok () s') (hwrites : op.Writes s rec) :
    ∃ segment s₁, (appendAndApply rec).run s = .ok segment s₁ ∧ s' = op.finish s₁ := by
  rw [run_exec_of_writes hwrites] at h
  cases hrec : (appendAndApply rec).run s with
  | ok segment s₁ =>
      rw [hrec] at h
      exact ⟨segment, s₁, rfl, (EStateM.Result.ok.inj h).2.symm⟩
  | error failure s₁ =>
      rw [hrec] at h
      exact absurd h (by simp)

/-! ## Rejections -/

/-- A record rejected with a state error leaves the store as it was. -/
theorem appendAndApply_state_error {rec : RaftLogRecord T} {s s' : RaftLog W}
    {e : RaftLogStateError T} (h : (appendAndApply rec).run s = .error (.state e) s') : s' = s := by
  rcases appendAndApply_error h with ⟨-, heq⟩ | ⟨e', heq⟩ | ⟨hcheck, wal₁, sm, -, happly⟩
  · exact heq
  · exact absurd heq (by simp)
  · exact absurd (RaftLogStateMachine.apply_eq_error_of_check hcheck happly) (by simp)

/-- A call that writes at most one record and is rejected with a state error leaves the store
as it was. -/
theorem rejected_single {op : Op T} {s s' : RaftLog W} {e : RaftLogStateError T}
    (hop : op.IsSingle) (h : op.exec.run s = .error (.state e) s') : s' = s := by
  cases run_exec_single hop with
  | skipped hrun => rw [hrun] at h; exact absurd h (by simp)
  | refused hrun => rw [hrun] at h; exact (EStateM.Result.error.inj h).2.symm
  | wrote _ _ hrun _ => rw [hrun] at h; exact absurd h (by simp)
  | failed _ hrec hrun =>
      rw [hrun] at h
      obtain ⟨rfl, rfl⟩ := EStateM.Result.error.inj h
      exact appendAndApply_state_error hrec

/-- A completed call has written its record if the check accepts it. -/
theorem completes_of_writes {op : Op T} {s s' : RaftLog W} {rec : RaftLogRecord T}
    (h : Completes op s s') (hwrites : op.Writes s rec)
    (hcheck : s.stateMachine.check rec = .ok ()) :
    ∃ segment s₁, (appendAndApply rec).run s = .ok segment s₁ ∧ s' = op.finish s₁ := by
  rcases h with hok | ⟨e, hrejected⟩
  · exact ok_of_writes hok hwrites
  · rw [run_exec_of_writes hwrites] at hrejected
    cases hrec : (appendAndApply rec).run s with
    | ok segment s₁ =>
        rw [hrec] at hrejected
        exact absurd hrejected (by simp)
    | error failure s₁ =>
        rw [hrec] at hrejected
        obtain ⟨rfl, -⟩ := EStateM.Result.error.inj hrejected
        rcases appendAndApply_error hrec with ⟨hreject, -⟩ | ⟨e', he'⟩ | ⟨-, wal₁, sm, -, happly⟩
        · exact absurd (hcheck.symm.trans hreject) (by simp)
        · exact absurd he' (by simp)
        · exact absurd (RaftLogStateMachine.apply_eq_error_of_check hcheck happly) (by simp)

/-- A completed call that writes at most one record has left the store alone or has written
its record. -/
theorem completes_single {op : Op T} {s s' : RaftLog W} (hop : op.IsSingle)
    (h : Completes op s s') :
    s' = s ∨ ∃ rec segment s₁, op.Writes s rec ∧ (appendAndApply rec).run s = .ok segment s₁ ∧
      (s' = s₁ ∨ s' = s₁.bufferRemovableChunks) := by
  rcases h with hok | ⟨e, hrejected⟩
  · cases run_exec_single hop with
    | skipped hrun => rw [hrun] at hok; exact Or.inl (EStateM.Result.ok.inj hok).2.symm
    | refused hrun => rw [hrun] at hok; exact absurd hok (by simp)
    | wrote hwrites hrec hrun hs' =>
        rw [hrun] at hok
        obtain ⟨-, rfl⟩ := EStateM.Result.ok.inj hok
        exact Or.inr ⟨_, _, _, hwrites, hrec, hs'⟩
    | failed _ _ hrun => rw [hrun] at hok; exact absurd hok (by simp)
  · exact Or.inl (rejected_single hop hrejected)

/-! ## The calls with any number of records -/

/-- What an entry that is accepted changes. -/
theorem appendAndApply_entry {logId : T.LogId} {payload : T.LogPayload} {s s' : RaftLog W}
    {segment : Segment}
    (h : (appendAndApply (.action (.append logId payload))).run s = .ok segment s') :
    s.logState.checkAppend logId = .ok () ∧
      s.stateMachine.payloadCache.insert logId payload = .ok s'.stateMachine.payloadCache ∧
      s'.logState = { s.logState with last := some logId } ∧
      ∃ chunkId recordSegment, s'.stateMachine.log =
        s.stateMachine.log.insert (T.logIndex logId) ⟨logId, chunkId, recordSegment⟩ := by
  obtain ⟨wal₁, -, happly⟩ := appendAndApply_applied h
  obtain ⟨hlog, hcache, hcheck, hstate⟩ := RaftLogStateMachine.apply_eq_ok.mp happly
  exact ⟨hcheck, hcache, hstate, _, _, (Except.ok.inj hlog).symm⟩

theorem run_exec_append (entries : List (T.LogId × T.LogPayload)) (s : RaftLog W) :
    (Op.append entries).exec.run s = (appendLoop entries).run s := by
  simp only [Op.exec, EStateM.run_discard, append, EStateM.run_bind]
  cases (appendLoop entries).run s <;> rfl

theorem run_appendLoop_cons (logId : T.LogId) (payload : T.LogPayload)
    (entries : List (T.LogId × T.LogPayload)) (s : RaftLog W) :
    (appendLoop ((logId, payload) :: entries)).run s =
      match (appendAndApply (.action (.append logId payload))).run s with
      | .ok _ s₁ => (appendLoop entries).run s₁
      | .error failure s₁ => .error failure s₁ := by
  simp only [appendLoop, EStateM.run_bind]
  cases (appendAndApply (.action (.append logId payload))).run s <;> rfl

/-- The loop of `append` comes to an end on `s` and leaves the store as `s'`: behind its last
entry, or at the first that is rejected. -/
inductive AppendEnds : List (T.LogId × T.LogPayload) → RaftLog W → RaftLog W →
    Option (RaftLogStateError T) → Prop
  | done (s : RaftLog W) : AppendEnds [] s s none
  | next {logId : T.LogId} {payload : T.LogPayload} {entries : List (T.LogId × T.LogPayload)}
      {s s₁ s' : RaftLog W} {segment : Segment} {rejection : Option (RaftLogStateError T)} :
      (appendAndApply (.action (.append logId payload))).run s = .ok segment s₁ →
      AppendEnds entries s₁ s' rejection → AppendEnds ((logId, payload) :: entries) s s' rejection
  | rejected {logId : T.LogId} {payload : T.LogPayload}
      {entries : List (T.LogId × T.LogPayload)} {s : RaftLog W} {e : RaftLogStateError T} :
      (appendAndApply (.action (.append logId payload))).run s = .error (.state e) s →
      AppendEnds ((logId, payload) :: entries) s s (some e)

/-- What a loop that ends so returns. -/
def appendResult (s' : RaftLog W) :
    Option (RaftLogStateError T) → EStateM.Result (Failure T) (RaftLog W) Unit
  | none => .ok () s'
  | some e => .error (.state e) s'

theorem appendResult_eq_error_iff {s' : RaftLog W} {rejection : Option (RaftLogStateError T)}
    {e : RaftLogStateError T} :
    appendResult s' rejection = .error (.state e) s' ↔ rejection = some e := by
  cases rejection <;> simp [appendResult]

/-- The cases of a loop that comes to an end, in which it is an induction. -/
theorem appendEnds_iff {entries : List (T.LogId × T.LogPayload)} {s s' : RaftLog W}
    {rejection : Option (RaftLogStateError T)} :
    AppendEnds entries s s' rejection ↔ (appendLoop entries).run s = appendResult s' rejection := by
  constructor
  · intro h
    induction h with
    | done s => rfl
    | next hrec _ ih => rw [run_appendLoop_cons, hrec, ← ih]
    | rejected hrec => rw [run_appendLoop_cons, hrec]; rfl
  · intro h
    induction entries generalizing s with
    | nil =>
        cases rejection with
        | none =>
            obtain rfl := (EStateM.Result.ok.inj h).2
            exact .done s
        | some e => simp [appendLoop, appendResult] at h
    | cons entry entries ih =>
        obtain ⟨logId, payload⟩ := entry
        rw [run_appendLoop_cons] at h
        cases hrec : (appendAndApply (.action (.append logId payload))).run s with
        | ok segment s₁ =>
            rw [hrec] at h
            exact .next hrec (ih h)
        | error failure s₁ =>
            rw [hrec] at h
            cases rejection with
            | none => simp [appendResult] at h
            | some e =>
                obtain ⟨rfl, rfl⟩ := EStateM.Result.error.inj h
                obtain rfl := appendAndApply_state_error hrec
                exact .rejected hrec

theorem appendEnds_of_completes {entries : List (T.LogId × T.LogPayload)} {s s' : RaftLog W}
    (h : Completes (.append entries) s s') : ∃ rejection, AppendEnds entries s s' rejection := by
  simp only [Completes, run_exec_append] at h
  rcases h with hok | ⟨e, hrejected⟩
  · exact ⟨none, appendEnds_iff.mpr hok⟩
  · exact ⟨some e, appendEnds_iff.mpr hrejected⟩

/-- What every entry keeps, the loop keeps. -/
theorem AppendEnds.invariant {I : RaftLog W → Prop}
    (hstep : ∀ {logId payload s segment s₁},
      (appendAndApply (.action (.append logId payload))).run s = .ok segment s₁ → I s → I s₁)
    {entries : List (T.LogId × T.LogPayload)} {s s' : RaftLog W}
    {rejection : Option (RaftLogStateError T)} (h : AppendEnds entries s s' rejection) (hs : I s) :
    I s' := by
  induction h with
  | done s => exact hs
  | next hrec _ ih => exact ih (hstep hrec hs)
  | rejected _ => exact hs

/-- The loop does not panic if none of the entries that it comes to does. -/
theorem appendLoop_ne_panic_of {P : List (T.LogId × T.LogPayload) → RaftLog W → Prop}
    (hnext : ∀ {logId payload entries s segment s₁}, P ((logId, payload) :: entries) s →
      (appendAndApply (.action (.append logId payload))).run s = .ok segment s₁ → P entries s₁)
    (hentry : ∀ {logId payload entries s s₁}, P ((logId, payload) :: entries) s →
      (appendAndApply (.action (.append logId payload))).run s ≠ .error .panic s₁)
    {entries : List (T.LogId × T.LogPayload)} {s s' : RaftLog W} (h : P entries s) :
    (appendLoop entries).run s ≠ .error .panic s' := by
  induction entries generalizing s with
  | nil => simp [appendLoop]
  | cons entry entries ih =>
      obtain ⟨logId, payload⟩ := entry
      rw [run_appendLoop_cons]
      cases hrec : (appendAndApply (.action (.append logId payload))).run s with
      | ok segment s₁ => exact ih (hnext h hrec)
      | error failure s₁ =>
          intro heq
          obtain ⟨rfl, -⟩ := EStateM.Result.error.inj heq
          exact hentry h hrec

/-- The last entry of an `append` is written to the store that the others lead to. -/
theorem appendLoop_concat_ok {front : List (T.LogId × T.LogPayload)} {logId : T.LogId}
    {payload : T.LogPayload} {s s' : RaftLog W}
    (h : (appendLoop (front ++ [(logId, payload)])).run s = .ok () s') :
    ∃ s₁ segment, (appendLoop front).run s = .ok () s₁ ∧
      (appendAndApply (.action (.append logId payload))).run s₁ = .ok segment s' := by
  induction front generalizing s with
  | nil =>
      rw [List.nil_append, run_appendLoop_cons] at h
      cases hrec : (appendAndApply (.action (.append logId payload))).run s with
      | error failure s₁ => simp [hrec] at h
      | ok segment s₁ =>
          rw [hrec] at h
          obtain rfl : s₁ = s' := (EStateM.Result.ok.inj h).2
          exact ⟨s, segment, rfl, hrec⟩
  | cons entry front ih =>
      rw [List.cons_append, run_appendLoop_cons] at h
      rw [run_appendLoop_cons]
      cases hrec : (appendAndApply (.action (.append entry.1 entry.2))).run s with
      | error failure s₁ => simp [hrec] at h
      | ok segment s₁ =>
          rw [hrec] at h
          exact ih h

/-- A `flush` that returned has handed over the pending records, and behind a sync the
removals that were waiting. -/
theorem flush_ok {sync : Bool} {callback : Option T.Callback} {s s' : RaftLog W}
    (h : (flush sync callback).run s = .ok () s') :
    ∃ wal₁, (W.sendPending sync callback).run s.wal = .ok () wal₁ ∧
      (((sync = false ∨ s.removedChunks = []) ∧ s' = { s with wal := wal₁ }) ∨
        sync = true ∧ ∃ wal₂, (W.sendRemoveChunks s.removedChunks).run wal₁ = .ok () wal₂ ∧
          s' = { s with wal := wal₂, removedChunks := [] }) := by
  simp only [flush, EStateM.run_bind, run_onWal, EStateM.run_get] at h
  cases hsend : (W.sendPending sync callback).run s.wal with
  | error e wal => simp [hsend] at h
  | ok _ wal₁ =>
      simp only [hsend] at h
      refine ⟨wal₁, rfl, ?_⟩
      split_ifs at h with hremove
      · simp only [EStateM.run_bind, EStateM.run_set, run_onWal] at h
        cases hremoval : (W.sendRemoveChunks s.removedChunks).run wal₁ with
        | error e wal => simp [hremoval] at h
        | ok _ wal₂ =>
            simp only [hremoval] at h
            exact Or.inr ⟨hremove.1, wal₂, rfl, (EStateM.Result.ok.inj h).2.symm⟩
      · refine Or.inl ⟨?_, (EStateM.Result.ok.inj h).2.symm⟩
        cases sync with
        | false => exact Or.inl rfl
        | true => simpa using hremove

/-- A `flush` fails when one of its two requests cannot be sent. -/
theorem flush_failed {sync : Bool} {callback : Option T.Callback} {s s' : RaftLog W}
    {failure : Failure T} (h : (flush sync callback).run s = .error failure s') :
    ∃ e wal', failure = .io e ∧
      ((W.sendPending sync callback).run s.wal = .error e wal' ∧ s' = { s with wal := wal' } ∨
        ∃ wal₁, (W.sendPending sync callback).run s.wal = .ok () wal₁ ∧
          (W.sendRemoveChunks s.removedChunks).run wal₁ = .error e wal' ∧
          s' = { s with wal := wal', removedChunks := [] }) := by
  simp only [flush, EStateM.run_bind, run_onWal, EStateM.run_get] at h
  cases hsend : (W.sendPending sync callback).run s.wal with
  | error e wal =>
      simp only [hsend] at h
      obtain ⟨rfl, rfl⟩ := EStateM.Result.error.inj h
      exact ⟨e, wal, rfl, Or.inl ⟨rfl, rfl⟩⟩
  | ok _ wal₁ =>
      simp only [hsend] at h
      split_ifs at h with hremove
      · simp only [EStateM.run_bind, EStateM.run_set, run_onWal] at h
        cases hremoval : (W.sendRemoveChunks s.removedChunks).run wal₁ with
        | error e wal =>
            simp only [hremoval] at h
            obtain ⟨rfl, rfl⟩ := EStateM.Result.error.inj h
            exact ⟨e, wal, rfl, Or.inr ⟨wal₁, rfl, hremoval, rfl⟩⟩
        | ok _ wal₂ => simp [hremoval] at h
      · simp at h

/-- A `flush` is not rejected. -/
theorem flush_error {sync : Bool} {callback : Option T.Callback} {s s' : RaftLog W}
    {failure : Failure T} (h : (flush sync callback).run s = .error failure s') :
    ∃ e, failure = .io e := by
  obtain ⟨e, -, he, -⟩ := flush_failed h
  exact ⟨e, he⟩

/-- `drain_cache_evictable` changes the cache and nothing else. -/
theorem drainCacheEvictable_ok {s s' : RaftLog W}
    (h : drainCacheEvictable.run s = .ok () s') :
    ∃ cache, s.stateMachine.payloadCache.drainEvictable = .ok cache ∧
      s' = { s with stateMachine := { s.stateMachine with payloadCache := cache } } := by
  rw [drainCacheEvictable, run_onStateMachine, RaftLogStateMachine.run_updateCache] at h
  cases hdrain : s.stateMachine.payloadCache.drainEvictable with
  | error failure => simp [hdrain] at h
  | ok cache =>
      simp only [hdrain] at h
      exact ⟨cache, rfl, (EStateM.Result.ok.inj h).2.symm⟩

end RaftLogStore
