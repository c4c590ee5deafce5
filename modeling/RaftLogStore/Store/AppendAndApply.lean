import RaftLogStore.Model.RaftLog

/-!
# What `append_and_apply` does

`append_and_apply` is the one function that writes records.  `run_appendAndApply` is its
whole behaviour as a case analysis; the two inversion rules after it say what it did when it
returned, and what it did when it failed.
-/

namespace RaftLogStore.RaftLog

variable {T : Types} {W : ChunkedWal T}

@[simp] theorem run_onWal {α : Type} (x : EStateM IoError W.Wal α) (s : RaftLog W) :
    (onWal x : Method W α).run s =
      match x.run s.wal with
      | .ok a wal => .ok a { s with wal := wal }
      | .error e wal => .error (.io e) { s with wal := wal } := by
  simp only [onWal, EStateM.run_zoom]
  cases x.run s.wal <;> rfl

@[simp] theorem run_onStateMachine {α : Type} (x : StateMachineM T α) (s : RaftLog W) :
    (onStateMachine x : Method W α).run s =
      match x.run s.stateMachine with
      | .ok a sm => .ok a { s with stateMachine := sm }
      | .error failure sm => .error failure { s with stateMachine := sm } := by
  simp only [onStateMachine, EStateM.run_zoom]
  cases x.run s.stateMachine <;> rfl

/-- The store after an accepted record, from the WAL and the state machine it is now in, with
the obsolete chunks drained if the record closed a chunk. -/
def afterRecord (s : RaftLog W) (wal : W.Wal) (sm : RaftLogStateMachine T) (closed : Bool) :
    RaftLog W :=
  if closed then { s with wal := wal, stateMachine := sm }.bufferRemovableChunks
  else { s with wal := wal, stateMachine := sm }

theorem run_appendAndApply (rec : RaftLogRecord T) (s : RaftLog W) :
    (appendAndApply rec).run s =
      match s.stateMachine.check rec with
      | .error failure => .error failure s
      | .ok () =>
          match (W.append rec).run s.wal with
          | .error e wal => .error (.io e) { s with wal := wal }
          | .ok () wal₁ =>
              match (RaftLogStateMachine.apply rec (W.openChunkId wal₁) (W.lastSegment wal₁)).run
                  s.stateMachine with
              | .error failure sm => .error failure { s with wal := wal₁, stateMachine := sm }
              | .ok () sm =>
                  match (W.tryCloseFullChunk sm.checkpoint).run wal₁ with
                  | .error e wal => .error (.io e) { s with wal := wal, stateMachine := sm }
                  | .ok closed wal₂ =>
                      .ok (W.lastSegment (s.afterRecord wal₂ sm closed).wal)
                        (s.afterRecord wal₂ sm closed) := by
  simp only [appendAndApply, EStateM.run_bind, EStateM.run_get]
  cases s.stateMachine.check rec with
  | error failure => simp
  | ok _ =>
      simp only [EStateM.run_ofExcept_ok, run_onWal]
      cases (W.append rec).run s.wal with
      | error e wal => simp
      | ok _ wal₁ =>
          simp only [run_onStateMachine]
          cases (RaftLogStateMachine.apply rec (W.openChunkId wal₁) (W.lastSegment wal₁)).run
              s.stateMachine with
          | error failure sm => simp
          | ok _ sm =>
              simp only
              cases (W.tryCloseFullChunk sm.checkpoint).run wal₁ with
              | error e wal => simp
              | ok closed wal₂ => cases closed <;> rfl

/-- A record that `append_and_apply` accepts has passed the check, is in the WAL and applied,
and the open chunk may have been closed behind it. -/
theorem appendAndApply_ok {rec : RaftLogRecord T} {s s' : RaftLog W} {segment : Segment}
    (h : (appendAndApply rec).run s = .ok segment s') :
    s.stateMachine.check rec = .ok () ∧
      ∃ wal₁ sm closed wal₂,
        (W.append rec).run s.wal = .ok () wal₁ ∧
        (RaftLogStateMachine.apply rec (W.openChunkId wal₁) (W.lastSegment wal₁)).run
          s.stateMachine = .ok () sm ∧
        (W.tryCloseFullChunk sm.checkpoint).run wal₁ = .ok closed wal₂ ∧
        s' = s.afterRecord wal₂ sm closed ∧ segment = W.lastSegment s'.wal := by
  rw [run_appendAndApply] at h
  split at h
  · simp at h
  · next hcheck =>
    split at h
    · simp at h
    · next wal₁ happend =>
      split at h
      · simp at h
      · next sm happly =>
        split at h
        · simp at h
        · next closed wal₂ hclose =>
          obtain ⟨hsegment, hs'⟩ := EStateM.Result.ok.inj h
          subst hs'
          exact ⟨hcheck, wal₁, sm, closed, wal₂, happend, happly, hclose, rfl, hsegment.symm⟩

/-- A record that `append_and_apply` does not accept is rejected by the check, which leaves
the store alone, or ends in an error of the WAL, or fails in `apply`. -/
theorem appendAndApply_error {rec : RaftLogRecord T} {s s' : RaftLog W} {failure : Failure T}
    (h : (appendAndApply rec).run s = .error failure s') :
    (s.stateMachine.check rec = .error failure ∧ s' = s) ∨ (∃ e, failure = .io e) ∨
      s.stateMachine.check rec = .ok () ∧ ∃ wal₁ sm,
        (W.append rec).run s.wal = .ok () wal₁ ∧
        (RaftLogStateMachine.apply rec (W.openChunkId wal₁) (W.lastSegment wal₁)).run
          s.stateMachine = .error failure sm := by
  rw [run_appendAndApply] at h
  split at h
  · next hcheck =>
    obtain ⟨hfailure, hs'⟩ := EStateM.Result.error.inj h
    exact Or.inl ⟨hfailure ▸ hcheck, hs'.symm⟩
  · next hcheck =>
    split at h
    · exact Or.inr (Or.inl ⟨_, (EStateM.Result.error.inj h).1.symm⟩)
    · next wal₁ happend =>
      split at h
      · next sm happly =>
        obtain ⟨hfailure, -⟩ := EStateM.Result.error.inj h
        exact Or.inr (Or.inr ⟨hcheck, wal₁, sm, happend, hfailure ▸ happly⟩)
      · split at h
        · exact Or.inr (Or.inl ⟨_, (EStateM.Result.error.inj h).1.symm⟩)
        · simp at h

/-- Where the record is accepted and can be applied, `append_and_apply` returns, unless the WAL
fails. -/
theorem appendAndApply_returns {rec : RaftLogRecord T} {s : RaftLog W}
    (hcheck : s.stateMachine.check rec = .ok ())
    (happly : ∀ chunkId segment, ∃ sm,
      (RaftLogStateMachine.apply rec chunkId segment).run s.stateMachine = .ok () sm) :
    (∃ segment s', (appendAndApply rec).run s = .ok segment s') ∨
      ∃ e s', (appendAndApply rec).run s = .error (.io e) s' := by
  rw [run_appendAndApply, hcheck]
  cases (W.append rec).run s.wal with
  | error e wal => exact Or.inr ⟨e, _, rfl⟩
  | ok _ wal₁ =>
      obtain ⟨sm, hsm⟩ := happly (W.openChunkId wal₁) (W.lastSegment wal₁)
      simp only [hsm]
      cases (W.tryCloseFullChunk sm.checkpoint).run wal₁ with
      | error e wal => exact Or.inr ⟨e, _, rfl⟩
      | ok closed wal₂ => exact Or.inl ⟨_, _, rfl⟩

@[simp] theorem stateMachine_bufferRemovableChunks (s : RaftLog W) :
    s.bufferRemovableChunks.stateMachine = s.stateMachine := by
  unfold bufferRemovableChunks
  split <;> rfl

@[simp] theorem logState_bufferRemovableChunks (s : RaftLog W) :
    s.bufferRemovableChunks.logState = s.logState := by
  simp only [logState, stateMachine_bufferRemovableChunks]

@[simp] theorem stateMachine_afterRecord (s : RaftLog W) (wal : W.Wal)
    (sm : RaftLogStateMachine T) (closed : Bool) :
    (s.afterRecord wal sm closed).stateMachine = sm := by
  unfold afterRecord
  split
  · rw [stateMachine_bufferRemovableChunks]
  · rfl

/-- An accepted record is applied at its place in the WAL. -/
theorem appendAndApply_applied {rec : RaftLogRecord T} {s s' : RaftLog W} {segment : Segment}
    (h : (appendAndApply rec).run s = .ok segment s') :
    ∃ wal₁, (W.append rec).run s.wal = .ok () wal₁ ∧
      (RaftLogStateMachine.apply rec (W.openChunkId wal₁) (W.lastSegment wal₁)).run
        s.stateMachine = .ok () s'.stateMachine := by
  obtain ⟨-, wal₁, sm, closed, wal₂, happend, happly, -, rfl, -⟩ := appendAndApply_ok h
  exact ⟨wal₁, happend, by rw [stateMachine_afterRecord]; exact happly⟩

end RaftLogStore.RaftLog

namespace RaftLogStore

variable {T : Types} {W : ChunkedWal T}

/-- With the record the open chunk is full, and is closed. -/
def fillsChunk (s : RaftLog W) (rec : RaftLogRecord T) : Bool :=
  match (W.append rec).run s.wal with
  | .error _ _ => false
  | .ok _ wal =>
      match (W.tryCloseFullChunk (s.logState.update rec)).run wal with
      | .error _ _ => false
      | .ok closed _ => closed

/-- Whether the chunk is closed is decided before the record is written. -/
theorem fillsChunk_eq {rec : RaftLogRecord T} {s : RaftLog W} {wal₁ wal₂ : W.Wal}
    {chunkId : ChunkId} {segment : Segment} {sm : RaftLogStateMachine T} {closed : Bool}
    (happend : (W.append rec).run s.wal = .ok () wal₁)
    (happly : (RaftLogStateMachine.apply rec chunkId segment).run s.stateMachine = .ok () sm)
    (hclose : (W.tryCloseFullChunk sm.checkpoint).run wal₁ = .ok closed wal₂) :
    fillsChunk s rec = closed := by
  have hsm : sm.checkpoint = s.logState.update rec :=
    (RaftLogStateMachine.apply_eq_ok.mp happly).2.2.2
  simp only [fillsChunk, happend, ← hsm, hclose]

end RaftLogStore
