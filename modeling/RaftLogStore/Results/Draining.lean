import Mathlib.Data.List.TakeWhile
import RaftLogStore.Journal.States
import RaftLogStore.Store.FallibleStore

/-!
# No obsolete chunk is left behind

A closed chunk is obsolete once `purged` has reached the `last` it ends with.  Two events make a
chunk obsolete and drain it in the same call: a chunk is closed, and a `purge` moves `purged`.

There are two exceptions.  `update_state` may move `purged` as well, and it drains only if its
record happens to fill the open chunk.  And a call returns early if the full chunk cannot be
closed: its record is applied by then, and a `purge` does not come to its drain.  In both cases the
obsolete chunks stay until the next event.

## Strategy
1. A drain leaves no obsolete chunk, whatever was there before
   (`noObsoleteChunk_bufferRemovableChunks`).
2. A record that is accepted leaves none exactly if it fills the open chunk or moves `purged` past
   no closed chunk (`noObsoleteChunk_appendAndApply`), and one that fails if it is not applied or
   moves `purged` past no closed chunk (`noObsoleteChunk_failed`).
3. Only `purge` and `update_state` move `purged`, so the other calls leave none, however they end
   (`noObsoleteChunk_ends_iff`).
-/

namespace RaftLogStore

open RaftLog Transition

variable {T : Types} {W : ChunkedWal T}

/-- The oldest chunk of `s` that is closed and not drained does not end at or below `purged`. -/
def OldestAbove (s : RaftLog W) (purged : Option T.LogId) : Prop :=
  ∀ p ∈ purged, ∀ c ∈ (W.view s.wal).closed.head?, some p < c.state.last

instance (s : RaftLog W) (purged : Option T.LogId) : Decidable (OldestAbove s purged) :=
  inferInstanceAs (Decidable (∀ p ∈ purged, ∀ c ∈ (W.view s.wal).closed.head?, _))

/-- No closed chunk that holds only purged logs waits to be drained. -/
def NoObsoleteChunk (s : RaftLog W) : Prop := OldestAbove s s.logState.purged

instance (s : RaftLog W) : Decidable (NoObsoleteChunk s) :=
  inferInstanceAs (Decidable (OldestAbove s s.logState.purged))

/-- The record fills the open chunk, or leaves the oldest closed chunk above `purged`. -/
def DrainedBy (s : RaftLog W) (rec : RaftLogRecord T) : Prop :=
  fillsChunk s rec = true ∨ OldestAbove s (s.logState.update rec).purged

/-- The WAL takes the record. -/
def takesRecord (s : RaftLog W) (rec : RaftLogRecord T) : Bool :=
  match (W.append rec).run s.wal with
  | .ok _ _ => true
  | .error _ _ => false

/-- The WAL takes the record, and then fails to close the open chunk. -/
def closingFails (s : RaftLog W) (rec : RaftLogRecord T) : Bool :=
  match (W.append rec).run s.wal with
  | .error _ _ => false
  | .ok _ wal =>
      match (W.tryCloseFullChunk (s.logState.update rec)).run wal with
      | .error _ _ => true
      | .ok _ _ => false

/-- A call that drains what it makes obsolete. -/
def ObsoleteDrained (s : RaftLog W) : Op T → Prop
  | .updateState state => ∀ rec, (Op.updateState state).Writes s rec →
      takesRecord s rec = true → DrainedBy s rec
  | .purge upto => ∀ rec, (Op.purge upto).Writes s rec →
      closingFails s rec = true → OldestAbove s (s.logState.update rec).purged
  | _ => True

instance (s : RaftLog W) (rec : RaftLogRecord T) : Decidable (DrainedBy s rec) :=
  inferInstanceAs (Decidable (_ ∨ _))

instance (s : RaftLog W) : (op : Op T) → Decidable (ObsoleteDrained s op)
  | .updateState state =>
      decidable_of_iff (∀ rec ∈ (Op.updateState state).record s,
        takesRecord s rec = true → DrainedBy s rec)
        (forall_congr' fun _ => imp_congr_left Op.record_eq_some_iff)
  | .purge upto =>
      decidable_of_iff (∀ rec ∈ (Op.purge upto).record s,
        closingFails s rec = true → OldestAbove s (s.logState.update rec).purged)
        (forall_congr' fun _ => imp_congr_left Op.record_eq_some_iff)
  | .saveVote _ | .saveUserData _ | .append _ | .truncate _ | .commit _ | .flush _ _ =>
      isTrue trivial

/-! ## A drain -/

theorem noObsoleteChunk_bufferRemovableChunks (hW : Lawful W) (s : RaftLog W) :
    NoObsoleteChunk s.bufferRemovableChunks := by
  intro p hp c hc
  rw [logState_bufferRemovableChunks] at hp
  have hpurged : s.logState.purged = some p := hp
  obtain ⟨-, -, -, hview⟩ := hW.drainClosedChunksWhile_eq (Eq.refl
    (W.drainClosedChunksWhile (fun state => decide (state.last ≤ some p)) s.wal))
  simp only [bufferRemovableChunks, hpurged, hview] at hc
  -- what a `dropWhile` begins with is not dropped
  have hkept := List.head?_dropWhile_not (fun c : ClosedChunk T => decide (c.state.last ≤ some p))
    (W.view s.wal).closed
  rw [Option.mem_def.mp hc] at hkept
  simpa using hkept

theorem noObsoleteChunk_openLog (hW : Lawful W) {config : Config W} {disk : List (Located T)}
    {s : RaftLog W} (h : openLog config disk = .ok s) : NoObsoleteChunk s := by
  unfold openLog at h
  split at h
  · exact absurd h (by simp)
  · rw [← Except.ok.inj h]
    exact noObsoleteChunk_bufferRemovableChunks hW _

/-- Only the closed chunks and `purged` matter. -/
theorem noObsoleteChunk_iff_of_closed_eq {s s' : RaftLog W}
    (hclosed : (W.view s'.wal).closed = (W.view s.wal).closed) :
    NoObsoleteChunk s' ↔ OldestAbove s s'.logState.purged := by
  simp only [NoObsoleteChunk, OldestAbove, hclosed]

theorem noObsoleteChunk_of_same {s s' : RaftLog W} (hs : NoObsoleteChunk s)
    (hclosed : (W.view s'.wal).closed = (W.view s.wal).closed)
    (hpurged : s'.logState.purged = s.logState.purged) : NoObsoleteChunk s' := by
  rw [noObsoleteChunk_iff_of_closed_eq hclosed, hpurged]
  exact hs

/-! ## One record -/

/-- Whether a record that is accepted leaves an obsolete chunk behind. -/
theorem noObsoleteChunk_appendAndApply (hW : Lawful W) {rec : RaftLogRecord T} {s s₁ : RaftLog W}
    {segment : Segment} (h : (appendAndApply rec).run s = .ok segment s₁) :
    takesRecord s rec = true ∧ closingFails s rec = false ∧
      (NoObsoleteChunk s₁ ↔ DrainedBy s rec) := by
  have hstate := logState_appendAndApply h
  obtain ⟨-, wal₁, sm, closed, wal₂, happend, happly, hclose, rfl, -⟩ := appendAndApply_ok h
  have hsm : sm.checkpoint = s.logState.update rec :=
    (RaftLogStateMachine.apply_eq_ok.mp happly).2.2.2
  have hfills := fillsChunk_eq happend happly hclose
  obtain ⟨-, hview₁⟩ := hW.append_ok happend
  refine ⟨by simp only [takesRecord, happend],
    by simp only [closingFails, happend, ← hsm, hclose], ?_⟩
  cases closed with
  | true =>
      refine iff_of_true ?_ (Or.inl hfills)
      exact noObsoleteChunk_bufferRemovableChunks hW { s with wal := wal₂, stateMachine := sm }
  | false =>
      obtain ⟨-, -, hview₂⟩ := hW.tryCloseFullChunk_false hclose
      have hclosed : (W.view (s.afterRecord wal₂ sm false).wal).closed =
          (W.view s.wal).closed := by
        simp [afterRecord, hview₂, hview₁]
      rw [noObsoleteChunk_iff_of_closed_eq hclosed, hstate]
      simp only [DrainedBy, hfills, Bool.false_eq_true, false_or]

/-- A record that fails is rejected, or not taken by the WAL, or applied without closing the full
chunk. -/
theorem noObsoleteChunk_failed (hW : Lawful W) (hfails : FailsInPlace W) {rec : RaftLogRecord T}
    {s s₁ : RaftLog W} {failure : Failure T} (hs : NoObsoleteChunk s) (hne : failure ≠ .panic)
    (h : (appendAndApply rec).run s = .error failure s₁) :
    (s.logState.check rec = .error failure ∧ s₁ = s) ∨
      (takesRecord s rec = false ∧ closingFails s rec = false ∧ NoObsoleteChunk s₁) ∨
      takesRecord s rec = true ∧ closingFails s rec = true ∧ fillsChunk s rec = false ∧
        (NoObsoleteChunk s₁ ↔ OldestAbove s (s.logState.update rec).purged) := by
  rw [run_appendAndApply] at h
  split at h
  · next hcheck =>
    obtain ⟨rfl, rfl⟩ := EStateM.Result.error.inj h
    exact Or.inl ⟨hcheck, rfl⟩
  · next hcheck =>
    split at h
    · -- nothing has been applied
      next e wal₁ happend =>
      obtain ⟨-, rfl⟩ := EStateM.Result.error.inj h
      have hclosed : (W.view wal₁).closed = (W.view s.wal).closed := hfails.append happend
      refine Or.inr (Or.inl ⟨?_, ?_, noObsoleteChunk_of_same hs hclosed rfl⟩)
      · simp only [takesRecord, happend]
      · simp only [closingFails, happend]
    · next wal₁ happend =>
      split at h
      · next sm happly =>
        obtain ⟨rfl, -⟩ := EStateM.Result.error.inj h
        exact absurd (RaftLogStateMachine.apply_eq_error_of_check hcheck happly) hne
      · next sm happly =>
        split at h
        · -- the record has been applied, and the `?` skips the drain
          next e wal₂ hclose =>
          obtain ⟨-, rfl⟩ := EStateM.Result.error.inj h
          obtain ⟨-, hview₁⟩ := hW.append_ok happend
          have hsm : sm.logState = s.logState.update rec :=
            (RaftLogStateMachine.apply_eq_ok.mp happly).2.2.2
          have hclosed : (W.view wal₂).closed = (W.view s.wal).closed := by
            rw [hfails.tryCloseFullChunk hclose, hview₁]
          have hclose' : (W.tryCloseFullChunk (s.logState.update rec)).run wal₁ = .error e wal₂ :=
            hsm ▸ hclose
          refine Or.inr (Or.inr ⟨?_, ?_, ?_, ?_⟩)
          · simp only [takesRecord, happend]
          · simp only [closingFails, happend, hclose']
          · simp only [fillsChunk, happend, hclose']
          · rw [noObsoleteChunk_iff_of_closed_eq hclosed, ← hsm]
            rfl
        · simp at h

/-- A record that leaves `purged` alone leaves no obsolete chunk where there was none, however it
ends. -/
theorem noObsoleteChunk_of_purged_eq (hW : Lawful W) (hfails : FailsInPlace W)
    {rec : RaftLogRecord T} {s s₁ : RaftLog W} (hs : NoObsoleteChunk s)
    (hpurged : (s.logState.update rec).purged = s.logState.purged)
    (h : (∃ segment, (appendAndApply rec).run s = .ok segment s₁) ∨
      ∃ failure, failure ≠ .panic ∧ (appendAndApply rec).run s = .error failure s₁) :
    NoObsoleteChunk s₁ := by
  have hkept : OldestAbove s (s.logState.update rec).purged := hpurged ▸ hs
  rcases h with ⟨segment, hrec⟩ | ⟨failure, hne, hrec⟩
  · exact (noObsoleteChunk_appendAndApply hW hrec).2.2.mpr (Or.inr hkept)
  · rcases noObsoleteChunk_failed hW hfails hs hne hrec with
      ⟨-, rfl⟩ | ⟨-, -, hnone⟩ | ⟨-, -, -, hiff⟩
    · exact hs
    · exact hnone
    · exact hiff.mpr hkept

/-! ## Calls -/

theorem Op.Writes.unique {op : Op T} {s : RaftLog W} {rec rec' : RaftLogRecord T}
    (h : op.Writes s rec) (h' : op.Writes s rec') : rec' = rec :=
  Option.some.inj
    ((Op.record_eq_some_iff.mpr h').symm.trans (Op.record_eq_some_iff.mpr h))

theorem obsoleteDrained_updateState_iff {state : RaftLogState T} {s : RaftLog W}
    {rec : RaftLogRecord T} (hwrites : (Op.updateState state).Writes s rec) :
    ObsoleteDrained s (.updateState state) ↔ (takesRecord s rec = true → DrainedBy s rec) :=
  ⟨fun h => h rec hwrites, fun h _ hrec' => hwrites.unique hrec' ▸ h⟩

theorem obsoleteDrained_purge_iff {upto : T.LogId} {s : RaftLog W} {rec : RaftLogRecord T}
    (hwrites : (Op.purge upto).Writes s rec) :
    ObsoleteDrained s (.purge upto) ↔
      (closingFails s rec = true → OldestAbove s (s.logState.update rec).purged) :=
  ⟨fun h => h rec hwrites, fun h _ hrec' => hwrites.unique hrec' ▸ h⟩

/-- A call that writes nothing drains nothing. -/
theorem obsoleteDrained_of_not_writes {op : Op T} {s : RaftLog W}
    (h : ∀ rec, ¬ op.Writes s rec) : ObsoleteDrained s op := by
  cases op with
  | updateState state => exact fun rec hrec => absurd hrec (h rec)
  | purge upto => exact fun rec hrec => absurd hrec (h rec)
  | _ => trivial

theorem noObsoleteChunk_updateState_iff (hW : Lawful W) (hfails : FailsInPlace W)
    {state : RaftLogState T} {s s' : RaftLog W} {rec : RaftLogRecord T} (hs : NoObsoleteChunk s)
    (hwrites : (Op.updateState state).Writes s rec)
    (h : (∃ segment, (appendAndApply rec).run s = .ok segment s') ∨
      ∃ failure, failure ≠ .panic ∧ (appendAndApply rec).run s = .error failure s') :
    NoObsoleteChunk s' ↔ ObsoleteDrained s (.updateState state) := by
  rw [obsoleteDrained_updateState_iff hwrites]
  rcases h with ⟨segment, hrec⟩ | ⟨failure, hne, hrec⟩
  · obtain ⟨htakes, -, hiff⟩ := noObsoleteChunk_appendAndApply hW hrec
    exact hiff.trans ⟨fun h _ => h, fun h => h htakes⟩
  · obtain ⟨-, rfl⟩ := hwrites
    rcases noObsoleteChunk_failed hW hfails hs hne hrec with
      ⟨hcheck, -⟩ | ⟨htakes, -, hnone⟩ | ⟨htakes, -, hfills, hiff⟩
    · simp [RaftLogState.check] at hcheck
    · exact iff_of_true hnone fun htakes' => absurd (htakes'.symm.trans htakes) (by simp)
    · simp [hiff, DrainedBy, htakes, hfills]

theorem noObsoleteChunk_purge_iff (hW : Lawful W) (hfails : FailsInPlace W) {upto : T.LogId}
    {s s' : RaftLog W} {rec : RaftLogRecord T} (hs : NoObsoleteChunk s)
    (hwrites : (Op.purge upto).Writes s rec)
    (h : (∃ segment s₁, (appendAndApply rec).run s = .ok segment s₁ ∧
        s' = s₁.bufferRemovableChunks) ∨
      ∃ failure, failure ≠ .panic ∧ (appendAndApply rec).run s = .error failure s') :
    NoObsoleteChunk s' ↔ ObsoleteDrained s (.purge upto) := by
  rw [obsoleteDrained_purge_iff hwrites]
  rcases h with ⟨segment, s₁, hrec, rfl⟩ | ⟨failure, hne, hrec⟩
  · obtain ⟨-, hcloses, -⟩ := noObsoleteChunk_appendAndApply hW hrec
    exact iff_of_true (noObsoleteChunk_bufferRemovableChunks hW s₁) (by simp [hcloses])
  · obtain ⟨-, -, -, rfl⟩ := hwrites
    rcases noObsoleteChunk_failed hW hfails hs hne hrec with
      ⟨hcheck, -⟩ | ⟨-, hcloses, hnone⟩ | ⟨-, hcloses, -, hiff⟩
    · simp [RaftLogState.check] at hcheck
    · exact iff_of_true hnone (by simp [hcloses])
    · simp [hiff, hcloses]

theorem noObsoleteChunk_flush (hW : Lawful W) (hfails : FailsInPlace W) {sync : Bool}
    {callback : Option T.Callback} {s s' : RaftLog W} (hs : NoObsoleteChunk s)
    (h : Ends (.flush sync callback) s s') : NoObsoleteChunk s' := by
  rcases h with hok | ⟨failure, -, herror⟩
  · obtain ⟨wal₁, hsend, hcases⟩ := flush_ok hok
    obtain ⟨-, -, hview₁⟩ := hW.sendPending_ok hsend
    rcases hcases with ⟨-, rfl⟩ | ⟨-, wal₂, hremove, rfl⟩
    · exact noObsoleteChunk_of_same hs (by simp [hview₁]) rfl
    · obtain ⟨-, -, hview₂⟩ := hW.sendRemoveChunks_ok hremove
      exact noObsoleteChunk_of_same hs (by simp [hview₂, hview₁]) rfl
  · obtain ⟨e, wal', -, ⟨hsend, rfl⟩ | ⟨wal₁, hsend, hremove, rfl⟩⟩ := flush_failed herror
    · exact noObsoleteChunk_of_same hs (hfails.sendPending hsend) rfl
    · obtain ⟨-, -, hview₁⟩ := hW.sendPending_ok hsend
      have hclosed : (W.view wal').closed = (W.view s.wal).closed := by
        rw [hfails.sendRemoveChunks hremove, hview₁]
      exact noObsoleteChunk_of_same hs hclosed rfl

theorem noObsoleteChunk_append (hW : Lawful W) (hfails : FailsInPlace W)
    {entries : List (T.LogId × T.LogPayload)} {s s' : RaftLog W} (hs : NoObsoleteChunk s)
    (h : Ends (.append entries) s s') : NoObsoleteChunk s' := by
  have hloop {front : List (T.LogId × T.LogPayload)} {s₁ : RaftLog W}
      (hends : AppendEnds front s s₁ none) : NoObsoleteChunk s₁ :=
    hends.invariant (I := NoObsoleteChunk) (fun hrec hs =>
      noObsoleteChunk_of_purged_eq hW hfails hs rfl (Or.inl ⟨_, hrec⟩)) hs
  simp only [Ends, run_exec_append] at h
  rcases h with hok | ⟨failure, hne, herror⟩
  · exact hloop (appendEnds_iff.mpr hok)
  · obtain ⟨front, logId, payload, rest, s₁, -, hfront, hrec⟩ := appendLoop_failed herror
    exact noObsoleteChunk_of_purged_eq hW hfails (hloop hfront) rfl (Or.inr ⟨failure, hne, hrec⟩)

/-- However a call ends, it leaves no obsolete chunk exactly if it drains what it makes
obsolete. -/
theorem noObsoleteChunk_ends_iff (hW : Lawful W) (hfails : FailsInPlace W) {op : Op T}
    {s s' : RaftLog W} (hs : NoObsoleteChunk s) (h : Ends op s s') :
    NoObsoleteChunk s' ↔ ObsoleteDrained s op := by
  by_cases hsingle : op.IsSingle
  · rcases ends_single hsingle h with ⟨rfl, hnone⟩ | ⟨rec, hwrites, hrecord⟩
    · exact iff_of_true hs (obsoleteDrained_of_not_writes hnone)
    · have hsame (hpurged : (s.logState.update rec).purged = s.logState.purged)
          (hfinish : ∀ s₁ : RaftLog W, op.finish s₁ = s₁) : NoObsoleteChunk s' := by
        refine noObsoleteChunk_of_purged_eq hW hfails hs hpurged (hrecord.imp_left ?_)
        rintro ⟨segment, s₁, hrec, rfl⟩
        exact ⟨segment, (hfinish s₁).symm ▸ hrec⟩
      cases op with
      | purge upto => exact noObsoleteChunk_purge_iff hW hfails hs hwrites hrecord
      | updateState state =>
          refine noObsoleteChunk_updateState_iff hW hfails hs hwrites (hrecord.imp_left ?_)
          rintro ⟨segment, s₁, hrec, rfl⟩
          exact ⟨segment, hrec⟩
      | truncate index =>
          obtain ⟨keep, -, rfl⟩ := hwrites
          exact iff_of_true (hsame (by simp [RaftLogState.update]) fun _ => rfl) trivial
      | append entries => exact hsingle.elim
      | flush sync callback => exact hsingle.elim
      | _ =>
          obtain rfl := hwrites
          exact iff_of_true (hsame rfl fun _ => rfl) trivial
  · cases op with
    | append entries => exact iff_of_true (noObsoleteChunk_append hW hfails hs h) trivial
    | flush sync callback => exact iff_of_true (noObsoleteChunk_flush hW hfails hs h) trivial
    | _ => exact absurd trivial hsingle

/-! ## Every run -/

/-- From the opening of any directory on, and however often the WAL fails: as long as each call
drains what it makes obsolete, no obsolete chunk is left behind.  There the next call leaves none
exactly if it does as well. -/
theorem no_obsolete_chunk (hW : Lawful W) (hfails : FailsInPlace W) {s : RaftLog W}
    (h : Reachable OpenedStore (FallibleStep ObsoleteDrained) s) :
    NoObsoleteChunk s ∧ ∀ op s', Ends op s s' → (NoObsoleteChunk s' ↔ ObsoleteDrained s op) := by
  have hs : NoObsoleteChunk s := by
    refine Reachable.invariant (I := NoObsoleteChunk) ?_ ?_ h
    · rintro s ⟨config, disk, hopen⟩
      exact noObsoleteChunk_openLog hW hopen
    · intro s e s' hs hstep
      cases hstep with
      | call hop hends => exact (noObsoleteChunk_ends_iff hW hfails hs hends).mpr hop
      | drainCache hdrain =>
          obtain ⟨cache, -, rfl⟩ := drainCacheEvictable_ok hdrain
          exact hs
      | persisted checkpoint => exact hs
  exact ⟨hs, fun op s' => noObsoleteChunk_ends_iff hW hfails hs⟩

/-- A snapshot is installed over two chunks, in a call that fills no chunk. -/
def restoredSnapshot : List (Event (memoryWal (exampleTypes true))) :=
  [.call (.append [(⟨1, 0⟩, 5), (⟨1, 1⟩, 6), (⟨1, 2⟩, 7)]), .call (.truncate 0),
    .call (.updateState ⟨none, some ⟨2, 9⟩, some ⟨2, 9⟩, some ⟨2, 9⟩, none⟩)]

def restoredSystem : System (memoryWal (exampleTypes true)) :=
  (System.simulate AnyCall (chunksOfSize true 4) restoredSnapshot).get (by decide +kernel)

/-- A store on a disk with room for six records, in chunks of three. -/
def sixRecords : RaftLog (boundedWal (exampleTypes true) 6) :=
  (RaftLog.openLog ⟨(3 : ℕ), ⟨none, none⟩⟩ []).toOption.get (by decide)

theorem opened_sixRecords : OpenedStore sixRecords := ⟨_, _, Except.eq_ok_get _⟩

/-- Appends that fill the first chunk, and a purge that fills the second one.  There is no room for
the checkpoint of a third. -/
def purgeOnFullDisk (upto : TermIndex) : List (Op (exampleTypes true)) :=
  [.append [(⟨1, 0⟩, 5), (⟨1, 1⟩, 6), (⟨1, 2⟩, 7)], .purge upto]

/-- The first chunk is purged whole, by a call that fails. -/
def undrained : RaftLog (boundedWal (exampleTypes true) 6) :=
  (callAll AnyCall (purgeOnFullDisk ⟨1, 1⟩) sixRecords).get (by decide +kernel)

def nextFlush : Op (exampleTypes true) := .flush true none

/-- An `update_state` that returns leaves an obsolete chunk behind; and so does a `flush` that
returns after a purge that has failed. -/
theorem no_obsolete_chunk_restoredSystem :
    (System.Reachable AnyCall restoredSystem ∧ ¬ NoObsoleteChunk restoredSystem.store) ∧
      Reachable OpenedStore (FallibleStep AnyCall) undrained ∧
        ∃ s', nextFlush.exec.run undrained = .ok () s' ∧ ¬ NoObsoleteChunk s' := by
  have hrun : Run (FallibleStep AnyCall) sixRecords
      ((purgeOnFullDisk ⟨1, 1⟩).map Event.call) undrained := run_of_callAll (Option.some_get _).symm
  have hflush : nextFlush.returnsOn undrained = true := by decide +kernel
  exact ⟨⟨System.reachable_get _, by decide +kernel⟩, ⟨_, _, opened_sixRecords, hrun⟩,
    _, run_of_returnsOn hflush, by decide +kernel⟩

/-- The first chunk is purged in part. -/
def fullDisk : RaftLog (boundedWal (exampleTypes true) 6) :=
  (callAll ObsoleteDrained (purgeOnFullDisk ⟨1, 0⟩) sixRecords).get (by decide +kernel)

/-- There is no room for its record either. -/
def laterPurge : Op (exampleTypes true) := .purge ⟨1, 1⟩

theorem no_obsolete_chunk_fullDisk :
    fullDisk.logState.purged = some ⟨1, 0⟩ ∧ NoObsoleteChunk fullDisk ∧
      ∀ s', Ends laterPurge fullDisk s' → NoObsoleteChunk s' := by
  have hrun : Run (FallibleStep ObsoleteDrained) sixRecords
      ((purgeOnFullDisk ⟨1, 0⟩).map Event.call) fullDisk := run_of_callAll (Option.some_get _).symm
  obtain ⟨hnone, hnext⟩ := no_obsolete_chunk (boundedWal_lawful _ 6) (boundedWal_failsInPlace _ 6)
    ⟨_, _, opened_sixRecords, hrun⟩
  have hpurge : ObsoleteDrained fullDisk laterPurge := by decide +kernel
  exact ⟨by decide +kernel, hnone, fun s' hends => (hnext laterPurge s' hends).mpr hpurge⟩

end RaftLogStore
