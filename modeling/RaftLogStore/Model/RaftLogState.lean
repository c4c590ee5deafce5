import RaftLogStore.Model.Types

/-!
# The raft log state: check, then apply

`check` decides whether a record can be applied; `apply` runs the same check and then changes
one field, or for a checkpoint all of them.

The second half says what an accepted record does, one statement for the whole state:
`apply_eq_ok` is the inversion rule every later proof goes through.
-/

namespace RaftLogStore

variable {T : Types}

namespace RaftLogState

/-- `RaftLogState::default()`. -/
def default : RaftLogState T := ⟨none, none, none, none, none⟩

def checkVote (st : RaftLogState T) (vote : T.Vote) : Except (Failure T) Unit :=
  if some vote ≥ st.vote then .ok ()
  else do
    let current ← unwrap st.vote
    .error (.state (.voteReversal current vote))

def checkAppend (st : RaftLogState T) (logId : T.LogId) : Except (Failure T) Unit :=
  if some logId ≤ st.last then do
    let current ← unwrap st.last
    .error (.state (.logIdReversal current logId "append"))
  -- the first log id may have any index: restoring a log starts above zero
  else if st.last.isNone then .ok ()
  else do
    let expected ← T.nextLogIndex st.last
    let thisIndex := T.logIndex logId
    if expected ≠ thisIndex then .error (.state (.logIdNonConsecutive st.last logId))
    else .ok ()

def checkCommit (st : RaftLogState T) (logId : T.LogId) : Except (Failure T) Unit :=
  if some logId < st.committed then do
    let current ← unwrap st.committed
    .error (.state (.logIdReversal current logId "commit"))
  else if some logId > st.last then .error (.state (.commitBeyondLast st.last logId))
  else .ok ()

/-- `keepUpto` is the last entry the truncation keeps, so `none` means it keeps nothing. -/
def checkTruncate (st : RaftLogState T) (keepUpto : Option T.LogId) : Except (Failure T) Unit :=
  if keepUpto ≥ st.committed then .ok ()
  else do
    let committed ← unwrap st.committed
    .error (.state (.truncateCommitted committed keepUpto))

/-- Verify that `rec` can be applied to this state. -/
def check (st : RaftLogState T) : RaftLogRecord T → Except (Failure T) Unit
  | .action (.saveVote vote) => st.checkVote vote
  | .action (.append logId _) => st.checkAppend logId
  | .action (.commit logId) => st.checkCommit logId
  | .action (.truncateAfter logId) => st.checkTruncate logId
  | .action (.purgeUpto _) => .ok ()
  | .checkpoint _ => .ok ()

def truncateAfter (st : RaftLogState T) (logId : Option T.LogId) : RaftLogState T :=
  if st.last > logId then { st with last := logId } else st

def purge (st : RaftLogState T) (logId : T.LogId) : RaftLogState T :=
  let purged := some logId
  let st := if st.purged < purged then { st with purged := purged } else st
  if purged > st.last then { st with last := purged } else st

/-- What an accepted record does to the state. -/
def update (st : RaftLogState T) : RaftLogRecord T → RaftLogState T
  | .action (.saveVote vote) => { st with vote := some vote }
  | .action (.append logId _) => { st with last := some logId }
  | .action (.commit logId) => { st with committed := some logId }
  | .action (.truncateAfter logId) => st.truncateAfter logId
  | .action (.purgeUpto logId) => st.purge logId
  | .checkpoint state => state

def apply (st : RaftLogState T) (rec : RaftLogRecord T) : Except (Failure T) (RaftLogState T) := do
  st.check rec
  .ok (st.update rec)

/-! ## What the checks accept -/

theorem checkVote_eq_ok_iff {st : RaftLogState T} {vote : T.Vote} :
    st.checkVote vote = .ok () ↔ st.vote ≤ some vote := by
  unfold checkVote
  split_ifs with h
  · simpa using h
  · cases hv : st.vote with
    | none => simp [hv] at h
    | some v => simpa [unwrap, bind, Except.bind, hv] using h

/-- An append is accepted above `last`, right after it unless there is no `last` yet. -/
theorem checkAppend_eq_ok_iff {st : RaftLogState T} {logId : T.LogId} :
    st.checkAppend logId = .ok () ↔
      st.last < some logId ∧
        (st.last = none ∨ T.nextLogIndex st.last = .ok (T.logIndex logId)) := by
  unfold checkAppend
  split_ifs with hle hnone
  · cases hl : st.last with
    | none => simp [hl] at hle
    | some l =>
        simp only [hl, Option.some_le_some] at hle
        simp [unwrap, bind, Except.bind, hle]
  · rw [Option.isNone_iff_eq_none] at hnone
    simp [hnone]
  · rw [Option.isNone_iff_eq_none] at hnone
    simp only [hnone, false_or, lt_of_not_ge hle, true_and]
    cases hnext : T.nextLogIndex st.last with
    | error failure => simp [bind, Except.bind]
    | ok expected => by_cases heq : expected = T.logIndex logId <;> simp [bind, Except.bind, heq]

theorem checkCommit_eq_ok_iff {st : RaftLogState T} {logId : T.LogId} :
    st.checkCommit logId = .ok () ↔ st.committed ≤ some logId ∧ some logId ≤ st.last := by
  unfold checkCommit
  split_ifs with hlt hgt
  · cases hc : st.committed with
    | none => simp [hc] at hlt
    | some c =>
        simp only [hc, Option.some_lt_some] at hlt
        simp [unwrap, bind, Except.bind, hlt]
  · simp [hgt]
  · exact iff_of_true rfl ⟨not_lt.mp hlt, not_lt.mp hgt⟩

theorem checkTruncate_eq_ok_iff {st : RaftLogState T} {keepUpto : Option T.LogId} :
    st.checkTruncate keepUpto = .ok () ↔ st.committed ≤ keepUpto := by
  unfold checkTruncate
  split_ifs with h
  · simpa using h
  · cases hc : st.committed with
    | none => simp [hc] at h
    | some c => simpa [unwrap, bind, Except.bind, hc] using h

/-- A rejection that names a value which is there. -/
theorem unwrap_ne_panic {α : Type} {o : Option α} (ho : o ≠ none) (e : α → RaftLogStateError T) :
    (do
      let a ← unwrap o
      .error (.state (e a)) : Except (Failure T) Unit) ≠ .error .panic := by
  obtain ⟨a, rfl⟩ := Option.ne_none_iff_exists'.mp ho
  simp [unwrap, bind, Except.bind]

/-- No check panics, as long as the index after `last` is a `u64`: whatever a check unwraps is
above some other value, and so it is there. -/
theorem check_ne_panic {st : RaftLogState T} {rec : RaftLogRecord T}
    (hnext : ∀ logId payload, rec = .action (.append logId payload) → st.last < some logId →
      T.nextLogIndex st.last ≠ .error .panic) : st.check rec ≠ .error .panic := by
  rcases rec with ⟨vote | ⟨logId, payload⟩ | logId | keep | upto⟩ | state
  · simp only [check, checkVote]
    split_ifs with h
    · simp
    · refine unwrap_ne_panic (fun hvote => h ?_) _
      rw [hvote]
      exact Option.none_le
  · simp only [check, checkAppend]
    split_ifs with hle hnone
    · refine unwrap_ne_panic (fun hlast => ?_) _
      simp [hlast] at hle
    · simp
    · have hfit := hnext logId payload rfl (lt_of_not_ge hle)
      cases hindex : T.nextLogIndex st.last with
      | error failure =>
          rw [hindex] at hfit
          simpa [bind, Except.bind] using hfit
      | ok expected => by_cases heq : expected = T.logIndex logId <;> simp [bind, Except.bind, heq]
  · simp only [check, checkCommit]
    split_ifs with hlt hgt
    · refine unwrap_ne_panic (fun hcommitted => ?_) _
      simp [hcommitted] at hlt
    · simp
    · simp
  · simp only [check, checkTruncate]
    split_ifs with h
    · simp
    · refine unwrap_ne_panic (fun hcommitted => h ?_) _
      rw [hcommitted]
      exact Option.none_le
  · simp [check]
  · simp [check]

theorem apply_eq_ok_iff {st st' : RaftLogState T} {rec : RaftLogRecord T} :
    st.apply rec = .ok st' ↔ st.check rec = .ok () ∧ st' = st.update rec := by
  unfold apply
  cases h : st.check rec <;> simp [bind, Except.bind, eq_comm]

theorem apply_eq_error_iff {st : RaftLogState T} {rec : RaftLogRecord T} {failure : Failure T} :
    st.apply rec = .error failure ↔ st.check rec = .error failure := by
  unfold apply
  cases h : st.check rec <;> simp [bind, Except.bind]

/-! ## What the updates change -/

@[simp] theorem truncateAfter_vote (st : RaftLogState T) (logId : Option T.LogId) :
    (st.truncateAfter logId).vote = st.vote := by
  unfold truncateAfter
  split_ifs <;> rfl

@[simp] theorem truncateAfter_committed (st : RaftLogState T) (logId : Option T.LogId) :
    (st.truncateAfter logId).committed = st.committed := by
  unfold truncateAfter
  split_ifs <;> rfl

@[simp] theorem truncateAfter_purged (st : RaftLogState T) (logId : Option T.LogId) :
    (st.truncateAfter logId).purged = st.purged := by
  unfold truncateAfter
  split_ifs <;> rfl

/-- Truncation lowers `last` to the kept log id, and never raises it. -/
@[simp] theorem truncateAfter_last (st : RaftLogState T) (logId : Option T.LogId) :
    (st.truncateAfter logId).last = min st.last logId := by
  unfold truncateAfter
  split_ifs with h
  · exact (min_eq_right h.le).symm
  · exact (min_eq_left (not_lt.mp h)).symm

@[simp] theorem purge_vote (st : RaftLogState T) (logId : T.LogId) :
    (st.purge logId).vote = st.vote := by
  unfold purge
  dsimp only
  split_ifs <;> rfl

@[simp] theorem purge_committed (st : RaftLogState T) (logId : T.LogId) :
    (st.purge logId).committed = st.committed := by
  unfold purge
  dsimp only
  split_ifs <;> rfl

@[simp] theorem purge_purged (st : RaftLogState T) (logId : T.LogId) :
    (st.purge logId).purged = max st.purged (some logId) := by
  unfold purge
  dsimp only
  split_ifs with h h' h'
  · exact (max_eq_right h.le).symm
  · exact (max_eq_right h.le).symm
  · exact (max_eq_left (not_lt.mp h)).symm
  · exact (max_eq_left (not_lt.mp h)).symm

@[simp] theorem purge_last (st : RaftLogState T) (logId : T.LogId) :
    (st.purge logId).last = max st.last (some logId) := by
  unfold purge
  dsimp only
  split_ifs with h h' h'
  · exact (max_eq_right h'.le).symm
  · exact (max_eq_left (not_lt.mp h')).symm
  · exact (max_eq_right h'.le).symm
  · exact (max_eq_left (not_lt.mp h')).symm

/-- `committed` stays at or below `last`, as it is log ids that the checks compare. -/
theorem committed_le_update {st : RaftLogState T} {rec : RaftLogRecord T}
    (hle : st.committed ≤ st.last) (hcheck : st.check rec = .ok ())
    (hstate : ∀ st', rec = .checkpoint st' → st'.committed ≤ st'.last) :
    (st.update rec).committed ≤ (st.update rec).last := by
  rcases rec with ⟨vote | ⟨logId, payload⟩ | logId | keep | upto⟩ | st'
  · exact hle
  · exact hle.trans (checkAppend_eq_ok_iff.mp hcheck).1.le
  · exact (checkCommit_eq_ok_iff.mp hcheck).2
  · simp only [update, truncateAfter_committed, truncateAfter_last]
    exact le_min hle (checkTruncate_eq_ok_iff.mp hcheck)
  · simp only [update, purge_committed, purge_last]
    exact hle.trans (le_max_left _ _)
  · exact hstate st' rfl

end RaftLogState

end RaftLogStore
