import RaftLogStore.Lib.OptionOrder
import RaftLogStore.Lib.StateExcept

/-!
# The type parameters, machine arithmetic, records and errors

`Types` is the trait the whole store is generic over.  A `Types` here also says how the
code instantiated with it is compiled: `overflowChecks` and `debugAssertions` are the settings of
the build under these names, on in a debug build and off in a release build.  Every `+` and
`-` on a machine integer goes through `addU64`, `addUsize` or `subUsize`, which panic or wrap
accordingly.  A `usize` has 64 bits.
-/

namespace RaftLogStore

/-- `u64::MAX`, and `usize::MAX` on a 64-bit target. -/
def u64Max : ℕ := 2 ^ 64 - 1

/-- The type parameters of a raft log, and the arithmetic of its build. -/
structure Types where
  LogId : Type
  LogPayload : Type
  Vote : Type
  Callback : Type
  UserData : Type
  [logIdOrder : LinearOrder LogId]
  /-- `Vote: PartialOrd + Eq`, taken to be a partial order. -/
  [voteOrder : PartialOrder Vote]
  [voteLe : DecidableLE Vote]
  [voteEq : DecidableEq Vote]
  [userDataEq : DecidableEq UserData]
  /-- The log index of a log id, a `u64`. -/
  logIndex : LogId → ℕ
  logIndex_le : ∀ logId, logIndex logId ≤ u64Max
  /-- The size a payload is counted with in the cache, a `u64`. -/
  payloadSize : LogPayload → ℕ
  payloadSize_le : ∀ payload, payloadSize payload ≤ u64Max
  overflowChecks : Bool
  debugAssertions : Bool

attribute [instance] Types.logIdOrder Types.voteOrder Types.voteLe Types.voteEq
  Types.userDataEq

/-- The global byte offset of a chunk, which names its file. -/
abbrev ChunkId := ℕ

/-- The place of one record in the WAL. -/
structure Segment where
  offset : ℕ
  size : ℕ
  deriving DecidableEq, Repr

/-- An error of the WAL itself: a file or a channel to the worker. -/
inductive IoError where
  | other (message : String)
  deriving DecidableEq, Repr

variable (T : Types)

/-- Why the store rejects an operation. -/
inductive RaftLogStateError where
  | voteReversal (current attempted : T.Vote)
  | logIdReversal (current attempted : T.LogId) (when : String)
  | logIdNonConsecutive (last : Option T.LogId) (attempted : T.LogId)
  | commitBeyondLast (last : Option T.LogId) (attempted : T.LogId)
  | truncateCommitted (committed : T.LogId) (keepUpto : Option T.LogId)
  | checkpointLogMismatch (first last : T.LogId) (purged declaredLast : Option T.LogId)
  | logIndexNotFound (index : ℕ)
  deriving DecidableEq

/-- The ways a method does not return a value: a rejection, an error of the WAL, or a panic. -/
inductive Failure where
  | state (error : RaftLogStateError T)
  | io (error : IoError)
  | panic
  deriving DecidableEq

variable {T}

/-- A computation that does not fail, or panics. -/
def OnlyPanics {α : Type} (x : Except (Failure T) α) : Prop :=
  ∀ failure, x = .error failure → failure = .panic

theorem OnlyPanics.ok {α : Type} (a : α) : OnlyPanics (.ok a : Except (Failure T) α) :=
  fun _ h => absurd h (by simp)

theorem OnlyPanics.bind {α β : Type} {x : Except (Failure T) α} {f : α → Except (Failure T) β}
    (hx : OnlyPanics x) (hf : ∀ a, OnlyPanics (f a)) : OnlyPanics (x >>= f) := by
  intro failure h
  rcases Except.bind_eq_error.mp h with hfail | ⟨a, -, hfail⟩
  · exact hx failure hfail
  · exact hf a failure hfail

/-- `Option::unwrap`. -/
def unwrap {α : Type} : Option α → Except (Failure T) α
  | some a => .ok a
  | none => .error .panic

namespace Types

/-- A sum of two 64-bit values in a build with or without overflow checks. -/
def addU64 (T : Types) (a b : ℕ) : Except (Failure T) ℕ :=
  if a + b ≤ u64Max then .ok (a + b)
  else if T.overflowChecks then .error .panic
  else .ok ((a + b) % 2 ^ 64)

/-- `usize` addition, on a 64-bit target. -/
def addUsize (T : Types) (a b : ℕ) : Except (Failure T) ℕ := T.addU64 a b

/-- `usize` subtraction, on a 64-bit target. -/
def subUsize (T : Types) (a b : ℕ) : Except (Failure T) ℕ :=
  if b ≤ a then .ok (a - b)
  else if T.overflowChecks then .error .panic
  else .ok ((a + 2 ^ 64 - b) % 2 ^ 64)

/-- The index after a log id: `0` after no log id at all. -/
def nextLogIndex (T : Types) : Option T.LogId → Except (Failure T) ℕ
  | some logId => T.addU64 (T.logIndex logId) 1
  | none => .ok 0

/-- The index after a log id as a number that has no greatest value. -/
def indexAfter (T : Types) : Option T.LogId → ℕ
  | some logId => T.logIndex logId + 1
  | none => 0

/-- `next_log_index` of `logId` does not wrap: the build checks for overflow, and so panics
instead, or the index is below `u64::MAX`. -/
def NoWrap (T : Types) (logId : Option T.LogId) : Prop :=
  T.overflowChecks = true ∨ ∀ l ∈ logId, T.logIndex l < u64Max

instance (T : Types) (logId : Option T.LogId) : Decidable (T.NoWrap logId) := by
  unfold NoWrap
  infer_instance

@[simp] theorem nextLogIndex_none (T : Types) : T.nextLogIndex none = .ok 0 := rfl

theorem nextLogIndex_of_lt {T : Types} {logId : T.LogId} (h : T.logIndex logId < u64Max) :
    T.nextLogIndex (some logId) = .ok (T.logIndex logId + 1) := by
  simp only [nextLogIndex, addU64]
  exact if_pos h

/-- Where `next_log_index` returns and does not wrap, it is the index after. -/
theorem nextLogIndex_eq_ok {T : Types} {logId : Option T.LogId} {index : ℕ}
    (h : T.nextLogIndex logId = .ok index) (hwrap : T.NoWrap logId) :
    index = T.indexAfter logId := by
  cases logId with
  | none => exact (Except.ok.inj h).symm
  | some logId =>
      rcases Nat.lt_or_ge (T.logIndex logId) u64Max with hlt | hge
      · rw [nextLogIndex_of_lt hlt] at h
        exact (Except.ok.inj h).symm
      · rcases hwrap with hchecks | hmax
        · simp only [nextLogIndex, addU64, hchecks] at h
          rw [if_neg (by omega)] at h
          simp at h
        · exact absurd (hmax logId rfl) (not_lt.mpr hge)

/-- A wrapped index is lower than the index after. -/
theorem nextLogIndex_le {T : Types} {logId : Option T.LogId} {index : ℕ}
    (h : T.nextLogIndex logId = .ok index) : index ≤ T.indexAfter logId := by
  cases logId with
  | none => exact (Except.ok.inj h).ge
  | some logId =>
      simp only [nextLogIndex, addU64] at h
      simp only [indexAfter]
      split_ifs at h with hle
      · exact (Except.ok.inj h).ge
      · rw [← Except.ok.inj h]
        exact Nat.mod_le _ _

/-- The index after `logId` is a `u64`. -/
def HasNext (T : Types) (logId : Option T.LogId) : Prop := T.indexAfter logId ≤ u64Max

instance (T : Types) (logId : Option T.LogId) : Decidable (T.HasNext logId) :=
  inferInstanceAs (Decidable (_ ≤ _))

theorem HasNext.nextLogIndex {T : Types} {logId : Option T.LogId} (h : T.HasNext logId) :
    T.nextLogIndex logId = .ok (T.indexAfter logId) := by
  cases logId with
  | none => rfl
  | some logId => exact nextLogIndex_of_lt h

/-- `next_log_index` returns unless the index is the last of all and the build checks for
overflow. -/
theorem nextLogIndex_isOk_iff {T : Types} {logId : Option T.LogId} :
    (∃ index, T.nextLogIndex logId = .ok index) ↔
      (T.overflowChecks = true → T.HasNext logId) := by
  cases logId with
  | none => simp [HasNext, indexAfter]
  | some logId =>
      simp only [nextLogIndex, addU64, HasNext, indexAfter]
      split_ifs with hle hchecks
      · exact iff_of_true ⟨_, rfl⟩ fun _ => hle
      · simp [hchecks, hle]
      · simp [hchecks]

/-- Without overflow checks the index after the last index of all is `0`. -/
theorem nextLogIndex_of_not_hasNext {T : Types} {logId : Option T.LogId}
    (hchecks : T.overflowChecks = false) (h : ¬ T.HasNext logId) :
    T.nextLogIndex logId = .ok 0 := by
  cases logId with
  | none => simp [HasNext, indexAfter] at h
  | some logId =>
      have hindex : T.logIndex logId = u64Max := by
        have hle := T.logIndex_le logId
        simp only [HasNext, indexAfter] at h
        omega
      simp [nextLogIndex, addU64, hindex, hchecks, u64Max]

theorem addU64_onlyPanics {T : Types} (a b : ℕ) : OnlyPanics (T.addU64 a b) := by
  intro failure h
  simp only [addU64] at h
  split_ifs at h
  exact (Except.error.inj h).symm

theorem subUsize_onlyPanics {T : Types} (a b : ℕ) : OnlyPanics (T.subUsize a b) := by
  intro failure h
  simp only [subUsize] at h
  split_ifs at h
  exact (Except.error.inj h).symm

theorem nextLogIndex_onlyPanics {T : Types} (logId : Option T.LogId) :
    OnlyPanics (T.nextLogIndex logId) := by
  cases logId with
  | none => exact OnlyPanics.ok 0
  | some logId => exact addU64_onlyPanics _ _

end Types

/-! ## Records -/

/-- Raft log commands stored in the WAL. -/
inductive RaftLogAction (T : Types) where
  | saveVote (vote : T.Vote)
  | append (logId : T.LogId) (payload : T.LogPayload)
  | commit (logId : T.LogId)
  | truncateAfter (logId : Option T.LogId)
  | purgeUpto (logId : T.LogId)

/-- The state of a raft log apart from its entries. -/
@[ext] structure RaftLogState (T : Types) where
  vote : Option T.Vote
  last : Option T.LogId
  committed : Option T.LogId
  purged : Option T.LogId
  userData : Option T.UserData
  deriving DecidableEq

/-- A WAL record: an action, or a checkpoint of the whole state. -/
inductive WALRecord (T : Types) where
  | action (action : RaftLogAction T)
  | checkpoint (state : RaftLogState T)

/-- The concrete WAL record used by `RaftLog`. -/
abbrev RaftLogRecord (T : Types) := WALRecord T

/-- Where an entry's record is, kept in the log map under the entry's index. -/
structure LogData (T : Types) where
  logId : T.LogId
  chunkId : ChunkId
  recordSegment : Segment
  deriving DecidableEq

end RaftLogStore
