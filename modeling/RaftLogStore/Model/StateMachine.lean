import RaftLogStore.Lib.StateExcept
import RaftLogStore.Model.PayloadCache
import RaftLogStore.Model.RaftLogState

/-!
# The state machine of the WAL

`RaftLogStateMachine` is what the WAL records are applied to, by a live write and by the
replay in `open` alike: the log map from index to log data, the payload cache, and the log
state.  `apply` changes the map and the cache first and the log state last.

The three components do not read each other, so `apply` is the product of one function on
each: `logAfter`, `cacheAfter` and `RaftLogState.apply` (`apply_eq_ok`).
-/

namespace RaftLogStore

variable {T : Types}

/-- The two cache limits of `Config`; the rest of it belongs to the WAL. -/
structure CacheConfig where
  logCacheMaxItems : Option ℕ
  logCacheCapacity : Option ℕ

namespace CacheConfig

/-- The maximum number of items in log cache (defaults to 100,000). -/
def maxItems (config : CacheConfig) : ℕ := config.logCacheMaxItems.getD 100000

/-- The maximum capacity of log cache in bytes (defaults to 1GB). -/
def capacity (config : CacheConfig) : ℕ := config.logCacheCapacity.getD (1024 * 1024 * 1024)

end CacheConfig

structure RaftLogStateMachine (T : Types) where
  log : OrderedMap ℕ (LogData T)
  payloadCache : PayloadCache T
  logState : RaftLogState T

/-- A method of the state machine. -/
abbrev StateMachineM (T : Types) := EStateM (Failure T) (RaftLogStateMachine T)

namespace RaftLogStateMachine

def new (config : CacheConfig) : RaftLogStateMachine T :=
  ⟨∅, PayloadCache.new config.maxItems config.capacity, RaftLogState.default⟩

/-- Verify that `rec` can be applied, without changing anything. -/
def check (sm : RaftLogStateMachine T) (rec : RaftLogRecord T) : Except (Failure T) Unit :=
  sm.logState.check rec

/-- Verify that `state` describes the log entries this store actually holds. -/
def checkCheckpoint (sm : RaftLogStateMachine T) (state : RaftLogState T) :
    Except (Failure T) Unit :=
  match sm.log.firstKeyValue with
  | none => .ok ()
  | some (_, first) => do
      let (_, last) ← unwrap sm.log.lastKeyValue
      let purged := state.purged
      let firstIndex := T.logIndex first.logId
      let indexAfterPurged ← T.nextLogIndex purged
      let startsAtRightIndex := firstIndex = indexAfterPurged
      let startsAbovePurged := some first.logId > purged
      let endsAtLast := some last.logId = state.last
      if startsAtRightIndex ∧ startsAbovePurged ∧ endsAtLast then .ok ()
      else .error (.state
        (.checkpointLogMismatch first.logId last.logId state.purged state.last))

def checkpoint (sm : RaftLogStateMachine T) : RaftLogState T := sm.logState

/-- Run a method of the payload cache. -/
def updateCache (method : PayloadCache T → Except (Failure T) (PayloadCache T)) :
    StateMachineM T Unit := do
  let sm ← get
  let cache ← EStateM.ofExcept (method sm.payloadCache)
  set { sm with payloadCache := cache }

def apply (rec : RaftLogRecord T) (chunkId : ChunkId) (segment : Segment) :
    StateMachineM T Unit := do
  match rec with
  | .action (.saveVote _vote) => pure ()
  | .action (.append logId payload) => do
      modify fun sm =>
        { sm with log := sm.log.insert (T.logIndex logId) ⟨logId, chunkId, segment⟩ }
      updateCache fun c => c.insert logId payload
  | .action (.commit _committed) => pure ()
  | .action (.truncateAfter logId) => do
      let index ← EStateM.ofExcept (T.nextLogIndex logId)
      -- `split_off` keeps what is below the index and the result is dropped
      modify fun sm => { sm with log := (sm.log.splitOff index).1 }
      match logId with
      | some logId => updateCache fun c => c.truncateAfter logId
      | none => updateCache fun c => .ok c.clear
  | .action (.purgeUpto logId) => do
      let index ← EStateM.ofExcept (T.nextLogIndex (some logId))
      -- here the result of `split_off` becomes the log
      modify fun sm => { sm with log := (sm.log.splitOff index).2 }
      updateCache fun c => c.purgeUpto logId
  | .checkpoint _st => pure ()
  let sm ← get
  let logState ← EStateM.ofExcept (sm.logState.apply rec)
  set { sm with logState := logState }

/-- The closure `on_chunk_persisted` of `RaftLog::open`: what the worker does to the shared
cache when a chunk is persisted, given the checkpoint at the end of the chunk before. -/
def onChunkPersisted (prevChunkCheckpoint : Option (RaftLogState T)) (c : PayloadCache T) :
    PayloadCache T :=
  match prevChunkCheckpoint with
  | none => c
  | some state => c.setLastEvictable state.last

/-! ## One component at a time -/

/-- What a record does to the log map. -/
def logAfter (rec : RaftLogRecord T) (chunkId : ChunkId) (segment : Segment)
    (log : OrderedMap ℕ (LogData T)) : Except (Failure T) (OrderedMap ℕ (LogData T)) :=
  match rec with
  | .action (.append logId _) => .ok (log.insert (T.logIndex logId) ⟨logId, chunkId, segment⟩)
  | .action (.truncateAfter logId) =>
      (T.nextLogIndex logId).map fun index => (log.splitOff index).1
  | .action (.purgeUpto logId) =>
      (T.nextLogIndex (some logId)).map fun index => (log.splitOff index).2
  | .action (.saveVote _) => .ok log
  | .action (.commit _) => .ok log
  | .checkpoint _ => .ok log

/-- What a record does to the payload cache. -/
def cacheAfter (rec : RaftLogRecord T) (c : PayloadCache T) :
    Except (Failure T) (PayloadCache T) :=
  match rec with
  | .action (.append logId payload) => c.insert logId payload
  | .action (.truncateAfter (some logId)) => c.truncateAfter logId
  | .action (.truncateAfter none) => .ok c.clear
  | .action (.purgeUpto logId) => c.purgeUpto logId
  | .action (.saveVote _) => .ok c
  | .action (.commit _) => .ok c
  | .checkpoint _ => .ok c

@[simp] theorem run_updateCache (method : PayloadCache T → Except (Failure T) (PayloadCache T))
    (sm : RaftLogStateMachine T) :
    (updateCache method).run sm =
      match method sm.payloadCache with
      | .ok c => .ok () { sm with payloadCache := c }
      | .error failure => .error failure sm := by
  simp only [updateCache, EStateM.run_bind, EStateM.run_get]
  cases method sm.payloadCache <;> rfl

/-- `apply` is one step of each component, and stops at the first that fails. -/
theorem run_apply (rec : RaftLogRecord T) (chunkId : ChunkId) (segment : Segment)
    (sm : RaftLogStateMachine T) :
    (apply rec chunkId segment).run sm =
      match logAfter rec chunkId segment sm.log with
      | .error failure => .error failure sm
      | .ok log =>
          match cacheAfter rec sm.payloadCache with
          | .error failure => .error failure { sm with log := log }
          | .ok c =>
              match sm.logState.apply rec with
              | .error failure => .error failure { sm with log := log, payloadCache := c }
              | .ok st => .ok () ⟨log, c, st⟩ := by
  rcases rec with ⟨vote | ⟨logId, payload⟩ | logId | logId | logId⟩ | st
  · cases hst : sm.logState.apply (.action (.saveVote vote)) <;>
      simp [apply, logAfter, cacheAfter, hst]
  · cases hc : sm.payloadCache.insert logId payload with
    | error failure => simp [apply, logAfter, cacheAfter, hc]
    | ok c =>
        cases hst : sm.logState.apply (.action (.append logId payload)) <;>
          simp [apply, logAfter, cacheAfter, hc, hst]
  · cases hst : sm.logState.apply (.action (.commit logId)) <;>
      simp [apply, logAfter, cacheAfter, hst]
  · cases hnext : T.nextLogIndex logId with
    | error failure => cases logId <;> simp [apply, logAfter, hnext, Except.map]
    | ok index =>
        cases logId with
        | none =>
            cases hst : sm.logState.apply (.action (.truncateAfter none)) <;>
              simp [apply, logAfter, cacheAfter, hnext, hst, Except.map]
        | some logId =>
            cases hc : sm.payloadCache.truncateAfter logId with
            | error failure => simp [apply, logAfter, cacheAfter, hnext, hc, Except.map]
            | ok c =>
                cases hst : sm.logState.apply (.action (.truncateAfter (some logId))) <;>
                  simp [apply, logAfter, cacheAfter, hnext, hc, hst, Except.map]
  · cases hnext : T.nextLogIndex (some logId) with
    | error failure => simp [apply, logAfter, hnext, Except.map]
    | ok index =>
        cases hc : sm.payloadCache.purgeUpto logId with
        | error failure => simp [apply, logAfter, cacheAfter, hnext, hc, Except.map]
        | ok c =>
            cases hst : sm.logState.apply (.action (.purgeUpto logId)) <;>
              simp [apply, logAfter, cacheAfter, hnext, hc, hst, Except.map]
  · cases hst : sm.logState.apply (.checkpoint st) <;>
      simp [apply, logAfter, cacheAfter, hst]

/-- An applied record has passed the check of the log state, and each component has taken
its own step. -/
theorem apply_eq_ok {rec : RaftLogRecord T} {chunkId : ChunkId} {segment : Segment}
    {sm sm' : RaftLogStateMachine T} :
    (apply rec chunkId segment).run sm = .ok () sm' ↔
      logAfter rec chunkId segment sm.log = .ok sm'.log ∧
        cacheAfter rec sm.payloadCache = .ok sm'.payloadCache ∧
        sm.logState.check rec = .ok () ∧ sm'.logState = sm.logState.update rec := by
  obtain ⟨log', c', st'⟩ := sm'
  rw [run_apply, ← RaftLogState.apply_eq_ok_iff]
  cases logAfter rec chunkId segment sm.log with
  | error failure => simp
  | ok log =>
      cases cacheAfter rec sm.payloadCache with
      | error failure => simp
      | ok c => cases sm.logState.apply rec <;> simp

/-- A record that is not applied fails in one of the components. -/
theorem apply_eq_error {rec : RaftLogRecord T} {chunkId : ChunkId} {segment : Segment}
    {sm sm' : RaftLogStateMachine T} {failure : Failure T}
    (h : (apply rec chunkId segment).run sm = .error failure sm') :
    logAfter rec chunkId segment sm.log = .error failure ∨
      cacheAfter rec sm.payloadCache = .error failure ∨
      sm.logState.check rec = .error failure := by
  rw [run_apply] at h
  rw [← RaftLogState.apply_eq_error_iff]
  cases hlog : logAfter rec chunkId segment sm.log with
  | error failure' => simp_all
  | ok log =>
      cases hcache : cacheAfter rec sm.payloadCache with
      | error failure' => simp_all
      | ok c => cases hst : sm.logState.apply rec <;> simp_all

/-- An entry of the log map was there before, or is the one just appended. -/
theorem get_logAfter {rec : RaftLogRecord T} {chunkId : ChunkId} {segment : Segment}
    {log log' : OrderedMap ℕ (LogData T)} (h : logAfter rec chunkId segment log = .ok log')
    {k : ℕ} {d : LogData T} (hget : log'.get k = some d) :
    log.get k = some d ∨
      ∃ payload, rec = .action (.append d.logId payload) ∧ k = T.logIndex d.logId ∧
        d.chunkId = chunkId ∧ d.recordSegment = segment := by
  rcases rec with ⟨vote | ⟨logId, payload⟩ | logId | logId | logId⟩ | st
  · exact Or.inl (Except.ok.inj h ▸ hget)
  · have hlog' := Except.ok.inj h
    rw [← hlog', OrderedMap.get_insert] at hget
    split_ifs at hget with hk
    · have hd := Option.some.inj hget
      subst hd
      exact Or.inr ⟨payload, rfl, hk, rfl, rfl⟩
    · exact Or.inl hget
  · exact Or.inl (Except.ok.inj h ▸ hget)
  · obtain ⟨index, -, hlog'⟩ := Except.map_eq_ok.mp h
    rw [← hlog'] at hget
    exact Or.inl (OrderedMap.get_filter_eq_some_iff.mp hget).1
  · obtain ⟨index, -, hlog'⟩ := Except.map_eq_ok.mp h
    rw [← hlog'] at hget
    exact Or.inl (OrderedMap.get_filter_eq_some_iff.mp hget).1
  · exact Or.inl (Except.ok.inj h ▸ hget)

/-- Restricting the log map commutes with a record, as long as what the record adds
satisfies the restriction. -/
theorem logAfter_filter {rec : RaftLogRecord T} {chunkId : ChunkId} {segment : Segment}
    {log log' : OrderedMap ℕ (LogData T)} {p : ℕ × LogData T → Bool}
    (h : logAfter rec chunkId segment log = .ok log')
    (hp : ∀ logId, p (T.logIndex logId, ⟨logId, chunkId, segment⟩) = true) :
    logAfter rec chunkId segment (log.filter p) = .ok (log'.filter p) := by
  rcases rec with ⟨vote | ⟨logId, payload⟩ | logId | logId | logId⟩ | st
  · exact congrArg (fun m => Except.ok (OrderedMap.filter m p)) (Except.ok.inj h)
  · rw [← Except.ok.inj h]
    simp only [logAfter, OrderedMap.filter_insert_of_pos _ (hp logId)]
  · exact congrArg (fun m => Except.ok (OrderedMap.filter m p)) (Except.ok.inj h)
  · obtain ⟨index, hindex, rfl⟩ := Except.map_eq_ok.mp h
    simp only [logAfter, hindex, Except.map, OrderedMap.splitOff, OrderedMap.filter_filter_comm]
  · obtain ⟨index, hindex, rfl⟩ := Except.map_eq_ok.mp h
    simp only [logAfter, hindex, Except.map, OrderedMap.splitOff, OrderedMap.filter_filter_comm]
  · exact congrArg (fun m => Except.ok (OrderedMap.filter m p)) (Except.ok.inj h)

theorem logAfter_onlyPanics (rec : RaftLogRecord T) (chunkId : ChunkId) (segment : Segment)
    (log : OrderedMap ℕ (LogData T)) : OnlyPanics (logAfter rec chunkId segment log) := by
  intro failure h
  have hmap {logId : Option T.LogId} {f : ℕ → OrderedMap ℕ (LogData T)}
      (h : (T.nextLogIndex logId).map f = .error failure) : failure = .panic := by
    cases hnext : T.nextLogIndex logId with
    | ok index => simp [hnext, Except.map] at h
    | error failure' =>
        simp only [hnext, Except.map, Except.error.injEq] at h
        exact h ▸ Types.nextLogIndex_onlyPanics logId _ hnext
  rcases rec with ⟨vote | ⟨logId, payload⟩ | logId | logId | logId⟩ | st
  · exact absurd h (by simp [logAfter])
  · exact absurd h (by simp [logAfter])
  · exact absurd h (by simp [logAfter])
  · exact hmap h
  · exact hmap h
  · exact absurd h (by simp [logAfter])

theorem cacheAfter_onlyPanics (rec : RaftLogRecord T) (c : PayloadCache T) :
    OnlyPanics (cacheAfter rec c) := by
  rcases rec with ⟨vote | ⟨logId, payload⟩ | logId | (- | logId) | logId⟩ | st
  · exact OnlyPanics.ok c
  · exact PayloadCache.insert_onlyPanics c logId payload
  · exact OnlyPanics.ok c
  · exact OnlyPanics.ok c.clear
  · exact PayloadCache.truncateAfterLoop_onlyPanics logId _ c
  · exact PayloadCache.purgeUptoLoop_onlyPanics logId _ c
  · exact OnlyPanics.ok c

/-- After an accepted check, `apply` does not fail but by a panic. -/
theorem apply_eq_error_of_check {rec : RaftLogRecord T} {chunkId : ChunkId} {segment : Segment}
    {sm sm' : RaftLogStateMachine T} {failure : Failure T} (hcheck : sm.check rec = .ok ())
    (h : (apply rec chunkId segment).run sm = .error failure sm') : failure = .panic := by
  rcases apply_eq_error h with hlog | hcache | hstate
  · exact logAfter_onlyPanics _ _ _ _ _ hlog
  · exact cacheAfter_onlyPanics _ _ _ hcache
  · rw [check, hstate] at hcheck
    exact absurd hcheck (by simp)

end RaftLogStateMachine

end RaftLogStore
