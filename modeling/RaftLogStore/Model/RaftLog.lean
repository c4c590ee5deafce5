import RaftLogStore.Model.ChunkedWal

/-!
# The raft log

The methods of `RaftLog`, over any WAL.  A method takes `&mut self` and may fail, so it is a
stateful computation that keeps the changes made before a failure.

`Op` names the calls that write, and `exec` runs one.  `Completes` says that a call ended
with a value or with a rejection, which is when the caller can go on using the store.
-/

namespace RaftLogStore

variable {T : Types}

structure Config (W : ChunkedWal T) where
  wal : W.Config
  cache : CacheConfig

/-- How often `read` found a payload in the cache, and how often not. -/
structure AccessStat where
  cacheHit : ℕ
  cacheMiss : ℕ

structure RaftLog (W : ChunkedWal T) where
  config : Config W
  wal : W.Wal
  stateMachine : RaftLogStateMachine T
  /-- The chunk IDs whose logs are all purged, waiting to be deleted. -/
  removedChunks : List ChunkId
  accessStat : AccessStat

/-- A method of the raft log. -/
abbrev Method (W : ChunkedWal T) := EStateM (Failure T) (RaftLog W)

namespace RaftLog

variable {W : ChunkedWal T}

/-- Run a method of the WAL. -/
def onWal {α : Type} (x : EStateM IoError W.Wal α) : Method W α :=
  EStateM.zoom RaftLog.wal (fun wal s => { s with wal := wal }) .io x

/-- Run a method of the state machine. -/
def onStateMachine {α : Type} (x : StateMachineM T α) : Method W α :=
  EStateM.zoom RaftLog.stateMachine (fun sm s => { s with stateMachine := sm }) id x

def logState (s : RaftLog W) : RaftLogState T := s.stateMachine.logState

/-- Move the closed chunks that hold only purged logs into `removedChunks`. -/
def bufferRemovableChunks (s : RaftLog W) : RaftLog W :=
  match s.logState.purged with
  | none => s
  | some purged =>
      let (chunkIds, wal) :=
        W.drainClosedChunksWhile (fun state => state.last ≤ some purged) s.wal
      { s with wal := wal, removedChunks := s.removedChunks ++ chunkIds }

def appendAndApply (rec : RaftLogRecord T) : Method W Segment := do
  let s ← get
  EStateM.ofExcept (s.stateMachine.check rec)
  onWal (W.append rec)
  let s ← get
  onStateMachine
    (RaftLogStateMachine.apply rec (W.openChunkId s.wal) (W.lastSegment s.wal))
  let s ← get
  let closed ← onWal (W.tryCloseFullChunk s.stateMachine.checkpoint)
  if closed then modify bufferRemovableChunks
  let s ← get
  pure (W.lastSegment s.wal)

def getLogId (s : RaftLog W) (index : ℕ) : Except (Failure T) T.LogId :=
  match s.stateMachine.log.get index with
  | some entry => .ok entry.logId
  | none => .error (.state (.logIndexNotFound index))

/-! ## The writer -/

def saveUserData (userData : Option T.UserData) : Method W Segment := do
  let s ← get
  let state := s.stateMachine.checkpoint
  appendAndApply (.checkpoint { state with userData := userData })

def saveVote (vote : T.Vote) : Method W Segment := appendAndApply (.action (.saveVote vote))

/-- The loop of `append`. -/
def appendLoop : List (T.LogId × T.LogPayload) → Method W Unit
  | [] => pure ()
  | (logId, payload) :: entries => do
      let _ ← appendAndApply (.action (.append logId payload))
      appendLoop entries

def append (entries : List (T.LogId × T.LogPayload)) : Method W Segment := do
  appendLoop entries
  let s ← get
  pure (W.lastSegment s.wal)

/-- The last entry that `truncate` at `index` keeps. -/
def truncateKeep (s : RaftLog W) (index : ℕ) : Except (Failure T) (Option T.LogId) := do
  let purged := s.logState.purged
  let next ← T.nextLogIndex purged
  if index = next then .ok purged
  -- `index.checked_sub(1)` has no value
  else if index = 0 then .error (.state (.logIndexNotFound index))
  else do
    let logId ← s.getLogId (index - 1)
    .ok (some logId)

/-- Truncate at `index`, keep the record before `index`. -/
def truncate (index : UInt64) : Method W Segment := do
  let s ← get
  let logId ← EStateM.ofExcept (s.truncateKeep index.toNat)
  appendAndApply (.action (.truncateAfter logId))

def purge (upto : T.LogId) : Method W Segment := do
  let s ← get
  let next ← EStateM.ofExcept (T.nextLogIndex s.logState.purged)
  if T.logIndex upto < next then pure (W.lastSegment s.wal)
  else do
    let res ← appendAndApply (.action (.purgeUpto upto))
    modify bufferRemovableChunks
    pure res

def commit (logId : T.LogId) : Method W Segment := appendAndApply (.action (.commit logId))

def flush (sync : Bool) (callback : Option T.Callback) : Method W Unit := do
  onWal (W.sendPending sync callback)
  let s ← get
  if sync ∧ ¬ s.removedChunks.isEmpty then do
    let chunkIds := s.removedChunks
    set { s with removedChunks := [] }
    onWal (W.sendRemoveChunks chunkIds)

/-- Replace the state and append the new state to the WAL as a checkpoint. -/
def updateState (state : RaftLogState T) : Method W Segment := do
  let s ← get
  EStateM.ofExcept (s.stateMachine.checkCheckpoint state)
  appendAndApply (.checkpoint state)

/-! ## Opening -/

/-- `RaftLog::open` on a directory with the given records. -/
def openLog (config : Config W) (disk : List (Located T)) : Except (Failure T) (RaftLog W) :=
  match (W.openWal config.wal disk).run (RaftLogStateMachine.new config.cache) with
  | .error failure _ => .error failure
  | .ok wal sm => .ok
      ({ config := config
         wal := wal
         stateMachine := sm
         removedChunks := []
         accessStat := ⟨0, 0⟩ } : RaftLog W).bufferRemovableChunks

/-- `drain_cache_evictable`. -/
def drainCacheEvictable : Method W Unit :=
  onStateMachine (RaftLogStateMachine.updateCache PayloadCache.drainEvictable)

/-- The worker calls `on_chunk_persisted` with the checkpoint at the end of a chunk. -/
def chunkPersisted (checkpoint : Option (RaftLogState T)) (s : RaftLog W) : RaftLog W :=
  { s with stateMachine := { s.stateMachine with
      payloadCache :=
        RaftLogStateMachine.onChunkPersisted checkpoint s.stateMachine.payloadCache } }

/-! ## Reading -/

/-- The payload in a loaded record.  The assertion on the log id is a debug assertion. -/
def recordPayload (logData : LogData T) : RaftLogRecord T → Except (Failure T) T.LogPayload
  | .action (.append logId payload) =>
      if T.debugAssertions ∧ logId ≠ logData.logId then .error .panic else .ok payload
  -- Expect Record::Append
  | _ => .error .panic

/-- An error of the WAL as an error of the raft log. -/
def fromIo {α : Type} : Except IoError α → Except (Failure T) α
  | .ok a => .ok a
  | .error e => .error (.io e)

/-- One item of `read`: from the cache, or from the WAL. -/
def readItem (s : RaftLog W) (logData : LogData T) (stat : AccessStat) :
    Except (Failure T) (T.LogId × T.LogPayload) × AccessStat :=
  match s.stateMachine.payloadCache.get logData.logId with
  | some payload =>
      (.ok (logData.logId, payload), { stat with cacheHit := stat.cacheHit + 1 })
  | none =>
      (do
        let record ← fromIo (W.loadRecord s.wal logData.chunkId logData.recordSegment)
        let payload ← recordPayload logData record
        .ok (logData.logId, payload), { stat with cacheMiss := stat.cacheMiss + 1 })

/-- The items of `read`, taken in order. -/
def readItems (s : RaftLog W) :
    List (LogData T) → AccessStat → List (Except (Failure T) (T.LogId × T.LogPayload)) × AccessStat
  | [], stat => ([], stat)
  | logData :: rest, stat =>
      let (item, stat) := s.readItem logData stat
      let (items, stat) := s.readItems rest stat
      (item :: items, stat)

/-- Reads log entries in the specified index range, to the end of the iterator.
`BTreeMap::range` panics on a range that starts after its end. -/
def read (s : RaftLog W) (fromIndex toIndex : ℕ) :
    Except (Failure T) (List (Except (Failure T) (T.LogId × T.LogPayload)) × AccessStat) :=
  if toIndex < fromIndex then .error .panic
  else .ok (s.readItems (s.stateMachine.log.range fromIndex toIndex).values s.accessStat)

end RaftLog

/-! ## Dumping -/

/-- A snapshot of RaftLog data. -/
structure DumpRaftLog (W : ChunkedWal T) where
  state : RaftLogState T
  logs : List (LogData T)
  cache : OrderedMap T.LogId T.LogPayload
  recordReader : W.ClosedChunkReader
  cacheHit : ℕ
  cacheMiss : ℕ

variable {W : ChunkedWal T}

def RaftLog.dumpData (s : RaftLog W) : DumpRaftLog W where
  state := s.stateMachine.checkpoint
  logs := s.stateMachine.log.values
  cache := s.stateMachine.payloadCache.cache
  recordReader := W.closedChunkReader s.wal
  cacheHit := 0
  cacheMiss := 0

namespace DumpRaftLog

def readLogPayload (data : DumpRaftLog W) (logData : LogData T) :
    Except (Failure T) T.LogPayload := do
  let record ← RaftLog.fromIo (W.readRecord data.recordReader logData.chunkId logData.recordSegment)
  RaftLog.recordPayload logData record

/-- `next` of the iterator at position `i`: the item, and the data with its counters. -/
def next (data : DumpRaftLog W) (i : ℕ) :
    Option (Except (Failure T) (T.LogId × T.LogPayload) × DumpRaftLog W) :=
  match data.logs[i]? with
  | none => none
  | some logData =>
      match data.cache.get logData.logId with
      | some payload =>
          some (.ok (logData.logId, payload), { data with cacheHit := data.cacheHit + 1 })
      | none =>
          some ((data.readLogPayload logData).map fun payload => (logData.logId, payload),
            { data with cacheMiss := data.cacheMiss + 1 })

/-- The items of the iterator from position `i` on, at most `n` of them. -/
def itemsFrom (data : DumpRaftLog W) : ℕ → ℕ → List (Except (Failure T) (T.LogId × T.LogPayload))
  | 0, _ => []
  | n + 1, i =>
      match data.next i with
      | none => []
      | some (item, data) => item :: data.itemsFrom n (i + 1)

/-- All items of `iter()`. -/
def iter (data : DumpRaftLog W) : List (Except (Failure T) (T.LogId × T.LogPayload)) :=
  data.itemsFrom data.logs.length 0

end DumpRaftLog

/-! ## Calls -/

/-- A call that writes. -/
inductive Op (T : Types) where
  | saveVote (vote : T.Vote)
  | saveUserData (userData : Option T.UserData)
  | append (entries : List (T.LogId × T.LogPayload))
  | truncate (index : UInt64)
  | purge (upto : T.LogId)
  | commit (logId : T.LogId)
  | updateState (state : RaftLogState T)
  | flush (sync : Bool) (callback : Option T.Callback)

/-- Run a call, without the segment it returns. -/
def Op.exec : Op T → Method W Unit
  | .saveVote vote => discard (RaftLog.saveVote vote)
  | .saveUserData userData => discard (RaftLog.saveUserData userData)
  | .append entries => discard (RaftLog.append entries)
  | .truncate index => discard (RaftLog.truncate index)
  | .purge upto => discard (RaftLog.purge upto)
  | .commit logId => discard (RaftLog.commit logId)
  | .updateState state => discard (RaftLog.updateState state)
  | .flush sync callback => RaftLog.flush sync callback

/-- Run a call and return its segment.  A `flush` has none. -/
def Op.returned : Op T → Method W (Option Segment)
  | .saveVote vote => some <$> RaftLog.saveVote vote
  | .saveUserData userData => some <$> RaftLog.saveUserData userData
  | .append entries => some <$> RaftLog.append entries
  | .truncate index => some <$> RaftLog.truncate index
  | .purge upto => some <$> RaftLog.purge upto
  | .commit logId => some <$> RaftLog.commit logId
  | .updateState state => some <$> RaftLog.updateState state
  | .flush sync callback => do
      RaftLog.flush sync callback
      pure none

/-- The call `op` on `s` returned, or was rejected, and left the store as `s'`. -/
def Completes (op : Op T) (s s' : RaftLog W) : Prop :=
  op.exec.run s = .ok () s' ∨ ∃ e, op.exec.run s = .error (.state e) s'

end RaftLogStore
