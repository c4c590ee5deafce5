import RaftLogStore.Model.StateMachine

/-!
# The write-ahead log underneath

The WAL itself is another crate, `chunked-wal`.  It is a parameter here: `ChunkedWal` lists
the operations the raft log calls, and `Lawful` what it relies on.  The laws speak about a
`WalView`, which is what a WAL holds: the stream of records written into it, pending ones
included, the closed chunks, and the requests queued to its worker.

`Replay` is what opening a WAL does to the state machine.
-/

namespace RaftLogStore

variable {T : Types}

/-- One record of the stream, with its place. -/
structure Located (T : Types) where
  chunkId : ChunkId
  segment : Segment
  record : RaftLogRecord T

/-- A closed chunk, and the checkpoint reached at its end. -/
structure ClosedChunk (T : Types) where
  chunkId : ChunkId
  state : RaftLogState T

/-- A request to the worker. -/
inductive WorkerRequest where
  /-- Write the first `upto` records of the stream to their files, and sync them if asked to. -/
  | write (sync : Bool) (upto : ℕ)
  | removeChunks (chunkIds : List ChunkId)
  /-- Take over the file of a new open chunk. -/
  | appendFile
  deriving DecidableEq

/-- What a WAL holds. -/
structure WalView (T : Types) where
  written : List (Located T)
  closed : List (ClosedChunk T)
  queue : List WorkerRequest

/-- The state reached by the records of a stream, each of which is accepted. -/
def stateAfter (start : RaftLogState T) (records : List (Located T)) : RaftLogState T :=
  records.foldl (fun st l => st.update l.record) start

/-- The chunks of a stream in the order of their ids, each with the state at its end. -/
def chunksOf (start : RaftLogState T) (records : List (Located T)) : List (ClosedChunk T) :=
  (records.map Located.chunkId).dedup.map fun chunkId =>
    ⟨chunkId, stateAfter start (records.filter fun l => l.chunkId ≤ chunkId)⟩

/-- `Replay sm records sm'`: the state machine `sm` becomes `sm'` when `records` are applied
to it in order.  The worker may report a chunk to the cache meanwhile. -/
inductive Replay : RaftLogStateMachine T → List (Located T) → RaftLogStateMachine T → Prop
  | nil (sm : RaftLogStateMachine T) : Replay sm [] sm
  | record {sm sm₁ sm₂ : RaftLogStateMachine T} {records : List (Located T)} {l : Located T} :
      Replay sm records sm₁ →
      (RaftLogStateMachine.apply l.record l.chunkId l.segment).run sm₁ = .ok () sm₂ →
      Replay sm (records ++ [l]) sm₂
  | persisted {sm sm₁ : RaftLogStateMachine T} {records : List (Located T)}
      (checkpoint : Option (RaftLogState T)) :
      Replay sm records sm₁ →
      Replay sm records { sm₁ with
        payloadCache := RaftLogStateMachine.onChunkPersisted checkpoint sm₁.payloadCache }

/-- The operations of `chunked-wal` that the raft log calls. -/
structure ChunkedWal (T : Types) where
  Wal : Type
  Config : Type
  ClosedChunkReader : Type
  /-- `ChunkedWal::open`: load the chunks of a directory, given as the records in them, and
  apply each record to the state machine. -/
  openWal : Config → List (Located T) → StateMachineM T Wal
  append : RaftLogRecord T → EStateM IoError Wal Unit
  openChunkId : Wal → ChunkId
  lastSegment : Wal → Segment
  /-- Close the open chunk if it is full and start a new one with `checkpoint`, which the WAL
  takes from the state machine.  The result says whether a chunk was closed. -/
  tryCloseFullChunk : RaftLogState T → EStateM IoError Wal Bool
  drainClosedChunksWhile : (RaftLogState T → Bool) → Wal → List ChunkId × Wal
  sendPending : Bool → Option T.Callback → EStateM IoError Wal Unit
  sendRemoveChunks : List ChunkId → EStateM IoError Wal Unit
  loadRecord : Wal → ChunkId → Segment → Except IoError (RaftLogRecord T)
  closedChunkReader : Wal → ClosedChunkReader
  readRecord : ClosedChunkReader → ChunkId → Segment → Except IoError (RaftLogRecord T)
  /-- What the WAL holds; no method of the raft log looks at it. -/
  view : Wal → WalView T

/-- The result of opening a WAL on the records of a directory. -/
structure Opened (W : ChunkedWal T) (sm : RaftLogStateMachine T) (disk : List (Located T))
    (wal : W.Wal) (sm' : RaftLogStateMachine T) : Prop where
  replay : Replay sm disk sm'
  queue : (W.view wal).queue = []
  /-- The last chunk is written further, or all chunks are closed and a new one is started
  with a checkpoint. -/
  written :
    (W.view wal).written = disk ∧ (∃ l ∈ disk.getLast?, l.chunkId = W.openChunkId wal) ∨
      (W.view wal).written = disk ++ [⟨W.openChunkId wal, W.lastSegment wal,
        .checkpoint sm'.checkpoint⟩] ∧ ∀ l ∈ disk, l.chunkId < W.openChunkId wal
  closed : (W.view wal).closed =
    (chunksOf sm.logState disk).filter fun c => c.chunkId ≠ W.openChunkId wal

/-- What the raft log relies on. -/
structure Lawful (W : ChunkedWal T) : Prop where
  append_ok {rec : RaftLogRecord T} {wal wal' : W.Wal} :
    (W.append rec).run wal = .ok () wal' →
      W.openChunkId wal' = W.openChunkId wal ∧
        W.view wal' = { W.view wal with
          written := (W.view wal).written ++ [⟨W.openChunkId wal', W.lastSegment wal', rec⟩] }
  tryCloseFullChunk_false {checkpoint : RaftLogState T} {wal wal' : W.Wal} :
    (W.tryCloseFullChunk checkpoint).run wal = .ok false wal' →
      W.openChunkId wal' = W.openChunkId wal ∧ W.lastSegment wal' = W.lastSegment wal ∧
        W.view wal' = W.view wal
  /-- A closed chunk ends with the current state, and so begins the new one.  What the WAL
  queues by itself removes no chunk, and writes no record that is not in the stream. -/
  tryCloseFullChunk_true {checkpoint : RaftLogState T} {wal wal' : W.Wal} :
    (W.tryCloseFullChunk checkpoint).run wal = .ok true wal' →
      W.openChunkId wal < W.openChunkId wal' ∧
        ∃ requests : List WorkerRequest,
          (∀ chunkIds, .removeChunks chunkIds ∉ requests) ∧
          (∀ sync upto, .write sync upto ∈ requests → upto ≤ (W.view wal').written.length) ∧
          W.view wal' =
            { written := (W.view wal).written ++
                [⟨W.openChunkId wal', W.lastSegment wal', .checkpoint checkpoint⟩]
              closed := (W.view wal).closed ++ [⟨W.openChunkId wal, checkpoint⟩]
              queue := (W.view wal).queue ++ requests }
  drainClosedChunksWhile_eq {removable : RaftLogState T → Bool} {wal wal' : W.Wal}
    {chunkIds : List ChunkId} :
    W.drainClosedChunksWhile removable wal = (chunkIds, wal') →
      W.openChunkId wal' = W.openChunkId wal ∧ W.lastSegment wal' = W.lastSegment wal ∧
        chunkIds = ((W.view wal).closed.takeWhile fun c => removable c.state).map
          ClosedChunk.chunkId ∧
        W.view wal' = { W.view wal with
          closed := (W.view wal).closed.dropWhile fun c => removable c.state }
  sendPending_ok {sync : Bool} {callback : Option T.Callback} {wal wal' : W.Wal} :
    (W.sendPending sync callback).run wal = .ok () wal' →
      W.openChunkId wal' = W.openChunkId wal ∧ W.lastSegment wal' = W.lastSegment wal ∧
        W.view wal' = { W.view wal with
          queue := (W.view wal).queue ++ [.write sync (W.view wal).written.length] }
  sendRemoveChunks_ok {chunkIds : List ChunkId} {wal wal' : W.Wal} :
    (W.sendRemoveChunks chunkIds).run wal = .ok () wal' →
      W.openChunkId wal' = W.openChunkId wal ∧ W.lastSegment wal' = W.lastSegment wal ∧
        W.view wal' = { W.view wal with queue := (W.view wal).queue ++ [.removeChunks chunkIds] }
  loadRecord_ok {wal : W.Wal} {chunkId : ChunkId} {segment : Segment} {rec : RaftLogRecord T} :
    W.loadRecord wal chunkId segment = .ok rec →
      ∀ l ∈ (W.view wal).written, l.chunkId = chunkId → l.segment = segment → l.record = rec
  readRecord_ok {wal : W.Wal} {chunkId : ChunkId} {segment : Segment} {rec : RaftLogRecord T} :
    W.readRecord (W.closedChunkReader wal) chunkId segment = .ok rec →
      ∀ l ∈ (W.view wal).written, l.chunkId = chunkId → l.segment = segment → l.record = rec
  openWal_ok {config : W.Config} {disk : List (Located T)} {sm sm' : RaftLogStateMachine T}
    {wal : W.Wal} :
    disk.Pairwise (fun a b => a.chunkId ≤ b.chunkId) →
    (W.openWal config disk).run sm = .ok wal sm' → Opened W sm disk wal sm'
  /-- Opening fails by an error of the WAL itself, or because a record is not applied. -/
  openWal_error {config : W.Config} {disk : List (Located T)} {sm sm' : RaftLogStateMachine T}
    {failure : Failure T} :
    (W.openWal config disk).run sm = .error failure sm' →
      (∃ e, failure = .io e) ∨
        ∃ records l rest sm₁ sm₂, disk = records ++ l :: rest ∧ Replay sm records sm₁ ∧
          (RaftLogStateMachine.apply l.record l.chunkId l.segment).run sm₁ = .error failure sm₂

end RaftLogStore
