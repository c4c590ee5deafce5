import Mathlib.Data.List.TakeWhile
import Mathlib.Tactic.Simps.Basic
import RaftLogStore.Model.System

/-!
# The journal: what a store does, one small step at a time

A `Journal` is what the proofs look at in a store: the log map, the state, the cache, the
removal buffer, and what its WAL holds.  Whatever a call does, it is a run of six kinds of
step: a record is written, the open chunk is closed, obsolete chunks are drained, pending
records are handed over (with or without a removal behind them), or the cache is cut.

`Journal.Step G` admits only records that satisfy `G`; a step is labelled with the snapshots
it adds to the history.
-/

namespace RaftLogStore

variable {T : Types} {W : ChunkedWal T}

structure Journal (T : Types) where
  log : OrderedMap ℕ (LogData T)
  state : RaftLogState T
  cache : PayloadCache T
  written : List (Located T)
  closed : List (ClosedChunk T)
  queue : List WorkerRequest
  openChunkId : ChunkId
  removed : List ChunkId

/-- The journal of a store. -/
@[simps] def RaftLog.journal (s : RaftLog W) : Journal T where
  log := s.stateMachine.log
  state := s.stateMachine.logState
  cache := s.stateMachine.payloadCache
  written := (W.view s.wal).written
  closed := (W.view s.wal).closed
  queue := (W.view s.wal).queue
  openChunkId := W.openChunkId s.wal
  removed := s.removedChunks

namespace Journal

/-- The chunks a drain takes: the oldest ones that hold nothing above `purged`. -/
def removable (j : Journal T) (purged : T.LogId) : List (ClosedChunk T) :=
  j.closed.takeWhile fun c => decide (c.state.last ≤ some purged)

/-- The chunks a drain leaves. -/
def retained (j : Journal T) (purged : T.LogId) : List (ClosedChunk T) :=
  j.closed.dropWhile fun c => decide (c.state.last ≤ some purged)

theorem mem_removable {j : Journal T} {purged : T.LogId} {c : ClosedChunk T}
    (h : c ∈ j.removable purged) : c ∈ j.closed ∧ c.state.last ≤ some purged :=
  ⟨List.takeWhile_subset _ h, by simpa using List.mem_takeWhile_imp h⟩

/-- One step of a store. -/
inductive Step (G : Journal T → RaftLogRecord T → Prop) :
    Journal T → List (Snapshot T) → Journal T → Prop
  | write {j : Journal T} {l : Located T} {log : OrderedMap ℕ (LogData T)}
      {cache : PayloadCache T} :
      G j l.record → l.chunkId = j.openChunkId → j.state.check l.record = .ok () →
      RaftLogStateMachine.logAfter l.record l.chunkId l.segment j.log = .ok log →
      RaftLogStateMachine.cacheAfter l.record j.cache = .ok cache →
      Step G j [⟨l, j.state.update l.record, log⟩]
        { j with log := log, state := j.state.update l.record, cache := cache,
                 written := j.written ++ [l] }
  | rotate {j : Journal T} {chunkId : ChunkId} (segment : Segment)
      {requests : List WorkerRequest} :
      j.openChunkId < chunkId → (∀ chunkIds, .removeChunks chunkIds ∉ requests) →
      (∀ sync upto, .write sync upto ∈ requests → upto ≤ j.written.length + 1) →
      Step G j [⟨⟨chunkId, segment, .checkpoint j.state⟩, j.state, j.log⟩]
        { j with written := j.written ++ [⟨chunkId, segment, .checkpoint j.state⟩],
                 closed := j.closed ++ [⟨j.openChunkId, j.state⟩],
                 queue := j.queue ++ requests, openChunkId := chunkId }
  | drain {j : Journal T} {purged : T.LogId} :
      j.state.purged = some purged →
      Step G j []
        { j with closed := j.retained purged,
                 removed := j.removed ++ (j.removable purged).map ClosedChunk.chunkId }
  | send {j : Journal T} (sync : Bool) :
      Step G j [] { j with queue := j.queue ++ [.write sync j.written.length] }
  | sendAndRemove {j : Journal T} :
      Step G j []
        { j with queue := j.queue ++ [.write true j.written.length, .removeChunks j.removed],
                 removed := [] }
  | drainCache {j : Journal T} {cache : PayloadCache T} :
      j.cache.drainEvictable = .ok cache → Step G j [] { j with cache := cache }
  | persisted {j : Journal T} (checkpoint : Option (RaftLogState T)) :
      Step G j []
        { j with cache := RaftLogStateMachine.onChunkPersisted checkpoint j.cache }

variable {G G' : Journal T → RaftLogRecord T → Prop}

/-- What one step preserves, a run preserves.  The invariant may speak about the history, to
which the snapshots of the run are added. -/
theorem run_invariant {I : Journal T → List (Snapshot T) → Prop}
    (hstep : ∀ j hist added j', I j hist → Step G j added j' → I j' (hist ++ added))
    {j j' : Journal T} {added : List (List (Snapshot T))} {hist : List (Snapshot T)}
    (h : Transition.Run (Step G) j added j') (hj : I j hist) : I j' (hist ++ added.flatten) := by
  have hstart : I j (hist ++ [].flatten) := by simpa using hj
  have hrun := h.invariant_events (I := fun j added => I j (hist ++ added.flatten))
    (fun j es e j' hI hlast => by
      have := hstep _ _ _ _ hI hlast
      simpa using this) hstart
  simpa using hrun

theorem Step.mono (hG : ∀ j rec, G j rec → G' j rec) {j j' : Journal T}
    {added : List (Snapshot T)} (h : Step G j added j') : Step G' j added j' := by
  cases h with
  | write hg hchunk hcheck hlog hcache => exact Step.write (hG _ _ hg) hchunk hcheck hlog hcache
  | rotate segment hid hrequests hupto => exact Step.rotate segment hid hrequests hupto
  | drain hpurged => exact Step.drain hpurged
  | send sync => exact Step.send sync
  | sendAndRemove => exact Step.sendAndRemove
  | drainCache hdrain => exact Step.drainCache hdrain
  | persisted checkpoint => exact Step.persisted checkpoint

end Journal

end RaftLogStore
