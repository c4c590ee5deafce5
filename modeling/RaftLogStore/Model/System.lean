import RaftLogStore.Lib.Transition
import RaftLogStore.Model.RaftLog

/-!
# A store, its worker and its directory

`System` is one store together with the worker of its WAL and what has become of the
records: which are synced, and which chunk files are unlinked.  `hist` is the history: every
record ever written, each with the state and the log map the live store had right after it.
No code reads it.

A step is a call, an update of the cache, a step of the worker, or a restart.  A restart opens
the directory again.  It finds a prefix of the record stream, less the unlinked chunk files:
after a crash, a prefix that reaches at least to the last completed sync; after an orderly
shutdown, everything that was handed to the worker.

A call that panics or fails with an error of the WAL ends the run.
-/

namespace RaftLogStore

variable {T : Types} {W : ChunkedWal T}

/-- A record, and the store right after it. -/
structure Snapshot (T : Types) where
  located : Located T
  state : RaftLogState T
  log : OrderedMap ℕ (LogData T)

/-- The chunk a record is in. -/
abbrev Snapshot.chunkId (snap : Snapshot T) : ChunkId := snap.located.chunkId

/-- The records that `s'` has beyond those of `s`, each with the state and log of `s'`. -/
def newSnapshots (s s' : RaftLog W) : List (Snapshot T) :=
  ((W.view s'.wal).written.drop (W.view s.wal).written.length).map fun l =>
    ⟨l, s'.logState, s'.stateMachine.log⟩

/-- The records of an `append`, which is one write after the other. -/
def recordedAppend : List (T.LogId × T.LogPayload) → RaftLog W → List (Snapshot T)
  | [], _ => []
  | (logId, payload) :: entries, s =>
      match (RaftLog.appendAndApply (.action (.append logId payload))).run s with
      | .ok _ s' => newSnapshots s s' ++ recordedAppend entries s'
      | .error _ s' => newSnapshots s s'

/-- The records a call writes.  Apart from `append`, a call writes at most one, and a
checkpoint behind it if that fills the open chunk. -/
def Op.recorded (op : Op T) (s : RaftLog W) : List (Snapshot T) :=
  match op with
  | .append entries => recordedAppend entries s
  | op =>
      match op.exec.run s with
      | .ok _ s' => newSnapshots s s'
      | .error _ s' => newSnapshots s s'

structure System (W : ChunkedWal T) where
  store : RaftLog W
  hist : List (Snapshot T)
  /-- How many records of `hist` the last completed sync covers. -/
  synced : ℕ
  /-- How many requests of the queue the worker has handled. -/
  handled : ℕ
  /-- The chunks whose files are gone. -/
  unlinked : List ChunkId
  /-- How many records of `hist` the last restart found. -/
  loaded : ℕ
  /-- The chunks passed to `send_remove_chunks` before the last restart, less those whose
  removal was lost in a crash. -/
  sentBefore : List ChunkId

/-- What can happen to a system. -/
inductive Event (W : ChunkedWal T) where
  | call (op : Op T)
  | drainCache
  | persisted (checkpoint : Option (RaftLogState T))
  | work
  | unlinkFirst (n : ℕ)
  | crash (survivors : ℕ) (config : Config W)
  | restart (survivors : ℕ) (config : Config W)

namespace System

/-- The requests queued to the worker since the store was opened. -/
def queue (sys : System W) : List WorkerRequest := (W.view sys.store.wal).queue

/-- How many records of `hist` the WAL of this store does not hold. -/
def base (sys : System W) : ℕ := sys.hist.length - (W.view sys.store.wal).written.length

/-- The chunks in the removal requests of a queue. -/
def queuedRemovals (queue : List WorkerRequest) : List ChunkId :=
  queue.flatMap fun
    | .removeChunks chunkIds => chunkIds
    | _ => []

/-- Every chunk passed to `send_remove_chunks`. -/
def sent (sys : System W) : List ChunkId := sys.sentBefore ++ queuedRemovals sys.queue

/-- The records found in the directory when the first `survivors` of the stream survive. -/
def disk (sys : System W) (survivors : ℕ) : List (Located T) :=
  ((sys.hist.take survivors).map Snapshot.located).filter fun l => l.chunkId ∉ sys.unlinked

/-- The worker handles one request. -/
def handle (sys : System W) : WorkerRequest → System W
  | .write sync upto =>
      { sys with
        handled := sys.handled + 1
        synced := if sync then max sys.synced (sys.base + upto) else sys.synced }
  | .removeChunks chunkIds =>
      { sys with handled := sys.handled + 1, unlinked := sys.unlinked ++ chunkIds }
  | .appendFile => { sys with handled := sys.handled + 1 }

/-- The system after the store is opened again on what is left of the directory. -/
def reopened (sys : System W) (survivors : ℕ) (sentBefore : List ChunkId) (s : RaftLog W) :
    System W where
  store := s
  hist := sys.hist.take survivors ++
    ((W.view s.wal).written.drop (sys.disk survivors).length).map fun l =>
      ⟨l, s.logState, s.stateMachine.log⟩
  synced := sys.synced
  handled := 0
  unlinked := sys.unlinked
  loaded := survivors
  sentBefore := sentBefore

/-- A store opened on an empty directory. -/
def Initial (sys : System W) : Prop :=
  ∃ config : Config W, RaftLog.openLog config [] = .ok sys.store ∧
    sys.hist = (W.view sys.store.wal).written.map
      (fun l => ⟨l, sys.store.logState, sys.store.stateMachine.log⟩) ∧
    sys.synced = 0 ∧ sys.handled = 0 ∧ sys.unlinked = [] ∧ sys.loaded = 0 ∧ sys.sentBefore = []

/-- One step of a system in which the callers make only the calls that `allowed` admits. -/
inductive Step (allowed : RaftLog W → Op T → Prop) : System W → Event W → System W → Prop
  | call {sys : System W} {op : Op T} {s : RaftLog W} :
      allowed sys.store op → Completes op sys.store s →
      Step allowed sys (.call op)
        { sys with store := s, hist := sys.hist ++ op.recorded sys.store }
  | drainCache {sys : System W} {s : RaftLog W} :
      RaftLog.drainCacheEvictable.run sys.store = .ok () s →
      Step allowed sys .drainCache { sys with store := s }
  | persisted {sys : System W} (checkpoint : Option (RaftLogState T)) :
      Step allowed sys (.persisted checkpoint)
        { sys with store := sys.store.chunkPersisted checkpoint }
  | work {sys : System W} {request : WorkerRequest} :
      sys.queue[sys.handled]? = some request → Step allowed sys .work (sys.handle request)
  -- the removal is under way: some of the files are gone
  | unlinkFirst {sys : System W} {chunkIds : List ChunkId} (n : ℕ) :
      sys.queue[sys.handled]? = some (.removeChunks chunkIds) →
      Step allowed sys (.unlinkFirst n)
        { sys with unlinked := sys.unlinked ++ chunkIds.take n }
  | crash {sys : System W} {survivors : ℕ} {config : Config W} {s : RaftLog W} :
      sys.synced ≤ survivors → survivors ≤ sys.hist.length →
      RaftLog.openLog config (sys.disk survivors) = .ok s →
      Step allowed sys (.crash survivors config) (sys.reopened survivors sys.unlinked s)
  | restart {sys : System W} {survivors : ℕ} {config : Config W} {s : RaftLog W} :
      sys.synced ≤ survivors → survivors ≤ sys.hist.length → sys.loaded ≤ survivors →
      (∀ sync upto, .write sync upto ∈ sys.queue → sys.base + upto ≤ survivors) →
      RaftLog.openLog config (sys.disk survivors) = .ok s →
      Step allowed sys (.restart survivors config) (sys.reopened survivors sys.sent s)

theorem Step.mono {allowed allowed' : RaftLog W → Op T → Prop}
    (hsub : ∀ s op, allowed s op → allowed' s op) {sys sys' : System W} {e : Event W}
    (h : Step allowed sys e sys') : Step allowed' sys e sys' := by
  cases h with
  | call hop hcompletes => exact Step.call (hsub _ _ hop) hcompletes
  | drainCache hdrain => exact Step.drainCache hdrain
  | persisted checkpoint => exact Step.persisted checkpoint
  | work hrequest => exact Step.work hrequest
  | unlinkFirst n hrequest => exact Step.unlinkFirst n hrequest
  | crash hsynced hlen hopen => exact Step.crash hsynced hlen hopen
  | restart hsynced hlen hloaded hhanded hopen =>
      exact Step.restart hsynced hlen hloaded hhanded hopen

/-- The systems that calls admitted by `allowed` can lead to. -/
def Reachable (allowed : RaftLog W → Op T → Prop) : System W → Prop :=
  Transition.Reachable Initial (Step allowed)

end System

/-- Any call. -/
def AnyCall (_ : RaftLog W) (_ : Op T) : Prop := True

instance (s : RaftLog W) (op : Op T) : Decidable (AnyCall s op) := isTrue trivial

theorem System.Reachable.anyCall {allowed : RaftLog W → Op T → Prop} {sys : System W}
    (h : System.Reachable allowed sys) : System.Reachable AnyCall sys :=
  Transition.Reachable.mono (fun _ _ _ hstep => hstep.mono fun _ _ _ => trivial) h

end RaftLogStore
