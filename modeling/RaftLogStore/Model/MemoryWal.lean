import Mathlib.Data.List.Dedup
import Mathlib.Order.MinMax
import RaftLogStore.Model.ChunkedWal

/-!
# A WAL in memory

`memoryWal` is the simplest WAL with the operations of `ChunkedWal`: it keeps the stream in a
list, counts every record as one byte, and closes a chunk after a number of records.  A record
is loaded from a closed chunk only.  It is `Lawful`, so the laws have a model, and a run of the
store on it can be computed.
-/

namespace RaftLogStore

variable {T : Types}

/-- A WAL that keeps its records in a list. -/
structure MemoryWal (T : Types) where
  written : List (Located T)
  closed : List (ClosedChunk T)
  queue : List WorkerRequest
  openChunkId : ChunkId
  lastSegment : Segment
  nextOffset : ℕ
  /-- How many records the open chunk has. -/
  openRecords : ℕ
  /-- After how many records a chunk is full. -/
  chunkMaxRecords : ℕ
  openChunkId_lt : openChunkId < nextOffset

namespace MemoryWal

/-- The first offset behind all records. -/
def endOffset (disk : List (Located T)) : ℕ :=
  disk.foldr (fun l offset =>
    max offset (max (l.chunkId + 1) (l.segment.offset + l.segment.size))) 0

theorem lt_endOffset {disk : List (Located T)} {l : Located T} (h : l ∈ disk) :
    l.chunkId < endOffset disk := by
  induction disk with
  | nil => simp at h
  | cons first rest ih =>
      simp only [endOffset, List.foldr_cons]
      rcases List.mem_cons.mp h with rfl | h
      · exact lt_max_of_lt_right (lt_max_of_lt_left (Nat.lt_succ_self _))
      · exact lt_max_of_lt_left (ih h)

/-- Apply records to the state machine in order. -/
def applyAll : List (Located T) → StateMachineM T Unit
  | [] => pure ()
  | l :: records => do
      RaftLogStateMachine.apply l.record l.chunkId l.segment
      applyAll records

/-- Load the records, and start a new chunk behind them. -/
def openWal (chunkMaxRecords : ℕ) (disk : List (Located T)) : StateMachineM T (MemoryWal T) := do
  let sm ← get
  let start := sm.logState
  applyAll disk
  let sm ← get
  let offset := endOffset disk
  pure
    { written := disk ++ [⟨offset, ⟨offset, 1⟩, .checkpoint sm.checkpoint⟩]
      closed := chunksOf start disk
      queue := []
      openChunkId := offset
      lastSegment := ⟨offset, 1⟩
      nextOffset := offset + 1
      openRecords := 1
      chunkMaxRecords := chunkMaxRecords
      openChunkId_lt := Nat.lt_succ_self offset }

def append (rec : RaftLogRecord T) : EStateM IoError (MemoryWal T) Unit :=
  modify fun wal =>
    { wal with
      written := wal.written ++ [⟨wal.openChunkId, ⟨wal.nextOffset, 1⟩, rec⟩]
      lastSegment := ⟨wal.nextOffset, 1⟩
      nextOffset := wal.nextOffset + 1
      openRecords := wal.openRecords + 1
      openChunkId_lt := Nat.lt_succ_of_lt wal.openChunkId_lt }

/-- Close the open chunk and start a new one. -/
def rotate (checkpoint : RaftLogState T) (wal : MemoryWal T) : MemoryWal T :=
  { wal with
    written := wal.written ++ [⟨wal.nextOffset, ⟨wal.nextOffset, 1⟩, .checkpoint checkpoint⟩]
    closed := wal.closed ++ [⟨wal.openChunkId, checkpoint⟩]
    queue := wal.queue ++ [.appendFile]
    openChunkId := wal.nextOffset
    lastSegment := ⟨wal.nextOffset, 1⟩
    nextOffset := wal.nextOffset + 1
    openRecords := 1
    openChunkId_lt := Nat.lt_succ_self wal.nextOffset }

def tryCloseFullChunk (checkpoint : RaftLogState T) : EStateM IoError (MemoryWal T) Bool :=
  fun wal =>
    if wal.openRecords < wal.chunkMaxRecords then .ok false wal
    else .ok true (wal.rotate checkpoint)

def drainClosedChunksWhile (removable : RaftLogState T → Bool) (wal : MemoryWal T) :
    List ChunkId × MemoryWal T :=
  ((wal.closed.takeWhile fun c => removable c.state).map ClosedChunk.chunkId,
    { wal with closed := wal.closed.dropWhile fun c => removable c.state })

def send (request : MemoryWal T → WorkerRequest) : EStateM IoError (MemoryWal T) Unit :=
  modify fun wal => { wal with queue := wal.queue ++ [request wal] }

/-- The record at a place in a closed chunk. -/
def loadRecord (wal : MemoryWal T) (chunkId : ChunkId) (segment : Segment) :
    Except IoError (RaftLogRecord T) :=
  if wal.closed.any fun c => c.chunkId = chunkId then
    match wal.written.filter fun l => l.chunkId = chunkId ∧ l.segment = segment with
    | [l] => .ok l.record
    | _ => .error (.other "no such record")
  else .error (.other "not a closed chunk")

end MemoryWal

def memoryWal (T : Types) : ChunkedWal T where
  Wal := MemoryWal T
  Config := ℕ
  ClosedChunkReader := MemoryWal T
  openWal := MemoryWal.openWal
  append := MemoryWal.append
  openChunkId := MemoryWal.openChunkId
  lastSegment := MemoryWal.lastSegment
  tryCloseFullChunk := MemoryWal.tryCloseFullChunk
  drainClosedChunksWhile := MemoryWal.drainClosedChunksWhile
  sendPending sync _ := MemoryWal.send fun wal => .write sync wal.written.length
  sendRemoveChunks chunkIds := MemoryWal.send fun _ => .removeChunks chunkIds
  loadRecord := MemoryWal.loadRecord
  closedChunkReader := id
  readRecord := MemoryWal.loadRecord
  view wal := ⟨wal.written, wal.closed, wal.queue⟩

namespace MemoryWal

/-- A run of `applyAll` that succeeds is a replay. -/
theorem replay_of_applyAll {records pre : List (Located T)} {sm₀ sm sm' : RaftLogStateMachine T}
    (hpre : Replay sm₀ pre sm) (h : (applyAll records).run sm = .ok () sm') :
    Replay sm₀ (pre ++ records) sm' := by
  induction records generalizing pre sm with
  | nil =>
      obtain ⟨-, rfl⟩ := EStateM.Result.ok.inj h
      rwa [List.append_nil]
  | cons l records ih =>
      obtain ⟨_, sm₁, happly, hrest⟩ := EStateM.run_bind_eq_ok.mp h
      have hreplay := ih (Replay.record hpre happly) hrest
      rwa [List.append_assoc, List.singleton_append] at hreplay

/-- A run of `applyAll` that fails stops at a record that is not applied. -/
theorem failed_of_applyAll {records pre : List (Located T)} {sm₀ sm sm' : RaftLogStateMachine T}
    {failure : Failure T} (hpre : Replay sm₀ pre sm)
    (h : (applyAll records).run sm = .error failure sm') :
    ∃ front l rest sm₁ sm₂, pre ++ records = front ++ l :: rest ∧ Replay sm₀ front sm₁ ∧
      (RaftLogStateMachine.apply l.record l.chunkId l.segment).run sm₁ = .error failure sm₂ := by
  induction records generalizing pre sm with
  | nil => exact absurd h (by simp [applyAll])
  | cons l records ih =>
      rcases EStateM.run_bind_eq_error.mp h with hfailed | ⟨_, sm₁, happly, hrest⟩
      · exact ⟨pre, l, records, sm, sm', rfl, hpre, hfailed⟩
      · have hlater := ih (Replay.record hpre happly) hrest
        rwa [List.append_assoc, List.singleton_append] at hlater

theorem loadRecord_ok {wal : MemoryWal T} {chunkId : ChunkId} {segment : Segment}
    {rec : RaftLogRecord T} (h : wal.loadRecord chunkId segment = .ok rec) :
    ∀ l ∈ wal.written, l.chunkId = chunkId → l.segment = segment → l.record = rec := by
  intro l hl hchunk hsegment
  unfold loadRecord at h
  split_ifs at h
  split at h
  · next l' hone =>
    have hmem : l ∈ wal.written.filter fun l => l.chunkId = chunkId ∧ l.segment = segment :=
      List.mem_filter.mpr ⟨hl, by simp [hchunk, hsegment]⟩
    rw [hone] at hmem
    rw [List.mem_singleton.mp hmem]
    exact Except.ok.inj h
  · simp at h

theorem openWal_ok {chunkMaxRecords : ℕ} {disk : List (Located T)}
    {sm sm' : RaftLogStateMachine T} {wal : MemoryWal T}
    (h : (openWal chunkMaxRecords disk).run sm = .ok wal sm') :
    Opened (memoryWal T) sm disk wal sm' := by
  simp only [openWal, EStateM.run_bind, EStateM.run_get] at h
  cases happly : (applyAll disk).run sm with
  | error failure sm₁ => simp [happly] at h
  | ok _ sm₁ =>
      simp only [happly, EStateM.run_pure] at h
      obtain ⟨rfl, rfl⟩ := EStateM.Result.ok.inj h
      refine ⟨by simpa using replay_of_applyAll (Replay.nil sm) happly, rfl, Or.inr ⟨rfl, ?_⟩, ?_⟩
      · exact fun l hl => lt_endOffset hl
      · refine (List.filter_eq_self.mpr fun c hc => ?_).symm
        obtain ⟨k, hk, rfl⟩ := List.mem_map.mp hc
        obtain ⟨l, hl, hlk⟩ := List.mem_map.mp (List.mem_dedup.mp hk)
        have hlt := hlk ▸ lt_endOffset hl
        exact decide_eq_true (Nat.ne_of_lt hlt)

theorem openWal_error {chunkMaxRecords : ℕ} {disk : List (Located T)}
    {sm sm' : RaftLogStateMachine T} {failure : Failure T}
    (h : (openWal chunkMaxRecords disk).run sm = .error failure sm') :
    ∃ records l rest sm₁ sm₂, disk = records ++ l :: rest ∧ Replay sm records sm₁ ∧
      (RaftLogStateMachine.apply l.record l.chunkId l.segment).run sm₁ = .error failure sm₂ := by
  simp only [openWal, EStateM.run_bind, EStateM.run_get] at h
  cases happly : (applyAll disk).run sm with
  | ok _ sm₁ => simp [happly] at h
  | error failure' sm₁ =>
      simp only [happly] at h
      obtain ⟨rfl, -⟩ := EStateM.Result.error.inj h
      exact failed_of_applyAll (Replay.nil sm) happly

end MemoryWal

open MemoryWal in
theorem memoryWal_lawful (T : Types) : Lawful (memoryWal T) where
  append_ok := by
    intro rec wal wal' h
    obtain ⟨-, rfl⟩ := EStateM.Result.ok.inj h
    exact ⟨rfl, rfl⟩
  tryCloseFullChunk_false := by
    intro checkpoint wal wal' h
    simp only [memoryWal, tryCloseFullChunk, EStateM.run] at h
    split_ifs at h
    · obtain ⟨-, rfl⟩ := EStateM.Result.ok.inj h
      exact ⟨rfl, rfl, rfl⟩
    · exact absurd (EStateM.Result.ok.inj h).1 (by decide)
  tryCloseFullChunk_true := by
    intro checkpoint wal wal' h
    simp only [memoryWal, tryCloseFullChunk, EStateM.run] at h
    split_ifs at h
    · exact absurd (EStateM.Result.ok.inj h).1 (by decide)
    · obtain ⟨-, rfl⟩ := EStateM.Result.ok.inj h
      exact ⟨wal.openChunkId_lt, [.appendFile], by simp, by simp, rfl⟩
  drainClosedChunksWhile_eq := by
    intro removable wal wal' chunkIds h
    obtain ⟨rfl, rfl⟩ := Prod.mk.inj h
    exact ⟨rfl, rfl, rfl, rfl⟩
  sendPending_ok := by
    intro sync callback wal wal' h
    obtain ⟨-, rfl⟩ := EStateM.Result.ok.inj h
    exact ⟨rfl, rfl, rfl⟩
  sendRemoveChunks_ok := by
    intro chunkIds wal wal' h
    obtain ⟨-, rfl⟩ := EStateM.Result.ok.inj h
    exact ⟨rfl, rfl, rfl⟩
  loadRecord_ok := loadRecord_ok
  readRecord_ok := loadRecord_ok
  openWal_ok _ h := openWal_ok h
  openWal_error h := Or.inr (openWal_error h)

end RaftLogStore
