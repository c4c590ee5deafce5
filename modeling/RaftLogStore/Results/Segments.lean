import RaftLogStore.Journal.Refinement
import RaftLogStore.Model.Simulation

/-!
# The segment a call returns

A call that writes returns "a Segment representing the written data region".
`append_and_apply` reads the last segment of the WAL twice: once for the log map, right after
the record is written, and once for the caller, after the open chunk may have been closed.  In a
new chunk the last segment is that of the checkpoint it begins with.

So the returned segment is the written one exactly as long as the last record of the call does
not fill the open chunk (`returned_segment_iff`).
-/

namespace RaftLogStore

open RaftLog

variable {T : Types} {W : ChunkedWal T}

/-- The calls that write a record whenever they are accepted.  A `purge` below `purged` writes
none. -/
def Op.AlwaysWrites : Op T → Prop
  | .append entries => entries ≠ []
  | .purge _ => False
  | .flush _ _ => False
  | _ => True

/-- The last record that a call on `s` writes, and the store `s₁` it is written to. -/
def Op.LastRecord (op : Op T) (s s₁ : RaftLog W) (rec : RaftLogRecord T) : Prop :=
  match op with
  | .append entries => ∃ front logId payload, entries = front ++ [(logId, payload)] ∧
      (appendLoop front).run s = .ok () s₁ ∧ rec = .action (.append logId payload)
  | op => s₁ = s ∧ op.Writes s rec

/-- `segment` is where `rec`, written to the store `s₁`, lies in the store `s'` after the call.
If it is an entry, the log map says so as well. -/
structure WrittenAt (s₁ s' : RaftLog W) (rec : RaftLogRecord T) (segment : Segment) : Prop where
  record : ∃ l, (W.view s'.wal).written[(W.view s₁.wal).written.length]? = some l ∧
    l.record = rec ∧ l.segment = segment
  entry {logId : T.LogId} {payload : T.LogPayload} : rec = .action (.append logId payload) →
    ∃ d, s'.stateMachine.log.get (T.logIndex logId) = some d ∧ d.logId = logId ∧
      d.recordSegment = segment

/-- The checkpoint that begins a new chunk does not lie where the record that filled the chunk
before lies. -/
def SegmentsApart (W : ChunkedWal T) : Prop :=
  ∀ rec checkpoint wal wal₁ wal₂, (W.append rec).run wal = .ok () wal₁ →
    (W.tryCloseFullChunk checkpoint).run wal₁ = .ok true wal₂ →
    W.lastSegment wal₂ ≠ W.lastSegment wal₁

/-! ## One record -/

theorem lastSegment_bufferRemovableChunks (hW : Lawful W) (s : RaftLog W) :
    W.lastSegment s.bufferRemovableChunks.wal = W.lastSegment s.wal := by
  unfold bufferRemovableChunks
  split
  · rfl
  · exact (hW.drainClosedChunksWhile_eq rfl).2.1

/-- The place of an accepted record, and the segment that is returned for it. -/
theorem place_of_appendAndApply (hW : Lawful W) (hapart : SegmentsApart W)
    {rec : RaftLogRecord T} {s s' : RaftLog W} {segment : Segment}
    (h : (appendAndApply rec).run s = .ok segment s') :
    ∃ l, (W.view s'.wal).written[(W.view s.wal).written.length]? = some l ∧ l.record = rec ∧
      (RaftLogStateMachine.apply rec l.chunkId l.segment).run s.stateMachine =
        .ok () s'.stateMachine ∧
      (l.segment = segment ↔ fillsChunk s rec = false) := by
  obtain ⟨-, wal₁, sm, closed, wal₂, happend, happly, hclose, rfl, rfl⟩ := appendAndApply_ok h
  have hfills := fillsChunk_eq happend happly hclose
  obtain ⟨-, hview₁⟩ := hW.append_ok happend
  refine ⟨⟨W.openChunkId wal₁, W.lastSegment wal₁, rec⟩, ?_, rfl, ?_, ?_⟩
  · cases closed with
    | false =>
        obtain ⟨-, -, hview₂⟩ := hW.tryCloseFullChunk_false hclose
        simp [afterRecord, hview₂, hview₁]
    | true =>
        obtain ⟨-, requests, -, -, hview₂⟩ := hW.tryCloseFullChunk_true hclose
        simp [afterRecord, written_bufferRemovableChunks hW, hview₂, hview₁]
  · rw [stateMachine_afterRecord]
    exact happly
  · rw [hfills]
    cases closed with
    | false =>
        -- the second reading is the first one
        have hsame := (hW.tryCloseFullChunk_false hclose).2.1
        exact iff_of_true hsame.symm rfl
    | true =>
        have hmoved := hapart rec sm.checkpoint s.wal wal₁ wal₂ happend hclose
        refine iff_of_false (fun heq => hmoved ?_) (by simp)
        calc W.lastSegment wal₂
            = W.lastSegment (s.afterRecord wal₂ sm true).wal := by
              simp [afterRecord, lastSegment_bufferRemovableChunks hW]
          _ = W.lastSegment wal₁ := heq.symm

/-- The segment returned for a record is where it lies, if the record leaves the chunk open. -/
theorem writtenAt_iff (hW : Lawful W) (hapart : SegmentsApart W) {rec : RaftLogRecord T}
    {s s' : RaftLog W} {segment : Segment} (h : (appendAndApply rec).run s = .ok segment s') :
    WrittenAt s s' rec segment ↔ fillsChunk s rec = false := by
  obtain ⟨l, hl, hrecord, happly, hiff⟩ := place_of_appendAndApply hW hapart h
  rw [← hiff]
  constructor
  · intro hwritten
    obtain ⟨l', hl', -, hsegment⟩ := hwritten.record
    rwa [Option.some.inj (hl'.symm.trans hl)] at hsegment
  · intro hsegment
    refine ⟨⟨l, hl, hrecord, hsegment⟩, ?_⟩
    rintro logId payload rfl
    have hlog := (RaftLogStateMachine.apply_eq_ok.mp happly).1
    refine ⟨⟨logId, l.chunkId, l.segment⟩, ?_, rfl, hsegment⟩
    rw [← Except.ok.inj hlog]
    exact OrderedMap.get_insert_self _ _ _

/-! ## The calls -/

theorem run_of_returned {x : Method W Segment} {s s' : RaftLog W} {segment : Segment}
    (h : (some <$> x : Method W (Option Segment)).run s = .ok (some segment) s') :
    x.run s = .ok segment s' := by
  obtain ⟨a, hrun, ha⟩ := EStateM.run_map_eq_ok.mp h
  rwa [Option.some.inj ha] at hrun

/-- An accepted call that always writes has written its last record with the segment it
returns. -/
theorem lastRecord_of_returned {op : Op T} (hop : op.AlwaysWrites) {s s' : RaftLog W}
    {segment : Segment} (h : op.returned.run s = .ok (some segment) s') :
    ∃ s₁ rec, op.LastRecord s s₁ rec ∧ (appendAndApply rec).run s₁ = .ok segment s' := by
  cases op with
  | saveVote vote => exact ⟨s, _, ⟨rfl, rfl⟩, run_of_returned h⟩
  | saveUserData userData => exact ⟨s, _, ⟨rfl, rfl⟩, run_of_returned h⟩
  | commit logId => exact ⟨s, _, ⟨rfl, rfl⟩, run_of_returned h⟩
  | append entries =>
      obtain ⟨front, ⟨logId, payload⟩, rfl⟩ := List.eq_nil_or_concat' entries |>.resolve_left hop
      have hrun := run_of_returned h
      rw [append, EStateM.run_bind_eq_ok] at hrun
      obtain ⟨_, s₂, hloop, hlast⟩ := hrun
      obtain ⟨hreturned, rfl⟩ := EStateM.Result.ok.inj hlast
      obtain ⟨s₁, segment₁, hfront, hrec⟩ := appendLoop_concat_ok hloop
      refine ⟨s₁, _, ⟨front, logId, payload, rfl, hfront, rfl⟩, ?_⟩
      -- `append` reads the last segment once more, in the same store
      obtain ⟨-, -, -, -, -, -, -, -, -, hsegment₁⟩ := appendAndApply_ok hrec
      rw [hrec, hsegment₁, ← hreturned]
  | truncate index =>
      have hrun := run_of_returned h
      simp only [truncate, EStateM.run_bind, EStateM.run_get] at hrun
      cases hkeep : s.truncateKeep index.toNat with
      | error failure => simp [hkeep] at hrun
      | ok keep =>
          simp only [hkeep, EStateM.run_ofExcept_ok] at hrun
          exact ⟨s, _, ⟨rfl, keep, hkeep, rfl⟩, hrun⟩
  | purge upto => exact hop.elim
  | updateState state =>
      have hrun := run_of_returned h
      simp only [updateState, EStateM.run_bind, EStateM.run_get] at hrun
      cases hcheck : s.stateMachine.checkCheckpoint state with
      | error failure => simp [hcheck] at hrun
      | ok _ =>
          simp only [hcheck, EStateM.run_ofExcept_ok] at hrun
          exact ⟨s, _, ⟨rfl, hcheck, rfl⟩, hrun⟩
  | flush sync callback => exact hop.elim

/-- Whatever an accepted call returns is the segment of the last record it has written, and for
an entry the one in the log map, exactly if that record does not fill the open chunk. -/
theorem returned_segment_iff (hW : Lawful W) (hapart : SegmentsApart W) {op : Op T}
    (hop : op.AlwaysWrites) {s s' : RaftLog W} {segment : Segment}
    (h : op.returned.run s = .ok (some segment) s') :
    ∃ s₁ rec, op.LastRecord s s₁ rec ∧
      (WrittenAt s₁ s' rec segment ↔ fillsChunk s₁ rec = false) := by
  obtain ⟨s₁, rec, hlast, hrec⟩ := lastRecord_of_returned hop h
  exact ⟨s₁, rec, hlast, writtenAt_iff hW hapart hrec⟩

theorem memoryWal_segmentsApart (T : Types) : SegmentsApart (memoryWal T) := by
  intro rec checkpoint wal wal₁ wal₂ happend hclose
  obtain ⟨-, rfl⟩ := EStateM.Result.ok.inj happend
  simp only [memoryWal, MemoryWal.tryCloseFullChunk, EStateM.run] at hclose
  split_ifs at hclose
  · exact absurd (EStateM.Result.ok.inj hclose).1 (by decide)
  · obtain ⟨-, rfl⟩ := EStateM.Result.ok.inj hclose
    simp [memoryWal, MemoryWal.rotate]

/-- A store with one entry, on chunks of `n` records. -/
def oneEntry (n : ℕ) : Option (System (memoryWal (exampleTypes true))) :=
  System.simulate AnyCall (chunksOfSize true n) [.call (.append [(⟨1, 0⟩, 5)])]

def secondEntry : List (TermIndex × Fin (2 ^ 64)) := [(⟨1, 1⟩, 6)]

/-- Here the second entry fills the chunk. -/
def almostFullSystem : System (memoryWal (exampleTypes true)) :=
  (oneEntry 3).get (by decide +kernel)

/-- The entry lies at `2`, and the caller is told of the checkpoint behind it. -/
theorem returned_segment_iff_almostFullSystem :
    System.Reachable AnyCall almostFullSystem ∧
      ∃ segment s', (append secondEntry).run almostFullSystem.store = .ok segment s' ∧
        segment = ⟨3, 1⟩ ∧
        (s'.stateMachine.log.get 1).map LogData.recordSegment = some ⟨2, 1⟩ :=
  ⟨System.reachable_get _, by decide +kernel⟩

/-- Here there is room for more. -/
def halfFullSystem : System (memoryWal (exampleTypes true)) :=
  (oneEntry 4).get (by decide +kernel)

theorem returned_segment_iff_halfFullSystem :
    ∃ s', WrittenAt halfFullSystem.store s' (.action (.append ⟨1, 1⟩ 6)) ⟨2, 1⟩ := by
  have hrun : ∃ segment s', (Op.append secondEntry).returned.run halfFullSystem.store =
      .ok segment s' ∧ segment = some ⟨2, 1⟩ := by decide +kernel
  have hop : (Op.append secondEntry : Op (exampleTypes true)).AlwaysWrites := by
    simp [Op.AlwaysWrites, secondEntry]
  obtain ⟨segment, s', hrun, rfl⟩ := hrun
  obtain ⟨s₁, rec, hlast, hiff⟩ :=
    returned_segment_iff (memoryWal_lawful _) (memoryWal_segmentsApart _) hop hrun
  obtain ⟨front, logId, payload, hentries, hfront, rfl⟩ := hlast
  -- the only entry is the last one
  have hsplit : [] ++ secondEntry = front ++ [(logId, payload)] := hentries
  obtain ⟨rfl, hentry⟩ := List.append_inj' hsplit rfl
  obtain ⟨rfl, rfl⟩ := Prod.mk.inj (List.singleton_inj.mp hentry)
  obtain rfl := (EStateM.Result.ok.inj hfront).2
  exact ⟨s', hiff.mpr (by decide +kernel)⟩

end RaftLogStore
