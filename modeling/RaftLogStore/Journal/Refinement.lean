import RaftLogStore.Journal.Basic
import RaftLogStore.Store.Calls

/-!
# Every call is a run of journal steps

The calls of the store, executed as the code executes them, refine the journal: what a
completed call does to the journal of the store is a run of journal steps, and the snapshots
of that run are the ones recorded for the call (`completes_steps`).
-/

namespace RaftLogStore

open RaftLog

variable {T : Types} {W : ChunkedWal T} {G : Journal T → RaftLogRecord T → Prop}

namespace Journal

/-- A run of steps with all the snapshots it adds. -/
def Steps (G : Journal T → RaftLogRecord T → Prop) (j : Journal T)
    (snapshots : List (Snapshot T)) (j' : Journal T) : Prop :=
  ∃ added, Transition.Run (Step G) j added j' ∧ added.flatten = snapshots

theorem Steps.refl (j : Journal T) : Steps G j [] j := ⟨[], Transition.Run.nil j, rfl⟩

theorem Steps.single {j j' : Journal T} {snapshots : List (Snapshot T)}
    (h : Step G j snapshots j') : Steps G j snapshots j' :=
  ⟨[snapshots], Transition.Run.single h, by simp⟩

theorem Steps.trans {j j' j'' : Journal T} {snapshots snapshots' : List (Snapshot T)}
    (h : Steps G j snapshots j') (h' : Steps G j' snapshots' j'') :
    Steps G j (snapshots ++ snapshots') j'' := by
  obtain ⟨added, hrun, rfl⟩ := h
  obtain ⟨added', hrun', rfl⟩ := h'
  exact ⟨added ++ added', hrun.trans hrun', by simp⟩

theorem Steps.invariant {I : Journal T → List (Snapshot T) → Prop}
    (hstep : ∀ j hist added j', I j hist → Step G j added j' → I j' (hist ++ added))
    {j j' : Journal T} {snapshots hist : List (Snapshot T)} (h : Steps G j snapshots j')
    (hj : I j hist) : I j' (hist ++ snapshots) := by
  obtain ⟨added, hrun, rfl⟩ := h
  exact run_invariant hstep hrun hj

/-- The same for an invariant of the journal alone. -/
theorem Steps.journal_invariant {I : Journal T → Prop}
    (hstep : ∀ j added j', I j → Step G j added j' → I j') {j j' : Journal T}
    {snapshots : List (Snapshot T)} (h : Steps G j snapshots j') (hj : I j) : I j' := by
  obtain ⟨added, hrun, -⟩ := h
  exact hrun.invariant hstep hj

/-- A relation that each record establishes between the state before and after it, a run
establishes between its ends. -/
theorem Steps.state_rel {R : RaftLogState T → RaftLogState T → Prop} (hrefl : ∀ st, R st st)
    (htrans : ∀ st st' st'', R st st' → R st' st'' → R st st'')
    (hwrite : ∀ j rec, G j rec → j.state.check rec = .ok () → R j.state (j.state.update rec))
    {j j' : Journal T} {snapshots : List (Snapshot T)} (h : Steps G j snapshots j') :
    R j.state j'.state := by
  refine h.journal_invariant (I := fun j' => R j.state j'.state) ?_ (hrefl _)
  intro j₁ added j₂ hR hstep
  cases hstep with
  | write hg _ hcheck _ _ => exact htrans _ _ _ hR (hwrite _ _ hg hcheck)
  | _ => exact hR

/-- What a run writes is what its snapshots say. -/
theorem Steps.written {j j' : Journal T} {snapshots : List (Snapshot T)}
    (h : Steps G j snapshots j') : j'.written = j.written ++ snapshots.map Snapshot.located := by
  have hinv : j'.written = j.written ++ ([] ++ snapshots).map Snapshot.located :=
    Steps.invariant (I := fun j' hist => j'.written = j.written ++ hist.map Snapshot.located)
      (fun j₁ hist added j₂ hI hstep => by cases hstep <;> simp [hI]) h (by simp)
  simpa using hinv

end Journal

open Journal

/-! ## Writing one record -/

theorem bufferRemovableChunks_steps (hW : Lawful W) (s : RaftLog W) :
    Steps G s.journal [] s.bufferRemovableChunks.journal := by
  unfold bufferRemovableChunks
  cases hpurged : s.logState.purged with
  | none => exact Steps.refl _
  | some purged =>
      obtain ⟨hopen, -, hids, hview⟩ := hW.drainClosedChunksWhile_eq (Eq.refl
        (W.drainClosedChunksWhile (fun state => decide (state.last ≤ some purged)) s.wal))
      have hdrain : Step G s.journal [] _ := Step.drain hpurged
      convert Steps.single hdrain using 1
      simp only [journal, removable, retained, hopen, hids, hview]

/-- The snapshots between two stores, when it is known what was written. -/
theorem newSnapshots_eq {s s' : RaftLog W} {L : List (Located T)}
    (h : (W.view s'.wal).written = (W.view s.wal).written ++ L) :
    newSnapshots s s' = L.map fun l => ⟨l, s'.logState, s'.stateMachine.log⟩ := by
  simp only [newSnapshots, h, List.drop_left]

@[simp] theorem newSnapshots_self (s : RaftLog W) : newSnapshots s s = [] := by
  simp [newSnapshots]

@[simp] theorem logState_finish (op : Op T) (s : RaftLog W) :
    (op.finish s).logState = s.logState := by
  cases op with
  | purge upto => exact logState_bufferRemovableChunks s
  | _ => rfl

/-- The state after an accepted record. -/
theorem logState_appendAndApply {rec : RaftLogRecord T} {s s' : RaftLog W} {segment : Segment}
    (h : (appendAndApply rec).run s = .ok segment s') :
    s'.logState = s.logState.update rec := by
  obtain ⟨wal₁, -, happly⟩ := appendAndApply_applied h
  exact (RaftLogStateMachine.apply_eq_ok.mp happly).2.2.2

theorem written_bufferRemovableChunks (hW : Lawful W) (s : RaftLog W) :
    (W.view s.bufferRemovableChunks.wal).written = (W.view s.wal).written := by
  simpa using (bufferRemovableChunks_steps (G := fun _ _ => True) hW s).written

theorem newSnapshots_bufferRemovableChunks (hW : Lawful W) (s s' : RaftLog W) :
    newSnapshots s s'.bufferRemovableChunks = newSnapshots s s' := by
  simp [newSnapshots, written_bufferRemovableChunks hW]

theorem openChunkId_bufferRemovableChunks (hW : Lawful W) (s : RaftLog W) :
    W.openChunkId s.bufferRemovableChunks.wal = W.openChunkId s.wal := by
  unfold bufferRemovableChunks
  split
  · rfl
  · exact (hW.drainClosedChunksWhile_eq rfl).1

/-- `s'` is `s` after the record `rec` has been written to the open chunk and applied, and the
chunk has been closed behind it if that filled it. -/
structure Wrote (rec : RaftLogRecord T) (s s' : RaftLog W) (l : Located T) : Prop where
  chunkId : l.chunkId = W.openChunkId s.wal
  log : RaftLogStateMachine.logAfter rec l.chunkId l.segment s.stateMachine.log =
    .ok s'.stateMachine.log
  cache : RaftLogStateMachine.cacheAfter rec s.stateMachine.payloadCache =
    .ok s'.stateMachine.payloadCache
  state : s'.logState = s.logState.update rec
  snapshots : W.openChunkId s'.wal = W.openChunkId s.wal ∧
      newSnapshots s s' = [⟨l, s'.logState, s'.stateMachine.log⟩] ∨
    W.openChunkId s.wal < W.openChunkId s'.wal ∧ ∃ checkpoint : Located T,
      checkpoint.chunkId = W.openChunkId s'.wal ∧
        newSnapshots s s' = [⟨l, s'.logState, s'.stateMachine.log⟩,
          ⟨checkpoint, s'.logState, s'.stateMachine.log⟩]

theorem wrote_of_appendAndApply (hW : Lawful W) {rec : RaftLogRecord T} {s s' : RaftLog W}
    {segment : Segment} (h : (appendAndApply rec).run s = .ok segment s') :
    ∃ l, Wrote rec s s' l := by
  have hstate := logState_appendAndApply h
  obtain ⟨-, wal₁, sm, closed, wal₂, happend, happly, hclose, rfl, -⟩ := appendAndApply_ok h
  obtain ⟨hopen₁, hview₁⟩ := hW.append_ok happend
  obtain ⟨hlog, hcache, -, -⟩ := RaftLogStateMachine.apply_eq_ok.mp happly
  refine ⟨⟨W.openChunkId wal₁, W.lastSegment wal₁, rec⟩, hopen₁, ?_, ?_, hstate, ?_⟩
  · cases closed <;> simpa [afterRecord] using hlog
  · cases closed <;> simpa [afterRecord] using hcache
  · cases closed with
    | false =>
        obtain ⟨hopen₂, -, hview₂⟩ := hW.tryCloseFullChunk_false hclose
        refine Or.inl ⟨hopen₂.trans hopen₁, ?_⟩
        exact newSnapshots_eq (L := [⟨W.openChunkId wal₁, W.lastSegment wal₁, rec⟩])
          (by simp [afterRecord, hview₂, hview₁])
    | true =>
        obtain ⟨hopen₂, requests, -, -, hview₂⟩ := hW.tryCloseFullChunk_true hclose
        have hopen : W.openChunkId (s.afterRecord wal₂ sm true).wal = W.openChunkId wal₂ :=
          openChunkId_bufferRemovableChunks hW _
        refine Or.inr ⟨?_, ⟨W.openChunkId wal₂, W.lastSegment wal₂, .checkpoint sm.logState⟩,
          hopen.symm, ?_⟩
        · rw [hopen, ← hopen₁]
          exact hopen₂
        · exact newSnapshots_eq
            (L := [⟨W.openChunkId wal₁, W.lastSegment wal₁, rec⟩,
              ⟨W.openChunkId wal₂, W.lastSegment wal₂, .checkpoint sm.logState⟩])
            (by simp [afterRecord, written_bufferRemovableChunks hW, hview₂, hview₁,
                RaftLogStateMachine.checkpoint])

/-- A drain behind the record changes none of this. -/
theorem Wrote.bufferRemovableChunks (hW : Lawful W) {rec : RaftLogRecord T} {s s' : RaftLog W}
    {l : Located T} (h : Wrote rec s s' l) : Wrote rec s s'.bufferRemovableChunks l where
  chunkId := h.chunkId
  log := by simpa using h.log
  cache := by simpa using h.cache
  state := by simpa using h.state
  snapshots := by
    simpa [newSnapshots_bufferRemovableChunks hW, openChunkId_bufferRemovableChunks hW]
      using h.snapshots

/-- What a run writes is what is new in the store, when each snapshot has its state and log map. -/
theorem newSnapshots_of_steps {s s' : RaftLog W} {snapshots : List (Snapshot T)}
    (h : Steps G s.journal snapshots s'.journal)
    (hlast : ∀ snap ∈ snapshots, snap.state = s'.logState ∧ snap.log = s'.stateMachine.log) :
    newSnapshots s s' = snapshots := by
  rw [newSnapshots_eq h.written, List.map_map]
  refine (List.map_congr_left fun snap hsnap => ?_).trans (List.map_id _)
  obtain ⟨hstate, hlog⟩ := hlast snap hsnap
  simp only [Function.comp_apply, ← hstate, ← hlog, id_eq]

/-- An accepted record goes to the open chunk. -/
theorem write_step (hW : Lawful W) {rec : RaftLogRecord T} {s : RaftLog W} {wal₁ : W.Wal}
    {sm : RaftLogStateMachine T} (hG : G s.journal rec)
    (hcheck : s.stateMachine.check rec = .ok ()) (happend : (W.append rec).run s.wal = .ok () wal₁)
    (happly : (RaftLogStateMachine.apply rec (W.openChunkId wal₁) (W.lastSegment wal₁)).run
      s.stateMachine = .ok () sm) :
    Step G s.journal [⟨⟨W.openChunkId wal₁, W.lastSegment wal₁, rec⟩, sm.logState, sm.log⟩]
      ({ s with wal := wal₁, stateMachine := sm } : RaftLog W).journal := by
  obtain ⟨hopen, hview⟩ := hW.append_ok happend
  obtain ⟨hlog, hcache, -, hstate⟩ := RaftLogStateMachine.apply_eq_ok.mp happly
  convert Step.write (l := ⟨W.openChunkId wal₁, W.lastSegment wal₁, rec⟩) hG hopen hcheck hlog
    hcache using 1
  · rw [hstate]
    rfl
  · simp [journal, hview, hopen, hstate]

/-- A full chunk is closed, and the next one begins with the state. -/
theorem rotate_step (hW : Lawful W) {s : RaftLog W} {wal₂ : W.Wal}
    (hclose : (W.tryCloseFullChunk s.stateMachine.checkpoint).run s.wal = .ok true wal₂) :
    Step G s.journal
      [⟨⟨W.openChunkId wal₂, W.lastSegment wal₂, .checkpoint s.logState⟩, s.logState,
        s.stateMachine.log⟩]
      ({ s with wal := wal₂ } : RaftLog W).journal := by
  obtain ⟨hopen, requests, hremovals, hwrites, hview⟩ := hW.tryCloseFullChunk_true hclose
  have hrotate : Step G s.journal _ _ :=
    Step.rotate (W.lastSegment wal₂) hopen hremovals fun sync upto hmem => by
      simpa [hview] using hwrites sync upto hmem
  convert hrotate using 1
  · rfl
  · simp [journal, hview, RaftLogStateMachine.checkpoint]

/-- A record that `append_and_apply` accepts is a write, a rotation behind it if that filled
the open chunk, and then a drain. -/
theorem appendAndApply_steps (hW : Lawful W) {rec : RaftLogRecord T} {s s' : RaftLog W}
    {segment : Segment} (h : (appendAndApply rec).run s = .ok segment s')
    (hG : s.logState.check rec = .ok () → G s.journal rec) :
    Steps G s.journal (newSnapshots s s') s'.journal := by
  obtain ⟨hcheck, wal₁, sm, closed, wal₂, happend, happly, hclose, rfl, -⟩ := appendAndApply_ok h
  have hwrite := write_step hW (hG hcheck) hcheck happend happly
  cases closed with
  | false =>
      obtain ⟨hopen₂, -, hview₂⟩ := hW.tryCloseFullChunk_false hclose
      have hsame : (s.afterRecord wal₂ sm false).journal =
          ({ s with wal := wal₁, stateMachine := sm } : RaftLog W).journal := by
        simp [afterRecord, journal, hview₂, hopen₂]
      rw [← hsame] at hwrite
      rw [newSnapshots_of_steps (Steps.single hwrite) (by simp [afterRecord, logState])]
      exact Steps.single hwrite
  | true =>
      have hrotate := rotate_step (G := G) hW
        (s := { s with wal := wal₁, stateMachine := sm }) hclose
      have hdrain := bufferRemovableChunks_steps (G := G) hW
        { s with wal := wal₂, stateMachine := sm }
      have hall : Steps G s.journal _ (s.afterRecord wal₂ sm true).journal :=
        ((Steps.single hwrite).trans (Steps.single hrotate)).trans hdrain
      rw [newSnapshots_of_steps hall (by simp [afterRecord, logState])]
      exact hall

/-! ## Calls -/

/-- Each record that `op` may write to `s` is one that `G` admits, if it is accepted.  An
`append` writes each entry to the store that the entries before it have led to. -/
def AppendGuarded (G : Journal T → RaftLogRecord T → Prop) :
    List (T.LogId × T.LogPayload) → RaftLog W → Prop
  | [], _ => True
  | (logId, payload) :: entries, s =>
      (s.logState.check (.action (.append logId payload)) = .ok () →
        G s.journal (.action (.append logId payload))) ∧
      ∀ segment s₁, (appendAndApply (.action (.append logId payload))).run s = .ok segment s₁ →
        AppendGuarded G entries s₁

@[inherit_doc AppendGuarded]
def Guarded (G : Journal T → RaftLogRecord T → Prop) (op : Op T) (s : RaftLog W) : Prop :=
  (∀ rec, op.Writes s rec → s.logState.check rec = .ok () → G s.journal rec) ∧
    ∀ entries, op = .append entries → AppendGuarded G entries s

/-- The entries of an `append` are admitted where all of them are admitted anywhere. -/
theorem appendGuarded_of_forall {entries : List (T.LogId × T.LogPayload)}
    (h : ∀ entry ∈ entries, ∀ j, G j (.action (.append entry.1 entry.2))) (s : RaftLog W) :
    AppendGuarded G entries s := by
  induction entries generalizing s with
  | nil => trivial
  | cons entry entries ih =>
      refine ⟨fun _ => h entry (by simp) _, fun _ s₁ _ => ih (fun e he => h e ?_) s₁⟩
      exact List.mem_cons_of_mem _ he

theorem guarded_of_forall (h : ∀ j rec, G j rec) (op : Op T) (s : RaftLog W) : Guarded G op s :=
  ⟨fun rec _ _ => h _ rec, fun _ _ => appendGuarded_of_forall (fun _ _ _ => h _ _) s⟩

theorem AppendGuarded.and {G' : Journal T → RaftLogRecord T → Prop}
    {entries : List (T.LogId × T.LogPayload)} {s : RaftLog W} (h : AppendGuarded G entries s)
    (h' : AppendGuarded G' entries s) :
    AppendGuarded (fun j rec => G j rec ∧ G' j rec) entries s := by
  induction entries generalizing s with
  | nil => trivial
  | cons entry entries ih =>
      exact ⟨fun hcheck => ⟨h.1 hcheck, h'.1 hcheck⟩,
        fun segment s₁ hrec => ih (h.2 segment s₁ hrec) (h'.2 segment s₁ hrec)⟩

theorem Guarded.and {G' : Journal T → RaftLogRecord T → Prop} {op : Op T} {s : RaftLog W}
    (h : Guarded G op s) (h' : Guarded G' op s) :
    Guarded (fun j rec => G j rec ∧ G' j rec) op s :=
  ⟨fun rec hwrites hcheck => ⟨h.1 rec hwrites hcheck, h'.1 rec hwrites hcheck⟩,
    fun entries heq => (h.2 entries heq).and (h'.2 entries heq)⟩

theorem guarded_true (op : Op T) (s : RaftLog W) : Guarded (fun _ _ => True) op s :=
  guarded_of_forall (fun _ _ => trivial) op s

theorem recorded_of_single {op : Op T} (hop : op.IsSingle) (s : RaftLog W) :
    op.recorded s =
      match op.exec.run s with
      | .ok _ s' => newSnapshots s s'
      | .error _ s' => newSnapshots s s' := by
  cases op with
  | append entries => exact hop.elim
  | _ => rfl

theorem recorded_of_completes {op : Op T} {s s' : RaftLog W} (hop : op.IsSingle)
    (h : Completes op s s') : op.recorded s = newSnapshots s s' := by
  rw [recorded_of_single hop]
  rcases h with h | ⟨e, h⟩ <;> rw [h]

theorem appendLoop_steps (hW : Lawful W) {entries : List (T.LogId × T.LogPayload)}
    {s s' : RaftLog W} {rejection : Option (RaftLogStateError T)}
    (h : AppendEnds entries s s' rejection) (hG : AppendGuarded G entries s) :
    Steps G s.journal (recordedAppend entries s) s'.journal := by
  induction h with
  | done s => exact Steps.refl _
  | next hrec _ ih =>
      simp only [recordedAppend, hrec]
      exact (appendAndApply_steps hW hrec hG.1).trans (ih (hG.2 _ _ hrec))
  | @rejected _ _ _ s _ hrec =>
      simp only [recordedAppend, hrec]
      simpa using Steps.refl s.journal

theorem flush_steps (hW : Lawful W) {sync : Bool} {callback : Option T.Callback}
    {s s' : RaftLog W} (h : (flush sync callback).run s = .ok () s') :
    Steps G s.journal [] s'.journal ∧ newSnapshots s s' = [] := by
  obtain ⟨wal₁, hsend, hcases⟩ := flush_ok h
  obtain ⟨hopen₁, -, hview₁⟩ := hW.sendPending_ok hsend
  rcases hcases with ⟨-, rfl⟩ | ⟨rfl, wal₂, hremove, rfl⟩
  · refine ⟨?_, by simp [newSnapshots, hview₁]⟩
    convert Steps.single (Step.send (j := s.journal) sync) using 1
    simp [journal, hview₁, hopen₁]
  · obtain ⟨hopen₂, -, hview₂⟩ := hW.sendRemoveChunks_ok hremove
    refine ⟨?_, by simp [newSnapshots, hview₂, hview₁]⟩
    convert Steps.single (Step.sendAndRemove (j := s.journal)) using 1
    simp [journal, hview₂, hview₁, hopen₂, hopen₁]

/-- A completed call is a run of journal steps. -/
theorem completes_steps (hW : Lawful W) {op : Op T} {s s' : RaftLog W} (hG : Guarded G op s)
    (h : Completes op s s') : Steps G s.journal (op.recorded s) s'.journal := by
  by_cases hop : op.IsSingle
  · rw [recorded_of_completes hop h]
    rcases completes_single hop h with rfl | ⟨rec, segment, s₁, hwrites, hrec, hs'⟩
    · simpa using Steps.refl s'.journal
    · have hsteps := appendAndApply_steps hW hrec (hG.1 rec hwrites)
      rcases hs' with rfl | rfl
      · exact hsteps
      · rw [newSnapshots_bufferRemovableChunks hW]
        simpa using hsteps.trans (bufferRemovableChunks_steps hW s₁)
  · cases op with
    | append entries =>
        obtain ⟨rejection, hends⟩ := appendEnds_of_completes h
        exact appendLoop_steps hW hends (hG.2 entries rfl)
    | flush sync callback =>
        rcases h with h | ⟨e, h⟩
        · obtain ⟨hsteps, hnew⟩ := flush_steps (G := G) hW h
          simp only [Op.recorded, h, hnew]
          exact hsteps
        · obtain ⟨e', he'⟩ := flush_error h
          exact absurd he' (by simp)
    | _ => exact absurd trivial hop

end RaftLogStore
