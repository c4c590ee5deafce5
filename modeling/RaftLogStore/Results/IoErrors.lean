import RaftLogStore.Store.FallibleStore
import RaftLogStore.Results.SingleWrite
import RaftLogStore.Results.StoreInvariant
import RaftLogStore.Results.Totality
import RaftLogStore.Results.Truncation

/-!
# Errors of the WAL

A call fails when the WAL does, because the disk is full for instance, and the store may be used
all the same.  What the WAL holds by then is its own affair.  What the store has in memory is
not: `append_and_apply` changes the state machine between two calls of the WAL, and nothing takes
a change back.  So a call that ends in such an error has applied some of its records, from the
first on, and each of them whole (`applied_of_ends`).

## Strategy
1. `Applied` says what records do to the state machine, wherever they are in the WAL, and
   `Op.records` are the records of a call.
2. Each record keeps the store `Sound`, and so does whatever part of a call is applied.
3. By induction a run keeps it, with as many errors of the WAL as there may be.
-/

namespace RaftLogStore

open RaftLog Transition

variable {T : Types} {W : ChunkedWal T}

/-- The records are applied one after the other, each at some place in the WAL. -/
inductive Applied :
    RaftLogStateMachine T → List (RaftLogRecord T) → RaftLogStateMachine T → Prop
  | nil (sm : RaftLogStateMachine T) : Applied sm [] sm
  | cons {sm sm₁ sm' : RaftLogStateMachine T} {rec : RaftLogRecord T}
      {records : List (RaftLogRecord T)} {chunkId : ChunkId} {segment : Segment} :
      (RaftLogStateMachine.apply rec chunkId segment).run sm = .ok () sm₁ →
      Applied sm₁ records sm' → Applied sm (rec :: records) sm'

theorem Applied.eq_of_nil {sm sm' : RaftLogStateMachine T} (h : Applied sm [] sm') : sm' = sm := by
  cases h
  rfl

theorem Applied.of_single {sm sm' : RaftLogStateMachine T} {rec : RaftLogRecord T}
    (h : Applied sm [rec] sm') :
    ∃ chunkId segment, (RaftLogStateMachine.apply rec chunkId segment).run sm = .ok () sm' := by
  cases h with
  | cons happly hrest =>
      obtain rfl := hrest.eq_of_nil
      exact ⟨_, _, happly⟩

/-- The records that the call writes to `s` if all of them are accepted and the WAL does not
fail. -/
def Op.records (op : Op T) (s : RaftLog W) : List (RaftLogRecord T) :=
  match op with
  | .saveVote vote => [.action (.saveVote vote)]
  | .saveUserData userData => [.checkpoint { s.logState with userData := userData }]
  | .append entries => entries.map fun entry => .action (.append entry.1 entry.2)
  | .truncate index =>
      match s.truncateKeep index.toNat with
      | .ok keep => [.action (.truncateAfter keep)]
      | .error _ => []
  | .purge upto =>
      match T.nextLogIndex s.logState.purged with
      | .ok next => if T.logIndex upto < next then [] else [.action (.purgeUpto upto)]
      | .error _ => []
  | .commit logId => [.action (.commit logId)]
  | .updateState state =>
      match s.stateMachine.checkCheckpoint state with
      | .ok _ => [.checkpoint state]
      | .error _ => []
  | .flush _ _ => []

/-! ## One call -/

/-- A failure leaves the state machine alone, or comes after the record is applied. -/
theorem applied_of_failed {rec : RaftLogRecord T} {s s' : RaftLog W} {failure : Failure T}
    (hne : failure ≠ .panic) (h : (appendAndApply rec).run s = .error failure s') :
    s'.stateMachine = s.stateMachine ∨ ∃ chunkId segment,
      (RaftLogStateMachine.apply rec chunkId segment).run s.stateMachine =
        .ok () s'.stateMachine := by
  rw [run_appendAndApply] at h
  split at h
  · obtain ⟨-, rfl⟩ := EStateM.Result.error.inj h
    exact Or.inl rfl
  · next hcheck =>
    split at h
    · obtain ⟨-, rfl⟩ := EStateM.Result.error.inj h
      exact Or.inl rfl
    · next wal₁ _ =>
      split at h
      · next happly =>
        obtain ⟨rfl, -⟩ := EStateM.Result.error.inj h
        exact absurd (RaftLogStateMachine.apply_eq_error_of_check hcheck happly) hne
      · next sm happly =>
        split at h
        · -- the record is applied, and its chunk cannot be closed
          obtain ⟨-, rfl⟩ := EStateM.Result.error.inj h
          exact Or.inr ⟨_, _, happly⟩
        · simp at h

theorem records_of_writes {op : Op T} {s : RaftLog W} {rec : RaftLogRecord T}
    (h : op.Writes s rec) : op.records s = [rec] := by
  cases op with
  | append entries => exact h.elim
  | flush sync callback => exact h.elim
  | truncate index =>
      obtain ⟨keep, hkeep, rfl⟩ := h
      simp [Op.records, hkeep]
  | purge upto =>
      obtain ⟨next, hnext, hlt, rfl⟩ := h
      simp [Op.records, hnext, hlt]
  | updateState state =>
      obtain ⟨hcheck, rfl⟩ := h
      simp [Op.records, hcheck]
  | _ => rw [h]; rfl

theorem records_of_noRecord {op : Op T} {s : RaftLog W} (h : NoRecord s op) :
    op.records s = [] := by
  cases h with
  | truncate hkeep _ => simp [Op.records, hkeep]
  | updateState hcheck _ => simp [Op.records, hcheck]
  | purgeFails hnext _ => simp [Op.records, hnext]
  | purged hnext hlt _ => simp [Op.records, hnext, hlt]

/-- A `flush` leaves the state machine alone, even if it fails. -/
theorem stateMachine_flush {sync : Bool} {callback : Option T.Callback} {s s' : RaftLog W}
    (h : Ends (.flush sync callback) s s') : s'.stateMachine = s.stateMachine := by
  rcases h with hok | ⟨failure, -, herror⟩
  · obtain ⟨wal₁, -, ⟨-, rfl⟩ | ⟨-, wal₂, -, rfl⟩⟩ := flush_ok hok
    · rfl
    · rfl
  · obtain ⟨e, wal', -, ⟨-, rfl⟩ | ⟨wal₁, -, -, rfl⟩⟩ := flush_failed herror
    · rfl
    · rfl

/-- What a call has applied: the first of its records, and all of them if it has returned. -/
structure AppliedPart (op : Op T) (s s' : RaftLog W) (records : List (RaftLogRecord T)) :
    Prop where
  first : records <+: op.records s
  applied : Applied s.stateMachine records s'.stateMachine
  all : op.exec.run s = .ok () s' → records = op.records s

theorem appliedPart_of_unchanged {op : Op T} {s s' : RaftLog W}
    (h : s'.stateMachine = s.stateMachine) (hall : op.exec.run s = .ok () s' → op.records s = []) :
    AppliedPart op s s' [] :=
  ⟨List.nil_prefix, h ▸ Applied.nil _, fun hok => (hall hok).symm⟩

theorem applied_single {op : Op T} {s s' : RaftLog W} (hop : op.IsSingle) (h : Ends op s s') :
    ∃ records, AppliedPart op s s' records := by
  rcases ends_single hop h with ⟨hsame, hnone⟩ | ⟨rec, hwrites, hrecord⟩
  · have hrecords := records_of_noRecord (noRecord_of_single hop hnone)
    exact ⟨[], appliedPart_of_unchanged (by rw [hsame]) fun _ => hrecords⟩
  · have hrecords := records_of_writes hwrites
    have hone {chunkId : ChunkId} {segment : Segment}
        (happly : (RaftLogStateMachine.apply rec chunkId segment).run s.stateMachine =
          .ok () s'.stateMachine) : AppliedPart op s s' [rec] :=
      ⟨hrecords ▸ List.prefix_refl _, Applied.cons happly (Applied.nil _), fun _ => hrecords.symm⟩
    rcases hrecord with ⟨segment, s₁, hrec, rfl⟩ | ⟨failure, hne, hrec⟩
    · obtain ⟨wal₁, -, happly⟩ := appendAndApply_applied hrec
      have hfinish : (op.finish s₁).stateMachine = s₁.stateMachine := by
        cases op with
        | purge upto => exact stateMachine_bufferRemovableChunks s₁
        | _ => rfl
      exact ⟨[rec], hone (hfinish ▸ happly)⟩
    · have hnot : op.exec.run s ≠ .ok () s' := by simp [run_exec_of_writes hwrites, hrec]
      rcases applied_of_failed hne hrec with hsame | ⟨chunkId, segment, happly⟩
      · exact ⟨[], appliedPart_of_unchanged hsame fun hok => absurd hok hnot⟩
      · exact ⟨[rec], hone happly⟩

theorem Applied.append {sm sm₁ sm' : RaftLogStateMachine T}
    {records records' : List (RaftLogRecord T)} (h : Applied sm records sm₁)
    (h' : Applied sm₁ records' sm') : Applied sm (records ++ records') sm' := by
  induction h with
  | nil => exact h'
  | cons happly _ ih => exact .cons happly (ih h')

theorem applied_of_appendEnds {entries : List (T.LogId × T.LogPayload)} {s s' : RaftLog W}
    {rejection : Option (RaftLogStateError T)} (h : AppendEnds entries s s' rejection)
    (hnone : rejection = none) :
    Applied s.stateMachine (entries.map fun entry => .action (.append entry.1 entry.2))
      s'.stateMachine := by
  induction h with
  | done s => exact .nil _
  | next hrec _ ih =>
      obtain ⟨wal₁, -, happly⟩ := appendAndApply_applied hrec
      exact .cons happly (ih hnone)
  | rejected _ => simp at hnone

/-- The loop of `append` stops between two entries. -/
theorem applied_append {entries : List (T.LogId × T.LogPayload)} {s s' : RaftLog W}
    (h : Ends (.append entries) s s') : ∃ records, AppliedPart (.append entries) s s' records := by
  simp only [Ends, run_exec_append] at h
  rcases h with hok | ⟨failure, hne, herror⟩
  · have happlied := applied_of_appendEnds (appendEnds_iff.mpr hok) rfl
    exact ⟨_, List.prefix_refl _, happlied, fun _ => rfl⟩
  · have hnot : (Op.append entries).exec.run s ≠ .ok () s' := by
      rw [run_exec_append, herror]
      simp
    obtain ⟨front, logId, payload, rest, s₁, rfl, hfront, hrec⟩ := appendLoop_failed herror
    have hfirst := applied_of_appendEnds hfront rfl
    rcases applied_of_failed hne hrec with hsame | ⟨chunkId, segment, happly⟩
    · exact ⟨_, by simp [Op.records], hsame ▸ hfirst, fun hok => absurd hok hnot⟩
    · have hlast : Applied s₁.stateMachine [.action (.append logId payload)] s'.stateMachine :=
        .cons happly (.nil _)
      exact ⟨_, by simp [Op.records], hfirst.append hlast, fun hok => absurd hok hnot⟩

/-- Whatever the WAL does, a call that does not panic stops between two of its records. -/
theorem applied_of_ends {op : Op T} {s s' : RaftLog W} (h : Ends op s s') :
    ∃ records, AppliedPart op s s' records := by
  by_cases hop : op.IsSingle
  · exact applied_single hop h
  · cases op with
    | append entries => exact applied_append h
    | flush sync callback =>
        exact ⟨[], appliedPart_of_unchanged (stateMachine_flush h) fun _ => rfl⟩
    | _ => exact absurd trivial hop

/-! ## The invariant -/

/-- The map and the state describe one log, and the size of the cache covers what it holds. -/
structure Sound (sm : RaftLogStateMachine T) : Prop where
  agreement : Agreement sm.logState sm.log
  purged : PurgedLeLast sm.logState
  inOrder : StateInOrder sm.logState
  sized : sm.payloadCache.Sized

namespace Sound

theorem apply {sm sm' : RaftLogStateMachine T} {rec : RaftLogRecord T} {chunkId : ChunkId}
    {segment : Segment} (h : Sound sm) (hgood : Good sm.logState sm.log rec)
    (horder : RecordInOrder rec)
    (happly : (RaftLogStateMachine.apply rec chunkId segment).run sm = .ok () sm') : Sound sm' := by
  obtain ⟨hlog, hcache, hcheck, hstate⟩ := RaftLogStateMachine.apply_eq_ok.mp happly
  obtain ⟨hagree, hpurged⟩ := h.agreement.step h.purged hgood hcheck hlog
  have hadmits : AdmitsRecord (fun (_ : PayloadCache T) _ _ => True) sm.payloadCache rec :=
    admitsRecord_of_forall (fun _ _ _ => trivial) sm.payloadCache rec
  refine ⟨?_, ?_, ?_, sized_rule.cacheAfter h.sized hadmits hcache⟩
  · rwa [hstate]
  · rwa [hstate]
  · rw [hstate]
    exact h.inOrder.update horder hcheck

/-- The first of the entries of an `append`. -/
theorem entries {entries : List (T.LogId × T.LogPayload)} {sm sm' : RaftLogStateMachine T}
    {records : List (RaftLogRecord T)} (h : Sound sm)
    (hindex : ∀ entry ∈ entries, T.logIndex entry.1 < u64Max)
    (hfirst : records <+: entries.map fun entry => .action (.append entry.1 entry.2))
    (happlied : Applied sm records sm') : Sound sm' := by
  induction happlied generalizing entries with
  | nil => exact h
  | @cons sm _ _ _ _ _ _ happly _ ih =>
      cases entries with
      | nil => simp at hfirst
      | cons entry entries =>
          obtain ⟨rfl, hrest⟩ := List.cons_prefix_cons.mp hfirst
          have hgood : Good sm.logState sm.log (.action (.append entry.1 entry.2)) :=
            Or.inr h.inOrder.last
          refine ih (h.apply hgood (hindex entry (by simp)) happly) ?_ hrest
          exact fun e he => hindex e (List.mem_cons_of_mem _ he)

/-- A call leaves the store sound wherever it stops. -/
theorem ends {op : Op T} {s s' : RaftLog W} (h : Sound s.stateMachine) (hcall : ConsistentCall s op)
    (hends : Ends op s s') : Sound s'.stateMachine := by
  obtain ⟨records, hfirst, happlied, -⟩ := applied_of_ends hends
  by_cases hop : op.IsSingle
  · by_cases hwrites : ∃ rec, op.Writes s rec
    · obtain ⟨rec, hwrites⟩ := hwrites
      rw [records_of_writes hwrites] at hfirst
      rcases List.prefix_cons_iff.mp hfirst with rfl | ⟨rest, rfl, hrest⟩
      · exact happlied.eq_of_nil ▸ h
      · obtain rfl := List.prefix_nil.mp hrest
        obtain ⟨chunkId, segment, happly⟩ := happlied.of_single
        have hcheck : s.logState.check rec = .ok () :=
          (RaftLogStateMachine.apply_eq_ok.mp happly).2.2.1
        obtain ⟨hgood, horder⟩ := (hcall.guarded h.inOrder h.agreement).1 rec hwrites hcheck
        exact h.apply hgood horder happly
    · have hnone := noRecord_of_single hop fun rec hrec => hwrites ⟨rec, hrec⟩
      rw [records_of_noRecord hnone] at hfirst
      obtain rfl := List.prefix_nil.mp hfirst
      exact happlied.eq_of_nil ▸ h
  · cases op with
    | append entries =>
        exact h.entries hcall.entries_lt hfirst happlied
    | flush sync callback => exact (stateMachine_flush hends).symm ▸ h
    | _ => exact absurd trivial hop

/-- The record of a call is not refused with a panic, and does not panic when it is applied. -/
theorem record_ne_panic {op : Op T} {s s' : RaftLog W} (h : Sound s.stateMachine)
    (hcall : ConsistentCall s op) {rec : RaftLogRecord T} (hwrites : op.Writes s rec) :
    (appendAndApply rec).run s ≠ .error .panic s' := by
  intro hpanic
  rcases appendAndApply_error hpanic with ⟨hreject, -⟩ | ⟨e, he⟩ | ⟨hcheck, wal₁, sm, -, happly⟩
  · refine RaftLogState.check_ne_panic (fun logId payload heq => ?_) hreject
    cases op <;> simp [Op.Writes, heq] at hwrites
  · exact absurd he (by simp)
  · have hrange : ApplyInRange s op := by
      cases op with
      | append entries => exact hwrites.elim
      | purge upto => exact fun _ _ => hcall.index upto (by simp [Op.logIds])
      | _ => trivial
    obtain ⟨sm', hsm'⟩ := hrange.applied (fun k d hget => h.agreement.key hget) h.sized
      ⟨Or.inl hwrites, hcheck⟩ (W.openChunkId wal₁) (W.lastSegment wal₁)
    exact absurd (hsm'.symm.trans happly) (by simp)

theorem single_ne_panic {op : Op T} {s s' : RaftLog W} (h : Sound s.stateMachine)
    (hop : op.IsSingle) (hcall : ConsistentCall s op) : op.exec.run s ≠ .error .panic s' := by
  by_cases hwrites : ∃ rec, op.Writes s rec
  · obtain ⟨rec, hwrites⟩ := hwrites
    exact exec_ne_panic hwrites fun s₁ => h.record_ne_panic hcall hwrites
  intro hpanic
  cases noRecord_of_single hop fun rec hrec => hwrites ⟨rec, hrec⟩ with
  | truncate hkeep hrun =>
      obtain ⟨rfl, -⟩ := EStateM.Result.error.inj (hrun.symm.trans hpanic)
      rw [truncateKeep_eq h.inOrder.purged] at hkeep
      split at hkeep <;> simp at hkeep
  | updateState hcheck hrun =>
      obtain ⟨rfl, -⟩ := EStateM.Result.error.inj (hrun.symm.trans hpanic)
      rcases checkCheckpoint_error hcheck with ⟨e, he⟩ | ⟨-, -, hwrap⟩
      · exact absurd he (by simp)
      · have hnext := nextLogIndex_of_forall_lt hcall.purged_lt
        exact absurd (hwrap.symm.trans hnext) (by simp)
  | purgeFails hnext _ =>
      have hafter := nextLogIndex_of_forall_lt h.inOrder.purged
      exact absurd (hnext.symm.trans hafter) (by simp)
  | purged _ _ hrun => exact absurd (hrun.symm.trans hpanic) (by simp)

/-- An `append` does not panic if its payloads fit the size of the cache. -/
theorem append_ne_panic {entries : List (T.LogId × T.LogPayload)} {s s' : RaftLog W}
    (h : Sound s.stateMachine) (hindex : ∀ entry ∈ entries, T.logIndex entry.1 < u64Max)
    (hfit : EntriesInRange entries s) : (appendLoop entries).run s ≠ .error .panic s' := by
  refine appendLoop_ne_panic_of (P := fun entries s => Sound s.stateMachine ∧
    (∀ entry ∈ entries, T.logIndex entry.1 < u64Max) ∧ EntriesInRange entries s) ?_ ?_
    ⟨h, hindex, hfit⟩
  · rintro logId payload entries s segment s₁ ⟨h, hindex, -, hlater⟩ hrec
    obtain ⟨wal₁, -, happly⟩ := appendAndApply_applied hrec
    have hgood : Good s.logState s.stateMachine.log (.action (.append logId payload)) :=
      Or.inr h.inOrder.last
    exact ⟨h.apply hgood (hindex (logId, payload) (by simp)) happly,
      fun e he => hindex e (List.mem_cons_of_mem _ he), hlater segment s₁ hrec⟩
  · rintro logId payload entries s s₁ ⟨h, -, hentry, -⟩
    refine appendAndApply_ne_panic ?_ (fun _ _ _ => ?_) (fun hcheck hinsert => ?_)
    · have hnext : T.nextLogIndex s.logState.last = .ok (T.indexAfter s.logState.last) :=
        nextLogIndex_of_forall_lt h.inOrder.last
      exact RaftLogState.check_ne_panic fun _ _ _ _ => by simp [hnext]
    · simp [RaftLogStateMachine.logAfter]
    · obtain ⟨c, hc⟩ :=
        (PayloadCache.insert_isOk_iff h.sized).mpr fun _ => hentry.fits hcheck
      exact absurd (hc.symm.trans hinsert) (by simp)

end Sound

/-! ## A run -/

theorem Sound.step {s s' : RaftLog W} {e : Event W} (h : Sound s.stateMachine)
    (hstep : FallibleStep ConsistentCall s e s') : Sound s'.stateMachine := by
  cases hstep with
  | call hcall hends => exact h.ends hcall hends
  | drainCache hdrain =>
      obtain ⟨cache, hcache, rfl⟩ := drainCacheEvictable_ok hdrain
      exact ⟨h.agreement, h.purged, h.inOrder, sized_rule.drainEvictable h.sized hcache⟩
  | persisted checkpoint =>
      exact ⟨h.agreement, h.purged, h.inOrder, sized_rule.onChunkPersisted checkpoint h.sized⟩

theorem sound_of_reachable (hW : Lawful W) {sys : System W}
    (h : System.Reachable ConsistentCall sys) : Sound sys.store.stateMachine := by
  obtain ⟨hrestartable, hkept⟩ := inOrder_of_reachable hW h
  obtain ⟨hagree, hpurged⟩ := hrestartable.live.agreement hrestartable.accounted.recorded
  exact ⟨hagree, hpurged, hkept.state, h.cache_sized hW⟩

/-- The payloads of an `append` fit the size of the cache. -/
def PayloadsFit (s : RaftLog W) : Op T → Prop
  | .append entries => EntriesInRange entries s
  | _ => True

theorem Sound.exists_ends {op : Op T} {s : RaftLog W} (h : Sound s.stateMachine)
    (hcall : ConsistentCall s op) (hfit : PayloadsFit s op) : ∃ s', Ends op s s' := by
  have hne : ∀ s', op.exec.run s ≠ .error .panic s' := by
    intro s'
    by_cases hop : op.IsSingle
    · exact h.single_ne_panic hop hcall
    · cases op with
      | append entries =>
          rw [run_exec_append]
          exact h.append_ne_panic hcall.entries_lt hfit
      | flush sync callback =>
          intro hpanic
          obtain ⟨e, he⟩ := flush_error hpanic
          exact absurd he (by simp)
      | _ => exact absurd trivial hop
  cases hrun : op.exec.run s with
  | ok _ s' => exact ⟨s', Or.inl hrun⟩
  | error failure s' =>
      refine ⟨s', Or.inr ⟨failure, fun hpanic => hne s' ?_, hrun⟩⟩
      rw [hrun, hpanic]

/-- Errors of the WAL do no harm to what is in memory: the map and the state describe one log
after them as well, and the next call comes to an end, having applied the first of its records, and
all of them if it has returned. -/
theorem wal_errors_contained (hW : Lawful W) {sys : System W}
    (hreachable : System.Reachable ConsistentCall sys) {events : List (Event W)} {s : RaftLog W}
    (hrun : Run (FallibleStep ConsistentCall) sys.store events s) :
    StoreInvariant s.logState s.stateMachine.log ∧
      ∀ op, ConsistentCall s op → PayloadsFit s op →
        ∃ s' records, Ends op s s' ∧ AppliedPart op s s' records := by
  have hsound : Sound s.stateMachine :=
    hrun.invariant (I := fun s => Sound s.stateMachine) (fun _ _ _ => Sound.step)
      (sound_of_reachable hW hreachable)
  refine ⟨StoreInvariant.of_agreement hsound.agreement hsound.purged hsound.inOrder.committed,
    fun op hcall hfit => ?_⟩
  obtain ⟨s', hends⟩ := hsound.exists_ends hcall hfit
  obtain ⟨records, hpart⟩ := applied_of_ends hends
  exact ⟨s', records, hends, hpart⟩

/-- A disk with room for five records. -/
def boundedSystem : System (boundedWal (exampleTypes true) 5) :=
  (System.start ⟨(10 : ℕ), ⟨none, none⟩⟩).get (by decide)

/-- There is no room for the last of these. -/
def oneTooMany : Op (exampleTypes true) :=
  .append [(⟨1, 0⟩, 5), (⟨1, 1⟩, 6), (⟨1, 2⟩, 7), (⟨1, 3⟩, 8), (⟨1, 4⟩, 9)]

def laterVote : Op (exampleTypes true) := .saveVote ⟨3, 0⟩

def fullStore : RaftLog (boundedWal (exampleTypes true) 5) := oneTooMany.leaves boundedSystem.store

/-- The entries before it are in the log. -/
theorem wal_errors_contained_fullStore :
    oneTooMany.failsOn boundedSystem.store = true ∧ fullStore.stateMachine.log.len = 4 ∧
    StoreInvariant fullStore.logState fullStore.stateMachine.log ∧
    ∃ s' records, Ends laterVote fullStore s' ∧ AppliedPart laterVote fullStore s' records := by
  have hreachable : System.Reachable ConsistentCall boundedSystem :=
    Reachable.of_initial (System.initial_of_start (Option.some_get _).symm)
  have hfails : oneTooMany.failsOn boundedSystem.store = true := by decide +kernel
  have hcall : ConsistentCall boundedSystem.store oneTooMany := by decide +kernel
  have hrun : Run (FallibleStep ConsistentCall) boundedSystem.store [.call oneTooMany] fullStore :=
    Run.single (FallibleStep.call hcall (ends_of_failsOn hfails))
  have hvote : ConsistentCall fullStore laterVote := by decide +kernel
  have hcontained := wal_errors_contained (boundedWal_lawful _ 5) hreachable hrun
  exact ⟨hfails, by decide +kernel, hcontained.1, hcontained.2 laterVote hvote trivial⟩

end RaftLogStore
