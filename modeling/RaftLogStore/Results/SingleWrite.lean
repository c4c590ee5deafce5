import RaftLogStore.Journal.CacheInvariant
import RaftLogStore.Journal.Restart
import RaftLogStore.Results.Reading

/-!
# A write of one record

`append_and_apply` checks a record, puts it into the WAL buffer, and only then applies it.  The
second check, inside of `apply`, agrees with the first one, so a rejected write has changed
nothing, and what is in the WAL passes the checks of every replay.

What the check does not foresee is arithmetic.  In a build with overflow checks `apply` panics
where the index after `upto` is asked for and `upto` has the last index of all, and where a
payload does not fit into the size of the cache.  By then the record is in the WAL buffer.
-/

namespace RaftLogStore

open RaftLog

variable {T : Types} {W : ChunkedWal T}

/-- The calls that write a single record. -/
def Op.WritesOne : Op T → Prop
  | .append entries => ∃ entry, entries = [entry]
  | .flush _ _ => False
  | _ => True

/-- The call puts the record into the WAL buffer, unless the WAL fails. -/
def Op.Puts (op : Op T) (s : RaftLog W) (rec : RaftLogRecord T) : Prop :=
  (op.Writes s rec ∨ ∃ logId payload, op = .append [(logId, payload)] ∧
      rec = .action (.append logId payload)) ∧
    s.stateMachine.check rec = .ok ()

/-- A rejected call changes nothing, and what is put into the WAL buffer is applied. -/
structure WriteAtomic (s : RaftLog W) (op : Op T) : Prop where
  rejected {e : RaftLogStateError T} {s' : RaftLog W} :
    op.exec.run s = .error (.state e) s' → s' = s
  applied {rec : RaftLogRecord T} : op.Puts s rec → ∀ chunkId segment, ∃ sm,
    (RaftLogStateMachine.apply rec chunkId segment).run s.stateMachine = .ok () sm

/-- The arithmetic of `apply` stays in range, if the build checks it. -/
def ApplyInRange (s : RaftLog W) : Op T → Prop
  | .append entries => ∀ logId payload, entries = [(logId, payload)] →
      s.logState.checkAppend logId = .ok () → T.overflowChecks = true →
      s.stateMachine.payloadCache.size + T.payloadSize payload ≤ u64Max
  | .purge upto => T.overflowChecks = true → T.HasNext s.logState.purged → T.HasNext (some upto)
  | _ => True

/-! ## The record of a call -/

theorem run_exec_append_single (logId : T.LogId) (payload : T.LogPayload) (s : RaftLog W) :
    (Op.append [(logId, payload)]).exec.run s =
      match (appendAndApply (.action (.append logId payload))).run s with
      | .ok _ s' => .ok () s'
      | .error failure s' => .error failure s' := by
  rw [run_exec_append, run_appendLoop_cons]
  cases (appendAndApply (.action (.append logId payload))).run s <;> rfl

/-- A call that puts no record into the WAL buffer leaves the store as it was. -/
theorem unchanged_of_not_puts {op : Op T} {s : RaftLog W} (hop : op.WritesOne)
    (hputs : ∀ rec, ¬ op.Puts s rec) :
    op.exec.run s = .ok () s ∨ ∃ failure, op.exec.run s = .error failure s := by
  -- what `append_and_apply` does with a record that its check does not accept
  have hreject {rec : RaftLogRecord T} (hrec : s.stateMachine.check rec ≠ .ok ()) :
      ∃ failure, (appendAndApply rec).run s = .error failure s := by
    rw [run_appendAndApply]
    cases hcheck : s.stateMachine.check rec with
    | ok _ => exact absurd hcheck hrec
    | error failure => exact ⟨failure, rfl⟩
  by_cases hsingle : op.IsSingle
  · cases run_exec_single hsingle with
    | skipped hrun => exact Or.inl hrun
    | refused hrun => exact Or.inr ⟨_, hrun⟩
    | wrote hwrites hrec _ _ =>
        exact absurd ⟨Or.inl hwrites, (appendAndApply_ok hrec).1⟩ (hputs _)
    | failed hwrites hrec hrun =>
        obtain ⟨failure, hfailed⟩ := hreject fun hcheck => hputs _ ⟨Or.inl hwrites, hcheck⟩
        obtain ⟨rfl, rfl⟩ := EStateM.Result.error.inj (hrec.symm.trans hfailed)
        exact Or.inr ⟨_, hrun⟩
  · cases op with
    | append entries =>
        obtain ⟨⟨logId, payload⟩, rfl⟩ := hop
        obtain ⟨failure, hfailed⟩ := hreject fun hcheck =>
          hputs _ ⟨Or.inr ⟨logId, payload, rfl, rfl⟩, hcheck⟩
        refine Or.inr ⟨failure, ?_⟩
        rw [run_exec_append_single, hfailed]
    | flush sync callback => exact hop.elim
    | _ => exact absurd trivial hsingle

/-- A rejected call changes nothing. -/
theorem unchanged_of_rejected {op : Op T} {s s' : RaftLog W} {e : RaftLogStateError T}
    (hop : op.WritesOne) (h : op.exec.run s = .error (.state e) s') : s' = s := by
  by_cases hsingle : op.IsSingle
  · exact rejected_single hsingle h
  · cases op with
    | append entries =>
        obtain ⟨⟨logId, payload⟩, rfl⟩ := hop
        rw [run_exec_append_single] at h
        cases hrec : (appendAndApply (.action (.append logId payload))).run s with
        | ok segment s₁ => simp [hrec] at h
        | error failure s₁ =>
            rw [hrec] at h
            obtain ⟨rfl, rfl⟩ := EStateM.Result.error.inj h
            exact appendAndApply_state_error hrec
    | flush sync callback => exact hop.elim
    | _ => exact absurd trivial hsingle

/-! ## Applying a record -/

/-- A record that passes the check is applied if the log map and the cache take it. -/
theorem apply_isOk_iff {rec : RaftLogRecord T} {chunkId : ChunkId} {segment : Segment}
    {sm : RaftLogStateMachine T} (hcheck : sm.check rec = .ok ()) :
    (∃ sm', (RaftLogStateMachine.apply rec chunkId segment).run sm = .ok () sm') ↔
      (∃ log, RaftLogStateMachine.logAfter rec chunkId segment sm.log = .ok log) ∧
        ∃ c, RaftLogStateMachine.cacheAfter rec sm.payloadCache = .ok c := by
  constructor
  · rintro ⟨sm', happly⟩
    obtain ⟨hlog, hcache, -⟩ := RaftLogStateMachine.apply_eq_ok.mp happly
    exact ⟨⟨_, hlog⟩, _, hcache⟩
  · rintro ⟨⟨log, hlog⟩, c, hcache⟩
    exact ⟨⟨log, c, _⟩, RaftLogStateMachine.apply_eq_ok.mpr ⟨hlog, hcache, hcheck, rfl⟩⟩

theorem isOk_of_ne_error {ε α : Type} {x : Except ε α} (h : ∀ e, x ≠ .error e) :
    ∃ a, x = .ok a := by
  cases x with
  | ok a => exact ⟨a, rfl⟩
  | error e => exact absurd rfl (h e)

theorem map_isOk {logId : Option T.LogId} {α : Type} {f : ℕ → α}
    (h : ∃ index, T.nextLogIndex logId = .ok index) :
    ∃ a, (T.nextLogIndex logId).map f = .ok a := by
  obtain ⟨index, hindex⟩ := h
  exact ⟨f index, by rw [hindex]; rfl⟩

/-- What `truncate` keeps has a next index, as `truncate` has asked for one before. -/
theorem nextLogIndex_of_truncateKeep {s : RaftLog W} {index : UInt64} {keep : Option T.LogId}
    (hkey : ∀ k d, s.stateMachine.log.get k = some d → T.logIndex d.logId = k)
    (hkeep : s.truncateKeep index.toNat = .ok keep) : ∃ next, T.nextLogIndex keep = .ok next := by
  rcases truncateKeep_ok hkeep with rfl | ⟨k, d, hget, hk, rfl, -⟩
  · obtain ⟨next, hnext, -⟩ := Except.bind_eq_ok.mp hkeep
    exact ⟨next, hnext⟩
  · rw [← hkey k d hget] at hk
    exact ⟨_, Types.nextLogIndex_of_lt hk⟩

/-! ## The condition -/

theorem ApplyInRange.applied {s : RaftLog W} {op : Op T} (h : ApplyInRange s op)
    (hkey : ∀ k d, s.stateMachine.log.get k = some d → T.logIndex d.logId = k)
    (hsized : s.stateMachine.payloadCache.Sized) {rec : RaftLogRecord T} (hputs : op.Puts s rec)
    (chunkId : ChunkId) (segment : Segment) : ∃ sm,
      (RaftLogStateMachine.apply rec chunkId segment).run s.stateMachine = .ok () sm := by
  obtain ⟨hrec, hcheck⟩ := hputs
  refine (apply_isOk_iff hcheck).mpr ?_
  rcases hrec with hwrites | ⟨logId, payload, rfl, rfl⟩
  · cases op with
    | append entries => exact hwrites.elim
    | flush sync callback => exact hwrites.elim
    | saveVote vote => rw [hwrites]; exact ⟨⟨_, rfl⟩, _, rfl⟩
    | saveUserData userData => rw [hwrites]; exact ⟨⟨_, rfl⟩, _, rfl⟩
    | commit logId => rw [hwrites]; exact ⟨⟨_, rfl⟩, _, rfl⟩
    | updateState state => rw [hwrites.2]; exact ⟨⟨_, rfl⟩, _, rfl⟩
    | truncate index =>
        obtain ⟨keep, hkeep, rfl⟩ := hwrites
        refine ⟨map_isOk (nextLogIndex_of_truncateKeep hkey hkeep), ?_⟩
        cases keep with
        | none => exact ⟨_, rfl⟩
        | some logId =>
            exact isOk_of_ne_error fun _ => PayloadCache.truncateAfterLoop_ne_error hsized
    | purge upto =>
        obtain ⟨next, hnext, -, rfl⟩ := hwrites
        have hpurged := Types.nextLogIndex_isOk_iff.mp ⟨next, hnext⟩
        have hupto := Types.nextLogIndex_isOk_iff.mpr fun hchecks => h hchecks (hpurged hchecks)
        exact ⟨map_isOk hupto, isOk_of_ne_error fun _ => PayloadCache.purgeUptoLoop_ne_error hsized⟩
  · exact ⟨⟨_, rfl⟩, (PayloadCache.insert_isOk_iff hsized).mpr (h logId payload rfl hcheck)⟩

theorem ApplyInRange.of_atomic {s : RaftLog W} {op : Op T}
    (hsized : s.stateMachine.payloadCache.Sized) (h : WriteAtomic s op) : ApplyInRange s op := by
  have happlied {rec : RaftLogRecord T} (hputs : op.Puts s rec) :=
    (apply_isOk_iff hputs.2).mp (h.applied hputs 0 ⟨0, 0⟩)
  cases op with
  | append entries =>
      rintro logId payload rfl hcheck
      have hcache := (happlied ⟨Or.inr ⟨logId, payload, rfl, rfl⟩, hcheck⟩).2
      exact (PayloadCache.insert_isOk_iff hsized).mp hcache
  | purge upto =>
      intro hchecks hpurged
      by_cases hlt : T.logIndex upto < T.indexAfter s.logState.purged
      · exact Nat.le_trans hlt hpurged
      · have hwrites : (Op.purge upto).Writes s (.action (.purgeUpto upto)) :=
          ⟨_, hpurged.nextLogIndex, hlt, rfl⟩
        obtain ⟨log, hlog⟩ := (happlied ⟨Or.inl hwrites, rfl⟩).1
        obtain ⟨index, hindex, -⟩ := Except.map_eq_ok.mp hlog
        exact Types.nextLogIndex_isOk_iff.mp ⟨index, hindex⟩ hchecks
  | _ => trivial

/-! ## Every run -/

/-- In every reachable store a write of a single record is atomic exactly if the arithmetic of
`apply` stays in range.  What is in the WAL passes the checks of every replay. -/
theorem single_write_atomic_iff (hW : Lawful W) {sys : System W}
    (h : System.Reachable AnyCall sys) :
    (∀ op : Op T, op.WritesOne → (WriteAtomic sys.store op ↔ ApplyInRange sys.store op)) ∧
      ∀ survivors (config : Config W) (e : RaftLogStateError T), sys.synced ≤ survivors →
        RaftLog.openLog config (sys.disk survivors) ≠ .error (.state e) := by
  have hbacked := backed_of_reachable hW h
  have hsized := h.cache_sized hW
  constructor
  · intro op hop
    refine ⟨ApplyInRange.of_atomic hsized, fun hrange => ⟨unchanged_of_rejected hop, ?_⟩⟩
    exact hrange.applied (fun k d hget => hbacked.key hget) hsized
  · intro survivors config e hsynced
    have hacc := h.accounted hW
    exact openLog_not_rejected hW (hacc.ordered.survives hacc.recorded id hsynced) config e

/-- One entry, which the worker has synced, and a rejected commit. -/
def syncedEntry (overflowChecks : Bool) : List (Event (memoryWal (exampleTypes overflowChecks))) :=
  [.call (.append [(⟨1, 0⟩, 5)]), .call (.flush true none), .work, .call (.commit ⟨2, 0⟩)]

def oneEntrySystem : System (memoryWal (exampleTypes true)) :=
  (System.simulate AnyCall (chunksOfSize true 10) (syncedEntry true)).get (by decide +kernel)

/-- A purge up to the last index of all is in the WAL buffer when `apply` panics. -/
theorem single_write_atomic_iff_oneEntrySystem :
    System.Reachable AnyCall oneEntrySystem ∧
      ¬ WriteAtomic oneEntrySystem.store (.purge ⟨1, Fin.last _⟩) := by
  have hreachable : System.Reachable AnyCall oneEntrySystem := System.reachable_get _
  refine ⟨hreachable, fun hatomic => ?_⟩
  have hrange := ApplyInRange.of_atomic (hreachable.cache_sized (memoryWal_lawful _)) hatomic
  have hpurged : oneEntrySystem.store.logState.purged = none := by decide +kernel
  have hnext := hrange rfl (by rw [hpurged]; exact Nat.zero_le _)
  revert hnext
  decide

def uncheckedSystem : System (memoryWal (exampleTypes false)) :=
  (System.simulate AnyCall (chunksOfSize false 10) (syncedEntry false)).get (by decide +kernel)

/-- A build without the checks applies what it puts into the buffer. -/
theorem single_write_atomic_iff_uncheckedSystem :
    WriteAtomic uncheckedSystem.store (.purge ⟨1, Fin.last _⟩) ∧
      ∀ survivors (config : Config (memoryWal (exampleTypes false))) e,
        uncheckedSystem.synced ≤ survivors →
        RaftLog.openLog config (uncheckedSystem.disk survivors) ≠ .error (.state e) := by
  have hreachable : System.Reachable AnyCall uncheckedSystem := System.reachable_get _
  obtain ⟨hatomic, hopen⟩ := single_write_atomic_iff (memoryWal_lawful _) hreachable
  exact ⟨(hatomic (.purge _) trivial).mpr (by simp [ApplyInRange, exampleTypes]), hopen⟩

end RaftLogStore
