import RaftLogStore.Results.Restart
import RaftLogStore.Results.Totality

/-!
# Restart equivalence

Whatever survives of the record stream, opening the directory leads to the store that was there
when the last surviving record was written (`restart_equivalence`), or fails with an error of the
WAL.

Two kinds of arithmetic can break this.  In a build without overflow checks `next_log_index`
wraps at `u64::MAX`, and a purge up to that index keeps entries whose chunks are removed.  In a
build with overflow checks a replay panics where an index or the size of the cache leaves its
range.  The live store panics in the same call, but the record may have reached the WAL by then,
and a replay may hold more in its cache than the live store did.
-/

namespace RaftLogStore

open RaftLog

variable {T : Types} {W : ChunkedWal T}

/-- The callers keep their guarantees, no index wraps, and no arithmetic panics. -/
def SafeCall (s : RaftLog W) (op : Op T) : Prop :=
  Guaranteed s op ∧ (T.overflowChecks = true → InRange s op)

instance (s : RaftLog W) (op : Op T) : Decidable (SafeCall s op) :=
  inferInstanceAs (Decidable (_ ∧ (_ → _)))

/-- The payloads of what may survive fit the cache in every replay. -/
def System.ReplaysFit (sys : System W) : Prop :=
  ∀ r, sys.synced ≤ r → ∀ config : Config W, ReplayFits config.cache (sys.disk r)

/-- Whatever prefix of the stream survives, as long as it reaches to the last completed sync:
opening the directory returns a store with the state and the log map that the live store had right
after the last record that survives, unless the WAL fails. -/
def RestartEquivalent (sys : System W) : Prop :=
  ∀ r, sys.synced ≤ r → r ≤ sys.hist.length → ∀ config : Config W,
    (∃ e, RaftLog.openLog config (sys.disk r) = .error (.io e)) ∨
      ∃ s, RaftLog.openLog config (sys.disk r) = .ok s ∧
        s.logState = endState (sys.hist.take r) ∧ s.stateMachine.log = endLog (sys.hist.take r)

theorem System.appendedTotal_disk_le (sys : System W) (r : ℕ) :
    appendedTotal (sys.disk r) ≤ appendedTotal (sys.hist.map Snapshot.located) :=
  appendedTotal_le_of_sublist
    (List.filter_sublist.trans ((List.take_sublist r sys.hist).map Snapshot.located))

/-- It is enough that the payloads ever appended add up to a `usize`. -/
theorem System.replaysFit_of_total {sys : System W}
    (h : T.overflowChecks = true → appendedTotal (sys.hist.map Snapshot.located) ≤ u64Max) :
    sys.ReplaysFit := fun r _ config =>
  replayFits_of_total (fun hchecks => (sys.appendedTotal_disk_le r).trans (h hchecks)) config.cache

/-- In every run of safe calls whose payloads fit the cache in a replay, a restart finds the live
store, and no safe call panics. -/
theorem restart_equivalence (hW : Lawful W) {sys : System W}
    (h : System.Reachable SafeCall sys) (hfits : sys.ReplaysFit) :
    RestartEquivalent sys ∧
      ∀ op s', SafeCall sys.store op → op.exec.run sys.store ≠ .error .panic s' := by
  have hguaranteed : System.Reachable Guaranteed sys :=
    h.mono fun _ _ _ => System.Step.mono fun _ _ => And.left
  have hinv := restartable_of_reachable hW hguaranteed
  constructor
  · intro r hsynced _ config
    rcases restart_returns hW hinv hsynced (hfits r hsynced config) with ⟨s, hopen⟩ | hio
    · obtain ⟨hstate, hlog, -⟩ := opened_eq hW hinv hsynced hopen
      exact Or.inr ⟨s, hopen, hstate, hlog⟩
    · exact Or.inl hio
  · intro op s' hop
    have hbacked := backed_of_reachable hW h
    exact exec_ne_panic_of_inRange hop.2 (fun k d hget => hbacked.key hget) (h.cache_sized hW)

/-- A store in which a chunk has been closed over a truncated tail, two chunks have been removed,
and a crash has taken the last append. -/
def restartedSystem : System (memoryWal (exampleTypes true)) :=
  (System.simulate SafeCall (chunksOfSize true 3)
    [.call (.append [(⟨1, 0⟩, 5), (⟨1, 1⟩, 6), (⟨1, 2⟩, 7)]), .call (.truncate 2),
      .call (.append [(⟨2, 2⟩, 8)]), .call (.purge ⟨1, 1⟩), .call (.flush true none),
      .work, .work, .work, .work, .work, .call (.append [(⟨2, 3⟩, 9)]),
      .crash 10 (chunksOfSize true 3), .call (.commit ⟨2, 2⟩)]).get (by decide +kernel)

theorem restart_equivalence_restartedSystem :
    RestartEquivalent restartedSystem ∧ restartedSystem.unlinked = [0, 3] ∧
      ∃ s, RaftLog.openLog (chunksOfSize true 3) (restartedSystem.disk restartedSystem.synced) =
        .ok s ∧ s.stateMachine.log.len = 1 := by
  have hfits : restartedSystem.ReplaysFit := System.replaysFit_of_total (by decide +kernel)
  exact ⟨(restart_equivalence (memoryWal_lawful _) (System.reachable_get _) hfits).1,
    by decide +kernel, by decide +kernel⟩

/-- A payload of half a `usize`. -/
def halfPayload : Fin (2 ^ 64) := 9223372036854775808

/-- Two payloads that do not fit the cache together.  The live store has drained the first one
before it takes the second. -/
def drainedBetween : System (memoryWal (exampleTypes true)) :=
  (System.simulate SafeCall (chunksOfSize true 2)
    [.call (.append [(⟨1, 0⟩, halfPayload)]),
      .persisted (some ⟨none, some ⟨1, 0⟩, none, none, none⟩), .drainCache,
      .call (.append [(⟨1, 1⟩, halfPayload)])]).get (by decide +kernel)

/-- After a purge up to the last index of all, in a build without overflow checks, the live store
keeps an entry that a restart does not find.  In a build with overflow checks a restart panics
where both payloads are replayed. -/
theorem restart_equivalence_wrappedSystem :
    (System.Reachable CallerGuarantee wrappedSystem ∧ ¬ RestartEquivalent wrappedSystem) ∧
      System.Reachable SafeCall drainedBetween ∧ ¬ RestartEquivalent drainedBetween := by
  have hbounds : wrappedSystem.synced ≤ 5 ∧ 5 ≤ wrappedSystem.hist.length := by decide +kernel
  have hlost : ∃ s, RaftLog.openLog (chunksOfSize false 2) (wrappedSystem.disk 5) = .ok s ∧
      s.stateMachine.log.len ≠ (endLog (wrappedSystem.hist.take 5)).len := by decide +kernel
  have hbounds' : drainedBetween.synced ≤ 5 ∧ 5 ≤ drainedBetween.hist.length := by decide +kernel
  have hpanic : RaftLog.openLog (chunksOfSize true 2) (drainedBetween.disk 5) = .error .panic := by
    decide +kernel
  refine ⟨⟨System.reachable_get _, fun hequivalent => ?_⟩, System.reachable_get _,
    fun hequivalent => ?_⟩
  · obtain ⟨s, hopen, hlen⟩ := hlost
    rcases hequivalent 5 hbounds.1 hbounds.2 (chunksOfSize false 2) with
      ⟨e, hio⟩ | ⟨s', hopen', -, hlog⟩
    · exact absurd (hio.symm.trans hopen) (by simp)
    · obtain rfl := Except.ok.inj (hopen'.symm.trans hopen)
      exact hlen (congrArg OrderedMap.len hlog)
  · rcases hequivalent 5 hbounds'.1 hbounds'.2 (chunksOfSize true 2) with
      ⟨e, hio⟩ | ⟨s, hopen, -⟩
    · exact absurd (hio.symm.trans hpanic) (by simp)
    · exact absurd (hopen.symm.trans hpanic) (by simp)

end RaftLogStore
