import RaftLogStore.Journal.Opening
import RaftLogStore.Model.Simulation

/-!
# Restarts and deleted chunks

What a store holds is found again by every restart, and no chunk with a live entry is deleted.
Both hold as long as the callers keep their guarantees and no `next_log_index` wraps.

In a build without overflow checks `next_log_index` of the index `u64::MAX` is `0`.  A purge up
to that index then keeps the whole log map, while the state says that everything is purged and
all closed chunks go.
-/

namespace RaftLogStore

variable {T : Types} {W : ChunkedWal T}

/-- The callers keep their guarantees, and no index wraps. -/
def Guaranteed (s : RaftLog W) (op : Op T) : Prop := CallerGuarantee s op ∧ NoIndexWrap s op

instance (s : RaftLog W) (op : Op T) : Decidable (Guaranteed s op) :=
  inferInstanceAs (Decidable (_ ∧ _))

theorem restartable_of_reachable (hW : Lawful W) {sys : System W}
    (h : System.Reachable Guaranteed sys) : Restartable sys.ledger :=
  h.ledger_invariant hW (fun _ _ _ hallowed => guarded_good hallowed.1 hallowed.2)
    (fun _ ha => ha.accounted.recorded.history.sorted) (fun _ => Restartable.initial)
    (fun _ _ ha hstep => ha.step hstep)

/-- The log map agrees with the log state, in a live store and after every restart. -/
theorem agreement_of_reachable (hW : Lawful W) {sys : System W}
    (h : System.Reachable Guaranteed sys) :
    Agreement sys.store.logState sys.store.stateMachine.log ∧ PurgedLeLast sys.store.logState := by
  have hinv := restartable_of_reachable hW h
  exact hinv.live.agreement hinv.accounted.recorded

/-! ## What a restart finds -/

/-- What is found after a restart is what the live store had at the end of what survives. -/
theorem opened_eq (hW : Lawful W) {sys : System W} (hinv : Restartable sys.ledger) {r : ℕ}
    (hsynced : sys.synced ≤ r) {config : Config W} {s : RaftLog W}
    (hopen : RaftLog.openLog config (sys.disk r) = .ok s) :
    s.logState = endState (sys.hist.take r) ∧ s.stateMachine.log = endLog (sys.hist.take r) ∧
      ((W.view s.wal).written = sys.disk r ∨ ∃ checkpoint : Located T,
        checkpoint.record = .checkpoint s.logState ∧
          (W.view s.wal).written = sys.disk r ++ [checkpoint]) := by
  have hrec := hinv.accounted.recorded
  have hord := hinv.accounted.ordered
  have hsorted : (sys.disk r).Pairwise fun x y => x.chunkId ≤ y.chunkId :=
    Ledger.disk_sorted (a := sys.ledger) hrec.history.sorted r
  obtain ⟨s₀, hloaded, rfl⟩ := openLog_loaded hW hsorted hopen
  rw [RaftLog.logState_bufferRemovableChunks, RaftLog.stateMachine_bufferRemovableChunks,
    written_bufferRemovableChunks hW]
  refine ⟨?_, ?_, ?_⟩
  · exact (hord.survives hrec Dead.passed hsynced).state_eq hloaded
  · exact Dead.log_eq (a := sys.ledger) hrec hord hinv.live.agreed.logs hsynced hloaded
  · rcases hloaded.written with ⟨hwritten, -⟩ | ⟨⟨segment, hwritten⟩, -⟩
    · exact Or.inl hwritten
    · exact Or.inr ⟨_, rfl, hwritten⟩

/-- Opening what is left of the directory returns a store or an error of the WAL, if the payloads
fit the cache in every replay. -/
theorem restart_returns (hW : Lawful W) {sys : System W} (hinv : Restartable sys.ledger) {r : ℕ}
    (hsynced : sys.synced ≤ r) {config : Config W}
    (hfits : ReplayFits config.cache (sys.disk r)) :
    (∃ s, RaftLog.openLog config (sys.disk r) = .ok s) ∨
      ∃ e, RaftLog.openLog config (sys.disk r) = .error (.io e) := by
  have hrec := hinv.accounted.recorded
  have hsurvives := hinv.accounted.ordered.survives hrec Dead.passed hsynced
  exact openLog_returns (a := sys.ledger) hW hsurvives hinv.live.agreed.logs hfits

/-! ## Deleted chunks -/

/-- No entry of the log map lies in a chunk that waits for removal, or was ever passed to
`send_remove_chunks`, or is unlinked. -/
def LiveChunksKept (sys : System W) : Prop :=
  ∀ i d, sys.store.stateMachine.log.get i = some d →
    d.chunkId ∉ sys.store.removedChunks ∧ d.chunkId ∉ sys.sent ∧ d.chunkId ∉ sys.unlinked

theorem live_chunks_kept (hW : Lawful W) {sys : System W}
    (h : System.Reachable Guaranteed sys) : LiveChunksKept sys := by
  have hinv := restartable_of_reachable hW h
  have hord := hinv.accounted.ordered
  intro i d hget
  have hlive : (endLog sys.hist).get i = some d := hinv.live.log ▸ hget
  -- a chunk that is dead at any position is dead now
  have hdead : ∀ n k, Dead sys.hist n k → n ≤ sys.hist.length → d.chunkId ≠ k := by
    intro n k hdead hn
    refine hdead.unused sys.hist.length hn i d ?_
    rwa [List.take_length]
  have hloaded : sys.loaded ≤ sys.hist.length := hord.loaded_le
  have hsynced : sys.synced ≤ sys.hist.length := hord.synced_le
  refine ⟨fun hk => ?_, fun hk => ?_, fun hk => ?_⟩
  · exact hdead _ _ (hord.removed _ hk) le_rfl rfl
  · rcases List.mem_append.mp hk with hk | hk
    · exact hdead _ _ (hord.sentBefore _ hk) hloaded rfl
    · obtain ⟨chunkIds, hmem, hk⟩ := System.mem_queuedRemovals.mp hk
      obtain ⟨q, hq⟩ := List.mem_iff_getElem?.mp hmem
      obtain ⟨q', -, upto, hwrite, hP⟩ := hord.queued q chunkIds hq
      have hupto := hord.writes true upto (List.mem_of_getElem? hwrite)
      have hbase := hinv.accounted.recorded.base_add
      exact hdead _ _ (hP _ hk) (hbase ▸ Nat.add_le_add_left hupto _) rfl
  · exact hdead _ _ (hord.unlinked _ hk) hsynced rfl

/-- A store in which a chunk has been closed over a truncated tail, two chunks have been
removed, and a crash has taken the last append. -/
def purgedAndReopened : List (Event (memoryWal (exampleTypes false))) :=
  [.call (.append [(⟨1, 0⟩, 5), (⟨1, 1⟩, 6), (⟨1, 2⟩, 7)]), .call (.truncate 2),
    .call (.append [(⟨2, 2⟩, 8)]), .call (.purge ⟨1, 1⟩), .call (.flush true none),
    .work, .work, .work, .work, .work, .call (.append [(⟨2, 3⟩, 9)]),
    .crash 10 (chunksOfSize false 3), .call (.commit ⟨2, 2⟩)]

def reopenedSystem : System (memoryWal (exampleTypes false)) :=
  (System.simulate Guaranteed (chunksOfSize false 3) purgedAndReopened).get (by decide +kernel)

theorem live_chunks_kept_reopenedSystem :
    LiveChunksKept reopenedSystem ∧ reopenedSystem.unlinked = [0, 3] ∧
      reopenedSystem.store.stateMachine.log.len = 1 :=
  ⟨live_chunks_kept (memoryWal_lawful _) (System.reachable_get _), by decide +kernel,
    by decide +kernel⟩

/-- A purge up to the last index of all, in a build without overflow checks. -/
def wrappedPurge : List (Event (memoryWal (exampleTypes false))) :=
  [.call (.append [(⟨1, 0⟩, 5)]), .call (.purge ⟨1, Fin.last _⟩), .call (.flush true none),
    .work, .work, .work, .work]

def wrappedSystem : System (memoryWal (exampleTypes false)) :=
  (System.simulate CallerGuarantee (chunksOfSize false 2) wrappedPurge).get (by decide +kernel)

/-- An entry is left in a chunk whose file is gone. -/
theorem live_chunks_kept_wrappedSystem :
    System.Reachable CallerGuarantee wrappedSystem ∧ ¬ LiveChunksKept wrappedSystem := by
  have hentry : wrappedSystem.store.stateMachine.log.get 0 = some ⟨⟨1, 0⟩, 0, ⟨1, 1⟩⟩ := by
    decide +kernel
  have hsent : 0 ∈ wrappedSystem.sent := by decide +kernel
  refine ⟨System.reachable_get _, fun hkept => ?_⟩
  exact (hkept 0 _ hentry).2.1 hsent

end RaftLogStore
