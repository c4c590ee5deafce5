import RaftLogStore.Journal.Opening
import RaftLogStore.Results.DurableLog

/-!
# Dropping the oldest chunks

Every chunk begins with a checkpoint, so any prefix of the chunks can be dropped.  Opening what is
left finds the whole state, and the entries whose records are left.  These are the last ones: the
chunks of the held entries ascend with their indexes (`chunkId_le_of_le`), so what is lost is
everything below some index (`oldest_chunks_dropped`).

## Strategy
To a ledger, dropped chunks are no different from unlinked ones.  `Ledger.dropping` is the ledger
with more of them, and what `Reopening` and `Restart` prove of the records that survive holds of
it.
-/

namespace RaftLogStore

open RaftLog

variable {T : Types} {W : ChunkedWal T}

/-! ## The chunks of the entries -/

/-- An entry that is appended is behind all the others. -/
theorem le_of_appended {st : RaftLogState T} {log log' : OrderedMap ℕ (LogData T)}
    {rec : RaftLogRecord T} {chunkId : ChunkId} {segment : Segment} {logId : T.LogId}
    {payload : T.LogPayload} (hagree : Agreement st log) (hagree' : ∃ st', Agreement st' log')
    (hcheck : st.check rec = .ok ()) (hrec : rec = .action (.append logId payload))
    (hlog : RaftLogStateMachine.logAfter rec chunkId segment log = .ok log') {i j : ℕ}
    {d e : LogData T} (hi : log'.get i = some d) (hd : d.logId = logId)
    (hj : log'.get j = some e) : j ≤ i := by
  obtain ⟨st', hagree'⟩ := hagree'
  refine Nat.not_lt.mp fun hlt => ?_
  have habove : d.logId < e.logId := hagree'.increasing hi hj hlt
  rcases RaftLogStateMachine.get_logAfter hlog hj with hold | ⟨payload', hrec', -⟩
  · -- an older entry is not above the last log id
    have hlast : st.last < some logId := by
      rw [hrec] at hcheck
      exact (RaftLogState.checkAppend_eq_ok_iff.mp hcheck).1
    have hheld := (hagree.held_le_last hold).trans_lt hlast
    rw [hd] at habove
    exact absurd (Option.some_lt_some.mp hheld) habove.asymm
  · have hsame : logId = e.logId ∧ payload = payload' := by simpa [hrec] using hrec'
    rw [hd, hsame.1] at habove
    exact absurd habove (lt_irrefl _)

/-- The chunks of the entries ascend with their indexes. -/
theorem AgreedHistory.chunkId_le_of_le {hist : List (Snapshot T)} (h : AgreedHistory hist)
    (hhist : History hist) {i j : ℕ} {d e : LogData T} (hi : (endLog hist).get i = some d)
    (hj : (endLog hist).get j = some e) (hij : i ≤ j) : d.chunkId ≤ e.chunkId := by
  induction hist using List.reverseRecOn generalizing i j d e with
  | nil => simp at hi
  | append_singleton hist snap ih =>
      have hfront : hist <+: hist ++ [snap] := List.prefix_append _ _
      have hagreed : AgreedHistory hist :=
        ⟨h.logs.of_isPrefix hfront, fun s hs => h.agreement s (List.mem_append_left _ hs)⟩
      obtain ⟨s, hs, hchunk⟩ := h.logs.chunkId_mem hi
      have hupto : d.chunkId ≤ snap.chunkId := by
        rw [← hchunk]
        rcases List.mem_append.mp hs with hs | hs
        · exact (List.pairwise_append.mp hhist.sorted).2.2 s hs snap (by simp)
        · exact (List.mem_singleton.mp hs ▸ le_rfl)
      rw [endLog_concat] at hi hj
      rcases RaftLogStateMachine.get_logAfter h.logs.last hj with hjold | ⟨_, -, -, hjnew, -⟩
      · rcases RaftLogStateMachine.get_logAfter h.logs.last hi with hiold | ⟨_, hrec, -⟩
        · exact ih hagreed (hhist.of_isPrefix hfront) hiold hjold hij
        · have hji : j ≤ i := le_of_appended hagreed.end_agreement.1
            ⟨_, (h.agreement snap (by simp)).1⟩ hhist.last_cases.1 hrec h.logs.last hi rfl hj
          obtain rfl := Nat.le_antisymm hij hji
          rw [Option.some.inj (hi.symm.trans hj)]
      · exact hupto.trans_eq hjnew.symm

/-! ## The ledger -/

/-- The ledger in which the chunks below `k` are unlinked as well. -/
def Ledger.dropping (a : Ledger T) (k : ChunkId) : Ledger T :=
  { a with unlinked := a.unlinked ++ (a.hist.map Snapshot.chunkId).filter (· < k) }

theorem Ledger.mem_dropping {a : Ledger T} {k : ChunkId} {snap : Snapshot T}
    (hsnap : snap ∈ a.hist) :
    snap.chunkId ∈ (a.dropping k).unlinked ↔ snap.chunkId ∈ a.unlinked ∨ snap.chunkId < k := by
  simp only [Ledger.dropping, List.mem_append, List.mem_filter, List.mem_map, decide_eq_true_eq]
  exact or_congr_right ⟨And.right, fun hlt => ⟨⟨snap, hsnap, rfl⟩, hlt⟩⟩

theorem Ledger.disk_dropping (a : Ledger T) (k : ChunkId) (survivors : ℕ) :
    (a.dropping k).disk survivors = (a.disk survivors).filter fun l => k ≤ l.chunkId := by
  unfold Ledger.disk
  rw [List.filter_filter]
  refine List.filter_congr fun l hl => ?_
  obtain ⟨snap, hsnap, rfl⟩ := List.mem_map.mp hl
  have hmem := a.mem_dropping (k := k) (List.mem_of_mem_take hsnap)
  simp only [decide_eq_decide, ← Bool.decide_and]
  rw [show snap.located.chunkId = snap.chunkId from rfl, hmem, not_or, Nat.not_lt, and_comm]

/-- What is left from chunk `k` on may be all that is left of the history. -/
theorem Ledger.Survives.dropping {a : Ledger T} {survivors : ℕ} (h : a.Survives survivors)
    {k : ChunkId} (hleft : ∃ snap ∈ a.hist.take survivors, k ≤ snap.chunkId) :
    (a.dropping k).Survives survivors := by
  obtain ⟨left, hmem, hle⟩ := hleft
  refine ⟨h.history, fun k' hk' snap hsnap hsnapk => ?_, fun k' hk' => ?_⟩
  · have hmem' : snap ∈ a.hist := hsnap
    refine (Ledger.mem_dropping hmem').mpr ?_
    rcases List.mem_append.mp hk' with hk' | hk'
    · exact Or.inl (h.oldest k' hk' snap hsnap hsnapk)
    · exact Or.inr (hsnapk.trans_lt (by simpa using (List.mem_filter.mp hk').2))
  · rcases List.mem_append.mp hk' with hk' | hk'
    · exact h.passed k' hk'
    · have hlt : k' < k := by simpa using (List.mem_filter.mp hk').2
      exact ⟨left, hmem, hlt.trans_le hle⟩

/-! ## Opening what is left -/

/-- The log without its entries below `n`. -/
def AbstractLog.fromIndex (a : AbstractLog T) (n : ℕ) : AbstractLog T where
  state := a.state
  entry i := if n ≤ i then a.entry i else none

/-- What is found in the directory when its chunks below `k` are gone as well. -/
def System.diskFrom (sys : System W) (k : ChunkId) (survivors : ℕ) : List (Located T) :=
  (sys.disk survivors).filter fun l => k ≤ l.chunkId

/-- Some index parts the entries of the dropped chunks from the others. -/
theorem AgreedHistory.exists_first {hist : List (Snapshot T)} (h : AgreedHistory hist)
    (hhist : History hist) (k : ChunkId) :
    ∃ n, ∀ i d, (endLog hist).get i = some d → (k ≤ d.chunkId ↔ n ≤ i) :=
  OrderedMap.exists_threshold fun _ _ _ _ hi hj hij hk =>
    hk.trans (h.chunkId_le_of_le hhist hi hj hij)

/-- The entries from `n` on, over the same records. -/
theorem viewOf_filter {stream : List (Located T)} {log : OrderedMap ℕ (LogData T)}
    {state : RaftLogState T} {p : LogData T → Prop} [DecidablePred p] {n : ℕ}
    (hfirst : ∀ i d, log.get i = some d → (p d ↔ n ≤ i)) :
    viewOf stream (log.filter fun e => decide (p e.2)) state =
      (viewOf stream log state).fromIndex n := by
  refine AbstractLog.ext rfl (funext fun i => ?_)
  simp only [viewOf, AbstractLog.fromIndex, OrderedMap.get_filter]
  cases hget : log.get i with
  | none => simp
  | some d =>
      have hiff := hfirst i d hget
      by_cases hn : n ≤ i
      · simp [Option.filter, hn, hiff.mpr hn]
      · simp [Option.filter, hn, mt hiff.mp hn]

/-- A log map that has lost its first entries still agrees with the state. -/
theorem Agreement.filter_first {st : RaftLogState T} {log : OrderedMap ℕ (LogData T)}
    (h : Agreement st log) {p : LogData T → Prop} [DecidablePred p] {n : ℕ}
    (hfirst : ∀ i d, log.get i = some d → (p d ↔ n ≤ i)) :
    Agreement st (log.filter fun e => decide (p e.2)) := by
  have hindex : (log.filter fun e => decide (p e.2)) = log.filter fun e => decide (n ≤ e.1) := by
    refine OrderedMap.ext_get fun i => ?_
    ext d
    simp only [OrderedMap.get_filter_eq_some_iff, decide_eq_true_eq]
    exact and_congr_right fun hget => hfirst i d hget
  rw [hindex]
  refine h.filter (fun a b m ha _ ham _ => ha.trans ham) ?_ fun i d hget _ => h.above hget
  intro i d hlast
  -- the last entry that is left is the last one of all
  obtain ⟨hget, -⟩ := OrderedMap.lastKeyValue_eq_some hlast
  obtain ⟨hget, hn⟩ := OrderedMap.get_filter_eq_some_iff.mp hget
  obtain ⟨m, e, hm, hstate, hle, -⟩ := h.exists_last hget
  have hkept : (log.filter fun e => decide (n ≤ e.1)).get m = some e :=
    OrderedMap.get_filter_eq_some_iff.mpr
      ⟨hm, decide_eq_true ((of_decide_eq_true hn).trans hle)⟩
  have hmax := (OrderedMap.lastKeyValue_eq_some hlast).2 m e hkept
  obtain rfl := Nat.le_antisymm hle hmax
  rw [hstate, Option.some.inj (hm.symm.trans hget)]

theorem Coherent.bufferRemovableChunks (hW : Lawful W) {s : RaftLog W} (h : Coherent s.journal) :
    Coherent s.bufferRemovableChunks.journal := by
  obtain ⟨hagree, hpurged, horder, hbacked⟩ := h
  refine ⟨?_, ?_, ?_, ?_⟩
  all_goals
    simp only [RaftLog.journal, stateMachine_bufferRemovableChunks,
      written_bufferRemovableChunks hW]
  · exact hagree
  · exact hpurged
  · exact horder
  · exact hbacked

/-- The survivors are those of a ledger in which the dropped chunks are unlinked. -/
theorem survives_dropping {sys : System W} {r : ℕ} {k : ChunkId} (h : sys.ledger.Survives r)
    (hleft : sys.diskFrom k r ≠ []) : (sys.ledger.dropping k).Survives r := by
  refine h.dropping ?_
  obtain ⟨l, hl⟩ := List.exists_mem_of_ne_nil _ hleft
  obtain ⟨hmem, hk⟩ := List.mem_filter.mp hl
  obtain ⟨snap, hsnap, rfl⟩ := List.mem_map.mp (List.mem_filter.mp hmem).1
  exact ⟨snap, hsnap, of_decide_eq_true hk⟩

/-- No entry is in a chunk that the store has unlinked, so those that are lost are in the chunks
that are dropped. -/
theorem not_unlinked_dropping_iff {sys : System W} (h : Restartable sys.ledger) {r : ℕ}
    (hsynced : sys.synced ≤ r) {k : ChunkId} {i : ℕ} {d : LogData T}
    (hget : (endLog (sys.hist.take r)).get i = some d) :
    d.chunkId ∉ (sys.ledger.dropping k).unlinked ↔ k ≤ d.chunkId := by
  obtain ⟨snap, hsnap, hchunk⟩ := (h.live.agreed.take r).logs.chunkId_mem hget
  have hdead : d.chunkId ∉ sys.unlinked := fun hmem =>
    (h.accounted.ordered.unlinked _ hmem).unused r hsynced i d hget rfl
  have hmem : snap ∈ sys.ledger.hist := List.mem_of_mem_take hsnap
  rw [← hchunk, Ledger.mem_dropping hmem, hchunk, not_or, Nat.not_lt]
  exact and_iff_right hdead

/-- Any prefix of the chunks can be dropped.  Opening what is left is not rejected, and returns a
store unless the WAL fails, if the payloads add up to a `usize`.  It finds the state that the live
store had at the end of what survives, with the entries whose records are left: those from some
index on. -/
theorem oldest_chunks_dropped (hW : Lawful W) {sys : System W}
    (h : System.Reachable ConsistentCall sys) {r : ℕ} (hsynced : sys.synced ≤ r) {k : ChunkId}
    (hleft : sys.diskFrom k r ≠ []) (config : Config W) :
    (∀ e, RaftLog.openLog config (sys.diskFrom k r) ≠ .error (.state e)) ∧
      ((T.overflowChecks = true → appendedTotal (sys.diskFrom k r) ≤ u64Max) →
        (∃ s, RaftLog.openLog config (sys.diskFrom k r) = .ok s) ∨
          ∃ e, RaftLog.openLog config (sys.diskFrom k r) = .error (.io e)) ∧
      ∀ s, RaftLog.openLog config (sys.diskFrom k r) = .ok s →
        Coherent s.journal ∧ ∃ n, s.view = (versionOf (sys.hist.take r)).fromIndex n ∧
          ∀ i d, (endLog (sys.hist.take r)).get i = some d → (n ≤ i ↔ k ≤ d.chunkId) := by
  obtain ⟨hrestartable, hkept⟩ := inOrder_of_reachable hW h
  have hrec := hrestartable.accounted.recorded
  have hord := hrestartable.accounted.ordered
  have hlive := hrestartable.live.agreed
  have hsurvives := hord.survives hrec Dead.passed hsynced
  have hdisk : sys.diskFrom k r = (sys.ledger.dropping k).disk r :=
    (sys.ledger.disk_dropping k r).symm
  have hdropped := survives_dropping hsurvives hleft
  rw [hdisk]
  refine ⟨openLog_not_rejected hW hdropped config, fun hfits => ?_, fun s hopen => ?_⟩
  · exact openLog_returns hW hdropped hlive.logs (replayFits_of_total hfits config.cache)
  have hsorted := Ledger.disk_sorted (a := sys.ledger.dropping k) hrec.history.sorted r
  obtain ⟨s₀, hloaded, rfl⟩ := openLog_loaded hW hsorted hopen
  obtain ⟨n, hn⟩ := (hlive.take r).exists_first (hrec.history.take r) k
  have hunlinked : ∀ i d, (endLog (sys.hist.take r)).get i = some d →
      (d.chunkId ∉ (sys.ledger.dropping k).unlinked ↔ n ≤ i) := fun i d hget =>
    (not_unlinked_dropping_iff hrestartable hsynced hget).trans (hn i d hget)
  have hlog : s₀.journal.log = (endLog (sys.hist.take r)).filter
      fun e => decide (e.2.chunkId ∉ (sys.ledger.dropping k).unlinked) :=
    hloaded.log_eq_filter hdropped hlive.logs
  have hstate : s₀.journal.state = endState (sys.hist.take r) := hdropped.state_eq hloaded
  refine ⟨Coherent.bufferRemovableChunks hW ⟨?_, ?_, ?_, hloaded.backed⟩, n, ?_,
    fun i d hget => (hn i d hget).symm⟩
  · rw [hlog, hstate]
    exact (hlive.take r).end_agreement.1.filter_first hunlinked
  · rw [hstate]
    exact (hlive.take r).end_agreement.2
  · rw [hstate]
    exact StatesKept.endState_of_forall hkept.start fun snap hsnap =>
      hkept.states snap (List.mem_of_mem_take hsnap)
  · rw [view_bufferRemovableChunks hW, hloaded.viewOf_eq hdropped, hlog, hstate]
    exact viewOf_filter hunlinked

/-- Four entries and a vote, in three chunks. -/
def threeChunks : System (memoryWal (exampleTypes true)) :=
  (System.simulate ConsistentCall (chunksOfSize true 3)
    [.call (.append [(⟨1, 0⟩, 5), (⟨1, 1⟩, 6), (⟨1, 2⟩, 7), (⟨1, 3⟩, 8)]),
      .call (.saveVote ⟨2, 7⟩)]).get (by decide +kernel)

/-- The store opened without the first chunk. -/
def laterChunks : RaftLog (memoryWal (exampleTypes true)) :=
  (RaftLog.openLog (chunksOfSize true 3) (threeChunks.diskFrom 3 8)).toOption.get
    (by decide +kernel)

theorem openLog_laterChunks :
    RaftLog.openLog (chunksOfSize true 3) (threeChunks.diskFrom 3 8) = .ok laterChunks :=
  Except.eq_ok_get _

/-- The first two entries are lost with the first chunk. -/
theorem oldest_chunks_dropped_laterChunks :
    Coherent laterChunks.journal ∧ laterChunks.logState = threeChunks.store.logState ∧
      laterChunks.view.entry 1 = none ∧ laterChunks.view.entry 2 = some (⟨1, 2⟩, 7) := by
  have hdropped := (oldest_chunks_dropped (memoryWal_lawful _) (System.reachable_get _)
    (r := 8) (by decide +kernel) (k := 3) (by decide +kernel) (chunksOfSize true 3)).2.2
      laterChunks openLog_laterChunks
  exact ⟨hdropped.1, by decide +kernel, by decide +kernel, by decide +kernel⟩

end RaftLogStore
