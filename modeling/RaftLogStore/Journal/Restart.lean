import RaftLogStore.Journal.Reopening
import RaftLogStore.Store.Guards

/-!
# Restart equivalence

A directory is replayed from some chunk on, so the replayed log map is the live one less the
entries of the unlinked chunks (`replay_log`).  What is left to show is that there are none: a
chunk is removed only when no entry of the log map is in it, and none ever comes back.  `Dead`
is that property, and `LiveLog` the invariant that a drain draws it from.
-/

namespace RaftLogStore

variable {T : Types} {W : ChunkedWal T}

/-! ## Replay -/

/-- The records from some chunk on lead to the entries of these chunks, if they start from an
empty log map. -/
theorem replay_log {p : ChunkId → Prop} [DecidablePred p] {sm sm' : RaftLogStateMachine T}
    {records : List (Located T)} (hreplay : Replay sm records sm') (hnew : sm.log = ∅)
    {hist pre suf : List (Snapshot T)} (h : LogHistory hist) (hsplit : hist = pre ++ suf)
    (hrecords : records = suf.map Snapshot.located) (hpre : ∀ snap ∈ pre, ¬ p snap.chunkId)
    (hsuf : ∀ snap ∈ suf, p snap.chunkId) :
    sm'.log = (endLog hist).filter fun e => decide (p e.2.chunkId) := by
  induction hreplay generalizing hist suf with
  | nil =>
      have hnil : suf = [] := List.map_eq_nil_iff.mp hrecords.symm
      rw [hnew, OrderedMap.filter_eq_empty]
      intro k d hget
      obtain ⟨snap, hsnap, hchunk⟩ := h.chunkId_mem hget
      rw [hsplit, hnil, List.append_nil] at hsnap
      simpa [hchunk] using hpre snap hsnap
  | @record sm₁ sm₂ records l _ happly ih =>
      obtain ⟨suf', snap, rfl⟩ : ∃ suf' snap, suf = suf' ++ [snap] := by
        rcases List.eq_nil_or_concat' suf with rfl | hconcat
        · simp at hrecords
        · exact hconcat
      rw [List.map_append, List.map_singleton] at hrecords
      obtain ⟨hrecords', hl⟩ := List.append_inj' hrecords rfl
      obtain rfl := List.singleton_inj.mp hl
      rw [← List.append_assoc] at hsplit
      subst hsplit
      have hprevious := ih (h.of_isPrefix (List.prefix_append _ _)) rfl hrecords'
        fun s hs => hsuf s (by simp [hs])
      -- the last record does the same to the entries of the later chunks alone
      have hlast := RaftLogStateMachine.logAfter_filter (p := fun e => decide (p e.2.chunkId))
        h.last (fun logId => by simpa using hsuf snap (by simp))
      have hlog := (RaftLogStateMachine.apply_eq_ok.mp happly).1
      rw [hprevious, hlast] at hlog
      rw [endLog_concat]
      exact (Except.ok.inj hlog).symm
  | persisted checkpoint _ ih => exact ih h hsplit hrecords hsuf

/-- A restart finds the entries that are not in an unlinked chunk. -/
theorem Loaded.log_eq_filter {a : Ledger T} {survivors : ℕ} {j : Journal T}
    (hsurvives : a.Survives survivors) (hlogs : LogHistory a.hist)
    (hloaded : Loaded (a.disk survivors) j) :
    j.log = (endLog (a.hist.take survivors)).filter
      fun e => decide (e.2.chunkId ∉ a.unlinked) := by
  obtain ⟨pre, suf, hsplit⟩ := hsurvives.split
  obtain ⟨config, sm, hreplay, hlog, -, -⟩ := hloaded.replay
  have hsuf : ∀ snap ∈ suf, snap.chunkId ∉ a.unlinked := by
    intro snap hsnap
    have hmem : snap.located ∈ a.disk survivors :=
      hsplit.disk_eq ▸ List.mem_map.mpr ⟨snap, hsnap, rfl⟩
    simpa using (List.mem_filter.mp hmem).2
  rw [hlog]
  exact replay_log (p := fun k => k ∉ a.unlinked) hreplay rfl
    (hlogs.of_isPrefix (List.take_prefix _ _)) hsplit.take_eq hsplit.disk_eq
    (fun snap hsnap => not_not.mpr (hsplit.unlinked snap hsnap)) hsuf

/-- Where no entry is in an unlinked chunk, a restart finds all of them. -/
theorem Loaded.log_eq {a : Ledger T} {survivors : ℕ} {j : Journal T}
    (hsurvives : a.Survives survivors) (hlogs : LogHistory a.hist)
    (hkept : ∀ i d, (endLog (a.hist.take survivors)).get i = some d → d.chunkId ∉ a.unlinked)
    (hloaded : Loaded (a.disk survivors) j) : j.log = endLog (a.hist.take survivors) := by
  rw [hloaded.log_eq_filter hsurvives hlogs, OrderedMap.filter_eq_self]
  intro i d hget
  simpa using hkept i d hget

/-- Each record of a directory passes its check, as it did when it was written. -/
theorem Ledger.Survives.replayed_check {a : Ledger T} {survivors : ℕ}
    (hsurvives : a.Survives survivors) {records rest : List (Located T)} {l : Located T}
    {start sm : RaftLogStateMachine T} (hcut : a.disk survivors = records ++ l :: rest)
    (hreplay : Replay start records sm) : sm.check l.record = .ok () := by
  obtain ⟨pre, snap, rfl, hprefix, hplace⟩ := hsurvives.replayed_place hcut hreplay
  rcases hplace with ⟨-, hrecord⟩ | ⟨-, hstate⟩
  · rw [hrecord]
    rfl
  · rw [RaftLogStateMachine.check, hstate]
    exact ((hsurvives.history.take survivors).of_isPrefix hprefix).last_cases.1

/-- Opening what is left of a directory is not rejected. -/
theorem openLog_not_rejected (hW : Lawful W) {a : Ledger T} {survivors : ℕ}
    (hsurvives : a.Survives survivors) (config : Config W) (e : RaftLogStateError T) :
    RaftLog.openLog config (a.disk survivors) ≠ .error (.state e) := by
  intro hopen
  unfold RaftLog.openLog at hopen
  split at hopen
  · next failure sm hfailed =>
    obtain rfl := Except.error.inj hopen
    rcases hW.openWal_error hfailed with ⟨e', he'⟩ | hrejected
    · exact absurd he' (by simp)
    · obtain ⟨records, l, rest, sm₁, sm₂, hcut, hreplay, happly⟩ := hrejected
      have hcheck := hsurvives.replayed_check hcut hreplay
      exact absurd (RaftLogStateMachine.apply_eq_error_of_check hcheck happly) (by simp)
  · exact absurd hopen (by simp)

/-! ## The live log map -/

/-- A history along which the log maps follow the records and agree with the states. -/
structure AgreedHistory (hist : List (Snapshot T)) : Prop where
  logs : LogHistory hist
  agreement : ∀ snap ∈ hist, Agreement snap.state snap.log ∧ PurgedLeLast snap.state

namespace AgreedHistory

variable {hist : List (Snapshot T)}

theorem nil : AgreedHistory ([] : List (Snapshot T)) := ⟨LogHistory.nil, by simp⟩

theorem take (h : AgreedHistory hist) (n : ℕ) : AgreedHistory (hist.take n) :=
  ⟨h.logs.of_isPrefix (List.take_prefix n hist), fun snap hsnap =>
    h.agreement snap (List.mem_of_mem_take hsnap)⟩

theorem concat (h : AgreedHistory hist) {snap : Snapshot T}
    (hlog : RaftLogStateMachine.logAfter snap.located.record snap.chunkId
      snap.located.segment (endLog hist) = .ok snap.log)
    (hagreement : Agreement snap.state snap.log ∧ PurgedLeLast snap.state) :
    AgreedHistory (hist ++ [snap]) := by
  refine ⟨h.logs.concat hlog, fun s hs => ?_⟩
  rcases List.mem_append.mp hs with hs | hs
  · exact h.agreement s hs
  · rw [List.mem_singleton.mp hs]
    exact hagreement

/-- The agreement at the end of the history, which may be empty. -/
theorem end_agreement (h : AgreedHistory hist) :
    Agreement (endState hist) (endLog hist) ∧ PurgedLeLast (endState hist) := by
  rcases List.eq_nil_or_concat' hist with rfl | ⟨front, last, rfl⟩
  · exact ⟨Agreement.empty _, le_rfl, le_rfl⟩
  · rw [endState_concat, endLog_concat]
    exact h.agreement last (by simp)

/-- No entry that lies in a chunk up to `k` is above the state at the end of chunk `k`. -/
theorem entry_le_trailing (h : AgreedHistory hist) (hhist : History hist) {k : ChunkId} {i : ℕ}
    {d : LogData T} (hget : (endLog hist).get i = some d) (hchunk : d.chunkId ≤ k) :
    some d.logId ≤ (trailing hist k).last := by
  induction hist using List.reverseRecOn with
  | nil => simp at hget
  | append_singleton hist snap ih =>
      have hfront : hist <+: hist ++ [snap] := List.prefix_append _ _
      by_cases hk : snap.chunkId ≤ k
      · -- the history ends within chunk `k`
        have hall : ∀ s ∈ hist ++ [snap], s.chunkId ≤ k := by
          intro s hs
          rcases List.mem_append.mp hs with hs | hs
          · exact ((List.pairwise_append.mp hhist.sorted).2.2 s hs snap (by simp)).trans hk
          · rw [List.mem_singleton.mp hs]
            exact hk
        rw [trailing_of_forall_le hall]
        exact h.end_agreement.1.held_le_last hget
      · rw [trailing_concat_of_lt (not_le.mp hk)]
        rw [endLog_concat] at hget
        have hagreed : AgreedHistory hist :=
          ⟨h.logs.of_isPrefix hfront, fun s hs => h.agreement s (List.mem_append_left _ hs)⟩
        rcases RaftLogStateMachine.get_logAfter h.logs.last hget with hold | ⟨_, _, _, hnew, _⟩
        · exact ih hagreed (hhist.of_isPrefix hfront) hold
        · exact absurd (hnew ▸ hchunk) hk

end AgreedHistory

/-- The log map of the journal is the one at the end of an agreed history. -/
structure LiveLog (a : Ledger T) : Prop where
  agreed : AgreedHistory a.hist
  log : a.journal.log = endLog a.hist

/-- A store in the middle of a call is in agreement. -/
theorem LiveLog.agreement {a : Ledger T} (h : LiveLog a) (hrec : Recorded a) :
    Agreement a.journal.state a.journal.log ∧ PurgedLeLast a.journal.state := by
  rw [hrec.state, h.log]
  exact h.agreed.end_agreement

/-! ## Chunks that no entry is in -/

/-- From the first `n` records on, no log map has an entry in chunk `k`, and a later chunk has
begun. -/
structure Dead (hist : List (Snapshot T)) (n : ℕ) (k : ChunkId) : Prop where
  passed : Passed hist n k
  unused : ∀ m, n ≤ m → ∀ i d, (endLog (hist.take m)).get i = some d → d.chunkId ≠ k

/-- What one more record leaves dead. -/
theorem Dead.concat {hist : List (Snapshot T)} {n : ℕ} {k : ChunkId} (h : Dead hist n k)
    (hn : n ≤ hist.length) {snap : Snapshot T}
    (hunused : ∀ i d, snap.log.get i = some d → (endLog hist).get i = some d ∨
      d.chunkId = snap.chunkId) (hchunk : k < snap.chunkId) : Dead (hist ++ [snap]) n k := by
  refine ⟨h.passed.append _, fun m hm i d hget => ?_⟩
  rcases Nat.lt_or_ge hist.length m with hlt | hge
  · rw [List.take_of_length_le (by simp; omega), endLog_concat] at hget
    rcases hunused i d hget with hold | hnew
    · refine h.unused hist.length hn i d ?_
      rwa [List.take_length]
    · exact hnew ▸ (Nat.ne_of_lt hchunk).symm
  · rw [List.take_append_of_le_length hge] at hget
    exact h.unused m hm i d hget

/-- The log map that a restart finds, if no entry was in an unlinked chunk. -/
theorem Dead.log_eq {a : Ledger T} {survivors : ℕ} {j : Journal T} (hrec : Recorded a)
    (hord : Ordered Dead a) (hlogs : LogHistory a.hist) (hsynced : a.synced ≤ survivors)
    (hloaded : Loaded (a.disk survivors) j) : j.log = endLog (a.hist.take survivors) := by
  refine hloaded.log_eq (hord.survives hrec Dead.passed hsynced) hlogs fun i d hget hunlinked => ?_
  exact (hord.unlinked _ hunlinked).unused survivors hsynced i d hget rfl

/-- A drained chunk is dead: its entries are at or below `purged`, and no such entry is held. -/
theorem dead_of_drained {a : Ledger T} (hrec : Recorded a) (hlive : LiveLog a)
    {purged : T.LogId} (hpurged : a.journal.state.purged = some purged) {c : ClosedChunk T}
    (hc : c ∈ a.journal.removable purged) : Dead a.hist a.hist.length c.chunkId := by
  obtain ⟨hclosed, hremovable⟩ := Journal.mem_removable hc
  refine ⟨hrec.closed_passed hclosed, fun m hm i d hget hchunk => ?_⟩
  rw [List.take_of_length_le hm] at hget
  have habove : some purged < some d.logId := by
    rw [← hpurged]
    exact ((hlive.agreement hrec).1.above (hlive.log ▸ hget)).1
  have htrailing : some d.logId ≤ (trailing a.hist c.chunkId).last :=
    hlive.agreed.entry_le_trailing hrec.history hget hchunk.le
  rw [hrec.closed c hclosed] at hremovable
  exact absurd (htrailing.trans hremovable) (not_le.mpr habove)

/-- New entries go to the open chunk, which is not dead. -/
theorem Dead.store {G : Journal T → RaftLogRecord T → Prop} {a : Ledger T} (hrec : Recorded a)
    (hlive : LiveLog a) {added : List (Snapshot T)} {j : Journal T}
    (hstep : Journal.Step G a.journal added j) {n : ℕ} {k : ChunkId} (hn : n ≤ a.hist.length)
    (h : Dead a.hist n k) : Dead (a.hist ++ added) n k := by
  have hopen := hrec.lt_openChunkId h.passed
  cases hstep with
  | write hg hchunk hcheck hlog hcache =>
      refine h.concat hn (fun i d hget => ?_) (hopen.trans_eq hchunk.symm)
      rcases RaftLogStateMachine.get_logAfter hlog hget with hold | ⟨_, _, _, hnew, _⟩
      · exact Or.inl (hlive.log ▸ hold)
      · exact Or.inr hnew
  | rotate segment hid hrequests hupto =>
      exact h.concat hn (fun i d hget => Or.inl (hlive.log ▸ hget)) (hopen.trans hid)
  | _ =>
      -- the other steps write nothing
      simpa using h

/-- A restart finds no entry that the live store did not have. -/
theorem Dead.reopened {a : Ledger T} {survivors : ℕ} {j : Journal T}
    (hsurvives : a.Survives survivors) (hloaded : Loaded (a.disk survivors) j)
    (hlog : j.log = endLog (a.hist.take survivors)) (hlen : survivors ≤ a.hist.length)
    (sentBefore : List ChunkId) {n : ℕ} {k : ChunkId} (hn : n ≤ survivors)
    (h : Dead a.hist n k) : Dead (a.reopened survivors sentBefore j).hist n k := by
  have hdead : Dead (a.hist.take survivors) n k := by
    refine ⟨h.passed.take hn, fun m hm i d hget => ?_⟩
    rw [List.take_take] at hget
    exact h.unused _ (by omega) i d hget
  rcases reopened_hist sentBefore hloaded with heq | ⟨segment, heq⟩
  · rw [heq]
    exact hdead
  · have hopen : k < j.openChunkId := by
      refine (hsurvives.recorded hloaded sentBefore).lt_openChunkId (n := n) ?_
      rw [heq]
      exact hdead.passed.append _
    rw [heq]
    refine hdead.concat (by rw [List.length_take]; omega) (fun i d hget => Or.inl ?_) hopen
    rwa [hlog] at hget

/-- A chunk is dead once it is drained, and stays dead. -/
theorem dead_persistent : Persistent (T := T) GoodRecord LiveLog Dead where
  passed := Dead.passed
  mono h hnm := ⟨h.passed.mono hnm, fun m hm => h.unused m (hnm.trans hm)⟩
  drain hrec hlive hpurged hc := dead_of_drained hrec hlive hpurged hc
  store hrec hlive hstep hn h := h.store hrec hlive hstep hn
  reopen hrec hord hlive hsynced hlen hloaded hn h := by
    have hlog := Dead.log_eq hrec hord hlive.agreed.logs hsynced hloaded
    have hsurvives := hord.survives hrec Dead.passed hsynced
    exact h.reopened hsurvives hloaded hlog hlen _ hn

/-! ## The invariant -/

/-- A restart that finds the state and the log map of the live store keeps the agreement. -/
theorem LiveLog.reopened {a : Ledger T} {survivors : ℕ} {j : Journal T} (h : AgreedHistory a.hist)
    (hloaded : Loaded (a.disk survivors) j) (sentBefore : List ChunkId)
    (hlog : j.log = endLog (a.hist.take survivors))
    (hstate : j.state = endState (a.hist.take survivors)) :
    LiveLog (a.reopened survivors sentBefore j) := by
  have htake := h.take survivors
  rcases reopened_hist sentBefore hloaded with heq | ⟨segment, heq⟩
  · exact ⟨heq ▸ htake, heq ▸ hlog⟩
  · refine ⟨heq ▸ htake.concat ?_ ?_, by rw [heq, endLog_concat]; rfl⟩
    · rw [hlog]
      rfl
    · rw [hlog, hstate]
      exact htake.end_agreement

/-- Every step of a ledger with good records keeps the agreement. -/
theorem LiveLog.step {a a' : Ledger T} (h : LiveLog a) (hacc : Accounted Dead a)
    (hstep : Ledger.Step GoodRecord a a') : LiveLog a' := by
  have hagree := h.agreement hacc.recorded
  cases hstep with
  | store hjournal =>
      cases hjournal with
      | write hg hchunk hcheck hlog hcache =>
          refine ⟨h.agreed.concat ?_ (hagree.1.step hagree.2 hg hcheck hlog), by simp⟩
          rw [← h.log]
          exact hlog
      | rotate segment hid hrequests hupto =>
          refine ⟨h.agreed.concat ?_ hagree, by simp⟩
          rw [← h.log]
          rfl
      | _ =>
          -- the other steps write nothing
          exact ⟨by simpa using h.agreed, by simpa using h.log⟩
  | handleWrite hrequest => exact ⟨h.agreed, h.log⟩
  | handleRemoval hrequest => exact ⟨h.agreed, h.log⟩
  | handleFile hrequest => exact ⟨h.agreed, h.log⟩
  | unlinkFirst n hrequest => exact ⟨h.agreed, h.log⟩
  | @reopen survivors sentBefore j hsynced hlen hremembers hloaded =>
      have hlog := Dead.log_eq hacc.recorded hacc.ordered h.agreed.logs hsynced hloaded
      have hsurvives := hacc.ordered.survives hacc.recorded Dead.passed hsynced
      exact LiveLog.reopened h.agreed hloaded sentBefore hlog (hsurvives.state_eq hloaded)

/-- What holds of every ledger that calls with good records lead to. -/
structure Restartable (a : Ledger T) : Prop where
  accounted : Accounted Dead a
  live : LiveLog a

theorem Restartable.initial {j : Journal T} (hloaded : Loaded [] j) :
    Restartable ((Ledger.blank j).reopened 0 [] j) := by
  have hopened : Loaded ((Ledger.blank j).disk 0) j := hloaded
  have hlog : j.log = ∅ :=
    hopened.log_eq (Ledger.Survives.nil j) LogHistory.nil (by simp [Ledger.blank])
  refine ⟨Accounted.initial hloaded, ?_⟩
  exact LiveLog.reopened AgreedHistory.nil hopened [] hlog hopened.state_eq

theorem Restartable.step {a a' : Ledger T} (h : Restartable a)
    (hstep : Ledger.Step GoodRecord a a') : Restartable a' :=
  ⟨h.accounted.step dead_persistent h.live hstep, h.live.step h.accounted hstep⟩

end RaftLogStore
