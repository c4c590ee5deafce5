import RaftLogStore.Journal.Opening
import RaftLogStore.Journal.Reporting
import RaftLogStore.Results.Reading

/-!
# What is not persisted stays in the cache

The boundary below which the cache may evict is a log id, but what has to stay in the cache is
decided by chunks: a record that is only in the open chunk cannot be loaded.  The two agree as long
as log ids grow.  A truncation lets them start again from below, and then an entry in the open
chunk may be at or below the boundary.

## Strategy
1. The invariant `Tracked` says that an entry at or below the `last` of a closed chunk lies in this
   chunk or before it.  It says so of the chunk that has been reported last and of every chunk that
   may still be reported.
2. So whatever is evictable is persisted (`Tracked.evictable`), and evictions are harmless.
3. An append keeps this if its log id is above these chunks (`AboveReports`).  Within one call, the
   first entry decides, since each further one is above it.
4. A truncation drops what is above the log id it keeps.  This must not be an entry of the log that
   stays (`KeptInOrder`).
-/

namespace RaftLogStore

open RaftLog

variable {T : Types} {W : ChunkedWal T}

/-! ## Definitions -/

/-- The entries that are not in the cache are persisted, and so are all that a `read` or a dump
needs the WAL for. -/
structure EntriesAvailable (sys : System W) : Prop where
  evicted {i : ℕ} {d : LogData T} : sys.store.stateMachine.log.get i = some d →
    sys.store.stateMachine.payloadCache.get d.logId = none →
    sys.Persisted d.chunkId ∧ ∃ payload, ∃ snap ∈ sys.hist.take sys.synced,
      snap.located = ⟨d.chunkId, d.recordSegment, .action (.append d.logId payload)⟩
  openChunk {i : ℕ} {d : LogData T} : sys.store.stateMachine.log.get i = some d →
    d.chunkId = W.openChunkId sys.store.wal →
    ∃ payload, sys.store.stateMachine.payloadCache.get d.logId = some payload
  read (fromIndex toIndex : ℕ) :
    ∀ d ∈ (sys.store.stateMachine.log.range fromIndex toIndex).values,
      sys.store.stateMachine.payloadCache.get d.logId = none → sys.Persisted d.chunkId
  dump : ∀ d ∈ sys.store.dumpData.logs,
    sys.store.dumpData.cache.get d.logId = none → sys.Persisted d.chunkId

namespace Reporting

/-- The chunk is closed, and it is the one that has been reported last, or it may still be
reported. -/
def Awaited (r : Reporting W) (chunkId : ChunkId) : Prop :=
  chunkId < W.openChunkId r.system.store.wal ∧ ∀ k ∈ r.reported, k ≤ chunkId

instance (r : Reporting W) (chunkId : ChunkId) : Decidable (r.Awaited chunkId) :=
  inferInstanceAs (Decidable (_ ∧ _))

/-- The log id is above the `last` of each of these chunks. -/
def AboveReports (r : Reporting W) (logId : T.LogId) : Prop :=
  ∀ snap ∈ r.system.hist, r.Awaited snap.chunkId →
    (trailing r.system.hist snap.chunkId).last < some logId

instance (r : Reporting W) (logId : T.LogId) : Decidable (r.AboveReports logId) :=
  inferInstanceAs (Decidable (∀ snap ∈ r.system.hist, _ → _))

/-- A truncation to `keep` keeps no entry above `keep`, unless the entry is persisted. -/
def KeptInOrder (r : Reporting W) (keep : Option T.LogId) : Prop :=
  ∀ index ∈ (T.nextLogIndex keep).toOption, ∀ i d, r.system.store.stateMachine.log.get i = some d →
    i < index → some d.logId ≤ keep ∨ r.system.Persisted d.chunkId

instance (r : Reporting W) (keep : Option T.LogId) : Decidable (r.KeptInOrder keep) :=
  inferInstanceAs (Decidable (∀ index ∈ _, _))

/-- The first entry that the call appends is above the reports, and a truncation keeps what is in
order. -/
def CallInOrder (r : Reporting W) : Op T → Prop
  | .append ((logId, _) :: _) =>
      r.system.store.logState.checkAppend logId = .ok () → r.AboveReports logId
  | .truncate index => ∀ keep ∈ (r.system.store.truncateKeep index.toNat).toOption,
      r.system.store.logState.check (.action (.truncateAfter keep)) = .ok () → r.KeptInOrder keep
  | _ => True

instance (r : Reporting W) : (op : Op T) → Decidable (r.CallInOrder op)
  | .append ((logId, _) :: _) => inferInstanceAs (Decidable (_ → r.AboveReports logId))
  | .truncate _ => inferInstanceAs (Decidable (∀ keep ∈ _, _ → r.KeptInOrder keep))
  | .append [] | .saveVote _ | .saveUserData _ | .purge _ | .commit _ | .updateState _
  | .flush _ _ => isTrue trivial

def EventInOrder (r : Reporting W) : ReportingEvent W → Prop
  | .system (.call op) => r.CallInOrder op
  | _ => True

instance (r : Reporting W) : (e : ReportingEvent W) → Decidable (r.EventInOrder e)
  | .system (.call op) => inferInstanceAs (Decidable (r.CallInOrder op))
  | .system (.drainCache) | .system (.persisted _) | .system .work | .system (.unlinkFirst _)
  | .system (.crash _ _) | .system (.restart _ _) | .report _ => isTrue trivial

end Reporting

/-! ## Chunks -/

theorem trailing_append_of_forall_lt {hist added : List (Snapshot T)} {k : ChunkId}
    (h : ∀ snap ∈ added, k < snap.chunkId) : trailing (hist ++ added) k = trailing hist k := by
  have hnone : added.filter (fun snap => decide (snap.chunkId ≤ k)) = [] :=
    List.filter_eq_nil_iff.mpr fun snap hsnap => by simpa using h snap hsnap
  rw [trailing, List.filter_append, hnone, List.append_nil, trailing]

/-- A chunk that is persisted stays so, since records are only added to the open chunk and behind
it. -/
theorem System.Persisted.extend {sys sys' : System W} {chunkId : ChunkId}
    (h : sys.Persisted chunkId) {added : List (Snapshot T)} (hhist : sys'.hist = sys.hist ++ added)
    (hadded : ∀ snap ∈ added, W.openChunkId sys.store.wal ≤ snap.chunkId)
    (hopen : W.openChunkId sys.store.wal ≤ W.openChunkId sys'.store.wal)
    (hsynced : sys.synced ≤ sys'.synced) : sys'.Persisted chunkId := by
  obtain ⟨hclosed, hdone⟩ := h
  refine ⟨hclosed.trans_le hopen, fun snap hsnap => ?_⟩
  rw [hhist, List.drop_append] at hsnap
  rcases List.mem_append.mp hsnap with hold | hnew
  · exact hdone snap (List.drop_subset_drop_left _ hsynced hold)
  · exact hclosed.trans_le (hadded snap (List.mem_of_mem_drop hnew))

/-- A chunk before a persisted one is persisted. -/
theorem System.Persisted.of_le {sys : System W} {chunkId chunkId' : ChunkId}
    (h : sys.Persisted chunkId) (hle : chunkId' ≤ chunkId) : sys.Persisted chunkId' :=
  ⟨hle.trans_lt h.1, fun snap hsnap => hle.trans_lt (h.2 snap hsnap)⟩

/-- The record of a held entry is in the history, and no chunk comes after the open one. -/
theorem held_recorded (hW : Lawful W) {allowed : RaftLog W → Op T → Prop} {sys : System W}
    (h : System.Reachable allowed sys) {i : ℕ} {d : LogData T}
    (hget : sys.store.stateMachine.log.get i = some d) :
    ∃ payload, ∃ snap ∈ sys.hist,
      snap.located = ⟨d.chunkId, d.recordSegment, .action (.append d.logId payload)⟩ := by
  obtain ⟨payload, hlatest, -⟩ := (backed_of_reachable hW h).payload hget
  obtain ⟨pre, hwritten, -⟩ := (h.accounted hW).recorded.written
  have hmem := List.mem_append_right pre hlatest.mem
  obtain ⟨snap, hsnap, hlocated⟩ := List.mem_map.mp (hwritten ▸ hmem)
  exact ⟨payload, snap, hsnap, hlocated⟩

theorem held_chunkId_le (hW : Lawful W) {allowed : RaftLog W → Op T → Prop} {sys : System W}
    (h : System.Reachable allowed sys) {i : ℕ} {d : LogData T}
    (hget : sys.store.stateMachine.log.get i = some d) :
    d.chunkId ≤ W.openChunkId sys.store.wal := by
  obtain ⟨payload, snap, hsnap, hlocated⟩ := held_recorded hW h hget
  have hle := (h.accounted hW).recorded.mem_hist_le hsnap
  rw [Snapshot.chunkId, hlocated] at hle
  exact hle

/-! ## One record -/

section OneRecord

variable {rec : RaftLogRecord T} {s s' : RaftLog W} {l : Located T}

theorem Wrote.openChunkId_le (h : Wrote rec s s' l) :
    W.openChunkId s.wal ≤ W.openChunkId s'.wal := by
  rcases h.snapshots with ⟨hopen, -⟩ | ⟨hopen, -⟩
  · exact hopen.ge
  · exact hopen.le

/-- An accepted record adds to the open chunk and behind it. -/
theorem Wrote.openChunkId_le_of_mem (h : Wrote rec s s' l) :
    ∀ snap ∈ newSnapshots s s', W.openChunkId s.wal ≤ snap.chunkId := by
  intro snap hsnap
  rcases h.snapshots with ⟨-, heq⟩ | ⟨hopen, checkpoint, hchunk, heq⟩
  · simp only [heq, List.mem_singleton] at hsnap
    rw [hsnap, Snapshot.chunkId, h.chunkId]
  · simp only [heq, List.mem_cons, List.not_mem_nil, or_false] at hsnap
    rcases hsnap with rfl | rfl
    · rw [Snapshot.chunkId, h.chunkId]
    · rw [Snapshot.chunkId, hchunk]
      exact hopen.le

/-- The end of a chunk that was closed before. -/
theorem Wrote.trailing_eq (h : Wrote rec s s' l) {hist : List (Snapshot T)} {k : ChunkId}
    (hk : k < W.openChunkId s.wal) : trailing (hist ++ newSnapshots s s') k = trailing hist k :=
  trailing_append_of_forall_lt fun snap hsnap => hk.trans_le (h.openChunkId_le_of_mem snap hsnap)

/-- The end of a chunk that the record has filled. -/
theorem Wrote.trailing_open (h : Wrote rec s s' l) {hist : List (Snapshot T)}
    (hle : ∀ snap ∈ hist, snap.chunkId ≤ W.openChunkId s.wal)
    (hclosed : W.openChunkId s.wal < W.openChunkId s'.wal) :
    trailing (hist ++ newSnapshots s s') (W.openChunkId s.wal) = s'.logState := by
  rcases h.snapshots with ⟨hopen, -⟩ | ⟨-, checkpoint, hchunk, heq⟩
  · exact absurd hopen hclosed.ne'
  · rw [heq, List.append_cons, trailing_concat_of_lt (by simpa [Snapshot.chunkId, hchunk]),
      trailing_of_forall_le, endState_concat]
    intro snap hsnap
    rcases List.mem_append.mp hsnap with hsnap | hsnap
    · exact hle snap hsnap
    · rw [List.mem_singleton.mp hsnap, Snapshot.chunkId, h.chunkId]

theorem lastEvictable_cacheAfter {c c' : PayloadCache T}
    (h : RaftLogStateMachine.cacheAfter rec c = .ok c') : c'.lastEvictable = c.lastEvictable := by
  rcases rec with ⟨vote | ⟨logId, payload⟩ | logId | (- | keep) | upto⟩ | st
  · rw [← Except.ok.inj h]
  · obtain ⟨size, front, hdrop, -⟩ := PayloadCache.insert_ok h
    exact hdrop.lastEvictable
  · rw [← Except.ok.inj h]
  · rw [← Except.ok.inj h]
    rfl
  · obtain ⟨⟨back, hdrop, -⟩, -⟩ := PayloadCache.truncateAfter_ok h
    exact hdrop.lastEvictable
  · obtain ⟨⟨front, hdrop, -⟩, -⟩ := PayloadCache.purgeUpto_ok h
    exact hdrop.lastEvictable
  · rw [← Except.ok.inj h]

end OneRecord

/-- The system after a record. -/
def Reporting.wrote (r : Reporting W) (s : RaftLog W) : Reporting W :=
  { r with system := { r.system with
      store := s, hist := r.system.hist ++ newSnapshots r.system.store s } }

/-! ## The invariant -/

/-- What lies at or below the `last` of a chunk that has been reported last, or may still be
reported, lies in this chunk or before it. -/
structure Tracked (r : Reporting W) : Prop where
  reachable : System.Reachable AnyCall r.system
  boundary : r.system.store.stateMachine.payloadCache.lastEvictable =
    r.reported.bind fun k => (trailing r.system.hist k).last
  reported : ∀ k ∈ r.reported, (∃ snap ∈ r.system.hist, snap.chunkId = k) ∧ r.system.Persisted k
  covered : ∀ snap ∈ r.system.hist, r.Awaited snap.chunkId →
    ∀ i d, r.system.store.stateMachine.log.get i = some d →
      some d.logId ≤ (trailing r.system.hist snap.chunkId).last → d.chunkId ≤ snap.chunkId
  available : ∀ i d, r.system.store.stateMachine.log.get i = some d →
    r.system.store.stateMachine.payloadCache.get d.logId = none → r.system.Persisted d.chunkId

namespace Tracked

variable {r : Reporting W}

/-- What is evictable is persisted. -/
theorem evictable (h : Tracked r) {i : ℕ} {d : LogData T}
    (hget : r.system.store.stateMachine.log.get i = some d)
    (hle : some d.logId ≤ r.system.store.stateMachine.payloadCache.lastEvictable) :
    r.system.Persisted d.chunkId := by
  rw [h.boundary] at hle
  cases hreported : r.reported with
  | none => simp [hreported] at hle
  | some k =>
      rw [hreported] at hle
      obtain ⟨⟨snap, hsnap, rfl⟩, hpersisted⟩ := h.reported k hreported
      have hawaited : r.Awaited snap.chunkId := by
        refine ⟨hpersisted.1, fun k' hk' => ?_⟩
        rw [hreported] at hk'
        exact (Option.some.inj hk').ge
      exact hpersisted.of_le (h.covered snap hsnap hawaited i d hget hle)

/-- Evictions keep the invariant. -/
theorem available_of_dropped (h : Tracked r) {cache : PayloadCache T}
    {front back : List (T.LogId × T.LogPayload)}
    (hdrop : PayloadCache.Dropped r.system.store.stateMachine.payloadCache cache front back)
    (hevictable : ∀ e ∈ front ++ back,
      some e.1 ≤ r.system.store.stateMachine.payloadCache.lastEvictable)
    {i : ℕ} {d : LogData T} (hget : r.system.store.stateMachine.log.get i = some d)
    (hmiss : cache.get d.logId = none) : r.system.Persisted d.chunkId := by
  rcases hdrop.get_cases d.logId with heq | ⟨-, payload, hmem⟩
  · exact h.available i d hget (heq ▸ hmiss)
  · exact h.evictable hget (hevictable _ hmem)

/-- A step that leaves the entries, the chunks and the cache alone. -/
theorem of_same (h : Tracked r) {sys : System W} (hreachable : System.Reachable AnyCall sys)
    (hstore : sys.store.stateMachine = r.system.store.stateMachine)
    (hopen : W.openChunkId sys.store.wal = W.openChunkId r.system.store.wal)
    (hhist : sys.hist = r.system.hist) (hsynced : r.system.synced ≤ sys.synced) :
    Tracked { r with system := sys } := by
  have hadded : sys.hist = r.system.hist ++ [] := by rw [hhist, List.append_nil]
  have hpersisted {k : ChunkId} (hk : r.system.Persisted k) : sys.Persisted k :=
    hk.extend hadded (by simp) hopen.ge hsynced
  refine ⟨hreachable, ?_, fun k hk => ?_, fun snap hsnap hawaited i d => ?_, fun i d => ?_⟩
  · simp only [hstore, hhist]
    exact h.boundary
  · simp only [hhist]
    exact ⟨(h.reported k hk).1, hpersisted (h.reported k hk).2⟩
  · simp only [hhist, hstore] at hsnap ⊢
    refine h.covered snap hsnap ⟨?_, hawaited.2⟩ i d
    exact hopen ▸ hawaited.1
  · simp only [hstore]
    exact fun hget hmiss => hpersisted (h.available i d hget hmiss)

/-- An entry above the reports is not evictable. -/
theorem lastEvictable_lt (h : Tracked r) {logId : T.LogId} (habove : r.AboveReports logId) :
    r.system.store.stateMachine.payloadCache.lastEvictable < some logId := by
  rw [h.boundary]
  cases hreported : r.reported with
  | none => simp
  | some k =>
      obtain ⟨⟨snap, hsnap, rfl⟩, hpersisted⟩ := h.reported k hreported
      refine habove snap hsnap ⟨hpersisted.1, fun k' hk' => ?_⟩
      rw [hreported] at hk'
      exact (Option.some.inj hk').ge

/-! ### One record -/

variable {rec : RaftLogRecord T} {s : RaftLog W} {l : Located T}

/-- After an append the entries that have been evicted miss, but not the new one. -/
theorem available_of_append (h : Tracked r) {logId : T.LogId} {payload : T.LogPayload}
    (hwrote : Wrote (.action (.append logId payload)) r.system.store s l)
    (habove : r.AboveReports logId) {i : ℕ} {d : LogData T}
    (hget : s.stateMachine.log.get i = some d)
    (hmiss : s.stateMachine.payloadCache.get d.logId = none) : r.system.Persisted d.chunkId := by
  obtain ⟨size, front, hdrop, hfront, -⟩ := PayloadCache.insert_ok hwrote.cache
  rcases RaftLogStateMachine.get_logAfter hwrote.log hget with hold | ⟨payload', hrec, -⟩
  · rcases hdrop.get_cases d.logId with heq | ⟨-, p, hmem⟩
    · refine h.available i d hold ?_
      rw [hmiss, PayloadCache.get, OrderedMap.get_insert] at heq
      split_ifs at heq
      exact heq.symm
    · exact h.evictable hold (hfront _ (by simpa using hmem))
  · -- the entry that has just been put in is not evictable
    simp only [WALRecord.action.injEq, RaftLogAction.append.injEq] at hrec
    obtain ⟨rfl, -⟩ := hrec
    rcases hdrop.get_cases d.logId with heq | ⟨-, p, hmem⟩
    · rw [hmiss, PayloadCache.get, OrderedMap.get_insert_self] at heq
      exact absurd heq (by simp)
    · have hlt := h.lastEvictable_lt habove
      exact absurd (hfront _ (by simpa using hmem)) (not_le.mpr hlt)

/-- A truncation that keeps what is in order drops no payload of an entry that it keeps, unless
that entry is persisted. -/
theorem available_of_truncate (h : Tracked r) {keep : Option T.LogId}
    (hwrote : Wrote (.action (.truncateAfter keep)) r.system.store s l)
    (hkept : r.KeptInOrder keep) {i : ℕ} {d : LogData T}
    (hget : s.stateMachine.log.get i = some d)
    (hmiss : s.stateMachine.payloadCache.get d.logId = none) : r.system.Persisted d.chunkId := by
  obtain ⟨index, hindex, heq⟩ := Except.map_eq_ok.mp hwrote.log
  rw [← heq, OrderedMap.get_splitOff_fst] at hget
  split_ifs at hget with hlt
  have hcases := hkept index (by simp [hindex, Except.toOption]) i d hget hlt
  cases keep with
  | none => exact hcases.resolve_left (by simp)
  | some keep =>
      obtain ⟨⟨back, hdrop, hback⟩, -⟩ := PayloadCache.truncateAfter_ok hwrote.cache
      rcases hdrop.get_cases d.logId with hsame | ⟨-, p, hmem⟩
      · exact h.available i d hget (hsame ▸ hmiss)
      · refine hcases.resolve_left fun hle => ?_
        exact hback _ (by simpa using hmem) (Option.some_le_some.mp hle)

/-- What misses in the cache after an accepted record is persisted. -/
theorem available_of_wrote (h : Tracked r) (hwrote : Wrote rec r.system.store s l)
    (happend : ∀ logId payload, rec = .action (.append logId payload) → r.AboveReports logId)
    (htruncate : ∀ keep, rec = .action (.truncateAfter keep) → r.KeptInOrder keep) {i : ℕ}
    {d : LogData T} (hget : s.stateMachine.log.get i = some d)
    (hmiss : s.stateMachine.payloadCache.get d.logId = none) : r.system.Persisted d.chunkId := by
  have hlog := hwrote.log
  have hcache := hwrote.cache
  rcases rec with ⟨vote | ⟨logId, payload⟩ | logId | keep | upto⟩ | st
  · rw [← Except.ok.inj hlog] at hget
    rw [← Except.ok.inj hcache] at hmiss
    exact h.available i d hget hmiss
  · exact h.available_of_append hwrote (happend logId payload rfl) hget hmiss
  · rw [← Except.ok.inj hlog] at hget
    rw [← Except.ok.inj hcache] at hmiss
    exact h.available i d hget hmiss
  · exact h.available_of_truncate hwrote (htruncate keep rfl) hget hmiss
  · obtain ⟨⟨front, hdrop, hfront⟩, -⟩ := PayloadCache.purgeUpto_ok hcache
    have hold := RaftLogStateMachine.get_logAfter hlog hget
    refine h.available_of_dropped hdrop (fun e he => ?_) (hold.resolve_right (by simp)) hmiss
    rw [List.append_nil] at he
    exact (hfront e he).2
  · rw [← Except.ok.inj hlog] at hget
    rw [← Except.ok.inj hcache] at hmiss
    exact h.available i d hget hmiss

/-- An accepted record keeps the invariant, if an append is above the reports and a truncation keeps
what is in order. -/
theorem wrote (hW : Lawful W) (h : Tracked r) (hwrote : Wrote rec r.system.store s l)
    (hreachable : System.Reachable AnyCall (r.wrote s).system)
    (happend : ∀ logId payload, rec = .action (.append logId payload) → r.AboveReports logId)
    (htruncate : ∀ keep, rec = .action (.truncateAfter keep) → r.KeptInOrder keep) :
    Tracked (r.wrote s) := by
  have hpersisted {k : ChunkId} (hk : r.system.Persisted k) : (r.wrote s).system.Persisted k :=
    hk.extend rfl hwrote.openChunkId_le_of_mem hwrote.openChunkId_le le_rfl
  refine ⟨hreachable, ?_, fun k hk => ?_, fun snap hsnap hawaited i d hget hle => ?_,
    fun i d hget hmiss => hpersisted (h.available_of_wrote hwrote happend htruncate hget hmiss)⟩
  · have hboundary := h.boundary
    rw [← lastEvictable_cacheAfter hwrote.cache] at hboundary
    refine hboundary.trans (Option.bind_congr fun k hk => ?_)
    exact congrArg RaftLogState.last (hwrote.trailing_eq (h.reported k hk).2.1).symm
  · obtain ⟨⟨snap, hsnap, heq⟩, hk⟩ := h.reported k hk
    exact ⟨⟨snap, List.mem_append_left _ hsnap, heq⟩, hpersisted hk⟩
  · rcases Nat.lt_or_ge snap.chunkId (W.openChunkId r.system.store.wal) with hlt | hge
    · -- the chunk was closed before
      have hold : snap ∈ r.system.hist := by
        refine (List.mem_append.mp hsnap).resolve_right fun hnew => ?_
        exact absurd (hwrote.openChunkId_le_of_mem snap hnew) (not_le.mpr hlt)
      have hle' : some d.logId ≤ (trailing r.system.hist snap.chunkId).last := by
        rw [← hwrote.trailing_eq hlt]
        exact hle
      rcases RaftLogStateMachine.get_logAfter hwrote.log hget with hheld | ⟨payload, hrec, -⟩
      · exact h.covered snap hold ⟨hlt, hawaited.2⟩ i d hheld hle'
      · have habove := happend d.logId payload hrec snap hold ⟨hlt, hawaited.2⟩
        exact absurd hle' (not_le.mpr habove)
    · rcases RaftLogStateMachine.get_logAfter hwrote.log hget with hheld | ⟨-, -, -, hchunk, -⟩
      · exact (held_chunkId_le hW h.reachable hheld).trans hge
      · rw [hchunk, hwrote.chunkId]
        exact hge

/-- After an append, every greater log id is above the reports. -/
theorem aboveReports_wrote (hW : Lawful W) (h : Tracked r) {logId logId' : T.LogId}
    {payload : T.LogPayload} (habove : r.AboveReports logId)
    (hwrote : Wrote (.action (.append logId payload)) r.system.store s l) (hlt : logId < logId') :
    (r.wrote s).AboveReports logId' := by
  intro snap hsnap hawaited
  have hopen : snap.chunkId < W.openChunkId s.wal := hawaited.1
  rcases Nat.lt_or_ge snap.chunkId (W.openChunkId r.system.store.wal) with hclosed | hge
  · have hold : snap ∈ r.system.hist := by
      refine (List.mem_append.mp hsnap).resolve_right fun hnew => ?_
      exact absurd (hwrote.openChunkId_le_of_mem snap hnew) (not_le.mpr hclosed)
    calc (trailing (r.system.hist ++ newSnapshots r.system.store s) snap.chunkId).last
        = (trailing r.system.hist snap.chunkId).last := by rw [hwrote.trailing_eq hclosed]
      _ < some logId := habove snap hold ⟨hclosed, hawaited.2⟩
      _ < some logId' := Option.some_lt_some.mpr hlt
  · -- the chunk that the append has filled
    have hle : ∀ snap ∈ r.system.hist, snap.chunkId ≤ W.openChunkId r.system.store.wal :=
      fun _ => (h.reachable.accounted hW).recorded.mem_hist_le
    have heq : snap.chunkId = W.openChunkId r.system.store.wal := by
      refine le_antisymm ?_ hge
      rcases List.mem_append.mp hsnap with hold | hnew
      · exact hle snap hold
      · rcases hwrote.snapshots with ⟨hsame, -⟩ | ⟨-, checkpoint, hchunk, hsnapshots⟩
        · exact absurd hopen (by rw [hsame]; exact not_lt.mpr hge)
        · rw [hsnapshots] at hnew
          rcases List.mem_cons.mp hnew with rfl | hnew
          · exact hwrote.chunkId.le
          · rw [List.mem_singleton.mp hnew, Snapshot.chunkId, hchunk] at hopen
            exact absurd hopen (lt_irrefl _)
    have htrailing := hwrote.trailing_open hle (heq ▸ hopen)
    rw [← heq] at htrailing
    calc (trailing (r.system.hist ++ newSnapshots r.system.store s) snap.chunkId).last
        = s.logState.last := by rw [htrailing]
      _ = some logId := by rw [hwrote.state]; rfl
      _ < some logId' := Option.some_lt_some.mpr hlt

/-! ### Calls -/

/-- A `flush` leaves the entries, the cache and the open chunk alone. -/
theorem flush_same (hW : Lawful W) {sync : Bool} {callback : Option T.Callback} {s s' : RaftLog W}
    (h : (flush sync callback).run s = .ok () s') :
    s'.stateMachine = s.stateMachine ∧ W.openChunkId s'.wal = W.openChunkId s.wal := by
  obtain ⟨wal₁, hsend, hcases⟩ := flush_ok h
  have hopen₁ := (hW.sendPending_ok hsend).1
  rcases hcases with ⟨-, rfl⟩ | ⟨-, wal₂, hremove, rfl⟩
  · exact ⟨rfl, hopen₁⟩
  · exact ⟨rfl, (hW.sendRemoveChunks_ok hremove).1.trans hopen₁⟩

/-- An entry above the reports keeps the invariant, and the next one is above them too. -/
theorem appendEntry (hW : Lawful W) (h : Tracked r) {logId : T.LogId} {payload : T.LogPayload}
    {segment : Segment} (habove : r.AboveReports logId)
    (hrec : (appendAndApply (.action (.append logId payload))).run r.system.store =
      .ok segment s) :
    Tracked (r.wrote s) ∧
      ∀ logId', s.logState.checkAppend logId' = .ok () → (r.wrote s).AboveReports logId' := by
  obtain ⟨l, hwrote⟩ := wrote_of_appendAndApply hW hrec
  have hreachable : System.Reachable AnyCall (r.wrote s).system := by
    have hrun : Completes (.append [(logId, payload)]) r.system.store s := by
      refine Or.inl ?_
      rw [run_exec_append, run_appendLoop_cons, hrec]
      rfl
    have hstep : System.Step AnyCall r.system (.call (.append [(logId, payload)])) _ :=
      System.Step.call trivial hrun
    simpa [Op.recorded, recordedAppend, hrec, Reporting.wrote, System.Reachable]
      using h.reachable.tail hstep
  refine ⟨h.wrote hW hwrote hreachable (fun logId' payload' heq => ?_) (by simp),
    fun logId' hcheck => h.aboveReports_wrote hW habove hwrote ?_⟩
  · simp only [WALRecord.action.injEq, RaftLogAction.append.injEq] at heq
    exact heq.1 ▸ habove
  · have hlast := (RaftLogState.checkAppend_eq_ok_iff.mp hcheck).1
    have hstate : s.logState.last = some logId := congrArg RaftLogState.last hwrote.state
    rw [hstate] at hlast
    exact Option.some_lt_some.mp hlast

/-- The first entry of an `append` decides, since the others are above it. -/
theorem appendLoop (hW : Lawful W) {entries : List (T.LogId × T.LogPayload)} {r : Reporting W}
    {s : RaftLog W} (h : Tracked r)
    (hfirst : ∀ e ∈ entries.head?, r.system.store.logState.checkAppend e.1 = .ok () →
      r.AboveReports e.1)
    {rejection : Option (RaftLogStateError T)}
    (hends : AppendEnds entries r.system.store s rejection) :
    Tracked { r with system := { r.system with
      store := s, hist := r.system.hist ++ recordedAppend entries r.system.store } } := by
  generalize hstart : r.system.store = s₀ at hends hfirst
  induction hends generalizing r with
  | done s₀ =>
      subst hstart
      simpa [recordedAppend] using h
  | @next logId payload entries s₀ s₁ s segment rejection hrec _ ih =>
      subst hstart
      have habove := hfirst (logId, payload) (by simp) (appendAndApply_ok hrec).1
      obtain ⟨hnext, habove'⟩ := h.appendEntry hW habove hrec
      have hrest := ih hnext rfl (fun e _ hcheck => habove' e.1 hcheck)
      simp only [recordedAppend, hrec]
      simpa [Reporting.wrote, List.append_assoc] using hrest
  | rejected hrec =>
      subst hstart
      simp only [recordedAppend, hrec]
      simpa using h

/-- A call that writes one record at most. -/
theorem call_single (hW : Lawful W) (h : Tracked r) {op : Op T} (hsingle : op.IsSingle)
    (hop : r.CallInOrder op) (hcompletes : Completes op r.system.store s) :
    Tracked { r with system := { r.system with
      store := s, hist := r.system.hist ++ op.recorded r.system.store } } := by
  have hstep : System.Step AnyCall r.system (.call op) _ := System.Step.call trivial hcompletes
  have hreachable := h.reachable.tail hstep
  rw [recorded_of_completes hsingle hcompletes] at hreachable ⊢
  rcases completes_single hsingle hcompletes with rfl | ⟨rec, segment, s₁, hwrites, hrec, hs⟩
  · simpa using h
  · obtain ⟨l, hwrote⟩ := wrote_of_appendAndApply hW hrec
    have hwrote' : Wrote rec r.system.store s l := by
      rcases hs with rfl | rfl
      · exact hwrote
      · exact hwrote.bufferRemovableChunks hW
    refine h.wrote hW hwrote' hreachable (fun logId payload heq => ?_) fun keep heq => ?_
    · -- only `append` writes an entry, and it is not a single write
      subst heq
      cases op with
      | append entries => exact hsingle.elim
      | _ => simp [Op.Writes] at hwrites
    · subst heq
      cases op with
      | truncate index =>
          obtain ⟨keep', hkeep, heq⟩ := hwrites
          simp only [WALRecord.action.injEq, RaftLogAction.truncateAfter.injEq] at heq
          subst heq
          exact hop keep (by simp [hkeep, Except.toOption]) (appendAndApply_ok hrec).1
      | _ => simp [Op.Writes] at hwrites

/-- A `flush` writes nothing. -/
theorem call_flush (hW : Lawful W) (h : Tracked r) {sync : Bool}
    {callback : Option T.Callback}
    (hcompletes : Completes (.flush sync callback) r.system.store s) :
    Tracked { r with system := { r.system with
      store := s
      hist := r.system.hist ++ (Op.flush sync callback).recorded r.system.store } } := by
  have hstep : System.Step AnyCall r.system (.call (.flush sync callback)) _ :=
    System.Step.call trivial hcompletes
  have hreachable := h.reachable.tail hstep
  rcases hcompletes with hrun | ⟨e, hrun⟩
  · obtain ⟨hstore, hopen⟩ := flush_same hW hrun
    have hnew := (flush_steps (G := fun _ _ => True) hW hrun).2
    have hrecorded : (Op.flush sync callback).recorded r.system.store = [] := by
      simp only [Op.recorded, hrun, hnew]
    rw [hrecorded, List.append_nil] at hreachable ⊢
    exact h.of_same hreachable hstore hopen rfl le_rfl
  · obtain ⟨e', he'⟩ := flush_error hrun
    exact absurd he' (by simp)

/-- A call that keeps the order keeps the invariant. -/
theorem completes (hW : Lawful W) (h : Tracked r) {op : Op T} (hop : r.CallInOrder op)
    {s : RaftLog W} (hcompletes : Completes op r.system.store s) :
    Tracked { r with system := { r.system with
      store := s, hist := r.system.hist ++ op.recorded r.system.store } } := by
  by_cases hsingle : op.IsSingle
  · exact h.call_single hW hsingle hop hcompletes
  · cases op with
    | append entries =>
        obtain ⟨rejection, hends⟩ := appendEnds_of_completes hcompletes
        refine h.appendLoop hW (fun e he hcheck => ?_) hends
        cases entries with
        | nil => simp at he
        | cons entry entries =>
            obtain rfl := Option.some.inj he
            exact hop hcheck
    | flush sync callback => exact h.call_flush hW hcompletes
    | _ => exact absurd trivial hsingle

/-! ### Every event -/

theorem step (hW : Lawful W) {e : ReportingEvent W} {r' : Reporting W} (h : Tracked r)
    (hstep : Reporting.Step Reporting.EventInOrder r e r') : Tracked r' := by
  cases hstep with
  | @system e sys horder hquiet hsystem =>
      have hreachable := h.reachable.tail hsystem
      cases hsystem with
      | call _ hcompletes => exact h.completes hW horder hcompletes
      | drainCache hdrain =>
          obtain ⟨cache, hcache, rfl⟩ := drainCacheEvictable_ok hdrain
          obtain ⟨⟨front, hdrop, hfront⟩, -⟩ := PayloadCache.drainEvictable_ok hcache
          refine ⟨hreachable, ?_, h.reported, h.covered, fun i d hget hmiss => ?_⟩
          · exact hdrop.lastEvictable.trans h.boundary
          · exact h.available_of_dropped hdrop (by simpa using hfront) hget hmiss
      | persisted checkpoint => exact absurd (Or.inr trivial) hquiet
      | @work request _ =>
          cases request with
          | write sync upto =>
              refine h.of_same hreachable rfl rfl rfl ?_
              simp only [System.handle]
              split_ifs
              · exact le_max_left _ _
              · exact le_rfl
          | removeChunks chunkIds => exact h.of_same hreachable rfl rfl rfl le_rfl
          | appendFile => exact h.of_same hreachable rfl rfl rfl le_rfl
      | unlinkFirst n _ => exact h.of_same hreachable rfl rfl rfl le_rfl
      | crash _ _ _ => exact absurd (Or.inl trivial) hquiet
      | restart _ _ _ _ _ => exact absurd (Or.inl trivial) hquiet
  | report _ hreportable =>
      obtain ⟨hchunk, hpersisted, hin⟩ := hreportable
      refine ⟨h.reachable.tail (System.Step.persisted _), rfl, fun k hk => ?_, ?_, h.available⟩
      · obtain rfl := Option.some.inj hk
        exact ⟨hchunk, hpersisted⟩
      · intro snap hsnap hawaited
        refine h.covered snap hsnap ⟨hawaited.1, fun k hk => ?_⟩
        exact (hin k hk).trans (hawaited.2 _ rfl)

end Tracked

/-! ## Every run -/

theorem tracked_of_reachable (hW : Lawful W) {r : Reporting W}
    (h : Reporting.Reachable Reporting.EventInOrder r) : Tracked r := by
  refine Transition.Reachable.invariant ?_ (fun _ _ _ hr hstep => hr.step hW hstep) h
  rintro r ⟨hinitial, hboundary, hnone⟩
  have hlog := (hinitial.empty hW).1
  refine ⟨Transition.Reachable.of_initial hinitial, ?_, ?_, ?_, ?_⟩
  · rw [hboundary, hnone]
    rfl
  · simp [hnone]
  · intro snap _ _ i d hget
    rw [hlog] at hget
    exact absurd hget (by simp)
  · intro i d hget
    rw [hlog] at hget
    exact absurd hget (by simp)

/-- In every run that keeps the order, what is not in the cache is persisted. -/
theorem entries_available (hW : Lawful W) {r : Reporting W}
    (h : Reporting.Reachable Reporting.EventInOrder r) : EntriesAvailable r.system := by
  have htracked := tracked_of_reachable hW h
  refine ⟨fun {i d} hget hmiss => ?_, fun {i d} hget hopen => ?_, fun fromIndex toIndex d hd => ?_,
    fun d hd => ?_⟩
  · have hpersisted := htracked.available i d hget hmiss
    obtain ⟨payload, snap, hsnap, hlocated⟩ := held_recorded hW htracked.reachable hget
    refine ⟨hpersisted, payload, snap, ?_, hlocated⟩
    rw [← List.take_append_drop r.system.synced r.system.hist] at hsnap
    refine (List.mem_append.mp hsnap).resolve_right fun hlate => ?_
    have hlt := hpersisted.2 snap hlate
    rw [Snapshot.chunkId, hlocated] at hlt
    exact absurd hlt (lt_irrefl _)
  · refine Option.ne_none_iff_exists'.mp fun hmiss => ?_
    have hpersisted := htracked.available i d hget hmiss
    exact absurd hopen hpersisted.1.ne
  · obtain ⟨⟨i, d'⟩, he, rfl⟩ := List.mem_map.mp hd
    have hheld := OrderedMap.get_range_eq_some_iff.mp (OrderedMap.get_eq_some_iff.mpr he)
    exact htracked.available i d' hheld.1
  · obtain ⟨⟨i, d'⟩, he, rfl⟩ := List.mem_map.mp hd
    exact htracked.available i d' (OrderedMap.get_eq_some_iff.mpr he)

/-- Three entries fill the first chunk, which is synced and reported. -/
def firstChunkReported : List (ReportingEvent (memoryWal (exampleTypes true))) :=
  [.system (.call (.append [(⟨1, 0⟩, 5), (⟨1, 1⟩, 5), (⟨1, 2⟩, 5)])),
    .system (.call (.flush true none)), .system .work, .system .work, .report 0]

/-- Then the last of them is truncated and appended again. -/
def afterReappend : Reporting (memoryWal (exampleTypes true)) :=
  (Reporting.simulate Reporting.AnyEvent (chunksOfSize true 4) (firstChunkReported ++
    [.system (.call (.truncate 2)), .system (.call (.append [(⟨1, 2⟩, 7)])),
      .system .drainCache])).get (by decide +kernel)

theorem entries_available_afterReappend :
    Reporting.Reachable Reporting.AnyEvent afterReappend ∧
      (∃ d ∈ afterReappend.system.store.stateMachine.log.get 2, d.chunkId = 4 ∧
        afterReappend.system.store.stateMachine.payloadCache.get d.logId = none) ∧
      (memoryWal (exampleTypes true)).openChunkId afterReappend.system.store.wal = 4 ∧
      (∃ items, afterReappend.system.store.read 2 3 = .ok items ∧
        items.1.map Except.isOk = [false]) ∧
      ¬ EntriesAvailable afterReappend.system := by
  have hreachable : Reporting.Reachable Reporting.AnyEvent afterReappend :=
    Reporting.reachable_get _
  have hmissing : ∃ d ∈ afterReappend.system.store.stateMachine.log.get 2, d.chunkId = 4 ∧
      afterReappend.system.store.stateMachine.payloadCache.get d.logId = none := by decide +kernel
  have hopen : (memoryWal (exampleTypes true)).openChunkId afterReappend.system.store.wal = 4 := by
    decide +kernel
  refine ⟨hreachable, hmissing, hopen, by decide +kernel, fun havailable => ?_⟩
  obtain ⟨d, hget, hchunk, hmiss⟩ := hmissing
  obtain ⟨payload, hhit⟩ := havailable.openChunk hget (hchunk.trans hopen.symm)
  rw [hmiss] at hhit
  exact absurd hhit (by simp)

/-- Here the next entry is above the others. -/
def afterNextTerm : Reporting (memoryWal (exampleTypes true)) :=
  (Reporting.simulate Reporting.EventInOrder (chunksOfSize true 4) (firstChunkReported ++
    [.system (.call (.truncate 2)), .system (.call (.append [(⟨2, 2⟩, 7)])),
      .system .drainCache])).get (by decide +kernel)

theorem entries_available_afterNextTerm :
    EntriesAvailable afterNextTerm.system ∧
      afterNextTerm.system.store.stateMachine.payloadCache.get ⟨1, 1⟩ = none ∧
      afterNextTerm.system.store.stateMachine.payloadCache.get ⟨2, 2⟩ = some 7 := by
  have hreachable : Reporting.Reachable Reporting.EventInOrder afterNextTerm :=
    Reporting.reachable_get _
  exact ⟨entries_available (memoryWal_lawful _) hreachable, by decide +kernel⟩

end RaftLogStore
