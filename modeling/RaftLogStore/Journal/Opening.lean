import Mathlib.Algebra.Order.BigOperators.Group.List
import Mathlib.Algebra.Order.Group.Nat
import RaftLogStore.Journal.CacheInvariant
import RaftLogStore.Journal.Restart

/-!
# Opening does not panic

The records of a directory were applied by a live store once, without a panic.  A replay asks for
the same next indexes, but fills a cache of its own, which may hold more than the live one: it has
other limits, and the worker reports at other times.  So the one thing that can go wrong is the
addition to the size of the cache, in a build with overflow checks.

Where no such addition goes beyond `usize::MAX`, opening returns a store or an error of the WAL
(`openLog_returns`).  It is enough that all the payloads together do not (`replayFits_of_total`).
-/

namespace RaftLogStore

open RaftLog

variable {T : Types} {W : ChunkedWal T}

/-- The cache can add the payload to its size: the sum is a `usize`, or the build lets it wrap. -/
def TakesPayload (c : PayloadCache T) (_ : T.LogId) (payload : T.LogPayload) : Prop :=
  T.overflowChecks = true → c.size + T.payloadSize payload ≤ u64Max

/-- No replay of the directory panics in an addition to the size of the cache, whatever the worker
reports meanwhile. -/
def ReplayFits (config : CacheConfig) (disk : List (Located T)) : Prop :=
  ∀ pre l post sm, disk = pre ++ l :: post → Replay (RaftLogStateMachine.new config) pre sm →
    AdmitsRecord TakesPayload sm.payloadCache l.record

/-- Nothing is loaded of an empty directory. -/
theorem Replay.of_nil {sm sm' : RaftLogStateMachine T} (h : Replay sm [] sm') :
    sm'.log = sm.log ∧ sm'.logState = sm.logState ∧
      sm'.payloadCache.cache = sm.payloadCache.cache := by
  generalize hrecords : ([] : List (Located T)) = records at h
  induction h with
  | nil => exact ⟨rfl, rfl, rfl⟩
  | record _ _ _ => simp at hrecords
  | persisted checkpoint _ ih => cases checkpoint <;> exact ih hrecords

/-- A store opened on an empty directory. -/
theorem System.Initial.empty (hW : Lawful W) {sys : System W} (h : sys.Initial) :
    sys.store.stateMachine.log = ∅ ∧ sys.store.logState = RaftLogState.default ∧
      sys.store.stateMachine.payloadCache.cache = ∅ := by
  obtain ⟨config, hopen, -⟩ := h
  exact (replay_of_openLog hW List.Pairwise.nil hopen).of_nil

/-! ## One record of a replay -/

theorem replay_sized {config : CacheConfig} {records : List (Located T)}
    {sm : RaftLogStateMachine T} (h : Replay (RaftLogStateMachine.new config) records sm) :
    sm.payloadCache.Sized :=
  sized_rule.replay <| h.admitted fun c l _ =>
    admitsRecord_of_forall (fun _ _ _ => trivial) c l.record

/-- Only an addition to the size can fail. -/
theorem cacheAfter_ne_error {rec : RaftLogRecord T} {c : PayloadCache T} {failure : Failure T}
    (hsized : c.Sized) (hfits : AdmitsRecord TakesPayload c rec) :
    RaftLogStateMachine.cacheAfter rec c ≠ .error failure := by
  cases rec with
  | checkpoint st => simp [RaftLogStateMachine.cacheAfter]
  | action a =>
      cases a with
      | append logId payload =>
          have hinsert : ∃ c', c.insert logId payload = .ok c' :=
            (PayloadCache.insert_isOk_iff hsized).mpr hfits
          obtain ⟨c', hc'⟩ := hinsert
          simp [RaftLogStateMachine.cacheAfter, hc']
      | truncateAfter keep =>
          cases keep with
          | none => simp [RaftLogStateMachine.cacheAfter]
          | some key => exact PayloadCache.truncateAfterLoop_ne_error hsized
      | purgeUpto upto => exact PayloadCache.purgeUptoLoop_ne_error hsized
      | saveVote _ | commit _ => simp [RaftLogStateMachine.cacheAfter]

/-- Which index a record asks for does not depend on the log map. -/
theorem logAfter_ne_error {rec : RaftLogRecord T} {chunkId : ChunkId} {segment : Segment}
    {log log' : OrderedMap ℕ (LogData T)} {failure : Failure T}
    (h : RaftLogStateMachine.logAfter rec chunkId segment log = .ok log')
    (log₁ : OrderedMap ℕ (LogData T)) :
    RaftLogStateMachine.logAfter rec chunkId segment log₁ ≠ .error failure := by
  cases rec with
  | checkpoint st => simp [RaftLogStateMachine.logAfter]
  | action a =>
      cases a with
      | truncateAfter keep =>
          obtain ⟨index, hindex, -⟩ := Except.map_eq_ok.mp h
          simp [RaftLogStateMachine.logAfter, hindex, Except.map]
      | purgeUpto upto =>
          obtain ⟨index, hindex, -⟩ := Except.map_eq_ok.mp h
          simp [RaftLogStateMachine.logAfter, hindex, Except.map]
      | saveVote _ | append _ _ | commit _ => simp [RaftLogStateMachine.logAfter]

/-! ## Opening -/

/-- Opening what is left of a directory returns a store, unless the WAL fails, if the payloads fit
the cache. -/
theorem openLog_returns (hW : Lawful W) {a : Ledger T} {survivors : ℕ}
    (hsurvives : a.Survives survivors) (hlogs : LogHistory a.hist) {config : Config W}
    (hfits : ReplayFits config.cache (a.disk survivors)) :
    (∃ s, RaftLog.openLog config (a.disk survivors) = .ok s) ∨
      ∃ e, RaftLog.openLog config (a.disk survivors) = .error (.io e) := by
  cases hopen : RaftLog.openLog config (a.disk survivors) with
  | ok s => exact Or.inl ⟨s, rfl⟩
  | error failure =>
      refine Or.inr ?_
      unfold RaftLog.openLog at hopen
      split at hopen
      · next failure' sm hfailed =>
        obtain rfl := Except.error.inj hopen
        rcases hW.openWal_error hfailed with ⟨e, rfl⟩ | hrejected
        · exact ⟨e, rfl⟩
        · -- the live store has applied the record on which the replay stops
          obtain ⟨records, l, rest, sm₁, sm₂, hcut, hreplay, happly⟩ := hrejected
          obtain ⟨pre, snap, rfl, hprefix, -⟩ := hsurvives.replayed_place hcut hreplay
          have hlog := (hlogs.of_isPrefix (List.take_prefix _ _)).of_isPrefix hprefix |>.last
          rcases RaftLogStateMachine.apply_eq_error happly with hfail | hfail | hfail
          · exact absurd hfail (logAfter_ne_error hlog _)
          · have hroom := hfits records snap.located rest sm₁ hcut hreplay
            exact absurd hfail (cacheAfter_ne_error (replay_sized hreplay) hroom)
          · have hcheck := hsurvives.replayed_check hcut hreplay
            exact absurd (hcheck.symm.trans hfail) (by simp)
      · exact absurd hopen (by simp)

/-! ## Payloads that all fit together -/

/-- The size of the payload that a record puts into the cache. -/
def appendedSize : RaftLogRecord T → ℕ
  | .action (.append _ payload) => T.payloadSize payload
  | _ => 0

/-- The sizes of the payloads in the records. -/
def appendedTotal (records : List (Located T)) : ℕ :=
  (records.map fun l => appendedSize l.record).sum

theorem appendedTotal_append (records records' : List (Located T)) :
    appendedTotal (records ++ records') = appendedTotal records + appendedTotal records' := by
  simp [appendedTotal]

theorem appendedTotal_le_of_sublist {records records' : List (Located T)}
    (h : records.Sublist records') : appendedTotal records ≤ appendedTotal records' :=
  (h.map fun l : Located T => appendedSize l.record).sum_le_sum fun _ _ => Nat.zero_le _

/-- Dropping entries does not raise a size that covers them. -/
theorem PayloadCache.Dropped.size_le {c c' : PayloadCache T}
    {front back : List (T.LogId × T.LogPayload)} (h : PayloadCache.Dropped c c' front back)
    (hle : c.cache.total T.payloadSize ≤ c.size) : c'.size ≤ c.size := by
  obtain ⟨n, hn⟩ := Nat.exists_eq_add_of_le hle
  have hahead : c'.size = c'.cache.total T.payloadSize + n := h.ahead n hn
  have htotal : c'.cache.total T.payloadSize ≤ c.cache.total T.payloadSize := by
    simp only [OrderedMap.total, OrderedMap.values, h.entries, List.map_append, List.sum_append]
    omega
  omega

/-- A record adds its payload to the size at most. -/
theorem cacheAfter_size_le (hchecks : T.overflowChecks = true) {rec : RaftLogRecord T}
    {c c' : PayloadCache T} (hsized : c.Sized)
    (h : RaftLogStateMachine.cacheAfter rec c = .ok c') :
    c'.size ≤ c.size + appendedSize rec := by
  have hle := hsized hchecks
  cases rec with
  | checkpoint st => exact (congrArg PayloadCache.size (Except.ok.inj h)).ge
  | action a =>
      cases a with
      | append logId payload =>
          obtain ⟨size, hsize, hevict⟩ := Except.bind_eq_ok.mp h
          obtain ⟨front, hdrop, -⟩ := PayloadCache.tryEvictLoop_ok hevict
          have hadded : size = c.size + T.payloadSize payload := by
            simp only [Types.addUsize, Types.addU64, hchecks] at hsize
            split_ifs at hsize
            exact (Except.ok.inj hsize).symm
          -- a payload that is replaced stays counted, so the sum may only be too large
          have htotal := OrderedMap.total_insert_le T.payloadSize c.cache logId payload
          refine (hdrop.size_le ?_).trans_eq hadded
          simp only [hadded]
          omega
      | truncateAfter keep =>
          cases keep with
          | none => exact (congrArg PayloadCache.size (Except.ok.inj h)).ge.trans (Nat.zero_le _)
          | some key =>
              obtain ⟨⟨back, hdrop, -⟩, -⟩ := PayloadCache.truncateAfter_ok h
              exact hdrop.size_le hle
      | purgeUpto upto =>
          obtain ⟨⟨front, hdrop, -⟩, -⟩ := PayloadCache.purgeUpto_ok h
          exact hdrop.size_le hle
      | saveVote _ | commit _ => exact (congrArg PayloadCache.size (Except.ok.inj h)).ge

theorem replay_size_le (hchecks : T.overflowChecks = true) {config : CacheConfig}
    {records : List (Located T)} {sm : RaftLogStateMachine T}
    (h : Replay (RaftLogStateMachine.new config) records sm) :
    sm.payloadCache.size ≤ appendedTotal records := by
  generalize hstart : RaftLogStateMachine.new config = start at h
  induction h with
  | nil => exact (congrArg (fun sm => sm.payloadCache.size) hstart).ge
  | @record sm₁ sm₂ records l hreplay happly ih =>
      subst hstart
      have hcache := (RaftLogStateMachine.apply_eq_ok.mp happly).2.1
      calc sm₂.payloadCache.size
          ≤ sm₁.payloadCache.size + appendedSize l.record :=
            cacheAfter_size_le hchecks (replay_sized hreplay) hcache
        _ ≤ appendedTotal records + appendedSize l.record := Nat.add_le_add_right ih _
        _ = appendedTotal (records ++ [l]) := by simp [appendedTotal]
  | persisted checkpoint _ ih => cases checkpoint <;> exact ih

/-- The payloads of a directory fit any cache, if they add up to a `usize`. -/
theorem replayFits_of_total {disk : List (Located T)}
    (h : T.overflowChecks = true → appendedTotal disk ≤ u64Max) (config : CacheConfig) :
    ReplayFits config disk := by
  intro pre l post sm hsplit hreplay
  cases hrec : l.record with
  | checkpoint _ => trivial
  | action a =>
      cases a with
      | append logId payload =>
          intro hchecks
          have hsize := replay_size_le hchecks hreplay
          have htotal := h hchecks
          rw [hsplit, appendedTotal_append] at htotal
          simp only [appendedTotal, List.map_cons, List.sum_cons, hrec, appendedSize]
            at htotal hsize
          omega
      | _ => trivial

end RaftLogStore
