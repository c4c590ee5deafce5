import RaftLogStore.Journal.Backing
import RaftLogStore.Journal.CacheInvariant
import RaftLogStore.Results.Restart

/-!
# The outcome of a truncation

`truncate` at an index keeps the log id before it: `purged` where the index is the one after it,
and otherwise the log id held there.  The log map, the cache and the state are then cut at one
point.

The state is cut by lowering `last`, which does not raise it.  With an empty log map `purged` may
be above `last`, and `last` then stays below the log id that is kept.

## Strategy
1. `truncateKeep` computes the log id that the specification names (`truncateKeep_eq`).
2. The index after that log id is the given one (`nextLogIndex_keepAt`), so the map is cut there.
3. The record is applied if the check accepts it, as the cache counts enough for its
   subtractions (`apply_truncateAfter`).
-/

namespace RaftLogStore

open RaftLog

variable {T : Types} {W : ChunkedWal T}

/-- The log id that a truncation at `index` is to keep as the last one, if there is one. -/
def keepAt (s : RaftLog W) (index : ℕ) : Option (Option T.LogId) :=
  if index = T.indexAfter s.logState.purged then some s.logState.purged
  else if index = 0 then none
  else (s.stateMachine.log.get (index - 1)).map fun d => some d.logId

/-- The store is cut at `index`, behind `keep`. -/
structure TruncatedAt (index : ℕ) (keep : Option T.LogId) (s s' : RaftLog W) : Prop where
  log : ∀ k, s'.stateMachine.log.get k = if k < index then s.stateMachine.log.get k else none
  last : s'.logState = { s.logState with last := min s.logState.last keep }
  cache : ∀ logId, s'.stateMachine.payloadCache.get logId =
    if some logId ≤ keep then s.stateMachine.payloadCache.get logId else none
  next : keep ≤ s.logState.last → ∀ logId, s'.logState.checkAppend logId = .ok () →
    keep = none ∨ T.logIndex logId = index
  first : keep = none → ∀ logId, s'.logState.checkAppend logId = .ok ()

/-- What `truncate` at `index` does. -/
structure TruncateOutcome (s : RaftLog W) (index : UInt64) : Prop where
  notFound : keepAt s index.toNat = none →
    (truncate index).run s = .error (.state (.logIndexNotFound (index.toNat - 1))) s
  committed : ∀ keep, keepAt s index.toNat = some keep → keep < s.logState.committed →
    ∃ c, s.logState.committed = some c ∧
      (truncate index).run s = .error (.state (.truncateCommitted c keep)) s
  truncated : ∀ keep, keepAt s index.toNat = some keep → ¬ keep < s.logState.committed →
    ∃ segment s', (truncate index).run s = .ok segment s' ∧ TruncatedAt index.toNat keep s s'

/-! ## The log id that is kept -/

theorem nextLogIndex_of_forall_lt {logId : Option T.LogId}
    (hmax : ∀ l ∈ logId, T.logIndex l < u64Max) :
    T.nextLogIndex logId = .ok (T.indexAfter logId) := by
  cases logId with
  | none => rfl
  | some l => exact Types.nextLogIndex_of_lt (hmax l rfl)

/-- The code looks for the log id where the specification says. -/
theorem truncateKeep_eq {s : RaftLog W}
    (hmax : ∀ p ∈ s.logState.purged, T.logIndex p < u64Max) (index : ℕ) :
    s.truncateKeep index =
      match keepAt s index with
      | some keep => .ok keep
      | none => .error (.state (.logIndexNotFound (index - 1))) := by
  have hnext := nextLogIndex_of_forall_lt hmax
  unfold keepAt truncateKeep
  simp only [hnext, bind, Except.bind]
  by_cases hafter : index = T.indexAfter s.logState.purged
  · simp only [if_pos hafter]
  · simp only [if_neg hafter]
    by_cases hzero : index = 0
    · simp only [hzero, if_true]
    · simp only [if_neg hzero, getLogId]
      cases s.stateMachine.log.get (index - 1) <;> rfl

/-- The map is cut at the index that was given. -/
theorem nextLogIndex_keepAt {s : RaftLog W} {index : UInt64} {keep : Option T.LogId}
    (hkey : ∀ k d, s.stateMachine.log.get k = some d → T.logIndex d.logId = k)
    (hmax : ∀ p ∈ s.logState.purged, T.logIndex p < u64Max)
    (hkeep : keepAt s index.toNat = some keep) : T.nextLogIndex keep = .ok index.toNat := by
  unfold keepAt at hkeep
  split_ifs at hkeep with hafter hzero
  · rw [← Option.some.inj hkeep, hafter]
    exact nextLogIndex_of_forall_lt hmax
  · obtain ⟨d, hget, rfl⟩ := Option.map_eq_some_iff.mp hkeep
    have hindex : T.logIndex d.logId = index.toNat - 1 := hkey _ d hget
    have hlt : index.toNat < 2 ^ 64 := index.toNat_lt
    rw [Types.nextLogIndex_of_lt (by simp only [u64Max]; omega)]
    exact congrArg Except.ok (by omega)

/-! ## The record -/

/-- A truncation that the check accepts is applied, whatever is kept. -/
theorem apply_truncateAfter {sm : RaftLogStateMachine T} {keep : Option T.LogId} {index : ℕ}
    (hsized : sm.payloadCache.Sized) (hindex : T.nextLogIndex keep = .ok index)
    (hcheck : sm.logState.check (.action (.truncateAfter keep)) = .ok ()) (chunkId : ChunkId)
    (segment : Segment) :
    ∃ sm', (RaftLogStateMachine.apply (.action (.truncateAfter keep)) chunkId segment).run sm =
      .ok () sm' := by
  have hcache : ∃ c, RaftLogStateMachine.cacheAfter (.action (.truncateAfter keep))
      sm.payloadCache = .ok c := by
    cases keep with
    | none => exact ⟨_, rfl⟩
    | some l =>
        simp only [RaftLogStateMachine.cacheAfter, PayloadCache.truncateAfter]
        cases h : PayloadCache.truncateAfterLoop l sm.payloadCache.cache.len sm.payloadCache with
        | ok c => exact ⟨c, rfl⟩
        | error failure => exact absurd h (PayloadCache.truncateAfterLoop_ne_error hsized)
  obtain ⟨c, hc⟩ := hcache
  refine ⟨⟨(sm.log.splitOff index).1, c, _⟩, RaftLogStateMachine.apply_eq_ok.mpr
    ⟨?_, hc, hcheck, rfl⟩⟩
  simp only [RaftLogStateMachine.logAfter, hindex, Except.map]

/-- The cache is cut where the record says. -/
theorem get_cacheAfter_truncateAfter {keep : Option T.LogId} {c c' : PayloadCache T}
    (h : RaftLogStateMachine.cacheAfter (.action (.truncateAfter keep)) c = .ok c')
    (logId : T.LogId) : c'.get logId = if some logId ≤ keep then c.get logId else none := by
  cases keep with
  | none =>
      rw [← Except.ok.inj h, if_neg (by simp)]
      rfl
  | some l =>
      obtain ⟨-, hcache⟩ := PayloadCache.truncateAfter_ok h
      simp only [PayloadCache.get, hcache, OrderedMap.get_filter, Option.some_le_some]
      by_cases hle : logId ≤ l <;> cases c.cache.get logId <;> simp [hle]

theorem truncateAfter_eq (st : RaftLogState T) (keep : Option T.LogId) :
    st.truncateAfter keep = { st with last := min st.last keep } := by
  unfold RaftLogState.truncateAfter
  split_ifs with hlt
  · rw [min_eq_right hlt.le]
  · rw [min_eq_left (not_lt.mp hlt)]

/-- An applied truncation cuts the three parts of the store at one point. -/
theorem truncatedAt_of_apply {s s' : RaftLog W} {keep : Option T.LogId} {index : ℕ}
    {chunkId : ChunkId} {segment : Segment} (hindex : T.nextLogIndex keep = .ok index)
    (happly : (RaftLogStateMachine.apply (.action (.truncateAfter keep)) chunkId segment).run
      s.stateMachine = .ok () s'.stateMachine) : TruncatedAt index keep s s' := by
  obtain ⟨hlog, hcache, -, hstate⟩ := RaftLogStateMachine.apply_eq_ok.mp happly
  have hlast : s'.logState.last = min s.logState.last keep := by
    rw [logState, hstate]
    exact RaftLogState.truncateAfter_last _ _
  refine ⟨fun k => ?_, ?_, get_cacheAfter_truncateAfter hcache, ?_, ?_⟩
  · obtain ⟨index', hindex', hcut⟩ := Except.map_eq_ok.mp hlog
    rw [hindex] at hindex'
    rw [← hcut, ← Except.ok.inj hindex', OrderedMap.get_splitOff_fst]
  · rw [logState, hstate]
    exact truncateAfter_eq _ _
  · intro hle logId hcheck
    obtain ⟨-, hnext⟩ := RaftLogState.checkAppend_eq_ok_iff.mp hcheck
    rw [hlast, min_eq_right hle] at hnext
    refine hnext.imp_right fun hnext => ?_
    exact (Except.ok.inj (hindex.symm.trans hnext)).symm
  · rintro rfl logId
    have hnone : s'.logState.last = none := hlast.trans (min_eq_right Option.none_le)
    exact RaftLogState.checkAppend_eq_ok_iff.mpr ⟨hnone ▸ Option.none_lt_some, Or.inl hnone⟩

/-! ## Every index -/

theorem run_truncate {s : RaftLog W} {index : UInt64} {keep : Option T.LogId}
    (hkeep : s.truncateKeep index.toNat = .ok keep) :
    (truncate index).run s = (appendAndApply (.action (.truncateAfter keep))).run s := by
  simp [truncate, hkeep]

/-- What is below the committed log id is refused. -/
theorem truncate_committed {s : RaftLog W} {index : UInt64} {keep : Option T.LogId}
    (hkeep : s.truncateKeep index.toNat = .ok keep) (hlt : keep < s.logState.committed) :
    ∃ c, s.logState.committed = some c ∧
      (truncate index).run s = .error (.state (.truncateCommitted c keep)) s := by
  cases hc : s.logState.committed with
  | none => simp [hc] at hlt
  | some c =>
      have hrefused : s.stateMachine.check (.action (.truncateAfter keep)) =
          .error (.state (.truncateCommitted c keep)) := by
        have hc' : s.stateMachine.logState.committed = some c := hc
        simp only [RaftLogStateMachine.check, RaftLogState.check, RaftLogState.checkTruncate, hc']
        rw [hc] at hlt
        simp [not_le.mpr hlt, unwrap, bind, Except.bind]
      refine ⟨c, rfl, ?_⟩
      rw [run_truncate hkeep, run_appendAndApply, hrefused]

/-- Unless the WAL fails, a truncation of a reachable store, whose log map holds the entries in
`(purged, last]`, is refused with the store as it was, or cuts it at the given index. -/
theorem truncate_outcome (hW : Lawful W) {allowed : RaftLog W → Op T → Prop} {sys : System W}
    (h : System.Reachable allowed sys)
    (hagree : Agreement sys.store.logState sys.store.stateMachine.log) (index : UInt64)
    (hmax : ∀ p ∈ sys.store.logState.purged, T.logIndex p < u64Max)
    (hio : ∀ e s', (truncate index).run sys.store ≠ .error (.io e) s') :
    TruncateOutcome sys.store index := by
  have hkeep := truncateKeep_eq hmax index.toNat
  refine ⟨fun hat => ?_, fun keep hat hlt => ?_, fun keep hat hle => ?_⟩
  · rw [hat] at hkeep
    simp only [truncate, EStateM.run_bind, EStateM.run_get, hkeep, EStateM.run_ofExcept_error]
  · rw [hat] at hkeep
    exact truncate_committed hkeep hlt
  · rw [hat] at hkeep
    have hindex := nextLogIndex_keepAt (fun _ _ => hagree.key) hmax hat
    have hcheck : sys.store.logState.check (.action (.truncateAfter keep)) = .ok () :=
      RaftLogState.checkTruncate_eq_ok_iff.mpr (not_lt.mp hle)
    have happlies := apply_truncateAfter (h.cache_sized hW) hindex hcheck
    have hrun := run_truncate hkeep
    rcases appendAndApply_returns hcheck happlies with ⟨segment, s', hrec⟩ | ⟨e, s', herror⟩
    · obtain ⟨wal₁, -, happly⟩ := appendAndApply_applied hrec
      exact ⟨segment, s', hrun.trans hrec, truncatedAt_of_apply hindex happly⟩
    · exact absurd (hrun.trans herror) (hio e s')

/-- Four entries, of which one is purged and one committed. -/
def partlyCommitted : List (Event (memoryWal (exampleTypes true))) :=
  [.call (.append [(⟨1, 0⟩, 5), (⟨1, 1⟩, 6), (⟨1, 2⟩, 7), (⟨2, 3⟩, 8)]), .call (.commit ⟨1, 1⟩),
    .call (.purge ⟨1, 0⟩)]

def uncutSystem : System (memoryWal (exampleTypes true)) :=
  (System.simulate Guaranteed (chunksOfSize true 3) partlyCommitted).get (by decide +kernel)

theorem truncate_outcome_uncutSystem :
    TruncateOutcome uncutSystem.store 3 ∧ keepAt uncutSystem.store 3 = some (some ⟨1, 2⟩) := by
  have hreachable : System.Reachable Guaranteed uncutSystem := System.reachable_get _
  have hagree := (agreement_of_reachable (memoryWal_lawful _) hreachable).1
  have hpurged : uncutSystem.store.logState.purged = some ⟨1, 0⟩ := by decide +kernel
  have hreturns : (match (truncate 3).run uncutSystem.store with
      | .ok _ _ => true
      | .error _ _ => false) = true := by decide +kernel
  have hmax : ∀ p ∈ uncutSystem.store.logState.purged,
      (exampleTypes true).logIndex p < u64Max := by
    intro p hp
    obtain rfl := Option.some.inj (hpurged.symm.trans hp)
    decide
  have houtcome := truncate_outcome (memoryWal_lawful _) hreachable hagree 3 hmax
  refine ⟨houtcome fun e s' hrun => ?_, by decide +kernel⟩
  rw [hrun] at hreturns
  exact absurd hreturns (by simp)

/-- A purge of a higher term at the first index, and then of all entries that are left. -/
def purgedAhead : List (Event (memoryWal (exampleTypes true))) :=
  [.call (.append [(⟨1, 0⟩, 5), (⟨1, 1⟩, 6), (⟨1, 2⟩, 7)]), .call (.purge ⟨9, 0⟩),
    .call (.truncate 2), .call (.purge ⟨1, 1⟩)]

def aheadSystem : System (memoryWal (exampleTypes true)) :=
  (System.simulate AnyCall (chunksOfSize true 3) purgedAhead).get (by decide +kernel)

/-- The log id that is kept does not become the last one. -/
theorem truncate_outcome_aheadSystem :
    System.Reachable AnyCall aheadSystem ∧
      Agreement aheadSystem.store.logState aheadSystem.store.stateMachine.log ∧
      keepAt aheadSystem.store 1 = some (some ⟨9, 0⟩) ∧
      ∃ segment s', (truncate 1).run aheadSystem.store = .ok segment s' ∧
        s'.logState.last = some ⟨1, 1⟩ := by
  have hempty : aheadSystem.store.stateMachine.log = ∅ := by decide +kernel
  refine ⟨System.reachable_get _, hempty ▸ Agreement.empty _, by decide +kernel, ?_⟩
  have hreturns : (match (truncate 1).run aheadSystem.store with
      | .ok _ s' => decide (s'.logState.last = some ⟨1, 1⟩)
      | .error _ _ => false) = true := by decide +kernel
  cases hrun : (truncate 1).run aheadSystem.store with
  | ok segment s' =>
      rw [hrun] at hreturns
      exact ⟨segment, s', rfl, of_decide_eq_true hreturns⟩
  | error failure s' =>
      rw [hrun] at hreturns
      exact absurd hreturns (by simp)

end RaftLogStore
