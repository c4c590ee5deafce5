import RaftLogStore.Results.Availability
import RaftLogStore.Results.Equivalence

/-!
# What a drained cache holds

How many payloads an `insert` evicts depends on when the worker moves the boundary of the cache, and
so the cache depends on how the threads are scheduled.  Once it is drained it does not: it holds the
payloads of the entries above the boundary, and of nothing else that is above `purged`
(`drained_cache`).  The limits of the cache, and what happened when, have no part in it.

## Strategy
1. `Cached bound` is what a cache may be on the way to the boundary `bound`: whatever lies above
   `bound` is in it, and above `purged` nothing is in it but the log.
2. A record keeps this (`Cached.apply`), as do the drains and the reports up to `bound`.
3. A drain takes away what is left at or below `bound`.
-/

namespace RaftLogStore

open RaftLog Transition

variable {T : Types} {W : ChunkedWal T}

/-- A cache on the way to the boundary `bound`. -/
structure Cached (bound : Option T.LogId) (sm : RaftLogStateMachine T) : Prop where
  evictable : sm.payloadCache.lastEvictable ≤ bound
  held {logId : T.LogId} {p : T.LogPayload} : sm.payloadCache.get logId = some p →
    sm.logState.purged < some logId →
    ∃ d, sm.log.get (T.logIndex logId) = some d ∧ d.logId = logId
  kept {i : ℕ} {d : LogData T} : sm.log.get i = some d → bound < some d.logId →
    ∃ p, sm.payloadCache.get d.logId = some p

variable {bound : Option T.LogId}

theorem Cached.of_empty {sm : RaftLogStateMachine T} (hlog : sm.log = ∅)
    (hcache : sm.payloadCache.cache = ∅) (hle : sm.payloadCache.lastEvictable ≤ bound) :
    Cached bound sm := by
  refine ⟨hle, fun hget => ?_, fun hget => ?_⟩
  · simp [PayloadCache.get, hcache] at hget
  · simp [hlog] at hget

/-- What is above the boundary stays where evictable payloads are dropped. -/
theorem get_of_dropped {c c' : PayloadCache T} {front : List (T.LogId × T.LogPayload)}
    (hdrop : PayloadCache.Dropped c c' front []) (hfront : ∀ e ∈ front, some e.1 ≤ bound)
    {logId : T.LogId} (hlt : bound < some logId) : c'.get logId = c.get logId := by
  refine (hdrop.get_cases logId).resolve_right ?_
  rintro ⟨-, p, hmem⟩
  exact absurd (hfront _ (by simpa using hmem)) (not_le.mpr hlt)

/-! ## One record -/

namespace Cached

variable {sm sm' : RaftLogStateMachine T} {chunkId : ChunkId} {segment : Segment}

theorem of_same (h : Cached bound sm) (hlog : sm'.log = sm.log)
    (hcache : sm'.payloadCache = sm.payloadCache)
    (hpurged : sm.logState.purged ≤ sm'.logState.purged) : Cached bound sm' := by
  refine ⟨hcache ▸ h.evictable, fun hget hlt => ?_, fun hget hlt => ?_⟩
  · rw [hcache] at hget
    rw [hlog]
    exact h.held hget (hpurged.trans_lt hlt)
  · rw [hlog] at hget
    rw [hcache]
    exact h.kept hget hlt

theorem append (h : Cached bound sm) (hagree : Agreement sm.logState sm.log)
    (hpurged : PurgedLeLast sm.logState) {logId : T.LogId} {payload : T.LogPayload}
    (hwrap : T.NoWrap sm.logState.last)
    (happly : (RaftLogStateMachine.apply (.action (.append logId payload)) chunkId segment).run sm =
      .ok () sm') : Cached bound sm' := by
  obtain ⟨hlog, hcache, hcheck, hstate⟩ := RaftLogStateMachine.apply_eq_ok.mp happly
  obtain ⟨size, front, hdrop, hfront, -⟩ := PayloadCache.insert_ok hcache
  have hlog' : sm'.log = sm.log.insert (T.logIndex logId) ⟨logId, chunkId, segment⟩ :=
    (Except.ok.inj hlog).symm
  have hnext := (checkAppend_above hpurged hcheck hwrap).1
  refine ⟨hdrop.lastEvictable.trans_le h.evictable, fun {k p} hget hlt => ?_,
    fun {i d} hget hlt => ?_⟩
  · have hinserted : (sm.payloadCache.cache.insert logId payload).get k = some p :=
      hdrop.get_of_get hget
    rw [hlog']
    rw [OrderedMap.get_insert] at hinserted ⊢
    by_cases hk : k = logId
    · exact ⟨_, by rw [hk, if_pos rfl], hk.symm⟩
    · rw [if_neg hk] at hinserted
      rw [hstate] at hlt
      obtain ⟨d, hd, hlogId⟩ := h.held hinserted hlt
      -- a held index is below that of the new entry
      obtain ⟨m, e, hm, hlast, hle, -⟩ := hagree.exists_last hd
      have hindex := (hnext _ hlast).2
      rw [hagree.key hm] at hindex
      exact ⟨d, by rw [if_neg (by omega)]; exact hd, hlogId⟩
  · rw [hlog', OrderedMap.get_insert] at hget
    have hsame := get_of_dropped hdrop (fun e he => (hfront e he).trans h.evictable) hlt
    rw [hsame, PayloadCache.get, OrderedMap.get_insert]
    split_ifs at hget with hi
    · obtain rfl := Option.some.inj hget
      exact ⟨payload, if_pos rfl⟩
    · by_cases hd : d.logId = logId
      · exact ⟨payload, if_pos hd⟩
      · rw [if_neg hd]
        exact h.kept hget hlt

theorem truncate (h : Cached bound sm) (hagree : Agreement sm.logState sm.log)
    {keep : Option T.LogId} (hkeep : keep = sm.logState.purged ∨
      ∃ k d, sm.log.get k = some d ∧ k < u64Max ∧ keep = some d.logId)
    (horder : ∀ l ∈ keep, T.logIndex l < u64Max)
    (happly : (RaftLogStateMachine.apply (.action (.truncateAfter keep)) chunkId segment).run sm =
      .ok () sm') : Cached bound sm' := by
  obtain ⟨hlog, hcache, -, hstate⟩ := RaftLogStateMachine.apply_eq_ok.mp happly
  obtain ⟨index, hindex, hlog'⟩ := Except.map_eq_ok.mp hlog
  obtain rfl := Types.nextLogIndex_eq_ok hindex (Or.inr horder)
  have hpurged : sm'.logState.purged = sm.logState.purged := by
    rw [hstate]
    exact RaftLogState.truncateAfter_purged _ _
  have hget' (i : ℕ) : sm'.log.get i = if i < T.indexAfter keep then sm.log.get i else none := by
    rw [← hlog', OrderedMap.get_splitOff_fst]
  -- the map is cut where the cache is
  have hcut {i : ℕ} {d : LogData T} (hd : sm.log.get i = some d) :
      i < T.indexAfter keep ↔ some d.logId ≤ keep := by
    rcases hkeep with rfl | ⟨k, e, he, -, rfl⟩
    · obtain ⟨habove, hle⟩ := hagree.above hd
      exact iff_of_false (not_lt.mpr hle) (not_le.mpr habove)
    · have hk := hagree.key he
      simp only [Types.indexAfter, hk, Nat.lt_succ_iff, Option.some_le_some]
      constructor
      · intro hle
        rcases Nat.lt_or_eq_of_le hle with hlt | rfl
        · exact (hagree.increasing hd he hlt).le
        · rw [Option.some.inj (hd.symm.trans he)]
      · intro hle
        by_contra hgt
        exact absurd (hagree.increasing he hd (not_le.mp hgt)) (not_lt.mpr hle)
  have hpayload := get_cacheAfter_truncateAfter hcache
  have hboundary := lastEvictable_cacheAfter hcache
  refine ⟨hboundary.trans_le h.evictable, fun {logId p} hget hlt => ?_, fun {i d} hget hlt => ?_⟩
  · rw [hpayload] at hget
    split_ifs at hget with hle
    obtain ⟨d, hd, rfl⟩ := h.held hget (hpurged ▸ hlt)
    exact ⟨d, by rw [hget', if_pos ((hcut hd).mpr hle)]; exact hd, rfl⟩
  · rw [hget'] at hget
    split_ifs at hget with hi
    obtain ⟨p, hp⟩ := h.kept hget hlt
    exact ⟨p, by rw [hpayload, if_pos ((hcut hget).mp hi)]; exact hp⟩

theorem purge (h : Cached bound sm) {upto : T.LogId}
    (hconsistent : PurgeConsistent sm.logState sm.log upto) (horder : T.logIndex upto < u64Max)
    (happly : (RaftLogStateMachine.apply (.action (.purgeUpto upto)) chunkId segment).run sm =
      .ok () sm') : Cached bound sm' := by
  obtain ⟨hlog, hcache, -, hstate⟩ := RaftLogStateMachine.apply_eq_ok.mp happly
  obtain ⟨⟨front, hdrop, hfront⟩, -⟩ := PayloadCache.purgeUpto_ok hcache
  obtain ⟨index, hindex, hlog'⟩ := Except.map_eq_ok.mp hlog
  obtain rfl := Types.nextLogIndex_eq_ok hindex (Or.inr fun l hl => Option.some.inj hl ▸ horder)
  have hpurged : sm'.logState.purged = max sm.logState.purged (some upto) := by
    rw [hstate]
    exact RaftLogState.purge_purged _ _
  have hget' (i : ℕ) : sm'.log.get i = if T.logIndex upto + 1 ≤ i then sm.log.get i else none := by
    rw [← hlog', OrderedMap.get_splitOff_snd]
    rfl
  refine ⟨hdrop.lastEvictable.trans_le h.evictable, fun {logId p} hget hlt => ?_,
    fun {i d} hget hlt => ?_⟩
  · rw [hpurged, max_lt_iff, Option.some_lt_some] at hlt
    obtain ⟨d, hd, rfl⟩ := h.held (hdrop.get_of_get hget) hlt.1
    have habove : T.logIndex upto + 1 ≤ T.logIndex d.logId := (hconsistent.held _ d hd).2.mp hlt.2
    exact ⟨d, by rw [hget', if_pos habove]; exact hd, rfl⟩
  · rw [hget'] at hget
    split_ifs at hget
    rw [get_of_dropped hdrop (fun e he => (hfront e he).2.trans h.evictable) hlt]
    exact h.kept hget hlt

/-- An accepted record, unless it takes `purged` back. -/
theorem apply (h : Cached bound sm) (hagree : Agreement sm.logState sm.log)
    (hpurged : PurgedLeLast sm.logState) {rec : RaftLogRecord T}
    (hgood : Good sm.logState sm.log rec) (horder : RecordInOrder rec)
    (hback : ∀ st, rec = .checkpoint st → sm.logState.purged ≤ st.purged)
    (happly : (RaftLogStateMachine.apply rec chunkId segment).run sm = .ok () sm') :
    Cached bound sm' := by
  obtain ⟨hlog, hcache, -, hstate⟩ := RaftLogStateMachine.apply_eq_ok.mp happly
  rcases rec with ⟨vote | ⟨logId, payload⟩ | logId | keep | upto⟩ | st
  · exact h.of_same (Except.ok.inj hlog).symm (Except.ok.inj hcache).symm (hstate ▸ le_rfl)
  · exact h.append hagree hpurged hgood happly
  · exact h.of_same (Except.ok.inj hlog).symm (Except.ok.inj hcache).symm (hstate ▸ le_rfl)
  · exact h.truncate hagree hgood horder happly
  · exact h.purge hgood.1 horder happly
  · exact h.of_same (Except.ok.inj hlog).symm (Except.ok.inj hcache).symm (hstate ▸ hback st rfl)

end Cached

/-! ## One call -/

/-- The state that a call puts in place of the old one. -/
def Op.newState? : Op T → Option (RaftLogState T)
  | .updateState state => some state
  | _ => none

/-- A consistent call that does not take `purged` back. -/
def PurgedKept (s : RaftLog W) (op : Op T) : Prop :=
  ConsistentCall s op ∧ ∀ state ∈ op.newState?, s.logState.purged ≤ state.purged

instance (s : RaftLog W) (op : Op T) : Decidable (PurgedKept s op) :=
  inferInstanceAs (Decidable (_ ∧ _))

namespace Cached

variable {s s' : RaftLog W}

theorem appendLoop (hW : Lawful W) {entries : List (T.LogId × T.LogPayload)}
    {rejection : Option (RaftLogStateError T)} (hends : AppendEnds entries s s' rejection)
    (h : Cached bound s.stateMachine) (hcoherent : Coherent s.journal)
    (hindex : ∀ entry ∈ entries, T.logIndex entry.1 < u64Max) :
    Cached bound s'.stateMachine := by
  induction hends with
  | done s => exact h
  | @next logId payload entries s s₁ s' segment rejection hrec _ ih =>
      have hmax : T.logIndex logId < u64Max := hindex (logId, payload) (by simp)
      obtain ⟨wal₁, -, happly⟩ := appendAndApply_applied hrec
      have hcached₁ : Cached bound s₁.stateMachine := h.append hcoherent.agreement
        hcoherent.purged (Or.inr hcoherent.inOrder.last) happly
      exact ih hcached₁ (hcoherent.append hW hrec hmax)
        fun e he => hindex e (List.mem_cons_of_mem _ he)
  | rejected _ => exact h

theorem completes (hW : Lawful W) {op : Op T} (h : Cached bound s.stateMachine)
    (hcoherent : Coherent s.journal) (hcall : PurgedKept s op) (hcompletes : Completes op s s') :
    Cached bound s'.stateMachine := by
  by_cases hop : op.IsSingle
  · rcases completes_single hop hcompletes with rfl | ⟨rec, segment, s₁, hwrites, hrec, hs'⟩
    · exact h
    · have hcheck : s.logState.check rec = .ok () := (appendAndApply_ok hrec).1
      obtain ⟨hgood, horder⟩ :=
        (hcall.1.guarded hcoherent.inOrder hcoherent.agreement).1 rec hwrites hcheck
      have hback : ∀ st, rec = .checkpoint st → s.logState.purged ≤ st.purged := by
        rintro st rfl
        cases op with
        | saveUserData userData =>
            obtain rfl := WALRecord.checkpoint.inj hwrites
            exact le_rfl
        | updateState state =>
            obtain rfl := WALRecord.checkpoint.inj hwrites.2
            exact hcall.2 _ rfl
        | _ => simp [Op.Writes] at hwrites
      obtain ⟨wal₁, -, happly⟩ := appendAndApply_applied hrec
      have hcached₁ : Cached bound s₁.stateMachine :=
        h.apply hcoherent.agreement hcoherent.purged hgood horder hback happly
      rcases hs' with rfl | rfl
      · exact hcached₁
      · rwa [stateMachine_bufferRemovableChunks]
  · cases op with
    | append entries =>
        obtain ⟨rejection, hends⟩ := appendEnds_of_completes hcompletes
        exact appendLoop hW hends h hcoherent hcall.1.entries_lt
    | flush sync callback =>
        rcases hcompletes with hok | ⟨e, herror⟩
        · rwa [(Tracked.flush_same hW hok).1]
        · obtain ⟨e', he'⟩ := flush_error herror
          exact absurd he' (by simp)
    | _ => exact absurd trivial hop

end Cached

/-! ## A run -/

/-- The store stays open, and the worker does not report a boundary above `bound`. -/
def Event.Within (bound : Option T.LogId) : Event W → Prop
  | .persisted (some state) => state.last ≤ bound
  | .crash _ _ | .restart _ _ => False
  | _ => True

instance (bound : Option T.LogId) : (e : Event W) → Decidable (e.Within bound)
  | .persisted (some state) => inferInstanceAs (Decidable (state.last ≤ bound))
  | .crash _ _ | .restart _ _ => isFalse id
  | .call _ | .drainCache | .persisted none | .work | .unlinkFirst _ => isTrue trivial

theorem Cached.step (hW : Lawful W) {sys sys' : System W} {e : Event W}
    (h : Cached bound sys.store.stateMachine) (hreachable : System.Reachable ConsistentCall sys)
    (hstep : System.Step PurgedKept sys e sys') (hwithin : e.Within bound) :
    Cached bound sys'.store.stateMachine := by
  cases hstep with
  | call hcall hcompletes =>
      exact h.completes hW (coherent_of_reachable hW hreachable) hcall hcompletes
  | drainCache hdrain =>
      obtain ⟨cache, hcache, rfl⟩ := drainCacheEvictable_ok hdrain
      obtain ⟨⟨front, hdrop, hfront⟩, -⟩ := PayloadCache.drainEvictable_ok hcache
      refine ⟨hdrop.lastEvictable.trans_le h.evictable, fun hget hlt => ?_, fun hget hlt => ?_⟩
      · exact h.held (hdrop.get_of_get hget) hlt
      · obtain ⟨p, hp⟩ := h.kept hget hlt
        have hsame := get_of_dropped hdrop (fun e he => (hfront e he).trans h.evictable) hlt
        exact ⟨p, hsame.trans hp⟩
  | persisted checkpoint =>
      cases checkpoint with
      | none => exact h
      | some state => exact ⟨hwithin, h.held, h.kept⟩
  | @work request _ => cases request <;> exact h
  | unlinkFirst n _ => exact h
  | crash _ _ _ => exact hwithin.elim
  | restart _ _ _ _ _ => exact hwithin.elim

theorem cached_of_run (hW : Lawful W) {sys sys' : System W} {events : List (Event W)}
    (hreachable : System.Reachable ConsistentCall sys) (h : Cached bound sys.store.stateMachine)
    (hrun : Run (System.Step PurgedKept) sys events sys') (hevents : ∀ e ∈ events, e.Within bound) :
    System.Reachable ConsistentCall sys' ∧ Cached bound sys'.store.stateMachine := by
  induction hrun with
  | nil => exact ⟨hreachable, h⟩
  | snoc _ hstep ih =>
      obtain ⟨hreachable₁, hcached₁⟩ := ih fun e he => hevents e (by simp [he])
      exact ⟨Reachable.tail hreachable₁ (hstep.mono fun _ _ hcall => hcall.1),
        hcached₁.step hW hreachable₁ hstep (hevents _ (by simp))⟩

/-! ## The drain -/

/-- Every entry of a read is a hit or a miss. -/
theorem readItems_stat (s : RaftLog W) (entries : List (LogData T)) (stat : AccessStat) :
    (s.readItems entries stat).2 =
      ⟨stat.cacheHit +
          entries.countP fun d => (s.stateMachine.payloadCache.get d.logId).isSome,
        stat.cacheMiss +
          entries.countP fun d => (s.stateMachine.payloadCache.get d.logId).isNone⟩ := by
  induction entries generalizing stat with
  | nil => rfl
  | cons d entries ih =>
      show (s.readItems entries (s.readItem d stat).2).2 = _
      rw [ih, List.countP_cons, List.countP_cons]
      cases hget : s.stateMachine.payloadCache.get d.logId with
      | some p =>
          simp only [readItem, hget, AccessStat.mk.injEq, Option.isSome_some, Option.isNone_some]
          exact ⟨by simp only [if_true]; omega, by simp⟩
      | none =>
          simp only [readItem, hget, AccessStat.mk.injEq, Option.isSome_none, Option.isNone_none]
          exact ⟨by simp, by simp only [if_true]; omega⟩

/-- What a drained cache holds of the log, and what reads of it find there. -/
structure DrainedTo (bound : Option T.LogId) (s : RaftLog W) : Prop where
  below {logId : T.LogId} :
    some logId ≤ bound → s.stateMachine.payloadCache.get logId = none
  entries {logId : T.LogId} {p : T.LogPayload} : s.logState.purged < some logId →
    (s.stateMachine.payloadCache.get logId = some p ↔
      bound < some logId ∧ s.view.entry (T.logIndex logId) = some (logId, p))
  reads {fromIndex toIndex : ℕ} : fromIndex ≤ toIndex → ∃ items,
    s.read fromIndex toIndex = .ok (items,
      ⟨s.accessStat.cacheHit +
          (s.view.slice fromIndex toIndex).countP fun e => bound < some e.1,
        s.accessStat.cacheMiss +
          (s.view.slice fromIndex toIndex).countP fun e => some e.1 ≤ bound⟩) ∧
    List.Forall₂ (fun e item => bound < some e.1 → item = .ok e)
      (s.view.slice fromIndex toIndex) items

/-- Nothing at or below the boundary is in the cache. -/
def NoneBelow (bound : Option T.LogId) (s : RaftLog W) : Prop :=
  ∀ logId, some logId ≤ bound → s.stateMachine.payloadCache.get logId = none

/-- Then a held entry is in the cache exactly if it is above the boundary. -/
theorem Cached.isSome_iff {s : RaftLog W} (h : Cached bound s.stateMachine)
    (hbelow : NoneBelow bound s) {i : ℕ} {d : LogData T}
    (hget : s.stateMachine.log.get i = some d) :
    (s.stateMachine.payloadCache.get d.logId).isSome ↔ bound < some d.logId := by
  constructor
  · intro hsome
    by_contra hle
    simp [hbelow _ (not_lt.mp hle)] at hsome
  · intro hlt
    obtain ⟨p, hp⟩ := h.kept hget hlt
    simp [hp]

/-- What is counted of the entries of a range is counted of those that it shows. -/
theorem countP_range {s : RaftLog W}
    (hbacked : Backed (W.view s.wal).written s.stateMachine.log s.stateMachine.payloadCache)
    (fromIndex toIndex : ℕ) (q : T.LogId → Bool) :
    (s.stateMachine.log.range fromIndex toIndex).values.countP (fun d => q d.logId) =
      (s.view.slice fromIndex toIndex).countP fun e => q e.1 := by
  have hids : (s.stateMachine.log.range fromIndex toIndex).values.map LogData.logId =
      (s.view.slice fromIndex toIndex).map Prod.fst := by
    rw [← List.forall₂_eq_eq_eq, List.forall₂_map_left_iff, List.forall₂_map_right_iff]
    exact (slice_view hbacked fromIndex toIndex).imp fun d e hde => hde.2.symm
  calc (s.stateMachine.log.range fromIndex toIndex).values.countP (fun d => q d.logId)
      = ((s.stateMachine.log.range fromIndex toIndex).values.map LogData.logId).countP q := by
        rw [List.countP_map]
        rfl
    _ = ((s.view.slice fromIndex toIndex).map Prod.fst).countP q := by rw [hids]
    _ = (s.view.slice fromIndex toIndex).countP fun e => q e.1 := by
        rw [List.countP_map]
        rfl

/-- The entries of a range that are in the cache are those above the boundary. -/
theorem Cached.counts {s : RaftLog W} (h : Cached bound s.stateMachine)
    (hbelow : NoneBelow bound s)
    (hbacked : Backed (W.view s.wal).written s.stateMachine.log s.stateMachine.payloadCache)
    (fromIndex toIndex : ℕ) :
    (s.stateMachine.log.range fromIndex toIndex).values.countP
        (fun d => (s.stateMachine.payloadCache.get d.logId).isSome) =
      ((s.view.slice fromIndex toIndex).countP fun e => bound < some e.1) ∧
    (s.stateMachine.log.range fromIndex toIndex).values.countP
        (fun d => (s.stateMachine.payloadCache.get d.logId).isNone) =
      (s.view.slice fromIndex toIndex).countP fun e => some e.1 ≤ bound := by
  have hsome : ∀ d ∈ (s.stateMachine.log.range fromIndex toIndex).values,
      (s.stateMachine.payloadCache.get d.logId).isSome ↔ bound < some d.logId := by
    intro d hd
    obtain ⟨⟨i, d'⟩, he, rfl⟩ := List.mem_map.mp hd
    have hget := OrderedMap.get_range_eq_some_iff.mp (OrderedMap.get_eq_some_iff.mpr he)
    exact h.isSome_iff hbelow hget.1
  constructor
  · rw [← countP_range hbacked fromIndex toIndex fun logId => bound < some logId]
    exact List.countP_congr fun d hd => by simpa using hsome d hd
  · rw [← countP_range hbacked fromIndex toIndex fun logId => some logId ≤ bound]
    refine List.countP_congr fun d hd => ?_
    have hnot := not_congr (hsome d hd)
    rw [not_lt] at hnot
    simpa using hnot

/-- A read counts its entries on the two sides of the boundary, and serves those above it from the
cache. -/
theorem Cached.read_counts (hW : Lawful W) {s : RaftLog W} (h : Cached bound s.stateMachine)
    (hbelow : NoneBelow bound s)
    (hbacked : Backed (W.view s.wal).written s.stateMachine.log s.stateMachine.payloadCache)
    {fromIndex toIndex : ℕ} (hle : fromIndex ≤ toIndex) : ∃ items,
    s.read fromIndex toIndex = .ok (items,
      ⟨s.accessStat.cacheHit +
          (s.view.slice fromIndex toIndex).countP fun e => bound < some e.1,
        s.accessStat.cacheMiss +
          (s.view.slice fromIndex toIndex).countP fun e => some e.1 ≤ bound⟩) ∧
    List.Forall₂ (fun e item => bound < some e.1 → item = .ok e)
      (s.view.slice fromIndex toIndex) items := by
  have hserves := servedBy_of_serves (slice_view hbacked fromIndex toIndex)
    (serves_range hW hbacked fromIndex toIndex)
  have hread : s.read fromIndex toIndex = .ok (s.readItems
      (s.stateMachine.log.range fromIndex toIndex).values s.accessStat) :=
    if_neg (Nat.not_lt.mpr hle)
  have hlocal : ∀ e ∈ s.view.slice fromIndex toIndex, bound < some e.1 →
      s.stateMachine.payloadCache.get e.1 ≠ none := by
    intro e he hlt hnone
    obtain ⟨i, -, hentry⟩ := List.mem_filterMap.mp he
    obtain ⟨d, hget, hd⟩ := get_of_entry hentry
    have hcached := (h.isSome_iff hbelow hget).mpr (hd ▸ hlt)
    simp [hd, hnone] at hcached
  obtain ⟨hhits, hmisses⟩ := h.counts hbelow hbacked fromIndex toIndex
  refine ⟨(s.readItems (s.stateMachine.log.range fromIndex toIndex).values s.accessStat).1,
    hread.trans (congrArg Except.ok (Prod.ext rfl ?_)), ?_⟩
  · rw [readItems_stat, hhits, hmisses]
  · refine ((List.forall₂_and_left _ _).mpr ⟨hlocal, hserves⟩).imp ?_
    rintro e item ⟨hcached, hserved⟩ hlt
    exact hserved.resolve_right fun hmiss => hcached hlt hmiss.1

/-- Such a cache is what is left of it. -/
theorem drainedTo_of_cached (hW : Lawful W) {s : RaftLog W} (h : Cached bound s.stateMachine)
    (hbelow : NoneBelow bound s)
    (hbacked : Backed (W.view s.wal).written s.stateMachine.log s.stateMachine.payloadCache) :
    DrainedTo bound s := by
  refine ⟨hbelow _, fun {logId p} hlt => ⟨fun hget => ?_, fun ⟨hbound, hentry⟩ => ?_⟩,
    h.read_counts hW hbelow hbacked⟩
  · obtain ⟨d, hd, rfl⟩ := h.held hget hlt
    obtain ⟨q, hlatest, hpayload⟩ := hbacked.payload hd
    refine ⟨(h.isSome_iff hbelow hd).mp (by simp [hget]), ?_⟩
    simp [RaftLog.view, viewOf, hd, hlatest.latestPayload_eq, hpayload p hget]
  · obtain ⟨d, hd, rfl⟩ := get_of_entry hentry
    obtain ⟨q, hlatest, hpayload⟩ := hbacked.payload hd
    obtain ⟨v, hv⟩ := h.kept hd hbound
    have hq : q = p := by simpa [RaftLog.view, viewOf, hd, hlatest.latestPayload_eq] using hentry
    rw [hv, hpayload v hv, hq]

/-- A store opened on an empty directory, in which no boundary above `bound` has been reported. -/
theorem cached_initial (hW : Lawful W) {sys : System W} (h : sys.Initial)
    (hle : sys.store.stateMachine.payloadCache.lastEvictable ≤ bound) :
    Cached bound sys.store.stateMachine := by
  obtain ⟨hlog, -, hcache⟩ := h.empty hW
  exact Cached.of_empty hlog hcache hle

/-- In a store opened on an empty directory it does not matter, after a drain, when the worker has
reported what, which drains there have been, and what the limits of the cache are: the cache has
what the log shows above the boundary `bound` that the worker has reported last, and a read takes
from the WAL what is at or below it, and nothing else. -/
theorem drained_cache (hW : Lawful W) {sys sys' : System W} {events : List (Event W)}
    (hinitial : sys.Initial)
    (hle : sys.store.stateMachine.payloadCache.lastEvictable ≤ bound)
    (hrun : Run (System.Step PurgedKept) sys events sys') (hevents : ∀ e ∈ events, e.Within bound)
    (hbound : sys'.store.stateMachine.payloadCache.lastEvictable = bound) :
    ∃ s, drainCacheEvictable.run sys'.store = .ok () s ∧ s.view = sys'.store.view ∧
      DrainedTo bound s := by
  obtain ⟨hreachable', hcached'⟩ :=
    cached_of_run hW (Reachable.of_initial hinitial) (cached_initial hW hinitial hle) hrun hevents
  have hreturns : ∃ s, drainCacheEvictable.run sys'.store = .ok () s := by
    rw [drainCacheEvictable, run_onStateMachine, RaftLogStateMachine.run_updateCache]
    cases hdrain : sys'.store.stateMachine.payloadCache.drainEvictable with
    | ok cache => exact ⟨_, rfl⟩
    | error failure =>
        exact absurd hdrain (PayloadCache.drainEvictableLoop_ne_error (hreachable'.cache_sized hW))
  obtain ⟨s, hdrain⟩ := hreturns
  have hstep : System.Step ConsistentCall sys' .drainCache { sys' with store := s } :=
    System.Step.drainCache hdrain
  have hcoherent := coherent_of_reachable hW (Reachable.tail hreachable' hstep)
  have hcached₁ : Cached bound s.stateMachine :=
    hcached'.step hW hreachable' (System.Step.drainCache hdrain) trivial
  refine ⟨s, hdrain, view_of_not_call hstep id (by simp), ?_⟩
  refine drainedTo_of_cached hW hcached₁ (fun logId hle => ?_) hcoherent.backed
  obtain ⟨cache, hcache, rfl⟩ := drainCacheEvictable_ok hdrain
  obtain ⟨-, hfilter⟩ := PayloadCache.drainEvictable_ok hcache
  rw [hbound] at hfilter
  simp only [PayloadCache.get, hfilter, OrderedMap.get_filter]
  cases sys'.store.stateMachine.payloadCache.cache.get logId <;> simp [hle]

/-- A cache that may hold two payloads. -/
def tightSystem : System (memoryWal (exampleTypes true)) :=
  (System.start { chunksOfSize true 3 with cache := ⟨some 2, none⟩ }).get (by decide)

/-- The first chunk is reported between the two appends, and one payload is evicted. -/
def reportedLate : List (Event (memoryWal (exampleTypes true))) :=
  [.call (.append [(⟨1, 0⟩, 5), (⟨1, 1⟩, 6), (⟨1, 2⟩, 7)]), .call (.flush true none), .work, .work,
    .persisted (some ⟨none, some ⟨1, 1⟩, none, none, none⟩), .call (.append [(⟨1, 3⟩, 8)]),
    .call (.purge ⟨1, 0⟩)]

def reportedSystem : System (memoryWal (exampleTypes true)) :=
  (System.performAll PurgedKept reportedLate tightSystem).get (by decide +kernel)

def reportedBoundary : Option (exampleTypes true).LogId := some ⟨1, 1⟩

theorem drained_cache_reportedSystem :
    ∃ s, drainCacheEvictable.run reportedSystem.store = .ok () s ∧
      s.view = reportedSystem.store.view ∧ DrainedTo reportedBoundary s := by
  have hinitial : tightSystem.Initial := System.initial_of_start (Option.some_get _).symm
  have hle : tightSystem.store.stateMachine.payloadCache.lastEvictable ≤ reportedBoundary := by
    decide +kernel
  have hrun : Run (System.Step PurgedKept) tightSystem reportedLate reportedSystem :=
    System.run_of_performAll (Option.some_get _).symm
  have hevents : ∀ e ∈ reportedLate, e.Within reportedBoundary := by decide +kernel
  have hbound : reportedSystem.store.stateMachine.payloadCache.lastEvictable =
      reportedBoundary := by decide +kernel
  exact drained_cache (memoryWal_lawful _) hinitial hle hrun hevents hbound

end RaftLogStore
