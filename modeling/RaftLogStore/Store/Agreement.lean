import Mathlib.Order.MinMax
import RaftLogStore.Model.StateMachine

/-!
# The log map agrees with the log state

The map is cut by index and the state is moved by log id.  `Agreement` says what keeps the
two in step: the held ids are the entries in `(purged, last]`, by log id and by index alike.

`Good st log rec` is what a record must satisfy to keep the agreement beyond being accepted:
a purge must not disagree with the stored ids, a checkpoint must describe the entries, and
`next_log_index` must not wrap.  `Agreement.step` is the step lemma.
-/

namespace RaftLogStore

variable {T : Types}

/-- The two orders of log ids, by log id and by index, agree on `a` and `b`. -/
def OrdersAgree (a b : T.LogId) : Prop :=
  (a < b ↔ T.logIndex a < T.logIndex b) ∧ (b < a ↔ T.logIndex b < T.logIndex a)

/-- A purge up to `upto` is consistent with `purged`, `last` and every held log id. -/
structure PurgeConsistent (st : RaftLogState T) (log : OrderedMap ℕ (LogData T))
    (upto : T.LogId) : Prop where
  purged : ∀ p, st.purged = some p → OrdersAgree p upto
  last : ∀ l, st.last = some l → OrdersAgree l upto
  held : ∀ k d, log.get k = some d → OrdersAgree d.logId upto

instance (a b : T.LogId) : Decidable (OrdersAgree a b) := by
  unfold OrdersAgree
  infer_instance

instance (st : RaftLogState T) (log : OrderedMap ℕ (LogData T)) (upto : T.LogId) :
    Decidable (PurgeConsistent st log upto) :=
  decidable_of_iff
    ((∀ p ∈ st.purged, OrdersAgree p upto) ∧ (∀ l ∈ st.last, OrdersAgree l upto) ∧
      ∀ k d, log.get k = some d → OrdersAgree d.logId upto)
    ⟨fun ⟨hpurged, hlast, hheld⟩ => ⟨hpurged, hlast, hheld⟩,
      fun h => ⟨h.purged, h.last, h.held⟩⟩

/-- `purged` is at or below `last` in both orders. -/
structure PurgedLeLast (st : RaftLogState T) : Prop where
  logId : st.purged ≤ st.last
  index : st.purged.map T.logIndex ≤ st.last.map T.logIndex

instance (st : RaftLogState T) : Decidable (PurgedLeLast st) :=
  decidable_of_iff
    (st.purged ≤ st.last ∧ st.purged.map T.logIndex ≤ st.last.map T.logIndex)
    ⟨fun ⟨hlogId, hindex⟩ => ⟨hlogId, hindex⟩, fun h => ⟨h.logId, h.index⟩⟩

/-- The log map holds the entries in `(purged, last]`. -/
structure Agreement (st : RaftLogState T) (log : OrderedMap ℕ (LogData T)) : Prop where
  key {k : ℕ} {d : LogData T} : log.get k = some d → T.logIndex d.logId = k
  increasing {k k' : ℕ} {d d' : LogData T} :
    log.get k = some d → log.get k' = some d' → k < k' → d.logId < d'.logId
  contiguous {k k' m : ℕ} {d d' : LogData T} :
    log.get k = some d → log.get k' = some d' → k ≤ m → m ≤ k' → ∃ e, log.get m = some e
  last {k : ℕ} {d : LogData T} : log.lastKeyValue = some (k, d) → st.last = some d.logId
  above {k : ℕ} {d : LogData T} :
    log.get k = some d → st.purged < some d.logId ∧ T.indexAfter st.purged ≤ k

/-- What a record must satisfy to keep the agreement. -/
def Good (st : RaftLogState T) (log : OrderedMap ℕ (LogData T)) : RaftLogRecord T → Prop
  | .action (.saveVote _) => True
  | .action (.append _ _) => T.NoWrap st.last
  | .action (.commit _) => True
  | .action (.truncateAfter keep) =>
      keep = st.purged ∨ ∃ k d, log.get k = some d ∧ k < u64Max ∧ keep = some d.logId
  | .action (.purgeUpto upto) => PurgeConsistent st log upto ∧ (log = ∅ ∨ T.NoWrap (some upto))
  | .checkpoint st' =>
      st'.last = st.last ∧ st'.purged = st.purged ∨
        PurgedLeLast st' ∧
          (∀ k d, log.firstKeyValue = some (k, d) →
            T.logIndex d.logId = T.indexAfter st'.purged ∧ st'.purged < some d.logId) ∧
          ∀ k d, log.lastKeyValue = some (k, d) → st'.last = some d.logId

namespace Agreement

variable {st st' : RaftLogState T} {log log' : OrderedMap ℕ (LogData T)}

theorem empty (st : RaftLogState T) : Agreement st ∅ :=
  ⟨by simp, by simp, by simp, by simp [OrderedMap.lastKeyValue], by simp⟩

/-- The agreement looks only at `last` and `purged`. -/
theorem congr (h : Agreement st log) (hlast : st'.last = st.last)
    (hpurged : st'.purged = st.purged) : Agreement st' log :=
  ⟨h.key, h.increasing, h.contiguous, fun hl => hlast ▸ h.last hl,
    fun hget => hpurged ▸ h.above hget⟩

/-- Every held entry is at or below the last one, and that one is `last`. -/
theorem exists_last (h : Agreement st log) {k : ℕ} {d : LogData T} (hget : log.get k = some d) :
    ∃ m e, log.get m = some e ∧ st.last = some e.logId ∧ k ≤ m ∧ d.logId ≤ e.logId := by
  obtain ⟨⟨m, e⟩, hlast⟩ := OrderedMap.exists_lastKeyValue hget
  obtain ⟨hm, hmax⟩ := OrderedMap.lastKeyValue_eq_some hlast
  have hle := hmax k d hget
  refine ⟨m, e, hm, h.last hlast, hle, ?_⟩
  rcases Nat.lt_or_eq_of_le hle with hlt | rfl
  · exact (h.increasing hget hm hlt).le
  · rw [Option.some.inj (hget.symm.trans hm)]

theorem held_le_last (h : Agreement st log) {k : ℕ} {d : LogData T} (hget : log.get k = some d) :
    some d.logId ≤ st.last := by
  obtain ⟨m, e, -, hlast, -, hle⟩ := h.exists_last hget
  rw [hlast]
  exact Option.some_le_some.mpr hle

/-- A part of the log map that keeps an interval of the indexes. -/
theorem filter (h : Agreement st log) {p : ℕ → Prop} [DecidablePred p]
    (hp : ∀ a b m, p a → p b → a ≤ m → m ≤ b → p m)
    (hlast : ∀ k d, (log.filter fun e => p e.1).lastKeyValue = some (k, d) →
      st'.last = some d.logId)
    (habove : ∀ k d, log.get k = some d → p k →
      st'.purged < some d.logId ∧ T.indexAfter st'.purged ≤ k) :
    Agreement st' (log.filter fun e => p e.1) := by
  have hget : ∀ k d, (log.filter fun e => p e.1).get k = some d ↔ log.get k = some d ∧ p k := by
    intro k d
    rw [OrderedMap.get_filter_eq_some_iff]
    simp
  refine ⟨?_, ?_, ?_, hlast _ _, ?_⟩
  · intro k d hd
    exact h.key ((hget k d).mp hd).1
  · intro k k' d d' hd hd' hlt
    exact h.increasing ((hget k d).mp hd).1 ((hget k' d').mp hd').1 hlt
  · intro k k' m d d' hd hd' hkm hmk'
    obtain ⟨hd, hpk⟩ := (hget k d).mp hd
    obtain ⟨hd', hpk'⟩ := (hget k' d').mp hd'
    obtain ⟨e, he⟩ := h.contiguous hd hd' hkm hmk'
    exact ⟨e, (hget m e).mpr ⟨he, hp k k' m hpk hpk' hkm hmk'⟩⟩
  · intro k d hd
    obtain ⟨hd, hpk⟩ := (hget k d).mp hd
    exact habove k d hd hpk

/-! ## The records -/

/-- An entry with the next index, above everything held. -/
theorem insert (h : Agreement st log) {d : LogData T}
    (hnext : ∀ k e, log.get k = some e → k < T.logIndex d.logId ∧ e.logId < d.logId)
    (hcontiguous : ∀ k e, log.lastKeyValue = some (k, e) → T.logIndex d.logId = k + 1)
    (hlast : st'.last = some d.logId)
    (habove : st.purged < some d.logId ∧ T.indexAfter st.purged ≤ T.logIndex d.logId)
    (hpurged : st'.purged = st.purged) :
    Agreement st' (log.insert (T.logIndex d.logId) d) := by
  refine ⟨?_, ?_, ?_, ?_, ?_⟩
  · intro k e he
    rw [OrderedMap.get_insert] at he
    split_ifs at he with hk
    · rw [← Option.some.inj he, hk]
    · exact h.key he
  · intro k k' e e' he he' hlt
    rw [OrderedMap.get_insert] at he he'
    split_ifs at he with hk <;> split_ifs at he' with hk'
    · omega
    · have := (hnext k' e' he').1
      omega
    · rw [← Option.some.inj he']
      exact (hnext k e he).2
    · exact h.increasing he he' hlt
  · intro k k' m e e' he he' hkm hmk'
    rw [OrderedMap.get_insert] at he he' ⊢
    by_cases hm : m = T.logIndex d.logId
    · exact ⟨d, if_pos hm⟩
    · rw [if_neg hm]
      split_ifs at he with hk <;> split_ifs at he' with hk'
      · omega
      · have := (hnext k' e' he').1
        omega
      · -- between a held entry and the new one: up to the last held one
        obtain ⟨⟨n, e''⟩, hn⟩ := OrderedMap.exists_lastKeyValue he
        have hcont := hcontiguous n e'' hn
        exact h.contiguous he (OrderedMap.lastKeyValue_eq_some hn).1 hkm (by omega)
      · exact h.contiguous he he' hkm hmk'
  · intro k e he
    obtain ⟨hget, hmax⟩ := OrderedMap.lastKeyValue_eq_some he
    have hle := hmax _ _ (OrderedMap.get_insert_self log (T.logIndex d.logId) d)
    rw [OrderedMap.get_insert] at hget
    split_ifs at hget with hk
    · rw [hlast, Option.some.inj hget]
    · have := (hnext k e hget).1
      omega
  · intro k e he
    rw [hpurged]
    rw [OrderedMap.get_insert] at he
    split_ifs at he with hk
    · rw [← Option.some.inj he, hk]
      exact habove
    · exact h.above he

/-- Nothing is held below the index after `purged`. -/
theorem cut_at_purged (h : Agreement st log) {index : ℕ} (hindex : index ≤ T.indexAfter st.purged) :
    (log.splitOff index).1 = ∅ := by
  refine OrderedMap.filter_eq_empty fun k d hget => ?_
  have habove := (h.above hget).2
  simp only [decide_eq_false_iff_not, not_lt]
  omega

/-- The entries up to a held one. -/
theorem cut_after (h : Agreement st log) {k : ℕ} {d : LogData T} (hget : log.get k = some d)
    (hlast : st'.last = some d.logId) (hpurged : st'.purged = st.purged) :
    Agreement st' (log.splitOff (k + 1)).1 := by
  refine h.filter (p := fun m => m < k + 1) (fun a b m _ hb _ hmb => by omega) ?_ ?_
  · intro m e hm
    obtain ⟨hgetm, hmax⟩ := OrderedMap.lastKeyValue_eq_some hm
    obtain ⟨hgetm, hle⟩ := OrderedMap.get_filter_eq_some_iff.mp hgetm
    have hle' := hmax k d (OrderedMap.get_filter_eq_some_iff.mpr ⟨hget, by simp⟩)
    simp only [decide_eq_true_eq] at hle
    have heq : m = k := by omega
    rw [heq] at hgetm
    rw [hlast, Option.some.inj (hget.symm.trans hgetm)]
  · intro m e hm _
    rw [hpurged]
    exact h.above hm

/-- The entries above an index at which `upto` parts them from the others. -/
theorem cut_upto (h : Agreement st log) {upto : T.LogId}
    (hgt : ∀ k d, log.get k = some d → T.logIndex upto + 1 ≤ k → upto < d.logId)
    (hlast : st'.last = max st.last (some upto))
    (hpurged : st'.purged = max st.purged (some upto)) :
    Agreement st' (log.splitOff (T.logIndex upto + 1)).2 := by
  refine h.filter (p := fun m => T.logIndex upto + 1 ≤ m) (fun a b m ha _ ham _ => by omega) ?_ ?_
  · intro k d hk
    obtain ⟨hget, hmax⟩ := OrderedMap.lastKeyValue_eq_some hk
    obtain ⟨hget, hle⟩ := OrderedMap.get_filter_eq_some_iff.mp hget
    simp only [decide_eq_true_eq] at hle
    -- the last entry above `upto` is the last entry
    have hlog : log.lastKeyValue = some (k, d) := by
      refine OrderedMap.lastKeyValue_eq_some_iff.mpr ⟨hget, fun k' d' hget' => ?_⟩
      rcases Nat.lt_or_ge k' (T.logIndex upto + 1) with hlt | hge
      · omega
      · exact hmax k' d' (OrderedMap.get_filter_eq_some_iff.mpr ⟨hget', by simpa using hge⟩)
    rw [hlast, h.last hlog]
    exact max_eq_left (Option.some_le_some.mpr (hgt k d hget hle).le)
  · intro k d hget hle
    obtain ⟨habove, hindex⟩ := h.above hget
    rw [hpurged]
    refine ⟨max_lt habove (Option.some_lt_some.mpr (hgt k d hget hle)), ?_⟩
    rcases max_choice st.purged (some upto) with hmax | hmax
    · rw [hmax]
      exact hindex
    · rw [hmax]
      exact hle

end Agreement

/-! ## One record -/

/-- Where the orders agree, the index of the greater log id is the greater index. -/
theorem map_index_max {x : Option T.LogId} {upto : T.LogId}
    (h : ∀ a, x = some a → OrdersAgree a upto) :
    (max x (some upto)).map T.logIndex = max (x.map T.logIndex) (some (T.logIndex upto)) := by
  cases x with
  | none => rfl
  | some a =>
      have hagree := h a rfl
      have hindex : T.logIndex (max a upto) = max (T.logIndex a) (T.logIndex upto) := by
        rcases lt_or_ge a upto with hlt | hge
        · rw [max_eq_right hlt.le, max_eq_right (hagree.1.mp hlt).le]
        · have hle := not_lt.mp fun hlt => not_lt.mpr hge (hagree.1.mpr hlt)
          rw [max_eq_left hge, max_eq_left hle]
      exact congrArg some hindex

theorem PurgedLeLast.indexAfter_le {st : RaftLogState T} (h : PurgedLeLast st) :
    T.indexAfter st.purged ≤ T.indexAfter st.last := by
  have hindex := h.index
  cases hp : st.purged with
  | none => exact Nat.zero_le _
  | some p =>
      cases hl : st.last with
      | none => simp [hp, hl] at hindex
      | some l =>
          simp only [hp, hl, Option.map_some, Option.some_le_some] at hindex
          simp only [Types.indexAfter]
          omega

theorem map_index_le_of_indexAfter_le {x : Option T.LogId} {logId : T.LogId}
    (h : T.indexAfter x ≤ T.logIndex logId) : x.map T.logIndex ≤ some (T.logIndex logId) := by
  cases x with
  | none => exact Option.none_le
  | some a =>
      simp only [Types.indexAfter] at h
      simp only [Option.map_some, Option.some_le_some]
      omega

/-- An accepted entry follows `last`, and lies above `purged`. -/
theorem checkAppend_above {st : RaftLogState T} {logId : T.LogId} (hle : PurgedLeLast st)
    (hcheck : st.checkAppend logId = .ok ()) (hwrap : T.NoWrap st.last) :
    (∀ l, st.last = some l → l < logId ∧ T.logIndex logId = T.logIndex l + 1) ∧
      st.purged < some logId ∧ T.indexAfter st.purged ≤ T.logIndex logId := by
  obtain ⟨hlast, hnext⟩ := RaftLogState.checkAppend_eq_ok_iff.mp hcheck
  refine ⟨fun l hl => ?_, lt_of_le_of_lt hle.logId hlast, ?_⟩
  · rw [hl] at hlast hnext hwrap
    have hindex := Types.nextLogIndex_eq_ok (hnext.resolve_left (by simp)) hwrap
    exact ⟨Option.some_lt_some.mp hlast, hindex⟩
  · rcases hnext with hnone | hnext
    · have hindex := hle.indexAfter_le
      rw [hnone] at hindex
      exact hindex.trans (Nat.zero_le _)
    · rw [Types.nextLogIndex_eq_ok hnext hwrap]
      exact hle.indexAfter_le

variable {st : RaftLogState T} {log log' : OrderedMap ℕ (LogData T)} {rec : RaftLogRecord T}
  {chunkId : ChunkId} {segment : Segment}

namespace Agreement

/-- An accepted entry is inserted behind all others. -/
theorem append (h : Agreement st log) (hle : PurgedLeLast st) {logId : T.LogId}
    (hcheck : st.checkAppend logId = .ok ()) (hwrap : T.NoWrap st.last) :
    Agreement { st with last := some logId }
        (log.insert (T.logIndex logId) ⟨logId, chunkId, segment⟩) ∧
      PurgedLeLast { st with last := some logId } := by
  obtain ⟨hnext, habove⟩ := checkAppend_above hle hcheck hwrap
  refine ⟨h.insert (d := ⟨logId, chunkId, segment⟩) ?_ ?_ rfl habove rfl, habove.1.le,
    map_index_le_of_indexAfter_le habove.2⟩
  · intro k e hget
    obtain ⟨m, e', hm, hlast, hkm, hee'⟩ := h.exists_last hget
    obtain ⟨hlt, hindex⟩ := hnext _ hlast
    rw [h.key hm] at hindex
    exact ⟨by simp only; omega, lt_of_le_of_lt hee' hlt⟩
  · intro k e hk
    rw [← h.key (OrderedMap.lastKeyValue_eq_some hk).1]
    exact (hnext _ (h.last hk)).2

/-- A truncation back to `purged` leaves no entry. -/
theorem truncate_purged (h : Agreement st log) (hle : PurgedLeLast st) {index : ℕ}
    (hindex : T.nextLogIndex st.purged = .ok index) :
    Agreement (st.truncateAfter st.purged) (log.splitOff index).1 ∧
      PurgedLeLast (st.truncateAfter st.purged) := by
  rw [h.cut_at_purged (Types.nextLogIndex_le hindex)]
  refine ⟨Agreement.empty _, ?_, ?_⟩ <;> simp [min_eq_right hle.logId]

/-- A truncation behind a held entry leaves the entries up to it. -/
theorem truncate_held (h : Agreement st log) {k : ℕ} {d : LogData T}
    (hget : log.get k = some d) :
    Agreement (st.truncateAfter (some d.logId)) (log.splitOff (k + 1)).1 ∧
      PurgedLeLast (st.truncateAfter (some d.logId)) := by
  have hlast : (st.truncateAfter (some d.logId)).last = some d.logId := by
    simp [min_eq_right (h.held_le_last hget)]
  obtain ⟨habove, hindex⟩ := h.above hget
  refine ⟨h.cut_after hget hlast (by simp), ?_, ?_⟩
  · rw [hlast, RaftLogState.truncateAfter_purged]
    exact habove.le
  · rw [hlast, RaftLogState.truncateAfter_purged]
    exact map_index_le_of_indexAfter_le (by rwa [h.key hget])

/-- A consistent purge leaves the entries above `upto`. -/
theorem purge (h : Agreement st log) (hle : PurgedLeLast st) {upto : T.LogId} {index : ℕ}
    (hcons : PurgeConsistent st log upto) (hwrap : log = ∅ ∨ T.NoWrap (some upto))
    (hindex : T.nextLogIndex (some upto) = .ok index) :
    Agreement (st.purge upto) (log.splitOff index).2 ∧ PurgedLeLast (st.purge upto) := by
  have hmax : PurgedLeLast (st.purge upto) := by
    refine ⟨?_, ?_⟩
    · simpa using max_le_max hle.logId (le_refl (some upto))
    · rw [RaftLogState.purge_purged, RaftLogState.purge_last, map_index_max hcons.purged,
        map_index_max hcons.last]
      exact max_le_max hle.index le_rfl
  refine ⟨?_, hmax⟩
  rcases hwrap with rfl | hwrap
  · have hempty : ((∅ : OrderedMap ℕ (LogData T)).splitOff index).2 = ∅ :=
      OrderedMap.filter_eq_empty (by simp)
    rw [hempty]
    exact Agreement.empty _
  · rw [Types.nextLogIndex_eq_ok hindex hwrap]
    refine h.cut_upto (fun k d hget hle => ?_) (by simp) (by simp)
    -- the held ids above the index are above `upto`
    refine (hcons.held k d hget).2.mpr ?_
    rw [h.key hget]
    omega

/-- The state may be replaced by one whose bounds are those of the entries. -/
theorem replace (h : Agreement st log) {st' : RaftLogState T}
    (hfirst : ∀ k d, log.firstKeyValue = some (k, d) →
      T.logIndex d.logId = T.indexAfter st'.purged ∧ st'.purged < some d.logId)
    (hlast : ∀ k d, log.lastKeyValue = some (k, d) → st'.last = some d.logId) :
    Agreement st' log := by
  refine ⟨h.key, h.increasing, h.contiguous, hlast _ _, ?_⟩
  intro k d hget
  -- the first entry is above `purged`, and the others are above the first
  obtain ⟨⟨k₀, d₀⟩, hk₀⟩ := OrderedMap.exists_firstKeyValue hget
  obtain ⟨hget₀, hmin⟩ := OrderedMap.firstKeyValue_eq_some hk₀
  obtain ⟨hindex, habove⟩ := hfirst k₀ d₀ hk₀
  have hle₀ := hmin k d hget
  have hkey₀ := h.key hget₀
  refine ⟨?_, by omega⟩
  rcases Nat.lt_or_eq_of_le hle₀ with hlt | rfl
  · exact habove.trans (Option.some_lt_some.mpr (h.increasing hget₀ hget hlt))
  · rw [← Option.some.inj (hget₀.symm.trans hget)]
    exact habove

/-- An accepted record that is `Good` keeps the agreement. -/
theorem step (h : Agreement st log) (hle : PurgedLeLast st) (hgood : Good st log rec)
    (hcheck : st.check rec = .ok ())
    (hlog : RaftLogStateMachine.logAfter rec chunkId segment log = .ok log') :
    Agreement (st.update rec) log' ∧ PurgedLeLast (st.update rec) := by
  rcases rec with ⟨vote | ⟨logId, payload⟩ | logId | keep | upto⟩ | st'
  · rw [← Except.ok.inj hlog]
    exact ⟨h.congr rfl rfl, hle.1, hle.2⟩
  · rw [← Except.ok.inj hlog]
    exact h.append hle hcheck hgood
  · rw [← Except.ok.inj hlog]
    exact ⟨h.congr rfl rfl, hle.1, hle.2⟩
  · obtain ⟨index, hindex, rfl⟩ := Except.map_eq_ok.mp hlog
    rcases hgood with rfl | ⟨k, d, hget, hk, rfl⟩
    · exact h.truncate_purged hle hindex
    · rw [Types.nextLogIndex_of_lt (by rwa [h.key hget])] at hindex
      rw [← Except.ok.inj hindex, h.key hget]
      exact h.truncate_held hget
  · obtain ⟨index, hindex, rfl⟩ := Except.map_eq_ok.mp hlog
    exact h.purge hle hgood.1 hgood.2 hindex
  · rw [← Except.ok.inj hlog]
    rcases hgood with ⟨hlast, hpurged⟩ | ⟨hle', hfirst, hlast⟩
    · refine ⟨h.congr hlast hpurged, ?_, ?_⟩
      · rw [RaftLogState.update, hlast, hpurged]
        exact hle.logId
      · rw [RaftLogState.update, hlast, hpurged]
        exact hle.index
    · exact ⟨h.replace hfirst hlast, hle'⟩

end Agreement

end RaftLogStore
