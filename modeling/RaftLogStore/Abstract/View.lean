import RaftLogStore.Abstract.DurableLog
import RaftLogStore.Journal.Backing
import RaftLogStore.Results.StoreInvariant

/-!
# The log that a store shows

An entry of the log map has the log id and the place of a record, and its payload is that of the
latest append of this log id.  With it the map and the state of a store are an `AbstractLog`, its
`view`.  So are those of any moment of a history, its `versionOf`.

A record changes the view as its action says (`viewOf_after`), whatever the record stream was
before it.
-/

namespace RaftLogStore

open RaftLog

variable {T : Types} {W : ChunkedWal T}

/-- The payload that the record appends under `logId`. -/
def appendedPayload (logId : T.LogId) (l : Located T) : Option T.LogPayload :=
  match l.record with
  | .action (.append appended payload) => if appended = logId then some payload else none
  | _ => none

/-- The payload of the latest append of `logId`. -/
def latestPayload (stream : List (Located T)) (logId : T.LogId) : Option T.LogPayload :=
  stream.reverse.findSome? (appendedPayload logId)

/-- The log of a log map and a state over a record stream. -/
def viewOf (stream : List (Located T)) (log : OrderedMap ℕ (LogData T)) (state : RaftLogState T) :
    AbstractLog T where
  state := state
  entry i := (log.get i).bind fun d => (latestPayload stream d.logId).map fun p => (d.logId, p)

/-- The log that a store shows. -/
def RaftLog.view (s : RaftLog W) : AbstractLog T :=
  viewOf (W.view s.wal).written s.stateMachine.log s.logState

/-- The log that the live store showed at the end of a history. -/
def versionOf (hist : List (Snapshot T)) : AbstractLog T :=
  viewOf (hist.map Snapshot.located) (endLog hist) (endState hist)

/-- The logs after each record of a history. -/
def versions (hist : List (Snapshot T)) : List (AbstractLog T) :=
  (List.range hist.length).map fun n => versionOf (hist.take (n + 1))

/-! ## Payloads -/

theorem latestPayload_append (stream stream' : List (Located T)) (logId : T.LogId) :
    latestPayload (stream ++ stream') logId =
      (latestPayload stream' logId).or (latestPayload stream logId) := by
  simp only [latestPayload, List.reverse_append, List.findSome?_append]

theorem appendedPayload_eq_none {l : Located T} {logId : T.LogId}
    (h : ∀ p, l.record ≠ .action (.append logId p)) : appendedPayload logId l = none := by
  unfold appendedPayload
  split
  · next appended payload hrecord =>
    refine if_neg fun heq => h payload ?_
    rw [hrecord, heq]
  · rfl

theorem latestPayload_eq_none {stream : List (Located T)} {logId : T.LogId}
    (h : ∀ l ∈ stream, ∀ p, l.record ≠ .action (.append logId p)) :
    latestPayload stream logId = none := by
  refine List.findSome?_eq_none_iff.mpr fun l hl => ?_
  exact appendedPayload_eq_none (h l (List.mem_reverse.mp hl))

theorem LatestAppend.latestPayload_eq {stream : List (Located T)} {d : LogData T}
    {payload : T.LogPayload} (h : LatestAppend stream d payload) :
    latestPayload stream d.logId = some payload := by
  obtain ⟨pre, post, rfl, hpost⟩ := h
  rw [List.append_cons, latestPayload_append, latestPayload_eq_none hpost, latestPayload_append]
  simp [latestPayload, appendedPayload]

/-! ## Views -/

/-- The entries come from the records at the end of the stream. -/
theorem viewOf_prepend {pre stream : List (Located T)} {log : OrderedMap ℕ (LogData T)}
    {cache : PayloadCache T} (h : Backed stream log cache) (state : RaftLogState T) :
    viewOf (pre ++ stream) log state = viewOf stream log state := by
  unfold viewOf
  congr 1
  funext i
  cases hget : log.get i with
  | none => rfl
  | some d =>
      obtain ⟨p, hlatest, -⟩ := h.payload hget
      simp [latestPayload_append, hlatest.latestPayload_eq]

/-- A record that appends nothing does not change a payload. -/
theorem viewOf_append {stream rest : List (Located T)}
    (h : ∀ l ∈ rest, ∀ logId p, l.record ≠ .action (.append logId p))
    (log : OrderedMap ℕ (LogData T)) (state : RaftLogState T) :
    viewOf (stream ++ rest) log state = viewOf stream log state := by
  have hnone : ∀ logId, latestPayload rest logId = none := fun logId =>
    latestPayload_eq_none fun l hl => h l hl logId
  simp only [viewOf, latestPayload_append, hnone, Option.none_or]

/-- The log after a record. -/
def AbstractLog.after (a : AbstractLog T) (rec : RaftLogRecord T) : AbstractLog T where
  state := a.state.update rec
  entry :=
    match rec with
    | .action (.append logId payload) =>
        Function.update a.entry (T.logIndex logId) (some (logId, payload))
    | .action (.truncateAfter keep) => fun i => if i < T.indexAfter keep then a.entry i else none
    | .action (.purgeUpto upto) => fun i => if i ≤ T.logIndex upto then none else a.entry i
    | _ => a.entry

theorem viewOf_after {stream : List (Located T)} {log log' : OrderedMap ℕ (LogData T)}
    {state : RaftLogState T} {l : Located T}
    (hkey : ∀ i d, log.get i = some d → T.logIndex d.logId = i)
    (hlog : RaftLogStateMachine.logAfter l.record l.chunkId l.segment log = .ok log')
    (horder : RecordInOrder l.record) :
    viewOf (stream ++ [l]) log' (state.update l.record) =
      (viewOf stream log state).after l.record := by
  obtain ⟨chunkId, segment, rec⟩ := l
  simp only at hlog horder ⊢
  -- only an append changes a payload
  have hother : (∀ logId p, rec ≠ .action (.append logId p)) →
      viewOf (stream ++ [⟨chunkId, segment, rec⟩]) log' (state.update rec) =
        viewOf stream log' (state.update rec) := fun hrec =>
    viewOf_append (by simpa using hrec) log' _
  rcases rec with ⟨vote | ⟨logId, payload⟩ | logId | keep | upto⟩ | st
  · rw [hother (by simp), ← Except.ok.inj hlog]
    rfl
  · rw [← Except.ok.inj hlog]
    refine AbstractLog.ext rfl (funext fun i => ?_)
    simp only [viewOf, AbstractLog.after, OrderedMap.get_insert, latestPayload_append]
    by_cases hi : i = T.logIndex logId
    · rw [hi, if_pos rfl, Function.update_self]
      simp [latestPayload, appendedPayload]
    · rw [if_neg hi, Function.update_of_ne hi]
      cases hget : log.get i with
      | none => rfl
      | some d =>
          have hne : logId ≠ d.logId := fun heq => hi (by rw [heq, hkey i d hget])
          simp [latestPayload, appendedPayload, hne]
  · rw [hother (by simp), ← Except.ok.inj hlog]
    rfl
  · obtain ⟨index, hindex, rfl⟩ := Except.map_eq_ok.mp hlog
    rw [hother (by simp), Types.nextLogIndex_eq_ok hindex (Or.inr horder)]
    refine AbstractLog.ext rfl (funext fun i => ?_)
    simp only [viewOf, AbstractLog.after, OrderedMap.get_splitOff_fst]
    split_ifs <;> rfl
  · obtain ⟨index, hindex, rfl⟩ := Except.map_eq_ok.mp hlog
    have hnext := Types.nextLogIndex_eq_ok hindex
      (Or.inr fun u hu => Option.some.inj hu ▸ horder)
    rw [hother (by simp), hnext]
    refine AbstractLog.ext rfl (funext fun i => ?_)
    simp only [viewOf, AbstractLog.after, OrderedMap.get_splitOff_snd, Types.indexAfter]
    by_cases hi : i ≤ T.logIndex upto
    · rw [if_neg (by omega), if_pos hi]
      rfl
    · rw [if_pos (by omega), if_neg hi]
  · rw [hother (by simp), ← Except.ok.inj hlog]
    rfl

/-! ## Versions -/

@[simp] theorem length_versions (hist : List (Snapshot T)) :
    (versions hist).length = hist.length := by
  simp [versions]

theorem take_versions (hist : List (Snapshot T)) (n : ℕ) :
    (versions hist).take n = versions (hist.take n) := by
  rw [versions, ← List.map_take, List.take_range, versions, List.length_take]
  refine List.map_congr_left fun m hm => ?_
  rw [List.take_take, Nat.min_eq_left]
  have := List.mem_range.mp hm
  omega

theorem versions_isPrefix {hist hist' : List (Snapshot T)} (h : hist <+: hist') :
    versions hist <+: versions hist' := by
  rw [List.prefix_iff_eq_take.mp h, ← take_versions]
  exact List.take_prefix _ _

theorem versions_concat (hist : List (Snapshot T)) (snap : Snapshot T) :
    versions (hist ++ [snap]) = versions hist ++ [versionOf (hist ++ [snap])] := by
  rw [versions, List.length_append, List.length_singleton, List.range_succ, List.map_append,
    List.map_singleton, List.take_of_length_le (by simp), versions]
  congr 1
  refine List.map_congr_left fun m hm => ?_
  rw [List.take_append_of_le_length (List.mem_range.mp hm)]

/-- The last version is the log at the end. -/
theorem getLastD_versions (hist : List (Snapshot T)) :
    (versions hist).getLastD AbstractLog.empty = versionOf hist := by
  rcases List.eq_nil_or_concat' hist with rfl | ⟨front, snap, rfl⟩
  · refine AbstractLog.ext rfl (funext fun i => ?_)
    rfl
  · rw [versions_concat, List.getLastD_concat]

/-- Records after which the log is the same each time. -/
theorem versions_append_of_forall {hist added : List (Snapshot T)} {a : AbstractLog T}
    (h : ∀ front, front ≠ [] → front <+: added → versionOf (hist ++ front) = a) :
    versions (hist ++ added) = versions hist ++ List.replicate added.length a := by
  induction added using List.reverseRecOn with
  | nil => simp
  | append_singleton added snap ih =>
      have hfront := ih fun front hne hpre => h front hne (hpre.trans (List.prefix_append _ _))
      rw [← List.append_assoc, versions_concat, hfront, List.append_assoc hist,
        h _ (by simp) (List.prefix_refl _), List.append_assoc, List.length_append,
        List.length_singleton, List.replicate_succ']

end RaftLogStore
