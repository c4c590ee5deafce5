import RaftLogStore.Journal.Reopening

/-!
# Every entry is backed by a record

The log map is keyed by index, the cache by log id, and the two are pruned by different rules.
What keeps them together is the record stream: `Backed` says that the place of each held entry
holds the latest append of its log id, and that the cache has the payload of this record or
none.  It is kept by every accepted record, whatever it is (`Backed.step`), and so also by a
replay.
-/

namespace RaftLogStore

variable {T : Types} {G : Journal T → RaftLogRecord T → Prop}

/-- The record at the place of `d` is the latest append of its log id, and its payload is
`payload`. -/
def LatestAppend (stream : List (Located T)) (d : LogData T) (payload : T.LogPayload) : Prop :=
  ∃ pre post, stream =
      pre ++ ⟨d.chunkId, d.recordSegment, .action (.append d.logId payload)⟩ :: post ∧
    ∀ l ∈ post, ∀ p, l.record ≠ .action (.append d.logId p)

theorem LatestAppend.concat {stream : List (Located T)} {d : LogData T} {payload : T.LogPayload}
    (h : LatestAppend stream d payload) {l : Located T}
    (hl : ∀ p, l.record ≠ .action (.append d.logId p)) :
    LatestAppend (stream ++ [l]) d payload := by
  obtain ⟨pre, post, rfl, hpost⟩ := h
  refine ⟨pre, post ++ [l], by simp, fun l' hl' => ?_⟩
  rcases List.mem_append.mp hl' with hmem | hmem
  · exact hpost l' hmem
  · rw [List.mem_singleton.mp hmem]
    exact hl

theorem LatestAppend.mem {stream : List (Located T)} {d : LogData T} {payload : T.LogPayload}
    (h : LatestAppend stream d payload) :
    (⟨d.chunkId, d.recordSegment, .action (.append d.logId payload)⟩ : Located T) ∈ stream := by
  obtain ⟨pre, post, rfl, -⟩ := h
  simp

theorem LatestAppend.unique {stream : List (Located T)} {d : LogData T} {p p' : T.LogPayload}
    (h : LatestAppend stream d p) (h' : LatestAppend stream d p') : p = p' := by
  obtain ⟨pre, post, rfl, hpost⟩ := h
  obtain ⟨pre', post', heq, hpost'⟩ := h'
  -- the two places in the stream are the same, or one is behind the other
  rcases List.append_eq_append_iff.mp heq with ⟨a, -, ha⟩ | ⟨a, -, ha⟩
  · rcases List.cons_eq_append_iff.mp ha with ⟨-, hcons⟩ | ⟨a', -, hpost_eq⟩
    · simpa using (List.cons.inj hcons).1.symm
    · exact absurd rfl (hpost _ (hpost_eq ▸ List.mem_append_right a' List.mem_cons_self) p')
  · rcases List.cons_eq_append_iff.mp ha with ⟨-, hcons⟩ | ⟨a', -, hpost_eq⟩
    · simpa using (List.cons.inj hcons).1
    · exact absurd rfl (hpost' _ (hpost_eq ▸ List.mem_append_right a' List.mem_cons_self) p)

/-- The log map and the cache follow the record stream. -/
structure Backed (stream : List (Located T)) (log : OrderedMap ℕ (LogData T))
    (cache : PayloadCache T) : Prop where
  key {i : ℕ} {d : LogData T} : log.get i = some d → T.logIndex d.logId = i
  payload {i : ℕ} {d : LogData T} : log.get i = some d →
    ∃ p, LatestAppend stream d p ∧ ∀ v, cache.get d.logId = some v → v = p

/-- A cached payload was there before, or has just been appended. -/
theorem get_cacheAfter {rec : RaftLogRecord T} {c c' : PayloadCache T}
    (h : RaftLogStateMachine.cacheAfter rec c = .ok c') {logId : T.LogId} {v : T.LogPayload}
    (hget : c'.get logId = some v) :
    rec = .action (.append logId v) ∨
      c.get logId = some v ∧ ∀ p, rec ≠ .action (.append logId p) := by
  rcases rec with ⟨vote | ⟨appended, payload⟩ | committed | (- | keep) | upto⟩ | st
  · exact Or.inr ⟨Except.ok.inj h ▸ hget, by simp⟩
  · obtain ⟨size, front, hdrop, -, -⟩ := PayloadCache.insert_ok h
    have hinserted : (c.cache.insert appended payload).get logId = some v := hdrop.get_of_get hget
    rw [OrderedMap.get_insert] at hinserted
    split_ifs at hinserted with heq
    · rw [heq, Option.some.inj hinserted]
      exact Or.inl rfl
    · refine Or.inr ⟨hinserted, fun p hp => heq ?_⟩
      simp only [WALRecord.action.injEq, RaftLogAction.append.injEq] at hp
      exact hp.1.symm
  · exact Or.inr ⟨Except.ok.inj h ▸ hget, by simp⟩
  · rw [← Except.ok.inj h] at hget
    simp [PayloadCache.get, PayloadCache.clear] at hget
  · obtain ⟨⟨back, hdrop, -⟩, -⟩ := PayloadCache.truncateAfter_ok h
    exact Or.inr ⟨hdrop.get_of_get hget, by simp⟩
  · obtain ⟨⟨front, hdrop, -⟩, -⟩ := PayloadCache.purgeUpto_ok h
    exact Or.inr ⟨hdrop.get_of_get hget, by simp⟩
  · exact Or.inr ⟨Except.ok.inj h ▸ hget, by simp⟩

namespace Backed

variable {stream : List (Located T)} {log log' : OrderedMap ℕ (LogData T)}
  {cache cache' : PayloadCache T}

theorem empty (cache : PayloadCache T) : Backed [] ∅ cache := ⟨by simp, by simp⟩

/-- A smaller cache is backed as well. -/
theorem evict (h : Backed stream log cache)
    (hsub : ∀ logId v, cache'.get logId = some v → cache.get logId = some v) :
    Backed stream log cache' := by
  refine ⟨h.key, fun hget => ?_⟩
  obtain ⟨p, hlatest, hcached⟩ := h.payload hget
  exact ⟨p, hlatest, fun v hv => hcached v (hsub _ v hv)⟩

/-- A record that no entry comes from. -/
theorem concat (h : Backed stream log cache) {l : Located T}
    (hl : ∀ logId p, l.record ≠ .action (.append logId p)) : Backed (stream ++ [l]) log cache := by
  refine ⟨h.key, fun hget => ?_⟩
  obtain ⟨p, hlatest, hcached⟩ := h.payload hget
  exact ⟨p, hlatest.concat (hl _), hcached⟩

/-- One record, whatever it is. -/
theorem step (h : Backed stream log cache) {l : Located T}
    (hlog : RaftLogStateMachine.logAfter l.record l.chunkId l.segment log = .ok log')
    (hcache : RaftLogStateMachine.cacheAfter l.record cache = .ok cache') :
    Backed (stream ++ [l]) log' cache' := by
  have hkey : ∀ {i d}, log'.get i = some d → T.logIndex d.logId = i := by
    intro i d hget
    rcases RaftLogStateMachine.get_logAfter hlog hget with hold | ⟨_, _, hi, _, _⟩
    · exact h.key hold
    · exact hi.symm
  refine ⟨hkey, fun {i d} hget => ?_⟩
  by_cases happend : ∃ p, l.record = .action (.append d.logId p)
  · -- the entry of this log id is the one that is put in
    obtain ⟨p, hrecord⟩ := happend
    rw [hrecord] at hlog hcache
    have hnew : log'.get i = some ⟨d.logId, l.chunkId, l.segment⟩ := by
      rw [← Except.ok.inj hlog, ← hkey hget]
      exact OrderedMap.get_insert_self _ _ _
    have hd := Option.some.inj (hget.symm.trans hnew)
    refine ⟨p, ⟨stream, [], ?_, by simp⟩, fun v hv => ?_⟩
    · rw [hd, ← hrecord]
    · rcases get_cacheAfter hcache hv with hrec | ⟨-, hother⟩
      · simp only [WALRecord.action.injEq, RaftLogAction.append.injEq] at hrec
        exact hrec.2.symm
      · exact absurd rfl (hother p)
  · have hother : ∀ p, l.record ≠ .action (.append d.logId p) := fun p hp => happend ⟨p, hp⟩
    have hold : log.get i = some d := by
      rcases RaftLogStateMachine.get_logAfter hlog hget with hold | ⟨p, hp, _, _, _⟩
      · exact hold
      · exact absurd hp (hother p)
    obtain ⟨p, hlatest, hcached⟩ := h.payload hold
    refine ⟨p, hlatest.concat hother, fun v hv => hcached v ?_⟩
    rcases get_cacheAfter hcache hv with hrec | ⟨hv, -⟩
    · exact absurd hrec (hother v)
    · exact hv

/-- A replay backs what it builds up. -/
theorem of_replay {config : CacheConfig} {sm : RaftLogStateMachine T} {records : List (Located T)}
    (h : Replay (RaftLogStateMachine.new config) records sm) :
    Backed records sm.log sm.payloadCache := by
  induction h with
  | nil => exact Backed.empty _
  | record _ happly ih =>
      obtain ⟨hlog, hcache, -, -⟩ := RaftLogStateMachine.apply_eq_ok.mp happly
      exact ih.step hlog hcache
  | persisted checkpoint _ ih =>
      refine ih.evict fun logId v hv => ?_
      cases checkpoint with
      | none => exact hv
      | some state => exact hv

end Backed

theorem Loaded.backed {disk : List (Located T)} {j : Journal T} (h : Loaded disk j) :
    Backed j.written j.log j.cache := by
  obtain ⟨config, sm, hreplay, hlog, -, hcache⟩ := h.replay
  have hbacked := Backed.of_replay hreplay
  rw [← hlog, ← hcache] at hbacked
  rcases h.written with ⟨hwritten, -⟩ | ⟨⟨segment, hwritten⟩, -⟩
  · exact hwritten ▸ hbacked
  · exact hwritten ▸ hbacked.concat (by simp)

/-- A step of a store keeps its entries backed. -/
theorem Journal.Step.backed {j j' : Journal T} {added : List (Snapshot T)}
    (hstep : Journal.Step G j added j') (h : Backed j.written j.log j.cache) :
    Backed j'.written j'.log j'.cache := by
  cases hstep with
  | write _ _ _ hlog hcache => exact h.step hlog hcache
  | rotate segment _ _ _ => exact h.concat (by simp)
  | drain _ => exact h
  | send sync => exact h
  | sendAndRemove => exact h
  | drainCache hdrain =>
      obtain ⟨⟨front, hdrop, -⟩, -⟩ := PayloadCache.drainEvictable_ok hdrain
      exact h.evict fun _ _ hv => hdrop.get_of_get hv
  | persisted checkpoint =>
      refine h.evict fun logId v hv => ?_
      cases checkpoint with
      | none => exact hv
      | some state => exact hv

end RaftLogStore
