import RaftLogStore.Journal.CacheInvariant
import RaftLogStore.Results.Reading
import RaftLogStore.Store.Guards

/-!
# The calls are total

A call returns, or is rejected, as long as its arithmetic stays in range.  There are two
additions: `next_log_index` adds one to an index, and `insert` adds the size of a payload to the
size of the cache.  Neither is checked, so a log id with the index `u64::MAX` makes the call that
asks for the index after it panic, or wrap around, depending on the build.  And `read` of a range
that starts behind its end panics in the standard library.

Nothing else can go wrong: whatever is unwrapped is there, and the size of the cache covers what
is subtracted from it, as long as no addition to it has wrapped.

## Strategy
1. `Total` says which arithmetic a call does, and that it stays in range; `InRange` is the
   condition on the arguments and the state before the call.
2. That the size covers the cache is an invariant with a rule (`covered_rule`).
3. A record that passes the check is applied without a panic (`appendAndApply_ne_panic`), and
   each call is taken apart into its records.
-/

namespace RaftLogStore

open RaftLog

variable {T : Types} {W : ChunkedWal T}

/-! ## Arithmetic in range -/

/-- Any entries can be taken out of the cache without `size` going below zero. -/
def PayloadCache.Covered (c : PayloadCache T) : Prop := c.cache.total T.payloadSize ≤ c.size

/-- The addition to the size of the cache does not wrap: the build checks for overflow, and so
panics instead, or the sum is a `usize`. -/
def NoSizeWrap (c : PayloadCache T) (_ : T.LogId) (payload : T.LogPayload) : Prop :=
  T.overflowChecks = true ∨ c.size + T.payloadSize payload ≤ u64Max

/-! ## The calls -/

/-- An `append` to `s` comes to the entry when the store is `s₁`. -/
def ComesTo (entries : List (T.LogId × T.LogPayload)) (s s₁ : RaftLog W) (logId : T.LogId)
    (payload : T.LogPayload) : Prop :=
  ∃ front rest, entries = front ++ (logId, payload) :: rest ∧
    (appendLoop front).run s = .ok () s₁

/-- The call asks for the index after `logId`, unless the WAL fails before. -/
def Op.AsksNext (op : Op T) (s : RaftLog W) (logId : Option T.LogId) : Prop :=
  match op with
  | .append entries => ∃ s₁ entry payload, ComesTo entries s s₁ entry payload ∧
      s₁.logState.last < some entry ∧ logId = s₁.logState.last
  | .truncate index => logId = s.logState.purged ∨
      s.truncateKeep index.toNat = .ok logId ∧ s.logState.checkTruncate logId = .ok ()
  | .purge upto => logId = s.logState.purged ∨
      logId = some upto ∧ (Op.purge upto).Writes s (.action (.purgeUpto upto))
  | .updateState state => logId = state.purged ∧ s.stateMachine.log ≠ ∅
  | _ => False

/-- The call adds the size of `payload` to the one of the cache `c`, unless the WAL fails
before. -/
def Op.Adds (op : Op T) (s : RaftLog W) (c : PayloadCache T) (payload : T.LogPayload) : Prop :=
  match op with
  | .append entries => ∃ s₁ logId, ComesTo entries s s₁ logId payload ∧
      s₁.logState.checkAppend logId = .ok () ∧ c = s₁.stateMachine.payloadCache
  | _ => False

/-- The call may take entries out of the cache `c`. -/
def Op.TakesFrom (op : Op T) (s : RaftLog W) (c : PayloadCache T) : Prop :=
  match op with
  | .append entries => ∃ s₁ logId payload, ComesTo entries s s₁ logId payload ∧
      s₁.logState.checkAppend logId = .ok () ∧
      c = { s₁.stateMachine.payloadCache with
        size := s₁.stateMachine.payloadCache.size + T.payloadSize payload
        cache := s₁.stateMachine.payloadCache.cache.insert logId payload }
  | .truncate _ => c = s.stateMachine.payloadCache
  | .purge _ => c = s.stateMachine.payloadCache
  | _ => False

/-- The call returns or is rejected, or the WAL fails, and all its arithmetic stays in range. -/
structure Total (s : RaftLog W) (op : Op T) : Prop where
  returns {s' : RaftLog W} : op.exec.run s ≠ .error .panic s'
  next {logId : Option T.LogId} : op.AsksNext s logId → T.HasNext logId
  addition {c : PayloadCache T} {payload : T.LogPayload} :
    op.Adds s c payload → c.size + T.payloadSize payload ≤ u64Max
  subtraction {c : PayloadCache T} : op.TakesFrom s c → c.Covered

/-- A `read` returns an iterator, which does not panic, and is empty if the range is. -/
structure ReadTotal (s : RaftLog W) (fromIndex toIndex : ℕ) : Prop where
  returns : ∃ items stat, s.read fromIndex toIndex = .ok (items, stat) ∧
    (∀ item ∈ items, item ≠ .error .panic) ∧ (toIndex ≤ fromIndex → items = [])

/-! ## The condition -/

/-- The index after `last` is a `u64` if the entry is above it, and the payload fits the cache if
the entry is accepted. -/
structure EntryInRange (s : RaftLog W) (logId : T.LogId) (payload : T.LogPayload) : Prop where
  next : s.logState.last < some logId → T.HasNext s.logState.last
  fits : s.logState.checkAppend logId = .ok () →
    s.stateMachine.payloadCache.size + T.payloadSize payload ≤ u64Max

/-- The same for the entries of an `append`, each in the store that those before it lead to. -/
def EntriesInRange : List (T.LogId × T.LogPayload) → RaftLog W → Prop
  | [], _ => True
  | (logId, payload) :: entries, s => EntryInRange s logId payload ∧
      ∀ segment s₁, (appendAndApply (.action (.append logId payload))).run s = .ok segment s₁ →
        EntriesInRange entries s₁

/-- No index after which the call may ask is `u64::MAX + 1`, and the appended payloads fit the
cache. -/
def InRange (s : RaftLog W) : Op T → Prop
  | .append entries => EntriesInRange entries s
  | .truncate _ => T.HasNext s.logState.purged
  | .purge upto => T.HasNext s.logState.purged ∧ T.HasNext (some upto)
  | .updateState state => s.stateMachine.log = ∅ ∨ T.HasNext state.purged
  | _ => True

/-- A step in which no addition to the size of the cache wraps: any step in a build with overflow
checks. -/
def SizeStep : System W → Event W → System W → Prop :=
  AdmittedStep NoSizeWrap (AdmitsCall NoSizeWrap)

instance (s : RaftLog W) (logId : T.LogId) (payload : T.LogPayload) :
    Decidable (EntryInRange s logId payload) :=
  decidable_of_iff ((s.logState.last < some logId → T.HasNext s.logState.last) ∧
    (s.logState.checkAppend logId = .ok () →
      s.stateMachine.payloadCache.size + T.payloadSize payload ≤ u64Max))
    ⟨fun ⟨hnext, hfits⟩ => ⟨hnext, hfits⟩, fun h => ⟨h.next, h.fits⟩⟩

instance EntriesInRange.decidable : (entries : List (T.LogId × T.LogPayload)) →
    (s : RaftLog W) → Decidable (EntriesInRange entries s)
  | [], _ => isTrue trivial
  | (logId, payload) :: entries, s =>
      have : Decidable (∀ segment s₁, (appendAndApply (.action (.append logId payload))).run s =
          .ok segment s₁ → EntriesInRange entries s₁) :=
        match h : (appendAndApply (.action (.append logId payload))).run s with
        | .ok segment s₁ =>
            have := EntriesInRange.decidable entries s₁
            decidable_of_iff (EntriesInRange entries s₁) (by simp)
        | .error _ _ => isTrue (by simp)
      inferInstanceAs (Decidable (_ ∧ _))

instance (s : RaftLog W) : (op : Op T) → Decidable (InRange s op)
  | .append entries => EntriesInRange.decidable entries s
  | .truncate _ => inferInstanceAs (Decidable (T.HasNext _))
  | .purge _ => inferInstanceAs (Decidable (_ ∧ _))
  | .updateState _ => inferInstanceAs (Decidable (_ ∨ _))
  | .saveVote _ | .saveUserData _ | .commit _ | .flush _ _ => isTrue trivial

/-! ## The size covers the cache -/

theorem covered_iff_ahead {c : PayloadCache T} : c.Covered ↔ ∃ n, c.Ahead n :=
  ⟨Nat.exists_eq_add_of_le, fun ⟨n, h⟩ => (Nat.le_add_right _ n).trans_eq h.symm⟩

theorem PayloadCache.Covered.sized {c : PayloadCache T} (h : c.Covered) : c.Sized := fun _ => h

theorem covered_rule : CacheRule (NoSizeWrap (T := T)) PayloadCache.Covered where
  new _ _ := Nat.zero_le _
  setLastEvictable _ h := h
  clear _ := Nat.zero_le _
  dropped hdrop h := by
    obtain ⟨n, hahead⟩ := covered_iff_ahead.mp h
    exact covered_iff_ahead.mpr ⟨n, hdrop.ahead n hahead⟩
  insert {c c' logId payload} h hwrap hinsert := by
    -- a build with checks has not returned from a sum that does not fit
    have hfits : c.size + T.payloadSize payload ≤ u64Max := by
      rcases hwrap with hchecks | hfits
      · exact (PayloadCache.insert_isOk_iff h.sized).mp ⟨c', hinsert⟩ hchecks
      · exact hfits
    obtain ⟨n, hahead⟩ := covered_iff_ahead.mp h
    exact covered_iff_ahead.mpr ⟨_, PayloadCache.insert_ahead hinsert hahead hfits⟩

/-- The cache right after the addition, before anything is evicted. -/
theorem PayloadCache.Covered.added {c : PayloadCache T} (h : c.Covered) (logId : T.LogId)
    (payload : T.LogPayload) :
    PayloadCache.Covered { c with
      size := c.size + T.payloadSize payload, cache := c.cache.insert logId payload } := by
  calc (c.cache.insert logId payload).total T.payloadSize
      ≤ c.cache.total T.payloadSize + T.payloadSize payload :=
        OrderedMap.total_insert_le T.payloadSize c.cache logId payload
    _ ≤ c.size + T.payloadSize payload := Nat.add_le_add_right h _

/-! ## One record -/

/-- A record that passes the check is applied without a panic, if its index arithmetic and the
one of the cache stay in range. -/
theorem appendAndApply_ne_panic {rec : RaftLogRecord T} {s s' : RaftLog W}
    (hcheck : s.logState.check rec ≠ .error .panic)
    (hlog : s.logState.check rec = .ok () → ∀ chunkId segment,
      RaftLogStateMachine.logAfter rec chunkId segment s.stateMachine.log ≠ .error .panic)
    (hcache : s.logState.check rec = .ok () →
      RaftLogStateMachine.cacheAfter rec s.stateMachine.payloadCache ≠ .error .panic) :
    (appendAndApply rec).run s ≠ .error .panic s' := by
  intro h
  rcases appendAndApply_error h with ⟨hreject, -⟩ | ⟨e, he⟩ | ⟨hok, wal₁, sm, -, happly⟩
  · exact hcheck hreject
  · exact absurd he (by simp)
  · rcases RaftLogStateMachine.apply_eq_error happly with hfail | hfail | hfail
    · exact hlog hok _ _ hfail
    · exact hcache hok hfail
    · exact hcheck hfail

/-- An entry is appended or rejected, unless the WAL fails or a build with overflow checks finds its
arithmetic out of range. -/
theorem appendEntry_ne_panic {s s' : RaftLog W} {logId : T.LogId} {payload : T.LogPayload}
    (h : T.overflowChecks = true → EntryInRange s logId payload)
    (hsized : s.stateMachine.payloadCache.Sized) :
    (appendAndApply (.action (.append logId payload))).run s ≠ .error .panic s' := by
  refine appendAndApply_ne_panic ?_ (fun _ _ _ => by simp [RaftLogStateMachine.logAfter]) ?_
  · refine RaftLogState.check_ne_panic fun logId' payload' heq hlt => ?_
    simp only [WALRecord.action.injEq, RaftLogAction.append.injEq] at heq
    obtain ⟨index, hindex⟩ :=
      Types.nextLogIndex_isOk_iff.mpr fun hchecks => (h hchecks).next (heq.1 ▸ hlt)
    rw [hindex]
    simp
  · intro hcheck hpanic
    obtain ⟨c', hc'⟩ :=
      (PayloadCache.insert_isOk_iff hsized).mpr fun hchecks => (h hchecks).fits hcheck
    have hinsert : s.stateMachine.payloadCache.insert logId payload = .error .panic := hpanic
    exact absurd (hc'.symm.trans hinsert) (by simp)

/-- An appended entry leaves the size above what the cache holds. -/
theorem EntryInRange.covered {s s₁ : RaftLog W} {logId : T.LogId} {payload : T.LogPayload}
    {segment : Segment} (h : EntryInRange s logId payload)
    (hcovered : s.stateMachine.payloadCache.Covered)
    (hrec : (appendAndApply (.action (.append logId payload))).run s = .ok segment s₁) :
    s₁.stateMachine.payloadCache.Covered := by
  obtain ⟨hcheck, hinsert, -⟩ := appendAndApply_entry hrec
  exact covered_rule.insert hcovered (Or.inr (h.fits hcheck)) hinsert

/-! ## Appending -/

theorem comesTo_cons {entries : List (T.LogId × T.LogPayload)} {s s₁ s₂ : RaftLog W}
    {logId logId' : T.LogId} {payload payload' : T.LogPayload} {segment : Segment}
    (hrec : (appendAndApply (.action (.append logId payload))).run s = .ok segment s₁)
    (h : ComesTo entries s₁ s₂ logId' payload') :
    ComesTo ((logId, payload) :: entries) s s₂ logId' payload' := by
  obtain ⟨front, rest, rfl, hfront⟩ := h
  refine ⟨(logId, payload) :: front, rest, rfl, ?_⟩
  rw [run_appendLoop_cons, hrec]
  exact hfront

/-- Each entry the loop comes to is in range, in a store whose size covers its cache. -/
theorem EntriesInRange.comesTo {entries : List (T.LogId × T.LogPayload)} {s s₁ : RaftLog W}
    {logId : T.LogId} {payload : T.LogPayload} (h : EntriesInRange entries s)
    (hcovered : s.stateMachine.payloadCache.Covered) (hcomes : ComesTo entries s s₁ logId payload) :
    EntryInRange s₁ logId payload ∧ s₁.stateMachine.payloadCache.Covered := by
  obtain ⟨front, rest, rfl, hfront⟩ := hcomes
  induction front generalizing s with
  | nil =>
      obtain rfl : s = s₁ := (EStateM.Result.ok.inj hfront).2
      exact ⟨h.1, hcovered⟩
  | cons entry front ih =>
      rw [run_appendLoop_cons] at hfront
      cases hrec : (appendAndApply (.action (.append entry.1 entry.2))).run s with
      | error failure s₂ => simp [hrec] at hfront
      | ok segment s₂ =>
          rw [hrec] at hfront
          exact ih (h.1.covered hcovered hrec) hfront (h.2 segment s₂ hrec)

/-- The condition is that all entries the loop comes to are in range. -/
theorem entriesInRange_of_comesTo {entries : List (T.LogId × T.LogPayload)} {s : RaftLog W}
    (h : ∀ s₁ logId payload, ComesTo entries s s₁ logId payload →
      EntryInRange s₁ logId payload) : EntriesInRange entries s := by
  induction entries generalizing s with
  | nil => trivial
  | cons entry entries ih =>
      refine ⟨h s entry.1 entry.2 ⟨[], entries, rfl, rfl⟩, fun segment s₁ hrec => ih ?_⟩
      intro s₂ logId payload hcomes
      exact h s₂ logId payload (comesTo_cons hrec hcomes)

theorem appendLoop_ne_panic {entries : List (T.LogId × T.LogPayload)} {s s' : RaftLog W}
    (h : T.overflowChecks = true → EntriesInRange entries s)
    (hsized : s.stateMachine.payloadCache.Sized) :
    (appendLoop entries).run s ≠ .error .panic s' := by
  refine appendLoop_ne_panic_of (P := fun entries s =>
    (T.overflowChecks = true → EntriesInRange entries s) ∧
      s.stateMachine.payloadCache.Sized) ?_ ?_ ⟨h, hsized⟩
  · rintro logId payload entries s segment s₁ ⟨hentries, hsized⟩ hrec
    obtain ⟨-, hinsert, -⟩ := appendAndApply_entry hrec
    exact ⟨fun hchecks => (hentries hchecks).2 segment s₁ hrec,
      sized_rule.insert hsized trivial hinsert⟩
  · rintro logId payload entries s s₁ ⟨hentries, hsized⟩
    exact appendEntry_ne_panic (fun hchecks => (hentries hchecks).1) hsized

/-! ## The other calls -/

/-- What `truncate` keeps has a next index, if `purged` has one. -/
theorem hasNext_of_truncateKeep {s : RaftLog W} {index : UInt64} {keep : Option T.LogId}
    (hkey : ∀ k d, s.stateMachine.log.get k = some d → T.logIndex d.logId = k)
    (hpurged : T.HasNext s.logState.purged) (hkeep : s.truncateKeep index.toNat = .ok keep) :
    T.HasNext keep := by
  rcases truncateKeep_ok hkeep with rfl | ⟨k, d, hget, hk, rfl, -⟩
  · exact hpurged
  · have hindex := hkey k d hget
    simp only [Types.HasNext, Types.indexAfter]
    omega

theorem truncateKeep_ne_panic {s : RaftLog W} {index : ℕ}
    (hpurged : T.overflowChecks = true → T.HasNext s.logState.purged) :
    s.truncateKeep index ≠ .error .panic := by
  intro h
  obtain ⟨after, hafter⟩ := Types.nextLogIndex_isOk_iff.mpr hpurged
  rcases Except.bind_eq_error.mp h with hnext | ⟨next, -, h⟩
  · exact absurd (hafter.symm.trans hnext) (by simp)
  · split_ifs at h
    · exact absurd h (by simp)
    · rcases Except.bind_eq_error.mp h with hget | ⟨logId, -, h⟩
      · unfold getLogId at hget
        split at hget <;> exact absurd hget (by simp)
      · exact absurd h (by simp)

/-- A call that writes its record does not panic, if the record is applied without a panic. -/
theorem exec_ne_panic {op : Op T} {s s' : RaftLog W} {rec : RaftLogRecord T}
    (hwrites : op.Writes s rec) (hrec : ∀ s₁, (appendAndApply rec).run s ≠ .error .panic s₁) :
    op.exec.run s ≠ .error .panic s' := by
  rw [run_exec_of_writes hwrites]
  cases happend : (appendAndApply rec).run s with
  | ok segment s₁ => simp
  | error failure s₁ =>
      intro heq
      obtain ⟨rfl, rfl⟩ := EStateM.Result.error.inj heq
      exact hrec _ happend

/-- The records that touch neither the log map nor the cache. -/
theorem plainRecord_ne_panic {rec : RaftLogRecord T} {s s' : RaftLog W}
    (hplain : ∀ logId payload, rec ≠ .action (.append logId payload))
    (hlog : ∀ chunkId segment, RaftLogStateMachine.logAfter rec chunkId segment s.stateMachine.log =
      .ok s.stateMachine.log)
    (hcache : RaftLogStateMachine.cacheAfter rec s.stateMachine.payloadCache =
      .ok s.stateMachine.payloadCache) :
    (appendAndApply rec).run s ≠ .error .panic s' := by
  refine appendAndApply_ne_panic (RaftLogState.check_ne_panic ?_) (fun _ chunkId segment => ?_)
    fun _ => ?_
  · intro logId payload heq
    exact absurd heq (hplain logId payload)
  · rw [hlog chunkId segment]
    simp
  · rw [hcache]
    simp

theorem truncate_ne_panic {s s' : RaftLog W} {index : UInt64}
    (hkey : ∀ k d, s.stateMachine.log.get k = some d → T.logIndex d.logId = k)
    (hsized : s.stateMachine.payloadCache.Sized)
    (hpurged : T.overflowChecks = true → T.HasNext s.logState.purged) :
    (Op.truncate index).exec.run s ≠ .error .panic s' := by
  cases hkeep : s.truncateKeep index.toNat with
  | error failure =>
      have hrun : (Op.truncate index).exec.run s = .error failure s := by
        simp [Op.exec, truncate, hkeep]
      rw [hrun]
      intro heq
      rw [(EStateM.Result.error.inj heq).1] at hkeep
      exact truncateKeep_ne_panic hpurged hkeep
  | ok keep =>
      refine exec_ne_panic ⟨keep, hkeep, rfl⟩ fun s₁ => ?_
      obtain ⟨after, hafter⟩ := Types.nextLogIndex_isOk_iff.mpr fun hchecks =>
        hasNext_of_truncateKeep hkey (hpurged hchecks) hkeep
      refine appendAndApply_ne_panic (RaftLogState.check_ne_panic (by simp)) ?_ ?_
      · intro _ chunkId segment
        simp [RaftLogStateMachine.logAfter, hafter, Except.map]
      · intro _
        cases keep with
        | none => simp [RaftLogStateMachine.cacheAfter]
        | some logId => exact PayloadCache.truncateAfterLoop_ne_error hsized

theorem purge_ne_panic {s s' : RaftLog W} {upto : T.LogId}
    (hsized : s.stateMachine.payloadCache.Sized)
    (hpurged : T.overflowChecks = true → T.HasNext s.logState.purged)
    (hupto : T.overflowChecks = true → T.HasNext (some upto)) :
    (Op.purge upto).exec.run s ≠ .error .panic s' := by
  obtain ⟨next, hnext⟩ := Types.nextLogIndex_isOk_iff.mpr hpurged
  by_cases hlt : T.logIndex upto < next
  · rw [run_exec_purge upto hnext, if_pos hlt]
    simp
  · refine exec_ne_panic ⟨_, hnext, hlt, rfl⟩ fun s₁ => ?_
    obtain ⟨after, hafter⟩ := Types.nextLogIndex_isOk_iff.mpr hupto
    refine appendAndApply_ne_panic (RaftLogState.check_ne_panic (by simp)) ?_ ?_
    · intro _ chunkId segment
      simp [RaftLogStateMachine.logAfter, hafter, Except.map]
    · exact fun _ => PayloadCache.purgeUptoLoop_ne_error hsized

theorem updateState_ne_panic {s s' : RaftLog W} {state : RaftLogState T}
    (hpurged : T.overflowChecks = true → s.stateMachine.log = ∅ ∨ T.HasNext state.purged) :
    (Op.updateState state).exec.run s ≠ .error .panic s' := by
  cases hcheck : s.stateMachine.checkCheckpoint state with
  | ok _ =>
      exact exec_ne_panic ⟨hcheck, rfl⟩ fun s₁ =>
        plainRecord_ne_panic (by simp) (fun _ _ => rfl) rfl
  | error failure =>
      have hrun : (Op.updateState state).exec.run s = .error failure s := by
        simp [Op.exec, updateState, hcheck]
      rw [hrun]
      intro heq
      rw [(EStateM.Result.error.inj heq).1] at hcheck
      rcases checkCheckpoint_error hcheck with ⟨e, he⟩ | ⟨-, hne, hnext⟩
      · exact absurd he (by simp)
      · obtain ⟨after, hafter⟩ := Types.nextLogIndex_isOk_iff.mpr fun hchecks =>
          (hpurged hchecks).resolve_left hne
        exact absurd (hafter.symm.trans hnext) (by simp)

/-- A call does not panic, unless a build with overflow checks finds it out of range. -/
theorem exec_ne_panic_of_inRange {s s' : RaftLog W} {op : Op T}
    (h : T.overflowChecks = true → InRange s op)
    (hkey : ∀ k d, s.stateMachine.log.get k = some d → T.logIndex d.logId = k)
    (hsized : s.stateMachine.payloadCache.Sized) : op.exec.run s ≠ .error .panic s' := by
  cases op with
  | saveVote vote =>
      exact exec_ne_panic rfl fun s₁ => plainRecord_ne_panic (by simp) (fun _ _ => rfl) rfl
  | saveUserData userData =>
      exact exec_ne_panic rfl fun s₁ => plainRecord_ne_panic (by simp) (fun _ _ => rfl) rfl
  | append entries =>
      rw [run_exec_append]
      exact appendLoop_ne_panic h hsized
  | truncate index => exact truncate_ne_panic hkey hsized h
  | purge upto =>
      exact purge_ne_panic hsized (fun hchecks => (h hchecks).1) fun hchecks => (h hchecks).2
  | commit logId =>
      exact exec_ne_panic rfl fun s₁ => plainRecord_ne_panic (by simp) (fun _ _ => rfl) rfl
  | updateState state => exact updateState_ne_panic h
  | flush sync callback =>
      intro heq
      obtain ⟨e, he⟩ := flush_error heq
      exact absurd he (by simp)

/-! ## Every call -/

/-- The arithmetic of a call in range. -/
theorem InRange.asksNext {s : RaftLog W} {op : Op T} (h : InRange s op)
    (hkey : ∀ k d, s.stateMachine.log.get k = some d → T.logIndex d.logId = k)
    (hcovered : s.stateMachine.payloadCache.Covered) {logId : Option T.LogId}
    (hasks : op.AsksNext s logId) : T.HasNext logId := by
  cases op with
  | append entries =>
      obtain ⟨s₁, entry, payload, hcomes, hlt, rfl⟩ := hasks
      exact (h.comesTo hcovered hcomes).1.next hlt
  | truncate index =>
      rcases hasks with rfl | ⟨hkeep, -⟩
      · exact h
      · exact hasNext_of_truncateKeep hkey h hkeep
  | purge upto =>
      rcases hasks with rfl | ⟨rfl, -⟩
      · exact h.1
      · exact h.2
  | updateState state =>
      obtain ⟨rfl, hne⟩ := hasks
      exact h.resolve_left hne
  | _ => exact hasks.elim

/-- A call all of whose arithmetic is in range. -/
theorem InRange.of_total {s : RaftLog W} {op : Op T} (h : Total s op) : InRange s op := by
  cases op with
  | append entries =>
      refine entriesInRange_of_comesTo fun s₁ logId payload hcomes =>
        ⟨fun hlt => ?_, fun hcheck => ?_⟩
      · exact h.next ⟨s₁, logId, payload, hcomes, hlt, rfl⟩
      · exact h.addition ⟨s₁, logId, hcomes, hcheck, rfl⟩
  | truncate index => exact h.next (Or.inl rfl)
  | purge upto =>
      have hpurged : T.HasNext s.logState.purged := h.next (Or.inl rfl)
      refine ⟨hpurged, ?_⟩
      by_cases hlt : T.logIndex upto < T.indexAfter s.logState.purged
      · exact Nat.le_trans hlt hpurged
      · exact h.next (Or.inr ⟨rfl, _, hpurged.nextLogIndex, hlt, rfl⟩)
  | updateState state =>
      by_cases hempty : s.stateMachine.log = ∅
      · exact Or.inl hempty
      · exact Or.inr (h.next ⟨rfl, hempty⟩)
  | _ => trivial

/-- In a store whose size covers its cache, a call is total exactly if it is in range. -/
theorem total_iff {s : RaftLog W} {op : Op T}
    (hkey : ∀ k d, s.stateMachine.log.get k = some d → T.logIndex d.logId = k)
    (hcovered : s.stateMachine.payloadCache.Covered) : Total s op ↔ InRange s op := by
  refine ⟨InRange.of_total, fun h =>
    ⟨exec_ne_panic_of_inRange (fun _ => h) hkey hcovered.sized, h.asksNext hkey hcovered, ?_, ?_⟩⟩
  · intro c payload hadds
    cases op with
    | append entries =>
        obtain ⟨s₁, logId, hcomes, hcheck, rfl⟩ := hadds
        exact (EntriesInRange.comesTo h hcovered hcomes).1.fits hcheck
    | _ => exact hadds.elim
  · intro c htakes
    cases op with
    | append entries =>
        obtain ⟨s₁, logId, payload, hcomes, -, rfl⟩ := htakes
        exact (EntriesInRange.comesTo h hcovered hcomes).2.added logId payload
    | truncate index => exact htakes ▸ hcovered
    | purge upto => exact htakes ▸ hcovered
    | _ => exact htakes.elim

theorem readTotal_iff (hW : Lawful W) {s : RaftLog W}
    (hbacked : Backed (W.view s.wal).written s.stateMachine.log s.stateMachine.payloadCache)
    {fromIndex toIndex : ℕ} : ReadTotal s fromIndex toIndex ↔ fromIndex ≤ toIndex := by
  constructor
  · intro h
    obtain ⟨items, stat, hread, -⟩ := h.returns
    by_contra hgt
    rw [RaftLog.read, if_pos (Nat.lt_of_not_le hgt)] at hread
    exact absurd hread (by simp)
  · intro hle
    have hread : s.read fromIndex toIndex = .ok (s.readItems
        (s.stateMachine.log.range fromIndex toIndex).values s.accessStat) := by
      rw [RaftLog.read, if_neg (Nat.not_lt.mpr hle)]
    have hserves := serves_range hW hbacked fromIndex toIndex
    refine ⟨_, _, hread, fun item hitem => ?_, fun hge => ?_⟩
    · exact serves_ne_panic hserves item hitem
    · -- a range that ends where it starts is empty
      have hempty : s.stateMachine.log.range fromIndex toIndex = ∅ := by
        refine OrderedMap.filter_eq_empty fun k d _ => ?_
        simp only [decide_eq_false_iff_not, not_and, not_lt]
        omega
      rw [hempty] at hserves ⊢
      exact List.forall₂_nil_left_iff.mp hserves

/-- In every run in which no addition to the size of the cache wraps, a call is total exactly if
it is in range, and a `read` exactly if its range does not end before it starts. -/
theorem calls_total (hW : Lawful W) {sys : System W}
    (h : Transition.Reachable System.Initial SizeStep sys) :
    (∀ op, Total sys.store op ↔ InRange sys.store op) ∧
      ∀ fromIndex toIndex, ReadTotal sys.store fromIndex toIndex ↔ fromIndex ≤ toIndex := by
  obtain ⟨hreachable, hcovered⟩ := cache_invariant covered_rule hW (fun s op => id) h
  have hbacked := backed_of_reachable hW hreachable
  exact ⟨fun op => total_iff (fun k d hget => hbacked.key hget) hcovered,
    fun fromIndex toIndex => readTotal_iff hW hbacked⟩

/-- A log that begins with the last index of all. -/
def lastIndexSystem : System (memoryWal (exampleTypes true)) :=
  (System.simulate AnyCall (chunksOfSize true 10) [.call (.append [(⟨1, Fin.last _⟩, 5)])]).get
    (by decide +kernel)

def pastLastIndex : List (TermIndex × Fin (2 ^ 64)) := [(⟨2, 0⟩, 6)]

theorem calls_total_lastIndexSystem :
    System.Reachable AnyCall lastIndexSystem ∧
      ¬ Total lastIndexSystem.store (.append pastLastIndex) ∧
      ¬ Total lastIndexSystem.store (.purge ⟨1, Fin.last _⟩) ∧
      ¬ ReadTotal lastIndexSystem.store 2 1 := by
  refine ⟨System.reachable_get _, fun h => ?_, fun h => ?_, fun h => ?_⟩
  · have hrange := InRange.of_total h
    revert hrange
    decide +kernel
  · have hrange := InRange.of_total h
    revert hrange
    decide +kernel
  · obtain ⟨items, stat, hread, -⟩ := h.returns
    rw [RaftLog.read, if_pos (by decide)] at hread
    exact absurd hread (by simp)

/-- A store that has been purged, and reopened after a crash. -/
def recoveredSystem : System (memoryWal (exampleTypes true)) :=
  (System.simulate AnyCall (chunksOfSize true 3)
    [.call (.append [(⟨1, 0⟩, 5), (⟨1, 1⟩, 6), (⟨1, 2⟩, 7)]), .call (.purge ⟨1, 0⟩),
      .call (.flush true none), .work, .crash 6 (chunksOfSize true 3)]).get (by decide +kernel)

def laterEntries : List (TermIndex × Fin (2 ^ 64)) := [(⟨2, 3⟩, 8), (⟨2, 4⟩, 9)]

theorem calls_total_recoveredSystem :
    Total recoveredSystem.store (.append laterEntries) ∧ Total recoveredSystem.store (.truncate 2) ∧
      ReadTotal recoveredSystem.store 1 3 := by
  have hreachable : System.Reachable AnyCall recoveredSystem := System.reachable_get _
  have hchecks (c : PayloadCache (exampleTypes true)) (logId : TermIndex) (payload : Fin (2 ^ 64)) :
      NoSizeWrap c logId payload := Or.inl rfl
  have hrun : Transition.Reachable System.Initial SizeStep recoveredSystem :=
    hreachable.admitted hchecks (memoryWal_lawful _) fun s op _ => admitsCall_of_forall hchecks s op
  obtain ⟨hcalls, hreads⟩ := calls_total (memoryWal_lawful _) hrun
  exact ⟨(hcalls _).mpr (by decide +kernel), (hcalls _).mpr (by decide +kernel),
    (hreads 1 3).mpr (by decide)⟩

end RaftLogStore
