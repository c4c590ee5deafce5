import RaftLogStore.Journal.Refinement
import RaftLogStore.Store.Agreement

/-!
# What callers owe the store

`CallerGuarantee` is what a caller of `purge` and `update_state` has to see to, and
`NoIndexWrap` is the condition under which no `next_log_index` that matters wraps around at
`u64::MAX`.  It holds of every call in a build with overflow checks, and of every call that
keeps away from that index.  Together they make every record a call writes a `Good` one
(`guarded_good`).
-/

namespace RaftLogStore

open RaftLog

variable {T : Types} {W : ChunkedWal T}

/-- `purge` is given a log id consistent with what is stored, and `update_state` a state with
`purged` at or below `last`. -/
def CallerGuarantee (s : RaftLog W) : Op T → Prop
  | .purge upto => PurgeConsistent s.logState s.stateMachine.log upto
  | .updateState state => PurgedLeLast state
  | _ => True

/-- The entries that are accepted one after the other do not follow a log id whose next index
wraps. -/
def AppendsNoWrap : RaftLogState T → List (T.LogId × T.LogPayload) → Prop
  | _, [] => True
  | st, (logId, _) :: entries =>
      st.checkAppend logId = .ok () →
        T.NoWrap st.last ∧ AppendsNoWrap { st with last := some logId } entries

/-- The call does not depend on an index that has wrapped. -/
def NoIndexWrap (s : RaftLog W) : Op T → Prop
  | .append entries => AppendsNoWrap s.logState entries
  | .purge upto => s.stateMachine.log = ∅ ∨ T.NoWrap (some upto)
  | .updateState state =>
      s.stateMachine.checkCheckpoint state = .ok () →
        s.stateMachine.log = ∅ ∨ T.NoWrap state.purged
  | _ => True

instance (s : RaftLog W) : (op : Op T) → Decidable (CallerGuarantee s op)
  | .purge upto => inferInstanceAs
      (Decidable (PurgeConsistent s.logState s.stateMachine.log upto))
  | .updateState state => inferInstanceAs (Decidable (PurgedLeLast state))
  | .saveVote _ | .saveUserData _ | .append _ | .truncate _ | .commit _ | .flush _ _ =>
      isTrue trivial

instance AppendsNoWrap.decidable : (entries : List (T.LogId × T.LogPayload)) →
    (st : RaftLogState T) → Decidable (AppendsNoWrap st entries)
  | [], _ => isTrue trivial
  | (logId, _) :: entries, st =>
      have := AppendsNoWrap.decidable entries { st with last := some logId }
      inferInstanceAs (Decidable (_ → _ ∧ _))

instance (s : RaftLog W) : (op : Op T) → Decidable (NoIndexWrap s op)
  | .append entries => AppendsNoWrap.decidable entries s.logState
  | .purge upto => inferInstanceAs (Decidable (_ ∨ T.NoWrap (some upto)))
  | .updateState _ => inferInstanceAs (Decidable (_ → _ ∨ _))
  | .saveVote _ | .saveUserData _ | .truncate _ | .commit _ | .flush _ _ => isTrue trivial

/-- `Good` as a condition on journals. -/
def GoodRecord (j : Journal T) (rec : RaftLogRecord T) : Prop := Good j.state j.log rec

/-- A checkpoint that the live check accepts describes the entries. -/
theorem checkCheckpoint_ok {sm : RaftLogStateMachine T} {state : RaftLogState T}
    (h : sm.checkCheckpoint state = .ok ()) (hwrap : sm.log = ∅ ∨ T.NoWrap state.purged) :
    (∀ k d, sm.log.firstKeyValue = some (k, d) →
      T.logIndex d.logId = T.indexAfter state.purged ∧ state.purged < some d.logId) ∧
    ∀ k d, sm.log.lastKeyValue = some (k, d) → state.last = some d.logId := by
  unfold RaftLogStateMachine.checkCheckpoint at h
  cases hfirst : sm.log.firstKeyValue with
  | none =>
      have hempty := OrderedMap.firstKeyValue_eq_none_iff.mp hfirst
      refine ⟨by simp, fun k d hk => ?_⟩
      rw [OrderedMap.lastKeyValue_eq_none_iff.mpr hempty] at hk
      simp at hk
  | some first =>
      obtain ⟨k₀, d₀⟩ := first
      simp only [hfirst] at h
      obtain ⟨⟨k₁, d₁⟩, hlast, h⟩ := Except.bind_eq_ok.mp h
      obtain ⟨index, hindex, h⟩ := Except.bind_eq_ok.mp h
      split_ifs at h with hcond
      obtain ⟨hright, habove, hend⟩ := hcond
      have hnowrap : T.NoWrap state.purged := by
        refine hwrap.resolve_left fun hempty => ?_
        rw [hempty] at hfirst
        simp [OrderedMap.firstKeyValue] at hfirst
      have hlast' : sm.log.lastKeyValue = some (k₁, d₁) := by
        cases hl : sm.log.lastKeyValue with
        | none => simp [hl, unwrap] at hlast
        | some last => rw [hl] at hlast; rw [Except.ok.inj hlast]
      constructor
      · intro k d hk
        obtain ⟨-, rfl⟩ := Prod.mk.inj (Option.some.inj hk)
        exact ⟨hright.trans (Types.nextLogIndex_eq_ok hindex hnowrap), habove⟩
      · intro k d hk
        rw [hlast'] at hk
        obtain ⟨-, rfl⟩ := Prod.mk.inj (Option.some.inj hk)
        exact hend.symm

/-- The check does not panic but in the index after the `purged` of the state, and does no input
or output. -/
theorem checkCheckpoint_error {sm : RaftLogStateMachine T} {state : RaftLogState T}
    {failure : Failure T} (h : sm.checkCheckpoint state = .error failure) :
    (∃ e, failure = .state e) ∨ failure = .panic ∧ sm.log ≠ ∅ ∧
      T.nextLogIndex state.purged = .error .panic := by
  unfold RaftLogStateMachine.checkCheckpoint at h
  cases hfirst : sm.log.firstKeyValue with
  | none => simp [hfirst] at h
  | some first =>
      obtain ⟨⟨m, last⟩, hlast⟩ :=
        OrderedMap.exists_lastKeyValue (OrderedMap.firstKeyValue_eq_some hfirst).1
      simp only [hfirst] at h
      rcases Except.bind_eq_error.mp h with hunwrap | ⟨⟨m', last'⟩, -, h⟩
      · simp [hlast, unwrap] at hunwrap
      · rcases Except.bind_eq_error.mp h with hnext | ⟨index, -, h⟩
        · have hpanic := Types.nextLogIndex_onlyPanics _ _ hnext
          refine Or.inr ⟨hpanic, fun hempty => ?_, hpanic ▸ hnext⟩
          simp [hempty, OrderedMap.firstKeyValue] at hfirst
        · split_ifs at h
          exact Or.inl ⟨_, (Except.error.inj h).symm⟩

/-- What `truncate` keeps is `purged` or a held log id below the given index. -/
theorem truncateKeep_ok {s : RaftLog W} {index : UInt64} {keep : Option T.LogId}
    (h : s.truncateKeep index.toNat = .ok keep) :
    keep = s.logState.purged ∨
      ∃ k d, s.stateMachine.log.get k = some d ∧ k < u64Max ∧ keep = some d.logId ∧
        k + 1 = index.toNat := by
  obtain ⟨next, hnext, h⟩ := Except.bind_eq_ok.mp h
  split_ifs at h with heq hzero
  · exact Or.inl (Except.ok.inj h).symm
  · obtain ⟨logId, hget, h⟩ := Except.bind_eq_ok.mp h
    have hindex := index.toNat_lt
    unfold getLogId at hget
    cases hd : s.stateMachine.log.get (index.toNat - 1) with
    | none => simp [hd] at hget
    | some d =>
        simp only [hd, Except.ok.injEq] at hget
        refine Or.inr ⟨_, d, hd, ?_, ?_, by omega⟩
        · simp only [u64Max]
          omega
        · rw [hget]
          exact (Except.ok.inj h).symm

theorem appendGuarded_good {entries : List (T.LogId × T.LogPayload)} {s : RaftLog W}
    (h : AppendsNoWrap s.logState entries) : AppendGuarded GoodRecord entries s := by
  induction entries generalizing s with
  | nil => trivial
  | cons entry entries ih =>
      obtain ⟨logId, payload⟩ := entry
      refine ⟨fun hcheck => (h hcheck).1, fun segment s₁ hrec => ih ?_⟩
      rw [logState_appendAndApply hrec]
      exact (h (appendAndApply_ok hrec).1).2

/-- The records of a call that meets both conditions are `Good`. -/
theorem guarded_good {s : RaftLog W} {op : Op T} (hcaller : CallerGuarantee s op)
    (hwrap : NoIndexWrap s op) : Guarded GoodRecord op s := by
  constructor
  · intro rec hwrites _
    cases op with
    | saveVote vote => rw [hwrites]; trivial
    | saveUserData userData => rw [hwrites]; exact Or.inl ⟨rfl, rfl⟩
    | append entries => exact hwrites.elim
    | truncate index =>
        obtain ⟨keep, hkeep, rfl⟩ := hwrites
        rcases truncateKeep_ok hkeep with hpurged | ⟨k, d, hget, hk, hd, -⟩
        · exact Or.inl hpurged
        · exact Or.inr ⟨k, d, hget, hk, hd⟩
    | purge upto =>
        obtain ⟨next, -, -, rfl⟩ := hwrites
        exact ⟨hcaller, hwrap⟩
    | commit logId => rw [hwrites]; trivial
    | updateState state =>
        obtain ⟨hcheck, rfl⟩ := hwrites
        exact Or.inr ⟨hcaller, checkCheckpoint_ok hcheck (hwrap hcheck)⟩
    | flush sync callback => exact hwrites.elim
  · rintro entries rfl
    exact appendGuarded_good hwrap

end RaftLogStore
