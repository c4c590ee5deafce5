import RaftLogStore.Results.Restart
import RaftLogStore.Results.SingleWrite

/-!
# Purging up to any log id

`purge` skips what is purged already, going by the index.  Otherwise it cuts the map by index and
moves `purged` and `last` by log id, and asks neither whether the two orders agree on `upto`, nor
what is stored at its index.

`PurgeKept` is what the caller has to see to.  For a store in which the map agrees with the state
it is exact (`purgeSafe_iff`).
-/

namespace RaftLogStore

open RaftLog

variable {T : Types} {W : ChunkedWal T}

/-! ## What a purge should do -/

/-- The entries up to `upto` are gone, those above are kept, and the map agrees with the state. -/
structure Purged (upto : T.LogId) (log : OrderedMap ℕ (LogData T)) (st' : RaftLogState T)
    (log' : OrderedMap ℕ (LogData T)) : Prop where
  agreement : Agreement st' log'
  gone : ∀ k, k ≤ T.logIndex upto → log'.get k = none
  kept : ∀ k, T.logIndex upto < k → log'.get k = log.get k
  purged : some (T.logIndex upto) ≤ st'.purged.map T.logIndex

/-- The purge is rejected and changes nothing, or it purges; and it is rejected if another log id
is stored at the index. -/
structure PurgeSafe (s : RaftLog W) (upto : T.LogId) : Prop where
  outcome : (∃ e, (Op.purge upto).exec.run s = .error (.state e) s) ∨
    ∃ s', (Op.purge upto).exec.run s = .ok () s' ∧
      Purged upto s.stateMachine.log s'.logState s'.stateMachine.log
  conflict : ∀ d, s.stateMachine.log.get (T.logIndex upto) = some d → d.logId ≠ upto →
    ∃ e s', (Op.purge upto).exec.run s = .error (.state e) s'

/-- `upto` lies above `purged`, is what is stored at its index, if there is anything, and lies
below what is stored above. -/
structure UptoFits (st : RaftLogState T) (log : OrderedMap ℕ (LogData T)) (upto : T.LogId) :
    Prop where
  above : st.purged < some upto
  held : ∀ k d, log.get k = some d →
    (k = T.logIndex upto → d.logId = upto) ∧ (T.logIndex upto < k → upto < d.logId)
  next : T.HasNext (some upto) ∨ T.overflowChecks = false ∧ log = ∅

/-- The purge is skipped, or `upto` fits; and if there is no index after `purged`, the build does
not notice. -/
def PurgeKept (st : RaftLogState T) (log : OrderedMap ℕ (LogData T)) (upto : T.LogId) : Prop :=
  if T.HasNext st.purged then T.logIndex upto < T.indexAfter st.purged ∨ UptoFits st log upto
  else T.overflowChecks = false

instance (st : RaftLogState T) (log : OrderedMap ℕ (LogData T)) (upto : T.LogId) :
    Decidable (UptoFits st log upto) :=
  decidable_of_iff (st.purged < some upto ∧ (∀ k d, log.get k = some d →
      (k = T.logIndex upto → d.logId = upto) ∧ (T.logIndex upto < k → upto < d.logId)) ∧
      (T.HasNext (some upto) ∨ T.overflowChecks = false ∧ log = ∅))
    ⟨fun ⟨habove, hheld, hnext⟩ => ⟨habove, hheld, hnext⟩,
      fun h => ⟨h.above, h.held, h.next⟩⟩

instance (st : RaftLogState T) (log : OrderedMap ℕ (LogData T)) (upto : T.LogId) :
    Decidable (PurgeKept st log upto) :=
  inferInstanceAs (Decidable (if T.HasNext st.purged then
    T.logIndex upto < T.indexAfter st.purged ∨ UptoFits st log upto else T.overflowChecks = false))

/-! ## What it does -/

/-- A purge is never rejected. -/
theorem purge_not_rejected {s s' : RaftLog W} {upto : T.LogId} {e : RaftLogStateError T} :
    (Op.purge upto).exec.run s ≠ .error (.state e) s' := by
  intro h
  cases hnext : T.nextLogIndex s.logState.purged with
  | error failure =>
      have hrun : (Op.purge upto).exec.run s = .error failure s := by
        simp [Op.exec, purge, hnext]
      obtain ⟨rfl, -⟩ := EStateM.Result.error.inj (hrun.symm.trans h)
      exact absurd (Types.nextLogIndex_onlyPanics _ _ hnext) (by simp)
  | ok next =>
      rw [run_exec_purge upto hnext] at h
      split_ifs at h with hlt
      cases hrec : (appendAndApply (.action (.purgeUpto upto))).run s with
      | ok segment s₁ => simp [hrec] at h
      | error failure s₁ =>
          rw [hrec] at h
          obtain ⟨rfl, rfl⟩ := EStateM.Result.error.inj h
          rcases appendAndApply_error hrec with ⟨hreject, -⟩ | ⟨e', he'⟩ | ⟨hcheck, _, _, -, happly⟩
          · exact absurd hreject (by simp [RaftLogStateMachine.check, RaftLogState.check])
          · exact absurd he' (by simp)
          · exact absurd (RaftLogStateMachine.apply_eq_error_of_check hcheck happly) (by simp)

/-- A purge that is not skipped cuts the map by index and moves the state by log id. -/
theorem purge_ok {s s' : RaftLog W} {upto : T.LogId} {next : ℕ}
    (hnext : T.nextLogIndex s.logState.purged = .ok next) (hge : ¬ T.logIndex upto < next)
    (h : (Op.purge upto).exec.run s = .ok () s') :
    s'.logState = s.logState.purge upto ∧ ∃ index, T.nextLogIndex (some upto) = .ok index ∧
      s'.stateMachine.log = (s.stateMachine.log.splitOff index).2 := by
  obtain ⟨segment, s₁, hrec, rfl⟩ := ok_of_writes h ⟨next, hnext, hge, rfl⟩
  obtain ⟨wal₁, -, happly⟩ := appendAndApply_applied hrec
  obtain ⟨hlog, -, -, hstate⟩ := RaftLogStateMachine.apply_eq_ok.mp happly
  obtain ⟨index, hindex, hcut⟩ := Except.map_eq_ok.mp hlog
  have hfinish : ((Op.purge upto).finish s₁).stateMachine = s₁.stateMachine :=
    stateMachine_bufferRemovableChunks s₁
  refine ⟨?_, index, hindex, ?_⟩
  · rw [logState_finish]
    exact hstate
  · rw [hfinish]
    exact hcut.symm

/-- It returns, if `next_log_index` of `upto` does and the WAL does not fail. -/
theorem purge_returns {s : RaftLog W} {upto : T.LogId} {next : ℕ}
    (hsized : s.stateMachine.payloadCache.Sized)
    (hio : ∀ e s', (Op.purge upto).exec.run s ≠ .error (.io e) s')
    (hnext : T.nextLogIndex s.logState.purged = .ok next)
    (hupto : ∃ index, T.nextLogIndex (some upto) = .ok index) :
    ∃ s', (Op.purge upto).exec.run s = .ok () s' := by
  rw [run_exec_purge upto hnext] at hio ⊢
  split_ifs at hio ⊢ with hlt
  · exact ⟨s, rfl⟩
  · have happly : ∀ chunkId segment, ∃ sm,
        (RaftLogStateMachine.apply (.action (.purgeUpto upto)) chunkId segment).run
          s.stateMachine = .ok () sm := fun chunkId segment =>
      (apply_isOk_iff rfl).mpr ⟨map_isOk hupto,
        isOk_of_ne_error fun _ => PayloadCache.purgeUptoLoop_ne_error hsized⟩
    rcases appendAndApply_returns rfl happly with ⟨segment, s₁, hrec⟩ | ⟨e, s₁, hrec⟩
    · rw [hrec]
      exact ⟨_, rfl⟩
    · rw [hrec] at hio
      exact absurd rfl (hio e s₁)

theorem PurgeSafe.ok {s : RaftLog W} {upto : T.LogId} (h : PurgeSafe s upto) :
    ∃ s', (Op.purge upto).exec.run s = .ok () s' ∧
      Purged upto s.stateMachine.log s'.logState s'.stateMachine.log := by
  rcases h.outcome with ⟨e, hrejected⟩ | hok
  · exact absurd hrejected purge_not_rejected
  · exact hok

/-! ## Skipped -/

variable {s : RaftLog W} {upto : T.LogId}

theorem purgeSafe_of_skipped (hagree : Agreement s.logState s.stateMachine.log)
    (hpurged : T.HasNext s.logState.purged)
    (hlt : T.logIndex upto < T.indexAfter s.logState.purged) : PurgeSafe s upto := by
  have hgone : ∀ k, k ≤ T.logIndex upto → s.stateMachine.log.get k = none := by
    intro k hk
    by_contra hne
    obtain ⟨d, hget⟩ := Option.ne_none_iff_exists'.mp hne
    have habove := (hagree.above hget).2
    omega
  refine ⟨Or.inr ⟨s, ?_, hagree, hgone, fun _ _ => rfl, ?_⟩, fun d hget => ?_⟩
  · rw [run_exec_purge upto hpurged.nextLogIndex, if_pos hlt]
  · cases hp : s.logState.purged with
    | none => simp [hp, Types.indexAfter] at hlt
    | some p =>
        simp only [hp, Types.indexAfter] at hlt
        exact Option.some_le_some.mpr (Nat.le_of_lt_succ hlt)
  · rw [hgone _ le_rfl] at hget
    exact absurd hget (by simp)

/-! ## Not skipped -/

/-- The purge is safe if the record does to the map and the state what a purge should do. -/
theorem purgeSafe_iff_of_index {next index : ℕ} (hsized : s.stateMachine.payloadCache.Sized)
    (hio : ∀ e s', (Op.purge upto).exec.run s ≠ .error (.io e) s')
    (hnext : T.nextLogIndex s.logState.purged = .ok next) (hge : ¬ T.logIndex upto < next)
    (hindex : T.nextLogIndex (some upto) = .ok index) :
    PurgeSafe s upto ↔
      Purged upto s.stateMachine.log (s.logState.purge upto) (s.stateMachine.log.splitOff index).2 ∧
        ∀ d, s.stateMachine.log.get (T.logIndex upto) = some d → d.logId = upto := by
  obtain ⟨s', hrun⟩ := purge_returns hsized hio hnext ⟨index, hindex⟩
  obtain ⟨hstate, index', hindex', hlog⟩ := purge_ok hnext hge hrun
  obtain rfl := Except.ok.inj (hindex.symm.trans hindex')
  rw [← hstate, ← hlog]
  constructor
  · intro h
    obtain ⟨s₁, hrun₁, hpurged⟩ := h.ok
    obtain rfl : s' = s₁ := (EStateM.Result.ok.inj (hrun.symm.trans hrun₁)).2
    refine ⟨hpurged, fun d hget => ?_⟩
    by_contra hne
    obtain ⟨e, s₂, hrejected⟩ := h.conflict d hget hne
    exact purge_not_rejected hrejected
  · rintro ⟨hpurged, hheld⟩
    exact ⟨Or.inr ⟨s', hrun, hpurged⟩, fun d hget hne => absurd (hheld d hget) hne⟩

section Record

variable {st : RaftLogState T} {log : OrderedMap ℕ (LogData T)}

/-- Where the purge is not skipped, `purged` reaches the index only as `upto` itself. -/
theorem purged_reaches_iff (hge : T.indexAfter st.purged ≤ T.logIndex upto) :
    some (T.logIndex upto) ≤ (st.purge upto).purged.map T.logIndex ↔ st.purged < some upto := by
  rw [RaftLogState.purge_purged]
  rcases lt_or_ge st.purged (some upto) with hlt | hle
  · rw [max_eq_right hlt.le]
    exact iff_of_true le_rfl hlt
  · rw [max_eq_left hle]
    refine iff_of_false (fun hreach => ?_) (not_lt.mpr hle)
    cases hp : st.purged with
    | none => simp [hp] at hle
    | some p =>
        simp only [hp, Option.map_some, Option.some_le_some, Types.indexAfter] at hreach hge
        omega

/-- A record that is cut at the index after `upto`. -/
theorem purged_cut_iff (hagree : Agreement st log) (hnext : T.HasNext (some upto))
    (hge : T.indexAfter st.purged ≤ T.logIndex upto) :
    (Purged upto log (st.purge upto) (log.splitOff (T.logIndex upto + 1)).2 ∧
      ∀ d, log.get (T.logIndex upto) = some d → d.logId = upto) ↔ UptoFits st log upto := by
  constructor
  · rintro ⟨h, hheld⟩
    refine ⟨(purged_reaches_iff hge).mp h.purged, fun k d hget => ⟨?_, fun hlt => ?_⟩, Or.inl hnext⟩
    · rintro rfl
      exact hheld d hget
    · -- the entry is still there, above the new `purged`
      have hkept := h.kept k hlt
      rw [hget] at hkept
      have habove := (h.agreement.above hkept).1
      rw [RaftLogState.purge_purged] at habove
      exact Option.some_lt_some.mp (lt_of_le_of_lt (le_max_right _ _) habove)
  · intro h
    refine ⟨⟨?_, fun k hk => ?_, fun k hk => ?_, (purged_reaches_iff hge).mpr h.above⟩, ?_⟩
    · exact hagree.cut_upto (fun k d hget hle => (h.held k d hget).2 hle) (by simp) (by simp)
    · rw [OrderedMap.get_splitOff_snd, if_neg (by omega)]
    · rw [OrderedMap.get_splitOff_snd]
      exact if_pos hk
    · exact fun d hget => (h.held _ d hget).1 rfl

/-- Without overflow checks a record at the last index of all cuts nothing. -/
theorem purged_wrapped_iff (hagree : Agreement st log) (hchecks : T.overflowChecks = false)
    (hnext : ¬ T.HasNext (some upto)) (hge : T.indexAfter st.purged ≤ T.logIndex upto) :
    (Purged upto log (st.purge upto) (log.splitOff 0).2 ∧
      ∀ d, log.get (T.logIndex upto) = some d → d.logId = upto) ↔ UptoFits st log upto := by
  constructor
  · rintro ⟨h, -⟩
    have hempty : log = ∅ := by
      refine OrderedMap.eq_empty_iff.mpr fun k => ?_
      by_contra hne
      obtain ⟨d, hget⟩ := Option.ne_none_iff_exists'.mp hne
      have hle : k ≤ T.logIndex upto := by
        have hkey := hagree.key hget
        have hindex := T.logIndex_le d.logId
        simp only [Types.HasNext, Types.indexAfter] at hnext
        omega
      have hgone := h.gone k hle
      rw [OrderedMap.get_splitOff_snd, if_pos (Nat.zero_le k)] at hgone
      exact hne hgone
    refine ⟨(purged_reaches_iff hge).mp h.purged, ?_, Or.inr ⟨hchecks, hempty⟩⟩
    rw [hempty]
    exact fun k d hget => absurd hget (by simp)
  · intro h
    obtain ⟨-, rfl⟩ := h.next.resolve_left hnext
    have hcut : ((∅ : OrderedMap ℕ (LogData T)).splitOff 0).2 = ∅ :=
      OrderedMap.filter_eq_empty (by simp)
    rw [hcut]
    have hreaches := (purged_reaches_iff hge).mpr h.above
    exact ⟨⟨Agreement.empty _, fun _ _ => rfl, fun _ _ => rfl, hreaches⟩,
      fun d hget => absurd hget (by simp)⟩

/-- Above the last index of all there is nothing to purge. -/
theorem purged_of_not_hasNext (hagree : Agreement st log) (hpurged : ¬ T.HasNext st.purged)
    (index : ℕ) : Purged upto log (st.purge upto) (log.splitOff index).2 ∧
      ∀ d, log.get (T.logIndex upto) = some d → d.logId = upto := by
  have hempty : log = ∅ := by
    refine OrderedMap.eq_empty_iff.mpr fun k => ?_
    by_contra hne
    obtain ⟨d, hget⟩ := Option.ne_none_iff_exists'.mp hne
    have habove := (hagree.above hget).2
    have hkey := hagree.key hget
    have hindex := T.logIndex_le d.logId
    simp only [Types.HasNext] at hpurged
    omega
  subst hempty
  have hcut : ((∅ : OrderedMap ℕ (LogData T)).splitOff index).2 = ∅ :=
    OrderedMap.filter_eq_empty (by simp)
  rw [hcut]
  refine ⟨⟨Agreement.empty _, fun _ _ => rfl, fun _ _ => rfl, ?_⟩, fun d hget =>
    absurd hget (by simp)⟩
  rw [RaftLogState.purge_purged]
  rcases max_choice st.purged (some upto) with hmax | hmax
  · rw [hmax]
    cases hp : st.purged with
    | none => simp [hp, Types.HasNext, Types.indexAfter] at hpurged
    | some p =>
        have hindex := T.logIndex_le upto
        simp only [hp, Types.HasNext, Types.indexAfter] at hpurged
        exact Option.some_le_some.mpr (by omega)
  · rw [hmax]
    exact le_rfl

end Record

/-! ## Every purge -/

/-- A purge that asks for an index that is not there panics. -/
theorem not_purgeSafe_of_panic (hchecks : T.overflowChecks = true)
    (hnext : ¬ T.HasNext (some upto)) {next : ℕ}
    (hpurged : T.nextLogIndex s.logState.purged = .ok next) (hge : ¬ T.logIndex upto < next) :
    ¬ PurgeSafe s upto := by
  intro h
  obtain ⟨s', hrun, -⟩ := h.ok
  obtain ⟨-, index, hindex, -⟩ := purge_ok hpurged hge hrun
  exact hnext (Types.nextLogIndex_isOk_iff.mp ⟨index, hindex⟩ hchecks)

theorem purgeSafe_iff (hagree : Agreement s.logState s.stateMachine.log)
    (hsized : s.stateMachine.payloadCache.Sized)
    (hio : ∀ e s', (Op.purge upto).exec.run s ≠ .error (.io e) s') :
    PurgeSafe s upto ↔ PurgeKept s.logState s.stateMachine.log upto := by
  unfold PurgeKept
  split_ifs with hpurged
  · by_cases hlt : T.logIndex upto < T.indexAfter s.logState.purged
    · exact iff_of_true (purgeSafe_of_skipped hagree hpurged hlt) (Or.inl hlt)
    · rw [or_iff_right hlt]
      have hge := not_lt.mp hlt
      by_cases hnext : T.HasNext (some upto)
      · rw [purgeSafe_iff_of_index hsized hio hpurged.nextLogIndex hlt hnext.nextLogIndex]
        exact purged_cut_iff hagree hnext hge
      · cases hchecks : T.overflowChecks with
        | false =>
            have hindex := Types.nextLogIndex_of_not_hasNext hchecks hnext
            rw [purgeSafe_iff_of_index hsized hio hpurged.nextLogIndex hlt hindex]
            exact purged_wrapped_iff hagree hchecks hnext hge
        | true =>
            refine iff_of_false
              (not_purgeSafe_of_panic hchecks hnext hpurged.nextLogIndex hlt) fun h => ?_
            rcases h.next with hnext' | ⟨hchecks', -⟩
            · exact hnext hnext'
            · exact absurd (hchecks.symm.trans hchecks') (by simp)
  · cases hchecks : T.overflowChecks with
    | false =>
        have hnext := Types.nextLogIndex_of_not_hasNext hchecks hpurged
        obtain ⟨index, hindex⟩ : ∃ index, T.nextLogIndex (some upto) = .ok index :=
          Types.nextLogIndex_isOk_iff.mpr fun h => absurd (hchecks.symm.trans h) (by simp)
        refine iff_of_true ?_ rfl
        exact (purgeSafe_iff_of_index hsized hio hnext (Nat.not_lt_zero _) hindex).mpr
          (purged_of_not_hasNext hagree hpurged index)
    | true =>
        -- the call panics before it writes anything
        refine iff_of_false (fun h => hpurged ?_) (by simp)
        obtain ⟨s', hrun, -⟩ := h.ok
        refine Types.nextLogIndex_isOk_iff.mp ?_ hchecks
        cases hnext : T.nextLogIndex s.logState.purged with
        | ok next => exact ⟨next, rfl⟩
        | error failure => simp [Op.exec, purge, hnext] at hrun

/-- In every reachable store in which the map agrees with the state, and for every `upto`: unless
the WAL fails, the purge is safe exactly if `upto` fits what is stored. -/
theorem purge_safe_iff (hW : Lawful W) {sys : System W} (h : System.Reachable AnyCall sys)
    (hagree : Agreement sys.store.logState sys.store.stateMachine.log) {upto : T.LogId}
    (hio : ∀ e s', (Op.purge upto).exec.run sys.store ≠ .error (.io e) s') :
    PurgeSafe sys.store upto ↔ PurgeKept sys.store.logState sys.store.stateMachine.log upto :=
  purgeSafe_iff hagree (h.cache_sized hW) hio

/-- Three entries of one term, and one of the next. -/
def twoTerms : List (Event (memoryWal (exampleTypes false))) :=
  [.call (.append [(⟨1, 0⟩, 5), (⟨1, 1⟩, 6), (⟨1, 2⟩, 7), (⟨2, 3⟩, 8)]), .call (.commit ⟨1, 1⟩)]

def twoTermsSystem : System (memoryWal (exampleTypes false)) :=
  (System.simulate Guaranteed (chunksOfSize false 3) twoTerms).get (by decide +kernel)

theorem twoTermsSystem_reachable : System.Reachable Guaranteed twoTermsSystem :=
  System.reachable_get _

/-- The index is held under a log id of a lower term.  The purge goes through, and leaves an
entry below `purged`. -/
theorem purge_safe_iff_conflict :
    System.Reachable AnyCall twoTermsSystem ∧
      Agreement twoTermsSystem.store.logState twoTermsSystem.store.stateMachine.log ∧
      (∃ u s', (Op.purge (T := exampleTypes false) ⟨2, 1⟩).exec.run twoTermsSystem.store =
        .ok u s' ∧ s'.logState.purged = some ⟨2, 1⟩ ∧
          (s'.stateMachine.log.get 2).map LogData.logId = some ⟨1, 2⟩) ∧
      ¬ PurgeSafe twoTermsSystem.store ⟨2, 1⟩ := by
  have hheld : twoTermsSystem.store.stateMachine.log.get 1 = some ⟨⟨1, 1⟩, 0, ⟨2, 1⟩⟩ := by
    decide +kernel
  have hagree := (agreement_of_reachable (memoryWal_lawful _) twoTermsSystem_reachable).1
  refine ⟨twoTermsSystem_reachable.anyCall, hagree, by decide +kernel, fun hsafe => ?_⟩
  obtain ⟨e, s₁, hrejected⟩ := hsafe.conflict _ hheld (by decide)
  exact purge_not_rejected hrejected

theorem purge_safe_iff_twoTermsSystem : PurgeSafe twoTermsSystem.store ⟨1, 1⟩ := by
  have hrun : ∃ u s', (Op.purge (T := exampleTypes false) ⟨1, 1⟩).exec.run twoTermsSystem.store =
      .ok u s' ∧ True := by
    decide +kernel
  have hagree := (agreement_of_reachable (memoryWal_lawful _) twoTermsSystem_reachable).1
  obtain ⟨_, s', hrun, -⟩ := hrun
  refine (purge_safe_iff (memoryWal_lawful _) twoTermsSystem_reachable.anyCall hagree
    fun e s₁ hfailed => ?_).mpr (by decide +kernel)
  exact absurd (hrun.symm.trans hfailed) (by simp)

end RaftLogStore
