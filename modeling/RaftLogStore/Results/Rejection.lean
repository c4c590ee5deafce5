import RaftLogStore.Results.DurableLog
import RaftLogStore.Results.Purging

/-!
# What an error says

A call is rejected with an error that names the values it was checked against, and each of them is
what the log shows at that moment (`rejected_for_reason`).  `AbstractLog.Rejects` lists the
reasons, one for each error a call can return; which of two checks comes first decides which error
it is.
-/

namespace RaftLogStore

open RaftLog Transition

variable {T : Types} {W : ChunkedWal T}

/-! ## The reasons -/

/-- Why an entry is not appended. -/
inductive AbstractLog.RejectsEntry (a : AbstractLog T) : T.LogId → RaftLogStateError T → Prop
  | reversal {current attempted : T.LogId} :
      a.state.last = some current → attempted ≤ current →
      RejectsEntry a attempted (.logIdReversal current attempted "append")
  | nonConsecutive {last attempted : T.LogId} :
      a.state.last = some last → last < attempted → T.logIndex attempted ≠ T.logIndex last + 1 →
      RejectsEntry a attempted (.logIdNonConsecutive (some last) attempted)

/-- Why the entries of an `append` are not all appended.  The first that is rejected says so. -/
inductive AbstractLog.RejectsEntries :
    AbstractLog T → List (T.LogId × T.LogPayload) → RaftLogStateError T → Prop
  | here {a : AbstractLog T} {logId : T.LogId} {payload : T.LogPayload}
      {entries : List (T.LogId × T.LogPayload)} {e : RaftLogStateError T} :
      a.RejectsEntry logId e → RejectsEntries a ((logId, payload) :: entries) e
  | later {a : AbstractLog T} {logId : T.LogId} {payload : T.LogPayload}
      {entries : List (T.LogId × T.LogPayload)} {e : RaftLogStateError T} :
      a.Follows logId → RejectsEntries (a.put logId payload) entries e →
      RejectsEntries a ((logId, payload) :: entries) e

/-- Why a call is rejected. -/
inductive AbstractLog.Rejects (a : AbstractLog T) : Op T → RaftLogStateError T → Prop
  | voteReversal {current attempted : T.Vote} :
      a.state.vote = some current → ¬ current ≤ attempted →
      Rejects a (.saveVote attempted) (.voteReversal current attempted)
  | append {entries : List (T.LogId × T.LogPayload)} {e : RaftLogStateError T} :
      a.RejectsEntries entries e → Rejects a (.append entries) e
  | commitReversal {current attempted : T.LogId} :
      a.state.committed = some current → attempted < current →
      Rejects a (.commit attempted) (.logIdReversal current attempted "commit")
  | commitBeyondLast {attempted : T.LogId} :
      a.state.committed ≤ some attempted → a.state.last < some attempted →
      Rejects a (.commit attempted) (.commitBeyondLast a.state.last attempted)
  | logIndexNotFound {index : UInt64} :
      (∀ keep, ¬ a.Before index.toNat keep) →
      Rejects a (.truncate index) (.logIndexNotFound (index.toNat - 1))
  | truncateCommitted {index : UInt64} {keep : Option T.LogId} {committed : T.LogId} :
      a.Before index.toNat keep → a.state.committed = some committed → keep < some committed →
      Rejects a (.truncate index) (.truncateCommitted committed keep)
  | checkpointLogMismatch {state : RaftLogState T} {i j : ℕ} {first last : T.LogId}
      {p q : T.LogPayload} :
      a.entry i = some (first, p) → (∀ k < i, a.entry k = none) →
      a.entry j = some (last, q) → (∀ k, j < k → a.entry k = none) → ¬ a.Describes state →
      Rejects a (.updateState state) (.checkpointLogMismatch first last state.purged state.last)

/-! ## The checks of a record -/

theorem checkVote_eq_error_iff {st : RaftLogState T} {attempted : T.Vote}
    {e : RaftLogStateError T} :
    st.checkVote attempted = .error (.state e) ↔
      ∃ current, st.vote = some current ∧ ¬ current ≤ attempted ∧
        e = .voteReversal current attempted := by
  unfold RaftLogState.checkVote
  cases hvote : st.vote with
  | none => simp
  | some current =>
      by_cases hle : current ≤ attempted
      · simp [hle]
      · simp [hle, unwrap, bind, Except.bind, eq_comm]

theorem checkCommit_eq_error_iff {st : RaftLogState T} {attempted : T.LogId}
    {e : RaftLogStateError T} :
    st.checkCommit attempted = .error (.state e) ↔
      (∃ current, st.committed = some current ∧ attempted < current ∧
        e = .logIdReversal current attempted "commit") ∨
      st.committed ≤ some attempted ∧ st.last < some attempted ∧
        e = .commitBeyondLast st.last attempted := by
  unfold RaftLogState.checkCommit
  cases hcommitted : st.committed with
  | none =>
      by_cases hlast : st.last < some attempted
      · simp [hlast, eq_comm]
      · simp [hlast]
  | some current =>
      by_cases hlt : attempted < current
      · simp [hlt, unwrap, bind, Except.bind, eq_comm, not_le.mpr hlt]
      · by_cases hlast : st.last < some attempted
        · simp [hlt, hlast, eq_comm, not_lt.mp hlt]
        · simp [hlt, hlast]

theorem checkTruncate_eq_error_iff {st : RaftLogState T} {keep : Option T.LogId}
    {e : RaftLogStateError T} :
    st.checkTruncate keep = .error (.state e) ↔
      ∃ committed, st.committed = some committed ∧ keep < some committed ∧
        e = .truncateCommitted committed keep := by
  unfold RaftLogState.checkTruncate
  cases hcommitted : st.committed with
  | none => simp
  | some committed =>
      by_cases hlt : keep < some committed
      · simp [hlt, not_le.mpr hlt, unwrap, bind, Except.bind, eq_comm]
      · simp [hlt, not_lt.mp hlt]

theorem checkAppend_eq_error_iff {s : RaftLog W} {attempted : T.LogId} {e : RaftLogStateError T}
    (hmax : ∀ l ∈ s.logState.last, T.logIndex l < u64Max) :
    s.logState.checkAppend attempted = .error (.state e) ↔ s.view.RejectsEntry attempted e := by
  have hview : s.view.state.last = s.logState.last := rfl
  unfold RaftLogState.checkAppend
  cases hlast : s.logState.last with
  | none =>
      refine iff_of_false (by simp) fun hrejects => ?_
      cases hrejects with
      | reversal hcurrent _ => simp [hview, hlast] at hcurrent
      | nonConsecutive hcurrent _ _ => simp [hview, hlast] at hcurrent
  | some last =>
      have hnext : T.nextLogIndex (some last) = .ok (T.logIndex last + 1) :=
        Types.nextLogIndex_of_lt (hmax last hlast)
      simp only [Option.some_le_some, Option.isNone_some, Bool.false_eq_true, if_false, hnext]
      constructor
      · intro h
        split_ifs at h with hle
        · obtain rfl := Failure.state.inj (Except.error.inj h)
          exact .reversal (hview.trans hlast) hle
        · simp only [bind, Except.bind] at h
          split_ifs at h with hne
          obtain rfl := Failure.state.inj (Except.error.inj h)
          exact .nonConsecutive (hview.trans hlast) (not_le.mp hle) (Ne.symm hne)
      · intro hrejects
        cases hrejects with
        | reversal hcurrent hle =>
            obtain rfl := Option.some.inj (hlast.symm.trans (hview.symm.trans hcurrent))
            simp [hle, unwrap, bind, Except.bind]
        | nonConsecutive hcurrent hlt hne =>
            obtain rfl := Option.some.inj (hlast.symm.trans (hview.symm.trans hcurrent))
            simp [not_le.mpr hlt, Ne.symm hne, bind, Except.bind]

theorem checkCheckpoint_eq_error_iff {s : RaftLog W} (h : Coherent s.journal)
    {state : RaftLogState T} (hmax : ∀ p ∈ state.purged, T.logIndex p < u64Max)
    {e : RaftLogStateError T} :
    s.stateMachine.checkCheckpoint state = .error (.state e) ↔
      s.view.Rejects (.updateState state) e := by
  have hiff := checkCheckpoint_iff h hmax
  constructor
  · intro hcheck
    have hnot : ¬ s.view.Describes state := fun hdescribes => by
      rw [hiff.mpr hdescribes] at hcheck
      exact absurd hcheck (by simp)
    unfold RaftLogStateMachine.checkCheckpoint at hcheck
    cases hfirst : s.stateMachine.log.firstKeyValue with
    | none => simp [hfirst] at hcheck
    | some first =>
        obtain ⟨i, d⟩ := first
        obtain ⟨⟨j, d'⟩, hlast⟩ :=
          OrderedMap.exists_lastKeyValue (OrderedMap.firstKeyValue_eq_some hfirst).1
        obtain ⟨⟨p, hentry⟩, hbelow⟩ := entry_of_firstKeyValue h hfirst
        obtain ⟨⟨q, hentry'⟩, habove⟩ := entry_of_lastKeyValue h hlast
        simp only [hfirst, hlast, unwrap, bind, Except.bind, nextLogIndex_of_forall_lt hmax]
          at hcheck
        split_ifs at hcheck
        obtain rfl := Failure.state.inj (Except.error.inj hcheck)
        exact .checkpointLogMismatch hentry hbelow hentry' habove hnot
  · intro hrejects
    cases hrejects with
    | checkpointLogMismatch hentry hbelow hentry' habove hnot =>
        obtain ⟨d, hfirst, rfl⟩ := firstKeyValue_of_entry h hentry hbelow
        obtain ⟨d', hlast, rfl⟩ := lastKeyValue_of_entry h hentry' habove
        have hne : s.stateMachine.checkCheckpoint state ≠ .ok () := mt hiff.mp hnot
        unfold RaftLogStateMachine.checkCheckpoint at hne ⊢
        simp only [hfirst, hlast, unwrap, bind, Except.bind, nextLogIndex_of_forall_lt hmax]
          at hne ⊢
        split_ifs at hne ⊢ with hcond
        · exact absurd rfl hne
        · rfl

/-! ## The calls that write at most one record -/

/-- A call that has a record is rejected where the record is. -/
theorem exec_eq_error_iff {op : Op T} {s : RaftLog W} {rec : RaftLogRecord T}
    (hwrites : op.Writes s rec) (e : RaftLogStateError T) :
    op.exec.run s = .error (.state e) s ↔ s.logState.check rec = .error (.state e) := by
  rw [run_exec_of_writes hwrites]
  constructor
  · intro h
    cases hrec : (appendAndApply rec).run s with
    | ok segment s₁ => simp [hrec] at h
    | error failure s₁ =>
        rw [hrec] at h
        obtain ⟨rfl, rfl⟩ := EStateM.Result.error.inj h
        exact check_of_rejected hrec
  · intro hcheck
    have hrec : s.stateMachine.check rec = .error (.state e) := hcheck
    simp only [run_appendAndApply, hrec]

/-- A call that has a record is rejected for the reason that its view gives. -/
theorem rejects_of_writes {op : Op T} {s : RaftLog W} (h : Coherent s.journal)
    (hcall : ConsistentCall s op) {rec : RaftLogRecord T} (hwrites : op.Writes s rec)
    (e : RaftLogStateError T) :
    s.logState.check rec = .error (.state e) ↔ s.view.Rejects op e := by
  cases op with
  | saveVote vote =>
      rw [hwrites]
      refine checkVote_eq_error_iff.trans ⟨?_, fun hrejects => ?_⟩
      · rintro ⟨current, hcurrent, hle, rfl⟩
        exact .voteReversal hcurrent hle
      · cases hrejects with
        | voteReversal hcurrent hle => exact ⟨_, hcurrent, hle, rfl⟩
  | saveUserData userData =>
      rw [hwrites]
      exact iff_of_false (by simp [RaftLogState.check]) fun hrejects => by cases hrejects
  | append entries => exact hwrites.elim
  | truncate index =>
      obtain ⟨keep, hkeep, rfl⟩ := hwrites
      have hbefore := (before_iff h).mp hkeep
      refine checkTruncate_eq_error_iff.trans ⟨?_, fun hrejects => ?_⟩
      · rintro ⟨committed, hcommitted, hlt, rfl⟩
        exact .truncateCommitted hbefore hcommitted hlt
      · cases hrejects with
        | logIndexNotFound hnone => exact absurd hbefore (hnone keep)
        | truncateCommitted hbefore' hcommitted hlt =>
            obtain rfl := hbefore.unique hbefore'
            exact ⟨_, hcommitted, hlt, rfl⟩
  | purge upto =>
      obtain ⟨next, -, -, rfl⟩ := hwrites
      exact iff_of_false (by simp [RaftLogState.check]) fun hrejects => by cases hrejects
  | commit logId =>
      rw [hwrites]
      refine checkCommit_eq_error_iff.trans ⟨?_, fun hrejects => ?_⟩
      · rintro (⟨current, hcurrent, hlt, rfl⟩ | ⟨hle, hlt, rfl⟩)
        · exact .commitReversal hcurrent hlt
        · exact .commitBeyondLast hle hlt
      · cases hrejects with
        | commitReversal hcurrent hlt => exact Or.inl ⟨_, hcurrent, hlt, rfl⟩
        | commitBeyondLast hle hlt => exact Or.inr ⟨hle, hlt, rfl⟩
  | updateState state =>
      obtain ⟨hcheck, rfl⟩ := hwrites
      have hdescribes := (checkCheckpoint_iff h hcall.purged_lt).mp hcheck
      refine iff_of_false (by simp [RaftLogState.check]) fun hrejects => ?_
      cases hrejects with
      | checkpointLogMismatch _ _ _ _ hnot => exact hnot hdescribes
  | flush sync callback => exact hwrites.elim

/-- Such a call is rejected exactly for the reasons its view gives. -/
theorem rejects_single {op : Op T} {s : RaftLog W} (hop : op.IsSingle) (h : Coherent s.journal)
    (hcall : ConsistentCall s op) (e : RaftLogStateError T) :
    op.exec.run s = .error (.state e) s ↔ s.view.Rejects op e := by
  by_cases hwrites : ∃ rec, op.Writes s rec
  · obtain ⟨rec, hwrites⟩ := hwrites
    exact (exec_eq_error_iff hwrites e).trans (rejects_of_writes h hcall hwrites e)
  -- the checks that come before the record
  cases noRecord_of_single hop fun rec hrec => hwrites ⟨rec, hrec⟩ with
  | @truncate index failure hkeep hrun =>
      rw [truncateKeep_eq h.inOrder.purged] at hkeep
      have hbefore (keep : Option T.LogId) :
          s.truncateKeep index.toNat = .ok keep ↔ s.view.Before index.toNat keep := before_iff h
      rw [truncateKeep_eq h.inOrder.purged] at hbefore
      cases hat : keepAt s index.toNat with
      | some keep => simp [hat] at hkeep
      | none =>
          rw [hat] at hkeep
          obtain rfl := Except.error.inj hkeep
          have hnone : ∀ keep, ¬ s.view.Before index.toNat keep := fun keep hheld => by
            have hok := (hbefore keep).mpr hheld
            simp [hat] at hok
          rw [hrun]
          constructor
          · intro heq
            obtain rfl := Failure.state.inj (EStateM.Result.error.inj heq).1
            exact .logIndexNotFound hnone
          · intro hrejects
            cases hrejects with
            | logIndexNotFound _ => rfl
            | truncateCommitted hheld _ _ => exact absurd hheld (hnone _)
  | updateState hcheck hrun =>
      rw [← checkCheckpoint_eq_error_iff h hcall.purged_lt, hrun, hcheck]
      simp
  | purgeFails hnext _ =>
      have hafter := nextLogIndex_of_forall_lt h.inOrder.purged
      exact absurd (hnext.symm.trans hafter) (by simp)
  | purged _ _ hrun =>
      rw [hrun]
      exact iff_of_false (by simp) fun hrejects => by cases hrejects

/-! ## Entries -/

theorem AbstractLog.RejectsEntry.not_follows {a : AbstractLog T} {logId : T.LogId}
    {e : RaftLogStateError T} (h : a.RejectsEntry logId e) : ¬ a.Follows logId := by
  intro hfollows
  cases h with
  | reversal hlast hle =>
      have habove := hfollows.above
      rw [hlast, Option.some_lt_some] at habove
      exact absurd hle (not_le.mpr habove)
  | nonConsecutive hlast _ hne => exact hne (hfollows.next _ hlast)

/-- The first entry that is rejected ends an `append`. -/
theorem rejects_appendLoop (hW : Lawful W) {entries : List (T.LogId × T.LogPayload)}
    {s s' : RaftLog W} {rejection : Option (RaftLogStateError T)}
    (hloop : AppendEnds entries s s' rejection) (h : Coherent s.journal)
    (hindex : ∀ entry ∈ entries, T.logIndex entry.1 < u64Max)
    {hist : List (Snapshot T)} (hends : EndsWith hist s) (e : RaftLogStateError T) :
    rejection = some e ↔ s.view.RejectsEntries entries e := by
  induction hloop generalizing hist with
  | done s => exact iff_of_false (by simp) fun hrejects => by cases hrejects
  | @next logId payload entries s s₁ s' segment rejection hrec _ ih =>
      have hmax : T.logIndex logId < u64Max := hindex (logId, payload) (by simp)
      obtain ⟨hfollows, hput, hcoherent₁, hends₁, -⟩ := appended_entry hW hrec h hmax hends
      rw [ih hcoherent₁ (fun e he => hindex e (List.mem_cons_of_mem _ he)) hends₁, hput]
      constructor
      · exact .later hfollows
      · intro hrejects
        cases hrejects with
        | here hentry => exact absurd hfollows hentry.not_follows
        | later _ hrest => exact hrest
  | @rejected logId payload entries s e' hrec =>
      have hcheck : s.logState.checkAppend logId = .error (.state e') := check_of_rejected hrec
      have hreject := (checkAppend_eq_error_iff h.inOrder.last).mp hcheck
      constructor
      · intro heq
        exact .here (Option.some.inj heq ▸ hreject)
      · intro hrejects
        cases hrejects with
        | here hentry =>
            have hagain := (checkAppend_eq_error_iff h.inOrder.last).mpr hentry
            rw [Failure.state.inj (Except.error.inj (hcheck.symm.trans hagain))]
        | later hfollows _ => exact absurd hfollows hreject.not_follows

/-- A call is rejected for what the log shows: one that comes to an end returns the error `e`
exactly if `e` is a reason of the shown log.  Apart from `append`, which may have
written entries by then, a call with a reason to be rejected touches nothing. -/
theorem rejected_for_reason (hW : Lawful W) {sys : System W}
    (h : System.Reachable ConsistentCall sys) {op : Op T} (hcall : ConsistentCall sys.store op)
    (e : RaftLogStateError T) :
    (∀ s', Completes op sys.store s' →
      (op.exec.run sys.store = .error (.state e) s' ↔ sys.store.view.Rejects op e)) ∧
    (op.IsSingle → sys.store.view.Rejects op e →
      op.exec.run sys.store = .error (.state e) sys.store) := by
  have hcoherent := coherent_of_reachable hW h
  refine ⟨fun s' hcompletes => ?_, fun hop => (rejects_single hop hcoherent hcall e).mpr⟩
  by_cases hop : op.IsSingle
  · rw [← rejects_single hop hcoherent hcall e]
    constructor
    · intro herror
      rwa [rejected_single hop herror] at herror
    · intro herror
      rcases hcompletes with hok | ⟨e', herror'⟩
      · exact absurd (herror.symm.trans hok) (by simp)
      · obtain rfl := rejected_single hop herror'
        exact herror
  · cases op with
    | append entries =>
        obtain ⟨rejection, hloop⟩ := appendEnds_of_completes hcompletes
        have hrejects := rejects_appendLoop hW hloop hcoherent hcall.entries_lt
          (endsWith_of_reachable hW h) e
        rw [run_exec_append, appendEnds_iff.mp hloop, appendResult_eq_error_iff, hrejects]
        refine ⟨.append, fun hrejects => ?_⟩
        cases hrejects with
        | append hentries => exact hentries
    | flush sync callback =>
        refine iff_of_false (fun herror => ?_) fun hrejects => by cases hrejects
        obtain ⟨e', he'⟩ := flush_error herror
        exact absurd he' (by simp)
    | _ => exact absurd trivial hop

theorem System.Step.completes {allowed : RaftLog W → Op T → Prop} {sys sys' : System W} {op : Op T}
    (h : System.Step allowed sys (.call op) sys') : Completes op sys.store sys'.store := by
  cases h with
  | call _ hcompletes => exact hcompletes

/-- Two entries, both committed. -/
def rejectingSystem : System (memoryWal (exampleTypes true)) :=
  (System.simulate ConsistentCall (chunksOfSize true 3)
    [.call (.append [(⟨1, 0⟩, 5), (⟨1, 1⟩, 6)]), .call (.commit ⟨1, 1⟩)]).get (by decide +kernel)

/-- The second of these does not follow the first. -/
def gapped : Op (exampleTypes true) := .append [(⟨1, 2⟩, 7), (⟨1, 4⟩, 8), (⟨1, 5⟩, 9)]

def gappedSystem : System (memoryWal (exampleTypes true)) :=
  (System.perform ConsistentCall rejectingSystem (.call gapped)).get (by decide +kernel)

theorem rejected_for_reason_gapped :
    gapped.exec.run rejectingSystem.store =
      .error (.state (.logIdNonConsecutive (some ⟨1, 2⟩) ⟨1, 4⟩)) gappedSystem.store ∧
    (Op.truncate 1 : Op (exampleTypes true)).exec.run rejectingSystem.store =
      .error (.state (.truncateCommitted ⟨1, 1⟩ (some ⟨1, 0⟩))) rejectingSystem.store := by
  have hstep : System.Step ConsistentCall rejectingSystem (.call gapped) gappedSystem :=
    System.step_of_perform (Option.some_get _).symm
  have hlast : rejectingSystem.store.view.state.last = some ⟨1, 1⟩ := by decide +kernel
  have hcommitted : rejectingSystem.store.view.state.committed = some ⟨1, 1⟩ := by decide +kernel
  have hreachable : System.Reachable ConsistentCall rejectingSystem := System.reachable_get _
  have hgapped : ConsistentCall rejectingSystem.store gapped := by decide +kernel
  have htruncate : ConsistentCall rejectingSystem.store (.truncate 1) := by decide +kernel
  have hentry : rejectingSystem.store.view.entry 0 = some (⟨1, 0⟩, 5) := by decide +kernel
  constructor
  · have hrejects := rejected_for_reason (memoryWal_lawful _) hreachable hgapped
      (.logIdNonConsecutive (some ⟨1, 2⟩) ⟨1, 4⟩)
    have hfollows : rejectingSystem.store.view.Follows ⟨1, 2⟩ :=
      ⟨by rw [hlast]; decide, by rw [hlast]; rintro _ ⟨⟩; rfl⟩
    have hgap : (rejectingSystem.store.view.put ⟨1, 2⟩ 7).RejectsEntry ⟨1, 4⟩
        (.logIdNonConsecutive (some ⟨1, 2⟩) ⟨1, 4⟩) :=
      .nonConsecutive rfl (by decide) (by decide)
    exact (hrejects.1 _ hstep.completes).mpr (.append (.later hfollows (.here hgap)))
  · have hrejects := rejected_for_reason (memoryWal_lawful _) hreachable htruncate
      (.truncateCommitted ⟨1, 1⟩ (some ⟨1, 0⟩))
    have hbefore : rejectingSystem.store.view.Before 1 (some ⟨1, 0⟩) :=
      .held (by decide +kernel) hentry
    exact hrejects.2 trivial (.truncateCommitted hbefore hcommitted (by decide))

end RaftLogStore
