import RaftLogStore.Abstract.View
import RaftLogStore.Results.Truncation

/-!
# Calls on the store and on the log it shows

A call is accepted by the store exactly when the log it shows accepts it, and the store then
shows the log that the call leads to (`view_of_single`, `view_of_appendLoop`).  Every record a
call writes is one more version of the history; a checkpoint behind it, in a new chunk, is the
same version again.

## Strategy
1. `Coherent` is what the calls rely on; every step of the journal keeps it.
2. One record: the view is moved by `AbstractLog.after`, and the history shows the new view once
   for each record written (`shows_appendAndApply`).
3. One call: its own checks say the same of the store as of its view (`before_iff`,
   `checkCheckpoint_iff`, `follows_iff`).
-/

namespace RaftLogStore

open RaftLog Transition

variable {T : Types} {W : ChunkedWal T}

/-- The parts of a store fit together. -/
structure Coherent (j : Journal T) : Prop where
  agreement : Agreement j.state j.log
  purged : PurgedLeLast j.state
  inOrder : StateInOrder j.state
  backed : Backed j.written j.log j.cache

/-- What a record must satisfy to keep a store coherent. -/
def CoherentRecord (j : Journal T) (rec : RaftLogRecord T) : Prop :=
  GoodRecord j rec ∧ RecordInOrder rec

theorem Coherent.step {j j' : Journal T} {added : List (Snapshot T)} (h : Coherent j)
    (hstep : Journal.Step CoherentRecord j added j') : Coherent j' := by
  have hbacked := hstep.backed h.backed
  cases hstep with
  | write hrec _ hcheck hlog _ =>
      obtain ⟨hagree, hpurged⟩ := h.agreement.step h.purged hrec.1 hcheck hlog
      exact ⟨hagree, hpurged, h.inOrder.update hrec.2 hcheck, hbacked⟩
  | _ => exact ⟨h.agreement, h.purged, h.inOrder, hbacked⟩

/-- The history ends with the store as it is. -/
structure EndsWith (hist : List (Snapshot T)) (s : RaftLog W) : Prop where
  state : endState hist = s.logState
  log : endLog hist = s.stateMachine.log
  written : ∃ pre, hist.map Snapshot.located = pre ++ (W.view s.wal).written

theorem EndsWith.versionOf_eq {hist : List (Snapshot T)} {s : RaftLog W} (h : EndsWith hist s)
    (hcoherent : Coherent s.journal) : versionOf hist = s.view := by
  obtain ⟨pre, hpre⟩ := h.written
  rw [versionOf, hpre, h.state, h.log]
  exact viewOf_prepend hcoherent.backed _

/-! ## One record -/

/-- What an accepted record puts into the WAL: itself, and the checkpoint of a new chunk if it
has filled the open one. -/
theorem written_appendAndApply (hW : Lawful W) {rec : RaftLogRecord T} {s s' : RaftLog W}
    {segment : Segment} (h : (appendAndApply rec).run s = .ok segment s') :
    ∃ l rest, (W.view s'.wal).written = (W.view s.wal).written ++ l :: rest ∧ l.record = rec ∧
      (∀ l' ∈ rest, ∃ state, l'.record = .checkpoint state) ∧
      RaftLogStateMachine.logAfter rec l.chunkId l.segment s.stateMachine.log =
        .ok s'.stateMachine.log ∧
      RaftLogStateMachine.cacheAfter rec s.stateMachine.payloadCache =
        .ok s'.stateMachine.payloadCache := by
  obtain ⟨-, wal₁, sm, closed, wal₂, happend, happly, hclose, rfl, -⟩ := appendAndApply_ok h
  obtain ⟨-, hview₁⟩ := hW.append_ok happend
  obtain ⟨hlog, hcache, -, -⟩ := RaftLogStateMachine.apply_eq_ok.mp happly
  simp only [stateMachine_afterRecord]
  cases closed with
  | false =>
      obtain ⟨-, -, hview₂⟩ := hW.tryCloseFullChunk_false hclose
      exact ⟨⟨W.openChunkId wal₁, W.lastSegment wal₁, rec⟩, [],
        by simp [afterRecord, hview₂, hview₁], rfl, by simp, hlog, hcache⟩
  | true =>
      obtain ⟨-, requests, -, -, hview₂⟩ := hW.tryCloseFullChunk_true hclose
      refine ⟨⟨W.openChunkId wal₁, W.lastSegment wal₁, rec⟩,
        [⟨W.openChunkId wal₂, W.lastSegment wal₂, .checkpoint sm.checkpoint⟩], ?_, rfl, by simp,
        hlog, hcache⟩
      simp [afterRecord, written_bufferRemovableChunks hW, hview₂, hview₁]

theorem endsWith_append {hist : List (Snapshot T)} (s' : RaftLog W) {pre written : List (Located T)}
    (hpre : hist.map Snapshot.located = pre ++ written) {added : List (Located T)}
    (hne : added ≠ []) :
    let hist' := hist ++ added.map fun l => ⟨l, s'.logState, s'.stateMachine.log⟩
    endState hist' = s'.logState ∧ endLog hist' = s'.stateMachine.log ∧
      hist'.map Snapshot.located = pre ++ (written ++ added) := by
  obtain ⟨front, l, rfl⟩ := (List.eq_nil_or_concat' added).resolve_left hne
  refine ⟨?_, ?_, ?_⟩
  · simp [← List.append_assoc]
  · simp [← List.append_assoc]
  · simp [hpre, Function.comp_def]

/-- An accepted record moves the view, and shows it once for each record written. -/
theorem shows_appendAndApply (hW : Lawful W) {rec : RaftLogRecord T} {s s' : RaftLog W}
    {segment : Segment} (h : (appendAndApply rec).run s = .ok segment s')
    (hcoherent : Coherent s.journal) (horder : RecordInOrder rec) {hist : List (Snapshot T)}
    (hends : EndsWith hist s) :
    s'.view = s.view.after rec ∧ EndsWith (hist ++ newSnapshots s s') s' ∧
      ∃ n, versions (hist ++ newSnapshots s s') =
        versions hist ++ List.replicate (n + 1) s'.view := by
  obtain ⟨l, rest, hwritten, rfl, hrest, hlog, hcache⟩ := written_appendAndApply hW h
  have hstate := logState_appendAndApply h
  have hbacked : Backed ((W.view s.wal).written ++ [l]) s'.stateMachine.log
      s'.stateMachine.payloadCache := hcoherent.backed.step hlog hcache
  -- whatever part of `rest` is written, the log is the one after `l`
  have hview : ∀ pre rest', rest' <+: rest →
      viewOf (pre ++ ((W.view s.wal).written ++ l :: rest')) s'.stateMachine.log s'.logState =
        s.view.after l.record := by
    intro pre rest' htaken
    have hnone : ∀ l' ∈ rest', ∀ logId p, l'.record ≠ .action (.append logId p) := by
      intro l' hl' logId p
      obtain ⟨state, hcheckpoint⟩ := hrest l' (htaken.subset hl')
      simp [hcheckpoint]
    rw [List.append_cons, ← List.append_assoc, viewOf_append hnone, viewOf_prepend hbacked, hstate]
    exact viewOf_after (fun _ _ => hcoherent.backed.key) hlog horder
  have hwhole : s'.view = s.view.after l.record := by
    have hempty := hview [] rest (List.prefix_refl _)
    rwa [List.nil_append, ← hwritten] at hempty
  obtain ⟨pre, hpre⟩ := hends.written
  rw [newSnapshots_eq hwritten]
  refine ⟨hwhole, ?_, rest.length, ?_⟩
  · obtain ⟨hendState, hendLog, hmap⟩ :=
      endsWith_append s' hpre (List.cons_ne_nil l rest)
    exact ⟨hendState, hendLog, pre, hwritten ▸ hmap⟩
  · rw [versions_append_of_forall (a := s'.view), List.length_map, List.length_cons]
    intro front hne hfront
    obtain ⟨n, hn⟩ : ∃ n, front = ((l :: rest).take (n + 1)).map
        fun l => ⟨l, s'.logState, s'.stateMachine.log⟩ := by
      obtain ⟨n, hlen⟩ := Nat.exists_eq_succ_of_ne_zero (mt List.length_eq_zero_iff.mp hne)
      refine ⟨n, ?_⟩
      rw [List.map_take, ← Nat.succ_eq_add_one, ← hlen]
      exact List.prefix_iff_eq_take.mp hfront
    subst hn
    have hne' : (l :: rest).take (n + 1) ≠ [] := by simp
    obtain ⟨hendState, hendLog, hmap⟩ := endsWith_append s' hpre hne'
    rw [versionOf, hendState, hendLog, hmap, hwhole]
    exact hview pre _ (List.take_prefix _ _)

/-! ## The checks of a call -/

/-- The entry of the view at an index where the map holds one. -/
theorem entry_of_get {s : RaftLog W} (h : Coherent s.journal) {i : ℕ} {d : LogData T}
    (hget : s.stateMachine.log.get i = some d) : ∃ p, s.view.entry i = some (d.logId, p) := by
  obtain ⟨p, hlatest, -⟩ := h.backed.payload hget
  have hpayload : latestPayload (W.view s.wal).written d.logId = some p := hlatest.latestPayload_eq
  exact ⟨p, by simp [RaftLog.view, viewOf, hget, hpayload]⟩

theorem get_of_entry {s : RaftLog W} {i : ℕ} {logId : T.LogId} {p : T.LogPayload}
    (h : s.view.entry i = some (logId, p)) :
    ∃ d, s.stateMachine.log.get i = some d ∧ d.logId = logId := by
  obtain ⟨d, hget, hd⟩ := Option.bind_eq_some_iff.mp h
  obtain ⟨p', -, hp⟩ := Option.map_eq_some_iff.mp hd
  exact ⟨d, hget, congrArg Prod.fst hp⟩

theorem entry_eq_none_iff {s : RaftLog W} (h : Coherent s.journal) {i : ℕ} :
    s.view.entry i = none ↔ s.stateMachine.log.get i = none := by
  constructor
  · intro hnone
    cases hget : s.stateMachine.log.get i with
    | none => rfl
    | some d =>
        obtain ⟨p, hp⟩ := entry_of_get h hget
        simp [hp] at hnone
  · intro hnone
    simp [RaftLog.view, viewOf, hnone]

/-- `truncate` finds the log id to keep exactly where the view has one. -/
theorem before_iff {s : RaftLog W} (h : Coherent s.journal) {index : ℕ} {keep : Option T.LogId} :
    s.truncateKeep index = .ok keep ↔ s.view.Before index keep := by
  rw [truncateKeep_eq h.inOrder.purged]
  unfold keepAt
  constructor
  · intro hkeep
    split_ifs at hkeep with hafter hzero
    · rw [hafter, ← Except.ok.inj hkeep]
      exact AbstractLog.Before.purged
    · cases hget : s.stateMachine.log.get (index - 1) with
      | none => simp [hget] at hkeep
      | some d =>
          simp only [hget, Option.map_some, Except.ok.injEq] at hkeep
          obtain ⟨p, hp⟩ := entry_of_get h hget
          have hsucc := Nat.sub_add_cancel (Nat.pos_of_ne_zero hzero)
          have hheld := AbstractLog.Before.held (hsucc.symm ▸ hafter) hp
          rwa [hsucc, hkeep] at hheld
  · intro hbefore
    cases hbefore with
    | purged =>
        have hpurged : s.view.state.purged = s.logState.purged := rfl
        rw [hpurged, if_pos rfl]
    | @held i logId payload hne hentry =>
        obtain ⟨d, hget, rfl⟩ := get_of_entry hentry
        have hafter : ¬ i + 1 = T.indexAfter s.logState.purged := hne
        rw [if_neg hafter, if_neg (Nat.succ_ne_zero i), Nat.add_sub_cancel, hget]
        rfl

/-- The entries at the two ends of the view are those of the log map. -/
theorem firstKeyValue_of_entry {s : RaftLog W} (h : Coherent s.journal) {i : ℕ} {logId : T.LogId}
    {p : T.LogPayload} (hentry : s.view.entry i = some (logId, p))
    (hbelow : ∀ k < i, s.view.entry k = none) :
    ∃ d, s.stateMachine.log.firstKeyValue = some (i, d) ∧ d.logId = logId := by
  obtain ⟨d, hget, hd⟩ := get_of_entry hentry
  obtain ⟨⟨k₀, d₀⟩, hfirst⟩ := OrderedMap.exists_firstKeyValue hget
  obtain ⟨hget₀, hmin⟩ := OrderedMap.firstKeyValue_eq_some hfirst
  obtain rfl : k₀ = i := by
    refine le_antisymm (hmin i d hget) (not_lt.mp fun hlt => ?_)
    simp [(entry_eq_none_iff h).mp (hbelow k₀ hlt)] at hget₀
  obtain rfl := Option.some.inj (hget₀.symm.trans hget)
  exact ⟨d₀, hfirst, hd⟩

theorem lastKeyValue_of_entry {s : RaftLog W} (h : Coherent s.journal) {i : ℕ} {logId : T.LogId}
    {p : T.LogPayload} (hentry : s.view.entry i = some (logId, p))
    (habove : ∀ k, i < k → s.view.entry k = none) :
    ∃ d, s.stateMachine.log.lastKeyValue = some (i, d) ∧ d.logId = logId := by
  obtain ⟨d, hget, hd⟩ := get_of_entry hentry
  refine ⟨d, OrderedMap.lastKeyValue_eq_some_iff.mpr ⟨hget, fun k e hk => ?_⟩, hd⟩
  refine not_lt.mp fun hlt => ?_
  simp [(entry_eq_none_iff h).mp (habove k hlt)] at hk

theorem entry_of_firstKeyValue {s : RaftLog W} (h : Coherent s.journal) {i : ℕ} {d : LogData T}
    (hfirst : s.stateMachine.log.firstKeyValue = some (i, d)) :
    (∃ p, s.view.entry i = some (d.logId, p)) ∧ ∀ k < i, s.view.entry k = none := by
  obtain ⟨hget, hmin⟩ := OrderedMap.firstKeyValue_eq_some hfirst
  refine ⟨entry_of_get h hget, fun k hk => (entry_eq_none_iff h).mpr ?_⟩
  by_contra hne
  obtain ⟨d', hd'⟩ := Option.ne_none_iff_exists'.mp hne
  exact absurd (hmin k d' hd') (not_le.mpr hk)

theorem entry_of_lastKeyValue {s : RaftLog W} (h : Coherent s.journal) {i : ℕ} {d : LogData T}
    (hlast : s.stateMachine.log.lastKeyValue = some (i, d)) :
    (∃ p, s.view.entry i = some (d.logId, p)) ∧ ∀ k, i < k → s.view.entry k = none := by
  obtain ⟨hget, hmax⟩ := OrderedMap.lastKeyValue_eq_some hlast
  refine ⟨entry_of_get h hget, fun k hk => (entry_eq_none_iff h).mpr ?_⟩
  by_contra hne
  obtain ⟨d', hd'⟩ := Option.ne_none_iff_exists'.mp hne
  exact absurd (hmax k d' hd') (not_le.mpr hk)

/-- `check_checkpoint` accepts exactly the states that describe the entries of the view. -/
theorem checkCheckpoint_iff {s : RaftLog W} (h : Coherent s.journal) {state : RaftLogState T}
    (hmax : ∀ p ∈ state.purged, T.logIndex p < u64Max) :
    s.stateMachine.checkCheckpoint state = .ok () ↔ s.view.Describes state := by
  constructor
  · intro hcheck
    obtain ⟨hfirst, hlast⟩ := checkCheckpoint_ok hcheck (Or.inr (Or.inr hmax))
    constructor
    · rintro i ⟨logId, p⟩ hentry hbelow
      obtain ⟨d, hfirstKey, rfl⟩ := firstKeyValue_of_entry h hentry hbelow
      have hkey : T.logIndex d.logId = i :=
        h.agreement.key (OrderedMap.firstKeyValue_eq_some hfirstKey).1
      obtain ⟨hindex, habove⟩ := hfirst _ _ hfirstKey
      exact ⟨hkey.symm.trans hindex, habove⟩
    · rintro i ⟨logId, p⟩ hentry habove
      obtain ⟨d, hlastKey, rfl⟩ := lastKeyValue_of_entry h hentry habove
      exact hlast i d hlastKey
  · intro hdescribes
    unfold RaftLogStateMachine.checkCheckpoint
    cases hfirst : s.stateMachine.log.firstKeyValue with
    | none => rfl
    | some first =>
        obtain ⟨k₀, d₀⟩ := first
        have hget₀ := (OrderedMap.firstKeyValue_eq_some hfirst).1
        obtain ⟨⟨k₁, d₁⟩, hlast⟩ := OrderedMap.exists_lastKeyValue hget₀
        obtain ⟨⟨p₀, hentry₀⟩, hbelow⟩ := entry_of_firstKeyValue h hfirst
        obtain ⟨⟨p₁, hentry₁⟩, habove⟩ := entry_of_lastKeyValue h hlast
        have hbounds := hdescribes.first hentry₀ hbelow
        have hend := hdescribes.last hentry₁ habove
        have hkey₀ : T.logIndex d₀.logId = k₀ := h.agreement.key hget₀
        simp only [hlast, unwrap, bind, Except.bind, nextLogIndex_of_forall_lt hmax]
        exact if_pos ⟨hkey₀.trans hbounds.1, hbounds.2, hend.symm⟩

/-- `check_append` accepts exactly what follows the last log id. -/
theorem follows_iff {s : RaftLog W} (hlast : ∀ l ∈ s.logState.last, T.logIndex l < u64Max)
    {logId : T.LogId} : s.logState.checkAppend logId = .ok () ↔ s.view.Follows logId := by
  have hview : s.view.state.last = s.logState.last := rfl
  rw [RaftLogState.checkAppend_eq_ok_iff, nextLogIndex_of_forall_lt hlast]
  constructor
  · rintro ⟨habove, hnext⟩
    refine ⟨hview ▸ habove, fun l hl => ?_⟩
    rw [hview] at hl
    simp only [Option.mem_def.mp hl, reduceCtorEq, Types.indexAfter, Except.ok.injEq,
      false_or] at hnext
    exact hnext.symm
  · rintro ⟨habove, hnext⟩
    refine ⟨hview ▸ habove, ?_⟩
    cases hl : s.logState.last with
    | none => exact Or.inl rfl
    | some l => exact Or.inr (congrArg Except.ok (hnext l (hview.trans hl)).symm)

/-- The check has rejected a record that ends in a state error. -/
theorem check_of_rejected {s s' : RaftLog W} {rec : RaftLogRecord T} {e : RaftLogStateError T}
    (h : (appendAndApply rec).run s = .error (.state e) s') :
    s.logState.check rec = .error (.state e) := by
  rcases appendAndApply_error h with ⟨hreject, -⟩ | ⟨e', he'⟩ | ⟨hcheck, wal₁, sm, -, happly⟩
  · exact hreject
  · exact absurd he' (by simp)
  · exact absurd (RaftLogStateMachine.apply_eq_error_of_check hcheck happly) (by simp)

/-! ## The calls that write at most one record -/

theorem purge_eq (st : RaftLogState T) (upto : T.LogId) :
    st.purge upto =
      { st with last := max st.last (some upto), purged := max st.purged (some upto) } := by
  have huserData : (st.purge upto).userData = st.userData := by
    unfold RaftLogState.purge
    dsimp only
    split_ifs <;> rfl
  exact RaftLogState.ext (by simp) (by simp) (by simp) (by simp) huserData

/-- A purge that the store skips changes nothing in the view either. -/
theorem purge_skipped {s : RaftLog W} (h : Coherent s.journal) {upto : T.LogId}
    (hconsistent : PurgeConsistent s.logState s.stateMachine.log upto)
    (hlt : T.logIndex upto < T.indexAfter s.logState.purged) : s.view.purge upto = s.view := by
  cases hpurged : s.logState.purged with
  | none => simp [hpurged, Types.indexAfter] at hlt
  | some p =>
      simp only [hpurged, Types.indexAfter] at hlt
      have hle : upto ≤ p := by
        refine not_lt.mp fun hup => ?_
        have hindex := (hconsistent.purged p hpurged).1.mp hup
        omega
      have hlast : some p ≤ s.logState.last := hpurged ▸ h.purged.logId
      have hle' : some upto ≤ some p := Option.some_le_some.mpr hle
      refine AbstractLog.ext ?_ (funext fun i => ?_)
      · change { s.logState with
          last := max s.logState.last (some upto)
          purged := max s.logState.purged (some upto) } = s.logState
        rw [max_eq_left (hle'.trans hlast), hpurged, max_eq_left hle', ← hpurged]
      · simp only [AbstractLog.purge]
        split_ifs with hi
        · refine ((entry_eq_none_iff h).mpr ?_).symm
          by_contra hne
          obtain ⟨d, hd⟩ := Option.ne_none_iff_exists'.mp hne
          have habove : T.indexAfter s.logState.purged ≤ i := (h.agreement.above hd).2
          simp only [hpurged, Types.indexAfter] at habove
          omega
        · rfl

/-- A truncation moves the view as its record does. -/
theorem cut_eq_after {s : RaftLog W} (h : Coherent s.journal) {index : ℕ} {keep : Option T.LogId}
    (hbefore : s.view.Before index keep) :
    s.view.after (.action (.truncateAfter keep)) = s.view.cut index keep := by
  have hkeep : keep ≤ s.logState.last ∧ T.indexAfter keep = index := by
    cases hbefore with
    | purged => exact ⟨h.purged.logId, rfl⟩
    | held _ hentry =>
        obtain ⟨d, hget, rfl⟩ := get_of_entry hentry
        exact ⟨h.agreement.held_le_last hget, congrArg (· + 1) (h.agreement.key hget)⟩
  obtain ⟨hle, rfl⟩ := hkeep
  refine AbstractLog.ext ?_ rfl
  have hmin : min s.logState.last keep = keep := min_eq_right hle
  exact (truncateAfter_eq s.logState keep).trans (by rw [hmin]; rfl)

/-- A call that has a record is accepted by the view exactly when the record is accepted by the
state, and leads to the same log. -/
theorem accepts_iff {op : Op T} {s : RaftLog W} (h : Coherent s.journal)
    (hcall : ConsistentCall s op) {rec : RaftLogRecord T} (hwrites : op.Writes s rec)
    (b : AbstractLog T) :
    s.view.Accepts op b ↔ s.logState.check rec = .ok () ∧ b = s.view.after rec := by
  cases op with
  | saveVote vote =>
      rw [hwrites]
      exact and_congr_left fun _ => RaftLogState.checkVote_eq_ok_iff.symm
  | saveUserData userData =>
      rw [hwrites]
      exact (and_iff_right rfl).symm
  | append entries => exact hwrites.elim
  | truncate index =>
      obtain ⟨keep, hkeep, rfl⟩ := hwrites
      have hbefore := (before_iff h).mp hkeep
      have hcheck : s.logState.check (.action (.truncateAfter keep)) = .ok () ↔
          s.view.state.committed ≤ keep := RaftLogState.checkTruncate_eq_ok_iff
      rw [hcheck, cut_eq_after h hbefore]
      constructor
      · rintro ⟨keep', hbefore', hcommitted, rfl⟩
        obtain rfl := Except.ok.inj (hkeep.symm.trans ((before_iff h).mpr hbefore'))
        exact ⟨hcommitted, rfl⟩
      · rintro ⟨hcommitted, rfl⟩
        exact ⟨keep, hbefore, hcommitted, rfl⟩
  | purge upto =>
      obtain ⟨next, -, -, rfl⟩ := hwrites
      have hafter : s.view.after (.action (.purgeUpto upto)) = s.view.purge upto :=
        AbstractLog.ext (purge_eq s.logState upto) rfl
      rw [hafter]
      exact (and_iff_right rfl).symm
  | commit logId =>
      rw [hwrites]
      exact and_assoc.symm.trans
        (and_congr_left fun _ => RaftLogState.checkCommit_eq_ok_iff.symm)
  | updateState state =>
      obtain ⟨hcheck, rfl⟩ := hwrites
      have hdescribes := (checkCheckpoint_iff h hcall.purged_lt).mp hcheck
      exact and_congr_left fun _ => iff_of_true hdescribes rfl
  | flush sync callback => exact hwrites.elim

/-- The call returned. -/
def Op.isOk (op : Op T) (s : RaftLog W) : Bool :=
  match op.exec.run s with
  | .ok _ _ => true
  | .error _ _ => false

/-- What a call does to the view, the history shows. -/
structure Refines (hist : List (Snapshot T)) (op : Op T) (s s' : RaftLog W)
    (logs shown : List (AbstractLog T)) : Prop where
  call : s.view.Call op logs (op.isOk s)
  stutters : Stutters s.view logs shown
  versions : versions (hist ++ op.recorded s) = versions hist ++ shown
  ends : EndsWith (hist ++ op.recorded s) s'

/-- A call that records nothing. -/
theorem Refines.unrecorded {hist : List (Snapshot T)} {op : Op T} {s : RaftLog W}
    {logs : List (AbstractLog T)} (hrecorded : op.recorded s = []) (hends : EndsWith hist s)
    (hcall : s.view.Call op logs (op.isOk s)) (hlogs : Stutters s.view logs []) :
    Refines hist op s s logs [] :=
  ⟨hcall, hlogs, by simp [hrecorded], by simpa [hrecorded] using hends⟩

theorem Refines.rejected {hist : List (Snapshot T)} {op : Op T} {s : RaftLog W}
    {failure : Failure T} (hop : op.IsSingle) (hends : EndsWith hist s)
    (hrun : op.exec.run s = .error failure s) (hrejects : ∀ b, ¬ s.view.Accepts op b) :
    Refines hist op s s [] [] := by
  refine .unrecorded (by simp [recorded_of_single hop, hrun]) hends ?_ (Stutters.nil _)
  rw [Op.isOk, hrun]
  exact .rejected (fun entries heq => by subst heq; exact hop) hrejects

/-- A drain does not change what the history ends with. -/
theorem EndsWith.finish (hW : Lawful W) {hist : List (Snapshot T)} {s : RaftLog W}
    (h : EndsWith hist s) (op : Op T) : EndsWith hist (op.finish s) := by
  cases op with
  | purge upto =>
      obtain ⟨hstate, hlog, hwritten⟩ := h
      refine ⟨?_, ?_, ?_⟩
      · rw [logState_finish, hstate]
      · rw [Op.finish, stateMachine_bufferRemovableChunks, hlog]
      · rwa [Op.finish, written_bufferRemovableChunks hW]
  | _ => exact h

theorem newSnapshots_finish (hW : Lawful W) (op : Op T) (s s' : RaftLog W) :
    newSnapshots s (op.finish s') = newSnapshots s s' := by
  cases op with
  | purge upto => exact newSnapshots_bufferRemovableChunks hW s s'
  | _ => rfl

/-- A call that has a record. -/
theorem refines_of_writes (hW : Lawful W) {op : Op T} {s s' : RaftLog W} (hop : op.IsSingle)
    (h : Coherent s.journal) (hcall : ConsistentCall s op) {rec : RaftLogRecord T}
    (hwrites : op.Writes s rec) (hcompletes : Completes op s s') {hist : List (Snapshot T)}
    (hends : EndsWith hist s) : ∃ logs shown, Refines hist op s s' logs shown := by
  rcases hcompletes with hok | ⟨e, herror⟩
  · obtain ⟨segment, s₁, hrec, rfl⟩ := ok_of_writes hok hwrites
    have hcheck : s.logState.check rec = .ok () := (appendAndApply_ok hrec).1
    have horder := ((hcall.guarded h.inOrder h.agreement).1 rec hwrites hcheck).2
    obtain ⟨hview, hends₁, n, hversions⟩ := shows_appendAndApply hW hrec h horder hends
    have hrecorded : op.recorded s = newSnapshots s s₁ := by
      rw [recorded_of_single hop, hok]
      exact newSnapshots_finish hW op s s₁
    refine ⟨[s₁.view], _, ?_, Stutters.single _ _ n, hrecorded ▸ hversions,
      hrecorded ▸ hends₁.finish hW op⟩
    rw [Op.isOk, hok]
    exact .accepted ((accepts_iff h hcall hwrites _).mpr ⟨hcheck, hview⟩)
  · obtain rfl := rejected_single hop herror
    refine ⟨[], [], Refines.rejected hop hends herror fun b haccepts => ?_⟩
    have hcheck := ((accepts_iff h hcall hwrites b).mp haccepts).1
    obtain ⟨segment, s₁, hrec, -⟩ := completes_of_writes (Or.inr ⟨e, herror⟩) hwrites hcheck
    rw [run_exec_of_writes hwrites, hrec] at herror
    simp at herror

theorem refines_single (hW : Lawful W) {op : Op T} {s s' : RaftLog W} (hop : op.IsSingle)
    (h : Coherent s.journal) (hcall : ConsistentCall s op) (hcompletes : Completes op s s')
    {hist : List (Snapshot T)} (hends : EndsWith hist s) :
    ∃ logs shown, Refines hist op s s' logs shown := by
  by_cases hwrites : ∃ rec, op.Writes s rec
  · obtain ⟨rec, hwrites⟩ := hwrites
    exact refines_of_writes hW hop h hcall hwrites hcompletes hends
  obtain rfl : s' = s := by
    rcases completes_single hop hcompletes with heq | ⟨rec, _, _, hrec, -⟩
    · exact heq
    · exact absurd ⟨rec, hrec⟩ hwrites
  -- without a record there is nothing to keep, nothing described, or nothing to purge
  cases noRecord_of_single hop fun rec hrec => hwrites ⟨rec, hrec⟩ with
  | truncate hkeep hrun =>
      refine ⟨[], [], Refines.rejected hop hends hrun ?_⟩
      rintro b ⟨keep, hbefore, -⟩
      simp [(before_iff h).mpr hbefore] at hkeep
  | updateState hcheck hrun =>
      refine ⟨[], [], Refines.rejected hop hends hrun ?_⟩
      rintro b ⟨hdescribes, -⟩
      simp [(checkCheckpoint_iff h hcall.purged_lt).mpr hdescribes] at hcheck
  | purgeFails hnext _ =>
      have hafter := nextLogIndex_of_forall_lt h.inOrder.purged
      exact absurd (hnext.symm.trans hafter) (by simp)
  | purged hnext hlt hrun =>
      have hafter := nextLogIndex_of_forall_lt h.inOrder.purged
      obtain rfl := Except.ok.inj (hnext.symm.trans hafter)
      refine ⟨[s'.view], [], .unrecorded ?_ hends ?_ (Stutters.skip (Stutters.nil _))⟩
      · rw [recorded_of_single hop, hrun]
        exact newSnapshots_self s'
      · rw [Op.isOk, hrun]
        exact .accepted (purge_skipped h hcall.caller hlt).symm

/-! ## The other calls -/

theorem refines_flush (hW : Lawful W) {sync : Bool} {callback : Option T.Callback}
    {s s' : RaftLog W} (hcompletes : Completes (.flush sync callback) s s')
    {hist : List (Snapshot T)} (hends : EndsWith hist s) :
    ∃ logs shown, Refines hist (.flush sync callback) s s' logs shown := by
  rcases hcompletes with hok | ⟨e, herror⟩
  · obtain ⟨hsteps, hnew⟩ := flush_steps (G := fun _ _ => True) hW hok
    have hrecorded : (Op.flush sync callback).recorded s = [] := by
      simp only [Op.recorded, hok, hnew]
    have hwritten : (W.view s'.wal).written = (W.view s.wal).written := by
      simpa using hsteps.written
    have hmachine : s'.stateMachine = s.stateMachine := by
      obtain ⟨wal₁, -, ⟨-, rfl⟩ | ⟨-, wal₂, -, rfl⟩⟩ := flush_ok hok <;> rfl
    refine ⟨[s.view], [], ?_, Stutters.skip (Stutters.nil _), by simp [hrecorded], ?_⟩
    · rw [Op.isOk, hok]
      exact .accepted rfl
    · rw [hrecorded, List.append_nil]
      exact ⟨hends.state.trans (congrArg RaftLogStateMachine.logState hmachine).symm,
        hends.log.trans (by rw [hmachine]), hwritten ▸ hends.written⟩
  · obtain ⟨e', he'⟩ := flush_error herror
    exact absurd he' (by simp)

theorem Coherent.append (hW : Lawful W) {logId : T.LogId} {payload : T.LogPayload}
    {s s₁ : RaftLog W} {segment : Segment} (h : Coherent s.journal)
    (hrec : (appendAndApply (.action (.append logId payload))).run s = .ok segment s₁)
    (hmax : T.logIndex logId < u64Max) : Coherent s₁.journal := by
  have hsteps := appendAndApply_steps (G := CoherentRecord) hW hrec
    fun _ => ⟨Or.inr h.inOrder.last, hmax⟩
  exact hsteps.journal_invariant (fun _ _ _ hj hstep => hj.step hstep) h

/-- An entry that is written. -/
theorem appended_entry (hW : Lawful W) {logId : T.LogId} {payload : T.LogPayload}
    {s s₁ : RaftLog W} {segment : Segment}
    (hrec : (appendAndApply (.action (.append logId payload))).run s = .ok segment s₁)
    (h : Coherent s.journal) (hmax : T.logIndex logId < u64Max) {hist : List (Snapshot T)}
    (hends : EndsWith hist s) :
    s.view.Follows logId ∧ s₁.view = s.view.put logId payload ∧ Coherent s₁.journal ∧
      EndsWith (hist ++ newSnapshots s s₁) s₁ ∧
      ∃ n, versions (hist ++ newSnapshots s s₁) =
        versions hist ++ List.replicate (n + 1) s₁.view := by
  have hcheck : s.logState.checkAppend logId = .ok () := (appendAndApply_ok hrec).1
  obtain ⟨hview, hends₁, hversions⟩ := shows_appendAndApply hW hrec h hmax hends
  exact ⟨(follows_iff h.inOrder.last).mp hcheck, hview, h.append hW hrec hmax, hends₁, hversions⟩

/-- The entries of an `append`, one after the other. -/
theorem refines_appendLoop (hW : Lawful W) {entries : List (T.LogId × T.LogPayload)}
    {s s' : RaftLog W} {rejection : Option (RaftLogStateError T)}
    (hloop : AppendEnds entries s s' rejection) (h : Coherent s.journal)
    (hindex : ∀ entry ∈ entries, T.logIndex entry.1 < u64Max)
    {hist : List (Snapshot T)} (hends : EndsWith hist s) :
    ∃ logs shown, s.view.Appends entries logs rejection.isNone ∧ Stutters s.view logs shown ∧
      versions (hist ++ recordedAppend entries s) = versions hist ++ shown ∧
      EndsWith (hist ++ recordedAppend entries s) s' := by
  induction hloop generalizing hist with
  | done s => exact ⟨[], [], .nil _, .nil _, by simp [recordedAppend], by simpa [recordedAppend]⟩
  | @next logId payload entries s s₁ s' segment rejection hrec _ ih =>
      have hmax : T.logIndex logId < u64Max := hindex (logId, payload) (by simp)
      obtain ⟨hfollows, hput, hcoherent₁, hends₁, n, hversions⟩ :=
        appended_entry hW hrec h hmax hends
      obtain ⟨logs, shown, hcall, hstutters, hversions', hends'⟩ := ih hcoherent₁
        (fun e he => hindex e (List.mem_cons_of_mem _ he)) hends₁
      simp only [recordedAppend, hrec]
      refine ⟨s₁.view :: logs, List.replicate (n + 1) s₁.view ++ shown, ?_,
        Stutters.repeated n hstutters, ?_, ?_⟩
      · rw [hput] at hcall ⊢
        exact .put hfollows hcall
      · rw [← List.append_assoc, hversions', hversions, List.append_assoc]
      · rwa [← List.append_assoc]
  | @rejected logId payload entries s e hrec =>
      simp only [recordedAppend, hrec]
      refine ⟨[], [], .stop fun hfollows => ?_, .nil _, by simp, by simpa⟩
      have hcheck : s.logState.checkAppend logId = .ok () :=
        (follows_iff h.inOrder.last).mpr hfollows
      have hreject : s.logState.checkAppend logId = .error (.state e) := check_of_rejected hrec
      exact absurd (hcheck.symm.trans hreject) (by simp)

/-- A completed call does to the view what the call says, and the history shows it. -/
theorem refines_call (hW : Lawful W) {op : Op T} {s s' : RaftLog W} (h : Coherent s.journal)
    (hcall : ConsistentCall s op) (hcompletes : Completes op s s') {hist : List (Snapshot T)}
    (hends : EndsWith hist s) : ∃ logs shown, Refines hist op s s' logs shown := by
  by_cases hop : op.IsSingle
  · exact refines_single hW hop h hcall hcompletes hends
  · cases op with
    | append entries =>
        obtain ⟨rejection, hloop⟩ := appendEnds_of_completes hcompletes
        obtain ⟨logs, shown, happends, hstutters, hversions, hends'⟩ :=
          refines_appendLoop hW hloop h hcall.entries_lt hends
        refine ⟨logs, shown, .append ?_, hstutters, hversions, hends'⟩
        rw [Op.isOk, run_exec_append, appendEnds_iff.mp hloop]
        cases rejection <;> exact happends
    | flush sync callback => exact refines_flush hW hcompletes hends
    | _ => exact absurd trivial hop

end RaftLogStore
