import RaftLogStore.Journal.Extension
import RaftLogStore.Model.Simulation

/-!
# The hard state never goes back

The vote, the committed and the purged log id never decrease while a store is open, and no
crash takes them back behind the last completed sync.  Nothing is assumed of the callers, but
that they do not replace the state with `update_state`.

Each accepted record leads to a hard state at or above the one before it, so the states of a
history ascend (`Ascending`).  A reopened store has the state of a prefix of the history, and
that prefix contains what was synced.
-/

namespace RaftLogStore

open RaftLog

variable {T : Types} {W : ChunkedWal T}

/-- The hard state of `st` is not ahead of that of `st'`. -/
structure HardStateLe (st st' : RaftLogState T) : Prop where
  vote : st.vote ≤ st'.vote
  committed : st.committed ≤ st'.committed
  purged : st.purged ≤ st'.purged

theorem HardStateLe.refl (st : RaftLogState T) : HardStateLe st st := ⟨le_rfl, le_rfl, le_rfl⟩

theorem HardStateLe.trans (st st' st'' : RaftLogState T) (h : HardStateLe st st')
    (h' : HardStateLe st' st'') : HardStateLe st st'' :=
  ⟨h.vote.trans h'.vote, h.committed.trans h'.committed, h.purged.trans h'.purged⟩

/-- A call other than `update_state`. -/
def NoUpdateState (_ : RaftLog W) : Op T → Prop
  | .updateState _ => False
  | _ => True

instance (s : RaftLog W) : (op : Op T) → Decidable (NoUpdateState s op)
  | .updateState _ => isFalse id
  | .saveVote _ | .saveUserData _ | .append _ | .truncate _ | .purge _ | .commit _
  | .flush _ _ => isTrue trivial

/-- A checkpoint of the current state, but for the user data. -/
def KeepsHardState (j : Journal T) : RaftLogRecord T → Prop
  | .checkpoint st => ∃ userData, st = { j.state with userData := userData }
  | _ => True

/-- A record that does not truncate, either. -/
def KeepsLast (j : Journal T) : RaftLogRecord T → Prop
  | .action (.truncateAfter _) => False
  | rec => KeepsHardState j rec

theorem KeepsLast.keepsHardState {j : Journal T} {rec : RaftLogRecord T} (h : KeepsLast j rec) :
    KeepsHardState j rec := by
  rcases rec with ⟨vote | ⟨logId, payload⟩ | logId | keep | upto⟩ | st <;> trivial

/-- What a call writes keeps `last`, if it is not a truncation. -/
theorem keepsLast_of_writes {s : RaftLog W} {op : Op T} (hop : NoUpdateState s op)
    {rec : RaftLogRecord T} (hwrites : op.Writes s rec) :
    KeepsLast s.journal rec ∨
      ∃ index keep, op = .truncate index ∧ rec = .action (.truncateAfter keep) := by
  cases op with
  | saveVote vote => exact Or.inl (hwrites ▸ trivial)
  | saveUserData userData => exact Or.inl (hwrites ▸ ⟨userData, rfl⟩)
  | append entries => exact hwrites.elim
  | truncate index =>
      obtain ⟨keep, -, hrec⟩ := hwrites
      exact Or.inr ⟨index, keep, rfl, hrec⟩
  | purge upto =>
      obtain ⟨next, -, -, hrec⟩ := hwrites
      exact Or.inl (hrec ▸ trivial)
  | commit logId => exact Or.inl (hwrites ▸ trivial)
  | updateState state => exact hop.elim
  | flush sync callback => exact hwrites.elim

theorem guarded_keepsHardState {s : RaftLog W} {op : Op T} (hop : NoUpdateState s op) :
    Guarded KeepsHardState op s := by
  refine ⟨fun rec hwrites _ => ?_, fun entries _ =>
    appendGuarded_of_forall (fun _ _ _ => trivial) s⟩
  rcases keepsLast_of_writes hop hwrites with hkeeps | ⟨index, keep, -, rfl⟩
  · exact hkeeps.keepsHardState
  · trivial

theorem guarded_keepsLast {s : RaftLog W} {op : Op T} (hop : NoUpdateState s op)
    (htruncate : ∀ index, op ≠ .truncate index) : Guarded KeepsLast op s := by
  refine ⟨fun rec hwrites _ => ?_, fun entries _ =>
    appendGuarded_of_forall (fun _ _ _ => trivial) s⟩
  rcases keepsLast_of_writes hop hwrites with hkeeps | ⟨index, keep, hindex, -⟩
  · exact hkeeps
  · exact absurd hindex (htruncate index)

/-! ## One record -/

/-- An accepted record does not take the hard state back. -/
theorem hardStateLe_update {j : Journal T} {rec : RaftLogRecord T} (hkeeps : KeepsHardState j rec)
    (hcheck : j.state.check rec = .ok ()) : HardStateLe j.state (j.state.update rec) := by
  rcases rec with ⟨vote | ⟨logId, payload⟩ | logId | keep | upto⟩ | st
  · exact ⟨RaftLogState.checkVote_eq_ok_iff.mp hcheck, le_rfl, le_rfl⟩
  · exact ⟨le_rfl, le_rfl, le_rfl⟩
  · exact ⟨le_rfl, (RaftLogState.checkCommit_eq_ok_iff.mp hcheck).1, le_rfl⟩
  · exact ⟨by simp [RaftLogState.update], by simp [RaftLogState.update],
      by simp [RaftLogState.update]⟩
  · exact ⟨by simp [RaftLogState.update], by simp [RaftLogState.update],
      by simp [RaftLogState.update]⟩
  · obtain ⟨userData, rfl⟩ := hkeeps
    exact ⟨le_rfl, le_rfl, le_rfl⟩

/-- An accepted record that does not truncate does not take `last` back. -/
theorem last_le_update {j : Journal T} {rec : RaftLogRecord T} (hkeeps : KeepsLast j rec)
    (hcheck : j.state.check rec = .ok ()) : j.state.last ≤ (j.state.update rec).last := by
  rcases rec with ⟨vote | ⟨logId, payload⟩ | logId | keep | upto⟩ | st
  · exact le_rfl
  · exact (RaftLogState.checkAppend_eq_ok_iff.mp hcheck).1.le
  · exact le_rfl
  · exact hkeeps.elim
  · simp [RaftLogState.update]
  · obtain ⟨userData, rfl⟩ := hkeeps
    exact le_rfl

/-! ## One step -/

/-- The state after a step that is not a call. -/
theorem logState_of_not_call {allowed : RaftLog W → Op T → Prop} {sys sys' : System W}
    {e : Event W} (h : System.Step allowed sys e sys') (hreopens : ¬ e.Reopens)
    (hcall : ∀ op, e ≠ .call op) : sys'.store.logState = sys.store.logState := by
  cases h with
  | call _ _ => exact absurd rfl (hcall _)
  | drainCache hdrain =>
      obtain ⟨cache, -, rfl⟩ := drainCacheEvictable_ok hdrain
      rfl
  | persisted checkpoint => rfl
  | @work request _ => cases request <;> rfl
  | unlinkFirst n _ => rfl
  | crash _ _ _ => exact absurd trivial hreopens
  | restart _ _ _ _ _ => exact absurd trivial hreopens

theorem step_hardState (hW : Lawful W) {sys sys' : System W} {e : Event W}
    (h : System.Step NoUpdateState sys e sys') (he : ¬ e.Reopens) :
    HardStateLe sys.store.logState sys'.store.logState := by
  by_cases hcall : ∀ op, e ≠ .call op
  · rw [logState_of_not_call h he hcall]
    exact HardStateLe.refl _
  · cases h with
    | call hallowed hcompletes =>
        exact (completes_steps hW (guarded_keepsHardState hallowed) hcompletes).state_rel
          HardStateLe.refl HardStateLe.trans fun _ _ => hardStateLe_update
    | _ => exact absurd (fun _ => by simp) hcall

/-- A completed truncation keeps `last`, or lowers it to a log id that is not below
`committed`. -/
theorem truncate_last {index : UInt64} {s s' : RaftLog W} (h : Completes (.truncate index) s s') :
    s.logState.last ≤ s'.logState.last ∨ s'.logState.committed ≤ s'.logState.last := by
  have hsingle : (Op.truncate index : Op T).IsSingle := trivial
  rcases completes_single hsingle h with rfl | ⟨rec, segment, s₁, ⟨keep, -, rfl⟩, hrec, hs'⟩
  · exact Or.inl le_rfl
  · have hstate : s'.logState = s.logState.truncateAfter keep := by
      have hafter := logState_appendAndApply hrec
      rcases hs' with rfl | rfl
      · exact hafter
      · rw [logState_bufferRemovableChunks]
        exact hafter
    have hcommitted : s.logState.committed ≤ keep :=
      RaftLogState.checkTruncate_eq_ok_iff.mp (appendAndApply_ok hrec).1
    rw [hstate, RaftLogState.truncateAfter_last, RaftLogState.truncateAfter_committed]
    rcases min_choice s.logState.last keep with hmin | hmin
    · exact Or.inl hmin.ge
    · rw [hmin]
      exact Or.inr hcommitted

theorem step_last (hW : Lawful W) {sys sys' : System W} {e : Event W}
    (h : System.Step NoUpdateState sys e sys') (he : ¬ e.Reopens)
    (hlt : sys'.store.logState.last < sys.store.logState.last) :
    (∃ index, e = .call (.truncate index)) ∧
      sys'.store.logState.committed ≤ sys'.store.logState.last := by
  by_cases hcall : ∀ op, e ≠ .call op
  · rw [logState_of_not_call h he hcall] at hlt
    exact absurd hlt (lt_irrefl _)
  · cases h with
    | @call op s hallowed hcompletes =>
        by_cases htruncate : ∀ index, op ≠ .truncate index
        · have hle := (completes_steps hW (guarded_keepsLast hallowed htruncate)
            hcompletes).state_rel (R := fun st st' => st.last ≤ st'.last)
            (fun _ => le_rfl) (fun _ _ _ => le_trans) fun _ _ => last_le_update
          exact absurd hlt (not_lt.mpr hle)
        · push Not at htruncate
          obtain ⟨index, rfl⟩ := htruncate
          refine ⟨⟨index, rfl⟩, (truncate_last hcompletes).resolve_left ?_⟩
          exact not_le.mpr hlt
    | _ => exact absurd (fun _ => by simp) hcall

/-! ## The whole history -/

/-- The hard states along a history ascend. -/
def Ascending (hist : List (Snapshot T)) : Prop :=
  ∀ n m, n ≤ m → HardStateLe (endState (hist.take n)) (endState (hist.take m))

theorem Ascending.take {hist : List (Snapshot T)} (h : Ascending hist) (r : ℕ) :
    Ascending (hist.take r) := by
  intro n m hnm
  rw [List.take_take, List.take_take]
  exact h _ _ (by omega)

theorem Ascending.concat {hist : List (Snapshot T)} {snap : Snapshot T} (h : Ascending hist)
    (hle : HardStateLe (endState hist) snap.state) : Ascending (hist ++ [snap]) := by
  intro n m hnm
  rcases Nat.lt_or_ge hist.length m with hm | hm
  · rw [List.take_of_length_le (l := hist ++ [snap]) (i := m) (by simp; omega), endState_concat]
    rcases Nat.lt_or_ge hist.length n with hn | hn
    · rw [List.take_of_length_le (by simp; omega), endState_concat]
      exact HardStateLe.refl _
    · rw [List.take_append_of_le_length hn]
      have hwhole := h n hist.length hn
      rw [List.take_length] at hwhole
      exact hwhole.trans _ _ _ hle
  · rw [List.take_append_of_le_length hm, List.take_append_of_le_length (hnm.trans hm)]
    exact h n m hnm

/-- What holds of every ledger that calls other than `update_state` lead to. -/
structure HardStateKept (a : Ledger T) : Prop where
  accounted : Accounted Passed a
  ascending : Ascending a.hist

namespace HardStateKept

theorem rule : HistoryRule (T := T) KeepsHardState Ascending where
  nil := by
    intro n m _
    simp [HardStateLe.refl]
  take r h := h.take r
  checkpoint _ _ h := h.concat (HardStateLe.refl _)
  write _ hstate hg hcheck h := h.concat (hstate ▸ hardStateLe_update hg hcheck)

theorem initial {j : Journal T} (hloaded : Loaded [] j) :
    HardStateKept ((Ledger.blank j).reopened 0 [] j) :=
  ⟨Accounted.initial hloaded, rule.initial hloaded⟩

theorem step {a a' : Ledger T} (h : HardStateKept a) (hstep : Ledger.Step KeepsHardState a a') :
    HardStateKept a' :=
  ⟨h.accounted.step_passed hstep, rule.step h.accounted hstep h.ascending⟩

theorem of_reachable (hW : Lawful W) {sys : System W}
    (h : System.Reachable NoUpdateState sys) : HardStateKept sys.ledger :=
  h.ledger_invariant hW (fun _ _ _ hallowed => guarded_keepsHardState hallowed)
    (fun _ ha => ha.accounted.recorded.history.sorted) (fun _ => initial)
    (fun _ _ ha hstep => ha.step hstep)

end HardStateKept

/-- Along a history the hard state of any prefix is below the one at the end. -/
theorem Ascending.of_isPrefix {pre hist : List (Snapshot T)} (h : Ascending hist)
    (hpre : pre <+: hist) : HardStateLe (endState pre) (endState hist) := by
  have hle := h pre.length hist.length hpre.length_le
  rwa [List.take_length, ← List.prefix_iff_eq_take.mp hpre] at hle

/-! ## Synced records -/

/-- The request that a sync flush has put behind the queue, and the records it covers. -/
theorem flush_request (hW : Lawful W) {callback : Option T.Callback} {s s' : RaftLog W}
    (h : Completes (.flush true callback) s s') :
    (W.view s'.wal).queue[(W.view s.wal).queue.length]? =
      some (.write true (W.view s.wal).written.length) := by
  rcases h with h | ⟨e, h⟩
  · obtain ⟨wal₁, hsend, hcases⟩ := flush_ok h
    obtain ⟨-, -, hview₁⟩ := hW.sendPending_ok hsend
    rcases hcases with ⟨-, rfl⟩ | ⟨-, wal₂, hremove, rfl⟩
    · simp [hview₁]
    · obtain ⟨-, -, hview₂⟩ := hW.sendRemoveChunks_ok hremove
      simp [hview₂, hview₁]
  · obtain ⟨e', he'⟩ := flush_error h
    exact absurd he' (by simp)

/-- Once the worker has handled the request of a sync flush, the records written before the
flush are synced, and are in the history for good. -/
theorem synced_of_flush (hW : Lawful W) {sys flushed synced : System W}
    {callback : Option T.Callback} {events : List (Event W)}
    (h : System.Reachable NoUpdateState sys)
    (hflush : System.Step NoUpdateState sys (.call (.flush true callback)) flushed)
    (hrun : Transition.Run (System.Step NoUpdateState) flushed events synced)
    (hevents : ∀ e ∈ events, ¬ e.Reopens) (hhandled : sys.queue.length < synced.handled) :
    sys.hist <+: synced.hist ∧ sys.hist.length ≤ synced.synced := by
  have hflushed := hflush.extends hW id
  have hsynced := System.run_extends hW hrun hevents
  have hreachable : System.Reachable NoUpdateState synced := by
    obtain ⟨sys₀, events₀, hinitial, hrun₀⟩ := h
    exact ⟨sys₀, _, hinitial, (Transition.Run.snoc hrun₀ hflush).trans hrun⟩
  have hbehind : flushed.queue[sys.queue.length]? =
      some (.write true (W.view sys.store.wal).written.length) := by
    cases hflush with
    | call _ hcompletes => exact flush_request hW hcompletes
  have hrequest : synced.queue[sys.queue.length]? =
      some (.write true (W.view sys.store.wal).written.length) := by
    have hlt := (List.getElem?_eq_some_iff.mp hbehind).1
    obtain ⟨rest, hrest⟩ := hsynced.queue
    rw [← hrest, List.getElem?_append_left hlt]
    exact hbehind
  have hcovered := (HardStateKept.of_reachable hW hreachable).accounted.ordered.handled_sync _
    hhandled _ hrequest
  -- the position of the request is the length of the history at the flush
  have hbase := (HardStateKept.of_reachable hW h).accounted.recorded.base_add
  have hsame : synced.base = sys.base := hsynced.base.trans hflushed.base
  refine ⟨hflushed.hist.trans hsynced.hist, ?_⟩
  calc sys.hist.length = sys.base + (W.view sys.store.wal).written.length := hbase.symm
    _ = synced.base + (W.view sys.store.wal).written.length := by rw [hsame]
    _ ≤ synced.synced := hcovered

/-- What is synced stays in the history through every restart. -/
theorem synced_kept (hW : Lawful W) {allowed : RaftLog W → Op T → Prop} {sys later : System W}
    {events : List (Event W)} {hist : List (Snapshot T)}
    (hrun : Transition.Run (System.Step allowed) sys events later)
    (hsynced : hist <+: sys.hist ∧ hist.length ≤ sys.synced) :
    hist <+: later.hist ∧ hist.length ≤ later.synced := by
  refine hrun.invariant (I := fun s => hist <+: s.hist ∧ hist.length ≤ s.synced) ?_ hsynced
  intro s e s' ⟨hpre, hlen⟩ hstep
  obtain ⟨hkept, hle⟩ := hstep.synced_isPrefix hW
  have htake : hist <+: s.hist.take s.synced := List.prefix_take_iff.mpr ⟨hpre, hlen⟩
  exact ⟨htake.trans hkept, hlen.trans hle⟩

/-! ## No regression -/

/-- Between two steps without a restart the hard state does not decrease, and `last` only by a
truncation, which does not go below `committed`.  And once the sync of a flush is done, no
later state falls back behind the hard state at the time of that flush, whatever crashes and
restarts come in between. -/
theorem hard_state_never_regresses (hW : Lawful W) {sys : System W}
    (h : System.Reachable NoUpdateState sys) :
    (∀ e sys', System.Step NoUpdateState sys e sys' → ¬ e.Reopens →
      HardStateLe sys.store.logState sys'.store.logState ∧
        (sys'.store.logState.last < sys.store.logState.last →
          (∃ index, e = .call (.truncate index)) ∧
            sys'.store.logState.committed ≤ sys'.store.logState.last)) ∧
    ∀ callback flushed events synced events' later,
      System.Step NoUpdateState sys (.call (.flush true callback)) flushed →
      Transition.Run (System.Step NoUpdateState) flushed events synced →
      (∀ e ∈ events, ¬ e.Reopens) → sys.queue.length < synced.handled →
      Transition.Run (System.Step NoUpdateState) synced events' later →
      HardStateLe sys.store.logState later.store.logState := by
  constructor
  · intro e sys' hstep he
    exact ⟨step_hardState hW hstep he, step_last hW hstep he⟩
  · intro callback flushed events synced events' later hflush hrun hevents hhandled hrun'
    have hsynced := synced_of_flush hW h hflush hrun hevents hhandled
    have hprefix := (synced_kept hW hrun' hsynced).1
    have hlater : System.Reachable NoUpdateState later := by
      obtain ⟨sys₀, events₀, hinitial, hrun₀⟩ := h
      exact ⟨sys₀, _, hinitial, ((Transition.Run.snoc hrun₀ hflush).trans hrun).trans hrun'⟩
    have hstate : sys.store.logState = endState sys.hist :=
      (HardStateKept.of_reachable hW h).accounted.recorded.state
    have hkept := HardStateKept.of_reachable hW hlater
    have hlast : later.store.logState = endState later.hist := hkept.accounted.recorded.state
    rw [hstate, hlast]
    exact hkept.ascending.of_isPrefix hprefix

/-- A store with a vote and a commit that are not synced yet. -/
def votedSystem : System (memoryWal (exampleTypes true)) :=
  (System.simulate NoUpdateState (chunksOfSize true 3)
    [.call (.saveVote ⟨1, 7⟩), .call (.append [(⟨1, 0⟩, 5), (⟨1, 1⟩, 6)]),
      .call (.commit ⟨1, 0⟩)]).get (by decide +kernel)

def flushedSystem : System (memoryWal (exampleTypes true)) :=
  (System.perform NoUpdateState votedSystem (.call (.flush true none))).get (by decide +kernel)

def workerSyncs : List (Event (memoryWal (exampleTypes true))) :=
  [.call (.saveUserData (some 3)), .work, .work, .work]

def syncedSystem : System (memoryWal (exampleTypes true)) :=
  (System.performAll NoUpdateState workerSyncs flushedSystem).get (by decide +kernel)

/-- The crash takes a later vote and the user data, but not what was synced. -/
def crashAfterVote : List (Event (memoryWal (exampleTypes true))) :=
  [.call (.saveVote ⟨2, 7⟩), .crash 7 (chunksOfSize true 3)]

def crashedSystem : System (memoryWal (exampleTypes true)) :=
  (System.performAll NoUpdateState crashAfterVote syncedSystem).get (by decide +kernel)

theorem hard_state_never_regresses_crashedSystem :
    HardStateLe votedSystem.store.logState crashedSystem.store.logState ∧
      votedSystem.store.logState.vote = some ⟨1, 7⟩ ∧
      votedSystem.store.logState.committed = some ⟨1, 0⟩ :=
  ⟨(hard_state_never_regresses (memoryWal_lawful _) (System.reachable_get _)).2 none
    flushedSystem workerSyncs syncedSystem crashAfterVote crashedSystem
    (System.step_of_perform (Option.some_get _).symm)
    (System.run_of_performAll (Option.some_get _).symm)
    (by simp [workerSyncs, Event.Reopens]) (by decide +kernel)
    (System.run_of_performAll (Option.some_get _).symm), by decide +kernel, by decide +kernel⟩

end RaftLogStore
