import RaftLogStore.Journal.Reopening

/-!
# Invariants of the log state

What every admitted record preserves of the log state holds in every reachable system.  A
restart is no exception: it finds the state at the end of some prefix of the history, which the
live store once had (`Recorded.reopened`).
-/

namespace RaftLogStore

open RaftLog

variable {T : Types} {W : ChunkedWal T}

/-! ## Admitted calls -/

/-- Each entry that is accepted after those before it is one that `P` admits. -/
def EntriesAdmitted (P : RaftLogState T → RaftLogRecord T → Prop) :
    RaftLogState T → List (T.LogId × T.LogPayload) → Prop
  | _, [] => True
  | st, (logId, payload) :: entries =>
      st.checkAppend logId = .ok () →
        P st (.action (.append logId payload)) ∧
          EntriesAdmitted P { st with last := some logId } entries

/-- Each record that the call writes, if it is accepted, is one that `P` admits. -/
def Op.Admitted (P : RaftLogState T → RaftLogRecord T → Prop) (op : Op T) (s : RaftLog W) : Prop :=
  match op with
  | .append entries => EntriesAdmitted P s.logState entries
  | op => ∀ rec, op.Writes s rec → s.logState.check rec = .ok () → P s.logState rec

instance EntriesAdmitted.decidable (P : RaftLogState T → RaftLogRecord T → Prop)
    [∀ st rec, Decidable (P st rec)] : (entries : List (T.LogId × T.LogPayload)) →
    (st : RaftLogState T) → Decidable (EntriesAdmitted P st entries)
  | [], _ => isTrue trivial
  | (logId, _) :: entries, st =>
      have := EntriesAdmitted.decidable P entries { st with last := some logId }
      inferInstanceAs (Decidable (_ → _ ∧ _))

/-- The record a call writes, if it writes one. -/
def Op.record (op : Op T) (s : RaftLog W) : Option (RaftLogRecord T) :=
  match op with
  | .saveVote vote => some (.action (.saveVote vote))
  | .saveUserData userData => some (.checkpoint { s.logState with userData := userData })
  | .append _ => none
  | .truncate index =>
      match s.truncateKeep index.toNat with
      | .ok keep => some (.action (.truncateAfter keep))
      | .error _ => none
  | .purge upto =>
      match T.nextLogIndex s.logState.purged with
      | .ok next => if T.logIndex upto < next then none else some (.action (.purgeUpto upto))
      | .error _ => none
  | .commit logId => some (.action (.commit logId))
  | .updateState state =>
      match s.stateMachine.checkCheckpoint state with
      | .ok () => some (.checkpoint state)
      | .error _ => none
  | .flush _ _ => none

theorem Op.record_eq_some_iff {op : Op T} {s : RaftLog W} {rec : RaftLogRecord T} :
    op.record s = some rec ↔ op.Writes s rec := by
  cases op with
  | truncate index =>
      cases h : s.truncateKeep index.toNat <;> simp [Op.record, Op.Writes, h, eq_comm]
  | purge upto =>
      cases h : T.nextLogIndex s.logState.purged with
      | error failure => simp [Op.record, Op.Writes, h]
      | ok next =>
          by_cases hlt : T.logIndex upto < next
          · simp [Op.record, Op.Writes, h, hlt]
          · simp [Op.record, Op.Writes, h, hlt, not_lt.mp hlt, eq_comm]
  | updateState state =>
      cases h : s.stateMachine.checkCheckpoint state <;> simp [Op.record, Op.Writes, h, eq_comm]
  | _ => simp [Op.record, Op.Writes, eq_comm]

instance (P : RaftLogState T → RaftLogRecord T → Prop) [∀ st rec, Decidable (P st rec)]
    (op : Op T) (s : RaftLog W) : Decidable (op.Admitted P s) :=
  match op with
  | .append entries => EntriesAdmitted.decidable P entries s.logState
  | .saveVote _ | .saveUserData _ | .truncate _ | .purge _ | .commit _ | .updateState _
  | .flush _ _ =>
      decidable_of_iff (∀ rec ∈ Op.record _ s, s.logState.check rec = .ok () → P s.logState rec)
        (forall_congr' fun _ => imp_congr_left Op.record_eq_some_iff)

theorem EntriesAdmitted.guarded {P : RaftLogState T → RaftLogRecord T → Prop}
    {entries : List (T.LogId × T.LogPayload)} {s : RaftLog W}
    (h : EntriesAdmitted P s.logState entries) :
    AppendGuarded (fun j rec => P j.state rec) entries s := by
  induction entries generalizing s with
  | nil => trivial
  | cons entry entries ih =>
      obtain ⟨logId, payload⟩ := entry
      refine ⟨fun hcheck => (h hcheck).1, fun segment s₁ hrec => ih ?_⟩
      rw [logState_appendAndApply hrec]
      exact (h (appendAndApply_ok hrec).1).2

theorem Op.Admitted.guarded {P : RaftLogState T → RaftLogRecord T → Prop} {op : Op T}
    {s : RaftLog W} (h : op.Admitted P s) : Guarded (fun j rec => P j.state rec) op s := by
  constructor
  · intro rec hwrites hcheck
    cases op with
    | append entries => exact hwrites.elim
    | _ => exact h rec hwrites hcheck
  · rintro entries rfl
    exact EntriesAdmitted.guarded h

/-! ## The invariant -/

/-- Every state of the history satisfies `I`, and so does the one before it. -/
structure StatesKept (I : RaftLogState T → Prop) (a : Ledger T) : Prop where
  accounted : Accounted Passed a
  start : I RaftLogState.default
  states : ∀ snap ∈ a.hist, I snap.state

namespace StatesKept

variable {I : RaftLogState T → Prop} {a a' : Ledger T}

theorem endState_of_forall {hist : List (Snapshot T)} (hstart : I RaftLogState.default)
    (h : ∀ snap ∈ hist, I snap.state) : I (endState hist) := by
  rcases List.eq_nil_or_concat' hist with rfl | ⟨front, last, rfl⟩
  · exact hstart
  · rw [endState_concat]
    exact h last (by simp)

theorem state (h : StatesKept I a) : I a.journal.state := by
  rw [h.accounted.recorded.state]
  exact endState_of_forall h.start h.states

/-- The states that the records of `P` lead to satisfy `I` if it holds before. -/
theorem rule {P : RaftLogState T → RaftLogRecord T → Prop} (hstart : I RaftLogState.default)
    (hP : ∀ st rec, I st → P st rec → st.check rec = .ok () → I (st.update rec)) :
    HistoryRule (fun j rec => P j.state rec) fun hist => ∀ snap ∈ hist, I snap.state := by
  have hadd {hist : List (Snapshot T)} {snap : Snapshot T} (h : ∀ snap ∈ hist, I snap.state)
      (hsnap : I snap.state) : ∀ snap' ∈ hist ++ [snap], I snap'.state :=
    List.forall_mem_append.mpr ⟨h, List.forall_mem_singleton.mpr hsnap⟩
  exact {
    nil := by simp
    take := fun n h snap hsnap => h snap (List.mem_of_mem_take hsnap)
    checkpoint := fun l log h => hadd h (endState_of_forall hstart h)
    write := fun log hstate hg hcheck h =>
      hadd h (hP _ _ (hstate ▸ endState_of_forall hstart h) hg hcheck) }

theorem initial (hstart : I RaftLogState.default) {j : Journal T} (hloaded : Loaded [] j) :
    StatesKept I ((Ledger.blank j).reopened 0 [] j) := by
  have hrule := rule (P := fun _ _ => False) hstart fun _ _ _ hfalse => hfalse.elim
  exact ⟨Accounted.initial hloaded, hstart, hrule.initial hloaded⟩

theorem step {P : RaftLogState T → RaftLogRecord T → Prop}
    (hP : ∀ st rec, I st → P st rec → st.check rec = .ok () → I (st.update rec))
    (h : StatesKept I a) (hstep : Ledger.Step (fun j rec => P j.state rec) a a') :
    StatesKept I a' :=
  ⟨h.accounted.step_passed hstep, h.start, (rule h.start hP).step h.accounted hstep h.states⟩

end StatesKept

/-- What holds of the empty state and is kept by every record that the calls may write holds in
every reachable system. -/
theorem System.Reachable.state_invariant (hW : Lawful W) {allowed : RaftLog W → Op T → Prop}
    {I : RaftLogState T → Prop} {P : RaftLogState T → RaftLogRecord T → Prop}
    (hallowed : ∀ s op, allowed s op → Guarded (fun j rec => P j.state rec) op s)
    (hstart : I RaftLogState.default)
    (hP : ∀ st rec, I st → P st rec → st.check rec = .ok () → I (st.update rec))
    {sys : System W} (h : System.Reachable allowed sys) : I sys.store.logState := by
  have hkept : StatesKept I sys.ledger :=
    h.ledger_invariant hW (fun sys op _ => hallowed sys.store op)
      (fun _ ha => ha.accounted.recorded.history.sorted) (fun _ => StatesKept.initial hstart)
      (fun _ _ ha hstep => ha.step hP hstep)
  exact hkept.state

end RaftLogStore
