import RaftLogStore.Journal.States
import RaftLogStore.Results.Restart

/-!
# The store invariant

The map is cut by index, the state is moved by log id, and `update_state` replaces the state
without touching the map.  As long as the callers keep the two orders in step, the map and the
state describe one log all the same.

Nothing has to be assumed of an index that might wrap, if no call names `u64::MAX`: then no
index in the state is `u64::MAX` either (`StateInOrder`), so the calls are `Guaranteed` ones.
-/

namespace RaftLogStore

open RaftLog

variable {T : Types} {W : ChunkedWal T}

/-- The log map and the log state describe one log. -/
structure StoreInvariant (st : RaftLogState T) (log : OrderedMap ℕ (LogData T)) : Prop where
  key {k : ℕ} {d : LogData T} : log.get k = some d → k = T.logIndex d.logId
  contiguous {k k' m : ℕ} {d d' : LogData T} :
    log.get k = some d → log.get k' = some d' → k ≤ m → m ≤ k' → ∃ e, log.get m = some e
  increasing {k k' : ℕ} {d d' : LogData T} :
    log.get k = some d → log.get k' = some d' → k < k' → d.logId < d'.logId
  last : log ≠ ∅ → ∃ k d, log.get k = some d ∧ st.last = some d.logId ∧
    ∀ k' d', log.get k' = some d' → d'.logId ≤ d.logId
  above {k : ℕ} {d : LogData T} : log.get k = some d →
    st.purged < some d.logId ∧ st.purged.map T.logIndex < some (T.logIndex d.logId)
  purged : st.purged ≤ st.last ∧ st.purged.map T.logIndex ≤ st.last.map T.logIndex
  committed : st.committed ≤ st.last

/-! ## The calls -/

/-- The log ids that a call names. -/
def Op.logIds : Op T → List T.LogId
  | .append entries => entries.map Prod.fst
  | .purge upto => [upto]
  | .commit logId => [logId]
  | .updateState state => state.last.toList ++ state.committed.toList ++ state.purged.toList
  | _ => []

/-- `update_state` is given a state with `committed` at or below `last`. -/
def CommittedLeLast : Op T → Prop
  | .updateState state => state.committed ≤ state.last
  | _ => True

/-- A call that keeps the two orders in step and does not name the last index of all. -/
structure ConsistentCall (s : RaftLog W) (op : Op T) : Prop where
  caller : CallerGuarantee s op
  committed : CommittedLeLast op
  index : ∀ logId ∈ op.logIds, T.logIndex logId < u64Max

instance : (op : Op T) → Decidable (CommittedLeLast op)
  | .updateState state => inferInstanceAs (Decidable (state.committed ≤ state.last))
  | .saveVote _ | .saveUserData _ | .append _ | .truncate _ | .purge _ | .commit _
  | .flush _ _ => isTrue trivial

instance (s : RaftLog W) (op : Op T) : Decidable (ConsistentCall s op) :=
  decidable_of_iff (CallerGuarantee s op ∧ CommittedLeLast op ∧
      ∀ logId ∈ op.logIds, T.logIndex logId < u64Max)
    ⟨fun ⟨hcaller, hcommitted, hindex⟩ => ⟨hcaller, hcommitted, hindex⟩,
      fun h => ⟨h.caller, h.committed, h.index⟩⟩

theorem ConsistentCall.entries_lt {s : RaftLog W} {entries : List (T.LogId × T.LogPayload)}
    (h : ConsistentCall s (.append entries)) : ∀ entry ∈ entries, T.logIndex entry.1 < u64Max :=
  fun entry hentry => h.index _ (List.mem_map.mpr ⟨entry, hentry, rfl⟩)

theorem ConsistentCall.purged_lt {s : RaftLog W} {state : RaftLogState T}
    (h : ConsistentCall s (.updateState state)) : ∀ p ∈ state.purged, T.logIndex p < u64Max :=
  fun p hp => h.index p (by simp [Op.logIds, Option.mem_def.mp hp])

/-! ## The state -/

/-- `committed` is at or below `last`, and no index in the state is the last index of all. -/
structure StateInOrder (st : RaftLogState T) : Prop where
  committed : st.committed ≤ st.last
  last : ∀ l ∈ st.last, T.logIndex l < u64Max
  purged : ∀ p ∈ st.purged, T.logIndex p < u64Max

/-- The record does not name the last index of all, and a checkpoint is in order. -/
def RecordInOrder : RaftLogRecord T → Prop
  | .action (.saveVote _) => True
  | .action (.append logId _) => T.logIndex logId < u64Max
  | .action (.commit _) => True
  | .action (.truncateAfter keep) => ∀ k ∈ keep, T.logIndex k < u64Max
  | .action (.purgeUpto upto) => T.logIndex upto < u64Max
  | .checkpoint st => StateInOrder st

theorem StateInOrder.update {st : RaftLogState T} {rec : RaftLogRecord T} (h : StateInOrder st)
    (hrec : RecordInOrder rec) (hcheck : st.check rec = .ok ()) : StateInOrder (st.update rec) := by
  have hcommitted := RaftLogState.committed_le_update h.committed hcheck fun st' heq => by
    subst heq
    exact hrec.committed
  refine ⟨hcommitted, ?_, ?_⟩
  · rcases rec with ⟨vote | ⟨logId, payload⟩ | logId | keep | upto⟩ | st'
    · exact h.last
    · exact fun l hl => Option.some.inj hl ▸ hrec
    · exact h.last
    · intro l hl
      simp only [RaftLogState.update, RaftLogState.truncateAfter_last] at hl
      rcases min_choice st.last keep with hmin | hmin
      · exact h.last l (hmin ▸ hl)
      · exact hrec l (hmin ▸ hl)
    · intro l hl
      simp only [RaftLogState.update, RaftLogState.purge_last] at hl
      rcases max_choice st.last (some upto) with hmax | hmax
      · exact h.last l (hmax ▸ hl)
      · rw [hmax] at hl
        exact Option.some.inj hl ▸ hrec
    · exact hrec.last
  · rcases rec with ⟨vote | ⟨logId, payload⟩ | logId | keep | upto⟩ | st'
    · exact h.purged
    · exact h.purged
    · exact h.purged
    · simpa only [RaftLogState.update, RaftLogState.truncateAfter_purged] using h.purged
    · intro p hp
      simp only [RaftLogState.update, RaftLogState.purge_purged] at hp
      rcases max_choice st.purged (some upto) with hmax | hmax
      · exact h.purged p (hmax ▸ hp)
      · rw [hmax] at hp
        exact Option.some.inj hp ▸ hrec
    · exact hrec.purged

/-! ## The calls in such a state -/

theorem appendsNoWrap_of_lt {entries : List (T.LogId × T.LogPayload)} {st : RaftLogState T}
    (hlast : ∀ l ∈ st.last, T.logIndex l < u64Max)
    (hentries : ∀ entry ∈ entries, T.logIndex entry.1 < u64Max) : AppendsNoWrap st entries := by
  induction entries generalizing st with
  | nil => trivial
  | cons entry entries ih =>
      refine fun _ => ⟨Or.inr hlast, ih ?_ fun e he => hentries e (List.mem_cons_of_mem _ he)⟩
      intro l hl
      exact Option.some.inj hl ▸ hentries entry (by simp)

theorem ConsistentCall.noIndexWrap {s : RaftLog W} {op : Op T} (h : ConsistentCall s op)
    (hstate : StateInOrder s.logState) : NoIndexWrap s op := by
  cases op with
  | append entries =>
      refine appendsNoWrap_of_lt hstate.last fun entry hentry => h.index _ ?_
      exact List.mem_map.mpr ⟨entry, hentry, rfl⟩
  | purge upto =>
      have hindex := h.index upto (by simp [Op.logIds])
      exact Or.inr (Or.inr fun l hl => Option.some.inj hl ▸ hindex)
  | updateState state =>
      refine fun _ => Or.inr (Or.inr fun l hl => h.index l ?_)
      simp [Op.logIds, Option.mem_def.mp hl]
  | _ => trivial

/-- The records of the call are in order. -/
theorem ConsistentCall.guarded {s : RaftLog W} {op : Op T} (h : ConsistentCall s op)
    (hstate : StateInOrder s.logState)
    (hagree : Agreement s.logState s.stateMachine.log) :
    Guarded (fun j rec => GoodRecord j rec ∧ RecordInOrder rec) op s := by
  refine (guarded_good h.caller (h.noIndexWrap hstate)).and ⟨fun rec hwrites _ => ?_, ?_⟩
  · cases op with
    | saveVote vote => rw [hwrites]; trivial
    | saveUserData userData =>
        rw [hwrites]
        exact ⟨hstate.committed, hstate.last, hstate.purged⟩
    | append entries => exact hwrites.elim
    | truncate index =>
        obtain ⟨keep, hkeep, rfl⟩ := hwrites
        rcases truncateKeep_ok hkeep with hpurged | ⟨k, d, hget, hk, hd, -⟩
        · exact hpurged ▸ hstate.purged
        · -- what is kept is held at an index below the one to truncate at
          intro l hl
          obtain rfl := Option.some.inj (hd.symm.trans hl)
          rw [hagree.key hget]
          exact hk
    | purge upto =>
        obtain ⟨next, -, -, rfl⟩ := hwrites
        exact h.index upto (by simp [Op.logIds])
    | commit logId => rw [hwrites]; trivial
    | updateState state =>
        obtain ⟨-, rfl⟩ := hwrites
        refine ⟨h.committed, fun l hl => h.index l ?_, fun p hp => h.index p ?_⟩
        · simp [Op.logIds, Option.mem_def.mp hl]
        · simp [Op.logIds, Option.mem_def.mp hp]
    | flush sync callback => exact hwrites.elim
  · rintro entries rfl
    refine appendGuarded_of_forall (fun entry hentry _ => h.index _ ?_) s
    exact List.mem_map.mpr ⟨entry, hentry, rfl⟩

/-! ## Every run -/

theorem inOrder_of_reachable (hW : Lawful W) {sys : System W}
    (h : System.Reachable ConsistentCall sys) :
    Restartable sys.ledger ∧ StatesKept StateInOrder sys.ledger := by
  refine System.Reachable.ledger_invariant
    (G := fun j rec => GoodRecord j rec ∧ RecordInOrder rec)
    (I := fun a => Restartable a ∧ StatesKept StateInOrder a) hW ?_ ?_ ?_ ?_ h
  · intro sys op hI hcall
    obtain ⟨hrestartable, hkept⟩ := hI
    have hagree := hrestartable.live.agreement hrestartable.accounted.recorded
    exact hcall.guarded hkept.state hagree.1
  · exact fun a ha => ha.1.accounted.recorded.history.sorted
  · intro j hloaded
    refine ⟨Restartable.initial hloaded, StatesKept.initial ?_ hloaded⟩
    exact ⟨le_rfl, by simp [RaftLogState.default], by simp [RaftLogState.default]⟩
  · intro a a' ha hstep
    obtain ⟨hrestartable, hkept⟩ := ha
    refine ⟨hrestartable.step (hstep.mono fun _ _ hG => hG.1), ?_⟩
    refine hkept.step (P := fun _ rec => RecordInOrder rec) ?_ (hstep.mono fun _ _ hG => hG.2)
    exact fun st rec hst hrec hcheck => hst.update hrec hcheck

/-- The agreement and its two orders, with everything spelled out. -/
theorem StoreInvariant.of_agreement {st : RaftLogState T} {log : OrderedMap ℕ (LogData T)}
    (h : Agreement st log) (hpurged : PurgedLeLast st) (hcommitted : st.committed ≤ st.last) :
    StoreInvariant st log := by
  refine ⟨fun hget => (h.key hget).symm, h.contiguous, h.increasing, fun hne => ?_, fun hget => ?_,
    ⟨hpurged.logId, hpurged.index⟩, hcommitted⟩
  · obtain ⟨⟨k, d⟩, hlast⟩ : ∃ e, log.lastKeyValue = some e := by
      refine Option.ne_none_iff_exists'.mp fun hnone => hne ?_
      exact OrderedMap.eq_empty_iff.mpr (OrderedMap.lastKeyValue_eq_none_iff.mp hnone)
    refine ⟨k, d, (OrderedMap.lastKeyValue_eq_some hlast).1, h.last hlast, fun k' d' hget' => ?_⟩
    have hle := h.held_le_last hget'
    rwa [h.last hlast, Option.some_le_some] at hle
  · obtain ⟨hlt, hindex⟩ := h.above hget
    refine ⟨hlt, ?_⟩
    rw [h.key hget]
    cases hp : st.purged with
    | none => exact Option.none_lt_some
    | some p =>
        rw [hp] at hindex
        exact Option.some_lt_some.mpr hindex

/-- In every state that consistent calls lead to, whether they are accepted or rejected, the map
and the state describe one log. -/
theorem store_invariant (hW : Lawful W) {sys : System W}
    (h : System.Reachable ConsistentCall sys) :
    StoreInvariant sys.store.logState sys.store.stateMachine.log := by
  obtain ⟨hrestartable, hkept⟩ := inOrder_of_reachable hW h
  obtain ⟨hagree, hpurged⟩ := hrestartable.live.agreement hrestartable.accounted.recorded
  exact StoreInvariant.of_agreement hagree hpurged hkept.state.committed

/-- A truncated tail, a purge past the end, a rejected append, and a state that is replaced. -/
def consistentCalls : List (Event (memoryWal (exampleTypes false))) :=
  [.call (.append [(⟨1, 0⟩, 5), (⟨1, 1⟩, 6)]), .call (.commit ⟨1, 0⟩), .call (.truncate 1),
    .call (.purge ⟨2, 4⟩), .call (.append [(⟨2, 5⟩, 8), (⟨1, 6⟩, 9)]),
    .call (.updateState ⟨none, some ⟨2, 5⟩, none, some ⟨2, 4⟩, none⟩),
    .call (.append [(⟨3, 6⟩, 9)])]

def consistentSystem : System (memoryWal (exampleTypes false)) :=
  (System.simulate ConsistentCall (chunksOfSize false 3) consistentCalls).get (by decide +kernel)

theorem store_invariant_consistentSystem :
    StoreInvariant consistentSystem.store.logState consistentSystem.store.stateMachine.log ∧
      consistentSystem.store.stateMachine.log.len = 2 :=
  ⟨store_invariant (memoryWal_lawful _) (System.reachable_get _), by decide +kernel⟩

end RaftLogStore
