import RaftLogStore.Results.HardState
import RaftLogStore.Results.Restart

/-!
# Committed entries stay

`truncate` is guarded by log id and cuts by index, and `append` writes into the map without a
look at what is there.  That neither takes back a committed entry is due to the agreement of the
map with the state: an entry at or below `committed` lies below whatever a truncation keeps, and
below the index of the next append.

It is lost where `next_log_index` wraps around at `u64::MAX`, and with it the order of the
indexes.
-/

namespace RaftLogStore

open RaftLog

variable {T : Types} {W : ChunkedWal T}

/-! ## The calls -/

/-- A commit that is accepted names a log id that is held, or one up to `purged` in both orders. -/
def CommitsHeld (s : RaftLog W) : Op T → Prop
  | .commit logId => s.logState.checkCommit logId = .ok () →
      (∃ d ∈ s.stateMachine.log.get (T.logIndex logId), d.logId = logId) ∨
        ∃ p ∈ s.logState.purged, logId ≤ p ∧ T.logIndex logId ≤ T.logIndex p
  | _ => True

/-- A call of the writer, with a purge or a commit that is consistent with the store. -/
structure WriterCall (s : RaftLog W) (op : Op T) : Prop where
  writer : NoUpdateState s op
  purge : CallerGuarantee s op
  commit : CommitsHeld s op

/-- The same for calls that do not depend on an index that has wrapped. -/
def RetainingCall (s : RaftLog W) (op : Op T) : Prop := WriterCall s op ∧ NoIndexWrap s op

instance (s : RaftLog W) : (op : Op T) → Decidable (CommitsHeld s op)
  | .commit _ => inferInstanceAs (Decidable (_ → _))
  | .saveVote _ | .saveUserData _ | .append _ | .truncate _ | .purge _ | .updateState _
  | .flush _ _ => isTrue trivial

instance (s : RaftLog W) (op : Op T) : Decidable (WriterCall s op) :=
  decidable_of_iff (NoUpdateState s op ∧ CallerGuarantee s op ∧ CommitsHeld s op)
    ⟨fun ⟨hwriter, hpurge, hcommit⟩ => ⟨hwriter, hpurge, hcommit⟩,
      fun h => ⟨h.writer, h.purge, h.commit⟩⟩

instance (s : RaftLog W) (op : Op T) : Decidable (RetainingCall s op) :=
  inferInstanceAs (Decidable (_ ∧ _))

/-- The event is a purge that reaches the index. -/
def Event.Purges (i : ℕ) : Event W → Prop
  | .call (.purge upto) => i ≤ T.logIndex upto
  | _ => False

/-- A record other than a purge that reaches the index. -/
def Spares (i : ℕ) (_ : Journal T) : RaftLogRecord T → Prop
  | .action (.purgeUpto upto) => T.logIndex upto < i
  | _ => True

/-! ## One record -/

/-- The entry is held at index `i`, and is committed. -/
structure CommittedEntry (i : ℕ) (d : LogData T) (st : RaftLogState T)
    (log : OrderedMap ℕ (LogData T)) : Prop where
  held : log.get i = some d
  committed : some d.logId ≤ st.committed

/-- A committed entry outlasts every good record, but for a purge that reaches it. -/
theorem CommittedEntry.step {i : ℕ} {d : LogData T} {st : RaftLogState T}
    {log log' : OrderedMap ℕ (LogData T)} {rec : RaftLogRecord T} {chunkId : ChunkId}
    {segment : Segment} (h : CommittedEntry i d st log) (hagree : Agreement st log)
    (hle : PurgedLeLast st) (hgood : Good st log rec) (hcheck : st.check rec = .ok ())
    (hstate : ∀ st', rec = .checkpoint st' → st'.committed = st.committed)
    (hspares : ∀ upto, rec = .action (.purgeUpto upto) → T.logIndex upto < i)
    (hlog : RaftLogStateMachine.logAfter rec chunkId segment log = .ok log') :
    CommittedEntry i d (st.update rec) log' := by
  obtain ⟨hget, hcommitted⟩ := h
  rcases rec with ⟨vote | ⟨logId, payload⟩ | logId | keep | upto⟩ | st'
  · exact ⟨Except.ok.inj hlog ▸ hget, hcommitted⟩
  · -- the new entry has the index after the last one
    obtain ⟨hnext, -⟩ := checkAppend_above hle hcheck hgood
    obtain ⟨m, e, hm, hlast, him, -⟩ := hagree.exists_last hget
    have hindex := (hnext _ hlast).2
    rw [hagree.key hm] at hindex
    refine ⟨?_, hcommitted⟩
    rw [← Except.ok.inj hlog, OrderedMap.get_insert_of_ne _ _ (by omega)]
    exact hget
  · exact ⟨Except.ok.inj hlog ▸ hget,
      hcommitted.trans (RaftLogState.checkCommit_eq_ok_iff.mp hcheck).1⟩
  · obtain ⟨index, hindex, rfl⟩ := Except.map_eq_ok.mp hlog
    have hkeep := hcommitted.trans (RaftLogState.checkTruncate_eq_ok_iff.mp hcheck)
    refine ⟨?_, by simpa [RaftLogState.update] using hcommitted⟩
    rcases hgood with rfl | ⟨k, e, hgetk, hk, rfl⟩
    · exact absurd hkeep (not_le.mpr (hagree.above hget).1)
    · -- what is kept is at or above the entry, and so is its index
      have hik : i ≤ k := by
        by_contra hlt
        have hgt := hagree.increasing hgetk hget (not_le.mp hlt)
        exact absurd (Option.some_le_some.mp hkeep) (not_le.mpr hgt)
      rw [Types.nextLogIndex_of_lt (by rw [hagree.key hgetk]; exact hk), hagree.key hgetk] at hindex
      rw [OrderedMap.get_splitOff_fst, ← Except.ok.inj hindex, if_pos (Nat.lt_succ_of_le hik)]
      exact hget
  · obtain ⟨index, hindex, rfl⟩ := Except.map_eq_ok.mp hlog
    refine ⟨?_, by simpa [RaftLogState.update] using hcommitted⟩
    have hlt := hspares upto rfl
    have hmax : i ≤ u64Max := hagree.key hget ▸ T.logIndex_le d.logId
    rw [Types.nextLogIndex_of_lt (lt_of_lt_of_le hlt hmax)] at hindex
    rw [OrderedMap.get_splitOff_snd, ← Except.ok.inj hindex, if_pos (Nat.succ_le_of_lt hlt)]
    exact hget
  · refine ⟨Except.ok.inj hlog ▸ hget, ?_⟩
    rw [RaftLogState.update, hstate st' rfl]
    exact hcommitted

/-! ## One call -/

theorem guarded_spares {s : RaftLog W} {op : Op T} {i : ℕ}
    (hpurge : ∀ upto, op = .purge upto → T.logIndex upto < i) : Guarded (Spares i) op s := by
  refine ⟨fun rec hwrites _ => ?_,
    fun entries _ => appendGuarded_of_forall (fun _ _ _ => trivial) s⟩
  cases op with
  | saveVote vote => rw [hwrites]; trivial
  | saveUserData userData => rw [hwrites]; trivial
  | append entries => exact hwrites.elim
  | truncate index =>
      obtain ⟨keep, -, rfl⟩ := hwrites
      trivial
  | purge upto =>
      obtain ⟨next, -, -, rfl⟩ := hwrites
      exact hpurge upto rfl
  | commit logId => rw [hwrites]; trivial
  | updateState state =>
      obtain ⟨-, rfl⟩ := hwrites
      trivial
  | flush sync callback => exact hwrites.elim

/-- What holds of a journal in which the entry is committed. -/
structure Retains (i : ℕ) (d : LogData T) (j : Journal T) : Prop where
  agreement : Agreement j.state j.log
  purgedLeLast : PurgedLeLast j.state
  entry : CommittedEntry i d j.state j.log

theorem Retains.step {i : ℕ} {d : LogData T} {j j' : Journal T} {added : List (Snapshot T)}
    (h : Retains i d j) (hstep : Journal.Step
      (fun j rec => GoodRecord j rec ∧ KeepsHardState j rec ∧ Spares i j rec) j added j') :
    Retains i d j' := by
  obtain ⟨hagree, hle, hentry⟩ := h
  cases hstep with
  | write hg _ hcheck hlog _ =>
      obtain ⟨hgood, hkeeps, hspares⟩ := hg
      obtain ⟨hagree', hle'⟩ := hagree.step hle hgood hcheck hlog
      refine ⟨hagree', hle', hentry.step hagree hle hgood hcheck ?_ ?_ hlog⟩
      · intro st' hrec
        rw [hrec] at hkeeps
        obtain ⟨userData, rfl⟩ := hkeeps
        rfl
      · intro upto hrec
        rw [hrec] at hspares
        exact hspares
  | _ => exact ⟨hagree, hle, hentry⟩

/-- No call takes back a committed entry, but for a purge that reaches it. -/
theorem Retains.completes (hW : Lawful W) {i : ℕ} {d : LogData T} {op : Op T} {s s' : RaftLog W}
    (h : Retains i d s.journal) (hop : RetainingCall s op)
    (hpurge : ∀ upto, op = .purge upto → T.logIndex upto < i) (hcompletes : Completes op s s') :
    Retains i d s'.journal := by
  have hguarded := (guarded_good hop.1.purge hop.2).and
    ((guarded_keepsHardState hop.1.writer).and (guarded_spares hpurge))
  exact (completes_steps hW hguarded hcompletes).journal_invariant
    (fun _ _ _ hj hstep => hj.step hstep) h

/-! ## Every run -/

theorem guaranteed_of_retaining {sys : System W} (h : System.Reachable RetainingCall sys) :
    System.Reachable Guaranteed sys :=
  Transition.Reachable.mono (fun _ _ _ hstep => hstep.mono fun _ _ hop => ⟨hop.1.purge, hop.2⟩) h

theorem Retains.system_step (hW : Lawful W) {i : ℕ} {d : LogData T} {sys sys' : System W}
    {e : Event W} (h : Retains i d sys.store.journal) (he : ¬ (e.Reopens ∨ e.Purges i))
    (hstep : System.Step RetainingCall sys e sys') : Retains i d sys'.store.journal := by
  cases hstep with
  | call hop hcompletes =>
      refine h.completes hW hop (fun upto heq => ?_) hcompletes
      subst heq
      exact not_le.mp fun hpurges => he (Or.inr hpurges)
  | drainCache hdrain =>
      obtain ⟨cache, -, rfl⟩ := drainCacheEvictable_ok hdrain
      exact ⟨h.agreement, h.purgedLeLast, h.entry⟩
  | persisted checkpoint => exact ⟨h.agreement, h.purgedLeLast, h.entry⟩
  | @work request _ => cases request <;> exact h
  | unlinkFirst n _ => exact h
  | crash _ _ _ => exact absurd (Or.inl trivial) he
  | restart _ _ _ _ _ => exact absurd (Or.inl trivial) he

/-- What is held up to the index of an accepted commit is committed. -/
theorem retains_of_commit {s s₁ : RaftLog W} {c : T.LogId} {i : ℕ} {d : LogData T}
    (hagree : Agreement s₁.logState s₁.stateMachine.log) (hle : PurgedLeLast s₁.logState)
    (hop : CommitsHeld s (.commit c)) (hrun : (Op.commit c).exec.run s = .ok () s₁)
    (hget : s₁.stateMachine.log.get i = some d) (hi : i ≤ T.logIndex c) :
    Retains i d s₁.journal := by
  obtain ⟨segment, s₂, hrec, rfl⟩ := ok_of_writes hrun rfl
  have hcheck := (appendAndApply_ok hrec).1
  have hstate := logState_appendAndApply hrec
  obtain ⟨wal₁, -, happly⟩ := appendAndApply_applied hrec
  have hlog := Except.ok.inj (RaftLogStateMachine.apply_eq_ok.mp happly).1
  refine ⟨hagree, hle, hget, ?_⟩
  have hcommitted : s₁.logState.committed = some c := by
    rw [hstate]
    rfl
  have hpurged : s₁.logState.purged = s.logState.purged := by
    rw [hstate]
    rfl
  have hbelow : some d.logId ≤ s₁.logState.committed ↔ d.logId ≤ c := by
    rw [hcommitted, Option.some_le_some]
  refine hbelow.mpr ?_
  rcases hop hcheck with ⟨e, he, rfl⟩ | ⟨p, hp, hcp, hindex⟩
  · have hgete : s₁.stateMachine.log.get (T.logIndex e.logId) = some e := hlog ▸ he
    rcases Nat.lt_or_eq_of_le hi with hlt | heq
    · exact (hagree.increasing hget hgete hlt).le
    · rw [← heq] at hgete
      rw [Option.some.inj (hget.symm.trans hgete)]
  · -- nothing is held at an index up to `purged`
    have habove := (hagree.above hget).2
    rw [hpurged, Option.mem_def.mp hp] at habove
    simp only [Types.indexAfter] at habove
    omega

/-- Once a commit has been accepted, every entry then held up to its index stays in the map, the
very same log data, until a purge reaches it. -/
theorem committed_entries_kept (hW : Lawful W) {sys sys₁ sys' : System W} {c : T.LogId}
    {events : List (Event W)} (h : System.Reachable RetainingCall sys)
    (hcommit : System.Step RetainingCall sys (.call (.commit c)) sys₁)
    (haccepted : (Op.commit c).exec.run sys.store = .ok () sys₁.store)
    (hrun : Transition.Run (System.Step RetainingCall) sys₁ events sys') {i : ℕ} {d : LogData T}
    (hget : sys₁.store.stateMachine.log.get i = some d) (hi : i ≤ T.logIndex c)
    (hevents : ∀ e ∈ events, ¬ e.Reopens ∧ ¬ e.Purges i) :
    sys'.store.stateMachine.log.get i = some d := by
  obtain ⟨hagree, hle⟩ := agreement_of_reachable hW (guaranteed_of_retaining (h.tail hcommit))
  have hop : CommitsHeld sys.store (.commit c) := by
    cases hcommit with
    | call hop _ => exact hop.1.commit
  have hretains := retains_of_commit hagree hle hop haccepted hget hi
  have hspared : ∀ e ∈ events, ¬ (e.Reopens ∨ e.Purges i) := fun e he => not_or.mpr (hevents e he)
  have hlater : Retains i d sys'.store.journal :=
    hrun.preserved (I := fun _ => True) (P := fun sys => Retains i d sys.store.journal)
      (fun _ _ _ _ _ => trivial) (fun _ _ _ _ hretains he hstep => hretains.system_step hW he hstep)
      trivial hretains hspared
  exact hlater.entry.held

/-- A call that returns is one that the step has taken. -/
theorem returned_of_step {allowed : RaftLog W → Op T → Prop} {sys sys₁ : System W} {op : Op T}
    (hstep : System.Step allowed sys (.call op) sys₁)
    (hok : ∃ u s', op.exec.run sys.store = .ok u s' ∧ True) :
    op.exec.run sys.store = .ok () sys₁.store := by
  obtain ⟨_, s', hrun, -⟩ := hok
  cases hstep with
  | call _ hcompletes =>
      rcases hcompletes with hok | ⟨e, hrejected⟩
      · exact hok
      · exact absurd (hrun.symm.trans hrejected) (by simp)

/-- A log that begins with the last index of all. -/
def committedLastIndex : List (Event (memoryWal (exampleTypes false))) :=
  [.call (.append [(⟨1, Fin.last _⟩, 5)])]

def beforeCommit : System (memoryWal (exampleTypes false)) :=
  (System.simulate WriterCall (chunksOfSize false 10) committedLastIndex).get (by decide +kernel)

def afterCommit : System (memoryWal (exampleTypes false)) :=
  (System.perform WriterCall beforeCommit (.call (.commit ⟨1, Fin.last _⟩))).get (by decide +kernel)

/-- The next index wraps around to zero, and a truncation to it takes the rest. -/
def wrappedAppend : List (Event (memoryWal (exampleTypes false))) :=
  [.call (.append [(⟨2, 0⟩, 6)]), .call (.truncate 1)]

def afterWrap : System (memoryWal (exampleTypes false)) :=
  (System.performAll WriterCall wrappedAppend afterCommit).get (by decide +kernel)

/-- The committed entry is gone. -/
theorem committed_entries_kept_afterWrap :
    System.Reachable WriterCall beforeCommit ∧
      System.Step WriterCall beforeCommit (.call (.commit ⟨1, Fin.last _⟩)) afterCommit ∧
      Transition.Run (System.Step WriterCall) afterCommit wrappedAppend afterWrap ∧
      (∀ e ∈ wrappedAppend, ¬ e.Reopens ∧ ¬ e.Purges u64Max) ∧
      afterCommit.store.logState.committed = some ⟨1, Fin.last _⟩ ∧
      (∃ d, afterCommit.store.stateMachine.log.get u64Max = some d) ∧
      afterWrap.store.stateMachine.log.get u64Max = none := by
  have hheld : afterCommit.store.stateMachine.log.get u64Max =
      some ⟨⟨1, Fin.last _⟩, 0, ⟨1, 1⟩⟩ := by decide +kernel
  exact ⟨System.reachable_get _, System.step_of_perform (Option.some_get _).symm,
    System.run_of_performAll (Option.some_get _).symm,
    by simp [wrappedAppend, Event.Reopens, Event.Purges], by decide +kernel, ⟨_, hheld⟩,
    by decide +kernel⟩

/-- A store with three entries, in two chunks. -/
def threeEntries : System (memoryWal (exampleTypes false)) :=
  (System.simulate RetainingCall (chunksOfSize false 3)
    [.call (.append [(⟨1, 0⟩, 5), (⟨1, 1⟩, 6), (⟨1, 2⟩, 7)])]).get (by decide +kernel)

def twoCommitted : System (memoryWal (exampleTypes false)) :=
  (System.perform RetainingCall threeEntries (.call (.commit ⟨1, 1⟩))).get (by decide +kernel)

/-- A truncation that is rejected, one that is not, and a purge below the entry. -/
def truncatedTail : List (Event (memoryWal (exampleTypes false))) :=
  [.call (.truncate 1), .call (.truncate 2), .call (.append [(⟨2, 2⟩, 8)]), .call (.purge ⟨1, 0⟩)]

def afterTail : System (memoryWal (exampleTypes false)) :=
  (System.performAll RetainingCall truncatedTail twoCommitted).get (by decide +kernel)

theorem committed_entries_kept_afterTail :
    afterTail.store.stateMachine.log.get 1 = some ⟨⟨1, 1⟩, 0, ⟨2, 1⟩⟩ := by
  have hreachable : System.Reachable RetainingCall threeEntries := System.reachable_get _
  have hstep : System.Step RetainingCall threeEntries (.call (.commit ⟨1, 1⟩)) twoCommitted :=
    System.step_of_perform (Option.some_get _).symm
  have hrun : Transition.Run (System.Step RetainingCall) twoCommitted truncatedTail afterTail :=
    System.run_of_performAll (Option.some_get _).symm
  have hheld : twoCommitted.store.stateMachine.log.get 1 = some ⟨⟨1, 1⟩, 0, ⟨2, 1⟩⟩ := by
    decide +kernel
  exact committed_entries_kept (memoryWal_lawful _) hreachable hstep
    (returned_of_step hstep (by decide +kernel)) hrun hheld (by decide)
    (by simp [truncatedTail, Event.Reopens, Event.Purges, exampleTypes])

end RaftLogStore
