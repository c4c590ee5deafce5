import RaftLogStore.Journal.States
import RaftLogStore.Results.HardState

/-!
# The committed position

The checks compare log ids, and the position of an entry is its index.  A log id of a lower
term may have a higher index, so `commit` accepts a position that the log does not reach, and
`truncate`, `purge` and a wrapped `append` may take the end of the log back below `committed`.

`ReachKept` is the condition on a record under which none of this happens: the log ids that the
check puts in order are not ordered the other way round by their indexes.  For an accepted
record it is exact (`reached_update_iff`).
-/

namespace RaftLogStore

open RaftLog

variable {T : Types} {W : ChunkedWal T}

/-- `b` is above `a` as a log id and below it as an index. -/
def OrdersCross (a b : T.LogId) : Prop := a < b ∧ T.logIndex b < T.logIndex a

instance (a b : T.LogId) : Decidable (OrdersCross a b) := inferInstanceAs (Decidable (_ ∧ _))

theorem index_le_of_not_cross {a b : T.LogId} (hle : a ≤ b) (h : ¬ OrdersCross a b) :
    T.logIndex a ≤ T.logIndex b := by
  rcases eq_or_lt_of_le hle with rfl | hlt
  · exact le_rfl
  · exact not_lt.mp fun hindex => h ⟨hlt, hindex⟩

/-- The log reaches the committed position. -/
def CommitReached (st : RaftLogState T) : Prop :=
  ∀ c, st.committed = some c → ∃ l, st.last = some l ∧ T.logIndex c ≤ T.logIndex l

/-- The log ids that the record puts in order are not crossed by their indexes. -/
def ReachKept (st : RaftLogState T) : RaftLogRecord T → Prop
  | .action (.saveVote _) => True
  | .action (.append logId _) => ∀ c ∈ st.committed, ¬ OrdersCross c logId
  | .action (.commit logId) => ∀ l ∈ st.last, ¬ OrdersCross logId l
  | .action (.truncateAfter keep) =>
      keep < st.last → ∀ c ∈ st.committed, ∀ k ∈ keep, ¬ OrdersCross c k
  | .action (.purgeUpto upto) => st.last < some upto → ∀ c ∈ st.committed, ¬ OrdersCross c upto
  | .checkpoint st' => st'.last = st.last ∧ st'.committed = st.committed

instance (st : RaftLogState T) : (rec : RaftLogRecord T) → Decidable (ReachKept st rec)
  | .action (.saveVote _) => isTrue trivial
  | .action (.append logId _) =>
      inferInstanceAs (Decidable (∀ c ∈ st.committed, ¬ OrdersCross c logId))
  | .action (.commit logId) => inferInstanceAs (Decidable (∀ l ∈ st.last, ¬ OrdersCross logId l))
  | .action (.truncateAfter keep) => inferInstanceAs (Decidable
      (keep < st.last → ∀ c ∈ st.committed, ∀ k ∈ keep, ¬ OrdersCross c k))
  | .action (.purgeUpto upto) => inferInstanceAs (Decidable
      (st.last < some upto → ∀ c ∈ st.committed, ¬ OrdersCross c upto))
  | .checkpoint st' =>
      inferInstanceAs (Decidable (st'.last = st.last ∧ st'.committed = st.committed))

/-! ## One record -/

variable {st : RaftLogState T}

/-- Where `committed` lies at or below `last`, it is reached unless the orders cross. -/
theorem commitReached_iff (hle : st.committed ≤ st.last) :
    CommitReached st ↔ ∀ c ∈ st.committed, ∀ l ∈ st.last, ¬ OrdersCross c l := by
  constructor
  · intro h c hc l hl hcross
    obtain ⟨l', hl', hindex⟩ := h c hc
    obtain rfl : l' = l := Option.some.inj (hl'.symm.trans hl)
    exact absurd hcross.2 (not_lt.mpr hindex)
  · intro h c hc
    rw [hc] at hle
    cases hl : st.last with
    | none => simp [hl] at hle
    | some l =>
        rw [hl, Option.some_le_some] at hle
        exact ⟨l, rfl, index_le_of_not_cross hle (h c hc l hl)⟩

/-- A checkpoint that meets the condition keeps `committed` at or below `last`. -/
theorem ReachKept.committed_le (hle : st.committed ≤ st.last) {rec : RaftLogRecord T}
    (hstate : ∀ st', rec = .checkpoint st' → ReachKept st rec) (st' : RaftLogState T)
    (hrec : rec = .checkpoint st') : st'.committed ≤ st'.last := by
  have hkept := hstate st' hrec
  subst hrec
  obtain ⟨hlast, hcommitted⟩ := hkept
  rw [hlast, hcommitted]
  exact hle

/-- For a record that is accepted, the condition says exactly when the log still reaches the
committed position. -/
theorem reached_update_iff {rec : RaftLogRecord T} (hle : st.committed ≤ st.last)
    (hreached : CommitReached st) (hcheck : st.check rec = .ok ())
    (hstate : ∀ st', rec = .checkpoint st' → ReachKept st rec) :
    CommitReached (st.update rec) ↔ ReachKept st rec := by
  have hle' := RaftLogState.committed_le_update hle hcheck (ReachKept.committed_le hle hstate)
  rw [commitReached_iff hle']
  rw [commitReached_iff hle] at hreached
  rcases rec with ⟨vote | ⟨logId, payload⟩ | logId | keep | upto⟩ | st'
  · exact iff_of_true hreached trivial
  · simp [RaftLogState.update, ReachKept]
  · simp [RaftLogState.update, ReachKept]
  · simp only [RaftLogState.update, RaftLogState.truncateAfter_committed,
      RaftLogState.truncateAfter_last, ReachKept]
    rcases lt_or_ge keep st.last with hlt | hge
    · rw [min_eq_right hlt.le]
      exact ⟨fun h _ => h, fun h => h hlt⟩
    · rw [min_eq_left hge]
      exact iff_of_true hreached fun hlt => absurd hlt (not_lt.mpr hge)
  · simp only [RaftLogState.update, RaftLogState.purge_committed, RaftLogState.purge_last,
      ReachKept]
    rcases lt_or_ge st.last (some upto) with hlt | hge
    · rw [max_eq_right hlt.le]
      simp [hlt]
    · rw [max_eq_left hge]
      exact iff_of_true hreached fun hlt => absurd hlt (not_lt.mpr hge)
  · obtain ⟨hlast, hcommitted⟩ := hstate st' rfl
    refine iff_of_true ?_ ⟨hlast, hcommitted⟩
    simpa only [RaftLogState.update, hlast, hcommitted] using hreached

/-! ## Every run -/

/-- A call of the writer that does not cross the two orders. -/
def CommitInReach (s : RaftLog W) (op : Op T) : Prop :=
  NoUpdateState s op ∧ op.Admitted ReachKept s

instance (s : RaftLog W) (op : Op T) : Decidable (CommitInReach s op) :=
  inferInstanceAs (Decidable (_ ∧ _))

/-- A checkpoint that a call of the writer writes keeps `last` and `committed`. -/
theorem reachKept_checkpoint {s : RaftLog W} {op : Op T} (hop : NoUpdateState s op)
    {rec : RaftLogRecord T} (hwrites : op.Writes s rec) {st' : RaftLogState T}
    (hrec : rec = .checkpoint st') : ReachKept s.logState rec := by
  subst hrec
  rcases keepsLast_of_writes hop hwrites with ⟨userData, rfl⟩ | ⟨index, keep, -, hrec⟩
  · exact ⟨rfl, rfl⟩
  · exact absurd hrec (by simp)

theorem commitReached_of_reachable (hW : Lawful W) {sys : System W}
    (h : System.Reachable CommitInReach sys) :
    sys.store.logState.committed ≤ sys.store.logState.last ∧ CommitReached sys.store.logState := by
  refine System.Reachable.state_invariant (P := ReachKept) hW (fun _ _ hop => hop.2.guarded)
    (I := fun st => st.committed ≤ st.last ∧ CommitReached st) ?_ ?_ h
  · exact ⟨le_rfl, fun c hc => absurd hc (by simp [RaftLogState.default])⟩
  · intro st rec ⟨hle, hreached⟩ hkept hcheck
    have hcommitted := ReachKept.committed_le hle fun _ _ => hkept
    exact ⟨RaftLogState.committed_le_update hle hcheck hcommitted,
      (reached_update_iff hle hreached hcheck fun _ _ => hkept).mpr hkept⟩

/-- In a run of calls that do not cross the two orders, the log reaches the committed position
throughout.  There a `commit` that is accepted names a position that the log reaches, and a
record that is accepted leaves the committed position reached, exactly if it does not cross
them. -/
theorem commit_in_reach (hW : Lawful W) {sys : System W} (h : System.Reachable CommitInReach sys) :
    CommitReached sys.store.logState ∧
    (∀ c s', (Op.commit c).exec.run sys.store = .ok () s' →
      ((∃ l, sys.store.logState.last = some l ∧ T.logIndex c ≤ T.logIndex l) ↔
        ReachKept sys.store.logState (.action (.commit c)))) ∧
    ∀ op s', NoUpdateState sys.store op → Completes op sys.store s' →
      ∀ rec, op.Writes sys.store rec → sys.store.logState.check rec = .ok () →
        (CommitReached s'.logState ↔ ReachKept sys.store.logState rec) := by
  obtain ⟨hle, hreached⟩ := commitReached_of_reachable hW h
  have hrecord : ∀ op s', NoUpdateState sys.store op → Completes op sys.store s' →
      ∀ rec, op.Writes sys.store rec → sys.store.logState.check rec = .ok () →
        s'.logState = sys.store.logState.update rec ∧
          (CommitReached s'.logState ↔ ReachKept sys.store.logState rec) := by
    intro op s' hop hcompletes rec hwrites hcheck
    obtain ⟨segment, s₁, hrec, rfl⟩ := completes_of_writes hcompletes hwrites hcheck
    have hstate : (op.finish s₁).logState = sys.store.logState.update rec := by
      rw [logState_finish]
      exact logState_appendAndApply hrec
    rw [hstate]
    exact ⟨rfl, reached_update_iff hle hreached hcheck fun _ => reachKept_checkpoint hop hwrites⟩
  refine ⟨hreached, fun c s' hrun => ?_, fun op s' hop hcompletes rec hwrites hcheck =>
    (hrecord op s' hop hcompletes rec hwrites hcheck).2⟩
  have hcheck : sys.store.logState.check (.action (.commit c)) = .ok () := by
    obtain ⟨segment, s₁, hrec, -⟩ := ok_of_writes hrun rfl
    exact (appendAndApply_ok hrec).1
  obtain ⟨hstate, hiff⟩ := hrecord (.commit c) s' trivial (Or.inl hrun) _ rfl hcheck
  rw [← hiff, hstate]
  exact ⟨fun ⟨l, hl, hindex⟩ c' hc' => ⟨l, hl, Option.some.inj hc' ▸ hindex⟩, fun h => h c rfl⟩

/-- A commit of a lower term, a hundred entries ahead of the log. -/
def crossedCommit : List (Event (memoryWal (exampleTypes true))) :=
  [.call (.append [(⟨2, 0⟩, 5)]), .call (.commit ⟨1, 100⟩)]

def crossedSystem : System (memoryWal (exampleTypes true)) :=
  (System.simulate NoUpdateState (chunksOfSize true 3) crossedCommit).get (by decide +kernel)

theorem commit_in_reach_crossedSystem :
    System.Reachable NoUpdateState crossedSystem ∧
      ¬ CommitReached crossedSystem.store.logState := by
  have hcommitted : crossedSystem.store.logState.committed = some ⟨1, 100⟩ := by decide +kernel
  have hlast : crossedSystem.store.logState.last = some ⟨2, 0⟩ := by decide +kernel
  refine ⟨System.reachable_get _, fun hreached => ?_⟩
  obtain ⟨l, hl, hindex⟩ := hreached _ hcommitted
  obtain rfl := Option.some.inj (hl.symm.trans hlast)
  exact absurd hindex (by decide)

/-- Commits and truncations that keep to the order, across a rotation and a crash. -/
def orderedCommits : List (Event (memoryWal (exampleTypes true))) :=
  [.call (.append [(⟨1, 0⟩, 5), (⟨1, 1⟩, 6), (⟨1, 2⟩, 7)]), .call (.commit ⟨1, 1⟩),
    .call (.truncate 2), .call (.append [(⟨2, 2⟩, 8)]), .call (.purge ⟨1, 1⟩),
    .crash 7 (chunksOfSize true 3)]

def committedSystem : System (memoryWal (exampleTypes true)) :=
  (System.simulate CommitInReach (chunksOfSize true 3) orderedCommits).get (by decide +kernel)

theorem commit_in_reach_committedSystem :
    CommitReached committedSystem.store.logState ∧
      committedSystem.store.logState.committed = some ⟨1, 1⟩ :=
  ⟨(commit_in_reach (memoryWal_lawful _) (System.reachable_get _)).1, by decide +kernel⟩

end RaftLogStore
