import RaftLogStore.Journal.Refinement
import RaftLogStore.Model.Simulation

/-!
# Appending a batch

`append` writes and applies an entry before it checks the next one.  A batch whose first entry is
accepted and a later one is not therefore leaves its first entries behind, although the writer
requires every operation to be atomic.  And a purge up to a log id that conflicts with the log
leaves entries behind whose indexes `check_append` gives out again; the next entry then replaces
one of them.

The batches that are atomic are those of which every entry is taken at an index that is free, and
those whose first entry is rejected.
-/

namespace RaftLogStore

open RaftLog

variable {T : Types} {W : ChunkedWal T}

/-! ## What a batch should do -/

/-- The log map holds what it held, and at indexes that were free the entries, one for each; and
`last` is the last of them. -/
structure Appended (entries : List (T.LogId × T.LogPayload)) (s s' : RaftLog W) : Prop where
  log : ∃ added : List (LogData T), added.map LogData.logId = entries.map Prod.fst ∧
    (∀ d ∈ added, s.stateMachine.log.get (T.logIndex d.logId) = none) ∧
    ∀ i d, s'.stateMachine.log.get i = some d ↔
      s.stateMachine.log.get i = some d ∨ d ∈ added ∧ T.logIndex d.logId = i
  last : s'.logState.last = ((entries.map Prod.fst).getLast?).or s.logState.last

/-- Nothing that the caller or a restart can see has changed. -/
structure Unchanged (s s' : RaftLog W) : Prop where
  logState : s'.logState = s.logState
  log : s'.stateMachine.log = s.stateMachine.log
  cache : s'.stateMachine.payloadCache = s.stateMachine.payloadCache
  written : (W.view s'.wal).written = (W.view s.wal).written

/-- All entries are accepted, or the batch is rejected and nothing has changed. -/
def BatchAtomic (s : RaftLog W) (entries : List (T.LogId × T.LogPayload)) : Prop :=
  (∃ segment s', (append entries).run s = .ok segment s' ∧ Appended entries s s') ∨
    ∃ e s', (append entries).run s = .error (.state e) s' ∧ Unchanged s s'

/-- Each entry is accepted after those before it, and the cache takes its payload. -/
def EntriesTaken : RaftLogState T → PayloadCache T → List (T.LogId × T.LogPayload) → Prop
  | _, _, [] => True
  | st, c, (logId, payload) :: entries =>
      st.checkAppend logId = .ok () ∧ ∃ c', c.insert logId payload = .ok c' ∧
        EntriesTaken { st with last := some logId } c' entries

instance EntriesTaken.decidable : (entries : List (T.LogId × T.LogPayload)) →
    (st : RaftLogState T) → (c : PayloadCache T) → Decidable (EntriesTaken st c entries)
  | [], _, _ => isTrue trivial
  | (logId, _) :: entries, st, _ =>
      have := EntriesTaken.decidable entries { st with last := some logId }
      inferInstanceAs (Decidable (_ ∧ ∃ _, _ ∧ _))

/-- The map has no entry at an index of the batch, and no two of the batch have the same one. -/
def IndexesFree (log : OrderedMap ℕ (LogData T)) (entries : List (T.LogId × T.LogPayload)) : Prop :=
  (entries.map fun e => T.logIndex e.1).Nodup ∧ ∀ e ∈ entries, log.get (T.logIndex e.1) = none

instance (log : OrderedMap ℕ (LogData T)) (entries : List (T.LogId × T.LogPayload)) :
    Decidable (IndexesFree log entries) :=
  inferInstanceAs (Decidable (_ ∧ _))

/-- The first entry is rejected. -/
def FirstRejected (st : RaftLogState T) (entries : List (T.LogId × T.LogPayload)) : Prop :=
  ∃ logId payload rest e, entries = (logId, payload) :: rest ∧
    st.checkAppend logId = .error (.state e)

/-! ## One entry -/

/-- An entry that is accepted and that the cache takes is appended, unless the WAL fails. -/
theorem appendAndApply_entry_returns {logId : T.LogId} {payload : T.LogPayload} {s : RaftLog W}
    {c : PayloadCache T} (hcheck : s.logState.checkAppend logId = .ok ())
    (hcache : s.stateMachine.payloadCache.insert logId payload = .ok c) :
    (∃ segment s', (appendAndApply (.action (.append logId payload))).run s = .ok segment s') ∨
      ∃ e s', (appendAndApply (.action (.append logId payload))).run s = .error (.io e) s' := by
  refine appendAndApply_returns hcheck fun chunkId segment => ?_
  exact ⟨⟨_, c, _⟩, RaftLogStateMachine.apply_eq_ok.mpr ⟨rfl, hcache, hcheck, rfl⟩⟩

/-! ## The loop -/

theorem run_append (entries : List (T.LogId × T.LogPayload)) (s : RaftLog W) :
    (append entries).run s =
      match (appendLoop entries).run s with
      | .ok _ s' => .ok (W.lastSegment s'.wal) s'
      | .error failure s' => .error failure s' := by
  simp only [append, EStateM.run_bind]
  cases (appendLoop entries).run s <;> rfl

/-- The entries have been put into the log map one after the other, and `last` is the last of
them. -/
structure Inserted (entries : List (T.LogId × T.LogPayload)) (s s' : RaftLog W) : Prop where
  log : ∃ added : List (LogData T), added.map LogData.logId = entries.map Prod.fst ∧
    s'.stateMachine.log =
      added.foldl (fun log d => log.insert (T.logIndex d.logId) d) s.stateMachine.log
  last : s'.logState.last = ((entries.map Prod.fst).getLast?).or s.logState.last

theorem inserted_cons {logId : T.LogId} {payload : T.LogPayload}
    {entries : List (T.LogId × T.LogPayload)} {s s₁ s' : RaftLog W} {segment : Segment}
    (h : (appendAndApply (.action (.append logId payload))).run s = .ok segment s₁)
    (hrest : Inserted entries s₁ s') : Inserted ((logId, payload) :: entries) s s' := by
  obtain ⟨-, -, hstate, chunkId, recordSegment, hlog⟩ := appendAndApply_entry h
  obtain ⟨added, hadded, hfold⟩ := hrest.log
  refine ⟨⟨⟨logId, chunkId, recordSegment⟩ :: added, ?_, ?_⟩, ?_⟩
  · rw [List.map_cons, List.map_cons, hadded]
  · rw [hfold, hlog]
    rfl
  · rw [hrest.last, hstate, List.map_cons, List.getLast?_cons]
    cases (entries.map Prod.fst).getLast? <;> rfl

/-- A loop that returns has inserted its entries, each of them taken. -/
theorem appendLoop_ok {entries : List (T.LogId × T.LogPayload)} {s s' : RaftLog W}
    (h : (appendLoop entries).run s = .ok () s') :
    EntriesTaken s.logState s.stateMachine.payloadCache entries ∧ Inserted entries s s' := by
  induction entries generalizing s with
  | nil =>
      obtain ⟨-, rfl⟩ := EStateM.Result.ok.inj h
      exact ⟨trivial, ⟨[], rfl, rfl⟩, rfl⟩
  | cons entry entries ih =>
      obtain ⟨logId, payload⟩ := entry
      rw [run_appendLoop_cons] at h
      cases hrec : (appendAndApply (.action (.append logId payload))).run s with
      | error failure s₁ =>
          rw [hrec] at h
          exact absurd h (by simp)
      | ok segment s₁ =>
          rw [hrec] at h
          obtain ⟨htaken, hinserted⟩ := ih h
          obtain ⟨hcheck, hcache, hstate, -⟩ := appendAndApply_entry hrec
          rw [hstate] at htaken
          exact ⟨⟨hcheck, _, hcache, htaken⟩, inserted_cons hrec hinserted⟩

/-- Entries that are taken are inserted, unless the WAL fails. -/
theorem appendLoop_returns {entries : List (T.LogId × T.LogPayload)} {s : RaftLog W}
    (h : EntriesTaken s.logState s.stateMachine.payloadCache entries) :
    (∃ s', (appendLoop entries).run s = .ok () s') ∨
      ∃ e s', (appendLoop entries).run s = .error (.io e) s' := by
  induction entries generalizing s with
  | nil => exact Or.inl ⟨s, rfl⟩
  | cons entry entries ih =>
      obtain ⟨logId, payload⟩ := entry
      obtain ⟨hcheck, c, hcache, hrest⟩ := h
      rw [run_appendLoop_cons]
      rcases appendAndApply_entry_returns hcheck hcache with ⟨segment, s₁, hrec⟩ | ⟨e, s₁, hrec⟩
      · obtain ⟨-, hcache₁, hstate, -⟩ := appendAndApply_entry hrec
        obtain rfl := Except.ok.inj (hcache.symm.trans hcache₁)
        rw [hrec]
        exact ih (hstate ▸ hrest)
      · rw [hrec]
        exact Or.inr ⟨e, s₁, rfl⟩

/-- The loop raises `last`, however it ends. -/
theorem appendLoop_last_le {entries : List (T.LogId × T.LogPayload)} {s s' : RaftLog W}
    {rejection : Option (RaftLogStateError T)} (h : AppendEnds entries s s' rejection) :
    s.logState.last ≤ s'.logState.last := by
  refine h.invariant (I := fun s₁ => s.logState.last ≤ s₁.logState.last) (fun hrec hle => ?_) le_rfl
  obtain ⟨hcheck, -, hstate, -⟩ := appendAndApply_entry hrec
  rw [hstate]
  exact hle.trans (RaftLogState.checkAppend_eq_ok_iff.mp hcheck).1.le

/-- A loop that is rejected and leaves `last` alone has rejected its first entry. -/
theorem firstRejected_of_unchanged {entries : List (T.LogId × T.LogPayload)} {s s' : RaftLog W}
    {e : RaftLogStateError T} (h : (appendLoop entries).run s = .error (.state e) s')
    (hlast : s'.logState.last = s.logState.last) : FirstRejected s.logState entries := by
  cases entries with
  | nil => exact absurd h (by simp [appendLoop])
  | cons entry entries =>
      obtain ⟨logId, payload⟩ := entry
      rw [run_appendLoop_cons] at h
      cases hrec : (appendAndApply (.action (.append logId payload))).run s with
      | error failure s₁ =>
          rw [hrec] at h
          obtain ⟨rfl, -⟩ := EStateM.Result.error.inj h
          refine ⟨logId, payload, entries, e, rfl, ?_⟩
          rcases appendAndApply_error hrec with
            ⟨hcheck, -⟩ | ⟨e', he'⟩ | ⟨hcheck, wal₁, sm, -, happly⟩
          · exact hcheck
          · exact absurd he' (by simp)
          · exact absurd (RaftLogStateMachine.apply_eq_error_of_check hcheck happly) (by simp)
      | ok segment s₁ =>
          -- the first entry has raised `last`
          rw [hrec] at h
          obtain ⟨hcheck, -, hstate, -⟩ := appendAndApply_entry hrec
          have hlt := (RaftLogState.checkAppend_eq_ok_iff.mp hcheck).1
          have hends : AppendEnds entries s₁ s' (some e) := appendEnds_iff.mpr h
          have hle := appendLoop_last_le hends
          rw [hstate, hlast] at hle
          exact absurd hlt (not_lt.mpr hle)

/-! ## Free indexes -/

/-- Entries that are taken have increasing log ids, above `last`. -/
theorem EntriesTaken.increasing {entries : List (T.LogId × T.LogPayload)} {st : RaftLogState T}
    {c : PayloadCache T} (h : EntriesTaken st c entries) :
    (entries.map Prod.fst).Pairwise (· < ·) ∧
      ∀ logId ∈ entries.map Prod.fst, st.last < some logId := by
  induction entries generalizing st c with
  | nil => simp
  | cons entry entries ih =>
      obtain ⟨logId, payload⟩ := entry
      obtain ⟨hcheck, c', -, hrest⟩ := h
      obtain ⟨hincreasing, habove⟩ := ih hrest
      have hlast : st.last < some logId := (RaftLogState.checkAppend_eq_ok_iff.mp hcheck).1
      simp only [List.map_cons, List.pairwise_cons, List.mem_cons, forall_eq_or_imp]
      refine ⟨⟨fun later hlater => ?_, hincreasing⟩, hlast, fun later hlater => ?_⟩
      · exact Option.some_lt_some.mp (habove later hlater)
      · exact hlast.trans (habove later hlater)

/-- The indexes of the entries that have been appended were free. -/
theorem Appended.free {entries : List (T.LogId × T.LogPayload)} {s s' : RaftLog W}
    (h : Appended entries s s') :
    ∀ e ∈ entries, s.stateMachine.log.get (T.logIndex e.1) = none := by
  obtain ⟨added, hadded, hfree, -⟩ := h.log
  intro e he
  have hmem : e.1 ∈ added.map LogData.logId := hadded ▸ List.mem_map_of_mem he
  obtain ⟨d, hd, hid⟩ := List.mem_map.mp hmem
  rw [← hid]
  exact hfree d hd

/-- Entries that are taken and inserted have been appended exactly if their indexes were free. -/
theorem appended_iff {entries : List (T.LogId × T.LogPayload)} {s s' : RaftLog W}
    (htaken : EntriesTaken s.logState s.stateMachine.payloadCache entries)
    (hinserted : Inserted entries s s') :
    Appended entries s s' ↔ IndexesFree s.stateMachine.log entries := by
  constructor
  · intro happended
    refine ⟨?_, happended.free⟩
    obtain ⟨added, hadded, -, hget⟩ := happended.log
    have hids : (added.map LogData.logId).Nodup := by
      rw [hadded]
      exact htaken.increasing.1.imp fun hlt => hlt.ne
    -- two entries at one index would be the one that the map holds there
    have hindexes : (added.map fun d => T.logIndex d.logId).Nodup := by
      refine List.Nodup.map_on (fun x hx y hy hindex => ?_) (List.Nodup.of_map _ hids)
      have hx' := (hget (T.logIndex x.logId) x).mpr (Or.inr ⟨hx, rfl⟩)
      have hy' := (hget (T.logIndex x.logId) y).mpr (Or.inr ⟨hy, hindex.symm⟩)
      exact Option.some.inj (hx'.symm.trans hy')
    have hmap : (entries.map Prod.fst).map T.logIndex = entries.map fun e => T.logIndex e.1 := by
      rw [List.map_map]
      rfl
    rwa [← hmap, ← hadded, List.map_map]
  · rintro ⟨hnodup, hfree⟩
    obtain ⟨added, hadded, hlog⟩ := hinserted.log
    have hkeys : (added.map fun d => T.logIndex d.logId).Nodup := by
      have hmap : (added.map LogData.logId).map T.logIndex =
          (entries.map Prod.fst).map T.logIndex := by rw [hadded]
      rw [List.map_map, List.map_map] at hmap
      exact hmap ▸ hnodup
    have hunused : ∀ d ∈ added, s.stateMachine.log.get (T.logIndex d.logId) = none := by
      intro d hd
      have hmem : d.logId ∈ entries.map Prod.fst := hadded ▸ List.mem_map_of_mem hd
      obtain ⟨e, he, hid⟩ := List.mem_map.mp hmem
      rw [← hid]
      exact hfree e he
    refine ⟨⟨added, hadded, hunused, fun i d => ?_⟩, hinserted.last⟩
    rw [hlog, OrderedMap.get_foldl_insert hkeys]
    constructor
    · rintro (hnew | ⟨-, hold⟩)
      · exact Or.inr hnew
      · exact Or.inl hold
    · rintro (hold | hnew)
      · -- what was held is not replaced, since no entry of the batch has its index
        refine Or.inr ⟨fun w hw hindex => ?_, hold⟩
        have hnone := hunused w hw
        rw [hindex, hold] at hnone
        exact absurd hnone (by simp)
      · exact Or.inl hnew

/-! ## Atomicity -/

/-- Unless the WAL fails, a batch is atomic exactly if all its entries are taken at free indexes or
the first of them is rejected. -/
theorem batch_atomic_iff (s : RaftLog W) (entries : List (T.LogId × T.LogPayload))
    (hio : ∀ e s', (append entries).run s ≠ .error (.io e) s') :
    BatchAtomic s entries ↔
      EntriesTaken s.logState s.stateMachine.payloadCache entries ∧
          IndexesFree s.stateMachine.log entries ∨
        FirstRejected s.logState entries := by
  simp only [BatchAtomic, run_append] at hio ⊢
  constructor
  · rintro (⟨segment, s', hrun, happended⟩ | ⟨e, s', hrun, hunchanged⟩)
    · cases hloop : (appendLoop entries).run s with
      | ok _ s₁ =>
          rw [hloop] at hrun
          obtain ⟨-, rfl⟩ := EStateM.Result.ok.inj hrun
          obtain ⟨htaken, hinserted⟩ := appendLoop_ok hloop
          exact Or.inl ⟨htaken, (appended_iff htaken hinserted).mp happended⟩
      | error failure s₁ =>
          rw [hloop] at hrun
          exact absurd hrun (by simp)
    · cases hloop : (appendLoop entries).run s with
      | ok _ s₁ =>
          rw [hloop] at hrun
          exact absurd hrun (by simp)
      | error failure s₁ =>
          rw [hloop] at hrun
          obtain ⟨rfl, rfl⟩ := EStateM.Result.error.inj hrun
          have hlast := congrArg RaftLogState.last hunchanged.logState
          exact Or.inr (firstRejected_of_unchanged hloop hlast)
  · rintro (⟨htaken, hfree⟩ | ⟨logId, payload, rest, e, rfl, hcheck⟩)
    · rcases appendLoop_returns htaken with ⟨s', hloop⟩ | ⟨e, s', hloop⟩
      · have hinserted := (appendLoop_ok hloop).2
        exact Or.inl ⟨_, s', by rw [hloop], (appended_iff htaken hinserted).mpr hfree⟩
      · exact absurd (by rw [hloop]) (hio e s')
    · have hloop : (appendLoop ((logId, payload) :: rest)).run s = .error (.state e) s := by
        have hrejected : s.stateMachine.check (.action (.append logId payload)) =
            .error (.state e) := hcheck
        rw [run_appendLoop_cons, run_appendAndApply, hrejected]
      exact Or.inr ⟨e, s, by rw [hloop], rfl, rfl, rfl, rfl⟩

/-- A store with two entries. -/
def appendedSystem : System (memoryWal (exampleTypes true)) :=
  (System.simulate AnyCall (chunksOfSize true 3)
    [.call (.append [(⟨1, 0⟩, 5), (⟨1, 1⟩, 6)])]).get (by decide +kernel)

/-- Two entries that follow. -/
def followingBatch : List (TermIndex × Fin (2 ^ 64)) := [(⟨1, 2⟩, 7), (⟨2, 3⟩, 8)]

/-- An entry that follows, and one that leaves a gap behind it. -/
def gapBatch : List (TermIndex × Fin (2 ^ 64)) := [(⟨1, 2⟩, 7), (⟨1, 4⟩, 8)]

theorem batch_atomic_iff_followingBatch : BatchAtomic appendedSystem.store followingBatch := by
  have htaken : EntriesTaken appendedSystem.store.logState
      appendedSystem.store.stateMachine.payloadCache followingBatch := by
    decide +kernel
  have hfree : IndexesFree appendedSystem.store.stateMachine.log followingBatch := by
    decide +kernel
  refine (batch_atomic_iff appendedSystem.store followingBatch fun e s' hrun => ?_).mpr
    (Or.inl ⟨htaken, hfree⟩)
  have hreturns : (match (append followingBatch).run appendedSystem.store with
      | .ok _ _ => true
      | .error _ _ => false) = true := by decide +kernel
  rw [hrun] at hreturns
  exact absurd hreturns (by simp)

/-- A store whose purge has left two entries of an older term behind. -/
def conflictingSystem : System (memoryWal (exampleTypes true)) :=
  (System.simulate AnyCall (chunksOfSize true 10)
    [.call (.append [(⟨1, 0⟩, 5), (⟨1, 1⟩, 6), (⟨1, 2⟩, 7)]), .call (.purge ⟨9, 0⟩)]).get
    (by decide +kernel)

/-- The entry that follows the purge, at the index of an entry that is still held. -/
def replacingEntry : TermIndex × Fin (2 ^ 64) := (⟨9, 1⟩, 8)

/-- The first entry of a batch that is rejected stays in the log; and a batch that is accepted
replaces an entry that is held. -/
theorem batch_atomic_iff_gapBatch :
    (System.Reachable AnyCall appendedSystem ∧ ¬ BatchAtomic appendedSystem.store gapBatch) ∧
      System.Reachable AnyCall conflictingSystem ∧
        ¬ BatchAtomic conflictingSystem.store [replacingEntry] := by
  have hleft : (match (append gapBatch).run appendedSystem.store with
      | .ok _ _ => false
      | .error _ s' => decide (s'.logState.last = some ⟨1, 2⟩)) = true := by decide +kernel
  have hlast : appendedSystem.store.logState.last = some ⟨1, 1⟩ := by decide +kernel
  have hreturns : (match (append [replacingEntry]).run conflictingSystem.store with
      | .ok _ _ => true
      | .error _ _ => false) = true := by decide +kernel
  have hheld : conflictingSystem.store.stateMachine.log.get
      ((exampleTypes true).logIndex replacingEntry.1) ≠ none := by decide +kernel
  refine ⟨⟨System.reachable_get _, ?_⟩, System.reachable_get _, ?_⟩
  · rintro (⟨segment, s', hrun, -⟩ | ⟨e, s', hrun, hunchanged⟩)
    · rw [hrun] at hleft
      exact absurd hleft (by simp)
    · rw [hrun] at hleft
      have hnew : s'.logState.last = some ⟨1, 2⟩ := of_decide_eq_true hleft
      rw [hunchanged.logState, hlast] at hnew
      exact absurd hnew (by decide)
  · rintro (⟨segment, s', hrun, happended⟩ | ⟨e, s', hrun, -⟩)
    · exact hheld (happended.free replacingEntry List.mem_cons_self)
    · rw [hrun] at hreturns
      exact absurd hreturns (by simp)

end RaftLogStore
