import Mathlib.Data.List.Induction
import RaftLogStore.Lib.SortedList
import RaftLogStore.Journal.Ledger

/-!
# Histories

The history of a store is a list of snapshots in which each record has been accepted by the
state before it, and each chunk begins with a checkpoint of the state before it.  `History`
says so about the states; `LogHistory` adds that the log maps follow the records as well.

Both hold of every prefix.  A suffix that begins with a chunk is enough to compute the state
at the end (`stateAfter_suffix`): this is why the oldest chunks can be dropped.
-/

namespace RaftLogStore

variable {T : Types}

/-- The state at the end of a history. -/
def endState (hist : List (Snapshot T)) : RaftLogState T :=
  match hist.getLast? with
  | some snap => snap.state
  | none => RaftLogState.default

/-- The log map at the end of a history. -/
def endLog (hist : List (Snapshot T)) : OrderedMap ℕ (LogData T) :=
  match hist.getLast? with
  | some snap => snap.log
  | none => ∅

@[simp] theorem endState_nil : endState ([] : List (Snapshot T)) = RaftLogState.default := rfl

@[simp] theorem endLog_nil : endLog ([] : List (Snapshot T)) = ∅ := rfl

@[simp] theorem endState_concat (hist : List (Snapshot T)) (snap : Snapshot T) :
    endState (hist ++ [snap]) = snap.state := by
  simp [endState]

@[simp] theorem endLog_concat (hist : List (Snapshot T)) (snap : Snapshot T) :
    endLog (hist ++ [snap]) = snap.log := by
  simp [endLog]

/-- A history as far as the states are concerned. -/
inductive History : List (Snapshot T) → Prop
  | nil : History []
  /-- A record is written to the chunk of the record before it. -/
  | write {hist : List (Snapshot T)} {snap : Snapshot T} :
      History hist → (∃ last ∈ hist.getLast?, last.chunkId = snap.chunkId) →
      (endState hist).check snap.located.record = .ok () →
      snap.state = (endState hist).update snap.located.record → History (hist ++ [snap])
  /-- A new chunk begins with a checkpoint of the state. -/
  | rotate {hist : List (Snapshot T)} {snap : Snapshot T} :
      History hist → (∀ s ∈ hist, s.chunkId < snap.chunkId) →
      snap.located.record = .checkpoint (endState hist) → snap.state = endState hist →
      History (hist ++ [snap])

namespace History

theorem sorted {hist : List (Snapshot T)} (h : History hist) :
    hist.Pairwise fun a b => a.chunkId ≤ b.chunkId := by
  induction h with
  | nil => exact List.Pairwise.nil
  | @write hist snap _ hchunk _ _ ih =>
      obtain ⟨last, hlast, hsame⟩ := hchunk
      refine List.pairwise_append.mpr ⟨ih, List.pairwise_singleton _ _, ?_⟩
      intro a ha b hb
      rw [List.mem_singleton.mp hb, ← hsame]
      obtain ⟨front, rfl⟩ := List.getLast?_eq_some_iff.mp hlast
      rcases List.mem_append.mp ha with ha | ha
      · exact (List.pairwise_append.mp ih).2.2 a ha last (by simp)
      · exact (congrArg Snapshot.chunkId (List.mem_singleton.mp ha)).le
  | @rotate hist snap _ hchunk _ _ ih =>
      refine List.pairwise_append.mpr ⟨ih, List.pairwise_singleton _ _, ?_⟩
      intro a ha b hb
      rw [List.mem_singleton.mp hb]
      exact (hchunk a ha).le

theorem of_isPrefix {pre hist : List (Snapshot T)} (h : History hist) (hpre : pre <+: hist) :
    History pre := by
  induction h with
  | nil => rw [List.prefix_nil.mp hpre]; exact History.nil
  | write hist' hchunk hcheck hstate ih =>
      rcases List.prefix_concat_iff.mp hpre with rfl | hpre
      · exact History.write hist' hchunk hcheck hstate
      · exact ih hpre
  | rotate hist' hchunk hrecord hstate ih =>
      rcases List.prefix_concat_iff.mp hpre with rfl | hpre
      · exact History.rotate hist' hchunk hrecord hstate
      · exact ih hpre

theorem take {hist : List (Snapshot T)} (h : History hist) (n : ℕ) : History (hist.take n) :=
  h.of_isPrefix (List.take_prefix n hist)

/-- The last record has been accepted by the state before it.  It is in the chunk of the record
before it, or it is the checkpoint that begins a new one. -/
theorem last_cases {hist : List (Snapshot T)} {snap : Snapshot T} (h : History (hist ++ [snap])) :
    (endState hist).check snap.located.record = .ok () ∧
      ((∃ last ∈ hist.getLast?, last.chunkId = snap.chunkId) ∨
        snap.located.record = .checkpoint (endState hist)) := by
  generalize hwhole : hist ++ [snap] = whole at h
  cases h with
  | nil => simp at hwhole
  | write _ hlast hcheck _ =>
      obtain ⟨rfl, hsnap⟩ := List.append_inj' hwhole rfl
      obtain rfl := List.singleton_inj.mp hsnap
      exact ⟨hcheck, Or.inl hlast⟩
  | rotate _ _ hrecord _ =>
      obtain ⟨rfl, hsnap⟩ := List.append_inj' hwhole rfl
      obtain rfl := List.singleton_inj.mp hsnap
      rw [hrecord]
      exact ⟨rfl, Or.inr rfl⟩

end History

/-! ## The end of a chunk -/

/-- The state at the end of chunk `k`, or at the end of the history if that is earlier. -/
def trailing (hist : List (Snapshot T)) (k : ChunkId) : RaftLogState T :=
  endState (hist.filter fun snap => snap.chunkId ≤ k)

/-- A chunk after `k` has begun within the first `n` records. -/
def Passed (hist : List (Snapshot T)) (n : ℕ) (k : ChunkId) : Prop :=
  ∃ snap ∈ hist.take n, k < snap.chunkId

theorem trailing_concat_of_lt {hist : List (Snapshot T)} {snap : Snapshot T} {k : ChunkId}
    (h : k < snap.chunkId) : trailing (hist ++ [snap]) k = trailing hist k := by
  simp [trailing, List.filter_append, Nat.not_le.mpr h]

/-- At the last chunk, the end of the chunk is the end of the history. -/
theorem trailing_of_forall_le {hist : List (Snapshot T)} {k : ChunkId}
    (h : ∀ snap ∈ hist, snap.chunkId ≤ k) : trailing hist k = endState hist := by
  rw [trailing, List.filter_eq_self.mpr fun snap hsnap => by simpa using h snap hsnap]

theorem Passed.mono {hist : List (Snapshot T)} {n m : ℕ} {k : ChunkId} (h : Passed hist n k)
    (hnm : n ≤ m) : Passed hist m k := by
  obtain ⟨snap, hsnap, hlt⟩ := h
  exact ⟨snap, (List.take_subset_take_left hist hnm) hsnap, hlt⟩

theorem Passed.append {hist : List (Snapshot T)} {n : ℕ} {k : ChunkId} (h : Passed hist n k)
    (added : List (Snapshot T)) : Passed (hist ++ added) n k := by
  obtain ⟨snap, hsnap, hlt⟩ := h
  refine ⟨snap, ?_, hlt⟩
  rw [List.take_append]
  exact List.mem_append_left _ hsnap

theorem Passed.take {hist : List (Snapshot T)} {n r : ℕ} {k : ChunkId} (h : Passed hist n k)
    (hnr : n ≤ r) : Passed (hist.take r) n k := by
  obtain ⟨snap, hsnap, hlt⟩ := h
  exact ⟨snap, by rwa [List.take_take, Nat.min_eq_left hnr], hlt⟩

/-- Behind a chunk that has begun there are only later chunks. -/
theorem History.lt_of_passed {hist : List (Snapshot T)} (h : History hist) {n : ℕ} {k : ChunkId}
    (hpassed : Passed hist n k) : ∀ snap ∈ hist.drop n, k < snap.chunkId := by
  obtain ⟨snap, hsnap, hlt⟩ := hpassed
  intro later hlater
  have hsorted := h.sorted
  rw [← List.take_append_drop n hist] at hsorted
  exact lt_of_lt_of_le hlt ((List.pairwise_append.mp hsorted).2.2 snap hsnap later hlater)

/-- The records of a chunk that has been passed, and of the earlier ones, are not behind it. -/
theorem History.mem_of_passed {hist behind : List (Snapshot T)} (h : History (hist ++ behind))
    {n : ℕ} {k : ChunkId} (hpassed : Passed (hist ++ behind) n k) (hn : n ≤ hist.length)
    {snap : Snapshot T} (hsnap : snap ∈ hist ++ behind) (hle : snap.chunkId ≤ k) :
    snap ∈ hist := by
  rcases List.mem_append.mp hsnap with hsnap | hsnap
  · exact hsnap
  · have hlater := h.lt_of_passed (hpassed.mono hn) snap (by rwa [List.drop_left])
    exact absurd hle (Nat.not_le.mpr hlater)

/-- The end of a chunk of which no record comes later. -/
theorem trailing_take_of_lt {hist : List (Snapshot T)} {n : ℕ} {k : ChunkId}
    (h : ∀ snap ∈ hist.drop n, k < snap.chunkId) : trailing (hist.take n) k = trailing hist k := by
  have hnone : (hist.drop n).filter (fun snap => decide (snap.chunkId ≤ k)) = [] := by
    refine List.filter_eq_nil_iff.mpr fun snap hsnap => ?_
    simpa using h snap hsnap
  calc trailing (hist.take n) k
      = endState ((hist.take n ++ hist.drop n).filter fun snap => snap.chunkId ≤ k) := by
        rw [List.filter_append, hnone, List.append_nil, trailing]
    _ = trailing hist k := by rw [List.take_append_drop, trailing]

/-- Once a later chunk has begun, the end of a chunk does not move. -/
theorem History.trailing_take {hist : List (Snapshot T)} (h : History hist) {n : ℕ} {k : ChunkId}
    (hpassed : Passed hist n k) : trailing (hist.take n) k = trailing hist k :=
  trailing_take_of_lt (h.lt_of_passed hpassed)

/-! ## Suffixes -/

theorem stateAfter_concat (start : RaftLogState T) (records : List (Located T)) (l : Located T) :
    stateAfter start (records ++ [l]) = (stateAfter start records).update l.record := by
  simp [stateAfter]

/-- A nonempty suffix of a history ends with its last record. -/
theorem suffix_concat {hist pre suf : List (Snapshot T)} {snap : Snapshot T}
    (hsplit : hist ++ [snap] = pre ++ suf) (hne : suf ≠ []) :
    ∃ suf', suf = suf' ++ [snap] ∧ hist = pre ++ suf' := by
  rcases List.eq_nil_or_concat' suf with hnil | ⟨suf', last, rfl⟩
  · exact absurd hnil hne
  · rw [← List.append_assoc] at hsplit
    obtain ⟨hhist, hlast⟩ := List.append_inj' hsplit rfl
    exact ⟨suf', by rw [List.singleton_inj.mp hlast], hhist⟩

/-- The records from the beginning of some chunk on lead to the state at the end, wherever
they start from. -/
theorem History.stateAfter_suffix {hist : List (Snapshot T)} (h : History hist)
    (start : RaftLogState T) {pre suf : List (Snapshot T)} (hsplit : hist = pre ++ suf)
    (hne : suf ≠ []) (hchunk : ∀ a ∈ pre, ∀ b ∈ suf, a.chunkId < b.chunkId) :
    stateAfter start (suf.map Snapshot.located) = endState hist := by
  induction h generalizing suf with
  | nil => simp_all
  | @write hist snap _ hlast _ hstate ih =>
      obtain ⟨suf', rfl, rfl⟩ := suffix_concat hsplit hne
      -- the record before is in the same chunk, so it is not in `pre`
      have hne' : suf' ≠ [] := by
        rintro rfl
        obtain ⟨last, hlast, hsame⟩ := hlast
        rw [List.append_nil] at hlast
        have hlt := hchunk last (List.mem_of_getLast? hlast) snap (by simp)
        exact absurd hsame (Nat.ne_of_lt hlt)
      rw [List.map_append, List.map_singleton, stateAfter_concat, endState_concat, hstate]
      rw [ih rfl hne' fun a ha b hb => hchunk a ha b (by simp [hb])]
  | @rotate hist snap _ _ hrecord hstate ih =>
      -- whatever the state is, the checkpoint puts the right one in its place
      obtain ⟨suf', rfl, rfl⟩ := suffix_concat hsplit hne
      rw [List.map_append, List.map_singleton, stateAfter_concat, endState_concat, hrecord,
        hstate]
      rfl

/-- The same at the end of a chunk. -/
theorem History.stateAfter_filter {hist : List (Snapshot T)} (h : History hist)
    (start : RaftLogState T) {pre suf : List (Snapshot T)} (hsplit : hist = pre ++ suf)
    (hchunk : ∀ a ∈ pre, ∀ b ∈ suf, a.chunkId < b.chunkId) {k : ChunkId}
    (hk : ∃ snap ∈ suf, snap.chunkId = k) :
    stateAfter start ((suf.map Snapshot.located).filter fun l => l.chunkId ≤ k) =
      trailing hist k := by
  have hprefix := List.filter_le_isPrefix h.sorted k
  have hmap : (suf.map Snapshot.located).filter (fun l => decide (l.chunkId ≤ k)) =
      (suf.filter fun snap => decide (snap.chunkId ≤ k)).map Snapshot.located := by
    rw [List.filter_map]
    rfl
  obtain ⟨snap, hsnap, rfl⟩ := hk
  have hfilter : hist.filter (fun s => decide (s.chunkId ≤ snap.chunkId)) =
      pre ++ suf.filter fun s => decide (s.chunkId ≤ snap.chunkId) := by
    rw [hsplit, List.filter_append]
    congr 1
    exact List.filter_eq_self.mpr fun a ha => by simpa using (hchunk a ha snap hsnap).le
  rw [hmap, trailing]
  refine (h.of_isPrefix hprefix).stateAfter_suffix start hfilter ?_ ?_
  · exact List.ne_nil_of_mem (List.mem_filter.mpr ⟨hsnap, by simp⟩)
  · intro a ha b hb
    exact hchunk a ha b (List.mem_filter.mp hb).1

/-! ## The log maps -/

/-- Each log map is the one before it after the record between them. -/
def LogHistory (hist : List (Snapshot T)) : Prop :=
  ∀ pre snap, pre ++ [snap] <+: hist →
    RaftLogStateMachine.logAfter snap.located.record snap.chunkId snap.located.segment
      (endLog pre) = .ok snap.log

theorem LogHistory.of_isPrefix {pre hist : List (Snapshot T)} (h : LogHistory hist)
    (hpre : pre <+: hist) : LogHistory pre :=
  fun pre' snap h' => h pre' snap (h'.trans hpre)

theorem LogHistory.nil : LogHistory ([] : List (Snapshot T)) := by
  intro pre snap h
  simp at h

theorem LogHistory.concat {hist : List (Snapshot T)} {snap : Snapshot T} (h : LogHistory hist)
    (hlog : RaftLogStateMachine.logAfter snap.located.record snap.chunkId
      snap.located.segment (endLog hist) = .ok snap.log) : LogHistory (hist ++ [snap]) := by
  intro pre last hpre
  rcases List.prefix_concat_iff.mp hpre with heq | hpre
  · obtain ⟨rfl, hlast⟩ := List.append_inj' heq rfl
    rw [List.singleton_inj.mp hlast]
    exact hlog
  · exact h pre last hpre

/-- The last record of a history with log maps. -/
theorem LogHistory.last {hist : List (Snapshot T)} {snap : Snapshot T}
    (h : LogHistory (hist ++ [snap])) :
    RaftLogStateMachine.logAfter snap.located.record snap.chunkId snap.located.segment
      (endLog hist) = .ok snap.log :=
  h hist snap (List.prefix_refl _)

/-- An entry of the log map lies in a chunk of the history. -/
theorem LogHistory.chunkId_mem {hist : List (Snapshot T)} (h : LogHistory hist) {k : ℕ}
    {d : LogData T} (hget : (endLog hist).get k = some d) :
    ∃ snap ∈ hist, snap.chunkId = d.chunkId := by
  induction hist using List.reverseRecOn with
  | nil => simp at hget
  | append_singleton hist snap ih =>
      rw [endLog_concat] at hget
      rcases RaftLogStateMachine.get_logAfter h.last hget with hold | ⟨_, _, _, hchunk, _⟩
      · obtain ⟨s, hs, hchunk⟩ := ih (h.of_isPrefix (List.prefix_append _ _)) hold
        exact ⟨s, List.mem_append_left _ hs, hchunk⟩
      · exact ⟨snap, by simp, hchunk.symm⟩

end RaftLogStore
