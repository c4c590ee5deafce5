import Mathlib.Data.List.Dedup
import RaftLogStore.Journal.Accounting

/-!
# Opening a directory again

The records found in a directory are the history behind the unlinked chunks, up to the record
that was lost first (`DiskSplit`).  They begin with a chunk, so the replayed state is the one
the history has there (`Survives.state_eq`).  With this the invariants of `Accounting` hold
again after a restart, and so in every reachable ledger (`Accounted.step`).
-/

namespace RaftLogStore

variable {T : Types} {G : Journal T → RaftLogRecord T → Prop}

theorem replay_state {sm sm' : RaftLogStateMachine T} {records : List (Located T)}
    (h : Replay sm records sm') : sm'.logState = stateAfter sm.logState records := by
  induction h with
  | nil => rfl
  | record _ happly ih =>
      obtain ⟨-, -, -, hstate⟩ := RaftLogStateMachine.apply_eq_ok.mp happly
      rw [hstate, ih, stateAfter_concat]
  | persisted checkpoint _ ih => exact ih

theorem chunksOf_sorted {start : RaftLogState T} {records : List (Located T)}
    (h : records.Pairwise fun a b => a.chunkId ≤ b.chunkId) :
    ((chunksOf start records).map ClosedChunk.chunkId).Pairwise (· < ·) := by
  have hmap : (chunksOf start records).map ClosedChunk.chunkId =
      (records.map Located.chunkId).dedup := by
    simp [chunksOf, Function.comp_def]
  rw [hmap]
  have hle : (records.map Located.chunkId).dedup.Pairwise (· ≤ ·) :=
    (List.pairwise_map.mpr h).sublist (List.dedup_sublist _)
  exact (hle.and (List.nodup_dedup _)).imp fun hab => lt_of_le_of_ne hab.1 hab.2

theorem mem_chunksOf {start : RaftLogState T} {records : List (Located T)} {c : ClosedChunk T} :
    c ∈ chunksOf start records ↔
      (∃ l ∈ records, l.chunkId = c.chunkId) ∧
        c.state = stateAfter start (records.filter fun l => l.chunkId ≤ c.chunkId) := by
  obtain ⟨k, state⟩ := c
  simp only [chunksOf, List.mem_map, List.mem_dedup, ClosedChunk.mk.injEq]
  constructor
  · rintro ⟨k', ⟨l, hl, rfl⟩, rfl, rfl⟩
    exact ⟨⟨l, hl, rfl⟩, rfl⟩
  · rintro ⟨⟨l, hl, hk⟩, hstate⟩
    exact ⟨k, ⟨l, hl, hk⟩, rfl, hstate.symm⟩

namespace Ledger

/-- The first `survivors` records may be all that is left of a history: the unlinked chunks are
its oldest ones, and a record that survives has passed each of them. -/
structure Survives (a : Ledger T) (survivors : ℕ) : Prop where
  history : History a.hist
  oldest : ∀ k ∈ a.unlinked, ∀ snap ∈ a.hist, snap.chunkId ≤ k → snap.chunkId ∈ a.unlinked
  passed : ∀ k ∈ a.unlinked, Passed a.hist survivors k

/-- The records that survive are `pre`, whose chunks are unlinked, and `suf`, which are found in
the directory. -/
structure DiskSplit (a : Ledger T) (survivors : ℕ) (pre suf : List (Snapshot T)) : Prop where
  take_eq : a.hist.take survivors = pre ++ suf
  disk_eq : a.disk survivors = suf.map Snapshot.located
  unlinked : ∀ snap ∈ pre, snap.chunkId ∈ a.unlinked
  lt : ∀ x ∈ pre, ∀ y ∈ suf, x.chunkId < y.chunkId
  pre_eq_nil : suf = [] → pre = []

namespace Survives

variable {a : Ledger T} {survivors : ℕ}

theorem nil (j : Journal T) : (blank j).Survives 0 :=
  ⟨History.nil, by simp [blank], by simp [blank]⟩

/-- The last chunk that survives is not an unlinked one: such a chunk has been passed. -/
theorem eq_nil_of_unlinked (h : a.Survives survivors)
    (hunlinked : ∀ snap ∈ a.hist.take survivors, snap.chunkId ∈ a.unlinked) :
    a.hist.take survivors = [] := by
  have hsorted := (h.history.take survivors).sorted
  rcases List.eq_nil_or_concat' (a.hist.take survivors) with hempty | ⟨front, last, hlast⟩
  · exact hempty
  · obtain ⟨snap, hsnap, hlt⟩ := h.passed _ (hunlinked last (by simp [hlast]))
    rw [hlast] at hsnap hsorted
    rcases List.mem_append.mp hsnap with hsnap | hsnap
    · have hle := (List.pairwise_append.mp hsorted).2.2 snap hsnap last (by simp)
      exact absurd hlt (Nat.not_lt.mpr hle)
    · rw [List.mem_singleton.mp hsnap] at hlt
      exact absurd hlt (Nat.lt_irrefl _)

/-- The records of a directory are those of the history behind its unlinked chunks. -/
theorem split (h : a.Survives survivors) : ∃ pre suf, a.DiskSplit survivors pre suf := by
  have hsub : ∀ snap ∈ a.hist.take survivors, snap ∈ a.hist :=
    fun snap hsnap => List.mem_of_mem_take hsnap
  have hsorted := (h.history.take survivors).sorted
  have hcut := List.filter_append_filter_not (l := a.hist.take survivors)
    (p := fun snap => decide (snap.chunkId ∈ a.unlinked)) (by
      refine hsorted.imp_of_mem fun {x y} hx hy hxy hunlinked => ?_
      simp only [decide_eq_true_eq] at hunlinked ⊢
      exact h.oldest _ hunlinked x (hsub x hx) hxy)
  refine ⟨_, _, hcut.symm, ?_, ?_, ?_, ?_⟩
  · rw [Ledger.disk, List.filter_map]
    congr 1
    refine List.filter_congr fun snap _ => ?_
    simp
  · intro snap hsnap
    simpa using (List.mem_filter.mp hsnap).2
  · intro x hx y hy
    have hxu : x.chunkId ∈ a.unlinked := by simpa using (List.mem_filter.mp hx).2
    have hyu : y.chunkId ∉ a.unlinked := by simpa using (List.mem_filter.mp hy).2
    refine Nat.not_le.mp fun hle => hyu ?_
    exact h.oldest _ hxu y (hsub y (List.mem_of_mem_filter hy)) hle
  · intro hnil
    have hall : a.hist.take survivors = [] := h.eq_nil_of_unlinked fun snap hsnap => by
      have hnot := List.filter_eq_nil_iff.mp hnil snap hsnap
      simpa using hnot
    simp [hall]

/-- The place in the history of a record that is found in the directory.  The first one is a
checkpoint.  Before every other one, the replay has reached the state of the history. -/
theorem replayed_place (h : a.Survives survivors) {records rest : List (Located T)}
    {l : Located T} {start sm : RaftLogStateMachine T}
    (hcut : a.disk survivors = records ++ l :: rest) (hreplay : Replay start records sm) :
    ∃ pre snap, snap.located = l ∧ pre ++ [snap] <+: a.hist.take survivors ∧
      (records = [] ∧ l.record = .checkpoint (endState pre) ∨
        records ≠ [] ∧ sm.logState = endState pre) := by
  obtain ⟨front, suf, hsplit⟩ := h.split
  obtain ⟨suf₁, behind, rfl, rfl, hbehind⟩ :=
    List.map_eq_append_iff.mp (hsplit.disk_eq.symm.trans hcut)
  obtain ⟨snap, suf₂, rfl, rfl, -⟩ := List.map_eq_cons_iff.mp hbehind
  have hprefix : (front ++ suf₁) ++ [snap] <+: a.hist.take survivors := by
    rw [hsplit.take_eq]
    exact ⟨suf₂, by simp⟩
  have hupto := (h.history.take survivors).of_isPrefix hprefix
  refine ⟨front ++ suf₁, snap, rfl, hprefix, ?_⟩
  by_cases hne : suf₁ = []
  · -- the record before is in a chunk that is gone
    refine Or.inl ⟨by rw [hne, List.map_nil], hupto.last_cases.2.resolve_left ?_⟩
    rintro ⟨last, hlast, hsame⟩
    rw [hne, List.append_nil] at hlast
    have hlt := hsplit.lt last (List.mem_of_getLast? hlast) snap (by simp)
    exact absurd hsame (Nat.ne_of_lt hlt)
  · refine Or.inr ⟨by simpa using hne, ?_⟩
    rw [replay_state hreplay]
    exact (hupto.of_isPrefix (List.prefix_append _ _)).stateAfter_suffix _ rfl hne
      fun x hx y hy => hsplit.lt x hx y (List.mem_append_left _ hy)

/-- The state recomputed for the end of a chunk is the one the live store had there, or right
after the last record of the chunk that survives. -/
theorem chunksOf_disk (h : a.Survives survivors) {c : ClosedChunk T}
    (hc : c ∈ chunksOf RaftLogState.default (a.disk survivors)) :
    c.state = trailing (a.hist.take survivors) c.chunkId := by
  obtain ⟨pre, suf, hsplit⟩ := h.split
  obtain ⟨⟨l, hl, hlc⟩, hcstate⟩ := mem_chunksOf.mp hc
  rw [hcstate, hsplit.disk_eq]
  refine (h.history.take survivors).stateAfter_filter _ hsplit.take_eq hsplit.lt ?_
  rw [hsplit.disk_eq] at hl
  obtain ⟨snap, hsnap, rfl⟩ := List.mem_map.mp hl
  exact ⟨snap, hsnap, hlc⟩

end Survives

namespace DiskSplit

variable {a : Ledger T} {survivors : ℕ} {pre suf : List (Snapshot T)}

/-- A chunk behind those of the directory is behind all that survives. -/
theorem lt_of_behind (h : a.DiskSplit survivors pre suf) {k : ChunkId}
    (hbehind : ∀ l ∈ a.disk survivors, l.chunkId < k) :
    ∀ snap ∈ a.hist.take survivors, snap.chunkId < k := by
  have hsuf : ∀ snap ∈ suf, snap.chunkId < k := fun snap hsnap =>
    hbehind _ (h.disk_eq ▸ List.mem_map.mpr ⟨snap, hsnap, rfl⟩)
  intro snap hsnap
  rw [h.take_eq] at hsnap
  rcases List.mem_append.mp hsnap with hsnap | hsnap
  · obtain ⟨first, hfirst⟩ := List.exists_mem_of_ne_nil suf fun hnil => by
      simp [h.pre_eq_nil hnil] at hsnap
    exact (h.lt snap hsnap first hfirst).trans (hsuf first hfirst)
  · exact hsuf snap hsnap

/-- What is found, with what is written behind it, is a suffix of the history. -/
theorem written (h : a.DiskSplit survivors pre suf) (extra : List (Snapshot T))
    (hextra : ∀ x ∈ pre, ∀ y ∈ extra, x.chunkId < y.chunkId) :
    ∃ pre', (a.hist.take survivors ++ extra).map Snapshot.located =
        pre' ++ (a.disk survivors ++ extra.map Snapshot.located) ∧
      (∀ l ∈ pre', l.chunkId ∈ a.unlinked) ∧
      ∀ l ∈ pre', ∀ l' ∈ a.disk survivors ++ extra.map Snapshot.located,
        l.chunkId < l'.chunkId := by
  refine ⟨pre.map Snapshot.located, by simp [h.take_eq, h.disk_eq], ?_, ?_⟩
  · intro l hl
    obtain ⟨snap, hsnap, rfl⟩ := List.mem_map.mp hl
    exact h.unlinked snap hsnap
  · intro l hl l' hl'
    obtain ⟨snap, hsnap, rfl⟩ := List.mem_map.mp hl
    rw [h.disk_eq, ← List.map_append] at hl'
    obtain ⟨snap', hsnap', rfl⟩ := List.mem_map.mp hl'
    rcases List.mem_append.mp hsnap' with hsnap' | hsnap'
    · exact h.lt snap hsnap snap' hsnap'
    · exact hextra snap hsnap snap' hsnap'

end DiskSplit

end Ledger

namespace Loaded

variable {disk : List (Located T)} {j : Journal T}

theorem state_eq (h : Loaded disk j) : j.state = stateAfter RaftLogState.default disk := by
  obtain ⟨config, sm, hreplay, -, hstate, -⟩ := h.replay
  rw [hstate, replay_state hreplay]
  rfl

theorem le_openChunkId (h : Loaded disk j)
    (hsorted : disk.Pairwise fun x y => x.chunkId ≤ y.chunkId) {l : Located T} (hl : l ∈ disk) :
    l.chunkId ≤ j.openChunkId := by
  rcases h.written with ⟨-, last, hlast, hopen⟩ | ⟨-, hlt⟩
  · obtain ⟨front, rfl⟩ := List.getLast?_eq_some_iff.mp hlast
    rcases List.mem_append.mp hl with hmem | hmem
    · exact hopen ▸ (List.pairwise_append.mp hsorted).2.2 l hmem last (by simp)
    · exact hopen ▸ (congrArg Located.chunkId (List.mem_singleton.mp hmem)).le
  · exact (hlt l hl).le

theorem chunkId_written (h : Loaded disk j) (k : ChunkId) :
    (∃ l ∈ j.written, l.chunkId = k) ↔ k = j.openChunkId ∨ ∃ l ∈ disk, l.chunkId = k := by
  rcases h.written with ⟨hwritten, last, hlast, hopen⟩ | ⟨⟨segment, hwritten⟩, -⟩
  · rw [hwritten]
    constructor
    · exact Or.inr
    · rintro (rfl | hmem)
      · exact ⟨last, List.mem_of_getLast? hlast, hopen⟩
      · exact hmem
  · rw [hwritten]
    constructor
    · rintro ⟨l, hl, rfl⟩
      rcases List.mem_append.mp hl with hl | hl
      · exact Or.inr ⟨l, hl, rfl⟩
      · exact Or.inl (congrArg Located.chunkId (List.mem_singleton.mp hl))
    · rintro (rfl | ⟨l, hl, rfl⟩)
      · exact ⟨_, List.mem_append_right _ (List.mem_singleton_self _), rfl⟩
      · exact ⟨l, List.mem_append_left _ hl, rfl⟩

theorem chunks_eq (h : Loaded disk j) :
    j.chunks = j.closed.map ClosedChunk.chunkId ++ [j.openChunkId] := by
  simp [Journal.chunks, h.queue, h.removed]

theorem mem_closed (h : Loaded disk j) {c : ClosedChunk T} :
    c ∈ j.closed ↔ c ∈ chunksOf RaftLogState.default disk ∧ c.chunkId ≠ j.openChunkId := by
  rw [h.closed, List.mem_filter]
  simp

theorem closed_lt (h : Loaded disk j)
    (hsorted : disk.Pairwise fun x y => x.chunkId ≤ y.chunkId) {c : ClosedChunk T}
    (hc : c ∈ j.closed) : c.chunkId < j.openChunkId := by
  obtain ⟨hmem, hne⟩ := h.mem_closed.mp hc
  obtain ⟨⟨l, hl, hlc⟩, -⟩ := mem_chunksOf.mp hmem
  exact lt_of_le_of_ne (hlc ▸ h.le_openChunkId hsorted hl) hne

theorem chunks_sorted (h : Loaded disk j)
    (hsorted : disk.Pairwise fun x y => x.chunkId ≤ y.chunkId) :
    j.chunks.Pairwise (· < ·) := by
  rw [h.chunks_eq]
  refine List.pairwise_append.mpr ⟨?_, List.pairwise_singleton _ _, ?_⟩
  · rw [h.closed]
    exact (chunksOf_sorted hsorted).sublist (List.filter_sublist.map _)
  · intro k hk k' hk'
    obtain ⟨c, hc, rfl⟩ := List.mem_map.mp hk
    exact List.mem_singleton.mp hk' ▸ h.closed_lt hsorted hc

theorem mem_chunks (h : Loaded disk j) (k : ChunkId) :
    k ∈ j.chunks ↔ ∃ l ∈ j.written, l.chunkId = k := by
  rw [h.chunkId_written, h.chunks_eq, List.mem_append, List.mem_singleton, List.mem_map]
  constructor
  · rintro (⟨c, hc, rfl⟩ | rfl)
    · exact Or.inr (mem_chunksOf.mp (h.mem_closed.mp hc).1).1
    · exact Or.inl rfl
  · intro hk
    by_cases hopen : k = j.openChunkId
    · exact Or.inr hopen
    · let c : ClosedChunk T :=
        ⟨k, stateAfter RaftLogState.default (disk.filter fun l => l.chunkId ≤ k)⟩
      have hc : c ∈ chunksOf RaftLogState.default disk :=
        mem_chunksOf.mpr ⟨hk.resolve_left hopen, rfl⟩
      exact Or.inl ⟨c, h.mem_closed.mpr ⟨hc, hopen⟩, rfl⟩

end Loaded

/-- A restart adds at most the checkpoint of a new chunk, behind what has survived. -/
theorem reopened_hist {a : Ledger T} {survivors : ℕ} {j : Journal T} (sentBefore : List ChunkId)
    (hloaded : Loaded (a.disk survivors) j) :
    (a.reopened survivors sentBefore j).hist = a.hist.take survivors ∨
      ∃ segment, (a.reopened survivors sentBefore j).hist = a.hist.take survivors ++
        [⟨⟨j.openChunkId, segment, .checkpoint j.state⟩, j.state, j.log⟩] := by
  rcases hloaded.written with ⟨hwritten, -⟩ | ⟨⟨segment, hwritten⟩, -⟩
  · exact Or.inl (by simp [Ledger.reopened, hwritten])
  · exact Or.inr ⟨segment, by simp [Ledger.reopened, hwritten]⟩

namespace Ledger.Survives

variable {a : Ledger T} {survivors : ℕ} {j : Journal T}

/-- What is loaded of the records that survive is the state that the live store had there. -/
theorem state_eq (h : a.Survives survivors) (hloaded : Loaded (a.disk survivors) j) :
    j.state = endState (a.hist.take survivors) := by
  obtain ⟨pre, suf, hsplit⟩ := h.split
  rw [hloaded.state_eq, hsplit.disk_eq]
  by_cases hne : suf = []
  · rw [hsplit.take_eq, hsplit.pre_eq_nil hne, hne]
    rfl
  · exact (h.history.take survivors).stateAfter_suffix _ hsplit.take_eq hne hsplit.lt

/-- The last chunk found in the directory is written further: the history is the records that
survive. -/
theorem recorded_last (h : a.Survives survivors) (hloaded : Loaded (a.disk survivors) j)
    (sentBefore : List ChunkId) (hwritten : j.written = a.disk survivors) {last : Located T}
    (hlast : (a.disk survivors).getLast? = some last) (hopen : last.chunkId = j.openChunkId) :
    Recorded (a.reopened survivors sentBefore j) := by
  obtain ⟨pre, suf, hsplit⟩ := h.split
  have hsorted := Ledger.disk_sorted h.history.sorted survivors
  have hhist : (a.reopened survivors sentBefore j).hist = a.hist.take survivors := by
    simp [Ledger.reopened, hwritten]
  refine ⟨?_, ?_, ?_, ?_, ?_, hloaded.chunks_sorted hsorted, hloaded.mem_chunks⟩
  · rw [hhist]
    exact h.history.take survivors
  · rw [hhist]
    exact h.state_eq hloaded
  · rw [hsplit.disk_eq, List.getLast?_map] at hlast
    obtain ⟨snap, hsnap, rfl⟩ := Option.map_eq_some_iff.mp hlast
    refine ⟨snap, ?_, hopen⟩
    rw [hhist, hsplit.take_eq, List.getLast?_append, hsnap]
    rfl
  · have hsuffix := hsplit.written [] (by simp)
    simp only [List.append_nil, List.map_nil, ← hwritten] at hsuffix
    rw [hhist]
    exact hsuffix
  · intro c hc
    rw [hhist]
    exact h.chunksOf_disk (hloaded.mem_closed.mp hc).1

/-- A new chunk begins behind the records that survive. -/
theorem recorded_new (h : a.Survives survivors) (hloaded : Loaded (a.disk survivors) j)
    (sentBefore : List ChunkId) {segment : Segment}
    (hwritten : j.written =
      a.disk survivors ++ [⟨j.openChunkId, segment, .checkpoint j.state⟩])
    (hbehind : ∀ l ∈ a.disk survivors, l.chunkId < j.openChunkId) :
    Recorded (a.reopened survivors sentBefore j) := by
  obtain ⟨pre, suf, hsplit⟩ := h.split
  have hsorted := Ledger.disk_sorted h.history.sorted survivors
  have hstate := h.state_eq hloaded
  have hlater := hsplit.lt_of_behind hbehind
  have hhist : (a.reopened survivors sentBefore j).hist = a.hist.take survivors ++
      [⟨⟨j.openChunkId, segment, .checkpoint j.state⟩, j.state, j.log⟩] := by
    simp [Ledger.reopened, hwritten]
  refine ⟨?_, ?_, ?_, ?_, ?_, hloaded.chunks_sorted hsorted, hloaded.mem_chunks⟩
  · rw [hhist]
    exact History.rotate (h.history.take survivors) hlater (by rw [← hstate]) hstate
  · rw [hhist, endState_concat]
    rfl
  · rw [hhist]
    exact ⟨_, List.getLast?_concat .., rfl⟩
  · have hpre : ∀ x ∈ pre, x.chunkId < j.openChunkId := fun x hx =>
      hlater x (hsplit.take_eq ▸ List.mem_append_left _ hx)
    have hsuffix := hsplit.written
      [⟨⟨j.openChunkId, segment, .checkpoint j.state⟩, j.state, j.log⟩] (by simpa using hpre)
    simp only [List.map_cons, List.map_nil, ← hwritten] at hsuffix
    rw [hhist]
    exact hsuffix
  · intro c hc
    rw [hhist, trailing_concat_of_lt (hloaded.closed_lt hsorted hc)]
    exact h.chunksOf_disk (hloaded.mem_closed.mp hc).1

/-- The records that survive make a history, and what is loaded of them agrees with it. -/
theorem recorded (h : a.Survives survivors) (hloaded : Loaded (a.disk survivors) j)
    (sentBefore : List ChunkId) : Recorded (a.reopened survivors sentBefore j) := by
  rcases hloaded.written with ⟨hwritten, last, hlast, hopen⟩ | ⟨⟨segment, hwritten⟩, hbehind⟩
  · exact h.recorded_last hloaded sentBefore hwritten hlast hopen
  · exact h.recorded_new hloaded sentBefore hwritten hbehind

end Ledger.Survives

/-- The order is kept by a restart if `P` is. -/
theorem Ordered.reopened {P : List (Snapshot T) → ℕ → ChunkId → Prop} {a : Ledger T}
    {survivors : ℕ} {sentBefore : List ChunkId} {j : Journal T}
    (hsurvives : a.Survives survivors) (hloaded : Loaded (a.disk survivors) j)
    (hsynced : a.synced ≤ survivors) (hlen : survivors ≤ a.hist.length)
    (hunlinked : ∀ k ∈ a.unlinked, P (a.reopened survivors sentBefore j).hist a.synced k)
    (hsent : ∀ k ∈ sentBefore, P (a.reopened survivors sentBefore j).hist survivors k) :
    Ordered P (a.reopened survivors sentBefore j) := by
  have hlength : survivors ≤ (a.reopened survivors sentBefore j).hist.length := by
    simp only [Ledger.reopened, List.length_append, List.length_take]
    omega
  have hqueue : (a.reopened survivors sentBefore j).journal.queue = [] := hloaded.queue
  refine ⟨?_, ?_, hunlinked, hsent, ?_, Nat.zero_le _, ?_, ?_, ?_, hsynced.trans hlength, hlength⟩
  · intro k hk
    rw [show (a.reopened survivors sentBefore j).journal.removed = [] from hloaded.removed] at hk
    simp at hk
  · intro q chunkIds hq
    rw [hqueue] at hq
    simp at hq
  · intro sync upto hmem
    rw [hqueue] at hmem
    simp at hmem
  · intro q hq
    exact absurd hq (Nat.not_lt_zero q)
  · intro q hq
    exact absurd hq (Nat.not_lt_zero q)
  · -- the checkpoint of a new chunk comes after every unlinked chunk
    intro k hk snap hsnap hle
    have hhist := (hsurvives.recorded hloaded sentBefore).history
    have hpassed := ((hsurvives.passed k hk).take le_rfl).append
      ((j.written.drop (a.disk survivors).length).map fun l => ⟨l, j.state, j.log⟩)
    have hsurvived := hhist.mem_of_passed hpassed (by rw [List.length_take]; omega) hsnap hle
    exact hsurvives.oldest k hk snap (List.mem_of_mem_take hsurvived) hle

/-- Whatever survives of a ledger in order, with all that has been synced, can be loaded. -/
theorem Ordered.survives {P : List (Snapshot T) → ℕ → ChunkId → Prop} {a : Ledger T}
    (h : Ordered P a) (hrec : Recorded a)
    (hP : ∀ {hist n k}, P hist n k → Passed hist n k) {survivors : ℕ}
    (hsynced : a.synced ≤ survivors) : a.Survives survivors :=
  ⟨hrec.history, h.unlinked_oldest, fun k hk => (hP (h.unlinked k hk)).mono hsynced⟩

/-- Being passed is persistent, whatever the records are. -/
theorem passed_persistent (I : Ledger T → Prop) : Persistent G I Passed where
  passed := id
  mono := Passed.mono
  drain hrec _ _ hc := hrec.closed_passed (Journal.mem_removable hc).1
  store _ _ _ _ h := h.append _
  reopen _ _ _ _ _ _ hn h := (h.take hn).append _

/-! ## Every reachable ledger -/

/-- The two invariants together. -/
structure Accounted (P : List (Snapshot T) → ℕ → ChunkId → Prop) (a : Ledger T) : Prop where
  recorded : Recorded a
  ordered : Ordered P a

namespace Accounted

variable {P : List (Snapshot T) → ℕ → ChunkId → Prop} {I : Ledger T → Prop}

theorem initial {j : Journal T} (hloaded : Loaded [] j) :
    Accounted P ((Ledger.blank j).reopened 0 [] j) := by
  have hopened : Loaded ((Ledger.blank j).disk 0) j := hloaded
  have hblank := Ledger.Survives.nil j
  exact ⟨hblank.recorded hopened [], Ordered.reopened hblank hopened le_rfl le_rfl
    (by simp [Ledger.blank]) (by simp)⟩

/-- The chunks passed on for removal before a restart satisfy `P` at what survives of the
records that a restart remembers. -/
theorem sentBefore_survived {a : Ledger T} (h : Accounted P a) (hP : Persistent G I P)
    {survivors : ℕ} {sentBefore : List ChunkId} (hsynced : a.synced ≤ survivors)
    (hremembers : a.Remembers survivors sentBefore) :
    ∀ k ∈ sentBefore, P a.hist survivors k := by
  intro k hk
  rcases hremembers with rfl | ⟨rfl, hkept, hhanded⟩
  · exact hP.mono (h.ordered.unlinked k hk) hsynced
  · rcases List.mem_append.mp hk with hk | hk
    · exact hP.mono (h.ordered.sentBefore k hk) hkept
    · obtain ⟨chunkIds, hmem, hk⟩ := System.mem_queuedRemovals.mp hk
      obtain ⟨q, hq⟩ := List.mem_iff_getElem?.mp hmem
      obtain ⟨q', -, upto, hwrite, hP'⟩ := h.ordered.queued q chunkIds hq
      exact hP.mono (hP' k hk) (hhanded true upto (List.mem_of_getElem? hwrite))

/-- One step of a ledger keeps both invariants. -/
theorem step {a a' : Ledger T} (h : Accounted P a) (hP : Persistent G I P) (hI : I a)
    (hstep : Ledger.Step G a a') : Accounted P a' := by
  obtain ⟨hrec, hord⟩ := h
  cases hstep with
  | store hjournal => exact ⟨hrec.store hjournal, hord.store hP hrec hI hjournal⟩
  | handleWrite hrequest =>
      exact ⟨by simpa using hrec.unlink [] _ _, hord.handleWrite hP hrec hrequest⟩
  | handleRemoval hrequest => exact ⟨hrec.unlink _ _ _, hord.handleRemoval hP hrec hrequest⟩
  | handleFile hrequest =>
      exact ⟨by simpa using hrec.unlink [] _ _, hord.handleFile hrequest⟩
  | unlinkFirst n hrequest => exact ⟨hrec.unlink _ _ _, hord.unlinkFirst hP hrec n hrequest⟩
  | @reopen survivors sentBefore j hsynced hlen hremembers hloaded =>
      have hkeep : ∀ n k, n ≤ survivors → P a.hist n k →
          P (a.reopened survivors sentBefore j).hist n k :=
        fun n k hn => hP.reopen hrec hord hI hsynced hlen hloaded hn
      have hunlinked : ∀ k ∈ a.unlinked, P (a.reopened survivors sentBefore j).hist a.synced k :=
        fun k hk => hkeep _ k hsynced (hord.unlinked k hk)
      have hsurvives := hord.survives hrec hP.passed hsynced
      refine ⟨hsurvives.recorded hloaded sentBefore,
        Ordered.reopened hsurvives hloaded hsynced hlen hunlinked ?_⟩
      intro k hk
      refine hkeep _ k le_rfl ?_
      exact sentBefore_survived ⟨hrec, hord⟩ hP hsynced hremembers k hk

/-- The chunks that are removed are passed, whatever the records are. -/
theorem step_passed {a a' : Ledger T} (h : Accounted Passed a) (hstep : Ledger.Step G a a') :
    Accounted Passed a' :=
  h.step (passed_persistent (fun _ => True)) trivial hstep

end Accounted

/-- A property of histories that the records of `G` keep, and so do a checkpoint and the loss of
the last records. -/
structure HistoryRule (G : Journal T → RaftLogRecord T → Prop) (I : List (Snapshot T) → Prop) :
    Prop where
  nil : I []
  take {hist : List (Snapshot T)} (n : ℕ) : I hist → I (hist.take n)
  checkpoint {hist : List (Snapshot T)} (l : Located T) (log : OrderedMap ℕ (LogData T)) :
    I hist → I (hist ++ [⟨l, endState hist, log⟩])
  write {j : Journal T} {hist : List (Snapshot T)} {l : Located T}
    (log : OrderedMap ℕ (LogData T)) : j.state = endState hist → G j l.record →
    j.state.check l.record = .ok () → I hist → I (hist ++ [⟨l, j.state.update l.record, log⟩])

namespace HistoryRule

variable {I : List (Snapshot T) → Prop} {a a' : Ledger T}

theorem reopened (hI : HistoryRule G I) {survivors : ℕ} {j : Journal T}
    (hsurvives : a.Survives survivors) (hloaded : Loaded (a.disk survivors) j)
    (sentBefore : List ChunkId) (h : I a.hist) : I (a.reopened survivors sentBefore j).hist := by
  rcases reopened_hist sentBefore hloaded with hhist | ⟨segment, hhist⟩
  · exact hhist ▸ hI.take survivors h
  · rw [hhist, hsurvives.state_eq hloaded]
    exact hI.checkpoint _ _ (hI.take survivors h)

theorem initial (hI : HistoryRule G I) {j : Journal T} (hloaded : Loaded [] j) :
    I ((Ledger.blank j).reopened 0 [] j).hist :=
  hI.reopened (a := Ledger.blank j) (Ledger.Survives.nil j) hloaded [] hI.nil

/-- One step of a ledger keeps such a property of its history. -/
theorem step (hI : HistoryRule G I) (hacc : Accounted Passed a) (hstep : Ledger.Step G a a')
    (h : I a.hist) : I a'.hist := by
  have hstate := hacc.recorded.state
  cases hstep with
  | store hjournal =>
      cases hjournal with
      | write hg _ hcheck _ _ => exact hI.write _ hstate hg hcheck h
      | rotate segment _ _ _ =>
          rw [hstate]
          exact hI.checkpoint _ _ h
      | _ => simpa using h
  | reopen hsynced _ _ hloaded =>
      exact hI.reopened (hacc.ordered.survives hacc.recorded id hsynced) hloaded _ h
  | _ => exact h

end HistoryRule

/-- Whatever the calls are, every reachable system is accounted for. -/
theorem System.Reachable.accounted {W : ChunkedWal T} (hW : Lawful W)
    {allowed : RaftLog W → Op T → Prop} {sys : System W} (h : System.Reachable allowed sys) :
    Accounted Passed sys.ledger :=
  h.ledger_invariant (G := fun _ _ => True) hW (fun _ op _ _ => guarded_true op _)
    (fun _ ha => ha.recorded.history.sorted) (fun _ => Accounted.initial)
    (fun _ _ ha hstep => ha.step_passed hstep)

end RaftLogStore
