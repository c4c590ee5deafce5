import Mathlib.Data.List.Dedup
import RaftLogStore.Journal.Extension
import RaftLogStore.Model.Simulation

/-!
# Deletion comes after durability, and once

Before a chunk may go, a record has moved `purged` so far that it covers the chunk.  That
record is behind a sync in the queue of the worker before the removal is, so the removal never
overtakes it.  Each chunk goes once, in order.  Nothing is assumed of the calls.
-/

namespace RaftLogStore

open RaftLog

variable {T : Types} {W : ChunkedWal T}

/-- The state `st` has purged everything up to the end of a chunk that ends with `last`. -/
def Covers (st last : RaftLogState T) : Prop := ∃ p, st.purged = some p ∧ last.last ≤ some p

/-- The records that change `purged`. -/
def MovesPurged : RaftLogRecord T → Prop
  | .action (.purgeUpto _) => True
  | .checkpoint _ => True
  | _ => False

/-- Record `i` of the history has made `purged` cover chunk `k`, for as long as until `drained`
records were written, and the first `n` records include all of these. -/
structure CoveredBy (hist : List (Snapshot T)) (n : ℕ) (k : ChunkId) (i drained : ℕ) : Prop where
  drained_le : drained ≤ n
  before : i < drained
  record : ∃ snap, hist[i]? = some snap ∧ MovesPurged snap.located.record
  uncovered : ¬ Covers (endState (hist.take i)) (trailing hist k)
  covered : ∀ m, i < m → m ≤ drained → Covers (endState (hist.take m)) (trailing hist k)

/-- A chunk that has ended, with a record among the first `n` that made `purged` cover it. -/
structure Obsolete (hist : List (Snapshot T)) (n : ℕ) (k : ChunkId) : Prop where
  passed : Passed hist n k
  covered : ∃ i drained, CoveredBy hist n k i drained

/-! ## The record that covers a chunk -/

/-- A property that a number has and zero has not, begins to hold somewhere. -/
theorem exists_last_change {p : ℕ → Prop} (hzero : ¬ p 0) {n : ℕ} (hn : p n) :
    ∃ i < n, ¬ p i ∧ ∀ m, i < m → m ≤ n → p m := by
  induction n with
  | zero => exact absurd hn hzero
  | succ n ih =>
      by_cases hp : p n
      · obtain ⟨i, hi, hnot, hall⟩ := ih hp
        refine ⟨i, by omega, hnot, fun m him hmn => ?_⟩
        rcases Nat.lt_or_eq_of_le hmn with hlt | rfl
        · exact hall m him (by omega)
        · exact hn
      · refine ⟨n, Nat.lt_succ_self n, hp, fun m hnm hmn => ?_⟩
        rwa [show m = n + 1 by omega]

theorem purged_update {st : RaftLogState T} {rec : RaftLogRecord T} (h : ¬ MovesPurged rec) :
    (st.update rec).purged = st.purged := by
  rcases rec with ⟨vote | ⟨logId, payload⟩ | logId | keep | upto⟩ | st'
  · rfl
  · rfl
  · rfl
  · simp [RaftLogState.update]
  · exact absurd trivial h
  · exact absurd trivial h

/-- A record between two states of which only the second covers a chunk has changed `purged`. -/
theorem movesPurged_of_covers {hist : List (Snapshot T)} (h : History hist) {i : ℕ}
    (hi : i < hist.length) {last : RaftLogState T}
    (hnot : ¬ Covers (endState (hist.take i)) last)
    (hcovers : Covers (endState (hist.take (i + 1))) last) :
    ∃ snap, hist[i]? = some snap ∧ MovesPurged snap.located.record := by
  refine ⟨hist[i], List.getElem?_eq_getElem hi, ?_⟩
  have hnext := h.take (i + 1)
  have hconcat : hist.take (i + 1) = hist.take i ++ [hist[i]] := (List.take_append_getElem hi).symm
  rw [hconcat, endState_concat] at hcovers
  generalize hwhole : hist.take (i + 1) = whole at hnext hconcat
  cases hnext with
  | nil => exact absurd hconcat.symm (List.append_ne_nil_of_right_ne_nil _ (by simp))
  | write _ _ _ hstate =>
      obtain ⟨rfl, hsnap⟩ := List.append_inj' hconcat rfl
      obtain rfl := List.singleton_inj.mp hsnap
      by_contra hmoves
      refine hnot ?_
      obtain ⟨p, hp, hle⟩ := hcovers
      rw [hstate, purged_update hmoves] at hp
      exact ⟨p, hp, hle⟩
  | rotate _ _ hrecord _ =>
      obtain ⟨rfl, hsnap⟩ := List.append_inj' hconcat rfl
      obtain rfl := List.singleton_inj.mp hsnap
      rw [hrecord]
      trivial

/-- A chunk that is covered at the end of a history has been covered by one of its records. -/
theorem CoveredBy.exists {hist : List (Snapshot T)} (h : History hist) {k : ChunkId}
    (hcovers : Covers (endState hist) (trailing hist k)) :
    ∃ i drained, CoveredBy hist hist.length k i drained := by
  have hzero : ¬ Covers (endState (hist.take 0)) (trailing hist k) := by
    rintro ⟨p, hp, -⟩
    simp [RaftLogState.default] at hp
  have hwhole : Covers (endState (hist.take hist.length)) (trailing hist k) := by
    rwa [List.take_length]
  obtain ⟨i, hi, hnot, hall⟩ := exists_last_change
    (p := fun m => Covers (endState (hist.take m)) (trailing hist k)) hzero hwhole
  have hrecord := movesPurged_of_covers h hi hnot (hall (i + 1) (by omega) (by omega))
  exact ⟨i, hist.length, le_rfl, hi, hrecord, hnot, hall⟩

/-- The end of a chunk that has ended within the first `n` records depends on these only. -/
theorem CoveredBy.congr {hist hist' : List (Snapshot T)} {n : ℕ} {k : ChunkId} {i drained : ℕ}
    (h : CoveredBy hist n k i drained) (htake : hist'.take n = hist.take n)
    (htrailing : trailing hist' k = trailing hist k) : CoveredBy hist' n k i drained := by
  have hle := h.drained_le
  have hlt := h.before
  have hstate : ∀ m, m ≤ n → hist'.take m = hist.take m := by
    intro m hm
    have := congrArg (List.take m) htake
    rwa [List.take_take, List.take_take, Nat.min_eq_left hm] at this
  refine ⟨hle, hlt, ?_, ?_, ?_⟩
  · obtain ⟨snap, hsnap, hmoves⟩ := h.record
    refine ⟨snap, ?_, hmoves⟩
    rw [← List.getElem?_take_of_lt (show i < n by omega), htake,
      List.getElem?_take_of_lt (by omega)]
    exact hsnap
  · rw [hstate i (by omega), htrailing]
    exact h.uncovered
  · intro m him hm
    rw [hstate m (by omega), htrailing]
    exact h.covered m him hm

theorem Obsolete.congr {hist hist' : List (Snapshot T)} {n : ℕ} {k : ChunkId}
    (h : Obsolete hist n k) (hhist : History hist) (hhist' : History hist')
    (htake : hist'.take n = hist.take n) : Obsolete hist' n k := by
  have hpassed : Passed hist' n k := by
    obtain ⟨snap, hsnap, hlt⟩ := h.passed
    exact ⟨snap, htake ▸ hsnap, hlt⟩
  obtain ⟨i, drained, hcovered⟩ := h.covered
  refine ⟨hpassed, i, drained, hcovered.congr htake ?_⟩
  rw [← hhist'.trailing_take hpassed, htake, hhist.trailing_take h.passed]

/-- A chunk is obsolete when it is drained, and stays so. -/
theorem obsolete_persistent {G : Journal T → RaftLogRecord T → Prop} :
    Persistent G (fun _ => True) (Obsolete (T := T)) where
  passed := Obsolete.passed
  mono h hnm := by
    obtain ⟨hpassed, i, drained, hcovered⟩ := h
    exact ⟨hpassed.mono hnm, i, drained, hcovered.drained_le.trans hnm, hcovered.before,
      hcovered.record, hcovered.uncovered, hcovered.covered⟩
  drain := by
    intro a purged c hrec _ hpurged hc
    obtain ⟨hclosed, hle⟩ := Journal.mem_removable hc
    refine ⟨hrec.closed_passed hclosed, CoveredBy.exists hrec.history ⟨purged, ?_, ?_⟩⟩
    · rw [← hrec.state]
      exact hpurged
    · rw [← hrec.closed c hclosed]
      exact hle
  store := by
    intro a added j n k hrec _ hstep hn h
    refine h.congr hrec.history (hrec.store hstep).history ?_
    exact List.take_append_of_le_length hn
  reopen := by
    intro a survivors sentBefore j n k hrec hord _ hsynced hlen hloaded hn h
    have hsurvives := hord.survives hrec Obsolete.passed hsynced
    have hreopened := hsurvives.recorded hloaded sentBefore
    refine h.congr hrec.history hreopened.history ?_
    rw [Ledger.reopened, List.take_append_of_le_length (by rw [List.length_take]; omega),
      List.take_take, Nat.min_eq_left hn]

/-! ## Order of deletion -/

/-- The chunks of the WAL are those queued for removal, those waiting for it, the closed ones
and the open one, in the order in which they were begun. -/
theorem Recorded.chunks_eq {a : Ledger T} (h : Recorded a) :
    a.journal.chunks = (a.journal.written.map Located.chunkId).dedup := by
  obtain ⟨pre, hpre, -⟩ := h.written
  have hsorted : (a.journal.written.map Located.chunkId).Pairwise (· ≤ ·) := by
    have hhist : (a.hist.map Snapshot.located).Pairwise fun l l' => l.chunkId ≤ l'.chunkId :=
      List.pairwise_map.mpr h.history.sorted
    rw [hpre] at hhist
    exact List.pairwise_map.mpr (List.pairwise_append.mp hhist).2.1
  have hincreasing : (a.journal.written.map Located.chunkId).dedup.Pairwise (· < ·) :=
    ((hsorted.sublist (List.dedup_sublist _)).and (List.nodup_dedup _)).imp
      fun hab => lt_of_le_of_ne hab.1 hab.2
  refine List.eq_of_pairwise_lt h.chunks_sorted hincreasing fun k => ?_
  rw [h.mem_chunks k, List.mem_dedup, List.mem_map]

theorem accounted_of_reachable (hW : Lawful W) {allowed : RaftLog W → Op T → Prop}
    {sys : System W} (h : System.Reachable allowed sys) : Accounted Obsolete sys.ledger :=
  h.ledger_invariant (G := fun _ _ => True) hW (fun _ op _ _ => guarded_true op _)
    (fun _ ha => ha.recorded.history.sorted) (fun _ => Accounted.initial)
    (fun _ _ ha hstep => ha.step obsolete_persistent trivial hstep)

/-- A `flush` without a sync queues no removal. -/
theorem flush_removals (hW : Lawful W) {callback : Option T.Callback} {s s' : RaftLog W}
    (h : Completes (.flush false callback) s s') :
    System.queuedRemovals (W.view s'.wal).queue = System.queuedRemovals (W.view s.wal).queue := by
  rcases h with h | ⟨e, h⟩
  · obtain ⟨wal₁, hsend, hcases⟩ := flush_ok h
    obtain ⟨-, -, hview₁⟩ := hW.sendPending_ok hsend
    rcases hcases with ⟨-, rfl⟩ | ⟨hsync, -⟩
    · simp [hview₁]
    · exact absurd hsync (by decide)
  · obtain ⟨e', he'⟩ := flush_error h
    exact absurd he' (by simp)

/-- Each removal in the queue stands behind a sync that covers, for each of its chunks, the
record that made `purged` cover the chunk.  A flush without a sync queues no removal.  And what
is queued for removal and what waits for it is a front part of the chunks of the WAL, in
increasing order; the closed chunks and the open one are the rest. -/
theorem removal_follows_sync (hW : Lawful W) {sys : System W}
    (h : System.Reachable AnyCall sys) :
    (∀ (q : ℕ) chunkIds, sys.queue[q]? = some (.removeChunks chunkIds) →
      ∃ q' < q, ∃ upto, sys.queue[q']? = some (.write true upto) ∧
        ∀ k ∈ chunkIds, ∃ i drained, CoveredBy sys.hist (sys.base + upto) k i drained) ∧
    (∀ callback s', Completes (.flush false callback) sys.store s' →
      System.queuedRemovals (W.view s'.wal).queue = System.queuedRemovals sys.queue) ∧
    (System.queuedRemovals sys.queue ++ sys.store.removedChunks).Pairwise (· < ·) ∧
    System.queuedRemovals sys.queue ++ sys.store.removedChunks ++
        (W.view sys.store.wal).closed.map ClosedChunk.chunkId ++ [W.openChunkId sys.store.wal] =
      ((W.view sys.store.wal).written.map Located.chunkId).dedup := by
  have hacc := accounted_of_reachable hW h
  refine ⟨?_, fun callback s' hflush => flush_removals hW hflush, ?_, hacc.recorded.chunks_eq⟩
  · intro q chunkIds hq
    obtain ⟨q', hlt, upto, hwrite, hobsolete⟩ := hacc.ordered.queued q chunkIds hq
    exact ⟨q', hlt, upto, hwrite, fun k hk => (hobsolete k hk).covered⟩
  · have hsorted := hacc.recorded.chunks_sorted
    simp only [Journal.chunks, List.append_assoc] at hsorted
    rw [← List.append_assoc] at hsorted
    exact (List.pairwise_append.mp hsorted).1

def purgedAndFlushed : List (Event (memoryWal (exampleTypes true))) :=
  [.call (.append [(⟨1, 0⟩, 5), (⟨1, 1⟩, 6), (⟨1, 2⟩, 7)]), .call (.purge ⟨1, 1⟩),
    .call (.flush true none)]

def purgedSystem : System (memoryWal (exampleTypes true)) :=
  (System.simulate AnyCall (chunksOfSize true 3) purgedAndFlushed).get (by decide +kernel)

/-- The removal of the first chunk is the last of four requests. -/
theorem removal_follows_sync_purgedSystem :
    purgedSystem.queue[3]? = some (.removeChunks [0]) ∧
      ∃ q' < 3, ∃ upto, purgedSystem.queue[q']? = some (.write true upto) ∧
        ∀ k ∈ [0], ∃ i drained,
          CoveredBy purgedSystem.hist (purgedSystem.base + upto) k i drained := by
  have hrequest : purgedSystem.queue[3]? = some (.removeChunks [0]) := by decide +kernel
  have hfollows := removal_follows_sync (memoryWal_lawful _)
    (show System.Reachable AnyCall purgedSystem from System.reachable_get _)
  exact ⟨hrequest, hfollows.1 3 [0] hrequest⟩

end RaftLogStore
