import RaftLogStore.Results.Deletion
import RaftLogStore.Results.Draining
import RaftLogStore.Results.StoreInvariant

/-!
# The space of purged logs is reclaimed

A `purge`, a `flush(true, _)` behind it, and a worker that has handled its queue: then the files
of all the chunks that hold only purged logs are gone, up to the first chunk that holds another
one (`purged_chunks_reclaimed`).

Each chunk of the history is unlinked, on its way to be, closed, or open
(`Recorded.mem_unlinked_or_chunks`).  The flush leaves nothing waiting, the worker leaves nothing
queued, and the purge leaves no closed chunk below the first one that is still used.
-/

namespace RaftLogStore

open RaftLog Transition

variable {T : Types} {W : ChunkedWal T} {allowed : RaftLog W → Op T → Prop}

/-- The oldest chunk that is not on its way to deletion. -/
def firstRetained (s : RaftLog W) : ChunkId :=
  match (W.view s.wal).closed with
  | [] => W.openChunkId s.wal
  | c :: _ => c.chunkId

/-! ## What stays unlinked -/

theorem System.Step.unlinked_subset {sys sys' : System W} {e : Event W}
    (h : System.Step allowed sys e sys') : sys.unlinked ⊆ sys'.unlinked := by
  cases h with
  | @work request _ =>
      cases request with
      | removeChunks chunkIds => exact List.subset_append_left _ _
      | _ => exact List.Subset.refl _
  | unlinkFirst n _ => exact List.subset_append_left _ _
  | _ => exact List.Subset.refl _

theorem unlinked_subset_of_run {sys later : System W} {events : List (Event W)}
    (h : Run (System.Step allowed) sys events later) : sys.unlinked ⊆ later.unlinked :=
  h.invariant (I := fun s => sys.unlinked ⊆ s.unlinked)
    (fun _ _ _ hsubset hstep => List.Subset.trans hsubset hstep.unlinked_subset)
    (List.Subset.refl _)

/-! ## A flush -/

/-- After a sync flush no chunk waits for its removal to be queued. -/
theorem removed_of_flush (hW : Lawful W) {callback : Option T.Callback} {s s' : RaftLog W}
    (h : Completes (.flush true callback) s s') :
    s'.removedChunks = [] ∧ (W.view s'.wal).closed = (W.view s.wal).closed ∧
      W.openChunkId s'.wal = W.openChunkId s.wal := by
  rcases h with hok | ⟨e, herror⟩
  · obtain ⟨wal₁, hsend, hcases⟩ := flush_ok hok
    obtain ⟨hopen₁, -, hview₁⟩ := hW.sendPending_ok hsend
    rcases hcases with ⟨hnone, rfl⟩ | ⟨-, wal₂, hremove, rfl⟩
    · exact ⟨hnone.resolve_left (by simp), by simp [hview₁], hopen₁⟩
    · obtain ⟨hopen₂, -, hview₂⟩ := hW.sendRemoveChunks_ok hremove
      exact ⟨rfl, by simp [hview₂, hview₁], hopen₂.trans hopen₁⟩
  · obtain ⟨e', he'⟩ := flush_error herror
    exact absurd he' (by simp)

/-- The chunks that are closed or open are not older than the first of them. -/
theorem Recorded.firstRetained_le {s : RaftLog W} {a : Ledger T} (h : Recorded a)
    (hjournal : a.journal = s.journal) {k : ChunkId}
    (hk : (∃ c ∈ a.journal.closed, c.chunkId = k) ∨ k = a.journal.openChunkId) :
    firstRetained s ≤ k := by
  have hsorted := h.chunks_sorted
  simp only [Journal.chunks] at hsorted
  rw [List.append_assoc] at hsorted
  have htail := (List.pairwise_append.mp hsorted).2.1
  have hclosed : a.journal.closed = (W.view s.wal).closed := by rw [hjournal]; rfl
  have hopen : a.journal.openChunkId = W.openChunkId s.wal := by rw [hjournal]; rfl
  rw [hclosed, hopen] at htail hk
  unfold firstRetained
  cases hlist : (W.view s.wal).closed with
  | nil =>
      rcases hk with ⟨c, hc, -⟩ | rfl
      · rw [hlist] at hc
        exact absurd hc List.not_mem_nil
      · exact le_rfl
  | cons first rest =>
      rw [hlist, List.map_cons, List.cons_append, List.pairwise_cons] at htail
      rw [hlist] at hk
      rcases hk with ⟨c, hc, rfl⟩ | rfl
      · rcases List.mem_cons.mp hc with rfl | hc
        · exact le_rfl
        · refine (htail.1 c.chunkId ?_).le
          exact List.mem_append_left _ (List.mem_map.mpr ⟨c, hc, rfl⟩)
      · exact (htail.1 _ (by simp)).le

/-- Once the worker has come to the end of a queue, every chunk queued for removal is gone. -/
theorem unlinked_of_queued (hW : Lawful W) {flushed later : System W} {events : List (Event W)}
    (hlater : System.Reachable allowed later)
    (hrun : Run (System.Step allowed) flushed events later)
    (hevents : ∀ e ∈ events, ¬ e.Reopens) (hidle : flushed.queue.length ≤ later.handled)
    {k : ChunkId} (hk : k ∈ System.queuedRemovals flushed.queue) : k ∈ later.unlinked := by
  obtain ⟨chunkIds, hrequest, hmem⟩ := System.mem_queuedRemovals.mp hk
  obtain ⟨q, hq, hget⟩ := List.getElem_of_mem hrequest
  obtain ⟨behind, hbehind⟩ := (System.run_extends hW hrun hevents).queue
  have hget' : later.queue[q]? = some (.removeChunks chunkIds) := by
    rw [← hbehind, List.getElem?_append_left hq]
    exact List.getElem?_eq_some_iff.mpr ⟨hq, hget⟩
  have hhandled := (hlater.accounted hW).ordered.handled_removal
  exact hhandled q (hq.trans_le hidle) chunkIds hget' k hmem

/-- Once the worker has handled all that a sync flush has queued, what is older than the first
chunk that was closed or open is gone. -/
theorem reclaimed_of_flush (hW : Lawful W) {sys flushed later : System W}
    {callback : Option T.Callback} {events : List (Event W)} (h : System.Reachable allowed sys)
    (hflush : System.Step allowed sys (.call (.flush true callback)) flushed)
    (hrun : Run (System.Step allowed) flushed events later)
    (hevents : ∀ e ∈ events, ¬ e.Reopens) (hidle : flushed.queue.length ≤ later.handled)
    {r : ℕ} {l : Located T} (hl : l ∈ later.disk r) : firstRetained sys.store ≤ l.chunkId := by
  have hreachable : System.Reachable allowed flushed := Reachable.tail h hflush
  have hlater : System.Reachable allowed later := by
    obtain ⟨sys₀, events₀, hinitial, hrun₀⟩ := h
    exact ⟨sys₀, _, hinitial, (Run.snoc hrun₀ hflush).trans hrun⟩
  have hrec := (hreachable.accounted hW).recorded
  have hext := System.run_extends hW hrun hevents
  obtain ⟨hremoved, hclosed, hopen⟩ : flushed.store.removedChunks = [] ∧
      (W.view flushed.store.wal).closed = (W.view sys.store.wal).closed ∧
      W.openChunkId flushed.store.wal = W.openChunkId sys.store.wal := by
    cases hflush with
    | call _ hcompletes => exact removed_of_flush hW hcompletes
  have hfirst : firstRetained sys.store = firstRetained flushed.store := by
    simp only [firstRetained, hclosed, hopen]
  rw [hfirst]
  obtain ⟨hmem, hleft⟩ := List.mem_filter.mp hl
  have hleft : l.chunkId ∉ later.unlinked := of_decide_eq_true hleft
  obtain ⟨snap, hsnap, rfl⟩ := List.mem_map.mp hmem
  obtain ⟨added, hadded⟩ := hext.hist
  have hsnap' : snap ∈ flushed.hist ++ added := hadded ▸ List.mem_of_mem_take hsnap
  rcases List.mem_append.mp hsnap' with hold | hnew
  · rcases hrec.mem_unlinked_or_chunks hold with hunlinked | hchunk
    · exact absurd (unlinked_subset_of_run hrun hunlinked) hleft
    · have hremoved' : flushed.ledger.journal.removed = [] := hremoved
      simp only [Journal.chunks, hremoved', List.append_nil, List.mem_append, List.mem_map,
        List.mem_singleton] at hchunk
      rcases hchunk with (hqueued | hclosed') | hopen'
      · exact absurd (unlinked_of_queued hW hlater hrun hevents hidle hqueued) hleft
      · exact hrec.firstRetained_le rfl (Or.inl hclosed')
      · exact hrec.firstRetained_le rfl (Or.inr hopen')
  · -- what is written after the flush is in the open chunk or behind it
    obtain ⟨last, hlast, hopenChunk⟩ := hrec.openChunk
    have hsorted := (hlater.accounted hW).recorded.history.sorted
    have hsorted' : (flushed.hist ++ added).Pairwise fun x y => x.chunkId ≤ y.chunkId :=
      hadded ▸ hsorted
    have hbehind := (List.pairwise_append.mp hsorted').2.2 last (List.mem_of_getLast? hlast) snap
      hnew
    exact (hrec.firstRetained_le rfl (Or.inr hopenChunk)).trans hbehind

/-! ## A purge -/

/-- A purge that is not skipped moves `purged` to `upto` or beyond, and drains. -/
theorem drained_of_purge (hW : Lawful W) {s s' : RaftLog W} {upto : T.LogId}
    (hstate : StateInOrder s.logState)
    (hnew : T.indexAfter s.logState.purged ≤ T.logIndex upto)
    (h : Completes (.purge upto) s s') :
    some upto ≤ s'.logState.purged ∧ NoObsoleteChunk s' := by
  have hhasNext : T.HasNext s.logState.purged := by
    cases hpurged : s.logState.purged with
    | none => exact Nat.zero_le _
    | some p => exact Nat.succ_le_of_lt (hstate.purged p hpurged)
  have hwrites : (Op.purge upto).Writes s (.action (.purgeUpto upto)) :=
    ⟨_, hhasNext.nextLogIndex, Nat.not_lt.mpr hnew, rfl⟩
  obtain ⟨segment, s₁, hrec, rfl⟩ := completes_of_writes h hwrites rfl
  refine ⟨?_, noObsoleteChunk_bufferRemovableChunks hW s₁⟩
  rw [logState_finish, logState_appendAndApply hrec]
  simp [RaftLogState.update]

/-- Behind a purge and a sync flush, once the worker is idle, every record in the directory is in
the chunk that was open, in one begun later, or not below some closed chunk that ends above the
purge point. -/
theorem purged_chunks_reclaimed (hW : Lawful W) {sys purged flushed later : System W}
    {upto : T.LogId} {callback : Option T.Callback} {events : List (Event W)}
    (h : System.Reachable ConsistentCall sys)
    (hpurge : System.Step ConsistentCall sys (.call (.purge upto)) purged)
    (hnew : T.indexAfter sys.store.logState.purged ≤ T.logIndex upto)
    (hflush : System.Step ConsistentCall purged (.call (.flush true callback)) flushed)
    (hrun : Run (System.Step ConsistentCall) flushed events later)
    (hevents : ∀ e ∈ events, ¬ e.Reopens) (hidle : flushed.queue.length ≤ later.handled)
    {r : ℕ} {l : Located T} (hl : l ∈ later.disk r) :
    W.openChunkId purged.store.wal ≤ l.chunkId ∨
      ∃ c ∈ (W.view purged.store.wal).closed, c.chunkId ≤ l.chunkId ∧ some upto < c.state.last := by
  have hfirst := reclaimed_of_flush hW (Reachable.tail h hpurge) hflush hrun hevents hidle hl
  obtain ⟨hupto, hdrained⟩ : some upto ≤ purged.store.logState.purged ∧
      NoObsoleteChunk purged.store := by
    cases hpurge with
    | call _ hcompletes =>
        exact drained_of_purge hW (inOrder_of_reachable hW h).2.state hnew hcompletes
  cases hlist : (W.view purged.store.wal).closed with
  | nil =>
      rw [firstRetained, hlist] at hfirst
      exact Or.inl hfirst
  | cons c rest =>
      rw [firstRetained, hlist] at hfirst
      refine Or.inr ⟨c, by simp, hfirst, ?_⟩
      cases hpurged : purged.store.logState.purged with
      | none =>
          rw [hpurged] at hupto
          exact absurd hupto (by simp)
      | some p =>
          rw [hpurged] at hupto
          exact hupto.trans_lt (hdrained p hpurged c (by simp [hlist]))

/-- Three chunks of entries and the open one. -/
def fullSystem : System (memoryWal (exampleTypes true)) :=
  (System.simulate ConsistentCall (chunksOfSize true 3)
    [.call (.append [(⟨1, 0⟩, 5), (⟨1, 1⟩, 6), (⟨1, 2⟩, 7), (⟨1, 3⟩, 8), (⟨1, 4⟩, 9),
      (⟨1, 5⟩, 4)])]).get (by decide +kernel)

def purgedStore : System (memoryWal (exampleTypes true)) :=
  (System.perform ConsistentCall fullSystem (.call (.purge ⟨1, 3⟩))).get (by decide +kernel)

def flushedStore : System (memoryWal (exampleTypes true)) :=
  (System.perform ConsistentCall purgedStore (.call (.flush true none))).get (by decide +kernel)

def idling : List (Event (memoryWal (exampleTypes true))) :=
  [.work, .work, .work, .work, .work]

def idleSystem : System (memoryWal (exampleTypes true)) :=
  (System.performAll ConsistentCall idling flushedStore).get (by decide +kernel)

/-- Two chunks are gone. -/
theorem purged_chunks_reclaimed_idleSystem :
    (∀ l ∈ idleSystem.disk 20, 9 ≤ l.chunkId ∨
      ∃ c ∈ ((memoryWal (exampleTypes true)).view purgedStore.store.wal).closed,
        c.chunkId ≤ l.chunkId ∧ some ⟨1, 3⟩ < c.state.last) ∧ idleSystem.unlinked = [0, 3] := by
  have hpurge : System.Step ConsistentCall fullSystem (.call (.purge ⟨1, 3⟩)) purgedStore :=
    System.step_of_perform (Option.some_get _).symm
  have hflush : System.Step ConsistentCall purgedStore (.call (.flush true none)) flushedStore :=
    System.step_of_perform (Option.some_get _).symm
  have hrun : Run (System.Step ConsistentCall) flushedStore idling idleSystem :=
    System.run_of_performAll (Option.some_get _).symm
  have hopen : (memoryWal (exampleTypes true)).openChunkId purgedStore.store.wal = 9 := by
    decide +kernel
  refine ⟨fun l hl => ?_, by decide +kernel⟩
  have hreclaimed := purged_chunks_reclaimed (memoryWal_lawful _) (System.reachable_get _) hpurge
    (by decide +kernel) hflush hrun (by simp [idling, Event.Reopens]) (by decide +kernel) hl
  rwa [hopen] at hreclaimed

end RaftLogStore
