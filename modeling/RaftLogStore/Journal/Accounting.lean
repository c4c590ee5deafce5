import RaftLogStore.Journal.History

/-!
# What every reachable ledger satisfies

Two invariants, both without any assumption on the calls.

* `Recorded`: the journal agrees with the history.  The state is the one at its end, the WAL
  holds a suffix of it, the closed chunks end as it says, and the chunks of the WAL are, in
  order, those queued for removal, those waiting for it, the closed ones and the open one.
* `Ordered P`: each chunk on its way to deletion satisfies `P` at a position of the history
  that a completed sync must reach before the file is unlinked.

`P` is a parameter: what is known of a chunk when it is drained.  `Persistent` says which
properties may be taken for it, and `Accounted.step` is the step lemma.
-/

namespace RaftLogStore

variable {T : Types} {G : Journal T → RaftLogRecord T → Prop}

/-! ## The queue -/

namespace System

@[simp] theorem queuedRemovals_nil : queuedRemovals [] = [] := rfl

@[simp] theorem queuedRemovals_append (queue queue' : List WorkerRequest) :
    queuedRemovals (queue ++ queue') = queuedRemovals queue ++ queuedRemovals queue' := by
  simp [queuedRemovals]

@[simp] theorem queuedRemovals_write (sync : Bool) (upto : ℕ) :
    queuedRemovals [.write sync upto] = [] := rfl

@[simp] theorem queuedRemovals_removeChunks (chunkIds : List ChunkId) :
    queuedRemovals [.removeChunks chunkIds] = chunkIds := by
  simp [queuedRemovals]

theorem mem_queuedRemovals {queue : List WorkerRequest} {k : ChunkId} :
    k ∈ queuedRemovals queue ↔ ∃ chunkIds, .removeChunks chunkIds ∈ queue ∧ k ∈ chunkIds := by
  simp only [queuedRemovals, List.mem_flatMap]
  constructor
  · rintro ⟨request, hmem, hk⟩
    cases request with
    | removeChunks chunkIds => exact ⟨chunkIds, hmem, hk⟩
    | write sync upto => simp at hk
    | appendFile => simp at hk
  · rintro ⟨chunkIds, hmem, hk⟩
    exact ⟨_, hmem, hk⟩

theorem queuedRemovals_eq_nil {queue : List WorkerRequest}
    (h : ∀ chunkIds, .removeChunks chunkIds ∉ queue) : queuedRemovals queue = [] := by
  refine List.eq_nil_iff_forall_not_mem.mpr fun k hk => ?_
  obtain ⟨chunkIds, hmem, -⟩ := mem_queuedRemovals.mp hk
  exact h chunkIds hmem

end System

open RaftLogStore.System (queuedRemovals)

/-- The chunks of the WAL: queued for removal, waiting for it, closed, and open. -/
def Journal.chunks (j : Journal T) : List ChunkId :=
  queuedRemovals j.queue ++ j.removed ++ j.closed.map ClosedChunk.chunkId ++ [j.openChunkId]

theorem chunks_drain (j : Journal T) (purged : T.LogId) :
    Journal.chunks { j with closed := j.retained purged,
                            removed := j.removed ++ (j.removable purged).map ClosedChunk.chunkId } =
      j.chunks := by
  have hsplit : (j.removable purged).map ClosedChunk.chunkId ++
      (j.retained purged).map ClosedChunk.chunkId = j.closed.map ClosedChunk.chunkId := by
    rw [← List.map_append, Journal.removable, Journal.retained, List.takeWhile_append_dropWhile]
  simp only [Journal.chunks, List.append_assoc]
  rw [← List.append_assoc _ _ [j.openChunkId], hsplit]

theorem chunks_rotate (j : Journal T) (chunkId : ChunkId) (written : List (Located T))
    {requests : List WorkerRequest} (hrequests : ∀ chunkIds, .removeChunks chunkIds ∉ requests) :
    Journal.chunks { j with written := written, closed := j.closed ++ [⟨j.openChunkId, j.state⟩],
                            queue := j.queue ++ requests, openChunkId := chunkId } =
      j.chunks ++ [chunkId] := by
  simp [Journal.chunks, System.queuedRemovals_eq_nil hrequests]

/-- The journal agrees with the history. -/
structure Recorded (a : Ledger T) : Prop where
  history : History a.hist
  state : a.journal.state = endState a.hist
  openChunk : ∃ last ∈ a.hist.getLast?, last.chunkId = a.journal.openChunkId
  written : ∃ pre, a.hist.map Snapshot.located = pre ++ a.journal.written ∧
    (∀ l ∈ pre, l.chunkId ∈ a.unlinked) ∧
    ∀ l ∈ pre, ∀ l' ∈ a.journal.written, l.chunkId < l'.chunkId
  closed : ∀ c ∈ a.journal.closed, c.state = trailing a.hist c.chunkId
  chunks_sorted : a.journal.chunks.Pairwise (· < ·)
  mem_chunks : ∀ k, k ∈ a.journal.chunks ↔ ∃ l ∈ a.journal.written, l.chunkId = k

namespace Recorded

variable {a : Ledger T}

theorem base_add (h : Recorded a) : a.base + a.journal.written.length = a.hist.length := by
  obtain ⟨pre, hpre, -⟩ := h.written
  have hlen := congrArg List.length hpre
  simp only [List.length_map, List.length_append] at hlen
  simp only [Ledger.base]
  omega

theorem mem_hist_le (h : Recorded a) {snap : Snapshot T} (hsnap : snap ∈ a.hist) :
    snap.chunkId ≤ a.journal.openChunkId := by
  obtain ⟨last, hlast, hopen⟩ := h.openChunk
  obtain ⟨front, hfront⟩ := List.getLast?_eq_some_iff.mp hlast
  have hsorted := hfront ▸ h.history.sorted
  rw [hfront] at hsnap
  rcases List.mem_append.mp hsnap with hmem | hmem
  · exact hopen ▸ (List.pairwise_append.mp hsorted).2.2 snap hmem last (by simp)
  · exact hopen ▸ (congrArg Snapshot.chunkId (List.mem_singleton.mp hmem)).le

/-- The open chunk comes after every chunk that has been passed. -/
theorem lt_openChunkId (h : Recorded a) {n : ℕ} {k : ChunkId} (hpassed : Passed a.hist n k) :
    k < a.journal.openChunkId := by
  obtain ⟨snap, hsnap, hlt⟩ := hpassed
  exact hlt.trans_le (h.mem_hist_le (List.mem_of_mem_take hsnap))

theorem openChunk_mem (h : Recorded a) :
    ∃ l ∈ a.journal.written, l.chunkId = a.journal.openChunkId :=
  (h.mem_chunks _).mp (by simp [Journal.chunks])

theorem closed_lt (h : Recorded a) {c : ClosedChunk T} (hc : c ∈ a.journal.closed) :
    c.chunkId < a.journal.openChunkId := by
  have hsorted := h.chunks_sorted
  simp only [Journal.chunks] at hsorted
  refine (List.pairwise_append.mp hsorted).2.2 c.chunkId ?_ _ (by simp)
  exact List.mem_append_right _ (List.mem_map.mpr ⟨c, hc, rfl⟩)

/-- A closed chunk is passed. -/
theorem closed_passed (h : Recorded a) {c : ClosedChunk T} (hc : c ∈ a.journal.closed) :
    Passed a.hist a.hist.length c.chunkId := by
  obtain ⟨last, hlast, hopen⟩ := h.openChunk
  refine ⟨last, ?_, hopen ▸ h.closed_lt hc⟩
  rw [List.take_length]
  exact List.mem_of_getLast? hlast

/-- A chunk of the WAL is in the history. -/
theorem chunk_of_hist (h : Recorded a) {k : ChunkId} (hk : k ∈ a.journal.chunks) :
    ∃ snap ∈ a.hist, snap.chunkId = k := by
  obtain ⟨l, hl, rfl⟩ := (h.mem_chunks k).mp hk
  obtain ⟨pre, hpre, -⟩ := h.written
  have hmem : l ∈ a.hist.map Snapshot.located := hpre ▸ List.mem_append_right _ hl
  obtain ⟨snap, hsnap, rfl⟩ := List.mem_map.mp hmem
  exact ⟨snap, hsnap, rfl⟩

/-- A chunk of the history is unlinked or one of the chunks of the WAL. -/
theorem mem_unlinked_or_chunks (h : Recorded a) {snap : Snapshot T} (hsnap : snap ∈ a.hist) :
    snap.chunkId ∈ a.unlinked ∨ snap.chunkId ∈ a.journal.chunks := by
  obtain ⟨pre, hpre, hunlinked, -⟩ := h.written
  have hmem : snap.located ∈ pre ++ a.journal.written :=
    hpre ▸ List.mem_map.mpr ⟨snap, hsnap, rfl⟩
  rcases List.mem_append.mp hmem with hmem | hmem
  · exact Or.inl (hunlinked _ hmem)
  · exact Or.inr ((h.mem_chunks _).mpr ⟨_, hmem, rfl⟩)

/-- A record behind the others keeps the records of the WAL a suffix of the history. -/
theorem written_concat (h : Recorded a) {snap : Snapshot T}
    (hle : a.journal.openChunkId ≤ snap.chunkId) :
    ∃ pre, (a.hist ++ [snap]).map Snapshot.located =
        pre ++ (a.journal.written ++ [snap.located]) ∧
      (∀ l ∈ pre, l.chunkId ∈ a.unlinked) ∧
      ∀ l ∈ pre, ∀ l' ∈ a.journal.written ++ [snap.located], l.chunkId < l'.chunkId := by
  obtain ⟨pre, hpre, hunlinked, hlt⟩ := h.written
  refine ⟨pre, by simp [hpre], hunlinked, ?_⟩
  intro l hl l' hl'
  rcases List.mem_append.mp hl' with hl' | hl'
  · exact hlt l hl l' hl'
  · -- the new record is not before the open chunk, which has a record in the WAL
    obtain ⟨l₀, hl₀, hl₀open⟩ := h.openChunk_mem
    have hbehind : l.chunkId < a.journal.openChunkId := hl₀open ▸ hlt l hl l₀ hl₀
    rw [List.mem_singleton.mp hl']
    exact hbehind.trans_le hle

/-- A record of the open chunk or a later one does not change how a closed chunk ends. -/
theorem closed_concat (h : Recorded a) {snap : Snapshot T}
    (hle : a.journal.openChunkId ≤ snap.chunkId) {c : ClosedChunk T}
    (hc : c ∈ a.journal.closed) : c.state = trailing (a.hist ++ [snap]) c.chunkId := by
  rw [trailing_concat_of_lt ((h.closed_lt hc).trans_le hle)]
  exact h.closed c hc

/-- A record of the open chunk adds no chunk. -/
theorem mem_chunks_concat (h : Recorded a) {l : Located T}
    (hchunk : l.chunkId = a.journal.openChunkId) (k : ChunkId) :
    k ∈ a.journal.chunks ↔ ∃ l' ∈ a.journal.written ++ [l], l'.chunkId = k := by
  refine (h.mem_chunks k).trans ?_
  simp only [List.mem_append, List.mem_singleton]
  constructor
  · rintro ⟨l', hl', rfl⟩
    exact ⟨l', Or.inl hl', rfl⟩
  · rintro ⟨l', hl' | rfl, rfl⟩
    · exact ⟨l', hl', rfl⟩
    · obtain ⟨l₀, hl₀, hl₀open⟩ := h.openChunk_mem
      exact ⟨l₀, hl₀, hl₀open.trans hchunk.symm⟩

/-- Writing a record to the open chunk keeps the agreement. -/
theorem write (h : Recorded a) {l : Located T} {log : OrderedMap ℕ (LogData T)}
    {cache : PayloadCache T} (hchunk : l.chunkId = a.journal.openChunkId)
    (hcheck : a.journal.state.check l.record = .ok ()) :
    Recorded { a with
      journal := { a.journal with
        log := log, state := a.journal.state.update l.record, cache := cache
        written := a.journal.written ++ [l] }
      hist := a.hist ++ [⟨l, a.journal.state.update l.record, log⟩] } := by
  obtain ⟨last, hlast, hopen⟩ := h.openChunk
  refine ⟨?_, by simp, ⟨_, List.getLast?_concat .., hchunk⟩, h.written_concat hchunk.ge,
    fun c hc => h.closed_concat hchunk.ge hc, h.chunks_sorted, h.mem_chunks_concat hchunk⟩
  refine History.write h.history ⟨last, hlast, hopen.trans hchunk.symm⟩ ?_ ?_
  · rw [← h.state]
    exact hcheck
  · rw [← h.state]

/-- Closing the open chunk and opening a later one keeps the agreement. -/
theorem rotate (h : Recorded a) {chunkId : ChunkId} (segment : Segment)
    {requests : List WorkerRequest} (hid : a.journal.openChunkId < chunkId)
    (hrequests : ∀ chunkIds, .removeChunks chunkIds ∉ requests) :
    Recorded { a with
      journal := { a.journal with
        written := a.journal.written ++ [⟨chunkId, segment, .checkpoint a.journal.state⟩]
        closed := a.journal.closed ++ [⟨a.journal.openChunkId, a.journal.state⟩]
        queue := a.journal.queue ++ requests, openChunkId := chunkId }
      hist := a.hist ++
        [⟨⟨chunkId, segment, .checkpoint a.journal.state⟩, a.journal.state, a.journal.log⟩] } := by
  have hbehind : ∀ snap ∈ a.hist, snap.chunkId < chunkId := fun snap hsnap =>
    lt_of_le_of_lt (h.mem_hist_le hsnap) hid
  have hchunks := chunks_rotate a.journal chunkId
    (a.journal.written ++ [⟨chunkId, segment, .checkpoint a.journal.state⟩]) hrequests
  refine ⟨?_, by simp [h.state], ⟨_, List.getLast?_concat .., rfl⟩, h.written_concat hid.le,
    ?_, ?_, ?_⟩
  · exact History.rotate h.history hbehind (by rw [← h.state]) h.state
  · intro c hc
    rcases List.mem_append.mp hc with hc | hc
    · exact h.closed_concat hid.le hc
    · -- the chunk that is closed ends with the current state
      rw [List.mem_singleton.mp hc, trailing_concat_of_lt hid,
        trailing_of_forall_le fun snap hsnap => h.mem_hist_le hsnap]
      exact h.state
  · rw [hchunks]
    refine List.pairwise_append.mpr ⟨h.chunks_sorted, List.pairwise_singleton _ _, ?_⟩
    intro k hk k' hk'
    obtain ⟨snap, hsnap, rfl⟩ := h.chunk_of_hist hk
    exact List.mem_singleton.mp hk' ▸ hbehind snap hsnap
  · intro k
    simp only [hchunks, List.mem_append, h.mem_chunks k, List.mem_singleton]
    constructor
    · rintro (⟨l, hl, rfl⟩ | rfl)
      · exact ⟨l, Or.inl hl, rfl⟩
      · exact ⟨_, Or.inr rfl, rfl⟩
    · rintro ⟨l, hl | rfl, rfl⟩
      · exact Or.inl ⟨l, hl, rfl⟩
      · exact Or.inr rfl

/-- What moves chunks towards deletion, and writes nothing, keeps the agreement. -/
theorem moved (h : Recorded a) {j : Journal T} (hstate : j.state = a.journal.state)
    (hopen : j.openChunkId = a.journal.openChunkId) (hwritten : j.written = a.journal.written)
    (hclosed : j.closed.Sublist a.journal.closed) (hchunks : j.chunks = a.journal.chunks) :
    Recorded { a with journal := j } := by
  refine ⟨h.history, hstate.trans h.state, ?_, ?_, fun c hc => h.closed c (hclosed.subset hc),
    hchunks ▸ h.chunks_sorted, ?_⟩
  · rw [hopen]
    exact h.openChunk
  · rw [hwritten]
    exact h.written
  · intro k
    rw [hchunks, hwritten]
    exact h.mem_chunks k

/-- The steps of a store keep the agreement. -/
theorem store (h : Recorded a) {added : List (Snapshot T)} {j : Journal T}
    (hstep : Journal.Step G a.journal added j) :
    Recorded { a with journal := j, hist := a.hist ++ added } := by
  cases hstep with
  | write hg hchunk hcheck hlog hcache => exact h.write hchunk hcheck
  | rotate segment hid hrequests hupto => exact h.rotate segment hid hrequests
  | @drain purged hpurged =>
      rw [List.append_nil]
      exact h.moved rfl rfl rfl (List.dropWhile_sublist _) (chunks_drain a.journal purged)
  | send sync =>
      rw [List.append_nil]
      exact h.moved rfl rfl rfl (List.Sublist.refl _) (by simp [Journal.chunks])
  | sendAndRemove =>
      -- the buffer goes to the end of the queue, right before the closed chunks
      rw [List.append_nil]
      exact h.moved rfl rfl rfl (List.Sublist.refl _) (by simp [Journal.chunks, queuedRemovals])
  | drainCache hdrain =>
      rw [List.append_nil]
      exact h.moved rfl rfl rfl (List.Sublist.refl _) rfl
  | persisted checkpoint =>
      rw [List.append_nil]
      exact h.moved rfl rfl rfl (List.Sublist.refl _) rfl

/-- Unlinking more files keeps the agreement. -/
theorem unlink (h : Recorded a) (chunkIds : List ChunkId) (synced handled : ℕ) :
    Recorded { a with synced := synced, handled := handled,
                      unlinked := a.unlinked ++ chunkIds } := by
  obtain ⟨pre, hpre, hunlinked, hlt⟩ := h.written
  exact ⟨h.history, h.state, h.openChunk,
    ⟨pre, hpre, fun l hl => List.mem_append_left _ (hunlinked l hl), hlt⟩, h.closed,
    h.chunks_sorted, h.mem_chunks⟩

end Recorded

/-! ## Chunks on their way to deletion -/

/-- What is known of the chunks that are no longer used: those in the removal buffer, in the
queue, unlinked, and passed on for removal by an earlier store. -/
structure Ordered (P : List (Snapshot T) → ℕ → ChunkId → Prop) (a : Ledger T) : Prop where
  removed : ∀ k ∈ a.journal.removed, P a.hist a.hist.length k
  /-- A removal stands in the queue behind a sync. -/
  queued : ∀ (q : ℕ) chunkIds, a.journal.queue[q]? = some (WorkerRequest.removeChunks chunkIds) →
    ∃ q' < q, ∃ upto, a.journal.queue[q']? = some (WorkerRequest.write true upto) ∧
      ∀ k ∈ chunkIds, P a.hist (a.base + upto) k
  unlinked : ∀ k ∈ a.unlinked, P a.hist a.synced k
  sentBefore : ∀ k ∈ a.sentBefore, P a.hist a.loaded k
  writes : ∀ sync upto, WorkerRequest.write sync upto ∈ a.journal.queue →
    upto ≤ a.journal.written.length
  handled_le : a.handled ≤ a.journal.queue.length
  handled_sync : ∀ q : ℕ, q < a.handled → ∀ upto,
    a.journal.queue[q]? = some (WorkerRequest.write true upto) → a.base + upto ≤ a.synced
  handled_removal : ∀ q : ℕ, q < a.handled → ∀ chunkIds,
    a.journal.queue[q]? = some (WorkerRequest.removeChunks chunkIds) →
      ∀ k ∈ chunkIds, k ∈ a.unlinked
  /-- Files are unlinked oldest first. -/
  unlinked_oldest : ∀ k ∈ a.unlinked, ∀ snap ∈ a.hist, snap.chunkId ≤ k →
    snap.chunkId ∈ a.unlinked
  synced_le : a.synced ≤ a.hist.length
  loaded_le : a.loaded ≤ a.hist.length

/-- A property of a chunk from some position of the history on, which holds when the chunk is
drained and is not lost afterwards. -/
structure Persistent (G : Journal T → RaftLogRecord T → Prop) (I : Ledger T → Prop)
    (P : List (Snapshot T) → ℕ → ChunkId → Prop) : Prop where
  passed {hist : List (Snapshot T)} {n : ℕ} {k : ChunkId} : P hist n k → Passed hist n k
  mono {hist : List (Snapshot T)} {n m : ℕ} {k : ChunkId} : P hist n k → n ≤ m → P hist m k
  drain {a : Ledger T} {purged : T.LogId} {c : ClosedChunk T} : Recorded a → I a →
    a.journal.state.purged = some purged → c ∈ a.journal.removable purged →
    P a.hist a.hist.length c.chunkId
  store {a : Ledger T} {added : List (Snapshot T)} {j : Journal T} {n : ℕ} {k : ChunkId} :
    Recorded a → I a → Journal.Step G a.journal added j → n ≤ a.hist.length →
    P a.hist n k → P (a.hist ++ added) n k
  reopen {a : Ledger T} {survivors : ℕ} {sentBefore : List ChunkId} {j : Journal T} {n : ℕ}
    {k : ChunkId} : Recorded a → Ordered P a → I a → a.synced ≤ survivors →
    survivors ≤ a.hist.length → Loaded (a.disk survivors) j → n ≤ survivors →
    P a.hist n k → P (a.reopened survivors sentBefore j).hist n k

namespace Ordered

variable {P : List (Snapshot T) → ℕ → ChunkId → Prop} {I : Ledger T → Prop} {a : Ledger T}

/-- What a step of the store puts behind the queue. -/
theorem queue_of_step {j j' : Journal T} {added : List (Snapshot T)}
    (hstep : Journal.Step G j added j') : ∃ extra, j'.queue = j.queue ++ extra ∧
      (∀ sync upto, WorkerRequest.write sync upto ∈ extra → upto ≤ j'.written.length) ∧
      ((∀ chunkIds, WorkerRequest.removeChunks chunkIds ∉ extra) ∨
        extra = [.write true j.written.length, .removeChunks j.removed]) := by
  cases hstep with
  | rotate segment hid hrequests hupto =>
      exact ⟨_, rfl, fun sync upto hmem => by simpa using hupto sync upto hmem, Or.inl hrequests⟩
  | send sync =>
      refine ⟨_, rfl, ?_, Or.inl (by simp)⟩
      intro sync' upto hmem
      simp only [List.mem_singleton, WorkerRequest.write.injEq] at hmem
      exact hmem.2.le
  | sendAndRemove =>
      refine ⟨_, rfl, ?_, Or.inr rfl⟩
      intro sync' upto hmem
      simp only [List.mem_cons, WorkerRequest.write.injEq, reduceCtorEq, List.not_mem_nil,
        or_false] at hmem
      exact hmem.2.le
  | _ => exact ⟨[], by simp, by simp, Or.inl (by simp)⟩

/-- What a step of the store leaves in the removal buffer. -/
theorem removed_of_step (h : Ordered P a) (hP : Persistent G I P) (hrec : Recorded a) (hI : I a)
    {added : List (Snapshot T)} {j : Journal T} (hstep : Journal.Step G a.journal added j) :
    ∀ k ∈ j.removed, P a.hist a.hist.length k := by
  cases hstep with
  | drain hpurged =>
      intro k hk
      rcases List.mem_append.mp hk with hk | hk
      · exact h.removed k hk
      · obtain ⟨c, hc, rfl⟩ := List.mem_map.mp hk
        exact hP.drain hrec hI hpurged hc
  | sendAndRemove => simp
  | _ => exact h.removed

/-- Behind each sync in the queue the removals stay safe, and those that a flush adds are safe
behind its own sync. -/
theorem queued_append (h : Ordered P a) (hrec : Recorded a) {hist : List (Snapshot T)}
    (hkeep : ∀ n k, n ≤ a.hist.length → P a.hist n k → P hist n k) {extra : List WorkerRequest}
    (hremovals : (∀ chunkIds, WorkerRequest.removeChunks chunkIds ∉ extra) ∨
      extra = [.write true a.journal.written.length, .removeChunks a.journal.removed]) :
    ∀ (q : ℕ) chunkIds,
      (a.journal.queue ++ extra)[q]? = some (WorkerRequest.removeChunks chunkIds) →
      ∃ q' < q, ∃ upto, (a.journal.queue ++ extra)[q']? = some (WorkerRequest.write true upto) ∧
        ∀ k ∈ chunkIds, P hist (a.base + upto) k := by
  have hbase_add := hrec.base_add
  intro q chunkIds hq
  rcases Nat.lt_or_ge q a.journal.queue.length with hlt | hge
  · -- a removal that was in the queue before
    rw [List.getElem?_append_left hlt] at hq
    obtain ⟨q', hq', upto, hwrite, hP'⟩ := h.queued q chunkIds hq
    refine ⟨q', hq', upto, ?_, fun k hk => hkeep _ k ?_ (hP' k hk)⟩
    · rw [List.getElem?_append_left (by omega)]
      exact hwrite
    · have := h.writes true upto (List.mem_of_getElem? hwrite)
      omega
  · -- a removal behind the sync of the same flush
    rw [List.getElem?_append_right hge] at hq
    rcases hremovals with hnone | rfl
    · exact absurd (List.mem_of_getElem? hq) (hnone chunkIds)
    · have hone : q - a.journal.queue.length = 1 := by
        rcases hcase : q - a.journal.queue.length with - | - | n
        · simp [hcase] at hq
        · rfl
        · simp [hcase] at hq
      simp only [hone, List.getElem?_cons_succ, List.getElem?_cons_zero, Option.some.injEq,
        WorkerRequest.removeChunks.injEq] at hq
      refine ⟨a.journal.queue.length, by omega, a.journal.written.length, by simp, ?_⟩
      intro k hk
      rw [hbase_add]
      exact hkeep _ k le_rfl (h.removed k (hq ▸ hk))

/-- The steps of a store keep the order. -/
theorem store (h : Ordered P a) (hP : Persistent G I P) (hrec : Recorded a) (hI : I a)
    {added : List (Snapshot T)} {j : Journal T} (hstep : Journal.Step G a.journal added j) :
    Ordered P { a with journal := j, hist := a.hist ++ added } := by
  have hwritten : j.written = a.journal.written ++ added.map Snapshot.located :=
    (Journal.Steps.single hstep).written
  have hbase : Ledger.base { a with journal := j, hist := a.hist ++ added } = a.base := by
    simp only [Ledger.base, hwritten, List.length_append, List.length_map]
    omega
  have hkeep : ∀ n k, n ≤ a.hist.length → P a.hist n k → P (a.hist ++ added) n k :=
    fun n k hn => hP.store hrec hI hstep hn
  obtain ⟨extra, hqueue, hwrites, hremovals⟩ := queue_of_step hstep
  refine ⟨?_, ?_, fun k hk => hkeep _ k h.synced_le (h.unlinked k hk),
    fun k hk => hkeep _ k h.loaded_le (h.sentBefore k hk), ?_, ?_, ?_, ?_, ?_, ?_, ?_⟩
  · intro k hk
    have hnow := hkeep _ k le_rfl (h.removed_of_step hP hrec hI hstep k hk)
    exact hP.mono hnow (by simp)
  · simp only [hbase, hqueue]
    exact h.queued_append hrec hkeep hremovals
  · intro sync upto hmem
    simp only [hqueue] at hmem
    rcases List.mem_append.mp hmem with hmem | hmem
    · have := h.writes sync upto hmem
      simp only [hwritten, List.length_append]
      omega
    · exact hwrites sync upto hmem
  · have := h.handled_le
    simp only [hqueue, List.length_append]
    omega
  · intro q hq upto hwrite
    simp only [hbase, hqueue] at hwrite ⊢
    have := h.handled_le
    rw [List.getElem?_append_left (by simp only at hq; omega)] at hwrite
    exact h.handled_sync q hq upto hwrite
  · intro q hq chunkIds hremoval
    simp only [hqueue] at hremoval
    have := h.handled_le
    rw [List.getElem?_append_left (by simp only at hq; omega)] at hremoval
    exact h.handled_removal q hq chunkIds hremoval
  · -- what is added comes after every unlinked chunk
    intro k hk snap hsnap hle
    have hpassed := (hP.passed (h.unlinked k hk)).append added
    have hhist := (hrec.store hstep).history
    exact h.unlinked_oldest k hk snap (hhist.mem_of_passed hpassed h.synced_le hsnap hle) hle
  · have := h.synced_le
    simp only [List.length_append]
    omega
  · have := h.loaded_le
    simp only [List.length_append]
    omega

/-- The worker handles a write. -/
theorem handleWrite (h : Ordered P a) (hP : Persistent G I P) (hrec : Recorded a) {sync : Bool}
    {upto : ℕ} (hrequest : a.journal.queue[a.handled]? = some (.write sync upto)) :
    Ordered P { a with
      handled := a.handled + 1
      synced := if sync then max a.synced (a.base + upto) else a.synced } := by
  have hsynced : a.synced ≤ if sync then max a.synced (a.base + upto) else a.synced := by
    split_ifs <;> omega
  have hlt := (List.getElem?_eq_some_iff.mp hrequest).1
  refine ⟨h.removed, h.queued, fun k hk => hP.mono (h.unlinked k hk) hsynced, h.sentBefore,
    h.writes, hlt, ?_, ?_, h.unlinked_oldest, ?_, h.loaded_le⟩
  · intro q hq upto' hwrite
    rcases Nat.lt_succ_iff_lt_or_eq.mp hq with hq | rfl
    · exact (h.handled_sync q hq upto' hwrite).trans hsynced
    · simp only [hrequest, Option.some.injEq, WorkerRequest.write.injEq] at hwrite
      obtain ⟨rfl, rfl⟩ := hwrite
      exact le_max_right _ _
  · intro q hq chunkIds hremoval
    rcases Nat.lt_succ_iff_lt_or_eq.mp hq with hq | rfl
    · exact h.handled_removal q hq chunkIds hremoval
    · rw [hrequest] at hremoval
      exact absurd hremoval (by simp)
  · have hupto := h.writes sync upto (List.mem_of_getElem? hrequest)
    have hbase := hrec.base_add
    have := h.synced_le
    simp only
    split_ifs <;> omega

/-- The worker takes over a file. -/
theorem handleFile (h : Ordered P a)
    (hrequest : a.journal.queue[a.handled]? = some .appendFile) :
    Ordered P { a with handled := a.handled + 1 } := by
  have hlt := (List.getElem?_eq_some_iff.mp hrequest).1
  refine ⟨h.removed, h.queued, h.unlinked, h.sentBefore, h.writes, hlt, ?_, ?_,
    h.unlinked_oldest, h.synced_le, h.loaded_le⟩
  · intro q hq upto hwrite
    rcases Nat.lt_succ_iff_lt_or_eq.mp hq with hq | rfl
    · exact h.handled_sync q hq upto hwrite
    · rw [hrequest] at hwrite
      exact absurd hwrite (by simp)
  · intro q hq chunkIds hremoval
    rcases Nat.lt_succ_iff_lt_or_eq.mp hq with hq | rfl
    · exact h.handled_removal q hq chunkIds hremoval
    · rw [hrequest] at hremoval
      exact absurd hremoval (by simp)

/-- A chunk whose removal has come up in the queue satisfies `P` at what is synced. -/
theorem removal_synced (h : Ordered P a) (hP : Persistent G I P) {chunkIds : List ChunkId}
    (hrequest : a.journal.queue[a.handled]? = some (.removeChunks chunkIds)) :
    ∀ k ∈ chunkIds, P a.hist a.synced k := by
  intro k hk
  obtain ⟨q', hq', upto, hwrite, hP'⟩ := h.queued a.handled chunkIds hrequest
  exact hP.mono (hP' k hk) (h.handled_sync q' hq' upto hwrite)

/-- The removal that has come up in the queue continues the unlinked chunks: a chunk of the
history up to one of its first `n` chunks is unlinked or among these. -/
theorem oldest_of_removal (h : Ordered P a) (hrec : Recorded a) {chunkIds : List ChunkId}
    (n : ℕ) (hrequest : a.journal.queue[a.handled]? = some (.removeChunks chunkIds)) {k : ChunkId}
    (hk : k ∈ chunkIds.take n) {snap : Snapshot T} (hsnap : snap ∈ a.hist)
    (hle : snap.chunkId ≤ k) : snap.chunkId ∈ a.unlinked ++ chunkIds.take n := by
  rcases hrec.mem_unlinked_or_chunks hsnap with hunlinked | hchunk
  · exact List.mem_append_left _ hunlinked
  · -- the chunks before this removal, its first `n` chunks, and the chunks behind them
    obtain ⟨hlt, hget⟩ := List.getElem?_eq_some_iff.mp hrequest
    have hqueue : a.journal.queue = a.journal.queue.take a.handled ++
        [.removeChunks chunkIds] ++ a.journal.queue.drop (a.handled + 1) := by
      rw [← hget, List.append_assoc, List.singleton_append, List.getElem_cons_drop,
        List.take_append_drop]
    obtain ⟨behind, hbehind⟩ : ∃ behind, a.journal.chunks =
        queuedRemovals (a.journal.queue.take a.handled) ++ chunkIds.take n ++ behind := by
      refine ⟨chunkIds.drop n ++ (queuedRemovals (a.journal.queue.drop (a.handled + 1)) ++
        a.journal.removed ++ a.journal.closed.map ClosedChunk.chunkId ++
        [a.journal.openChunkId]), ?_⟩
      conv_lhs => rw [Journal.chunks, hqueue]
      simp only [System.queuedRemovals_append, System.queuedRemovals_removeChunks,
        List.append_assoc]
      rw [← List.append_assoc (chunkIds.take n), List.take_append_drop]
    have hsorted := hbehind ▸ hrec.chunks_sorted
    rw [hbehind] at hchunk
    rcases List.mem_append.mp hchunk with hfront | hlast
    · rcases List.mem_append.mp hfront with hearlier | hhere
      · obtain ⟨ids, hids, hmem⟩ := System.mem_queuedRemovals.mp hearlier
        obtain ⟨q, hq, hgetq⟩ := List.mem_take_iff_getElem.mp hids
        have hremoval := List.getElem?_eq_some_iff.mpr ⟨by omega, hgetq⟩
        exact List.mem_append_left _ (h.handled_removal q (by omega) ids hremoval _ hmem)
      · exact List.mem_append_right _ hhere
    · have hlater := (List.pairwise_append.mp hsorted).2.2 k (List.mem_append_right _ hk) _ hlast
      exact absurd hle (Nat.not_le.mpr hlater)

/-- Some files of the removal that has come up are unlinked. -/
theorem unlinkFirst (h : Ordered P a) (hP : Persistent G I P) (hrec : Recorded a)
    {chunkIds : List ChunkId} (n : ℕ)
    (hrequest : a.journal.queue[a.handled]? = some (.removeChunks chunkIds)) :
    Ordered P { a with unlinked := a.unlinked ++ chunkIds.take n } := by
  refine ⟨h.removed, h.queued, ?_, h.sentBefore, h.writes, h.handled_le, h.handled_sync, ?_, ?_,
    h.synced_le, h.loaded_le⟩
  · intro k hk
    rcases List.mem_append.mp hk with hk | hk
    · exact h.unlinked k hk
    · exact h.removal_synced hP hrequest k (List.mem_of_mem_take hk)
  · intro q hq ids hremoval k hk
    exact List.mem_append_left _ (h.handled_removal q hq ids hremoval k hk)
  · intro k hk snap hsnap hle
    rcases List.mem_append.mp hk with hk | hk
    · exact List.mem_append_left _ (h.unlinked_oldest k hk snap hsnap hle)
    · exact h.oldest_of_removal hrec n hrequest hk hsnap hle

/-- The worker is done with a removal. -/
theorem handleRemoval (h : Ordered P a) (hP : Persistent G I P) (hrec : Recorded a)
    {chunkIds : List ChunkId}
    (hrequest : a.journal.queue[a.handled]? = some (.removeChunks chunkIds)) :
    Ordered P { a with handled := a.handled + 1, unlinked := a.unlinked ++ chunkIds } := by
  have hall := h.unlinkFirst hP hrec chunkIds.length hrequest
  rw [List.take_length] at hall
  have hlt := (List.getElem?_eq_some_iff.mp hrequest).1
  refine ⟨hall.removed, hall.queued, hall.unlinked, hall.sentBefore, hall.writes, hlt, ?_, ?_,
    hall.unlinked_oldest, hall.synced_le, hall.loaded_le⟩
  · intro q hq upto hwrite
    rcases Nat.lt_succ_iff_lt_or_eq.mp hq with hq | rfl
    · exact h.handled_sync q hq upto hwrite
    · simp only [hrequest] at hwrite
      exact absurd hwrite (by simp)
  · intro q hq ids hremoval k hk
    rcases Nat.lt_succ_iff_lt_or_eq.mp hq with hq | rfl
    · exact hall.handled_removal q hq ids hremoval k hk
    · simp only [hrequest, Option.some.injEq, WorkerRequest.removeChunks.injEq] at hremoval
      exact List.mem_append_right _ (hremoval ▸ hk)

end Ordered

end RaftLogStore
