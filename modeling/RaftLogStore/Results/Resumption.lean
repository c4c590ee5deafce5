import RaftLogStore.Results.Deletion
import RaftLogStore.Results.HardState

/-!
# An interrupted purge is resumed

The removal buffer is lost in a crash, and opening the directory builds it up again from the
replayed states.  These are the states that the live store had at the ends of the chunks, so the
drain takes again what `purged` covers, oldest first.

The drain stops at the first chunk that is not covered.  As `last` goes down in a truncation, a
chunk may be covered by an earlier record than a chunk before it, and a crash may lose the record
that covers the older one.  A crash may also cut a chunk short, at a `last` that is above the one
it ended with.

## Strategy
1. The chunks found in the directory end with the live states (`chunksOf_disk`).
2. `purged` ascends, so a chunk stays covered once a record has covered it (`covers_survived`).
3. In a sorted list the drain reaches every chunk up to which all are covered
   (`List.mem_takeWhile_of_sorted`).
-/

namespace RaftLogStore

open RaftLog

variable {T : Types} {W : ChunkedWal T}

instance (st last : RaftLogState T) : Decidable (Covers st last) :=
  inferInstanceAs (Decidable (∃ p ∈ st.purged, last.last ≤ some p))

/-- Record `i` of the history has made `purged` cover chunk `k`. -/
structure CoveringRecord (hist : List (Snapshot T)) (k : ChunkId) (i : ℕ) : Prop where
  lt_length : i < hist.length
  uncovered : ¬ Covers (endState (hist.take i)) (trailing hist k)
  covered : Covers (endState (hist.take (i + 1))) (trailing hist k)

instance (hist : List (Snapshot T)) (k : ChunkId) (i : ℕ) : Decidable (CoveringRecord hist k i) :=
  decidable_of_iff
    (i < hist.length ∧ ¬ Covers (endState (hist.take i)) (trailing hist k) ∧
      Covers (endState (hist.take (i + 1))) (trailing hist k))
    ⟨fun ⟨hlt, hnot, hcovered⟩ => ⟨hlt, hnot, hcovered⟩,
      fun h => ⟨h.lt_length, h.uncovered, h.covered⟩⟩

/-- Chunk `k` has been drained, and waits for its removal or is queued for it. -/
def Drained (sys : System W) (k : ChunkId) : Prop :=
  k ∈ sys.store.removedChunks ∨ k ∈ System.queuedRemovals sys.queue

instance (sys : System W) (k : ChunkId) : Decidable (Drained sys k) :=
  inferInstanceAs (Decidable (_ ∨ _))

/-- Chunk `k` is found in the directory when the first `r` records survive. -/
def OnDisk (sys : System W) (r : ℕ) (k : ChunkId) : Prop := ∃ l ∈ sys.disk r, l.chunkId = k

instance (sys : System W) (r : ℕ) (k : ChunkId) : Decidable (OnDisk sys r k) :=
  inferInstanceAs (Decidable (∃ l ∈ sys.disk r, l.chunkId = k))

/-- No record of chunk `k` or an older one is lost when the first `r` records survive. -/
def Whole (sys : System W) (r : ℕ) (k : ChunkId) : Prop :=
  ∀ snap ∈ sys.hist.drop r, k < snap.chunkId

/-! ## The states at the ends of the chunks -/

/-- What a record that survives has covered, is covered by what survives. -/
theorem covers_survived {hist : List (Snapshot T)} (h : Ascending hist) {r i : ℕ} (hi : i < r)
    {last : RaftLogState T} (hcovers : Covers (endState (hist.take (i + 1))) last) :
    Covers (endState (hist.take r)) last := by
  obtain ⟨p, hp, hle⟩ := hcovers
  have hpurged := (h (i + 1) r hi).purged
  rw [hp] at hpurged
  cases hr : (endState (hist.take r)).purged with
  | none => simp [hr] at hpurged
  | some p' => exact ⟨p', hr, hle.trans (hr ▸ hpurged)⟩

/-- A drained chunk has been covered by some record. -/
theorem coveringRecord_of_drained (hW : Lawful W) {allowed : RaftLog W → Op T → Prop}
    {sys : System W} (h : System.Reachable allowed sys) {k : ChunkId} (hk : Drained sys k) :
    ∃ i, CoveringRecord sys.hist k i := by
  have hord := (accounted_of_reachable hW h).ordered
  obtain ⟨n, hobsolete⟩ : ∃ n, Obsolete sys.hist n k := by
    rcases hk with hk | hk
    · exact ⟨_, hord.removed k hk⟩
    · obtain ⟨chunkIds, hmem, hk⟩ := System.mem_queuedRemovals.mp hk
      obtain ⟨q, hq⟩ := List.mem_iff_getElem?.mp hmem
      obtain ⟨-, -, upto, -, hP⟩ := hord.queued q chunkIds hq
      exact ⟨_, hP k hk⟩
  obtain ⟨i, drained, hcovered⟩ := hobsolete.covered
  obtain ⟨snap, hsnap, -⟩ := hcovered.record
  exact ⟨i, (List.getElem?_eq_some_iff.mp hsnap).1, hcovered.uncovered,
    hcovered.covered (i + 1) (Nat.lt_succ_self i) hcovered.before⟩

/-! ## After a crash -/

/-- What an open loads, and what it then drains. -/
theorem removedChunks_openLog (hW : Lawful W) {config : Config W} {disk : List (Located T)}
    {s : RaftLog W} (hsorted : disk.Pairwise fun a b => a.chunkId ≤ b.chunkId)
    (h : openLog config disk = .ok s) :
    ∃ j : Journal T, Loaded disk j ∧ j.openChunkId = W.openChunkId s.wal ∧
      ∀ p, j.state.purged = some p →
        s.removedChunks = (j.removable p).map ClosedChunk.chunkId := by
  obtain ⟨s₀, hloaded, rfl⟩ := openLog_loaded hW hsorted h
  refine ⟨s₀.journal, hloaded, ?_, fun p hp => ?_⟩
  · unfold bufferRemovableChunks
    cases s₀.logState.purged with
    | none => rfl
    | some purged => exact (hW.drainClosedChunksWhile_eq rfl).1.symm
  · have hpurged : s₀.logState.purged = some p := hp
    obtain ⟨-, -, hids, -⟩ := hW.drainClosedChunksWhile_eq (Eq.refl
      (W.drainClosedChunksWhile (fun state => decide (state.last ≤ some p)) s₀.wal))
    have hnone : s₀.removedChunks = [] := hloaded.removed
    simp only [bufferRemovableChunks, hpurged, hids, hnone, List.nil_append]
    rfl

/-- A drain reaches every chunk up to which all closed chunks are covered. -/
theorem Loaded.mem_removable {disk : List (Located T)} {j : Journal T} (h : Loaded disk j)
    (hsorted : disk.Pairwise fun a b => a.chunkId ≤ b.chunkId) {p : T.LogId} {k : ChunkId}
    (hk : ∃ l ∈ disk, l.chunkId = k) (hclosed : k ≠ j.openChunkId)
    (hcovered : ∀ c ∈ j.closed, c.chunkId ≤ k → c.state.last ≤ some p) :
    k ∈ (j.removable p).map ClosedChunk.chunkId := by
  let c : ClosedChunk T :=
    ⟨k, stateAfter RaftLogState.default (disk.filter fun l => l.chunkId ≤ k)⟩
  have hc : c ∈ j.closed := h.mem_closed.mpr ⟨mem_chunksOf.mpr ⟨hk, rfl⟩, hclosed⟩
  have hascending : j.closed.Pairwise fun a b => a.chunkId ≤ b.chunkId := by
    have hchunks := (List.pairwise_append.mp (h.chunks_eq ▸ h.chunks_sorted hsorted)).1
    exact (List.pairwise_map.mp hchunks).imp Nat.le_of_lt
  refine List.mem_map.mpr ⟨c, List.mem_takeWhile_of_sorted hascending hc fun b hb hle => ?_, rfl⟩
  simpa using hcovered b hb hle

/-- In every run of writer operations a drained chunk has been covered by a record.  Let then the
process crash, with any of the oldest chunks already gone.  A chunk that is loaded as a closed one
is in the removal buffer again, as are all older chunks that are left, if no record of it is lost
and for none of these chunks the record that covered it.  And what is recomputed for the end of a
chunk is the state that the live store had there. -/
theorem purge_resumed (hW : Lawful W) {sys : System W} (h : System.Reachable NoUpdateState sys)
    {r : ℕ} (hsynced : sys.synced ≤ r) {config : Config W} {s : RaftLog W}
    (hopen : openLog config (sys.disk r) = .ok s) :
    (∀ k, Drained sys k → ∃ i, CoveringRecord sys.hist k i) ∧
    (∀ k, OnDisk sys r k → k ≠ W.openChunkId s.wal → Whole sys r k →
      (∀ k' ≤ k, OnDisk sys r k' → ∃ i < r, CoveringRecord sys.hist k' i) →
      ∀ k' ≤ k, OnDisk sys r k' → k' ∈ s.removedChunks) ∧
    ∀ c ∈ chunksOf RaftLogState.default (sys.disk r),
      c.state = trailing (sys.hist.take r) c.chunkId ∧
        (Whole sys r c.chunkId → c.state = trailing sys.hist c.chunkId ∧
          ∀ c' ∈ (W.view sys.store.wal).closed, c'.chunkId = c.chunkId → c'.state = c.state) := by
  have hkept := HardStateKept.of_reachable hW h
  have hrec := hkept.accounted.recorded
  have hord := hkept.accounted.ordered
  have hsurvives := hord.survives hrec id hsynced
  have htrailing : ∀ c ∈ chunksOf RaftLogState.default (sys.disk r),
      c.state = trailing (sys.hist.take r) c.chunkId := fun c hc => hsurvives.chunksOf_disk hc
  refine ⟨fun k => coveringRecord_of_drained hW h, ?_, fun c hc => ⟨htrailing c hc, ?_⟩⟩
  · intro k hk hclosed hwhole hcovered k' hle hk'
    have hsorted : (sys.disk r).Pairwise fun x y => x.chunkId ≤ y.chunkId :=
      Ledger.disk_sorted (a := sys.ledger) hrec.history.sorted r
    obtain ⟨j, hloaded, hopenId, hremoved⟩ := removedChunks_openLog hW hsorted hopen
    have hstate : j.state = endState (sys.hist.take r) := hsurvives.state_eq hloaded
    -- every chunk up to `k` is covered by what survives
    have hcovers : ∀ k' ≤ k, OnDisk sys r k' →
        Covers (endState (sys.hist.take r)) (trailing (sys.hist.take r) k') := by
      intro k' hle hk'
      obtain ⟨i, hi, hcovering⟩ := hcovered k' hle hk'
      have hwhole' : ∀ snap ∈ sys.hist.drop r, k' < snap.chunkId := fun snap hsnap =>
        hle.trans_lt (hwhole snap hsnap)
      rw [trailing_take_of_lt hwhole']
      exact covers_survived hkept.ascending hi hcovering.covered
    obtain ⟨p, hp, -⟩ := hcovers k le_rfl hk
    rw [hremoved p (by rw [hstate]; exact hp)]
    have hlt : k' < j.openChunkId := by
      obtain ⟨l, hl, rfl⟩ := hk
      exact hle.trans_lt (lt_of_le_of_ne (hloaded.le_openChunkId hsorted hl) (hopenId ▸ hclosed))
    refine hloaded.mem_removable hsorted hk' hlt.ne fun c hc hck => ?_
    obtain ⟨hmem, -⟩ := hloaded.mem_closed.mp hc
    obtain ⟨p', hp', hlast⟩ := hcovers c.chunkId (hck.trans hle) (mem_chunksOf.mp hmem).1
    obtain rfl := Option.some.inj (hp.symm.trans hp')
    rw [htrailing c hmem]
    exact hlast
  · intro hwhole
    have hstate : c.state = trailing sys.hist c.chunkId := by
      rw [htrailing c hc, trailing_take_of_lt hwhole]
    refine ⟨hstate, fun c' hc' hsame => ?_⟩
    rw [hstate, ← hsame]
    exact hrec.closed c' hc'

instance (sys : System W) (r : ℕ) (k : ChunkId) : Decidable (Whole sys r k) :=
  inferInstanceAs (Decidable (∀ snap ∈ sys.hist.drop r, k < snap.chunkId))

/-- Two chunks are purged and synced, and the first of their files is gone when the process
crashes. -/
def interruptedPurge : List (Event (memoryWal (exampleTypes true))) :=
  [.call (.append [(⟨1, 0⟩, 5), (⟨1, 1⟩, 6), (⟨1, 2⟩, 7)]), .call (.truncate 2),
    .call (.purge ⟨1, 1⟩), .call (.flush true none), .work, .work, .work, .unlinkFirst 1]

def interruptedSystem : System (memoryWal (exampleTypes true)) :=
  (System.simulate NoUpdateState (chunksOfSize true 3) interruptedPurge).get (by decide +kernel)

theorem purge_resumed_interruptedSystem :
    interruptedSystem.unlinked = [0] ∧
      ∃ s, openLog (chunksOfSize true 3) (interruptedSystem.disk 8) = .ok s ∧
        3 ∈ s.removedChunks := by
  have hsynced : interruptedSystem.synced ≤ 8 := by decide +kernel
  obtain ⟨s, hopen, hid⟩ : ∃ s, openLog (chunksOfSize true 3) (interruptedSystem.disk 8) = .ok s ∧
      3 ≠ (memoryWal (exampleTypes true)).openChunkId s.wal := by decide +kernel
  have hresumed := (purge_resumed (memoryWal_lawful _) (System.reachable_get _) hsynced hopen).2.1
  refine ⟨by decide +kernel, s, hopen, hresumed 3 (by decide +kernel) hid (by decide +kernel) ?_ 3
    le_rfl (by decide +kernel)⟩
  decide +kernel

/-- A drained chunk is loaded as a closed one, and so is the record that covered it, but it is not
drained again. -/
def NotResumed (sys : System W) (r : ℕ) (config : Config W) (k i : ℕ) : Prop :=
  Drained sys k ∧ OnDisk sys r k ∧ i < r ∧ CoveringRecord sys.hist k i ∧ sys.synced ≤ r ∧
    ∃ s, openLog config (sys.disk r) = .ok s ∧ k ≠ W.openChunkId s.wal ∧ k ∉ s.removedChunks

instance (sys : System W) (r : ℕ) (config : Config W) (k i : ℕ) :
    Decidable (NotResumed sys r config k i) := by
  unfold NotResumed
  infer_instance

/-- The second chunk ends below the first one, and each is covered by a purge of its own. -/
def staggeredPurges : List (Event (memoryWal (exampleTypes true))) :=
  [.call (.append [(⟨1, 0⟩, 5), (⟨1, 1⟩, 6)]), .call (.truncate 1), .call (.purge ⟨1, 0⟩),
    .call (.append [(⟨2, 1⟩, 7)]), .call (.purge ⟨2, 1⟩)]

def staggeredSystem : System (memoryWal (exampleTypes true)) :=
  (System.simulate NoUpdateState (chunksOfSize true 3) staggeredPurges).get (by decide +kernel)

/-- The second chunk has an entry that it does not end with. -/
def truncatedChunk : List (Event (memoryWal (exampleTypes true))) :=
  [.call (.append [(⟨1, 0⟩, 5), (⟨1, 1⟩, 6)]), .call (.purge ⟨1, 1⟩),
    .call (.append [(⟨1, 2⟩, 7)]), .call (.truncate 2), .call (.saveVote ⟨2, 2⟩)]

def truncatedSystem : System (memoryWal (exampleTypes true)) :=
  (System.simulate NoUpdateState (chunksOfSize true 4) truncatedChunk).get (by decide +kernel)

/-- A crash loses the purge that covered the first chunk, or the truncation in the second. -/
theorem purge_resumed_staggeredSystem :
    System.Reachable NoUpdateState staggeredSystem ∧
      NotResumed staggeredSystem 8 (chunksOfSize true 3) 3 5 ∧ Whole staggeredSystem 8 3 ∧
      System.Reachable NoUpdateState truncatedSystem ∧
      NotResumed truncatedSystem 6 (chunksOfSize true 4) 4 3 :=
  ⟨System.reachable_get _, by decide +kernel, by decide +kernel, System.reachable_get _,
    by decide +kernel⟩

end RaftLogStore
