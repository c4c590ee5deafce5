import Mathlib.Logic.Relation
import RaftLogStore.Journal.Refinement

/-!
# The ledger: the journal of a system

A `Ledger` is a journal with its history, its worker and its directory: what a `System` is,
with the journal of the store in the store's place.  `Ledger.Step` is one step of it, and a
step of a system is a run of ledger steps (`ledger_steps`).  An invariant of the ledger is
therefore one of every reachable system (`Reachable.ledger_invariant`).
-/

namespace RaftLogStore

variable {T : Types} {W : ChunkedWal T} {G : Journal T → RaftLogRecord T → Prop}

structure Ledger (T : Types) where
  journal : Journal T
  hist : List (Snapshot T)
  synced : ℕ
  handled : ℕ
  unlinked : List ChunkId
  loaded : ℕ
  sentBefore : List ChunkId

/-- The ledger of a system. -/
def System.ledger (sys : System W) : Ledger T where
  journal := sys.store.journal
  hist := sys.hist
  synced := sys.synced
  handled := sys.handled
  unlinked := sys.unlinked
  loaded := sys.loaded
  sentBefore := sys.sentBefore

/-- The journal right after `ChunkedWal::open` has loaded the records `disk`. -/
structure Loaded (disk : List (Located T)) (j : Journal T) : Prop where
  replay : ∃ config sm, Replay (RaftLogStateMachine.new config) disk sm ∧ j.log = sm.log ∧
    j.state = sm.logState ∧ j.cache = sm.payloadCache
  queue : j.queue = []
  removed : j.removed = []
  written :
    j.written = disk ∧ (∃ l ∈ disk.getLast?, l.chunkId = j.openChunkId) ∨
      (∃ segment, j.written = disk ++ [⟨j.openChunkId, segment, .checkpoint j.state⟩]) ∧
        ∀ l ∈ disk, l.chunkId < j.openChunkId
  closed : j.closed =
    (chunksOf RaftLogState.default disk).filter fun c => c.chunkId ≠ j.openChunkId

namespace Ledger

/-- How many records of `hist` the WAL of this store does not hold. -/
def base (a : Ledger T) : ℕ := a.hist.length - a.journal.written.length

/-- Every chunk passed to `send_remove_chunks`. -/
def sent (a : Ledger T) : List ChunkId :=
  a.sentBefore ++ System.queuedRemovals a.journal.queue

/-- The records found in the directory when the first `survivors` of the stream survive. -/
def disk (a : Ledger T) (survivors : ℕ) : List (Located T) :=
  ((a.hist.take survivors).map Snapshot.located).filter fun l => l.chunkId ∉ a.unlinked

/-- The ledger before the first opening of an empty directory. -/
def blank (j : Journal T) : Ledger T := ⟨j, [], 0, 0, [], 0, []⟩

/-- The ledger after the directory is opened again. -/
def reopened (a : Ledger T) (survivors : ℕ) (sentBefore : List ChunkId) (j : Journal T) :
    Ledger T where
  journal := j
  hist := a.hist.take survivors ++
    (j.written.drop (a.disk survivors).length).map fun l => ⟨l, j.state, j.log⟩
  synced := a.synced
  handled := 0
  unlinked := a.unlinked
  loaded := survivors
  sentBefore := sentBefore

/-- The removals that a restart does not forget: after a crash only those that have run,
unless no record was lost that had been handed over. -/
def Remembers (a : Ledger T) (survivors : ℕ) (sentBefore : List ChunkId) : Prop :=
  sentBefore = a.unlinked ∨
    sentBefore = a.sent ∧ a.loaded ≤ survivors ∧
      ∀ sync upto, .write sync upto ∈ a.journal.queue → a.base + upto ≤ survivors

/-- One step of a ledger. -/
inductive Step (G : Journal T → RaftLogRecord T → Prop) : Ledger T → Ledger T → Prop
  | store {a : Ledger T} {added : List (Snapshot T)} {j : Journal T} :
      Journal.Step G a.journal added j →
      Step G a { a with journal := j, hist := a.hist ++ added }
  | handleWrite {a : Ledger T} {sync : Bool} {upto : ℕ} :
      a.journal.queue[a.handled]? = some (.write sync upto) →
      Step G a { a with
        handled := a.handled + 1
        synced := if sync then max a.synced (a.base + upto) else a.synced }
  | handleRemoval {a : Ledger T} {chunkIds : List ChunkId} :
      a.journal.queue[a.handled]? = some (.removeChunks chunkIds) →
      Step G a { a with handled := a.handled + 1, unlinked := a.unlinked ++ chunkIds }
  | handleFile {a : Ledger T} :
      a.journal.queue[a.handled]? = some .appendFile →
      Step G a { a with handled := a.handled + 1 }
  | unlinkFirst {a : Ledger T} {chunkIds : List ChunkId} (n : ℕ) :
      a.journal.queue[a.handled]? = some (.removeChunks chunkIds) →
      Step G a { a with unlinked := a.unlinked ++ chunkIds.take n }
  | reopen {a : Ledger T} {survivors : ℕ} {sentBefore : List ChunkId} {j : Journal T} :
      a.synced ≤ survivors → survivors ≤ a.hist.length → a.Remembers survivors sentBefore →
      Loaded (a.disk survivors) j → Step G a (a.reopened survivors sentBefore j)

theorem Step.mono {G' : Journal T → RaftLogRecord T → Prop} (hG : ∀ j rec, G j rec → G' j rec)
    {a a' : Ledger T} (h : Step G a a') : Step G' a a' := by
  cases h with
  | store hjournal => exact Step.store (hjournal.mono hG)
  | handleWrite hrequest => exact Step.handleWrite hrequest
  | handleRemoval hrequest => exact Step.handleRemoval hrequest
  | handleFile hrequest => exact Step.handleFile hrequest
  | unlinkFirst n hrequest => exact Step.unlinkFirst n hrequest
  | reopen hsynced hlen hremembers hloaded => exact Step.reopen hsynced hlen hremembers hloaded

theorem disk_sorted {a : Ledger T} (h : a.hist.Pairwise fun x y => x.chunkId ≤ y.chunkId)
    (survivors : ℕ) : (a.disk survivors).Pairwise fun x y => x.chunkId ≤ y.chunkId :=
  List.Pairwise.filter _ (List.pairwise_map.mpr (h.sublist (List.take_sublist _ _)))

/-- What a store does is done in the ledger step by step. -/
theorem steps_of_journal {a : Ledger T} {added : List (Snapshot T)} {j : Journal T}
    (h : Journal.Steps G a.journal added j) :
    Relation.ReflTransGen (Step G) a { a with journal := j, hist := a.hist ++ added } := by
  refine Journal.Steps.invariant
    (I := fun j hist => Relation.ReflTransGen (Step G) a { a with journal := j, hist := hist })
    ?_ h Relation.ReflTransGen.refl
  intro j₁ hist added' j₂ hsteps hstep
  exact hsteps.tail (Step.store (a := { a with journal := j₁, hist := hist }) hstep)

end Ledger

/-! ## The ledger of a system -/

/-- Opening a store loads the records and then drains. -/
theorem openLog_loaded (hW : Lawful W) {config : Config W} {disk : List (Located T)}
    {s : RaftLog W} (hsorted : disk.Pairwise fun a b => a.chunkId ≤ b.chunkId)
    (h : RaftLog.openLog config disk = .ok s) :
    ∃ s₀ : RaftLog W, Loaded disk s₀.journal ∧ s = s₀.bufferRemovableChunks := by
  unfold RaftLog.openLog at h
  split at h
  · exact absurd h (by simp)
  · next wal sm hopen =>
    have hopened := hW.openWal_ok hsorted hopen
    refine ⟨⟨config, wal, sm, [], ⟨0, 0⟩⟩, ?_, (Except.ok.inj h).symm⟩
    refine ⟨⟨config.cache, sm, hopened.replay, rfl, rfl, rfl⟩, hopened.queue, rfl, ?_, ?_⟩
    · rcases hopened.written with hreopened | ⟨hfresh, hlt⟩
      · exact Or.inl hreopened
      · exact Or.inr ⟨⟨W.lastSegment wal, hfresh⟩, hlt⟩
    · simpa [RaftLogStateMachine.new] using hopened.closed

theorem reopened_steps (hW : Lawful W) {a : Ledger T} {survivors : ℕ} {config : Config W}
    {s : RaftLog W}
    (hsorted : a.hist.Pairwise fun x y => x.chunkId ≤ y.chunkId)
    (hopen : RaftLog.openLog config (a.disk survivors) = .ok s) :
    ∃ j, Loaded (a.disk survivors) j ∧ ∀ sentBefore,
      Relation.ReflTransGen (Ledger.Step G) (a.reopened survivors sentBefore j)
        (a.reopened survivors sentBefore s.journal) := by
  obtain ⟨s₀, hloaded, rfl⟩ := openLog_loaded hW (Ledger.disk_sorted hsorted _) hopen
  refine ⟨s₀.journal, hloaded, fun sentBefore => ?_⟩
  have hsteps := Ledger.steps_of_journal (a := a.reopened survivors sentBefore s₀.journal)
    (bufferRemovableChunks_steps (G := G) hW s₀)
  convert hsteps using 1
  simp [Ledger.reopened, written_bufferRemovableChunks hW]

/-- A step of a system is a run of ledger steps. -/
theorem System.Step.ledger_steps (hW : Lawful W) {allowed : RaftLog W → Op T → Prop}
    {sys sys' : System W} {e : Event W} (h : System.Step allowed sys e sys')
    (hG : ∀ op, allowed sys.store op → Guarded G op sys.store)
    (hsorted : sys.hist.Pairwise fun x y => x.chunkId ≤ y.chunkId) :
    Relation.ReflTransGen (Ledger.Step G) sys.ledger sys'.ledger := by
  cases h with
  | call hallowed hcompletes =>
      exact Ledger.steps_of_journal (completes_steps hW (hG _ hallowed) hcompletes)
  | drainCache hdrain =>
      obtain ⟨cache, hcache, rfl⟩ := drainCacheEvictable_ok hdrain
      refine .single ?_
      convert Ledger.Step.store (a := sys.ledger) (Journal.Step.drainCache hcache) using 1
      simp [System.ledger, RaftLog.journal]
  | persisted checkpoint =>
      refine .single ?_
      convert Ledger.Step.store (a := sys.ledger) (Journal.Step.persisted checkpoint) using 1
      simp [System.ledger, RaftLog.journal, RaftLog.chunkPersisted]
  | @work request hrequest =>
      refine .single ?_
      cases request with
      | write sync upto => exact Ledger.Step.handleWrite (a := sys.ledger) hrequest
      | removeChunks chunkIds => exact Ledger.Step.handleRemoval (a := sys.ledger) hrequest
      | appendFile => exact Ledger.Step.handleFile (a := sys.ledger) hrequest
  | unlinkFirst n hrequest =>
      exact .single (Ledger.Step.unlinkFirst (a := sys.ledger) n hrequest)
  | crash hsynced hlen hopen =>
      obtain ⟨j, hloaded, hsteps⟩ := reopened_steps (G := G) hW (a := sys.ledger) hsorted hopen
      exact .head (.reopen hsynced hlen (Or.inl rfl) hloaded) (hsteps _)
  | restart hsynced hlen hkept hhanded hopen =>
      obtain ⟨j, hloaded, hsteps⟩ := reopened_steps (G := G) hW (a := sys.ledger) hsorted hopen
      exact .head (.reopen hsynced hlen (Or.inr ⟨rfl, hkept, hhanded⟩) hloaded) (hsteps _)

/-- An invariant of the ledger is one of every reachable system. -/
theorem System.Reachable.ledger_invariant (hW : Lawful W) {allowed : RaftLog W → Op T → Prop}
    {I : Ledger T → Prop}
    (hG : ∀ sys op, I (System.ledger sys) → allowed sys.store op → Guarded G op sys.store)
    (hsorted : ∀ a, I a → a.hist.Pairwise fun x y => x.chunkId ≤ y.chunkId)
    (hinit : ∀ j, Loaded [] j → I ((Ledger.blank j).reopened 0 [] j))
    (hstep : ∀ a a', I a → Ledger.Step G a a' → I a')
    {sys : System W} (h : System.Reachable allowed sys) : I sys.ledger := by
  have hrun : ∀ a a', Relation.ReflTransGen (Ledger.Step G) a a' → I a → I a' := by
    intro a a' hsteps ha
    induction hsteps with
    | refl => exact ha
    | tail _ hlast ih => exact hstep _ _ ih hlast
  refine Transition.Reachable.invariant (I := fun sys => I sys.ledger) ?_ ?_ h
  · intro sys hinitial
    obtain ⟨config, hopen, hhist, hsynced, hhandled, hunlinked, hloaded, hsent⟩ := hinitial
    have hblank_sorted : (Ledger.blank sys.store.journal).hist.Pairwise
        fun x y => x.chunkId ≤ y.chunkId := List.Pairwise.nil
    have hopen_blank : RaftLog.openLog config ((Ledger.blank sys.store.journal).disk 0) =
        .ok sys.store := hopen
    obtain ⟨j, hj, hsteps⟩ := reopened_steps (G := G) hW hblank_sorted hopen_blank
    have hblank : (Ledger.blank sys.store.journal).reopened 0 [] sys.store.journal =
        sys.ledger := by
      simp [Ledger.reopened, Ledger.blank, Ledger.disk, System.ledger, hhist, hsynced, hhandled,
        hunlinked, hloaded, hsent, RaftLog.logState]
    exact hrun _ _ (hblank ▸ hsteps []) (hinit j hj)
  · intro sys e sys' hI hsys
    exact hrun _ _ (hsys.ledger_steps hW (fun op => hG sys op hI) (hsorted _ hI)) hI

end RaftLogStore
