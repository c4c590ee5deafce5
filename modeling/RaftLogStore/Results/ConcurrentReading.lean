import RaftLogStore.Model.Readers
import RaftLogStore.Results.DurableLog

/-!
# Iterators in use at the same time

However the iterators, the cache and the worker take turns, each iterator yields the entries of
the log in its range, one after the other, and no entry twice (`concurrent_reads`).  A payload that
is evicted between two items, or between the lookup and the load of one, is loaded from the WAL.

While an iterator is in use, the log map and the record stream stay as they are: only the cache
and the files change.  `Reading` is the invariant of one iterator over them.
-/

namespace RaftLogStore

open RaftLog Transition

variable {T : Types} {W : ChunkedWal T}

/-- The item for an entry: the entry itself, or an error of the WAL. -/
def Yields (e : T.LogId × T.LogPayload) (item : Except (Failure T) (T.LogId × T.LogPayload)) :
    Prop :=
  item = .ok e ∨ ∃ error, item = .error (.io error)

/-- What is left to an iterator is the rest of its range. -/
structure Reading (s : RaftLog W) (r : Reader T) (front behind : List (T.LogId × T.LogPayload)) :
    Prop where
  slice : s.view.slice r.fromIndex r.toIndex = front ++ behind
  yielded : List.Forall₂ Yields front r.yielded
  left : List.Forall₂ (fun d e => LatestAppend (W.view s.wal).written d e.2 ∧ e.1 = d.logId)
    (r.missed.toList ++ r.rest) behind
  held : ∀ d ∈ r.missed.toList ++ r.rest, ∃ i, s.stateMachine.log.get i = some d

namespace Reading

variable {s s' : RaftLog W} {r r' : Reader T} {front behind : List (T.LogId × T.LogPayload)}

/-- An iterator at its start. -/
theorem of_openReader
    (hbacked : Backed (W.view s.wal).written s.stateMachine.log s.stateMachine.payloadCache)
    {fromIndex toIndex : ℕ} (h : s.openReader fromIndex toIndex = .ok r) :
    Reading s r [] (s.view.slice r.fromIndex r.toIndex) := by
  unfold openReader at h
  split_ifs at h
  obtain rfl := Except.ok.inj h
  refine ⟨rfl, List.Forall₂.nil, slice_view hbacked fromIndex toIndex, fun d hd => ?_⟩
  obtain ⟨⟨i, d'⟩, he, rfl⟩ := List.mem_map.mp hd
  exact ⟨i, (OrderedMap.get_range_eq_some_iff.mp (OrderedMap.get_eq_some_iff.mpr he)).1⟩

/-- The next item of an iterator. -/
theorem yield {d : LogData T} {left : List (LogData T)}
    {item : Except (Failure T) (T.LogId × T.LogPayload)} (h : Reading s r front behind)
    (hleft : r.missed.toList ++ r.rest = d :: left)
    (hitem : ∀ p, LatestAppend (W.view s.wal).written d p → Yields (d.logId, p) item) :
    ∃ e behind', behind = e :: behind' ∧
      Reading s ⟨r.fromIndex, r.toIndex, left, none, r.yielded ++ [item]⟩
        (front ++ [e]) behind' := by
  have hall := h.left
  rw [hleft] at hall
  cases hall with
  | @cons _ e _ behind' hfirst hrest =>
      obtain ⟨hlatest, hlogId⟩ := hfirst
      refine ⟨e, behind', rfl, ?_, ?_, hrest, fun d' hd' => ?_⟩
      · rw [h.slice, List.append_assoc, List.singleton_append]
      · refine List.rel_append h.yielded (List.Forall₂.cons ?_ List.Forall₂.nil)
        have hyields := hitem e.2 hlatest
        rwa [← hlogId] at hyields
      · exact h.held d' (hleft ▸ List.mem_cons_of_mem d hd')

/-- A lookup yields the next item, or leaves it to be loaded. -/
theorem lookUp
    (hbacked : Backed (W.view s.wal).written s.stateMachine.log s.stateMachine.payloadCache)
    {stat stat' : AccessStat} (h : Reading s r front behind)
    (hlook : s.lookUp r stat = some (r', stat')) :
    ∃ front' behind', Reading s r' front' behind' := by
  unfold RaftLog.lookUp at hlook
  split at hlook
  · next d rest hmissed hrest =>
    have hleft : r.missed.toList ++ r.rest = d :: rest := by simp [hmissed, hrest]
    split at hlook
    · next payload hcached =>
      obtain ⟨rfl, -⟩ := Prod.mk.inj (Option.some.inj hlook)
      obtain ⟨i, hget⟩ := h.held d (by simp [hleft])
      obtain ⟨p, hlatest, hpayload⟩ := hbacked.payload hget
      have hitem : ∀ p, LatestAppend (W.view s.wal).written d p →
          Yields (d.logId, p) (.ok (d.logId, payload)) := fun p' hlatest' => by
        have hsame := hlatest'.latestPayload_eq.symm.trans hlatest.latestPayload_eq
        rw [hpayload payload hcached, Option.some.inj hsame]
        exact Or.inl rfl
      obtain ⟨e, behind', -, hreading⟩ := h.yield hleft hitem
      exact ⟨_, _, by simpa [hmissed] using hreading⟩
    · obtain ⟨rfl, -⟩ := Prod.mk.inj (Option.some.inj hlook)
      have hleft' : (some d).toList ++ rest = r.missed.toList ++ r.rest := by simp [hleft]
      exact ⟨front, behind, h.slice, h.yielded, hleft' ▸ h.left, hleft' ▸ h.held⟩
  · simp at hlook

/-- A load yields the missed item. -/
theorem loadMissed (hW : Lawful W) (h : Reading s r front behind)
    (hload : s.loadMissed r = some r') : ∃ front' behind', Reading s r' front' behind' := by
  unfold RaftLog.loadMissed at hload
  split at hload
  · simp at hload
  · next d hmissed =>
    obtain rfl := Option.some.inj hload
    have hleft : r.missed.toList ++ r.rest = d :: r.rest := by simp [hmissed]
    refine ⟨_, _, (h.yield hleft fun p hlatest => ?_).choose_spec.choose_spec.2⟩
    cases hrecord : W.loadRecord s.wal d.chunkId d.recordSegment with
    | error e => exact Or.inr ⟨e, rfl⟩
    | ok rec =>
        have happend := hW.loadRecord_ok hrecord _ hlatest.mem rfl rfl
        refine Or.inl ?_
        rw [← happend]
        simp [fromIo, recordPayload, bind, Except.bind]

/-- The log map, the state and the record stream are all that an iterator depends on. -/
theorem congr (h : Reading s r front behind) (hwal : s'.wal = s.wal)
    (hlog : s'.stateMachine.log = s.stateMachine.log) (hstate : s'.logState = s.logState) :
    Reading s' r front behind := by
  have hview : s'.view = s.view := by rw [RaftLog.view, hwal, hlog, hstate]; rfl
  exact ⟨hview ▸ h.slice, h.yielded, hwal ▸ h.left, hlog ▸ h.held⟩

end Reading

/-! ## Shared systems -/

namespace Shared

variable {allowed : RaftLog W → Op T → Prop}

/-- The system of a shared one is reachable without its iterators. -/
theorem Reachable.system {c : Shared W} (h : Reachable allowed c) :
    System.Reachable allowed c.system := by
  refine Transition.Reachable.invariant (I := fun c => System.Reachable allowed c.system)
    (fun c hinitial => Transition.Reachable.of_initial hinitial.1) (fun c e c' hc hstep => ?_) h
  cases hstep with
  | other _ hsys => exact Transition.Reachable.tail hc hsys
  | _ => exact hc

/-- What happens while iterators are in use changes neither the WAL nor the log map. -/
theorem store_of_not_exclusive {sys sys' : System W} {e : Event W}
    (h : System.Step allowed sys e sys') (he : ¬ e.Exclusive) :
    sys'.store.wal = sys.store.wal ∧ sys'.store.stateMachine.log = sys.store.stateMachine.log ∧
      sys'.store.logState = sys.store.logState := by
  cases h with
  | drainCache hdrain =>
      obtain ⟨cache, -, rfl⟩ := drainCacheEvictable_ok hdrain
      exact ⟨rfl, rfl, rfl⟩
  | persisted checkpoint => exact ⟨rfl, rfl, rfl⟩
  | @work request _ => cases request <;> exact ⟨rfl, rfl, rfl⟩
  | unlinkFirst n _ => exact ⟨rfl, rfl, rfl⟩
  | call _ _ => exact absurd trivial he
  | crash _ _ _ => exact absurd trivial he
  | restart _ _ _ _ _ => exact absurd trivial he

/-- Every iterator in use is where it should be. -/
def AllReading (c : Shared W) : Prop :=
  ∀ r ∈ c.readers, ∃ front behind, Reading c.system.store r front behind

theorem AllReading.set {c : Shared W} (h : AllReading c) {r' : Reader T}
    (hr' : ∃ front behind, Reading c.system.store r' front behind) (j : ℕ) (stat : AccessStat) :
    AllReading { c with stat := stat, readers := c.readers.set j r' } := by
  intro r hr
  rcases List.mem_or_eq_of_mem_set hr with hr | rfl
  · exact h r hr
  · exact hr'

theorem AllReading.step (hW : Lawful W) {c c' : Shared W} {e : SharedEvent W}
    (h : AllReading c) (hc : Reachable allowed c) (hstep : Step allowed c e c') :
    AllReading c' := by
  have hbacked := backed_of_reachable hW hc.system
  cases hstep with
  | read hopen =>
      intro r hr
      rcases List.mem_append.mp hr with hr | hr
      · exact h r hr
      · obtain rfl := List.mem_singleton.mp hr
        exact ⟨_, _, Reading.of_openReader hbacked hopen⟩
  | lookUp hr hlook =>
      obtain ⟨front, behind, hreading⟩ := h _ (List.mem_of_getElem? hr)
      exact h.set (hreading.lookUp hbacked hlook) _ _
  | loadMissed hr hload =>
      obtain ⟨front, behind, hreading⟩ := h _ (List.mem_of_getElem? hr)
      exact h.set (hreading.loadMissed hW hload) _ c.stat
  | drop j => exact fun r hr => h r (List.mem_of_mem_eraseIdx hr)
  | @other e sys hshared hsys =>
      by_cases he : e.Exclusive
      · -- there is no iterator in use
        intro r hr
        rw [hshared he] at hr
        exact absurd hr List.not_mem_nil
      · obtain ⟨hwal, hlog, hstate⟩ := store_of_not_exclusive hsys he
        intro r hr
        obtain ⟨front, behind, hreading⟩ := h r hr
        exact ⟨front, behind, hreading.congr hwal hlog hstate⟩

theorem Reachable.allReading (hW : Lawful W) {c : Shared W} (h : Reachable allowed c) :
    AllReading c := by
  have hboth : Reachable allowed c ∧ AllReading c := by
    refine Transition.Reachable.invariant (I := fun c => Reachable allowed c ∧ AllReading c)
      (fun c hinitial => ⟨Transition.Reachable.of_initial hinitial, ?_⟩)
      (fun c e c' hc hstep => ⟨hc.1.tail hstep, hc.2.step hW hc.1 hstep⟩) h
    intro r hr
    rw [hinitial.2.2] at hr
    exact absurd hr List.not_mem_nil
  exact hboth.2

end Shared

/-- Whatever the other iterators, the cache and the worker do in between, an iterator has yielded
the first entries of its range, one item for each, and the rest of them is left to it.  An item is
the entry or an error of the WAL. -/
theorem concurrent_reads (hW : Lawful W) {allowed : RaftLog W → Op T → Prop} {c : Shared W}
    (h : Shared.Reachable allowed c) {r : Reader T} (hr : r ∈ c.readers) :
    ∃ front behind, c.system.store.view.slice r.fromIndex r.toIndex = front ++ behind ∧
      List.Forall₂ Yields front r.yielded ∧
      List.Forall₂ (fun (d : LogData T) e => e.1 = d.logId) (r.missed.toList ++ r.rest) behind := by
  obtain ⟨front, behind, hreading⟩ := h.allReading hW r hr
  exact ⟨front, behind, hreading.slice, hreading.yielded, hreading.left.imp fun _ _ => And.right⟩

/-- Two iterators, between whose steps the cache is drained. -/
def takingTurns : List (SharedEvent (memoryWal (exampleTypes true))) :=
  [.other (.call (.append [(⟨1, 0⟩, 5), (⟨1, 1⟩, 6), (⟨1, 2⟩, 7)])),
    .other (.call (.flush true none)), .read 0 3, .lookUp 0, .read 1 2, .other .work,
    .other (.persisted (some ⟨none, some ⟨1, 1⟩, none, none, none⟩)), .other .drainCache,
    .lookUp 0, .lookUp 1, .loadMissed 1, .loadMissed 0, .drop 1]

def startedShared : Shared (memoryWal (exampleTypes true)) := ⟨emptySystem, ⟨0, 0⟩, []⟩

def sharedSystem : Shared (memoryWal (exampleTypes true)) :=
  (Shared.performAll AnyCall takingTurns startedShared).get (by decide +kernel)

/-- The iterator that is left. -/
def leftReader : Reader (exampleTypes true) := (sharedSystem.readers[0]?).get (by decide +kernel)

theorem concurrent_reads_leftReader :
    (∃ front behind, sharedSystem.system.store.view.slice leftReader.fromIndex
        leftReader.toIndex = front ++ behind ∧ List.Forall₂ Yields front leftReader.yielded) ∧
      leftReader.yielded.length = 2 ∧ sharedSystem.stat.cacheMiss = 2 := by
  have hstarted : startedShared.Initial :=
    ⟨System.initial_of_start (Option.some_get (by decide)).symm, rfl, rfl⟩
  have hreachable : Shared.Reachable AnyCall sharedSystem :=
    ⟨startedShared, takingTurns, hstarted, Shared.run_of_performAll (Option.some_get _).symm⟩
  have hmem : leftReader ∈ sharedSystem.readers :=
    List.mem_of_getElem? (Option.some_get _).symm
  obtain ⟨front, behind, hslice, hyielded, -⟩ :=
    concurrent_reads (memoryWal_lawful _) hreachable hmem
  exact ⟨⟨front, behind, hslice, hyielded⟩, by decide +kernel, by decide +kernel⟩

end RaftLogStore
