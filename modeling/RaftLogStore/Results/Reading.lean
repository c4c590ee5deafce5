import Mathlib.Data.List.Forall2
import RaftLogStore.Journal.Backing
import RaftLogStore.Journal.Extension
import RaftLogStore.Model.Simulation

/-!
# The cache and the WAL agree

An item of `read` or of a dump comes from the cache or from the WAL.  Either way it is the
payload of the latest append of its log id, because every entry is `Backed`; the only other
outcome is an error of the WAL.  Nothing is assumed of the calls.
-/

namespace RaftLogStore

open RaftLog

variable {T : Types} {W : ChunkedWal T}

/-- What holds of every ledger. -/
structure BackedLedger (a : Ledger T) : Prop where
  accounted : Accounted Passed a
  backed : Backed a.journal.written a.journal.log a.journal.cache

theorem BackedLedger.step {G : Journal T → RaftLogRecord T → Prop} {a a' : Ledger T}
    (h : BackedLedger a) (hstep : Ledger.Step G a a') : BackedLedger a' := by
  refine ⟨h.accounted.step_passed hstep, ?_⟩
  cases hstep with
  | store hjournal => exact hjournal.backed h.backed
  | handleWrite _ => exact h.backed
  | handleRemoval _ => exact h.backed
  | handleFile _ => exact h.backed
  | unlinkFirst n _ => exact h.backed
  | reopen _ _ _ hloaded => exact hloaded.backed

theorem backed_of_reachable (hW : Lawful W) {allowed : RaftLog W → Op T → Prop} {sys : System W}
    (h : System.Reachable allowed sys) :
    Backed (W.view sys.store.wal).written sys.store.stateMachine.log
      sys.store.stateMachine.payloadCache := by
  have hledger : BackedLedger sys.ledger :=
    h.ledger_invariant (G := fun _ _ => True) hW (fun _ op _ _ => guarded_true op _)
      (fun _ ha => ha.accounted.recorded.history.sorted)
      (fun _ hloaded => ⟨Accounted.initial hloaded, hloaded.backed⟩)
      (fun _ _ ha hstep => ha.step hstep)
  exact hledger.backed

/-! ## One item -/

/-- The item for the entry `d` is its log id with the payload of its record, or the error with
which the WAL failed to load the record. -/
def Serves (s : RaftLog W) (load : ChunkId → Segment → Except IoError (RaftLogRecord T))
    (d : LogData T) (item : Except (Failure T) (T.LogId × T.LogPayload)) : Prop :=
  (∃ p, LatestAppend (W.view s.wal).written d p ∧ item = .ok (d.logId, p)) ∨
    s.stateMachine.payloadCache.get d.logId = none ∧
      ∃ e, load d.chunkId d.recordSegment = .error e ∧ item = .error (.io e)

/-- What is loaded from the place of an entry is its payload, and neither the assertion nor the
panic is reached. -/
theorem serves_loaded {s : RaftLog W} {load : ChunkId → Segment → Except IoError (RaftLogRecord T)}
    (hload : ∀ {chunkId segment rec}, load chunkId segment = .ok rec →
      ∀ l ∈ (W.view s.wal).written, l.chunkId = chunkId → l.segment = segment → l.record = rec)
    {d : LogData T} {p : T.LogPayload} (hlatest : LatestAppend (W.view s.wal).written d p)
    (hmiss : s.stateMachine.payloadCache.get d.logId = none) :
    Serves s load d (do
      let record ← fromIo (load d.chunkId d.recordSegment)
      let payload ← recordPayload d record
      .ok (d.logId, payload)) := by
  cases hrecord : load d.chunkId d.recordSegment with
  | error e => exact Or.inr ⟨hmiss, e, hrecord, rfl⟩
  | ok rec =>
      have happend := hload hrecord _ hlatest.mem rfl rfl
      refine Or.inl ⟨p, hlatest, ?_⟩
      rw [← happend]
      simp [fromIo, recordPayload, bind, Except.bind]

theorem serves_readItem (hW : Lawful W) {s : RaftLog W}
    (hbacked : Backed (W.view s.wal).written s.stateMachine.log s.stateMachine.payloadCache)
    {i : ℕ} {d : LogData T} (hget : s.stateMachine.log.get i = some d) (stat : AccessStat) :
    Serves s (W.loadRecord s.wal) d (s.readItem d stat).1 := by
  obtain ⟨p, hlatest, hcached⟩ := hbacked.payload hget
  unfold readItem
  split
  · next payload hhit =>
    exact Or.inl ⟨p, hlatest, by rw [hcached payload hhit]⟩
  · next hmiss => exact serves_loaded hW.loadRecord_ok hlatest hmiss

/-! ## All items -/

theorem serves_readItems (hW : Lawful W) {s : RaftLog W}
    (hbacked : Backed (W.view s.wal).written s.stateMachine.log s.stateMachine.payloadCache)
    {entries : List (LogData T)} (hheld : ∀ d ∈ entries, ∃ i, s.stateMachine.log.get i = some d)
    (stat : AccessStat) :
    List.Forall₂ (Serves s (W.loadRecord s.wal)) entries (s.readItems entries stat).1 := by
  induction entries generalizing stat with
  | nil => exact List.Forall₂.nil
  | cons d rest ih =>
      obtain ⟨i, hget⟩ := hheld d (by simp)
      have hfirst := serves_readItem hW hbacked hget stat
      exact List.Forall₂.cons hfirst (ih (fun e he => hheld e (by simp [he])) _)

/-- The items of a `read` of a range. -/
theorem serves_range (hW : Lawful W) {s : RaftLog W}
    (hbacked : Backed (W.view s.wal).written s.stateMachine.log s.stateMachine.payloadCache)
    (fromIndex toIndex : ℕ) :
    List.Forall₂ (Serves s (W.loadRecord s.wal))
      (s.stateMachine.log.range fromIndex toIndex).values
      (s.readItems (s.stateMachine.log.range fromIndex toIndex).values s.accessStat).1 := by
  refine serves_readItems hW hbacked (fun d hd => ?_) s.accessStat
  obtain ⟨⟨i, d'⟩, he, rfl⟩ := List.mem_map.mp hd
  exact ⟨i, (OrderedMap.get_range_eq_some_iff.mp (OrderedMap.get_eq_some_iff.mpr he)).1⟩

theorem serves_ne_panic {s : RaftLog W}
    {load : ChunkId → Segment → Except IoError (RaftLogRecord T)} {entries : List (LogData T)}
    {items : List (Except (Failure T) (T.LogId × T.LogPayload))}
    (h : List.Forall₂ (Serves s load) entries items) : ∀ item ∈ items, item ≠ .error .panic := by
  induction h with
  | nil => simp
  | cons hserves _ ih =>
      intro item hitem
      rcases List.mem_cons.mp hitem with rfl | hitem
      · rcases hserves with ⟨p, -, rfl⟩ | ⟨-, e, -, rfl⟩ <;> simp
      · exact ih item hitem

/-- What the iterator of a dump has not changed when it is at position `i`. -/
structure DumpOf (s : RaftLog W) (data : DumpRaftLog W) : Prop where
  logs : data.logs = s.stateMachine.log.values
  cache : data.cache = s.stateMachine.payloadCache.cache
  recordReader : data.recordReader = W.closedChunkReader s.wal

/-- One step of the iterator serves the entry at its position, and moves only the counters. -/
theorem serves_next (hW : Lawful W) {s : RaftLog W}
    (hbacked : Backed (W.view s.wal).written s.stateMachine.log s.stateMachine.payloadCache)
    {data : DumpRaftLog W} (hdata : DumpOf s data) {i : ℕ} {d : LogData T}
    (hd : data.logs[i]? = some d) :
    ∃ item data', data.next i = some (item, data') ∧
      Serves s (W.readRecord (W.closedChunkReader s.wal)) d item ∧ DumpOf s data' := by
  have hheld : ∃ k, s.stateMachine.log.get k = some d := by
    have hmem : d ∈ s.stateMachine.log.values := hdata.logs ▸ List.mem_of_getElem? hd
    obtain ⟨⟨k, d'⟩, he, rfl⟩ := List.mem_map.mp hmem
    exact ⟨k, OrderedMap.get_eq_some_iff.mpr he⟩
  obtain ⟨k, hget⟩ := hheld
  obtain ⟨p, hlatest, hcached⟩ := hbacked.payload hget
  have hcache : data.cache.get d.logId = s.stateMachine.payloadCache.get d.logId := by
    rw [hdata.cache]
    rfl
  simp only [DumpRaftLog.next, hd]
  cases hhit : data.cache.get d.logId with
  | some payload =>
      refine ⟨_, _, rfl, Or.inl ⟨p, hlatest, ?_⟩, ⟨hdata.logs, hdata.cache, hdata.recordReader⟩⟩
      rw [hcached payload (hcache ▸ hhit)]
  | none =>
      refine ⟨_, _, rfl, ?_, ⟨hdata.logs, hdata.cache, hdata.recordReader⟩⟩
      have hserves := serves_loaded (s := s) hW.readRecord_ok hlatest (hcache ▸ hhit)
      convert hserves using 1
      rw [DumpRaftLog.readLogPayload, hdata.recordReader]
      cases fromIo (T := T) (W.readRecord (W.closedChunkReader s.wal) d.chunkId
        d.recordSegment) with
      | error failure => rfl
      | ok record => cases recordPayload d record <;> rfl

theorem serves_itemsFrom (hW : Lawful W) {s : RaftLog W}
    (hbacked : Backed (W.view s.wal).written s.stateMachine.log s.stateMachine.payloadCache)
    (data : DumpRaftLog W) (hdata : DumpOf s data) (n i : ℕ) (hlen : data.logs.length = i + n) :
    List.Forall₂ (Serves s (W.readRecord (W.closedChunkReader s.wal))) (data.logs.drop i)
      (data.itemsFrom n i) := by
  induction n generalizing data i with
  | zero =>
      rw [List.drop_of_length_le (by omega)]
      exact List.Forall₂.nil
  | succ n ih =>
      have hi : i < data.logs.length := by omega
      obtain ⟨item, data', hnext, hserves, hdata'⟩ :=
        serves_next hW hbacked hdata (List.getElem?_eq_getElem hi)
      have hlogs : data'.logs = data.logs := hdata'.logs.trans hdata.logs.symm
      have hrest := ih data' hdata' (i + 1) (by rw [hlogs]; omega)
      rw [hlogs] at hrest
      simp only [DumpRaftLog.itemsFrom, hnext]
      rw [List.drop_eq_getElem_cons hi]
      exact List.Forall₂.cons hserves hrest

theorem serves_iter (hW : Lawful W) {s : RaftLog W}
    (hbacked : Backed (W.view s.wal).written s.stateMachine.log s.stateMachine.payloadCache) :
    List.Forall₂ (Serves s (W.readRecord (W.closedChunkReader s.wal))) s.stateMachine.log.values
      s.dumpData.iter := by
  have hdump : DumpOf s s.dumpData := ⟨rfl, rfl, rfl⟩
  exact serves_itemsFrom hW hbacked _ hdump _ 0 (Nat.zero_add _).symm

/-! ## Agreement -/

/-- The items of a dump for the indexes of a range. -/
def dumpSlice (s : RaftLog W) (fromIndex toIndex : ℕ) :
    List (Except (Failure T) (T.LogId × T.LogPayload)) :=
  (s.dumpData.iter.drop (s.stateMachine.log.splitOff fromIndex).1.len).take
    (s.stateMachine.log.range fromIndex toIndex).len

theorem serves_unique {s : RaftLog W}
    {load load' : ChunkId → Segment → Except IoError (RaftLogRecord T)} {d : LogData T}
    {pair pair' : T.LogId × T.LogPayload} (h : Serves s load d (.ok pair))
    (h' : Serves s load' d (.ok pair')) : pair = pair' := by
  rcases h with ⟨p, hlatest, hpair⟩ | ⟨-, e, -, herror⟩
  · rcases h' with ⟨p', hlatest', hpair'⟩ | ⟨-, e, -, herror⟩
    · rw [Except.ok.inj hpair, Except.ok.inj hpair', hlatest.unique hlatest']
    · exact absurd herror (by simp)
  · exact absurd herror (by simp)

/-- Items for the same entries are the same where no load fails. -/
theorem items_eq {s : RaftLog W}
    {load load' : ChunkId → Segment → Except IoError (RaftLogRecord T)}
    {entries : List (LogData T)} {items items' : List (Except (Failure T) (T.LogId × T.LogPayload))}
    (h : List.Forall₂ (Serves s load) entries items)
    (h' : List.Forall₂ (Serves s load') entries items')
    (hok : ∀ item ∈ items, ∃ pair, item = .ok pair)
    (hok' : ∀ item ∈ items', ∃ pair, item = .ok pair) : items = items' := by
  induction h generalizing items' with
  | nil => rw [List.forall₂_nil_left_iff.mp h']
  | @cons d item entries items hserves _ ih =>
      cases h' with
      | @cons _ item' _ items' hserves' hrest' =>
          obtain ⟨pair, rfl⟩ := hok item (by simp)
          obtain ⟨pair', rfl⟩ := hok' item' (by simp)
          rw [serves_unique hserves hserves', ih hrest' (fun i hi => hok i (by simp [hi]))
            fun i hi => hok' i (by simp [hi])]

/-- Each held entry has its own append at its place, and the cache has no other payload for it.
A read of a range and the dump of the same range go through the same entries, in the order of
their indexes.  Each serves the payload of the latest append, from the cache or from the WAL,
or the error of a load that failed; if none fails, they yield the same items. -/
theorem reads_agree (hW : Lawful W) {sys : System W} (h : System.Reachable AnyCall sys) :
    (∀ i d, sys.store.stateMachine.log.get i = some d → T.logIndex d.logId = i ∧
      ∃ p, LatestAppend (W.view sys.store.wal).written d p ∧
        ∀ v, sys.store.stateMachine.payloadCache.get d.logId = some v → v = p) ∧
    ∀ fromIndex toIndex, fromIndex ≤ toIndex →
      ∃ items stat, sys.store.read fromIndex toIndex = .ok (items, stat) ∧
        (sys.store.stateMachine.log.range fromIndex toIndex).values.Pairwise
          (fun d d' => T.logIndex d.logId < T.logIndex d'.logId) ∧
        List.Forall₂ (Serves sys.store (W.loadRecord sys.store.wal))
          (sys.store.stateMachine.log.range fromIndex toIndex).values items ∧
        List.Forall₂ (Serves sys.store (W.readRecord (W.closedChunkReader sys.store.wal)))
          (sys.store.stateMachine.log.range fromIndex toIndex).values
          (dumpSlice sys.store fromIndex toIndex) ∧
        ((∀ item ∈ items, ∃ pair, item = .ok pair) →
          (∀ item ∈ dumpSlice sys.store fromIndex toIndex, ∃ pair, item = .ok pair) →
          items = dumpSlice sys.store fromIndex toIndex) := by
  have hbacked := backed_of_reachable hW h
  refine ⟨fun i d hget => ⟨hbacked.key hget, hbacked.payload hget⟩, ?_⟩
  intro fromIndex toIndex hle
  have hread := serves_range hW hbacked fromIndex toIndex
  have hdump : List.Forall₂ (Serves sys.store (W.readRecord (W.closedChunkReader sys.store.wal)))
      (sys.store.stateMachine.log.range fromIndex toIndex).values
      (dumpSlice sys.store fromIndex toIndex) := by
    rw [OrderedMap.values_range]
    exact List.forall₂_take _ (List.forall₂_drop _ (serves_iter hW hbacked))
  have hok : sys.store.read fromIndex toIndex = .ok (sys.store.readItems
      (sys.store.stateMachine.log.range fromIndex toIndex).values sys.store.accessStat) := by
    rw [RaftLog.read, if_neg (Nat.not_lt.mpr hle)]
  refine ⟨_, _, hok, ?_, hread, hdump, items_eq hread hdump⟩
  · refine List.pairwise_map.mpr ?_
    refine (sys.store.stateMachine.log.range fromIndex toIndex).sorted.imp_of_mem ?_
    intro e e' he he' hlt
    have hindex := hbacked.key (OrderedMap.get_range_eq_some_iff.mp
      (OrderedMap.get_eq_some_iff.mpr he)).1
    have hindex' := hbacked.key (OrderedMap.get_range_eq_some_iff.mp
      (OrderedMap.get_eq_some_iff.mpr he')).1
    rw [hindex, hindex']
    exact hlt

/-- A store that has evicted two of its three entries. -/
def evictedEntries : List (Event (memoryWal (exampleTypes true))) :=
  [.call (.append [(⟨1, 0⟩, 5), (⟨1, 1⟩, 6), (⟨1, 2⟩, 7)]),
    .persisted (some ⟨none, some ⟨1, 1⟩, none, none, none⟩), .drainCache]

def evictedSystem : System (memoryWal (exampleTypes true)) :=
  (System.simulate AnyCall (chunksOfSize true 3) evictedEntries).get (by decide +kernel)

theorem reads_agree_evictedSystem :
    ∃ items stat, evictedSystem.store.read 0 3 = .ok (items, stat) ∧ stat.cacheHit = 1 ∧
      stat.cacheMiss = 2 ∧ items = dumpSlice evictedSystem.store 0 3 := by
  have hreachable : System.Reachable AnyCall evictedSystem := System.reachable_get _
  obtain ⟨items, stat, hread, -, -, -, hagree⟩ :=
    (reads_agree (memoryWal_lawful _) hreachable).2 0 3 (by decide)
  have hok {l : List (Except (Failure (exampleTypes true)) (TermIndex × Fin (2 ^ 64)))}
      (h : l.all Except.isOk = true) : ∀ item ∈ l, ∃ pair, item = .ok pair := by
    intro item hitem
    cases item with
    | ok pair => exact ⟨pair, rfl⟩
    | error failure =>
        have herror := List.all_eq_true.mp h _ hitem
        exact absurd herror (by simp [Except.isOk, Except.toBool])
  have hitems : _ = items := congrArg Prod.fst (Except.ok.inj hread)
  have hstat : _ = stat := congrArg Prod.snd (Except.ok.inj hread)
  refine ⟨items, stat, hread, ?_, ?_, hagree (hok ?_) (hok ?_)⟩
  · rw [← hstat]
    decide +kernel
  · rw [← hstat]
    decide +kernel
  · rw [← hitems]
    decide +kernel
  · decide +kernel

end RaftLogStore
