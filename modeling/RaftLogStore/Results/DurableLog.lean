import RaftLogStore.Abstract.Calls
import RaftLogStore.Journal.Extension
import RaftLogStore.Results.Reading

/-!
# The store is a durable log

Whatever the callers, the worker and the crashes do, a store that is used consistently does what
a `DurableLog` does: the calls it accepts and rejects, the logs it shows, and the logs it can fall
back to are those of the abstract component (`refines_durableLog`).  Chunks, their rotation and
removal, the cache and its eviction are not to be seen.

## Strategy
1. Every reachable store is `Coherent`, and its history ends with it (`coherent_of_reachable`,
   `endsWith_of_reachable`).
2. `Represents` relates a system to a durable log: the versions of the log are those of the
   history.  Each step keeps it (`represents_step`), and the library lifts that to runs.
-/

namespace RaftLogStore

open RaftLog Transition

variable {T : Types} {W : ChunkedWal T}

theorem coherent_of_reachable (hW : Lawful W) {sys : System W}
    (h : System.Reachable ConsistentCall sys) : Coherent sys.store.journal := by
  obtain ⟨hrestartable, hkept⟩ := inOrder_of_reachable hW h
  obtain ⟨hagree, hpurged⟩ := hrestartable.live.agreement hrestartable.accounted.recorded
  exact ⟨hagree, hpurged, hkept.state, backed_of_reachable hW h⟩

theorem endsWith_of_reachable (hW : Lawful W) {sys : System W}
    (h : System.Reachable ConsistentCall sys) : EndsWith sys.hist sys.store := by
  obtain ⟨hrestartable, -⟩ := inOrder_of_reachable hW h
  obtain ⟨pre, hpre, -⟩ := hrestartable.accounted.recorded.written
  exact ⟨hrestartable.accounted.recorded.state.symm, hrestartable.live.log.symm, pre, hpre⟩

/-- What is observed of a step: a call and whether it returned, how much is synced after a step
of the worker, and how much a restart found. -/
def System.shows (sys : System W) : Event W → List (DurableEvent T)
  | .call op => [.call op (op.isOk sys.store)]
  | .work =>
      match sys.queue[sys.handled]? with
      | some request => [.persist (sys.handle request).synced]
      | none => []
  | .crash survivors _ => [.crash survivors]
  | .restart survivors _ => [.reopen survivors]
  | .drainCache => []
  | .persisted _ => []
  | .unlinkFirst _ => []

/-- The durable log that a system is. -/
structure Represents (sys : System W) (d : DurableLog T) : Prop where
  versions : d.versions = versions sys.hist
  durable : d.durable = sys.synced
  /-- What was handed over is kept by every shutdown without a crash. -/
  handed : ∀ r, sys.loaded ≤ r →
    (∀ sync upto, .write sync upto ∈ sys.queue → sys.base + upto ≤ r) → d.handed ≤ r

theorem Represents.current (hW : Lawful W) {sys : System W} {d : DurableLog T}
    (h : Represents sys d) (hreachable : System.Reachable ConsistentCall sys) :
    d.current = sys.store.view := by
  rw [DurableLog.current, h.versions, getLastD_versions]
  exact (endsWith_of_reachable hW hreachable).versionOf_eq (coherent_of_reachable hW hreachable)

/-- A step that leaves the history, the WAL and what is synced alone. -/
theorem Represents.congr {sys sys' : System W} {d : DurableLog T} (h : Represents sys d)
    (hhist : sys'.hist = sys.hist) (hwal : sys'.store.wal = sys.store.wal)
    (hsynced : sys'.synced = sys.synced) (hloaded : sys'.loaded = sys.loaded) :
    Represents sys' d := by
  refine ⟨hhist ▸ h.versions, hsynced ▸ h.durable, fun r hle hwrites => h.handed r ?_ ?_⟩
  · rwa [← hloaded]
  · simpa only [System.queue, System.base, hhist, hwal] using hwrites

/-! ## The steps -/

/-- A flush puts a write of everything into the queue. -/
theorem write_mem_queue (hW : Lawful W) {sync : Bool} {callback : Option T.Callback}
    {s s' : RaftLog W} (h : Completes (.flush sync callback) s s') :
    .write sync (W.view s.wal).written.length ∈ (W.view s'.wal).queue := by
  rcases h with hok | ⟨e, herror⟩
  · obtain ⟨wal₁, hsend, hcases⟩ := flush_ok hok
    obtain ⟨-, -, hview₁⟩ := hW.sendPending_ok hsend
    rcases hcases with ⟨-, rfl⟩ | ⟨-, wal₂, hremove, rfl⟩
    · simp [hview₁]
    · obtain ⟨-, -, hview₂⟩ := hW.sendRemoveChunks_ok hremove
      simp [hview₂, hview₁]
  · obtain ⟨e', he'⟩ := flush_error herror
    exact absurd he' (by simp)

theorem represents_call (hW : Lawful W) {sys : System W} {op : Op T} {s : RaftLog W}
    {d : DurableLog T} (hreachable : System.Reachable ConsistentCall sys) (h : Represents sys d)
    (hcall : ConsistentCall sys.store op) (hcompletes : Completes op sys.store s) :
    ∃ d', DurableLog.Step d (.call op (op.isOk sys.store)) d' ∧
      Represents { sys with store := s, hist := sys.hist ++ op.recorded sys.store } d' := by
  obtain ⟨logs, shown, hrefines⟩ := refines_call hW (coherent_of_reachable hW hreachable) hcall
    hcompletes (endsWith_of_reachable hW hreachable)
  have hcurrent := h.current hW hreachable
  have hstep : System.Step ConsistentCall sys (.call op)
      { sys with store := s, hist := sys.hist ++ op.recorded sys.store } :=
    System.Step.call hcall hcompletes
  have hext := hstep.extends hW id
  refine ⟨_, .call (hcurrent ▸ hrefines.call) (hcurrent ▸ hrefines.stutters), ?_, h.durable, ?_⟩
  · rw [h.versions, hrefines.versions]
  · intro r hloaded hwrites
    rw [hext.base] at hwrites
    have hbefore : d.handed ≤ r := h.handed r hloaded fun sync upto hmem =>
      hwrites sync upto (hext.queue.subset hmem)
    cases op with
    | flush sync callback =>
        have hall := hwrites sync _ (write_mem_queue hW hcompletes)
        have hbase := (inOrder_of_reachable hW hreachable).1.accounted.recorded.base_add
        have hbase' : sys.base + (W.view sys.store.wal).written.length = sys.hist.length := hbase
        simpa only [DurableLog.handedBy, h.versions, length_versions, hbase'] using hall
    | _ => exact hbefore

/-- What is loaded shows the same over all the records that survive. -/
theorem Loaded.viewOf_eq {a : Ledger T} {survivors : ℕ} {j : Journal T}
    (hsurvives : a.Survives survivors) (hloaded : Loaded (a.disk survivors) j) :
    viewOf j.written j.log j.state =
      viewOf ((a.hist.take survivors).map Snapshot.located) j.log j.state := by
  obtain ⟨pre, suf, hsplit⟩ := hsurvives.split
  have hrest : ∃ rest : List (Located T), j.written = a.disk survivors ++ rest ∧
      ∀ l ∈ rest, ∀ logId p, l.record ≠ .action (.append logId p) := by
    rcases hloaded.written with ⟨hwritten, -⟩ | ⟨⟨segment, hwritten⟩, -⟩
    · exact ⟨[], by simpa using hwritten, by simp⟩
    · exact ⟨_, hwritten, by simp⟩
  obtain ⟨rest, hrest, hnone⟩ := hrest
  have htake : (a.hist.take survivors).map Snapshot.located =
      pre.map Snapshot.located ++ a.disk survivors := by
    rw [hsplit.take_eq, List.map_append, hsplit.disk_eq]
  calc viewOf j.written j.log j.state
      = viewOf (pre.map Snapshot.located ++ j.written) j.log j.state :=
        (viewOf_prepend hloaded.backed _).symm
    _ = viewOf ((a.hist.take survivors).map Snapshot.located ++ rest) j.log j.state := by
        rw [htake, hrest, List.append_assoc]
    _ = viewOf ((a.hist.take survivors).map Snapshot.located) j.log j.state :=
        viewOf_append hnone _ _

/-- Opening drains what is loaded, which does not show. -/
theorem view_bufferRemovableChunks (hW : Lawful W) {s₀ : RaftLog W} :
    s₀.bufferRemovableChunks.view = viewOf s₀.journal.written s₀.journal.log s₀.journal.state := by
  rw [RaftLog.view, logState_bufferRemovableChunks, stateMachine_bufferRemovableChunks,
    written_bufferRemovableChunks hW]
  rfl

/-- A store that is opened again shows what the live store showed at the end of what survives. -/
theorem view_opened (hW : Lawful W) {sys : System W} (hinv : Restartable sys.ledger) {r : ℕ}
    (hsynced : sys.synced ≤ r) {config : Config W} {s : RaftLog W}
    (hopen : RaftLog.openLog config (sys.disk r) = .ok s) :
    s.view = versionOf (sys.hist.take r) := by
  have hrec := hinv.accounted.recorded
  have hord := hinv.accounted.ordered
  have hsurvives := hord.survives hrec Dead.passed hsynced
  obtain ⟨s₀, hloaded, rfl⟩ :=
    openLog_loaded hW (Ledger.disk_sorted (a := sys.ledger) hrec.history.sorted r) hopen
  rw [view_bufferRemovableChunks hW, hloaded.viewOf_eq (a := sys.ledger) hsurvives,
    hsurvives.state_eq (a := sys.ledger) hloaded,
    Dead.log_eq (a := sys.ledger) hrec hord hinv.live.agreed.logs hsynced hloaded]
  rfl

/-- Opening shows the version at the end of what has survived once more, or not. -/
theorem versions_reopened (hW : Lawful W) {sys : System W} {survivors : ℕ} {config : Config W}
    {s : RaftLog W} (sentBefore : List ChunkId) (hinv : Restartable sys.ledger)
    (hsynced : sys.synced ≤ survivors)
    (hopen : RaftLog.openLog config (sys.disk survivors) = .ok s) :
    ∃ again, versions (sys.reopened survivors sentBefore s).hist =
      (versions sys.hist).take survivors ++
        List.replicate again (((versions sys.hist).take survivors).getLastD AbstractLog.empty) := by
  obtain ⟨hstate, hlog, hwritten⟩ := opened_eq hW hinv hsynced hopen
  rw [take_versions, getLastD_versions]
  rcases hwritten with hwritten | ⟨checkpoint, hrecord, hwritten⟩
  · exact ⟨0, by simp [System.reopened, hwritten]⟩
  · refine ⟨1, ?_⟩
    simp only [System.reopened, hwritten, List.drop_left, List.map_singleton]
    rw [versions_concat, List.replicate_one]
    congr 2
    rw [versionOf, endState_concat, endLog_concat, hstate, hlog, List.map_append,
      List.map_singleton]
    exact viewOf_append (by simp [hrecord]) _ _

/-- A restart takes the log back to one of its versions. -/
theorem represents_reopened (hW : Lawful W) {sys : System W} {survivors : ℕ} {config : Config W}
    {s : RaftLog W} {d : DurableLog T} (sentBefore : List ChunkId) (h : Represents sys d)
    (hinv : Restartable sys.ledger) (hsynced : sys.synced ≤ survivors)
    (hopen : RaftLog.openLog config (sys.disk survivors) = .ok s) :
    ∃ again, Represents (sys.reopened survivors sentBefore s) (d.back survivors again) := by
  obtain ⟨again, hversions⟩ := versions_reopened hW sentBefore hinv hsynced hopen
  refine ⟨again, ?_, h.durable, fun r hle _ => hle⟩
  rw [hversions, ← h.versions]
  rfl

/-- Each step of a system is a step of the durable log it is, or none. -/
theorem represents_step (hW : Lawful W) {sys sys' : System W} {e : Event W} {d : DurableLog T}
    (hreachable : System.Reachable ConsistentCall sys) (h : Represents sys d)
    (hstep : System.Step ConsistentCall sys e sys') :
    ∃ d', Run DurableLog.Step d (sys.shows e) d' ∧ Represents sys' d' := by
  have hinv := (inOrder_of_reachable hW hreachable).1
  have hlength : d.versions.length = sys.hist.length := by rw [h.versions, length_versions]
  have hreachable' := Reachable.tail hreachable hstep
  cases hstep with
  | call hcall hcompletes =>
      obtain ⟨d', hd', hrepresents⟩ := represents_call hW hreachable h hcall hcompletes
      exact ⟨d', Run.single hd', hrepresents⟩
  | drainCache hdrain =>
      obtain ⟨cache, -, rfl⟩ := drainCacheEvictable_ok hdrain
      exact ⟨d, Run.nil d, h.congr rfl rfl rfl rfl⟩
  | persisted checkpoint => exact ⟨d, Run.nil d, h.congr rfl rfl rfl rfl⟩
  | @work request hrequest =>
      have hle : (sys.handle request).synced ≤ sys.hist.length := by
        have hbound := (inOrder_of_reachable hW hreachable').1.accounted.ordered.synced_le
        cases request <;> exact hbound
      have hworked : System.Step ConsistentCall sys .work (sys.handle request) := .work hrequest
      have hmono : sys.synced ≤ (sys.handle request).synced := (hworked.extends hW id).synced
      refine ⟨{ d with durable := (sys.handle request).synced }, ?_, ?_⟩
      · simp only [System.shows, hrequest]
        exact Run.single (.persist (h.durable ▸ hmono) (hlength ▸ hle))
      · cases request <;> exact ⟨h.versions, rfl, h.handed⟩
  | unlinkFirst n _ => exact ⟨d, Run.nil d, h.congr rfl rfl rfl rfl⟩
  | crash hsynced hlen hopen =>
      obtain ⟨again, hrepresents⟩ := represents_reopened hW _ h hinv hsynced hopen
      exact ⟨_, Run.single (.crash again (h.durable ▸ hsynced) (hlength ▸ hlen)), hrepresents⟩
  | restart hsynced hlen hloaded hhanded hopen =>
      obtain ⟨again, hrepresents⟩ := represents_reopened hW _ h hinv hsynced hopen
      exact ⟨_, Run.single (.reopen again (h.durable ▸ hsynced) (h.handed _ hloaded hhanded)
        (hlength ▸ hlen)), hrepresents⟩

/-! ## The start -/

/-- A durable log that nothing has happened to. -/
structure DurableLog.Initial (d : DurableLog T) : Prop where
  versions : ∀ a ∈ d.versions, a = AbstractLog.empty
  durable : d.durable = 0
  handed : d.handed = 0

theorem represents_simulation (hW : Lawful W) :
    Simulation (System.Reachable (W := W) ConsistentCall)
      (Observed (System.Step ConsistentCall) System.shows) DurableLog.Step Represents where
  invariant := fun hreachable ⟨_, hstep, _⟩ => Reachable.tail hreachable hstep
  step := by
    rintro sys sys' d seen hreachable h ⟨e, hstep, rfl⟩
    exact represents_step hW hreachable h hstep

theorem represents_initial (hW : Lawful W) {sys : System W} (h : sys.Initial) :
    ∃ d, d.Initial ∧ Represents sys d := by
  obtain ⟨hlog, hstate, -⟩ := h.empty hW
  obtain ⟨config, -, hhist, hsynced, -, -, hloaded, -⟩ := h
  refine ⟨⟨versions sys.hist, 0, 0⟩, ⟨?_, rfl, rfl⟩, rfl, hsynced.symm, fun r _ _ => Nat.zero_le r⟩
  intro a ha
  obtain ⟨n, -, rfl⟩ := List.mem_map.mp ha
  have hsnap : ∀ snap ∈ sys.hist.take (n + 1),
      snap.state = RaftLogState.default ∧ snap.log = ∅ := by
    intro snap hsnap
    rw [hhist] at hsnap
    obtain ⟨l, -, rfl⟩ := List.mem_map.mp (List.mem_of_mem_take hsnap)
    exact ⟨hstate, hlog⟩
  have hend : endState (sys.hist.take (n + 1)) = RaftLogState.default ∧
      endLog (sys.hist.take (n + 1)) = ∅ := by
    rcases List.eq_nil_or_concat' (sys.hist.take (n + 1)) with hnil | ⟨front, snap, heq⟩
    · rw [hnil]
      exact ⟨rfl, rfl⟩
    · rw [heq, endState_concat, endLog_concat]
      exact hsnap snap (by simp [heq])
  rw [versionOf, hend.1, hend.2]
  rfl

/-! ## Reads -/

/-- The entries with an index in `[fromIndex, toIndex)`, in order. -/
def AbstractLog.slice (a : AbstractLog T) (fromIndex toIndex : ℕ) :
    List (T.LogId × T.LogPayload) :=
  (List.range' fromIndex (toIndex - fromIndex)).filterMap a.entry

/-- An item of a read is the entry, or the error of a load from the WAL that the cache has not
spared. -/
def ServedBy (s : RaftLog W) (e : T.LogId × T.LogPayload)
    (item : Except (Failure T) (T.LogId × T.LogPayload)) : Prop :=
  item = .ok e ∨ s.stateMachine.payloadCache.get e.1 = none ∧ ∃ error, item = .error (.io error)

/-- The entries of the view are those of the map with their payloads. -/
theorem slice_view {s : RaftLog W} {cache : PayloadCache T}
    (hbacked : Backed (W.view s.wal).written s.stateMachine.log cache) (fromIndex toIndex : ℕ) :
    List.Forall₂ (fun d e => LatestAppend (W.view s.wal).written d e.2 ∧ e.1 = d.logId)
      (s.stateMachine.log.range fromIndex toIndex).values (s.view.slice fromIndex toIndex) := by
  rw [OrderedMap.values_range_nat, AbstractLog.slice]
  induction List.range' fromIndex (toIndex - fromIndex) with
  | nil => exact List.Forall₂.nil
  | cons i indexes ih =>
      cases hget : s.stateMachine.log.get i with
      | none =>
          have hentry : s.view.entry i = none := by simp [RaftLog.view, viewOf, hget]
          rwa [List.filterMap_cons_none hget, List.filterMap_cons_none hentry]
      | some d =>
          obtain ⟨p, hlatest, -⟩ := hbacked.payload hget
          have hentry : s.view.entry i = some (d.logId, p) := by
            simp [RaftLog.view, viewOf, hget, hlatest.latestPayload_eq]
          rw [List.filterMap_cons_some hget, List.filterMap_cons_some hentry]
          exact List.Forall₂.cons ⟨hlatest, rfl⟩ ih

theorem servedBy_of_serves {s : RaftLog W}
    {load : ChunkId → Segment → Except IoError (RaftLogRecord T)} {entries : List (LogData T)}
    {items : List (Except (Failure T) (T.LogId × T.LogPayload))}
    {slice : List (T.LogId × T.LogPayload)}
    (hslice : List.Forall₂
      (fun d e => LatestAppend (W.view s.wal).written d e.2 ∧ e.1 = d.logId) entries slice)
    (h : List.Forall₂ (Serves s load) entries items) : List.Forall₂ (ServedBy s) slice items := by
  induction hslice generalizing items with
  | nil => rw [List.forall₂_nil_left_iff.mp h]; exact List.Forall₂.nil
  | @cons d e entries slice hentry _ ih =>
      obtain ⟨logId, p⟩ := e
      obtain ⟨hlatest, rfl⟩ := hentry
      cases h with
      | cons hserves hrest =>
          refine List.Forall₂.cons ?_ (ih hrest)
          rcases hserves with ⟨p', hlatest', hitem⟩ | ⟨hmiss, error, -, hitem⟩
          · exact Or.inl (by rw [hitem, hlatest'.unique hlatest])
          · exact Or.inr ⟨hmiss, error, hitem⟩

/-- A read serves the entries of the view. -/
theorem read_view (hW : Lawful W) {s : RaftLog W}
    (hbacked : Backed (W.view s.wal).written s.stateMachine.log s.stateMachine.payloadCache)
    {fromIndex toIndex : ℕ} (hle : fromIndex ≤ toIndex) :
    ∃ items stat, s.read fromIndex toIndex = .ok (items, stat) ∧
      List.Forall₂ (ServedBy s) (s.view.slice fromIndex toIndex) items := by
  refine ⟨_, _, if_neg (Nat.not_lt.mpr hle), ?_⟩
  exact servedBy_of_serves (slice_view hbacked fromIndex toIndex)
    (serves_range hW hbacked fromIndex toIndex)

/-! ## The runs -/

/-- The run of a store is a run of a durable log, in which the same calls are accepted and
rejected, and a restart after a crash or a shutdown goes back as far.  A read serves the entries
of the log it has led to. -/
theorem refines_durableLog (hW : Lawful W) {sys₀ sys : System W}
    {seen : List (List (DurableEvent T))} (hinitial : sys₀.Initial)
    (hrun : Run (Observed (System.Step ConsistentCall) System.shows) sys₀ seen sys) :
    ∃ d₀ d : DurableLog T, d₀.Initial ∧ Run DurableLog.Step d₀ seen.flatten d ∧
      d.current = sys.store.view ∧ d.versions = versions sys.hist ∧ d.durable = sys.synced ∧
      ∀ fromIndex toIndex, fromIndex ≤ toIndex →
        ∃ items stat, sys.store.read fromIndex toIndex = .ok (items, stat) ∧
          List.Forall₂ (ServedBy sys.store) (d.current.slice fromIndex toIndex) items := by
  obtain ⟨d₀, hd₀, hrepresents₀⟩ := represents_initial hW hinitial
  obtain ⟨d, hd, hreachable, hrepresents⟩ :=
    (represents_simulation hW).run hrun (Reachable.of_initial hinitial) hrepresents₀
  have hcurrent := hrepresents.current hW hreachable
  refine ⟨d₀, d, hd₀, hd, hcurrent, hrepresents.versions, hrepresents.durable, ?_⟩
  intro fromIndex toIndex hle
  rw [hcurrent]
  exact read_view hW (coherent_of_reachable hW hreachable).backed hle

/-- A tail that is replaced, an entry that does not follow, and a crash that takes the tail
back. -/
def replacedTail : List (Event (memoryWal (exampleTypes true))) :=
  [.call (.append [(⟨1, 0⟩, 5), (⟨1, 1⟩, 6)]), .call (.flush true none), .work, .work,
    .call (.truncate 1), .call (.append [(⟨2, 1⟩, 7), (⟨2, 3⟩, 8)]),
    .crash 5 (chunksOfSize true 3)]

def emptySystem : System (memoryWal (exampleTypes true)) :=
  (System.start (chunksOfSize true 3)).get (by decide)

def replacedRun :=
  (System.performShown ConsistentCall System.shows replacedTail emptySystem).get
    (by decide +kernel)

theorem refines_durableLog_replacedRun :
    ∃ d₀ d : DurableLog (exampleTypes true), d₀.Initial ∧
      Run DurableLog.Step d₀ replacedRun.1.flatten d ∧ d.durable = 4 ∧
      d.current.entry 0 = some (⟨1, 0⟩, 5) ∧ d.current.entry 1 = none := by
  have hrun := System.observed_of_performShown (p := fun _ => True) (r := replacedRun)
    (Option.some_get _).symm fun _ _ => trivial
  obtain ⟨d₀, d, hd₀, hd, hcurrent, -, hdurable, -⟩ := refines_durableLog (memoryWal_lawful _)
    (System.initial_of_start (Option.some_get (by decide)).symm)
    (hrun.mono fun _ _ _ => Observed.mono fun _ _ _ => And.left)
  refine ⟨d₀, d, hd₀, hd, ?_, ?_, ?_⟩
  · rw [hdurable]
    decide +kernel
  · rw [hcurrent]
    decide +kernel
  · rw [hcurrent]
    decide +kernel

end RaftLogStore
