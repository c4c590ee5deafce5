import RaftLogStore.Results.Equivalence
import RaftLogStore.Results.HardState

/-!
# What a flush acknowledges

A `flush` hands everything written so far to the worker.  From then on no shutdown loses it, as
long as the process does not crash (`handed_over_log_kept`).  Once the worker has come to the sync
that a `flush(true, _)` queues, which is when it invokes the callback, no crash does either
(`flushed_log_kept`, `flushed_versions_kept`).

## Strategy
The flush and what comes after it are a run of the durable log, and there a log that is handed
over or durable is `Settled`.
-/

namespace RaftLogStore

open RaftLog Transition

variable {T : Types} {W : ChunkedWal T}

/-- Once the worker has handled the request of a sync flush, what was written before the flush is
synced. -/
theorem covered_by_flush (hW : Lawful W) {allowed : RaftLog W → Op T → Prop}
    {sys flushed synced : System W} {callback : Option T.Callback} {events : List (Event W)}
    (h : System.Reachable allowed sys)
    (hflush : System.Step allowed sys (.call (.flush true callback)) flushed)
    (hrun : Run (System.Step allowed) flushed events synced)
    (hevents : ∀ e ∈ events, ¬ e.Reopens) (hhandled : sys.queue.length < synced.handled) :
    sys.hist <+: synced.hist ∧ sys.hist.length ≤ synced.synced := by
  have hflushed := hflush.extends hW id
  have hlater := System.run_extends hW hrun hevents
  have hreachable : System.Reachable allowed synced := by
    obtain ⟨sys₀, events₀, hinitial, hrun₀⟩ := h
    exact ⟨sys₀, _, hinitial, (Run.snoc hrun₀ hflush).trans hrun⟩
  have hbehind : flushed.queue[sys.queue.length]? =
      some (.write true (W.view sys.store.wal).written.length) := by
    cases hflush with
    | call _ hcompletes => exact flush_request hW hcompletes
  have hrequest : synced.queue[sys.queue.length]? =
      some (.write true (W.view sys.store.wal).written.length) := by
    obtain ⟨rest, hrest⟩ := hlater.queue
    rw [← hrest, List.getElem?_append_left (List.getElem?_eq_some_iff.mp hbehind).1]
    exact hbehind
  have hcovered := (hreachable.accounted hW).ordered.handled_sync _ hhandled _ hrequest
  refine ⟨hflushed.hist.trans hlater.hist, ?_⟩
  have hbase := (h.accounted hW).recorded.base_add
  have hsame : synced.base = sys.base := hlater.base.trans hflushed.base
  calc sys.hist.length = sys.base + (W.view sys.store.wal).written.length := hbase.symm
    _ = synced.base + (W.view sys.store.wal).written.length := by rw [hsame]
    _ ≤ synced.synced := hcovered

/-- After a flush the system is a durable log in which everything is handed over. -/
theorem settled_of_flush (hW : Lawful W) {sys flushed : System W} {sync : Bool}
    {callback : Option T.Callback} (h : System.Reachable ConsistentCall sys)
    (hflush : System.Step ConsistentCall sys (.call (.flush sync callback)) flushed) :
    ∃ d, Represents flushed d ∧ d.Settled (versions sys.hist) False := by
  have hstart : Represents sys ⟨versions sys.hist, sys.synced, 0⟩ :=
    ⟨rfl, rfl, fun r _ _ => Nat.zero_le r⟩
  cases hflush with
  | call hcall hcompletes =>
      obtain ⟨d, hstep, hrepresents⟩ := represents_call hW h hstart hcall hcompletes
      refine ⟨d, hrepresents, ?_⟩
      cases hstep with
      | call hcall hshown =>
          have hquiet : ∀ b, (DurableEvent.call (.flush sync callback) b).Quiet := fun _ => trivial
          obtain ⟨n, rfl⟩ := DurableLog.shown_of_quiet (hquiet _) hcall hshown
          exact ⟨⟨n, rfl⟩, le_max_right _ _, False.elim⟩

/-- A settled log is the one that the store shows. -/
theorem view_of_settled (hW : Lawful W) {sys later : System W} {d : DurableLog T} {crashes : Prop}
    (h : System.Reachable ConsistentCall sys) (hlater : System.Reachable ConsistentCall later)
    (hrepresents : Represents later d) (hsettled : d.Settled (versions sys.hist) crashes) :
    later.store.view = sys.store.view := by
  have hversion := (endsWith_of_reachable hW h).versionOf_eq (coherent_of_reachable hW h)
  rw [← hrepresents.current hW hlater, hsettled.current, getLastD_versions, hversion]

/-- Whatever was written before a flush is there after any number of shutdowns, if nothing is
written meanwhile and the process does not crash. -/
theorem handed_over_log_kept (hW : Lawful W) {sys flushed later : System W} {sync : Bool}
    {callback : Option T.Callback} {seen : List (List (DurableEvent T))}
    (h : System.Reachable ConsistentCall sys)
    (hflush : System.Step ConsistentCall sys (.call (.flush sync callback)) flushed)
    (hrun : Run (Observed (System.Step ConsistentCall) System.shows) flushed seen later)
    (hquiet : ∀ e ∈ seen.flatten, e.Quiet) (hcrash : ∀ e ∈ seen.flatten, ¬ e.IsCrash) :
    later.store.view = sys.store.view := by
  obtain ⟨d, hrepresents, hsettled⟩ := settled_of_flush hW h hflush
  obtain ⟨d', hrun', hreachable, hrepresents'⟩ :=
    (represents_simulation hW).run hrun (Reachable.tail h hflush) hrepresents
  exact view_of_settled hW h hreachable hrepresents' (hsettled.run hrun' hquiet hcrash)

/-- What the store can fall back to is not behind a flush whose sync has completed, whatever is
called afterwards.  Opening returns it unless the WAL fails, if the payloads found in the directory
add up to a `usize`. -/
theorem flushed_versions_kept (hW : Lawful W) {sys flushed synced later : System W}
    {callback : Option T.Callback} {events events' : List (Event W)}
    (h : System.Reachable ConsistentCall sys)
    (hflush : System.Step ConsistentCall sys (.call (.flush true callback)) flushed)
    (hsync : Run (System.Step ConsistentCall) flushed events synced)
    (hevents : ∀ e ∈ events, ¬ e.Reopens) (hhandled : sys.queue.length < synced.handled)
    (hrun : Run (System.Step ConsistentCall) synced events' later) :
    versions sys.hist <+: versions later.hist ∧
      ∀ r, later.synced ≤ r → ∀ config : Config W,
        ((T.overflowChecks = true → appendedTotal (later.disk r) ≤ u64Max) →
          (∃ s, RaftLog.openLog config (later.disk r) = .ok s) ∨
            ∃ e, RaftLog.openLog config (later.disk r) = .error (.io e)) ∧
        ∀ s, RaftLog.openLog config (later.disk r) = .ok s →
          sys.hist.length ≤ r ∧ s.view = versionOf (later.hist.take r) := by
  have hcovered := covered_by_flush hW h hflush hsync hevents hhandled
  obtain ⟨hpre, hsynced⟩ := synced_kept hW hrun hcovered
  have hlater : System.Reachable ConsistentCall later := by
    obtain ⟨sys₀, events₀, hinitial, hrun₀⟩ := h
    exact ⟨sys₀, _, hinitial, ((Run.snoc hrun₀ hflush).trans hsync).trans hrun⟩
  have hinv := (inOrder_of_reachable hW hlater).1
  refine ⟨versions_isPrefix hpre, fun r hr config => ⟨fun hfits => ?_, fun s hopen => ?_⟩⟩
  · exact restart_returns hW hinv hr (replayFits_of_total hfits config.cache)
  · exact ⟨hsynced.trans hr, view_opened hW hinv hr hopen⟩

theorem not_crash_of_open {sys sys' : System W} {seen : List (List (DurableEvent T))}
    (hrun : Run (Observed (System.OpenStep ConsistentCall) System.shows) sys seen sys') :
    ∀ e ∈ seen.flatten, ¬ e.IsCrash := by
  induction hrun with
  | nil => simp
  | snoc _ hlast ih =>
      obtain ⟨event, ⟨-, hopen⟩, rfl⟩ := hlast
      intro e he
      rw [List.flatten_append, List.mem_append] at he
      rcases he with he | he
      · exact ih e he
      · cases event with
        | work =>
            simp only [System.shows] at he
            split at he <;> simp_all [DurableEvent.IsCrash]
        | crash _ _ => exact absurd trivial hopen
        | _ => simp_all [System.shows, DurableEvent.IsCrash]

theorem view_of_flushed (hW : Lawful W) {sys flushed synced later : System W}
    {callback : Option T.Callback} {seen seen' : List (List (DurableEvent T))}
    (h : System.Reachable ConsistentCall sys)
    (hflush : System.Step ConsistentCall sys (.call (.flush true callback)) flushed)
    (hsync : Run (Observed (System.OpenStep ConsistentCall) System.shows) flushed seen synced)
    (hhandled : sys.queue.length < synced.handled)
    (hrun : Run (Observed (System.Step ConsistentCall) System.shows) synced seen' later)
    (hquiet : ∀ e ∈ seen.flatten ++ seen'.flatten, e.Quiet) :
    System.Reachable ConsistentCall later ∧ later.store.view = sys.store.view := by
  obtain ⟨events, hevents⟩ := hsync.of_observed
  obtain ⟨hsteps, hopen⟩ := hevents.of_and
  have hcovered := (covered_by_flush hW h hflush hsteps hopen hhandled).2
  obtain ⟨d, hrepresents, hsettled⟩ := settled_of_flush hW h hflush
  obtain ⟨d₁, hrun₁, hreachable₁, hrepresents₁⟩ := (represents_simulation hW).run
    (hsync.mono fun _ _ _ => Observed.mono fun _ _ _ => And.left) (Reachable.tail h hflush)
    hrepresents
  have hsettled₁ : d₁.Settled (versions sys.hist) False := by
    exact hsettled.run hrun₁ (fun e he => hquiet e (List.mem_append_left _ he))
      (not_crash_of_open hsync)
  have hdurable : d₁.Settled (versions sys.hist) True :=
    ⟨hsettled₁.versions, hsettled₁.kept, fun _ => by
      rwa [length_versions, hrepresents₁.durable]⟩
  obtain ⟨d₂, hrun₂, hreachable₂, hrepresents₂⟩ :=
    (represents_simulation hW).run hrun hreachable₁ hrepresents₁
  refine ⟨hreachable₂, view_of_settled hW h hreachable₂ hrepresents₂
    (hdurable.run hrun₂ ?_ fun _ _ _ => trivial)⟩
  exact fun e he => hquiet e (List.mem_append_right _ he)

/-- Whatever was written before a flush whose sync has completed is there after any number of
crashes and shutdowns, if nothing is written meanwhile.  One more opening finds it again unless the
WAL fails, if the payloads found in the directory add up to a `usize`. -/
theorem flushed_log_kept (hW : Lawful W) {sys flushed synced later : System W}
    {callback : Option T.Callback} {seen seen' : List (List (DurableEvent T))}
    (h : System.Reachable ConsistentCall sys)
    (hflush : System.Step ConsistentCall sys (.call (.flush true callback)) flushed)
    (hsync : Run (Observed (System.OpenStep ConsistentCall) System.shows) flushed seen synced)
    (hhandled : sys.queue.length < synced.handled)
    (hrun : Run (Observed (System.Step ConsistentCall) System.shows) synced seen' later)
    (hquiet : ∀ e ∈ seen.flatten ++ seen'.flatten, e.Quiet) :
    later.store.view = sys.store.view ∧
      ∀ r, later.synced ≤ r → r ≤ later.hist.length → ∀ config : Config W,
        ((T.overflowChecks = true → appendedTotal (later.disk r) ≤ u64Max) →
          (∃ s, RaftLog.openLog config (later.disk r) = .ok s) ∨
            ∃ e, RaftLog.openLog config (later.disk r) = .error (.io e)) ∧
        ∀ s, RaftLog.openLog config (later.disk r) = .ok s → s.view = sys.store.view := by
  obtain ⟨hlater, hview⟩ := view_of_flushed hW h hflush hsync hhandled hrun hquiet
  refine ⟨hview, fun r hr hlen config => ⟨fun hfits => ?_, fun s hopen => ?_⟩⟩
  · exact restart_returns hW (inOrder_of_reachable hW hlater).1 hr
      (replayFits_of_total hfits config.cache)
  · -- opening after a crash is one more step of the run
    have hcrash : System.Step ConsistentCall later (.crash r config) _ :=
      System.Step.crash hr hlen hopen
    have hrun' := Run.snoc hrun ⟨_, hcrash, rfl⟩
    refine (view_of_flushed hW h hflush hsync hhandled hrun' fun e he => ?_).2
    simp only [List.flatten_append, List.flatten_singleton, System.shows, List.mem_append,
      List.mem_singleton] at he
    rcases he with he | he | rfl
    · exact hquiet e (List.mem_append_left _ he)
    · exact hquiet e (List.mem_append_right _ he)
    · trivial

/-! ## An example -/

/-- Two entries and a vote that are not synced yet. -/
def unsyncedSystem : System (memoryWal (exampleTypes true)) :=
  (System.simulate ConsistentCall (chunksOfSize true 3)
    [.call (.append [(⟨1, 0⟩, 5), (⟨1, 1⟩, 6)]), .call (.saveVote ⟨2, 7⟩)]).get (by decide +kernel)

def handedSystem : System (memoryWal (exampleTypes true)) :=
  (System.perform ConsistentCall unsyncedSystem (.call (.flush true none))).get (by decide +kernel)

/-- A rejected vote, and the worker. -/
def syncing : List (Event (memoryWal (exampleTypes true))) :=
  [.work, .call (.saveVote ⟨1, 7⟩), .work]

def syncingRun :=
  (System.performShown ConsistentCall System.shows syncing handedSystem).get (by decide +kernel)

def crashing : List (Event (memoryWal (exampleTypes true))) :=
  [.crash 5 (chunksOfSize true 2), .call (.flush false none), .work, .crash 6 (chunksOfSize true 3)]

def crashingRun :=
  (System.performShown ConsistentCall System.shows crashing syncingRun.2).get (by decide +kernel)

theorem flushed_step : System.Step ConsistentCall unsyncedSystem (.call (.flush true none))
    handedSystem :=
  System.step_of_perform (Option.some_get _).symm

theorem flushed_log_kept_crashingRun :
    crashingRun.2.store.view = unsyncedSystem.store.view ∧ crashingRun.2.hist.length = 7 := by
  have hsync := System.observed_of_performShown (r := syncingRun) (p := fun e => ¬ e.Reopens)
    (Option.some_get _).symm (by simp [syncing, Event.Reopens])
  have hrun := System.observed_of_performShown (r := crashingRun) (p := fun _ => True)
    (Option.some_get _).symm fun _ _ => trivial
  have hkept := flushed_log_kept (memoryWal_lawful _) (System.reachable_get _) flushed_step hsync
    (by decide +kernel) (hrun.mono fun _ _ _ => Observed.mono fun _ _ _ => And.left)
    (by decide +kernel)
  exact ⟨hkept.1, by decide +kernel⟩

/-- A shutdown before the worker has synced anything. -/
def closing : List (Event (memoryWal (exampleTypes true))) :=
  [.restart 5 (chunksOfSize true 2), .drainCache]

def closingRun :=
  (System.performShown ConsistentCall System.shows closing handedSystem).get (by decide +kernel)

theorem handed_over_log_kept_closingRun :
    closingRun.2.store.view = unsyncedSystem.store.view ∧ closingRun.2.synced = 0 := by
  have hrun := System.observed_of_performShown (r := closingRun) (p := fun _ => True)
    (Option.some_get _).symm fun _ _ => trivial
  exact ⟨handed_over_log_kept (memoryWal_lawful _) (System.reachable_get _) flushed_step
    (hrun.mono fun _ _ _ => Observed.mono fun _ _ _ => And.left) (by decide +kernel)
    (by decide +kernel), by decide +kernel⟩

/-- After the sync the vote is replaced and the entries are truncated. -/
def overwriting : List (Event (memoryWal (exampleTypes true))) :=
  [.call (.truncate 0), .call (.saveVote ⟨3, 7⟩)]

def ackedSystem : System (memoryWal (exampleTypes true)) :=
  (System.performAll ConsistentCall syncing handedSystem).get (by decide +kernel)

def overwrittenSystem : System (memoryWal (exampleTypes true)) :=
  (System.performAll ConsistentCall overwriting ackedSystem).get (by decide +kernel)

theorem flushed_versions_kept_overwrittenSystem :
    versions unsyncedSystem.hist <+: versions overwrittenSystem.hist ∧
      overwrittenSystem.store.stateMachine.log.len = 0 := by
  have hsync : Run (System.Step ConsistentCall) handedSystem syncing ackedSystem :=
    System.run_of_performAll (Option.some_get _).symm
  have hrun : Run (System.Step ConsistentCall) ackedSystem overwriting overwrittenSystem :=
    System.run_of_performAll (Option.some_get _).symm
  have hkept := flushed_versions_kept (memoryWal_lawful _) (System.reachable_get _) flushed_step
    hsync (by simp [syncing, Event.Reopens]) (by decide +kernel) hrun
  exact ⟨hkept.1, by decide +kernel⟩

end RaftLogStore
