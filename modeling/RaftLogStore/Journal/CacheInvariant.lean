import RaftLogStore.Journal.Extension
import RaftLogStore.Journal.Reopening
import RaftLogStore.Model.Simulation

/-!
# Invariants of the cache

An invariant of the cache has a rule: it holds of a new cache, and is kept by everything that
happens to a cache (`CacheRule`).  An entry that is put in may have to be admitted; `admits` says
which are.  The entries come from the calls, and from the replays of the restarts.

So an invariant with a rule holds in every run in which both put in only admitted entries
(`cache_invariant`).
-/

namespace RaftLogStore

open RaftLog

variable {T : Types} {W : ChunkedWal T}

structure CacheRule (admits : PayloadCache T → T.LogId → T.LogPayload → Prop)
    (I : PayloadCache T → Prop) : Prop where
  new (maxItems capacity : ℕ) : I (PayloadCache.new maxItems capacity)
  setLastEvictable {c : PayloadCache T} (logId : Option T.LogId) :
    I c → I (c.setLastEvictable logId)
  clear {c : PayloadCache T} : I c → I c.clear
  dropped {c c' : PayloadCache T} {front back : List (T.LogId × T.LogPayload)} :
    PayloadCache.Dropped c c' front back → I c → I c'
  insert {c c' : PayloadCache T} {logId : T.LogId} {payload : T.LogPayload} :
    I c → admits c logId payload → c.insert logId payload = .ok c' → I c'

variable {admits : PayloadCache T → T.LogId → T.LogPayload → Prop} {I : PayloadCache T → Prop}

/-! ## What puts entries in -/

/-- An append is one of an admitted entry. -/
def AdmitsRecord (admits : PayloadCache T → T.LogId → T.LogPayload → Prop) (c : PayloadCache T) :
    RaftLogRecord T → Prop
  | .action (.append logId payload) => admits c logId payload
  | _ => True

/-- A replay that puts only admitted entries into the cache. -/
inductive AdmittedReplay (admits : PayloadCache T → T.LogId → T.LogPayload → Prop)
    (start : RaftLogStateMachine T) : List (Located T) → RaftLogStateMachine T → Prop
  | nil : AdmittedReplay admits start [] start
  | record {sm sm' : RaftLogStateMachine T} {records : List (Located T)} {l : Located T} :
      AdmittedReplay admits start records sm →
      AdmitsRecord admits sm.payloadCache l.record →
      (RaftLogStateMachine.apply l.record l.chunkId l.segment).run sm = .ok () sm' →
      AdmittedReplay admits start (records ++ [l]) sm'
  | persisted {sm : RaftLogStateMachine T} {records : List (Located T)}
      (checkpoint : Option (RaftLogState T)) :
      AdmittedReplay admits start records sm →
      AdmittedReplay admits start records { sm with
        payloadCache := RaftLogStateMachine.onChunkPersisted checkpoint sm.payloadCache }

/-- If the event is a restart, its replay has put only admitted entries into the cache of the new
store. -/
def AdmitsReopening (admits : PayloadCache T → T.LogId → T.LogPayload → Prop)
    (sys sys' : System W) : Event W → Prop
  | .crash survivors config => AdmittedReplay admits (RaftLogStateMachine.new config.cache)
      (sys.disk survivors) sys'.store.stateMachine
  | .restart survivors config => AdmittedReplay admits (RaftLogStateMachine.new config.cache)
      (sys.disk survivors) sys'.store.stateMachine
  | _ => True

/-- The entries that a call puts into the cache are admitted. -/
def AdmitsCall (admits : PayloadCache T → T.LogId → T.LogPayload → Prop) (s : RaftLog W)
    (op : Op T) : Prop :=
  Guarded (fun j rec => AdmitsRecord admits j.cache rec) op s

/-- A step in which a restart, if it is one, puts only admitted entries into the cache. -/
def AdmittedStep (admits : PayloadCache T → T.LogId → T.LogPayload → Prop)
    (allowed : RaftLog W → Op T → Prop) (sys : System W) (e : Event W) (sys' : System W) : Prop :=
  System.Step allowed sys e sys' ∧ AdmitsReopening admits sys sys' e

theorem Replay.admitted {start sm : RaftLogStateMachine T} {records : List (Located T)}
    (h : Replay start records sm)
    (hadmits : ∀ c, ∀ l ∈ records, AdmitsRecord admits c l.record) :
    AdmittedReplay admits start records sm := by
  induction h with
  | nil => exact AdmittedReplay.nil
  | record _ happly ih =>
      refine AdmittedReplay.record (ih fun c l hl => hadmits c l (by simp [hl])) ?_ happly
      exact hadmits _ _ (by simp)
  | persisted checkpoint _ ih => exact AdmittedReplay.persisted checkpoint (ih hadmits)

/-- Opening a directory replays it. -/
theorem replay_of_openLog (hW : Lawful W) {config : Config W} {disk : List (Located T)}
    {s : RaftLog W} (hsorted : disk.Pairwise fun a b => a.chunkId ≤ b.chunkId)
    (h : RaftLog.openLog config disk = .ok s) :
    Replay (RaftLogStateMachine.new config.cache) disk s.stateMachine := by
  unfold RaftLog.openLog at h
  split at h
  · exact absurd h (by simp)
  · next wal sm hopen =>
    rw [← Except.ok.inj h, stateMachine_bufferRemovableChunks]
    exact (hW.openWal_ok hsorted hopen).replay

/-! ## One record, one replay, one call -/

namespace CacheRule

theorem onChunkPersisted (hrule : CacheRule admits I) {c : PayloadCache T}
    (checkpoint : Option (RaftLogState T)) (hc : I c) :
    I (RaftLogStateMachine.onChunkPersisted checkpoint c) := by
  cases checkpoint with
  | none => exact hc
  | some st => exact hrule.setLastEvictable st.last hc

theorem cacheAfter (hrule : CacheRule admits I) {rec : RaftLogRecord T} {c c' : PayloadCache T}
    (hc : I c) (hadmits : AdmitsRecord admits c rec)
    (h : RaftLogStateMachine.cacheAfter rec c = .ok c') : I c' := by
  rcases rec with ⟨vote | ⟨logId, payload⟩ | logId | (- | keep) | upto⟩ | st
  · exact Except.ok.inj h ▸ hc
  · exact hrule.insert hc hadmits h
  · exact Except.ok.inj h ▸ hc
  · exact Except.ok.inj h ▸ hrule.clear hc
  · obtain ⟨⟨back, hdrop, -⟩, -⟩ := PayloadCache.truncateAfter_ok h
    exact hrule.dropped hdrop hc
  · obtain ⟨⟨front, hdrop, -⟩, -⟩ := PayloadCache.purgeUpto_ok h
    exact hrule.dropped hdrop hc
  · exact Except.ok.inj h ▸ hc

theorem drainEvictable (hrule : CacheRule admits I) {c c' : PayloadCache T} (hc : I c)
    (h : c.drainEvictable = .ok c') : I c' := by
  obtain ⟨⟨front, hdrop, -⟩, -⟩ := PayloadCache.drainEvictable_ok h
  exact hrule.dropped hdrop hc

theorem replay (hrule : CacheRule admits I) {config : CacheConfig} {records : List (Located T)}
    {sm : RaftLogStateMachine T}
    (h : AdmittedReplay admits (RaftLogStateMachine.new config) records sm) :
    I sm.payloadCache := by
  induction h with
  | nil => exact hrule.new _ _
  | record _ hadmits happly ih =>
      exact hrule.cacheAfter ih hadmits (RaftLogStateMachine.apply_eq_ok.mp happly).2.1
  | persisted checkpoint _ ih => exact hrule.onChunkPersisted checkpoint ih

theorem completes (hrule : CacheRule admits I) (hW : Lawful W) {op : Op T} {s s' : RaftLog W}
    (hguarded : AdmitsCall admits s op) (h : Completes op s s')
    (hc : I s.stateMachine.payloadCache) : I s'.stateMachine.payloadCache := by
  refine (completes_steps hW hguarded h).journal_invariant (I := fun j => I j.cache) ?_ hc
  intro j added j' hj hstep
  cases hstep with
  | write hadmits _ _ _ hcache => exact hrule.cacheAfter hj hadmits hcache
  | drainCache hdrain => exact hrule.drainEvictable hj hdrain
  | persisted checkpoint => exact hrule.onChunkPersisted checkpoint hj
  | _ => exact hj

/-! ## Every run -/

theorem step (hrule : CacheRule admits I) (hW : Lawful W) {allowed : RaftLog W → Op T → Prop}
    (hallowed : ∀ s op, allowed s op → AdmitsCall admits s op) {sys sys' : System W} {e : Event W}
    (hc : I sys.store.stateMachine.payloadCache) (h : AdmittedStep admits allowed sys e sys') :
    I sys'.store.stateMachine.payloadCache := by
  obtain ⟨hstep, hreopening⟩ := h
  cases hstep with
  | call hop hcompletes => exact hrule.completes hW (hallowed _ _ hop) hcompletes hc
  | drainCache hdrain =>
      obtain ⟨cache, hcache, rfl⟩ := drainCacheEvictable_ok hdrain
      exact hrule.drainEvictable hc hcache
  | persisted checkpoint => exact hrule.onChunkPersisted checkpoint hc
  | @work request _ => cases request <;> exact hc
  | unlinkFirst n _ => exact hc
  | crash => exact hrule.replay hreopening
  | restart => exact hrule.replay hreopening

end CacheRule

/-- An invariant with a rule holds in every run that puts only admitted entries into the
cache. -/
theorem cache_invariant (hrule : CacheRule admits I) (hW : Lawful W)
    {allowed : RaftLog W → Op T → Prop}
    (hallowed : ∀ s op, allowed s op → AdmitsCall admits s op)
    {sys : System W} (h : Transition.Reachable System.Initial (AdmittedStep admits allowed) sys) :
    System.Reachable allowed sys ∧ I sys.store.stateMachine.payloadCache := by
  refine Transition.Reachable.invariant (I := fun sys : System W =>
    System.Reachable allowed sys ∧ I sys.store.stateMachine.payloadCache) ?_ ?_ h
  · intro sys hinitial
    refine ⟨Transition.Reachable.of_initial hinitial, ?_⟩
    obtain ⟨config, hopen, -⟩ := hinitial
    exact hrule.replay ((replay_of_openLog hW List.Pairwise.nil hopen).admitted (by simp))
  · intro sys e sys' ⟨hreachable, hc⟩ hstep
    exact ⟨hreachable.tail hstep.1, hrule.step hW hallowed hc hstep⟩

/-- A simulation without a restart replays nothing. -/
theorem admitted_of_simulate {allowed : RaftLog W → Op T → Prop}
    [∀ s op, Decidable (allowed s op)] {config : Config W} {events : List (Event W)}
    {sys : System W} (h : System.simulate allowed config events = some sys)
    (hevents : ∀ e ∈ events, ¬ e.Reopens) :
    Transition.Reachable System.Initial (AdmittedStep admits allowed) sys := by
  obtain ⟨sys₀, hstart, hrun⟩ := Option.bind_eq_some_iff.mp h
  refine ⟨sys₀, events, System.initial_of_start hstart, ?_⟩
  refine (System.run_of_performAll hrun).restrict (p := fun e => ¬ e.Reopens) ?_ hevents
  intro sys e sys' he hstep
  refine ⟨hstep, ?_⟩
  cases e with
  | crash survivors config => exact absurd trivial he
  | restart survivors config => exact absurd trivial he
  | _ => trivial

/-! ## Where every entry is admitted -/

section AllAdmitted

variable (hadmits : ∀ c logId payload, admits c logId payload)

include hadmits

theorem admitsRecord_of_forall (c : PayloadCache T) (rec : RaftLogRecord T) :
    AdmitsRecord admits c rec := by
  rcases rec with ⟨vote | ⟨logId, payload⟩ | logId | keep | upto⟩ | st
  · trivial
  · exact hadmits c logId payload
  all_goals trivial

theorem admitsCall_of_forall (s : RaftLog W) (op : Op T) : AdmitsCall admits s op :=
  guarded_of_forall (fun j rec => admitsRecord_of_forall hadmits j.cache rec) op s

theorem System.Reachable.admitted (hW : Lawful W) {allowed allowed' : RaftLog W → Op T → Prop}
    (hsub : ∀ s op, allowed s op → allowed' s op) {sys : System W}
    (h : System.Reachable allowed sys) :
    Transition.Reachable System.Initial (AdmittedStep admits allowed') sys := by
  have hrecord := admitsRecord_of_forall hadmits
  refine (Transition.Reachable.invariant (I := fun sys : System W =>
    System.Reachable allowed sys ∧
      Transition.Reachable System.Initial (AdmittedStep admits allowed') sys) ?_ ?_ h).2
  · exact fun sys hinitial =>
      ⟨Transition.Reachable.of_initial hinitial, Transition.Reachable.of_initial hinitial⟩
  · intro sys e sys' ⟨hreachable, hrun⟩ hstep
    refine ⟨hreachable.tail hstep, hrun.tail ⟨hstep.mono hsub, ?_⟩⟩
    have hsorted (survivors : ℕ) :
        (sys.disk survivors).Pairwise fun a b => a.chunkId ≤ b.chunkId :=
      Ledger.disk_sorted (a := sys.ledger) (hreachable.accounted hW).recorded.history.sorted _
    cases hstep with
    | crash _ _ hopen =>
        exact (replay_of_openLog hW (hsorted _) hopen).admitted fun c l _ => hrecord c l.record
    | restart _ _ _ _ hopen =>
        exact (replay_of_openLog hW (hsorted _) hopen).admitted fun c l _ => hrecord c l.record
    | _ => trivial

/-- An invariant with a rule that admits every entry holds in every reachable system. -/
theorem System.Reachable.cache_invariant (hrule : CacheRule admits I) (hW : Lawful W)
    {allowed : RaftLog W → Op T → Prop} {sys : System W} (h : System.Reachable allowed sys) :
    I sys.store.stateMachine.payloadCache := by
  have hrun := h.admitted hadmits hW (fun _ _ => id)
  exact (RaftLogStore.cache_invariant hrule hW
    (fun s op _ => admitsCall_of_forall hadmits s op) hrun).2

end AllAdmitted

theorem sized_rule :
    CacheRule (fun (_ : PayloadCache T) _ _ => True) (PayloadCache.Sized (T := T)) where
  new _ _ _ := Nat.zero_le _
  setLastEvictable _ h := h
  clear _ := PayloadCache.clear_sized _
  dropped hdrop h := hdrop.sized h
  insert h _ hinsert := by
    obtain ⟨size, front, -, -, hkeep⟩ := PayloadCache.insert_ok hinsert
    exact hkeep h

/-- A build with overflow checks counts at least what its cache holds.  No subtraction from the
size panics, so only the addition in `insert` can. -/
theorem System.Reachable.cache_sized (hW : Lawful W) {allowed : RaftLog W → Op T → Prop}
    {sys : System W} (h : System.Reachable allowed sys) :
    sys.store.stateMachine.payloadCache.Sized :=
  h.cache_invariant (fun _ _ _ => trivial) sized_rule hW

end RaftLogStore
