import RaftLogStore.Model.Simulation

/-!
# Iterators over a shared store

`read` returns an iterator that borrows the store.  It holds a range of the log map, and takes one
entry after the other as it is asked for them: it looks into the cache, which others may empty at
any time, and then loads the record from the WAL if it was not there.

Any number of iterators can be in use while the cache is drained and the worker goes on.  A method
that takes `&mut self` waits until they are gone.
-/

namespace RaftLogStore

open RaftLog

variable {T : Types} {W : ChunkedWal T}

/-- An iterator that `read` has returned. -/
structure Reader (T : Types) where
  fromIndex : ℕ
  toIndex : ℕ
  /-- What is left of the range. -/
  rest : List (LogData T)
  /-- The entry that was not in the cache and is being loaded. -/
  missed : Option (LogData T)
  yielded : List (Except (Failure T) (T.LogId × T.LogPayload))

namespace RaftLog

/-- `read`: the iterator before its first item. -/
def openReader (s : RaftLog W) (fromIndex toIndex : ℕ) : Except (Failure T) (Reader T) :=
  if toIndex < fromIndex then .error .panic
  else .ok ⟨fromIndex, toIndex, (s.stateMachine.log.range fromIndex toIndex).values, none, []⟩

/-- The next item is asked for: its entry is taken from the range and looked up in the cache. -/
def lookUp (s : RaftLog W) (r : Reader T) (stat : AccessStat) : Option (Reader T × AccessStat) :=
  match r.missed, r.rest with
  | none, logData :: rest =>
      match s.stateMachine.payloadCache.get logData.logId with
      | some payload => some
          ({ r with rest := rest, yielded := r.yielded ++ [.ok (logData.logId, payload)] },
            { stat with cacheHit := stat.cacheHit + 1 })
      | none => some
          ({ r with rest := rest, missed := some logData },
            { stat with cacheMiss := stat.cacheMiss + 1 })
  | _, _ => none

/-- The record of the missed entry is loaded. -/
def loadMissed (s : RaftLog W) (r : Reader T) : Option (Reader T) :=
  match r.missed with
  | none => none
  | some logData =>
      let item : Except (Failure T) (T.LogId × T.LogPayload) := do
        let record ← fromIo (W.loadRecord s.wal logData.chunkId logData.recordSegment)
        let payload ← recordPayload logData record
        .ok (logData.logId, payload)
      some { r with missed := none, yielded := r.yielded ++ [item] }

/-- Both together, with nothing in between. -/
theorem lookUp_then_loadMissed (s : RaftLog W) {r : Reader T} {logData : LogData T}
    {rest : List (LogData T)} (hmissed : r.missed = none) (hrest : r.rest = logData :: rest)
    (stat : AccessStat) :
    ∃ r' stat', s.lookUp r stat = some (r', stat') ∧ (s.readItem logData stat).2 = stat' ∧
      (s.loadMissed r').getD r' =
        { r with rest := rest, yielded := r.yielded ++ [(s.readItem logData stat).1] } := by
  obtain ⟨fromIndex, toIndex, left, missed, yielded⟩ := r
  obtain rfl : missed = none := hmissed
  obtain rfl : left = logData :: rest := hrest
  cases hcached : s.stateMachine.payloadCache.get logData.logId with
  | some payload =>
      refine ⟨_, _, by simp only [lookUp, hcached]; exact rfl, ?_, ?_⟩
      · simp only [readItem, hcached]
      · simp only [readItem, hcached, loadMissed, Option.getD_none]
  | none =>
      refine ⟨_, _, by simp only [lookUp, hcached]; exact rfl, ?_, ?_⟩
      · simp only [readItem, hcached]
      · simp only [readItem, hcached, loadMissed, Option.getD_some]

end RaftLog

/-- A system whose store is shared.  The counters are shared by all who read. -/
structure Shared (W : ChunkedWal T) where
  system : System W
  stat : AccessStat
  readers : List (Reader T)

inductive SharedEvent (W : ChunkedWal T) where
  | read (fromIndex toIndex : ℕ)
  | lookUp (j : ℕ)
  | loadMissed (j : ℕ)
  /-- An iterator goes out of scope. -/
  | drop (j : ℕ)
  | other (e : Event W)

/-- The events that no iterator outlives. -/
def Event.Exclusive : Event W → Prop
  | .call _ | .crash _ _ | .restart _ _ => True
  | _ => False

instance : (e : Event W) → Decidable e.Exclusive
  | .call _ | .crash _ _ | .restart _ _ => isTrue trivial
  | .drainCache | .persisted _ | .work | .unlinkFirst _ => isFalse id

/-- The counters begin with the store. -/
def AccessStat.after (stat : AccessStat) : Event W → AccessStat
  | .crash _ _ | .restart _ _ => ⟨0, 0⟩
  | _ => stat

namespace Shared

def Initial (c : Shared W) : Prop := c.system.Initial ∧ c.stat = ⟨0, 0⟩ ∧ c.readers = []

inductive Step (allowed : RaftLog W → Op T → Prop) : Shared W → SharedEvent W → Shared W → Prop
  | read {c : Shared W} {fromIndex toIndex : ℕ} {r : Reader T} :
      c.system.store.openReader fromIndex toIndex = .ok r →
      Step allowed c (.read fromIndex toIndex) { c with readers := c.readers ++ [r] }
  | lookUp {c : Shared W} {j : ℕ} {r r' : Reader T} {stat : AccessStat} :
      c.readers[j]? = some r → c.system.store.lookUp r c.stat = some (r', stat) →
      Step allowed c (.lookUp j) { c with stat := stat, readers := c.readers.set j r' }
  | loadMissed {c : Shared W} {j : ℕ} {r r' : Reader T} :
      c.readers[j]? = some r → c.system.store.loadMissed r = some r' →
      Step allowed c (.loadMissed j) { c with readers := c.readers.set j r' }
  | drop {c : Shared W} (j : ℕ) :
      Step allowed c (.drop j) { c with readers := c.readers.eraseIdx j }
  | other {c : Shared W} {e : Event W} {sys : System W} :
      (e.Exclusive → c.readers = []) → System.Step allowed c.system e sys →
      Step allowed c (.other e) { c with system := sys, stat := c.stat.after e }

def Reachable (allowed : RaftLog W → Op T → Prop) : Shared W → Prop :=
  Transition.Reachable Initial (Step allowed)

/-! ## Performing events -/

variable (allowed : RaftLog W → Op T → Prop) [∀ s op, Decidable (allowed s op)]

/-- Let an event happen, if it can. -/
def perform (c : Shared W) : SharedEvent W → Option (Shared W)
  | .read fromIndex toIndex =>
      (c.system.store.openReader fromIndex toIndex).toOption.map fun r =>
        { c with readers := c.readers ++ [r] }
  | .lookUp j =>
      (c.readers[j]?).bind fun r => (c.system.store.lookUp r c.stat).map fun (r', stat) =>
        { c with stat := stat, readers := c.readers.set j r' }
  | .loadMissed j =>
      (c.readers[j]?).bind fun r => (c.system.store.loadMissed r).map fun r' =>
        { c with readers := c.readers.set j r' }
  | .drop j => some { c with readers := c.readers.eraseIdx j }
  | .other e =>
      if e.Exclusive ∧ c.readers.isEmpty = false then none
      else (System.perform allowed c.system e).map fun sys =>
        { c with system := sys, stat := c.stat.after e }

def performAll : List (SharedEvent W) → Shared W → Option (Shared W)
  | [], c => some c
  | e :: events, c => (perform allowed c e).bind (performAll events)

variable {allowed}

theorem step_of_perform {c c' : Shared W} {e : SharedEvent W} (h : perform allowed c e = some c') :
    Step allowed c e c' := by
  cases e with
  | read fromIndex toIndex =>
      obtain ⟨r, hr, rfl⟩ := Option.map_eq_some_iff.mp h
      refine Step.read ?_
      cases hopen : c.system.store.openReader fromIndex toIndex with
      | error failure => simp [hopen, Except.toOption] at hr
      | ok r' => simpa [hopen, Except.toOption] using hr
  | lookUp j =>
      obtain ⟨r, hr, hlook⟩ := Option.bind_eq_some_iff.mp h
      obtain ⟨⟨r', stat⟩, hr', rfl⟩ := Option.map_eq_some_iff.mp hlook
      exact Step.lookUp hr hr'
  | loadMissed j =>
      obtain ⟨r, hr, hload⟩ := Option.bind_eq_some_iff.mp h
      obtain ⟨r', hr', rfl⟩ := Option.map_eq_some_iff.mp hload
      exact Step.loadMissed hr hr'
  | drop j =>
      obtain rfl := Option.some.inj h
      exact Step.drop j
  | other e =>
      simp only [perform] at h
      split_ifs at h with hshared
      obtain ⟨sys, hsys, rfl⟩ := Option.map_eq_some_iff.mp h
      refine Step.other (fun hexclusive => ?_) (System.step_of_perform hsys)
      simpa using fun hne => hshared ⟨hexclusive, hne⟩

theorem run_of_performAll {c c' : Shared W} {events : List (SharedEvent W)}
    (h : performAll allowed events c = some c') :
    Transition.Run (Step allowed) c events c' := by
  induction events generalizing c with
  | nil =>
      obtain rfl := Option.some.inj h
      exact Transition.Run.nil _
  | cons e events ih =>
      obtain ⟨c₁, hstep, hrest⟩ := Option.bind_eq_some_iff.mp h
      exact (Transition.Run.single (step_of_perform hstep)).trans (ih hrest)

end Shared

end RaftLogStore
