import Mathlib.Algebra.Order.BigOperators.Group.List
import Mathlib.Algebra.Order.Group.Nat
import RaftLogStore.Journal.CacheInvariant
import RaftLogStore.Model.Simulation

/-!
# The size of the cache is counted

`size` is counted apart from the cache: `insert` adds to it, and everything that takes an entry
out subtracts from it.  `insert` adds the new payload without subtracting one that it replaces,
so the count is right as long as no log id is put into the cache a second time.

That a log id is in the cache already takes a state replacement.  A purge leaves what the worker
has not persisted in the cache, and after it an `update_state` may take `last` back, so that the
same log id is accepted again.  A replay of such records goes the same way.

## Strategy
1. `Dropped` keeps how far `size` is ahead of the cache, so eviction, truncation and purge keep the
   count.
2. An insertion moves it ahead by what it replaces (`insert_counted_iff`).
3. So the count is an invariant of the cache that admits only fresh entries (`counted_rule`).
-/

namespace RaftLogStore

open RaftLog

variable {T : Types} {W : ChunkedWal T}

/-- `size` is what the payloads in the cache add up to. -/
def PayloadCache.Counted (c : PayloadCache T) : Prop := c.size = c.cache.total T.payloadSize

instance (c : PayloadCache T) : Decidable c.Counted := inferInstanceAs (Decidable (_ = _))

/-- `size` is right, and no operation that takes entries out of the cache subtracts more than
it. -/
structure SizeAccounted (c : PayloadCache T) : Prop where
  counted : c.Counted
  covers : ∀ taken : List (T.LogId × T.LogPayload), taken.Sublist c.cache.entries →
    (taken.map fun e => T.payloadSize e.2).sum ≤ c.size
  drain : ∀ failure, c.drainEvictable ≠ .error failure
  truncate : ∀ key failure, c.truncateAfter key ≠ .error failure
  purge : ∀ key failure, c.purgeUpto key ≠ .error failure

/-- What is put into the cache replaces nothing that has been counted, and the sum fits a
`usize`. -/
structure FreshEntry (c : PayloadCache T) (logId : T.LogId) (payload : T.LogPayload) : Prop where
  new : ∀ p ∈ c.get logId, T.payloadSize p = 0
  fits : c.cache.total T.payloadSize + T.payloadSize payload ≤ u64Max

instance (c : PayloadCache T) (logId : T.LogId) (payload : T.LogPayload) :
    Decidable (FreshEntry c logId payload) :=
  decidable_of_iff ((∀ p ∈ c.get logId, T.payloadSize p = 0) ∧
    c.cache.total T.payloadSize + T.payloadSize payload ≤ u64Max)
    ⟨fun ⟨hnew, hfits⟩ => ⟨hnew, hfits⟩, fun h => ⟨h.new, h.fits⟩⟩

/-! ## One record -/

variable {c c' : PayloadCache T}

theorem counted_iff_ahead : c.Counted ↔ c.Ahead 0 := Iff.rfl

/-- An insertion that fits keeps the count exactly if it replaces nothing that has been
counted. -/
theorem insert_counted_iff (hcounted : c.Counted) {logId : T.LogId} {payload : T.LogPayload}
    (hfits : c.cache.total T.payloadSize + T.payloadSize payload ≤ u64Max)
    (h : c.insert logId payload = .ok c') :
    c'.Counted ↔ ∀ p ∈ c.get logId, T.payloadSize p = 0 := by
  have hahead := PayloadCache.insert_ahead h (counted_iff_ahead.mp hcounted) (hcounted ▸ hfits)
  cases hget : c.get logId with
  | none =>
      rw [hget] at hahead
      exact iff_of_true hahead (by simp)
  | some p =>
      simp only [hget, Option.map_some, Option.getD_some, Nat.zero_add, PayloadCache.Ahead]
        at hahead
      simp only [PayloadCache.Counted, hahead, Option.mem_def, Option.some.injEq, forall_eq']
      omega

/-- The count is kept, if no log id is put into the cache a second time. -/
theorem counted_rule : CacheRule (FreshEntry (T := T)) PayloadCache.Counted where
  new _ _ := rfl
  setLastEvictable _ h := h
  clear _ := rfl
  dropped hdrop h := hdrop.ahead 0 h
  insert h hfresh hinsert := (insert_counted_iff h hfresh.fits hinsert).mpr hfresh.new

theorem PayloadCache.Counted.sizeAccounted (hcounted : c.Counted) : SizeAccounted c := by
  have hsized : c.Sized := fun _ => hcounted.ge
  refine ⟨hcounted, fun taken htaken => ?_, ?_, ?_, ?_⟩
  · calc (taken.map fun e => T.payloadSize e.2).sum
        ≤ (c.cache.entries.map fun e => T.payloadSize e.2).sum :=
          (htaken.map fun e => T.payloadSize e.2).sum_le_sum fun _ _ => Nat.zero_le _
      _ = c.cache.total T.payloadSize := by
          simp only [OrderedMap.total, OrderedMap.values, List.map_map, Function.comp_def]
      _ = c.size := hcounted.symm
  · exact fun failure => PayloadCache.drainEvictableLoop_ne_error hsized
  · exact fun key failure => PayloadCache.truncateAfterLoop_ne_error hsized
  · exact fun key failure => PayloadCache.purgeUptoLoop_ne_error hsized

/-! ## Calls -/

/-- Each entry that is accepted after those before it is a fresh one. -/
def EntriesFresh : RaftLogState T → PayloadCache T → List (T.LogId × T.LogPayload) → Prop
  | _, _, [] => True
  | st, c, (logId, payload) :: entries =>
      st.checkAppend logId = .ok () → FreshEntry c logId payload ∧
        ∀ c', c.insert logId payload = .ok c' →
          EntriesFresh { st with last := some logId } c' entries

/-- A call that appends only fresh entries. -/
def FreshAppends (s : RaftLog W) : Op T → Prop
  | .append entries => EntriesFresh s.logState s.stateMachine.payloadCache entries
  | _ => True

/-- A step of a system that puts only fresh entries into the cache.  The calls are any calls. -/
def FreshStep : System W → Event W → System W → Prop := AdmittedStep FreshEntry FreshAppends

instance EntriesFresh.decidable : (entries : List (T.LogId × T.LogPayload)) →
    (st : RaftLogState T) → (c : PayloadCache T) → Decidable (EntriesFresh st c entries)
  | [], _, _ => isTrue trivial
  | (logId, payload) :: entries, st, c =>
      have : Decidable (∀ c', c.insert logId payload = .ok c' →
          EntriesFresh { st with last := some logId } c' entries) :=
        match h : c.insert logId payload with
        | .ok c₁ =>
            have := EntriesFresh.decidable entries { st with last := some logId } c₁
            decidable_of_iff (EntriesFresh { st with last := some logId } c₁ entries) (by simp)
        | .error _ => isTrue (by simp)
      inferInstanceAs (Decidable (_ → _ ∧ _))

instance (s : RaftLog W) : (op : Op T) → Decidable (FreshAppends s op)
  | .append entries => EntriesFresh.decidable entries s.logState s.stateMachine.payloadCache
  | .saveVote _ | .saveUserData _ | .truncate _ | .purge _ | .commit _ | .updateState _
  | .flush _ _ => isTrue trivial

theorem EntriesFresh.guarded {entries : List (T.LogId × T.LogPayload)} {s : RaftLog W}
    (h : EntriesFresh s.logState s.stateMachine.payloadCache entries) :
    AppendGuarded (fun j rec => AdmitsRecord FreshEntry j.cache rec) entries s := by
  induction entries generalizing s with
  | nil => trivial
  | cons entry entries ih =>
      obtain ⟨logId, payload⟩ := entry
      refine ⟨fun hcheck => (h hcheck).1, fun segment s₁ hrec => ih ?_⟩
      obtain ⟨wal₁, -, happly⟩ := appendAndApply_applied hrec
      rw [logState_appendAndApply hrec]
      exact (h (appendAndApply_ok hrec).1).2 _ (RaftLogStateMachine.apply_eq_ok.mp happly).2.1

theorem FreshAppends.admits {s : RaftLog W} {op : Op T} (h : FreshAppends s op) :
    AdmitsCall FreshEntry s op := by
  constructor
  · intro rec hwrites _
    cases op with
    | append entries => exact hwrites.elim
    | flush sync callback => exact hwrites.elim
    | truncate index => obtain ⟨keep, -, rfl⟩ := hwrites; trivial
    | purge upto => obtain ⟨next, -, -, rfl⟩ := hwrites; trivial
    | updateState state => obtain ⟨-, rfl⟩ := hwrites; trivial
    | _ => obtain rfl := hwrites; trivial
  · rintro entries rfl
    exact EntriesFresh.guarded h

/-! ## Every run -/

/-- In every run in which only fresh entries are put into the cache, by calls and by replays, the
size is what the payloads in the cache add up to, and taking entries out of it does not go below
zero.  There an insertion that fits keeps the count exactly if it replaces nothing that has been
counted. -/
theorem cache_counted (hW : Lawful W) {sys : System W}
    (h : Transition.Reachable System.Initial FreshStep sys) :
    SizeAccounted sys.store.stateMachine.payloadCache ∧
    ∀ logId payload c',
      sys.store.stateMachine.payloadCache.cache.total T.payloadSize + T.payloadSize payload ≤
        u64Max →
      sys.store.stateMachine.payloadCache.insert logId payload = .ok c' →
      (c'.Counted ↔
        ∀ p ∈ sys.store.stateMachine.payloadCache.get logId, T.payloadSize p = 0) := by
  have hcounted := (cache_invariant counted_rule hW (fun s op hop => hop.admits) h).2
  exact ⟨hcounted.sizeAccounted, fun logId payload c' => insert_counted_iff hcounted⟩

/-- A purge removes the entry from the log, but it stays in the cache.  The state is replaced by
an empty one, so the log id is appended again. -/
def appendedTwice : List (Event (memoryWal (exampleTypes true))) :=
  [.call (.append [(⟨1, 0⟩, 5)]), .call (.purge ⟨1, 0⟩),
    .call (.updateState ⟨none, none, none, none, none⟩), .call (.append [(⟨1, 0⟩, 5)])]

def miscountedSystem : System (memoryWal (exampleTypes true)) :=
  (System.simulate AnyCall (chunksOfSize true 10) appendedTwice).get (by decide +kernel)

theorem cache_counted_miscountedSystem :
    System.Reachable AnyCall miscountedSystem ∧
      miscountedSystem.store.stateMachine.payloadCache.cache.total Fin.val = 5 ∧
      miscountedSystem.store.stateMachine.payloadCache.size = 10 ∧
      ¬ miscountedSystem.store.stateMachine.payloadCache.Counted :=
  ⟨System.reachable_get _, by decide +kernel⟩

/-- Here the worker has persisted the entry, so that the purge takes it out of the cache. -/
def appendedAgain : List (Event (memoryWal (exampleTypes true))) :=
  [.call (.append [(⟨1, 0⟩, 5)]), .persisted (some ⟨none, some ⟨1, 0⟩, none, none, none⟩),
    .call (.purge ⟨1, 0⟩), .call (.updateState ⟨none, none, none, none, none⟩),
    .call (.append [(⟨1, 0⟩, 5)])]

def countedSystem : System (memoryWal (exampleTypes true)) :=
  (System.simulate FreshAppends (chunksOfSize true 10) appendedAgain).get (by decide +kernel)

theorem cache_counted_countedSystem :
    SizeAccounted countedSystem.store.stateMachine.payloadCache ∧
      countedSystem.store.stateMachine.payloadCache.size = 5 := by
  have hfresh : Transition.Reachable System.Initial FreshStep countedSystem :=
    admitted_of_simulate (Option.some_get _).symm (by simp [appendedAgain, Event.Reopens])
  exact ⟨(cache_counted (memoryWal_lawful _) hfresh).1, by decide +kernel⟩

end RaftLogStore
