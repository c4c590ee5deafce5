import RaftLogStore.Model.MemoryWal
import RaftLogStore.Model.Simulation
import RaftLogStore.Store.Calls

/-!
# A store whose WAL fails

Any operation of the WAL may fail, because the disk is full for instance.  The call returns the
error, and the store may be used all the same.  `FallibleStep` is a step of such a store.  The laws
of a WAL say nothing of an operation that fails; `FailsInPlace` is what is assumed of it where
that matters.

`boundedWal` is a WAL that fails when its disk is full.
-/

namespace RaftLogStore

open RaftLog Transition

variable {T : Types} {W : ChunkedWal T}

/-- The call `op` on `s` returned, or was rejected, or the WAL has failed, and left the store
as `s'`. -/
def Ends (op : Op T) (s s' : RaftLog W) : Prop :=
  op.exec.run s = .ok () s' ∨ ∃ failure, failure ≠ .panic ∧ op.exec.run s = .error failure s'

/-- One step of a store whose WAL may fail, in which the callers make only the calls that `allowed`
admits. -/
inductive FallibleStep (allowed : RaftLog W → Op T → Prop) :
    RaftLog W → Event W → RaftLog W → Prop
  | call {op : Op T} {s s' : RaftLog W} :
      allowed s op → Ends op s s' → FallibleStep allowed s (.call op) s'
  | drainCache {s s' : RaftLog W} :
      drainCacheEvictable.run s = .ok () s' → FallibleStep allowed s .drainCache s'
  | persisted {s : RaftLog W} (checkpoint : Option (RaftLogState T)) :
      FallibleStep allowed s (.persisted checkpoint) (s.chunkPersisted checkpoint)

/-- A store that has just been opened, on whatever is in its directory. -/
def OpenedStore (s : RaftLog W) : Prop :=
  ∃ (config : Config W) (disk : List (Located T)), RaftLog.openLog config disk = .ok s

/-- An operation of the WAL that fails leaves the closed chunks as they were. -/
structure FailsInPlace (W : ChunkedWal T) : Prop where
  append {rec : RaftLogRecord T} {wal wal' : W.Wal} {e : IoError} :
    (W.append rec).run wal = .error e wal' → (W.view wal').closed = (W.view wal).closed
  tryCloseFullChunk {checkpoint : RaftLogState T} {wal wal' : W.Wal} {e : IoError} :
    (W.tryCloseFullChunk checkpoint).run wal = .error e wal' →
      (W.view wal').closed = (W.view wal).closed
  sendPending {sync : Bool} {callback : Option T.Callback} {wal wal' : W.Wal} {e : IoError} :
    (W.sendPending sync callback).run wal = .error e wal' →
      (W.view wal').closed = (W.view wal).closed
  sendRemoveChunks {chunkIds : List ChunkId} {wal wal' : W.Wal} {e : IoError} :
    (W.sendRemoveChunks chunkIds).run wal = .error e wal' →
      (W.view wal').closed = (W.view wal).closed

/-! ## How a call ends -/

/-- A call without a record leaves the store as it was. -/
theorem unchanged_of_noRecord {op : Op T} {s s' : RaftLog W} (h : NoRecord s op)
    (hends : Ends op s s') : s' = s := by
  have hfails {failure : Failure T} (hrun : op.exec.run s = .error failure s) : s' = s := by
    rcases hends with hok | ⟨failure', -, herror⟩
    · exact absurd (hrun.symm.trans hok) (by simp)
    · exact (EStateM.Result.error.inj (hrun.symm.trans herror)).2.symm
  cases h with
  | truncate _ hrun => exact hfails hrun
  | updateState _ hrun => exact hfails hrun
  | purgeFails _ hrun => exact hfails hrun
  | purged _ _ hrun =>
      rcases hends with hok | ⟨failure, -, herror⟩
      · exact (EStateM.Result.ok.inj (hrun.symm.trans hok)).2.symm
      · exact absurd (hrun.symm.trans herror) (by simp)

/-- A call that writes one record at most leaves the store alone if there is none, and else ends as
its record does. -/
theorem ends_single {op : Op T} {s s' : RaftLog W} (hop : op.IsSingle) (h : Ends op s s') :
    (s' = s ∧ ∀ rec, ¬ op.Writes s rec) ∨ ∃ rec, op.Writes s rec ∧
      ((∃ segment s₁, (appendAndApply rec).run s = .ok segment s₁ ∧ s' = op.finish s₁) ∨
        ∃ failure, failure ≠ .panic ∧ (appendAndApply rec).run s = .error failure s') := by
  by_cases hwrites : ∃ rec, op.Writes s rec
  · obtain ⟨rec, hwrites⟩ := hwrites
    refine Or.inr ⟨rec, hwrites, ?_⟩
    rcases h with hok | ⟨failure, hne, herror⟩
    · exact Or.inl (ok_of_writes hok hwrites)
    · rw [run_exec_of_writes hwrites] at herror
      cases hrec : (appendAndApply rec).run s with
      | ok segment s₁ => simp [hrec] at herror
      | error failure' s₁ =>
          rw [hrec] at herror
          obtain ⟨rfl, rfl⟩ := EStateM.Result.error.inj herror
          exact Or.inr ⟨failure', hne, rfl⟩
  · have hnone : ∀ rec, ¬ op.Writes s rec := fun rec hrec => hwrites ⟨rec, hrec⟩
    exact Or.inl ⟨unchanged_of_noRecord (noRecord_of_single hop hnone) h, hnone⟩

/-- A loop of `append` that fails does so at one of its entries. -/
theorem appendLoop_failed {entries : List (T.LogId × T.LogPayload)} {s s' : RaftLog W}
    {failure : Failure T} (h : (appendLoop entries).run s = .error failure s') :
    ∃ front logId payload rest s₁, entries = front ++ (logId, payload) :: rest ∧
      AppendEnds front s s₁ none ∧
      (appendAndApply (.action (.append logId payload))).run s₁ = .error failure s' := by
  induction entries generalizing s with
  | nil => simp [appendLoop] at h
  | cons entry entries ih =>
      obtain ⟨logId, payload⟩ := entry
      rw [run_appendLoop_cons] at h
      cases hrec : (appendAndApply (.action (.append logId payload))).run s with
      | error failure' s₁ =>
          rw [hrec] at h
          obtain ⟨rfl, rfl⟩ := EStateM.Result.error.inj h
          exact ⟨[], logId, payload, entries, s, rfl, AppendEnds.done s, hrec⟩
      | ok segment s₁ =>
          rw [hrec] at h
          obtain ⟨front, logId', payload', rest, s₂, rfl, hfront, hfailed⟩ := ih h
          exact ⟨(logId, payload) :: front, logId', payload', rest, s₂, rfl,
            AppendEnds.next hrec hfront, hfailed⟩

/-! ## Running it -/

/-- The store that a call leaves. -/
def Op.leaves (op : Op T) (s : RaftLog W) : RaftLog W :=
  match op.exec.run s with
  | .ok _ s' => s'
  | .error _ s' => s'

/-- The call has returned. -/
def Op.returnsOn (op : Op T) (s : RaftLog W) : Bool :=
  match op.exec.run s with
  | .ok _ _ => true
  | .error _ _ => false

theorem run_of_returnsOn {op : Op T} {s : RaftLog W} (h : op.returnsOn s = true) :
    op.exec.run s = .ok () (op.leaves s) := by
  unfold Op.returnsOn at h
  unfold Op.leaves
  cases hrun : op.exec.run s with
  | ok _ s' => rfl
  | error failure s' => simp [hrun] at h

/-- The call has ended with an error of the WAL. -/
def Op.failsOn (op : Op T) (s : RaftLog W) : Bool :=
  match op.exec.run s with
  | .error (.io _) _ => true
  | _ => false

theorem ends_of_failsOn {op : Op T} {s : RaftLog W} (h : op.failsOn s = true) :
    Ends op s (op.leaves s) := by
  unfold Op.failsOn at h
  unfold Op.leaves Ends
  cases hrun : op.exec.run s with
  | ok _ s' => exact Or.inl rfl
  | error failure s' =>
      refine Or.inr ⟨failure, ?_, rfl⟩
      rintro rfl
      simp [hrun] at h

/-- Calls one after the other, each of which is allowed and does not panic. -/
def callAll (allowed : RaftLog W → Op T → Prop) [∀ s op, Decidable (allowed s op)] :
    List (Op T) → RaftLog W → Option (RaftLog W)
  | [], s => some s
  | op :: ops, s =>
      if allowed s op then
        match op.exec.run s with
        | .ok _ s' => callAll allowed ops s'
        | .error .panic _ => none
        | .error _ s' => callAll allowed ops s'
      else none

theorem run_of_callAll {allowed : RaftLog W → Op T → Prop} [∀ s op, Decidable (allowed s op)]
    {ops : List (Op T)} {s s' : RaftLog W} (h : callAll allowed ops s = some s') :
    Run (FallibleStep allowed) s (ops.map Event.call) s' := by
  induction ops generalizing s with
  | nil => exact Option.some.inj h ▸ Run.nil s
  | cons op ops ih =>
      simp only [callAll] at h
      split_ifs at h with hallowed
      have hfirst {s₁ : RaftLog W} (hends : Ends op s s₁)
          (hrest : callAll allowed ops s₁ = some s') :
          Run (FallibleStep allowed) s ((op :: ops).map Event.call) s' :=
        (Run.single (FallibleStep.call hallowed hends)).trans (ih hrest)
      cases hrun : op.exec.run s with
      | ok _ s₁ =>
          rw [hrun] at h
          exact hfirst (Or.inl hrun) h
      | error failure s₁ =>
          rw [hrun] at h
          cases failure with
          | panic => simp at h -- `callAll` stops here
          | state e => exact hfirst (Or.inr ⟨_, by simp, hrun⟩) h
          | io e => exact hfirst (Or.inr ⟨_, by simp, hrun⟩) h

/-! ## A disk that gets full -/

/-- The same on a disk with room for `n` records. -/
def MemoryWal.onDisk {α : Type} (n : ℕ) (x : EStateM IoError (MemoryWal T) α) :
    EStateM IoError (MemoryWal T) α := fun wal =>
  match x.run wal with
  | .ok a wal' =>
      if wal'.written.length ≤ n then .ok a wal'
      else .error (.other "no space left on device") wal
  | .error e wal' => .error e wal'

theorem MemoryWal.run_onDisk {α : Type} (n : ℕ) (x : EStateM IoError (MemoryWal T) α)
    (wal : MemoryWal T) : (onDisk n x).run wal =
      match x.run wal with
      | .ok a wal' =>
          if wal'.written.length ≤ n then .ok a wal'
          else .error (.other "no space left on device") wal
      | .error e wal' => .error e wal' := rfl

theorem MemoryWal.ok_of_onDisk {α : Type} {n : ℕ} {x : EStateM IoError (MemoryWal T) α}
    {wal wal' : MemoryWal T} {a : α} (h : (onDisk n x).run wal = .ok a wal') :
    x.run wal = .ok a wal' := by
  rw [run_onDisk] at h
  cases hx : x.run wal with
  | error e wal₁ => simp [hx] at h
  | ok b wal₁ =>
      simp only [hx] at h
      split_ifs at h
      exact h

/-- An operation that does not fail but for the room takes nothing. -/
theorem MemoryWal.eq_of_onDisk_error {α : Type} {n : ℕ} {x : EStateM IoError (MemoryWal T) α}
    {wal wal' : MemoryWal T} {e : IoError} (hx : ∃ a wal₁, x.run wal = .ok a wal₁)
    (h : (onDisk n x).run wal = .error e wal') : wal' = wal := by
  obtain ⟨a, wal₁, hx⟩ := hx
  rw [run_onDisk, hx] at h
  simp only at h
  split_ifs at h
  exact (EStateM.Result.error.inj h).2.symm

def boundedWal (T : Types) (n : ℕ) : ChunkedWal T :=
  { memoryWal T with
    append := fun rec => MemoryWal.onDisk n (MemoryWal.append rec)
    tryCloseFullChunk := fun checkpoint =>
      MemoryWal.onDisk n (MemoryWal.tryCloseFullChunk checkpoint) }

theorem boundedWal_lawful (T : Types) (n : ℕ) : Lawful (boundedWal T n) where
  append_ok h := (memoryWal_lawful T).append_ok (MemoryWal.ok_of_onDisk h)
  tryCloseFullChunk_false h :=
    (memoryWal_lawful T).tryCloseFullChunk_false (MemoryWal.ok_of_onDisk h)
  tryCloseFullChunk_true h :=
    (memoryWal_lawful T).tryCloseFullChunk_true (MemoryWal.ok_of_onDisk h)
  drainClosedChunksWhile_eq := (memoryWal_lawful T).drainClosedChunksWhile_eq
  sendPending_ok {sync callback wal wal'} h :=
    @Lawful.sendPending_ok T (memoryWal T) (memoryWal_lawful T) sync callback wal wal' h
  sendRemoveChunks_ok := (memoryWal_lawful T).sendRemoveChunks_ok
  loadRecord_ok := (memoryWal_lawful T).loadRecord_ok
  readRecord_ok := (memoryWal_lawful T).readRecord_ok
  openWal_ok hsorted h := by
    obtain ⟨hreplay, hqueue, hwritten, hclosed⟩ := (memoryWal_lawful T).openWal_ok hsorted h
    exact ⟨hreplay, hqueue, hwritten, hclosed⟩
  openWal_error := (memoryWal_lawful T).openWal_error

theorem MemoryWal.append_returns (rec : RaftLogRecord T) (wal : MemoryWal T) :
    ∃ a wal', (append rec).run wal = .ok a wal' := ⟨(), _, rfl⟩

theorem MemoryWal.tryCloseFullChunk_returns (checkpoint : RaftLogState T) (wal : MemoryWal T) :
    ∃ closed wal', (tryCloseFullChunk checkpoint).run wal = .ok closed wal' := by
  by_cases hroom : wal.openRecords < wal.chunkMaxRecords
  · exact ⟨false, wal, if_pos hroom⟩
  · exact ⟨true, wal.rotate checkpoint, if_neg hroom⟩

theorem MemoryWal.send_ne_error (request : MemoryWal T → WorkerRequest) (wal wal' : MemoryWal T)
    (e : IoError) : (send request).run wal ≠ .error e wal' := by
  intro h
  obtain ⟨a, wal₁, hsend⟩ : ∃ a wal₁, (send request).run wal = .ok a wal₁ := ⟨(), _, rfl⟩
  exact absurd (hsend.symm.trans h) (by simp)

theorem boundedWal_failsInPlace (T : Types) (n : ℕ) : FailsInPlace (boundedWal T n) where
  append {rec wal _ _} h := congrArg MemoryWal.closed
    (MemoryWal.eq_of_onDisk_error (MemoryWal.append_returns rec wal) h)
  tryCloseFullChunk {checkpoint wal _ _} h := congrArg MemoryWal.closed
    (MemoryWal.eq_of_onDisk_error (MemoryWal.tryCloseFullChunk_returns checkpoint wal) h)
  sendPending h := absurd h (MemoryWal.send_ne_error _ _ _ _)
  sendRemoveChunks h := absurd h (MemoryWal.send_ne_error _ _ _ _)

end RaftLogStore
