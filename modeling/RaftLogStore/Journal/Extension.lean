import RaftLogStore.Journal.Reopening

/-!
# What a step leaves in place

Between two restarts the history and the queue only grow, and the positions of the WAL stay
where they are (`Step.extends`).  A restart keeps the history up to the last completed sync
(`Step.synced_isPrefix`).
-/

namespace RaftLogStore

open RaftLog

variable {T : Types} {W : ChunkedWal T} {G : Journal T → RaftLogRecord T → Prop}

/-- The events that open the directory again. -/
def Event.Reopens : Event W → Prop
  | .crash _ _ => True
  | .restart _ _ => True
  | _ => False

theorem Journal.Steps.queue {j j' : Journal T} {snapshots : List (Snapshot T)}
    (h : Journal.Steps G j snapshots j') : j.queue <+: j'.queue := by
  refine h.journal_invariant (I := fun j' => j.queue <+: j'.queue) ?_ (List.prefix_refl _)
  intro j₁ added j₂ hqueue hstep
  obtain ⟨extra, hextra, -⟩ := Ordered.queue_of_step hstep
  exact hqueue.trans ⟨extra, hextra.symm⟩

namespace System

/-- `sys'` comes later than `sys` in the life of one store. -/
structure Extends (sys sys' : System W) : Prop where
  hist : sys.hist <+: sys'.hist
  queue : sys.queue <+: sys'.queue
  base : sys'.base = sys.base
  synced : sys.synced ≤ sys'.synced

/-- A step that leaves the history, the WAL and what is synced alone. -/
theorem Extends.of_eq {sys sys' : System W} (hhist : sys'.hist = sys.hist)
    (hwal : sys'.store.wal = sys.store.wal) (hsynced : sys'.synced = sys.synced) :
    Extends sys sys' := by
  refine ⟨hhist ▸ List.prefix_refl _, ?_, ?_, hsynced.ge⟩
  · simp only [System.queue, hwal]
    exact List.prefix_refl _
  · simp only [System.base, hhist, hwal]

theorem Extends.refl (sys : System W) : Extends sys sys := Extends.of_eq rfl rfl rfl

theorem Extends.trans {sys sys' sys'' : System W} (h : Extends sys sys')
    (h' : Extends sys' sys'') : Extends sys sys'' :=
  ⟨h.hist.trans h'.hist, h.queue.trans h'.queue, h'.base.trans h.base, h.synced.trans h'.synced⟩

variable {allowed : RaftLog W → Op T → Prop}

theorem Step.extends (hW : Lawful W) {sys sys' : System W} {e : Event W}
    (h : Step allowed sys e sys') (he : ¬ e.Reopens) : Extends sys sys' := by
  cases h with
  | @call op s _ hcompletes =>
      have hsteps := completes_steps hW (guarded_true op sys.store) hcompletes
      have hwritten := congrArg List.length hsteps.written
      simp only [journal_written, List.length_append, List.length_map] at hwritten
      refine ⟨List.prefix_append _ _, hsteps.queue, ?_, le_rfl⟩
      simp only [base, List.length_append]
      omega
  | drainCache hdrain =>
      obtain ⟨cache, -, rfl⟩ := drainCacheEvictable_ok hdrain
      exact Extends.of_eq rfl rfl rfl
  | persisted checkpoint => exact Extends.of_eq rfl rfl rfl
  | @work request _ =>
      cases request with
      | write sync upto =>
          refine ⟨List.prefix_refl _, List.prefix_refl _, rfl, ?_⟩
          simp only [handle]
          split_ifs <;> omega
      | removeChunks chunkIds => exact Extends.of_eq rfl rfl rfl
      | appendFile => exact Extends.of_eq rfl rfl rfl
  | unlinkFirst n _ => exact Extends.of_eq rfl rfl rfl
  | crash _ _ _ => exact absurd trivial he
  | restart _ _ _ _ _ => exact absurd trivial he

theorem run_extends (hW : Lawful W) {sys sys' : System W} {events : List (Event W)}
    (h : Transition.Run (Step allowed) sys events sys') (hevents : ∀ e ∈ events, ¬ e.Reopens) :
    Extends sys sys' :=
  h.preserved (I := fun _ => True) (P := Extends sys) (fun _ _ _ _ _ => trivial)
    (fun _ _ _ _ hext he hstep => hext.trans (hstep.extends hW he)) trivial (Extends.refl sys)
    hevents

/-- What is synced is in every later history. -/
theorem Step.synced_isPrefix (hW : Lawful W) {sys sys' : System W} {e : Event W}
    (h : Step allowed sys e sys') : sys.hist.take sys.synced <+: sys'.hist ∧
      sys.synced ≤ sys'.synced := by
  by_cases he : e.Reopens
  · have hreopened : ∀ survivors sentBefore s, sys.synced ≤ survivors →
        sys.hist.take sys.synced <+: (sys.reopened survivors sentBefore s).hist := by
      intro survivors sentBefore s hle
      exact (List.take_prefix_take_left hle).trans (List.prefix_append _ _)
    cases h with
    | crash hsynced _ _ => exact ⟨hreopened _ _ _ hsynced, le_rfl⟩
    | restart hsynced _ _ _ _ => exact ⟨hreopened _ _ _ hsynced, le_rfl⟩
    | _ => exact he.elim
  · have hext := h.extends hW he
    exact ⟨(List.take_prefix _ _).trans hext.hist, hext.synced⟩

end System

end RaftLogStore
