import RaftLogStore.Results.DurableLog

/-!
# Stores that show the same log do the same

What a call returns and what the store shows after it depend on the log that the store shows, and
on nothing else: not on the WAL underneath and the size of its chunks, not on the limits of the
cache and what it holds, not on the worker, and not on how the store came to show that log
(`views_determine`).

A run between two restarts is a run of the abstract log under the calls alone
(`view_run`), and that one is deterministic.
-/

namespace RaftLogStore

open RaftLog Transition

variable {T : Types} {W W' : ChunkedWal T}

/-- A step of a store that stays open. -/
def System.OpenStep (allowed : RaftLog W → Op T → Prop) (sys : System W) (e : Event W)
    (sys' : System W) : Prop :=
  System.Step allowed sys e sys' ∧ ¬ e.Reopens

/-- The call of a step, and whether it returned. -/
def System.outcome (sys : System W) : Event W → List (Op T × Bool)
  | .call op => [(op, op.isOk sys.store)]
  | _ => []

/-- A step that is not a call leaves the view as it is. -/
theorem view_of_not_call {sys sys' : System W} {e : Event W}
    (h : System.Step ConsistentCall sys e sys') (hreopens : ¬ e.Reopens)
    (hcall : ∀ op, e ≠ .call op) : sys'.store.view = sys.store.view := by
  cases h with
  | call _ _ => exact absurd rfl (hcall _)
  | drainCache hdrain =>
      obtain ⟨cache, -, rfl⟩ := drainCacheEvictable_ok hdrain
      rfl
  | persisted checkpoint => rfl
  | @work request _ => cases request <;> rfl
  | unlinkFirst n _ => rfl
  | crash _ _ _ => exact absurd trivial hreopens
  | restart _ _ _ _ _ => exact absurd trivial hreopens

/-- A call takes the view from its version before to its version after. -/
theorem view_of_call (hW : Lawful W) {sys sys' : System W} {op : Op T}
    (hreachable : System.Reachable ConsistentCall sys)
    (h : System.Step ConsistentCall sys (.call op) sys') :
    sys.store.view.Step (op, op.isOk sys.store) sys'.store.view := by
  have hcoherent := coherent_of_reachable hW (Reachable.tail hreachable h)
  cases h with
  | call hallowed hcompletes =>
      obtain ⟨logs, shown, hrefines⟩ := refines_call hW (coherent_of_reachable hW hreachable)
        hallowed hcompletes (endsWith_of_reachable hW hreachable)
      refine ⟨logs, hrefines.call, ?_⟩
      have hbefore := (endsWith_of_reachable hW hreachable).versionOf_eq
        (coherent_of_reachable hW hreachable)
      rw [← hrefines.stutters.getLastD_eq, ← hrefines.ends.versionOf_eq hcoherent,
        ← getLastD_versions, hrefines.versions, getLastD_append, getLastD_versions, hbefore]

theorem view_simulation (hW : Lawful W) :
    Simulation (System.Reachable (W := W) ConsistentCall)
      (Observed (System.OpenStep ConsistentCall) System.outcome) AbstractLog.Step
      (fun sys a => a = sys.store.view) where
  invariant := fun hreachable ⟨_, hstep, _⟩ => Reachable.tail hreachable hstep.1
  step := by
    rintro sys sys' a seen hreachable rfl ⟨e, ⟨hstep, hreopens⟩, rfl⟩
    refine ⟨sys'.store.view, ?_, rfl⟩
    by_cases hcall : ∀ op, e ≠ .call op
    · have hseen : sys.outcome e = [] := by
        cases e with
        | call op => exact absurd rfl (hcall op)
        | _ => rfl
      rw [hseen, view_of_not_call hstep hreopens hcall]
      exact Run.nil _
    · push Not at hcall
      obtain ⟨op, rfl⟩ := hcall
      exact Run.single (view_of_call hW hreachable hstep)

/-- A run of an open store is a run of the log it shows, under the calls. -/
theorem view_run (hW : Lawful W) {sys sys' : System W} {seen : List (List (Op T × Bool))}
    (hreachable : System.Reachable ConsistentCall sys)
    (hrun : Run (Observed (System.OpenStep ConsistentCall) System.outcome) sys seen sys') :
    Run AbstractLog.Step sys.store.view seen.flatten sys'.store.view ∧
      System.Reachable ConsistentCall sys' := by
  obtain ⟨a, hrun', hreachable', rfl⟩ := (view_simulation hW).run hrun hreachable rfl
  exact ⟨hrun', hreachable'⟩

/-- Items none of which failed are the entries themselves. -/
theorem items_eq_map {s : RaftLog W} {slice : List (T.LogId × T.LogPayload)}
    {items : List (Except (Failure T) (T.LogId × T.LogPayload))}
    (h : List.Forall₂ (ServedBy s) slice items) (hok : ∀ item ∈ items, ∃ pair, item = .ok pair) :
    items = slice.map .ok := by
  induction h with
  | nil => rfl
  | @cons e item slice items hserved _ ih =>
      rw [List.map_cons, ih fun item hitem => hok item (List.mem_cons_of_mem _ hitem)]
      rcases hserved with rfl | ⟨-, error, rfl⟩
      · rfl
      · obtain ⟨pair, hpair⟩ := hok (.error (.io error)) (by simp)
        exact absurd hpair (by simp)

/-- Two stores that show the same log get the same calls, with anything else happening between
them.  They accept and reject the same ones, show the same log afterwards, and reads of a range
that do not fail serve the same entries. -/
theorem views_determine (hW : Lawful W) (hW' : Lawful W') {sys₁ sys₂ : System W}
    {sys₁' sys₂' : System W'} {seen seen' : List (List (Op T × Bool))}
    (hreachable : System.Reachable ConsistentCall sys₁)
    (hreachable' : System.Reachable ConsistentCall sys₁')
    (hview : sys₁.store.view = sys₁'.store.view)
    (hrun : Run (Observed (System.OpenStep ConsistentCall) System.outcome) sys₁ seen sys₂)
    (hrun' : Run (Observed (System.OpenStep ConsistentCall) System.outcome) sys₁' seen' sys₂')
    (hops : seen.flatten.map Prod.fst = seen'.flatten.map Prod.fst) :
    seen.flatten = seen'.flatten ∧ sys₂.store.view = sys₂'.store.view ∧
      ∀ fromIndex toIndex, fromIndex ≤ toIndex → ∃ items stat items' stat',
        sys₂.store.read fromIndex toIndex = .ok (items, stat) ∧
        sys₂'.store.read fromIndex toIndex = .ok (items', stat') ∧
        ((∀ item ∈ items, ∃ pair, item = .ok pair) →
          (∀ item ∈ items', ∃ pair, item = .ok pair) → items = items') := by
  obtain ⟨habstract, hend⟩ := view_run hW hreachable hrun
  obtain ⟨habstract', hend'⟩ := view_run hW' hreachable' hrun'
  rw [← hview] at habstract'
  obtain ⟨hseen, hviews⟩ := AbstractLog.run_deterministic habstract habstract' hops
  refine ⟨hseen, hviews, fun fromIndex toIndex hle => ?_⟩
  obtain ⟨items, stat, hread, hserved⟩ :=
    read_view hW (coherent_of_reachable hW hend).backed hle
  obtain ⟨items', stat', hread', hserved'⟩ :=
    read_view hW' (coherent_of_reachable hW' hend').backed hle
  refine ⟨items, stat, items', stat', hread, hread', fun hok hok' => ?_⟩
  rw [items_eq_map hserved hok, items_eq_map hserved' hok', hviews]

/-! ## An example -/

/-- The call of an event. -/
def Event.op? : Event W → Option (Op T)
  | .call op => some op
  | _ => none

theorem ops_of_performShown {allowed : RaftLog W → Op T → Prop}
    [∀ s op, Decidable (allowed s op)] {sys : System W} {events : List (Event W)}
    {r : List (List (Op T × Bool)) × System W}
    (h : System.performShown allowed System.outcome events sys = some r) :
    r.1.flatten.map Prod.fst = events.filterMap Event.op? := by
  induction events generalizing sys r with
  | nil =>
      obtain rfl := Option.some.inj h
      rfl
  | cons e events ih =>
      obtain ⟨sys₁, -, hrest⟩ := Option.bind_eq_some_iff.mp h
      obtain ⟨rest, hseen, rfl⟩ := Option.map_eq_some_iff.mp hrest
      have htail := ih hseen
      cases e <;> simpa [System.outcome, Event.op?, List.filterMap_cons] using htail

/-- A store without entries shows only its state. -/
theorem view_of_empty {s : RaftLog W} (h : s.stateMachine.log = ∅) :
    s.view = ⟨s.logState, fun _ => none⟩ := by
  refine AbstractLog.ext rfl (funext fun i => ?_)
  simp [RaftLog.view, viewOf, h]

/-- Chunks of two records, and at most one payload in the cache. -/
def smallSystem : System (memoryWal (exampleTypes true)) :=
  (System.start { chunksOfSize true 2 with cache := ⟨some 1, none⟩ }).get (by decide)

def writtenAtOnce : List (Event (memoryWal (exampleTypes true))) :=
  [.call (.append [(⟨1, 0⟩, 5), (⟨1, 1⟩, 6), (⟨1, 4⟩, 7)]), .call (.truncate 1),
    .call (.commit ⟨1, 1⟩)]

/-- The same calls, with the worker and the cache at work. -/
def writtenWithEvictions : List (Event (memoryWal (exampleTypes true))) :=
  [.call (.append [(⟨1, 0⟩, 5), (⟨1, 1⟩, 6), (⟨1, 4⟩, 7)]), .work,
    .persisted (some ⟨none, some ⟨1, 0⟩, none, none, none⟩), .drainCache, .call (.truncate 1),
    .call (.commit ⟨1, 1⟩)]

def largeRun :=
  (System.performShown ConsistentCall System.outcome writtenAtOnce emptySystem).get
    (by decide +kernel)

def smallRun :=
  (System.performShown ConsistentCall System.outcome writtenWithEvictions smallSystem).get
    (by decide +kernel)

theorem views_determine_smallRun :
    largeRun.2.store.view = smallRun.2.store.view ∧ largeRun.2.hist.length = 5 ∧
      smallRun.2.hist.length = 7 := by
  have hfresh {config : Config (memoryWal (exampleTypes true))}
      (h : (System.start config).isSome = true) :
      System.Reachable ConsistentCall ((System.start config).get h) :=
    Reachable.of_initial (System.initial_of_start (Option.some_get h).symm)
  have hview : emptySystem.store.view = smallSystem.store.view := by
    rw [view_of_empty (by decide +kernel), view_of_empty (by decide +kernel)]
    exact congrArg (fun st => AbstractLog.mk st fun _ => none) (by decide +kernel)
  have hlarge := System.observed_of_performShown (r := largeRun) (p := fun e => ¬ e.Reopens)
    (Option.some_get _).symm (by simp [writtenAtOnce, Event.Reopens])
  have hsmall := System.observed_of_performShown (r := smallRun) (p := fun e => ¬ e.Reopens)
    (Option.some_get _).symm (by simp [writtenWithEvictions, Event.Reopens])
  have hops : largeRun.1.flatten.map Prod.fst = smallRun.1.flatten.map Prod.fst := by
    rw [ops_of_performShown (r := largeRun) (Option.some_get _).symm,
      ops_of_performShown (r := smallRun) (Option.some_get _).symm]
    rfl
  exact ⟨(views_determine (memoryWal_lawful _) (memoryWal_lawful _) (hfresh (by decide))
    (hfresh (by decide)) hview hlarge hsmall hops).2.1, by decide +kernel, by decide +kernel⟩

end RaftLogStore
