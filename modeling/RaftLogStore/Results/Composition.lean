import RaftLogStore.Abstract.Composition
import RaftLogStore.Results.Equivalence

/-!
# What several calls do together

A leader that overwrites the tail of a follower and, not having heard of it, does so again, the
installation of a snapshot, and purges in any order.  The calls are those of an open store, and
between them the cache may be drained and the worker may do anything: the log that the store shows
is the same.
-/

namespace RaftLogStore

open RaftLog Transition

variable {T : Types} {W : ChunkedWal T}

theorem Backed.keyed_view {s : RaftLog W}
    (h : Backed (W.view s.wal).written s.stateMachine.log s.stateMachine.payloadCache) :
    s.view.Keyed := by
  intro i e hentry
  obtain ⟨d, hget, hmap⟩ := Option.bind_eq_some_iff.mp hentry
  obtain ⟨p, -, rfl⟩ := Option.map_eq_some_iff.mp hmap
  exact h.key hget

/-- Entries that are appended after an accepted truncate take the place of those from its index
on, and those before it stay. -/
theorem tail_replaced (hW : Lawful W) {sys sys' : System W} {seen : List (List (Op T × Bool))}
    {index : UInt64} {entries : List (T.LogId × T.LogPayload)}
    (h : System.Reachable ConsistentCall sys)
    (hrun : Run (Observed (System.OpenStep ConsistentCall) System.outcome) sys seen sys')
    (hseen : seen.flatten = [(.truncate index, true), (.append entries, true)]) :
    ∃ keep, sys.store.view.Before index.toNat keep ∧ sys.store.logState.committed ≤ keep ∧
      sys'.store.view = sys.store.view.withTail index.toNat keep entries := by
  obtain ⟨hview, -⟩ := view_run hW h hrun
  rw [hseen] at hview
  obtain ⟨a, htruncated, happended⟩ := hview.of_cons
  obtain ⟨keep, hbefore, hcommitted, rfl⟩ := htruncated.accepts (by simp)
  obtain ⟨logs, happends, hlast⟩ := happended.of_single.appends
  refine ⟨keep, hbefore, hcommitted, ?_⟩
  rw [hlast]
  exact AbstractLog.withTail_of_appends (coherent_of_reachable hW h).backed.keyed_view hbefore
    happends

/-- Entries that have taken the place of a tail are sent again, any number of times, by a leader
that lost the answers: none of the calls is rejected, and the log stays as it is. -/
theorem tail_retried (hW : Lawful W) {sys sys₁ sys₂ : System W}
    {seen₁ seen₂ : List (List (Op T × Bool))} {index : UInt64}
    {entries : List (T.LogId × T.LogPayload)} {n : ℕ}
    (h : System.Reachable ConsistentCall sys)
    (hrun₁ : Run (Observed (System.OpenStep ConsistentCall) System.outcome) sys seen₁ sys₁)
    (hseen₁ : seen₁.flatten = [(.truncate index, true), (.append entries, true)])
    (hrun₂ : Run (Observed (System.OpenStep ConsistentCall) System.outcome) sys₁ seen₂ sys₂)
    (hseen₂ : seen₂.flatten.map Prod.fst =
      (List.replicate n [.truncate index, .append entries]).flatten) :
    sys₂.store.view = sys₁.store.view ∧ ∀ call ∈ seen₂.flatten, call.2 = true := by
  obtain ⟨hview₁, hreachable⟩ := view_run hW h hrun₁
  obtain ⟨hview₂, -⟩ := view_run hW hreachable hrun₂
  rw [hseen₁] at hview₁
  obtain ⟨a, htruncated, happended⟩ := hview₁.of_cons
  obtain ⟨keep, hbefore, hcommitted, rfl⟩ := htruncated.accepts (by simp)
  obtain ⟨logs, happends, hlast⟩ := happended.of_single.appends
  have htail : sys₁.store.view.HasTail index entries := by
    rw [hlast]
    exact AbstractLog.HasTail.of_replaced (coherent_of_reachable hW h).backed.keyed_view hbefore
      hcommitted happends
  exact htail.run hview₂ hseen₂

/-- Once everything held is purged, any state is accepted, and the log is that state and no
entries, whatever it was before. -/
theorem snapshot_installed (hW : Lawful W) {sys sys' : System W}
    {seen : List (List (Op T × Bool))} {upto : T.LogId} {state : RaftLogState T}
    {purged installed : Bool} (h : System.Reachable ConsistentCall sys)
    (hrun : Run (Observed (System.OpenStep ConsistentCall) System.outcome) sys seen sys')
    (hseen : seen.flatten = [(.purge upto, purged), (.updateState state, installed)])
    (hcovers : ∀ i e, sys.store.view.entry i = some e → i ≤ T.logIndex upto) :
    purged = true ∧ installed = true ∧ sys'.store.view = ⟨state, fun _ => none⟩ := by
  obtain ⟨hview, -⟩ := view_run hW h hrun
  rw [hseen] at hview
  obtain ⟨a, hpurge, hinstalled⟩ := hview.of_cons
  have hpurged : sys.store.view.Accepts (.purge upto) (sys.store.view.purge upto) := rfl
  obtain ⟨haccepted, rfl⟩ := hpurge.accepted_eq hpurged
  have hempty := AbstractLog.purge_entry_eq_none hcovers
  have hinstall : (sys.store.view.purge upto).Accepts (.updateState state)
      { sys.store.view.purge upto with state := state } :=
    ⟨AbstractLog.Describes.of_forall_none hempty state, rfl⟩
  obtain ⟨haccepted', hlast⟩ := hinstalled.of_single.accepted_eq hinstall
  refine ⟨haccepted, haccepted', ?_⟩
  rw [hlast]
  exact AbstractLog.ext rfl (funext hempty)

/-- Neither the order of purges matters nor whether one is repeated. -/
theorem purges_commute (hW : Lawful W) {sys sys₁ sys₂ : System W}
    {seen₁ seen₂ : List (List (Op T × Bool))} {uptos₁ uptos₂ : List T.LogId}
    (h : System.Reachable ConsistentCall sys)
    (hrun₁ : Run (Observed (System.OpenStep ConsistentCall) System.outcome) sys seen₁ sys₁)
    (hseen₁ : seen₁.flatten.map Prod.fst = uptos₁.map .purge)
    (hrun₂ : Run (Observed (System.OpenStep ConsistentCall) System.outcome) sys seen₂ sys₂)
    (hseen₂ : seen₂.flatten.map Prod.fst = uptos₂.map .purge)
    (hsame : ∀ upto, upto ∈ uptos₁ ↔ upto ∈ uptos₂) :
    sys₁.store.view = sys₂.store.view := by
  obtain ⟨hview₁, -⟩ := view_run hW h hrun₁
  obtain ⟨hview₂, -⟩ := view_run hW h hrun₂
  rw [AbstractLog.run_purges hview₁ hseen₁, AbstractLog.run_purges hview₂ hseen₂]
  exact AbstractLog.purgeAll_congr _ hsame

/-! ## Examples -/

/-- Three entries, of which the first is committed. -/
def followerSystem : System (memoryWal (exampleTypes true)) :=
  (System.simulate ConsistentCall (chunksOfSize true 3)
    [.call (.append [(⟨1, 0⟩, 5), (⟨1, 1⟩, 6), (⟨1, 2⟩, 7)]), .call (.commit ⟨1, 0⟩)]).get
      (by decide +kernel)

theorem followerSystem_reachable : System.Reachable ConsistentCall followerSystem :=
  System.reachable_get _

def overwritingTail : List (Event (memoryWal (exampleTypes true))) :=
  [.call (.truncate 1), .drainCache, .call (.append [(⟨2, 1⟩, 8), (⟨2, 2⟩, 9), (⟨2, 3⟩, 4)])]

def tailRun :=
  (System.performShown ConsistentCall System.outcome overwritingTail followerSystem).get
    (by decide +kernel)

theorem tailRun_run :
    Run (Observed (System.OpenStep ConsistentCall) System.outcome) followerSystem tailRun.1
      tailRun.2 :=
  System.observed_of_performShown (r := tailRun) (p := fun e => ¬ e.Reopens)
    (Option.some_get _).symm (by simp [overwritingTail, Event.Reopens])

theorem tailRun_seen : tailRun.1.flatten = [(.truncate 1, true),
    (.append [(⟨2, 1⟩, 8), (⟨2, 2⟩, 9), (⟨2, 3⟩, 4)], true)] :=
  List.zip_of_prod (ops_of_performShown (r := tailRun) (Option.some_get _).symm)
    (show tailRun.1.flatten.map Prod.snd = [true, true] by decide +kernel)

theorem tail_replaced_tailRun :
    (∃ keep, tailRun.2.store.view = followerSystem.store.view.withTail 1 keep
      [(⟨2, 1⟩, 8), (⟨2, 2⟩, 9), (⟨2, 3⟩, 4)]) ∧
      tailRun.2.store.view.entry 2 = some (⟨2, 2⟩, 9) := by
  obtain ⟨keep, -, -, hview⟩ :=
    tail_replaced (memoryWal_lawful _) followerSystem_reachable tailRun_run tailRun_seen
  exact ⟨⟨keep, hview⟩, by decide +kernel⟩

/-- The same tail, twice more, between which the worker runs. -/
def retrying : List (Event (memoryWal (exampleTypes true))) :=
  [.call (.truncate 1), .call (.append [(⟨2, 1⟩, 8), (⟨2, 2⟩, 9), (⟨2, 3⟩, 4)]), .work,
    .call (.truncate 1), .drainCache,
    .call (.append [(⟨2, 1⟩, 8), (⟨2, 2⟩, 9), (⟨2, 3⟩, 4)])]

def retriedRun :=
  (System.performShown ConsistentCall System.outcome retrying tailRun.2).get
    (by decide +kernel)

theorem tail_retried_retriedRun :
    retriedRun.2.store.view = tailRun.2.store.view ∧
      ∀ call ∈ retriedRun.1.flatten, call.2 = true := by
  have hrun := System.observed_of_performShown (r := retriedRun) (p := fun e => ¬ e.Reopens)
    (Option.some_get _).symm (by simp [retrying, Event.Reopens])
  have hseen : retriedRun.1.flatten.map Prod.fst = (List.replicate 2
      [.truncate 1, .append [(⟨2, 1⟩, 8), (⟨2, 2⟩, 9), (⟨2, 3⟩, 4)]]).flatten :=
    ops_of_performShown (r := retriedRun) (Option.some_get _).symm
  exact tail_retried (memoryWal_lawful _) followerSystem_reachable tailRun_run tailRun_seen hrun
    hseen

def snapshotState : RaftLogState (exampleTypes true) :=
  ⟨some ⟨3, 3⟩, some ⟨3, 9⟩, some ⟨3, 9⟩, some ⟨3, 8⟩, none⟩

def installing : List (Event (memoryWal (exampleTypes true))) :=
  [.call (.purge ⟨2, 7⟩), .work, .call (.updateState snapshotState)]

def snapshotRun :=
  (System.performShown ConsistentCall System.outcome installing followerSystem).get
    (by decide +kernel)

theorem snapshot_installed_snapshotRun :
    snapshotRun.2.store.view = ⟨snapshotState, fun _ => none⟩ := by
  have hrun := System.observed_of_performShown (r := snapshotRun) (p := fun e => ¬ e.Reopens)
    (Option.some_get _).symm (by simp [installing, Event.Reopens])
  have hseen : snapshotRun.1.flatten =
      [(.purge ⟨2, 7⟩, true), (.updateState snapshotState, true)] :=
    List.zip_of_prod (ops_of_performShown (r := snapshotRun) (Option.some_get _).symm)
      (show snapshotRun.1.flatten.map Prod.snd = [true, true] by decide +kernel)
  have hheld : ∀ e ∈ followerSystem.store.stateMachine.log.entries, e.1 ≤ 7 := by decide +kernel
  refine (snapshot_installed (memoryWal_lawful _) followerSystem_reachable hrun hseen ?_).2.2
  intro i e hentry
  obtain ⟨d, hget, -⟩ := get_of_entry hentry
  exact hheld (i, d) (OrderedMap.get_eq_some_iff.mp hget)

/-- The log ids that are purged. -/
def lowerId : Types.LogId (exampleTypes true) := ⟨1, 0⟩

def upperId : Types.LogId (exampleTypes true) := ⟨1, 1⟩

def purgingTwice : List (Event (memoryWal (exampleTypes true))) :=
  [.call (.purge upperId), .drainCache, .call (.purge lowerId), .call (.purge upperId)]

def purgingInOrder : List (Event (memoryWal (exampleTypes true))) :=
  [.call (.purge lowerId), .call (.purge upperId)]

def twiceRun :=
  (System.performShown ConsistentCall System.outcome purgingTwice followerSystem).get
    (by decide +kernel)

def inOrderRun :=
  (System.performShown ConsistentCall System.outcome purgingInOrder followerSystem).get
    (by decide +kernel)

theorem mem_repeated {α : Type*} (a b x : α) : x ∈ [b, a, b] ↔ x ∈ [a, b] := by
  simp only [List.mem_cons, List.not_mem_nil, or_false]
  tauto

theorem purges_commute_inOrderRun :
    twiceRun.2.store.view = inOrderRun.2.store.view ∧
      twiceRun.2.store.stateMachine.log.len = 1 := by
  have hrun₁ := System.observed_of_performShown (r := twiceRun) (p := fun e => ¬ e.Reopens)
    (Option.some_get _).symm (by simp [purgingTwice, Event.Reopens])
  have hrun₂ := System.observed_of_performShown (r := inOrderRun) (p := fun e => ¬ e.Reopens)
    (Option.some_get _).symm (by simp [purgingInOrder, Event.Reopens])
  have hseen₁ : twiceRun.1.flatten.map Prod.fst = [upperId, lowerId, upperId].map .purge :=
    ops_of_performShown (r := twiceRun) (Option.some_get _).symm
  have hseen₂ : inOrderRun.1.flatten.map Prod.fst = [lowerId, upperId].map .purge :=
    ops_of_performShown (r := inOrderRun) (Option.some_get _).symm
  exact ⟨purges_commute (memoryWal_lawful _) followerSystem_reachable hrun₁ hseen₁ hrun₂ hseen₂
    (mem_repeated _ _), by decide +kernel⟩

end RaftLogStore
