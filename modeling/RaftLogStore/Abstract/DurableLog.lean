import Mathlib.Logic.Function.Basic
import Mathlib.Order.MinMax
import RaftLogStore.Lib.Refinement
import RaftLogStore.Model.RaftLog

/-!
# A durable log

What the store is for, without records, chunks, caches and a worker.  An `AbstractLog` is a
state and the entries with their payloads, index by index.  `AbstractLog.Call` says what a call
makes of it, and when it is rejected.

A `DurableLog` remembers the logs it has gone through.  A crash takes it back to one of them, at
or after the durable one; closing it in an orderly way, to one at or after the one that was last
handed over.
-/

namespace RaftLogStore

variable {T : Types}

/-- A log as its users see it. -/
@[ext] structure AbstractLog (T : Types) where
  state : RaftLogState T
  entry : ℕ → Option (T.LogId × T.LogPayload)

namespace AbstractLog

def empty : AbstractLog T := ⟨RaftLogState.default, fun _ => none⟩

/-- `logId` comes right after the last log id.  Any log id may be the first one. -/
structure Follows (a : AbstractLog T) (logId : T.LogId) : Prop where
  above : a.state.last < some logId
  next : ∀ l ∈ a.state.last, T.logIndex logId = T.logIndex l + 1

/-- The log with one more entry at its end. -/
def put (a : AbstractLog T) (logId : T.LogId) (payload : T.LogPayload) : AbstractLog T where
  state := { a.state with last := some logId }
  entry := Function.update a.entry (T.logIndex logId) (some (logId, payload))

/-- `keep` is the log id right before `index`: the one purged last, or else a held one. -/
inductive Before (a : AbstractLog T) : ℕ → Option T.LogId → Prop
  | purged : Before a (T.indexAfter a.state.purged) a.state.purged
  | held {i : ℕ} {logId : T.LogId} {payload : T.LogPayload} :
      i + 1 ≠ T.indexAfter a.state.purged → a.entry i = some (logId, payload) →
      Before a (i + 1) (some logId)

/-- The entries below `index`, of which `keep` is the last. -/
def cut (a : AbstractLog T) (index : ℕ) (keep : Option T.LogId) : AbstractLog T where
  state := { a.state with last := keep }
  entry i := if i < index then a.entry i else none

/-- The entries above the index of `upto`. -/
def purge (a : AbstractLog T) (upto : T.LogId) : AbstractLog T where
  state := { a.state with
    last := max a.state.last (some upto), purged := max a.state.purged (some upto) }
  entry i := if i ≤ T.logIndex upto then none else a.entry i

/-- The entries are those between the `purged` and the `last` of `state`. -/
structure Describes (a : AbstractLog T) (state : RaftLogState T) : Prop where
  first {i : ℕ} {e : T.LogId × T.LogPayload} : a.entry i = some e →
    (∀ j < i, a.entry j = none) → i = T.indexAfter state.purged ∧ state.purged < some e.1
  last {i : ℕ} {e : T.LogId × T.LogPayload} : a.entry i = some e →
    (∀ j, i < j → a.entry j = none) → state.last = some e.1

/-- The log `a` accepts a call other than `append`, and is `b` after it. -/
def Accepts (a : AbstractLog T) : Op T → AbstractLog T → Prop
  | .saveVote vote, b =>
      a.state.vote ≤ some vote ∧ b = { a with state := { a.state with vote := some vote } }
  | .saveUserData userData, b => b = { a with state := { a.state with userData := userData } }
  | .append _, _ => False
  | .truncate index, b =>
      ∃ keep, a.Before index.toNat keep ∧ a.state.committed ≤ keep ∧ b = a.cut index.toNat keep
  | .purge upto, b => b = a.purge upto
  | .commit logId, b =>
      a.state.committed ≤ some logId ∧ some logId ≤ a.state.last ∧
        b = { a with state := { a.state with committed := some logId } }
  | .updateState state, b => a.Describes state ∧ b = { a with state := state }
  | .flush _ _, b => b = a

/-- The entries are put at the end of `a` one after the other, up to the first that does not
follow.  `logs` are the logs this leads to, and `accepted` says whether it goes to the end. -/
inductive Appends :
    AbstractLog T → List (T.LogId × T.LogPayload) → List (AbstractLog T) → Bool → Prop
  | nil (a : AbstractLog T) : Appends a [] [] true
  | put {a : AbstractLog T} {logId : T.LogId} {payload : T.LogPayload}
      {entries : List (T.LogId × T.LogPayload)} {logs : List (AbstractLog T)} {accepted : Bool} :
      a.Follows logId → Appends (a.put logId payload) entries logs accepted →
      Appends a ((logId, payload) :: entries) (a.put logId payload :: logs) accepted
  | stop {a : AbstractLog T} {logId : T.LogId} {payload : T.LogPayload}
      {entries : List (T.LogId × T.LogPayload)} :
      ¬ a.Follows logId → Appends a ((logId, payload) :: entries) [] false

/-- The logs that a call leads to, one after the other, and whether it is accepted. -/
inductive Call (a : AbstractLog T) : Op T → List (AbstractLog T) → Bool → Prop
  | accepted {op : Op T} {b : AbstractLog T} : a.Accepts op b → Call a op [b] true
  | rejected {op : Op T} :
      (∀ entries, op ≠ .append entries) → (∀ b, ¬ a.Accepts op b) → Call a op [] false
  | append {entries : List (T.LogId × T.LogPayload)} {logs : List (AbstractLog T)}
      {accepted : Bool} : Appends a entries logs accepted → Call a (.append entries) logs accepted

/-- The log after a call, and whether it is accepted. -/
def Step (a : AbstractLog T) (call : Op T × Bool) (b : AbstractLog T) : Prop :=
  ∃ logs, a.Call call.1 logs call.2 ∧ b = logs.getLastD a

/-! ## A call has one outcome -/

theorem Before.unique {a : AbstractLog T} {index : ℕ} {keep keep' : Option T.LogId}
    (h : a.Before index keep) (h' : a.Before index keep') : keep = keep' := by
  cases h with
  | purged =>
      generalize hindex : T.indexAfter a.state.purged = index at h'
      cases h' with
      | purged => rfl
      | held hne _ => exact absurd hindex.symm hne
  | held hne hentry =>
      generalize hindex : _ + 1 = index at h'
      cases h' with
      | purged => exact absurd hindex hne
      | held _ hentry' =>
          obtain rfl := Nat.succ.inj hindex
          rw [(Prod.mk.inj (Option.some.inj (hentry.symm.trans hentry'))).1]

theorem Accepts.unique {a b b' : AbstractLog T} {op : Op T} (h : a.Accepts op b)
    (h' : a.Accepts op b') : b = b' := by
  cases op with
  | saveVote vote => exact h.2.trans h'.2.symm
  | saveUserData userData => exact h.trans h'.symm
  | append entries => exact h.elim
  | truncate index =>
      obtain ⟨keep, hbefore, -, rfl⟩ := h
      obtain ⟨keep', hbefore', -, rfl⟩ := h'
      rw [hbefore.unique hbefore']
  | purge upto => exact h.trans h'.symm
  | commit logId => exact h.2.2.trans h'.2.2.symm
  | updateState state => exact h.2.trans h'.2.symm
  | flush sync callback => exact h.trans h'.symm

theorem Appends.unique {a : AbstractLog T} {entries : List (T.LogId × T.LogPayload)}
    {logs logs' : List (AbstractLog T)} {accepted accepted' : Bool}
    (h : a.Appends entries logs accepted) (h' : a.Appends entries logs' accepted') :
    logs = logs' ∧ accepted = accepted' := by
  induction h generalizing logs' with
  | nil a => cases h'; exact ⟨rfl, rfl⟩
  | put hfollows _ ih =>
      cases h' with
      | put _ hrest =>
          obtain ⟨rfl, rfl⟩ := ih hrest
          exact ⟨rfl, rfl⟩
      | stop hstop => exact absurd hfollows hstop
  | stop hstop =>
      cases h' with
      | put hfollows _ => exact absurd hfollows hstop
      | stop _ => exact ⟨rfl, rfl⟩

theorem Call.unique {a : AbstractLog T} {op : Op T} {logs logs' : List (AbstractLog T)}
    {accepted accepted' : Bool} (h : a.Call op logs accepted) (h' : a.Call op logs' accepted') :
    logs = logs' ∧ accepted = accepted' := by
  cases h with
  | accepted haccepts =>
      cases h' with
      | accepted haccepts' => rw [haccepts.unique haccepts']; exact ⟨rfl, rfl⟩
      | rejected _ hrejects => exact absurd haccepts (hrejects _)
      | append _ => exact haccepts.elim
  | rejected hop hrejects =>
      cases h' with
      | accepted haccepts => exact absurd haccepts (hrejects _)
      | rejected _ _ => exact ⟨rfl, rfl⟩
      | append _ => exact absurd rfl (hop _)
  | append happends =>
      cases h' with
      | accepted haccepts => exact haccepts.elim
      | rejected hop _ => exact absurd rfl (hop _)
      | append happends' => exact happends.unique happends'

/-- The calls decide the log they lead to, and which of them are accepted. -/
theorem run_deterministic {a b b' : AbstractLog T} {calls calls' : List (Op T × Bool)}
    (h : Transition.Run Step a calls b) (h' : Transition.Run Step a calls' b')
    (hops : calls.map Prod.fst = calls'.map Prod.fst) : calls = calls' ∧ b = b' := by
  refine h.deterministic ?_ h' hops
  rintro s ⟨op, accepted⟩ ⟨op', accepted'⟩ s₁ s₂ ⟨logs, hcall, rfl⟩ ⟨logs', hcall', rfl⟩ heq
  obtain rfl : op = op' := heq
  obtain ⟨rfl, hsame⟩ := hcall.unique hcall'
  exact ⟨congrArg _ hsame, rfl⟩

end AbstractLog

/-- A log with its past. -/
@[ext] structure DurableLog (T : Types) where
  /-- The logs it has gone through, the oldest first. -/
  versions : List (AbstractLog T)
  /-- A crash keeps at least so many of them. -/
  durable : ℕ
  /-- A shutdown without a crash keeps at least so many of them. -/
  handed : ℕ

/-- What the user of a durable log can see happen. -/
inductive DurableEvent (T : Types) where
  | call (op : Op T) (accepted : Bool)
  | persist (n : ℕ)
  | crash (n : ℕ)
  | reopen (n : ℕ)

/-- No entry and no state is written: a call is a flush, or is rejected before it has done
anything. -/
def DurableEvent.Quiet : DurableEvent T → Prop
  | .call (.flush _ _) _ => True
  | .call (.append _) _ => False
  | .call _ accepted => accepted = false
  | _ => True

def DurableEvent.IsCrash : DurableEvent T → Prop
  | .crash _ => True
  | _ => False

instance : (e : DurableEvent T) → Decidable e.Quiet
  | .call (.flush _ _) _ | .persist _ | .crash _ | .reopen _ => isTrue trivial
  | .call (.append _) _ => isFalse id
  | .call (.saveVote _) accepted | .call (.saveUserData _) accepted
  | .call (.truncate _) accepted | .call (.purge _) accepted | .call (.commit _) accepted
  | .call (.updateState _) accepted => inferInstanceAs (Decidable (accepted = false))

instance : (e : DurableEvent T) → Decidable e.IsCrash
  | .crash _ => isTrue trivial
  | .call _ _ | .persist _ | .reopen _ => isFalse id

namespace DurableLog

def current (d : DurableLog T) : AbstractLog T := d.versions.getLastD AbstractLog.empty

/-- Any flush hands over everything. -/
def handedBy (d : DurableLog T) : Op T → ℕ
  | .flush _ _ => d.versions.length
  | _ => d.handed

/-- Back to the `n`-th version.  Opening it may show that version again. -/
def back (d : DurableLog T) (n again : ℕ) : DurableLog T where
  versions := d.versions.take n ++
    List.replicate again ((d.versions.take n).getLastD AbstractLog.empty)
  durable := d.durable
  handed := n

inductive Step : DurableLog T → DurableEvent T → DurableLog T → Prop
  | call {d : DurableLog T} {op : Op T} {logs shown : List (AbstractLog T)} {accepted : Bool} :
      d.current.Call op logs accepted → Transition.Stutters d.current logs shown →
      Step d (.call op accepted) ⟨d.versions ++ shown, d.durable, d.handedBy op⟩
  | persist {d : DurableLog T} {n : ℕ} :
      d.durable ≤ n → n ≤ d.versions.length → Step d (.persist n) { d with durable := n }
  | crash {d : DurableLog T} {n : ℕ} (again : ℕ) :
      d.durable ≤ n → n ≤ d.versions.length → Step d (.crash n) (d.back n again)
  | reopen {d : DurableLog T} {n : ℕ} (again : ℕ) :
      d.durable ≤ n → d.handed ≤ n → n ≤ d.versions.length → Step d (.reopen n) (d.back n again)

/-! ## What is kept -/

/-- The versions `vs` are kept, and all those after them are the log `a` that they end with.  If
`crashes` may happen, the versions `vs` are durable; otherwise it is enough that they are handed
over. -/
structure Settled (vs : List (AbstractLog T)) (crashes : Prop) (d : DurableLog T) : Prop where
  versions : ∃ n, d.versions = vs ++ List.replicate n (vs.getLastD AbstractLog.empty)
  kept : vs.length ≤ max d.durable d.handed
  durable : crashes → vs.length ≤ d.durable

variable {vs : List (AbstractLog T)} {crashes : Prop} {d d' : DurableLog T}

theorem Settled.current (h : Settled vs crashes d) :
    d.current = vs.getLastD AbstractLog.empty := by
  obtain ⟨n, hversions⟩ := h.versions
  rw [DurableLog.current, hversions, Transition.getLastD_append]
  cases n with
  | zero => rfl
  | succ n => rw [List.replicate_succ', List.getLastD_concat]

theorem Settled.back (h : Settled vs crashes d) {n : ℕ} (hn : vs.length ≤ n) (again : ℕ) :
    Settled vs crashes (d.back n again) := by
  obtain ⟨m, hversions⟩ := h.versions
  refine ⟨⟨min (n - vs.length) m + again, ?_⟩, le_max_of_le_right hn, h.durable⟩
  have htake : d.versions.take n =
      vs ++ List.replicate (min (n - vs.length) m) (vs.getLastD AbstractLog.empty) := by
    rw [hversions, List.take_append, List.take_of_length_le hn, List.take_replicate]
  have hlast : (d.versions.take n).getLastD AbstractLog.empty = vs.getLastD AbstractLog.empty := by
    rw [htake, Transition.getLastD_append]
    cases min (n - vs.length) m with
    | zero => rfl
    | succ k => rw [List.replicate_succ', List.getLastD_concat]
  rw [DurableLog.back, hlast, htake, List.append_assoc, ← List.replicate_add]

/-- What a call that is not to be seen shows. -/
theorem shown_of_quiet {op : Op T} {accepted : Bool}
    (hquiet : (DurableEvent.call op accepted).Quiet) {a : AbstractLog T}
    {logs shown : List (AbstractLog T)} (hcall : a.Call op logs accepted)
    (hshown : Transition.Stutters a logs shown) : ∃ n, shown = List.replicate n a := by
  cases hcall with
  | @accepted _ b haccepts =>
      cases op with
      | flush sync callback =>
          obtain rfl : b = a := haccepts
          exact hshown.eq_replicate
      | append entries => exact hquiet.elim
      | _ => exact absurd hquiet (by simp [DurableEvent.Quiet])
  | rejected _ _ =>
      cases hshown with
      | nil => exact ⟨0, rfl⟩
  | append _ => exact hquiet.elim

theorem Settled.step {e : DurableEvent T} (h : Settled vs crashes d) (hstep : Step d e d')
    (hquiet : e.Quiet) (hcrashes : e.IsCrash → crashes) : Settled vs crashes d' := by
  cases hstep with
  | @call op logs shown accepted hcall hshown =>
      obtain ⟨n, hn⟩ := shown_of_quiet hquiet hcall hshown
      obtain ⟨m, hversions⟩ := h.versions
      rw [h.current] at hn
      refine ⟨⟨m + n, ?_⟩, ?_, h.durable⟩
      · simp only [hversions, hn, List.append_assoc, ← List.replicate_add]
      · have hkept := h.kept
        cases op with
        | flush sync callback =>
            simp only [handedBy, hversions, List.length_append]
            omega
        | _ => exact hkept
  | persist hle _ =>
      have hkept := h.kept
      exact ⟨h.versions, by simp only; omega, fun hc => (h.durable hc).trans hle⟩
  | crash again hle _ => exact h.back ((h.durable (hcrashes trivial)).trans hle) again
  | reopen again hdurable hhanded _ =>
      exact h.back (h.kept.trans (max_le hdurable hhanded)) again

theorem Settled.run {events : List (DurableEvent T)} (h : Settled vs crashes d)
    (hrun : Transition.Run Step d events d') (hquiet : ∀ e ∈ events, e.Quiet)
    (hcrashes : ∀ e ∈ events, e.IsCrash → crashes) : Settled vs crashes d' := by
  induction hrun with
  | nil => exact h
  | @snoc _ _ _ e _ hstep ih =>
      exact (ih (fun e he => hquiet e (by simp [he])) fun e he => hcrashes e (by simp [he])).step
        hstep (hquiet e (by simp)) (hcrashes e (by simp))

end DurableLog

end RaftLogStore
