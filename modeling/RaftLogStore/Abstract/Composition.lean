import RaftLogStore.Abstract.DurableLog

/-!
# Calls one after the other

What two or more calls make of a log, whatever the log was: a tail that is cut off and appended
anew, once or many times, a snapshot that takes the place of everything, and purges in any
order.
-/

namespace RaftLogStore

variable {T : Types}

namespace AbstractLog

theorem Step.accepts {a b : AbstractLog T} {op : Op T} (h : a.Step (op, true) b)
    (hop : ∀ entries, op ≠ .append entries) : a.Accepts op b := by
  obtain ⟨logs, hcall, rfl⟩ := h
  generalize haccepted : (op, true).2 = accepted at hcall
  cases hcall with
  | accepted haccepts => exact haccepts
  | rejected _ _ => simp at haccepted
  | append _ => exact absurd rfl (hop _)

theorem Step.appends {a b : AbstractLog T} {entries : List (T.LogId × T.LogPayload)}
    {accepted : Bool} (h : a.Step (.append entries, accepted) b) :
    ∃ logs, a.Appends entries logs accepted ∧ b = logs.getLastD a := by
  obtain ⟨logs, hcall, rfl⟩ := h
  cases hcall with
  | accepted haccepts => exact haccepts.elim
  | rejected hop _ => exact absurd rfl (hop entries)
  | append happends => exact ⟨logs, happends, rfl⟩

/-- A call that some log answers is accepted. -/
theorem Step.accepted_eq {a b b' : AbstractLog T} {op : Op T} {accepted : Bool}
    (h : a.Step (op, accepted) b) (haccepts : a.Accepts op b') : accepted = true ∧ b = b' := by
  obtain ⟨logs, hcall, rfl⟩ := h
  obtain ⟨rfl, haccepted⟩ := hcall.unique (.accepted haccepts)
  exact ⟨haccepted, rfl⟩

/-- The entries are at the indexes of their log ids. -/
def Keyed (a : AbstractLog T) : Prop :=
  ∀ i e, a.entry i = some e → T.logIndex e.1 = i

/-! ## A tail -/

theorem Before.indexAfter_eq {a : AbstractLog T} {index : ℕ} {keep : Option T.LogId}
    (h : a.Before index keep) (hkeyed : a.Keyed) : T.indexAfter keep = index := by
  cases h with
  | purged => rfl
  | @held i logId payload _ hentry =>
      have hindex := hkeyed i (logId, payload) hentry
      simp only at hindex
      simp only [Types.indexAfter, hindex]

/-- Entries that are appended come after the last one, in the order of their indexes. -/
theorem Appends.indexAfter_le {a : AbstractLog T} {entries : List (T.LogId × T.LogPayload)}
    {logs : List (AbstractLog T)} (h : a.Appends entries logs true) :
    ∀ e ∈ entries, T.indexAfter a.state.last ≤ T.logIndex e.1 := by
  generalize haccepted : true = accepted at h
  induction h with
  | nil => simp
  | @put a logId payload entries logs _ hfollows _ ih =>
      have hfirst : T.indexAfter a.state.last ≤ T.logIndex logId := by
        cases hlast : a.state.last with
        | none => exact Nat.zero_le _
        | some l => exact (hfollows.next l hlast).ge
      intro e he
      rcases List.mem_cons.mp he with rfl | he
      · exact hfirst
      · have hlater : T.logIndex logId + 1 ≤ T.logIndex e.1 := ih haccepted e he
        omega
  | stop _ => simp at haccepted

/-- The entry at an index is the one appended there, or else the one that was there before. -/
theorem Appends.entry_eq {a : AbstractLog T} {entries : List (T.LogId × T.LogPayload)}
    {logs : List (AbstractLog T)} (h : a.Appends entries logs true) (i : ℕ) :
    (logs.getLastD a).entry i =
      (entries.find? fun e => T.logIndex e.1 = i).or (a.entry i) := by
  generalize haccepted : true = accepted at h
  induction h with
  | nil => rfl
  | @put a logId payload entries logs _ hfollows hrest ih =>
      rw [List.getLastD_cons, ih haccepted]
      by_cases hi : T.logIndex logId = i
      · -- the entries behind this one have larger indexes
        have hnone : (entries.find? fun e => T.logIndex e.1 = i) = none := by
          refine List.find?_eq_none.mpr fun e he => ?_
          have hrest' : (a.put logId payload).Appends entries logs true := haccepted ▸ hrest
          have hlater : T.logIndex logId + 1 ≤ T.logIndex e.1 := hrest'.indexAfter_le e he
          simp only [decide_eq_true_eq]
          omega
        rw [hnone, List.find?_cons_of_pos (by simpa using hi), ← hi]
        simp [AbstractLog.put]
      · rw [List.find?_cons_of_neg (by simpa using hi)]
        simp [AbstractLog.put, Function.update_of_ne (Ne.symm hi)]
  | stop _ => simp at haccepted

/-- Appending moves `last` to the last one appended. -/
theorem Appends.state_eq {a : AbstractLog T} {entries : List (T.LogId × T.LogPayload)}
    {logs : List (AbstractLog T)} (h : a.Appends entries logs true) :
    (logs.getLastD a).state =
      { a.state with last := (entries.getLast?.map Prod.fst).or a.state.last } := by
  generalize haccepted : true = accepted at h
  induction h with
  | nil => rfl
  | @put a logId payload entries logs _ _ _ ih =>
      rw [List.getLastD_cons, ih haccepted]
      cases hlast : entries.getLast? with
      | none => simp [AbstractLog.put, List.getLast?_cons, hlast]
      | some e => simp [AbstractLog.put, List.getLast?_cons, hlast]
  | stop _ => simp at haccepted

/-- The log with a new tail from `index` on, behind `keep`. -/
def withTail (a : AbstractLog T) (index : ℕ) (keep : Option T.LogId)
    (entries : List (T.LogId × T.LogPayload)) : AbstractLog T where
  state := { a.state with last := (entries.getLast?.map Prod.fst).or keep }
  entry i := if i < index then a.entry i else entries.find? fun e => T.logIndex e.1 = i

/-- A tail that is cut off and appended anew. -/
theorem withTail_of_appends {a : AbstractLog T} {index : ℕ} {keep : Option T.LogId}
    (hkeyed : a.Keyed) (hbefore : a.Before index keep)
    {entries : List (T.LogId × T.LogPayload)} {logs : List (AbstractLog T)}
    (h : (a.cut index keep).Appends entries logs true) :
    logs.getLastD (a.cut index keep) = a.withTail index keep entries := by
  refine AbstractLog.ext ?_ (funext fun i => ?_)
  · rw [h.state_eq]
    rfl
  · rw [h.entry_eq]
    simp only [cut, withTail]
    by_cases hi : i < index
    · have hnone : (entries.find? fun e => T.logIndex e.1 = i) = none := by
        refine List.find?_eq_none.mpr fun e he => ?_
        have hle : T.indexAfter keep ≤ T.logIndex e.1 := h.indexAfter_le e he
        rw [hbefore.indexAfter_eq hkeyed] at hle
        simp only [decide_eq_true_eq]
        omega
      rw [hnone, if_pos hi, Option.none_or]
    · rw [if_neg hi, Option.or_none, if_neg hi]

/-! ## The same tail again -/

theorem cut_withTail (a : AbstractLog T) (index : ℕ) (keep : Option T.LogId)
    (entries : List (T.LogId × T.LogPayload)) :
    (a.withTail index keep entries).cut index keep = a.cut index keep := by
  refine AbstractLog.ext rfl (funext fun i => ?_)
  simp only [cut, withTail]
  split_ifs <;> rfl

theorem Before.withTail {a : AbstractLog T} {index : ℕ} {keep : Option T.LogId}
    (h : a.Before index keep) (entries : List (T.LogId × T.LogPayload)) :
    (a.withTail index keep entries).Before index keep := by
  cases h with
  | purged => exact Before.purged
  | @held i logId payload hne hentry =>
      have hsame : (a.withTail (i + 1) (some logId) entries).entry i = some (logId, payload) := by
        rw [← hentry]
        exact if_pos (Nat.lt_succ_self i)
      exact Before.held hne hsame

/-- The log can be cut at `index` once more, and the entries appended, which leads back to it. -/
def HasTail (b : AbstractLog T) (index : UInt64) (entries : List (T.LogId × T.LogPayload)) :
    Prop :=
  ∃ keep logs, b.Before index.toNat keep ∧ b.state.committed ≤ keep ∧
    (b.cut index.toNat keep).Appends entries logs true ∧
    logs.getLastD (b.cut index.toNat keep) = b

theorem HasTail.of_replaced {a : AbstractLog T} {index : UInt64} {keep : Option T.LogId}
    {entries : List (T.LogId × T.LogPayload)} {logs : List (AbstractLog T)} (hkeyed : a.Keyed)
    (hbefore : a.Before index.toNat keep) (hcommitted : a.state.committed ≤ keep)
    (happends : (a.cut index.toNat keep).Appends entries logs true) :
    (logs.getLastD (a.cut index.toNat keep)).HasTail index entries := by
  have hcut := a.cut_withTail index.toNat keep entries
  rw [withTail_of_appends hkeyed hbefore happends]
  refine ⟨keep, logs, hbefore.withTail entries, hcommitted, hcut ▸ happends, ?_⟩
  rw [hcut, withTail_of_appends hkeyed hbefore happends]

/-- Neither a second truncate nor a second append is rejected, and nothing has changed. -/
theorem HasTail.retried {b c d : AbstractLog T} {index : UInt64}
    {entries : List (T.LogId × T.LogPayload)} (h : b.HasTail index entries)
    {truncated appended : Bool} (htruncate : b.Step (.truncate index, truncated) c)
    (happend : c.Step (.append entries, appended) d) :
    truncated = true ∧ appended = true ∧ d = b := by
  obtain ⟨keep, logs, hbefore, hcommitted, happends, hlast⟩ := h
  have haccepts : b.Accepts (.truncate index) (b.cut index.toNat keep) :=
    ⟨keep, hbefore, hcommitted, rfl⟩
  obtain ⟨htruncated, rfl⟩ := htruncate.accepted_eq haccepts
  obtain ⟨logs', hcall, rfl⟩ := happend
  obtain ⟨rfl, happended⟩ := hcall.unique (.append happends)
  exact ⟨htruncated, happended, hlast⟩

/-- Any number of times. -/
theorem HasTail.run {b b' : AbstractLog T} {index : UInt64}
    {entries : List (T.LogId × T.LogPayload)} (h : b.HasTail index entries) {n : ℕ}
    {calls : List (Op T × Bool)} (hrun : Transition.Run Step b calls b')
    (hcalls : calls.map Prod.fst =
      (List.replicate n [.truncate index, .append entries]).flatten) :
    b' = b ∧ ∀ call ∈ calls, call.2 = true := by
  induction n generalizing calls b' with
  | zero =>
      obtain rfl : calls = [] := by simpa using hcalls
      exact ⟨hrun.eq_of_nil, by simp⟩
  | succ n ih =>
      obtain ⟨⟨op, truncated⟩, calls₁, rfl, rfl, hcalls₁⟩ := List.map_eq_cons_iff.mp hcalls
      obtain ⟨⟨op', appended⟩, rest, rfl, rfl, hrest⟩ := List.map_eq_cons_iff.mp hcalls₁
      obtain ⟨c, htruncate, hrun₁⟩ := hrun.of_cons
      obtain ⟨d, happend, hrun₂⟩ := hrun₁.of_cons
      obtain ⟨rfl, rfl, rfl⟩ := h.retried htruncate happend
      obtain ⟨rfl, haccepted⟩ := ih hrun₂ hrest
      refine ⟨rfl, fun call hcall => ?_⟩
      rcases List.mem_cons.mp hcall with rfl | hcall
      · rfl
      · rcases List.mem_cons.mp hcall with rfl | hcall
        · rfl
        · exact haccepted call hcall

/-! ## A snapshot -/

/-- A log without entries is described by every state. -/
theorem Describes.of_forall_none {a : AbstractLog T} (h : ∀ i, a.entry i = none)
    (state : RaftLogState T) : a.Describes state :=
  ⟨fun hentry => absurd hentry (by simp [h]), fun hentry => absurd hentry (by simp [h])⟩

theorem purge_entry_eq_none {a : AbstractLog T} {upto : T.LogId}
    (hcovers : ∀ i e, a.entry i = some e → i ≤ T.logIndex upto) (i : ℕ) :
    (a.purge upto).entry i = none := by
  simp only [purge]
  cases hentry : a.entry i with
  | none => simp
  | some e => exact if_pos (hcovers i e hentry)

/-! ## Purges -/

/-- The log after several purges. -/
def purgeAll (a : AbstractLog T) (uptos : List T.LogId) : AbstractLog T :=
  uptos.foldl purge a

theorem purgeAll_entry (a : AbstractLog T) (uptos : List T.LogId) (i : ℕ) :
    (a.purgeAll uptos).entry i =
      if ∃ upto ∈ uptos, i ≤ T.logIndex upto then none else a.entry i := by
  induction uptos generalizing a with
  | nil => simp [purgeAll]
  | cons upto uptos ih =>
      simp only [purgeAll, List.foldl_cons] at ih ⊢
      rw [ih]
      by_cases hfirst : i ≤ T.logIndex upto
      · simp [purge, hfirst]
      · simp [purge, hfirst]

/-- The fields other than `last` and `purged` are kept, and these two are the greatest of what
they were and the log ids purged. -/
theorem purgeAll_state_le_iff (a : AbstractLog T) (uptos : List T.LogId) (x : Option T.LogId) :
    ((a.purgeAll uptos).state.last ≤ x ↔ a.state.last ≤ x ∧ ∀ upto ∈ uptos, some upto ≤ x) ∧
      ((a.purgeAll uptos).state.purged ≤ x ↔
        a.state.purged ≤ x ∧ ∀ upto ∈ uptos, some upto ≤ x) := by
  induction uptos generalizing a with
  | nil => simp [purgeAll]
  | cons upto uptos ih =>
      simp only [purgeAll, List.foldl_cons] at ih ⊢
      rw [(ih _).1, (ih _).2]
      simp [purge, and_assoc]

theorem purgeAll_state_eq (a : AbstractLog T) (uptos : List T.LogId) :
    (a.purgeAll uptos).state = { a.state with
      last := (a.purgeAll uptos).state.last, purged := (a.purgeAll uptos).state.purged } := by
  induction uptos generalizing a with
  | nil => rfl
  | cons upto uptos ih =>
      simp only [purgeAll, List.foldl_cons] at ih ⊢
      rw [ih]
      rfl

/-- Neither the order of the purges matters nor whether one is repeated. -/
theorem purgeAll_congr (a : AbstractLog T) {uptos uptos' : List T.LogId}
    (h : ∀ upto, upto ∈ uptos ↔ upto ∈ uptos') : a.purgeAll uptos = a.purgeAll uptos' := by
  have hlast : (a.purgeAll uptos).state.last = (a.purgeAll uptos').state.last :=
    eq_of_forall_ge_iff fun x => by
      rw [(a.purgeAll_state_le_iff uptos x).1, (a.purgeAll_state_le_iff uptos' x).1]
      simp only [h]
  have hpurged : (a.purgeAll uptos).state.purged = (a.purgeAll uptos').state.purged :=
    eq_of_forall_ge_iff fun x => by
      rw [(a.purgeAll_state_le_iff uptos x).2, (a.purgeAll_state_le_iff uptos' x).2]
      simp only [h]
  refine AbstractLog.ext ?_ (funext fun i => ?_)
  · rw [purgeAll_state_eq a uptos, purgeAll_state_eq a uptos', hlast, hpurged]
  · simp only [purgeAll_entry, h]

/-- A run of purges. -/
theorem run_purges {a b : AbstractLog T} {calls : List (Op T × Bool)}
    (h : Transition.Run Step a calls b) {uptos : List T.LogId}
    (hcalls : calls.map Prod.fst = uptos.map .purge) : b = a.purgeAll uptos := by
  induction h generalizing uptos with
  | nil =>
      obtain rfl : uptos = [] := by simpa using hcalls.symm
      rfl
  | @snoc b b' calls call _ hstep ih =>
      obtain ⟨front, behind, rfl, hfront, hbehind⟩ := List.map_eq_append_iff.mp
        ((List.map_append ..).symm.trans hcalls).symm
      obtain ⟨upto, rfl⟩ : ∃ upto, behind = [upto] := by
        have hlength := congrArg List.length hbehind
        exact List.length_eq_one_iff.mp (by simpa using hlength)
      obtain ⟨op, accepted⟩ := call
      obtain rfl : .purge upto = op := by simpa using hbehind
      have hfold : a.purgeAll (front ++ [upto]) = b.purge upto := by
        rw [purgeAll, List.foldl_append, ih hfront.symm]
        rfl
      have haccepts : b.Accepts (.purge upto) (b.purge upto) := rfl
      rw [hfold]
      exact (hstep.accepted_eq haccepts).2

end AbstractLog

end RaftLogStore
