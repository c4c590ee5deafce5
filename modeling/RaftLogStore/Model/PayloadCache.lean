import RaftLogStore.Lib.OrderedMap
import RaftLogStore.Lib.StateExcept
import RaftLogStore.Model.Types

/-!
# The payload cache

The payloads of recent log entries, keyed by log id.  `lastEvictable` is set by the worker;
everything above it must stay in the cache.

Each loop of the source takes one entry out of the cache in an iteration, so it runs at most
`len` times.  It is written by recursion on that number, and stops with an empty cache when
the number is used up.
-/

namespace RaftLogStore

variable {T : Types}

structure PayloadCache (T : Types) where
  maxItems : ℕ
  capacity : ℕ
  size : ℕ
  cache : OrderedMap T.LogId T.LogPayload
  /-- All logs with log id after this value must be held in memory. -/
  lastEvictable : Option T.LogId

namespace PayloadCache

def new (maxItems capacity : ℕ) : PayloadCache T := ⟨maxItems, capacity, 0, ∅, none⟩

def setLastEvictable (c : PayloadCache T) (logId : Option T.LogId) : PayloadCache T :=
  { c with lastEvictable := logId }

def needEvict (c : PayloadCache T) : Bool := c.cache.len > c.maxItems ∨ c.size > c.capacity

def evictFirst (c : PayloadCache T) : Except (Failure T) (PayloadCache T) :=
  match c.cache.popFirst with
  | some ((_, payload), rest) => do
      let size ← T.subUsize c.size (T.payloadSize payload)
      .ok { c with size := size, cache := rest }
  | none => .ok c

/-- The loop of `try_evict`. -/
def tryEvictLoop : ℕ → PayloadCache T → Except (Failure T) (PayloadCache T)
  | 0, c => .ok c
  | n + 1, c =>
      if c.needEvict then
        match c.cache.firstKeyValue with
        | some (logId, _) =>
            if some logId ≤ c.lastEvictable then do
              let c ← c.evictFirst
              tryEvictLoop n c
            else .ok c
        | none => .ok c
      else .ok c

def tryEvict (c : PayloadCache T) : Except (Failure T) (PayloadCache T) :=
  tryEvictLoop c.cache.len c

/-- `cache.insert` returns the replaced payload, which the source ignores: the size only
grows here. -/
def insert (c : PayloadCache T) (key : T.LogId) (value : T.LogPayload) :
    Except (Failure T) (PayloadCache T) := do
  let payloadSize := T.payloadSize value
  let cache := c.cache.insert key value
  let size ← T.addUsize c.size payloadSize
  { c with size := size, cache := cache }.tryEvict

/-- The loop of `drain_evictable`. -/
def drainEvictableLoop : ℕ → PayloadCache T → Except (Failure T) (PayloadCache T)
  | 0, c => .ok c
  | n + 1, c =>
      match c.cache.firstKeyValue with
      | some (logId, _) =>
          if some logId ≤ c.lastEvictable then do
            let c ← c.evictFirst
            drainEvictableLoop n c
          else .ok c
      | none => .ok c

def drainEvictable (c : PayloadCache T) : Except (Failure T) (PayloadCache T) :=
  drainEvictableLoop c.cache.len c

def get (c : PayloadCache T) (key : T.LogId) : Option T.LogPayload := c.cache.get key

/-- The loop of `truncate_after`, which pops an entry before it looks at it. -/
def truncateAfterLoop (key : T.LogId) : ℕ → PayloadCache T → Except (Failure T) (PayloadCache T)
  | 0, c => .ok c
  | n + 1, c =>
      match c.cache.popLast with
      | some ((logId, payload), rest) =>
          if key < logId then do
            let size ← T.subUsize c.size (T.payloadSize payload)
            truncateAfterLoop key n { c with size := size, cache := rest }
          else .ok { c with cache := rest.insert logId payload }
      | none => .ok c

def truncateAfter (c : PayloadCache T) (key : T.LogId) : Except (Failure T) (PayloadCache T) :=
  truncateAfterLoop key c.cache.len c

/-- The loop of `purge_upto`, which pops an entry before it looks at it. -/
def purgeUptoLoop (key : T.LogId) : ℕ → PayloadCache T → Except (Failure T) (PayloadCache T)
  | 0, c => .ok c
  | n + 1, c =>
      match c.cache.popFirst with
      | some ((logId, payload), rest) =>
          if logId ≤ key ∧ some logId ≤ c.lastEvictable then do
            let size ← T.subUsize c.size (T.payloadSize payload)
            purgeUptoLoop key n { c with size := size, cache := rest }
          else .ok { c with cache := rest.insert logId payload }
      | none => .ok c

def purgeUpto (c : PayloadCache T) (key : T.LogId) : Except (Failure T) (PayloadCache T) :=
  purgeUptoLoop key c.cache.len c

def clear (c : PayloadCache T) : PayloadCache T := { c with cache := ∅, size := 0 }

/-! ## What one loop may take out

`Dropped c c' front back`: `c'` is `c` without the entries `front` at its lower end and `back`
at its upper end, with their sizes subtracted.  Each loop is described by what it drops and by
why it stops. -/

/-- A build with overflow checks counts at least what the cache holds, so that no
subtraction from `size` goes below zero. -/
def Sized (c : PayloadCache T) : Prop :=
  T.overflowChecks = true → c.cache.total T.payloadSize ≤ c.size

/-- `size` is ahead of what the cache holds by `n`. -/
def Ahead (c : PayloadCache T) (n : ℕ) : Prop := c.size = c.cache.total T.payloadSize + n

/-- `size` is what the cache holds, up to a wrap of the counter. -/
def Modular (c : PayloadCache T) : Prop := c.size = c.cache.total T.payloadSize % 2 ^ 64

structure Dropped (c c' : PayloadCache T) (front back : List (T.LogId × T.LogPayload)) :
    Prop where
  maxItems : c'.maxItems = c.maxItems
  capacity : c'.capacity = c.capacity
  lastEvictable : c'.lastEvictable = c.lastEvictable
  entries : c.cache.entries = front ++ c'.cache.entries ++ back
  sized : c.Sized → c'.Sized
  ahead : ∀ n, c.Ahead n → c'.Ahead n

/-! ### The size after one entry is out -/

section OneEntry

variable {c : PayloadCache T} {e : T.LogId × T.LogPayload}
  {rest : OrderedMap T.LogId T.LogPayload} {size : ℕ}

/-- A subtraction from `size` that the invariant covers. -/
theorem subUsize_sized (hpopped : c.cache.Popped e rest)
    (h : T.subUsize c.size (T.payloadSize e.2) = .ok size) (hsized : c.Sized) :
    PayloadCache.Sized { c with size := size, cache := rest } := by
  intro hchecks
  have hle := hsized hchecks
  have htotal := hpopped.total T.payloadSize
  simp only [Types.subUsize] at h
  rw [if_pos (by omega)] at h
  have hsize := Except.ok.inj h
  simp only
  omega

theorem subUsize_ahead {n : ℕ} (hpopped : c.cache.Popped e rest)
    (h : T.subUsize c.size (T.payloadSize e.2) = .ok size) (hahead : c.Ahead n) :
    PayloadCache.Ahead { c with size := size, cache := rest } n := by
  have htotal := hpopped.total T.payloadSize
  simp only [Ahead] at hahead ⊢
  simp only [Types.subUsize] at h
  rw [if_pos (by omega)] at h
  have hsize := Except.ok.inj h
  omega

/-- A subtraction that wraps back undoes an addition that has wrapped. -/
theorem subUsize_modular (hpopped : c.cache.Popped e rest)
    (h : T.subUsize c.size (T.payloadSize e.2) = .ok size) (hmodular : c.Modular) :
    PayloadCache.Modular { c with size := size, cache := rest } := by
  have htotal := hpopped.total T.payloadSize
  have hle := T.payloadSize_le e.2
  simp only [Modular] at hmodular ⊢
  simp only [Types.subUsize, u64Max] at h hle
  split_ifs at h with hcovered
  · have hsize := Except.ok.inj h
    omega
  · have hsize := Except.ok.inj h
    omega

theorem subUsize_ne_error {failure : Failure T} (hpopped : c.cache.Popped e rest)
    (hsized : c.Sized) : T.subUsize c.size (T.payloadSize e.2) ≠ .error failure := by
  intro h
  have htotal := hpopped.total T.payloadSize
  simp only [Types.subUsize] at h
  split_ifs at h with hle hchecks
  have := hsized hchecks
  omega

end OneEntry

/-! ## The loops

The four loops are one: an end of the cache is popped, and the entry is out if a condition holds
of its log id, else the loop stops.  A source loop that pops before it looks puts the entry back,
so that this makes no difference. -/

section Loops

variable {side : OrderedMap.End T.LogId T.LogPayload} {cond : PayloadCache T → T.LogId → Prop}
  [∀ c logId, Decidable (cond c logId)]

/-- Take out the entries at one end, as long as `cond` holds of the log id. -/
def popWhile (side : OrderedMap.End T.LogId T.LogPayload) (cond : PayloadCache T → T.LogId → Prop)
    [∀ c logId, Decidable (cond c logId)] :
    ℕ → PayloadCache T → Except (Failure T) (PayloadCache T)
  | 0, c => .ok c
  | n + 1, c =>
      match side.pop c.cache with
      | some (e, rest) =>
          if cond c e.1 then do
            let size ← T.subUsize c.size (T.payloadSize e.2)
            popWhile side cond n { c with size := size, cache := rest }
          else .ok c
      | none => .ok c

theorem popWhile_of_none {n : ℕ} {c : PayloadCache T} (hpop : side.pop c.cache = none) :
    popWhile side cond n c = .ok c := by
  cases n with
  | zero => rfl
  | succ n => simp only [popWhile, hpop]

theorem popWhile_of_some {n : ℕ} {c : PayloadCache T} {e : T.LogId × T.LogPayload}
    {rest : OrderedMap T.LogId T.LogPayload} (hpop : side.pop c.cache = some (e, rest)) :
    popWhile side cond (n + 1) c = if cond c e.1 then
        T.subUsize c.size (T.payloadSize e.2) >>= fun size =>
          popWhile side cond n { c with size := size, cache := rest }
      else .ok c := by
  simp only [popWhile, hpop]

theorem evictFirst_bind {α : Type} {c : PayloadCache T} {e : T.LogId × T.LogPayload}
    {rest : OrderedMap T.LogId T.LogPayload} (hpop : c.cache.popFirst = some (e, rest))
    (f : PayloadCache T → Except (Failure T) α) :
    c.evictFirst >>= f = (T.subUsize c.size (T.payloadSize e.2) >>= fun size =>
      f { c with size := size, cache := rest }) := by
  simp only [evictFirst, hpop, bind_assoc]
  rfl

/-- The condition for another iteration of `try_evict`. -/
abbrev EvictsNext (c : PayloadCache T) (logId : T.LogId) : Prop :=
  c.needEvict = true ∧ some logId ≤ c.lastEvictable

theorem tryEvictLoop_eq (n : ℕ) (c : PayloadCache T) :
    tryEvictLoop n c = popWhile OrderedMap.front EvictsNext n c := by
  induction n generalizing c with
  | zero => rfl
  | succ n ih =>
      unfold tryEvictLoop
      cases hpop : OrderedMap.front.pop c.cache with
      | none =>
          have hnil := OrderedMap.popFirst_eq_none_iff.mp hpop
          rw [popWhile_of_none hpop]
          simp [OrderedMap.firstKeyValue, hnil]
      | some popped =>
          have hentries := OrderedMap.popFirst_eq_some_iff.mp hpop
          rw [popWhile_of_some hpop]
          by_cases hneed : c.needEvict = true
          · simp [EvictsNext, hneed, OrderedMap.firstKeyValue, hentries, evictFirst_bind hpop, ih]
          · simp [EvictsNext, hneed]

theorem drainEvictableLoop_eq (n : ℕ) (c : PayloadCache T) :
    drainEvictableLoop n c = popWhile OrderedMap.front
      (fun c logId => some logId ≤ c.lastEvictable) n c := by
  induction n generalizing c with
  | zero => rfl
  | succ n ih =>
      unfold drainEvictableLoop
      cases hpop : OrderedMap.front.pop c.cache with
      | none =>
          have hnil := OrderedMap.popFirst_eq_none_iff.mp hpop
          rw [popWhile_of_none hpop]
          simp [OrderedMap.firstKeyValue, hnil]
      | some popped =>
          have hentries := OrderedMap.popFirst_eq_some_iff.mp hpop
          rw [popWhile_of_some hpop]
          simp [OrderedMap.firstKeyValue, hentries, evictFirst_bind hpop, ih]

theorem truncateAfterLoop_eq (key : T.LogId) (n : ℕ) (c : PayloadCache T) :
    truncateAfterLoop key n c = popWhile OrderedMap.back (fun _ logId => key < logId) n c := by
  induction n generalizing c with
  | zero => rfl
  | succ n ih =>
      unfold truncateAfterLoop popWhile
      rw [OrderedMap.back_pop]
      cases hpop : c.cache.popLast with
      | none => rfl
      | some popped => simp only [ih, OrderedMap.insert_of_popLast hpop]

theorem purgeUptoLoop_eq (key : T.LogId) (n : ℕ) (c : PayloadCache T) :
    purgeUptoLoop key n c = popWhile OrderedMap.front
      (fun c logId => logId ≤ key ∧ some logId ≤ c.lastEvictable) n c := by
  induction n generalizing c with
  | zero => rfl
  | succ n ih =>
      unfold purgeUptoLoop popWhile
      rw [OrderedMap.front_pop]
      cases hpop : c.cache.popFirst with
      | none => rfl
      | some popped => simp only [ih, OrderedMap.insert_of_popFirst hpop]

/-- A run of a loop: the entries it takes out, in this order. -/
inductive Pops (side : OrderedMap.End T.LogId T.LogPayload)
    (cond : PayloadCache T → T.LogId → Prop) :
    PayloadCache T → List (T.LogId × T.LogPayload) → PayloadCache T → Prop
  | refl (c : PayloadCache T) : Pops side cond c [] c
  | step {c c' : PayloadCache T} {e : T.LogId × T.LogPayload}
      {rest : OrderedMap T.LogId T.LogPayload} {size : ℕ}
      {taken : List (T.LogId × T.LogPayload)} (hpop : side.pop c.cache = some (e, rest))
      (hcond : cond c e.1) (hsub : T.subUsize c.size (T.payloadSize e.2) = .ok size)
      (htail : Pops side cond { c with size := size, cache := rest } taken c') :
      Pops side cond c (e :: taken) c'

/-- A loop takes out entries that satisfy the condition.  It stops at one that does not, if it
is given enough iterations. -/
theorem popWhile_ok {n : ℕ} {c c' : PayloadCache T} (h : popWhile side cond n c = .ok c') :
    (∃ taken, Pops side cond c taken c') ∧
      (c.cache.len ≤ n → ∀ e rest, side.pop c'.cache = some (e, rest) → ¬ cond c' e.1) := by
  induction n generalizing c with
  | zero =>
      have heq : c = c' := Except.ok.inj h
      subst heq
      refine ⟨⟨[], Pops.refl c⟩, fun hn e rest hpop => ?_⟩
      have hlen := (side.popped hpop).len
      omega
  | succ n ih =>
      cases hpop : side.pop c.cache with
      | none =>
          rw [popWhile_of_none hpop] at h
          have heq := Except.ok.inj h
          subst heq
          exact ⟨⟨[], Pops.refl c⟩, fun _ e rest hsome => by simp [hpop] at hsome⟩
      | some popped =>
          obtain ⟨e, rest⟩ := popped
          rw [popWhile_of_some hpop] at h
          split_ifs at h with hcond
          · obtain ⟨size, hsub, hloop⟩ := Except.bind_eq_ok.mp h
            obtain ⟨⟨taken, htaken⟩, hstop⟩ := ih hloop
            refine ⟨⟨e :: taken, Pops.step hpop hcond hsub htaken⟩, fun hn => hstop ?_⟩
            have hlen := (side.popped hpop).len
            simp only
            omega
          · have heq := Except.ok.inj h
            subst heq
            refine ⟨⟨[], Pops.refl c⟩, fun _ e' rest' hsome => ?_⟩
            simp only [hpop, Option.some.injEq, Prod.mk.injEq] at hsome
            exact hsome.1 ▸ hcond

/-- More iterations than there are entries make no difference. -/
theorem popWhile_fuel {n m : ℕ} {c : PayloadCache T} (hn : c.cache.len ≤ n)
    (hm : c.cache.len ≤ m) : popWhile side cond n c = popWhile side cond m c := by
  induction n generalizing m c with
  | zero =>
      have hpop : side.pop c.cache = none := by
        cases hpop : side.pop c.cache with
        | none => rfl
        | some popped =>
            have hlen := (side.popped hpop).len
            omega
      rw [popWhile_of_none hpop, popWhile_of_none hpop]
  | succ n ih =>
      cases hpop : side.pop c.cache with
      | none => rw [popWhile_of_none hpop, popWhile_of_none hpop]
      | some popped =>
          have hlen := (side.popped hpop).len
          obtain ⟨m, rfl⟩ : ∃ m', m = m' + 1 := ⟨m - 1, by omega⟩
          have htail : ∀ size, popWhile side cond n { c with size := size, cache := popped.2 } =
              popWhile side cond m { c with size := size, cache := popped.2 } := fun size =>
            ih (by simp only; omega) (by simp only; omega)
          rw [popWhile_of_some hpop, popWhile_of_some hpop]
          simp only [htail]

theorem popWhile_ne_error {n : ℕ} {c : PayloadCache T} {failure : Failure T}
    (hsized : c.Sized) : popWhile side cond n c ≠ .error failure := by
  induction n generalizing c with
  | zero => simp [popWhile]
  | succ n ih =>
      intro h
      cases hpop : side.pop c.cache with
      | none =>
          rw [popWhile_of_none hpop] at h
          exact absurd h (by simp)
      | some popped =>
          rw [popWhile_of_some hpop] at h
          split_ifs at h
          rcases Except.bind_eq_error.mp h with hsub | ⟨size, hsub, hloop⟩
          · exact subUsize_ne_error (side.popped hpop) hsized hsub
          · exact ih (subUsize_sized (side.popped hpop) hsub hsized) hloop

theorem popWhile_onlyPanics (n : ℕ) (c : PayloadCache T) :
    OnlyPanics (popWhile side cond n c) := by
  induction n generalizing c with
  | zero => exact OnlyPanics.ok _
  | succ n ih =>
      unfold popWhile
      repeat' split
      · exact (Types.subUsize_onlyPanics _ _).bind fun _ => ih _
      all_goals exact OnlyPanics.ok _

/-! ### What a run of a loop keeps -/

omit [∀ c logId, Decidable (cond c logId)]

variable {c c' : PayloadCache T} {taken : List (T.LogId × T.LogPayload)}

/-- What the removal of one entry keeps, a run keeps. -/
theorem Pops.preserves {P : PayloadCache T → Prop}
    (hstep : ∀ {c e rest size}, OrderedMap.Popped c.cache e rest →
      T.subUsize c.size (T.payloadSize e.2) = .ok size → P c →
      P { c with size := size, cache := rest })
    (h : Pops side cond c taken c') (hc : P c) : P c' := by
  induction h with
  | refl c => exact hc
  | step hpop hcond hsub htail ih => exact ih (hstep (side.popped hpop) hsub hc)

theorem Pops.dropped (h : Pops side cond c taken c') {front back : List (T.LogId × T.LogPayload)}
    (hentries : c.cache.entries = front ++ c'.cache.entries ++ back) :
    Dropped c c' front back where
  maxItems := h.preserves (P := fun c₁ => c₁.maxItems = c.maxItems) (fun _ _ => id) rfl
  capacity := h.preserves (P := fun c₁ => c₁.capacity = c.capacity) (fun _ _ => id) rfl
  lastEvictable :=
    h.preserves (P := fun c₁ => c₁.lastEvictable = c.lastEvictable) (fun _ _ => id) rfl
  entries := hentries
  sized := h.preserves subUsize_sized
  ahead _ := h.preserves subUsize_ahead

theorem Pops.dropped_front (h : Pops OrderedMap.front cond c taken c') :
    Dropped c c' taken [] := by
  refine h.dropped ?_
  induction h with
  | refl c => simp
  | step hpop hcond hsub htail ih =>
      rw [OrderedMap.popFirst_eq_some_iff.mp hpop]
      simpa using ih

theorem Pops.dropped_back (h : Pops OrderedMap.back cond c taken c') :
    Dropped c c' [] taken.reverse := by
  refine h.dropped ?_
  induction h with
  | refl c => simp
  | step hpop hcond hsub htail ih =>
      rw [OrderedMap.popLast_eq_some_iff.mp hpop, List.reverse_cons, ← List.append_assoc]
      exact congrArg (· ++ [_]) ih

/-- A run can be interrupted after any of its entries. -/
theorem Pops.split {before after : List (T.LogId × T.LogPayload)}
    (h : Pops side cond c (before ++ after) c') :
    ∃ c₁, Pops side cond c before c₁ ∧ Pops side cond c₁ after c' := by
  induction before generalizing c with
  | nil => exact ⟨c, Pops.refl c, h⟩
  | cons e before ih =>
      cases h with
      | step hpop hcond hsub htail =>
          obtain ⟨c₁, hbefore, hafter⟩ := ih htail
          exact ⟨c₁, Pops.step hpop hcond hsub hbefore, hafter⟩

/-- Every entry that is taken out satisfies what the condition says of its log id. -/
theorem Pops.forall_taken {p : T.LogId → Prop} (h : Pops side cond c taken c')
    (hcond : ∀ c₁ logId, c₁.lastEvictable = c.lastEvictable → cond c₁ logId → p logId) :
    ∀ e ∈ taken, p e.1 := by
  induction h with
  | refl c => simp
  | step hpop hhead hsub htail ih =>
      intro e he
      rcases List.mem_cons.mp he with rfl | he
      · exact hcond _ _ rfl hhead
      · exact ih hcond e he

/-- `try_evict` drops evictable entries from the front. -/
theorem tryEvictLoop_ok {n : ℕ} (h : tryEvictLoop n c = .ok c') :
    ∃ front, Dropped c c' front [] ∧ ∀ e ∈ front, some e.1 ≤ c.lastEvictable := by
  rw [tryEvictLoop_eq] at h
  obtain ⟨⟨front, htaken⟩, -⟩ := popWhile_ok h
  exact ⟨front, htaken.dropped_front, htaken.forall_taken fun _ _ heq hcond => heq ▸ hcond.2⟩

end Loops

/-! ## What the operations do -/

/-- An entry of the cache is dropped or still there. -/
theorem Dropped.get_cases {c c' : PayloadCache T} {front back : List (T.LogId × T.LogPayload)}
    (h : Dropped c c' front back) (logId : T.LogId) :
    c'.get logId = c.get logId ∨ c'.get logId = none ∧ ∃ p, (logId, p) ∈ front ++ back := by
  simp only [get]
  cases hget' : c'.cache.get logId with
  | some p =>
      have hmem := OrderedMap.get_eq_some_iff.mp hget'
      refine Or.inl (OrderedMap.get_eq_some_iff.mpr ?_).symm
      simp [h.entries, hmem]
  | none =>
      cases hget : c.cache.get logId with
      | none => exact Or.inl rfl
      | some p =>
          have hmem := OrderedMap.get_eq_some_iff.mp hget
          have hnot := OrderedMap.get_eq_none_iff.mp hget' p
          simp only [h.entries, List.mem_append, hnot, or_false] at hmem
          exact Or.inr ⟨rfl, p, List.mem_append.mpr hmem⟩

/-- Nothing is added by dropping. -/
theorem Dropped.get_of_get {c c' : PayloadCache T} {front back : List (T.LogId × T.LogPayload)}
    (h : Dropped c c' front back) {logId : T.LogId} {p : T.LogPayload}
    (hget : c'.get logId = some p) : c.get logId = some p := by
  rcases h.get_cases logId with heq | ⟨hnone, -⟩
  · rw [← heq, hget]
  · rw [hnone] at hget
    exact absurd hget (by simp)

/-- `drain_evictable` leaves exactly the entries above the boundary. -/
theorem drainEvictable_ok {c c' : PayloadCache T} (h : c.drainEvictable = .ok c') :
    (∃ front, Dropped c c' front [] ∧ ∀ e ∈ front, some e.1 ≤ c.lastEvictable) ∧
      c'.cache = c.cache.filter fun e => ¬ some e.1 ≤ c.lastEvictable := by
  rw [drainEvictable, drainEvictableLoop_eq] at h
  obtain ⟨⟨front, htaken⟩, hstop⟩ := popWhile_ok h
  have hdrop := htaken.dropped_front
  have hfront : ∀ e ∈ front, some e.1 ≤ c.lastEvictable :=
    htaken.forall_taken (p := fun k => some k ≤ c.lastEvictable) fun _ _ heq hcond => heq ▸ hcond
  refine ⟨⟨front, hdrop, hfront⟩, ?_⟩
  refine OrderedMap.eq_filter_of_dropFront (p := fun k => some k ≤ c.lastEvictable)
    (by simpa using hdrop.entries) hfront (fun e he => ?_) ?_
  · obtain ⟨rest, hpop⟩ := OrderedMap.exists_popFirst he
    exact hdrop.lastEvictable ▸ hstop le_rfl e rest hpop
  · intro a b hab hb
    exact (Option.some_le_some.mpr hab).trans hb

/-- `truncate_after` leaves exactly the entries at or below `key`. -/
theorem truncateAfter_ok {c c' : PayloadCache T} {key : T.LogId}
    (h : c.truncateAfter key = .ok c') :
    (∃ back, Dropped c c' [] back ∧ ∀ e ∈ back, ¬ e.1 ≤ key) ∧
      c'.cache = c.cache.filter fun e => e.1 ≤ key := by
  rw [truncateAfter, truncateAfterLoop_eq] at h
  obtain ⟨⟨taken, htaken⟩, hstop⟩ := popWhile_ok h
  have hdrop := htaken.dropped_back
  have hback : ∀ e ∈ taken.reverse, ¬ e.1 ≤ key := fun e he =>
    htaken.forall_taken (p := fun k => ¬ k ≤ key) (fun _ _ _ => not_le.mpr) e
      (List.mem_reverse.mp he)
  refine ⟨⟨taken.reverse, hdrop, hback⟩, ?_⟩
  refine OrderedMap.eq_filter_of_dropBack (p := fun k => k ≤ key)
    (by simpa using hdrop.entries) hback (fun e he => ?_) fun a b hab hb => hab.trans hb
  obtain ⟨rest, hpop⟩ := OrderedMap.exists_popLast he
  exact not_lt.mp (hstop le_rfl e rest hpop)

/-- `purge_upto` leaves exactly the entries above `key` or above the boundary. -/
theorem purgeUpto_ok {c c' : PayloadCache T} {key : T.LogId} (h : c.purgeUpto key = .ok c') :
    (∃ front, Dropped c c' front [] ∧
        ∀ e ∈ front, e.1 ≤ key ∧ some e.1 ≤ c.lastEvictable) ∧
      c'.cache = c.cache.filter fun e => ¬ (e.1 ≤ key ∧ some e.1 ≤ c.lastEvictable) := by
  rw [purgeUpto, purgeUptoLoop_eq] at h
  obtain ⟨⟨front, htaken⟩, hstop⟩ := popWhile_ok h
  have hdrop := htaken.dropped_front
  have hfront : ∀ e ∈ front, e.1 ≤ key ∧ some e.1 ≤ c.lastEvictable :=
    htaken.forall_taken (p := fun k => k ≤ key ∧ some k ≤ c.lastEvictable)
      fun _ _ heq hcond => heq ▸ hcond
  refine ⟨⟨front, hdrop, hfront⟩, ?_⟩
  refine OrderedMap.eq_filter_of_dropFront
    (p := fun k => k ≤ key ∧ some k ≤ c.lastEvictable) (by simpa using hdrop.entries)
    hfront (fun e he => ?_) ?_
  · obtain ⟨rest, hpop⟩ := OrderedMap.exists_popFirst he
    exact hdrop.lastEvictable ▸ hstop le_rfl e rest hpop
  · intro a b hab hb
    exact ⟨hab.trans hb.1, (Option.some_le_some.mpr hab).trans hb.2⟩

/-- `insert` stores the payload, and may then drop evictable entries from the front. -/
theorem insert_ok {c c' : PayloadCache T} {key : T.LogId} {value : T.LogPayload}
    (h : c.insert key value = .ok c') :
    ∃ size front,
      Dropped { c with size := size, cache := c.cache.insert key value } c' front [] ∧
        (∀ e ∈ front, some e.1 ≤ c.lastEvictable) ∧ (c.Sized → c'.Sized) := by
  obtain ⟨size, hsize, hevict⟩ := Except.bind_eq_ok.mp h
  obtain ⟨front, hdrop, hfront⟩ := tryEvictLoop_ok hevict
  refine ⟨size, front, hdrop, hfront, fun hsized => hdrop.sized fun hchecks => ?_⟩
  have hle := hsized hchecks
  have htotal := OrderedMap.total_insert_le T.payloadSize c.cache key value
  simp only [Types.addUsize, Types.addU64, hchecks] at hsize
  split_ifs at hsize
  · have := Except.ok.inj hsize
    simp only
    omega

/-- An insertion that does not wrap leaves `size` ahead by what it has replaced. -/
theorem insert_ahead {c c' : PayloadCache T} {key : T.LogId} {value : T.LogPayload} {n : ℕ}
    (h : c.insert key value = .ok c') (hahead : c.Ahead n)
    (hfits : c.size + T.payloadSize value ≤ u64Max) :
    c'.Ahead (n + ((c.get key).map T.payloadSize).getD 0) := by
  obtain ⟨size, hsize, hevict⟩ := Except.bind_eq_ok.mp h
  obtain ⟨front, hdrop, -⟩ := tryEvictLoop_ok hevict
  refine hdrop.ahead _ ?_
  have htotal := OrderedMap.total_insert T.payloadSize c.cache key value
  simp only [Types.addUsize, Types.addU64, if_pos hfits] at hsize
  have := Except.ok.inj hsize
  simp only [Ahead, get] at hahead ⊢
  omega

@[simp] theorem clear_sized (c : PayloadCache T) : c.clear.Sized := fun _ => Nat.zero_le _

/-! ## When the operations fail -/

theorem drainEvictableLoop_ne_error {n : ℕ} {c : PayloadCache T} {failure : Failure T}
    (hsized : c.Sized) : drainEvictableLoop n c ≠ .error failure := by
  rw [drainEvictableLoop_eq]
  exact popWhile_ne_error hsized

theorem tryEvictLoop_ne_error {n : ℕ} {c : PayloadCache T} {failure : Failure T}
    (hsized : c.Sized) : tryEvictLoop n c ≠ .error failure := by
  rw [tryEvictLoop_eq]
  exact popWhile_ne_error hsized

theorem truncateAfterLoop_ne_error {key : T.LogId} {n : ℕ} {c : PayloadCache T}
    {failure : Failure T} (hsized : c.Sized) : truncateAfterLoop key n c ≠ .error failure := by
  rw [truncateAfterLoop_eq]
  exact popWhile_ne_error hsized

theorem purgeUptoLoop_ne_error {key : T.LogId} {n : ℕ} {c : PayloadCache T}
    {failure : Failure T} (hsized : c.Sized) : purgeUptoLoop key n c ≠ .error failure := by
  rw [purgeUptoLoop_eq]
  exact popWhile_ne_error hsized

theorem tryEvictLoop_onlyPanics (n : ℕ) (c : PayloadCache T) : OnlyPanics (tryEvictLoop n c) :=
  tryEvictLoop_eq n c ▸ popWhile_onlyPanics n c

theorem insert_onlyPanics (c : PayloadCache T) (key : T.LogId) (value : T.LogPayload) :
    OnlyPanics (c.insert key value) :=
  (Types.addU64_onlyPanics _ _).bind fun _ => tryEvictLoop_onlyPanics _ _

theorem truncateAfterLoop_onlyPanics (key : T.LogId) (n : ℕ) (c : PayloadCache T) :
    OnlyPanics (truncateAfterLoop key n c) :=
  truncateAfterLoop_eq key n c ▸ popWhile_onlyPanics n c

theorem purgeUptoLoop_onlyPanics (key : T.LogId) (n : ℕ) (c : PayloadCache T) :
    OnlyPanics (purgeUptoLoop key n c) :=
  purgeUptoLoop_eq key n c ▸ popWhile_onlyPanics n c

/-- `insert` succeeds unless the build checks for overflow and the size would exceed a
`usize`. -/
theorem insert_isOk_iff {c : PayloadCache T} {key : T.LogId} {value : T.LogPayload}
    (hsized : c.Sized) :
    (∃ c', c.insert key value = .ok c') ↔
      (T.overflowChecks = true → c.size + T.payloadSize value ≤ u64Max) := by
  constructor
  · rintro ⟨c', h⟩ hchecks
    obtain ⟨size, hsize, -⟩ := Except.bind_eq_ok.mp h
    simp only [Types.addUsize, Types.addU64, hchecks] at hsize
    split_ifs at hsize with hle
    exact hle
  · intro hfits
    cases h : c.insert key value with
    | ok c' => exact ⟨c', rfl⟩
    | error failure =>
        rcases Except.bind_eq_error.mp h with hsize | ⟨size, hsize, hevict⟩
        · simp only [Types.addUsize, Types.addU64] at hsize
          split_ifs at hsize with hle hchecks
          exact absurd (hfits hchecks) hle
        · refine absurd hevict (tryEvictLoop_ne_error fun hchecks => ?_)
          have hle := hfits hchecks
          have hsum := hsized hchecks
          have htotal := OrderedMap.total_insert_le T.payloadSize c.cache key value
          simp only [Types.addUsize, Types.addU64] at hsize
          rw [if_pos hle] at hsize
          have := Except.ok.inj hsize
          simp only
          omega

end PayloadCache

end RaftLogStore
