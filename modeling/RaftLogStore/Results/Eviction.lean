import RaftLogStore.Results.Counting

/-!
# Eviction and pruning

The cache is cut in four loops.  `truncate_after`, `purge_upto` and `drain_evictable` leave the
entries that satisfy a condition on the log id: what such a condition keeps lies at one end of the
cache, and the loop stops at the first entry it meets there.

`try_evict` stops as soon as both limits hold.  It takes `size` for the sum of the payloads, which
`insert` adds to without a check.  In a build without overflow checks the sum may wrap, and `size`
is then below the limit too early, unless the loop goes on until the true sum fits again.
-/

namespace RaftLogStore

variable {T : Types}

namespace PayloadCache

/-! ## Loops that leave a set of log ids -/

/-- The entries whose log ids satisfy `p`, with the size they add up to. -/
def keep (c : PayloadCache T) (p : T.LogId → Prop) [DecidablePred p] : PayloadCache T :=
  { c with
    size := (c.cache.filter fun e => p e.1).total T.payloadSize
    cache := c.cache.filter fun e => p e.1 }

variable {c c' : PayloadCache T} {front back : List (T.LogId × T.LogPayload)}

theorem Dropped.eq_keep (h : Dropped c c' front back) (hcounted : c.Counted) {p : T.LogId → Prop}
    [DecidablePred p] (hcache : c'.cache = c.cache.filter fun e => p e.1) : c' = c.keep p := by
  obtain ⟨maxItems, capacity, size, cache, lastEvictable⟩ := c'
  have hsize : size = cache.total T.payloadSize := h.ahead 0 hcounted
  have hmaxItems : maxItems = c.maxItems := h.maxItems
  have hcapacity : capacity = c.capacity := h.capacity
  have hlast : lastEvictable = c.lastEvictable := h.lastEvictable
  simp only at hcache
  subst hsize hmaxItems hcapacity hlast hcache
  rfl

theorem truncateAfter_eq_keep (hcounted : c.Counted) (key : T.LogId) :
    c.truncateAfter key = .ok (c.keep fun logId => logId ≤ key) := by
  cases h : c.truncateAfter key with
  | error failure => exact absurd h (truncateAfterLoop_ne_error fun _ => hcounted.ge)
  | ok c' =>
      obtain ⟨⟨back, hdrop, -⟩, hcache⟩ := truncateAfter_ok h
      rw [hdrop.eq_keep hcounted (p := fun logId => logId ≤ key) hcache]

theorem purgeUpto_eq_keep (hcounted : c.Counted) (key : T.LogId) :
    c.purgeUpto key = .ok (c.keep fun logId => key < logId ∨ c.lastEvictable < some logId) := by
  cases h : c.purgeUpto key with
  | error failure => exact absurd h (purgeUptoLoop_ne_error fun _ => hcounted.ge)
  | ok c' =>
      obtain ⟨⟨front, hdrop, -⟩, hcache⟩ := purgeUpto_ok h
      rw [hdrop.eq_keep hcounted (p := fun logId => key < logId ∨ c.lastEvictable < some logId)]
      simpa only [not_and_or, not_le] using hcache

theorem drainEvictable_eq_keep (hcounted : c.Counted) :
    c.drainEvictable = .ok (c.keep fun logId => c.lastEvictable < some logId) := by
  cases h : c.drainEvictable with
  | error failure => exact absurd h (drainEvictableLoop_ne_error fun _ => hcounted.ge)
  | ok c' =>
      obtain ⟨⟨front, hdrop, -⟩, hcache⟩ := drainEvictable_ok h
      rw [hdrop.eq_keep hcounted (p := fun logId => c.lastEvictable < some logId)]
      simpa only [not_le] using hcache

/-- From the length of the cache on, the number of iterations makes no difference: the loop has
come to its end. -/
theorem truncateAfterLoop_eq_of_len_le (key : T.LogId) {n : ℕ} (hn : c.cache.len ≤ n) :
    truncateAfterLoop key n c = c.truncateAfter key := by
  rw [truncateAfter, truncateAfterLoop_eq, truncateAfterLoop_eq, popWhile_fuel hn le_rfl]

theorem purgeUptoLoop_eq_of_len_le (key : T.LogId) {n : ℕ} (hn : c.cache.len ≤ n) :
    purgeUptoLoop key n c = c.purgeUpto key := by
  rw [purgeUpto, purgeUptoLoop_eq, purgeUptoLoop_eq, popWhile_fuel hn le_rfl]

theorem drainEvictableLoop_eq_of_len_le {n : ℕ} (hn : c.cache.len ≤ n) :
    drainEvictableLoop n c = c.drainEvictable := by
  rw [drainEvictable, drainEvictableLoop_eq, drainEvictableLoop_eq, popWhile_fuel hn le_rfl]

theorem tryEvictLoop_eq_of_len_le {n : ℕ} (hn : c.cache.len ≤ n) :
    tryEvictLoop n c = c.tryEvict := by
  rw [tryEvict, tryEvictLoop_eq, tryEvictLoop_eq, popWhile_fuel hn le_rfl]

/-! ## Minimal eviction -/

/-- The sizes of these entries added up. -/
def entriesSize (entries : List (T.LogId × T.LogPayload)) : ℕ :=
  (entries.map fun e => T.payloadSize e.2).sum

/-- Both limits of the cache hold for what is left. -/
def WithinLimits (c : PayloadCache T) (rest : List (T.LogId × T.LogPayload)) : Prop :=
  rest.length ≤ c.maxItems ∧ entriesSize rest ≤ c.capacity

/-- Eviction may stop in front of `rest`: both limits hold, or what comes first, if anything, is
not evictable. -/
def MayStop (c : PayloadCache T) (rest : List (T.LogId × T.LogPayload)) : Prop :=
  c.WithinLimits rest ∨ ∀ e ∈ rest.head?, c.lastEvictable < some e.1

/-- `c'` is `c` with `(key, value)`, without the shortest evictable prefix after which eviction may
stop. -/
structure MinimallyEvicted (c : PayloadCache T) (key : T.LogId) (value : T.LogPayload)
    (c' : PayloadCache T) : Prop where
  maxItems : c'.maxItems = c.maxItems
  capacity : c'.capacity = c.capacity
  lastEvictable : c'.lastEvictable = c.lastEvictable
  evicted : ∃ front, (c.cache.insert key value).entries = front ++ c'.cache.entries ∧
    (∀ e ∈ front, some e.1 ≤ c.lastEvictable) ∧ c.MayStop c'.cache.entries ∧
    ∀ before after, (c.cache.insert key value).entries = before ++ after → c.MayStop after →
      front.length ≤ before.length
  kept : ∀ e ∈ (c.cache.insert key value).entries, c.lastEvictable < some e.1 →
    e ∈ c'.cache.entries
  exceeded : ¬ c.WithinLimits c'.cache.entries →
    ∀ e ∈ c'.cache.entries, c.lastEvictable < some e.1
  counted : c'.Counted

/-- `insert` returns such a cache, and the loop of `try_evict` has come to its end there. -/
def EvictsMinimally (c : PayloadCache T) (key : T.LogId) (value : T.LogPayload) : Prop :=
  ∃ c', c.insert key value = .ok c' ∧
    (∃ size, T.addUsize c.size (T.payloadSize value) = .ok size ∧
      ∀ n, (c.cache.insert key value).len ≤ n →
        tryEvictLoop n { c with size := size, cache := c.cache.insert key value } = .ok c') ∧
    MinimallyEvicted c key value c'

/-- The sum after the insertion is counted right in the end.  A build with overflow checks needs
it to fit a `usize`.  In one without them, `size` is off by `2 ^ 64` until what is left fits, so
up to there the entries must be evictable and a limit must be exceeded by `size` as it is. -/
structure SumRecovers (c : PayloadCache T) (key : T.LogId) (value : T.LogPayload) : Prop where
  checked : T.overflowChecks = true → c.size + T.payloadSize value ≤ u64Max
  wrapped : ∀ before after, (c.cache.insert key value).entries = before ++ after →
    (∀ e ∈ before, some e.1 ≤ c.lastEvictable) → u64Max < entriesSize after →
      (∃ e ∈ after.head?, some e.1 ≤ c.lastEvictable) ∧
        (c.maxItems < after.length ∨ c.capacity < entriesSize after % 2 ^ 64)

variable {key : T.LogId} {value : T.LogPayload}

theorem total_eq_entriesSize (m : OrderedMap T.LogId T.LogPayload) :
    m.total T.payloadSize = entriesSize m.entries := by
  simp only [OrderedMap.total, OrderedMap.values, entriesSize, List.map_map, Function.comp_def]

theorem entriesSize_append (before after : List (T.LogId × T.LogPayload)) :
    entriesSize (before ++ after) = entriesSize before + entriesSize after := by
  simp [entriesSize]

theorem needEvict_iff {c : PayloadCache T} :
    c.needEvict = true ↔ c.maxItems < c.cache.entries.length ∨ c.capacity < c.size := by
  simp [needEvict, OrderedMap.len]

/-- However often the count wraps, it is right modulo `2 ^ 64`. -/
theorem Pops.size_eq {c₀ : PayloadCache T} (hmodular : c₀.Modular)
    (h : Pops OrderedMap.front EvictsNext c₀ front c') :
    c'.size = entriesSize c'.cache.entries % 2 ^ 64 := by
  rw [← total_eq_entriesSize]
  exact h.preserves subUsize_modular hmodular

/-- Only evictable entries are taken out. -/
theorem Pops.forall_evictable {c₀ : PayloadCache T}
    (h : Pops OrderedMap.front EvictsNext c₀ front c') :
    ∀ e ∈ front, some e.1 ≤ c₀.lastEvictable :=
  h.forall_taken (p := fun k => some k ≤ c₀.lastEvictable)
    fun c₁ logId heq (hcond : c₁.EvictsNext logId) => heq ▸ hcond.2

/-- If the first entry is above the boundary, all are. -/
theorem forall_above_of_head {m : OrderedMap T.LogId T.LogPayload} {boundary : Option T.LogId}
    (hhead : ∀ e ∈ m.entries.head?, boundary < some e.1) :
    ∀ e ∈ m.entries, boundary < some e.1 := by
  intro e he
  have hget := OrderedMap.get_eq_some_iff.mpr he
  obtain ⟨first, hfirst⟩ := OrderedMap.exists_firstKeyValue hget
  have hle := (OrderedMap.firstKeyValue_eq_some hfirst).2 e.1 e.2 hget
  exact (hhead first hfirst).trans_le (Option.some_le_some.mpr hle)

/-- Before each entry that it takes out, `try_evict` finds a limit exceeded by `size`. -/
theorem Pops.interrupted {c₀ : PayloadCache T} (hmodular : c₀.Modular)
    (h : Pops OrderedMap.front EvictsNext c₀ front c')
    {before after : List (T.LogId × T.LogPayload)}
    (hentries : c₀.cache.entries = before ++ after) (hlt : before.length < front.length) :
    (∃ e ∈ after.head?, some e.1 ≤ c₀.lastEvictable) ∧
      (c₀.maxItems < after.length ∨ c₀.capacity < entriesSize after % 2 ^ 64) := by
  obtain ⟨e, rest, rfl⟩ : ∃ e rest, front = before ++ e :: rest := by
    have hsplit := hentries.symm.trans h.dropped_front.entries
    rw [List.append_nil] at hsplit
    have hprefix : before <+: front :=
      List.prefix_of_prefix_length_le ⟨after, hsplit⟩ (List.prefix_append _ _) hlt.le
    obtain ⟨rest, rfl⟩ := hprefix
    cases rest with
    | nil => simp at hlt
    | cons e rest => exact ⟨e, rest, rfl⟩
  obtain ⟨c₁, hbefore, hafter⟩ := h.split
  have hdrop := hbefore.dropped_front
  have hafterEntries : c₁.cache.entries = after := by
    have happend := hentries.symm.trans hdrop.entries
    rw [List.append_nil] at happend
    exact (List.append_cancel_left happend).symm
  have hsize : c₁.size = entriesSize after % 2 ^ 64 := by
    rw [← hafterEntries]
    exact hbefore.size_eq hmodular
  cases hafter with
  | step hpop hcond hsub htail =>
      obtain ⟨hneed, hevictable⟩ := hcond
      rw [needEvict_iff, hdrop.maxItems, hdrop.capacity, hafterEntries, hsize] at hneed
      have hhead := OrderedMap.popFirst_eq_some_iff.mp hpop
      rw [hafterEntries] at hhead
      exact ⟨⟨e, by simp [hhead], hdrop.lastEvictable ▸ hevictable⟩, hneed⟩

/-- What an insertion does: the sum is counted up to a wrap, and then the loop runs until it finds
no limit exceeded by `size`, or no entry that is evictable. -/
theorem insert_pops (hcounted : c.Counted) (hnew : c.get key = none)
    (h : c.insert key value = .ok c') :
    ∃ size front, T.addUsize c.size (T.payloadSize value) = .ok size ∧
      PayloadCache.Modular { c with size := size, cache := c.cache.insert key value } ∧
      Pops OrderedMap.front EvictsNext
        { c with size := size, cache := c.cache.insert key value } front c' ∧
      ∀ e ∈ c'.cache.entries.head?, ¬ c'.EvictsNext e.1 := by
  obtain ⟨size, hsize, hevict⟩ := Except.bind_eq_ok.mp h
  rw [tryEvict, tryEvictLoop_eq] at hevict
  obtain ⟨⟨front, htaken⟩, hstop⟩ := popWhile_ok hevict
  refine ⟨size, front, hsize, ?_, htaken, fun e he => ?_⟩
  · have htotal := OrderedMap.total_insert T.payloadSize c.cache key value
    simp only [get] at hnew
    simp only [hnew, Option.map_none, Option.getD_none, Nat.add_zero] at htotal
    simp only [Counted] at hcounted
    simp only [Modular, htotal, ← hcounted]
    simp only [Types.addUsize, Types.addU64] at hsize
    split_ifs at hsize with hle
    · have := Except.ok.inj hsize
      simp only [u64Max] at hle
      omega
    · exact (Except.ok.inj hsize).symm
  · obtain ⟨rest, hpop⟩ := OrderedMap.exists_popFirst he
    exact hstop le_rfl e rest hpop

/-- A sum that fits has nothing to recover from. -/
theorem SumRecovers.of_le (hcounted : c.Counted) (hle : c.size + T.payloadSize value ≤ u64Max) :
    SumRecovers c key value := by
  refine ⟨fun _ => hle, fun before after hsplit _ hover => absurd hover (not_lt.mpr ?_)⟩
  calc entriesSize after
      ≤ entriesSize (before ++ after) := by rw [entriesSize_append]; omega
    _ = (c.cache.insert key value).total T.payloadSize := by rw [total_eq_entriesSize, hsplit]
    _ ≤ c.cache.total T.payloadSize + T.payloadSize value := OrderedMap.total_insert_le _ _ _ _
    _ = c.size + T.payloadSize value := by rw [hcounted]
    _ ≤ u64Max := hle

/-- A run that ends with a count that is right has recovered from a wrap. -/
theorem EvictsMinimally.sumRecovers (hcounted : c.Counted) (hnew : c.get key = none)
    (h : EvictsMinimally c key value) : SumRecovers c key value := by
  obtain ⟨c', hinsert, -, hminimal⟩ := h
  obtain ⟨size, front, -, hmodular, hpops, -⟩ := insert_pops hcounted hnew hinsert
  have hentries := hpops.dropped_front.entries
  simp only [List.append_nil] at hentries
  have hfits : entriesSize c'.cache.entries ≤ u64Max := by
    have hmodular' := hpops.size_eq hmodular
    have hcounted' : c'.size = entriesSize c'.cache.entries := by
      rw [← total_eq_entriesSize]
      exact hminimal.counted
    simp only [u64Max]
    omega
  refine ⟨(insert_isOk_iff fun _ => hcounted.ge).mp ⟨c', hinsert⟩, ?_⟩
  intro before after hsplit _ hover
  refine hpops.interrupted hmodular hsplit ?_
  -- otherwise `after` is a part of what is left in the end
  by_contra hge
  have hprefix : front <+: before :=
    List.prefix_of_prefix_length_le ⟨_, hentries.symm⟩ ⟨_, hsplit.symm⟩ (not_lt.mp hge)
  obtain ⟨more, rfl⟩ := hprefix
  rw [hsplit, List.append_assoc] at hentries
  have hafter := congrArg entriesSize (List.append_cancel_left hentries)
  rw [entriesSize_append] at hafter
  omega

/-- The loop does not stop before what is left fits. -/
theorem SumRecovers.fits (h : SumRecovers c key value) {size : ℕ}
    (hmodular : PayloadCache.Modular { c with size := size, cache := c.cache.insert key value })
    (hpops : Pops OrderedMap.front EvictsNext
      { c with size := size, cache := c.cache.insert key value } front c')
    (hstop : ∀ e ∈ c'.cache.entries.head?, ¬ c'.EvictsNext e.1) :
    entriesSize c'.cache.entries ≤ u64Max := by
  have hdrop := hpops.dropped_front
  have hentries : (c.cache.insert key value).entries = front ++ c'.cache.entries := by
    simpa using hdrop.entries
  by_contra hover
  obtain ⟨⟨e, he, hevictable⟩, hexceeded⟩ :=
    h.wrapped front c'.cache.entries hentries hpops.forall_evictable (not_le.mp hover)
  refine hstop e he ⟨?_, hdrop.lastEvictable ▸ hevictable⟩
  rw [needEvict_iff, hdrop.maxItems, hdrop.capacity, hpops.size_eq hmodular]
  exact hexceeded

/-- Where the loop stops with the right count, a shorter prefix would not have done. -/
theorem minimallyEvicted_of_pops {size : ℕ}
    (hmodular : PayloadCache.Modular { c with size := size, cache := c.cache.insert key value })
    (hpops : Pops OrderedMap.front EvictsNext
      { c with size := size, cache := c.cache.insert key value } front c')
    (hstop : ∀ e ∈ c'.cache.entries.head?, ¬ c'.EvictsNext e.1)
    (hsize : c'.size = entriesSize c'.cache.entries) : MinimallyEvicted c key value c' := by
  have hdrop := hpops.dropped_front
  have hfront := hpops.forall_evictable
  have hentries : (c.cache.insert key value).entries = front ++ c'.cache.entries := by
    simpa using hdrop.entries
  have hmayStop : c.MayStop c'.cache.entries := by
    by_cases hneed : c'.needEvict = true
    · refine Or.inr fun e he => not_le.mp fun hevictable => ?_
      exact hstop e he ⟨hneed, hdrop.lastEvictable ▸ hevictable⟩
    · rw [needEvict_iff, hdrop.maxItems, hdrop.capacity, hsize] at hneed
      rw [not_or, not_lt, not_lt] at hneed
      exact Or.inl hneed
  refine ⟨hdrop.maxItems, hdrop.capacity, hdrop.lastEvictable,
    ⟨front, hentries, hfront, hmayStop, ?_⟩, ?_, ?_, ?_⟩
  · -- in front of `after` the loop went on, so a limit was exceeded and the entry evictable
    intro before after hsplit hstops
    by_contra hlt
    obtain ⟨⟨e, he, hevictable⟩, hexceeded⟩ :=
      hpops.interrupted hmodular hsplit (not_le.mp hlt)
    rcases hstops with ⟨hlen, hsum⟩ | habove
    · have hmod := Nat.mod_le (entriesSize after) (2 ^ 64)
      simp only at hexceeded
      omega
    · exact absurd (habove e he) (not_lt.mpr hevictable)
  · intro e he habove
    rw [hentries] at he
    rcases List.mem_append.mp he with he | he
    · exact absurd habove (not_lt.mpr (hfront e he))
    · exact he
  · intro hexceeded
    exact forall_above_of_head (hmayStop.resolve_left hexceeded)
  · rw [Counted, hsize, total_eq_entriesSize]

theorem SumRecovers.evictsMinimally (hcounted : c.Counted) (hnew : c.get key = none)
    (h : SumRecovers c key value) : EvictsMinimally c key value := by
  obtain ⟨c', hinsert⟩ := (insert_isOk_iff fun _ => hcounted.ge).mpr h.checked
  obtain ⟨size, front, hsize, hmodular, hpops, hstop⟩ := insert_pops hcounted hnew hinsert
  have hcounted' : c'.size = entriesSize c'.cache.entries := by
    have hfits := h.fits hmodular hpops hstop
    have hmodular' := hpops.size_eq hmodular
    simp only [u64Max] at hfits
    omega
  refine ⟨c', hinsert, ⟨size, hsize, fun n hn => ?_⟩,
    minimallyEvicted_of_pops hmodular hpops hstop hcounted'⟩
  obtain ⟨size', hsize', hevict⟩ := Except.bind_eq_ok.mp hinsert
  obtain rfl := Except.ok.inj (hsize.symm.trans hsize')
  rw [tryEvictLoop_eq_of_len_le hn]
  exact hevict

end PayloadCache

/-! ## The results -/

variable {c : PayloadCache T}

/-- `truncate_after` and `purge_upto` come to an end.  They leave the entries at or below the key,
and the entries above the key or above the boundary, and the size is what these add up to. -/
theorem pruning_keeps (hcounted : c.Counted) (key : T.LogId) :
    (c.truncateAfter key = .ok (c.keep fun logId => logId ≤ key) ∧
      ∀ n, c.cache.len ≤ n → PayloadCache.truncateAfterLoop key n c = c.truncateAfter key) ∧
    (c.purgeUpto key =
        .ok (c.keep fun logId => key < logId ∨ c.lastEvictable < some logId) ∧
      ∀ n, c.cache.len ≤ n → PayloadCache.purgeUptoLoop key n c = c.purgeUpto key) :=
  ⟨⟨PayloadCache.truncateAfter_eq_keep hcounted key,
      fun _ => PayloadCache.truncateAfterLoop_eq_of_len_le key⟩,
    PayloadCache.purgeUpto_eq_keep hcounted key,
    fun _ => PayloadCache.purgeUptoLoop_eq_of_len_le key⟩

/-- Eviction by `insert` is minimal exactly if the sum is counted right in the end, and
`drain_evictable` always leaves the entries above the boundary. -/
theorem eviction_minimal_iff (hcounted : c.Counted) :
    (c.drainEvictable = .ok (c.keep fun logId => c.lastEvictable < some logId) ∧
      ∀ n, c.cache.len ≤ n → PayloadCache.drainEvictableLoop n c = c.drainEvictable) ∧
    ∀ key value, c.get key = none →
      (c.EvictsMinimally key value ↔ c.SumRecovers key value) :=
  ⟨⟨PayloadCache.drainEvictable_eq_keep hcounted,
      fun _ => PayloadCache.drainEvictableLoop_eq_of_len_le⟩,
    fun _ _ hnew => ⟨PayloadCache.EvictsMinimally.sumRecovers hcounted hnew,
      PayloadCache.SumRecovers.evictsMinimally hcounted hnew⟩⟩

/-- The limits, the boundary and the payloads of the test of the source. -/
def twoSmallEntries : PayloadCache (exampleTypes true) :=
  ⟨2, 10, 6, ((∅ : OrderedMap _ _).insert ⟨1, 1⟩ 3).insert ⟨1, 2⟩ 3, some ⟨1, 10⟩⟩

theorem pruning_keeps_twoSmallEntries :
    twoSmallEntries.truncateAfter ⟨1, 1⟩ =
        .ok (twoSmallEntries.keep fun logId => logId ≤ (⟨1, 1⟩ : TermIndex)) ∧
      (twoSmallEntries.keep fun logId => logId ≤ (⟨1, 1⟩ : TermIndex)).cache.entries =
        [(⟨1, 1⟩, 3)] :=
  ⟨((pruning_keeps (by decide +kernel)) _).1.1, by decide +kernel⟩

theorem eviction_minimal_iff_twoSmallEntries :
    twoSmallEntries.EvictsMinimally ⟨1, 3⟩ 3 ∧
      ∃ c', twoSmallEntries.insert ⟨1, 3⟩ 3 = .ok c' ∧
        c'.cache.entries = [(⟨1, 2⟩, 3), (⟨1, 3⟩, 3)] :=
  ⟨((eviction_minimal_iff (by decide +kernel)).2 _ _ (by decide +kernel)).mpr
      (PayloadCache.SumRecovers.of_le (by decide +kernel) (by decide +kernel)),
    by decide +kernel⟩

/-- The one entry is evictable, and as large as a payload can be. -/
def oneLargeEntry (checks : Bool) (maxItems : ℕ) : PayloadCache (exampleTypes checks) :=
  ⟨maxItems, 10, u64Max, (∅ : OrderedMap _ _).insert ⟨1, 1⟩ ⟨u64Max, by decide⟩, some ⟨1, 1⟩⟩

/-- The sum is one above `usize::MAX`: no limit seems to be exceeded. -/
theorem eviction_minimal_iff_oneLargeEntry :
    (oneLargeEntry false 2).Counted ∧ (oneLargeEntry false 2).get ⟨1, 2⟩ = none ∧
      (∃ c', (oneLargeEntry false 2).insert ⟨1, 2⟩ 1 = .ok c' ∧
        c'.cache.len = 2 ∧ c'.size = 0 ∧ c'.cache.total Fin.val = 2 ^ 64) ∧
      ¬ (oneLargeEntry false 2).EvictsMinimally ⟨1, 2⟩ 1 ∧
      ¬ (oneLargeEntry true 2).EvictsMinimally ⟨1, 2⟩ 1 := by
  have hinsert : ∃ c', (oneLargeEntry false 2).insert ⟨1, 2⟩ 1 = .ok c' ∧
      c'.cache.len = 2 ∧ c'.size = 0 ∧ c'.cache.total Fin.val = 2 ^ 64 := by decide +kernel
  have hpanic : ¬ ∃ c', (oneLargeEntry true 2).insert ⟨1, 2⟩ 1 = .ok c' ∧ True := by
    decide +kernel
  refine ⟨by decide +kernel, by decide +kernel, hinsert, ?_, ?_⟩
  · rintro ⟨c', hc', -, hminimal⟩
    obtain ⟨c'', hc'', -, hsize, htotal⟩ := hinsert
    obtain rfl := Except.ok.inj (hc'.symm.trans hc'')
    have hcounted : c'.size = c'.cache.total Fin.val := hminimal.counted
    omega
  · rintro ⟨c', hc', -, -⟩
    exact hpanic ⟨c', hc', trivial⟩

/-- With one item less allowed, the loop goes on, and the subtraction wraps back. -/
example : ∃ c', (oneLargeEntry false 1).insert ⟨1, 2⟩ 1 = .ok c' ∧
    c'.cache.len = 1 ∧ c'.size = 1 := by decide +kernel

end RaftLogStore
