import Mathlib.Algebra.GroupWithZero.Nat
import Mathlib.Order.Basic
import Mathlib.Data.List.Basic
import Mathlib.Data.List.Pairwise
import Mathlib.Data.List.Sort
import Mathlib.Tactic.Order
import RaftLogStore.Lib.SortedList

/-!
# Ordered maps

A map from a linearly ordered key type, kept as the list of its entries in strictly
increasing key order.  The order is a field of the structure, so a map with a repeated or a
misplaced key cannot be built, and two maps with the same lookups are equal (`ext_get`).

The operations are those of a Rust `BTreeMap`: lookup, insertion that replaces, the two ends,
popping an end, and cutting at a key.  Every operation is described by its lookups; the ends
are described by bounds on the keys.
-/

/-- A finite map with its entries in strictly increasing key order. -/
@[ext] structure OrderedMap (κ ν : Type*) [LinearOrder κ] where
  entries : List (κ × ν)
  sorted : entries.Pairwise fun a b => a.1 < b.1

namespace OrderedMap

variable {κ ν : Type*} [LinearOrder κ]

instance [DecidableEq ν] : DecidableEq (OrderedMap κ ν) := fun m m' =>
  decidable_of_iff (m.entries = m'.entries) OrderedMap.ext_iff.symm

/-- The map with no entry. -/
def empty : OrderedMap κ ν := ⟨[], List.Pairwise.nil⟩

instance : EmptyCollection (OrderedMap κ ν) := ⟨empty⟩

/-- The value of the first entry with key `k`. -/
def lookupEntry (k : κ) : List (κ × ν) → Option ν
  | [] => none
  | e :: rest => if e.1 = k then some e.2 else lookupEntry k rest

/-- The value stored at `k`. -/
def get (m : OrderedMap κ ν) (k : κ) : Option ν := lookupEntry k m.entries

/-- The number of entries. -/
def len (m : OrderedMap κ ν) : ℕ := m.entries.length

/-- The values in key order. -/
def values (m : OrderedMap κ ν) : List ν := m.entries.map Prod.snd

/-- The entry with the smallest key. -/
def firstKeyValue (m : OrderedMap κ ν) : Option (κ × ν) := m.entries.head?

/-- The entry with the greatest key. -/
def lastKeyValue (m : OrderedMap κ ν) : Option (κ × ν) := m.entries.getLast?

/-- Put `(k, v)` into a sorted entry list, replacing an entry of the same key. -/
def insertEntry (k : κ) (v : ν) : List (κ × ν) → List (κ × ν)
  | [] => [(k, v)]
  | e :: rest =>
      if k < e.1 then (k, v) :: e :: rest
      else if k = e.1 then (k, v) :: rest
      else e :: insertEntry k v rest

theorem mem_of_mem_insertEntry {k : κ} {v : ν} {e : κ × ν} :
    ∀ {l : List (κ × ν)}, e ∈ insertEntry k v l → e = (k, v) ∨ e ∈ l := by
  intro l
  induction l with
  | nil => simp [insertEntry]
  | cons head rest ih =>
      unfold insertEntry
      split_ifs
      · simp
      · intro h
        rcases List.mem_cons.mp h with h | h
        · exact Or.inl h
        · exact Or.inr (List.mem_cons_of_mem _ h)
      · intro h
        rcases List.mem_cons.mp h with rfl | h
        · exact Or.inr List.mem_cons_self
        · exact (ih h).imp_right (List.mem_cons_of_mem _)

theorem pairwise_insertEntry {k : κ} {v : ν} :
    ∀ {l : List (κ × ν)}, l.Pairwise (fun a b => a.1 < b.1) →
      (insertEntry k v l).Pairwise fun a b => a.1 < b.1 := by
  intro l
  induction l with
  | nil => intro _; simp [insertEntry]
  | cons head rest ih =>
      intro h
      obtain ⟨hhead, hrest⟩ := List.pairwise_cons.mp h
      unfold insertEntry
      split_ifs with hlt heq
      · refine List.pairwise_cons.mpr ⟨?_, h⟩
        intro e he
        rcases List.mem_cons.mp he with rfl | he
        · exact hlt
        · exact hlt.trans (hhead e he)
      · exact List.pairwise_cons.mpr ⟨fun e he => heq ▸ hhead e he, hrest⟩
      · refine List.pairwise_cons.mpr ⟨?_, ih hrest⟩
        intro e he
        rcases mem_of_mem_insertEntry he with rfl | he
        · exact lt_of_le_of_ne (not_lt.mp hlt) (Ne.symm heq)
        · exact hhead e he

/-- Store `v` at `k`, replacing what was there. -/
def insert (m : OrderedMap κ ν) (k : κ) (v : ν) : OrderedMap κ ν :=
  ⟨insertEntry k v m.entries, pairwise_insertEntry m.sorted⟩

/-- The entries that satisfy `p`. -/
def filter (m : OrderedMap κ ν) (p : κ × ν → Bool) : OrderedMap κ ν :=
  ⟨m.entries.filter p, m.sorted.filter p⟩

/-- Cut the map at `k`: the entries below `k`, and those at `k` and above.  Rust's
`split_off(&k)` leaves the first in place and returns the second. -/
def splitOff (m : OrderedMap κ ν) (k : κ) : OrderedMap κ ν × OrderedMap κ ν :=
  (m.filter fun e => e.1 < k, m.filter fun e => k ≤ e.1)

/-- The entries with a key in `[low, high)`. -/
def range (m : OrderedMap κ ν) (low high : κ) : OrderedMap κ ν :=
  m.filter fun e => low ≤ e.1 ∧ e.1 < high

/-- Take the entry with the smallest key out of the map. -/
def popFirst (m : OrderedMap κ ν) : Option ((κ × ν) × OrderedMap κ ν) :=
  match m with
  | ⟨[], _⟩ => none
  | ⟨e :: rest, h⟩ => some (e, ⟨rest, h.of_cons⟩)

/-- Take the entry with the greatest key out of the map. -/
def popLast (m : OrderedMap κ ν) : Option ((κ × ν) × OrderedMap κ ν) :=
  m.entries.getLast?.map fun e =>
    (e, ⟨m.entries.dropLast, m.sorted.sublist (List.dropLast_sublist _)⟩)

/-! ## Lookups -/

theorem get_eq_some_iff {m : OrderedMap κ ν} {k : κ} {v : ν} :
    m.get k = some v ↔ (k, v) ∈ m.entries := by
  obtain ⟨l, hl⟩ := m
  simp only [get]
  induction l with
  | nil => simp [lookupEntry]
  | cons e rest ih =>
      obtain ⟨hhead, hrest⟩ := List.pairwise_cons.mp hl
      obtain ⟨k', v'⟩ := e
      simp only [lookupEntry, List.mem_cons, Prod.mk.injEq]
      split_ifs with hk
      · subst hk
        constructor
        · exact fun h => Or.inl ⟨rfl, (Option.some.inj h).symm⟩
        · rintro (h | h)
          · rw [h.2]
          · exact absurd (hhead _ h) (lt_irrefl _)
      · rw [ih hrest]
        constructor
        · exact Or.inr
        · rintro (⟨rfl, -⟩ | h)
          · exact absurd rfl hk
          · exact h

theorem get_eq_none_iff {m : OrderedMap κ ν} {k : κ} :
    m.get k = none ↔ ∀ v, (k, v) ∉ m.entries := by
  rw [Option.eq_none_iff_forall_ne_some]
  simp only [ne_eq, get_eq_some_iff]

/-- Maps with the same lookups are equal. -/
theorem ext_get {m m' : OrderedMap κ ν} (h : ∀ k, m.get k = m'.get k) : m = m' := by
  have hmem : ∀ e, e ∈ m.entries ↔ e ∈ m'.entries := by
    rintro ⟨k, v⟩
    rw [← get_eq_some_iff, ← get_eq_some_iff, h]
  have hnodup : ∀ n : OrderedMap κ ν, n.entries.Nodup := fun n =>
    n.sorted.imp fun {a b} hab heq => by
      subst heq
      exact lt_irrefl _ hab
  apply OrderedMap.ext
  exact ((List.perm_ext_iff_of_nodup (hnodup m) (hnodup m')).mpr hmem).eq_of_pairwise
    (fun a b _ _ hab hba => absurd hab (not_lt.mpr hba.le)) m.sorted m'.sorted

@[simp] theorem entries_empty : (∅ : OrderedMap κ ν).entries = [] := rfl

@[simp] theorem get_empty (k : κ) : (∅ : OrderedMap κ ν).get k = none := rfl

theorem lookupEntry_insertEntry (k k' : κ) (v : ν) :
    ∀ l : List (κ × ν), lookupEntry k' (insertEntry k v l) =
      if k' = k then some v else lookupEntry k' l := by
  intro l
  induction l with
  | nil => simp [insertEntry, lookupEntry, eq_comm]
  | cons e rest ih =>
      unfold insertEntry
      by_cases hlt : k < e.1
      · simp [lookupEntry, hlt, eq_comm]
      · by_cases heq : k = e.1
        · subst heq
          by_cases hk : k' = e.1
          · simp [lookupEntry, hk]
          · simp [lookupEntry, hk, Ne.symm hk]
        · by_cases hk : k' = k
          · subst hk
            simp [lookupEntry, hlt, heq, Ne.symm heq, ih]
          · simp [lookupEntry, hlt, heq, hk, ih]

theorem get_insert (m : OrderedMap κ ν) (k k' : κ) (v : ν) :
    (m.insert k v).get k' = if k' = k then some v else m.get k' :=
  lookupEntry_insertEntry k k' v m.entries

@[simp] theorem get_insert_self (m : OrderedMap κ ν) (k : κ) (v : ν) :
    (m.insert k v).get k = some v := by
  simp [get_insert]

theorem get_insert_of_ne (m : OrderedMap κ ν) {k k' : κ} (v : ν) (h : k' ≠ k) :
    (m.insert k v).get k' = m.get k' := by
  simp [get_insert, h]

/-- What the map holds after values with different keys have been inserted one after the other. -/
theorem get_foldl_insert {key : ν → κ} {l : List ν} (hkeys : (l.map key).Nodup)
    {m : OrderedMap κ ν} {k : κ} {v : ν} :
    (l.foldl (fun m v => m.insert (key v) v) m).get k = some v ↔
      (v ∈ l ∧ key v = k) ∨ (∀ w ∈ l, key w ≠ k) ∧ m.get k = some v := by
  induction l generalizing m with
  | nil => simp
  | cons w l ih =>
      rw [List.map_cons, List.nodup_cons] at hkeys
      rw [List.foldl_cons, ih hkeys.2, get_insert]
      by_cases hk : k = key w
      · subst hk
        -- no later value has the key of `w`
        have hlater : ∀ u ∈ l, key u ≠ key w := fun u hu heq =>
          hkeys.1 (heq ▸ List.mem_map_of_mem hu)
        constructor
        · rintro (⟨hv, hkey⟩ | ⟨-, hv⟩)
          · exact absurd hkey (hlater v hv)
          · obtain rfl : w = v := by simpa using hv
            exact Or.inl ⟨List.mem_cons_self, rfl⟩
        · rintro (⟨hv, hkey⟩ | ⟨hnone, -⟩)
          · rcases List.mem_cons.mp hv with rfl | hv
            · exact Or.inr ⟨hlater, by simp⟩
            · exact absurd hkey (hlater v hv)
          · exact absurd rfl (hnone w List.mem_cons_self)
      · simp only [if_neg hk, List.mem_cons, forall_eq_or_imp]
        constructor
        · rintro (⟨hv, hkey⟩ | ⟨hnone, hget⟩)
          · exact Or.inl ⟨Or.inr hv, hkey⟩
          · exact Or.inr ⟨⟨fun heq => hk heq.symm, hnone⟩, hget⟩
        · rintro (⟨rfl | hv, hkey⟩ | ⟨⟨-, hnone⟩, hget⟩)
          · exact absurd hkey.symm hk
          · exact Or.inl ⟨hv, hkey⟩
          · exact Or.inr ⟨hnone, hget⟩

theorem get_filter_eq_some_iff {m : OrderedMap κ ν} {p : κ × ν → Bool} {k : κ} {v : ν} :
    (m.filter p).get k = some v ↔ m.get k = some v ∧ p (k, v) = true := by
  rw [get_eq_some_iff, get_eq_some_iff]
  exact List.mem_filter

theorem get_filter (m : OrderedMap κ ν) (p : κ × ν → Bool) (k : κ) :
    (m.filter p).get k = (m.get k).filter fun v => p (k, v) := by
  ext v
  simp only [Option.filter_eq_some_iff, get_filter_eq_some_iff]

theorem get_splitOff_fst (m : OrderedMap κ ν) (k k' : κ) :
    (m.splitOff k).1.get k' = if k' < k then m.get k' else none := by
  rw [splitOff, get_filter]
  by_cases h : k' < k <;> cases m.get k' <;> simp [h]

theorem get_splitOff_snd (m : OrderedMap κ ν) (k k' : κ) :
    (m.splitOff k).2.get k' = if k ≤ k' then m.get k' else none := by
  rw [splitOff, get_filter]
  by_cases h : k ≤ k' <;> cases m.get k' <;> simp [h]

theorem get_range_eq_some_iff {m : OrderedMap κ ν} {low high k : κ} {v : ν} :
    (m.range low high).get k = some v ↔ m.get k = some v ∧ low ≤ k ∧ k < high := by
  simp [range, get_filter_eq_some_iff]

/-- The values of a range are a slice of all values: those behind the ones below it. -/
theorem values_range (m : OrderedMap κ ν) (low high : κ) :
    (m.range low high).values =
      (m.values.drop (m.splitOff low).1.len).take (m.range low high).len := by
  have hlow := List.filter_append_filter_not (l := m.entries) (p := fun e => decide (e.1 < low))
    (m.sorted.imp fun {a b} hab hb => by
      simp only [decide_eq_true_eq] at hb ⊢
      exact hab.trans hb)
  have hhigh := List.filter_append_filter_not
    (l := m.entries.filter fun e => !decide (e.1 < low)) (p := fun e => decide (e.1 < high))
    ((m.sorted.filter _).imp fun {a b} hab hb => by
      simp only [decide_eq_true_eq] at hb ⊢
      exact hab.trans hb)
  have hrange : (m.range low high).entries =
      (m.entries.filter fun e => !decide (e.1 < low)).filter fun e => decide (e.1 < high) := by
    simp only [range, filter, List.filter_filter]
    refine List.filter_congr fun e _ => ?_
    by_cases h : low ≤ e.1 <;> by_cases h' : e.1 < high <;> simp [h, h', not_le.mp]
  rw [← hhigh, ← hrange] at hlow
  simp only [values, len, ← List.map_drop, ← List.map_take]
  congr 1
  conv_rhs => rw [← hlow]
  have hbelow : (m.splitOff low).1.entries = m.entries.filter fun e => decide (e.1 < low) := rfl
  rw [← hbelow, List.drop_left, List.take_left]

/-- The values of a range of indexes, looked up one index after the other. -/
theorem values_range_nat {ν : Type*} (m : OrderedMap ℕ ν) (low high : ℕ) :
    (m.range low high).values = (List.range' low (high - low)).filterMap m.get := by
  have hsorted : ((List.range' low (high - low)).filterMap fun k =>
      (m.get k).map fun v => (k, v)).Pairwise fun a b => a.1 < b.1 := by
    refine List.pairwise_filterMap.mpr (List.Pairwise.imp ?_ List.pairwise_lt_range')
    intro k k' hlt e he e' he'
    obtain ⟨v, -, rfl⟩ := Option.map_eq_some_iff.mp he
    obtain ⟨v', -, rfl⟩ := Option.map_eq_some_iff.mp he'
    exact hlt
  have : Std.Irrefl fun a b : ℕ × ν => a.1 < b.1 := ⟨fun a => Nat.lt_irrefl a.1⟩
  have hentries : (m.range low high).entries = (List.range' low (high - low)).filterMap fun k =>
      (m.get k).map fun v => (k, v) := by
    refine (m.range low high).sorted.eq_of_mem_iff hsorted fun ⟨k, v⟩ => ?_
    rw [← get_eq_some_iff, get_range_eq_some_iff, List.mem_filterMap]
    constructor
    · rintro ⟨hget, hlow, hhigh⟩
      exact ⟨k, List.mem_range'_1.mpr ⟨hlow, by omega⟩, by rw [hget]; rfl⟩
    · rintro ⟨k', hk', hget⟩
      obtain ⟨v', hv', heq⟩ := Option.map_eq_some_iff.mp hget
      obtain ⟨rfl, rfl⟩ := Prod.mk.inj heq
      have hbounds := List.mem_range'_1.mp hk'
      exact ⟨hv', hbounds.1, by omega⟩
  rw [values, hentries, List.map_filterMap]
  refine List.filterMap_congr fun k _ => ?_
  cases m.get k <;> rfl

/-! ## Filters commute with the other operations -/

theorem filter_filter_comm (m : OrderedMap κ ν) (p q : κ × ν → Bool) :
    (m.filter p).filter q = (m.filter q).filter p := by
  apply OrderedMap.ext
  simp only [filter, List.filter_filter, Bool.and_comm]

theorem filter_insert_of_pos (m : OrderedMap κ ν) {p : κ × ν → Bool} {k : κ} {v : ν}
    (h : p (k, v) = true) :
    (m.insert k v).filter p = (m.filter p).insert k v := by
  apply ext_get
  intro k'
  rw [get_filter, get_insert, get_insert, get_filter]
  by_cases hk : k' = k
  · simp [hk, h]
  · simp [hk]

theorem filter_eq_self {m : OrderedMap κ ν} {p : κ × ν → Bool}
    (h : ∀ k v, m.get k = some v → p (k, v) = true) : m.filter p = m := by
  apply OrderedMap.ext
  exact List.filter_eq_self.mpr fun e he => h e.1 e.2 (get_eq_some_iff.mpr he)

theorem filter_eq_empty {m : OrderedMap κ ν} {p : κ × ν → Bool}
    (h : ∀ k v, m.get k = some v → p (k, v) = false) : m.filter p = ∅ := by
  apply OrderedMap.ext
  refine List.filter_eq_nil_iff.mpr fun e he => ?_
  simp [h e.1 e.2 (get_eq_some_iff.mpr he)]

/-! ## The ends -/

theorem firstKeyValue_eq_none_iff {m : OrderedMap κ ν} :
    m.firstKeyValue = none ↔ ∀ k, m.get k = none := by
  simp only [firstKeyValue, List.head?_eq_none_iff, get_eq_none_iff]
  constructor
  · intro h k v
    simp [h]
  · intro h
    exact List.eq_nil_iff_forall_not_mem.mpr fun e => h e.1 e.2

theorem lastKeyValue_eq_none_iff {m : OrderedMap κ ν} :
    m.lastKeyValue = none ↔ ∀ k, m.get k = none := by
  rw [← firstKeyValue_eq_none_iff]
  simp [lastKeyValue, firstKeyValue]

/-- The first entry is held, and no held key is below its key. -/
theorem firstKeyValue_eq_some {m : OrderedMap κ ν} {k : κ} {v : ν}
    (h : m.firstKeyValue = some (k, v)) :
    m.get k = some v ∧ ∀ k' v', m.get k' = some v' → k ≤ k' := by
  obtain ⟨l, hl⟩ := m
  obtain ⟨rest, rfl⟩ := List.head?_eq_some_iff.mp h
  refine ⟨get_eq_some_iff.mpr List.mem_cons_self, fun k' v' hk' => ?_⟩
  rcases List.mem_cons.mp (get_eq_some_iff.mp hk') with heq | hmem
  · exact (congrArg Prod.fst heq).ge
  · exact ((List.pairwise_cons.mp hl).1 _ hmem).le

/-- The last entry is held, and no held key is above its key. -/
theorem lastKeyValue_eq_some {m : OrderedMap κ ν} {k : κ} {v : ν}
    (h : m.lastKeyValue = some (k, v)) :
    m.get k = some v ∧ ∀ k' v', m.get k' = some v' → k' ≤ k := by
  obtain ⟨l, hl⟩ := m
  obtain ⟨front, rfl⟩ := List.getLast?_eq_some_iff.mp h
  refine ⟨get_eq_some_iff.mpr (by simp), fun k' v' hk' => ?_⟩
  rcases List.mem_append.mp (get_eq_some_iff.mp hk') with hmem | hmem
  · exact ((List.pairwise_append.mp hl).2.2 _ hmem (k, v) (by simp)).le
  · simp only [List.mem_singleton] at hmem
    exact (congrArg Prod.fst hmem).le

theorem exists_lastKeyValue {m : OrderedMap κ ν} {k : κ} {v : ν} (h : m.get k = some v) :
    ∃ e, m.lastKeyValue = some e := by
  cases hl : m.lastKeyValue with
  | none =>
      rw [lastKeyValue_eq_none_iff.mp hl k] at h
      exact absurd h (by simp)
  | some e => exact ⟨e, rfl⟩

theorem exists_firstKeyValue {m : OrderedMap κ ν} {k : κ} {v : ν} (h : m.get k = some v) :
    ∃ e, m.firstKeyValue = some e := by
  cases hl : m.firstKeyValue with
  | none =>
      rw [firstKeyValue_eq_none_iff.mp hl k] at h
      exact absurd h (by simp)
  | some e => exact ⟨e, rfl⟩

/-- A property that passes from a held entry to every later one holds from some key on. -/
theorem exists_threshold {ν : Type*} {m : OrderedMap ℕ ν} {p : ν → Prop}
    (hup : ∀ i j v w, m.get i = some v → m.get j = some w → i ≤ j → p v → p w) :
    ∃ n, ∀ i v, m.get i = some v → (p v ↔ n ≤ i) := by
  classical
  by_cases hex : ∃ i v, m.get i = some v ∧ p v
  · refine ⟨Nat.find hex, fun i v hget =>
      ⟨fun hp => Nat.find_min' hex ⟨v, hget, hp⟩, fun hle => ?_⟩⟩
    obtain ⟨w, hw, hp⟩ := Nat.find_spec hex
    exact hup _ i w v hw hget hle hp
  · -- no entry has it, and the last key bounds them all
    have hnone : ∀ i v, m.get i = some v → ¬ p v := fun i v hget hp => hex ⟨i, v, hget, hp⟩
    cases hlast : m.lastKeyValue with
    | none =>
        refine ⟨0, fun i v hget => ?_⟩
        rw [lastKeyValue_eq_none_iff.mp hlast i] at hget
        exact absurd hget (by simp)
    | some e =>
        refine ⟨e.1 + 1, fun i v hget => ⟨fun hp => absurd hp (hnone i v hget), fun hle => ?_⟩⟩
        have hmax := (lastKeyValue_eq_some hlast).2 i v hget
        omega

/-- The last entry is the held one with no held key above it. -/
theorem lastKeyValue_eq_some_iff {m : OrderedMap κ ν} {k : κ} {v : ν} :
    m.lastKeyValue = some (k, v) ↔
      m.get k = some v ∧ ∀ k' v', m.get k' = some v' → k' ≤ k := by
  constructor
  · exact lastKeyValue_eq_some
  · rintro ⟨hget, hle⟩
    obtain ⟨⟨k', v'⟩, hlast⟩ := exists_lastKeyValue hget
    obtain ⟨hget', hle'⟩ := lastKeyValue_eq_some hlast
    have hk : k' = k := le_antisymm (hle k' v' hget') (hle' k v hget)
    subst hk
    rw [hlast, Option.some.inj (hget'.symm.trans hget)]

theorem eq_empty_iff {m : OrderedMap κ ν} : m = ∅ ↔ ∀ k, m.get k = none := by
  constructor
  · rintro rfl k
    rfl
  · exact fun h => ext_get h

/-! ## Popping -/

instance (m : OrderedMap κ ν) : Decidable (m = ∅) :=
  decidable_of_iff (m.entries = []) (by
    constructor
    · intro h
      exact eq_empty_iff.mpr fun k => by simp [get, h, lookupEntry]
    · rintro rfl
      rfl)

/-- A condition on all entries can be checked. -/
instance {p : κ → ν → Prop} [∀ k v, Decidable (p k v)] (m : OrderedMap κ ν) :
    Decidable (∀ k v, m.get k = some v → p k v) :=
  decidable_of_iff (∀ e ∈ m.entries, p e.1 e.2) (by
    constructor
    · intro h k v hget
      exact h (k, v) (get_eq_some_iff.mp hget)
    · rintro h ⟨k, v⟩ he
      exact h k v (get_eq_some_iff.mpr he))

theorem popFirst_eq_none_iff {m : OrderedMap κ ν} : m.popFirst = none ↔ m.entries = [] := by
  obtain ⟨l, hl⟩ := m
  cases l <;> simp [popFirst]

theorem popFirst_eq_some_iff {m m' : OrderedMap κ ν} {e : κ × ν} :
    m.popFirst = some (e, m') ↔ m.entries = e :: m'.entries := by
  obtain ⟨l, hl⟩ := m
  obtain ⟨l', hl'⟩ := m'
  cases l with
  | nil => simp [popFirst]
  | cons head rest => simp [popFirst]

theorem popLast_eq_some_iff {m m' : OrderedMap κ ν} {e : κ × ν} :
    m.popLast = some (e, m') ↔ m.entries = m'.entries ++ [e] := by
  simp only [popLast, Option.map_eq_some_iff, Prod.mk.injEq, OrderedMap.ext_iff]
  constructor
  · rintro ⟨e', hlast, rfl, hdrop⟩
    obtain ⟨front, hfront⟩ := List.getLast?_eq_some_iff.mp hlast
    rw [hfront, List.dropLast_concat] at hdrop
    rw [hfront, hdrop]
  · intro h
    exact ⟨e, by simp [h], rfl, by simp [h]⟩

/-- `m'` is `m` without the entry `e` at one of its ends. -/
def Popped (m : OrderedMap κ ν) (e : κ × ν) (m' : OrderedMap κ ν) : Prop :=
  m.entries = e :: m'.entries ∨ m.entries = m'.entries ++ [e]

/-- An end at which entries are popped. -/
structure End (κ ν : Type*) [LinearOrder κ] where
  pop : OrderedMap κ ν → Option ((κ × ν) × OrderedMap κ ν)
  popped : ∀ {m m' : OrderedMap κ ν} {e : κ × ν}, pop m = some (e, m') → m.Popped e m'

/-- The end with the smallest key. -/
def front : End κ ν := ⟨popFirst, fun h => Or.inl (popFirst_eq_some_iff.mp h)⟩

/-- The end with the greatest key. -/
def back : End κ ν := ⟨popLast, fun h => Or.inr (popLast_eq_some_iff.mp h)⟩

@[simp] theorem front_pop (m : OrderedMap κ ν) : front.pop m = m.popFirst := rfl

@[simp] theorem back_pop (m : OrderedMap κ ν) : back.pop m = m.popLast := rfl

theorem Popped.len {m m' : OrderedMap κ ν} {e : κ × ν} (h : m.Popped e m') :
    m.len = m'.len + 1 := by
  rcases h with h | h
  · simp [OrderedMap.len, h]
  · simp [OrderedMap.len, h]

/-- What stands first is what is popped first. -/
theorem exists_popFirst {m : OrderedMap κ ν} {e : κ × ν} (h : m.firstKeyValue = some e) :
    ∃ m', m.popFirst = some (e, m') := by
  obtain ⟨l, hl⟩ := m
  obtain ⟨rest, rfl⟩ := List.head?_eq_some_iff.mp h
  exact ⟨_, rfl⟩

theorem exists_popLast {m : OrderedMap κ ν} {e : κ × ν} (h : m.lastKeyValue = some e) :
    ∃ m', m.popLast = some (e, m') := by
  simp only [lastKeyValue] at h
  simp [popLast, h]

/-- Putting a popped last entry back restores the map. -/
theorem insert_of_popLast {m m' : OrderedMap κ ν} {e : κ × ν}
    (h : m.popLast = some (e, m')) : m'.insert e.1 e.2 = m := by
  have hentries := popLast_eq_some_iff.mp h
  apply ext_get
  intro k
  ext v
  rw [get_insert]
  split_ifs with hk
  · subst hk
    rw [get_eq_some_iff, hentries]
    simp only [Option.some.injEq, List.mem_append, List.mem_singleton]
    constructor
    · intro hv
      exact Or.inr (Prod.ext rfl hv.symm)
    · rintro (hmem | hmem)
      · have hlt := (List.pairwise_append.mp (hentries ▸ m.sorted)).2.2 _ hmem e (by simp)
        exact absurd hlt (lt_irrefl _)
      · exact (congrArg Prod.snd hmem).symm
  · rw [get_eq_some_iff, get_eq_some_iff, hentries]
    simp only [List.mem_append, List.mem_singleton]
    constructor
    · exact Or.inl
    · rintro (hmem | hmem)
      · exact hmem
      · exact absurd (congrArg Prod.fst hmem) hk

/-- Putting a popped first entry back restores the map. -/
theorem insert_of_popFirst {m m' : OrderedMap κ ν} {e : κ × ν}
    (h : m.popFirst = some (e, m')) : m'.insert e.1 e.2 = m := by
  have hentries := popFirst_eq_some_iff.mp h
  have hsorted := List.pairwise_cons.mp (hentries ▸ m.sorted)
  apply ext_get
  intro k
  ext v
  rw [get_insert]
  split_ifs with hk
  · subst hk
    rw [get_eq_some_iff, hentries]
    simp only [Option.some.injEq, List.mem_cons]
    constructor
    · intro hv
      exact Or.inl (Prod.ext rfl hv.symm)
    · rintro (hmem | hmem)
      · exact (congrArg Prod.snd hmem).symm
      · exact absurd (hsorted.1 _ hmem) (lt_irrefl _)
  · rw [get_eq_some_iff, get_eq_some_iff, hentries]
    simp only [List.mem_cons]
    constructor
    · exact Or.inr
    · rintro (hmem | hmem)
      · exact absurd (congrArg Prod.fst hmem) hk
      · exact hmem

/-- A map with its front entries taken off, up to the first one that does not satisfy a
condition that only small keys satisfy, is a filter of the map. -/
theorem eq_filter_of_dropFront {m m' : OrderedMap κ ν} {front : List (κ × ν)} {p : κ → Prop}
    [DecidablePred p] (hentries : m.entries = front ++ m'.entries)
    (hfront : ∀ e ∈ front, p e.1) (hstop : ∀ e, m'.firstKeyValue = some e → ¬ p e.1)
    (hdown : ∀ a b, a ≤ b → p b → p a) : m' = m.filter fun e => ¬ p e.1 := by
  have hrest : ∀ e ∈ m'.entries, ¬ p e.1 := by
    intro e he hpe
    obtain ⟨first, hfirst⟩ := exists_firstKeyValue (get_eq_some_iff.mpr he)
    have hle := (firstKeyValue_eq_some hfirst).2 e.1 e.2 (get_eq_some_iff.mpr he)
    exact hstop first hfirst (hdown _ _ hle hpe)
  apply OrderedMap.ext
  have hnone : (front.filter fun e => decide (¬ p e.1)) = [] :=
    List.filter_eq_nil_iff.mpr fun e he => by simpa using hfront e he
  have hall : (m'.entries.filter fun e => decide (¬ p e.1)) = m'.entries :=
    List.filter_eq_self.mpr fun e he => by simpa using hrest e he
  simp only [filter, hentries, List.filter_append, hnone, hall, List.nil_append]

/-- The same at the other end. -/
theorem eq_filter_of_dropBack {m m' : OrderedMap κ ν} {back : List (κ × ν)} {p : κ → Prop}
    [DecidablePred p] (hentries : m.entries = m'.entries ++ back)
    (hback : ∀ e ∈ back, ¬ p e.1) (hstop : ∀ e, m'.lastKeyValue = some e → p e.1)
    (hdown : ∀ a b, a ≤ b → p b → p a) : m' = m.filter fun e => p e.1 := by
  have hrest : ∀ e ∈ m'.entries, p e.1 := by
    intro e he
    obtain ⟨last, hlast⟩ := exists_lastKeyValue (get_eq_some_iff.mpr he)
    have hle := (lastKeyValue_eq_some hlast).2 e.1 e.2 (get_eq_some_iff.mpr he)
    exact hdown _ _ hle (hstop last hlast)
  apply OrderedMap.ext
  have hnone : (back.filter fun e => decide (p e.1)) = [] :=
    List.filter_eq_nil_iff.mpr fun e he => by simpa using hback e he
  have hall : (m'.entries.filter fun e => decide (p e.1)) = m'.entries :=
    List.filter_eq_self.mpr fun e he => by simpa using hrest e he
  simp only [filter, hentries, List.filter_append, hnone, hall, List.append_nil]

/-! ## Sums over the values -/

/-- The sum of `size` over the values of the map. -/
def total (size : ν → ℕ) (m : OrderedMap κ ν) : ℕ := (m.values.map size).sum

theorem lookupEntry_eq_none {k : κ} {l : List (κ × ν)} (h : ∀ e ∈ l, k < e.1) :
    lookupEntry k l = none := by
  induction l with
  | nil => rfl
  | cons e rest ih =>
      have hne : e.1 ≠ k := (h e List.mem_cons_self).ne'
      rw [lookupEntry, if_neg hne, ih fun e' he' => h e' (List.mem_cons_of_mem _ he')]

/-- An insertion adds the new value, and takes away the one it replaces. -/
theorem total_insert (size : ν → ℕ) (m : OrderedMap κ ν) (k : κ) (v : ν) :
    (m.insert k v).total size + ((m.get k).map size).getD 0 = m.total size + size v := by
  obtain ⟨l, hl⟩ := m
  simp only [total, values, insert, get, List.map_map]
  induction l with
  | nil => simp [insertEntry, lookupEntry]
  | cons e rest ih =>
      obtain ⟨hfirst, hrest⟩ := List.pairwise_cons.mp hl
      specialize ih hrest
      rcases lt_trichotomy k e.1 with hlt | heq | hgt
      · have hnone : lookupEntry k (e :: rest) = none := by
          refine lookupEntry_eq_none fun e' he' => ?_
          rcases List.mem_cons.mp he' with rfl | hmem
          · exact hlt
          · exact hlt.trans (hfirst e' hmem)
        simp only [hnone, insertEntry, if_pos hlt, List.map_cons, List.sum_cons, Option.map_none,
          Option.getD_none, Function.comp_apply]
        omega
      · simp only [insertEntry, lookupEntry, if_neg heq.not_lt, if_pos heq, if_pos heq.symm,
          List.map_cons, List.sum_cons, Option.map_some, Option.getD_some, Function.comp_apply]
        omega
      · simp only [insertEntry, lookupEntry, if_neg hgt.not_gt, if_neg hgt.ne', if_neg hgt.ne,
          List.map_cons, List.sum_cons]
        omega

theorem total_insert_le (size : ν → ℕ) (m : OrderedMap κ ν) (k : κ) (v : ν) :
    (m.insert k v).total size ≤ m.total size + size v := by
  have h := total_insert size m k v
  omega

theorem Popped.total {m m' : OrderedMap κ ν} {e : κ × ν} (h : m.Popped e m') (size : ν → ℕ) :
    m.total size = size e.2 + m'.total size := by
  rcases h with h | h
  · simp [OrderedMap.total, values, h]
  · simp [OrderedMap.total, values, h, Nat.add_comm]

end OrderedMap
