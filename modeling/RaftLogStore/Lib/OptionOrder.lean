import Mathlib.Algebra.GroupWithZero.Nat
import Mathlib.Order.Lattice

/-!
# The order on optional values

Rust's derived `Ord` on `Option` puts `None` below every `Some`.  Lean's `≤` and `<` on
`Option` are the same relation; this file makes them a partial order over a partial order
and a linear order over a linear one, so that comparisons of optional values can be
computed and reasoned about with the order lemmas of Mathlib.
-/

namespace Option

variable {α : Type*}

instance decidableLE [LE α] [DecidableLE α] : DecidableLE (Option α)
  | none, _ => isTrue none_le
  | some _, none => isFalse not_some_le_none
  | some a, some b => decidable_of_iff (a ≤ b) some_le_some.symm

instance decidableLT [LT α] [DecidableLT α] : DecidableLT (Option α)
  | _, none => isFalse not_lt_none
  | none, some _ => isTrue none_lt_some
  | some a, some b => decidable_of_iff (a < b) some_lt_some.symm

instance partialOrder [PartialOrder α] : PartialOrder (Option α) where
  le_refl a := by cases a <;> simp
  le_trans a b c hab hbc := by
    cases a <;> cases b <;> cases c <;> simp_all
    exact hab.trans hbc
  le_antisymm a b hab hba := by
    cases a <;> cases b <;> simp_all
    exact hab.antisymm hba
  lt_iff_le_not_ge a b := by
    cases a <;> cases b <;> simp [lt_iff_le_not_ge]

instance linearOrder [LinearOrder α] : LinearOrder (Option α) where
  le_total a b := by
    cases a <;> cases b <;> simp [le_total]
  toDecidableLE := decidableLE
  toDecidableLT := decidableLT
  toOrd := ⟨fun a b => compareOfLessAndEq a b⟩
  min_def a b := by
    cases a <;> cases b <;> simp [min_def, apply_ite some]
  max_def a b := by
    cases a <;> cases b <;> simp [max_def, apply_ite some]

end Option
