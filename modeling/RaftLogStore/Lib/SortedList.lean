import Mathlib.Data.List.Basic
import Mathlib.Data.List.Pairwise

/-!
# Cutting a sorted list

Where a condition holds of an element only if it holds of the elements before it, filtering by
the condition cuts the list in two: the elements that satisfy it come first.
-/

namespace List

variable {α : Type*}

theorem filter_append_filter_not {l : List α} {p : α → Bool}
    (h : l.Pairwise fun a b => p b = true → p a = true) :
    l.filter p ++ l.filter (fun a => !p a) = l := by
  induction l with
  | nil => rfl
  | cons a l ih =>
      obtain ⟨hfirst, hrest⟩ := pairwise_cons.mp h
      cases ha : p a with
      | true => simp [ha, ih hrest]
      | false =>
          have hnone : l.filter p = [] := by
            refine filter_eq_nil_iff.mpr fun b hb hpb => ?_
            rw [hfirst b hb hpb] at ha
            exact absurd ha (by simp)
          have hall : l.filter (fun a => !p a) = l := by
            simpa [hnone] using ih hrest
          simp [ha, hnone, hall]

/-- The elements up to a bound are a prefix of a list sorted by `f`. -/
theorem filter_le_isPrefix {l : List α} {f : α → ℕ} (h : l.Pairwise fun a b => f a ≤ f b) (k : ℕ) :
    (l.filter fun a => decide (f a ≤ k)) <+: l := by
  have hcut := filter_append_filter_not (p := fun a => decide (f a ≤ k))
    (h.imp fun {a b} hab hb => by simp only [decide_eq_true_eq] at hb ⊢; omega)
  exact ⟨_, hcut⟩

/-- In a list sorted by `f`, an element is before the first failure of `p` if `p` holds up to its
place. -/
theorem mem_takeWhile_of_sorted {l : List α} {f : α → ℕ} {p : α → Bool}
    (h : l.Pairwise fun a b => f a ≤ f b) {a : α} (ha : a ∈ l)
    (hall : ∀ b ∈ l, f b ≤ f a → p b = true) : a ∈ l.takeWhile p := by
  induction l with
  | nil => exact absurd ha not_mem_nil
  | cons first rest ih =>
      obtain ⟨hfirst, hrest⟩ := pairwise_cons.mp h
      have hle : f first ≤ f a := by
        rcases mem_cons.mp ha with rfl | hmem
        · exact Nat.le_refl _
        · exact hfirst a hmem
      rw [takeWhile_cons_of_pos (hall first mem_cons_self hle)]
      rcases mem_cons.mp ha with rfl | hmem
      · exact mem_cons_self
      · exact mem_cons_of_mem _ (ih hrest hmem fun b hb => hall b (mem_cons_of_mem _ hb))

/-- Two strictly increasing lists with the same members are equal. -/
theorem eq_of_pairwise_lt {l l' : List ℕ} (h : l.Pairwise (· < ·)) (h' : l'.Pairwise (· < ·))
    (hmem : ∀ a, a ∈ l ↔ a ∈ l') : l = l' := by
  have hnodup : ∀ {m : List ℕ}, m.Pairwise (· < ·) → m.Nodup := fun hm =>
    hm.imp fun hab => Nat.ne_of_lt hab
  exact ((perm_ext_iff_of_nodup (hnodup h) (hnodup h')).mpr hmem).eq_of_pairwise
    (fun a b _ _ hab hba => absurd hab (Nat.lt_asymm hba)) h h'

end List
