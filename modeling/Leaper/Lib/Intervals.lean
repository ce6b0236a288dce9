import Mathlib.Algebra.BigOperators.Group.Finset.Piecewise
import Mathlib.Algebra.Order.BigOperators.Group.Finset
import Mathlib.Order.Lattice

namespace Lib

/-!
# Unions of intervals, by counting

Whether a point lies in one of several closed intervals is decided by two numbers: how many of
them have begun, and how many are over (`exists_mem_interval_iff`).  So it does not matter which
begin is paired with which end, as long as no interval ends before it begins.

`countP_eq_sum_fiber` counts a list group by group.
-/

variable {α ι : Type*}

/-- **A point is covered** if more intervals have begun than are over. -/
theorem exists_mem_interval_iff [LinearOrder α] {J : List (α × α)} (hJ : ∀ s ∈ J, s.1 ≤ s.2)
    (t : α) :
    (∃ s ∈ J, s.1 ≤ t ∧ t ≤ s.2) ↔
      (J.map Prod.snd).countP (· < t) < (J.map Prod.fst).countP (· ≤ t) := by
  induction J with
  | nil => simp
  | cons s J ih =>
    have hs := hJ s List.mem_cons_self
    have ih := ih fun x hx => hJ x (List.mem_cons_of_mem _ hx)
    have hle : (J.map Prod.snd).countP (· < t) ≤ (J.map Prod.fst).countP (· ≤ t) := by
      rw [List.countP_map, List.countP_map]
      refine List.countP_mono_left fun x hx hover => ?_
      have hover : x.2 < t := of_decide_eq_true hover
      exact decide_eq_true ((hJ x (List.mem_cons_of_mem _ hx)).trans hover.le)
    rw [List.exists_mem_cons_iff, ih, List.map_cons, List.map_cons, List.countP_cons,
      List.countP_cons]
    simp only [decide_eq_true_eq]
    -- an interval counts as begun and over, as neither, or as begun only
    by_cases hbegun : s.1 ≤ t
    · by_cases hover : s.2 < t
      · rw [if_pos hbegun, if_pos hover]
        have hnot : ¬ (s.1 ≤ t ∧ t ≤ s.2) := fun h => absurd h.2 (not_le.mpr hover)
        rw [or_iff_right hnot]
        omega
      · rw [if_pos hbegun, if_neg hover]
        exact iff_of_true (Or.inl ⟨hbegun, not_lt.mp hover⟩) (by omega)
    · have hover : ¬ s.2 < t := fun h => hbegun (hs.trans h.le)
      rw [if_neg hbegun, if_neg hover]
      exact or_iff_right fun h => hbegun h.1

/-- A count over a list is the sum of the counts over its groups. -/
theorem countP_eq_sum_fiber [DecidableEq ι] (key : α → ι) (p : α → Bool) {S : Finset ι}
    {l : List α} (h : ∀ x ∈ l, key x ∈ S) :
    l.countP p = ∑ j ∈ S, (l.filter fun x => key x = j).countP p := by
  induction l with
  | nil => simp
  | cons x l ih =>
    have ih := ih fun y hy => h y (List.mem_cons_of_mem _ hy)
    have hterm : ∀ j, ((x :: l).filter fun y => key y = j).countP p =
        (l.filter fun y => key y = j).countP p +
          if key x = j then (if p x then 1 else 0) else 0 := by
      intro j
      by_cases hj : key x = j
      · rw [List.filter_cons_of_pos (by simpa using hj), List.countP_cons, if_pos hj]
      · rw [List.filter_cons_of_neg (by simpa using hj), if_neg hj, Nat.add_zero]
    rw [List.countP_cons, Finset.sum_congr rfl fun j _ => hterm j, Finset.sum_add_distrib, ← ih,
      Finset.sum_ite_eq, if_pos (h x List.mem_cons_self)]

end Lib
