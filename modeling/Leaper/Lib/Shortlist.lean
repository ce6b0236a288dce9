import Mathlib.Data.List.Nodup
import Mathlib.Order.Lattice

namespace Lib

/-!
# Shortlists

From a ranked list, take the first `k`, keep those with a property, and take the first `γ` of
them.  What is left out comes later in the ranking than all that is listed
(`rel_of_not_mem_shortlist`); a list that is not full misses exactly what the first cut took
(`mem_shortlist_of_length_lt`).
-/

variable {α : Type*} {k γ : ℕ} {p : α → Bool} {l : List α} {x y : α}

/-- The first `γ` elements with `p` among the first `k`. -/
def shortlist (k γ : ℕ) (p : α → Bool) (l : List α) : List α := ((l.take k).filter p).take γ

/-- No more than the limit. -/
theorem length_shortlist_le : (shortlist k γ p l).length ≤ γ := List.length_take_le _ _

/-- In the order of the list it is taken from. -/
theorem shortlist_sublist : (shortlist k γ p l).Sublist l :=
  (List.take_sublist _ _).trans (List.filter_sublist.trans (List.take_sublist _ _))

/-- Only elements that pass. -/
theorem of_mem_shortlist (h : x ∈ shortlist k γ p l) : p x = true :=
  (List.mem_filter.mp (List.mem_of_mem_take h)).2

/-- A list that is not full has all there was after the first cut. -/
theorem mem_shortlist_of_length_lt (h : (shortlist k γ p l).length < γ) :
    x ∈ shortlist k γ p l ↔ x ∈ l.take k ∧ p x = true := by
  unfold shortlist at h ⊢
  rw [List.length_take] at h
  rw [List.take_of_length_le (by omega), List.mem_filter]

/-- **What is left out comes later.** -/
theorem rel_of_not_mem_shortlist {r : α → α → Prop} (hl : l.Pairwise r)
    (hx : x ∈ shortlist k γ p l) (hy : y ∈ l) (hp : p y = true) (hout : y ∉ shortlist k γ p l) :
    r x y := by
  have hcut := hl
  rw [← List.take_append_drop k l, List.pairwise_append] at hcut
  obtain ⟨hfirst, -, hcross⟩ := hcut
  rw [← List.take_append_drop k l, List.mem_append] at hy
  rcases hy with hy | hy
  · -- after the first cut it was still there, so the second one took it
    have hkept := hfirst.filter p
    rw [← List.take_append_drop γ ((l.take k).filter p), List.pairwise_append] at hkept
    have hmem : y ∈ (l.take k).filter p := List.mem_filter.mpr ⟨hy, hp⟩
    rw [← List.take_append_drop γ ((l.take k).filter p), List.mem_append] at hmem
    exact hkept.2.2 x hx y (hmem.resolve_left hout)
  · exact hcross x (List.mem_of_mem_filter (List.mem_of_mem_take hx)) y hy

/-- **A shortlist is complete** if it is full, or if the first cut took nothing with `p`. -/
theorem shortlist_complete_iff (hl : l.Nodup) :
    ((shortlist k γ p l).length < γ → ∀ x ∈ l, p x = true → x ∈ shortlist k γ p l) ↔
      (shortlist k γ p l).length = γ ∨ ∀ x ∈ l.drop k, p x = false := by
  have hle := @length_shortlist_le α k γ p l
  constructor
  · intro hall
    rcases Nat.lt_or_ge (shortlist k γ p l).length γ with hlt | hge
    · right
      intro x hx
      by_contra hp
      have hmem := hall hlt x (List.mem_of_mem_drop hx) (eq_true_of_ne_false hp)
      exact List.disjoint_take_drop hl le_rfl ((mem_shortlist_of_length_lt hlt).mp hmem).1 hx
    · exact Or.inl (le_antisymm hle hge)
  · rintro (hfull | hnone) hlt x hx hp
    · omega
    · rw [mem_shortlist_of_length_lt hlt]
      refine ⟨?_, hp⟩
      rw [← List.take_append_drop k l, List.mem_append] at hx
      rcases hx with hx | hx
      · exact hx
      · exact absurd (hnone x hx) (by rw [hp]; decide)

end Lib
