import Mathlib.Data.List.Sort
import Mathlib.Order.Lattice

namespace Lib

/-!
# The sort-and-unique idiom

`std::sort` followed by `erase(std::unique(..))` turns a vector into the increasing
enumeration of its elements.  `uniq` is `std::unique` (adjacent duplicates go), and
`sortUnique` is the idiom; it has the same members (`mem_sortUnique`) and is strictly
increasing (`pairwise_sortUnique`).  Two lists with the same members become the same list
(`sortUnique_eq_iff`).

Sorting records by a key is another matter: records of equal keys stay in their order
(`StablySorted`).
-/

variable {α : Type*} [LinearOrder α]

/-- `std::unique`: drop every element equal to its successor. -/
def uniq : List α → List α
  | [] => []
  | [a] => [a]
  | a :: b :: l => if a = b then uniq (b :: l) else a :: uniq (b :: l)

/-- `std::sort` in the element order. -/
def sorted (l : List α) : List α := l.insertionSort (· ≤ ·)

/-- Sort, then drop adjacent duplicates. -/
def sortUnique (l : List α) : List α := uniq (sorted l)

/-- Sorting keeps the elements. -/
@[simp] theorem mem_sorted {a : α} {l : List α} : a ∈ sorted l ↔ a ∈ l :=
  List.mem_insertionSort _

/-- A sorted list is in increasing order. -/
theorem pairwise_sorted (l : List α) : (sorted l).Pairwise (· ≤ ·) :=
  List.pairwise_insertionSort _ l

/-- Dropping neighbours that are equal keeps the set of elements. -/
@[simp] theorem mem_uniq {a : α} {l : List α} : a ∈ uniq l ↔ a ∈ l := by
  induction l with
  | nil => simp [uniq]
  | cons b l ih =>
    cases l with
    | nil => simp [uniq]
    | cons c l =>
      by_cases h : b = c
      · subst h; simp only [uniq, if_true, ih, List.mem_cons, or_self_left]
      · simp only [uniq, if_neg h, List.mem_cons] at ih ⊢; rw [ih]

/-- On a sorted list `uniq` leaves a strictly increasing one. -/
theorem pairwise_uniq {l : List α} (h : l.Pairwise (· ≤ ·)) : (uniq l).Pairwise (· < ·) := by
  induction l with
  | nil => simp [uniq]
  | cons b l ih =>
    cases l with
    | nil => simp [uniq]
    | cons c l =>
      have hcl := ih h.tail
      by_cases hbc : b = c
      · simpa only [uniq, if_pos hbc] using hcl
      · -- the kept head is below its successor, hence below all that is kept after it
        simp only [uniq, if_neg hbc]
        refine List.pairwise_cons.mpr ⟨fun x hx => ?_, hcl⟩
        have hx' : x ∈ c :: l := mem_uniq.mp hx
        have hbc' : b < c := lt_of_le_of_ne (List.rel_of_pairwise_cons h (by simp)) hbc
        rcases List.mem_cons.mp hx' with rfl | hxl
        · exact hbc'
        · exact lt_of_lt_of_le hbc' (List.rel_of_pairwise_cons h.tail hxl)

/-- The idiom keeps the set of elements. -/
@[simp] theorem mem_sortUnique {a : α} {l : List α} : a ∈ sortUnique l ↔ a ∈ l := by
  simp [sortUnique]

/-- The idiom's result increases strictly, so nothing is left twice. -/
theorem pairwise_sortUnique (l : List α) : (sortUnique l).Pairwise (· < ·) :=
  pairwise_uniq (pairwise_sorted l)

/-- The result is a normal form of the set: equal for two lists exactly if they have the same
    elements. -/
theorem sortUnique_eq_iff {l m : List α} : sortUnique l = sortUnique m ↔ ∀ a, a ∈ l ↔ a ∈ m := by
  refine ⟨fun h a => ?_, fun h => ?_⟩
  · rw [← mem_sortUnique, h, mem_sortUnique]
  · have hperm : (sortUnique l).Perm (sortUnique m) := by
      refine (List.perm_ext_iff_of_nodup ?_ ?_).mpr fun a => ?_
      · exact (pairwise_sortUnique l).imp ne_of_lt
      · exact (pairwise_sortUnique m).imp ne_of_lt
      · rw [mem_sortUnique, mem_sortUnique, h a]
    exact hperm.eq_of_pairwise (fun a b _ _ hab hba => absurd hab (lt_asymm hba))
      (pairwise_sortUnique l) (pairwise_sortUnique m)

/-! ### Sorting records -/

/-- `l'` is `l` in the order of a key, with the records of each key as they were. -/
structure StablySorted {β : Type*} (key : β → α) (l l' : List β) : Prop where
  sorted : l'.Pairwise fun x y => key x ≤ key y
  stable : ∀ k, (l'.filter fun x => key x = k) = l.filter fun x => key x = k

/-- Insertion sort by a key is stable. -/
theorem stablySorted_insertionSort {β : Type*} (key : β → α) (l : List β) :
    StablySorted key l (l.insertionSort fun x y => key x ≤ key y) := by
  have htrans : IsTrans β fun x y => key x ≤ key y := ⟨fun _ _ _ => le_trans⟩
  have htotal : Std.Total fun x y => key x ≤ key y := ⟨fun x y => le_total (key x) (key y)⟩
  refine ⟨List.pairwise_insertionSort _ l, fun k => ?_⟩
  -- the records of one key are in order already, so sorting keeps them as a sublist
  have hsub : (l.filter fun x => key x = k).Sublist (l.insertionSort fun x y => key x ≤ key y) := by
    refine List.sublist_insertionSort ?_ List.filter_sublist
    refine List.pairwise_of_forall_mem_list fun x hx y hy => ?_
    rw [of_decide_eq_true (List.mem_filter.mp hx).2, of_decide_eq_true (List.mem_filter.mp hy).2]
  have hsub := hsub.filter fun x => decide (key x = k)
  rw [List.filter_filter] at hsub
  simp only [Bool.and_self] at hsub
  have hlength := ((List.perm_insertionSort (fun x y => key x ≤ key y) l).filter
    fun x => decide (key x = k)).length_eq
  exact (hsub.eq_of_length hlength.symm).symm

end Lib
