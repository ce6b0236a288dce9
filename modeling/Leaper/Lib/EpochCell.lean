import Mathlib.Data.List.Induction
import Mathlib.Data.Nat.ModEq

namespace Lib

/-!
# Lazily recycled counters

A cell holds the stamp of the last epoch that touched it and how often that epoch did.
Touching it in its own epoch counts up; touching it in another throws the old contents
away and starts at one.  Nothing ever sweeps a cell, so what a reader finds for an epoch
is decided by the tail of the cell's history alone:

* `readAt_foldl_touch` — the count found for `e` is the length of the unbroken run of `e`
  at the end of the history, on top of what the cell held if nothing else ever came;
* `readAt_foldl_touch_of_settles` — when `e`, once seen, is all that follows, it is the number
  of occurrences of `e`.

A ring of `n` such cells keeps `n - 1` epochs apart from the current one; the residue
facts at the end say which epochs share a cell.
-/

variable {α : Type*} [DecidableEq α]

/-- Touch a stamped counter in epoch `e`. -/
def touch (cell : α × ℕ) (e : α) : α × ℕ := if cell.1 = e then (e, cell.2 + 1) else (e, 1)

/-- What a reader finds for epoch `e`. -/
def readAt (cell : α × ℕ) (e : α) : ℕ := if cell.1 = e then cell.2 else 0

/-- Length of the unbroken run of `e` at the end of a history. -/
def trailing (e : α) (es : List α) : ℕ := (es.reverse.takeWhile (fun x => decide (x = e))).length

/-- One more touch lengthens the trailing run if it is of the same epoch, and ends it if not. -/
theorem trailing_concat (e x : α) (es : List α) :
    trailing e (es ++ [x]) = if x = e then trailing e es + 1 else 0 := by
  by_cases h : x = e <;> simp [trailing, h]

/-- Touches are applied from the left. -/
theorem foldl_touch_concat (cell : α × ℕ) (es : List α) (x : α) :
    (es ++ [x]).foldl touch cell = touch (es.foldl touch cell) x := by
  simp

/-- What a touch does to the reading at an epoch: one more at its own, zero at any other. -/
theorem readAt_touch (cell : α × ℕ) (e x : α) :
    readAt (touch cell x) e = if x = e then readAt cell e + 1 else 0 := by
  unfold touch readAt
  by_cases hx : x = e
  · subst hx
    by_cases hc : cell.1 = x <;> simp [hc]
  · by_cases hc : cell.1 = x <;> simp [hc, hx]

/-- **A cell remembers its last run.** The count found for `e` is the run of `e` at the
    end of the history; only if the whole history is that run does the old content of the
    cell still count. -/
theorem readAt_foldl_touch (cell : α × ℕ) (e : α) (es : List α) :
    readAt (es.foldl touch cell) e =
      trailing e es + if ∀ x ∈ es, x = e then readAt cell e else 0 := by
  induction es using List.reverseRecOn with
  | nil => simp [trailing]
  | append_singleton es x ih =>
    rw [foldl_touch_concat, readAt_touch, trailing_concat]
    by_cases hx : x = e
    · have hall : (∀ y ∈ es ++ [x], y = e) ↔ ∀ y ∈ es, y = e := by
        simp [hx, or_imp]
      simp only [if_pos hx, ih, hall]
      omega
    · have hall : ¬ ∀ y ∈ es ++ [x], y = e := fun h => hx (h x (by simp))
      simp only [if_neg hx, if_neg hall]

/-- Once `e` is seen, nothing else follows. -/
def Settles (e : α) (es : List α) : Prop :=
  ∀ before after, es = before ++ e :: after → ∀ x ∈ after, x = e

/-- In a sequence that settles on `e` the trailing run is all there is of `e`. -/
theorem trailing_of_settles {e : α} {es : List α} (h : Settles e es) :
    trailing e es = es.count e := by
  induction es using List.reverseRecOn with
  | nil => rfl
  | append_singleton es x ih =>
    have hes : Settles e es := by
      intro before after heq y hy
      exact h before (after ++ [x]) (by simp [heq]) y (by simp [hy])
    rw [trailing_concat, List.count_append, ih hes]
    by_cases hx : x = e
    · simp [hx]
    · -- A different last element means `e` never came.
      have hnot : e ∉ es := by
        intro hmem
        obtain ⟨before, after, heq⟩ := List.append_of_mem hmem
        exact hx (h before (after ++ [x]) (by simp [heq]) x (by simp))
      simp [hx, List.count_eq_zero_of_not_mem hnot]

/-- **A settled epoch is counted exactly**, whatever the cell held before, provided that
    was nothing of this epoch. -/
theorem readAt_foldl_touch_of_settles {cell : α × ℕ} {e : α} {es : List α} (h : Settles e es)
    (hcell : readAt cell e = 0) : readAt (es.foldl touch cell) e = es.count e := by
  rw [readAt_foldl_touch, trailing_of_settles h, hcell]
  simp

/-! ### Rings of cells -/

/-- Two epochs closer than the ring's length that share a cell are equal. -/
theorem eq_of_mod_eq_of_lt_add {n a b : ℕ} (hmod : a % n = b % n) (hab : a ≤ b) (hlt : b < a + n) :
    a = b := by
  have hdvd : n ∣ b - a := (Nat.modEq_iff_dvd' hab).mp hmod
  rcases Nat.eq_zero_or_pos (b - a) with h0 | hpos
  · omega
  · have := Nat.le_of_dvd hpos hdvd
    omega

/-- Rows of `n` cells laid out one after another: the index determines row and position. -/
theorem row_add_eq_iff {n i j x y : ℕ} (hx : x < n) (hy : y < n) :
    i * n + x = j * n + y ↔ i = j ∧ x = y := by
  constructor
  · intro h
    have hn : 0 < n := by omega
    have hi : (i * n + x) / n = i := by
      rw [Nat.mul_comm, Nat.mul_add_div hn, Nat.div_eq_of_lt hx, Nat.add_zero]
    have hj : (j * n + y) / n = j := by
      rw [Nat.mul_comm, Nat.mul_add_div hn, Nat.div_eq_of_lt hy, Nat.add_zero]
    have hij : i = j := by rw [← hi, ← hj, h]
    subst hij
    exact ⟨rfl, by omega⟩
  · rintro ⟨rfl, rfl⟩; rfl

end Lib
