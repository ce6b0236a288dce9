import Mathlib.Data.List.GetD
import Mathlib.Data.Nat.SuccPred
import Mathlib.Order.Interval.Finset.Nat
import Mathlib.Order.SuccPred.IntervalSucc

namespace Lib

/-!
# Bisection over an index range

The half-open search loop `while (lo < hi)` with `mid = lo + (hi - lo) / 2` that moves
`lo` past `mid` when `below mid` holds and `hi` down to `mid` otherwise.  When `below`
is downward closed the result is the first index of `[0, n)` at which it fails, or `n`; in a sorted
list it tells whether the list meets an interval (`exists_getElem?_lowerBound_le`).

The loop `while (lo + 1 < hi)` keeps `mid` itself as the new lower end.  Over the starts of
adjoining cells it finds the cell of a value (`lastIndex_eq_iff`), each as often as it is wide
(`card_lastIndex_eq`).

The closed loop `while (lo <= hi)` leaves `mid` out on both sides; `probes` are the values it tests
on its way to an index.
-/

/-- The search loop; `fuel` bounds the number of halvings. -/
def lowerBoundLoop (below : ℕ → Bool) : ℕ → ℕ → ℕ → ℕ
  | 0, lo, _ => lo
  | fuel + 1, lo, hi =>
    if lo < hi then
      let mid := lo + (hi - lo) / 2
      if below mid then lowerBoundLoop below fuel (mid + 1) hi
      else lowerBoundLoop below fuel lo mid
    else lo

/-- The first index below `n` at which `below` fails, or `n`.  Every pass shrinks the
    interval, so `n` passes are enough. -/
def lowerBound (below : ℕ → Bool) (n : ℕ) : ℕ := lowerBoundLoop below n 0 n

/-- The loop invariant: `below` holds left of `lo` and fails from `hi` on. -/
theorem lowerBoundLoop_spec {below : ℕ → Bool} {n : ℕ}
    (hdown : ∀ i j, i ≤ j → j < n → below j = true → below i = true) :
    ∀ (fuel lo hi : ℕ), lo ≤ hi → hi ≤ n → hi ≤ lo + fuel →
      (∀ i, i < lo → below i = true) → (∀ i, hi ≤ i → i < n → below i = false) →
      lowerBoundLoop below fuel lo hi ≤ n ∧
      (∀ i, i < lowerBoundLoop below fuel lo hi → below i = true) ∧
      (∀ i, lowerBoundLoop below fuel lo hi ≤ i → i < n → below i = false) := by
  intro fuel
  -- on the fuel; everything before `lo` is below, everything from `hi` on is not
  induction fuel with
  | zero =>
    intro lo hi hle hn hfuel hlo hhi
    have heq : lo = hi := by omega
    subst heq
    exact ⟨hn, hlo, hhi⟩
  | succ fuel ih =>
    intro lo hi hle hn hfuel hlo hhi
    simp only [lowerBoundLoop]
    by_cases hlt : lo < hi
    · rw [if_pos hlt]
      have hmid : lo + (hi - lo) / 2 < hi := by omega
      by_cases hb : below (lo + (hi - lo) / 2) = true
      · -- the middle is below, and so is all before it
        rw [if_pos hb]
        refine ih _ _ (by omega) hn (by omega) (fun i hi' => ?_) hhi
        exact hdown i _ (by omega) (by omega) hb
      · -- the middle is not, and nothing after it can be
        rw [if_neg hb]
        refine ih _ _ (by omega) (by omega) (by omega) hlo (fun i hi' hin => ?_)
        rw [Bool.eq_false_iff]
        exact fun hbi => hb (hdown _ i hi' hin hbi)
    · rw [if_neg hlt]
      have heq : lo = hi := by omega
      subst heq
      exact ⟨hn, hlo, hhi⟩

section Spec

variable {below : ℕ → Bool} {n : ℕ}
  (hdown : ∀ i j, i ≤ j → j < n → below j = true → below i = true)

include hdown

/-- `lower_bound` on any predicate that holds up to some point and not after: it returns that
    point. -/
theorem lowerBound_spec :
    lowerBound below n ≤ n ∧ (∀ i, i < lowerBound below n → below i = true) ∧
      (∀ i, lowerBound below n ≤ i → i < n → below i = false) :=
  lowerBoundLoop_spec hdown n 0 n (Nat.zero_le n) le_rfl (by omega)
    (fun _ h => absurd h (Nat.not_lt_zero _)) (fun _ h h' => absurd h' (by omega))

/-- In front of the bound everything is below. -/
theorem below_of_lt_lowerBound {i : ℕ} (h : i < lowerBound below n) : below i = true :=
  (lowerBound_spec hdown).2.1 i h

/-- From the bound on nothing is below. -/
theorem not_below_of_lowerBound_le {i : ℕ} (h : lowerBound below n ≤ i) (hn : i < n) :
    below i = false :=
  (lowerBound_spec hdown).2.2 i h hn

end Spec

/-- The element at the lower bound of an interval tells whether a sorted list meets it. -/
theorem exists_getElem?_lowerBound_le {l : List ℕ} (hsorted : l.Pairwise (· ≤ ·)) (lo hi : ℕ) :
    (∃ r, l[lowerBound (fun i => decide (l.getD i 0 < lo)) l.length]? = some r ∧ r ≤ hi) ↔
      ∃ r ∈ l, lo ≤ r ∧ r ≤ hi := by
  have hmono : ∀ i j, i ≤ j → j < l.length → l.getD i 0 ≤ l.getD j 0 := by
    intro i j hij hj
    rw [List.getD_eq_getElem _ _ (by omega), List.getD_eq_getElem _ _ hj]
    rcases Nat.eq_or_lt_of_le hij with rfl | hlt
    · exact le_rfl
    · exact List.pairwise_iff_getElem.mp hsorted i j (by omega) hj hlt
  have hdown : ∀ i j, i ≤ j → j < l.length → decide (l.getD j 0 < lo) = true →
      decide (l.getD i 0 < lo) = true := by
    intro i j hij hj hbelow
    exact decide_eq_true (lt_of_le_of_lt (hmono i j hij hj) (of_decide_eq_true hbelow))
  generalize hp : lowerBound (fun i => decide (l.getD i 0 < lo)) l.length = p
  constructor
  · rintro ⟨r, hr, hle⟩
    obtain ⟨hlt, hval⟩ := List.getElem?_eq_some_iff.mp hr
    have hnot := of_decide_eq_false (not_below_of_lowerBound_le hdown hp.le hlt)
    rw [List.getD_eq_getElem _ _ hlt, hval] at hnot
    exact ⟨r, List.mem_of_getElem? hr, not_lt.mp hnot, hle⟩
  · rintro ⟨r, hr, hlo, hle⟩
    obtain ⟨i, hi', rfl⟩ := List.mem_iff_getElem.mp hr
    -- what is not below stands at the lower bound or after it
    have hpi : p ≤ i := by
      by_contra hlt
      have hbelow := of_decide_eq_true (below_of_lt_lowerBound hdown (hp ▸ not_le.mp hlt))
      rw [List.getD_eq_getElem _ _ hi'] at hbelow
      omega
    have hlt : p < l.length := lt_of_le_of_lt hpi hi'
    refine ⟨l.get ⟨p, hlt⟩, List.getElem?_eq_getElem hlt, ?_⟩
    have hle' := hmono p i hpi hi'
    rw [List.getD_eq_getElem _ _ hlt, List.getD_eq_getElem _ _ hi'] at hle'
    exact hle'.trans hle

/-! ### The last index that is not above -/

/-- The loop `while (lo + 1 < hi)` that moves `hi` down to the middle when that is above and `lo`
    up to it otherwise; `fuel` bounds the number of halvings. -/
def lastIndexLoop (above : ℕ → Bool) : ℕ → ℕ → ℕ → ℕ
  | 0, lo, _ => lo
  | fuel + 1, lo, hi =>
    if lo + 1 < hi then
      let mid := lo + (hi - lo) / 2
      if above mid then lastIndexLoop above fuel lo mid
      else lastIndexLoop above fuel mid hi
    else lo

/-- The search over `[0, n)`.  Neither end is looked at: index 0 counts as not above, index `n`
    as above. -/
def lastIndex (above : ℕ → Bool) (n : ℕ) : ℕ := lastIndexLoop above n 0 n

/-- The loop ends between an index that is not above and one that is, whatever lies elsewhere. -/
theorem lastIndexLoop_spec (above : ℕ → Bool) :
    ∀ (fuel lo hi : ℕ), lo < hi → hi ≤ lo + fuel + 1 →
      let r := lastIndexLoop above fuel lo hi
      r < hi ∧ (r = lo ∨ above r = false) ∧ (r + 1 = hi ∨ above (r + 1) = true) := by
  intro fuel
  induction fuel with
  | zero =>
    intro lo hi hlt hfuel
    exact ⟨hlt, Or.inl rfl, Or.inl (by show lo + 1 = hi; omega)⟩
  | succ fuel ih =>
    intro lo hi hlt hfuel
    simp only [lastIndexLoop]
    by_cases hgap : lo + 1 < hi
    · rw [if_pos hgap]
      have hmid : lo < lo + (hi - lo) / 2 ∧ lo + (hi - lo) / 2 < hi := by omega
      by_cases hab : above (lo + (hi - lo) / 2) = true
      · -- the upper end was the middle, which is above
        rw [if_pos hab]
        obtain ⟨hr, hlo, hhi⟩ := ih lo _ hmid.1 (by omega)
        refine ⟨hr.trans hmid.2, hlo, hhi.elim (fun heq => ?_) Or.inr⟩
        rw [heq]
        exact Or.inr hab
      · -- the lower end was the middle, which is not
        rw [if_neg hab]
        obtain ⟨hr, hlo, hhi⟩ := ih _ hi hmid.2 (by omega)
        refine ⟨hr, hlo.elim (fun heq => ?_) Or.inr, hhi⟩
        rw [heq]
        exact Or.inr (Bool.eq_false_iff.mpr hab)
    · rw [if_neg hgap]
      exact ⟨hlt, Or.inl rfl, Or.inl (by omega)⟩

/-- The search returns a place where the predicate goes from false to true, or an end of the
    range. -/
theorem lastIndex_spec (above : ℕ → Bool) {n : ℕ} (hn : 0 < n) :
    lastIndex above n < n ∧ (lastIndex above n = 0 ∨ above (lastIndex above n) = false) ∧
      (lastIndex above n + 1 = n ∨ above (lastIndex above n + 1) = true) :=
  lastIndexLoop_spec above n 0 n hn (by omega)

/-- The search stays inside the table. -/
theorem lastIndex_lt (above : ℕ → Bool) {n : ℕ} (hn : 0 < n) : lastIndex above n < n :=
  (lastIndex_spec above hn).1

section Shares

-- `s` cuts `[0, s n)` into `n` cells, some of them possibly empty
variable {s : ℕ → ℕ} {n : ℕ} (hs : Monotone s) (h0 : s 0 = 0)

include hs

/-- A value is in one cell at most. -/
theorem cell_unique {i j x : ℕ} (hi : s i ≤ x) (hi' : x < s (i + 1)) (hj : s j ≤ x)
    (hj' : x < s (j + 1)) : i = j := by
  by_contra hne
  exact Set.disjoint_left.mp (hs.pairwise_disjoint_on_Ico_succ hne) ⟨hi, hi'⟩ ⟨hj, hj'⟩

include h0

/-- **The bisection finds the cell of a value.** -/
theorem lastIndex_eq_iff {above : ℕ → Bool} {x : ℕ} (hx : x < s n)
    (habove : ∀ j < n, above j = true ↔ x < s j) {i : ℕ} :
    lastIndex above n = i ↔ s i ≤ x ∧ x < s (i + 1) := by
  have hn : 0 < n := by
    rcases Nat.eq_zero_or_pos n with rfl | hn
    · rw [h0] at hx
      exact absurd hx (Nat.not_lt_zero x)
    · exact hn
  obtain ⟨hlt, hlo, hhi⟩ := lastIndex_spec above hn
  have hle : s (lastIndex above n) ≤ x := by
    rcases hlo with hzero | hnot
    · rw [hzero, h0]
      exact Nat.zero_le x
    · by_contra hgt
      rw [(habove _ hlt).mpr (Nat.not_le.mp hgt)] at hnot
      exact absurd hnot (by decide)
  have hlt' : x < s (lastIndex above n + 1) := by
    rcases hhi with hend | hab
    · rw [hend]
      exact hx
    · rcases Nat.lt_or_ge (lastIndex above n + 1) n with hin | hout
      · exact (habove _ hin).mp hab
      · exact hx.trans_le (hs hout)
  constructor
  · rintro rfl
    exact ⟨hle, hlt'⟩
  · rintro ⟨hi, hi'⟩
    exact cell_unique hs hle hlt' hi hi'

/-- A cell is found as often as it is wide. -/
theorem card_lastIndex_eq {above : ℕ → ℕ → Bool}
    (habove : ∀ x < s n, ∀ j < n, above x j = true ↔ x < s j) {i : ℕ} (hi : i < n) :
    ((Finset.range (s n)).filter fun x => lastIndex (above x) n = i).card = s (i + 1) - s i := by
  have hcell : ((Finset.range (s n)).filter fun x => lastIndex (above x) n = i) =
      Finset.Ico (s i) (s (i + 1)) := by
    ext x
    rw [Finset.mem_filter, Finset.mem_range, Finset.mem_Ico]
    constructor
    · rintro ⟨hx, heq⟩
      exact (lastIndex_eq_iff hs h0 hx (habove x hx)).mp heq
    · intro hx
      have hlt : x < s n := hx.2.trans_le (hs hi)
      exact ⟨hlt, (lastIndex_eq_iff hs h0 hlt (habove x hlt)).mpr hx⟩
  rw [hcell, Nat.card_Ico]

end Shares

/-! ### The closed loop -/

/-- The midpoints a bisection of `[lo, hi]` tests if it is on its way to `k`: it goes up from those
    at or below `k` and down from those above. -/
def probes (k lo hi : ℕ) : List ℕ :=
  if lo ≤ hi then
    let mid := (lo + hi) / 2
    mid :: if mid ≤ k then probes k (mid + 1) hi else probes k lo (mid - 1)
  else []
termination_by hi + 1 - lo

/-- A probe at or below the target sends the search up. -/
theorem probes_up {k lo hi : ℕ} (h : lo ≤ hi) (hk : (lo + hi) / 2 ≤ k) :
    probes k lo hi = (lo + hi) / 2 :: probes k ((lo + hi) / 2 + 1) hi := by
  rw [probes, if_pos h]
  simp only [if_pos hk]

/-- A probe above it sends the search down. -/
theorem probes_down {k lo hi : ℕ} (h : lo ≤ hi) (hk : k < (lo + hi) / 2) :
    probes k lo hi = (lo + hi) / 2 :: probes k lo ((lo + hi) / 2 - 1) := by
  rw [probes, if_pos h]
  simp only [if_neg (Nat.not_le.mpr hk)]

/-- A value that is tested lies in the interval. -/
theorem mem_probes_le {k lo hi m : ℕ} (hm : m ∈ probes k lo hi) : lo ≤ m ∧ m ≤ hi := by
  fun_induction probes k lo hi with
  | case1 lo hi h mid ih₁ ih₂ =>
    rcases List.mem_cons.mp hm with rfl | hm
    · omega
    · split_ifs at hm with hk
      · have := ih₁ hm
        omega
      · have := ih₂ hk hm
        omega
  | case2 lo hi h => cases hm

end Lib
