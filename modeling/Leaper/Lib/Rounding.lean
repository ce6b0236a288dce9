import Mathlib.Data.Int.Log
import Mathlib.Data.Rat.Floor
import Mathlib.Tactic.Linarith
import Mathlib.Tactic.NormNum
import Mathlib.Tactic.Positivity

namespace Lib

/-!
# Rounding to a significand of `p` bits

`roundSig p q` is `q` rounded to the nearest number with a `p`-bit significand, ties to even:
the conversion to an IEEE format without its exponent limits.  `binary32` and `binary64` are
single and double precision.

* `roundSig_natCast` — integers up to `2^p` are kept; the first one that `binary32` does not keep
  is `2^24 + 1`;
* `abs_roundSig_sub_le` — the error is at most half a unit in the last place;
* `one_le_roundSig` — what is at least one stays so;
* `roundSig_mono`, `roundSig_monotone` — rounding keeps the order;
* `roundSig_eq_natCast_iff` — what rounds to a whole number.
-/

/-- Nearest integer, ties to even. -/
def roundEven (q : ℚ) : ℤ :=
  let f := ⌊q⌋
  if q - f < 1 / 2 then f
  else if 1 / 2 < q - f then f + 1
  else if f % 2 = 0 then f else f + 1

/-- The unit in the last place of a `p`-bit significand at the magnitude of `q`. -/
def ulp (p : ℕ) (q : ℚ) : ℚ := 2 ^ (Int.log 2 |q| - ((p : ℤ) - 1))

/-- Round to a `p`-bit significand. -/
def roundSig (p : ℕ) (q : ℚ) : ℚ := if q = 0 then 0 else roundEven (q / ulp p q) * ulp p q

/-- Round to single precision. -/
def binary32 (q : ℚ) : ℚ := roundSig 24 q

/-- Round to double precision. -/
def binary64 (q : ℚ) : ℚ := roundSig 53 q

/-- Integers are rounded to themselves. -/
@[simp] theorem roundEven_intCast (n : ℤ) : roundEven n = n := by
  simp [roundEven]

@[simp] theorem roundSig_zero (p : ℕ) : roundSig p 0 = 0 := if_pos rfl

@[simp] theorem binary32_zero : binary32 0 = 0 := roundSig_zero 24

@[simp] theorem binary64_zero : binary64 0 = 0 := roundSig_zero 53

/-- The unit in the last place is positive, also at zero. -/
theorem ulp_pos (p : ℕ) (q : ℚ) : 0 < ulp p q := zpow_pos (by norm_num) _

/-- A multiple of its unit in the last place is representable. -/
theorem roundSig_of_eq_mul {p : ℕ} {q : ℚ} {n : ℤ} (h : q = n * ulp p q) : roundSig p q = q := by
  unfold roundSig
  by_cases h0 : q = 0
  · rw [if_pos h0, h0]
  · have hdiv : q / ulp p q = n := by
      rw [div_eq_iff (ne_of_gt (ulp_pos p q))]; exact h
    rw [if_neg h0, hdiv, roundEven_intCast]
    exact h.symm

/-- The exponent of a natural number. -/
theorem log_abs_natCast (n : ℕ) : Int.log 2 |(n : ℚ)| = (Nat.log 2 n : ℤ) := by
  rw [abs_of_nonneg (Nat.cast_nonneg n), Int.log_natCast]

/-- **Exact integers.** Every natural number up to `2^p` is representable. -/
theorem roundSig_natCast {p n : ℕ} (hp : 0 < p) (hn : n ≤ 2 ^ p) : roundSig p (n : ℚ) = n := by
  rcases Nat.lt_or_eq_of_le hn with hlt | rfl
  · rcases Nat.eq_zero_or_pos n with rfl | hpos
    · simp
    · -- The exponent is at most zero, so the unit divides every integer.
      have hle : Nat.log 2 n ≤ p - 1 := by
        have := Nat.log_lt_of_lt_pow hpos.ne' hlt
        omega
      refine roundSig_of_eq_mul (n := (n : ℤ) * 2 ^ (p - 1 - Nat.log 2 n)) ?_
      have hulp : ulp p (n : ℚ) = (2 ^ (p - 1 - Nat.log 2 n))⁻¹ := by
        unfold ulp
        rw [log_abs_natCast, ← zpow_natCast, ← zpow_neg]
        congr 1
        omega
      rw [hulp]
      push_cast
      field_simp
  · -- A power of two is half as many units of twice the size.
    refine roundSig_of_eq_mul (n := 2 ^ (p - 1)) ?_
    have hulp : ulp p ((2 ^ p : ℕ) : ℚ) = 2 := by
      unfold ulp
      rw [log_abs_natCast, Nat.log_pow (by norm_num), sub_sub_cancel, zpow_one]
    rw [hulp]
    push_cast
    rw [← pow_succ]
    congr 1
    omega

/-- Counts up to 2^24 are exact in a `float`. -/
theorem binary32_natCast {n : ℕ} (hn : n ≤ 2 ^ 24) : binary32 (n : ℚ) = n :=
  roundSig_natCast (by norm_num) hn

/-- Counts up to 2^53 are exact in a `double`. -/
theorem binary64_natCast {n : ℕ} (hn : n ≤ 2 ^ 53) : binary64 (n : ℚ) = n :=
  roundSig_natCast (by norm_num) hn

/-! ### Bounds -/

/-- Rounding to an integer is off by at most one half. -/
theorem abs_roundEven_sub_le (q : ℚ) : |(roundEven q : ℚ) - q| ≤ 1 / 2 := by
  have hle := Int.floor_le q
  have hlt := Int.lt_floor_add_one q
  unfold roundEven
  simp only
  rw [abs_le]
  split_ifs
  · constructor <;> linarith
  · push_cast
    constructor <;> linarith
  · constructor <;> linarith
  · push_cast
    constructor <;> linarith

/-- An integer below stays below. -/
theorem le_roundEven {n : ℤ} {q : ℚ} (h : (n : ℚ) ≤ q) : n ≤ roundEven q := by
  have hfloor : n ≤ ⌊q⌋ := Int.le_floor.mpr h
  unfold roundEven
  simp only
  split_ifs <;> omega

/-- An integer above stays above. -/
theorem roundEven_le {n : ℤ} {q : ℚ} (h : q ≤ n) : roundEven q ≤ n := by
  have hle := Int.floor_le q
  have hfloor : ⌊q⌋ ≤ n := by exact_mod_cast hle.trans h
  rcases hfloor.eq_or_lt with heq | hlt
  · -- then `q` is this integer
    have hq : q = n := le_antisymm h (by rw [← heq]; exact hle)
    rw [hq, roundEven_intCast]
  · unfold roundEven
    simp only
    split_ifs <;> omega

/-- Rounding to an integer is monotone. -/
theorem roundEven_mono {q q' : ℚ} (h : q ≤ q') : roundEven q ≤ roundEven q' := by
  rcases (Int.floor_mono h).eq_or_lt with heq | hlt
  · have hcast : (⌊q⌋ : ℚ) = ⌊q'⌋ := by rw [heq]
    unfold roundEven
    simp only
    rw [← heq]
    split_ifs <;> first | omega | (exfalso; linarith)
  · -- an integer lies between the two
    calc roundEven q ≤ ⌊q⌋ + 1 := roundEven_le (by push_cast; exact (Int.lt_floor_add_one q).le)
      _ ≤ ⌊q'⌋ := hlt
      _ ≤ roundEven q' := le_roundEven (Int.floor_le q')

/-- **The error of a rounding.** -/
theorem abs_roundSig_sub_le (p : ℕ) (q : ℚ) : |roundSig p q - q| ≤ ulp p q / 2 := by
  have hulp := ulp_pos p q
  unfold roundSig
  by_cases h0 : q = 0
  · rw [if_pos h0, h0, sub_zero, abs_zero]
    exact div_nonneg (ulp_pos p 0).le (by norm_num)
  · have hq : q = q / ulp p q * ulp p q := (div_mul_cancel₀ q hulp.ne').symm
    have hscale : roundEven (q / ulp p q) * ulp p q - q =
        (roundEven (q / ulp p q) - q / ulp p q) * ulp p q := by
      rw [sub_mul, ← hq]
    rw [if_neg h0, hscale, abs_mul, abs_of_pos hulp]
    calc |(roundEven (q / ulp p q) : ℚ) - q / ulp p q| * ulp p q
        ≤ 1 / 2 * ulp p q := mul_le_mul_of_nonneg_right (abs_roundEven_sub_le _) hulp.le
      _ = ulp p q / 2 := by ring

/-- The unit in the last place below a power of two. -/
theorem ulp_le {p : ℕ} {q : ℚ} (h0 : q ≠ 0) {e : ℤ} (h : |q| < 2 ^ (e + 1)) :
    ulp p q ≤ 2 ^ (e - ((p : ℤ) - 1)) := by
  have hlog : Int.log 2 |q| < e + 1 := by
    rw [← Int.lt_zpow_iff_log_lt (by norm_num) (abs_pos.mpr h0)]
    exact_mod_cast h
  exact zpow_le_zpow_right₀ (by norm_num) (by omega)

/-- The error below a power of two. -/
theorem abs_roundSig_sub_le_zpow {p : ℕ} {q : ℚ} {e : ℤ} (h : |q| < 2 ^ (e + 1)) :
    |roundSig p q - q| ≤ 2 ^ (e - ((p : ℤ) - 1)) / 2 := by
  rcases eq_or_ne q 0 with rfl | h0
  · rw [roundSig_zero, sub_zero, abs_zero]
    exact div_nonneg (zpow_nonneg zero_le_two _) zero_le_two
  · exact (abs_roundSig_sub_le p q).trans (div_le_div_of_nonneg_right (ulp_le h0 h) zero_le_two)

/-- The unit in the last place of a positive number, by its logarithm. -/
theorem ulp_of_pos {p : ℕ} {q : ℚ} (hpos : 0 < q) :
    ulp p q = 2 ^ (Int.log 2 q - ((p : ℤ) - 1)) := by
  unfold ulp
  rw [abs_of_pos hpos]

/-- A power of two in units of the last place. -/
theorem zpow_mul_ulp {p : ℕ} {q : ℚ} (hpos : 0 < q) (k : ℤ) :
    (2 : ℚ) ^ k * ulp p q = 2 ^ (k + (Int.log 2 q - ((p : ℤ) - 1))) := by
  rw [ulp_of_pos hpos, zpow_add₀ (by norm_num)]

/-- The power of two below a number stays below it. -/
theorem zpow_log_le_roundSig {p : ℕ} (hp : 0 < p) {q : ℚ} (hpos : 0 < q) :
    (2 : ℚ) ^ Int.log 2 q ≤ roundSig p q := by
  have hbelow : (2 : ℚ) ^ Int.log 2 q ≤ q := by
    exact_mod_cast Int.zpow_log_le_self (b := 2) (by norm_num) hpos
  have hunits : ((2 ^ (p - 1) : ℤ) : ℚ) * ulp p q = 2 ^ Int.log 2 q := by
    push_cast
    rw [← zpow_natCast, zpow_mul_ulp hpos]
    congr 1
    omega
  have hround : (2 ^ (p - 1) : ℤ) ≤ roundEven (q / ulp p q) := by
    apply le_roundEven
    rw [le_div_iff₀ (ulp_pos p q), hunits]
    exact hbelow
  unfold roundSig
  rw [if_neg hpos.ne', ← hunits]
  exact mul_le_mul_of_nonneg_right (by exact_mod_cast hround) (ulp_pos p q).le

/-- The power of two above a number stays above it, or is reached. -/
theorem roundSig_le_zpow_log {p : ℕ} {q : ℚ} (hpos : 0 < q) :
    roundSig p q ≤ 2 ^ (Int.log 2 q + 1) := by
  have habove : q < (2 : ℚ) ^ (Int.log 2 q + 1) := by
    exact_mod_cast Int.lt_zpow_succ_log_self (b := 2) (by norm_num) q
  have hunits : ((2 ^ p : ℤ) : ℚ) * ulp p q = 2 ^ (Int.log 2 q + 1) := by
    push_cast
    rw [← zpow_natCast, zpow_mul_ulp hpos]
    congr 1
    omega
  have hround : roundEven (q / ulp p q) ≤ (2 ^ p : ℤ) := by
    apply roundEven_le
    rw [div_le_iff₀ (ulp_pos p q), hunits]
    exact habove.le
  unfold roundSig
  rw [if_neg hpos.ne', ← hunits]
  exact mul_le_mul_of_nonneg_right (by exact_mod_cast hround) (ulp_pos p q).le

/-- What is at least one stays so. -/
theorem one_le_roundSig {p : ℕ} (hp : 0 < p) {q : ℚ} (h : 1 ≤ q) : 1 ≤ roundSig p q := by
  have hlog : 0 ≤ Int.log 2 q := by
    have hone := Int.log_mono_right (b := 2) one_pos h
    rwa [Int.log_one_right] at hone
  calc (1 : ℚ) ≤ 2 ^ Int.log 2 q := one_le_zpow₀ (by norm_num) hlog
    _ ≤ roundSig p q := zpow_log_le_roundSig hp (one_pos.trans_le h)

/-- Rounding keeps the sign: not below zero. -/
theorem roundSig_nonneg {p : ℕ} (hp : 0 < p) {q : ℚ} (h : 0 ≤ q) : 0 ≤ roundSig p q := by
  rcases h.eq_or_lt with rfl | hpos
  · rw [roundSig_zero]
  · exact (zpow_pos (by norm_num) _).le.trans (zpow_log_le_roundSig hp hpos)

/-- Rounding keeps the sign: not above zero. -/
theorem roundSig_nonpos {p : ℕ} {q : ℚ} (h : q ≤ 0) : roundSig p q ≤ 0 := by
  have hround : roundEven (q / ulp p q) ≤ 0 := by
    apply roundEven_le
    exact_mod_cast div_nonpos_of_nonpos_of_nonneg h (ulp_pos p q).le
  unfold roundSig
  split_ifs
  · exact le_rfl
  · exact mul_nonpos_of_nonpos_of_nonneg (by exact_mod_cast hround) (ulp_pos p q).le

/-- **Rounding keeps the order** of numbers that are not negative.  Between two magnitudes there is
    a power of two, which both roundings respect. -/
theorem roundSig_mono {p : ℕ} (hp : 0 < p) {q q' : ℚ} (h0 : 0 ≤ q) (h : q ≤ q') :
    roundSig p q ≤ roundSig p q' := by
  rcases h0.eq_or_lt with rfl | hpos
  · rw [roundSig_zero]
    exact roundSig_nonneg hp h
  · have hpos' : 0 < q' := hpos.trans_le h
    rcases (Int.log_mono_right (b := 2) hpos h).eq_or_lt with hlog | hlog
    · have hulp : ulp p q = ulp p q' := by rw [ulp_of_pos hpos, ulp_of_pos hpos', hlog]
      have hround := roundEven_mono (div_le_div_of_nonneg_right h (ulp_pos p q').le)
      unfold roundSig
      rw [if_neg hpos.ne', if_neg hpos'.ne', hulp]
      exact mul_le_mul_of_nonneg_right (by exact_mod_cast hround) (ulp_pos p q').le
    · calc roundSig p q ≤ 2 ^ (Int.log 2 q + 1) := roundSig_le_zpow_log hpos
        _ ≤ 2 ^ Int.log 2 q' := zpow_le_zpow_right₀ (by norm_num) hlog
        _ ≤ roundSig p q' := zpow_log_le_roundSig hp hpos'

/-- Ties go to even, so rounding commutes with negation. -/
theorem roundEven_neg (q : ℚ) : roundEven (-q) = -roundEven q := by
  have hle := Int.floor_le q
  have hlt := Int.lt_floor_add_one q
  by_cases hint : (⌊q⌋ : ℚ) = q
  · rw [← hint, ← Int.cast_neg, roundEven_intCast, roundEven_intCast]
  · have hfloor : ⌊-q⌋ = -⌊q⌋ - 1 := by
      rw [Int.floor_eq_iff]
      have := lt_of_le_of_ne hle hint
      push_cast
      constructor <;> linarith
    unfold roundEven
    simp only [hfloor]
    push_cast
    -- a tie goes to the same even number
    have hodd : (-⌊q⌋ - 1) % 2 = 0 ↔ ¬ ⌊q⌋ % 2 = 0 := by omega
    simp only [hodd]
    split_ifs <;> first | omega | (exfalso; linarith)

/-- Rounding to significant digits commutes with negation. -/
theorem roundSig_neg (p : ℕ) (q : ℚ) : roundSig p (-q) = -roundSig p q := by
  have hulp : ulp p (-q) = ulp p q := by
    unfold ulp
    rw [abs_neg]
  unfold roundSig
  by_cases h : q = 0
  · simp [h]
  · rw [if_neg h, if_neg (neg_ne_zero.mpr h), hulp, neg_div, roundEven_neg]
    push_cast
    ring

/-- **Rounding keeps the order.** -/
theorem roundSig_monotone {p : ℕ} (hp : 0 < p) : Monotone (roundSig p) := by
  intro q q' h
  rcases le_total 0 q with h0 | h0
  · exact roundSig_mono hp h0 h
  · rcases le_total 0 q' with h0' | h0'
    · exact (roundSig_nonpos h0).trans (roundSig_nonneg hp h0')
    · have hneg := roundSig_mono hp (neg_nonneg.mpr h0') (neg_le_neg h)
      rw [roundSig_neg, roundSig_neg] at hneg
      exact neg_le_neg_iff.mp hneg

/-- The error relative to the number. -/
theorem abs_roundSig_sub_le_mul (p : ℕ) {q : ℚ} (h : 0 ≤ q) :
    |roundSig p q - q| ≤ q / 2 ^ p := by
  rcases h.eq_or_lt with rfl | hpos
  · simp
  · have hbelow : (2 : ℚ) ^ Int.log 2 q ≤ q := by
      exact_mod_cast Int.zpow_log_le_self (b := 2) (by norm_num) hpos
    have hhalf : ulp p q / 2 = 2 ^ Int.log 2 q / 2 ^ p := by
      have hexp : Int.log 2 q - ((p : ℤ) - 1) = Int.log 2 q - p + 1 := by ring
      rw [ulp_of_pos hpos, hexp, zpow_add_one₀ (by norm_num), zpow_sub₀ (by norm_num),
        zpow_natCast]
      ring
    calc |roundSig p q - q| ≤ ulp p q / 2 := abs_roundSig_sub_le p q
      _ = 2 ^ Int.log 2 q / 2 ^ p := hhalf
      _ ≤ q / 2 ^ p := div_le_div_of_nonneg_right hbelow (by positivity)

/-- One is representable, so nothing from one on falls below it. -/
theorem one_le_binary32 {q : ℚ} (h : 1 ≤ q) : 1 ≤ binary32 q := one_le_roundSig (by norm_num) h

/-- The first integer that is not representable rounds down to `2^24`. -/
theorem binary32_two_pow_24_add_one : binary32 ((2 ^ 24 + 1 : ℕ) : ℚ) = 2 ^ 24 := by
  have hlog : Nat.log 2 (2 ^ 24 + 1) = 24 := by
    rw [Nat.log_eq_iff (by norm_num)]
    norm_num
  have hulp : ulp 24 ((2 ^ 24 + 1 : ℕ) : ℚ) = 2 := by
    unfold ulp
    rw [log_abs_natCast, hlog]
    norm_num
  have hround : roundEven (((2 ^ 24 + 1 : ℕ) : ℚ) / 2) = 2 ^ 23 := by
    have hfloor : ⌊((2 ^ 24 + 1 : ℕ) : ℚ) / 2⌋ = 2 ^ 23 := by
      rw [Int.floor_eq_iff]; norm_num
    unfold roundEven
    rw [hfloor]
    norm_num
  unfold binary32 roundSig
  rw [if_neg (by norm_num), hulp, hround]
  norm_num

/-! ### What rounds to a whole number -/

/-- A tie above an even number goes down to it. -/
theorem roundEven_add_half {n : ℤ} (hn : n % 2 = 0) : roundEven (n + 1 / 2) = n := by
  have hfloor : ⌊(n : ℚ) + 1 / 2⌋ = n := by
    rw [Int.floor_eq_iff]
    constructor <;> linarith
  unfold roundEven
  simp only [hfloor]
  rw [if_neg (by linarith), if_neg (by linarith), if_pos hn]

/-- A tie below an even number goes up to it. -/
theorem roundEven_sub_half {n : ℤ} (hn : n % 2 = 0) : roundEven (n - 1 / 2) = n := by
  have hfloor : ⌊(n : ℚ) - 1 / 2⌋ = n - 1 := by
    rw [Int.floor_eq_iff]
    push_cast
    constructor <;> linarith
  unfold roundEven
  simp only [hfloor]
  push_cast
  rw [if_neg (by linarith), if_neg (by linarith), if_neg (by omega)]
  ring

/-- Rounding between two powers of two, in units of the last place. -/
theorem roundSig_units {p : ℕ} {e : ℤ} {x : ℚ} (hlo : (2 : ℚ) ^ e ≤ x * 2 ^ (e + 1 - p))
    (hhi : x * 2 ^ (e + 1 - p) < (2 : ℚ) ^ (e + 1)) :
    roundSig p (x * 2 ^ (e + 1 - p)) = roundEven x * 2 ^ (e + 1 - p) := by
  have hunit : (0 : ℚ) < 2 ^ (e + 1 - p) := zpow_pos (by norm_num) _
  have hpos : 0 < x * 2 ^ (e + 1 - p) := (zpow_pos (by norm_num) e).trans_le hlo
  have hlog : Int.log 2 (x * 2 ^ (e + 1 - p)) = e := by
    apply le_antisymm
    · have hlt : Int.log 2 (x * 2 ^ (e + 1 - p)) < e + 1 := by
        rw [← Int.lt_zpow_iff_log_lt (by norm_num) hpos]
        exact_mod_cast hhi
      omega
    · rw [← Int.zpow_le_iff_le_log (by norm_num) hpos]
      exact_mod_cast hlo
  have hulp : ulp p (x * 2 ^ (e + 1 - p)) = 2 ^ (e + 1 - p) := by
    rw [ulp_of_pos hpos, hlog]
    congr 1
    ring
  unfold roundSig
  rw [if_neg hpos.ne', hulp, mul_div_cancel_right₀ _ hunit.ne']

/-- Half the distance from a whole number to the next number with a `p`-bit significand. -/
def halfAbove (p n : ℕ) : ℚ := 2 ^ ((Nat.log 2 n : ℤ) - p)

/-- Half the distance to the number before it, which is smaller at a power of two. -/
def halfBelow (p n : ℕ) : ℚ :=
  if n = 2 ^ Nat.log 2 n then 2 ^ ((Nat.log 2 n : ℤ) - p - 1) else 2 ^ ((Nat.log 2 n : ℤ) - p)

/-- The gap above a number is not empty. -/
theorem halfAbove_pos (p n : ℕ) : 0 < halfAbove p n := zpow_pos (by norm_num) _

/-- Below a power of two the gap is the smaller one. -/
theorem halfBelow_le_halfAbove (p n : ℕ) : halfBelow p n ≤ halfAbove p n := by
  unfold halfBelow halfAbove
  split_ifs
  · exact zpow_le_zpow_right₀ (by norm_num) (by omega)
  · exact le_rfl

/-- The binade a number lies in begins at or below it. -/
theorem two_zpow_log_le {n : ℕ} (hn : 0 < n) : (2 : ℚ) ^ (Nat.log 2 n : ℤ) ≤ n := by
  rw [zpow_natCast]
  exact_mod_cast Nat.pow_log_le_self 2 hn.ne'

/-- The binade a number lies in ends above it. -/
theorem add_one_le_two_zpow_log (n : ℕ) : (n : ℚ) + 1 ≤ 2 ^ ((Nat.log 2 n : ℤ) + 1) := by
  have hcast : (2 : ℚ) ^ (Nat.log 2 n + 1) = 2 ^ ((Nat.log 2 n : ℤ) + 1) := by
    rw [← zpow_natCast]
    norm_cast
  rw [← hcast]
  exact_mod_cast Nat.lt_pow_succ_log_self (b := 2) (by norm_num) n

/-- What rounds to a number is not farther from it than half a unit of its own last place. -/
theorem abs_sub_le_of_roundSig_eq {p : ℕ} {q r : ℚ} (hpos : 0 < q) (h : roundSig p q = r) {e : ℤ}
    (hlog : Int.log 2 q ≤ e) : |r - q| ≤ 2 ^ (e - p) := by
  have hle : ulp p q ≤ 2 ^ (e - p + 1) := by
    rw [ulp_of_pos hpos]
    exact zpow_le_zpow_right₀ (by norm_num) (by omega)
  rw [zpow_add_one₀ (by norm_num)] at hle
  have herr := abs_roundSig_sub_le p q
  rw [h] at herr
  linarith

section Whole

variable {p n : ℕ} (hn : 0 < n) (hlt : n < 2 ^ (p - 1))

include hn hlt

/-- A number of fewer than `p` bits has room below its last one. -/
theorem log_lt_of_lt_two_pow : Nat.log 2 n < p - 1 := Nat.log_lt_of_lt_pow hn.ne' hlt

/-- A number of fewer than `p` bits has neighbours closer than one. -/
theorem halfAbove_lt_one : halfAbove p n < 1 := by
  have hlog := log_lt_of_lt_two_pow hn hlt
  exact zpow_lt_one_of_neg₀ (by norm_num) (by omega)

/-- A whole number is an even number of units of the last place. -/
theorem exists_even_units : ∃ m : ℤ, m % 2 = 0 ∧
    (n : ℚ) = m * 2 ^ ((Nat.log 2 n : ℤ) + 1 - p) := by
  have hlog := log_lt_of_lt_two_pow hn hlt
  have hone : (2 : ℚ) * 2 ^ (p - 2 - Nat.log 2 n) * 2 ^ ((Nat.log 2 n : ℤ) + 1 - p) = 1 := by
    rw [← pow_succ', ← zpow_natCast, ← zpow_add₀ (by norm_num)]
    convert zpow_zero (2 : ℚ) using 2
    omega
  refine ⟨2 * (n * 2 ^ (p - 2 - Nat.log 2 n)), by omega, ?_⟩
  push_cast
  calc (n : ℚ) = n * (2 * 2 ^ (p - 2 - Nat.log 2 n) * 2 ^ ((Nat.log 2 n : ℤ) + 1 - p)) := by
        rw [hone, mul_one]
    _ = _ := by ring

/-- The midpoint above goes down to the whole number. -/
theorem roundSig_add_halfAbove : roundSig p (n + halfAbove p n) = n := by
  obtain ⟨m, heven, hm⟩ := exists_even_units hn hlt
  have hhalf : halfAbove p n = 1 / 2 * 2 ^ ((Nat.log 2 n : ℤ) + 1 - p) := by
    unfold halfAbove
    rw [show (Nat.log 2 n : ℤ) + 1 - p = (Nat.log 2 n : ℤ) - p + 1 by ring,
      zpow_add_one₀ (by norm_num)]
    ring
  have hsum : (n : ℚ) + halfAbove p n = (m + 1 / 2) * 2 ^ ((Nat.log 2 n : ℤ) + 1 - p) := by
    rw [hhalf, add_mul, ← hm]
  have hlo := two_zpow_log_le hn
  have hhi := add_one_le_two_zpow_log n
  have hpos := halfAbove_pos p n
  have hone := halfAbove_lt_one hn hlt
  rw [hsum, roundSig_units, roundEven_add_half heven, ← hm]
  · rw [← hsum]
    linarith
  · rw [← hsum]
    linarith

/-- The midpoint below goes up to it: in the binade of the number or, at a power of two, in the one
    before. -/
theorem roundSig_sub_halfBelow : roundSig p (n - halfBelow p n) = n := by
  have hlow := two_zpow_log_le hn
  have hhigh := add_one_le_two_zpow_log n
  unfold halfBelow
  split_ifs with hpow
  · -- at a power of two the neighbour below is in the binade before, half as far away
    have hlog := log_lt_of_lt_two_pow hn hlt
    have hcast : (n : ℚ) = 2 ^ (Nat.log 2 n : ℤ) := by
      rw [zpow_natCast]
      exact_mod_cast hpow
    generalize (Nat.log 2 n : ℤ) = e at *
    have htwice : (2 : ℚ) ^ (e - 1 + 1) = 2 ^ (e - 1) * 2 := zpow_add_one₀ (by norm_num) _
    have hunits : (2 : ℚ) ^ e = ((2 ^ p : ℤ) : ℚ) * 2 ^ (e - 1 + 1 - p) := by
      push_cast
      rw [← zpow_natCast, ← zpow_add₀ (by norm_num)]
      congr 1
      ring
    have hdiff : (2 : ℚ) ^ e - 2 ^ (e - p - 1) =
        (((2 ^ p : ℤ) : ℚ) - 1 / 2) * 2 ^ (e - 1 + 1 - p) := by
      rw [sub_mul, ← hunits, show e - 1 + 1 - (p : ℤ) = e - p - 1 + 1 by ring,
        zpow_add_one₀ (by norm_num)]
      ring
    have heven : (2 ^ p : ℤ) % 2 = 0 := by
      obtain ⟨k, rfl⟩ : ∃ k, p = k + 1 := ⟨p - 1, by omega⟩
      rw [pow_succ]
      omega
    have hsmall : (2 : ℚ) ^ (e - p - 1) ≤ 2 ^ (e - 1) :=
      zpow_le_zpow_right₀ (by norm_num) (by omega)
    have hpos : (0 : ℚ) < 2 ^ (e - p - 1) := zpow_pos (by norm_num) _
    have hsame : (2 : ℚ) ^ (e - 1 + 1) = 2 ^ e := by rw [sub_add_cancel]
    rw [hcast, hdiff, roundSig_units, roundEven_sub_half heven, ← hunits]
    · rw [← hdiff]
      linarith
    · rw [← hdiff, hsame]
      linarith
  · -- elsewhere it is in the same binade
    obtain ⟨m, heven, hm⟩ := exists_even_units hn hlt
    have hdiff : (n : ℚ) - 2 ^ ((Nat.log 2 n : ℤ) - p) =
        (m - 1 / 2) * 2 ^ ((Nat.log 2 n : ℤ) + 1 - p) := by
      rw [sub_mul, ← hm, show (Nat.log 2 n : ℤ) + 1 - p = (Nat.log 2 n : ℤ) - p + 1 by ring,
        zpow_add_one₀ (by norm_num)]
      ring
    have hone : (2 : ℚ) ^ ((Nat.log 2 n : ℤ) - p) < 1 := halfAbove_lt_one hn hlt
    have hpos : (0 : ℚ) < 2 ^ ((Nat.log 2 n : ℤ) - p) := zpow_pos (by norm_num) _
    have hnext : (2 : ℚ) ^ (Nat.log 2 n : ℤ) + 1 ≤ n := by
      have hle := Nat.pow_log_le_self 2 hn.ne'
      rw [zpow_natCast]
      exact_mod_cast (show 2 ^ Nat.log 2 n + 1 ≤ n by omega)
    rw [hdiff, roundSig_units, roundEven_sub_half heven, ← hm]
    · rw [← hdiff]
      linarith
    · rw [← hdiff]
      linarith

/-- **What rounds to a whole number** of less than `p` bits: what is not farther from it than the
    midpoints to its neighbours, which are themselves rounded to it. -/
theorem roundSig_eq_natCast_iff {q : ℚ} :
    roundSig p q = n ↔ n - halfBelow p n ≤ q ∧ q ≤ n + halfAbove p n := by
  have hp : 0 < p := by
    have := log_lt_of_lt_two_pow hn hlt
    omega
  have hcast : (1 : ℚ) ≤ n := by exact_mod_cast hn
  constructor
  · intro h
    have hpos : 0 < q := by
      by_contra hle
      have := roundSig_nonpos (p := p) (not_lt.mp hle)
      linarith
    -- the power of two below `q` stays below the whole number
    have hlog : Int.log 2 q ≤ (Nat.log 2 n : ℤ) := by
      have hzpow : (2 : ℚ) ^ Int.log 2 q < 2 ^ ((Nat.log 2 n : ℤ) + 1) := by
        have := zpow_log_le_roundSig hp hpos
        have := add_one_le_two_zpow_log n
        linarith
      have := (zpow_lt_zpow_iff_right₀ (by norm_num)).mp hzpow
      omega
    have herr := abs_le.mp (abs_sub_le_of_roundSig_eq hpos h hlog)
    refine ⟨?_, by unfold halfAbove; linarith [herr.1]⟩
    unfold halfBelow
    split_ifs with hpow
    · by_cases hbelow : q < n
      · have hsmaller : Int.log 2 q < Nat.log 2 n := by
          rw [← Int.lt_zpow_iff_log_lt (by norm_num) hpos, zpow_natCast]
          calc q < n := hbelow
            _ = _ := by exact_mod_cast hpow
        have herr' := abs_le.mp
          (abs_sub_le_of_roundSig_eq (e := (Nat.log 2 n : ℤ) - 1) hpos h (by omega))
        rw [show (Nat.log 2 n : ℤ) - 1 - p = (Nat.log 2 n : ℤ) - p - 1 by ring] at herr'
        linarith [herr'.2]
      · have : (0 : ℚ) < 2 ^ ((Nat.log 2 n : ℤ) - p - 1) := zpow_pos (by norm_num) _
        linarith
    · linarith [herr.2]
  · rintro ⟨hlow, hhigh⟩
    have hbelow : (0 : ℚ) ≤ n - halfBelow p n := by
      have := (halfBelow_le_halfAbove p n).trans_lt (halfAbove_lt_one hn hlt)
      linarith
    apply le_antisymm
    · rw [← roundSig_add_halfAbove hn hlt]
      exact roundSig_mono hp (hbelow.trans hlow) hhigh
    · rw [← roundSig_sub_halfBelow hn hlt]
      exact roundSig_mono hp hbelow hlow

end Whole

/-- What a `float` column shows as a whole number. -/
theorem binary32_eq_natCast_iff {n : ℕ} (hn : 0 < n) (hlt : n < 2 ^ 23) {q : ℚ} :
    binary32 q = n ↔ n - halfBelow 24 n ≤ q ∧ q ≤ n + halfAbove 24 n :=
  roundSig_eq_natCast_iff hn hlt

/-- Without an exponent range nothing but zero is rounded to zero. -/
theorem binary32_eq_zero_iff {q : ℚ} (h : 0 ≤ q) : binary32 q = 0 ↔ q = 0 := by
  constructor
  · intro hzero
    rcases h.eq_or_lt with hq | hpos
    · exact hq.symm
    · have hle := zpow_log_le_roundSig (p := 24) (by norm_num) hpos
      have : (0 : ℚ) < 2 ^ Int.log 2 q := zpow_pos (by norm_num) _
      have hround : roundSig 24 q = 0 := hzero
      linarith
  · rintro rfl
    exact binary32_zero

end Lib
