import Leaper.Tools.Train
import Mathlib.Algebra.Order.Floor.Semifield

namespace Leaper.Train

open Lib

/-!
# The timestamp features of trainer and plug-in

The trainer stamps the rows of a slot with the slot's start, in fractional seconds; the plug-in
stamps a feature vector with the whole seconds of the time it is built at.  The start is a sum of
`double`s, and the entry for the seconds a `float`.

* `Args.stamp_eq` — the trainer's entries, from the whole minutes of the start and what is left;
* `stamp_eq_clockOf_iff` — the two agree if the start is as near to the plug-in's second, up to
  whole days, as a `float` cannot tell; for a full minute, if it is that minute;
* `showsSecond_iff` — for slots of whole milliseconds, and starts within a year: if the slot starts
  on that second and the `double`s have not missed a full minute.
-/

/-- The three timestamp entries of a feature vector. -/
def stampColumns (history : ℕ) (f : List ℚ) : List ℚ := (f.drop (2 * history)).take 3

theorem stampColumns_append {h : ℕ} {reads writes stamp precs : List ℚ} (hreads : reads.length = h)
    (hwrites : writes.length = h) (hstamp : stamp.length = 3) :
    stampColumns h (reads ++ writes ++ stamp ++ precs) = stamp := by
  unfold stampColumns
  rw [List.append_assoc (reads ++ writes),
    List.drop_left' (Args.length_histories hreads hwrites), List.take_left' hstamp]

/-- Hour, minute and second of a number of seconds, as `BuildFeatures` writes them. -/
def clockOf (secs : ℕ) : List ℚ :=
  [((secs / 3600 % 24 : ℕ) : ℚ), ((secs / 60 % 60 : ℕ) : ℚ), ((secs % 60 : ℕ) : ℚ)]

theorem stampColumns_buildFeatures (p : Predictor) (c : Collector)
    (hhist : p.history ≤ c.params.history) (range nowUs : ℕ) :
    stampColumns p.history (p.buildFeatures c range nowUs) = clockOf (nowUs / 1000000) := by
  have hlen : ∀ w, ((c.rates w range nowUs).take p.history).length = p.history := by
    intro w
    unfold Collector.rates
    rw [List.length_take, List.length_map, List.length_range]
    exact min_eq_left hhist
  exact stampColumns_append (hlen false) (hlen true) rfl

namespace Args

variable (a : Args)

theorem stampColumns_datasetRow (read write : ℕ → ℕ → ℚ) (prec : ℕ → List ℤ) (r s : ℕ) :
    stampColumns a.history (a.datasetRow read write prec r s) = a.stamp s := by
  unfold datasetRow
  rw [stampColumns_append (by simp) (by simp) rfl]

variable {a} {s : ℕ}

/-- **The trainer's entries**, from the minute of the start. -/
theorem stamp_eq (h0 : 0 ≤ a.slotStart s) :
    a.stamp s = [((⌊a.slotStart s / 60⌋₊ / 60 % 24 : ℕ) : ℚ),
      ((⌊a.slotStart s / 60⌋₊ % 60 : ℕ) : ℚ),
      binary32 (a.slotStart s - 60 * ⌊a.slotStart s / 60⌋₊)] := by
  have hminute : ⌊a.slotStart s / 60⌋ = ((⌊a.slotStart s / 60⌋₊ : ℕ) : ℤ) :=
    (Int.natCast_floor_eq_floor (div_nonneg h0 (by norm_num))).symm
  have hhour : ⌊a.slotStart s / 3600⌋ = ((⌊a.slotStart s / 60⌋₊ / 60 : ℕ) : ℤ) := by
    have hdiv : a.slotStart s / 3600 = a.slotStart s / 60 / (60 : ℕ) := by
      push_cast
      ring
    rw [← Int.natCast_floor_eq_floor (div_nonneg h0 (by norm_num)), hdiv, Nat.floor_div_natCast]
  -- small whole numbers are `float`s
  have hexact : ∀ n m : ℕ, m ≤ 2 ^ 24 → 0 < m →
      binary32 (((n : ℤ) % (m : ℤ) : ℤ) : ℚ) = ((n % m : ℕ) : ℚ) := by
    intro n m hm hpos
    have hlt := Nat.mod_lt n hpos
    rw [← Int.natCast_mod, Int.cast_natCast, binary32_natCast (by omega)]
  have hhours := hexact (⌊a.slotStart s / 60⌋₊ / 60) 24 (by norm_num) (by norm_num)
  have hminutes := hexact ⌊a.slotStart s / 60⌋₊ 60 (by norm_num) (by norm_num)
  unfold stamp
  simp only [hhour, hminute, Int.cast_natCast]
  rw [← hhours, ← hminutes]
  rfl

end Args

/-- **A start that is stamped with a second** of the day: a full minute has to be met, any other
    second up to what a `float` of it cannot tell. -/
def ShowsSecond (t : ℚ) (secs : ℕ) : Prop :=
  ∃ n : ℕ, n % 86400 = secs % 86400 ∧
    if n % 60 = 0 then t = n
    else n - halfBelow 24 (n % 60) ≤ t ∧ t ≤ n + halfAbove 24 (n % 60)

/-- A second of a minute that is not its first, in a `float`. -/
theorem binary32_second_iff {n : ℕ} (h : n % 60 ≠ 0) (t : ℚ) :
    binary32 (t - 60 * (n / 60 : ℕ)) = (n % 60 : ℕ) ↔
      n - halfBelow 24 (n % 60) ≤ t ∧ t ≤ n + halfAbove 24 (n % 60) := by
  have hsum : ((60 * (n / 60) + n % 60 : ℕ) : ℚ) = n := by rw [Nat.div_add_mod]
  push_cast at hsum
  have hlt := Nat.mod_lt n (show 0 < 60 by norm_num)
  rw [binary32_eq_natCast_iff (Nat.pos_of_ne_zero h) (by omega)]
  constructor
  · exact fun ⟨hlo, hhi⟩ => ⟨by linarith, by linarith⟩
  · exact fun ⟨hlo, hhi⟩ => ⟨by linarith, by linarith⟩

/-- A start near such a second is in its minute. -/
theorem floor_minute_of_near {n : ℕ} (h : n % 60 ≠ 0) {t : ℚ} (hlo : n - halfBelow 24 (n % 60) ≤ t)
    (hhi : t ≤ n + halfAbove 24 (n % 60)) : ⌊t / 60⌋₊ = n / 60 := by
  have hlt := Nat.mod_lt n (show 0 < 60 by norm_num)
  have hone := halfAbove_lt_one (p := 24) (Nat.pos_of_ne_zero h) (by omega)
  have hbelow := halfBelow_le_halfAbove 24 (n % 60)
  have hlower : ((60 * (n / 60) + 1 : ℕ) : ℚ) ≤ n := by exact_mod_cast (by omega)
  have hupper : (n : ℚ) + 1 ≤ ((60 * (n / 60) + 60 : ℕ) : ℚ) := by exact_mod_cast (by omega)
  push_cast at hlower hupper
  rw [Nat.floor_eq_iff (by linarith)]
  constructor <;> linarith

/-- **Stamps against the clock.** -/
theorem stamp_eq_clockOf_iff {a : Args} {s : ℕ} (h0 : 0 ≤ a.slotStart s) (secs : ℕ) :
    a.stamp s = clockOf secs ↔ ShowsSecond (a.slotStart s) secs := by
  rw [Args.stamp_eq h0, clockOf]
  generalize a.slotStart s = t at h0 ⊢
  simp only [List.cons.injEq, and_true, Nat.cast_inj]
  have hminute : 60 * (⌊t / 60⌋₊ : ℚ) ≤ t := by
    have := Nat.floor_le (div_nonneg h0 (show (0 : ℚ) ≤ 60 by norm_num))
    linarith
  constructor
  · rintro ⟨hhours, hminutes, hseconds⟩
    -- the second of the start's own minute
    refine ⟨60 * ⌊t / 60⌋₊ + secs % 60, by omega, ?_⟩
    have hmod : (60 * ⌊t / 60⌋₊ + secs % 60) % 60 = secs % 60 := by omega
    have hdiv : (60 * ⌊t / 60⌋₊ + secs % 60) / 60 = ⌊t / 60⌋₊ := by omega
    rw [hmod]
    split_ifs with hzero
    · rw [hzero, Nat.cast_zero, binary32_eq_zero_iff (by linarith)] at hseconds
      rw [hzero]
      push_cast
      linarith
    · have hnear := (binary32_second_iff (n := 60 * ⌊t / 60⌋₊ + secs % 60) (by rwa [hmod]) t).mp
        (by rwa [hdiv, hmod])
      rwa [hmod] at hnear
  · rintro ⟨n, hday, hnear⟩
    split_ifs at hnear with hzero
    · have hfloor : ⌊t / 60⌋₊ = n / 60 := by
        rw [hnear]
        exact_mod_cast Nat.floor_div_eq_div (K := ℚ) n 60
      have hrest : t - 60 * ((n / 60 : ℕ) : ℚ) = 0 := by
        have hsum : ((60 * (n / 60) : ℕ) : ℚ) = n := by exact_mod_cast (by omega)
        rw [hnear, ← hsum]
        push_cast
        ring
      rw [hfloor, hrest, binary32_zero]
      refine ⟨by omega, by omega, ?_⟩
      exact_mod_cast (by omega : 0 = secs % 60)
    · rw [floor_minute_of_near hzero hnear.1 hnear.2, (binary32_second_iff hzero t).mpr hnear]
      exact ⟨by omega, by omega, by exact_mod_cast (by omega : n % 60 = secs % 60)⟩

/-! ### Slots of whole milliseconds -/

section Milliseconds

variable {a : Args} {slotLen shift : ℕ} (hslot : a.slotS = binary64 ((slotLen : ℚ) / 1000))
  (hoffset : a.clockOffsetS = binary64 (((shift * slotLen : ℕ) : ℚ) / 1000))

include hslot hoffset

theorem slotStart_nonneg (s : ℕ) : 0 ≤ a.slotStart s := by
  have hlen : 0 ≤ a.slotS := by
    rw [hslot]
    exact roundSig_nonneg (by norm_num) (by positivity)
  have hoff : 0 ≤ a.clockOffsetS := by
    rw [hoffset]
    exact roundSig_nonneg (by norm_num) (by positivity)
  have hproduct : 0 ≤ binary64 (s * a.slotS) :=
    roundSig_nonneg (by norm_num) (mul_nonneg (Nat.cast_nonneg s) hlen)
  exact roundSig_nonneg (by norm_num) (add_nonneg hproduct hoff)

/-- **The start of a slot**, after four roundings. -/
theorem abs_slotStart_sub_le (s : ℕ) :
    |a.slotStart s - (((s + shift) * slotLen : ℕ) : ℚ) / 1000| ≤
      (((s + shift) * slotLen : ℕ) : ℚ) / 1000 / 2 ^ 51 := by
  have hlen := abs_le.mp (abs_roundSig_sub_le_mul 53 (q := (slotLen : ℚ) / 1000) (by positivity))
  have hoff := abs_le.mp (abs_roundSig_sub_le_mul 53 (q := ((shift * slotLen : ℕ) : ℚ) / 1000)
    (by positivity))
  change -_ ≤ binary64 _ - _ ∧ binary64 _ - _ ≤ _ at hlen hoff
  rw [← hslot] at hlen
  rw [← hoffset] at hoff
  have hs : (0 : ℚ) ≤ s := Nat.cast_nonneg s
  have hslotS : 0 ≤ s * a.slotS := by
    rw [hslot]
    exact mul_nonneg hs (roundSig_nonneg (by norm_num) (by positivity))
  have hproduct := abs_le.mp (abs_roundSig_sub_le_mul 53 hslotS)
  change -_ ≤ binary64 _ - _ ∧ binary64 _ - _ ≤ _ at hproduct
  have hsum0 : 0 ≤ binary64 (s * a.slotS) + a.clockOffsetS := by
    rw [hoffset]
    exact add_nonneg (roundSig_nonneg (by norm_num) hslotS)
      (roundSig_nonneg (by norm_num) (by positivity))
  have hsum := abs_le.mp (abs_roundSig_sub_le_mul 53 hsum0)
  change -_ ≤ a.slotStart s - _ ∧ a.slotStart s - _ ≤ _ at hsum
  -- the first rounding is multiplied by the number of slots
  have hlow := mul_le_mul_of_nonneg_left hlen.1 hs
  have hhigh := mul_le_mul_of_nonneg_left hlen.2 hs
  push_cast at hoff hlow hhigh ⊢
  have hterm : (0 : ℚ) ≤ s * slotLen := by positivity
  have hterm' : (0 : ℚ) ≤ shift * slotLen := by positivity
  rw [abs_le]
  constructor <;> linarith [hproduct.1, hproduct.2, hsum.1, hsum.2, hoff.1, hoff.2]

end Milliseconds

/-- Between a second and the numbers a `float` does not tell from it there is room for the roundings
    of a year. -/
theorem half_bounds {k : ℕ} (hk : 0 < k) (hlt : k < 60) :
    (2 : ℚ) ^ (-25 : ℤ) ≤ halfBelow 24 k ∧ halfBelow 24 k ≤ 2 ^ (-19 : ℤ) ∧
      halfAbove 24 k ≤ 2 ^ (-19 : ℤ) := by
  have hlog : Nat.log 2 k < 6 := Nat.log_lt_of_lt_pow hk.ne' (by omega)
  have habove : halfAbove 24 k ≤ 2 ^ (-19 : ℤ) :=
    zpow_le_zpow_right₀ (by norm_num) (by push_cast; omega)
  refine ⟨?_, (halfBelow_le_halfAbove 24 k).trans habove, habove⟩
  unfold halfBelow
  split_ifs
  · exact zpow_le_zpow_right₀ (by norm_num) (by push_cast; omega)
  · exact zpow_le_zpow_right₀ (by norm_num) (by push_cast; omega)

/-- **Starts of whole milliseconds.** A start that is off by less than a `float` can tell is stamped
    with a second if it is meant to be that second, and exact if that is a full minute. -/
theorem showsSecond_iff {t : ℚ} {ms : ℕ} (h : |t - (ms : ℚ) / 1000| ≤ 2 ^ (-25 : ℤ)) (secs : ℕ) :
    ShowsSecond t secs ↔ 1000 ∣ ms ∧ ms / 1000 % 86400 = secs % 86400 ∧
      (60000 ∣ ms → t = (ms : ℚ) / 1000) := by
  have hnear := abs_le.mp h
  constructor
  · rintro ⟨n, hday, hn⟩
    -- less than a millisecond apart
    have hmeant : ms = 1000 * n := by
      have hclose : |t - n| ≤ 2 ^ (-19 : ℤ) := by
        split_ifs at hn with hzero
        · rw [hn, sub_self, abs_zero]
          positivity
        · obtain ⟨-, hbelow, habove⟩ := half_bounds (Nat.pos_of_ne_zero hzero)
            (Nat.mod_lt n (by norm_num))
          rw [abs_le]
          constructor <;> linarith [hn.1, hn.2]
      have hclose' := abs_le.mp hclose
      norm_num at hnear hclose'
      have hlow : (ms : ℚ) < 1000 * n + 1 := by linarith [hnear.1, hnear.2, hclose'.1, hclose'.2]
      have hhigh : 1000 * (n : ℚ) < ms + 1 := by linarith [hnear.1, hnear.2, hclose'.1, hclose'.2]
      have hlow' : ms < 1000 * n + 1 := by exact_mod_cast hlow
      have hhigh' : 1000 * n < ms + 1 := by exact_mod_cast hhigh
      omega
    subst hmeant
    refine ⟨dvd_mul_right 1000 n, by omega, fun hminute => ?_⟩
    rw [if_pos (by omega)] at hn
    rw [hn]
    push_cast
    ring
  · rintro ⟨⟨n, rfl⟩, hday, hminute⟩
    have hcast : ((1000 * n : ℕ) : ℚ) / 1000 = n := by
      push_cast
      ring
    rw [hcast] at hnear hminute
    refine ⟨n, by omega, ?_⟩
    split_ifs with hzero
    · exact hminute (by omega)
    · obtain ⟨hbelow, -, -⟩ := half_bounds (Nat.pos_of_ne_zero hzero) (Nat.mod_lt n (by norm_num))
      have habove := halfBelow_le_halfAbove 24 (n % 60)
      constructor <;> linarith [hnear.1, hnear.2]

/-- **When training rows and online features carry the same timestamp.** For slots of whole
    milliseconds and a clock offset of whole slots, both as the trainer's `double`s have them: the
    stamp of a row of slot `s` is that of the features built at a time exactly if the `double` start
    of the slot shows the whole second of that time.  If the start lies within a year of the clock's
    zero, that is: the slot is meant to start on a full second, the time is in that second up to
    whole days, and if it is a full minute the `double` start has not missed it. -/
theorem stampColumns_eq_iff (a : Args) (p : Predictor) (c : Collector)
    (hhist : p.history = a.history) (hrows : a.history ≤ c.params.history) {slotLen shift : ℕ}
    (hslot : a.slotS = binary64 ((slotLen : ℚ) / 1000))
    (hoffset : a.clockOffsetS = binary64 (((shift * slotLen : ℕ) : ℚ) / 1000))
    (read write : ℕ → ℕ → ℚ) (prec : ℕ → List ℤ) {nRanges nSlots step r s : ℕ} (hs : a.history ≤ s)
    (hlt : s < nSlots - step) (hr : r < nRanges) (nowUs : ℕ) :
    ((a.buildDataset read write prec nRanges nSlots step).1[(s - a.history) * nRanges + r]?.map
        (stampColumns a.history) = some (stampColumns p.history (p.buildFeatures c r nowUs)) ↔
      ShowsSecond (a.slotStart s) (nowUs / 1000000)) ∧
    ((s + shift) * slotLen ≤ 2 ^ 35 →
      (ShowsSecond (a.slotStart s) (nowUs / 1000000) ↔
        1000 ∣ (s + shift) * slotLen ∧
        (s + shift) * slotLen / 1000 % 86400 = nowUs / 1000000 % 86400 ∧
        (60000 ∣ (s + shift) * slotLen →
          a.slotStart s = (((s + shift) * slotLen : ℕ) : ℚ) / 1000))) := by
  constructor
  · rw [a.buildDataset_row read write prec hs hlt hr, Option.map_some, Option.some_inj,
      a.stampColumns_datasetRow, stampColumns_buildFeatures p c (hhist ▸ hrows)]
    exact stamp_eq_clockOf_iff (slotStart_nonneg hslot hoffset s) _
  · intro hyear
    have hfit : (((s + shift) * slotLen : ℕ) : ℚ) ≤ 2 ^ 35 := by exact_mod_cast hyear
    refine showsSecond_iff ((abs_slotStart_sub_le hslot hoffset s).trans ?_) _
    rw [div_div, div_le_iff₀ (by norm_num)]
    exact hfit.trans (by norm_num)

/-- Slots of ten seconds, without an offset. -/
def tenSecondArgs : Args := ⟨10, 10, 1, 0, 0, 0⟩

/-- A collector with slots of ten seconds. -/
def tenSecondCollector : Collector :=
  Collector.fresh (Collector.newParams 64 1 10 1 one_lt_historyLimit)

/-- Slots of seventy milliseconds. -/
def seventyMsArgs : Args :=
  ⟨binary64 ((70 : ℕ) / 1000), 10, 1, 0, 0, binary64 ((0 * 70 : ℕ) / 1000)⟩

/-- A predictor without models. -/
def bareForecaster : Predictor := ⟨[], fun _ => none, 1, 0, true, [], 0⟩

/-- Slot 100 is meant to start at second 7; the `double`s say a little later, which a `float` of
    seconds does not show. -/
theorem stampColumns_eq_iff_seventyMs :
    7 < seventyMsArgs.slotStart 100 ∧
      (seventyMsArgs.buildDataset (fun _ _ => 0) (fun _ _ => 0) (fun _ => []) 1 103 1).1[
          (100 - 1) * 1 + 0]?.map (stampColumns 1) =
        some (stampColumns 1 (bareForecaster.buildFeatures tenSecondCollector 0 7000000)) := by
  have h := @stampColumns_eq_iff seventyMsArgs bareForecaster tenSecondCollector rfl
    (by decide +kernel) 70 0 rfl rfl (fun _ _ => 0) (fun _ _ => 0) (fun _ => []) 1 103 1 0 100
    (by decide) (by decide) (by decide) 7000000
  exact ⟨by decide +kernel, h.1.mpr ((h.2 (by decide)).mpr ⟨by decide, by decide, by decide⟩)⟩

/-- Three seconds into the slot the plug-in writes second 3 and the trainer second 0. -/
theorem stampColumns_ne :
    tenSecondCollector.params.slotOf 63000000 = 6 ∧ tenSecondArgs.stamp 6 = [0, 1, 0] ∧
      stampColumns 1 (bareForecaster.buildFeatures tenSecondCollector 0 63000000) = [0, 1, 3] := by
  decide +kernel

end Leaper.Train
