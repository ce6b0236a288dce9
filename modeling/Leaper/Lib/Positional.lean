import Mathlib.Data.List.Basic
import Mathlib.Data.Nat.ModEq
import Mathlib.Tactic.Ring

namespace Lib

/-!
# Positional numerals, right-padded to a width

`place base dig w s` reads the first `w` symbols of `s` as a numeral and pads it on the right
with zeros up to `w` places.  On well-formed symbols it turns the dictionary order of strings
into the order of numbers, however the strings were shortened:

* `Numerals.place_mono` — a string before another is not a larger numeral;
* `Numerals.dictLe_iff` — against a string of full width the numeral decides, and among strings
  of one numeral those of full width come last;
* `foldl_place_modEq` — reading and padding in machine arithmetic give the numeral modulo the
  word size;
* `place_digits` — the digits of a number are a numeral for it;
* `scan_eq_filter` — a forward scan over sorted strings between two bounds sees the strings of
  the half-open interval.
-/

/-- The numeral `s` in `w` places; missing places are zero and further symbols are cut off. -/
def place (base : ℕ) (dig : ℕ → ℕ) : ℕ → List ℕ → ℕ
  | 0, _ => 0
  | _ + 1, [] => 0
  | w + 1, c :: s => dig c * base ^ w + place base dig w s

/-- The dictionary order of strings: the first difference decides, and a string comes before
    its continuations. -/
def dictLe : List ℕ → List ℕ → Bool
  | [], _ => true
  | _ :: _, [] => false
  | c :: s, d :: t => decide (c < d) || decide (c = d) && dictLe s t

/-- The strict dictionary order. -/
def dictLt : List ℕ → List ℕ → Bool
  | _, [] => false
  | [], _ :: _ => true
  | c :: s, d :: t => decide (c < d) || decide (c = d) && dictLt s t

/-- The symbols `D` stand for digits of the base, in their own order. -/
structure Numerals (base : ℕ) (dig : ℕ → ℕ) (D : ℕ → Prop) : Prop where
  pos : 0 < base
  lt : ∀ c, D c → dig c < base
  mono : ∀ c d, D c → D d → c < d → dig c < dig d

@[simp] theorem dictLe_nil (t : List ℕ) : dictLe [] t = true := by
  cases t <;> rfl

/-- The first places decide; if they are equal, the rest does. -/
@[simp] theorem dictLe_cons (c d : ℕ) (s t : List ℕ) :
    dictLe (c :: s) (d :: t) = true ↔ c < d ∨ c = d ∧ dictLe s t = true := by
  simp [dictLe]

/-- The order is reflexive. -/
theorem dictLe_refl (s : List ℕ) : dictLe s s = true := by
  induction s with
  | nil => rfl
  | cons c s ih => exact (dictLe_cons c c s s).mpr (.inr ⟨rfl, ih⟩)

/-- Of two strings, one is strictly before the other or not after it. -/
theorem dictLt_eq_not (s t : List ℕ) : dictLt s t = !dictLe t s := by
  induction s generalizing t with
  | nil => cases t <;> rfl
  | cons c s ih =>
    cases t with
    | nil => rfl
    | cons d t =>
      rw [dictLt, dictLe, ih t]
      rcases lt_trichotomy c d with hlt | rfl | hgt
      · simp [hlt, hlt.ne', hlt.not_gt]
      · simp
      · simp [hgt, hgt.ne', hgt.not_gt]

/-- The order is weaker than the strict one. -/
theorem dictLe_of_dictLt {s t : List ℕ} (h : dictLt s t = true) : dictLe s t = true := by
  induction s generalizing t with
  | nil => exact dictLe_nil t
  | cons c s ih =>
    cases t with
    | nil => exact absurd h Bool.false_ne_true
    | cons d t =>
      simp only [dictLt, Bool.or_eq_true, decide_eq_true_eq, Bool.and_eq_true] at h
      exact (dictLe_cons c d s t).mpr (h.imp_right fun hrest => ⟨hrest.1, ih hrest.2⟩)

/-- The order is transitive. -/
theorem dictLe_trans {s t u : List ℕ} (hst : dictLe s t = true) (htu : dictLe t u = true) :
    dictLe s u = true := by
  induction s generalizing t u with
  | nil => exact dictLe_nil u
  | cons c s ih =>
    cases t with
    | nil => exact absurd hst Bool.false_ne_true
    | cons d t =>
      cases u with
      | nil => exact absurd htu Bool.false_ne_true
      | cons f u =>
        rw [dictLe_cons] at hst htu ⊢
        rcases hst with hcd | ⟨rfl, hst⟩
        · exact .inl (htu.elim hcd.trans fun h => h.1 ▸ hcd)
        · exact htu.imp_right fun h => ⟨h.1, ih hst h.2⟩

/-! ### Scans between two bounds -/

/-- The half-open interval of strings from `lo` to `hi`. -/
def dictWindow (lo hi s : List ℕ) : Bool := dictLe lo s && dictLt s hi

section Scan

variable {α : Type*} {p : α → Bool} {l : List α}

/-- If the elements with `p` come first, taking while `p` holds is filtering. -/
theorem takeWhile_eq_filter (h : l.Pairwise fun a b => p b = true → p a = true) :
    l.takeWhile p = l.filter p := by
  induction h with
  | nil => rfl
  | @cons a l hhead _ ih =>
    by_cases ha : p a = true
    · rw [List.takeWhile_cons_of_pos ha, List.filter_cons_of_pos ha, ih]
    · rw [List.takeWhile_cons_of_neg ha, List.filter_cons_of_neg ha, eq_comm,
        List.filter_eq_nil_iff]
      exact fun b hb hp => ha (hhead b hb hp)

/-- If the elements with `p` come first, so is dropping them. -/
theorem dropWhile_eq_filter (h : l.Pairwise fun a b => p b = true → p a = true) :
    l.dropWhile p = l.filter fun a => !p a := by
  induction h with
  | nil => rfl
  | @cons a l hhead _ ih =>
    by_cases ha : p a = true
    · rw [List.dropWhile_cons_of_pos ha, List.filter_cons_of_neg (by simp [ha]), ih]
    · rw [List.dropWhile_cons_of_neg ha, eq_comm, List.filter_eq_self]
      intro b hb
      rcases List.mem_cons.mp hb with rfl | hb
      · simpa using ha
      · simpa using fun hp => ha (hhead b hb hp)

variable {keys : List (List ℕ)} (hsorted : keys.Pairwise fun s t => dictLe s t = true)
include hsorted

/-- What is below a bound is an initial part of sorted strings. -/
theorem pairwise_dictLt (lo : List ℕ) :
    keys.Pairwise fun s t => dictLt t lo = true → dictLt s lo = true := by
  refine hsorted.imp ?_
  intro s t hst
  rw [dictLt_eq_not, dictLt_eq_not, Bool.not_eq_true', Bool.not_eq_true']
  intro ht
  exact Bool.eq_false_iff.mpr fun hs => Bool.eq_false_iff.mp ht (dictLe_trans hs hst)

/-- The strings from `lo` on. -/
theorem dropWhile_dictLt (lo : List ℕ) :
    (keys.dropWhile fun k => dictLt k lo) = keys.filter fun k => dictLe lo k := by
  rw [dropWhile_eq_filter (pairwise_dictLt hsorted lo)]
  congr 1
  funext k
  rw [dictLt_eq_not, Bool.not_not]

/-- **A scan that stops at its upper bound** sees the interval. -/
theorem scan_eq_filter (lo hi : List ℕ) :
    ((keys.dropWhile fun k => dictLt k lo).takeWhile fun k => dictLt k hi) =
      keys.filter (dictWindow lo hi) := by
  have hrest : (keys.filter fun k => dictLe lo k).Pairwise fun s t =>
      dictLt t hi = true → dictLt s hi = true := (pairwise_dictLt hsorted hi).filter _
  rw [dropWhile_dictLt hsorted, takeWhile_eq_filter hrest, List.filter_filter]
  congr 1
  funext k
  exact Bool.and_comm _ _

/-- **A scan that is shown nothing from its upper bound on** sees the interval. -/
theorem bounded_scan_eq_filter (lo hi : List ℕ) :
    ((keys.filter fun k => dictLt k hi).dropWhile fun k => dictLt k lo) =
      keys.filter (dictWindow lo hi) := by
  rw [dropWhile_dictLt (hsorted.filter _), List.filter_filter]
  rfl

end Scan

section Place

variable {base : ℕ} {dig : ℕ → ℕ} {D : ℕ → Prop}

/-- An empty numeral is zero, whatever its width. -/
@[simp] theorem place_nil (w : ℕ) : place base dig w [] = 0 := by
  cases w <;> rfl

@[simp] theorem place_cons (w c : ℕ) (s : List ℕ) :
    place base dig (w + 1) (c :: s) = dig c * base ^ w + place base dig w s := rfl

/-- Symbols beyond the width do not count. -/
theorem place_take : ∀ (w : ℕ) (s : List ℕ), place base dig w (s.take w) = place base dig w s
  | 0, s => rfl
  | w + 1, [] => rfl
  | w + 1, c :: s => by rw [List.take_succ_cons, place_cons, place_cons, place_take w s]

/-- Leading zeros do not count. -/
theorem place_replicate_append {z : ℕ} (hz : dig z = 0) (k w : ℕ) (s : List ℕ) :
    place base dig (k + w) (List.replicate k z ++ s) = place base dig w s := by
  induction k with
  | zero => simp
  | succ k ih =>
    rw [List.replicate_succ, List.cons_append, Nat.succ_add, place_cons, hz, Nat.zero_mul, ih,
      Nat.zero_add]

/-- A numeral in `w` places is below `base ^ w`. -/
theorem Numerals.place_lt (h : Numerals base dig D) :
    ∀ (w : ℕ) (s : List ℕ), (∀ c ∈ s, D c) → place base dig w s < base ^ w
  | 0, _, _ => Nat.one_pos
  | w + 1, [], _ => by
    rw [place_nil]
    exact pow_pos h.pos _
  | w + 1, c :: s, hs => by
    have hc : dig c + 1 ≤ base := h.lt c (hs c List.mem_cons_self)
    have ih := h.place_lt w s fun x hx => hs x (List.mem_cons_of_mem _ hx)
    calc place base dig (w + 1) (c :: s)
        = dig c * base ^ w + place base dig w s := rfl
      _ < dig c * base ^ w + base ^ w := Nat.add_lt_add_left ih _
      _ = (dig c + 1) * base ^ w := by ring
      _ ≤ base * base ^ w := Nat.mul_le_mul_right _ hc
      _ = base ^ (w + 1) := by ring

/-- The first difference decides: what follows it is worth less than one unit of it. -/
theorem Numerals.place_cons_lt (h : Numerals base dig D) {w c d : ℕ} {s t : List ℕ}
    (hs : ∀ x ∈ s, D x) (hcd : dig c < dig d) :
    place base dig (w + 1) (c :: s) < place base dig (w + 1) (d :: t) := by
  have hcd' : dig c + 1 ≤ dig d := hcd
  calc place base dig (w + 1) (c :: s)
      = dig c * base ^ w + place base dig w s := rfl
    _ < dig c * base ^ w + base ^ w := Nat.add_lt_add_left (h.place_lt w s hs) _
    _ = (dig c + 1) * base ^ w := by ring
    _ ≤ dig d * base ^ w := Nat.mul_le_mul_right _ hcd'
    _ ≤ dig d * base ^ w + place base dig w t := Nat.le_add_right _ _

/-- **Order.** A string before another in the dictionary is not a larger numeral, whatever
    their lengths: padding stands for the smallest continuation. -/
theorem Numerals.place_mono (h : Numerals base dig D) :
    ∀ (w : ℕ) (s t : List ℕ), (∀ c ∈ s, D c) → (∀ c ∈ t, D c) → dictLe s t = true →
      place base dig w s ≤ place base dig w t
  | 0, _, _, _, _, _ => Nat.le_refl 0
  | w + 1, [], t, _, _, _ => by
    rw [place_nil]
    exact Nat.zero_le _
  | w + 1, c :: s, [], _, _, hst => absurd hst Bool.false_ne_true
  | w + 1, c :: s, d :: t, hs, ht, hst => by
    have hs' : ∀ x ∈ s, D x := fun x hx => hs x (List.mem_cons_of_mem _ hx)
    have ht' : ∀ x ∈ t, D x := fun x hx => ht x (List.mem_cons_of_mem _ hx)
    rcases (dictLe_cons c d s t).mp hst with hlt | ⟨rfl, hle⟩
    · have hcd := h.mono c d (hs c List.mem_cons_self) (ht d List.mem_cons_self) hlt
      exact (h.place_cons_lt hs' hcd).le
    · exact Nat.add_le_add_left (h.place_mono w s t hs' ht' hle) _

/-- **A string of full width against any other.** The numerals decide; a shorter string with the
    same numeral comes before it. -/
theorem Numerals.dictLe_iff (h : Numerals base dig D) :
    ∀ (w : ℕ) (s t : List ℕ), (∀ c ∈ s, D c) → (∀ c ∈ t, D c) → s.length = w →
      (dictLe s t = true ↔ place base dig w s < place base dig w t ∨
        place base dig w s = place base dig w t ∧ w ≤ t.length)
  | 0, [], t, _, _, _ => iff_of_true (dictLe_nil t) (.inr ⟨rfl, Nat.zero_le _⟩)
  | w + 1, c :: s, [], _, _, _ => by
    refine iff_of_false Bool.false_ne_true ?_
    rw [place_nil]
    rintro (hlt | ⟨-, hle⟩)
    · exact absurd hlt (Nat.not_lt_zero _)
    · exact absurd hle (Nat.not_succ_le_zero w)
  | w + 1, c :: s, d :: t, hs, ht, hlen => by
    have hs' : ∀ x ∈ s, D x := fun x hx => hs x (List.mem_cons_of_mem _ hx)
    have ht' : ∀ x ∈ t, D x := fun x hx => ht x (List.mem_cons_of_mem _ hx)
    rw [dictLe_cons]
    rcases lt_trichotomy c d with hlt | rfl | hgt
    · have hcd := h.mono c d (hs c List.mem_cons_self) (ht d List.mem_cons_self) hlt
      exact iff_of_true (.inl hlt) (.inl (h.place_cons_lt hs' hcd))
    · -- a common first symbol leaves the comparison to the rest
      have ih := h.dictLe_iff w s t hs' ht' (Nat.succ.inj hlen)
      simp only [lt_irrefl, true_and, false_or, place_cons, Nat.add_lt_add_iff_left,
        Nat.add_left_cancel_iff, List.length_cons, Nat.add_le_add_iff_right]
      exact ih
    · have hdc := h.mono d c (ht d List.mem_cons_self) (hs c List.mem_cons_self) hgt
      have hplace := h.place_cons_lt (w := w) (t := s) ht' hdc
      refine iff_of_false (by omega) ?_
      rintro (hlt | ⟨heq, -⟩)
      · exact absurd hlt hplace.not_gt
      · exact absurd heq hplace.ne'

/-- A window of keys between two full-width bounds, in numbers: a shorter key is in front of the
    bound it is a numeral of. -/
theorem Numerals.dictWindow_iff (h : Numerals base dig D) {w : ℕ} {lo hi s : List ℕ}
    (hlo : ∀ c ∈ lo, D c) (hhi : ∀ c ∈ hi, D c) (hs : ∀ c ∈ s, D c) (hwlo : lo.length = w)
    (hwhi : hi.length = w) :
    dictWindow lo hi s = true ↔
      (place base dig w lo < place base dig w s ∨
        place base dig w lo = place base dig w s ∧ w ≤ s.length) ∧
      ¬ (place base dig w hi < place base dig w s ∨
        place base dig w hi = place base dig w s ∧ w ≤ s.length) := by
  rw [dictWindow, Bool.and_eq_true, dictLt_eq_not, Bool.not_eq_true', ← Bool.not_eq_true,
    h.dictLe_iff w lo s hlo hs hwlo, h.dictLe_iff w hi s hhi hs hwhi]

/-! ### Machine arithmetic -/

/-- **Reading in machine words.** Symbols are read one after another modulo `N`, and the missing
    places are padded: what comes out is the numeral modulo `N`, after what was read before. -/
theorem foldl_place_modEq (N : ℕ) : ∀ (s : List ℕ) (w v : ℕ), s.length ≤ w →
    s.foldl (fun v c => (v * base + dig c) % N) v * base ^ (w - s.length)
      ≡ v * base ^ w + place base dig w s [MOD N]
  | [], w, v, _ => by
    rw [place_nil]
    exact Nat.ModEq.refl _
  | c :: s, 0, v, hlen => absurd hlen (Nat.not_succ_le_zero _)
  | c :: s, w + 1, v, hlen => by
    have hrest := foldl_place_modEq N s w ((v * base + dig c) % N) (Nat.le_of_succ_le_succ hlen)
    have hcut : (v * base + dig c) % N * base ^ w + place base dig w s
        ≡ (v * base + dig c) * base ^ w + place base dig w s [MOD N] :=
      ((Nat.mod_modEq _ N).mul_right _).add_right _
    have hvalue : (v * base + dig c) * base ^ w + place base dig w s
        = v * base ^ (w + 1) + place base dig (w + 1) (c :: s) := by
      rw [place_cons]
      ring
    rw [List.foldl_cons, List.length_cons, Nat.add_sub_add_right, ← hvalue]
    exact hrest.trans hcut

/-- The digits of a number in `w` places, most significant first, are a numeral for it. -/
theorem place_digits (base w v : ℕ) :
    place base id w ((List.range w).map fun i => v / base ^ (w - 1 - i) % base) = v % base ^ w := by
  induction w with
  | zero => simp [place, Nat.mod_one]
  | succ w ih =>
    have htail : ((List.range w).map fun i => v / base ^ (w + 1 - 1 - (i + 1)) % base) =
        (List.range w).map fun i => v / base ^ (w - 1 - i) % base := by
      apply List.map_congr_left
      intro i _
      congr 3
      omega
    rw [List.range_succ_eq_map, List.map_cons, List.map_map, place_cons]
    show v / base ^ w % base * base ^ w + place base id w
      ((List.range w).map fun i => v / base ^ (w + 1 - 1 - (i + 1)) % base) = _
    rw [htail, ih, Nat.mod_pow_succ]
    ring

end Place

end Lib
