import Mathlib.Data.List.TakeWhile
import Mathlib.Data.Nat.Digits.Lemmas

namespace Lib

/-!
# Numbers in text

Reading a text line by line and number by number, the way `std::getline` and the extraction
of an unsigned 64-bit number from a stream do, and what they make of numbers printed in
decimal:

* `linesOf_append` — a line that ends in a newline is read back;
* `extract_toDigits` — so is a printed number, up to the character that ends it;
* `extractUpTo_spaced` — and a list of printed numbers, each after a space;
* `words_intercalate` — words separated by single spaces are told apart;
* `atoi_showInt` — a 32-bit number printed in decimal is what `atoi` makes of it.
-/

/-- The lines of a text.  A newline ends a line; the last line need not have one. -/
def linesOf : List Char → List (List Char)
  | [] => []
  | c :: s =>
    if c = '\n' then [] :: linesOf s
    else
      match linesOf s with
      | [] => [[c]]
      | l :: ls => (c :: l) :: ls

/-- White space a number extraction skips. -/
def isSpace (c : Char) : Bool := c == ' ' || 9 ≤ c.toNat && c.toNat ≤ 13

/-- The digits of an unsigned 64-bit number; no digit, or too large a number, is a failure. -/
def extractDigits (s : List Char) : Option (ℕ × List Char) :=
  let ds := s.takeWhile Char.isDigit
  if ds = [] then none
  else if Nat.ofDigitChars 10 ds 0 < 2 ^ 64 then
    some (Nat.ofDigitChars 10 ds 0, s.dropWhile Char.isDigit)
  else none

/-- Extract an unsigned 64-bit number: skip white space, take a sign, take the digits.  A
    negative number is taken modulo `2^64`. -/
def extract (s : List Char) : Option (ℕ × List Char) :=
  match s.dropWhile isSpace with
  | '-' :: r => (extractDigits r).map fun p => ((2 ^ 64 - p.1) % 2 ^ 64, p.2)
  | '+' :: r => extractDigits r
  | r => extractDigits r

/-- Extract numbers until one fails, at most `n`. -/
def extractUpTo : ℕ → List Char → List ℕ
  | 0, _ => []
  | n + 1, s =>
    match extract s with
    | none => []
    | some p => p.1 :: extractUpTo n p.2

/-! ### Lines -/

/-- A line in front is split off at its line end. -/
theorem linesOf_append {l : List Char} (h : '\n' ∉ l) (s : List Char) :
    linesOf (l ++ '\n' :: s) = l :: linesOf s := by
  induction l with
  | nil => rfl
  | cons c l ih =>
    have hc : c ≠ '\n' := fun heq => h (heq ▸ List.mem_cons_self)
    rw [List.cons_append, linesOf, if_neg hc, ih fun hmem => h (List.mem_cons_of_mem _ hmem)]

/-- A text of lines, each with its newline, is read back line by line. -/
theorem linesOf_flatMap {α : Type*} (f : α → List Char) {xs : List α} (h : ∀ a ∈ xs, '\n' ∉ f a) :
    linesOf (xs.flatMap fun a => f a ++ ['\n']) = xs.map f := by
  induction xs with
  | nil => rfl
  | cons a xs ih =>
    rw [List.flatMap_cons, List.append_assoc, List.singleton_append,
      linesOf_append (h a List.mem_cons_self), ih fun b hb => h b (List.mem_cons_of_mem _ hb),
      List.map_cons]

/-! ### Numbers -/

/-- What follows does not go on with a digit. -/
def EndsNumber (s : List Char) : Prop := ∀ c, s.head? = some c → c.isDigit = false

theorem endsNumber_nil : EndsNumber [] := fun _ h => nomatch h

/-- A blank ends a number. -/
theorem endsNumber_space (s : List Char) : EndsNumber (' ' :: s) := by
  intro c h
  obtain rfl := Option.some.inj h
  rfl

/-- Numbers are printed with digits. -/
theorem isDigit_toDigits {n : ℕ} {c : Char} (h : c ∈ Nat.toDigits 10 n) : c.isDigit = true :=
  Nat.isDigit_of_mem_toDigits (by norm_num) (by norm_num) h

/-- Numbers are printed with at least one digit. -/
theorem toDigits_ne_nil (n : ℕ) : Nat.toDigits 10 n ≠ [] :=
  List.ne_nil_of_length_pos Nat.length_toDigits_pos

/-- Digits are read up to where the number ends. -/
theorem takeWhile_digits {ds s : List Char} (hd : ∀ c ∈ ds, c.isDigit = true) (hs : EndsNumber s) :
    (ds ++ s).takeWhile Char.isDigit = ds ∧ (ds ++ s).dropWhile Char.isDigit = s := by
  have hstop : s.takeWhile Char.isDigit = [] ∧ s.dropWhile Char.isDigit = s := by
    cases s with
    | nil => exact ⟨rfl, rfl⟩
    | cons c s =>
      have hc : ¬ c.isDigit = true := by rw [hs c rfl]; exact Bool.false_ne_true
      exact ⟨List.takeWhile_cons_of_neg hc, List.dropWhile_cons_of_neg hc⟩
  constructor
  · rw [List.takeWhile_append_of_pos hd, hstop.1, List.append_nil]
  · rw [List.dropWhile_append_of_pos hd, hstop.2]

/-- A digit is neither white space nor a sign. -/
theorem not_sign_of_isDigit {c : Char} (h : c.isDigit = true) :
    isSpace c = false ∧ c ≠ '-' ∧ c ≠ '+' := by
  have hrange : 48 ≤ c.toNat ∧ c.toNat ≤ 57 := by
    simpa [Char.isDigit, UInt32.le_iff_toNat_le] using h
  refine ⟨?_, fun hc => ?_, fun hc => ?_⟩
  · have hne : c ≠ ' ' := fun hc => absurd h (by rw [hc]; decide)
    simp only [isSpace, Bool.or_eq_false_iff, beq_eq_false_iff_ne, Bool.and_eq_false_iff,
      decide_eq_false_iff_not]
    exact ⟨hne, Or.inr (by omega)⟩
  · subst hc
    exact absurd h (by decide)
  · subst hc
    exact absurd h (by decide)

/-- **A printed number is read back.** -/
theorem extract_toDigits {n : ℕ} (hn : n < 2 ^ 64) {s : List Char} (hs : EndsNumber s) :
    extract (Nat.toDigits 10 n ++ s) = some (n, s) := by
  have hdigits : extractDigits (Nat.toDigits 10 n ++ s) = some (n, s) := by
    obtain ⟨htake, hdrop⟩ := takeWhile_digits (fun c => @isDigit_toDigits n c) hs
    unfold extractDigits
    simp only [htake, hdrop, if_neg (toDigits_ne_nil n), Nat.ofDigitChars_ten_toDigits, if_pos hn]
  -- the first digit stops the search for white space and is no sign
  cases hds : Nat.toDigits 10 n with
  | nil => exact absurd hds (toDigits_ne_nil n)
  | cons c ds =>
    rw [hds] at hdigits
    have hc : c ∈ Nat.toDigits 10 n := by rw [hds]; exact List.mem_cons_self
    obtain ⟨hsp, hminus, hplus⟩ := not_sign_of_isDigit (isDigit_toDigits hc)
    unfold extract
    rw [List.cons_append, List.dropWhile_cons_of_neg (by rw [hsp]; exact Bool.false_ne_true)]
    split
    next r heq => exact absurd (List.cons.inj heq).1 hminus
    next r heq => exact absurd (List.cons.inj heq).1 hplus
    next => exact hdigits

/-- A space before a number is skipped. -/
theorem extract_space (s : List Char) : extract (' ' :: s) = extract s := by
  unfold extract
  rw [List.dropWhile_cons_of_pos (by rfl)]

/-- **Printed numbers, each after a space, are read back**, if there are not too many. -/
theorem extractUpTo_spaced {ps : List ℕ} (hps : ∀ p ∈ ps, p < 2 ^ 64) {n : ℕ}
    (hn : ps.length ≤ n) :
    extractUpTo n (ps.flatMap fun p => ' ' :: Nat.toDigits 10 p) = ps := by
  induction ps generalizing n with
  | nil =>
    cases n with
    | zero => rfl
    | succ n => rfl
  | cons p ps ih =>
    obtain ⟨n, rfl⟩ : ∃ m, n = m + 1 := ⟨n - 1, by simp only [List.length_cons] at hn; omega⟩
    -- the next number starts with a blank, or there is none
    have hend : EndsNumber (ps.flatMap fun p => ' ' :: Nat.toDigits 10 p) := by
      cases ps with
      | nil => exact endsNumber_nil
      | cons q qs => exact endsNumber_space _
    have hread : extract (' ' :: (Nat.toDigits 10 p ++
        ps.flatMap fun p => ' ' :: Nat.toDigits 10 p))
        = some (p, ps.flatMap fun p => ' ' :: Nat.toDigits 10 p) := by
      rw [extract_space]
      exact extract_toDigits (hps p List.mem_cons_self) hend
    rw [List.flatMap_cons, List.cons_append, extractUpTo, hread]
    simp only
    rw [ih (fun q hq => hps q (List.mem_cons_of_mem _ hq)) (by simpa using hn)]

/-- Numbers joined by spaces, after a space. -/
theorem space_intercalate {ps : List ℕ} (hps : ps ≠ []) :
    ' ' :: [' '].intercalate (ps.map (Nat.toDigits 10)) =
      ps.flatMap fun p => ' ' :: Nat.toDigits 10 p := by
  induction ps with
  | nil => exact absurd rfl hps
  | cons p ps ih =>
    cases ps with
    | nil => simp [List.intercalate]
    | cons q qs =>
      rw [List.flatMap_cons, ← ih (List.cons_ne_nil q qs), List.map_cons, List.map_cons,
        List.intercalate_cons_cons, List.append_assoc]
      rfl

/-! ### Words -/

/-- The words of a text, as the extraction of strings from a stream gives them. -/
def words (s : List Char) : List (List Char) := (s.splitOnP isSpace).filter (· ≠ [])

/-- `atoi`: white space, a sign, digits.  The number is read as a 64-bit one, which stops at its
    limits, and its lower 32 bits are kept. -/
def atoi (s : List Char) : ℤ :=
  let digits (r : List Char) : ℤ := Nat.ofDigitChars 10 (r.takeWhile Char.isDigit) 0
  let z :=
    match s.dropWhile isSpace with
    | '-' :: r => -digits r
    | '+' :: r => digits r
    | r => digits r
  (max (-2 ^ 63) (min z (2 ^ 63 - 1))).bmod (2 ^ 32)

example : atoi "-12,".toList = -12 ∧ atoi "4294967299".toList = 3 ∧ atoi "x".toList = 0 := by
  decide +kernel

/-- A word: something, and no white space in it. -/
def IsWord (w : List Char) : Prop := w ≠ [] ∧ ∀ c ∈ w, isSpace c = false

/-- **Words separated by single spaces are told apart.** -/
theorem words_intercalate {ws : List (List Char)} (h : ∀ w ∈ ws, IsWord w) :
    words ([' '].intercalate ws) = ws := by
  induction ws with
  | nil => rfl
  | cons w ws ih =>
    obtain ⟨hne, hspace⟩ := h w List.mem_cons_self
    have hrest := ih fun w' hw' => h w' (List.mem_cons_of_mem _ hw')
    cases ws with
    | nil =>
      have hw : [' '].intercalate [w] = w := by simp [List.intercalate]
      rw [hw, words, List.splitOnP_eq_singleton hspace]
      simp [hne]
    | cons w' ws' =>
      rw [List.intercalate_cons_cons, List.append_assoc, List.singleton_append, words,
        List.splitOnP_append_cons_of_forall_mem hspace ' ' rfl,
        List.filter_cons_of_pos (by simp [hne])]
      exact congrArg (List.cons w) hrest

/-- A number in decimal. -/
def showInt (z : ℤ) : List Char :=
  if z < 0 then '-' :: Nat.toDigits 10 z.natAbs else Nat.toDigits 10 z.natAbs

/-- A printed integer is one word. -/
theorem isWord_showInt (z : ℤ) : IsWord (showInt z) := by
  have hdigits : ∀ c ∈ Nat.toDigits 10 z.natAbs, isSpace c = false := fun c hc =>
    (not_sign_of_isDigit (isDigit_toDigits hc)).1
  unfold showInt
  split_ifs
  · refine ⟨List.cons_ne_nil _ _, fun c hc => ?_⟩
    rcases List.mem_cons.mp hc with rfl | hc
    · rfl
    · exact hdigits c hc
  · exact ⟨toDigits_ne_nil _, hdigits⟩

/-- There is no white space before a printed number. -/
theorem dropWhile_showInt (z : ℤ) (s : List Char) :
    (showInt z ++ s).dropWhile isSpace = showInt z ++ s := by
  obtain ⟨hne, hspace⟩ := isWord_showInt z
  cases hz : showInt z with
  | nil => exact absurd hz hne
  | cons c cs =>
    have hc := hspace c (by rw [hz]; exact List.mem_cons_self)
    exact List.dropWhile_cons_of_neg (by rw [hc]; exact Bool.false_ne_true)

/-- The first digit of a number is no sign. -/
theorem exists_toDigits_eq_cons (n : ℕ) :
    ∃ c ds, Nat.toDigits 10 n = c :: ds ∧ c ≠ '-' ∧ c ≠ '+' := by
  obtain ⟨c, ds, hds⟩ := List.exists_cons_of_ne_nil (toDigits_ne_nil n)
  have hc : c ∈ Nat.toDigits 10 n := by rw [hds]; exact List.mem_cons_self
  exact ⟨c, ds, hds, (not_sign_of_isDigit (isDigit_toDigits hc)).2⟩

/-- **`atoi` reads back a 32-bit number.** -/
theorem atoi_showInt {z : ℤ} (hlo : -2 ^ 31 ≤ z) (hhi : z < 2 ^ 31) : atoi (showInt z) = z := by
  have hvalue : Nat.ofDigitChars 10 ((Nat.toDigits 10 z.natAbs).takeWhile Char.isDigit) 0 =
      z.natAbs := by
    have htake := (takeWhile_digits (fun c => @isDigit_toDigits z.natAbs c) endsNumber_nil).1
    rw [List.append_nil] at htake
    rw [htake, Nat.ofDigitChars_ten_toDigits]
  have hcut : (max (-2 ^ 63) (min z (2 ^ 63 - 1))).bmod (2 ^ 32) = z := by
    rw [min_eq_left (by omega), max_eq_right (by omega)]
    exact Int.bmod_eq_of_le (by omega) (by omega)
  have hdrop := dropWhile_showInt z []
  rw [List.append_nil] at hdrop
  unfold atoi
  rw [hdrop]
  unfold showInt
  by_cases hneg : z < 0
  · rw [if_pos hneg]
    change (max (-2 ^ 63) (min (-((Nat.ofDigitChars 10
      ((Nat.toDigits 10 z.natAbs).takeWhile Char.isDigit) 0 : ℕ) : ℤ)) (2 ^ 63 - 1))).bmod _ = z
    have habs : -(z.natAbs : ℤ) = z := by omega
    rw [hvalue, habs, hcut]
  · rw [if_neg hneg]
    have habs : (z.natAbs : ℤ) = z := by omega
    obtain ⟨c, ds, hds, hminus, hplus⟩ := exists_toDigits_eq_cons z.natAbs
    rw [hds] at hvalue ⊢
    dsimp only
    split
    next r heq => exact absurd (List.cons.inj heq).1 hminus
    next r heq => exact absurd (List.cons.inj heq).1 hplus
    next => rw [hvalue, habs, hcut]

end Lib
