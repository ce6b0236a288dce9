import Leaper.Lib.Tokens

namespace Lib

/-!
# Formats

Text that is written after a format and scanned with the same format, or the first part of it, as
`printf` and `sscanf` do.  A format is a text with the conversions `%d` and `%lld`.

* `scanInt_showInt` — a number is read back, up to the character that ends it;
* `scan_print` — so are all numbers of a format that keeps them apart.
-/

/-- A part of a format; white space stands for any amount of it. -/
inductive Directive
  | lit (c : Char)
  | space
  /-- `%d`, or `%lld` -/
  | num (long : Bool)
  deriving DecidableEq, Repr

/-- The parts of a format. -/
def directives : List Char → List Directive
  | '%' :: 'd' :: fs => .num false :: directives fs
  | '%' :: 'l' :: 'l' :: 'd' :: fs => .num true :: directives fs
  | c :: fs => (if isSpace c then .space else .lit c) :: directives fs
  | [] => []

/-- The sign before a number. -/
def sign : List Char → Bool × List Char
  | '-' :: r => (true, r)
  | '+' :: r => (false, r)
  | r => (false, r)

/-- A number as a variable of 32 bits or of 64 takes it. -/
def fit (long : Bool) (z : ℤ) : ℤ :=
  let z := max (-2 ^ 63) (min z (2 ^ 63 - 1))
  if long then z else z.bmod (2 ^ 32)

/-- Scan a number: white space, a sign, digits. -/
def scanInt (long : Bool) (s : List Char) : Option (ℤ × List Char) :=
  let p := sign (s.dropWhile isSpace)
  let ds := p.2.takeWhile Char.isDigit
  if ds = [] then none
  else
    let n : ℤ := Nat.ofDigitChars 10 ds 0
    some (fit long (if p.1 then -n else n), p.2.dropWhile Char.isDigit)

/-- `sscanf`: the numbers that are read before the text leaves the format. -/
def scan : List Directive → List Char → List ℤ
  | [], _ => []
  | .space :: fs, s => scan fs (s.dropWhile isSpace)
  | .lit c :: fs, s =>
    match s with
    | [] => []
    | c' :: s => if c = c' then scan fs s else []
  | .num long :: fs, s =>
    match scanInt long s with
    | none => []
    | some p => p.1 :: scan fs p.2

/-- `printf`: numbers that are missing are not printed. -/
def print : List Directive → List ℤ → List Char
  | [], _ => []
  | .space :: fs, zs => ' ' :: print fs zs
  | .lit c :: fs, zs => c :: print fs zs
  | .num _ :: fs, z :: zs => showInt z ++ print fs zs
  | .num _ :: fs, [] => print fs []

/-! ### Numbers -/

/-- The number is one of the variable's. -/
def Fits (long : Bool) (z : ℤ) : Prop :=
  if long then -2 ^ 63 ≤ z ∧ z < 2 ^ 63 else -2 ^ 31 ≤ z ∧ z < 2 ^ 31

instance (long : Bool) (z : ℤ) : Decidable (Fits long z) :=
  inferInstanceAs (Decidable (if long then -2 ^ 63 ≤ z ∧ z < 2 ^ 63 else -2 ^ 31 ≤ z ∧ z < 2 ^ 31))

/-- A number that fits its type is stored as it is. -/
theorem fit_of_fits {long : Bool} {z : ℤ} (h : Fits long z) : fit long z = z := by
  unfold fit
  cases long with
  | true =>
    obtain ⟨hlo, hhi⟩ : -2 ^ 63 ≤ z ∧ z < 2 ^ 63 := h
    rw [min_eq_left (by omega), max_eq_right (by omega), if_pos rfl]
  | false =>
    obtain ⟨hlo, hhi⟩ : -2 ^ 31 ≤ z ∧ z < 2 ^ 31 := h
    rw [min_eq_left (by omega), max_eq_right (by omega), if_neg Bool.false_ne_true]
    exact Int.bmod_eq_of_le (by omega) (by omega)

/-- The sign of a printed number. -/
theorem sign_showInt (z : ℤ) (s : List Char) :
    sign (showInt z ++ s) = (decide (z < 0), Nat.toDigits 10 z.natAbs ++ s) := by
  unfold showInt
  split_ifs with hneg
  · rw [decide_eq_true hneg]
    rfl
  · rw [decide_eq_false hneg]
    obtain ⟨c, ds, hds, hminus, hplus⟩ := exists_toDigits_eq_cons z.natAbs
    rw [hds, List.cons_append]
    unfold sign
    split
    next r heq => exact absurd (List.cons.inj heq).1 hminus
    next r heq => exact absurd (List.cons.inj heq).1 hplus
    next => rfl

/-- **A printed number is scanned**, up to the character that ends it. -/
theorem scanInt_showInt {long : Bool} {z : ℤ} (hz : Fits long z) {s : List Char}
    (hs : EndsNumber s) : scanInt long (showInt z ++ s) = some (z, s) := by
  obtain ⟨htake, hdrop⟩ := takeWhile_digits (fun c => @isDigit_toDigits z.natAbs c) hs
  have habs : (if decide (z < 0) = true then -(z.natAbs : ℤ) else z.natAbs) = z := by
    split_ifs with hneg
    · have := of_decide_eq_true hneg
      omega
    · have := of_decide_eq_false (Bool.eq_false_of_not_eq_true hneg)
      omega
  unfold scanInt
  rw [dropWhile_showInt, sign_showInt]
  dsimp only
  rw [htake, hdrop, if_neg (toDigits_ne_nil _), Nat.ofDigitChars_ten_toDigits, habs,
    fit_of_fits hz]

/-! ### Formats -/

/-- What comes after a number does not go on with it, and what comes after white space is none. -/
def apart : Directive → List Directive → Bool
  | .num _, .num _ :: _ => false
  | .num _, .lit c :: _ => !c.isDigit
  | .space, .space :: _ => false
  | .space, .lit c :: _ => !isSpace c
  | _, _ => true

/-- A format that keeps its numbers apart. -/
def separated : List Directive → Bool
  | [] => true
  | f :: fs => apart f fs && separated fs

/-- There is a number for every conversion, and it fits. -/
def Supplied : List Directive → List ℤ → Prop
  | [], zs => zs = []
  | .num long :: fs, z :: zs => Fits long z ∧ Supplied fs zs
  | .num _ :: _, [] => False
  | _ :: fs, zs => Supplied fs zs

/-- What is printed after a number does not go on with it. -/
theorem endsNumber_print {long : Bool} {fs : List Directive} (h : apart (.num long) fs = true)
    (zs : List ℤ) {rest : List Char} (hrest : EndsNumber rest) :
    EndsNumber (print fs zs ++ rest) := by
  cases fs with
  | nil => exact hrest
  | cons f fs =>
    intro c hc
    cases f with
    | num l => exact absurd h Bool.false_ne_true
    | space =>
      obtain rfl := Option.some.inj hc
      rfl
    | lit d =>
      obtain rfl := Option.some.inj hc
      simpa [apart] using h

/-- What is printed after white space does not begin with any. -/
theorem dropWhile_print {fs : List Directive} (h : apart .space fs = true) {zs : List ℤ}
    (hzs : Supplied fs zs) (hne : fs ≠ []) (rest : List Char) :
    (print fs zs ++ rest).dropWhile isSpace = print fs zs ++ rest := by
  cases fs with
  | nil => exact absurd rfl hne
  | cons f fs =>
    cases f with
    | space => exact absurd h Bool.false_ne_true
    | lit d =>
      have hd : isSpace d = false := by simpa [apart] using h
      exact List.dropWhile_cons_of_neg (by rw [hd]; exact Bool.false_ne_true)
    | num long =>
      cases zs with
      | nil => exact absurd hzs id
      | cons z zs =>
        show (showInt z ++ print fs zs ++ rest).dropWhile isSpace = showInt z ++ print fs zs ++ rest
        rw [List.append_assoc]
        exact dropWhile_showInt z _

/-- **What is printed with a format is scanned with it**, if the text goes on with no digit. -/
theorem scan_print {fs : List Directive} (hsep : separated fs = true) {zs : List ℤ}
    (hzs : Supplied fs zs) {rest : List Char} (hrest : EndsNumber rest) :
    scan fs (print fs zs ++ rest) = zs := by
  induction fs generalizing zs with
  | nil =>
    obtain rfl : zs = [] := hzs
    rfl
  | cons f fs ih =>
    obtain ⟨happart, hsep'⟩ := Bool.and_eq_true_iff.mp hsep
    cases f with
    | lit c =>
      show (if c = c then scan fs (print fs zs ++ rest) else []) = zs
      rw [if_pos rfl]
      exact ih hsep' hzs
    | space =>
      show scan fs ((' ' :: (print fs zs ++ rest)).dropWhile isSpace) = zs
      rw [List.dropWhile_cons_of_pos (by rfl)]
      have hzs : Supplied fs zs := hzs
      by_cases hne : fs = []
      · subst hne
        obtain rfl : zs = [] := hzs
        rfl
      · rw [dropWhile_print happart hzs hne]
        exact ih hsep' hzs
    | num long =>
      cases zs with
      | nil => exact absurd hzs id
      | cons z zs =>
        obtain ⟨hz, hzs⟩ : Fits long z ∧ Supplied fs zs := hzs
        show (match scanInt long (showInt z ++ print fs zs ++ rest) with
          | none => []
          | some p => p.1 :: scan fs p.2) = z :: zs
        rw [List.append_assoc, scanInt_showInt hz (endsNumber_print happart zs hrest)]
        exact congrArg (z :: ·) (ih hsep' hzs)

end Lib
