import Leaper.Core.Types
import Leaper.Lib.Positional

namespace Leaper

open Lib

/-!
# The range mappers

`DecimalRangeMapper` and `PrefixRangeMapper` of `leaper/src/leaper.cc`.  The first reads the
leading digits of a key, restores a key the engine has shortened to its full width by padding
zeros, and divides by the range size; the second does the same with the first eight bytes.  All
of it is 64-bit arithmetic.

* `decimalMap_eq_place`, `prefixMap_eq` — the mappers are `Lib.place` in base ten and 256, modulo
  `2^64`, divided by the range size;
* `decimalMap_between` — up to nineteen digits nothing wraps, and a shortened separator keeps its
  place between the keys it separates;
* `place_printPadded` — a printed number is read back.
-/

/-- The test `c < '0' || c > '9'`, negated. -/
def isDigit (c : ℕ) : Bool := 48 ≤ c && c ≤ 57

/-- The loop over the leading digits: the value and how many there were. -/
def digitLoop : Bytes → ℕ → ℕ → ℕ × ℕ
  | [], v, digits => (v, digits)
  | c :: key, v, digits =>
    if isDigit c then digitLoop key (u64 (v * 10 + (c - 48))) (digits + 1) else (v, digits)

/-- `v *= 10`, `n` times. -/
def padLoop : ℕ → ℕ → ℕ
  | 0, v => v
  | n + 1, v => padLoop n (u64 (v * 10))

/-- `DecimalRangeMapper::Map` for a range size and width as the constructor left them. -/
def decimalMap (rangeSize keyWidth : ℕ) (key : Bytes) : ℕ :=
  let r := digitLoop key 0 0
  padLoop (keyWidth - r.2) r.1 / rangeSize

/-- `snprintf("%0*llu", width, n)`, for widths the source's buffer of 40 bytes holds. -/
def printPadded (width n : ℕ) : Bytes :=
  let s := (Nat.toDigits 10 n).map Char.toNat
  List.replicate (width - s.length) 48 ++ s

/-- `NewDecimalRangeMapper`: a range size of 0 means 1 and a width that is not positive
    means 16. -/
def newDecimalRangeMapper (rangeSize : ℕ) (keyWidth : ℤ) : RangeMapper :=
  let size := if rangeSize = 0 then 1 else rangeSize
  let width := if 0 < keyWidth then keyWidth.toNat else 16
  { map := decimalMap size width
    rangeSize := size
    rangeStartKey := fun range => (printPadded width (u64 (range * size))).take width }

/-- A digit's value is its byte less that of `'0'`. -/
def digitValue (c : ℕ) : ℕ := c - 48

/-- `v = (v << 8) | c` over the leading bytes. -/
def byteLoop : Bytes → ℕ → ℕ
  | [], v => v
  | c :: key, v => byteLoop key (u64 (v <<< 8) ||| c)

/-- `v <<= 8`, `n` times. -/
def shiftLoop : ℕ → ℕ → ℕ
  | 0, v => v
  | n + 1, v => shiftLoop n (u64 (v <<< 8))

/-- `PrefixRangeMapper::Map` for a range size as the constructor left it. -/
def prefixMap (rangeSize : ℕ) (key : Bytes) : ℕ :=
  let n := min key.length 8
  shiftLoop (8 - n) (byteLoop (key.take n) 0) / rangeSize

/-- The eight bytes of a word, most significant first. -/
def wordBytes (v : ℕ) : Bytes := (List.range 8).map fun i => v >>> (56 - 8 * i) &&& 0xff

/-- `NewPrefixRangeMapper`: a range size of 0 means 1. -/
def newPrefixRangeMapper (rangeSize : ℕ) : RangeMapper :=
  let size := if rangeSize = 0 then 1 else rangeSize
  { map := prefixMap size
    rangeSize := size
    rangeStartKey := fun range => wordBytes (u64 (range * size)) }

/-- A machine word does not wrap. -/
theorem u64_of_lt {n : ℕ} (h : n < 2 ^ 64) : u64 n = n := Nat.mod_eq_of_lt h

/-- Wrapping is congruence modulo 2^64. -/
theorem u64_modEq (n : ℕ) : u64 n ≡ n [MOD 2 ^ 64] := Nat.mod_modEq _ _

/-! ### The decimal mapper on digits -/

/-- The decimal digits are numerals. -/
theorem decimal_numerals : Numerals 10 digitValue (fun c => isDigit c = true) where
  pos := by decide
  lt c hc := by
    simp only [isDigit, Bool.and_eq_true, decide_eq_true_eq] at hc
    simp only [digitValue]
    omega
  mono c d hc hd hlt := by
    simp only [isDigit, Bool.and_eq_true, decide_eq_true_eq] at hc hd
    simp only [digitValue]
    omega

/-- On digits the loop reads all of them. -/
theorem digitLoop_eq (key : Bytes) : ∀ v digits : ℕ, (∀ c ∈ key, isDigit c = true) →
    digitLoop key v digits =
      (key.foldl (fun v c => (v * 10 + digitValue c) % 2 ^ 64) v, digits + key.length) := by
  induction key with
  | nil => exact fun v digits _ => rfl
  | cons c key ih =>
    intro v digits hkey
    rw [digitLoop, if_pos (hkey c List.mem_cons_self),
      ih _ _ fun x hx => hkey x (List.mem_cons_of_mem _ hx), List.foldl_cons, List.length_cons,
      Nat.add_right_comm, Nat.add_assoc]
    rfl

/-- Padding multiplies by a power of ten in 64 bits. -/
theorem padLoop_eq (n : ℕ) : ∀ v, v < 2 ^ 64 → padLoop n v = v * 10 ^ n % 2 ^ 64 := by
  induction n with
  | zero =>
    intro v hv
    rw [padLoop, pow_zero, Nat.mul_one, Nat.mod_eq_of_lt hv]
  | succ n ih =>
    intro v _
    have hpow : v * 10 ^ (n + 1) = v * 10 * 10 ^ n := by ring
    rw [padLoop, ih (u64 (v * 10)) (Nat.mod_lt _ (by norm_num)), hpow]
    exact (u64_modEq (v * 10)).mul_right _

/-- A loop that wraps in every step ends in a machine word. -/
theorem foldl_mod_lt (f : ℕ → ℕ → ℕ) (s : List ℕ) : ∀ v, v < 2 ^ 64 →
    s.foldl (fun v c => f v c % 2 ^ 64) v < 2 ^ 64 := by
  induction s with
  | nil => exact fun v hv => hv
  | cons c s ih => exact fun v _ => ih _ (Nat.mod_lt _ (by norm_num))

/-- **The mapper on digits**, whatever their number. -/
theorem decimalMap_eq_place {rangeSize keyWidth : ℕ} {key : Bytes}
    (hkey : ∀ c ∈ key, isDigit c = true) (hlen : key.length ≤ keyWidth) :
    decimalMap rangeSize keyWidth key =
      place 10 digitValue keyWidth key % 2 ^ 64 / rangeSize := by
  have hread := @foldl_place_modEq 10 digitValue (2 ^ 64) key keyWidth 0 hlen
  rw [Nat.zero_mul, Nat.zero_add] at hread
  unfold decimalMap
  rw [digitLoop_eq key 0 0 hkey]
  simp only [Nat.zero_add]
  rw [padLoop_eq _ _ (foldl_mod_lt _ key 0 (by norm_num)), hread]

/-- Up to nineteen digits never reach `2^64`. -/
theorem place_lt_two_pow {w : ℕ} (hw : w ≤ 19) {key : Bytes} (hkey : ∀ c ∈ key, isDigit c = true) :
    place 10 digitValue w key < 2 ^ 64 :=
  calc place 10 digitValue w key
      < 10 ^ w := decimal_numerals.place_lt w key hkey
    _ ≤ 10 ^ 19 := Nat.pow_le_pow_right (by norm_num) hw
    _ < 2 ^ 64 := by norm_num

/-- Up to nineteen digits nothing wraps: the map is the key's value by the range size. -/
theorem decimalMap_eq_of_le {rangeSize keyWidth : ℕ} (hw : keyWidth ≤ 19) {key : Bytes}
    (hkey : ∀ c ∈ key, isDigit c = true) (hlen : key.length ≤ keyWidth) :
    decimalMap rangeSize keyWidth key = place 10 digitValue keyWidth key / rangeSize := by
  rw [decimalMap_eq_place hkey hlen, Nat.mod_eq_of_lt (place_lt_two_pow hw hkey)]

/-- **Order.** The mapper keeps the dictionary order of digit strings, shortened or not. -/
theorem decimalMap_mono_of_le {rangeSize keyWidth : ℕ} (hw : keyWidth ≤ 19) {s t : Bytes}
    (hs : ∀ c ∈ s, isDigit c = true) (ht : ∀ c ∈ t, isDigit c = true)
    (hslen : s.length ≤ keyWidth) (htlen : t.length ≤ keyWidth) (hst : dictLe s t = true) :
    decimalMap rangeSize keyWidth s ≤ decimalMap rangeSize keyWidth t := by
  rw [decimalMap_eq_of_le hw hs hslen, decimalMap_eq_of_le hw ht htlen]
  exact Nat.div_le_div_right (decimal_numerals.place_mono keyWidth s t hs ht hst)

/-- Keys of digits in dictionary order have ranges in order. -/
theorem decimalMap_mono {rangeSize : ℕ} {s t : Bytes} (hs : ∀ c ∈ s, isDigit c = true)
    (ht : ∀ c ∈ t, isDigit c = true) (hslen : s.length ≤ 16) (htlen : t.length ≤ 16)
    (hst : dictLe s t = true) : decimalMap rangeSize 16 s ≤ decimalMap rangeSize 16 t :=
  decimalMap_mono_of_le (by norm_num) hs ht hslen htlen hst

/-- The mapper a width and range size that are positive give. -/
theorem newDecimalRangeMapper_map {rangeSize keyWidth : ℕ} (hsize : 1 ≤ rangeSize)
    (hwidth : 1 ≤ keyWidth) :
    (newDecimalRangeMapper rangeSize keyWidth).map = decimalMap rangeSize keyWidth := by
  show decimalMap (if rangeSize = 0 then 1 else rangeSize)
    (if (0 : ℤ) < keyWidth then (keyWidth : ℤ).toNat else 16) = _
  rw [if_neg (by omega), if_pos (by omega), Int.toNat_natCast]

/-- **Shortened index keys keep their place.** For widths up to nineteen, full-width keys `a` and
    `b` and digits `S` with `a ≤ S < b` in byte order are mapped in this order; the mapper is
    monotone over all digit strings up to its width; and every value its loops go through, the
    numeral in `j` places, stays below `2^64`. -/
theorem decimalMap_between {keyWidth : ℕ} (hpos : 1 ≤ keyWidth) (hw : keyWidth ≤ 19)
    {rangeSize : ℕ} (hsize : 1 ≤ rangeSize) :
    (∀ a S b : Bytes, (∀ c ∈ a, isDigit c = true) → a.length = keyWidth →
      (∀ c ∈ S, isDigit c = true) → S.length ≤ keyWidth →
      (∀ c ∈ b, isDigit c = true) → b.length = keyWidth →
      dictLe a S = true → dictLt S b = true →
      (newDecimalRangeMapper rangeSize keyWidth).map a ≤
          (newDecimalRangeMapper rangeSize keyWidth).map S ∧
        (newDecimalRangeMapper rangeSize keyWidth).map S ≤
          (newDecimalRangeMapper rangeSize keyWidth).map b) ∧
    (∀ s t : Bytes, (∀ c ∈ s, isDigit c = true) → s.length ≤ keyWidth →
      (∀ c ∈ t, isDigit c = true) → t.length ≤ keyWidth → dictLe s t = true →
      (newDecimalRangeMapper rangeSize keyWidth).map s ≤
        (newDecimalRangeMapper rangeSize keyWidth).map t) ∧
    (∀ s : Bytes, (∀ c ∈ s, isDigit c = true) → s.length ≤ keyWidth →
      (∀ j ≤ keyWidth, place 10 digitValue j s < 2 ^ 64) ∧
      (newDecimalRangeMapper rangeSize keyWidth).map s =
        place 10 digitValue keyWidth s / rangeSize) := by
  rw [newDecimalRangeMapper_map hsize hpos]
  refine ⟨fun a S b ha halen hS hSlen hb hblen haS hSb => ⟨?_, ?_⟩,
    fun s t hs hslen ht htlen hst => ?_,
    fun s hs hslen => ⟨fun j hj => ?_, ?_⟩⟩
  · exact decimalMap_mono_of_le hw ha hS halen.le hSlen haS
  · exact decimalMap_mono_of_le hw hS hb hSlen hblen.le (dictLe_of_dictLt hSb)
  · exact decimalMap_mono_of_le hw hs ht hslen htlen hst
  · exact place_lt_two_pow (hj.trans hw) hs
  · exact decimalMap_eq_of_le hw hs hslen

/-- Keys `0123` and `0199` with their separator `013`, in ranges of ten. -/
theorem decimalMap_between_separator :
    (newDecimalRangeMapper 10 4).map [48, 49, 50, 51] ≤
        (newDecimalRangeMapper 10 4).map [48, 49, 51] ∧
      (newDecimalRangeMapper 10 4).map [48, 49, 51] ≤
        (newDecimalRangeMapper 10 4).map [48, 49, 57, 57] :=
  (@decimalMap_between 4 (by decide) (by decide) 10 (by decide)).1
    [48, 49, 50, 51] [48, 49, 51] [48, 49, 57, 57] (by decide) (by decide) (by decide) (by decide)
    (by decide) (by decide) (by decide) (by decide)

-- the separator is `0130`
example : (newDecimalRangeMapper 10 4).map [48, 49, 51] = 13 := by decide

/-- A key that does not begin with a digit is in range 0. -/
theorem decimalMap_of_not_digit {rangeSize keyWidth c : ℕ} {key : Bytes}
    (hc : isDigit c = false) : decimalMap rangeSize keyWidth (c :: key) = 0 := by
  have hzero : ∀ n, padLoop n 0 = 0 := fun n => by
    rw [padLoop_eq n 0 (by norm_num), Nat.zero_mul, Nat.zero_mod]
  simp [decimalMap, digitLoop, hc, hzero]

/-! ### Printed numbers -/

/-- Lean's reader of digits, as a value by places. -/
theorem ofDigitChars_eq (cs : List Char) : ∀ acc, Nat.ofDigitChars 10 cs acc =
    acc * 10 ^ cs.length + place 10 digitValue cs.length (cs.map Char.toNat) := by
  induction cs with
  | nil => exact fun acc => by simp [Nat.ofDigitChars]
  | cons c cs ih =>
    intro acc
    rw [Nat.ofDigitChars_cons, ih, List.map_cons, List.length_cons, place_cons]
    show (10 * acc + (c.toNat - 48)) * _ + _ = _ + ((c.toNat - 48) * _ + _)
    ring

/-- Zeros in front are digits too. -/
theorem isDigit_of_mem_printPadded {w n c : ℕ} (h : c ∈ printPadded w n) : isDigit c = true := by
  unfold printPadded at h
  rcases List.mem_append.mp h with hzero | hdigit
  · rw [List.eq_of_mem_replicate hzero]
    rfl
  · obtain ⟨d, hd, rfl⟩ := List.mem_map.mp hdigit
    have hisDigit := Nat.isDigit_of_mem_toDigits (by norm_num) (by norm_num) hd
    have hrange : 48 ≤ d.toNat ∧ d.toNat ≤ 57 := by
      simpa [Char.isDigit, UInt32.le_iff_toNat_le] using hisDigit
    simpa [isDigit] using hrange

section Printed

variable {w n : ℕ}

/-- A number below `10 ^ w` has at most `w` digits. -/
theorem length_toDigits_le (hw : 0 < w) (hn : n < 10 ^ w) : (Nat.toDigits 10 n).length ≤ w :=
  (Nat.length_toDigits_le_iff (by norm_num) hw).mpr hn

/-- Padded, it has exactly `w`. -/
theorem length_printPadded (hw : 0 < w) (hn : n < 10 ^ w) : (printPadded w n).length = w := by
  have hle := length_toDigits_le hw hn
  simp only [printPadded, List.length_append, List.length_replicate, List.length_map]
  omega

/-- **A printed number is read back.** -/
theorem place_printPadded (hw : 0 < w) (hn : n < 10 ^ w) :
    place 10 digitValue w (printPadded w n) = n := by
  have hle := length_toDigits_le hw hn
  have hvalue := ofDigitChars_eq (Nat.toDigits 10 n) 0
  rw [Nat.ofDigitChars_ten_toDigits, Nat.zero_mul, Nat.zero_add] at hvalue
  have hzeros := @place_replicate_append 10 digitValue 48 rfl
    (w - (Nat.toDigits 10 n).length) (Nat.toDigits 10 n).length ((Nat.toDigits 10 n).map Char.toNat)
  rw [Nat.sub_add_cancel hle, ← hvalue] at hzeros
  simpa [printPadded] using hzeros

end Printed

/-! ### The prefix mapper -/

/-- Bytes are numerals in base 256. -/
theorem byte_numerals : Numerals 256 id (fun c => c < 256) where
  pos := by decide
  lt _ hc := hc
  mono _ _ _ _ hlt := hlt

/-- Shifting and or-ing a byte in is multiplying and adding, modulo 2^64. -/
theorem byteLoop_eq (key : Bytes) : ∀ v : ℕ, (∀ c ∈ key, c < 256) →
    byteLoop key v = key.foldl (fun v c => (v * 256 + id c) % 2 ^ 64) v := by
  induction key with
  | nil => exact fun v _ => rfl
  | cons c key ih =>
    intro v hkey
    have hc : c < 2 ^ 8 := hkey c List.mem_cons_self
    -- the shifted word ends in eight zero bits, so the byte is added
    have hcut : u64 (v <<< 8) = (v % 2 ^ 56) <<< 8 := by
      rw [Nat.shiftLeft_eq, Nat.shiftLeft_eq]
      unfold u64
      omega
    have hstep : u64 (v <<< 8) ||| c = (v * 256 + c) % 2 ^ 64 := by
      rw [hcut, ← Nat.shiftLeft_add_eq_or_of_lt hc, Nat.shiftLeft_eq]
      omega
    rw [byteLoop, hstep, ih _ fun x hx => hkey x (List.mem_cons_of_mem _ hx)]
    rfl

/-- Shifting `n` bytes up is multiplying by `256 ^ n`, modulo 2^64. -/
theorem shiftLoop_eq (n : ℕ) : ∀ v, v < 2 ^ 64 → shiftLoop n v = v * 256 ^ n % 2 ^ 64 := by
  induction n with
  | zero =>
    intro v hv
    rw [shiftLoop, pow_zero, Nat.mul_one, Nat.mod_eq_of_lt hv]
  | succ n ih =>
    intro v _
    have hpow : v * 256 ^ (n + 1) = v <<< 8 * 256 ^ n := by
      rw [Nat.shiftLeft_eq]
      ring
    rw [shiftLoop, ih (u64 (v <<< 8)) (Nat.mod_lt _ (by norm_num)), hpow]
    exact (u64_modEq (v <<< 8)).mul_right _

/-- **The prefix mapper on bytes**: eight places in base 256 always fit. -/
theorem prefixMap_eq {rangeSize : ℕ} {key : Bytes} (hkey : ∀ c ∈ key, c < 256) :
    prefixMap rangeSize key = place 256 id 8 key / rangeSize := by
  have hbytes : ∀ c ∈ key.take (min key.length 8), c < 256 := fun c hc =>
    hkey c (List.mem_of_mem_take hc)
  have hlen : (key.take (min key.length 8)).length = min key.length 8 := by
    rw [List.length_take]
    omega
  have htake : key.take (min key.length 8) = key.take 8 := by
    rw [List.take_eq_take_iff]
    omega
  have hread := @foldl_place_modEq 256 id (2 ^ 64) (key.take (min key.length 8)) 8 0 (by omega)
  rw [Nat.zero_mul, Nat.zero_add, hlen] at hread
  have hfit : place 256 id 8 key < 2 ^ 64 := byte_numerals.place_lt 8 key hkey
  show shiftLoop (8 - min key.length 8) (byteLoop (key.take (min key.length 8)) 0) / rangeSize = _
  rw [byteLoop_eq _ 0 hbytes, shiftLoop_eq _ _ (foldl_mod_lt _ _ 0 (by norm_num)), hread, htake,
    place_take, Nat.mod_eq_of_lt hfit]

/-- The bytes of a word are bytes. -/
theorem wordBytes_lt {v c : ℕ} (h : c ∈ wordBytes v) : c < 256 := by
  unfold wordBytes at h
  obtain ⟨i, -, rfl⟩ := List.mem_map.mp h
  exact Nat.lt_succ_of_le Nat.and_le_right

theorem length_wordBytes (v : ℕ) : (wordBytes v).length = 8 := by simp [wordBytes]

/-- A word is read back from its bytes. -/
theorem place_wordBytes {v : ℕ} (hv : v < 2 ^ 64) : place 256 id 8 (wordBytes v) = v := by
  have hdigits : wordBytes v = (List.range 8).map fun i => v / 256 ^ (8 - 1 - i) % 256 := by
    unfold wordBytes
    apply List.map_congr_left
    intro i hi
    have hi' : i < 8 := List.mem_range.mp hi
    have hexp : 56 - 8 * i = 8 * (8 - 1 - i) := by omega
    rw [Nat.shiftRight_eq_div_pow, hexp, pow_mul, show (0xff : ℕ) = 2 ^ 8 - 1 from rfl,
      Nat.and_two_pow_sub_one_eq_mod]
    rfl
  rw [hdigits, place_digits]
  exact Nat.mod_eq_of_lt hv

end Leaper
