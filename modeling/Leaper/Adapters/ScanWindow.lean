import Leaper.Adapters.RocksDBWarm
import Leaper.Core.Mapper

namespace Leaper.RocksDB

open Lib

/-!
# The keys a warming scan reads

The RocksDB adapter warms a range by a scan from its first key to the first key of the next
range, in byte order.  Here the window of a scan is compared with the ranges of the mapper that
built its bounds.

* `scanRanges_window`, `prefetch_window` — a scan with no budget steps over exactly the keys of
  its window;
* `encodeKey_window` — for the benchmark's keys and the decimal mapper, windows and ranges agree;
* `prefixWindow_exact_iff` — for the prefix mapper they agree but for keys shorter than eight
  bytes that are worth a bound, and in the topmost range.
-/

/-- `EncodeKey` of the benchmark: `snprintf` into 17 bytes, of which 16 are the key. -/
def encodeKey (index : ℕ) : Bytes := (printPadded 16 index).take 16

/-- The keys between the bounds that `WarmFromFiles` and `Prefetch` build for a block. -/
def scanWindow (m : RangeMapper) (b : BlockRef) (key : Bytes) : Bool :=
  dictWindow (m.rangeStartKey b.firstRange) (m.rangeStartKey (u64 (b.lastRange + 1))) key

/-- The block that stands for one chosen range. -/
def rangeBlock (range : ℕ) : BlockRef := { firstRange := range, lastRange := range }

/-! ### The scans -/

section Scans

variable {e : WarmEngine} {m : RangeMapper}

/-- `Next`, once for every key. -/
def nexts (e : WarmEngine) (keys : List Bytes) (log : Log WarmOp) : Log WarmOp :=
  keys.foldl (fun log _ => issue e.cost .next log) log

/-- Without a budget the scan of a file steps over every key in front of the limit. -/
theorem scanKeys_zero (limit : Bytes) (keys : List Bytes) : ∀ log : Log WarmOp,
    scanKeys e 0 limit keys log = (nexts e (keys.takeWhile fun k => e.lt k limit) log, false) := by
  induction keys with
  | nil => exact fun log => rfl
  | cons k ks ih =>
    intro log
    by_cases hin : e.lt k limit = true
    · simp [scanKeys, hin, overBudget_zero, ih, nexts]
    · simp [scanKeys, hin, nexts]

/-- **A scan of a file** under no budget: one `Seek`, and `Next` for the keys of the window. -/
theorem scanRanges_window (hlt : e.lt = dictLt) {keys : List Bytes}
    (hsorted : keys.Pairwise fun s t => dictLe s t = true) (b : BlockRef) (bs : List BlockRef)
    (log : Log WarmOp) :
    scanRanges e m 0 keys (b :: bs) log = scanRanges e m 0 keys bs
      (nexts e (keys.filter (scanWindow m b))
        (issue e.cost (.seek (m.rangeStartKey b.firstRange)) log)) := by
  have hseen : (((e.seekTo (m.rangeStartKey b.firstRange) keys).takeWhile fun k =>
      e.lt k (m.rangeStartKey (u64 (b.lastRange + 1)))) = keys.filter (scanWindow m b)) := by
    rw [hlt]
    unfold WarmEngine.seekTo
    rw [hlt]
    exact scan_eq_filter hsorted _ _
  rw [scanRanges]
  simp only [overBudget_zero, Bool.false_eq_true, if_false, scanKeys_zero, hseen]

/-- Without a budget or a limit the database scan stops at `warm_scan_keys` alone. -/
theorem scanDb_unbounded (warmScanKeys : ℤ) (keys : List Bytes) : ∀ (n : ℕ) (log : Log WarmOp),
    scanDb e (fun _ => false) warmScanKeys keys n log =
      (nexts e (keys.take (warmScanKeys - n).toNat) log, false) := by
  induction keys with
  | nil =>
    intro n log
    simp [scanDb, nexts]
  | cons k ks ih =>
    intro n log
    by_cases hn : (n : ℤ) < warmScanKeys
    · have hsucc : (warmScanKeys - n).toNat = (warmScanKeys - (n + 1 : ℕ)).toNat + 1 := by omega
      have ih' := ih (n + 1) (issue e.cost .next log)
      rw [Nat.cast_succ] at ih'
      rw [scanDb, if_pos hn, if_neg Bool.false_ne_true, ih', hsucc, List.take_succ_cons,
        Nat.cast_succ]
      rfl
    · have hzero : (warmScanKeys - n).toNat = 0 := by omega
      rw [scanDb, if_neg hn, hzero]
      rfl

/-- **A scan of the database** under no budget: the first keys of the window, as many as one
    scan may read. -/
theorem prefetch_window (hlt : e.lt = dictLt) (a : WarmAdapter) (hdb : a.hasDb = true)
    (b : BlockRef) (l : PrefetchLoop) (hbudget : l.budgetLeft = 0)
    (hsorted : (e.dbKeys l.log).Pairwise fun s t => dictLe s t = true) :
    (a.prefetch e b l).log =
      nexts e (((e.dbKeys l.log).filter (scanWindow a.core.mapper b)).take a.warmScanKeys.toNat)
        (issue e.cost (.seek (a.core.mapper.rangeStartKey b.firstRange)) l.log) := by
  have hseen : e.seekTo (a.core.mapper.rangeStartKey b.firstRange)
      ((e.dbKeys l.log).filter fun k =>
        e.lt k (a.core.mapper.rangeStartKey (u64 (b.lastRange + 1)))) =
      (e.dbKeys l.log).filter (scanWindow a.core.mapper b) := by
    unfold WarmEngine.seekTo
    rw [hlt]
    exact bounded_scan_eq_filter hsorted _ _
  have hscan := @scanDb_unbounded e a.warmScanKeys
    ((e.dbKeys l.log).filter (scanWindow a.core.mapper b)) 0
  simp only [Nat.cast_zero, sub_zero] at hscan
  simp [WarmAdapter.prefetch, hdb, hbudget, hseen, hscan]

end Scans

/-! ### The decimal mapper -/

section Decimal

variable {n : ℕ} (hn : n < 10 ^ 16)
include hn

/-- Sixteen digits are printed, so cutting at sixteen cuts nothing. -/
theorem take_printPadded : (printPadded 16 n).take 16 = printPadded 16 n :=
  List.take_of_length_le (length_printPadded (by norm_num) hn).le

/-- A key has sixteen bytes. -/
theorem length_encodeKey : (encodeKey n).length = 16 := by
  rw [encodeKey, take_printPadded hn, length_printPadded (by norm_num) hn]

/-- A key's decimal value is the number it was made from. -/
theorem place_encodeKey : place 10 digitValue 16 (encodeKey n) = n := by
  rw [encodeKey, take_printPadded hn, place_printPadded (by norm_num) hn]

end Decimal

/-- All bytes of a key are digits. -/
theorem isDigit_encodeKey {n : ℕ} : ∀ c ∈ encodeKey n, isDigit c = true :=
  fun _ hc => isDigit_of_mem_printPadded (List.mem_of_mem_take hc)

/-- The first key of a range is the encoding of its first index. -/
theorem rangeStartKey_decimal {rangeSize : ℕ} (hsize : 1 ≤ rangeSize) (range : ℕ)
    (hrange : range * rangeSize < 10 ^ 16) :
    (newDecimalRangeMapper rangeSize 16).rangeStartKey range = encodeKey (range * rangeSize) := by
  show (printPadded 16 (u64 (range * if rangeSize = 0 then 1 else rangeSize))).take 16 = _
  rw [if_neg (by omega), u64_of_lt (by omega), encodeKey]

/-- The decimal mapper finds the number's range. -/
theorem map_encodeKey {rangeSize : ℕ} (hsize : 1 ≤ rangeSize) {i : ℕ} (hi : i < 10 ^ 16) :
    (newDecimalRangeMapper rangeSize 16).map (encodeKey i) = i / rangeSize := by
  have hmap := @newDecimalRangeMapper_map rangeSize 16 hsize (by norm_num)
  rw [Nat.cast_ofNat] at hmap
  rw [hmap, decimalMap_eq_of_le (by norm_num) isDigit_encodeKey (length_encodeKey hi).le,
    place_encodeKey hi]

/-- Encoded keys are in byte order as their indices are. -/
theorem dictLe_encodeKey {i j : ℕ} (hi : i < 10 ^ 16) (hj : j < 10 ^ 16) :
    dictLe (encodeKey i) (encodeKey j) = true ↔ i ≤ j := by
  rw [decimal_numerals.dictLe_iff 16 _ _ isDigit_encodeKey isDigit_encodeKey (length_encodeKey hi),
    place_encodeKey hi, place_encodeKey hj, length_encodeKey hj]
  omega

/-- Keys are ordered as their numbers are. -/
theorem dictLt_encodeKey {i j : ℕ} (hi : i < 10 ^ 16) (hj : j < 10 ^ 16) :
    dictLt (encodeKey i) (encodeKey j) = true ↔ i < j := by
  rw [dictLt_eq_not, Bool.not_eq_true', ← Bool.not_eq_true, dictLe_encodeKey hj hi, not_le]

/-- **Keys, ranges and scans agree.** Encoded keys are in byte order as their indices are, the
    decimal mapper takes them to the index divided by the range size and the first key of a range
    to the range, and the scan of a range covers exactly its keys. -/
theorem encodeKey_window {rangeSize : ℕ} (hsize : 1 ≤ rangeSize) :
    (∀ i j, i < 10 ^ 16 → j < 10 ^ 16 → (dictLt (encodeKey i) (encodeKey j) = true ↔ i < j)) ∧
    (∀ i, i < 10 ^ 16 → (newDecimalRangeMapper rangeSize 16).map (encodeKey i) = i / rangeSize) ∧
    ∀ r, (r + 1) * rangeSize < 10 ^ 16 →
      (newDecimalRangeMapper rangeSize 16).map
          ((newDecimalRangeMapper rangeSize 16).rangeStartKey r) = r ∧
      ∀ i, i < 10 ^ 16 →
        (scanWindow (newDecimalRangeMapper rangeSize 16) (rangeBlock r) (encodeKey i) = true ↔
          (newDecimalRangeMapper rangeSize 16).map (encodeKey i) = r) := by
  refine ⟨fun i j hi hj => dictLt_encodeKey hi hj, fun i hi => map_encodeKey hsize hi,
    fun r hr => ?_⟩
  have hnext : (r + 1) * rangeSize = r * rangeSize + rangeSize := Nat.succ_mul r rangeSize
  have hstart : r * rangeSize < 10 ^ 16 := by omega
  have hr64 : r + 1 < 2 ^ 64 :=
    calc r + 1 ≤ (r + 1) * rangeSize := Nat.le_mul_of_pos_right _ hsize
      _ < 2 ^ 64 := by omega
  constructor
  · rw [rangeStartKey_decimal hsize r hstart, map_encodeKey hsize hstart,
      Nat.mul_div_cancel _ hsize]
  · intro i hi
    rw [scanWindow, dictWindow, rangeBlock, u64_of_lt hr64, rangeStartKey_decimal hsize r hstart,
      rangeStartKey_decimal hsize (r + 1) hr, Bool.and_eq_true, dictLe_encodeKey hstart hi,
      dictLt_encodeKey hi hr, map_encodeKey hsize hi, Nat.div_eq_iff hsize]
    omega

/-- The last key of range 4 and the first of range 5, in ranges of ten. -/
theorem encodeKey_window_border :
    (scanWindow (newDecimalRangeMapper 10 16) (rangeBlock 4) (encodeKey 49) = true ↔
      (newDecimalRangeMapper 10 16).map (encodeKey 49) = 4) ∧
    (scanWindow (newDecimalRangeMapper 10 16) (rangeBlock 4) (encodeKey 50) = true ↔
      (newDecimalRangeMapper 10 16).map (encodeKey 50) = 4) :=
  have h := ((@encodeKey_window 10 (by norm_num)).2.2 4 (by norm_num)).2
  ⟨h 49 (by norm_num), h 50 (by norm_num)⟩

/-! ### The prefix mapper -/

section Prefix

variable {rangeSize : ℕ}

/-- For a range size of at least one the constructor leaves it as it is. -/
theorem newPrefixRangeMapper_map (hsize : 1 ≤ rangeSize) :
    (newPrefixRangeMapper rangeSize).map = prefixMap rangeSize := by
  show prefixMap (if rangeSize = 0 then 1 else rangeSize) = _
  rw [if_neg (by omega)]

/-- The first key of a range: eight bytes, big end first, modulo 2^64. -/
theorem rangeStartKey_prefix (hsize : 1 ≤ rangeSize) (range : ℕ) :
    (newPrefixRangeMapper rangeSize).rangeStartKey range =
      wordBytes (u64 (range * rangeSize)) := by
  show wordBytes (u64 (range * if rangeSize = 0 then 1 else rangeSize)) = _
  rw [if_neg (by omega)]

/-- The window of one range in terms of the bounds' words and the key's. -/
theorem prefixWindow_iff (hsize : 1 ≤ rangeSize) (r : ℕ) {k : Bytes} (hk : ∀ c ∈ k, c < 256) :
    scanWindow (newPrefixRangeMapper rangeSize) (rangeBlock r) k = true ↔
      (u64 (r * rangeSize) < place 256 id 8 k ∨
        u64 (r * rangeSize) = place 256 id 8 k ∧ 8 ≤ k.length) ∧
      ¬ (u64 (u64 (r + 1) * rangeSize) < place 256 id 8 k ∨
        u64 (u64 (r + 1) * rangeSize) = place 256 id 8 k ∧ 8 ≤ k.length) := by
  have hword : ∀ v, u64 v < 2 ^ 64 := fun v => Nat.mod_lt _ (by norm_num)
  rw [scanWindow, rangeBlock, rangeStartKey_prefix hsize, rangeStartKey_prefix hsize,
    byte_numerals.dictWindow_iff (fun _ => wordBytes_lt) (fun _ => wordBytes_lt) hk
      (length_wordBytes _) (length_wordBytes _), place_wordBytes (hword _),
    place_wordBytes (hword _)]

/-- **The prefix mapper is monotone, and when its windows are exact.** A scan covers a key iff it
    is of the range, unless the key is shorter than eight bytes and its word is one of the
    bounds.  For the topmost range the limit wraps and the window is empty: then it is right about
    the keys of the ranges below only. -/
theorem prefixWindow_exact_iff (hsize : 1 ≤ rangeSize) (hword : rangeSize < 2 ^ 64) :
    (∀ a b : Bytes, (∀ c ∈ a, c < 256) → (∀ c ∈ b, c < 256) → dictLe a b = true →
      (newPrefixRangeMapper rangeSize).map a ≤ (newPrefixRangeMapper rangeSize).map b) ∧
    ∀ r, (∃ k₀ : Bytes, (∀ c ∈ k₀, c < 256) ∧ (newPrefixRangeMapper rangeSize).map k₀ = r) →
      ∀ k : Bytes, (∀ c ∈ k, c < 256) →
      ((scanWindow (newPrefixRangeMapper rangeSize) (rangeBlock r) k = true ↔
          (newPrefixRangeMapper rangeSize).map k = r) ↔
        if (r + 1) * rangeSize < 2 ^ 64 then
          ¬ (k.length < 8 ∧ (place 256 id 8 k = r * rangeSize ∨
            place 256 id 8 k = (r + 1) * rangeSize))
        else place 256 id 8 k < r * rangeSize) := by
  rw [newPrefixRangeMapper_map hsize]
  refine ⟨fun a b ha hb hab => ?_, ?_⟩
  · rw [prefixMap_eq ha, prefixMap_eq hb]
    exact Nat.div_le_div_right (byte_numerals.place_mono 8 a b ha hb hab)
  · rintro r ⟨k₀, hk₀, hr⟩ k hk
    -- the range is in the image, so its start does not wrap
    have hv₀ : place 256 id 8 k₀ < 2 ^ 64 := byte_numerals.place_lt 8 k₀ hk₀
    have hv : place 256 id 8 k < 2 ^ 64 := byte_numerals.place_lt 8 k hk
    have hstart : r * rangeSize < 2 ^ 64 := by
      rw [← hr, prefixMap_eq hk₀]
      exact (Nat.div_mul_le_self _ _).trans_lt hv₀
    have hnext : (r + 1) * rangeSize = r * rangeSize + rangeSize := Nat.succ_mul r rangeSize
    have hlimit : u64 (u64 (r + 1) * rangeSize) = u64 ((r + 1) * rangeSize) :=
      (u64_modEq (r + 1)).mul_right rangeSize
    rw [prefixWindow_iff hsize r hk, prefixMap_eq hk, Nat.div_eq_iff hsize, hlimit,
      u64_of_lt hstart]
    generalize place 256 id 8 k = v at hv ⊢
    by_cases htop : (r + 1) * rangeSize < 2 ^ 64
    · rw [if_pos htop, u64_of_lt htop]
      omega
    · -- the wrapped limit is below the start
      have hwrap : u64 ((r + 1) * rangeSize) = (r + 1) * rangeSize - 2 ^ 64 := by
        unfold u64
        omega
      rw [if_neg htop, hwrap]
      omega

/-- A key of eight bytes is scanned with its range. -/
theorem prefixWindow_exact_fullKey :
    scanWindow (newPrefixRangeMapper 4) (rangeBlock 1) [0, 0, 0, 0, 0, 0, 0, 5] = true ↔
      (newPrefixRangeMapper 4).map [0, 0, 0, 0, 0, 0, 0, 5] = 1 :=
  ((@prefixWindow_exact_iff 4 (by norm_num) (by norm_num)).2 1
    ⟨[0, 0, 0, 0, 0, 0, 0, 7], by decide, by decide⟩ [0, 0, 0, 0, 0, 0, 0, 5] (by decide)).mpr
    (by decide)

/-- The key `a` is of the range `97 * 2^56`, and precedes that range's first key; and the scan of
    the topmost range stops before it has begun. -/
theorem prefixWindow_misses :
    ((newPrefixRangeMapper 1).map [97] = 97 * 2 ^ 56 ∧
      scanWindow (newPrefixRangeMapper 1) (rangeBlock (97 * 2 ^ 56)) [97] = false) ∧
    (newPrefixRangeMapper 1).map (List.replicate 8 255) = 2 ^ 64 - 1 ∧
      scanWindow (newPrefixRangeMapper 1) (rangeBlock (2 ^ 64 - 1))
        (List.replicate 8 255) = false := by
  decide

end Prefix

end Leaper.RocksDB
