import Leaper.Core.Types
import Leaper.Lib.Bisect
import Leaper.Lib.Rounding
import Mathlib.Algebra.Order.BigOperators.Group.Finset
import Mathlib.Algebra.Order.BigOperators.Group.List
import Mathlib.Data.List.GetD

namespace Leaper.Bench

open Lib

/-!
# The mixgraph workload

`MixgraphChooser` of `bench/include/leaper_bench/keygen.h`: the key space is cut into ranges, each
range gets an integer number of accesses from a two-term exponential, the ranges are shuffled, and
`Next` draws a number below the total, bisects for the range that has it and picks a key there.

* `shuffle_perm` — the shuffle only moves the ranges;
* `MixgraphChooser.exactShares_iff` — when a range is drawn as often as it has accesses;
* `MixgraphChooser.next_new_div` — the key is one of the range that was drawn;
* `mixgraph_shares` — the same for what the constructor builds, with the bound on the key.
-/

/-- The functions of `libm` that are called, on doubles. -/
structure Libm where
  exp : ℚ → ℚ
  pow : ℚ → ℚ → ℚ
  exp_zero : exp 0 = 1

/-- `Mixgraph`. -/
structure Mixgraph where
  keyrangeNum : ℤ := 30
  keyrangeA : ℚ := binary64 14.18
  keyrangeB : ℚ := binary64 (-2.917)
  keyrangeC : ℚ := binary64 0.0164
  keyrangeD : ℚ := binary64 (-0.08082)
  keyA : ℚ := binary64 0.002312
  keyB : ℚ := binary64 0.3467

/-- `Unit`: a key range's accesses are the draws `[start, start + access)`. -/
structure MixgraphUnit where
  start : ℕ := 0
  access : ℕ := 0
  deriving DecidableEq, Repr

/-- `SplitMix`. -/
def splitMix (x : ℕ) : ℕ :=
  let x := u64 (x + 0x9E3779B97F4A7C15)
  let x := u64 ((x ^^^ (x >>> 30)) * 0xBF58476D1CE4E5B9)
  let x := u64 ((x ^^^ (x >>> 27)) * 0x94D049BB133111EB)
  x ^^^ (x >>> 31)

/-! ### The constructor -/

/-- `num_`. -/
def keyRanges (cfg : Mixgraph) : ℕ := if 0 < cfg.keyrangeNum then cfg.keyrangeNum.toNat else 1

/-- `size_`. -/
def rangeKeys (n num : ℕ) : ℕ := if n / num = 0 then 1 else n / num

/-- `p`, for the range `pfx`. -/
def rangeProbability (libm : Libm) (cfg : Mixgraph) (pfx : ℕ) : ℚ :=
  let p := binary64
    (binary64 (cfg.keyrangeA * libm.exp (binary64 (cfg.keyrangeB * pfx))) +
      binary64 (cfg.keyrangeC * libm.exp (binary64 (cfg.keyrangeD * pfx))))
  if p < binary64 1e-16 then 0 else p

/-- The variables of the first loop. -/
structure RangeLoop where
  amplify : ℕ := 0
  start : ℕ := 0
  units : List MixgraphUnit := []
  deriving DecidableEq

/-- A turn of the first loop.  The first range with a chance at all fixes the scale, by which it
    gets at least one access. -/
def pushRange (libm : Libm) (cfg : Mixgraph) (s : RangeLoop) (pfx : ℕ) : RangeLoop :=
  let p := rangeProbability libm cfg pfx
  let amplify := if s.amplify = 0 ∧ 0 < p then u64 (⌊binary64 (1 / p)⌋₊ + 1) else s.amplify
  let access := if p ≤ 0 then 0 else ⌊binary64 (binary64 amplify * p)⌋₊
  { amplify, start := u64 (s.start + access), units := s.units ++ [⟨s.start, access⟩] }

/-- The first loop, `pfx` from `num_` down to 1. -/
def pushRanges (libm : Libm) (cfg : Mixgraph) : RangeLoop :=
  (List.range' 1 (keyRanges cfg)).reverse.foldl (pushRange libm cfg) {}

/-- `rand_max_`. -/
def randMaxOf (start : ℕ) : ℕ := if 0 < start then start else 1

/-- `std::swap(us[i], us[j])`. -/
def swapAt {α : Type*} (us : List α) (i j : ℕ) : List α := (us.toArray.swapIfInBounds i j).toList

/-- A turn of the second loop; `s` is the state of the generator. -/
def shuffleStep (num : ℕ) (st : ℕ × List MixgraphUnit) (i : ℕ) : ℕ × List MixgraphUnit :=
  let s := splitMix st.1
  (s, swapAt st.2 i (s % num))

/-- The second loop. -/
def shuffle (num s : ℕ) (us : List MixgraphUnit) : List MixgraphUnit :=
  ((List.range num).foldl (shuffleStep num) (s, us)).2

/-- The third loop. -/
def restart : ℕ → List MixgraphUnit → List MixgraphUnit
  | _, [] => []
  | off, u :: us => { u with start := off } :: restart (u64 (off + u.access)) us

/-! ### What the loops do -/

/-- The accesses of the first `i` units. -/
def accessBefore (us : List MixgraphUnit) (i : ℕ) : ℕ := ((us.map (·.access)).take i).sum

/-- The accesses of all units. -/
def totalAccess (us : List MixgraphUnit) : ℕ := (us.map (·.access)).sum

/-- The shares laid end to end only grow. -/
theorem accessBefore_mono (us : List MixgraphUnit) : Monotone (accessBefore us) :=
  List.monotone_sum_take _

theorem accessBefore_zero (us : List MixgraphUnit) : accessBefore us 0 = 0 := rfl

/-- All ranges together have the whole. -/
theorem accessBefore_length (us : List MixgraphUnit) :
    accessBefore us us.length = totalAccess us := by
  unfold accessBefore totalAccess
  rw [← List.length_map (·.access), List.take_length]

/-- No part of the ranges has more than the whole. -/
theorem accessBefore_le (us : List MixgraphUnit) {i : ℕ} (h : i ≤ us.length) :
    accessBefore us i ≤ totalAccess us := by
  rw [← accessBefore_length]
  exact accessBefore_mono us h

/-- Each range adds its own share. -/
theorem accessBefore_succ (us : List MixgraphUnit) {i : ℕ} (h : i < us.length) :
    accessBefore us (i + 1) = accessBefore us i + (us.getD i {}).access := by
  unfold accessBefore
  rw [List.sum_take_succ _ _ (by rw [List.length_map]; exact h), List.getElem_map,
    List.getD_eq_getElem _ _ h]

/-- The same from the front, for inductions along the list. -/
theorem accessBefore_cons (u : MixgraphUnit) (us : List MixgraphUnit) (i : ℕ) :
    accessBefore (u :: us) (i + 1) = u.access + accessBefore us i := by
  simp [accessBefore]

/-- Each turn adds the accesses it pushed to `start`. -/
theorem start_pushRanges (libm : Libm) (cfg : Mixgraph) :
    (pushRanges libm cfg).start = u64 (totalAccess (pushRanges libm cfg).units) := by
  unfold pushRanges
  refine List.foldlRecOn (motive := fun s : RangeLoop => s.start = u64 (totalAccess s.units)) _ _
    rfl fun s hs pfx _ => ?_
  simp only [pushRange, hs, totalAccess, List.map_append, List.sum_append, u64, Nat.mod_add_mod]
  rfl

/-- One unit is laid for each range. -/
theorem length_pushRanges (libm : Libm) (cfg : Mixgraph) :
    (pushRanges libm cfg).units.length = keyRanges cfg := by
  have hfold : ∀ (pfxs : List ℕ) (s : RangeLoop),
      (pfxs.foldl (pushRange libm cfg) s).units.length = s.units.length + pfxs.length := by
    intro pfxs
    induction pfxs with
    | nil => exact fun _ => rfl
    | cons pfx pfxs ih =>
      intro s
      rw [List.foldl_cons, ih]
      simp only [pushRange, List.length_append, List.length_cons, List.length_nil]
      omega
  unfold pushRanges
  rw [hfold, List.length_reverse, List.length_range']
  exact Nat.zero_add _

/-- A swap permutes, also when an index is out of bounds and nothing happens. -/
theorem swapAt_perm {α : Type*} (us : List α) (i j : ℕ) : (swapAt us i j).Perm us := by
  unfold swapAt Array.swapIfInBounds
  split
  · split
    · exact (Array.swap_perm _ _).toList
    · exact List.Perm.refl _
  · exact List.Perm.refl _

/-- **The shuffle only moves the units.** -/
theorem shuffle_perm (num s : ℕ) (us : List MixgraphUnit) : (shuffle num s us).Perm us := by
  unfold shuffle
  exact List.foldlRecOn (motive := fun st : ℕ × List MixgraphUnit => st.2.Perm us) _ _
    (List.Perm.refl us) fun st hst i _ => (swapAt_perm st.2 i _).trans hst

/-- Starting the units anew keeps their shares. -/
theorem map_access_restart (us : List MixgraphUnit) :
    ∀ off, (restart off us).map (·.access) = us.map (·.access) := by
  induction us with
  | nil => exact fun _ => rfl
  | cons u us ih =>
    intro off
    rw [restart, List.map_cons, List.map_cons, ih]

/-- Starting the units anew keeps their number. -/
theorem length_restart (off : ℕ) (us : List MixgraphUnit) :
    (restart off us).length = us.length := by
  rw [← List.length_map (·.access), map_access_restart, List.length_map]

/-- A unit starts where those before it end, up to the wrap-around. -/
theorem start_restart (us : List MixgraphUnit) : ∀ {off i : ℕ}, off < 2 ^ 64 → i < us.length →
    ((restart off us).getD i {}).start = u64 (off + accessBefore us i) := by
  induction us with
  | nil => exact fun _ h => absurd h (Nat.not_lt_zero _)
  | cons u us ih =>
    intro off i hoff hi
    cases i with
    | zero => exact (Nat.mod_eq_of_lt hoff).symm
    | succ i =>
      rw [accessBefore_cons, ← Nat.add_assoc]
      refine (ih (Nat.mod_lt _ (by norm_num)) (Nat.lt_of_succ_lt_succ hi)).trans ?_
      exact Nat.mod_add_mod _ _ _

/-! ### The generator -/

/-- `MixgraphChooser`: no modulus is zero, and the units start where those before them end. -/
structure MixgraphChooser where
  n : ℕ
  cfg : Mixgraph
  num : ℕ
  size : ℕ
  randMax : ℕ
  units : List MixgraphUnit
  num_pos : 0 < num
  size_pos : 0 < size
  length_units : units.length = num
  start_units : ∀ i < num, (units.getD i {}).start = u64 (accessBefore units i)
  randMax_eq : randMax = randMaxOf (u64 (totalAccess units))

/-- The units of the constructor, before the shuffle. -/
def laidUnits (libm : Libm) (cfg : Mixgraph) : List MixgraphUnit := (pushRanges libm cfg).units

/-- The units of the constructor. -/
def shuffledUnits (libm : Libm) (cfg : Mixgraph) : List MixgraphUnit :=
  restart 0 (shuffle (keyRanges cfg) (randMaxOf (pushRanges libm cfg).start) (laidUnits libm cfg))

/-- There is at least one range, whatever the flag says. -/
theorem keyRanges_pos (cfg : Mixgraph) : 0 < keyRanges cfg := by
  unfold keyRanges
  split_ifs with hsome
  · exact Int.pos_iff_toNat_pos.mp hsome
  · exact Nat.one_pos

/-- A range has at least one key. -/
theorem rangeKeys_pos (n num : ℕ) : 0 < rangeKeys n num := by
  unfold rangeKeys
  split_ifs with hnone
  · exact Nat.one_pos
  · exact Nat.pos_of_ne_zero hnone

/-- **After the shuffle and the new starts the weights are those there were.** -/
theorem map_access_shuffledUnits (libm : Libm) (cfg : Mixgraph) :
    ((shuffledUnits libm cfg).map (·.access)).Perm ((laidUnits libm cfg).map (·.access)) := by
  unfold shuffledUnits
  rw [map_access_restart]
  exact (shuffle_perm _ _ _).map _

/-- The shuffle moves shares around and keeps their sum. -/
theorem totalAccess_shuffledUnits (libm : Libm) (cfg : Mixgraph) :
    totalAccess (shuffledUnits libm cfg) = totalAccess (laidUnits libm cfg) :=
  (map_access_shuffledUnits libm cfg).sum_eq

/-- The shuffle keeps the number of units. -/
theorem length_shuffledUnits (libm : Libm) (cfg : Mixgraph) :
    (shuffledUnits libm cfg).length = keyRanges cfg := by
  unfold shuffledUnits
  rw [length_restart, (shuffle_perm _ _ _).length_eq]
  exact length_pushRanges libm cfg

/-- After the shuffle each unit starts where the shares before it end, modulo 2^64. -/
theorem start_shuffledUnits (libm : Libm) (cfg : Mixgraph) : ∀ i < keyRanges cfg,
    ((shuffledUnits libm cfg).getD i {}).start = u64 (accessBefore (shuffledUnits libm cfg) i) := by
  intro i hi
  have hbefore : ∀ us, accessBefore (restart 0 us) i = accessBefore us i := fun us => by
    unfold accessBefore
    rw [map_access_restart]
  rw [← length_shuffledUnits libm cfg, shuffledUnits, length_restart] at hi
  unfold shuffledUnits
  rw [start_restart _ (by norm_num) hi, hbefore, Nat.zero_add]

/-- `rand_max_` is set before the shuffle, from the sum of the first loop. -/
theorem randMaxOf_pushRanges (libm : Libm) (cfg : Mixgraph) :
    randMaxOf (pushRanges libm cfg).start =
      randMaxOf (u64 (totalAccess (shuffledUnits libm cfg))) := by
  rw [totalAccess_shuffledUnits, start_pushRanges]
  rfl

namespace MixgraphChooser

/-- The constructor. -/
def new (libm : Libm) (n : ℕ) (cfg : Mixgraph) : MixgraphChooser where
  n := n
  cfg := cfg
  num := keyRanges cfg
  size := rangeKeys n (keyRanges cfg)
  randMax := randMaxOf (pushRanges libm cfg).start
  units := shuffledUnits libm cfg
  num_pos := keyRanges_pos cfg
  size_pos := rangeKeys_pos n _
  length_units := length_shuffledUnits libm cfg
  start_units := start_shuffledUnits libm cfg
  randMax_eq := randMaxOf_pushRanges libm cfg

variable (c : MixgraphChooser)

/-- `units_[i]`. -/
def unit (i : ℕ) : MixgraphUnit := c.units.getD i {}

/-- The bisection of `Next`. -/
def select (kr : ℕ) : ℕ := lastIndex (fun mid => kr < (c.unit mid).start) c.units.length

/-- `offset`: a key of the range, taken as it is or by the power law and hashed. -/
def offset (libm : Libm) (ini : ℕ) : ℕ :=
  if c.cfg.keyA = 0 ∨ c.cfg.keyB = 0 then ini % c.size
  else
    let u := binary64 (binary64 (ini % c.size : ℕ) / binary64 c.size)
    let seed := ⌈libm.pow (binary64 (u / c.cfg.keyA)) (binary64 (1 / c.cfg.keyB))⌉₊
    splitMix seed % c.size

/-- `Next`, with `ini` from the random generator. -/
def next (libm : Libm) (ini : ℕ) : ℕ :=
  let kr := ini % c.randMax
  let lo := c.select kr
  u64 (c.size * lo + c.offset libm ini) % c.n

/-! ### Shares -/

/-- The draw `kr` is one of unit `i`'s. -/
def Holds (i kr : ℕ) : Prop :=
  (c.unit i).start ≤ kr ∧ kr < (c.unit i).start + (c.unit i).access

/-- Every draw selects the one unit it belongs to, and every unit is drawn as often as it has
    accesses. -/
structure ExactShares : Prop where
  selects : ∀ kr < c.randMax, c.Holds (c.select kr) kr ∧ ∀ i < c.num, c.Holds i kr → i = c.select kr
  share : ∀ i < c.num,
    ((Finset.range c.randMax).filter fun kr => c.select kr = i).card = (c.unit i).access
  never : ∀ i < c.num, (c.unit i).access = 0 → ∀ kr < c.randMax, c.select kr ≠ i

/-- The binary search returns one of the ranges. -/
theorem select_lt (kr : ℕ) : c.select kr < c.num := by
  unfold select
  rw [c.length_units]
  exact lastIndex_lt _ c.num_pos

/-- The offset drawn stays inside the range. -/
theorem offset_lt (libm : Libm) (ini : ℕ) : c.offset libm ini < c.size := by
  unfold offset
  split
  · exact Nat.mod_lt _ c.size_pos
  · exact Nat.mod_lt _ c.size_pos

/-- `Next` returns a key below `n`. -/
theorem next_lt (libm : Libm) (ini : ℕ) (hn : 0 < c.n) : c.next libm ini < c.n :=
  Nat.mod_lt _ hn

/-- The key is one of the selected range, if the ranges fit into the key space. -/
theorem next_div_size (libm : Libm) (ini : ℕ) (hfit : c.size * c.num ≤ c.n) (hn : c.n < 2 ^ 64) :
    c.next libm ini / c.size = c.select (ini % c.randMax) := by
  have hoff := c.offset_lt libm ini
  have hlt : c.size * c.select (ini % c.randMax) + c.offset libm ini < c.n := by
    calc c.size * c.select (ini % c.randMax) + c.offset libm ini
        < c.size * (c.select (ini % c.randMax) + 1) := by rw [Nat.mul_succ]; omega
      _ ≤ c.size * c.num := Nat.mul_le_mul_left _ (c.select_lt _)
      _ ≤ c.n := hfit
  have hnext : c.next libm ini = c.size * c.select (ini % c.randMax) + c.offset libm ini := by
    unfold next u64
    dsimp only
    rw [Nat.mod_eq_of_lt (hlt.trans hn), Nat.mod_eq_of_lt hlt]
  rw [hnext, Nat.mul_add_div c.size_pos, Nat.div_eq_of_lt hoff, Nat.add_zero]

/-- **The key is one of the range that was drawn**, if there are no more ranges than keys. -/
theorem next_new_div (libm : Libm) (ini : ℕ) {n : ℕ} {cfg : Mixgraph} (h : keyRanges cfg ≤ n)
    (hn : n < 2 ^ 64) :
    (new libm n cfg).next libm ini / (n / keyRanges cfg) =
      (new libm n cfg).select (ini % (new libm n cfg).randMax) := by
  have hne : n / keyRanges cfg ≠ 0 := (Nat.div_pos h (keyRanges_pos cfg)).ne'
  have hsize : (new libm n cfg).size = n / keyRanges cfg := if_neg hne
  have hfit : (new libm n cfg).size * (new libm n cfg).num ≤ n := by
    rw [hsize]
    exact Nat.div_mul_le_self n _
  rw [← hsize]
  exact (new libm n cfg).next_div_size libm ini hfit hn

/-- The bound of the draw is a machine word. -/
theorem randMax_lt : c.randMax < 2 ^ 64 := by
  rw [c.randMax_eq, randMaxOf]
  split
  · exact Nat.mod_lt _ (by norm_num)
  · norm_num

/-- `accessBefore_length`, for the chooser's own units. -/
theorem accessBefore_num : accessBefore c.units c.num = totalAccess c.units := by
  rw [← c.length_units, accessBefore_length]

/-- `accessBefore_succ`, for the chooser's own units. -/
theorem accessBefore_unit {i : ℕ} (hi : i < c.num) :
    accessBefore c.units (i + 1) = accessBefore c.units i + (c.unit i).access :=
  accessBefore_succ c.units (hi.trans_eq c.length_units.symm)

/-- The shares add up to the whole. -/
theorem sum_access : ∑ i ∈ Finset.range c.num, (c.unit i).access = totalAccess c.units := by
  have hdiff : ∀ i ∈ Finset.range c.num,
      (c.unit i).access = accessBefore c.units (i + 1) - accessBefore c.units i := by
    intro i hi
    rw [c.accessBefore_unit (Finset.mem_range.mp hi), Nat.add_sub_cancel_left]
  rw [Finset.sum_congr rfl hdiff, Finset.sum_range_tsub (accessBefore_mono c.units),
    accessBefore_zero, Nat.sub_zero, c.accessBefore_num]

section Fits

variable {c} (hpos : 0 < totalAccess c.units) (hfit : totalAccess c.units < 2 ^ 64)

include hfit

/-- As long as the sum fits a word, no start wraps around. -/
theorem start_of_fits {i : ℕ} (hi : i < c.num) : (c.unit i).start = accessBefore c.units i := by
  have hle := accessBefore_le c.units (hi.le.trans_eq c.length_units.symm)
  exact (c.start_units i hi).trans (Nat.mod_eq_of_lt (hle.trans_lt hfit))

include hpos

/-- As long as the sum fits a word, it is the bound of the draw. -/
theorem randMax_of_fits : c.randMax = totalAccess c.units := by
  have hsum : u64 (totalAccess c.units) = totalAccess c.units := Nat.mod_eq_of_lt hfit
  rw [c.randMax_eq, hsum]
  exact if_pos hpos

/-- The starts are those of adjoining cells, so the bisection finds the cell of the draw. -/
theorem exactShares_of_fits : c.ExactShares := by
  have hmono := accessBefore_mono c.units
  have hlast : accessBefore c.units c.units.length = c.randMax := by
    rw [accessBefore_length, randMax_of_fits hpos hfit]
  have habove : ∀ kr < accessBefore c.units c.units.length, ∀ j < c.units.length,
      decide (kr < (c.unit j).start) = true ↔ kr < accessBefore c.units j := by
    intro kr _ j hj
    rw [decide_eq_true_iff, start_of_fits hfit (hj.trans_eq c.length_units)]
  -- a unit without accesses is an empty cell, and holds no draw
  have hselect : ∀ kr < c.randMax, ∀ i < c.num, c.select kr = i ↔ c.Holds i kr := by
    intro kr hkr i hi
    rw [← hlast] at hkr
    unfold Holds
    rw [start_of_fits hfit hi, ← c.accessBefore_unit hi]
    exact lastIndex_eq_iff hmono (accessBefore_zero _) hkr (habove kr hkr)
  have hshare : ∀ i < c.num,
      ((Finset.range c.randMax).filter fun kr => c.select kr = i).card = (c.unit i).access := by
    intro i hi
    have hcard := card_lastIndex_eq hmono (accessBefore_zero _) habove
      (hi.trans_eq c.length_units.symm)
    rw [hlast, c.accessBefore_unit hi, Nat.add_sub_cancel_left] at hcard
    exact hcard
  refine ⟨fun kr hkr => ⟨?_, fun i hi hheld => ?_⟩, hshare, fun i hi hzero kr hkr heq => ?_⟩
  · exact (hselect kr hkr _ (c.select_lt kr)).mp rfl
  · exact ((hselect kr hkr i hi).mpr hheld).symm
  · obtain ⟨hle, hlt⟩ := (hselect kr hkr i hi).mp heq
    omega

end Fits

/-- There are fewer than `2^64` draws to go round. -/
theorem fits_of_exactShares (h : c.ExactShares) : totalAccess c.units < 2 ^ 64 := by
  have hmaps : Set.MapsTo c.select (Finset.range c.randMax) (Finset.range c.num) :=
    fun kr _ => Finset.mem_coe.mpr (Finset.mem_range.mpr (c.select_lt kr))
  -- the draws counted by the unit they select
  have hcount := Finset.card_eq_sum_card_fiberwise hmaps
  rw [Finset.card_range, Finset.sum_congr rfl fun i hi => h.share i (Finset.mem_range.mp hi),
    c.sum_access] at hcount
  rw [← hcount]
  exact c.randMax_lt

/-- **When the shares are exact.** -/
theorem exactShares_iff (hpos : 0 < totalAccess c.units) :
    c.ExactShares ↔ totalAccess c.units < 2 ^ 64 :=
  ⟨c.fits_of_exactShares, fun hfit => exactShares_of_fits hpos hfit⟩

end MixgraphChooser

/-- **The shares of the key ranges.** The weights are only moved, the search stays among the units,
    and the key is below `n`; the shares are exact if and only if the weights' sum has 64 bits. -/
theorem mixgraph_shares (libm : Libm) (n : ℕ) (cfg : Mixgraph) (hn : 1 ≤ n)
    (hpos : 0 < totalAccess (laidUnits libm cfg)) :
    let c := MixgraphChooser.new libm n cfg
    (c.units.map (·.access)).Perm ((laidUnits libm cfg).map (·.access)) ∧
    (∀ kr, c.select kr < c.num) ∧
    (∀ ini, c.next libm ini < n) ∧
    (c.ExactShares ↔ totalAccess (laidUnits libm cfg) < 2 ^ 64) := by
  intro c
  have htotal : totalAccess c.units = totalAccess (laidUnits libm cfg) :=
    totalAccess_shuffledUnits libm cfg
  refine ⟨map_access_shuffledUnits libm cfg, c.select_lt, fun ini => c.next_lt libm ini hn, ?_⟩
  rw [← htotal] at hpos ⊢
  exact c.exactShares_iff hpos

/-- `exp` where four ranges with exponent -15 need it. -/
def expTable : Libm where
  exp x :=
    if x = 0 then 1
    else if x = -15 then binary64 3.059023205018258e-07
    else if x = -30 then binary64 9.357622968840175e-14
    else 0
  pow _ _ := 0
  exp_zero := if_pos rfl

def fourRanges : Mixgraph where
  keyrangeNum := 4
  keyrangeA := 1
  keyrangeB := -15
  keyrangeC := 0

/-- Two of the four ranges have no access at all. -/
theorem mixgraph_shares_fourRanges :
    (laidUnits expTable fourRanges).map (·.access) = [0, 0, 1, 3269017] ∧
      (MixgraphChooser.new expTable 100 fourRanges).ExactShares ∧
      ∀ ini, (MixgraphChooser.new expTable 100 fourRanges).next expTable ini < 100 := by
  have hlaid : (laidUnits expTable fourRanges).map (·.access) = [0, 0, 1, 3269017] := by
    decide +kernel
  have htotal : totalAccess (laidUnits expTable fourRanges) = 3269018 := by
    unfold totalAccess
    rw [hlaid]
    rfl
  have hshares := mixgraph_shares expTable 100 fourRanges (by norm_num) (by rw [htotal]; norm_num)
  exact ⟨hlaid, hshares.2.2.2.mpr (by rw [htotal]; norm_num), hshares.2.2.1⟩

/-- Two key ranges, each as likely as the other. -/
def hugeRanges : Mixgraph where
  keyrangeNum := 2
  keyrangeA := 10 ^ 19
  keyrangeB := 0
  keyrangeC := 0
  keyrangeD := 0

/-- With `b`, `c` and `d` zero every range gets the share `a`. -/
theorem rangeProbability_hugeRanges (libm : Libm) (pfx : ℕ) :
    rangeProbability libm hugeRanges pfx = 10 ^ 19 := by
  have hround : binary64 (10 ^ 19) = 10 ^ 19 := by decide +kernel
  have hzero : binary64 0 = 0 := roundSig_zero 53
  unfold rangeProbability hugeRanges
  simp only [zero_mul, hzero, libm.exp_zero, mul_one, add_zero, hround]
  exact if_neg (by decide +kernel)

/-- Two such shares do not fit 64 bits: the bound of the draw wraps around. -/
theorem pushRanges_hugeRanges (libm : Libm) :
    pushRanges libm hugeRanges =
      ⟨1, 2 * 10 ^ 19 - 2 ^ 64, [⟨0, 10 ^ 19⟩, ⟨10 ^ 19, 10 ^ 19⟩]⟩ := by
  have hpfx : (List.range' 1 (keyRanges hugeRanges)).reverse = [2, 1] := by decide
  unfold pushRanges
  rw [hpfx, List.foldl_cons, List.foldl_cons, List.foldl_nil]
  unfold pushRange
  simp only [rangeProbability_hugeRanges]
  decide +kernel

/-- The shuffle of two equal units. -/
theorem shuffledUnits_hugeRanges (libm : Libm) :
    shuffledUnits libm hugeRanges = [⟨0, 10 ^ 19⟩, ⟨10 ^ 19, 10 ^ 19⟩] := by
  unfold shuffledUnits laidUnits
  rw [pushRanges_hugeRanges]
  decide +kernel

/-- Their sum wraps, and all draws that are left go to the first range. -/
theorem select_hugeRanges (libm : Libm) (n : ℕ) :
    let c := MixgraphChooser.new libm n hugeRanges
    c.num = 2 ∧ (c.unit 0).access = 10 ^ 19 ∧ (c.unit 1).access = 10 ^ 19 ∧
      c.randMax = 1553255926290448384 ∧ ∀ kr < c.randMax, c.select kr = 0 := by
  intro c
  have hunits : c.units = [⟨0, 10 ^ 19⟩, ⟨10 ^ 19, 10 ^ 19⟩] := shuffledUnits_hugeRanges libm
  have hunit : c.unit 1 = ⟨10 ^ 19, 10 ^ 19⟩ := by
    unfold MixgraphChooser.unit
    rw [hunits]
    rfl
  have hmax : c.randMax = 1553255926290448384 := by
    show randMaxOf (pushRanges libm hugeRanges).start = _
    rw [pushRanges_hugeRanges]
    rfl
  refine ⟨rfl, ?_, by rw [hunit], hmax, fun kr hkr => ?_⟩
  · unfold MixgraphChooser.unit
    rw [hunits]
    rfl
  · -- unit 1 starts after every draw
    have hbelow : kr < (c.unit 1).start := by
      rw [hmax] at hkr
      rw [hunit]
      exact hkr.trans (by norm_num)
    have hlt : c.select kr < 2 := c.select_lt kr
    rcases (lastIndex_spec _ (c.num_pos.trans_eq c.length_units.symm)).2.1 with hzero | hnot
    · exact hzero
    · have hnot : ¬ kr < (c.unit (c.select kr)).start := decide_eq_false_iff_not.mp hnot
      have hone : c.select kr ≠ 1 := fun hone => hnot (by rw [hone]; exact hbelow)
      omega

/-- A generator over a hundred keys in two ranges. -/
def hugeChooser : MixgraphChooser := .new expTable 100 hugeRanges

/-- The second range is never drawn. -/
theorem mixgraph_share_lost :
    (laidUnits expTable hugeRanges).map (·.access) = [10 ^ 19, 10 ^ 19] ∧ hugeChooser.num = 2 ∧
      (hugeChooser.unit 1).access = 10 ^ 19 ∧ hugeChooser.randMax = 1553255926290448384 ∧
      ∀ kr < hugeChooser.randMax, hugeChooser.select kr ≠ 1 := by
  obtain ⟨hnum, -, haccess, hmax, hfirst⟩ := select_hugeRanges expTable 100
  have hlaid : (laidUnits expTable hugeRanges).map (·.access) = [10 ^ 19, 10 ^ 19] := by
    unfold laidUnits
    rw [pushRanges_hugeRanges]
    rfl
  refine ⟨hlaid, hnum, haccess, hmax, fun kr hkr hone => ?_⟩
  exact absurd ((hfirst kr hkr).symm.trans hone) (by decide)

end Leaper.Bench
