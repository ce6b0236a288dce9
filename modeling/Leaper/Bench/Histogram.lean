import Leaper.Core.Types
import Leaper.Lib.Rounding
import Mathlib.Algebra.Order.BigOperators.Group.List
import Mathlib.Order.GaloisConnection.Basic

namespace Leaper.Bench

open Lib

/-!
# The latency histogram

`bench/include/leaper_bench/histogram.h`: buckets of one microsecond up to 64, then 32 buckets for
each power of two, and the percentile of what was added between two cumulative snapshots.

* `valueOf_strictMono` — buckets stand for different values;
* `bucketOf_cases` — the three parts of `BucketOf`;
* `bucketOf_valueOf_adjoint` — the bucket of a value is the last one that stands for no more;
* `percentileLoop_spec` — the bucket at which the running sum reaches the rank;
* `percentile_exact_iff` — when the value that is reported is a percentile.
-/

def kSubBucketBits : ℕ := 5

def kSubBuckets : ℕ := 1 <<< kSubBucketBits

def kLinearMax : ℕ := 2 * kSubBuckets

def kOctaves : ℕ := 34

def kNumBuckets : ℕ := kLinearMax + kOctaves * kSubBuckets

/-- `BucketOf`; `63 - __builtin_clzll(us)` is the position of the leading bit. -/
def bucketOf (us : ℕ) : ℕ :=
  if us < kLinearMax then us
  else
    let e := Nat.log2 us
    let m := (us >>> (e - kSubBucketBits)) &&& (kSubBuckets - 1)
    let idx := kLinearMax + (e - (kSubBucketBits + 1)) * kSubBuckets + m
    min idx (kNumBuckets - 1)

/-- `ValueOf`. -/
def valueOf (bucket : ℕ) : ℕ :=
  if bucket < kLinearMax then bucket
  else
    let rel := bucket - kLinearMax
    let e := kSubBucketBits + 1 + rel / kSubBuckets
    let m := rel % kSubBuckets
    u64 ((kSubBuckets + m) <<< (e - kSubBucketBits))

/-- `Histogram`: a counter for each bucket. -/
structure Histogram where
  buckets : List ℕ
  size_eq : buckets.length = kNumBuckets

namespace Histogram

/-- A new histogram. -/
def new : Histogram := ⟨List.replicate kNumBuckets 0, List.length_replicate⟩

/-- `Add`. -/
def add (h : Histogram) (us : ℕ) : Histogram where
  buckets := h.buckets.modify (bucketOf us) fun n => u64 (n + 1)
  size_eq := (List.length_modify ..).trans h.size_eq

end Histogram

/-- The second loop of `Percentile`, over the new samples of the buckets from `i` on.  The last
    bucket is the answer when the rank is not reached. -/
def percentileLoop (target : ℕ) : List ℕ → ℕ → ℕ → ℕ
  | [], i, _ => i - 1
  | d :: ds, i, seen =>
    let seen := u64 (seen + d)
    if target ≤ seen then i else percentileLoop target ds (i + 1) seen

/-- `target`: the rank, cut to an integer. -/
def rank (total : ℕ) (p : ℚ) : ℕ := ⌊binary64 (binary64 total * p)⌋₊

/-- `Percentile`. -/
def percentile (cur prev : List ℕ) (p : ℚ) : ℕ :=
  let deltas := List.zipWith sub64 cur prev
  let total := deltas.foldl (fun total d => u64 (total + d)) 0
  if total = 0 then 0 else valueOf (percentileLoop (rank total p) deltas 0 0)

/-! ### Values -/

/-- The first buckets hold one value each. -/
theorem valueOf_of_lt {b : ℕ} (h : b < 64) : valueOf b = b := if_pos h

/-- The value of a bucket in octave `k`. -/
theorem valueOf_octave {k m : ℕ} (hk : k < kOctaves) (hm : m < 32) :
    valueOf (64 + (k * 32 + m)) = (32 + m) * 2 ^ (k + 1) := by
  have hdiv : (k * 32 + m) / 32 = k := by omega
  have hmod : (k * 32 + m) % 32 = m := by omega
  have hk : k < 34 := hk
  have hlt : (32 + m) * 2 ^ (k + 1) < 2 ^ 64 := by
    calc (32 + m) * 2 ^ (k + 1) < 64 * 2 ^ 34 :=
          Nat.mul_lt_mul_of_lt_of_le (by omega) (Nat.pow_le_pow_right (by norm_num) (by omega))
            (by norm_num)
      _ < 2 ^ 64 := by norm_num
  unfold valueOf
  rw [if_neg (by show ¬ 64 + (k * 32 + m) < 64; omega)]
  show u64 ((32 + (64 + (k * 32 + m) - 64) % 32) <<<
    (5 + 1 + (64 + (k * 32 + m) - 64) / 32 - 5)) = _
  have hshift : 5 + 1 + k - 5 = k + 1 := by omega
  rw [Nat.add_sub_cancel_left, hdiv, hmod, Nat.shiftLeft_eq, hshift]
  exact Nat.mod_eq_of_lt hlt

/-- The bucket after it, in the same octave or the next. -/
theorem valueOf_octave_succ {k m : ℕ} (hm : m < 32) (h : 64 + (k * 32 + m) + 1 < kNumBuckets) :
    valueOf (64 + (k * 32 + m) + 1) = (32 + m + 1) * 2 ^ (k + 1) := by
  have h : 64 + (k * 32 + m) + 1 < 1152 := h
  rcases Nat.lt_or_ge (m + 1) 32 with hnext | hnext
  · have hk : k < kOctaves := by show k < 34; omega
    exact valueOf_octave hk hnext
  · -- into the next octave
    obtain rfl : m = 31 := by omega
    have hk : k + 1 < kOctaves := by show k + 1 < 34; omega
    have hb : 64 + (k * 32 + 31) + 1 = 64 + ((k + 1) * 32 + 0) := by omega
    rw [hb, valueOf_octave hk (by norm_num), Nat.pow_succ 2 (k + 1)]
    omega

/-- The lower ends of the buckets increase. -/
theorem valueOf_lt_succ {b : ℕ} (h : b + 1 < kNumBuckets) : valueOf b < valueOf (b + 1) := by
  have h1152 : b + 1 < 1152 := h
  rcases Nat.lt_or_ge (b + 1) 64 with hlin | hlin
  · rw [valueOf_of_lt (by omega), valueOf_of_lt hlin]
    omega
  · rcases hlin.eq_or_lt with heq | hoct
    · -- from the linear part into the first octave
      obtain rfl : b = 63 := by omega
      decide
    · obtain ⟨k, m, hm, rfl⟩ : ∃ k m, m < 32 ∧ b = 64 + (k * 32 + m) :=
        ⟨(b - 64) / 32, (b - 64) % 32, by omega, by omega⟩
      have hk : k < kOctaves := by show k < 34; omega
      rw [valueOf_octave hk hm, valueOf_octave_succ hm h]
      exact Nat.mul_lt_mul_of_pos_right (Nat.lt_succ_self _) (Nat.two_pow_pos _)

/-- **A larger bucket stands for a larger value.** -/
theorem valueOf_strictMono {b b' : ℕ} (hlt : b < b') (h : b' < kNumBuckets) :
    valueOf b < valueOf b' := by
  induction b', hlt using Nat.le_induction with
  | base => exact valueOf_lt_succ h
  | succ n hn ih => exact (ih (by omega)).trans (valueOf_lt_succ h)

/-- A later bucket has no smaller lower end. -/
theorem valueOf_mono {b b' : ℕ} (hle : b ≤ b') (h : b' < kNumBuckets) :
    valueOf b ≤ valueOf b' := by
  rcases hle.eq_or_lt with rfl | hlt
  · exact le_rfl
  · exact (valueOf_strictMono hlt h).le

/-- No two buckets share a lower end. -/
theorem valueOf_inj {b b' : ℕ} (hb : b < kNumBuckets) (hb' : b' < kNumBuckets)
    (h : valueOf b = valueOf b') : b = b' := by
  rcases lt_trichotomy b b' with hlt | heq | hgt
  · exact absurd h (valueOf_strictMono hlt hb').ne
  · exact heq
  · exact absurd h (valueOf_strictMono hgt hb).ne'

/-! ### Buckets -/

/-- Values below 64 have buckets of their own. -/
theorem bucketOf_of_lt {u : ℕ} (h : u < 64) : bucketOf u = u := if_pos h

/-- The bucket of a value in octave `k`: after the leading bit, five bits choose the bucket and
    the other `k + 1` are dropped. -/
theorem bucketOf_octave {u k : ℕ} (hlog : Nat.log2 u = k + 6) :
    bucketOf u = min (64 + (k * 32 + u / 2 ^ (k + 1) % 32)) (kNumBuckets - 1) := by
  have hlin : ¬ u < kLinearMax := fun hlt => by
    have hne : u ≠ 0 := fun h0 => by simp [h0] at hlog
    have := (Nat.log2_lt (k := 6) hne).mpr hlt
    omega
  have hmask : ∀ x, x &&& 31 = x % 32 := fun x => Nat.and_two_pow_sub_one_eq_mod x 5
  unfold bucketOf
  rw [if_neg hlin]
  show min (64 + (Nat.log2 u - 6) * 32 + ((u >>> (Nat.log2 u - 5)) &&& 31)) (kNumBuckets - 1) = _
  rw [hlog, hmask, Nat.shiftRight_eq_div_pow, Nat.add_sub_cancel, Nat.add_assoc,
    show k + 6 - 5 = k + 1 by omega]

/-- From 64 on a value is a leading bit, the five bits after it and a rest. -/
theorem exists_octave {u : ℕ} (h : 64 ≤ u) :
    ∃ k m r, m < 32 ∧ r < 2 ^ (k + 1) ∧ u = (32 + m) * 2 ^ (k + 1) + r ∧
      bucketOf u = min (64 + (k * 32 + m)) (kNumBuckets - 1) := by
  have hne : u ≠ 0 := by omega
  obtain ⟨k, hk⟩ := Nat.exists_eq_add_of_le' ((Nat.le_log2 (k := 6) hne).mpr h)
  have hpos := Nat.two_pow_pos (k + 1)
  have hlo : 32 ≤ u / 2 ^ (k + 1) := by
    rw [Nat.le_div_iff_mul_le hpos, show 32 = 2 ^ 5 by norm_num, ← Nat.pow_add]
    exact (Nat.le_log2 hne).mp (by omega)
  have hhi : u / 2 ^ (k + 1) < 64 := by
    rw [Nat.div_lt_iff_lt_mul hpos, show 64 = 2 ^ 6 by norm_num, ← Nat.pow_add]
    exact (Nat.log2_lt hne).mp (by omega)
  have hmod : u / 2 ^ (k + 1) % 32 = u / 2 ^ (k + 1) - 32 := by omega
  refine ⟨k, u / 2 ^ (k + 1) - 32, u % 2 ^ (k + 1), by omega, Nat.mod_lt u hpos, ?_, ?_⟩
  · rw [Nat.add_sub_cancel' hlo, Nat.mul_comm]
    exact (Nat.div_add_mod u _).symm
  · rw [← hmod]
    exact bucketOf_octave hk

/-- The three parts of `BucketOf`: one bucket for each value, the octaves, and the clamp. -/
theorem bucketOf_cases (u : ℕ) :
    (u < 64 ∧ bucketOf u = u) ∨
    (∃ k m r, k < kOctaves ∧ m < 32 ∧ r < 2 ^ (k + 1) ∧ u = (32 + m) * 2 ^ (k + 1) + r ∧
      bucketOf u = 64 + (k * 32 + m)) ∨
    (2 ^ 40 ≤ u ∧ bucketOf u = kNumBuckets - 1) := by
  rcases Nat.lt_or_ge u 64 with hlin | hoct
  · exact Or.inl ⟨hlin, bucketOf_of_lt hlin⟩
  · obtain ⟨k, m, r, hm, hr, hu, hb⟩ := exists_octave hoct
    have hlast : kNumBuckets - 1 = 64 + (33 * 32 + 31) := rfl
    rcases Nat.lt_or_ge k kOctaves with hk | hk
    · have hk' : k ≤ 33 := Nat.le_of_lt_succ hk
      refine Or.inr (Or.inl ⟨k, m, r, hk, hm, hr, hu, ?_⟩)
      rw [hb, hlast]
      exact Nat.min_eq_left (by omega)
    · have hk' : 34 ≤ k := hk
      refine Or.inr (Or.inr ⟨?_, ?_⟩)
      · calc 2 ^ 40 = 32 * 2 ^ 35 := by norm_num
          _ ≤ (32 + m) * 2 ^ (k + 1) :=
            Nat.mul_le_mul (by omega) (Nat.pow_le_pow_right (by norm_num) (by omega))
          _ ≤ u := by omega
      · rw [hb, hlast]
        exact Nat.min_eq_right (by omega)

/-- Every value has a bucket inside the array. -/
theorem bucketOf_lt (u : ℕ) : bucketOf u < kNumBuckets := by
  show bucketOf u < 1152
  rcases bucketOf_cases u with ⟨hlin, hb⟩ | ⟨k, m, r, hk, hm, -, -, hb⟩ | ⟨-, hb⟩
  · omega
  · have hk : k < 34 := hk
    omega
  · rw [hb]
    decide

/-- A bucket stands for the least value in it. -/
theorem valueOf_bucketOf_le (u : ℕ) : valueOf (bucketOf u) ≤ u := by
  rcases bucketOf_cases u with ⟨hlin, hb⟩ | ⟨k, m, r, hk, hm, -, hu, hb⟩ | ⟨hbig, hb⟩
  · rw [hb, valueOf_of_lt hlin]
  · rw [hb, valueOf_octave hk hm, hu]
    exact Nat.le_add_right _ _
  · rw [hb]
    exact le_trans (by decide) hbig

/-- The next bucket is for larger values. -/
theorem lt_valueOf_bucketOf_succ {u : ℕ} (h : bucketOf u + 1 < kNumBuckets) :
    u < valueOf (bucketOf u + 1) := by
  rcases bucketOf_cases u with ⟨hlin, hb⟩ | ⟨k, m, r, hk, hm, hr, hu, hb⟩ | ⟨-, hb⟩
  · rw [hb] at h ⊢
    calc u = valueOf u := (valueOf_of_lt hlin).symm
      _ < valueOf (u + 1) := valueOf_lt_succ h
  · rw [hb] at h ⊢
    rw [valueOf_octave_succ hm h, hu, Nat.succ_mul]
    exact Nat.add_lt_add_left hr _
  · rw [hb] at h
    exact absurd h (by decide)

/-- **The bucket of a value is the last one that does not stand for a larger value.** -/
theorem valueOf_le_iff {b u : ℕ} (hb : b < kNumBuckets) : valueOf b ≤ u ↔ b ≤ bucketOf u := by
  constructor
  · intro hle
    by_contra hlt
    have hlt : bucketOf u + 1 ≤ b := Nat.not_le.mp hlt
    have := lt_valueOf_bucketOf_succ (hlt.trans_lt hb)
    have := valueOf_mono hlt hb
    omega
  · intro hle
    exact (valueOf_mono hle (bucketOf_lt u)).trans (valueOf_bucketOf_le u)

/-- `BucketOf` and `ValueOf`, between the values and the buckets that there are. -/
theorem bucketOf_galois :
    GaloisConnection (fun b : Fin kNumBuckets => valueOf b) fun u => ⟨bucketOf u, bucketOf_lt u⟩ :=
  fun b _ => valueOf_le_iff b.isLt

/-- What a bucket forgets of a value. -/
theorem sub_valueOf_bucketOf {u : ℕ} (h : u < 2 ^ 40) :
    (u < 64 → u - valueOf (bucketOf u) = 0) ∧ (64 ≤ u → u - valueOf (bucketOf u) < u / 32) := by
  rcases bucketOf_cases u with ⟨hlin, hb⟩ | ⟨k, m, r, hk, hm, hr, hu, hb⟩ | ⟨hbig, -⟩
  · rw [hb, valueOf_of_lt hlin, Nat.sub_self]
    exact ⟨fun _ => rfl, fun hoct => absurd hlin hoct.not_gt⟩
  · have hle : 32 * 2 ^ (k + 1) ≤ u := by
      rw [hu]
      exact (Nat.mul_le_mul_right _ (Nat.le_add_right 32 m)).trans (Nat.le_add_right _ _)
    have htwo : 2 ^ 1 ≤ 2 ^ (k + 1) := Nat.pow_le_pow_right (by norm_num) (by omega)
    refine ⟨fun hlin => absurd hlin (by omega), fun _ => ?_⟩
    calc u - valueOf (bucketOf u) = r := by
          rw [hb, valueOf_octave hk hm, hu, Nat.add_sub_cancel_left]
      _ < 2 ^ (k + 1) := hr
      _ ≤ u / 32 := (Nat.le_div_iff_mul_le (by norm_num)).mpr (by omega)
  · exact absurd h hbig.not_gt

/-- **The two maps of the histogram.** They are adjoint, so `BucketOf` keeps the order and gives
    every bucket back, and a bucket is off by less than a thirty-second of the value. -/
theorem bucketOf_valueOf_adjoint :
    (∀ u v, u ≤ v → bucketOf u ≤ bucketOf v ∧ bucketOf v < kNumBuckets) ∧
    (∀ b < kNumBuckets, bucketOf (valueOf b) = b) ∧
    (∀ u, valueOf (bucketOf u) ≤ u) ∧
    (∀ b < kNumBuckets, ∀ u, valueOf b ≤ u ↔ b ≤ bucketOf u) ∧
    ∀ u < 2 ^ 40, (u < 64 → u - valueOf (bucketOf u) = 0) ∧
      (64 ≤ u → u - valueOf (bucketOf u) < u / 32) := by
  refine ⟨fun u v hle => ⟨bucketOf_galois.monotone_u hle, bucketOf_lt v⟩, fun b hb => ?_,
    valueOf_bucketOf_le, fun b hb u => valueOf_le_iff hb, fun u => sub_valueOf_bucketOf⟩
  -- `ValueOf` tells buckets apart, so the round trip from its side decides the other one
  exact valueOf_inj (bucketOf_lt _) hb (bucketOf_galois.l_u_l_eq_l ⟨b, hb⟩)

/-- A millisecond. -/
theorem bucketOf_valueOf_thousand :
    bucketOf 64 ≤ bucketOf 1000 ∧ bucketOf (valueOf 191) = 191 ∧
      1000 - valueOf (bucketOf 1000) < 1000 / 32 :=
  ⟨(bucketOf_valueOf_adjoint.1 64 1000 (by norm_num)).1,
    bucketOf_valueOf_adjoint.2.1 191 (by decide),
    (bucketOf_valueOf_adjoint.2.2.2.2 1000 (by norm_num)).2 (by norm_num)⟩

/-! ### The running sum -/

/-- The samples in the first `n` buckets. -/
def upTo (counts : List ℕ) (n : ℕ) : ℕ := (counts.take n).sum

/-- The count up to a bucket only grows. -/
theorem upTo_mono (counts : List ℕ) {n n' : ℕ} (h : n ≤ n') : upTo counts n ≤ upTo counts n' :=
  ((List.take_prefix_take_left h).sublist).sum_le_sum fun _ _ => Nat.zero_le _

/-- The count up to the last bucket is the sum. -/
theorem upTo_length (counts : List ℕ) : upTo counts counts.length = counts.sum := by
  unfold upTo
  rw [List.take_length]

/-- The count up to a bucket grows by the bucket's own. -/
theorem upTo_succ (counts : List ℕ) (n : ℕ) :
    upTo counts (n + 1) = upTo counts n + counts.getD n 0 := by
  unfold upTo
  rw [List.take_add_one, List.sum_append, List.getD_eq_getElem?_getD]
  cases counts[n]? <;> simp

/-- The first loop. -/
theorem foldl_u64 (ds : List ℕ) : ∀ {total : ℕ}, total + ds.sum < 2 ^ 64 →
    ds.foldl (fun total d => u64 (total + d)) total = total + ds.sum := by
  induction ds with
  | nil => exact fun _ => rfl
  | cons d ds ih =>
    intro total hfit
    rw [List.sum_cons] at hfit ⊢
    have hstep : u64 (total + d) = total + d := Nat.mod_eq_of_lt (by omega)
    rw [List.foldl_cons, hstep, ih (by omega)]
    omega

/-- What the second loop returns: no bucket before it reaches the rank, and it does, unless it is
    the last.  The induction is on the buckets still to come; `seen` samples are behind. -/
theorem percentileLoop_spec (target : ℕ) (ds : List ℕ) :
    ∀ (i seen : ℕ), ds ≠ [] → seen + ds.sum < 2 ^ 64 → ∃ k, k < ds.length ∧
      percentileLoop target ds i seen = i + k ∧ (∀ j < k, seen + upTo ds (j + 1) < target) ∧
      (k + 1 = ds.length ∨ target ≤ seen + upTo ds (k + 1)) := by
  induction ds with
  | nil => exact fun _ _ h => absurd rfl h
  | cons d ds ih =>
    intro i seen _ hfit
    rw [List.sum_cons] at hfit
    have hseen : u64 (seen + d) = seen + d := Nat.mod_eq_of_lt (by omega)
    have hone : upTo (d :: ds) 1 = d := by simp [upTo]
    have hcons : ∀ n, upTo (d :: ds) (n + 1) = d + upTo ds n := fun n => by simp [upTo]
    rw [percentileLoop]
    simp only [hseen]
    by_cases htarget : target ≤ seen + d
    · -- the target is reached in this bucket
      rw [if_pos htarget]
      refine ⟨0, by simp, rfl, fun j hj => absurd hj (Nat.not_lt_zero j), Or.inr ?_⟩
      rw [Nat.zero_add, hone]
      exact htarget
    · rw [if_neg htarget]
      by_cases hlast : ds = []
      · -- it is not, but there is no other
        subst hlast
        refine ⟨0, by simp, rfl, fun j hj => absurd hj (Nat.not_lt_zero j), Or.inl rfl⟩
      · obtain ⟨k, hk, heq, hbefore, hreach⟩ := ih (i + 1) (seen + d) hlast (by omega)
        refine ⟨k + 1, Nat.succ_lt_succ hk, by rw [heq]; omega, fun j hj => ?_, ?_⟩
        · cases j with
          | zero =>
            rw [Nat.zero_add, hone]
            omega
          | succ j =>
            have hj := hbefore j (by omega)
            rw [hcons]
            omega
        · rcases hreach with hend | hreach
          · left
            rw [List.length_cons, hend]
          · right
            rw [hcons]
            omega

/-! ### Percentiles -/

/-- Two cumulative snapshots, the second one later. -/
structure Snapshots where
  prev : List ℕ
  cur : List ℕ
  size_cur : cur.length = kNumBuckets
  le : List.Forall₂ (· ≤ ·) prev cur

namespace Snapshots

variable (s : Snapshots)

/-- The new samples of each bucket. -/
def fresh : List ℕ := List.zipWith (fun c p => c - p) s.cur s.prev

/-- Between snapshots that only grow the subtraction does not wrap. -/
theorem zipWith_sub64 {prev cur : List ℕ} (h : List.Forall₂ (· ≤ ·) prev cur) :
    List.zipWith sub64 cur prev = List.zipWith (fun c p => c - p) cur prev := by
  induction h with
  | nil => rfl
  | cons h _ ih => rw [List.zipWith_cons_cons, List.zipWith_cons_cons, sub64_of_le h, ih]

/-- The loop's differences are the samples that are new. -/
theorem zipWith_eq_fresh : List.zipWith sub64 s.cur s.prev = s.fresh := zipWith_sub64 s.le

/-- One count for each bucket. -/
theorem length_fresh : s.fresh.length = kNumBuckets := by
  unfold fresh
  rw [List.length_zipWith, s.le.length_eq, Nat.min_self, s.size_cur]

/-- Bucket `b` is a `p`-percentile: it got a sample, `p` of all samples are up to it, and fewer
    are before it. -/
def IsPercentile (p : ℚ) (b : ℕ) : Prop :=
  b < kNumBuckets ∧ 1 ≤ s.fresh.getD b 0 ∧ p * s.fresh.sum ≤ upTo s.fresh (b + 1) ∧
    (upTo s.fresh b : ℚ) < p * s.fresh.sum

/-- The bucket that is reported. -/
theorem percentile_eq {p : ℚ} (hsome : 1 ≤ s.fresh.sum) (hfew : s.fresh.sum < 2 ^ 64) :
    ∃ k < kNumBuckets, percentile s.cur s.prev p = valueOf k ∧
      (∀ j < k, upTo s.fresh (j + 1) < rank s.fresh.sum p) ∧
      (k + 1 = kNumBuckets ∨ rank s.fresh.sum p ≤ upTo s.fresh (k + 1)) := by
  have hne : s.fresh ≠ [] := by
    intro hnil
    rw [hnil, List.sum_nil] at hsome
    exact absurd hsome (by norm_num)
  obtain ⟨k, hk, hloop, hbefore, hreach⟩ :=
    percentileLoop_spec (rank s.fresh.sum p) s.fresh 0 0 hne (by omega)
  simp only [Nat.zero_add, s.length_fresh] at hk hloop hbefore hreach
  refine ⟨k, hk, ?_, hbefore, hreach⟩
  unfold percentile
  simp only
  rw [s.zipWith_eq_fresh, foldl_u64 s.fresh (by omega), Nat.zero_add, if_neg (by omega), hloop]

end Snapshots

/-- **When a reported percentile is one.** The rank is cut to an integer; the report is right
    exactly if no running sum, except the last, lies between the cut rank and `p` of the total. -/
theorem percentile_exact_iff (s : Snapshots) (p : ℚ) (hp : 0 < p) (hp' : p ≤ 1)
    (hsome : 1 ≤ s.fresh.sum) (hfew : s.fresh.sum < 2 ^ 64) :
    (∃ b, percentile s.cur s.prev p = valueOf b ∧ s.IsPercentile p b) ↔
      ∀ b, b + 1 < kNumBuckets → (rank s.fresh.sum p ≤ upTo s.fresh (b + 1) ↔
        p * s.fresh.sum ≤ upTo s.fresh (b + 1)) := by
  obtain ⟨k, hk, heq, hbefore, hreach⟩ := s.percentile_eq (p := p) hsome hfew
  constructor
  · rintro ⟨b, hb, hlt, -, hupTo, hbelow⟩ j hj
    obtain rfl := valueOf_inj hk hlt (heq.symm.trans hb)
    rcases Nat.lt_or_ge j k with hjk | hkj
    · -- before the bucket neither is reached
      have hle : (upTo s.fresh (j + 1) : ℚ) ≤ upTo s.fresh k := by
        exact_mod_cast upTo_mono s.fresh hjk
      exact iff_of_false (Nat.not_le.mpr (hbefore j hjk)) (by linarith)
    · have hle := upTo_mono s.fresh (Nat.succ_le_succ hkj)
      have hleq : (upTo s.fresh (k + 1) : ℚ) ≤ upTo s.fresh (j + 1) := by exact_mod_cast hle
      exact iff_of_true ((hreach.resolve_left (by omega)).trans hle) (by linarith)
  · intro hall
    have hupTo : p * s.fresh.sum ≤ upTo s.fresh (k + 1) := by
      rcases Nat.lt_or_ge (k + 1) kNumBuckets with hmore | hlast
      · exact (hall k hmore).mp (hreach.resolve_left hmore.ne)
      · rw [le_antisymm hk hlast, ← s.length_fresh, upTo_length]
        exact mul_le_of_le_one_left (Nat.cast_nonneg _) hp'
    have hbelow : (upTo s.fresh k : ℚ) < p * s.fresh.sum := by
      cases k with
      | zero => exact mul_pos hp (by exact_mod_cast hsome)
      | succ j =>
        exact lt_of_not_ge fun h => (hbefore j (Nat.lt_succ_self j)).not_ge ((hall j hk).mpr h)
    refine ⟨k, heq, hk, ?_, hupTo, hbelow⟩
    have hgrow : upTo s.fresh k < upTo s.fresh (k + 1) := by
      exact_mod_cast hbelow.trans_le hupTo
    rw [upTo_succ] at hgrow
    omega

/-- A snapshot against that of a new histogram. -/
def Snapshots.ofNew (cur : List ℕ) (h : cur.length = kNumBuckets) : Snapshots where
  prev := Histogram.new.buckets
  cur := cur
  size_cur := h
  le := by
    refine List.forall₂_iff_zip.mpr ⟨Histogram.new.size_eq.trans h.symm, fun hmem => ?_⟩
    rw [List.eq_of_mem_replicate (List.of_mem_zip hmem).1]
    exact Nat.zero_le _

/-- A second with one read, of 200 microseconds. -/
def oneSlowRead : Snapshots :=
  .ofNew (Histogram.new.add 200).buckets (Histogram.new.add 200).size_eq

/-- Four reads after one, the slowest of 200 microseconds. -/
def fourReads : Snapshots where
  prev := (Histogram.new.add 7).buckets
  cur := ((((Histogram.new.add 7).add 10).add 20).add 30).add 200 |>.buckets
  size_cur := (((((Histogram.new.add 7).add 10).add 20).add 30).add 200).size_eq
  le := by decide +kernel

/-- The median of the four is reported; the fourth rank of their 95th percentile is cut to the
    third. -/
theorem percentile_exact_fourReads :
    (∃ b, percentile fourReads.cur fourReads.prev (1 / 2) = valueOf b ∧
      fourReads.IsPercentile (1 / 2) b) ∧
    ¬ ∃ b, percentile fourReads.cur fourReads.prev (95 / 100) = valueOf b ∧
      fourReads.IsPercentile (95 / 100) b := by
  have hsum : fourReads.fresh.sum = 4 := by decide +kernel
  have hsome : 1 ≤ fourReads.fresh.sum := by rw [hsum]; norm_num
  have hfew : fourReads.fresh.sum < 2 ^ 64 := by rw [hsum]; norm_num
  constructor
  · refine (percentile_exact_iff fourReads (1 / 2) (by norm_num) (by norm_num) hsome
      hfew).mpr fun b _ => ?_
    have hrank : rank fourReads.fresh.sum (1 / 2) = 2 := by decide +kernel
    rw [hrank, hsum, show (1 / 2 : ℚ) * (4 : ℕ) = (2 : ℕ) by norm_num]
    exact_mod_cast Iff.rfl
  · intro hreported
    have hall := (percentile_exact_iff fourReads (95 / 100) (by norm_num) (by norm_num) hsome
      hfew).mp hreported (bucketOf 30) (by decide +kernel)
    have hrank : rank fourReads.fresh.sum (95 / 100) = 3 := by decide +kernel
    have hthird : upTo fourReads.fresh (bucketOf 30 + 1) = 3 := by decide +kernel
    rw [hrank, hthird, hsum] at hall
    exact absurd (hall.mp le_rfl) (by norm_num)

/-- Half of one sample is cut to rank 0, which bucket 0 reaches without a sample. -/
theorem percentile_oneSlowRead :
    percentile oneSlowRead.cur oneSlowRead.prev (1 / 2) = 0 ∧ oneSlowRead.fresh.sum = 1 ∧
      oneSlowRead.fresh.getD (bucketOf 200) 0 = 1 ∧ oneSlowRead.fresh.getD 0 0 = 0 ∧
      ∀ b < kNumBuckets, valueOf b = 0 → b = 0 := by
  refine ⟨by decide +kernel, by decide +kernel, by decide +kernel, by decide +kernel, ?_⟩
  intro b hb hzero
  exact valueOf_inj hb (by decide) (hzero.trans (valueOf_of_lt (by norm_num)).symm)

end Leaper.Bench
