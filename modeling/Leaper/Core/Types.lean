import Mathlib.Data.Rat.Floor
import Mathlib.Tactic.NormNum

namespace Leaper

/-!
# The plug-in's vocabulary

The types of `leaper/include/leaper/leaper.h`: policies, block references, options,
and the two interfaces the engine side implements.

Conventions of the embedding.  A `uint64_t` (a `RangeId` is one) is a natural number, and every
operation of the source whose wrap-around can be reached is written with `u64` or `sub64`.  A
`double` is an exact rational, and an operation on doubles whose result is cut to an integer or
compared is rounded by `Lib.binary64` (the cut sees the difference); a `float` is one that went
through `Lib.binary32`.  A byte string is a list of numbers below 256.  Containers are lists, and an
`unordered_map` is a function into `Option`.
-/

/-- Wrap-around of 64-bit unsigned arithmetic. -/
def u64 (n : ℕ) : ℕ := n % 2 ^ 64

/-- 64-bit unsigned subtraction: `a - b`, plus `2^64` when it would be negative. -/
def sub64 (a b : ℕ) : ℕ := if b ≤ a then a - b else a + 2 ^ 64 - b

/-- Without a borrow the difference is the difference. -/
theorem sub64_of_le {a b : ℕ} (h : b ≤ a) : sub64 a b = a - b := if_pos h

/-- With a borrow it wraps around. -/
theorem sub64_of_lt {a b : ℕ} (h : a < b) : sub64 a b = a + 2 ^ 64 - b := if_neg (by omega)

/-- A key as the engine hands it over: bytes. -/
abbrev Bytes := List ℕ

/-- What is warmed and evicted; Leaper is one of several policies. -/
inductive Policy
  | off
  | eagerEvict
  | incrementalWarmup
  | warmAll
  | warmFlush
  | leaper
  | oracle
  deriving DecidableEq, Repr

/-- A data block of an SST with the (inclusive) key ranges it spans. -/
structure BlockRef where
  fileId : ℕ := 0
  offset : ℕ := 0
  size : ℕ := 0
  firstRange : ℕ := 0
  lastRange : ℕ := 0
  deriving DecidableEq, Repr

/-- The range id `r` lies in the block's interval. -/
def BlockRef.Covers (b : BlockRef) (r : ℕ) : Prop := b.firstRange ≤ r ∧ r ≤ b.lastRange

instance (b : BlockRef) (r : ℕ) : Decidable (b.Covers r) :=
  inferInstanceAs (Decidable (_ ∧ _))

/-- `leaper::Options`, without the file names (what was read from them is in the
    predictor and the oracle table) and `verbose`. -/
structure Options where
  policy : Policy := .off
  slotSeconds : ℚ := 1
  historySlots : ℕ := 6
  sampleRate : ℚ := 1
  rangeSize : ℕ := 40000
  maxRanges : ℕ := 2 ^ 22
  maxRangeId : ℕ := 2 ^ 20
  hotThreshold : ℚ := 1 / 2
  t1Alpha : ℚ := 277 / 10000000
  t2Beta : ℚ := 3709
  t1Seconds : ℚ := 0
  t2Seconds : ℚ := 0
  cacheBytes : ℚ := 512 * 1024 * 1024
  maxPrefetchFrac : ℚ := 1
  dryRun : Bool := false
  memoizePredictions : Bool := true
  enablePhase1 : Bool := true
  enablePhase2 : Bool := true
  ssadMissThreshold : ℚ := 0
  ssadRelative : ℚ := 0
  ssadEwmaAlpha : ℚ := 1 / 20
  ssadWindow : ℤ := 5
  /-- `history_slots` is an `int`. -/
  historySlots_lt : historySlots < 2 ^ 31 := by norm_num

/-- A history of one slot is short enough. -/
theorem one_lt_historyLimit : 1 < 2 ^ 31 := by norm_num

/-- `leaper::CompactionInfo`; the core reads the block estimate and the flush flag. -/
structure CompactionInfo where
  estBlocks : ℕ := 0
  level : ℤ := 0
  isFlush : Bool := false
  deriving DecidableEq, Repr

/-- The counters of `leaper::Stats` the core itself increments (wall-clock times left
    out; the access counters live in the collector). -/
structure Stats where
  inferences : ℕ := 0
  memoHits : ℕ := 0
  rangesPredictedHot : ℕ := 0
  rangesPredictedCold : ℕ := 0
  blocksPrefetched : ℕ := 0
  blocksEvicted : ℕ := 0
  overlapChecks : ℕ := 0
  prefetchRefusedBudget : ℕ := 0
  invalidatedBlocks : ℕ := 0
  compactionsSeen : ℕ := 0
  ssadSuspensions : ℕ := 0
  deriving DecidableEq, Repr

/-- `leaper::RangeMapper`: order-preserving key to range id. -/
structure RangeMapper where
  map : Bytes → ℕ
  rangeSize : ℕ
  rangeStartKey : ℕ → Bytes

/-- `leaper::CacheOps` over an engine whose cache is in state `κ`, which a question may change
    too. -/
structure CacheOps (κ : Type*) where
  evict : BlockRef → κ → κ
  isCached : BlockRef → κ → κ × Bool

/-- Questions leave the cache as it is. -/
def CacheOps.Quiet {κ : Type*} (ops : CacheOps κ) : Prop :=
  ∀ b cache, (ops.isCached b cache).1 = cache

/-- What neither an eviction nor a question changes. -/
structure CacheOps.Keeps {κ : Type*} (ops : CacheOps κ) (P : κ → Prop) : Prop where
  evict : ∀ b cache, P cache → P (ops.evict b cache)
  isCached : ∀ b cache, P cache → P (ops.isCached b cache).1

end Leaper
