import Leaper.Core.Expand
import Leaper.Core.Overlap
import Leaper.Core.Predictor
import Leaper.Lib.Machine

namespace Leaper

open Lib

/-!
# The core: `LeaperImpl`

`leaper/src/leaper.cc`.  A background job is bracketed by `OnCompactionBegin` and
`OnCompactionEnd`; what belongs to the job is its context (`JobCtx`), and the contexts of
the enclosing jobs are a stack.

`OnCompactionBegin` pushes the context of the enclosing job, resets it and then decides, by
policy, what the job evicts and which ranges it will warm: `decideJob` is that decision, and
all of a `Begin` is `pushCtx` followed by storing it.

The engine's cache is a state `κ` of its own, which the core reaches through `CacheOps` and
which the engine changes between the calls (`Event.engine`).
-/

/-- `JobCtx`: what belongs to one background job. -/
structure JobCtx where
  hotT2 : List RangeSpan := []
  prefetchedBytes : ℕ := 0
  budgetBytes : ℕ := 0
  isFlush : Bool := false
  deriving DecidableEq, Repr

/-- The members of the anomaly detector: `ssad_suspended_`, `ssad_last_bad_`, `ssad_run_`,
    `ssad_ewma_`. -/
structure Ssad where
  suspended : Bool := false
  lastBad : Bool := false
  run : ℤ := 0
  ewma : ℚ := -1
  deriving DecidableEq, Repr

/-- `LeaperImpl`, without the pointer to the cache.  `ctxStack` has the innermost enclosing
    job first. -/
structure LeaperImpl where
  opt : Options
  mapper : RangeMapper
  collector : Collector
  predictor : Predictor
  oracle : ℕ → Option (List ℕ)
  ctx : JobCtx := {}
  ctxStack : List JobCtx := []
  stats : Stats := {}
  qps : ℚ := 0
  ssad : Ssad := {}

/-- What a `Begin` decides: the spans to warm, the evictions it makes (in order, with the
    cache they leave) and the hot sets behind both. -/
structure Decision (κ : Type*) where
  hotT2 : List RangeSpan := []
  hot1 : List ℕ := []
  hot2 : List ℕ := []
  evicted : List BlockRef := []
  cache : κ
  predictor : Predictor
  stats : Stats

/-- The two hot sets of a job, and what predicting them left behind. -/
structure HotSets where
  hot1 : List ℕ
  hot2 : List ℕ
  predictor : Predictor
  inferences : ℕ
  memoHits : ℕ

namespace Ssad

/-- Is a miss ratio an anomaly, and the moving average after it. -/
def judge (o : Options) (x : Ssad) (missRatio : ℚ) : Bool × ℚ :=
  if 0 < o.ssadRelative then
    -- The first sample seeds the average; it only follows healthy samples.
    let ewma := if x.ewma < 0 then missRatio else x.ewma
    let bad := decide (binary64 (ewma * binary64 (1 + o.ssadRelative)) < missRatio)
    (bad, if bad then ewma
      else binary64 (ewma + binary64 (o.ssadEwmaAlpha * binary64 (missRatio - ewma))))
  else (decide (o.ssadMissThreshold < missRatio), x.ewma)

/-- The detector after a sample: it changes its mind after `ssad_window` equal judgements. -/
def observe (o : Options) (x : Ssad) (missRatio : ℚ) : Ssad :=
  if o.ssadMissThreshold ≤ 0 ∧ o.ssadRelative ≤ 0 then x
  else
    let j := judge o x missRatio
    let run := if j.1 = x.lastBad then x.run + 1 else 1
    { suspended := if run < o.ssadWindow then x.suspended else j.1
      lastBad := j.1
      run := run
      ewma := j.2 }

end Ssad

namespace LeaperImpl

/-- `CollectorSlots`: the table covers the key space and no more. -/
def collectorSlots (o : Options) : ℕ := min o.maxRanges (max (o.maxRangeId + 1) 64)

/-- The collector the constructor makes. -/
def newCollector (o : Options) : Collector :=
  Collector.fresh
    (Collector.newParams (collectorSlots o) o.historySlots o.slotSeconds o.sampleRate
      o.historySlots_lt)

/-- The table has a row of its own for every id of the key space. -/
theorem maxRangeId_lt_rows {o : Options} (h : o.maxRangeId < o.maxRanges) :
    o.maxRangeId < (newCollector o).params.mask + 1 := by
  have hslots : o.maxRangeId < collectorSlots o := by
    unfold collectorSlots
    omega
  obtain ⟨j, hj, hle⟩ := Collector.roundUpPow2_spec (collectorSlots o)
  show _ < Collector.roundUpPow2 (if 0 < collectorSlots o then collectorSlots o else 1024) - 1 + 1
  rw [if_pos (by omega), hj]
  omega

/-- `Collecting`. -/
def collecting (s : LeaperImpl) : Bool := decide (s.opt.policy = .leaper)

/-- `OnRead` and `OnWrite`. -/
def onAccess (s : LeaperImpl) (isWrite : Bool) (key : Bytes) (nowUs : ℕ) : LeaperImpl :=
  if s.collecting then
    { s with collector := s.collector.record (s.mapper.map key) isWrite nowUs }
  else s

/-- The number of slots a duration takes, at least one. -/
def slotsOf (s : LeaperImpl) (seconds : ℚ) : ℕ :=
  max 1 ⌈binary64 (seconds / s.opt.slotSeconds)⌉₊

/-- `k1`: how many slots the job itself is expected to run. -/
def k1 (s : LeaperImpl) (info : CompactionInfo) : ℕ :=
  s.slotsOf (if 0 < s.opt.t1Seconds then s.opt.t1Seconds
    else binary64 (s.opt.t1Alpha * binary64 info.estBlocks))

/-- `k2`: how many slots the cache is expected to take to recover. -/
def k2 (s : LeaperImpl) : ℕ :=
  s.slotsOf (if 0 < s.opt.t2Seconds then s.opt.t2Seconds
    else binary64 (s.opt.t2Beta * binary64 (s.qps / max 1 s.opt.cacheBytes)))

/-- `budget_bytes_` of a job: the product as a double, cut. -/
def budget (o : Options) : ℕ := ⌊binary64 (o.maxPrefetchFrac * o.cacheBytes)⌋₊

/-- The head of `OnCompactionBegin`: save the enclosing job, start a new context. -/
def pushCtx (s : LeaperImpl) (info : CompactionInfo) : LeaperImpl :=
  { s with
    ctxStack := s.ctx :: s.ctxStack
    ctx := { hotT2 := [], prefetchedBytes := 0, budgetBytes := budget s.opt,
             isFlush := info.isFlush } }

/-- The `PredictHot` calls of a job: one phase for a flush, two for a compaction. -/
def predictPhases (s : LeaperImpl) (info : CompactionInfo) (candidates : List ℕ) (nowUs : ℕ) :
    HotSets :=
  let thr := s.opt.hotThreshold
  if info.isFlush then
    let q := s.predictor.predictHot s.collector candidates 1 s.k2 nowUs thr
    ⟨[], q.out, q.predictor, q.inferences, q.memoHits⟩
  else
    let q1 := s.predictor.predictHot s.collector candidates 1 (s.k1 info) nowUs thr
    let q2 := q1.predictor.predictHot s.collector candidates (s.k1 info + 1) (s.k1 info + s.k2)
      nowUs thr
    ⟨q1.out, q2.out, q2.predictor, q1.inferences + q2.inferences, q1.memoHits + q2.memoHits⟩

/-- The input blocks in the order phase 1 walks them. -/
def sortBlocks (blocks : List BlockRef) : List BlockRef :=
  blocks.insertionSort fun a b => a.firstRange ≤ b.firstRange

/-- The blocks phase 1 evicts: those whose index `SelectOverlapping` did not return. -/
def coldBlocks (blocks : List BlockRef) (keep : List RangeSpan) : List BlockRef :=
  let keepIdx := selectOverlapping (sortBlocks blocks) keep
  ((sortBlocks blocks).zipIdx.filter fun p => decide (p.2 ∉ keepIdx)).map (·.1)

section Cache

variable {κ : Type*} (ops : CacheOps κ)

/-- Evict blocks one after another. -/
def evictAll (blocks : List BlockRef) (cache : κ) : κ :=
  blocks.foldl (fun k b => ops.evict b k) cache

/-- Ask about blocks one after another: those that are cached. -/
def cachedBlocks : List BlockRef → κ → List BlockRef × κ
  | [], cache => ([], cache)
  | b :: bs, cache =>
    let q := ops.isCached b cache
    let r := cachedBlocks bs q.1
    (if q.2 then b :: r.1 else r.1, r.2)

/-- The second pass of the incremental warm-up: each block still cached when its turn comes
    is evicted. -/
def evictCached : List BlockRef → κ → List BlockRef × κ
  | [], cache => ([], cache)
  | b :: bs, cache =>
    let q := ops.isCached b cache
    if q.2 then
      let r := evictCached bs (ops.evict b q.1)
      (b :: r.1, r.2)
    else evictCached bs q.1

/-- The decision of `kIncrementalWarmup`: what overlaps a cached input block is hot. -/
def decideIncremental (s : LeaperImpl) (cache : κ) (blocks : List BlockRef) : Decision κ :=
  let live := cachedBlocks ops blocks cache
  let ev := evictCached ops blocks live.2
  { hotT2 := toSpans (expandRanges s.opt.maxRangeId live.1)
    evicted := ev.1
    cache := ev.2
    predictor := s.predictor
    stats := { s.stats with blocksEvicted := s.stats.blocksEvicted + ev.1.length } }

/-- The decision of `kOracle`: the next slot's ranges. -/
def decideOracle (s : LeaperImpl) (cache : κ) (nowUs : ℕ) : Decision κ :=
  { hotT2 := match s.oracle (s.collector.params.slotOf nowUs + 1) with
      | none => []
      | some hot => toSpans hot
    cache := cache
    predictor := s.predictor
    stats := s.stats }

/-- The counters a leaper job moves before its evictions. -/
def predictionStats (s : LeaperImpl) (h : HotSets) (candidates : List ℕ) : Stats :=
  { s.stats with
    inferences := s.stats.inferences + h.inferences
    memoHits := s.stats.memoHits + h.memoHits
    rangesPredictedHot := s.stats.rangesPredictedHot + h.hot2.length
    rangesPredictedCold := s.stats.rangesPredictedCold + (candidates.length - h.hot2.length) }

/-- The candidates of a leaper job. -/
def candidates (s : LeaperImpl) (blocks : List BlockRef) : List ℕ :=
  sortUnique (expandRanges s.opt.maxRangeId blocks)

/-- The decision of `kLeaper`: multi-step prediction combined into two phases. -/
def decideLeaper (s : LeaperImpl) (cache : κ) (info : CompactionInfo) (blocks : List BlockRef)
    (nowUs : ℕ) : Decision κ :=
  let cands := s.candidates blocks
  let h := s.predictPhases info cands nowUs
  let st := s.predictionStats h cands
  if s.opt.dryRun then
    { hotT2 := [], hot1 := h.hot1, hot2 := h.hot2, cache := cache,
      predictor := h.predictor, stats := st }
  else if !info.isFlush && s.opt.enablePhase1 then
    let cold := coldBlocks blocks (toSpans h.hot1)
    { hotT2 := toSpans h.hot2, hot1 := h.hot1, hot2 := h.hot2, evicted := cold,
      cache := evictAll ops cold cache, predictor := h.predictor,
      stats := { st with blocksEvicted := st.blocksEvicted + cold.length,
                         overlapChecks := st.overlapChecks + 1 } }
  else
    { hotT2 := toSpans h.hot2, hot1 := h.hot1, hot2 := h.hot2, cache := cache,
      predictor := h.predictor, stats := st }

/-- What a job decides when it begins, by policy. -/
def decideJob (s : LeaperImpl) (cache : κ) (info : CompactionInfo) (blocks : List BlockRef)
    (nowUs : ℕ) : Decision κ :=
  let nothing : Decision κ := { cache := cache, predictor := s.predictor, stats := s.stats }
  if s.ssad.suspended && decide (s.opt.policy = .leaper) then nothing
  else
    match s.opt.policy with
    | .off | .eagerEvict => nothing
    | .warmAll | .warmFlush => nothing
    | .incrementalWarmup => s.decideIncremental ops cache blocks
    | .oracle => s.decideOracle cache nowUs
    | .leaper => s.decideLeaper ops cache info blocks nowUs

/-- `OnCompactionBegin`, with the decision it made. -/
def onCompactionBegin (s : LeaperImpl) (cache : κ) (info : CompactionInfo)
    (blocks : List BlockRef) (nowUs : ℕ) : LeaperImpl × Decision κ :=
  let s := s.pushCtx info
  let d := s.decideJob ops cache info blocks nowUs
  ({ s with ctx := { s.ctx with hotT2 := d.hotT2 }, predictor := d.predictor, stats := d.stats }, d)

end Cache

/-- What the policy says of an output block, before the budget. -/
def wants (s : LeaperImpl) (block : BlockRef) : Bool :=
  match s.opt.policy with
  | .off | .eagerEvict => false
  | .warmAll => true
  | .warmFlush => s.ctx.isFlush
  | .incrementalWarmup | .oracle => blockOverlaps block s.ctx.hotT2
  | .leaper => s.opt.enablePhase2 && !s.ssad.suspended && blockOverlaps block s.ctx.hotT2

/-- The policy's own question: phase 2 on, not suspended, and a hot range in the block. -/
theorem wants_of_leaper {s : LeaperImpl} (h : s.opt.policy = .leaper) (block : BlockRef) :
    s.wants block =
      (s.opt.enablePhase2 && !s.ssad.suspended && blockOverlaps block s.ctx.hotT2) := by
  unfold wants
  rw [h]

/-- The oracle asks neither for phase 2 nor for the detector. -/
theorem wants_of_oracle {s : LeaperImpl} (h : s.opt.policy = .oracle) (block : BlockRef) :
    s.wants block = blockOverlaps block s.ctx.hotT2 := by
  unfold wants
  rw [h]

/-- `ShouldPrefetch`.  The sum of two `uint64_t` wraps. -/
def shouldPrefetch (s : LeaperImpl) (block : BlockRef) : LeaperImpl × Bool :=
  if s.wants block then
    if s.ctx.budgetBytes < u64 (s.ctx.prefetchedBytes + block.size) then
      ({ s with stats :=
          { s.stats with prefetchRefusedBudget := s.stats.prefetchRefusedBudget + 1 } }, false)
    else
      ({ s with
          ctx := { s.ctx with prefetchedBytes := u64 (s.ctx.prefetchedBytes + block.size) }
          stats := { s.stats with blocksPrefetched := s.stats.blocksPrefetched + 1 } }, true)
  else (s, false)

/-- `OnCompactionEnd`: back to the enclosing job, if any. -/
def onCompactionEnd (s : LeaperImpl) : LeaperImpl :=
  match s.ctxStack with
  | [] => { s with ctx := { s.ctx with hotT2 := [] } }
  | outer :: rest => { s with ctx := outer, ctxStack := rest }

/-- `set_qps`. -/
def setQps (s : LeaperImpl) (q : ℚ) : LeaperImpl := { s with qps := q }

/-- `set_health`; a new suspension is counted. -/
def setHealth (s : LeaperImpl) (missRatio : ℚ) : LeaperImpl :=
  let x := s.ssad.observe s.opt missRatio
  { s with
    ssad := x
    stats := if x.suspended && !s.ssad.suspended then
        { s.stats with ssadSuspensions := s.stats.ssadSuspensions + 1 }
      else s.stats }

/-- `OnFileObsolete`. -/
def onFileObsolete {κ : Type*} (ops : CacheOps κ) (s : LeaperImpl) (cache : κ)
    (blocks : List BlockRef) : LeaperImpl × κ × List BlockRef :=
  if s.opt.policy = .off then (s, cache, [])
  else
    ({ s with stats := { s.stats with blocksEvicted := s.stats.blocksEvicted + blocks.length } },
      evictAll ops blocks cache, blocks)

/-- `RecordInvalidation`. -/
def recordInvalidation (s : LeaperImpl) (cachedInputBlocks : ℕ) : LeaperImpl :=
  { s with stats :=
    { s.stats with
      invalidatedBlocks := s.stats.invalidatedBlocks + cachedInputBlocks
      compactionsSeen := s.stats.compactionsSeen + 1 } }

/-! ### What each call can change -/

section Frames

variable (s : LeaperImpl)

/-- A `Begin` opens a new context over the old ones, and touches the predictor's memos and
    the counters besides. -/
theorem onCompactionBegin_frame {κ : Type*} (ops : CacheOps κ) (cache : κ) (info : CompactionInfo)
    (blocks : List BlockRef) (nowUs : ℕ) :
    let d := (s.pushCtx info).decideJob ops cache info blocks nowUs
    (s.onCompactionBegin ops cache info blocks nowUs).1 =
      { s with
        ctxStack := s.ctx :: s.ctxStack
        ctx := ⟨d.hotT2, 0, budget s.opt, info.isFlush⟩
        predictor := d.predictor
        stats := d.stats } := rfl

/-- What is cached, if asking changes nothing. -/
theorem cachedBlocks_of_quiet {κ : Type*} {ops : CacheOps κ} (hquiet : ops.Quiet)
    (blocks : List BlockRef) (cache : κ) :
    cachedBlocks ops blocks cache = (blocks.filter fun b => (ops.isCached b cache).2, cache) := by
  induction blocks with
  | nil => rfl
  | cons b blocks ih =>
    unfold cachedBlocks
    simp only [hquiet b cache, ih, List.filter_cons]

/-- The second pass of the incremental warm-up makes the evictions it reports. -/
theorem evictCached_cache {κ : Type*} {ops : CacheOps κ} (hquiet : ops.Quiet)
    (blocks : List BlockRef) (cache : κ) :
    (evictCached ops blocks cache).2 =
      (evictCached ops blocks cache).1.foldl (fun k b => ops.evict b k) cache := by
  induction blocks generalizing cache with
  | nil => rfl
  | cons b blocks ih =>
    unfold evictCached
    simp only [hquiet b cache]
    split_ifs
    · exact ih (ops.evict b cache)
    · exact ih cache

/-- **A job makes the evictions it reports**: the cache it leaves is the one it found after a call
    of `Evict` for each of them, in their order.  Only the incremental warm-up asks questions as
    well. -/
theorem decideJob_cache {κ : Type*} {ops : CacheOps κ}
    (hquiet : s.opt.policy = .incrementalWarmup → ops.Quiet) (cache : κ) (info : CompactionInfo)
    (blocks : List BlockRef) (nowUs : ℕ) :
    (s.decideJob ops cache info blocks nowUs).cache =
      (s.decideJob ops cache info blocks nowUs).evicted.foldl (fun k b => ops.evict b k) cache := by
  unfold decideJob
  simp only
  split_ifs
  · rfl
  · cases hpol : s.opt.policy with
    | incrementalWarmup =>
      simp only [decideIncremental, cachedBlocks_of_quiet (hquiet hpol)]
      exact evictCached_cache (hquiet hpol) blocks cache
    | leaper =>
      simp only [decideLeaper]
      split_ifs <;> rfl
    | _ => rfl

/-- So does `OnFileObsolete`. -/
theorem onFileObsolete_cache {κ : Type*} (ops : CacheOps κ) (cache : κ) (blocks : List BlockRef) :
    (s.onFileObsolete ops cache blocks).2.1 =
      (s.onFileObsolete ops cache blocks).2.2.foldl (fun k b => ops.evict b k) cache := by
  unfold onFileObsolete
  split_ifs <;> rfl

section Keeps

variable {κ : Type*} {ops : CacheOps κ} {P : κ → Prop} (hkeeps : ops.Keeps P)

include hkeeps

/-- Evicting any blocks keeps `P`. -/
theorem evictAll_keeps (blocks : List BlockRef) {cache : κ} (h : P cache) :
    P (evictAll ops blocks cache) :=
  List.foldlRecOn blocks _ h fun k hk b _ => hkeeps.evict b k hk

/-- Probing blocks keeps `P`. -/
theorem cachedBlocks_keeps (blocks : List BlockRef) {cache : κ} (h : P cache) :
    P (cachedBlocks ops blocks cache).2 := by
  induction blocks generalizing cache with
  | nil => exact h
  | cons b blocks ih => exact ih (hkeeps.isCached b cache h)

/-- Evicting the blocks that are cached keeps `P`. -/
theorem evictCached_keeps (blocks : List BlockRef) {cache : κ} (h : P cache) :
    P (evictCached ops blocks cache).2 := by
  induction blocks generalizing cache with
  | nil => exact h
  | cons b blocks ih =>
    unfold evictCached
    dsimp only
    split_ifs
    · exact ih (hkeeps.evict b _ (hkeeps.isCached b cache h))
    · exact ih (hkeeps.isCached b cache h)

/-- **A decision reaches the cache through its operations alone.** -/
theorem decideJob_keeps {cache : κ} (h : P cache) (info : CompactionInfo) (blocks : List BlockRef)
    (nowUs : ℕ) : P (s.decideJob ops cache info blocks nowUs).cache := by
  unfold decideJob
  dsimp only
  split_ifs
  · exact h
  · cases s.opt.policy with
    | off | eagerEvict | warmAll | warmFlush | oracle => exact h
    | incrementalWarmup => exact evictCached_keeps hkeeps _ (cachedBlocks_keeps hkeeps _ h)
    | leaper =>
      show P (s.decideLeaper ops cache info blocks nowUs).cache
      unfold decideLeaper
      dsimp only
      split_ifs
      · exact h
      · exact evictAll_keeps hkeeps _ h
      · exact h

end Keeps

/-- A refused or unwanted block leaves the context; a granted one adds its size. -/
theorem shouldPrefetch_frame (block : BlockRef) : ∃ st,
    (s.shouldPrefetch block = ({ s with stats := st }, false)) ∨
    (s.wants block = true ∧ u64 (s.ctx.prefetchedBytes + block.size) ≤ s.ctx.budgetBytes ∧
      s.shouldPrefetch block =
        ({ s with
            ctx := { s.ctx with prefetchedBytes := u64 (s.ctx.prefetchedBytes + block.size) }
            stats := st }, true)) := by
  unfold shouldPrefetch
  by_cases hwant : s.wants block = true
  · rw [if_pos hwant]
    -- the sum is compared after it may have wrapped
    by_cases hover : s.ctx.budgetBytes < u64 (s.ctx.prefetchedBytes + block.size)
    · rw [if_pos hover]
      exact ⟨_, Or.inl rfl⟩
    · rw [if_neg hover]
      exact ⟨_, Or.inr ⟨hwant, not_lt.mp hover, rfl⟩⟩
  · rw [if_neg hwant]
    exact ⟨s.stats, Or.inl rfl⟩

/-- A block that is not wanted is refused, and nothing is counted. -/
theorem shouldPrefetch_of_not_wants {block : BlockRef} (h : s.wants block = false) :
    s.shouldPrefetch block = (s, false) := by
  unfold shouldPrefetch
  rw [h]
  rfl

/-- Without spans a leaper job wants nothing. -/
theorem wants_of_no_spans {s : LeaperImpl} (hpol : s.opt.policy = .leaper)
    (hspans : s.ctx.hotT2 = []) (block : BlockRef) : s.wants block = false := by
  unfold wants
  rw [hpol, hspans]
  simp only [blockOverlaps_nil, Bool.and_false]

/-- Without a hot range no block is wanted. -/
theorem shouldPrefetch_of_no_spans {s : LeaperImpl} (hpol : s.opt.policy = .leaper)
    (hspans : s.ctx.hotT2 = []) (block : BlockRef) : s.shouldPrefetch block = (s, false) :=
  shouldPrefetch_of_not_wants _ (wants_of_no_spans hpol hspans block)

/-- A suspended leaper job wants nothing. -/
theorem wants_of_suspended {s : LeaperImpl} (hpol : s.opt.policy = .leaper)
    (hsus : s.ssad.suspended = true) (block : BlockRef) : s.wants block = false := by
  unfold wants
  rw [hpol, hsus]
  simp only [Bool.not_true, Bool.and_false, Bool.false_and]

/-- A suspended leaper job decides nothing. -/
theorem decideJob_suspended {s : LeaperImpl} (hpol : s.opt.policy = .leaper)
    (hsus : s.ssad.suspended = true) {κ : Type*} (ops : CacheOps κ) (cache : κ)
    (info : CompactionInfo) (blocks : List BlockRef) (nowUs : ℕ) :
    s.decideJob ops cache info blocks nowUs =
      { cache := cache, predictor := s.predictor, stats := s.stats } := by
  unfold decideJob
  rw [hpol]
  exact if_pos (by simpa using hsus)

/-- The policy decides unless the detector has suspended it. -/
theorem decideJob_of_not_suspended {s : LeaperImpl} (hpol : s.opt.policy = .leaper)
    (hsus : s.ssad.suspended ≠ true) {κ : Type*} (ops : CacheOps κ) (cache : κ)
    (info : CompactionInfo) (blocks : List BlockRef) (nowUs : ℕ) :
    s.decideJob ops cache info blocks nowUs = s.decideLeaper ops cache info blocks nowUs := by
  unfold decideJob
  rw [hpol]
  exact if_neg (by simpa using hsus)

/-- The end of a job touches the contexts alone. -/
theorem onCompactionEnd_frame : ∃ c cs,
    s.onCompactionEnd = { s with ctx := c, ctxStack := cs } := by
  unfold onCompactionEnd
  cases hstack : s.ctxStack with
  | nil => exact ⟨{ s.ctx with hotT2 := [] }, s.ctxStack, by rw [hstack]⟩
  | cons outer rest => exact ⟨outer, rest, rfl⟩

/-- A deleted file touches the statistics alone. -/
theorem onFileObsolete_frame {κ : Type*} (ops : CacheOps κ) (cache : κ) (blocks : List BlockRef) :
    ∃ st, (s.onFileObsolete ops cache blocks).1 = { s with stats := st } := by
  unfold onFileObsolete
  split_ifs
  · exact ⟨s.stats, rfl⟩
  · exact ⟨_, rfl⟩

/-- An access touches the collector alone, and leaves its parameters. -/
theorem onAccess_frame (isWrite : Bool) (key : Bytes) (nowUs : ℕ) :
    ∃ c, s.onAccess isWrite key nowUs = { s with collector := c } ∧
      (c = s.collector ∨ c = s.collector.record (s.mapper.map key) isWrite nowUs) := by
  unfold onAccess
  split_ifs
  · exact ⟨_, rfl, Or.inr rfl⟩
  · exact ⟨s.collector, rfl, Or.inl rfl⟩

end Frames

end LeaperImpl

/-! ### The core as a machine -/

/-- A call of the core, or a change the engine makes to its cache on its own.
    `ShouldPrefetch` and `OnCompactionEnd` ignore the time they are given. -/
inductive Event (κ : Type*)
  | access (isWrite : Bool) (key : Bytes) (nowUs : ℕ)
  | compactionBegin (info : CompactionInfo) (blocks : List BlockRef) (nowUs : ℕ)
  | shouldPrefetch (block : BlockRef)
  | compactionEnd
  | fileObsolete (blocks : List BlockRef)
  | setQps (q : ℚ)
  | setHealth (missRatio : ℚ)
  | recordInvalidation (cachedInputBlocks : ℕ)
  | engine (change : κ → κ)

/-- What a caller sees of a call: the hot sets and evictions of a `Begin` (evictions of
    `OnFileObsolete` too), the answer of a `ShouldPrefetch`. -/
structure Obs where
  hot1 : List ℕ := []
  hot2 : List ℕ := []
  evicted : List BlockRef := []
  answer : Option Bool := none
  deriving DecidableEq, Repr

/-- The core and the engine's cache. -/
structure World (κ : Type*) where
  core : LeaperImpl
  cache : κ

variable {κ : Type*}

/-- One call. -/
def step (ops : CacheOps κ) (w : World κ) : Event κ → World κ × Obs
  | .access isWrite key nowUs => ({ w with core := w.core.onAccess isWrite key nowUs }, {})
  | .compactionBegin info blocks nowUs =>
    let r := w.core.onCompactionBegin ops w.cache info blocks nowUs
    (⟨r.1, r.2.cache⟩, { hot1 := r.2.hot1, hot2 := r.2.hot2, evicted := r.2.evicted })
  | .shouldPrefetch block =>
    let r := w.core.shouldPrefetch block
    ({ w with core := r.1 }, { answer := some r.2 })
  | .compactionEnd => ({ w with core := w.core.onCompactionEnd }, {})
  | .fileObsolete blocks =>
    let r := w.core.onFileObsolete ops w.cache blocks
    (⟨r.1, r.2.1⟩, { evicted := r.2.2 })
  | .setQps q => ({ w with core := w.core.setQps q }, {})
  | .setHealth missRatio => ({ w with core := w.core.setHealth missRatio }, {})
  | .recordInvalidation n => ({ w with core := w.core.recordInvalidation n }, {})
  | .engine change => ({ w with cache := change w.cache }, {})

/-- A cache that is a list of blocks. -/
def listCache : CacheOps (List BlockRef) where
  evict b cache := cache.filter (· ≠ b)
  isCached b cache := (cache, decide (b ∈ cache))

/-- A leaper core whose ranges are leading bytes and whose only model is the read rate of the
    previous slot. -/
def sampleCore : LeaperImpl where
  opt := { policy := .leaper, historySlots := 1, maxRangeId := 63
           historySlots_lt := one_lt_historyLimit }
  mapper := { map := fun key => key.getD 0 0, rangeSize := 1, rangeStartKey := fun r => [r] }
  collector := LeaperImpl.newCollector
    { policy := .leaper, historySlots := 1, maxRangeId := 63
      historySlots_lt := one_lt_historyLimit }
  predictor := { models := [fun f => f.getD 0 0], history := 1 }
  oracle := fun _ => none

end Leaper
