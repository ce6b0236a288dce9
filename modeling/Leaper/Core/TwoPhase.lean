import Leaper.Core.Jobs

namespace Leaper

open Lib

/-!
# The two-phase policy against its specification

A leaper job evicts, when it begins, the input blocks it predicts cold while it runs, and
later warms the output blocks it predicts hot while the cache recovers.  Over sets of range
ids this is one line for each phase; the code goes through candidate expansion,
de-duplication, memoised inference, spans, a sort of the blocks and two overlap algorithms.

* `coldBlocks_eq` — the index mask of phase 1 is a filter on the sorted blocks;
* `onCompactionBegin_two_phase` — after any run, the evictions and the wanted blocks of a
  job are those of the specification.
-/

/-- Dropping the positions of the elements a test accepts keeps those it rejects. -/
theorem map_fst_filter_notMem {α : Type*} (l : List α) (test : α → Bool) :
    (l.zipIdx.filter fun p =>
        decide (p.2 ∉ (l.zipIdx.filter fun q => test q.1).map (·.2))).map (·.1)
      = l.filter fun a => !test a := by
  have hmask : (l.zipIdx.filter fun p =>
      decide (p.2 ∉ (l.zipIdx.filter fun q => test q.1).map (·.2)))
      = l.zipIdx.filter fun p => !test p.1 := by
    apply List.filter_congr
    intro p hp
    -- a position determines its element
    have hidx : p.2 ∈ (l.zipIdx.filter fun q => test q.1).map (·.2) ↔ test p.1 = true := by
      rw [List.mem_map]
      refine ⟨fun ⟨q, hq, hqp⟩ => ?_, fun h => ⟨p, List.mem_filter.mpr ⟨hp, h⟩, rfl⟩⟩
      obtain ⟨hql, hqt⟩ := List.mem_filter.mp hq
      have hq' : l[q.2]? = some q.1 := List.mem_zipIdx_iff_getElem?.mp hql
      have hp' : l[p.2]? = some p.1 := List.mem_zipIdx_iff_getElem?.mp hp
      rw [hqp, hp'] at hq'
      rw [Option.some.inj hq']
      exact hqt
    by_cases ht : test p.1 = true
    · simp [hidx.mpr ht, ht]
    · have hnot := mt hidx.mp ht
      simp [hnot, Bool.not_eq_true _ ▸ ht]
  have hfst : l.zipIdx.map (·.1) = l := List.zipIdx_map_fst 0 l
  calc (l.zipIdx.filter _).map (·.1)
      = (l.zipIdx.filter fun p => !test p.1).map (·.1) := by rw [hmask]
    _ = (l.zipIdx.map (·.1)).filter fun a => !test a := by rw [List.filter_map]; rfl
    _ = l.filter fun a => !test a := by rw [hfst]

namespace LeaperImpl

theorem sortBlocks_perm (blocks : List BlockRef) : (sortBlocks blocks).Perm blocks :=
  List.perm_insertionSort _ _

theorem pairwise_sortBlocks (blocks : List BlockRef) :
    (sortBlocks blocks).Pairwise fun a b => a.firstRange ≤ b.firstRange := by
  have : Std.Total fun a b : BlockRef => a.firstRange ≤ b.firstRange :=
    ⟨fun a b => Nat.le_total a.firstRange b.firstRange⟩
  have : IsTrans BlockRef fun a b => a.firstRange ≤ b.firstRange :=
    ⟨fun _ _ _ => Nat.le_trans⟩
  exact List.pairwise_insertionSort _ _

/-- **Phase 1 is a filter.** -/
theorem coldBlocks_eq {blocks : List BlockRef} {keep : List RangeSpan} (hkeep : Spanned keep)
    (hle : ∀ b ∈ blocks, b.firstRange ≤ b.lastRange) :
    coldBlocks blocks keep = (sortBlocks blocks).filter fun b => !blockOverlaps b keep := by
  have hsel := selectOverlapping_eq hkeep
    (fun b hb => hle b ((sortBlocks_perm blocks).mem_iff.mp hb)) (pairwise_sortBlocks blocks)
  unfold coldBlocks
  simp only [hsel]
  exact map_fst_filter_notMem (sortBlocks blocks) fun b => blockOverlaps b keep

/-- The input blocks with their promises: forward, inside the key space, few enough ids. -/
structure Inputs (s : LeaperImpl) (blocks : List BlockRef) : Prop where
  forward : ∀ b ∈ blocks, b.firstRange ≤ b.lastRange
  inside : ∀ b ∈ blocks, b.lastRange ≤ s.opt.maxRangeId
  few : (expandPush s.opt.maxRangeId blocks []).length ≤ kMaxCandidates

/-- Range `x` is predicted hot for steps `lo..hi`, on the core's models and counters. -/
def PredictedHot (s : LeaperImpl) (nowUs lo hi x : ℕ) : Prop :=
  s.predictor.PredictedHot s.collector nowUs s.opt.hotThreshold lo hi x

variable {s : LeaperImpl} {blocks : List BlockRef}

theorem pairwise_hotSet (s : LeaperImpl) (blocks : List BlockRef) (now lo hi : ℕ) :
    (s.hotSet blocks now lo hi).Pairwise (· ≤ ·) :=
  (pairwise_sortUnique _).imp le_of_lt

/-- **The hot set of a step range**: the ids of the input blocks that are predicted hot. -/
theorem mem_hotSet (h : s.Inputs blocks) (now : ℕ) {lo hi : ℕ} (hlo : 1 ≤ lo) {x : ℕ} :
    x ∈ s.hotSet blocks now lo hi ↔
      (∃ b ∈ blocks, b.Covers x) ∧ s.PredictedHot now lo hi x := by
  unfold hotSet candidates PredictedHot
  rw [mem_sortUnique, List.mem_filter, mem_sortUnique,
    mem_expandRanges h.few h.forward h.inside, Predictor.predicts_iff _ _ _ _ hlo]

/-- What the evictions of a job should be: every cold block as often as it is an input, and
    nothing else. -/
def EvictsExactly (evicted blocks : List BlockRef) (cold : BlockRef → Prop) : Prop :=
  (∀ b, cold b → evicted.count b = blocks.count b) ∧ ∀ b ∈ evicted, cold b

/-- No id of the block is predicted hot for the steps. -/
def Cold (s : LeaperImpl) (nowUs lo hi : ℕ) (b : BlockRef) : Prop :=
  ∀ x, b.Covers x → ¬ s.PredictedHot nowUs lo hi x

/-- A block of the input overlaps the spans of the hot set iff one of its ids is hot. -/
theorem blockOverlaps_hotSet (h : s.Inputs blocks) (now : ℕ) {lo hi : ℕ} (hlo : 1 ≤ lo)
    {b : BlockRef} (hb : b.firstRange ≤ b.lastRange) :
    blockOverlaps b (toSpans (s.hotSet blocks now lo hi)) = true ↔
      ∃ x, b.Covers x ∧ (∃ i ∈ blocks, i.Covers x) ∧ s.PredictedHot now lo hi x := by
  rw [blockOverlaps_toSpans (s.pairwise_hotSet blocks now lo hi) hb]
  apply exists_congr
  intro x
  rw [mem_hotSet h now hlo, and_comm]

/-- Phase 1's evictions are those of the specification. -/
theorem coldBlocks_evictsExactly (h : s.Inputs blocks) (now : ℕ) {lo hi : ℕ} (hlo : 1 ≤ lo) :
    EvictsExactly (coldBlocks blocks (toSpans (s.hotSet blocks now lo hi))) blocks
      (s.Cold now lo hi) := by
  rw [coldBlocks_eq (spanned_toSpans (s.pairwise_hotSet blocks now lo hi)) h.forward]
  -- for a block of the job, missing all hot spans is being cold
  have hcold : ∀ b ∈ blocks, (!blockOverlaps b (toSpans (s.hotSet blocks now lo hi))) = true ↔
      s.Cold now lo hi b := by
    intro b hb
    rw [Bool.not_eq_true', ← Bool.not_eq_true, blockOverlaps_hotSet h now hlo (h.forward b hb)]
    refine ⟨fun hnone x hx hhot => hnone ⟨x, hx, ⟨b, hb, hx⟩, hhot⟩, ?_⟩
    intro hc hex
    obtain ⟨x, hx, -, hhot⟩ := hex
    exact hc x hx hhot
  refine ⟨fun b hb => ?_, fun b hb => ?_⟩
  · by_cases hmem : b ∈ blocks
    · rw [List.count_filter (p := fun b => !blockOverlaps b _) ((hcold b hmem).mpr hb),
        (sortBlocks_perm blocks).count_eq]
    · rw [List.count_eq_zero_of_not_mem hmem]
      apply List.count_eq_zero_of_not_mem
      intro hin
      exact hmem ((sortBlocks_perm blocks).mem_iff.mp (List.mem_of_mem_filter hin))
  · obtain ⟨hin, htest⟩ := List.mem_filter.mp hb
    exact (hcold b ((sortBlocks_perm blocks).mem_iff.mp hin)).mp htest

/-! ### A leaper job -/

variable {κ : Type*}

/-- What a leaper job that is neither suspended nor dry decides. -/
theorem decideJob_leaper {now : ℕ} (hgood : s.MemoOk now)
    (hpol : s.opt.policy = .leaper) (hsus : s.ssad.suspended = false)
    (hdry : s.opt.dryRun = false) (ops : CacheOps κ) (cache : κ) (info : CompactionInfo)
    (blocks : List BlockRef) :
    (s.decideJob ops cache info blocks now).hotT2 = toSpans (s.jobHot2 info blocks now) ∧
    (s.decideJob ops cache info blocks now).evicted =
      (if !info.isFlush && s.opt.enablePhase1 then
        coldBlocks blocks (toSpans (s.jobHot1 info blocks now)) else []) := by
  obtain ⟨h1, h2⟩ := predictPhases_hot hgood info blocks
  unfold decideJob
  simp only [hpol, hsus, Bool.false_and, Bool.false_eq_true, if_false]
  unfold decideLeaper
  simp only [hdry, Bool.false_eq_true, if_false, h1, h2]
  split_ifs
  · exact ⟨rfl, rfl⟩
  · exact ⟨rfl, rfl⟩

end LeaperImpl

open LeaperImpl

/-- The first of the steps phase 2 asks for. -/
def LeaperImpl.phase2Lo (s : LeaperImpl) (info : CompactionInfo) : ℕ :=
  if info.isFlush then 1 else s.k1 info + 1

/-- The last of the steps phase 2 asks for. -/
def LeaperImpl.phase2Hi (s : LeaperImpl) (info : CompactionInfo) : ℕ :=
  if info.isFlush then s.k2 else s.k1 info + s.k2

variable {κ : Type*}

/-- **The two-phase policy equals its specification.** In every state a run with a forward
    clock reaches from any counters and models, a leaper job calls `Evict` once for every block of
    a list, which has, as often as they occur, the input blocks without an id predicted hot for
    steps `1..k1`; and it wants an output block exactly when one of its ids is an input id predicted
    hot for steps `k1+1..k1+k2` (for a flush `1..k2`). -/
theorem onCompactionBegin_two_phase (ops : CacheOps κ) {w₀ w : World κ} {es : List (Event κ)}
    (hmemo : w₀.core.predictor.memo = []) (hacc : (clock κ).Accepts 0 es)
    (hrun : run (step ops) w₀ es = w) (hpol : w.core.opt.policy = .leaper)
    (hsus : w.core.ssad.suspended = false) (hdry : w.core.opt.dryRun = false)
    {now : ℕ} (hnow : (clock κ).after 0 es ≤ now) (info : CompactionInfo)
    {blocks : List BlockRef} (hin : w.core.Inputs blocks) :
    (w.core.onCompactionBegin ops w.cache info blocks now).2.cache =
      (w.core.onCompactionBegin ops w.cache info blocks now).2.evicted.foldl
        (fun cache b => ops.evict b cache) w.cache ∧
    (info.isFlush = false → w.core.opt.enablePhase1 = true →
      EvictsExactly (w.core.onCompactionBegin ops w.cache info blocks now).2.evicted blocks
        (w.core.Cold now 1 (w.core.k1 info))) ∧
    (w.core.opt.enablePhase2 = true → ∀ out : BlockRef, out.firstRange ≤ out.lastRange →
      ((w.core.onCompactionBegin ops w.cache info blocks now).1.wants out = true ↔
        ∃ x, out.Covers x ∧ (∃ b ∈ blocks, b.Covers x) ∧
          w.core.PredictedHot now (w.core.phase2Lo info) (w.core.phase2Hi info) x)) := by
  have hgood : (w.core.pushCtx info).MemoGood ((clock κ).after 0 es) := by
    rw [← hrun]
    exact memoGood_run ops hacc (MemoInv.of_empty hmemo _ _ _)
  obtain ⟨hspans, hev⟩ := decideJob_leaper (hgood.ok now hnow) hpol hsus hdry ops w.cache
    info blocks
  have hasked : (w.core.pushCtx info).opt.policy = .incrementalWarmup → ops.Quiet := fun h => by
    rw [show (w.core.pushCtx info).opt.policy = .leaper from hpol] at h
    cases h
  refine ⟨(w.core.pushCtx info).decideJob_cache hasked w.cache info blocks now,
    fun hflush hphase => ?_, fun hphase out hout => ?_⟩
  · show EvictsExactly ((w.core.pushCtx info).decideJob ops w.cache info blocks now).evicted _ _
    have hphase' : (w.core.pushCtx info).opt.enablePhase1 = true := hphase
    rw [hev, hflush, hphase']
    show EvictsExactly (coldBlocks blocks _) _ _
    unfold jobHot1
    rw [hflush, if_neg Bool.false_ne_true]
    exact coldBlocks_evictsExactly hin now le_rfl
  · -- after the `Begin` the wish is the overlap with phase 2's spans
    have hwants : (w.core.onCompactionBegin ops w.cache info blocks now).1.wants out =
        blockOverlaps out ((w.core.pushCtx info).decideJob ops w.cache info blocks now).hotT2 := by
      rw [wants_of_leaper (s := (w.core.onCompactionBegin ops w.cache info blocks now).1) hpol]
      show (w.core.opt.enablePhase2 && !w.core.ssad.suspended && blockOverlaps out _) = _
      rw [hphase, hsus]
      rfl
    rw [hwants, hspans]
    unfold jobHot2 phase2Lo phase2Hi
    split_ifs
    · exact blockOverlaps_hotSet hin now le_rfl hout
    · exact blockOverlaps_hotSet hin now (Nat.le_add_left 1 _) hout

/-- The blocks of the sample compaction. -/
def sampleBlocks : List BlockRef :=
  [{ firstRange := 7, lastRange := 7 }, { firstRange := 9, lastRange := 9 }]

/-- The sample core after its read, with the blocks in the cache. -/
def sampleWorld : World (List BlockRef) :=
  run (step listCache) ⟨sampleCore, sampleBlocks⟩ (sampleRun.take 1)

/-- The read range's block stays in the cache, the other one goes. -/
theorem onCompactionBegin_two_phase_sample :
    EvictsExactly (sampleWorld.core.onCompactionBegin listCache sampleWorld.cache {} sampleBlocks
        1000000).2.evicted sampleBlocks
          (sampleWorld.core.Cold 1000000 1 (sampleWorld.core.k1 {})) ∧
      (sampleWorld.core.onCompactionBegin listCache sampleWorld.cache {} sampleBlocks
        1000000).2.cache = [{ firstRange := 7, lastRange := 7 }] := by
  obtain ⟨hcache, hevicts, -⟩ := @onCompactionBegin_two_phase _ listCache
    ⟨sampleCore, sampleBlocks⟩ sampleWorld (sampleRun.take 1) rfl (by decide) rfl rfl rfl rfl
    1000000
    (by decide) {} sampleBlocks ⟨by decide, by decide, by decide⟩
  refine ⟨hevicts rfl rfl, ?_⟩
  rw [hcache]
  decide +kernel

-- the sample compaction evicts range 9, which nobody read
example : (sampleWorld.core.onCompactionBegin listCache [] {} sampleBlocks 1000000).2.evicted
    = [{ firstRange := 9, lastRange := 9 }] := by
  decide +kernel

end Leaper
