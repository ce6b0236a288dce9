import Leaper.Core.Nesting
import Leaper.Core.TwoPhase
import Mathlib.Data.Finset.Card

namespace Leaper

open Lib LeaperImpl

/-!
# The incremental warm-up baseline

`kIncrementalWarmup` takes what overlaps a cached input block for hot, and evicts the cached input
blocks as their job begins.  On a cache that is a set of blocks:

* `evictCached_spec` — the pass over the input blocks, with repeats, removes exactly them and
  counts the distinct ones that were there;
* `blockOverlaps_live` — the spans made of the cached blocks overlap what meets one of them;
* `incrementalWarmup_exact` — the policy, from the `Begin` of a job to its end.
-/

/-- What names a block in the cache. -/
def BlockRef.key (b : BlockRef) : ℕ × ℕ := (b.fileId, b.offset)

/-- A cache that is a set of (file, offset) blocks. -/
def setCache : CacheOps (Finset (ℕ × ℕ)) where
  evict b cache := cache.erase b.key
  isCached b cache := (cache, decide (b.key ∈ cache))

/-- Probing the set leaves it alone. -/
theorem setCache_quiet : setCache.Quiet := fun _ _ => rfl

/-- The intervals of two blocks have a range in common. -/
def BlockRef.Meets (a b : BlockRef) : Prop := ∃ r, a.Covers r ∧ b.Covers r

/-- The input blocks as a set. -/
def keysOf (blocks : List BlockRef) : Finset (ℕ × ℕ) := (blocks.map BlockRef.key).toFinset

/-- A block adds its key. -/
theorem keysOf_cons (b : BlockRef) (blocks : List BlockRef) :
    keysOf (b :: blocks) = insert b.key (keysOf blocks) := by
  simp [keysOf]

/-- **The pass over the input blocks.** A repeated block is found once only. -/
theorem evictCached_spec (blocks : List BlockRef) : ∀ cache : Finset (ℕ × ℕ),
    (evictCached setCache blocks cache).2 = cache \ keysOf blocks ∧
    (evictCached setCache blocks cache).1.length = (keysOf blocks ∩ cache).card := by
  induction blocks with
  | nil =>
    intro cache
    simp [evictCached, keysOf]
  | cons b bs ih =>
    intro cache
    rw [keysOf_cons]
    by_cases hin : b.key ∈ cache
    · -- the block is found, and gone for the rest of the list
      obtain ⟨hcache, hcount⟩ := ih (cache.erase b.key)
      have hstep : evictCached setCache (b :: bs) cache =
          (b :: (evictCached setCache bs (cache.erase b.key)).1,
            (evictCached setCache bs (cache.erase b.key)).2) := if_pos (decide_eq_true hin)
      rw [hstep]
      constructor
      · show (evictCached setCache bs (cache.erase b.key)).2 = _
        rw [hcache]
        ext k
        simp only [Finset.mem_sdiff, Finset.mem_erase, Finset.mem_insert]
        tauto
      · -- what is left to find is in the rest of the cache
        have hsplit : insert b.key (keysOf bs) ∩ cache =
            insert b.key (keysOf bs ∩ cache.erase b.key) := by
          ext k
          simp only [Finset.mem_inter, Finset.mem_insert, Finset.mem_erase]
          constructor
          · rintro ⟨rfl | hk, hmem⟩
            · exact .inl rfl
            · by_cases heq : k = b.key
              · exact .inl heq
              · exact .inr ⟨hk, heq, hmem⟩
          · rintro (rfl | ⟨hk, -, hmem⟩)
            · exact ⟨.inl rfl, hin⟩
            · exact ⟨.inr hk, hmem⟩
        have hnew : b.key ∉ keysOf bs ∩ cache.erase b.key := by simp
        rw [List.length_cons, hcount, hsplit, Finset.card_insert_of_notMem hnew]
    · -- it is not there, so nothing happens
      obtain ⟨hcache, hcount⟩ := ih cache
      have hstep : evictCached setCache (b :: bs) cache = evictCached setCache bs cache :=
        if_neg (by simpa [setCache] using hin)
      rw [hstep, hcache, hcount, Finset.insert_inter_of_notMem hin]
      refine ⟨?_, rfl⟩
      ext k
      simp only [Finset.mem_sdiff, Finset.mem_insert, not_or]
      refine ⟨fun ⟨hk, hnot⟩ => ⟨hk, fun heq => hin (heq ▸ hk), hnot⟩,
        fun ⟨hk, _, hnot⟩ => ⟨hk, hnot⟩⟩

/-- **The spans of the cached blocks** overlap exactly what meets one of them. -/
theorem blockOverlaps_live {s : LeaperImpl} {blocks : List BlockRef} (hin : s.Inputs blocks)
    (cache : Finset (ℕ × ℕ)) {out : BlockRef} (hout : out.firstRange ≤ out.lastRange) :
    blockOverlaps out (toSpans (expandRanges s.opt.maxRangeId
        (cachedBlocks setCache blocks cache).1)) = true ↔
      ∃ b ∈ blocks, b.key ∈ cache ∧ out.Meets b := by
  rw [cachedBlocks_of_quiet setCache_quiet]
  have hlive : (blocks.filter fun b => (setCache.isCached b cache).2).Sublist blocks :=
    List.filter_sublist
  have hmem := fun r => mem_expandRanges (r := r)
    (length_expandPush_sublist hlive hin.forward hin.few)
    (fun b hb => hin.forward b (hlive.subset hb)) (fun b hb => hin.inside b (hlive.subset hb))
  have hsorted : (expandRanges s.opt.maxRangeId
      (blocks.filter fun b => (setCache.isCached b cache).2)).Pairwise (· ≤ ·) :=
    (pairwise_sortUnique _).imp le_of_lt
  rw [blockOverlaps_toSpans hsorted hout]
  constructor
  · rintro ⟨r, hr, hcovers⟩
    obtain ⟨b, hb, hbr⟩ := (hmem r).mp hr
    obtain ⟨hb, hcached⟩ := List.mem_filter.mp hb
    exact ⟨b, hb, of_decide_eq_true hcached, r, hcovers, hbr⟩
  · rintro ⟨b, hb, hcached, r, hcovers, hbr⟩
    exact ⟨r, (hmem r).mpr ⟨b, List.mem_filter.mpr ⟨hb, decide_eq_true hcached⟩, hbr⟩, hcovers⟩

/-- The policy's decision. -/
theorem decideJob_incremental {κ : Type*} {s : LeaperImpl}
    (hpol : s.opt.policy = .incrementalWarmup) (ops : CacheOps κ) (cache : κ)
    (info : CompactionInfo) (blocks : List BlockRef) (nowUs : ℕ) :
    s.decideJob ops cache info blocks nowUs = s.decideIncremental ops cache blocks := by
  unfold decideJob
  rw [hpol]
  exact if_neg (by simp)

/-- **The incremental warm-up is exact.** From any state: a job's `Begin` takes its input blocks
    out of the cache and counts the distinct ones that were cached; and whenever the job is the
    innermost one, until it ends, it wants an output block iff the block's interval meets that of
    an input block that was cached when it began. -/
theorem incrementalWarmup_exact (w : World (Finset (ℕ × ℕ)))
    (hpol : w.core.opt.policy = .incrementalWarmup) {blocks : List BlockRef}
    (hin : w.core.Inputs blocks) (info : CompactionInfo) (nowUs : ℕ) :
    let begun := (step setCache w (.compactionBegin info blocks nowUs)).1
    begun.cache = w.cache \ keysOf blocks ∧
    begun.core.stats.blocksEvicted =
      w.core.stats.blocksEvicted + (keysOf blocks ∩ w.cache).card ∧
    ∀ inner : List (Event (Finset (ℕ × ℕ))),
      (brackets Event.bracket false).Accepts 0 inner →
      (brackets Event.bracket false).after 0 inner = 0 →
      ∀ out : BlockRef, out.firstRange ≤ out.lastRange →
        ((run (step setCache) begun inner).core.wants out = true ↔
          ∃ b ∈ blocks, b.key ∈ w.cache ∧ out.Meets b) := by
  intro begun
  obtain ⟨hcache, hcount⟩ := evictCached_spec blocks w.cache
  have hprobed : (cachedBlocks setCache blocks w.cache).2 = w.cache := by
    rw [cachedBlocks_of_quiet setCache_quiet]
  have hdecide : (w.core.pushCtx info).decideJob setCache w.cache info blocks nowUs =
      (w.core.pushCtx info).decideIncremental setCache w.cache blocks :=
    decideJob_incremental hpol setCache w.cache info blocks nowUs
  refine ⟨?_, ?_, fun inner hacc hbal out hout => ?_⟩
  · show (LeaperImpl.decideJob _ _ _ _ _ _).cache = _
    rw [hdecide]
    show (evictCached setCache blocks (cachedBlocks setCache blocks w.cache).2).2 = _
    rw [hprobed, hcache]
  · show (LeaperImpl.decideJob _ _ _ _ _ _).stats.blocksEvicted = _
    rw [hdecide, ← hcount]
    show _ + (evictCached setCache blocks (cachedBlocks setCache blocks w.cache).2).1.length = _
    rw [hprobed]
    rfl
  · -- the job's spans are still those it began with
    have hspans : (run (step setCache) begun inner).core.ctx.hotT2 =
        ((w.core.pushCtx info).decideIncremental setCache w.cache blocks).hotT2 := by
      rw [run_job_spans setCache hacc hbal]
      show (LeaperImpl.decideJob _ _ _ _ _ _).hotT2 = _
      rw [hdecide]
    have hpol' : (run (step setCache) begun inner).core.opt.policy = .incrementalWarmup := by
      rw [run_opt, step_opt, hpol]
    unfold wants
    rw [hpol', hspans]
    exact blockOverlaps_live hin w.cache hout

/-- Three input blocks, one of them twice, with one of them and a foreign block cached: the job
    asks about an output block that meets the cached one after a flush inside it. -/
theorem incrementalWarmup_exact_sample :
    let blocks : List BlockRef :=
      [{ fileId := 1, offset := 0, firstRange := 2, lastRange := 4 },
       { fileId := 1, offset := 8, firstRange := 5, lastRange := 9 },
       { fileId := 1, offset := 0, firstRange := 2, lastRange := 4 }]
    let w : World (Finset (ℕ × ℕ)) :=
      { core := { sampleCore with opt := { sampleCore.opt with policy := .incrementalWarmup } }
        cache := {(1, 0), (7, 7)} }
    let begun := (step setCache w (.compactionBegin {} blocks 0)).1
    begun.cache = {(7, 7)} ∧ begun.core.stats.blocksEvicted = 1 ∧
      (run (step setCache) begun
        [.compactionBegin { isFlush := true } [] 1, .compactionEnd]).core.wants
          { firstRange := 4, lastRange := 5 } = true := by
  intro blocks w begun
  have hin : w.core.Inputs blocks := by
    refine ⟨by decide, by decide, ?_⟩
    exact (length_expandPush_iff (by decide) blocks).mpr (by decide)
  obtain ⟨hcache, hcount, hwants⟩ := incrementalWarmup_exact w rfl hin {} 0
  refine ⟨hcache.trans (by decide), hcount.trans (by decide), ?_⟩
  refine (hwants _ (by decide) (by decide) _ (by decide)).mpr ?_
  exact ⟨_, List.mem_cons_self, by decide, 4, by decide, by decide⟩

end Leaper
