import Leaper.Core.TwoPhase

namespace Leaper

open Lib

/-!
# What the candidate cap drops

`ExpandRanges` tests its cap on the list it is still pushing to, repetitions included, and
de-duplicates afterwards.  The result is therefore the set of the first `kMaxCandidates + 1` ids
pushed, and whether a range is lost depends on the order and the overlap of the blocks, not on
the number of distinct ranges.

* `expandPush_eq_take` — what is pushed;
* `candidate_cap_iff` — nothing is lost exactly when every id comes up early enough, and then
  phase 1 evicts no block with an id that was never scored.
-/

/-- The ids of all blocks, clamped to the key space: what `ExpandRanges` is to return. -/
def unionIds (cap : ℕ) (blocks : List BlockRef) : List ℕ :=
  sortUnique (blocks.flatMap (·.ids cap))

/-- Every id of the blocks is among the first `kMaxCandidates + 1` ids pushed. -/
def AllEarly (cap : ℕ) (blocks : List BlockRef) : Prop :=
  ∀ r ∈ unionIds cap blocks, r ∈ (blocks.flatMap (·.ids cap)).take (kMaxCandidates + 1)

/-- The loop over one block, cut off at `kMaxCandidates + 1` ids. -/
theorem expandLoop_eq_take {hi : ℕ} (hhi : hi + 1 < 2 ^ 64) (fuel : ℕ) : ∀ r out,
    out.length ≤ kMaxCandidates → kMaxCandidates < fuel + out.length →
    expandLoop fuel r hi out = (out ++ List.range' r (hi + 1 - r)).take (kMaxCandidates + 1) := by
  induction fuel with
  | zero =>
    intro r out hlen hfuel
    omega
  | succ fuel ih =>
    intro r out hlen hfuel
    have hlen' : (out ++ [r]).length = out.length + 1 := by simp
    rw [expandLoop]
    by_cases hle : r ≤ hi
    · have hsucc : hi + 1 - r = (hi + 1 - (r + 1)) + 1 := by omega
      have hids : out ++ List.range' r (hi + 1 - r) =
          (out ++ [r]) ++ List.range' (r + 1) (hi + 1 - (r + 1)) := by
        rw [hsucc, List.range'_succ, List.append_assoc]
        rfl
      rw [if_pos hle, hids]
      by_cases hfull : kMaxCandidates < (out ++ [r]).length
      · -- the id just pushed is the last one
        rw [if_pos hfull, List.take_append_of_le_length (by omega),
          List.take_of_length_le (by omega)]
      · have hwrap : u64 (r + 1) = r + 1 := Nat.mod_eq_of_lt (by omega)
        rw [if_neg hfull, hwrap]
        exact ih (r + 1) (out ++ [r]) (by omega) (by omega)
    · have hzero : hi + 1 - r = 0 := by omega
      rw [if_neg hle, hzero, List.range'_zero, List.append_nil, List.take_of_length_le (by omega)]

/-- **What is pushed**: the ids of the blocks one after another, cut off. -/
theorem expandPush_eq_take {cap : ℕ} {blocks : List BlockRef}
    (hwrap : ∀ b ∈ blocks, min b.lastRange cap + 1 < 2 ^ 64) : ∀ out, out.length ≤ kMaxCandidates →
    expandPush cap blocks out = (out ++ blocks.flatMap (·.ids cap)).take (kMaxCandidates + 1) := by
  induction blocks with
  | nil =>
    intro out hlen
    rw [expandPush, List.flatMap_nil, List.append_nil, List.take_of_length_le (by omega)]
  | cons b bs ih =>
    intro out hlen
    have hloop := expandLoop_eq_take (hwrap b (by simp)) (kMaxCandidates + 1)
      (min b.firstRange cap) out hlen (by omega)
    have hids : List.range' (min b.firstRange cap) (min b.lastRange cap + 1 - min b.firstRange cap)
        = b.ids cap := rfl
    rw [hids] at hloop
    rw [expandPush, hloop, List.flatMap_cons, ← List.append_assoc]
    by_cases hfull : kMaxCandidates < ((out ++ b.ids cap).take (kMaxCandidates + 1)).length
    · rw [if_pos hfull]
      rw [List.length_take] at hfull
      exact (List.take_append_of_le_length (by omega)).symm
    · rw [if_neg hfull]
      rw [List.length_take] at hfull
      rw [List.take_of_length_le (by omega : (out ++ b.ids cap).length ≤ _)]
      exact ih (fun b' hb' => hwrap b' (by simp [hb'])) _ (by omega)

/-- **When the cap drops nothing.** -/
theorem expandRanges_eq_unionIds_iff {cap : ℕ} {blocks : List BlockRef}
    (hwrap : ∀ b ∈ blocks, min b.lastRange cap + 1 < 2 ^ 64) :
    expandRanges cap blocks = unionIds cap blocks ↔ AllEarly cap blocks := by
  have hpush := expandPush_eq_take hwrap [] (Nat.zero_le _)
  rw [List.nil_append] at hpush
  unfold expandRanges unionIds AllEarly
  rw [hpush, sortUnique_eq_iff]
  constructor
  · intro h r hr
    rw [unionIds, mem_sortUnique] at hr
    exact (h r).mpr hr
  · intro h r
    refine ⟨List.mem_of_mem_take, fun hr => h r ?_⟩
    rw [unionIds, mem_sortUnique]
    exact hr

/-- Blocks with few ids, repetitions counted, lose none. -/
theorem AllEarly.of_idCount {cap : ℕ} {blocks : List BlockRef}
    (h : idCount cap blocks ≤ kMaxCandidates + 1) : AllEarly cap blocks := by
  intro r hr
  rw [unionIds, mem_sortUnique] at hr
  rw [List.take_of_length_le]
  · exact hr
  · rw [List.length_flatMap]
    exact h

/-- **Blocks behind the cap are not considered**: once the blocks so far have more than
    `kMaxCandidates` ids, repetitions counted, an id of none of them is dropped. -/
theorem notMem_expandRanges_of_full {cap : ℕ} {early late : List BlockRef}
    (hwrap : ∀ b ∈ early ++ late, min b.lastRange cap + 1 < 2 ^ 64)
    (hfull : kMaxCandidates < idCount cap early) {r : ℕ} (hr : ∀ b ∈ early, r ∉ b.ids cap) :
    r ∉ expandRanges cap (early ++ late) := by
  have hpush := expandPush_eq_take hwrap [] (Nat.zero_le _)
  have hlen : kMaxCandidates + 1 ≤ (early.flatMap (·.ids cap)).length := by
    rw [List.length_flatMap]
    exact hfull
  rw [List.nil_append, List.flatMap_append, List.take_append_of_le_length hlen] at hpush
  intro hmem
  rw [expandRanges, mem_sortUnique, hpush] at hmem
  obtain ⟨b, hb, hrb⟩ := List.mem_flatMap.mp (List.mem_of_mem_take hmem)
  exact hr b hb hrb

namespace LeaperImpl

theorem mem_of_mem_coldBlocks {blocks : List BlockRef} {keep : List RangeSpan} {b : BlockRef}
    (h : b ∈ coldBlocks blocks keep) : b ∈ blocks := by
  obtain ⟨p, hp, rfl⟩ := List.mem_map.mp h
  have hmem : p.1 ∈ sortBlocks blocks := List.fst_mem_of_mem_zipIdx (List.mem_of_mem_filter hp)
  exact (sortBlocks_perm blocks).mem_iff.mp hmem

/-- A leaper job evicts input blocks only. -/
theorem mem_of_mem_evicted {κ : Type*} {s : LeaperImpl} (hpol : s.opt.policy = .leaper)
    (ops : CacheOps κ) (cache : κ) (info : CompactionInfo) {blocks : List BlockRef} (now : ℕ)
    {b : BlockRef} (h : b ∈ (s.onCompactionBegin ops cache info blocks now).2.evicted) :
    b ∈ blocks := by
  have hdecide : b ∈ ((s.pushCtx info).decideJob ops cache info blocks now).evicted := h
  have hpol' : (s.pushCtx info).opt.policy = .leaper := hpol
  unfold decideJob at hdecide
  simp only [hpol'] at hdecide
  split_ifs at hdecide
  · exact absurd hdecide (by simp)
  · unfold decideLeaper at hdecide
    simp only at hdecide
    split_ifs at hdecide
    · exact absurd hdecide (by simp)
    · exact mem_of_mem_coldBlocks hdecide
    · exact absurd hdecide (by simp)

/-- **An unscored block is taken for cold**, whatever the models say: phase 1 evicts every input
    block none of whose ids is a candidate. -/
theorem mem_evicted_of_unscored {κ : Type*} {s : LeaperImpl} {now : ℕ} (hgood : s.MemoOk now)
    (hpol : s.opt.policy = .leaper) (hsus : s.ssad.suspended = false)
    (hdry : s.opt.dryRun = false) (hphase : s.opt.enablePhase1 = true) (ops : CacheOps κ)
    (cache : κ) {info : CompactionInfo} (hflush : info.isFlush = false) {blocks : List BlockRef}
    (hle : ∀ b ∈ blocks, b.firstRange ≤ b.lastRange) {b : BlockRef} (hb : b ∈ blocks)
    (hun : ∀ x, b.Covers x → x ∉ s.candidates blocks) :
    b ∈ (s.decideJob ops cache info blocks now).evicted := by
  have hsorted := s.pairwise_hotSet blocks now 1 (s.k1 info)
  rw [(decideJob_leaper hgood hpol hsus hdry ops cache info blocks).2, hflush, hphase]
  unfold jobHot1
  rw [hflush]
  show b ∈ coldBlocks blocks (toSpans (s.hotSet blocks now 1 (s.k1 info)))
  rw [coldBlocks_eq (spanned_toSpans hsorted) hle]
  refine List.mem_filter.mpr ⟨(sortBlocks_perm blocks).mem_iff.mpr hb, ?_⟩
  rw [Bool.not_eq_true', ← Bool.not_eq_true, blockOverlaps_toSpans hsorted (hle b hb)]
  -- a hot id is a candidate
  rintro ⟨x, hx, hcov⟩
  unfold hotSet at hx
  rw [mem_sortUnique] at hx
  exact hun x hcov (List.mem_of_mem_filter hx)

end LeaperImpl

/-- **The candidate cap.** For blocks whose clamped ends stay below the last 64-bit id,
    `ExpandRanges` returns the union of their clamped ids exactly when every id is among the
    first `kMaxCandidates + 1` pushed; and then every id of a block that phase 1 evicts has
    been scored. -/
theorem candidate_cap_iff {κ : Type*} {s : LeaperImpl} (hpol : s.opt.policy = .leaper)
    {blocks : List BlockRef} (hwrap : ∀ b ∈ blocks, min b.lastRange s.opt.maxRangeId + 1 < 2 ^ 64) :
    (expandRanges s.opt.maxRangeId blocks = unionIds s.opt.maxRangeId blocks ↔
      AllEarly s.opt.maxRangeId blocks) ∧
    (AllEarly s.opt.maxRangeId blocks → ∀ (ops : CacheOps κ) cache info now,
      ∀ b ∈ (s.onCompactionBegin ops cache info blocks now).2.evicted,
        ∀ r ∈ b.ids s.opt.maxRangeId, r ∈ s.candidates blocks) := by
  have hiff := expandRanges_eq_unionIds_iff hwrap
  refine ⟨hiff, fun hearly ops cache info now b hb r hr => ?_⟩
  have hmem := LeaperImpl.mem_of_mem_evicted hpol ops cache info now hb
  unfold LeaperImpl.candidates
  rw [hiff.mpr hearly, unionIds, mem_sortUnique, mem_sortUnique, List.mem_flatMap]
  exact ⟨b, hmem, hr⟩

theorem candidate_cap_sample : expandRanges 63 sampleBlocks = unionIds 63 sampleBlocks :=
  (candidate_cap_iff (κ := Unit) (s := sampleCore) rfl (by decide)).1.mpr
    (AllEarly.of_idCount (by decide))

/-! ### A job that loses a block -/

/-- Two wide blocks over the same ids, then one over the id they leave out. -/
def crowdedBlocks : List BlockRef :=
  [{ firstRange := 1, lastRange := 2 ^ 20 - 1 },
   { firstRange := 1, lastRange := 2 ^ 20 - 1, offset := 1 },
   { firstRange := 0, lastRange := 0, offset := 2 }]

/-- A leaper core that predicts every range hot. -/
def hotCore : LeaperImpl where
  opt := { policy := .leaper, historySlots := 1, historySlots_lt := one_lt_historyLimit }
  mapper := sampleCore.mapper
  collector := LeaperImpl.newCollector
    { policy := .leaper, historySlots := 1, historySlots_lt := one_lt_historyLimit }
  predictor := { models := [fun _ => 1], history := 1 }
  oracle := fun _ => none

theorem length_unionIds_crowdedBlocks :
    (unionIds (2 ^ 20) crowdedBlocks).length ≤ kMaxCandidates := by
  have hnodup : (unionIds (2 ^ 20) crowdedBlocks).Nodup := (pairwise_sortUnique _).imp ne_of_lt
  have hsub : unionIds (2 ^ 20) crowdedBlocks ⊆ List.range kMaxCandidates := by
    intro r hr
    rw [unionIds, mem_sortUnique, List.mem_flatMap] at hr
    obtain ⟨b, hb, hr⟩ := hr
    have hlast := (by decide : ∀ b ∈ crowdedBlocks, b.lastRange ≤ 2 ^ 20 - 1) b hb
    rw [BlockRef.ids, List.mem_range'_1] at hr
    rw [List.mem_range]
    unfold kMaxCandidates
    omega
  exact (List.subperm_of_subset hnodup hsub).length_le.trans (List.length_range).le

theorem zero_notMem_expandRanges_crowdedBlocks : 0 ∉ expandRanges (2 ^ 20) crowdedBlocks := by
  have hlen : ∀ b : BlockRef, (b.ids (2 ^ 20)).length =
      min b.lastRange (2 ^ 20) + 1 - min b.firstRange (2 ^ 20) := fun b => List.length_range'
  -- the cap is reached within the second wide block
  refine @notMem_expandRanges_of_full _ (crowdedBlocks.take 2) (crowdedBlocks.drop 2)
    (by decide) ?_ _ ?_
  · simp only [idCount, hlen]
    decide
  · intro b hb hmem
    have hfirst := (by decide : ∀ b ∈ crowdedBlocks.take 2, 1 ≤ b.firstRange) b hb
    rw [BlockRef.ids, List.mem_range'_1] at hmem
    omega

/-- **The cap drops a range that fits.** The blocks have `kMaxCandidates` distinct ids, but id 0
    is never pushed; its block is evicted although every range is predicted hot. -/
theorem candidate_cap_drops :
    (unionIds (2 ^ 20) crowdedBlocks).length ≤ kMaxCandidates ∧
    expandRanges (2 ^ 20) crowdedBlocks ≠ unionIds (2 ^ 20) crowdedBlocks ∧
    (⟨0, 2, 0, 0, 0⟩ : BlockRef) ∈
      (hotCore.onCompactionBegin listCache [] {} crowdedBlocks 0).2.evicted ∧
    0 ∉ hotCore.candidates crowdedBlocks := by
  have hzero := zero_notMem_expandRanges_crowdedBlocks
  have hcand : 0 ∉ hotCore.candidates crowdedBlocks := by
    unfold LeaperImpl.candidates
    rw [mem_sortUnique]
    exact hzero
  refine ⟨length_unionIds_crowdedBlocks, fun heq => hzero ?_, ?_, hcand⟩
  · rw [heq, unionIds, mem_sortUnique, List.mem_flatMap]
    exact ⟨⟨0, 2, 0, 0, 0⟩, by decide, by decide⟩
  · have hmemo : (hotCore.pushCtx {}).MemoOk 0 :=
      MemoInv.ok (MemoInv.of_empty rfl hotCore.collector hotCore.opt.hotThreshold 0 :
        MemoInv [] hotCore.predictor _ _ 0) 0 le_rfl
    refine LeaperImpl.mem_evicted_of_unscored hmemo rfl rfl rfl rfl listCache [] rfl (by decide)
      (by decide) fun x hx => ?_
    have hx0 : x = 0 := Nat.le_zero.mp hx.2
    rw [hx0]
    exact hcand

end Leaper
