import Leaper.Core.Types
import Leaper.Lib.Bisect
import Mathlib.Data.List.GetD
import Mathlib.Data.List.TakeWhile

namespace Leaper

open Lib

/-!
# The overlap check (`leaper/src/overlap.cc`)

`toSpans` merges sorted hot range ids into maximal spans, `blockOverlaps` tests one block
against them by binary search, and `selectOverlapping` picks between that and a
forward-only merge from a cost model.

* `covered_toSpans` — the spans cover exactly the ids they were made from;
* `blockOverlaps_toSpans` — a block overlaps the spans iff it contains a hot id;
* `selectOverlapping_eq` — both paths select exactly the overlapping blocks, in order;
* `overlap_exact` — selection and single test against plain membership of hot ids.
-/

/-- A run of consecutive hot range ids, both ends inclusive. -/
structure RangeSpan where
  beginId : ℕ := 0
  endId : ℕ := 0
  deriving DecidableEq, Repr

/-- The loop body of `ToSpans`; the spans are kept newest first, so `spans.back()` is the
    head.  The `+ 1` wraps at the largest id. -/
def pushRange (spans : List RangeSpan) (r : ℕ) : List RangeSpan :=
  match spans with
  | [] => [⟨r, r⟩]
  | s :: rest =>
    if r ≤ u64 (s.endId + 1) then ⟨s.beginId, max s.endId r⟩ :: rest else ⟨r, r⟩ :: s :: rest

/-- Merge sorted range ids into spans. -/
def toSpans (sortedHot : List ℕ) : List RangeSpan := (sortedHot.foldl pushRange []).reverse

/-- Does the block overlap any span?  Binary search for the first span that ends at or
    after the block's first range. -/
def blockOverlaps (block : BlockRef) (spans : List RangeSpan) : Bool :=
  let lo := lowerBound (fun mid => decide ((spans.getD mid {}).endId < block.firstRange))
    spans.length
  decide (lo < spans.length ∧ (spans.getD lo {}).beginId ≤ block.lastRange)

/-- `for (x = m; x > 1; x >>= 1) log_m += 1`, started at `acc`. -/
def logLoop : ℕ → ℕ → ℕ → ℕ
  | 0, _, acc => acc
  | fuel + 1, x, acc => if 1 < x then logLoop fuel (x / 2) (acc + 1) else acc

/-- The sort-merge path.  The span cursor `j` is the suffix of spans not yet discarded;
    it only moves forward, and the scan stops when it is used up. -/
def mergeScan : ℕ → List BlockRef → List RangeSpan → List ℕ
  | _, [], _ => []
  | i, b :: bs, spans =>
    match spans.dropWhile (fun s => decide (s.endId < b.firstRange)) with
    | [] => []
    | s :: rest =>
      if s.beginId ≤ b.lastRange then i :: mergeScan (i + 1) bs (s :: rest)
      else mergeScan (i + 1) bs (s :: rest)

/-- Indices of the blocks that overlap any span: binary search per block when
    `n * log_m < n + m`, otherwise the merge. -/
def selectOverlapping (blocks : List BlockRef) (spans : List RangeSpan) : List ℕ :=
  if blocks = [] ∨ spans = [] then []
  else
    let m := blocks.length
    let n := spans.length
    if n * logLoop m m 1 < n + m then
      (blocks.zipIdx.filter (fun p => blockOverlaps p.1 spans)).map (·.2)
    else mergeScan 0 blocks spans

/-! ### Spans and the ids they cover -/

/-- The id `x` lies in one of the spans. -/
def Covered (spans : List RangeSpan) (x : ℕ) : Prop :=
  ∃ s ∈ spans, s.beginId ≤ x ∧ x ≤ s.endId

/-- Spans in the order `ToSpans` emits them: each runs forward, and each ends no later
    than the next begins. -/
structure Spanned (spans : List RangeSpan) : Prop where
  forward : ∀ s ∈ spans, s.beginId ≤ s.endId
  ordered : spans.Pairwise (fun a b => a.endId ≤ b.beginId)

/-- An id is covered by the first span or by the rest. -/
theorem covered_cons {s : RangeSpan} {spans : List RangeSpan} {x : ℕ} :
    Covered (s :: spans) x ↔ (s.beginId ≤ x ∧ x ≤ s.endId) ∨ Covered spans x := by
  simp [Covered]

/-- The invariant of the `ToSpans` loop after the ids `done`, spans newest first. -/
structure SpansOf (done : List ℕ) (spans : List RangeSpan) : Prop where
  covered : ∀ x, Covered spans x ↔ x ∈ done
  forward : ∀ s ∈ spans, s.beginId ≤ s.endId
  ordered : spans.Pairwise (fun a b => b.endId ≤ a.beginId)

/-- Extending the newest span by `r`, which is its end or the id after it, adds exactly
    `r` to what is covered. -/
theorem SpansOf.extend {done : List ℕ} {s : RangeSpan} {rest : List RangeSpan} {r : ℕ}
    (h : SpansOf done (s :: rest)) (hle : s.endId ≤ r) (hr : r ≤ s.endId + 1) :
    SpansOf (done ++ [r]) (⟨s.beginId, max s.endId r⟩ :: rest) := by
  have hfwd : s.beginId ≤ s.endId := h.forward s (by simp)
  refine ⟨fun x => ?_, ?_, ?_⟩
  · -- the longer span covers one id more, `r` itself, or none if `r` was the end
    have hx := h.covered x
    rw [covered_cons] at hx ⊢
    rw [List.mem_append, List.mem_singleton, ← hx, max_eq_right hle]
    show (s.beginId ≤ x ∧ x ≤ r) ∨ _ ↔ _
    constructor
    · rintro (⟨h1, h2⟩ | h1)
      · by_cases hxr : x = r
        · exact Or.inr hxr
        · exact Or.inl (Or.inl ⟨h1, by omega⟩)
      · exact Or.inl (Or.inr h1)
    · rintro ((⟨h1, h2⟩ | h1) | rfl)
      · exact Or.inl ⟨h1, by omega⟩
      · exact Or.inr h1
      · exact Or.inl ⟨by omega, le_rfl⟩
  · intro t ht
    rcases List.mem_cons.mp ht with rfl | ht
    · exact le_trans hfwd (le_max_left _ _)
    · exact h.forward t (List.mem_cons_of_mem _ ht)
  · exact List.pairwise_cons.mpr (List.pairwise_cons.mp h.ordered)

/-- Opening a new span for an id at or beyond everything covered. -/
theorem SpansOf.push {done : List ℕ} {spans : List RangeSpan} {r : ℕ}
    (h : SpansOf done spans) (hle : ∀ s ∈ spans, s.endId ≤ r) :
    SpansOf (done ++ [r]) (⟨r, r⟩ :: spans) := by
  refine ⟨fun x => ?_, ?_, List.pairwise_cons.mpr ⟨hle, h.ordered⟩⟩
  · rw [covered_cons, h.covered, List.mem_append, List.mem_singleton, ← le_antisymm_iff, or_comm,
      eq_comm]
  · intro t ht
    rcases List.mem_cons.mp ht with rfl | ht
    · exact le_rfl
    · exact h.forward t ht

/-- One id more, no smaller than those before: it extends the last span or opens one. -/
theorem SpansOf.pushRange {done : List ℕ} {spans : List RangeSpan} {r : ℕ}
    (h : SpansOf done spans) (hle : ∀ x ∈ done, x ≤ r) :
    SpansOf (done ++ [r]) (pushRange spans r) := by
  -- Every span ends at an id of `done`, so at or before `r`.
  have hend : ∀ s ∈ spans, s.endId ≤ r := fun s hs =>
    hle _ ((h.covered _).mp ⟨s, hs, h.forward s hs, le_rfl⟩)
  cases spans with
  | nil => exact h.push hend
  | cons s rest =>
    simp only [Leaper.pushRange]
    by_cases hr : r ≤ u64 (s.endId + 1)
    · rw [if_pos hr]
      have hwrap : u64 (s.endId + 1) ≤ s.endId + 1 := Nat.mod_le _ _
      exact h.extend (hend s (by simp)) (le_trans hr hwrap)
    · rw [if_neg hr]
      exact h.push hend

/-- **Loop invariant of `ToSpans`.** -/
theorem spansOf_foldl (hot done : List ℕ) {spans : List RangeSpan}
    (hsorted : (done ++ hot).Pairwise (· ≤ ·)) (h : SpansOf done spans) :
    SpansOf (done ++ hot) (hot.foldl Leaper.pushRange spans) := by
  induction hot generalizing done spans with
  | nil => simpa using h
  | cons r hot ih =>
    have hle : ∀ x ∈ done, x ≤ r := fun x hx =>
      (List.pairwise_append.mp hsorted).2.2 x hx r (by simp)
    have hnext := ih (done ++ [r]) (by simpa using hsorted) (h.pushRange hle)
    simpa using hnext

/-- The spans of a sorted list cover its ids and no others. -/
theorem spansOf_toSpans {hot : List ℕ} (hsorted : hot.Pairwise (· ≤ ·)) :
    SpansOf hot (toSpans hot).reverse := by
  have hinit : SpansOf [] [] := ⟨fun x => by simp [Covered], by simp, List.Pairwise.nil⟩
  have h := spansOf_foldl hot [] (by simpa using hsorted) hinit
  simpa [toSpans] using h

/-- The spans of a sorted list are in order. -/
theorem spanned_toSpans {hot : List ℕ} (hsorted : hot.Pairwise (· ≤ ·)) :
    Spanned (toSpans hot) := by
  have h := spansOf_toSpans hsorted
  exact ⟨fun s hs => h.forward s (by simpa using hs),
    List.pairwise_reverse.mp h.ordered⟩

/-- The spans cover exactly the ids they were made from. -/
theorem covered_toSpans {hot : List ℕ} (hsorted : hot.Pairwise (· ≤ ·)) (x : ℕ) :
    Covered (toSpans hot) x ↔ x ∈ hot := by
  rw [← (spansOf_toSpans hsorted).covered x]
  simp [Covered]

/-! ### One block against the spans -/

/-- The block and the spans share a range id. -/
def Meets (b : BlockRef) (spans : List RangeSpan) : Prop := ∃ x, b.Covers x ∧ Covered spans x

theorem Spanned.getD_le {spans : List RangeSpan} (h : Spanned spans) {i j : ℕ} (hij : i < j)
    (hj : j < spans.length) : (spans.getD i {}).endId ≤ (spans.getD j {}).beginId := by
  have hi : i < spans.length := by omega
  rw [List.getD_eq_getElem _ _ hi, List.getD_eq_getElem _ _ hj]
  exact List.pairwise_iff_getElem.mp h.ordered i j hi hj hij

theorem Spanned.getD_forward {spans : List RangeSpan} (h : Spanned spans) {i : ℕ}
    (hi : i < spans.length) : (spans.getD i {}).beginId ≤ (spans.getD i {}).endId := by
  rw [List.getD_eq_getElem _ _ hi]
  exact h.forward _ (List.getElem_mem hi)

/-- A block meets one span iff the span begins before the block ends and ends after it
    begins. -/
theorem meets_singleton_iff {b : BlockRef} {s : RangeSpan} (hb : b.firstRange ≤ b.lastRange)
    (hs : s.beginId ≤ s.endId) :
    (∃ x, b.Covers x ∧ s.beginId ≤ x ∧ x ≤ s.endId) ↔
      s.beginId ≤ b.lastRange ∧ b.firstRange ≤ s.endId := by
  constructor
  · rintro ⟨x, ⟨h1, h2⟩, h3, h4⟩
    exact ⟨le_trans h3 h2, le_trans h1 h4⟩
  · rintro ⟨h1, h2⟩
    exact ⟨max b.firstRange s.beginId, ⟨le_max_left _ _, max_le hb h1⟩, le_max_right _ _,
      max_le h2 hs⟩

/-- **Binary search is exact**: on ordered spans `blockOverlaps` says whether the block
    meets any of them. -/
theorem blockOverlaps_iff {b : BlockRef} {spans : List RangeSpan} (h : Spanned spans)
    (hb : b.firstRange ≤ b.lastRange) : blockOverlaps b spans = true ↔ Meets b spans := by
  have hdown : ∀ i j, i ≤ j → j < spans.length →
      decide ((spans.getD j {}).endId < b.firstRange) = true →
      decide ((spans.getD i {}).endId < b.firstRange) = true := by
    intro i j hij hj hlt
    simp only [decide_eq_true_eq] at hlt ⊢
    rcases Nat.eq_or_lt_of_le hij with rfl | hij
    · exact hlt
    · have h1 := h.getD_le hij hj
      have h2 := h.getD_forward hj
      omega
  simp only [blockOverlaps, decide_eq_true_eq]
  constructor
  · rintro ⟨hlt, hbeg⟩
    have hend := not_below_of_lowerBound_le hdown le_rfl hlt
    simp only [decide_eq_false_iff_not, not_lt] at hend
    obtain ⟨x, hx, hsx⟩ := (meets_singleton_iff hb (h.getD_forward hlt)).mpr ⟨hbeg, hend⟩
    refine ⟨x, hx, _, ?_, hsx⟩
    rw [List.getD_eq_getElem _ _ hlt]
    exact List.getElem_mem hlt
  · rintro ⟨x, hx, s, hs, hsx⟩
    obtain ⟨j, hj, rfl⟩ := List.getElem_of_mem hs
    obtain ⟨hbeg, hend⟩ :=
      (meets_singleton_iff hb (h.forward _ hs)).mp ⟨x, hx, hsx⟩
    -- The found span is at or left of `j`, so it begins no later.
    have hlo : lowerBound (fun mid => decide ((spans.getD mid {}).endId < b.firstRange))
        spans.length ≤ j := by
      by_contra hlt
      have hbelow := below_of_lt_lowerBound hdown (not_le.mp hlt)
      simp only [decide_eq_true_eq, List.getD_eq_getElem _ _ hj] at hbelow
      omega
    refine ⟨lt_of_le_of_lt hlo hj, ?_⟩
    rcases Nat.eq_or_lt_of_le hlo with heq | hlt
    · rw [heq, List.getD_eq_getElem _ _ hj]; exact hbeg
    · have h1 := h.getD_le hlt hj
      have h2 := h.getD_forward (lt_trans hlt hj)
      rw [List.getD_eq_getElem _ _ hj] at h1
      omega

theorem blockOverlaps_nil (b : BlockRef) : blockOverlaps b [] = false := by
  simp [blockOverlaps]

/-- A block overlaps the spans of a sorted id list iff it contains one of the ids. -/
theorem blockOverlaps_toSpans {b : BlockRef} {hot : List ℕ} (hsorted : hot.Pairwise (· ≤ ·))
    (hb : b.firstRange ≤ b.lastRange) :
    blockOverlaps b (toSpans hot) = true ↔ ∃ x ∈ hot, b.Covers x := by
  rw [blockOverlaps_iff (spanned_toSpans hsorted) hb]
  constructor
  · rintro ⟨x, hx, hcov⟩
    exact ⟨x, (covered_toSpans hsorted x).mp hcov, hx⟩
  · rintro ⟨x, hx, hcov⟩
    exact ⟨x, hcov, (covered_toSpans hsorted x).mpr hx⟩

/-! ### The whole block list -/

/-- Discarding spans that end before the block begins does not change whether it meets
    the rest. -/
theorem meets_dropWhile {b : BlockRef} {spans : List RangeSpan} {q : ℕ} (hq : q ≤ b.firstRange) :
    Meets b (spans.dropWhile (fun s => decide (s.endId < q))) ↔ Meets b spans := by
  constructor
  · rintro ⟨x, hx, s, hs, hsx⟩
    exact ⟨x, hx, s, (List.dropWhile_sublist _).subset hs, hsx⟩
  · rintro ⟨x, hx, s, hs, hsx⟩
    rw [← List.takeWhile_append_dropWhile (p := fun s => decide (s.endId < q)) (l := spans)] at hs
    rcases List.mem_append.mp hs with hs | hs
    · have hlt : s.endId < q := by simpa using List.mem_takeWhile_imp hs
      have := hx.1
      omega
    · exact ⟨x, hx, s, hs, hsx⟩

/-- Leaving spans out in front keeps the order. -/
theorem Spanned.dropWhile {spans : List RangeSpan} (h : Spanned spans) (p : RangeSpan → Bool) :
    Spanned (spans.dropWhile p) :=
  ⟨fun s hs => h.forward s ((List.dropWhile_sublist p).subset hs),
    h.ordered.sublist (List.dropWhile_sublist p)⟩

/-- Of spans whose head reaches the block, only the head has to be tested. -/
theorem meets_cons_iff {b : BlockRef} {s : RangeSpan} {rest : List RangeSpan}
    (h : Spanned (s :: rest)) (hb : b.firstRange ≤ b.lastRange) (hs : b.firstRange ≤ s.endId) :
    Meets b (s :: rest) ↔ s.beginId ≤ b.lastRange := by
  constructor
  · rintro ⟨x, hx, t, ht, htx⟩
    have hfwd := h.forward s (by simp)
    rcases List.mem_cons.mp ht with rfl | ht
    · exact le_trans htx.1 hx.2
    · have hst : s.endId ≤ t.beginId := List.rel_of_pairwise_cons h.ordered ht
      have := hx.2
      omega
  · intro hbeg
    obtain ⟨x, hx, hsx⟩ :=
      (meets_singleton_iff hb (h.forward s (by simp))).mpr ⟨hbeg, hs⟩
    exact ⟨x, hx, s, by simp, hsx⟩

/-- **The forward-only merge is exact** on blocks sorted by first range: the cursor never
    discards a span some later block still meets. -/
theorem mergeScan_eq {blocks : List BlockRef} {spans : List RangeSpan} (i : ℕ)
    (hspans : Spanned spans) (hfwd : ∀ b ∈ blocks, b.firstRange ≤ b.lastRange)
    (hsorted : blocks.Pairwise (fun a b => a.firstRange ≤ b.firstRange)) :
    mergeScan i blocks spans =
      ((blocks.zipIdx i).filter (fun p => blockOverlaps p.1 spans)).map (·.2) := by
  induction blocks generalizing i spans with
  | nil => rfl
  | cons b bs ih =>
    have hb := hfwd b (by simp)
    have hbs : ∀ c ∈ bs, c.firstRange ≤ c.lastRange := fun c hc => hfwd c (by simp [hc])
    have hdrop := hspans.dropWhile (fun s => decide (s.endId < b.firstRange))
    -- The block list sees the same overlaps before and after the cursor moves.
    have hsame : ∀ c ∈ b :: bs,
        blockOverlaps c spans =
          blockOverlaps c (spans.dropWhile (fun s => decide (s.endId < b.firstRange))) := by
      intro c hc
      have hq : b.firstRange ≤ c.firstRange := by
        rcases List.mem_cons.mp hc with rfl | hc
        · exact le_rfl
        · exact List.rel_of_pairwise_cons hsorted hc
      rw [Bool.eq_iff_iff, blockOverlaps_iff hspans (hfwd c hc),
        blockOverlaps_iff hdrop (hfwd c hc),
        meets_dropWhile hq]
    have htail : ((bs.zipIdx (i + 1)).filter (fun p => blockOverlaps p.1 spans)).map (·.2) =
        mergeScan (i + 1) bs (spans.dropWhile (fun s => decide (s.endId < b.firstRange))) := by
      rw [ih (i + 1) hdrop hbs hsorted.tail]
      congr 1
      refine List.filter_congr fun p hp => ?_
      exact hsame p.1 (List.mem_cons_of_mem _ (List.fst_mem_of_mem_zipIdx hp))
    rw [List.zipIdx_cons, List.filter_cons, hsame b (by simp), mergeScan]
    cases hcur : spans.dropWhile (fun s => decide (s.endId < b.firstRange)) with
    | nil =>
      rw [hcur] at htail
      have hnone : blockOverlaps b [] = false := by
        rw [Bool.eq_false_iff, Ne, blockOverlaps_iff ⟨by simp, List.Pairwise.nil⟩ hb]
        rintro ⟨x, _, s, hs, _⟩
        exact absurd hs (by simp)
      have hempty : mergeScan (i + 1) bs [] = [] := by cases bs <;> rfl
      simp only [hnone, Bool.false_eq_true, if_false, htail, hempty]
    | cons s rest =>
      rw [hcur] at htail hdrop
      have hreach : b.firstRange ≤ s.endId := by
        have hhead := List.head?_dropWhile_not (fun s => decide (s.endId < b.firstRange)) spans
        rw [hcur] at hhead
        simpa using hhead
      by_cases hbeg : s.beginId ≤ b.lastRange
      · have hov : blockOverlaps b (s :: rest) = true :=
          (blockOverlaps_iff hdrop hb).mpr ((meets_cons_iff hdrop hb hreach).mpr hbeg)
        simp only [hov, if_true, if_pos hbeg, List.map_cons, htail]
      · have hov : blockOverlaps b (s :: rest) = false := by
          rw [Bool.eq_false_iff, Ne, blockOverlaps_iff hdrop hb, meets_cons_iff hdrop hb hreach]
          exact hbeg
        simp only [hov, Bool.false_eq_true, if_false, if_neg hbeg, htail]

/-- **Both paths of `SelectOverlapping` agree with the per-block test.** -/
theorem selectOverlapping_eq {blocks : List BlockRef} {spans : List RangeSpan}
    (hspans : Spanned spans) (hfwd : ∀ b ∈ blocks, b.firstRange ≤ b.lastRange)
    (hsorted : blocks.Pairwise (fun a b => a.firstRange ≤ b.firstRange)) :
    selectOverlapping blocks spans =
      (blocks.zipIdx.filter (fun p => blockOverlaps p.1 spans)).map (·.2) := by
  unfold selectOverlapping
  by_cases hempty : blocks = [] ∨ spans = []
  · rw [if_pos hempty]
    rcases hempty with rfl | rfl
    · rfl
    · have hnone : ∀ p ∈ blocks.zipIdx, ¬ blockOverlaps p.1 [] = true := fun p _ => by
        simp [blockOverlaps, lowerBound, lowerBoundLoop]
      rw [List.filter_eq_nil_iff.mpr hnone]; rfl
  · rw [if_neg hempty]
    by_cases hcost : spans.length * logLoop blocks.length blocks.length 1
        < spans.length + blocks.length
    · simp only [if_pos hcost]
    · simp only [if_neg hcost]
      exact mergeScan_eq 0 hspans hfwd hsorted

/-- Positions picked by a test come out in increasing order, and are those of the elements it
    accepts. -/
theorem picked_positions {α : Type*} (l : List α) (test : α → Bool) :
    ((l.zipIdx.filter fun p => test p.1).map (·.2)).Pairwise (· < ·) ∧
    ∀ i, i ∈ (l.zipIdx.filter fun p => test p.1).map (·.2) ↔
      ∃ a, l[i]? = some a ∧ test a = true := by
  constructor
  · have hsub : ((l.zipIdx.filter fun p => test p.1).map (·.2)).Sublist (l.zipIdx.map (·.2)) :=
      List.filter_sublist.map _
    rw [List.zipIdx_map_snd] at hsub
    have hrange : (List.range' 0 l.length).Pairwise (· < ·) := List.pairwise_lt_range' 1
    exact hrange.sublist hsub
  · intro i
    rw [List.mem_map]
    constructor
    · rintro ⟨p, hp, rfl⟩
      obtain ⟨hmem, htest⟩ := List.mem_filter.mp hp
      exact ⟨p.1, List.mem_zipIdx_iff_getElem?.mp hmem, htest⟩
    · rintro ⟨a, ha, htest⟩
      exact ⟨(a, i), List.mem_filter.mpr ⟨List.mem_zipIdx_iff_getElem?.mpr ha, htest⟩, rfl⟩

/-- The positions of the blocks that contain a hot id, in increasing order. -/
def HotPositions (hot : List ℕ) (blocks : List BlockRef) (out : List ℕ) : Prop :=
  out.Pairwise (· < ·) ∧ ∀ i, i ∈ out ↔ ∃ b, blocks[i]? = some b ∧ ∃ x ∈ hot, b.Covers x

/-- **The overlap check is exact.** For sorted hot ids and blocks sorted by first range, what
    `SelectOverlapping` returns, and what each of its two paths would return, are the positions
    of the blocks that contain a hot id, in increasing order; `BlockOverlaps` is true for exactly
    the blocks that contain one. -/
theorem overlap_exact {hot : List ℕ} (hhot : hot.Pairwise (· ≤ ·)) {blocks : List BlockRef}
    (hfwd : ∀ b ∈ blocks, b.firstRange ≤ b.lastRange)
    (hsorted : blocks.Pairwise fun a b => a.firstRange ≤ b.firstRange) :
    HotPositions hot blocks (selectOverlapping blocks (toSpans hot)) ∧
    HotPositions hot blocks
      ((blocks.zipIdx.filter fun p => blockOverlaps p.1 (toSpans hot)).map (·.2)) ∧
    HotPositions hot blocks (mergeScan 0 blocks (toSpans hot)) ∧
    ∀ b : BlockRef, b.firstRange ≤ b.lastRange →
      (blockOverlaps b (toSpans hot) = true ↔ ∃ x ∈ hot, b.Covers x) := by
  have hspans := spanned_toSpans hhot
  have hpicked : HotPositions hot blocks
      ((blocks.zipIdx.filter fun p => blockOverlaps p.1 (toSpans hot)).map (·.2)) := by
    obtain ⟨hlt, hmem⟩ := picked_positions blocks fun b => blockOverlaps b (toSpans hot)
    refine ⟨hlt, fun i => (hmem i).trans (exists_congr fun b => and_congr_right fun hb => ?_)⟩
    exact blockOverlaps_toSpans hhot (hfwd b (List.mem_of_getElem? hb))
  -- the three lists are one
  rw [selectOverlapping_eq hspans hfwd hsorted, mergeScan_eq 0 hspans hfwd hsorted]
  exact ⟨hpicked, hpicked, hpicked, fun b hb => blockOverlaps_toSpans hhot hb⟩

/-- Two files' blocks with one nested in another, and the largest id twice. -/
theorem overlap_exact_nested :
    let hot := [2, 2, 2 ^ 64 - 1, 2 ^ 64 - 1]
    let blocks : List BlockRef :=
      [{ firstRange := 0, lastRange := 10 }, { firstRange := 1, lastRange := 2 },
       { firstRange := 3, lastRange := 9 }, { firstRange := 7, lastRange := 2 ^ 64 - 1 }]
    ∀ i, i ∈ selectOverlapping blocks (toSpans hot) ↔
      ∃ b, blocks[i]? = some b ∧ ∃ x ∈ hot, b.Covers x := by
  intro hot blocks
  exact (@overlap_exact hot (by decide) blocks (by decide) (by decide)).1.2

-- The two-file case that an advancing merge gets wrong: `[1,2]` nested in `[0,10]`.
example : selectOverlapping
    [{ firstRange := 0, lastRange := 10 }, { firstRange := 1, lastRange := 2 }]
    (toSpans [0, 2, 4]) = [0, 1] := by decide

end Leaper
