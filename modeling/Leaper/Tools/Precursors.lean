import Leaper.Lib.Positional
import Leaper.Lib.Shortlist
import Leaper.Tools.TrainSplit

namespace Leaper.Train

open Lib

/-!
# Precursor selection

`compute_precursors` of `tools/train_leaper.py` (Algorithm 2) ranks the candidates of a range by
transfer count, cuts the list at eight times `gamma`, keeps those that are similar enough and cuts
again.  `main` restricts both of its inputs to the training window: the rates by slot, the traces
by millisecond.

* `keptRow_complete_iff` — what a row lists, and when it leaves nothing out;
* `Setup.TrainAlike.transferMatrix_eq` — traces that agree in the training window give the same
  transfers, if they agree on the reads that the comparison by millisecond lets in;
* `Setup.exists_transferMatrix_ne` — if it can let in anything, there are traces it tells apart;
* `precursors_unaffected_iff` — so the table depends on the training window alone exactly if it
  cannot.
-/

/-! ### The row of a range -/

/-- `np.fill_diagonal(transfer, 0)`. -/
def fillDiagonal (m : ℕ → ℕ → ℕ) (r c : ℕ) : ℕ := if r = c then 0 else m r c

/-- The candidates of range `r`: those with transfers, in the order of `np.argsort`. -/
def candidatesOf (m : ℕ → ℕ → ℕ) (rk : Ranking) (r : ℕ) : List ℕ :=
  (rk.order r).filter fun c => 0 < fillDiagonal m r c

/-- `keep`, from the transfer counts on. -/
def keptRow (gamma : ℕ) (m : ℕ → ℕ → ℕ) (rk : Ranking) (r : ℕ) : List ℕ :=
  (((candidatesOf m rk r).take (gamma * 8)).filter (rk.similar r)).take gamma

/-- What `np.argsort(-transfer[r])` gives: all ranges, by falling counts. -/
structure Ranking.Sorts (rk : Ranking) (n : ℕ) (m : ℕ → ℕ → ℕ) (r : ℕ) : Prop where
  perm : (rk.order r).Perm (List.range n)
  falling : (rk.order r).Pairwise fun c d => fillDiagonal m r d ≤ fillDiagonal m r c

/-- The row is the one of `compute_precursors`. -/
theorem Args.keep_eq (a : Args) (rk : Ranking) (threads : List (List TraceRecord)) (r : ℕ) :
    a.keep rk threads r = keptRow a.gamma (a.transfer threads) rk r := by
  have hdiag : fillDiagonal (a.transfer threads) = a.transfer threads := by
    funext r c
    unfold fillDiagonal transfer
    split_ifs <;> rfl
  unfold keep keptRow candidatesOf
  rw [hdiag]

/-- A range that could be listed: another one, with transfers and similar rates. -/
def Eligible (n : ℕ) (m : ℕ → ℕ → ℕ) (rk : Ranking) (r c : ℕ) : Prop :=
  c < n ∧ c ≠ r ∧ 0 < m r c ∧ rk.similar r c = true

/-- A row that leaves out no range better than those it lists. -/
def Complete (n gamma : ℕ) (m : ℕ → ℕ → ℕ) (rk : Ranking) (r : ℕ) (row : List ℕ) : Prop :=
  (row.length < gamma → ∀ c, Eligible n m rk r c → c ∈ row) ∧
  (gamma ≤ row.length → ∀ c, Eligible n m rk r c → c ∉ row → ∀ d ∈ row, m r c ≤ m r d)

section Row

variable {n gamma : ℕ} {m : ℕ → ℕ → ℕ} {rk : Ranking} {r : ℕ} (hsort : rk.Sorts n m r)

/-- Clearing the diagonal leaves the counts of other ranges. -/
theorem fillDiagonal_pos {c : ℕ} : 0 < fillDiagonal m r c ↔ c ≠ r ∧ 0 < m r c := by
  unfold fillDiagonal
  by_cases h : r = c
  · simp [h]
  · simp [h, Ne.symm h]

include hsort

/-- The candidates of a range are the others that come before it at least once. -/
theorem mem_candidatesOf {c : ℕ} : c ∈ candidatesOf m rk r ↔ c < n ∧ c ≠ r ∧ 0 < m r c := by
  unfold candidatesOf
  rw [List.mem_filter, hsort.perm.mem_iff, List.mem_range, decide_eq_true_eq, fillDiagonal_pos]

/-- Eligible precursors are the candidates that are similar. -/
theorem eligible_iff {c : ℕ} :
    Eligible n m rk r c ↔ c ∈ candidatesOf m rk r ∧ rk.similar r c = true := by
  rw [mem_candidatesOf hsort, Eligible, and_assoc, and_assoc]

/-- No candidate is listed twice. -/
theorem nodup_candidatesOf : (candidatesOf m rk r).Nodup :=
  (hsort.perm.nodup_iff.mpr List.nodup_range).filter _

/-- The candidates come by falling counts; off the diagonal these are the given ones. -/
theorem pairwise_candidatesOf : (candidatesOf m rk r).Pairwise fun c d => m r d ≤ m r c := by
  have hfalling : (candidatesOf m rk r).Pairwise fun c d =>
      fillDiagonal m r d ≤ fillDiagonal m r c := hsort.falling.filter _
  refine hfalling.imp_of_mem fun {c d} hc hd hle => ?_
  have hc := (mem_candidatesOf hsort).mp hc
  have hd := (mem_candidatesOf hsort).mp hd
  unfold fillDiagonal at hle
  rwa [if_neg hd.2.1.symm, if_neg hc.2.1.symm] at hle

end Row

/-- **What a row lists.** At most `gamma` different ranges other than its own, all eligible, by
    falling counts.  It is complete exactly if the first `8 * gamma` candidates have `gamma` similar
    ones among them or no eligible range comes after them. -/
theorem keptRow_complete_iff (n gamma : ℕ) (m : ℕ → ℕ → ℕ) (rk : Ranking) (r : ℕ)
    (hsort : rk.Sorts n m r) :
    (keptRow gamma m rk r).length ≤ gamma ∧ (keptRow gamma m rk r).Nodup ∧
    (∀ c ∈ keptRow gamma m rk r, Eligible n m rk r c) ∧
    (keptRow gamma m rk r).Pairwise (fun c d => m r d ≤ m r c) ∧
    (Complete n gamma m rk r (keptRow gamma m rk r) ↔
      gamma ≤ ((candidatesOf m rk r).take (gamma * 8)).countP (rk.similar r) ∨
        ∀ c ∈ (candidatesOf m rk r).drop (gamma * 8), rk.similar r c = false) := by
  have hrow : keptRow gamma m rk r =
      shortlist (gamma * 8) gamma (rk.similar r) (candidatesOf m rk r) := rfl
  have hsub := hrow ▸ shortlist_sublist
  refine ⟨hrow ▸ length_shortlist_le, (nodup_candidatesOf hsort).sublist hsub, fun c hc => ?_,
    (pairwise_candidatesOf hsort).sublist hsub, ?_⟩
  · exact (eligible_iff hsort).mpr ⟨hsub.subset hc, of_mem_shortlist (hrow ▸ hc)⟩
  · have hfull : gamma ≤ ((candidatesOf m rk r).take (gamma * 8)).countP (rk.similar r) ↔
        (shortlist (gamma * 8) gamma (rk.similar r) (candidatesOf m rk r)).length = gamma := by
      unfold shortlist
      rw [List.countP_eq_length_filter, List.length_take, min_eq_left_iff]
    rw [hfull, hrow, ← shortlist_complete_iff (nodup_candidatesOf hsort)]
    -- of a full row nothing better is left out in any case
    have hbetter :
        gamma ≤ (shortlist (gamma * 8) gamma (rk.similar r) (candidatesOf m rk r)).length →
        ∀ c, Eligible n m rk r c →
          c ∉ shortlist (gamma * 8) gamma (rk.similar r) (candidatesOf m rk r) →
          ∀ d ∈ shortlist (gamma * 8) gamma (rk.similar r) (candidatesOf m rk r),
            m r c ≤ m r d := by
      intro _ c hc hout d hd
      obtain ⟨hmem, hsim⟩ := (eligible_iff hsort).mp hc
      exact rel_of_not_mem_shortlist (r := fun c d => m r d ≤ m r c) (pairwise_candidatesOf hsort)
        hd hmem hsim hout
    rw [Complete, and_iff_left hbetter]
    simp only [eligible_iff hsort, and_imp]

/-- A record of a time and a key, cut to its widths. -/
def TraceRecord.ofNat (tMs key : ℕ) (op : OpType) : TraceRecord :=
  ⟨tMs % 2 ^ 32, key % 2 ^ 30, op, Nat.mod_lt _ (by norm_num), Nat.mod_lt _ (by norm_num)⟩

/-- Range 0 is read after each of the ranges 1 to 8 twice and after range 9 once. -/
def nineBefore : List TraceRecord :=
  ([1, 2, 3, 4, 5, 6, 7, 8].flatMap fun c => [c, 0, c, 0]) ++ [9, 0] |>.map fun c =>
    .ofNat 0 c .read

/-- Ranges of one key, one precursor for each range. -/
def singlePrecursor : Args := ⟨1, 1, 1, 1, 0, 0⟩

/-- The ranges in the order of the counts for range 0; range 9 alone is similar to it. -/
def ninthSimilar : Ranking := ⟨fun _ => [1, 2, 3, 4, 5, 6, 7, 8, 9, 0, 10], fun _ c => c = 9⟩

/-- If all ranges are similar, the first eight hold the one that is kept. -/
theorem keptRow_complete_nineBefore :
    Complete 11 1 (singlePrecursor.transfer [nineBefore])
      { ninthSimilar with similar := fun _ _ => true }
      0 (keptRow 1 (singlePrecursor.transfer [nineBefore])
        { ninthSimilar with similar := fun _ _ => true } 0) :=
  (keptRow_complete_iff 11 1 (singlePrecursor.transfer [nineBefore])
    { ninthSimilar with similar := fun _ _ => true } 0
    ⟨by decide +kernel, by decide +kernel⟩).2.2.2.2.mpr (Or.inl (by decide +kernel))

/-- The cut at eight candidates takes the only one that is similar. -/
theorem keep_nineBefore :
    singlePrecursor.nRanges nineBefore = 11 ∧
      ninthSimilar.Sorts 11 (singlePrecursor.transfer [nineBefore]) 0 ∧
      Eligible 11 (singlePrecursor.transfer [nineBefore]) ninthSimilar 0 9 ∧
      singlePrecursor.keep ninthSimilar [nineBefore] 0 = [] :=
  ⟨by decide +kernel, ⟨by decide +kernel, by decide +kernel⟩,
    ⟨by decide, by decide, by decide +kernel, by decide⟩, by decide +kernel⟩

/-! ### The training window -/

/-- Reads follow each other as the records do. -/
theorem Args.readSeq_append (a : Args) (xs ys : List TraceRecord) :
    a.readSeq (xs ++ ys) = a.readSeq xs ++ a.readSeq ys := by
  unfold Args.readSeq
  simp only [List.filter_append, List.map_append]

namespace Setup

variable (u : Setup) (files : List (List TraceRecord))

/-- The transfer matrix of `compute_precursors`, as `main` calls it. -/
def transferMatrix : ℕ → ℕ → ℕ := (u.windowed (u.nSlots files)).transfer (files.map load)

/-- The point reads of later slots that `t_ms <= train_until_ms` lets in. -/
def leaked : List (List TraceRecord) :=
  files.map fun file => (load file).filter fun x =>
    x.op = .read ∧ x.tMs ≤ u.trainUntilMs (u.nSlots files) ∧
      ¬ u.args.slotOf x ≤ u.validSlot (u.nSlots files)

/-- The same number of slots, the same largest key, and the same accesses up to `valid_slot`. -/
structure TrainAlike (u : Setup) (files files' : List (List TraceRecord)) : Prop where
  nSlots_eq : u.nSlots files' = u.nSlots files
  maxKey_eq : maxKey files' = maxKey files
  seen_eq : u.seen files' (u.validSlot (u.nSlots files)) =
    u.seen files (u.validSlot (u.nSlots files))

variable {u files}

/-- The records of a file up to a slot come first. -/
theorem load_split (file : List TraceRecord) (last : ℕ) :
    (load file).filter (fun x => u.args.slotOf x ≤ last) ++
      (load file).filter (fun x => ¬ u.args.slotOf x ≤ last) = load file := by
  have hsorted : (load file).Pairwise fun x y => x.tMs ≤ y.tMs := List.pairwise_insertionSort _ _
  have hpair : (load file).Pairwise fun x y =>
      decide (u.args.slotOf y ≤ last) = true → decide (u.args.slotOf x ≤ last) = true := by
    refine hsorted.imp fun hxy hy => ?_
    exact decide_eq_true ((Nat.div_le_div_right hxy).trans (of_decide_eq_true hy))
  have hnot : (fun x => !decide (u.args.slotOf x ≤ last)) =
      fun x => decide (¬ u.args.slotOf x ≤ last) := funext fun x => decide_not.symm
  rw [← hnot, ← takeWhile_eq_filter hpair, ← dropWhile_eq_filter hpair,
    List.takeWhile_append_dropWhile]

/-- The reads of a thread in the window: those up to `valid_slot`, and what is let in after it. -/
theorem readSeq_load (n : ℕ) (file : List TraceRecord) :
    (u.windowed n).readSeq (load file) =
      (u.windowed n).readSeq ((load file).filter fun x => u.args.slotOf x ≤ u.validSlot n) ++
        ((load file).filter fun x => x.op = .read ∧ x.tMs ≤ u.trainUntilMs n ∧
          ¬ u.args.slotOf x ≤ u.validSlot n).map (u.windowed n).rid := by
  have hlate : (((load file).filter fun x => ¬ u.args.slotOf x ≤ u.validSlot n).filter fun x =>
        x.tMs ≤ u.trainUntilMs n).filter (fun x => x.op = .read) =
      (load file).filter fun x => x.op = .read ∧ x.tMs ≤ u.trainUntilMs n ∧
          ¬ u.args.slotOf x ≤ u.validSlot n := by
    rw [List.filter_filter, List.filter_filter]
    refine List.filter_congr fun x _ => ?_
    simp only [Bool.decide_and, Bool.and_assoc]
  unfold Args.readSeq
  conv_lhs => rw [← load_split (u := u) file (u.validSlot n)]
  rw [List.filter_append, List.filter_append, List.map_append]
  exact congrArg (fun l => _ ++ l.map (u.windowed n).rid) hlate

namespace TrainAlike

variable {files' : List (List TraceRecord)} (h : u.TrainAlike files files')
  (hleak : u.leaked files' = u.leaked files)

include h

/-- The table is a function of the transfers and of what the window shows. -/
theorem precursors_eq_of_transferMatrix
    (htransfer : u.transferMatrix files' = u.transferMatrix files) :
    u.precursors (files'.map load) = u.precursors (files.map load) := by
  unfold transferMatrix at htransfer
  rw [h.nSlots_eq] at htransfer
  exact precursors_eq_of h.nSlots_eq h.maxKey_eq
    (fun r _ hs => rate_eq_of_seen h.seen_eq OpType.isRead r hs) htransfer

include hleak

/-- Traces that train alike and let the same reads in have one transfer matrix. -/
theorem transferMatrix_eq : u.transferMatrix files' = u.transferMatrix files := by
  have hseq : ∀ l : List (List TraceRecord), u.nSlots l = u.nSlots files →
      (l.map load).map (u.windowed (u.nSlots files)).readSeq =
        List.zipWith (fun seen late => (u.windowed (u.nSlots files)).readSeq seen ++
            late.map (u.windowed (u.nSlots files)).rid)
          (u.seen l (u.validSlot (u.nSlots files))) (u.leaked l) := by
    intro l hl
    unfold seen leaked
    rw [hl, List.zipWith_map, List.zipWith_self, List.map_map]
    exact List.map_congr_left fun file _ => readSeq_load (u.nSlots files) file
  unfold transferMatrix
  rw [h.nSlots_eq]
  refine Args.transfer_congr _ ?_
  rw [hseq files' h.nSlots_eq, hseq files rfl, h.seen_eq, hleak]

end TrainAlike

/-! ### Reads that are let in -/

/-- A millisecond of the trace after `valid_slot` that `t_ms <= train_until_ms` lets in. -/
def LetsIn (u : Setup) (n t : ℕ) : Prop :=
  t < 2 ^ 32 ∧ t ≤ u.trainUntilMs n ∧ u.validSlot n < t / u.args.slotMs ∧ t / u.args.slotMs < n

/-- Where `train_until_ms` is the first millisecond after the window, as it is with slots of whole
    seconds, that millisecond is let in and no other. -/
theorem letsIn_iff {n t : ℕ} (hslot : 0 < u.args.slotMs)
    (hexact : u.trainUntilMs n = (u.validSlot n + 1) * u.args.slotMs) :
    u.LetsIn n t ↔ t = u.trainUntilMs n ∧ t < 2 ^ 32 ∧ u.validSlot n + 1 < n := by
  constructor
  · rintro ⟨hfit, hle, hlate, hn⟩
    refine ⟨le_antisymm hle ?_, hfit, lt_of_le_of_lt hlate hn⟩
    calc u.trainUntilMs n = (u.validSlot n + 1) * u.args.slotMs := hexact
      _ ≤ t / u.args.slotMs * u.args.slotMs := Nat.mul_le_mul_right _ hlate
      _ ≤ t := Nat.div_mul_le_self _ _
  · rintro ⟨rfl, hfit, hn⟩
    have hdiv : u.trainUntilMs n / u.args.slotMs = u.validSlot n + 1 := by
      rw [hexact, Nat.mul_div_cancel _ hslot]
    exact ⟨hfit, le_rfl, hdiv ▸ Nat.lt_succ_self _, hdiv ▸ hn⟩

/-- Every record is in one of the slots. -/
theorem slotOf_lt_nSlots {x : TraceRecord} (hx : x ∈ (files.map load).flatten) :
    u.args.slotOf x < u.nSlots files :=
  Nat.lt_succ_of_le (List.le_max_of_le (List.mem_map_of_mem hx) le_rfl)

/-- No key is above the largest. -/
theorem key_le_maxKey {x : TraceRecord} (hx : x ∈ (files.map load).flatten) :
    x.key ≤ maxKey files :=
  List.le_max_of_le (List.mem_map_of_mem hx) le_rfl

/-- Where no millisecond is let in, no read is. -/
theorem leaked_eq_nil (h : ∀ t, ¬ u.LetsIn (u.nSlots files) t) :
    u.leaked files = files.map fun _ => [] := by
  unfold leaked
  refine List.map_congr_left fun file hfile => List.filter_eq_nil_iff.mpr fun x hx hin => ?_
  obtain ⟨-, htime, hlate⟩ := of_decide_eq_true hin
  have hmem : x ∈ (files.map load).flatten :=
    List.mem_flatten.mpr ⟨load file, List.mem_map_of_mem hfile, hx⟩
  exact h x.tMs ⟨x.tMs_lt, htime, not_le.mp hlate, slotOf_lt_nSlots hmem⟩

/-- Without precursors, or with keys of one range only, nothing is transferred. -/
theorem transferMatrix_eq_zero (h : u.args.gamma = 0 ∨ maxKey files / u.args.rangeSize = 0) :
    u.transferMatrix files = fun _ _ => 0 := by
  funext r c
  unfold transferMatrix Args.transfer
  split_ifs with hrc
  · rfl
  · refine List.sum_eq_zero fun n hn => ?_
    obtain ⟨seq, hseq, rfl⟩ := List.mem_map.mp hn
    split_ifs
    · rfl
    refine List.sum_eq_zero fun m hm => ?_
    obtain ⟨j, hj, rfl⟩ := List.mem_map.mp hm
    rcases h with hgamma | hrange
    · have hj : j ∈ List.range' 1 u.args.gamma := hj
      rw [hgamma] at hj
      cases hj
    · -- every range read is range 0
      refine List.count_eq_zero.mpr fun hpair => hrc ?_
      have hzero : ∀ q ∈ seq, q = 0 := by
        intro q hq
        obtain ⟨thread, hthread, rfl⟩ := List.mem_map.mp hseq
        obtain ⟨x, hx, rfl⟩ := List.mem_map.mp hq
        have hmem : x ∈ (files.map load).flatten := List.mem_flatten.mpr
          ⟨thread, hthread, List.mem_of_mem_filter (List.mem_of_mem_filter hx)⟩
        exact Nat.le_zero.mp ((Nat.div_le_div_right (key_le_maxKey hmem)).trans_eq hrange)
      obtain ⟨hr, hc⟩ := List.of_mem_zip hpair
      rw [hzero r (List.mem_of_mem_drop hr), hzero c hc]

/-! ### Telling traces apart -/

/-- A record goes in between the earlier ones and those that are not. -/
theorem orderedInsert_between {x : TraceRecord} {l₁ l₂ : List TraceRecord}
    (hearly : ∀ y ∈ l₁, ¬ x.tMs ≤ y.tMs) (hlate : ∀ y ∈ l₂.head?, x.tMs ≤ y.tMs) :
    (l₁ ++ l₂).orderedInsert (fun x y => x.tMs ≤ y.tMs) x = l₁ ++ x :: l₂ := by
  induction l₁ with
  | nil =>
    cases l₂ with
    | nil => rfl
    | cons y l₂ => exact if_pos (hlate y rfl)
  | cons y l₁ ih =>
    have hrest := ih fun z hz => hearly z (List.mem_cons_of_mem y hz)
    rw [List.cons_append, List.orderedInsert_cons, if_neg (hearly y List.mem_cons_self), hrest]
    rfl

/-- Records of one time come between the earlier and the later ones of a file. -/
theorem load_append {t : ℕ} {xs : List TraceRecord} (hxs : ∀ x ∈ xs, x.tMs = t)
    (file : List TraceRecord) :
    load (xs ++ file) = (load file).takeWhile (fun y => y.tMs < t) ++
      (xs ++ (load file).dropWhile (fun y => y.tMs < t)) := by
  induction xs with
  | nil => rw [List.nil_append, List.nil_append, List.takeWhile_append_dropWhile]
  | cons x xs ih =>
    have htime := hxs x List.mem_cons_self
    have hrest := fun y hy => hxs y (List.mem_cons_of_mem x hy)
    show (load (xs ++ file)).orderedInsert (fun x y => x.tMs ≤ y.tMs) x = _
    rw [ih hrest]
    refine orderedInsert_between (fun y hy => ?_) fun y hy => ?_
    · have hp := List.mem_takeWhile_imp hy
      have hlt := of_decide_eq_true hp
      omega
    · cases xs with
      | nil =>
        have hnot :=
          List.head?_dropWhile_not (fun y : TraceRecord => decide (y.tMs < t)) (load file)
        rw [List.nil_append] at hy
        rw [Option.mem_def.mp hy] at hnot
        have hge := of_decide_eq_false hnot
        omega
      | cons z xs =>
        obtain rfl : z = y := by simpa using hy
        rw [htime, hrest z List.mem_cons_self]

/-- The pairs of neighbours of a list, the later one first. -/
def neighbours (l : List ℕ) : List (ℕ × ℕ) := (l.drop 1).zip l

/-- More reads in front add pairs and take none away. -/
theorem neighbours_sublist_append_left (l₁ l : List ℕ) :
    (neighbours l).Sublist (neighbours (l₁ ++ l)) := by
  induction l₁ with
  | nil => exact List.Sublist.refl _
  | cons a l₁ ih =>
    refine ih.trans ?_
    cases hl : l₁ ++ l with
    | nil => rw [List.cons_append, hl]; exact List.nil_sublist _
    | cons b l' => rw [List.cons_append, hl]; exact List.sublist_cons_self _ _

/-- More reads at the end add pairs and take none away. -/
theorem neighbours_sublist_append_right (l l₂ : List ℕ) :
    (neighbours l).Sublist (neighbours (l ++ l₂)) := by
  induction l with
  | nil => exact List.nil_sublist _
  | cons a l ih =>
    cases l with
    | nil => exact List.nil_sublist _
    | cons b l => exact List.Sublist.cons_cons _ ih

/-- Ranges 0 and 1, one after the other, `n` times. -/
def alternating : ℕ → List ℕ
  | 0 => []
  | n + 1 => 0 :: 1 :: alternating n

/-- Range 0 is followed by range 1 as often as the two alternate. -/
theorem le_count_alternating (n : ℕ) : n ≤ (neighbours (alternating n)).count (1, 0) := by
  induction n with
  | zero => exact Nat.zero_le _
  | succ n ih =>
    have hsub := neighbours_sublist_append_left [1] (alternating n)
    have hcount := hsub.count_le (1, 0)
    show n + 1 ≤ ((1, 0) :: neighbours ([1] ++ alternating n)).count (1, 0)
    rw [List.count_cons_self]
    omega

/-- Two reads for each turn. -/
theorem length_alternating (n : ℕ) : (alternating n).length = 2 * n := by
  induction n with
  | zero => rfl
  | succ n ih => show (alternating n).length + 1 + 1 = _; omega

/-- No other range is read. -/
theorem le_one_of_mem_alternating {n r : ℕ} (h : r ∈ alternating n) : r ≤ 1 := by
  induction n with
  | zero => cases h
  | succ n ih =>
    have h : r ∈ 0 :: 1 :: alternating n := h
    simp only [List.mem_cons] at h
    rcases h with rfl | rfl | h
    · exact Nat.zero_le 1
    · exact le_rfl
    · exact ih h

variable {file : List TraceRecord} {rest : List (List TraceRecord)} {t : ℕ}

/-- More records after the window are not seen in it. -/
theorem TrainAlike.append {xs : List TraceRecord}
    (hxs : ∀ x ∈ xs, u.validSlot (u.nSlots (file :: rest)) < u.args.slotOf x ∧
      u.args.slotOf x < u.nSlots (file :: rest) ∧ x.key ≤ maxKey (file :: rest)) :
    u.TrainAlike (file :: rest) ((xs ++ file) :: rest) := by
  induction xs with
  | nil => exact ⟨rfl, rfl, rfl⟩
  | cons x xs ih =>
    have hrest := ih fun y hy => hxs y (List.mem_cons_of_mem x hy)
    obtain ⟨hlate, hslot, hkey⟩ := hxs x List.mem_cons_self
    rw [← hrest.nSlots_eq] at hslot
    rw [← hrest.maxKey_eq] at hkey
    obtain ⟨hn, hmax, hseen⟩ := unseen_cons hlate hslot hkey
    exact ⟨hn.trans hrest.nSlots_eq, hmax.trans hrest.maxKey_eq, hseen.trans hrest.seen_eq⟩

/-- Reads of ranges 0 and 1 in turn, all at one time. -/
def alternatingReads (u : Setup) (t n : ℕ) : List TraceRecord :=
  (alternating n).map fun r => .ofNat t (r * u.args.rangeSize) .read

/-- They are let in. -/
theorem readSeq_alternatingReads {n : ℕ} (ht : u.LetsIn n t) (hpos : 0 < u.args.rangeSize)
    (hkey : u.args.rangeSize < 2 ^ 30) (m : ℕ) :
    (u.windowed n).readSeq (u.alternatingReads t m) = alternating m := by
  have htime : t % 2 ^ 32 = t := Nat.mod_eq_of_lt ht.1
  have hall : ∀ x ∈ u.alternatingReads t m,
      x.tMs ≤ (u.windowed n).trainUntilMs ∧ x.op = .read := by
    intro x hx
    obtain ⟨r, -, rfl⟩ := List.mem_map.mp hx
    exact ⟨htime.trans_le ht.2.1, rfl⟩
  unfold Args.readSeq
  rw [List.filter_eq_self.mpr fun x hx => decide_eq_true (hall x hx).1,
    List.filter_eq_self.mpr fun x hx => decide_eq_true (hall x hx).2]
  unfold alternatingReads
  rw [List.map_map]
  refine (List.map_congr_left fun r hr => ?_).trans (List.map_id _)
  have hone := le_one_of_mem_alternating hr
  show r * u.args.rangeSize % 2 ^ 30 / u.args.rangeSize = r
  have hle : r * u.args.rangeSize ≤ 1 * u.args.rangeSize := Nat.mul_le_mul_right _ hone
  rw [Nat.mod_eq_of_lt (by omega), Nat.mul_div_cancel _ hpos]

/-- As many transfers from range 0 to range 1 as there are turns. -/
theorem le_transferMatrix_alternatingReads (hgamma : u.args.gamma ≠ 0)
    (ht : u.LetsIn (u.nSlots (file :: rest)) t) (hpos : 0 < u.args.rangeSize)
    (hkey : u.args.rangeSize < 2 ^ 30) {m : ℕ} (hm : u.args.gamma < m)
    (hn : u.nSlots ((u.alternatingReads t m ++ file) :: rest) = u.nSlots (file :: rest)) :
    m ≤ u.transferMatrix ((u.alternatingReads t m ++ file) :: rest) 1 0 := by
  have htime : ∀ x ∈ u.alternatingReads t m, x.tMs = t := by
    intro x hx
    obtain ⟨r, -, rfl⟩ := List.mem_map.mp hx
    exact Nat.mod_eq_of_lt ht.1
  -- the turns are a piece of what the thread reads
  obtain ⟨seq₁, seq₂, hseq⟩ : ∃ seq₁ seq₂,
      (u.windowed (u.nSlots (file :: rest))).readSeq (load (u.alternatingReads t m ++ file)) =
        seq₁ ++ (alternating m ++ seq₂) := by
    have hmid := readSeq_alternatingReads ht hpos hkey m
    rw [load_append htime, Args.readSeq_append, Args.readSeq_append, hmid]
    exact ⟨_, _, rfl⟩
  have hcount : m ≤ (neighbours (seq₁ ++ (alternating m ++ seq₂))).count (1, 0) :=
    calc m ≤ (neighbours (alternating m)).count (1, 0) := le_count_alternating m
      _ ≤ _ := ((neighbours_sublist_append_right _ seq₂).trans
        (neighbours_sublist_append_left seq₁ _)).count_le _
  obtain ⟨g, hg⟩ := Nat.exists_eq_succ_of_ne_zero hgamma
  have hg' : (u.windowed (u.nSlots (file :: rest))).gamma = g + 1 := hg
  have hlong : ¬ (seq₁ ++ (alternating m ++ seq₂)).length < g + 1 + 1 := by
    rw [List.length_append, List.length_append, length_alternating]
    omega
  unfold transferMatrix Args.transfer
  simp only [hn, hg', List.map_cons, List.sum_cons, hseq, if_neg hlong, List.range'_succ,
    if_neg (show ¬ (1 : ℕ) = 0 by norm_num)]
  exact hcount.trans ((Nat.le_add_right _ _).trans (Nat.le_add_right _ _))

/-- **If a millisecond is let in**, and there are two ranges to transfer between, traces that agree
    in the training window differ in their transfers. -/
theorem exists_transferMatrix_ne (hgamma : u.args.gamma ≠ 0)
    (hrange : maxKey (file :: rest) / u.args.rangeSize ≠ 0)
    (ht : u.LetsIn (u.nSlots (file :: rest)) t) :
    ∃ files', u.TrainAlike (file :: rest) files' ∧
      u.transferMatrix files' ≠ u.transferMatrix (file :: rest) := by
  have hpos : 0 < u.args.rangeSize := Nat.pos_of_ne_zero fun h => hrange (by rw [h, Nat.div_zero])
  have hle : u.args.rangeSize ≤ maxKey (file :: rest) := by
    by_contra hlt
    exact hrange (Nat.div_eq_of_lt (not_le.mp hlt))
  have hkey : maxKey (file :: rest) < 2 ^ 30 := by
    have hmax := List.max_le_of_forall_le (((file :: rest).map load).flatten.map TraceRecord.key)
      (2 ^ 30 - 1) fun k hk => by
        obtain ⟨x, -, rfl⟩ := List.mem_map.mp hk
        have := x.key_lt
        omega
    have hmax : maxKey (file :: rest) ≤ 2 ^ 30 - 1 := hmax
    omega
  let m := u.transferMatrix (file :: rest) 1 0 + u.args.gamma + 1
  have halike : u.TrainAlike (file :: rest) ((u.alternatingReads t m ++ file) :: rest) := by
    refine TrainAlike.append fun x hx => ?_
    obtain ⟨r, hr, rfl⟩ := List.mem_map.mp hx
    have hone := le_one_of_mem_alternating hr
    have hprod : r * u.args.rangeSize ≤ 1 * u.args.rangeSize := Nat.mul_le_mul_right _ hone
    have htime : t % 2 ^ 32 = t := Nat.mod_eq_of_lt ht.1
    have hslot : u.args.slotOf (TraceRecord.ofNat t (r * u.args.rangeSize) .read) =
        t / u.args.slotMs := congrArg (· / u.args.slotMs) htime
    rw [hslot]
    refine ⟨ht.2.2.1, ht.2.2.2, ?_⟩
    show r * u.args.rangeSize % 2 ^ 30 ≤ _
    rw [Nat.mod_eq_of_lt (by omega)]
    omega
  refine ⟨_, halike, fun heq => ?_⟩
  have hmore := le_transferMatrix_alternatingReads hgamma ht hpos (by omega)
    (show u.args.gamma < m by omega) halike.nSlots_eq
  rw [heq] at hmore
  omega

end Setup

/-- **Precursor selection and the training window.** All traces that agree with a given one in the
    training window give its transfer matrix and its table exactly if there is no thread, no
    precursor is wanted, all keys are in one range, or no millisecond of a later slot of the trace
    is let in. -/
theorem precursors_unaffected_iff (u : Setup) (files : List (List TraceRecord)) :
    (∀ files', u.TrainAlike files files' → u.transferMatrix files' = u.transferMatrix files ∧
      u.precursors (files'.map load) = u.precursors (files.map load)) ↔
    files = [] ∨ u.args.gamma = 0 ∨ Setup.maxKey files / u.args.rangeSize = 0 ∨
      ∀ t, ¬ u.LetsIn (u.nSlots files) t := by
  constructor
  · intro hall
    by_contra! hnot
    obtain ⟨hne, hgamma, hrange, t, ht⟩ := hnot
    obtain ⟨file, rest, rfl⟩ := List.exists_cons_of_ne_nil hne
    obtain ⟨files', halike, hdiff⟩ := Setup.exists_transferMatrix_ne hgamma hrange ht
    exact hdiff (hall files' halike).1
  · intro hcases files' halike
    have hlength : files'.length = files.length := by
      simpa [Setup.seen] using congrArg List.length halike.seen_eq
    have htransfer : u.transferMatrix files' = u.transferMatrix files := by
      rcases hcases with rfl | hgamma | hrange | hnone
      · rw [List.length_eq_zero_iff.mp hlength]
      · rw [Setup.transferMatrix_eq_zero (.inl hgamma), Setup.transferMatrix_eq_zero (.inl hgamma)]
      · rw [Setup.transferMatrix_eq_zero (.inr hrange),
          Setup.transferMatrix_eq_zero (.inr (by rwa [halike.maxKey_eq]))]
      · refine halike.transferMatrix_eq ?_
        rw [Setup.leaked_eq_nil hnone, Setup.leaked_eq_nil (by rwa [halike.nSlots_eq]),
          List.map_const', List.map_const', hlength]
    exact ⟨htransfer, halike.precursors_eq_of_transferMatrix htransfer⟩

/-- Slots of a second, one slot of history, one precursor; every similarity is above `eps`. -/
def boundarySetup : Setup where
  args := ⟨1, 10, 1, 1, 0, 0⟩
  trainFrac := 3 / 4
  validFrac := 3 / 4
  numpy := fun n m _ =>
    ⟨fun r => (List.range n).insertionSort fun c d => m r d ≤ m r c, fun _ _ => true⟩
  history_pos := quarterSetup.history_pos
  trainFrac_nonneg := quarterSetup.trainFrac_nonneg
  validFrac_nonneg := quarterSetup.validFrac_nonneg

/-- The same with slots of nine milliseconds: `train_until_ms` is rounded down to 26. -/
def nineMsSetup : Setup where
  args := ⟨binary64 (9 / 1000), 10, 1, 1, 0, 0⟩
  trainFrac := boundarySetup.trainFrac
  validFrac := boundarySetup.validFrac
  numpy := boundarySetup.numpy
  history_pos := boundarySetup.history_pos
  trainFrac_nonneg := boundarySetup.trainFrac_nonneg
  validFrac_nonneg := boundarySetup.validFrac_nonneg

/-- Six slots and two ranges; the training window ends with slot 2. -/
def nineMsFile : List TraceRecord := [.ofNat 0 0 .read, .ofNat 27 10 .read, .ofNat 50 0 .read]

/-- No millisecond up to 26 is of a slot after slot 2, so nothing later is let in. -/
theorem precursors_unaffected_nineMs :
    nineMsSetup.validSlot (nineMsSetup.nSlots [nineMsFile]) = 2 ∧
    Setup.maxKey [nineMsFile] / nineMsSetup.args.rangeSize = 1 ∧
    ∀ files', nineMsSetup.TrainAlike [nineMsFile] files' →
      nineMsSetup.transferMatrix files' = nineMsSetup.transferMatrix [nineMsFile] ∧
      nineMsSetup.precursors (files'.map load) =
        nineMsSetup.precursors ([nineMsFile].map load) := by
  have hvalid : nineMsSetup.validSlot (nineMsSetup.nSlots [nineMsFile]) = 2 := by decide +kernel
  refine ⟨hvalid, by decide +kernel, (precursors_unaffected_iff _ _).mpr (.inr (.inr (.inr ?_)))⟩
  rintro t ⟨-, hle, hlate, -⟩
  have huntil : nineMsSetup.trainUntilMs (nineMsSetup.nSlots [nineMsFile]) = 26 := by
    decide +kernel
  have hms : nineMsSetup.args.slotMs = 9 := by decide +kernel
  rw [huntil] at hle
  rw [hvalid, hms] at hlate
  omega

/-- Twelve slots; the second access, at seven seconds, is the first of slot 7. -/
def boundaryFile (op : OpType) : List TraceRecord :=
  [.ofNat 0 0 .read, .ofNat 7000 10 op, .ofNat 11000 0 .read]

/-- The training window ends with slot 6, and a read in slot 7 counts. -/
theorem precursors_boundary :
    boundarySetup.validSlot (boundarySetup.nSlots [boundaryFile .update]) = 6 ∧
      boundarySetup.TrainAlike [boundaryFile .update] [boundaryFile .read] ∧
      boundarySetup.transferMatrix [boundaryFile .update] 1 0 = 0 ∧
      boundarySetup.transferMatrix [boundaryFile .read] 1 0 = 1 ∧
      boundarySetup.precursors ([boundaryFile .update].map load) 1 = [-1] ∧
      boundarySetup.precursors ([boundaryFile .read].map load) 1 = [0] :=
  ⟨by decide +kernel, ⟨by decide +kernel, by decide +kernel, by decide +kernel⟩, by decide +kernel,
    by decide +kernel, by decide +kernel, by decide +kernel⟩

end Leaper.Train
