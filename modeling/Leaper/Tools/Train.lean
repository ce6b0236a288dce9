import Leaper.Core.Load
import Leaper.Lib.Rounding

namespace Leaper.Train

open Lib

/-!
# The trainer

`tools/train_leaper.py`: the rate matrices, the precursor table and the data set a trace is
turned into, and the precursor file written for the plug-in.  A `float32` matrix is a function
of row and column; the trace is a list of records for each thread.

What `numpy` decides about floating-point similarities is left open: the order `argsort` puts
the candidates of a range in, and whether two ranges are similar enough, are parameters.

* `rate_eq` — an entry of a rate matrix is the number of records of its range and slot;
* `buildDataset_row` — where the row of a range and slot is in the data set;
* `loadPrecursors_precursorFile` — the plug-in reads back the table of `compute_precursors`.
-/

/-- `leaper_bench::OpType`; the codes are 0 to 3. -/
inductive OpType
  | read
  | update
  | insert
  | scan
  deriving DecidableEq, Repr

/-- `is_read`: point reads and scan seeks. -/
def OpType.isRead : OpType → Bool
  | .read | .scan => true
  | .update | .insert => false

/-- A trace record; eight bytes hold a time of 32 bits, a key of 30 and the operation. -/
structure TraceRecord where
  tMs : ℕ
  key : ℕ
  op : OpType
  tMs_lt : tMs < 2 ^ 32
  key_lt : key < 2 ^ 30
  deriving DecidableEq

/-- Key 5 fits into a record. -/
theorem five_lt_keyLimit : 5 < 2 ^ 30 := by norm_num

/-- The arguments that matter here.  `slotS` is a `double`; `trainUntilMs` is where the
    training window ends. -/
structure Args where
  slotS : ℚ
  rangeSize : ℕ
  history : ℕ
  gamma : ℕ
  trainUntilMs : ℕ
  clockOffsetS : ℚ

/-- The decisions of `numpy` in `compute_precursors`: `np.argsort(-transfer[r])`, and
    `sims > eps`. -/
structure Ranking where
  order : ℕ → List ℕ
  similar : ℕ → ℕ → Bool

namespace Args

variable (a : Args)

/-- `int(args.slot_s * 1000)`: the rounded product, cut to whole milliseconds. -/
def slotMs : ℕ := ⌊binary64 (a.slotS * 1000)⌋₊

def slotOf (x : TraceRecord) : ℕ := x.tMs / a.slotMs

/-- `rid`. -/
def rid (x : TraceRecord) : ℕ := x.key / a.rangeSize

/-- `n_slots`. -/
def nSlots (trace : List TraceRecord) : ℕ := (trace.map a.slotOf).foldr max 0 + 1

/-- `n_ranges`, from `key_space`. -/
def nRanges (trace : List TraceRecord) : ℕ :=
  ((trace.map TraceRecord.key).foldr max 0 + 1) / a.rangeSize + 1

/-! ### Rates -/

/-- One increment of `np.add.at` on a `float32` matrix. -/
def addAt (m : ℕ → ℕ → ℚ) (r s : ℕ) : ℕ → ℕ → ℚ :=
  Function.update m r (Function.update (m r) s (binary32 (m r s + 1)))

/-- The matrix of the records a mask selects. -/
def rate (mask : OpType → Bool) (trace : List TraceRecord) : ℕ → ℕ → ℚ :=
  (trace.filter fun x => mask x.op).foldl (fun m x => addAt m (a.rid x) (a.slotOf x)) fun _ _ => 0

def readRate (trace : List TraceRecord) : ℕ → ℕ → ℚ := a.rate OpType.isRead trace

def writeRate (trace : List TraceRecord) : ℕ → ℕ → ℚ := a.rate (fun o => !o.isRead) trace

/-! ### Precursors -/

/-- The ranges a thread reads in the training window, in order. -/
def readSeq (thread : List TraceRecord) : List ℕ :=
  ((thread.filter fun x => x.tMs ≤ a.trainUntilMs).filter fun x => x.op = .read).map a.rid

/-- `transfer[r][c]`: how often `c` was read up to `gamma` reads before `r`, within a thread. -/
def transfer (threads : List (List TraceRecord)) (r c : ℕ) : ℕ :=
  if r = c then 0
  else ((threads.map a.readSeq).map fun seq =>
    if seq.length < a.gamma + 1 then 0
    else ((List.range' 1 a.gamma).map fun j => ((seq.drop j).zip seq).count (r, c)).sum).sum

/-- `keep`: the precursors of a range. -/
def keep (rk : Ranking) (threads : List (List TraceRecord)) (r : ℕ) : List ℕ :=
  ((((rk.order r).filter fun c => 0 < a.transfer threads r c).take (a.gamma * 8)).filter
    (rk.similar r)).take a.gamma

/-- A row of the table of `compute_precursors`, filled up with `-1`. -/
def precursors (rk : Ranking) (threads : List (List TraceRecord)) (r : ℕ) : List ℤ :=
  (a.keep rk threads r).map Int.ofNat ++
    List.replicate (a.gamma - (a.keep rk threads r).length) (-1)

/-- The lines of the precursor file; a range without precursors has none. -/
def precursorFile (rk : Ranking) (threads : List (List TraceRecord)) : List Char :=
  "# target precursor... (Algorithm 2, fitted on training slots only)\n".toList ++
  (List.range (a.nRanges threads.flatten)).flatMap fun r =>
    let ps := (a.precursors rk threads r).filterMap fun x => if 0 ≤ x then some x.toNat else none
    if ps = [] then [] else Predictor.precursorLine r ps ++ ['\n']

/-! ### The data set -/

/-- `t`, the prediction time of slot `s` on the plug-in's clock: a product and a sum of
    `double`s. -/
def slotStart (s : ℕ) : ℚ := binary64 (binary64 (s * a.slotS) + a.clockOffsetS)

/-- The three timestamp features of slot `s`. -/
def stamp (s : ℕ) : List ℚ :=
  let t := a.slotStart s
  [binary32 (⌊t / 3600⌋ % 24 : ℤ), binary32 (⌊t / 60⌋ % 60 : ℤ), binary32 (t - 60 * ⌊t / 60⌋)]

/-- The features of range `r` and slot `s`. -/
def datasetRow (read write : ℕ → ℕ → ℚ) (prec : ℕ → List ℤ) (r s : ℕ) : List ℚ :=
  ((List.range a.history).map fun i => read r (s - a.history + i)) ++
  ((List.range a.history).map fun i => write r (s - a.history + i)) ++
  a.stamp s ++
  ((List.range a.gamma).map fun g =>
    match (prec r).getD g (-1) with
    | Int.ofNat q => read q (s - 1)
    | Int.negSucc _ => 0)

/-- `build_dataset`: rows, labels and slots, one block of all ranges for each slot. -/
def buildDataset (read write : ℕ → ℕ → ℚ) (prec : ℕ → List ℤ) (nRanges nSlots step : ℕ) :
    List (List ℚ) × List Bool × List ℕ :=
  let slots := List.range' a.history (nSlots - step - a.history)
  (slots.flatMap fun s => (List.range nRanges).map fun r => a.datasetRow read write prec r s,
   slots.flatMap fun s => (List.range nRanges).map fun r => decide (0 < read r (s + step - 1)),
   slots.flatMap fun s => (List.range nRanges).map fun _ => s)

/-- The data set of a whole trace, for one prediction step. -/
def dataset (rk : Ranking) (threads : List (List TraceRecord)) (step : ℕ) :
    List (List ℚ) × List Bool × List ℕ :=
  a.buildDataset (a.readRate threads.flatten) (a.writeRate threads.flatten)
    (a.precursors rk threads) (a.nRanges threads.flatten) (a.nSlots threads.flatten) step

/-! ### What the trainer computes -/

/-- The two histories at the front of a feature vector. -/
theorem length_histories {h : ℕ} {reads writes : List ℚ} (hreads : reads.length = h)
    (hwrites : writes.length = h) : (reads ++ writes).length = 2 * h := by
  rw [List.length_append]
  omega

/-- The records of a kind, range and slot. -/
def count (mask : OpType → Bool) (trace : List TraceRecord) (r s : ℕ) : ℕ :=
  trace.countP fun x => mask x.op ∧ a.rid x = r ∧ a.slotOf x = s

theorem addAt_apply (m : ℕ → ℕ → ℚ) (r s r' s' : ℕ) :
    addAt m r s r' s' = if r' = r ∧ s' = s then binary32 (m r' s' + 1) else m r' s' := by
  unfold addAt
  by_cases hr : r' = r
  · subst hr
    by_cases hs : s' = s
    · subst hs; simp
    · simp [hs]
  · simp [hr]

/-- Incrementing a `float32` entry counts as long as the count is exact.  The induction is on
    the records still to come; `n` of them have been counted. -/
theorem foldl_addAt {r s : ℕ} (xs : List TraceRecord) {m : ℕ → ℕ → ℚ} {n : ℕ} (hm : m r s = n)
    (hle : n + xs.countP (fun x => a.rid x = r ∧ a.slotOf x = s) ≤ 2 ^ 24) :
    xs.foldl (fun m x => addAt m (a.rid x) (a.slotOf x)) m r s =
      (n + xs.countP (fun x => a.rid x = r ∧ a.slotOf x = s) : ℕ) := by
  induction xs generalizing m n with
  | nil => simpa using hm
  | cons x xs ih =>
    rw [List.foldl_cons]
    by_cases hx : a.rid x = r ∧ a.slotOf x = s
    · rw [List.countP_cons_of_pos (by simpa using hx)] at hle ⊢
      -- the increment of an exact count is exact
      have hnext : addAt m (a.rid x) (a.slotOf x) r s = (n + 1 : ℕ) := by
        rw [addAt_apply, if_pos ⟨hx.1.symm, hx.2.symm⟩, hm]
        have hexact := binary32_natCast (n := n + 1) (by omega)
        rw [← hexact]
        push_cast
        rfl
      rw [ih hnext (by omega)]
      congr 1
      omega
    · rw [List.countP_cons_of_neg (by simpa using hx)] at hle ⊢
      have hnext : addAt m (a.rid x) (a.slotOf x) r s = n := by
        rw [addAt_apply, if_neg fun h => hx ⟨h.1.symm, h.2.symm⟩, hm]
      exact ih hnext hle

/-- **A rate is a count.** -/
theorem rate_eq {mask : OpType → Bool} {trace : List TraceRecord} {r s : ℕ}
    (hle : a.count mask trace r s ≤ 2 ^ 24) : a.rate mask trace r s = a.count mask trace r s := by
  have hcount : (trace.filter fun x => mask x.op).countP (fun x => a.rid x = r ∧ a.slotOf x = s)
      = a.count mask trace r s := by
    unfold count
    rw [List.countP_filter]
    refine List.countP_congr fun x _ => ?_
    simp only [Bool.and_eq_true, decide_eq_true_eq]
    tauto
  unfold rate
  rw [a.foldl_addAt (trace.filter fun x => mask x.op) (n := 0) rfl (by rw [hcount]; omega), hcount,
    Nat.zero_add]

/-- Blocks of one length: position `i * n + r` is position `r` of block `i`. -/
theorem getElem?_flatMap_range {α β : Type*} (f : α → ℕ → β) {n r : ℕ} (hr : r < n) :
    ∀ (l : List α) (i : ℕ),
      (l.flatMap fun x => (List.range n).map (f x))[i * n + r]? = l[i]?.map fun x => f x r
  | [], i => by simp
  | x :: l, 0 => by
    rw [List.flatMap_cons, Nat.zero_mul, Nat.zero_add,
      List.getElem?_append_left (by simpa using hr)]
    simp [hr]
  | x :: l, i + 1 => by
    have hlen : ((List.range n).map (f x)).length = n := by simp
    have hpos : (i + 1) * n + r = n + (i * n + r) := by ring
    rw [List.flatMap_cons, hpos, List.getElem?_append_right (by rw [hlen]; omega), hlen,
      Nat.add_sub_cancel_left, getElem?_flatMap_range f hr l i, List.getElem?_cons_succ]

/-- **The row of a range and slot.** -/
theorem buildDataset_row (read write : ℕ → ℕ → ℚ) (prec : ℕ → List ℤ) {nRanges nSlots step r s : ℕ}
    (hs : a.history ≤ s) (hlt : s < nSlots - step) (hr : r < nRanges) :
    (a.buildDataset read write prec nRanges nSlots step).1[(s - a.history) * nRanges + r]? =
      some (a.datasetRow read write prec r s) := by
  show (List.flatMap _ _)[_]? = _
  rw [getElem?_flatMap_range (fun s r => a.datasetRow read write prec r s) hr,
    List.getElem?_range' (by omega), Option.map_some]
  congr 2
  omega

section Precursors

variable {a} {rk : Ranking} {threads : List (List TraceRecord)} {r c : ℕ}

/-- Only ranges that were read are transferred from. -/
theorem exists_rid_of_transfer (h : 0 < a.transfer threads r c) :
    ∃ x ∈ threads.flatten, a.rid x = c := by
  unfold transfer at h
  split_ifs at h
  · exact absurd h (lt_irrefl 0)
  · -- some thread counts, at some distance, a pair with `c` in second place
    obtain ⟨_, hterm, hpos⟩ := List.sum_pos_iff_exists_pos_nat.mp h
    obtain ⟨seq, hseq, rfl⟩ := List.mem_map.mp hterm
    obtain ⟨thread, hthread, rfl⟩ := List.mem_map.mp hseq
    split_ifs at hpos
    · exact absurd hpos (lt_irrefl 0)
    · obtain ⟨_, hterm, hpos⟩ := List.sum_pos_iff_exists_pos_nat.mp hpos
      obtain ⟨j, -, rfl⟩ := List.mem_map.mp hterm
      have hmem := List.of_mem_zip (List.count_pos_iff.mp hpos)
      obtain ⟨x, hx, hrid⟩ := List.mem_map.mp hmem.2
      have hx : x ∈ thread := List.mem_of_mem_filter (List.mem_of_mem_filter hx)
      exact ⟨x, List.mem_flatten.mpr ⟨thread, hthread, hx⟩, hrid⟩

theorem length_keep_le : (a.keep rk threads r).length ≤ a.gamma := List.length_take_le _ _

/-- A precursor is the range of some record. -/
theorem exists_rid_of_keep (h : c ∈ a.keep rk threads r) : ∃ x ∈ threads.flatten, a.rid x = c := by
  unfold keep at h
  have hcand := List.mem_of_mem_take (List.mem_of_mem_filter (List.mem_of_mem_take h))
  exact exists_rid_of_transfer (of_decide_eq_true (List.mem_filter.mp hcand).2)

variable (a) in
theorem rid_lt (x : TraceRecord) : a.rid x < 2 ^ 30 :=
  lt_of_le_of_lt (Nat.div_le_self _ _) x.key_lt

variable (a) in
theorem nRanges_le (trace : List TraceRecord) : a.nRanges trace ≤ 2 ^ 30 + 1 := by
  have hmax : (trace.map TraceRecord.key).foldr max 0 < 2 ^ 30 := by
    induction trace with
    | nil => norm_num
    | cons x trace ih => exact max_lt x.key_lt ih
  have hdiv := Nat.div_le_self ((trace.map TraceRecord.key).foldr max 0 + 1) a.rangeSize
  unfold nRanges
  omega

/-- What is written of a row of the table: the entries that are not `-1`. -/
theorem filterMap_precursors :
    (a.precursors rk threads r).filterMap (fun x => if 0 ≤ x then some x.toNat else none) =
      a.keep rk threads r := by
  have hfill : ∀ n, (List.replicate n (-1 : ℤ)).filterMap
      (fun x => if 0 ≤ x then some x.toNat else none) = [] := by
    intro n
    rw [List.filterMap_eq_nil_iff]
    intro x hx
    rw [List.eq_of_mem_replicate hx]
    rfl
  unfold precursors
  rw [List.filterMap_append, hfill, List.append_nil, List.filterMap_map]
  refine (List.filterMap_congr fun c _ => ?_).trans List.filterMap_some
  simp

/-- The ranges that have a line in the precursor file. -/
def targets (a : Args) (rk : Ranking) (threads : List (List TraceRecord)) : List ℕ :=
  (List.range (a.nRanges threads.flatten)).filter fun r => decide (a.keep rk threads r ≠ [])

theorem mem_targets :
    r ∈ a.targets rk threads ↔ r < a.nRanges threads.flatten ∧ a.keep rk threads r ≠ [] := by
  unfold targets
  rw [List.mem_filter, List.mem_range, decide_eq_true_eq]

/-- Ranges without precursors leave no line. -/
theorem flatMap_lines (rs : List ℕ) :
    (rs.flatMap fun r => if a.keep rk threads r = [] then []
      else Predictor.precursorLine r (a.keep rk threads r) ++ ['\n']) =
    (rs.filter fun r => decide (a.keep rk threads r ≠ [])).flatMap fun r =>
      Predictor.precursorLine r (a.keep rk threads r) ++ ['\n'] := by
  induction rs with
  | nil => rfl
  | cons x rs ih =>
    by_cases hx : a.keep rk threads x = []
    · rw [List.flatMap_cons, if_pos hx, List.filter_cons_of_neg (by simpa using hx), ih]
      rfl
    · rw [List.flatMap_cons, if_neg hx, List.filter_cons_of_pos (by simpa using hx), ih,
        List.flatMap_cons]

/-- The first line of the file, cut where its reader cuts it. -/
theorem toList_comment :
    "# target precursor... (Algorithm 2, fitted on training slots only)\n".toList =
      ('#' :: " target precursor... (Algorithm 2, fitted on training slots only)".toList) ++
        ['\n'] := by
  decide +kernel

/-- The file is its comment and the lines of the targets. -/
theorem precursorFile_eq : a.precursorFile rk threads =
    ('#' :: " target precursor... (Algorithm 2, fitted on training slots only)".toList) ++
      '\n' :: (a.targets rk threads).flatMap fun r =>
        Predictor.precursorLine r (a.keep rk threads r) ++ ['\n'] := by
  unfold precursorFile targets
  simp only [filterMap_precursors]
  rw [flatMap_lines, toList_comment, List.append_assoc, List.singleton_append]

/-- **The table comes back.** Loading the file the trainer writes gives each range the
    precursors `compute_precursors` kept for it. -/
theorem loadPrecursors_precursorFile (a : Args) (rk : Ranking)
    (threads : List (List TraceRecord)) (r : ℕ) :
    Predictor.loadPrecursors a.gamma (a.precursorFile rk threads) r =
      if r < a.nRanges threads.flatten ∧ a.keep rk threads r ≠ [] then
        some (a.keep rk threads r) else none := by
  have hline : ∀ r ∈ a.targets rk threads, r < 2 ^ 64 ∧ a.keep rk threads r ≠ [] ∧
      (∀ p ∈ a.keep rk threads r, p < 2 ^ 64) ∧ (a.keep rk threads r).length ≤ a.gamma := by
    intro r hr
    obtain ⟨hlt, hne⟩ := mem_targets.mp hr
    have hn := a.nRanges_le threads.flatten
    refine ⟨by omega, hne, fun p hp => ?_, length_keep_le⟩
    -- a precursor is the range of a record, and keys have 30 bits
    obtain ⟨x, -, rfl⟩ := exists_rid_of_keep hp
    exact lt_trans (a.rid_lt x) (by norm_num)
  rw [precursorFile_eq, Predictor.loadPrecursors_lines (by decide) (a.keep rk threads) hline]
  simp only [mem_targets]

/-- An entry of the table: a precursor where there is one, `-1` elsewhere. -/
theorem getD_precursors (g : ℕ) :
    (a.precursors rk threads r).getD g (-1) =
      ((a.keep rk threads r)[g]?.map Int.ofNat).getD (-1) := by
  unfold precursors
  rw [List.getD_eq_getElem?_getD]
  rcases Nat.lt_or_ge g (a.keep rk threads r).length with hg | hg
  · rw [List.getElem?_append_left (by simpa using hg), List.getElem?_map]
  · rw [List.getElem?_append_right (by simpa using hg), List.getElem?_eq_none hg,
      List.getElem?_replicate]
    split_ifs <;> rfl

end Precursors

end Args

end Leaper.Train
