import Leaper.Tools.Train
import Mathlib.Data.List.MinMax
import Mathlib.Data.List.Sort

namespace Leaper.Train

open Lib

/-!
# The chronological split

`main` of `tools/train_leaper.py` fixes a training, a validation and a test window before it fits
anything.  The split is made on the slot of a row; the label of a row of the `k`-step model lies
`k - 1` slots later.

* `Setup.stepData` — the rows and labels the model of a step is fitted on and stopped early on;
* `Setup.SeenAlike` — two traces that differ in the test window only;
* `Setup.SeenAlike.stepData_one` — with such traces the one-step model gets the same data;
* `Setup.exists_flipped` — a read in any slot of the test window can be added or taken away;
* `stepData_unaffected_iff` — the one-step model is the only one that the test window has no
  influence on.
-/

/-! ### Single entries of the rate matrices -/

namespace Args

variable (a : Args)

/-- An entry is made by the records of its slot.  The induction is on the records; the two
    matrices need to agree in this entry only. -/
theorem foldl_addAt_filter {q : TraceRecord → Bool} {r s : ℕ} (hq : ∀ x, a.slotOf x = s → q x)
    (xs : List TraceRecord) {m m' : ℕ → ℕ → ℚ} (hm : m r s = m' r s) :
    (xs.filter q).foldl (fun m x => addAt m (a.rid x) (a.slotOf x)) m r s =
      xs.foldl (fun m x => addAt m (a.rid x) (a.slotOf x)) m' r s := by
  induction xs generalizing m m' with
  | nil => exact hm
  | cons x xs ih =>
    by_cases hx : q x
    · rw [List.filter_cons_of_pos hx, List.foldl_cons, List.foldl_cons]
      refine ih ?_
      rw [addAt_apply, addAt_apply, hm]
    · rw [List.filter_cons_of_neg hx, List.foldl_cons]
      refine ih ?_
      have hslot : ¬(r = a.rid x ∧ s = a.slotOf x) := fun h => hx (hq x h.2.symm)
      rw [addAt_apply, if_neg hslot, hm]

/-- The rates up to a slot are those of the records up to it. -/
theorem rate_filter {mask : OpType → Bool} (trace : List TraceRecord) {r s last : ℕ}
    (hs : s ≤ last) :
    a.rate mask (trace.filter fun x => a.slotOf x ≤ last) r s = a.rate mask trace r s := by
  unfold rate
  have hcomm : (trace.filter fun x => a.slotOf x ≤ last).filter (fun x => mask x.op) =
      (trace.filter fun x => mask x.op).filter fun x => a.slotOf x ≤ last := by
    rw [List.filter_filter, List.filter_filter]
    exact List.filter_congr fun x _ => Bool.and_comm _ _
  rw [hcomm]
  refine a.foldl_addAt_filter (fun x hx => ?_) _ rfl
  rw [hx]
  exact decide_eq_true hs

/-- A cell of the rates is positive exactly if some record falls into it. -/
theorem foldl_addAt_pos_iff {r s : ℕ} (xs : List TraceRecord) {m : ℕ → ℕ → ℚ} (hm : 0 ≤ m r s) :
    0 < xs.foldl (fun m x => addAt m (a.rid x) (a.slotOf x)) m r s ↔
      0 < m r s ∨ ∃ x ∈ xs, a.rid x = r ∧ a.slotOf x = s := by
  induction xs generalizing m with
  | nil => simp
  | cons x xs ih =>
    rw [List.foldl_cons]
    by_cases hx : r = a.rid x ∧ s = a.slotOf x
    · -- an increment of an entry leaves it at one or more, and it stays there
      have hone : 1 ≤ addAt m (a.rid x) (a.slotOf x) r s := by
        rw [addAt_apply, if_pos hx]
        exact one_le_binary32 (by linarith)
      rw [ih (by linarith)]
      constructor
      · intro _
        exact .inr ⟨x, List.mem_cons_self, hx.1.symm, hx.2.symm⟩
      · intro _
        exact .inl (by linarith)
    · have hsame : addAt m (a.rid x) (a.slotOf x) r s = m r s := by rw [addAt_apply, if_neg hx]
      rw [ih (by rw [hsame]; exact hm), hsame, List.exists_mem_cons_iff]
      have hnot : ¬(a.rid x = r ∧ a.slotOf x = s) := fun h => hx ⟨h.1.symm, h.2.symm⟩
      simp only [hnot, false_or]

/-- **A rate is positive** exactly when there is a record. -/
theorem rate_pos_iff {mask : OpType → Bool} {trace : List TraceRecord} {r s : ℕ} :
    0 < a.rate mask trace r s ↔ ∃ x ∈ trace, mask x.op ∧ a.rid x = r ∧ a.slotOf x = s := by
  unfold rate
  rw [a.foldl_addAt_pos_iff _ le_rfl]
  simp only [lt_irrefl, false_or, List.mem_filter, and_assoc]

/-- The precursors are a function of the transfer counts. -/
theorem precursors_congr (rk : Ranking) {threads threads' : List (List TraceRecord)}
    (h : a.transfer threads' = a.transfer threads) :
    a.precursors rk threads' = a.precursors rk threads := by
  funext r
  unfold precursors keep
  rw [h]

/-- The transfer matrix depends on the threads' read sequences alone. -/
theorem transfer_congr {threads threads' : List (List TraceRecord)}
    (h : threads'.map a.readSeq = threads.map a.readSeq) :
    a.transfer threads' = a.transfer threads := by
  funext r c
  unfold transfer
  rw [h]

/-- A row reads the slots before its own. -/
theorem datasetRow_congr {read read' write write' : ℕ → ℕ → ℚ} (prec : ℕ → List ℤ) (r : ℕ) {s : ℕ}
    (hpos : 1 ≤ a.history) (hs : a.history ≤ s) (hread : ∀ q t, t < s → read' q t = read q t)
    (hwrite : ∀ q t, t < s → write' q t = write q t) :
    a.datasetRow read' write' prec r s = a.datasetRow read write prec r s := by
  have hslot : ∀ i ∈ List.range a.history, s - a.history + i < s := by
    intro i hi
    have := List.mem_range.mp hi
    omega
  have hlast : s - 1 < s := by omega
  unfold datasetRow
  rw [List.map_congr_left fun i hi => hread r _ (hslot i hi),
    List.map_congr_left fun i hi => hwrite r _ (hslot i hi)]
  congr 1
  refine List.map_congr_left fun g _ => ?_
  cases (prec r).getD g (-1) with
  | ofNat q => exact hread q _ hlast
  | negSucc q => rfl

end Args

/-! ### Split and data -/

/-- `load_trace` puts the records of a file in the order of their times (`kind="stable"`). -/
def load (file : List TraceRecord) : List TraceRecord :=
  file.insertionSort fun x y => x.tMs ≤ y.tMs

/-- `X[keep]` for a mask made from the slots of the rows. -/
def masked {α : Type*} (keep : ℕ → Bool) (xs : List α) (slots : List ℕ) : List α :=
  ((xs.zip slots).filter fun p => keep p.2).map Prod.fst

/-- What the model of a step is trained with: the data it is fitted on, and the data early
    stopping watches. -/
structure StepData where
  fitRows : List (List ℚ)
  fitLabels : List Bool
  stopRows : List (List ℚ)
  stopLabels : List Bool

/-- The arguments of a training run with a fixed `range_size`.  `numpy` ranks the candidates of
    the ranges by the transfer counts and the rates it is handed. -/
structure Setup where
  args : Args
  trainFrac : ℚ
  validFrac : ℚ
  numpy : ℕ → (ℕ → ℕ → ℕ) → (ℕ → ℕ → ℚ) → Ranking
  history_pos : 1 ≤ args.history
  trainFrac_nonneg : 0 ≤ trainFrac
  validFrac_nonneg : 0 ≤ validFrac

namespace Setup

variable (u : Setup)

/-- `test_slot`, of a trace of `n` slots. -/
def testSlot (n : ℕ) : ℕ :=
  u.args.history + ⌊binary64 ((n - 2 - u.args.history : ℕ) * u.trainFrac)⌋₊

/-- `valid_slot`. -/
def validSlot (n : ℕ) : ℕ :=
  u.args.history + ⌊binary64 (binary64 ((n - 2 - u.args.history : ℕ) * u.trainFrac) * u.validFrac)⌋₊

/-- `train_until_ms`. -/
def trainUntilMs (n : ℕ) : ℕ :=
  ⌊binary64 (binary64 ((u.validSlot n + 1 : ℕ) * u.args.slotS) * 1000)⌋₊

/-- The masks `tr`, `va` and `te`. -/
def inTrain (n s : ℕ) : Bool := s ≤ u.validSlot n

def inValid (n s : ℕ) : Bool := u.validSlot n < s ∧ s ≤ u.testSlot n

def inTest (n s : ℕ) : Bool := u.testSlot n < s

/-- The arguments with the end of the training window filled in. -/
def windowed (n : ℕ) : Args := { u.args with trainUntilMs := u.trainUntilMs n }

/-- The table of `compute_precursors`, which is called with the rates of the training window. -/
def precursors (threads : List (List TraceRecord)) : ℕ → List ℤ :=
  let n := u.args.nSlots threads.flatten
  let rates := fun r s => if s ≤ u.validSlot n then u.args.readRate threads.flatten r s else 0
  (u.windowed n).precursors
    (u.numpy (u.args.nRanges threads.flatten) ((u.windowed n).transfer threads) rates) threads

/-- `build_dataset`, as `main` calls it. -/
def dataset (threads : List (List TraceRecord)) (step : ℕ) :
    List (List ℚ) × List Bool × List ℕ :=
  u.args.buildDataset (u.args.readRate threads.flatten) (u.args.writeRate threads.flatten)
    (u.precursors threads) (u.args.nRanges threads.flatten) (u.args.nSlots threads.flatten) step

/-- Whether `main` ends before it trains the model of step `k`: a trace that is too short, an
    empty window, or a step up to `k` without validation rows. -/
def exits (n : ℕ) (slots : ℕ → List ℕ) (k : ℕ) : Bool :=
  n - 2 ≤ u.args.history ||
  ((slots 1).filter (u.inTest n)).isEmpty || ((slots 1).filter (u.inValid n)).isEmpty ||
  (List.range' 2 (k - 1)).any fun j => ((slots j).filter (u.inValid n)).isEmpty

/-- The data of the model of step `k`, for the files of a trace. -/
def stepData (files : List (List TraceRecord)) (k : ℕ) : Option StepData :=
  let threads := files.map load
  let n := u.args.nSlots threads.flatten
  if u.exits n (fun j => (u.dataset threads j).2.2) k then none
  else
    let (rows, labels, slots) := u.dataset threads k
    some
      { fitRows := masked (u.inTrain n) rows slots
        fitLabels := masked (u.inTrain n) labels slots
        stopRows := masked (u.inValid n) rows slots
        stopLabels := masked (u.inValid n) labels slots }

/-! ### The data by slots -/

/-- `n_slots` of the files of a trace. -/
def nSlots (files : List (List TraceRecord)) : ℕ := u.args.nSlots (files.map load).flatten

def nRanges (files : List (List TraceRecord)) : ℕ := u.args.nRanges (files.map load).flatten

/-- There is at least one range. -/
theorem nRanges_pos (files : List (List TraceRecord)) : 0 < u.nRanges files := Nat.succ_pos _

/-- The slot of each row. -/
def rowSlots (n nRanges j : ℕ) : List ℕ :=
  (List.range' u.args.history (n - j - u.args.history)).flatMap fun s =>
    (List.range nRanges).map fun _ => s

/-- One block for each slot that is kept. -/
def blocks {α : Type*} (keep : ℕ → Bool) (n nRanges k : ℕ) (f : ℕ → ℕ → α) : List α :=
  ((List.range' u.args.history (n - k - u.args.history)).filter keep).flatMap fun s =>
    (List.range nRanges).map (f s)

/-- Masks go row by row. -/
theorem masked_append {α : Type*} (keep : ℕ → Bool) {xs ys : List α} {ss ts : List ℕ}
    (h : xs.length = ss.length) :
    masked keep (xs ++ ys) (ss ++ ts) = masked keep xs ss ++ masked keep ys ts := by
  unfold masked
  rw [List.zip_append h, List.filter_append, List.map_append]

/-- A mask keeps or drops the block of a slot. -/
theorem masked_const {α : Type*} (keep : ℕ → Bool) (f : ℕ → α) (nRanges s : ℕ) :
    masked keep ((List.range nRanges).map f) ((List.range nRanges).map fun _ => s) =
      if keep s then (List.range nRanges).map f else [] := by
  unfold masked
  rw [List.zip_map', List.filter_map, List.map_map]
  show ((List.range nRanges).filter fun _ => keep s).map f = _
  by_cases hs : keep s
  · rw [if_pos hs, List.filter_eq_self.mpr fun r _ => hs]
  · rw [if_neg hs, List.filter_eq_nil_iff.mpr fun r _ => hs, List.map_nil]

/-- The induction is on the slots. -/
theorem masked_flatMap {α : Type*} (keep : ℕ → Bool) (f : ℕ → ℕ → α) (nRanges : ℕ)
    (slots : List ℕ) :
    masked keep (slots.flatMap fun s => (List.range nRanges).map (f s))
        (slots.flatMap fun s => (List.range nRanges).map fun _ => s) =
      (slots.filter keep).flatMap fun s => (List.range nRanges).map (f s) := by
  induction slots with
  | nil => rfl
  | cons s slots ih =>
    rw [List.flatMap_cons, List.flatMap_cons, masked_append keep (by simp), masked_const, ih]
    by_cases hs : keep s
    · rw [if_pos hs, List.filter_cons_of_pos hs, List.flatMap_cons]
    · rw [if_neg hs, List.filter_cons_of_neg hs, List.nil_append]

/-- The rows and labels of step `k`, by slot and range. -/
def row (files : List (List TraceRecord)) (s r : ℕ) : List ℚ :=
  u.args.datasetRow (u.args.readRate (files.map load).flatten)
    (u.args.writeRate (files.map load).flatten) (u.precursors (files.map load)) r s

def label (files : List (List TraceRecord)) (k s r : ℕ) : Bool :=
  decide (0 < u.args.readRate (files.map load).flatten r (s + k - 1))

/-- **What a step is trained with.** -/
theorem stepData_eq (files : List (List TraceRecord)) (k : ℕ) :
    u.stepData files k =
      if u.exits (u.nSlots files) (u.rowSlots (u.nSlots files) (u.nRanges files)) k then none
      else some
        { fitRows := u.blocks (u.inTrain (u.nSlots files)) (u.nSlots files) (u.nRanges files) k
            (u.row files)
          fitLabels := u.blocks (u.inTrain (u.nSlots files)) (u.nSlots files) (u.nRanges files) k
            (u.label files k)
          stopRows := u.blocks (u.inValid (u.nSlots files)) (u.nSlots files) (u.nRanges files) k
            (u.row files)
          stopLabels := u.blocks (u.inValid (u.nSlots files)) (u.nSlots files) (u.nRanges files) k
            (u.label files k) } := by
  unfold blocks
  simp only [← masked_flatMap]
  rfl

/-- Only the slots that are kept matter. -/
theorem blocks_congr {α : Type*} {keep : ℕ → Bool} {n nRanges k : ℕ} {f g : ℕ → ℕ → α}
    (h : ∀ s r, u.args.history ≤ s → keep s → f s r = g s r) :
    u.blocks keep n nRanges k f = u.blocks keep n nRanges k g := by
  unfold blocks
  refine List.flatMap_congr fun s hs => List.map_congr_left fun r _ => ?_
  obtain ⟨hmem, hkeep⟩ := List.mem_filter.mp hs
  exact h s r (List.mem_range'_1.mp hmem).1 hkeep

/-- Equal blocks agree at each slot that is kept. -/
theorem eq_of_blocks_eq {α : Type*} {keep : ℕ → Bool} {n nRanges k s r : ℕ} {f g : ℕ → ℕ → α}
    (h : u.blocks keep n nRanges k f = u.blocks keep n nRanges k g) (hs : u.args.history ≤ s)
    (hlt : s < n - k) (hkeep : keep s) (hr : r < nRanges) : f s r = g s r := by
  have hmem : s ∈ (List.range' u.args.history (n - k - u.args.history)).filter keep :=
    List.mem_filter.mpr ⟨List.mem_range'_1.mpr ⟨hs, by omega⟩, hkeep⟩
  obtain ⟨i, hi⟩ := List.getElem?_of_mem hmem
  have hpos := congrArg (fun l => l[i * nRanges + r]?) h
  unfold blocks at hpos
  simp only [Args.getElem?_flatMap_range _ hr, hi, Option.map_some, Option.some.injEq] at hpos
  exact hpos

variable {u}

/-- A row's slot has its history before it and its label after it. -/
theorem mem_rowSlots {n nRanges j s : ℕ} (h : s ∈ u.rowSlots n nRanges j) :
    u.args.history ≤ s ∧ s < n - j := by
  unfold rowSlots at h
  obtain ⟨t, ht, hs⟩ := List.mem_flatMap.mp h
  obtain ⟨r, -, rfl⟩ := List.mem_map.mp hs
  have := List.mem_range'_1.mp ht
  omega

/-- A window that is not empty has a row. -/
theorem exists_row_of_isEmpty {n nRanges j : ℕ} {keep : ℕ → Bool}
    (h : ((u.rowSlots n nRanges j).filter keep).isEmpty = false) :
    ∃ s, u.args.history ≤ s ∧ s < n - j ∧ keep s := by
  obtain ⟨s, hs⟩ := List.isEmpty_eq_false_iff_exists_mem.mp h
  obtain ⟨hmem, hkeep⟩ := List.mem_filter.mp hs
  obtain ⟨hle, hlt⟩ := mem_rowSlots hmem
  exact ⟨s, hle, hlt, hkeep⟩

/-- What is known once step `k` is trained: the test window is not empty, and the step has a
    validation row. -/
theorem windows_of_not_exits {n nRanges k : ℕ} (hk : 1 ≤ k)
    (h : u.exits n (u.rowSlots n nRanges) k = false) :
    u.testSlot n < n - 2 ∧ ∃ s, u.args.history ≤ s ∧ s < n - k ∧ u.inValid n s := by
  unfold exits at h
  simp only [Bool.or_eq_false_iff] at h
  obtain ⟨⟨⟨-, htest⟩, hone⟩, hsteps⟩ := h
  obtain ⟨t, -, ht, htest⟩ := exists_row_of_isEmpty htest
  have htest := of_decide_eq_true htest
  refine ⟨by omega, ?_⟩
  rcases Nat.eq_or_lt_of_le hk with rfl | hk
  · exact exists_row_of_isEmpty hone
  · have hstep := List.any_eq_false.mp hsteps k (List.mem_range'_1.mpr (by omega))
    exact exists_row_of_isEmpty (Bool.eq_false_iff.mpr hstep)

/-! ### Traces that differ in the test window -/

/-- The records of each thread up to a slot. -/
def seen (u : Setup) (files : List (List TraceRecord)) (last : ℕ) : List (List TraceRecord) :=
  files.map fun file => (load file).filter fun x => u.args.slotOf x ≤ last

/-- The largest key of a trace. -/
def maxKey (files : List (List TraceRecord)) : ℕ :=
  ((files.map load).flatten.map TraceRecord.key).foldr max 0

/-- The same number of slots, the same largest key, and the same accesses up to `test_slot`. -/
structure SeenAlike (u : Setup) (files files' : List (List TraceRecord)) : Prop where
  nSlots_eq : u.nSlots files' = u.nSlots files
  maxKey_eq : maxKey files' = maxKey files
  seen_eq : u.seen files' (u.testSlot (u.nSlots files)) = u.seen files (u.testSlot (u.nSlots files))

/-- Filtering all records by slot is filtering those of each thread. -/
theorem filter_flatten_load (files : List (List TraceRecord)) (last : ℕ) :
    (files.map load).flatten.filter (fun x => u.args.slotOf x ≤ last) =
      (u.seen files last).flatten := by
  unfold seen
  rw [List.filter_flatten, List.map_map]
  rfl

/-- The training window reads the records up to its end only. -/
theorem readSeq_filter {n last : ℕ} (hwin : u.trainUntilMs n / u.args.slotMs ≤ last)
    (thread : List TraceRecord) :
    (u.windowed n).readSeq (thread.filter fun x => u.args.slotOf x ≤ last) =
      (u.windowed n).readSeq thread := by
  unfold Args.readSeq
  rw [List.filter_filter (l := thread)]
  congr 2
  refine List.filter_congr fun x _ => ?_
  rw [Bool.and_eq_left_iff_imp]
  intro hx
  have hle : x.tMs ≤ u.trainUntilMs n := of_decide_eq_true hx
  exact decide_eq_true ((Nat.div_le_div_right hle).trans hwin)

section Agreement

variable {files files' : List (List TraceRecord)}

/-- The number of ranges depends on the largest key alone. -/
theorem nRanges_eq_of_maxKey (hkey : maxKey files' = maxKey files) :
    u.nRanges files' = u.nRanges files := by
  show (maxKey files' + 1) / u.args.rangeSize + 1 = (maxKey files + 1) / u.args.rangeSize + 1
  rw [hkey]

/-- Traces with the same records up to a slot have the same rates up to it. -/
theorem rate_eq_of_seen {last : ℕ} (hseen : u.seen files' last = u.seen files last)
    (mask : OpType → Bool) (r : ℕ) {s : ℕ} (hs : s ≤ last) :
    u.args.rate mask (files'.map load).flatten r s =
      u.args.rate mask (files.map load).flatten r s := by
  rw [← u.args.rate_filter (files'.map load).flatten hs, filter_flatten_load, hseen,
    ← filter_flatten_load, u.args.rate_filter _ hs]

/-- What the precursor table depends on. -/
theorem precursors_eq_of (hn : u.nSlots files' = u.nSlots files)
    (hkey : maxKey files' = maxKey files)
    (hrate : ∀ r s, s ≤ u.validSlot (u.nSlots files) →
      u.args.readRate (files'.map load).flatten r s = u.args.readRate (files.map load).flatten r s)
    (htransfer : (u.windowed (u.nSlots files)).transfer (files'.map load) =
      (u.windowed (u.nSlots files)).transfer (files.map load)) :
    u.precursors (files'.map load) = u.precursors (files.map load) := by
  have hrates : (fun r s => if s ≤ u.validSlot (u.nSlots files) then
        u.args.readRate (files'.map load).flatten r s else 0) =
      fun r s => if s ≤ u.validSlot (u.nSlots files) then
        u.args.readRate (files.map load).flatten r s else 0 := by
    funext r s
    split_ifs with hs
    · exact hrate r s hs
    · rfl
  have hn : u.args.nSlots (files'.map load).flatten = u.nSlots files := hn
  have hr : u.args.nRanges (files'.map load).flatten = u.nRanges files := nRanges_eq_of_maxKey hkey
  unfold precursors
  simp only [hn, hr, hrates, htransfer]
  exact Args.precursors_congr _ _ htransfer

end Agreement

namespace SeenAlike

variable {files files' : List (List TraceRecord)} (h : u.SeenAlike files files')

include h

/-- Traces that are seen alike have the same number of ranges. -/
theorem nRanges_eq : u.nRanges files' = u.nRanges files := nRanges_eq_of_maxKey h.maxKey_eq

/-- The rates agree up to the test window. -/
theorem rate_eq (mask : OpType → Bool) (r : ℕ) {s : ℕ} (hs : s ≤ u.testSlot (u.nSlots files)) :
    u.args.rate mask (files'.map load).flatten r s =
      u.args.rate mask (files.map load).flatten r s := rate_eq_of_seen h.seen_eq mask r hs

variable (hwin : u.trainUntilMs (u.nSlots files) / u.args.slotMs ≤ u.testSlot (u.nSlots files))

include hwin

/-- If the training window ends before the test slots, they have one transfer matrix. -/
theorem transfer_eq :
    (u.windowed (u.nSlots files)).transfer (files'.map load) =
      (u.windowed (u.nSlots files)).transfer (files.map load) := by
  -- both thread lists read as their visible parts do
  have hseq : ∀ l : List (List TraceRecord),
      (l.map load).map (u.windowed (u.nSlots files)).readSeq =
        (u.seen l (u.testSlot (u.nSlots files))).map (u.windowed (u.nSlots files)).readSeq := by
    intro l
    unfold seen
    rw [List.map_map, List.map_map]
    exact List.map_congr_left fun file _ => (readSeq_filter hwin (load file)).symm
  refine Args.transfer_congr _ ?_
  rw [hseq, hseq, h.seen_eq]

/-- If validation comes before the test slots too, they have the same precursors. -/
theorem precursors_eq (hvalid : u.validSlot (u.nSlots files) ≤ u.testSlot (u.nSlots files)) :
    u.precursors (files'.map load) = u.precursors (files.map load) :=
  precursors_eq_of h.nSlots_eq h.maxKey_eq (fun r _ hs => h.rate_eq _ r (hs.trans hvalid))
    (h.transfer_eq hwin)

/-- **The one-step model** is trained with the same data. -/
theorem stepData_one {d : StepData} (hd : u.stepData files 1 = some d) :
    u.stepData files' 1 = some d := by
  rw [stepData_eq] at hd ⊢
  rw [h.nSlots_eq, h.nRanges_eq]
  split_ifs at hd ⊢ with hexit
  obtain ⟨-, t, -, -, ht⟩ := windows_of_not_exits le_rfl (Bool.eq_false_iff.mpr hexit)
  have ht := of_decide_eq_true ht
  have hprec := h.precursors_eq hwin (ht.1.le.trans ht.2)
  -- rows and labels up to `test_slot` agree, whichever mask picks them
  have hrow : ∀ s r, u.args.history ≤ s → s ≤ u.testSlot (u.nSlots files) →
      u.row files' s r = u.row files s r := by
    intro s r hlo hs
    unfold row
    rw [hprec]
    exact u.args.datasetRow_congr _ r u.history_pos hlo
      (fun q t ht => h.rate_eq _ q (ht.le.trans hs)) (fun q t ht => h.rate_eq _ q (ht.le.trans hs))
  have hlabel : ∀ s r, s ≤ u.testSlot (u.nSlots files) →
      u.label files' 1 s r = u.label files 1 s r := by
    intro s r hs
    unfold label Args.readRate
    rw [Nat.add_sub_cancel, h.rate_eq _ r hs]
  have htrain : ∀ {s}, u.inTrain (u.nSlots files) s → s ≤ u.testSlot (u.nSlots files) :=
    fun hs => (of_decide_eq_true hs).trans (ht.1.le.trans ht.2)
  have hvalid : ∀ {s}, u.inValid (u.nSlots files) s → s ≤ u.testSlot (u.nSlots files) :=
    fun hs => (of_decide_eq_true hs).2
  rw [← hd, u.blocks_congr fun s r hlo hs => hrow s r hlo (htrain hs),
    u.blocks_congr fun s r _ hs => hlabel s r (htrain hs),
    u.blocks_congr fun s r hlo hs => hrow s r hlo (hvalid hs),
    u.blocks_congr fun s r _ hs => hlabel s r (hvalid hs)]

end SeenAlike

/-! ### Reads in the test window -/

/-- Loading a file keeps its records. -/
theorem mem_load {file : List TraceRecord} {x : TraceRecord} : x ∈ load file ↔ x ∈ file :=
  List.mem_insertionSort _

/-- A record put in front of a file comes somewhere among the others. -/
theorem load_cons (x : TraceRecord) (file : List TraceRecord) :
    (load (x :: file)).Perm (x :: load file) :=
  List.perm_orderedInsert _ x (load file)

/-- A record that is filtered out leaves no trace in the order of the others. -/
theorem filter_load_cons {q : TraceRecord → Bool} {x : TraceRecord} (hx : q x = false)
    (file : List TraceRecord) : (load (x :: file)).filter q = (load file).filter q := by
  show ((load file).orderedInsert _ x).filter q = _
  induction load file with
  | nil => exact List.filter_cons_of_neg (by rw [hx]; decide)
  | cons y l ih =>
    rw [List.orderedInsert_cons]
    split_ifs
    · exact List.filter_cons_of_neg (by rw [hx]; decide)
    · rw [List.filter_cons, List.filter_cons, ih]

/-- Largest values do not depend on the order. -/
theorem foldr_max_perm {l l' : List ℕ} (h : l.Perm l') : l.foldr max 0 = l'.foldr max 0 :=
  h.foldr_eq 0

/-- The record with its read taken away, if it is in slot `s`. -/
def mute (u : Setup) (s : ℕ) (x : TraceRecord) : TraceRecord :=
  if u.args.slotOf x = s then { x with op := .update } else x

theorem mute_tMs (s : ℕ) (x : TraceRecord) : (u.mute s x).tMs = x.tMs := by
  unfold mute
  split_ifs <;> rfl

theorem mute_key (s : ℕ) (x : TraceRecord) : (u.mute s x).key = x.key := by
  unfold mute
  split_ifs <;> rfl

/-- Muting moves no record to another slot. -/
theorem slotOf_mute (s : ℕ) (x : TraceRecord) :
    u.args.slotOf (u.mute s x) = u.args.slotOf x := by
  unfold Args.slotOf
  rw [mute_tMs]

/-- Muting does not change the order of a file. -/
theorem load_map_mute (s : ℕ) (file : List TraceRecord) :
    load (file.map (u.mute s)) = (load file).map (u.mute s) := by
  refine (List.map_insertionSort _ _ _ _ fun x _ y _ => ?_).symm
  rw [mute_tMs, mute_tMs]

variable {files : List (List TraceRecord)} {s : ℕ}

/-- Muting a slot of the test window cannot be seen before it. -/
theorem seenAlike_mute (hs : u.testSlot (u.nSlots files) < s) :
    u.SeenAlike files (files.map fun file => file.map (u.mute s)) := by
  have hflat : ((files.map fun file => file.map (u.mute s)).map load).flatten =
      (files.map load).flatten.map (u.mute s) := by
    rw [List.map_flatten, List.map_map, List.map_map]
    congr 1
    exact List.map_congr_left fun file _ => load_map_mute s file
  have hslot : u.args.slotOf ∘ u.mute s = u.args.slotOf := funext fun x => slotOf_mute s x
  have hkey : TraceRecord.key ∘ u.mute s = TraceRecord.key := funext fun x => mute_key s x
  refine ⟨?_, ?_, ?_⟩
  · unfold nSlots Args.nSlots
    rw [hflat, List.map_map, hslot]
  · unfold maxKey
    rw [hflat, List.map_map, hkey]
  · unfold seen
    rw [List.map_map]
    refine List.map_congr_left fun file _ => ?_
    -- no record up to `test_slot` is muted
    have hkept : ∀ x ∈ (load file).filter fun x => u.args.slotOf x ≤ u.testSlot (u.nSlots files),
        u.mute s x = x := by
      intro x hx
      have hle := of_decide_eq_true (List.mem_filter.mp hx).2
      exact if_neg (by omega)
    have hfilter : (fun x => decide (u.args.slotOf x ≤ u.testSlot (u.nSlots files))) ∘ u.mute s =
        fun x => decide (u.args.slotOf x ≤ u.testSlot (u.nSlots files)) := by
      funext x
      rw [Function.comp_apply, slotOf_mute]
    rw [Function.comp_apply, load_map_mute, List.filter_map, hfilter, List.map_congr_left hkept,
      List.map_id']

/-- In the muted slot nothing is read. -/
theorem readRate_mute (files : List (List TraceRecord)) (r s : ℕ) :
    ¬0 < u.args.readRate ((files.map fun file => file.map (u.mute s)).map load).flatten r s := by
  unfold Args.readRate
  rw [Args.rate_pos_iff]
  rintro ⟨x, hx, hread, -, hslot⟩
  obtain ⟨_, hl, hx⟩ := List.mem_flatten.mp hx
  rw [List.map_map] at hl
  obtain ⟨file, -, rfl⟩ := List.mem_map.mp hl
  obtain ⟨y, -, rfl⟩ := List.mem_map.mp (mem_load.mp hx)
  rw [slotOf_mute] at hslot
  unfold mute at hread
  rw [if_pos hslot] at hread
  exact Bool.false_ne_true hread

/-- One more record after a slot, that is not the last and has not the largest key, cannot be seen
    up to the slot. -/
theorem unseen_cons {x : TraceRecord} {file : List TraceRecord} {last : ℕ}
    (hx : last < u.args.slotOf x) (hlast : u.args.slotOf x < u.nSlots (file :: files))
    (hkey : x.key ≤ maxKey (file :: files)) :
    u.nSlots ((x :: file) :: files) = u.nSlots (file :: files) ∧
      maxKey ((x :: file) :: files) = maxKey (file :: files) ∧
      u.seen ((x :: file) :: files) last = u.seen (file :: files) last := by
  have hperm : (((x :: file) :: files).map load).flatten.Perm
      (x :: ((file :: files).map load).flatten) := (load_cons x file).append_right _
  refine ⟨?_, ?_, ?_⟩
  · unfold nSlots Args.nSlots at hlast ⊢
    rw [foldr_max_perm (hperm.map _), List.map_cons, List.foldr_cons,
      max_eq_right (Nat.le_of_lt_succ hlast)]
  · unfold maxKey at hkey ⊢
    rw [foldr_max_perm (hperm.map _), List.map_cons, List.foldr_cons, max_eq_right hkey]
  · unfold seen
    rw [List.map_cons, List.map_cons, filter_load_cons (decide_eq_false (by omega))]

/-- One more record in the test window cannot be seen before it either. -/
theorem seenAlike_cons {x : TraceRecord} {file : List TraceRecord}
    (hx : u.testSlot (u.nSlots (file :: files)) < u.args.slotOf x)
    (hlast : u.args.slotOf x < u.nSlots (file :: files)) (hkey : x.key = 0) :
    u.SeenAlike (file :: files) ((x :: file) :: files) :=
  have h := unseen_cons hx hlast (hkey.trans_le (Nat.zero_le _))
  ⟨h.1, h.2.1, h.2.2⟩

/-- Some record is as late as any slot of the trace. -/
theorem exists_slot_le (hpos : 0 < s) (hs : s < u.nSlots files) :
    ∃ x ∈ (files.map load).flatten, s ≤ u.args.slotOf x := by
  by_contra! hnone
  have hmax := List.max_le_of_forall_le ((files.map load).flatten.map u.args.slotOf) (s - 1)
    fun t ht => by
      obtain ⟨x, hx, rfl⟩ := List.mem_map.mp ht
      have := hnone x hx
      omega
  have hmax : ((files.map load).flatten.map u.args.slotOf).foldr max 0 ≤ s - 1 := hmax
  unfold nSlots Args.nSlots at hs
  omega

/-- **The test window can change anywhere.** In each of its slots a read of range 0 can be added,
    or all reads taken away, with no difference before the window. -/
theorem exists_flipped (hs : u.testSlot (u.nSlots files) < s) (hlast : s < u.nSlots files) :
    ∃ files', u.SeenAlike files files' ∧
      (0 < u.args.readRate (files'.map load).flatten 0 s ↔
        ¬0 < u.args.readRate (files.map load).flatten 0 s) := by
  by_cases hread : 0 < u.args.readRate (files.map load).flatten 0 s
  · refine ⟨_, seenAlike_mute hs, ?_⟩
    exact iff_of_false (readRate_mute files 0 s) (not_not_intro hread)
  · obtain ⟨y, hy, hle⟩ := exists_slot_le (by omega) hlast
    obtain ⟨file, rest, rfl⟩ : ∃ file rest, files = file :: rest := by
      cases files with
      | nil => exact absurd hy List.not_mem_nil
      | cons file rest => exact ⟨file, rest, rfl⟩
    -- the slot's first millisecond is no later than `y`
    have hms : 0 < u.args.slotMs := by
      by_contra! h0
      unfold Args.slotOf at hle
      rw [Nat.le_zero.mp h0, Nat.div_zero] at hle
      omega
    have hstart : s * u.args.slotMs ≤ y.tMs := (Nat.le_div_iff_mul_le hms).mp hle
    have hy32 := y.tMs_lt
    let x : TraceRecord := ⟨s * u.args.slotMs, 0, .read, by omega, by norm_num⟩
    have hslot : u.args.slotOf x = s := Nat.mul_div_cancel s hms
    refine ⟨(x :: file) :: rest, seenAlike_cons (by rwa [hslot]) (by rwa [hslot]) rfl, ?_⟩
    refine iff_of_true ?_ hread
    have hmem : x ∈ (((x :: file) :: rest).map load).flatten :=
      List.mem_flatten.mpr ⟨load (x :: file), List.mem_cons_self, mem_load.mpr List.mem_cons_self⟩
    exact u.args.rate_pos_iff.mpr ⟨x, hmem, rfl, Nat.zero_div _, hslot⟩

/-- **A later step sees the test window.** Some slot of the window holds the label of a
    validation row. -/
theorem exists_stepData_ne {k : ℕ} (hk : 2 ≤ k) {d : StepData} (hd : u.stepData files k = some d) :
    ∃ files', u.SeenAlike files files' ∧ u.stepData files' k ≠ some d := by
  rw [stepData_eq] at hd
  split_ifs at hd with hexit
  obtain ⟨htest, t, hhist, ht, hvalid⟩ :=
    windows_of_not_exits (by omega) (Bool.eq_false_iff.mpr hexit)
  have hvalid := of_decide_eq_true hvalid
  -- the last validation row the step has
  let s := min (u.testSlot (u.nSlots files)) (u.nSlots files - k - 1)
  have hts : t ≤ s := le_min hvalid.2 (by omega)
  have hs : s < u.nSlots files - k := by omega
  obtain ⟨files', halike, hflip⟩ := @exists_flipped u files (s + k - 1) (by omega) (by omega)
  refine ⟨files', halike, fun hd' => ?_⟩
  rw [stepData_eq, halike.nSlots_eq, halike.nRanges_eq, if_neg hexit, ← hd] at hd'
  simp only [Option.some.injEq, StepData.mk.injEq] at hd'
  have hinValid : u.inValid (u.nSlots files) s := decide_eq_true ⟨by omega, min_le_left _ _⟩
  have hlabel := u.eq_of_blocks_eq hd'.2.2.2 (hhist.trans hts) hs hinValid (u.nRanges_pos files)
  have hiff := decide_eq_decide.mp hlabel
  rw [hflip] at hiff
  exact iff_not_self hiff.symm

/-- With slots of whole seconds `train_until_ms` is the first millisecond after the training
    window. -/
theorem trainUntilMs_of_wholeSeconds {n secs : ℕ} (hslot : u.args.slotS = secs)
    (hfit : (u.validSlot n + 1) * secs * 1000 ≤ 2 ^ 53) :
    u.trainUntilMs n = (u.validSlot n + 1) * u.args.slotMs := by
  have hms : u.args.slotMs = secs * 1000 := by
    have hle : secs * 1000 ≤ (u.validSlot n + 1) * secs * 1000 :=
      Nat.mul_le_mul_right _ (Nat.le_mul_of_pos_left _ (Nat.succ_pos _))
    have hcast : (secs : ℚ) * 1000 = (secs * 1000 : ℕ) := by push_cast; rfl
    unfold Args.slotMs
    rw [hslot, hcast, binary64_natCast (hle.trans hfit), Nat.floor_natCast]
  have hcast : (((u.validSlot n + 1) * secs : ℕ) : ℚ) * 1000 =
      ((u.validSlot n + 1) * secs * 1000 : ℕ) := by
    push_cast
    rfl
  unfold trainUntilMs
  rw [hslot, ← Nat.cast_mul, binary64_natCast (by omega), hcast, binary64_natCast hfit,
    Nat.floor_natCast, hms, Nat.mul_assoc]

/-- With slots of whole seconds the training window ends where the validation window begins. -/
theorem window_of_wholeSeconds {n secs : ℕ} (hslot : u.args.slotS = secs)
    (hfit : (u.validSlot n + 1) * secs * 1000 ≤ 2 ^ 53) (hvalid : u.validSlot n < u.testSlot n) :
    u.trainUntilMs n / u.args.slotMs ≤ u.testSlot n := by
  rw [trainUntilMs_of_wholeSeconds hslot hfit]
  rcases Nat.eq_zero_or_pos u.args.slotMs with hzero | hpos
  · rw [hzero, Nat.div_zero]
    exact Nat.zero_le _
  · rw [Nat.mul_div_cancel _ hpos]
    exact hvalid

end Setup

/-- **Only the one-step model is kept from the test window.** -/
theorem stepData_unaffected_iff (u : Setup) (files : List (List TraceRecord)) (k : ℕ) (hk : 1 ≤ k)
    (d : StepData) (hd : u.stepData files k = some d)
    (hwin : u.trainUntilMs (u.nSlots files) / u.args.slotMs ≤ u.testSlot (u.nSlots files)) :
    (∀ files', u.SeenAlike files files' → u.stepData files' k = some d) ↔ k = 1 := by
  constructor
  · intro hall
    by_contra hne
    obtain ⟨files', halike, hdiff⟩ := Setup.exists_stepData_ne (by omega) hd
    exact hdiff (hall files' halike)
  · rintro rfl files' halike
    exact halike.stepData_one hwin hd

/-- Slots of a second, one slot of history, and three quarters for each share. -/
def quarterSetup : Setup where
  args := ⟨1, 10, 1, 3, 0, 0⟩
  trainFrac := 3 / 4
  validFrac := 3 / 4
  numpy := fun _ _ _ => ⟨fun _ => [], fun _ _ => false⟩
  history_pos := Nat.one_pos
  trainFrac_nonneg := by norm_num
  validFrac_nonneg := by norm_num

/-- Twelve slots, with reads in the first and the last. -/
def quietFile : List TraceRecord :=
  [⟨0, 0, .read, by norm_num, by norm_num⟩, ⟨11000, 0, .read, by norm_num, by norm_num⟩]

/-- The same with a read in slot 8. -/
def busyFile : List TraceRecord := ⟨8000, 0, .read, by norm_num, by norm_num⟩ :: quietFile

/-- The one-step model of a trace with reads in its first and last slots. -/
theorem stepData_unaffected_quiet :
    ∃ d, quarterSetup.stepData [quietFile] 1 = some d ∧
      ∀ files', quarterSetup.SeenAlike [quietFile] files' →
        quarterSetup.stepData files' 1 = some d := by
  obtain ⟨d, hd⟩ := Option.isSome_iff_exists.mp
    (show (quarterSetup.stepData [quietFile] 1).isSome by decide +kernel)
  have hwin := @Setup.window_of_wholeSeconds quarterSetup (quarterSetup.nSlots [quietFile]) 1
    (by norm_num [quarterSetup]) (by decide +kernel) (by decide +kernel)
  exact ⟨d, hd, (stepData_unaffected_iff quarterSetup [quietFile] 1 le_rfl d hd hwin).mpr rfl⟩

/-- The two-step model is stopped early on slot 7, and the label is that of slot 8, in the test
    window. -/
theorem stepData_two_busy :
    quarterSetup.SeenAlike [quietFile] [busyFile] ∧
      quarterSetup.testSlot (quarterSetup.nSlots [quietFile]) = 7 ∧
      (quarterSetup.stepData [quietFile] 2).map StepData.stopLabels = some [false] ∧
      (quarterSetup.stepData [busyFile] 2).map StepData.stopLabels = some [true] :=
  ⟨⟨by decide +kernel, by decide +kernel, by decide +kernel⟩, by decide +kernel, by decide +kernel,
    by decide +kernel⟩

end Leaper.Train
