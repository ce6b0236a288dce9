import Leaper.Core.CollectorWindow
import Leaper.Core.Impl
import Leaper.Tools.Train

namespace Leaper.Train

open Lib

/-!
# Training rows and online features

The trainer counts the accesses of a trace in dense matrices, by range and slot; the plug-in
counts them as they come, in its ring of words.  A `Replay` is a trace, the arguments of both
sides, and a moment of the run at which the plug-in builds the features of a range.

* `Replay.Aligned.rates_eq` — what the ring reports is a row of the trainer's matrix;
* `Replay.Aligned.precursorRates_eq` — the precursors are those of the trainer's table;
* `Replay.features_eq_row` — the rates and precursor entries of the two sides agree.

Both sides cut a `double` to get the length of a slot, the trainer to milliseconds and the
plug-in to microseconds.  The agreement needs the two lengths to be the same, which whole
milliseconds alone do not give (`Replay.features_ne_row`).
-/

/-- The predictor `Predictor::Load` makes of some models and the trainer's precursor file. -/
def Args.loaded (a : Args) (rk : Ranking) (threads : List (List TraceRecord))
    (models : List Model) : Predictor where
  models := models
  precursors := Predictor.loadPrecursors a.gamma (a.precursorFile rk threads)
  history := a.history
  gamma := a.gamma

/-- A feature vector without its three timestamp entries. -/
def rateColumns (history : ℕ) (f : List ℚ) : List ℚ :=
  f.take (2 * history) ++ f.drop (2 * history + 3)

/-- The operations the plug-in counts as reads (`false`) and as writes (`true`). -/
def kind : Bool → OpType → Bool
  | false => OpType.isRead
  | true => fun o => !o.isRead

/-- A trace replayed on the plug-in's clock up to `now`, a time in slot `slot` of the trace,
    where the features of `range` are built.  `slotLen` is the length of a slot in
    milliseconds; the clock runs `shift` slots ahead of the trace. -/
structure Replay where
  args : Args
  opt : Options
  threads : List (List TraceRecord)
  slotLen : ℕ
  shift : ℕ
  past : List TraceRecord
  future : List TraceRecord
  now : ℕ
  slot : ℕ
  range : ℕ
  step : ℕ
  /-- The trace is replayed in time order. -/
  perm : (past ++ future).Perm threads.flatten
  sorted : (past ++ future).Pairwise fun x y => x.tMs ≤ y.tMs
  past_le : ∀ x ∈ past, (x.tMs + shift * slotLen) * 1000 ≤ now
  le_future : ∀ x ∈ future, now ≤ (x.tMs + shift * slotLen) * 1000
  /-- Slots are whole milliseconds long, and the offset is a whole number of them. -/
  slotLen_pos : 0 < slotLen
  slotS_eq : args.slotS = binary64 (slotLen / 1000)
  clockOffsetS_eq : args.clockOffsetS = binary64 (shift * slotLen / 1000)
  /-- The plug-in runs with the trainer's arguments and samples nothing away. -/
  slotSeconds_eq : opt.slotSeconds = args.slotS
  historySlots_eq : opt.historySlots = args.history
  history_pos : 1 ≤ args.history
  sampleRate_eq : opt.sampleRate = 1
  rangeSize_pos : 0 < args.rangeSize
  rid_le : ∀ x ∈ threads.flatten, args.rid x ≤ opt.maxRangeId
  range_le : range ≤ opt.maxRangeId
  maxRangeId_lt : opt.maxRangeId < opt.maxRanges
  /-- Counts are exact in a `float`. -/
  count_le : ∀ w r s, args.count (kind w) threads.flatten r s ≤ 2 ^ 24
  /-- The data set has a row for the range and slot, and `now` lies in that slot. -/
  history_le : args.history ≤ slot
  slot_lt : slot < args.nSlots threads.flatten - step
  range_lt : range < args.nRanges threads.flatten
  now_slot : (LeaperImpl.newCollector opt).params.slotOf now = slot + shift

namespace Replay

variable (x : Replay)

/-- The call the engine makes for a record. -/
def access (t : TraceRecord) : Access :=
  ⟨x.args.rid t, !t.op.isRead, (t.tMs + x.shift * x.slotLen) * 1000⟩

/-- The collector at `now`. -/
def collector : Collector := (LeaperImpl.newCollector x.opt).recordAll (x.past.map x.access)

/-- The rate and precursor entries `BuildFeatures` computes at `now`. -/
def features (rk : Ranking) (models : List Model) : List ℚ :=
  rateColumns x.args.history
    ((x.args.loaded rk x.threads models).buildFeatures x.collector x.range x.now)

/-- The same columns of the row of range and slot in the trainer's data set. -/
def row (rk : Ranking) : Option (List ℚ) :=
  (x.args.dataset rk x.threads x.step).1[
    (x.slot - x.args.history) * x.args.nRanges x.threads.flatten + x.range]?.map
      (rateColumns x.args.history)

/-- The constant members of the collector. -/
def params : CollectorParams := (LeaperImpl.newCollector x.opt).params

/-! ### The collector's members -/

theorem params_history : x.params.history = x.args.history := by
  have hpos : 0 < x.args.history := x.history_pos
  show (if 0 < x.opt.historySlots then x.opt.historySlots else 1) = _
  rw [x.historySlots_eq, if_pos hpos]

/-- No two ranges of the trace share a row of the table. -/
theorem maxRangeId_lt_rows : x.opt.maxRangeId < x.params.mask + 1 :=
  LeaperImpl.maxRangeId_lt_rows x.maxRangeId_lt

theorem range_mod {r : ℕ} (hr : r ≤ x.opt.maxRangeId) : r % (x.params.mask + 1) = r := by
  have hrows := x.maxRangeId_lt_rows
  exact Nat.mod_eq_of_lt (by omega)

theorem rid_le_of_mem_past {t : TraceRecord} (ht : t ∈ x.past) : x.args.rid t ≤ x.opt.maxRangeId :=
  x.rid_le t (x.perm.mem_iff.mp (List.mem_append_left _ ht))

theorem kind_iff (w : Bool) (o : OpType) : kind w o = true ↔ (!o.isRead) = w := by
  cases w
  · simp [kind]
  · simp [kind]

/-! ### Slots -/

/-- Both sides cut the slot length to the one that was meant, and the slot fits the stamp of a
    collector word. -/
structure Aligned : Prop where
  slotMs_eq : x.args.slotMs = x.slotLen
  slotUs_eq : x.params.slotUs = 1000 * x.slotLen
  stamp_lt : x.slot + x.shift < 2 ^ 32

variable {x}

/-- **The plug-in's slot of an access** is the trainer's, moved by the offset. -/
theorem Aligned.slotOf_access (h : x.Aligned) (t : TraceRecord) :
    x.params.slotOf (x.access t).nowUs = x.args.slotOf t + x.shift := by
  have hpos := x.slotLen_pos
  show (t.tMs + x.shift * x.slotLen) * 1000 / x.params.slotUs = t.tMs / x.args.slotMs + x.shift
  rw [h.slotUs_eq, h.slotMs_eq, Nat.mul_comm, Nat.mul_div_mul_left _ _ (by norm_num),
    Nat.add_mul_div_right _ _ hpos]

theorem Aligned.slotOf_le_of_mem_past (h : x.Aligned) {t : TraceRecord} (ht : t ∈ x.past) :
    x.args.slotOf t ≤ x.slot := by
  have hle : x.params.slotOf (x.access t).nowUs ≤ x.params.slotOf x.now :=
    Nat.div_le_div_right (x.past_le t ht)
  have hnow : x.params.slotOf x.now = x.slot + x.shift := x.now_slot
  rw [h.slotOf_access] at hle
  omega

theorem Aligned.slot_le_of_mem_future (h : x.Aligned) {t : TraceRecord} (ht : t ∈ x.future) :
    x.slot ≤ x.args.slotOf t := by
  have hle : x.params.slotOf x.now ≤ x.params.slotOf (x.access t).nowUs :=
    Nat.div_le_div_right (x.le_future t ht)
  have hnow : x.params.slotOf x.now = x.slot + x.shift := x.now_slot
  rw [h.slotOf_access] at hle
  omega

/-! ### Counts -/

/-- What the collector counts for a row of its table and a slot. -/
theorem Aligned.countIn_eq (h : x.Aligned) (w : Bool) {r : ℕ} (s : ℕ) :
    countIn x.params (x.past.map x.access) w r (s + x.shift) =
      x.args.count (kind w) x.past (r % (x.params.mask + 1)) s := by
  unfold countIn Args.count
  rw [List.countP_map]
  refine List.countP_congr fun t ht => ?_
  have hmod := x.range_mod (x.rid_le_of_mem_past ht)
  simp only [Function.comp_apply, h.slotOf_access, decide_eq_true_eq, kind_iff,
    Nat.add_right_cancel_iff]
  show _ ∧ x.args.rid t % _ = _ ∧ _ ↔ _
  rw [hmod]
  rfl

/-- Nothing of an earlier slot is still to come. -/
theorem Aligned.count_past (h : x.Aligned) (w : Bool) (r : ℕ) {s : ℕ} (hs : s < x.slot) :
    x.args.count (kind w) x.past r s = x.args.count (kind w) x.threads.flatten r s := by
  have hfuture : x.args.count (kind w) x.future r s = 0 := by
    unfold Args.count
    rw [List.countP_eq_zero]
    intro t ht
    have hle := h.slot_le_of_mem_future ht
    simp only [decide_eq_true_eq]
    omega
  unfold Args.count at hfuture ⊢
  rw [← x.perm.countP_eq, List.countP_append, hfuture, Nat.add_zero]

/-- Counts fit their words; before the start of the trace there is nothing to count. -/
theorem Aligned.countIn_lt (h : x.Aligned) (w : Bool) (r e : ℕ) :
    countIn x.params (x.past.map x.access) w r e < 2 ^ 32 := by
  rcases Nat.lt_or_ge e x.shift with he | he
  · have hzero : countIn x.params (x.past.map x.access) w r e = 0 := by
      unfold countIn
      rw [List.countP_eq_zero]
      intro a ha
      obtain ⟨t, -, rfl⟩ := List.mem_map.mp ha
      simp only [h.slotOf_access, decide_eq_true_eq]
      omega
    rw [hzero]
    norm_num
  · obtain ⟨s, rfl⟩ := Nat.exists_eq_add_of_le' he
    have hle := x.count_le w (r % (x.params.mask + 1)) s
    have hpast : x.args.count (kind w) x.past (r % (x.params.mask + 1)) s ≤
        x.args.count (kind w) x.threads.flatten (r % (x.params.mask + 1)) s := by
      unfold Args.count
      rw [← x.perm.countP_eq, List.countP_append]
      exact Nat.le_add_right _ _
    rw [h.countIn_eq]
    omega

/-- **A replay is a run the ring is made for.** -/
theorem Aligned.timely (h : x.Aligned) : Timely x.params (x.past.map x.access) x.now where
  unsampled := by
    show 1 ≤ x.opt.sampleRate
    rw [x.sampleRate_eq]
  lag := by
    -- in time order no access lags at all
    apply List.pairwise_map.mpr
    apply (List.pairwise_append.mp x.sorted).1.imp
    intro t u htu
    have hslot : x.args.slotOf t ≤ x.args.slotOf u := Nat.div_le_div_right htu
    rw [h.slotOf_access, h.slotOf_access]
    omega
  slot_lt := by
    intro a ha
    obtain ⟨t, ht, rfl⟩ := List.mem_map.mp ha
    have hle := h.slotOf_le_of_mem_past ht
    have hlt := h.stamp_lt
    rw [h.slotOf_access]
    omega
  count_lt := h.countIn_lt
  query := by
    intro a ha
    obtain ⟨t, ht, rfl⟩ := List.mem_map.mp ha
    exact Nat.div_le_div_right (x.past_le t ht)

/-- **The ring reports the trainer's rates**: those of the slots before the current one. -/
theorem Aligned.rates_eq (h : x.Aligned) (w : Bool) {r : ℕ} (hr : r ≤ x.opt.maxRangeId) :
    x.collector.rates w r x.now = (List.range x.args.history).map fun i =>
      x.args.rate (kind w) x.threads.flatten r (x.slot - x.args.history + i) := by
  have hnow : x.params.slotOf x.now = x.slot + x.shift := x.now_slot
  have hhist := x.history_le
  have hring := h.timely.rates_recordAll w r
  rw [x.params_history, hnow] at hring
  refine hring.trans (List.map_congr_left fun i hi => ?_)
  rw [List.mem_range] at hi
  have hslot : x.slot + x.shift + i - x.args.history = x.slot - x.args.history + i + x.shift := by
    omega
  -- the window position is the trainer's slot, moved by the offset
  have hwindow : windowCount x.params (x.past.map x.access) w r (x.slot + x.shift) i =
      x.args.count (kind w) x.threads.flatten r (x.slot - x.args.history + i) := by
    unfold windowCount
    rw [x.params_history, if_pos (by omega), hslot, h.countIn_eq, x.range_mod hr,
      h.count_past w r (by omega)]
  rw [hwindow, Args.rate_eq _ (x.count_le w r _), binary32_natCast (x.count_le w r _)]

/-! ### Features -/

/-- Both feature vectors are put together in the same way. -/
theorem rateColumns_append {h : ℕ} {reads writes stamp precs : List ℚ} (hreads : reads.length = h)
    (hwrites : writes.length = h) (hstamp : stamp.length = 3) :
    rateColumns h (reads ++ writes ++ stamp ++ precs) = reads ++ writes ++ precs := by
  have hrates := Args.length_histories hreads hwrites
  have hfront : (reads ++ writes ++ stamp).length = 2 * h + 3 := by
    rw [List.length_append, hrates, hstamp]
  unfold rateColumns
  rw [List.drop_left' hfront, List.append_assoc (reads ++ writes), List.take_left' hrates]

/-- **The precursor entries agree**: the file gives back the trainer's table, and the last
    position of a history is the slot before the current one. -/
theorem Aligned.precursorRates_eq (h : x.Aligned) (rk : Ranking) (models : List Model) :
    (x.args.loaded rk x.threads models).precursorRates x.collector x.range x.now =
      (List.range x.args.gamma).map fun g =>
        match (x.args.precursors rk x.threads x.range).getD g (-1) with
        | Int.ofNat q => x.args.readRate x.threads.flatten q (x.slot - 1)
        | Int.negSucc _ => 0 := by
  have hpos := x.history_pos
  have hhist := x.history_le
  -- a precursor's rate in the previous slot
  have hrate : ∀ q ∈ x.args.keep rk x.threads x.range,
      (x.collector.history q x.now).1.getD (x.args.history - 1) 0 =
        x.args.readRate x.threads.flatten q (x.slot - 1) := by
    intro q hq
    obtain ⟨t, ht, rfl⟩ := Args.exists_rid_of_keep hq
    show (x.collector.rates false _ x.now).getD _ 0 = _
    rw [h.rates_eq false (x.rid_le t ht), List.getD_eq_getElem?_getD, List.getElem?_map,
      List.getElem?_range (by omega)]
    show x.args.rate _ _ _ _ = x.args.rate _ _ _ _
    congr 1
    omega
  have hload : (x.args.loaded rk x.threads models).precursors x.range =
      if x.args.keep rk x.threads x.range ≠ [] then some (x.args.keep rk x.threads x.range)
      else none := by
    refine (Args.loadPrecursors_precursorFile x.args rk x.threads x.range).trans ?_
    simp only [x.range_lt, true_and]
  unfold Predictor.precursorRates
  refine List.map_congr_left fun g _ => ?_
  rw [hload, Args.getD_precursors]
  by_cases hkeep : x.args.keep rk x.threads x.range = []
  · rw [if_neg (not_not.mpr hkeep), hkeep]
    rfl
  · rw [if_pos hkeep]
    cases hg : (x.args.keep rk x.threads x.range)[g]? with
    | none => simp only [hg]; rfl
    | some q => simp only [hg]; exact hrate q (List.mem_of_getElem? hg)

/-- **Training rows are online features.** Where both sides agree on the slot length, the rate
    and precursor entries the plug-in computes at any time of a slot are those columns of the
    trainer's row. -/
theorem features_eq_row (x : Replay) (h : x.Aligned) (rk : Ranking) (models : List Model) :
    x.row rk = some (x.features rk models) := by
  have hrow := x.args.buildDataset_row (x.args.readRate x.threads.flatten)
    (x.args.writeRate x.threads.flatten) (x.args.precursors rk x.threads) x.history_le
    x.slot_lt x.range_lt
  have hlen : ∀ w, (x.collector.rates w x.range x.now).length = x.args.history := by
    intro w
    rw [h.rates_eq w x.range_le, List.length_map, List.length_range]
  -- both sides are read rates, write rates and precursor entries, in this order
  have hfeatures : x.features rk models =
      x.collector.rates false x.range x.now ++ x.collector.rates true x.range x.now ++
        (x.args.loaded rk x.threads models).precursorRates x.collector x.range x.now := by
    show rateColumns _ ((x.collector.rates false x.range x.now).take x.args.history ++
      (x.collector.rates true x.range x.now).take x.args.history ++ _ ++ _) = _
    rw [List.take_of_length_le (hlen false).le, List.take_of_length_le (hlen true).le,
      rateColumns_append (hlen false) (hlen true) rfl]
  unfold row Args.dataset
  rw [hrow, Option.map_some, hfeatures, h.rates_eq false x.range_le, h.rates_eq true x.range_le,
    h.precursorRates_eq rk models]
  unfold Args.datasetRow
  rw [rateColumns_append (by simp) (by simp) rfl]
  rfl

/-- Slots of one second, two of them before the trace starts; range 1 is read before range 0. -/
def wholeSeconds : Replay where
  args := ⟨1, 10, 1, 1, 4000, 2⟩
  opt := { historySlots := 1, maxRangeId := 63, historySlots_lt := one_lt_historyLimit }
  threads :=
    [[⟨1100, 15, .read, by decide, by decide⟩, ⟨1200, 5, .read, by decide, five_lt_keyLimit⟩,
      ⟨3500, 5, .read, by decide, five_lt_keyLimit⟩],
     [⟨1300, 7, .scan, by decide, by decide⟩, ⟨1400, 5, .update, by decide, five_lt_keyLimit⟩]]
  slotLen := 1000
  shift := 2
  past :=
    [⟨1100, 15, .read, by decide, by decide⟩, ⟨1200, 5, .read, by decide, five_lt_keyLimit⟩,
     ⟨1300, 7, .scan, by decide, by decide⟩, ⟨1400, 5, .update, by decide, five_lt_keyLimit⟩]
  future := [⟨3500, 5, .read, by decide, five_lt_keyLimit⟩]
  now := 4500000
  slot := 2
  range := 0
  step := 1
  perm := by decide +kernel
  sorted := by decide +kernel
  past_le := by decide +kernel
  le_future := by decide +kernel
  slotLen_pos := by decide
  slotS_eq := by decide +kernel
  clockOffsetS_eq := by decide +kernel
  slotSeconds_eq := rfl
  historySlots_eq := rfl
  history_pos := le_rfl
  sampleRate_eq := rfl
  rangeSize_pos := by decide
  rid_le := by decide +kernel
  range_le := by decide
  maxRangeId_lt := by decide +kernel
  count_le := fun _ _ _ => le_trans List.countP_le_length (by decide)
  history_le := by decide
  slot_lt := by decide +kernel
  range_lt := by decide +kernel
  now_slot := by decide +kernel

/-- Every candidate in order of its number, and similar. -/
def everyRange : Ranking := ⟨fun _ => List.range 64, fun _ _ => true⟩

/-- Two reads and one write of range 0, and one read of its precursor. -/
theorem features_eq_row_wholeSeconds :
    wholeSeconds.features everyRange [] = [2, 1, 1] ∧
      wholeSeconds.row everyRange = some (wholeSeconds.features everyRange []) :=
  ⟨by decide +kernel,
    features_eq_row wholeSeconds ⟨by decide +kernel, by decide +kernel, by decide⟩ everyRange []⟩

/-- Slots of 2.01 seconds: the trainer cuts `2.01 * 1000` to 2009 milliseconds, the plug-in
    `2.01 * 1e6` to 2009999 microseconds. -/
def cutSlots : Replay where
  args := ⟨binary64 (201 / 100), 10, 1, 1, 8000, 0⟩
  opt := { slotSeconds := binary64 (201 / 100), historySlots := 1, maxRangeId := 63
           historySlots_lt := one_lt_historyLimit }
  threads := [[⟨2009, 0, .read, by decide, by decide⟩, ⟨8000, 0, .read, by decide, by decide⟩]]
  slotLen := 2010
  shift := 0
  past := [⟨2009, 0, .read, by decide, by decide⟩]
  future := [⟨8000, 0, .read, by decide, by decide⟩]
  now := 5000000
  slot := 2
  range := 0
  step := 1
  perm := by decide +kernel
  sorted := by decide +kernel
  past_le := by decide +kernel
  le_future := by decide +kernel
  slotLen_pos := by decide
  slotS_eq := by decide +kernel
  clockOffsetS_eq := by decide +kernel
  slotSeconds_eq := rfl
  historySlots_eq := rfl
  history_pos := le_rfl
  sampleRate_eq := rfl
  rangeSize_pos := by decide
  rid_le := by decide +kernel
  range_le := by decide
  maxRangeId_lt := by decide +kernel
  count_le := fun _ _ _ => le_trans List.countP_le_length (by decide)
  history_le := by decide
  slot_lt := by decide +kernel
  range_lt := by decide +kernel
  now_slot := by decide +kernel

/-- The read at 2009 ms is in slot 1 for the trainer and in slot 0 for the plug-in, so the row
    of slot 2 has it and the features built in slot 2 do not. -/
theorem features_ne_row :
    cutSlots.args.slotMs = 2009 ∧ cutSlots.params.slotUs = 2009999 ∧
      cutSlots.row everyRange = some [1, 0, 0] ∧ cutSlots.features everyRange [] = [0, 0, 0] := by
  decide +kernel

end Replay

end Leaper.Train
