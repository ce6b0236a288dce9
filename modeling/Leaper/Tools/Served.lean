import Leaper.Core.Open
import Leaper.Tools.Stamps
import Leaper.Tools.TrainServe

namespace Leaper.Train

open Lib Gbdt

/-!
# What is served is what was trained

The whole way of a model: the trainer turns a trace into rows, fits one forest for each step
ahead and writes them out with the precursor table; the plug-in is opened on these files, counts
the accesses of a run, and asks the forests about the features it builds itself.

`served_as_trained` follows it: for a trace that is replayed, the plug-in predicts a range hot
exactly if the trained forests do so on the trainer's row of that range and slot.  Where the two
sides stamp a row differently, this is said of forests that do not look at the stamp.
-/

/-- A tree splits on features of some kind only. -/
def SplitsOn (P : ℕ → Prop) : DTree ℚ → Prop
  | .leaf _ => True
  | .node f _ l r => P f ∧ SplitsOn P l ∧ SplitsOn P r

instance decidableSplitsOn (P : ℕ → Prop) [DecidablePred P] : DecidablePred (SplitsOn P)
  | .leaf _ => isTrue trivial
  | .node f _ l r =>
    haveI := decidableSplitsOn P l
    haveI := decidableSplitsOn P r
    inferInstanceAs (Decidable (P f ∧ SplitsOn P l ∧ SplitsOn P r))

theorem splitsOn_true (T : DTree ℚ) : SplitsOn (fun _ => True) T := by
  induction T with
  | leaf value => exact trivial
  | node i thr l r ihl ihr => exact ⟨trivial, ihl, ihr⟩

/-- A tree sees the features it splits on. -/
theorem SplitsOn.eval_congr {P : ℕ → Prop} {f g : List ℚ} (hfg : ∀ i, P i → f.getD i 0 = g.getD i 0)
    {T : DTree ℚ} (hT : SplitsOn P T) : T.eval f = T.eval g := by
  induction T with
  | leaf value => rfl
  | node i thr l r ihl ihr =>
    obtain ⟨hi, hl, hr⟩ := hT
    rw [DTree.eval, DTree.eval, hfg i hi, ihl hl, ihr hr]

/-- What stands before and after a part of a list does not depend on it. -/
theorem getD_append_middle {a b b' c : List ℚ} (hlen : b.length = b'.length) {i : ℕ}
    (hi : i < a.length ∨ a.length + b.length ≤ i) :
    (a ++ b ++ c).getD i 0 = (a ++ b' ++ c).getD i 0 := by
  rcases hi with hi | hi
  · rw [List.append_assoc, List.append_assoc, List.getD_append _ _ _ _ hi,
      List.getD_append _ _ _ _ hi]
  · have hab : (a ++ b).length ≤ i := by rw [List.length_append]; exact hi
    have hab' : (a ++ b').length ≤ i := by rw [List.length_append, ← hlen]; exact hi
    rw [List.getD_append_right _ _ _ _ hab, List.getD_append_right _ _ _ _ hab',
      List.length_append, List.length_append, hlen]

/-- The probability of a forest that splits on features two vectors agree on. -/
theorem probability_congr {atof : List Char → ℚ} {d : Dump atof} (exp : ℚ → ℚ) {P : ℕ → Prop}
    {f g : List ℚ} (hfg : ∀ i, P i → f.getD i 0 = g.getD i 0)
    (hd : ∀ T ∈ d.forest, SplitsOn P T) : d.probability exp f = d.probability exp g := by
  unfold Dump.probability
  rw [List.map_congr_left fun T hT => (hd T hT).eval_congr hfg]

/-- The trained forests, one for each step, call a row hot for steps `lo..hi`. -/
def TrainedHot {atof : List Char → ℚ} (exp : ℚ → ℚ) (dumps : List (Dump atof)) (row : List ℚ)
    (thr : ℚ) (lo hi : ℕ) : Prop :=
  (∃ s, lo ≤ s ∧ s ≤ min hi dumps.length ∧
    ∃ d, dumps[s - 1]? = some d ∧ thr ≤ d.probability exp row) ∨
  ∃ d, dumps = [d] ∧ thr ≤ d.probability exp row

namespace Replay

variable {x : Replay}

/-- The trainer's row. -/
def trainerRow (x : Replay) (rk : Ranking) : List ℚ :=
  x.args.datasetRow (x.args.readRate x.threads.flatten) (x.args.writeRate x.threads.flatten)
    (x.args.precursors rk x.threads) x.range x.slot

/-- It is in the data set. -/
theorem getElem?_dataset (x : Replay) (rk : Ranking) :
    (x.args.dataset rk x.threads x.step).1[
      (x.slot - x.args.history) * x.args.nRanges x.threads.flatten + x.range]? =
      some (x.trainerRow rk) :=
  x.args.buildDataset_row _ _ _ x.history_le x.slot_lt x.range_lt

/-- The features no clock has to do with. -/
def NoStamp (history i : ℕ) : Prop := i < 2 * history ∨ 2 * history + 3 ≤ i

instance (history : ℕ) : DecidablePred (NoStamp history) :=
  fun _ => inferInstanceAs (Decidable (_ ∨ _))

/-- **The vector built online is the trainer's row**, up to the stamp. -/
theorem Aligned.getD_buildFeatures (h : x.Aligned) (rk : Ranking) (models : List Model) {i : ℕ}
    (hi : NoStamp x.args.history i ∨ x.args.stamp x.slot = clockOf (x.now / 1000000)) :
    ((x.args.loaded rk x.threads models).buildFeatures x.collector x.range x.now).getD i 0 =
      (x.trainerRow rk).getD i 0 := by
  have hlen : ∀ w, (x.collector.rates w x.range x.now).length = x.args.history := by
    intro w
    rw [h.rates_eq w x.range_le, List.length_map, List.length_range]
  have hvector : (x.args.loaded rk x.threads models).buildFeatures x.collector x.range x.now =
      x.collector.rates false x.range x.now ++ x.collector.rates true x.range x.now ++
        clockOf (x.now / 1000000) ++
        (x.args.loaded rk x.threads models).precursorRates x.collector x.range x.now := by
    show (x.collector.rates false x.range x.now).take x.args.history ++
      (x.collector.rates true x.range x.now).take x.args.history ++ _ ++ _ = _
    rw [List.take_of_length_le (hlen false).le, List.take_of_length_le (hlen true).le]
    rfl
  have hrow : x.trainerRow rk =
      x.collector.rates false x.range x.now ++ x.collector.rates true x.range x.now ++
        x.args.stamp x.slot ++
        (x.args.loaded rk x.threads models).precursorRates x.collector x.range x.now := by
    rw [h.rates_eq false x.range_le, h.rates_eq true x.range_le, h.precursorRates_eq rk models]
    rfl
  rw [hvector, hrow]
  rcases hi with hi | hstamp
  · have hthree : (clockOf (x.now / 1000000)).length = (x.args.stamp x.slot).length := rfl
    refine getD_append_middle hthree ?_
    rw [List.length_append, hlen, hlen]
    unfold NoStamp at hi
    show _ ∨ _ + 3 ≤ i
    omega
  · rw [hstamp]

/-- The forests that are opened, as the models of the predictor. -/
theorem predictedHot_iff (h : x.Aligned) (rk : Ranking) {atof : List Char → ℚ} (exp : ℚ → ℚ)
    (dumps : List (Dump atof))
    (hstamp : x.args.stamp x.slot = clockOf (x.now / 1000000) ∨
      ∀ d ∈ dumps, ∀ T ∈ d.forest, SplitsOn (NoStamp x.args.history) T)
    (thr : ℚ) (lo hi : ℕ) :
    (x.args.loaded rk x.threads (dumps.map (·.probability exp))).PredictedHot x.collector x.now thr
        lo hi x.range ↔ TrainedHot exp dumps (x.trainerRow rk) thr lo hi := by
  have hprob : ∀ d ∈ dumps, d.probability exp
      ((x.args.loaded rk x.threads (dumps.map (·.probability exp))).buildFeatures x.collector
        x.range x.now) = d.probability exp (x.trainerRow rk) := by
    intro d hd
    rcases hstamp with hstamp | hsplits
    · exact probability_congr exp (fun i _ => h.getD_buildFeatures rk _ (Or.inr hstamp))
        fun T _ => splitsOn_true T
    · exact probability_congr exp (fun i hi => h.getD_buildFeatures rk _ (Or.inl hi)) (hsplits d hd)
  unfold Predictor.PredictedHot TrainedHot
  refine or_congr ?_ ?_
  · refine exists_congr fun s => and_congr_right fun _ => ?_
    show s ≤ min hi (dumps.map (·.probability exp)).length ∧ _ ↔ _
    rw [List.length_map]
    refine and_congr_right fun _ => ?_
    constructor
    · rintro ⟨m, hm, hle⟩
      have hmap : (dumps.map (·.probability exp))[s - 1]? = some m := hm
      rw [List.getElem?_map] at hmap
      obtain ⟨d, hd, rfl⟩ := Option.map_eq_some_iff.mp hmap
      exact ⟨d, hd, (hprob d (List.mem_of_getElem? hd)) ▸ hle⟩
    · rintro ⟨d, hd, hle⟩
      refine ⟨d.probability exp, ?_, (hprob d (List.mem_of_getElem? hd)).symm ▸ hle⟩
      show (dumps.map (·.probability exp))[s - 1]? = _
      rw [List.getElem?_map, hd]
      rfl
  · constructor
    · rintro ⟨m, hm, hle⟩
      obtain ⟨d, rfl, rfl⟩ := List.map_eq_singleton_iff.mp hm
      exact ⟨d, rfl, hprob d List.mem_cons_self ▸ hle⟩
    · rintro ⟨d, rfl, hle⟩
      exact ⟨d.probability exp, rfl, (hprob d List.mem_cons_self).symm ▸ hle⟩

/-- The files of the dumps are loaded as the dumps' models. -/
theorem forall₂_loadFile {atof : List Char → ℚ} {fs : Files} {paths : List String}
    {dumps : List (Dump atof)}
    (hfiles : List.Forall₂ (fun path d => fs path = some d.text) paths dumps)
    (hforest : ∀ d ∈ dumps, d.forest ≠ []) :
    List.Forall₂ (fun path m => loadFile atof fs path = .ok m) paths (dumps.map (·.model)) := by
  induction hfiles with
  | nil => exact List.Forall₂.nil
  | @cons path d paths dumps hfile _ ih =>
    refine List.Forall₂.cons ?_ (ih fun d' hd' => hforest d' (List.mem_cons_of_mem d hd'))
    unfold loadFile
    rw [hfile]
    exact loadString_dump d (hforest d List.mem_cons_self)

/-- **What is served is what was trained.** The plug-in is opened on the dumps of the forests, one
    for each step, and on the trainer's precursor file, with the trainer's arguments.  It opens;
    the models it has loaded run, in one way only; and among candidates it returns the range, at
    any time of a slot of the replayed trace and for any steps and threshold, exactly if the
    forests call the trainer's row of that range and slot hot.  The stamp of the row has to be the
    clock's, or no tree may split on it. -/
theorem served_as_trained (x : Replay) (h : x.Aligned) (rk : Ranking)
    (hpol : x.opt.policy = .leaper)
    (hgamma : x.args.gamma = 3) {atof : List Char → ℚ} (exp : ℚ → ℚ) {fs : Files}
    (mapper : RangeMapper) {paths : Paths} {dumps : List (Dump atof)}
    (hfiles : List.Forall₂ (fun path d => fs path = some d.text) paths.modelPaths dumps)
    (hne : dumps ≠ []) (hforest : ∀ d ∈ dumps, d.forest ≠ [])
    (hfit : ∀ d ∈ dumps, d.model.numFeatures ≤ (2 * x.args.history + 3 + 3 : ℕ))
    (hpath : paths.precursorPath ≠ "")
    (hprec : fs paths.precursorPath = some (x.args.precursorFile rk x.threads))
    (hstamp : x.args.stamp x.slot = clockOf (x.now / 1000000) ∨
      ∀ d ∈ dumps, ∀ T ∈ d.forest, SplitsOn (NoStamp x.args.history) T) :
    ∃ o, openCore atof fs x.opt mapper paths = .ok o ∧
      (∃ models, List.Forall₂ (Runs exp) o.loaded.models models) ∧
      ∀ models, List.Forall₂ (Runs exp) o.loaded.models models →
        ∀ cs lo hi thr, 1 ≤ lo → x.range ∈ cs →
          ∃ row, (x.args.dataset rk x.threads x.step).1[
              (x.slot - x.args.history) * x.args.nRanges x.threads.flatten + x.range]? = some row ∧
            (x.range ∈ ((o.core models).predictor.predictHot x.collector cs lo hi x.now thr).out ↔
              TrainedHot exp dumps row thr lo hi) := by
  have hload : loadPredictor atof fs paths.modelPaths paths.precursorPath x.opt.historySlots 3
      x.opt.memoizePredictions = .ok ⟨dumps.map (·.model),
        Predictor.loadPrecursors 3 (x.args.precursorFile rk x.threads), x.opt.historySlots, 3,
        x.opt.memoizePredictions⟩ := by
    refine loadPredictor_ok_iff.mpr ⟨_, _, rfl, forall₂_loadFile hfiles hforest, ?_, ?_, ?_⟩
    · exact fun hnil => hne (List.map_eq_nil_iff.mp hnil)
    · intro m hm
      obtain ⟨d, hd, rfl⟩ := List.mem_map.mp hm
      rw [x.historySlots_eq]
      exact hfit d hd
    · unfold loadPrecursorFile
      rw [if_neg hpath, hprec]
  have hruns : List.Forall₂ (Runs exp) (dumps.map (·.model)) (dumps.map (·.probability exp)) := by
    rw [List.forall₂_map_left_iff, List.forall₂_map_right_iff, List.forall₂_same]
    exact fun d _ => runs_dump d exp
  refine ⟨_, (openCore_leaper_iff hpol).mpr ⟨_, rfl, hload⟩, ⟨_, hruns⟩, ?_⟩
  intro models hmodels cs lo hi thr hlo hcs
  obtain rfl : dumps.map (·.probability exp) = models :=
    List.right_unique_forall₂' (fun _ _ _ hf hg => hf.unique hg) hruns hmodels
  refine ⟨x.trainerRow rk, x.getElem?_dataset rk, ?_⟩
  rw [Predictor.out_predictHot (MemoInv.ok (MemoInv.of_empty rfl _ _ _) _ le_rfl), mem_sortUnique,
    List.mem_filter, Predictor.predicts_iff _ _ _ _ hlo]
  simp only [hcs, true_and]
  -- the opened predictor has the members of the trainer's, but for the memo switch
  have hsame : ∀ memoize, (Predictor.mk (dumps.map (·.probability exp))
      (Predictor.loadPrecursors 3 (x.args.precursorFile rk x.threads)) x.opt.historySlots 3 memoize
      [] 0).PredictedHot x.collector x.now thr lo hi x.range ↔
      (x.args.loaded rk x.threads (dumps.map (·.probability exp))).PredictedHot x.collector x.now
        thr lo hi x.range := by
    intro memoize
    rw [x.historySlots_eq, ← hgamma]
    exact Iff.rfl
  exact (hsame _).trans (predictedHot_iff h rk exp dumps hstamp thr lo hi)

/-- The trace of `wholeSeconds` with three precursors for each range, under the learned policy. -/
def servedSeconds : Replay where
  args := ⟨1, 10, 1, 3, 4000, 2⟩
  opt := { policy := .leaper, historySlots := 1, maxRangeId := 63,
           historySlots_lt := one_lt_historyLimit }
  threads := wholeSeconds.threads
  slotLen := 1000
  shift := 2
  past := wholeSeconds.past
  future := wholeSeconds.future
  now := 4500000
  slot := 2
  range := 0
  step := 1
  perm := wholeSeconds.perm
  sorted := wholeSeconds.sorted
  past_le := wholeSeconds.past_le
  le_future := wholeSeconds.le_future
  slotLen_pos := wholeSeconds.slotLen_pos
  slotS_eq := wholeSeconds.slotS_eq
  clockOffsetS_eq := wholeSeconds.clockOffsetS_eq
  slotSeconds_eq := wholeSeconds.slotSeconds_eq
  historySlots_eq := wholeSeconds.historySlots_eq
  history_pos := wholeSeconds.history_pos
  sampleRate_eq := wholeSeconds.sampleRate_eq
  rangeSize_pos := wholeSeconds.rangeSize_pos
  rid_le := wholeSeconds.rid_le
  range_le := wholeSeconds.range_le
  maxRangeId_lt := wholeSeconds.maxRangeId_lt
  count_le := wholeSeconds.count_le
  history_le := wholeSeconds.history_le
  slot_lt := wholeSeconds.slot_lt
  range_lt := wholeSeconds.range_lt
  now_slot := wholeSeconds.now_slot

/-- The model file and the precursor file. -/
def servedFiles (path : String) : Option (List Char) :=
  if path = "model.txt" then some sampleDump.text
  else if path = "precursors.txt" then
    some (servedSeconds.args.precursorFile everyRange servedSeconds.threads)
  else none

/-- Two trees that split on the read and the write rate of the previous slot. -/
theorem served_as_trained_seconds :
    ∃ o, openCore wholeAtof servedFiles servedSeconds.opt sampleCore.mapper
        ⟨["model.txt"], "precursors.txt", ""⟩ = .ok o ∧
      (∃ models, List.Forall₂ (Runs fun q => max 0 (1 + q)) o.loaded.models models) ∧
      ∀ models, List.Forall₂ (Runs fun q => max 0 (1 + q)) o.loaded.models models →
        ∀ cs lo hi thr, 1 ≤ lo → servedSeconds.range ∈ cs →
          ∃ row, (servedSeconds.args.dataset everyRange servedSeconds.threads
              servedSeconds.step).1[(servedSeconds.slot - servedSeconds.args.history) *
                servedSeconds.args.nRanges servedSeconds.threads.flatten +
                  servedSeconds.range]? = some row ∧
            (servedSeconds.range ∈ ((o.core models).predictor.predictHot servedSeconds.collector cs
                lo hi servedSeconds.now thr).out ↔
              TrainedHot (fun q => max 0 (1 + q)) [sampleDump] row thr lo hi) :=
  served_as_trained servedSeconds ⟨by decide +kernel, by decide +kernel, by decide⟩ everyRange rfl
    rfl _ sampleCore.mapper (List.Forall₂.cons rfl List.Forall₂.nil) (List.cons_ne_nil _ _)
    (by decide) (by decide +kernel) (by decide) rfl (Or.inr (by decide))

end Replay

end Leaper.Train
