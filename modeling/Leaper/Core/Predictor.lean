import Leaper.Core.Collector
import Leaper.Lib.MemoFilter
import Leaper.Lib.SortUnique

namespace Leaper

open Lib

/-!
# The predictor

`leaper/src/predictor.cc`: the feature vector, and which candidate ranges are predicted
hot for a range of steps.  A loaded model is any function from feature vectors to scores.

A memo belongs to one second, one slot and one (clamped) step range.  Main results:

* `Predictor.predicts_iff` — the step loop, with its clamps and the single-model rule,
  decides `PredictedHot`;
* `Predictor.out_predictHot` — with a valid memo `PredictHot` returns the sorted list of
  candidates that are predicted hot;
* `MemoInv.predictHot`, `MemoInv.record`, `MemoInv.mono` — memos stay sound along a run
  whose clock never goes back.
-/

/-- A loaded model: a score for each feature vector (`GbdtModel::Predict`). -/
abbrev Model := List ℚ → ℚ

/-- `Predictor::Memo`; `hot` is the vector of `-1` (unknown), `0` and `1`. -/
structure Memo where
  sec : ℕ
  slot : ℕ
  lo : ℕ
  hi : ℕ
  hot : ℕ → Option Bool

/-- `Predictor`.  `memo` lists the newest memo first (`push_back` is `cons`). -/
structure Predictor where
  models : List Model := []
  precursors : ℕ → Option (List ℕ) := fun _ => none
  history : ℕ := 6
  gamma : ℕ := 3
  memoize : Bool := true
  memo : List Memo := []
  clampedCalls : ℕ := 0

/-- What a `PredictHot` call gives back: the hot ranges, the predictor with its memos, the
    model evaluations it made and the answers it took from a memo. -/
structure Prediction where
  out : List ℕ
  predictor : Predictor
  inferences : ℕ
  memoHits : ℕ

namespace Predictor

/-- `feature_count`. -/
def featureCount (p : Predictor) : ℕ := 2 * p.history + 3 + p.gamma

/-- The precursor entries of a feature vector: the read rates of the target's precursors in
    the previous slot, zero where it has fewer than `gamma`. -/
def precursorRates (p : Predictor) (c : Collector) (range nowUs : ℕ) : List ℚ :=
  (List.range p.gamma).map fun g =>
    match p.precursors range with
    | none => 0
    | some ps =>
      match ps[g]? with
      | none => 0
      | some q => (c.history q nowUs).1.getD (p.history - 1) 0

/-- `Predictor::BuildFeatures`. -/
def buildFeatures (p : Predictor) (c : Collector) (range nowUs : ℕ) : List ℚ :=
  let rw := c.history range nowUs
  let secs := nowUs / 1000000
  rw.1.take p.history ++ rw.2.take p.history ++
    [((secs / 3600 % 24 : ℕ) : ℚ), ((secs / 60 % 60 : ℕ) : ℚ), ((secs % 60 : ℕ) : ℚ)] ++
    p.precursorRates c range nowUs

/-- The model asked for a step: the only one, or the one of that step. -/
def modelAt (p : Predictor) (s : ℕ) : Option Model :=
  if p.models.length = 1 then p.models[0]? else p.models[s - 1]?

/-- The model of step `s` scores the features at the threshold or above. -/
def stepHot (p : Predictor) (threshold : ℚ) (f : List ℚ) (s : ℕ) : Bool :=
  match p.modelAt s with
  | none => false
  | some m => decide (threshold ≤ m f)

/-- The loop over the steps: it stops at the first hot one and counts the evaluations. -/
def scoreSteps (hotAt : ℕ → Bool) : List ℕ → Bool × ℕ
  | [] => (false, 0)
  | s :: ss =>
    if hotAt s then (true, 1) else ((scoreSteps hotAt ss).1, (scoreSteps hotAt ss).2 + 1)

/-- One candidate's inference for the clamped steps `lo..hi`. -/
def score (p : Predictor) (c : Collector) (nowUs : ℕ) (threshold : ℚ) (lo hi range : ℕ) :
    Bool × ℕ :=
  scoreSteps (p.stepHot threshold (p.buildFeatures c range nowUs)) (List.range' lo (hi + 1 - lo))

/-- `step_lo` after clamping. -/
def clampLo (stepLo : ℕ) : ℕ := max 1 stepLo

/-- `step_hi` after clamping; a single model stands in for every step. -/
def clampHi (p : Predictor) (stepLo stepHi : ℕ) : ℕ :=
  if p.models.length = 1 then clampLo stepLo else min p.models.length stepHi

/-- The memo of a step range. -/
def memoMatches (lo hi : ℕ) (m : Memo) : Bool := m.lo == lo && m.hi == hi

/-- The memos after the erase of the dead ones, with one of the asked step range. -/
def openMemo (p : Predictor) (sec slot lo hi : ℕ) : List Memo :=
  let live := p.memo.filter fun m => m.sec == sec && m.slot == slot
  if live.any (memoMatches lo hi) then live else ⟨sec, slot, lo, hi, fun _ => none⟩ :: live

/-- Write a table back through the pointer to the memo of the step range. -/
def storeMemo (lo hi : ℕ) (table : ℕ → Option Bool) : List Memo → List Memo
  | [] => []
  | m :: ms =>
    if memoMatches lo hi m then { m with hot := table } :: ms else m :: storeMemo lo hi table ms

/-- The table behind that pointer. -/
def memoTable (lo hi : ℕ) (ms : List Memo) : ℕ → Option Bool :=
  match ms.find? (memoMatches lo hi) with
  | none => fun _ => none
  | some m => m.hot

/-- `Predictor::PredictHot`. -/
def predictHot (p : Predictor) (c : Collector) (candidates : List ℕ) (stepLo stepHi nowUs : ℕ)
    (threshold : ℚ) : Prediction :=
  if p.models.length = 0 then ⟨[], p, 0, 0⟩
  else
    let lo := clampLo stepLo
    let hi := p.clampHi stepLo stepHi
    if hi < lo then ⟨[], { p with clampedCalls := p.clampedCalls + 1 }, 0, 0⟩
    else if p.memoize then
      let ms := p.openMemo (nowUs / 1000000) (c.params.slotOf nowUs) lo hi
      let st := sweep true (p.score c nowUs threshold lo hi) (memoTable lo hi ms) candidates
      ⟨sortUnique st.out, { p with memo := storeMemo lo hi st.table ms }, st.cost, st.hits⟩
    else
      let st := sweep false (p.score c nowUs threshold lo hi) (fun _ => none) candidates
      ⟨sortUnique st.out, p, st.cost, 0⟩

/-! ### What the step loop decides -/

/-- The answer of an inference made now, for steps as the caller gives them. -/
def predicts (p : Predictor) (c : Collector) (nowUs : ℕ) (threshold : ℚ)
    (stepLo stepHi range : ℕ) : Bool :=
  (p.score c nowUs threshold (clampLo stepLo) (p.clampHi stepLo stepHi) range).1

/-- **Predicted hot for steps `lo..hi`**: some step of the range that has a model scores the
    range's features at the threshold or above, or the only model loaded does. -/
def PredictedHot (p : Predictor) (c : Collector) (nowUs : ℕ) (threshold : ℚ)
    (lo hi range : ℕ) : Prop :=
  (∃ s, lo ≤ s ∧ s ≤ min hi p.models.length ∧
    ∃ m, p.models[s - 1]? = some m ∧ threshold ≤ m (p.buildFeatures c range nowUs)) ∨
  ∃ m, p.models = [m] ∧ threshold ≤ m (p.buildFeatures c range nowUs)

/-- The loop over the steps answers yes if one of them does. -/
theorem scoreSteps_fst (hotAt : ℕ → Bool) (ss : List ℕ) :
    (scoreSteps hotAt ss).1 = true ↔ ∃ s ∈ ss, hotAt s = true := by
  induction ss with
  | nil => simp [scoreSteps]
  | cons s ss ih =>
    rw [scoreSteps]
    by_cases hs : hotAt s = true
    · simp [hs]
    · simp [hs, ih]

/-- A range scores exactly if the model of some step in the interval reaches the threshold on its
    features. -/
theorem score_fst_iff (p : Predictor) (c : Collector) (now : ℕ) (thr : ℚ) (lo hi range : ℕ) :
    (p.score c now thr lo hi range).1 = true ↔
      ∃ s, lo ≤ s ∧ s ≤ hi ∧ ∃ m, p.modelAt s = some m ∧
        thr ≤ m (p.buildFeatures c range now) := by
  unfold score
  rw [scoreSteps_fst]
  apply exists_congr
  intro s
  have hmem : s ∈ List.range' lo (hi + 1 - lo) ↔ lo ≤ s ∧ s ≤ hi := by
    rw [List.mem_range'_1]; omega
  have hhot : p.stepHot thr (p.buildFeatures c range now) s = true ↔
      ∃ m, p.modelAt s = some m ∧ thr ≤ m (p.buildFeatures c range now) := by
    unfold stepHot
    cases p.modelAt s with
    | none => simp
    | some m => simp
  rw [hmem, hhot, and_assoc]

/-- **The step loop decides `PredictedHot`**, also where a clamp empties the step range. -/
theorem predicts_iff (p : Predictor) (c : Collector) (now : ℕ) (thr : ℚ) {lo hi : ℕ}
    (hlo : 1 ≤ lo) (range : ℕ) :
    p.predicts c now thr lo hi range = true ↔ p.PredictedHot c now thr lo hi range := by
  unfold predicts
  rw [score_fst_iff]
  unfold PredictedHot clampHi modelAt
  have hclamp : clampLo lo = lo := max_eq_right hlo
  rw [hclamp]
  by_cases hone : p.models.length = 1
  · -- one model: the loop asks it once, and the step range of the specification adds nothing
    obtain ⟨m, hm⟩ := List.length_eq_one_iff.mp hone
    simp only [hm, List.length_singleton, if_true, List.getElem?_cons_zero]
    refine ⟨fun ⟨s, _, _, m', hm', hle⟩ => Or.inr ⟨m', by rw [Option.some.inj hm'], hle⟩, ?_⟩
    intro h
    rcases h with ⟨s, hs, hs', m', hm', hle⟩ | ⟨m', hm', hle⟩
    · have hs1 : s = 1 := by omega
      subst hs1
      exact ⟨lo, le_rfl, le_rfl, m', hm', hle⟩
    · rw [List.singleton_inj] at hm'
      exact ⟨lo, le_rfl, le_rfl, m, rfl, hm' ▸ hle⟩
  · simp only [if_neg hone]
    refine ⟨fun ⟨s, h1, h2, h⟩ => Or.inl ⟨s, h1, by omega, h⟩, ?_⟩
    intro h
    rcases h with ⟨s, h1, h2, h⟩ | ⟨m, hm, _⟩
    · exact ⟨s, h1, by omega, h⟩
    · rw [hm] at hone
      exact absurd rfl hone

/-- An interval that the clamps leave empty predicts nothing. -/
theorem predicts_of_clamp_lt {p : Predictor} {c : Collector} {now : ℕ} {thr : ℚ} {lo hi : ℕ}
    (h : p.clampHi lo hi < clampLo lo) (range : ℕ) : p.predicts c now thr lo hi range = false := by
  unfold predicts score
  have hempty : p.clampHi lo hi + 1 - clampLo lo = 0 := by omega
  rw [hempty]
  rfl

/-! ### What features depend on -/

/-- Only the slot and the second of the query time matter. -/
theorem buildFeatures_congr_now (p : Predictor) (c : Collector) (range : ℕ) {now now' : ℕ}
    (hslot : c.params.slotOf now = c.params.slotOf now') (hsec : now / 1000000 = now' / 1000000) :
    p.buildFeatures c range now = p.buildFeatures c range now' := by
  unfold buildFeatures precursorRates Collector.history
  simp only [c.rates_congr_slotOf _ _ hslot, hsec]

/-- Features depend on the collector through the histories of the range and of its
    precursors. -/
theorem buildFeatures_congr_rates (p : Predictor) {c c' : Collector} {now range : ℕ}
    (h : ∀ w, c.rates w range now = c'.rates w range now)
    (hpre : ∀ q ∈ (p.precursors range).getD [], c.rates false q now = c'.rates false q now) :
    p.buildFeatures c range now = p.buildFeatures c' range now := by
  have hrates : p.precursorRates c range now = p.precursorRates c' range now := by
    unfold precursorRates
    refine List.map_congr_left fun g _ => ?_
    cases hps : p.precursors range with
    | none => rfl
    | some ps =>
      simp only
      cases hq : ps[g]? with
      | none => rfl
      | some q =>
        -- the only other ranges whose history is read are the precursors
        have hmem : q ∈ (p.precursors range).getD [] := by
          rw [hps]
          exact List.mem_of_getElem? hq
        simp only [Collector.history, hpre q hmem]
  unfold buildFeatures Collector.history
  simp only [h, hrates]

/-- The score depends on the features alone. -/
theorem score_congr {p : Predictor} {c c' : Collector} {now now' : ℕ} {range : ℕ}
    (h : p.buildFeatures c range now = p.buildFeatures c' range now') (thr : ℚ) (lo hi : ℕ) :
    p.score c now thr lo hi range = p.score c' now' thr lo hi range := by
  unfold score
  rw [h]

/-! ### The memo -/

/-- A memo is found by both bounds of its interval. -/
theorem memoMatches_iff {lo hi : ℕ} {m : Memo} :
    memoMatches lo hi m = true ↔ m.lo = lo ∧ m.hi = hi := by
  simp [memoMatches]

/-- An open memo is a live old one, or new and empty. -/
theorem mem_openMemo {p : Predictor} {sec slot lo hi : ℕ} {m : Memo}
    (h : m ∈ p.openMemo sec slot lo hi) :
    m.sec = sec ∧ m.slot = slot ∧ (m ∈ p.memo ∨ m.hot = fun _ => none) := by
  have hlive : m ∈ p.memo.filter (fun m => m.sec == sec && m.slot == slot) →
      m.sec = sec ∧ m.slot = slot ∧ (m ∈ p.memo ∨ m.hot = fun _ => none) := by
    intro hm
    simp only [List.mem_filter, Bool.and_eq_true, beq_iff_eq] at hm
    exact ⟨hm.2.1, hm.2.2, Or.inl hm.1⟩
  unfold openMemo at h
  simp only at h
  split_ifs at h with hany
  · exact hlive h
  · rcases List.mem_cons.mp h with rfl | hm
    · exact ⟨rfl, rfl, Or.inr rfl⟩
    · exact hlive hm

/-- After a store, a memo is an old one or the written one of the step range. -/
theorem mem_storeMemo {lo hi : ℕ} {table : ℕ → Option Bool} {ms : List Memo} {m : Memo}
    (h : m ∈ storeMemo lo hi table ms) :
    m ∈ ms ∨ ∃ m' ∈ ms, m'.lo = lo ∧ m'.hi = hi ∧ m = { m' with hot := table } := by
  induction ms with
  | nil => cases h
  | cons m' ms ih =>
    rw [storeMemo] at h
    split_ifs at h with hmatch
    · rcases List.mem_cons.mp h with rfl | hm
      · obtain ⟨hl, hh⟩ := memoMatches_iff.mp hmatch
        exact Or.inr ⟨m', List.mem_cons_self, hl, hh, rfl⟩
      · exact Or.inl (List.mem_cons_of_mem _ hm)
    · rcases List.mem_cons.mp h with rfl | hm
      · exact Or.inl List.mem_cons_self
      · rcases ih hm with hold | ⟨m'', hm'', hnew⟩
        · exact Or.inl (List.mem_cons_of_mem _ hold)
        · exact Or.inr ⟨m'', List.mem_cons_of_mem _ hm'', hnew⟩

/-- Each memo of the current second and slot answers as an inference made now would. -/
def MemoOk (p : Predictor) (c : Collector) (threshold : ℚ) (nowUs : ℕ) : Prop :=
  ∀ m ∈ p.memo, m.sec = nowUs / 1000000 → m.slot = c.params.slotOf nowUs →
    Truthful m.hot fun r => (p.score c nowUs threshold m.lo m.hi r).1

variable {p : Predictor} {c : Collector} {thr : ℚ} {now : ℕ}

/-- Every memo that is kept open says what scoring would say now. -/
theorem MemoOk.openMemo (h : p.MemoOk c thr now) (lo hi : ℕ) {m : Memo}
    (hm : m ∈ p.openMemo (now / 1000000) (c.params.slotOf now) lo hi) :
    Truthful m.hot fun r => (p.score c now thr m.lo m.hi r).1 := by
  obtain ⟨hsec, hslot, hold | hnew⟩ := mem_openMemo hm
  · exact h m hold hsec hslot
  · rw [hnew]
    exact truthful_empty _

/-- So the table a call starts from is truthful, new or not. -/
theorem MemoOk.memoTable (h : p.MemoOk c thr now) (lo hi : ℕ) :
    Truthful (memoTable lo hi (p.openMemo (now / 1000000) (c.params.slotOf now) lo hi))
      fun r => (p.score c now thr lo hi r).1 := by
  unfold Predictor.memoTable
  split
  · exact truthful_empty _
  · next m hfind =>
    obtain ⟨hl, hh⟩ := memoMatches_iff.mp (List.find?_some hfind)
    have := h.openMemo lo hi (List.mem_of_find?_eq_some hfind)
    rwa [hl, hh] at this

/-- A call changes nothing that inferences read. -/
theorem predictHot_predictor (p : Predictor) (c : Collector) (cs : List ℕ) (lo hi now : ℕ)
    (thr : ℚ) : ∃ ms n, (p.predictHot c cs lo hi now thr).predictor =
      { p with memo := ms, clampedCalls := n } := by
  unfold predictHot
  simp only
  split_ifs
  · exact ⟨p.memo, p.clampedCalls, rfl⟩
  · exact ⟨p.memo, p.clampedCalls + 1, rfl⟩
  · exact ⟨_, p.clampedCalls, rfl⟩
  · exact ⟨p.memo, p.clampedCalls, rfl⟩

/-- A call changes nothing that prediction depends on. -/
theorem predicts_predictHot (p : Predictor) (c c' : Collector) (cs : List ℕ) (lo hi now now' : ℕ)
    (thr thr' : ℚ) : (p.predictHot c cs lo hi now thr).predictor.predicts c' now' thr'
      = p.predicts c' now' thr' := by
  obtain ⟨ms, n, heq⟩ := p.predictHot_predictor c cs lo hi now thr
  rw [heq]
  rfl

/-- **A prediction is a filter.** With a valid memo, or none, `PredictHot` returns the
    candidates predicted hot, sorted and without repetition. -/
theorem out_predictHot (h : p.MemoOk c thr now) (cs : List ℕ) (lo hi : ℕ) :
    (p.predictHot c cs lo hi now thr).out =
      sortUnique (cs.filter (p.predicts c now thr lo hi)) := by
  have hnone : p.clampHi lo hi < clampLo lo → cs.filter (p.predicts c now thr lo hi) = [] := by
    intro hlt
    refine List.filter_eq_nil_iff.mpr fun r _ => ?_
    rw [predicts_of_clamp_lt hlt]
    exact Bool.false_ne_true
  unfold predictHot
  simp only
  split_ifs with hzero hlt hmemo
  · -- no models: the clamp empties every step range
    have : p.clampHi lo hi < clampLo lo := by
      unfold clampHi clampLo
      rw [hzero, if_neg (by norm_num)]
      omega
    rw [hnone this]
    rfl
  · rw [hnone hlt]
    rfl
  · show sortUnique (sweep _ _ _ _).out = _
    rw [out_sweep (h.memoTable _ _)]
    rfl
  · show sortUnique (sweep _ _ _ _).out = _
    rw [out_sweep (truthful_empty _)]
    rfl

/-- The memos a call leaves are old ones, or of the current second and slot and truthful. -/
theorem memo_predictHot (h : p.MemoOk c thr now) (cs : List ℕ) (lo hi : ℕ) {m : Memo}
    (hm : m ∈ (p.predictHot c cs lo hi now thr).predictor.memo) :
    m ∈ p.memo ∨ m.sec = now / 1000000 ∧ m.slot = c.params.slotOf now ∧
      Truthful m.hot fun r => (p.score c now thr m.lo m.hi r).1 := by
  unfold predictHot at hm
  simp only at hm
  split_ifs at hm with hzero hlt hmemo
  · exact Or.inl hm
  · exact Or.inl hm
  · apply Or.inr
    -- a live memo of another step range, or the one that was just written
    rcases mem_storeMemo hm with hold | ⟨m', hm', hl, hh, rfl⟩
    · obtain ⟨hsec, hslot, -⟩ := mem_openMemo hold
      exact ⟨hsec, hslot, h.openMemo _ _ hold⟩
    · obtain ⟨hsec, hslot, -⟩ := mem_openMemo hm'
      refine ⟨hsec, hslot, ?_⟩
      show Truthful _ fun r => (p.score c now thr m'.lo m'.hi r).1
      rw [hl, hh]
      exact truthful_sweep (h.memoTable _ _) cs
  · exact Or.inl hm

/-- A call keeps the memos valid for the time it was made at. -/
theorem MemoOk.predictHot (h : p.MemoOk c thr now) (cs : List ℕ) (lo hi : ℕ) :
    (p.predictHot c cs lo hi now thr).predictor.MemoOk c thr now := by
  intro m hm hsec hslot
  -- inferences read neither the memos nor the counter of clamped calls
  have hscore : ∀ r, (p.predictHot c cs lo hi now thr).predictor.score c now thr m.lo m.hi r
      = p.score c now thr m.lo m.hi r := fun r => by
    obtain ⟨ms, n, heq⟩ := p.predictHot_predictor c cs lo hi now thr
    rw [heq]
    rfl
  simp only [hscore]
  rcases memo_predictHot h cs lo hi hm with hold | ⟨-, -, htrue⟩
  · exact h m hold hsec hslot
  · exact htrue

end Predictor

/-! ### The memo along a run -/

/-- **A sound memo at time `t`**: it is of no later slot, and as long as it is of the current
    second and slot it answers as a fresh inference. -/
def Memo.Sound (m : Memo) (p : Predictor) (c : Collector) (thr : ℚ) (t : ℕ) : Prop :=
  m.slot ≤ c.params.slotOf t ∧
    ∀ now, t ≤ now → m.sec = now / 1000000 → m.slot = c.params.slotOf now →
      Truthful m.hot fun r => (p.score c now thr m.lo m.hi r).1

/-- The memo is of another second or slot. -/
def Memo.Dead (m : Memo) (c : Collector) (now : ℕ) : Prop :=
  ¬ (m.sec = now / 1000000 ∧ m.slot = c.params.slotOf now)

/-- Every memo is sound, those of the list `old` apart. -/
def MemoInv (old : List Memo) (p : Predictor) (c : Collector) (thr : ℚ) (t : ℕ) : Prop :=
  ∀ m ∈ p.memo, m ∈ old ∨ m.Sound p c thr t

namespace Memo.Sound

variable {m : Memo} {p : Predictor} {c : Collector} {thr : ℚ} {t now : ℕ}

/-- Later in its second and slot a memo is as sound as before. -/
theorem mono (h : m.Sound p c thr t) (ht : t ≤ now) : m.Sound p c thr now :=
  ⟨h.1.trans (Nat.div_le_div_right ht), fun now' ht' => h.2 now' (ht.trans ht')⟩

/-- Recording an access keeps a memo sound: either the access is in a later slot than the
    memo, or it is in a slot the memo's features do not read.  The access may be earlier than what
    the memo has seen, as long as its slot is not. -/
theorem record_slot (h : m.Sound p c thr t) (ht : c.params.slotOf t ≤ c.params.slotOf now)
    (range : ℕ) (w : Bool) : m.Sound p (c.record range w now) thr (max t now) := by
  obtain ⟨-, htrue⟩ := h.mono (le_max_left t now)
  have hle : m.slot ≤ c.params.slotOf now := h.1.trans ht
  refine ⟨?_, fun now' ht' hsec hslot => ?_⟩
  · rw [Collector.record_params]
    exact hle.trans (Nat.div_le_div_right (le_max_right t now))
  rw [Collector.record_params] at hslot
  have hsame : c.params.slotOf now = c.params.slotOf now' := by
    apply le_antisymm
    · exact Nat.div_le_div_right ((le_max_right t now).trans ht')
    · rw [← hslot]
      exact hle
  have hfeat : ∀ r, p.score (c.record range w now) now' thr m.lo m.hi r
      = p.score c now' thr m.lo m.hi r := fun r =>
    Predictor.score_congr (p.buildFeatures_congr_rates
      (fun w' => Collector.rates_record_of_slotOf_eq hsame w' r)
      (fun q _ => Collector.rates_record_of_slotOf_eq hsame false q)) thr m.lo m.hi
  simp only [hfeat]
  exact htrue now' ht' hsec hslot

/-- Recording an access keeps a memo sound, as long as the clock does not go back. -/
theorem record (h : m.Sound p c thr t) (ht : t ≤ now) (range : ℕ) (w : Bool) :
    m.Sound p (c.record range w now) thr now := by
  have hslot := h.record_slot (Nat.div_le_div_right ht) range w
  rwa [max_eq_right ht] at hslot

/-- What is right now stays right as long as second and slot last. -/
theorem of_truthful (hsec : m.sec = now / 1000000) (hslot : m.slot = c.params.slotOf now)
    (htrue : Truthful m.hot fun r => (p.score c now thr m.lo m.hi r).1) :
    m.Sound p c thr now := by
  refine ⟨hslot.le, fun now' _ hsec' hslot' => ?_⟩
  have hfeat : ∀ r, p.score c now thr m.lo m.hi r = p.score c now' thr m.lo m.hi r := fun r =>
    Predictor.score_congr (p.buildFeatures_congr_now c r (hslot.symm.trans hslot')
      (hsec.symm.trans hsec')) thr m.lo m.hi
  simpa only [hfeat] using htrue

end Memo.Sound

namespace MemoInv

variable {old : List Memo} {p : Predictor} {c : Collector} {thr : ℚ} {t now : ℕ}

/-- Without memos there is nothing to keep. -/
theorem of_empty (h : p.memo = []) (c : Collector) (thr : ℚ) (t : ℕ) : MemoInv old p c thr t := by
  intro m hm
  rw [h] at hm
  cases hm

/-- Sound memos stay sound as time passes. -/
theorem mono (h : MemoInv old p c thr t) (ht : t ≤ now) : MemoInv old p c thr now :=
  fun m hm => (h m hm).imp_right fun hs => hs.mono ht

/-- Sound memos are valid once the others are dead. -/
theorem memoOk (h : MemoInv old p c thr t) (ht : t ≤ now) (hdead : ∀ m ∈ old, m.Dead c now) :
    p.MemoOk c thr now := by
  intro m hm hsec hslot
  rcases h m hm with hold | hs
  · exact absurd ⟨hsec, hslot⟩ (hdead m hold)
  · exact hs.2 now ht hsec hslot

/-- Without exceptions the memo is valid from now on. -/
theorem ok (h : MemoInv [] p c thr t) (now : ℕ) (ht : t ≤ now) : p.MemoOk c thr now :=
  h.memoOk ht fun _ hm => absurd hm List.not_mem_nil

/-- An access keeps the invariant, as long as the clock does not go back. -/
theorem record (h : MemoInv old p c thr t) (ht : t ≤ now) (range : ℕ) (w : Bool) :
    MemoInv old p (c.record range w now) thr now :=
  fun m hm => (h m hm).imp_right fun hs => hs.record ht range w

/-- The access may be earlier than what the memos have seen, as long as its slot is not. -/
theorem record_slot (h : MemoInv old p c thr t) (ht : c.params.slotOf t ≤ c.params.slotOf now)
    (range : ℕ) (w : Bool) : MemoInv old p (c.record range w now) thr (max t now) :=
  fun m hm => (h m hm).imp_right fun hs => hs.record_slot ht range w

/-- A prediction keeps the memo: what it stores is right now. -/
theorem predictHot (h : MemoInv old p c thr t) (ht : t ≤ now) (hdead : ∀ m ∈ old, m.Dead c now)
    (cs : List ℕ) (lo hi : ℕ) :
    MemoInv old (p.predictHot c cs lo hi now thr).predictor c thr now := by
  obtain ⟨ms, n, heq⟩ := p.predictHot_predictor c cs lo hi now thr
  intro m hm
  have hscore : m.Sound p c thr now →
      m.Sound (p.predictHot c cs lo hi now thr).predictor c thr now := by
    rw [heq]
    exact id
  rcases p.memo_predictHot (h.memoOk ht hdead) cs lo hi hm with hold | ⟨hsec, hslot, htrue⟩
  · exact (h.mono ht m hold).imp_right hscore
  · exact Or.inr (hscore (Memo.Sound.of_truthful hsec hslot htrue))

end MemoInv

end Leaper
