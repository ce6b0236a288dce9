import Leaper.Core.GbdtDump
import Leaper.Core.Impl
import Leaper.Core.Load

namespace Leaper

open Lib

/-!
# Opening the plug-in

`Leaper::Open` with what it calls: `LeaperImpl::Init`, `Predictor::Load`, `GbdtModel::LoadFile`
and `LoadOracle`.  A file system is a function from names to texts.  Everywhere else a model is a
function from features to scores; here it is what was read from a file, and `Runs` says that a
function is what `GbdtModel::Predict` computes with it.

* `loadString_dump`, `runs_dump` — a dumped forest is loaded, and runs as its meaning;
* `loadPredictor_ok_iff` — when `Predictor::Load` succeeds, and with what;
* `openCore_leaper_iff` — when `Open` does, for the learned policy.
-/

/-- The texts of the files that can be opened. -/
abbrev Files := String → Option (List Char)

/-! ### One model -/

namespace Gbdt

section Load

variable {D : Type*} [One D] (atof : List Char → D)

/-- `GbdtModel::LoadFile`. -/
def loadFile (fs : Files) (path : String) : Except String (GbdtModel D) :=
  match fs path with
  | none => .error ("cannot open model file: " ++ path)
  | some text => loadString atof text

/-- `num_features`. -/
def GbdtModel.numFeatures (m : GbdtModel D) : ℤ := m.maxFeatureIdx + 1

end Load

/-- The last line of `GbdtModel::Predict`. -/
def logistic (exp : ℚ → ℚ) (sigmoid raw : ℚ) : ℚ := 1 / (1 + exp (-sigmoid * raw))

/-- `GbdtModel::Predict`, with at most so many turns of the loop in each tree. -/
def GbdtModel.predict (exp : ℚ → ℚ) (m : GbdtModel ℚ) (features : List ℚ) (turns : ℕ) :
    Outcome ℚ :=
  match m.rawScore features turns with
  | .ret raw => .ret (logistic exp m.sigmoid raw)
  | .fail => .fail
  | .running => .running

/-- The function a loaded model computes. -/
def Runs (exp : ℚ → ℚ) (m : GbdtModel ℚ) (f : Model) : Prop :=
  ∀ features, ∃ turns, ∀ turns' ≥ turns, m.predict exp features turns' = .ret (f features)

/-- A model computes one function only. -/
theorem Runs.unique {exp : ℚ → ℚ} {m : GbdtModel ℚ} {f g : Model} (hf : Runs exp m f)
    (hg : Runs exp m g) : f = g := by
  funext features
  obtain ⟨turns, hturns⟩ := hf features
  obtain ⟨turns', hturns'⟩ := hg features
  have hsame := (hturns _ (le_max_left turns turns')).symm.trans
    (hturns' _ (le_max_right turns turns'))
  exact Outcome.ret.inj hsame

section Dumped

variable {atof : List Char → ℚ} (d : Dump atof)

/-- What the loader makes of a dump. -/
def Dump.model : GbdtModel ℚ :=
  ⟨d.blocks.map (·.2.tree), (readText atof d.text).maxFeatureIdx, (readText atof d.text).sigmoid⟩

/-- The probability a dumped forest stands for. -/
def Dump.probability (exp : ℚ → ℚ) (features : List ℚ) : ℚ :=
  logistic exp (readText atof d.text).sigmoid (d.forest.map (·.eval features)).sum

/-- **A dump is loaded**, if it has a tree. -/
theorem loadString_dump (hne : d.forest ≠ []) : loadString atof d.text = .ok d.model :=
  d.loadString_text hne

/-- **A dump runs as its meaning.** -/
theorem runs_dump (exp : ℚ → ℚ) : Runs exp d.model (d.probability exp) := by
  intro features
  obtain ⟨turns, hscore⟩ := scoreFrom_represents features d.blocks
  refine ⟨turns, fun turns' hge => ?_⟩
  have hraw : d.model.rawScore features turns' =
      .ret (0 + (d.forest.map (·.eval features)).sum) := hscore turns' hge 0
  unfold GbdtModel.predict
  rw [hraw, zero_add]
  rfl

end Dumped

end Gbdt

open Gbdt

/-! ### `Predictor::Load` -/

section Load

variable (atof : List Char → ℚ) (fs : Files)

/-- The first loop: every file, until one fails. -/
def loadModels : List String → Except String (List (GbdtModel ℚ))
  | [] => .ok []
  | path :: paths =>
    match loadFile atof fs path with
    | .error e => .error e
    | .ok m =>
      match loadModels paths with
      | .error e => .error e
      | .ok ms => .ok (m :: ms)

/-- The second loop: no model may ask for more features than there are. -/
def checkFeatures (featureCount : ℕ) : List (GbdtModel ℚ) → Except String Unit
  | [] => .ok ()
  | m :: ms =>
    if (featureCount : ℤ) < m.numFeatures then
      .error ("model expects " ++ toString m.numFeatures ++ " features but the " ++
        "configured history/gamma produce " ++ toString featureCount ++
        "; the online feature layout must match the trainer's")
    else checkFeatures featureCount ms

/-- What `Predictor::Load` fills in. -/
structure LoadedPredictor where
  models : List (GbdtModel ℚ) := []
  precursors : ℕ → Option (List ℕ) := fun _ => none
  history : ℕ := 6
  gamma : ℕ := 3
  memoize : Bool := true

/-- The last part: the precursor file, if one is given. -/
def loadPrecursorFile (path : String) (gamma : ℕ) : Except String (ℕ → Option (List ℕ)) :=
  if path = "" then .ok fun _ => none
  else
    match fs path with
    | none => .error ("cannot open precursor file: " ++ path)
    | some text => .ok (Predictor.loadPrecursors gamma text)

/-- `Predictor::Load` on a new predictor. -/
def loadPredictor (modelPaths : List String) (precursorPath : String) (history gamma : ℕ)
    (memoize : Bool) : Except String LoadedPredictor :=
  match loadModels atof fs modelPaths with
  | .error e => .error e
  | .ok models =>
    if models = [] then .error "no models given"
    else
      match checkFeatures (2 * history + 3 + gamma) models with
      | .error e => .error e
      | .ok () =>
        match loadPrecursorFile fs precursorPath gamma with
        | .error e => .error e
        | .ok precursors => .ok ⟨models, precursors, history, gamma, memoize⟩

variable {atof fs}

theorem loadModels_ok_iff {paths : List String} {ms : List (GbdtModel ℚ)} :
    loadModels atof fs paths = .ok ms ↔
      List.Forall₂ (fun path m => loadFile atof fs path = .ok m) paths ms := by
  induction paths generalizing ms with
  | nil =>
    rw [loadModels, List.forall₂_nil_left_iff, Except.ok.injEq, eq_comm]
  | cons path paths ih =>
    unfold loadModels
    cases hfile : loadFile atof fs path with
    | error e =>
      refine ⟨nofun, fun h => ?_⟩
      cases h with
      | cons hhead => rw [hfile] at hhead; cases hhead
    | ok m =>
      cases hrest : loadModels atof fs paths with
      | error e =>
        refine ⟨nofun, fun h => ?_⟩
        cases h with
        | cons _ htail => rw [ih.mpr htail] at hrest; cases hrest
      | ok rest =>
        constructor
        · rintro ⟨⟩
          exact List.Forall₂.cons hfile (ih.mp hrest)
        · intro h
          cases h with
          | cons hhead htail =>
            rw [hfile] at hhead
            rw [ih.mpr htail] at hrest
            rw [Except.ok.inj hhead, Except.ok.inj hrest]

theorem checkFeatures_ok_iff {n : ℕ} {ms : List (GbdtModel ℚ)} :
    checkFeatures n ms = .ok () ↔ ∀ m ∈ ms, m.numFeatures ≤ n := by
  induction ms with
  | nil => simp [checkFeatures]
  | cons m ms ih =>
    unfold checkFeatures
    rw [List.forall_mem_cons, ← ih]
    split_ifs with h
    · exact ⟨nofun, fun hall => absurd hall.1 (not_le.mpr h)⟩
    · exact ⟨fun hok => ⟨not_lt.mp h, hok⟩, fun hall => hall.2⟩

/-- **When `Predictor::Load` succeeds**, and with what. -/
theorem loadPredictor_ok_iff {modelPaths : List String} {precursorPath : String} {history gamma : ℕ}
    {memoize : Bool} {p : LoadedPredictor} :
    loadPredictor atof fs modelPaths precursorPath history gamma memoize = .ok p ↔
      ∃ models precursors, p = ⟨models, precursors, history, gamma, memoize⟩ ∧
        List.Forall₂ (fun path m => loadFile atof fs path = .ok m) modelPaths models ∧
        models ≠ [] ∧ (∀ m ∈ models, m.numFeatures ≤ (2 * history + 3 + gamma : ℕ)) ∧
        loadPrecursorFile fs precursorPath gamma = .ok precursors := by
  constructor
  · intro h
    unfold loadPredictor at h
    split at h
    · cases h
    next models hmodels =>
      split_ifs at h with hne
      split at h
      · cases h
      next hcheck =>
        split at h
        · cases h
        next precursors hprec =>
          exact ⟨models, precursors, (Except.ok.inj h).symm, loadModels_ok_iff.mp hmodels, hne,
            checkFeatures_ok_iff.mp hcheck, hprec⟩
  · rintro ⟨models, precursors, rfl, hmodels, hne, hcheck, hprec⟩
    unfold loadPredictor
    rw [loadModels_ok_iff.mpr hmodels]
    dsimp only
    rw [if_neg hne, checkFeatures_ok_iff.mpr hcheck, hprec]

end Load

/-! ### `Leaper::Open` -/

/-- The file names among the options. -/
structure Paths where
  modelPaths : List String := []
  precursorPath : String := ""
  oraclePath : String := ""

/-- `LeaperImpl` as `Open` returns it: the models are still what was read. -/
structure Opened where
  opt : Options
  mapper : RangeMapper
  loaded : LoadedPredictor := {}
  oracle : ℕ → Option (List ℕ) := fun _ => none

section Open

variable (atof : List Char → ℚ) (fs : Files)

/-- `LeaperImpl::Init`. -/
def init (o : Options) (paths : Paths) : Except String LoadedPredictor :=
  if o.policy ≠ .leaper then .ok {}
  else if paths.modelPaths = [] then .error "policy=leaper requires at least one model path"
  else
    loadPredictor atof fs paths.modelPaths paths.precursorPath o.historySlots 3
      o.memoizePredictions

/-- `LoadOracle`. -/
def loadOracleFile (path : String) : Except String (ℕ → Option (List ℕ)) :=
  match fs path with
  | none => .error ("cannot open oracle file: " ++ path)
  | some text => .ok (LeaperImpl.loadOracle text)

/-- `Leaper::Open`. -/
def openCore (o : Options) (mapper : RangeMapper) (paths : Paths) : Except String Opened :=
  match init atof fs o paths with
  | .error e => .error e
  | .ok loaded =>
    if o.policy = .oracle ∧ paths.oraclePath ≠ "" then
      match loadOracleFile fs paths.oraclePath with
      | .error e => .error e
      | .ok oracle => .ok ⟨o, mapper, loaded, oracle⟩
    else .ok ⟨o, mapper, loaded, fun _ => none⟩

/-- The core with its models run. -/
def Opened.core (x : Opened) (models : List Model) : LeaperImpl where
  opt := x.opt
  mapper := x.mapper
  collector := LeaperImpl.newCollector x.opt
  predictor :=
    { models := models, precursors := x.loaded.precursors, history := x.loaded.history,
      gamma := x.loaded.gamma, memoize := x.loaded.memoize }
  oracle := x.oracle

variable {atof fs}

/-- With the learned policy `Open` succeeds exactly if `Predictor::Load` does; the oracle file is
    not looked at. -/
theorem openCore_leaper_iff {o : Options} (hpol : o.policy = .leaper) {mapper : RangeMapper}
    {paths : Paths} {x : Opened} :
    openCore atof fs o mapper paths = .ok x ↔ ∃ loaded, x = ⟨o, mapper, loaded, fun _ => none⟩ ∧
      loadPredictor atof fs paths.modelPaths paths.precursorPath o.historySlots 3
        o.memoizePredictions = .ok loaded := by
  have hnever : ¬ (o.policy = .oracle ∧ paths.oraclePath ≠ "") := by
    rw [hpol]
    exact fun h => absurd h.1 (by decide)
  have hinit : init atof fs o paths = if paths.modelPaths = [] then
      .error "policy=leaper requires at least one model path"
      else loadPredictor atof fs paths.modelPaths paths.precursorPath o.historySlots 3
        o.memoizePredictions := if_neg (not_not.mpr hpol)
  unfold openCore
  rw [hinit]
  by_cases hpaths : paths.modelPaths = []
  · -- no path: neither succeeds
    rw [if_pos hpaths]
    refine ⟨nofun, fun ⟨loaded, _, hload⟩ => ?_⟩
    obtain ⟨models, _, _, hmodels, hne, -⟩ := loadPredictor_ok_iff.mp hload
    rw [hpaths, List.forall₂_nil_left_iff] at hmodels
    exact absurd hmodels hne
  · rw [if_neg hpaths]
    cases loadPredictor atof fs paths.modelPaths paths.precursorPath o.historySlots 3
        o.memoizePredictions with
    | error e => exact ⟨nofun, fun ⟨_, _, hload⟩ => nomatch hload⟩
    | ok loaded =>
      dsimp only
      rw [if_neg hnever, Except.ok.injEq]
      constructor
      · rintro rfl
        exact ⟨loaded, rfl, rfl⟩
      · rintro ⟨_, rfl, ⟨⟩⟩
        rfl

end Open

end Leaper
