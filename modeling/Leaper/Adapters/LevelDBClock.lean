import Leaper.Adapters.LevelDB
import Leaper.Core.CollectorReset
import Leaper.Core.Jobs

namespace Leaper

open Lib

/-!
# After the clock was reset

`Adapter::ResetClock` sets the plug-in's clock back to zero and leaves the counters and the
memos as they are.  A run after a reset is compared with the run of an adapter whose counters
and memos are empty at the reset (`State.wiped`): that one knows only what came since.

* `outs_wiped_ne_after_reset` — they differ: an old count and an old memo both come back when
  their slot number does;
* `outs_after_reset` — they agree as long as no prediction reads a word that still shows an old
  count, and none falls in the second and slot of a memo left over.
-/

variable {κ : Type*}

/-! ### What a job decides, but for the collector and the memo -/

/-- What of the core neither the counters nor the memo can touch. -/
def LeaperImpl.blind (s : LeaperImpl) : LeaperImpl :=
  { s.forgetMemo with collector := Collector.fresh s.collector.params }

namespace LeaperImpl

variable {s s' : LeaperImpl} {now : ℕ}

/-- Two cores that agree blindly differ in their counters and memos only. -/
theorem forgetMemo_of_blind (h : s.blind = s'.blind) :
    s'.forgetMemo = { s.forgetMemo with collector := s'.collector } ∧
      s'.collector.params = s.collector.params := by
  have hfill := congrArg (fun u : LeaperImpl => { u with collector := s'.collector }) h
  exact ⟨hfill.symm, (congrArg (fun u : LeaperImpl => u.collector.params) h).symm⟩

section Features

variable {c' : Collector} {blocks : List BlockRef}

/-- A hot set depends on the counters through the features of the candidates. -/
theorem hotSet_collector (hfeat : ∀ r ∈ s.candidates blocks,
      s.predictor.buildFeatures s.collector r now = s.predictor.buildFeatures c' r now)
    (lo hi : ℕ) :
    s.hotSet blocks now lo hi = LeaperImpl.hotSet { s with collector := c' } blocks now lo hi := by
  have hpred : ∀ r ∈ s.candidates blocks,
      s.predictor.predicts s.collector now s.opt.hotThreshold lo hi r
        = s.predictor.predicts c' now s.opt.hotThreshold lo hi r := by
    intro r hr
    unfold Predictor.predicts
    rw [Predictor.score_congr (hfeat r hr)]
  exact congrArg sortUnique (List.filter_congr hpred)

/-- So does what a job decides. -/
theorem decideJob_collector (hparams : c'.params = s.collector.params) (h : s.MemoOk now)
    (h' : LeaperImpl.MemoOk { s with collector := c' } now) (ops : CacheOps κ) (cache : κ)
    (info : CompactionInfo)
    (hfeat : ∀ r ∈ s.candidates blocks,
      s.predictor.buildFeatures s.collector r now = s.predictor.buildFeatures c' r now) :
    (s.decideJob ops cache info blocks now).forgetMemo =
      (LeaperImpl.decideJob ops { s with collector := c' } cache info blocks now).forgetMemo := by
  have hhot := hotSet_collector hfeat
  obtain ⟨h1, h2⟩ := predictPhases_hot h info blocks
  obtain ⟨h1', h2'⟩ := predictPhases_hot h' info blocks
  -- the step ranges are the same, so both hot sets are
  have e1 : LeaperImpl.jobHot1 { s with collector := c' } info blocks now
      = s.jobHot1 info blocks now := by
    unfold jobHot1
    split_ifs
    · rfl
    · exact (hhot _ _).symm
  have e2 : LeaperImpl.jobHot2 { s with collector := c' } info blocks now
      = s.jobHot2 info blocks now := by
    unfold jobHot2
    split_ifs
    · exact (hhot _ _).symm
    · exact (hhot _ _).symm
  rw [e1] at h1'
  rw [e2] at h2'
  unfold decideJob
  simp only
  split_ifs
  · rfl
  · cases s.opt.policy with
    | leaper =>
      unfold decideLeaper Decision.forgetMemo
      have hcand : LeaperImpl.candidates { s with collector := c' } blocks =
        s.candidates blocks := rfl
      simp only [hcand] at h1' h2' ⊢
      simp only [h1, h2, h1', h2']
      split_ifs <;> rfl
    | oracle =>
      unfold decideOracle
      simp only [hparams]
    | _ => rfl

end Features

/-- **What a job decides** depends on counters and memos through the features of its
    candidates, once the memos are valid. -/
theorem decideJob_blind (hsame : s.blind = s'.blind) (h : s.MemoOk now) (h' : s'.MemoOk now)
    (ops : CacheOps κ) (cache : κ) (info : CompactionInfo) {blocks : List BlockRef}
    (hfeat : ∀ r ∈ s.candidates blocks,
      s.predictor.buildFeatures s.collector r now = s.predictor.buildFeatures s'.collector r now) :
    (s.decideJob ops cache info blocks now).forgetMemo =
      (s'.decideJob ops cache info blocks now).forgetMemo := by
  obtain ⟨hforget, hparams⟩ := forgetMemo_of_blind hsame
  rw [decideJob_forgetMemo h, decideJob_forgetMemo h', hforget]
  exact @decideJob_collector κ s.forgetMemo now s'.collector blocks hparams
    (s.memoOk_forgetMemo now) (fun _ hm => absurd hm List.not_mem_nil) ops cache info hfeat

/-- All of the state after a `Begin` but counters and memos comes from the decision's spans. -/
theorem onCompactionBegin_blind (ops : CacheOps κ) (s : LeaperImpl) (cache : κ)
    (info : CompactionInfo) (blocks : List BlockRef) (now : ℕ) :
    (s.onCompactionBegin ops cache info blocks now).1.blind =
      { (s.pushCtx info).blind with
        ctx := { (s.pushCtx info).ctx with
          hotT2 := ((s.pushCtx info).decideJob ops cache info blocks now).hotT2 } } := by
  have hforget := onCompactionBegin_forgetMemo ops s cache info blocks now
  unfold LeaperImpl.blind
  rw [hforget]
  rfl

/-- **A job of two cores that agree blindly.** -/
theorem onCompactionBegin_congr (hsame : s.blind = s'.blind) (h : s.MemoOk now)
    (h' : s'.MemoOk now) (ops : CacheOps κ) (cache : κ) (info : CompactionInfo)
    {blocks : List BlockRef}
    (hfeat : ∀ r ∈ s.candidates blocks,
      s.predictor.buildFeatures s.collector r now = s.predictor.buildFeatures s'.collector r now) :
    let d := s.onCompactionBegin ops cache info blocks now
    let d' := s'.onCompactionBegin ops cache info blocks now
    d.1.blind = d'.1.blind ∧ d.2.hot1 = d'.2.hot1 ∧ d.2.hot2 = d'.2.hot2 ∧
      d.2.cache = d'.2.cache := by
  -- both begin with the same context, and decide alike
  have hpush : (s.pushCtx info).blind = (s'.pushCtx info).blind :=
    congrArg (fun u => u.pushCtx info) hsame
  have hctx : (s.pushCtx info).blind.ctx = (s'.pushCtx info).blind.ctx := by rw [hpush]
  have hctx : (s.pushCtx info).ctx = (s'.pushCtx info).ctx := hctx
  have hd := @decideJob_blind κ (s.pushCtx info) (s'.pushCtx info) now hpush h h' ops cache info
    blocks hfeat
  simp only [Decision.forgetMemo, Prod.mk.injEq] at hd
  obtain ⟨hspans, hhot1, hhot2, -, hcache⟩ := hd
  refine ⟨?_, hhot1, hhot2, hcache⟩
  rw [onCompactionBegin_blind, onCompactionBegin_blind, hspans, hpush, hctx]

theorem onFileObsolete_blind (s : LeaperImpl) (ops : CacheOps κ) (cache : κ)
    (blocks : List BlockRef) :
    (s.onFileObsolete ops cache blocks).1.blind =
        (s.blind.onFileObsolete ops cache blocks).1.blind ∧
    (s.onFileObsolete ops cache blocks).2.1 = (s.blind.onFileObsolete ops cache blocks).2.1 := by
  have hpol : s.blind.opt.policy = s.opt.policy := rfl
  unfold onFileObsolete
  rw [hpol]
  by_cases hoff : s.opt.policy = .off
  · simp only [if_pos hoff]
    exact ⟨rfl, trivial⟩
  · simp only [if_neg hoff]
    exact ⟨rfl, trivial⟩

end LeaperImpl

namespace LevelDB

open LeaperImpl

/-- The adapter but for counters and memos. -/
def Adapter.blind (a : Adapter) : Adapter := { a with core := a.core.blind }

def State.blind (s : State κ) : State κ := ⟨s.adapter.blind, s.cache⟩

/-- The adapter with nothing recorded and nothing remembered. -/
def Adapter.wiped (a : Adapter) : Adapter :=
  { a with core :=
    { a.core with
      collector := a.core.collector.wiped
      predictor := { a.core.predictor with memo := [] } } }

def State.wiped (s : State κ) : State κ := ⟨s.adapter.wiped, s.cache⟩

/-- A hook that asks the predictor. -/
def Hook.asks : Hook κ → Bool
  | .compactionBegin _ _ _ => true
  | _ => false

/-- What is warmed at the end of a file, whatever the memo holds. -/
theorem Adapter.onOutputFileFinished_blind (eng : EngineOps κ) (a : Adapter) (cache : κ)
    (file size : ℕ) :
    (a.onOutputFileFinished eng cache file size).1.blind =
        (a.blind.onOutputFileFinished eng cache file size).1.blind ∧
      (a.onOutputFileFinished eng cache file size).2 =
        (a.blind.onOutputFileFinished eng cache file size).2 := by
  by_cases hnone : (a.takeFile file size).2 = []
  · have e : a.onOutputFileFinished eng cache file size = (_, _, _) := if_pos hnone
    have e' : a.blind.onOutputFileFinished eng cache file size = (_, _, _) := if_pos hnone
    rw [e, e']
    exact ⟨rfl, rfl⟩
  · have e : a.onOutputFileFinished eng cache file size = (_, _, _) := if_neg hnone
    have e' : a.blind.onOutputFileFinished eng cache file size = (_, _, _) := if_neg hnone
    have hcalls : (a.takeFile file size).1.prefetchAll eng (a.takeFile file size).2 cache =
        (a.blind.takeFile file size).1.prefetchAll eng (a.takeFile file size).2 cache :=
      prefetchAll_congr eng (by rfl) (by rfl) _ _
    rw [e, e']
    simp only [hcalls]
    exact ⟨rfl, rfl⟩

/-- **Every other hook is blind**: what it shows, and all of the next state but counters and
    memos, come from the state without them. -/
theorem step_blind (eng : EngineOps κ) (s : State κ) {c : Call κ} (h : c.hook.asks = false) :
    (step eng s c).1.blind = (step eng s.blind c).1.blind ∧
      (step eng s c).2 = (step eng s.blind c).2 := by
  obtain ⟨mono, hook⟩ := c
  cases hook with
  | access isWrite key =>
    refine ⟨?_, rfl⟩
    have hcol : s.adapter.core.blind.collecting = s.adapter.core.collecting := rfl
    simp only [step, State.blind, Adapter.blind, Adapter.onAccess, LeaperImpl.onAccess, hcol]
    split_ifs
    · simp only [LeaperImpl.blind, LeaperImpl.forgetMemo, Collector.record_params]
      rfl
    · rfl
  | compactionBegin level isFlush inputs => cases h
  | outputFileStart file => exact ⟨rfl, rfl⟩
  | outputBlock block =>
    have hwant : ∀ r, s.adapter.core.blind.wants r = s.adapter.core.wants r := fun _ => rfl
    have hctx : s.adapter.core.blind.ctx = s.adapter.core.ctx := rfl
    have href : s.adapter.blind.blockRef = s.adapter.blockRef := rfl
    have hcore : s.adapter.blind.core = s.adapter.core.blind := rfl
    simp only [step, State.blind, Adapter.onOutputBlock, href, hcore, LeaperImpl.shouldPrefetch,
      hwant, hctx]
    have hcur : s.adapter.blind.currentOutput = s.adapter.currentOutput := rfl
    rw [hcur]
    split_ifs <;> exact ⟨rfl, rfl⟩
  | outputFileFinished file size =>
    obtain ⟨hadapter, hshown⟩ := s.adapter.onOutputFileFinished_blind eng s.cache file size
    exact ⟨congrArg₂ State.mk hadapter (congrArg Prod.fst hshown),
      congrArg (fun r : κ × List (BlockRef × ℕ) => ({ warm := r.2 } : HookObs)) hshown⟩
  | compactionEnd =>
    refine ⟨?_, rfl⟩
    have hstack : s.adapter.core.blind.ctxStack = s.adapter.core.ctxStack := rfl
    have hnested : s.adapter.blind.nested = s.adapter.nested := rfl
    have hcore : s.adapter.blind.core = s.adapter.core.blind := rfl
    simp only [step, State.blind, Adapter.onCompactionEnd, hcore, LeaperImpl.onCompactionEnd,
      hstack, hnested]
    cases s.adapter.core.ctxStack <;> cases s.adapter.nested <;> rfl
  | fileObsolete file size blocks =>
    refine ⟨?_, rfl⟩
    have hbound : s.adapter.blind.bound = s.adapter.bound := rfl
    simp only [step, State.blind, Adapter.onFileObsolete, hbound]
    by_cases hb : s.adapter.bound = true
    · simp only [if_pos hb]
      -- the core's part, whatever sizes the bridge knows
      have hcore := fun ops : CacheOps κ => s.adapter.core.onFileObsolete_blind ops s.cache
        (blocks.map fun b => { fileId := b.fileNumber, offset := b.offset, size := b.size })
      by_cases hsize : 0 < size
      · simp only [if_pos hsize]
        exact congrArg₂ (fun c k => (⟨{ s.adapter with core := c, fileSizes := _ }, k⟩ : State κ))
          (hcore _).1 (hcore _).2
      · simp only [if_neg hsize]
        exact congrArg₂ (fun c k => (⟨{ s.adapter with core := c, fileSizes := _ }, k⟩ : State κ))
          (hcore _).1 (hcore _).2
    · simp only [if_neg hb]
      rfl
  | setQps q => exact ⟨rfl, rfl⟩
  | setHealth m => exact ⟨rfl, rfl⟩
  | resetClock => exact ⟨rfl, rfl⟩
  | engine change => exact ⟨rfl, rfl⟩

/-- States that agree blindly agree on everything that reads neither counters nor memos. -/
theorem State.congr_blind {β : Sort*} {s s' : State κ} (h : s.blind = s'.blind)
    (f : State κ → β) : f s.blind = f s'.blind := congrArg f h

section Begin

variable (eng : EngineOps κ) {s s' : State κ} {mono : ℕ} {isFlush : Bool} {inputs : List BlockInfo}

/-- What the core does with a `Begin` of two adapters that agree blindly. -/
theorem onCompactionBegin_core_congr (hsame : s.blind = s'.blind) (level : ℤ)
    (h : s.adapter.core.MemoOk (s.adapter.nowUs mono))
    (h' : s'.adapter.core.MemoOk (s.adapter.nowUs mono))
    (hfeat : ∀ r ∈ s.adapter.core.candidates
        (inputs.map fun b => s.adapter.blockRef b.fileNumber b),
      s.adapter.core.predictor.buildFeatures s.adapter.core.collector r (s.adapter.nowUs mono) =
        s.adapter.core.predictor.buildFeatures s'.adapter.core.collector r (s.adapter.nowUs mono)) :
    let d := s.adapter.onCompactionBegin eng s.cache level isFlush inputs mono
    let d' := s'.adapter.onCompactionBegin eng s'.cache level isFlush inputs mono
    d.1.core.blind = d'.1.core.blind ∧ d.2.hot1 = d'.2.hot1 ∧ d.2.hot2 = d'.2.hot2 ∧
      d.2.cache = d'.2.cache := by
  have hcore : s.adapter.core.blind = s'.adapter.core.blind :=
    State.congr_blind hsame fun s => s.adapter.core
  have hcache : s.cache = s'.cache := State.congr_blind hsame fun s => s.cache
  have hbridge : s.adapter.pushJob.bridge eng = s'.adapter.pushJob.bridge eng :=
    State.congr_blind hsame fun s => s.adapter.pushJob.bridge eng
  have hnow : s.adapter.pushJob.nowUs mono = s'.adapter.pushJob.nowUs mono :=
    State.congr_blind hsame fun s => s.adapter.nowUs mono
  have href : s.adapter.blockRef = s'.adapter.blockRef :=
    State.congr_blind hsame fun s => s.adapter.blockRef
  -- counting the cached inputs only moves a counter
  have hstart : ∀ (u : LeaperImpl) (n : ℕ),
      (if isFlush = true then u else u.recordInvalidation n).blind = u.blind := by
    intro u n
    cases isFlush <;> rfl
  have hmemo : ∀ (u : LeaperImpl) (n t : ℕ), u.MemoOk t →
      (if isFlush = true then u else u.recordInvalidation n).MemoOk t := by
    intro u n t hu
    cases isFlush <;> exact hu
  unfold Adapter.onCompactionBegin
  simp only
  rw [← hbridge, ← hcache, ← href, ← hnow]
  apply onCompactionBegin_congr
  · rw [hstart, hstart]
    exact hcore
  · exact hmemo _ _ _ h
  · exact hmemo _ _ _ h'
  · cases isFlush <;> exact hfeat

/-- **A `Begin` of two adapters that agree blindly** shows the same and keeps them so, if the
    memos are valid and the features of the candidates the same. -/
theorem step_begin_congr (hsame : s.blind = s'.blind) (level : ℤ)
    (h : s.adapter.core.MemoOk (s.adapter.nowUs mono))
    (h' : s'.adapter.core.MemoOk (s.adapter.nowUs mono))
    (hfeat : ∀ r ∈ s.adapter.core.candidates
        (inputs.map fun b => s.adapter.blockRef b.fileNumber b),
      s.adapter.core.predictor.buildFeatures s.adapter.core.collector r (s.adapter.nowUs mono) =
        s.adapter.core.predictor.buildFeatures s'.adapter.core.collector r (s.adapter.nowUs mono)) :
    (step eng s ⟨mono, .compactionBegin level isFlush inputs⟩).1.blind =
      (step eng s' ⟨mono, .compactionBegin level isFlush inputs⟩).1.blind ∧
    (step eng s ⟨mono, .compactionBegin level isFlush inputs⟩).2 =
      (step eng s' ⟨mono, .compactionBegin level isFlush inputs⟩).2 := by
  obtain ⟨hblind, h1, h2, hc⟩ := @onCompactionBegin_core_congr κ eng s s' mono isFlush inputs
    hsame level h h' hfeat
  have hrest : ∀ c : LeaperImpl, { s.adapter.pushJob with core := c } =
      { s'.adapter.pushJob with core := c } := fun c =>
    State.congr_blind hsame fun s => { s.adapter.pushJob with core := c }
  constructor
  · -- the next state is the old one with a new job on top, apart from core and cache
    have hstate : ∀ s : State κ,
        (step eng s ⟨mono, .compactionBegin level isFlush inputs⟩).1.blind =
          ⟨{ s.adapter.pushJob with core :=
              (s.adapter.onCompactionBegin eng s.cache level isFlush inputs mono).1.core.blind },
            (s.adapter.onCompactionBegin eng s.cache level isFlush inputs mono).2.cache⟩ :=
      fun _ => rfl
    rw [hstate, hstate, hblind, hc, hrest]
  · show HookObs.mk _ _ _ _ = HookObs.mk _ _ _ _
    rw [h1, h2]

end Begin

/-! ### Since the reset -/

/-- What has happened since the reset: the time last shown and the accesses recorded. -/
structure Since where
  now : ℕ := 0
  accesses : List Access := []

/-- No prediction about these blocks at this time sees through to before the reset: every memo
    left over is of another second or slot, and no word that the features of a candidate are
    read from shows an old count.  `a` is the adapter as it was at the reset. -/
def Adapter.NoGhosts (a : Adapter) (accesses : List Access) (blocks : List BlockRef) (now : ℕ) :
    Prop :=
  (∀ m ∈ a.core.predictor.memo, m.Dead a.core.collector now) ∧
  ∀ r ∈ a.core.candidates blocks, a.core.collector.Unhaunted accesses r now ∧
    ∀ q ∈ (a.core.predictor.precursors r).getD [], a.core.collector.Unhaunted accesses q now

instance (a : Adapter) (accesses : List Access) (blocks : List BlockRef) (now : ℕ) :
    Decidable (a.NoGhosts accesses blocks now) :=
  haveI : ∀ m : Memo, Decidable (m.Dead a.core.collector now) := fun _ =>
    inferInstanceAs (Decidable (¬ _))
  inferInstanceAs (Decidable (_ ∧ _))

/-- The hook may be called now: it is no reset, and if it predicts it meets no ghost. -/
def Adapter.Admits (a : Adapter) (accesses : List Access) (now : ℕ) : Hook κ → Prop
  | .resetClock => False
  | .compactionBegin _ _ inputs =>
    a.NoGhosts accesses (inputs.map fun b => a.blockRef b.fileNumber b) now
  | _ => True

instance (a : Adapter) (accesses : List Access) (now : ℕ) :
    ∀ hook : Hook κ, Decidable (a.Admits accesses now hook)
  | .resetClock => isFalse id
  | .compactionBegin _ _ inputs =>
    inferInstanceAs (Decidable
      (a.NoGhosts accesses (inputs.map fun b : BlockInfo => a.blockRef b.fileNumber b) now))
  | .access _ _ | .outputFileStart _ | .outputBlock _ | .outputFileFinished _ _
  | .compactionEnd | .fileObsolete _ _ _ | .setQps _ | .setHealth _ | .engine _ => isTrue trivial

/-- **Calls after a reset**, up to the next one: the clock does not go back, and no
    prediction meets a ghost. -/
def sinceReset (κ : Type*) (a : Adapter) : Env Since (Call κ) where
  ok g c := g.now ≤ a.nowUs c.mono ∧ a.Admits g.accesses (a.nowUs c.mono) c.hook
  next g c :=
    match c.hook with
    | .access isWrite key =>
      ⟨a.nowUs c.mono,
        if a.core.collecting then
          g.accesses ++ [⟨a.core.mapper.map key, isWrite, a.nowUs c.mono⟩]
        else g.accesses⟩
    | _ => ⟨a.nowUs c.mono, g.accesses⟩

instance (a : Adapter) (g : Since) (c : Call κ) : Decidable ((sinceReset κ a).ok g c) :=
  inferInstanceAs (Decidable (_ ∧ _))

/-- **The adapter since the reset**: its settings are those of `a`, its counters are `a`'s with
    the accesses recorded since, and every memo is sound or was there before. -/
structure Kept (a : Adapter) (g : Since) (b : Adapter) : Prop where
  opt : b.core.opt = a.core.opt
  mapper : b.core.mapper = a.core.mapper
  predictor : b.core.predictor.forgetMemo = a.core.predictor.forgetMemo
  startUs : b.startUs = a.startUs
  maxRangeId : b.maxRangeId = a.maxRangeId
  collector : b.core.collector = a.core.collector.recordAll g.accesses
  past : ∀ x ∈ g.accesses, x.nowUs ≤ g.now
  memo : MemoInv a.core.predictor.memo b.core.predictor b.core.collector b.core.opt.hotThreshold
    g.now

/-- The settings, counters and memos of an adapter. -/
def Adapter.settled (a : Adapter) : Options × RangeMapper × Predictor × ℕ × ℕ × Collector :=
  (a.core.opt, a.core.mapper, a.core.predictor, a.startUs, a.maxRangeId, a.core.collector)

/-- A hook that leaves all of these. -/
def Hook.settles : Hook κ → Bool
  | .access _ _ => false
  | .compactionBegin _ _ _ => false
  | .resetClock => false
  | _ => true

theorem step_settled (eng : EngineOps κ) (s : State κ) {c : Call κ} (h : c.hook.settles = true) :
    (step eng s c).1.adapter.settled = s.adapter.settled := by
  obtain ⟨mono, hook⟩ := c
  cases hook with
  | outputFileStart file => rfl
  | outputBlock block =>
    show Adapter.settled (s.adapter.onOutputBlock block).1 = _
    unfold Adapter.onOutputBlock Adapter.settled
    simp only
    obtain ⟨st, heq | ⟨-, -, heq⟩⟩ := s.adapter.core.shouldPrefetch_frame
      (s.adapter.blockRef s.adapter.currentOutput block)
    all_goals rw [heq]
  | outputFileFinished file size =>
    show Adapter.settled (s.adapter.onOutputFileFinished eng s.cache file size).1 = _
    unfold Adapter.onOutputFileFinished
    simp only
    split_ifs <;> rfl
  | compactionEnd =>
    show Adapter.settled s.adapter.onCompactionEnd = _
    obtain ⟨c, cs, heq⟩ := s.adapter.core.onCompactionEnd_frame
    unfold Adapter.onCompactionEnd
    rw [heq]
    simp only
    cases s.adapter.nested <;> rfl
  | fileObsolete file size blocks =>
    obtain ⟨st, sizes, heq⟩ := onFileObsolete_frame eng s.adapter s.cache file size blocks
    show Adapter.settled (s.adapter.onFileObsolete eng s.cache file size blocks).1 = _
    rw [heq]
    rfl
  | setQps q => rfl
  | setHealth m => rfl
  | engine change => rfl
  | _ => cases h

namespace Kept

variable {a b : Adapter} {g : Since} {s : State κ}

theorem nowUs (h : Kept a g b) (mono : ℕ) : b.nowUs mono = a.nowUs mono := by
  unfold Adapter.nowUs
  rw [h.startUs]

/-- Second and slot are told by the settings. -/
theorem dead (h : Kept a g b) {now : ℕ}
    (hdead : ∀ m ∈ a.core.predictor.memo, m.Dead a.core.collector now) :
    ∀ m ∈ a.core.predictor.memo, m.Dead b.core.collector now := by
  intro m hm
  unfold Memo.Dead
  rw [h.collector, Collector.recordAll_params]
  exact hdead m hm

/-- Time passes. -/
theorem later (h : Kept a g b) {now : ℕ} (hnow : g.now ≤ now) : Kept a ⟨now, g.accesses⟩ b :=
  { h with
    past := fun x hx => (h.past x hx).trans hnow
    memo := h.memo.mono hnow }

theorem congr_settled (h : Kept a g b) {b' : Adapter} (heq : b'.settled = b.settled) :
    Kept a g b' := by
  simp only [Adapter.settled, Prod.mk.injEq] at heq
  obtain ⟨ho, hm, hp, hs, hr, hc⟩ := heq
  constructor
  · exact ho.trans h.opt
  · exact hm.trans h.mapper
  · rw [hp]; exact h.predictor
  · exact hs.trans h.startUs
  · exact hr.trans h.maxRangeId
  · exact hc.trans h.collector
  · exact h.past
  · rw [hp, hc, ho]; exact h.memo

/-- An access. -/
theorem onAccess (h : Kept a g b) (isWrite : Bool) (key : Bytes) {mono : ℕ}
    (hnow : g.now ≤ a.nowUs mono) :
    Kept a ⟨a.nowUs mono,
        if a.core.collecting then
          g.accesses ++ [⟨a.core.mapper.map key, isWrite, a.nowUs mono⟩]
        else g.accesses⟩ (b.onAccess isWrite key mono) := by
  have hcol : b.core.collecting = a.core.collecting := by
    unfold LeaperImpl.collecting
    rw [h.opt]
  have hmap : b.core.mapper.map key = a.core.mapper.map key := by rw [h.mapper]
  unfold Adapter.onAccess LeaperImpl.onAccess
  rw [hcol, h.nowUs, hmap]
  by_cases hc : a.core.collecting = true
  · -- the access is recorded on both sides
    simp only [if_pos hc]
    refine { h with collector := ?_, past := ?_, memo := ?_ }
    · show b.core.collector.record _ _ _ = _
      rw [h.collector]
      unfold Collector.recordAll
      rw [List.foldl_append]
      rfl
    · intro x hx
      rcases List.mem_append.mp hx with hx | hx
      · exact (h.past x hx).trans hnow
      · rw [List.mem_singleton.mp hx]
    · exact h.memo.record hnow _ _
  · simp only [if_neg hc]
    exact h.later hnow

/-- A `Begin` without ghosts. -/
theorem onCompactionBegin (h : Kept a g s.adapter) (eng : EngineOps κ) (level : ℤ)
    (isFlush : Bool) (inputs : List BlockInfo) {mono : ℕ} (hnow : g.now ≤ a.nowUs mono)
    (hdead : ∀ m ∈ a.core.predictor.memo, m.Dead a.core.collector (a.nowUs mono)) :
    Kept a ⟨a.nowUs mono, g.accesses⟩
      (s.adapter.onCompactionBegin eng s.cache level isFlush inputs mono).1 := by
  have hstart : ∀ n, ∃ st, (if isFlush = true then s.adapter.pushJob.core
      else s.adapter.pushJob.core.recordInvalidation n) = { s.adapter.core with stats := st } := by
    intro n
    cases isFlush
    · exact ⟨_, rfl⟩
    · exact ⟨s.adapter.core.stats, rfl⟩
  have hn : s.adapter.pushJob.nowUs mono = a.nowUs mono := h.nowUs mono
  unfold Adapter.onCompactionBegin
  simp only
  obtain ⟨st, heq⟩ := hstart _
  rw [heq, hn]
  refine { h.later hnow with predictor := ?_, memo := ?_ }
  · exact (decideJob_predictor_forgetMemo _ _ _ _ _ _).trans h.predictor
  · exact decideJob_memoInv (s := LeaperImpl.pushCtx { s.adapter.core with stats := st } _) h.memo
      hnow (h.dead hdead) _ _ _ _

/-- **One call since the reset** keeps it so. -/
theorem step (h : Kept a g s.adapter) (eng : EngineOps κ) {c : Call κ}
    (hok : (sinceReset κ a).ok g c) :
    Kept a ((sinceReset κ a).next g c) (step eng s c).1.adapter := by
  obtain ⟨mono, hook⟩ := c
  obtain ⟨hnow, hhook⟩ := hok
  cases hook with
  | access isWrite key => exact h.onAccess isWrite key hnow
  | compactionBegin level isFlush inputs =>
    exact h.onCompactionBegin eng level isFlush inputs hnow hhook.1
  | resetClock => exact absurd hhook id
  | _ => exact (h.later hnow).congr_settled (step_settled eng s rfl)

end Kept

/-! ### The run after a reset -/

section AfterReset

variable {a : Adapter} {g : Since}

/-- Nothing is haunted by an empty table. -/
theorem sinceReset_ok_wiped {c : Call κ} (h : (sinceReset κ a).ok g c) :
    (sinceReset κ a.wiped).ok g c := by
  obtain ⟨mono, hook⟩ := c
  obtain ⟨hnow, hhook⟩ := h
  refine ⟨hnow, ?_⟩
  cases hook with
  | compactionBegin level isFlush inputs =>
    refine ⟨fun m hm => absurd hm List.not_mem_nil, fun r hr => ?_⟩
    obtain ⟨hr', hpre⟩ := hhook.2 r hr
    exact ⟨hr'.wiped, fun q hq => (hpre q hq).wiped⟩
  | resetClock => exact hhook
  | _ => trivial

/-- **Features without ghosts** are those of the adapter that was empty at the reset. -/
theorem Kept.buildFeatures_eq {b b' : Adapter} (h : Kept a g b) (h' : Kept a.wiped g b')
    (hrate : 1 ≤ a.core.collector.params.sampleRate) {r now : ℕ} (hnow : g.now ≤ now)
    (hr : a.core.collector.Unhaunted g.accesses r now)
    (hpre : ∀ q ∈ (a.core.predictor.precursors r).getD [],
      a.core.collector.Unhaunted g.accesses q now) :
    b.core.predictor.buildFeatures b.core.collector r now =
      b.core.predictor.buildFeatures b'.core.collector r now := by
  have hpast : ∀ x ∈ g.accesses, x.nowUs ≤ now := fun x hx => (h.past x hx).trans hnow
  have hprec : b.core.predictor.forgetMemo.precursors = a.core.predictor.precursors := by
    rw [h.predictor]
    rfl
  rw [h.collector, h'.collector]
  apply Predictor.buildFeatures_congr_rates
  · exact fun w => Collector.rates_unhaunted hr hrate hpast w
  · intro q hq
    have hq : q ∈ (b.core.predictor.forgetMemo.precursors r).getD [] := hq
    rw [hprec] at hq
    exact Collector.rates_unhaunted (hpre q hq) hrate hpast false

/-- The two runs side by side. -/
structure Beside (a : Adapter) (g : Since) (s s' : State κ) : Prop where
  kept : Kept a g s.adapter
  kept' : Kept a.wiped g s'.adapter
  same : s.blind = s'.blind

/-- **One call of both runs.** -/
theorem Beside.step {s s' : State κ} (h : Beside a g s s') (eng : EngineOps κ)
    (hrate : 1 ≤ a.core.collector.params.sampleRate) {c : Call κ}
    (hok : (sinceReset κ a).ok g c) :
    Beside a ((sinceReset κ a).next g c) (step eng s c).1 (step eng s' c).1 ∧
      (LevelDB.step eng s c).2 = (LevelDB.step eng s' c).2 := by
  have hkept := h.kept.step eng hok
  have hkept' := h.kept'.step eng (sinceReset_ok_wiped hok)
  -- a `Begin` needs equal features; all other hooks are blind to counters and memos
  have hboth : (LevelDB.step eng s c).1.blind = (LevelDB.step eng s' c).1.blind ∧
      (LevelDB.step eng s c).2 = (LevelDB.step eng s' c).2 := by
    by_cases hasks : c.hook.asks = true
    · obtain ⟨mono, hook⟩ := c
      cases hook with
      | compactionBegin level isFlush inputs =>
        obtain ⟨hnow, hdead, hghost⟩ := hok
        have hn : s.adapter.nowUs mono = a.nowUs mono := h.kept.nowUs mono
        have href : s.adapter.blockRef = a.blockRef :=
          blockRef_congr h.kept.mapper h.kept.maxRangeId
        have hcand : s.adapter.core.candidates = a.core.candidates := by
          unfold LeaperImpl.candidates
          rw [h.kept.opt]
        apply step_begin_congr eng h.same level
        · rw [hn]
          exact h.kept.memo.memoOk hnow (h.kept.dead hdead)
        · rw [hn]
          exact h.kept'.memo.memoOk hnow fun m hm => absurd hm List.not_mem_nil
        · rw [hn, href, hcand]
          intro r hr
          exact h.kept.buildFeatures_eq h.kept' hrate hnow (hghost r hr).1 (hghost r hr).2
      | _ => cases hasks
    · obtain ⟨hnext, hout⟩ := step_blind eng s (Bool.not_eq_true _ ▸ hasks)
      obtain ⟨hnext', hout'⟩ := step_blind eng s' (Bool.not_eq_true _ ▸ hasks)
      rw [hnext, hnext', hout, hout', h.same]
      exact ⟨rfl, rfl⟩
  exact ⟨⟨hkept, hkept', hboth.1⟩, hboth.2⟩

/-- At the reset itself. -/
theorem kept_self (a : Adapter) : Kept a {} a where
  opt := rfl
  mapper := rfl
  predictor := rfl
  startUs := rfl
  maxRangeId := rfl
  collector := rfl
  past := fun _ hx => absurd hx List.not_mem_nil
  memo := fun _ hm => Or.inl hm

end AfterReset

/-- **After a reset.** Whatever happened before, as long as nothing is sampled away, every hook
    called after a reset of the clock (up to the next one) shows what it would show if counters
    and memos had been empty at the reset, and so is every feature vector built from there on,
    provided that no prediction meets a ghost: no word a feature is read from still shows an
    old count, and no memo left over is of the current second and slot. -/
theorem outs_after_reset (eng : EngineOps κ) (s : State κ) (before : List (Call κ)) (mono : ℕ)
    (after : List (Call κ))
    (hrate : 1 ≤ (run (step eng) s before).adapter.core.collector.params.sampleRate)
    (hacc : (sinceReset κ ((run (step eng) s before).adapter.resetClock mono)).Accepts {} after) :
    let s₀ := run (step eng) s (before ++ [⟨mono, .resetClock⟩])
    let g := (sinceReset κ s₀.adapter).after {} after
    outs (step eng) s₀ after = outs (step eng) s₀.wiped after ∧
    ∀ r now, g.now ≤ now → s₀.adapter.core.collector.Unhaunted g.accesses r now →
      (∀ q ∈ (s₀.adapter.core.predictor.precursors r).getD [],
        s₀.adapter.core.collector.Unhaunted g.accesses q now) →
      let p := (run (step eng) s₀ after).adapter.core.predictor
      p.buildFeatures (run (step eng) s₀ after).adapter.core.collector r now =
        p.buildFeatures (run (step eng) s₀.wiped after).adapter.core.collector r now := by
  intro s₀ g
  have hs₀ : s₀.adapter = (run (step eng) s before).adapter.resetClock mono := by
    show (run (step eng) s (before ++ [⟨mono, .resetClock⟩])).adapter = _
    rw [run_append]
    rfl
  rw [← hs₀] at hacc
  have hrate₀ : 1 ≤ s₀.adapter.core.collector.params.sampleRate := by
    rw [hs₀]
    exact hrate
  have hstart : Beside s₀.adapter {} s₀ s₀.wiped := ⟨kept_self _, kept_self _, rfl⟩
  constructor
  · -- side by side, step for step
    exact (sinceReset κ s₀.adapter).outs_eq (R := fun g s s' => Beside s₀.adapter g s s')
      (fun _ _ _ _ hok h => h.step eng hrate₀ hok) hacc hstart
  · -- each run by itself keeps its counters those of the reset and the accesses since
    intro r now hnow hr hpre p
    have hkept : Kept s₀.adapter g (run (step eng) s₀ after).adapter :=
      (sinceReset κ s₀.adapter).run_invariant
        (P := fun g (s : State κ) => Kept s₀.adapter g s.adapter)
        (fun _ _ _ hok h => h.step eng hok) hacc hstart.kept
    have hkept' : Kept s₀.adapter.wiped g (run (step eng) s₀.wiped after).adapter :=
      (sinceReset κ s₀.adapter).run_invariant
        (P := fun g (s : State κ) => Kept s₀.adapter.wiped g s.adapter)
        (fun _ _ _ hok h => h.step eng (sinceReset_ok_wiped hok)) hacc hstart.kept'
    exact hkept.buildFeatures_eq hkept' hrate₀ hnow hr hpre

/-- A leaper adapter whose only model is the read rate of the previous second. -/
def readRateState : State Unit := ⟨{ core := sampleCore }, ()⟩

/-- A compaction of one block, in range 7. -/
def beginSeven (mono : ℕ) : Call Unit :=
  ⟨mono, .compactionBegin 1 false
    [{ smallestKey := 7 :: List.replicate 8 0, largestKey := 7 :: List.replicate 8 0 }]⟩

/-- The state after a read of range 7 in second 3 and a reset half a second later. -/
def resetAfterRead : State Unit :=
  run (step noEngine) readRateState ([⟨3000000, .access false [7]⟩] ++ [⟨3500000, .resetClock⟩])

/-- The state after a read in second 2, a prediction in second 3 and the reset. -/
def resetAfterJob : State Unit :=
  run (step noEngine) readRateState
    ([⟨2000000, .access false [7]⟩, beginSeven 3000000, ⟨3000000, .compactionEnd⟩] ++
      [⟨3500000, .resetClock⟩])

/-- A second read, in second 1 of the new clock, takes over the word of the first one. -/
theorem outs_after_reset_reread :
    outs (step noEngine) resetAfterRead [⟨4500000, .access false [7]⟩, beginSeven 7500000] =
      outs (step noEngine) resetAfterRead.wiped
        [⟨4500000, .access false [7]⟩, beginSeven 7500000] :=
  (outs_after_reset noEngine readRateState [⟨3000000, .access false [7]⟩] 3500000
    [⟨4500000, .access false [7]⟩, beginSeven 7500000] (by decide +kernel) (by decide +kernel)).1

/-- **Ghosts.** In second 4 of the new clock the read of second 3 of the old one makes range 7
    hot.  And in second 3 of the new clock the memo of second 3 of the old one does, even though
    the word of the old read has been used for another second since. -/
theorem outs_wiped_ne_after_reset :
    outs (step noEngine) resetAfterRead [beginSeven 7500000] ≠
      outs (step noEngine) resetAfterRead.wiped [beginSeven 7500000] ∧
    outs (step noEngine) resetAfterJob [⟨3500000, .access false [7]⟩, beginSeven 6500000] ≠
      outs (step noEngine) resetAfterJob.wiped
        [⟨3500000, .access false [7]⟩, beginSeven 6500000] := by
  decide +kernel

end LevelDB

end Leaper
