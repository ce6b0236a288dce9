import Leaper.Core.Nesting

namespace Leaper

open Lib LeaperImpl

/-!
# The dry run as a control

With `dry_run` a leaper core makes all its predictions and discards them.  Next to the same calls
with the option off:

* `learnt_step` — what a core learns from a call (`LeaperImpl.learnt`) does not depend on the
  option, the cache or the open jobs;
* `dry_step` — a dry core never holds anything to warm;
* `dryRun_control` — over whole runs, whatever the two engines do with their caches.
-/

variable {κ : Type*}

/-- The core as the `dry_run` option makes it. -/
def LeaperImpl.dryRunning (s : LeaperImpl) (on : Bool) : LeaperImpl :=
  { s with opt := { s.opt with dryRun := on } }

/-- What predictions read or count, and the suspension: all of the core but the open jobs, the
    other counters and the option itself. -/
def LeaperImpl.learnt (s : LeaperImpl) : LeaperImpl :=
  { s with
    opt := { s.opt with dryRun := true }
    ctx := {}
    ctxStack := []
    stats :=
      { inferences := s.stats.inferences
        memoHits := s.stats.memoHits
        rangesPredictedHot := s.stats.rangesPredictedHot
        rangesPredictedCold := s.stats.rangesPredictedCold } }

/-- A call of the plug-in, as opposed to what the engine does to its cache on its own. -/
def Event.isHook : Event κ → Bool
  | .engine _ => false
  | _ => true

/-! ### What a core learns -/

/-- The predictions of a leaper job and their counters. -/
def LeaperImpl.study (s : LeaperImpl) (info : CompactionInfo) (blocks : List BlockRef)
    (nowUs : ℕ) : LeaperImpl :=
  if s.ssad.suspended then s
  else
    let cands := s.candidates blocks
    let h := s.predictPhases info cands nowUs
    { s with predictor := h.predictor, stats := s.predictionStats h cands }

/-- **A job's beginning**: predictions are made and counted before the option is looked at. -/
theorem learnt_onCompactionBegin {s : LeaperImpl} (hpol : s.opt.policy = .leaper)
    (ops : CacheOps κ) (cache : κ) (info : CompactionInfo) (blocks : List BlockRef) (nowUs : ℕ) :
    (s.onCompactionBegin ops cache info blocks nowUs).1.learnt =
      s.learnt.study info blocks nowUs := by
  rw [onCompactionBegin_frame]
  by_cases hsus : s.ssad.suspended = true
  · have hstay : s.learnt.study info blocks nowUs = s.learnt := if_pos hsus
    rw [decideJob_suspended (s := s.pushCtx info) hpol hsus, hstay]
    rfl
  · have hstudy : s.learnt.study info blocks nowUs = _ := if_neg hsus
    rw [decideJob_of_not_suspended (s := s.pushCtx info) hpol hsus, hstudy]
    unfold decideLeaper
    simp only
    split_ifs <;> rfl

/-- **A call teaches two cores the same**, if they knew the same before. -/
theorem learnt_step (ops : CacheOps κ) {w w' : World κ} (hpol : w.core.opt.policy = .leaper)
    (h : w.core.learnt = w'.core.learnt) (e : Event κ) :
    (step ops w e).1.core.learnt = (step ops w' e).1.core.learnt := by
  -- each case is one fact about `learnt` of a single core, used on both sides
  have hpol' : w'.core.opt.policy = .leaper :=
    (congrArg (fun s : LeaperImpl => s.opt.policy) h).symm.trans hpol
  cases e with
  | access isWrite key now =>
    have haccess : ∀ s : LeaperImpl,
        (s.onAccess isWrite key now).learnt = s.learnt.onAccess isWrite key now := by
      intro s
      have hcollecting : s.learnt.collecting = s.collecting := rfl
      unfold onAccess
      rw [hcollecting]
      split_ifs <;> rfl
    show (w.core.onAccess isWrite key now).learnt = (w'.core.onAccess isWrite key now).learnt
    rw [haccess, haccess, h]
  | compactionBegin info blocks now =>
    show (w.core.onCompactionBegin ops w.cache info blocks now).1.learnt =
      (w'.core.onCompactionBegin ops w'.cache info blocks now).1.learnt
    rw [learnt_onCompactionBegin hpol, learnt_onCompactionBegin hpol', h]
  | shouldPrefetch block =>
    have hanswer : ∀ s : LeaperImpl, (s.shouldPrefetch block).1.learnt = s.learnt := by
      intro s
      unfold LeaperImpl.shouldPrefetch
      split_ifs <;> rfl
    exact (hanswer w.core).trans (h.trans (hanswer w'.core).symm)
  | compactionEnd =>
    have hend : ∀ s : LeaperImpl, s.onCompactionEnd.learnt = s.learnt := by
      intro s
      obtain ⟨c, cs, heq⟩ := s.onCompactionEnd_frame
      rw [heq]
      rfl
    exact (hend w.core).trans (h.trans (hend w'.core).symm)
  | fileObsolete blocks =>
    have hobsolete : ∀ (s : LeaperImpl) (cache : κ),
        (s.onFileObsolete ops cache blocks).1.learnt = s.learnt := by
      intro s cache
      unfold onFileObsolete
      split_ifs <;> rfl
    exact (hobsolete w.core w.cache).trans (h.trans (hobsolete w'.core w'.cache).symm)
  | setQps q => exact congrArg (fun s : LeaperImpl => { s with qps := q }) h
  | setHealth m =>
    have hhealth : ∀ s : LeaperImpl, (s.setHealth m).learnt =
        { s.learnt with ssad := s.learnt.ssad.observe s.learnt.opt m } := by
      intro s
      unfold setHealth LeaperImpl.learnt
      simp only
      split_ifs <;> rfl
    show (w.core.setHealth m).learnt = (w'.core.setHealth m).learnt
    rw [hhealth, hhealth, h]
  | recordInvalidation n => exact h
  | engine change => exact h

/-- **A run teaches two cores the same**, if the calls of the plug-in were the same. -/
theorem learnt_run (ops : CacheOps κ) (es : List (Event κ)) : ∀ (es' : List (Event κ))
    (w w' : World κ), es.filter Event.isHook = es'.filter Event.isHook →
      w.core.opt.policy = .leaper → w.core.learnt = w'.core.learnt →
      (run (step ops) w es).core.learnt = (run (step ops) w' es').core.learnt := by
  -- on the first run, and for each of its calls on what the second engine does before it
  induction es with
  | nil =>
    intro es'
    induction es' with
    | nil => exact fun _ _ _ _ h => h
    | cons e' es' ih =>
      intro w w' hsame hpol h
      cases e' with
      | engine change => exact ih w ⟨w'.core, change w'.cache⟩ hsame hpol h
      | _ => cases hsame
  | cons e es ih =>
    intro es' w w' hsame hpol h
    by_cases hhook : e.isHook = true
    · induction es' generalizing w' with
      | nil =>
        rw [List.filter_cons_of_pos hhook] at hsame
        cases hsame
      | cons e' es' ih' =>
        by_cases hhook' : e'.isHook = true
        · rw [List.filter_cons_of_pos hhook, List.filter_cons_of_pos hhook'] at hsame
          obtain ⟨rfl, hrest⟩ := List.cons.inj hsame
          exact ih es' _ _ hrest (by rw [step_opt, hpol]) (learnt_step ops hpol h e)
        · rw [List.filter_cons_of_neg hhook'] at hsame
          cases e' with
          | engine change => exact ih' ⟨w'.core, change w'.cache⟩ hsame h
          | _ => exact absurd rfl hhook'
    · rw [List.filter_cons_of_neg hhook] at hsame
      cases e with
      | engine change => exact ih es' ⟨w.core, change w.cache⟩ w' hsame hpol h
      | _ => exact absurd rfl hhook

/-! ### What a dry core does -/

/-- A dry leaper core none of whose jobs has anything to warm. -/
structure Dry (w : World κ) : Prop where
  policy : w.core.opt.policy = .leaper
  dry : w.core.opt.dryRun = true
  empty : ∀ c ∈ w.contexts, c.hotT2 = []

variable {w : World κ}

/-- A dry job decides nothing, whether suspended or not. -/
theorem Dry.decideJob (h : Dry w) (ops : CacheOps κ) (info : CompactionInfo)
    (blocks : List BlockRef) (nowUs : ℕ) :
    let d := (w.core.pushCtx info).decideJob ops w.cache info blocks nowUs
    d.hotT2 = [] ∧ d.evicted = [] ∧ d.cache = w.cache := by
  have hpol : (w.core.pushCtx info).opt.policy = .leaper := h.policy
  have hdry : (w.core.pushCtx info).opt.dryRun = true := h.dry
  simp only [LeaperImpl.decideJob, hpol, decideLeaper, hdry, if_true]
  split_ifs <;> exact ⟨rfl, rfl, rfl⟩

theorem Dry.shouldPrefetch (h : Dry w) (block : BlockRef) :
    w.core.shouldPrefetch block = (w.core, false) :=
  shouldPrefetch_of_no_spans h.policy (h.empty _ List.mem_cons_self) block

/-- **A dry core stays without anything to warm.** -/
theorem dry_step (ops : CacheOps κ) (h : Dry w) (e : Event κ) : Dry (step ops w e).1 := by
  refine ⟨by rw [step_opt, h.policy], by rw [step_opt, h.dry], ?_⟩
  -- contexts change by brackets alone, and a dry run leaves none with a hot range
  cases hkind : e.bracket with
  | keeps =>
    rw [step_contexts_keeps ops hkind]
    exact h.empty
  | opens =>
    cases e with
    | compactionBegin info blocks now =>
      intro c hc
      rcases List.mem_cons.mp hc with rfl | hc
      · exact (h.decideJob ops info blocks now).1
      · exact h.empty c hc
    | _ => cases hkind
  | uses =>
    cases e with
    | shouldPrefetch block =>
      have hsame : (step ops w (.shouldPrefetch block)).1 = w := by
        show World.mk (w.core.shouldPrefetch block).1 w.cache = w
        rw [h.shouldPrefetch block]
      rw [hsame]
      exact h.empty
    | _ => cases hkind
  | closes =>
    cases e with
    | compactionEnd =>
      cases hstack : w.core.ctxStack with
      | nil =>
        have hctxs : (step ops w .compactionEnd).1.contexts =
            [{ w.core.ctx with hotT2 := [] }] := by
          simp only [step, World.contexts, onCompactionEnd, hstack]
        rw [hctxs]
        intro c hc
        rw [List.mem_singleton.mp hc]
      | cons outer rest =>
        have hctxs := (stackMachine ops).closes w .compactionEnd rfl w.core.ctx outer rest
          (congrArg _ hstack)
        intro c hc
        rw [hctxs, ← hstack] at hc
        exact h.empty c (List.mem_cons_of_mem _ hc)
    | _ => cases hkind

theorem dry_run (ops : CacheOps κ) (es : List (Event κ)) :
    ∀ w : World κ, Dry w → Dry (run (step ops) w es) := by
  intro w h
  exact run_keeps (P := Dry) (fun _ e h => dry_step ops h e) es h

/-! ### The control -/

/-- **The dry run is a control.** The same calls with the option on and off, on engines that
    otherwise do what they like with their caches, leave the same predictions counted and
    clamped, the same collector, memo and suspension; and at every point of the dry run a job
    that begins evicts nothing and no block is granted. -/
theorem dryRun_control (ops : CacheOps κ) (s : LeaperImpl) (hpol : s.opt.policy = .leaper)
    (hidle : ∀ c ∈ s.ctx :: s.ctxStack, c.hotT2 = []) (cache cache' : κ) {es es' : List (Event κ)}
    (hsame : es.filter Event.isHook = es'.filter Event.isHook) :
    let dry := run (step ops) ⟨s.dryRunning true, cache⟩ es
    let live := run (step ops) ⟨s.dryRunning false, cache'⟩ es'
    (dry.core.stats.inferences = live.core.stats.inferences ∧
      dry.core.stats.memoHits = live.core.stats.memoHits ∧
      dry.core.predictor.clampedCalls = live.core.predictor.clampedCalls ∧
      dry.core.stats.rangesPredictedHot = live.core.stats.rangesPredictedHot ∧
      dry.core.stats.rangesPredictedCold = live.core.stats.rangesPredictedCold ∧
      dry.core.collector = live.core.collector ∧
      dry.core.predictor.memo = live.core.predictor.memo ∧
      dry.core.ssad = live.core.ssad) ∧
    (∀ info blocks nowUs,
      (step ops dry (.compactionBegin info blocks nowUs)).2.evicted = [] ∧
      (step ops dry (.compactionBegin info blocks nowUs)).1.cache = dry.cache) ∧
    ∀ block, (step ops dry (.shouldPrefetch block)).2.answer = some false := by
  intro dry live
  have hlearnt : dry.core.learnt = live.core.learnt := learnt_run ops es es' _ _ hsame hpol rfl
  have hdry : Dry dry := dry_run ops es _ ⟨hpol, rfl, hidle⟩
  simp only [LeaperImpl.learnt, LeaperImpl.mk.injEq, Stats.mk.injEq] at hlearnt
  obtain ⟨-, -, hcollector, hpredictor, -, -, -, ⟨hinf, hmemo, hhot, hcold, -⟩, -, hssad⟩ := hlearnt
  refine ⟨⟨hinf, hmemo, ?_, hhot, hcold, hcollector, ?_, hssad⟩, ?_, ?_⟩
  · rw [hpredictor]
  · rw [hpredictor]
  · intro info blocks nowUs
    exact (hdry.decideJob ops info blocks nowUs).2
  · intro block
    show some (dry.core.shouldPrefetch block).2 = _
    rw [hdry.shouldPrefetch block]

/-- A read, a compaction with a question inside, and an engine that drops its cache in one of the
    two runs. -/
theorem dryRun_control_sample :
    let calls : List (Event (List BlockRef)) :=
      [.access false [7] 100, .compactionBegin {} [{ firstRange := 7, lastRange := 9 }] 1000000,
       .shouldPrefetch { firstRange := 5, lastRange := 8, size := 4096 }]
    (run (step listCache) ⟨sampleCore.dryRunning true, []⟩
        (.engine (fun _ => []) :: calls)).core.stats.inferences =
      (run (step listCache) ⟨sampleCore.dryRunning false, []⟩ calls).core.stats.inferences :=
  (dryRun_control listCache sampleCore rfl (by decide) [] [] rfl).1.1

end Leaper
