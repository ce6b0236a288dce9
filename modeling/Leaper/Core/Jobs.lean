import Leaper.Core.Impl

namespace Leaper

open Lib

/-!
# What a job decides, and that the memo has no part in it

The hot sets of a job are lists of its candidates, filtered by inferences made now
(`hotSet`).  Along a run whose clock never goes back the memo is always good
(`memoGood_run`), so that is what `OnCompactionBegin` really works with:

* `predictPhases_hot` — the two hot sets of a leaper job, from the step ranges it asks for;
* `outs_memoizing` — a run with memoised predictions and the same run without one show the
  same hot sets, evictions and `ShouldPrefetch` answers.
-/

variable {κ : Type*}

/-! ### The clock -/

/-- The time a call carries, if it reads it. -/
def Event.time? : Event κ → Option ℕ
  | .access _ _ nowUs => some nowUs
  | .compactionBegin _ _ nowUs => some nowUs
  | _ => none

/-- **A clock that never goes back.** The environment knows the last time it showed. -/
def clock (κ : Type*) : Env ℕ (Event κ) where
  ok t e := t ≤ e.time?.getD t
  next t e := e.time?.getD t

instance (t : ℕ) (e : Event κ) : Decidable ((clock κ).ok t e) :=
  inferInstanceAs (Decidable (_ ≤ _))

namespace LeaperImpl

/-! ### Hot sets -/

/-- The candidates predicted hot for a step range, by inferences made now. -/
def hotSet (s : LeaperImpl) (blocks : List BlockRef) (nowUs lo hi : ℕ) : List ℕ :=
  sortUnique ((s.candidates blocks).filter
    (s.predictor.predicts s.collector nowUs s.opt.hotThreshold lo hi))

/-- Phase 1's hot set: what is read while the job runs. -/
def jobHot1 (s : LeaperImpl) (info : CompactionInfo) (blocks : List BlockRef) (nowUs : ℕ) :
    List ℕ :=
  if info.isFlush then [] else s.hotSet blocks nowUs 1 (s.k1 info)

/-- Phase 2's hot set: what is read while the cache recovers. -/
def jobHot2 (s : LeaperImpl) (info : CompactionInfo) (blocks : List BlockRef) (nowUs : ℕ) :
    List ℕ :=
  if info.isFlush then s.hotSet blocks nowUs 1 s.k2
  else s.hotSet blocks nowUs (s.k1 info + 1) (s.k1 info + s.k2)

/-- The memos agree with fresh inferences, now and later. -/
def MemoGood (s : LeaperImpl) (t : ℕ) : Prop :=
  MemoInv [] s.predictor s.collector s.opt.hotThreshold t

/-- The memos agree with inferences made now. -/
def MemoOk (s : LeaperImpl) (now : ℕ) : Prop :=
  s.predictor.MemoOk s.collector s.opt.hotThreshold now

variable {s : LeaperImpl} {t now : ℕ}

/-- **The hot sets of a job** are the ones fresh inferences give. -/
theorem predictPhases_hot (h : s.MemoOk now) (info : CompactionInfo) (blocks : List BlockRef) :
    (s.predictPhases info (s.candidates blocks) now).hot1 = s.jobHot1 info blocks now ∧
    (s.predictPhases info (s.candidates blocks) now).hot2 = s.jobHot2 info blocks now := by
  unfold predictPhases jobHot1 jobHot2
  by_cases hflush : info.isFlush = true
  · simp only [if_pos hflush]
    exact ⟨trivial, Predictor.out_predictHot h _ _ _⟩
  · simp only [if_neg hflush]
    refine ⟨Predictor.out_predictHot h _ _ _, ?_⟩
    -- the second call runs on the memos the first one left
    rw [Predictor.out_predictHot (h.predictHot _ _ _), Predictor.predicts_predictHot]
    rfl

/-- Both calls of `PredictHot` keep the invariant of the memos. -/
theorem predictPhases_memoInv {old : List Memo}
    (h : MemoInv old s.predictor s.collector s.opt.hotThreshold t) (ht : t ≤ now)
    (hdead : ∀ m ∈ old, m.Dead s.collector now) (info : CompactionInfo) (cands : List ℕ) :
    MemoInv old (s.predictPhases info cands now).predictor s.collector s.opt.hotThreshold now := by
  unfold predictPhases
  by_cases hflush : info.isFlush = true
  · simp only [if_pos hflush]
    exact h.predictHot ht hdead cands 1 s.k2
  · simp only [if_neg hflush]
    exact (h.predictHot ht hdead cands 1 (s.k1 info)).predictHot le_rfl hdead cands _ _

/-- A decision leaves the predictor, or takes it from the job's predictions. -/
theorem decideJob_predictor (ops : CacheOps κ) (s : LeaperImpl) (cache : κ)
    (info : CompactionInfo) (blocks : List BlockRef) (now : ℕ) :
    (s.decideJob ops cache info blocks now).predictor = s.predictor ∨
    (s.decideJob ops cache info blocks now).predictor =
      (s.predictPhases info (s.candidates blocks) now).predictor := by
  unfold decideJob
  simp only
  split_ifs
  · exact Or.inl rfl
  · cases s.opt.policy with
    | leaper =>
      apply Or.inr
      simp only [decideLeaper]
      split_ifs <;> rfl
    | _ => exact Or.inl rfl

/-- A whole decision keeps the invariant of the memos, whatever the policy. -/
theorem decideJob_memoInv {old : List Memo}
    (h : MemoInv old s.predictor s.collector s.opt.hotThreshold t) (ht : t ≤ now)
    (hdead : ∀ m ∈ old, m.Dead s.collector now) (ops : CacheOps κ) (cache : κ)
    (info : CompactionInfo) (blocks : List BlockRef) :
    MemoInv old (s.decideJob ops cache info blocks now).predictor s.collector
      s.opt.hotThreshold now := by
  rcases s.decideJob_predictor ops cache info blocks now with heq | heq
  · rw [heq]
    exact h.mono ht
  · rw [heq]
    exact predictPhases_memoInv h ht hdead info _

end LeaperImpl

/-! ### The memo along a run -/

open LeaperImpl

/-- One call keeps the memo good. -/
theorem memoGood_step (ops : CacheOps κ) {t : ℕ} {w : World κ} {e : Event κ}
    (hok : (clock κ).ok t e) (h : w.core.MemoGood t) :
    (step ops w e).1.core.MemoGood ((clock κ).next t e) := by
  cases e with
  | access isWrite key now =>
    obtain ⟨c, heq, hc⟩ := w.core.onAccess_frame isWrite key now
    show (w.core.onAccess isWrite key now).MemoGood now
    rw [heq]
    rcases hc with rfl | rfl
    · exact h.mono hok
    · exact h.record hok _ _
  | compactionBegin info blocks now =>
    exact decideJob_memoInv (s := w.core.pushCtx info) h hok
      (fun _ hm => absurd hm List.not_mem_nil) ops w.cache info blocks
  -- the other calls touch neither predictor nor counters
  | shouldPrefetch block =>
    show (w.core.shouldPrefetch block).1.MemoGood t
    obtain ⟨st, heq | ⟨-, -, heq⟩⟩ := w.core.shouldPrefetch_frame block
    · rw [heq]; exact h
    · rw [heq]; exact h
  | compactionEnd =>
    obtain ⟨c, cs, heq⟩ := w.core.onCompactionEnd_frame
    show w.core.onCompactionEnd.MemoGood t
    rw [heq]; exact h
  | fileObsolete blocks =>
    obtain ⟨st, heq⟩ := w.core.onFileObsolete_frame ops w.cache blocks
    show (w.core.onFileObsolete ops w.cache blocks).1.MemoGood t
    rw [heq]; exact h
  | setQps q => exact h
  | setHealth m => exact h
  | recordInvalidation n => exact h
  | engine change => exact h

/-- **The memo is good after every run** whose clock never goes back. -/
theorem memoGood_run (ops : CacheOps κ) {t : ℕ} {w : World κ} {es : List (Event κ)}
    (hacc : (clock κ).Accepts t es) (h : w.core.MemoGood t) :
    (run (step ops) w es).core.MemoGood ((clock κ).after t es) :=
  (clock κ).run_invariant (P := fun t (w : World κ) => w.core.MemoGood t)
    (fun _ _ _ hok hinv => memoGood_step ops hok hinv) hacc h

/-! ### The memo is transparent -/

/-- The core as the `memoize_predictions` option makes it. -/
def LeaperImpl.memoizing (s : LeaperImpl) (on : Bool) : LeaperImpl :=
  { s with
    opt := { s.opt with memoizePredictions := on }
    predictor := { s.predictor with memoize := on } }

/-- What of the predictor inferences read. -/
def Predictor.forgetMemo (p : Predictor) : Predictor :=
  { p with memoize := true, memo := [], clampedCalls := 0 }

/-- What of the core the memo can not touch. -/
def LeaperImpl.forgetMemo (s : LeaperImpl) : LeaperImpl :=
  { s with
    opt := { s.opt with memoizePredictions := true }
    predictor := s.predictor.forgetMemo
    stats := {} }

/-- What of a decision the memo can not touch. -/
def Decision.forgetMemo (d : Decision κ) :
    List RangeSpan × List ℕ × List ℕ × List BlockRef × κ :=
  (d.hotT2, d.hot1, d.hot2, d.evicted, d.cache)

namespace LeaperImpl

variable {s : LeaperImpl} {t now : ℕ}

/-- Without memos nothing can be wrong with them. -/
theorem memoOk_forgetMemo (s : LeaperImpl) (now : ℕ) : s.forgetMemo.MemoOk now :=
  fun _ hm => absurd hm List.not_mem_nil

/-- A core that starts without memos may use them or not. -/
theorem memoGood_memoizing (h : s.predictor.memo = []) (on : Bool) (t : ℕ) :
    (s.memoizing on).MemoGood t :=
  MemoInv.of_empty (p := (s.memoizing on).predictor) h _ _ _

/-- A decision changes nothing of the predictor that inferences read. -/
theorem decideJob_predictor_frame (ops : CacheOps κ) (s : LeaperImpl) (cache : κ)
    (info : CompactionInfo) (blocks : List BlockRef) (now : ℕ) : ∃ ms n,
    (s.decideJob ops cache info blocks now).predictor =
      { s.predictor with memo := ms, clampedCalls := n } := by
  rcases s.decideJob_predictor ops cache info blocks now with heq | heq
  · exact ⟨s.predictor.memo, s.predictor.clampedCalls, heq⟩
  · rw [heq]
    unfold predictPhases
    by_cases hflush : info.isFlush = true
    · simp only [if_pos hflush]
      exact Predictor.predictHot_predictor _ _ _ _ _ _ _
    · simp only [if_neg hflush]
      -- two calls, one on top of the other
      obtain ⟨ms, n, h1⟩ := s.predictor.predictHot_predictor s.collector (s.candidates blocks) 1
        (s.k1 info) now s.opt.hotThreshold
      rw [h1]
      exact Predictor.predictHot_predictor _ _ _ _ _ _ _

/-- But for its memos the predictor is what it was. -/
theorem decideJob_predictor_forgetMemo (ops : CacheOps κ) (s : LeaperImpl) (cache : κ)
    (info : CompactionInfo) (blocks : List BlockRef) (now : ℕ) :
    (s.decideJob ops cache info blocks now).predictor.forgetMemo = s.predictor.forgetMemo := by
  obtain ⟨ms, n, heq⟩ := decideJob_predictor_frame ops s cache info blocks now
  rw [heq]
  rfl

/-- With sound memos the policy decides as it does without any. -/
theorem decideLeaper_forgetMemo (h : s.MemoOk now) (ops : CacheOps κ) (cache : κ)
    (info : CompactionInfo) (blocks : List BlockRef) :
    (s.decideLeaper ops cache info blocks now).forgetMemo =
      (s.forgetMemo.decideLeaper ops cache info blocks now).forgetMemo := by
  obtain ⟨h1, h2⟩ := predictPhases_hot h info blocks
  obtain ⟨h1', h2'⟩ := predictPhases_hot (s.memoOk_forgetMemo now) info blocks
  -- both sides are built from the same hot sets
  have e1 : (s.forgetMemo.predictPhases info (s.forgetMemo.candidates blocks) now).hot1
      = s.jobHot1 info blocks now := h1'
  have e2 : (s.forgetMemo.predictPhases info (s.forgetMemo.candidates blocks) now).hot2
      = s.jobHot2 info blocks now := h2'
  have hdry : s.forgetMemo.opt.dryRun = s.opt.dryRun := rfl
  have hphase : s.forgetMemo.opt.enablePhase1 = s.opt.enablePhase1 := rfl
  unfold decideLeaper Decision.forgetMemo
  simp only [h1, h2, e1, e2, hdry, hphase]
  split_ifs <;> rfl

/-- A decision does not look at the enclosing jobs. -/
theorem decideJob_ctxStack (ops : CacheOps κ) (s : LeaperImpl) (st : List JobCtx) (cache : κ)
    (info : CompactionInfo) (blocks : List BlockRef) :
    ({ s with ctxStack := st } : LeaperImpl).decideJob ops cache info blocks now =
      s.decideJob ops cache info blocks now := by
  unfold decideJob
  rfl

/-- With sound memos every policy decides as it does without any. -/
theorem decideJob_forgetMemo (h : s.MemoOk now) (ops : CacheOps κ) (cache : κ)
    (info : CompactionInfo) (blocks : List BlockRef) :
    (s.decideJob ops cache info blocks now).forgetMemo =
      (s.forgetMemo.decideJob ops cache info blocks now).forgetMemo := by
  have hsus : s.forgetMemo.ssad.suspended = s.ssad.suspended := rfl
  have hpol : s.forgetMemo.opt.policy = s.opt.policy := rfl
  unfold decideJob
  simp only [hsus, hpol]
  split_ifs
  · rfl
  · cases s.opt.policy with
    | leaper => exact decideLeaper_forgetMemo h ops cache info blocks
    | _ => rfl

/-- All of the state after a `Begin` but the memo comes from the decision's spans. -/
theorem onCompactionBegin_forgetMemo (ops : CacheOps κ) (s : LeaperImpl) (cache : κ)
    (info : CompactionInfo) (blocks : List BlockRef) (now : ℕ) :
    (s.onCompactionBegin ops cache info blocks now).1.forgetMemo =
      { (s.pushCtx info).forgetMemo with
        ctx := { (s.pushCtx info).ctx with
          hotT2 := ((s.pushCtx info).decideJob ops cache info blocks now).hotT2 } } := by
  have hpred := decideJob_predictor_forgetMemo ops (s.pushCtx info) cache info blocks now
  unfold LeaperImpl.forgetMemo onCompactionBegin
  simp only [hpred]

end LeaperImpl

/-- A world without its memo. -/
def World.forgetMemo (w : World κ) : World κ := ⟨w.core.forgetMemo, w.cache⟩

/-- **A call does not see the memo**: its observation, and all of the next state but the memo
    and the counters, come from the state without the memo. -/
theorem step_forgetMemo (ops : CacheOps κ) {t : ℕ} {w : World κ} {e : Event κ}
    (hok : (clock κ).ok t e) (h : w.core.MemoGood t) :
    (step ops w e).1.forgetMemo = (step ops w.forgetMemo e).1.forgetMemo ∧
    (step ops w e).2 = (step ops w.forgetMemo e).2 := by
  cases e with
  | access isWrite key now =>
    refine ⟨?_, rfl⟩
    have hcol : w.core.forgetMemo.collecting = w.core.collecting := rfl
    simp only [step, World.forgetMemo, onAccess, hcol]
    split_ifs <;> rfl
  | compactionBegin info blocks now =>
    -- the decision shows nothing of the memo, and the rest of the step is stored as it is
    have hd : ((w.core.pushCtx info).decideJob ops w.cache info blocks now).forgetMemo =
        ((w.core.pushCtx info).forgetMemo.decideJob ops w.cache info blocks now).forgetMemo :=
      decideJob_forgetMemo (s := w.core.pushCtx info) (h.ok now hok) ops w.cache info blocks
    simp only [Decision.forgetMemo, Prod.mk.injEq] at hd
    obtain ⟨hspans, hhot1, hhot2, hev, hcache⟩ := hd
    have hcore : (w.core.onCompactionBegin ops w.cache info blocks now).1.forgetMemo =
        (w.core.forgetMemo.onCompactionBegin ops w.cache info blocks now).1.forgetMemo := by
      rw [onCompactionBegin_forgetMemo, onCompactionBegin_forgetMemo, hspans]
      rfl
    refine ⟨congrArg₂ World.mk hcore hcache, ?_⟩
    simp only [step, onCompactionBegin, hhot1, hhot2, hev]
    rfl
  | shouldPrefetch block =>
    have hwant : w.core.forgetMemo.wants block = w.core.wants block := rfl
    have hctx : w.core.forgetMemo.ctx = w.core.ctx := rfl
    simp only [step, World.forgetMemo, LeaperImpl.shouldPrefetch, hwant, hctx]
    split_ifs <;> exact ⟨rfl, rfl⟩
  | compactionEnd =>
    refine ⟨?_, rfl⟩
    have hstack : w.core.forgetMemo.ctxStack = w.core.ctxStack := rfl
    simp only [step, World.forgetMemo, onCompactionEnd, hstack]
    cases w.core.ctxStack <;> rfl
  | fileObsolete blocks =>
    have hpol : w.core.forgetMemo.opt.policy = w.core.opt.policy := rfl
    simp only [step, World.forgetMemo, onFileObsolete, hpol]
    split_ifs <;> exact ⟨rfl, rfl⟩
  | setQps q => exact ⟨rfl, rfl⟩
  | setHealth m => exact ⟨rfl, rfl⟩
  | recordInvalidation n => exact ⟨rfl, rfl⟩
  | engine change => exact ⟨rfl, rfl⟩

/-- **Memoised prediction is transparent.** Whatever the collector, the models and the engine,
    a run whose clock never goes back shows the same hot sets, the same evictions in the same
    order and the same answers with the memo and without. -/
theorem outs_memoizing (ops : CacheOps κ) (s : LeaperImpl) (hmemo : s.predictor.memo = [])
    (cache : κ) {es : List (Event κ)} (hacc : (clock κ).Accepts 0 es) :
    outs (step ops) ⟨s.memoizing true, cache⟩ es =
      outs (step ops) ⟨s.memoizing false, cache⟩ es := by
  apply (clock κ).outs_eq (R := fun t w w' =>
    w.core.MemoGood t ∧ w'.core.MemoGood t ∧ w.forgetMemo = w'.forgetMemo) _ hacc
  · exact ⟨memoGood_memoizing hmemo true 0, memoGood_memoizing hmemo false 0, rfl⟩
  · intro t w w' e hok hR
    obtain ⟨hgood, hgood', hsame⟩ := hR
    obtain ⟨hnext, hobs⟩ := step_forgetMemo ops hok hgood
    obtain ⟨hnext', hobs'⟩ := step_forgetMemo ops hok hgood'
    -- both runs answer as the common state without the memo
    rw [hsame] at hnext hobs
    exact ⟨⟨memoGood_step ops hok hgood, memoGood_step ops hok hgood', hnext.trans hnext'.symm⟩,
      hobs.trans hobs'.symm⟩

/-- A compaction of two blocks, asked for twice in the second after a read of range 7. -/
def sampleRun : List (Event (List BlockRef)) :=
  [.access false [7] 100,
   .compactionBegin {} [{ firstRange := 7, lastRange := 7 }, { firstRange := 9, lastRange := 9 }]
     1000000,
   .shouldPrefetch { firstRange := 5, lastRange := 8, size := 4096 },
   .compactionEnd,
   .compactionBegin {} [{ firstRange := 7, lastRange := 7 }] 1000001,
   .compactionEnd]

/-- Two jobs in one second, the second of them answered from the memo. -/
theorem outs_memoizing_sampleRun :
    outs (step listCache) ⟨sampleCore.memoizing true, []⟩ sampleRun =
      outs (step listCache) ⟨sampleCore.memoizing false, []⟩ sampleRun :=
  outs_memoizing listCache sampleCore rfl [] (by decide)

end Leaper
