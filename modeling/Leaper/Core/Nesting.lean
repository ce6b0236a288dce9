import Leaper.Core.Impl
import Leaper.Lib.Brackets

namespace Leaper

open Lib LeaperImpl

/-!
# Nested background jobs

A flush can begin and end in the middle of a compaction.  The contexts of all open jobs,
innermost first and with the context outside any job last, are the frames of a stack machine
(`stackMachine`).  Over whole runs:

* `run_job_spans` — what a job has chosen to warm stays with it until it ends;
* `run_nested_jobs` — inner jobs leave the outer job's context, and all later answers of the
  outer job, as they would be without them; a balanced run ends in the initial context.
-/

variable {κ : Type*}

/-- What an event does to the jobs. -/
def Event.bracket : Event κ → Bracket
  | .compactionBegin _ _ _ => .opens
  | .compactionEnd => .closes
  | .shouldPrefetch _ => .uses
  | _ => .keeps

/-- The contexts of the open jobs, innermost first; the last one is outside any job. -/
def World.contexts (w : World κ) : List JobCtx := w.core.ctx :: w.core.ctxStack

/-- The context outside any job, as the constructor leaves it. -/
def JobCtx.outside : JobCtx := ⟨[], 0, 0, false⟩

/-- A miss ratio the event reports. -/
def Event.health? : Event κ → Option ℚ
  | .setHealth missRatio => some missRatio
  | _ => none

section Steps

variable (ops : CacheOps κ)

/-- **What a call can do to the settings**: the options stay, and only `set_health` moves the
    anomaly detector. -/
theorem step_settings (w : World κ) (e : Event κ) : (step ops w e).1.core.opt = w.core.opt ∧
    (step ops w e).1.core.ssad = e.health?.elim w.core.ssad (w.core.ssad.observe w.core.opt) := by
  -- the calls whose frame lemma is needed; for the others both parts hold by computation
  cases e with
  | access isWrite key now =>
    obtain ⟨c, heq, -⟩ := w.core.onAccess_frame isWrite key now
    show (w.core.onAccess isWrite key now).opt = _ ∧ (w.core.onAccess isWrite key now).ssad = _
    rw [heq]
    exact ⟨rfl, rfl⟩
  | shouldPrefetch block =>
    show (w.core.shouldPrefetch block).1.opt = _ ∧ (w.core.shouldPrefetch block).1.ssad = _
    obtain ⟨st, heq | ⟨-, -, heq⟩⟩ := w.core.shouldPrefetch_frame block
    all_goals rw [heq]; exact ⟨rfl, rfl⟩
  | compactionEnd =>
    obtain ⟨c, cs, heq⟩ := w.core.onCompactionEnd_frame
    show w.core.onCompactionEnd.opt = _ ∧ w.core.onCompactionEnd.ssad = _
    rw [heq]
    exact ⟨rfl, rfl⟩
  | fileObsolete blocks =>
    obtain ⟨st, heq⟩ := w.core.onFileObsolete_frame ops w.cache blocks
    show (w.core.onFileObsolete ops w.cache blocks).1.opt = _ ∧
      (w.core.onFileObsolete ops w.cache blocks).1.ssad = _
    rw [heq]
    exact ⟨rfl, rfl⟩
  | _ => exact ⟨rfl, rfl⟩

theorem step_opt (w : World κ) (e : Event κ) : (step ops w e).1.core.opt = w.core.opt :=
  (step_settings ops w e).1

theorem step_ssad (w : World κ) (e : Event κ) : (step ops w e).1.core.ssad =
    e.health?.elim w.core.ssad (w.core.ssad.observe w.core.opt) := (step_settings ops w e).2

theorem run_opt (es : List (Event κ)) : ∀ w : World κ,
    (run (step ops) w es).core.opt = w.core.opt := by
  intro w
  refine run_keeps (P := fun w' : World κ => w'.core.opt = w.core.opt) (fun w' e h => ?_) es rfl
  rw [step_opt, h]

/-- A call that is no part of a job leaves the contexts. -/
theorem step_contexts_keeps {w : World κ} {e : Event κ} (hk : e.bracket = .keeps) :
    (step ops w e).1.contexts = w.contexts := by
  cases e with
  | compactionBegin info blocks now => cases hk
  | compactionEnd => cases hk
  | shouldPrefetch block => cases hk
  | access isWrite key now =>
    obtain ⟨c, heq, -⟩ := w.core.onAccess_frame isWrite key now
    show World.contexts ⟨w.core.onAccess isWrite key now, w.cache⟩ = _
    rw [heq]; rfl
  | fileObsolete blocks =>
    obtain ⟨st, heq⟩ := w.core.onFileObsolete_frame ops w.cache blocks
    show World.contexts ⟨(w.core.onFileObsolete ops w.cache blocks).1, _⟩ = _
    rw [heq]; rfl
  | _ => rfl

/-- **The jobs are a stack machine.** -/
theorem stackMachine : StackMachine (step ops) Event.bracket World.contexts where
  opens w e hk := by
    cases e with
    | compactionBegin info blocks now => exact ⟨_, rfl⟩
    | _ => cases hk
  closes w e hk f f' fs hfs := by
    cases e with
    | compactionEnd =>
      have hstack : w.core.ctxStack = f' :: fs := (List.cons.inj hfs).2
      show World.contexts ⟨w.core.onCompactionEnd, w.cache⟩ = _
      unfold World.contexts onCompactionEnd
      rw [hstack]
    | _ => cases hk
  uses w e hk f fs hfs := by
    cases e with
    | shouldPrefetch block =>
      have hstack : w.core.ctxStack = fs := (List.cons.inj hfs).2
      refine ⟨(w.core.shouldPrefetch block).1.ctx, ?_⟩
      show (w.core.shouldPrefetch block).1.ctx :: (w.core.shouldPrefetch block).1.ctxStack = _
      obtain ⟨st, heq | ⟨-, -, heq⟩⟩ := w.core.shouldPrefetch_frame block
      all_goals rw [heq, hstack]
    | _ => cases hk
  keeps w e hk := step_contexts_keeps ops hk

end Steps

/-! ### A job's spans -/

/-- The context of one job below those of `d` inner jobs: its spans, and what is below it. -/
def HasJob (spans : List RangeSpan) (base : List JobCtx) (d : ℕ) (w : World κ) : Prop :=
  ∃ pre c, pre.length = d ∧ w.contexts = pre ++ c :: base ∧ c.hotT2 = spans

theorem LeaperImpl.shouldPrefetch_hotT2 (s : LeaperImpl) (block : BlockRef) :
    (s.shouldPrefetch block).1.ctx.hotT2 = s.ctx.hotT2 ∧
      (s.shouldPrefetch block).1.ctxStack = s.ctxStack := by
  obtain ⟨st, heq | ⟨-, -, heq⟩⟩ := s.shouldPrefetch_frame block
  all_goals rw [heq]; exact ⟨rfl, rfl⟩

/-- One call before the job's end. -/
theorem HasJob.step (ops : CacheOps κ) {spans : List RangeSpan} {base : List JobCtx} {d : ℕ}
    {w : World κ} {e : Event κ} (hok : (brackets Event.bracket false).ok d e)
    (h : HasJob spans base d w) : HasJob spans base (e.bracket.depth d) (step ops w e).1 := by
  obtain ⟨pre, c, hlen, hctxs, hspans⟩ := h
  by_cases hown : e.bracket = .uses ∧ d = 0
  · -- the job's own question moves its bytes only
    obtain ⟨huse, rfl⟩ := hown
    cases e with
    | shouldPrefetch block =>
      rw [List.length_eq_zero_iff.mp hlen] at hctxs
      obtain ⟨hctx, hstack⟩ := List.cons.inj hctxs
      obtain ⟨hkeep, hrest⟩ := w.core.shouldPrefetch_hotT2 block
      refine ⟨[], (w.core.shouldPrefetch block).1.ctx, rfl, ?_, ?_⟩
      · exact congrArg _ (hrest.trans hstack)
      · rw [hkeep, hctx, hspans]
    | _ => cases huse
  · obtain ⟨pre', hlen', hctxs'⟩ := (stackMachine ops).step_frames (List.cons_ne_nil c base)
      ⟨hok.1, fun _ huse => Nat.pos_of_ne_zero fun hd => hown ⟨huse, hd⟩⟩ hlen hctxs
    exact ⟨pre', c, hlen', hctxs', hspans⟩

/-- **A job keeps its spans.** At its own level, however often inner jobs have begun and ended
    and blocks were granted, the spans are those it began with. -/
theorem run_job_spans (ops : CacheOps κ) {w : World κ} {es : List (Event κ)}
    (hacc : (brackets Event.bracket false).Accepts 0 es)
    (hbal : (brackets Event.bracket false).after 0 es = 0) :
    (run (step ops) w es).core.ctx.hotT2 = w.core.ctx.hotT2 := by
  obtain ⟨pre, c, hlen, hctxs, hspans⟩ := (brackets Event.bracket false).run_invariant
    (P := fun d w' => HasJob w.core.ctx.hotT2 w.core.ctxStack d w')
    (fun _ _ _ hok h => h.step ops hok) hacc ⟨[], w.core.ctx, rfl, rfl, rfl⟩
  rw [hbal] at hlen
  rw [List.length_eq_zero_iff.mp hlen] at hctxs
  rw [← hspans, ← (List.cons.inj hctxs).1]

/-! ### The outer job's view -/

/-- The run with the inner jobs deleted: their begins, ends and questions go. -/
def outerOnly : ℕ → List (Event κ) → List (Event κ)
  | _, [] => []
  | d, e :: es =>
    if e.bracket = .keeps ∨ (e.bracket = .uses ∧ d = 0) then
      e :: outerOnly (e.bracket.depth d) es
    else outerOnly (e.bracket.depth d) es

/-- The answers given while no inner job is open. -/
def outerAnswers : ℕ → List (Event κ) → List Obs → List Bool
  | d, e :: es, o :: os =>
    (if d = 0 then o.answer.toList else []) ++ outerAnswers (e.bracket.depth d) es os
  | _, _, _ => []

/-- All answers of a run. -/
def answers (os : List Obs) : List Bool := os.flatMap fun o => o.answer.toList

/-- The full run inside `d` inner jobs next to the run without them. -/
structure Outer (d : ℕ) (w w' : World κ) : Prop where
  opt : w.core.opt = w'.core.opt
  ssad : w.core.ssad = w'.core.ssad
  contexts : ∃ pre, pre.length = d ∧ w.contexts = pre ++ w'.contexts

/-- The answer to a question, and the context after it, depend on options, detector and
    context alone. -/
theorem shouldPrefetch_congr {s s' : LeaperImpl} (hopt : s.opt = s'.opt) (hssad : s.ssad = s'.ssad)
    (hctx : s.ctx = s'.ctx) (block : BlockRef) :
    (s.shouldPrefetch block).2 = (s'.shouldPrefetch block).2 ∧
    (s.shouldPrefetch block).1.ctx = (s'.shouldPrefetch block).1.ctx := by
  have hwant : s.wants block = s'.wants block := by
    unfold wants
    rw [hopt, hssad, hctx]
  unfold shouldPrefetch
  rw [hwant, hctx]
  split_ifs
  · exact ⟨rfl, rfl⟩
  · exact ⟨rfl, rfl⟩
  · exact ⟨rfl, hctx⟩

theorem step_answer_of_not_uses (ops : CacheOps κ) {w : World κ} {e : Event κ}
    (hk : e.bracket ≠ .uses) : (step ops w e).2.answer = none := by
  cases e with
  | shouldPrefetch block => exact absurd rfl hk
  | _ => rfl

/-- The outer job's own question: same answer, same context afterwards. -/
theorem Outer.question (ops : CacheOps κ) {w w' : World κ} (h : Outer 0 w w') {e : Event κ}
    (hk : e.bracket = .uses) :
    Outer 0 (step ops w e).1 (step ops w' e).1 ∧
      (step ops w e).2.answer = (step ops w' e).2.answer := by
  cases e with
  | shouldPrefetch block =>
    -- at depth zero the two runs have the same contexts
    obtain ⟨pre, hlen, hctxs⟩ := h.contexts
    rw [List.length_eq_zero_iff.mp hlen, List.nil_append] at hctxs
    obtain ⟨hctx, hstack⟩ := List.cons.inj hctxs
    obtain ⟨hans, hctx'⟩ := shouldPrefetch_congr h.opt h.ssad hctx block
    refine ⟨⟨?_, ?_, [], rfl, ?_⟩, congrArg some hans⟩
    · rw [step_opt, step_opt, h.opt]
    · rw [step_ssad, step_ssad, h.opt, h.ssad]
    · obtain ⟨f, hf⟩ := (stackMachine ops).uses w (.shouldPrefetch block) rfl _ _ rfl
      obtain ⟨f', hf'⟩ := (stackMachine ops).uses w' (.shouldPrefetch block) rfl _ _ rfl
      show (w.core.shouldPrefetch block).1.ctx :: _ = (w'.core.shouldPrefetch block).1.ctx :: _
      rw [hctx']
      exact congrArg _ ((List.cons.inj hf).2.trans (hstack.trans (List.cons.inj hf').2.symm))
  | _ => cases hk

/-- A call of the inner jobs, which the other run does not make. -/
theorem Outer.inner (ops : CacheOps κ) {d : ℕ} {w w' : World κ} (h : Outer d w w') {e : Event κ}
    (hok : (brackets Event.bracket true).ok d e) (hk : e.bracket ≠ .keeps) :
    Outer (e.bracket.depth d) (step ops w e).1 w' := by
  have hhealth : e.health? = none := by
    cases e with
    | setHealth m => exact absurd rfl hk
    | _ => rfl
  obtain ⟨pre, hlen, hpre⟩ := h.contexts
  refine ⟨?_, ?_, ?_⟩
  · rw [step_opt, h.opt]
  · rw [step_ssad, hhealth, h.ssad]
    rfl
  · exact (stackMachine ops).step_frames (List.cons_ne_nil _ _) hok hlen hpre

/-- A call both runs make. -/
theorem Outer.both (ops : CacheOps κ) {d : ℕ} {w w' : World κ} (h : Outer d w w') {e : Event κ}
    (hk : e.bracket = .keeps) : Outer d (step ops w e).1 (step ops w' e).1 := by
  refine ⟨?_, ?_, ?_⟩
  · rw [step_opt, step_opt, h.opt]
  · rw [step_ssad, step_ssad, h.opt, h.ssad]
  · rw [step_contexts_keeps ops hk, step_contexts_keeps ops hk]
    exact h.contexts

/-- **The outer job does not notice its inner jobs.** -/
theorem outerAnswers_eq (ops : CacheOps κ) (es : List (Event κ)) : ∀ (d : ℕ) (w w' : World κ),
    (brackets Event.bracket false).Accepts d es → Outer d w w' →
    outerAnswers d es (outs (step ops) w es) =
      answers (outs (step ops) w' (outerOnly d es)) := by
  induction es with
  | nil => exact fun d w w' _ _ => rfl
  | cons e es ih =>
    intro d w w' hacc h
    rw [outs_cons, outerAnswers, outerOnly]
    by_cases hkeep : e.bracket = .keeps
    · -- both runs make the call, and it has no answer
      rw [if_pos (Or.inl hkeep), outs_cons]
      have hnext := ih _ _ _ hacc.2
        (show Outer (e.bracket.depth d) _ _ by rw [hkeep]; exact h.both ops hkeep)
      have hnone := fun w => step_answer_of_not_uses ops (w := w) (e := e) (by rw [hkeep]; decide)
      unfold answers
      rw [List.flatMap_cons, hnone, hnone]
      simp only [Option.toList_none, ite_self, List.nil_append]
      exact hnext
    · by_cases houter : e.bracket = .uses ∧ d = 0
      · -- the outer job's own question
        obtain ⟨huse, rfl⟩ := houter
        obtain ⟨hnext, hans⟩ := h.question ops huse
        rw [if_pos (Or.inr ⟨huse, rfl⟩), outs_cons]
        have hrest := ih _ _ _ hacc.2 (show Outer (e.bracket.depth 0) _ _ by rw [huse]; exact hnext)
        unfold answers
        rw [List.flatMap_cons, hans, if_pos rfl]
        exact congrArg _ hrest
      · -- a call of an inner job: the other run skips it
        rw [if_neg (not_or.mpr ⟨hkeep, houter⟩)]
        have hstrict : (brackets Event.bracket true).ok d e :=
          ⟨hacc.1.1, fun _ huse => Nat.pos_of_ne_zero fun hd => houter ⟨huse, hd⟩⟩
        have hskip : (if d = 0 then (step ops w e).2.answer.toList else []) = [] := by
          by_cases hd : d = 0
          · rw [if_pos hd, step_answer_of_not_uses ops fun huse => houter ⟨huse, hd⟩]
            rfl
          · exact if_neg hd
        rw [hskip, List.nil_append]
        exact ih _ _ _ hacc.2 (h.inner ops hstrict hkeep)

/-! ### Outside any job -/

/-- Outside any job nothing of positive size is granted, and the context stays initial. -/
theorem shouldPrefetch_outside {s : LeaperImpl} (h : s.ctx = .outside) (block : BlockRef) :
    (s.shouldPrefetch block).1.ctx = .outside ∧
      ((s.shouldPrefetch block).2 = true → u64 block.size = 0) := by
  obtain ⟨st, heq | ⟨-, hle, heq⟩⟩ := s.shouldPrefetch_frame block
  · rw [heq]
    exact ⟨h, fun hf => absurd hf Bool.false_ne_true⟩
  · have hsize : u64 block.size = 0 := by
      rw [h] at hle
      simpa [JobCtx.outside] using hle
    rw [heq, h]
    refine ⟨?_, fun _ => hsize⟩
    show JobCtx.mk [] (u64 (0 + block.size)) 0 false = _
    rw [Nat.zero_add, hsize]
    rfl

/-- One call of a bracketed run keeps the initial context at the bottom. -/
theorem step_contexts_bottom (ops : CacheOps κ) {d : ℕ} {w : World κ} {e : Event κ}
    (hok : (brackets Event.bracket false).ok d e) {pre : List JobCtx} (hlen : pre.length = d)
    (hctxs : w.contexts = pre ++ [.outside]) :
    ∃ pre', pre'.length = e.bracket.depth d ∧ (step ops w e).1.contexts = pre' ++ [.outside] := by
  by_cases houtside : e.bracket = .uses ∧ d = 0
  · -- a question outside any job: its budget is zero, so the context stays as it is
    obtain ⟨huse, rfl⟩ := houtside
    cases e with
    | shouldPrefetch block =>
      rw [List.length_eq_zero_iff.mp hlen] at hctxs
      obtain ⟨hctx, hstack⟩ := List.cons.inj hctxs
      refine ⟨[], rfl, ?_⟩
      obtain ⟨f, hf⟩ := (stackMachine ops).uses w (.shouldPrefetch block) rfl _ _ rfl
      show (w.core.shouldPrefetch block).1.ctx :: (w.core.shouldPrefetch block).1.ctxStack =
        [.outside]
      rw [(shouldPrefetch_outside hctx block).1]
      exact congrArg _ ((List.cons.inj hf).2.trans hstack)
    | _ => cases huse
  · exact (stackMachine ops).step_frames (List.cons_ne_nil _ _)
      ⟨hok.1, fun _ huse => Nat.pos_of_ne_zero fun hd => houtside ⟨huse, hd⟩⟩ hlen hctxs

/-- **Nested jobs do not disturb the enclosing job.** From any state: a balanced word of inner
    jobs restores the contexts; the answers of the outer job are those of the run with its
    inner jobs deleted; and from the initial context every balanced run leads back to it. -/
theorem run_nested_jobs (ops : CacheOps κ) (w : World κ) :
    (∀ inner : List (Event κ), (brackets Event.bracket true).Accepts 0 inner →
      (brackets Event.bracket true).after 0 inner = 0 →
      (run (step ops) w inner).core.ctx = w.core.ctx ∧
      (run (step ops) w inner).core.ctxStack = w.core.ctxStack) ∧
    (∀ es : List (Event κ), (brackets Event.bracket false).Accepts 0 es →
      outerAnswers 0 es (outs (step ops) w es) =
        answers (outs (step ops) w (outerOnly 0 es))) ∧
    (w.core.ctx = .outside → w.core.ctxStack = [] →
      ∀ es : List (Event κ), (brackets Event.bracket false).Accepts 0 es →
      (brackets Event.bracket false).after 0 es = 0 →
      (run (step ops) w es).core.ctx = .outside ∧ (run (step ops) w es).core.ctxStack = []) := by
  refine ⟨fun inner hacc hbal => ?_, fun es hacc => ?_, fun hctx hstack es hacc hbal => ?_⟩
  · exact List.cons.inj ((stackMachine ops).run_balanced (List.cons_ne_nil _ _) hacc hbal)
  · exact outerAnswers_eq ops es 0 w w hacc ⟨rfl, rfl, [], rfl, rfl⟩
  · -- the context outside any job stays at the bottom; at depth zero it is the top as well
    have hinit : w.contexts = [.outside] := congrArg₂ List.cons hctx hstack
    obtain ⟨pre, hlen, hpre⟩ := (brackets Event.bracket false).run_invariant
      (P := fun d (w : World κ) => ∃ pre, pre.length = d ∧ w.contexts = pre ++ [.outside])
      (fun d w e hok ⟨pre, hlen, hpre⟩ => step_contexts_bottom ops hok hlen hpre)
      hacc ⟨[], rfl, hinit⟩
    rw [hbal] at hlen
    rw [List.length_eq_zero_iff.mp hlen] at hpre
    exact List.cons.inj hpre

/-- A compaction that has begun over ranges 1 to 3, of which 2 is hot. -/
def openJob : World (List BlockRef) :=
  run (step listCache) ⟨sampleCore, []⟩ [.access false [2] 5,
    .compactionBegin { estBlocks := 10 } [{ firstRange := 1, lastRange := 3 }] 1000006]

/-- Its questions before and after a flush that asks as well. -/
def nestedRun : List (Event (List BlockRef)) :=
  [.shouldPrefetch { size := 20, firstRange := 2, lastRange := 2 },
   .compactionBegin { isFlush := true } [] 1000007,
   .shouldPrefetch { size := 10, firstRange := 2, lastRange := 2 }, .compactionEnd,
   .shouldPrefetch { size := 20, firstRange := 3, lastRange := 3 },
   .shouldPrefetch { size := 20, firstRange := 1, lastRange := 2 }]

/-- The flush is deleted, and the compaction's answers are still by its own hot range. -/
theorem run_nested_jobs_sample :
    openJob.core.ctx.hotT2 = [⟨2, 2⟩] ∧
    outerAnswers 0 nestedRun (outs (step listCache) openJob nestedRun) =
      answers (outs (step listCache) openJob
        [.shouldPrefetch { size := 20, firstRange := 2, lastRange := 2 },
         .shouldPrefetch { size := 20, firstRange := 3, lastRange := 3 },
         .shouldPrefetch { size := 20, firstRange := 1, lastRange := 2 }]) ∧
    outerAnswers 0 nestedRun (outs (step listCache) openJob nestedRun) = [true, false, true] :=
  ⟨by decide +kernel, (run_nested_jobs listCache openJob).2.1 nestedRun (by decide),
    by decide +kernel⟩

end Leaper
