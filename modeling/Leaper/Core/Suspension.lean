import Leaper.Core.Nesting
import Leaper.Lib.Hysteresis

namespace Leaper

open Lib LeaperImpl

/-!
# The anomaly detector suspends with hysteresis

`set_health` judges each sample and changes its mind only after `ssad_window` equal judgements: a
latch (`Lib.Latch`) over the sequence of verdicts.  All other calls leave the detector.

* `latch_observe` — one sample, as a step of the latch;
* `run_ssad` — after any run the detector is what the samples among its calls made of it;
* `ssad_hysteresis` — when a core is suspended, how often it was, and what its jobs do then.
-/

variable {κ : Type*}

/-- The verdicts on a sequence of samples, from a moving average on.  `judge` reads nothing else
    of the detector. -/
def Options.verdicts (o : Options) : ℚ → List ℚ → List Bool
  | _, [] => []
  | ewma, m :: ms =>
    let j := Ssad.judge o { ewma := ewma } m
    j.1 :: o.verdicts j.2 ms

/-- **What the verdicts on some samples are**, said without the detector.  `average i` is what is
    known of the healthy ones among the first `i` samples, negative as long as it is not set. -/
structure Verdicts (o : Options) (ms : List ℚ) (average : ℕ → ℚ) (bad : List Bool) : Prop where
  length : bad.length = ms.length
  /-- In the absolute mode a sample is compared with the threshold. -/
  absolute : o.ssadRelative ≤ 0 → ∀ (i : ℕ) (m : ℚ) (b : Bool),
    ms[i]? = some m → bad[i]? = some b →
    (b = true ↔ o.ssadMissThreshold < m)
  unset : average 0 = -1
  /-- In the relative mode the first sample is the average it is compared with, -/
  first : 0 < o.ssadRelative → ∀ (i : ℕ) (m : ℚ) (b : Bool),
    ms[i]? = some m → bad[i]? = some b → average i < 0 →
    (b = true ↔ binary64 (m * binary64 (1 + o.ssadRelative)) < m) ∧
    average (i + 1) = if b then m else binary64 m
  /-- a later one is compared with the average so far, and moves it if it is healthy. -/
  later : 0 < o.ssadRelative → ∀ (i : ℕ) (m : ℚ) (b : Bool),
    ms[i]? = some m → bad[i]? = some b → 0 ≤ average i →
    (b = true ↔ binary64 (average i * binary64 (1 + o.ssadRelative)) < m) ∧
    average (i + 1) = if b then average i
      else binary64 (average i + binary64 (o.ssadEwmaAlpha * binary64 (m - average i)))

/-- The average after some samples. -/
def Options.averageAfter (o : Options) (ewma : ℚ) (ms : List ℚ) : ℚ :=
  ms.foldl (fun ewma m => (Ssad.judge o { ewma := ewma } m).2) ewma

section Judge

variable {o : Options} {x : Ssad}

/-- Without a relative threshold a reading is bad above the absolute one. -/
theorem judge_absolute (hrel : o.ssadRelative ≤ 0) (m : ℚ) :
    (x.judge o m).1 = true ↔ o.ssadMissThreshold < m := by
  unfold Ssad.judge
  rw [if_neg (not_lt.mpr hrel)]
  exact decide_eq_true_iff

/-- The first reading is compared with itself, and sets the average. -/
theorem judge_of_unset (hrel : 0 < o.ssadRelative) (hunset : x.ewma < 0) (m : ℚ) :
    ((x.judge o m).1 = true ↔ binary64 (m * binary64 (1 + o.ssadRelative)) < m) ∧
      (x.judge o m).2 = if (x.judge o m).1 then m else binary64 m := by
  unfold Ssad.judge
  simp only [if_pos hrel, if_pos hunset]
  refine ⟨decide_eq_true_iff, ?_⟩
  -- a sample does not move an average that it is itself
  have hself : binary64 (o.ssadEwmaAlpha * binary64 (m - m)) = 0 := by
    rw [sub_self, binary64_zero, mul_zero, binary64_zero]
  rw [hself, add_zero]

/-- Later readings are compared with the average, which moves only with good ones. -/
theorem judge_of_set (hrel : 0 < o.ssadRelative) (hset : 0 ≤ x.ewma) (m : ℚ) :
    ((x.judge o m).1 = true ↔ binary64 (x.ewma * binary64 (1 + o.ssadRelative)) < m) ∧
      (x.judge o m).2 = if (x.judge o m).1 then x.ewma
        else binary64 (x.ewma + binary64 (o.ssadEwmaAlpha * binary64 (m - x.ewma))) := by
  unfold Ssad.judge
  simp only [if_pos hrel, if_neg (not_lt.mpr hset)]
  exact ⟨decide_eq_true_iff, trivial⟩

end Judge

/-- A verdict is that on its own sample, with the average of those before it. -/
theorem getElem?_verdicts (o : Options) (ms : List ℚ) : ∀ (ewma : ℚ) (i : ℕ),
    (o.verdicts ewma ms)[i]? =
      ms[i]?.map fun m => (Ssad.judge o { ewma := o.averageAfter ewma (ms.take i) } m).1 := by
  induction ms with
  | nil => exact fun _ _ => rfl
  | cons m ms ih =>
    intro ewma i
    cases i with
    | zero => rfl
    | succ i => exact ih _ i

/-- One verdict for each reading. -/
theorem length_verdicts (o : Options) (ms : List ℚ) (ewma : ℚ) :
    (o.verdicts ewma ms).length = ms.length := by
  induction ms generalizing ewma with
  | nil => rfl
  | cons m ms ih => exact congrArg (· + 1) (ih _)

/-- The average after one more reading. -/
theorem averageAfter_succ (o : Options) (ewma : ℚ) {ms : List ℚ} {i : ℕ} {m : ℚ}
    (h : ms[i]? = some m) :
    o.averageAfter ewma (ms.take (i + 1)) =
      (Ssad.judge o { ewma := o.averageAfter ewma (ms.take i) } m).2 := by
  unfold Options.averageAfter
  rw [List.take_add_one, h, List.foldl_append]
  rfl

/-- **The detector's verdicts** are those. -/
theorem verdicts_spec (o : Options) (ms : List ℚ) :
    Verdicts o ms (fun i => o.averageAfter (-1) (ms.take i)) (o.verdicts (-1) ms) := by
  have hverdict : ∀ {i m b}, ms[i]? = some m → (o.verdicts (-1) ms)[i]? = some b →
      b = (Ssad.judge o { ewma := o.averageAfter (-1) (ms.take i) } m).1 := by
    intro i m b hm hb
    rw [getElem?_verdicts, hm] at hb
    exact (Option.some.inj hb).symm
  refine ⟨length_verdicts o ms (-1), fun hrel i m b hm hb => ?_, rfl,
    fun hrel i m b hm hb hunset => ?_, fun hrel i m b hm hb hset => ?_⟩
  · rw [hverdict hm hb]
    exact judge_absolute hrel m
  · rw [averageAfter_succ o (-1) hm, hverdict hm hb]
    exact judge_of_unset hrel hunset m
  · rw [averageAfter_succ o (-1) hm, hverdict hm hb]
    exact judge_of_set hrel hset m

namespace Ssad

/-- The detector as a latch. -/
def latch (x : Ssad) : Latch Bool := ⟨x.suspended, (x.lastBad, x.run.toNat)⟩

/-- Some mode of the detector is on. -/
def Active (o : Options) : Prop := 0 < o.ssadMissThreshold ∨ 0 < o.ssadRelative

/-- The length of a run that counts. -/
def window (o : Options) : ℕ := (max 1 o.ssadWindow).toNat

variable {o : Options} {x : Ssad}

/-- One observation of an active detector, as a step on its run of equal verdicts. -/
theorem observe_eq (hact : Active o) (x : Ssad) (m : ℚ) : x.observe o m =
    { suspended := if (if (judge o x m).1 = x.lastBad then x.run + 1 else 1) < o.ssadWindow
        then x.suspended else (judge o x m).1
      lastBad := (judge o x m).1
      run := if (judge o x m).1 = x.lastBad then x.run + 1 else 1
      ewma := (judge o x m).2 } := by
  unfold observe
  rw [if_neg]
  rintro ⟨hmiss, hrel⟩
  rcases hact with h | h
  · exact absurd h (not_lt.mpr hmiss)
  · exact absurd h (not_lt.mpr hrel)

/-- **One sample** is one value the latch sees. -/
theorem latch_observe (hact : Active o) (hrun : 0 ≤ x.run) (m : ℚ) :
    (x.observe o m).latch = x.latch.see (window o) (judge o x m).1 ∧ 0 ≤ (x.observe o m).run := by
  rw [observe_eq hact]
  generalize judge o x m = j
  have hcell : touch (x.lastBad, x.run.toNat) j.1 =
      (j.1, (if j.1 = x.lastBad then x.run + 1 else 1).toNat) := by
    unfold touch
    by_cases hsame : x.lastBad = j.1
    · rw [if_pos hsame, if_pos hsame.symm, Int.toNat_add hrun zero_le_one]
      rfl
    · rw [if_neg hsame, if_neg (Ne.symm hsame)]
      rfl
  have hpos : 1 ≤ (if j.1 = x.lastBad then x.run + 1 else 1) := by
    split_ifs <;> omega
  generalize (if j.1 = x.lastBad then x.run + 1 else 1) = run at hcell hpos ⊢
  have hwindow : run < o.ssadWindow ↔ run.toNat < window o := by
    unfold window
    omega
  refine ⟨?_, zero_le_one.trans hpos⟩
  unfold Latch.see latch
  rw [hcell]
  simp only [hwindow]

/-- The verdict depends on the average alone. -/
theorem judge_congr {y : Ssad} (h : x.ewma = y.ewma) (m : ℚ) : judge o x m = judge o y m := by
  unfold judge
  rw [h]

/-- A sequence of samples is seen by the latch as its verdicts. -/
theorem latch_foldl (hact : Active o) (ms : List ℚ) : ∀ x : Ssad, 0 ≤ x.run →
    (ms.foldl (observe o) x).latch =
      (o.verdicts x.ewma ms).foldl (Latch.see (window o)) x.latch := by
  induction ms with
  | nil => exact fun x _ => rfl
  | cons m ms ih =>
    intro x hrun
    obtain ⟨hlatch, hrun'⟩ := latch_observe hact hrun m
    have hewma : (x.observe o m).ewma = (judge o x m).2 := by rw [observe_eq hact]
    rw [List.foldl_cons, ih _ hrun', hlatch, hewma, Options.verdicts,
      judge_congr (y := x) (x := { ewma := x.ewma }) rfl]
    rfl

/-- **When the detector suspends**: the last run of verdicts that was long enough was bad. -/
theorem suspended_foldl (hact : Active o) (ms : List ℚ) :
    (ms.foldl (observe o) {}).suspended = true ↔
      LastSteady (window o) (o.verdicts (-1) ms) true := by
  have hw : 1 ≤ window o := by
    unfold window
    omega
  have hlatch := latch_foldl hact ms {} le_rfl
  have hheld : ((o.verdicts (-1) ms).foldl (Latch.see (window o)) ({} : Ssad).latch).held = true ↔
      _ := Latch.held_foldl hw false false (o.verdicts (-1) ms) true
  show (ms.foldl (observe o) {}).latch.held = true ↔ _
  rw [hlatch]
  simpa using hheld

end Ssad

/-! ### Along a run -/

section Run

variable (ops : CacheOps κ)

/-- **The detector after a run** is what the samples made of it. -/
theorem run_ssad (es : List (Event κ)) : ∀ w : World κ,
    (run (step ops) w es).core.ssad =
      (es.filterMap Event.health?).foldl (Ssad.observe w.core.opt) w.core.ssad := by
  induction es with
  | nil => exact fun w => rfl
  | cons e es ih =>
    intro w
    rw [run_cons, ih, step_opt, step_ssad]
    cases hhealth : e.health? with
    | none => rw [List.filterMap_cons_none hhealth]; rfl
    | some m => rw [List.filterMap_cons_some hhealth]; rfl

/-- Jobs do not count suspensions. -/
theorem decideJob_ssadSuspensions (s : LeaperImpl) (cache : κ) (info : CompactionInfo)
    (blocks : List BlockRef) (nowUs : ℕ) :
    (s.decideJob ops cache info blocks nowUs).stats.ssadSuspensions =
      s.stats.ssadSuspensions := by
  unfold decideJob
  simp only
  split_ifs
  · rfl
  · cases s.opt.policy with
    | leaper =>
      simp only [decideLeaper]
      split_ifs <;> rfl
    | _ => rfl

/-- A call counts a suspension when it begins one. -/
theorem step_ssadSuspensions (w : World κ) (e : Event κ) :
    (step ops w e).1.core.stats.ssadSuspensions = w.core.stats.ssadSuspensions +
      if (step ops w e).1.core.ssad.suspended && !w.core.ssad.suspended then 1 else 0 := by
  -- every call but `set_health` leaves the detector
  have hquiet : e.health? = none →
      (if (step ops w e).1.core.ssad.suspended && !w.core.ssad.suspended then 1 else 0) = 0 := by
    intro hnone
    rw [step_ssad, hnone]
    simp
  cases e with
  | setHealth m =>
    show (w.core.setHealth m).stats.ssadSuspensions = _ +
      if (w.core.setHealth m).ssad.suspended && !w.core.ssad.suspended then 1 else 0
    unfold setHealth
    simp only
    split_ifs <;> rfl
  | access isWrite key now =>
    rw [hquiet rfl, Nat.add_zero]
    obtain ⟨c, heq, -⟩ := w.core.onAccess_frame isWrite key now
    show (w.core.onAccess isWrite key now).stats.ssadSuspensions = _
    rw [heq]
  | compactionBegin info blocks now =>
    rw [hquiet rfl, Nat.add_zero]
    exact decideJob_ssadSuspensions ops (w.core.pushCtx info) w.cache info blocks now
  | shouldPrefetch block =>
    rw [hquiet rfl, Nat.add_zero]
    show (w.core.shouldPrefetch block).1.stats.ssadSuspensions = _
    unfold LeaperImpl.shouldPrefetch
    split_ifs <;> rfl
  | compactionEnd =>
    rw [hquiet rfl, Nat.add_zero]
    obtain ⟨c, cs, heq⟩ := w.core.onCompactionEnd_frame
    show w.core.onCompactionEnd.stats.ssadSuspensions = _
    rw [heq]
  | fileObsolete blocks =>
    rw [hquiet rfl, Nat.add_zero]
    show (w.core.onFileObsolete ops w.cache blocks).1.stats.ssadSuspensions = _
    unfold onFileObsolete
    split_ifs <;> rfl
  | setQps q => rw [hquiet rfl]; rfl
  | recordInvalidation n => rw [hquiet rfl]; rfl
  | engine change => rw [hquiet rfl]; rfl

end Run

/-! ### The automaton -/

/-- **The detector is a hysteresis automaton.** Whatever else is called in between, a core is
    suspended iff the last run of equal verdicts of length `max 1 ssad_window` was a bad one, where
    the verdict on a sample is that of the threshold or, in the relative mode, of the average that
    the healthy samples before it have moved; the counter is the number of times it became
    suspended.  While a leaper core is suspended its jobs begin without evictions and nothing is
    granted, and a job begun then is granted nothing at any later question of its own. -/
theorem ssad_hysteresis (ops : CacheOps κ) (s : LeaperImpl) (hssad : s.ssad = {})
    (hcount : s.stats.ssadSuspensions = 0) (hact : Ssad.Active s.opt) (cache : κ)
    (es : List (Event κ)) :
    let w := run (step ops) ⟨s, cache⟩ es
    (∃ average bad, Verdicts s.opt (es.filterMap Event.health?) average bad ∧
      (w.core.ssad.suspended = true ↔
        LastSteady (max 1 s.opt.ssadWindow).toNat bad true)) ∧
    w.core.stats.ssadSuspensions =
      risings (step ops) (fun w => w.core.ssad.suspended) ⟨s, cache⟩ es ∧
    (s.opt.policy = .leaper → w.core.ssad.suspended = true →
      (∀ info blocks nowUs,
        (step ops w (.compactionBegin info blocks nowUs)).2.evicted = [] ∧
        (step ops w (.compactionBegin info blocks nowUs)).1.cache = w.cache) ∧
      (∀ block, (step ops w (.shouldPrefetch block)).2.answer = some false) ∧
      ∀ info blocks nowUs (inner : List (Event κ)),
        (brackets Event.bracket false).Accepts 0 inner →
        (brackets Event.bracket false).after 0 inner = 0 → ∀ block,
        (step ops (run (step ops) (step ops w (.compactionBegin info blocks nowUs)).1 inner)
          (.shouldPrefetch block)).2.answer = some false) := by
  intro w
  have hopt : w.core.opt = s.opt := run_opt ops es ⟨s, cache⟩
  refine ⟨⟨_, _, verdicts_spec s.opt _, ?_⟩, ?_, fun hpol hsus => ?_⟩
  · -- the detector of a run is the fold of its readings
    have hrun := run_ssad ops es ⟨s, cache⟩
    rw [hssad] at hrun
    rw [hrun]
    exact Ssad.suspended_foldl hact _
  · -- the counter goes up where the flag does
    have hcounter := @counter_eq_risings _ _ _ (step ops) (fun w => w.core.ssad.suspended)
      (fun w => w.core.stats.ssadSuspensions) (step_ssadSuspensions ops) es ⟨s, cache⟩
    exact hcounter.trans (by rw [hcount, Nat.zero_add])
  · have hpol' : w.core.opt.policy = .leaper := by rw [hopt, hpol]
    have hnothing := fun info => decideJob_suspended (s := w.core.pushCtx info)
      hpol' hsus ops w.cache
      info
    refine ⟨fun info blocks nowUs => ?_, fun block => ?_, ?_⟩
    · show (LeaperImpl.decideJob _ _ _ _ _ _).evicted = _ ∧
        (LeaperImpl.decideJob _ _ _ _ _ _).cache = _
      rw [hnothing]
      exact ⟨rfl, rfl⟩
    · show some (w.core.shouldPrefetch block).2 = _
      rw [shouldPrefetch_of_not_wants _ (wants_of_suspended hpol' hsus block)]
    · -- the job's spans were never set
      intro info blocks nowUs inner hacc hbal block
      have hspans : (run (step ops) (step ops w (.compactionBegin info blocks nowUs)).1
          inner).core.ctx.hotT2 = [] := by
        rw [run_job_spans ops hacc hbal]
        show (LeaperImpl.decideJob _ _ _ _ _ _).hotT2 = _
        rw [hnothing]
      have hleaper : (run (step ops) (step ops w (.compactionBegin info blocks nowUs)).1
          inner).core.opt.policy = .leaper := by rw [run_opt, step_opt, hpol']
      show some (LeaperImpl.shouldPrefetch _ block).2 = _
      rw [shouldPrefetch_of_no_spans hleaper hspans block]

/-- An average that starts at one half, with a window of two: two samples of one are bad and suspend
    the core, one good sample does not wake it, and a job begun then is granted nothing after a
    second one. -/
theorem ssad_hysteresis_sample :
    let s : LeaperImpl :=
      { sampleCore with opt := { sampleCore.opt with ssadRelative := 1 / 2, ssadWindow := 2 } }
    let es : List (Event (List BlockRef)) :=
      [.setHealth (1 / 2), .setHealth 1, .setHealth 1, .setHealth (1 / 2)]
    (run (step listCache) ⟨s, []⟩ es).core.ssad.suspended = true ∧
      (∃ average bad, Verdicts s.opt [1 / 2, 1, 1, 1 / 2] average bad ∧
        LastSteady 2 bad true) ∧
      (step listCache (run (step listCache)
          (step listCache (run (step listCache) ⟨s, []⟩ es) (.compactionBegin {} [] 0)).1
          [.setHealth (1 / 2)]) (.shouldPrefetch {})).2.answer = some false := by
  intro s es
  have hact : Ssad.Active s.opt := .inr (by norm_num [s])
  obtain ⟨⟨average, bad, hverdicts, hiff⟩, -, hjobs⟩ :=
    ssad_hysteresis listCache s rfl rfl hact [] es
  have hsus : (run (step listCache) ⟨s, []⟩ es).core.ssad.suspended = true := by decide +kernel
  exact ⟨hsus, ⟨average, bad, hverdicts, hiff.mp hsus⟩,
    (hjobs rfl hsus).2.2 {} [] 0 [.setHealth (1 / 2)] (by decide) (by decide) {}⟩

end Leaper
