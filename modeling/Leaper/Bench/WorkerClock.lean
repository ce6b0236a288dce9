import Leaper.Bench.Worker

namespace Leaper.Bench

open Lib Train

/-!
# The benchmark against the clock

What depends on the time at which the workers take their turns: the rates that `op_rate` and
`write_rate` ask for, and the stamps of the trace.

* `elapsed_mono`, `opBudget_mono`, `writeBudget_mono` — budgets grow with time;
* `Paced` — the two gates, kept by every turn;
* `pacing` — how far the rates can be passed;
* `InWindow` — what is measured happens after the window has opened, and in order;
* `trace_exact` — the trace files have the measured operations of each worker.
-/

/-! ### Budgets -/

section Budgets

variable {σ : Type*} {f : WorkerFlags} {start t t' : ℕ}

/-- No time is negative. -/
theorem elapsed_nonneg (start t : ℕ) : 0 ≤ elapsed start t := by
  unfold elapsed
  refine roundSig_nonneg (by norm_num) (div_nonneg ?_ (by norm_num))
  exact roundSig_nonneg (by norm_num) (Nat.cast_nonneg _)

/-- Time passes. -/
theorem elapsed_mono (hstart : start ≤ t) (h : t ≤ t') : elapsed start t ≤ elapsed start t' := by
  have hsub : (sub64 t start : ℚ) ≤ sub64 t' start := by
    rw [sub64_of_le hstart, sub64_of_le (hstart.trans h)]
    exact Nat.cast_le.mpr (Nat.sub_le_sub_right h start)
  have hround := roundSig_mono (p := 53) (by norm_num) (Nat.cast_nonneg _) hsub
  have hnonneg : 0 ≤ roundSig 53 (sub64 t start : ℚ) :=
    roundSig_nonneg (by norm_num) (Nat.cast_nonneg _)
  exact roundSig_mono (by norm_num) (div_nonneg hnonneg (by norm_num))
    (div_le_div_of_nonneg_right hround (by norm_num))

/-- A rate over the time that has passed. -/
theorem rate_mono {rate : ℚ} (hrate : 0 ≤ rate) (hstart : start ≤ t) (h : t ≤ t') :
    ⌊binary64 (rate * elapsed start t)⌋₊ + 1 ≤ ⌊binary64 (rate * elapsed start t')⌋₊ + 1 := by
  refine Nat.succ_le_succ (Nat.floor_le_floor (roundSig_mono (by norm_num) ?_ ?_))
  · exact mul_nonneg hrate (elapsed_nonneg start t)
  · exact mul_le_mul_of_nonneg_left (elapsed_mono hstart h) hrate

/-- The budget of writes grows. -/
theorem writeBudget_mono (hrate : 0 ≤ f.writeRate) (hstart : start ≤ t) (h : t ≤ t') :
    writeBudget f start t ≤ writeBudget f start t' :=
  rate_mono hrate hstart h

/-- Without the sine wave. -/
theorem opBudget_mono (h : Host σ) (hrate : 0 ≤ f.opRate)
    (hsine : ¬ (0 < f.sineA ∧ 0 < f.sineD ∧ 0 < f.sineB)) (hstart : start ≤ t) (hle : t ≤ t') :
    opBudget f h start t ≤ opBudget f h start t' := by
  unfold opBudget allowed
  rw [if_neg hsine, if_neg hsine]
  exact rate_mono hrate hstart hle

end Budgets

/-! ### The gates -/

/-- A worker's reading of the clock, as long as it is used, is none before the start or after
    now. -/
def WorkerPc.Stamped (start now : ℕ) : WorkerPc → Prop
  | .pace t0 | .issue t0 | .limit t0 _ | .flag t0 _ => start ≤ t0 ∧ t0 ≤ now
  | _ => True

/-- Times that were taken stay in the past. -/
theorem WorkerPc.Stamped.later {start now now' : ℕ} {q : WorkerPc} (h : q.Stamped start now)
    (hle : now ≤ now') : q.Stamped start now' := by
  cases q with
  | pace t0 => exact ⟨h.1, h.2.trans hle⟩
  | issue t0 => exact ⟨h.1, h.2.trans hle⟩
  | limit t0 p => exact ⟨h.1, h.2.trans hle⟩
  | flag t0 p => exact ⟨h.1, h.2.trans hle⟩
  | _ => trivial

/-- The worker has found `ops_issued` below its budget. -/
def opArmed {σ : Type*} (w : Worker σ) : ℕ :=
  match w.pc with
  | .issue _ => 1
  | _ => 0

/-- The worker has found `writes_issued` below its budget. -/
def writeArmed {σ : Type*} (f : WorkerFlags) (w : Worker σ) : ℕ :=
  match w.pc with
  | .flag _ p => if f.readRatio ≤ p then 1 else 0
  | .claim _ | .issueWrite _ => 1
  | _ => 0

section Gates

variable {ι σ : Type*} [DecidableEq ι] [Fintype ι] {f : WorkerFlags} {h : Host σ} {start now : ℕ}

/-- A worker is armed with one operation at most. -/
theorem opArmed_le (w : Worker σ) : opArmed w ≤ 1 := by
  unfold opArmed
  split <;> omega

/-- A worker is armed with one write at most. -/
theorem writeArmed_le (w : Worker σ) : writeArmed f w ≤ 1 := by
  unfold writeArmed
  split
  · split_ifs <;> omega
  · exact le_rfl
  · exact le_rfl
  · exact Nat.zero_le _

/-- The budgets of a stretch of time. -/
def budgetsOf (budget : ℕ → ℕ) (start now : ℕ) : Set ℕ := budget '' Set.Icc start now

/-- A longer stretch of time has more budgets. -/
theorem budgetsOf_mono {budget : ℕ → ℕ} {now' : ℕ} (hle : now ≤ now') :
    budgetsOf budget start now ⊆ budgetsOf budget start now' :=
  Set.image_mono (Set.Icc_subset_Icc_right hle)

/-- **The benchmark at a time**: both counters stand at their gates. -/
structure Paced (f : WorkerFlags) (h : Host σ) (start now : ℕ) (c : Config ι Shared (Worker σ)) :
    Prop where
  started : start ≤ now
  runStart : c.shared.runStartUs = start
  stamped : ∀ t, (c.pos t).pc.Stamped start now
  ops : 0 < f.opRate →
    Gated (budgetsOf (opBudget f h start) start now) c.shared.opsIssued opArmed c.pos
  writes : 0 < f.writeRate → 0 < f.readRatio →
    Gated (budgetsOf (writeBudget f start) start now) c.shared.writesIssued (writeArmed f) c.pos

/-- A turn stamps what it reads. -/
theorem act_stamped (f : WorkerFlags) (h : Host σ) (hstart : start ≤ now) (ok : Bool) (s : Shared)
    {w : Worker σ} (hw : w.pc.Stamped start now) :
    (act f h now ok s w).2.pc.Stamped start now := by
  unfold act
  -- only `stamp` takes a time; the other lines pass on the one they hold, or drop it
  cases hpc : w.pc with
  | top =>
    dsimp only
    split_ifs <;> trivial
  | stamp =>
    dsimp only
    split_ifs <;> exact ⟨hstart, le_rfl⟩
  | pace t0 =>
    rw [hpc] at hw
    dsimp only
    split_ifs
    · trivial
    · exact hw
  | asleep t0 wake =>
    dsimp only
    split_ifs
    · trivial
    · rw [hpc]
      trivial
  | issue t0 =>
    rw [hpc] at hw
    dsimp only
    split_ifs <;> exact hw
  | limit t0 p =>
    rw [hpc] at hw
    exact hw
  | flag t0 p =>
    obtain ⟨-, c, hc, -⟩ | ⟨-, ⟨c, hc, -⟩ | hc⟩ :=
      choose_pc f h w s.measuring (elapsed s.runStartUs t0) p
    all_goals
      show (choose f h w s.measuring (elapsed s.runStartUs t0) p).pc.Stamped start now
      rw [hc]
      trivial
  | call c t0 =>
    dsimp only
    split_ifs <;> trivial
  | sample d =>
    dsimp only
    split_ifs <;> trivial
  | count d =>
    dsimp only
    split_ifs <;> trivial
  | exited =>
    dsimp only
    rw [hpc]
    trivial
  | _ => trivial

/-- **The gate of `ops_issued`**: a turn arms nobody, or it is the test that succeeds. -/
theorem act_opGate (h : Host σ) (now : ℕ) (hrate : 0 < f.opRate) (ok : Bool)
    (s : Shared) (w : Worker σ) :
    (act f h now ok s w).1.opsIssued + opArmed (act f h now ok s w).2 ≤ s.opsIssued + opArmed w ∨
      ∃ t0, w.pc = .pace t0 ∧ s.opsIssued < opBudget f h s.runStartUs t0 ∧
        (act f h now ok s w).1.opsIssued = s.opsIssued := by
  cases hpc : w.pc with
  | pace t0 =>
    by_cases hfull : opBudget f h s.runStartUs t0 ≤ s.opsIssued
    · left
      simp [act, opArmed, hpc, hfull]
    · right
      exact ⟨t0, rfl, not_le.mp hfull, by simp [act, hpc]⟩
  | asleep t0 wake =>
    left
    by_cases hwake : wake ≤ now
    · simp [act, opArmed, hpc, hwake]
    · simp [act, opArmed, hpc, hwake]
  | top => left; cases hrun : s.running <;> simp [act, opArmed, hpc, hrun]
  | issue t0 => left; simp only [act, opArmed, hpc]; split_ifs <;> simp
  | flag t0 p =>
    left
    obtain ⟨-, c, hc, -⟩ | ⟨-, ⟨c, hc, -⟩ | hc⟩ :=
      choose_pc f h w s.measuring (elapsed s.runStartUs t0) p
    all_goals simp [act, opArmed, hpc, hc]
  | call c t0 => left; cases hm : c.measuring <;> simp [act, opArmed, hpc, hm]
  | sample d => left; cases hd : d.isWrite <;> simp [act, opArmed, hpc, hd]
  | count d => left; cases hd : d.isWrite <;> simp [act, opArmed, hpc, hd]
  | outcome d => left; cases hd : d.ok <;> simp [act, opArmed, hpc, hd]
  | _ => left; simp [act, opArmed, hpc, hrate]

/-- **The gate of `writes_issued`**: a draw that is over the budget becomes a read. -/
theorem act_writeGate (h : Host σ) (now : ℕ) (hrate : 0 < f.writeRate) (hread : 0 < f.readRatio)
    (ok : Bool) (s : Shared) (w : Worker σ) :
    (act f h now ok s w).1.writesIssued + writeArmed f (act f h now ok s w).2 ≤
        s.writesIssued + writeArmed f w ∨
      ∃ t0 p, w.pc = .limit t0 p ∧ s.writesIssued < writeBudget f s.runStartUs t0 ∧
        (act f h now ok s w).1.writesIssued = s.writesIssued := by
  -- a worker is armed at `limit` and counts at `issueWrite`; in between it carries the one write
  cases hpc : w.pc with
  | limit t0 p =>
    by_cases hfull : writeBudget f s.runStartUs t0 ≤ s.writesIssued
    · left
      simp [act, writeArmed, hpc, hfull, hread]
    · right
      exact ⟨t0, p, rfl, not_le.mp hfull, by simp [act, hpc]⟩
  | issue t0 =>
    left
    by_cases hp : f.readRatio ≤ (h.pick w.rng).1
    · simp [act, writeArmed, hpc, hrate, hp]
    · simp [act, writeArmed, hpc, hp]
  | flag t0 p =>
    left
    obtain ⟨-, c, hc, -⟩ | ⟨hp, ⟨c, hc, -⟩ | hc⟩ :=
      choose_pc f h w s.measuring (elapsed s.runStartUs t0) p
    · simp [act, writeArmed, hpc, hc]
    · simp [act, writeArmed, hpc, hc, hp]
    · simp [act, writeArmed, hpc, hc, hp]
  | stamp => left; simp only [act, writeArmed, hpc]; split_ifs <;> simp
  | pace t0 => left; simp only [act, writeArmed, hpc]; split_ifs <;> simp
  | asleep t0 wake =>
    left
    by_cases hwake : wake ≤ now
    · simp [act, writeArmed, hpc, hwake]
    · simp [act, writeArmed, hpc, hwake]
  | top => left; cases hrun : s.running <;> simp [act, writeArmed, hpc, hrun]
  | call c t0 => left; cases hm : c.measuring <;> simp [act, writeArmed, hpc, hm]
  | sample d => left; cases hd : d.isWrite <;> simp [act, writeArmed, hpc, hd]
  | count d => left; cases hd : d.isWrite <;> simp [act, writeArmed, hpc, hd]
  | outcome d => left; cases hd : d.ok <;> simp [act, writeArmed, hpc, hd]
  | _ => left; simp [act, writeArmed, hpc]

/-- The driver issues nothing. -/
theorem drive_issued (f : WorkerFlags) (now : ℕ) (s : Shared) :
    (drive f now s).opsIssued = s.opsIssued ∧ (drive f now s).writesIssued = s.writesIssued := by
  obtain ⟨r, m, d, hdrive⟩ := drive_flags f now s
  rw [hdrive]
  exact ⟨rfl, rfl⟩

/-- **A gate, over one turn.** The driver leaves the counter alone.  A worker moves through the
    gate, or it has just found the counter below the budget of the time it holds. -/
theorem gated_step {count : Shared → ℕ} {armed : Worker σ → ℕ} {budget : ℕ → ℕ}
    (hone : ∀ w, armed w ≤ 1) (hdrive : ∀ now s, count (drive f now s) = count s)
    {c : Config ι Shared (Worker σ)} {e : BenchEvent ι}
    (hact : ∀ u now ok, e = .work u now ok →
      count (act f h now ok c.shared (c.pos u)).1 + armed (act f h now ok c.shared (c.pos u)).2 ≤
          count c.shared + armed (c.pos u) ∨
        armed (c.pos u) = 0 ∧ count (act f h now ok c.shared (c.pos u)).1 = count c.shared ∧
          ∃ t0 ∈ Set.Icc start now, count c.shared < budget t0)
    (hgate : Gated (budgetsOf budget start e.now) (count c.shared) armed c.pos) :
    Gated (budgetsOf budget start e.now) (count (benchStep f h c e).1.shared) armed
      (benchStep f h c e).1.pos := by
  cases e with
  | drive now =>
    show Gated _ (count (drive f now c.shared)) armed c.pos
    rw [hdrive]
    exact hgate
  | work u now ok =>
    show Gated _ (count (act f h now ok c.shared (c.pos u)).1) armed (Function.update c.pos u _)
    rcases hact u now ok rfl with hmove | ⟨hidle, hsame, t0, ht0, hbelow⟩
    · exact hgate.move hmove
    · rw [hsame]
      exact Gated.arm hone hidle ⟨t0, ht0, rfl⟩ hbelow

/-- **One turn.** -/
theorem paced_step (f : WorkerFlags) (h : Host σ) (g : ℕ) (c : Config ι Shared (Worker σ))
    (e : BenchEvent ι) (hok : (ticking ι).ok g e) (hp : Paced f h start g c) :
    Paced f h start ((ticking ι).next g e) (benchStep f h c e).1 := by
  have hle : g ≤ e.now := hok
  refine ⟨hp.started.trans hle, (benchStep_settings f h c e).1.trans hp.runStart, ?_, ?_, ?_⟩
  · -- the times that workers hold were taken before now
    cases e with
    | drive now => exact fun t => (hp.stamped t).later hle
    | work u now ok =>
      exact (Function.forall_update_iff c.pos fun _ w => w.pc.Stamped start now).mpr
        ⟨act_stamped f h (hp.started.trans hle) ok c.shared ((hp.stamped u).later hle),
          fun t _ => (hp.stamped t).later hle⟩
  · intro hrate
    refine gated_step opArmed_le (drive_issued f · · |>.1) ?_
      ((hp.ops hrate).mono (budgetsOf_mono hle))
    rintro u now ok rfl
    refine (act_opGate h now hrate ok c.shared (c.pos u)).imp_right ?_
    rintro ⟨t0, hpc, hbelow, hsame⟩
    have hstamp := (hp.stamped u).later hle
    rw [hpc] at hstamp
    rw [hp.runStart] at hbelow
    exact ⟨by simp [opArmed, hpc], hsame, t0, hstamp, hbelow⟩
  · intro hrate hread
    refine gated_step writeArmed_le (drive_issued f · · |>.2) ?_
      ((hp.writes hrate hread).mono (budgetsOf_mono hle))
    rintro u now ok rfl
    refine (act_writeGate h now hrate hread ok c.shared (c.pos u)).imp_right ?_
    rintro ⟨t0, p, hpc, hbelow, hsame⟩
    have hstamp := (hp.stamped u).later hle
    rw [hpc] at hstamp
    rw [hp.runStart] at hbelow
    exact ⟨by simp [writeArmed, hpc], hsame, t0, hstamp, hbelow⟩

/-- **How far the rates can be passed.** Let any number of workers run, interleaved with each other
    and with the loop of `Run` in any way, by a clock that never goes back.  At every time the
    operations that were issued are at most what `op_rate` allows by then, one more, and one for
    every other worker; with the sine wave on they are within that of what it allowed at some time.
    The same holds of the writes and `write_rate`, as long as there are reads to fall back on. -/
theorem pacing (f : WorkerFlags) (h : Host σ) (runStartUs : ℕ) (rng : ι → σ)
    {es : List (BenchEvent ι)} (hacc : (ticking ι).Accepts runStartUs es) :
    let s := (run (benchStep f h) (benchStart ι f runStartUs rng) es).shared
    let now := (ticking ι).after runStartUs es
    (0 < f.opRate → ∃ t, runStartUs ≤ t ∧ t ≤ now ∧
      s.opsIssued ≤ opBudget f h runStartUs t + (Fintype.card ι - 1)) ∧
    (0 < f.opRate → ¬ (0 < f.sineA ∧ 0 < f.sineD ∧ 0 < f.sineB) →
      s.opsIssued ≤ ⌊binary64 (f.opRate * elapsed runStartUs now)⌋₊ + 1 + (Fintype.card ι - 1)) ∧
    (0 < f.writeRate → 0 < f.readRatio →
      s.writesIssued ≤
        ⌊binary64 (f.writeRate * elapsed runStartUs now)⌋₊ + 1 + (Fintype.card ι - 1)) := by
  intro s now
  have hstart : Paced f h runStartUs runStartUs (benchStart ι f runStartUs rng) := by
    refine ⟨le_rfl, rfl, fun _ => trivial, fun _ => ?_, fun _ _ => ?_⟩
    · exact gated_zero ⟨_, runStartUs, ⟨le_rfl, le_rfl⟩, rfl⟩ fun _ => rfl
    · exact gated_zero ⟨_, runStartUs, ⟨le_rfl, le_rfl⟩, rfl⟩ fun _ => rfl
  have hpaced : Paced f h runStartUs now (run (benchStep f h) (benchStart ι f runStartUs rng) es) :=
    (ticking ι).run_invariant (paced_step f h) hacc hstart
  refine ⟨?_, ?_, ?_⟩
  · intro hrate
    obtain ⟨_, ⟨t, ⟨hlo, hhi⟩, rfl⟩, hle⟩ := hpaced.ops hrate
    exact ⟨t, hlo, hhi, (Nat.le_add_right _ _).trans hle⟩
  · intro hrate hsine
    have hbudget : opBudget f h runStartUs now =
        ⌊binary64 (f.opRate * elapsed runStartUs now)⌋₊ + 1 := by
      unfold opBudget allowed
      rw [if_neg hsine]
    rw [← hbudget]
    refine (hpaced.ops hrate).le ?_
    rintro _ ⟨t, ⟨hlo, hhi⟩, rfl⟩
    exact opBudget_mono h hrate.le hsine hlo hhi
  · intro hrate hread
    refine (hpaced.writes hrate hread).le ?_
    rintro _ ⟨t, ⟨hlo, hhi⟩, rfl⟩
    exact writeBudget_mono hrate.le hlo hhi

end Gates

/-- The same keys with a rate of one operation a second. -/
def oneASecond : WorkerFlags := { eightKeys with opRate := 1 }

/-- Both workers find the counter below the budget before one of them raises it. -/
theorem pacing_readAndInsert :
    (run (benchStep oneASecond dealing) (benchStart (Fin 2) oneASecond 0 fun t => [(t.val : ℚ)])
      readAndInsert).shared.opsIssued = 2 ∧
    ∃ t ≤ 31, (run (benchStep oneASecond dealing)
      (benchStart (Fin 2) oneASecond 0 fun t => [(t.val : ℚ)])
      readAndInsert).shared.opsIssued ≤ opBudget oneASecond dealing 0 t + 1 := by
  refine ⟨by decide +kernel, ?_⟩
  obtain ⟨t, -, hle, hops⟩ := (pacing oneASecond dealing 0 (fun t => [(t.val : ℚ)])
    (by decide : (ticking (Fin 2)).Accepts 0 readAndInsert)).1 (by decide)
  have hcard : Fintype.card (Fin 2) - 1 = 1 := rfl
  rw [hcard] at hops
  exact ⟨t, hle, hops⟩

/-! ### The measured window -/

/-- The loop of `Run` keeps to its seconds. -/
def DriverPc.OnTime (start now : ℕ) : DriverPc → Prop
  | .second sec | .tick sec => 1 ≤ sec ∧ start + (sec - 1) * 1000000 ≤ now
  | .asleep sec wake => 1 ≤ sec ∧ start + sec * 1000000 ≤ wake
  | .report sec => start + sec * 1000000 ≤ now
  | .stopped => True

/-- What a worker has in hand of the measured window, which opens at `ms`. -/
def Hand.InWindow (ms now : ℕ) (mine : List Completed) : Hand → Prop
  | .claim m => m = true → ms ≤ now
  | .issueWrite c | .start c => c.measuring = true → ms ≤ now
  | .call c t0 => t0 ≤ now ∧ (c.measuring = true → ms ≤ t0) ∧ ∀ d ∈ mine, d.t0 ≤ t0
  | _ => True

/-- The calls of a worker that have returned. -/
structure CallsInWindow (ms now : ℕ) (mine : List Completed) : Prop where
  before : ∀ d ∈ mine, d.t0 ≤ now
  opened : ∀ d ∈ mine, d.measuring = true → ms ≤ d.t0
  sorted : mine.Pairwise fun x y => x.t0 ≤ y.t0

/-- **The benchmark and its window**: what is measured happens after it has opened, and what a
    worker does happens in order. -/
structure InWindow {ι σ : Type*} [DecidableEq ι] (f : WorkerFlags) (start now : ℕ)
    (c : Config ι Shared (Worker σ)) (log : List (ι × Completed)) : Prop where
  runStart : c.shared.runStartUs = start
  driver : c.shared.driver.OnTime start now
  measuring : c.shared.measuring = true → start + f.warmup * 1000000 ≤ now
  hands : ∀ t, (c.pos t).pc.hand.InWindow (start + f.warmup * 1000000) now (callsOf t log)
  calls : ∀ t, CallsInWindow (start + f.warmup * 1000000) now (callsOf t log)

section Window

variable {f : WorkerFlags} {start ms now now' : ℕ} {mine : List Completed}

/-- What has been waited for stays behind. -/
theorem DriverPc.OnTime.later {d : DriverPc} (h : d.OnTime start now) (hle : now ≤ now') :
    d.OnTime start now' := by
  cases d with
  | second sec => exact ⟨h.1, h.2.trans hle⟩
  | tick sec => exact ⟨h.1, h.2.trans hle⟩
  | asleep sec wake => exact h
  | report sec => exact le_trans h hle
  | stopped => trivial

/-- An operation of the window stays one. -/
theorem Hand.InWindow.later {q : Hand} (h : q.InWindow ms now mine) (hle : now ≤ now') :
    q.InWindow ms now' mine := by
  cases q with
  | claim m => exact fun hm => (h hm).trans hle
  | issueWrite c => exact fun hm => (h hm).trans hle
  | start c => exact fun hm => (h hm).trans hle
  | call c t0 => exact ⟨h.1.trans hle, h.2⟩
  | _ => trivial

/-- The calls of the window stay its calls. -/
theorem CallsInWindow.later (h : CallsInWindow ms now mine) (hle : now ≤ now') :
    CallsInWindow ms now' mine :=
  ⟨fun d hd => (h.before d hd).trans hle, h.opened, h.sorted⟩

/-- A call returns. -/
theorem CallsInWindow.snoc (h : CallsInWindow ms now mine) {d : Completed}
    (hd : (Hand.call d.toClientOp d.t0).InWindow ms now mine) :
    CallsInWindow ms now (mine ++ [d]) := by
  obtain ⟨hnow, hopen, hlast⟩ := hd
  refine ⟨?_, ?_, ?_⟩
  · intro x hx
    rcases List.mem_append.mp hx with hx | hx
    · exact h.before x hx
    · exact List.mem_singleton.mp hx ▸ hnow
  · intro x hx
    rcases List.mem_append.mp hx with hx | hx
    · exact h.opened x hx
    · exact List.mem_singleton.mp hx ▸ hopen
  · refine List.pairwise_append.mpr ⟨h.sorted, List.pairwise_singleton _ _, ?_⟩
    intro x hx y hy
    exact List.mem_singleton.mp hy ▸ hlast x hx

/-- Before its tick the loop goes to sleep until then. -/
theorem drive_tick_before {s : Shared} {sec : ℕ} (hpc : s.driver = .tick sec)
    (hlt : now < s.tick sec) :
    drive f now s = { s with driver := .asleep sec (now + (s.tick sec - now)) } := by
  unfold drive
  simp only [hpc, if_pos hlt]

/-- Once the tick is due, the second is reported. -/
theorem drive_tick_after {s : Shared} {sec : ℕ} (hpc : s.driver = .tick sec)
    (hle : s.tick sec ≤ now) :
    drive f now s = { s with driver := .report sec } := by
  unfold drive
  simp only [hpc, if_neg (not_lt.mpr hle)]

/-- A turn of the loop of `Run` keeps to the seconds. -/
theorem drive_onTime {s : Shared} (hstart : s.runStartUs = start)
    (hd : s.driver.OnTime start now) : (drive f now s).driver.OnTime start now := by
  cases hpc : s.driver with
  | second sec =>
    rw [hpc] at hd
    unfold drive
    simp only [hpc]
    split_ifs
    · exact hd
    · trivial
  | tick sec =>
    rw [hpc] at hd
    have htick : s.tick sec = start + sec * 1000000 := by rw [Shared.tick, hstart]
    -- before the tick the loop goes to sleep until it; after it the row is written
    rcases Nat.lt_or_ge now (s.tick sec) with hlt | hge
    · rw [drive_tick_before hpc hlt]
      refine ⟨hd.1, ?_⟩
      rw [Nat.add_sub_cancel' hlt.le, htick]
    · rw [drive_tick_after hpc hge]
      rw [htick] at hge
      exact hge
  | asleep sec wake =>
    rw [hpc] at hd
    unfold drive
    simp only [hpc]
    split_ifs with hwake
    · exact hd.2.trans hwake
    · rw [hpc]
      exact hd
  | report sec =>
    rw [hpc] at hd
    unfold drive
    simp only [hpc]
    refine ⟨Nat.le_add_left 1 sec, ?_⟩
    rw [Nat.add_sub_cancel]
    exact hd
  | stopped =>
    unfold drive
    simp only [hpc]
    trivial

/-- The window opens when the last second of the warmup is over. -/
theorem drive_measuring {s : Shared} (hd : s.driver.OnTime start now)
    (hm : s.measuring = true → start + f.warmup * 1000000 ≤ now) :
    (drive f now s).measuring = true → start + f.warmup * 1000000 ≤ now := by
  cases hpc : s.driver with
  | second sec =>
    rw [hpc] at hd
    unfold drive
    simp only [hpc]
    split_ifs
    · dsimp only
      rw [Bool.or_eq_true, decide_eq_true_eq]
      rintro (hold | hopen)
      · exact hm hold
      · have hsec := hd.2
        rwa [hopen, Nat.add_sub_cancel] at hsec
    · exact hm
  | asleep sec wake =>
    unfold drive
    simp only [hpc]
    split_ifs <;> exact hm
  | _ =>
    unfold drive
    simp only [hpc]
    exact hm

/-- A turn of a worker, in its own view. -/
theorem Move.inWindow {s s' : Shared} {q q' : Hand} {o : Option Completed}
    (hmove : Move now s q o s' q') (hm : s.measuring = true → ms ≤ now)
    (hq : q.InWindow ms now mine) (hmine : CallsInWindow ms now mine) :
    q'.InWindow ms now (mine ++ o.toList) ∧ CallsInWindow ms now (mine ++ o.toList) := by
  cases hmove with
  | read hc hsame => exact ⟨fun h => hm (hsame ▸ h), by simpa using hmine⟩
  | update hc hsame => exact ⟨fun h => hm (hsame ▸ h), by simpa using hmine⟩
  | insert => exact ⟨hm, by simpa using hmine⟩
  | claim => exact ⟨hq, by simpa using hmine⟩
  | issueWrite => exact ⟨hq, by simpa using hmine⟩
  | start => exact ⟨⟨le_rfl, hq, by simpa using hmine.before⟩, by simpa using hmine⟩
  | warmUp => exact ⟨trivial, hmine.snoc hq⟩
  | measured => exact ⟨trivial, hmine.snoc hq⟩
  | _ => exact ⟨trivial, by simpa using hmine⟩

variable {ι σ : Type*} [DecidableEq ι]

/-- **One turn.** -/
theorem inWindow_step (f : WorkerFlags) (h : Host σ) (g : ℕ) (c : Config ι Shared (Worker σ))
    (log : List (ι × Completed)) (e : BenchEvent ι) (hok : (ticking ι).ok g e)
    (hw : InWindow f start g c log) :
    InWindow f start ((ticking ι).next g e) (benchStep f h c e).1
      (noteCalls log e (benchStep f h c e).2) := by
  have hle : g ≤ e.now := hok
  have hdriver := hw.driver.later hle
  have hmeasuring : c.shared.measuring = true → start + f.warmup * 1000000 ≤ e.now :=
    fun hm => (hw.measuring hm).trans hle
  have hhands := fun t => (hw.hands t).later hle
  have hcalls := fun t => (hw.calls t).later hle
  cases e with
  | drive now =>
    have honTime := drive_onTime (f := f) hw.runStart hdriver
    have hopen := drive_measuring hdriver hmeasuring
    -- the driver makes no call
    have hlog : noteCalls log (.drive now) (benchStep f h c (.drive now)).2 = log :=
      List.append_nil log
    rw [hlog]
    exact ⟨(benchStep_settings f h c (.drive now)).1.trans hw.runStart, honTime, hopen, hhands,
      hcalls⟩
  | work u now ok =>
    -- a worker touches neither driver nor flag, and its own calls alone
    have hmove := act_move f h now ok c.shared (c.pos u)
    have hflags := hmove.flags
    have hown := hmove.inWindow hmeasuring (hhands u) (hcalls u)
    refine ⟨(benchStep_settings f h c (.work u now ok)).1.trans hw.runStart, ?_, ?_, ?_, ?_⟩
    · show (act f h now ok c.shared (c.pos u)).1.driver.OnTime start now
      rw [hflags.2]
      exact hdriver
    · show (act f h now ok c.shared (c.pos u)).1.measuring = true → _
      rw [hflags.1]
      exact hmeasuring
    · exact forall_worker_turn f h (P := fun w mine => w.pc.hand.InWindow _ now mine) hhands hown.1
    · exact forall_worker_turn f h (P := fun _ mine => CallsInWindow _ now mine) hcalls hown.2

/-- **A whole run.** -/
theorem inWindow_run (f : WorkerFlags) (h : Host σ) (runStartUs : ℕ) (rng : ι → σ)
    {es : List (BenchEvent ι)} (hacc : (ticking ι).Accepts runStartUs es) :
    InWindow f runStartUs ((ticking ι).after runStartUs es)
      (run (benchStep f h) (benchStart ι f runStartUs rng) es)
      (watch (benchStep f h) noteCalls (benchStart ι f runStartUs rng) [] es) := by
  refine (ticking ι).watch_invariant (P := InWindow f runStartUs) (inWindow_step f h) hacc
    ⟨rfl, ⟨le_rfl, le_rfl⟩, fun hm => absurd hm Bool.false_ne_true, fun _ => trivial, fun _ => ?_⟩
  exact ⟨by simp [callsOf], by simp [callsOf], by simp [callsOf]⟩

/-! ### The trace -/

/-- A writer that is closed leaves the file of its calls. -/
theorem Wrote.close {w : TraceWriter} {xs : List Access} (hw : Wrote w xs) :
    w.close.disk = (record xs).disk := by
  rw [record_disk]
  unfold TraceWriter.close
  rw [if_pos hw.isOpen]
  exact (flushBuffer_disk w).1.trans hw.bytes

/-- A measured operation: when it began in the window, in milliseconds, its key and its kind. -/
def measuredCall (ms : ℕ) (d : Completed) : Access := ⟨(d.t0 - ms) / 1000, d.idx, d.op⟩

/-- **The trace is what was measured.** Let any number of workers run, interleaved in any way, by a
    clock that never goes back.  When they have returned, `load_trace` reads from the closed trace
    file of each worker exactly the operations that it chose in the measured window, in the order it
    made them, with their keys, kinds and the milliseconds since the window opened, if the window
    was shorter than `2^32` milliseconds and all keys have at most 30 bits. -/
theorem trace_exact (f : WorkerFlags) (h : Host σ) (runStartUs : ℕ) (rng : ι → σ)
    {es : List (BenchEvent ι)} (hacc : (ticking ι).Accepts runStartUs es)
    (hidle : ∀ t, ((run (benchStep f h) (benchStart ι f runStartUs rng) es).pos t).pc.hand = .empty)
    (htrace : f.traceOut = true) (hsample : 1 ≤ f.traceSample)
    (hshort : (ticking ι).after runStartUs es <
      runStartUs + f.warmup * 1000000 + 2 ^ 32 * 1000) (t : ι)
    (hkeys : ∀ d ∈
      callsOf t (watch (benchStep f h) noteCalls (benchStart ι f runStartUs rng) [] es),
      d.idx < 2 ^ 30) :
    ∃ tw, ((run (benchStep f h) (benchStart ι f runStartUs rng) es).pos t).tw = some tw ∧
      loadFile tw.close.disk =
        ((callsOf t (watch (benchStep f h) noteCalls (benchStart ι f runStartUs rng) [] es)).filter
          (·.measuring)).map (measuredCall (runStartUs + f.warmup * 1000000)) := by
  obtain ⟨-, ⟨ds, hds, htraced⟩, hwriter⟩ := workerBooks_run f h runStartUs rng es t
  have hwindow := (inWindow_run f h runStartUs rng hacc).calls t
  rw [htrace] at hwriter
  obtain ⟨tw, htw⟩ := Option.isSome_iff_exists.mp hwriter
  obtain ⟨xs, hwrote, -, hall⟩ := htraced tw htw
  rw [hidle t] at hds
  have hds := hds.trans (List.append_nil ds)
  refine ⟨tw, htw, ?_⟩
  rw [hds]
  -- what was traced has not wrapped
  have hmem : ∀ d ∈ ds, d ∈ callsOf t
      (watch (benchStep f h) noteCalls (benchStart ι f runStartUs rng) [] es) ∧
      d.measuring = true := fun d hd => List.mem_filter.mp (hds ▸ hd)
  have hxs : xs = ds.map (measuredCall (runStartUs + f.warmup * 1000000)) := by
    rw [hall hsample]
    refine List.map_congr_left fun d hd => ?_
    have hopen := hwindow.opened d (hmem d hd).1 (hmem d hd).2
    have hbefore := hwindow.before d (hmem d hd).1
    unfold traceCall measuredCall
    rw [sub64_of_le hopen, Nat.mod_eq_of_lt (by omega)]
  have hshort' : ∀ x ∈ xs, x.tMs < 2 ^ 32 := by
    rw [hxs]
    intro x hx
    obtain ⟨d, hd, rfl⟩ := List.mem_map.mp hx
    have hbefore := hwindow.before d (hmem d hd).1
    show (d.t0 - (runStartUs + f.warmup * 1000000)) / 1000 < 2 ^ 32
    omega
  have hcut : xs.map Access.cut = xs := by
    refine (List.map_congr_left fun x hx => ?_).trans (List.map_id xs)
    rw [hxs] at hx
    obtain ⟨d, hd, rfl⟩ := List.mem_map.mp hx
    exact cut_eq_iff.mpr (hkeys d (hmem d hd).1)
  have hsorted : xs.Pairwise fun x y => x.tMs ≤ y.tMs := by
    rw [hxs, List.pairwise_map, ← hds]
    exact (hwindow.sorted.filter _).imp fun hle =>
      Nat.div_le_div_right (Nat.sub_le_sub_right hle _)
  rw [hwrote.close, loadFile_record hshort', hcut, hsorted.insertionSort_eq, hxs]

end Window

/-- The insert of worker 1 began 19 microseconds after the window opened. -/
theorem trace_exact_readAndInsert :
    ∃ tw, ((run (benchStep eightKeys dealing)
        (benchStart (Fin 2) eightKeys 0 fun t => [(t.val : ℚ)]) readAndInsert).pos 1).tw = some tw ∧
      loadFile tw.close.disk = [⟨0, 8, .insert⟩] := by
  have hcalls : callsOf 1 (watch (benchStep eightKeys dealing) noteCalls
      (benchStart (Fin 2) eightKeys 0 fun t => [(t.val : ℚ)]) [] readAndInsert) =
      [⟨⟨.insert, 8, some 0, true⟩, 19, 3, true⟩] := by
    decide +kernel
  have hexact := trace_exact eightKeys dealing 0 (fun t => [(t.val : ℚ)])
    (by decide : (ticking (Fin 2)).Accepts 0 readAndInsert) (by decide +kernel) rfl (by decide)
    (by decide) 1 (by rw [hcalls]; simp)
  rw [hcalls] at hexact
  exact hexact

end Leaper.Bench
