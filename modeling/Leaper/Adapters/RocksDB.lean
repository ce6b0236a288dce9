import Leaper.Core.Jobs
import Leaper.Core.Nesting

namespace Leaper.RocksDB

open Lib LeaperImpl

/-!
# The RocksDB adapter

`adapters/rocksdb/leaper_rocksdb.cc`: jobs run concurrently and end in any order, while the
core keeps one stack of contexts.  Under the adapter's mutex a `Begin` predicts and chooses
for its job in one go; an `End` takes the job's chosen ranges, warms them outside the mutex,
and then pops the core's stack.  These three are the indivisible steps.

A client call reads the clock first and reaches the core later, without the mutex, so an access may
be recorded after a `Begin` that is younger; and `ResetClock` may come at any time.

* `chosen_jobless`, `jobless_run` — what a job chooses is a function of options, counters,
  models and oracle, which other jobs do not touch, as long as the memos are good;
* `chosen_lateRead` — they need not be: a late access is not in the memo another job has left;
* `Tracked` — pending sets and stack depth against the jobs that are open;
* `run_concurrent_jobs` — the three guarantees over every interleaving.
-/

/-- `warm_mode`. -/
inductive WarmMode
  | iterator
  | prepop
  | sst
  deriving DecidableEq, Repr

/-- `PrepopJob`, one for each background thread. -/
structure PrepopJob where
  hot : List ℕ := []
  budgetLeft : ℕ := 0
  active : Bool := false
  deriving DecidableEq, Repr

/-- `leaper_rocksdb::Adapter`, as far as jobs go. -/
structure Adapter where
  core : LeaperImpl
  warmMode : WarmMode := .iterator
  warmBlockBudget : ℕ := 0
  numRanges : ℕ := 1024
  startUs : ℕ := 0
  pendingByJob : ℤ → Option (List BlockRef) := fun _ => none
  prepopJob : ℕ → PrepopJob := fun _ => {}

/-- `CacheBridge`: RocksDB offers neither eviction nor a probe. -/
def cacheBridge : CacheOps Unit where
  evict _ cache := cache
  isCached _ cache := (cache, false)

/-- The candidates of every job: one block of size zero for each range. -/
def candidates (numRanges : ℕ) : List BlockRef :=
  (List.range numRanges).map fun r => { offset := r, firstRange := r, lastRange := r }

/-- Ask the core about one candidate after another. -/
def choose : LeaperImpl → List BlockRef → LeaperImpl × List BlockRef
  | s, [] => (s, [])
  | s, b :: bs =>
    let q := s.shouldPrefetch b
    let r := choose q.1 bs
    (r.1, if q.2 then b :: r.2 else r.2)

namespace Adapter

/-- `NowUs`. -/
def nowUs (a : Adapter) (mono : ℕ) : ℕ := sub64 mono a.startUs

/-- `Listener::Begin`: predict and choose, then keep the choice for the job. -/
def begin (a : Adapter) (thread : ℕ) (job level : ℤ) (isFlush : Bool) (estBlocks mono : ℕ) :
    Adapter × List BlockRef :=
  let cands := candidates a.numRanges
  let core := (a.core.onCompactionBegin cacheBridge ()
    { level := level, isFlush := isFlush, estBlocks := estBlocks } cands (a.nowUs mono)).1
  let r := choose core cands
  if a.warmMode = .prepop then
    let pj : PrepopJob := ⟨sorted (r.2.map (·.firstRange)), a.warmBlockBudget, true⟩
    ({ a with core := r.1, prepopJob := Function.update a.prepopJob thread pj }, r.2)
  else
    ({ a with core := r.1, pendingByJob := Function.update a.pendingByJob job (some r.2) }, r.2)

/-- The first part of `Listener::End`: the ranges that were waiting for the job. -/
def endTake (a : Adapter) (thread : ℕ) (job : ℤ) : Adapter × List BlockRef :=
  let chosen := (a.pendingByJob job).getD []
  let a := { a with pendingByJob := Function.update a.pendingByJob job none }
  if a.warmMode = .prepop then
    let pj : PrepopJob := { a.prepopJob thread with active := false, hot := [] }
    ({ a with prepopJob := Function.update a.prepopJob thread pj }, chosen)
  else (a, chosen)

/-- The last part of `Listener::End`: pop the core's context. -/
def endPop (a : Adapter) : Adapter := { a with core := a.core.onCompactionEnd }

end Adapter

/-! ### The adapter as a machine -/

/-- An indivisible step of a listener call, or of a call of the client.  An access comes with the
    time that `NowUs` has shown it before. -/
inductive Action
  | begin (thread : ℕ) (job level : ℤ) (isFlush : Bool) (estBlocks : ℕ)
  | endTake (thread : ℕ) (job : ℤ)
  | endPop (job : ℤ)
  | access (isWrite : Bool) (key : Bytes) (nowUs : ℕ)
  | setQps (q : ℚ)
  | setHealth (missRatio : ℚ)
  | resetClock

/-- An action when the monotonic clock shows `mono`. -/
structure Act where
  mono : ℕ
  action : Action

/-- The ranges a `Begin` chose, or an `End` consumed. -/
structure ActObs where
  chosen : Option (List BlockRef) := none
  consumed : Option (List BlockRef) := none
  deriving DecidableEq, Repr

/-- One step. -/
def step (a : Adapter) (x : Act) : Adapter × ActObs :=
  match x.action with
  | .begin thread job level isFlush estBlocks =>
    let r := a.begin thread job level isFlush estBlocks x.mono
    (r.1, { chosen := some r.2 })
  | .endTake thread job =>
    let r := a.endTake thread job
    (r.1, { consumed := some r.2 })
  | .endPop _ => (a.endPop, {})
  | .access isWrite key nowUs => ({ a with core := a.core.onAccess isWrite key nowUs }, {})
  | .setQps q => ({ a with core := a.core.setQps q }, {})
  | .setHealth missRatio => ({ a with core := a.core.setHealth missRatio }, {})
  | .resetClock => ({ a with startUs := x.mono }, {})

/-- What RocksDB knows: the jobs whose end has not come, and those whose chosen ranges are being
    warmed. -/
structure Jobs where
  running : List ℤ := []
  ending : List ℤ := []
  deriving DecidableEq, Repr

/-- **Concurrent jobs.** Ids of open jobs are distinct, and each job ends once, in any order. -/
def jobs : Env Jobs Act where
  ok g x :=
    match x.action with
    | .begin _ job _ _ _ => job ∉ g.running ∧ job ∉ g.ending
    | .endTake _ job => job ∈ g.running
    | .endPop job => job ∈ g.ending
    | _ => True
  next g x :=
    match x.action with
    | .begin _ job _ _ _ => { g with running := job :: g.running }
    | .endTake _ job => ⟨g.running.erase job, job :: g.ending⟩
    | .endPop job => { g with ending := g.ending.erase job }
    | _ => g

instance (g : Jobs) (x : Act) : Decidable (jobs.ok g x) := by
  obtain ⟨mono, action⟩ := x
  unfold jobs
  cases action <;> infer_instance

/-! ### Choosing -/

/-- The questions of `Begin` touch the context and the statistics alone. -/
theorem choose_frame (bs : List BlockRef) : ∀ s : LeaperImpl, ∃ c st,
    (choose s bs).1 = { s with ctx := c, stats := st } := by
  induction bs with
  | nil => exact fun s => ⟨s.ctx, s.stats, rfl⟩
  | cons b bs ih =>
    intro s
    obtain ⟨c, st, heq⟩ := ih (s.shouldPrefetch b).1
    refine ⟨c, st, ?_⟩
    show (choose (s.shouldPrefetch b).1 bs).1 = _
    obtain ⟨st', hq | ⟨-, -, hq⟩⟩ := s.shouldPrefetch_frame b
    all_goals rw [heq, hq]

/-- A choice depends on options, detector and context alone. -/
theorem choose_congr (bs : List BlockRef) : ∀ {s s' : LeaperImpl}, s.opt = s'.opt →
    s.ssad = s'.ssad → s.ctx = s'.ctx → (choose s bs).2 = (choose s' bs).2 := by
  induction bs with
  | nil => exact fun _ _ _ => rfl
  | cons b bs ih =>
    intro s s' hopt hssad hctx
    obtain ⟨hans, hctx'⟩ := shouldPrefetch_congr hopt hssad hctx b
    have hframe : ∀ s : LeaperImpl, (s.shouldPrefetch b).1.opt = s.opt ∧
        (s.shouldPrefetch b).1.ssad = s.ssad := by
      intro s
      obtain ⟨st, hq | ⟨-, -, hq⟩⟩ := s.shouldPrefetch_frame b
      all_goals rw [hq]; exact ⟨rfl, rfl⟩
    have hrest := ih ((hframe s).1.trans (hopt.trans (hframe s').1.symm))
      ((hframe s).2.trans (hssad.trans (hframe s').2.symm)) hctx'
    show (if (s.shouldPrefetch b).2 then _ else _) = (if (s'.shouldPrefetch b).2 then _ else _)
    rw [hans, hrest]

/-- The choice of a `Begin`, whatever the mode. -/
theorem begin_chosen (a : Adapter) (thread : ℕ) (job level : ℤ) (isFlush : Bool)
    (estBlocks mono : ℕ) : (a.begin thread job level isFlush estBlocks mono).2 =
      (choose (a.core.onCompactionBegin cacheBridge ()
        { level := level, isFlush := isFlush, estBlocks := estBlocks } (candidates a.numRanges)
        (a.nowUs mono)).1 (candidates a.numRanges)).2 := by
  unfold Adapter.begin
  simp only
  split_ifs <;> rfl

/-- Choosing only moves the context and the statistics of what `OnCompactionBegin` left. -/
theorem begin_core_frame (a : Adapter) (thread : ℕ) (job level : ℤ) (isFlush : Bool)
    (estBlocks mono : ℕ) : ∃ c st, (a.begin thread job level isFlush estBlocks mono).1.core =
      { (a.core.onCompactionBegin cacheBridge ()
          { level := level, isFlush := isFlush, estBlocks := estBlocks } (candidates a.numRanges)
          (a.nowUs mono)).1 with ctx := c, stats := st } := by
  obtain ⟨c, st, heq⟩ := choose_frame (candidates a.numRanges)
    (a.core.onCompactionBegin cacheBridge ()
      { level := level, isFlush := isFlush, estBlocks := estBlocks } (candidates a.numRanges)
      (a.nowUs mono)).1
  refine ⟨c, st, ?_⟩
  rw [← heq]
  unfold Adapter.begin
  simp only
  split_ifs <;> rfl

/-- `Begin` leaves mode and start time alone. -/
theorem begin_fields (a : Adapter) (thread : ℕ) (job level : ℤ) (isFlush : Bool)
    (estBlocks mono : ℕ) :
    (a.begin thread job level isFlush estBlocks mono).1.warmMode = a.warmMode ∧
      (a.begin thread job level isFlush estBlocks mono).1.startUs = a.startUs := by
  unfold Adapter.begin
  simp only
  split_ifs <;> exact ⟨rfl, rfl⟩

/-- The choice waits for the job's end, in the modes that warm then. -/
theorem begin_pending {a : Adapter} (hmode : a.warmMode ≠ .prepop) (thread : ℕ) (job level : ℤ)
    (isFlush : Bool) (estBlocks mono : ℕ) :
    (a.begin thread job level isFlush estBlocks mono).1.pendingByJob =
      Function.update a.pendingByJob job
        (some (a.begin thread job level isFlush estBlocks mono).2) := by
  unfold Adapter.begin
  simp only [if_neg hmode]

/-- What the first part of an `End` does, in every mode. -/
theorem endTake_spec (a : Adapter) (thread : ℕ) (job : ℤ) :
    (a.endTake thread job).1.core = a.core ∧ (a.endTake thread job).1.warmMode = a.warmMode ∧
    (a.endTake thread job).1.startUs = a.startUs ∧
    (a.endTake thread job).1.pendingByJob = Function.update a.pendingByJob job none ∧
    (a.endTake thread job).2 = (a.pendingByJob job).getD [] := by
  unfold Adapter.endTake
  simp only
  split_ifs
  all_goals exact ⟨rfl, rfl, rfl, rfl, rfl⟩

/-! ### What jobs do not touch -/

/-- The core without any trace of jobs: options, mapper, counters, models, oracle, the
    reported load and health stay. -/
def joblessCore (s : LeaperImpl) : LeaperImpl :=
  { s with
    predictor := { s.predictor with memo := [], clampedCalls := 0 }
    stats := {}
    ctx := .outside
    ctxStack := [] }

/-- The adapter without any trace of jobs. -/
def Adapter.jobless (a : Adapter) : Adapter :=
  { a with
    core := joblessCore a.core
    pendingByJob := fun _ => none
    prepopJob := fun _ => {} }

/-- A step of a job, not of the client. -/
def Action.ofJob : Action → Bool
  | .begin _ _ _ _ _ => true
  | .endTake _ _ => true
  | .endPop _ => true
  | _ => false

/-- **A choice does not see other jobs.** -/
theorem chosen_jobless {a : Adapter} {mono : ℕ} (h : a.core.MemoOk (a.nowUs mono)) (thread : ℕ)
    (job level : ℤ) (isFlush : Bool) (estBlocks : ℕ) :
    (a.begin thread job level isFlush estBlocks mono).2 =
      (a.jobless.begin thread job level isFlush estBlocks mono).2 := by
  rw [begin_chosen, begin_chosen]
  apply choose_congr
  · rfl
  · rfl
  · -- both contexts come from fresh inferences on the same counters and models
    let info : CompactionInfo := { level := level, isFlush := isFlush, estBlocks := estBlocks }
    have hgood : ((joblessCore a.core).pushCtx info).MemoOk (a.nowUs mono) :=
      fun _ hm => absurd hm List.not_mem_nil
    have hsame : ((joblessCore a.core).pushCtx info).forgetMemo =
        { (a.core.pushCtx info).forgetMemo with ctxStack := [.outside] } := rfl
    have hd := decideJob_forgetMemo (s := a.core.pushCtx info) h cacheBridge () info
      (candidates a.numRanges)
    have hd' := decideJob_forgetMemo hgood cacheBridge () info (candidates a.numRanges)
    rw [hsame, decideJob_ctxStack] at hd'
    have hspans := congrArg Prod.fst (hd.trans hd'.symm)
    exact congrArg (fun spans => JobCtx.mk spans 0 (budget a.core.opt) isFlush) hspans

/-- A `Begin` writes the context, the memos and the statistics, all of which are the jobs'. -/
theorem joblessCore_begin (a : Adapter) (thread : ℕ) (job level : ℤ) (isFlush : Bool)
    (estBlocks mono : ℕ) :
    joblessCore (a.begin thread job level isFlush estBlocks mono).1.core = joblessCore a.core := by
  obtain ⟨c, st, heq⟩ := begin_core_frame a thread job level isFlush estBlocks mono
  obtain ⟨ms, n, hpred⟩ := decideJob_predictor_frame cacheBridge
    (a.core.pushCtx { level := level, isFlush := isFlush, estBlocks := estBlocks }) ()
    { level := level, isFlush := isFlush, estBlocks := estBlocks } (candidates a.numRanges)
    (a.nowUs mono)
  rw [heq, onCompactionBegin_frame]
  simp only [hpred]
  rfl

/-- A step of a job leaves everything but the jobs. -/
theorem jobless_step_ofJob (a : Adapter) {x : Act} (h : x.action.ofJob = true) :
    (step a x).1.jobless = a.jobless := by
  obtain ⟨mono, action⟩ := x
  cases action with
  | begin thread job level isFlush estBlocks =>
    show (a.begin thread job level isFlush estBlocks mono).1.jobless = a.jobless
    unfold Adapter.jobless
    rw [joblessCore_begin]
    unfold Adapter.begin
    simp only
    split_ifs <;> rfl
  | endTake thread job =>
    show (a.endTake thread job).1.jobless = a.jobless
    unfold Adapter.endTake
    simp only
    split_ifs <;> rfl
  | endPop job =>
    obtain ⟨c, cs, heq⟩ := a.core.onCompactionEnd_frame
    show Adapter.jobless { a with core := a.core.onCompactionEnd } = a.jobless
    rw [heq]
    rfl
  | _ => cases h

/-- A step of the client does not look at jobs. -/
theorem jobless_step_client (a : Adapter) {x : Act} (h : x.action.ofJob = false) :
    (step a x).1.jobless = (step a.jobless x).1.jobless := by
  obtain ⟨mono, action⟩ := x
  cases action with
  | access isWrite key now =>
    have hcol : (joblessCore a.core).collecting = a.core.collecting := rfl
    simp only [step, Adapter.jobless, LeaperImpl.onAccess, hcol]
    split_ifs <;> rfl
  | setQps q => rfl
  | setHealth m => rfl
  | resetClock => rfl
  | _ => cases h

/-- **Deleting all jobs from a run leaves the same counters, models and oracle.** -/
theorem jobless_run (xs : List Act) : ∀ a a' : Adapter, a.jobless = a'.jobless →
    (run step a xs).jobless = (run step a' (xs.filter fun x => !x.action.ofJob)).jobless := by
  induction xs with
  | nil => exact fun _ _ h => h
  | cons x xs ih =>
    intro a a' h
    cases hjob : x.action.ofJob with
    | true =>
      rw [List.filter_cons_of_neg (by simp [hjob]), run_cons]
      exact ih _ _ ((jobless_step_ofJob a hjob).trans h)
    | false =>
      rw [List.filter_cons_of_pos (by simp [hjob]), run_cons, run_cons]
      apply ih
      rw [jobless_step_client a hjob, jobless_step_client a' hjob, h]

/-! ### Pending sets and the stack -/

/-- A record of the choices: what each job chose and has not consumed, and whether every
    consumption so far was exactly that. -/
structure Choices where
  waiting : ℤ → Option (List BlockRef) := fun _ => none
  exact : Bool := true

/-- A job has chosen. -/
def Choices.chose (t : Choices) (job : ℤ) (set : Option (List BlockRef)) : Choices :=
  { t with waiting := Function.update t.waiting job set }

/-- A job's end has consumed a set. -/
def Choices.consume (t : Choices) (job : ℤ) (set : Option (List BlockRef)) : Choices :=
  ⟨Function.update t.waiting job none, t.exact && decide (set = t.waiting job)⟩

/-- The record after a step and what it showed. -/
def Choices.note (t : Choices) (x : Act) (o : ActObs) : Choices :=
  match x.action with
  | .begin _ job _ _ _ => t.chose job o.chosen
  | .endTake _ job => t.consume job o.consumed
  | _ => t

/-- **The adapter against the open jobs**, in a warm mode. -/
structure Tracked (mode : WarmMode) (g : Jobs) (a : Adapter) (t : Choices) : Prop where
  mode_eq : a.warmMode = mode
  nodup : g.running.Nodup
  contexts : ∃ pre, pre.length = g.running.length + g.ending.length ∧
    a.core.ctx :: a.core.ctxStack = pre ++ [.outside]
  waiting : mode ≠ .prepop → ∀ job, a.pendingByJob job = t.waiting job
  chosen : mode ≠ .prepop → ∀ job ∈ g.running, (t.waiting job).isSome = true
  exact : mode ≠ .prepop → t.exact = true

section Steps

variable {mode : WarmMode} {g : Jobs} {a : Adapter} {t : Choices}

/-- A job that begins is filed with its own choice. -/
theorem Tracked.begin (h : Tracked mode g a t) (thread : ℕ) {job : ℤ} (hnew : job ∉ g.running)
    (level : ℤ) (isFlush : Bool) (estBlocks mono : ℕ) :
    Tracked mode { g with running := job :: g.running }
      (a.begin thread job level isFlush estBlocks mono).1
      (t.chose job (some (a.begin thread job level isFlush estBlocks mono).2)) := by
  obtain ⟨c, st, hcore⟩ := begin_core_frame a thread job level isFlush estBlocks mono
  obtain ⟨hmode, -⟩ := begin_fields a thread job level isFlush estBlocks mono
  obtain ⟨pre, hlen, hctxs⟩ := h.contexts
  refine ⟨hmode.trans h.mode_eq, List.nodup_cons.mpr ⟨hnew, h.nodup⟩, ?_, ?_, ?_, h.exact⟩
  · -- one context more, on top of the old ones
    rw [hcore]
    refine ⟨c :: pre, ?_, congrArg (List.cons c) hctxs⟩
    show pre.length + 1 = g.running.length + 1 + g.ending.length
    omega
  · intro hne job'
    rw [begin_pending (h.mode_eq ▸ hne), funext (h.waiting hne)]
    rfl
  · intro hne job' hmem
    show (Function.update t.waiting job _ job').isSome = true
    by_cases hjob : job' = job
    · subst hjob
      rw [Function.update_self]
      rfl
    · rw [Function.update_of_ne hjob]
      rcases List.mem_cons.mp hmem with heq | hold
      · exact absurd heq hjob
      · exact h.chosen hne job' hold

/-- At its end a job takes its own choice, and takes it out. -/
theorem Tracked.take (h : Tracked mode g a t) (thread : ℕ) {job : ℤ} (hjob : job ∈ g.running) :
    Tracked mode ⟨g.running.erase job, job :: g.ending⟩ (a.endTake thread job).1
      (t.consume job (some (a.endTake thread job).2)) := by
  obtain ⟨hcore, hmode, -, hpend, hset⟩ := endTake_spec a thread job
  obtain ⟨pre, hlen, hctxs⟩ := h.contexts
  refine ⟨hmode.trans h.mode_eq, h.nodup.erase job, ?_, ?_, ?_, ?_⟩
  · -- the job has only moved from one list to the other
    rw [hcore]
    refine ⟨pre, ?_, hctxs⟩
    have hpos : 0 < g.running.length := List.length_pos_of_mem hjob
    show pre.length = (g.running.erase job).length + (g.ending.length + 1)
    rw [List.length_erase_of_mem hjob]
    omega
  · intro hne job'
    rw [hpend, funext (h.waiting hne)]
    rfl
  · -- the other running jobs, whose choices still wait
    intro hne job' hmem
    have hne' : job' ≠ job := fun heq => h.nodup.not_mem_erase (heq ▸ hmem)
    show (Function.update t.waiting job none job').isSome = true
    rw [Function.update_of_ne hne']
    exact h.chosen hne job' (List.mem_of_mem_erase hmem)
  · -- what was pending is what the `Begin` chose
    intro hne
    obtain ⟨set, hchosen⟩ := Option.isSome_iff_exists.mp (h.chosen hne job hjob)
    show (t.exact && decide (some (a.endTake thread job).2 = t.waiting job)) = true
    rw [hset, h.waiting hne job, hchosen, h.exact hne]
    simp

/-- The pop of a context keeps the filed choices. -/
theorem Tracked.pop (h : Tracked mode g a t) {job : ℤ} (hjob : job ∈ g.ending) :
    Tracked mode { g with ending := g.ending.erase job } a.endPop t := by
  obtain ⟨pre, hlen, hctxs⟩ := h.contexts
  have hpos : 0 < g.ending.length := List.length_pos_of_mem hjob
  refine ⟨h.mode_eq, h.nodup, ?_, h.waiting, h.chosen, h.exact⟩
  -- whichever job this context was made for, the bottom of the stack stays
  cases pre with
  | nil =>
    rw [List.length_nil] at hlen
    omega
  | cons p pre =>
    rw [List.length_cons] at hlen
    refine ⟨pre, ?_, ?_⟩
    · show pre.length = g.running.length + (g.ending.erase job).length
      rw [List.length_erase_of_mem hjob]
      omega
    · obtain ⟨-, hstack⟩ := List.cons.inj hctxs
      show a.core.onCompactionEnd.ctx :: a.core.onCompactionEnd.ctxStack = pre ++ [.outside]
      unfold LeaperImpl.onCompactionEnd
      rw [hstack]
      cases pre <;> rfl

/-- What clients do keeps the filed choices. -/
theorem Tracked.client (h : Tracked mode g a t) {x : Act} (hjob : x.action.ofJob = false) :
    Tracked mode g (step a x).1 t := by
  obtain ⟨mono, action⟩ := x
  cases action with
  | access isWrite key now =>
    obtain ⟨c, heq, -⟩ := a.core.onAccess_frame isWrite key now
    have hstep : (step a ⟨mono, .access isWrite key now⟩).1 =
        { a with core := { a.core with collector := c } } := by
      show { a with core := a.core.onAccess isWrite key now } = _
      rw [heq]
    rw [hstep]
    exact ⟨h.mode_eq, h.nodup, h.contexts, h.waiting, h.chosen, h.exact⟩
  | setQps q => exact ⟨h.mode_eq, h.nodup, h.contexts, h.waiting, h.chosen, h.exact⟩
  | setHealth m => exact ⟨h.mode_eq, h.nodup, h.contexts, h.waiting, h.chosen, h.exact⟩
  | resetClock => exact ⟨h.mode_eq, h.nodup, h.contexts, h.waiting, h.chosen, h.exact⟩
  | _ => cases hjob

/-- **One step keeps adapter, record and open jobs together.** -/
theorem tracked_step {x : Act} (hok : jobs.ok g x) (h : Tracked mode g a t) :
    Tracked mode (jobs.next g x) (step a x).1 (t.note x (step a x).2) := by
  obtain ⟨mono, action⟩ := x
  cases action with
  | begin thread job level isFlush estBlocks =>
    exact h.begin thread hok.1 level isFlush estBlocks mono
  | endTake thread job => exact h.take thread hok
  | endPop job => exact h.pop hok
  | access isWrite key now => exact h.client (x := ⟨mono, .access isWrite key now⟩) rfl
  | setQps q => exact h.client (x := ⟨mono, .setQps q⟩) rfl
  | setHealth m => exact h.client (x := ⟨mono, .setHealth m⟩) rfl
  | resetClock => exact h.client (x := ⟨mono, .resetClock⟩) rfl

end Steps

/-! ### Clocks that keep the memos good -/

/-- What is known of the clock: the adapter, the memos it had when the clock was reset, and the last
    time that a `Begin` or an access has shown since. -/
structure Clocked where
  adapter : Adapter
  left : List Memo := []
  time : ℕ := 0

/-- **A clock that keeps the memos good.** An access is not recorded in an earlier slot than what
    came before it, a `Begin` is not earlier, and no memo from before the last reset is of its
    second and slot. -/
def steady : Env Clocked Act where
  ok g x :=
    let c := g.adapter.core.collector
    match x.action with
    | .access _ _ now => c.params.slotOf g.time ≤ c.params.slotOf now
    | .begin _ _ _ _ _ => g.time ≤ g.adapter.nowUs x.mono ∧
        ∀ m ∈ g.left, m.Dead c (g.adapter.nowUs x.mono)
    | _ => True
  next g x :=
    let a := (step g.adapter x).1
    match x.action with
    | .access _ _ now => ⟨a, g.left, max g.time now⟩
    | .begin _ _ _ _ _ => ⟨a, g.left, g.adapter.nowUs x.mono⟩
    | .resetClock => ⟨a, g.adapter.core.predictor.memo, 0⟩
    | _ => ⟨a, g.left, g.time⟩

instance (g : Clocked) (x : Act) : Decidable (steady.ok g x) := by
  obtain ⟨mono, action⟩ := x
  unfold steady Memo.Dead
  cases action <;> infer_instance

/-- The core's memos are good at a time, those of a list apart. -/
def GoodBut (left : List Memo) (s : LeaperImpl) (t : ℕ) : Prop :=
  MemoInv left s.predictor s.collector s.opt.hotThreshold t

/-- A clock's memos: what the clock knows is the adapter's own, and the memos are good but for those
    from before the last reset. -/
def GoodMemos (g : Clocked) (a : Adapter) : Prop :=
  g.adapter = a ∧ GoodBut g.left a.core g.time

/-- With a clock that is steady in the slots, no step leaves a wrong memo. -/
theorem goodMemos_step (g : Clocked) (a : Adapter) (x : Act) (hok : steady.ok g x)
    (h : GoodMemos g a) : GoodMemos (steady.next g x) (step a x).1 := by
  obtain ⟨rfl, hmemo⟩ := h
  obtain ⟨mono, action⟩ := x
  cases action with
  | begin thread job level isFlush estBlocks =>
    obtain ⟨c, st, hcore⟩ := begin_core_frame g.adapter thread job level isFlush estBlocks mono
    refine ⟨rfl, ?_⟩
    show GoodBut g.left (g.adapter.begin thread job level isFlush estBlocks mono).1.core _
    rw [hcore]
    exact decideJob_memoInv (s := g.adapter.core.pushCtx _) hmemo hok.1 hok.2 cacheBridge () _ _
  | endTake thread job =>
    obtain ⟨hcore, -⟩ := endTake_spec g.adapter thread job
    refine ⟨rfl, ?_⟩
    show GoodBut g.left (g.adapter.endTake thread job).1.core _
    rw [hcore]
    exact hmemo
  | endPop job =>
    obtain ⟨c, cs, heq⟩ := g.adapter.core.onCompactionEnd_frame
    refine ⟨rfl, ?_⟩
    show GoodBut g.left g.adapter.core.onCompactionEnd _
    rw [heq]
    exact hmemo
  | access isWrite key now =>
    obtain ⟨c, heq, hc⟩ := g.adapter.core.onAccess_frame isWrite key now
    refine ⟨rfl, ?_⟩
    show GoodBut g.left (g.adapter.core.onAccess isWrite key now) (max g.time now)
    rw [heq]
    rcases hc with rfl | rfl
    · exact MemoInv.mono hmemo (le_max_left _ _)
    · exact MemoInv.record_slot hmemo hok _ _
  | setQps q => exact ⟨rfl, hmemo⟩
  | setHealth m => exact ⟨rfl, hmemo⟩
  | resetClock => exact ⟨rfl, fun m hm => .inl hm⟩

/-- **Concurrent jobs do not mix.** From a fresh adapter, after any interleaving of jobs and client
    calls: in the iterator and sst modes every `End` so far consumed exactly what its `Begin` chose
    and nobody had consumed; the core's stack is as deep as there are open jobs, and once there are
    none its context is the initial one; the state without any trace of jobs is that of the run with
    all jobs deleted.  What a `Begin` chooses is what it would choose without any trace of jobs, if
    the clock has kept the memos good so far and does so with this `Begin`. -/
theorem run_concurrent_jobs (a : Adapter) (hctx : a.core.ctx = .outside)
    (hstack : a.core.ctxStack = []) (hmemo : a.core.predictor.memo = [])
    (hpend : ∀ job, a.pendingByJob job = none) {xs : List Act} (hacc : jobs.Accepts {} xs) :
    (steady.Accepts ⟨a, [], 0⟩ xs → ∀ thread job level isFlush estBlocks mono,
      steady.ok (steady.after ⟨a, [], 0⟩ xs) ⟨mono, .begin thread job level isFlush estBlocks⟩ →
      ((run step a xs).begin thread job level isFlush estBlocks mono).2 =
        ((run step a xs).jobless.begin thread job level isFlush estBlocks mono).2) ∧
    (run step a xs).jobless = (run step a (xs.filter fun x => !x.action.ofJob)).jobless ∧
    (a.warmMode ≠ .prepop → (watch step Choices.note a {} xs).exact = true) ∧
    (run step a xs).core.ctxStack.length =
      (jobs.after {} xs).running.length + (jobs.after {} xs).ending.length ∧
    ((jobs.after {} xs).running = [] → (jobs.after {} xs).ending = [] →
      (run step a xs).core.ctx = .outside) := by
  have hinit : Tracked a.warmMode {} a {} := by
    refine ⟨rfl, List.nodup_nil, ⟨[], rfl, congrArg₂ List.cons hctx hstack⟩, fun _ => hpend, ?_,
      fun _ => rfl⟩
    exact fun _ job hmem => absurd hmem List.not_mem_nil
  have htracked := jobs.watch_invariant (P := fun g a' t => Tracked a.warmMode g a' t)
    (fun g a' t x hok h => tracked_step hok h) hacc hinit
  obtain ⟨pre, hlen, hctxs⟩ := htracked.contexts
  refine ⟨?_, jobless_run xs a a rfl, htracked.exact, ?_, fun hrun hend => ?_⟩
  · -- the memo is good for the time of the next `Begin`, so its choice does not see it
    intro hsteady thread job level isFlush estBlocks mono hnext
    obtain ⟨hsame, hgood⟩ := steady.run_invariant (P := GoodMemos) goodMemos_step hsteady
      ⟨rfl, MemoInv.of_empty hmemo _ _ _⟩
    obtain ⟨hlater, hdead⟩ := hnext
    rw [hsame] at hlater hdead
    exact chosen_jobless (MemoInv.memoOk hgood hlater hdead) thread job level isFlush estBlocks
  · have hdepth := congrArg List.length hctxs
    rw [List.length_cons, List.length_append, List.length_singleton] at hdepth
    exact (Nat.succ.inj hdepth).trans hlen
  · -- without open jobs the bottom context is the only one
    rw [hrun, hend] at hlen
    rw [List.length_eq_zero_iff.mp hlen] at hctxs
    exact (List.cons.inj hctxs).1

/-- Two jobs that overlap; the first to begin is the first to end. -/
def crossing : List Act :=
  [⟨5, .access false [2] 0⟩, ⟨1000005, .begin 0 1 1 false 10⟩, ⟨1000006, .begin 1 2 0 true 0⟩,
   ⟨1000007, .endTake 0 1⟩, ⟨1000008, .endPop 1⟩, ⟨1000009, .endTake 1 2⟩, ⟨1000010, .endPop 2⟩]

/-- The sample core behind four ranges. -/
def sampleAdapter : Adapter := { core := sampleCore, numRanges := 4, startUs := 5 }

/-- Two jobs that end in the order they began in. -/
theorem run_concurrent_jobs_crossing :
    ((run step sampleAdapter crossing).begin 0 3 1 false 10 1500005).2 =
        ((run step sampleAdapter crossing).jobless.begin 0 3 1 false 10 1500005).2 ∧
      (watch step Choices.note sampleAdapter {} crossing).exact = true ∧
      (run step sampleAdapter crossing).core.ctx = .outside :=
  have h := @run_concurrent_jobs sampleAdapter rfl rfl rfl (fun _ => rfl) crossing (by decide)
  ⟨h.1 (by decide +kernel) 0 3 1 false 10 1500005 (by decide +kernel), h.2.2.1 (by decide),
    h.2.2.2.2 (by decide) (by decide)⟩

/-- Job 1 begins at second 1.0.  A read of range 2 that took its stamp at second 0.9, in the slot
    before, reaches the core after that. -/
def lateRead : List Act :=
  [⟨1000005, .begin 0 1 1 false 10⟩, ⟨1000006, .access false [2] 900000⟩]

/-- **A memo of another job is not always good.** Range 2 is hot when job 2 begins at second 1.5,
    and job 2 chooses it if job 1 was not there; but job 1 has left the answer of second 1.0, which
    did not have the read, and job 2 chooses nothing. -/
theorem chosen_lateRead : jobs.Accepts {} lateRead ∧
    ((run step sampleAdapter lateRead).begin 1 2 1 false 10 1500005).2 = [] ∧
    (((run step sampleAdapter (lateRead.filter fun x => !x.action.ofJob)).begin 1 2 1 false 10
      1500005).2.map (·.firstRange)) = [2] := by
  refine ⟨by decide, ?_, ?_⟩ <;> decide +kernel

-- both jobs choose range 2, which was read in the slot before
example : ((outs step sampleAdapter crossing).filterMap (·.chosen)).map
    (fun set => set.map (·.firstRange)) = [[2], [2]] := by
  decide +kernel

end Leaper.RocksDB
