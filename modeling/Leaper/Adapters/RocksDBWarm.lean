import Leaper.Adapters.RocksDB
import Leaper.Lib.Bisect
import Leaper.Lib.Meter

namespace Leaper.RocksDB

open Lib LeaperImpl

/-!
# The warm budget of the RocksDB adapter

A job's chosen ranges are warmed by reading: from its output files (`WarmFromFiles`), through
a database iterator (`CacheBridge::Prefetch`), or by the table builder itself, which asks a
filter about every block it writes (`PrepopFilter::ShouldWarm`).  The budget is in data blocks,
and how many blocks a `Seek` or a `Next` reads is up to the engine: here it charges what it
likes (`WarmEngine.cost`), on any layout of keys.

* `warmFiles_within`, `Metered.prefetchAll` — every operation of a job is issued below the budget;
* `watch_granting` — the builder's filter grants a job at most its budget;
* `warm_budget` — the three modes together.
-/

/-- An operation of an iterator that may read data blocks. -/
inductive WarmOp
  | seek (target : Bytes)
  | next
  deriving DecidableEq, Repr

/-- What the engine decides: how many data blocks an operation reads, how keys compare
    (`lt k l` for `Compare(k, l) < 0`), and which keys a database iterator opened now shows. -/
structure WarmEngine where
  cost : Log WarmOp → WarmOp → ℕ
  lt : Bytes → Bytes → Bool
  dbKeys : Log WarmOp → List Bytes

/-- The counters of warming. -/
structure WarmCounters where
  warmed : ℕ := 0
  warmedBlocks : ℕ := 0
  warmBudgetStops : ℕ := 0
  warmFiles : ℕ := 0
  warmOpenFailed : ℕ := 0
  deriving DecidableEq, Repr

/-- The adapter with the members that warming uses; `db_` and `table_factory_` may be null. -/
structure WarmAdapter extends Adapter where
  warmScanKeys : ℤ := 4096
  hasDb : Bool := true
  hasTableFactory : Bool := true
  counters : WarmCounters := {}

/-- The keys of an iterator after `Seek(start)`. -/
def WarmEngine.seekTo (e : WarmEngine) (start : Bytes) (keys : List Bytes) : List Bytes :=
  keys.dropWhile fun k => e.lt k start

/-! ### `WarmFromFiles` -/

section Files

variable (e : WarmEngine) (m : RangeMapper) (budgetBlocks : ℕ)

/-- The lambda `over`: the budget is spent; zero is no budget. -/
def overBudget (log : Log WarmOp) : Bool := decide (budgetBlocks ≠ 0 ∧ budgetBlocks ≤ charged log)

/-- The loop over the keys of one range; the second component is `exhausted`. -/
def scanKeys (limit : Bytes) : List Bytes → Log WarmOp → Log WarmOp × Bool
  | [], log => (log, false)
  | k :: ks, log =>
    if e.lt k limit then
      if overBudget budgetBlocks log then (log, true)
      else scanKeys limit ks (issue e.cost .next log)
    else (log, false)

/-- The loop over the ranges in one file. -/
def scanRanges (keys : List Bytes) : List BlockRef → Log WarmOp → Log WarmOp × Bool
  | [], log => (log, false)
  | b :: bs, log =>
    let start := m.rangeStartKey b.firstRange
    let limit := m.rangeStartKey (u64 (b.lastRange + 1))
    if overBudget budgetBlocks log then (log, true)
    else
      let log := issue e.cost (.seek start) log
      if overBudget budgetBlocks log then (log, true)
      else
        let r := scanKeys e budgetBlocks limit (e.seekTo start keys) log
        if r.2 then r else scanRanges keys bs r.1

/-- The variables of the loop over the files. -/
structure FileLoop where
  log : Log WarmOp := []
  files : ℕ := 0
  failed : ℕ := 0
  stops : ℕ := 0

/-- The loop over the files; an output is the list of its keys, or cannot be opened. -/
def warmFiles (ranges : List BlockRef) : List (Option (List Bytes)) → FileLoop → FileLoop
  | [], l => l
  | f :: fs, l =>
    if overBudget budgetBlocks l.log then { l with stops := l.stops + 1 }
    else
      match f with
      | none => warmFiles ranges fs { l with failed := l.failed + 1 }
      | some keys =>
        let r := scanRanges e m budgetBlocks keys ranges l.log
        let l := { l with log := r.1, files := l.files + 1 }
        if r.2 then { l with stops := l.stops + 1 } else warmFiles ranges fs l

end Files

/-- `WarmFromFiles`: the operations it issues and the counters it leaves.  The meter is reset
    when it starts. -/
def WarmAdapter.warmFromFiles (a : WarmAdapter) (e : WarmEngine)
    (outputs : List (Option (List Bytes))) (ranges : List BlockRef) (budgetBlocks : ℕ) :
    Log WarmOp × WarmCounters :=
  if ranges = [] ∨ outputs = [] then ([], a.counters)
  else
    let l := warmFiles e a.core.mapper budgetBlocks ranges outputs {}
    (l.log,
      { a.counters with
        warmed := a.counters.warmed + ranges.length
        warmedBlocks := a.counters.warmedBlocks + charged l.log
        warmBudgetStops := a.counters.warmBudgetStops + l.stops
        warmFiles := a.counters.warmFiles + l.files
        warmOpenFailed := a.counters.warmOpenFailed + l.failed })

/-! ### `CacheBridge::Prefetch` -/

/-- What a job's `End` keeps while it warms through the database: `tl_warm_budget_left`, the
    operations issued so far, and the counters. -/
structure PrefetchLoop where
  budgetLeft : ℕ
  log : Log WarmOp := []
  counters : WarmCounters

/-- The scan of one range: at most `warm_scan_keys_` keys, and none after the budget is spent;
    the second component is `stopped`. -/
def scanDb (e : WarmEngine) (overBudget : Log WarmOp → Bool) (warmScanKeys : ℤ) :
    List Bytes → ℤ → Log WarmOp → Log WarmOp × Bool
  | [], _, log => (log, false)
  | _ :: ks, n, log =>
    if n < warmScanKeys then
      if overBudget log then (log, true)
      else scanDb e overBudget warmScanKeys ks (n + 1) (issue e.cost .next log)
    else (log, false)

/-- `CacheBridge::Prefetch`.  The iterator ends at the range's limit. -/
def WarmAdapter.prefetch (a : WarmAdapter) (e : WarmEngine) (b : BlockRef) (l : PrefetchLoop) :
    PrefetchLoop :=
  if a.hasDb then
    let start := a.core.mapper.rangeStartKey b.firstRange
    let limit := a.core.mapper.rangeStartKey (u64 (b.lastRange + 1))
    let keys := (e.dbKeys l.log).filter fun k => e.lt k limit
    let overBudget := fun log : Log WarmOp =>
      decide (l.budgetLeft ≠ 0 ∧ l.budgetLeft ≤ charged log - charged l.log)
    let log := issue e.cost (.seek start) l.log
    let r := if overBudget log then (log, true)
      else scanDb e overBudget a.warmScanKeys (e.seekTo start keys) 0 log
    let read := charged r.1 - charged l.log
    { budgetLeft := if l.budgetLeft ≠ 0 then l.budgetLeft - min l.budgetLeft read else l.budgetLeft
      log := r.1
      counters :=
        { l.counters with
          warmedBlocks := l.counters.warmedBlocks + read
          warmed := l.counters.warmed + 1
          warmBudgetStops := l.counters.warmBudgetStops + if r.2 then 1 else 0 } }
  else l

/-- The loop of `End` over the chosen ranges. -/
def WarmAdapter.prefetchAll (a : WarmAdapter) (e : WarmEngine) (budget : ℕ) :
    List BlockRef → PrefetchLoop → PrefetchLoop
  | [], l => l
  | b :: bs, l =>
    if budget ≠ 0 ∧ l.budgetLeft = 0 then l else a.prefetchAll e budget bs (a.prefetch e b l)

/-- The warming of `Listener::End`, by mode: the operations it issues and the counters it
    leaves. -/
def WarmAdapter.endWarm (a : WarmAdapter) (e : WarmEngine) (outputs : List (Option (List Bytes)))
    (chosen : List BlockRef) : Log WarmOp × WarmCounters :=
  let budget := a.warmBlockBudget
  if a.warmMode = .prepop then ([], a.counters)
  else if a.warmMode = .sst ∧ a.hasTableFactory then a.warmFromFiles e outputs chosen budget
  else
    let l := a.prefetchAll e budget chosen { budgetLeft := budget, counters := a.counters }
    (l.log, l.counters)

/-! ### Every operation below the budget -/

section Within

variable {B : ℕ} {e : WarmEngine} {log : Log WarmOp}

/-- Without a budget none is spent. -/
theorem overBudget_zero (log : Log WarmOp) : overBudget 0 log = false := by simp [overBudget]

/-- Before the budget is spent, less was charged. -/
theorem charged_lt_of_not_overBudget (hB : 1 ≤ B) (h : overBudget B log ≠ true) :
    charged log < B := by
  have hnot : ¬ (B ≠ 0 ∧ B ≤ charged log) := fun hh => h (decide_eq_true hh)
  omega

theorem scanKeys_within (hB : 1 ≤ B) (limit : Bytes) (keys : List Bytes) :
    ∀ {log : Log WarmOp}, Within B log → Within B (scanKeys e B limit keys log).1 := by
  induction keys with
  | nil => exact fun h => h
  | cons k ks ih =>
    intro log h
    rw [scanKeys]
    split_ifs with hin hover
    · exact h
    · exact ih (h.issue (charged_lt_of_not_overBudget hB hover) _ _)
    · exact h

theorem scanRanges_within (hB : 1 ≤ B) (m : RangeMapper) (keys : List Bytes)
    (ranges : List BlockRef) : ∀ {log : Log WarmOp}, Within B log →
      Within B (scanRanges e m B keys ranges log).1 := by
  induction ranges with
  | nil => exact fun h => h
  | cons b bs ih =>
    intro log h
    rw [scanRanges]
    simp only
    -- before the `Seek`, after it, and in the scan
    split_ifs with hbefore hafter hscan
    · exact h
    · exact h.issue (charged_lt_of_not_overBudget hB hbefore) _ _
    · exact scanKeys_within hB _ _ (h.issue (charged_lt_of_not_overBudget hB hbefore) _ _)
    · exact ih (scanKeys_within hB _ _ (h.issue (charged_lt_of_not_overBudget hB hbefore) _ _))

/-- **The loop over the files** issues every operation below the budget. -/
theorem warmFiles_within (hB : 1 ≤ B) (m : RangeMapper) (ranges : List BlockRef)
    (outputs : List (Option (List Bytes))) : ∀ {l : FileLoop}, Within B l.log →
      Within B (warmFiles e m B ranges outputs l).log := by
  induction outputs with
  | nil => exact fun h => h
  | cons f fs ih =>
    intro l h
    cases f with
    | none =>
      rw [warmFiles]
      split_ifs with hover
      · exact h
      · exact ih h
    | some keys =>
      have hfile := scanRanges_within (e := e) hB m keys ranges h
      rw [warmFiles]
      simp only
      split_ifs with hover hexhausted
      · exact h
      · exact hfile
      · exact ih hfile

/-- The scan through the database, where `overBudget` is the job's budget. -/
theorem scanDb_within {overBudget : Log WarmOp → Bool}
    (hover : ∀ log, overBudget log ≠ true → charged log < B)
    (warmScanKeys : ℤ) (keys : List Bytes) : ∀ {n : ℤ} {log : Log WarmOp}, Within B log →
      Within B (scanDb e overBudget warmScanKeys keys n log).1 := by
  induction keys with
  | nil => exact fun h => h
  | cons k ks ih =>
    intro n log h
    rw [scanDb]
    split_ifs with hn hstop
    · exact h
    · exact ih (h.issue (hover _ hstop) _ _)
    · exact h

theorem charged_le_scanDb (overBudget : Log WarmOp → Bool) (warmScanKeys : ℤ) (keys : List Bytes) :
    ∀ (n : ℤ) (log : Log WarmOp),
      charged log ≤ charged (scanDb e overBudget warmScanKeys keys n log).1 := by
  induction keys with
  | nil => exact fun _ _ => le_rfl
  | cons k ks ih =>
    intro n log
    rw [scanDb]
    split_ifs with hn hstop
    · exact le_rfl
    · refine le_trans ?_ (ih (n + 1) (issue e.cost .next log))
      rw [charged_issue]
      exact Nat.le_add_right _ _
    · exact le_rfl

/-- What holds between two `Prefetch` calls of a job with budget `B`: every operation was issued
    below the budget, and the thread-local holds what is left of it. -/
structure Metered (B : ℕ) (l : PrefetchLoop) : Prop where
  within : Within B l.log
  left : l.budgetLeft = B - charged l.log

/-- One `Prefetch`, called while something is left. -/
theorem Metered.prefetch {l : PrefetchLoop} (h : Metered B l) (hleft : l.budgetLeft ≠ 0)
    (a : WarmAdapter) (e : WarmEngine) (b : BlockRef) : Metered B (a.prefetch e b l) := by
  unfold WarmAdapter.prefetch
  by_cases hdb : a.hasDb = true
  · have hl := h.left
    have hlt : charged l.log < B := by omega
    -- the test of this call is the test of the job
    have hover : ∀ log : Log WarmOp,
        decide (l.budgetLeft ≠ 0 ∧ l.budgetLeft ≤ charged log - charged l.log) ≠ true →
          charged log < B := by
      intro log hnot
      have hfew : ¬ (l.budgetLeft ≠ 0 ∧ l.budgetLeft ≤ charged log - charged l.log) :=
        fun hh => hnot (decide_eq_true hh)
      omega
    have hseek := h.within.issue hlt e.cost (.seek (a.core.mapper.rangeStartKey b.firstRange))
    have hgrow := charged_issue e.cost (.seek (a.core.mapper.rangeStartKey b.firstRange)) l.log
    rw [if_pos hdb]
    refine ⟨?_, ?_⟩
    · simp only
      split_ifs
      · exact hseek
      · exact scanDb_within hover _ _ hseek
    · simp only [if_pos hleft]
      split_ifs
      · simp only
        omega
      · have hmore := charged_le_scanDb (e := e)
          (fun log => decide (l.budgetLeft ≠ 0 ∧ l.budgetLeft ≤ charged log - charged l.log))
          a.warmScanKeys
          (e.seekTo (a.core.mapper.rangeStartKey b.firstRange)
            ((e.dbKeys l.log).filter fun k =>
              e.lt k (a.core.mapper.rangeStartKey (u64 (b.lastRange + 1))))) 0
          (issue e.cost (.seek (a.core.mapper.rangeStartKey b.firstRange)) l.log)
        omega
  · rw [if_neg hdb]
    exact h

/-- **The loop over the ranges**: a budget that is used up does not turn into "no budget". -/
theorem Metered.prefetchAll (hB : 1 ≤ B) (a : WarmAdapter) (e : WarmEngine)
    (chosen : List BlockRef) : ∀ {l : PrefetchLoop}, Metered B l →
      Metered B (a.prefetchAll e B chosen l) := by
  induction chosen with
  | nil => exact fun h => h
  | cons b bs ih =>
    intro l h
    rw [WarmAdapter.prefetchAll]
    split_ifs with hspent
    · exact h
    · exact ih (h.prefetch (fun hzero => hspent ⟨by omega, hzero⟩) a e b)

/-- **A job's warming stays within its budget**, in the modes that warm at its end. -/
theorem endWarm_within {a : WarmAdapter} (hB : 1 ≤ a.warmBlockBudget) (e : WarmEngine)
    (outputs : List (Option (List Bytes))) (chosen : List BlockRef) :
    Within a.warmBlockBudget (a.endWarm e outputs chosen).1 := by
  unfold WarmAdapter.endWarm WarmAdapter.warmFromFiles
  simp only
  split_ifs with hprepop hsst hnone
  · exact within_nil _
  · exact within_nil _
  · exact warmFiles_within hB _ _ _ (within_nil _)
  · exact (Metered.prefetchAll hB a e chosen ⟨within_nil _, rfl⟩).within

end Within

/-! ### `PrepopFilter::ShouldWarm` -/

/-- `ShouldWarm` for the job of a thread: the job after it, and the answer.  An internal key is
    a user key with a trailer of eight bytes. -/
def Adapter.shouldWarm (a : Adapter) (job : PrepopJob) (firstIkey lastIkey : Bytes) :
    PrepopJob × Bool :=
  if job.active = false ∨ job.hot = [] then (job, false)
  else if job.budgetLeft = 0 ∧ a.warmBlockBudget ≠ 0 then (job, false)
  else if firstIkey.length < 8 ∨ lastIkey.length < 8 then (job, false)
  else
    let x := a.core.mapper.map (firstIkey.take (firstIkey.length - 8))
    let y := a.core.mapper.map (lastIkey.take (lastIkey.length - 8))
    -- the two are swapped if they are out of order
    let lo := min x y
    let hi := max x y
    match job.hot[lowerBound (fun i => decide (job.hot.getD i 0 < lo)) job.hot.length]? with
    | none => (job, false)
    | some r =>
      if hi < r then (job, false)
      else if a.warmBlockBudget ≠ 0 then ({ job with budgetLeft := job.budgetLeft - 1 }, true)
      else (job, true)

/-- A `yes` takes one block off the budget, everything else leaves the job as it is. -/
theorem shouldWarm_spec {a : Adapter} (hB : 1 ≤ a.warmBlockBudget) (job : PrepopJob)
    (firstIkey lastIkey : Bytes) :
    a.shouldWarm job firstIkey lastIkey = (job, false) ∨
      (0 < job.budgetLeft ∧ a.shouldWarm job firstIkey lastIkey =
        ({ job with budgetLeft := job.budgetLeft - 1 }, true)) := by
  have hne : a.warmBlockBudget ≠ 0 := by omega
  unfold Adapter.shouldWarm
  split_ifs with hidle hspent hshort
  · exact Or.inl rfl
  · exact Or.inl rfl
  · exact Or.inl rfl
  · have hpos : 0 < job.budgetLeft := by
      rcases Nat.eq_zero_or_pos job.budgetLeft with hzero | hpos
      · exact absurd ⟨hzero, hne⟩ hspent
      · exact hpos
    simp only
    split
    · exact Or.inl rfl
    · split_ifs
      · exact Or.inl rfl
      · exact Or.inr ⟨hpos, rfl⟩

/-- A step of the adapter, or a question of the table builder on a background thread. -/
inductive BuildAct
  | act (x : Act)
  | shouldWarm (thread : ℕ) (firstIkey lastIkey : Bytes)

/-- One step; the answer if it was a question. -/
def buildStep (a : Adapter) : BuildAct → Adapter × Option Bool
  | .act x => ((step a x).1, none)
  | .shouldWarm thread firstIkey lastIkey =>
    let r := a.shouldWarm (a.prepopJob thread) firstIkey lastIkey
    ({ a with prepopJob := Function.update a.prepopJob thread r.1 }, some r.2)

/-- The blocks each thread's job has been granted since it began. -/
def noteGrant (granted : ℕ → ℕ) : BuildAct → Option Bool → ℕ → ℕ
  | .act ⟨_, .begin thread _ _ _ _⟩, _ => Function.update granted thread 0
  | .shouldWarm thread _ _, some true => Function.update granted thread (granted thread + 1)
  | _, _ => granted

/-- A `Begin` leaves the threads' jobs, or gives its own thread one with the full budget. -/
theorem begin_prepopJob (a : Adapter) (thread : ℕ) (job level : ℤ) (isFlush : Bool)
    (est mono : ℕ) :
    (a.begin thread job level isFlush est mono).1.warmBlockBudget = a.warmBlockBudget ∧
    ((a.begin thread job level isFlush est mono).1.prepopJob = a.prepopJob ∨
      ∃ hot, (a.begin thread job level isFlush est mono).1.prepopJob =
        Function.update a.prepopJob thread ⟨hot, a.warmBlockBudget, true⟩) := by
  unfold Adapter.begin
  simp only
  split_ifs
  · exact ⟨rfl, Or.inr ⟨_, rfl⟩⟩
  · exact ⟨rfl, Or.inl rfl⟩

/-- An `End` leaves the threads' jobs, or stops the one of its own thread. -/
theorem endTake_prepopJob (a : Adapter) (thread : ℕ) (job : ℤ) :
    (a.endTake thread job).1.warmBlockBudget = a.warmBlockBudget ∧
    ((a.endTake thread job).1.prepopJob = a.prepopJob ∨
      (a.endTake thread job).1.prepopJob = Function.update a.prepopJob thread
        { a.prepopJob thread with active := false, hot := [] }) := by
  unfold Adapter.endTake
  simp only
  split_ifs
  · exact ⟨rfl, Or.inr rfl⟩
  · exact ⟨rfl, Or.inl rfl⟩

/-- What a step of the adapter does to the budgets: only a `Begin` sets one, its own thread's. -/
theorem step_budgets (a : Adapter) (x : Act) :
    (step a x).1.warmBlockBudget = a.warmBlockBudget ∧
    ∀ thread, ((step a x).1.prepopJob thread).budgetLeft = (a.prepopJob thread).budgetLeft ∨
      (((step a x).1.prepopJob thread).budgetLeft = a.warmBlockBudget ∧
        ∃ job level isFlush est, x.action = .begin thread job level isFlush est) := by
  obtain ⟨mono, action⟩ := x
  cases action with
  | begin thread job level isFlush est =>
    obtain ⟨hbudget, hjobs⟩ := begin_prepopJob a thread job level isFlush est mono
    refine ⟨hbudget, fun t => ?_⟩
    show ((a.begin thread job level isFlush est mono).1.prepopJob t).budgetLeft = _ ∨
      ((a.begin thread job level isFlush est mono).1.prepopJob t).budgetLeft = _ ∧ _
    rcases hjobs with heq | ⟨hot, heq⟩
    · exact Or.inl (by rw [heq])
    · rw [heq]
      by_cases ht : t = thread
      · subst ht
        rw [Function.update_self]
        exact Or.inr ⟨rfl, job, level, isFlush, est, rfl⟩
      · rw [Function.update_of_ne ht]
        exact Or.inl rfl
  | endTake thread job =>
    obtain ⟨hbudget, hjobs⟩ := endTake_prepopJob a thread job
    refine ⟨hbudget, fun t => Or.inl ?_⟩
    show ((a.endTake thread job).1.prepopJob t).budgetLeft = _
    rcases hjobs with heq | heq
    · rw [heq]
    · rw [heq]
      by_cases ht : t = thread
      · subst ht
        rw [Function.update_self]
      · rw [Function.update_of_ne ht]
  | _ => exact ⟨rfl, fun t => Or.inl rfl⟩

/-- The grants of a thread's job and what is left to it do not exceed the budget. -/
def Granting (B : ℕ) (a : Adapter) (granted : ℕ → ℕ) : Prop :=
  a.warmBlockBudget = B ∧ ∀ thread, granted thread + (a.prepopJob thread).budgetLeft ≤ B

theorem buildStep_granting {B : ℕ} (hB : 1 ≤ B) {a : Adapter} {granted : ℕ → ℕ}
    (h : Granting B a granted) (x : BuildAct) :
    Granting B (buildStep a x).1 (noteGrant granted x (buildStep a x).2) := by
  obtain ⟨hbudget, hsum⟩ := h
  cases x with
  | act x =>
    obtain ⟨hsame, hleft⟩ := step_budgets a x
    refine ⟨hsame.trans hbudget, fun thread => ?_⟩
    have hthread := hsum thread
    show noteGrant granted (.act x) none thread + ((step a x).1.prepopJob thread).budgetLeft ≤ B
    -- a `Begin` on this thread starts the count again, on any other it is not concerned
    have hnote : noteGrant granted (.act x) none thread ≤ granted thread := by
      obtain ⟨mono, action⟩ := x
      cases action with
      | begin t job level isFlush est =>
        show Function.update granted t 0 thread ≤ granted thread
        exact update_le_self_iff.mpr (Nat.zero_le _) thread
      | _ => exact le_rfl
    rcases hleft thread with heq | ⟨heq, job, level, isFlush, est, hbegin⟩
    · omega
    · have hzero : noteGrant granted (.act x) none thread = 0 := by
        obtain ⟨mono, action⟩ := x
        cases hbegin
        exact Function.update_self thread 0 granted
      omega
  | shouldWarm thread firstIkey lastIkey =>
    refine ⟨hbudget, fun t => ?_⟩
    have ht := hsum t
    have hspec := shouldWarm_spec (by omega : 1 ≤ a.warmBlockBudget) (a.prepopJob thread)
      firstIkey lastIkey
    show noteGrant granted (.shouldWarm thread firstIkey lastIkey)
      (some (a.shouldWarm (a.prepopJob thread) firstIkey lastIkey).2) t +
      (Function.update a.prepopJob thread
        (a.shouldWarm (a.prepopJob thread) firstIkey lastIkey).1 t).budgetLeft ≤ B
    rcases hspec with heq | ⟨hpos, heq⟩
    · rw [heq, Function.update_eq_self]
      exact ht
    · rw [heq]
      show Function.update granted thread (granted thread + 1) t + _ ≤ B
      by_cases hthread : t = thread
      · subst hthread
        rw [Function.update_self, Function.update_self]
        show granted t + 1 + ((a.prepopJob t).budgetLeft - 1) ≤ B
        omega
      · rw [Function.update_of_ne hthread, Function.update_of_ne hthread]
        exact ht

/-- **The builder's filter along a run.** -/
theorem watch_granting {B : ℕ} (hB : 1 ≤ B) (xs : List BuildAct) : ∀ {a : Adapter}
    {granted : ℕ → ℕ}, Granting B a granted →
    Granting B (run buildStep a xs) (watch buildStep noteGrant a granted xs) := by
  induction xs with
  | nil => exact fun h => h
  | cons x xs ih => exact fun h => ih (buildStep_granting hB h x)

/-- **Warming stops within one read of its budget.** With a budget of `B ≥ 1` blocks, whatever
    the engine charges: at a job's end every `Seek` and `Next` is issued while fewer than `B`
    blocks have been charged, so the total is at most `B - 1` and one operation; and at no time
    has the builder's filter said yes to a thread's job more than `B` times since it began. -/
theorem warm_budget {a : WarmAdapter} (hB : 1 ≤ a.warmBlockBudget)
    (hidle : ∀ thread, a.prepopJob thread = {}) :
    (∀ e outputs chosen,
      Within a.warmBlockBudget (a.endWarm e outputs chosen).1 ∧
      (charged (a.endWarm e outputs chosen).1 ≤ a.warmBlockBudget - 1 ∨
        ∃ x ∈ (a.endWarm e outputs chosen).1,
          charged (a.endWarm e outputs chosen).1 ≤ a.warmBlockBudget - 1 + x.2)) ∧
    ∀ (xs : List BuildAct) thread,
      watch buildStep noteGrant a.toAdapter (fun _ => 0) xs thread ≤ a.warmBlockBudget := by
  refine ⟨fun e outputs chosen => ?_, fun xs thread => ?_⟩
  · have hwithin := endWarm_within hB e outputs chosen
    refine ⟨hwithin, ?_⟩
    rcases hwithin.charged_le with hnil | hlast
    · left
      rw [hnil, charged_nil]
      exact Nat.zero_le _
    · exact Or.inr hlast
  · have hstart : Granting a.warmBlockBudget a.toAdapter fun _ => 0 := by
      refine ⟨rfl, fun t => ?_⟩
      rw [hidle t]
      exact Nat.zero_le _
    have hend := (watch_granting hB xs hstart).2 thread
    omega

/-- An adapter with a budget of two blocks. -/
def smallBudget (mode : WarmMode) : WarmAdapter :=
  { sampleAdapter with warmMode := mode, warmBlockBudget := 2 }

/-- Keys compare by their first byte, and every operation reads one block. -/
def oneBlockEach : WarmEngine where
  cost _ _ := 1
  lt k l := decide (k.getD 0 0 < l.getD 0 0)
  dbKeys _ := []

/-- A job begins with range 2 hot, and the builder asks about three blocks of that range. -/
def threeQuestions : List BuildAct :=
  [.act ⟨5, .access false [2] 0⟩, .act ⟨1000005, .begin 0 1 1 false 10⟩] ++
    List.replicate 3 (.shouldWarm 0 (2 :: List.replicate 8 0) (2 :: List.replicate 8 0))

/-- In each mode. -/
theorem warm_budget_small :
    Within 2 ((smallBudget .iterator).endWarm oneBlockEach [some [[0], [1], [2]], some [[3]]]
      (candidates 4)).1 ∧
    Within 2 ((smallBudget .sst).endWarm oneBlockEach [some [[0], [1], [2]], some [[3]]]
      (candidates 4)).1 ∧
    watch buildStep noteGrant (smallBudget .prepop).toAdapter (fun _ => 0) threeQuestions 0 ≤ 2 :=
  ⟨((warm_budget (a := smallBudget .iterator) (by decide) fun _ => rfl).1 _ _ _).1,
    ((warm_budget (a := smallBudget .sst) (by decide) fun _ => rfl).1 _ _ _).1,
    (warm_budget (a := smallBudget .prepop) (by decide) fun _ => rfl).2 threeQuestions 0⟩

-- two blocks are read, for two ranges or for one and to leave it; the third question is refused
example :
    ((smallBudget .iterator).endWarm oneBlockEach [some [[0], [1], [2]], some [[3]]]
      (candidates 4)).1 = [(.seek [0], 1), (.seek [1], 1)] ∧
    (smallBudget .sst).endWarm oneBlockEach [some [[0], [1], [2]], some [[3]]] (candidates 4) =
      ([(.seek [0], 1), (.next, 1)], ⟨4, 2, 1, 1, 0⟩) ∧
    watch buildStep noteGrant (smallBudget .prepop).toAdapter (fun _ => 0) threeQuestions 0
      = 2 := by
  decide +kernel

end Leaper.RocksDB
