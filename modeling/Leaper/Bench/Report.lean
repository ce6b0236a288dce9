import Leaper.Bench.EventLog
import Leaper.Bench.StatsCache
import Leaper.Bench.WorkerClock
import Leaper.Core.Mapper
import Mathlib.Data.List.ReduceOption

namespace Leaper.Bench

open Lib Metrics

/-!
# What a run reports

The loop of `Run` writes a row of `timeseries.csv` for every second of the measured window, and
after it the events of the log; `tools/paper_metrics.py` reads both files.

* `timeseries_eq` — the seconds of the warmup leave nothing behind but the reading that the window
  opens with;
* `reportStep`, `writtenRows_spec` — the rows that a run of the benchmark writes beside its workers,
  each no earlier than its tick;
* `sum_column` — what a column of differences adds up to;
* `report_totals` — the totals that `paper_metrics.py` makes of the rows;
* `abs_csvTime_sub_le` — the time of an event in `events.csv`;
* `windows_shifted` — the windows of the events against the seconds of the rows.
-/

/-! ### The rows -/

/-- What the loop of `Run` reads at the end of a second. -/
structure Reading where
  reads : ℕ := 0
  writes : ℕ := 0
  cc : CacheCounters := {}
  rcur : List ℕ := List.replicate kNumBuckets 0
  wcur : List ℕ := List.replicate kNumBuckets 0
  comp : ℕ := 0
  flush : ℕ := 0
  move : ℕ := 0
  compactionsRunning : ℤ := 0
  sstFiles : ℕ := 0
  totalCharge : ℕ := 0
  invalidatedBlocks : ℕ := 0
  ssadSuspended : Bool := false

/-- The variables of the loop. -/
structure Reporter where
  rprev : List ℕ := List.replicate kNumBuckets 0
  wprev : List ℕ := List.replicate kNumBuckets 0
  prevReads : ℕ := 0
  prevWrites : ℕ := 0
  prevLookups : ℕ := 0
  prevHits : ℕ := 0
  prevComp : ℕ := 0
  prevFlush : ℕ := 0
  prevMove : ℕ := 0
  baseCc : CacheCounters := {}
  prevInvalidated : ℕ := 0

/-- A row of `timeseries.csv`. -/
structure CsvRow where
  t : ℕ
  qps : ℕ
  readQps : ℕ
  writeQps : ℕ
  blockLookups : ℕ
  blockHits : ℕ
  hitRatio : ℚ
  readP50Us : ℕ
  readP95Us : ℕ
  readP99Us : ℕ
  writeP99Us : ℕ
  compactionsRunning : ℤ
  compactionsDone : ℕ
  flushesDone : ℕ
  trivialMoves : ℕ
  cacheLiveMb : ℚ
  cacheStaleMb : ℚ
  staleIds : ℕ
  sstFiles : ℕ
  cacheChargeMb : ℚ
  invalidatedBlocks : ℕ
  pfEvicted : ℕ
  pfUsed : ℕ
  ssadSuspended : Bool
  pfInserted : ℕ
  pfReadOnce : ℕ
  bgLookups : ℕ
  bgHits : ℕ

namespace Reporter

/-- The window opens; `prev_invalidated` is not among what is set. -/
def openWindow (p : Reporter) (r : Reading) : Reporter :=
  { p with
    rprev := r.rcur, wprev := r.wcur, prevReads := r.reads, prevWrites := r.writes
    prevLookups := r.cc.lookups, prevHits := r.cc.hits, baseCc := r.cc
    prevComp := r.comp, prevFlush := r.flush, prevMove := r.move }

/-- `hit_ratio`. -/
def hitRatio (p : Reporter) (r : Reading) : ℚ :=
  let dLookups := sub64 r.cc.lookups p.prevLookups
  let dHits := sub64 r.cc.hits p.prevHits
  if 0 < dLookups then binary64 (binary64 dHits / binary64 dLookups) else 0

/-- The row of second `t` of the window. -/
def row (p : Reporter) (t : ℕ) (r : Reading) : CsvRow where
  t := t
  qps := u64 (sub64 r.reads p.prevReads + sub64 r.writes p.prevWrites)
  readQps := sub64 r.reads p.prevReads
  writeQps := sub64 r.writes p.prevWrites
  blockLookups := sub64 r.cc.lookups p.prevLookups
  blockHits := sub64 r.cc.hits p.prevHits
  hitRatio := p.hitRatio r
  readP50Us := percentile r.rcur p.rprev (1 / 2)
  readP95Us := percentile r.rcur p.rprev (binary64 (95 / 100))
  readP99Us := percentile r.rcur p.rprev (binary64 (99 / 100))
  writeP99Us := percentile r.wcur p.wprev (binary64 (99 / 100))
  compactionsRunning := r.compactionsRunning
  compactionsDone := sub64 r.comp p.prevComp
  flushesDone := sub64 r.flush p.prevFlush
  trivialMoves := sub64 r.move p.prevMove
  -- the division by a power of two is exact
  cacheLiveMb := binary64 r.cc.liveBytes / 1048576
  cacheStaleMb := binary64 r.cc.staleBytes / 1048576
  staleIds := r.cc.staleIds
  sstFiles := r.sstFiles
  cacheChargeMb := binary64 r.totalCharge / 1048576
  invalidatedBlocks := sub64 r.invalidatedBlocks p.prevInvalidated
  pfEvicted := sub64 r.cc.pfEvicted p.baseCc.pfEvicted
  pfUsed := sub64 r.cc.pfUsed p.baseCc.pfUsed
  ssadSuspended := r.ssadSuspended
  pfInserted := sub64 r.cc.pfInserted p.baseCc.pfInserted
  pfReadOnce := sub64 r.cc.pfReadOnce p.baseCc.pfReadOnce
  bgLookups := sub64 r.cc.bgLookups p.baseCc.bgLookups
  bgHits := sub64 r.cc.bgHits p.baseCc.bgHits

/-- The variables after a row. -/
def next (p : Reporter) (r : Reading) : Reporter :=
  { p with
    rprev := r.rcur, wprev := r.wcur, prevReads := r.reads, prevWrites := r.writes
    prevLookups := r.cc.lookups, prevHits := r.cc.hits
    prevComp := r.comp, prevFlush := r.flush, prevMove := r.move
    prevInvalidated := r.invalidatedBlocks }

/-- The body of the loop. The first second after the warmup opens the window, with the reading
    `warm`. -/
def second (warmup : ℕ) (warm : Reading) (reading : ℕ → Reading) (p : Reporter) (sec : ℕ) :
    Reporter × Option CsvRow :=
  let p := if sec = warmup + 1 then p.openWindow warm else p
  if sec ≤ warmup then (p, none)
  else (p.next (reading sec), some (p.row (sec - warmup) (reading sec)))

/-- The rows of some seconds of the window, from second `t` on. -/
def rows (p : Reporter) : ℕ → List Reading → List CsvRow
  | _, [] => []
  | t, r :: rs => p.row t r :: (p.next r).rows (t + 1) rs

end Reporter

/-- `timeseries.csv`, where second `sec` of the run ends with `reading sec`. -/
def timeseries (warmup duration : ℕ) (warm : Reading) (reading : ℕ → Reading) : List CsvRow :=
  (outs (Reporter.second warmup warm reading) {} (List.range' 1 (warmup + duration))).reduceOption

/-- The readings of the measured window. -/
def windowReadings (warmup duration : ℕ) (reading : ℕ → Reading) : List Reading :=
  (List.range' (warmup + 1) duration).map reading

section Loop

variable {warmup : ℕ} {warm : Reading} {reading : ℕ → Reading}

/-- The seconds of the warmup do nothing. -/
theorem second_warmup (p : Reporter) {sec : ℕ} (h : sec ≤ warmup) :
    Reporter.second warmup warm reading p sec = (p, none) := by
  unfold Reporter.second
  rw [if_pos h, if_neg (by omega)]

/-- The seconds of the warmup write no row. -/
theorem outs_warmup (p : Reporter) (secs rest : List ℕ) (h : ∀ sec ∈ secs, sec ≤ warmup) :
    (outs (Reporter.second warmup warm reading) p (secs ++ rest)).reduceOption =
      (outs (Reporter.second warmup warm reading) p rest).reduceOption := by
  induction secs with
  | nil => rfl
  | cons sec secs ih =>
    rw [List.cons_append, outs_cons, second_warmup p (h sec List.mem_cons_self)]
    exact ih fun s hs => h s (List.mem_cons_of_mem _ hs)

/-- The seconds after the first one of the window. -/
theorem outs_window (p : Reporter) {t : ℕ} (ht : 0 < t) (n : ℕ) :
    (outs (Reporter.second warmup warm reading) p
        (List.range' (warmup + t + 1) n)).reduceOption =
      p.rows (t + 1) ((List.range' (warmup + t + 1) n).map reading) := by
  induction n generalizing p t with
  | zero => rfl
  | succ n ih =>
    have hsecond : Reporter.second warmup warm reading p (warmup + t + 1) =
        (p.next (reading (warmup + t + 1)), some (p.row (t + 1) (reading (warmup + t + 1)))) := by
      unfold Reporter.second
      rw [if_neg (by omega), if_neg (by omega), show warmup + t + 1 - warmup = t + 1 by omega]
    rw [List.range'_succ, outs_cons, hsecond, List.map_cons, Reporter.rows]
    exact congrArg _ (ih (p.next _) (Nat.succ_pos t))

/-- **The rows of a run** are those of its window, from the reading that it opens with. -/
theorem timeseries_eq (duration : ℕ) :
    timeseries warmup duration warm reading =
      (({} : Reporter).openWindow warm).rows 1 (windowReadings warmup duration reading) := by
  unfold timeseries windowReadings
  rw [← List.range'_append_1, outs_warmup _ _ _ (fun sec hsec => by
    have hlt := List.mem_range'_1.mp hsec
    omega), Nat.add_comm 1 warmup]
  cases duration with
  | zero => rfl
  | succ n =>
    have hopen : Reporter.second warmup warm reading {} (warmup + 1) =
        ((({} : Reporter).openWindow warm).next (reading (warmup + 1)),
          some ((({} : Reporter).openWindow warm).row 1 (reading (warmup + 1)))) := by
      unfold Reporter.second
      rw [if_pos rfl, if_neg (by omega), Nat.add_sub_cancel_left]
    rw [List.range'_succ, outs_cons, hopen, List.map_cons, Reporter.rows]
    exact congrArg _ (outs_window _ Nat.zero_lt_one n)

end Loop

/-! ### The rows of a run -/

/-- A row, and when it was written. -/
structure Line where
  writtenAt : ℕ
  row : CsvRow

/-- The seconds whose turn in the loop of `Run` is through, of `total`. -/
def DriverPc.past (total : ℕ) : DriverPc → ℕ
  | .second sec | .tick sec | .asleep sec _ | .report sec => sec - 1
  | .stopped => total

/-- The seconds that the loop of `Run` can be in. -/
def DriverPc.Within (total : ℕ) : DriverPc → Prop
  | .second sec => 1 ≤ sec ∧ sec ≤ total + 1
  | .tick sec | .asleep sec _ | .report sec => 1 ≤ sec ∧ sec ≤ total
  | .stopped => True

theorem DriverPc.Within.past_le {total : ℕ} {d : DriverPc} (h : d.Within total) :
    d.past total ≤ total := by
  cases d with
  | stopped => exact le_rfl
  | _ => simp only [Within, past] at h ⊢; omega

/-- A turn of the loop of `Run` that reports nothing. -/
theorem drive_past {f : WorkerFlags} (now : ℕ) {s : Shared}
    (hd : s.driver.Within (f.warmup + f.duration)) (hidle : ∀ sec, s.driver ≠ .report sec) :
    (drive f now s).driver.Within (f.warmup + f.duration) ∧
      (drive f now s).driver.past (f.warmup + f.duration) =
        s.driver.past (f.warmup + f.duration) := by
  unfold drive
  cases hpc : s.driver with
  | second sec =>
    rw [hpc] at hd
    simp only [DriverPc.Within] at hd
    simp only
    split_ifs with hle
    · exact ⟨⟨hd.1, hle⟩, rfl⟩
    · refine ⟨trivial, ?_⟩
      simp only [DriverPc.past]
      omega
  | tick sec =>
    rw [hpc] at hd
    simp only
    split_ifs
    · exact ⟨hd, rfl⟩
    · exact ⟨hd, rfl⟩
  | asleep sec wake =>
    rw [hpc] at hd
    simp only
    split_ifs
    · exact ⟨hd, rfl⟩
    · rw [hpc]
      exact ⟨hd, rfl⟩
  | report sec => exact absurd hpc (hidle sec)
  | stopped =>
    simp only [hpc]
    exact ⟨trivial, trivial⟩

section Run

variable {ι σ : Type*} [DecidableEq ι]

/-- The benchmark takes a turn; a turn of the loop of `Run` at the end of a second may write a
    row. -/
def reportStep (f : WorkerFlags) (h : Host σ) (warm : Reading) (reading : ℕ → Reading)
    (x : Config ι Shared (Worker σ) × Reporter) (e : BenchEvent ι) :
    (Config ι Shared (Worker σ) × Reporter) × Option Line :=
  let c := (benchStep f h x.1 e).1
  match e, x.1.shared.driver with
  | .drive now, .report sec =>
    let r := Reporter.second f.warmup warm reading x.2 sec
    ((c, r.1), r.2.map fun row => ⟨now, row⟩)
  | _, _ => ((c, x.2), none)

def noteLine (lines : List Line) (_ : BenchEvent ι) (o : Option Line) : List Line :=
  lines ++ o.toList

/-- The rows of `timeseries.csv` that are written in a run whose workers start at `run_start_us`. -/
def writtenRows (f : WorkerFlags) (h : Host σ) (warm : Reading) (reading : ℕ → Reading)
    (runStartUs : ℕ) (rng : ι → σ) (es : List (BenchEvent ι)) : List Line :=
  watch (reportStep f h warm reading) noteLine (benchStart ι f runStartUs rng, {}) [] es

variable {f : WorkerFlags} {h : Host σ} {warm : Reading} {reading : ℕ → Reading}

/-- A row of the body of the loop is of a second of the window. -/
theorem second_row {p : Reporter} {sec : ℕ} {row : CsvRow}
    (hrow : (Reporter.second f.warmup warm reading p sec).2 = some row) :
    f.warmup + row.t = sec := by
  unfold Reporter.second at hrow
  split_ifs at hrow with hopen hwarm
  all_goals
    rw [← Option.some.inj hrow]
    exact Nat.add_sub_cancel' (by omega)

/-- **The loop of `Run` in a run of the benchmark**: what it has written, where it stands, and that
    it is not ahead of the clock. -/
structure Reported (f : WorkerFlags) (warm : Reading) (reading : ℕ → Reading) (start now : ℕ)
    (x : Config ι Shared (Worker σ) × Reporter) (lines : List Line) : Prop where
  runStart : x.1.shared.runStartUs = start
  onTime : x.1.shared.driver.OnTime start now
  within : x.1.shared.driver.Within (f.warmup + f.duration)
  reporter : x.2 = run (Reporter.second f.warmup warm reading) {}
    (List.range' 1 (x.1.shared.driver.past (f.warmup + f.duration)))
  rows : lines.map Line.row = (outs (Reporter.second f.warmup warm reading) {}
    (List.range' 1 (x.1.shared.driver.past (f.warmup + f.duration)))).reduceOption
  late : ∀ l ∈ lines, start + (f.warmup + l.row.t) * 1000000 ≤ l.writtenAt

omit [DecidableEq ι] in
/-- A turn in which nothing is reported. -/
theorem Reported.idle {start now now' : ℕ} {x : Config ι Shared (Worker σ) × Reporter}
    {lines : List Line} (hx : Reported f warm reading start now x lines)
    {c : Config ι Shared (Worker σ)} (hstart : c.shared.runStartUs = x.1.shared.runStartUs)
    (hon : c.shared.driver.OnTime start now')
    (hwithin : c.shared.driver.Within (f.warmup + f.duration))
    (hpast : c.shared.driver.past (f.warmup + f.duration) =
      x.1.shared.driver.past (f.warmup + f.duration)) :
    Reported f warm reading start now' (c, x.2) lines := by
  refine ⟨hstart.trans hx.runStart, hon, hwithin, ?_, ?_, hx.late⟩
  · rw [hpast]
    exact hx.reporter
  · rw [hpast]
    exact hx.rows

omit [DecidableEq ι] in
/-- The turn at the end of a second. -/
theorem Reported.report {start now : ℕ} {x : Config ι Shared (Worker σ) × Reporter}
    {lines : List Line} (hx : Reported f warm reading start now x lines) {sec : ℕ}
    (hpc : x.1.shared.driver = .report sec) :
    Reported f warm reading start now
      (⟨drive f now x.1.shared, x.1.pos⟩, (Reporter.second f.warmup warm reading x.2 sec).1)
      (lines ++ ((Reporter.second f.warmup warm reading x.2 sec).2.map fun row =>
        Line.mk now row).toList) := by
  obtain ⟨hstart, hon, hwithin, hreporter, hrows, hlate⟩ := hx
  rw [hpc] at hon hwithin hreporter hrows
  obtain ⟨hpos, hle⟩ : 1 ≤ sec ∧ sec ≤ f.warmup + f.duration := hwithin
  have hdrive : drive f now x.1.shared = { x.1.shared with driver := .second (sec + 1) } := by
    unfold drive
    simp only [hpc]
  have hpast : DriverPc.past (f.warmup + f.duration) (.report sec) = sec - 1 := rfl
  have hsecs : List.range' 1 sec = List.range' 1 (sec - 1) ++ [sec] := by
    obtain ⟨n, rfl⟩ := Nat.exists_eq_add_one_of_ne_zero (Nat.one_le_iff_ne_zero.mp hpos)
    rw [List.range'_1_concat, Nat.add_sub_cancel, Nat.add_comm 1 n]
  rw [hpast] at hreporter hrows
  rw [hdrive]
  refine ⟨hstart, ⟨Nat.le_add_left 1 sec, hon⟩, ⟨Nat.le_add_left 1 sec, Nat.succ_le_succ hle⟩,
    ?_, ?_, ?_⟩
  · show _ = run _ ({} : Reporter) (List.range' 1 sec)
    rw [hsecs, run_append, ← hreporter]
    rfl
  · show _ = (outs _ ({} : Reporter) (List.range' 1 sec)).reduceOption
    rw [hsecs, outs_append, List.map_append, hrows, ← hreporter, List.reduceOption_append]
    have houts : outs (Reporter.second f.warmup warm reading) x.2 [sec] =
      [(Reporter.second f.warmup warm reading x.2 sec).2] := rfl
    rw [houts]
    cases (Reporter.second f.warmup warm reading x.2 sec).2 <;> rfl
  · intro l hl
    rcases List.mem_append.mp hl with hold | hnew
    · exact hlate l hold
    · obtain ⟨row, hrow, rfl⟩ := Option.map_eq_some_iff.mp (Option.mem_toList.mp hnew)
      rw [second_row hrow]
      exact hon

/-- **One turn.** -/
theorem reported_step (g : ℕ) (x : Config ι Shared (Worker σ) × Reporter) (lines : List Line)
    {start : ℕ} (e : BenchEvent ι) (hok : (ticking ι).ok g e)
    (hx : Reported f warm reading start g x lines) :
    Reported f warm reading start ((ticking ι).next g e) (reportStep f h warm reading x e).1
      (noteLine lines e (reportStep f h warm reading x e).2) := by
  have hle : g ≤ e.now := hok
  have hlater : Reported f warm reading start e.now x lines :=
    ⟨hx.runStart, hx.onTime.later hle, hx.within, hx.reporter, hx.rows, hx.late⟩
  cases e with
  | work u now ok =>
    -- a worker does not move Run's loop
    have hsame : (act f h now ok x.1.shared (x.1.pos u)).1.driver = x.1.shared.driver :=
      (act_move f h now ok x.1.shared (x.1.pos u)).flags.2
    have hidle : Reported f warm reading start now ((benchStep f h x.1 (.work u now ok)).1, x.2)
        lines := by
      refine hlater.idle (benchStep_settings f h x.1 (.work u now ok)).1 ?_ ?_ (congrArg _ hsame)
      · exact hsame.symm ▸ hlater.onTime
      · exact hsame.symm ▸ hlater.within
    show Reported f warm reading start now _ (lines ++ [])
    rw [List.append_nil]
    exact hidle
  | drive now =>
    by_cases hreport : ∃ sec, x.1.shared.driver = .report sec
    · -- the loop is at the line that writes a row
      obtain ⟨sec, hpc⟩ := hreport
      have hstep : reportStep f h warm reading x (.drive now) =
          ((⟨drive f now x.1.shared, x.1.pos⟩,
            (Reporter.second f.warmup warm reading x.2 sec).1),
            (Reporter.second f.warmup warm reading x.2 sec).2.map fun row => ⟨now, row⟩) := by
        unfold reportStep
        simp only [hpc]
        rfl
      rw [hstep]
      exact hlater.report hpc
    · -- it is anywhere else, and writes nothing
      have hpc : ∀ sec, x.1.shared.driver ≠ .report sec := fun sec heq => hreport ⟨sec, heq⟩
      have hstep : reportStep f h warm reading x (.drive now) =
          ((⟨drive f now x.1.shared, x.1.pos⟩, x.2), none) := by
        unfold reportStep
        cases hd : x.1.shared.driver with
        | report sec => exact absurd hd (hpc sec)
        | _ => rfl
      rw [hstep]
      obtain ⟨hwithin, hpast⟩ := drive_past now hx.within hpc
      show Reported f warm reading start now _ (lines ++ [])
      rw [List.append_nil]
      exact hlater.idle (c := ⟨drive f now x.1.shared, x.1.pos⟩)
        (benchStep_settings f h x.1 (.drive now)).1
        (drive_onTime hx.runStart hlater.onTime) hwithin hpast

/-- The rows do not disturb the benchmark. -/
theorem run_reportStep (f : WorkerFlags) (h : Host σ) (warm : Reading) (reading : ℕ → Reading)
    (es : List (BenchEvent ι)) (x : Config ι Shared (Worker σ) × Reporter) :
    (run (reportStep f h warm reading) x es).1 = run (benchStep f h) x.1 es := by
  induction es generalizing x with
  | nil => rfl
  | cons e es ih =>
    have hstep : (reportStep f h warm reading x e).1.1 = (benchStep f h x.1 e).1 := by
      unfold reportStep
      simp only
      split <;> rfl
    rw [run_cons, run_cons, ih, hstep]

/-- **The rows of a run** by a clock that never goes back: they are the first rows of the loop, all
    of them when it has stopped, and each is written at its tick or later. -/
theorem writtenRows_spec (runStartUs : ℕ) (rng : ι → σ) {es : List (BenchEvent ι)}
    (hacc : (ticking ι).Accepts runStartUs es) :
    let s := (run (benchStep f h) (benchStart ι f runStartUs rng) es).shared
    let lines := writtenRows f h warm reading runStartUs rng es
    lines.map Line.row <+: timeseries f.warmup f.duration warm reading ∧
    (s.driver = .stopped → lines.map Line.row = timeseries f.warmup f.duration warm reading) ∧
    ∀ l ∈ lines, s.tick (f.warmup + l.row.t) ≤ l.writtenAt := by
  have hrun := (ticking ι).watch_invariant (P := Reported f warm reading runStartUs)
    (fun g x lines e => reported_step (h := h) g x lines e) hacc
    (s := (benchStart ι f runStartUs rng, ({} : Reporter))) (t := ([] : List Line))
    ⟨rfl, ⟨le_rfl, le_rfl⟩, ⟨le_rfl, Nat.le_add_left 1 _⟩, rfl, rfl,
      fun _ hl => absurd hl List.not_mem_nil⟩
  have hfirst := run_reportStep f h warm reading es (benchStart ι f runStartUs rng, {})
  obtain ⟨hstart, -, hwithin, -, hrows, hlate⟩ := hrun
  rw [hfirst] at hstart hwithin hrows
  refine ⟨?_, ?_, ?_⟩
  · -- the seconds that are through are the first ones of the run
    obtain ⟨rest, hrest⟩ := Nat.exists_eq_add_of_le hwithin.past_le
    show (List.map _ _) <+: (outs _ _ (List.range' 1 (f.warmup + f.duration))).reduceOption
    rw [hrest, ← List.range'_append_1, outs_append, List.reduceOption_append, ← hrows]
    exact List.prefix_append _ _
  · intro hstopped
    rw [hstopped] at hrows
    exact hrows
  · intro l hl
    show _ + _ * 1000000 ≤ _
    rw [hstart]
    exact hlate l hl

end Run

/-! ### Columns -/

/-- What grows from a reading to the next one. -/
structure Reading.Grows (a b : Reading) : Prop where
  reads : a.reads ≤ b.reads
  writes : a.writes ≤ b.writes
  total : b.reads + b.writes < 2 ^ 64
  lookups : a.cc.lookups ≤ b.cc.lookups
  hits : a.cc.hits ≤ b.cc.hits
  invalidated : a.invalidatedBlocks ≤ b.invalidatedBlocks
  inserted : a.cc.pfInserted ≤ b.cc.pfInserted

/-- No variable of the loop is ahead of the reading. -/
structure Reporter.Before (p : Reporter) (r : Reading) : Prop where
  reads : p.prevReads ≤ r.reads
  writes : p.prevWrites ≤ r.writes
  total : r.reads + r.writes < 2 ^ 64
  lookups : p.prevLookups ≤ r.cc.lookups
  hits : p.prevHits ≤ r.cc.hits
  invalidated : p.prevInvalidated ≤ r.invalidatedBlocks
  inserted : p.baseCc.pfInserted ≤ r.cc.pfInserted

/-- The readings of some seconds, in their order. -/
def Reporter.Follows (p : Reporter) : List Reading → Prop
  | [] => True
  | r :: rs => p.Before r ∧ (p.next r).Follows rs

/-- Counters that grow stay ahead of what was noted of them. -/
theorem Reporter.Before.next {p : Reporter} {r r' : Reading} (h : p.Before r)
    (hgrows : r.Grows r') : (p.next r).Before r' where
  reads := hgrows.reads
  writes := hgrows.writes
  total := hgrows.total
  lookups := hgrows.lookups
  hits := hgrows.hits
  invalidated := hgrows.invalidated
  inserted := h.inserted.trans hgrows.inserted

/-- Along a run of growing readings no difference wraps around. -/
theorem follows_of_isChain {rs : List Reading} :
    ∀ {p : Reporter} {r : Reading}, p.Before r → (r :: rs).IsChain Reading.Grows →
      p.Follows (r :: rs) := by
  induction rs with
  | nil => exact fun h _ => ⟨h, trivial⟩
  | cons r' rs ih =>
    intro p r h hchain
    obtain ⟨hgrows, hchain⟩ := List.isChain_cons_cons.mp hchain
    exact ⟨h, ih (h.next hgrows) hchain⟩

/-- The window opens. -/
theorem follows_openWindow {warm : Reading} {rs : List Reading}
    (hchain : (warm :: rs).IsChain Reading.Grows) :
    (({} : Reporter).openWindow warm).Follows rs := by
  cases rs with
  | nil => trivial
  | cons r rs =>
    obtain ⟨hgrows, hchain⟩ := List.isChain_cons_cons.mp hchain
    exact follows_of_isChain ⟨hgrows.reads, hgrows.writes, hgrows.total, hgrows.lookups,
      hgrows.hits, Nat.zero_le _, hgrows.inserted⟩ hchain

/-- **A column of differences.** Let a field of a row be how much a counter has grown since the row
    before. It adds up to how much the counter has grown since the variable was set. -/
theorem sum_column (field : CsvRow → ℕ) (counter : Reading → ℕ) (prev : Reporter → ℕ)
    (hrow : ∀ {p : Reporter} (t : ℕ) {r : Reading}, p.Before r →
      field (p.row t r) + prev p = counter r)
    (hnext : ∀ (p : Reporter) (r : Reading), prev (p.next r) = counter r) (rs : List Reading) :
    ∀ {p : Reporter} (t : ℕ), p.Follows rs →
      ((p.rows t rs).map field).sum + prev p = (rs.map counter).getLastD (prev p) := by
  induction rs with
  | nil => exact fun _ _ => Nat.zero_add _
  | cons r rs ih =>
    intro p t hfollows
    have hrest := ih (t + 1) hfollows.2
    have hfirst := hrow t hfollows.1
    rw [hnext] at hrest
    rw [Reporter.rows, List.map_cons, List.map_cons, List.sum_cons, List.getLastD_cons]
    omega

/-- The last row, and the variables it was written from. -/
theorem getLast?_rows {p : Reporter} {t : ℕ} {rs : List Reading} {r : Reading}
    (hfollows : p.Follows rs) (hlast : rs.getLast? = some r) :
    ∃ (q : Reporter) (t' : ℕ), (p.rows t rs).getLast? = some (q.row t' r) ∧ q.Before r ∧
      q.baseCc = p.baseCc := by
  induction rs generalizing p t with
  | nil => exact absurd hlast (by simp)
  | cons r' rs ih =>
    cases rs with
    | nil =>
      obtain rfl : r' = r := by simpa using hlast
      exact ⟨p, t, rfl, hfollows.1, rfl⟩
    | cons r'' rs =>
      obtain ⟨q, t', hq, hbefore, hbase⟩ := ih (t := t + 1) hfollows.2 (by simpa using hlast)
      refine ⟨q, t', ?_, hbefore, hbase⟩
      rw [Reporter.rows]
      simpa [Reporter.rows] using hq

/-! ### The report of the rows -/

/-- A row as `csv.DictReader` gives it to `paper_metrics.py`. -/
def CsvRow.toRow (r : CsvRow) : Metrics.Row where
  t := r.t
  qps := r.qps
  blockLookups := r.blockLookups
  blockHits := r.blockHits
  readP95Us := r.readP95Us
  readP99Us := r.readP99Us
  invalidatedBlocks := some r.invalidatedBlocks
  pfEvicted := some r.pfEvicted
  pfUsed := some r.pfUsed
  pfInserted := some r.pfInserted
  pfReadOnce := some r.pfReadOnce

/-- What a row adds to the totals. -/
theorem addRow_totals (spans : List (ℚ × ℚ)) (out : Summary) (r : CsvRow) :
    (addRow spans out r.toRow).qpsIn.sum + (addRow spans out r.toRow).qpsOut.sum =
        out.qpsIn.sum + out.qpsOut.sum + r.qps ∧
      (addRow spans out r.toRow).lookAll = out.lookAll + r.blockLookups ∧
      (addRow spans out r.toRow).missAll = out.missAll + (r.blockLookups - r.blockHits) ∧
      (addRow spans out r.toRow).inval = out.inval + r.invalidatedBlocks := by
  unfold addRow
  by_cases hin : inWindow r.toRow.t spans = true
  · simp only [hin, if_true, List.sum_append, List.sum_singleton]
    exact ⟨add_right_comm _ _ _, rfl, rfl, rfl⟩
  · simp only [hin, if_false, List.sum_append, List.sum_singleton, Bool.false_eq_true]
    exact ⟨(add_assoc _ _ _).symm, rfl, rfl, rfl⟩

/-- A total that every row adds to. -/
theorem foldl_addRow {spans : List (ℚ × ℚ)} (total : Summary → ℚ) (field : CsvRow → ℕ)
    (hadd : ∀ out r, total (addRow spans out (CsvRow.toRow r)) = total out + field r)
    (rows : List CsvRow) (out : Summary) :
    total ((rows.map CsvRow.toRow).foldl (addRow spans) out) =
      total out + ((rows.map field).sum : ℕ) := by
  induction rows generalizing out with
  | nil => exact (add_zero _).symm
  | cons r rows ih =>
    rw [List.map_cons, List.foldl_cons, ih, hadd, List.map_cons, List.sum_cons]
    push_cast
    ring

/-- The totals of a report. -/
structure Totals (out : Summary) (qps lookups hits invalidated : ℕ) : Prop where
  ops : out.qpsIn.sum + out.qpsOut.sum = qps
  look : out.lookAll = lookups
  miss : out.missAll + hits = lookups
  inval : out.inval = invalidated

/-- The sums of `summarise` are those of the rows. -/
theorem totals_foldl (spans : List (ℚ × ℚ)) (rows : List CsvRow) (n spikes : ℕ) :
    Totals ((rows.map CsvRow.toRow).foldl (addRow spans) { secs := n, spikes := spikes })
      (rows.map CsvRow.qps).sum (rows.map CsvRow.blockLookups).sum (rows.map CsvRow.blockHits).sum
      (rows.map CsvRow.invalidatedBlocks).sum := by
  have hops := foldl_addRow (fun out => out.qpsIn.sum + out.qpsOut.sum) CsvRow.qps
    (fun out r => (addRow_totals spans out r).1) rows { secs := n, spikes := spikes }
  have hlook := foldl_addRow Summary.lookAll CsvRow.blockLookups
    (fun out r => (addRow_totals spans out r).2.1) rows { secs := n, spikes := spikes }
  have hhits := foldl_addRow (fun out => out.lookAll - out.missAll) CsvRow.blockHits
    (fun out r => by
      obtain ⟨-, hlook, hmiss, -⟩ := addRow_totals spans out r
      rw [hlook, hmiss]
      ring) rows { secs := n, spikes := spikes }
  have hinval := foldl_addRow Summary.inval CsvRow.invalidatedBlocks
    (fun out r => (addRow_totals spans out r).2.2.2) rows { secs := n, spikes := spikes }
  simp only [List.sum_nil, add_zero, zero_add, sub_zero] at hops hlook hhits hinval
  exact ⟨hops, hlook, by rw [← hhits, ← hlook]; ring, hinval⟩

/-- The precision does not touch the totals. -/
theorem Totals.withPfPrec {out : Summary} {qps lookups hits invalidated : ℕ}
    (h : Totals out qps lookups hits invalidated) (first last : Row) :
    Totals (withPfPrec first last out) qps lookups hits invalidated := by
  unfold Metrics.withPfPrec
  split_ifs <;> exact ⟨h.ops, h.look, h.miss, h.inval⟩

/-- The prefetched blocks of a report are those between two rows. -/
theorem withPfPrec_pfInserted {first last : Row} {out : Summary} (hout : out.pfInserted = 0)
    (hsome : last.pfInserted.isSome = true) (hle : 0 ≤ delta first last Row.pfInserted) :
    (withPfPrec first last out).pfInserted = delta first last Row.pfInserted := by
  unfold withPfPrec
  rcases hle.eq_or_lt with heq | hlt
  · rw [if_neg (fun h => absurd h.2 (by rw [← heq]; exact lt_irrefl _)), ← heq]
    split_ifs <;> exact hout
  · rw [if_pos ⟨hsome, hlt⟩]

/-- The loop over the rows leaves `pf_inserted` to the end. -/
theorem foldl_addRow_pfInserted (spans : List (ℚ × ℚ)) (rows : List Row) (out : Summary) :
    (rows.foldl (addRow spans) out).pfInserted = out.pfInserted := by
  induction rows generalizing out with
  | nil => rfl
  | cons r rows ih =>
    rw [List.foldl_cons, ih]
    unfold addRow
    by_cases hin : inWindow r.t spans = true <;> simp only [hin, if_true, if_false,
      Bool.false_eq_true]

/-- The report of some rows. -/
theorem exists_summarise_rows {rows : List CsvRow} {first last : CsvRow}
    (hfirst : rows.head? = some first) (hlast : rows.getLast? = some last)
    (hle : 0 ≤ delta first.toRow last.toRow Row.pfInserted) (events : Option (List BgEvent))
    (t2 k : ℚ) :
    ∃ out, summarise (some (rows.map CsvRow.toRow)) events t2 k = .ok (some out) ∧
      Totals out (rows.map CsvRow.qps).sum (rows.map CsvRow.blockLookups).sum
        (rows.map CsvRow.blockHits).sum (rows.map CsvRow.invalidatedBlocks).sum ∧
      out.pfInserted = delta first.toRow last.toRow Row.pfInserted := by
  refine ⟨withPfPrec first.toRow last.toRow ((rows.map CsvRow.toRow).foldl
    (addRow (readWindows events t2)) { secs := (rows.map CsvRow.toRow).length
                                       spikes := spikes k (rows.map CsvRow.toRow) }), ?_,
    (totals_foldl _ rows _ _).withPfPrec _ _,
    withPfPrec_pfInserted (foldl_addRow_pfInserted _ _ _) rfl hle⟩
  show some <$> summariseRows (readWindows events t2) k (rows.map CsvRow.toRow) = _
  unfold summariseRows
  rw [List.head?_map, hfirst, List.getLast?_map, hlast]
  rfl

theorem sub64_add_cancel {a b : ℕ} (h : b ≤ a) : sub64 a b + b = a := by
  rw [sub64_of_le h, Nat.sub_add_cancel h]

/-- A row's `qps` is what was added since the row before. -/
theorem row_qps {p : Reporter} (t : ℕ) {r : Reading} (h : p.Before r) :
    (p.row t r).qps + (p.prevReads + p.prevWrites) = r.reads + r.writes := by
  have hreads := sub64_add_cancel h.reads
  have hwrites := sub64_add_cancel h.writes
  have htotal := h.total
  show u64 (sub64 r.reads p.prevReads + sub64 r.writes p.prevWrites) + _ = _
  rw [u64_of_lt (by omega)]
  omega

/-- The columns of the window's rows that the report adds up. -/
theorem sum_columns {warm : Reading} {rs : List Reading} {last : Reading}
    (hfollows : (({} : Reporter).openWindow warm).Follows rs) (hlast : rs.getLast? = some last) :
    let rows := (({} : Reporter).openWindow warm).rows 1 rs
    (rows.map CsvRow.qps).sum + (warm.reads + warm.writes) = last.reads + last.writes ∧
      (rows.map CsvRow.blockLookups).sum + warm.cc.lookups = last.cc.lookups ∧
      (rows.map CsvRow.blockHits).sum + warm.cc.hits = last.cc.hits ∧
      (rows.map CsvRow.invalidatedBlocks).sum = last.invalidatedBlocks := by
  have hend : ∀ (counter : Reading → ℕ) (n : ℕ), (rs.map counter).getLastD n = counter last := by
    intro counter n
    rw [List.getLastD_eq_getLast?, List.getLast?_map, hlast]
    rfl
  have hqps := sum_column CsvRow.qps (fun r => r.reads + r.writes)
    (fun p => p.prevReads + p.prevWrites) row_qps (fun _ _ => rfl) rs 1 hfollows
  have hlookups := sum_column CsvRow.blockLookups (fun r => r.cc.lookups) Reporter.prevLookups
    (fun _ _ h => sub64_add_cancel h.lookups) (fun _ _ => rfl) rs 1 hfollows
  have hhits := sum_column CsvRow.blockHits (fun r => r.cc.hits) Reporter.prevHits
    (fun _ _ h => sub64_add_cancel h.hits) (fun _ _ => rfl) rs 1 hfollows
  have hinval := sum_column CsvRow.invalidatedBlocks Reading.invalidatedBlocks
    Reporter.prevInvalidated (fun _ _ h => sub64_add_cancel h.invalidated) (fun _ _ => rfl)
    rs 1 hfollows
  rw [hend] at hqps hlookups hhits hinval
  exact ⟨hqps, hlookups, hhits, hinval⟩

/-- The prefetched blocks between two rows. -/
theorem delta_row_pfInserted {p q : Reporter} {r r' : Reading} (hp : p.Before r) (hq : q.Before r')
    (hbase : q.baseCc = p.baseCc) (t t' : ℕ) :
    delta (p.row t r).toRow (q.row t' r').toRow Row.pfInserted =
      r'.cc.pfInserted - r.cc.pfInserted := by
  have hfirst : ((p.row t r).pfInserted : ℚ) + p.baseCc.pfInserted = r.cc.pfInserted := by
    exact_mod_cast sub64_add_cancel hp.inserted
  have hlast : ((q.row t' r').pfInserted : ℚ) + q.baseCc.pfInserted = r'.cc.pfInserted := by
    exact_mod_cast sub64_add_cancel hq.inserted
  rw [hbase] at hlast
  show ((q.row t' r').pfInserted : ℚ) - (p.row t r).pfInserted = _
  linarith

theorem pfInserted_le_last {rs : List Reading} {last : Reading} :
    ∀ {r : Reading}, (r :: rs).IsChain Reading.Grows → (r :: rs).getLast? = some last →
      r.cc.pfInserted ≤ last.cc.pfInserted := by
  induction rs with
  | nil =>
    intro r _ hlast
    obtain rfl : r = last := by simpa using hlast
    exact le_rfl
  | cons r' rs ih =>
    intro r hchain hlast
    obtain ⟨hgrows, hchain⟩ := List.isChain_cons_cons.mp hchain
    exact hgrows.inserted.trans (ih hchain (by simpa using hlast))

theorem getLast?_windowReadings (warmup n : ℕ) (reading : ℕ → Reading) :
    (windowReadings warmup (n + 1) reading).getLast? = some (reading (warmup + (n + 1))) := by
  unfold windowReadings
  rw [List.range'_concat, List.map_append, List.getLast?_append]
  simp [Nat.add_comm, Nat.add_left_comm]

/-- **What the report totals.** Let the counters grow. Whatever the events and the limits are, the
    report counts the operations, the lookups and the misses of the measured window; but as
    invalidated it counts all blocks since the database was opened, also those of the warmup and of
    the fill, and of the prefetched blocks it leaves out those of the window's first second. -/
theorem report_totals {warmup duration : ℕ} {warm : Reading} {reading : ℕ → Reading}
    (hduration : 0 < duration)
    (hgrows : (warm :: windowReadings warmup duration reading).IsChain Reading.Grows)
    (events : Option (List BgEvent)) (t2 k : ℚ) :
    ∃ out,
      summarise (some ((timeseries warmup duration warm reading).map CsvRow.toRow)) events t2 k =
        .ok (some out) ∧
      let first := reading (warmup + 1)
      let last := reading (warmup + duration)
      (out.qpsIn.sum + out.qpsOut.sum : ℚ) =
          (last.reads + last.writes) - (warm.reads + warm.writes) ∧
        out.lookAll = last.cc.lookups - warm.cc.lookups ∧
        out.missAll = (last.cc.lookups - last.cc.hits) - (warm.cc.lookups - warm.cc.hits) ∧
        out.inval = last.invalidatedBlocks ∧
        out.pfInserted = last.cc.pfInserted - first.cc.pfInserted := by
  obtain ⟨n, rfl⟩ := Nat.exists_eq_add_one_of_ne_zero hduration.ne'
  have hfollows := follows_openWindow hgrows
  have hlast := getLast?_windowReadings warmup n reading
  obtain ⟨q, t', hq, hbefore, hbase⟩ := getLast?_rows (t := 1) hfollows hlast
  obtain ⟨hqps, hlookups, hhits, hinval⟩ := sum_columns hfollows hlast
  rw [timeseries_eq]
  -- the first row is written from the variables that the window opens with
  have hdelta := delta_row_pfInserted hfollows.1 hbefore hbase 1 t'
  have hle : ((reading (warmup + 1)).cc.pfInserted : ℚ) ≤
      (reading (warmup + (n + 1))).cc.pfInserted := by
    exact_mod_cast pfInserted_le_last (List.isChain_cons_cons.mp hgrows).2 hlast
  obtain ⟨out, hout, htotals, hinserted⟩ := exists_summarise_rows rfl hq
    (by rw [hdelta]; linarith) events t2 k
  refine ⟨out, hout, ?_, ?_, ?_, ?_, hinserted.trans hdelta⟩
  · rw [htotals.ops, eq_sub_iff_add_eq]
    exact_mod_cast hqps
  · rw [htotals.look, eq_sub_iff_add_eq]
    exact_mod_cast hlookups
  · have hmiss := htotals.miss
    have hlooked := congrArg (Nat.cast : ℕ → ℚ) hlookups
    have hhit := congrArg (Nat.cast : ℕ → ℚ) hhits
    rw [Nat.cast_add] at hlooked hhit
    linarith
  · rw [htotals.inval]
    exact_mod_cast hinval

/-- The reading that a window opens with after a fill. -/
def afterFill : Reading :=
  { reads := 10, writes := 2, cc := { lookups := 8, hits := 5, pfInserted := 3 }
    invalidatedBlocks := 5 }

/-- The reading of second `sec`. -/
def busySecond (sec : ℕ) : Reading :=
  { reads := 10 + 10 * sec, writes := 2 + sec
    cc := { lookups := 8 + 4 * sec, hits := 5 + 3 * sec, pfInserted := 3 + sec }
    invalidatedBlocks := 5 + 2 * sec }

/-- Of 9 invalidated blocks 4 are of the window. -/
theorem report_totals_busySecond :
    ∃ out, summarise (some ((timeseries 0 2 afterFill busySecond).map CsvRow.toRow)) none 2 2 =
        .ok (some out) ∧
      out.inval = 9 ∧ out.pfInserted = 1 ∧
      (busySecond 2).invalidatedBlocks - afterFill.invalidatedBlocks = 4 := by
  have hgrows : (afterFill :: windowReadings 0 2 busySecond).IsChain Reading.Grows :=
    .cons_cons ⟨by decide, by decide, by decide, by decide, by decide, by decide, by decide⟩
      (.cons_cons ⟨by decide, by decide, by decide, by decide, by decide, by decide, by decide⟩
        (.singleton _))
  obtain ⟨out, hout, -, -, -, hinval, hinserted⟩ :=
    report_totals (by decide) hgrows none 2 2
  refine ⟨out, hout, ?_, ?_, rfl⟩
  · rw [hinval]
    norm_num [busySecond]
  · rw [hinserted]
    norm_num [busySecond]

/-! ### The windows of the events -/

/-- A number as it is printed with three decimals and read again. -/
def csv3 (q : ℚ) : ℚ := binary64 (roundEven (q * 1000) / 1000)

/-- The time of an event in `events.csv`. -/
def csvTime (warmup : ℕ) (e : LogEvent) : ℚ := csv3 (binary64 (e.tSecs - warmup))

/-- `events.csv`, with the columns that `paper_metrics.py` reads. -/
def eventsCsv (warmup : ℕ) (events : List LogEvent) : List BgEvent :=
  events.map fun e => ⟨csvTime warmup e, e.type⟩

/-- The error of a double below `2^32`. -/
theorem abs_binary64_sub_le {q : ℚ} (h : |q| < 2 ^ 32) : |binary64 q - q| ≤ 1 / 2 ^ 22 := by
  have herr := abs_roundSig_sub_le_zpow (p := 53) (q := q) (e := 31) (by exact_mod_cast h)
  norm_num at herr ⊢
  exact herr

/-- What three printed decimals and the reading back are off by. -/
theorem abs_csv3_sub_le {q : ℚ} (h : |q| < 2 ^ 31) : |csv3 q - q| ≤ 1 / 2000 + 1 / 2 ^ 22 := by
  have hround := abs_roundEven_sub_le (q * 1000)
  have hdec : |(roundEven (q * 1000) : ℚ) / 1000 - q| ≤ 1 / 2000 := by
    rw [abs_le] at hround ⊢
    constructor <;> linarith [hround.1, hround.2]
  have hlt : |(roundEven (q * 1000) : ℚ) / 1000| < 2 ^ 32 := by
    rw [abs_lt] at h ⊢
    rw [abs_le] at hdec
    constructor <;> linarith [hdec.1, hdec.2, h.1, h.2]
  have hbin := abs_binary64_sub_le hlt
  unfold csv3
  rw [abs_le] at hdec hbin ⊢
  constructor <;> linarith [hdec.1, hdec.2, hbin.1, hbin.2]

/-- **The time of an event** in `events.csv`, to less than a millisecond: the seconds since the
    program started, less the warmup. -/
theorem abs_csvTime_sub_le {warmup startUs u : ℕ} {e : LogEvent} (hu : startUs ≤ u)
    (hlt : u < startUs + 2 ^ 50) (hwarmup : warmup ≤ 2 ^ 30) (he : e.tSecs = elapsed startUs u) :
    |csvTime warmup e - (((u : ℚ) - startUs) / 1000000 - warmup)| ≤ 3 / 4000 := by
  have hsub : ((sub64 u startUs : ℕ) : ℚ) = u - startUs := by
    rw [sub64_of_le hu, Nat.cast_sub hu]
  have hexact : elapsed startUs u = binary64 (((u : ℚ) - startUs) / 1000000) := by
    unfold elapsed
    rw [binary64_natCast (by rw [sub64_of_le hu]; omega), hsub]
  have hpos : (0 : ℚ) ≤ u - startUs := sub_nonneg.mpr (by exact_mod_cast hu)
  have hsmall : (u : ℚ) - startUs < 2 ^ 50 := by
    have : (u : ℚ) < startUs + 2 ^ 50 := by exact_mod_cast hlt
    linarith
  have hwarm : (warmup : ℚ) ≤ 2 ^ 30 := by exact_mod_cast hwarmup
  have hwarm0 : (0 : ℚ) ≤ warmup := Nat.cast_nonneg _
  -- three roundings: of the seconds, of the difference, and to the decimals of the file
  have hsecs := abs_binary64_sub_le (q := ((u : ℚ) - startUs) / 1000000)
    (by rw [abs_lt]; constructor <;> linarith)
  rw [← hexact, ← he, abs_le] at hsecs
  have hdiff := abs_binary64_sub_le (q := e.tSecs - warmup)
    (by rw [abs_lt]; constructor <;> linarith [hsecs.1, hsecs.2])
  rw [abs_le] at hdiff
  have hcsv := abs_csv3_sub_le (q := binary64 (e.tSecs - warmup))
    (by rw [abs_lt]; constructor <;> linarith [hsecs.1, hsecs.2, hdiff.1, hdiff.2])
  unfold csvTime
  rw [abs_le] at hcsv ⊢
  constructor <;> linarith [hsecs.1, hsecs.2, hdiff.1, hdiff.2, hcsv.1, hcsv.2]

/-- The windows and the open begins are of lines of the log. -/
structure Drawn (log : List BgEvent) (late : ℚ → ℚ) (st : List (ℚ × ℚ) × List ℚ) : Prop where
  spans : ∀ s ∈ st.1, ∃ b ∈ log, ∃ e ∈ log, b.type.isBegin = true ∧ e.type.isEnd = true ∧
    s = (b.t, late e.t)
  opened : ∀ t ∈ st.2, ∃ b ∈ log, b.type.isBegin = true ∧ t = b.t

/-- Windows are made of a begin and an end of the log. -/
theorem Drawn.step {log : List BgEvent} {late : ℚ → ℚ} {st : List (ℚ × ℚ) × List ℚ}
    (h : Drawn log late st) {r : BgEvent} (hr : r ∈ log) :
    Drawn log late (windowsStep late st r) := by
  unfold windowsStep
  by_cases hbegin : r.type.isBegin = true
  · rw [if_pos hbegin]
    refine ⟨h.spans, fun t ht => ?_⟩
    rcases List.mem_append.mp ht with ht | ht
    · exact h.opened t ht
    · exact ⟨r, hr, hbegin, List.mem_singleton.mp ht⟩
  · rw [if_neg hbegin]
    by_cases hend : r.type.isEnd = true
    · rw [if_pos hend]
      obtain ⟨spans, opened⟩ := st
      cases opened with
      | nil => exact h
      | cons t opened =>
        refine ⟨fun s hs => ?_, fun t' ht' => h.opened t' (List.mem_cons_of_mem _ ht')⟩
        rcases List.mem_append.mp hs with hs | hs
        · exact h.spans s hs
        · obtain ⟨b, hb, hopen, rfl⟩ := h.opened t List.mem_cons_self
          exact ⟨b, hb, r, hr, hopen, hend, List.mem_singleton.mp hs⟩
    · rw [if_neg hend]
      exact h

/-- A window goes from a begin to `t2` after an end. -/
theorem mem_readWindows {log : List BgEvent} {t2 : ℚ} {s : ℚ × ℚ}
    (h : s ∈ readWindows (some log) t2) :
    ∃ b ∈ log, ∃ e ∈ log, b.type.isBegin = true ∧ e.type.isEnd = true ∧
      s = (b.t, addT2 t2 e.t) := by
  have hlines : ∀ (lines : List BgEvent), (∀ r ∈ lines, r ∈ log) → ∀ {st},
      Drawn log (addT2 t2) st → Drawn log (addT2 t2) (lines.foldl (windowsStep (addT2 t2)) st) := by
    intro lines
    induction lines with
    | nil => exact fun _ _ hst => hst
    | cons r lines ih =>
      intro hmem st hst
      exact ih (fun x hx => hmem x (List.mem_cons_of_mem _ hx))
        (hst.step (hmem r List.mem_cons_self))
  have hempty : Drawn log (addT2 t2) ([], []) :=
    ⟨fun _ hs => absurd hs List.not_mem_nil, fun _ ht => absurd ht List.not_mem_nil⟩
  exact (hlines log (fun _ hr => hr) hempty).spans s h

/-- A line of `events.csv` is of a message. -/
theorem mem_eventsCsv {warmup startUs : ℕ} {ms : List (ℕ × Message)}
    (hms : ∀ x ∈ ms, x.2.Plain ∧ x.2.text.length ≤ 1023) {l : BgEvent}
    (h : l ∈ eventsCsv warmup (logAll startUs ms).events) :
    ∃ x ∈ ms, ∃ e, x.2.event (elapsed startUs x.1) = some e ∧ l = ⟨csvTime warmup e, e.type⟩ := by
  obtain ⟨e, he, rfl⟩ := List.mem_map.mp h
  rw [(logAll_spec startUs ms hms).2.1] at he
  obtain ⟨x, hx, hevent⟩ := List.mem_filterMap.mp he
  exact ⟨x, hx, e, hevent, rfl⟩

theorem Message.tSecs_of_event {m : Message} {t : ℚ} {e : LogEvent} (h : m.event t = some e) :
    e.tSecs = t := by
  cases m <;> first
    | exact absurd h (Option.some_ne_none e).symm
    | rw [← Option.some.inj h]

/-- The seconds of the rows. -/
theorem t_le_of_mem_rows {rs : List Reading} :
    ∀ {p : Reporter} {t : ℕ} {r : CsvRow}, r ∈ p.rows t rs → r.t < t + rs.length := by
  induction rs with
  | nil => exact fun h => absurd h List.not_mem_nil
  | cons r' rs ih =>
    intro p t r h
    rw [List.length_cons]
    rcases List.mem_cons.mp h with rfl | h
    · show t < _
      omega
    · have hlt := ih h
      omega

/-- No row is later than the window's last second. -/
theorem t_le_of_mem_timeseries {warmup duration : ℕ} {warm : Reading} {reading : ℕ → Reading}
    {r : CsvRow} (h : r ∈ timeseries warmup duration warm reading) : r.t ≤ duration := by
  rw [timeseries_eq] at h
  have hlt := t_le_of_mem_rows h
  rw [windowReadings, List.length_map, List.length_range'] at hlt
  omega

/-- **The windows are late.** The rows count their seconds from the start of the workers, the events
    theirs from the start of the program, which is earlier by all that opening, filling and
    compacting the database take.  A row that a run of the benchmark has written, and that the
    report finds in a window, is of a second whose tick comes that much after a moment of the
    window, to a millisecond; and when the delay is longer than the measured window, it is there for
    a job that had begun before the measured window did. -/
theorem windows_shifted {ι σ : Type*} [DecidableEq ι] {f : WorkerFlags} (h : Host σ)
    {warm : Reading} {reading : ℕ → Reading} {startUs runStartUs : ℕ} {rng : ι → σ}
    {es : List (BenchEvent ι)} (hacc : (ticking ι).Accepts runStartUs es)
    {ms : List (ℕ × Message)} (hms : ∀ x ∈ ms, x.2.Plain ∧ x.2.text.length ≤ 1023)
    (htimes : ∀ x ∈ ms, startUs ≤ x.1 ∧ x.1 < startUs + 2 ^ 50) (hwarmup : f.warmup ≤ 2 ^ 30)
    {t2 : ℚ} (ht2 : 0 ≤ t2 ∧ t2 ≤ 2 ^ 30) {l : Line}
    (hl : l ∈ writtenRows f h warm reading runStartUs rng es)
    (hin : inWindow l.row.toRow.t
      (readWindows (some (eventsCsv f.warmup (logAll startUs ms).events)) t2) = true) :
    let s := (run (benchStep f h) (benchStart ι f runStartUs rng) es).shared
    let delay : ℚ := (runStartUs : ℚ) - startUs
    s.tick (f.warmup + l.row.t) ≤ l.writtenAt ∧
    ∃ b ∈ ms, ∃ e ∈ ms,
      (∃ v, b.2.event (elapsed startUs b.1) = some v ∧ v.type.isBegin = true) ∧
      (∃ v, e.2.event (elapsed startUs e.1) = some v ∧ v.type.isEnd = true) ∧
      b.1 + delay ≤ s.tick (f.warmup + l.row.t) + 1000 ∧
      s.tick (f.warmup + l.row.t) ≤ e.1 + t2 * 1000000 + delay + 1000 ∧
      (startUs + f.duration * 1000000 + 1000 < runStartUs → b.1 < s.measureStartUs) := by
  intro s delay
  obtain ⟨hrows, -, hlate⟩ := writtenRows_spec (f := f) (h := h) runStartUs rng hacc
  obtain ⟨hstart, hopen⟩ := run_settings f h runStartUs rng es
  have hrow := hrows.subset (List.mem_map_of_mem hl)
  obtain ⟨w, hw, hfrom, hto⟩ := inWindow_iff.mp hin
  obtain ⟨lb, hlb, le, hle, hbegin, hend, rfl⟩ := mem_readWindows hw
  obtain ⟨b, hb, vb, hvb, rfl⟩ := mem_eventsCsv hms hlb
  obtain ⟨e, he, ve, hve, rfl⟩ := mem_eventsCsv hms hle
  have hbt := abs_csvTime_sub_le (htimes b hb).1 (htimes b hb).2 hwarmup
    (Message.tSecs_of_event hvb)
  have het := abs_csvTime_sub_le (htimes e he).1 (htimes e he).2 hwarmup
    (Message.tSecs_of_event hve)
  rw [abs_le] at hbt het
  have hfrom : csvTime f.warmup vb ≤ (l.row.t : ℚ) := hfrom
  have hto : (l.row.t : ℚ) ≤ binary64 (csvTime f.warmup ve + t2) := hto
  -- the end of the window is rounded once more
  have hspan : (e.1 : ℚ) < startUs + 2 ^ 50 ∧ (startUs : ℚ) ≤ e.1 ∧ (f.warmup : ℚ) ≤ 2 ^ 30 ∧
      (0 : ℚ) ≤ f.warmup :=
    ⟨by exact_mod_cast (htimes e he).2, by exact_mod_cast (htimes e he).1,
      by exact_mod_cast hwarmup, Nat.cast_nonneg _⟩
  have hround := (abs_le.mp (abs_binary64_sub_le (q := csvTime f.warmup ve + t2)
    (by rw [abs_lt]; constructor <;> linarith [het.1, het.2, ht2.1, ht2.2, hspan.1, hspan.2.1,
      hspan.2.2.1, hspan.2.2.2]))).2
  have htick : (s.tick (f.warmup + l.row.t) : ℚ) =
      runStartUs + (f.warmup + l.row.t) * 1000000 := by
    have htick : s.tick (f.warmup + l.row.t) =
        runStartUs + (f.warmup + l.row.t) * 1000000 := congrArg (· + _) hstart
    rw [htick]
    push_cast
    ring
  have hbound : (b.1 : ℚ) ≤ startUs + (f.warmup + l.row.t) * 1000000 + 1000 := by
    linarith [hbt.1]
  refine ⟨hlate l hl, b, hb, e, he, ⟨vb, hvb, hbegin⟩, ⟨ve, hve, hend⟩, ?_, ?_, fun hdelay => ?_⟩
  · rw [htick]
    linarith
  · rw [htick]
    linarith [het.2]
  · have hle := t_le_of_mem_timeseries hrow
    have hnat : b.1 ≤ startUs + (f.warmup + l.row.t) * 1000000 + 1000 := by exact_mod_cast hbound
    show b.1 < (run (benchStep f h) (benchStart ι f runStartUs rng) es).shared.measureStartUs
    rw [hopen]
    omega

/-- A compaction while the database is filled. -/
def fillJob : List (ℕ × Message) :=
  [(1000000, .compacting 4 0 7 1), (2000000, .compacted 4 0 7 1 8192)]

/-- Two seconds without warmup, and no worker. -/
def twoSeconds : WorkerFlags := { warmup := 0, duration := 2 }

/-- The turns of the loop of `Run`, from ten seconds after the start of the program on. -/
def twoTicks : List (BenchEvent (Fin 0)) :=
  [10000000, 10000000, 11000000, 11000100, 11000100, 11000100, 12000000, 12000100].map .drive

/-- The row of the workers' second second is in the window of a job that ended before they
    started. -/
theorem windows_shifted_fillJob :
    ∃ l ∈ writtenRows twoSeconds dealing afterFill busySecond 10000000 (fun t => [(t.val : ℚ)])
        twoTicks,
      l.writtenAt = 12000100 ∧
      inWindow l.row.toRow.t
        (readWindows (some (eventsCsv 0 (logAll 0 fillJob).events)) 2) = true ∧
      ∃ b ∈ fillJob, (∃ v, b.2.event (elapsed 0 b.1) = some v ∧ v.type.isBegin = true) ∧
        b.1 < 10000000 := by
  have hplain : ∀ x ∈ fillJob, x.2.Plain ∧ x.2.text.length ≤ 1023 := by decide +kernel
  have htimes : ∀ x ∈ fillJob, 0 ≤ x.1 ∧ x.1 < 0 + 2 ^ 50 := by decide +kernel
  have hin : inWindow ((2 : ℕ) : ℚ)
      (readWindows (some (eventsCsv 0 (logAll 0 fillJob).events)) 2) = true := by
    rw [(logAll_spec 0 fillJob hplain).2.1]
    have hb := abs_csvTime_sub_le (e := ⟨elapsed 0 1000000, .compactionBegin, 0, 0⟩)
      (Nat.zero_le 1000000) (by norm_num) (Nat.zero_le _) rfl
    have he := abs_csvTime_sub_le (e := ⟨elapsed 0 2000000, .compactionEnd, 0, 8192⟩)
      (Nat.zero_le 2000000) (by norm_num) (Nat.zero_le _) rfl
    rw [abs_le] at hb he
    norm_num at hb he
    refine inWindow_iff.mpr ⟨(csvTime 0 ⟨elapsed 0 1000000, .compactionBegin, 0, 0⟩,
      addT2 2 (csvTime 0 ⟨elapsed 0 2000000, .compactionEnd, 0, 8192⟩)),
      List.mem_singleton.mpr rfl, ?_, ?_⟩
    · push_cast
      linarith [hb.2]
    · have hround := (abs_le.mp (abs_binary64_sub_le
        (q := csvTime 0 ⟨elapsed 0 2000000, .compactionEnd, 0, 8192⟩ + 2)
        (by rw [abs_lt]; constructor <;> linarith [he.1, he.2]))).1
      unfold addT2
      push_cast
      linarith [he.1]
  have hlines : (writtenRows twoSeconds dealing afterFill busySecond 10000000
      (fun t => [(t.val : ℚ)]) twoTicks).map (fun l => (l.writtenAt, l.row.t)) =
      [(11000100, 1), (12000100, 2)] := by decide +kernel
  obtain ⟨l, hl, hline⟩ := List.mem_map.mp
    (hlines ▸ List.mem_cons_of_mem _ List.mem_cons_self : (12000100, 2) ∈ _)
  obtain ⟨hat, ht⟩ := Prod.mk.inj hline
  rw [← ht] at hin
  obtain ⟨-, b, hb, -, -, hbegin, -, -, -, hbefore⟩ := windows_shifted dealing
    (by decide : (ticking (Fin 0)).Accepts 10000000 twoTicks) hplain htimes (Nat.zero_le _)
    ⟨by norm_num, by norm_num⟩ hl hin
  exact ⟨l, hl, hat, hin, b, hb, hbegin, hbefore (by norm_num [twoSeconds])⟩

end Leaper.Bench
