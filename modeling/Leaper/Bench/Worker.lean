import Leaper.Bench.Histogram
import Leaper.Bench.Trace
import Leaper.Lib.Machine
import Leaper.Lib.Tally
import Leaper.Lib.Threads

namespace Leaper.Bench

open Lib Train

/-!
# The benchmark's worker threads

`WorkerLoop` of `bench/src/leaper_bench.cc`, run by any number of threads beside the loop of `Run`
that opens the measured window and stops them.  The threads share the counters of `Shared`; a turn
of a thread has at most one access to them or to the clock, so a word of events is an interleaving.

* `act`, `drive` — a turn of a worker, and of the loop of `Run`;
* `act_move` — what a turn can do to the counters;
* `Account` — a counter, what is counted ahead of the database call and what after it;
* `WorkerBooks` — a worker's histograms and its trace;
* `accounting` — what all of them are once no worker has an operation in hand.
-/

/-! ### The program -/

/-- The flags of the workers and of the loop of `Run`. -/
structure WorkerFlags where
  num : ℕ := 8000000
  readRatio : ℚ := 3 / 4
  updateRatio : ℚ := 1 / 5
  scanRatio : ℚ := 0
  writeCorr : ℚ := 1
  opRate : ℚ := 0
  writeRate : ℚ := 0
  sineA : ℚ := 0
  sineB : ℚ := 73 / 1000000
  sineD : ℚ := 4500
  shiftAtS : ℚ := 0
  traceOut : Bool := false
  traceSample : ℚ := 1
  warmup : ℕ := 20
  duration : ℕ := 180

/-- The three `KeyChooser`s of a worker. -/
inductive Chooser
  | main
  | shifted
  | write
  deriving DecidableEq, Repr

/-- What a worker calls: the distributions over its generator `σ`, the key choosers, the cosine. -/
structure Host (σ : Type*) where
  pick : σ → ℚ × σ
  voff : σ → ℕ × σ
  next : Chooser → ℚ → σ → ℕ × σ
  cos : ℚ → ℚ

/-- An operation that was chosen: the key, for a write the place of the value in the pool, and
    whether the measured window was open. -/
structure ClientOp where
  op : OpType
  idx : ℕ
  value : Option ℕ
  measuring : Bool
  deriving DecidableEq, Repr

/-- A write, as opposed to a read or a scan. -/
def ClientOp.isWrite (c : ClientOp) : Bool := !c.op.isRead

/-- An operation whose database call has returned: when it began, how long it took, how it ended. -/
structure Completed extends ClientOp where
  t0 : ℕ
  dt : ℕ
  ok : Bool
  deriving DecidableEq, Repr

/-- Where a worker stands, by what it does next. -/
inductive WorkerPc
  /-- load `running` -/
  | top
  /-- read the clock -/
  | stamp
  /-- load `ops_issued` -/
  | pace (t0 : ℕ)
  /-- sleep, over the budget of `t0` -/
  | asleep (t0 wake : ℕ)
  /-- raise `ops_issued` and draw -/
  | issue (t0 : ℕ)
  /-- load `writes_issued` -/
  | limit (t0 : ℕ) (p : ℚ)
  /-- load `measuring` and choose the operation -/
  | flag (t0 : ℕ) (p : ℚ)
  /-- take a key from `next_insert_key` -/
  | claim (measuring : Bool)
  /-- raise `writes_issued` -/
  | issueWrite (c : ClientOp)
  /-- read the clock again -/
  | start (c : ClientOp)
  /-- call the database -/
  | call (c : ClientOp) (t0 : ℕ)
  /-- add to the histogram -/
  | sample (d : Completed)
  /-- raise `reads` or `writes` -/
  | count (d : Completed)
  /-- raise `read_hits` or `read_misses` -/
  | outcome (d : Completed)
  /-- add to the trace -/
  | trace (d : Completed)
  /-- returned -/
  | exited
  deriving DecidableEq, Repr

/-- Where the loop of `Run` stands. -/
inductive DriverPc
  | second (sec : ℕ)
  | tick (sec : ℕ)
  | asleep (sec wake : ℕ)
  | report (sec : ℕ)
  | stopped
  deriving DecidableEq, Repr

/-- `Shared`, with the place of the loop of `Run`. -/
structure Shared where
  running : Bool := true
  measuring : Bool := false
  reads : ℕ := 0
  writes : ℕ := 0
  readHits : ℕ := 0
  readMisses : ℕ := 0
  nextInsertKey : ℕ
  writesIssued : ℕ := 0
  opsIssued : ℕ := 0
  runStartUs : ℕ
  measureStartUs : ℕ
  driver : DriverPc := .second 1

/-- `tick`: the time at which second `sec` of the run is over. -/
def Shared.tick (s : Shared) (sec : ℕ) : ℕ := s.runStartUs + sec * 1000000

/-- A worker: its generator, its histograms and its trace. -/
structure Worker (σ : Type*) where
  rng : σ
  rh : Histogram := .new
  wh : Histogram := .new
  tw : Option TraceWriter
  pc : WorkerPc := .top

section Program

variable {σ : Type*} (f : WorkerFlags) (h : Host σ)

/-- `(t0 - run_start_us) / 1e6`. -/
def elapsed (runStartUs t0 : ℕ) : ℚ := binary64 (binary64 (sub64 t0 runStartUs) / 1000000)

/-- `allowed`: the operations that the rate allows, with the wave of the sine if that is on. -/
def allowed (elapsed : ℚ) : ℚ :=
  if 0 < f.sineA ∧ 0 < f.sineD ∧ 0 < f.sineB then
    let wave := binary64 (binary64 (binary64 (f.sineA / f.sineD) *
      binary64 (1 - h.cos (binary64 (f.sineB * elapsed)))) / f.sineB)
    binary64 (f.opRate * binary64 (elapsed + wave))
  else binary64 (f.opRate * elapsed)

/-- The operations that may have been issued before one at `t0`. -/
def opBudget (runStartUs t0 : ℕ) : ℕ := ⌊allowed f h (elapsed runStartUs t0)⌋₊ + 1

/-- The same for writes. -/
def writeBudget (runStartUs t0 : ℕ) : ℕ :=
  ⌊binary64 (f.writeRate * elapsed runStartUs t0)⌋₊ + 1

/-- The branch on `p`. -/
def choose (w : Worker σ) (measuring : Bool) (elapsedS p : ℚ) : Worker σ :=
  let cur := if 0 < f.shiftAtS ∧ f.shiftAtS ≤ elapsedS then Chooser.shifted else Chooser.main
  if p < f.readRatio then
    let key := h.next cur elapsedS w.rng
    if 0 < f.scanRatio then
      let scan := h.pick key.2
      let op := if scan.1 < f.scanRatio then OpType.scan else OpType.read
      { w with rng := scan.2, pc := .start ⟨op, key.1, none, measuring⟩ }
    else { w with rng := key.2, pc := .start ⟨.read, key.1, none, measuring⟩ }
  else if p < binary64 (f.readRatio + f.updateRatio) then
    let own := if 1 ≤ f.writeCorr then (true, w.rng)
      else ((h.pick w.rng).1 < f.writeCorr, (h.pick w.rng).2)
    let key := h.next (if own.1 then cur else .write) elapsedS own.2
    let value := h.voff key.2
    { w with rng := value.2, pc := .issueWrite ⟨.update, key.1, some value.1, measuring⟩ }
  else { w with pc := .claim measuring }

/-- What is traced of an operation: when it began in the measured window, its key and its kind. -/
def traceCall (measureStartUs : ℕ) (d : Completed) : Access :=
  ⟨sub64 d.t0 measureStartUs / 1000 % 2 ^ 32, d.idx, d.op⟩

/-- `tw->Add`, if the operation is to be traced. -/
def addTrace (w : Worker σ) (measureStartUs : ℕ) (d : Completed) : Worker σ :=
  match w.tw with
  | none => w
  | some tw =>
    let keep := if 1 ≤ f.traceSample then (true, w.rng)
      else ((h.pick w.rng).1 < f.traceSample, (h.pick w.rng).2)
    { w with rng := keep.2,
             tw := some (if keep.1 then tw.add (traceCall measureStartUs d) else tw) }

/-- A turn of a worker, at a time and with what the database answers. -/
def act (now : ℕ) (ok : Bool) (s : Shared) (w : Worker σ) : Shared × Worker σ :=
  match w.pc with
  | .top => (s, { w with pc := if s.running then .stamp else .exited })
  | .stamp => (s, { w with pc := if 0 < f.opRate then .pace now else .issue now })
  | .pace t0 =>
    let full := opBudget f h s.runStartUs t0 ≤ s.opsIssued
    (s, { w with pc := if full then .asleep t0 (now + 200) else .issue t0 })
  | .asleep _ wake => (s, if wake ≤ now then { w with pc := .top } else w)
  | .issue t0 =>
    let p := h.pick w.rng
    let limited := 0 < f.writeRate ∧ f.readRatio ≤ p.1
    ({ s with opsIssued := s.opsIssued + 1 },
      { w with rng := p.2, pc := if limited then .limit t0 p.1 else .flag t0 p.1 })
  | .limit t0 p =>
    let full := writeBudget f s.runStartUs t0 ≤ s.writesIssued
    (s, { w with pc := .flag t0 (if full then 0 else p) })
  | .flag t0 p => (s, choose f h w s.measuring (elapsed s.runStartUs t0) p)
  | .claim measuring =>
    let value := h.voff w.rng
    ({ s with nextInsertKey := s.nextInsertKey + 1 },
      { w with rng := value.2,
               pc := .issueWrite ⟨.insert, s.nextInsertKey, some value.1, measuring⟩ })
  | .issueWrite c => ({ s with writesIssued := s.writesIssued + 1 }, { w with pc := .start c })
  | .start c => (s, { w with pc := .call c now })
  | .call c t0 =>
    let d := ⟨c, t0, sub64 now t0, ok⟩
    (s, { w with pc := if c.measuring then .sample d else .top })
  | .sample d =>
    (s, if d.isWrite then { w with wh := w.wh.add d.dt, pc := .count d }
        else { w with rh := w.rh.add d.dt, pc := .count d })
  | .count d =>
    if d.isWrite then ({ s with writes := s.writes + 1 }, { w with pc := .trace d })
    else ({ s with reads := s.reads + 1 }, { w with pc := .outcome d })
  | .outcome d =>
    (if d.ok then { s with readHits := s.readHits + 1 }
      else { s with readMisses := s.readMisses + 1 }, { w with pc := .trace d })
  | .trace d => (s, { addTrace f h w s.measureStartUs d with pc := .top })
  | .exited => (s, w)

/-- The database call that returns in a turn. -/
def returns (now : ℕ) (ok : Bool) (w : Worker σ) : Option Completed :=
  match w.pc with
  | .call c t0 => some ⟨c, t0, sub64 now t0, ok⟩
  | _ => none

/-- A turn of the loop of `Run`: one second of the run, slept to its end. -/
def drive (now : ℕ) (s : Shared) : Shared :=
  match s.driver with
  | .second sec =>
    if sec ≤ f.warmup + f.duration then
      { s with measuring := s.measuring || sec = f.warmup + 1, driver := .tick sec }
    else { s with running := false, driver := .stopped }
  | .tick sec =>
    let tick := s.tick sec
    { s with driver := if now < tick then .asleep sec (now + (tick - now)) else .report sec }
  | .asleep sec wake => if wake ≤ now then { s with driver := .report sec } else s
  | .report sec => { s with driver := .second (sec + 1) }
  | .stopped => s

end Program

/-! ### Runs -/

/-- A worker takes a turn, or the loop of `Run` does. -/
inductive BenchEvent (ι : Type*)
  | work (t : ι) (now : ℕ) (ok : Bool)
  | drive (now : ℕ)

def BenchEvent.now {ι : Type*} : BenchEvent ι → ℕ
  | .work _ now _ => now
  | .drive now => now

/-- A clock that never goes back. -/
def ticking (ι : Type*) : Env ℕ (BenchEvent ι) where
  ok g e := g ≤ e.now
  next _ e := e.now

instance {ι : Type*} (g : ℕ) (e : BenchEvent ι) : Decidable ((ticking ι).ok g e) :=
  inferInstanceAs (Decidable (g ≤ e.now))

variable {ι σ : Type*} [DecidableEq ι]

/-- The benchmark takes a turn, in which a database call may return. -/
def benchStep (f : WorkerFlags) (h : Host σ) (c : Config ι Shared (Worker σ)) :
    BenchEvent ι → Config ι Shared (Worker σ) × Option (ι × Completed)
  | .work t now ok => (turn (fun _ => act f h now ok) c t,
      (returns now ok (c.pos t)).map fun d => (t, d))
  | .drive now => ({ c with shared := drive f now c.shared }, none)

/-- The workers start. -/
def benchStart (ι : Type*) (f : WorkerFlags) (runStartUs : ℕ) (rng : ι → σ) :
    Config ι Shared (Worker σ) where
  shared := { nextInsertKey := f.num, runStartUs := runStartUs,
              measureStartUs := runStartUs + f.warmup * 1000000 }
  pos t := { rng := rng t, tw := if f.traceOut then some { isOpen := true } else none }

/-- The calls that have returned. -/
def noteCalls (log : List (ι × Completed)) (_ : BenchEvent ι) (o : Option (ι × Completed)) :
    List (ι × Completed) :=
  log ++ o.toList

/-! ### What a turn can do -/

/-- What a worker has in hand. -/
inductive Hand
  | empty
  /-- an operation was issued and is not chosen yet -/
  | issued
  | claim (measuring : Bool)
  | issueWrite (c : ClientOp)
  | start (c : ClientOp)
  | call (c : ClientOp) (t0 : ℕ)
  | sample (d : Completed)
  | count (d : Completed)
  | outcome (d : Completed)
  | trace (d : Completed)
  deriving DecidableEq

def WorkerPc.hand : WorkerPc → Hand
  | .top | .stamp | .pace _ | .asleep _ _ | .issue _ | .exited => .empty
  | .limit _ _ | .flag _ _ => .issued
  | .claim m => .claim m
  | .issueWrite c => .issueWrite c
  | .start c => .start c
  | .call c t0 => .call c t0
  | .sample d => .sample d
  | .count d => .count d
  | .outcome d => .outcome d
  | .trace d => .trace d

/-- A turn of a worker, at a time: the counters and what it had in hand, the call that returns, the
    counters and what it has in hand then. -/
inductive Move (now : ℕ) : Shared → Hand → Option Completed → Shared → Hand → Prop
  | wait (s : Shared) : Move now s .empty none s .empty
  | issue (s : Shared) : Move now s .empty none { s with opsIssued := s.opsIssued + 1 } .issued
  | draw (s : Shared) : Move now s .issued none s .issued
  | read (s : Shared) {c : ClientOp} (hc : c.op.isRead = true) (hm : c.measuring = s.measuring) :
      Move now s .issued none s (.start c)
  | update (s : Shared) {c : ClientOp} (hc : c.op = .update) (hm : c.measuring = s.measuring) :
      Move now s .issued none s (.issueWrite c)
  | insert (s : Shared) : Move now s .issued none s (.claim s.measuring)
  | claim (s : Shared) {c : ClientOp} (hc : c.op = .insert) (hidx : c.idx = s.nextInsertKey) :
      Move now s (.claim c.measuring) none { s with nextInsertKey := s.nextInsertKey + 1 }
        (.issueWrite c)
  | issueWrite (s : Shared) (c : ClientOp) :
      Move now s (.issueWrite c) none { s with writesIssued := s.writesIssued + 1 } (.start c)
  | start (s : Shared) (c : ClientOp) : Move now s (.start c) none s (.call c now)
  | warmUp (s : Shared) {d : Completed} (hm : d.measuring = false) :
      Move now s (.call d.toClientOp d.t0) (some d) s .empty
  | measured (s : Shared) {d : Completed} (hm : d.measuring = true) :
      Move now s (.call d.toClientOp d.t0) (some d) s (.sample d)
  | sample (s : Shared) (d : Completed) : Move now s (.sample d) none s (.count d)
  | wrote (s : Shared) {d : Completed} (hd : d.isWrite = true) :
      Move now s (.count d) none { s with writes := s.writes + 1 } (.trace d)
  | didRead (s : Shared) {d : Completed} (hd : d.isWrite = false) :
      Move now s (.count d) none { s with reads := s.reads + 1 } (.outcome d)
  | hit (s : Shared) {d : Completed} (hd : d.ok = true) :
      Move now s (.outcome d) none { s with readHits := s.readHits + 1 } (.trace d)
  | miss (s : Shared) {d : Completed} (hd : d.ok = false) :
      Move now s (.outcome d) none { s with readMisses := s.readMisses + 1 } (.trace d)
  | trace (s : Shared) (d : Completed) : Move now s (.trace d) none s .empty

section Moves

variable (f : WorkerFlags) (h : Host σ)

/-- The branch on `p`: a read, or an update or an insert. -/
theorem choose_pc (w : Worker σ) (m : Bool) (elapsedS p : ℚ) :
    (p < f.readRatio ∧ ∃ c, (choose f h w m elapsedS p).pc = .start c ∧ c.op.isRead = true ∧
      c.measuring = m) ∨
    (f.readRatio ≤ p ∧ ((∃ c, (choose f h w m elapsedS p).pc = .issueWrite c ∧ c.op = .update ∧
      c.measuring = m) ∨ (choose f h w m elapsedS p).pc = .claim m)) := by
  unfold choose
  dsimp only
  by_cases hread : p < f.readRatio
  · refine Or.inl ⟨hread, ?_⟩
    rw [if_pos hread]
    by_cases hscan : 0 < f.scanRatio
    · rw [if_pos hscan]
      refine ⟨_, rfl, ?_, rfl⟩
      dsimp only
      split_ifs <;> rfl
    · rw [if_neg hscan]
      exact ⟨_, rfl, rfl, rfl⟩
  · refine Or.inr ⟨not_lt.mp hread, ?_⟩
    rw [if_neg hread]
    split
    · exact Or.inl ⟨_, rfl, rfl, rfl⟩
    · exact Or.inr rfl

/-- Choosing the next operation leaves the shared counters alone. -/
theorem choose_move (now : ℕ) (s : Shared) (w : Worker σ) (elapsedS p : ℚ) :
    Move now s .issued none s (choose f h w s.measuring elapsedS p).pc.hand := by
  obtain ⟨-, c, hpc, hc, hm⟩ | ⟨-, ⟨c, hpc, hc, hm⟩ | hpc⟩ := choose_pc f h w s.measuring elapsedS p
  · rw [hpc]
    exact .read s hc hm
  · rw [hpc]
    exact .update s hc hm
  · rw [hpc]
    exact .insert s

/-- **Every turn is a move.** -/
theorem act_move (now : ℕ) (ok : Bool) (s : Shared) (w : Worker σ) :
    Move now s w.pc.hand (returns now ok w) (act f h now ok s w).1
      (act f h now ok s w).2.pc.hand := by
  -- one case for each line of the loop; the pacing lines leave the hand as it is
  unfold act returns
  cases hpc : w.pc with
  | top =>
    dsimp only
    split_ifs <;> exact .wait s
  | stamp =>
    dsimp only
    split_ifs <;> exact .wait s
  | pace t0 =>
    dsimp only
    split_ifs <;> exact .wait s
  | asleep t0 wake =>
    dsimp only
    split_ifs
    · exact .wait s
    · rw [hpc]
      exact .wait s
  | issue t0 =>
    dsimp only
    split_ifs <;> exact .issue s
  | limit t0 p => exact .draw s
  | flag t0 p => exact choose_move f h now s w _ p
  | claim m => exact .claim (c := ⟨.insert, s.nextInsertKey, some (h.voff w.rng).1, m⟩) s rfl rfl
  | issueWrite c => exact .issueWrite s c
  | start c => exact .start s c
  | call c t0 =>
    dsimp only
    split_ifs with hm
    · exact .measured (d := ⟨c, t0, sub64 now t0, ok⟩) s hm
    · exact .warmUp (d := ⟨c, t0, sub64 now t0, ok⟩) s (Bool.eq_false_of_not_eq_true hm)
  | sample d =>
    dsimp only
    split_ifs <;> exact .sample s d
  | count d =>
    dsimp only
    split_ifs with hd
    · exact .wrote s hd
    · exact .didRead s (Bool.eq_false_of_not_eq_true hd)
  | outcome d =>
    dsimp only
    split_ifs with hd
    · exact .hit s hd
    · exact .miss s (Bool.eq_false_of_not_eq_true hd)
  | trace d => exact .trace s d
  | exited =>
    dsimp only
    rw [hpc]
    exact .wait s

/-- The loop of `Run` changes flags only. -/
theorem drive_flags (now : ℕ) (s : Shared) : ∃ r m d,
    drive f now s = { s with running := r, measuring := m, driver := d } := by
  unfold drive
  cases hdriver : s.driver with
  | second sec =>
    dsimp only
    split_ifs <;> exact ⟨_, _, _, rfl⟩
  | tick sec => exact ⟨_, _, _, rfl⟩
  | asleep sec wake =>
    dsimp only
    split_ifs
    · exact ⟨_, _, _, rfl⟩
    · exact ⟨s.running, s.measuring, s.driver, rfl⟩
  | report sec => exact ⟨_, _, _, rfl⟩
  | stopped => exact ⟨s.running, s.measuring, s.driver, rfl⟩

end Moves

/-! ### Accounts -/

/-- **A counter**: what of the calls that return it counts (`weight`), what has been counted before
    the call returns (`held`), and what is still to be counted after it (`owed`). -/
structure Account where
  count : Shared → ℕ
  weight : Completed → Bool
  held : Hand → Bool := fun _ => false
  owed : Hand → Bool := fun _ => false

namespace Account

/-- The books balance in every move. -/
structure Sound (A : Account) : Prop where
  own : ∀ {now : ℕ} {s s' : Shared} {q q' : Hand} {o : Option Completed}, Move now s q o s' q' →
    A.count s' + (A.owed q').toNat + (A.held q).toNat =
      A.count s + (A.owed q).toNat + (o.elim 0 fun d => (A.weight d).toNat) + (A.held q').toNat
  flags : ∀ (s : Shared) r m d,
    A.count { s with running := r, measuring := m, driver := d } = A.count s
  held_empty : A.held .empty = false
  owed_empty : A.owed .empty = false

variable [Fintype ι] {A : Account}

/-- The books of an account. -/
def Balanced (A : Account) (s₀ : Shared) (c : Config ι Shared (Worker σ))
    (log : List (ι × Completed)) : Prop :=
  A.count c.shared + ∑ u, (A.owed (c.pos u).pc.hand).toNat =
    A.count s₀ + tally (fun x => (A.weight x.2).toNat) log +
      ∑ u, (A.held (c.pos u).pc.hand).toNat

/-- **One turn.** -/
theorem Sound.step (hA : A.Sound) (f : WorkerFlags) (h : Host σ) {s₀ : Shared}
    {c : Config ι Shared (Worker σ)} {log : List (ι × Completed)} (hb : A.Balanced s₀ c log)
    (e : BenchEvent ι) :
    A.Balanced s₀ (benchStep f h c e).1 (noteCalls log e (benchStep f h c e).2) := by
  cases e with
  | work t now ok =>
    have hturn := count_turn (fun _ => act f h now ok) A.count
      (fun w => (A.owed w.pc.hand).toNat) (fun w => (A.held w.pc.hand).toNat)
      (t := t) (hA.own (act_move f h now ok c.shared (c.pos t))) hb
    have hlog : tally (fun x : ι × Completed => (A.weight x.2).toNat)
        (noteCalls log (.work t now ok) (benchStep f h c (.work t now ok)).2) =
        tally (fun x => (A.weight x.2).toNat) log +
          ((returns now ok (c.pos t)).elim 0 fun d => (A.weight d).toNat) := by
      show tally _ (log ++ ((returns now ok (c.pos t)).map fun d => (t, d)).toList) = _
      rw [tally_append]
      cases returns now ok (c.pos t) <;> rfl
    unfold Balanced
    rw [hlog, ← Nat.add_assoc]
    exact hturn
  | drive now =>
    obtain ⟨r, m, d, hdrive⟩ := drive_flags f now c.shared
    have hcount : A.count (drive f now c.shared) = A.count c.shared := by
      rw [hdrive]
      exact hA.flags c.shared r m d
    show A.count (drive f now c.shared) + _ = A.count s₀ + tally _ (log ++ []) + _
    rw [hcount, List.append_nil]
    exact hb

/-- **A whole run**, from the start of the workers. -/
theorem Sound.run (hA : A.Sound) (f : WorkerFlags) (h : Host σ) (runStartUs : ℕ) (rng : ι → σ)
    (es : List (BenchEvent ι)) :
    A.Balanced (benchStart ι f runStartUs rng).shared
      (run (benchStep f h) (benchStart ι f runStartUs rng) es)
      (watch (benchStep f h) noteCalls (benchStart ι f runStartUs rng) [] es) := by
  refine watch_keeps (benchStep f h) noteCalls
    (P := A.Balanced (benchStart ι f runStartUs rng).shared)
    (fun _ _ e hb => hA.step f h hb e) es ?_
  show A.count _ + ∑ _u : ι, (A.owed .empty).toNat = A.count _ + 0 + ∑ _u : ι, (A.held .empty).toNat
  rw [hA.owed_empty, hA.held_empty]
  rfl

omit [DecidableEq ι] in
/-- Once nobody has anything in hand, the counter has counted what it should. -/
theorem Sound.settled (hA : A.Sound) {s₀ : Shared} {c : Config ι Shared (Worker σ)}
    {log : List (ι × Completed)} (hb : A.Balanced s₀ c log)
    (hidle : ∀ u, (c.pos u).pc.hand = .empty) :
    A.count c.shared = A.count s₀ + log.countP fun x => A.weight x.2 := by
  have howed : ∀ u, (A.owed (c.pos u).pc.hand).toNat = 0 := by
    intro u
    rw [hidle u, hA.owed_empty]
    rfl
  have hheld : ∀ u, (A.held (c.pos u).pc.hand).toNat = 0 := by
    intro u
    rw [hidle u, hA.held_empty]
    rfl
  unfold Balanced at hb
  rw [Finset.sum_eq_zero fun u _ => howed u, Finset.sum_eq_zero fun u _ => hheld u,
    tally_toNat] at hb
  exact hb

end Account

/-- `ops_issued`. -/
def opsAccount : Account where
  count s := s.opsIssued
  weight _ := true
  held
    | .issued | .claim _ | .issueWrite _ | .start _ | .call _ _ => true
    | _ => false

/-- `ops_issued` counts the calls. -/
theorem opsAccount_sound : opsAccount.Sound where
  own hmove := by cases hmove <;> rfl
  flags _ _ _ _ := rfl
  held_empty := rfl
  owed_empty := rfl

/-- `writes_issued`. -/
def writesIssuedAccount : Account where
  count s := s.writesIssued
  weight d := d.isWrite
  held
    | .start c | .call c _ => c.isWrite
    | _ => false
  -- nothing but writes comes here
  owed
    | .issueWrite c => !c.isWrite
    | _ => false

/-- `writes_issued` counts the writes among the calls. -/
theorem writesIssuedAccount_sound : writesIssuedAccount.Sound where
  own hmove := by
    cases hmove with
    | read hc => simp [writesIssuedAccount, ClientOp.isWrite, hc]
    | update hc => simp [writesIssuedAccount, ClientOp.isWrite, hc, OpType.isRead]
    | claim hc => simp [writesIssuedAccount, ClientOp.isWrite, hc, OpType.isRead]
    | issueWrite c => cases hc : c.isWrite <;> simp [writesIssuedAccount, hc]
    | warmUp hm => simp [writesIssuedAccount]
    | measured hm => simp [writesIssuedAccount]
    | _ => rfl
  flags _ _ _ _ := rfl
  held_empty := rfl
  owed_empty := rfl

/-- A counter of the measured window, raised after the call: `first` is what the histogram and the
    first counter have before them, `second` what the second counter has. -/
def windowAccount (count : Shared → ℕ) (first second : Completed → Bool) : Account where
  count := count
  weight d := d.measuring && first d
  owed
    | .sample d | .count d => first d
    | .outcome d => second d
    | _ => false

def readsAccount : Account := windowAccount (·.reads) (fun d => !d.isWrite) fun _ => false

def writesAccount : Account := windowAccount (·.writes) (fun d => d.isWrite) fun _ => false

def readHitsAccount : Account := windowAccount (·.readHits) (fun d => !d.isWrite && d.ok) (·.ok)

def readMissesAccount : Account :=
  windowAccount (·.readMisses) (fun d => !d.isWrite && !d.ok) fun d => !d.ok

/-- A counter of the window and the moves that may raise it. -/
structure CountsWindow (count : Shared → ℕ) (first second : Completed → Bool) : Prop where
  wrote : ∀ (s : Shared) (d : Completed), d.isWrite = true →
    count { s with writes := s.writes + 1 } = count s + (first d).toNat
  didRead : ∀ (s : Shared) (d : Completed), d.isWrite = false →
    count { s with reads := s.reads + 1 } + (second d).toNat = count s + (first d).toNat
  hit : ∀ (s : Shared) (d : Completed), d.ok = true →
    count { s with readHits := s.readHits + 1 } = count s + (second d).toNat
  miss : ∀ (s : Shared) (d : Completed), d.ok = false →
    count { s with readMisses := s.readMisses + 1 } = count s + (second d).toNat
  others : ∀ (s : Shared) r m d ops ins wr,
    count { s with running := r, measuring := m, driver := d, opsIssued := ops
                   nextInsertKey := ins, writesIssued := wr } = count s

/-- What the first counter owes is settled by it or handed on to the second. -/
theorem windowAccount_sound {count : Shared → ℕ} {first second : Completed → Bool}
    (h : CountsWindow count first second) : (windowAccount count first second).Sound where
  own {_ s _ _ _ _} hmove := by
    cases hmove with
    | issue => exact congrArg (· + 0 + 0) (h.others s _ _ _ (s.opsIssued + 1) _ _)
    | claim hc => exact congrArg (· + 0 + 0) (h.others s _ _ _ _ (s.nextInsertKey + 1) _)
    | issueWrite c => exact congrArg (· + 0 + 0) (h.others s _ _ _ _ _ (s.writesIssued + 1))
    | warmUp hm => simp [windowAccount, hm]
    | measured hm => simp [windowAccount, hm]
    | wrote hd => exact congrArg (· + 0 + 0) (h.wrote s _ hd)
    | didRead hd => exact congrArg (· + 0) (h.didRead s _ hd)
    | hit hd => exact congrArg (· + 0 + 0) (h.hit s _ hd)
    | miss hd => exact congrArg (· + 0 + 0) (h.miss s _ hd)
    | _ => rfl
  flags s r m d := h.others s r m d _ _ _
  held_empty := rfl
  owed_empty := rfl

/-- `reads` counts the reads of the measured window. -/
theorem readsAccount_sound : readsAccount.Sound :=
  windowAccount_sound ⟨by simp_all, by simp_all, by simp, by simp, by simp⟩

/-- `writes` counts the writes of the measured window. -/
theorem writesAccount_sound : writesAccount.Sound :=
  windowAccount_sound ⟨by simp_all, by simp_all, by simp, by simp, by simp⟩

/-- `read_hits` counts the reads of the window that were answered. -/
theorem readHitsAccount_sound : readHitsAccount.Sound :=
  windowAccount_sound ⟨by simp_all, by simp_all, by simp_all, by simp_all, by simp⟩

/-- `read_misses` counts the reads of the window that were not answered. -/
theorem readMissesAccount_sound : readMissesAccount.Sound :=
  windowAccount_sound ⟨by simp_all, by simp_all, by simp_all, by simp_all, by simp⟩

/-- The operation inserts key `k`. -/
def ClientOp.inserts (k : ℕ) (c : ClientOp) : Bool := decide (c.op = .insert ∧ c.idx = k)

/-- `next_insert_key`, seen from a key: it is counted once the counter has passed it. -/
def insertAccount (k : ℕ) : Account where
  count s := (decide (k < s.nextInsertKey)).toNat
  weight d := d.inserts k
  held
    | .issueWrite c | .start c | .call c _ => c.inserts k
    | _ => false

/-- Only an insert inserts a key. -/
theorem ClientOp.inserts_of_ne {k : ℕ} {c : ClientOp} (h : c.op ≠ .insert) :
    c.inserts k = false :=
  decide_eq_false fun hins => h hins.1

/-- A counter passes a key exactly when it hands it out. -/
theorem passes (k n : ℕ) :
    (decide (k < n + 1)).toNat = (decide (k < n)).toNat + (decide (n = k)).toNat := by
  rcases lt_trichotomy k n with hlt | heq | hgt
  · simp [hlt, hlt.ne', Nat.lt_succ_of_lt hlt]
  · simp [heq]
  · simp [hgt.not_gt, hgt.ne, Nat.not_lt.mpr (Nat.succ_le_of_lt hgt)]

/-- A key from `next_insert_key` is claimed, and then inserted, by one worker. -/
theorem insertAccount_sound (k : ℕ) : (insertAccount k).Sound where
  own hmove := by
    cases hmove with
    | read hc =>
      have hne := ClientOp.inserts_of_ne (k := k) fun hins => by rw [hins] at hc; cases hc
      simp [insertAccount, hne]
    | update hc =>
      have hne := ClientOp.inserts_of_ne (k := k) fun hins => by rw [hins] at hc; cases hc
      simp [insertAccount, hne]
    | claim hc hidx =>
      simp only [insertAccount, ClientOp.inserts, hc, hidx, true_and, passes]
      simp
    | issueWrite c => rfl
    | warmUp hm => simp [insertAccount]
    | measured hm => simp [insertAccount]
    | _ => rfl
  flags _ _ _ _ := rfl
  held_empty := rfl
  owed_empty := rfl

/-! ### Histograms and traces -/

/-- A call that has returned, until its time is in the histogram. -/
def Hand.unsampled : Hand → Option Completed
  | .sample d => some d
  | _ => none

/-- A call that has returned, until it was offered to the trace. -/
def Hand.untraced : Hand → Option Completed
  | .sample d | .count d | .outcome d | .trace d => some d
  | _ => none

/-- The histogram of some calls. -/
def Histogram.ofCalls (ds : List Completed) : Histogram :=
  ds.foldl (fun h d => h.add d.dt) .new

/-- One more call is one more sample. -/
theorem Histogram.ofCalls_append (ds : List Completed) (d : Completed) :
    Histogram.ofCalls (ds ++ [d]) = (Histogram.ofCalls ds).add d.dt :=
  List.foldl_append

/-- The calls a worker has in its trace: some of those that were offered, or all. -/
def Traced (f : WorkerFlags) (ms : ℕ) (tw : TraceWriter) (ds : List Completed) : Prop :=
  ∃ xs, Wrote tw xs ∧ xs.Sublist (ds.map (traceCall ms)) ∧
    (1 ≤ f.traceSample → xs = ds.map (traceCall ms))

/-- **The books of a worker** about the calls of its own that have returned. -/
structure WorkerBooks (f : WorkerFlags) (ms : ℕ) (w : Worker σ) (mine : List Completed) :
    Prop where
  sampled : ∃ ds, mine.filter (·.measuring) = ds ++ w.pc.hand.unsampled.toList ∧
    w.rh = .ofCalls (ds.filter fun d => !d.isWrite) ∧ w.wh = .ofCalls (ds.filter (·.isWrite))
  traced : ∃ ds, mine.filter (·.measuring) = ds ++ w.pc.hand.untraced.toList ∧
    ∀ tw, w.tw = some tw → Traced f ms tw ds
  writer : w.tw.isSome = f.traceOut

/-- A step that neither samples nor traces owes what it owed before. -/
theorem Move.kept {now : ℕ} {s s' : Shared} {q q' : Hand} (hmove : Move now s q none s' q')
    (hsample : ∀ d, q ≠ .sample d) (htrace : ∀ d, q ≠ .trace d) :
    q'.unsampled = q.unsampled ∧ q'.untraced = q.untraced := by
  cases hmove with
  | sample d => exact absurd rfl (hsample d)
  | trace d => exact absurd rfl (htrace d)
  | _ => exact ⟨rfl, rfl⟩

/-- Not at the sampling line, no sample in hand. -/
theorem hand_ne_sample {q : WorkerPc} (h : ∀ d, q ≠ .sample d) (d : Completed) :
    q.hand ≠ .sample d := by
  cases q with
  | sample d' => exact absurd rfl (h d')
  | _ => simp [WorkerPc.hand]

/-- Not at the tracing line, no record in hand. -/
theorem hand_ne_trace {q : WorkerPc} (h : ∀ d, q ≠ .trace d) (d : Completed) :
    q.hand ≠ .trace d := by
  cases q with
  | trace d' => exact absurd rfl (h d')
  | _ => simp [WorkerPc.hand]

/-- Choosing the next operation leaves the worker's own histograms and trace alone. -/
theorem choose_private (f : WorkerFlags) (h : Host σ) (w : Worker σ) (m : Bool) (elapsedS p : ℚ) :
    (choose f h w m elapsedS p).rh = w.rh ∧ (choose f h w m elapsedS p).wh = w.wh ∧
      (choose f h w m elapsedS p).tw = w.tw := by
  unfold choose
  dsimp only
  split
  · split <;> exact ⟨rfl, rfl, rfl⟩
  · split <;> exact ⟨rfl, rfl, rfl⟩

/-- Histograms and trace change in two places only. -/
theorem act_private (f : WorkerFlags) (h : Host σ) (now : ℕ) (ok : Bool) (s : Shared)
    {w : Worker σ} (hsample : ∀ d, w.pc ≠ .sample d) (htrace : ∀ d, w.pc ≠ .trace d) :
    (act f h now ok s w).2.rh = w.rh ∧ (act f h now ok s w).2.wh = w.wh ∧
      (act f h now ok s w).2.tw = w.tw := by
  unfold act
  cases hpc : w.pc with
  | sample d => exact absurd hpc (hsample d)
  | trace d => exact absurd hpc (htrace d)
  | flag t0 p => exact choose_private f h w s.measuring _ p
  | asleep t0 wake =>
    dsimp only
    split_ifs <;> exact ⟨rfl, rfl, rfl⟩
  | count d =>
    dsimp only
    split_ifs <;> exact ⟨rfl, rfl, rfl⟩
  | _ => exact ⟨rfl, rfl, rfl⟩

namespace WorkerBooks

variable {f : WorkerFlags} {ms : ℕ} {w w' : Worker σ} {mine : List Completed}

/-- A turn that has nothing to do with them. -/
theorem keep (hb : WorkerBooks f ms w mine) (hrh : w'.rh = w.rh) (hwh : w'.wh = w.wh)
    (htw : w'.tw = w.tw) (hs : w'.pc.hand.unsampled = w.pc.hand.unsampled)
    (ht : w'.pc.hand.untraced = w.pc.hand.untraced) : WorkerBooks f ms w' mine := by
  obtain ⟨hsampled, htraced, hwriter⟩ := hb
  refine ⟨?_, ?_, ?_⟩
  · rw [hs, hrh, hwh]
    exact hsampled
  · rw [ht, htw]
    exact htraced
  · rw [htw]
    exact hwriter

/-- A call returns. -/
theorem returned (hb : WorkerBooks f ms w mine) {c : ClientOp} {t0 : ℕ} (hpc : w.pc = .call c t0)
    (d : Completed) (hd : d.measuring = c.measuring) :
    WorkerBooks f ms { w with pc := if c.measuring then .sample d else .top } (mine ++ [d]) := by
  obtain ⟨⟨ds, hds, hrh, hwh⟩, ⟨ts, hts, htw⟩, hwriter⟩ := hb
  rw [hpc] at hds hts
  have hds : mine.filter (·.measuring) = ds := hds.trans (List.append_nil _)
  have hts : mine.filter (·.measuring) = ts := hts.trans (List.append_nil _)
  have hfilter : (mine ++ [d]).filter (·.measuring) =
      mine.filter (·.measuring) ++ bif c.measuring then [d] else [] := by
    rw [List.filter_append, List.filter_singleton, hd]
  cases hm : c.measuring with
  | false =>
    rw [hm] at hfilter
    exact ⟨⟨ds, by rw [hfilter, hds]; rfl, hrh, hwh⟩, ⟨ts, by rw [hfilter, hts]; rfl, htw⟩,
      hwriter⟩
  | true =>
    rw [hm] at hfilter
    exact ⟨⟨ds, by rw [hfilter, hds]; rfl, hrh, hwh⟩, ⟨ts, by rw [hfilter, hts]; rfl, htw⟩,
      hwriter⟩

/-- A call goes into its histogram. -/
theorem sample (hb : WorkerBooks f ms w mine) {d : Completed} (hpc : w.pc = .sample d) :
    WorkerBooks f ms (if d.isWrite then { w with wh := w.wh.add d.dt, pc := .count d }
      else { w with rh := w.rh.add d.dt, pc := .count d }) mine := by
  obtain ⟨⟨ds, hds, hrh, hwh⟩, htraced, hwriter⟩ := hb
  rw [hpc] at hds htraced
  cases hd : d.isWrite with
  | true =>
    rw [if_pos rfl]
    refine ⟨⟨ds ++ [d], hds.trans (List.append_nil _).symm, ?_, ?_⟩, htraced, hwriter⟩
    · rw [hrh, List.filter_append, List.filter_singleton, hd]
      exact congrArg Histogram.ofCalls (List.append_nil _).symm
    · rw [hwh, List.filter_append, List.filter_singleton, hd]
      exact (Histogram.ofCalls_append _ d).symm
  | false =>
    rw [if_neg Bool.false_ne_true]
    refine ⟨⟨ds ++ [d], hds.trans (List.append_nil _).symm, ?_, ?_⟩, htraced, hwriter⟩
    · rw [hrh, List.filter_append, List.filter_singleton, hd]
      exact (Histogram.ofCalls_append _ d).symm
    · rw [hwh, List.filter_append, List.filter_singleton, hd]
      exact congrArg Histogram.ofCalls (List.append_nil _).symm

/-- A call is offered to the trace. -/
theorem trace (h : Host σ) (hb : WorkerBooks f ms w mine) {d : Completed} (hpc : w.pc = .trace d) :
    WorkerBooks f ms { addTrace f h w ms d with pc := .top } mine := by
  obtain ⟨⟨ds, hds, hrh, hwh⟩, ⟨ts, hts, htw⟩, hwriter⟩ := hb
  rw [hpc] at hds hts
  unfold addTrace
  cases hw : w.tw with
  | none =>
    refine ⟨⟨ds, hds, hrh, hwh⟩, ⟨ts ++ [d], hts.trans (List.append_nil _).symm, ?_⟩, hwriter⟩
    intro tw htw'
    exact absurd (htw'.symm.trans hw) (by simp)
  | some tw =>
    rw [hw] at hwriter
    refine ⟨⟨ds, hds, hrh, hwh⟩, ⟨ts ++ [d], hts.trans (List.append_nil _).symm, ?_⟩, hwriter⟩
    intro tw' htw'
    obtain rfl := Option.some.inj htw'
    obtain ⟨xs, hwrote, hsub, hall⟩ := htw tw hw
    rw [Traced, List.map_append]
    by_cases hsample : 1 ≤ f.traceSample
    · rw [if_pos hsample]
      refine ⟨xs ++ [traceCall ms d], hwrote.add _, hsub.append (List.Sublist.refl _), ?_⟩
      intro _
      rw [hall hsample]
      rfl
    · rw [if_neg hsample]
      split_ifs
      · exact ⟨xs ++ [traceCall ms d], hwrote.add _, hsub.append (List.Sublist.refl _),
          fun hs => absurd hs hsample⟩
      · exact ⟨xs, hwrote, hsub.trans (List.sublist_append_left _ _),
          fun hs => absurd hs hsample⟩

/-- **One turn** of the worker. -/
theorem act (h : Host σ) (hb : WorkerBooks f ms w mine) {s : Shared} (hms : s.measureStartUs = ms)
    (now : ℕ) (ok : Bool) :
    WorkerBooks f ms (act f h now ok s w).2 (mine ++ (returns now ok w).toList) := by
  have hmove := act_move f h now ok s w
  -- a turn that is no end of a call, no sample and no trace
  have hquiet : returns now ok w = none → (∀ d, w.pc ≠ .sample d) → (∀ d, w.pc ≠ .trace d) →
      WorkerBooks f ms (Bench.act f h now ok s w).2 (mine ++ (returns now ok w).toList) := by
    intro hret hsample htrace
    obtain ⟨hrh, hwh, htw⟩ := act_private f h now ok s hsample htrace
    rw [hret] at hmove ⊢
    rw [Option.toList_none, List.append_nil]
    obtain ⟨hs, ht⟩ := hmove.kept (hand_ne_sample hsample) (hand_ne_trace htrace)
    exact hb.keep hrh hwh htw hs ht
  unfold returns at hquiet ⊢
  cases hpc : w.pc with
  | call c t0 =>
    unfold Bench.act
    rw [hpc]
    exact hb.returned hpc _ rfl
  | sample d =>
    unfold Bench.act
    rw [hpc]
    exact (List.append_nil mine).symm ▸ hb.sample hpc
  | trace d =>
    unfold Bench.act
    rw [hpc, hms]
    exact (List.append_nil mine).symm ▸ hb.trace h hpc
  | _ =>
    rw [hpc] at hquiet
    exact hquiet rfl (by simp) (by simp)

end WorkerBooks

/-- The calls of a worker. -/
def callsOf (t : ι) (log : List (ι × Completed)) : List Completed :=
  (log.filter fun x => decide (x.1 = t)).map (·.2)

/-- A step adds to the calls of the worker that made it, and to no other's. -/
theorem callsOf_noteCalls (t u : ι) (log : List (ι × Completed)) (e : BenchEvent ι)
    (o : Option Completed) : callsOf t (noteCalls log e (o.map fun d => (u, d))) =
      callsOf t log ++ if u = t then o.toList else [] := by
  unfold callsOf noteCalls
  rw [List.filter_append, List.map_append]
  congr 1
  cases o with
  | none =>
    split_ifs <;> rfl
  | some d =>
    split_ifs with hut <;> simp [hut]

/-- What is set when the workers start and never changes. -/
theorem Move.settings {now : ℕ} {s s' : Shared} {q q' : Hand} {o : Option Completed}
    (hmove : Move now s q o s' q') :
    s'.runStartUs = s.runStartUs ∧ s'.measureStartUs = s.measureStartUs := by
  cases hmove <;> exact ⟨rfl, rfl⟩

/-- No worker touches the measuring flag or the driver. -/
theorem Move.flags {now : ℕ} {s s' : Shared} {q q' : Hand} {o : Option Completed}
    (hmove : Move now s q o s' q') : s'.measuring = s.measuring ∧ s'.driver = s.driver := by
  cases hmove <;> exact ⟨rfl, rfl⟩

/-- The two start times are set before the workers run. -/
theorem benchStep_settings (f : WorkerFlags) (h : Host σ) (c : Config ι Shared (Worker σ))
    (e : BenchEvent ι) :
    (benchStep f h c e).1.shared.runStartUs = c.shared.runStartUs ∧
      (benchStep f h c e).1.shared.measureStartUs = c.shared.measureStartUs := by
  cases e with
  | work t now ok => exact (act_move f h now ok c.shared (c.pos t)).settings
  | drive now =>
    obtain ⟨r, m, d, hdrive⟩ := drive_flags f now c.shared
    show (drive f now c.shared).runStartUs = _ ∧ (drive f now c.shared).measureStartUs = _
    rw [hdrive]
    exact ⟨rfl, rfl⟩

/-- In every run the start times are those it began with. -/
theorem run_settings (f : WorkerFlags) (h : Host σ) (runStartUs : ℕ) (rng : ι → σ)
    (es : List (BenchEvent ι)) :
    let s := (run (benchStep f h) (benchStart ι f runStartUs rng) es).shared
    s.runStartUs = runStartUs ∧ s.measureStartUs = runStartUs + f.warmup * 1000000 := by
  refine run_keeps (P := fun c : Config ι Shared (Worker σ) => c.shared.runStartUs = runStartUs ∧
    c.shared.measureStartUs = runStartUs + f.warmup * 1000000) (fun c e hc => ?_) es ⟨rfl, rfl⟩
  obtain ⟨hrun, hmeasure⟩ := benchStep_settings f h c e
  exact ⟨hrun.trans hc.1, hmeasure.trans hc.2⟩

/-- **A turn concerns one worker.** What holds of every worker and its calls, and of the one that
    takes its turn also afterwards, then holds of every worker. -/
theorem forall_worker_turn (f : WorkerFlags) (h : Host σ) {P : Worker σ → List Completed → Prop}
    {c : Config ι Shared (Worker σ)} {log : List (ι × Completed)} {u : ι} {now : ℕ} {ok : Bool}
    (hall : ∀ t, P (c.pos t) (callsOf t log))
    (hown : P (act f h now ok c.shared (c.pos u)).2
      (callsOf u log ++ (returns now ok (c.pos u)).toList)) (t : ι) :
    P ((benchStep f h c (.work u now ok)).1.pos t)
      (callsOf t (noteCalls log (.work u now ok) (benchStep f h c (.work u now ok)).2)) := by
  show P (Function.update c.pos u _ t) (callsOf t (noteCalls log _ (Option.map _ _)))
  rw [callsOf_noteCalls]
  by_cases hut : u = t
  · subst hut
    rw [Function.update_self, if_pos rfl]
    exact hown
  · rw [Function.update_of_ne (Ne.symm hut), if_neg hut, List.append_nil]
    exact hall t

/-- **Everybody's books**, after one turn. -/
theorem workerBooks_step (f : WorkerFlags) (h : Host σ) {ms : ℕ} {c : Config ι Shared (Worker σ)}
    {log : List (ι × Completed)} (hms : c.shared.measureStartUs = ms)
    (hb : ∀ t, WorkerBooks f ms (c.pos t) (callsOf t log)) (e : BenchEvent ι) (t : ι) :
    WorkerBooks f ms ((benchStep f h c e).1.pos t)
      (callsOf t (noteCalls log e (benchStep f h c e).2)) := by
  cases e with
  | work u now ok =>
    exact forall_worker_turn f h (P := WorkerBooks f ms) hb ((hb u).act h hms now ok) t
  | drive now =>
    show WorkerBooks f ms (c.pos t) (callsOf t (log ++ []))
    rw [List.append_nil]
    exact hb t

/-- **Everybody's books**, after a run. -/
theorem workerBooks_run (f : WorkerFlags) (h : Host σ) (runStartUs : ℕ) (rng : ι → σ)
    (es : List (BenchEvent ι)) (t : ι) :
    WorkerBooks f (runStartUs + f.warmup * 1000000)
      ((run (benchStep f h) (benchStart ι f runStartUs rng) es).pos t)
      (callsOf t (watch (benchStep f h) noteCalls (benchStart ι f runStartUs rng) [] es)) := by
  have hrun := watch_keeps (benchStep f h) noteCalls
    (P := fun c log => c.shared.measureStartUs = runStartUs + f.warmup * 1000000 ∧
      ∀ t, WorkerBooks f (runStartUs + f.warmup * 1000000) (c.pos t) (callsOf t log))
    (fun c log e hP => ⟨(benchStep_settings f h c e).2.trans hP.1,
      workerBooks_step f h hP.1 hP.2 e⟩) es (s := benchStart ι f runStartUs rng) (t := []) ⟨rfl, ?_⟩
  · exact hrun.2 t
  · intro u
    have hwriter : (if f.traceOut then some ({ isOpen := true } : TraceWriter) else none).isSome =
        f.traceOut := by
      cases f.traceOut <;> rfl
    refine ⟨⟨[], rfl, rfl, rfl⟩, ⟨[], rfl, ?_⟩, hwriter⟩
    intro tw htw
    have hopen : tw.isOpen = true ∧ tw.buf = [] ∧ tw.disk = [] := by
      have htw : (if f.traceOut then some { isOpen := true } else none) = some tw := htw
      split_ifs at htw
      obtain rfl := Option.some.inj htw
      exact ⟨rfl, rfl, rfl⟩
    refine ⟨[], ⟨hopen.1, ?_, ?_⟩, List.Sublist.refl _, fun _ => rfl⟩
    · rw [hopen.2.1]
      decide
    · rw [hopen.2.1, hopen.2.2]
      rfl

/-! ### The accounts of a run -/

/-- **The counters are exact**, for every interleaving of any number of workers with each other and
    with the loop of `Run`.  At every time at which no worker has an operation in hand (when all
    have returned, for one), `ops_issued` and `writes_issued` are the numbers of the calls and of
    the writes that were made, `reads` and `writes` those chosen while the window was open,
    `read_hits` and `read_misses` part `reads` by the outcome, and each worker's histograms have the
    times of its own measured calls.  Every key from `num` up to `next_insert_key` was inserted
    exactly once and no other was. -/
theorem accounting [Fintype ι] (f : WorkerFlags) (h : Host σ) (runStartUs : ℕ) (rng : ι → σ)
    (es : List (BenchEvent ι))
    (hidle : ∀ t,
      ((run (benchStep f h) (benchStart ι f runStartUs rng) es).pos t).pc.hand = .empty) :
    let c := run (benchStep f h) (benchStart ι f runStartUs rng) es
    let log := watch (benchStep f h) noteCalls (benchStart ι f runStartUs rng) [] es
    c.shared.opsIssued = log.length ∧
      c.shared.writesIssued = log.countP (fun x => x.2.isWrite) ∧
      c.shared.reads = log.countP (fun x => x.2.measuring && !x.2.isWrite) ∧
      c.shared.writes = log.countP (fun x => x.2.measuring && x.2.isWrite) ∧
      c.shared.readHits = log.countP (fun x => x.2.measuring && (!x.2.isWrite && x.2.ok)) ∧
      c.shared.readHits + c.shared.readMisses = c.shared.reads ∧
      (∀ k, log.countP (fun x => x.2.inserts k) =
        if f.num ≤ k ∧ k < c.shared.nextInsertKey then 1 else 0) ∧
      ∀ t, (c.pos t).rh = .ofCalls ((callsOf t log).filter fun d => !d.isWrite && d.measuring) ∧
        (c.pos t).wh = .ofCalls ((callsOf t log).filter fun d => d.isWrite && d.measuring) := by
  intro c log
  -- with all hands empty an account has nothing outstanding
  have settled : ∀ {A : Account}, A.Sound →
      A.count c.shared = A.count (benchStart ι f runStartUs rng).shared +
        log.countP fun x => A.weight x.2 := fun hA =>
    hA.settled (hA.run f h runStartUs rng es) hidle
  have hreads := settled readsAccount_sound
  have hhits := settled readHitsAccount_sound
  have hmisses := settled readMissesAccount_sound
  refine ⟨?_, (settled writesIssuedAccount_sound).trans (Nat.zero_add _),
    hreads.trans (Nat.zero_add _), (settled writesAccount_sound).trans (Nat.zero_add _),
    hhits.trans (Nat.zero_add _), ?_, ?_, ?_⟩
  · refine (settled opsAccount_sound).trans ((Nat.zero_add _).trans ?_)
    exact congrFun List.countP_true log
  · refine ((congrArg₂ (· + ·) (hhits.trans (Nat.zero_add _))
      (hmisses.trans (Nat.zero_add _))).trans ?_).trans (hreads.trans (Nat.zero_add _)).symm
    -- a measured read is either answered or not
    refine countP_parts (fun x => ?_) log
    show (x.2.measuring && (!x.2.isWrite && x.2.ok)).toNat +
      (x.2.measuring && (!x.2.isWrite && !x.2.ok)).toNat = (x.2.measuring && !x.2.isWrite).toNat
    cases x.2.measuring <;> cases x.2.isWrite <;> cases x.2.ok <;> rfl
  · intro k
    -- the account of one key says whether the counter has passed it
    have hkey : (decide (k < c.shared.nextInsertKey)).toNat =
        (decide (k < f.num)).toNat + log.countP fun x => x.2.inserts k :=
      settled (insertAccount_sound k)
    by_cases hnum : k < f.num
    · have hle := Bool.toNat_le (decide (k < c.shared.nextInsertKey))
      rw [if_neg fun hk => absurd hnum (Nat.not_lt.mpr hk.1)]
      rw [decide_eq_true hnum] at hkey
      have hone : true.toNat = 1 := rfl
      omega
    · rw [decide_eq_false hnum] at hkey
      refine ((hkey.trans (Nat.zero_add _)).symm).trans ?_
      by_cases hnext : k < c.shared.nextInsertKey
      · rw [if_pos ⟨Nat.not_lt.mp hnum, hnext⟩, decide_eq_true hnext]
        rfl
      · rw [if_neg fun hk => hnext hk.2, decide_eq_false hnext]
        rfl
  · intro t
    -- the worker's samples are its measured calls, with none in hand
    obtain ⟨ds, hds, hrh, hwh⟩ := (workerBooks_run f h runStartUs rng es t).sampled
    rw [hidle t] at hds
    have hds : (callsOf t log).filter (·.measuring) = ds := hds.trans (List.append_nil _)
    refine ⟨hrh.trans ?_, hwh.trans ?_⟩
    · rw [← hds, List.filter_filter]
    · rw [← hds, List.filter_filter]

/-- A generator that deals a list, and always the key 5. -/
def dealing : Host (List ℚ) where
  pick rng := (rng.headD 0, rng.tail)
  voff rng := (0, rng)
  next _ _ rng := (5, rng)
  cos _ := 1

/-- Eight keys, a window of one second that is open from the start, and a trace. -/
def eightKeys : WorkerFlags := { num := 8, warmup := 0, duration := 1, traceOut := true }

/-- Two workers take turns: worker 0 reads, worker 1 inserts. -/
def readAndInsert : List (BenchEvent (Fin 2)) :=
  .drive 0 :: (List.range 11).flatMap fun i => [.work 0 (3 * i) true, .work 1 (3 * i + 1) true]

/-- One worker reads and the other inserts, in turns. -/
theorem accounting_readAndInsert :
    (run (benchStep eightKeys dealing) (benchStart (Fin 2) eightKeys 0 fun t => [(t.val : ℚ)])
        readAndInsert).shared.readHits +
      (run (benchStep eightKeys dealing) (benchStart (Fin 2) eightKeys 0 fun t => [(t.val : ℚ)])
        readAndInsert).shared.readMisses = 1 ∧
    (watch (benchStep eightKeys dealing) noteCalls
        (benchStart (Fin 2) eightKeys 0 fun t => [(t.val : ℚ)]) []
        readAndInsert).countP (fun x => x.2.inserts 8) = 1 := by
  obtain ⟨-, -, -, -, -, hparts, hkeys, -⟩ :=
    accounting eightKeys dealing 0 (fun t => [(t.val : ℚ)]) readAndInsert (by decide +kernel)
  refine ⟨hparts.trans (by decide +kernel), (hkeys 8).trans (if_pos ?_)⟩
  decide +kernel

end Leaper.Bench
