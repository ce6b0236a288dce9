import Leaper.Lib.Intervals
import Leaper.Lib.Rounding
import Mathlib.Algebra.Order.Ring.Rat
import Mathlib.Data.List.Infix
import Mathlib.Data.List.Sort
import Mathlib.Tactic.Linarith

namespace Leaper.Metrics

open Lib

/-!
# Reporting a run

`tools/paper_metrics.py`: the compaction windows of an event log, and what the seconds of a run
inside and outside of them add up to.  The log does not name jobs; `read_windows` pairs each end
with the oldest begin that is still open, of any kind.

* `pairWindows_spec` — the pairs of `read_windows` are the begins and the ends in their order;
* `inWindow_iff_job` — their union is that of the windows of the jobs;
* `summarise_eq_jobs` — the report is the one that the windows of the jobs give;
* `summariseRows_balanced` — what it counts inside and outside of the windows adds up.
-/

/-- `EventType`. -/
inductive EventType
  | compactionBegin
  | compactionEnd
  | flushBegin
  | flushEnd
  | trivialMove
  deriving DecidableEq, Repr

namespace EventType

def isBegin : EventType → Bool
  | compactionBegin | flushBegin => true
  | _ => false

def isEnd : EventType → Bool
  | compactionEnd | flushEnd => true
  | _ => false

/-- The end of a job of the kind that begins so. -/
def endOf : EventType → EventType
  | compactionBegin => compactionEnd
  | flushBegin => flushEnd
  | other => other

end EventType

/-- A line of the event log, with the columns the report reads. -/
structure BgEvent where
  t : ℚ
  type : EventType
  deriving DecidableEq

/-- The body of the loop of `read_windows`, over `spans` and `opened`; a window lasts from a begin
    until `late` of the end. -/
def windowsStep (late : ℚ → ℚ) (s : List (ℚ × ℚ) × List ℚ) (r : BgEvent) :
    List (ℚ × ℚ) × List ℚ :=
  if r.type.isBegin then (s.1, s.2 ++ [r.t])
  else if r.type.isEnd then
    match s.2 with
    | [] => s
    | b :: opened => (s.1 ++ [(b, late r.t)], opened)
  else s

/-- The loop. -/
def pairWindows (late : ℚ → ℚ) (rows : List BgEvent) : List (ℚ × ℚ) :=
  (rows.foldl (windowsStep late) ([], [])).1

/-- `t + t2`, of doubles. -/
def addT2 (t2 t : ℚ) : ℚ := binary64 (t + t2)

/-- `read_windows`; there may be no file. -/
def readWindows (log : Option (List BgEvent)) (t2 : ℚ) : List (ℚ × ℚ) :=
  match log with
  | none => []
  | some rows => pairWindows (addT2 t2) rows

/-- `in_window`. -/
def inWindow (t : ℚ) (spans : List (ℚ × ℚ)) : Bool :=
  spans.any fun s => decide (s.1 ≤ t) && decide (t ≤ s.2)

/-- A second is in a window if some window has it. -/
theorem inWindow_iff {t : ℚ} {spans : List (ℚ × ℚ)} :
    inWindow t spans = true ↔ ∃ s ∈ spans, s.1 ≤ t ∧ t ≤ s.2 := by
  simp only [inWindow, List.any_eq_true, Bool.and_eq_true, decide_eq_true_eq]

/-! ### Pairing in order -/

/-- The times of the lines of some types. -/
def timesOf (p : EventType → Bool) (log : List BgEvent) : List ℚ :=
  (log.filter fun r => p r.type).map BgEvent.t

/-- What `spans` and `opened` are after a log. -/
structure Paired (late : ℚ → ℚ) (log : List BgEvent) (s : List (ℚ × ℚ) × List ℚ) : Prop where
  begins : s.1.map Prod.fst ++ s.2 = timesOf EventType.isBegin log
  ends : s.1.map Prod.snd = (timesOf EventType.isEnd log).map late
  ordered : ∀ x ∈ s.1, x.1 ≤ x.2

/-- No window is over before a line that comes before its end. -/
def Lasting (late : ℚ → ℚ) (log : List BgEvent) : Prop :=
  ∀ x ∈ log, ∀ y ∈ log, x.t ≤ y.t → x.t ≤ late y.t

/-- Windows that are lengthened do not end before they begin. -/
theorem lasting_add {t2 : ℚ} (ht2 : 0 ≤ t2) (log : List BgEvent) : Lasting (· + t2) log :=
  fun _ _ _ _ h => h.trans (le_add_of_nonneg_right ht2)

/-- The times of a file are doubles, and a sum of doubles is not rounded below one of them. -/
theorem lasting_addT2 {t2 : ℚ} (ht2 : 0 ≤ t2) {log : List BgEvent}
    (hdouble : ∀ x ∈ log, binary64 x.t = x.t) : Lasting (addT2 t2) log := by
  intro x hx y _ h
  rw [← hdouble x hx]
  exact roundSig_monotone (by norm_num) (h.trans (le_add_of_nonneg_right ht2))

variable {late : ℚ → ℚ}

/-- One window for each end. -/
theorem Paired.length_spans {log : List BgEvent} {s : List (ℚ × ℚ) × List ℚ}
    (h : Paired late log s) : s.1.length = (timesOf EventType.isEnd log).length := by
  have hlen := congrArg List.length h.ends
  rwa [List.length_map, List.length_map] at hlen

/-- Every begin is either paired or still open. -/
theorem Paired.length_opened {log : List BgEvent} {s : List (ℚ × ℚ) × List ℚ}
    (h : Paired late log s) :
    (timesOf EventType.isEnd log).length + s.2.length =
      (timesOf EventType.isBegin log).length := by
  have hlen := congrArg List.length h.begins
  rw [List.length_append, List.length_map, h.length_spans] at hlen
  exact hlen

/-- No event both begins and ends a job. -/
theorem not_isEnd_of_isBegin {k : EventType} (h : k.isBegin = true) : k.isEnd = false := by
  cases k <;> first | rfl | exact absurd h Bool.false_ne_true

/-- An event of the kind adds its time. -/
theorem timesOf_append_pos {p : EventType → Bool} (log : List BgEvent) {r : BgEvent}
    (h : p r.type = true) : timesOf p (log ++ [r]) = timesOf p log ++ [r.t] := by
  unfold timesOf
  rw [List.filter_append, List.filter_singleton, h, List.map_append]
  rfl

/-- An event of another kind does not. -/
theorem timesOf_append_neg {p : EventType → Bool} (log : List BgEvent) {r : BgEvent}
    (h : p r.type = false) : timesOf p (log ++ [r]) = timesOf p log := by
  unfold timesOf
  rw [List.filter_append, List.filter_singleton, h]
  exact congrArg _ (List.append_nil _)

/-- One line of the log.  An end finds a begin that is open, and no begin is later. -/
theorem Paired.step {log : List BgEvent} {s : List (ℚ × ℚ) × List ℚ}
    (h : Paired late log s) {r : BgEvent} (hlast : ∀ x ∈ log, x.t ≤ late r.t)
    (hopen : (timesOf EventType.isEnd (log ++ [r])).length ≤
      (timesOf EventType.isBegin (log ++ [r])).length) :
    Paired late (log ++ [r]) (windowsStep late s r) := by
  unfold windowsStep
  by_cases hbegin : r.type.isBegin = true
  · -- a begin waits at the end of the queue
    have hend := not_isEnd_of_isBegin hbegin
    rw [if_pos hbegin]
    refine ⟨?_, ?_, h.ordered⟩
    · rw [timesOf_append_pos log hbegin, ← h.begins, List.append_assoc]
    · rw [timesOf_append_neg log hend]
      exact h.ends
  · have hbegin := Bool.eq_false_iff.mpr hbegin
    rw [if_neg (by rw [hbegin]; decide)]
    by_cases hend : r.type.isEnd = true
    · rw [if_pos hend]
      rw [timesOf_append_pos log hend, timesOf_append_neg log hbegin,
        List.length_append,
        ← h.length_opened, List.length_singleton] at hopen
      -- an end takes the oldest begin, and there is one
      cases hs : s.2 with
      | nil =>
        rw [hs, List.length_nil] at hopen
        omega
      | cons b opened =>
        have hbegins := h.begins
        rw [hs] at hbegins
        have hb : b ≤ late r.t := by
          have hmem : b ∈ timesOf EventType.isBegin log := by
            rw [← hbegins]
            exact List.mem_append_right _ List.mem_cons_self
          obtain ⟨x, hx, rfl⟩ := List.mem_map.mp hmem
          exact hlast x (List.mem_of_mem_filter hx)
        refine ⟨?_, ?_, ?_⟩
        · rw [timesOf_append_neg log hbegin, ← hbegins, List.map_append, List.append_assoc]
          rfl
        · rw [timesOf_append_pos log hend, List.map_append, List.map_append, h.ends]
          rfl
        · intro x hx
          rcases List.mem_append.mp hx with hx | hx
          · exact h.ordered x hx
          · rw [List.mem_singleton.mp hx]
            exact hb
    · -- a move is neither
      have hend := Bool.eq_false_iff.mpr hend
      rw [if_neg (by rw [hend]; decide)]
      refine ⟨?_, ?_, h.ordered⟩
      · rw [timesOf_append_neg log hbegin]
        exact h.begins
      · rw [timesOf_append_neg log hend]
        exact h.ends

/-- **The pairs of `read_windows`**, on a log in the order of time in which no end comes before its
    begin.  The induction is on the lines read so far. -/
theorem pairWindows_spec (log : List BgEvent) (hlate : Lasting late log)
    (hsorted : log.Pairwise fun x y => x.t ≤ y.t)
    (hopen : ∀ q, q <+: log →
      (timesOf EventType.isEnd q).length ≤ (timesOf EventType.isBegin q).length) :
    Paired late log (log.foldl (windowsStep late) ([], [])) := by
  induction log using List.reverseRecOn with
  | nil => exact ⟨rfl, rfl, fun x hx => absurd hx List.not_mem_nil⟩
  | append_singleton log r ih =>
    obtain ⟨hlog, -, hlast⟩ := List.pairwise_append.mp hsorted
    rw [List.foldl_append]
    have hold : Lasting late log := fun x hx y hy =>
      hlate x (List.mem_append_left _ hx) y (List.mem_append_left _ hy)
    refine (ih hold hlog fun q hq => hopen q (hq.trans (List.prefix_append _ _))).step
      (fun x hx => ?_) (hopen _ List.prefix_rfl)
    exact hlate x (List.mem_append_left _ hx) r (List.mem_append_right _ List.mem_cons_self)
      (hlast x hx r List.mem_cons_self)

/-! ### Jobs -/

section Jobs

variable {ι : Type*} [DecidableEq ι]

/-- The begins and ends of a job, in a log whose lines are marked with the jobs they are about. -/
def linesOf (j : ι) (lines : List (BgEvent × ι)) : List BgEvent :=
  (lines.filter fun x => x.2 = j ∧ (x.1.type.isBegin || x.1.type.isEnd) = true).map Prod.fst

/-- An event log in the order of time in which every job has one begin and one later end.  The
    marks are not part of the file. -/
structure JobLog (ι : Type*) [DecidableEq ι] where
  lines : List (BgEvent × ι)
  sorted : lines.Pairwise fun x y => x.1.t ≤ y.1.t
  paired : ∀ j, linesOf j lines = [] ∨
    ∃ b e, linesOf j lines = [b, e] ∧ b.type.isBegin = true ∧ e.type = b.type.endOf

/-- The file. -/
def JobLog.log (L : JobLog ι) : List BgEvent := L.lines.map Prod.fst

/-- Counting begins and ends job by job. -/
theorem countP_linesOf {p : BgEvent → Bool}
    (hp : ∀ r, p r = true → (r.type.isBegin || r.type.isEnd) = true) {S : Finset ι}
    {lines : List (BgEvent × ι)} (hS : ∀ x ∈ lines, x.2 ∈ S) :
    (lines.map Prod.fst).countP p = ∑ j ∈ S, (linesOf j lines).countP p := by
  rw [List.countP_map, countP_eq_sum_fiber Prod.snd _ hS]
  refine Finset.sum_congr rfl fun j _ => ?_
  unfold linesOf
  rw [List.countP_map, List.countP_filter, List.countP_filter]
  refine List.countP_congr fun x _ => ?_
  have hx := hp x.1
  simp only [Function.comp_apply, Bool.and_eq_true, decide_eq_true_eq]
  tauto

/-- The lines of a job in the first part of a log come first. -/
theorem prefix_linesOf (j : ι) {q lines : List (BgEvent × ι)} (h : q <+: lines) :
    linesOf j q <+: linesOf j lines := (h.filter _).map _

/-- A count over the times of some lines. -/
theorem countP_timesOf (p : EventType → Bool) (c : ℚ → Bool) (log : List BgEvent) :
    (timesOf p log).countP c = log.countP fun r => c r.t && p r.type := by
  unfold timesOf
  rw [List.countP_map, List.countP_filter]
  rfl

/-- As many times as events of the kind. -/
theorem length_timesOf (p : EventType → Bool) (log : List BgEvent) :
    (timesOf p log).length = log.countP fun r => p r.type := by
  unfold timesOf
  rw [List.length_map, List.countP_eq_length_filter]

/-- The event that ends a job is an end and no begin. -/
theorem isEnd_endOf {k : EventType} (h : k.isBegin = true) :
    k.endOf.isEnd = true ∧ k.endOf.isBegin = false := by
  cases k <;> first | exact ⟨rfl, rfl⟩ | exact absurd h Bool.false_ne_true

namespace JobLog

variable (L : JobLog ι)

/-- The jobs of the log. -/
def jobs : Finset ι := (L.lines.map Prod.snd).toFinset

/-- Every line is of one of the jobs. -/
theorem mem_jobs {x : BgEvent × ι} (hx : x ∈ L.lines) : x.2 ∈ L.jobs :=
  List.mem_toFinset.mpr (List.mem_map_of_mem hx)

variable {L}

/-- A job that has lines is one of the jobs. -/
theorem mem_jobs_of_lines {j : ι} {b : BgEvent} {rest : List BgEvent}
    (h : linesOf j L.lines = b :: rest) : j ∈ L.jobs := by
  have hmem : b ∈ linesOf j L.lines := by
    rw [h]
    exact List.mem_cons_self
  obtain ⟨x, hx, -⟩ := List.mem_map.mp hmem
  obtain ⟨hx, hkey⟩ := List.mem_filter.mp hx
  rw [← (of_decide_eq_true hkey).1]
  exact L.mem_jobs hx

/-- What the lines of a job are: nothing, or its begin and its end. -/
theorem lines_cases (j : ι) : linesOf j L.lines = [] ∨
    ∃ b e, linesOf j L.lines = [b, e] ∧ b.type.isBegin = true ∧ b.type.isEnd = false ∧
      e.type.isBegin = false ∧ e.type.isEnd = true ∧ b.t ≤ e.t := by
  rcases L.paired j with hnil | ⟨b, e, hlines, hb, he⟩
  · exact Or.inl hnil
  · right
    have hsorted : (linesOf j L.lines).Pairwise fun x y => x.t ≤ y.t :=
      List.pairwise_map.mpr (L.sorted.filter _)
    rw [hlines] at hsorted
    refine ⟨b, e, hlines, hb, not_isEnd_of_isBegin hb, ?_, ?_, ?_⟩
    · rw [he]
      exact (isEnd_endOf hb).2
    · rw [he]
      exact (isEnd_endOf hb).1
    · exact (List.pairwise_cons.mp hsorted).1 e List.mem_cons_self

/-- In no initial part of the log are there more ends than begins. -/
theorem ends_le_begins {q : List BgEvent} (hq : q <+: L.log) :
    (timesOf EventType.isEnd q).length ≤ (timesOf EventType.isBegin q).length := by
  obtain ⟨r, hr, rfl⟩ := List.prefix_map_iff.mp hq
  have hS : ∀ x ∈ r, x.2 ∈ L.jobs := fun x hx => L.mem_jobs (hr.subset hx)
  rw [length_timesOf, length_timesOf,
    countP_linesOf (fun r h => by rw [h, Bool.or_true]) hS,
    countP_linesOf (fun r h => by rw [h, Bool.true_or]) hS]
  refine Finset.sum_le_sum fun j _ => ?_
  have hbegun := prefix_linesOf j hr
  rcases lines_cases (L := L) j with hnil | ⟨b, e, hlines, hb, hb', he, he', -⟩
  · rw [hnil, List.prefix_nil] at hbegun
    rw [hbegun]
    exact le_rfl
  · -- the job has not begun, is open, or is over
    rw [hlines, List.prefix_cons_iff] at hbegun
    rcases hbegun with hr | ⟨rest, hr, hrest⟩
    · rw [hr]
      exact le_rfl
    · rw [List.prefix_cons_iff] at hrest
      rcases hrest with rfl | ⟨rest, rfl, hrest⟩
      · rw [hr]
        simp [hb, hb']
      · rw [List.prefix_nil] at hrest
        rw [hr, hrest]
        simp [hb, hb', he, he']

/-- As many ends as begins. -/
theorem ends_eq_begins :
    (timesOf EventType.isEnd L.log).length = (timesOf EventType.isBegin L.log).length := by
  unfold log
  rw [length_timesOf, length_timesOf,
    countP_linesOf (fun r h => by rw [h, Bool.or_true]) fun x => L.mem_jobs,
    countP_linesOf (fun r h => by rw [h, Bool.true_or]) fun x => L.mem_jobs]
  refine Finset.sum_congr rfl fun j _ => ?_
  rcases lines_cases (L := L) j with hnil | ⟨b, e, hlines, hb, hb', he, he', -⟩
  · rw [hnil]
    rfl
  · rw [hlines]
    simp [hb, hb', he, he']

/-- The pairs of `read_windows` have the begins of the jobs for begins and their ends for ends. -/
theorem spans_eq (hlate : Lasting late L.log) :
    (pairWindows late L.log).map Prod.fst = timesOf EventType.isBegin L.log ∧
      (pairWindows late L.log).map Prod.snd = (timesOf EventType.isEnd L.log).map late ∧
      ∀ x ∈ pairWindows late L.log, x.1 ≤ x.2 := by
  have hpaired := pairWindows_spec L.log hlate (List.pairwise_map.mpr L.sorted)
    fun q => ends_le_begins
  have hopened := hpaired.length_opened
  rw [ends_eq_begins] at hopened
  have hnil : (L.log.foldl (windowsStep late) ([], [])).2 = [] :=
    List.eq_nil_of_length_eq_zero (by omega)
  have hbegins := hpaired.begins
  rw [hnil, List.append_nil] at hbegins
  exact ⟨hbegins, hpaired.ends, hpaired.ordered⟩

/-- The lines of a job are lines of the log. -/
theorem mem_log_of_linesOf {j : ι} {x : BgEvent} (hx : x ∈ linesOf j L.lines) : x ∈ L.log := by
  obtain ⟨y, hy, rfl⟩ := List.mem_map.mp hx
  exact List.mem_map_of_mem (List.mem_of_mem_filter hy)

/-- The windows of a job that begin by `t`, and those that are over before `t`. -/
theorem over_le_begun (hlate : Lasting late L.log) (t : ℚ) (j : ι) :
    (linesOf j L.lines).countP (fun r => decide (late r.t < t) && r.type.isEnd) ≤
        (linesOf j L.lines).countP (fun r => decide (r.t ≤ t) && r.type.isBegin) ∧
      ((linesOf j L.lines).countP (fun r => decide (late r.t < t) && r.type.isEnd) <
          (linesOf j L.lines).countP (fun r => decide (r.t ≤ t) && r.type.isBegin) ↔
        ∃ b e, linesOf j L.lines = [b, e] ∧ b.t ≤ t ∧ t ≤ late e.t) := by
  rcases lines_cases (L := L) j with hnil | ⟨b, e, hlines, hb, hb', he, he', hle⟩
  · rw [hnil]
    simp
  · have hlasts : b.t ≤ late e.t := by
      refine hlate b (mem_log_of_linesOf (j := j) ?_) e (mem_log_of_linesOf (j := j) ?_) hle
      all_goals rw [hlines]; simp
    rw [hlines]
    have hwindow : (∃ b' e', [b, e] = [b', e'] ∧ b'.t ≤ t ∧ t ≤ late e'.t) ↔
        b.t ≤ t ∧ t ≤ late e.t := by
      constructor
      · rintro ⟨b', e', heq, h⟩
        obtain ⟨rfl, rfl⟩ : b = b' ∧ e = e' := by simpa using heq
        exact h
      · intro h
        exact ⟨b, e, rfl, h⟩
    rw [hwindow]
    simp only [List.countP_cons, List.countP_nil, hb, hb', he, he', Bool.and_true, Bool.and_false,
      Bool.false_eq_true, if_false, decide_eq_true_eq, Nat.zero_add, Nat.add_zero]
    -- a window that is over has begun
    by_cases hover : late e.t < t
    · have hbegun : b.t ≤ t := hlasts.trans hover.le
      simp [hover, hbegun]
    · by_cases hbegun : b.t ≤ t
      · simp [hover, hbegun, not_lt.mp hover]
      · simp [hover, hbegun]

/-- The windows of the jobs, each from its begin until `late` of its end. -/
def windows (L : JobLog ι) (late : ℚ → ℚ) : List (ℚ × ℚ) :=
  (L.lines.map Prod.snd).filterMap fun j =>
    match linesOf j L.lines with
    | [b, e] => some (b.t, late e.t)
    | _ => none

/-- A second is in a window exactly if a job with a begin and an end has it, from the one to the
    lengthened other. -/
theorem inWindow_windows {t : ℚ} :
    inWindow t (L.windows late) = true ↔
      ∃ j b e, linesOf j L.lines = [b, e] ∧ b.t ≤ t ∧ t ≤ late e.t := by
  rw [inWindow_iff]
  unfold windows
  constructor
  · rintro ⟨s, hs, hin⟩
    obtain ⟨j, -, hj⟩ := List.mem_filterMap.mp hs
    rcases lines_cases (L := L) j with hnil | ⟨b, e, hlines, -⟩
    · rw [hnil] at hj
      exact absurd hj (Option.some_ne_none s).symm
    · rw [hlines] at hj
      rw [← Option.some.inj hj] at hin
      exact ⟨j, b, e, hlines, hin⟩
  · rintro ⟨j, b, e, hlines, hin⟩
    refine ⟨(b.t, late e.t), List.mem_filterMap.mpr ⟨j, ?_, ?_⟩, hin⟩
    · exact List.mem_toFinset.mp (mem_jobs_of_lines hlines)
    · rw [hlines]

/-- The windows of `read_windows` cover what those of the jobs cover. -/
theorem inWindow_pairWindows (L : JobLog ι) (hlate : Lasting late L.log) (t : ℚ) :
    inWindow t (pairWindows late L.log) = inWindow t (L.windows late) := by
  rw [Bool.eq_iff_iff, inWindow_windows]
  obtain ⟨hbegins, hends, hordered⟩ := spans_eq hlate
  have hcount : inWindow t (pairWindows late L.log) = true ↔
      L.log.countP (fun r => decide (late r.t < t) && r.type.isEnd) <
        L.log.countP (fun r => decide (r.t ≤ t) && r.type.isBegin) := by
    rw [inWindow_iff, exists_mem_interval_iff hordered, hbegins, hends, List.countP_map,
      countP_timesOf, countP_timesOf]
    rfl
  rw [hcount]
  unfold log
  rw [countP_linesOf (fun r h => by rw [(Bool.and_eq_true_iff.mp h).2, Bool.or_true])
      fun x => L.mem_jobs,
    countP_linesOf (fun r h => by rw [(Bool.and_eq_true_iff.mp h).2, Bool.true_or])
      fun x => L.mem_jobs]
  constructor
  · intro h
    obtain ⟨j, -, hj⟩ := Finset.exists_lt_of_sum_lt h
    exact ⟨j, (over_le_begun hlate t j).2.mp hj⟩
  · rintro ⟨j, b, e, hlines, hb, he⟩
    exact Finset.sum_lt_sum (fun j _ => (over_le_begun hlate t j).1)
      ⟨j, mem_jobs_of_lines hlines, (over_le_begun hlate t j).2.mpr ⟨b, e, hlines, hb, he⟩⟩

/-- **Pairing in order does not change the windows.**  A second is in a window of the pairs exactly
    when it is in that of a job, from its begin to `t2` after its end; and it is in a window of
    `read_windows`, which reads and adds doubles, exactly when it is in that of a job by the sum of
    doubles. -/
theorem inWindow_iff_job (L : JobLog ι) {t2 : ℚ} (ht2 : 0 ≤ t2) (t : ℚ) :
    (inWindow t (pairWindows (· + t2) L.log) = true ↔
      ∃ j b e, linesOf j L.lines = [b, e] ∧ b.t ≤ t ∧ t ≤ e.t + t2) ∧
    ((∀ x ∈ L.log, binary64 x.t = x.t) →
      (inWindow t (readWindows (some L.log) t2) = true ↔
        ∃ j b e, linesOf j L.lines = [b, e] ∧ b.t ≤ t ∧ t ≤ binary64 (e.t + t2))) := by
  constructor
  · rw [inWindow_pairWindows L (lasting_add ht2 _) t]
    exact inWindow_windows
  · intro hdouble
    show inWindow t (pairWindows (addT2 t2) L.log) = true ↔ _
    rw [inWindow_pairWindows L (lasting_addT2 ht2 hdouble) t]
    exact inWindow_windows

/-- A flush inside of a compaction. -/
def nested : JobLog Bool where
  lines := [(⟨0, .compactionBegin⟩, false), (⟨1, .flushBegin⟩, true), (⟨2, .flushEnd⟩, true),
    (⟨5, .compactionEnd⟩, false)]
  sorted := by decide
  paired
    | false => Or.inr ⟨⟨0, .compactionBegin⟩, ⟨5, .compactionEnd⟩, rfl, rfl, rfl⟩
    | true => Or.inr ⟨⟨1, .flushBegin⟩, ⟨2, .flushEnd⟩, rfl, rfl, rfl⟩

/-- The flush's end is taken for the compaction's, and second 3 is in a window all the same. -/
theorem inWindow_nested :
    readWindows (some nested.log) 0 = [(0, 2), (1, 5)] ∧
      inWindow 3 (readWindows (some nested.log) 0) = true := by
  have hdouble : ∀ x ∈ nested.log, binary64 x.t = x.t := by decide +kernel
  refine ⟨by decide +kernel, ((inWindow_iff_job nested le_rfl 3).2 hdouble).mpr ?_⟩
  exact ⟨false, ⟨0, .compactionBegin⟩, ⟨5, .compactionEnd⟩, rfl, by decide +kernel⟩

end JobLog

end Jobs

/-! ### The report -/

/-- A second of `timeseries.csv`, with the columns the report reads.  Files of older runs lack the
    last ones. -/
structure Row where
  t : ℚ
  qps : ℚ
  blockLookups : ℚ
  blockHits : ℚ
  readP95Us : ℚ
  readP99Us : ℚ
  invalidatedBlocks : Option ℚ := none
  pfEvicted : Option ℚ := none
  pfUsed : Option ℚ := none
  pfInserted : Option ℚ := none
  pfReadOnce : Option ℚ := none

/-- What `summarise` returns. -/
structure Summary where
  secs : ℕ
  winSecs : ℕ := 0
  qpsOut : List ℚ := []
  qpsIn : List ℚ := []
  missIn : ℚ := 0
  missAll : ℚ := 0
  lookIn : ℚ := 0
  lookAll : ℚ := 0
  missOut : ℚ := 0
  lookOut : ℚ := 0
  spikes : ℕ
  inval : ℚ := 0
  p99All : List ℚ := []
  pfPrec : Option ℚ := none
  pfInserted : ℚ := 0

/-- `statistics.median`, of a list that is not empty. -/
def median (xs : List ℚ) : ℚ :=
  let data := xs.insertionSort (· ≤ ·)
  let n := data.length
  if n % 2 = 1 then data.getD (n / 2) 0
  else binary64 (data.getD (n / 2 - 1) 0 + data.getD (n / 2) 0) / 2

/-- The seconds whose 95th percentile is more than `k` times the median one. -/
def spikes (k : ℚ) (ts : List Row) : ℕ :=
  let p95 := ts.map Row.readP95Us
  let med := if p95.isEmpty then 0 else median p95
  p95.countP fun v => decide (med ≠ 0 ∧ binary64 (k * med) < v)

/-- The body of the loop of `summarise`. -/
def addRow (spans : List (ℚ × ℚ)) (out : Summary) (r : Row) : Summary :=
  let miss := r.blockLookups - r.blockHits
  let out := { out with
    missAll := out.missAll + miss
    lookAll := out.lookAll + r.blockLookups
    p99All := out.p99All ++ [r.readP99Us] }
  let out :=
    if inWindow r.t spans then
      { out with
        winSecs := out.winSecs + 1
        qpsIn := out.qpsIn ++ [r.qps]
        missIn := out.missIn + miss
        lookIn := out.lookIn + r.blockLookups }
    else
      { out with
        qpsOut := out.qpsOut ++ [r.qps]
        missOut := out.missOut + miss
        lookOut := out.lookOut + r.blockLookups }
  { out with inval := out.inval + r.invalidatedBlocks.getD 0 }

/-- `delta`, of a column. -/
def delta (first last : Row) (column : Row → Option ℚ) : ℚ :=
  (column last).getD 0 - (column first).getD 0

/-- The end of `summarise`: the precision of the prefetches between two rows. -/
def withPfPrec (first last : Row) (out : Summary) : Summary :=
  if last.pfInserted.isSome ∧ 0 < delta first last Row.pfInserted then
    { out with
      pfInserted := delta first last Row.pfInserted
      pfPrec := some (delta first last Row.pfReadOnce / delta first last Row.pfInserted) }
  else if last.pfEvicted.isSome ∧ 0 < delta first last Row.pfEvicted then
    { out with pfPrec := some (delta first last Row.pfUsed / delta first last Row.pfEvicted) }
  else out

/-- `summarise` once the files are read; of no rows there is no first one. -/
def summariseRows (spans : List (ℚ × ℚ)) (k : ℚ) (ts : List Row) : Except String Summary :=
  let out := ts.foldl (addRow spans) { secs := ts.length, spikes := spikes k ts }
  match ts.head?, ts.getLast? with
  | some first, some last => .ok (withPfPrec first last out)
  | _, _ => .error "list index out of range"

/-- `summarise`; there may be no file of rows. -/
def summarise (ts : Option (List Row)) (events : Option (List BgEvent)) (t2 k : ℚ) :
    Except String (Option Summary) :=
  match ts with
  | none => .ok none
  | some ts => some <$> summariseRows (readWindows events t2) k ts

/-- The precision that is reported when blocks were prefetched between the first row and the
    last. -/
theorem exists_summariseRows_pfPrec (spans : List (ℚ × ℚ)) (k : ℚ) {ts : List Row}
    {first last : Row}
    (hfirst : ts.head? = some first) (hlast : ts.getLast? = some last)
    (hcolumn : last.pfInserted.isSome = true) (hpos : 0 < delta first last Row.pfInserted) :
    ∃ out, summariseRows spans k ts = .ok out ∧
      out.pfPrec = some (delta first last Row.pfReadOnce / delta first last Row.pfInserted) := by
  unfold summariseRows
  rw [hfirst, hlast]
  refine ⟨_, rfl, ?_⟩
  unfold withPfPrec
  rw [if_pos ⟨hcolumn, hpos⟩]

/-- The report reads the windows through `in_window` only. -/
theorem summariseRows_congr {spans spans' : List (ℚ × ℚ)}
    (h : ∀ t, inWindow t spans = inWindow t spans') (k : ℚ) (ts : List Row) :
    summariseRows spans k ts = summariseRows spans' k ts := by
  have hrow : addRow spans = addRow spans' := by
    funext out r
    simp only [addRow, h]
  unfold summariseRows
  rw [hrow]

/-- **The report is the one of the jobs' own windows.** -/
theorem summarise_eq_jobs {ι : Type*} [DecidableEq ι] (L : JobLog ι)
    (hdouble : ∀ x ∈ L.log, binary64 x.t = x.t) {t2 : ℚ} (ht2 : 0 ≤ t2) (k : ℚ) (ts : List Row) :
    summarise (some ts) (some L.log) t2 k =
      some <$> summariseRows (L.windows (addT2 t2)) k ts := by
  show some <$> summariseRows (pairWindows (addT2 t2) L.log) k ts = _
  rw [summariseRows_congr (L.inWindow_pairWindows (lasting_addT2 ht2 hdouble)) k ts]

/-- The seconds inside and outside of the windows add up to all seconds. -/
structure Summary.Balanced (out : Summary) (n : ℕ) : Prop where
  secs : out.winSecs + out.qpsOut.length = n
  inside : out.qpsIn.length = out.winSecs
  look : out.lookIn + out.lookOut = out.lookAll
  miss : out.missIn + out.missOut = out.missAll

/-- One more row keeps the sums in balance. -/
theorem Summary.Balanced.addRow {spans : List (ℚ × ℚ)} {out : Summary} {n : ℕ}
    (h : out.Balanced n) (r : Row) : (addRow spans out r).Balanced (n + 1) := by
  obtain ⟨hsecs, hinside, hlook, hmiss⟩ := h
  unfold Metrics.addRow
  by_cases hin : inWindow r.t spans = true
  · simp only [hin, if_true]
    refine ⟨?_, ?_, ?_, ?_⟩
    · show out.winSecs + 1 + out.qpsOut.length = n + 1
      omega
    · rw [List.length_append, hinside]
      rfl
    · show out.lookIn + r.blockLookups + out.lookOut = out.lookAll + r.blockLookups
      linarith
    · show out.missIn + (r.blockLookups - r.blockHits) + out.missOut =
        out.missAll + (r.blockLookups - r.blockHits)
      linarith
  · simp only [hin, if_false, Bool.false_eq_true]
    refine ⟨?_, hinside, ?_, ?_⟩
    · rw [List.length_append, ← Nat.add_assoc, hsecs]
      rfl
    · show out.lookIn + (out.lookOut + r.blockLookups) = out.lookAll + r.blockLookups
      linarith
    · show out.missIn + (out.missOut + (r.blockLookups - r.blockHits)) =
        out.missAll + (r.blockLookups - r.blockHits)
      linarith

/-- The precision at the end touches no sum. -/
theorem Summary.Balanced.withPfPrec {out : Summary} {n : ℕ} (h : out.Balanced n)
    (first last : Row) : (withPfPrec first last out).Balanced n := by
  unfold Metrics.withPfPrec
  split_ifs <;> exact ⟨h.secs, h.inside, h.look, h.miss⟩

/-- **Every second is on one side.**  In every report the lookups, the misses and the seconds in
    windows and out of them add up to those of the run. -/
theorem summariseRows_balanced {spans : List (ℚ × ℚ)} {k : ℚ} {ts : List Row} {out : Summary}
    (h : summariseRows spans k ts = .ok out) : out.Balanced ts.length := by
  have hloop : ∀ (rows : List Row) (s : Summary) (n : ℕ), s.Balanced n →
      (rows.foldl (addRow spans) s).Balanced (n + rows.length) := by
    intro rows
    induction rows with
    | nil => exact fun s n hs => hs
    | cons r rows ih =>
      intro s n hs
      rw [List.foldl_cons, List.length_cons, Nat.add_comm rows.length, ← Nat.add_assoc]
      exact ih _ _ (hs.addRow r)
  have hrows := hloop ts { secs := ts.length, spikes := spikes k ts } 0
    ⟨rfl, rfl, add_zero 0, add_zero 0⟩
  rw [Nat.zero_add] at hrows
  unfold summariseRows at h
  split at h
  · rw [← Except.ok.inj h]
    exact hrows.withPfPrec _ _
  · exact absurd h (by simp)

end Leaper.Metrics
