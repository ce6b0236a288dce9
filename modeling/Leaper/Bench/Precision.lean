import Leaper.Bench.StatsCache
import Leaper.Tools.PaperMetrics
import Mathlib.Tactic.Ring

namespace Leaper.Bench

open Lib Metrics

/-!
# Prefetch precision over a window

Which share of the prefetched blocks is read.  `leaper_bench.cc` writes the cumulative counters of
the cache, less what they were when the measurement began, into a row for every second, and
`paper_metrics.py` divides the differences between the last row and the first.

A first read is counted when it happens, whenever the block was prefetched.  So the first reads of
blocks that were prefetched before the first row are counted too.

* `Grows.lives` — a life only goes on;
* `delta_pfReadOnce` — the first reads of a window, of its own blocks and of older ones;
* `pfPrec_eq_share_iff` — when the quotient is the share of the window's own blocks.
-/

variable {V : Type*}

/-! ### Lives go on -/

/-- What may become of an entry. -/
def Later (l l' : Life V) : Prop := l'.prefetched = l.prefetched ∧ l.reads ≤ l'.reads

/-- A read makes a life later. -/
theorem Later.read (key : Bytes) (l : Life V) : Later l (l.read key) := by
  unfold Life.read
  split
  · exact ⟨rfl, Nat.le_succ _⟩
  · exact ⟨rfl, le_rfl⟩

/-- The entries are still there, in their places. -/
def Grows (ls ls' : List (Life V)) : Prop :=
  ∀ (i : ℕ) (l : Life V), ls[i]? = some l → ∃ l', ls'[i]? = some l' ∧ Later l l'

namespace Grows

variable {ls ls' ls'' : List (Life V)}

/-- Nothing happened. -/
theorem refl (ls : List (Life V)) : Grows ls ls := fun _ l hl => ⟨l, hl, rfl, le_rfl⟩

/-- One stretch after another. -/
theorem trans (h : Grows ls ls') (h' : Grows ls' ls'') : Grows ls ls'' := by
  intro i l hl
  obtain ⟨m, hm, hpf, hreads⟩ := h i l hl
  obtain ⟨n, hn, hpf', hreads'⟩ := h' i m hm
  exact ⟨n, hn, hpf'.trans hpf, hreads.trans hreads'⟩

/-- New lives may begin. -/
theorem append (ls new : List (Life V)) : Grows ls (ls ++ new) := by
  intro i l hl
  refine ⟨l, ?_, rfl, le_rfl⟩
  rw [List.getElem?_append_left (List.getElem?_eq_some_iff.mp hl).1]
  exact hl

/-- One life may go on. -/
theorem modify (ls : List (Life V)) (j : ℕ) {f : Life V → Life V} (hf : ∀ l, Later l (f l)) :
    Grows ls (ls.modify j f) := by
  intro i l hl
  by_cases hij : j = i
  · refine ⟨f l, ?_, hf l⟩
    rw [List.getElem?_modify, hl]
    simp [hij]
  · refine ⟨l, ?_, rfl, le_rfl⟩
    rw [List.getElem?_modify, hl]
    simp [hij]

/-- Any number of lives may end. -/
theorem leaveAll (ls : List (Life V)) (is : List ℕ) :
    Grows ls (is.foldl (fun ls i => ls.modify i Life.leave) ls) := by
  induction is generalizing ls with
  | nil => exact refl ls
  | cons i is ih => exact (modify ls i (f := Life.leave) fun l => ⟨rfl, le_rfl⟩).trans (ih _)

/-- **One operation.** -/
theorem lifeStep (ls : List (Life V)) (x : Op V) : Grows ls (lifeStep ls x) := by
  cases x with
  | insert caller key value charge evicted => exact (append ls _).trans (leaveAll _ evicted)
  | lookup caller key found =>
    cases found with
    | none => exact refl ls
    | some i =>
      show Grows ls (if !caller.internal && caller.foreground then _ else ls)
      split
      · exact modify ls i (Later.read key)
      · exact refl ls
  | erase key evicted => exact leaveAll ls evicted
  | release evicted => exact leaveAll ls evicted
  | setClock secs => exact refl ls

/-- **A run.** -/
theorem lives (xs ys : List (Op V)) : Grows (lives xs) (lives (xs ++ ys)) := by
  unfold Bench.lives
  rw [List.foldl_append]
  generalize xs.foldl Bench.lifeStep [] = ls
  induction ys generalizing ls with
  | nil => exact refl ls
  | cons y ys ih => exact (lifeStep ls y).trans (ih _)

/-- The older entries come first, one by one. -/
theorem exists_split (h : Grows ls ls') :
    ∃ old fresh, ls' = old ++ fresh ∧ List.Forall₂ Later ls old := by
  induction ls generalizing ls' with
  | nil => exact ⟨[], ls', rfl, List.Forall₂.nil⟩
  | cons l ls ih =>
    cases ls' with
    | nil =>
      obtain ⟨m, hm, -⟩ := h 0 l rfl
      exact absurd hm (by simp)
    | cons m ms =>
      obtain ⟨m', hm, hlater⟩ := h 0 l rfl
      obtain rfl : m = m' := by simpa using hm
      have hrest : Grows ls ms := fun i l' hl' => h (i + 1) l' hl'
      obtain ⟨old, fresh, rfl, hold⟩ := ih hrest
      exact ⟨m :: old, fresh, rfl, List.Forall₂.cons hlater hold⟩

end Grows

/-! ### A window -/

/-- Prefetched, and read by the workload. -/
def Life.readOnce (l : Life V) : Bool := l.prefetched && decide (0 < l.reads)

/-- The entries inserted in a window that follows `xs`. -/
def fresh (xs ys : List (Op V)) : List (Life V) := (lives (xs ++ ys)).drop (lives xs).length

/-- The blocks prefetched before a window whose first read is in it. -/
def lateReads (xs ys : List (Op V)) : ℕ :=
  ((lives xs).zip (lives (xs ++ ys))).countP fun p =>
    p.1.prefetched && decide (p.1.reads = 0) && decide (0 < p.2.reads)

/-- The share of the blocks prefetched in a window that were read in it. -/
def share (xs ys : List (Op V)) : ℚ :=
  (fresh xs ys).countP Life.readOnce / (fresh xs ys).countP Life.prefetched

/-- The two counters over a window: what the older blocks add, and what the window's own do. -/
theorem countP_window (xs ys : List (Op V)) :
    (lives (xs ++ ys)).countP Life.prefetched =
        (lives xs).countP Life.prefetched + (fresh xs ys).countP Life.prefetched ∧
      (lives (xs ++ ys)).countP Life.readOnce =
        (lives xs).countP Life.readOnce + lateReads xs ys + (fresh xs ys).countP Life.readOnce := by
  -- the lives at the end are the old ones, each gone on, and those of the window
  obtain ⟨old, new, hsplit, hold⟩ := (Grows.lives xs ys).exists_split
  have hlength := hold.length_eq
  have hfresh : fresh xs ys = new := by
    unfold fresh
    rw [hsplit, hlength, List.drop_left]
  have hzip : (lives xs).zip (lives (xs ++ ys)) = (lives xs).zip old := by
    rw [hsplit, ← List.append_nil (lives xs), List.zip_append hlength, List.zip_nil_left,
      List.append_nil, List.append_nil]
  have hpf : (lives xs).countP Life.prefetched = old.countP Life.prefetched := by
    rw [← tally_toNat, ← tally_toNat]
    refine tally_eq_of_forall₂ (fun l l' hlater => ?_) hold
    rw [hlater.1]
  have hread : (lives xs).countP Life.readOnce + lateReads xs ys = old.countP Life.readOnce := by
    unfold lateReads
    rw [hzip, ← tally_toNat, ← tally_toNat, ← tally_toNat]
    refine tally_add_zip ?_ hold
    rintro l l' ⟨hpf, hreads⟩
    unfold Life.readOnce
    rw [hpf]
    cases l.prefetched
    · rfl
    · rcases Nat.eq_zero_or_pos l.reads with hzero | hpos
      · simp [hzero]
      · simp [hpos, hpos.trans_le hreads, hpos.ne']
  rw [hfresh, hsplit, List.countP_append, List.countP_append, hpf, hread]
  exact ⟨rfl, rfl⟩

/-- The cache after a run. -/
def after (xs : List (Op V)) : StatsCache := (run World.step (World.new true) xs).cache

/-- After any operations the counters are those of the lives. -/
theorem counted_after (xs : List (Op V)) : Counted (after xs) (lives xs) := (tracks_run xs).counted

/-- `pf_inserted` counts the prefetched lives. -/
theorem pfInserted_after (xs : List (Op V)) :
    (after xs).counters.pfInserted = (lives xs).countP Life.prefetched := by
  rw [(counted_after xs).pfInserted, tally_toNat]

/-- A snapshot copies `pf_inserted`. -/
theorem pfInserted_snapshot (xs : List (Op V)) (k : ℕ) :
    ((after xs).snapshot k).pfInserted = (after xs).counters.pfInserted := by
  rw [StatsCache.snapshot_eq (counted_after xs).track]

/-- **What a window adds to `pf_inserted`.** -/
theorem pfInserted_append (xs ys : List (Op V)) :
    (after (xs ++ ys)).counters.pfInserted =
      (after xs).counters.pfInserted + (fresh xs ys).countP Life.prefetched := by
  rw [pfInserted_after, pfInserted_after, (countP_window xs ys).1]

/-- Reads only grow, so a bound at the end is one at the beginning of the window. -/
theorem reads_lt_of_append {xs ys : List (Op V)}
    (h : ∀ l ∈ lives (xs ++ ys), l.reads < 2 ^ 32) : ∀ l ∈ lives xs, l.reads < 2 ^ 32 := by
  intro l hl
  obtain ⟨i, hi⟩ := List.mem_iff_getElem?.mp hl
  obtain ⟨l', hl', -, hle⟩ := Grows.lives xs ys i l hi
  exact hle.trans_lt (h l' (List.mem_of_getElem? hl'))

/-- **What a window adds to `pf_read_once`**: the blocks of its own that were read, and the older
    ones whose first read falls into it. -/
theorem pfReadOnce_append (xs ys : List (Op V))
    (hreads : ∀ l ∈ lives (xs ++ ys), l.reads < 2 ^ 32) :
    (after (xs ++ ys)).counters.pfReadOnce =
      (after xs).counters.pfReadOnce + lateReads xs ys + (fresh xs ys).countP Life.readOnce := by
  rw [(counted_after _).pfReadOnce_eq hreads,
    (counted_after xs).pfReadOnce_eq (reads_lt_of_append hreads)]
  exact (countP_window xs ys).2

/-! ### The rows -/

/-- What else goes into a row: the second, the rates, the percentiles, the blocks invalidated, and
    the snapshot of the second before. -/
structure Second where
  t : ℕ
  qps : ℕ
  readP95Us : ℕ
  readP99Us : ℕ
  invalidatedBlocks : ℕ
  prev : CacheCounters

/-- The row of a second, from its snapshot and that at the begin of the measurement. -/
def csvRow (s : Second) (base cc : CacheCounters) : Row where
  t := s.t
  qps := s.qps
  blockLookups := sub64 cc.lookups s.prev.lookups
  blockHits := sub64 cc.hits s.prev.hits
  readP95Us := s.readP95Us
  readP99Us := s.readP99Us
  invalidatedBlocks := some s.invalidatedBlocks
  pfEvicted := some (sub64 cc.pfEvicted base.pfEvicted)
  pfUsed := some (sub64 cc.pfUsed base.pfUsed)
  pfInserted := some (sub64 cc.pfInserted base.pfInserted)
  pfReadOnce := some (sub64 cc.pfReadOnce base.pfReadOnce)

/-- A row reads no stale counter. -/
theorem csvRow_snapshot (s : Second) (xs ys : List (Op V)) (k k' : ℕ) :
    csvRow s ((after xs).snapshot k) ((after ys).snapshot k') =
      csvRow s (after xs).counters (after ys).counters := by
  rw [StatsCache.snapshot_eq (counted_after xs).track,
    StatsCache.snapshot_eq (counted_after ys).track]
  simp only [csvRow]

/-- The baseline of the measurement drops out of a difference of rows. -/
theorem cast_sub64_sub {b m n : ℕ} (hbm : b ≤ m) (hmn : m ≤ n) :
    (sub64 n b : ℚ) - sub64 m b = (n - m : ℕ) := by
  rw [sub64_of_le (hbm.trans hmn), sub64_of_le hbm, Nat.cast_sub (hbm.trans hmn), Nat.cast_sub hbm,
    Nat.cast_sub hmn]
  ring

section Window

variable (ws xs ys : List (Op V)) (s₁ s₂ : Second) (k : ℕ)

/-- **`delta("pf_inserted")`**, with the baseline taken after `ws` and the rows after `xs` and `ys`
    more. -/
theorem delta_pfInserted :
    delta (csvRow s₁ ((after ws).snapshot 0) ((after (ws ++ xs)).snapshot k))
        (csvRow s₂ ((after ws).snapshot 0) ((after (ws ++ xs ++ ys)).snapshot k)) Row.pfInserted =
      (fresh (ws ++ xs) ys).countP Life.prefetched := by
  rw [csvRow_snapshot, csvRow_snapshot]
  have hfirst := pfInserted_append ws xs
  have hlast := pfInserted_append (ws ++ xs) ys
  refine (cast_sub64_sub (b := (after ws).counters.pfInserted) (by omega) (by omega)).trans ?_
  rw [hlast, Nat.add_sub_cancel_left]

/-- **`delta("pf_read_once")`.** -/
theorem delta_pfReadOnce (hreads : ∀ l ∈ lives (ws ++ xs ++ ys), l.reads < 2 ^ 32) :
    delta (csvRow s₁ ((after ws).snapshot 0) ((after (ws ++ xs)).snapshot k))
        (csvRow s₂ ((after ws).snapshot 0) ((after (ws ++ xs ++ ys)).snapshot k)) Row.pfReadOnce =
      (lateReads (ws ++ xs) ys + (fresh (ws ++ xs) ys).countP Life.readOnce : ℕ) := by
  rw [csvRow_snapshot, csvRow_snapshot]
  have hfirst := pfReadOnce_append ws xs (reads_lt_of_append hreads)
  have hlast := pfReadOnce_append (ws ++ xs) ys hreads
  refine (cast_sub64_sub (b := (after ws).counters.pfReadOnce) (by omega) (by omega)).trans ?_
  rw [hlast, Nat.add_assoc, Nat.add_sub_cancel_left]

/-- The share of the window's own blocks is at most one. -/
theorem share_le_one : share xs ys ≤ 1 := by
  unfold share
  refine div_le_one_of_le₀ (Nat.cast_le.mpr ?_) (Nat.cast_nonneg _)
  exact List.countP_mono_left fun l _ hl => (Bool.and_eq_true_iff.mp hl).1

/-- **Precision over a window.**  The report's quotient is at most 1 and the share of the blocks
    prefetched in the window that were read in it exactly when no block that was prefetched before
    the window has its first read in it. -/
theorem pfPrec_eq_share_iff (hreads : ∀ l ∈ lives (ws ++ xs ++ ys), l.reads < 2 ^ 32)
    (hinserted : ((after (ws ++ xs)).snapshot k).pfInserted <
      ((after (ws ++ xs ++ ys)).snapshot k).pfInserted)
    (spans : List (ℚ × ℚ)) (spike : ℚ) (ts : List Row)
    (hfirst : ts.head? =
      some (csvRow s₁ ((after ws).snapshot 0) ((after (ws ++ xs)).snapshot k)))
    (hlast : ts.getLast? =
      some (csvRow s₂ ((after ws).snapshot 0) ((after (ws ++ xs ++ ys)).snapshot k))) :
    ∃ out, summariseRows spans spike ts = .ok out ∧
      ((∃ p, out.pfPrec = some p ∧ p ≤ 1 ∧ p = share (ws ++ xs) ys) ↔
        lateReads (ws ++ xs) ys = 0) := by
  have hpos : 0 < (fresh (ws ++ xs) ys).countP Life.prefetched := by
    rw [pfInserted_snapshot, pfInserted_snapshot, pfInserted_append (ws ++ xs) ys] at hinserted
    omega
  have hdelta : 0 < delta (csvRow s₁ ((after ws).snapshot 0) ((after (ws ++ xs)).snapshot k))
      (csvRow s₂ ((after ws).snapshot 0) ((after (ws ++ xs ++ ys)).snapshot k)) Row.pfInserted := by
    rw [delta_pfInserted]
    exact Nat.cast_pos.mpr hpos
  obtain ⟨out, hout, hprec⟩ := exists_summariseRows_pfPrec spans spike hfirst hlast rfl hdelta
  rw [delta_pfInserted, delta_pfReadOnce ws xs ys s₁ s₂ k hreads, Nat.cast_add] at hprec
  refine ⟨out, hout, ?_⟩
  have hne : ((fresh (ws ++ xs) ys).countP Life.prefetched : ℚ) ≠ 0 := Nat.cast_ne_zero.mpr hpos.ne'
  constructor
  · rintro ⟨p, hp, -, hshare⟩
    rw [hprec, Option.some_inj] at hp
    rw [← hp] at hshare
    unfold share at hshare
    -- equal denominators, so the late reads are the difference of the numerators
    have hsum := (div_left_inj' hne).mp hshare
    exact_mod_cast add_eq_right.mp hsum
  · intro hlate
    rw [hlate, Nat.cast_zero, zero_add] at hprec
    exact ⟨_, hprec, share_le_one _ _, rfl⟩

end Window

/-- A block, prefetched. -/
def prefetch (key : ℕ) : Op ℕ := .insert ⟨true, false⟩ [key] key blockCharge []

/-- A block, read by the workload under a handle. -/
def readUnder (handle key : ℕ) : Op ℕ := .lookup ⟨false, true⟩ [key] (some handle)

def quietSecond (t : ℕ) : Second := ⟨t, 0, 0, 0, 0, {}⟩

/-- The rows of a run with a second up to `xs` and another one up to `ys` more. -/
def twoRows (xs ys : List (Op ℕ)) : List Row :=
  [csvRow (quietSecond 1) ((after ([] : List (Op ℕ))).snapshot 0) ((after xs).snapshot 60),
    csvRow (quietSecond 2) ((after ([] : List (Op ℕ))).snapshot 0) ((after (xs ++ ys)).snapshot 60)]

/-- Of two blocks prefetched in the window, the report has the one that was read. -/
theorem pfPrec_eq_share_ownBlocks :
    ∃ out, summariseRows [] 2 (twoRows [prefetch 1] [prefetch 2, prefetch 3, readUnder 1 2]) =
        .ok out ∧
      ∃ p, out.pfPrec = some p ∧ p ≤ 1 ∧
        p = share [prefetch 1] [prefetch 2, prefetch 3, readUnder 1 2] := by
  obtain ⟨out, hout, hiff⟩ := pfPrec_eq_share_iff [] [prefetch 1]
    [prefetch 2, prefetch 3, readUnder 1 2] (quietSecond 1) (quietSecond 2) 60 (by decide)
    (by rw [pfInserted_snapshot, pfInserted_snapshot]; decide) [] 2
    (twoRows [prefetch 1] [prefetch 2, prefetch 3, readUnder 1 2]) rfl rfl
  exact ⟨out, hout, hiff.mpr (by decide)⟩

/-- Two blocks are prefetched in the first second and read in the second one, in which one more is
    prefetched and not read: a precision of 2 for a share of 0. -/
theorem pfPrec_olderBlocks :
    ∃ out, summariseRows [] 2
        (twoRows [prefetch 1, prefetch 2] [prefetch 3, readUnder 0 1, readUnder 1 2]) = .ok out ∧
      out.pfPrec = some 2 ∧
      share [prefetch 1, prefetch 2] [prefetch 3, readUnder 0 1, readUnder 1 2] = 0 := by
  unfold twoRows
  rw [csvRow_snapshot, csvRow_snapshot]
  exact ⟨_, rfl, by decide +kernel, by decide +kernel⟩

end Leaper.Bench
