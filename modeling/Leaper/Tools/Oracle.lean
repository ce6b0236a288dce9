import Leaper.Core.Impl
import Leaper.Tools.Train
import Mathlib.Data.Prod.Lex

namespace Leaper.Oracle

open Lib LeaperImpl Train

/-!
# The oracle

`tools/make_oracle.py` bins the reads of a trace into the slots of the plug-in's clock and
writes, for each slot, the ranges read in it and the `W - 1` slots after it; a job of policy
`kOracle` that begins in slot `q` warms what the file says of slot `q + 1`.

* `mem_per` — the dictionary of the script: the ranges read in each slot;
* `loadOracle_oracleFile` — the plug-in reads back the hot sets, of the slots that have a line;
* `oracle_wants_iff` — when the oracle knows the future it is defined to know.
-/

/-- The arguments of the script that matter here; `slotS` and `warmupS` are `double`s. -/
structure Args where
  rangeSize : ℕ
  slotS : ℚ
  warmupS : ℚ := 0
  slotOffset : ℕ := 0
  lookahead : ℤ := 1
  warmupS_nonneg : 0 ≤ warmupS := by norm_num

/-- Collect a pair into the run of its slot, if that is the next one. -/
def pushRun (p : ℕ × ℕ) : List (ℕ × List ℕ) → List (ℕ × List ℕ)
  | [] => [(p.1, [p.2])]
  | (s, rs) :: more => if p.1 = s then (s, p.2 :: rs) :: more else (p.1, [p.2]) :: (s, rs) :: more

/-- The runs of equal slots in a list of slots and ranges. -/
def runs (pairs : List (ℕ × ℕ)) : List (ℕ × List ℕ) := pairs.foldr pushRun []

namespace Args

variable (a : Args)

/-- `int(args.slot_s * 1000)`. -/
def slotMs : ℕ := ⌊binary64 (a.slotS * 1000)⌋₊

/-- `int(round(args.warmup_s * 1000))`. -/
def warmupMs : ℕ := (roundEven (binary64 (a.warmupS * 1000))).toNat

/-- `W`. -/
def width : ℕ := (max 1 a.lookahead).toNat

/-- `slot` of a record. -/
def slotOf (x : TraceRecord) : ℕ := (x.tMs + a.warmupMs) / a.slotMs + a.slotOffset

/-- `rid` of a record. -/
def rid (x : TraceRecord) : ℕ := x.key / a.rangeSize

/-- The slots and ranges of the reads, sorted by slot and then range, without repetitions. -/
def pairs (trace : List TraceRecord) : List (ℕ × ℕ) :=
  (sortUnique ((trace.filter fun x => x.op.isRead).map
    fun x => toLex (a.slotOf x, a.rid x))).map ofLex

/-- `per`, as the list of its items. -/
def per (trace : List TraceRecord) : List (ℕ × List ℕ) := runs (a.pairs trace)

/-- `u`: what the line of slot `s` holds. -/
def hot (trace : List TraceRecord) (s : ℕ) : List ℕ :=
  sortUnique ((List.range a.width).flatMap fun k => ((a.per trace).lookup (s + k)).getD [])

/-- `sorted(per)`. -/
def slots (trace : List TraceRecord) : List ℕ := sorted ((a.per trace).map (·.1))

/-- The file. -/
def oracleFile (trace : List TraceRecord) : List Char :=
  "# slot range... : ranges read in intervals [slot, slot+".toList ++ Nat.toDigits 10 a.width ++
    ")\n".toList ++
  (a.slots trace).flatMap fun s => Predictor.precursorLine s (a.hot trace s) ++ ['\n']

end Args

/-! ### Runs of equal slots -/

/-- Grouping adds the pair and loses none. -/
theorem mem_pushRun {p : ℕ × ℕ} {g : List (ℕ × List ℕ)} {s r : ℕ} :
    (∃ rs, (s, rs) ∈ pushRun p g ∧ r ∈ rs) ↔ (s, r) = p ∨ ∃ rs, (s, rs) ∈ g ∧ r ∈ rs := by
  obtain ⟨ps, pr⟩ := p
  cases g with
  | nil => simp [pushRun]
  | cons h more =>
    obtain ⟨hs, hr⟩ := h
    by_cases heq : ps = hs
    · subst heq
      simp only [pushRun, if_true, List.mem_cons, Prod.mk.injEq]
      constructor
      · rintro ⟨rs, ⟨rfl, rfl⟩ | hmem, hrs⟩
        · rcases List.mem_cons.mp hrs with rfl | hrs
          · exact Or.inl ⟨rfl, rfl⟩
          · exact Or.inr ⟨_, Or.inl ⟨rfl, rfl⟩, hrs⟩
        · exact Or.inr ⟨rs, Or.inr hmem, hrs⟩
      · rintro (⟨rfl, rfl⟩ | ⟨rs, ⟨rfl, rfl⟩ | hmem, hrs⟩)
        · exact ⟨_, Or.inl ⟨rfl, rfl⟩, List.mem_cons_self⟩
        · exact ⟨_, Or.inl ⟨rfl, rfl⟩, List.mem_cons_of_mem _ hrs⟩
        · exact ⟨rs, Or.inr hmem, hrs⟩
    · simp only [pushRun, if_neg heq, List.mem_cons, Prod.mk.injEq]
      constructor
      · rintro ⟨rs, ⟨rfl, rfl⟩ | hmem, hrs⟩
        · exact Or.inl ⟨rfl, List.mem_singleton.mp hrs⟩
        · exact Or.inr ⟨rs, hmem, hrs⟩
      · rintro (⟨rfl, rfl⟩ | ⟨rs, hmem, hrs⟩)
        · exact ⟨_, Or.inl ⟨rfl, rfl⟩, List.mem_singleton_self _⟩
        · exact ⟨rs, Or.inr hmem, hrs⟩

/-- **What the runs hold.** -/
theorem mem_runs {l : List (ℕ × ℕ)} {s r : ℕ} :
    (∃ rs, (s, rs) ∈ runs l ∧ r ∈ rs) ↔ (s, r) ∈ l := by
  unfold runs
  induction l with
  | nil => simp
  | cons p l ih => rw [List.foldr_cons, mem_pushRun, ih, List.mem_cons]

/-- A run is never empty. -/
theorem ne_nil_of_mem_runs {l : List (ℕ × ℕ)} {s : ℕ} {rs : List ℕ} (h : (s, rs) ∈ runs l) :
    rs ≠ [] := by
  unfold runs at h
  induction l generalizing s rs with
  | nil => cases h
  | cons p l ih =>
    rw [List.foldr_cons] at h
    cases hg : l.foldr pushRun [] with
    | nil =>
      rw [hg, pushRun, List.mem_singleton] at h
      rw [(Prod.mk.inj h).2]
      exact List.cons_ne_nil _ _
    | cons g more =>
      rw [hg] at h ih
      by_cases heq : p.1 = g.1
      · rw [pushRun, if_pos heq] at h
        rcases List.mem_cons.mp h with hfirst | hmem
        · rw [(Prod.mk.inj hfirst).2]
          exact List.cons_ne_nil _ _
        · exact ih (List.mem_cons_of_mem _ hmem)
      · rw [pushRun, if_neg heq] at h
        rcases List.mem_cons.mp h with hfirst | hmem
        · rw [(Prod.mk.inj hfirst).2]
          exact List.cons_ne_nil _ _
        · exact ih hmem

/-- The slot of a run is the slot of a pair. -/
theorem exists_of_mem_runs_slots {l : List (ℕ × ℕ)} {s : ℕ} (h : s ∈ (runs l).map (·.1)) :
    ∃ r, (s, r) ∈ l := by
  obtain ⟨⟨s', rs⟩, hmem, rfl⟩ := List.mem_map.mp h
  obtain ⟨r, hr⟩ := List.exists_mem_of_ne_nil rs (ne_nil_of_mem_runs hmem)
  exact ⟨r, mem_runs.mp ⟨rs, hmem, hr⟩⟩

/-- The slots of the runs of a sorted list increase. -/
theorem pairwise_runs {l : List (ℕ × ℕ)} (h : l.Pairwise fun p q => p.1 ≤ q.1) :
    ((runs l).map (·.1)).Pairwise (· < ·) := by
  induction l with
  | nil => exact List.Pairwise.nil
  | cons p l ih =>
    obtain ⟨hfirst, hrest⟩ := List.pairwise_cons.mp h
    have hkeys := ih hrest
    have hle : ∀ s ∈ (runs l).map (·.1), p.1 ≤ s := by
      intro s hs
      obtain ⟨r, hr⟩ := exists_of_mem_runs_slots hs
      exact hfirst (s, r) hr
    show ((pushRun p (runs l)).map (·.1)).Pairwise (· < ·)
    cases hg : runs l with
    | nil => exact List.pairwise_singleton _ _
    | cons g more =>
      rw [hg] at hkeys hle
      by_cases heq : p.1 = g.1
      · rw [pushRun, if_pos heq]
        exact hkeys
      · rw [pushRun, if_neg heq]
        -- a new run, whose slot is below that of the next one
        have hlt : p.1 < g.1 := lt_of_le_of_ne (hle g.1 (by simp)) heq
        refine List.pairwise_cons.mpr ⟨fun s hs => ?_, hkeys⟩
        rcases List.mem_cons.mp hs with rfl | hs
        · exact hlt
        · exact hlt.trans (List.rel_of_pairwise_cons hkeys hs)

/-- Looking a slot up in the runs of a sorted list. -/
theorem mem_lookup_runs {l : List (ℕ × ℕ)} (h : l.Pairwise fun p q => p.1 ≤ q.1) {s r : ℕ} :
    r ∈ ((runs l).lookup s).getD [] ↔ (s, r) ∈ l := by
  rw [← mem_runs]
  have hkeys := pairwise_runs h
  cases hlook : (runs l).lookup s with
  | none =>
    rw [List.lookup_eq_none_iff] at hlook
    refine ⟨fun hr => absurd hr (by simp), fun ⟨rs, hmem, _⟩ => ?_⟩
    exact absurd (hlook (s, rs) hmem) (by simp)
  | some rs =>
    obtain ⟨before, after, heq, -⟩ := List.lookup_eq_some_iff.mp hlook
    have hmem : (s, rs) ∈ runs l := by rw [heq]; simp
    refine ⟨fun hr => ⟨rs, hmem, hr⟩, fun ⟨rs', hmem', hr⟩ => ?_⟩
    -- no two runs have the same slot
    have hinj := List.inj_on_of_nodup_map (hkeys.imp ne_of_lt) hmem' hmem rfl
    rw [(Prod.mk.inj hinj).2] at hr
    exact hr

namespace Args

variable {a : Args} {trace : List TraceRecord}

/-! ### The script's sets -/

/-- The pairs written are the slots and ranges of the reads. -/
theorem mem_pairs {s r : ℕ} : (s, r) ∈ a.pairs trace ↔
    ∃ x ∈ trace, x.op.isRead = true ∧ a.slotOf x = s ∧ a.rid x = r := by
  unfold pairs
  rw [List.mem_map]
  constructor
  · rintro ⟨p, hp, heq⟩
    rw [mem_sortUnique, List.mem_map] at hp
    obtain ⟨x, hx, rfl⟩ := hp
    obtain ⟨hmem, hread⟩ := List.mem_filter.mp hx
    have hpair := Prod.mk.inj heq
    exact ⟨x, hmem, hread, hpair.1, hpair.2⟩
  · rintro ⟨x, hmem, hread, rfl, rfl⟩
    refine ⟨toLex (a.slotOf x, a.rid x), ?_, rfl⟩
    rw [mem_sortUnique, List.mem_map]
    exact ⟨x, List.mem_filter.mpr ⟨hmem, hread⟩, rfl⟩

/-- The pairs are in the order of the slots. -/
theorem pairwise_pairs : (a.pairs trace).Pairwise fun p q => p.1 ≤ q.1 := by
  unfold pairs
  rw [List.pairwise_map]
  refine (pairwise_sortUnique _).imp fun hlt => ?_
  rcases Prod.Lex.lt_iff.mp hlt with h | h
  · exact le_of_lt h
  · exact le_of_eq h.1

/-- **The dictionary**: the ranges read in a slot. -/
theorem mem_per {s r : ℕ} : r ∈ ((a.per trace).lookup s).getD [] ↔
    ∃ x ∈ trace, x.op.isRead = true ∧ a.slotOf x = s ∧ a.rid x = r := by
  unfold per
  rw [mem_lookup_runs pairwise_pairs, mem_pairs]

/-- The hot ranges of a slot are those read in the `W` slots from it on. -/
theorem mem_hot {s r : ℕ} : r ∈ a.hot trace s ↔
    ∃ x ∈ trace, x.op.isRead = true ∧ s ≤ a.slotOf x ∧ a.slotOf x < s + a.width ∧ a.rid x = r := by
  unfold hot
  rw [mem_sortUnique, List.mem_flatMap]
  constructor
  · rintro ⟨k, hk, hr⟩
    obtain ⟨x, hx, hread, hslot, hrid⟩ := mem_per.mp hr
    rw [List.mem_range] at hk
    exact ⟨x, hx, hread, by omega, by omega, hrid⟩
  · rintro ⟨x, hx, hread, hle, hlt, hrid⟩
    refine ⟨a.slotOf x - s, List.mem_range.mpr (by omega), mem_per.mpr ⟨x, hx, hread, ?_, hrid⟩⟩
    omega

/-- **The lines**: one for each slot with a read. -/
theorem mem_slots {s : ℕ} :
    s ∈ a.slots trace ↔ ∃ x ∈ trace, x.op.isRead = true ∧ a.slotOf x = s := by
  unfold slots
  rw [mem_sorted]
  constructor
  · intro h
    obtain ⟨r, hr⟩ := exists_of_mem_runs_slots h
    obtain ⟨x, hx, hread, hslot, -⟩ := mem_pairs.mp hr
    exact ⟨x, hx, hread, hslot⟩
  · rintro ⟨x, hx, hread, rfl⟩
    obtain ⟨rs, hmem, -⟩ := mem_runs.mpr (mem_pairs.mpr ⟨x, hx, hread, rfl, rfl⟩)
    exact List.mem_map.mpr ⟨_, hmem, rfl⟩

theorem width_pos : 0 < a.width := by
  unfold width
  omega

/-- A slot that is written has a hot range. -/
theorem hot_ne_nil {s : ℕ} (h : s ∈ a.slots trace) : a.hot trace s ≠ [] := by
  obtain ⟨x, hx, hread, hslot⟩ := mem_slots.mp h
  have hwidth := a.width_pos
  have hmem : a.rid x ∈ a.hot trace s :=
    mem_hot.mpr ⟨x, hx, hread, hslot.ge, by omega, rfl⟩
  exact List.ne_nil_of_mem hmem

/-- **The plug-in reads the file back**: the hot sets of the slots with a line, nothing for the
    others. -/
theorem loadOracle_oracleFile (hfit : ∀ x ∈ trace, a.slotOf x < 2 ^ 64) :
    loadOracle (a.oracleFile trace) =
      fun s => if s ∈ a.slots trace then some (a.hot trace s) else none := by
  have hheader : a.oracleFile trace =
      ('#' :: (" slot range... : ranges read in intervals [slot, slot+".toList ++
        Nat.toDigits 10 a.width ++ [')'])) ++ '\n' ::
        (a.slots trace).flatMap fun s => Predictor.precursorLine s (a.hot trace s) ++ ['\n'] := by
    have hstart : "# slot range... : ranges read in intervals [slot, slot+".toList =
        '#' :: " slot range... : ranges read in intervals [slot, slot+".toList := rfl
    have hend : ")\n".toList = [')', '\n'] := rfl
    unfold oracleFile
    rw [hstart, hend]
    simp
  have hcomment : '\n' ∉ " slot range... : ranges read in intervals [slot, slot+".toList ++
      Nat.toDigits 10 a.width ++ [')'] := by
    simp only [List.mem_append, List.mem_singleton, not_or]
    exact ⟨⟨by decide, Predictor.newline_notMem_toDigits _⟩, by decide⟩
  have hkeys : ((a.per trace).map (·.1)).Pairwise (· < ·) := pairwise_runs pairwise_pairs
  have hnodup : (a.slots trace).Nodup :=
    (List.perm_insertionSort _ _).nodup_iff.mpr (hkeys.imp ne_of_lt)
  rw [hheader, loadOracle_lines hcomment (a.hot trace) hnodup]
  · -- a hot set is sorted already
    ext s : 1
    have hsorted : sorted (a.hot trace s) = a.hot trace s :=
      List.Pairwise.insertionSort_eq ((pairwise_sortUnique _).imp le_of_lt)
    rw [hsorted]
  · intro s hs
    obtain ⟨x, hx, -, rfl⟩ := mem_slots.mp hs
    refine ⟨hfit x hx, hot_ne_nil hs, fun r hr => ?_⟩
    obtain ⟨y, -, -, -, -, rfl⟩ := mem_hot.mp hr
    have hkey := y.key_lt
    have hle : a.rid y ≤ y.key := Nat.div_le_self _ _
    omega

end Args

/-! ### The policy -/

/-- The record is a read in one of the `W` slots of `slotMs` milliseconds after slot `q`, on the
    plug-in's clock. -/
def Args.ReadAhead (a : Args) (slotMs q : ℕ) (x : TraceRecord) : Prop :=
  x.op.isRead = true ∧ q + 1 ≤ (x.tMs + a.warmupMs) / slotMs ∧
    (x.tMs + a.warmupMs) / slotMs < q + 1 + a.width

/-- What an oracle job wants: the blocks over a range of its slot's line. -/
theorem wants_oracle {κ : Type*} {s : LeaperImpl} (hpol : s.opt.policy = .oracle)
    (ops : CacheOps κ) (cache : κ) (info : CompactionInfo) (blocks : List BlockRef) (now : ℕ)
    (b : BlockRef) : (s.onCompactionBegin ops cache info blocks now).1.wants b =
      blockOverlaps b (match s.oracle (s.collector.params.slotOf now + 1) with
        | none => []
        | some hot => toSpans hot) := by
  have hpol' : (s.pushCtx info).opt.policy = .oracle := hpol
  have hdecide : ((s.pushCtx info).decideJob ops cache info blocks now).hotT2 =
      ((s.pushCtx info).decideOracle cache now).hotT2 := by
    unfold decideJob
    simp [hpol']
  rw [wants_of_oracle (s := (s.onCompactionBegin ops cache info blocks now).1) hpol]
  show blockOverlaps b ((s.pushCtx info).decideJob ops cache info blocks now).hotT2 = _
  rw [hdecide]
  rfl

section WholeSlots

variable {a : Args} {slotMs : ℕ}

/-- With slots of whole milliseconds and no offset the slot is a quotient of integers. -/
theorem Args.slotOf_eq (hslot : a.slotMs = slotMs) (hoffset : a.slotOffset = 0) (x : TraceRecord) :
    a.slotOf x = (x.tMs + a.warmupMs) / slotMs := by
  unfold Args.slotOf
  rw [hslot, hoffset, Nat.add_zero]

/-- The ranges on the line of the next slot are those read in the `W` slots after this one. -/
theorem Args.exists_mem_hot_iff (hslot : a.slotMs = slotMs) (hoffset : a.slotOffset = 0)
    {trace : List TraceRecord} {q : ℕ} (P : ℕ → Prop) :
    (∃ r ∈ a.hot trace (q + 1), P r) ↔
      ∃ x ∈ trace, a.ReadAhead slotMs q x ∧ P (x.key / a.rangeSize) := by
  constructor
  · rintro ⟨r, hr, hP⟩
    obtain ⟨x, hx, hread, hle, hlt, rfl⟩ := Args.mem_hot.mp hr
    rw [Args.slotOf_eq hslot hoffset] at hle hlt
    exact ⟨x, hx, ⟨hread, hle, hlt⟩, hP⟩
  · rintro ⟨x, hx, ⟨hread, hle, hlt⟩, hP⟩
    refine ⟨a.rid x, Args.mem_hot.mpr ⟨x, hx, hread, ?_, ?_, rfl⟩, hP⟩
    · rw [Args.slotOf_eq hslot hoffset]
      exact hle
    · rw [Args.slotOf_eq hslot hoffset]
      exact hlt

end WholeSlots

/-- **When the oracle knows the future.** The script cuts the slot length to `slotMs`
    milliseconds, and the plug-in has read its file.  A job begun at `now` wants exactly the
    blocks over a range that is read in the `W` slots after `now`'s if and only if the first of
    these slots has a read, or none of them has. -/
theorem oracle_wants_iff {κ : Type*} {a : Args} {trace : List TraceRecord} {s : LeaperImpl}
    (hpol : s.opt.policy = .oracle) (hload : s.oracle = loadOracle (a.oracleFile trace))
    {slotMs : ℕ} (hslot : a.slotMs = slotMs) (hoffset : a.slotOffset = 0)
    (hfit : a.warmupMs ≤ 2 ^ 63 - 2 ^ 32) (ops : CacheOps κ) (cache : κ) (info : CompactionInfo)
    (blocks : List BlockRef) (now : ℕ) :
    (∀ b : BlockRef, b.firstRange ≤ b.lastRange →
      ((s.onCompactionBegin ops cache info blocks now).1.wants b = true ↔
        ∃ x ∈ trace, a.ReadAhead slotMs (s.collector.params.slotOf now) x ∧
          b.Covers (x.key / a.rangeSize))) ↔
    ((∃ x ∈ trace, x.op.isRead = true ∧
        (x.tMs + a.warmupMs) / slotMs = s.collector.params.slotOf now + 1) ∨
      ∀ x ∈ trace, ¬ a.ReadAhead slotMs (s.collector.params.slotOf now) x) := by
  have hslotOf := Args.slotOf_eq hslot hoffset
  -- slots fit 64 bits, so the file is read back as it was written
  have hfit' : ∀ x ∈ trace, a.slotOf x < 2 ^ 64 := by
    intro x _
    have ht := x.tMs_lt
    rw [hslotOf]
    exact lt_of_le_of_lt (Nat.div_le_self _ _) (by omega)
  have htable := Args.loadOracle_oracleFile hfit'
  have hline : ∀ q, q + 1 ∈ a.slots trace ↔
      ∃ x ∈ trace, x.op.isRead = true ∧ (x.tMs + a.warmupMs) / slotMs = q + 1 := by
    intro q
    rw [Args.mem_slots]
    simp only [hslotOf]
  rw [← hline]
  constructor
  · -- no line although something is read: the block over just that range is missed
    intro hall
    by_contra hnot
    obtain ⟨hnoline, hread⟩ := not_or.mp hnot
    push Not at hread
    obtain ⟨x, hx, hahead⟩ := hread
    have hwant := (hall ⟨0, 0, 0, x.key / a.rangeSize, x.key / a.rangeSize⟩ le_rfl).mpr
      ⟨x, hx, hahead, le_rfl, le_rfl⟩
    rw [wants_oracle hpol, hload, htable] at hwant
    simp only [if_neg hnoline] at hwant
    rw [blockOverlaps_nil] at hwant
    cases hwant
  · intro hcase b hb
    rw [wants_oracle hpol, hload, htable]
    by_cases hin : s.collector.params.slotOf now + 1 ∈ a.slots trace
    · -- the slot's line has the ranges of the whole window
      simp only [if_pos hin]
      have hsorted : (a.hot trace (s.collector.params.slotOf now + 1)).Pairwise (· ≤ ·) :=
        (pairwise_sortUnique _).imp le_of_lt
      rw [blockOverlaps_toSpans hsorted hb]
      exact Args.exists_mem_hot_iff hslot hoffset b.Covers
    · -- no line, and nothing to find
      simp only [if_neg hin]
      rw [blockOverlaps_nil]
      refine ⟨fun h => (by cases h), fun ⟨x, hx, hahead, _⟩ => ?_⟩
      rcases hcase with hin' | hnone
      · exact absurd hin' hin
      · exact absurd hahead (hnone x hx)

/-- Ranges of ten keys, slots of one second, and the ranges of two slots in a line. -/
def twoSlots : Args where
  rangeSize := 10
  slotS := 1
  lookahead := 2

/-- A core that has read the oracle of a trace. -/
def foreseer (trace : List TraceRecord) : LeaperImpl :=
  { sampleCore with
    opt := { policy := .oracle, historySlots := 1, maxRangeId := 63
             historySlots_lt := one_lt_historyLimit }
    oracle := loadOracle (twoSlots.oracleFile trace) }

/-- Range 0 is read in slot 1, range 3 in slot 2. -/
def twoReads : List TraceRecord :=
  [⟨1500, 5, .read, by decide, five_lt_keyLimit⟩, ⟨2500, 35, .scan, by decide, by decide⟩]

/-- A job of slot 0 wants the range that is read two slots later. -/
theorem oracle_wants_two_reads :
    ((foreseer twoReads).onCompactionBegin listCache [] {} [] 0).1.wants ⟨0, 0, 0, 3, 3⟩ = true :=
  ((@oracle_wants_iff _ twoSlots twoReads (foreseer twoReads) rfl rfl _
      (by decide +kernel : twoSlots.slotMs = 1000) rfl (by decide +kernel) listCache [] {} [] 0).mpr
    (Or.inl (by decide +kernel)) ⟨0, 0, 0, 3, 3⟩ le_rfl).mpr
    ⟨⟨2500, 35, .scan, by decide, by decide⟩, by decide,
      ⟨by decide, by decide +kernel, by decide +kernel⟩, by decide +kernel⟩

/-- **A slot without reads has no line.** If range 3 is all that is read, in slot 2, the file
    says nothing of slot 1, and the job of slot 0 does not want it, although slot 2 is one of
    the two slots it looks at. -/
theorem oracle_misses_after_gap :
    twoSlots.slotMs = 1000 ∧ twoSlots.width = 2 ∧
    (foreseer (twoReads.drop 1)).collector.params.slotOf 0 = 0 ∧
    (∃ x ∈ twoReads.drop 1, x.op.isRead = true ∧ (x.tMs + twoSlots.warmupMs) / 1000 = 2 ∧
      x.key / twoSlots.rangeSize = 3) ∧
    ((foreseer (twoReads.drop 1)).onCompactionBegin listCache [] {} [] 0).1.wants ⟨0, 0, 0, 3, 3⟩ =
      false := by
  decide +kernel

end Leaper.Oracle
