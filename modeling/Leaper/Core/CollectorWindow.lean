import Leaper.Core.Collector

namespace Leaper

open Lib

/-!
# The lazily recycled ring is a sliding-window counter

A run of `Record` calls is folded into the table one cell at a time
(`cells_recordAll`), each word being a stamped counter of `Lib.EpochCell`
(`contents_foldl_bumpWord`).  When no access lags the newest slot by more than the
history, every slot of the window settles in its cell, and `History` reports its number
of accesses, as the nearest `float` (`history_recordAll`).
-/

/-- One call of `Collector::Record`. -/
structure Access where
  range : ℕ
  isWrite : Bool
  nowUs : ℕ
  deriving DecidableEq, Repr

/-- A sequence of `Record` calls. -/
def Collector.recordAll (c : Collector) (as : List Access) : Collector :=
  as.foldl (fun c a => c.record a.range a.isWrite a.nowUs) c

/-- The slots of the accesses of one kind that land in a given cell, in order. -/
def hits (p : CollectorParams) (w : Bool) (idx : ℕ) (as : List Access) : List ℕ :=
  (as.filter fun a => a.isWrite = w ∧ p.cell (p.slot a.range) (p.slotOf a.nowUs) = idx).map
    fun a => p.slotOf a.nowUs

/-- The number of accesses of one kind in slot `e` to the ranges that share a table row
    with `range`. -/
def countIn (p : CollectorParams) (as : List Access) (w : Bool) (range e : ℕ) : ℕ :=
  as.countP fun a =>
    a.isWrite = w ∧ a.range % (p.mask + 1) = range % (p.mask + 1) ∧ p.slotOf a.nowUs = e

/-- What the window of slot `q` should show at position `i`: the accesses of slot
    `q - history + i`, none for slots before slot zero. -/
def windowCount (p : CollectorParams) (as : List Access) (w : Bool) (range q i : ℕ) : ℕ :=
  if p.history ≤ q + i then countIn p as w range (q + i - p.history) else 0

/-! ### A run, cell by cell -/

/-- What an unsampled access leaves in its word. -/
def bumpWord (v : UInt64) (e : ℕ) : UInt64 := if stampOf v ≠ e then firstWord e else v + 1

/-- Accesses leave the parameters alone. -/
@[simp] theorem Collector.recordAll_params (c : Collector) (as : List Access) :
    (c.recordAll as).params = c.params := by
  unfold Collector.recordAll
  induction as generalizing c with
  | nil => rfl
  | cons a as ih => rw [List.foldl_cons, ih, Collector.record_params]

/-- With `sample_rate` at least one no draw decides about the increment. -/
theorem Collector.recordWord_of_unsampled {c : Collector} (h : 1 ≤ c.params.sampleRate) (e : ℕ)
    (v : UInt64) : c.recordWord e v = bumpWord v e := by
  have hdrop : ¬ c.drops := fun hd => absurd hd.1 (not_lt.mpr h)
  unfold Collector.recordWord bumpWord
  rw [if_neg hdrop]

/-- **A run acts on each cell by itself**: the cell's word is the fold of its own hits. -/
theorem Collector.cells_recordAll {c : Collector} (h : 1 ≤ c.params.sampleRate) (w : Bool)
    (idx : ℕ) (as : List Access) :
    (c.recordAll as).cells w idx = (hits c.params w idx as).foldl bumpWord (c.cells w idx) := by
  unfold Collector.recordAll
  induction as generalizing c with
  | nil => rfl
  | cons a as ih =>
    rw [List.foldl_cons, ih (by rw [record_params]; exact h), record_params, record_cells]
    unfold hits
    by_cases hhit : a.isWrite = w ∧
        c.params.cell (c.params.slot a.range) (c.params.slotOf a.nowUs) = idx
    · rw [if_pos ⟨hhit.1.symm, hhit.2.symm⟩, recordWord_of_unsampled h,
        List.filter_cons_of_pos (by simpa using hhit), List.map_cons, List.foldl_cons]
    · rw [if_neg (fun hh => hhit ⟨hh.1.symm, hh.2.symm⟩),
        List.filter_cons_of_neg (by simpa using hhit)]

/-- A word as a stamped counter. -/
def contents (v : UInt64) : ℕ × ℕ := (stampOf v, lowOf v)

/-- A word is a cell of the library, read at the slot. -/
theorem countOf_eq_readAt (v : UInt64) (e : ℕ) : countOf v e = readAt (contents v) e := rfl

/-- Below 2^32 slots and counts the increment is a touch of that cell. -/
theorem contents_bumpWord {v : UInt64} {e : ℕ} (he : e < 2 ^ 32)
    (hlow : readAt (contents v) e + 1 < 2 ^ 32) :
    contents (bumpWord v e) = touch (contents v) e := by
  unfold bumpWord
  show _ = if stampOf v = e then (e, lowOf v + 1) else (e, 1)
  by_cases hst : stampOf v = e
  · have hread : readAt (contents v) e = lowOf v := if_pos hst
    rw [hread] at hlow
    obtain ⟨h1, h2⟩ := word_add_one hlow
    rw [if_neg (not_not.mpr hst), if_pos hst]
    exact Prod.ext (h1.trans hst) h2
  · rw [if_pos hst, if_neg hst]
    unfold contents
    rw [stampOf_firstWord, lowOf_firstWord, Nat.mod_eq_of_lt he]

/-- **Words are stamped counters** as long as slots and counts fit their 32 bits. -/
theorem contents_foldl_bumpWord {es : List ℕ} {v : UInt64} (hslot : ∀ e ∈ es, e < 2 ^ 32)
    (hcount : ∀ e, readAt (contents v) e + es.count e < 2 ^ 32) :
    contents (es.foldl bumpWord v) = es.foldl touch (contents v) := by
  induction es generalizing v with
  | nil => rfl
  | cons e es ih =>
    have he := hcount e
    rw [List.count_cons_self] at he
    -- the first hit leaves the word a stamped counter, of which the rest of the hits are counted
    have hbump := contents_bumpWord (hslot e (by simp))
      (by omega : readAt (contents v) e + 1 < 2 ^ 32)
    rw [List.foldl_cons, List.foldl_cons, ← hbump]
    refine ih (fun x hx => hslot x (by simp [hx])) (fun x => ?_)
    have hx := hcount x
    rw [hbump, readAt_touch]
    by_cases hex : e = x
    · subst hex
      rw [if_pos rfl]
      omega
    · rw [List.count_cons_of_ne hex] at hx
      rw [if_neg hex]
      omega

/-! ### Counting through the cells -/

/-- Among the accesses to a word, those of a slot are the ones the window counts. -/
theorem count_hits (p : CollectorParams) (as : List Access) (w : Bool) (range e : ℕ) :
    (hits p w (p.cell (p.slot range) e) as).count e = countIn p as w range e := by
  unfold hits countIn
  rw [List.count, List.countP_map, List.countP_filter]
  refine List.countP_congr fun a _ => ?_
  simp only [Function.comp_apply, beq_iff_eq, decide_eq_true_eq, Bool.and_eq_true,
    CollectorParams.cell_eq_iff, CollectorParams.slot_eq_mod]
  constructor
  · rintro ⟨he, hw, hrow, -⟩
    exact ⟨hw, hrow, he⟩
  · rintro ⟨hw, hrow, he⟩
    exact ⟨he, hw, hrow, by rw [he]⟩

/-- The runs the ring is made for: nothing is sampled away, no access lags the newest
    slot by more than the history, slots and counts fit their 32 bits, and the query is
    not in the past. -/
structure Timely (p : CollectorParams) (as : List Access) (now : ℕ) : Prop where
  unsampled : 1 ≤ p.sampleRate
  lag : as.Pairwise fun b a => p.slotOf b.nowUs ≤ p.slotOf a.nowUs + p.history
  slot_lt : ∀ a ∈ as, p.slotOf a.nowUs < 2 ^ 32
  count_lt : ∀ w range e, countIn p as w range e < 2 ^ 32
  query : ∀ a ∈ as, p.slotOf a.nowUs ≤ p.slotOf now

variable {p : CollectorParams} {as : List Access} {now : ℕ}

/-- An access that touches a word has its row and, modulo the ring, its slot. -/
theorem mem_hits {w : Bool} {idx x : ℕ} (h : x ∈ hits p w idx as) :
    ∃ a ∈ as, p.slotOf a.nowUs = x ∧ p.cell (p.slot a.range) x = idx := by
  unfold hits at h
  obtain ⟨a, ha, rfl⟩ := List.mem_map.mp h
  obtain ⟨hmem, hhit⟩ := List.mem_filter.mp ha
  exact ⟨a, hmem, rfl, (of_decide_eq_true hhit).2⟩

/-- A slot of the window settles in its cell: what comes after it there shares its residue
    and is too close to be another slot. -/
theorem Timely.settles (h : Timely p as now) (w : Bool) (range : ℕ) {e : ℕ}
    (hwin : p.slotOf now ≤ e + p.history) :
    Settles e (hits p w (p.cell (p.slot range) e) as) := by
  have hpair : (hits p w (p.cell (p.slot range) e) as).Pairwise fun x y => x ≤ y + p.history :=
    List.pairwise_map.mpr (h.lag.filter _)
  -- `x` comes after a hit of slot `e`: it lags `e` by at most the history
  intro before after heq x hx
  have hlag : e ≤ x + p.history := by
    rw [heq] at hpair
    exact List.rel_of_pairwise_cons (List.pairwise_append.mp hpair).2.1 hx
  have hmem : x ∈ hits p w (p.cell (p.slot range) e) as := by rw [heq]; simp [hx]
  obtain ⟨a, ha, hax, hcell⟩ := mem_hits hmem
  have hmod : x % p.ring = e % p.ring := ((p.cell_eq_iff _ _ _ _).mp hcell).2
  have hxq : x ≤ p.slotOf now := hax ▸ h.query a ha
  have hring : p.ring = p.history + 1 := rfl
  rcases Nat.le_total x e with hxe | hex
  · exact eq_of_mod_eq_of_lt_add hmod hxe (by omega)
  · exact (eq_of_mod_eq_of_lt_add hmod.symm hex (by omega)).symm

/-- **A window slot is counted exactly.** -/
theorem Timely.countOf_cell (h : Timely p as now) (w : Bool) (range : ℕ) {e : ℕ}
    (hwin : p.slotOf now ≤ e + p.history) :
    countOf (((Collector.fresh p).recordAll as).cells w (p.cell (p.slot range) e)) e
      = countIn p as w range e := by
  have hzero : contents 0 = (0, 0) := rfl
  have hread : ∀ x, readAt (contents 0) x = 0 := fun x => by simp [hzero, readAt]
  have hcells := Collector.cells_recordAll (c := Collector.fresh p) h.unsampled w
    (p.cell (p.slot range) e) as
  -- every hit of the cell is some range's access, so no count reaches the stamp
  have hcount : ∀ x, readAt (contents 0) x
      + (hits p w (p.cell (p.slot range) e) as).count x < 2 ^ 32 := by
    intro x
    rw [hread, Nat.zero_add]
    by_cases hx : x ∈ hits p w (p.cell (p.slot range) e) as
    · obtain ⟨a, _, _, hcell⟩ := mem_hits hx
      rw [← hcell, count_hits]
      exact h.count_lt w a.range x
    · rw [List.count_eq_zero_of_not_mem hx]
      norm_num
  have hslot : ∀ x ∈ hits p w (p.cell (p.slot range) e) as, x < 2 ^ 32 := by
    intro x hx
    obtain ⟨a, ha, hax, _⟩ := mem_hits hx
    exact hax ▸ h.slot_lt a ha
  have hfresh : (Collector.fresh p).cells w (p.cell (p.slot range) e) = 0 := rfl
  have hparams : (Collector.fresh p).params = p := rfl
  rw [hfresh, hparams] at hcells
  rw [countOf_eq_readAt, hcells, contents_foldl_bumpWord hslot hcount,
    readAt_foldl_touch_of_settles (h.settles w range hwin) (hread e), count_hits]

/-- **The ring is a sliding-window counter.** -/
theorem Timely.rates_recordAll (h : Timely p as now) (w : Bool) (range : ℕ) :
    ((Collector.fresh p).recordAll as).rates w range now =
      (List.range p.history).map fun i =>
        binary32 (windowCount p as w range (p.slotOf now) i) := by
  have hparams : (Collector.fresh p).params = p := rfl
  unfold Collector.rates
  rw [Collector.recordAll_params, hparams]
  refine List.map_congr_left fun i hi => ?_
  rw [List.mem_range] at hi
  have hest : ∀ s : ℕ, p.estimate s = binary32 s := by
    intro s
    unfold CollectorParams.estimate
    by_cases hs : s = 0
    · rw [if_pos hs, hs]; simp
    · rw [if_neg hs, if_pos h.unsampled]
  show p.estimate _ = _
  rw [hest]
  congr 2
  unfold windowCount
  -- a position before slot zero has wrapped round to a slot that no stamp can show
  rcases p.windowSlot_cases (p.slotOf now) hi with hreal | ⟨hlt, hbig⟩
  · rw [if_pos (by omega), h.countOf_cell w range (by omega)]
    congr 1
    omega
  · rw [if_neg (by omega), countOf_eq_zero_of_le hbig]

/-- **`History` counts the window.** Each position holds the number of accesses of its slot,
    as the nearest `float`; up to `2^24` that is the number itself. -/
theorem history_recordAll (h : Timely p as now) (range : ℕ) :
    ((Collector.fresh p).recordAll as).history range now =
      ((List.range p.history).map fun i =>
          binary32 (windowCount p as false range (p.slotOf now) i),
        (List.range p.history).map fun i =>
          binary32 (windowCount p as true range (p.slotOf now) i)) ∧
    ∀ w i, windowCount p as w range (p.slotOf now) i ≤ 2 ^ 24 →
      binary32 (windowCount p as w range (p.slotOf now) i)
        = windowCount p as w range (p.slotOf now) i := by
  refine ⟨?_, fun w i hle => binary32_natCast hle⟩
  unfold Collector.history
  rw [h.rates_recordAll false range, h.rates_recordAll true range]

/-- No slot has more accesses than were made. -/
theorem countIn_le_length (p : CollectorParams) (as : List Access) (w : Bool) (range e : ℕ) :
    countIn p as w range e ≤ as.length := List.countP_le_length

/-- A collector over 64 ranges with one slot of history, one second long, nothing sampled. -/
def oneSecondParams : CollectorParams := Collector.newParams 64 1 1 1 (by norm_num)

theorem oneSecondParams_slotUs : oneSecondParams.slotUs = 1000000 := by
  have hexact := binary64_natCast (n := 1000000) (by norm_num)
  show ⌊binary64 ((1 : ℚ) * 1000000)⌋₊ = 1000000
  rw [one_mul, show (1000000 : ℚ) = ((1000000 : ℕ) : ℚ) by norm_num, hexact, Nat.floor_natCast]

/-- Repeating one access of slot zero is a timely run for a query in slot one. -/
theorem timely_replicate {n : ℕ} (hn : n < 2 ^ 32) :
    Timely oneSecondParams (List.replicate n ⟨0, false, 0⟩) 1000000 := by
  have hzero : oneSecondParams.slotOf 0 = 0 := Nat.zero_div _
  refine ⟨le_rfl, ?_, ?_, ?_, ?_⟩
  · exact List.pairwise_replicate.mpr (Or.inr (Nat.le_add_right _ _))
  · intro a ha
    rw [List.eq_of_mem_replicate ha]
    show oneSecondParams.slotOf 0 < 2 ^ 32
    rw [hzero]; norm_num
  · intro w range e
    refine lt_of_le_of_lt (countIn_le_length _ _ _ _ _) ?_
    rw [List.length_replicate]; exact hn
  · intro a ha
    rw [List.eq_of_mem_replicate ha]
    show oneSecondParams.slotOf 0 ≤ _
    rw [hzero]; exact Nat.zero_le _

/-- `n` accesses to one range in the first second. -/
theorem windowCount_replicate (n : ℕ) :
    windowCount oneSecondParams (List.replicate n ⟨0, false, 0⟩) false 0
      (oneSecondParams.slotOf 1000000) 0 = n := by
  have hone : oneSecondParams.slotOf 1000000 = 1 := by
    unfold CollectorParams.slotOf
    rw [oneSecondParams_slotUs]
  have hhist : oneSecondParams.history = 1 := rfl
  have hzero : oneSecondParams.slotOf 0 = 0 := Nat.zero_div _
  unfold windowCount countIn
  rw [hone, hhist, if_pos (by norm_num), List.countP_replicate]
  simp [hzero]

/-- Accesses of range 5 in the slots 0, 1, 2 and 3, the last two out of order. -/
def fourSlots : List Access :=
  [⟨5, false, 100000⟩, ⟨5, false, 1200000⟩, ⟨5, true, 3100000⟩, ⟨5, false, 2500000⟩,
   ⟨5, false, 3900000⟩, ⟨5, false, 3950000⟩]

/-- With one slot of history a word is used again after two slots: that of slot 3 was the one of
    slot 1. -/
theorem history_fourSlots :
    oneSecondParams.cell 5 3 = oneSecondParams.cell 5 1 ∧
    ((Collector.fresh oneSecondParams).recordAll fourSlots).history 5 4000000 = ([2], [1]) := by
  have htimely : Timely oneSecondParams fourSlots 4000000 :=
    ⟨by decide +kernel, by decide +kernel, by decide +kernel,
      fun w range e => (countIn_le_length _ _ _ _ _).trans_lt (by decide), by decide +kernel⟩
  obtain ⟨hhistory, hexact⟩ := history_recordAll htimely 5
  have hreads : windowCount oneSecondParams fourSlots false 5 (oneSecondParams.slotOf 4000000) 0 =
      2 := by decide +kernel
  have hwrites : windowCount oneSecondParams fourSlots true 5 (oneSecondParams.slotOf 4000000) 0 =
      1 := by decide +kernel
  refine ⟨by decide +kernel, hhistory.trans ?_⟩
  show ([binary32 _], [binary32 _]) = _
  rw [hexact false 0 (by rw [hreads]; norm_num), hexact true 0 (by rw [hwrites]; norm_num), hreads,
    hwrites]
  rfl

/-- `2^24 + 1` reads in one slot are reported as `2^24`: the `float` cannot hold the count. -/
theorem history_not_exact :
    Timely oneSecondParams (List.replicate (2 ^ 24 + 1) ⟨0, false, 0⟩) 1000000 ∧
    ((Collector.fresh oneSecondParams).recordAll
        (List.replicate (2 ^ 24 + 1) ⟨0, false, 0⟩)).history 0 1000000 ≠
      ((List.range oneSecondParams.history).map fun i => (windowCount oneSecondParams
          (List.replicate (2 ^ 24 + 1) ⟨0, false, 0⟩) false 0
          (oneSecondParams.slotOf 1000000) i : ℚ),
        (List.range oneSecondParams.history).map fun i => (windowCount oneSecondParams
          (List.replicate (2 ^ 24 + 1) ⟨0, false, 0⟩) true 0
          (oneSecondParams.slotOf 1000000) i : ℚ)) := by
  have ht := timely_replicate (by norm_num : 2 ^ 24 + 1 < 2 ^ 32)
  refine ⟨ht, fun heq => ?_⟩
  have hreads := congrArg Prod.fst heq
  unfold Collector.history at hreads
  rw [ht.rates_recordAll false 0] at hreads
  have hhead := congrArg List.head? hreads
  have hhist : List.range oneSecondParams.history = [0] := rfl
  rw [hhist] at hhead
  simp only [List.map_cons, List.map_nil, List.head?_cons, Option.some.injEq] at hhead
  rw [windowCount_replicate, binary32_two_pow_24_add_one] at hhead
  norm_num at hhead

end Leaper
