import Leaper.Core.CollectorAhead
import Leaper.Core.CollectorReset
import Leaper.Core.Nesting

namespace Leaper

open Lib

/-!
# The rows accesses write and blocks read

An access is recorded under the range id of its key, masked into the counter table; a block is
scored under its range ids clamped to `max_range_id`.  For ids of the key space mask and clamp
are both the identity.  Beyond it they go apart:

* `BlockRef.Covers.min_mem_ids` — the clamped id of a key is among the ids its block is scored
  under;
* `accesses_agree_iff` — accesses to a key are counted where its blocks read, and nowhere else,
  exactly when the mask takes the key's id to its clamped id.
-/

/-- The clamped id of a range is one of the clamped ids of a block over it. -/
theorem BlockRef.Covers.min_mem_ids {b : BlockRef} {r : ℕ} (h : b.Covers r) (cap : ℕ) :
    min r cap ∈ b.ids cap := by
  obtain ⟨hfirst, hlast⟩ := h
  unfold BlockRef.ids
  rw [List.mem_range'_1]
  omega

namespace Collector

/-- A history depends on its range only through the row. -/
theorem history_congr_slot (c : Collector) {r r' : ℕ} (h : c.params.slot r = c.params.slot r')
    (query : ℕ) : c.history r query = c.history r' query := by
  unfold history rates
  rw [h]

/-- An access does not show in the other rows. -/
theorem history_record_of_slot_ne {c : Collector} {r r' : ℕ}
    (h : c.params.slot r' ≠ c.params.slot r) (w : Bool) (now query : ℕ) :
    (c.record r w now).history r' query = c.history r' query := by
  have hrates : ∀ w', (c.record r w now).rates w' r' query = c.rates w' r' query := by
    intro w'
    unfold rates
    simp only [record_params]
    refine List.map_congr_left fun i _ => ?_
    rw [record_cells_of_ne]
    intro hcell
    exact h ((c.params.cell_eq_iff _ _ _ _).mp hcell).1
  unfold history
  rw [hrates false, hrates true]

/-- One read in slot one, and what the last slot of the histories of slot two shows of it. -/
theorem shows_record_fresh {p : CollectorParams} {now query : ℕ} (hnow : p.slotOf now = 1)
    (hquery : p.slotOf query = 2) (r r' : ℕ) :
    ((fresh p).record r false now).shows false r' query (p.history - 1) =
      if p.slot r' = p.slot r then 1 else 0 := by
  have hpos := p.history_pos
  have hlast : p.windowSlot 2 (p.history - 1) = 1 := by
    unfold CollectorParams.windowSlot
    rw [sub64_of_le (by omega)]
    omega
  have hparams : (fresh p).params = p := rfl
  have hfresh : ∀ idx, (fresh p).cells false idx = 0 := fun _ => rfl
  have hzero : stampOf 0 ≠ 1 := by decide
  unfold shows
  rw [record_params, hparams, hquery, hlast, record_cells, hparams, hnow, hfresh]
  -- the word of slot one is new in slot one, so the read is kept whatever the sampling rate
  unfold recordWord
  rw [if_pos hzero]
  by_cases hrow : p.slot r' = p.slot r
  · rw [if_pos ⟨rfl, by rw [hrow]⟩, if_pos hrow]
    decide
  · rw [if_neg (fun hhit => hrow ((p.cell_eq_iff _ _ _ _).mp hhit.2).1), if_neg hrow, countOf_zero]

/-- If that read shows in the history of another range, the two ranges share a row. -/
theorem slot_eq_of_history_eq {p : CollectorParams} {now query : ℕ} (hnow : p.slotOf now = 1)
    (hquery : p.slotOf query = 2) {r r' : ℕ}
    (h : ((fresh p).record r false now).history r query =
      ((fresh p).record r false now).history r' query) : p.slot r' = p.slot r := by
  have hlast : p.history - 1 < ((fresh p).record r false now).params.history := by
    rw [record_params]
    exact Nat.sub_lt p.history_pos Nat.one_pos
  have hentry := congrArg (fun l : List ℚ => l[p.history - 1]?) (congrArg Prod.fst h)
  simp only [history, getElem?_rates hlast, shows_record_fresh hnow hquery, if_true,
    record_params, Option.some.injEq] at hentry
  by_contra hrow
  rw [if_neg hrow] at hentry
  have hone : (fresh p).params.estimate 1 = 1 := by
    have hexact : binary32 ((1 : ℕ) : ℚ) = (1 : ℕ) := binary32_natCast (by norm_num)
    rw [Nat.cast_one] at hexact
    unfold CollectorParams.estimate
    simp [hexact]
  have hzero : (fresh p).params.estimate 0 = 0 := if_pos rfl
  rw [hone, hzero] at hentry
  exact one_ne_zero hentry

end Collector

/-! ### Along a run -/

variable {κ : Type*} (ops : CacheOps κ)

/-- **What a call can do to the access path**: the mapper and the layout of the table stay. -/
theorem step_access_path (w : World κ) (e : Event κ) :
    (step ops w e).1.core.mapper = w.core.mapper ∧
    (step ops w e).1.core.collector.params = w.core.collector.params := by
  cases e with
  | access isWrite key now =>
    obtain ⟨c, heq, hc⟩ := w.core.onAccess_frame isWrite key now
    show (w.core.onAccess isWrite key now).mapper = _ ∧
      (w.core.onAccess isWrite key now).collector.params = _
    rw [heq]
    refine ⟨rfl, ?_⟩
    rcases hc with rfl | rfl
    · rfl
    · exact Collector.record_params _ _ _ _
  | shouldPrefetch block =>
    show (w.core.shouldPrefetch block).1.mapper = _ ∧
      (w.core.shouldPrefetch block).1.collector.params = _
    obtain ⟨st, heq | ⟨-, -, heq⟩⟩ := w.core.shouldPrefetch_frame block
    all_goals rw [heq]; exact ⟨rfl, rfl⟩
  | compactionEnd =>
    obtain ⟨c, cs, heq⟩ := w.core.onCompactionEnd_frame
    show w.core.onCompactionEnd.mapper = _ ∧ w.core.onCompactionEnd.collector.params = _
    rw [heq]
    exact ⟨rfl, rfl⟩
  | fileObsolete blocks =>
    obtain ⟨st, heq⟩ := w.core.onFileObsolete_frame ops w.cache blocks
    show (w.core.onFileObsolete ops w.cache blocks).1.mapper = _ ∧
      (w.core.onFileObsolete ops w.cache blocks).1.collector.params = _
    rw [heq]
    exact ⟨rfl, rfl⟩
  | _ => exact ⟨rfl, rfl⟩

/-- Options, mapper and table layout after a whole run. -/
theorem run_access_path (w : World κ) (es : List (Event κ)) :
    (run (step ops) w es).core.opt = w.core.opt ∧
    (run (step ops) w es).core.mapper = w.core.mapper ∧
    (run (step ops) w es).core.collector.params = w.core.collector.params := by
  induction es generalizing w with
  | nil => exact ⟨rfl, rfl, rfl⟩
  | cons e es ih =>
    obtain ⟨hopt, hmapper, hparams⟩ := ih (step ops w e).1
    obtain ⟨hmapper', hparams'⟩ := step_access_path ops w e
    rw [run_cons]
    exact ⟨hopt.trans (step_opt ops w e), hmapper.trans hmapper', hparams.trans hparams'⟩

namespace LeaperImpl

/-- The id under which the part of a block at `key` is scored. -/
def scoredId (s : LeaperImpl) (key : Bytes) : ℕ := min (s.mapper.map key) s.opt.maxRangeId

/-- **Accesses and blocks agree on a key.** Every block over the key is scored, among others,
    under an id whose history is the one accesses to the key are counted in, and an access to
    the key changes the history of no other id of the key space. -/
structure AgreesOn (s : LeaperImpl) (key : Bytes) : Prop where
  scored : ∀ b : BlockRef, b.Covers (s.mapper.map key) → s.scoredId key ∈ b.ids s.opt.maxRangeId ∧
    ∀ query, s.collector.history (s.mapper.map key) query =
      s.collector.history (s.scoredId key) query
  others : ∀ isWrite now id, id ≤ s.opt.maxRangeId → id ≠ s.scoredId key → ∀ query,
    (s.onAccess isWrite key now).collector.history id query = s.collector.history id query

variable {s : LeaperImpl} {key : Bytes}

/-- Where the mask takes the key's id to its clamped id, accesses and blocks agree. -/
theorem AgreesOn.of_row (hrows : s.opt.maxRangeId < s.collector.params.mask + 1)
    (hrow : s.mapper.map key % (s.collector.params.mask + 1) = s.scoredId key) :
    s.AgreesOn key := by
  have hid : ∀ id ≤ s.opt.maxRangeId, s.collector.params.slot id = id := by
    intro id hle
    rw [CollectorParams.slot_eq_mod]
    exact Nat.mod_eq_of_lt (by omega)
  have hscored : s.scoredId key ≤ s.opt.maxRangeId := Nat.min_le_right _ _
  have hslot : s.collector.params.slot (s.mapper.map key) = s.scoredId key := by
    rw [CollectorParams.slot_eq_mod, hrow]
  refine ⟨fun b hb => ⟨hb.min_mem_ids _, fun query => ?_⟩, fun isWrite now id hle hne query => ?_⟩
  · apply Collector.history_congr_slot
    rw [hslot, hid _ hscored]
  · obtain ⟨c, heq, hc⟩ := s.onAccess_frame isWrite key now
    rw [heq]
    rcases hc with rfl | rfl
    · rfl
    · apply Collector.history_record_of_slot_ne
      rw [hid id hle, hslot]
      exact hne

end LeaperImpl

open LeaperImpl

/-- **When accesses and blocks agree.** For a leaper core as constructed, with a slot length of
    at least a microsecond: accesses to a key and the blocks over it agree after every run
    exactly when the mask of the counter table takes the key's range id to its clamped id.
    For ids up to `max_range_id` that is always so. -/
theorem accesses_agree_iff {s : LeaperImpl} (hnew : s.collector = newCollector s.opt)
    (hpol : s.opt.policy = .leaper) (hfit : s.opt.maxRangeId < s.opt.maxRanges)
    (hslot : 0 < s.collector.params.slotUs) (cache : κ) (key : Bytes) :
    ((∀ es : List (Event κ), (run (step ops) ⟨s, cache⟩ es).core.AgreesOn key) ↔
      s.mapper.map key % (s.collector.params.mask + 1) = min (s.mapper.map key) s.opt.maxRangeId) ∧
    (s.mapper.map key ≤ s.opt.maxRangeId →
      s.mapper.map key % (s.collector.params.mask + 1) =
        min (s.mapper.map key) s.opt.maxRangeId) := by
  have hrows : s.opt.maxRangeId < s.collector.params.mask + 1 := by
    rw [hnew]
    exact maxRangeId_lt_rows hfit
  refine ⟨⟨fun hagree => ?_, fun hrow es => ?_⟩, fun hle => ?_⟩
  · -- one read of the key in slot one, and the histories of slot two
    have hrun := (hagree [.access false key s.collector.params.slotUs]).scored
      ⟨0, 0, 0, s.mapper.map key, s.mapper.map key⟩
    have hcollect : s.collecting = true := decide_eq_true hpol
    have hread : (run (step ops) ⟨s, cache⟩ [.access false key s.collector.params.slotUs]).core =
        { s with collector := s.collector.record (s.mapper.map key) false
                    s.collector.params.slotUs } := by
      show s.onAccess false key s.collector.params.slotUs = _
      unfold onAccess
      rw [if_pos hcollect]
    rw [hread] at hrun
    have hsame := (hrun ⟨le_rfl, le_rfl⟩).2 (2 * s.collector.params.slotUs)
    have hfresh : s.collector = Collector.fresh s.collector.params := by rw [hnew]; rfl
    have hnow : s.collector.params.slotOf s.collector.params.slotUs = 1 := Nat.div_self hslot
    have hquery : s.collector.params.slotOf (2 * s.collector.params.slotUs) = 2 :=
      Nat.mul_div_cancel _ hslot
    simp only at hsame
    rw [hfresh] at hsame
    have hrow := Collector.slot_eq_of_history_eq hnow hquery hsame
    rw [CollectorParams.slot_eq_mod, CollectorParams.slot_eq_mod] at hrow
    rw [← hrow]
    exact Nat.mod_eq_of_lt (lt_of_le_of_lt (Nat.min_le_right _ _) hrows)
  · -- row and id stay what they are in every run
    obtain ⟨hopt, hmapper, hparams⟩ := run_access_path ops ⟨s, cache⟩ es
    apply AgreesOn.of_row
    · rw [hopt, hparams]
      exact hrows
    · unfold scoredId
      rw [hopt, hmapper, hparams]
      exact hrow
  · rw [Nat.mod_eq_of_lt (by omega), min_eq_left hle]

/-- Accesses around a compaction. -/
def aroundJob : List (Event (List BlockRef)) :=
  [.access false [127] 1000000, .compactionBegin {} [{ firstRange := 60, lastRange := 70 }] 2000000,
   .access true [127] 2500000, .compactionEnd]

/-- The sample core's table has 64 rows for the ids up to 63: id 127 is counted in the row of
    id 63, under which its blocks are scored. -/
theorem accesses_agree_sample :
    (run (step listCache) ⟨sampleCore, []⟩ aroundJob).core.AgreesOn [127] :=
  (accesses_agree_iff listCache (s := sampleCore) rfl rfl (by decide) (by decide +kernel) []
    [127]).1.mpr (by decide +kernel) aroundJob

/-- **An access beyond the key space goes astray.** Id 64 is counted in the row of id 0; the
    block over it is scored under id 63, which shows nothing. -/
theorem accesses_disagree_sample :
    sampleCore.opt.maxRangeId < sampleCore.opt.maxRanges ∧
    sampleCore.mapper.map [64] = 64 ∧ sampleCore.scoredId [64] = 63 ∧
    (sampleCore.onAccess false [64] 1000000).collector.history 63 2000000 = ([0], [0]) ∧
    sampleCore.collector.history 0 2000000 = ([0], [0]) ∧
    (sampleCore.onAccess false [64] 1000000).collector.history 0 2000000 = ([1], [0]) := by
  decide +kernel

end Leaper
