import Leaper.Core.CollectorWindow

namespace Leaper

open Lib

/-!
# Writers that are ahead of the reader

A compaction hook reads the clock and then waits for the core's mutex, so client threads may
already record into the slot after the one its history is asked for.  The ring is one word
longer than the history: the slot of the query has a word of its own, but the slot after it
takes the word of the oldest slot of the window.

* `Collector.shows_record_ahead` — an access of the next slot wipes the oldest position of its
  row and kind and leaves all others;
* `Collector.history_recordAll_ahead_iff` — the history survives exactly when nothing was
  counted at the positions wiped.
-/

/-- The access lies one slot ahead of the query, in the row and of the kind that is read. -/
def Overtakes (p : CollectorParams) (now : ℕ) (w : Bool) (range : ℕ) (a : Access) : Prop :=
  p.slotOf a.nowUs = p.slotOf now + 1 ∧ a.isWrite = w ∧ p.slot a.range = p.slot range

instance (p : CollectorParams) (now : ℕ) (w : Bool) (range : ℕ) (a : Access) :
    Decidable (Overtakes p now w range a) := inferInstanceAs (Decidable (_ ∧ _))

/-- The accesses are stamped in the slot of the query or in the one after it. -/
def Ahead (p : CollectorParams) (now : ℕ) (as : List Access) : Prop :=
  ∀ a ∈ as, p.slotOf a.nowUs = p.slotOf now ∨ p.slotOf a.nowUs = p.slotOf now + 1

instance (p : CollectorParams) (now : ℕ) (as : List Access) : Decidable (Ahead p now as) :=
  inferInstanceAs (Decidable (∀ a ∈ as, _))

namespace CollectorParams

variable (p : CollectorParams)

/-- Of the slots of the window only the oldest shares its word with the slot after the
    query's. -/
theorem windowSlot_mod_succ {epoch i : ℕ} (hi : i < p.history)
    (h : p.windowSlot epoch i + (p.history - i) = epoch) :
    p.windowSlot epoch i % p.ring = (epoch + 1) % p.ring ↔ i = 0 := by
  have hring : p.ring = p.history + 1 := rfl
  constructor
  · intro hmod
    by_contra hne
    have := eq_of_mod_eq_of_lt_add hmod (by omega) (by omega)
    omega
  · rintro rfl
    have hlap : epoch + 1 = p.windowSlot epoch 0 + p.ring := by omega
    rw [hlap, Nat.add_mod_right]

end CollectorParams

/-- What a word shows for a slot is gone once the word is used one lap of the ring later. -/
theorem countOf_recordWord_lap {c : Collector} {e : ℕ} (v : UInt64) :
    countOf (c.recordWord (e + c.params.ring) v) e = 0 := by
  have hring : c.params.ring = c.params.history + 1 := rfl
  have hlt := c.params.history_lt
  unfold Collector.recordWord
  by_cases hst : stampOf v ≠ e + c.params.ring
  · rw [if_pos hst]
    refine if_neg ?_
    -- a stamp cut to its 32 bits does not come round within one lap
    rw [stampOf_firstWord]
    omega
  · rw [if_neg hst]
    have hold : stampOf v = e + c.params.ring := not_not.mp hst
    by_cases hdrop : c.drops
    · rw [if_pos hdrop]
      exact if_neg (by omega)
    · rw [if_neg hdrop]
      -- a count that runs over carries into the stamp, but leaves nothing behind
      by_cases hroom : lowOf v + 1 < 2 ^ 32
      · exact if_neg (by rw [(word_add_one hroom).1]; omega)
      · have hlow : lowOf (v + 1) = 0 := by
          have h1 : (1 : UInt64).toNat = 1 := by decide
          have hbound := v.toNat_lt
          rw [lowOf_eq_mod] at hroom ⊢
          rw [UInt64.toNat_add, h1]
          omega
        unfold countOf
        rw [hlow, ite_self]

namespace Collector

/-- The count position `i` of a history is made from. -/
def shows (c : Collector) (w : Bool) (range now i : ℕ) : ℕ :=
  countOf (c.cells w (c.params.cell (c.params.slot range)
    (c.params.windowSlot (c.params.slotOf now) i))) (c.params.windowSlot (c.params.slotOf now) i)

/-- The rates are the estimates of what the words of the window show. -/
theorem rates_eq_map_shows (c : Collector) (w : Bool) (range now : ℕ) :
    c.rates w range now =
      (List.range c.params.history).map fun i => c.params.estimate (c.shows w range now i) := rfl

/-- One rate. -/
theorem getElem?_rates {c : Collector} {w : Bool} {range now i : ℕ} (hi : i < c.params.history) :
    (c.rates w range now)[i]? = some (c.params.estimate (c.shows w range now i)) := by
  rw [rates_eq_map_shows, List.getElem?_map, List.getElem?_range hi]
  rfl

variable {c : Collector} {now : ℕ}

/-- **What an access just ahead of the reader does**: the oldest position of its row and kind
    is wiped, nothing else changes. -/
theorem shows_record_ahead {a : Access}
    (ha : c.params.slotOf a.nowUs = c.params.slotOf now ∨
      c.params.slotOf a.nowUs = c.params.slotOf now + 1)
    (w : Bool) (range : ℕ) {i : ℕ} (hi : i < c.params.history) :
    (c.record a.range a.isWrite a.nowUs).shows w range now i =
      if i = 0 ∧ Overtakes c.params now w range a then 0 else c.shows w range now i := by
  unfold shows
  rw [record_params]
  rcases c.params.windowSlot_cases (c.params.slotOf now) hi with hreal | ⟨_, hbig⟩
  · rw [record_cells]
    by_cases hhit : w = a.isWrite ∧ c.params.cell (c.params.slot range)
        (c.params.windowSlot (c.params.slotOf now) i) =
        c.params.cell (c.params.slot a.range) (c.params.slotOf a.nowUs)
    · -- the word hit is not the query slot's, so it is the next slot's, and position zero
      rw [if_pos hhit]
      obtain ⟨hw, hcell⟩ := hhit
      rw [CollectorParams.cell_eq_iff] at hcell
      rcases ha with hsame | hnext
      · rw [hsame] at hcell
        exact absurd hcell.2 (c.params.windowSlot_mod_ne hi hreal)
      · rw [hnext] at hcell ⊢
        have hzero : i = 0 := (c.params.windowSlot_mod_succ hi hreal).mp hcell.2
        subst hzero
        have hring : c.params.ring = c.params.history + 1 := rfl
        have hlap : c.params.slotOf now + 1 =
            c.params.windowSlot (c.params.slotOf now) 0 + c.params.ring := by omega
        rw [if_pos ⟨rfl, hnext, hw.symm, hcell.1.symm⟩, hlap, countOf_recordWord_lap]
    · rw [if_neg hhit, if_neg]
      rintro ⟨rfl, hnext, hw, hrow⟩
      refine hhit ⟨hw.symm, ?_⟩
      rw [hrow, hnext, CollectorParams.cell_eq_iff]
      exact ⟨rfl, (c.params.windowSlot_mod_succ hi hreal).mpr rfl⟩
  · rw [countOf_eq_zero_of_le hbig, countOf_eq_zero_of_le hbig, ite_self]

/-- The same for any number of accesses. -/
theorem shows_recordAll_ahead {as : List Access} (has : Ahead c.params now as) (w : Bool)
    (range : ℕ) {i : ℕ} (hi : i < c.params.history) :
    (c.recordAll as).shows w range now i =
      if i = 0 ∧ ∃ a ∈ as, Overtakes c.params now w range a then 0 else c.shows w range now i := by
  unfold recordAll
  induction as generalizing c with
  | nil => simp
  | cons a as ih =>
    have hrest : Ahead (c.record a.range a.isWrite a.nowUs).params now as := by
      rw [record_params]
      exact fun b hb => has b (by simp [hb])
    rw [List.foldl_cons, ih hrest (by rw [record_params]; exact hi), record_params,
      shows_record_ahead (has a (by simp)) w range hi]
    by_cases hlater : i = 0 ∧ ∃ b ∈ as, Overtakes c.params now w range b
    · obtain ⟨hzero, b, hb, hover⟩ := hlater
      rw [if_pos ⟨hzero, b, hb, hover⟩, if_pos ⟨hzero, b, by simp [hb], hover⟩]
    · rw [if_neg hlater]
      -- what is wiped is wiped by the first access
      refine if_congr ?_ rfl rfl
      constructor
      · rintro ⟨hzero, hover⟩
        exact ⟨hzero, a, by simp, hover⟩
      · rintro ⟨hzero, b, hb, hover⟩
        rcases List.mem_cons.mp hb with rfl | hb
        · exact ⟨hzero, hover⟩
        · exact absurd ⟨hzero, b, hb, hover⟩ hlater

/-- Windows that show the same estimates have the same rates. -/
theorem rates_ext {d : Collector} (hparams : d.params = c.params) {w : Bool} {range : ℕ}
    (h : ∀ i < c.params.history, c.params.estimate (d.shows w range now i) =
      c.params.estimate (c.shows w range now i)) :
    d.rates w range now = c.rates w range now := by
  rw [rates_eq_map_shows, rates_eq_map_shows, hparams]
  exact List.map_congr_left fun i hi => h i (List.mem_range.mp hi)

/-- **Which accesses rewrite the past.** Accesses in the slot of the query or in the one after
    it leave every history at the query time as it was exactly when, for each of those in the
    next slot, the oldest entry of its own range and kind was zero already. -/
theorem history_recordAll_ahead_iff {as : List Access} (has : Ahead c.params now as) :
    (∀ range, (c.recordAll as).history range now = c.history range now) ↔
      ∀ a ∈ as, c.params.slotOf a.nowUs = c.params.slotOf now + 1 →
        (c.rates a.isWrite a.range now)[0]? = some 0 := by
  have hest : c.params.estimate 0 = 0 := if_pos rfl
  have hparams : (c.recordAll as).params = c.params := c.recordAll_params as
  constructor
  · intro hsame a ha hnext
    have hrates : (c.recordAll as).rates a.isWrite a.range now = c.rates a.isWrite a.range now := by
      have hboth := hsame a.range
      unfold history at hboth
      cases a.isWrite with
      | false => exact congrArg Prod.fst hboth
      | true => exact congrArg Prod.snd hboth
    rw [← hrates, getElem?_rates (by rw [hparams]; exact c.params.history_pos), hparams,
      shows_recordAll_ahead has _ _ c.params.history_pos,
      if_pos ⟨rfl, a, ha, hnext, rfl, rfl⟩, hest]
  · intro hzero range
    have hrates : ∀ w, (c.recordAll as).rates w range now = c.rates w range now := by
      intro w
      refine rates_ext hparams fun i hi => ?_
      rw [shows_recordAll_ahead has w range hi]
      split_ifs with hwiped
      · -- the wiped position belongs to the row of an access, where it was zero
        obtain ⟨rfl, a, ha, hnext, rfl, hrow⟩ := hwiped
        have hwas := hzero a ha hnext
        rw [getElem?_rates hi] at hwas
        unfold shows at hwas ⊢
        rw [hrow] at hwas
        rw [hest, Option.some.inj hwas]
      · rfl
    unfold history
    rw [hrates false, hrates true]

end Collector

/-- One read of range zero in slot zero, on the one-second collector. -/
def readOnce : Collector := (Collector.fresh oneSecondParams).recordAll [⟨0, false, 0⟩]

/-- A read in the current slot and a write ahead of it, to another range, are not seen. -/
theorem history_ahead_other_range :
    (readOnce.recordAll [⟨0, false, 1500000⟩, ⟨1, true, 2000000⟩]).history 0 1000000 =
      readOnce.history 0 1000000 :=
  (@Collector.history_recordAll_ahead_iff readOnce 1000000 _ (by decide +kernel)).mpr
    (by decide +kernel) 0

/-- A read in the next slot removes what the history had to say of the last one. -/
theorem history_ahead_ne :
    Ahead oneSecondParams 1000000 [⟨0, false, 2000000⟩] ∧
    readOnce.history 0 1000000 = ([1], [0]) ∧
    (readOnce.recordAll [⟨0, false, 2000000⟩]).history 0 1000000 = ([0], [0]) := by
  decide +kernel

end Leaper
