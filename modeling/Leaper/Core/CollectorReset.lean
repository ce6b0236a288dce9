import Leaper.Core.CollectorWindow

namespace Leaper

open Lib

/-!
# A table that was in use before

What the collector counts is decided by the accesses of the current clock as long as nothing
of an earlier clock shows through.  The same slot numbers come round again after the clock was
set back, and a word that nobody has touched since still carries its old stamp.

* `countOf_foldl_bumpWord` — what a word shows for a slot: the last run of hits, and the old
  count if all hits were in that very slot (or there were none);
* `Collector.rates_unhaunted` — if no word of the window shows an old count, the history is
  the one of an empty table.
-/

/-- The same collector with nothing recorded in its table. -/
def Collector.wiped (c : Collector) : Collector := { c with cells := fun _ _ => 0 }

/-- **What a word shows for slot `e`** after hits in the slots `es`. -/
theorem countOf_foldl_bumpWord {v : UInt64} {es : List ℕ} (e : ℕ) (hslot : ∀ x ∈ es, x < 2 ^ 32)
    (hfit : lowOf v + es.length < 2 ^ 32) :
    countOf (es.foldl bumpWord v) e =
      trailing e es + if ∀ x ∈ es, x = e then countOf v e else 0 := by
  have hcount : ∀ x, readAt (contents v) x + es.count x < 2 ^ 32 := by
    intro x
    have hread : readAt (contents v) x ≤ lowOf v := by
      show (if stampOf v = x then lowOf v else 0) ≤ lowOf v
      split_ifs
      · exact le_rfl
      · exact Nat.zero_le _
    have hlen := es.count_le_length (a := x)
    omega
  rw [countOf_eq_readAt, contents_foldl_bumpWord hslot hcount, readAt_foldl_touch]
  rfl

/-- A word never written shows nothing in any slot. -/
@[simp] theorem countOf_zero (e : ℕ) : countOf 0 e = 0 := by
  unfold countOf
  split_ifs <;> rfl

/-- The word `v`, hit in the slots `es` since, shows nothing old for slot `e`: it held nothing
    for that slot, or has been used for another one; and its count has room for the hits. -/
def Clear (v : UInt64) (es : List ℕ) (e : ℕ) : Prop :=
  lowOf v + es.length < 2 ^ 32 ∧ (countOf v e = 0 ∨ ∃ x ∈ es, x ≠ e)

instance (v : UInt64) (es : List ℕ) (e : ℕ) : Decidable (Clear v es e) :=
  inferInstanceAs (Decidable (_ ∧ _))

/-- A clear word shows what an empty one would. -/
theorem Clear.countOf_foldl {v : UInt64} {es : List ℕ} {e : ℕ} (h : Clear v es e)
    (hslot : ∀ x ∈ es, x < 2 ^ 32) :
    countOf (es.foldl bumpWord v) e = countOf (es.foldl bumpWord 0) e := by
  have hfit : lowOf 0 + es.length < 2 ^ 32 := by
    have hlow : lowOf 0 = 0 := rfl
    have := h.1
    omega
  rw [countOf_foldl_bumpWord e hslot h.1, countOf_foldl_bumpWord e hslot hfit, countOf_zero]
  congr 1
  rcases h.2 with hnone | ⟨x, hx, hne⟩
  · rw [hnone]
  · have hall : ¬ ∀ x ∈ es, x = e := fun hall => hne (hall x hx)
    rw [if_neg hall, if_neg hall]

/-- A word that shows nothing may as well be zero. -/
theorem Clear.zero {v : UInt64} {es : List ℕ} {e : ℕ} (h : Clear v es e) : Clear 0 es e :=
  ⟨by have hlow : lowOf 0 = 0 := rfl
      have := h.1
      omega, Or.inl (countOf_zero e)⟩

namespace Collector

/-- **No ghosts.** After the accesses `as` no word of the range's window at time `now` shows
    what the table held before them. -/
def Unhaunted (c : Collector) (as : List Access) (range now : ℕ) : Prop :=
  c.params.slotOf now < 2 ^ 32 ∧ ∀ w ∈ [false, true], ∀ i < c.params.history,
    Clear (c.cells w (c.params.cell (c.params.slot range)
      (c.params.windowSlot (c.params.slotOf now) i)))
      (hits c.params w
        (c.params.cell (c.params.slot range) (c.params.windowSlot (c.params.slotOf now) i)) as)
      (c.params.windowSlot (c.params.slotOf now) i)

instance (c : Collector) (as : List Access) (range now : ℕ) :
    Decidable (c.Unhaunted as range now) :=
  inferInstanceAs (Decidable (_ ∧ _))

/-- Wiping the table brings no ghosts. -/
theorem Unhaunted.wiped {c : Collector} {as : List Access} {range now : ℕ}
    (h : c.Unhaunted as range now) : c.wiped.Unhaunted as range now :=
  ⟨h.1, fun w hw i hi => (h.2 w hw i hi).zero⟩

/-- **The history without ghosts** is the history of an empty table. -/
theorem rates_unhaunted {c : Collector} {as : List Access} {range now : ℕ}
    (h : c.Unhaunted as range now) (hrate : 1 ≤ c.params.sampleRate)
    (hpast : ∀ a ∈ as, a.nowUs ≤ now) (w : Bool) :
    (c.recordAll as).rates w range now = (c.wiped.recordAll as).rates w range now := by
  have hparams : c.wiped.params = c.params := rfl
  unfold rates
  rw [recordAll_params, recordAll_params, hparams]
  refine List.map_congr_left fun i hi => ?_
  rw [List.mem_range] at hi
  have hw : w ∈ [false, true] := by cases w <;> decide
  -- the word of this window position shows nothing of before
  have hclear := h.2 w hw i hi
  have hslot : ∀ x ∈ hits c.params w (c.params.cell (c.params.slot range)
      (c.params.windowSlot (c.params.slotOf now) i)) as, x < 2 ^ 32 := by
    intro x hx
    obtain ⟨a, ha, rfl, -⟩ := mem_hits hx
    exact lt_of_le_of_lt (Nat.div_le_div_right (hpast a ha)) h.1
  show c.params.estimate (countOf _ _) = c.params.estimate (countOf _ _)
  rw [cells_recordAll hrate, cells_recordAll (c := c.wiped) hrate, hclear.countOf_foldl hslot]
  rfl

end Collector

end Leaper
