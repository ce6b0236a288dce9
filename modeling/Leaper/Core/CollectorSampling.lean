import Leaper.Core.CollectorWindow

namespace Leaper

open Lib

/-!
# What sampling keeps of an access

With a sample rate below one the collector counts the first access of a slot always and draws
for the others.  It takes an access for the first one when the stamp of its word is another slot;
a word never used is stamped zero, so in slot zero there is no first access.

* `Tracks` — what a word knows of the accesses that hit it, however the draws fall;
* `tracks_recordAll` — it holds of every word after every run in slot order;
* `sampled_label` — a slot of the window shows at least one exactly when it was accessed and, for
  slot zero, a draw kept one of the accesses.
-/

/-- What a word knows after the hits `es`: the last slot, no more than its hits, at least one for
    any slot but zero.  For slot zero there is something iff an access was `kept`. -/
structure Tracks (es : List ℕ) (kept : Prop) (v : UInt64) : Prop where
  stamp : stampOf v = es.getLast?.getD 0
  low_le : lowOf v ≤ es.count (stampOf v)
  first : stampOf v ≠ 0 → 0 < lowOf v
  zero : stampOf v = 0 → (0 < lowOf v ↔ kept)

theorem Tracks.unused : Tracks [] False 0 := by
  refine ⟨by decide, by decide, by decide, fun _ => ?_⟩
  exact iff_of_false (by decide) id

/-- **One more hit**, in the slot of the last one or a later one. -/
theorem Tracks.hit {es : List ℕ} {kept : Prop} {v : UInt64} (h : Tracks es kept v) (c : Collector)
    {e : ℕ} (hlast : ∀ x ∈ es, x ≤ e) (he : e < 2 ^ 32) (hcount : es.count e + 1 < 2 ^ 32) :
    Tracks (es ++ [e]) (kept ∨ e = 0 ∧ ¬ c.drops) (c.recordWord e v) := by
  have hget : (es ++ [e]).getLast?.getD 0 = e := by simp
  have hmore : (es ++ [e]).count e = es.count e + 1 := by simp
  unfold Collector.recordWord
  by_cases hnew : stampOf v ≠ e
  · -- a new slot, and not slot zero: nothing comes before that
    have hstamp_le : stampOf v ≤ e := by
      rw [h.stamp]
      cases hes : es.getLast? with
      | none => exact Nat.zero_le e
      | some x => exact hlast x (List.mem_of_getLast? hes)
    have hpos : e ≠ 0 := by omega
    have hstamp : stampOf (firstWord e) = e := by rw [stampOf_firstWord, Nat.mod_eq_of_lt he]
    rw [if_pos hnew]
    refine ⟨by rw [hget, hstamp], ?_, fun _ => ?_, fun hz => absurd (hstamp.symm.trans hz) hpos⟩
    · rw [hstamp, lowOf_firstWord, hmore]
      exact Nat.le_add_left 1 _
    · rw [lowOf_firstWord]
      exact one_pos
  · -- the word is of this slot, or unused in slot zero: the draw decides
    rw [not_ne_iff] at hnew
    rw [if_neg (not_not.mpr hnew)]
    have hlow := h.low_le
    rw [hnew] at hlow
    by_cases hdrop : c.drops
    · rw [if_pos hdrop]
      refine ⟨by rw [hget, hnew], ?_, h.first, fun hz => ?_⟩
      · rw [hnew, hmore]
        omega
      · rw [h.zero hz]
        exact ⟨.inl, fun hk => hk.resolve_right fun hh => hh.2 hdrop⟩
    · rw [if_neg hdrop]
      obtain ⟨hstamp, hup⟩ := word_add_one (v := v) (by omega)
      refine ⟨by rw [hget, hstamp, hnew], ?_, fun _ => ?_, fun hz => ?_⟩
      · rw [hstamp, hup, hnew, hmore]
        omega
      · rw [hup]
        exact Nat.succ_pos _
      · rw [hup]
        refine iff_of_true (Nat.succ_pos _) (.inr ⟨?_, hdrop⟩)
        rw [hstamp, hnew] at hz
        exact hz

section Run

variable (c : Collector)

/-- An access of the kind and the cell. -/
def Collector.Hits (w : Bool) (idx : ℕ) (a : Access) : Prop :=
  a.isWrite = w ∧ c.params.cell (c.params.slot a.range) (c.params.slotOf a.nowUs) = idx

/-- In slot zero, some access of the kind that hit the cell was kept by its draw. -/
def Collector.Kept (w : Bool) (idx : ℕ) (as : List Access) : Prop :=
  ∃ before a after, as = before ++ a :: after ∧ c.Hits w idx a ∧
    c.params.slotOf a.nowUs = 0 ∧ ¬ (c.recordAll before).drops

theorem Collector.kept_concat (w : Bool) (idx : ℕ) (as : List Access) (a : Access) :
    c.Kept w idx (as ++ [a]) ↔ c.Kept w idx as ∨
      c.Hits w idx a ∧ c.params.slotOf a.nowUs = 0 ∧ ¬ (c.recordAll as).drops := by
  constructor
  · rintro ⟨before, b, after, heq, hhit, hslot, hdraw⟩
    rcases List.eq_nil_or_concat after with rfl | ⟨rest, y, rfl⟩
    · obtain ⟨rfl, hb⟩ := List.append_inj' heq rfl
      obtain rfl : a = b := (List.cons.inj hb).1
      exact .inr ⟨hhit, hslot, hdraw⟩
    · rw [List.concat_eq_append, ← List.cons_append, ← List.append_assoc] at heq
      exact .inl ⟨before, b, rest, (List.append_inj' heq rfl).1, hhit, hslot, hdraw⟩
  · rintro (⟨before, b, after, rfl, hrest⟩ | hlast)
    · exact ⟨before, b, after ++ [a], by simp, hrest⟩
    · exact ⟨as, a, [], rfl, hlast⟩

/-- **Every word tracks its hits** after a run in slot order. -/
theorem Collector.tracks_recordAll (w : Bool) (idx : ℕ) (hunused : c.cells w idx = 0)
    (as : List Access)
    (hmono : as.Pairwise fun b a => c.params.slotOf b.nowUs ≤ c.params.slotOf a.nowUs)
    (hslot : ∀ a ∈ as, c.params.slotOf a.nowUs < 2 ^ 32)
    (hcount : ∀ e, (hits c.params w idx as).count e < 2 ^ 32) :
    Tracks (hits c.params w idx as) (c.Kept w idx as) ((c.recordAll as).cells w idx) := by
  induction as using List.reverseRecOn with
  | nil =>
    have hnone : c.Kept w idx [] ↔ False :=
      iff_false_intro fun ⟨_, _, _, heq, _⟩ => absurd heq (by simp)
    show Tracks [] (c.Kept w idx []) (c.cells w idx)
    rw [hunused, hnone]
    exact .unused
  | append_singleton as a ih =>
    have hsplit := List.pairwise_append.mp hmono
    have hhits : hits c.params w idx (as ++ [a]) =
        hits c.params w idx as ++ hits c.params w idx [a] := by
      unfold hits
      rw [List.filter_append, List.map_append]
    have ih' := ih hsplit.1 (fun x hx => hslot x (List.mem_append_left _ hx)) fun e => by
      have hle := hcount e
      rw [hhits, List.count_append] at hle
      omega
    have hrun : c.recordAll (as ++ [a]) = (c.recordAll as).record a.range a.isWrite a.nowUs := by
      unfold Collector.recordAll
      rw [List.foldl_append]
      rfl
    rw [hrun, record_cells, recordAll_params, c.kept_concat, hhits]
    by_cases hhit : c.Hits w idx a
    · -- the access is to this word, and in no earlier slot than those before it
      have hone : hits c.params w idx [a] = [c.params.slotOf a.nowUs] := by
        unfold hits
        rw [List.filter_cons_of_pos (by simpa [Collector.Hits] using hhit)]
        rfl
      have hlast : ∀ x ∈ hits c.params w idx as, x ≤ c.params.slotOf a.nowUs := by
        intro x hx
        obtain ⟨b, hb, rfl, -⟩ := mem_hits hx
        exact hsplit.2.2 b hb a List.mem_cons_self
      have hfit := hcount (c.params.slotOf a.nowUs)
      rw [hhits, hone, List.count_append, List.count_singleton_self] at hfit
      rw [if_pos ⟨hhit.1.symm, hhit.2.symm⟩, hone]
      simp only [hhit, true_and]
      exact ih'.hit (c.recordAll as) hlast (hslot a (by simp)) hfit
    · -- the access is to another word
      have hnone : hits c.params w idx [a] = [] := by
        unfold hits
        rw [List.filter_cons_of_neg (by simpa [Collector.Hits] using hhit)]
        rfl
      rw [if_neg fun hh => hhit ⟨hh.1.symm, hh.2.symm⟩, hnone, List.append_nil]
      simp only [hhit, false_and, or_false]
      exact ih'

end Run

/-- An estimate is zero, or at least one. -/
theorem estimate_spec {p : CollectorParams} (hpos : 0 < p.sampleRate) (hlt : p.sampleRate < 1)
    (s : ℕ) : (s = 0 ∧ p.estimate s = 0) ∨ (0 < s ∧ 1 ≤ p.estimate s) := by
  unfold CollectorParams.estimate
  rcases Nat.eq_zero_or_pos s with rfl | hs
  · exact .inl ⟨rfl, if_pos rfl⟩
  · rw [if_neg hs.ne', if_neg (not_le.mpr hlt)]
    have hone : (1 : ℚ) ≤ s := by exact_mod_cast hs
    have hquot : 0 ≤ ((s : ℚ) - 1) / p.sampleRate := div_nonneg (by linarith) hpos.le
    exact .inr ⟨hs, one_le_binary32 (by linarith)⟩

/-- A kept access of slot zero, in terms of the range's row. -/
def Collector.KeptInSlotZero (c : Collector) (w : Bool) (range : ℕ) (as : List Access) : Prop :=
  ∃ before a after, as = before ++ a :: after ∧ a.isWrite = w ∧
    a.range % (c.params.mask + 1) = range % (c.params.mask + 1) ∧ c.params.slotOf a.nowUs = 0 ∧
    ¬ (c.recordAll before).drops

theorem Collector.kept_iff (c : Collector) (w : Bool) (range : ℕ) (as : List Access) :
    c.Kept w (c.params.cell (c.params.slot range) 0) as ↔ c.KeptInSlotZero w range as := by
  unfold Collector.Kept Collector.KeptInSlotZero Collector.Hits
  simp only [CollectorParams.cell_eq_iff, CollectorParams.slot_eq_mod]
  constructor
  · rintro ⟨before, a, after, heq, ⟨hw, hrow, -⟩, hslot, hdraw⟩
    exact ⟨before, a, after, heq, hw, hrow, hslot, hdraw⟩
  · rintro ⟨before, a, after, heq, hw, hrow, hslot, hdraw⟩
    exact ⟨before, a, after, heq, ⟨hw, hrow, by rw [hslot]⟩, hslot, hdraw⟩

/-- Accesses in slot order before a query, with slots and counts that fit their 32 bits. -/
structure InOrder (p : CollectorParams) (as : List Access) (now : ℕ) : Prop where
  mono : as.Pairwise fun b a => p.slotOf b.nowUs ≤ p.slotOf a.nowUs
  slot_lt : ∀ a ∈ as, p.slotOf a.nowUs < 2 ^ 32
  count_lt : ∀ w range e, countIn p as w range e < 2 ^ 32
  query : ∀ a ∈ as, p.slotOf a.nowUs ≤ p.slotOf now

section Shown

variable {p : CollectorParams} {as : List Access} {now : ℕ}

theorem InOrder.count_hits_lt (h : InOrder p as now) (w : Bool) (idx x : ℕ) :
    (hits p w idx as).count x < 2 ^ 32 := by
  by_cases hx : x ∈ hits p w idx as
  · obtain ⟨a, -, -, hcell⟩ := mem_hits hx
    rw [← hcell, count_hits]
    exact h.count_lt w a.range x
  · rw [List.count_eq_zero_of_not_mem hx]
    norm_num

/-- A slot of the window that was hit was hit last: a later one of its cell is out of reach. -/
theorem InOrder.getLast_hits (h : InOrder p as now) {w : Bool} {range e : ℕ}
    (hwin : p.slotOf now ≤ e + p.history)
    (hmem : e ∈ hits p w (p.cell (p.slot range) e) as) :
    (hits p w (p.cell (p.slot range) e) as).getLast?.getD 0 = e := by
  have hsorted : (hits p w (p.cell (p.slot range) e) as).Pairwise (· ≤ ·) :=
    List.pairwise_map.mpr (h.mono.filter _)
  cases hget : (hits p w (p.cell (p.slot range) e) as).getLast? with
  | none =>
    rw [List.getLast?_eq_none_iff.mp hget] at hmem
    cases hmem
  | some x =>
    obtain ⟨a, ha, hax, hidx⟩ := mem_hits (List.mem_of_getLast? hget)
    have hmod : x % p.ring = e % p.ring := ((p.cell_eq_iff _ _ _ _).mp hidx).2
    have hxq : x ≤ p.slotOf now := hax ▸ h.query a ha
    have hex : e ≤ x := by
      obtain ⟨front, hfront⟩ := List.getLast?_eq_some_iff.mp hget
      rw [hfront] at hsorted hmem
      rcases List.mem_append.mp hmem with hf | hl
      · exact (List.pairwise_append.mp hsorted).2.2 e hf x List.mem_cons_self
      · exact (List.mem_singleton.mp hl).le
    have hring : p.ring = p.history + 1 := rfl
    exact (eq_of_mod_eq_of_lt_add hmod.symm hex (by omega)).symm

/-- **When a word shows its slot.** -/
theorem InOrder.countOf_pos_iff (h : InOrder p as now) {c : Collector} (hparams : c.params = p)
    (hfresh : ∀ w idx, c.cells w idx = 0) (w : Bool) (range : ℕ) {e : ℕ}
    (hwin : p.slotOf now ≤ e + p.history) :
    0 < countOf ((c.recordAll as).cells w (p.cell (p.slot range) e)) e ↔
      0 < countIn p as w range e ∧ (e = 0 → c.KeptInSlotZero w range as) := by
  subst hparams
  have htracks := c.tracks_recordAll w (c.params.cell (c.params.slot range) e) (hfresh _ _)
    as h.mono
    h.slot_lt (h.count_hits_lt w _)
  generalize (c.recordAll as).cells w (c.params.cell (c.params.slot range) e) = v at htracks ⊢
  rw [← count_hits, List.count_pos_iff]
  by_cases hmem : e ∈ hits c.params w (c.params.cell (c.params.slot range) e) as
  · have hstamp : stampOf v = e := htracks.stamp.trans (h.getLast_hits hwin hmem)
    rw [countOf, if_pos hstamp]
    simp only [hmem, true_and]
    by_cases hzero : e = 0
    · subst hzero
      rw [htracks.zero hstamp, ← c.kept_iff]
      exact ⟨fun hk _ => hk, fun hk => hk rfl⟩
    · exact iff_of_true (htracks.first (hstamp ▸ hzero)) fun hz => absurd hz hzero
  · -- a word can be stamped with a slot it was not hit in only if it shows nothing
    refine iff_of_false ?_ fun hk => hmem hk.1
    unfold countOf
    by_cases hstamp : stampOf v = e
    · have hlow := htracks.low_le
      rw [hstamp, List.count_eq_zero_of_not_mem hmem] at hlow
      rw [if_pos hstamp]
      omega
    · rw [if_neg hstamp]
      exact lt_irrefl 0

end Shown

/-- **What a sampled slot shows.** From a fresh collector with any state of the generator, after
    accesses in slot order, a later query reports for a slot of its window either zero or at least
    one; the latter iff the row was accessed in the slot and, if it is slot zero, the draw of one
    of these accesses kept it. -/
theorem sampled_label {p : CollectorParams} (hpos : 0 < p.sampleRate) (hlt : p.sampleRate < 1)
    (g : UInt64) {as : List Access} {now : ℕ} (h : InOrder p as now) (w : Bool) (range : ℕ) {e : ℕ}
    (hpast : e < p.slotOf now) (hwin : p.slotOf now ≤ e + p.history) :
    let c : Collector := { Collector.fresh p with rng := g }
    ∃ x, ((c.recordAll as).rates w range now)[e + p.history - p.slotOf now]? = some x ∧
      (x = 0 ∨ 1 ≤ x) ∧
      (1 ≤ x ↔ 0 < countIn p as w range e ∧ (e = 0 → c.KeptInSlotZero w range as)) := by
  intro c
  have hshown := h.countOf_pos_iff (c := c) rfl (fun _ _ => rfl) w range hwin
  generalize hv : (c.recordAll as).cells w (p.cell (p.slot range) e) = v at hshown
  refine ⟨p.estimate (countOf v e), ?_, ?_, ?_⟩
  · have hi : e + p.history - p.slotOf now < p.history := by omega
    have hwindow : p.windowSlot (p.slotOf now) (e + p.history - p.slotOf now) = e := by
      unfold CollectorParams.windowSlot
      rw [sub64_of_le (by omega)]
      omega
    have hparams : (c.recordAll as).params = p := Collector.recordAll_params c as
    unfold Collector.rates
    rw [hparams, List.getElem?_map, List.getElem?_range hi, Option.map_some, hwindow]
    show some (p.estimate (countOf ((c.recordAll as).cells w (p.cell (p.slot range) e)) e)) = _
    rw [hv]
  · rcases estimate_spec hpos hlt (countOf v e) with ⟨-, hzero⟩ | ⟨-, hone⟩
    · exact .inl hzero
    · exact .inr hone
  · rw [← hshown]
    rcases estimate_spec hpos hlt (countOf v e) with ⟨hc, hzero⟩ | ⟨hc, hone⟩
    · rw [hzero, hc]
      exact iff_of_false (by norm_num) (lt_irrefl 0)
    · exact iff_of_true hone hc

/-- One slot of history, a second long, and one access in a hundred after the first. -/
def sampledParams : CollectorParams := Collector.newParams 64 1 1 (1 / 100) one_lt_historyLimit

/-- Two slots of history, and every second access after the first. -/
def halfSampled : CollectorParams := Collector.newParams 64 2 1 (1 / 2) (by norm_num)

/-- Reads of range 3 in the slots 0 and 1, each of which draws but the first of slot 1. -/
def drawnReads : List Access :=
  [⟨3, false, 500000⟩, ⟨3, false, 600000⟩, ⟨3, false, 1500000⟩, ⟨3, false, 1600000⟩,
   ⟨3, false, 1700000⟩]

/-- Both slots show; slot 0 by a draw that keeps. -/
theorem sampled_label_drawnReads :
    let c : Collector := { Collector.fresh halfSampled with rng := 7 }
    (∃ x, ((c.recordAll drawnReads).rates false 3 2000000)[0]? = some x ∧ 1 ≤ x) ∧
      ∃ x, ((c.recordAll drawnReads).rates false 3 2000000)[1]? = some x ∧ 1 ≤ x := by
  intro c
  have horder : InOrder halfSampled drawnReads 2000000 :=
    ⟨by decide +kernel, by decide +kernel,
      fun w range e => (countIn_le_length _ _ _ _ _).trans_lt (by decide), by decide +kernel⟩
  have hlabel := @sampled_label halfSampled (by decide +kernel) (by decide +kernel) 7 _ _ horder
    false 3
  constructor
  · obtain ⟨x, hx, -, hiff⟩ := @hlabel 0 (by decide +kernel) (by decide +kernel)
    have hfirst : 0 + halfSampled.history - halfSampled.slotOf 2000000 = 0 := by decide +kernel
    rw [hfirst] at hx
    refine ⟨x, hx, hiff.mpr ⟨by decide +kernel, fun _ => ?_⟩⟩
    exact ⟨[], _, _, rfl, by decide +kernel⟩
  · obtain ⟨x, hx, -, hiff⟩ := @hlabel 1 (by decide +kernel) (by decide +kernel)
    have hsecond : 1 + halfSampled.history - halfSampled.slotOf 2000000 = 1 := by decide +kernel
    rw [hsecond] at hx
    exact ⟨x, hx, hiff.mpr ⟨by decide +kernel, fun hz => absurd hz (by decide)⟩⟩

/-- One read in slot 0, with the constructor's generator: its draw drops it, and slot 0 shows
    nothing although the range was read in it. -/
theorem sampled_label_lost :
    countIn sampledParams [⟨3, false, 500000⟩] false 3 0 = 1 ∧
      ((Collector.fresh sampledParams).recordAll [⟨3, false, 500000⟩]).history 3 1000000 =
        ([0], [0]) := by
  decide +kernel

end Leaper
