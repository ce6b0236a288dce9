import Leaper.Core.Types
import Leaper.Lib.EpochCell
import Leaper.Lib.Rounding

namespace Leaper

open Lib

/-!
# Statistics collection (`leaper/src/collector.{h,cc}`)

Per key range a ring of `history + 1` words, each packing `slot_epoch << 32 | count`.  A
word rolls over lazily when it is first touched in a new slot.

* `Collector.record` — `Collector::Record`, with each call indivisible;
* `Collector.history` — `Collector::History`, oldest slot first;
* `rates_record_of_slotOf_eq` — an access in the query's own slot never shows: the ring
  is one longer than the history.
-/

/-! ### Words -/

/-- `v >> 32`: the slot a word was last touched in. -/
def stampOf (v : UInt64) : ℕ := (v >>> 32).toNat

/-- `v & 0xffffffff`: how often it was touched in that slot. -/
def lowOf (v : UInt64) : ℕ := (v &&& 0xffffffff).toNat

/-- `(epoch << 32) | 1`: the word after the first access of a slot. -/
def firstWord (epoch : ℕ) : UInt64 := (UInt64.ofNat epoch <<< 32) ||| 1

/-- `Collector::CountOf`. -/
def countOf (v : UInt64) (epoch : ℕ) : ℕ := if stampOf v = epoch then lowOf v else 0

/-- The stamp is the upper half of the word. -/
theorem stampOf_eq_div (v : UInt64) : stampOf v = v.toNat / 2 ^ 32 := by
  simp [stampOf, UInt64.toNat_shiftRight, Nat.shiftRight_eq_div_pow]

/-- The counter is the lower half of the word. -/
theorem lowOf_eq_mod (v : UInt64) : lowOf v = v.toNat % 2 ^ 32 := by
  have hmask : (0xffffffff : UInt64).toNat = 2 ^ 32 - 1 := by decide
  rw [lowOf, UInt64.toNat_and, hmask, Nat.and_two_pow_sub_one_eq_mod]

/-- A stamp has 32 bits, however large the slot number is. -/
theorem stampOf_lt (v : UInt64) : stampOf v < 2 ^ 32 := by
  have := v.toNat_lt
  rw [stampOf_eq_div]
  omega

/-- The word a slot's first access writes, as a number: the slot's low 32 bits, and count one. -/
theorem toNat_firstWord (epoch : ℕ) : (firstWord epoch).toNat = epoch % 2 ^ 32 * 2 ^ 32 + 1 := by
  have h1 : (1 : UInt64).toNat = 1 := by decide
  have h32 : (32 : UInt64).toNat % 64 = 32 := by decide
  rw [firstWord, UInt64.toNat_or, UInt64.toNat_shiftLeft, h1, h32, UInt64.toNat_ofNat',
    Nat.shiftLeft_eq]
  have hwrap : epoch % 2 ^ 64 * 2 ^ 32 % 2 ^ 64 = epoch % 2 ^ 32 * 2 ^ 32 := by omega
  rw [hwrap, ← Nat.shiftLeft_eq, Nat.shiftLeft_add_eq_or_of_lt (by norm_num)]

/-- The first word's stamp is the slot, cut to 32 bits. -/
@[simp] theorem stampOf_firstWord (epoch : ℕ) : stampOf (firstWord epoch) = epoch % 2 ^ 32 := by
  rw [stampOf_eq_div, toNat_firstWord]
  omega

/-- The first word's counter is one. -/
@[simp] theorem lowOf_firstWord (epoch : ℕ) : lowOf (firstWord epoch) = 1 := by
  rw [lowOf_eq_mod, toNat_firstWord]
  omega

/-- Counting up does not reach the stamp while the count stays below `2^32`. -/
theorem word_add_one {v : UInt64} (h : lowOf v + 1 < 2 ^ 32) :
    stampOf (v + 1) = stampOf v ∧ lowOf (v + 1) = lowOf v + 1 := by
  have h1 : (1 : UInt64).toNat = 1 := by decide
  have hlt := v.toNat_lt
  rw [lowOf_eq_mod] at h
  have hadd : (v + 1).toNat = v.toNat + 1 := by
    rw [UInt64.toNat_add, h1]
    omega
  rw [stampOf_eq_div, stampOf_eq_div, lowOf_eq_mod, lowOf_eq_mod, hadd]
  omega

/-- No word is stamped with a slot beyond the stamp's width. -/
theorem countOf_eq_zero_of_le {v : UInt64} {epoch : ℕ} (h : 2 ^ 32 ≤ epoch) :
    countOf v epoch = 0 := by
  have := stampOf_lt v
  exact if_neg (by omega)

/-! ### The table -/

/-- The constant members of a collector. -/
structure CollectorParams where
  history : ℕ
  slotUs : ℕ
  sampleRate : ℚ
  mask : ℕ
  history_pos : 0 < history
  history_lt : history < 2 ^ 31
  mask_pow : ∃ k, mask + 1 = 2 ^ k

namespace CollectorParams

variable (p : CollectorParams)

/-- `ring_`: one slot more than the history. -/
def ring : ℕ := p.history + 1

/-- `SlotOf`: the slot a time lies in. -/
def slotOf (nowUs : ℕ) : ℕ := nowUs / p.slotUs

/-- `Slot`: the table row of a range. -/
def slot (range : ℕ) : ℕ := range &&& p.mask

/-- `Cell`: the word of a row that a slot uses. -/
def cell (slotIndex epoch : ℕ) : ℕ := slotIndex * p.ring + epoch % p.ring

/-- The slot position `i` of the history refers to, `epoch - (history - i)` in 64 bits. -/
def windowSlot (epoch i : ℕ) : ℕ := sub64 epoch (p.history - i)

/-- `Estimate`: a count scaled back for sampling, as a `float`. -/
def estimate (s : ℕ) : ℚ :=
  if s = 0 then 0
  else if 1 ≤ p.sampleRate then binary32 s
  else binary32 ((s - 1) / p.sampleRate + 1)

/-- `range & mask` is the remainder, as `mask + 1` is a power of two. -/
theorem slot_eq_mod (range : ℕ) : p.slot range = range % (p.mask + 1) := by
  obtain ⟨k, hk⟩ := p.mask_pow
  have hmask : p.mask = 2 ^ k - 1 := by omega
  rw [slot, hk, hmask, Nat.and_two_pow_sub_one_eq_mod]

/-- Two accesses share a word exactly if they share the row and their slots agree modulo the
    ring. -/
theorem cell_eq_iff (i j e f : ℕ) : p.cell i e = p.cell j f ↔ i = j ∧ e % p.ring = f % p.ring :=
  have hpos : 0 < p.ring := Nat.succ_pos _
  row_add_eq_iff (Nat.mod_lt _ hpos) (Nat.mod_lt _ hpos)

/-- A window slot is either a real earlier slot, or (before time zero) beyond the width
    of any stamp. -/
theorem windowSlot_cases (epoch : ℕ) {i : ℕ} (hi : i < p.history) :
    (p.windowSlot epoch i + (p.history - i) = epoch) ∨
      (epoch < p.history - i ∧ 2 ^ 32 ≤ p.windowSlot epoch i) := by
  unfold windowSlot
  by_cases hle : p.history - i ≤ epoch
  · left
    rw [sub64_of_le hle]
    omega
  · right
    have hlt := p.history_lt
    rw [sub64_of_lt (not_le.mp hle)]
    omega

/-- The current slot and the slots of the window never share a cell. -/
theorem windowSlot_mod_ne {epoch i : ℕ} (hi : i < p.history)
    (h : p.windowSlot epoch i + (p.history - i) = epoch) :
    p.windowSlot epoch i % p.ring ≠ epoch % p.ring := by
  intro hmod
  have := eq_of_mod_eq_of_lt_add hmod (by omega) (by unfold ring; omega)
  omega

end CollectorParams

/-- `Collector`: `cells false` is `reads_`, `cells true` is `writes_`. -/
structure Collector where
  params : CollectorParams
  cells : Bool → ℕ → UInt64
  readsSeen : ℕ := 0
  writesSeen : ℕ := 0
  sampled : ℕ := 0
  rng : UInt64 := 0x243F6A8885A308D3

namespace Collector

/-- `RoundUpPow2`'s loop, `while (p < n) p <<= 1`. -/
def roundUpPow2Loop : ℕ → ℕ → ℕ → ℕ
  | 0, p, _ => p
  | fuel + 1, p, n => if p < n then roundUpPow2Loop fuel (2 * p) n else p

/-- The least power of two at or above `n`. -/
def roundUpPow2 (n : ℕ) : ℕ := roundUpPow2Loop n 1 n

/-- The loop doubles until it has reached `n`; fuel `n` is enough from any start. -/
theorem roundUpPow2Loop_spec (fuel n : ℕ) : ∀ k, n ≤ 2 ^ k + fuel →
    ∃ j, roundUpPow2Loop fuel (2 ^ k) n = 2 ^ j ∧ n ≤ 2 ^ j := by
  induction fuel with
  | zero => exact fun k h => ⟨k, rfl, by simpa using h⟩
  | succ fuel ih =>
    intro k h
    simp only [roundUpPow2Loop]
    by_cases hlt : 2 ^ k < n
    · rw [if_pos hlt, ← pow_succ']
      have hpos : 0 < 2 ^ k := Nat.two_pow_pos k
      exact ih (k + 1) (by rw [pow_succ]; omega)
    · rw [if_neg hlt]
      exact ⟨k, rfl, not_lt.mp hlt⟩

/-- `RoundUpPow2` returns a power of two that is no smaller than its argument. -/
theorem roundUpPow2_spec (n : ℕ) : ∃ j, roundUpPow2 n = 2 ^ j ∧ n ≤ 2 ^ j :=
  roundUpPow2Loop_spec n n 0 (by omega)

/-- The constant members as the constructor computes them; the product of two `double`s is
    rounded before it is cut to whole microseconds. -/
def newParams (maxRanges historySlots : ℕ) (slotSeconds sampleRate : ℚ)
    (hhist : historySlots < 2 ^ 31) : CollectorParams where
  history := if 0 < historySlots then historySlots else 1
  slotUs := ⌊binary64 (slotSeconds * 1000000)⌋₊
  sampleRate := sampleRate
  mask := roundUpPow2 (if 0 < maxRanges then maxRanges else 1024) - 1
  history_pos := by split_ifs <;> omega
  history_lt := by split_ifs <;> omega
  mask_pow := by
    obtain ⟨j, hj, -⟩ := roundUpPow2_spec (if 0 < maxRanges then maxRanges else 1024)
    have hpos : 0 < 2 ^ j := Nat.two_pow_pos j
    exact ⟨j, by omega⟩

/-- A collector with every word zero. -/
def fresh (p : CollectorParams) : Collector := { params := p, cells := fun _ _ => 0 }

/-- The xorshift step of the sampler. -/
def xorshift (x : UInt64) : UInt64 :=
  let x := x ^^^ (x <<< 13)
  let x := x ^^^ (x >>> 7)
  x ^^^ (x <<< 17)

/-- Store a word. -/
def setCell (c : Collector) (isWrite : Bool) (idx : ℕ) (v : UInt64) : Collector :=
  { c with cells := Function.update c.cells isWrite (Function.update (c.cells isWrite) idx v) }

/-- The counters of all accesses, sampled or not. -/
def see (c : Collector) (isWrite : Bool) : Collector :=
  if isWrite then { c with writesSeen := c.writesSeen + 1 }
  else { c with readsSeen := c.readsSeen + 1 }

/-- `Collector::Record`.  The compare-exchange of an indivisible call always succeeds. -/
def record (c : Collector) (range : ℕ) (isWrite : Bool) (nowUs : ℕ) : Collector :=
  let c := c.see isWrite
  let epoch := c.params.slotOf nowUs
  let idx := c.params.cell (c.params.slot range) epoch
  let v := c.cells isWrite idx
  if stampOf v ≠ epoch then
    -- First access of this range in this slot: always recorded.
    { c.setCell isWrite idx (firstWord epoch) with sampled := c.sampled + 1 }
  else if c.params.sampleRate < 1 then
    let x := xorshift c.rng
    if c.params.sampleRate ≤ ((x >>> 11).toNat : ℚ) * (1 / 9007199254740992) then
      { c with rng := x }
    else { c.setCell isWrite idx (v + 1) with sampled := c.sampled + 1, rng := x }
  else { c.setCell isWrite idx (v + 1) with sampled := c.sampled + 1 }

/-- One half of `Collector::History`: the estimates for one kind of access. -/
def rates (c : Collector) (isWrite : Bool) (range nowUs : ℕ) : List ℚ :=
  (List.range c.params.history).map fun i =>
    let e := c.params.windowSlot (c.params.slotOf nowUs) i
    c.params.estimate (countOf (c.cells isWrite (c.params.cell (c.params.slot range) e)) e)

/-- `Collector::History`: read rates and write rates of the slots before the current one,
    oldest first. -/
def history (c : Collector) (range nowUs : ℕ) : List ℚ × List ℚ :=
  (c.rates false range nowUs, c.rates true range nowUs)

/-! ### What a `Record` changes -/

@[simp] theorem setCell_params (c : Collector) (w : Bool) (idx : ℕ) (v : UInt64) :
    (c.setCell w idx v).params = c.params := rfl

/-- A store changes one word of one table. -/
theorem setCell_cells (c : Collector) (w w' : Bool) (idx idx' : ℕ) (v : UInt64) :
    (c.setCell w idx v).cells w' idx' =
      if w' = w ∧ idx' = idx then v else c.cells w' idx' := by
  unfold setCell
  by_cases hw : w' = w
  · subst hw
    by_cases hi : idx' = idx
    · subst hi; simp
    · simp [hi]
  · simp [hw]

@[simp] theorem see_params (c : Collector) (w : Bool) : (c.see w).params = c.params := by
  cases w <;> rfl

@[simp] theorem see_cells (c : Collector) (w : Bool) : (c.see w).cells = c.cells := by
  cases w <;> rfl

@[simp] theorem see_rng (c : Collector) (w : Bool) : (c.see w).rng = c.rng := by
  cases w <;> rfl

@[simp] theorem see_sampled (c : Collector) (w : Bool) : (c.see w).sampled = c.sampled := by
  cases w <;> rfl

/-- `Record` leaves the parameters alone. -/
@[simp] theorem record_params (c : Collector) (range : ℕ) (w : Bool) (now : ℕ) :
    (c.record range w now).params = c.params := by
  unfold record
  simp only [see_params]
  split_ifs <;> simp

/-- The sampler drops an access that is not the first of its slot. -/
def drops (c : Collector) : Prop :=
  c.params.sampleRate < 1 ∧
    c.params.sampleRate ≤ ((xorshift c.rng >>> 11).toNat : ℚ) * (1 / 9007199254740992)

instance (c : Collector) : Decidable c.drops := inferInstanceAs (Decidable (_ ∧ _))

/-- The word a `Record` leaves in the cell it hits: a fresh one for a new slot; otherwise
    the old one, counted up unless the sampler drops the access. -/
def recordWord (c : Collector) (epoch : ℕ) (v : UInt64) : UInt64 :=
  if stampOf v ≠ epoch then firstWord epoch else if c.drops then v else v + 1

/-- Writing back what was read changes nothing. -/
@[simp] theorem setCell_self (c : Collector) (w : Bool) (idx : ℕ) :
    c.setCell w idx (c.cells w idx) = c := by
  simp [setCell]

/-- A `Record` is one store of `recordWord`, also where the sampler drops the access. -/
theorem record_cells_eq (c : Collector) (range : ℕ) (w : Bool) (now : ℕ) :
    (c.record range w now).cells =
      (c.setCell w (c.params.cell (c.params.slot range) (c.params.slotOf now))
        (c.recordWord (c.params.slotOf now)
          (c.cells w (c.params.cell (c.params.slot range) (c.params.slotOf now))))).cells := by
  unfold record recordWord
  simp only [see_params, see_cells, see_rng]
  by_cases hst : stampOf (c.cells w (c.params.cell (c.params.slot range) (c.params.slotOf now)))
      ≠ c.params.slotOf now
  · rw [if_pos hst, if_pos hst]
    simp only [setCell, see_cells]
  · rw [if_neg hst, if_neg hst]
    by_cases hdrop : c.drops
    · rw [if_pos hdrop, if_pos hdrop.1, if_pos hdrop.2, setCell_self]
    · rw [if_neg hdrop]
      split_ifs with hrate hx
      · exact absurd ⟨hrate, hx⟩ hdrop
      all_goals simp only [setCell, see_cells]

/-- **What `Record` does to the table**: the one cell of the access gets `recordWord`, every
    other word stays. -/
theorem record_cells (c : Collector) (range : ℕ) (w : Bool) (now : ℕ) (w' : Bool) (idx' : ℕ) :
    (c.record range w now).cells w' idx' =
      if w' = w ∧ idx' = c.params.cell (c.params.slot range) (c.params.slotOf now) then
        c.recordWord (c.params.slotOf now) (c.cells w' idx')
      else c.cells w' idx' := by
  rw [record_cells_eq, setCell_cells]
  by_cases hhit : w' = w ∧ idx' = c.params.cell (c.params.slot range) (c.params.slotOf now)
  · rw [if_pos hhit, if_pos hhit, hhit.1, hhit.2]
  · rw [if_neg hhit, if_neg hhit]

/-- `Record` writes to no word but the one of its row and slot. -/
theorem record_cells_of_ne {c : Collector} {range : ℕ} {w : Bool} {now : ℕ} {w' : Bool} {idx' : ℕ}
    (h : idx' ≠ c.params.cell (c.params.slot range) (c.params.slotOf now)) :
    (c.record range w now).cells w' idx' = c.cells w' idx' := by
  rw [record_cells, if_neg (fun hh => h hh.2)]

/-- **The current slot is invisible.** A `Record` in the slot of the query time changes no
    history: its cell is the one ring position the window leaves out, and positions before
    time zero read nothing. -/
theorem rates_record_of_slotOf_eq {c : Collector} {range : ℕ} {w : Bool} {now query : ℕ}
    (h : c.params.slotOf now = c.params.slotOf query) (w' : Bool) (range' : ℕ) :
    (c.record range w now).rates w' range' query = c.rates w' range' query := by
  unfold rates
  simp only [record_params]
  refine List.map_congr_left fun i hi => ?_
  rw [List.mem_range] at hi
  rcases c.params.windowSlot_cases (c.params.slotOf query) hi with hreal | ⟨_, hbig⟩
  · rw [record_cells_of_ne]
    intro hcell
    rw [CollectorParams.cell_eq_iff, h] at hcell
    exact c.params.windowSlot_mod_ne hi hreal hcell.2
  · rw [countOf_eq_zero_of_le hbig, countOf_eq_zero_of_le hbig]

/-- A history depends on the query time only through its slot. -/
theorem rates_congr_slotOf (c : Collector) (w : Bool) (range : ℕ) {now now' : ℕ}
    (h : c.params.slotOf now = c.params.slotOf now') :
    c.rates w range now = c.rates w range now' := by
  unfold rates
  rw [h]

end Collector

end Leaper
