import Leaper.Core.CollectorWindow
import Leaper.Lib.Threads

namespace Leaper

open Lib

/-!
# `Collector::Record` under concurrency

Client threads record without a lock.  Each call is a sequence of indivisible operations on the
shared words and counters: `Pc` is where a call stands, `callStep` performs its next operation,
and a schedule interleaves the operations of any number of calls.

* `solo_eq_record` — a call that is not interrupted is `Collector.record`;
* `Untouched.turn`, `InSlot.turn` — what one operation keeps: before the first call of the slot
  has claimed the word every call has seen the old word, and afterwards the word carries the
  slot's stamp and counts the calls that have reached it;
* `race_counts` — no access is lost within a slot, whatever the interleaving.
-/

/-- Where a call of `Record` stands, by the operation it does next. -/
inductive Pc
  /-- count the access in `reads_seen_` or `writes_seen_` -/
  | enter
  /-- load the word -/
  | load
  /-- the word `v` was of another slot: compare and exchange it -/
  | swap (v : UInt64)
  /-- it was exchanged: count the sample and return -/
  | won
  /-- another call was faster: load again -/
  | reload
  /-- sampling: load the generator -/
  | draw
  /-- sampling: store the generator, and return unless the draw keeps the access -/
  | keep (x : UInt64)
  /-- count the sample -/
  | count
  /-- add one to the word -/
  | add
  /-- returned, the access is in the word -/
  | done
  /-- returned without counting the access -/
  | dropped
  deriving DecidableEq, Repr

namespace Pc

/-- The access is in the word. -/
def counted : Pc → ℕ
  | .won | .done => 1
  | _ => 0

/-- The access is in `sampled_`. -/
def tallied : Pc → ℕ
  | .add | .done => 1
  | _ => 0

/-- The most operations a call can still make. -/
def rank : Pc → ℕ
  | .enter => 8
  | .load => 7
  | .swap _ => 6
  | .reload => 5
  | .draw => 4
  | .keep _ => 3
  | .count => 2
  | .add | .won => 1
  | .done | .dropped => 0

/-- The call has returned. -/
def returned (p : Pc) : Bool := p = .done || p = .dropped

theorem returned_iff (p : Pc) : p.returned = true ↔ p.rank = 0 := by
  cases p <;> simp [returned, rank]

end Pc

/-- Where a call goes on once the word carries its slot. -/
def Collector.sampling (c : Collector) : Pc := if c.params.sampleRate < 1 then .draw else .count

/-- The word an access uses. -/
def Access.idx (a : Access) (p : CollectorParams) : ℕ := p.cell (p.slot a.range) (p.slotOf a.nowUs)

/-- The next operation of the call `Record(a.range, a.isWrite, a.nowUs)`. -/
def callStep (a : Access) (c : Collector) : Pc → Collector × Pc
  | .enter => (c.see a.isWrite, .load)
  | .load =>
    let v := c.cells a.isWrite (a.idx c.params)
    (c, if stampOf v ≠ c.params.slotOf a.nowUs then .swap v else c.sampling)
  | .swap v =>
    if c.cells a.isWrite (a.idx c.params) = v then
      (c.setCell a.isWrite (a.idx c.params) (firstWord (c.params.slotOf a.nowUs)), .won)
    else (c, .reload)
  | .won => ({ c with sampled := c.sampled + 1 }, .done)
  | .reload =>
    let v := c.cells a.isWrite (a.idx c.params)
    (c, if stampOf v ≠ c.params.slotOf a.nowUs then .dropped else c.sampling)
  | .draw => (c, .keep (Collector.xorshift c.rng))
  | .keep x =>
    ({ c with rng := x },
      if c.params.sampleRate ≤ ((x >>> 11).toNat : ℚ) * (1 / 9007199254740992) then .dropped
      else .count)
  | .count => ({ c with sampled := c.sampled + 1 }, .add)
  | .add =>
    (c.setCell a.isWrite (a.idx c.params) (c.cells a.isWrite (a.idx c.params) + 1), .done)
  | .done => (c, .done)
  | .dropped => (c, .dropped)

/-- A call comes closer to its return with every operation. -/
theorem rank_callStep (a : Access) (c : Collector) (p : Pc) :
    (callStep a c p).2.rank ≤ p.rank - 1 := by
  cases p with
  | load | swap v | reload | keep x =>
    simp only [callStep, Collector.sampling]
    split_ifs <;> simp [Pc.rank]
  | _ => simp [callStep, Pc.rank]

/-! ### A call that is not interrupted -/

/-- A call alone, operation after operation. -/
def solo (a : Access) : ℕ → Collector → Pc → Collector × Pc
  | 0, c, p => (c, p)
  | n + 1, c, p => solo a n (callStep a c p).1 (callStep a c p).2

theorem solo_of_returned {a : Access} {p : Pc} (hp : p.returned = true) (n : ℕ) (c : Collector) :
    solo a n c p = (c, p) := by
  induction n with
  | zero => rfl
  | succ n ih =>
    have hstep : callStep a c p = (c, p) := by
      cases p with
      | done | dropped => rfl
      | _ => exact absurd hp (by simp [Pc.returned])
    rw [solo, hstep, ih]

/-- What is left of a call once it is known to count. -/
theorem solo_count (a : Access) (n : ℕ) (c : Collector) :
    solo a (n + 2) c .count =
      ({ c.setCell a.isWrite (a.idx c.params) (c.cells a.isWrite (a.idx c.params) + 1) with
          sampled := c.sampled + 1 }, .done) := by
  show solo a n _ .done = _
  rw [solo_of_returned rfl]
  rfl

/-- **The model of an indivisible call.** Uninterrupted, the operations of a call are
    `Collector.record`, and it has returned. -/
theorem solo_eq_record (a : Access) (c : Collector) :
    (solo a 8 c .enter).1 = c.record a.range a.isWrite a.nowUs ∧
      (solo a 8 c .enter).2.returned = true := by
  unfold Collector.record
  dsimp only
  show (solo a 7 (c.see a.isWrite) .load).1 = _ ∧
    (solo a 7 (c.see a.isWrite) .load).2.returned = true
  -- from here on nothing depends on what was counted as seen
  generalize c.see a.isWrite = c
  have hidx : c.params.cell (c.params.slot a.range) (c.params.slotOf a.nowUs) =
    a.idx c.params := rfl
  have hload : solo a 7 c .load = solo a 6 c
      (if stampOf (c.cells a.isWrite (a.idx c.params)) ≠ c.params.slotOf a.nowUs then
        .swap (c.cells a.isWrite (a.idx c.params)) else c.sampling) := rfl
  rw [hload, hidx]
  by_cases hst : stampOf (c.cells a.isWrite (a.idx c.params)) ≠ c.params.slotOf a.nowUs
  · rw [if_pos hst, if_pos hst]
    -- nobody else has touched the word, so the exchange succeeds
    have hswap : callStep a c (.swap (c.cells a.isWrite (a.idx c.params))) =
        (c.setCell a.isWrite (a.idx c.params) (firstWord (c.params.slotOf a.nowUs)), .won) :=
      if_pos rfl
    rw [solo, hswap]
    show (solo a 4 _ .done).1 = _ ∧ (solo a 4 _ .done).2.returned = true
    rw [solo_of_returned rfl]
    exact ⟨rfl, rfl⟩
  · rw [if_neg hst, if_neg hst]
    unfold Collector.sampling
    by_cases hrate : c.params.sampleRate < 1
    · rw [if_pos hrate, if_pos hrate]
      have hdraw : solo a 6 c .draw = solo a 4 { c with rng := Collector.xorshift c.rng }
          (if c.params.sampleRate ≤
              ((Collector.xorshift c.rng >>> 11).toNat : ℚ) * (1 / 9007199254740992) then .dropped
            else .count) := rfl
      rw [hdraw]
      split_ifs with hdrop
      · rw [solo_of_returned rfl]
        exact ⟨rfl, rfl⟩
      · rw [solo_count]
        exact ⟨rfl, rfl⟩
    · rw [if_neg hrate, if_neg hrate, solo_count]
      exact ⟨rfl, rfl⟩

/-! ### Calls of one slot on one word -/

/-- The calls all use word `idx` of kind `w`, in slot `e`. -/
structure SameCell {ι : Type*} (p : CollectorParams) (calls : ι → Access) (w : Bool) (idx e : ℕ) :
    Prop where
  kind : ∀ t, (calls t).isWrite = w
  cell : ∀ t, (calls t).idx p = idx
  slot : ∀ t, p.slotOf (calls t).nowUs = e

variable {ι : Type*} [DecidableEq ι] [Fintype ι] {c₀ : Collector} {calls : ι → Access} {w : Bool}
  {idx e : ℕ}

/-- The interleaved calls. -/
abbrev raceStep (calls : ι → Access) : ι → Collector → Pc → Collector × Pc :=
  fun t => callStep (calls t)

/-- The calls before their first operation. -/
def atStart (ι : Type*) (c : Collector) : Config ι Collector Pc := ⟨c, fun _ => .enter⟩

/-- **Before the word is claimed**: it is the old one, and so is every word a call has loaded. -/
structure Untouched (c₀ : Collector) (w : Bool) (idx e : ℕ) (s : Config ι Collector Pc) : Prop where
  params : s.shared.params = c₀.params
  word : s.shared.cells w idx = c₀.cells w idx
  old : stampOf (c₀.cells w idx) ≠ e
  early : ∀ t, s.pos t = .enter ∨ s.pos t = .load ∨ s.pos t = .swap (c₀.cells w idx)
  sampled : s.shared.sampled = c₀.sampled

/-- A call in a slot whose word is claimed: it is not sampled, has not been dropped, and a word
    it is about to exchange is not the slot's. -/
def Pc.Fits (e : ℕ) : Pc → Prop
  | .swap v => stampOf v ≠ e
  | .draw | .keep _ | .dropped => False
  | _ => True

/-- **Once the word is claimed** it carries the slot and counts the calls that have reached it. -/
structure InSlot (c₀ : Collector) (w : Bool) (idx e : ℕ) (s : Config ι Collector Pc) : Prop where
  params : s.shared.params = c₀.params
  stamp : stampOf (s.shared.cells w idx) = e
  low : lowOf (s.shared.cells w idx) = countOf (c₀.cells w idx) e + ∑ t, (s.pos t).counted
  fits : ∀ t, (s.pos t).Fits e
  sampled : s.shared.sampled = c₀.sampled + ∑ t, (s.pos t).tallied

/-- A move of one call that accounts for what it did. -/
theorem InSlot.move {s : Config ι Collector Pc} (h : InSlot c₀ w idx e s) (t : ι) {c : Collector}
    {p : Pc} (hparams : c.params = s.shared.params) (hstamp : stampOf (c.cells w idx) = e)
    (hlow : lowOf (c.cells w idx) + (s.pos t).counted = lowOf (s.shared.cells w idx) + p.counted)
    (hfits : p.Fits e) (hsampled : c.sampled + (s.pos t).tallied = s.shared.sampled + p.tallied) :
    InSlot c₀ w idx e ⟨c, Function.update s.pos t p⟩ := by
  have hcounted := sum_update Pc.counted s.pos t p
  have htallied := sum_update Pc.tallied s.pos t p
  refine ⟨hparams.trans h.params, hstamp, ?_,
    (Function.forall_update_iff s.pos fun _ q => q.Fits e).mpr ⟨hfits, fun u _ => h.fits u⟩, ?_⟩
  · have := h.low
    show lowOf (c.cells w idx) = _ + ∑ u, (Function.update s.pos t p u).counted
    omega
  · have := h.sampled
    show c.sampled = _ + ∑ u, (Function.update s.pos t p u).tallied
    omega

omit [DecidableEq ι] in
/-- Not all calls are counted while one is not. -/
theorem sum_counted_lt {pos : ι → Pc} {t : ι} (ht : (pos t).counted = 0) :
    ∑ u, (pos u).counted < Fintype.card ι := by
  have hle : ∀ u, (pos u).counted ≤ 1 := by
    intro u
    cases pos u <;> simp [Pc.counted]
  have hlt := Finset.sum_lt_sum (f := fun u => (pos u).counted) (g := fun _ => 1)
    (fun u _ => hle u) ⟨t, Finset.mem_univ t, by rw [ht]; exact Nat.one_pos⟩
  simpa using hlt

omit [Fintype ι] in
/-- A move that leaves the words alone and the call before its exchange. -/
theorem Untouched.stay {s : Config ι Collector Pc} (h : Untouched c₀ w idx e s) (t : ι)
    {c : Collector} {p : Pc} (hparams : c.params = s.shared.params)
    (hcells : c.cells = s.shared.cells) (hsampled : c.sampled = s.shared.sampled)
    (hp : p = .enter ∨ p = .load ∨ p = .swap (c₀.cells w idx)) :
    Untouched c₀ w idx e ⟨c, Function.update s.pos t p⟩ := by
  refine ⟨hparams.trans h.params, ?_, h.old, ?_, hsampled.trans h.sampled⟩
  · rw [hcells]
    exact h.word
  · exact (Function.forall_update_iff s.pos fun _ q => q = .enter ∨ q = .load ∨ q = .swap _).mpr
      ⟨hp, fun u _ => h.early u⟩

/-- The exchange that claims the word: it now holds this call and no other. -/
theorem Untouched.claim (he : e < 2 ^ 32) {s : Config ι Collector Pc} (h : Untouched c₀ w idx e s)
    (t : ι) :
    InSlot c₀ w idx e ⟨s.shared.setCell w idx (firstWord e), Function.update s.pos t .won⟩ := by
  have hnone : ∀ u, (s.pos u).counted = 0 ∧ (s.pos u).tallied = 0 := by
    intro u
    rcases h.early u with hu | hu | hu <;> rw [hu] <;> exact ⟨rfl, rfl⟩
  have hword : (s.shared.setCell w idx (firstWord e)).cells w idx = firstWord e := by
    rw [Collector.setCell_cells, if_pos ⟨rfl, rfl⟩]
  have hbase : countOf (c₀.cells w idx) e = 0 := if_neg h.old
  have hcounted := sum_update Pc.counted s.pos t .won
  have htallied := sum_update Pc.tallied s.pos t .won
  rw [Finset.sum_eq_zero fun u _ => (hnone u).1, (hnone t).1] at hcounted
  rw [Finset.sum_eq_zero fun u _ => (hnone u).2, (hnone t).2] at htallied
  refine ⟨h.params, ?_, ?_,
    (Function.forall_update_iff s.pos fun _ q => q.Fits e).mpr ⟨trivial, fun u _ => ?_⟩, ?_⟩
  · rw [hword, stampOf_firstWord, Nat.mod_eq_of_lt he]
  · rw [hword, lowOf_firstWord, hbase]
    exact hcounted.symm.trans (Nat.zero_add _).symm
  · -- the other calls that saw the old word will find it gone
    rcases h.early u with hu | hu | hu <;> rw [hu]
    · trivial
    · trivial
    · exact h.old
  · show s.shared.sampled = _ + ∑ u, (Function.update s.pos t .won u).tallied
    have := h.sampled
    have hzero : Pc.won.tallied = 0 := rfl
    omega

/-- One operation before the word is claimed: it stays so, or this is the operation that
    claims it. -/
theorem Untouched.turn (hsame : SameCell c₀.params calls w idx e) (he : e < 2 ^ 32)
    {s : Config ι Collector Pc} (h : Untouched c₀ w idx e s) (t : ι) :
    Untouched c₀ w idx e (turn (raceStep calls) s t) ∨
      InSlot c₀ w idx e (turn (raceStep calls) s t) := by
  have hslot : s.shared.params.slotOf (calls t).nowUs = e := by rw [h.params]; exact hsame.slot t
  have hcell : (calls t).idx s.shared.params = idx := by rw [h.params]; exact hsame.cell t
  unfold Lib.turn
  rcases h.early t with hpos | hpos | hpos
  · left
    have henter : raceStep calls t s.shared .enter = (s.shared.see (calls t).isWrite, .load) := rfl
    rw [hpos, henter]
    exact h.stay t (Collector.see_params _ _) (Collector.see_cells _ _) (Collector.see_sampled _ _)
      (Or.inr (Or.inl rfl))
  · left
    have hload : raceStep calls t s.shared .load = (s.shared, .swap (c₀.cells w idx)) := by
      show (s.shared, _) = _
      rw [hslot, hcell, hsame.kind t, h.word, if_pos h.old]
    rw [hpos, hload]
    exact h.stay t rfl rfl rfl (Or.inr (Or.inr rfl))
  · right
    have hswap : raceStep calls t s.shared (.swap (c₀.cells w idx)) =
        (s.shared.setCell w idx (firstWord e), .won) := by
      show (if s.shared.cells _ _ = _ then _ else _) = _
      rw [hslot, hcell, hsame.kind t, if_pos h.word]
    rw [hpos, hswap]
    exact h.claim he t

/-- One operation once the word is claimed. -/
theorem InSlot.turn (hsame : SameCell c₀.params calls w idx e) (hrate : 1 ≤ c₀.params.sampleRate)
    (hroom : Fintype.card ι + countOf (c₀.cells w idx) e < 2 ^ 32)
    {s : Config ι Collector Pc} (h : InSlot c₀ w idx e s) (t : ι) :
    InSlot c₀ w idx e (turn (raceStep calls) s t) := by
  have hslot : s.shared.params.slotOf (calls t).nowUs = e := by rw [h.params]; exact hsame.slot t
  have hcell : (calls t).idx s.shared.params = idx := by rw [h.params]; exact hsame.cell t
  have hkind := hsame.kind t
  have hcount : s.shared.sampling = .count := by
    unfold Collector.sampling
    rw [h.params, if_neg (not_lt.mpr hrate)]
  have hfits := h.fits t
  unfold Lib.turn
  cases hpos : s.pos t with
  | enter =>
    have henter : raceStep calls t s.shared .enter = (s.shared.see (calls t).isWrite, .load) := rfl
    rw [henter]
    refine h.move t (Collector.see_params _ _) ?_ ?_ trivial ?_
    · rw [Collector.see_cells]
      exact h.stamp
    · rw [hpos, Collector.see_cells]
      rfl
    · rw [hpos, Collector.see_sampled]
      rfl
  | load =>
    have hload : raceStep calls t s.shared .load = (s.shared, .count) := by
      show (s.shared, _) = _
      rw [hslot, hcell, hkind, if_neg (not_not.mpr h.stamp), hcount]
    rw [hload]
    exact h.move t rfl h.stamp (by rw [hpos]; rfl) trivial (by rw [hpos]; rfl)
  | swap v =>
    rw [hpos] at hfits
    have hgone : s.shared.cells w idx ≠ v := fun heq => hfits (heq ▸ h.stamp)
    have hswap : raceStep calls t s.shared (.swap v) = (s.shared, .reload) := by
      show (if s.shared.cells _ _ = _ then _ else _) = _
      rw [hcell, hkind, if_neg hgone]
    rw [hswap]
    exact h.move t rfl h.stamp (by rw [hpos]; rfl) trivial (by rw [hpos]; rfl)
  | won => exact h.move t rfl h.stamp (by rw [hpos]; rfl) trivial (by rw [hpos]; rfl)
  | reload =>
    have hload : raceStep calls t s.shared .reload = (s.shared, .count) := by
      show (s.shared, _) = _
      rw [hslot, hcell, hkind, if_neg (not_not.mpr h.stamp), hcount]
    rw [hload]
    exact h.move t rfl h.stamp (by rw [hpos]; rfl) trivial (by rw [hpos]; rfl)
  | draw => rw [hpos] at hfits; exact hfits.elim
  | keep x => rw [hpos] at hfits; exact hfits.elim
  | count => exact h.move t rfl h.stamp (by rw [hpos]; rfl) trivial (by rw [hpos]; rfl)
  | add =>
    have hadd : raceStep calls t s.shared .add =
        (s.shared.setCell w idx (s.shared.cells w idx + 1), .done) := by
      show (_, Pc.done) = _
      rw [hcell, hkind]
    -- this call is not in the word yet, so there is room for it
    have hnot : (s.pos t).counted = 0 := by rw [hpos]; rfl
    have hlt := sum_counted_lt hnot
    obtain ⟨hst, hlow⟩ := word_add_one (v := s.shared.cells w idx) (by rw [h.low]; omega)
    have hword : (s.shared.setCell w idx (s.shared.cells w idx + 1)).cells w idx =
        s.shared.cells w idx + 1 := by
      rw [Collector.setCell_cells, if_pos ⟨rfl, rfl⟩]
    rw [hadd]
    refine h.move t rfl ?_ ?_ trivial (by rw [hpos]; rfl)
    · rw [hword, hst, h.stamp]
    · rw [hword, hlow, hpos]
      rfl
  | done => exact h.move t rfl h.stamp (by rw [hpos]; rfl) trivial (by rw [hpos]; rfl)
  | dropped => rw [hpos] at hfits; exact hfits.elim

/-- **Every interleaving** leaves the word unclaimed, or claimed with all that reached it. -/
theorem race_invariant (hsame : SameCell c₀.params calls w idx e) (he : e < 2 ^ 32)
    (hrate : 1 ≤ c₀.params.sampleRate)
    (hroom : Fintype.card ι + countOf (c₀.cells w idx) e < 2 ^ 32) (ts : List ι) :
    Untouched c₀ w idx e (schedule (raceStep calls) (atStart ι c₀) ts) ∨
      InSlot c₀ w idx e (schedule (raceStep calls) (atStart ι c₀) ts) := by
  refine schedule_invariant (I := fun s => Untouched c₀ w idx e s ∨ InSlot c₀ w idx e s) ?_ ?_ ts
  · rintro s t (h | h)
    · exact h.turn hsame he t
    · exact Or.inr (h.turn hsame hrate hroom t)
  · by_cases hst : stampOf (c₀.cells w idx) = e
    · right
      have hzero : ∑ _t : ι, Pc.enter.counted = 0 ∧ ∑ _t : ι, Pc.enter.tallied = 0 := by
        constructor <;> exact Finset.sum_eq_zero fun _ _ => rfl
      refine ⟨rfl, hst, ?_, fun _ => trivial, ?_⟩
      · show lowOf (c₀.cells w idx) = _ + ∑ _t : ι, Pc.enter.counted
        rw [hzero.1, countOf, if_pos hst, Nat.add_zero]
      · show c₀.sampled = _ + ∑ _t : ι, Pc.enter.tallied
        rw [hzero.2, Nat.add_zero]
    · exact Or.inl ⟨rfl, rfl, hst, fun _ => Or.inl rfl, rfl⟩

/-- **No access is lost at a slot transition.** Any number of calls in slot `e` on one word,
    interleaved in any way: eight operations of each are enough for all of them to return, and
    when all have returned the word carries slot `e` and has grown by their number from what it
    already had for that slot, as has `sampled_`. -/
theorem race_counts (hsame : SameCell c₀.params calls w idx e) (he : e < 2 ^ 32)
    (hrate : 1 ≤ c₀.params.sampleRate)
    (hroom : Fintype.card ι + countOf (c₀.cells w idx) e < 2 ^ 32) (ts : List ι) :
    let s := schedule (raceStep calls) (atStart ι c₀) ts
    ((∀ t, 8 ≤ ts.count t) → ∀ t, (s.pos t).returned = true) ∧
    ((∀ t, (s.pos t).returned = true) →
      (0 < Fintype.card ι → stampOf (s.shared.cells w idx) = e) ∧
      countOf (s.shared.cells w idx) e = Fintype.card ι + countOf (c₀.cells w idx) e ∧
      s.shared.sampled = c₀.sampled + Fintype.card ι) := by
  intro s
  refine ⟨fun hturns t => ?_, fun hret => ?_⟩
  · have hrank : (s.pos t).rank ≤ 8 - ts.count t :=
      rank_schedule (fun t => rank_callStep (calls t)) (atStart ι c₀) ts t
    have := hturns t
    exact (Pc.returned_iff _).mpr (by omega)
  · rcases race_invariant hsame he hrate hroom ts with h | h
    · -- nobody has claimed the word, so there is nobody
      have hempty : IsEmpty ι := by
        refine ⟨fun t => ?_⟩
        have hr := hret t
        rcases h.early t with hp | hp | hp <;> rw [hp] at hr <;>
          exact absurd hr (by simp [Pc.returned])
      have hcard : Fintype.card ι = 0 := Fintype.card_eq_zero
      refine ⟨fun hpos => absurd hpos (by omega), ?_, ?_⟩
      · rw [h.word, hcard, Nat.zero_add]
      · rw [h.sampled, hcard, Nat.add_zero]
    · -- the word was claimed, so every call that returned has counted in it
      have hdone : ∀ t, s.pos t = .done := by
        intro t
        have hr := hret t
        have hf := h.fits t
        cases hp : s.pos t with
        | done => rfl
        | dropped => rw [hp] at hf; exact hf.elim
        | _ => rw [hp] at hr; exact absurd hr (by simp [Pc.returned])
      have hcounted : ∑ t, (s.pos t).counted = Fintype.card ι := by
        simp [hdone, Pc.counted]
      have htallied : ∑ t, (s.pos t).tallied = Fintype.card ι := by
        simp [hdone, Pc.tallied]
      refine ⟨fun _ => h.stamp, ?_, ?_⟩
      · have hread : countOf (s.shared.cells w idx) e = lowOf (s.shared.cells w idx) :=
          if_pos h.stamp
        rw [hread, h.low, hcounted, Nat.add_comm]
      · rw [h.sampled, htallied]

/-- Two reads of range zero in one slot, the second seeing the word before the first claims it. -/
theorem race_counts_two :
    let s := schedule (raceStep fun _ : Fin 2 => ⟨0, false, 5000000⟩)
      (atStart (Fin 2) (Collector.fresh oneSecondParams)) [0, 0, 1, 1, 0, 1, 1, 0, 1, 1]
    stampOf (s.shared.cells false 1) = 5 ∧ countOf (s.shared.cells false 1) 5 = 2 := by
  have hsame : SameCell (Collector.fresh oneSecondParams).params
      (fun _ : Fin 2 => ⟨0, false, 5000000⟩) false 1 5 :=
    ⟨by decide +kernel, by decide +kernel, by decide +kernel⟩
  have h := race_counts hsame (by decide) (by decide +kernel) (by decide +kernel)
    [0, 0, 1, 1, 0, 1, 1, 0, 1, 1]
  obtain ⟨hstamp, hcount, -⟩ := h.2 (by decide +kernel)
  exact ⟨hstamp (by decide), hcount.trans (by decide +kernel)⟩

/-- In slot `2^32` the stamp has no room for the slot: two reads, one after the other, and the
    word says neither that it is of this slot nor that there were two. -/
theorem race_counts_not_beyond_stamp :
    SameCell oneSecondParams (fun _ : Fin 2 => ⟨0, false, 2 ^ 32 * 1000000⟩) false 0 (2 ^ 32) ∧
    let s := schedule (raceStep fun _ : Fin 2 => ⟨0, false, 2 ^ 32 * 1000000⟩)
      (atStart (Fin 2) (Collector.fresh oneSecondParams)) [0, 0, 0, 0, 1, 1, 1, 1]
    (∀ t, (s.pos t).returned = true) ∧ stampOf (s.shared.cells false 0) ≠ 2 ^ 32 ∧
      countOf (s.shared.cells false 0) (2 ^ 32) = 0 ∧ lowOf (s.shared.cells false 0) = 1 :=
  ⟨⟨by decide +kernel, by decide +kernel, by decide +kernel⟩, by decide +kernel⟩

end Leaper
