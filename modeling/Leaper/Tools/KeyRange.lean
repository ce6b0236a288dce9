import Leaper.Lib.Bisect
import Leaper.Lib.SortUnique
import Leaper.Lib.While
import Leaper.Tools.TrainSplit
import Mathlib.Data.Finset.Prod

namespace Leaper.Train

open Lib

/-!
# Key range selection

`select_key_range` of `tools/train_leaper.py` (Algorithm 1): the size of the key ranges is doubled
as long as the zeros of the slot by range matrix hold up, and then refined by bisection among the
multiples of the initial size.  All counts are derived from the finest matrix, whose non-zero
entries are packed into single integers.

* `ReadTrace.zerosFor_of_dvd` — a count derived from the finest matrix is that of the empty cells;
* `ReadTrace.doubling_spec`, `ReadTrace.bisection_spec` — what the two loops return;
* `ReadTrace.bisection_eq_iff` — when the bisection comes to the largest multiple that passes;
* `selectKeyRange_spec` — the size that is selected.
-/

/-- The read accesses Algorithm 1 is run on, as pairs of slot and key. -/
structure ReadTrace where
  nSlots : ℕ
  keySpace : ℕ
  reads : List (ℕ × ℕ)
  slot_lt : ∀ x ∈ reads, x.1 < nSlots
  key_lt : ∀ x ∈ reads, x.2 < keySpace

/-- `zero_count`. -/
def zeroCount (pairs : List ℕ) (nSlots nRanges : ℕ) : ℤ := nSlots * nRanges - pairs.length

/-- A `float` times an `int`, which is converted first. -/
def mulInt (x : ℚ) (n : ℤ) : ℚ := binary64 (x * binary64 n)

namespace ReadTrace

variable (t : ReadTrace) (initA : ℕ)

/-- The columns of the finest matrix. -/
def nBase : ℕ := t.keySpace / initA + 1

/-- `base`: the occupied cells of the finest matrix. -/
def base : List ℕ := sortUnique (t.reads.map fun x => x.1 * t.nBase initA + x.2 / initA)

/-- `zeros_for`; a size that is not a multiple of the initial one fails its assertion. -/
def zerosFor (a : ℕ) : Option (ℤ × ℕ) :=
  if a % initA = 0 then
    let nRanges := t.keySpace / a + 1
    let pairs := sortUnique ((t.base initA).map fun b =>
      b / t.nBase initA * nRanges + b % t.nBase initA * initA / a)
    some (zeroCount pairs t.nSlots nRanges, nRanges)
  else none

variable (alpha : ℚ) (minRanges : ℤ)

/-- The body of the doubling loop, over `a` and `z_a`. -/
def doublingStep (s : ℕ × ℤ) : Step (ℕ × ℤ) (ℕ × ℤ) :=
  let twoA := s.1 * 2
  if t.keySpace < twoA then .ret s
  else
    match t.zerosFor initA twoA with
    | none => .fail
    | some (z2a, n2a) =>
      -- the efficiency test, then the floor on the number of ranges
      if ¬ mulInt alpha s.2 < 2 * z2a then .ret s
      else if (n2a : ℤ) < minRanges then .ret s
      else .next (twoA, z2a)

/-- The doubling loop, for at most so many turns: the size it stops at and its zeros. -/
def doubling (fuel : ℕ) : Outcome (ℕ × ℤ) :=
  match t.zerosFor initA initA with
  | none => .fail
  | some (z, _) => loop (t.doublingStep initA alpha minRanges) fuel (initA, z)

/-- `target`. -/
def target (a : ℕ) (za : ℤ) : ℚ := mulInt (mulInt alpha a) za

/-- `max_a`. -/
def maxA (a : ℕ) : ℕ :=
  min (2 * a) (min t.keySpace (max initA (t.keySpace / (max minRanges 1).toNat)))

/-- The variables of the bisection. -/
structure Search where
  lo : ℕ
  hi : ℕ
  best : ℕ

/-- The body of the bisection. -/
def bisectionStep (goal : ℚ) (s : Search) : Step Search ℕ :=
  if s.lo ≤ s.hi then
    let mid := (s.lo + s.hi) / 2
    let cand := mid * initA
    if cand = 0 then .ret s.best
    else
      match t.zerosFor initA cand with
      | none => .fail
      | some (z, _) =>
        if goal < cand * z then .next { s with lo := mid + 1, best := cand }
        else .next { s with hi := mid - 1 }
  else .ret s.best

/-- `select_key_range`, with at most so many turns of each loop. -/
def selectKeyRange (fuel : ℕ) : Outcome ℕ :=
  match t.doubling initA alpha minRanges fuel with
  | .fail => .fail
  | .running => .running
  | .ret (a, za) =>
    loop (t.bisectionStep initA (target alpha a za)) fuel
      { lo := a / initA, hi := t.maxA initA minRanges a / initA, best := a }

/-! ### Zero counts -/

/-- The cells of the matrix of range size `a`. -/
def cells (a : ℕ) : Finset (ℕ × ℕ) :=
  Finset.range t.nSlots ×ˢ Finset.range (t.keySpace / a + 1)

/-- The cells that some read falls into. -/
def occupied (a : ℕ) : Finset (ℕ × ℕ) := (t.reads.map fun x => (x.1, x.2 / a)).toFinset

/-- The cells without a read. -/
def emptyCells (a : ℕ) : Finset (ℕ × ℕ) :=
  (t.cells a).filter fun c => ∀ x ∈ t.reads, ¬ (x.1 = c.1 ∧ x.2 / a = c.2)

theorem occupied_subset (a : ℕ) : t.occupied a ⊆ t.cells a := by
  intro c hc
  obtain ⟨x, hx, rfl⟩ := List.mem_map.mp (List.mem_toFinset.mp hc)
  have hkey := Nat.div_le_div_right (c := a) (t.key_lt x hx).le
  simp only [cells, Finset.mem_product, Finset.mem_range]
  exact ⟨t.slot_lt x hx, Nat.lt_succ_of_le hkey⟩

theorem emptyCells_eq (a : ℕ) : t.emptyCells a = t.cells a \ t.occupied a := by
  ext c
  simp only [emptyCells, occupied, Finset.mem_filter, Finset.mem_sdiff, List.mem_toFinset,
    List.mem_map, not_exists, not_and, Prod.ext_iff]

/-- A cell packed into one integer, with `n` columns, and unpacked again. -/
theorem pack_div {n s r : ℕ} (hr : r < n) : (s * n + r) / n = s := by
  rw [Nat.mul_comm, Nat.mul_add_div (by omega), Nat.div_eq_of_lt hr, Nat.add_zero]

theorem pack_mod {n s r : ℕ} (hr : r < n) : (s * n + r) % n = r := Nat.mul_add_mod_of_lt hr

/-- Packing row by row keeps the cells apart. -/
theorem pack_injOn (a : ℕ) :
    Set.InjOn (fun c : ℕ × ℕ => c.1 * (t.keySpace / a + 1) + c.2) (t.occupied a) := by
  intro c hc d hd heq
  have hc := Finset.mem_range.mp (Finset.mem_product.mp (t.occupied_subset a hc)).2
  have hd := Finset.mem_range.mp (Finset.mem_product.mp (t.occupied_subset a hd)).2
  have heq : c.1 * (t.keySpace / a + 1) + c.2 = d.1 * (t.keySpace / a + 1) + d.2 := heq
  refine Prod.ext ?_ ?_
  · rw [← pack_div (s := c.1) hc, heq, pack_div hd]
  · rw [← pack_mod (s := c.1) hc, heq, pack_mod hd]

variable {initA}

/-- A read unpacked from the finest matrix and packed into a coarser one. -/
theorem repack {x : ℕ × ℕ} (hx : x ∈ t.reads) {a : ℕ} (ha : initA ∣ a) (n : ℕ) :
    (x.1 * t.nBase initA + x.2 / initA) / t.nBase initA * n +
        (x.1 * t.nBase initA + x.2 / initA) % t.nBase initA * initA / a =
      x.1 * n + x.2 / a := by
  have hlt : x.2 / initA < t.nBase initA :=
    Nat.lt_succ_of_le (Nat.div_le_div_right (t.key_lt x hx).le)
  obtain ⟨m, rfl⟩ := ha
  rw [pack_div hlt, pack_mod hlt, ← Nat.div_div_eq_div_mul, ← Nat.div_div_eq_div_mul]
  rcases Nat.eq_zero_or_pos initA with rfl | hpos
  · rw [Nat.div_zero, Nat.div_zero]
  · rw [Nat.mul_div_cancel _ hpos]

/-- The pairs of a coarser matrix are its occupied cells, packed. -/
theorem pairs_toFinset {a : ℕ} (ha : initA ∣ a) :
    (sortUnique ((t.base initA).map fun b => b / t.nBase initA * (t.keySpace / a + 1) +
      b % t.nBase initA * initA / a)).toFinset =
      (t.occupied a).image fun c => c.1 * (t.keySpace / a + 1) + c.2 := by
  ext p
  simp only [List.mem_toFinset, mem_sortUnique, List.mem_map, base, Finset.mem_image, occupied,
    exists_exists_and_eq_and]
  exact exists_congr fun x => and_congr_right fun hx => by rw [t.repack hx ha]

/-- The count of `zeros_for` is that of the empty cells. -/
theorem zerosFor_of_dvd {a : ℕ} (ha : initA ∣ a) :
    t.zerosFor initA a = some (((t.emptyCells a).card : ℤ), t.keySpace / a + 1) := by
  have hpairs := congrArg Finset.card (t.pairs_toFinset ha)
  rw [List.toFinset_card_of_nodup (pairwise_sortUnique _).nodup,
    Finset.card_image_of_injOn (t.pack_injOn a)] at hpairs
  have hcells : (t.cells a).card = t.nSlots * (t.keySpace / a + 1) := by
    rw [cells, Finset.card_product, Finset.card_range, Finset.card_range]
  have hempty := Finset.card_sdiff_add_card_eq_card (t.occupied_subset a)
  rw [← t.emptyCells_eq, hcells] at hempty
  unfold zerosFor zeroCount
  rw [if_pos (Nat.mod_eq_zero_of_dvd ha)]
  simp only
  rw [hpairs, ← Nat.cast_mul, ← hempty, Nat.cast_add, add_sub_cancel_right]

/-! ### The two loops -/

/-- The sizes the loops go through: multiples of the initial one, with their zeros. -/
def Sized (t : ReadTrace) (initA : ℕ) (s : ℕ × ℤ) : Prop :=
  initA ∣ s.1 ∧ initA ≤ s.1 ∧ s.2 = (t.emptyCells s.1).card

/-- One turn of the doubling loop.  The size grows and stays within the key space. -/
theorem doublingStep_post (hinit : 1 ≤ initA) (alpha : ℚ) (minRanges : ℤ) {s : ℕ × ℤ}
    (h : t.Sized initA s) :
    (t.doublingStep initA alpha minRanges s).Post
      (fun s' => t.Sized initA s' ∧ t.keySpace - s'.1 < t.keySpace - s.1) (t.Sized initA) := by
  have htwo : initA ∣ s.1 * 2 := h.1.mul_right 2
  have hle := h.2.1
  unfold doublingStep
  simp only [t.zerosFor_of_dvd htwo]
  split_ifs with hbound heff hmin
  · exact h
  · exact h
  · refine ⟨⟨htwo, ?_, rfl⟩, ?_⟩
    · show initA ≤ s.1 * 2
      omega
    · show t.keySpace - s.1 * 2 < t.keySpace - s.1
      omega
  · exact h

/-- **The doubling loop** stops, at a multiple of the initial size. -/
theorem doubling_spec (hinit : 1 ≤ initA) (alpha : ℚ) (minRanges : ℤ) :
    ∃ a, initA ∣ a ∧ initA ≤ a ∧ ∀ n, t.keySpace < n →
      t.doubling initA alpha minRanges n = .ret (a, ((t.emptyCells a).card : ℤ)) := by
  obtain ⟨⟨a, z⟩, ⟨hdvd, hle, hz⟩, hloop⟩ := exists_loop_ret (fun s => t.keySpace - s.1)
    (fun _ => t.doublingStep_post hinit alpha minRanges)
    (show t.Sized initA (initA, ((t.emptyCells initA).card : ℤ)) from ⟨dvd_rfl, le_rfl, rfl⟩)
  refine ⟨a, hdvd, hle, fun n hn => ?_⟩
  have hz : z = (t.emptyCells a).card := hz
  unfold doubling
  rw [t.zerosFor_of_dvd dvd_rfl, ← hz]
  exact hloop n (lt_of_le_of_lt (Nat.sub_le _ _) hn)

/-- A multiple of the initial size passes the test of the bisection. -/
def Passes (t : ReadTrace) (initA : ℕ) (goal : ℚ) (m : ℕ) : Prop :=
  goal < ((m * initA : ℕ) : ℚ) * (((t.emptyCells (m * initA)).card : ℤ) : ℚ)

/-- The invariant of the bisection, started between `l` and `h` with the best size `a`: what was
    last found to pass is just before `lo`, what was last found to fail is just after `hi`. -/
structure Searching (t : ReadTrace) (initA : ℕ) (goal : ℚ) (l h a : ℕ) (s : Search) : Prop where
  le_lo : l ≤ s.lo
  lo_le : s.lo ≤ s.hi + 1
  hi_le : s.hi ≤ h
  best : s.lo = l ∧ s.best = a ∨
    l < s.lo ∧ s.best = (s.lo - 1) * initA ∧ t.Passes initA goal (s.lo - 1)
  failed : s.hi = h ∨ ¬ t.Passes initA goal (s.hi + 1)

/-- What the bisection returns. -/
def Bisected (t : ReadTrace) (initA : ℕ) (goal : ℚ) (l h a A : ℕ) : Prop :=
  A = a ∧ ¬ t.Passes initA goal l ∨
  ∃ k, l ≤ k ∧ k ≤ h ∧ A = k * initA ∧ t.Passes initA goal k ∧
    (k = h ∨ ¬ t.Passes initA goal (k + 1))

variable {t}

/-- What a turn of the bisection can do, from a positive lower end: a middle that passes is the best
    so far and the search goes on above it; one that fails is left behind; or the ends have met. -/
theorem bisectionStep_post (hinit : 1 ≤ initA) {goal : ℚ} {s : Search} (hlo : 1 ≤ s.lo)
    {P : Search → Prop} {Q : ℕ → Prop}
    (hpass : s.lo ≤ s.hi → t.Passes initA goal ((s.lo + s.hi) / 2) →
      P ⟨(s.lo + s.hi) / 2 + 1, s.hi, (s.lo + s.hi) / 2 * initA⟩)
    (hfail : s.lo ≤ s.hi → ¬ t.Passes initA goal ((s.lo + s.hi) / 2) →
      P ⟨s.lo, (s.lo + s.hi) / 2 - 1, s.best⟩)
    (hmet : s.hi < s.lo → Q s.best) : (t.bisectionStep initA goal s).Post P Q := by
  unfold bisectionStep
  simp only [t.zerosFor_of_dvd (Dvd.intro_left _ rfl)]
  split_ifs with hrun hzero hmid
  · -- a candidate is positive
    exact absurd hzero (Nat.mul_pos (by omega) hinit).ne'
  · exact hpass hrun hmid
  · exact hfail hrun hmid
  · exact hmet (not_le.mp hrun)

/-- One turn of the bisection. -/
theorem Searching.post (hinit : 1 ≤ initA) {goal : ℚ} {l h a : ℕ} (hl : 1 ≤ l) (hlh : l ≤ h)
    {s : Search} (hs : t.Searching initA goal l h a s) :
    (t.bisectionStep initA goal s).Post
      (fun s' => t.Searching initA goal l h a s' ∧ s'.hi + 1 - s'.lo < s.hi + 1 - s.lo)
      (t.Bisected initA goal l h a) := by
  have hlo := hs.le_lo
  have hhi := hs.hi_le
  refine bisectionStep_post hinit (hl.trans hlo) ?_ ?_ ?_
  · intro hrun hpass
    refine ⟨⟨?_, ?_, hhi, Or.inr ⟨?_, rfl, ?_⟩, hs.failed⟩, ?_⟩
    all_goals simp only
    · omega
    · omega
    · omega
    · exact hpass
    · omega
  · intro hrun hfail
    refine ⟨⟨hlo, ?_, ?_, hs.best, Or.inr ?_⟩, ?_⟩
    all_goals simp only
    · omega
    · omega
    · rw [Nat.sub_add_cancel (by omega)]
      exact hfail
    · omega
  · intro hmet
    have hmeet : s.lo = s.hi + 1 := by have := hs.lo_le; omega
    rcases hs.best with ⟨hstart, hbest⟩ | ⟨hmoved, hbest, hpass⟩
    · left
      refine ⟨hbest, ?_⟩
      rcases hs.failed with hfull | hfail
      · omega
      · rwa [← hmeet, hstart] at hfail
    · right
      refine ⟨s.lo - 1, by omega, by omega, hbest, hpass, ?_⟩
      rcases hs.failed with hfull | hfail
      · left
        omega
      · right
        rwa [Nat.sub_add_cancel (by omega), hmeet]

/-- **The bisection** between the multiples `l` and `h` of the initial size returns. -/
theorem bisection_spec (hinit : 1 ≤ initA) (goal : ℚ) {l h a : ℕ} (hl : 1 ≤ l) (hlh : l ≤ h) :
    ∃ A, t.Bisected initA goal l h a A ∧
      ∀ n, h + 1 < n → loop (t.bisectionStep initA goal) n ⟨l, h, a⟩ = .ret A := by
  have hstart : t.Searching initA goal l h a ⟨l, h, a⟩ :=
    ⟨le_rfl, by simp only; omega, le_rfl, Or.inl ⟨rfl, rfl⟩, Or.inl rfl⟩
  obtain ⟨A, hA, hloop⟩ := exists_loop_ret (fun s : Search => s.hi + 1 - s.lo)
    (fun _ => Searching.post hinit hl hlh) hstart
  exact ⟨A, hA, fun n hn => hloop n (lt_of_le_of_lt (Nat.sub_le _ _) hn)⟩

/-- What is tested on the way to the multiple `k`, up to `k` itself, passes. -/
def Open (t : ReadTrace) (initA : ℕ) (goal : ℚ) (k lo hi : ℕ) : Prop :=
  ∀ m ∈ probes k lo hi, m ≤ k → t.Passes initA goal m

/-- The invariant of the bisection with respect to the largest multiple `k` that passes: it is on
    its way to `k`, has found it, or has turned away from it. -/
inductive Seeking (t : ReadTrace) (initA : ℕ) (goal : ℚ) (k : ℕ) (way : Prop) (s : Search) : Prop
  | coming (lo_le : s.lo ≤ k) (le_hi : k ≤ s.hi) (best : s.best < k * initA ∨ s.lo = k)
      (iff : t.Open initA goal k s.lo s.hi ↔ way)
  | found (lt_lo : k < s.lo) (best : s.best = k * initA) (way : way)
  | missed (hi_lt : s.hi < k) (best : s.best < k * initA) (way : ¬ way)

/-- One turn of the bisection, where `k` is the last multiple up to `h` that passes. -/
theorem Seeking.post (hinit : 1 ≤ initA) {goal : ℚ} {h k : ℕ} {way : Prop}
    (hk : t.Passes initA goal k) (hlast : ∀ j, k < j → j ≤ h → ¬ t.Passes initA goal j)
    {s : Search} (hlo : 1 ≤ s.lo) (hhi : s.hi ≤ h) (hs : t.Seeking initA goal k way s) :
    (t.bisectionStep initA goal s).Post
      (fun s' => (1 ≤ s'.lo ∧ s'.hi ≤ h ∧ t.Seeking initA goal k way s') ∧
        s'.hi + 1 - s'.lo < s.hi + 1 - s.lo)
      (fun A => A = k * initA ↔ way) := by
  refine bisectionStep_post hinit hlo ?_ ?_ ?_
  · -- the middle passes, so it is not above `k`
    intro hrun hpass
    refine ⟨⟨by simp only; omega, hhi, ?_⟩, by simp only; omega⟩
    have hmid : (s.lo + s.hi) / 2 ≤ k := by
      by_contra! habove
      exact hlast _ habove (by omega) hpass
    cases hs with
    | coming hlok hkhi hbest hiff =>
      have hopen : t.Open initA goal k s.lo s.hi ↔
          t.Open initA goal k ((s.lo + s.hi) / 2 + 1) s.hi := by
        unfold Open
        rw [probes_up hrun hmid, List.forall_mem_cons, and_iff_right fun _ => hpass]
      rcases hmid.eq_or_lt with heq | hlt
      · -- `k` itself: nothing at or below it is left
        refine .found (by simp only; omega) (by simp only [heq]) (hiff.mp (hopen.mpr ?_))
        intro m hm hle
        have := (mem_probes_le hm).1
        omega
      · exact .coming (by simp only; omega) hkhi
          (.inl (Nat.mul_lt_mul_of_pos_right hlt hinit)) (hopen.symm.trans hiff)
    | found hlt hbest hway => omega
    | missed hlt hbest hway =>
      exact .missed hlt (Nat.mul_lt_mul_of_pos_right (by omega) hinit) hway
  · -- the middle fails, so it is not `k`
    intro hrun hpass
    refine ⟨⟨hlo, by simp only; omega, ?_⟩, by simp only; omega⟩
    have hne : (s.lo + s.hi) / 2 ≠ k := fun heq => hpass (heq ▸ hk)
    cases hs with
    | coming hlok hkhi hbest hiff =>
      rcases Nat.lt_or_ge ((s.lo + s.hi) / 2) k with hlt | hge
      · -- the search turns away from `k`
        refine .missed (by simp only; omega) ?_ fun hway => ?_
        · rcases hbest with hbest | heq
          · exact hbest
          · omega
        · refine hpass (hiff.mpr hway _ ?_ hlt.le)
          rw [probes_up hrun hlt.le]
          exact List.mem_cons_self
      · have hgt : k < (s.lo + s.hi) / 2 := lt_of_le_of_ne hge hne.symm
        have hopen : t.Open initA goal k s.lo s.hi ↔
            t.Open initA goal k s.lo ((s.lo + s.hi) / 2 - 1) := by
          unfold Open
          rw [probes_down hrun hgt, List.forall_mem_cons,
            and_iff_right fun hle => absurd hgt (Nat.not_lt.mpr hle)]
        exact .coming hlok (by simp only; omega) hbest (hopen.symm.trans hiff)
    | found hlt hbest hway => exact .found hlt hbest hway
    | missed hlt hbest hway => exact .missed (by simp only; omega) hbest hway
  · intro hmet
    cases hs with
    | coming hlok hkhi hbest hiff => omega
    | found hlt hbest hway => exact iff_of_true hbest hway
    | missed hlt hbest hway => exact iff_of_false hbest.ne hway

/-- **Where the bisection goes.** It returns the last multiple `k` that passes exactly if what it
    tests on the way there, up to `k`, passes. -/
theorem bisection_eq_iff (hinit : 1 ≤ initA) {goal : ℚ} {l h k : ℕ} (hl : 1 ≤ l) (hlk : l ≤ k)
    (hkh : k ≤ h) (hk : t.Passes initA goal k)
    (hlast : ∀ j, k < j → j ≤ h → ¬ t.Passes initA goal j) :
    ∃ A, (A = k * initA ↔ t.Open initA goal k l h) ∧
      ∀ n, h + 1 < n → loop (t.bisectionStep initA goal) n ⟨l, h, l * initA⟩ = .ret A := by
  have hstart : t.Seeking initA goal k (t.Open initA goal k l h) ⟨l, h, l * initA⟩ := by
    refine .coming hlk hkh ?_ Iff.rfl
    rcases hlk.eq_or_lt with heq | hlt
    · exact .inr heq
    · exact .inl (Nat.mul_lt_mul_of_pos_right hlt hinit)
  have hturn := fun (s : Search)
      (hs : 1 ≤ s.lo ∧ s.hi ≤ h ∧ t.Seeking initA goal k (t.Open initA goal k l h) s) =>
    hs.2.2.post hinit hk hlast hs.1 hs.2.1
  obtain ⟨A, hA, hloop⟩ :=
    exists_loop_ret (fun s : Search => s.hi + 1 - s.lo) hturn ⟨hl, le_rfl, hstart⟩
  exact ⟨A, hA, fun n hn => hloop n (lt_of_le_of_lt (Nat.sub_le _ _) hn)⟩

variable (t)

/-- The multiples of the initial size between `a` and `max_a` that pass the test for `a`. -/
def passing (initA : ℕ) (alpha : ℚ) (minRanges : ℤ) (a : ℕ) : Finset ℕ :=
  (Finset.Icc a (t.maxA initA minRanges a)).filter fun A =>
    initA ∣ A ∧ target alpha a (t.emptyCells a).card < (A : ℚ) * (t.emptyCells A).card

theorem mul_mem_passing (hinit : 1 ≤ initA) {alpha : ℚ} {minRanges : ℤ} {a m : ℕ} (ha : initA ∣ a) :
    m * initA ∈ t.passing initA alpha minRanges a ↔
      a / initA ≤ m ∧ m ≤ t.maxA initA minRanges a / initA ∧
        t.Passes initA (target alpha a (t.emptyCells a).card) m := by
  unfold passing Passes
  rw [Finset.mem_filter, Finset.mem_Icc, Nat.le_div_iff_mul_le hinit,
    Nat.div_le_iff_le_mul_of_dvd (by omega) ha, and_assoc, Int.cast_natCast]
  exact and_congr_right fun _ => and_congr_right fun _ => and_iff_right (Dvd.intro_left _ rfl)

/-- A candidate is a multiple. -/
theorem exists_mul_of_mem_passing {alpha : ℚ} {minRanges : ℤ} {a A : ℕ}
    (hA : A ∈ t.passing initA alpha minRanges a) : ∃ m, A = m * initA := by
  obtain ⟨m, rfl⟩ := (Finset.mem_filter.mp hA).2.1
  exact ⟨m, Nat.mul_comm _ _⟩

/-- What the bisection tests on its way to the largest candidate that passes, up to that candidate,
    passes too. -/
def WayOpen (initA : ℕ) (alpha : ℚ) (minRanges : ℤ) (a : ℕ) : Prop :=
  ∀ C ∈ t.passing initA alpha minRanges a, (∀ B ∈ t.passing initA alpha minRanges a, B ≤ C) →
    ∀ m ∈ probes (C / initA) (a / initA) (t.maxA initA minRanges a / initA),
      m * initA ≤ C → m * initA ∈ t.passing initA alpha minRanges a

instance (alpha : ℚ) (minRanges : ℤ) (a : ℕ) : Decidable (t.WayOpen initA alpha minRanges a) :=
  inferInstanceAs (Decidable (∀ C ∈ t.passing initA alpha minRanges a, _))

/-- The condition on the sizes is the one on the multiples, for the largest candidate. -/
theorem wayOpen_iff (hinit : 1 ≤ initA) {alpha : ℚ} {minRanges : ℤ} {a k : ℕ} (ha : initA ∣ a)
    (hk : k * initA ∈ t.passing initA alpha minRanges a)
    (hlast : ∀ B ∈ t.passing initA alpha minRanges a, B ≤ k * initA) :
    t.WayOpen initA alpha minRanges a ↔
      t.Open initA (target alpha a (t.emptyCells a).card) k (a / initA)
        (t.maxA initA minRanges a / initA) := by
  constructor
  · intro hway m hm hle
    have hmem := hway (k * initA) hk hlast m (by rwa [Nat.mul_div_cancel _ hinit])
      (Nat.mul_le_mul_right _ hle)
    exact ((t.mul_mem_passing hinit ha).mp hmem).2.2
  · intro hopen C hC hmax m hm hle
    obtain rfl : C = k * initA := le_antisymm (hlast C hC) (hmax _ hk)
    rw [Nat.mul_div_cancel _ hinit] at hm
    obtain ⟨hlo, hhi⟩ := mem_probes_le hm
    exact (t.mul_mem_passing hinit ha).mpr
      ⟨hlo, hhi, hopen m hm (Nat.le_of_mul_le_mul_right hle hinit)⟩

/-- The bisection from `a` on, seen from the sizes. -/
theorem bisection_passing (hinit : 1 ≤ initA) (alpha : ℚ) (minRanges : ℤ) {a : ℕ} (ha : initA ∣ a)
    (hle : initA ≤ a) :
    ∃ A, (∀ n, t.keySpace + 1 < n →
        loop (t.bisectionStep initA (target alpha a (t.emptyCells a).card)) n
          ⟨a / initA, t.maxA initA minRanges a / initA, a⟩ = .ret A) ∧
      (A = a ∨ A ∈ t.passing initA alpha minRanges a) ∧
      ((A = a ∧ t.passing initA alpha minRanges a = ∅ ∨
          A ∈ t.passing initA alpha minRanges a ∧
            ∀ B ∈ t.passing initA alpha minRanges a, B ≤ A) ↔
        t.WayOpen initA alpha minRanges a) := by
  have hl : 1 ≤ a / initA := (Nat.one_le_div_iff hinit).mpr hle
  -- where nothing passes there is nothing to miss
  have hvacuous : t.passing initA alpha minRanges a = ∅ → t.WayOpen initA alpha minRanges a := by
    intro hempty C hC
    rw [hempty] at hC
    cases hC
  rcases Nat.lt_or_ge (t.maxA initA minRanges a / initA) (a / initA) with hnone | hlh
  · -- the limit is below the size, and the loop is not entered
    have hempty : t.passing initA alpha minRanges a = ∅ := by
      refine Finset.eq_empty_of_forall_notMem fun A hA => ?_
      obtain ⟨m, rfl⟩ := t.exists_mul_of_mem_passing hA
      obtain ⟨hlo, hhi, -⟩ := (t.mul_mem_passing hinit ha).mp hA
      omega
    refine ⟨a, fun n hn => ?_, Or.inl rfl, iff_of_true (Or.inl ⟨rfl, hempty⟩) (hvacuous hempty)⟩
    obtain ⟨k, rfl⟩ : ∃ k, n = k + 1 := ⟨n - 1, by omega⟩
    have hstep : t.bisectionStep initA (target alpha a (t.emptyCells a).card)
        ⟨a / initA, t.maxA initA minRanges a / initA, a⟩ = .ret a := if_neg (Nat.not_le.mpr hnone)
    rw [loop, hstep]
  · have hmax : t.maxA initA minRanges a / initA ≤ t.keySpace :=
      (Nat.div_le_self _ _).trans ((min_le_right _ _).trans (min_le_left _ _))
    obtain ⟨A, hA, hloop⟩ := t.bisection_spec (a := a) hinit
      (target alpha a (t.emptyCells a).card) hl hlh
    have hsound : A = a ∨ A ∈ t.passing initA alpha minRanges a := by
      rcases hA with ⟨hA, -⟩ | ⟨k, hlk, hkh, rfl, hpass, -⟩
      · exact Or.inl hA
      · exact Or.inr ((t.mul_mem_passing hinit ha).mpr ⟨hlk, hkh, hpass⟩)
    refine ⟨A, fun n hn => hloop n (by omega), hsound, ?_⟩
    rcases (t.passing initA alpha minRanges a).eq_empty_or_nonempty with hempty | hsome
    · refine iff_of_true (Or.inl ⟨?_, hempty⟩) (hvacuous hempty)
      rw [hempty] at hsound
      exact hsound.resolve_right (Finset.notMem_empty A)
    · -- the largest candidate that passes, and the same run seen from it
      obtain ⟨C, hC, hlast⟩ := Finset.exists_max_image _ id hsome
      obtain ⟨k, rfl⟩ := t.exists_mul_of_mem_passing hC
      obtain ⟨hlk, hkh, hk⟩ := (t.mul_mem_passing hinit ha).mp hC
      obtain ⟨A', hA', hloop'⟩ := bisection_eq_iff hinit hl hlk hkh hk fun j hkj hj hpass => by
        have hmem := (t.mul_mem_passing hinit ha).mpr ⟨hlk.trans hkj.le, hj, hpass⟩
        exact absurd (hlast _ hmem) (Nat.not_le.mpr (Nat.mul_lt_mul_of_pos_right hkj hinit))
      obtain rfl : A' = A := by
        have hret := hloop' _ (Nat.lt_succ_self _)
        rw [Nat.div_mul_cancel ha, hloop _ (Nat.lt_succ_self _)] at hret
        exact (Outcome.ret.inj hret).symm
      rw [t.wayOpen_iff hinit ha hC hlast, ← hA']
      constructor
      · rintro (⟨-, hempty⟩ | ⟨hmem, hbest⟩)
        · exact absurd hempty hsome.ne_empty
        · exact le_antisymm (hlast _ hmem) (hbest _ hC)
      · rintro rfl
        exact Or.inr ⟨hC, hlast⟩

end ReadTrace

namespace Setup

variable (u : Setup)

/-- The reads of the training window, as `main` hands them to Algorithm 1. -/
def readTrace (files : List (List TraceRecord)) : ReadTrace where
  nSlots := u.validSlot (u.nSlots files) + 1
  keySpace := maxKey files + 1
  reads := ((files.map load).flatten.filter fun x =>
    x.op.isRead && u.inTrain (u.nSlots files) (u.args.slotOf x)).map fun x =>
      (u.args.slotOf x, x.key)
  slot_lt := by
    intro y hy
    obtain ⟨x, hx, rfl⟩ := List.mem_map.mp hy
    have hmask := (Bool.and_eq_true_iff.mp (List.mem_filter.mp hx).2).2
    exact Nat.lt_succ_of_le (of_decide_eq_true hmask)
  key_lt := by
    intro y hy
    obtain ⟨x, hx, rfl⟩ := List.mem_map.mp hy
    have hmem := List.mem_map_of_mem (f := TraceRecord.key) (List.mem_of_mem_filter hx)
    exact Nat.lt_succ_of_le (List.le_max_of_le hmem le_rfl)

/-- The packed cells are `int64` in the source; the times and keys of a trace keep them there. -/
theorem base_lt (files : List (List TraceRecord)) {initA b : ℕ}
    (hb : b ∈ (u.readTrace files).base initA) : b < 2 ^ 63 := by
  rw [ReadTrace.base, mem_sortUnique] at hb
  obtain ⟨y, hy, rfl⟩ := List.mem_map.mp hb
  obtain ⟨x, hx, rfl⟩ := List.mem_map.mp hy
  have hslot : u.args.slotOf x < 2 ^ 32 := lt_of_le_of_lt (Nat.div_le_self _ _) x.tMs_lt
  have hrid : x.key / initA < 2 ^ 30 := lt_of_le_of_lt (Nat.div_le_self _ _) x.key_lt
  have hcols : (u.readTrace files).nBase initA ≤ 2 ^ 30 + 1 :=
    Args.nRanges_le { u.args with rangeSize := initA } (files.map load).flatten
  show u.args.slotOf x * (u.readTrace files).nBase initA + x.key / initA < 2 ^ 63
  calc u.args.slotOf x * (u.readTrace files).nBase initA + x.key / initA
      < 2 ^ 32 * (2 ^ 30 + 1) + 2 ^ 30 :=
        Nat.add_lt_add_of_le_of_lt (Nat.mul_le_mul hslot.le hcols) hrid
    _ ≤ 2 ^ 63 := by norm_num

end Setup

/-- **Counts derived from the finest matrix are exact.** `zeros_for` counts the cells without a
    read, in all slots and in all columns up to that of the end of the key space. -/
theorem zerosFor_exact (t : ReadTrace) (initA a : ℕ) (ha : initA ∣ a) :
    t.zerosFor initA a =
      some ((((Finset.range t.nSlots ×ˢ Finset.range (t.keySpace / a + 1)).filter fun c =>
        ∀ x ∈ t.reads, ¬ (x.1 = c.1 ∧ x.2 / a = c.2)).card : ℤ), t.keySpace / a + 1) :=
  t.zerosFor_of_dvd ha

/-- Two reads in one slot and one in the next, of ten keys. -/
def threeReads : ReadTrace where
  nSlots := 2
  keySpace := 10
  reads := [(0, 1), (0, 2), (1, 9)]
  slot_lt := by decide
  key_lt := by decide

theorem zerosFor_exact_threeReads : threeReads.zerosFor 2 4 = some (4, 3) := by
  have h := zerosFor_exact threeReads 2 4 (by decide)
  exact h.trans (by decide +kernel)

/-- **What is selected.** Both loops end, and the size is the one the doubling stopped at, or a
    candidate that passes.  It is the largest candidate that passes, or the one of the doubling if
    there is none, exactly if the bisection does not meet a failing candidate on its way there. -/
theorem selectKeyRange_spec (t : ReadTrace) (initA : ℕ) (hinit : 1 ≤ initA) (alpha : ℚ)
    (minRanges : ℤ) :
    ∃ a A, (∀ n, t.keySpace + 1 < n →
        t.doubling initA alpha minRanges n = .ret (a, ((t.emptyCells a).card : ℤ)) ∧
        t.selectKeyRange initA alpha minRanges n = .ret A) ∧
      (A = a ∨ A ∈ t.passing initA alpha minRanges a) ∧
      ((A = a ∧ t.passing initA alpha minRanges a = ∅ ∨
          A ∈ t.passing initA alpha minRanges a ∧
            ∀ B ∈ t.passing initA alpha minRanges a, B ≤ A) ↔
        t.WayOpen initA alpha minRanges a) := by
  obtain ⟨a, ha, hle, hdouble⟩ := t.doubling_spec hinit alpha minRanges
  obtain ⟨A, hloop, hsound, hlargest⟩ := t.bisection_passing hinit alpha minRanges ha hle
  refine ⟨a, A, fun n hn => ⟨hdouble n (by omega), ?_⟩, hsound, hlargest⟩
  unfold ReadTrace.selectKeyRange
  rw [hdouble n (by omega)]
  exact hloop n hn

/-- One slot with reads of the keys 4 and 5. -/
def lateReads : ReadTrace where
  nSlots := 1
  keySpace := 6
  reads := [(0, 4), (0, 5)]
  slot_lt := by decide
  key_lt := by decide

/-- Doubling stops at 4.  Size 5 cuts between the two keys and fails, size 6 passes; the bisection
    starts in the middle and does not look above 5. -/
theorem selectKeyRange_lateReads :
    lateReads.doubling 1 (1 / 2) 1 8 = .ret (4, 1) ∧
      lateReads.selectKeyRange 1 (1 / 2) 1 8 = .ret 4 ∧
      lateReads.passing 1 (1 / 2) 1 4 = {4, 6} := by
  decide +kernel

/-- One slot with reads of the keys 8 and 9. -/
def laterReads : ReadTrace where
  nSlots := 1
  keySpace := 12
  reads := [(0, 8), (0, 9)]
  slot_lt := by decide
  key_lt := by decide

/-- Size 9 fails below three that pass, and the bisection from 8 to 12 does not test it. -/
theorem selectKeyRange_spec_laterReads :
    laterReads.passing 1 (1 / 2) 1 8 = {8, 10, 11, 12} ∧
      laterReads.selectKeyRange 1 (1 / 2) 1 14 = .ret 12 := by
  obtain ⟨a, A, hret, -, hlargest⟩ := selectKeyRange_spec laterReads 1 le_rfl (1 / 2) 1
  obtain ⟨hdouble, hselect⟩ := hret 14 (by decide)
  have hstop : laterReads.doubling 1 (1 / 2) 1 14 = .ret (8, 1) := by decide +kernel
  rw [hstop, Outcome.ret.injEq, Prod.mk.injEq] at hdouble
  obtain ⟨rfl, -⟩ := hdouble
  have hpassing : laterReads.passing 1 (1 / 2) 1 8 = {8, 10, 11, 12} := by decide +kernel
  refine ⟨hpassing, ?_⟩
  have hway : laterReads.WayOpen 1 (1 / 2) 1 8 := by decide +kernel
  rw [hselect]
  rcases hlargest.mpr hway with ⟨-, hempty⟩ | ⟨hmem, hle⟩
  · exact absurd hempty (by rw [hpassing]; decide)
  · rw [hpassing] at hmem hle
    have hmax := hle 12 (by decide)
    have hmem : A = 8 ∨ A = 10 ∨ A = 11 ∨ A = 12 := by simpa using hmem
    congr 1
    omega

end Leaper.Train
