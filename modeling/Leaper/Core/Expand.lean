import Leaper.Core.Types
import Leaper.Lib.SortUnique
import Mathlib.Algebra.Order.BigOperators.Group.List
import Mathlib.Algebra.Order.Ring.Nat

namespace Leaper

open Lib

/-!
# From blocks to candidate ranges

`LeaperImpl::ExpandRanges` lists the range ids of a job's blocks, clamped to the key space
and cut off once more than `kMaxCandidates` ids were pushed.  Below the cut-off:

* `expandPush_eq` — the ids pushed are those of the clamped blocks, one block after another;
* `mem_expandRanges` — the result holds exactly the ids of the blocks.
-/

/-- `kMaxCandidates`. -/
def kMaxCandidates : ℕ := 2 ^ 20

/-- The loop over one block's ids, `for (r = lo; r <= hi; ++r)`.  It stops at the cut-off,
    so `kMaxCandidates + 1` turns are enough; `++r` wraps. -/
def expandLoop : ℕ → ℕ → ℕ → List ℕ → List ℕ
  | 0, _, _, out => out
  | fuel + 1, r, hi, out =>
    if r ≤ hi then
      if kMaxCandidates < (out ++ [r]).length then out ++ [r]
      else expandLoop fuel (u64 (r + 1)) hi (out ++ [r])
    else out

/-- The loop over the blocks: the ids as they are pushed. -/
def expandPush (cap : ℕ) : List BlockRef → List ℕ → List ℕ
  | [], out => out
  | b :: bs, out =>
    let out' := expandLoop (kMaxCandidates + 1) (min b.firstRange cap) (min b.lastRange cap) out
    if kMaxCandidates < out'.length then out' else expandPush cap bs out'

/-- `LeaperImpl::ExpandRanges`; `cap` is `max_range_id`. -/
def expandRanges (cap : ℕ) (blocks : List BlockRef) : List ℕ :=
  sortUnique (expandPush cap blocks [])

/-- The ids of a block after the clamp. -/
def BlockRef.ids (b : BlockRef) (cap : ℕ) : List ℕ :=
  List.range' (min b.firstRange cap) (min b.lastRange cap + 1 - min b.firstRange cap)

theorem BlockRef.mem_ids {b : BlockRef} {cap : ℕ} (hle : b.firstRange ≤ b.lastRange)
    (hcap : b.lastRange ≤ cap) {r : ℕ} : r ∈ b.ids cap ↔ b.Covers r := by
  unfold BlockRef.ids BlockRef.Covers
  rw [List.mem_range'_1, min_eq_left (hle.trans hcap), min_eq_left hcap]
  omega

/-- A loop that stays below the cut-off pushed every id from `r` to `hi`, and nothing wrapped. -/
theorem expandLoop_eq (hi fuel : ℕ) : ∀ r out, kMaxCandidates < fuel + out.length →
    (expandLoop fuel r hi out).length ≤ kMaxCandidates →
    expandLoop fuel r hi out = out ++ List.range' r (hi + 1 - r) := by
  induction fuel with
  | zero =>
    intro r out hfuel hlen
    rw [expandLoop] at hlen
    omega
  | succ fuel ih =>
    intro r out hfuel hlen
    rw [expandLoop] at hlen ⊢
    by_cases hle : r ≤ hi
    · rw [if_pos hle] at hlen ⊢
      by_cases hfull : kMaxCandidates < (out ++ [r]).length
      · rw [if_pos hfull] at hlen
        omega
      · rw [if_neg hfull] at hlen ⊢
        have hlen' : (out ++ [r]).length = out.length + 1 := by simp
        have hrec := ih (u64 (r + 1)) (out ++ [r]) (by omega) hlen
        rw [hrec] at hlen ⊢
        -- a wrapped `r` would have the loop push more than `2^64` ids
        have hwrap : u64 (r + 1) = r + 1 := by
          simp only [List.length_append, List.length_range', kMaxCandidates] at hlen
          unfold u64 at hlen ⊢
          omega
        rw [hwrap, List.append_assoc]
        have hsucc : hi + 1 - r = (hi + 1 - (r + 1)) + 1 := by omega
        rw [hsucc, List.range'_succ]
        rfl
    · rw [if_neg hle]
      have hzero : hi + 1 - r = 0 := by omega
      rw [hzero]
      exact (List.append_nil out).symm

/-- **Below the cut-off every id is pushed.** -/
theorem expandPush_eq_append (cap : ℕ) (blocks : List BlockRef) : ∀ out,
    (expandPush cap blocks out).length ≤ kMaxCandidates →
    expandPush cap blocks out = out ++ blocks.flatMap (·.ids cap) := by
  induction blocks with
  | nil => exact fun out _ => (List.append_nil out).symm
  | cons b bs ih =>
    intro out hlen
    rw [expandPush] at hlen ⊢
    split_ifs at hlen with hfull
    · omega
    · rw [if_neg hfull, ih _ hlen, expandLoop_eq _ _ _ _ (by omega) (not_lt.mp hfull),
        List.append_assoc]
      rfl

theorem expandPush_eq {cap : ℕ} {blocks : List BlockRef}
    (h : (expandPush cap blocks []).length ≤ kMaxCandidates) :
    expandPush cap blocks [] = blocks.flatMap (·.ids cap) :=
  expandPush_eq_append cap blocks [] h

theorem mem_expandRanges {cap : ℕ} {blocks : List BlockRef}
    (h : (expandPush cap blocks []).length ≤ kMaxCandidates)
    (hle : ∀ b ∈ blocks, b.firstRange ≤ b.lastRange) (hcap : ∀ b ∈ blocks, b.lastRange ≤ cap)
    {r : ℕ} : r ∈ expandRanges cap blocks ↔ ∃ b ∈ blocks, b.Covers r := by
  unfold expandRanges
  rw [mem_sortUnique, expandPush_eq h, List.mem_flatMap]
  apply exists_congr
  intro b
  apply and_congr_right
  intro hb
  exact BlockRef.mem_ids (hle b hb) (hcap b hb)

/-! ### When the cut-off is not reached -/

/-- Away from the last 64-bit id nothing wraps, and a loop with few ids stays below. -/
theorem length_expandLoop (hi fuel : ℕ) (hhi : hi + 1 < 2 ^ 64) : ∀ r out,
    (hi + 1 - r) + out.length ≤ kMaxCandidates →
    (expandLoop fuel r hi out).length ≤ (hi + 1 - r) + out.length := by
  induction fuel with
  | zero =>
    intro r out _
    rw [expandLoop]
    omega
  | succ fuel ih =>
    intro r out hsmall
    rw [expandLoop]
    have hlen' : (out ++ [r]).length = out.length + 1 := by simp
    by_cases hle : r ≤ hi
    · rw [if_pos hle, if_neg (by omega)]
      -- the loop variable stays below `hi + 1`, so it does not wrap
      have hwrap : u64 (r + 1) = r + 1 := Nat.mod_eq_of_lt (by omega)
      rw [hwrap]
      exact (ih (r + 1) (out ++ [r]) (by omega)).trans (by omega)
    · rw [if_neg hle]
      omega

/-- The number of ids of the clamped blocks, with repetitions. -/
def idCount (cap : ℕ) (blocks : List BlockRef) : ℕ := (blocks.map fun b => (b.ids cap).length).sum

theorem length_expandPush (cap : ℕ) (blocks : List BlockRef) : ∀ out,
    (∀ b ∈ blocks, min b.lastRange cap + 1 < 2 ^ 64) →
    idCount cap blocks + out.length ≤ kMaxCandidates →
    (expandPush cap blocks out).length ≤ kMaxCandidates := by
  induction blocks with
  | nil => exact fun out _ h => by rw [expandPush]; omega
  | cons b bs ih =>
    intro out hends hsmall
    have hids : (b.ids cap).length = min b.lastRange cap + 1 - min b.firstRange cap :=
      List.length_range'
    have hsum : idCount cap (b :: bs) = (b.ids cap).length + idCount cap bs := by
      simp [idCount]
    have hloop := length_expandLoop (min b.lastRange cap) (kMaxCandidates + 1)
      (hends b List.mem_cons_self) (min b.firstRange cap) out (by omega)
    rw [expandPush, if_neg (by omega)]
    exact ih _ (fun x hx => hends x (List.mem_cons_of_mem _ hx)) (by omega)

/-- **The cut-off in terms of the blocks**: with fewer than `2^64 - 1` ranges, the cut-off is
    reached exactly when the blocks have more than `kMaxCandidates` ids. -/
theorem length_expandPush_iff {cap : ℕ} (hcap : cap + 1 < 2 ^ 64) (blocks : List BlockRef) :
    (expandPush cap blocks []).length ≤ kMaxCandidates ↔ idCount cap blocks ≤ kMaxCandidates := by
  refine ⟨fun h => ?_, fun h => length_expandPush cap blocks []
    (fun b _ => by omega) (by simpa using h)⟩
  rw [expandPush_eq h, List.length_flatMap] at h
  exact h

/-- A loop that reaches the last 64-bit id goes on until the cut-off. -/
theorem expandLoop_end_lt (hi fuel : ℕ) : ∀ r out, kMaxCandidates < fuel + out.length → r ≤ hi →
    (expandLoop fuel r hi out).length ≤ kMaxCandidates → hi + 1 < 2 ^ 64 := by
  induction fuel with
  | zero =>
    intro r out hfuel _ hlen
    rw [expandLoop] at hlen
    omega
  | succ fuel ih =>
    intro r out hfuel hle hlen
    have hlen' : (out ++ [r]).length = out.length + 1 := by simp
    rw [expandLoop, if_pos hle] at hlen
    by_cases hfull : kMaxCandidates < (out ++ [r]).length
    · rw [if_pos hfull] at hlen
      omega
    · rw [if_neg hfull] at hlen
      rcases Nat.lt_or_ge hi (u64 (r + 1)) with hdone | hmore
      · -- the loop is over: its last step did not wrap
        unfold u64 at hdone
        omega
      · exact ih _ _ (by omega) hmore hlen

/-- Below the cut-off no block reaches the last 64-bit id. -/
theorem expandPush_end_lt (cap : ℕ) (blocks : List BlockRef) : ∀ out,
    (∀ b ∈ blocks, b.firstRange ≤ b.lastRange) →
    (expandPush cap blocks out).length ≤ kMaxCandidates →
    ∀ b ∈ blocks, min b.lastRange cap + 1 < 2 ^ 64 := by
  induction blocks with
  | nil => exact fun out _ _ b hb => absurd hb List.not_mem_nil
  | cons b bs ih =>
    intro out hfwd hlen x hx
    rw [expandPush] at hlen
    split_ifs at hlen with hfull
    · omega
    · rcases List.mem_cons.mp hx with rfl | hx
      · have hle := hfwd x List.mem_cons_self
        exact expandLoop_end_lt _ (kMaxCandidates + 1) _ out (by omega) (by omega)
          (not_lt.mp hfull)
      · exact ih _ (fun y hy => hfwd y (List.mem_cons_of_mem _ hy)) hlen x hx

/-- **Fewer blocks push no more**: a part of the blocks stays below the cut-off too. -/
theorem length_expandPush_sublist {cap : ℕ} {part blocks : List BlockRef}
    (hpart : part.Sublist blocks) (hfwd : ∀ b ∈ blocks, b.firstRange ≤ b.lastRange)
    (h : (expandPush cap blocks []).length ≤ kMaxCandidates) :
    (expandPush cap part []).length ≤ kMaxCandidates := by
  have hends := expandPush_end_lt cap blocks [] hfwd h
  have hcount : idCount cap part ≤ idCount cap blocks :=
    (hpart.map _).sum_le_sum fun _ _ => Nat.zero_le _
  have htotal : idCount cap blocks ≤ kMaxCandidates := by
    rw [expandPush_eq h, List.length_flatMap] at h
    exact h
  exact length_expandPush cap part [] (fun b hb => hends b (hpart.subset hb))
    (hcount.trans htotal)

end Leaper
