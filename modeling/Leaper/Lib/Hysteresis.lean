import Leaper.Lib.EpochCell
import Leaper.Lib.Machine

namespace Lib

/-!
# Latches with hysteresis

A latch holds a value and takes over another one only after it has come `w` times in a row.  It
remembers the last value and the length of its run, which is a stamped counter (`Lib.touch`).

* `Latch.held_foldl` — the value held is the one of the last position at which a run of length
  `w` ends, or the initial one if there is none;
* `risings` — how often a condition on a machine's state comes to hold along a word.
-/

/-- The positions of a longer word are those before and its end. -/
theorem forall_take_concat {α : Type*} (P : List α → Prop) {vs : List α} {a : α} {i : ℕ}
    (hi : i ≤ vs.length + 1) :
    (∀ j, i ≤ j → j ≤ (vs ++ [a]).length → P ((vs ++ [a]).take j)) ↔
      (∀ j, i ≤ j → j ≤ vs.length → P (vs.take j)) ∧ P (vs ++ [a]) := by
  have htake : ∀ j ≤ vs.length, (vs ++ [a]).take j = vs.take j := fun j hj =>
    List.take_append_of_le_length hj
  have hall : (vs ++ [a]).take (vs.length + 1) = vs ++ [a] := List.take_of_length_le (by simp)
  rw [List.length_append, List.length_singleton]
  constructor
  · intro h
    refine ⟨fun j hij hj => ?_, ?_⟩
    · rw [← htake j hj]
      exact h j hij (by omega)
    · rw [← hall]
      exact h _ hi le_rfl
  · rintro ⟨hbefore, hend⟩ j hij hj
    rcases Nat.lt_or_ge vs.length j with hlt | hle
    · have hj' : j = vs.length + 1 := by omega
      rw [hj', hall]
      exact hend
    · rw [htake j hle]
      exact hbefore j hij hle

section Latch

variable {α : Type*} [DecidableEq α]

/-- The value held, and the last value seen with the length of its run. -/
structure Latch (α : Type*) where
  held : α
  cell : α × ℕ
  deriving DecidableEq, Repr

/-- See one value. -/
def Latch.see (w : ℕ) (x : Latch α) (v : α) : Latch α :=
  { held := if (touch x.cell v).2 < w then x.held else v
    cell := touch x.cell v }

/-- A position at which a run of length `w` ends, and none after it. -/
def LastSteady (w : ℕ) (vs : List α) (v : α) : Prop :=
  ∃ i ≤ vs.length, w ≤ trailing v (vs.take i) ∧
    ∀ j, i < j → j ≤ vs.length → ∀ u, trailing u (vs.take j) < w

/-- No position at which a run of length `w` ends. -/
def NeverSteady (w : ℕ) (vs : List α) : Prop :=
  ∀ j ≤ vs.length, ∀ u, trailing u (vs.take j) < w

variable {w : ℕ} {vs : List α} {a v : α}

theorem neverSteady_concat : NeverSteady w (vs ++ [a]) ↔
    NeverSteady w vs ∧ ∀ u, trailing u (vs ++ [a]) < w := by
  have h := @forall_take_concat α (fun l => ∀ u, trailing u l < w) vs a 0 (Nat.zero_le _)
  simpa only [NeverSteady, Nat.zero_le, true_imp_iff] using h

/-- The last steady position is the end, or the one before it stays the last. -/
theorem lastSteady_concat : LastSteady w (vs ++ [a]) v ↔
    w ≤ trailing v (vs ++ [a]) ∨ LastSteady w vs v ∧ ∀ u, trailing u (vs ++ [a]) < w := by
  have hall : (vs ++ [a]).take (vs.length + 1) = vs ++ [a] := List.take_of_length_le (by simp)
  have hlen : (vs ++ [a]).length = vs.length + 1 := by simp
  constructor
  · rintro ⟨i, hi, hsteady, hlater⟩
    rcases Nat.lt_or_ge vs.length i with hlt | hle
    · have hi' : i = vs.length + 1 := by omega
      rw [hi', hall] at hsteady
      exact .inl hsteady
    · rw [List.take_append_of_le_length hle] at hsteady
      have hlater' := (forall_take_concat (fun l => ∀ u, trailing u l < w)
        (Nat.succ_le_succ hle)).mp hlater
      exact .inr ⟨⟨i, hle, hsteady, hlater'.1⟩, hlater'.2⟩
  · rintro (hend | ⟨⟨i, hi, hsteady, hlater⟩, hend⟩)
    · refine ⟨vs.length + 1, hlen.ge, by rwa [hall], fun j hj hj' => ?_⟩
      omega
    · refine ⟨i, by omega, by rwa [List.take_append_of_le_length hi], ?_⟩
      exact (forall_take_concat (fun l => ∀ u, trailing u l < w)
        (Nat.succ_le_succ hi)).mpr ⟨hlater, hend⟩

/-- Only the last value can end a run. -/
theorem trailing_lt_iff (hw : 1 ≤ w) :
    (∀ u, trailing u (vs ++ [a]) < w) ↔ trailing a (vs ++ [a]) < w := by
  refine ⟨fun h => h a, fun h u => ?_⟩
  by_cases hu : a = u
  · rwa [← hu]
  · rw [trailing_concat, if_neg hu]
    exact hw

/-- The run of the last value. -/
theorem touch_foldl_concat {v₀ : α} :
    touch (vs.foldl touch (v₀, 0)) a = (a, trailing a (vs ++ [a])) := by
  have hread := readAt_foldl_touch (v₀, 0) a (vs ++ [a])
  have hzero : readAt (v₀, 0) a = 0 := by simp [readAt]
  rw [foldl_touch_concat, hzero, ite_self, Nat.add_zero] at hread
  have hstamp : (touch (vs.foldl touch (v₀, 0)) a).1 = a := by
    unfold touch
    split_ifs <;> rfl
  rw [readAt, if_pos hstamp] at hread
  exact Prod.ext hstamp hread

theorem Latch.cell_foldl (x : Latch α) (vs : List α) :
    (vs.foldl (Latch.see w) x).cell = vs.foldl touch x.cell := by
  induction vs generalizing x with
  | nil => rfl
  | cons v vs ih => exact ih (x.see w v)

/-- **What a latch holds** is decided by the last position at which a run is long enough. -/
theorem Latch.held_foldl (hw : 1 ≤ w) (h₀ v₀ : α) (vs : List α) (v : α) :
    (vs.foldl (Latch.see w) ⟨h₀, (v₀, 0)⟩).held = v ↔
      LastSteady w vs v ∨ h₀ = v ∧ NeverSteady w vs := by
  -- on the word from its end: its last value moves the latch, or all stays as it was
  induction vs using List.reverseRecOn with
  | nil =>
    have hzero : ∀ u : α, trailing u [] = 0 := fun u => rfl
    have hnone : ¬ LastSteady w ([] : List α) v := by
      rintro ⟨i, -, hsteady, -⟩
      rw [List.take_nil, hzero] at hsteady
      omega
    have hnever : NeverSteady w ([] : List α) := by
      intro j _ u
      rw [List.take_nil, hzero]
      omega
    simp [hnone, hnever]
  | append_singleton vs a ih =>
    rw [List.foldl_append, List.foldl_cons, List.foldl_nil, lastSteady_concat, neverSteady_concat,
      trailing_lt_iff hw, Latch.see, Latch.cell_foldl, touch_foldl_concat]
    by_cases hshort : trailing a (vs ++ [a]) < w
    · have hnot : ¬ w ≤ trailing v (vs ++ [a]) :=
        Nat.not_le.mpr ((trailing_lt_iff hw).mpr hshort v)
      simp only [hshort, if_true, and_true, hnot, false_or]
      exact ih
    · have hv : w ≤ trailing v (vs ++ [a]) ↔ a = v := by
        rw [trailing_concat]
        by_cases hav : a = v
        · subst hav
          rw [trailing_concat] at hshort
          simpa using hshort
        · rw [if_neg hav]
          exact iff_of_false (by omega) hav
      simp only [hshort, if_false, and_false, or_false]
      exact hv.symm

end Latch

section Risings

variable {σ ε ω : Type*}

/-- How often a condition comes to hold along a word. -/
def risings (step : σ → ε → σ × ω) (p : σ → Bool) : σ → List ε → ℕ
  | _, [] => 0
  | s, e :: es => (if p (step s e).1 && !p s then 1 else 0) + risings step p (step s e).1 es

/-- **A counter that every rising moves by one** counts the risings. -/
theorem counter_eq_risings {step : σ → ε → σ × ω} {p : σ → Bool} {count : σ → ℕ}
    (hstep : ∀ s e, count (step s e).1 = count s + if p (step s e).1 && !p s then 1 else 0)
    (es : List ε) : ∀ s, count (run step s es) = count s + risings step p s es := by
  induction es with
  | nil => exact fun s => rfl
  | cons e es ih =>
    intro s
    rw [run_cons, ih, hstep, risings]
    omega

end Risings

end Lib
