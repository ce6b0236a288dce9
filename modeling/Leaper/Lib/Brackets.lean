import Leaper.Lib.Machine

namespace Lib

/-!
# Bracketed words and machines that keep a stack

Events open and close brackets, use the innermost one, or leave all of them alone.  The
environment `brackets` counts the open ones: nothing is closed that is not open.

A machine that keeps a frame for each open bracket is described by the list of its frames,
innermost first (`StackMachine`).  Whatever such a machine does inside brackets, the frames
that were there before stay below (`StackMachine.run_frames`); after a balanced word they
are all there is (`StackMachine.run_balanced`).
-/

/-- What an event does to the brackets. -/
inductive Bracket
  | opens
  | closes
  | uses
  | keeps
  deriving DecidableEq, Repr

variable {σ ε ω φ : Type*}

/-- The number of open brackets after an event. -/
def Bracket.depth (d : ℕ) : Bracket → ℕ
  | .opens => d + 1
  | .closes => d - 1
  | .uses => d
  | .keeps => d

/-- **Bracketing.** Only an open bracket is closed.  With `strict`, only an open bracket is
    used. -/
def brackets (kind : ε → Bracket) (strict : Bool) : Env ℕ ε where
  ok d e := (kind e = .closes → 0 < d) ∧ (strict = true → kind e = .uses → 0 < d)
  next d e := (kind e).depth d

instance (kind : ε → Bracket) (strict : Bool) (d : ℕ) (e : ε) :
    Decidable ((brackets kind strict).ok d e) :=
  inferInstanceAs (Decidable (_ ∧ _))

/-- The machine's list of frames follows the brackets. -/
structure StackMachine (step : σ → ε → σ × ω) (kind : ε → Bracket) (frames : σ → List φ) :
    Prop where
  opens : ∀ s e, kind e = .opens → ∃ f, frames (step s e).1 = f :: frames s
  closes : ∀ s e, kind e = .closes → ∀ f f' fs, frames s = f :: f' :: fs →
    frames (step s e).1 = f' :: fs
  uses : ∀ s e, kind e = .uses → ∀ f fs, frames s = f :: fs →
    ∃ f', frames (step s e).1 = f' :: fs
  keeps : ∀ s e, kind e = .keeps → frames (step s e).1 = frames s

namespace StackMachine

variable {step : σ → ε → σ × ω} {kind : ε → Bracket} {frames : σ → List φ}

/-- One event inside `d` brackets leaves the frames below them. -/
theorem step_frames (h : StackMachine step kind frames) {base : List φ} (hbase : base ≠ [])
    {d : ℕ} {s : σ} {e : ε} (hok : (brackets kind true).ok d e) {pre : List φ}
    (hlen : pre.length = d) (hs : frames s = pre ++ base) :
    ∃ pre', pre'.length = (kind e).depth d ∧ frames (step s e).1 = pre' ++ base := by
  cases hk : kind e with
  | opens =>
    obtain ⟨f, hf⟩ := h.opens s e hk
    exact ⟨f :: pre, by rw [List.length_cons, hlen]; rfl, by rw [hf, hs]; rfl⟩
  | closes =>
    have hpos := hok.1 hk
    obtain ⟨b, bs, hb⟩ := List.exists_cons_of_ne_nil hbase
    -- the frame below the closed one is in `pre`, or it is the top of the base
    cases pre with
    | nil => exact absurd hlen (by simp; omega)
    | cons f pre =>
      refine ⟨pre, by rw [Bracket.depth, ← hlen]; rfl, ?_⟩
      cases pre with
      | nil =>
        rw [h.closes s e hk f b bs (by rw [hs, hb]; rfl), hb]
        rfl
      | cons f' pre => exact h.closes s e hk f f' (pre ++ base) (by rw [hs]; rfl)
  | uses =>
    have hpos := hok.2 rfl hk
    cases pre with
    | nil => exact absurd hlen (by simp; omega)
    | cons f pre =>
      obtain ⟨f', hf'⟩ := h.uses s e hk f (pre ++ base) (by rw [hs]; rfl)
      exact ⟨f' :: pre, hlen, hf'⟩
  | keeps => exact ⟨pre, hlen, by rw [h.keeps s e hk, hs]⟩

/-- **Frames below stay.** After a bracketed word there is one frame for each open bracket,
    on top of the frames there were. -/
theorem run_frames (h : StackMachine step kind frames) {s : σ} (hs : frames s ≠ [])
    {es : List ε} (hacc : (brackets kind true).Accepts 0 es) :
    ∃ pre, pre.length = (brackets kind true).after 0 es ∧
      frames (run step s es) = pre ++ frames s := by
  apply (brackets kind true).run_invariant
    (P := fun d s' => ∃ pre, pre.length = d ∧ frames s' = pre ++ frames s) _ hacc
  · exact ⟨[], rfl, rfl⟩
  · intro d s' e hok hP
    obtain ⟨pre, hlen, hpre⟩ := hP
    exact h.step_frames hs hok hlen hpre

/-- **A balanced word restores the frames.** -/
theorem run_balanced (h : StackMachine step kind frames) {s : σ} (hs : frames s ≠ [])
    {es : List ε} (hacc : (brackets kind true).Accepts 0 es)
    (hbal : (brackets kind true).after 0 es = 0) : frames (run step s es) = frames s := by
  obtain ⟨pre, hlen, hpre⟩ := h.run_frames hs hacc
  rw [hbal] at hlen
  rw [hpre, List.length_eq_zero_iff.mp hlen]
  rfl

end StackMachine

end Lib
