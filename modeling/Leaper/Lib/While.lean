import Mathlib.Data.Fintype.Order
import Mathlib.Logic.Relation

namespace Lib

/-!
# Loops that may fail and may not end

The body of a loop takes a state to the next one, leaves with a result, or fails.  `loop` runs
it for a number of turns; a loop that is still running is told apart from one that has failed.

* `loop_of_reaches`, `loop_reaches` — a state on the way ends as the loop does;
* `loop_running_of_cycle` — a state that comes back is never left;
* `exists_loop_ne_running` — with finitely many states on the way and none coming back, the loop
  ends;
* `exists_loop_ret` — with an invariant and a measure that every turn lowers, it returns.
-/

/-- What the body of a loop does to a state. -/
inductive Step (σ ρ : Type*)
  | next (s : σ)
  | ret (r : ρ)
  | fail
  deriving DecidableEq, Repr

/-- What a loop has come to. -/
inductive Outcome (ρ : Type*)
  | ret (r : ρ)
  | fail
  | running
  deriving DecidableEq, Repr

variable {σ ρ : Type*} (step : σ → Step σ ρ)

/-- The loop after at most so many turns. -/
def loop : ℕ → σ → Outcome ρ
  | 0, _ => .running
  | n + 1, s =>
    match step s with
    | .next s' => loop n s'
    | .ret r => .ret r
    | .fail => .fail

/-- One turn that does not end the loop. -/
def Goes (s s' : σ) : Prop := step s = .next s'

/-- The states on the way from `s`. -/
def Reaches : σ → σ → Prop := Relation.ReflTransGen (Goes step)

variable {step} {s s' : σ} {o : Outcome ρ} {n : ℕ}

theorem loop_succ_of_goes (h : Goes step s s') : loop step (n + 1) s = loop step n s' := by
  rw [loop, h]

theorem Goes.unique {s'' : σ} (h : Goes step s s') (h' : Goes step s s'') : s' = s'' :=
  Step.next.inj (h.symm.trans h')

/-- More turns do not change an outcome. -/
theorem loop_mono (h : loop step n s = o) (ho : o ≠ .running) {m : ℕ} (hm : n ≤ m) :
    loop step m s = o := by
  induction n generalizing s m with
  | zero => exact absurd h.symm ho
  | succ n ih =>
    obtain ⟨m, rfl⟩ : ∃ k, m = k + 1 := ⟨m - 1, by omega⟩
    rw [loop] at h ⊢
    cases hs : step s with
    | next s' =>
      rw [hs] at h
      exact ih h (by omega)
    | ret r => rw [hs] at h; exact h
    | fail => rw [hs] at h; exact h

/-- A loop comes to one outcome only. -/
theorem loop_unique {o' : Outcome ρ} {m : ℕ} (h : loop step n s = o) (ho : o ≠ .running)
    (h' : loop step m s = o') (ho' : o' ≠ .running) : o = o' := by
  rw [← loop_mono h ho (le_max_left n m), ← loop_mono h' ho' (le_max_right n m)]

/-- What a state on the way ends in, the loop ends in. -/
theorem loop_of_reaches (h : Reaches step s s') (hn : loop step n s' = o) :
    ∃ m, loop step m s = o := by
  induction h using Relation.ReflTransGen.head_induction_on with
  | refl => exact ⟨n, hn⟩
  | head hgo _ ih =>
    obtain ⟨m, hm⟩ := ih
    exact ⟨m + 1, (loop_succ_of_goes hgo).trans hm⟩

/-- What the loop ends in, every state on the way ends in. -/
theorem loop_reaches (h : Reaches step s s') (hn : loop step n s = o) (ho : o ≠ .running) :
    ∃ m, loop step m s' = o := by
  induction h using Relation.ReflTransGen.head_induction_on generalizing n with
  | refl => exact ⟨n, hn⟩
  | head hgo _ ih =>
    cases n with
    | zero => exact absurd hn.symm ho
    | succ n =>
      rw [loop_succ_of_goes hgo] at hn
      exact ih hn

/-- A loop that has ended did so in a state on the way. -/
theorem exists_reaches_of_loop (hn : loop step n s = o) (ho : o ≠ .running) :
    ∃ s', Reaches step s s' ∧ loop step 1 s' = o := by
  induction n generalizing s with
  | zero => exact absurd hn.symm ho
  | succ n ih =>
    cases hs : step s with
    | next s' =>
      rw [loop_succ_of_goes hs] at hn
      obtain ⟨s'', hreach, hend⟩ := ih hn
      exact ⟨s'', hreach.head hs, hend⟩
    | ret r => exact ⟨s, Relation.ReflTransGen.refl, by rw [loop, hs] at hn ⊢; exact hn⟩
    | fail => exact ⟨s, Relation.ReflTransGen.refl, by rw [loop, hs] at hn ⊢; exact hn⟩

/-- **A state that comes back is never left.** -/
theorem loop_running_of_cycle (h : Relation.TransGen (Goes step) s s) :
    loop step n s = .running := by
  induction n generalizing s with
  | zero => rfl
  | succ n ih =>
    -- the state after the first turn lies on the cycle too
    obtain ⟨s', hgo, hback⟩ := Relation.TransGen.head'_iff.mp h
    rw [loop_succ_of_goes hgo]
    exact ih (Relation.TransGen.tail' hback hgo)

/-- **A loop ends if it has finitely many states to go through and none comes back.** -/
theorem exists_loop_ne_running (hfin : {s' | Reaches step s s'}.Finite)
    (hacyclic : ∀ s', Reaches step s s' → ¬ Relation.TransGen (Goes step) s' s') :
    ∃ n, loop step n s ≠ .running := by
  -- going back along the way is well-founded on the states that are reached
  have : Finite {s' // Reaches step s s'} := hfin
  let back : {s' // Reaches step s s'} → {s' // Reaches step s s'} → Prop :=
    fun a b => Relation.TransGen (Goes step) b.1 a.1
  have : IsTrans _ back := ⟨fun _ _ _ hab hbc => hbc.trans hab⟩
  have : Std.Irrefl back := ⟨fun a => hacyclic a.1 a.2⟩
  have hwf : WellFounded back := Finite.wellFounded_of_trans_of_irrefl back
  suffices h : ∀ a : {s' // Reaches step s s'}, ∃ n, loop step n a.1 ≠ .running from
    h ⟨s, Relation.ReflTransGen.refl⟩
  intro a
  induction a using hwf.induction with
  | _ a ih =>
    cases hs : step a.1 with
    | next s' =>
      obtain ⟨n, hn⟩ := ih ⟨s', a.2.tail hs⟩ (Relation.TransGen.single hs)
      refine ⟨n + 1, ?_⟩
      rw [loop_succ_of_goes hs]
      exact hn
    | ret r => exact ⟨1, by simp [loop, hs]⟩
    | fail => exact ⟨1, by simp [loop, hs]⟩

/-- What a turn comes to: it goes on in a good state or returns a good result. -/
def Step.Post (next : σ → Prop) (ret : ρ → Prop) : Step σ ρ → Prop
  | .next s => next s
  | .ret r => ret r
  | .fail => False

/-- **The rule for a loop that returns.** Every turn keeps an invariant and lowers a measure, or
    returns what is wanted.  The induction is on the measure. -/
theorem exists_loop_ret {Inv : σ → Prop} {Q : ρ → Prop} (μ : σ → ℕ)
    (hstep : ∀ s, Inv s → (step s).Post (fun s' => Inv s' ∧ μ s' < μ s) Q) (hs : Inv s) :
    ∃ r, Q r ∧ ∀ n, μ s < n → loop step n s = .ret r := by
  induction hm : μ s using Nat.strong_induction_on generalizing s with
  | _ m ih =>
    subst hm
    have hpost := hstep s hs
    cases hturn : step s with
    | next s' =>
      rw [hturn] at hpost
      obtain ⟨r, hr, hloop⟩ := ih (μ s') hpost.2 hpost.1 rfl
      refine ⟨r, hr, fun n hn => ?_⟩
      obtain ⟨k, rfl⟩ : ∃ k, n = k + 1 := ⟨n - 1, by omega⟩
      have hlt := hpost.2
      rw [loop_succ_of_goes hturn]
      exact hloop k (by omega)
    | ret r =>
      rw [hturn] at hpost
      refine ⟨r, hpost, fun n hn => ?_⟩
      obtain ⟨k, rfl⟩ : ∃ k, n = k + 1 := ⟨n - 1, by omega⟩
      rw [loop, hturn]
    | fail =>
      rw [hturn] at hpost
      exact hpost.elim

end Lib
