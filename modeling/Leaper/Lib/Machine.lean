import Mathlib.Data.List.Basic

namespace Lib

/-!
# Deterministic machines, their environments, and their proof rules

A machine is a function `step : σ → ε → σ × ω`: it consumes an event and answers with
an output.  `run` and `outs` are the state and the outputs of a whole word of events.

What the caller of a machine promises is an automaton of its own, an `Env`: `ok g e`
says that event `e` may come now, `next g e` is what the environment knows afterwards.
A clock that never goes back, a nesting depth, the set of open identifiers are all
environments.  Three rules package the inductions over words:

* `run_keeps` — what every step keeps holds after every word, and `run_refines`, `outs_eq_of_step`
  for a relation to an abstract run or to another machine;
* `Env.run_invariant` — a relation between environment and machine that every admitted
  step keeps holds after every admitted word;
* `Env.outs_eq` — a relation between two machines that every admitted step keeps, with
  equal outputs, gives equal output words.

A specification often needs a record of what happened so far: a watcher folds the events
and outputs of a run into a state of its own (`watch`), and `Env.watch_invariant` is the
invariant rule for machine and watcher together.
-/

variable {σ σ' ε ω γ τ : Type*}

/-- The state after a word of events. -/
def run (step : σ → ε → σ × ω) : σ → List ε → σ
  | s, [] => s
  | s, e :: es => run step (step s e).1 es

/-- The outputs along a word of events, one for each event. -/
def outs (step : σ → ε → σ × ω) : σ → List ε → List ω
  | _, [] => []
  | s, e :: es => (step s e).2 :: outs step (step s e).1 es

section Run

variable (step : σ → ε → σ × ω)

@[simp] theorem run_nil (s : σ) : run step s [] = s := rfl

@[simp] theorem run_cons (s : σ) (e : ε) (es : List ε) :
    run step s (e :: es) = run step (step s e).1 es := rfl

@[simp] theorem outs_nil (s : σ) : outs step s [] = [] := rfl

@[simp] theorem outs_cons (s : σ) (e : ε) (es : List ε) :
    outs step s (e :: es) = (step s e).2 :: outs step (step s e).1 es := rfl

/-- A run of two words is the run of the second from where the first ended. -/
theorem run_append (s : σ) (es fs : List ε) :
    run step s (es ++ fs) = run step (run step s es) fs := by
  induction es generalizing s with
  | nil => rfl
  | cons e es ih => exact ih (step s e).1

/-- The outputs of two words are those of the first, then those of the second. -/
theorem outs_append (s : σ) (es fs : List ε) :
    outs step s (es ++ fs) = outs step s es ++ outs step (run step s es) fs := by
  induction es generalizing s with
  | nil => rfl
  | cons e es ih => exact congrArg _ (ih (step s e).1)

variable {step} in
/-- What every step keeps holds after every word. -/
theorem run_keeps {P : σ → Prop} (hstep : ∀ s e, P s → P (step s e).1) (es : List ε) {s : σ}
    (h : P s) : P (run step s es) := by
  induction es generalizing s with
  | nil => exact h
  | cons e es ih => exact ih (hstep s e h)

variable {step} in
/-- **Refinement rule.** A relation to an abstract state, folded over the same events, that every
    step keeps holds after every word. -/
theorem run_refines {f : τ → ε → τ} {R : σ → τ → Prop}
    (hstep : ∀ s t e, R s t → R (step s e).1 (f t e)) (es : List ε) {s : σ} {t : τ} (h : R s t) :
    R (run step s es) (es.foldl f t) := by
  induction es generalizing s t with
  | nil => exact h
  | cons e es ih => exact ih (hstep s t e h)

variable {step} in
/-- A relation between two machines that every step keeps, with equal outputs, gives equal output
    words. -/
theorem outs_eq_of_step {step' : σ' → ε → σ' × ω} {R : σ → σ' → Prop}
    (hstep : ∀ s s' e, R s s' → R (step s e).1 (step' s' e).1 ∧ (step s e).2 = (step' s' e).2)
    (es : List ε) {s : σ} {s' : σ'} (h : R s s') : outs step s es = outs step' s' es := by
  induction es generalizing s s' with
  | nil => rfl
  | cons e es ih =>
    obtain ⟨hR, hout⟩ := hstep s s' e h
    rw [outs_cons, outs_cons, hout, ih hR]

/-- What a watcher has recorded after a word: `note t e o` is its record `t` after event
    `e` was answered by `o`. -/
def watch (note : τ → ε → ω → τ) : σ → τ → List ε → τ
  | _, t, [] => t
  | s, t, e :: es => watch note (step s e).1 (note t e (step s e).2) es

@[simp] theorem watch_nil (note : τ → ε → ω → τ) (s : σ) (t : τ) :
    watch step note s t [] = t := rfl

/-- The observer notes the first step and then follows the rest. -/
@[simp] theorem watch_cons (note : τ → ε → ω → τ) (s : σ) (t : τ) (e : ε) (es : List ε) :
    watch step note s t (e :: es) =
      watch step note (step s e).1 (note t e (step s e).2) es := rfl

/-- What every step keeps of machine and watcher holds after every word. -/
theorem watch_keeps (note : τ → ε → ω → τ) {P : σ → τ → Prop}
    (hstep : ∀ s t e, P s t → P (step s e).1 (note t e (step s e).2)) (es : List ε) {s : σ} {t : τ}
    (h : P s t) : P (run step s es) (watch step note s t es) := by
  induction es generalizing s t with
  | nil => exact h
  | cons e es ih => exact ih (hstep s t e h)

end Run

/-! ### Environments -/

/-- What the caller of a machine promises: which events may come (`ok`), and what is
    known after one (`next`). -/
structure Env (γ ε : Type*) where
  ok : γ → ε → Prop
  next : γ → ε → γ

namespace Env

variable (E : Env γ ε)

/-- Every event of the word is admitted where it comes. -/
def Accepts : γ → List ε → Prop
  | _, [] => True
  | g, e :: es => E.ok g e ∧ Accepts (E.next g e) es

/-- What the environment knows after a word. -/
def after : γ → List ε → γ
  | g, [] => g
  | g, e :: es => after (E.next g e) es

@[simp] theorem accepts_nil (g : γ) : E.Accepts g [] := trivial

/-- An environment accepts a word if it accepts the first event and, from where that leaves it, the
    rest. -/
@[simp] theorem accepts_cons (g : γ) (e : ε) (es : List ε) :
    E.Accepts g (e :: es) ↔ E.ok g e ∧ E.Accepts (E.next g e) es := Iff.rfl

@[simp] theorem after_nil (g : γ) : E.after g [] = g := rfl

@[simp] theorem after_cons (g : γ) (e : ε) (es : List ε) :
    E.after g (e :: es) = E.after (E.next g e) es := rfl

instance decidableAccepts [∀ g e, Decidable (E.ok g e)] :
    ∀ (g : γ) (es : List ε), Decidable (E.Accepts g es)
  | _, [] => isTrue trivial
  | g, e :: es =>
    haveI := decidableAccepts (E.next g e) es
    inferInstanceAs (Decidable (E.ok g e ∧ E.Accepts (E.next g e) es))

/-- **Invariant rule.** A relation between environment and state that every admitted
    step keeps holds after every admitted word. -/
theorem run_invariant {step : σ → ε → σ × ω} {P : γ → σ → Prop}
    (hstep : ∀ g s e, E.ok g e → P g s → P (E.next g e) (step s e).1)
    {g : γ} {s : σ} {es : List ε} (hacc : E.Accepts g es) (h : P g s) :
    P (E.after g es) (run step s es) := by
  induction es generalizing g s with
  | nil => exact h
  | cons e es ih => exact ih hacc.2 (hstep g s e hacc.1 h)

/-- **Invariant rule for a watched machine.** -/
theorem watch_invariant {step : σ → ε → σ × ω} {note : τ → ε → ω → τ} {P : γ → σ → τ → Prop}
    (hstep : ∀ g s t e, E.ok g e → P g s t →
      P (E.next g e) (step s e).1 (note t e (step s e).2))
    {g : γ} {s : σ} {t : τ} {es : List ε} (hacc : E.Accepts g es) (h : P g s t) :
    P (E.after g es) (run step s es) (watch step note s t es) := by
  induction es generalizing g s t with
  | nil => exact h
  | cons e es ih => exact ih hacc.2 (hstep g s t e hacc.1 h)

/-- **Simulation rule.** A relation between two machines that every admitted step keeps,
    with equal outputs, gives equal output words. -/
theorem outs_eq {step : σ → ε → σ × ω} {step' : σ' → ε → σ' × ω} {R : γ → σ → σ' → Prop}
    (hstep : ∀ g s s' e, E.ok g e → R g s s' →
      R (E.next g e) (step s e).1 (step' s' e).1 ∧ (step s e).2 = (step' s' e).2)
    {g : γ} {s : σ} {s' : σ'} {es : List ε} (hacc : E.Accepts g es) (h : R g s s') :
    outs step s es = outs step' s' es := by
  induction es generalizing g s s' with
  | nil => rfl
  | cons e es ih =>
    obtain ⟨hR, hout⟩ := hstep g s s' e hacc.1 h
    rw [outs_cons, outs_cons, hout, ih hacc.2 hR]

end Env

end Lib
