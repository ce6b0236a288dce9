import Mathlib.Algebra.Order.Ring.Nat
import Mathlib.Algebra.BigOperators.Group.List.Basic

namespace Lib

/-!
# Metered operations

A program issues operations one after another, and its surroundings charge each of them, by a
rule it does not know: `cost log op` is what the next operation `op` is charged after the
operations in `log`.  A budget is kept by looking at the meter before every operation.

* `Within B log` — every operation was issued while less than `B` had been charged;
* `Within.issue` — the rule for one more operation;
* `Within.charged_le` — such a log overruns the budget by less than its last operation;
* `GoesOn` — the same program with a larger budget.
-/

variable {α : Type*}

/-- The operations issued so far, each with what it was charged. -/
abbrev Log (α : Type*) := List (α × ℕ)

/-- What has been charged so far. -/
def charged (log : Log α) : ℕ := (log.map (·.2)).sum

/-- Issue one operation. -/
def issue (cost : Log α → α → ℕ) (op : α) (log : Log α) : Log α := log ++ [(op, cost log op)]

@[simp] theorem charged_nil : charged ([] : Log α) = 0 := rfl

/-- Costs add up over logs. -/
theorem charged_append (log log' : Log α) : charged (log ++ log') = charged log + charged log' := by
  simp [charged]

/-- Issuing an operation adds its cost. -/
theorem charged_issue (cost : Log α → α → ℕ) (op : α) (log : Log α) :
    charged (issue cost op log) = charged log + cost log op := by
  rw [issue, charged_append]
  rfl

/-- Logs only grow. -/
theorem prefix_issue (cost : Log α → α → ℕ) (op : α) (log : Log α) : log <+: issue cost op log :=
  List.prefix_append _ _

/-- A run that goes on is charged no less. -/
theorem charged_le_of_prefix {log log' : Log α} (h : log <+: log') :
    charged log ≤ charged log' := by
  obtain ⟨rest, rfl⟩ := h
  rw [charged_append]
  exact Nat.le_add_right _ _

/-- Two runs of one program, the second with more to spend: they are the same if the first was not
    stopped, and otherwise the first is the beginning of the second.  The flags say whether a run
    was stopped. -/
def GoesOn (r r' : Log α × Bool) : Prop := r.2 = false ∧ r' = r ∨ r.2 = true ∧ r.1 <+: r'.1

/-- Every operation was issued while less than `B` had been charged. -/
def Within (B : ℕ) (log : Log α) : Prop :=
  ∀ before x after, log = before ++ x :: after → charged before < B

/-- The empty log is within any bound. -/
theorem within_nil (B : ℕ) : Within B ([] : Log α) := by
  intro before x after h
  exact absurd h (by simp)

/-- **One more operation**, issued below the budget. -/
theorem Within.issue {B : ℕ} {log : Log α} (h : Within B log) (hlt : charged log < B)
    (cost : Log α → α → ℕ) (op : α) : Within B (issue cost op log) := by
  intro before x after heq
  rw [Lib.issue] at heq
  -- the last operation of the log is the new one, all others were there
  rcases List.eq_nil_or_concat after with rfl | ⟨rest, y, rfl⟩
  · have hbefore : log = before := (List.append_inj' heq rfl).1
    rw [← hbefore]
    exact hlt
  · rw [List.concat_eq_append, ← List.cons_append, ← List.append_assoc] at heq
    exact h before x rest (List.append_inj' heq rfl).1

/-- **The overrun**: at most the budget less one, and one operation. -/
theorem Within.charged_le {B : ℕ} {log : Log α} (h : Within B log) :
    log = [] ∨ ∃ x ∈ log, charged log ≤ B - 1 + x.2 := by
  rcases List.eq_nil_or_concat log with rfl | ⟨before, x, rfl⟩
  · exact Or.inl rfl
  · right
    rw [List.concat_eq_append] at h ⊢
    have hlt := h before x [] rfl
    have hx : charged [x] = x.2 := by simp [charged]
    refine ⟨x, by simp, ?_⟩
    rw [charged_append, hx]
    omega

end Lib
