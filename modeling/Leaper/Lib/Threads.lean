import Mathlib.Algebra.BigOperators.Group.Finset.Basic
import Mathlib.Algebra.Order.BigOperators.Group.Finset
import Mathlib.Data.Fintype.Basic

namespace Lib

/-!
# Threads over a shared state

Each thread has a position `π` in its program; when it is scheduled it takes one indivisible
step, which may change the shared state and moves its own position.  A schedule is the list of
the threads in the order they take their turns, so a statement about all schedules is one about
all interleavings.

* `schedule_invariant` — what every turn keeps holds after every schedule;
* `sum_update` — a quantity summed over the threads changes by what one thread's move changes;
* `rank_schedule` — a rank that falls with a thread's own turns bounds the turns it needs;
* `count_turn` — a shared counter against what the threads have still to count;
* `Gated` — a counter that threads test before they raise it, each in a step of its own.
-/

variable {ι σ π : Type*} [DecidableEq ι]

/-- The shared state and the position of every thread. -/
structure Config (ι σ π : Type*) where
  shared : σ
  pos : ι → π

/-- Thread `t` takes one step. -/
def turn (act : ι → σ → π → σ × π) (c : Config ι σ π) (t : ι) : Config ι σ π :=
  ⟨(act t c.shared (c.pos t)).1, Function.update c.pos t (act t c.shared (c.pos t)).2⟩

/-- The threads take their turns in the given order. -/
def schedule (act : ι → σ → π → σ × π) (c : Config ι σ π) (ts : List ι) : Config ι σ π :=
  ts.foldl (turn act) c

variable {act : ι → σ → π → σ × π}

@[simp] theorem schedule_nil (c : Config ι σ π) : schedule act c [] = c := rfl

@[simp] theorem schedule_cons (c : Config ι σ π) (t : ι) (ts : List ι) :
    schedule act c (t :: ts) = schedule act (turn act c t) ts := rfl

/-- **Invariant rule for schedules.** -/
theorem schedule_invariant {I : Config ι σ π → Prop} (hturn : ∀ c t, I c → I (turn act c t))
    {c : Config ι σ π} (h : I c) (ts : List ι) : I (schedule act c ts) := by
  induction ts generalizing c with
  | nil => exact h
  | cons t ts ih => exact ih (hturn c t h)

/-- One thread's move changes a sum over the threads by the difference it makes. -/
theorem sum_update [Fintype ι] (g : π → ℕ) (pos : ι → π) (t : ι) (p : π) :
    ∑ u, g (Function.update pos t p u) + g (pos t) = ∑ u, g (pos u) + g p := by
  have hrest : ∑ u ∈ Finset.univ.erase t, g (Function.update pos t p u) =
      ∑ u ∈ Finset.univ.erase t, g (pos u) := by
    refine Finset.sum_congr rfl fun u hu => ?_
    rw [Function.update_of_ne (Finset.ne_of_mem_erase hu)]
  have hnew := Finset.sum_erase_add Finset.univ (fun u => g (Function.update pos t p u))
    (Finset.mem_univ t)
  have hold := Finset.sum_erase_add Finset.univ (fun u => g (pos u)) (Finset.mem_univ t)
  rw [hrest, Function.update_self] at hnew
  rw [← hnew, ← hold]
  exact Nat.add_right_comm _ _ _

/-- A rank that falls with every own turn falls with the number of turns. -/
theorem rank_schedule {rank : π → ℕ} (hact : ∀ t s p, rank (act t s p).2 ≤ rank p - 1)
    (c : Config ι σ π) (ts : List ι) (t : ι) :
    rank ((schedule act c ts).pos t) ≤ rank (c.pos t) - ts.count t := by
  induction ts generalizing c with
  | nil => exact le_rfl
  | cons u ts ih =>
    rw [schedule_cons]
    refine (ih (turn act c u)).trans ?_
    by_cases hut : u = t
    · subst hut
      have hown : rank ((turn act c u).pos u) ≤ rank (c.pos u) - 1 := by
        show rank (Function.update c.pos u _ u) ≤ _
        rw [Function.update_self]
        exact hact u _ _
      rw [List.count_cons_self]
      omega
    · have hother : (turn act c u).pos t = c.pos t := Function.update_of_ne (Ne.symm hut) _ _
      rw [hother, List.count_cons_of_ne hut]

/-! ### Counters -/

section Counters

variable [Fintype ι]

/-- **A counter and its threads.** `owed` is what a thread has done and still has to count, `held`
    what it has counted and still has to do; if the books of a turn balance for the thread that
    takes it, they balance for all. -/
theorem count_turn (act : ι → σ → π → σ × π) (count : σ → ℕ) (owed held : π → ℕ)
    {c : Config ι σ π} {t : ι} {n w : ℕ}
    (hown : count (act t c.shared (c.pos t)).1 + owed (act t c.shared (c.pos t)).2 +
        held (c.pos t) =
      count c.shared + owed (c.pos t) + w + held (act t c.shared (c.pos t)).2)
    (h : count c.shared + ∑ u, owed (c.pos u) = n + ∑ u, held (c.pos u)) :
    count (turn act c t).shared + ∑ u, owed ((turn act c t).pos u) =
      n + w + ∑ u, held ((turn act c t).pos u) := by
  have howed := sum_update owed c.pos t (act t c.shared (c.pos t)).2
  have hheld := sum_update held c.pos t (act t c.shared (c.pos t)).2
  show count (act t c.shared (c.pos t)).1 + ∑ u, owed (Function.update c.pos t _ u) =
    n + w + ∑ u, held (Function.update c.pos t _ u)
  omega

/-- **A gate.** A counter that a thread raises only after it has found it below some bound: it has
    not passed one of the bounds by more than the threads that have tested it. -/
def Gated (bounds : Set ℕ) (n : ℕ) (armed : π → ℕ) (pos : ι → π) : Prop :=
  ∃ b ∈ bounds, n + ∑ u, armed (pos u) ≤ b + (Fintype.card ι - 1)

variable {bounds bounds' : Set ℕ} {n : ℕ} {armed : π → ℕ} {pos : ι → π} {t : ι} {p : π}

omit [DecidableEq ι] in
theorem gated_zero (hb : bounds.Nonempty) (h : ∀ u, armed (pos u) = 0) :
    Gated bounds 0 armed pos := by
  obtain ⟨b, hb⟩ := hb
  refine ⟨b, hb, ?_⟩
  rw [Finset.sum_eq_zero fun u _ => h u]
  exact Nat.zero_le _

omit [DecidableEq ι] in
theorem Gated.mono (h : Gated bounds n armed pos) (hsub : bounds ⊆ bounds') :
    Gated bounds' n armed pos := by
  obtain ⟨b, hb, hle⟩ := h
  exact ⟨b, hsub hb, hle⟩

/-- A turn that does not arm its thread, or raises the counter and disarms it. -/
theorem Gated.move (h : Gated bounds n armed pos) {n' : ℕ}
    (hown : n' + armed p ≤ n + armed (pos t)) :
    Gated bounds n' armed (Function.update pos t p) := by
  obtain ⟨b, hb, hle⟩ := h
  have hsum := sum_update armed pos t p
  exact ⟨b, hb, by omega⟩

/-- A thread finds the counter below a bound. -/
theorem Gated.arm (hone : ∀ q, armed q ≤ 1) (hidle : armed (pos t) = 0) {b : ℕ} (hb : b ∈ bounds)
    (hbelow : n < b) : Gated bounds n armed (Function.update pos t p) := by
  have hlt := Finset.sum_lt_sum (f := fun u => armed (pos u)) (g := fun _ => 1)
    (fun u _ => hone (pos u)) ⟨t, Finset.mem_univ t, by rw [hidle]; exact Nat.one_pos⟩
  rw [← Finset.card_eq_sum_ones, Finset.card_univ] at hlt
  have hsum := sum_update armed pos t p
  have hnew := hone p
  exact ⟨b, hb, by omega⟩

omit [DecidableEq ι] in
/-- The counter itself, under a bound on the bounds. -/
theorem Gated.le (h : Gated bounds n armed pos) {B : ℕ} (hB : ∀ b ∈ bounds, b ≤ B) :
    n ≤ B + (Fintype.card ι - 1) := by
  obtain ⟨b, hb, hle⟩ := h
  have := hB b hb
  omega

end Counters

end Lib
