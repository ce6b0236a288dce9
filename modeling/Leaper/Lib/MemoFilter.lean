import Leaper.Lib.Tally
import Mathlib.Logic.Function.Basic

namespace Lib

/-!
# Filtering a list through a memo table

A loop goes over a list and keeps the elements a costly test accepts.  With a memo it
first looks the element up, and stores every answer it had to compute.  The table may
hold anything; it is *truthful* when each answer in it is the test's own.

* `out_sweep` — from a truthful table, and also without a memo, the loop is `List.filter`;
* `truthful_sweep` — the table stays truthful;
* `sweepMemo` — with a memo no element is tested that the table knows, and none twice.
-/

variable {α : Type*}

/-- Every stored answer is the one the test would give. -/
def Truthful (table : α → Option Bool) (test : α → Bool) : Prop :=
  ∀ a b, table a = some b → b = test a

/-- An empty table says nothing wrong. -/
theorem truthful_empty (test : α → Bool) : Truthful (fun _ => none) test := by
  intro a b h
  cases h

/-- The loop's variables: what is kept, the table, the cost of the tests made, the answers
    taken from the table. -/
structure Sweep (α : Type*) where
  out : List α := []
  table : α → Option Bool := fun _ => none
  cost : ℕ := 0
  hits : ℕ := 0

variable [DecidableEq α]

/-- One turn of the loop; `score a` is the answer for `a` and what it cost. -/
def sweepStep (useMemo : Bool) (score : α → Bool × ℕ) (st : Sweep α) (a : α) : Sweep α :=
  match if useMemo then st.table a else none with
  | some b =>
    { st with out := if b then st.out ++ [a] else st.out, hits := st.hits + 1 }
  | none =>
    { out := if (score a).1 then st.out ++ [a] else st.out
      table := if useMemo then Function.update st.table a (some (score a).1) else st.table
      cost := st.cost + (score a).2
      hits := st.hits }

/-- The whole loop, from a given table. -/
def sweep (useMemo : Bool) (score : α → Bool × ℕ) (table : α → Option Bool) (as : List α) :
    Sweep α :=
  as.foldl (sweepStep useMemo score) { table := table }

/-- Entering the test's own result keeps the table truthful. -/
theorem Truthful.update {table : α → Option Bool} {test : α → Bool} (h : Truthful table test)
    (a : α) : Truthful (Function.update table a (some (test a))) test := by
  intro x b hx
  by_cases hxa : x = a
  · subst hxa
    rw [Function.update_self] at hx
    exact (Option.some.inj hx).symm
  · rw [Function.update_of_ne hxa] at hx
    exact h x b hx

section Step

variable {useMemo : Bool} {score : α → Bool × ℕ} {st : Sweep α}

/-- A turn keeps exactly what the test accepts. -/
theorem out_sweepStep (h : Truthful st.table fun a => (score a).1) (a : α) :
    (sweepStep useMemo score st a).out = if (score a).1 then st.out ++ [a] else st.out := by
  unfold sweepStep
  split
  · next b hb =>
    -- an answer from the table is the test's answer
    have hstored : st.table a = some b := by
      cases useMemo with
      | false => cases hb
      | true => exact hb
    have hb' : b = (score a).1 := h a b hstored
    rw [hb']
  · rfl

/-- One step of the sweep keeps the table truthful, with or without the memo. -/
theorem truthful_sweepStep (h : Truthful st.table fun a => (score a).1) (a : α) :
    Truthful (sweepStep useMemo score st a).table fun a => (score a).1 := by
  unfold sweepStep
  split
  · exact h
  · cases useMemo with
    | false => exact h
    | true => exact h.update a

end Step

/-- The loop: from a truthful table the output grows by exactly the elements that pass, and the
    table stays truthful. -/
theorem foldl_sweepStep {useMemo : Bool} {score : α → Bool × ℕ} (as : List α) :
    ∀ st : Sweep α, Truthful st.table (fun a => (score a).1) →
      (as.foldl (sweepStep useMemo score) st).out
        = st.out ++ as.filter (fun a => (score a).1) ∧
      Truthful (as.foldl (sweepStep useMemo score) st).table fun a => (score a).1 := by
  induction as with
  | nil => exact fun st h => ⟨(List.append_nil _).symm, h⟩
  | cons a as ih =>
    intro st h
    obtain ⟨hout, htab⟩ := ih (sweepStep useMemo score st a) (truthful_sweepStep h a)
    refine ⟨?_, htab⟩
    rw [List.foldl_cons, hout, out_sweepStep h a, List.filter_cons]
    cases (score a).1 with
    | false => rfl
    | true => exact List.append_assoc _ _ _

/-- **A memo does not change the answer.** -/
theorem out_sweep {useMemo : Bool} {score : α → Bool × ℕ} {table : α → Option Bool}
    (h : Truthful table fun a => (score a).1) (as : List α) :
    (sweep useMemo score table as).out = as.filter fun a => (score a).1 :=
  (foldl_sweepStep as _ h).1

/-- The table that a sweep leaves can be used by the next one. -/
theorem truthful_sweep {useMemo : Bool} {score : α → Bool × ℕ} {table : α → Option Bool}
    (h : Truthful table fun a => (score a).1) (as : List α) :
    Truthful (sweep useMemo score table as).table fun a => (score a).1 :=
  (foldl_sweepStep as _ h).2

/-! ### What a memo saves -/

/-- The elements the loop tests, from given variables on: those it does not look up. -/
def testedFrom (useMemo : Bool) (score : α → Bool × ℕ) : Sweep α → List α → List α
  | _, [] => []
  | st, a :: as =>
    match if useMemo then st.table a else none with
    | some _ => testedFrom useMemo score (sweepStep useMemo score st a) as
    | none => a :: testedFrom useMemo score (sweepStep useMemo score st a) as

/-- What the loop does with the elements it tests, and with the others. -/
structure SweepMemo (score : α → Bool × ℕ) (st : Sweep α) (as : List α) : Prop where
  nodup : (testedFrom true score st as).Nodup
  unknown : ∀ a ∈ testedFrom true score st as, a ∈ as ∧ st.table a = none
  table : ∀ a, (as.foldl (sweepStep true score) st).table a = none ↔ st.table a = none ∧ a ∉ as
  cost : (as.foldl (sweepStep true score) st).cost =
    st.cost + tally (fun a => (score a).2) (testedFrom true score st as)
  hits : (as.foldl (sweepStep true score) st).hits + (testedFrom true score st as).length =
    st.hits + as.length

/-- An element the table knows. -/
theorem SweepMemo.cons_known {score : α → Bool × ℕ} {st : Sweep α} {a : α} {as : List α} {b : Bool}
    (hknown : st.table a = some b) (h : SweepMemo score (sweepStep true score st a) as) :
    SweepMemo score st (a :: as) := by
  have hstep : sweepStep true score st a =
      { st with out := if b then st.out ++ [a] else st.out, hits := st.hits + 1 } := by
    simp only [sweepStep, if_true, hknown]
  have htested : testedFrom true score st (a :: as) =
      testedFrom true score (sweepStep true score st a) as := by
    simp only [testedFrom, if_true, hknown]
  have htable : (sweepStep true score st a).table = st.table := by rw [hstep]
  refine ⟨?_, ?_, fun x => ?_, ?_, ?_⟩
  · rw [htested]
    exact h.nodup
  · intro x hx
    rw [htested] at hx
    obtain ⟨has, hnone⟩ := h.unknown x hx
    exact ⟨List.mem_cons_of_mem a has, htable ▸ hnone⟩
  · rw [List.foldl_cons, h.table x, htable, List.mem_cons, not_or]
    refine ⟨fun ⟨hnone, hnot⟩ => ⟨hnone, ?_, hnot⟩, fun ⟨hnone, _, hnot⟩ => ⟨hnone, hnot⟩⟩
    rintro rfl
    exact Option.some_ne_none b (hknown.symm.trans hnone)
  · rw [List.foldl_cons, htested, h.cost, hstep]
  · have hhits : (sweepStep true score st a).hits = st.hits + 1 := by rw [hstep]
    rw [List.foldl_cons, htested, h.hits, hhits, List.length_cons]
    omega

/-- An element the table does not know is tested and known from then on. -/
theorem SweepMemo.cons_unknown {score : α → Bool × ℕ} {st : Sweep α} {a : α} {as : List α}
    (hknown : st.table a = none) (h : SweepMemo score (sweepStep true score st a) as) :
    SweepMemo score st (a :: as) := by
  have hstep : sweepStep true score st a =
      { out := if (score a).1 then st.out ++ [a] else st.out
        table := Function.update st.table a (some (score a).1)
        cost := st.cost + (score a).2
        hits := st.hits } := by
    simp only [sweepStep, if_true, hknown]
  have htested : testedFrom true score st (a :: as) =
      a :: testedFrom true score (sweepStep true score st a) as := by
    simp only [testedFrom, if_true, hknown]
  have htable : (sweepStep true score st a).table =
      Function.update st.table a (some (score a).1) := by rw [hstep]
  -- what is tested later is not `a`: by then its answer is in the table
  have hnew : ∀ x ∈ testedFrom true score (sweepStep true score st a) as,
      x ∈ as ∧ x ≠ a ∧ st.table x = none := by
    intro x hx
    obtain ⟨has, hnone⟩ := h.unknown x hx
    rw [htable] at hnone
    have hne : x ≠ a := by
      rintro rfl
      exact absurd ((Function.update_self x _ st.table).symm.trans hnone) (Option.some_ne_none _)
    exact ⟨has, hne, (Function.update_of_ne hne _ st.table).symm.trans hnone⟩
  refine ⟨?_, fun x hx => ?_, fun x => ?_, ?_, ?_⟩
  · rw [htested]
    exact List.nodup_cons.mpr ⟨fun hmem => (hnew a hmem).2.1 rfl, h.nodup⟩
  · rw [htested] at hx
    rcases List.mem_cons.mp hx with rfl | hx
    · exact ⟨List.mem_cons_self, hknown⟩
    · exact ⟨List.mem_cons_of_mem a (hnew x hx).1, (hnew x hx).2.2⟩
  · rw [List.foldl_cons, h.table x, htable, List.mem_cons, not_or]
    by_cases hxa : x = a
    · subst hxa
      simp
    · simp only [Function.update_of_ne hxa, hxa, not_false_eq_true, true_and]
  · rw [List.foldl_cons, htested, h.cost, hstep, tally_cons, Nat.add_assoc]
  · have hhits : (sweepStep true score st a).hits = st.hits := by rw [hstep]
    have hrest := h.hits
    rw [List.foldl_cons, htested, List.length_cons, List.length_cons]
    omega

/-- **With a memo** the loop tests elements that the table does not know, each once; afterwards the
    table knows them all. -/
theorem sweepMemo (score : α → Bool × ℕ) (as : List α) : ∀ st : Sweep α,
    SweepMemo score st as := by
  induction as with
  | nil =>
    intro st
    exact ⟨List.nodup_nil, fun a h => absurd h List.not_mem_nil, fun a => by simp, rfl, rfl⟩
  | cons a as ih =>
    intro st
    cases hknown : st.table a with
    | some b => exact .cons_known hknown (ih _)
    | none => exact .cons_unknown hknown (ih _)

end Lib
