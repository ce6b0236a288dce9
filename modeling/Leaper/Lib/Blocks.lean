import Mathlib.Data.List.Basic

namespace Lib

/-!
# Cutting a stream into blocks

A writer collects elements into a block until somebody cuts it off; what it remembers of the block
apart from its contents are its first and its last element.

* `Writer` — such a writer; that the two are the block's bounds is part of it;
* `Writer.first_eq`, `Writer.last_eq` — read off for a block that is not empty;
* `between_ends` — in a list that a function maps in order, every element lies between the ends.
-/

variable {κ : Type*}

/-- The block being built, and the two elements remembered. -/
structure Writer (κ : Type*) where
  keys : List κ
  first : κ
  last : κ
  head_eq : ∀ k ∈ keys.head?, k = first
  getLast_eq : ∀ k ∈ keys.getLast?, k = last

namespace Writer

/-- With no keys any `first` will do. -/
theorem head_of_nil (x : κ) : ∀ k ∈ ([] : List κ).head?, k = x := fun _ h => nomatch h

/-- With no keys any `last` will do. -/
theorem getLast_of_nil (x : κ) : ∀ k ∈ ([] : List κ).getLast?, k = x := fun _ h => nomatch h

/-- A writer at the beginning of a block; what it remembers is of the block before. -/
def idle (first last : κ) : Writer κ where
  keys := []
  first := first
  last := last
  head_eq := head_of_nil first
  getLast_eq := getLast_of_nil last

/-- The head of the keys after `add`: the new key if the block was empty, the old `first` if not. -/
theorem head_append (w : Writer κ) (k : κ) :
    ∀ k' ∈ (w.keys ++ [k]).head?, k' = if w.keys.isEmpty then k else w.first := by
  intro k' hk'
  have hhead := w.head_eq
  cases hkeys : w.keys with
  | nil =>
    rw [hkeys] at hk'
    exact (Option.mem_some_iff.mp hk').symm
  | cons x rest =>
    rw [hkeys] at hk' hhead
    exact hhead k' hk'

/-- The last key after `add` is the new one. -/
theorem getLast_append (w : Writer κ) (k : κ) : ∀ k' ∈ (w.keys ++ [k]).getLast?, k' = k := by
  intro k' hk'
  rw [List.getLast?_concat] at hk'
  exact (Option.mem_some_iff.mp hk').symm

/-- One element more. -/
def add (w : Writer κ) (k : κ) : Writer κ where
  keys := w.keys ++ [k]
  first := if w.keys.isEmpty then k else w.first
  last := k
  head_eq := w.head_append k
  getLast_eq := w.getLast_append k

/-- The block is cut off. -/
def cut (w : Writer κ) : Writer κ := idle w.first w.last

@[simp] theorem keys_idle (x y : κ) : (idle x y).keys = [] := rfl

/-- `add` appends the key. -/
@[simp] theorem keys_add (w : Writer κ) (k : κ) : (w.add k).keys = w.keys ++ [k] := rfl

/-- After a cut the block is empty. -/
@[simp] theorem keys_cut (w : Writer κ) : w.cut.keys = [] := rfl

/-- `first` is the first key of a block that has keys. -/
theorem first_eq (w : Writer κ) (h : w.keys ≠ []) : w.first = w.keys.head h :=
  (w.head_eq _ (List.head_mem_head? h)).symm

/-- `last` is the last key of a block that has keys. -/
theorem last_eq (w : Writer κ) (h : w.keys ≠ []) : w.last = w.keys.getLast h :=
  (w.getLast_eq _ (List.getLast_mem_getLast? h)).symm

end Writer

/-- Every element of a list that a function maps in order lies between its ends. -/
theorem between_ends {r : κ → ℕ} {l : List κ} (h : l.Pairwise fun x y => r x ≤ r y) (hne : l ≠ [])
    {k : κ} (hk : k ∈ l) : r (l.head hne) ≤ r k ∧ r k ≤ r (l.getLast hne) := by
  constructor
  · obtain ⟨x, rest, rfl⟩ := List.exists_cons_of_ne_nil hne
    rcases List.mem_cons.mp hk with rfl | hrest
    · exact Nat.le_refl _
    · exact List.rel_of_pairwise_cons h hrest
  · rw [← List.dropLast_append_getLast hne] at h hk
    rcases List.mem_append.mp hk with hinit | hlast
    · exact (List.pairwise_append.mp h).2.2 k hinit _ List.mem_cons_self
    · exact Nat.le_of_eq (congrArg r (List.mem_singleton.mp hlast))

end Lib
