import Leaper.Core.Predictor
import Leaper.Lib.Tokens

namespace Leaper

open Lib

/-!
# Reading the precursor and the oracle file

The part of `Predictor::Load` (`leaper/src/predictor.cc`) that reads the precursor table: a
line is a target range and its precursors, at most `gamma` of which are kept; empty lines,
comments and lines without a target or without precursors are skipped.  `LoadOracle`
(`leaper/src/leaper.cc`) reads lines of the same form, a slot and its hot ranges, but keeps all
of them, sorted, and adds to what an earlier line said of the slot.

* `loadPrecursors_lines` — a file of a comment and one line for each target is read back;
* `loadOracle_lines` — so is one line for each slot.
-/

namespace Predictor

/-- What one line of the file does to the table. -/
def loadLine (gamma : ℕ) (table : ℕ → Option (List ℕ)) (line : List Char) : ℕ → Option (List ℕ) :=
  if line = [] ∨ line.head? = some '#' then table
  else
    match extract line with
    | none => table
    | some (target, rest) =>
      if extractUpTo gamma rest = [] then table
      else Function.update table target (some (extractUpTo gamma rest))

/-- The table after the whole file. -/
def loadPrecursors (gamma : ℕ) (text : List Char) : ℕ → Option (List ℕ) :=
  (linesOf text).foldl (loadLine gamma) fun _ => none

/-- A line as the trainer writes it: the target, then its precursors, separated by spaces. -/
def precursorLine (target : ℕ) (ps : List ℕ) : List Char :=
  Nat.toDigits 10 target ++ ' ' :: [' '].intercalate (ps.map (Nat.toDigits 10))

/-- Numbers are printed on one line. -/
theorem newline_notMem_toDigits (n : ℕ) : '\n' ∉ Nat.toDigits 10 n := by
  intro h
  exact absurd (isDigit_toDigits h) (by decide)

/-- A line of the table is one line. -/
theorem newline_notMem_precursorLine (target : ℕ) {ps : List ℕ} (hps : ps ≠ []) :
    '\n' ∉ precursorLine target ps := by
  unfold precursorLine
  rw [space_intercalate hps]
  intro h
  rcases List.mem_append.mp h with h | h
  · exact newline_notMem_toDigits target h
  · obtain ⟨p, -, hp⟩ := List.mem_flatMap.mp h
    rcases List.mem_cons.mp hp with h | h
    · exact absurd h (by decide)
    · exact newline_notMem_toDigits p h

/-- A line begins with a digit, so it is not empty and no comment. -/
theorem precursorLine_not_skipped (target : ℕ) (ps : List ℕ) :
    ¬ (precursorLine target ps = [] ∨ (precursorLine target ps).head? = some '#') := by
  unfold precursorLine
  cases hds : Nat.toDigits 10 target with
  | nil => exact absurd hds (toDigits_ne_nil target)
  | cons c ds =>
    have hc : c ∈ Nat.toDigits 10 target := by rw [hds]; exact List.mem_cons_self
    rintro (h | h)
    · cases h
    · obtain rfl : c = '#' := Option.some.inj h
      exact absurd (isDigit_toDigits hc) (by decide)

/-- The target is read off the front of its line; the rest is for the loop. -/
theorem extract_precursorLine {target : ℕ} {ps : List ℕ} (ht : target < 2 ^ 64) (hne : ps ≠ []) :
    extract (precursorLine target ps)
      = some (target, ps.flatMap fun p => ' ' :: Nat.toDigits 10 p) := by
  have hend : EndsNumber (ps.flatMap fun p => ' ' :: Nat.toDigits 10 p) := by
    rw [← space_intercalate hne]
    exact endsNumber_space _
  unfold precursorLine
  rw [space_intercalate hne]
  exact extract_toDigits ht hend

/-- **A line is read back.** -/
theorem loadLine_precursorLine {gamma target : ℕ} {ps : List ℕ} (ht : target < 2 ^ 64)
    (hne : ps ≠ []) (hps : ∀ p ∈ ps, p < 2 ^ 64) (hlen : ps.length ≤ gamma)
    (table : ℕ → Option (List ℕ)) :
    loadLine gamma table (precursorLine target ps) = Function.update table target (some ps) := by
  unfold loadLine
  rw [if_neg (precursorLine_not_skipped target ps), extract_precursorLine ht hne]
  simp only
  rw [extractUpTo_spaced hps hlen, if_neg hne]

/-- One update for each target. -/
theorem foldl_update_eq (ps : ℕ → List ℕ) (targets : List ℕ) (table : ℕ → Option (List ℕ))
    (x : ℕ) :
    targets.foldl (fun t r => Function.update t r (some (ps r))) table x =
      if x ∈ targets then some (ps x) else table x := by
  induction targets generalizing table with
  | nil => simp
  | cons r targets ih =>
    rw [List.foldl_cons, ih]
    by_cases hx : x ∈ targets
    · rw [if_pos hx, if_pos (List.mem_cons_of_mem _ hx)]
    · rw [if_neg hx]
      by_cases hxr : x = r
      · subst hxr
        rw [if_pos List.mem_cons_self, Function.update_self]
      · rw [if_neg (by simp [hxr, hx]), Function.update_of_ne hxr]

/-- **A file of a comment and one line for each target** is read back as the table it was
    written from. -/
theorem loadPrecursors_lines {gamma : ℕ} {comment : List Char} (hcomment : '\n' ∉ comment)
    (ps : ℕ → List ℕ) {targets : List ℕ}
    (hline : ∀ r ∈ targets, r < 2 ^ 64 ∧ ps r ≠ [] ∧ (∀ p ∈ ps r, p < 2 ^ 64) ∧
      (ps r).length ≤ gamma) :
    loadPrecursors gamma (('#' :: comment) ++ '\n' ::
        targets.flatMap fun r => precursorLine r (ps r) ++ ['\n']) =
      fun x => if x ∈ targets then some (ps x) else none := by
  have hhash : '\n' ∉ '#' :: comment := by simp [hcomment]
  have hlines : linesOf (targets.flatMap fun r => precursorLine r (ps r) ++ ['\n']) =
      targets.map fun r => precursorLine r (ps r) :=
    linesOf_flatMap _ fun r hr => newline_notMem_precursorLine r (hline r hr).2.1
  -- each line stores the row of its target
  have hfold : (targets.map fun r => precursorLine r (ps r)).foldl (loadLine gamma) (fun _ => none)
      = targets.foldl (fun t r => Function.update t r (some (ps r))) fun _ => none := by
    rw [List.foldl_map]
    apply List.foldl_ext
    intro table r hr
    obtain ⟨ht, hne, hps, hlen⟩ := hline r hr
    exact loadLine_precursorLine ht hne hps hlen table
  have hskip : loadLine gamma (fun _ => none) ('#' :: comment) = fun _ => none :=
    if_pos (Or.inr rfl)
  unfold loadPrecursors
  rw [linesOf_append hhash, hlines, List.foldl_cons, hskip, hfold]
  ext x : 1
  exact foldl_update_eq ps targets _ x

end Predictor

namespace LeaperImpl

open Predictor

/-- What one line of the oracle file does to the table.  Every number takes a character, so the
    length of the line bounds how many there are. -/
def loadOracleLine (table : ℕ → Option (List ℕ)) (line : List Char) : ℕ → Option (List ℕ) :=
  if line = [] ∨ line.head? = some '#' then table
  else
    match extract line with
    | none => table
    | some (slot, rest) =>
      Function.update table slot
        (some (sorted ((table slot).getD [] ++ extractUpTo rest.length rest)))

/-- `LoadOracle`: the table after the whole file. -/
def loadOracle (text : List Char) : ℕ → Option (List ℕ) :=
  (linesOf text).foldl loadOracleLine fun _ => none

/-- A line of the oracle file adds its ranges to those of its slot, in order. -/
theorem loadOracleLine_precursorLine {slot : ℕ} {ps : List ℕ} (ht : slot < 2 ^ 64) (hne : ps ≠ [])
    (hps : ∀ p ∈ ps, p < 2 ^ 64) (table : ℕ → Option (List ℕ)) :
    loadOracleLine table (precursorLine slot ps) =
      Function.update table slot (some (sorted ((table slot).getD [] ++ ps))) := by
  have hlen : ps.length ≤ (ps.flatMap fun p => ' ' :: Nat.toDigits 10 p).length := by
    rw [List.length_flatMap]
    refine (List.length_map (f := fun p => (' ' :: Nat.toDigits 10 p).length)).symm.le.trans ?_
    refine List.length_le_sum_of_one_le _ fun n hn => ?_
    obtain ⟨p, -, rfl⟩ := List.mem_map.mp hn
    exact Nat.succ_le_succ (Nat.zero_le _)
  unfold loadOracleLine
  rw [if_neg (precursorLine_not_skipped slot ps), extract_precursorLine ht hne]
  simp only
  rw [extractUpTo_spaced hps hlen]

/-- **A file of a comment and one line for each slot** is read back. -/
theorem loadOracle_lines {comment : List Char} (hcomment : '\n' ∉ comment) (ps : ℕ → List ℕ)
    {slots : List ℕ} (hnodup : slots.Nodup)
    (hline : ∀ s ∈ slots, s < 2 ^ 64 ∧ ps s ≠ [] ∧ ∀ p ∈ ps s, p < 2 ^ 64) :
    loadOracle (('#' :: comment) ++ '\n' ::
        slots.flatMap fun s => precursorLine s (ps s) ++ ['\n']) =
      fun x => if x ∈ slots then some (sorted (ps x)) else none := by
  have hhash : '\n' ∉ '#' :: comment := by simp [hcomment]
  have hlines : linesOf (slots.flatMap fun s => precursorLine s (ps s) ++ ['\n']) =
      slots.map fun s => precursorLine s (ps s) :=
    linesOf_flatMap _ fun s hs => newline_notMem_precursorLine s (hline s hs).2.1
  have hskip : loadOracleLine (fun _ => none) ('#' :: comment) = fun _ => none :=
    if_pos (Or.inr rfl)
  -- a slot is new when its line comes
  have hfold : ∀ table : ℕ → Option (List ℕ), (∀ s ∈ slots, table s = none) →
      (slots.map fun s => precursorLine s (ps s)).foldl loadOracleLine table =
        fun x => if x ∈ slots then some (sorted (ps x)) else table x := by
    clear hlines hskip
    induction slots with
    | nil => exact fun table _ => by simp
    | cons s slots ih =>
      intro table hnew
      obtain ⟨hs, hnodup⟩ := List.nodup_cons.mp hnodup
      obtain ⟨ht, hne, hps⟩ := hline s (by simp)
      have hrest : ∀ s' ∈ slots, Function.update table s (some (sorted (ps s))) s' = none := by
        intro s' hs'
        rw [Function.update_of_ne (fun heq : s' = s => hs (heq ▸ hs'))]
        exact hnew s' (by simp [hs'])
      rw [List.map_cons, List.foldl_cons, loadOracleLine_precursorLine ht hne hps,
        hnew s (by simp), Option.getD_none, List.nil_append,
        ih hnodup (fun s' hs' => hline s' (by simp [hs'])) _ hrest]
      ext x : 1
      by_cases hx : x ∈ slots
      · rw [if_pos hx, if_pos (by simp [hx])]
      · rw [if_neg hx]
        by_cases hxs : x = s
        · subst hxs
          rw [Function.update_self, if_pos (by simp)]
        · rw [Function.update_of_ne hxs, if_neg (by simp [hxs, hx])]
  unfold loadOracle
  rw [linesOf_append hhash, hlines, List.foldl_cons, hskip, hfold _ fun _ _ => rfl]

end LeaperImpl

end Leaper
