import Mathlib.Data.Nat.Digits.Defs

namespace Lib

/-!
# Files of words

A file of words of a fixed width, the lowest byte first.  `pack` writes words, `unpack` reads
them back; what is left over at the end of a file is no word.  A word that does not fit into its
width is cut to it (`unpack_pack`).
-/

variable {α : Type*}

/-- The lowest `n` bytes of a word, the lowest first. -/
def toBytes : ℕ → ℕ → List ℕ
  | 0, _ => []
  | n + 1, w => w % 256 :: toBytes n (w / 256)

/-- A word of `n` bytes has `n` bytes. -/
@[simp] theorem length_toBytes (n w : ℕ) : (toBytes n w).length = n := by
  induction n generalizing w with
  | zero => rfl
  | succ n ih => rw [toBytes, List.length_cons, ih]

/-- Reading the bytes back gives the word, cut to its width. -/
theorem ofDigits_toBytes (n w : ℕ) : Nat.ofDigits 256 (toBytes n w) = w % 256 ^ n := by
  induction n generalizing w with
  | zero =>
    rw [pow_zero, Nat.mod_one]
    rfl
  | succ n ih =>
    rw [toBytes, Nat.ofDigits_cons, ih, pow_succ', Nat.mod_mul]

/-- The complete groups of `n` elements. -/
def groups (n : ℕ) (l : List α) : List (List α) :=
  if _h : 0 < n ∧ n ≤ l.length then l.take n :: groups n (l.drop n) else []
termination_by l.length
decreasing_by
  rw [List.length_drop]
  omega

/-- A whole group in front is split off as it is. -/
theorem groups_append {n : ℕ} (hn : 0 < n) {g : List α} (hg : g.length = n) (l : List α) :
    groups n (g ++ l) = g :: groups n l := by
  rw [groups, dif_pos ⟨hn, by rw [List.length_append]; omega⟩, ← hg, List.take_left, List.drop_left]

theorem groups_nil (n : ℕ) : groups n ([] : List α) = [] := by
  rw [groups, dif_neg]
  rintro ⟨hn, hle⟩
  exact absurd hle (Nat.not_le.mpr hn)

/-- Records of one length that follow each other. -/
theorem groups_flatMap {β : Type*} {n : ℕ} (hn : 0 < n) {f : β → List α}
    (hf : ∀ b, (f b).length = n) (l : List β) : groups n (l.flatMap f) = l.map f := by
  induction l with
  | nil => exact groups_nil n
  | cons b l ih => rw [List.flatMap_cons, groups_append hn (hf b), ih, List.map_cons]

/-- Words as bytes. -/
def pack (n : ℕ) (ws : List ℕ) : List ℕ := ws.flatMap (toBytes n)

/-- Packing is by words, so it goes through append. -/
theorem pack_append (n : ℕ) (ws vs : List ℕ) : pack n (ws ++ vs) = pack n ws ++ pack n vs :=
  List.flatMap_append

/-- The words of a file. -/
def unpack (n : ℕ) (bytes : List ℕ) : List ℕ := (groups n bytes).map (Nat.ofDigits 256)

/-- **Round trip**, up to the width. -/
theorem unpack_pack {n : ℕ} (hn : 0 < n) (ws : List ℕ) :
    unpack n (pack n ws) = ws.map (· % 256 ^ n) := by
  unfold unpack pack
  rw [groups_flatMap hn (length_toBytes n), List.map_map]
  exact List.map_congr_left fun w _ => ofDigits_toBytes n w

end Lib
