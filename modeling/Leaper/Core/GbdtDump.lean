import Leaper.Core.GbdtTree
import Mathlib.Algebra.BigOperators.Group.List.Basic

namespace Leaper.Gbdt

open Lib

/-!
# A dumped forest

The text LightGBM writes for a forest: header lines, a block for each tree, and a trailer.  A
`Dump` is such a text with all the freedom the layout leaves: the numbering of nodes and leaves,
the order of the arrays in a block, the lines between them, the ends of the lines.

* `entries_render` — the lines are read whatever their ends;
* `sameAt_readTree_body` — the arrays of a block are read back in any order;
* `Dump.blocks_entries` — and so is every block, the last one with the trailer behind it;
* `exists_dump` — every forest has a dump, if its numbers can be written;
* `rawScore_dump` — the score of a dump is the meaning of its forest.
-/

/-! ### Lines and their ends -/

/-- How a line ends. -/
inductive Eol
  | lf
  | crlf
  deriving DecidableEq, Repr

def Eol.chars : Eol → List Char
  | .lf => ['\n']
  | .crlf => ['\r', '\n']

/-- A text of lines, with the end of each. -/
def render (ends : ℕ → Eol) : List (List Char) → List Char
  | [] => []
  | l :: ls => l ++ (ends 0).chars ++ render (fun k => ends (k + 1)) ls

/-- The line can be told from its end. -/
def Plain (l : List Char) : Prop := '\n' ∉ l ∧ l.getLast? ≠ some '\r'

instance (l : List Char) : Decidable (Plain l) := inferInstanceAs (Decidable (_ ∧ _))

/-- The key and the value of a line without its end. -/
def lineEntry (l : List Char) : Option Entry := if l = [] then none else split l

/-- A plain line is left as it is. -/
theorem stripCr_of_plain {l : List Char} (h : Plain l) : stripCr l = l := if_neg h.2

/-- One carriage return is dropped. -/
theorem stripCr_cr (l : List Char) : stripCr (l ++ ['\r']) = l := by
  simp [stripCr]

/-- **The lines of a text are read whatever their ends.** -/
theorem entries_render {ls : List (List Char)} : ∀ ends : ℕ → Eol, (∀ l ∈ ls, Plain l) →
    entries (render ends ls) = ls.filterMap lineEntry := by
  unfold entries
  induction ls with
  | nil => exact fun _ _ => rfl
  | cons l ls ih =>
    intro ends h
    have hl := h l List.mem_cons_self
    have hrest := ih (fun k => ends (k + 1)) fun l' hl' => h l' (List.mem_cons_of_mem _ hl')
    rw [render]
    cases ends 0 with
    | lf =>
      have hentry : entryOf l = lineEntry l := by
        rw [entryOf, stripCr_of_plain hl]
        rfl
      rw [Eol.chars, List.append_assoc, List.singleton_append, linesOf_append hl.1,
        List.filterMap_cons, List.filterMap_cons, hentry, hrest]
    | crlf =>
      have hentry : entryOf (l ++ ['\r']) = lineEntry l := by
        rw [entryOf, stripCr_cr]
        rfl
      have hnl : '\n' ∉ l ++ ['\r'] := by simp [hl.1]
      have htext : l ++ Eol.crlf.chars ++ render (fun k => ends (k + 1)) ls =
          (l ++ ['\r']) ++ '\n' :: render (fun k => ends (k + 1)) ls := by simp [Eol.chars]
      rw [htext, linesOf_append hnl, List.filterMap_cons, List.filterMap_cons, hentry, hrest]

/-- A line is plain if neither part has a line end inside and the second does not end in one. -/
theorem plain_append {a b : List Char} (hnl : '\n' ∉ a) (hcr : '\r' ∉ a) (hb : Plain b) :
    Plain (a ++ b) := by
  refine ⟨by simp [hnl, hb.1], fun h => ?_⟩
  rw [List.getLast?_append, Option.or_eq_some_iff] at h
  rcases h with h | ⟨-, h⟩
  · exact hb.2 h
  · exact hcr (List.mem_of_getLast? h)

/-- A line is cut at its first equals sign. -/
theorem split_append {key value : List Char} (h : '=' ∉ key) :
    split (key ++ '=' :: value) = some (key, value) := by
  have hkey : ∀ c ∈ key, (decide (c ≠ '=')) = true := by
    intro c hc
    exact decide_eq_true fun heq => h (heq ▸ hc)
  unfold split
  rw [if_pos (by simp), List.takeWhile_append_of_pos hkey, List.dropWhile_append_of_pos hkey]
  simp

/-! ### The lines of a block -/

/-- The line that starts a block. -/
def treeLine (label : List Char) : List Char := "Tree=".toList ++ label

/-- The line of an array. -/
def fieldLine (f : Field) (value : List Char) : List Char := f.name ++ '=' :: value

/-- The key is none that changes a tree. -/
def Quiet (e : Entry) : Prop := keyOf e.1 ≠ .tree ∧ ∀ f, keyOf e.1 ≠ .field f

/-- The arrays in the order of `GbdtModel::Tree`. -/
def Field.all : List Field :=
  [.splitFeature, .threshold, .decisionType, .leftChild, .rightChild, .leafValue]

/-- `Field.all` leaves none out. -/
theorem Field.mem_all (f : Field) : f ∈ Field.all := by
  cases f <;> decide

instance (e : Entry) : Decidable (Quiet e) :=
  decidable_of_iff (keyOf e.1 ≠ .tree ∧ ∀ f ∈ Field.all, keyOf e.1 ≠ .field f)
    (and_congr_right fun _ => ⟨fun h f => h f f.mem_all, fun h f _ => h f⟩)

/-- A line that changes no tree. -/
def Ignored (l : List Char) : Prop := Plain l ∧ ∀ e, lineEntry l = some e → Quiet e

instance (l : List Char) : Decidable (Ignored l) :=
  inferInstanceAs (Decidable (Plain l ∧ ∀ e ∈ lineEntry l, Quiet e))

/-- A field's own name is recognised as that field. -/
theorem keyOf_name (f : Field) : keyOf f.name = .field f := by
  cases f <;> decide

/-- The line that opens a tree, read back. -/
theorem lineEntry_treeLine (label : List Char) :
    lineEntry (treeLine label) = some ("Tree".toList, label) := by
  have hline : treeLine label = "Tree".toList ++ '=' :: label := rfl
  rw [lineEntry, if_neg (by rw [hline]; simp), hline]
  exact split_append (by decide)

/-- The line of a field, read back. -/
theorem lineEntry_fieldLine (f : Field) (value : List Char) :
    lineEntry (fieldLine f value) = some (f.name, value) := by
  rw [lineEntry, if_neg (by simp [fieldLine])]
  refine split_append ?_
  cases f <;> decide

section Blocks

variable {D : Type*} (atof : List Char → D)

/-- The words of `value` are read as the array. -/
def Tree.Reads (t : Tree D) (f : Field) (ws : List (List Char)) : Prop :=
  match f with
  | .splitFeature => ws.map atoi = t.splitFeature
  | .threshold => ws.map atof = t.threshold
  | .decisionType => ws.map atoi = t.decisionType
  | .leftChild => ws.map atoi = t.leftChild
  | .rightChild => ws.map atoi = t.rightChild
  | .leafValue => ws.map atof = t.leafValue

/-- `value` is an array of the tree, number after number. -/
def Tree.Writes (t : Tree D) (f : Field) (value : List Char) : Prop :=
  ∃ ws, (∀ w ∈ ws, IsWord w) ∧ value = [' '].intercalate ws ∧ t.Reads atof f ws

/-- Two trees have an array in common. -/
def Tree.SameAt (t t' : Tree D) (f : Field) : Prop :=
  match f with
  | .splitFeature => t.splitFeature = t'.splitFeature
  | .threshold => t.threshold = t'.threshold
  | .decisionType => t.decisionType = t'.decisionType
  | .leftChild => t.leftChild = t'.leftChild
  | .rightChild => t.rightChild = t'.rightChild
  | .leafValue => t.leafValue = t'.leafValue

/-- Trees that agree at every field are equal. -/
theorem Tree.ext_of_sameAt {t t' : Tree D} (h : ∀ f, t.SameAt t' f) : t = t' := by
  cases t
  cases t'
  congr 1
  · exact h .splitFeature
  · exact h .threshold
  · exact h .decisionType
  · exact h .leftChild
  · exact h .rightChild
  · exact h .leafValue

/-- A line read sets its array and leaves the others. -/
theorem Tree.sameAt_set {cur t : Tree D} {f g : Field} {value : List Char}
    (hw : t.Writes atof f value) (h : g = f ∨ cur.SameAt t g) :
    (cur.set atof f value).SameAt t g := by
  obtain ⟨ws, hws, rfl, hreads⟩ := hw
  have hwords := words_intercalate hws
  by_cases hgf : g = f
  · subst hgf
    cases g <;> exact (congrArg (List.map _) hwords).trans hreads
  · have hold := h.resolve_left hgf
    cases f <;> cases g <;> first | exact hold | exact absurd rfl hgf

/-- The lines of a block: arrays of the tree, and lines that do not matter. -/
def BodyLine (t : Tree D) (l : List Char) : Prop :=
  Ignored l ∨ ∃ f value, l = fieldLine f value ∧ t.Writes atof f value

/-- The characters of a line of words: blanks, and those of the words. -/
theorem mem_intercalate {c : Char} {ws : List (List Char)} (h : c ∈ [' '].intercalate ws) :
    c = ' ' ∨ ∃ w ∈ ws, c ∈ w := by
  induction ws with
  | nil => cases h
  | cons w ws ih =>
    cases ws with
    | nil => exact Or.inr ⟨w, List.mem_cons_self, by simpa [List.intercalate] using h⟩
    | cons w' ws =>
      rw [List.intercalate_cons_cons, List.append_assoc, List.mem_append, List.singleton_append,
        List.mem_cons] at h
      rcases h with h | h | h
      · exact Or.inr ⟨w, List.mem_cons_self, h⟩
      · exact Or.inl h
      · rcases ih h with h | ⟨w'', hw'', hc⟩
        · exact Or.inl h
        · exact Or.inr ⟨w'', List.mem_cons_of_mem _ hw'', hc⟩

/-- The only white space in a written array are the spaces between its words. -/
theorem Tree.Writes.notMem {t : Tree D} {f : Field} {value : List Char}
    (hw : t.Writes atof f value) {c : Char} (hc : isSpace c = true) (hne : c ≠ ' ') :
    c ∉ value := by
  obtain ⟨ws, hws, rfl, -⟩ := hw
  intro hmem
  rcases mem_intercalate hmem with h | ⟨w, hw, hcw⟩
  · exact hne h
  · exact absurd hc (by rw [(hws w hw).2 c hcw]; exact Bool.false_ne_true)

/-- Every line a tree may be written with is plain. -/
theorem BodyLine.plain {t : Tree D} {l : List Char} (h : BodyLine atof t l) : Plain l := by
  rcases h with h | ⟨f, value, rfl, hw⟩
  · exact h.1
  · have hvalue : Plain ('=' :: value) := by
      constructor
      · simpa using hw.notMem atof rfl (by decide)
      · intro hlast
        have hmem := List.mem_of_getLast? hlast
        rcases List.mem_cons.mp hmem with h | h
        · exact absurd h (by decide)
        · exact hw.notMem atof rfl (by decide) h
    refine plain_append ?_ ?_ hvalue
    · cases f <;> decide
    · cases f <;> decide

/-- An entry that names no field of a tree changes nothing. -/
theorem Tree.read_quiet {e : Entry} (h : Quiet e) (cur : Tree D) : cur.read atof e = cur := by
  unfold Tree.read
  split
  next f hf => exact absurd hf (h.2 f)
  next => rfl

/-- **The arrays of a block are read back**, in any order and among other lines. -/
theorem sameAt_readTree_body {t : Tree D} {body : List (List Char)}
    (h : ∀ l ∈ body, BodyLine atof t l) (g : Field) : ∀ cur : Tree D,
    (cur.SameAt t g ∨ ∃ value, fieldLine g value ∈ body) →
    (readTree atof cur (body.filterMap lineEntry)).SameAt t g := by
  induction body with
  | nil =>
    intro cur hcur
    rcases hcur with hcur | ⟨value, hmem⟩
    · exact hcur
    · cases hmem
  | cons l body ih =>
    intro cur hcur
    have hrest := ih fun l' hl' => h l' (List.mem_cons_of_mem _ hl')
    rcases h l List.mem_cons_self with hign | ⟨f, value, rfl, hw⟩
    · -- the line does nothing, and it is no array's
      have hcur' : cur.SameAt t g ∨ ∃ value, fieldLine g value ∈ body := by
        refine hcur.imp_right ?_
        rintro ⟨value, hmem⟩
        rcases List.mem_cons.mp hmem with heq | hmem
        · have hquiet := hign.2 (g.name, value) (by rw [← heq]; exact lineEntry_fieldLine g value)
          exact absurd (keyOf_name g) (hquiet.2 g)
        · exact ⟨value, hmem⟩
      cases hentry : lineEntry l with
      | none =>
        rw [List.filterMap_cons_none hentry]
        exact hrest cur hcur'
      | some e =>
        rw [List.filterMap_cons_some hentry, readTree, List.foldl_cons,
          Tree.read_quiet atof (hign.2 e hentry)]
        exact hrest cur hcur'
    · -- a line of the tree sets its array to the tree's own
      have hread : cur.read atof (f.name, value) = cur.set atof f value := by
        rw [Tree.read, keyOf_name]
      rw [List.filterMap_cons_some (lineEntry_fieldLine f value), readTree, List.foldl_cons, hread]
      apply hrest
      rcases hcur with hcur | ⟨value', hmem⟩
      · exact Or.inl (Tree.sameAt_set atof hw (Or.inr hcur))
      · rcases List.mem_cons.mp hmem with heq | hmem
        · -- the array's own line
          have hname : g.name = f.name := by
            have := congrArg lineEntry heq
            rw [lineEntry_fieldLine, lineEntry_fieldLine] at this
            exact congrArg Prod.fst (Option.some.inj this)
          have hgf : g = f := by
            have := keyOf_name g
            rw [hname, keyOf_name] at this
            exact (Key.field.inj this).symm
          exact Or.inl (Tree.sameAt_set atof hw (Or.inl hgf))
        · exact Or.inr ⟨value', hmem⟩

end Blocks

/-! ### The trainer's feature names -/

/-- The names `train_leaper.py` gives the features, which are the keys of the trailer. -/
def featureNames (history gamma : ℕ) : List (List Char) :=
  (List.range history).map (fun k => "read_rate_t-".toList ++ Nat.toDigits 10 (history - k)) ++
  (List.range history).map (fun k => "write_rate_t-".toList ++ Nat.toDigits 10 (history - k)) ++
  ["hour".toList, "minute".toList, "second".toList] ++
  (List.range gamma).map (fun k => "precursor_rate_".toList ++ Nat.toDigits 10 k)

/-- The first two letters of the keys the loader knows. -/
def keyHeads : List (List Char) :=
  ["Tr".toList, "ma".toList, "ob".toList, "sp".toList, "th".toList, "de".toList, "le".toList,
    "ri".toList]

/-- A key that begins like none of the known ones is skipped. -/
theorem keyOf_eq_other {key : List Char} (h : key.take 2 ∉ keyHeads) : keyOf key = .other := by
  have hne : ∀ known : List Char, known.take 2 ∈ keyHeads → key ≠ known := by
    rintro known hknown rfl
    exact h hknown
  unfold keyOf
  rw [if_neg (hne _ (by decide)), if_neg (hne _ (by decide)), if_neg (hne _ (by decide)),
    if_neg (hne _ (by decide)), if_neg (hne _ (by decide)), if_neg (hne _ (by decide)),
    if_neg (hne _ (by decide)), if_neg (hne _ (by decide)), if_neg (hne _ (by decide))]

/-- **No feature name is a key the loader knows.** -/
theorem keyOf_featureName {history gamma : ℕ} {name : List Char}
    (h : name ∈ featureNames history gamma) : keyOf name = .other := by
  apply keyOf_eq_other
  unfold featureNames at h
  simp only [List.mem_append, List.mem_map] at h
  rcases h with ((⟨k, -, rfl⟩ | ⟨k, -, rfl⟩) | h) | ⟨k, -, rfl⟩
  · exact (by decide : "re".toList ∉ keyHeads)
  · exact (by decide : "wr".toList ∉ keyHeads)
  · revert name
    decide
  · exact (by decide : "pr".toList ∉ keyHeads)

/-! ### A dump -/

section Dump

variable {D : Type*} (atof : List Char → D)

/-- A block of the dump: its lines, and the arrays in them, which represent the tree. -/
structure TreeBlock (T : DTree D) where
  label : List Char
  body : List (List Char)
  tree : Tree D
  leaves : List ℕ
  label_plain : Plain label
  represents : tree.Represents T leaves
  lengthsAgree : tree.lengthsAgree = true
  numerical : ∀ d ∈ tree.decisionType, d % 2 ≠ 1
  body_lines : ∀ l ∈ body, BodyLine atof tree l
  /-- An array without a line is empty, as those of a single leaf may be. -/
  complete : ∀ f, Tree.SameAt {} tree f ∨ ∃ value, fieldLine f value ∈ body

/-- **A dump of a forest.** The header has no `Tree=` line; the keys of the trailer are feature
    names. -/
structure Dump where
  header : List (List Char)
  blocks : List ((T : DTree D) × TreeBlock atof T)
  trailer : List (List Char)
  ends : ℕ → Eol
  history : ℕ
  gamma : ℕ
  header_lines : ∀ l ∈ header, Plain l ∧ ∀ e, lineEntry l = some e → e.1 ≠ "Tree".toList
  trailer_lines : ∀ l ∈ trailer, Plain l ∧
    ∀ e, lineEntry l = some e → e.1 ∈ featureNames history gamma

namespace Dump

variable {atof} (d : Dump atof)

/-- The trees of the dump. -/
def forest : List (DTree D) := d.blocks.map (·.1)

/-- The lines of a block. -/
def blockLines (b : (T : DTree D) × TreeBlock atof T) : List (List Char) :=
  treeLine b.2.label :: b.2.body

/-- The lines behind the blocks. -/
def tailLines : List (List Char) := "end of trees".toList :: d.trailer

/-- The lines of the dump. -/
def lines : List (List Char) := d.header ++ (d.blocks.flatMap blockLines ++ d.tailLines)

/-- The dump as a text. -/
def text : List Char := render d.ends d.lines

/-- No line of a dump has a line end inside. -/
theorem lines_plain : ∀ l ∈ d.lines, Plain l := by
  intro l hl
  rcases List.mem_append.mp hl with hl | hl
  · exact (d.header_lines l hl).1
  rcases List.mem_append.mp hl with hl | hl
  · obtain ⟨b, -, hl⟩ := List.mem_flatMap.mp hl
    rcases List.mem_cons.mp hl with rfl | hl
    · exact plain_append (by decide) (by decide) b.2.label_plain
    · exact (b.2.body_lines l hl).plain atof
  · rcases List.mem_cons.mp hl with rfl | hl
    · decide
    · exact (d.trailer_lines l hl).1

/-- Entries that do not start a block belong to the one before. -/
theorem blocks_append {es es' : List Entry} (h : ∀ e ∈ es, keyOf e.1 ≠ .tree) :
    Gbdt.blocks (es ++ es') = (es ++ (Gbdt.blocks es').1, (Gbdt.blocks es').2) := by
  induction es with
  | nil => rfl
  | cons e es ih =>
    rw [List.cons_append, Gbdt.blocks, if_neg (h e List.mem_cons_self),
      ih fun e' he' => h e' (List.mem_cons_of_mem _ he')]
    rfl

/-- A body has no `Tree=` line. -/
theorem body_keys (b : (T : DTree D) × TreeBlock atof T) :
    ∀ e ∈ b.2.body.filterMap lineEntry, keyOf e.1 ≠ .tree := by
  intro e he
  obtain ⟨l, hl, hentry⟩ := List.mem_filterMap.mp he
  rcases b.2.body_lines l hl with hign | ⟨f, value, rfl, -⟩
  · exact (hign.2 e hentry).1
  · rw [lineEntry_fieldLine] at hentry
    obtain rfl := Option.some.inj hentry
    rw [keyOf_name]
    exact nofun

/-- What LightGBM writes after the trees names no field. -/
theorem tail_quiet : ∀ e ∈ d.tailLines.filterMap lineEntry, Quiet e := by
  intro e he
  obtain ⟨l, hl, hentry⟩ := List.mem_filterMap.mp he
  rcases List.mem_cons.mp hl with rfl | hl
  · have hnone : lineEntry "end of trees".toList = none := by decide
    rw [hnone] at hentry
    cases hentry
  · rw [Quiet, keyOf_featureName ((d.trailer_lines l hl).2 e hentry)]
    exact ⟨nofun, nofun⟩

/-- Quiet entries leave a tree as it was. -/
theorem readTree_quiet {es : List Entry} (h : ∀ e ∈ es, Quiet e) (cur : Tree D) :
    readTree atof cur es = cur := by
  induction es with
  | nil => rfl
  | cons e es ih =>
    rw [readTree, List.foldl_cons, Tree.read_quiet atof (h e List.mem_cons_self)]
    exact ih fun e' he' => h e' (List.mem_cons_of_mem _ he')

/-- A block read alone, and with lines that do not matter behind it. -/
theorem readTree_block (b : (T : DTree D) × TreeBlock atof T) {es : List Entry}
    (h : ∀ e ∈ es, Quiet e) :
    readTree atof {} (b.2.body.filterMap lineEntry ++ es) = b.2.tree := by
  rw [readTree, List.foldl_append]
  refine (readTree_quiet h _).trans ?_
  exact Tree.ext_of_sameAt fun f => sameAt_readTree_body atof b.2.body_lines f {} (b.2.complete f)

/-- **The blocks of the lines are read back**, the last one with the tail behind it. -/
theorem blocks_entries (bs : List ((T : DTree D) × TreeBlock atof T)) {tail : List Entry}
    (htail : ∀ e ∈ tail, Quiet e) :
    (∀ e ∈ (Gbdt.blocks ((bs.flatMap blockLines).filterMap lineEntry ++ tail)).1, Quiet e) ∧
    (Gbdt.blocks ((bs.flatMap blockLines).filterMap lineEntry ++ tail)).2.map (readTree atof {}) =
      bs.map (·.2.tree) := by
  induction bs with
  | nil =>
    have hblocks : Gbdt.blocks (tail ++ []) = (tail ++ [], []) :=
      blocks_append fun e he => (htail e he).1
    rw [List.append_nil] at hblocks
    rw [List.flatMap_nil, List.filterMap_nil, List.nil_append, hblocks]
    refine ⟨fun e he => htail e (by simpa [Gbdt.blocks] using he), rfl⟩
  | cons b bs ih =>
    obtain ⟨hquiet, htrees⟩ := ih
    have hentries : ((b :: bs).flatMap blockLines).filterMap lineEntry ++ tail =
        ("Tree".toList, b.2.label) :: (b.2.body.filterMap lineEntry ++
          ((bs.flatMap blockLines).filterMap lineEntry ++ tail)) := by
      rw [List.flatMap_cons, blockLines, List.cons_append,
        List.filterMap_cons_some (lineEntry_treeLine _), List.filterMap_append, List.cons_append,
        List.append_assoc]
    rw [hentries, Gbdt.blocks, if_pos (keyOf_eq_tree_iff.mpr rfl), blocks_append (body_keys b)]
    refine ⟨fun e he => absurd he List.not_mem_nil, ?_⟩
    rw [List.map_cons, List.map_cons, htrees, readTree_block b hquiet]

/-- **The trees of the dump are loaded.** -/
theorem blocks_text :
    (Gbdt.blocks (entries d.text)).2.map (readTree atof {}) = d.blocks.map (·.2.tree) := by
  have hheader : ∀ e ∈ d.header.filterMap lineEntry, keyOf e.1 ≠ .tree := by
    intro e he
    obtain ⟨l, hl, hentry⟩ := List.mem_filterMap.mp he
    exact fun hkey => (d.header_lines l hl).2 e hentry (keyOf_eq_tree_iff.mp hkey)
  rw [text, entries_render d.ends d.lines_plain, lines, List.filterMap_append,
    List.filterMap_append, blocks_append hheader]
  exact (blocks_entries d.blocks d.tail_quiet).2

end Dump

end Dump

/-! ### Every forest has a dump -/

namespace DTree

variable {D : Type*}

def nodeCount : DTree D → ℕ
  | .leaf _ => 0
  | .node _ _ l r => 1 + l.nodeCount + r.nodeCount

def leafCount : DTree D → ℕ
  | .leaf _ => 1
  | .node _ _ l r => l.leafCount + r.leafCount

/-- The child index of a tree whose nodes are numbered from `i` and whose leaves from `j`. -/
def code (i j : ℕ) : DTree D → ℤ
  | .leaf _ => -(j : ℤ) - 1
  | .node .. => i

/-- Feature, threshold and children of the nodes, the root first. -/
def rows (i j : ℕ) : DTree D → List (ℕ × D × ℤ × ℤ)
  | .leaf _ => []
  | .node f thr l r =>
    (f, thr, l.code (i + 1) j, r.code (i + 1 + l.nodeCount) (j + l.leafCount)) ::
      (l.rows (i + 1) j ++ r.rows (i + 1 + l.nodeCount) (j + l.leafCount))

/-- The leaves from left to right. -/
def values : DTree D → List D
  | .leaf v => [v]
  | .node _ _ l r => l.values ++ r.values

/-- The arrays of a tree, numbered in preorder; `2` is a numerical split. -/
def flatten (T : DTree D) : Tree D where
  splitFeature := (T.rows 0 0).map fun r => (r.1 : ℤ)
  threshold := (T.rows 0 0).map (·.2.1)
  decisionType := (T.rows 0 0).map fun _ => 2
  leftChild := (T.rows 0 0).map (·.2.2.1)
  rightChild := (T.rows 0 0).map (·.2.2.2)
  leafValue := T.values

/-- A tree has one row for each inner node. -/
theorem length_rows (T : DTree D) : ∀ i j, (T.rows i j).length = T.nodeCount := by
  induction T with
  | leaf v => exact fun _ _ => rfl
  | node f thr l r ihl ihr =>
    intro i j
    rw [rows, List.length_cons, List.length_append, ihl, ihr, nodeCount]
    omega

/-- A tree has one value for each leaf. -/
theorem length_values (T : DTree D) : T.values.length = T.leafCount := by
  induction T with
  | leaf v => rfl
  | node f thr l r ihl ihr => rw [values, List.length_append, ihl, ihr, leafCount]

/-- The arrays have these nodes from `i` on. -/
def HasRows (t : Tree D) (i : ℕ) (rs : List (ℕ × D × ℤ × ℤ)) : Prop :=
  ∀ k r, rs[k]? = some r → t.splitFeature[i + k]? = some (r.1 : ℤ) ∧
    t.threshold[i + k]? = some r.2.1 ∧ t.leftChild[i + k]? = some r.2.2.1 ∧
    t.rightChild[i + k]? = some r.2.2.2

/-- Rows written one after the other are found one after the other. -/
theorem HasRows.append {t : Tree D} {i : ℕ} {rs rs' : List (ℕ × D × ℤ × ℤ)}
    (h : HasRows t i (rs ++ rs')) : HasRows t i rs ∧ HasRows t (i + rs.length) rs' := by
  refine ⟨fun k r hk => h k r ?_, fun k r hk => ?_⟩
  · rw [List.getElem?_append_left (List.getElem?_eq_some_iff.mp hk).1]
    exact hk
  · rw [Nat.add_assoc]
    refine h (rs.length + k) r ?_
    rw [List.getElem?_append_right (Nat.le_add_right _ _), Nat.add_sub_cancel_left]
    exact hk

/-- **Arrays that have the nodes and the leaves of a tree stand for it.** -/
theorem encodes_of_rows {t : Tree D} (T : DTree D) : ∀ i j, HasRows t i (T.rows i j) →
    (∀ k v, T.values[k]? = some v → t.leafValue[j + k]? = some v) →
    Encodes t (T.code i j) T (List.range' j T.leafCount) := by
  induction T with
  | leaf v => exact fun i j _ hvalues => .leaf (hvalues 0 v rfl)
  | node f thr l r ihl ihr =>
    intro i j hrows hvalues
    obtain ⟨hf, hthr, hl, hr⟩ := hrows 0 _ rfl
    -- the root, then the left subtree's nodes, then the right one's
    have hrest : HasRows t (i + 1)
        (l.rows (i + 1) j ++ r.rows (i + 1 + l.nodeCount) (j + l.leafCount)) := by
      intro k row hk
      have hrow := hrows (k + 1) row (by rw [rows, List.getElem?_cons_succ]; exact hk)
      rwa [← Nat.add_assoc, Nat.add_right_comm] at hrow
    obtain ⟨hleft, hright⟩ := hrest.append
    rw [length_rows] at hright
    have hlvalues : ∀ k v, l.values[k]? = some v → t.leafValue[j + k]? = some v := by
      intro k v hk
      refine hvalues k v ?_
      rw [values, List.getElem?_append_left (List.getElem?_eq_some_iff.mp hk).1]
      exact hk
    have hrvalues : ∀ k v, r.values[k]? = some v → t.leafValue[j + l.leafCount + k]? = some v := by
      intro k v hk
      rw [Nat.add_assoc]
      refine hvalues (l.leafCount + k) v ?_
      rw [values, ← length_values, List.getElem?_append_right (Nat.le_add_right _ _),
        Nat.add_sub_cancel_left]
      exact hk
    have hnode := Encodes.node hf hthr hl hr (ihl _ _ hleft hlvalues) (ihr _ _ hright hrvalues)
    rw [List.range'_append_1] at hnode
    exact hnode

/-- The arrays of a flattened tree are its rows, from index zero. -/
theorem hasRows_flatten (T : DTree D) : HasRows T.flatten 0 (T.rows 0 0) := by
  intro k r hk
  rw [Nat.zero_add]
  simp [flatten, hk]

/-- **Every tree has arrays.** -/
theorem represents_flatten (T : DTree D) :
    T.flatten.Represents T (List.range' 0 T.leafCount) := by
  cases T with
  | leaf v => exact .single rfl rfl
  | node f thr l r =>
    refine .nodes (encodes_of_rows _ 0 0 (hasRows_flatten _) fun k v hk => ?_)
    rw [Nat.zero_add]
    exact hk

end DTree

section OfTree

variable {D : Type*} (atof : List Char → D) (print : D → List Char)

/-- A number of the tree that is printed as a word `atof` reads back. -/
def Printable (v : D) : Prop := IsWord (print v) ∧ atof (print v) = v

/-- A 32-bit number. -/
def IsInt32 (z : ℤ) : Prop := -2 ^ 31 ≤ z ∧ z < 2 ^ 31

instance (z : ℤ) : Decidable (IsInt32 z) := inferInstanceAs (Decidable (_ ∧ _))

/-- The words of an array. -/
def Tree.fieldWords (t : Tree D) : Field → List (List Char)
  | .splitFeature => t.splitFeature.map showInt
  | .threshold => t.threshold.map print
  | .decisionType => t.decisionType.map showInt
  | .leftChild => t.leftChild.map showInt
  | .rightChild => t.rightChild.map showInt
  | .leafValue => t.leafValue.map print

/-- The arrays hold numbers that are read back. -/
structure Tree.Fits (t : Tree D) : Prop where
  splitFeature : ∀ z ∈ t.splitFeature, IsInt32 z
  decisionType : ∀ z ∈ t.decisionType, IsInt32 z
  leftChild : ∀ z ∈ t.leftChild, IsInt32 z
  rightChild : ∀ z ∈ t.rightChild, IsInt32 z
  threshold : ∀ v ∈ t.threshold, Printable atof print v
  leafValue : ∀ v ∈ t.leafValue, Printable atof print v

/-- A list printed word by word is read back. -/
theorem map_print {α : Type*} {read : List Char → α} {shown : α → List Char} {xs : List α}
    (h : ∀ x ∈ xs, IsWord (shown x) ∧ read (shown x) = x) :
    (∀ w ∈ xs.map shown, IsWord w) ∧ (xs.map shown).map read = xs := by
  refine ⟨fun w hw => ?_, ?_⟩
  · obtain ⟨x, hx, rfl⟩ := List.mem_map.mp hw
    exact (h x hx).1
  · rw [List.map_map]
    exact (List.map_congr_left fun x hx => (h x hx).2).trans (List.map_id xs)

/-- Words of a field that print and read back write that field. -/
theorem Tree.Fits.writes {t : Tree D} (h : t.Fits atof print) (f : Field) :
    t.Writes atof f ([' '].intercalate (t.fieldWords print f)) := by
  have hint : ∀ {zs : List ℤ}, (∀ z ∈ zs, IsInt32 z) →
      (∀ w ∈ zs.map showInt, IsWord w) ∧ (zs.map showInt).map atoi = zs := fun hzs =>
    map_print fun z hz => ⟨isWord_showInt z, atoi_showInt (hzs z hz).1 (hzs z hz).2⟩
  have hreads : (∀ w ∈ t.fieldWords print f, IsWord w) ∧ t.Reads atof f (t.fieldWords print f) := by
    cases f with
    | splitFeature => exact hint h.splitFeature
    | threshold => exact map_print h.threshold
    | decisionType => exact hint h.decisionType
    | leftChild => exact hint h.leftChild
    | rightChild => exact hint h.rightChild
    | leafValue => exact map_print h.leafValue
  exact ⟨_, hreads.1, rfl, hreads.2⟩

/-- The block of a tree in preorder numbering, with lines that do not matter before the arrays. -/
def TreeBlock.ofTree (T : DTree D) (hfits : T.flatten.Fits atof print) (extra : List (List Char))
    (hextra : ∀ l ∈ extra, Ignored l) : TreeBlock atof T where
  label := []
  body := extra ++
    Field.all.map fun f => fieldLine f ([' '].intercalate (T.flatten.fieldWords print f))
  tree := T.flatten
  leaves := List.range' 0 T.leafCount
  label_plain := by decide
  represents := T.represents_flatten
  lengthsAgree := by simp [Tree.lengthsAgree, DTree.flatten]
  numerical := by
    intro d hd
    obtain ⟨r, -, rfl⟩ := List.mem_map.mp hd
    decide
  body_lines := by
    intro l hl
    rcases List.mem_append.mp hl with hl | hl
    · exact Or.inl (hextra l hl)
    · obtain ⟨f, -, rfl⟩ := List.mem_map.mp hl
      exact Or.inr ⟨f, _, rfl, hfits.writes atof print f⟩
  complete f :=
    Or.inr ⟨_, List.mem_append_right _ (List.mem_map.mpr ⟨f, f.mem_all, rfl⟩)⟩

/-- **Every forest has a dump**, if its numbers can be written. -/
theorem exists_dump {forest : List (DTree D)} (h : ∀ T ∈ forest, T.flatten.Fits atof print) :
    ∃ d : Dump atof, d.forest = forest := by
  let block : ∀ T : DTree D, T.flatten.Fits atof print → (T : DTree D) × TreeBlock atof T :=
    fun T hfits =>
    ⟨T, TreeBlock.ofTree atof print T hfits [] nofun⟩
  refine ⟨⟨[], forest.pmap block h, [], fun _ => .lf, 0, 0, nofun, nofun⟩, ?_⟩
  unfold Dump.forest
  rw [List.map_pmap]
  exact (List.pmap_eq_map _).trans (List.map_id forest)

end OfTree

/-! ### The score -/

section Meaning

variable {D : Type*}

/-- **What a represented tree adds**, once there are turns enough. -/
theorem Tree.Represents.addTo [Zero D] [Add D] [LE D] [DecidableLE D] {t : Tree D} {T : DTree D}
    {ls : List ℕ} (h : t.Represents T ls) (features : List D) :
    ∃ turns, ∀ turns' ≥ turns, ∀ sum,
      t.addTo features turns' sum = .ret (sum + T.eval features) := by
  -- the leaf that is reached, and its value
  have hleaf : ∃ (turns i : ℕ), t.descend atMost features turns = .ret i ∧
      t.leafValue[i]? = some (T.eval features) := by
    cases h with
    | single hnodes hv =>
      refine ⟨0, 0, ?_, hv⟩
      rw [Tree.descend, hnodes]
      rfl
    | nodes h =>
      obtain ⟨i, ⟨turns, hends⟩, hi⟩ := h.ends_eval features
      refine ⟨turns, i, ?_, hi⟩
      rw [Tree.descend, if_neg (by simpa using h.splitFeature_ne_nil le_rfl)]
      exact hends
  obtain ⟨turns, i, hdescend, hvalue⟩ := hleaf
  refine ⟨turns, fun turns' hge sum => ?_⟩
  obtain ⟨hi, -⟩ := List.getElem?_eq_some_iff.mp hvalue
  have hne : ¬ t.leafValue.isEmpty = true := by
    intro hempty
    rw [List.isEmpty_iff.mp hempty] at hi
    exact absurd hi (Nat.not_lt_zero i)
  unfold Tree.addTo
  rw [if_neg hne, Tree.descend_mono hdescend hge]
  dsimp only
  rw [if_pos ⟨Int.natCast_nonneg i, by exact_mod_cast hi⟩, Int.toNat_natCast,
    List.getD_eq_getElem?_getD, hvalue]
  rfl

/-- Whatever encodes a tree has a leaf. -/
theorem Encodes.leafValue_ne_nil {t : Tree D} {c : ℤ} {T : DTree D} {ls : List ℕ}
    (h : Encodes t c T ls) : t.leafValue ≠ [] := by
  induction h with
  | leaf hv =>
    intro hnil
    rw [hnil] at hv
    cases hv
  | node hf hthr hl hr hlt hrt ihl ihr => exact ihl

/-- The same for a whole tree, so the loader's check of leaf values passes. -/
theorem Tree.Represents.leafValue_ne_nil {t : Tree D} {T : DTree D} {ls : List ℕ}
    (h : t.Represents T ls) : t.leafValue ≠ [] := by
  cases h with
  | single hnodes hv =>
    intro hnil
    rw [hnil] at hv
    cases hv
  | nodes h => exact h.leafValue_ne_nil

/-- Every block of a dump has leaf values, so the parser drops none. -/
theorem Dump.trees_readText [One D] {atof : List Char → D} (d : Dump atof) :
    (readText atof d.text).trees = d.blocks.map (·.2.tree) := by
  rw [trees_eq, d.blocks_text]
  refine List.filter_eq_self.mpr fun t ht => ?_
  obtain ⟨b, -, rfl⟩ := List.mem_map.mp ht
  simpa using b.2.represents.leafValue_ne_nil

/-- **A dump of at least one tree is accepted.** -/
theorem Dump.loadString_text [One D] {atof : List Char → D} (d : Dump atof) (hne : d.forest ≠ []) :
    loadString atof d.text = .ok ⟨d.blocks.map (·.2.tree), (readText atof d.text).maxFeatureIdx,
      (readText atof d.text).sigmoid⟩ := by
  refine (loadString_ok_iff atof).mpr ⟨?_, ?_, ?_⟩
  · rw [d.trees_readText]
    intro t ht
    obtain ⟨b, -, rfl⟩ := List.mem_map.mp ht
    exact ⟨b.2.lengthsAgree, b.2.numerical⟩
  · rw [d.trees_readText]
    intro hnil
    exact hne (by rw [Dump.forest, List.map_eq_nil_iff.mp hnil]; rfl)
  · rw [d.trees_readText]

variable [AddMonoid D] [LE D] [DecidableLE D]

/-- The loop over the trees adds up what they stand for. -/
theorem scoreFrom_represents {atof : List Char → D} (features : List D)
    (bs : List ((T : DTree D) × TreeBlock atof T)) :
    ∃ turns, ∀ turns' ≥ turns, ∀ sum,
      scoreFrom features turns' (bs.map (·.2.tree)) sum =
        .ret (sum + ((bs.map (·.1)).map (·.eval features)).sum) := by
  induction bs with
  | nil => exact ⟨0, fun _ _ sum => by simp [scoreFrom]⟩
  | cons b bs ih =>
    obtain ⟨turns, hone⟩ := b.2.represents.addTo features
    obtain ⟨rest, hrest⟩ := ih
    refine ⟨max turns rest, fun turns' hge sum => ?_⟩
    rw [List.map_cons, scoreFrom, hone turns' ((le_max_left _ _).trans hge)]
    dsimp only
    rw [hrest turns' ((le_max_right _ _).trans hge), List.map_cons, List.map_cons, List.sum_cons,
      add_assoc]

/-- **The score of a dump is the meaning of its forest.** The text of a dump of at least one tree
    is accepted, and for every feature vector the score is the sum over the trees of what
    recursive descent gives. -/
theorem rawScore_dump [One D] {atof : List Char → D} (d : Dump atof) (hne : d.forest ≠ []) :
    ∃ m, loadString atof d.text = .ok m ∧ ∀ features, ∃ turns, ∀ turns' ≥ turns,
      m.rawScore features turns' = .ret (d.forest.map (·.eval features)).sum := by
  refine ⟨_, d.loadString_text hne, fun features => ?_⟩
  obtain ⟨turns, hscore⟩ := scoreFrom_represents features d.blocks
  refine ⟨turns, fun turns' hge => ?_⟩
  show scoreFrom features turns' (d.blocks.map (·.2.tree)) 0 = _
  rw [hscore turns' hge 0, zero_add]
  rfl

end Meaning

/-- Whole numbers in decimal. -/
def printWhole (v : ℚ) : List Char := showInt v.num

def sampleTree : DTree ℚ := .node 0 1 (.leaf 5) (.node 1 (-2) (.leaf 7) (.leaf 9))

/-- A whole number that fits an `int` is printed without loss. -/
theorem printable_whole {v : ℚ} (z : ℤ) (hv : v = Rat.ofInt z) (hz : IsInt32 z) :
    Printable wholeAtof printWhole v := by
  subst hv
  refine ⟨isWord_showInt z, ?_⟩
  show Rat.ofInt (atoi (showInt z)) = Rat.ofInt z
  rw [atoi_showInt hz.1 hz.2]

/-- All of the sample tree's numbers are whole and fit. -/
theorem fits_sampleTree : sampleTree.flatten.Fits wholeAtof printWhole where
  splitFeature := by decide +kernel
  decisionType := by decide +kernel
  leftChild := by decide +kernel
  rightChild := by decide +kernel
  threshold := by
    have hsmall : sampleTree.flatten.threshold = [1, -2] := rfl
    rw [hsmall]
    simp only [List.forall_mem_cons, List.not_mem_nil, false_imp_iff, implies_true, and_true]
    exact ⟨printable_whole 1 rfl (by decide), printable_whole (-2) rfl (by decide)⟩
  leafValue := by
    have hsmall : sampleTree.flatten.leafValue = [5, 7, 9] := rfl
    rw [hsmall]
    simp only [List.forall_mem_cons, List.not_mem_nil, false_imp_iff, implies_true, and_true]
    exact ⟨printable_whole 5 rfl (by decide), printable_whole 7 rfl (by decide),
      printable_whole 9 rfl (by decide)⟩

/-- A tree that is one leaf has nothing but its value to print. -/
theorem fits_leaf_three : (DTree.leaf 3).flatten.Fits wholeAtof printWhole where
  splitFeature := nofun
  decisionType := nofun
  leftChild := nofun
  rightChild := nofun
  threshold := nofun
  leafValue := by
    intro v hv
    obtain rfl : v = 3 := List.mem_singleton.mp hv
    exact printable_whole 3 rfl (by decide)

/-- Two trees, the second a single leaf, with a header, blank lines and a trailer; every other
    line ends in CRLF. -/
def sampleDump : Dump wholeAtof where
  header := ["tree".toList, "version=v4".toList, "max_feature_idx=1".toList, []]
  blocks :=
    [⟨sampleTree, .ofTree wholeAtof printWhole sampleTree fits_sampleTree
        ["num_leaves=3".toList, [], "split_gain=2 1".toList] (by decide +kernel)⟩,
     ⟨.leaf 3, .ofTree wholeAtof printWhole (.leaf 3) fits_leaf_three
        ["num_leaves=1".toList] (by decide +kernel)⟩]
  trailer := [[], "feature_importances:".toList, "read_rate_t-1=2".toList, "hour=1".toList]
  ends k := if k % 2 = 0 then .lf else .crlf
  history := 1
  gamma := 0
  header_lines := by decide +kernel
  trailer_lines := by decide +kernel

/-- Two trees, one with a split and one without, through the text and back. -/
theorem rawScore_sampleDump : ∃ m, loadString wholeAtof sampleDump.text = .ok m ∧
    ∀ features, ∃ turns, ∀ turns' ≥ turns,
      m.rawScore features turns' = .ret ([sampleTree, .leaf 3].map (·.eval features)).sum :=
  rawScore_dump sampleDump (by decide)

-- the second feature is missing and reads as zero, above the threshold
example : (loadString wholeAtof sampleDump.text).toOption.map (·.rawScore [2] 3) =
    some (.ret 12) := by
  decide +kernel

end Leaper.Gbdt
