import Leaper.Lib.Tokens
import Leaper.Lib.While
import Mathlib.Data.Rat.Floor
import Mathlib.Order.Interval.Finset.Basic
import Mathlib.Data.Int.Interval

namespace Leaper.Gbdt

open Lib

/-!
# The tree model

`leaper/src/gbdt.cc`: the loader of LightGBM's text model and the walk through its trees.  The
loader is a fold over the lines; a tree is committed when the next one starts or the text ends.
The scorer follows child indices as they stand in the file, so a walk may leave the arrays or
go round for ever; both are outcomes here.

A `double` is an element of a type `D` with the operations the code uses and no laws about
them: `atof` may give infinities and numbers that compare with nothing.

* `trees_eq` — the trees loaded are the blocks of the text that have leaf values;
* `descends_iff` — when every walk through a tree ends in one of its leaves;
* `accepted_safe_iff` — when an accepted model can be scored.
-/

/-- `GbdtModel::Tree`. -/
structure Tree (D : Type*) where
  splitFeature : List ℤ := []
  threshold : List D := []
  decisionType : List ℤ := []
  leftChild : List ℤ := []
  rightChild : List ℤ := []
  leafValue : List D := []
  deriving DecidableEq, Repr

/-- `GbdtModel`. -/
structure GbdtModel (D : Type*) where
  trees : List (Tree D)
  maxFeatureIdx : ℤ
  sigmoid : D
  deriving DecidableEq, Repr

/-! ### The loader -/

/-- `Split`: at the first equals sign. -/
def split (line : List Char) : Option (List Char × List Char) :=
  if '=' ∈ line then some (line.takeWhile (· ≠ '='), (line.dropWhile (· ≠ '=')).tail) else none

/-- The arrays of a tree. -/
inductive Field
  | splitFeature
  | threshold
  | decisionType
  | leftChild
  | rightChild
  | leafValue
  deriving DecidableEq, Repr

/-- The key an array has in the file. -/
def Field.name : Field → List Char
  | .splitFeature => "split_feature".toList
  | .threshold => "threshold".toList
  | .decisionType => "decision_type".toList
  | .leftChild => "left_child".toList
  | .rightChild => "right_child".toList
  | .leafValue => "leaf_value".toList

/-- What the loader makes of a key. -/
inductive Key
  | tree
  | maxFeatureIdx
  | objective
  | field (f : Field)
  | other
  deriving DecidableEq, Repr

/-- The chain of comparisons in `LoadString`. -/
def keyOf (key : List Char) : Key :=
  if key = "Tree".toList then .tree
  else if key = "max_feature_idx".toList then .maxFeatureIdx
  else if key = "objective".toList then .objective
  else if key = Field.splitFeature.name then .field .splitFeature
  else if key = Field.threshold.name then .field .threshold
  else if key = Field.decisionType.name then .field .decisionType
  else if key = Field.leftChild.name then .field .leftChild
  else if key = Field.rightChild.name then .field .rightChild
  else if key = Field.leafValue.name then .field .leafValue
  else .other

/-- What follows the first place where `pattern` occurs. -/
def afterFirst (pattern : List Char) : List Char → Option (List Char)
  | [] => if pattern = [] then some [] else none
  | c :: s =>
    if pattern.isPrefixOf (c :: s) then some ((c :: s).drop pattern.length)
    else afterFirst pattern s

/-- A line without the carriage return a CRLF file leaves at its end. -/
def stripCr (line : List Char) : List Char :=
  if line.getLast? = some '\r' then line.dropLast else line

/-- The key and the value of a line; the loader skips lines that have none. -/
def entryOf (line : List Char) : Option (List Char × List Char) :=
  if stripCr line = [] then none else split (stripCr line)

section Load

variable {D : Type*} (atof : List Char → D)

/-- `ParseInts`. -/
def parseInts (v : List Char) : List ℤ := (words v).map atoi

/-- `ParseDoubles`. -/
def parseDoubles (v : List Char) : List D := (words v).map atof

/-- Read one array. -/
def Tree.set (t : Tree D) (f : Field) (v : List Char) : Tree D :=
  match f with
  | .splitFeature => { t with splitFeature := parseInts v }
  | .threshold => { t with threshold := parseDoubles atof v }
  | .decisionType => { t with decisionType := parseInts v }
  | .leftChild => { t with leftChild := parseInts v }
  | .rightChild => { t with rightChild := parseInts v }
  | .leafValue => { t with leafValue := parseDoubles atof v }

/-- The variables of `LoadString` and the members it fills. -/
structure LoadState (D : Type*) where
  trees : List (Tree D) := []
  cur : Tree D := {}
  inTree : Bool := false
  maxFeatureIdx : ℤ := -1
  sigmoid : D

/-- `flush_tree`. -/
def LoadState.flushTree (st : LoadState D) : LoadState D :=
  { st with
    trees := if st.inTree && !st.cur.leafValue.isEmpty then st.trees ++ [st.cur] else st.trees
    cur := {}
    inTree := false }

/-- What a line with a key and a value does. -/
def LoadState.assign (st : LoadState D) (e : List Char × List Char) : LoadState D :=
  match keyOf e.1 with
  | .tree => { st.flushTree with inTree := true }
  | .maxFeatureIdx => { st with maxFeatureIdx := atoi e.2 }
  | .objective =>
    match afterFirst "sigmoid:".toList e.2 with
    | none => st
    | some rest => { st with sigmoid := atof rest }
  | .field f => if st.inTree then { st with cur := st.cur.set atof f e.2 } else st
  | .other => st

/-- The node arrays have one length. -/
def Tree.lengthsAgree (t : Tree D) : Bool :=
  t.splitFeature.length = t.threshold.length ∧ t.splitFeature.length = t.leftChild.length ∧
    t.splitFeature.length = t.rightChild.length

/-- The checks `LoadString` makes of the trees, one after another. -/
def checkTrees : List (Tree D) → Except String Unit
  | [] => .ok ()
  | t :: ts =>
    if !t.lengthsAgree then .error "malformed tree: node arrays disagree in length"
    else if t.decisionType.any (fun d => d % 2 = 1) then
      .error "model contains categorical splits, which are not supported"
    else checkTrees ts

/-- The members after all lines of the text. -/
def readText [One D] (text : List Char) : LoadState D :=
  (((linesOf text).filterMap entryOf).foldl (LoadState.assign atof) { sigmoid := 1 }).flushTree

/-- `GbdtModel::LoadString`. -/
def loadString [One D] (text : List Char) : Except String (GbdtModel D) :=
  let st := readText atof text
  match checkTrees st.trees with
  | .error e => .error e
  | .ok () =>
    if st.trees.isEmpty then .error "no trees found in model"
    else .ok ⟨st.trees, st.maxFeatureIdx, st.sigmoid⟩

end Load

/-! ### The scorer -/

section Score

variable {D : Type*}

/-- The value of a feature; one the caller has not given reads as zero. -/
def featureAt [Zero D] (features : List D) (f : ℤ) : D :=
  if 0 ≤ f ∧ f < features.length then features.getD f.toNat 0 else 0

/-- The child that is chosen at a node, if the node is inside the arrays.  `left i x thr` says
    that a value goes left at node `i`. -/
def Tree.chosen [Zero D] (left : ℕ → D → D → Bool) (t : Tree D) (features : List D) (i : ℕ) :
    Option ℤ :=
  match t.splitFeature[i]?, t.threshold[i]? with
  | some f, some thr =>
    if left i (featureAt features f) thr then t.leftChild[i]? else t.rightChild[i]?
  | _, _ => none

/-- The body of the `while` loop in `RawScore`.  A negative node is a leaf. -/
def Tree.walk [Zero D] (left : ℕ → D → D → Bool) (t : Tree D) (features : List D) (node : ℤ) :
    Step ℤ ℤ :=
  if node < 0 then .ret (-node - 1)
  else
    match t.chosen left features node.toNat with
    | none => .fail
    | some c => .next c

/-- The leaf a descent ends in.  A tree without nodes has one leaf. -/
def Tree.descend [Zero D] (left : ℕ → D → D → Bool) (t : Tree D) (features : List D)
    (turns : ℕ) : Outcome ℤ :=
  if t.splitFeature.isEmpty then .ret 0 else loop (t.walk left features) turns 0

/-- The decision in `RawScore`: at most the threshold goes left. -/
def atMost [LE D] [DecidableLE D] (_ : ℕ) (x thr : D) : Bool := decide (x ≤ thr)

variable [Zero D] [Add D] [LE D] [DecidableLE D]

/-- What a tree adds to the score; a leaf outside the array adds nothing. -/
def Tree.addTo (t : Tree D) (features : List D) (turns : ℕ) (sum : D) : Outcome D :=
  if t.leafValue.isEmpty then .ret sum
  else
    match t.descend atMost features turns with
    | .ret leaf =>
      .ret (if 0 ≤ leaf ∧ leaf < t.leafValue.length then sum + t.leafValue.getD leaf.toNat 0
        else sum)
    | .fail => .fail
    | .running => .running

/-- The loop over the trees. -/
def scoreFrom (features : List D) (turns : ℕ) : List (Tree D) → D → Outcome D
  | [], sum => .ret sum
  | t :: ts, sum =>
    match t.addTo features turns sum with
    | .ret sum' => scoreFrom features turns ts sum'
    | .fail => .fail
    | .running => .running

/-- `GbdtModel::RawScore`, with at most so many turns of the loop in each tree. -/
def GbdtModel.rawScore (m : GbdtModel D) (features : List D) (turns : ℕ) : Outcome D :=
  scoreFrom features turns m.trees 0

end Score

/-! ### What is loaded -/

section Loaded

variable {D : Type*} (atof : List Char → D)

/-- A line that has a key and a value. -/
abbrev Entry := List Char × List Char

/-- The entries of a text. -/
def entries (text : List Char) : List Entry := (linesOf text).filterMap entryOf

/-- The entries before the first `Tree=` line, and those of each block. -/
def blocks : List Entry → List Entry × List (List Entry)
  | [] => ([], [])
  | e :: es =>
    if keyOf e.1 = .tree then ([], (blocks es).1 :: (blocks es).2)
    else (e :: (blocks es).1, (blocks es).2)

/-- The `Tree=` lines of a text. -/
def numTreeLines (text : List Char) : ℕ := (entries text).countP fun e => e.1 = "Tree".toList

/-- What an entry of a block does to its tree. -/
def Tree.read (t : Tree D) (e : Entry) : Tree D :=
  match keyOf e.1 with
  | .field f => t.set atof f e.2
  | _ => t

/-- The tree of a block. -/
def readTree (t : Tree D) (es : List Entry) : Tree D := es.foldl (Tree.read atof) t

/-- The trees that are committed. -/
def keep (ts : List (Tree D)) : List (Tree D) := ts.filter fun t => !t.leafValue.isEmpty

/-- Only the key `Tree` opens a tree. -/
theorem keyOf_eq_tree_iff {key : List Char} : keyOf key = .tree ↔ key = "Tree".toList := by
  unfold keyOf
  by_cases h : key = "Tree".toList
  · rw [if_pos h]
    exact iff_of_true rfl h
  · rw [if_neg h]
    refine iff_of_false (fun heq => ?_) h
    repeat' split at heq
    all_goals cases heq

/-- There is a block for each such line. -/
theorem length_blocks (es : List Entry) :
    (blocks es).2.length = es.countP fun e => e.1 = "Tree".toList := by
  induction es with
  | nil => rfl
  | cons e es ih =>
    rw [blocks]
    by_cases h : keyOf e.1 = .tree
    · rw [if_pos h, List.countP_cons, if_pos (decide_eq_true (keyOf_eq_tree_iff.mp h)),
        List.length_cons, ih]
    · have hkey : ¬ decide (e.1 = "Tree".toList) = true := by
        rw [decide_eq_true_iff, ← keyOf_eq_tree_iff]
        exact h
      rw [if_neg h, List.countP_cons, if_neg hkey, ih, Nat.add_zero]

/-- Trees without leaves are dropped one by one. -/
theorem keep_append (ts us : List (Tree D)) : keep (ts ++ us) = keep ts ++ keep us :=
  List.filter_append ..

/-- The number of committed trees is the number of blocks if none is without leaf values. -/
theorem length_keep_eq_iff (ts : List (Tree D)) :
    (keep ts).length = ts.length ↔ ∀ t ∈ ts, t.leafValue ≠ [] := by
  unfold keep
  rw [List.length_filter_eq_length_iff]
  simp

/-- `FlushTree` keeps the tree that was being read, unless it has no leaf. -/
theorem flushTree_trees (st : LoadState D) :
    st.flushTree.trees = st.trees ++ keep (if st.inTree then [st.cur] else []) := by
  unfold LoadState.flushTree keep
  cases st.inTree with
  | false => simp
  | true => cases h : st.cur.leafValue.isEmpty <;> simp [h]

/-- An entry inside a block changes the tree being read, one outside none. -/
theorem assign_of_ne {e : Entry} (h : keyOf e.1 ≠ .tree) (st : LoadState D) :
    (st.assign atof e).trees = st.trees ∧ (st.assign atof e).inTree = st.inTree ∧
    (st.inTree = true → (st.assign atof e).cur = st.cur.read atof e) := by
  unfold LoadState.assign Tree.read
  cases hkey : keyOf e.1 with
  | tree => exact absurd hkey h
  | maxFeatureIdx => exact ⟨rfl, rfl, fun _ => rfl⟩
  | objective =>
    cases afterFirst "sigmoid:".toList e.2 with
    | none => exact ⟨rfl, rfl, fun _ => rfl⟩
    | some rest => exact ⟨rfl, rfl, fun _ => rfl⟩
  | field f =>
    cases hin : st.inTree with
    | false => exact ⟨rfl, hin, fun h => nomatch h⟩
    | true => exact ⟨rfl, rfl, fun _ => rfl⟩
  | other => exact ⟨rfl, rfl, fun _ => rfl⟩

/-- **The loader against the blocks.** From any state: the block being read goes on to the next
    `Tree=` line, and then come the others. -/
theorem foldl_assign_trees (es : List Entry) : ∀ st : LoadState D,
    (es.foldl (LoadState.assign atof) st).flushTree.trees =
      st.trees ++ keep ((if st.inTree then [readTree atof st.cur (blocks es).1] else []) ++
        (blocks es).2.map (readTree atof {})) := by
  induction es with
  | nil =>
    intro st
    rw [List.foldl_nil, flushTree_trees]
    simp [blocks, readTree]
  | cons e es ih =>
    intro st
    rw [List.foldl_cons, ih, blocks]
    by_cases h : keyOf e.1 = .tree
    · have hassign : st.assign atof e = { st.flushTree with inTree := true } := by
        rw [LoadState.assign, h]
      rw [hassign, if_pos h]
      show st.flushTree.trees ++ keep ([readTree atof {} (blocks es).1] ++ _) = _
      rw [flushTree_trees, List.append_assoc, ← keep_append]
      rfl
    · obtain ⟨htrees, hin, hcur⟩ := assign_of_ne atof h st
      rw [if_neg h, htrees, hin]
      cases hst : st.inTree with
      | false => rfl
      | true =>
        rw [hcur hst]
        rfl

/-- **The trees loaded are the blocks that have leaf values.** -/
theorem trees_eq [One D] (text : List Char) :
    (readText atof text).trees = keep ((blocks (entries text)).2.map (readTree atof {})) := by
  unfold readText
  rw [foldl_assign_trees]
  rfl

/-- What the loader checks: arrays of one length, and no categorical split. -/
theorem checkTrees_ok_iff (ts : List (Tree D)) :
    checkTrees ts = .ok () ↔
      ∀ t ∈ ts, t.lengthsAgree = true ∧ ∀ d ∈ t.decisionType, d % 2 ≠ 1 := by
  induction ts with
  | nil => simp [checkTrees]
  | cons t ts ih =>
    rw [checkTrees, List.forall_mem_cons, ← ih]
    cases hlen : t.lengthsAgree with
    | false => simp
    | true =>
      cases hcat : t.decisionType.any (fun d => d % 2 = 1) with
      | true =>
        obtain ⟨d, hd, hodd⟩ := List.any_eq_true.mp hcat
        simp only [Bool.not_true, Bool.false_eq_true, if_false, if_true]
        refine iff_of_false (by simp) fun hall => hall.1.2 d hd (of_decide_eq_true hodd)
      | false =>
        rw [List.any_eq_false] at hcat
        simp only [Bool.not_true, Bool.false_eq_true, if_false]
        refine ⟨fun h => ⟨⟨trivial, fun d hd hodd => hcat d hd (decide_eq_true hodd)⟩, h⟩,
          And.right⟩

/-- **What acceptance says.** -/
theorem loadString_ok_iff [One D] {text : List Char} {m : GbdtModel D} :
    loadString atof text = .ok m ↔
      (∀ t ∈ (readText atof text).trees, t.lengthsAgree = true ∧ ∀ d ∈ t.decisionType, d % 2 ≠ 1) ∧
      (readText atof text).trees ≠ [] ∧
      m = ⟨(readText atof text).trees, (readText atof text).maxFeatureIdx,
        (readText atof text).sigmoid⟩ := by
  rw [← checkTrees_ok_iff]
  unfold loadString
  dsimp only
  cases hcheck : checkTrees (readText atof text).trees with
  | error e => simp
  | ok u =>
    cases htrees : (readText atof text).trees with
    | nil => simp
    | cons t ts => simp [eq_comm]

end Loaded

/-! ### When a walk through a tree ends in a leaf -/

section Descent

variable {D : Type*} [Zero D] {left : ℕ → D → D → Bool} {t : Tree D} {features : List D}

/-- In a tree that passed the check exactly the nodes below `split_feature`'s length have a
    child. -/
theorem Tree.chosen_isSome_iff (hlen : t.lengthsAgree = true) (i : ℕ) :
    (t.chosen left features i).isSome = true ↔ i < t.splitFeature.length := by
  obtain ⟨hthr, hleft, hright⟩ := of_decide_eq_true hlen
  unfold Tree.chosen
  by_cases hi : i < t.splitFeature.length
  · rw [List.getElem?_eq_getElem hi, List.getElem?_eq_getElem (hthr ▸ hi)]
    dsimp only
    split_ifs
    · rw [List.getElem?_eq_getElem (hleft ▸ hi)]
      exact iff_of_true rfl hi
    · rw [List.getElem?_eq_getElem (hright ▸ hi)]
      exact iff_of_true rfl hi
  · rw [List.getElem?_eq_none (not_lt.mp hi)]
    exact iff_of_false Bool.false_ne_true hi

/-- The loop goes from an inner node to the child it chooses. -/
theorem Tree.goes_iff {node c : ℤ} :
    Goes (t.walk left features) node c ↔ 0 ≤ node ∧ t.chosen left features node.toNat = some c := by
  unfold Goes Tree.walk
  by_cases hneg : node < 0
  · rw [if_pos hneg]
    exact iff_of_false (by simp) (by omega)
  · rw [if_neg hneg]
    cases t.chosen left features node.toNat with
    | none => simp
    | some c' => simp [not_lt.mp hneg]

/-- At a negative index the loop returns the leaf. -/
theorem Tree.loop_of_neg {node : ℤ} (h : node < 0) (n : ℕ) :
    loop (t.walk left features) (n + 1) node = .ret (-node - 1) := by
  rw [loop, Tree.walk, if_pos h]

/-- At an index beyond the arrays the loop reads outside of them. -/
theorem Tree.loop_outside (hlen : t.lengthsAgree = true) {node : ℤ} (h0 : 0 ≤ node)
    (h : t.splitFeature.length ≤ node) (n : ℕ) :
    loop (t.walk left features) (n + 1) node = .fail := by
  have hnone : t.chosen left features node.toNat = none := by
    rw [← Option.not_isSome_iff_eq_none, Tree.chosen_isSome_iff hlen]
    omega
  rw [loop, Tree.walk, if_neg (not_lt.mpr h0), hnone]

/-- The children that are chosen on the way lead to a node or a leaf, and not back. -/
def Tree.WayDown (left : ℕ → D → D → Bool) (t : Tree D) (features : List D) : Prop :=
  ∀ (i : ℕ) (c : ℤ), Reaches (t.walk left features) 0 i → t.chosen left features i = some c →
    -(t.leafValue.length : ℤ) ≤ c ∧ c < t.splitFeature.length ∧ ¬ Reaches (t.walk left features) c i

/-- Every state on such a way is a node or a leaf. -/
theorem Tree.WayDown.range (h : t.WayDown left features) (hne : t.splitFeature ≠ []) {s : ℤ}
    (hs : Reaches (t.walk left features) 0 s) :
    -(t.leafValue.length : ℤ) ≤ s ∧ s < t.splitFeature.length := by
  have hpos := List.length_pos_of_ne_nil hne
  induction hs with
  | refl => omega
  | @tail node c hreach hgo _ =>
    obtain ⟨h0, hchosen⟩ := Tree.goes_iff.mp hgo
    lift node to ℕ using h0
    obtain ⟨hlo, hhi, -⟩ := h node c hreach hchosen
    exact ⟨hlo, hhi⟩

/-- A walk that ends in a leaf of the tree only meets children in range, and no node twice. -/
theorem Tree.wayDown_of_loop (hlen : t.lengthsAgree = true) {turns : ℕ} {leaf : ℤ}
    (hret : loop (t.walk left features) turns 0 = .ret leaf) (h0 : 0 ≤ leaf)
    (hleaf : leaf < t.leafValue.length) : t.WayDown left features := by
  intro i c hreach hchosen
  have hgo : Goes (t.walk left features) i c :=
    Tree.goes_iff.mpr ⟨Int.natCast_nonneg i, by simpa using hchosen⟩
  obtain ⟨m, hm⟩ := loop_reaches (hreach.tail hgo) hret (by simp)
  obtain ⟨m, rfl⟩ : ∃ k, m = k + 1 := by
    cases m with
    | zero => cases hm
    | succ k => exact ⟨k, rfl⟩
  have hrange : -(t.leafValue.length : ℤ) ≤ c ∧ c < t.splitFeature.length := by
    by_cases hneg : c < 0
    · rw [Tree.loop_of_neg hneg] at hm
      have := Outcome.ret.inj hm
      omega
    · -- a node outside the arrays would have made the walk fail
      by_contra hout
      rw [Tree.loop_outside hlen (by omega) (by omega)] at hm
      cases hm
  refine ⟨hrange.1, hrange.2, fun hback => ?_⟩
  obtain ⟨k, hk⟩ := loop_reaches hreach hret (by simp)
  rw [loop_running_of_cycle (Relation.TransGen.head' hgo hback)] at hk
  cases hk

/-- A way down comes by no node twice. -/
theorem Tree.WayDown.acyclic (h : t.WayDown left features) {s : ℤ}
    (hs : Reaches (t.walk left features) 0 s) :
    ¬ Relation.TransGen (Goes (t.walk left features)) s s := by
  intro hcycle
  obtain ⟨c, hgo, hback⟩ := Relation.TransGen.head'_iff.mp hcycle
  obtain ⟨h0, hchosen⟩ := Tree.goes_iff.mp hgo
  lift s to ℕ using h0
  exact (h s c hs hchosen).2.2 hback

/-- Such a walk does end: it can meet finitely many nodes only. -/
theorem Tree.WayDown.exists_loop (h : t.WayDown left features) (hlen : t.lengthsAgree = true)
    (hne : t.splitFeature ≠ []) :
    ∃ turns leaf, loop (t.walk left features) turns 0 = .ret leaf ∧ 0 ≤ leaf ∧
      leaf < t.leafValue.length := by
  have hfin : {s | Reaches (t.walk left features) 0 s}.Finite := by
    apply (Set.finite_Ico (-(t.leafValue.length : ℤ)) t.splitFeature.length).subset
    intro s hs
    exact h.range hne hs
  obtain ⟨turns, hturns⟩ := exists_loop_ne_running hfin fun s hs => h.acyclic hs
  obtain ⟨s, hs, hend⟩ := exists_reaches_of_loop rfl hturns
  obtain ⟨hlo, hhi⟩ := h.range hne hs
  by_cases hneg : s < 0
  · rw [Tree.loop_of_neg hneg] at hend
    exact ⟨turns, -s - 1, hend.symm, by omega, by omega⟩
  · -- a node inside the arrays has a child, so the walk cannot end there
    obtain ⟨c, hc⟩ := Option.isSome_iff_exists.mp
      ((Tree.chosen_isSome_iff hlen s.toNat).mpr (by omega) :
        (t.chosen left features s.toNat).isSome = true)
    have hgo : Goes (t.walk left features) s c := Tree.goes_iff.mpr ⟨not_lt.mp hneg, hc⟩
    rw [loop_succ_of_goes hgo] at hend
    exact absurd hend.symm hturns

/-- **When a walk ends in a leaf of the tree.** -/
theorem Tree.descends_iff (hlen : t.lengthsAgree = true) (hne : t.splitFeature ≠ []) :
    (∃ turns leaf, t.descend left features turns = .ret leaf ∧ 0 ≤ leaf ∧
      leaf < t.leafValue.length) ↔ t.WayDown left features := by
  have hempty : t.splitFeature.isEmpty = false := by simpa using hne
  have hdescend : ∀ turns, t.descend left features turns =
      loop (t.walk left features) turns 0 := by
    intro turns
    rw [Tree.descend, hempty]
    rfl
  simp only [hdescend]
  constructor
  · rintro ⟨turns, leaf, hret, h0, hleaf⟩
    exact Tree.wayDown_of_loop hlen hret h0 hleaf
  · exact fun hway => hway.exists_loop hlen hne

/-- More turns change nothing once a leaf is reached. -/
theorem Tree.descend_mono {left : ℕ → D → D → Bool} {t : Tree D} {features : List D}
    {turns turns' : ℕ} {leaf : ℤ} (h : t.descend left features turns = .ret leaf)
    (hle : turns ≤ turns') : t.descend left features turns' = .ret leaf := by
  unfold Tree.descend at h ⊢
  split_ifs at h ⊢
  · exact h
  · exact loop_mono h (by simp) hle

/-- Every child is a leaf of the tree or a later node, as LightGBM numbers them. -/
def Tree.Ordered (t : Tree D) : Prop :=
  ∀ i < t.splitFeature.length, ∀ c ∈ t.leftChild[i]?.toList ++ t.rightChild[i]?.toList,
    -(t.leafValue.length : ℤ) ≤ c ∧ c < t.splitFeature.length ∧ (c < 0 ∨ (i : ℤ) < c)

omit [Zero D] in
instance (t : Tree D) : Decidable t.Ordered := by
  unfold Tree.Ordered
  infer_instance

/-- The child chosen is one of the node's two. -/
theorem Tree.mem_children_of_chosen {i : ℕ} {c : ℤ} (h : t.chosen left features i = some c) :
    i < t.splitFeature.length ∧ c ∈ t.leftChild[i]?.toList ++ t.rightChild[i]?.toList := by
  unfold Tree.chosen at h
  cases hf : t.splitFeature[i]? with
  | none => rw [hf] at h; cases h
  | some f =>
    refine ⟨(List.getElem?_eq_some_iff.mp hf).1, ?_⟩
    cases hthr : t.threshold[i]? with
    | none => rw [hf, hthr] at h; cases h
    | some thr =>
      rw [hf, hthr] at h
      dsimp only at h
      split_ifs at h
      · exact List.mem_append_left _ (Option.mem_toList.mpr h)
      · exact List.mem_append_right _ (Option.mem_toList.mpr h)

/-- **Ordered trees are safe**: node numbers only grow on the way down. -/
theorem Tree.Ordered.wayDown (h : t.Ordered) : t.WayDown left features := by
  have hgrows : ∀ {c s : ℤ}, Reaches (t.walk left features) c s → s < 0 ∨ c ≤ s := by
    intro c s hreach
    induction hreach with
    | refl => exact Or.inr le_rfl
    | tail _ hgo ih =>
      obtain ⟨h0, hchosen⟩ := Tree.goes_iff.mp hgo
      obtain ⟨hi, hmem⟩ := Tree.mem_children_of_chosen hchosen
      obtain ⟨-, -, hlater⟩ := h _ hi _ hmem
      omega
  intro i c _ hchosen
  obtain ⟨hi, hmem⟩ := Tree.mem_children_of_chosen hchosen
  obtain ⟨hlo, hhi, hlater⟩ := h i hi c hmem
  refine ⟨hlo, hhi, fun hback => ?_⟩
  rcases hlater with hneg | hlt
  · -- a leaf leads nowhere
    rcases Relation.ReflTransGen.cases_head hback with heq | ⟨s, hgo, -⟩
    · omega
    · have := (Tree.goes_iff.mp hgo).1
      omega
  · have := hgrows hback
    omega

end Descent

/-! ### Scoring an accepted model -/

section Safe

variable {D : Type*} [Zero D] [Add D] [LE D] [DecidableLE D]

/-- If the walk through each tree ends, so does the score. -/
theorem exists_scoreFrom {features : List D} {ts : List (Tree D)}
    (h : ∀ t ∈ ts, ∃ turns leaf, t.descend atMost features turns = .ret leaf) :
    ∃ turns, ∀ turns' ≥ turns, ∀ sum, ∃ score, scoreFrom features turns' ts sum = .ret score := by
  induction ts with
  | nil => exact ⟨0, fun _ _ sum => ⟨sum, rfl⟩⟩
  | cons t ts ih =>
    obtain ⟨turns, leaf, hleaf⟩ := h t List.mem_cons_self
    obtain ⟨rest, hrest⟩ := ih fun t' ht' => h t' (List.mem_cons_of_mem _ ht')
    refine ⟨max turns rest, fun turns' hge sum => ?_⟩
    have hone : ∃ sum', t.addTo features turns' sum = .ret sum' := by
      unfold Tree.addTo
      rw [Tree.descend_mono hleaf ((le_max_left _ _).trans hge)]
      split_ifs
      · exact ⟨sum, rfl⟩
      · exact ⟨_, rfl⟩
    obtain ⟨sum', hsum'⟩ := hone
    obtain ⟨score, hscore⟩ := hrest turns' ((le_max_right _ _).trans hge) sum'
    exact ⟨score, by rw [scoreFrom, hsum']; exact hscore⟩

/-- **When an accepted model can be scored.** No tree is missing, the score is computed for every
    feature vector and every walk ends inside the leaf values, exactly if every `Tree=` block
    has leaf values and every child that is chosen on the way down, for some feature vector, is
    a node or a leaf of its tree and does not lead back. -/
theorem accepted_safe_iff [One D] {atof : List Char → D} {text : List Char} {m : GbdtModel D}
    (hload : loadString atof text = .ok m) :
    (m.trees.length = numTreeLines text ∧ ∀ features : List D,
      (∃ turns score, m.rawScore features turns = .ret score) ∧
      ∀ t ∈ m.trees, ∃ turns leaf, t.descend atMost features turns = .ret leaf ∧ 0 ≤ leaf ∧
        leaf < t.leafValue.length) ↔
    (∀ b ∈ (blocks (entries text)).2, (readTree atof {} b).leafValue ≠ []) ∧
      ∀ t ∈ m.trees, t.splitFeature ≠ [] → ∀ features, t.WayDown atMost features := by
  obtain ⟨hcheck, -, hm⟩ := (loadString_ok_iff atof).mp hload
  have htrees : m.trees = keep ((blocks (entries text)).2.map (readTree atof {})) := by
    rw [hm, ← trees_eq]
  -- only blocks without leaf values are dropped
  have hcount : m.trees.length = numTreeLines text ↔
      ∀ b ∈ (blocks (entries text)).2, (readTree atof {} b).leafValue ≠ [] := by
    rw [htrees, numTreeLines, ← length_blocks, ← List.length_map (readTree atof {}),
      length_keep_eq_iff, List.forall_mem_map]
  have hlen : ∀ t ∈ m.trees, t.lengthsAgree = true := by
    rw [hm]
    exact fun t ht => (hcheck t ht).1
  have hvalues : ∀ t ∈ m.trees, t.leafValue ≠ [] := by
    intro t ht
    rw [htrees] at ht
    simpa using (List.mem_filter.mp ht).2
  rw [hcount]
  apply and_congr_right
  intro _
  constructor
  · intro hsafe t ht hne features
    exact (Tree.descends_iff (hlen t ht) hne).mp ((hsafe features).2 t ht)
  · intro hway features
    have hdescend : ∀ t ∈ m.trees, ∃ turns leaf, t.descend atMost features turns = .ret leaf ∧
        0 ≤ leaf ∧ leaf < t.leafValue.length := by
      intro t ht
      by_cases hne : t.splitFeature = []
      · -- a tree without nodes has a first leaf
        have hpos := List.length_pos_of_ne_nil (hvalues t ht)
        refine ⟨0, 0, ?_, le_rfl, by omega⟩
        rw [Tree.descend, hne]
        rfl
      · exact (Tree.descends_iff (hlen t ht) hne).mpr (hway t ht hne features)
    refine ⟨?_, hdescend⟩
    -- every tree descends, so with the turns of all of them the sum is reached
    obtain ⟨turns, hscore⟩ := exists_scoreFrom fun t ht => by
      obtain ⟨turns, leaf, hleaf, -⟩ := hdescend t ht
      exact ⟨turns, leaf, hleaf⟩
    obtain ⟨score, h⟩ := hscore turns le_rfl 0
    exact ⟨turns, score, h⟩

end Safe

/-- A reader of whole numbers. -/
def wholeAtof (s : List Char) : ℚ := Rat.ofInt (atoi s)

/-- One tree with one node, in the layout of the file. -/
def stumpText (children : String) : List Char :=
  "Tree=0\nsplit_feature=0\nthreshold=1\ndecision_type=2\n".toList ++ children.toList ++
    "leaf_value=5 7\n".toList

def stump (left right : ℤ) : GbdtModel ℚ :=
  ⟨[⟨[0], [1], [2], [left], [right], [5, 7]⟩], -1, 1⟩

/-- A stump whose children are both leaves is accepted, and evaluated for all features. -/
theorem accepted_safe_stump :
    loadString wholeAtof (stumpText "left_child=-1\nright_child=-2\n") = .ok (stump (-1) (-2)) ∧
      ∀ features, ∃ turns score, (stump (-1) (-2)).rawScore features turns = .ret score := by
  have hload : loadString wholeAtof (stumpText "left_child=-1\nright_child=-2\n") =
      .ok (stump (-1) (-2)) := by decide +kernel
  refine ⟨hload, fun features =>
    (((accepted_safe_iff hload).mpr ⟨by decide +kernel, ?_⟩).2 features).1⟩
  intro t ht _ features
  have hordered : ∀ t ∈ (stump (-1) (-2)).trees, t.Ordered := by decide
  exact (hordered t ht).wayDown

/-- **Accepted and not safe.** A tree whose only node is its own child is never left; one whose
    child is outside the arrays makes the walk read outside them; a block without leaf values
    is dropped. -/
theorem accepted_unsafe :
    (loadString wholeAtof (stumpText "left_child=0\nright_child=-1\n") = .ok (stump 0 (-1)) ∧
      ∀ turns, (stump 0 (-1)).rawScore [0] turns = .running) ∧
    (loadString wholeAtof (stumpText "left_child=3\nright_child=-1\n") = .ok (stump 3 (-1)) ∧
      (stump 3 (-1)).rawScore [0] 2 = .fail) ∧
    (loadString wholeAtof "Tree=0\nleaf_value=1\nTree=1\nnum_leaves=1\n".toList =
        .ok ⟨[{ leafValue := [1] }], -1, 1⟩ ∧
      numTreeLines "Tree=0\nleaf_value=1\nTree=1\nnum_leaves=1\n".toList = 2) := by
  refine ⟨⟨by decide +kernel, fun turns => ?_⟩, by decide +kernel, by decide +kernel⟩
  have hcycle : Goes (Tree.walk atMost (⟨[0], [1], [2], [0], [-1], [5, 7]⟩ : Tree ℚ) [0]) 0 0 :=
    Tree.goes_iff.mpr ⟨le_rfl, by decide +kernel⟩
  simp [GbdtModel.rawScore, stump, scoreFrom, Tree.addTo, Tree.descend,
    loop_running_of_cycle (Relation.TransGen.single hcycle)]

end Leaper.Gbdt
