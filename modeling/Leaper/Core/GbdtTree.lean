import Leaper.Core.Gbdt

namespace Leaper.Gbdt

open Lib

/-!
# Trees and their arrays

A decision tree is an inductive type; `Encodes` says that a place in the arrays of the file
stands for one, under whatever numbering of nodes and leaves.

* `Encodes.ends` — a walk from there ends in one of the tree's leaves;
* `Encodes.ends_eval` — with the scorer's decision, in the one that recursive descent reaches;
* `Encodes.agree_iff` — two decisions reach the same leaf exactly if they agree at every node
  on the way;
* `lightgbm_agrees_iff` — when the scorer reaches the leaf LightGBM reaches.
-/

/-- A binary decision tree with numerical splits. -/
inductive DTree (D : Type*)
  | leaf (value : D)
  | node (feature : ℕ) (threshold : D) (left right : DTree D)
  deriving DecidableEq, Repr

section Trees

variable {D : Type*} [Zero D]

/-- Recursive descent: at most the threshold goes left; a feature that is not there is zero. -/
def DTree.eval [LE D] [DecidableLE D] (features : List D) : DTree D → D
  | .leaf value => value
  | .node f thr l r => if features.getD f 0 ≤ thr then l.eval features else r.eval features

/-- **The arrays from `node` on stand for a tree**, whose leaves, from left to right, have these
    places in `leaf_value`. -/
inductive Encodes (t : Tree D) : ℤ → DTree D → List ℕ → Prop
  | leaf {i : ℕ} {v : D} (hv : t.leafValue[i]? = some v) : Encodes t (-(i : ℤ) - 1) (.leaf v) [i]
  | node {i f : ℕ} {thr : D} {l r : ℤ} {lt rt : DTree D} {ls rs : List ℕ}
      (hf : t.splitFeature[i]? = some (f : ℤ)) (hthr : t.threshold[i]? = some thr)
      (hl : t.leftChild[i]? = some l) (hr : t.rightChild[i]? = some r)
      (hlt : Encodes t l lt ls) (hrt : Encodes t r rt rs) :
      Encodes t i (.node f thr lt rt) (ls ++ rs)

/-- The arrays of a whole tree: a single leaf has no nodes. -/
inductive Tree.Represents (t : Tree D) : DTree D → List ℕ → Prop
  | single {v : D} (hnodes : t.splitFeature = []) (hv : t.leafValue[0]? = some v) :
      t.Represents (.leaf v) [0]
  | nodes {T : DTree D} {ls : List ℕ} (h : Encodes t 0 T ls) : t.Represents T ls

/-- A walk from `node` ends in this leaf. -/
def Tree.Ends (left : ℕ → D → D → Bool) (t : Tree D) (features : List D) (node leaf : ℤ) : Prop :=
  ∃ turns, loop (t.walk left features) turns node = .ret leaf

variable {left : ℕ → D → D → Bool} {t : Tree D} {features : List D}

theorem featureAt_natCast (features : List D) (f : ℕ) :
    featureAt features (f : ℤ) = features.getD f 0 := by
  unfold featureAt
  by_cases hf : f < features.length
  · rw [if_pos ⟨Int.natCast_nonneg f, by exact_mod_cast hf⟩, Int.toNat_natCast]
  · rw [if_neg fun h => hf (by exact_mod_cast h.2), List.getD_eq_getElem?_getD,
      List.getElem?_eq_none (not_lt.mp hf)]
    rfl

theorem Tree.Ends.unique {node leaf leaf' : ℤ} (h : t.Ends left features node leaf)
    (h' : t.Ends left features node leaf') : leaf = leaf' := by
  obtain ⟨n, hn⟩ := h
  obtain ⟨m, hm⟩ := h'
  exact Outcome.ret.inj (loop_unique hn (by simp) hm (by simp))

/-- A walk goes on as it goes on from the chosen child. -/
theorem Tree.ends_iff_of_chosen {i : ℕ} {c leaf : ℤ} (h : t.chosen left features i = some c) :
    t.Ends left features i leaf ↔ t.Ends left features c leaf := by
  have hgo : Goes (t.walk left features) i c :=
    Tree.goes_iff.mpr ⟨Int.natCast_nonneg i, by simpa using h⟩
  constructor
  · rintro ⟨n, hn⟩
    exact loop_reaches (Relation.ReflTransGen.single hgo) hn (by simp)
  · rintro ⟨n, hn⟩
    exact loop_of_reaches (Relation.ReflTransGen.single hgo) hn

/-- What is chosen at an encoded node. -/
theorem Tree.chosen_eq (left : ℕ → D → D → Bool) (features : List D) {i f : ℕ} {thr : D} {l r : ℤ}
    (hf : t.splitFeature[i]? = some (f : ℤ)) (hthr : t.threshold[i]? = some thr)
    (hl : t.leftChild[i]? = some l) (hr : t.rightChild[i]? = some r) :
    t.chosen left features i = some (if left i (features.getD f 0) thr then l else r) := by
  unfold Tree.chosen
  rw [hf, hthr]
  dsimp only
  rw [featureAt_natCast, hl, hr]
  split_ifs <;> rfl

theorem Tree.ends_leaf (i : ℕ) : t.Ends left features (-(i : ℤ) - 1) i := by
  refine ⟨1, ?_⟩
  rw [Tree.loop_of_neg (by omega)]
  congr 1
  omega

omit [Zero D] in
theorem Encodes.splitFeature_ne_nil {c : ℤ} {T : DTree D} {ls : List ℕ} (h : Encodes t c T ls)
    (hc : 0 ≤ c) : t.splitFeature ≠ [] := by
  cases h with
  | leaf hv => omega
  | node hf =>
    intro hnil
    rw [hnil] at hf
    cases hf

/-- **A walk from an encoded place ends in one of its leaves.** -/
theorem Encodes.ends {c : ℤ} {T : DTree D} {ls : List ℕ} (h : Encodes t c T ls)
    (left : ℕ → D → D → Bool) (features : List D) : ∃ i ∈ ls, t.Ends left features c i := by
  induction h with
  | @leaf i v hv => exact ⟨i, List.mem_singleton_self i, Tree.ends_leaf i⟩
  | @node i f thr l r lt rt ls rs hf hthr hl hr _ _ ihl ihr =>
    have hchosen := Tree.chosen_eq left features hf hthr hl hr
    cases hgo : left i (features.getD f 0) thr with
    | true =>
      obtain ⟨k, hk, hends⟩ := ihl
      rw [hgo] at hchosen
      exact ⟨k, List.mem_append_left _ hk, (Tree.ends_iff_of_chosen hchosen).mpr hends⟩
    | false =>
      obtain ⟨k, hk, hends⟩ := ihr
      rw [hgo] at hchosen
      exact ⟨k, List.mem_append_right _ hk, (Tree.ends_iff_of_chosen hchosen).mpr hends⟩

/-- **With the scorer's decision it is the leaf of recursive descent.** -/
theorem Encodes.ends_eval [LE D] [DecidableLE D] {c : ℤ} {T : DTree D} {ls : List ℕ}
    (h : Encodes t c T ls) (features : List D) :
    ∃ i : ℕ, t.Ends atMost features c i ∧ t.leafValue[i]? = some (T.eval features) := by
  induction h with
  | @leaf i v hv => exact ⟨i, Tree.ends_leaf i, hv⟩
  | @node i f thr l r lt rt ls rs hf hthr hl hr _ _ ihl ihr =>
    have hchosen := Tree.chosen_eq atMost features hf hthr hl hr
    unfold atMost at hchosen
    rw [DTree.eval]
    by_cases hle : features.getD f 0 ≤ thr
    · obtain ⟨k, hends, hk⟩ := ihl
      rw [if_pos (decide_eq_true hle)] at hchosen
      rw [if_pos hle]
      exact ⟨k, (Tree.ends_iff_of_chosen hchosen).mpr hends, hk⟩
    · obtain ⟨k, hends, hk⟩ := ihr
      rw [if_neg (by simpa using hle)] at hchosen
      rw [if_neg hle]
      exact ⟨k, (Tree.ends_iff_of_chosen hchosen).mpr hends, hk⟩

/-- A leaf leads to no node. -/
theorem Tree.not_reaches_of_neg {c : ℤ} (hc : c < 0) (i : ℕ) :
    ¬ Reaches (t.walk left features) c i := by
  intro hreach
  rcases Relation.ReflTransGen.cases_head hreach with heq | ⟨s, hgo, -⟩
  · omega
  · have := (Tree.goes_iff.mp hgo).1
    omega

/-- Two decisions agree at a node for these features. -/
def Tree.AgreeAt (left left' : ℕ → D → D → Bool) (t : Tree D) (features : List D) (i : ℕ) : Prop :=
  ∀ f thr, t.splitFeature[i]? = some f → t.threshold[i]? = some thr →
    left i (featureAt features f) thr = left' i (featureAt features f) thr

/-- The nodes on the way are this one and those on the way from the chosen child. -/
theorem Tree.forall_reaches_iff {k : ℕ} {c : ℤ} (h : t.chosen left features k = some c)
    (P : ℕ → Prop) :
    (∀ i : ℕ, Reaches (t.walk left features) k i → P i) ↔
      P k ∧ ∀ i : ℕ, Reaches (t.walk left features) c i → P i := by
  have hgo : Goes (t.walk left features) k c :=
    Tree.goes_iff.mpr ⟨Int.natCast_nonneg k, by simpa using h⟩
  constructor
  · exact fun hall => ⟨hall k Relation.ReflTransGen.refl, fun i hi => hall i (hi.head hgo)⟩
  · rintro ⟨hk, hrest⟩ i hi
    rcases Relation.ReflTransGen.cases_head hi with heq | ⟨s, hgo', hreach⟩
    · rw [← Int.natCast_inj.mp heq]
      exact hk
    · rw [← hgo.unique hgo'] at hreach
      exact hrest i hreach

/-- Walks through subtrees without a common leaf end in different leaves. -/
theorem Encodes.not_both {a b : ℤ} {A B : DTree D} {as bs : List ℕ} (hA : Encodes t a A as)
    (hB : Encodes t b B bs) (hdis : as.Disjoint bs) (left left' : ℕ → D → D → Bool) :
    ¬ ∃ leaf, t.Ends left features a leaf ∧ t.Ends left' features b leaf := by
  rintro ⟨leaf, hends, hends'⟩
  obtain ⟨x, hx, hxends⟩ := hA.ends left features
  obtain ⟨y, hy, hyends⟩ := hB.ends left' features
  have hxy : x = y := by exact_mod_cast (hxends.unique hends).trans (hends'.unique hyends)
  exact hdis hx (hxy ▸ hy)

theorem Tree.agreeAt_iff {left' : ℕ → D → D → Bool} {k f : ℕ} {thr : D}
    (hf : t.splitFeature[k]? = some (f : ℤ)) (hthr : t.threshold[k]? = some thr) :
    t.AgreeAt left left' features k ↔
      left k (features.getD f 0) thr = left' k (features.getD f 0) thr := by
  unfold Tree.AgreeAt
  rw [hf, hthr]
  constructor
  · intro hall
    have := hall f thr rfl rfl
    rwa [featureAt_natCast] at this
  · rintro heq _ _ ⟨⟩ ⟨⟩
    rwa [featureAt_natCast]

/-- **Two decisions reach the same leaf exactly if they agree at every node on the way**, in a
    tree whose leaves have places of their own. -/
theorem Encodes.agree_iff {c : ℤ} {T : DTree D} {ls : List ℕ} (h : Encodes t c T ls)
    (hls : ls.Nodup) (left left' : ℕ → D → D → Bool) (features : List D) :
    (∃ leaf, t.Ends left features c leaf ∧ t.Ends left' features c leaf) ↔
      ∀ i : ℕ, Reaches (t.walk left features) c i → t.AgreeAt left left' features i := by
  induction h with
  | @leaf k v hv =>
    refine iff_of_true ⟨k, Tree.ends_leaf k, Tree.ends_leaf k⟩ fun i hreach => ?_
    exact absurd hreach (Tree.not_reaches_of_neg (by omega) i)
  | @node k f thr l r lt rt ls rs hf hthr hl hr hlt hrt ihl ihr =>
    obtain ⟨hls', hrs', hdisjoint⟩ := List.nodup_append.mp hls
    have hdis : ls.Disjoint rs := fun x hx hy => hdisjoint x hx x hy rfl
    have hchosen := Tree.chosen_eq left features hf hthr hl hr
    have hchosen' := Tree.chosen_eq left' features hf hthr hl hr
    rw [Tree.forall_reaches_iff hchosen, Tree.agreeAt_iff hf hthr]
    simp only [Tree.ends_iff_of_chosen hchosen, Tree.ends_iff_of_chosen hchosen']
    -- where they part at this node, the leaves are in different subtrees
    cases hgo : left k (features.getD f 0) thr <;> cases hgo' : left' k (features.getD f 0) thr
    · simpa using ihr hrs'
    · exact iff_of_false (hrt.not_both hlt hdis.symm left left') (by simp)
    · exact iff_of_false (hlt.not_both hrt hdis left left') (by simp)
    · simpa using ihl hls'

end Trees

/-! ### LightGBM's decision -/

section LightGBM

variable {D : Type*}

/-- How a node treats missing values. -/
inductive MissingType
  | none
  | zero
  | nan
  deriving DecidableEq, Repr

/-- Bits 2 and 3 of `decision_type`. -/
def missingType (d : ℤ) : MissingType :=
  if d / 4 % 4 = 1 then .zero else if d / 4 % 4 = 2 then .nan else .none

/-- Bit 1 of `decision_type`. -/
def defaultLeft (d : ℤ) : Bool := d / 2 % 2 = 1

/-- LightGBM's decision on a value that is not NaN.  What a categorical split does (bit 0) is
    left open. -/
def Tree.lightgbm [Zero D] [LE D] [DecidableLE D] [BEq D] (categorical : ℕ → D → Bool)
    (t : Tree D) (i : ℕ) (x thr : D) : Bool :=
  let d := t.decisionType.getD i 0
  if d % 2 = 1 then categorical i x
  else if missingType d = .zero ∧ x == 0 then defaultLeft d
  else decide (x ≤ thr)

variable [Zero D] [One D] [LE D] [DecidableLE D] [BEq D]

omit [Zero D] [LE D] [DecidableLE D] [BEq D] in
/-- An accepted tree has no categorical split. -/
theorem numerical_of_loaded {atof : List Char → D} {text : List Char} {m : GbdtModel D}
    (hload : loadString atof text = .ok m) {t : Tree D} (ht : t ∈ m.trees) (i : ℕ) :
    ¬ t.decisionType.getD i 0 % 2 = 1 := by
  intro hodd
  obtain ⟨hcheck, -, hm⟩ := (loadString_ok_iff atof).mp hload
  rw [hm] at ht
  rw [List.getD_eq_getElem?_getD] at hodd
  cases hd : t.decisionType[i]? with
  | none =>
    rw [hd] at hodd
    exact absurd hodd (by decide)
  | some d =>
    rw [hd] at hodd
    exact (hcheck t ht).2 d (List.mem_of_getElem? hd) hodd

omit [One D] in
/-- The decisions differ only where zero is missing and the value is zero. -/
theorem Tree.atMost_eq_lightgbm_iff {t : Tree D} {i : ℕ}
    (hnumerical : ¬ t.decisionType.getD i 0 % 2 = 1) (categorical : ℕ → D → Bool) (x thr : D) :
    atMost i x thr = t.lightgbm categorical i x thr ↔
      (missingType (t.decisionType.getD i 0) = .zero → (x == 0) = true →
        (defaultLeft (t.decisionType.getD i 0) = true ↔ x ≤ thr)) := by
  unfold Tree.lightgbm atMost
  dsimp only
  rw [if_neg hnumerical]
  by_cases hzero : missingType (t.decisionType.getD i 0) = .zero ∧ (x == 0) = true
  · rw [if_pos hzero, Bool.eq_iff_iff, decide_eq_true_iff]
    exact ⟨fun hiff _ _ => hiff.symm, fun himp => (himp hzero.1 hzero.2).symm⟩
  · rw [if_neg hzero]
    exact iff_of_true rfl fun hmiss hx => absurd ⟨hmiss, hx⟩ hzero

omit [One D] [LE D] [DecidableLE D] [BEq D] in
/-- Two descents through a tree with nodes end in one leaf if the walks from the root do. -/
theorem Tree.descend_both_iff {t : Tree D} (hne : t.splitFeature ≠ [])
    (left left' : ℕ → D → D → Bool)
    (features : List D) :
    (∃ turns leaf, t.descend left features turns = .ret leaf ∧
      t.descend left' features turns = .ret leaf) ↔
    ∃ leaf, t.Ends left features 0 leaf ∧ t.Ends left' features 0 leaf := by
  have hempty : t.splitFeature.isEmpty = false := by simpa using hne
  simp only [Tree.descend, hempty, Bool.false_eq_true, if_false]
  constructor
  · rintro ⟨turns, leaf, h₁, h₂⟩
    exact ⟨leaf, ⟨turns, h₁⟩, ⟨turns, h₂⟩⟩
  · rintro ⟨leaf, ⟨n, hn⟩, ⟨k, hk⟩⟩
    exact ⟨max n k, leaf, loop_mono hn (by simp) (le_max_left n k),
      loop_mono hk (by simp) (le_max_right n k)⟩

/-- **When the scorer reaches LightGBM's leaf.** In an accepted model, for a tree whose arrays
    stand for a tree with leaves of their own, and for every feature vector: exactly if at each
    node on the way that treats zero as missing, and where the value is zero, the default
    direction is the one the threshold gives. -/
theorem lightgbm_agrees_iff {atof : List Char → D} {text : List Char} {m : GbdtModel D}
    (hload : loadString atof text = .ok m) {t : Tree D} (ht : t ∈ m.trees) {T : DTree D}
    {ls : List ℕ} (hrep : t.Represents T ls) (hls : ls.Nodup) (categorical : ℕ → D → Bool)
    (features : List D) :
    (∃ turns leaf, t.descend atMost features turns = .ret leaf ∧
      t.descend (t.lightgbm categorical) features turns = .ret leaf) ↔
    ∀ (i : ℕ) (f : ℤ) (thr : D), t.splitFeature[i]? = some f → t.threshold[i]? = some thr →
      Reaches (t.walk atMost features) 0 i →
      missingType (t.decisionType.getD i 0) = .zero → (featureAt features f == 0) = true →
      (defaultLeft (t.decisionType.getD i 0) = true ↔ featureAt features f ≤ thr) := by
  have hdecision := fun i => Tree.atMost_eq_lightgbm_iff
    (numerical_of_loaded hload ht i) categorical
  cases hrep with
  | single hnodes hv =>
    -- there is nothing to decide
    refine iff_of_true ⟨0, 0, ?_, ?_⟩ fun i f thr hf => ?_
    · rw [Tree.descend, hnodes]; rfl
    · rw [Tree.descend, hnodes]; rfl
    · rw [hnodes] at hf
      cases hf
  | nodes h =>
    rw [Tree.descend_both_iff (h.splitFeature_ne_nil le_rfl), h.agree_iff hls]
    unfold Tree.AgreeAt
    simp only [hdecision]
    exact ⟨fun hall i f thr hf hthr hreach => hall i hreach f thr hf hthr,
      fun hall i hreach f thr hf hthr => hall i f thr hf hthr hreach⟩

end LightGBM

/-- A stump whose node treats zero as missing and sends it left, under this threshold. -/
def zeroMissingText (threshold : String) : List Char :=
  "Tree=0\nsplit_feature=0\nthreshold=".toList ++ threshold.toList ++
    "\ndecision_type=6\nleft_child=-1\nright_child=-2\nleaf_value=5 7\n".toList

def zeroMissing (threshold : ℚ) : Tree ℚ := ⟨[0], [threshold], [6], [-1], [-2], [5, 7]⟩

theorem represents_zeroMissing (threshold : ℚ) :
    (zeroMissing threshold).Represents (.node 0 threshold (.leaf 5) (.leaf 7)) [0, 1] := by
  have hl : Encodes (zeroMissing threshold) (-(0 : ℕ) - 1) (.leaf 5) [0] := .leaf rfl
  have hr : Encodes (zeroMissing threshold) (-(1 : ℕ) - 1) (.leaf 7) [1] := .leaf rfl
  exact .nodes (.node (i := 0) rfl rfl rfl rfl hl hr)

/-- Zero is below the threshold: both go left. -/
theorem lightgbm_agrees_below : ∃ turns leaf,
    (zeroMissing 1).descend atMost [0] turns = .ret leaf ∧
    (zeroMissing 1).descend ((zeroMissing 1).lightgbm fun _ _ => false) [0] turns = .ret leaf := by
  have hload : loadString wholeAtof (zeroMissingText "1") = .ok ⟨[zeroMissing 1], -1, 1⟩ := by
    decide +kernel
  refine (lightgbm_agrees_iff hload List.mem_cons_self (represents_zeroMissing 1)
    (by decide) _ _).mpr ?_
  intro i f thr hf hthr _ _ _
  obtain ⟨hi, -⟩ := List.getElem?_eq_some_iff.mp hf
  obtain rfl : i = 0 := Nat.lt_one_iff.mp hi
  obtain rfl : f = 0 := (Option.some.inj hf).symm
  obtain rfl : thr = 1 := (Option.some.inj hthr).symm
  decide +kernel

/-- **An accepted model is scored otherwise than LightGBM scores it.** The threshold is below
    zero: the scorer sends a zero right, LightGBM sends it left. -/
theorem lightgbm_disagrees :
    loadString wholeAtof (zeroMissingText "-1") = .ok ⟨[zeroMissing (-1)], -1, 1⟩ ∧
    (zeroMissing (-1)).descend atMost [0] 2 = .ret 1 ∧
    (zeroMissing (-1)).descend ((zeroMissing (-1)).lightgbm fun _ _ => false) [0] 2 = .ret 0 := by
  decide +kernel

end Leaper.Gbdt
