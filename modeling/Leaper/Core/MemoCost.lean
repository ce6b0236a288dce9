import Leaper.Core.Jobs

namespace Leaper

open Lib

/-!
# What the memo saves

The models are the expensive part of a job, and the memo is there to ask them less: an answer for
a range and a range of steps is kept as long as second and slot last.  A run is charged here for
every answer that was computed, not looked up.

* `Predictor.predictHot_scored` — one `PredictHot`: what it scores the memo did not know, and
  knows afterwards;
* `scoredIn` — what the `PredictHot` calls of a run score;
* `MemoLedger` — the list of all that was scored against the memos that are left;
* `scored_once` — over a whole run nothing is scored twice in one second and slot.
-/

/-- One answer that was computed: for a range and the steps `lo..hi`, in a second and slot. -/
structure Scored where
  sec : ℕ
  slot : ℕ
  lo : ℕ
  hi : ℕ
  range : ℕ
  deriving DecidableEq, Repr

namespace Predictor

/-- The memos of a second and slot. -/
def liveMemos (p : Predictor) (sec slot : ℕ) : List Memo :=
  p.memo.filter fun m => m.sec == sec && m.slot == slot

/-- The memo has an answer. -/
def Knows (p : Predictor) (x : Scored) : Prop :=
  memoTable x.lo x.hi (p.liveMemos x.sec x.slot) x.range ≠ none

theorem memoTable_cons (lo hi : ℕ) (m : Memo) (ms : List Memo) :
    memoTable lo hi (m :: ms) = if memoMatches lo hi m then m.hot else memoTable lo hi ms := by
  unfold memoTable
  rw [List.find?_cons]
  cases memoMatches lo hi m <;> rfl

theorem memoTable_of_not_any {lo hi : ℕ} {ms : List Memo}
    (h : ¬ ms.any (memoMatches lo hi) = true) : memoTable lo hi ms = fun _ => none := by
  have hnone : ms.find? (memoMatches lo hi) = none := by
    rw [List.find?_eq_none]
    intro m hm hmatch
    exact h (List.any_eq_true.mpr ⟨m, hm, hmatch⟩)
  unfold memoTable
  rw [hnone]

/-- Opening a memo adds no answer. -/
theorem memoTable_openMemo (p : Predictor) (sec slot lo hi lo' hi' : ℕ) :
    memoTable lo' hi' (p.openMemo sec slot lo hi) = memoTable lo' hi' (p.liveMemos sec slot) := by
  unfold openMemo
  show memoTable lo' hi' (if (p.liveMemos sec slot).any (memoMatches lo hi) then
    p.liveMemos sec slot else _ :: p.liveMemos sec slot) = _
  by_cases hany : (p.liveMemos sec slot).any (memoMatches lo hi) = true
  · rw [if_pos hany]
  · rw [if_neg hany, memoTable_cons]
    by_cases hmatch : memoMatches lo' hi' ⟨sec, slot, lo, hi, fun _ => none⟩ = true
    · obtain ⟨rfl, rfl⟩ := memoMatches_iff.mp hmatch
      rw [if_pos hmatch, memoTable_of_not_any hany]
    · rw [if_neg hmatch]

/-- After `openMemo` there is a memo for the interval. -/
theorem openMemo_any (p : Predictor) (sec slot lo hi : ℕ) :
    (p.openMemo sec slot lo hi).any (memoMatches lo hi) = true := by
  unfold openMemo
  simp only
  split_ifs with hany
  · exact hany
  · have hnew : memoMatches lo hi ⟨sec, slot, lo, hi, fun _ => none⟩ = true :=
      memoMatches_iff.mpr ⟨rfl, rfl⟩
    rw [List.any_cons, hnew, Bool.true_or]

/-- A store changes the table of its step range. -/
theorem memoTable_storeMemo {lo hi : ℕ} (table : ℕ → Option Bool) {ms : List Memo}
    (h : ms.any (memoMatches lo hi) = true) (lo' hi' : ℕ) :
    memoTable lo' hi' (storeMemo lo hi table ms) =
      if lo' = lo ∧ hi' = hi then table else memoTable lo' hi' ms := by
  induction ms with
  | nil => cases h
  | cons m ms ih =>
    rw [storeMemo]
    by_cases hmatch : memoMatches lo hi m = true
    · obtain ⟨hl, hh⟩ := memoMatches_iff.mp hmatch
      rw [if_pos hmatch, memoTable_cons, memoTable_cons]
      by_cases heq : lo' = lo ∧ hi' = hi
      · have hsame : memoMatches lo' hi' { m with hot := table } = true :=
          memoMatches_iff.mpr ⟨hl.trans heq.1.symm, hh.trans heq.2.symm⟩
        rw [if_pos heq, if_pos hsame]
      · have hne : ¬ memoMatches lo' hi' m = true := by
          rw [memoMatches_iff]
          rintro ⟨hl', hh'⟩
          exact heq ⟨hl'.symm.trans hl, hh'.symm.trans hh⟩
        have hne' : ¬ memoMatches lo' hi' { m with hot := table } = true := hne
        rw [if_neg heq, if_neg hne', if_neg hne]
    · have hrest : ms.any (memoMatches lo hi) = true := by
        rw [List.any_cons, Bool.or_eq_true] at h
        exact h.resolve_left hmatch
      rw [if_neg hmatch, memoTable_cons, memoTable_cons, ih hrest]
      by_cases heq : lo' = lo ∧ hi' = hi
      · have hne : ¬ memoMatches lo' hi' m = true := by
          rw [heq.1, heq.2]
          exact hmatch
        rw [if_neg hne, if_pos heq, if_pos heq]
      · rw [if_neg heq, if_neg heq]

/-- All memos a call leaves are of its second and slot. -/
theorem liveMemos_stored (p : Predictor) (sec slot lo hi : ℕ) (table : ℕ → Option Bool) :
    Predictor.liveMemos { p with memo := storeMemo lo hi table (p.openMemo sec slot lo hi) } sec
      slot = storeMemo lo hi table (p.openMemo sec slot lo hi) := by
  refine List.filter_eq_self.mpr fun m hm => ?_
  rcases mem_storeMemo hm with hold | ⟨m', hm', -, -, rfl⟩
  · obtain ⟨hsec, hslot, -⟩ := mem_openMemo hold
    simp [hsec, hslot]
  · obtain ⟨hsec, hslot, -⟩ := mem_openMemo hm'
    simp [hsec, hslot]

/-- The step loop makes one evaluation at least and one for each step at most. -/
theorem scoreSteps_snd_le (hotAt : ℕ → Bool) (ss : List ℕ) :
    (scoreSteps hotAt ss).2 ≤ ss.length ∧ (ss ≠ [] → 1 ≤ (scoreSteps hotAt ss).2) := by
  induction ss with
  | nil => exact ⟨le_rfl, fun h => absurd rfl h⟩
  | cons s ss ih =>
    rw [scoreSteps, List.length_cons]
    split_ifs
    · exact ⟨Nat.le_add_left 1 _, fun _ => le_rfl⟩
    · exact ⟨Nat.succ_le_succ ih.1, fun _ => Nat.le_add_left 1 _⟩

/-- The clamped steps are no more than there are models. -/
theorem clampHi_sub_le {p : Predictor} {lo hi : ℕ} (hle : clampLo lo ≤ p.clampHi lo hi) :
    p.clampHi lo hi + 1 - clampLo lo ≤ p.models.length := by
  have hlo : 1 ≤ clampLo lo := le_max_left 1 lo
  unfold clampHi at hle ⊢
  split_ifs at hle ⊢ with hone
  · omega
  · omega

/-- Scoring a range asks at least one model, and at most one for each step. -/
theorem score_snd_le (p : Predictor) (c : Collector) (now : ℕ) (thr : ℚ) {lo hi : ℕ} (hle : lo ≤ hi)
    (range : ℕ) : 1 ≤ (p.score c now thr lo hi range).2 ∧
      (p.score c now thr lo hi range).2 ≤ hi + 1 - lo := by
  obtain ⟨hupper, hlower⟩ := scoreSteps_snd_le
    (p.stepHot thr (p.buildFeatures c range now)) (List.range' lo (hi + 1 - lo))
  rw [List.length_range'] at hupper
  refine ⟨hlower fun hnil => ?_, hupper⟩
  have hlen := congrArg List.length hnil
  rw [List.length_range', List.length_nil] at hlen
  omega

/-- The answers a call wants: one for each candidate, unless the clamps leave no step. -/
def asked (p : Predictor) (cs : List ℕ) (lo hi : ℕ) : ℕ :=
  if p.models.length = 0 ∨ p.clampHi lo hi < clampLo lo then 0 else cs.length

end Predictor

/-- The answer is of the second and slot of a time. -/
def Scored.At (P : CollectorParams) (now : ℕ) (x : Scored) : Prop :=
  x.sec = now / 1000000 ∧ x.slot = P.slotOf now

namespace Predictor

/-- The predictor after a call that swept with a memo. -/
def swept (p : Predictor) (c : Collector) (now lo hi : ℕ) (table : ℕ → Option Bool) : Predictor :=
  let ms := p.openMemo (now / 1000000) (c.params.slotOf now) lo hi
  { p with memo := storeMemo lo hi table ms }

/-- What the memos know after the table of a step range is written back. -/
theorem knows_stored (p : Predictor) (c : Collector) (now lo hi : ℕ) (table : ℕ → Option Bool)
    {x : Scored} (hx : x.At c.params now) :
    (p.swept c now lo hi table).Knows x ↔
      if x.lo = lo ∧ x.hi = hi then table x.range ≠ none else p.Knows x := by
  obtain ⟨hsec, hslot⟩ := hx
  unfold Knows swept
  rw [hsec, hslot, liveMemos_stored, memoTable_storeMemo table (p.openMemo_any _ _ _ _),
    memoTable_openMemo]
  split_ifs <;> rfl

/-- The answers a `PredictHot` computes: for the clamped steps, the candidates its loop does not
    find in the memo. -/
def scoredBy (p : Predictor) (c : Collector) (candidates : List ℕ) (stepLo stepHi nowUs : ℕ)
    (threshold : ℚ) : List Scored :=
  if p.models.length = 0 then []
  else
    let lo := clampLo stepLo
    let hi := p.clampHi stepLo stepHi
    if hi < lo then []
    else
      let ms := p.openMemo (nowUs / 1000000) (c.params.slotOf nowUs) lo hi
      let table := if p.memoize then memoTable lo hi ms else fun _ => none
      (testedFrom p.memoize (p.score c nowUs threshold lo hi) { table := table } candidates).map
        fun r => ⟨nowUs / 1000000, c.params.slotOf nowUs, lo, hi, r⟩

/-- **What a call scores**, with a memo: nothing twice, nothing that the memo knows; the memo knows
    it afterwards, forgets nothing of the second and slot, and gives the other answers. -/
structure Scores (p p' : Predictor) (P : CollectorParams) (now : ℕ) (cs : List ℕ)
    (tested : List Scored) : Prop where
  nodup : tested.Nodup
  at_now : ∀ x ∈ tested, x.At P now
  valid : ∀ x ∈ tested, 1 ≤ x.lo ∧ x.lo ≤ x.hi ∧ x.range ∈ cs
  unknown : ∀ x ∈ tested, ¬ p.Knows x
  known : ∀ x ∈ tested, p'.Knows x
  keeps : ∀ x : Scored, x.At P now → p.Knows x → p'.Knows x

/-- The sweep of a call. -/
theorem sweep_scored (p : Predictor) (c : Collector) (cs : List ℕ) {lo hi : ℕ} (hlo : 1 ≤ lo)
    (hle : lo ≤ hi) (now : ℕ) (thr : ℚ) {table : ℕ → Option Bool}
    (hopen : table = memoTable lo hi (p.openMemo (now / 1000000) (c.params.slotOf now) lo hi)) :
    let st := sweep true (p.score c now thr lo hi) table cs
    let tested := testedFrom true (p.score c now thr lo hi) { table := table } cs
    Scores p (p.swept c now lo hi st.table) c.params now cs
        (tested.map fun r => ⟨now / 1000000, c.params.slotOf now, lo, hi, r⟩) ∧
      tested.length ≤ st.cost ∧ st.cost ≤ tested.length * (hi + 1 - lo) ∧
      st.hits + tested.length = cs.length := by
  intro st tested
  -- the library's account of a sweep, for the table that the call opens
  have hmemo := sweepMemo (p.score c now thr lo hi) cs { table := table }
  have hnodup : tested.Nodup := hmemo.nodup
  have hmem : ∀ r ∈ tested, r ∈ cs ∧ table r = none := hmemo.unknown
  have htable : ∀ r, st.table r = none ↔ table r = none ∧ r ∉ cs := hmemo.table
  have hcost : st.cost = tally (fun r => (p.score c now thr lo hi r).2) tested :=
    hmemo.cost.trans (Nat.zero_add _)
  have hhits : st.hits + tested.length = cs.length := hmemo.hits.trans (Nat.zero_add _)
  rw [memoTable_openMemo] at hopen
  rw [hopen] at hmem htable
  have hbounds := tally_bounds fun r (_ : r ∈ tested) => p.score_snd_le c now thr hle r
  refine ⟨⟨hnodup.map fun r r' h => congrArg Scored.range h, ?_, ?_, ?_, ?_, ?_⟩, ?_, ?_, hhits⟩
  · intro x hx
    obtain ⟨r, -, rfl⟩ := List.mem_map.mp hx
    exact ⟨rfl, rfl⟩
  · intro x hx
    obtain ⟨r, hr, rfl⟩ := List.mem_map.mp hx
    exact ⟨hlo, hle, (hmem r hr).1⟩
  · intro x hx hknown
    obtain ⟨r, hr, rfl⟩ := List.mem_map.mp hx
    exact hknown (hmem r hr).2
  · intro x hx
    obtain ⟨r, hr, rfl⟩ := List.mem_map.mp hx
    -- the table that is stored has an answer for every candidate
    rw [knows_stored p c now lo hi st.table ⟨rfl, rfl⟩, if_pos ⟨rfl, rfl⟩]
    exact fun h => ((htable r).mp h).2 (hmem r hr).1
  · intro x hx hknown
    rw [knows_stored p c now lo hi st.table hx]
    split_ifs with heq
    · intro h
      unfold Knows at hknown
      rw [hx.1, hx.2, heq.1, heq.2] at hknown
      exact hknown ((htable x.range).mp h).1
    · exact hknown
  · rw [hcost]
    exact (Nat.mul_one _).ge.trans hbounds.1
  · rw [hcost]
    exact hbounds.2

/-- **One `PredictHot`, with a memo.** -/
theorem predictHot_scored {p : Predictor} (hmemo : p.memoize = true) (c : Collector) (cs : List ℕ)
    (lo hi now : ℕ) (thr : ℚ) :
    Scores p (p.predictHot c cs lo hi now thr).predictor c.params now cs
        (p.scoredBy c cs lo hi now thr) ∧
      (p.scoredBy c cs lo hi now thr).length ≤ (p.predictHot c cs lo hi now thr).inferences ∧
      (p.predictHot c cs lo hi now thr).inferences ≤
        (p.scoredBy c cs lo hi now thr).length * p.models.length ∧
      (p.predictHot c cs lo hi now thr).memoHits + (p.scoredBy c cs lo hi now thr).length =
        p.asked cs lo hi := by
  by_cases hnone : p.models.length = 0 ∨ p.clampHi lo hi < clampLo lo
  · -- nothing is asked, and the memos stay
    have hcall : ∃ n, p.predictHot c cs lo hi now thr =
        ⟨[], { p with clampedCalls := n }, 0, 0⟩ := by
      unfold predictHot
      by_cases hzero : p.models.length = 0
      · exact ⟨p.clampedCalls, if_pos hzero⟩
      · exact ⟨p.clampedCalls + 1, (if_neg hzero).trans (if_pos (hnone.resolve_left hzero))⟩
    have hscored : p.scoredBy c cs lo hi now thr = [] := by
      unfold scoredBy
      by_cases hzero : p.models.length = 0
      · exact if_pos hzero
      · exact (if_neg hzero).trans (if_pos (hnone.resolve_left hzero))
    obtain ⟨n, hcall⟩ := hcall
    rw [hcall, hscored]
    refine ⟨⟨List.nodup_nil, ?_, ?_, ?_, ?_, fun x _ hx => hx⟩, le_rfl, Nat.zero_le _,
      (if_pos hnone).symm⟩
    all_goals exact fun x hx => absurd hx List.not_mem_nil
  · -- the call and the list of what it scored are by one sweep
    obtain ⟨hzero, hlt⟩ := not_or.mp hnone
    have hcall : p.predictHot c cs lo hi now thr =
        let ms := p.openMemo (now / 1000000) (c.params.slotOf now) (clampLo lo) (p.clampHi lo hi)
        let st := sweep true (p.score c now thr (clampLo lo) (p.clampHi lo hi))
          (memoTable (clampLo lo) (p.clampHi lo hi) ms) cs
        ⟨sortUnique st.out,
          { p with memo := storeMemo (clampLo lo) (p.clampHi lo hi) st.table ms }, st.cost,
          st.hits⟩ := (if_neg hzero).trans ((if_neg hlt).trans (if_pos hmemo))
    have hscored : p.scoredBy c cs lo hi now thr =
        let ms := p.openMemo (now / 1000000) (c.params.slotOf now) (clampLo lo) (p.clampHi lo hi)
        let table := memoTable (clampLo lo) (p.clampHi lo hi) ms
        (testedFrom true (p.score c now thr (clampLo lo) (p.clampHi lo hi)) { table := table }
          cs).map fun r =>
            ⟨now / 1000000, c.params.slotOf now, clampLo lo, p.clampHi lo hi, r⟩ := by
      refine (if_neg hzero).trans ((if_neg hlt).trans ?_)
      simp only [hmemo, if_true]
    obtain ⟨hscores, hlower, hupper, hhits⟩ := sweep_scored p c cs (le_max_left 1 lo)
      (not_lt.mp hlt) now thr rfl
    rw [hcall, hscored, asked, if_neg hnone]
    dsimp only
    rw [List.length_map]
    exact ⟨hscores, hlower,
      hupper.trans (Nat.mul_le_mul_left _ (clampHi_sub_le (not_lt.mp hlt))), hhits⟩

end Predictor

/-! ### The ledger -/

/-- **All that was scored up to time `t`**, against the memos: nothing stands there twice, and what
    is of the current second and slot the memos still know. -/
structure MemoLedger (P : CollectorParams) (cap : ℕ) (p : Predictor) (t : ℕ)
    (scored : List Scored) : Prop where
  nodup : scored.Nodup
  past : ∀ x ∈ scored, ∃ t', t' ≤ t ∧ x.At P t'
  known : ∀ x ∈ scored, x.At P t → p.Knows x
  valid : ∀ x ∈ scored, 1 ≤ x.lo ∧ x.lo ≤ x.hi ∧ x.range ≤ cap

/-- A second and slot that has passed does not come back. -/
theorem Scored.At.between {P : CollectorParams} {x : Scored} {t t' now : ℕ} (h : x.At P t')
    (h' : x.At P now) (hlo : t' ≤ t) (hhi : t ≤ now) : x.At P t := by
  obtain ⟨hsec, hslot⟩ := h
  obtain ⟨hsec', hslot'⟩ := h'
  refine ⟨le_antisymm ?_ ?_, le_antisymm ?_ ?_⟩
  · rw [hsec]
    exact Nat.div_le_div_right hlo
  · rw [hsec']
    exact Nat.div_le_div_right hhi
  · rw [hslot]
    exact Nat.div_le_div_right hlo
  · rw [hslot']
    exact Nat.div_le_div_right hhi

namespace MemoLedger

variable {P : CollectorParams} {cap t now : ℕ} {p : Predictor} {scored : List Scored}

/-- Nothing has been scored. -/
theorem nil (P : CollectorParams) (cap : ℕ) (p : Predictor) (t : ℕ) : MemoLedger P cap p t [] :=
  ⟨List.nodup_nil, fun _ hx => absurd hx List.not_mem_nil, fun _ hx => absurd hx List.not_mem_nil,
    fun _ hx => absurd hx List.not_mem_nil⟩

/-- What was scored stays scored as time passes. -/
theorem later (h : MemoLedger P cap p t scored) (ht : t ≤ now) : MemoLedger P cap p now scored := by
  refine ⟨h.nodup, fun x hx => ?_, fun x hx hat => ?_, h.valid⟩
  · obtain ⟨t', ht', hat⟩ := h.past x hx
    exact ⟨t', ht'.trans ht, hat⟩
  · obtain ⟨t', ht', hat'⟩ := h.past x hx
    exact h.known x hx (hat'.between hat ht' ht)

/-- A call adds what it scores. -/
theorem scores (h : MemoLedger P cap p now scored) {p' : Predictor} {cs : List ℕ}
    {tested : List Scored} (hcs : ∀ r ∈ cs, r ≤ cap) (htested : p.Scores p' P now cs tested) :
    MemoLedger P cap p' now (scored ++ tested) := by
  refine ⟨?_, ?_, ?_, ?_⟩
  · -- what is scored now the memos did not know, so it is not in the ledger
    refine List.nodup_append.mpr ⟨h.nodup, htested.nodup, fun x hx y hy heq => ?_⟩
    subst heq
    exact htested.unknown x hy (h.known x hx (htested.at_now x hy))
  · intro x hx
    rcases List.mem_append.mp hx with hold | hnew
    · exact h.past x hold
    · exact ⟨now, le_rfl, htested.at_now x hnew⟩
  · intro x hx hat
    rcases List.mem_append.mp hx with hold | hnew
    · exact htested.keeps x hat (h.known x hold hat)
    · exact htested.known x hnew
  · intro x hx
    rcases List.mem_append.mp hx with hold | hnew
    · exact h.valid x hold
    · obtain ⟨hlo, hle, hrange⟩ := htested.valid x hnew
      exact ⟨hlo, hle, hcs _ hrange⟩

end MemoLedger

/-! ### Candidates are range ids -/

/-- The expansion of a block stops at its clamped last id. -/
theorem le_of_mem_expandLoop (hi fuel : ℕ) : ∀ r out, ∀ x ∈ expandLoop fuel r hi out,
    x ∈ out ∨ x ≤ hi := by
  induction fuel with
  | zero => exact fun r out x hx => Or.inl hx
  | succ fuel ih =>
    intro r out x hx
    rw [expandLoop] at hx
    split_ifs at hx with hle hfull
    · rcases List.mem_append.mp hx with hold | hnew
      · exact Or.inl hold
      · exact Or.inr (by rw [List.mem_singleton.mp hnew]; exact hle)
    · rcases ih _ _ x hx with hout | hhi
      · rcases List.mem_append.mp hout with hold | hnew
        · exact Or.inl hold
        · exact Or.inr (by rw [List.mem_singleton.mp hnew]; exact hle)
      · exact Or.inr hhi
    · exact Or.inl hx

/-- All ids pushed are within the cap. -/
theorem le_of_mem_expandPush (cap : ℕ) (blocks : List BlockRef) : ∀ out,
    ∀ x ∈ expandPush cap blocks out, x ∈ out ∨ x ≤ cap := by
  induction blocks with
  | nil => exact fun out x hx => Or.inl hx
  | cons b bs ih =>
    intro out x hx
    rw [expandPush] at hx
    have hblock : ∀ x ∈ expandLoop (kMaxCandidates + 1) (min b.firstRange cap)
        (min b.lastRange cap) out, x ∈ out ∨ x ≤ cap := fun x hx =>
      (le_of_mem_expandLoop _ _ _ _ x hx).imp_right fun h => h.trans (min_le_right _ _)
    split_ifs at hx with hfull
    · exact hblock x hx
    · rcases ih _ x hx with hold | hle
      · exact hblock x hold
      · exact Or.inr hle

namespace LeaperImpl

/-- No candidate is above `max_range_id`. -/
theorem le_of_mem_candidates (s : LeaperImpl) (blocks : List BlockRef) {r : ℕ}
    (h : r ∈ s.candidates blocks) : r ≤ s.opt.maxRangeId := by
  unfold candidates expandRanges at h
  rw [mem_sortUnique, mem_sortUnique] at h
  exact (le_of_mem_expandPush _ _ _ _ h).resolve_left List.not_mem_nil

/-! ### Jobs and runs -/

/-- The answers the phases of a job want. -/
def phaseAnswers (s : LeaperImpl) (info : CompactionInfo) (blocks : List BlockRef) : ℕ :=
  if info.isFlush then s.predictor.asked (s.candidates blocks) 1 s.k2
  else s.predictor.asked (s.candidates blocks) 1 (s.k1 info) +
    s.predictor.asked (s.candidates blocks) (s.k1 info + 1) (s.k1 info + s.k2)

/-- The answers the phases of a job compute; the second phase goes by the memos of the first. -/
def phaseScored (s : LeaperImpl) (info : CompactionInfo) (blocks : List BlockRef) (nowUs : ℕ) :
    List Scored :=
  let cands := s.candidates blocks
  let thr := s.opt.hotThreshold
  if info.isFlush then s.predictor.scoredBy s.collector cands 1 s.k2 nowUs thr
  else
    let q := s.predictor.predictHot s.collector cands 1 (s.k1 info) nowUs thr
    s.predictor.scoredBy s.collector cands 1 (s.k1 info) nowUs thr ++
      q.predictor.scoredBy s.collector cands (s.k1 info + 1) (s.k1 info + s.k2) nowUs thr

/-- The answers a job computes, if it predicts at all. -/
def scoredOf (s : LeaperImpl) (info : CompactionInfo) (blocks : List BlockRef) (nowUs : ℕ) :
    List Scored :=
  if s.ssad.suspended = true ∨ s.opt.policy ≠ .leaper then [] else s.phaseScored info blocks nowUs

/-- The answers a job wants, if it predicts at all. -/
def answersOf (s : LeaperImpl) (info : CompactionInfo) (blocks : List BlockRef) : ℕ :=
  if s.ssad.suspended = true ∨ s.opt.policy ≠ .leaper then 0 else s.phaseAnswers info blocks

/-- A call leaves switch and models alone. -/
theorem predictHot_members (p : Predictor) (c : Collector) (cs : List ℕ) (lo hi now : ℕ) (thr : ℚ) :
    (p.predictHot c cs lo hi now thr).predictor.memoize = p.memoize ∧
      (p.predictHot c cs lo hi now thr).predictor.models = p.models := by
  obtain ⟨ms, n, heq⟩ := p.predictHot_predictor c cs lo hi now thr
  rw [heq]
  exact ⟨rfl, rfl⟩

/-- What a core has been charged since it was `s₀`. -/
structure Charged (s₀ s : LeaperImpl) (t answers : ℕ) (scored : List Scored) : Prop where
  memoize : s.predictor.memoize = true
  models : s.predictor.models = s₀.predictor.models
  opt : s.opt = s₀.opt
  ledger : MemoLedger s.collector.params s.opt.maxRangeId s.predictor t scored
  lower : s₀.stats.inferences + scored.length ≤ s.stats.inferences
  upper : s.stats.inferences ≤ s₀.stats.inferences + scored.length * s₀.predictor.models.length
  hits : s.stats.memoHits + scored.length = s₀.stats.memoHits + answers

variable {s₀ s : LeaperImpl} {t now answers : ℕ} {scored : List Scored}

/-- The predictions of a job. -/
theorem predictPhases_charged (hmemo : s.predictor.memoize = true)
    (h : MemoLedger s.collector.params s.opt.maxRangeId s.predictor now scored)
    (info : CompactionInfo) (blocks : List BlockRef) :
    (s.predictPhases info (s.candidates blocks) now).predictor.memoize = true ∧
    (s.predictPhases info (s.candidates blocks) now).predictor.models = s.predictor.models ∧
    MemoLedger s.collector.params s.opt.maxRangeId
      (s.predictPhases info (s.candidates blocks) now).predictor now
      (scored ++ s.phaseScored info blocks now) ∧
    (s.phaseScored info blocks now).length ≤
      (s.predictPhases info (s.candidates blocks) now).inferences ∧
    (s.predictPhases info (s.candidates blocks) now).inferences ≤
      (s.phaseScored info blocks now).length * s.predictor.models.length ∧
    (s.predictPhases info (s.candidates blocks) now).memoHits +
        (s.phaseScored info blocks now).length =
      s.phaseAnswers info blocks := by
  have hcs : ∀ r ∈ s.candidates blocks, r ≤ s.opt.maxRangeId := fun r hr =>
    s.le_of_mem_candidates blocks hr
  unfold predictPhases phaseAnswers phaseScored
  by_cases hflush : info.isFlush = true
  · -- a flush predicts once
    simp only [if_pos hflush]
    obtain ⟨hscores, hlower, hupper, hhits⟩ := Predictor.predictHot_scored hmemo s.collector
      (s.candidates blocks) 1 s.k2 now s.opt.hotThreshold
    obtain ⟨hmemoize, hmodels⟩ := predictHot_members s.predictor s.collector (s.candidates blocks) 1
      s.k2 now s.opt.hotThreshold
    exact ⟨hmemoize.trans hmemo, hmodels, h.scores hcs hscores, hlower, hupper, hhits⟩
  · -- a compaction predicts twice, the second time with the memos of the first
    simp only [if_neg hflush]
    obtain ⟨hscores, hlower, hupper, hhits⟩ := Predictor.predictHot_scored hmemo s.collector
      (s.candidates blocks) 1 (s.k1 info) now s.opt.hotThreshold
    obtain ⟨hmemoize, hmodels⟩ := predictHot_members s.predictor s.collector (s.candidates blocks) 1
      (s.k1 info) now s.opt.hotThreshold
    generalize s.predictor.predictHot s.collector (s.candidates blocks) 1 (s.k1 info) now
      s.opt.hotThreshold = q at *
    obtain ⟨hscores', hlower', hupper', hhits'⟩ := Predictor.predictHot_scored
      (hmemoize.trans hmemo) s.collector (s.candidates blocks) (s.k1 info + 1) (s.k1 info + s.k2)
      now s.opt.hotThreshold
    obtain ⟨hmemoize', hmodels'⟩ := predictHot_members q.predictor s.collector
      (s.candidates blocks) (s.k1 info + 1) (s.k1 info + s.k2) now s.opt.hotThreshold
    rw [hmodels] at hupper'
    have hasked : q.predictor.asked (s.candidates blocks) (s.k1 info + 1) (s.k1 info + s.k2) =
        s.predictor.asked (s.candidates blocks) (s.k1 info + 1) (s.k1 info + s.k2) := by
      unfold Predictor.asked Predictor.clampHi
      rw [hmodels]
    refine ⟨hmemoize'.trans (hmemoize.trans hmemo), hmodels'.trans hmodels, ?_, ?_, ?_, ?_⟩
    · rw [← List.append_assoc]
      exact (h.scores hcs hscores).scores hcs hscores'
    · rw [List.length_append]
      exact Nat.add_le_add hlower hlower'
    · rw [List.length_append, Nat.add_mul]
      exact Nat.add_le_add hupper hupper'
    · rw [List.length_append]
      omega

/-- A decision predicts and counts it, or leaves predictor and counters. -/
theorem decideJob_counts {κ : Type*} (ops : CacheOps κ) (s : LeaperImpl) (cache : κ)
    (info : CompactionInfo) (blocks : List BlockRef) (now : ℕ) :
    let d := s.decideJob ops cache info blocks now
    let h := s.predictPhases info (s.candidates blocks) now
    if s.ssad.suspended = true ∨ s.opt.policy ≠ .leaper then
      d.predictor = s.predictor ∧ d.stats.inferences = s.stats.inferences ∧
        d.stats.memoHits = s.stats.memoHits
    else
      d.predictor = h.predictor ∧ d.stats.inferences = s.stats.inferences + h.inferences ∧
        d.stats.memoHits = s.stats.memoHits + h.memoHits := by
  intro d h
  by_cases hpol : s.opt.policy = .leaper
  · by_cases hsus : s.ssad.suspended = true
    · rw [if_pos (Or.inl hsus)]
      have hd : d = { cache := cache, predictor := s.predictor, stats := s.stats } :=
        decideJob_suspended hpol hsus ops cache info blocks now
      rw [hd]
      exact ⟨rfl, rfl, rfl⟩
    · rw [if_neg (not_or.mpr ⟨hsus, not_not.mpr hpol⟩)]
      have hd : d = s.decideLeaper ops cache info blocks now :=
        decideJob_of_not_suspended hpol hsus ops cache info blocks now
      rw [hd]
      unfold decideLeaper
      dsimp only
      split_ifs
      all_goals exact ⟨rfl, rfl, rfl⟩
  · rw [if_pos (Or.inr hpol)]
    have hguard : (s.ssad.suspended && decide (s.opt.policy = .leaper)) = false := by
      rw [decide_eq_false hpol, Bool.and_false]
    have hd : d = s.decideJob ops cache info blocks now := rfl
    rw [hd]
    unfold decideJob
    simp only [hguard, Bool.false_eq_true, if_false]
    cases hp : s.opt.policy with
    | leaper => exact absurd hp hpol
    | _ => exact ⟨rfl, rfl, rfl⟩

/-- **One `Begin`** is charged for what it scores. -/
theorem Charged.begin (h : Charged s₀ s t answers scored) (ht : t ≤ now) {κ : Type*}
    (ops : CacheOps κ) (cache : κ) (info : CompactionInfo) (blocks : List BlockRef) :
    Charged s₀ (s.onCompactionBegin ops cache info blocks now).1 now
      (answers + (s.pushCtx info).answersOf info blocks)
      (scored ++ (s.pushCtx info).scoredOf info blocks now) := by
  have hcounts := decideJob_counts ops (s.pushCtx info) cache info blocks now
  have hlater := h.ledger.later ht
  rw [onCompactionBegin_frame]
  unfold answersOf scoredOf
  dsimp only at hcounts ⊢
  split_ifs at hcounts ⊢ with hidle
  · -- nothing is predicted, and nothing charged
    obtain ⟨hpred, hinf, hhits⟩ := hcounts
    rw [List.append_nil]
    have hmembers : ((s.pushCtx info).decideJob ops cache info blocks now).predictor =
      s.predictor := hpred
    refine ⟨?_, ?_, h.opt, ?_, h.lower.trans hinf.ge, hinf.le.trans h.upper,
      (congrArg (· + scored.length) hhits).trans h.hits⟩
    all_goals dsimp only; rw [hmembers]
    · exact h.memoize
    · exact h.models
    · exact hlater
  · -- both phases are charged to the job
    obtain ⟨hpred, hinf, hhits⟩ := hcounts
    obtain ⟨hmemo, hmodels, hledger, hlower, hupper, hasked⟩ :=
      predictPhases_charged (s := s.pushCtx info) h.memoize hlater info blocks
    rw [← hpred] at hmemo hmodels hledger
    have hinf' : ((s.pushCtx info).decideJob ops cache info blocks now).stats.inferences =
        s.stats.inferences + _ := hinf
    have hhits' : ((s.pushCtx info).decideJob ops cache info blocks now).stats.memoHits =
        s.stats.memoHits + _ := hhits
    have hupper' : _ ≤ ((s.pushCtx info).phaseScored info blocks now).length *
        s.predictor.models.length := hupper
    rw [h.models] at hupper'
    have hlow := h.lower
    have hup := h.upper
    have hold := h.hits
    refine ⟨hmemo, hmodels.trans h.models, h.opt, hledger, ?_, ?_, ?_⟩
    all_goals rw [List.length_append]; dsimp only
    · omega
    · rw [Nat.add_mul]
      omega
    · omega

/-- A call that leaves predictor, counters and settings alone is charged nothing. -/
theorem Charged.congr (h : Charged s₀ s t answers scored) {s' : LeaperImpl}
    (hpred : s'.predictor = s.predictor) (hparams : s'.collector.params = s.collector.params)
    (hopt : s'.opt = s.opt) (hinf : s'.stats.inferences = s.stats.inferences)
    (hhits : s'.stats.memoHits = s.stats.memoHits) : Charged s₀ s' t answers scored := by
  refine ⟨?_, ?_, hopt.trans h.opt, ?_, ?_, ?_, ?_⟩
  · rw [hpred]
    exact h.memoize
  · rw [hpred]
    exact h.models
  · rw [hpred, hparams, hopt]
    exact h.ledger
  · rw [hinf]
    exact h.lower
  · rw [hinf]
    exact h.upper
  · rw [hhits]
    exact h.hits

end LeaperImpl

open LeaperImpl

variable {κ : Type*}

/-- The answers a call wants. -/
def Event.answers (w : World κ) : Event κ → ℕ
  | .compactionBegin info blocks _ => (w.core.pushCtx info).answersOf info blocks
  | _ => 0

/-- The answers the calls of a run want. -/
def answersIn (ops : CacheOps κ) : World κ → List (Event κ) → ℕ
  | _, [] => 0
  | w, e :: es => e.answers w + answersIn ops (step ops w e).1 es

/-- The answers a call computes. -/
def Event.scored (w : World κ) : Event κ → List Scored
  | .compactionBegin info blocks nowUs => (w.core.pushCtx info).scoredOf info blocks nowUs
  | _ => []

/-- The answers the calls of a run compute, in order. -/
def scoredIn (ops : CacheOps κ) : World κ → List (Event κ) → List Scored
  | _, [] => []
  | w, e :: es => e.scored w ++ scoredIn ops (step ops w e).1 es

/-- A call that begins no job is charged nothing. -/
theorem charged_of_answers (ops : CacheOps κ) {s₀ : LeaperImpl} {t answers : ℕ} {w : World κ}
    {scored : List Scored} {e : Event κ} (hok : (clock κ).ok t e)
    (hidle : ∀ info blocks now, e ≠ .compactionBegin info blocks now)
    (h : Charged s₀ w.core t answers scored) :
    Charged s₀ (step ops w e).1.core ((clock κ).next t e) answers scored := by
  cases e with
  | compactionBegin info blocks now => exact absurd rfl (hidle info blocks now)
  | access isWrite key now =>
    obtain ⟨c, heq, hc⟩ := w.core.onAccess_frame isWrite key now
    have hlater : Charged s₀ w.core now answers scored :=
      ⟨h.memoize, h.models, h.opt, h.ledger.later hok, h.lower, h.upper, h.hits⟩
    show Charged s₀ (w.core.onAccess isWrite key now) now answers scored
    rw [heq]
    refine hlater.congr rfl ?_ rfl rfl rfl
    rcases hc with rfl | rfl
    · rfl
    · exact Collector.record_params _ _ _ _
  -- the other calls touch neither predictor nor collector, and count other things
  | shouldPrefetch block =>
    show Charged s₀ (w.core.shouldPrefetch block).1 t answers scored
    unfold LeaperImpl.shouldPrefetch
    split_ifs
    all_goals exact h.congr rfl rfl rfl rfl rfl
  | compactionEnd =>
    obtain ⟨c, cs, heq⟩ := w.core.onCompactionEnd_frame
    show Charged s₀ w.core.onCompactionEnd t answers scored
    rw [heq]
    exact h.congr rfl rfl rfl rfl rfl
  | fileObsolete blocks =>
    show Charged s₀ (w.core.onFileObsolete ops w.cache blocks).1 t answers scored
    unfold LeaperImpl.onFileObsolete
    split_ifs
    all_goals exact h.congr rfl rfl rfl rfl rfl
  | setQps q => exact h.congr rfl rfl rfl rfl rfl
  | setHealth m =>
    show Charged s₀ (w.core.setHealth m) t answers scored
    unfold LeaperImpl.setHealth
    dsimp only
    split_ifs
    all_goals exact h.congr rfl rfl rfl rfl rfl
  | recordInvalidation n => exact h.congr rfl rfl rfl rfl rfl
  | engine change => exact h

/-- **One call.** -/
theorem charged_step (ops : CacheOps κ) {s₀ : LeaperImpl} {t answers : ℕ} {w : World κ}
    {scored : List Scored} {e : Event κ} (hok : (clock κ).ok t e)
    (h : Charged s₀ w.core t answers scored) :
    Charged s₀ (step ops w e).1.core ((clock κ).next t e) (answers + e.answers w)
      (scored ++ e.scored w) := by
  by_cases hbegin : ∃ info blocks now, e = .compactionBegin info blocks now
  · obtain ⟨info, blocks, now, rfl⟩ := hbegin
    exact h.begin hok ops w.cache info blocks
  · have hidle : ∀ info blocks now, e ≠ .compactionBegin info blocks now :=
      fun info blocks now heq =>
      hbegin ⟨info, blocks, now, heq⟩
    have hzero : e.answers w = 0 ∧ e.scored w = [] := by
      cases e with
      | compactionBegin info blocks now => exact absurd rfl (hidle info blocks now)
      | _ => exact ⟨rfl, rfl⟩
    rw [hzero.1, hzero.2, List.append_nil]
    exact charged_of_answers ops hok hidle h

/-- **A run.** -/
theorem charged_run (ops : CacheOps κ) {s₀ : LeaperImpl} (es : List (Event κ)) :
    ∀ {t answers : ℕ} {w : World κ} {scored : List Scored}, (clock κ).Accepts t es →
      Charged s₀ w.core t answers scored →
        Charged s₀ (run (step ops) w es).core ((clock κ).after t es)
          (answers + answersIn ops w es) (scored ++ scoredIn ops w es) := by
  induction es with
  | nil =>
    intro t answers w scored _ h
    rw [scoredIn, List.append_nil]
    exact h
  | cons e es ih =>
    intro t answers w scored hacc h
    rw [scoredIn, ← List.append_assoc, answersIn, ← Nat.add_assoc]
    exact ih hacc.2 (charged_step ops hacc.1 h)

/-- A list without repetition of elements that differ in a number below `n` is no longer. -/
theorem length_le_of_injOn {α : Type*} {l : List α} {f : α → ℕ} {n : ℕ} (hl : l.Nodup)
    (hlt : ∀ x ∈ l, f x < n) (hinj : ∀ x ∈ l, ∀ y ∈ l, f x = f y → x = y) : l.length ≤ n := by
  have hmap : (l.map f).Nodup := hl.map_on hinj
  have hsub : (l.map f) ⊆ List.range n := by
    intro m hm
    obtain ⟨x, hx, rfl⟩ := List.mem_map.mp hm
    exact List.mem_range.mpr (hlt x hx)
  have hlen := (hmap.subperm hsub).length_le
  rwa [List.length_map, List.length_range] at hlen

/-- **Nothing is scored twice in one second.** Over every run of the core whose clock never goes
    back, with the memo switched on, the answers that its `PredictHot` calls compute are all
    different in (second, slot, steps, range); so in one second and slot there are, for one range of
    steps, at most `max_range_id + 1` of them, however many jobs begin.  Each takes one model
    evaluation at least and as many as there are models at most, and `memo_hits` counts all other
    answers. -/
theorem scored_once (ops : CacheOps κ) (w : World κ) (hmemo : w.core.predictor.memoize = true)
    {t : ℕ} {es : List (Event κ)} (hacc : (clock κ).Accepts t es) :
    (scoredIn ops w es).Nodup ∧
      (∀ x ∈ scoredIn ops w es, 1 ≤ x.lo ∧ x.lo ≤ x.hi ∧ x.range ≤ w.core.opt.maxRangeId) ∧
      (∀ sec slot lo hi, ((scoredIn ops w es).filter fun x => decide (x.sec = sec ∧ x.slot = slot ∧
        x.lo = lo ∧ x.hi = hi)).length ≤ w.core.opt.maxRangeId + 1) ∧
      w.core.stats.inferences + (scoredIn ops w es).length ≤
        (run (step ops) w es).core.stats.inferences ∧
      (run (step ops) w es).core.stats.inferences ≤
        w.core.stats.inferences + (scoredIn ops w es).length * w.core.predictor.models.length ∧
      (run (step ops) w es).core.stats.memoHits + (scoredIn ops w es).length =
        w.core.stats.memoHits + answersIn ops w es := by
  have hstart : Charged w.core w.core t 0 [] :=
    ⟨hmemo, rfl, rfl, MemoLedger.nil _ _ _ _, le_rfl, Nat.le_add_right _ _, rfl⟩
  have h := charged_run ops es hacc hstart
  rw [List.nil_append, Nat.zero_add] at h
  have hvalid : ∀ x ∈ scoredIn ops w es,
      1 ≤ x.lo ∧ x.lo ≤ x.hi ∧ x.range ≤ w.core.opt.maxRangeId := by
    rw [← h.opt]
    exact h.ledger.valid
  refine ⟨h.ledger.nodup, hvalid, ?_, h.lower, h.upper, h.hits⟩
  -- within one second, slot and step range the ranges are different numbers below the bound
  intro sec slot lo hi
  refine length_le_of_injOn (f := Scored.range) (h.ledger.nodup.filter _) ?_ ?_
  · intro x hx
    exact Nat.lt_succ_of_le (hvalid x (List.mem_of_mem_filter hx)).2.2
  · intro x hx y hy heq
    obtain ⟨-, hx⟩ := List.mem_filter.mp hx
    obtain ⟨-, hy⟩ := List.mem_filter.mp hy
    obtain ⟨h1, h2, h3, h4⟩ := of_decide_eq_true hx
    obtain ⟨h1', h2', h3', h4'⟩ := of_decide_eq_true hy
    cases x
    cases y
    simp_all

/-- A flush and a compaction in one second, over blocks that share ranges. -/
def oneSecond : List (Event (List BlockRef)) :=
  [.access false [2] 5, .compactionBegin { isFlush := true } [{ firstRange := 1, lastRange := 3 }]
    1000005, .compactionBegin { estBlocks := 10 } [{ firstRange := 2, lastRange := 4 }] 1000006]

/-- The flush scores three ranges for step 1, the compaction one more for step 1 and three for
    step 2. -/
theorem scored_once_oneSecond :
    (scoredIn listCache ⟨sampleCore, []⟩ oneSecond).Nodup ∧
    ((scoredIn listCache ⟨sampleCore, []⟩ oneSecond).map fun x => (x.sec, x.lo, x.range)) =
      [(1, 1, 1), (1, 1, 2), (1, 1, 3), (1, 1, 4), (1, 2, 2), (1, 2, 3), (1, 2, 4)] ∧
    (run (step listCache) ⟨sampleCore, []⟩ oneSecond).core.stats.memoHits = 2 := by
  obtain ⟨hnodup, -, -, -, -, hhits⟩ :=
    scored_once listCache ⟨sampleCore, []⟩ rfl (t := 0) (by decide : (clock _).Accepts 0 oneSecond)
  have hscored : ((scoredIn listCache ⟨sampleCore, []⟩ oneSecond).map fun x =>
      (x.sec, x.lo, x.range)) =
      [(1, 1, 1), (1, 1, 2), (1, 1, 3), (1, 1, 4), (1, 2, 2), (1, 2, 3), (1, 2, 4)] := by
    decide +kernel
  have hlength := congrArg List.length hscored
  rw [List.length_map] at hlength
  have hasked : answersIn listCache ⟨sampleCore, []⟩ oneSecond = 9 := by decide +kernel
  have hzero : sampleCore.stats.memoHits = 0 := rfl
  rw [hlength, hasked, hzero] at hhits
  exact ⟨hnodup, hscored, Nat.add_right_cancel hhits⟩

end Leaper
