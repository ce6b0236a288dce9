import Leaper.Adapters.RocksDBWarm
import Leaper.Lib.Rounding

namespace Leaper.RocksDB

open Lib

/-!
# The warm budget as a setting

`Adapter::Create` turns `max_prefetch_frac` into a number of blocks, and from then on zero blocks
mean that there is no budget.  Two settings are compared over one job: the same files, ranges and
costs.

* `warmFiles_prefix`, `prefetchAll_prefix` — with a smaller budget a job issues the beginning of
  the operations it issues with a larger one;
* `grants_mono` — the builder's filter says yes no more often;
* `jobBlocks_mono` — the three modes together, for settings of one block or more;
* `exists_jobBlocks_of_noBudget` — with a setting of no block there is no limit.
-/

/-- `max_prefetch_frac * cache_bytes / warm_block_bytes` in `double`s. -/
def blocksOfFrac (frac cacheBytes : ℚ) (warmBlockBytes : ℕ) : ℚ :=
  binary64 (binary64 (frac * cacheBytes) / binary64 warmBlockBytes)

/-- The adapter of `Create` for a fraction: `warm_block_budget_` is the quotient cut to an
    integer. -/
def WarmAdapter.withFrac (a : WarmAdapter) (frac cacheBytes : ℚ) (warmBlockBytes : ℕ) :
    WarmAdapter :=
  { a with warmBlockBudget := ⌊blocksOfFrac frac cacheBytes warmBlockBytes⌋₊ }

/-! ### Reading the output files -/

section Files

variable (e : WarmEngine) {B B' : ℕ}

/-- A scan of keys only adds to the log. -/
theorem prefix_scanKeys (limit : Bytes) (keys : List Bytes) :
    ∀ log : Log WarmOp, log <+: (scanKeys e B limit keys log).1 := by
  induction keys with
  | nil => exact fun log => List.prefix_rfl
  | cons k ks ih =>
    intro log
    rw [scanKeys]
    split_ifs
    · exact List.prefix_rfl
    · exact (prefix_issue _ _ _).trans (ih _)
    · exact List.prefix_rfl

/-- The scan of a file only adds to the log. -/
theorem prefix_scanRanges (m : RangeMapper) (keys : List Bytes) (ranges : List BlockRef) :
    ∀ log : Log WarmOp, log <+: (scanRanges e m B keys ranges log).1 := by
  induction ranges with
  | nil => exact fun log => List.prefix_rfl
  | cons b bs ih =>
    intro log
    rw [scanRanges]
    simp only
    split_ifs
    · exact List.prefix_rfl
    · exact prefix_issue _ _ _
    · exact (prefix_issue _ _ _).trans (prefix_scanKeys e _ _ _)
    · exact (prefix_issue _ _ _).trans ((prefix_scanKeys e _ _ _).trans (ih _))

/-- The loop over the files only adds to the log. -/
theorem prefix_warmFiles (m : RangeMapper) (ranges : List BlockRef)
    (outputs : List (Option (List Bytes))) :
    ∀ l : FileLoop, l.log <+: (warmFiles e m B ranges outputs l).log := by
  induction outputs with
  | nil => exact fun l => List.prefix_rfl
  | cons f fs ih =>
    intro l
    cases f with
    | none =>
      rw [warmFiles]
      split_ifs
      · exact List.prefix_rfl
      · exact ih { l with failed := l.failed + 1 }
    | some keys =>
      rw [warmFiles]
      simp only
      split_ifs
      · exact List.prefix_rfl
      · exact prefix_scanRanges e m keys ranges l.log
      · refine (prefix_scanRanges (B := B) e m keys ranges l.log).trans ?_
        exact ih { l with log := (scanRanges e m B keys ranges l.log).1, files := l.files + 1 }

variable (hB : 1 ≤ B) (hle : B ≤ B')

include hB hle

/-- A larger budget is spent later. -/
theorem overBudget_of_le {log : Log WarmOp} (h : overBudget B' log = true) :
    overBudget B log = true := by
  have hover : B' ≠ 0 ∧ B' ≤ charged log := of_decide_eq_true h
  exact decide_eq_true ⟨by omega, by omega⟩

/-- With a larger budget a scan of keys does the same and goes on. -/
theorem scanKeys_goesOn (limit : Bytes) (keys : List Bytes) :
    ∀ log : Log WarmOp, GoesOn (scanKeys e B limit keys log) (scanKeys e B' limit keys log) := by
  induction keys with
  | nil => exact fun log => Or.inl ⟨rfl, rfl⟩
  | cons k ks ih =>
    intro log
    have hmore := @prefix_scanKeys e B' limit (k :: ks) log
    rw [scanKeys] at hmore ⊢
    rw [scanKeys]
    by_cases hin : e.lt k limit = true
    · rw [if_pos hin] at hmore ⊢
      rw [if_pos hin]
      by_cases hover : overBudget B log = true
      · rw [if_pos hover]
        exact Or.inr ⟨rfl, hmore⟩
      · rw [if_neg hover, if_neg fun h => hover (overBudget_of_le hB hle h)]
        exact ih _
    · rw [if_neg hin, if_neg hin]
      exact Or.inl ⟨rfl, rfl⟩

/-- With a larger budget the scan of a file does the same and goes on. -/
theorem scanRanges_goesOn (m : RangeMapper) (keys : List Bytes) (ranges : List BlockRef) :
    ∀ log : Log WarmOp,
      GoesOn (scanRanges e m B keys ranges log) (scanRanges e m B' keys ranges log) := by
  induction ranges with
  | nil => exact fun log => Or.inl ⟨rfl, rfl⟩
  | cons b bs ih =>
    intro log
    simp only [scanRanges]
    -- the smaller budget is spent before the seek, after it, in the scan, or not at all
    by_cases hbefore : overBudget B log = true
    · rw [if_pos hbefore]
      right
      refine ⟨rfl, ?_⟩
      have hmore := @prefix_scanRanges e B' m keys (b :: bs) log
      simpa only [scanRanges] using hmore
    · rw [if_neg hbefore, if_neg fun h => hbefore (overBudget_of_le hB hle h)]
      generalize issue e.cost (.seek (m.rangeStartKey b.firstRange)) log = log
      by_cases hafter : overBudget B log = true
      · rw [if_pos hafter]
        right
        refine ⟨rfl, ?_⟩
        split_ifs
        · exact List.prefix_rfl
        · exact prefix_scanKeys e _ _ _
        · exact (prefix_scanKeys e _ _ _).trans (prefix_scanRanges e m keys bs _)
      · rw [if_neg hafter, if_neg fun h => hafter (overBudget_of_le hB hle h)]
        rcases scanKeys_goesOn e hB hle (m.rangeStartKey (u64 (b.lastRange + 1)))
          (e.seekTo (m.rangeStartKey b.firstRange) keys) log with ⟨hflag, heq⟩ | ⟨hflag, hprefix⟩
        · -- the range was scanned to its end
          have hgo : ¬ (scanKeys e B (m.rangeStartKey (u64 (b.lastRange + 1)))
              (e.seekTo (m.rangeStartKey b.firstRange) keys) log).2 = true := by
            rw [hflag]
            exact Bool.false_ne_true
          rw [heq, if_neg hgo, if_neg hgo]
          exact ih _
        · rw [if_pos hflag]
          right
          refine ⟨hflag, hprefix.trans ?_⟩
          split_ifs
          · exact List.prefix_rfl
          · exact prefix_scanRanges e m keys bs _

/-- **The files with less to spend.** -/
theorem warmFiles_prefix (m : RangeMapper) (ranges : List BlockRef)
    (outputs : List (Option (List Bytes))) : ∀ l : FileLoop,
      (warmFiles e m B ranges outputs l).log <+: (warmFiles e m B' ranges outputs l).log := by
  induction outputs with
  | nil => exact fun l => List.prefix_rfl
  | cons f fs ih =>
    intro l
    have hmore := @prefix_warmFiles e B' m ranges (f :: fs) l
    by_cases hover : overBudget B l.log = true
    · have hstop : (warmFiles e m B ranges (f :: fs) l).log = l.log := by
        cases f <;> rw [warmFiles, if_pos hover]
      rw [hstop]
      exact hmore
    · cases f with
      | none =>
        rw [warmFiles, warmFiles, if_neg hover, if_neg fun h => hover (overBudget_of_le hB hle h)]
        exact ih _
      | some keys =>
        rw [warmFiles, warmFiles, if_neg hover, if_neg fun h => hover (overBudget_of_le hB hle h)]
        simp only
        rcases scanRanges_goesOn e hB hle m keys ranges l.log with ⟨hflag, heq⟩ | ⟨hflag, hprefix⟩
        · have hgo : ¬ (scanRanges e m B keys ranges l.log).2 = true := by
            rw [hflag]
            exact Bool.false_ne_true
          rw [heq, if_neg hgo, if_neg hgo]
          exact ih _
        · rw [if_pos hflag]
          refine hprefix.trans ?_
          split_ifs
          · exact List.prefix_rfl
          · exact prefix_warmFiles e m ranges fs
              { l with log := (scanRanges e m B' keys ranges l.log).1, files := l.files + 1 }

end Files

/-! ### Reading through the database -/

section Database

variable (a : WarmAdapter) (e : WarmEngine)

theorem prefix_scanDb (stop : Log WarmOp → Bool) (warmScanKeys : ℤ) (keys : List Bytes) :
    ∀ (n : ℤ) (log : Log WarmOp), log <+: (scanDb e stop warmScanKeys keys n log).1 := by
  induction keys with
  | nil => exact fun _ log => List.prefix_rfl
  | cons k ks ih =>
    intro n log
    rw [scanDb]
    split_ifs
    · exact List.prefix_rfl
    · exact (prefix_issue _ _ _).trans (ih _ _)
    · exact List.prefix_rfl

/-- The scan of a range, where the second test stops no earlier than the first. -/
theorem scanDb_goesOn {stop stop' : Log WarmOp → Bool}
    (hstop : ∀ log, stop' log = true → stop log = true) (warmScanKeys : ℤ) (keys : List Bytes) :
    ∀ (n : ℤ) (log : Log WarmOp),
      GoesOn (scanDb e stop warmScanKeys keys n log) (scanDb e stop' warmScanKeys keys n log) := by
  induction keys with
  | nil => exact fun _ log => Or.inl ⟨rfl, rfl⟩
  | cons k ks ih =>
    intro n log
    have hmore := prefix_scanDb e stop' warmScanKeys (k :: ks) n log
    rw [scanDb] at hmore ⊢
    rw [scanDb]
    by_cases hn : n < warmScanKeys
    · rw [if_pos hn] at hmore ⊢
      rw [if_pos hn]
      by_cases hover : stop log = true
      · rw [if_pos hover]
        exact Or.inr ⟨rfl, hmore⟩
      · rw [if_neg hover, if_neg fun h => hover (hstop log h)]
        exact ih _ _
    · rw [if_neg hn, if_neg hn]
      exact Or.inl ⟨rfl, rfl⟩

/-- The operations of one `Prefetch`, and whether it was stopped. -/
def WarmAdapter.prefetchOps (a : WarmAdapter) (e : WarmEngine) (b : BlockRef) (budgetLeft : ℕ)
    (log : Log WarmOp) : Log WarmOp × Bool :=
  let start := a.core.mapper.rangeStartKey b.firstRange
  let limit := a.core.mapper.rangeStartKey (u64 (b.lastRange + 1))
  let stop := fun log' : Log WarmOp =>
    decide (budgetLeft ≠ 0 ∧ budgetLeft ≤ charged log' - charged log)
  let log' := issue e.cost (.seek start) log
  if stop log' then (log', true)
  else scanDb e stop a.warmScanKeys
    (e.seekTo start ((e.dbKeys log).filter fun k => e.lt k limit)) 0 log'

theorem prefetch_log (b : BlockRef) (l : PrefetchLoop) :
    (a.prefetch e b l).log =
      if a.hasDb then (a.prefetchOps e b l.budgetLeft l.log).1 else l.log := by
  unfold WarmAdapter.prefetch WarmAdapter.prefetchOps
  split_ifs <;> rfl

theorem prefix_prefetchOps (b : BlockRef) (budgetLeft : ℕ) (log : Log WarmOp) :
    log <+: (a.prefetchOps e b budgetLeft log).1 := by
  unfold WarmAdapter.prefetchOps
  simp only
  split_ifs
  · exact prefix_issue _ _ _
  · exact (prefix_issue _ _ _).trans (prefix_scanDb e _ _ _ _ _)

/-- One `Prefetch` with less left, but something. -/
theorem prefetchOps_goesOn (b : BlockRef) {left left' : ℕ} (hpos : 1 ≤ left) (hle : left ≤ left')
    (log : Log WarmOp) : GoesOn (a.prefetchOps e b left log) (a.prefetchOps e b left' log) := by
  have hstop : ∀ log' : Log WarmOp,
      decide (left' ≠ 0 ∧ left' ≤ charged log' - charged log) = true →
        decide (left ≠ 0 ∧ left ≤ charged log' - charged log) = true := by
    intro log' h
    have h := of_decide_eq_true h
    exact decide_eq_true ⟨by omega, by omega⟩
  unfold WarmAdapter.prefetchOps
  simp only
  split_ifs with h h' h'
  · exact Or.inr ⟨rfl, List.prefix_rfl⟩
  · exact Or.inr ⟨rfl, prefix_scanDb e _ _ _ _ _⟩
  · exact absurd (hstop _ h') h
  · exact scanDb_goesOn e hstop _ _ _ _

/-- A database scan that says it stopped had reason to. -/
theorem stop_of_scanDb (stop : Log WarmOp → Bool) (warmScanKeys : ℤ) (keys : List Bytes) :
    ∀ (n : ℤ) (log : Log WarmOp), (scanDb e stop warmScanKeys keys n log).2 = true →
      stop (scanDb e stop warmScanKeys keys n log).1 = true := by
  induction keys with
  | nil => exact fun _ _ h => absurd h Bool.false_ne_true
  | cons k ks ih =>
    intro n log h
    rw [scanDb] at h ⊢
    split_ifs at h ⊢ with hn hover
    · exact hover
    · exact ih _ _ h

/-- A `Prefetch` that was stopped has used up what was left. -/
theorem le_charged_of_stopped (b : BlockRef) {left : ℕ} {log : Log WarmOp}
    (h : (a.prefetchOps e b left log).2 = true) :
    left ≤ charged (a.prefetchOps e b left log).1 - charged log := by
  unfold WarmAdapter.prefetchOps at h ⊢
  simp only at h ⊢
  split_ifs at h ⊢ with hover
  · exact (of_decide_eq_true hover).2
  · exact (of_decide_eq_true (stop_of_scanDb e _ _ _ _ _ h)).2

theorem prefix_prefetchAll (B : ℕ) (chosen : List BlockRef) :
    ∀ l : PrefetchLoop, l.log <+: (a.prefetchAll e B chosen l).log := by
  induction chosen with
  | nil => exact fun l => List.prefix_rfl
  | cons b bs ih =>
    intro l
    rw [WarmAdapter.prefetchAll]
    split_ifs
    · exact List.prefix_rfl
    · refine List.IsPrefix.trans ?_ (ih _)
      rw [prefetch_log]
      split_ifs
      · exact prefix_prefetchOps a e b _ _
      · exact List.prefix_rfl

/-- With nothing left the loop issues nothing more. -/
theorem prefetchAll_of_spent {B : ℕ} (hB : 1 ≤ B) (chosen : List BlockRef) {l : PrefetchLoop}
    (hleft : l.budgetLeft = 0) : a.prefetchAll e B chosen l = l := by
  cases chosen with
  | nil => rfl
  | cons b bs =>
    rw [WarmAdapter.prefetchAll, if_pos ⟨by omega, hleft⟩]

/-- **The database with less to spend.** The loops are compared between two `Prefetch` calls, with
    the same operations behind them. -/
theorem prefetchAll_prefix {B B' : ℕ} (hB : 1 ≤ B) (hle : B ≤ B') (chosen : List BlockRef) :
    ∀ {l l' : PrefetchLoop}, Metered B l → Metered B' l' → l.log = l'.log →
      (a.prefetchAll e B chosen l).log <+: (a.prefetchAll e B' chosen l').log := by
  induction chosen with
  | nil =>
    intro l l' _ _ hlog
    rw [WarmAdapter.prefetchAll, WarmAdapter.prefetchAll, hlog]
  | cons b bs ih =>
    intro l l' hl hl' hlog
    rcases Nat.eq_zero_or_pos l.budgetLeft with hleft | hleft
    · -- the first loop is through already
      rw [prefetchAll_of_spent a e hB _ hleft, hlog]
      exact prefix_prefetchAll a e B' _ l'
    · have hmore : l.budgetLeft ≤ l'.budgetLeft := by
        rw [hl.left, hl'.left, hlog]
        omega
      have hnext := hl.prefetch hleft.ne' a e b
      have hnext' := hl'.prefetch (by omega) a e b
      rw [WarmAdapter.prefetchAll, if_neg fun h => hleft.ne' h.2, WarmAdapter.prefetchAll,
        if_neg fun h => (hleft.trans_le hmore).ne' h.2]
      by_cases hdb : a.hasDb = true
      · rcases prefetchOps_goesOn a e b hleft hmore l.log with ⟨-, heq⟩ | ⟨hflag, hprefix⟩
        · -- both loops have done the same and go on
          refine ih hnext hnext' ?_
          rw [prefetch_log, prefetch_log, if_pos hdb, if_pos hdb, ← hlog, heq]
        · -- the first loop is through
          have hspent : (a.prefetch e b l).budgetLeft = 0 := by
            have hused := le_charged_of_stopped a e b hflag
            have hl := hl.left
            rw [hnext.left, prefetch_log, if_pos hdb]
            omega
          rw [prefetchAll_of_spent a e hB _ hspent]
          refine List.IsPrefix.trans ?_ (prefix_prefetchAll a e B' bs _)
          rw [prefetch_log, prefetch_log, if_pos hdb, if_pos hdb, ← hlog]
          exact hprefix
      · refine ih hnext hnext' ?_
        rw [prefetch_log, prefetch_log, if_neg hdb, if_neg hdb, hlog]

end Database

/-! ### The builder's filter -/

section Filter

/-- The blocks of a job that the filter says yes to; a block is given by its first and last key. -/
def Adapter.grants (a : Adapter) (job : PrepopJob) (blocks : List (Bytes × Bytes)) : ℕ :=
  (outs (fun j (b : Bytes × Bytes) => a.shouldWarm j b.1 b.2) job blocks).count true

theorem grants_cons (a : Adapter) (job : PrepopJob) (b : Bytes × Bytes)
    (blocks : List (Bytes × Bytes)) :
    a.grants job (b :: blocks) =
      (a.shouldWarm job b.1 b.2).2.toNat + a.grants (a.shouldWarm job b.1 b.2).1 blocks := by
  unfold Adapter.grants
  rw [outs_cons, List.count_cons, Nat.add_comm]
  cases (a.shouldWarm job b.1 b.2).2 <;> rfl

/-- Two jobs with the same hot ranges, the first with less left. -/
structure Behind (job job' : PrepopJob) : Prop where
  hot_eq : job'.hot = job.hot
  active_eq : job'.active = job.active
  left_le : job.budgetLeft ≤ job'.budgetLeft

variable {a a' : Adapter} (hcore : a'.core = a.core) (hB : 1 ≤ a.warmBlockBudget)
  (hB' : 1 ≤ a'.warmBlockBudget) {job job' : PrepopJob}

include hcore hB hB' in
/-- While the first job has something left, both are answered alike. -/
theorem shouldWarm_same (h : Behind job job') (hpos : 0 < job.budgetLeft)
    (firstIkey lastIkey : Bytes) :
    (a'.shouldWarm job' firstIkey lastIkey).2 = (a.shouldWarm job firstIkey lastIkey).2 := by
  have hle := h.left_le
  have hgo : ¬ (job.budgetLeft = 0 ∧ a.warmBlockBudget ≠ 0) := by omega
  have hgo' : ¬ (job'.budgetLeft = 0 ∧ a'.warmBlockBudget ≠ 0) := by omega
  have hne : a.warmBlockBudget ≠ 0 := by omega
  have hne' : a'.warmBlockBudget ≠ 0 := by omega
  unfold Adapter.shouldWarm
  rw [if_neg hgo, if_neg hgo', h.active_eq, h.hot_eq, hcore]
  simp only [if_pos hne, if_pos hne']
  split_ifs
  · rfl
  · rfl
  · -- the first hot range from the block on, if there is one
    split
    · rfl
    · split_ifs <;> rfl

include hcore hB hB' in
/-- One question: what the first job is granted the second one is too. -/
theorem shouldWarm_behind (h : Behind job job') (firstIkey lastIkey : Bytes) :
    Behind (a.shouldWarm job firstIkey lastIkey).1 (a'.shouldWarm job' firstIkey lastIkey).1 ∧
      (a.shouldWarm job firstIkey lastIkey).2.toNat ≤
        (a'.shouldWarm job' firstIkey lastIkey).2.toNat := by
  have hle := h.left_le
  rcases shouldWarm_spec hB job firstIkey lastIkey with hno | ⟨hpos, hyes⟩
  · rw [hno]
    refine ⟨?_, Nat.zero_le _⟩
    rcases shouldWarm_spec hB' job' firstIkey lastIkey with hno' | ⟨hpos', hyes'⟩
    · rw [hno']
      exact h
    · rw [hyes']
      refine ⟨h.hot_eq, h.active_eq, ?_⟩
      -- the second is granted what the first is not: the first has nothing left
      have hspent : job.budgetLeft = 0 := by
        by_contra hne
        have hsame := shouldWarm_same hcore hB hB' h (Nat.pos_of_ne_zero hne) firstIkey lastIkey
        rw [hno, hyes'] at hsame
        exact Bool.false_ne_true hsame.symm
      show job.budgetLeft ≤ job'.budgetLeft - 1
      omega
  · have hsame := shouldWarm_same hcore hB hB' h hpos firstIkey lastIkey
    rcases shouldWarm_spec hB' job' firstIkey lastIkey with hno' | ⟨hpos', hyes'⟩
    · rw [hno', hyes] at hsame
      exact absurd hsame Bool.false_ne_true
    · rw [hyes, hyes']
      refine ⟨⟨h.hot_eq, h.active_eq, ?_⟩, le_rfl⟩
      show job.budgetLeft - 1 ≤ job'.budgetLeft - 1
      omega

include hcore hB hB' in
/-- **The filter with less to spend.** -/
theorem grants_mono (blocks : List (Bytes × Bytes)) : ∀ {job job' : PrepopJob}, Behind job job' →
    a.grants job blocks ≤ a'.grants job' blocks := by
  induction blocks with
  | nil => exact fun _ => le_rfl
  | cons b blocks ih =>
    intro job job' h
    obtain ⟨hnext, hanswer⟩ := shouldWarm_behind hcore hB hB' h b.1 b.2
    rw [grants_cons, grants_cons]
    exact Nat.add_le_add hanswer (ih hnext)

include hB in
/-- A job is granted no more than its budget. -/
theorem grants_le (blocks : List (Bytes × Bytes)) :
    ∀ job : PrepopJob, a.grants job blocks ≤ job.budgetLeft := by
  induction blocks with
  | nil => exact fun _ => Nat.zero_le _
  | cons b blocks ih =>
    intro job
    rw [grants_cons]
    rcases shouldWarm_spec hB job b.1 b.2 with hno | ⟨hpos, hyes⟩
    · rw [hno]
      exact (Nat.zero_add _).trans_le (ih job)
    · have hrest := ih { job with budgetLeft := job.budgetLeft - 1 }
      have hrest : a.grants { job with budgetLeft := job.budgetLeft - 1 } blocks ≤
        job.budgetLeft - 1 := hrest
      rw [hyes]
      show 1 + a.grants { job with budgetLeft := job.budgetLeft - 1 } blocks ≤ job.budgetLeft
      omega

end Filter

/-! ### A job under two settings -/

/-- What a job writes: its output files, and the blocks the builder makes them of. -/
structure JobFiles where
  outputs : List (Option (List Bytes))
  blocks : List (Bytes × Bytes)

/-- The data blocks a job warms for its chosen ranges. -/
def WarmAdapter.jobBlocks (a : WarmAdapter) (e : WarmEngine) (files : JobFiles)
    (chosen : List BlockRef) : ℕ :=
  if a.warmMode = .prepop then
    a.toAdapter.grants ⟨sorted (chosen.map (·.firstRange)), a.warmBlockBudget, true⟩ files.blocks
  else charged (a.endWarm e files.outputs chosen).1

section Job

variable (a : WarmAdapter) (e : WarmEngine) (files : JobFiles) (chosen : List BlockRef) {B B' : ℕ}

/-- The loop over the ranges takes its budget from the call. -/
theorem prefetchAll_withBudget (n : ℕ) (chosen : List BlockRef) : ∀ l : PrefetchLoop,
    WarmAdapter.prefetchAll { a with warmBlockBudget := B } e n chosen l =
      a.prefetchAll e n chosen l := by
  induction chosen with
  | nil => exact fun _ => rfl
  | cons b bs ih =>
    intro l
    rw [WarmAdapter.prefetchAll, WarmAdapter.prefetchAll, ih]
    rfl

/-- The operations at a job's end, with less to spend. -/
theorem isPrefix_endWarm (hB : 1 ≤ B) (hle : B ≤ B') :
    (WarmAdapter.endWarm { a with warmBlockBudget := B } e files.outputs chosen).1 <+:
      (WarmAdapter.endWarm { a with warmBlockBudget := B' } e files.outputs chosen).1 := by
  unfold WarmAdapter.endWarm WarmAdapter.warmFromFiles
  simp only
  split_ifs
  · exact List.prefix_rfl
  · exact List.prefix_rfl
  · exact warmFiles_prefix e hB hle _ _ _ _
  · rw [prefetchAll_withBudget a e (B := B), prefetchAll_withBudget a e (B := B')]
    refine prefetchAll_prefix a e hB hle chosen ?_ ?_ rfl
    · exact ⟨within_nil _, rfl⟩
    · exact ⟨within_nil _, rfl⟩

/-- **A job with less to spend** warms no more. -/
theorem jobBlocks_mono (hB : 1 ≤ B) (hle : B ≤ B') :
    WarmAdapter.jobBlocks { a with warmBlockBudget := B } e files chosen ≤
      WarmAdapter.jobBlocks { a with warmBlockBudget := B' } e files chosen := by
  unfold WarmAdapter.jobBlocks
  simp only
  split_ifs
  · apply grants_mono
    · rfl
    · exact hB
    · exact hB.trans hle
    · exact ⟨rfl, rfl, hle⟩
  · exact charged_le_of_prefix (isPrefix_endWarm a e files chosen hB hle)

/-- **The overrun of a job**: one operation at most. -/
theorem jobBlocks_le (hB : 1 ≤ a.warmBlockBudget) :
    ∃ cost, (cost = 0 ∨ ∃ x ∈ (a.endWarm e files.outputs chosen).1, x.2 = cost) ∧
      a.jobBlocks e files chosen ≤ a.warmBlockBudget + cost := by
  unfold WarmAdapter.jobBlocks
  split_ifs
  · exact ⟨0, Or.inl rfl, grants_le hB _ _⟩
  · rcases (endWarm_within hB e files.outputs chosen).charged_le with hnil | ⟨x, hx, hle⟩
    · refine ⟨0, Or.inl rfl, ?_⟩
      rw [hnil, charged_nil]
      exact Nat.zero_le _
    · exact ⟨x.2, Or.inr ⟨x, hx, rfl⟩, hle.trans (by omega)⟩

end Job

/-! ### A job without a budget -/

section NoBudget

/-- Every read is one block, and there are no keys to go on to. -/
def seeksOnly : WarmEngine := ⟨fun _ _ => 1, fun _ _ => false, fun _ => []⟩

/-- The log grows by `n` reads of one block. -/
def Reads (n : ℕ) (log log' : Log WarmOp) : Prop :=
  ∃ ops : List WarmOp, ops.length = n ∧ log' = log ++ ops.map fun op => (op, 1)

/-- Every operation of such a log has read one block. -/
theorem Reads.charged_eq {n : ℕ} {log : Log WarmOp} (h : Reads n [] log) : charged log = n := by
  obtain ⟨ops, rfl, rfl⟩ := h
  simp [charged, Function.comp_def]

theorem Reads.cost_eq {n : ℕ} {log : Log WarmOp} (h : Reads n [] log) : ∀ x ∈ log, x.2 = 1 := by
  obtain ⟨ops, -, rfl⟩ := h
  simp

/-- A read comes first. -/
theorem Reads.cons {n : ℕ} {op : WarmOp} {log log' : Log WarmOp}
    (h : Reads n (issue seeksOnly.cost op log) log') : Reads (n + 1) log log' := by
  obtain ⟨ops, rfl, rfl⟩ := h
  exact ⟨op :: ops, rfl, List.append_assoc _ _ _⟩

/-- Every range is sought in a file. -/
theorem scanRanges_noBudget (m : RangeMapper) (ranges : List BlockRef) : ∀ log : Log WarmOp,
    (scanRanges seeksOnly m 0 [] ranges log).2 = false ∧
      Reads ranges.length log (scanRanges seeksOnly m 0 [] ranges log).1 := by
  induction ranges with
  | nil => exact fun log => ⟨rfl, [], rfl, (List.append_nil log).symm⟩
  | cons b bs ih =>
    intro log
    simp only [scanRanges, overBudget_zero, Bool.false_eq_true, if_false]
    obtain ⟨hflag, hreads⟩ := ih (issue seeksOnly.cost (.seek (m.rangeStartKey b.firstRange)) log)
    exact ⟨hflag, hreads.cons⟩

/-- Every range is sought in the database. -/
theorem prefetchAll_noBudget {a : WarmAdapter} (hdb : a.hasDb = true) (chosen : List BlockRef) :
    ∀ l : PrefetchLoop, l.budgetLeft = 0 →
      Reads chosen.length l.log (a.prefetchAll seeksOnly 0 chosen l).log := by
  induction chosen with
  | nil => exact fun l _ => ⟨[], rfl, (List.append_nil l.log).symm⟩
  | cons b bs ih =>
    intro l hleft
    rw [WarmAdapter.prefetchAll, if_neg fun h => h.1 rfl]
    have hlog : (a.prefetch seeksOnly b l).log =
        issue seeksOnly.cost (.seek (a.core.mapper.rangeStartKey b.firstRange)) l.log := by
      rw [prefetch_log, if_pos hdb]
      simp [WarmAdapter.prefetchOps, hleft, seeksOnly, WarmEngine.seekTo, scanDb]
    have hnext : (a.prefetch seeksOnly b l).budgetLeft = 0 := by
      simp [WarmAdapter.prefetch, hdb, hleft]
    have hreads := ih (a.prefetch seeksOnly b l) hnext
    rw [hlog] at hreads
    exact hreads.cons

/-- A block whose keys are in the range of the empty key is granted. -/
theorem shouldWarm_noBudget {a : Adapter} (hzero : a.warmBlockBudget = 0) :
    a.shouldWarm ⟨[a.core.mapper.map []], 0, true⟩ (List.replicate 8 0) (List.replicate 8 0) =
      (⟨[a.core.mapper.map []], 0, true⟩, true) := by
  simp [Adapter.shouldWarm, hzero, lowerBound, lowerBoundLoop]

/-- Without a budget every question is answered yes. -/
theorem grants_noBudget {a : Adapter} (hzero : a.warmBlockBudget = 0) (n : ℕ) :
    a.grants ⟨[a.core.mapper.map []], 0, true⟩
      (List.replicate n (List.replicate 8 0, List.replicate 8 0)) = n := by
  induction n with
  | zero => rfl
  | succ n ih =>
    rw [List.replicate_succ, grants_cons, shouldWarm_noBudget hzero, ih]
    exact Nat.add_comm 1 n

/-- **Without a budget there is no limit**: in each mode there are jobs that warm as many blocks as
    one likes, none of whose reads is of more than one. -/
theorem exists_jobBlocks_of_noBudget {a : WarmAdapter} (hdb : a.hasDb = true)
    (hzero : a.warmBlockBudget = 0) (n : ℕ) :
    ∃ e files chosen, a.jobBlocks e files chosen = n ∧
      ∀ x ∈ (a.endWarm e files.outputs chosen).1, x.2 = 1 := by
  by_cases hprepop : a.warmMode = .prepop
  · refine ⟨seeksOnly, ⟨[], List.replicate n (List.replicate 8 0, List.replicate 8 0)⟩,
      [{ firstRange := a.core.mapper.map [] }], ?_, ?_⟩
    · unfold WarmAdapter.jobBlocks
      rw [if_pos hprepop, hzero]
      exact grants_noBudget hzero n
    · unfold WarmAdapter.endWarm
      simp only [if_pos hprepop]
      exact fun x hx => absurd hx List.not_mem_nil
  · let chosen : List BlockRef := List.replicate n {}
    have hreads : Reads n [] (a.endWarm seeksOnly [some []] chosen).1 := by
      unfold WarmAdapter.endWarm WarmAdapter.warmFromFiles
      simp only [if_neg hprepop, hzero]
      split_ifs with hsst hnone
      · obtain rfl : n = 0 := by simpa [chosen] using hnone
        exact ⟨[], rfl, rfl⟩
      · obtain ⟨hflag, hlog⟩ := scanRanges_noBudget a.core.mapper chosen []
        rw [List.length_replicate] at hlog
        simp only [warmFiles, overBudget_zero, Bool.false_eq_true, if_false, hflag]
        exact hlog
      · have hlog := prefetchAll_noBudget hdb chosen ⟨0, [], a.counters⟩ rfl
        rwa [List.length_replicate] at hlog
    refine ⟨seeksOnly, ⟨[some []], []⟩, chosen, ?_, hreads.cost_eq⟩
    unfold WarmAdapter.jobBlocks
    rw [if_neg hprepop]
    exact hreads.charged_eq

end NoBudget

section Quotient

variable {f f' c : ℚ} {w : ℕ}

/-- A larger fraction is no fewer blocks. -/
theorem blocksOfFrac_mono (hc : 0 ≤ f * c) (h : f * c ≤ f' * c) :
    blocksOfFrac f c w ≤ blocksOfFrac f' c w := by
  have hw : 0 ≤ binary64 w := roundSig_nonneg (by norm_num) (Nat.cast_nonneg w)
  refine roundSig_mono (by norm_num) (div_nonneg (roundSig_nonneg (by norm_num) hc) hw) ?_
  exact div_le_div_of_nonneg_right (roundSig_mono (by norm_num) hc h) hw

/-- A fraction that is a block or more is a fraction of something. -/
theorem pos_of_one_le_blocksOfFrac (hf : 0 < f) (h : 1 ≤ blocksOfFrac f c w) : 0 < c := by
  by_contra! hc
  have hw : 0 ≤ binary64 w := roundSig_nonneg (by norm_num) (Nat.cast_nonneg w)
  have hnum : binary64 (f * c) ≤ 0 :=
    roundSig_nonpos (mul_nonpos_of_nonneg_of_nonpos hf.le hc)
  have hquot : blocksOfFrac f c w ≤ 0 :=
    roundSig_nonpos (div_nonpos_of_nonpos_of_nonneg hnum hw)
  linarith

/-- Up to `2^51` blocks the three roundings do not add one. -/
theorem blocksOfFrac_lt (hc : 0 ≤ f * c) (hlt : f * c / w < 2 ^ 51) :
    blocksOfFrac f c w < f * c / w + 1 := by
  have hw : (0 : ℚ) ≤ w := Nat.cast_nonneg w
  rcases hw.eq_or_lt with hzero | hpos
  · unfold blocksOfFrac
    rw [← hzero]
    simp [binary64]
  · have hnum := (abs_le.mp (abs_roundSig_sub_le_mul 53 hc)).2
    have hden := (abs_le.mp (abs_roundSig_sub_le_mul 53 hw)).1
    have hden_pos : 0 < (w : ℚ) * (1 - 1 / 2 ^ 53) := mul_pos hpos (by norm_num)
    have hq : 0 ≤ f * c / w := div_nonneg hc hw
    -- numerator and denominator, then the quotient
    have hquot : binary64 (f * c) / binary64 w ≤ f * c / w * (1 + 5 / 2 ^ 54) := by
      calc binary64 (f * c) / binary64 w
          ≤ f * c * (1 + 1 / 2 ^ 53) / (w * (1 - 1 / 2 ^ 53)) :=
            div_le_div₀ (mul_nonneg hc (by norm_num)) (by unfold binary64; linarith) hden_pos
              (by unfold binary64; linarith)
        _ = f * c / w * ((1 + 1 / 2 ^ 53) / (1 - 1 / 2 ^ 53)) := mul_div_mul_comm _ _ _ _
        _ ≤ f * c / w * (1 + 5 / 2 ^ 54) := mul_le_mul_of_nonneg_left (by norm_num) hq
    have hquot_nonneg : 0 ≤ binary64 (f * c) / binary64 w :=
      div_nonneg (roundSig_nonneg (by norm_num) hc) (roundSig_nonneg (by norm_num) hw)
    have hround := (abs_le.mp (abs_roundSig_sub_le_mul 53 hquot_nonneg)).2
    unfold blocksOfFrac
    calc binary64 (binary64 (f * c) / binary64 w)
        ≤ binary64 (f * c) / binary64 w * (1 + 1 / 2 ^ 53) := by
          unfold binary64 at hround ⊢
          linarith
      _ ≤ f * c / w * (1 + 5 / 2 ^ 54) * (1 + 1 / 2 ^ 53) :=
          mul_le_mul_of_nonneg_right hquot (by norm_num)
      _ < f * c / w + 1 := by
          norm_num at hlt hq ⊢
          linarith

end Quotient

/-- A fraction that is less than a block is no budget. -/
theorem withFrac_budget_eq_zero (a : WarmAdapter) {f c : ℚ} {w : ℕ} (h : blocksOfFrac f c w < 1) :
    (a.withFrac f c w).warmBlockBudget = 0 := Nat.floor_eq_zero.mpr h

/-- A fraction of a block or more: the job warms no more than under a larger one, and what the
    fraction is worth up to one read. -/
theorem jobBlocks_of_one_le (a : WarmAdapter) (e : WarmEngine) (files : JobFiles)
    (chosen : List BlockRef) {cacheBytes : ℚ} {warmBlockBytes : ℕ} {f f' : ℚ} (hf : 0 < f)
    (hle : f ≤ f') (hblock : 1 ≤ blocksOfFrac f cacheBytes warmBlockBytes) :
    (a.withFrac f cacheBytes warmBlockBytes).jobBlocks e files chosen ≤
      (a.withFrac f' cacheBytes warmBlockBytes).jobBlocks e files chosen ∧
    ∃ cost : ℕ, (cost = 0 ∨
        ∃ x ∈ ((a.withFrac f cacheBytes warmBlockBytes).endWarm e files.outputs chosen).1,
          x.2 = cost) ∧
      ((a.withFrac f cacheBytes warmBlockBytes).jobBlocks e files chosen : ℚ) <
        blocksOfFrac f cacheBytes warmBlockBytes + 1 + cost ∧
      (f * cacheBytes / warmBlockBytes < 2 ^ 51 →
        ((a.withFrac f cacheBytes warmBlockBytes).jobBlocks e files chosen : ℚ) <
          f * cacheBytes / warmBlockBytes + 1 + cost) := by
  have hc := pos_of_one_le_blocksOfFrac hf hblock
  have hbudget : 1 ≤ (a.withFrac f cacheBytes warmBlockBytes).warmBlockBudget :=
    Nat.le_floor (by exact_mod_cast hblock)
  have hmono := blocksOfFrac_mono (w := warmBlockBytes) (mul_pos hf hc).le
    (mul_le_mul_of_nonneg_right hle hc.le)
  obtain ⟨cost, hcost, hbound⟩ := jobBlocks_le _ e files chosen hbudget
  have hfloor : (((a.withFrac f cacheBytes warmBlockBytes).warmBlockBudget : ℕ) : ℚ) ≤
      blocksOfFrac f cacheBytes warmBlockBytes := Nat.floor_le (by linarith)
  have hbound : ((a.withFrac f cacheBytes warmBlockBytes).jobBlocks e files chosen : ℚ) ≤
      (a.withFrac f cacheBytes warmBlockBytes).warmBlockBudget + cost := by exact_mod_cast hbound
  refine ⟨jobBlocks_mono a e files chosen hbudget (Nat.floor_le_floor hmono), cost, hcost, ?_, ?_⟩
  · linarith
  · intro hlt
    have hexact := blocksOfFrac_lt (mul_pos hf hc).le hlt
    linarith

/-- **The warm budget as a setting.** In the mode the adapter is in, and for a positive fraction:
    exactly if the fraction is a block or more, every job, on any engine and layout, warms no more
    than under any larger fraction, and less than what the fraction is worth, one block and one
    read. -/
theorem jobBlocks_withFrac (a : WarmAdapter) (hdb : a.hasDb = true) (cacheBytes : ℚ)
    (warmBlockBytes : ℕ) (f : ℚ) (hf : 0 < f) :
    (∀ (e : WarmEngine) (files : JobFiles) (chosen : List BlockRef) (f' : ℚ), f ≤ f' →
      (a.withFrac f cacheBytes warmBlockBytes).jobBlocks e files chosen ≤
        (a.withFrac f' cacheBytes warmBlockBytes).jobBlocks e files chosen ∧
      ∃ cost : ℕ, (cost = 0 ∨
          ∃ x ∈ ((a.withFrac f cacheBytes warmBlockBytes).endWarm e files.outputs chosen).1,
            x.2 = cost) ∧
        ((a.withFrac f cacheBytes warmBlockBytes).jobBlocks e files chosen : ℚ) <
          blocksOfFrac f cacheBytes warmBlockBytes + 1 + cost ∧
        (f * cacheBytes / warmBlockBytes < 2 ^ 51 →
          ((a.withFrac f cacheBytes warmBlockBytes).jobBlocks e files chosen : ℚ) <
            f * cacheBytes / warmBlockBytes + 1 + cost)) ↔
    1 ≤ blocksOfFrac f cacheBytes warmBlockBytes := by
  constructor
  · intro hall
    by_contra! hlt
    obtain ⟨e, files, chosen, hthree, hones⟩ := exists_jobBlocks_of_noBudget
      (a := a.withFrac f cacheBytes warmBlockBytes) hdb (withFrac_budget_eq_zero a hlt) 3
    obtain ⟨-, cost, hcost, hbound, -⟩ := hall e files chosen f le_rfl
    -- a job of three blocks, none of its reads of more than one
    have hone : (cost : ℚ) ≤ 1 := by
      rcases hcost with rfl | ⟨x, hx, rfl⟩
      · norm_num
      · exact_mod_cast (hones x hx).le
    rw [hthree] at hbound
    push_cast at hbound
    linarith
  · intro hblock e files chosen f' hle
    exact jobBlocks_of_one_le a e files chosen hf hle hblock

/-- The sample adapter in a warm mode. -/
def inMode (mode : WarmMode) : WarmAdapter := { sampleAdapter with warmMode := mode }

/-- Two output files, and four blocks that start and end with the smallest key. -/
def fourBlocks : JobFiles where
  outputs := [some [[0], [1], [2]], some [[3]]]
  blocks := List.replicate 4 (List.replicate 9 0, List.replicate 9 0)

/-- A cache of two blocks: half of it is one. -/
theorem jobBlocks_withFrac_fourBlocks :
    [WarmMode.iterator, .prepop, .sst].Forall fun mode =>
      ((inMode mode).withFrac (1 / 2) 8192 4096).jobBlocks oneBlockEach fourBlocks (candidates 4) ≤
        ((inMode mode).withFrac 1 8192 4096).jobBlocks oneBlockEach fourBlocks (candidates 4) := by
  have hblock : 1 ≤ blocksOfFrac (1 / 2) 8192 4096 := by decide +kernel
  refine List.forall_iff_forall_mem.mpr fun mode _ => ?_
  exact ((jobBlocks_withFrac (inMode mode) rfl 8192 4096 (1 / 2) (by norm_num)).mpr hblock
    oneBlockEach fourBlocks (candidates 4) 1 (by norm_num)).1

/-- A cache of one block: half of it is no block, and no block is no limit.  For each mode, the
    blocks of the job under the whole cache and under half of it. -/
theorem jobBlocks_half_block :
    ([WarmMode.iterator, .prepop, .sst].map fun mode =>
      (((inMode mode).withFrac 1 4096 4096).jobBlocks oneBlockEach fourBlocks (candidates 4),
        ((inMode mode).withFrac (1 / 2) 4096 4096).jobBlocks oneBlockEach fourBlocks
          (candidates 4))) = [(1, 4), (1, 4), (1, 12)] := by
  decide +kernel

end Leaper.RocksDB
