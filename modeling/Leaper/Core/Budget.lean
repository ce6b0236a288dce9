import Leaper.Core.Nesting
import Mathlib.Tactic.Linarith

namespace Leaper

open Lib LeaperImpl

/-!
# The byte budget of a job

Each job may have blocks of at most `max_prefetch_frac * cache_bytes` bytes warmed.  The core
keeps a running sum in the job's context; what a caller can count is what was granted while
the job was innermost.  A `Ledger` does that counting from the calls and answers alone, and
`Books` says that it agrees with the sums in the contexts.

* `books_step` — one call of a bracketed run keeps the books;
* `run_within_budget` — no job, open or ended, was granted more than its budget, and nothing
  of positive size was granted outside any job.
-/

variable {κ : Type*}

/-- The bytes granted to each job, from the calls and answers: open jobs (innermost first),
    ended jobs, and what was granted outside any job. -/
structure Ledger where
  running : List ℕ := []
  ended : List ℕ := []
  outside : ℕ := 0
  deriving DecidableEq, Repr

/-- Add granted bytes to the innermost job. -/
def Ledger.grant (l : Ledger) (size : ℕ) : Ledger :=
  match l.running with
  | [] => { l with outside := l.outside + size }
  | x :: xs => { l with running := (x + size) :: xs }

/-- Close the innermost job's account. -/
def Ledger.close (l : Ledger) : Ledger :=
  match l.running with
  | [] => l
  | x :: xs => { l with running := xs, ended := x :: l.ended }

/-- The ledger after a call and its answer. -/
def Ledger.note (l : Ledger) (e : Event κ) (o : Obs) : Ledger :=
  match e with
  | .compactionBegin _ _ _ => { l with running := 0 :: l.running }
  | .compactionEnd => l.close
  | .shouldPrefetch block => if o.answer = some true then l.grant block.size else l
  | _ => l

/-- What the ledger notes of a question depends on the answer alone. -/
theorem Ledger.note_question (l : Ledger) (block : BlockRef) {o : Obs} {yes : Bool}
    (h : o.answer = some yes) :
    l.note (.shouldPrefetch block : Event κ) o = if yes then l.grant block.size else l := by
  show (if o.answer = some true then _ else _) = _
  rw [h]
  cases yes <;> rfl

/-- Bracketed runs whose blocks are smaller than `2^63` bytes. -/
def sizedBrackets (κ : Type*) : Env ℕ (Event κ) where
  ok d e := (brackets Event.bracket false).ok d e ∧
    match e with
    | .shouldPrefetch block => block.size < 2 ^ 63
    | _ => True
  next d e := e.bracket.depth d

instance (d : ℕ) (e : Event κ) : Decidable ((sizedBrackets κ).ok d e) := by
  unfold sizedBrackets
  cases e <;> exact inferInstanceAs (Decidable (_ ∧ _))

/-- **The books.** The ledger's open accounts are the sums in the contexts, all of them
    within the budget; the context outside any job is untouched. -/
structure Books (o : Options) (d : ℕ) (w : World κ) (l : Ledger) : Prop where
  opt : w.core.opt = o
  contexts : ∃ pre, pre.length = d ∧ w.contexts = pre ++ [.outside] ∧
    pre.map (·.prefetchedBytes) = l.running ∧
    ∀ c ∈ pre, c.budgetBytes = budget o ∧ c.prefetchedBytes ≤ budget o
  ended : ∀ x ∈ l.ended, x ≤ budget o
  outside : l.outside = 0

section Steps

variable {ops : CacheOps κ} {o : Options} {d : ℕ} {w : World κ} {l : Ledger}

/-- A job that begins opens an account at zero. -/
theorem Books.opened (h : Books o d w l) (info : CompactionInfo) (blocks : List BlockRef)
    (now : ℕ) : Books o (d + 1) (step ops w (.compactionBegin info blocks now)).1
      { l with running := 0 :: l.running } := by
  obtain ⟨pre, hlen, hctxs, hsums, hbud⟩ := h.contexts
  refine ⟨by rw [step_opt, h.opt], ?_, h.ended, h.outside⟩
  refine ⟨(step ops w (.compactionBegin info blocks now)).1.core.ctx :: pre,
    by rw [List.length_cons, hlen], ?_, ?_, ?_⟩
  · exact congrArg (List.cons _) hctxs
  · exact congrArg (List.cons 0) hsums
  · intro c hc
    rcases List.mem_cons.mp hc with rfl | hold
    · exact ⟨congrArg budget h.opt, Nat.zero_le _⟩
    · exact hbud c hold

/-- A job that ends closes its own account. -/
theorem Books.closed (h : Books o d w l) (hpos : 0 < d) :
    Books o (d - 1) (step ops w .compactionEnd).1 l.close := by
  obtain ⟨pre, hlen, hctxs, hsums, hbud⟩ := h.contexts
  cases pre with
  | nil => exact absurd hlen (by simp; omega)
  | cons c pre =>
    have hrun : l.running = c.prefetchedBytes :: pre.map (·.prefetchedBytes) := hsums.symm
    unfold Ledger.close
    rw [hrun]
    refine ⟨by rw [step_opt, h.opt], ⟨pre, by rw [← hlen]; rfl, ?_, rfl, ?_⟩, ?_, h.outside⟩
    · -- the frame below is another open job's, or the one outside
      cases pre with
      | nil => exact (stackMachine ops).closes w .compactionEnd rfl c _ [] hctxs
      | cons c' pre => exact (stackMachine ops).closes w .compactionEnd rfl c c' _ hctxs
    · exact fun c' hc' => hbud c' (List.mem_cons_of_mem _ hc')
    · intro x hx
      rcases List.mem_cons.mp hx with rfl | hold
      · exact (hbud c List.mem_cons_self).2
      · exact h.ended x hold

/-- A question: a refusal changes nothing, a grant is added to the innermost sum. -/
theorem Books.question (h : Books o d w l) (hbudget : budget o ≤ 2 ^ 63) {block : BlockRef}
    (hsize : block.size < 2 ^ 63) :
    Books o d (step ops w (.shouldPrefetch block)).1
      (l.note (.shouldPrefetch block : Event κ) (step ops w (.shouldPrefetch block)).2) := by
  obtain ⟨pre, hlen, hctxs, hsums, hbud⟩ := h.contexts
  have hopt : (step ops w (.shouldPrefetch block)).1.core.opt = o := by rw [step_opt, h.opt]
  obtain ⟨st, heq | ⟨-, hfit, heq⟩⟩ := w.core.shouldPrefetch_frame block
  · have hans : (step ops w (.shouldPrefetch block)).2.answer = some false := by
      show some (w.core.shouldPrefetch block).2 = _
      rw [heq]
    rw [l.note_question block hans, if_neg Bool.false_ne_true]
    refine ⟨hopt, ⟨pre, hlen, ?_, hsums, hbud⟩, h.ended, h.outside⟩
    show (w.core.shouldPrefetch block).1.ctx :: (w.core.shouldPrefetch block).1.ctxStack = _
    rw [heq]
    exact hctxs
  · have hans : (step ops w (.shouldPrefetch block)).2.answer = some true := by
      show some (w.core.shouldPrefetch block).2 = _
      rw [heq]
    have hnew : (step ops w (.shouldPrefetch block)).1.contexts =
        { w.core.ctx with
          prefetchedBytes := u64 (w.core.ctx.prefetchedBytes + block.size) } ::
          w.core.ctxStack := by
      show (w.core.shouldPrefetch block).1.ctx :: (w.core.shouldPrefetch block).1.ctxStack = _
      rw [heq]
    rw [l.note_question block hans, if_pos rfl]
    unfold Ledger.grant
    cases pre with
    | nil =>
      -- outside any job the budget is zero
      obtain ⟨hctx, hstack⟩ := List.cons.inj hctxs
      have hrun : l.running = [] := hsums.symm
      have hzero : block.size = 0 := by
        rw [hctx] at hfit
        have hfit' : u64 (0 + block.size) ≤ 0 := hfit
        unfold u64 at hfit'
        omega
      rw [hrun]
      refine ⟨hopt, ⟨[], hlen, ?_, rfl, hbud⟩, h.ended, ?_⟩
      · rw [hnew, hctx, hstack, hzero]
        rfl
      · show l.outside + block.size = 0
        rw [h.outside, hzero]
    | cons c pre =>
      obtain ⟨hctx, hstack⟩ := List.cons.inj hctxs
      obtain ⟨hcb, hcp⟩ := hbud c List.mem_cons_self
      have hrun : l.running = c.prefetchedBytes :: pre.map (·.prefetchedBytes) := hsums.symm
      rw [hctx] at hfit hnew
      have hwrap : u64 (c.prefetchedBytes + block.size) = c.prefetchedBytes + block.size :=
        Nat.mod_eq_of_lt (by omega)
      rw [hwrap] at hfit hnew
      rw [hrun]
      refine ⟨hopt, ⟨{ c with prefetchedBytes := c.prefetchedBytes + block.size } :: pre, hlen,
        ?_, rfl, ?_⟩, h.ended, h.outside⟩
      · rw [hnew, hstack]
        rfl
      · intro c' hc'
        rcases List.mem_cons.mp hc' with rfl | hold
        · exact ⟨hcb, hcb ▸ hfit⟩
        · exact hbud c' (List.mem_cons_of_mem _ hold)

/-- What is neither question nor bracket leaves the books alone. -/
theorem Books.other (h : Books o d w l) {e : Event κ} (hk : e.bracket = .keeps) :
    Books o d (step ops w e).1 l := by
  refine ⟨by rw [step_opt, h.opt], ?_, h.ended, h.outside⟩
  rw [step_contexts_keeps ops hk]
  exact h.contexts

/-- **One call keeps the books.** -/
theorem books_step (hbudget : budget o ≤ 2 ^ 63) {e : Event κ} (hok : (sizedBrackets κ).ok d e)
    (h : Books o d w l) :
    Books o ((sizedBrackets κ).next d e) (step ops w e).1 (l.note e (step ops w e).2) := by
  cases e with
  | compactionBegin info blocks now => exact h.opened info blocks now
  | compactionEnd => exact h.closed (hok.1.1 rfl)
  | shouldPrefetch block => exact h.question hbudget hok.2
  | _ => exact h.other rfl

end Steps

/-- A call keeps every context within its own budget, also outside brackets. -/
theorem step_contexts_le (ops : CacheOps κ) {w : World κ} (e : Event κ)
    (h : ∀ c ∈ w.contexts, c.prefetchedBytes ≤ c.budgetBytes) :
    ∀ c ∈ (step ops w e).1.contexts, c.prefetchedBytes ≤ c.budgetBytes := by
  intro c hc
  cases e with
  | compactionBegin info blocks now =>
    rcases List.mem_cons.mp hc with rfl | hold
    · exact Nat.zero_le _
    · exact h c hold
  | compactionEnd =>
    have hc' : c ∈ World.contexts ⟨w.core.onCompactionEnd, w.cache⟩ := hc
    unfold World.contexts onCompactionEnd at hc'
    cases hstack : w.core.ctxStack with
    | nil =>
      -- an end without a begin only forgets the spans
      rw [hstack] at hc'
      rcases List.mem_cons.mp hc' with rfl | hnone
      · exact h w.core.ctx List.mem_cons_self
      · exact absurd hnone List.not_mem_nil
    | cons outer rest =>
      rw [hstack] at hc'
      apply h c
      unfold World.contexts
      rw [hstack]
      exact List.mem_cons_of_mem _ hc'
  | shouldPrefetch block =>
    have hc' : c ∈ (w.core.shouldPrefetch block).1.ctx ::
        (w.core.shouldPrefetch block).1.ctxStack := hc
    obtain ⟨st, heq | ⟨-, hfit, heq⟩⟩ := w.core.shouldPrefetch_frame block
    · rw [heq] at hc'
      exact h c hc'
    · rw [heq] at hc'
      rcases List.mem_cons.mp hc' with rfl | hold
      · exact hfit
      · exact h c (List.mem_cons_of_mem _ hold)
  | _ =>
    rw [step_contexts_keeps ops rfl] at hc
    exact h c hc

/-- No context, open or set aside, is ever over its own budget. -/
theorem run_contexts_le (ops : CacheOps κ) (es : List (Event κ)) : ∀ w : World κ,
    (∀ c ∈ w.contexts, c.prefetchedBytes ≤ c.budgetBytes) →
    ∀ c ∈ (run (step ops) w es).contexts, c.prefetchedBytes ≤ c.budgetBytes := by
  intro w h
  exact run_keeps (P := fun w : World κ => ∀ c ∈ w.contexts, c.prefetchedBytes ≤ c.budgetBytes)
    (fun _ e h => step_contexts_le ops e h) es h

/-- **The byte budget is never exceeded.** In a bracketed run from the initial context, with
    block sizes below `2^63` and a budget of at most that (which a product below `2^63` rounds to at
    most): each job was granted at most its budget, and outside any job nothing of positive size was
    granted.  After any calls at all, bracketed or not, every context is within its budget and a
    refusal leaves the context as it is. -/
theorem run_within_budget (ops : CacheOps κ) {w : World κ} (hctx : w.core.ctx = .outside)
    (hstack : w.core.ctxStack = [])
    (hbudget : binary64 (w.core.opt.maxPrefetchFrac * w.core.opt.cacheBytes) ≤ 2 ^ 63)
    {es : List (Event κ)} (hacc : (sizedBrackets κ).Accepts 0 es) :
    (∀ x ∈ (watch (step ops) Ledger.note w {} es).running ++
        (watch (step ops) Ledger.note w {} es).ended,
      x ≤ ⌊binary64 (w.core.opt.maxPrefetchFrac * w.core.opt.cacheBytes)⌋₊) ∧
    (watch (step ops) Ledger.note w {} es).outside = 0 ∧
    (∀ fs : List (Event κ), ∀ c ∈ (run (step ops) w fs).contexts,
      c.prefetchedBytes ≤ c.budgetBytes) ∧
    ∀ (fs : List (Event κ)) (block : BlockRef),
      ((run (step ops) w fs).core.shouldPrefetch block).2 = false →
      ((run (step ops) w fs).core.shouldPrefetch block).1.ctx = (run (step ops) w fs).core.ctx := by
  have hb : budget w.core.opt ≤ 2 ^ 63 := by
    refine Nat.floor_le_of_le ?_
    exact_mod_cast hbudget
  have hinit : w.contexts = [.outside] := congrArg₂ List.cons hctx hstack
  have hbooks : Books w.core.opt ((sizedBrackets κ).after 0 es) (run (step ops) w es)
      (watch (step ops) Ledger.note w {} es) := by
    apply (sizedBrackets κ).watch_invariant (fun d w l e hok h => books_step hb hok h) hacc
    exact ⟨rfl, ⟨[], rfl, hinit, rfl, fun c hc => absurd hc List.not_mem_nil⟩,
      fun x hx => absurd hx List.not_mem_nil, rfl⟩
  refine ⟨fun x hx => ?_, hbooks.outside, fun fs => ?_, fun fs block hno => ?_⟩
  · rcases List.mem_append.mp hx with hopen | hended
    · -- an open job: its sum is the one in its context
      obtain ⟨pre, -, -, hsums, hbud⟩ := hbooks.contexts
      rw [← hsums] at hopen
      obtain ⟨c, hc, rfl⟩ := List.mem_map.mp hopen
      exact (hbud c hc).2
    · exact hbooks.ended x hended
  · apply run_contexts_le ops fs w
    rw [hinit]
    intro c hc
    rw [List.mem_singleton.mp hc]
    exact le_rfl
  · obtain ⟨st, heq | ⟨-, -, heq⟩⟩ := (run (step ops) w fs).core.shouldPrefetch_frame block
    · rw [heq]
    · rw [heq] at hno
      cases hno

/-- A core that warms everything, with a budget of seven bytes (`0.7 * 10` is `7.0` as a double). -/
def sevenBytes : LeaperImpl :=
  { sampleCore with
    opt := { sampleCore.opt with
      policy := .warmAll, maxPrefetchFrac := binary64 (7 / 10), cacheBytes := 10 } }

/-- Two nested jobs, each asking until it is refused. -/
def budgetRun : List (Event (List BlockRef)) :=
  [.shouldPrefetch { size := 1 }, .compactionBegin {} [] 5, .shouldPrefetch { size := 5 },
   .compactionBegin { isFlush := true } [] 6, .shouldPrefetch { size := 7 },
   .shouldPrefetch { size := 1 }, .compactionEnd, .shouldPrefetch { size := 3 }]

/-- A compaction with a flush inside, and seven bytes for each. -/
theorem run_within_budget_sample :
    let l := watch (step listCache) Ledger.note ⟨sevenBytes, []⟩ {} budgetRun
    (l.running ++ l.ended = [5, 7] ∧ ∀ x ∈ l.running ++ l.ended, x ≤ 7) ∧ l.outside = 0 := by
  have hseven : binary64 (sevenBytes.opt.maxPrefetchFrac * sevenBytes.opt.cacheBytes) = 7 := by
    decide +kernel
  obtain ⟨hjobs, hout, -⟩ := @run_within_budget _ listCache ⟨sevenBytes, []⟩ rfl rfl
    (by rw [hseven]; norm_num) budgetRun (by decide)
  rw [hseven, Nat.floor_ofNat] at hjobs
  exact ⟨⟨by decide +kernel, hjobs⟩, hout⟩

end Leaper
