import Leaper.Adapters.RocksDBWarm
import Leaper.Lib.Blocks

namespace Leaper.RocksDB

open Lib LeaperImpl

/-!
# Warming while the tables are written

In the mode `prepop` the patched table builder of RocksDB asks the adapter's filter about every
data block it writes, on the background thread that builds the table.  The builder does not know
its job: the ranges the job chose lie in a variable of the thread.  The patch remembers the first
key of the block being built (`first_ikey_in_block`) and passes it with the last one.

* `shouldWarm_hot` — what the filter answers to a job that is active;
* `emittedOn_run` — what one thread writes while other threads do what they like;
* `prepop_exact` — from the keys a job adds to the blocks it warms;
* `run_warmCounters` — the two counters over all threads.
-/

/-- The user key of an internal key, without its trailer of eight bytes. -/
def userKey (ikey : Bytes) : Bytes := ikey.take (ikey.length - 8)

/-- The adapter and the table builder of every background thread.  `enabled` is
    `warm_cache_config.enabled`. -/
structure Builders where
  adapter : Adapter
  writer : ℕ → Writer Bytes := fun _ => .idle [] []
  enabled : Bool := true
  warmedBlocks : ℕ := 0
  prepopRejected : ℕ := 0

/-- A data block written by a thread, and whether it went into the block cache. -/
structure Emitted where
  thread : ℕ
  keys : List Bytes
  warmed : Bool
  deriving DecidableEq, Repr

namespace Builders

/-- `BlockBasedTableBuilder::Add`. -/
def add (s : Builders) (thread : ℕ) (ikey : Bytes) : Builders :=
  { s with writer := Function.update s.writer thread ((s.writer thread).add ikey) }

/-- `ShouldWarm` on a thread, with the counters it keeps under the adapter's mutex. -/
def shouldWarm (s : Builders) (thread : ℕ) (firstIkey lastIkey : Bytes) : Builders × Bool :=
  let r := s.adapter.shouldWarm (s.adapter.prepopJob thread) firstIkey lastIkey
  let a := { s.adapter with prepopJob := Function.update s.adapter.prepopJob thread r.1 }
  if r.2 then ({ s with adapter := a, warmedBlocks := s.warmedBlocks + 1 }, true)
  else ({ s with adapter := a, prepopRejected := s.prepopRejected + 1 }, false)

/-- The decision of `WriteMaybeCompressedBlockImpl` about a data block. -/
def writeBlock (s : Builders) (thread : ℕ) (firstIkeyInBlock warmLastIkey : Bytes) :
    Builders × Bool :=
  if s.enabled = false then (s, false)
  -- without the last key of the block the filter is not asked
  else if warmLastIkey = [] then (s, true)
  else s.shouldWarm thread firstIkeyInBlock warmLastIkey

/-- `EmitBlock`, which a builder reaches with a block that is not empty. -/
def emitBlock (s : Builders) (thread : ℕ) : Builders × Option Emitted :=
  let w := s.writer thread
  if w.keys = [] then (s, none)
  else
    let r := s.writeBlock thread w.first w.last
    ({ r.1 with writer := Function.update r.1.writer thread w.cut },
      some ⟨thread, w.keys, r.2⟩)

end Builders

/-- A step of the adapter, or of the table builder of a thread. -/
inductive BuilderEvent
  | act (x : Act)
  | add (thread : ℕ) (ikey : Bytes)
  | emitBlock (thread : ℕ)

/-- One step, and the block written if there was one. -/
def builderStep (s : Builders) : BuilderEvent → Builders × Option Emitted
  | .act x => ({ s with adapter := (step s.adapter x).1 }, none)
  | .add thread ikey => (s.add thread ikey, none)
  | .emitBlock thread => s.emitBlock thread

/-! ### What a run does on one thread -/

/-- The keys a thread adds. -/
def addedOn (t : ℕ) (es : List BuilderEvent) : List Bytes :=
  es.filterMap fun e => match e with
    | .add thread ikey => if thread = t then some ikey else none
    | _ => none

/-- The blocks a thread writes. -/
def emittedOn (t : ℕ) (os : List (Option Emitted)) : List Emitted :=
  (os.filterMap id).filter fun b => decide (b.thread = t)

/-- A job begins or ends on the thread. -/
def BuilderEvent.jobOn (t : ℕ) : BuilderEvent → Bool
  | .act ⟨_, .begin thread _ _ _ _⟩ => decide (thread = t)
  | .act ⟨_, .endTake thread _⟩ => decide (thread = t)
  | _ => false

/-- A range of `hot` lies between the ranges of two internal keys, in whatever order they are. -/
def spanHot (m : RangeMapper) (hot : List ℕ) (first last : Bytes) : Bool :=
  hot.any fun r =>
    decide (min (m.map (userKey first)) (m.map (userKey last)) ≤ r ∧
      r ≤ max (m.map (userKey first)) (m.map (userKey last)))

/-- The span of a block, from its first to its last key, has a range of `hot`. -/
def wantedBy (m : RangeMapper) (hot : List ℕ) (b : Emitted) : Bool :=
  match b.keys.head?, b.keys.getLast? with
  | some first, some last => spanHot m hot first last
  | _, _ => false

/-! ### The filter -/

/-- What the filter does for an active job: whether it says yes, and what is left of the budget. -/
def answer (budget left : ℕ) (wanted : Bool) : Bool × ℕ :=
  if wanted = true ∧ (budget = 0 ∨ left ≠ 0) then (true, if budget = 0 then left else left - 1)
  else (false, left)

/-- **The filter for a job that is active.** -/
theorem shouldWarm_hot (a : Adapter) {hot : List ℕ} (hsorted : hot.Pairwise (· ≤ ·)) (left : ℕ)
    {first last : Bytes} (hfirst : 8 ≤ first.length) (hlast : 8 ≤ last.length) :
    a.shouldWarm ⟨hot, left, true⟩ first last =
      (⟨hot, (answer a.warmBlockBudget left (spanHot a.core.mapper hot first last)).2, true⟩,
        (answer a.warmBlockBudget left (spanHot a.core.mapper hot first last)).1) := by
  -- the first hot range from the block's lower end on decides
  have hmeets := exists_getElem?_lowerBound_le hsorted
    (min (a.core.mapper.map (userKey first)) (a.core.mapper.map (userKey last)))
    (max (a.core.mapper.map (userKey first)) (a.core.mapper.map (userKey last)))
  have hspan : spanHot a.core.mapper hot first last = true ↔
      ∃ r ∈ hot, min (a.core.mapper.map (userKey first)) (a.core.mapper.map (userKey last)) ≤ r ∧
        r ≤ max (a.core.mapper.map (userKey first)) (a.core.mapper.map (userKey last)) := by
    simp only [spanHot, List.any_eq_true, decide_eq_true_eq]
  rw [← hmeets] at hspan
  have hshort : ¬ (first.length < 8 ∨ last.length < 8) := by omega
  unfold Adapter.shouldWarm
  simp only [hshort, if_false, Bool.true_eq_false, false_or]
  by_cases hnil : hot = []
  · subst hnil
    rfl
  by_cases hspent : left = 0 ∧ a.warmBlockBudget ≠ 0
  · -- the budget is spent, and there is one
    rw [if_neg hnil, if_pos hspent, answer, if_neg fun h => h.2.elim hspent.2 (· hspent.1)]
  rw [if_neg hnil, if_neg hspent]
  have hleft : a.warmBlockBudget = 0 ∨ left ≠ 0 := by
    by_cases hzero : a.warmBlockBudget = 0
    · exact Or.inl hzero
    · exact Or.inr fun hl => hspent ⟨hl, hzero⟩
  split
  · -- every hot range lies below the block
    rename_i hnone
    have hno : ¬ spanHot a.core.mapper hot first last = true := by
      rw [hspan]
      rintro ⟨r, hr, -⟩
      exact Option.some_ne_none r (hr.symm.trans hnone)
    rw [answer, if_neg fun h => hno h.1]
  · rename_i r hr
    by_cases hhi : max (a.core.mapper.map (userKey first)) (a.core.mapper.map (userKey last)) < r
    · -- it lies above the block
      have hno : ¬ spanHot a.core.mapper hot first last = true := by
        rw [hspan]
        rintro ⟨r', hr', hle⟩
        have heq : r = r' := Option.some.inj (hr.symm.trans hr')
        omega
      have hans : answer a.warmBlockBudget left (spanHot a.core.mapper hot first last) =
          (false, left) := if_neg fun h => hno h.1
      rw [hans]
      exact if_pos hhi
    · -- it lies in the block, and there is something left to spend
      have hans : answer a.warmBlockBudget left (spanHot a.core.mapper hot first last) =
          (true, if a.warmBlockBudget = 0 then left else left - 1) :=
        if_pos ⟨hspan.mpr ⟨r, hr, not_lt.mp hhi⟩, hleft⟩
      rw [hans]
      refine (if_neg hhi).trans ?_
      by_cases hzero : a.warmBlockBudget = 0
      · rw [if_neg (not_not.mpr hzero), if_pos hzero]
      · rw [if_pos hzero, if_neg hzero]

/-! ### One thread among many -/

theorem step_settings (a : Adapter) (x : Act) : (step a x).1.core.mapper = a.core.mapper ∧
    (step a x).1.warmBlockBudget = a.warmBlockBudget := by
  cases hjob : x.action.ofJob with
  | true =>
    have h := jobless_step_ofJob a hjob
    exact ⟨congrArg (fun a => a.core.mapper) h, congrArg (fun a => a.warmBlockBudget) h⟩
  | false =>
    obtain ⟨mono, action⟩ := x
    cases action with
    | access isWrite key now =>
      obtain ⟨c, heq, -⟩ := a.core.onAccess_frame isWrite key now
      exact ⟨congrArg (·.mapper) heq, rfl⟩
    | setQps q => exact ⟨rfl, rfl⟩
    | setHealth m => exact ⟨rfl, rfl⟩
    | resetClock => exact ⟨rfl, rfl⟩
    | _ => cases hjob

/-- Jobs of other threads leave the thread's own alone. -/
theorem step_prepopJob (a : Adapter) {t : ℕ} {x : Act} (h : (BuilderEvent.act x).jobOn t = false) :
    (step a x).1.prepopJob t = a.prepopJob t := by
  obtain ⟨mono, action⟩ := x
  cases action with
  | begin thread job level isFlush est =>
    have hne : t ≠ thread := fun heq => of_decide_eq_false h heq.symm
    obtain ⟨-, hsame | ⟨hot, hupd⟩⟩ := begin_prepopJob a thread job level isFlush est mono
    · exact congrFun hsame t
    · exact (congrFun hupd t).trans (Function.update_of_ne hne _ _)
  | endTake thread job =>
    have hne : t ≠ thread := fun heq => of_decide_eq_false h heq.symm
    show (a.endTake thread job).1.prepopJob t = a.prepopJob t
    unfold Adapter.endTake
    simp only
    split_ifs
    · exact Function.update_of_ne hne _ _
    · rfl
  | endPop job => rfl
  | access isWrite key now => rfl
  | setQps q => rfl
  | setHealth m => rfl
  | resetClock => rfl

/-- A thread that builds the tables of its job: the hot ranges of the job lie in its variable,
    with the rest of the budget. -/
structure Serving (m : RangeMapper) (budget : ℕ) (hot : List ℕ) (t left : ℕ) (s : Builders) :
    Prop where
  mapper : s.adapter.core.mapper = m
  budget_eq : s.adapter.warmBlockBudget = budget
  enabled : s.enabled = true
  job : s.adapter.prepopJob t = ⟨hot, left, true⟩
  long : ∀ k ∈ (s.writer t).keys, 8 ≤ k.length

/-- What a step means for one thread: it adds what the thread adds and writes nothing of it, or it
    writes the thread's block with the filter's answer. -/
inductive Turn (m : RangeMapper) (budget : ℕ) (hot : List ℕ) (t : ℕ) (s s' : Builders)
    (e : BuilderEvent) (o : Option Emitted) (left left' : ℕ) : Prop
  | quiet (hout : emittedOn t [o] = []) (hleft : left' = left)
      (hkeys : (s'.writer t).keys = (s.writer t).keys ++ addedOn t [e])
  | wrote (b : Emitted) (hout : emittedOn t [o] = [b]) (hadd : addedOn t [e] = [])
      (hb : b.keys = (s.writer t).keys) (hne : b.keys ≠ []) (hkeys : (s'.writer t).keys = [])
      (hans : (b.warmed, left') = answer budget left (wantedBy m hot b))

section Thread

variable {m : RangeMapper} {budget : ℕ} {hot : List ℕ} {t left : ℕ} {s : Builders}

theorem Serving.act (h : Serving m budget hot t left s) {x : Act}
    (hown : (BuilderEvent.act x).jobOn t = false) :
    Serving m budget hot t left (builderStep s (.act x)).1 := by
  obtain ⟨hmapper, hbudget⟩ := step_settings s.adapter x
  exact ⟨hmapper.trans h.mapper, hbudget.trans h.budget_eq, h.enabled,
    (step_prepopJob s.adapter hown).trans h.job, h.long⟩

/-- A key is added to one thread's block. -/
theorem mem_keys_add {thread : ℕ} {ikey k : Bytes}
    (hk : k ∈ ((s.add thread ikey).writer t).keys) :
    k ∈ (s.writer t).keys ∨ t = thread ∧ k = ikey := by
  by_cases hthread : t = thread
  · subst hthread
    have hkeys : k ∈ (s.writer t).keys ++ [ikey] := by
      simpa only [Builders.add, Function.update_self, Writer.keys_add] using hk
    exact (List.mem_append.mp hkeys).imp_right fun hnew => ⟨rfl, List.mem_singleton.mp hnew⟩
  · left
    simpa only [Builders.add, Function.update_of_ne hthread] using hk

theorem Serving.add (h : Serving m budget hot t left s) {thread : ℕ} {ikey : Bytes}
    (hlong : thread = t → 8 ≤ ikey.length) : Serving m budget hot t left (s.add thread ikey) := by
  refine ⟨h.mapper, h.budget_eq, h.enabled, h.job, ?_⟩
  intro k hk
  obtain hold | ⟨rfl, rfl⟩ := mem_keys_add hk
  · exact h.long k hold
  · exact hlong rfl

theorem writeBlock_frame (s : Builders) (u : ℕ) (first last : Bytes) :
    (s.writeBlock u first last).1.writer = s.writer ∧
      (s.writeBlock u first last).1.enabled = s.enabled := by
  unfold Builders.writeBlock
  split_ifs
  · exact ⟨rfl, rfl⟩
  · exact ⟨rfl, rfl⟩
  · unfold Builders.shouldWarm
    simp only
    split_ifs
    all_goals exact ⟨rfl, rfl⟩

/-- What writing a block leaves: the builder of the thread at the beginning of the next one. -/
theorem emitBlock_frame {u : ℕ} (hnil : (s.writer u).keys ≠ []) :
    (s.emitBlock u).2 = some ⟨u, (s.writer u).keys,
        (s.writeBlock u (s.writer u).first (s.writer u).last).2⟩ ∧
      (s.emitBlock u).1.adapter =
        (s.writeBlock u (s.writer u).first (s.writer u).last).1.adapter ∧
      (s.emitBlock u).1.enabled = s.enabled ∧
      (s.emitBlock u).1.writer = Function.update s.writer u (s.writer u).cut := by
  obtain ⟨hwriter, henabled⟩ := writeBlock_frame s u (s.writer u).first (s.writer u).last
  have hemit : s.emitBlock u =
      ({ (s.writeBlock u (s.writer u).first (s.writer u).last).1 with
          writer := Function.update
            (s.writeBlock u (s.writer u).first (s.writer u).last).1.writer u (s.writer u).cut },
        some ⟨u, (s.writer u).keys,
          (s.writeBlock u (s.writer u).first (s.writer u).last).2⟩) := if_neg hnil
  rw [hemit]
  exact ⟨rfl, rfl, henabled, by rw [hwriter]⟩

/-- The thread's own question: its job keeps what is left of the budget. -/
theorem Serving.writeBlock (h : Serving m budget hot t left s)
    (hsorted : hot.Pairwise (· ≤ ·)) {first last : Bytes} (hfirst : 8 ≤ first.length)
    (hlast : 8 ≤ last.length) :
    (s.writeBlock t first last).2 = (answer budget left (spanHot m hot first last)).1 ∧
      (s.writeBlock t first last).1.adapter = { s.adapter with
        prepopJob := Function.update s.adapter.prepopJob t
          ⟨hot, (answer budget left (spanHot m hot first last)).2, true⟩ } := by
  have hne : last ≠ [] := by
    rintro rfl
    exact absurd hlast (by decide)
  have hjob := shouldWarm_hot s.adapter hsorted left hfirst hlast
  rw [← h.job, h.mapper, h.budget_eq] at hjob
  unfold Builders.writeBlock
  rw [if_neg (by rw [h.enabled]; decide), if_neg hne]
  unfold Builders.shouldWarm
  rw [hjob]
  cases (answer budget left (spanHot m hot first last)).1
  · exact ⟨rfl, rfl⟩
  · exact ⟨rfl, rfl⟩

/-- A block of another thread touches that thread's job alone. -/
theorem writeBlock_of_ne (s : Builders) {u t : ℕ} (hne : t ≠ u) (first last : Bytes) :
    ∃ jobs, jobs t = s.adapter.prepopJob t ∧
      (s.writeBlock u first last).1.adapter = { s.adapter with prepopJob := jobs } := by
  unfold Builders.writeBlock
  split_ifs
  · exact ⟨_, rfl, rfl⟩
  · exact ⟨_, rfl, rfl⟩
  · unfold Builders.shouldWarm
    simp only
    split_ifs
    all_goals exact ⟨_, Function.update_of_ne hne _ _, rfl⟩

theorem emittedOn_some (b : Emitted) (t : ℕ) :
    emittedOn t [some b] = if b.thread = t then [b] else [] := by
  simp [emittedOn, List.filter_cons]

/-- The thread writes its block. -/
theorem Serving.emitOwn (h : Serving m budget hot t left s) (hsorted : hot.Pairwise (· ≤ ·))
    (hnil : (s.writer t).keys ≠ []) :
    ∃ left', Serving m budget hot t left' (s.emitBlock t).1 ∧
      Turn m budget hot t s (s.emitBlock t).1 (.emitBlock t) (s.emitBlock t).2 left left' := by
  have hfirst : 8 ≤ (s.writer t).first.length := by
    rw [Writer.first_eq _ hnil]
    exact h.long _ (List.head_mem hnil)
  have hlast : 8 ≤ (s.writer t).last.length := by
    rw [Writer.last_eq _ hnil]
    exact h.long _ (List.getLast_mem hnil)
  obtain ⟨hout, hadapter, henabled, hwriter⟩ := emitBlock_frame hnil
  obtain ⟨hans, hjob⟩ := h.writeBlock hsorted hfirst hlast
  rw [hjob] at hadapter
  rw [hans] at hout
  have hcut : ((s.emitBlock t).1.writer t).keys = [] := by
    rw [hwriter, Function.update_self]
    rfl
  refine ⟨(answer budget left (spanHot m hot (s.writer t).first (s.writer t).last)).2,
    ⟨?_, ?_, henabled.trans h.enabled, ?_, ?_⟩, ?_⟩
  · rw [hadapter]
    exact h.mapper
  · rw [hadapter]
    exact h.budget_eq
  · rw [hadapter]
    exact Function.update_self _ _ _
  · intro k hk
    rw [hcut] at hk
    exact absurd hk List.not_mem_nil
  · rw [hout]
    refine .wrote _ ((emittedOn_some _ t).trans (if_pos rfl)) rfl rfl hnil hcut ?_
    -- the bounds of the block are those the builder remembered
    rw [wantedBy, List.head?_eq_some_head hnil, List.getLast?_eq_some_getLast hnil,
      ← Writer.first_eq _ hnil, ← Writer.last_eq _ hnil]

/-- Another thread writes a block. -/
theorem Serving.emitOther (h : Serving m budget hot t left s) {u : ℕ} (hne : t ≠ u)
    (hnil : (s.writer u).keys ≠ []) : Serving m budget hot t left (s.emitBlock u).1 ∧
      Turn m budget hot t s (s.emitBlock u).1 (.emitBlock u) (s.emitBlock u).2 left left := by
  obtain ⟨hout, hadapter, henabled, hwriter⟩ := emitBlock_frame hnil
  obtain ⟨jobs, hjobs, hjob⟩ := writeBlock_of_ne s hne (s.writer u).first (s.writer u).last
  rw [hjob] at hadapter
  have hsame : (s.emitBlock u).1.writer t = s.writer t := by
    rw [hwriter, Function.update_of_ne hne]
  refine ⟨⟨?_, ?_, henabled.trans h.enabled, ?_, ?_⟩, .quiet ?_ rfl ?_⟩
  · rw [hadapter]
    exact h.mapper
  · rw [hadapter]
    exact h.budget_eq
  · rw [hadapter]
    exact hjobs.trans h.job
  · rw [hsame]
    exact h.long
  · rw [hout, emittedOn_some, if_neg (Ne.symm hne)]
  · rw [hsame]
    exact (List.append_nil _).symm

/-- **One step, seen from one thread.** -/
theorem Serving.turn (h : Serving m budget hot t left s) (hsorted : hot.Pairwise (· ≤ ·))
    {e : BuilderEvent} (hown : e.jobOn t = false) (hlong : ∀ k ∈ addedOn t [e], 8 ≤ k.length) :
    ∃ left', Serving m budget hot t left' (builderStep s e).1 ∧
      Turn m budget hot t s (builderStep s e).1 e (builderStep s e).2 left left' := by
  cases e with
  | act x => exact ⟨left, h.act hown, .quiet rfl rfl (List.append_nil _).symm⟩
  | add thread ikey =>
    by_cases hthread : thread = t
    · subst hthread
      have hadded : addedOn thread [.add thread ikey] = [ikey] := by simp [addedOn]
      rw [hadded] at hlong
      refine ⟨left, h.add fun _ => hlong ikey List.mem_cons_self, .quiet rfl rfl ?_⟩
      rw [hadded]
      simp only [builderStep, Builders.add, Function.update_self, Writer.keys_add]
    · have hadded : addedOn t [.add thread ikey] = [] := by simp [addedOn, hthread]
      refine ⟨left, h.add fun heq => absurd heq hthread, .quiet rfl rfl ?_⟩
      rw [hadded, List.append_nil]
      simp only [builderStep, Builders.add, Function.update_of_ne (Ne.symm hthread)]
  | emitBlock u =>
    by_cases hnil : (s.writer u).keys = []
    · have hstep : builderStep s (.emitBlock u) = (s, none) := if_pos hnil
      rw [hstep]
      exact ⟨left, h, .quiet rfl rfl (List.append_nil _).symm⟩
    · by_cases hthread : t = u
      · subst hthread
        exact h.emitOwn hsorted hnil
      · exact ⟨left, h.emitOther hthread hnil⟩

/-- What a limit lets through of a list; a budget of zero is no limit. -/
def allowed {α : Type*} (budget left : ℕ) (l : List α) : List α :=
  if budget = 0 then l else l.take left

/-- The answer to one block, before the answers to the others. -/
theorem allowed_cons {α : Type*} {budget left left' : ℕ} {p warmed : Bool}
    (h : (warmed, left') = answer budget left p) (b : α) (l l' : List α)
    (hrest : l' = allowed budget left' l) :
    (if warmed then b :: l' else l') = allowed budget left (if p then b :: l else l) := by
  unfold answer at h
  unfold allowed at hrest ⊢
  subst hrest
  split_ifs at h with hyes hzero
  all_goals obtain ⟨rfl, rfl⟩ := Prod.mk.inj h
  · simp [hyes.1, hzero]
  · obtain ⟨n, rfl⟩ := Nat.exists_eq_succ_of_ne_zero (hyes.2.resolve_left hzero)
    simp [hyes.1, hzero]
  · cases p with
    | false => rfl
    | true =>
      have hspent : ¬ budget = 0 ∧ left' = 0 := by
        simpa only [true_and, not_or, not_not] using hyes
      simp [hspent.1, hspent.2]

theorem addedOn_cons (t : ℕ) (e : BuilderEvent) (es : List BuilderEvent) :
    addedOn t (e :: es) = addedOn t [e] ++ addedOn t es :=
  List.filterMap_append (l := [e])

theorem emittedOn_cons (t : ℕ) (o : Option Emitted) (os : List (Option Emitted)) :
    emittedOn t (o :: os) = emittedOn t [o] ++ emittedOn t os := by
  rw [emittedOn, ← List.singleton_append, List.filterMap_append, List.filter_append]
  rfl

/-- **A run, seen from one thread**: the keys it had and adds are the keys of the blocks it writes
    and of the block it is left with, and the blocks it warms are those the rest of the budget
    allows of the wanted ones. -/
theorem emittedOn_run (hsorted : hot.Pairwise (· ≤ ·)) (es : List BuilderEvent) :
    ∀ {s : Builders} {left : ℕ}, Serving m budget hot t left s → (∀ e ∈ es, e.jobOn t = false) →
      (∀ k ∈ addedOn t es, 8 ≤ k.length) →
      ((emittedOn t (outs builderStep s es)).map (·.keys)).flatten ++
          ((run builderStep s es).writer t).keys = (s.writer t).keys ++ addedOn t es ∧
        (∀ b ∈ emittedOn t (outs builderStep s es), b.keys ≠ []) ∧
        (emittedOn t (outs builderStep s es)).filter (·.warmed) =
          allowed budget left ((emittedOn t (outs builderStep s es)).filter (wantedBy m hot)) := by
  induction es with
  | nil =>
    intro s left _ _ _
    refine ⟨(List.append_nil _).symm, fun b hb => absurd hb List.not_mem_nil, ?_⟩
    show [] = if budget = 0 then [] else List.take left []
    rw [List.take_nil, ite_self]
  | cons e es ih =>
    intro s left h hown hlong
    rw [addedOn_cons] at hlong ⊢
    obtain ⟨left', hnext, hturn⟩ := h.turn hsorted (hown e List.mem_cons_self)
      fun k hk => hlong k (List.mem_append_left _ hk)
    obtain ⟨hkeys, hne, hwarmed⟩ := ih hnext (fun e' he' => hown e' (List.mem_cons_of_mem e he'))
      fun k hk => hlong k (List.mem_append_right _ hk)
    rw [outs_cons, emittedOn_cons, run_cons]
    cases hturn with
    | quiet hout hleft hwriter =>
      subst hleft
      rw [hout, List.nil_append]
      refine ⟨?_, hne, hwarmed⟩
      rw [hkeys, hwriter, List.append_assoc]
    | wrote b hout hadd hb hbne hwriter hans =>
      rw [hout, hadd, List.nil_append, List.singleton_append]
      refine ⟨?_, ?_, ?_⟩
      · rw [List.map_cons, List.flatten_cons, List.append_assoc, hkeys, hwriter, hb,
          List.nil_append]
      · intro b' hb'
        rcases List.mem_cons.mp hb' with rfl | hrest
        · exact hbne
        · exact hne b' hrest
      · rw [List.filter_cons, List.filter_cons]
        exact allowed_cons hans b _ _ hwarmed

end Thread

/-! ### From the keys of a job to the blocks it warms -/

/-- A call of `Listener::Begin`, on the thread of the job. -/
structure BeginCall where
  mono : ℕ
  thread : ℕ
  job : ℤ
  level : ℤ
  isFlush : Bool
  estBlocks : ℕ
  deriving DecidableEq, Repr

namespace Builders

/-- After the call. -/
def begun (s : Builders) (c : BeginCall) : Builders :=
  (builderStep s (.act ⟨c.mono, .begin c.thread c.job c.level c.isFlush c.estBlocks⟩)).1

/-- The ranges the job chose. -/
def chosenBy (s : Builders) (c : BeginCall) : List ℕ :=
  (s.adapter.begin c.thread c.job c.level c.isFlush c.estBlocks c.mono).2.map (·.firstRange)

/-- The blocks the thread of the job writes in what follows. -/
def blocksOf (s : Builders) (c : BeginCall) (es : List BuilderEvent) : List Emitted :=
  emittedOn c.thread (outs builderStep (s.begun c) es)

/-- A `Begin` in the mode `prepop` leaves its choice, sorted, to the thread. -/
theorem serving_begun (s : Builders) (c : BeginCall) (hmode : s.adapter.warmMode = .prepop)
    (henabled : s.enabled = true) (hempty : (s.writer c.thread).keys = []) :
    Serving s.adapter.core.mapper s.adapter.warmBlockBudget (sorted (s.chosenBy c)) c.thread
      s.adapter.warmBlockBudget (s.begun c) := by
  obtain ⟨hmapper, hbudget⟩ :=
    step_settings s.adapter ⟨c.mono, .begin c.thread c.job c.level c.isFlush c.estBlocks⟩
  refine ⟨hmapper, hbudget, henabled, ?_, ?_⟩
  · show (s.adapter.begin c.thread c.job c.level c.isFlush c.estBlocks c.mono).1.prepopJob c.thread
      = ⟨sorted ((s.adapter.begin c.thread c.job c.level c.isFlush c.estBlocks c.mono).2.map
          (·.firstRange)), s.adapter.warmBlockBudget, true⟩
    unfold Adapter.begin
    simp only [if_pos hmode]
    exact Function.update_self _ _ _
  · intro k hk
    have hnil : k ∈ (s.writer c.thread).keys := hk
    rw [hempty] at hnil
    exact absurd hnil List.not_mem_nil

end Builders

/-- Whether a block is wanted does not depend on the order of the ranges. -/
theorem wantedBy_sorted (m : RangeMapper) (hot : List ℕ) :
    wantedBy m (sorted hot) = wantedBy m hot := by
  funext b
  unfold wantedBy
  split
  · rw [Bool.eq_iff_iff]
    simp only [spanHot, List.any_eq_true, mem_sorted]
  · rfl

/-- A block with a key of a hot range is wanted, if the mapper keeps the order of its keys. -/
theorem wantedBy_of_mem {m : RangeMapper} {hot : List ℕ} {b : Emitted}
    (hsorted : b.keys.Pairwise fun x y => m.map (userKey x) ≤ m.map (userKey y)) {k : Bytes}
    (hk : k ∈ b.keys) (hhot : m.map (userKey k) ∈ hot) : wantedBy m hot b = true := by
  have hne : b.keys ≠ [] := List.ne_nil_of_mem hk
  obtain ⟨hlo, hhi⟩ := between_ends hsorted hne hk
  rw [wantedBy, List.head?_eq_some_head hne, List.getLast?_eq_some_getLast hne]
  refine List.any_eq_true.mpr ⟨_, hhot, decide_eq_true ⟨?_, ?_⟩⟩
  · exact (min_le_left _ _).trans hlo
  · exact hhi.trans (le_max_right _ _)

/-- **What a job warms while it writes**, whatever the other threads do.  Let a job begin on a
    thread, in the mode `prepop`, and let `es` be anything that follows before the job ends: the
    keys it adds, cut into blocks as the builder likes, among the steps of other threads and of
    the client.  Then the blocks the thread writes are the keys it added, in order, up to the block
    it has not finished; the blocks it warms are those whose span from first to last key meets a
    range that the job itself chose, or the first of them if there are more than the budget; and
    where the mapper keeps the order of the keys and the budget suffices, every block with a key of
    a chosen range is warmed. -/
theorem prepop_exact (s : Builders) (c : BeginCall) (es : List BuilderEvent)
    (hmode : s.adapter.warmMode = .prepop) (henabled : s.enabled = true)
    (hempty : (s.writer c.thread).keys = []) (hown : ∀ e ∈ es, e.jobOn c.thread = false)
    (hlong : ∀ k ∈ addedOn c.thread es, 8 ≤ k.length) :
    ((s.blocksOf c es).map (·.keys)).flatten ++
        ((run builderStep (s.begun c) es).writer c.thread).keys = addedOn c.thread es ∧
      (∀ b ∈ s.blocksOf c es, b.keys ≠ []) ∧
      (s.blocksOf c es).filter (·.warmed) =
        (if s.adapter.warmBlockBudget = 0 then
          (s.blocksOf c es).filter (wantedBy s.adapter.core.mapper (s.chosenBy c))
        else ((s.blocksOf c es).filter (wantedBy s.adapter.core.mapper (s.chosenBy c))).take
          s.adapter.warmBlockBudget) ∧
      ((addedOn c.thread es).Pairwise (fun x y =>
          s.adapter.core.mapper.map (userKey x) ≤ s.adapter.core.mapper.map (userKey y)) →
        (s.adapter.warmBlockBudget = 0 ∨
          ((s.blocksOf c es).filter (wantedBy s.adapter.core.mapper (s.chosenBy c))).length ≤
            s.adapter.warmBlockBudget) →
        ∀ b ∈ s.blocksOf c es, ∀ k ∈ b.keys,
          s.adapter.core.mapper.map (userKey k) ∈ s.chosenBy c → b.warmed = true) := by
  obtain ⟨hkeys, hne, hwarmed⟩ := emittedOn_run (pairwise_sorted _) es
    (s.serving_begun c hmode henabled hempty) hown hlong
  rw [wantedBy_sorted] at hwarmed
  have hstart : ((s.begun c).writer c.thread).keys = [] := hempty
  rw [hstart, List.nil_append] at hkeys
  refine ⟨hkeys, hne, hwarmed, ?_⟩
  intro hmono hroom b hb k hk hhot
  -- the keys of a block keep the order in which they were added
  have hblock : b.keys.Sublist (addedOn c.thread es) := by
    rw [← hkeys]
    exact (List.sublist_flatten_of_mem (List.mem_map_of_mem hb)).trans
      (List.sublist_append_left _ _)
  have hwanted := wantedBy_of_mem (hmono.sublist hblock) hk hhot
  have hall : (s.blocksOf c es).filter (·.warmed) =
      (s.blocksOf c es).filter (wantedBy s.adapter.core.mapper (s.chosenBy c)) := by
    refine hwarmed.trans ?_
    unfold allowed
    split_ifs with hzero
    · rfl
    · exact List.take_of_length_le (hroom.resolve_left hzero)
  have hmem := List.mem_filter.mpr ⟨hb, hwanted⟩
  rw [← hall] at hmem
  exact (List.mem_filter.mp hmem).2

/-- Two background threads, a budget of one block, and a read of range 2 in the slot before. -/
def twoThreads : Builders :=
  run builderStep { adapter := { sampleAdapter with warmMode := .prepop, warmBlockBudget := 1 } }
    [.act ⟨5, .access false [2] 0⟩]

/-- An internal key in a range. -/
def ikeyIn (r : ℕ) : Bytes := r :: List.replicate 8 0

/-- The job of thread 0 writes two blocks with a key of range 2, while a job begins on thread 1. -/
def twoWriters : List BuilderEvent :=
  [.add 0 (ikeyIn 1), .act ⟨1000006, .begin 1 2 0 true 0⟩, .add 1 (ikeyIn 2), .add 0 (ikeyIn 2),
   .emitBlock 0, .add 0 (ikeyIn 2), .emitBlock 1, .emitBlock 0, .add 0 (ikeyIn 3)]

/-- The first of the two blocks is warmed, the second is over the budget. -/
theorem prepop_exact_twoWriters :
    (twoThreads.blocksOf ⟨1000005, 0, 1, 1, false, 10⟩ twoWriters).filter (·.warmed) =
      ((twoThreads.blocksOf ⟨1000005, 0, 1, 1, false, 10⟩ twoWriters).filter
        (wantedBy twoThreads.adapter.core.mapper
          (twoThreads.chosenBy ⟨1000005, 0, 1, 1, false, 10⟩))).take 1 ∧
    (twoThreads.blocksOf ⟨1000005, 0, 1, 1, false, 10⟩ twoWriters).map
      (fun b => (b.keys.length, b.warmed)) = [(2, true), (1, false)] :=
  ⟨(prepop_exact twoThreads ⟨1000005, 0, 1, 1, false, 10⟩ twoWriters rfl rfl rfl (by decide)
    (by decide)).2.2.1, by decide +kernel⟩

/-! ### The counters -/

/-- The builders ask the filter about every block: prepopulation is on and no key is empty. -/
structure Asking (s : Builders) : Prop where
  enabled : s.enabled = true
  keys : ∀ t, ∀ k ∈ (s.writer t).keys, k ≠ []

/-- A key that is added is not empty. -/
def BuilderEvent.Keyed : BuilderEvent → Prop
  | .add _ ikey => ikey ≠ []
  | _ => True

/-- The last key of a block is there, so the filter is asked about it. -/
theorem Asking.writeBlock_eq {s : Builders} (h : Asking s) {u : ℕ} (hnil : (s.writer u).keys ≠ []) :
    s.writeBlock u (s.writer u).first (s.writer u).last =
      s.shouldWarm u (s.writer u).first (s.writer u).last := by
  have hlast : (s.writer u).last ≠ [] := by
    rw [Writer.last_eq _ hnil]
    exact h.keys u _ (List.getLast_mem hnil)
  unfold Builders.writeBlock
  rw [if_neg (by rw [h.enabled]; decide), if_neg hlast]

/-- One step moves the counters by the block it writes. -/
theorem builderStep_counters {s : Builders} (h : Asking s) {e : BuilderEvent} (hkey : e.Keyed) :
    Asking (builderStep s e).1 ∧
      (builderStep s e).1.warmedBlocks = s.warmedBlocks +
        ((builderStep s e).2.toList.countP fun b => b.warmed) ∧
      (builderStep s e).1.prepopRejected = s.prepopRejected +
        ((builderStep s e).2.toList.countP fun b => !b.warmed) := by
  cases e with
  | act x => exact ⟨⟨h.enabled, h.keys⟩, rfl, rfl⟩
  | add thread ikey =>
    -- a key is added to one thread's block, and it is not empty
    refine ⟨⟨h.enabled, ?_⟩, rfl, rfl⟩
    intro t k hk
    obtain hold | ⟨rfl, rfl⟩ := mem_keys_add hk
    · exact h.keys t k hold
    · exact hkey
  | emitBlock u =>
    by_cases hnil : (s.writer u).keys = []
    · -- an empty block is not written, and nobody is asked
      have hstep : builderStep s (.emitBlock u) = (s, none) := if_pos hnil
      rw [hstep]
      exact ⟨h, rfl, rfl⟩
    · obtain ⟨hout, -, henabled, hwriter⟩ := emitBlock_frame hnil
      refine ⟨⟨henabled.trans h.enabled, ?_⟩, ?_⟩
      · -- the writer's block is empty again, the others' are untouched
        show ∀ t, ∀ k ∈ ((s.emitBlock u).1.writer t).keys, k ≠ []
        rw [hwriter]
        exact (Function.forall_update_iff s.writer fun _ w => ∀ k ∈ w.keys, k ≠ []).mpr
          ⟨fun k hk => absurd hk List.not_mem_nil, fun t _ => h.keys t⟩
      · -- the filter was asked about the block, and counted its answer
        have hask := h.writeBlock_eq hnil
        have hemit : (s.emitBlock u).1.warmedBlocks =
              (s.shouldWarm u (s.writer u).first (s.writer u).last).1.warmedBlocks ∧
            (s.emitBlock u).1.prepopRejected =
              (s.shouldWarm u (s.writer u).first (s.writer u).last).1.prepopRejected := by
          unfold Builders.emitBlock
          simp only [if_neg hnil, hask, and_self]
        show (s.emitBlock u).1.warmedBlocks = s.warmedBlocks + _ ∧
          (s.emitBlock u).1.prepopRejected = s.prepopRejected + _
        rw [hemit.1, hemit.2]
        simp only [builderStep, hout, hask]
        unfold Builders.shouldWarm
        simp only
        split_ifs <;> exact ⟨rfl, rfl⟩

/-- **The counters over all threads**: the blocks that went into the cache, and the others. -/
theorem run_warmCounters (es : List BuilderEvent) : ∀ {s : Builders}, Asking s →
    (∀ e ∈ es, e.Keyed) →
      (run builderStep s es).warmedBlocks = s.warmedBlocks +
        (((outs builderStep s es).filterMap id).countP fun b => b.warmed) ∧
      (run builderStep s es).prepopRejected = s.prepopRejected +
        (((outs builderStep s es).filterMap id).countP fun b => !b.warmed) := by
  induction es with
  | nil => exact fun _ _ => ⟨rfl, rfl⟩
  | cons e es ih =>
    intro s h hkeys
    obtain ⟨hnext, hwarmed, hrejected⟩ := builderStep_counters h (hkeys e List.mem_cons_self)
    obtain ⟨hwarmed', hrejected'⟩ := ih hnext fun e' he' => hkeys e' (List.mem_cons_of_mem e he')
    have hcons : (outs builderStep s (e :: es)).filterMap id =
        (builderStep s e).2.toList ++ (outs builderStep (builderStep s e).1 es).filterMap id := by
      rw [outs_cons, List.filterMap_cons]
      cases (builderStep s e).2 <;> rfl
    rw [run_cons, hwarmed', hwarmed, hrejected', hrejected, hcons, List.countP_append,
      List.countP_append, Nat.add_assoc, Nat.add_assoc]
    exact ⟨rfl, rfl⟩

end Leaper.RocksDB
