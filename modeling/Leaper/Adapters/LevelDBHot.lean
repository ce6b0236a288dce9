import Leaper.Adapters.LevelDBWarm
import Leaper.Lib.Blocks

namespace Leaper.LevelDB

open Lib LeaperImpl

/-!
# Hot keys find their blocks warmed

What the plug-in is for, from the keys a job writes to the engine.  The patched `TableBuilder`
remembers the first key of the block it builds; when the block is written the adapter asks the core
about its ranges and notes it, and when the file is finished the noted blocks are read through the
block cache.  All of it may be interrupted, at any point, by a flush that does the same, and the
engine may change its cache between any two hooks.

* `siteStep` — the adapter with the table builders of its open jobs;
* `JobHot` — what a job has predicted and written, against its context and its pending blocks;
* `tracks_step` — one step keeps that for all open jobs;
* `hot_blocks_warmed` — at the end of a file.
-/

variable {κ : Type*}

/-! ### Writing tables -/

/-- Adapter and cache, and the table builder of every open job, innermost first. -/
structure Site (κ : Type*) where
  db : State κ
  builders : List (Writer Bytes) := []

/-- A hook, or a call of the innermost job's table builder: `Add`, or `Flush` with the extent that
    `WriteBlock` returned. -/
inductive SiteEvent (κ : Type*)
  | hook (h : Hook κ)
  | add (key : Bytes)
  | flush (offset size : ℕ)

/-- A data block that was written: its keys, what the hook was told, what the core answered. -/
structure Written where
  keys : List Bytes
  info : BlockInfo
  granted : Bool
  deriving DecidableEq, Repr

/-- What a step shows. -/
structure SiteObs where
  hook : HookObs := {}
  block : Option Written := none
  deriving DecidableEq, Repr

/-- Jobs bring their builders; a new file gets a new one. -/
def buildersAfter (ws : List (Writer Bytes)) : Hook κ → List (Writer Bytes)
  | .compactionBegin _ _ _ => .idle [] [] :: ws
  | .outputFileStart _ => .idle [] [] :: ws.tail
  | .compactionEnd => ws.tail
  | _ => ws

/-- `TableBuilder::Flush`: the block as the hook is told of it. -/
def blockInfoOf (w : Writer Bytes) (offset size : ℕ) : BlockInfo :=
  { offset := offset, size := size, smallestKey := w.first, largestKey := w.last }

/-- One step, at a time of the monotonic clock. -/
def siteStep (eng : EngineOps κ) (s : Site κ) (x : ℕ × SiteEvent κ) : Site κ × SiteObs :=
  match x.2 with
  | .hook h =>
    let r := step eng s.db ⟨x.1, h⟩
    (⟨r.1, buildersAfter s.builders h⟩, { hook := r.2 })
  | .add key =>
    match s.builders with
    | [] => (s, {})
    | w :: ws => ({ s with builders := w.add key :: ws }, {})
  | .flush offset size =>
    match s.builders with
    | [] => (s, {})
    | w :: ws =>
      if w.keys = [] then (s, {})
      else
        let info := blockInfoOf w offset size
        let r := step eng s.db ⟨x.1, .outputBlock info⟩
        (⟨r.1, w.cut :: ws⟩, ⟨r.2, some ⟨w.keys, info, decide (r.2.answer = some true)⟩⟩)

section siteStep

variable (eng : EngineOps κ) {s : Site κ} {w : Writer Bytes} {ws : List (Writer Bytes)}

/-- Without an open builder nothing is written. -/
theorem siteStep_of_no_builder (hbuilders : s.builders = []) (mono : ℕ) :
    (∀ key, siteStep eng s (mono, .add key) = (s, {})) ∧
      ∀ offset size, siteStep eng s (mono, .flush offset size) = (s, {}) := by
  unfold siteStep
  simp only [hbuilders, implies_true, and_self]

/-- A key goes to the innermost builder; adapter and core do not see it. -/
theorem siteStep_add (hbuilders : s.builders = w :: ws) (mono : ℕ) (key : Bytes) :
    siteStep eng s (mono, .add key) = ({ s with builders := w.add key :: ws }, {}) := by
  unfold siteStep
  simp only [hbuilders]

/-- An empty block is not written. -/
theorem siteStep_flush_empty (hbuilders : s.builders = w :: ws) (hkeys : w.keys = [])
    (mono offset size : ℕ) : siteStep eng s (mono, .flush offset size) = (s, {}) := by
  unfold siteStep
  simp only [hbuilders, if_pos hkeys]

end siteStep

/-- **Well-bracketed writing.** The environment knows the file each open job is writing. -/
def writing (κ : Type*) : Env (List (Option ℕ)) (ℕ × SiteEvent κ) where
  ok g x :=
    match x.2 with
    | .hook (.outputFileStart _) => g ≠ []
    -- blocks come from the builder
    | .hook (.outputBlock _) => False
    | .hook (.outputFileFinished file _) => g.head? = some (some file)
    | .hook .compactionEnd => g ≠ []
    | .hook _ => True
    | .add _ => g.head?.join.isSome = true
    | .flush _ _ => g.head?.join.isSome = true
  next g x :=
    match x.2 with
    | .hook (.compactionBegin _ _ _) => none :: g
    | .hook (.outputFileStart file) => some file :: g.tail
    | .hook (.outputFileFinished _ _) => none :: g.tail
    | .hook .compactionEnd => g.tail
    | _ => g

instance (g : List (Option ℕ)) : ∀ x : ℕ × SiteEvent κ, Decidable ((writing κ).ok g x)
  | (_, .hook (.outputFileStart _)) | (_, .hook .compactionEnd) =>
    inferInstanceAs (Decidable (g ≠ []))
  | (_, .hook (.outputBlock _)) => inferInstanceAs (Decidable False)
  | (_, .hook (.outputFileFinished file _)) =>
    inferInstanceAs (Decidable (g.head? = some (some file)))
  | (_, .hook (.access _ _)) | (_, .hook (.compactionBegin _ _ _))
  | (_, .hook (.fileObsolete _ _ _)) | (_, .hook (.setQps _)) | (_, .hook (.setHealth _))
  | (_, .hook .resetClock) | (_, .hook (.engine _)) => inferInstanceAs (Decidable True)
  | (_, .add _) | (_, .flush _ _) => inferInstanceAs (Decidable (g.head?.join.isSome = true))

/-! ### The record of the open jobs -/

/-- An open job: the file it is writing, the ranges it predicted hot for when its output is read,
    the bytes of the blocks it has written, and the blocks of the current file. -/
structure JobNote where
  file : Option ℕ := none
  hot : List ℕ := []
  bytes : ℕ := 0
  blocks : List Written := []
  deriving DecidableEq, Repr

/-- The innermost job changes. -/
def onTop (f : JobNote → JobNote) : List JobNote → List JobNote
  | [] => []
  | j :: js => f j :: js

/-- The record after a step and what it showed. -/
def noteJobs (js : List JobNote) (x : ℕ × SiteEvent κ) (o : SiteObs) : List JobNote :=
  match x.2 with
  | .hook (.compactionBegin _ _ _) => { hot := o.hook.hot2 } :: js
  | .hook (.outputFileStart file) => onTop (fun j => { j with file := some file, blocks := [] }) js
  | .hook (.outputFileFinished _ _) => onTop (fun j => { j with file := none, blocks := [] }) js
  | .hook .compactionEnd => js.tail
  | .flush _ _ =>
    match o.block with
    | none => js
    | some b => onTop (fun j => { j with bytes := j.bytes + b.info.size,
                                         blocks := j.blocks ++ [b] }) js
  | _ => js

/-! ### A job against its context and its pending blocks -/

section Tracks

variable {refOf : ℕ → BlockInfo → BlockRef} {o : Options}

/-- **An open job**: the spans of its context are those of its hot ranges; as long as what it wrote
    fits the budget, every block that meets a hot range was granted; what was granted waits for the
    file to be finished. -/
structure JobHot (refOf : ℕ → BlockInfo → BlockRef) (o : Options) (j : JobNote) (f : NestedJob)
    (c : JobCtx) : Prop where
  sorted : j.hot.Pairwise (· ≤ ·)
  spans : c.hotT2 = toSpans j.hot
  budget_eq : c.budgetBytes = budget o
  bytes : j.bytes ≤ budget o → c.prefetchedBytes ≤ j.bytes
  output : ∀ file, j.file = some file → f.currentOutput = file
  pending : ∀ b ∈ j.blocks, b.granted = true → ∀ file, j.file = some file →
    refOf file b.info ∈ f.pendingWarm
  granted : j.bytes ≤ budget o → ∀ b ∈ j.blocks, ∀ r ∈ j.hot, (refOf 0 b.info).Covers r →
    b.granted = true
  bounds : ∀ b ∈ j.blocks, ∃ w : Writer Bytes, b.keys = w.keys ∧ b.info.smallestKey = w.first ∧
    b.info.largestKey = w.last

/-- A job that begins a file, or has finished one, has no blocks to wait for. -/
theorem JobHot.emptyFile {j : JobNote} {f f' : NestedJob} {c : JobCtx} (h : JobHot refOf o j f c)
    {current : Option ℕ} (hout : ∀ file, current = some file → f'.currentOutput = file) :
    JobHot refOf o { j with file := current, blocks := [] } f' c where
  sorted := h.sorted
  spans := h.spans
  budget_eq := h.budget_eq
  bytes := h.bytes
  output := hout
  pending _ hb := absurd hb List.not_mem_nil
  granted _ _ hb := absurd hb List.not_mem_nil
  bounds _ hb := absurd hb List.not_mem_nil

/-- **A job writes a block.** It waits for the end of the file if it was granted, which it was if it
    meets a hot range and fits; its context may have been charged for it. -/
theorem JobHot.write {j : JobNote} {f : NestedJob} {c c' : JobCtx} (h : JobHot refOf o j f c)
    (hspans : c'.hotT2 = c.hotT2) (hbudget : c'.budgetBytes = c.budgetBytes) {b : Written}
    (hbytes : c'.prefetchedBytes ≤ c.prefetchedBytes + b.info.size)
    {file : ℕ} (hfile : j.file = some file)
    (hhot : c.prefetchedBytes + b.info.size ≤ budget o → ∀ r ∈ j.hot,
      (refOf 0 b.info).Covers r → b.granted = true)
    (hbounds : ∃ w : Writer Bytes, b.keys = w.keys ∧ b.info.smallestKey = w.first ∧
      b.info.largestKey = w.last) :
    JobHot refOf o { j with bytes := j.bytes + b.info.size, blocks := j.blocks ++ [b] }
      ⟨if b.granted then f.pendingWarm ++ [refOf file b.info] else f.pendingWarm,
        f.currentOutput⟩ c' := by
  refine ⟨h.sorted, hspans.trans h.spans, hbudget.trans h.budget_eq, ?_, h.output, ?_, ?_, ?_⟩
  · intro hroom
    dsimp only at hroom
    have hold := h.bytes (by omega)
    exact hbytes.trans (Nat.add_le_add_right hold _)
  · intro x hx hyes file' hfile'
    obtain rfl : file' = file := Option.some.inj (hfile'.symm.trans hfile)
    dsimp only
    rcases List.mem_append.mp hx with hold | hnew
    · have hpend := h.pending x hold hyes file' hfile'
      split_ifs
      · exact List.mem_append_left _ hpend
      · exact hpend
    · rw [List.mem_singleton.mp hnew] at hyes ⊢
      rw [if_pos hyes]
      exact List.mem_append_right _ List.mem_cons_self
  · intro hroom x hx r hr hcovers
    dsimp only at hroom
    rcases List.mem_append.mp hx with hold | hnew
    · exact h.granted (by omega) x hold r hr hcovers
    · rw [List.mem_singleton.mp hnew] at hcovers ⊢
      have hold := h.bytes (by omega)
      exact hhot (by omega) r hr hcovers
  · intro x hx
    rcases List.mem_append.mp hx with hold | hnew
    · exact h.bounds x hold
    · rw [List.mem_singleton.mp hnew]
      exact hbounds

/-- All open jobs, against the frames of the adapter and the contexts of the core. -/
def JobsHot (refOf : ℕ → BlockInfo → BlockRef) (o : Options) :
    List JobNote → List NestedJob → List JobCtx → Prop
  | [], fs, cs => fs ≠ [] ∧ cs ≠ []
  | _ :: _, [], _ => False
  | _ :: _, _ :: _, [] => False
  | j :: js, f :: fs, c :: cs => JobHot refOf o j f c ∧ JobsHot refOf o js fs cs

/-- The options under which the plug-in warms what it predicts. -/
structure Warming (o : Options) : Prop where
  policy : o.policy = .leaper
  dryRun : o.dryRun = false
  enablePhase2 : o.enablePhase2 = true
  ssadMissThreshold : o.ssadMissThreshold ≤ 0
  ssadRelative : o.ssadRelative ≤ 0
  budget_lt : budget o < 2 ^ 64

/-- The adapter against the record and the environment. -/
structure Tracks (refOf : ℕ → BlockInfo → BlockRef) (o : Options) (g : List (Option ℕ))
    (s : Site κ) (js : List JobNote) : Prop where
  refs : s.db.adapter.blockRef = refOf
  opt : s.db.adapter.core.opt = o
  awake : s.db.adapter.core.ssad.suspended = false
  files : js.map (·.file) = g
  builders : s.builders.length = js.length
  jobs : JobsHot refOf o js s.db.adapter.frames
    (s.db.adapter.core.ctx :: s.db.adapter.core.ctxStack)

/-! ### Hooks that are no part of a job -/

/-- A hook outside a job leaves contexts and detector, if that is switched off. -/
theorem step_idle_core (hw : Warming o) (eng : EngineOps κ) (s : State κ)
    (hopt : s.adapter.core.opt = o) {c : Call κ} (h : c.hook.idle = true) :
    (step eng s c).1.adapter.core.ctx = s.adapter.core.ctx ∧
      (step eng s c).1.adapter.core.ctxStack = s.adapter.core.ctxStack ∧
      (step eng s c).1.adapter.core.ssad = s.adapter.core.ssad := by
  obtain ⟨mono, hook⟩ := c
  cases hook with
  | access isWrite key =>
    obtain ⟨c, heq, -⟩ := s.adapter.core.onAccess_frame isWrite key (s.adapter.nowUs mono)
    rw [show (step eng s ⟨mono, .access isWrite key⟩).1.adapter.core =
      s.adapter.core.onAccess isWrite key (s.adapter.nowUs mono) from rfl, heq]
    exact ⟨rfl, rfl, rfl⟩
  | fileObsolete file size blocks =>
    obtain ⟨st, sizes, heq⟩ := onFileObsolete_frame eng s.adapter s.cache file size blocks
    rw [show (step eng s ⟨mono, .fileObsolete file size blocks⟩).1.adapter =
      (s.adapter.onFileObsolete eng s.cache file size blocks).1 from rfl, heq]
    exact ⟨rfl, rfl, rfl⟩
  | setHealth m =>
    refine ⟨rfl, rfl, ?_⟩
    show s.adapter.core.ssad.observe s.adapter.core.opt m = _
    rw [hopt]
    exact if_pos ⟨hw.ssadMissThreshold, hw.ssadRelative⟩
  | setQps q => exact ⟨rfl, rfl, rfl⟩
  | resetClock => exact ⟨rfl, rfl, rfl⟩
  | engine change => exact ⟨rfl, rfl, rfl⟩
  | _ => cases h

variable {eng : EngineOps κ} {g : List (Option ℕ)} {s : Site κ} {js : List JobNote}

/-- **An idle hook** leaves all that belongs to jobs. -/
theorem Tracks.idle (hw : Warming o) (h : Tracks refOf o g s js) (mono : ℕ) {hook : Hook κ}
    (hidle : hook.idle = true) : Tracks refOf o g (siteStep eng s (mono, .hook hook)).1 js := by
  obtain ⟨hframes, hrefs, -⟩ := step_idle eng s.db (c := ⟨mono, hook⟩) hidle
  obtain ⟨hctx, hstack, hssad⟩ := step_idle_core hw eng s.db h.opt (c := ⟨mono, hook⟩) hidle
  refine ⟨hrefs.trans h.refs, ?_, ?_, h.files, ?_, ?_⟩
  · exact (step_settings eng s.db ⟨mono, hook⟩).2.trans h.opt
  · exact (congrArg Ssad.suspended hssad).trans h.awake
  · show (buildersAfter s.builders hook).length = js.length
    rw [← h.builders]
    cases hook with
    | compactionBegin | outputFileStart | compactionEnd => cases hidle
    | _ => rfl
  · show JobsHot refOf o js (step eng s.db ⟨mono, hook⟩).1.adapter.frames
      ((step eng s.db ⟨mono, hook⟩).1.adapter.core.ctx ::
        (step eng s.db ⟨mono, hook⟩).1.adapter.core.ctxStack)
    rw [hframes, hctx, hstack]
    exact h.jobs

/-! ### The innermost job -/

/-- The innermost job with its frame and its context. -/
theorem Tracks.innermost (h : Tracks refOf o g s js) (hg : g ≠ []) : ∃ j js', js = j :: js' ∧
    j.file = g.head hg ∧
    JobHot refOf o j ⟨s.db.adapter.pendingWarm, s.db.adapter.currentOutput⟩
      s.db.adapter.core.ctx ∧
    JobsHot refOf o js' s.db.adapter.nested s.db.adapter.core.ctxStack := by
  cases js with
  | nil =>
    have hnil : [] = g := h.files
    exact absurd hnil.symm hg
  | cons j js' =>
    have hfiles := h.files
    subst hfiles
    exact ⟨j, js', rfl, rfl, h.jobs.1, h.jobs.2⟩

/-! ### A job begins -/

/-- `PredictHot` returns its ranges in order, with repetitions if the candidates have any. -/
theorem pairwise_predictHot (p : Predictor) (c : Collector) (cs : List ℕ) (lo hi now : ℕ)
    (thr : ℚ) :
    (p.predictHot c cs lo hi now thr).out.Pairwise (· ≤ ·) := by
  unfold Predictor.predictHot
  dsimp only
  split_ifs
  · exact List.Pairwise.nil
  · exact List.Pairwise.nil
  · exact (pairwise_sortUnique _).imp fun h => h.le
  · exact (pairwise_sortUnique _).imp fun h => h.le

/-- The spans of a job are those of the ranges it predicts hot, in order. -/
theorem decideJob_spans {c : LeaperImpl} (hw : Warming c.opt) (ops : CacheOps κ)
    (cache : κ) (info : CompactionInfo) (blocks : List BlockRef) (now : ℕ) :
    (c.decideJob ops cache info blocks now).hotT2 =
        toSpans (c.decideJob ops cache info blocks now).hot2 ∧
      (c.decideJob ops cache info blocks now).hot2.Pairwise (· ≤ ·) := by
  by_cases hsus : c.ssad.suspended = true
  · rw [decideJob_suspended hw.policy hsus]
    exact ⟨rfl, List.Pairwise.nil⟩
  · have hsorted : (c.predictPhases info (c.candidates blocks) now).hot2.Pairwise (· ≤ ·) := by
      unfold predictPhases
      dsimp only
      split_ifs
      all_goals exact pairwise_predictHot _ _ _ _ _ _ _
    rw [decideJob_of_not_suspended hw.policy hsus]
    unfold decideLeaper
    dsimp only
    rw [hw.dryRun, if_neg Bool.false_ne_true]
    split_ifs
    all_goals exact ⟨rfl, hsorted⟩

/-- **A job begins** with its hot spans and the full budget, over the enclosing jobs. -/
theorem onCompactionBegin_hot (eng : EngineOps κ) {a : Adapter}
    (hw : Warming a.core.opt) (cache : κ) (level : ℤ) (isFlush : Bool) (inputs : List BlockInfo)
    (mono : ℕ) :
    (a.onCompactionBegin eng cache level isFlush inputs mono).1.frames = ⟨[], 0⟩ :: a.frames ∧
      (a.onCompactionBegin eng cache level isFlush inputs mono).1.blockRef = a.blockRef ∧
      (a.onCompactionBegin eng cache level isFlush inputs mono).1.core.ctx =
        ⟨toSpans (a.onCompactionBegin eng cache level isFlush inputs mono).2.hot2, 0,
          budget a.core.opt, isFlush⟩ ∧
      (a.onCompactionBegin eng cache level isFlush inputs mono).1.core.ctxStack =
        a.core.ctx :: a.core.ctxStack ∧
      (a.onCompactionBegin eng cache level isFlush inputs mono).1.core.ssad = a.core.ssad ∧
      (a.onCompactionBegin eng cache level isFlush inputs mono).2.hot2.Pairwise (· ≤ ·) := by
  unfold Adapter.onCompactionBegin
  dsimp only
  generalize hcore : (if isFlush then a.pushJob.core else a.pushJob.core.recordInvalidation _) = c
  have hc : c.opt = a.core.opt ∧ c.mapper = a.core.mapper ∧ c.ctx = a.core.ctx ∧
      c.ctxStack = a.core.ctxStack ∧ c.ssad = a.core.ssad := by
    rw [← hcore]
    split_ifs <;> exact ⟨rfl, rfl, rfl, rfl, rfl⟩
  obtain ⟨hopt, hmapper, hctx, hstack, hssad⟩ := hc
  generalize (List.map _ inputs) = blocks
  generalize (if isFlush then ([], cache) else cachedBlocks _ blocks cache).2 = cache'
  obtain ⟨hspans, hsorted⟩ := decideJob_spans (c := c.pushCtx ⟨blocks.length, level, isFlush⟩)
    (hopt ▸ hw) (a.pushJob.bridge eng) cache' ⟨blocks.length, level, isFlush⟩ blocks
    (a.pushJob.nowUs mono)
  refine ⟨rfl, blockRef_congr hmapper rfl, ?_, ?_, hssad, hsorted⟩
  · show JobCtx.mk _ 0 (budget c.opt) isFlush = _
    rw [hopt]
    exact congrArg (fun spans => JobCtx.mk spans 0 (budget a.core.opt) isFlush) hspans
  · show c.ctx :: c.ctxStack = _
    rw [hctx, hstack]

/-- A job that begins brings its own hot ranges and an empty file. -/
theorem Tracks.begin (hw : Warming o) (h : Tracks refOf o g s js) (mono : ℕ) (level : ℤ)
    (isFlush : Bool) (inputs : List BlockInfo) :
    Tracks refOf o (none :: g)
      (siteStep eng s (mono, .hook (.compactionBegin level isFlush inputs))).1
      ({ hot := (step eng s.db ⟨mono, .compactionBegin level isFlush inputs⟩).2.hot2 } :: js) := by
  have hw' : Warming s.db.adapter.core.opt := h.opt.symm ▸ hw
  obtain ⟨hframes, hrefs, hctx, hstack, hssad, hsorted⟩ :=
    onCompactionBegin_hot eng hw' s.db.cache level isFlush inputs mono
  rw [h.opt] at hctx
  refine ⟨hrefs.trans h.refs, ?_, (congrArg Ssad.suspended hssad).trans h.awake,
    congrArg (List.cons none) h.files, congrArg (· + 1) h.builders, ?_⟩
  · exact (step_settings eng s.db ⟨mono, .compactionBegin level isFlush inputs⟩).2.trans h.opt
  · show JobsHot refOf o (_ :: js)
      (s.db.adapter.onCompactionBegin eng s.db.cache level isFlush inputs mono).1.frames
      ((s.db.adapter.onCompactionBegin eng s.db.cache level isFlush inputs mono).1.core.ctx ::
        (s.db.adapter.onCompactionBegin eng s.db.cache level isFlush inputs mono).1.core.ctxStack)
    rw [hframes, hctx, hstack]
    refine ⟨⟨hsorted, rfl, rfl, fun _ => Nat.zero_le _, ?_, ?_, ?_, ?_⟩, h.jobs⟩
    · exact fun file hfile => absurd hfile (Option.some_ne_none file).symm
    · exact fun b hb => absurd hb List.not_mem_nil
    · exact fun _ b hb => absurd hb List.not_mem_nil
    · exact fun b hb => absurd hb List.not_mem_nil

/-! ### A file is begun, a block written, a file finished, a job ended -/

/-- A new file starts without blocks. -/
theorem Tracks.startFile (h : Tracks refOf o g s js) (hg : g ≠ []) (mono file : ℕ) :
    Tracks refOf o (some file :: g.tail) (siteStep eng s (mono, .hook (.outputFileStart file))).1
      (onTop (fun j => { j with file := some file, blocks := [] }) js) := by
  obtain ⟨j, js', rfl, -, hjob, hrest⟩ := h.innermost hg
  have hfiles : j.file :: js'.map (·.file) = g := h.files
  refine ⟨h.refs, h.opt, h.awake, ?_, ?_, ?_⟩
  · rw [← hfiles]
    rfl
  · show s.builders.tail.length + 1 = js'.length + 1
    have hlen : s.builders.length = js'.length + 1 := h.builders
    rw [List.length_tail]
    omega
  · exact ⟨hjob.emptyFile fun f hf => Option.some.inj hf, hrest⟩

/-- There is always the context outside of jobs. -/
theorem JobsHot.ne_nil {fs : List NestedJob} {cs : List JobCtx} (h : JobsHot refOf o js fs cs) :
    fs ≠ [] ∧ cs ≠ [] := by
  cases js with
  | nil => exact h
  | cons j js =>
    cases fs with
    | nil => exact h.elim
    | cons f fs =>
      cases cs with
      | nil => exact h.elim
      | cons c cs => exact ⟨List.cons_ne_nil f fs, List.cons_ne_nil c cs⟩

/-- The end of a job brings the interrupted one back. -/
theorem Tracks.endJob (h : Tracks refOf o g s js) (hg : g ≠ []) (mono : ℕ) :
    Tracks refOf o g.tail (siteStep eng s (mono, .hook .compactionEnd)).1 js.tail := by
  obtain ⟨j, js', rfl, -, -, hrest⟩ := h.innermost hg
  have hfiles : j.file :: js'.map (·.file) = g := h.files
  -- the enclosing job, or the bottom of both stacks
  obtain ⟨hne, hne'⟩ := hrest.ne_nil
  obtain ⟨f, fs, hnested⟩ := List.exists_cons_of_ne_nil hne
  obtain ⟨c, cs, hstack⟩ := List.exists_cons_of_ne_nil hne'
  have hcore : s.db.adapter.core.onCompactionEnd =
      { s.db.adapter.core with ctx := c, ctxStack := cs } := by
    unfold LeaperImpl.onCompactionEnd
    rw [hstack]
  have hadapter : s.db.adapter.onCompactionEnd =
      { s.db.adapter with
        core := { s.db.adapter.core with ctx := c, ctxStack := cs }
        pendingWarm := f.pendingWarm
        currentOutput := f.currentOutput
        nested := fs } := by
    unfold Adapter.onCompactionEnd
    rw [hcore]
    dsimp only
    rw [hnested]
  rw [hnested, hstack] at hrest
  have hdb : (siteStep eng s (mono, .hook .compactionEnd)).1.db.adapter =
      s.db.adapter.onCompactionEnd := rfl
  refine ⟨?_, ?_, ?_, ?_, ?_, ?_⟩
  · rw [hdb, hadapter]
    exact h.refs
  · rw [hdb, hadapter]
    exact h.opt
  · rw [hdb, hadapter]
    exact h.awake
  · rw [← hfiles]
    rfl
  · show s.builders.tail.length = js'.length
    have hlen : s.builders.length = js'.length + 1 := h.builders
    rw [List.length_tail]
    omega
  · rw [hdb, hadapter]
    exact hrest

/-- Block references differ in their file alone. -/
theorem blockRef_ranges (a : Adapter) (file file' : ℕ) (b : BlockInfo) :
    (a.blockRef file b).firstRange = (a.blockRef file' b).firstRange ∧
      (a.blockRef file b).lastRange = (a.blockRef file' b).lastRange ∧
      (a.blockRef file b).firstRange ≤ (a.blockRef file b).lastRange ∧
      (a.blockRef file b).size = b.size ∧ (a.blockRef file b).offset = b.offset := by
  unfold Adapter.blockRef
  dsimp only
  split_ifs with hlt
  · exact ⟨rfl, rfl, hlt.le, rfl, rfl⟩
  · exact ⟨rfl, rfl, not_lt.mp hlt, rfl, rfl⟩

/-- **The core's answer to a block**: it says yes to one that meets a hot range and fits. -/
theorem shouldPrefetch_hot {c : LeaperImpl} (hw : Warming c.opt) (hawake : c.ssad.suspended = false)
    {hot : List ℕ} (hsorted : hot.Pairwise (· ≤ ·)) (hspans : c.ctx.hotT2 = toSpans hot)
    (hbudget : c.ctx.budgetBytes = budget c.opt) {b : BlockRef} (hb : b.firstRange ≤ b.lastRange)
    (hfits : c.ctx.prefetchedBytes + b.size ≤ budget c.opt) {r : ℕ} (hr : r ∈ hot)
    (hcovers : b.Covers r) : (c.shouldPrefetch b).2 = true := by
  have hwants : c.wants b = true := by
    rw [wants_of_leaper hw.policy, hw.enablePhase2, hawake, hspans,
      (blockOverlaps_toSpans hsorted hb).mpr ⟨r, hr, hcovers⟩]
    rfl
  have hnowrap : u64 (c.ctx.prefetchedBytes + b.size) = c.ctx.prefetchedBytes + b.size :=
    Nat.mod_eq_of_lt (lt_of_le_of_lt hfits hw.budget_lt)
  unfold LeaperImpl.shouldPrefetch
  rw [if_pos hwants, hnowrap, hbudget, if_neg (not_lt.mpr hfits)]

/-- Whatever the answer, a context gains at most the size of the block. -/
theorem shouldPrefetch_keeps (c : LeaperImpl) (b : BlockRef) :
    (c.shouldPrefetch b).1.ctxStack = c.ctxStack ∧ (c.shouldPrefetch b).1.ssad = c.ssad ∧
      (c.shouldPrefetch b).1.opt = c.opt ∧ (c.shouldPrefetch b).1.mapper = c.mapper ∧
      (c.shouldPrefetch b).1.ctx.hotT2 = c.ctx.hotT2 ∧
      (c.shouldPrefetch b).1.ctx.budgetBytes = c.ctx.budgetBytes ∧
      (c.shouldPrefetch b).1.ctx.prefetchedBytes ≤ c.ctx.prefetchedBytes + b.size := by
  obtain ⟨st, heq | ⟨-, -, heq⟩⟩ := c.shouldPrefetch_frame b
  · rw [heq]
    exact ⟨rfl, rfl, rfl, rfl, rfl, rfl, Nat.le_add_right _ _⟩
  · rw [heq]
    exact ⟨rfl, rfl, rfl, rfl, rfl, rfl, Nat.mod_le _ _⟩

/-- The block that `Flush` tells the hook of, with the answer. -/
def writtenBlock (eng : EngineOps κ) (s : Site κ) (mono : ℕ) (w : Writer Bytes)
    (offset size : ℕ) : Written :=
  ⟨w.keys, blockInfoOf w offset size,
    decide ((step eng s.db
      ⟨mono, .outputBlock (blockInfoOf w offset size)⟩).2.answer = some true)⟩

/-- A block with keys is written and reported. -/
theorem siteStep_flush (eng : EngineOps κ) {s : Site κ} {w : Writer Bytes}
    {ws : List (Writer Bytes)} (hbuilders : s.builders = w :: ws) (hkeys : w.keys ≠ [])
    (mono offset size : ℕ) :
    siteStep eng s (mono, .flush offset size) =
      (⟨(step eng s.db ⟨mono, .outputBlock (blockInfoOf w offset size)⟩).1, w.cut :: ws⟩,
        ⟨(step eng s.db ⟨mono, .outputBlock (blockInfoOf w offset size)⟩).2,
          some (writtenBlock eng s mono w offset size)⟩) := by
  unfold siteStep
  simp only [hbuilders, if_neg hkeys]
  rfl

/-- **A block is written**: it joins the blocks of its job, and waits if it was granted. -/
theorem Tracks.block (hw : Warming o) (h : Tracks refOf o g s js) {file : ℕ} (hg : g ≠ [])
    (hfile : g.head hg = some file) {w : Writer Bytes} {ws : List (Writer Bytes)}
    (hbuilders : s.builders = w :: ws) (mono offset size : ℕ) :
    Tracks refOf o g
      ⟨(step eng s.db ⟨mono, .outputBlock (blockInfoOf w offset size)⟩).1, w.cut :: ws⟩
      (onTop (fun j => { j with
        bytes := j.bytes + size
        blocks := j.blocks ++ [writtenBlock eng s mono w offset size] }) js) := by
  obtain ⟨j, js', rfl, hjfile, hjob, hrest⟩ := h.innermost hg
  rw [hfile] at hjfile
  -- what the hook asks the core, and the answer
  let b := refOf file (blockInfoOf w offset size)
  have hb : s.db.adapter.blockRef s.db.adapter.currentOutput (blockInfoOf w offset size) = b := by
    have hout : s.db.adapter.currentOutput = file := hjob.output file hjfile
    rw [h.refs, hout]
  have hstep : (step eng s.db ⟨mono, .outputBlock (blockInfoOf w offset size)⟩) =
      (⟨{ s.db.adapter with
          core := (s.db.adapter.core.shouldPrefetch b).1
          pendingWarm := if (s.db.adapter.core.shouldPrefetch b).2 then
            s.db.adapter.pendingWarm ++ [b] else s.db.adapter.pendingWarm }, s.db.cache⟩,
        { answer := some (s.db.adapter.core.shouldPrefetch b).2 }) := by
    rw [← hb]
    rfl
  have hgranted : (writtenBlock eng s mono w offset size).granted =
      (s.db.adapter.core.shouldPrefetch b).2 := by
    unfold writtenBlock
    rw [hstep]
    simp
  obtain ⟨hstack, hssad, hopt, hmapper, hspans, hbudget, hbytes⟩ :=
    shouldPrefetch_keeps s.db.adapter.core b
  obtain ⟨hfirst, hlast, hle, hsize, -⟩ := blockRef_ranges s.db.adapter file 0
    (blockInfoOf w offset size)
  rw [h.refs] at hfirst hlast hle hsize
  have hbsize : b.size = size := hsize
  -- a block that meets a hot range and fits was granted
  have hhot : s.db.adapter.core.ctx.prefetchedBytes + size ≤ budget o → ∀ r ∈ j.hot,
      (refOf 0 (blockInfoOf w offset size)).Covers r →
      (writtenBlock eng s mono w offset size).granted = true := by
    intro hfits r hr hcovers
    rw [hgranted]
    refine shouldPrefetch_hot (h.opt.symm ▸ hw) h.awake hjob.sorted hjob.spans
      (hjob.budget_eq.trans (congrArg budget h.opt.symm)) hle ?_ hr ?_
    · rw [hbsize, h.opt]
      exact hfits
    · unfold BlockRef.Covers at hcovers ⊢
      rw [hfirst, hlast]
      exact hcovers
  have hwrite := hjob.write (b := writtenBlock eng s mono w offset size) hspans hbudget
    (hbytes.trans_eq (congrArg _ hbsize)) hjfile hhot ⟨w, rfl, rfl, rfl⟩
  rw [hgranted] at hwrite
  rw [hstep]
  refine ⟨?_, hopt.trans h.opt, (congrArg Ssad.suspended hssad).trans h.awake, h.files, ?_,
    hwrite, ?_⟩
  · rw [← h.refs]
    exact blockRef_congr hmapper rfl
  · have hlen := h.builders
    rw [hbuilders] at hlen
    exact hlen
  · show JobsHot refOf o js' s.db.adapter.nested
      (s.db.adapter.core.shouldPrefetch b).1.ctxStack
    rw [hstack]
    exact hrest

/-- The adapter after a finished file, apart from the counter of warmed blocks. -/
theorem onOutputFileFinished_takeFile (eng : EngineOps κ) (a : Adapter) (cache : κ)
    (file size : ℕ) : ∃ n, (a.onOutputFileFinished eng cache file size).1 =
      { (a.takeFile file size).1 with warmed := n } := by
  unfold Adapter.onOutputFileFinished
  dsimp only
  split_ifs
  · exact ⟨_, rfl⟩
  · exact ⟨_, rfl⟩

/-- **A file is finished**: its blocks are no longer waited for. -/
theorem Tracks.finishFile (h : Tracks refOf o g s js) (hg : g ≠ []) (mono file size : ℕ) :
    Tracks refOf o (none :: g.tail)
      (siteStep eng s (mono, .hook (.outputFileFinished file size))).1
      (onTop (fun j => { j with file := none, blocks := [] }) js) := by
  obtain ⟨j, js', rfl, -, hjob, hrest⟩ := h.innermost hg
  have hfiles : j.file :: js'.map (·.file) = g := h.files
  obtain ⟨n, hadapter⟩ := onOutputFileFinished_takeFile eng s.db.adapter s.db.cache file size
  have hdb : (siteStep eng s (mono, .hook (.outputFileFinished file size))).1.db.adapter =
      { (s.db.adapter.takeFile file size).1 with warmed := n } := hadapter
  refine ⟨?_, ?_, ?_, ?_, h.builders, ?_⟩
  · rw [hdb]
    exact h.refs
  · rw [hdb]
    exact h.opt
  · rw [hdb]
    exact h.awake
  · rw [← hfiles]
    rfl
  · rw [hdb]
    exact ⟨hjob.emptyFile fun file hfile => absurd hfile (Option.some_ne_none file).symm, hrest⟩

theorem ne_nil_of_head? {file : ℕ} (h : g.head?.join = some file) :
    ∃ hg : g ≠ [], g.head hg = some file := by
  cases g with
  | nil => cases h
  | cons x g => exact ⟨List.cons_ne_nil x g, h⟩

/-- **One step keeps adapter, record and environment together.** -/
theorem tracks_step (hw : Warming o) (h : Tracks refOf o g s js) {x : ℕ × SiteEvent κ}
    (hok : (writing κ).ok g x) :
    Tracks refOf o ((writing κ).next g x) (siteStep eng s x).1
      (noteJobs js x (siteStep eng s x).2) := by
  obtain ⟨mono, e⟩ := x
  cases e with
  | add key =>
    cases hbuilders : s.builders with
    | nil =>
      rw [(siteStep_of_no_builder eng hbuilders mono).1]
      exact h
    | cons w ws =>
      rw [siteStep_add eng hbuilders]
      refine ⟨h.refs, h.opt, h.awake, h.files, ?_, h.jobs⟩
      have hlen := h.builders
      rw [hbuilders] at hlen
      exact hlen
  | flush offset size =>
    obtain ⟨file, hfile⟩ := Option.isSome_iff_exists.mp hok
    obtain ⟨hg, hhead⟩ := ne_nil_of_head? hfile
    cases hbuilders : s.builders with
    | nil =>
      rw [(siteStep_of_no_builder eng hbuilders mono).2]
      exact h
    | cons w ws =>
      by_cases hkeys : w.keys = []
      · rw [siteStep_flush_empty eng hbuilders hkeys]
        exact h
      · rw [siteStep_flush eng hbuilders hkeys]
        exact h.block hw hg hhead hbuilders mono offset size
  | hook hook =>
    cases hook with
    | compactionBegin level isFlush inputs => exact h.begin hw mono level isFlush inputs
    | outputFileStart file => exact h.startFile hok mono file
    | outputBlock block => exact hok.elim
    | outputFileFinished file size =>
      have hg : g ≠ [] := by
        rintro rfl
        cases hok
      exact h.finishFile hg mono file size
    | compactionEnd => exact h.endJob hok mono
    | _ => exact h.idle hw mono rfl

end Tracks

/-! ### The end of a file -/

/-- No step unbinds the adapter or binds it. -/
theorem siteStep_bound (eng : EngineOps κ) (s : Site κ) (x : ℕ × SiteEvent κ) :
    (siteStep eng s x).1.db.adapter.bound = s.db.adapter.bound := by
  obtain ⟨mono, e⟩ := x
  unfold siteStep
  cases e with
  | hook h => exact (step_settings eng s.db ⟨mono, h⟩).1
  | add key =>
    dsimp only
    split <;> rfl
  | flush offset size =>
    dsimp only
    split
    · rfl
    · split_ifs
      · rfl
      · exact (step_settings eng s.db ⟨mono, _⟩).1

/-- A block covers what lies between the ranges of its bounds. -/
theorem covers_of_between {a : Adapter} {b : BlockInfo} {r : ℕ}
    (hlo : a.rangeOfInternalKey b.smallestKey ≤ r) (hhi : r ≤ a.rangeOfInternalKey b.largestKey)
    (file : ℕ) : (a.blockRef file b).Covers r := by
  unfold Adapter.blockRef BlockRef.Covers
  dsimp only
  rw [if_neg (not_lt.mpr (hlo.trans hhi))]
  exact ⟨hlo, hhi⟩

/-- What one of the calls establishes and none of them undoes holds after all of them. -/
theorem EngineOps.warmAll_establishes (eng : EngineOps κ) {C : κ → Prop}
    {calls : List (BlockRef × ℕ)} {x : BlockRef × ℕ} (hx : x ∈ calls)
    (hwarm : ∀ k, C (eng.warmBlock x.1.fileId x.2 x.1.offset x.1.size k))
    (hkeep : ∀ y ∈ calls, ∀ k, C k → C (eng.warmBlock y.1.fileId y.2 y.1.offset y.1.size k))
    (cache : κ) : C (eng.warmAll calls cache) := by
  obtain ⟨before, after, rfl⟩ := List.append_of_mem hx
  unfold EngineOps.warmAll
  rw [List.foldl_append, List.foldl_cons]
  refine List.foldlRecOn after _ (hwarm _) fun k hk y hy => hkeep y ?_ k hk
  exact List.mem_append_right _ (List.mem_cons_of_mem x hy)

/-- **Hot keys find their blocks warmed.** Let the learned policy run with its detector switched
    off, over any engine and on any well-bracketed sequence of events: jobs that begin, write and
    end, flushes that interrupt them at any point, reads and writes of clients, deletions, and a
    cache that the engine changes as it likes.  When a job then finishes a file, every block of it
    with a key of a range the job had predicted hot is passed to `Prefetch`, under that file's
    number and size, provided that the job has not written more than its budget and that the block's
    keys are in the order of their ranges.  If reading that block leaves it cached, and reading the
    others of the file does not drive it out, it is cached afterwards. -/
theorem hot_blocks_warmed (eng : EngineOps κ) (s : Site κ) (hw : Warming s.db.adapter.core.opt)
    (hawake : s.db.adapter.core.ssad.suspended = false) (hbound : s.db.adapter.bound = true)
    (hidle : s.builders = []) {es : List (ℕ × SiteEvent κ)} (hacc : (writing κ).Accepts [] es)
    {file : ℕ} (hcur : ((writing κ).after [] es).head? = some (some file)) (mono size : ℕ) :
    let r := siteStep eng (run (siteStep eng) s es) (mono, .hook (.outputFileFinished file size))
    ∃ j js, watch (siteStep eng) noteJobs s [] es = j :: js ∧
      (j.bytes ≤ budget s.db.adapter.core.opt → ∀ b ∈ j.blocks,
        b.keys.Pairwise (fun x y => s.db.adapter.rangeOfInternalKey x ≤
          s.db.adapter.rangeOfInternalKey y) →
        ∀ k ∈ b.keys, s.db.adapter.rangeOfInternalKey k ∈ j.hot →
          (s.db.adapter.blockRef file b.info, size) ∈ r.2.hook.warm ∧
          ∀ cached : κ → Prop,
            (∀ c, cached (eng.warmBlock file size b.info.offset b.info.size c)) →
            (∀ x ∈ r.2.hook.warm, ∀ c, cached c →
              cached (eng.warmBlock x.1.fileId x.2 x.1.offset x.1.size c)) →
            cached r.1.db.cache) := by
  have hstart : Tracks s.db.adapter.blockRef s.db.adapter.core.opt [] s [] :=
    ⟨rfl, rfl, hawake, rfl, congrArg List.length hidle, List.cons_ne_nil _ _, List.cons_ne_nil _ _⟩
  have htracks : Tracks s.db.adapter.blockRef s.db.adapter.core.opt ((writing κ).after [] es)
      (run (siteStep eng) s es) (watch (siteStep eng) noteJobs s [] es) :=
    (writing κ).watch_invariant (P := Tracks s.db.adapter.blockRef s.db.adapter.core.opt)
      (fun g s' js x hok h => tracks_step hw h hok) hacc hstart
  have hbound' : (run (siteStep eng) s es).db.adapter.bound = true :=
    run_keeps (P := fun s : Site κ => s.db.adapter.bound = true)
      (fun s x h => (siteStep_bound eng s x).trans h) es hbound
  have hjoin : ((writing κ).after [] es).head?.join = some file := by rw [hcur]; rfl
  obtain ⟨hg, hhead⟩ := ne_nil_of_head? hjoin
  obtain ⟨j, js, hnotes, hjfile, hjob, -⟩ := htracks.innermost hg
  rw [hhead] at hjfile
  refine ⟨j, js, hnotes, ?_⟩
  intro hbytes b hb hsorted k hk hhot
  -- the key lies between the bounds of its block, so the block meets a hot range and was granted
  obtain ⟨w, hkeys, hfirst, hlast⟩ := hjob.bounds b hb
  have hne : w.keys ≠ [] := List.ne_nil_of_mem (hkeys ▸ hk)
  rw [hkeys] at hsorted hk
  obtain ⟨hlo, hhi⟩ := between_ends hsorted hne hk
  rw [← w.first_eq hne, ← hfirst] at hlo
  rw [← w.last_eq hne, ← hlast] at hhi
  have hgranted := hjob.granted hbytes b hb _ hhot (covers_of_between hlo hhi 0)
  -- and what was granted is waiting for the end of the file
  have hpending := hjob.pending b hb hgranted file hjfile
  generalize hdb : (run (siteStep eng) s es).db = db at hpending hbound'
  have hcalls := (onOutputFileFinished_spec eng db.adapter db.cache file size).1
  have hwarm : (s.db.adapter.blockRef file b.info, size) ∈
      (db.adapter.onOutputFileFinished eng db.cache file size).2.2 := by
    rw [hcalls]
    refine List.mem_map.mpr ⟨_, List.mem_filter.mpr ⟨hpending, ?_⟩, rfl⟩
    exact decide_eq_true (blockRef_fileId _ _ _)
  show _ ∈ (step eng (run (siteStep eng) s es).db ⟨mono, .outputFileFinished file size⟩).2.warm ∧
    ∀ cached : κ → Prop, _ → (∀ x ∈ (step eng (run (siteStep eng) s es).db
      ⟨mono, .outputFileFinished file size⟩).2.warm, _) →
      cached (step eng (run (siteStep eng) s es).db ⟨mono, .outputFileFinished file size⟩).1.cache
  rw [hdb]
  refine ⟨hwarm, fun cached hestablish hkeep => ?_⟩
  show cached (db.adapter.onOutputFileFinished eng db.cache file size).2.1
  rw [(onOutputFileFinished_calls eng db.adapter db.cache file size).2 hbound']
  refine eng.warmAll_establishes hwarm (fun c => ?_) hkeep db.cache
  obtain ⟨hoffset, hsize⟩ := blockRef_extent s.db.adapter file b.info
  rw [blockRef_fileId, hoffset, hsize]
  exact hestablish c

/-- The internal key of a user key of one byte. -/
def tagged (n : ℕ) : Bytes := n :: List.replicate 8 0

/-- An adapter that warms what it predicts, over an empty cache. -/
def learnedSite : Site (List (ℕ × ℕ × ℕ)) :=
  { db := ⟨{ core := { sampleCore with opt := { sampleCore.opt with policy := .leaper } } }, []⟩ }

theorem learnedSite_warming : Warming learnedSite.db.adapter.core.opt :=
  ⟨rfl, rfl, rfl, by decide, by decide, by decide +kernel⟩

/-- A read makes range 2 hot, and a flush writes a block with a key of it. -/
def hotFlush : List (ℕ × SiteEvent (List (ℕ × ℕ × ℕ))) :=
  [(5, .hook (.access false [2])),
    (1000005, .hook (.compactionBegin 0 true
      [{ smallestKey := tagged 1, largestKey := tagged 3 }])),
    (1000006, .hook (.outputFileStart 7)), (1000007, .add (tagged 2)), (1000008, .add (tagged 3)),
    (1000009, .flush 0 4)]

/-- The block is passed to `Prefetch` and cached, in the cache that keeps all it reads. -/
theorem hot_blocks_warmed_hotFlush :
    (run (siteStep listEngine) learnedSite hotFlush).db.cache = [] ∧
      (learnedSite.db.adapter.blockRef 7 ⟨0, 0, 4, tagged 2, tagged 3⟩, 52) ∈
        (siteStep listEngine (run (siteStep listEngine) learnedSite hotFlush)
          (1000010, .hook (.outputFileFinished 7 52))).2.hook.warm ∧
      (7, 52, 0) ∈ (siteStep listEngine (run (siteStep listEngine) learnedSite hotFlush)
        (1000010, .hook (.outputFileFinished 7 52))).1.db.cache := by
  refine ⟨by decide +kernel, ?_⟩
  obtain ⟨j, js, hnotes, hwarmed⟩ := hot_blocks_warmed listEngine learnedSite
    learnedSite_warming rfl
    rfl rfl (by decide : (writing _).Accepts [] hotFlush)
    (by decide : ((writing _).after [] hotFlush).head? = some (some 7)) 1000010 52
  have hjob : watch (siteStep listEngine) noteJobs learnedSite [] hotFlush =
      [⟨some 7, [2], 4, [⟨[tagged 2, tagged 3], ⟨0, 0, 4, tagged 2, tagged 3⟩, true⟩]⟩] := by
    decide +kernel
  rw [hjob, List.cons.injEq] at hnotes
  obtain ⟨rfl, rfl⟩ := hnotes
  obtain ⟨hpassed, hcached⟩ := hwarmed (by decide +kernel) _ (List.mem_singleton_self _) (by decide)
    (tagged 2) (by decide) (by decide)
  exact ⟨hpassed, hcached (fun c => (7, 52, 0) ∈ c)
    (fun c => List.mem_append_right c List.mem_cons_self)
    fun x _ c hc => List.mem_append_left _ hc⟩

end Leaper.LevelDB
