import Leaper.Adapters.LevelDBWarm
import Leaper.Lib.WorkQueue

namespace Leaper.LevelDB

open Lib

/-!
# The LevelDB adapter with a warm thread

With `warm_async` on, `OnOutputFileFinished` hands the blocks of the file to a queue, and the
warm thread prefetches them one by one while the engine goes on: it may meanwhile delete the
file.  A run interleaves hooks, turns of the warm thread, and `Shutdown`.

* `async_step` — a step keeps the adapter, the queue and the record of the run together;
* `pending_step` — what a step can add to the blocks still to be warmed;
* `warm_requests` — what is started, when a file's `OnFileObsolete` is the last that is heard of
  it, and what `Shutdown` leaves.
-/

variable {κ : Type*}

/-- The adapter with its queue; `returned` says that `Shutdown` has returned. -/
structure Async (κ : Type*) where
  adapter : Adapter
  cache : κ
  warmQueue : WorkQueue BlockRef := {}
  returned : Bool := false

/-- A hook, a step of the warm thread, and the two ends of `Shutdown`. -/
inductive AsyncAct (κ : Type*)
  | hook (call : Call κ)
  | warm
  | shutdown
  | join

/-- What a step shows: what the hook did (`warm` are the blocks handed over), and the
    `WarmBlock` call that was started, with its file size. -/
structure AsyncObs where
  hook : HookObs := {}
  started : Option (BlockRef × ℕ) := none
  deriving DecidableEq, Repr

namespace Async

/-- `OnOutputFileFinished`: the blocks go to the queue. -/
def onOutputFileFinished (s : Async κ) (file size : ℕ) : Async κ × List (BlockRef × ℕ) :=
  let t := s.adapter.takeFile file size
  if t.2 = [] then ({ s with adapter := t.1 }, [])
  else
    ({ s with adapter := t.1, warmQueue := s.warmQueue.enqueue t.2 },
      t.2.map fun b => (b, t.1.fileSize b.fileId))

/-- A hook; only a finished file is treated differently. -/
def onHook (eng : EngineOps κ) (s : Async κ) (c : Call κ) : Async κ × HookObs :=
  match c.hook with
  | .outputFileFinished file size =>
    let r := s.onOutputFileFinished file size
    (r.1, { warm := r.2 })
  | _ =>
    let r := step eng ⟨s.adapter, s.cache⟩ c
    ({ s with adapter := r.1.adapter, cache := r.1.cache }, r.2)

/-- A step of `WarmLoop`: take a batch, prefetch a block of it, or count the batch. -/
def warmLoop (eng : EngineOps κ) (s : Async κ) : Async κ × Option (BlockRef × ℕ) :=
  let t := s.warmQueue.turn
  match t.2 with
  | .quiet => ({ s with warmQueue := t.1 }, none)
  | .item b =>
    ({ s with warmQueue := t.1, cache := s.adapter.prefetch eng b s.cache },
      if s.adapter.bound then some (b, s.adapter.fileSize b.fileId) else none)
  | .finished n =>
    ({ s with warmQueue := t.1, adapter := { s.adapter with warmed := s.adapter.warmed + n } },
     none)

end Async

/-- One step of the run.  `join` is `Shutdown`'s wait, which ends once the thread has left. -/
def asyncStep (eng : EngineOps κ) (s : Async κ) : AsyncAct κ → Async κ × AsyncObs
  | .hook c => ((s.onHook eng c).1, { hook := (s.onHook eng c).2 })
  | .warm => ((s.warmLoop eng).1, { started := (s.warmLoop eng).2 })
  | .shutdown => ({ s with warmQueue := s.warmQueue.requestStop }, {})
  | .join =>
    ({ s with returned := s.returned || decide (s.warmQueue.worker = .exited) }, {})

/-- The engine's side of a run: its hooks are well bracketed. -/
def asyncHooks (κ : Type*) : Env Desk (AsyncAct κ) where
  ok g a :=
    match a with
    | .hook c => (hooks κ).ok g c
    | _ => True
  next g a :=
    match a with
    | .hook c => (hooks κ).next g c
    | _ => g

instance (g : Desk) (a : AsyncAct κ) : Decidable ((asyncHooks κ).ok g a) := by
  unfold asyncHooks
  cases a <;> infer_instance

/-! ### The record of a run -/

/-- The record of the hooks, the `WarmBlock` calls started, and the files that became obsolete. -/
structure AsyncRecord where
  record : Record := {}
  started : List (BlockRef × ℕ) := []
  obsolete : List ℕ := []

/-- The file a hook reports as obsolete. -/
def Hook.obsoletes : Hook κ → List ℕ
  | .fileObsolete file _ _ => [file]
  | _ => []

/-- The record after a step and what it showed. -/
def AsyncRecord.note (refOf : ℕ → BlockInfo → BlockRef) (r : AsyncRecord) (a : AsyncAct κ)
    (o : AsyncObs) : AsyncRecord :=
  match a with
  | .hook c =>
    { r with record := r.record.note refOf c o.hook, obsolete := c.hook.obsoletes ++ r.obsolete }
  | _ => { r with started := r.started ++ o.started.toList }

/-- The calls for files that have not become obsolete. -/
def AsyncRecord.live (r : AsyncRecord) (calls : List (BlockRef × ℕ)) : List (BlockRef × ℕ) :=
  calls.filter fun p => p.1.fileId ∉ r.obsolete

/-- The `WarmBlock` calls still to come, with the file sizes they would get now. -/
def Async.toCome (s : Async κ) : List (BlockRef × ℕ) :=
  s.warmQueue.pending.map fun b => (b, s.adapter.fileSize b.fileId)

/-! ### What a step does -/

/-- What the warm thread does: it works off the queue, and calls `WarmBlock` for every block. -/
theorem warmLoop_spec (eng : EngineOps κ) (s : Async κ) (hbound : s.adapter.bound = true) :
    (s.warmLoop eng).1.warmQueue = s.warmQueue.turn.1 ∧
    (s.warmLoop eng).1.returned = s.returned ∧
    (∃ n, (s.warmLoop eng).1.adapter = { s.adapter with warmed := n }) ∧
    (s.warmLoop eng).2.toList =
      s.warmQueue.turn.2.items.map fun b => (b, s.adapter.fileSize b.fileId) := by
  unfold Async.warmLoop
  dsimp only
  cases s.warmQueue.turn.2 with
  | quiet => exact ⟨rfl, rfl, ⟨_, rfl⟩, rfl⟩
  | item b =>
    refine ⟨rfl, rfl, ⟨s.adapter.warmed, rfl⟩, ?_⟩
    simp [hbound, TurnObs.items]
  | finished n => exact ⟨rfl, rfl, ⟨_, rfl⟩, rfl⟩

/-- **A turn of the warm thread makes the call it reports**, and does nothing else to the cache. -/
theorem warmLoop_cache (eng : EngineOps κ) (s : Async κ) (hbound : s.adapter.bound = true) :
    (s.warmLoop eng).1.cache = eng.warmAll (s.warmLoop eng).2.toList s.cache := by
  unfold Async.warmLoop Adapter.prefetch
  dsimp only
  cases s.warmQueue.turn.2 with
  | item b =>
    simp only [hbound, if_true]
    rfl
  | _ => rfl

/-- A hook is a finished file or is not. -/
theorem Call.finished_or (c : Call κ) :
    (∃ mono file size, c = ⟨mono, .outputFileFinished file size⟩) ∨
      ∀ file size, c.hook ≠ .outputFileFinished file size := by
  obtain ⟨mono, hook⟩ := c
  cases hook with
  | outputFileFinished file size => exact Or.inl ⟨mono, file, size, rfl⟩
  | _ => exact Or.inr (by simp)

/-- A hook that is no finished file is what it is without the warm thread. -/
theorem onHook_of_ne (eng : EngineOps κ) (s : Async κ) {c : Call κ}
    (hne : ∀ file size, c.hook ≠ .outputFileFinished file size) :
    s.onHook eng c =
      ({ s with
          adapter := (step eng ⟨s.adapter, s.cache⟩ c).1.adapter
          cache := (step eng ⟨s.adapter, s.cache⟩ c).1.cache },
        (step eng ⟨s.adapter, s.cache⟩ c).2) := by
  obtain ⟨mono, hook⟩ := c
  cases hook with
  | outputFileFinished file size => exact absurd rfl (hne file size)
  | _ => rfl

/-- Such a hook hands nothing over. -/
theorem step_warm_of_ne (eng : EngineOps κ) (s : State κ) {c : Call κ}
    (hne : ∀ file size, c.hook ≠ .outputFileFinished file size) : (step eng s c).2.warm = [] := by
  obtain ⟨mono, hook⟩ := c
  cases hook with
  | outputFileFinished file size => exact absurd rfl (hne file size)
  | _ => rfl

/-- Such a hook forgets at most the size of the file it reports as obsolete. -/
theorem step_fileSizes_of_ne (eng : EngineOps κ) (s : State κ) {c : Call κ}
    (hne : ∀ file size, c.hook ≠ .outputFileFinished file size) :
    (step eng s c).1.adapter.bound = s.adapter.bound ∧
    ∀ file ∉ c.hook.obsoletes, (step eng s c).1.adapter.fileSizes file =
      s.adapter.fileSizes file := by
  obtain ⟨mono, hook⟩ := c
  cases hook with
  | outputFileFinished file size => exact absurd rfl (hne file size)
  | compactionEnd =>
    show s.adapter.onCompactionEnd.bound = _ ∧
      ∀ file ∉ _, s.adapter.onCompactionEnd.fileSizes file = _
    unfold Adapter.onCompactionEnd
    cases s.adapter.nested with
    | nil => exact ⟨rfl, fun _ _ => rfl⟩
    | cons j rest => exact ⟨rfl, fun _ _ => rfl⟩
  | fileObsolete file size blocks =>
    show (s.adapter.onFileObsolete eng s.cache file size blocks).1.bound = _ ∧
      ∀ file' ∉ _, (s.adapter.onFileObsolete eng s.cache file size blocks).1.fileSizes file' = _
    unfold Adapter.onFileObsolete
    by_cases hbound : s.adapter.bound = true
    · rw [if_pos hbound]
      refine ⟨by split_ifs <;> rfl, fun file' hfile' => ?_⟩
      have hother : file' ≠ file := by simpa [Hook.obsoletes] using hfile'
      by_cases hsize : 0 < size
      · simp only [if_pos hsize, Function.update_of_ne hother]
      · simp only [if_neg hsize, Function.update_of_ne hother]
    · rw [if_neg hbound]
      exact ⟨rfl, fun _ _ => rfl⟩
  | _ => exact ⟨rfl, fun _ _ => rfl⟩

/-- The blocks a finished file hands over: those pending for it, with the size just recorded. -/
theorem onOutputFileFinished_handed (s : Async κ) (file size : ℕ) :
    (s.onOutputFileFinished file size).2 =
      (s.adapter.takeFile file size).2.map (fun b => (b, size)) := by
  unfold Async.onOutputFileFinished
  simp only
  split_ifs with hempty
  · rw [hempty]
    rfl
  · exact map_fileSize_takeFile s.adapter file size

/-- The hook takes the file's blocks out of the adapter, with a warm thread or without. -/
theorem onOutputFileFinished_adapter (s : Async κ) (file size : ℕ) :
    (s.onOutputFileFinished file size).1.adapter = (s.adapter.takeFile file size).1 := by
  unfold Async.onOutputFileFinished
  simp only
  split_ifs <;> rfl

/-- Until the thread is stopped the blocks go to the end of its queue. -/
theorem onOutputFileFinished_pending {s : Async κ} (hstop : s.warmQueue.stop = false)
    (file size : ℕ) : (s.onOutputFileFinished file size).1.warmQueue.pending =
      s.warmQueue.pending ++ (s.adapter.takeFile file size).2 := by
  unfold Async.onOutputFileFinished
  simp only
  split_ifs with hempty
  · rw [hempty, List.append_nil]
  · exact WorkQueue.pending_enqueue hstop _

/-- The warm thread is where it was. -/
theorem onOutputFileFinished_worker (s : Async κ) (file size : ℕ) :
    (s.onOutputFileFinished file size).1.warmQueue.worker = s.warmQueue.worker ∧
    (s.onOutputFileFinished file size).1.warmQueue.stop = s.warmQueue.stop ∧
    (s.onOutputFileFinished file size).1.returned = s.returned := by
  unfold Async.onOutputFileFinished
  simp only
  split_ifs <;> exact ⟨rfl, rfl, rfl⟩

/-! ### File numbers are not used twice -/

/-- The files being written have numbers of their own, and nothing is handed over for them. -/
structure Fresh (g : Desk) (handed : List (BlockRef × ℕ)) : Prop where
  used : ∀ file, some file ∈ g.files → file ∈ g.used
  distinct : g.files.Pairwise fun a b => a = b → a = none
  closed : ∀ p ∈ handed, p.1.fileId ∈ g.used ∧ some p.1.fileId ∉ g.files

/-- A job that begins writes no file yet. -/
theorem Fresh.files_cons_none {files : List (Option ℕ)} {used : List ℕ}
    {handed : List (BlockRef × ℕ)} (h : Fresh ⟨files, used⟩ handed) :
    Fresh ⟨none :: files, used⟩ handed where
  used file hfile := h.used file (by simpa using hfile)
  distinct := List.pairwise_cons.mpr ⟨fun _ _ _ => rfl, h.distinct⟩
  closed p hp := ⟨(h.closed p hp).1, by simpa using (h.closed p hp).2⟩

/-- A job that ends takes its file along. -/
theorem Fresh.files_tail {g : Desk} {handed : List (BlockRef × ℕ)} (h : Fresh g handed) :
    Fresh { g with files := g.files.tail } handed where
  used file hfile := h.used file (List.mem_of_mem_tail hfile)
  distinct := h.distinct.tail
  closed p hp := ⟨(h.closed p hp).1, fun hmem => (h.closed p hp).2 (List.mem_of_mem_tail hmem)⟩

/-- A file that is started has a number never used before. -/
theorem Fresh.start {g : Desk} {handed : List (BlockRef × ℕ)} (h : Fresh g handed) {file : ℕ}
    (hnew : file ∉ g.used) :
    Fresh { files := some file :: g.files.tail, used := file :: g.used } handed where
  used file' hfile' := by
    rcases List.mem_cons.mp hfile' with heq | hold
    · rw [Option.some.inj heq]
      exact List.mem_cons_self
    · exact List.mem_cons_of_mem _ (h.used file' (List.mem_of_mem_tail hold))
  distinct := by
    refine List.pairwise_cons.mpr ⟨fun other hother heq => ?_, h.distinct.tail⟩
    exact absurd (h.used file (heq ▸ List.mem_of_mem_tail hother)) hnew
  closed p hp := by
    obtain ⟨hused, hopen⟩ := h.closed p hp
    refine ⟨List.mem_cons_of_mem _ hused, fun hmem => ?_⟩
    rcases List.mem_cons.mp hmem with heq | hold
    · exact hnew (Option.some.inj heq ▸ hused)
    · exact hopen (List.mem_of_mem_tail hold)

/-- No hook uses a number twice. -/
theorem Fresh.next {g : Desk} {handed : List (BlockRef × ℕ)} (h : Fresh g handed) {c : Call κ}
    (hok : (hooks κ).ok g c) : Fresh ((hooks κ).next g c) handed := by
  obtain ⟨mono, hook⟩ := c
  cases hook with
  | compactionBegin level isFlush inputs => exact h.files_cons_none
  | outputFileStart file => exact h.start hok.2
  | outputFileFinished file size => exact h.files_tail.files_cons_none
  | compactionEnd => exact h.files_tail
  | _ => exact h

/-- The current file is that of the innermost job. -/
theorem Desk.files_of_current {g : Desk} {file : ℕ} (h : g.current = some file) :
    g.files = some file :: g.files.tail := by
  unfold Desk.current at h
  cases hfiles : g.files with
  | nil => rw [hfiles] at h; cases h
  | cons f fs =>
    rw [hfiles] at h
    change f = some file at h
    rw [h]
    rfl

/-- Blocks of the file just finished are handed over. -/
theorem Fresh.finish {g : Desk} {handed new : List (BlockRef × ℕ)} (h : Fresh g handed) {file : ℕ}
    (hcur : g.current = some file) (hnew : ∀ p ∈ new, p.1.fileId = file) :
    Fresh { g with files := none :: g.files.tail } (handed ++ new) := by
  have hfiles := Desk.files_of_current hcur
  have hold := h.files_tail.files_cons_none
  refine ⟨hold.used, hold.distinct, fun p hp => ?_⟩
  rcases List.mem_append.mp hp with hp | hp
  · exact hold.closed p hp
  · rw [hnew p hp]
    refine ⟨h.used file (by rw [hfiles]; exact List.mem_cons_self), fun hmem => ?_⟩
    -- no other job is writing under this number
    have hdistinct := h.distinct
    rw [hfiles] at hdistinct
    have htail : some file ∈ g.files.tail := by simpa using hmem
    exact absurd ((List.pairwise_cons.mp hdistinct).1 _ htail rfl) (by simp)

/-! ### A step keeps the run and its record together -/

/-- **The run against its record.** What was started and what is to come, for files that are not
    obsolete, is what was handed over, in that order and with the sizes it was handed over with. -/
structure AsyncOk (refOf : ℕ → BlockInfo → BlockRef) (g : Desk) (s : Async κ) (r : AsyncRecord) :
    Prop where
  warm : Warm refOf g ⟨s.adapter, s.cache⟩ r.record
  bound : s.adapter.bound = true
  fresh : Fresh g r.record.warmed
  flow : s.warmQueue.stop = false → r.live (r.started ++ s.toCome) = r.live r.record.warmed
  exited : s.returned = true → s.warmQueue.worker = .exited

/-- An adapter with no job open and an empty queue. -/
theorem AsyncOk.initial (s : Async κ) (hbound : s.adapter.bound = true)
    (hpending : s.adapter.pendingWarm = []) (hnested : s.adapter.nested = [])
    (hqueue : s.warmQueue = {}) (hreturned : s.returned = false) :
    AsyncOk s.adapter.blockRef {} s {} := by
  refine ⟨Warm.initial ⟨s.adapter, s.cache⟩ hpending hnested, hbound, ⟨?_, List.Pairwise.nil, ?_⟩,
    fun _ => ?_, ?_⟩
  · exact fun file hfile => absurd hfile List.not_mem_nil
  · exact fun p hp => absurd hp List.not_mem_nil
  · unfold Async.toCome
    rw [hqueue]
    rfl
  · exact fun h => absurd (hreturned.symm.trans h) Bool.false_ne_true

namespace AsyncRecord

/-- What is live is decided block by block. -/
theorem live_append (r : AsyncRecord) (xs ys : List (BlockRef × ℕ)) :
    r.live (xs ++ ys) = r.live xs ++ r.live ys := List.filter_append ..

/-- Fewer files are live, and what agreed on them still does. -/
theorem live_mono {r r' : AsyncRecord} {gone : List ℕ} (h : r'.obsolete = gone ++ r.obsolete)
    {xs ys : List (BlockRef × ℕ)} (hlive : r.live xs = r.live ys) : r'.live xs = r'.live ys := by
  have hsplit : ∀ zs, r'.live zs = (r.live zs).filter fun p => p.1.fileId ∉ gone := by
    intro zs
    unfold live
    rw [List.filter_filter]
    apply List.filter_congr
    intro p _
    simp [h, not_or]
  rw [hsplit, hsplit, hlive]

/-- Calls to come depend on the sizes of live files only. -/
theorem live_toCome_congr (r : AsyncRecord) {a a' : Adapter} {bs : List BlockRef}
    (h : ∀ b ∈ bs, b.fileId ∉ r.obsolete → a'.fileSize b.fileId = a.fileSize b.fileId) :
    r.live (bs.map fun b => (b, a'.fileSize b.fileId)) =
      r.live (bs.map fun b => (b, a.fileSize b.fileId)) := by
  unfold live
  rw [List.filter_map, List.filter_map]
  apply List.map_congr_left
  intro b hb
  obtain ⟨hmem, hlive⟩ := List.mem_filter.mp hb
  rw [h b hmem (by simpa using hlive)]

end AsyncRecord

section Steps

variable {eng : EngineOps κ} {refOf : ℕ → BlockInfo → BlockRef} {g : Desk} {s : Async κ}
  {r : AsyncRecord}

/-- Hooks that finish no file hand nothing over. -/
theorem AsyncOk.hook_of_ne (h : AsyncOk refOf g s r) {c : Call κ} (hok : (hooks κ).ok g c)
    (hne : ∀ file size, c.hook ≠ .outputFileFinished file size) :
    AsyncOk refOf ((hooks κ).next g c) (asyncStep eng s (.hook c)).1
      (r.note refOf (.hook c) (asyncStep eng s (.hook c)).2) := by
  have hstep : asyncStep eng s (.hook c) =
      ((s.onHook eng c).1, { hook := (s.onHook eng c).2 }) := rfl
  rw [hstep, onHook_of_ne eng s hne]
  obtain ⟨hbound, hsizes⟩ := step_fileSizes_of_ne eng ⟨s.adapter, s.cache⟩ hne
  have hhanded : (r.record.note refOf c (step eng ⟨s.adapter, s.cache⟩ c).2).warmed =
      r.record.warmed := by
    rw [Record.note_warmed, step_warm_of_ne eng _ hne, List.append_nil]
  refine ⟨warm_step h.warm hok, hbound.trans h.bound, ?_, fun hstop => ?_, h.exited⟩
  · show Fresh _ (r.record.note refOf c _).warmed
    rw [hhanded]
    exact h.fresh.next hok
  · show AsyncRecord.live _ _ = AsyncRecord.live _ (r.record.note refOf c _).warmed
    rw [hhanded]
    refine Eq.trans ?_ (AsyncRecord.live_mono rfl (h.flow hstop))
    rw [AsyncRecord.live_append, AsyncRecord.live_append]
    congr 1
    apply AsyncRecord.live_toCome_congr
    intro b _ hlive
    have hfile : b.fileId ∉ c.hook.obsoletes := fun hmem => hlive (List.mem_append_left _ hmem)
    unfold Adapter.fileSize
    rw [hsizes b.fileId hfile]

/-- A finished file leaves the calls to come for other files as they were, and adds its own. -/
theorem AsyncOk.live_toCome_finish (h : AsyncOk refOf g s r) {file : ℕ}
    (hcur : g.current = some file) (size : ℕ) (hstop : s.warmQueue.stop = false) :
    r.live (s.onOutputFileFinished file size).1.toCome =
      r.live s.toCome ++ r.live (s.onOutputFileFinished file size).2 := by
  have hopen : some file ∈ g.files := by
    rw [Desk.files_of_current hcur]
    exact List.mem_cons_self
  unfold Async.toCome
  rw [onOutputFileFinished_pending hstop, onOutputFileFinished_adapter, List.map_append,
    AsyncRecord.live_append, onOutputFileFinished_handed, map_fileSize_takeFile]
  congr 1
  apply AsyncRecord.live_toCome_congr
  intro b hb hlive
  -- what was pending before belongs to files that are no longer written
  have hcall : (b, s.adapter.fileSize b.fileId) ∈ r.live r.record.warmed := by
    rw [← h.flow hstop, AsyncRecord.live, List.mem_filter]
    refine ⟨List.mem_append_right _ (List.mem_map.mpr ⟨b, hb, rfl⟩), by simpa using hlive⟩
  have hother : b.fileId ≠ file := by
    intro heq
    exact (h.fresh.closed _ (List.mem_filter.mp hcall).1).2 (heq ▸ hopen)
  simp [Adapter.fileSize, Adapter.takeFile, hother]

/-- The end of a file hands its granted blocks over. -/
theorem AsyncOk.finish (h : AsyncOk refOf g s r) {file : ℕ} (hcur : g.current = some file)
    (size mono : ℕ) :
    let c : Call κ := ⟨mono, .outputFileFinished file size⟩
    AsyncOk refOf ((hooks κ).next g c) (asyncStep eng s (.hook c)).1
      (r.note refOf (.hook c) (asyncStep eng s (.hook c)).2) := by
  intro c
  have hstep : asyncStep eng s (.hook c) = ((s.onOutputFileFinished file size).1,
      { hook := { warm := (s.onOutputFileFinished file size).2 } }) := rfl
  rw [hstep]
  obtain ⟨hworker, hstop', hret⟩ := onOutputFileFinished_worker s file size
  obtain ⟨hsync, hframes, hrefs⟩ := onOutputFileFinished_spec eng s.adapter s.cache file size
  have hadapter := onOutputFileFinished_adapter s file size
  have hhanded := onOutputFileFinished_handed s file size
  have hnew : ∀ p ∈ (s.onOutputFileFinished file size).2, p.1.fileId = file := by
    intro p hp
    rw [hhanded] at hp
    obtain ⟨b, hb, rfl⟩ := List.mem_map.mp hp
    exact fileId_of_mem_takeFile hb
  -- the record is what it would be without the warm thread
  have hobs : (step eng ⟨s.adapter, s.cache⟩ c).2 =
      { warm := (s.onOutputFileFinished file size).2 } := by
    rw [hhanded]
    show HookObs.mk [] [] none _ = _
    rw [hsync]
    rfl
  have hwarm : Warm refOf ((hooks κ).next g c) (step eng ⟨s.adapter, s.cache⟩ c).1
      (r.record.note refOf c (step eng ⟨s.adapter, s.cache⟩ c).2) := warm_step h.warm hcur
  rw [hobs] at hwarm
  have hrecord : (r.record.note refOf c { warm := (s.onOutputFileFinished file size).2 }).warmed =
      r.record.warmed ++ (s.onOutputFileFinished file size).2 := Record.note_warmed ..
  refine ⟨hwarm.congr ?_ ?_, ?_, ?_, fun hstop => ?_, fun hreturned => ?_⟩
  · show (s.onOutputFileFinished file size).1.adapter.frames =
      (s.adapter.onOutputFileFinished eng s.cache file size).1.frames
    rw [hadapter, hframes]
    rfl
  · show (s.onOutputFileFinished file size).1.adapter.blockRef =
      (s.adapter.onOutputFileFinished eng s.cache file size).1.blockRef
    rw [hadapter, hrefs]
    rfl
  · show (s.onOutputFileFinished file size).1.adapter.bound = true
    rw [hadapter]
    exact h.bound
  · show Fresh _ (r.record.note refOf c _).warmed
    rw [hrecord]
    exact h.fresh.finish hcur hnew
  · have hstop₀ := hstop'.symm.trans hstop
    show r.live (r.started ++ (s.onOutputFileFinished file size).1.toCome) =
      r.live (r.record.note refOf c _).warmed
    rw [hrecord, AsyncRecord.live_append, AsyncRecord.live_append, ← h.flow hstop₀,
      AsyncRecord.live_append, List.append_assoc, h.live_toCome_finish hcur size hstop₀]
  · show (s.onOutputFileFinished file size).1.warmQueue.worker = .exited
    rw [hworker]
    exact h.exited (hret.symm.trans hreturned)

/-- A turn of the warm thread moves a block from the queue to what has been started. -/
theorem AsyncOk.warmTurn (h : AsyncOk refOf g s r) :
    AsyncOk refOf g (asyncStep eng s .warm).1
      (r.note refOf (.warm : AsyncAct κ) (asyncStep eng s .warm).2) := by
  obtain ⟨hqueue, hret, ⟨n, hadapter⟩, hstarted⟩ := warmLoop_spec eng s h.bound
  refine ⟨h.warm.congr ?_ ?_, ?_, h.fresh, fun hstop => ?_, fun hreturned => ?_⟩
  · show (s.warmLoop eng).1.adapter.frames = _
    rw [hadapter]
    rfl
  · show (s.warmLoop eng).1.adapter.blockRef = _
    rw [hadapter]
    rfl
  · show (s.warmLoop eng).1.adapter.bound = true
    rw [hadapter]
    exact h.bound
  · change (s.warmLoop eng).1.warmQueue.stop = false at hstop
    rw [hqueue, WorkQueue.stop_turn] at hstop
    show r.live (r.started ++ (s.warmLoop eng).2.toList ++ (s.warmLoop eng).1.toCome) =
      r.live r.record.warmed
    rw [← h.flow hstop]
    unfold Async.toCome
    rw [hstarted, hqueue, hadapter, List.append_assoc]
    change r.live (r.started ++ (List.map _ _ ++
      List.map (fun b => (b, s.adapter.fileSize b.fileId)) _)) = _
    rw [← List.map_append, WorkQueue.item_append_pending_turn]
  · change (s.warmLoop eng).1.returned = true at hreturned
    show (s.warmLoop eng).1.warmQueue.worker = .exited
    have hexited := h.exited (hret.symm.trans hreturned)
    rw [hqueue, WorkQueue.turn_of_exited hexited]
    exact hexited

/-- **One step keeps the run and its record together.** -/
theorem async_step (h : AsyncOk refOf g s r) {a : AsyncAct κ} (hok : (asyncHooks κ).ok g a) :
    AsyncOk refOf ((asyncHooks κ).next g a) (asyncStep eng s a).1
      (r.note refOf a (asyncStep eng s a).2) := by
  cases a with
  | hook c =>
    rcases c.finished_or with ⟨mono, file, size, rfl⟩ | hfin
    · exact h.finish hok size mono
    · exact h.hook_of_ne hok hfin
  | warm => exact h.warmTurn
  | shutdown =>
    have hnote : r.note refOf (.shutdown : AsyncAct κ) {} = r := by simp [AsyncRecord.note]
    show AsyncOk refOf g _ (r.note refOf (.shutdown : AsyncAct κ) {})
    rw [hnote]
    refine ⟨h.warm, h.bound, h.fresh, fun hstop => ?_, h.exited⟩
    cases hstop
  | join =>
    have hnote : r.note refOf (.join : AsyncAct κ) {} = r := by simp [AsyncRecord.note]
    show AsyncOk refOf g _ (r.note refOf (.join : AsyncAct κ) {})
    rw [hnote]
    refine ⟨h.warm, h.bound, h.fresh, h.flow, fun hreturned => ?_⟩
    rcases Bool.or_eq_true_iff.mp hreturned with hold | hnow
    · exact h.exited hold
    · exact of_decide_eq_true hnow

end Steps

/-! ### What the warm thread may still start -/

/-- The step is the end of this output file. -/
def AsyncAct.finishes (file : ℕ) : AsyncAct κ → Bool
  | .hook ⟨_, .outputFileFinished file' _⟩ => file' = file
  | _ => false

section Pending

variable (eng : EngineOps κ) {s : Async κ}

/-- No step unbinds the adapter. -/
theorem bound_step (hbound : s.adapter.bound = true) (a : AsyncAct κ) :
    (asyncStep eng s a).1.adapter.bound = true := by
  cases a with
  | hook c =>
    rcases c.finished_or with ⟨mono, file, size, rfl⟩ | hfin
    · show (s.onOutputFileFinished file size).1.adapter.bound = true
      rw [onOutputFileFinished_adapter]
      exact hbound
    · show (s.onHook eng c).1.adapter.bound = true
      rw [onHook_of_ne eng s hfin]
      exact (step_fileSizes_of_ne eng ⟨s.adapter, s.cache⟩ hfin).1.trans hbound
  | warm =>
    obtain ⟨-, -, ⟨n, hadapter⟩, -⟩ := warmLoop_spec eng s hbound
    show (s.warmLoop eng).1.adapter.bound = true
    rw [hadapter]
    exact hbound
  | shutdown => exact hbound
  | join => exact hbound

/-- **What a step can add**: only the end of an output file adds blocks, and they are its own.
    A call is started for a block that was pending. -/
theorem pending_step (hbound : s.adapter.bound = true) {a : AsyncAct κ} {file : ℕ}
    (ha : a.finishes file = false) (hnone : ∀ b ∈ s.warmQueue.pending, b.fileId ≠ file) :
    (∀ b ∈ (asyncStep eng s a).1.warmQueue.pending, b.fileId ≠ file) ∧
    ∀ p ∈ (asyncStep eng s a).2.started, p.1.fileId ≠ file := by
  cases a with
  | hook c =>
    refine ⟨?_, by simp [asyncStep]⟩
    rcases c.finished_or with ⟨mono, file', size, rfl⟩ | hfin
    · -- another file is finished, and its blocks are queued under its own number
      have hother : file' ≠ file := of_decide_eq_false ha
      intro b hb
      change b ∈ (s.onOutputFileFinished file' size).1.warmQueue.pending at hb
      unfold Async.onOutputFileFinished at hb
      simp only at hb
      split_ifs at hb
      · exact hnone b hb
      · rcases WorkQueue.mem_pending_enqueue hb with hold | hnew
        · exact hnone b hold
        · rw [fileId_of_mem_takeFile hnew]
          exact hother
    · show ∀ b ∈ (s.onHook eng c).1.warmQueue.pending, b.fileId ≠ file
      rw [onHook_of_ne eng s hfin]
      exact hnone
  | warm =>
    obtain ⟨hqueue, -, -, hstarted⟩ := warmLoop_spec eng s hbound
    -- the thread takes a block from the queue and puts none there
    have hall : ∀ b ∈ s.warmQueue.turn.2.items ++ s.warmQueue.turn.1.pending, b.fileId ≠ file := by
      rw [WorkQueue.item_append_pending_turn]
      exact hnone
    constructor
    · intro b hb
      change b ∈ (s.warmLoop eng).1.warmQueue.pending at hb
      rw [hqueue] at hb
      exact hall b (List.mem_append_right _ hb)
    · intro p hp
      have hmem : p ∈ (s.warmLoop eng).2.toList := Option.mem_toList.mpr hp
      rw [hstarted] at hmem
      obtain ⟨b, hb, rfl⟩ := List.mem_map.mp hmem
      exact hall b (List.mem_append_left _ hb)
  | shutdown =>
    exact ⟨fun b hb => hnone b (WorkQueue.mem_pending_requestStop hb), by simp [asyncStep]⟩
  | join => exact ⟨hnone, by simp [asyncStep]⟩

/-- A run that does not finish the file again starts nothing for it, if nothing was pending. -/
theorem outs_not_started {file : ℕ} (after : List (AsyncAct κ)) : ∀ {s : Async κ},
    s.adapter.bound = true → (∀ a ∈ after, a.finishes file = false) →
    (∀ b ∈ s.warmQueue.pending, b.fileId ≠ file) →
    ∀ o ∈ outs (asyncStep eng) s after, ∀ p ∈ o.started, p.1.fileId ≠ file := by
  induction after with
  | nil => exact fun _ _ _ o ho => absurd ho List.not_mem_nil
  | cons a after ih =>
    intro s hbound hafter hnone o ho
    obtain ⟨hpending, hstarted⟩ := pending_step eng hbound (hafter a List.mem_cons_self) hnone
    rcases List.mem_cons.mp ho with rfl | hrest
    · exact hstarted
    · exact ih (bound_step eng hbound a) (fun a' ha' => hafter a' (List.mem_cons_of_mem _ ha'))
        hpending
        o hrest

/-- **The warm thread alone works off what is pending.** -/
theorem outs_warm (n : ℕ) : ∀ {s : Async κ}, s.adapter.bound = true →
    (outs (asyncStep eng) s (List.replicate n .warm)).flatMap
        (fun o => o.started.toList.map (·.1)) ++
        (run (asyncStep eng) s (List.replicate n .warm)).warmQueue.pending = s.warmQueue.pending ∧
    (run (asyncStep eng) s (List.replicate n .warm)).warmQueue.load = s.warmQueue.load - n := by
  induction n with
  | zero => exact fun _ => ⟨rfl, rfl⟩
  | succ n ih =>
    intro s hbound
    obtain ⟨hqueue, -, -, hstarted⟩ := warmLoop_spec eng s hbound
    obtain ⟨hpending, hload⟩ := ih (bound_step eng hbound .warm)
    have hqueue' : (asyncStep eng s .warm).1.warmQueue = s.warmQueue.turn.1 := hqueue
    have hstarted' : (asyncStep eng s .warm).2.started.toList.map (·.1) =
        s.warmQueue.turn.2.items := by
      show (s.warmLoop eng).2.toList.map (·.1) = _
      rw [hstarted, List.map_map]
      exact List.map_id _
    rw [hqueue'] at hpending hload
    rw [List.replicate_succ, outs_cons, run_cons, List.flatMap_cons, hstarted']
    constructor
    · rw [List.append_assoc, hpending, WorkQueue.item_append_pending_turn]
    · rw [hload, WorkQueue.load_turn]
      omega

/-- **Later steps start something for a file exactly if something is pending for it**, as long as
    they do not finish the file again. -/
theorem never_started_iff (hbound : s.adapter.bound = true) (file : ℕ) :
    (∀ after : List (AsyncAct κ), (∀ a ∈ after, a.finishes file = false) →
      ∀ o ∈ outs (asyncStep eng) s after, ∀ p ∈ o.started, p.1.fileId ≠ file) ↔
    ∀ b ∈ s.warmQueue.pending, b.fileId ≠ file := by
  constructor
  · -- the warm thread's next turns start whatever is pending
    intro hall b hb heq
    obtain ⟨hwork, hload⟩ := outs_warm eng s.warmQueue.load hbound
    rw [WorkQueue.pending_eq_nil_of_load (hload.trans (Nat.sub_self _)), List.append_nil] at hwork
    rw [← hwork] at hb
    obtain ⟨o, ho, hstarted⟩ := List.mem_flatMap.mp hb
    obtain ⟨p, hp, rfl⟩ := List.mem_map.mp hstarted
    refine hall _ (fun a ha => ?_) o ho p (Option.mem_toList.mp hp) heq
    rw [List.eq_of_mem_replicate ha]
    rfl
  · intro hnone after hafter
    exact outs_not_started eng after hbound hafter hnone

/-- A thread that has left starts nothing and does not come back. -/
theorem exited_step (hbound : s.adapter.bound = true) (hexited : s.warmQueue.worker = .exited)
    (a : AsyncAct κ) :
    (asyncStep eng s a).1.warmQueue.worker = .exited ∧ (asyncStep eng s a).2.started = none := by
  cases a with
  | hook c =>
    refine ⟨?_, rfl⟩
    rcases c.finished_or with ⟨mono, file, size, rfl⟩ | hfin
    · exact (onOutputFileFinished_worker s file size).1.trans hexited
    · show (s.onHook eng c).1.warmQueue.worker = .exited
      rw [onHook_of_ne eng s hfin]
      exact hexited
  | warm =>
    obtain ⟨hqueue, -, -, hstarted⟩ := warmLoop_spec eng s hbound
    rw [WorkQueue.turn_of_exited hexited] at hqueue hstarted
    refine ⟨?_, Option.toList_eq_nil_iff.mp hstarted⟩
    show (s.warmLoop eng).1.warmQueue.worker = .exited
    rw [hqueue]
    exact hexited
  | shutdown => exact ⟨hexited, rfl⟩
  | join => exact ⟨hexited, rfl⟩

/-- **Once the thread has left, nothing is started.** -/
theorem outs_exited (after : List (AsyncAct κ)) : ∀ {s : Async κ}, s.adapter.bound = true →
    s.warmQueue.worker = .exited → ∀ o ∈ outs (asyncStep eng) s after, o.started = none := by
  induction after with
  | nil => exact fun _ _ o ho => absurd ho List.not_mem_nil
  | cons a after ih =>
    intro s hbound hexited o ho
    obtain ⟨hkeep, hnone⟩ := exited_step eng hbound hexited a
    rcases List.mem_cons.mp ho with rfl | hrest
    · exact hnone
    · exact ih (bound_step eng hbound a) hkeep o hrest

end Pending

/-- **The requests to warm.** From a fresh adapter with an engine bound, along any interleaving of
    well-bracketed hooks with the warm thread and `Shutdown`, and at every point of it:

    * after `OnFileObsolete` of a file, nothing is ever started for it (it does not come back as
      an output file) exactly if nothing was pending for it;
    * unless `Shutdown` was called, the calls started and those to come are, for the files that
      are not obsolete, the granted blocks of finished files, each once and with the size of its
      file; and a number of turns of the warm thread leaves none to come;
    * once `Shutdown` has returned, nothing is started;
    * what the warm thread does to the cache is the `WarmBlock` call it starts. -/
theorem warm_requests (eng : EngineOps κ) (s : Async κ) (hbound : s.adapter.bound = true)
    (hpending : s.adapter.pendingWarm = []) (hnested : s.adapter.nested = [])
    (hqueue : s.warmQueue = {}) (hreturned : s.returned = false) {acts : List (AsyncAct κ)}
    (hacc : (asyncHooks κ).Accepts {} acts) :
    let t := run (asyncStep eng) s acts
    let r := watch (asyncStep eng) (AsyncRecord.note s.adapter.blockRef) s {} acts
    (∀ mono file size blocks,
      (∀ after : List (AsyncAct κ), (∀ a ∈ after, a.finishes file = false) →
        ∀ o ∈ outs (asyncStep eng)
          (asyncStep eng t (.hook ⟨mono, .fileObsolete file size blocks⟩)).1
          after, ∀ p ∈ o.started, p.1.fileId ≠ file) ↔
      ∀ b ∈ t.warmQueue.pending, b.fileId ≠ file) ∧
    (t.warmQueue.stop = false →
      (r.live (r.started ++ t.toCome)).Perm (r.live r.record.due) ∧
      ∀ n ≥ t.warmQueue.load,
        (run (asyncStep eng) s (acts ++ List.replicate n .warm)).warmQueue.pending = []) ∧
    (t.returned = true → ∀ after, ∀ o ∈ outs (asyncStep eng) t after, o.started = none) ∧
    (asyncStep eng t .warm).1.cache =
      eng.warmAll (asyncStep eng t .warm).2.started.toList t.cache := by
  intro t r
  have hok : AsyncOk s.adapter.blockRef ((asyncHooks κ).after {} acts) t r := by
    apply (asyncHooks κ).watch_invariant
      (P := fun g s' r => AsyncOk s.adapter.blockRef g s' r)
      (fun g s' r a hok h => async_step h hok) hacc
    exact AsyncOk.initial s hbound hpending hnested hqueue hreturned
  refine ⟨fun mono file size blocks => ?_, fun hstop => ⟨?_, fun n hn => ?_⟩, fun hret after => ?_,
    warmLoop_cache eng t hok.bound⟩
  · -- the hook itself leaves the queue alone
    have hne : ∀ file' size', (⟨mono, .fileObsolete file size blocks⟩ : Call κ).hook ≠
        .outputFileFinished file' size' := by simp
    have hsame : (asyncStep eng t (.hook ⟨mono, .fileObsolete file size blocks⟩)).1.warmQueue =
        t.warmQueue := by
      show (t.onHook eng _).1.warmQueue = _
      rw [onHook_of_ne eng t hne]
    rw [← hsame]
    exact never_started_iff eng (bound_step eng hok.bound _) file
  · rw [hok.flow hstop]
    exact hok.warm.perm.filter _
  · rw [run_append]
    apply WorkQueue.pending_eq_nil_of_load
    rw [(outs_warm eng n hok.bound).2]
    exact Nat.sub_eq_zero_of_le hn
  · exact outs_exited eng after hok.bound (hok.exited hret)

/-- The adapter of `warmAllAdapter` with a warm thread. -/
def warmAllAsync : Async (List (ℕ × ℕ × ℕ)) := { adapter := warmAllAdapter, cache := [] }

/-- Two files are written; the warm thread starts on the first one while the second is open. -/
def twoFiles : List (AsyncAct (List (ℕ × ℕ × ℕ))) :=
  [.hook ⟨0, .compactionBegin 1 false []⟩, .hook ⟨1, .outputFileStart 5⟩,
   .hook ⟨2, .outputBlock { size := 10 }⟩, .hook ⟨3, .outputBlock { size := 20, offset := 10 }⟩,
   .hook ⟨4, .outputFileFinished 5 100⟩, .warm, .warm, .hook ⟨5, .outputFileStart 6⟩,
   .hook ⟨6, .outputBlock { size := 30 }⟩, .warm, .hook ⟨7, .outputFileFinished 6 200⟩,
   .hook ⟨8, .compactionEnd⟩, .warm, .warm]

/-- What has been started and what is still to come is what the two files were granted. -/
theorem warm_requests_twoFiles :
    let r := watch (asyncStep listEngine) (AsyncRecord.note warmAllAsync.adapter.blockRef)
      warmAllAsync
      {} twoFiles
    (r.live (r.started ++ (run (asyncStep listEngine) warmAllAsync twoFiles).toCome)).Perm
      (r.live r.record.due) :=
  ((warm_requests listEngine warmAllAsync rfl rfl rfl rfl rfl
    (by decide +kernel : (asyncHooks (List (ℕ × ℕ × ℕ))).Accepts {} twoFiles)).2.1
    (by decide +kernel)).1

-- both blocks of file 5 are started; the batch of file 6 is taken, its block is still to come
example : (watch (asyncStep listEngine) (AsyncRecord.note warmAllAsync.adapter.blockRef)
      warmAllAsync
      {} twoFiles).started.map (fun p => (p.1.fileId, p.1.size, p.2)) =
        [(5, 10, 100), (5, 20, 100)] ∧
    (run (asyncStep listEngine) warmAllAsync twoFiles).toCome.map
        (fun p => (p.1.fileId, p.1.size, p.2)) =
      [(6, 30, 200)] := by
  decide +kernel

/-- A file is written and handed over, and deleted before the warm thread comes to it. -/
def lateWarm : List (AsyncAct (List (ℕ × ℕ × ℕ))) :=
  [.hook ⟨0, .compactionBegin 1 false []⟩, .hook ⟨1, .outputFileStart 5⟩,
   .hook ⟨2, .outputBlock { size := 10 }⟩, .hook ⟨3, .outputFileFinished 5 100⟩,
   .hook ⟨4, .compactionEnd⟩, .hook ⟨5, .fileObsolete 5 100 []⟩, .warm, .warm]

/-- **A warm request outlives its file.** The last step starts a `WarmBlock` call for file 5, two
    steps after `OnFileObsolete` of that file has returned; its size is no longer known. -/
theorem warm_after_obsolete :
    (asyncHooks (List (ℕ × ℕ × ℕ))).Accepts {} lateWarm ∧
    (outs (asyncStep listEngine) warmAllAsync lateWarm).map
        (fun o => o.started.map fun p => (p.1.fileId, p.2)) =
      [none, none, none, none, none, none, none, some (5, 0)] := by
  decide +kernel

end Leaper.LevelDB
