import Leaper.Core.Impl

namespace Leaper.LevelDB

open Lib

/-!
# The LevelDB adapter

`adapters/leveldb/leaper_leveldb.cc`: the hooks the patched engine calls, in front of the
core.  The adapter turns internal keys into ranges, keeps which output file a job is writing
and which of its blocks are to be warmed once the file is finished, and saves both for the
enclosing job while a nested one runs.

Warming is synchronous here (`warm_async` off).  The engine's operations work on a cache
state `κ`; the counters of failed operations and of time spent are left out.
-/

/-- `leveldb::LeaperBlockInfo`: a block with the internal keys that bound it. -/
structure BlockInfo where
  fileNumber : ℕ := 0
  offset : ℕ := 0
  size : ℕ := 0
  smallestKey : Bytes := []
  largestKey : Bytes := []
  deriving DecidableEq, Repr

/-- `leveldb::LeaperEngineOps`: a file is addressed by its number and size.  All of them may open
    the file's table on the way. -/
structure EngineOps (κ : Type*) where
  evictBlock (file fileSize offset : ℕ) : κ → κ
  warmBlock (file fileSize offset size : ℕ) : κ → κ
  isBlockCached (file fileSize offset : ℕ) : κ → κ × Bool

/-- `Adapter::NestedJob`: what is set aside for an enclosing job. -/
structure NestedJob where
  pendingWarm : List BlockRef
  currentOutput : ℕ
  deriving DecidableEq, Repr

/-- `leaper_leveldb::Adapter`.  `bound` says that `ops_` was set; `nested` has the innermost
    enclosing job first. -/
structure Adapter where
  core : LeaperImpl
  bound : Bool := true
  startUs : ℕ := 0
  maxRangeId : ℕ := 2 ^ 20
  currentOutput : ℕ := 0
  pendingWarm : List BlockRef := []
  nested : List NestedJob := []
  fileSizes : ℕ → Option ℕ := fun _ => none
  warmed : ℕ := 0

namespace Adapter

/-- `CacheBridge::FileSize`. -/
def fileSize (a : Adapter) (file : ℕ) : ℕ := (a.fileSizes file).getD 0

section Bridge

variable {κ : Type*} (eng : EngineOps κ)

/-- `CacheBridge`: `Evict` and `IsCached`. -/
def bridge (a : Adapter) : CacheOps κ where
  evict b cache :=
    if a.bound then eng.evictBlock b.fileId (a.fileSize b.fileId) b.offset cache else cache
  isCached b cache :=
    if a.bound then eng.isBlockCached b.fileId (a.fileSize b.fileId) b.offset cache
    else (cache, false)

/-- `CacheBridge::Prefetch`. -/
def prefetch (a : Adapter) (b : BlockRef) (cache : κ) : κ :=
  if a.bound then eng.warmBlock b.fileId (a.fileSize b.fileId) b.offset b.size cache else cache

end Bridge

/-- `NowUs`; `mono` is the monotonic clock. -/
def nowUs (a : Adapter) (mono : ℕ) : ℕ := sub64 mono a.startUs

/-- `MapInternalKey`: the user key is the internal key without its eight-byte tag. -/
def mapInternalKey (a : Adapter) (k : Bytes) : ℕ :=
  a.core.mapper.map (k.take (if 8 ≤ k.length then k.length - 8 else k.length))

/-- `RangeOfInternalKey`. -/
def rangeOfInternalKey (a : Adapter) (k : Bytes) : ℕ := min (a.mapInternalKey k) a.maxRangeId

/-- A block of a file as the core sees it; bounds that came the wrong way round are swapped. -/
def blockRef (a : Adapter) (file : ℕ) (b : BlockInfo) : BlockRef :=
  let first := a.rangeOfInternalKey b.smallestKey
  let last := a.rangeOfInternalKey b.largestKey
  if last < first then ⟨file, b.offset, b.size, last, first⟩
  else ⟨file, b.offset, b.size, first, last⟩

/-- `OnGet` and `OnSeek` (reads), `OnPut` (writes). -/
def onAccess (a : Adapter) (isWrite : Bool) (userKey : Bytes) (mono : ℕ) : Adapter :=
  { a with core := a.core.onAccess isWrite userKey (a.nowUs mono) }

/-- The adapter's own part of `OnCompactionBegin`: set the enclosing job aside. -/
def pushJob (a : Adapter) : Adapter :=
  { a with
    nested := ⟨a.pendingWarm, a.currentOutput⟩ :: a.nested
    pendingWarm := []
    currentOutput := 0 }

/-- `OnCompactionBegin`.  A compaction reports how many of its inputs are cached first. -/
def onCompactionBegin {κ : Type*} (eng : EngineOps κ) (a : Adapter) (cache : κ) (level : ℤ)
    (isFlush : Bool) (inputs : List BlockInfo) (mono : ℕ) : Adapter × Decision κ :=
  let blocks := inputs.map fun b => a.blockRef b.fileNumber b
  let a := a.pushJob
  let live := if isFlush then ([], cache) else LeaperImpl.cachedBlocks (a.bridge eng) blocks cache
  let core := if isFlush then a.core else a.core.recordInvalidation live.1.length
  let r := core.onCompactionBegin (a.bridge eng) live.2
    { level := level, isFlush := isFlush, estBlocks := blocks.length } blocks (a.nowUs mono)
  ({ a with core := r.1 }, r.2)

/-- `OnOutputFileStart`. -/
def onOutputFileStart (a : Adapter) (file : ℕ) : Adapter := { a with currentOutput := file }

/-- `OnOutputBlock`, with the core's answer. -/
def onOutputBlock (a : Adapter) (b : BlockInfo) : Adapter × Bool :=
  let r := a.blockRef a.currentOutput b
  let q := a.core.shouldPrefetch r
  ({ a with core := q.1, pendingWarm := if q.2 then a.pendingWarm ++ [r] else a.pendingWarm }, q.2)

/-- The loop of `WarmBatch`: prefetch one block after another.  What is passed to `Prefetch` is
    written down, with the file size looked up for it. -/
def prefetchAll {κ : Type*} (eng : EngineOps κ) (a : Adapter) :
    List BlockRef → κ → κ × List (BlockRef × ℕ)
  | [], cache => (cache, [])
  | b :: bs, cache =>
    let r := prefetchAll eng a bs (a.prefetch eng b cache)
    (r.1, (b, a.fileSize b.fileId) :: r.2)

/-- `WarmBatch`. -/
def warmBatch {κ : Type*} (eng : EngineOps κ) (a : Adapter) (warm : List BlockRef) (cache : κ) :
    Adapter × κ × List (BlockRef × ℕ) :=
  let r := prefetchAll eng a warm cache
  ({ a with warmed := a.warmed + warm.length }, r.1, r.2)

/-- The adapter's own part of `OnOutputFileFinished`: record the size, take the file's blocks. -/
def takeFile (a : Adapter) (file size : ℕ) : Adapter × List BlockRef :=
  ({ a with
      fileSizes := Function.update a.fileSizes file (some size)
      pendingWarm := a.pendingWarm.filter fun r => r.fileId ≠ file },
    a.pendingWarm.filter fun r => r.fileId = file)

/-- `OnOutputFileFinished`, with the blocks passed to `CacheBridge::Prefetch` and the file
    size each was looked up under. -/
def onOutputFileFinished {κ : Type*} (eng : EngineOps κ) (a : Adapter) (cache : κ)
    (file size : ℕ) : Adapter × κ × List (BlockRef × ℕ) :=
  let t := a.takeFile file size
  if t.2 = [] then (t.1, cache, [])
  else
    t.1.warmBatch eng t.2 cache

/-- `OnCompactionEnd`. -/
def onCompactionEnd (a : Adapter) : Adapter :=
  let a := { a with core := a.core.onCompactionEnd }
  match a.nested with
  | [] => a
  | j :: rest =>
    { a with pendingWarm := j.pendingWarm, currentOutput := j.currentOutput, nested := rest }

/-- `OnFileObsolete`; `blocks` is what `ForEachDataBlock` reports for the file. -/
def onFileObsolete {κ : Type*} (eng : EngineOps κ) (a : Adapter) (cache : κ) (file size : ℕ)
    (blocks : List BlockInfo) : Adapter × κ :=
  if a.bound then
    let a := if 0 < size then
        { a with fileSizes := Function.update a.fileSizes file (some size) } else a
    let r := a.core.onFileObsolete (a.bridge eng) cache
      (blocks.map fun b => { fileId := b.fileNumber, offset := b.offset, size := b.size })
    ({ a with core := r.1, fileSizes := Function.update a.fileSizes file none }, r.2.1)
  else (a, cache)

/-- `ResetClock`. -/
def resetClock (a : Adapter) (mono : ℕ) : Adapter := { a with startUs := mono }

end Adapter

/-! ### The adapter as a machine -/

/-- A hook, or a call of the adapter's owner, or a change of the cache by the engine. -/
inductive Hook (κ : Type*)
  | access (isWrite : Bool) (userKey : Bytes)
  | compactionBegin (level : ℤ) (isFlush : Bool) (inputs : List BlockInfo)
  | outputFileStart (file : ℕ)
  | outputBlock (block : BlockInfo)
  | outputFileFinished (file size : ℕ)
  | compactionEnd
  | fileObsolete (file size : ℕ) (blocks : List BlockInfo)
  | setQps (q : ℚ)
  | setHealth (missRatio : ℚ)
  | resetClock
  | engine (change : κ → κ)

/-- A hook called when the monotonic clock shows `mono`. -/
structure Call (κ : Type*) where
  mono : ℕ
  hook : Hook κ

/-- What a hook does to the outside: the hot sets a job was given, the answer for an output
    block, and the blocks passed to `Prefetch`, each with the file size it went with. -/
structure HookObs where
  hot1 : List ℕ := []
  hot2 : List ℕ := []
  answer : Option Bool := none
  warm : List (BlockRef × ℕ) := []
  deriving DecidableEq, Repr

/-- The adapter and the engine's cache. -/
structure State (κ : Type*) where
  adapter : Adapter
  cache : κ

/-- One hook. -/
def step {κ : Type*} (eng : EngineOps κ) (s : State κ) (c : Call κ) : State κ × HookObs :=
  match c.hook with
  | .access isWrite userKey => ({ s with adapter := s.adapter.onAccess isWrite userKey c.mono }, {})
  | .compactionBegin level isFlush inputs =>
    let r := s.adapter.onCompactionBegin eng s.cache level isFlush inputs c.mono
    (⟨r.1, r.2.cache⟩, { hot1 := r.2.hot1, hot2 := r.2.hot2 })
  | .outputFileStart file => ({ s with adapter := s.adapter.onOutputFileStart file }, {})
  | .outputBlock block =>
    let r := s.adapter.onOutputBlock block
    ({ s with adapter := r.1 }, { answer := some r.2 })
  | .outputFileFinished file size =>
    let r := s.adapter.onOutputFileFinished eng s.cache file size
    (⟨r.1, r.2.1⟩, { warm := r.2.2 })
  | .compactionEnd => ({ s with adapter := s.adapter.onCompactionEnd }, {})
  | .fileObsolete file size blocks =>
    let r := s.adapter.onFileObsolete eng s.cache file size blocks
    (⟨r.1, r.2⟩, {})
  | .setQps q => ({ s with adapter := { s.adapter with core := s.adapter.core.setQps q } }, {})
  | .setHealth m =>
    ({ s with adapter := { s.adapter with core := s.adapter.core.setHealth m } }, {})
  | .resetClock => ({ s with adapter := s.adapter.resetClock c.mono }, {})
  | .engine change => ({ s with cache := change s.cache }, {})

/-- An engine without a cache. -/
def noEngine : EngineOps Unit where
  evictBlock _ _ _ cache := cache
  warmBlock _ _ _ _ cache := cache
  isBlockCached _ _ _ cache := (cache, false)

/-- An engine whose cache is the list of the blocks it holds, with the file size each was warmed
    under. -/
def listEngine : EngineOps (List (ℕ × ℕ × ℕ)) where
  evictBlock file _ offset cache := cache.filter fun b => b.1 ≠ file ∨ b.2.2 ≠ offset
  warmBlock file fileSize offset _ cache := cache ++ [(file, fileSize, offset)]
  isBlockCached file _ offset cache := (cache, cache.any fun b => b.1 = file ∧ b.2.2 = offset)

/-- The cache after a list of `WarmBlock` calls. -/
def EngineOps.warmAll {κ : Type*} (eng : EngineOps κ) (calls : List (BlockRef × ℕ))
    (cache : κ) : κ :=
  calls.foldl (fun k x => eng.warmBlock x.1.fileId x.2 x.1.offset x.1.size k) cache

/-! ### What a hook can change -/

section Prefetch

variable {κ : Type*} (eng : EngineOps κ) (a : Adapter)

/-- What is passed to `Prefetch` is the batch. -/
theorem prefetchAll_calls (bs : List BlockRef) (cache : κ) :
    (a.prefetchAll eng bs cache).2 = bs.map fun b => (b, a.fileSize b.fileId) := by
  induction bs generalizing cache with
  | nil => rfl
  | cons b bs ih => exact congrArg (List.cons _) (ih _)

/-- **What is passed to `Prefetch` is warmed**, if there is an engine. -/
theorem prefetchAll_cache (hbound : a.bound = true) (bs : List BlockRef) (cache : κ) :
    (a.prefetchAll eng bs cache).1 = eng.warmAll (a.prefetchAll eng bs cache).2 cache := by
  induction bs generalizing cache with
  | nil => rfl
  | cons b bs ih =>
    show (a.prefetchAll eng bs (a.prefetch eng b cache)).1 = _
    rw [ih]
    show _ = eng.warmAll _ (eng.warmBlock b.fileId (a.fileSize b.fileId) b.offset b.size cache)
    rw [show a.prefetch eng b cache = _ from if_pos hbound]

/-- Prefetching reads the engine's binding and the file sizes alone. -/
theorem prefetchAll_congr {a a' : Adapter} (hbound : a.bound = a'.bound)
    (hsizes : a.fileSizes = a'.fileSizes) (bs : List BlockRef) (cache : κ) :
    a.prefetchAll eng bs cache = a'.prefetchAll eng bs cache := by
  have hsize : a.fileSize = a'.fileSize := by
    funext file
    unfold Adapter.fileSize
    rw [hsizes]
  induction bs generalizing cache with
  | nil => rfl
  | cons b bs ih =>
    unfold Adapter.prefetchAll Adapter.prefetch
    simp only [ih, hbound, hsize]

/-- A finished file in terms of the calls it makes: they are counted, and they are all that happens
    to the cache. -/
theorem onOutputFileFinished_calls (cache : κ) (file size : ℕ) :
    (a.onOutputFileFinished eng cache file size).1.warmed =
        a.warmed + (a.onOutputFileFinished eng cache file size).2.2.length ∧
      (a.bound = true → (a.onOutputFileFinished eng cache file size).2.1 =
        eng.warmAll (a.onOutputFileFinished eng cache file size).2.2 cache) := by
  unfold Adapter.onOutputFileFinished
  dsimp only
  split_ifs with hempty
  · exact ⟨rfl, fun _ => rfl⟩
  · refine ⟨?_, fun hbound => prefetchAll_cache eng (a.takeFile file size).1 hbound _ cache⟩
    show a.warmed + _ = a.warmed + (Adapter.prefetchAll eng _ _ cache).2.length
    rw [prefetchAll_calls, List.length_map]

end Prefetch

/-- Blocks are made with the mapper and the largest range id alone. -/
theorem blockRef_congr {a a' : Adapter} (hm : a'.core.mapper = a.core.mapper)
    (hr : a'.maxRangeId = a.maxRangeId) : a'.blockRef = a.blockRef := by
  ext file b
  all_goals unfold Adapter.blockRef Adapter.rangeOfInternalKey Adapter.mapInternalKey
  all_goals rw [hm, hr]

/-- An obsolete file touches counters and file sizes, whether or not an engine is bound. -/
theorem onFileObsolete_frame {κ : Type*} (eng : EngineOps κ) (a : Adapter) (cache : κ)
    (file size : ℕ)
    (blocks : List BlockInfo) : ∃ st sizes, (a.onFileObsolete eng cache file size blocks).1 =
      { a with core := { a.core with stats := st }, fileSizes := sizes } := by
  unfold Adapter.onFileObsolete
  by_cases hbound : a.bound = true
  · -- the size is recorded only if the engine gave one; the core then counts and evicts
    rw [if_pos hbound]
    by_cases hsize : 0 < size
    · simp only [if_pos hsize]
      obtain ⟨st, heq⟩ := a.core.onFileObsolete_frame
        (Adapter.bridge eng { a with fileSizes := Function.update a.fileSizes file (some size) })
        cache (blocks.map fun b => { fileId := b.fileNumber, offset := b.offset, size := b.size })
      exact ⟨st, _, by rw [heq]⟩
    · simp only [if_neg hsize]
      obtain ⟨st, heq⟩ := a.core.onFileObsolete_frame (a.bridge eng)
        cache (blocks.map fun b => { fileId := b.fileNumber, offset := b.offset, size := b.size })
      exact ⟨st, _, by rw [heq]⟩
  · rw [if_neg hbound]
    exact ⟨a.core.stats, a.fileSizes, rfl⟩

/-- No hook binds the engine anew or changes the options. -/
theorem step_settings {κ : Type*} (eng : EngineOps κ) (s : State κ) (c : Call κ) :
    (step eng s c).1.adapter.bound = s.adapter.bound ∧
      (step eng s c).1.adapter.core.opt = s.adapter.core.opt := by
  -- each hook is covered by the frame lemma of the core's function it calls
  obtain ⟨a, cache⟩ := s
  obtain ⟨mono, hook⟩ := c
  cases hook with
  | outputFileStart | setQps | setHealth | resetClock | engine => exact ⟨rfl, rfl⟩
  | access isWrite userKey =>
    obtain ⟨c, heq, -⟩ := a.core.onAccess_frame isWrite userKey (a.nowUs mono)
    refine ⟨rfl, ?_⟩
    show (a.core.onAccess isWrite userKey (a.nowUs mono)).opt = a.core.opt
    rw [heq]
  | compactionBegin level isFlush inputs =>
    refine ⟨rfl, ?_⟩
    show (if isFlush then a.pushJob.core else a.pushJob.core.recordInvalidation _).opt = a.core.opt
    split_ifs <;> rfl
  | outputBlock block =>
    refine ⟨rfl, ?_⟩
    show (a.core.shouldPrefetch (a.blockRef a.currentOutput block)).1.opt = a.core.opt
    obtain ⟨st, heq | ⟨-, -, heq⟩⟩ := a.core.shouldPrefetch_frame (a.blockRef a.currentOutput block)
      <;> rw [heq]
  | outputFileFinished file size =>
    show (a.onOutputFileFinished eng cache file size).1.bound = a.bound ∧ _
    unfold step Adapter.onOutputFileFinished
    dsimp only
    split_ifs <;> exact ⟨rfl, rfl⟩
  | compactionEnd =>
    obtain ⟨c, cs, heq⟩ := a.core.onCompactionEnd_frame
    show a.onCompactionEnd.bound = a.bound ∧ a.onCompactionEnd.core.opt = a.core.opt
    unfold Adapter.onCompactionEnd
    rw [heq]
    dsimp only
    cases a.nested <;> exact ⟨rfl, rfl⟩
  | fileObsolete file size blocks =>
    obtain ⟨st, sizes, heq⟩ := onFileObsolete_frame eng a cache file size blocks
    show (a.onFileObsolete eng cache file size blocks).1.bound = a.bound ∧
      (a.onFileObsolete eng cache file size blocks).1.core.opt = a.core.opt
    rw [heq]
    exact ⟨rfl, rfl⟩

/-- Every hook counts the blocks it passes to `Prefetch`. -/
theorem step_warmed {κ : Type*} (eng : EngineOps κ) (s : State κ) (c : Call κ) :
    (step eng s c).1.adapter.warmed = s.adapter.warmed + (step eng s c).2.warm.length := by
  obtain ⟨a, cache⟩ := s
  obtain ⟨mono, hook⟩ := c
  cases hook with
  | outputFileFinished file size => exact (onOutputFileFinished_calls eng a cache file size).1
  | compactionEnd =>
    show a.onCompactionEnd.warmed = a.warmed
    unfold Adapter.onCompactionEnd
    cases a.nested <;> rfl
  | fileObsolete file size blocks =>
    obtain ⟨st, sizes, heq⟩ := onFileObsolete_frame eng a cache file size blocks
    show (a.onFileObsolete eng cache file size blocks).1.warmed = a.warmed
    rw [heq]
  | _ => rfl

end Leaper.LevelDB
