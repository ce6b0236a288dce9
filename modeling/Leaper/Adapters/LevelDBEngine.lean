import Leaper.Adapters.LevelDBIndex
import Leaper.Adapters.LevelDBWarm
import Leaper.Lib.Words

namespace Leaper.LevelDB

open Lib

/-!
# The engine under the adapter

The other half of `leveldb-1.23-leaper-hooks.patch`: what `TableCache` and `Table` do for the
plug-in, and the places in `DBImpl` that call the hooks.  A block is kept in the block cache under
sixteen bytes, the id of its table and its offset (`EncodeBlockCacheKey`).

What the patch calls is the stock engine: `FindTable`, `BlockReader`, the block cache.  It is not
part of this development and comes in as a parameter (`Stock`), of which nothing is known but what
a theorem asks for by name (`Stock.Lawful`).

* `Stock.engineOps` — the operations the adapter is given;
* `dbStep` — the database, calling the hooks where the patch calls them;
* `Moves` — what may happen in the engine at any moment, inside a hook or between two: other
  threads read blocks, the cache drops some;
* `Stock.Lawful` — the stock engine does no more than that, apart from what it is called for.
-/

/-! ### The stock engine -/

/-- An open table, as the patch sees it: `rep_->cache_id` and the entries of the index block. -/
structure Table where
  cacheId : ℕ
  index : List IndexEntry

/-- **The stock engine**, as far as the patch calls it. -/
structure Stock (σ : Type*) where
  /-- `rep_->options.block_cache != nullptr` -/
  hasCache : Bool
  /-- `TableCache::FindTable`, with the table if it could be opened -/
  findTable (file size : ℕ) : σ → σ × Option Table
  /-- `cache_->Release`, after `FindTable` -/
  release (t : Table) : σ → σ
  /-- `Table::BlockReader` with `fill_cache`, and the deletion of the iterator it returns -/
  blockReader (t : Table) (offset size : ℕ) : σ → σ
  /-- `block_cache->Erase` -/
  erase (key : Bytes) : σ → σ
  /-- `block_cache->Lookup`, and `Release` if something was found -/
  lookup (key : Bytes) : σ → σ × Bool
  /-- `TableCache::Evict` -/
  evict (file : ℕ) : σ → σ

/-- `EncodeBlockCacheKey`. -/
def encodeBlockCacheKey (cacheId offset : ℕ) : Bytes := toBytes 8 cacheId ++ toBytes 8 offset

namespace Stock

variable {σ : Type*} (st : Stock σ)

/-! ### What the patch adds to `Table` and `TableCache` -/

/-- `Table::WarmBlock`. -/
def tableWarmBlock (t : Table) (offset size : ℕ) (s : σ) : σ :=
  if st.hasCache then st.blockReader t offset size s else s

/-- `Table::EvictBlock`. -/
def tableEvictBlock (t : Table) (offset : ℕ) (s : σ) : σ :=
  if st.hasCache then st.erase (encodeBlockCacheKey t.cacheId offset) s else s

/-- `Table::IsBlockCached`. -/
def tableIsBlockCached (t : Table) (offset : ℕ) (s : σ) : σ × Bool :=
  if st.hasCache then st.lookup (encodeBlockCacheKey t.cacheId offset) s else (s, false)

/-- The four operations of `TableCache` below have this shape: find the table, act on it, release
    it. -/
def withTable {ω : Type*} (file size : ℕ) (failed : ω) (act : Table → σ → σ × ω) (s : σ) : σ × ω :=
  match st.findTable file size s with
  | (s, none) => (s, failed)
  | (s, some t) =>
    let r := act t s
    (st.release t r.1, r.2)

/-- `TableCache::ForEachDataBlock`, with the blocks `cb` is called for.  Every `cb` there is stores
    the block and does nothing else. -/
def forEachDataBlock (file size : ℕ) : σ → σ × List BlockInfo :=
  st.withTable file size [] fun t s => (s, LevelDB.forEachDataBlock file none t.index)

/-- `TableCache::WarmBlock`. -/
def warmBlock (file fileSize offset size : ℕ) : σ → σ × Bool :=
  st.withTable file fileSize false fun t s => (st.tableWarmBlock t offset size s, true)

/-- `TableCache::EvictBlock`. -/
def evictBlock (file fileSize offset : ℕ) : σ → σ × Bool :=
  st.withTable file fileSize false fun t s => (st.tableEvictBlock t offset s, true)

/-- `TableCache::IsBlockCached`. -/
def isBlockCached (file fileSize offset : ℕ) : σ → σ × Bool :=
  st.withTable file fileSize false fun t s => st.tableIsBlockCached t offset s

/-- `LeaperOpsImpl`.  Whether a block could be warmed or evicted is only counted. -/
def engineOps : EngineOps σ where
  evictBlock file fileSize offset s := (st.evictBlock file fileSize offset s).1
  warmBlock file fileSize offset size s := (st.warmBlock file fileSize offset size s).1
  isBlockCached file fileSize offset s := st.isBlockCached file fileSize offset s

/-- The walk over the input files in `LeaperCompactionBegin`. -/
def walkInputs : List (ℕ × ℕ) → σ → σ × List BlockInfo
  | [], s => (s, [])
  | (file, size) :: files, s =>
    let r := st.forEachDataBlock file size s
    let q := walkInputs files r.1
    (q.1, r.2 ++ q.2)

end Stock

/-! ### The database -/

/-- `key_store`: the keys of the blocks, two for each. -/
def keyStore (blocks : List BlockInfo) : List Bytes :=
  blocks.flatMap fun b => [b.smallestKey, b.largestKey]

/-- The last loop of `LeaperCompactionBegin`: point block `i` at the copies of its keys. -/
def repoint (keys : List Bytes) (blocks : List BlockInfo) : List BlockInfo :=
  blocks.mapIdx fun i b =>
    { b with smallestKey := keys.getD (2 * i) [], largestKey := keys.getD (2 * i + 1) [] }

/-- The keys of block `i` are stored at `2 i` and `2 i + 1`. -/
theorem getD_keyStore : ∀ {blocks : List BlockInfo} {i : ℕ} {b : BlockInfo}, blocks[i]? = some b →
    (keyStore blocks).getD (2 * i) [] = b.smallestKey ∧
      (keyStore blocks).getD (2 * i + 1) [] = b.largestKey
  | c :: _, 0, b, h => by
    obtain rfl : c = b := by simpa using h
    exact ⟨rfl, rfl⟩
  | c :: blocks, i + 1, b, h => by
    -- the keys of the first block are two
    exact @getD_keyStore blocks i b (by simpa using h)

/-- Every block gets its own keys back. -/
theorem repoint_keyStore (blocks : List BlockInfo) : repoint (keyStore blocks) blocks = blocks := by
  refine List.mapIdx_eq_iff.mpr fun i => ?_
  cases hb : blocks[i]? with
  | none => rfl
  | some b =>
    obtain ⟨hfirst, hsecond⟩ := getD_keyStore hb
    rw [Option.map_some, hfirst, hsecond]

/-- The blocks `LeaperCompactionBegin` reports for a memtable: one pseudo-block with its span. -/
def memBlocks : Option (Bytes × Bytes) → List BlockInfo
  | none => []
  | some span => repoint [span.1, span.2] [{}]

/-- What happens in the database: the places where the patch calls the hooks, the calls of the
    adapter's owner, and whatever else the engine does.  Inputs come with their numbers and sizes,
    an obsolete file with what `GetFileSize` said. -/
inductive DbEvent (σ : Type*)
  | access (isWrite : Bool) (userKey : Bytes)
  | compactionBegin (level : ℤ) (inputs : List (ℕ × ℕ))
  | flushBegin (span : Option (Bytes × Bytes))
  | outputFileStart (file : ℕ)
  | outputBlock (block : BlockInfo)
  | outputFileFinished (file size : ℕ)
  | compactionEnd
  | removeObsoleteFile (file size : ℕ)
  | setQps (q : ℚ)
  | setHealth (missRatio : ℚ)
  | resetClock
  | engine (change : σ → σ)

namespace DbEvent

variable {σ : Type*} (st : Stock σ)

/-- The blocks reported with an event, and the engine after they were looked up.  A compaction's
    inputs are walked before the hook, an obsolete file inside it, if there is an engine. -/
def blocks (bound : Bool) : DbEvent σ → σ → σ × List BlockInfo
  | .compactionBegin _ inputs, s => st.walkInputs inputs s
  | .flushBegin span, s => (s, memBlocks span)
  | .removeObsoleteFile file size, s => if bound then st.forEachDataBlock file size s else (s, [])
  | _, s => (s, [])

/-- The hook an event calls. -/
def hook (blocks : List BlockInfo) : DbEvent σ → Hook σ
  | .access isWrite userKey => .access isWrite userKey
  | .compactionBegin level _ => .compactionBegin level false (repoint (keyStore blocks) blocks)
  | .flushBegin _ => .compactionBegin 0 true blocks
  | .outputFileStart file => .outputFileStart file
  | .outputBlock block => .outputBlock block
  | .outputFileFinished file size => .outputFileFinished file size
  | .compactionEnd => .compactionEnd
  | .removeObsoleteFile file size => .fileObsolete file size blocks
  | .setQps q => .setQps q
  | .setHealth m => .setHealth m
  | .resetClock => .resetClock
  | .engine change => .engine change

/-- What is done to the engine after the hook: the table of an obsolete file is closed. -/
def close : DbEvent σ → σ → σ
  | .removeObsoleteFile file _ => st.evict file
  | _ => id

end DbEvent

/-- What the database does at an event, and what the adapter answers. -/
def dbStep {σ : Type*} (st : Stock σ) (s : State σ) (x : ℕ × DbEvent σ) : State σ × HookObs :=
  let b := x.2.blocks st s.adapter.bound s.cache
  let r := step st.engineOps ⟨s.adapter, b.1⟩ ⟨x.1, x.2.hook b.2⟩
  (⟨r.1.adapter, x.2.close st r.1.cache⟩, r.2)

/-- No event binds the engine anew or changes the options. -/
theorem dbStep_settings {σ : Type*} (st : Stock σ) (s : State σ) (x : ℕ × DbEvent σ) :
    (dbStep st s x).1.adapter.bound = s.adapter.bound ∧
      (dbStep st s x).1.adapter.core.opt = s.adapter.core.opt :=
  step_settings st.engineOps _ ⟨x.1, _⟩

/-! ### Laws of the stock engine -/

/-- The extents of the data blocks an index lists. -/
def extents (index : List IndexEntry) : List (ℕ × ℕ) := index.filterMap (·.handle)

/-- A key of a data block that the table lists. -/
def Table.Lists (t : Table) (key : Bytes) : Prop :=
  ∃ x ∈ extents t.index, key = encodeBlockCacheKey t.cacheId x.1

/-- What can be seen of an engine's state: the keys in the block cache, the tables in the table
    cache, and the files that no version refers to any more and no job is writing. -/
structure View (σ : Type*) where
  cached : σ → Bytes → Prop
  opened : σ → ℕ → Option Table
  dead : σ → ℕ → Prop

section Moves

variable {σ : Type*} (v : View σ)

/-- **What may happen in the engine at any moment**, while it takes the keys `taken` out of the
    block cache and puts the keys `put` in.  Keys may go, and other threads may read blocks that
    open tables list, of files that are not dead.  Tables stay open, and dead files dead. -/
structure Moves (taken put : Set Bytes) (s s' : σ) : Prop where
  cached : ∀ key, v.cached s' key → (v.cached s key ∧ key ∉ taken) ∨ key ∈ put ∨
    ∃ file t, v.opened s' file = some t ∧ ¬ v.dead s file ∧ t.Lists key
  opened : ∀ file t, v.opened s file = some t → v.opened s' file = some t
  dead : ∀ file, v.dead s file → v.dead s' file

/-- **What is asked of the stock engine.** -/
structure Stock.Lawful (st : Stock σ) (index : ℕ → List IndexEntry) : Prop where
  /-- A file has one index, whenever it is opened. -/
  index_eq : ∀ s file t, v.opened s file = some t → t.index = index file
  /-- The entries of an index decode. -/
  decodes : ∀ file, ∀ e ∈ index file, e.handle ≠ none
  /-- Without a block cache there are no cached blocks. -/
  cacheless : st.hasCache = false → ∀ s key, ¬ v.cached s key
  /-- `FindTable` leaves the table open if it succeeds, and it succeeds if the table is open. -/
  findTable : ∀ file size s, Moves v ∅ ∅ s (st.findTable file size s).1
  found : ∀ file size s, v.opened (st.findTable file size s).1 file = (st.findTable file size s).2
  /-- A table that is released stays in the table cache, which has room for every table. -/
  release : ∀ t s, Moves v ∅ ∅ s (st.release t s)
  /-- A block that is read is cached under its table's id and its offset, if at all. -/
  blockReader : ∀ t offset size s,
    Moves v ∅ {encodeBlockCacheKey t.cacheId offset} s (st.blockReader t offset size s)
  /-- An erased key is gone, unless a reader has put it back. -/
  erase : ∀ key s, Moves v {key} ∅ s (st.erase key s)
  lookup : ∀ key s, Moves v ∅ ∅ s (st.lookup key s).1
  /-- `Evict` closes one table, and leaves the block cache to itself. -/
  evict : ∀ file s key, v.cached (st.evict file s) key → v.cached s key ∨
    ∃ f t, v.opened (st.evict file s) f = some t ∧ t.Lists key
  evict_opened : ∀ file s f t, f ≠ file → v.opened s f = some t →
    v.opened (st.evict file s) f = some t

end Moves

namespace Moves

variable {σ : Type*} {v : View σ} {taken put : Set Bytes} {s s' s'' : σ}

/-- Nothing has to move. -/
theorem refl (s : σ) : Moves v ∅ ∅ s s :=
  ⟨fun _ h => Or.inl ⟨h, Set.notMem_empty _⟩, fun _ _ h => h, fun _ h => h⟩

/-- Two moves are one, if only the second puts something in. -/
theorem trans {taken' : Set Bytes} (h : Moves v taken ∅ s s') (h' : Moves v taken' put s' s'') :
    Moves v (taken ∪ taken') put s s'' where
  cached key hkey := by
    rcases h'.cached key hkey with ⟨hmid, hnot'⟩ | hput | ⟨file, t, ht, hlive, hlists⟩
    · rcases h.cached key hmid with ⟨hold, hnot⟩ | hempty | ⟨file, t, ht, hlive, hlists⟩
      · exact Or.inl ⟨hold, fun hin => hin.elim hnot hnot'⟩
      · exact absurd hempty (Set.notMem_empty key)
      · exact Or.inr (Or.inr ⟨file, t, h'.opened file t ht, hlive, hlists⟩)
    · exact Or.inr (Or.inl hput)
    · exact Or.inr (Or.inr ⟨file, t, ht, fun hdead => hlive (h.dead file hdead), hlists⟩)
  opened file t ht := h'.opened file t (h.opened file t ht)
  dead file hdead := h'.dead file (h.dead file hdead)

/-- A move may be described as one that takes less and puts more. -/
theorem mono {taken' put' : Set Bytes} (h : Moves v taken put s s') (ht : taken' ⊆ taken)
    (hp : put ⊆ put') : Moves v taken' put' s s' where
  cached key hkey :=
    (h.cached key hkey).imp (fun hold => ⟨hold.1, fun hin => hold.2 (ht hin)⟩) (Or.imp_left (hp ·))
  opened := h.opened
  dead := h.dead

end Moves

/-! ### What the patched operations do -/

namespace Stock.Lawful

variable {σ : Type*} {st : Stock σ} {v : View σ} {index : ℕ → List IndexEntry}
  (laws : st.Lawful v index)

include laws

/-- `FindTable` finds the table open afterwards, and then it is acted upon, or fails. -/
theorem withTable_cases {ω : Type*} (file size : ℕ) (failed : ω) (act : Table → σ → σ × ω) (s : σ) :
    let s₁ := (st.findTable file size s).1
    (∃ t, v.opened s₁ file = some t ∧
      st.withTable file size failed act s = (st.release t (act t s₁).1, (act t s₁).2)) ∨
    (v.opened s₁ file = none ∧ st.withTable file size failed act s = (s₁, failed)) := by
  have hfound := laws.found file size s
  unfold Stock.withTable
  generalize st.findTable file size s = r at hfound ⊢
  obtain ⟨s₁, found⟩ := r
  cases found with
  | none => exact Or.inr ⟨hfound, rfl⟩
  | some t => exact Or.inl ⟨t, hfound, rfl⟩

/-- A table that is open is the one `FindTable` finds. -/
theorem withTable_of_open {ω : Type*} {file : ℕ} {t : Table} {s : σ} (ht : v.opened s file = some t)
    (size : ℕ) (failed : ω) (act : Table → σ → σ × ω) :
    st.withTable file size failed act s =
      (st.release t (act t (st.findTable file size s).1).1,
        (act t (st.findTable file size s).1).2) := by
  have hopen := (laws.findTable file size s).opened file t ht
  obtain ⟨t', ht', heq⟩ | ⟨hnone, -⟩ := laws.withTable_cases file size failed act s
  · rw [heq, Option.some.inj (ht'.symm.trans hopen)]
  · rw [hnone] at hopen
    cases hopen

/-- What is done with the table is done to the engine. -/
theorem withTable {ω : Type*} {act : Table → σ → σ × ω}
    (hact : ∀ t s, Moves v ∅ ∅ s (act t s).1) (file size : ℕ) (failed : ω) (s : σ) :
    Moves v ∅ ∅ s (st.withTable file size failed act s).1 := by
  have hfind := laws.findTable file size s
  obtain ⟨t, -, heq⟩ | ⟨-, heq⟩ := laws.withTable_cases file size failed act s
  · rw [heq]
    have hdone := (hfind.trans (hact t _)).trans (laws.release t _)
    exact hdone.mono (Set.empty_subset _) subset_rfl
  · rw [heq]
    exact hfind

/-- A walk over an index reads no data block. -/
theorem forEachDataBlock (file size : ℕ) (s : σ) :
    Moves v ∅ ∅ s (st.forEachDataBlock file size s).1 :=
  laws.withTable (fun _ s => Moves.refl s) file size [] s

/-- Evicting takes one key, and puts none. -/
theorem tableEvictBlock (t : Table) (offset : ℕ) (s : σ) :
    Moves v {encodeBlockCacheKey t.cacheId offset} ∅ s (st.tableEvictBlock t offset s) := by
  unfold Stock.tableEvictBlock
  split_ifs with hcache
  · exact laws.erase _ s
  · -- nothing is cached, so nothing has to be taken out
    have hnone := laws.cacheless (Bool.not_eq_true _ ▸ hcache)
    exact ⟨fun key hkey => absurd hkey (hnone s key), fun _ _ h => h, fun _ h => h⟩

/-- `EvictBlock` only takes. -/
theorem evictBlock (file fileSize offset : ℕ) (s : σ) :
    Moves v ∅ ∅ s (st.evictBlock file fileSize offset s).1 :=
  laws.withTable
    (fun t s => (laws.tableEvictBlock t offset s).mono (Set.empty_subset _) subset_rfl) _ _ _ s

/-- A probe puts nothing into the cache. -/
theorem isBlockCached (file fileSize offset : ℕ) (s : σ) :
    Moves v ∅ ∅ s (st.isBlockCached file fileSize offset s).1 := by
  refine laws.withTable (fun t s => ?_) _ _ _ s
  unfold Stock.tableIsBlockCached
  split_ifs
  · exact laws.lookup _ s
  · exact Moves.refl s

/-- The walk over all inputs of a job reads no data block. -/
theorem walkInputs (files : List (ℕ × ℕ)) (s : σ) : Moves v ∅ ∅ s (st.walkInputs files s).1 := by
  induction files generalizing s with
  | nil => exact Moves.refl s
  | cons x files ih =>
    have hfirst := laws.forEachDataBlock x.1 x.2 s
    exact (hfirst.trans (ih _)).mono (Set.empty_subset _) subset_rfl

end Stock.Lawful

end Leaper.LevelDB
