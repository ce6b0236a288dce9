import Leaper.Adapters.LevelDBEngine

namespace Leaper.LevelDB

open Lib

/-!
# What is left of a file that is gone

When a compaction's inputs are deleted, the stock engine closes their tables and unlinks the
files; the blocks stay in the block cache under ids that are never drawn again.  The hook
`OnFileObsolete` comes just before, and under every policy but `kOff` evicts the file's blocks.

* `Clean` — every cached key is that of a block which an open table lists;
* `Draining` — while the blocks of an obsolete file are evicted one after another, the cached keys
  of its table are among those whose turn is still to come;
* `Tidy.step` — one event of the database keeps the cache clean;
* `cached_blocks_live_iff` — so does every run, over any stock engine with the laws asked for, and
  under `kOff` it does not.

That a block which the plug-in reads is listed is not put in: it comes from the record of what was
reported for which file (`Warm`).
-/

variable {σ : Type*} {st : Stock σ} {v : View σ} {index : ℕ → List IndexEntry}

/-! ### A clean cache -/

/-- Every cached key is that of a block which an open table lists. -/
def Clean (v : View σ) (s : σ) : Prop :=
  ∀ key, v.cached s key → ∃ file t, v.opened s file = some t ∧ t.Lists key

theorem Clean.moves {taken put : Set Bytes} {s s' : σ} (h : Clean v s)
    (hmoves : Moves v taken put s s')
    (hput : ∀ key ∈ put, ∃ file t, v.opened s' file = some t ∧ t.Lists key) : Clean v s' := by
  intro key hkey
  rcases hmoves.cached key hkey with ⟨hold, -⟩ | hin | ⟨file, t, ht, -, hlists⟩
  · obtain ⟨file, t, ht, hlists⟩ := h key hold
    exact ⟨file, t, hmoves.opened file t ht, hlists⟩
  · exact hput key hin
  · exact ⟨file, t, ht, hlists⟩

/-- A move that puts nothing in keeps the cache clean. -/
theorem Clean.of_moves {taken : Set Bytes} {s s' : σ} (h : Clean v s)
    (hmoves : Moves v taken ∅ s s') : Clean v s' :=
  h.moves hmoves fun key hkey => absurd hkey (Set.notMem_empty key)

/-- **Reading a listed block** keeps the cache clean: it is cached under the id of its own table. -/
theorem Clean.warmBlock (laws : st.Lawful v index) {s : σ} (h : Clean v s) {file offset size : ℕ}
    (hlisted : (offset, size) ∈ extents (index file)) (fileSize : ℕ) :
    Clean v (st.warmBlock file fileSize offset size s).1 := by
  have hfind := h.of_moves (laws.findTable file fileSize s)
  unfold Stock.warmBlock
  obtain ⟨t, ht, heq⟩ | ⟨-, heq⟩ := laws.withTable_cases file fileSize false
    (fun t s => (st.tableWarmBlock t offset size s, true)) s
  · rw [heq]
    refine Clean.of_moves ?_ (laws.release t _)
    unfold Stock.tableWarmBlock
    split_ifs
    · have hread := laws.blockReader t offset size (st.findTable file fileSize s).1
      refine hfind.moves hread fun key hkey =>
        ⟨file, t, hread.opened file t ht, (offset, size), ?_, ?_⟩
      · rwa [laws.index_eq _ file t ht]
      · exact hkey
    · exact hfind
  · rw [heq]
    exact hfind

/-! ### An obsolete file -/

/-- The blocks a walk reports are those of the file it walks, and all that its index lists. -/
theorem mem_forEachDataBlock (file : ℕ) {index : List IndexEntry}
    (hdecodes : ∀ e ∈ index, e.handle ≠ none) (prev : Option Bytes) :
    (∀ b ∈ forEachDataBlock file prev index, b.fileNumber = file) ∧
      ∀ x ∈ extents index, ∃ b ∈ forEachDataBlock file prev index, b.offset = x.1 := by
  induction index generalizing prev with
  | nil => exact ⟨fun b hb => absurd hb List.not_mem_nil, fun x hx => absurd hx List.not_mem_nil⟩
  | cons e rest ih =>
    obtain ⟨h, hh⟩ := Option.ne_none_iff_exists'.mp (hdecodes e List.mem_cons_self)
    obtain ⟨hfile, hall⟩ := ih (fun e' he' => hdecodes e' (List.mem_cons_of_mem e he')) (some e.key)
    unfold forEachDataBlock extents
    rw [hh, List.filterMap_cons_some hh]
    refine ⟨?_, ?_⟩
    · rintro b (_ | ⟨_, hb⟩)
      · rfl
      · exact hfile b hb
    · rintro x (_ | ⟨_, hx⟩)
      · exact ⟨_, List.mem_cons_self, rfl⟩
      · obtain ⟨b, hb, hoffset⟩ := hall x hx
        exact ⟨b, List.mem_cons_of_mem _ hb, hoffset⟩

/-- **An obsolete file is being drained**: of the keys of its table, only those in `left` may still
    be cached, and nobody but the hook touches it. -/
structure Draining (v : View σ) (file : ℕ) (t : Table) (left : Set Bytes) (s : σ) : Prop where
  opened : v.opened s file = some t
  dead : v.dead s file
  cached : ∀ key, v.cached s key → key ∈ left ∨
    ∃ f t', f ≠ file ∧ v.opened s f = some t' ∧ t'.Lists key

namespace Draining

variable {file : ℕ} {t : Table} {left : Set Bytes} {s s' : σ}

/-- What is taken out is no longer left, and readers do not bring it back. -/
theorem moves {taken : Set Bytes} (h : Draining v file t left s) (hmoves : Moves v taken ∅ s s') :
    Draining v file t (left \ taken) s' where
  opened := hmoves.opened file t h.opened
  dead := hmoves.dead file h.dead
  cached key hkey := by
    rcases hmoves.cached key hkey with ⟨hold, hnot⟩ | hempty | ⟨f, t', ht', hlive, hlists⟩
    · rcases h.cached key hold with hleft | ⟨f, t', hne, ht', hlists⟩
      · exact Or.inl ⟨hleft, hnot⟩
      · exact Or.inr ⟨f, t', hne, hmoves.opened f t' ht', hlists⟩
    · exact absurd hempty (Set.notMem_empty key)
    · have hne : f ≠ file := by
        rintro rfl
        exact hlive h.dead
      exact Or.inr ⟨f, t', hne, ht', hlists⟩

theorem mono {left' : Set Bytes} (h : Draining v file t left s) (hsub : left ⊆ left') :
    Draining v file t left' s :=
  ⟨h.opened, h.dead, fun key hkey => (h.cached key hkey).imp_left (hsub ·)⟩

/-- Evicting a block of the file takes its key out. -/
theorem evictBlock (laws : st.Lawful v index) (h : Draining v file t left s)
    (fileSize offset : ℕ) :
    Draining v file t (left \ {encodeBlockCacheKey t.cacheId offset})
      (st.evictBlock file fileSize offset s).1 := by
  have hfind := h.moves (laws.findTable file fileSize s)
  have herase := (hfind.moves (laws.tableEvictBlock t offset _)).moves (laws.release t _)
  unfold Stock.evictBlock
  rw [laws.withTable_of_open h.opened]
  exact herase.mono fun key hkey => ⟨hkey.1.1.1, hkey.1.2⟩

/-- **The hook drains the file**: after its blocks were evicted one after another, none of their
    keys is left. -/
theorem evictAll (laws : st.Lawful v index) {a : Adapter} (hbound : a.bound = true)
    {rs : List BlockRef} (hrs : ∀ r ∈ rs, r.fileId = file) (h : Draining v file t left s)
    (hleft : ∀ key ∈ left, ∃ r ∈ rs, key = encodeBlockCacheKey t.cacheId r.offset) :
    Draining v file t ∅ (LeaperImpl.evictAll (a.bridge st.engineOps) rs s) := by
  induction rs generalizing s left with
  | nil =>
    refine h.mono fun key hkey => ?_
    obtain ⟨r, hr, -⟩ := hleft key hkey
    exact absurd hr List.not_mem_nil
  | cons r rs ih =>
    have hstep : (a.bridge st.engineOps).evict r s =
        (st.evictBlock file (a.fileSize r.fileId) r.offset s).1 := by
      show (if a.bound then (st.evictBlock r.fileId _ r.offset s).1 else s) = _
      rw [if_pos hbound, hrs r List.mem_cons_self]
    show Draining v file t ∅ (LeaperImpl.evictAll _ rs ((a.bridge st.engineOps).evict r s))
    rw [hstep]
    refine ih (fun r' hr' => hrs r' (List.mem_cons_of_mem r hr'))
      (h.evictBlock laws (a.fileSize r.fileId) r.offset) ?_
    rintro key ⟨hkey, hne⟩
    obtain ⟨r', hr', rfl⟩ := hleft key hkey
    rcases List.mem_cons.mp hr' with rfl | hlater
    · exact absurd rfl hne
    · exact ⟨r', hlater, rfl⟩

end Draining

/-- Closing a table that lists no cached key. -/
theorem Clean.evict (laws : st.Lawful v index) {file : ℕ} {s : σ}
    (h : ∀ key, v.cached s key → ∃ f t, f ≠ file ∧ v.opened s f = some t ∧ t.Lists key) :
    Clean v (st.evict file s) := by
  intro key hkey
  rcases laws.evict file s key hkey with hold | hnew
  · obtain ⟨f, t, hne, ht, hlists⟩ := h key hold
    exact ⟨f, t, laws.evict_opened file s f t hne ht, hlists⟩
  · exact hnew

/-- What an obsolete file does to the cache: with a policy, its blocks are evicted. -/
theorem onFileObsolete_cache {κ : Type*} (eng : EngineOps κ) {a : Adapter} (hbound : a.bound = true)
    (hpol : a.core.opt.policy ≠ .off) (cache : κ) (file size : ℕ) (blocks : List BlockInfo) :
    ∃ a' : Adapter, a'.bound = true ∧ (a.onFileObsolete eng cache file size blocks).2 =
      LeaperImpl.evictAll (a'.bridge eng) (blocks.map fun b =>
        { fileId := b.fileNumber, offset := b.offset, size := b.size }) cache := by
  refine ⟨if 0 < size then
    { a with fileSizes := Function.update a.fileSizes file (some size) } else a, ?_, ?_⟩
  · split_ifs <;> exact hbound
  · unfold Adapter.onFileObsolete LeaperImpl.onFileObsolete
    simp only [hbound]
    split_ifs <;> rfl

/-- The keys of a clean cache are those of the table, and those that other open tables list. -/
theorem Clean.draining {s : σ} (h : Clean v s) {file : ℕ} {t : Table}
    (ht : v.opened s file = some t) (hdead : v.dead s file) :
    Draining v file t {key | t.Lists key} s := by
  refine ⟨ht, hdead, fun key hkey => ?_⟩
  obtain ⟨f, t', ht', hlists⟩ := h key hkey
  by_cases hf : f = file
  · subst hf
    rw [Option.some.inj (ht.symm.trans ht')]
    exact Or.inl hlists
  · exact Or.inr ⟨f, t', hf, ht', hlists⟩

/-- **An obsolete file leaves nothing behind.** -/
theorem Clean.removeObsoleteFile (laws : st.Lawful v index) {s : State σ} (h : Clean v s.cache)
    (hbound : s.adapter.bound = true) (hpol : s.adapter.core.opt.policy ≠ .off) {file : ℕ}
    (hdead : v.dead s.cache file) (mono size : ℕ) :
    Clean v (dbStep st s (mono, .removeObsoleteFile file size)).1.cache := by
  obtain ⟨a, e⟩ := s
  have hblocks : DbEvent.blocks st a.bound (.removeObsoleteFile file size) e =
      st.forEachDataBlock file size e := if_pos hbound
  show Clean v (st.evict file (a.onFileObsolete st.engineOps
    (DbEvent.blocks st a.bound (.removeObsoleteFile file size) e).1 file size
    (DbEvent.blocks st a.bound (.removeObsoleteFile file size) e).2).2)
  rw [hblocks]
  obtain ⟨a', hbound', hcache⟩ := onFileObsolete_cache st.engineOps hbound hpol
    (st.forEachDataBlock file size e).1 file size (st.forEachDataBlock file size e).2
  rw [hcache]
  -- closing the table afterwards: by then none of its keys may be left
  refine Clean.evict laws ?_
  have hfind := laws.findTable file size e
  have hclean : Clean v (st.findTable file size e).1 := h.of_moves hfind
  unfold Stock.forEachDataBlock
  obtain ⟨t, ht, heq⟩ | ⟨hnone, heq⟩ := laws.withTable_cases file size []
    (fun t s => (s, forEachDataBlock file none t.index)) e
  · -- the table is open: all that it lists is reported, and evicted
    rw [heq]
    have hdecodes : ∀ x ∈ t.index, x.handle ≠ none := by
      rw [laws.index_eq _ file t ht]
      exact laws.decodes file
    obtain ⟨hfile, hall⟩ := mem_forEachDataBlock file hdecodes none
    have hstart := hclean.draining ht (hfind.dead file hdead)
    have hrefs : ∀ r ∈ (forEachDataBlock file none t.index).map (fun b : BlockInfo =>
        { fileId := b.fileNumber, offset := b.offset, size := b.size : BlockRef }),
        r.fileId = file := by
      intro r hr
      obtain ⟨b, hb, rfl⟩ := List.mem_map.mp hr
      exact hfile b hb
    -- the policy evicts each block reported, so the keys of the table drain away
    have hdrained := (hstart.moves (laws.release t _)).evictAll laws hbound' hrefs ?_
    · exact fun key hkey => (hdrained.cached key hkey).resolve_left (Set.notMem_empty key)
    · rintro key ⟨⟨x, hx, rfl⟩, -⟩
      obtain ⟨b, hb, hoffset⟩ := hall x hx
      exact ⟨_, List.mem_map_of_mem hb, by rw [hoffset]⟩
  · -- it cannot be opened, so no key is cached for it
    rw [heq]
    intro key hkey
    obtain ⟨f, t, ht, hlists⟩ := hclean key hkey
    refine ⟨f, t, ?_, ht, hlists⟩
    rintro rfl
    rw [hnone] at ht
    cases ht

/-! ### Runs of the database -/

/-- What the engine promises of an event: a block that is written is listed in the index of its
    file, only dead files are removed, and what else happens is what may happen at any moment. -/
def DbEvent.Allowed (v : View σ) (index : ℕ → List IndexEntry) (current : Option ℕ) (s : σ) :
    DbEvent σ → Prop
  | .outputBlock b => ∀ file, current = some file → (b.offset, b.size) ∈ extents (index file)
  | .removeObsoleteFile file _ => v.dead s file
  | .engine change => Moves v ∅ ∅ s (change s)
  | _ => True

/-- **The engine as environment**: it knows its own state, and brackets the hooks well. -/
def database (st : Stock σ) (v : View σ) (index : ℕ → List IndexEntry) :
    Env (Desk × State σ) (ℕ × DbEvent σ) where
  ok g x := (hooks σ).ok g.1 ⟨x.1, x.2.hook []⟩ ∧ x.2.Allowed v index g.1.current g.2.cache
  next g x := ((hooks σ).next g.1 ⟨x.1, x.2.hook []⟩, (dbStep st g.2 x).1)

/-- The record of a run of the database; which blocks were walked does not matter to it. -/
def noteDb (refOf : ℕ → BlockInfo → BlockRef) (r : Record) (x : ℕ × DbEvent σ) (o : HookObs) :
    Record :=
  r.note refOf ⟨x.1, x.2.hook []⟩ o

/-- **A database that is kept tidy**: the adapter against the record, whose granted blocks are
    listed, and a clean cache. -/
structure Tidy (v : View σ) (index : ℕ → List IndexEntry) (refOf : ℕ → BlockInfo → BlockRef)
    (g : Desk × State σ) (s : State σ) (r : Record) : Prop where
  state : g.2 = s
  warm : Warm refOf g.1 s r
  listed : ∀ x ∈ r.granted, (x.ref.offset, x.ref.size) ∈ extents (index x.file)
  bound : s.adapter.bound = true
  policy : s.adapter.core.opt.policy ≠ .off
  clean : Clean v s.cache

/-- Adapter and record over one event. -/
theorem Warm.dbStep {refOf : ℕ → BlockInfo → BlockRef} {g : Desk} {s : State σ} {r : Record}
    (h : Warm refOf g s r) {x : ℕ × DbEvent σ} (hok : (hooks σ).ok g ⟨x.1, x.2.hook []⟩) :
    Warm refOf ((hooks σ).next g ⟨x.1, x.2.hook []⟩) (dbStep st s x).1
      (noteDb refOf r x (dbStep st s x).2) := by
  obtain ⟨mono, e⟩ := x
  -- the walk changes the engine, and the hook is the same up to the blocks it reports
  have hwalked : Warm refOf g ⟨s.adapter, (e.blocks st s.adapter.bound s.cache).1⟩ r :=
    h.congr rfl rfl
  have hblocks : ∀ bs, (hooks σ).ok g ⟨mono, e.hook bs⟩ ∧
      (hooks σ).next g ⟨mono, e.hook bs⟩ = (hooks σ).next g ⟨mono, e.hook []⟩ ∧
      ∀ o, r.note refOf ⟨mono, e.hook bs⟩ o = noteDb refOf r (mono, e) o := by
    intro bs
    cases e <;> exact ⟨hok, rfl, fun _ => rfl⟩
  obtain ⟨hok', hnext, hnote⟩ := hblocks (e.blocks st s.adapter.bound s.cache).2
  have hstep := @warm_step _ st.engineOps _ _ _ _ hwalked _ hok'
  rw [hnext, hnote] at hstep
  exact hstep.congr rfl rfl

/-- What is granted was reported for the file that is being written. -/
theorem granted_listed {refOf : ℕ → BlockInfo → BlockRef} {g : Desk} {s : State σ} {r : Record}
    (h : Warm refOf g s r) (hlisted : ∀ x ∈ r.granted, (x.ref.offset, x.ref.size) ∈
      extents (index x.file)) {x : ℕ × DbEvent σ}
    (hallowed : x.2.Allowed v index g.current s.cache) (o : HookObs) :
    ∀ y ∈ (noteDb refOf r x o).granted, (y.ref.offset, y.ref.size) ∈ extents (index y.file) := by
  obtain ⟨mono, e⟩ := x
  cases e with
  | outputBlock b =>
    unfold noteDb Record.note DbEvent.hook
    dsimp only
    split_ifs
    · unfold Record.grant
      dsimp only
      split
      · rename_i j file js hjobs
        intro y hy
        rcases List.mem_append.mp hy with hold | hnew
        · exact hlisted y hold
        · rw [List.mem_singleton.mp hnew]
          -- the block is granted to the innermost job, so it belongs to the file being written
          have hcur : g.current = some file := by
            have hfiles := h.files
            rw [hjobs] at hfiles
            unfold Desk.current
            rw [← hfiles]
            rfl
          obtain ⟨hoffset, hsize⟩ := blockRef_extent s.adapter file b
          rw [h.refs] at hoffset hsize
          rw [hoffset, hsize]
          exact hallowed file hcur
      · exact hlisted
    · exact hlisted
  | outputFileStart file =>
    unfold noteDb Record.note DbEvent.hook Record.startFile
    dsimp only
    split <;> exact hlisted
  | outputFileFinished file size =>
    unfold noteDb Record.note DbEvent.hook Record.finishFile
    dsimp only
    split <;> exact hlisted
  | _ => exact hlisted

/-- Evictions and questions put nothing into the cache. -/
theorem bridge_keeps_clean (laws : st.Lawful v index) (a : Adapter) :
    (a.bridge st.engineOps).Keeps (Clean v) where
  evict b s h := by
    show Clean v (if a.bound then (st.evictBlock b.fileId _ b.offset s).1 else s)
    split_ifs
    · exact h.of_moves (laws.evictBlock _ _ _ s)
    · exact h
  isCached b s h := by
    show Clean v (if a.bound then st.isBlockCached b.fileId _ b.offset s else (s, false)).1
    split_ifs
    · exact h.of_moves (laws.isBlockCached _ _ _ s)
    · exact h

theorem Clean.onCompactionBegin (laws : st.Lawful v index) {s : σ} (h : Clean v s) (a : Adapter)
    (level : ℤ) (isFlush : Bool) (inputs : List BlockInfo) (mono : ℕ) :
    Clean v (a.onCompactionBegin st.engineOps s level isFlush inputs mono).2.cache := by
  have hkeeps := bridge_keeps_clean laws a.pushJob
  refine LeaperImpl.decideJob_keeps _ hkeeps ?_ _ _ _
  split_ifs
  · exact h
  · exact LeaperImpl.cachedBlocks_keeps hkeeps _ h

/-- Warming the granted blocks of a finished file. -/
theorem Clean.onOutputFileFinished (laws : st.Lawful v index) {s : σ} (h : Clean v s) {a : Adapter}
    (hbound : a.bound = true) {file : ℕ}
    (hpending : ∀ b ∈ a.pendingWarm, b.fileId = file → (b.offset, b.size) ∈ extents (index file))
    (size : ℕ) : Clean v (a.onOutputFileFinished st.engineOps s file size).2.1 := by
  rw [(onOutputFileFinished_calls st.engineOps a s file size).2 hbound,
    (onOutputFileFinished_spec st.engineOps a s file size).1]
  unfold EngineOps.warmAll
  refine List.foldlRecOn _ _ h fun s' h' x hx => ?_
  obtain ⟨b, hb, rfl⟩ := List.mem_map.mp hx
  obtain ⟨hmem, hfile⟩ := List.mem_filter.mp hb
  have hid : b.fileId = file := of_decide_eq_true hfile
  exact h'.warmBlock laws (hid.symm ▸ hpending b hmem hid) size

/-- The blocks that wait for the file being written are listed in its index. -/
theorem Tidy.pending {refOf : ℕ → BlockInfo → BlockRef} {g : Desk × State σ} {s : State σ}
    {r : Record} (h : Tidy v index refOf g s r) {file : ℕ} (hcur : g.1.current = some file) :
    ∀ b ∈ s.adapter.pendingWarm, b.fileId = file → (b.offset, b.size) ∈ extents (index file) := by
  intro b hb hfile
  obtain ⟨j, js, -, hpend, -⟩ := h.warm.innermost hcur
  rw [hpend] at hb
  obtain ⟨x, hx, rfl⟩ := List.mem_map.mp hb
  have hmem : x ∈ r.granted := (List.mem_filter.mp hx).1
  have hlisted := h.listed x hmem
  rwa [← (h.warm.granted x hmem).2, hfile] at hlisted

/-- **One event keeps the database tidy.** -/
theorem Tidy.step (laws : st.Lawful v index) {refOf : ℕ → BlockInfo → BlockRef}
    {g : Desk × State σ} {s : State σ} {r : Record} (h : Tidy v index refOf g s r)
    {x : ℕ × DbEvent σ} (hok : (database st v index).ok g x) :
    Tidy v index refOf ((database st v index).next g x) (dbStep st s x).1
      (noteDb refOf r x (dbStep st s x).2) := by
  obtain ⟨hhooks, hallowed⟩ := hok
  obtain ⟨hbound, hopt⟩ := dbStep_settings st s x
  have hstate := h.state
  subst hstate
  refine ⟨rfl, h.warm.dbStep hhooks, granted_listed h.warm h.listed hallowed _,
    hbound.trans h.bound, by rw [hopt]; exact h.policy, ?_⟩
  obtain ⟨mono, e⟩ := x
  cases e with
  | access | outputFileStart | outputBlock | compactionEnd | setQps | setHealth | resetClock =>
    exact h.clean
  | compactionBegin level inputs =>
    exact (h.clean.of_moves (laws.walkInputs inputs _)).onCompactionBegin laws _ level false _ mono
  | flushBegin span => exact h.clean.onCompactionBegin laws _ 0 true _ mono
  | outputFileFinished file size =>
    exact h.clean.onOutputFileFinished laws h.bound (h.pending hhooks) size
  | removeObsoleteFile file size =>
    exact h.clean.removeObsoleteFile laws h.bound h.policy hallowed mono size
  | engine change => exact h.clean.of_moves hallowed

/-- **A run keeps the cache clean**, under a policy other than `kOff`. -/
theorem Clean.run (laws : st.Lawful v index) {s : State σ} (hclean : Clean v s.cache)
    (hpending : s.adapter.pendingWarm = []) (hnested : s.adapter.nested = [])
    (hbound : s.adapter.bound = true) (hpol : s.adapter.core.opt.policy ≠ .off)
    {es : List (ℕ × DbEvent σ)} (hacc : (database st v index).Accepts ({}, s) es) :
    Clean v (Lib.run (dbStep st) s es).cache := by
  have hstart : Tidy v index s.adapter.blockRef ({}, s) s {} :=
    ⟨rfl, Warm.initial s hpending hnested, fun x hx => absurd hx List.not_mem_nil, hbound, hpol,
      hclean⟩
  have htidy : Tidy v index s.adapter.blockRef ((database st v index).after ({}, s) es)
      (Lib.run (dbStep st) s es) (watch (dbStep st) (noteDb s.adapter.blockRef) s {} es) :=
    (database st v index).watch_invariant (P := Tidy v index s.adapter.blockRef)
      (fun g s' r x hok h => Tidy.step laws h hok) hacc hstart
  exact htidy.clean

/-! ### An engine with room for one block -/

/-- Open files with their ids, the last id drawn, the cached keys, the dead files. -/
structure SmallEngine where
  ids : ℕ → Option ℕ := fun _ => none
  lastId : ℕ := 0
  cached : List Bytes := []
  dead : List ℕ := []

/-- Every file has two blocks. -/
def twoBlocks : List IndexEntry := [⟨[49], some (0, 4)⟩, ⟨[50], some (4, 4)⟩]

/-- Every file can be opened, and the block read last is the only one cached. -/
def smallStock : Stock SmallEngine where
  hasCache := true
  findTable file _ s :=
    match s.ids file with
    | some id => (s, some ⟨id, twoBlocks⟩)
    | none => ({ s with ids := Function.update s.ids file (some (s.lastId + 1)),
                        lastId := s.lastId + 1 }, some ⟨s.lastId + 1, twoBlocks⟩)
  release _ s := s
  blockReader t offset _ s := { s with cached := [encodeBlockCacheKey t.cacheId offset] }
  erase key s := { s with cached := s.cached.filter (· ≠ key) }
  lookup key s := (s, decide (key ∈ s.cached))
  evict file s := { s with ids := Function.update s.ids file none }

def smallView : View SmallEngine where
  cached s key := key ∈ s.cached
  opened s file := (s.ids file).map (⟨·, twoBlocks⟩)
  dead s file := file ∈ s.dead

/-- Keys may go as long as tables stay open and dead files dead. -/
theorem smallView_moves {taken put : Set Bytes} {s s' : SmallEngine}
    (hcached : ∀ key ∈ s'.cached, (key ∈ s.cached ∧ key ∉ taken) ∨ key ∈ put)
    (hids : ∀ file id, s.ids file = some id → s'.ids file = some id)
    (hdead : ∀ file ∈ s.dead, file ∈ s'.dead) : Moves smallView taken put s s' where
  cached key hkey := (hcached key hkey).imp_right Or.inl
  opened file t ht := by
    obtain ⟨id, hid, rfl⟩ := Option.map_eq_some_iff.mp ht
    show (s'.ids file).map _ = _
    rw [hids file id hid]
    rfl
  dead := hdead

theorem smallStock_lawful : smallStock.Lawful smallView fun _ => twoBlocks where
  index_eq s file t ht := by
    obtain ⟨id, -, rfl⟩ := Option.map_eq_some_iff.mp ht
    rfl
  decodes _ := by simp [twoBlocks]
  cacheless h := absurd h (by decide)
  findTable file size s := by
    unfold smallStock
    dsimp only
    split
    · exact Moves.refl s
    · rename_i hnone
      refine smallView_moves (fun key hkey => Or.inl ⟨hkey, Set.notMem_empty key⟩) ?_
        fun _ h => h
      intro f id hid
      have hne : f ≠ file := by
        rintro rfl
        rw [hnone] at hid
        cases hid
      exact (Function.update_of_ne hne _ _).trans hid
  found file size s := by
    unfold smallStock
    dsimp only
    split
    · rename_i id hid
      show (s.ids file).map _ = _
      rw [hid]
      rfl
    · show (Function.update s.ids file _ file).map _ = _
      rw [Function.update_self]
      rfl
  release _ s := Moves.refl s
  blockReader t offset _ s :=
    smallView_moves (fun key hkey => Or.inr (List.mem_singleton.mp hkey)) (fun _ _ h => h)
      fun _ h => h
  erase key s := by
    refine smallView_moves (fun key' hkey' => Or.inl ?_) (fun _ _ h => h) fun _ h => h
    obtain ⟨hin, hne⟩ := List.mem_filter.mp hkey'
    exact ⟨hin, of_decide_eq_true hne⟩
  lookup _ s := Moves.refl s
  evict _ _ _ h := Or.inl h
  evict_opened file s f t hne ht := by
    show (Function.update s.ids file none f).map _ = _
    rw [Function.update_of_ne hne]
    exact ht

/-! ### Which policies keep the cache clean -/

/-- An obsolete file with a cached block. -/
def readAndDead : SmallEngine where
  ids file := if file = 7 then some 1 else none
  cached := [encodeBlockCacheKey 1 0]
  dead := [7]

theorem readAndDead_clean : Clean smallView readAndDead := by
  intro key hkey
  exact ⟨7, ⟨1, twoBlocks⟩, rfl, (0, 4), by decide, List.mem_singleton.mp hkey⟩

/-- Without an engine, or under `kOff`, the hook of an obsolete file does nothing to the cache. -/
theorem onFileObsolete_idle {κ : Type*} (eng : EngineOps κ) {a : Adapter}
    (h : ¬ (a.bound = true ∧ a.core.opt.policy ≠ .off)) (cache : κ) (file size : ℕ)
    (blocks : List BlockInfo) : (a.onFileObsolete eng cache file size blocks).2 = cache := by
  have hoff : a.bound = true → a.core.opt.policy = .off := by
    intro hbound
    by_contra hne
    exact h ⟨hbound, hne⟩
  unfold Adapter.onFileObsolete
  split_ifs with hbound hsize
  · simp only [LeaperImpl.onFileObsolete, hoff hbound, if_true]
  · simp only [LeaperImpl.onFileObsolete, hoff hbound, if_true]
  · rfl

/-- Its blocks then stay behind, under an id that no open table has. -/
theorem not_clean_of_idle {a : Adapter} (h : ¬ (a.bound = true ∧ a.core.opt.policy ≠ .off)) :
    ¬ Clean smallView (dbStep smallStock ⟨a, readAndDead⟩
      (0, .removeObsoleteFile 7 52)).1.cache := by
  -- the table is open, so walking it changes nothing
  have hwalk : (DbEvent.blocks smallStock a.bound (.removeObsoleteFile 7 52) readAndDead).1 =
      readAndDead := by
    show (if a.bound then smallStock.forEachDataBlock 7 52 readAndDead else (readAndDead, [])).1 = _
    split_ifs <;> rfl
  have hcache : (dbStep smallStock ⟨a, readAndDead⟩ (0, .removeObsoleteFile 7 52)).1.cache =
      smallStock.evict 7 readAndDead := by
    show smallStock.evict 7 (a.onFileObsolete smallStock.engineOps
      (DbEvent.blocks smallStock a.bound (.removeObsoleteFile 7 52) readAndDead).1 7 52 _).2 = _
    rw [onFileObsolete_idle _ h, hwalk]
  rw [hcache]
  intro hclean
  obtain ⟨file, t, ht, -⟩ := hclean (encodeBlockCacheKey 1 0) List.mem_cons_self
  obtain ⟨id, hid, -⟩ := Option.map_eq_some_iff.mp ht
  have hnone : Function.update readAndDead.ids 7 none file = none := by
    unfold Function.update readAndDead
    split_ifs <;> simp_all
  exact Option.some_ne_none id (hid.symm.trans hnone)

/-- **No garbage, exactly under a policy.** Take any adapter with no job open.  Over every stock
    engine with the laws asked for, in which readers and the cache's own evictions may come at any
    moment, also inside a hook, and from every clean cache, every run of the database leaves the
    cache clean: each key in it is that of a block which a table that is open then lists.  This is
    so if and only if the adapter is bound and its policy is not `kOff`. -/
theorem cached_blocks_live_iff (a : Adapter) (hpending : a.pendingWarm = [])
    (hnested : a.nested = []) :
    (∀ (σ : Type) (st : Stock σ) (v : View σ) (index : ℕ → List IndexEntry), st.Lawful v index →
      ∀ s : σ, Clean v s → ∀ es, (database st v index).Accepts ({}, ⟨a, s⟩) es →
        ∀ key, v.cached (run (dbStep st) ⟨a, s⟩ es).cache key →
          ∃ file t, v.opened (run (dbStep st) ⟨a, s⟩ es).cache file = some t ∧ t.Lists key) ↔
      a.bound = true ∧ a.core.opt.policy ≠ .off := by
  constructor
  · intro h
    by_contra hidle
    have hacc : (database smallStock smallView fun _ => twoBlocks).Accepts ({}, ⟨a, readAndDead⟩)
        [(0, .removeObsoleteFile 7 52)] := ⟨⟨trivial, List.mem_cons_self⟩, trivial⟩
    exact not_clean_of_idle hidle
      (h SmallEngine smallStock smallView _ smallStock_lawful readAndDead readAndDead_clean _ hacc)
  · rintro ⟨hbound, hpol⟩ σ st v index laws s hclean es hacc
    exact Clean.run laws (s := ⟨a, s⟩) hclean hpending hnested hbound hpol hacc

/-- A flush writes a file of two blocks, both of which are warmed; the second drives out the
    first. -/
def twoBlockFlush (file : ℕ) : List (ℕ × DbEvent SmallEngine) :=
  [(0, .flushBegin none), (1, .outputFileStart file), (2, .outputBlock { offset := 0, size := 4 }),
    (3, .outputBlock { offset := 4, size := 4 }), (4, .outputFileFinished file 52),
    (5, .compactionEnd)]

/-- File 7 is written and removed, then file 8 is written. -/
def replacedFile : List (ℕ × DbEvent SmallEngine) :=
  twoBlockFlush 7 ++ (6, .engine fun s => { s with dead := 7 :: s.dead }) ::
    (7, .removeObsoleteFile 7 52) :: twoBlockFlush 8

theorem replacedFile_accepted :
    (database smallStock smallView fun _ => twoBlocks).Accepts ({}, ⟨warmAllAdapter, {}⟩)
      replacedFile := by
  have hfirst : (0, 4) ∈ extents twoBlocks := by decide
  have hsecond : (4, 4) ∈ extents twoBlocks := by decide
  have hdead : ∀ s : SmallEngine, Moves smallView ∅ ∅ s { s with dead := 7 :: s.dead } := fun s =>
    smallView_moves (fun key hkey => Or.inl ⟨hkey, Set.notMem_empty key⟩) (fun _ _ h => h)
      fun _ h => List.mem_cons_of_mem 7 h
  exact ⟨⟨trivial, trivial⟩, ⟨by decide, trivial⟩, ⟨rfl, fun _ _ => hfirst⟩,
    ⟨rfl, fun _ _ => hsecond⟩, ⟨rfl, trivial⟩, ⟨by decide, trivial⟩, ⟨trivial, hdead _⟩,
    ⟨trivial, List.mem_cons_self⟩, ⟨trivial, trivial⟩, ⟨by decide, trivial⟩,
    ⟨rfl, fun _ _ => hfirst⟩, ⟨rfl, fun _ _ => hsecond⟩, ⟨rfl, trivial⟩, ⟨by decide, trivial⟩,
    trivial⟩

/-- The block of file 7 is cached when its file is removed, that of file 8 in the end. -/
theorem cached_blocks_live_iff_replacedFile :
    (run (dbStep smallStock) ⟨warmAllAdapter, {}⟩ (twoBlockFlush 7)).cache.cached =
        [encodeBlockCacheKey 1 4] ∧
      (run (dbStep smallStock) ⟨warmAllAdapter, {}⟩ replacedFile).cache.cached =
        [encodeBlockCacheKey 2 4] ∧
      ∀ key, smallView.cached (run (dbStep smallStock) ⟨warmAllAdapter, {}⟩
        replacedFile).cache key →
        ∃ file t, smallView.opened (run (dbStep smallStock) ⟨warmAllAdapter, {}⟩
          replacedFile).cache file = some t ∧ t.Lists key :=
  ⟨by decide +kernel, by decide +kernel,
    (cached_blocks_live_iff warmAllAdapter rfl rfl).mpr ⟨rfl, by decide⟩ SmallEngine smallStock
      smallView _ smallStock_lawful {} (fun _ hkey => absurd hkey List.not_mem_nil) replacedFile
      replacedFile_accepted⟩

end Leaper.LevelDB
