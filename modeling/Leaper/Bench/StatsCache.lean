import Leaper.Core.Types
import Leaper.Lib.Tally
import Mathlib.Data.Nat.Digits.Defs

namespace Leaper.Bench

open Lib

/-!
# The measured block cache

`bench/include/leaper_bench/stats_cache.h`: a cache that counts what passes through it.  It wraps
another cache, which decides what it finds and when it lets go of an entry, and so comes into the
model as a choice made with every operation (`Op`).  When it lets go it calls the deleter, and in
tracking mode that is `Dispatch`.

What the counters are about is a list of lives (`Life`): every entry ever inserted, how often the
workload has read it, and whether it has left.

* `Counted.born`, `Counted.letGo`, `Counted.read` — one step in a life, and the counters;
* `tracks_run` — after every run each counter is a sum over the lives;
* `accounting_exact` — what this makes of the counters that are reported;
* `tracking_transparent` — the engine sees the same cache with tracking and without.
-/

/-! ### The cache -/

/-- A 64-bit counter that holds a sum holds it after an addition too. -/
theorem u64_add_of_eq {x a b : ℕ} (h : x = u64 a) : u64 (x + b) = u64 (a + b) := by
  rw [h]
  exact Nat.mod_add_mod a _ b

/-- And after a subtraction. -/
theorem sub64_of_eq {x a a' b : ℕ} (h : x = u64 a) (ha : a' + b = a) (hb : b < 2 ^ 64) :
    sub64 x b = u64 a' := by
  subst h ha
  unfold sub64 u64
  split <;> omega

/-- Who calls: `InInternalCacheAccess` and `InForegroundThread`. -/
structure Caller where
  internal : Bool
  foreground : Bool
  deriving DecidableEq

/-- A `size_t`. -/
abbrev Size := Fin (2 ^ 64)

/-- `StatsCache::Entry`; `hits` is a `uint32_t`. -/
structure Entry (V : Type*) where
  value : V
  cacheId : ℕ
  charge : Size
  prefetched : Bool
  hits : ℕ := 0
  deriving DecidableEq

/-- What is handed to the wrapped cache: the caller's value, or in tracking mode an entry. -/
inductive Stored (V : Type*)
  | plain (value : V)
  | entry (e : Entry V)
  deriving DecidableEq

/-- `Value`. -/
def Stored.value {V : Type*} : Stored V → V
  | plain v => v
  | entry e => e.value

/-- What the wrapped cache holds under a handle. -/
structure Held (V : Type*) where
  key : Bytes
  charge : Size
  stored : Stored V
  deriving DecidableEq

/-- What the wrapped cache would hold without tracking. -/
def Held.plain {V : Type*} (h : Held V) : Held V := { h with stored := .plain h.stored.value }

/-- `CacheCounters`. -/
structure CacheCounters where
  lookups : ℕ := 0
  hits : ℕ := 0
  misses : ℕ := 0
  inserts : ℕ := 0
  insertBytes : ℕ := 0
  erases : ℕ := 0
  evictions : ℕ := 0
  evictedBytes : ℕ := 0
  liveBytes : ℕ := 0
  staleBytes : ℕ := 0
  staleIds : ℕ := 0
  internalLookups : ℕ := 0
  bgLookups : ℕ := 0
  bgHits : ℕ := 0
  prefetchInserts : ℕ := 0
  pfEvicted : ℕ := 0
  pfUsed : ℕ := 0
  pfInserted : ℕ := 0
  pfReadOnce : ℕ := 0
  deriving DecidableEq

/-- `StatsCache`.  The counters have the names that a snapshot gives them (`live_total_` is
    `liveBytes`); the stale ones are filled in there. -/
structure StatsCache where
  track : Bool
  counters : CacheCounters := {}
  nowSecs : ℕ := 0
  live : ℕ → ℕ := fun _ => 0
  lastHit : ℕ → ℕ := fun _ => 0

def kSlots : ℕ := 1 <<< 20

/-- `Slot`. -/
def slot (cacheId : ℕ) : ℕ := cacheId &&& (kSlots - 1)

/-- `CacheIdOf`: the first eight bytes, the lowest first. -/
def cacheIdOf (key : Bytes) : ℕ := if 8 ≤ key.length then Nat.ofDigits 256 (key.take 8) else 0

namespace StatsCache

/-- `Dispatch`, up to the call of the entry's own deleter. -/
def dispatch {V : Type*} (c : StatsCache) (e : Entry V) : StatsCache :=
  { c with
    counters := { c.counters with
      evictions := c.counters.evictions + 1
      evictedBytes := u64 (c.counters.evictedBytes + e.charge)
      liveBytes := sub64 c.counters.liveBytes e.charge
      pfEvicted := c.counters.pfEvicted + if e.prefetched then 1 else 0
      pfUsed := c.counters.pfUsed + if e.prefetched && decide (0 < e.hits) then 1 else 0 }
    live := Function.update c.live (slot e.cacheId) (sub64 (c.live (slot e.cacheId)) e.charge) }

/-- `Insert`, up to the call of the wrapped cache, with what that one is given. -/
def insert {V : Type*} (c : StatsCache) (caller : Caller) (key : Bytes) (value : V)
    (charge : Size) : StatsCache × Stored V :=
  let n := { c.counters with
    prefetchInserts := c.counters.prefetchInserts + if caller.internal then 1 else 0
    inserts := c.counters.inserts + 1
    insertBytes := u64 (c.counters.insertBytes + charge) }
  if c.track then
    let pf := caller.internal
    let e : Entry V := { value, cacheId := cacheIdOf key, charge, prefetched := pf }
    ({ c with
      counters := { n with
        pfInserted := n.pfInserted + if pf then 1 else 0
        liveBytes := u64 (n.liveBytes + charge) }
      live := Function.update c.live (slot e.cacheId) (u64 (c.live (slot e.cacheId) + charge)) },
     .entry e)
  else
    -- the wrapped cache gets the caller's own deleter, and nothing is counted when it is called
    ({ c with counters := n }, .plain value)

/-- `Insert` keeps the tracking flag and hands the value on. -/
theorem insert_spec {V : Type*} (c : StatsCache) (caller : Caller) (key : Bytes) (value : V)
    (charge : Size) :
    (c.insert caller key value charge).1.track = c.track ∧
      (c.insert caller key value charge).2.value = value := by
  obtain ⟨track, n, now, live, lastHit⟩ := c
  cases track <;> exact ⟨rfl, rfl⟩

/-- Without tracking no entry is wrapped around the value. -/
theorem insert_of_not_track {V : Type*} (c : StatsCache) (h : c.track = false) (caller : Caller)
    (key : Bytes) (value : V) (charge : Size) :
    (c.insert caller key value charge).2 = .plain value := by
  unfold insert
  rw [h]
  rfl

/-- What `hit` does with an entry in tracking mode. -/
def readEntry {V : Type*} (c : StatsCache) (key : Bytes) (e : Entry V) : StatsCache × Entry V :=
  let stamped := { c with lastHit := Function.update c.lastHit (slot (cacheIdOf key)) c.nowSecs }
  if e.prefetched then
    -- `fetch_add` returns the old value, and the counter wraps at 32 bits
    ({ stamped with counters := { c.counters with
        pfReadOnce := c.counters.pfReadOnce + if e.hits = 0 then 1 else 0 } },
     { e with hits := (e.hits + 1) % 2 ^ 32 })
  else (stamped, e)

/-- `Lookup` of the workload, when the wrapped cache has found the key. -/
def hit {V : Type*} (c : StatsCache) (key : Bytes) (held : Held V) : StatsCache × Held V :=
  let c := { c with counters := { c.counters with
    lookups := c.counters.lookups + 1
    hits := c.counters.hits + 1 } }
  match c.track, held.stored with
  | true, .entry e =>
    let r := c.readEntry key e
    (r.1, { held with stored := .entry r.2 })
  | _, _ => (c, held)

/-- A foreground hit on a tracked entry: what it counts, and the entry it leaves. -/
theorem hit_entry {V : Type*} {c : StatsCache} (htrack : c.track = true) (key key' : Bytes)
    (charge : Size) (e : Entry V) :
    c.hit key ⟨key', charge, .entry e⟩ =
      ({ c with
        counters := { c.counters with
          lookups := c.counters.lookups + 1
          hits := c.counters.hits + 1
          pfReadOnce := c.counters.pfReadOnce + if e.prefetched ∧ e.hits = 0 then 1 else 0 }
        lastHit := Function.update c.lastHit (slot (cacheIdOf key)) c.nowSecs },
       ⟨key', charge, .entry
        { e with hits := if e.prefetched then (e.hits + 1) % 2 ^ 32 else e.hits }⟩) := by
  obtain ⟨track, n, now, live, lastHit⟩ := c
  obtain rfl : track = true := htrack
  obtain ⟨value, cacheId, charge, prefetched, hits⟩ := e
  unfold hit readEntry
  cases prefetched
  · rfl
  · simp only [if_true, true_and]

/-- `Lookup`, when the wrapped cache answers with `h`; what it holds may have been written to. -/
def lookup {V : Type*} (c : StatsCache) (caller : Caller) (key : Bytes) (h : Option (Held V)) :
    StatsCache × Option (Held V) :=
  let n := c.counters
  -- the plug-in's probes and the engine's background reads leave no trace on the entry
  if caller.internal then
    ({ c with counters := { n with internalLookups := n.internalLookups + 1 } }, h)
  else if !caller.foreground then
    ({ c with counters := { n with
        bgLookups := n.bgLookups + 1
        bgHits := n.bgHits + if h.isSome then 1 else 0 } }, h)
  else
    match h with
    | none =>
      ({ c with counters := { n with lookups := n.lookups + 1, misses := n.misses + 1 } }, none)
    | some held => ((c.hit key held).1, some (c.hit key held).2)

/-- For the workload a lookup that finds something is a hit. -/
theorem lookup_workload {V : Type*} (c : StatsCache) {caller : Caller}
    (h : (!caller.internal && caller.foreground) = true) (key : Bytes) (held : Held V) :
    c.lookup caller key (some held) = ((c.hit key held).1, some (c.hit key held).2) := by
  obtain ⟨hinternal, hforeground⟩ := Bool.and_eq_true_iff.mp h
  unfold lookup
  rw [Bool.not_eq_true'] at hinternal
  rw [hinternal, hforeground]
  rfl

/-- What a hit is apart from its tracking. -/
theorem hit_spec {V : Type*} (c : StatsCache) (key : Bytes) (held : Held V) :
    (c.hit key held).1.counters.lookups = c.counters.lookups + 1 ∧
      (c.hit key held).1.track = c.track ∧ (c.hit key held).2.plain = held.plain := by
  obtain ⟨track, n, now, live, lastHit⟩ := c
  obtain ⟨key', charge, stored⟩ := held
  cases track
  · exact ⟨rfl, rfl, rfl⟩
  · cases stored with
    | plain v => exact ⟨rfl, rfl, rfl⟩
    | entry e =>
      rw [hit_entry rfl]
      exact ⟨rfl, rfl, rfl⟩

/-- A lookup counts the workload's calls and returns what the base cache has. -/
theorem lookup_spec {V : Type*} (c : StatsCache) (caller : Caller) (key : Bytes)
    (h : Option (Held V)) :
    (c.lookup caller key h).1.counters.lookups =
        c.counters.lookups + (!caller.internal && caller.foreground).toNat ∧
      (c.lookup caller key h).1.track = c.track ∧
      (c.lookup caller key h).2.map Held.plain = h.map Held.plain := by
  unfold lookup
  cases caller.internal
  · cases caller.foreground
    · exact ⟨rfl, rfl, rfl⟩
    · cases h with
      | none => exact ⟨rfl, rfl, rfl⟩
      | some held =>
        obtain ⟨hlookups, htrack, hplain⟩ := c.hit_spec key held
        exact ⟨hlookups, htrack, congrArg some hplain⟩
  · exact ⟨rfl, rfl, rfl⟩

/-- Without tracking entries are returned as they are. -/
theorem lookup_of_not_track {V : Type*} (c : StatsCache) (h : c.track = false) (caller : Caller)
    (key : Bytes) (held : Option (Held V)) : (c.lookup caller key held).2 = held := by
  obtain ⟨track, n, now, live, lastHit⟩ := c
  obtain rfl : track = false := h
  unfold lookup
  cases caller.internal
  · cases caller.foreground
    · rfl
    · cases held <;> rfl
  · rfl

/-- `Erase`, up to the call of the wrapped cache. -/
def erase (c : StatsCache) : StatsCache :=
  { c with counters := { c.counters with erases := c.counters.erases + 1 } }

/-- `SetClock`. -/
def setClock (c : StatsCache) (secs : ℕ) : StatsCache := { c with nowSecs := secs }

/-- A slot with bytes in it that was not hit for a while. -/
def isStale (c : StatsCache) (staleAfterSecs i : ℕ) : Bool :=
  decide (c.live i ≠ 0) && decide (u64 (c.lastHit i + staleAfterSecs) < c.nowSecs)

/-- The loop of `Snapshot`, over a slot. -/
def addStale (c : StatsCache) (staleAfterSecs : ℕ) (n : CacheCounters) (i : ℕ) : CacheCounters :=
  if c.isStale staleAfterSecs i then
    { n with staleBytes := u64 (n.staleBytes + c.live i), staleIds := n.staleIds + 1 }
  else n

/-- `Snapshot`. -/
def snapshot (c : StatsCache) (staleAfterSecs : ℕ) : CacheCounters :=
  let n := { c.counters with staleBytes := 0, staleIds := 0 }
  if c.track then (List.range kSlots).foldl (c.addStale staleAfterSecs) n else n

/-- The loop over the epochs adds up the bytes of the stale ones. -/
theorem foldl_addStale (c : StatsCache) (k : ℕ) (is : List ℕ) : ∀ {n : CacheCounters} {a : ℕ},
    n.staleBytes = u64 a →
    is.foldl (c.addStale k) n =
      { n with
        staleBytes := u64 (a + tally c.live (is.filter (c.isStale k)))
        staleIds := n.staleIds + (is.filter (c.isStale k)).length } := by
  induction is with
  | nil =>
    intro n a hn
    rw [List.filter_nil, tally_nil, Nat.add_zero, ← hn]
    rfl
  | cons i is ih =>
    intro n a hn
    rw [List.foldl_cons]
    by_cases hi : c.isStale k i = true
    · have hadd : c.addStale k n i =
          { n with staleBytes := u64 (n.staleBytes + c.live i), staleIds := n.staleIds + 1 } :=
        if_pos hi
      rw [hadd, List.filter_cons_of_pos hi, ih (u64_add_of_eq hn), tally_cons,
        List.length_cons, Nat.add_assoc, Nat.add_assoc, Nat.add_comm 1]
    · have hadd : c.addStale k n i = n := if_neg hi
      rw [hadd, List.filter_cons_of_neg hi, ih hn]

/-- A snapshot has the counters, and of the stale slots their number and what is in them. -/
theorem snapshot_eq {c : StatsCache} (h : c.track = true) (k : ℕ) :
    c.snapshot k = { c.counters with
      staleBytes := u64 (tally c.live ((List.range kSlots).filter (c.isStale k)))
      staleIds := ((List.range kSlots).filter (c.isStale k)).length } := by
  unfold snapshot
  rw [if_pos h, foldl_addStale c k _ (a := 0) rfl, Nat.zero_add]
  dsimp only
  rw [Nat.zero_add]

end StatsCache

/-! ### The wrapped cache -/

/-- An operation, with what the wrapped cache does in it: `found` is the handle under which it
    finds the key, and `evicted` are the handles it lets go of.  `release` stands for `Release` and
    `Prune`, which are only passed on. -/
inductive Op (V : Type*)
  | insert (caller : Caller) (key : Bytes) (value : V) (charge : Size) (evicted : List ℕ)
  | lookup (caller : Caller) (key : Bytes) (found : Option ℕ)
  | erase (key : Bytes) (evicted : List ℕ)
  | release (evicted : List ℕ)
  | setClock (secs : ℕ)

/-- The cache and the one it wraps.  Handles are places in `target`, which keeps `none` in the
    place of what has left. -/
structure World (V : Type*) where
  cache : StatsCache
  target : List (Option (Held V)) := []

/-- What an operation returns, with the calls of the callers' deleters in it. -/
structure Answer (V : Type*) where
  handle : Option (ℕ × V) := none
  deleted : List (Bytes × V) := []

variable {V : Type*}

namespace World

/-- Before the first operation. -/
def new (track : Bool) : World V := { cache := { track } }

/-- The wrapped cache lets go of what it holds under a handle and calls the deleter. -/
def leave (w : World V) (i : ℕ) : World V × List (Bytes × V) :=
  match w.target[i]? with
  | some (some h) =>
    let target := w.target.set i none
    match h.stored with
    | .plain v => ({ w with target }, [(h.key, v)])
    | .entry e => ({ cache := w.cache.dispatch e, target }, [(h.key, e.value)])
  | _ => (w, [])

def leaveAll (w : World V) : List ℕ → World V × List (Bytes × V)
  | [] => (w, [])
  | i :: is =>
    let r := w.leave i
    let rs := r.1.leaveAll is
    (rs.1, r.2 ++ rs.2)

/-- `Lookup` of the wrapped cache: under a key it finds what was inserted under it and has not
    left. -/
def find (w : World V) (key : Bytes) (found : Option ℕ) : Option (ℕ × Held V) :=
  match found with
  | none => none
  | some i =>
    match w.target[i]? with
    | some (some h) => if h.key = key then some (i, h) else none
    | _ => none

/-- One operation. -/
def step (w : World V) : Op V → World V × Answer V
  | .insert caller key value charge evicted =>
    let r := w.cache.insert caller key value charge
    let handle := w.target.length
    -- what is evicted to make room may be the new entry itself
    let rs := leaveAll { cache := r.1, target := w.target ++ [some ⟨key, charge, r.2⟩] } evicted
    (rs.1, { handle := some (handle, value), deleted := rs.2 })
  | .lookup caller key found =>
    match w.find key found with
    | none => ({ w with cache := (w.cache.lookup (V := V) caller key none).1 }, {})
    | some (i, h) =>
      let r := w.cache.lookup caller key (some h)
      ({ cache := r.1, target := w.target.set i r.2 }, { handle := some (i, h.stored.value) })
  | .erase _ evicted =>
    let rs := leaveAll { w with cache := w.cache.erase } evicted
    (rs.1, { deleted := rs.2 })
  | .release evicted =>
    let rs := w.leaveAll evicted
    (rs.1, { deleted := rs.2 })
  | .setClock secs => ({ w with cache := w.cache.setClock secs }, {})

/-- What the wrapped cache holds. -/
def residents (w : World V) : List (Held V) := w.target.filterMap id

end World

/-! ### Lives -/

/-- An entry that was inserted, and what has become of it. -/
structure Life (V : Type*) where
  key : Bytes
  value : V
  charge : Size
  prefetched : Bool
  reads : ℕ := 0
  gone : Bool := false
  deriving DecidableEq

/-- An entry is read once more. -/
def Life.again (l : Life V) : Life V := { l with reads := l.reads + 1 }

/-- The workload looks for a key, and may find this entry. -/
def Life.read (key : Bytes) (l : Life V) : Life V :=
  if l.gone = false ∧ l.key = key then l.again else l

/-- An entry leaves. -/
def Life.leave (l : Life V) : Life V := { l with gone := true }

/-- A lookup that counts: of the workload, and not one of the plug-in's own. -/
def Op.isWorkload : Op V → Bool
  | .lookup caller _ _ => !caller.internal && caller.foreground
  | _ => false

/-- An operation, for the lives. -/
def lifeStep (ls : List (Life V)) : Op V → List (Life V)
  | .insert caller key value charge evicted =>
    let l : Life V := { key, value, charge, prefetched := caller.internal }
    evicted.foldl (fun ls i => ls.modify i Life.leave) (ls ++ [l])
  | .lookup caller key (some i) =>
    if !caller.internal && caller.foreground then ls.modify i (Life.read key) else ls
  | .lookup _ _ none => ls
  | .erase _ evicted => evicted.foldl (fun ls i => ls.modify i Life.leave) ls
  | .release evicted => evicted.foldl (fun ls i => ls.modify i Life.leave) ls
  | .setClock _ => ls

/-- The lives after a run. -/
def lives (xs : List (Op V)) : List (Life V) := xs.foldl lifeStep []

/-! ### Counters and lives -/

/-- How often a 32-bit counter is at 0 in its first `n` steps. -/
def zerosIn (n : ℕ) : ℕ := (n + (2 ^ 32 - 1)) / 2 ^ 32

theorem zerosIn_zero : zerosIn 0 = 0 := by decide

/-- One more read adds a wrap of the hit counter if it was at zero. -/
theorem zerosIn_succ (n : ℕ) : zerosIn (n + 1) = zerosIn n + if n % 2 ^ 32 = 0 then 1 else 0 := by
  unfold zerosIn
  split <;> omega

/-- Below 2^32 reads the counter is at zero once, before the first. -/
theorem zerosIn_of_lt {n : ℕ} (h : n < 2 ^ 32) : zerosIn n = if 0 < n then 1 else 0 := by
  unfold zerosIn
  split <;> omega

namespace Life

/-- What an entry adds to the bytes that are resident. -/
def liveCharge (l : Life V) : ℕ := if l.gone then 0 else l.charge

/-- What an entry adds to the bytes that have left. -/
def goneCharge (l : Life V) : ℕ := if l.gone then l.charge else 0

/-- What an entry adds to the bytes of a slot. -/
def slotCharge (s : ℕ) (l : Life V) : ℕ := if slot (cacheIdOf l.key) = s then l.liveCharge else 0

/-- How often the 32-bit counter of a prefetched entry was 0 when it was read. -/
def firstReads (l : Life V) : ℕ := if l.prefetched then zerosIn l.reads else 0

/-- A prefetched entry that was not at 0 when it left. -/
def used (l : Life V) : Bool := l.prefetched && l.gone && decide (0 < l.reads % 2 ^ 32)

/-- The `Entry` of a life. -/
def entry (l : Life V) : Entry V where
  value := l.value
  cacheId := cacheIdOf l.key
  charge := l.charge
  prefetched := l.prefetched
  hits := if l.prefetched then l.reads % 2 ^ 32 else 0

/-- An entry that is still in the cache has not been counted as used. -/
theorem used_of_resident {l : Life V} (h : l.gone = false) : l.used = false := by
  unfold used
  rw [h, Bool.and_false, Bool.false_and]

/-- What `Dispatch` reads off the entry. -/
theorem used_leave (l : Life V) :
    (if l.prefetched && decide (0 < l.entry.hits) then 1 else 0) = l.leave.used.toNat := by
  unfold used leave entry
  cases l.prefetched
  · rfl
  · simp only [Bool.true_and, if_true]
    cases decide (0 < l.reads % 2 ^ 32) <;> rfl

/-- A further read moves the counter of a prefetched entry only. -/
theorem entry_again (l : Life V) : l.again.entry =
    { l.entry with
      hits := if l.entry.prefetched then (l.entry.hits + 1) % 2 ^ 32 else l.entry.hits } := by
  unfold entry again
  cases l.prefetched
  · rfl
  · simp only [if_true, Nat.mod_add_mod]

/-- A further read counts as a first one if that counter shows zero. -/
theorem firstReads_again (l : Life V) :
    l.again.firstReads = l.firstReads + if l.prefetched ∧ l.entry.hits = 0 then 1 else 0 := by
  unfold firstReads again entry
  cases l.prefetched
  · rfl
  · simp only [if_true, true_and, zerosIn_succ]

/-- What the wrapped cache holds of a life. -/
def held (l : Life V) : Option (Held V) :=
  if l.gone then none else some ⟨l.key, l.charge, .entry l.entry⟩

/-- An entry that has left holds nothing. -/
theorem held_of_gone {l : Life V} (h : l.gone = true) : l.held = none := if_pos h

/-- An entry that has not left holds the wrapped value. -/
theorem held_of_resident {l : Life V} (h : l.gone = false) :
    l.held = some ⟨l.key, l.charge, .entry l.entry⟩ := by
  unfold held
  rw [h]
  rfl

end Life

/-- The counters are sums over the lives. -/
structure Counted (c : StatsCache) (ls : List (Life V)) : Prop where
  track : c.track = true
  lookups : c.counters.lookups = c.counters.hits + c.counters.misses
  hits : c.counters.hits = tally Life.reads ls
  inserts : c.counters.inserts = ls.length
  insertBytes : c.counters.insertBytes = u64 (tally (fun l => (l.charge : ℕ)) ls)
  evictions : c.counters.evictions = tally (fun l => l.gone.toNat) ls
  evictedBytes : c.counters.evictedBytes = u64 (tally Life.goneCharge ls)
  liveBytes : c.counters.liveBytes = u64 (tally Life.liveCharge ls)
  live : ∀ s, c.live s = u64 (tally (Life.slotCharge s) ls)
  pfInserted : c.counters.pfInserted = tally (fun l => l.prefetched.toNat) ls
  pfEvicted : c.counters.pfEvicted = tally (fun l => (l.prefetched && l.gone).toNat) ls
  pfUsed : c.counters.pfUsed = tally (fun l => l.used.toNat) ls
  pfReadOnce : c.counters.pfReadOnce = tally Life.firstReads ls

namespace Counted

variable {c : StatsCache} {ls : List (Life V)}

/-- **An entry is inserted.** -/
theorem born (h : Counted c ls) (caller : Caller) (key : Bytes) (value : V) (charge : Size) :
    Counted (c.insert caller key value charge).1
      (ls ++ [{ key, value, charge, prefetched := caller.internal }]) := by
  obtain ⟨track, n, now, live, lastHit⟩ := c
  obtain rfl : track = true := h.track
  refine ⟨rfl, h.lookups, ?_, ?_, ?_, ?_, ?_, ?_, ?_, ?_, ?_, ?_, ?_⟩
  · rw [tally_append_singleton]
    exact h.hits
  · rw [List.length_append]
    exact congrArg (· + 1) h.inserts
  · rw [tally_append_singleton]
    exact u64_add_of_eq h.insertBytes
  · rw [tally_append_singleton]
    exact h.evictions
  · rw [tally_append_singleton]
    exact h.evictedBytes
  · rw [tally_append_singleton]
    exact u64_add_of_eq h.liveBytes
  · intro s
    show Function.update live (slot (cacheIdOf key))
      (u64 (live (slot (cacheIdOf key)) + charge)) s = _
    rw [tally_append_singleton, Life.slotCharge]
    by_cases hs : slot (cacheIdOf key) = s
    · subst hs
      rw [Function.update_self, if_pos rfl]
      exact u64_add_of_eq (h.live _)
    · rw [Function.update_of_ne (Ne.symm hs), if_neg hs]
      exact h.live s
  · rw [tally_append_singleton, ← h.pfInserted]
    cases hpf : caller.internal <;> simp [StatsCache.insert, hpf]
  · rw [tally_append_singleton, ← h.pfEvicted, Bool.and_false]
    rfl
  · rw [tally_append_singleton, ← h.pfUsed, Life.used, Bool.and_false]
    rfl
  · rw [tally_append_singleton, ← h.pfReadOnce, Life.firstReads, zerosIn_zero, ite_self]
    rfl

/-- With tracking on, `Insert` stores the entry of a life that begins. -/
theorem insert_snd (h : Counted c ls) (caller : Caller) (key : Bytes) (value : V) (charge : Size) :
    (c.insert caller key value charge).2 =
      .entry (Life.entry { key, value, charge, prefetched := caller.internal }) := by
  obtain ⟨track, n, now, live, lastHit⟩ := c
  obtain rfl : track = true := h.track
  unfold Life.entry
  rw [Nat.zero_mod, ite_self]
  rfl

/-- **An entry leaves.** -/
theorem letGo (h : Counted c ls) {i : ℕ} {l : Life V} (hl : ls[i]? = some l)
    (hgone : l.gone = false) : Counted (c.dispatch l.entry) (ls.modify i Life.leave) := by
  have hmodify : ∀ f : Life V → ℕ,
      tally f (ls.modify i Life.leave) + f l = tally f ls + f l.leave :=
    fun f => tally_modify f Life.leave hl
  have hsame : ∀ f : Life V → ℕ, f l.leave = f l →
      tally f (ls.modify i Life.leave) = tally f ls := fun f => tally_modify_of_eq hl
  obtain ⟨track, n, now, live, lastHit⟩ := c
  -- bytes move from the live sums to the evicted one; reads and what was inserted stay
  refine ⟨h.track, h.lookups, ?_, ?_, ?_, ?_, ?_, ?_, ?_, ?_, ?_, ?_, ?_⟩
  · rw [hsame Life.reads rfl]
    exact h.hits
  · rw [List.length_modify]
    exact h.inserts
  · rw [hsame (fun l => (l.charge : ℕ)) rfl]
    exact h.insertBytes
  · show n.evictions + 1 = _
    have hm := hmodify fun l => l.gone.toNat
    rw [hgone, ← h.evictions] at hm
    exact hm.symm
  · show u64 (n.evictedBytes + l.charge) = _
    have hm := hmodify Life.goneCharge
    simp only [Life.goneCharge, Life.leave, hgone, if_true, Bool.false_eq_true, if_false] at hm
    rw [u64_add_of_eq h.evictedBytes]
    exact congrArg u64 hm.symm
  · show sub64 n.liveBytes l.charge = _
    have hm := hmodify Life.liveCharge
    simp only [Life.liveCharge, Life.leave, hgone, if_true, Bool.false_eq_true, if_false] at hm
    exact sub64_of_eq h.liveBytes hm l.charge.isLt
  · intro s
    show Function.update live (slot (cacheIdOf l.key))
      (sub64 (live (slot (cacheIdOf l.key))) l.charge) s = _
    by_cases hs : slot (cacheIdOf l.key) = s
    · subst hs
      have hm := hmodify (Life.slotCharge (slot (cacheIdOf l.key)))
      simp only [Life.slotCharge, Life.liveCharge, Life.leave, hgone, if_true, Bool.false_eq_true,
        if_false] at hm
      rw [Function.update_self]
      exact sub64_of_eq (h.live _) hm l.charge.isLt
    · rw [Function.update_of_ne (Ne.symm hs), hsame (Life.slotCharge s)]
      · exact h.live s
      · simp only [Life.slotCharge, Life.leave, hs, if_false]
  · rw [hsame (fun l => l.prefetched.toNat) rfl]
    exact h.pfInserted
  · show (n.pfEvicted + if l.prefetched then 1 else 0) = _
    have hm := hmodify fun l => (l.prefetched && l.gone).toNat
    rw [← h.pfEvicted, hgone] at hm
    cases hpf : l.prefetched <;> simp [Life.leave, hpf] at hm ⊢ <;> omega
  · show (n.pfUsed + if l.prefetched && decide (0 < l.entry.hits) then 1 else 0) = _
    have hm := hmodify fun l => l.used.toNat
    rw [← h.pfUsed, Life.used_of_resident hgone] at hm
    rw [Life.used_leave]
    exact hm.symm
  · rw [hsame Life.firstReads rfl]
    exact h.pfReadOnce

/-- What the counters are after an entry is read. -/
theorem reads (h : Counted c ls) {i : ℕ} {l : Life V} (hl : ls[i]? = some l)
    (hgone : l.gone = false) (n : CacheCounters) (lastHit : ℕ → ℕ)
    (hn : n = { c.counters with
      lookups := c.counters.lookups + 1
      hits := c.counters.hits + 1
      pfReadOnce := c.counters.pfReadOnce + if l.prefetched ∧ l.entry.hits = 0 then 1 else 0 }) :
    Counted { c with counters := n, lastHit := lastHit } (ls.modify i (Life.read l.key)) := by
  -- only reads and first reads of this life change; every other tally is that of before
  have hread : l.read l.key = l.again := if_pos ⟨hgone, rfl⟩
  have hmodify : ∀ f : Life V → ℕ, tally f (ls.modify i (Life.read l.key)) + f l =
      tally f ls + f l.again := by
    intro f
    rw [tally_modify f (Life.read l.key) hl, hread]
  have hsame : ∀ f : Life V → ℕ, f l.again = f l →
      tally f (ls.modify i (Life.read l.key)) = tally f ls := by
    intro f hf
    exact tally_modify_of_eq hl (by rw [hread, hf])
  subst hn
  refine ⟨h.track, ?_, ?_, ?_, ?_, ?_, ?_, ?_, ?_, ?_, ?_, ?_, ?_⟩
  · show c.counters.lookups + 1 = c.counters.hits + 1 + c.counters.misses
    rw [h.lookups, Nat.add_right_comm]
  · show c.counters.hits + 1 = _
    have hm : _ + l.reads = _ + (l.reads + 1) := hmodify Life.reads
    rw [h.hits]
    omega
  · rw [List.length_modify]
    exact h.inserts
  · rw [hsame (fun l => (l.charge : ℕ)) rfl]
    exact h.insertBytes
  · rw [hsame (fun l => l.gone.toNat) rfl]
    exact h.evictions
  · rw [hsame Life.goneCharge rfl]
    exact h.evictedBytes
  · rw [hsame Life.liveCharge rfl]
    exact h.liveBytes
  · intro s
    rw [hsame (Life.slotCharge s) rfl]
    exact h.live s
  · rw [hsame (fun l => l.prefetched.toNat) rfl]
    exact h.pfInserted
  · rw [hsame (fun l => (l.prefetched && l.gone).toNat) rfl]
    exact h.pfEvicted
  · have hused : l.again.used = l.used := by
      rw [Life.used_of_resident hgone, Life.used_of_resident (l := l.again) hgone]
    rw [hsame (fun l => l.used.toNat) (congrArg Bool.toNat hused)]
    exact h.pfUsed
  · show (c.counters.pfReadOnce + if l.prefetched ∧ l.entry.hits = 0 then 1 else 0) = _
    have hm := hmodify Life.firstReads
    rw [Life.firstReads_again] at hm
    rw [h.pfReadOnce]
    omega

/-- **An entry is read** by the workload. -/
theorem read (h : Counted c ls) {i : ℕ} {l : Life V} (hl : ls[i]? = some l)
    (hgone : l.gone = false) :
    Counted (c.hit l.key ⟨l.key, l.charge, .entry l.entry⟩).1 (ls.modify i (Life.read l.key)) ∧
      some (c.hit l.key ⟨l.key, l.charge, .entry l.entry⟩).2 = (l.read l.key).held := by
  have hread : l.read l.key = l.again := if_pos ⟨hgone, rfl⟩
  rw [hread, Life.held_of_resident (l := l.again) hgone, StatsCache.hit_entry h.track,
    Life.entry_again]
  exact ⟨h.reads hl hgone _ _ rfl, rfl⟩

/-- A lookup that finds nothing, or that is not the workload's, is in no life. -/
theorem lookup_other (h : Counted c ls) (caller : Caller) (key : Bytes) (held : Option (Held V))
    (hother : held = none ∨ (!caller.internal && caller.foreground) = false) :
    Counted (c.lookup caller key held).1 ls ∧ (c.lookup caller key held).2 = held := by
  unfold StatsCache.lookup
  by_cases hinternal : caller.internal = true
  · rw [if_pos hinternal]
    exact ⟨{ h with }, rfl⟩
  · rw [if_neg hinternal]
    by_cases hforeground : caller.foreground = true
    · have hnone : held = none := hother.resolve_right (by simp [hinternal, hforeground])
      rw [if_neg (by simp [hforeground]), hnone]
      refine ⟨{ h with lookups := ?_ }, rfl⟩
      show c.counters.lookups + 1 = c.counters.hits + (c.counters.misses + 1)
      rw [h.lookups, Nat.add_assoc]
    · rw [if_pos (by simp [hforeground])]
      exact ⟨{ h with }, rfl⟩

end Counted

/-- The counters and what the wrapped cache holds are as the lives say. -/
structure Tracks (w : World V) (ls : List (Life V)) : Prop where
  counted : Counted w.cache ls
  target : w.target = ls.map Life.held

namespace Tracks

variable {w : World V} {ls : List (Life V)}

/-- Nothing has happened to a new cache. -/
theorem new : Tracks (World.new true : World V) [] where
  counted := ⟨rfl, rfl, rfl, rfl, rfl, rfl, rfl, rfl, fun _ => rfl, rfl, rfl, rfl, rfl⟩
  target := rfl

/-- A handle, and the life it is of. -/
theorem getElem?_target (h : Tracks w ls) (i : ℕ) : w.target[i]? = ls[i]?.map Life.held := by
  rw [h.target, List.getElem?_map]

/-- Changing one life changes one handle of the base cache. -/
theorem map_modify {f : Life V → Life V} {i : ℕ} {l : Life V} (hl : ls[i]? = some l) :
    (ls.modify i f).map Life.held = (ls.map Life.held).set i (f l).held := by
  rw [List.modify_eq_set_getElem?, hl]
  exact List.map_set

/-- The wrapped cache lets go of an entry; a handle of what has left already is none. -/
theorem leave (h : Tracks w ls) (i : ℕ) : Tracks (w.leave i).1 (ls.modify i Life.leave) := by
  unfold World.leave
  rw [h.getElem?_target]
  cases hl : ls[i]? with
  | none =>
    rw [List.modify_eq_self (List.getElem?_eq_none_iff.mp hl)]
    exact h
  | some l =>
    cases hgone : l.gone with
    | true =>
      have hself : l.leave = l := by
        unfold Life.leave
        rw [← hgone]
      rw [modify_eq_self_of_eq hl hself, Option.map_some, Life.held_of_gone hgone]
      exact h
    | false =>
      rw [Option.map_some, Life.held_of_resident hgone]
      refine ⟨h.counted.letGo hl hgone, ?_⟩
      rw [map_modify hl, Life.held_of_gone (l := l.leave) rfl, ← h.target]

/-- Evictions one after the other keep the record. -/
theorem leaveAll (h : Tracks w ls) (is : List ℕ) :
    Tracks (w.leaveAll is).1 (is.foldl (fun ls i => ls.modify i Life.leave) ls) := by
  induction is generalizing w ls with
  | nil => exact h
  | cons i is ih => exact ih (h.leave i)

/-- What the wrapped cache finds is the entry of a life that is not over. -/
theorem find_cases (h : Tracks w ls) (key : Bytes) (i : ℕ) :
    (∃ l, ls[i]? = some l ∧ l.gone = false ∧ l.key = key ∧
      w.find key (some i) = some (i, ⟨l.key, l.charge, .entry l.entry⟩)) ∨
    w.find key (some i) = none ∧ ls.modify i (Life.read key) = ls := by
  unfold World.find
  simp only
  rw [h.getElem?_target]
  cases hl : ls[i]? with
  | none => exact Or.inr ⟨rfl, List.modify_eq_self (List.getElem?_eq_none_iff.mp hl)⟩
  | some l =>
    by_cases hread : l.gone = false ∧ l.key = key
    · refine Or.inl ⟨l, rfl, hread.1, hread.2, ?_⟩
      rw [Option.map_some, Life.held_of_resident hread.1]
      exact if_pos hread.2
    · refine Or.inr ⟨?_, modify_eq_self_of_eq hl (if_neg hread)⟩
      cases hgone : l.gone with
      | true => rw [Option.map_some, Life.held_of_gone hgone]
      | false =>
        rw [Option.map_some, Life.held_of_resident hgone]
        exact if_neg fun hkey => hread ⟨hgone, hkey⟩

/-- A lookup keeps the record: the life it finds is read once more. -/
theorem lookup (h : Tracks w ls) (caller : Caller) (key : Bytes) (found : Option ℕ) :
    Tracks (w.step (.lookup caller key found)).1 (lifeStep ls (.lookup caller key found)) := by
  unfold World.step
  simp only
  cases found with
  | none => exact ⟨(h.counted.lookup_other caller key none (Or.inl rfl)).1, h.target⟩
  | some i =>
    show Tracks _
      (if !caller.internal && caller.foreground then ls.modify i (Life.read key) else ls)
    rcases h.find_cases key i with ⟨l, hl, hgone, rfl, hfind⟩ | ⟨hfind, hmodify⟩
    · rw [hfind]
      dsimp only
      by_cases hworkload : (!caller.internal && caller.foreground) = true
      · obtain ⟨hcounted, hheld⟩ := h.counted.read hl hgone
        rw [if_pos hworkload, StatsCache.lookup_workload _ hworkload]
        refine ⟨hcounted, ?_⟩
        rw [map_modify hl, ← hheld, ← h.target]
      · obtain ⟨hcounted, hheld⟩ := h.counted.lookup_other caller l.key
          (some ⟨l.key, l.charge, .entry l.entry⟩) (Or.inr (Bool.eq_false_iff.mpr hworkload))
        rw [if_neg hworkload]
        refine ⟨hcounted, ?_⟩
        have hset := map_modify (f := id) hl
        rw [modify_eq_self_of_eq hl rfl] at hset
        rw [hheld, ← Life.held_of_resident hgone, h.target]
        exact hset.symm
    · rw [hfind, hmodify, ite_self]
      exact ⟨(h.counted.lookup_other caller key none (Or.inl rfl)).1, h.target⟩

/-- **One operation.** -/
theorem step (h : Tracks w ls) (x : Op V) : Tracks (w.step x).1 (lifeStep ls x) := by
  cases x with
  | insert caller key value charge evicted =>
    refine leaveAll ⟨h.counted.born caller key value charge, ?_⟩ evicted
    rw [List.map_append, ← h.target, h.counted.insert_snd]
    rfl
  | lookup caller key found => exact h.lookup caller key found
  | erase key evicted =>
    have herase : Tracks { w with cache := w.cache.erase } ls := ⟨{ h.counted with }, h.target⟩
    exact herase.leaveAll evicted
  | release evicted => exact h.leaveAll evicted
  | setClock secs => exact ⟨{ h.counted with }, h.target⟩

end Tracks

/-- **Every run** keeps the counters in step with the lives. -/
theorem tracks_run (xs : List (Op V)) : Tracks (run World.step (World.new true) xs) (lives xs) :=
  run_refines (R := Tracks) (fun _ _ x h => h.step x) xs Tracks.new

/-! ### What is reported -/

namespace World

/-- Evictions are no lookups. -/
theorem lookups_leaveAll (w : World V) (is : List ℕ) :
    (w.leaveAll is).1.cache.counters.lookups = w.cache.counters.lookups := by
  induction is generalizing w with
  | nil => rfl
  | cons i is ih =>
    show ((w.leave i).1.leaveAll is).1.cache.counters.lookups = _
    rw [ih]
    unfold leave
    split
    · split <;> rfl
    · rfl

/-- The lookups that are counted. -/
theorem lookups_step (w : World V) (x : Op V) :
    (w.step x).1.cache.counters.lookups = w.cache.counters.lookups + x.isWorkload.toNat := by
  cases x with
  | insert caller key value charge evicted =>
    show (leaveAll _ evicted).1.cache.counters.lookups = _
    rw [lookups_leaveAll]
    unfold StatsCache.insert
    cases w.cache.track <;> rfl
  | lookup caller key found =>
    unfold step
    dsimp only
    cases w.find key found with
    | none => exact (w.cache.lookup_spec (V := V) caller key none).1
    | some p => exact (w.cache.lookup_spec caller key (some p.2)).1
  | erase key evicted => exact lookups_leaveAll _ evicted
  | release evicted => exact lookups_leaveAll w evicted
  | setClock secs => rfl

end World

/-- Subtracting what was added, on wrapped words. -/
theorem sub64_u64_u64 (a b : ℕ) : sub64 (u64 (a + b)) (u64 b) = u64 a := by
  unfold sub64 u64
  split <;> omega

namespace Tracks

variable {w : World V} {ls : List (Life V)}

/-- The base cache holds what the lives say is still there. -/
theorem residents_eq (h : Tracks w ls) : w.residents = ls.filterMap Life.held := by
  unfold World.residents
  rw [h.target, List.filterMap_map]
  rfl

/-- A sum over what is held is a sum over the lives. -/
theorem tally_residents (h : Tracks w ls) (f : Held V → ℕ) :
    tally f w.residents =
      tally (fun l => if l.gone then 0 else f ⟨l.key, l.charge, .entry l.entry⟩) ls := by
  rw [h.residents_eq, tally_filterMap]
  refine tally_congr fun l _ => ?_
  unfold Life.held
  cases l.gone <;> rfl

/-- Every charge is either live or gone. -/
theorem tally_charge (ls : List (Life V)) :
    tally (fun l => (l.charge : ℕ)) ls = tally Life.liveCharge ls + tally Life.goneCharge ls := by
  rw [← tally_add]
  refine tally_congr fun l _ => ?_
  unfold Life.liveCharge Life.goneCharge
  cases l.gone
  · rfl
  · exact (Nat.zero_add _).symm

/-- Every insertion is either gone or resident. -/
theorem length_lives (h : Tracks w ls) :
    ls.length = tally (fun l => l.gone.toNat) ls + w.residents.length := by
  rw [length_eq_tally, length_eq_tally, h.tally_residents, ← tally_add]
  refine tally_congr fun l _ => ?_
  cases l.gone <;> rfl

end Tracks

/-- What the counters `n` of a state say, after the run `xs` that led to it. -/
structure Exact (n : CacheCounters) (w : World V) (xs : List (Op V)) : Prop where
  lookups : n.lookups = n.hits + n.misses
  workload : n.lookups = xs.countP Op.isWorkload
  live : n.liveBytes = sub64 n.insertBytes n.evictedBytes
  resident : n.liveBytes = u64 (tally (fun h => h.charge) w.residents)
  slots : ∀ s, w.cache.live s =
    u64 (tally (fun h => h.charge) (w.residents.filter fun h => slot (cacheIdOf h.key) = s))
  entries : n.inserts = n.evictions + w.residents.length
  pfInserted : n.pfInserted = (lives xs).countP fun l => l.prefetched
  pfEvicted : n.pfEvicted = (lives xs).countP fun l => l.prefetched && l.gone
  pfReadOnce : n.pfReadOnce = (lives xs).countP fun l => l.prefetched && decide (0 < l.reads)
  pfUsed : n.pfUsed = (lives xs).countP fun l =>
    l.prefetched && decide (0 < l.reads) && l.gone
  used_le_evicted : n.pfUsed ≤ n.pfEvicted
  evicted_le_inserted : n.pfEvicted ≤ n.pfInserted
  used_le_read : n.pfUsed ≤ n.pfReadOnce
  read_le_inserted : n.pfReadOnce ≤ n.pfInserted

/-- With fewer than `2^32` reads of every entry, first reads are counted once. -/
theorem Counted.pfReadOnce_eq {c : StatsCache} {ls : List (Life V)} (h : Counted c ls)
    (hreads : ∀ l ∈ ls, l.reads < 2 ^ 32) :
    c.counters.pfReadOnce = ls.countP fun l => l.prefetched && decide (0 < l.reads) := by
  rw [h.pfReadOnce, ← tally_toNat]
  refine tally_congr fun l hl => ?_
  unfold Life.firstReads
  rw [zerosIn_of_lt (hreads l hl)]
  cases l.prefetched
  · rfl
  · by_cases hread : 0 < l.reads <;> simp [hread]

/-- With less than 2^32 reads each, `pf_used` counts the prefetched entries that were read and have
    left. -/
theorem Counted.pfUsed_eq {c : StatsCache} {ls : List (Life V)} (h : Counted c ls)
    (hreads : ∀ l ∈ ls, l.reads < 2 ^ 32) :
    c.counters.pfUsed = ls.countP fun l => l.prefetched && decide (0 < l.reads) && l.gone := by
  rw [h.pfUsed, tally_toNat]
  refine List.countP_congr fun l hl => ?_
  unfold Life.used
  rw [Nat.mod_eq_of_lt (hreads l hl), Bool.and_right_comm]

/-- **The accounting is exact**, after every run in which no entry is read `2^32` times. -/
theorem accounting_exact (xs : List (Op V)) (hreads : ∀ l ∈ lives xs, l.reads < 2 ^ 32)
    (staleAfterSecs : ℕ) :
    Exact ((run World.step (World.new true) xs).cache.snapshot staleAfterSecs)
      (run World.step (World.new true) xs) xs := by
  -- the counters are tallies over the lives; what is left is to compare the tallies
  have h := tracks_run xs
  have hc := h.counted
  have hevicted : (run World.step (World.new true) xs).cache.counters.pfEvicted =
      (lives xs).countP fun l => l.prefetched && l.gone := by
    rw [hc.pfEvicted, tally_toNat]
  have hinserted : (run World.step (World.new true) xs).cache.counters.pfInserted =
      (lives xs).countP fun l => l.prefetched := by
    rw [hc.pfInserted, tally_toNat]
  have hread := hc.pfReadOnce_eq hreads
  have hused := hc.pfUsed_eq hreads
  rw [StatsCache.snapshot_eq hc.track]
  refine ⟨hc.lookups, ?_, ?_, ?_, ?_, ?_, hinserted, hevicted, hread, hused, ?_, ?_, ?_, ?_⟩
  · rw [run_tally (fun w : World V => w.cache.counters.lookups) World.lookups_step, tally_toNat]
    exact Nat.zero_add _
  · rw [hc.liveBytes, hc.insertBytes, hc.evictedBytes, Tracks.tally_charge, sub64_u64_u64]
  · rw [hc.liveBytes, h.tally_residents]
    rfl
  · intro s
    rw [hc.live, tally_filter, h.tally_residents]
    refine congrArg u64 (tally_congr fun l _ => ?_)
    unfold Life.slotCharge Life.liveCharge
    cases l.gone <;> simp
  · rw [hc.inserts, hc.evictions]
    exact h.length_lives
  · rw [hused, hevicted]
    refine List.countP_mono_left fun l _ hl => ?_
    simp only [Bool.and_eq_true] at hl ⊢
    exact ⟨hl.1.1, hl.2⟩
  · rw [hevicted, hinserted]
    exact List.countP_mono_left fun l _ hl => (Bool.and_eq_true_iff.mp hl).1
  · rw [hused, hread]
    exact List.countP_mono_left fun l _ hl => (Bool.and_eq_true_iff.mp hl).1
  · rw [hread, hinserted]
    exact List.countP_mono_left fun l _ hl => (Bool.and_eq_true_iff.mp hl).1

/-- What a block is charged in the samples. -/
def blockCharge : Size := 4096

/-- A block is prefetched, read twice and evicted; another one is only prefetched. -/
def readTwice : List (Op ℕ) :=
  let key : Bytes := [1, 0, 0, 0, 0, 0, 0, 0, 0]
  [.insert ⟨true, false⟩ key 7 blockCharge [], .lookup ⟨false, true⟩ key (some 0),
    .lookup ⟨false, true⟩ key (some 0), .lookup ⟨false, true⟩ [2] none,
    .insert ⟨true, false⟩ [2] 8 512 [0]]

/-- The block that was read and evicted counts as used; the other one is live. -/
theorem accounting_exact_readTwice :
    Exact ((run World.step (World.new true) readTwice).cache.snapshot 60)
        (run World.step (World.new true) readTwice) readTwice ∧
      (run World.step (World.new true) readTwice).cache.counters.lookups = 3 ∧
      (run World.step (World.new true) readTwice).cache.counters.liveBytes = 512 ∧
      (run World.step (World.new true) readTwice).cache.counters.pfUsed = 1 :=
  ⟨accounting_exact readTwice (by decide) 60, by decide, by decide, by decide⟩

/-! ### Transparency -/

/-- The same cache with tracking and without. -/
structure Alike (w w' : World V) : Prop where
  track : w.cache.track = true
  plain : w'.cache.track = false
  target : w'.target = w.target.map (Option.map Held.plain)

namespace Alike

variable {w w' : World V}

/-- An eviction in both caches, with the same observation. -/
theorem leave (h : Alike w w') (i : ℕ) :
    Alike (w.leave i).1 (w'.leave i).1 ∧ (w.leave i).2 = (w'.leave i).2 := by
  unfold World.leave
  rw [h.target, List.getElem?_map]
  cases hi : w.target[i]? with
  | none => exact ⟨h, rfl⟩
  | some o =>
    cases o with
    | none => exact ⟨h, rfl⟩
    | some held =>
      have hset : (w.target.map (Option.map Held.plain)).set i none =
          (w.target.set i none).map (Option.map Held.plain) := by
        rw [List.map_set]
        rfl
      obtain ⟨key, charge, stored⟩ := held
      cases stored with
      | plain v => exact ⟨⟨h.track, h.plain, hset⟩, rfl⟩
      | entry e => exact ⟨⟨h.track, h.plain, hset⟩, rfl⟩

/-- Any number of evictions in both caches, with the same observations. -/
theorem leaveAll (h : Alike w w') (is : List ℕ) :
    Alike (w.leaveAll is).1 (w'.leaveAll is).1 ∧ (w.leaveAll is).2 = (w'.leaveAll is).2 := by
  induction is generalizing w w' with
  | nil => exact ⟨h, rfl⟩
  | cons i is ih =>
    obtain ⟨hleave, hout⟩ := h.leave i
    obtain ⟨hrest, houts⟩ := ih hleave
    refine ⟨hrest, ?_⟩
    show (w.leave i).2 ++ _ = (w'.leave i).2 ++ _
    rw [hout, houts]

/-- Both caches find the same block, with and without its wrapper. -/
theorem find (h : Alike w w') (key : Bytes) (found : Option ℕ) :
    w'.find key found = (w.find key found).map fun p => (p.1, p.2.plain) := by
  unfold World.find
  cases found with
  | none => rfl
  | some i =>
    dsimp only
    rw [h.target, List.getElem?_map]
    cases w.target[i]? with
    | none => rfl
    | some o =>
      cases o with
      | none => rfl
      | some held =>
        show (if held.key = key then some (i, held.plain) else none) =
          Option.map _ (if held.key = key then some (i, held) else none)
        split <;> rfl

/-- **One operation** is answered alike. -/
theorem step (h : Alike w w') (x : Op V) :
    Alike (w.step x).1 (w'.step x).1 ∧ (w.step x).2 = (w'.step x).2 := by
  cases x with
  | insert caller key value charge evicted =>
    obtain ⟨htrack, hvalue⟩ := w.cache.insert_spec caller key value charge
    obtain ⟨htrack', -⟩ := w'.cache.insert_spec caller key value charge
    have hinsert : Alike
        ⟨(w.cache.insert caller key value charge).1,
          w.target ++ [some ⟨key, charge, (w.cache.insert caller key value charge).2⟩]⟩
        ⟨(w'.cache.insert caller key value charge).1,
          w'.target ++ [some ⟨key, charge, (w'.cache.insert caller key value charge).2⟩]⟩ := by
      refine ⟨htrack.trans h.track, htrack'.trans h.plain, ?_⟩
      rw [List.map_append, h.target, w'.cache.insert_of_not_track h.plain]
      show _ = _ ++ [some (Held.plain _)]
      unfold Held.plain
      rw [hvalue]
    obtain ⟨hleave, hout⟩ := hinsert.leaveAll evicted
    refine ⟨hleave, ?_⟩
    have hlength : w.target.length = w'.target.length := by rw [h.target, List.length_map]
    unfold World.step
    dsimp only
    rw [hout, hlength]
  | lookup caller key found =>
    unfold World.step
    dsimp only
    rw [h.find]
    cases w.find key found with
    | none =>
      obtain ⟨-, htrack, -⟩ := w.cache.lookup_spec (V := V) caller key none
      obtain ⟨-, htrack', -⟩ := w'.cache.lookup_spec (V := V) caller key none
      exact ⟨⟨htrack.trans h.track, htrack'.trans h.plain, h.target⟩, rfl⟩
    | some p =>
      obtain ⟨-, htrack, hplain⟩ := w.cache.lookup_spec caller key (some p.2)
      obtain ⟨-, htrack', hplain'⟩ := w'.cache.lookup_spec caller key (some p.2.plain)
      refine ⟨⟨htrack.trans h.track, htrack'.trans h.plain, ?_⟩, rfl⟩
      show w'.target.set p.1 (w'.cache.lookup caller key (some p.2.plain)).2 =
        (w.target.set p.1 (w.cache.lookup caller key (some p.2)).2).map (Option.map Held.plain)
      rw [List.map_set, hplain, h.target, w'.cache.lookup_of_not_track h.plain]
      rfl
  | erase key evicted =>
    have herase : Alike { w with cache := w.cache.erase } { w' with cache := w'.cache.erase } :=
      ⟨h.track, h.plain, h.target⟩
    obtain ⟨hleave, hout⟩ := herase.leaveAll evicted
    exact ⟨hleave, congrArg (Answer.mk none) hout⟩
  | release evicted =>
    obtain ⟨hleave, hout⟩ := h.leaveAll evicted
    exact ⟨hleave, congrArg (Answer.mk none) hout⟩
  | setClock secs => exact ⟨⟨h.track, h.plain, h.target⟩, rfl⟩

end Alike

/-- **Tracking is invisible.**  Every run of operations is answered the same with tracking and
    without, the calls of the deleters included. -/
theorem tracking_transparent (xs : List (Op V)) :
    outs World.step (World.new true) xs = outs World.step (World.new false) xs := by
  have hnew : Alike (World.new true : World V) (World.new false) := ⟨rfl, rfl, rfl⟩
  exact outs_eq_of_step (R := Alike) (fun _ _ x h => h.step x) xs hnew

end Leaper.Bench
