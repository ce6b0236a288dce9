import Leaper.Adapters.LevelDB
import Leaper.Core.Mapper

namespace Leaper.LevelDB

open Lib

/-!
# Block bounds from an SST index

`Table::ForEachDataBlock` (in the engine patch) reports each data block of a file with the
keys its index entry gives: the entry's own key from above and the previous entry's key from
below.  The adapter turns both into range ids.  A file is given by its data blocks and their index
keys (`Sst`).  Of these the engine promises that a key between two blocks separates them, shortened
or not, and that the key after the last block is its last key's first byte plus one.

* `reported_tail_iff` — past the first block, the reported bounds contain every key's range
  unless the last index key has left the digits;
* `reported_iff` — the exact condition for a whole file: the first block, which has no entry
  before it, is reported with its upper key on both sides.
-/

/-! ### Index keys -/

/-- A user key of sixteen decimal digits. -/
def IsKey (k : Bytes) : Prop := k.length = 16 ∧ ∀ c ∈ k, isDigit c = true

instance (k : Bytes) : Decidable (IsKey k) := inferInstanceAs (Decidable (_ ∧ _))

/-- A digit string no longer than a key: what a shortened key is. -/
def IsShortened (k : Bytes) : Prop := k.length ≤ 16 ∧ ∀ c ∈ k, isDigit c = true

instance (k : Bytes) : Decidable (IsShortened k) := inferInstanceAs (Decidable (_ ∧ _))

theorem IsKey.isShortened {k : Bytes} (h : IsKey k) : IsShortened k := ⟨h.1.le, h.2⟩

/-- A key's first byte plus one, and nothing after it. -/
def truncatedSuccessor (k : Bytes) : Bytes := [k.headD 0 + 1]

/-- The successor of a key that does not begin with `'9'` is a shortened key above it. -/
theorem truncatedSuccessor_above {k : Bytes} (hk : IsKey k) (h9 : k.head? ≠ some 57) :
    IsShortened (truncatedSuccessor k) ∧ dictLe k (truncatedSuccessor k) = true := by
  obtain ⟨hlen, hdig⟩ := hk
  match k, hlen with
  | c :: k, _ =>
    have hc := hdig c List.mem_cons_self
    simp only [isDigit, Bool.and_eq_true, decide_eq_true_eq] at hc
    have hne : c ≠ 57 := fun h => h9 (by rw [h]; rfl)
    -- a digit below nine is followed by a digit
    show IsShortened [c + 1] ∧ dictLe (c :: k) [c + 1] = true
    refine ⟨⟨by simp, ?_⟩, (dictLe_cons _ _ _ _).mpr (.inl (by omega))⟩
    intro x hx
    obtain rfl := List.mem_singleton.mp hx
    simp only [isDigit, Bool.and_eq_true, decide_eq_true_eq]
    omega

/-- The successor of a key that begins with `'9'` is the single byte after the digits. -/
theorem truncatedSuccessor_of_nine {k : Bytes} (h9 : k.head? = some 57) :
    truncatedSuccessor k = [58] := by
  match k, h9 with
  | _ :: _, rfl => rfl

/-! ### Tables -/

/-- A data block: its user keys in order, where it lies in the file, and the key of its index
    entry, which is a user key and a tag of eight bytes. -/
structure DataBlock where
  first : Bytes
  rest : List Bytes
  offset : ℕ
  size : ℕ
  indexKey : Bytes
  tag : Bytes
  isKey : ∀ k ∈ first :: rest, IsKey k
  sorted : (first :: rest).Pairwise (fun j k => dictLe j k = true)
  tag_length : tag.length = 8

namespace DataBlock

def keys (b : DataBlock) : List Bytes := b.first :: b.rest

def last (b : DataBlock) : Bytes := b.rest.getLastD b.first

theorem first_mem (b : DataBlock) : b.first ∈ b.keys := List.mem_cons_self

theorem last_mem (b : DataBlock) : b.last ∈ b.keys := List.getLastD_mem_cons

theorem first_le {b : DataBlock} {k : Bytes} (hk : k ∈ b.keys) : dictLe b.first k = true := by
  rcases List.mem_cons.mp hk with rfl | hk
  · exact dictLe_refl _
  · exact (List.pairwise_cons.mp b.sorted).1 k hk

theorem le_last {b : DataBlock} {k : Bytes} (hk : k ∈ b.keys) : dictLe k b.last = true := by
  have hrefl : Std.Refl fun j k : Bytes => dictLe j k = true := ⟨dictLe_refl⟩
  have hlast := b.sorted.rel_getLast hk
  rwa [List.getLast_eq_getLastD] at hlast

/-- **What the engine promises of a separator**: a shortened key from the last key of a block up to
    the first key of the next. -/
structure Separated (b c : DataBlock) : Prop where
  shortened : IsShortened b.indexKey
  above : dictLe b.last b.indexKey = true
  below : dictLe b.indexKey c.first = true

end DataBlock

/-- An SST with data blocks, in increasing key order.  `successor` is what the engine promises of
    the last index key. -/
structure Sst where
  head : DataBlock
  tail : List DataBlock
  separated : (head :: tail).IsChain DataBlock.Separated
  successor : ∀ b ∈ (head :: tail).getLast?, b.indexKey = truncatedSuccessor b.last

/-- The blocks of the file. -/
def Sst.blocks (t : Sst) : List DataBlock := t.head :: t.tail

/-- An entry of the index block: its key, and the handle its value decodes to. -/
structure IndexEntry where
  key : Bytes
  handle : Option (ℕ × ℕ)

/-- The entry of a block. -/
def DataBlock.entry (b : DataBlock) : IndexEntry := ⟨b.indexKey ++ b.tag, some (b.offset, b.size)⟩

/-- The loop of `Table::ForEachDataBlock`: what `cb` is called with.  The second argument is
    `prev_key`, if there is one. -/
def forEachDataBlock (fileNumber : ℕ) : Option Bytes → List IndexEntry → List BlockInfo
  | _, [] => []
  | prev, e :: rest =>
    match e.handle with
    | none => []
    | some h => ⟨fileNumber, h.1, h.2, prev.getD e.key, e.key⟩ ::
        forEachDataBlock fileNumber (some e.key) rest

/-! ### The bounds the adapter derives -/

/-- The range of a user key as the adapter clamps it. -/
def Adapter.clampedRange (a : Adapter) (k : Bytes) : ℕ := min (a.core.mapper.map k) a.maxRangeId

/-- The block the adapter makes of a report contains the range of every key of the data
    block. -/
def Adapter.Holds (a : Adapter) (b : DataBlock) (info : BlockInfo) : Prop :=
  ∀ k ∈ b.keys, (a.blockRef info.fileNumber info).Covers (a.clampedRange k)

/-- Every block of the list is reported, with bounds that contain its keys' ranges. -/
def Adapter.Reported (a : Adapter) (fileNumber : ℕ) (prev : Option Bytes)
    (blocks : List DataBlock) : Prop :=
  List.Forall₂ a.Holds blocks (forEachDataBlock fileNumber prev (blocks.map DataBlock.entry))

/-- The greatest key of the blocks. -/
def lastKey : List DataBlock → Bytes
  | [] => []
  | [b] => b.last
  | _ :: c :: rest => lastKey (c :: rest)

/-- The user part of the lower key the last block is reported with. -/
def lastLower : Option Bytes → List DataBlock → Bytes
  | _, [] => []
  | prev, [b] => prev.getD b.indexKey
  | _, b :: c :: rest => lastLower (some b.indexKey) (c :: rest)

section Bounds

variable {a : Adapter} {size : ℕ}

/-- Stripping the tag of an index key gives back its user part. -/
theorem rangeOfInternalKey_append (a : Adapter) (u : Bytes) {tag : Bytes} (h : tag.length = 8) :
    a.rangeOfInternalKey (u ++ tag) = a.clampedRange u := by
  have htake : (u ++ tag).take
      (if 8 ≤ (u ++ tag).length then (u ++ tag).length - 8 else (u ++ tag).length) = u := by
    rw [List.length_append, h, if_pos (by omega), Nat.add_sub_cancel, List.take_left]
  unfold Adapter.rangeOfInternalKey Adapter.mapInternalKey Adapter.clampedRange
  rw [htake]

/-- The adapter's block is the interval between the ranges of the two keys, either way round. -/
theorem covers_blockRef (a : Adapter) (file : ℕ) (info : BlockInfo) (r : ℕ) :
    (a.blockRef file info).Covers r ↔
      min (a.rangeOfInternalKey info.smallestKey) (a.rangeOfInternalKey info.largestKey) ≤ r ∧
        r ≤ max (a.rangeOfInternalKey info.smallestKey) (a.rangeOfInternalKey info.largestKey) := by
  unfold Adapter.blockRef BlockRef.Covers
  dsimp only
  split_ifs <;> simp only <;> omega

/-- What it takes for a block reported between the index keys `u` and `v`. -/
theorem holds_iff {u v tag tag' : Bytes} (htag : tag.length = 8) (htag' : tag'.length = 8)
    (b : DataBlock) (file off sz : ℕ) :
    a.Holds b ⟨file, off, sz, u ++ tag, v ++ tag'⟩ ↔
      ∀ k ∈ b.keys, min (a.clampedRange u) (a.clampedRange v) ≤ a.clampedRange k ∧
        a.clampedRange k ≤ max (a.clampedRange u) (a.clampedRange v) := by
  unfold Adapter.Holds
  simp only [covers_blockRef, rangeOfInternalKey_append a _ htag,
    rangeOfInternalKey_append a _ htag']

/-- The clamped range keeps the order of shortened keys. -/
theorem clampedRange_mono (hmap : a.core.mapper = newDecimalRangeMapper size 16) {s t : Bytes}
    (hs : IsShortened s) (ht : IsShortened t) (hst : dictLe s t = true) :
    a.clampedRange s ≤ a.clampedRange t := by
  unfold Adapter.clampedRange
  rw [hmap]
  have hmono := @decimalMap_mono (if size = 0 then 1 else size) s t hs.2 ht.2 hs.1 ht.1 hst
  exact min_le_min_right _ hmono

/-- The single byte after the digits is in range 0. -/
theorem clampedRange_colon (hmap : a.core.mapper = newDecimalRangeMapper size 16) :
    a.clampedRange [58] = 0 := by
  unfold Adapter.clampedRange
  rw [hmap]
  have hzero : (newDecimalRangeMapper size 16).map [58] = 0 :=
    decimalMap_of_not_digit (by decide)
  rw [hzero, Nat.zero_min]

/-- A block after the first, with another after it, lies between its two index keys. -/
theorem holds_inner (hmap : a.core.mapper = newDecimalRangeMapper size 16) {b : DataBlock}
    {u v : Bytes} (hu : IsShortened u) (hv : IsShortened v) (hub : dictLe u b.first = true)
    (hbv : dictLe b.last v = true) {k : Bytes} (hk : k ∈ b.keys) :
    a.clampedRange u ≤ a.clampedRange k ∧ a.clampedRange k ≤ a.clampedRange v := by
  have hkey : ∀ j ∈ b.keys, IsShortened j := fun j hj => (b.isKey j hj).isShortened
  have hfirst := hkey _ b.first_mem
  have hlast := hkey _ b.last_mem
  constructor
  · calc a.clampedRange u ≤ a.clampedRange b.first := clampedRange_mono hmap hu hfirst hub
      _ ≤ a.clampedRange k := clampedRange_mono hmap hfirst (hkey k hk) (DataBlock.first_le hk)
  · calc a.clampedRange k ≤ a.clampedRange b.last :=
          clampedRange_mono hmap (hkey k hk) hlast (DataBlock.le_last hk)
      _ ≤ a.clampedRange v := clampedRange_mono hmap hlast hv hbv

/-- The last block, reported from `u` on: the successor of its last key bounds it from above
    unless that key begins with `'9'`; then the report is the interval from 0 to `u`. -/
theorem holds_last_iff (hmap : a.core.mapper = newDecimalRangeMapper size 16) {b : DataBlock}
    {u : Bytes} (hu : IsShortened u) (hub : dictLe u b.first = true)
    (hsucc : b.indexKey = truncatedSuccessor b.last) :
    (∀ k ∈ b.keys, min (a.clampedRange u) (a.clampedRange b.indexKey) ≤ a.clampedRange k ∧
      a.clampedRange k ≤ max (a.clampedRange u) (a.clampedRange b.indexKey)) ↔
    (b.last.head? = some 57 → a.clampedRange b.last = a.clampedRange u) := by
  have hkey := b.isKey _ b.last_mem
  have hin := fun k (hk : k ∈ b.keys) =>
    holds_inner hmap hu hkey.isShortened hub (dictLe_refl b.last) hk
  rw [hsucc]
  by_cases h9 : b.last.head? = some 57
  · -- the successor is a colon, which maps to range 0: after the swap it is the lower bound
    rw [truncatedSuccessor_of_nine h9, clampedRange_colon hmap, Nat.min_zero, Nat.max_zero]
    constructor
    · intro h _
      exact le_antisymm (h _ b.last_mem).2 (hin _ b.last_mem).1
    · intro h k hk
      exact ⟨Nat.zero_le _, (h h9) ▸ (hin k hk).2⟩
  · obtain ⟨hs, hle⟩ := truncatedSuccessor_above hkey h9
    refine iff_of_true (fun k hk => ?_) fun h => absurd h h9
    obtain ⟨hlo, hhi⟩ := holds_inner hmap hu hs hub hle hk
    exact ⟨(min_le_left _ _).trans hlo, hhi.trans (le_max_right _ _)⟩

/-- **After the first block.** Reports that start from a shortened key below all the blocks
    hold iff the last one does.  The induction walks the index: each block's upper key is the
    next block's lower one. -/
theorem reported_tail_iff (hmap : a.core.mapper = newDecimalRangeMapper size 16) (file : ℕ) :
    ∀ (rest : List DataBlock) (b : DataBlock) (u tag : Bytes), tag.length = 8 → IsShortened u →
      dictLe u b.first = true → (b :: rest).IsChain DataBlock.Separated →
      (∀ z ∈ (b :: rest).getLast?, z.indexKey = truncatedSuccessor z.last) →
      (a.Reported file (some (u ++ tag)) (b :: rest) ↔
        ((lastKey (b :: rest)).head? = some 57 →
          a.clampedRange (lastKey (b :: rest)) = a.clampedRange (lastLower (some u) (b :: rest))))
  | [], b, u, tag, htag, hu, hub, _, hsucc => by
    show List.Forall₂ a.Holds [b] [⟨file, b.offset, b.size, u ++ tag, b.indexKey ++ b.tag⟩] ↔
      (b.last.head? = some 57 → a.clampedRange b.last = a.clampedRange u)
    rw [List.forall₂_cons, and_iff_left List.Forall₂.nil, holds_iff htag b.tag_length,
      holds_last_iff hmap hu hub (hsucc b rfl)]
  | c :: rest, b, u, tag, htag, hu, hub, hchain, hsucc => by
    -- the separator bounds this block from above and the next one from below
    obtain ⟨hbc, hrest⟩ := List.isChain_cons_cons.mp hchain
    have htail := reported_tail_iff hmap file rest c b.indexKey b.tag b.tag_length hbc.shortened
      hbc.below hrest fun z hz => hsucc z (by rwa [List.getLast?_cons_cons])
    show List.Forall₂ a.Holds (b :: c :: rest)
      (⟨file, b.offset, b.size, u ++ tag, b.indexKey ++ b.tag⟩ ::
        forEachDataBlock file (some (b.indexKey ++ b.tag)) ((c :: rest).map DataBlock.entry)) ↔ _
    have hhead : a.Holds b ⟨file, b.offset, b.size, u ++ tag, b.indexKey ++ b.tag⟩ := by
      rw [holds_iff htag b.tag_length]
      intro k hk
      obtain ⟨hlo, hhi⟩ := holds_inner hmap hu hbc.shortened hub hbc.above hk
      exact ⟨(min_le_left _ _).trans hlo, hhi.trans (le_max_right _ _)⟩
    rw [List.forall₂_cons, and_iff_right hhead]
    exact htail

/-- The first block is reported with its upper key `v` on both sides, so all its keys have to
    be in `v`'s range; the smallest and the greatest decide. -/
theorem holds_first_iff (hmap : a.core.mapper = newDecimalRangeMapper size 16) (b : DataBlock)
    (v : Bytes) :
    (∀ k ∈ b.keys, min (a.clampedRange v) (a.clampedRange v) ≤ a.clampedRange k ∧
        a.clampedRange k ≤ max (a.clampedRange v) (a.clampedRange v)) ↔
      a.clampedRange b.first = a.clampedRange v ∧ a.clampedRange b.last = a.clampedRange v := by
  rw [min_self, max_self]
  constructor
  · intro h
    exact ⟨le_antisymm (h _ b.first_mem).2 (h _ b.first_mem).1,
      le_antisymm (h _ b.last_mem).2 (h _ b.last_mem).1⟩
  · rintro ⟨hfirst, hlast⟩ k hk
    have hin := holds_inner hmap (b.isKey _ b.first_mem).isShortened
      (b.isKey _ b.last_mem).isShortened (dictLe_refl _) (dictLe_refl _) hk
    exact ⟨hfirst ▸ hin.1, hlast ▸ hin.2⟩

/-- **Index bounds.** For a file of 16-digit keys, the block the adapter derives from each
    reported index entry contains the range of every key of the data block exactly when the
    file's first key is in the range of the first index key and, if the file's last key begins
    with `'9'`, that key is in the range of the lower key its block is reported with. -/
theorem reported_iff (a : Adapter) (size : ℕ)
    (hmap : a.core.mapper = newDecimalRangeMapper size 16) (file : ℕ) (t : Sst) :
    a.Reported file none t.blocks ↔
      a.clampedRange t.head.first = a.clampedRange t.head.indexKey ∧
      ((lastKey t.blocks).head? = some 57 →
        a.clampedRange (lastKey t.blocks) = a.clampedRange (lastLower none t.blocks)) := by
  obtain ⟨b, rest, hchain, hsucc⟩ := t
  have hfirst := (b.isKey _ b.first_mem).isShortened
  have hkey := b.isKey _ b.last_mem
  match rest, hchain, hsucc with
  | [], _, hsucc =>
    show List.Forall₂ a.Holds [b] [⟨file, b.offset, b.size, b.indexKey ++ b.tag,
        b.indexKey ++ b.tag⟩] ↔
      a.clampedRange b.first = a.clampedRange b.indexKey ∧
        (b.last.head? = some 57 → a.clampedRange b.last = a.clampedRange b.indexKey)
    rw [List.forall₂_cons, and_iff_left List.Forall₂.nil, holds_iff b.tag_length b.tag_length,
      holds_first_iff hmap]
    refine and_congr_right fun heq => ⟨fun h _ => h, fun h => ?_⟩
    by_cases h9 : b.last.head? = some 57
    · exact h h9
    · -- the last key is caught between the first one and the successor
      obtain ⟨hs, hle⟩ := truncatedSuccessor_above hkey h9
      rw [← hsucc b rfl] at hs hle
      have hin := holds_inner hmap hfirst hs (dictLe_refl _) hle b.last_mem
      omega
  | c :: rest, hchain, hsucc =>
    obtain ⟨hbc, hrest⟩ := List.isChain_cons_cons.mp hchain
    have htail := reported_tail_iff hmap file rest c b.indexKey b.tag b.tag_length hbc.shortened
      hbc.below hrest fun z hz => hsucc z (by rwa [List.getLast?_cons_cons])
    show List.Forall₂ a.Holds (b :: c :: rest)
      (⟨file, b.offset, b.size, b.indexKey ++ b.tag, b.indexKey ++ b.tag⟩ ::
        forEachDataBlock file (some (b.indexKey ++ b.tag)) ((c :: rest).map DataBlock.entry)) ↔
      a.clampedRange b.first = a.clampedRange b.indexKey ∧ _
    rw [List.forall₂_cons, holds_iff b.tag_length b.tag_length, holds_first_iff hmap]
    refine and_congr ⟨And.left, fun heq => ⟨heq, ?_⟩⟩ htail
    have hin := holds_inner hmap hfirst hbc.shortened (dictLe_refl _) hbc.above b.last_mem
    omega

end Bounds

/-- An adapter with ranges of 40000 keys. -/
def wideAdapter : Adapter where
  core := { sampleCore with mapper := newDecimalRangeMapper 40000 16 }

/-- The key of `d * 100000`. -/
def roundKey (d : ℕ) : Bytes := List.replicate 10 48 ++ (48 + d) :: List.replicate 5 48

/-- Two blocks; the first one runs from key 0 to key 100000, which no shorter key separates from
    the next block. -/
def wideFirstBlock : Sst where
  head := ⟨roundKey 0, [roundKey 1], 0, 4096, roundKey 1, List.replicate 8 0, by decide, by decide,
    rfl⟩
  tail := [⟨roundKey 2, [], 4096, 4096, [49], List.replicate 8 0, by decide, by decide, rfl⟩]
  separated := List.isChain_pair.mpr ⟨by decide, by decide, by decide⟩
  successor := by simp [truncatedSuccessor, DataBlock.last, roundKey]

/-- Three blocks; the first one holds a single key, and a shorter key separates the second
    from the third. -/
def narrowFirstBlock : Sst where
  head := ⟨roundKey 2, [], 0, 4096, roundKey 2, List.replicate 8 0, by decide, by decide, rfl⟩
  tail := [⟨roundKey 3, [roundKey 5], 4096, 4096, List.replicate 10 48 ++ [54], List.replicate 8 0,
      by decide, by decide, rfl⟩,
    ⟨roundKey 7, [roundKey 9], 8192, 4096, [49], List.replicate 8 0, by decide, by decide, rfl⟩]
  separated := List.isChain_cons_cons.mpr ⟨⟨by decide, by decide, by decide⟩,
    List.isChain_pair.mpr ⟨by decide, by decide, by decide⟩⟩
  successor := by simp [truncatedSuccessor, DataBlock.last, roundKey]

theorem reported_narrowFirstBlock : wideAdapter.Reported 7 none narrowFirstBlock.blocks :=
  (reported_iff wideAdapter 40000 rfl 7 narrowFirstBlock).mpr ⟨by decide +kernel, by decide +kernel⟩

/-- The first block is reported as range 2 only, and its key 0 is in range 0. -/
theorem not_reported_wideFirstBlock : ¬ wideAdapter.Reported 7 none wideFirstBlock.blocks := by
  intro h
  have hfirst : wideAdapter.Holds wideFirstBlock.head _ := (List.forall₂_cons.mp h).1
  have hcovers := hfirst (roundKey 0) List.mem_cons_self
  revert hcovers
  decide +kernel

end Leaper.LevelDB
