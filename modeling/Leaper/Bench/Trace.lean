import Leaper.Lib.SortUnique
import Leaper.Lib.Words
import Leaper.Tools.TrainSplit

namespace Leaper.Bench

open Lib Train

/-!
# The access trace

`bench/include/leaper_bench/trace.h` writes the trace of a thread, and `load_trace` of
`tools/train_leaper.py` reads it.  A record is two words of 32 bits: the time, and the key with the
operation in its two lowest bits.  Words are collected in a buffer that is written out when it is
full and when the writer is closed.

* `record_disk` — the file has the words of all calls, however often the buffer was written out;
* `loadFile_record` — what is read back has the keys modulo `2^30`;
* `loadTrace_exact_iff` — when it is what was recorded;
* `loadFile_ofRecord` — on the records of the trainer's model, reading is its `load`.
-/

/-! ### Writing -/

/-- An access: when, which key, and what. -/
structure Access where
  tMs : ℕ
  key : ℕ
  op : OpType
  deriving DecidableEq

/-- A call of `Add`, with a time of 32 bits and a key of 64. -/
structure AddCall extends Access where
  tMs_lt : tMs < 2 ^ 32
  key_lt : key < 2 ^ 64

def opCode : OpType → ℕ
  | .read => 0
  | .update => 1
  | .insert => 2
  | .scan => 3

/-- `static_cast<uint32_t>((key_index << 2) | op)`. -/
def keyOp (x : Access) : ℕ := (u64 (x.key <<< 2) ||| opCode x.op) % 2 ^ 32

def kBatch : ℕ := 8192

/-- `TraceWriter`; `disk` is what the file has in it, and stays after it is closed. -/
structure TraceWriter where
  isOpen : Bool
  disk : List ℕ := []
  buf : List ℕ := []

namespace TraceWriter

/-- `FlushBuffer`, on a device that takes everything. -/
def flushBuffer (w : TraceWriter) : TraceWriter :=
  if w.buf.isEmpty then w else { w with disk := w.disk ++ pack 4 w.buf, buf := [] }

/-- `Add`. -/
def add (w : TraceWriter) (x : Access) : TraceWriter :=
  if w.isOpen then
    let w := { w with buf := w.buf ++ [x.tMs, keyOp x] }
    if kBatch * 2 ≤ w.buf.length then w.flushBuffer else w
  else w

/-- `Close`. -/
def close (w : TraceWriter) : TraceWriter :=
  if w.isOpen then { w.flushBuffer with isOpen := false } else w

end TraceWriter

/-- A writer that was opened, took some calls and was closed. -/
def record (xs : List Access) : TraceWriter :=
  (xs.foldl TraceWriter.add { isOpen := true }).close

/-! ### Reading -/

def opOf : ℕ → OpType
  | 0 => .read
  | 1 => .update
  | 2 => .insert
  | _ => .scan

/-- A row of `raw`. -/
def decodeRow (row : List ℕ) : Access where
  tMs := row.getD 0 0
  key := row.getD 1 0 >>> 2
  op := opOf (row.getD 1 0 &&& 3)

/-- The loop of `load_trace`, over a file. -/
def loadFile (bytes : List ℕ) : List Access :=
  let raw := unpack 4 bytes
  -- half a record at the end is dropped
  let raw := if raw.length % 2 = 1 then raw.dropLast else raw
  ((groups 2 raw).map decodeRow).insertionSort fun x y => x.tMs ≤ y.tMs

/-- `load_trace`: all accesses, and those of each thread. -/
def loadTrace (stem : String) (files : List (List ℕ)) :
    Except String (List Access × List (List Access)) :=
  if files.isEmpty then .error ("no trace files matching " ++ stem ++ ".trace.*")
  else
    let perThread := files.map loadFile
    .ok (perThread.flatten, perThread)

/-! ### The file -/

/-- The words of a call. -/
def words (x : Access) : List ℕ := [x.tMs, keyOp x]

/-- An open writer after some calls. -/
structure Wrote (w : TraceWriter) (xs : List Access) : Prop where
  isOpen : w.isOpen = true
  small : w.buf.length < kBatch * 2
  bytes : w.disk ++ pack 4 w.buf = pack 4 (xs.flatMap words)

/-- A flush moves the buffer to the file. -/
theorem flushBuffer_disk (w : TraceWriter) :
    w.flushBuffer.disk = w.disk ++ pack 4 w.buf ∧ w.flushBuffer.buf = [] ∧
      w.flushBuffer.isOpen = w.isOpen := by
  unfold TraceWriter.flushBuffer
  cases hbuf : w.buf with
  | nil =>
    rw [List.isEmpty_nil, if_pos rfl]
    exact ⟨(List.append_nil _).symm, hbuf, rfl⟩
  | cons b bs => exact ⟨rfl, rfl, rfl⟩

/-- **One call.** -/
theorem Wrote.add {w : TraceWriter} {xs : List Access} (h : Wrote w xs) (x : Access) :
    Wrote (w.add x) (xs ++ [x]) := by
  have hbytes : w.disk ++ pack 4 (w.buf ++ [x.tMs, keyOp x]) =
      pack 4 ((xs ++ [x]).flatMap words) := by
    rw [List.flatMap_append, pack_append, pack_append, ← h.bytes, List.append_assoc]
    rfl
  unfold TraceWriter.add
  rw [if_pos h.isOpen]
  dsimp only
  split_ifs with hfull
  · obtain ⟨hdisk, hbuf, hopen⟩ := flushBuffer_disk { w with buf := w.buf ++ [x.tMs, keyOp x] }
    refine ⟨hopen.trans h.isOpen, ?_, ?_⟩
    · rw [hbuf]
      decide
    · rw [hdisk, hbuf]
      exact (List.append_nil _).trans hbytes
  · exact ⟨h.isOpen, Nat.not_le.mp hfull, hbytes⟩

/-- **The file** of a writer has the words of all calls. -/
theorem record_disk (xs : List Access) : (record xs).disk = pack 4 (xs.flatMap words) := by
  have hrun : Wrote (xs.foldl TraceWriter.add { isOpen := true }) xs := by
    induction xs using List.reverseRecOn with
    | nil => exact ⟨rfl, by decide, rfl⟩
    | append_singleton xs x ih =>
      rw [List.foldl_append]
      exact ih.add x
  unfold record TraceWriter.close
  rw [if_pos hrun.isOpen]
  exact (flushBuffer_disk _).1.trans hrun.bytes

/-! ### What is read back -/

/-- The kind takes two bits. -/
theorem opCode_lt (op : OpType) : opCode op < 2 ^ 2 := by cases op <;> decide

/-- The kind read back is the kind written. -/
theorem opOf_opCode (op : OpType) : opOf (opCode op) = op := by cases op <;> rfl

/-- The second word: 30 bits of the key, and the operation. -/
theorem keyOp_eq (x : Access) : keyOp x = x.key % 2 ^ 30 * 4 + opCode x.op := by
  have hop := opCode_lt x.op
  -- the shift leaves the two lowest bits free, so the operation is added
  have hshift : u64 (x.key <<< 2) = (x.key % 2 ^ 62) <<< 2 := by
    unfold u64
    rw [Nat.shiftLeft_eq, Nat.shiftLeft_eq]
    omega
  unfold keyOp
  rw [hshift, ← Nat.shiftLeft_add_eq_or_of_lt hop, Nat.shiftLeft_eq]
  omega

/-- An access as the file keeps it. -/
def Access.cut (x : Access) : Access := { x with key := x.key % 2 ^ 30 }

/-- A record's two words, read back: the key loses what is above 30 bits. -/
theorem decodeRow_words (x : Access) : decodeRow (words x) = x.cut := by
  have hop := opCode_lt x.op
  have hkey : keyOp x >>> 2 = x.key % 2 ^ 30 := by
    rw [keyOp_eq, Nat.shiftRight_eq_div_pow]
    omega
  have hcode : keyOp x &&& 3 = opCode x.op := by
    rw [keyOp_eq, Nat.and_two_pow_sub_one_eq_mod _ 2]
    omega
  unfold decodeRow words
  simp only [List.getD_cons_zero, List.getD_cons_succ, hkey, hcode, opOf_opCode]
  rfl

/-- Two words for each record. -/
theorem length_flatMap_words (xs : List Access) : (xs.flatMap words).length = 2 * xs.length := by
  induction xs with
  | nil => rfl
  | cons x xs ih =>
    rw [List.flatMap_cons, List.length_append, ih, List.length_cons]
    show 2 + 2 * xs.length = _
    omega

/-- **Reading a recorded file.** -/
theorem loadFile_record {xs : List Access} (ht : ∀ x ∈ xs, x.tMs < 2 ^ 32) :
    loadFile (record xs).disk = (xs.map Access.cut).insertionSort fun x y => x.tMs ≤ y.tMs := by
  have hwords : (xs.flatMap words).map (· % 256 ^ 4) = xs.flatMap words := by
    refine (List.map_congr_left fun w hw => ?_).trans (List.map_id _)
    obtain ⟨x, hx, hw⟩ := List.mem_flatMap.mp hw
    refine Nat.mod_eq_of_lt ?_
    rcases List.mem_pair.mp hw with rfl | rfl
    · exact ht x hx
    · exact Nat.mod_lt _ (by decide)
  have heven : ¬ (xs.flatMap words).length % 2 = 1 := by
    rw [length_flatMap_words]
    omega
  unfold loadFile
  rw [record_disk, unpack_pack (by decide), hwords]
  dsimp only
  rw [if_neg heven, groups_flatMap (by decide) (f := words) fun _ => rfl, List.map_map]
  exact congrArg _ (List.map_congr_left fun x _ => decodeRow_words x)

/-- Nothing is lost exactly from keys below 2^30. -/
theorem cut_eq_iff {x : Access} : x.cut = x ↔ x.key < 2 ^ 30 := by
  obtain ⟨tMs, key, op⟩ := x
  unfold Access.cut
  rw [Access.mk.injEq]
  constructor
  · rintro ⟨-, hkey, -⟩
    rw [← hkey]
    exact Nat.mod_lt _ (by decide)
  · intro h
    exact ⟨rfl, Nat.mod_eq_of_lt h, rfl⟩

/-- **The trace decodes to what was recorded**, in the order of time and within a millisecond in
    the order of the calls, exactly when every key has at most 30 bits. -/
theorem loadTrace_exact_iff (calls : List AddCall) (stem : String) :
    (∃ loaded,
      loadTrace stem [(record (calls.map AddCall.toAccess)).disk] = .ok (loaded, [loaded]) ∧
      StablySorted Access.tMs (calls.map AddCall.toAccess) loaded) ↔
    ∀ x ∈ calls, x.key < 2 ^ 30 := by
  have ht : ∀ x ∈ calls.map AddCall.toAccess, x.tMs < 2 ^ 32 := by
    intro x hx
    obtain ⟨call, -, rfl⟩ := List.mem_map.mp hx
    exact call.tMs_lt
  have hload : loadTrace stem [(record (calls.map AddCall.toAccess)).disk] =
      .ok (loadFile (record (calls.map AddCall.toAccess)).disk,
        [loadFile (record (calls.map AddCall.toAccess)).disk]) := by
    show Except.ok (List.flatten [_], [_]) = _
    rw [List.flatten_singleton]
  rw [hload, loadFile_record ht]
  have hsorted := stablySorted_insertionSort Access.tMs
    ((calls.map AddCall.toAccess).map Access.cut)
  constructor
  · rintro ⟨loaded, hloaded, hstable⟩ call hcall
    obtain ⟨rfl, -⟩ := Prod.mk.inj (Except.ok.inj hloaded)
    -- among the accesses of its millisecond the call's has kept its key
    have hfilter := (hsorted.stable call.tMs).symm.trans (hstable.stable call.tMs)
    rw [List.filter_map] at hfilter
    have hfix := List.map_inj_left.mp (hfilter.trans (List.map_id _).symm)
    have hmem : call.toAccess ∈ (calls.map AddCall.toAccess).filter fun x => x.tMs = call.tMs :=
      List.mem_filter.mpr ⟨List.mem_map_of_mem hcall, decide_eq_true rfl⟩
    exact cut_eq_iff.mp (hfix call.toAccess hmem)
  · intro hkeys
    have hcut : (calls.map AddCall.toAccess).map Access.cut = calls.map AddCall.toAccess := by
      refine (List.map_congr_left fun x hx => ?_).trans (List.map_id _)
      obtain ⟨call, hcall, rfl⟩ := List.mem_map.mp hx
      exact cut_eq_iff.mpr (hkeys call hcall)
    rw [hcut] at hsorted ⊢
    exact ⟨_, rfl, hsorted⟩

/-- Two accesses that come in the wrong order, one of them of the last key that fits. -/
def outOfOrder : List AddCall :=
  [⟨⟨7, 3, .read⟩, by decide, by decide⟩, ⟨⟨5, 2 ^ 30 - 1, .insert⟩, by decide, by decide⟩]

/-- Two records, the later one first. -/
theorem loadTrace_exact_outOfOrder :
    ∃ loaded, loadTrace "run" [(record (outOfOrder.map AddCall.toAccess)).disk] =
        .ok (loaded, [loaded]) ∧
      StablySorted Access.tMs (outOfOrder.map AddCall.toAccess) loaded :=
  (loadTrace_exact_iff outOfOrder "run").mpr (by decide)

/-- With `num` above `2^30` the benchmark can read the key `2^30`; the trace has key 0. -/
theorem loadTrace_wideKey :
    (loadTrace "run" [(record [⟨5, 2 ^ 30, .read⟩]).disk]).toOption =
      some ([⟨5, 0, .read⟩], [[⟨5, 0, .read⟩]]) := by
  decide +kernel

/-! ### The trainer's records -/

/-- A record of the trainer's model. -/
def Access.ofRecord (x : TraceRecord) : Access := ⟨x.tMs, x.key, x.op⟩

/-- **Reading is `load`.** -/
theorem loadFile_ofRecord (file : List TraceRecord) :
    loadFile (record (file.map Access.ofRecord)).disk = (load file).map Access.ofRecord := by
  have ht : ∀ x ∈ file.map Access.ofRecord, x.tMs < 2 ^ 32 := by
    intro x hx
    obtain ⟨r, -, rfl⟩ := List.mem_map.mp hx
    exact r.tMs_lt
  have hcut : (file.map Access.ofRecord).map Access.cut = file.map Access.ofRecord := by
    rw [List.map_map]
    exact List.map_congr_left fun r _ => cut_eq_iff.mpr r.key_lt
  rw [loadFile_record ht, hcut]
  exact (List.map_insertionSort _ _ Access.ofRecord file fun _ _ _ _ => Iff.rfl).symm

end Leaper.Bench
