import Leaper.Adapters.LevelDB
import Mathlib.Data.List.Perm.Basic

namespace Leaper.LevelDB

open Lib

/-!
# What the LevelDB adapter warms

A granted output block can be warmed only once its file is finished, and in between a flush
may begin and end.  A `Record` of the run is kept from the hooks and the core's answers
alone: which job is writing which file, which blocks were granted for it, which files a job
finished with which size.  What should have been warmed is read off it (`Record.due`).

* `Warm` — the adapter's pending lists and current files against the record;
* `warm_step` — one hook keeps it;
* `warmed_perm_due` — after any well-bracketed run the blocks passed to `Prefetch` are,
  as a multiset, the ones that are due.
-/

variable {κ : Type*}

/-! ### Well-bracketed hooks -/

/-- What the engine knows: the output file each open job is writing (innermost job first),
    and the file numbers it has used. -/
structure Desk where
  files : List (Option ℕ) := []
  used : List ℕ := []
  deriving DecidableEq, Repr

/-- The file the innermost job is writing. -/
def Desk.current (g : Desk) : Option ℕ := g.files.head?.join

/-- **Well-bracketed hooks.** Jobs nest at any point; a job starts files under new numbers,
    writes blocks into the file it has started, and finishes it at most once. -/
def hooks (κ : Type*) : Env Desk (Call κ) where
  ok g c :=
    match c.hook with
    | .outputFileStart file => g.files ≠ [] ∧ file ∉ g.used
    | .outputBlock _ => g.current.isSome = true
    | .outputFileFinished file _ => g.current = some file
    | .compactionEnd => g.files ≠ []
    | _ => True
  next g c :=
    match c.hook with
    | .compactionBegin _ _ _ => { g with files := none :: g.files }
    | .outputFileStart file => { files := some file :: g.files.tail, used := file :: g.used }
    | .outputFileFinished _ _ => { g with files := none :: g.files.tail }
    | .compactionEnd => { g with files := g.files.tail }
    | _ => g

instance (g : Desk) (c : Call κ) : Decidable ((hooks κ).ok g c) := by
  obtain ⟨mono, hook⟩ := c
  unfold hooks
  cases hook <;> infer_instance

/-! ### The record of a run -/

/-- A block for which the core answered yes: the job that wrote it, the file that job was
    writing then, and the block under that file's number. -/
structure Grant where
  job : ℕ
  file : ℕ
  ref : BlockRef
  deriving DecidableEq, Repr

/-- The record: open jobs with their current file (innermost first), the number of jobs begun,
    the granted blocks, the sizes of the files each job finished, the blocks warmed. -/
structure Record where
  jobs : List (ℕ × Option ℕ) := []
  begun : ℕ := 0
  granted : List Grant := []
  finished : ℕ → ℕ → Option ℕ := fun _ _ => none
  warmed : List (BlockRef × ℕ) := []

namespace Record

/-- A new job, under the next number. -/
def openJob (r : Record) : Record :=
  { r with jobs := (r.begun, none) :: r.jobs, begun := r.begun + 1 }

/-- The innermost job starts a file. -/
def startFile (r : Record) (file : ℕ) : Record :=
  match r.jobs with
  | [] => r
  | j :: js => { r with jobs := (j.1, some file) :: js }

/-- A block of the innermost job was granted. -/
def grant (refOf : ℕ → BlockInfo → BlockRef) (r : Record) (b : BlockInfo) : Record :=
  match r.jobs with
  | (j, some file) :: _ => { r with granted := r.granted ++ [⟨j, file, refOf file b⟩] }
  | _ => r

/-- The innermost job finished a file. -/
def finishFile (r : Record) (file size : ℕ) : Record :=
  match r.jobs with
  | [] => r
  | j :: js =>
    { r with
      jobs := (j.1, none) :: js
      finished := Function.update r.finished j.1
        (Function.update (r.finished j.1) file (some size)) }

/-- The record after a hook and what it showed. -/
def note (refOf : ℕ → BlockInfo → BlockRef) (r : Record) (c : Call κ) (o : HookObs) : Record :=
  let r := { r with warmed := r.warmed ++ o.warm }
  match c.hook with
  | .compactionBegin _ _ _ => r.openJob
  | .outputFileStart file => r.startFile file
  | .outputBlock b => if o.answer = some true then r.grant refOf b else r
  | .outputFileFinished file size => r.finishFile file size
  | .compactionEnd => { r with jobs := r.jobs.tail }
  | _ => r

/-- **What is due**: the granted blocks whose own file its own job finished, each with the
    size that file was finished with. -/
def due (r : Record) : List (BlockRef × ℕ) :=
  r.granted.filterMap fun g => (r.finished g.job g.file).map fun size => (g.ref, size)

/-- The granted blocks of a job whose files are not finished. -/
def pendingOf (r : Record) (job : ℕ) : List BlockRef :=
  (r.granted.filter fun g => decide (g.job = job ∧ r.finished g.job g.file = none)).map (·.ref)

end Record

/-! ### The adapter against the record -/

/-- The pending list and current file of each job, innermost first; the last is outside. -/
def Adapter.frames (a : Adapter) : List NestedJob := ⟨a.pendingWarm, a.currentOutput⟩ :: a.nested

/-- A frame holds the unfinished grants of its job, under the file the job is writing. -/
def FrameOk (r : Record) (j : ℕ × Option ℕ) (f : NestedJob) : Prop :=
  f.pendingWarm = r.pendingOf j.1 ∧ ∀ file, j.2 = some file → f.currentOutput = file

/-- One frame for each open job, and an idle one outside. -/
def FramesOk (r : Record) : List (ℕ × Option ℕ) → List NestedJob → Prop
  | [], fs => ∃ bottom, fs = [bottom] ∧ bottom.pendingWarm = []
  | j :: js, fs => ∃ f fs', fs = f :: fs' ∧ FrameOk r j f ∧ FramesOk r js fs'

/-- Frames depend on the record through the blocks still pending of each job. -/
theorem FramesOk.congr {r r' : Record} {js : List (ℕ × Option ℕ)} : ∀ {fs : List NestedJob},
    FramesOk r js fs → (∀ j ∈ js, r'.pendingOf j.1 = r.pendingOf j.1) → FramesOk r' js fs := by
  induction js with
  | nil => exact fun h _ => h
  | cons j js ih =>
    intro fs h hsame
    obtain ⟨f, fs', rfl, hf, hrest⟩ := h
    refine ⟨f, fs', rfl, ⟨?_, hf.2⟩, ih hrest fun j' hj' => hsame j' (List.mem_cons_of_mem _ hj')⟩
    rw [hf.1, hsame j List.mem_cons_self]

/-- **The adapter against the record and the engine.** -/
structure Warm (refOf : ℕ → BlockInfo → BlockRef) (g : Desk) (s : State κ) (r : Record) :
    Prop where
  refs : s.adapter.blockRef = refOf
  files : r.jobs.map (·.2) = g.files
  frames : FramesOk r r.jobs s.adapter.frames
  numbers : (r.jobs.map (·.1)).Pairwise (· > ·)
  begun : ∀ j ∈ r.jobs, j.1 < r.begun
  granted : ∀ x ∈ r.granted, x.job < r.begun ∧ x.ref.fileId = x.file
  used : ∀ job file, r.finished job file ≠ none → file ∈ g.used
  writing : ∀ job file, (job, some file) ∈ r.jobs → r.finished job file = none ∧ file ∈ g.used
  perm : r.warmed.Perm r.due

/-- Only the frames and the block references of the adapter matter. -/
theorem Warm.congr {refOf : ℕ → BlockInfo → BlockRef} {g : Desk} {s s' : State κ} {r : Record}
    (h : Warm refOf g s r) (hframes : s'.adapter.frames = s.adapter.frames)
    (hrefs : s'.adapter.blockRef = s.adapter.blockRef) : Warm refOf g s' r :=
  { h with refs := hrefs.trans h.refs, frames := hframes ▸ h.frames }

/-! ### What a hook does to the frames -/

/-- A block is referred to under the file it was written to. -/
theorem blockRef_fileId (a : Adapter) (file : ℕ) (b : BlockInfo) :
    (a.blockRef file b).fileId = file := by
  unfold Adapter.blockRef
  simp only
  split_ifs <;> rfl

/-- A block keeps its place in the file. -/
theorem blockRef_extent (a : Adapter) (file : ℕ) (b : BlockInfo) :
    (a.blockRef file b).offset = b.offset ∧ (a.blockRef file b).size = b.size := by
  unfold Adapter.blockRef
  simp only
  split_ifs <;> exact ⟨rfl, rfl⟩

/-- A hook that is no part of a job's output. -/
def Hook.idle : Hook κ → Bool
  | .access _ _ => true
  | .fileObsolete _ _ _ => true
  | .setQps _ => true
  | .setHealth _ => true
  | .resetClock => true
  | .engine _ => true
  | _ => false

/-- An access leaves the mapper alone. -/
theorem onAccess_mapper (s : LeaperImpl) (isWrite : Bool) (key : Bytes) (now : ℕ) :
    (s.onAccess isWrite key now).mapper = s.mapper := by
  obtain ⟨c, heq, -⟩ := s.onAccess_frame isWrite key now
  rw [heq]

/-- A question leaves the mapper alone. -/
theorem shouldPrefetch_mapper (s : LeaperImpl) (b : BlockRef) :
    (s.shouldPrefetch b).1.mapper = s.mapper := by
  obtain ⟨st, heq | ⟨-, -, heq⟩⟩ := s.shouldPrefetch_frame b
  all_goals rw [heq]

/-- The end of a job leaves the mapper alone. -/
theorem onCompactionEnd_mapper (s : LeaperImpl) : s.onCompactionEnd.mapper = s.mapper := by
  obtain ⟨c, cs, heq⟩ := s.onCompactionEnd_frame
  rw [heq]

/-- A hook that neither opens nor closes anything leaves the frames, and reads no block. -/
theorem step_idle (eng : EngineOps κ) (s : State κ) {c : Call κ} (h : c.hook.idle = true) :
    (step eng s c).1.adapter.frames = s.adapter.frames ∧
    (step eng s c).1.adapter.blockRef = s.adapter.blockRef ∧ (step eng s c).2.warm = [] := by
  obtain ⟨mono, hook⟩ := c
  cases hook with
  | access isWrite key => exact ⟨rfl, blockRef_congr (onAccess_mapper _ _ _ _) rfl, rfl⟩
  | fileObsolete file size blocks =>
    obtain ⟨st, sizes, heq⟩ := onFileObsolete_frame eng s.adapter s.cache file size blocks
    refine ⟨?_, ?_, rfl⟩
    · show (s.adapter.onFileObsolete eng s.cache file size blocks).1.frames = _
      rw [heq]; rfl
    · show (s.adapter.onFileObsolete eng s.cache file size blocks).1.blockRef = _
      rw [heq]; rfl
  | setQps q => exact ⟨rfl, rfl, rfl⟩
  | setHealth m => exact ⟨rfl, rfl, rfl⟩
  | resetClock => exact ⟨rfl, rfl, rfl⟩
  | engine change => exact ⟨rfl, rfl, rfl⟩
  | _ => cases h

/-- What is taken for a file is that file's. -/
theorem fileId_of_mem_takeFile {a : Adapter} {file size : ℕ} {b : BlockRef}
    (hb : b ∈ (a.takeFile file size).2) : b.fileId = file := by
  simpa using (List.mem_filter.mp hb).2

/-- The blocks of a finished file are looked up under the size just recorded. -/
theorem map_fileSize_takeFile (a : Adapter) (file size : ℕ) :
    (a.takeFile file size).2.map (fun b => (b, (a.takeFile file size).1.fileSize b.fileId)) =
      (a.takeFile file size).2.map (fun b => (b, size)) := by
  apply List.map_congr_left
  intro b hb
  rw [fileId_of_mem_takeFile hb]
  simp [Adapter.fileSize, Adapter.takeFile]

/-- **A finished file.** Its pending blocks are warmed with the size just recorded, and leave
    the pending list. -/
theorem onOutputFileFinished_spec (eng : EngineOps κ) (a : Adapter) (cache : κ) (file size : ℕ) :
    (a.onOutputFileFinished eng cache file size).2.2 =
      (a.pendingWarm.filter fun b => b.fileId = file).map (fun b => (b, size)) ∧
    (a.onOutputFileFinished eng cache file size).1.frames =
      ⟨a.pendingWarm.filter fun b => b.fileId ≠ file, a.currentOutput⟩ :: a.nested ∧
    (a.onOutputFileFinished eng cache file size).1.blockRef = a.blockRef := by
  unfold Adapter.onOutputFileFinished
  simp only
  split_ifs with hempty
  · have hnone : (a.pendingWarm.filter fun b => b.fileId = file) = [] := hempty
    refine ⟨?_, rfl, rfl⟩
    rw [hnone]
    rfl
  · exact ⟨(prefetchAll_calls eng _ _ cache).trans (map_fileSize_takeFile a file size), rfl, rfl⟩

/-! ### One hook keeps the record -/

/-- Elements that become defined are appended, up to order. -/
theorem filterMap_perm_append {α β : Type*} {f k : α → Option β} {p : α → Bool} {v : α → β}
    (hp : ∀ a, p a = true → f a = none ∧ k a = some (v a))
    (hn : ∀ a, p a = false → k a = f a) (l : List α) :
    (l.filterMap k).Perm (l.filterMap f ++ (l.filter p).map v) := by
  induction l with
  | nil => exact List.Perm.nil
  | cons a l ih =>
    cases hpa : p a with
    | true =>
      -- newly defined: at the head on the left, in the middle on the right
      obtain ⟨hold, hnew⟩ := hp a hpa
      rw [List.filterMap_cons_some hnew, List.filterMap_cons_none hold,
        List.filter_cons_of_pos hpa, List.map_cons]
      exact (ih.cons (v a)).trans List.perm_middle.symm
    | false =>
      rw [List.filter_cons_of_neg (by simp [hpa])]
      cases hold : f a with
      | none =>
        rw [List.filterMap_cons_none (by rw [hn a hpa, hold]), List.filterMap_cons_none hold]
        exact ih
      | some b =>
        rw [List.filterMap_cons_some (b := b) (by rw [hn a hpa, hold]),
          List.filterMap_cons_some hold]
        exact ih.cons b

section Steps

variable {eng : EngineOps κ} {refOf : ℕ → BlockInfo → BlockRef} {g : Desk} {s : State κ}
  {r : Record}

/-- Idle hooks keep the invariant. -/
theorem Warm.idle (h : Warm refOf g s r) {c : Call κ} (hidle : c.hook.idle = true) :
    Warm refOf g (step eng s c).1 { r with warmed := r.warmed ++ (step eng s c).2.warm } := by
  obtain ⟨hframes, hrefs, hwarm⟩ := step_idle eng s hidle
  rw [hwarm, List.append_nil]
  exact { h with refs := hrefs.trans h.refs, frames := hframes ▸ h.frames }

/-- No block was granted to a job that has not begun. -/
theorem Warm.pendingOf_begun (h : Warm refOf g s r) : r.pendingOf r.begun = [] := by
  have hnone : ∀ x ∈ r.granted,
      ¬ decide (x.job = r.begun ∧ r.finished x.job x.file = none) = true := by
    intro x hx
    have := (h.granted x hx).1
    simp only [decide_eq_true_eq, not_and]
    omega
  unfold Record.pendingOf
  rw [List.filter_eq_nil_iff.mpr hnone]
  rfl

/-- A job that begins sets the pending blocks of the interrupted one aside. -/
theorem Warm.openJob (h : Warm refOf g s r) (level : ℤ) (isFlush : Bool) (inputs : List BlockInfo)
    (mono : ℕ) :
    Warm refOf { g with files := none :: g.files }
      (step eng s ⟨mono, .compactionBegin level isFlush inputs⟩).1 r.openJob where
  refs := by
    have hmapper : (step eng s ⟨mono, .compactionBegin level isFlush inputs⟩).1.adapter.core.mapper
        = s.adapter.core.mapper := by cases isFlush <;> rfl
    exact (blockRef_congr hmapper rfl).trans h.refs
  files := congrArg (List.cons none) h.files
  frames := by
    refine ⟨⟨[], 0⟩, s.adapter.frames, rfl, ⟨?_, fun file hfile => by cases hfile⟩, ?_⟩
    · exact (h.pendingOf_begun).symm
    · exact h.frames.congr fun _ _ => rfl
  numbers := by
    rw [Record.openJob, List.map_cons, List.pairwise_cons]
    refine ⟨fun j hj => ?_, h.numbers⟩
    obtain ⟨j', hj', rfl⟩ := List.mem_map.mp hj
    exact h.begun j' hj'
  begun := by
    intro j hj
    show j.1 < r.begun + 1
    rcases List.mem_cons.mp hj with rfl | hold
    · exact Nat.lt_succ_self _
    · exact Nat.lt_succ_of_lt (h.begun j hold)
  granted := fun x hx => ⟨Nat.lt_succ_of_lt (h.granted x hx).1, (h.granted x hx).2⟩
  used := h.used
  writing := by
    intro job file hmem
    rcases List.mem_cons.mp hmem with heq | hold
    · cases heq
    · exact h.writing job file hold
  perm := h.perm

/-- A new output file: its number has not been used, so nothing pending is under it. -/
theorem Warm.startFile (h : Warm refOf g s r) {file : ℕ} (hjobs : g.files ≠ [])
    (hnew : file ∉ g.used) (mono : ℕ) :
    Warm refOf { files := some file :: g.files.tail, used := file :: g.used }
      (step eng s ⟨mono, .outputFileStart file⟩).1 (r.startFile file) := by
  -- the number is new, so no job has finished a file under it
  have hfresh : ∀ job, r.finished job file = none := by
    intro job
    by_contra hne
    exact hnew (h.used job file hne)
  cases hj : r.jobs with
  | nil => exact absurd (by rw [← h.files, hj]; rfl) hjobs
  | cons j js =>
    have hframes := h.frames
    rw [hj] at hframes
    obtain ⟨f, fs, hfs, hf, hrest⟩ := hframes
    obtain ⟨hf0, hnested⟩ := List.cons.inj hfs
    have hrec : r.startFile file = { r with jobs := (j.1, some file) :: js } := by
      rw [Record.startFile, hj]
    have hfiles := h.files
    have hnumbers := h.numbers
    have hbegun := h.begun
    have hwriting := h.writing
    rw [hj] at hfiles hnumbers hbegun hwriting
    rw [hrec]
    refine ⟨h.refs, ?_, ?_, hnumbers, ?_, h.granted, ?_, ?_, h.perm⟩
    · rw [← hfiles]
      rfl
    · refine ⟨⟨s.adapter.pendingWarm, file⟩, fs, by rw [← hnested]; rfl, ⟨?_, ?_⟩, ?_⟩
      · rw [← hf0] at hf
        exact hf.1
      · intro file' heq
        exact Option.some.inj heq
      · exact hrest.congr fun _ _ => rfl
    · intro j' hj'
      rcases List.mem_cons.mp hj' with rfl | hold
      · exact hbegun j List.mem_cons_self
      · exact hbegun j' (List.mem_cons_of_mem _ hold)
    · exact fun job file' hne => List.mem_cons_of_mem _ (h.used job file' hne)
    · -- the job that starts the file, or one that was writing before
      intro job file' hmem
      rcases List.mem_cons.mp hmem with heq | hold
      · obtain ⟨-, hfile⟩ := Prod.mk.inj heq
        rw [Option.some.inj hfile]
        exact ⟨hfresh job, List.mem_cons_self⟩
      · obtain ⟨hnone, hused⟩ := hwriting job file' (List.mem_cons_of_mem _ hold)
        exact ⟨hnone, List.mem_cons_of_mem _ hused⟩

/-- The innermost job and its frame. -/
theorem Warm.innermost (h : Warm refOf g s r) {file : ℕ} (hcur : g.current = some file) :
    ∃ j js, r.jobs = (j, some file) :: js ∧ s.adapter.pendingWarm = r.pendingOf j ∧
      s.adapter.currentOutput = file ∧ FramesOk r js s.adapter.nested ∧
      ∀ j' ∈ js, j'.1 ≠ j := by
  have hframes := h.frames
  have hfiles := h.files
  have hnumbers := h.numbers
  cases hj : r.jobs with
  | nil =>
    -- a file is being written, so there is a job that writes it
    rw [hj] at hfiles
    unfold Desk.current at hcur
    rw [← hfiles] at hcur
    cases hcur
  | cons j js =>
    rw [hj] at hframes hfiles hnumbers
    obtain ⟨f, fs, hfs, hf, hrest⟩ := hframes
    obtain ⟨hf0, hnested⟩ := List.cons.inj hfs
    obtain ⟨job, out⟩ := j
    have hout : out = some file := by
      unfold Desk.current at hcur
      rw [← hfiles] at hcur
      exact hcur
    subst hout
    rw [← hf0] at hf
    refine ⟨job, js, rfl, hf.1, hf.2 file rfl, by rw [hnested]; exact hrest, fun j' hj' heq => ?_⟩
    have hlt : j'.1 < job := (List.pairwise_cons.mp hnumbers).1 j'.1 (List.mem_map_of_mem hj')
    omega

/-- An output block is pending exactly if the core said yes. -/
theorem Warm.block (h : Warm refOf g s r) {file : ℕ} (hcur : g.current = some file)
    (b : BlockInfo) (mono : ℕ) :
    Warm refOf g (step eng s ⟨mono, .outputBlock b⟩).1
      (if (step eng s ⟨mono, .outputBlock b⟩).2.answer = some true
        then r.grant refOf b else r) := by
  obtain ⟨j, js, hj, hpend, hout, hrest, hne⟩ := h.innermost hcur
  have hmapper : (step eng s ⟨mono, .outputBlock b⟩).1.adapter.core.mapper =
      s.adapter.core.mapper := shouldPrefetch_mapper _ _
  have hrefs : (step eng s ⟨mono, .outputBlock b⟩).1.adapter.blockRef = refOf :=
    (blockRef_congr hmapper rfl).trans h.refs
  obtain ⟨hopen, hused⟩ := h.writing j file (by rw [hj]; exact List.mem_cons_self)
  have hans : (step eng s ⟨mono, .outputBlock b⟩).2.answer =
      some (s.adapter.core.shouldPrefetch (s.adapter.blockRef s.adapter.currentOutput b)).2 := rfl
  have hframes : (step eng s ⟨mono, .outputBlock b⟩).1.adapter.frames =
      ⟨if (s.adapter.core.shouldPrefetch (s.adapter.blockRef s.adapter.currentOutput b)).2
        then s.adapter.pendingWarm ++ [s.adapter.blockRef s.adapter.currentOutput b]
        else s.adapter.pendingWarm, s.adapter.currentOutput⟩ :: s.adapter.nested := rfl
  rw [hans]
  rw [h.refs, hout] at hframes
  rw [h.refs, hout]
  -- the frame of the innermost job grows by the block exactly if the core said yes
  cases hyes : (s.adapter.core.shouldPrefetch (refOf file b)).2 with
  | false =>
    rw [hyes, if_neg Bool.false_ne_true] at hframes
    rw [if_neg (by simp)]
    refine { h with refs := hrefs, frames := ?_ }
    rw [hframes, hj]
    exact ⟨_, _, rfl, ⟨hpend, fun file' heq => Option.some.inj heq⟩, hrest⟩
  | true =>
    rw [hyes, if_pos rfl] at hframes
    rw [if_pos rfl]
    have hrec : r.grant refOf b = { r with granted := r.granted ++ [⟨j, file, refOf file b⟩] } := by
      rw [Record.grant, hj]
    have hfileId : (refOf file b).fileId = file := by
      rw [← h.refs]
      exact blockRef_fileId _ _ _
    rw [hrec]
    refine { h with refs := hrefs, frames := ?_, granted := ?_, perm := ?_ }
    · rw [hframes, hj]
      refine ⟨_, _, rfl, ⟨?_, fun file' heq => Option.some.inj heq⟩, hrest.congr fun j' hj' => ?_⟩
      · -- the new grant is its job's, and its file is not finished
        show _ = Record.pendingOf _ j
        unfold Record.pendingOf
        rw [List.filter_append, List.map_append, hpend]
        simp [Record.pendingOf, hopen]
      · -- the grant is of no other job
        unfold Record.pendingOf
        rw [List.filter_append, List.map_append]
        simp [(hne j' hj').symm]
    · intro x hx
      rcases List.mem_append.mp hx with hold | hnew
      · exact h.granted x hold
      · rw [List.mem_singleton.mp hnew]
        exact ⟨h.begun (j, some file) (by rw [hj]; exact List.mem_cons_self), hfileId⟩
    · -- nothing becomes due before the file is finished
      unfold Record.due
      rw [List.filterMap_append]
      simp only [List.filterMap_cons, hopen, Option.map_none, List.filterMap_nil, List.append_nil]
      exact h.perm

/-- The unfinished grants of a job, picked by their file. -/
theorem Warm.filter_pendingOf (h : Warm refOf g s r) (j : ℕ) (test : ℕ → Bool) :
    (r.pendingOf j).filter (fun b => test b.fileId) =
      (r.granted.filter fun x =>
        test x.file && decide (x.job = j ∧ r.finished x.job x.file = none)).map (·.ref) := by
  unfold Record.pendingOf
  rw [List.filter_map, List.filter_filter]
  congr 1
  apply List.filter_congr
  intro x hx
  simp only [Function.comp_apply, (h.granted x hx).2]

/-- The record once job `j` has finished a file. -/
def Record.markFinished (r : Record) (j file size : ℕ) : Record :=
  { r with
    finished := Function.update r.finished j (Function.update (r.finished j) file (some size)) }

/-- Finishing a file is noted for its job, with the size it was finished with. -/
theorem Record.finished_markFinished (r : Record) (j file size job file' : ℕ) :
    (r.markFinished j file size).finished job file' =
      if job = j ∧ file' = file then some size else r.finished job file' := by
  unfold Record.markFinished
  by_cases hjob : job = j
  · subst hjob
    by_cases hfile : file' = file
    · subst hfile; simp
    · simp [hfile]
  · simp [hjob]

/-- Other jobs' files have nothing to do with it. -/
theorem Record.pendingOf_markFinished_of_ne (r : Record) {j j' : ℕ} (hne : j' ≠ j)
    (file size : ℕ) : (r.markFinished j file size).pendingOf j' = r.pendingOf j' := by
  unfold Record.pendingOf
  congr 1
  apply List.filter_congr
  intro x _
  rw [r.finished_markFinished]
  by_cases hx : x.job = j'
  · rw [if_neg fun h => hne (hx.symm.trans h.1)]
  · simp [hx]

/-- What stays pending is what is still unfinished. -/
theorem Warm.pendingOf_markFinished (h : Warm refOf g s r) (j file size : ℕ) :
    (r.markFinished j file size).pendingOf j =
      (r.pendingOf j).filter fun b => decide (b.fileId ≠ file) := by
  rw [h.filter_pendingOf j fun f => decide (f ≠ file)]
  unfold Record.pendingOf
  congr 1
  apply List.filter_congr
  intro x _
  rw [r.finished_markFinished]
  by_cases hx : x.job = j ∧ x.file = file
  · simp [hx]
  · rw [if_neg hx]
    by_cases hxj : x.job = j
    · have hxf : x.file ≠ file := fun hf => hx ⟨hxj, hf⟩
      simp [hxj, hxf]
    · simp [hxj]

/-- The grants of the file become due, the others stay as they were. -/
theorem Warm.due_markFinished (h : Warm refOf g s r) {j file : ℕ}
    (hopen : r.finished j file = none) (size : ℕ) :
    (r.markFinished j file size).due.Perm
      (r.due ++ ((r.pendingOf j).filter fun b => decide (b.fileId = file)).map
        fun b => (b, size)) := by
  have hnew : ((r.pendingOf j).filter fun b => decide (b.fileId = file)).map (fun b => (b, size)) =
      (r.granted.filter fun x => decide (x.job = j ∧ x.file = file)).map
        fun x => (x.ref, size) := by
    rw [h.filter_pendingOf j fun f => decide (f = file), List.map_map]
    congr 1
    apply List.filter_congr
    intro x _
    by_cases hx : x.job = j ∧ x.file = file
    · simp [hx.1, hx.2, hopen]
    · by_cases hxj : x.job = j
      · have hxf : x.file ≠ file := fun hf => hx ⟨hxj, hf⟩
        simp [hxf]
      · simp [hxj]
  rw [hnew]
  apply filterMap_perm_append
  · intro x hx
    have hx' := of_decide_eq_true hx
    rw [r.finished_markFinished, if_pos hx', hx'.1, hx'.2, hopen]
    exact ⟨rfl, rfl⟩
  · intro x hx
    rw [r.finished_markFinished, if_neg (of_decide_eq_false hx)]

/-- At the end of a file its pending blocks are read, and no others. -/
theorem Warm.finishFile (h : Warm refOf g s r) {file : ℕ} (hcur : g.current = some file)
    (size mono : ℕ) :
    Warm refOf { g with files := none :: g.files.tail }
      (step eng s ⟨mono, .outputFileFinished file size⟩).1
      (Record.finishFile { r with warmed := r.warmed ++
        (step eng s ⟨mono, .outputFileFinished file size⟩).2.warm } file size) := by
  obtain ⟨j, js, hj, hpend, hout, hrest, hne⟩ := h.innermost hcur
  obtain ⟨hwarm, hframes, hrefs⟩ := onOutputFileFinished_spec eng s.adapter s.cache file size
  obtain ⟨hopen, hused⟩ := h.writing j file (by rw [hj]; exact List.mem_cons_self)
  rw [hpend] at hwarm hframes
  -- the record in terms of `markFinished`: only the innermost job's file is closed besides
  have hrec : ∀ ws, Record.finishFile { r with warmed := ws } file size =
      { r.markFinished j file size with jobs := (j, none) :: js, warmed := ws } := by
    intro ws
    unfold Record.finishFile
    simp only [hj]
    rfl
  have hfiles := h.files
  have hnumbers := h.numbers
  have hbegun := h.begun
  have hwriting := h.writing
  rw [hj] at hfiles hnumbers hbegun hwriting
  rw [hrec]
  refine ⟨hrefs.trans h.refs, ?_, ?_, hnumbers, ?_, h.granted, ?_, ?_, ?_⟩
  · rw [← hfiles]
    rfl
  · refine ⟨_, _, hframes, ⟨?_, fun file' heq => by cases heq⟩, hrest.congr fun j' hj' => ?_⟩
    · exact (h.pendingOf_markFinished j file size).symm
    · exact r.pendingOf_markFinished_of_ne (hne j' hj') file size
  · intro j' hj'
    rcases List.mem_cons.mp hj' with rfl | hold
    · exact hbegun (j, some file) List.mem_cons_self
    · exact hbegun j' (List.mem_cons_of_mem _ hold)
  · intro job file' hfin
    change (r.markFinished j file size).finished job file' ≠ none at hfin
    rw [r.finished_markFinished] at hfin
    by_cases hx : job = j ∧ file' = file
    · rw [hx.2]
      exact hused
    · rw [if_neg hx] at hfin
      exact h.used job file' hfin
  · intro job file' hmem
    rcases List.mem_cons.mp hmem with heq | hold
    · cases heq
    · have hjob := hne _ hold
      show (r.markFinished j file size).finished job file' = none ∧ _
      rw [r.finished_markFinished, if_neg fun hx => hjob hx.1]
      exact hwriting job file' (List.mem_cons_of_mem _ hold)
  · have hdue := h.due_markFinished hopen size
    rw [← hwarm] at hdue
    exact (h.perm.append_right _).trans hdue.symm

/-- The end of a job brings the interrupted job's pending blocks back. -/
theorem Warm.closeJob (h : Warm refOf g s r) (hjobs : g.files ≠ []) (mono : ℕ) :
    Warm refOf { g with files := g.files.tail } (step eng s ⟨mono, .compactionEnd⟩).1
      { r with jobs := r.jobs.tail } := by
  have hmapper : (step eng s ⟨mono, .compactionEnd⟩).1.adapter.core.mapper =
      s.adapter.core.mapper := by
    show s.adapter.onCompactionEnd.core.mapper = _
    rw [← onCompactionEnd_mapper s.adapter.core]
    unfold Adapter.onCompactionEnd
    cases s.adapter.nested <;> rfl
  have hrange : (step eng s ⟨mono, .compactionEnd⟩).1.adapter.maxRangeId =
      s.adapter.maxRangeId := by
    show s.adapter.onCompactionEnd.maxRangeId = _
    unfold Adapter.onCompactionEnd
    cases s.adapter.nested <;> rfl
  cases hj : r.jobs with
  | nil => exact absurd (by rw [← h.files, hj]; rfl) hjobs
  | cons j js =>
    have hframes := h.frames
    have hfiles := h.files
    have hnumbers := h.numbers
    have hbegun := h.begun
    have hwriting := h.writing
    rw [hj] at hframes hfiles hnumbers hbegun hwriting
    obtain ⟨f, fs, hfs, -, hrest⟩ := hframes
    obtain ⟨-, hnested⟩ := List.cons.inj hfs
    -- the enclosing job's frame is the one that was set aside
    have hpop : (step eng s ⟨mono, .compactionEnd⟩).1.adapter.frames = fs := by
      show s.adapter.onCompactionEnd.frames = fs
      unfold Adapter.onCompactionEnd Adapter.frames
      simp only [hnested]
      cases js with
      | nil =>
        obtain ⟨bottom, rfl, -⟩ := hrest
        rfl
      | cons j' js =>
        obtain ⟨f', fs', rfl, -, -⟩ := hrest
        rfl
    refine ⟨(blockRef_congr hmapper hrange).trans h.refs, ?_, ?_, ?_, ?_, h.granted, h.used, ?_,
      h.perm⟩
    · rw [← hfiles]
      rfl
    · rw [hpop]
      exact hrest.congr fun _ _ => rfl
    · exact (List.pairwise_cons.mp hnumbers).2
    · exact fun j' hj' => hbegun j' (List.mem_cons_of_mem _ hj')
    · exact fun job file hmem => hwriting job file (List.mem_cons_of_mem _ hmem)

/-- **One hook keeps the adapter and the record together.** -/
theorem warm_step (h : Warm refOf g s r) {c : Call κ} (hok : (hooks κ).ok g c) :
    Warm refOf ((hooks κ).next g c) (step eng s c).1 (r.note refOf c (step eng s c).2) := by
  obtain ⟨mono, hook⟩ := c
  -- only a finished file warms anything
  have hclean : { r with warmed := r.warmed ++ [] } = r := by rw [List.append_nil]
  cases hook with
  | compactionBegin level isFlush inputs =>
    show Warm refOf _ _ (Record.openJob { r with warmed := r.warmed ++ [] })
    rw [hclean]
    exact h.openJob level isFlush inputs mono
  | outputFileStart file =>
    show Warm refOf _ _ (Record.startFile { r with warmed := r.warmed ++ [] } file)
    rw [hclean]
    exact h.startFile hok.1 hok.2 mono
  | outputBlock b =>
    obtain ⟨file, hcur⟩ := Option.isSome_iff_exists.mp hok
    show Warm refOf _ _ (if _ then Record.grant refOf { r with warmed := r.warmed ++ [] } b
      else { r with warmed := r.warmed ++ [] })
    rw [hclean]
    exact h.block hcur b mono
  | outputFileFinished file size => exact h.finishFile hok size mono
  | compactionEnd =>
    show Warm refOf _ _ { r with warmed := r.warmed ++ [], jobs := r.jobs.tail }
    rw [List.append_nil]
    exact h.closeJob hok mono
  | _ => exact h.idle rfl

end Steps

/-- A fresh adapter and an empty record. -/
theorem Warm.initial (s : State κ) (hpending : s.adapter.pendingWarm = [])
    (hnested : s.adapter.nested = []) : Warm s.adapter.blockRef {} s {} := by
  refine ⟨rfl, rfl, ⟨⟨s.adapter.pendingWarm, s.adapter.currentOutput⟩, ?_, hpending⟩,
    List.Pairwise.nil, ?_, ?_, ?_, ?_, List.Perm.nil⟩
  · unfold Adapter.frames
    rw [hnested]
  · exact fun j hj => absurd hj List.not_mem_nil
  · exact fun x hx => absurd hx List.not_mem_nil
  · exact fun job file hne => absurd rfl hne
  · exact fun job file hmem => absurd hmem List.not_mem_nil

/-- Whatever the hook is, what it warmed is appended. -/
theorem Record.note_warmed (refOf : ℕ → BlockInfo → BlockRef) (r : Record) (c : Call κ)
    (o : HookObs) : (r.note refOf c o).warmed = r.warmed ++ o.warm := by
  obtain ⟨mono, hook⟩ := c
  unfold Record.note
  cases hook with
  | outputFileStart file =>
    simp only [Record.startFile]
    split <;> rfl
  | outputBlock b =>
    simp only [Record.grant]
    split_ifs
    · split <;> rfl
    · rfl
  | outputFileFinished file size =>
    simp only [Record.finishFile]
    split <;> rfl
  | _ => rfl

/-- The adapter counts what it has passed to `Prefetch`. -/
theorem run_warmed (eng : EngineOps κ) (refOf : ℕ → BlockInfo → BlockRef) (s : State κ)
    (cs : List (Call κ)) : (run (step eng) s cs).adapter.warmed =
      s.adapter.warmed + (watch (step eng) (Record.note refOf) s {} cs).warmed.length := by
  refine watch_keeps (P := fun s' r => s'.adapter.warmed = s.adapter.warmed + r.warmed.length)
    (step eng) (Record.note refOf) (fun s' r c h => ?_) cs rfl
  rw [step_warmed, h, Record.note_warmed, List.length_append]
  omega

/-- No hook binds the engine anew. -/
theorem run_bound (eng : EngineOps κ) (s : State κ) (cs : List (Call κ)) :
    (run (step eng) s cs).adapter.bound = s.adapter.bound :=
  run_keeps (P := fun s' : State κ => s'.adapter.bound = s.adapter.bound)
    (fun s' c h => (step_settings eng s' c).1.trans h) cs rfl

/-- **The adapter warms exactly the granted blocks of finished files.** From a fresh adapter,
    whatever core, keys and cache it has: after any well-bracketed run the blocks passed to
    `Prefetch`, each with the file size looked up for it, are as a multiset the granted blocks whose
    own file their own job has finished, under that file's number and size.  Their number is what
    the adapter counts; and with an engine bound, each finished file of the run leaves the cache as
    `WarmBlock` calls for what it passed to `Prefetch`, in that order, leave it. -/
theorem warmed_perm_due (eng : EngineOps κ) (s : State κ) (hpending : s.adapter.pendingWarm = [])
    (hnested : s.adapter.nested = []) {cs : List (Call κ)} (hacc : (hooks κ).Accepts {} cs) :
    (watch (step eng) (Record.note s.adapter.blockRef) s {} cs).warmed.Perm
      (watch (step eng) (Record.note s.adapter.blockRef) s {} cs).due ∧
    (∀ x ∈ (watch (step eng) (Record.note s.adapter.blockRef) s {} cs).granted,
      x.ref.fileId = x.file) ∧
    (run (step eng) s cs).adapter.warmed = s.adapter.warmed +
      (watch (step eng) (Record.note s.adapter.blockRef) s {} cs).warmed.length ∧
    (s.adapter.bound = true → ∀ before mono file size after,
      cs = before ++ ⟨mono, .outputFileFinished file size⟩ :: after →
      let t := run (step eng) s before
      let r := step eng t ⟨mono, .outputFileFinished file size⟩
      r.1.cache = eng.warmAll r.2.warm t.cache) := by
  have hwarm : Warm s.adapter.blockRef ((hooks κ).after {} cs) (run (step eng) s cs)
      (watch (step eng) (Record.note s.adapter.blockRef) s {} cs) := by
    apply (hooks κ).watch_invariant (P := fun g s' r => Warm s.adapter.blockRef g s' r)
      (fun g s' r c hok h => warm_step h hok) hacc
    exact Warm.initial s hpending hnested
  refine ⟨hwarm.perm, fun x hx => (hwarm.granted x hx).2, run_warmed eng _ s cs, ?_⟩
  intro hbound before mono file size after _
  exact (onOutputFileFinished_calls eng _ _ file size).2 ((run_bound eng s before).trans hbound)

/-- An adapter that grants everything the budget allows. -/
def warmAllAdapter : Adapter := { core := { sampleCore with opt := { policy := .warmAll } } }

/-- A flush strikes while a compaction writes file 5; file 7 is never finished. -/
def midFileFlush : List (Call (List (ℕ × ℕ × ℕ))) :=
  [⟨0, .compactionBegin 1 false []⟩, ⟨1, .outputFileStart 5⟩, ⟨2, .outputBlock { size := 10 }⟩,
   ⟨3, .compactionBegin 0 true []⟩, ⟨4, .outputFileStart 6⟩, ⟨5, .outputBlock { size := 20 }⟩,
   ⟨6, .outputFileFinished 6 100⟩, ⟨7, .compactionEnd⟩,
   ⟨8, .outputBlock { size := 30, offset := 10 }⟩, ⟨9, .outputFileFinished 5 200⟩,
   ⟨10, .outputFileStart 7⟩, ⟨11, .outputBlock { size := 40 }⟩, ⟨12, .compactionEnd⟩]

/-- File 6 first, then both blocks of file 5, each with the size of its file; and so they are in the
    cache. -/
theorem warmed_perm_due_midFileFlush :
    let s : State (List (ℕ × ℕ × ℕ)) := ⟨warmAllAdapter, []⟩
    let r := watch (step listEngine) (Record.note s.adapter.blockRef) s {} midFileFlush
    r.warmed.Perm r.due ∧
      r.warmed.map (fun p => (p.1.fileId, p.1.size, p.2)) =
        [(6, 20, 100), (5, 10, 200), (5, 30, 200)] ∧
      (run (step listEngine) s midFileFlush).adapter.warmed = 3 ∧
      (run (step listEngine) s midFileFlush).cache = [(6, 100, 0), (5, 200, 0), (5, 200, 10)] := by
  intro s r
  have h := @warmed_perm_due _ listEngine s rfl rfl midFileFlush (by decide)
  exact ⟨h.1, by decide +kernel, h.2.2.1.trans (by decide +kernel), by decide +kernel⟩

end Leaper.LevelDB
