import Leaper.Bench.Worker
import Leaper.Lib.Scan
import Leaper.Tools.PaperMetrics

namespace Leaper.Bench

open Lib Metrics

/-!
# The event log

`bench/include/leaper_bench/event_logger.h`: the engine's messages are scanned for the begin and the
end of background jobs.

* `logv` — a message, and the counters;
* `Message` — the messages that are looked for, and all others;
* `logv_text` — every message is told apart and its numbers are read back;
* `logged_exact` — events and counters after any sequence of messages.
-/

/-! ### The logger -/

/-- `BgEvent`. -/
structure LogEvent where
  tSecs : ℚ
  type : EventType
  level : ℤ := -1
  bytes : ℤ := 0
  deriving DecidableEq

/-- `EventLogger`. -/
structure EventLogger where
  startUs : ℕ
  events : List LogEvent := []
  compactionsRunning : ℤ := 0
  compactionsDone : ℕ := 0
  flushesDone : ℕ := 0
  trivialMoves : ℕ := 0
  compactedBytes : ℕ := 0

/-- A number added to a 64-bit counter. -/
def addBytes (n : ℕ) (bytes : ℤ) : ℕ := ((n + bytes) % 2 ^ 64).toNat

def beginFormat : List Directive := directives "Compacting %d@%d + %d@%d".toList

def endFormat : List Directive := directives "Compacted %d@%d + %d@%d files => %lld".toList

def flushFormat : List Directive := directives ": %lld bytes".toList

def moveFormat : List Directive := directives "Moved #%lld to level-%d %lld".toList

/-- `Logv`, on the text that the format and its arguments give; `buf` has 1024 bytes. -/
def logv (l : EventLogger) (now : ℕ) (text : List Char) : EventLogger :=
  let buf := text.take 1023
  let t := elapsed l.startUs now
  if "Compacting ".toList.isPrefixOf buf then
    let vs := scan beginFormat buf
    { l with events := l.events ++ [⟨t, .compactionBegin, vs.getD 1 0, 0⟩]
             compactionsRunning := l.compactionsRunning + 1 }
  else if "Compacted ".toList.isPrefixOf buf then
    let vs := scan endFormat buf
    { l with events := l.events ++ [⟨t, .compactionEnd, vs.getD 1 0, vs.getD 4 0⟩]
             compactionsRunning := l.compactionsRunning - 1
             compactionsDone := l.compactionsDone + 1
             compactedBytes := addBytes l.compactedBytes (vs.getD 4 0) }
  else if "Level-0 table ".toList.isPrefixOf buf then
    if ": started".toList <:+: buf then
      { l with events := l.events ++ [⟨t, .flushBegin, 0, 0⟩] }
    else
      -- `strchr`; nothing is scanned where there is no colon
      let vs := scan flushFormat (buf.dropWhile (· ≠ ':'))
      { l with events := l.events ++ [⟨t, .flushEnd, 0, vs.getD 0 0⟩]
               flushesDone := l.flushesDone + 1 }
  else if "Moved #".toList.isPrefixOf buf then
    let vs := scan moveFormat buf
    { l with events := l.events ++ [⟨t, .trivialMove, vs.getD 1 (-1), vs.getD 2 0⟩]
             trivialMoves := l.trivialMoves + 1 }
  else l

/-! ### Messages -/

/-- A message of the engine. -/
inductive Message
  /-- `Compacting %d@%d + %d@%d files` -/
  | compacting (n0 l0 n1 l1 : ℤ)
  /-- `Compacted %d@%d + %d@%d files => %lld bytes` -/
  | compacted (n0 l0 n1 l1 bytes : ℤ)
  /-- `Level-0 table #%llu: started` -/
  | flushStarted (number : ℕ)
  /-- `Level-0 table #%llu: %lld bytes %s` -/
  | flushed (number : ℕ) (bytes : ℤ) (status : List Char)
  /-- `Moved #%lld to level-%d %lld bytes ...` -/
  | moved (number level bytes : ℤ) (rest : List Char)
  | other (text : List Char)

namespace Message

/-- A message as it is printed. -/
def text : Message → List Char
  | compacting n0 l0 n1 l1 => print beginFormat [n0, l0, n1, l1] ++ " files".toList
  | compacted n0 l0 n1 l1 bytes => print endFormat [n0, l0, n1, l1, bytes] ++ " bytes".toList
  | flushStarted number => "Level-0 table #".toList ++ Nat.toDigits 10 number ++ ": started".toList
  | flushed number bytes status =>
    "Level-0 table #".toList ++ Nat.toDigits 10 number ++
      (print flushFormat [bytes] ++ ' ' :: status)
  | moved number level bytes rest =>
    print moveFormat [number, level, bytes] ++ " bytes ".toList ++ rest
  | other text => text

/-- The numbers are of the types that are printed, and what is not looked for does not look so. -/
def Plain : Message → Prop
  | compacting n0 l0 n1 l1 => ∀ z ∈ [n0, l0, n1, l1], Fits false z
  | compacted n0 l0 n1 l1 bytes => (∀ z ∈ [n0, l0, n1, l1], Fits false z) ∧ Fits true bytes
  | flushStarted _ => True
  | flushed _ bytes status => Fits true bytes ∧ ¬ ": started".toList <:+: status
  | moved number level bytes _ => Fits true number ∧ Fits false level ∧ Fits true bytes
  | other text => ∀ w ∈ ["Compacting ", "Compacted ", "Level-0 table ", "Moved #"],
      w.toList.isPrefixOf text = false

instance : ∀ m : Message, Decidable m.Plain
  | compacting n0 l0 n1 l1 => inferInstanceAs (Decidable (∀ z ∈ [n0, l0, n1, l1], Fits false z))
  | compacted n0 l0 n1 l1 bytes =>
    inferInstanceAs (Decidable ((∀ z ∈ [n0, l0, n1, l1], Fits false z) ∧ Fits true bytes))
  | flushStarted _ => isTrue trivial
  | flushed _ bytes status =>
    inferInstanceAs (Decidable (Fits true bytes ∧ ¬ ": started".toList <:+: status))
  | moved number level bytes _ =>
    inferInstanceAs (Decidable (Fits true number ∧ Fits false level ∧ Fits true bytes))
  | other text =>
    inferInstanceAs (Decidable (∀ w ∈ ["Compacting ", "Compacted ", "Level-0 table ", "Moved #"],
      w.toList.isPrefixOf text = false))

/-- What the message reports. -/
def event (t : ℚ) : Message → Option LogEvent
  | compacting _ l0 _ _ => some ⟨t, .compactionBegin, l0, 0⟩
  | compacted _ l0 _ _ bytes => some ⟨t, .compactionEnd, l0, bytes⟩
  | flushStarted _ => some ⟨t, .flushBegin, 0, 0⟩
  | flushed _ bytes _ => some ⟨t, .flushEnd, 0, bytes⟩
  | moved _ level bytes _ => some ⟨t, .trivialMove, level, bytes⟩
  | other _ => none

end Message

/-- The counters and the events with one more. -/
def record1 (l : EventLogger) (e : LogEvent) : EventLogger :=
  match e.type with
  | .compactionBegin => { l with events := l.events ++ [e]
                                 compactionsRunning := l.compactionsRunning + 1 }
  | .compactionEnd => { l with events := l.events ++ [e]
                               compactionsRunning := l.compactionsRunning - 1
                               compactionsDone := l.compactionsDone + 1
                               compactedBytes := addBytes l.compactedBytes e.bytes }
  | .flushBegin => { l with events := l.events ++ [e] }
  | .flushEnd => { l with events := l.events ++ [e], flushesDone := l.flushesDone + 1 }
  | .trivialMove => { l with events := l.events ++ [e], trivialMoves := l.trivialMoves + 1 }

/-- A word that starts with a character that `s` does not have is not found before the end
    of `s`. -/
theorem infix_of_notMem {c : Char} {w s t : List Char} (hc : c ∉ s) (h : c :: w <:+: s ++ t) :
    c :: w <:+: t := by
  induction s with
  | nil => exact h
  | cons d s ih =>
    rcases List.infix_cons_iff.mp h with hprefix | hinfix
    · exact absurd (List.cons_prefix_cons.mp hprefix).1 (fun heq => hc (heq ▸ List.mem_cons_self))
    · exact ih (fun hmem => hc (List.mem_cons_of_mem _ hmem)) hinfix

/-- A printed number has no colon, so `: started` is not found inside one. -/
theorem colon_notMem_toDigits (n : ℕ) : ':' ∉ Nat.toDigits 10 n := by
  intro hmem
  exact absurd (isDigit_toDigits hmem) (by decide)

/-- A printed number has digits and a sign only. -/
theorem notMem_showInt {c : Char} (hdigit : c.isDigit = false) (hsign : c ≠ '-') (z : ℤ) :
    c ∉ showInt z := by
  have hdigits : c ∉ Nat.toDigits 10 z.natAbs := fun hmem =>
    absurd (isDigit_toDigits hmem) (by rw [hdigit]; exact Bool.false_ne_true)
  unfold showInt
  split_ifs
  · intro hmem
    rcases List.mem_cons.mp hmem with heq | hmem
    · exact hsign heq
    · exact hdigits hmem
  · exact hdigits

/-- What the format of a flush prints, spelled out. -/
theorem print_flushFormat (bytes : ℤ) (s : List Char) :
    print flushFormat [bytes] ++ s = ':' :: ' ' :: (showInt bytes ++ (" bytes".toList ++ s)) := by
  show ':' :: ' ' :: (showInt bytes ++ " bytes".toList ++ s) = _
  rw [List.append_assoc]

/-- The message of a flush up to the colon. -/
theorem colon_notMem_flush (number : ℕ) :
    ':' ∉ "Level-0 table #".toList ++ Nat.toDigits 10 number := by
  intro hmem
  rcases List.mem_append.mp hmem with hmem | hmem
  · exact absurd hmem (by decide)
  · exact colon_notMem_toDigits number hmem

/-- A word after a colon that starts with a letter is not found where a number follows the colon. -/
theorem infix_after_number {w head tail status : List Char} {z : ℤ} (hhead : ':' ∉ head)
    (htail : ':' ∉ tail)
    (h : ':' :: ' ' :: 's' :: w <:+: head ++ ':' :: ' ' :: (showInt z ++ (tail ++ status))) :
    ':' :: ' ' :: 's' :: w <:+: status := by
  rcases List.infix_cons_iff.mp (infix_of_notMem hhead h) with hprefix | hinfix
  · have hs := (List.cons_prefix_cons.mp (List.cons_prefix_cons.mp hprefix).2).2
    obtain ⟨hne, -⟩ := isWord_showInt z
    cases hz : showInt z with
    | nil => exact absurd hz hne
    | cons c cs =>
      rw [hz, List.cons_append] at hs
      have hc : 's' = c := (List.cons_prefix_cons.mp hs).1
      have hmem : 's' ∈ showInt z := by rw [hz, hc]; exact List.mem_cons_self
      exact absurd hmem (notMem_showInt (by decide) (by decide) z)
  · have hrest : ':' :: ' ' :: 's' :: w <:+: (' ' :: (showInt z ++ tail)) ++ status := by
      rw [List.cons_append, List.append_assoc]
      exact hinfix
    refine infix_of_notMem ?_ hrest
    intro hmem
    rcases List.mem_cons.mp hmem with heq | hmem
    · exact absurd heq (by decide)
    · rcases List.mem_append.mp hmem with hmem | hmem
      · exact notMem_showInt (by decide) (by decide) z hmem
      · exact htail hmem

/-- The end of a flush does not look like its begin. -/
theorem not_started {number : ℕ} {bytes : ℤ} {status : List Char}
    (hstatus : ¬ ": started".toList <:+: status) :
    ¬ ": started".toList <:+: (Message.flushed number bytes status).text := by
  have htext : (Message.flushed number bytes status).text =
      ("Level-0 table #".toList ++ Nat.toDigits 10 number) ++
        ':' :: ' ' :: (showInt bytes ++ (" bytes ".toList ++ status)) := by
    show _ ++ (print flushFormat [bytes] ++ ' ' :: status) = _
    rw [print_flushFormat]
    rfl
  intro hfound
  rw [htext] at hfound
  exact hstatus (infix_after_number (colon_notMem_flush number) (by decide) hfound)

/-- **Every message is told apart**, and its numbers are read back. -/
theorem logv_text (l : EventLogger) (now : ℕ) {m : Message} (hm : m.Plain)
    (hlen : m.text.length ≤ 1023) :
    logv l now m.text = ((m.event (elapsed l.startUs now)).elim l (record1 l)) := by
  -- the message fits the buffer, so nothing is cut off
  have hbuf : m.text.take 1023 = m.text := List.take_of_length_le hlen
  unfold logv
  rw [hbuf]
  cases m with
  | compacting n0 l0 n1 l1 =>
    have hzs : Supplied beginFormat [n0, l0, n1, l1] :=
      ⟨hm n0 (by simp), hm l0 (by simp), hm n1 (by simp), hm l1 (by simp), rfl⟩
    have hscan : scan beginFormat (Message.compacting n0 l0 n1 l1).text = [n0, l0, n1, l1] :=
      scan_print (by decide) hzs (endsNumber_space _)
    dsimp only
    rw [if_pos (by rfl), hscan]
    rfl
  | compacted n0 l0 n1 l1 bytes =>
    obtain ⟨hm, hbytes⟩ := hm
    have hzs : Supplied endFormat [n0, l0, n1, l1, bytes] :=
      ⟨hm n0 (by simp), hm l0 (by simp), hm n1 (by simp), hm l1 (by simp), hbytes, rfl⟩
    have hscan : scan endFormat (Message.compacted n0 l0 n1 l1 bytes).text =
        [n0, l0, n1, l1, bytes] :=
      scan_print (by decide) hzs (endsNumber_space _)
    dsimp only
    rw [if_neg (by exact Bool.false_ne_true), if_pos (by rfl), hscan]
    rfl
  | flushStarted number =>
    -- the number in front has no colon, so the text is found where it was printed
    have hfound : ": started".toList <:+: (Message.flushStarted number).text :=
      List.infix_append' _ _ []
    dsimp only
    rw [if_neg (by exact Bool.false_ne_true), if_neg (by exact Bool.false_ne_true),
      if_pos (by rfl), if_pos hfound]
    rfl
  | flushed number bytes status =>
    obtain ⟨hbytes, hstatus⟩ := hm
    -- `strchr` stops at the colon after the table's number
    have hdrop : (Message.flushed number bytes status).text.dropWhile (· ≠ ':') =
        print flushFormat [bytes] ++ ' ' :: status := by
      show (("Level-0 table #".toList ++ Nat.toDigits 10 number) ++
        (print flushFormat [bytes] ++ ' ' :: status)).dropWhile (· ≠ ':') = _
      rw [List.dropWhile_append_of_pos]
      · exact List.dropWhile_cons_of_neg (by decide)
      · intro c hc
        exact decide_eq_true fun heq => colon_notMem_flush number (heq ▸ hc)
    have hzs : Supplied flushFormat [bytes] := ⟨hbytes, rfl⟩
    have hscan : scan flushFormat (print flushFormat [bytes] ++ ' ' :: status) = [bytes] :=
      scan_print (by decide) hzs (endsNumber_space _)
    dsimp only
    rw [if_neg (by exact Bool.false_ne_true), if_neg (by exact Bool.false_ne_true),
      if_pos (by rfl), if_neg (not_started hstatus), hdrop, hscan]
    rfl
  | moved number level bytes rest =>
    obtain ⟨hnumber, hlevel, hbytes⟩ := hm
    have hzs : Supplied moveFormat [number, level, bytes] := ⟨hnumber, hlevel, hbytes, rfl⟩
    have hscan : scan moveFormat (Message.moved number level bytes rest).text =
        [number, level, bytes] := by
      show scan moveFormat (print moveFormat [number, level, bytes] ++ " bytes ".toList ++ rest) = _
      rw [List.append_assoc]
      exact scan_print (by decide) hzs (endsNumber_space _)
    dsimp only
    rw [if_neg (by exact Bool.false_ne_true), if_neg (by exact Bool.false_ne_true),
      if_neg (by exact Bool.false_ne_true), if_pos (by rfl), hscan]
    rfl
  | other text =>
    -- no other message begins with one of the four words
    have hnot : ∀ w ∈ ["Compacting ", "Compacted ", "Level-0 table ", "Moved #"],
      ¬ w.toList.isPrefixOf text = true := fun w hw => by rw [hm w hw]; exact Bool.false_ne_true
    dsimp only [Message.text]
    rw [if_neg (hnot _ (by simp)), if_neg (hnot _ (by simp)), if_neg (hnot _ (by simp)),
      if_neg (hnot _ (by simp))]
    rfl

/-! ### Whole logs -/

/-- The logger after some messages. -/
def logAll (startUs : ℕ) (ms : List (ℕ × Message)) : EventLogger :=
  ms.foldl (fun l x => logv l x.1 x.2.text) { startUs := startUs }

/-- Messages are logged one after the other. -/
theorem logAll_concat (startUs : ℕ) (ms : List (ℕ × Message)) (x : ℕ × Message) :
    logAll startUs (ms ++ [x]) = logv (logAll startUs ms) x.1 x.2.text :=
  List.foldl_append

/-- How many events of a kind there are. -/
def countType (k : EventType) (es : List LogEvent) : ℕ := es.countP fun e => decide (e.type = k)

/-- The bytes of the compactions that have ended. -/
def endedBytes (es : List LogEvent) : ℤ :=
  ((es.filter fun e => decide (e.type = .compactionEnd)).map (·.bytes)).sum

/-- **The counters against the events.** -/
structure EventLogger.Agrees (l : EventLogger) : Prop where
  running : l.compactionsRunning =
    countType .compactionBegin l.events - countType .compactionEnd l.events
  done : l.compactionsDone = countType .compactionEnd l.events
  flushes : l.flushesDone = countType .flushEnd l.events
  moves : l.trivialMoves = countType .trivialMove l.events
  bytes : (l.compactedBytes : ℤ) = endedBytes l.events % 2 ^ 64

/-- One more event counts for its own type. -/
theorem countType_append (k : EventType) (es : List LogEvent) (e : LogEvent) :
    countType k (es ++ [e]) = countType k es + if e.type = k then 1 else 0 := by
  unfold countType
  rw [List.countP_append, List.countP_singleton]
  simp

/-- The bytes of one more event count if it ends a compaction. -/
theorem endedBytes_append (es : List LogEvent) (e : LogEvent) :
    endedBytes (es ++ [e]) = endedBytes es + if e.type = .compactionEnd then e.bytes else 0 := by
  unfold endedBytes
  rw [List.filter_append, List.map_append, List.sum_append]
  by_cases he : e.type = .compactionEnd <;> simp [he]

/-- Adding to the counter is adding, modulo 2^64, also for a negative number of bytes. -/
theorem addBytes_eq {n : ℕ} {total : ℤ} (h : (n : ℤ) = total % 2 ^ 64) (bytes : ℤ) :
    (addBytes n bytes : ℤ) = (total + bytes) % 2 ^ 64 := by
  unfold addBytes
  rw [Int.toNat_of_nonneg (Int.emod_nonneg _ (by norm_num)), h, Int.emod_add_emod]

/-- **One event.** -/
theorem record1_agrees {l : EventLogger} (h : l.Agrees) (e : LogEvent) :
    (record1 l e).events = l.events ++ [e] ∧ (record1 l e).startUs = l.startUs ∧
      (record1 l e).Agrees := by
  obtain ⟨hrunning, hdone, hflushes, hmoves, hbytes⟩ := h
  have hadd := addBytes_eq hbytes e.bytes
  unfold record1
  cases hk : e.type with
  | compactionBegin =>
    refine ⟨rfl, rfl, ⟨?_, ?_, ?_, ?_, ?_⟩⟩
    all_goals simp only [countType_append, endedBytes_append, hk, reduceCtorEq, if_true, if_false]
    all_goals push_cast
    all_goals omega
  | compactionEnd =>
    refine ⟨rfl, rfl, ⟨?_, ?_, ?_, ?_, ?_⟩⟩
    all_goals simp only [countType_append, endedBytes_append, hk, reduceCtorEq, if_true, if_false]
    · push_cast
      omega
    · omega
    · omega
    · omega
    · exact hadd
  | flushBegin =>
    refine ⟨rfl, rfl, ⟨?_, ?_, ?_, ?_, ?_⟩⟩
    all_goals simp only [countType_append, endedBytes_append, hk, reduceCtorEq, if_false]
    all_goals omega
  | flushEnd =>
    refine ⟨rfl, rfl, ⟨?_, ?_, ?_, ?_, ?_⟩⟩
    all_goals simp only [countType_append, endedBytes_append, hk, reduceCtorEq, if_true, if_false]
    all_goals omega
  | trivialMove =>
    refine ⟨rfl, rfl, ⟨?_, ?_, ?_, ?_, ?_⟩⟩
    all_goals simp only [countType_append, endedBytes_append, hk, reduceCtorEq, if_true, if_false]
    all_goals omega

/-- The induction is on the messages logged so far. -/
theorem logAll_spec (startUs : ℕ) (ms : List (ℕ × Message))
    (hms : ∀ x ∈ ms, x.2.Plain ∧ x.2.text.length ≤ 1023) :
    (logAll startUs ms).startUs = startUs ∧
      (logAll startUs ms).events = ms.filterMap (fun x => x.2.event (elapsed startUs x.1)) ∧
      (logAll startUs ms).Agrees := by
  induction ms using List.reverseRecOn with
  | nil => exact ⟨rfl, rfl, ⟨rfl, rfl, rfl, rfl, rfl⟩⟩
  | append_singleton ms x ih =>
    obtain ⟨hstart, hevents, hagrees⟩ := ih fun y hy => hms y (List.mem_append_left _ hy)
    obtain ⟨hplain, hlen⟩ := hms x (by simp)
    have hstep : logAll startUs (ms ++ [x]) =
        (x.2.event (elapsed startUs x.1)).elim (logAll startUs ms)
          (record1 (logAll startUs ms)) := by
      rw [logAll_concat, logv_text _ x.1 hplain hlen, hstart]
    rw [hstep, List.filterMap_append]
    cases hevent : x.2.event (elapsed startUs x.1) with
    | none => simp [hevent, hstart, hevents, hagrees]
    | some e =>
      obtain ⟨he, hs, ha⟩ := record1_agrees hagrees e
      refine ⟨hs.trans hstart, he.trans ?_, ha⟩
      simp [hevent, hevents]

/-- **The event log is exact.** After any sequence of messages of the engine that fit the buffer,
    whatever their numbers and whatever else it prints in between, `events()` is the list of the
    begins, ends and moves that were reported, in order, with their levels and bytes and the seconds
    since the program started, and the counters are those of that list. -/
theorem logged_exact (startUs : ℕ) (ms : List (ℕ × Message))
    (hms : ∀ x ∈ ms, x.2.Plain ∧ x.2.text.length ≤ 1023) :
    (logAll startUs ms).events = ms.filterMap (fun x => x.2.event (elapsed startUs x.1)) ∧
      (logAll startUs ms).Agrees :=
  (logAll_spec startUs ms hms).2

/-- A flush in the middle of a compaction, and a message that is not looked for. -/
def flushInside : List (ℕ × Message) :=
  [(1000000, .compacting 4 0 7 1), (2000000, .flushStarted 12),
   (2500000, .other "Generated table #13@1: 40 keys, 4096 bytes".toList),
   (3000000, .flushed 12 4096 "OK".toList), (4000000, .compacted 4 0 7 1 8192),
   (5000000, .moved 9 2 2048 "OK: files[ 0 1 2 ]".toList)]

/-- A flush inside a compaction, and a move after it. -/
theorem logged_exact_flushInside :
    (logAll 0 flushInside).events.map (fun e => (e.type, e.level, e.bytes)) =
        [(.compactionBegin, 0, 0), (.flushBegin, 0, 0), (.flushEnd, 0, 4096),
          (.compactionEnd, 0, 8192), (.trivialMove, 2, 2048)] ∧
      (logAll 0 flushInside).compactionsRunning = 0 := by
  obtain ⟨hevents, hagrees⟩ := logged_exact 0 flushInside (by decide +kernel)
  rw [hagrees.running, hevents]
  exact ⟨by decide +kernel, by decide +kernel⟩

end Leaper.Bench
