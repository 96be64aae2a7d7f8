import MiniRedis.Persistence.AOF

/-!
# Persistence — the byte counter of the log

`countingWriter` adds what it writes to the counter `aof_bytes_written`.  `Open` puts one under the
buffered writer of the log.  `Rewrite` puts the new file there, without one.

* `Metered.runs_bytes`: the counter grows by the frames appended before the first `Rewrite`.
* `bytes_counted_iff`: **the counter has grown by all that was appended just when nothing was
  appended after a `Rewrite`.**
* `append_uncounted`: a command appended after a `Rewrite`.
-/

namespace MiniRedis.Persistence

open Protocol Store Files Buffered Cmd

/-- `AddAOFBytes`, with metrics on or off. -/
def addAOFBytes (enabled : Bool) (n bytes : Nat) : Nat := if enabled then bytes + n else bytes

/-- The log on its disk, whether its buffered writer is on a `countingWriter`, and the counter
`aof_bytes_written`. -/
structure Metered where
  log : AOF
  disk : Disk Bytes UInt8
  counting : Bool
  bytes : Nat

/-- A call on an open log that may move the counter. -/
inductive LogCall where
  | append (t : Attempt)
  | rewrite (path : Bytes) (clock : Bytes → Time) (records : List SnapshotEntry) (F : Faults)

namespace LogCall

/-- Whether the call is a `Rewrite`. -/
def isRewrite : LogCall → Bool
  | append _ => false
  | rewrite _ _ _ _ => true

/-- The length of the frame that is appended. -/
def length : LogCall → Nat
  | append t => (encode t.cmd).length
  | rewrite _ _ _ _ => 0

/-- The length of all frames that are appended. -/
def total (cs : List LogCall) : Nat := (cs.map length).sum

/-- Nothing is appended after a `Rewrite`. -/
def AppendsFirst (cs : List LogCall) : Prop :=
  cs.Pairwise fun c c' => c.isRewrite = true → c'.isRewrite = true

end LogCall

namespace Metered

/-- `Open`, the counter having some value. -/
def «open» (path : Bytes) (mode : FsyncMode) (d : Disk Bytes UInt8) (bytes : Nat) : Metered :=
  let (log, disk) := AOF.open path mode d
  ⟨log, disk, true, bytes⟩

/-- The counter after the buffered writer has handed on so many bytes. -/
def written (enabled : Bool) (n : Nat) (s : Metered) : Nat :=
  if s.counting then addAOFBytes enabled n s.bytes else s.bytes

/-- `Append`: whether it returns nil. -/
def append (enabled : Bool) (t : Attempt) (s : Metered) : Metered × Bool :=
  let (_, sink) := sendAll bufSize (pieces t.cmd) (s.log.w, ⟨[], t.room⟩)
  let ((log, disk), ok) := AOF.append t (s.log, s.disk)
  ({ s with log, disk, bytes := s.written enabled sink.taken.length }, ok)

/-- `Rewrite`: whether it returns nil.  Past the reopening it flushes the old writer and puts a
buffered writer on the new file itself. -/
def rewrite (enabled : Bool) (path : Bytes) (clock : Bytes → Time) (records : List SnapshotEntry)
    (F : Faults) (s : Metered) : Metered × Bool :=
  let ((log, disk), ok) := AOF.rewrite path clock records F (s.log, s.disk)
  if ok then
    let (_, old) := flush (s.log.w, ⟨[], F.oldRoom⟩)
    (⟨log, disk, false, s.written enabled old.taken.length⟩, true)
  else ({ s with log, disk }, false)

/-- One call on a log with metrics or without. -/
def call (enabled : Bool) : LogCall → Metered → Metered × Bool
  | .append t, s => s.append enabled t
  | .rewrite path clock records F, s => s.rewrite enabled path clock records F

/-- Calls one after the other: the log they leave, and whether all returned nil. -/
def runs (enabled : Bool) : List LogCall → Metered → Metered × Bool
  | [], s => (s, true)
  | c :: cs, s =>
      let (s, ok) := s.call enabled c
      let (s, oks) := runs enabled cs s
      (s, ok && oks)

/-! ### One call -/

variable {s : Metered}

/-- An `Append` that succeeds hands the whole frame on. -/
theorem append_bytes (hw : s.log.w = .new) {t : Attempt} (h : (s.append true t).2 = true) :
    (s.append true t).1.log.w = .new ∧ (s.append true t).1.counting = s.counting ∧
      (s.append true t).1.bytes =
        s.bytes + if s.counting then (encode t.cmd).length else 0 := by
  rcases sendAll_cases bufSize t.room (pieces t.cmd) with ⟨hnew, htaken, -⟩ | ⟨herr, -⟩
  · rw [flatten_pieces] at htaken
    simp only [append, AOF.append, written, addAOFBytes, hw, hnew, htaken, if_true]
    refine ⟨trivial, trivial, ?_⟩
    split <;> rfl
  · simp [append, AOF.append, hw, herr] at h

/-- A `Rewrite` that succeeds leaves a new writer. -/
theorem rewrite_new {path : Bytes} {clock : Bytes → Time} {records : List SnapshotEntry}
    {F : Faults} {c : AOF × Disk Bytes UInt8} (h : (AOF.rewrite path clock records F c).2 = true) :
    (AOF.rewrite path clock records F c).1.1.w = .new := by
  simp only [AOF.rewrite] at h ⊢
  split_ifs at h ⊢
  rfl

/-- A `Rewrite` that succeeds finds nothing in the buffer, and the writer is not counted from then
on. -/
theorem rewrite_bytes (hw : s.log.w = .new) {path : Bytes} {clock : Bytes → Time}
    {records : List SnapshotEntry} {F : Faults}
    (h : (s.rewrite true path clock records F).2 = true) :
    (s.rewrite true path clock records F).1.log.w = .new ∧
      (s.rewrite true path clock records F).1.counting = false ∧
      (s.rewrite true path clock records F).1.bytes = s.bytes := by
  unfold rewrite at h ⊢
  dsimp only at h ⊢
  split at h
  case isFalse => cases h
  case isTrue hok =>
    rw [if_pos hok, hw]
    refine ⟨rewrite_new hok, rfl, ?_⟩
    simp [written, addAOFBytes, flush, Writer.new]

/-! ### A run -/

/-- **The counter grows by the frames appended before the first `Rewrite`.** -/
theorem runs_bytes {cs : List LogCall} (hw : s.log.w = .new) (h : (s.runs true cs).2 = true) :
    (s.runs true cs).1.bytes =
      s.bytes + if s.counting then LogCall.total (cs.takeWhile fun c => !c.isRewrite) else 0 := by
  induction cs generalizing s with
  | nil => simp [runs, LogCall.total]
  | cons c cs ih =>
      obtain ⟨hone, hrest⟩ := Bool.and_eq_true_iff.1 h
      cases c with
      | append t =>
          obtain ⟨hw', hcounting, hbytes⟩ := append_bytes hw hone
          refine (ih hw' hrest).trans ?_
          rw [hbytes, hcounting]
          split
          · simp [LogCall.total, LogCall.isRewrite, LogCall.length, Nat.add_assoc]
          · rfl
      | rewrite path clock records F =>
          obtain ⟨hw', hcounting, hbytes⟩ := rewrite_bytes hw hone
          refine (ih hw' hrest).trans ?_
          rw [hbytes, hcounting]
          simp [LogCall.total, LogCall.isRewrite]

end Metered

namespace LogCall

/-- Nothing is counted when nothing is appended. -/
theorem total_eq_zero_iff {cs : List LogCall} :
    total cs = 0 ↔ ∀ c ∈ cs, c.isRewrite = true := by
  have one : ∀ c : LogCall, c.length = 0 ↔ c.isRewrite = true := by
    intro c
    cases c with
    | append t => simp [length, isRewrite, encode_ne_nil]
    | rewrite path clock records F => simp [length, isRewrite]
  rw [total, List.sum_eq_zero_iff, List.forall_mem_map]
  exact forall₂_congr fun c _ => one c

/-- The calls before the first `Rewrite` append everything just when nothing is appended after
it. -/
theorem total_takeWhile_iff {cs : List LogCall} :
    total (cs.takeWhile fun c => !c.isRewrite) = total cs ↔ AppendsFirst cs := by
  induction cs with
  | nil => exact ⟨fun _ => .nil, fun _ => rfl⟩
  | cons c cs ih =>
      cases c with
      | append t =>
          have hsplit : AppendsFirst (append t :: cs) ↔ AppendsFirst cs :=
            List.pairwise_cons.trans (and_iff_right fun _ _ h => absurd h Bool.false_ne_true)
          rw [hsplit, ← ih, List.takeWhile_cons_of_pos rfl, total, total, List.map_cons,
            List.map_cons, List.sum_cons, List.sum_cons]
          exact Nat.add_left_cancel_iff
      | rewrite path clock records F =>
          have hsplit : AppendsFirst (rewrite path clock records F :: cs) ↔
              ∀ c ∈ cs, c.isRewrite = true := by
            refine List.pairwise_cons.trans ⟨fun h c hc => h.1 c hc rfl, fun h => ?_⟩
            exact ⟨fun c hc _ => h c hc, List.pairwise_of_forall_mem_list fun _ _ c hc _ => h c hc⟩
          rw [hsplit, ← total_eq_zero_iff]
          simp [total, isRewrite, length, eq_comm]

end LogCall

/-! ### The result -/

/-- **The byte counter of the log.**  After `Open`, with metrics on, let any calls of `Append` and
`Rewrite` all return nil.  The counter has grown by the length of all frames appended just when
nothing was appended after a `Rewrite`; in any case it has grown by those before the first one. -/
theorem bytes_counted_iff (path : Bytes) (mode : FsyncMode) (d : Disk Bytes UInt8) (bytes : Nat)
    {cs : List LogCall} (h : ((Metered.open path mode d bytes).runs true cs).2 = true) :
    (((Metered.open path mode d bytes).runs true cs).1.bytes = bytes + LogCall.total cs ↔
      LogCall.AppendsFirst cs) ∧
    ((Metered.open path mode d bytes).runs true cs).1.bytes =
      bytes + LogCall.total (cs.takeWhile fun c => !c.isRewrite) := by
  have hgrown : ((Metered.open path mode d bytes).runs true cs).1.bytes =
      bytes + LogCall.total (cs.takeWhile fun c => !c.isRewrite) :=
    Metered.runs_bytes rfl h
  refine ⟨?_, hgrown⟩
  rw [hgrown, Nat.add_left_cancel_iff]
  exact LogCall.total_takeWhile_iff

/-- `SET k v`, with room in the file. -/
def setKV : LogCall := .append ⟨bulkCmd [txt "SET", txt "k", txt "v"], none, true⟩

/-- A `Rewrite` of an empty store, in which nothing fails. -/
def compact : LogCall :=
  .rewrite (txt "aof") (fun _ => 0) [] ⟨true, none, true, true, true, true, true, none⟩

/-- Two commands, and a `Rewrite` after them. -/
theorem bytes_counted_iff_compactLast :
    ((Metered.open (txt "aof") .always Disk.empty 5).runs true [setKV, setKV, compact]).1.bytes =
      5 + LogCall.total [setKV, setKV, compact] := by
  refine (bytes_counted_iff (txt "aof") .always Disk.empty 5 (by decide +kernel)).1.2 ?_
  simp [LogCall.AppendsFirst, setKV, compact, LogCall.isRewrite]

/-- The command after the `Rewrite` is in the log, and not in the counter. -/
theorem append_uncounted :
    let s := (Metered.open (txt "aof") .everySec Disk.empty 0).runs true [compact, setKV]
    s.2 = true ∧
      s.1.disk.content (txt "aof") = some (encode (bulkCmd [txt "SET", txt "k", txt "v"])) ∧
      s.1.bytes = 0 ∧ LogCall.total [compact, setKV] = 27 := by
  decide +kernel

end MiniRedis.Persistence
