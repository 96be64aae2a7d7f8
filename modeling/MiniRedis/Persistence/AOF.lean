import MiniRedis.Persistence.Rewrite
import MiniRedis.Support.Buffered
import MiniRedis.Support.Files

/-!
# Persistence — AOF

The append-only file as a handle on a disk (`Open`, `Append` and `Rewrite` of
`internal/persistence`), every file operation of which may fail.  What the operations of a call
come to is an argument of the call: of the writes, how many bytes the file takes before it refuses
one (`room`); of the others, whether they succeed.  A `bufio.Writer` makes no write after one was
refused, so the room says all there is to say about the writes of a call.

* `Intact`: the log is open on the file at its path, which holds whole frames, and, once a write
  was refused, a torn one behind them.
* `Intact.append`, `Intact.appends`: appending keeps it.
-/

namespace MiniRedis.Persistence

open Protocol Store Files Buffered Cmd

/-- `FsyncMode` -/
inductive FsyncMode where
  | everySec | always | no
deriving DecidableEq

/-- The size of a `bufio.Writer`'s buffer. -/
def bufSize : Nat := 4096

mutual

/-- The writes `Encode` makes, one after the other. -/
def pieces : Value → List Bytes
  | .simpleString s => [43 :: (s ++ crlf)]
  | .error s => [45 :: (s ++ crlf)]
  | .integer n => [58 :: (formatInt n ++ crlf)]
  | .bulkString none => [36 :: (txt "-1" ++ crlf)]
  | .bulkString (some b) => [36 :: (formatNat b.length ++ crlf), b, crlf]
  | .nullArray => [42 :: (txt "-1" ++ crlf)]
  | .array vs => (42 :: (formatNat vs.length ++ crlf)) :: piecesItems vs

/-- The pieces of the elements of an array. -/
def piecesItems : List Value → List Bytes
  | [] => []
  | v :: vs => pieces v ++ piecesItems vs

end

/-- `AOF`: the open file, the buffered writer on it, and the mode. -/
structure AOF where
  f : Nat
  w : Writer UInt8
  mode : FsyncMode

/-- A call of `Append`: the room the file has during the call, and whether its `fsync`, if there is
one, succeeds. -/
structure Attempt where
  cmd : Value
  room : Option Nat
  syncs : Bool

/-- The file has room for the frame. -/
def Attempt.Fits (t : Attempt) : Prop := Buffered.Fits t.room (encode t.cmd).length

instance (t : Attempt) : Decidable t.Fits := inferInstanceAs (Decidable (Buffered.Fits _ _))

/-- What the file operations of a call of `Rewrite` come to; `room` is that of the temporary file,
`oldRoom` that of the old one for the flush whose error is ignored. -/
structure Faults where
  openTmp : Bool
  room : Option Nat
  sync : Bool
  close : Bool
  rename : Bool
  remove : Bool
  reopen : Bool
  oldRoom : Option Nat

/-- The path of the temporary file. -/
def tmp (path : Bytes) : Bytes := path ++ txt ".tmp"

/-- A rewrite does not write into the log it replaces. -/
theorem tmp_ne (path : Bytes) : path ≠ tmp path := by
  intro h
  have hlen := congrArg List.length h
  rw [tmp, List.length_append, show (txt ".tmp").length = 4 by decide] at hlen
  omega

namespace AOF

/-- `Open` -/
def «open» (path : Bytes) (mode : FsyncMode) (d : Disk Bytes UInt8) : AOF × Disk Bytes UInt8 :=
  (⟨(d.openAppend path).2, .new, mode⟩, (d.openAppend path).1)

/-- `Append`: whether it returns nil.  A failed `Encode` returns at once, and every later write to
its writer would return the same error. -/
def append (t : Attempt) (s : AOF × Disk Bytes UInt8) : (AOF × Disk Bytes UInt8) × Bool :=
  let (a, d) := s
  let (w, sink) := sendAll bufSize (pieces t.cmd) (a.w, ⟨[], t.room⟩)
  (({ a with w }, d.write a.f sink.taken), !w.err && (a.mode != .always || t.syncs))

/-- The first part of `Rewrite`: the temporary file is opened, and the snapshot is written to it
and flushed. -/
def writeTmp (path : Bytes) (cmds : List Value) (room : Option Nat) (d : Disk Bytes UInt8) :
    Writer UInt8 × Disk Bytes UInt8 :=
  let (d, f) := d.openTrunc (tmp path)
  let (w, sink) := sendAll bufSize (cmds.flatMap pieces) (.new, ⟨[], room⟩)
  (w, d.write f sink.taken)

/-- `Rewrite`: whether it returns nil. -/
def rewrite (path : Bytes) (clock : Bytes → Time) (records : List SnapshotEntry) (F : Faults)
    (s : AOF × Disk Bytes UInt8) : (AOF × Disk Bytes UInt8) × Bool :=
  let (a, d) := s
  if !F.openTmp then ((a, d), false)
  else
    let (w, d) := writeTmp path (snapshotCommands clock records) F.room d
    if w.err || !F.sync || !F.close || !F.rename then
      ((a, if F.remove then d.remove (tmp path) else d), false)
    else
      let d := d.rename (tmp path) path
      if !F.reopen then ((a, d), false)
      else
        let (d, nf) := d.openAppend path
        let (_, old) := flush (a.w, ⟨[], F.oldRoom⟩)
        (({ a with f := nf, w := .new }, d.write a.f old.taken), true)

/-- Calls of `Append`, one after the other. -/
def appends (ts : List Attempt) (s : AOF × Disk Bytes UInt8) : AOF × Disk Bytes UInt8 :=
  ts.foldl (fun s t => (append t s).1) s

/-- The commands whose `Append` returned nil. -/
def acknowledged : List Attempt → AOF × Disk Bytes UInt8 → List Value
  | [], _ => []
  | t :: ts, s =>
      (if (append t s).2 then [t.cmd] else []) ++ acknowledged ts (append t s).1

end AOF

/-- `Replay` of the file applies exactly these commands, in order, and returns no error. -/
def Yields (file : Option Bytes) (cmds : List Value) : Prop :=
  replay (fun s c => (s ++ [c], none)) file [] = (cmds, cmds.length, none)

instance (file : Option Bytes) (cmds : List Value) : Decidable (Yields file cmds) :=
  inferInstanceAs (Decidable (_ = _))

/-! ### Frames -/

mutual

/-- The writes of `Encode` make up the frame. -/
theorem flatten_pieces : ∀ v : Value, (pieces v).flatten = encode v
  | .simpleString _ | .error _ | .integer _ | .nullArray | .bulkString none => by
      simp [pieces, encode]
  | .bulkString (some b) => by simp [pieces, encode]
  | .array vs => by simp [pieces, encode, flatten_piecesItems vs]

theorem flatten_piecesItems : ∀ vs : List Value, (piecesItems vs).flatten = encodeItems vs
  | [] => rfl
  | v :: vs => by
      rw [piecesItems, List.flatten_append, flatten_pieces v, flatten_piecesItems vs, encodeItems]

end

/-- The pieces of the commands make up their frames. -/
theorem flatten_flatMap_pieces (cmds : List Value) :
    (cmds.flatMap pieces).flatten = cmds.flatMap encode := by
  induction cmds with
  | nil => rfl
  | cons c cmds ih =>
      rw [List.flatMap_cons, List.flatten_append, flatten_pieces, ih, List.flatMap_cons]

/-- Whole frames and what is left of another are replayed to the frames. -/
theorem yields_frames {cmds : List Value} (h : ∀ c ∈ cmds, c.WellFormed) {p : Bytes}
    (hp : codec.Tail p) : Yields (some (cmds.flatMap encode ++ p)) cmds := by
  have hfold : ∀ (cmds acc : List Value), cmds.foldl (fun s c => s ++ [c]) acc = acc ++ cmds := by
    intro cmds
    induction cmds with
    | nil => exact fun acc => (List.append_nil acc).symm
    | cons c cmds ih =>
        intro acc
        rw [List.foldl_cons, ih, List.append_assoc, List.singleton_append]
  rw [Yields, replay_frames (fun s c => s ++ [c]) [] h hp, hfold, List.nil_append]

theorem Yields.unique {file : Option Bytes} {cmds cmds' : List Value} (h : Yields file cmds)
    (h' : Yields file cmds') : cmds = cmds' :=
  congrArg Prod.fst (h.symm.trans h')

/-! ### Sessions -/

/-- A writer with an error writes nothing. -/
theorem append_of_err {s : AOF × Disk Bytes UInt8} {t : Attempt} (he : s.1.w.err = true) :
    AOF.append t s = (s, false) := by
  obtain ⟨a, d⟩ := s
  have hsend := sendAll_err bufSize (pieces t.cmd) he ⟨[], t.room⟩
  simp only [AOF.append, hsend, Disk.write_nil]
  rw [show a.w.err = true from he]
  rfl

/-- After an error of the file nothing is written or acknowledged. -/
theorem appends_of_err {s : AOF × Disk Bytes UInt8} (he : s.1.w.err = true) (ts : List Attempt) :
    AOF.appends ts s = s ∧ AOF.acknowledged ts s = [] := by
  induction ts with
  | nil => exact ⟨rfl, rfl⟩
  | cons t ts ih =>
      have ha : AOF.append t s = (s, false) := append_of_err he
      refine ⟨?_, ?_⟩
      · rw [AOF.appends, List.foldl_cons, ha]
        exact ih.1
      · rw [AOF.acknowledged, ha, ih.2]
        rfl

/-- The log is open on the file at its path, which holds the frames of `cmds`.  As long as no write
was refused there is nothing behind them and nothing in the buffer. -/
structure Intact (path : Bytes) (cmds : List Value) (s : AOF × Disk Bytes UInt8) : Prop where
  names : s.2.names path = some s.1.f
  wellFormed : ∀ c ∈ cmds, c.WellFormed
  sound : s.1.w.err = false → s.1.w = .new ∧ s.2.content path = some (cmds.flatMap encode)
  torn : s.1.w.err = true →
    ∃ p, codec.Tail p ∧ s.2.content path = some (cmds.flatMap encode ++ p)

/-- A frame that fits leaves a new writer as good as new, and is what it writes. -/
theorem append_new {a : AOF} (hw : a.w = .new) (d : Disk Bytes UInt8) {t : Attempt}
    (hfit : t.Fits) :
    (AOF.append t (a, d)).1 = (a, d.write a.f (encode t.cmd)) := by
  obtain ⟨hnew, ht⟩ := sendAll_ok bufSize (pieces t.cmd) (by rw [flatten_pieces]; exact hfit)
  rw [flatten_pieces] at ht
  simp only [AOF.append, hw, hnew, ht]
  rw [← hw]

namespace Intact

variable {path : Bytes} {cmds : List Value} {s : AOF × Disk Bytes UInt8}

/-- The log's path holds the commands and what is left of another. -/
theorem content (h : Intact path cmds s) :
    ∃ p, codec.Tail p ∧ s.2.content path = some (cmds.flatMap encode ++ p) := by
  rcases he : s.1.w.err with _ | _
  · exact ⟨[], .inl rfl, by rw [(h.sound he).2, List.append_nil]⟩
  · exact h.torn he

/-- Replaying the file yields the session's commands. -/
theorem yields (h : Intact path cmds s) : Yields (s.2.content path) cmds := by
  obtain ⟨p, hp, hc⟩ := h.content
  rw [hc]
  exact yields_frames h.wellFormed hp

/-- Opening a file of whole frames, or none. -/
theorem «open» {d : Disk Bytes UInt8} (mode : FsyncMode) (hwf : ∀ c ∈ cmds, c.WellFormed)
    (h : (d.content path).getD [] = cmds.flatMap encode) :
    Intact path cmds (AOF.open path mode d) := by
  refine ⟨Disk.names_openAppend, hwf, fun _ => ⟨rfl, ?_⟩,
    fun h => absurd h (by simp [AOF.open, Writer.new])⟩
  rw [← h]
  exact Disk.content_openAppend

/-- A disk with the same log at the path is as good. -/
theorem of_same (h : Intact path cmds s) {d : Disk Bytes UInt8}
    (hnames : d.names path = s.2.names path) (hcontent : d.content path = s.2.content path) :
    Intact path cmds (s.1, d) := by
  refine ⟨hnames.trans h.names, h.wellFormed, fun he => ?_, fun he => ?_⟩
  · rw [hcontent]
    exact h.sound he
  · rw [hcontent]
    exact h.torn he

/-- A frame the file has room for is appended whole. -/
theorem append_ok (h : Intact path cmds s) {t : Attempt} (hwf : t.cmd.WellFormed)
    (he : s.1.w.err = false) (hfit : t.Fits) :
    Intact path (cmds ++ [t.cmd]) (AOF.append t s).1 ∧ (AOF.append t s).1.1.w.err = false := by
  obtain ⟨a, d⟩ := s
  obtain ⟨hw, hc⟩ := h.sound he
  dsimp only at hw hc
  rw [append_new hw d hfit]
  refine ⟨⟨h.names, ?_, fun _ => ⟨hw, ?_⟩, fun h' => absurd (he.symm.trans h') (by decide)⟩, he⟩
  · intro c hmem
    rcases List.mem_append.1 hmem with hmem | hmem
    · exact h.wellFormed c hmem
    · rwa [List.mem_singleton.1 hmem]
  · rw [List.flatMap_append, List.flatMap_singleton]
    exact Disk.content_write h.names hc

/-- A frame the file has no room for is torn, and the writer keeps the error. -/
theorem append_refused (h : Intact path cmds s) {t : Attempt} (hwf : t.cmd.WellFormed)
    (he : s.1.w.err = false) (hfit : ¬ t.Fits) :
    Intact path cmds (AOF.append t s).1 ∧ (AOF.append t s).1.1.w.err = true := by
  obtain ⟨a, d⟩ := s
  obtain ⟨hw, hc⟩ := h.sound he
  dsimp only at hw hc
  obtain ⟨herr, r, hlt, ht⟩ :=
    sendAll_refused bufSize (pieces t.cmd) (by rw [flatten_pieces]; exact hfit)
  rw [flatten_pieces] at ht hlt
  have hd : (AOF.append t (a, d)).1.2.content path =
      some (cmds.flatMap encode ++ (encode t.cmd).take r) := by
    simp only [AOF.append, hw, ht]
    exact Disk.content_write h.names hc
  have hwr : (AOF.append t (a, d)).1.1.w.err = true := by
    simp only [AOF.append, hw, herr]
  have htorn : Frames.Torn ((encode t.cmd).take r) (encode t.cmd) := by
    refine ⟨List.take_prefix r _, fun heq => ?_⟩
    have hlen := congrArg List.length heq
    rw [List.length_take] at hlen
    omega
  exact ⟨⟨h.names, h.wellFormed, fun h' => absurd (h'.symm.trans hwr) (by decide),
    fun _ => ⟨_, .inr ⟨t.cmd, hwf, htorn⟩, hd⟩⟩, hwr⟩

end Intact

/-! ### Runs of appends -/

namespace AOF

variable {s : AOF × Disk Bytes UInt8} {t : Attempt} {ts us : List Attempt}

theorem mode_append : (append t s).1.1.mode = s.1.mode := rfl

/-- `Append` returns nil if the writer has no error and the `fsync`, if there is one, succeeds. -/
theorem append_nil : (append t s).2 = true ↔
    (append t s).1.1.w.err = false ∧ (s.1.mode = .always → t.syncs = true) := by
  simp only [append, Bool.and_eq_true, Bool.not_eq_true', Bool.or_eq_true, bne_iff_ne, ne_eq,
    imp_iff_not_or]

theorem mode_appends : (appends ts s).1.mode = s.1.mode := by
  induction ts generalizing s with
  | nil => rfl
  | cons t ts ih => exact ih.trans mode_append

theorem appends_append : appends (ts ++ us) s = appends us (appends ts s) := List.foldl_append

/-- The commands whose frames reach the file whole: all up to the first that does not fit. -/
def landed (ts : List Attempt) : List Value :=
  (ts.takeWhile fun t => decide t.Fits).map Attempt.cmd

/-- An append that fits lands, -/
theorem landed_cons (h : t.Fits) (ts : List Attempt) : landed (t :: ts) = t.cmd :: landed ts := by
  simp [landed, h]

/-- and one that does not is the last. -/
theorem landed_cons_of_not (h : ¬ t.Fits) (ts : List Attempt) : landed (t :: ts) = [] := by
  simp [landed, h]

end AOF

open AOF

namespace Intact

variable {path : Bytes} {cmds : List Value} {s : AOF × Disk Bytes UInt8} {ts : List Attempt}

/-- **A run of appends** leaves the frames of the commands that landed, among which are all that
were acknowledged. -/
theorem appends (h : Intact path cmds s) (he : s.1.w.err = false)
    (hwf : ∀ t ∈ ts, t.cmd.WellFormed) :
    Intact path (cmds ++ landed ts) (AOF.appends ts s) ∧
      ((AOF.appends ts s).1.w.err = false ↔ ∀ t ∈ ts, t.Fits) ∧
      (acknowledged ts s).Sublist (landed ts) ∧
      (s.1.mode ≠ .always → acknowledged ts s = landed ts) := by
  induction ts generalizing s cmds with
  | nil =>
      refine ⟨?_, ?_, .slnil, fun _ => rfl⟩
      · rw [landed, List.takeWhile_nil, List.map_nil, List.append_nil]
        exact h
      · exact ⟨fun _ => List.forall_mem_nil _, fun _ => he⟩
  | cons t ts ih =>
      have ht := hwf t List.mem_cons_self
      by_cases hfit : t.Fits
      · obtain ⟨hs, hok⟩ := h.append_ok ht he hfit
        obtain ⟨hrun, herr, hsub, heq⟩ := ih hs hok fun u hu => hwf u (List.mem_cons_of_mem _ hu)
        have hland := landed_cons hfit ts
        refine ⟨?_, ?_, ?_, fun hmode => ?_⟩
        · rwa [hland, ← List.singleton_append, ← List.append_assoc]
        · exact herr.trans ⟨fun hall => List.forall_mem_cons.2 ⟨hfit, hall⟩,
            fun hall => (List.forall_mem_cons.1 hall).2⟩
        · rw [hland, acknowledged]
          cases (AOF.append t s).2 with
          | true => exact hsub.cons_cons t.cmd
          | false => exact hsub.cons t.cmd
        · have hn : (AOF.append t s).2 = true := append_nil.2 ⟨hok, fun hm => absurd hm hmode⟩
          rw [hland, acknowledged, hn, heq hmode]
          rfl
      · -- nothing lands from here on
        obtain ⟨hs, herr⟩ := h.append_refused ht he hfit
        obtain ⟨hrun, hack⟩ := appends_of_err herr ts
        have hstop : AOF.appends (t :: ts) s = (AOF.append t s).1 := hrun
        have hn : (AOF.append t s).2 = false := by
          rw [← Bool.not_eq_true, append_nil, herr]
          exact fun hand => absurd hand.1.symm Bool.false_ne_true
        have hnone : acknowledged (t :: ts) s = [] := by
          rw [acknowledged, hn, hack]
          rfl
        rw [landed_cons_of_not hfit, List.append_nil, hnone, hstop]
        refine ⟨hs, ?_, .slnil, fun _ => rfl⟩
        exact ⟨fun hne => absurd (hne.symm.trans herr) (by decide),
          fun hall => absurd (hall t List.mem_cons_self) hfit⟩

end Intact

end MiniRedis.Persistence
