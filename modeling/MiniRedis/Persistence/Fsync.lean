import MiniRedis.Persistence.Swapping
import MiniRedis.Support.Durable

/-!
# Persistence — Fsync

The append-only file in its three modes, on a disk that can lose what was not synced: `Open`,
`Append`, the tick of `syncEverySec`, `Flush`, `Rewrite` and `Close`.  A power loss takes any part
of what was written to a file since its last sync, down to a byte, and any of the changes of the
directory that the operating system has not written out; nothing in this package syncs the
directory.  In the middle of a call it leaves what it may leave after a call that fails there.

A log goes through *epochs*: it starts as some commands, and attempts to append follow, until a
`Rewrite` starts it anew as a snapshot.  A power loss may take the log back to an earlier epoch,
the directory not having been written out, and it may take the last of an epoch's commands.

* `Traced.Sound.call_after`: what one call does to what a power loss may leave.
* `synced_survives`: **what was synced survives**: from a sync of a log the directory names for
  certain, a power loss at any later time leaves all of that log, or a later snapshot.
* `close_survives`: the same of `Close`, in every mode.
-/

namespace MiniRedis.Persistence

open Protocol Store Files Buffered Cmd

/-- The log on its disk, what a power loss may leave of the disk, and the `baseSize` that growth is
measured from. -/
structure Stored where
  log : AOF
  disk : Disk Bytes UInt8
  platter : Platter Bytes UInt8
  baseSize : Nat

/-- The error `Close` returns: the first of the three it finds. -/
inductive CloseError where
  | flush | sync | close
deriving DecidableEq

namespace Stored

/-- `Open`, on a disk where everything is safe; `stat` is whether `Stat` succeeds. -/
def «open» (path : Bytes) (mode : FsyncMode) (stat : Bool) (d : Disk Bytes UInt8) : Stored :=
  let (log, disk) := AOF.open path mode d
  ⟨log, disk, (Platter.of d).follow d disk, if stat then (disk.data log.f).length else 0⟩

/-- `Sync` of the log's file. -/
def fsync (syncs : Bool) (s : Stored) : Stored :=
  if syncs then { s with platter := s.platter.syncFile s.disk s.log.f } else s

/-- `Append`: whether it returns nil.  The sync is not reached if the writer has an error. -/
def append (t : Attempt) (s : Stored) : Stored × Bool :=
  let ((log, disk), ok) := AOF.append t (s.log, s.disk)
  let s := { s with log, disk, platter := s.platter.follow s.disk disk }
  (if log.w.err || log.mode != .always then s else s.fsync t.syncs, ok)

/-- A tick of `syncEverySec`, which runs in one mode only. -/
def tick (syncs : Bool) (s : Stored) : Stored :=
  if s.log.mode = .everySec then s.fsync syncs else s

/-- `Flush`: whether it returns nil. -/
def flush (room : Option Nat) (s : Stored) : Stored × Bool :=
  let (w, sink) := Buffered.flush (s.log.w, ⟨[], room⟩)
  let disk := s.disk.write s.log.f sink.taken
  ({ s with log := { s.log with w }, disk, platter := s.platter.follow s.disk disk }, !w.err)

/-- The file `Rewrite` syncs: the temporary one, when the snapshot was written to it. -/
def syncedTmp (path : Bytes) (clock : Bytes → Time) (records : List SnapshotEntry) (F : Faults)
    (d : Disk Bytes UInt8) : Option Nat :=
  let (w, d) := AOF.writeTmp path (snapshotCommands clock records) F.room d
  if F.openTmp && !w.err && F.sync then d.names (tmp path) else none

/-- `Rewrite`: whether it returns nil.  The last `Stat` may fail, and then `baseSize` stays. -/
def rewrite (path : Bytes) (clock : Bytes → Time) (records : List SnapshotEntry) (F : Faults)
    (stat : Bool) (s : Stored) : Stored × Bool :=
  let ((log, disk), ok) := AOF.rewrite path clock records F (s.log, s.disk)
  let followed := s.platter.follow s.disk disk
  let platter :=
    match syncedTmp path clock records F s.disk with
    | some i => followed.syncFile disk i
    | none => followed
  let baseSize := if ok && stat then (disk.data log.f).length else s.baseSize
  (⟨log, disk, platter, baseSize⟩, ok)

/-- `Close`: the error it returns.  It flushes, syncs and closes whatever fails before. -/
def close (room : Option Nat) (syncs closes : Bool) (s : Stored) : Stored × Option CloseError :=
  let (s, flushed) := s.flush room
  (s.fsync syncs,
    if !flushed then some .flush
    else if !syncs then some .sync
    else if !closes then some .close
    else none)

end Stored

/-- A call on the open log, a tick, or the operating system writing the directory out. -/
inductive FileCall where
  | append (t : Attempt)
  | tick (syncs : Bool)
  | flush (room : Option Nat)
  | rewrite (clock : Bytes → Time) (records : List SnapshotEntry) (F : Faults) (stat : Bool)
  | syncDir

/-- What it comes to, and whether it returns nil. -/
def Stored.call (path : Bytes) : FileCall → Stored → Stored × Bool
  | .append t, s => s.append t
  | .tick syncs, s => (s.tick syncs, syncs)
  | .flush room, s => s.flush room
  | .rewrite clock records F stat, s => s.rewrite path clock records F stat
  | .syncDir, s => ({ s with platter := s.platter.syncDir s.disk }, true)

/-! ### Epochs -/

/-- What a log starts as, the commands that were to be appended since, and those of them whose
`Append` returned nil. -/
structure Epoch where
  base : List Value
  later : List Value
  acked : List Value

/-- A log, its epoch, and the earlier ones. -/
structure Traced where
  stored : Stored
  cur : Epoch
  past : List Epoch

namespace Traced

/-- The epochs from the last to the first. -/
def epochs (x : Traced) : List Epoch := x.cur :: x.past

/-- A log that starts as `base`. -/
def since (base : List Value) (s : Stored) : Traced := ⟨s, ⟨base, [], []⟩, []⟩

/-- One call, with what it is to append put down in the epoch it falls into. -/
def call (path : Bytes) (c : FileCall) (x : Traced) : Traced :=
  let (s, ok) := x.stored.call path c
  match c with
  | .append t =>
      { x with
        stored := s
        cur :=
          { x.cur with
            later := x.cur.later ++ [t.cmd]
            acked := if ok then x.cur.acked ++ [t.cmd] else x.cur.acked } }
  | .rewrite clock records _ _ =>
      if ok then ⟨s, ⟨snapshotCommands clock records, [], []⟩, x.epochs⟩ else { x with stored := s }
  | _ => { x with stored := s }

/-- The epochs are put down beside the log and do not touch it. -/
theorem call_stored {path : Bytes} {c : FileCall} {x : Traced} :
    (x.call path c).stored = (x.stored.call path c).1 := by
  cases c with
  | append | tick | flush | syncDir => rfl
  | rewrite =>
      unfold call
      dsimp only
      split
      · rfl
      · rfl

/-- Calls one after the other. -/
def calls (path : Bytes) (cs : List FileCall) (x : Traced) : Traced :=
  cs.foldl (fun x c => x.call path c) x

end Traced

/-- The commands of the call can be encoded, and `Rewrite` can reopen the file that it renamed. -/
def FileCall.Good : FileCall → Prop
  | .append t => t.cmd.WellFormed
  | .rewrite clock records F _ =>
      (∀ c ∈ snapshotCommands clock records, c.WellFormed) ∧ F.reopen = true
  | _ => True

/-! ### The calls on an intact log -/

/-- Between two calls there is nothing in the buffer that could be written. -/
def AOF.Idle (a : AOF) : Prop := a.w.err = true ∨ a.w = .new

/-- There is nothing to flush between two calls, -/
theorem AOF.Idle.flush {a : AOF} (h : a.Idle) (room : Option Nat) :
    Buffered.flush (a.w, ⟨[], room⟩) = (a.w, ⟨[], room⟩) := by
  rcases h with he | hw
  · simp only [Buffered.flush, he, if_true]
  · rw [hw]
    rfl

/-- so `Flush` leaves the file as it is. -/
theorem AOF.Idle.flush_stored {s : Stored} (h : s.log.Idle) (room : Option Nat) :
    (s.flush room).1 = { s with platter := s.platter.follow s.disk s.disk } := by
  simp only [Stored.flush, h.flush, Disk.write_nil]

/-- The writer of an intact log is empty, or has failed. -/
theorem Intact.idle {path : Bytes} {cmds : List Value} {a : AOF} {d : Disk Bytes UInt8}
    (h : Intact path cmds (a, d)) : a.Idle := by
  rcases he : a.w.err with _ | _
  · exact .inr (h.sound he).1
  · exact .inl he

/-- **One `Append`**: the frame is appended whole and there is no error, or nothing is and there
is one. -/
theorem Intact.append {path : Bytes} {cmds : List Value} {s : AOF × Disk Bytes UInt8}
    (h : Intact path cmds s) {t : Attempt} (hwf : t.cmd.WellFormed) :
    s.1.w.err = false ∧ Intact path (cmds ++ [t.cmd]) (AOF.append t s).1 ∨
      Intact path cmds (AOF.append t s).1 ∧ (AOF.append t s).1.1.w.err = true ∧
        (AOF.append t s).2 = false := by
  rcases he : s.1.w.err with _ | _
  · by_cases hfit : t.Fits
    · exact .inl ⟨rfl, (h.append_ok hwf he hfit).1⟩
    · obtain ⟨hs, herr⟩ := h.append_refused hwf he hfit
      refine .inr ⟨hs, herr, ?_⟩
      rw [← Bool.not_eq_true, AOF.append_nil, herr]
      exact fun hand => absurd hand.1.symm Bool.false_ne_true
  · rw [append_of_err he]
    exact .inr ⟨h, he, rfl⟩

theorem data_append {t : Attempt} {s : AOF × Disk Bytes UInt8} {i : Nat} (hi : i ≠ s.1.f) :
    (AOF.append t s).1.2.data i = s.2.data i := Function.update_of_ne hi _ _

/-- The temporary file is written beside the log. -/
theorem aside_writeTmp (path : Bytes) (cmds : List Value) (room : Option Nat)
    (d : Disk Bytes UInt8) : d.Aside (tmp path) (AOF.writeTmp path cmds room d).2 :=
  (Disk.Aside.openTrunc (tmp path) d).trans (.write Disk.names_openTrunc _)

section Rewrite

variable {path : Bytes} {a : AOF} {d : Disk Bytes UInt8}
  {clock : Bytes → Time} {records : List SnapshotEntry} {F : Faults}

/-- A `Rewrite` that can reopen the file returns nil just when it gets to the rename. -/
theorem rewrite_returns (hr : F.reopen = true) :
    (AOF.rewrite path clock records F (a, d)).2 = true ↔
      F.Swaps (snapshotCommands clock records) := by
  have herr : (AOF.writeTmp path (snapshotCommands clock records) F.room d).1.err = false ↔
      Buffered.Fits F.room ((snapshotCommands clock records).flatMap encode).length := by
    refine ⟨fun he => ?_, fun hfit => congrArg Writer.err (writeTmp_ok hfit).1⟩
    by_contra hfit
    exact absurd (he.symm.trans (writeTmp_refused hfit)) Bool.false_ne_true
  unfold AOF.rewrite
  constructor
  · intro h
    dsimp only at h
    split_ifs at h with ho hgo
    simp only [Bool.or_eq_true, Bool.not_eq_true', not_or, Bool.not_eq_false,
      Bool.not_eq_true] at ho hgo
    exact ⟨ho, herr.1 hgo.1.1.1, hgo.1.1.2, hgo.1.2, hgo.2⟩
  · intro hF
    simp only [hF.openTmp, herr.2 hF.fits, hF.sync, hF.close, hF.rename, hr, Bool.not_true,
      Bool.or_self, Bool.false_eq_true, if_false]

/-- Once renamed, the temporary file is the one at the path. -/
theorem names_swapped_path {snap : List Value} {room : Option Nat} :
    (swapped path snap room d).names path = some (d.openTrunc (tmp path)).2 :=
  Disk.names_rename.trans Disk.names_openTrunc

/-- The work of a `Rewrite` is on the temporary file. -/
theorem AOF.Idle.aside_rewrite (h : a.Idle) :
    d.Aside (tmp path) (AOF.rewrite path clock records F (a, d)).1.2 := by
  have htmp := aside_writeTmp path (snapshotCommands clock records) F.room d
  have hrename := htmp.trans (.rename (tmp_ne path).symm _)
  have hnames : (swapped path (snapshotCommands clock records) F.room d).names path = _ :=
    names_swapped_path
  rw [swapped] at hnames
  unfold AOF.rewrite
  dsimp only
  split_ifs
  · exact .refl _ _
  · exact htmp.trans (.remove _ _)
  · exact htmp
  · exact hrename
  · simp only [h.flush, Disk.write_nil, Disk.openAppend_of_names hnames]
    exact hrename

/-- The file that gets the log's name is the one that was synced. -/
theorem syncedTmp_eq (hF : F.Swaps (snapshotCommands clock records)) (hr : F.reopen = true) :
    Stored.syncedTmp path clock records F d =
      some (AOF.rewrite path clock records F (a, d)).1.1.f := by
  have herr : (AOF.writeTmp path (snapshotCommands clock records) F.room d).1.err = false :=
    congrArg Writer.err (writeTmp_ok hF.fits).1
  rw [rewrite_swaps hF]
  simp only [Stored.syncedTmp, hF.openTmp, herr, hF.sync, hr,
    Disk.openAppend_of_names names_swapped_path, Bool.not_false, Bool.and_self, if_true]
  exact Disk.names_openTrunc

/-- What a power loss may leave after a `Rewrite`. -/
theorem rewrite_platter {s : Stored} {stat : Bool} (hcovers : s.platter.Covers s.disk)
    (hnext : s.disk.next ≤ (s.rewrite path clock records F stat).1.disk.next) :
    let s' := (s.rewrite path clock records F stat).1
    s'.platter.dirs = s'.disk.names :: s.platter.dirs ∧ s'.platter.Covers s'.disk ∧
      (∀ i, ∀ b ∈ s'.platter.files i, b ∈ (s.platter.follow s.disk s'.disk).files i) ∧
      ∀ i, Stored.syncedTmp path clock records F s.disk = some i →
        ∀ b ∈ s'.platter.files i, b = s'.disk.data i := by
  have hfollow := hcovers.follow hnext
  simp only [Stored.rewrite] at hfollow ⊢
  cases hsync : Stored.syncedTmp path clock records F s.disk with
  | none => exact ⟨rfl, hfollow, fun _ _ hb => hb, fun _ h => by cases h⟩
  | some j =>
      refine ⟨rfl, hfollow.syncFile j, fun _ _ hb => hfollow.mem_syncFile hb, fun i hi b hb => ?_⟩
      cases hi
      exact Platter.mem_syncFile.1 hb

end Rewrite

/-! ### What one call does -/

/-- The epoch goes on: more commands were to be appended. -/
structure Epoch.Grows (e e' : Epoch) : Prop where
  base : e'.base = e.base
  later : e.later <+: e'.later

theorem Epoch.Grows.refl (e : Epoch) : e.Grows e := ⟨rfl, List.prefix_rfl⟩

/-- The file holds the epoch's log up to some command, with a torn frame behind it or not. -/
def Epoch.Describes (e : Epoch) (b : Bytes) : Prop :=
  ∃ landed p, landed <+: e.later ∧ (∀ c ∈ e.base ++ landed, c.WellFormed) ∧ codec.Tail p ∧
    b = (e.base ++ landed).flatMap encode ++ p

theorem Epoch.Describes.mono {e e' : Epoch} {b : Bytes} (h : e.Describes b) (hg : e.Grows e') :
    e'.Describes b := by
  obtain ⟨landed, p, hpre, hwf, hp, hb⟩ := h
  rw [← hg.base] at hwf hb
  exact ⟨landed, p, hpre.trans hg.later, hwf, hp, hb⟩

/-- **What is between two such files** is replayed as the base and some of what follows it. -/
theorem Epoch.Describes.between {e : Epoch} {b b₁ b₂ : Bytes} (h₁ : e.Describes b₁)
    (h₂ : e.Describes b₂) (hb₁ : b₁ <+: b) (hb₂ : b <+: b₂) :
    ∃ more, more <+: e.later ∧ Yields (some b) (e.base ++ more) := by
  obtain ⟨landed₁, p₁, -, -, -, rfl⟩ := h₁
  obtain ⟨landed₂, p₂, hpre, hwf, hp, rfl⟩ := h₂
  -- the base is in front of both, so it is in front of what is between
  rw [List.flatMap_append, List.append_assoc] at hb₁ hb₂
  obtain ⟨rest, rfl⟩ := (List.prefix_append _ _).trans hb₁
  rw [List.prefix_append_right_inj] at hb₂
  have hwf₂ : ∀ c ∈ landed₂, c.WellFormed := fun c hc => hwf c (List.mem_append_right _ hc)
  obtain ⟨more, q, hmore, hq, rfl⟩ := codec.cut hwf₂ hp hb₂
  refine ⟨more, hmore.trans hpre, ?_⟩
  have hall : ∀ c ∈ e.base ++ more, c.WellFormed := by
    intro c hc
    rcases List.mem_append.1 hc with hc | hc
    · exact hwf c (List.mem_append_left _ hc)
    · exact hwf₂ c (hmore.subset hc)
  have hy := yields_frames hall hq
  rwa [List.flatMap_append, List.append_assoc] at hy

namespace Traced

/-- The log is intact; of its epoch these commands landed: the first ones, among them all that
were acknowledged, and all of them while there is no error. -/
structure Logs (path : Bytes) (x : Traced) (landed : List Value) : Prop where
  intact : Intact path (x.cur.base ++ landed) (x.stored.log, x.stored.disk)
  first : landed <+: x.cur.later
  acked : x.cur.acked.Sublist landed
  whole : x.stored.log.w.err = false → landed = x.cur.later

/-- The log's file is described by the epoch of the log. -/
theorem Logs.describes {path : Bytes} {x : Traced} {landed : List Value}
    (h : x.Logs path landed) : x.cur.Describes (x.stored.disk.data x.stored.log.f) := by
  obtain ⟨p, hp, hc⟩ := h.intact.content
  rw [Disk.content_eq h.intact.names] at hc
  exact ⟨landed, p, h.first, h.intact.wellFormed, hp, Option.some.inj hc⟩

/-- **The invariant.**  The temporary file was never at the log's path. -/
structure Sound (path : Bytes) (x : Traced) : Prop where
  covers : x.stored.platter.Covers x.stored.disk
  tmp : ∀ names ∈ x.stored.platter.dirs, ∀ i,
    x.stored.disk.names (tmp path) = some i → names path ≠ some i
  log : ∃ landed, x.Logs path landed

/-- **What a call may do**: the directory names the log's file, or one it could name before; the
files it could name before have no new contents, but for the log's file, which may have its
present one; and the epochs go on, if they are not over. -/
structure After (path : Bytes) (x x' : Traced) : Prop where
  sound : x'.Sound path
  dirs : ∀ names ∈ x'.stored.platter.dirs, names path = some x'.stored.log.f ∨
    ∃ names' ∈ x.stored.platter.dirs, names path = names' path
  files : ∀ names ∈ x.stored.platter.dirs, ∀ i, names path = some i → i ≠ x'.stored.log.f →
    ∀ b ∈ x'.stored.platter.files i, b ∈ x.stored.platter.files i
  current : ∀ b ∈ x'.stored.platter.files x'.stored.log.f,
    b = x'.stored.disk.data x'.stored.log.f ∨
      x'.stored.log.f = x.stored.log.f ∧ b ∈ x.stored.platter.files x.stored.log.f ∧
        x.cur.Grows x'.cur
  epochs : ∀ e ∈ x.epochs, ∃ e' ∈ x'.epochs, e.Grows e'

section Calls

variable {path : Bytes} {x x' : Traced}

theorem After.refl (h : x.Sound path) : x.After path x :=
  ⟨h, fun names hn => .inr ⟨names, hn, rfl⟩, fun _ _ _ _ _ _ hb => hb,
    fun _ hb => .inr ⟨rfl, hb, .refl _⟩, fun e he => ⟨e, he, .refl e⟩⟩

/-- A sync of the log's file takes contents away and adds none. -/
theorem After.fsync (h : x.After path x') (syncs : Bool) :
    x.After path { x' with stored := x'.stored.fsync syncs } := by
  cases syncs with
  | false => exact h
  | true =>
      have hmem : ∀ i b, b ∈ (x'.stored.fsync true).platter.files i →
          b ∈ x'.stored.platter.files i := fun i b hb => h.sound.covers.mem_syncFile hb
      obtain ⟨landed, hlog⟩ := h.sound.log
      exact ⟨⟨h.sound.covers.syncFile _, h.sound.tmp,
          landed, hlog.intact, hlog.first, hlog.acked, hlog.whole⟩, h.dirs,
        fun names hn i hi hne b hb => h.files names hn i hi hne b (hmem i b hb),
        fun b hb => h.current b (hmem _ b hb), h.epochs⟩

/-- A write to the log's file. -/
theorem Sound.after_write (h : x.Sound path) {landed : List Value} (hlog : x'.Logs path landed)
    (hf : x'.stored.log.f = x.stored.log.f)
    (hnames : x'.stored.disk.names = x.stored.disk.names)
    (hnext : x'.stored.disk.next = x.stored.disk.next)
    (hdata : ∀ i, i ≠ x.stored.log.f → x'.stored.disk.data i = x.stored.disk.data i)
    (hplatter : x'.stored.platter = x.stored.platter.follow x.stored.disk x'.stored.disk)
    (hcur : x.cur.Grows x'.cur) (hpast : x'.past = x.past) : x.After path x' := by
  have hdirs : ∀ names ∈ x'.stored.platter.dirs, names = x.stored.disk.names ∨
      names ∈ x.stored.platter.dirs := by
    intro names hn
    rw [hplatter] at hn
    rw [← hnames]
    exact List.mem_cons.1 hn
  refine ⟨⟨?_, fun names hn i hi hp => ?_, landed, hlog⟩, fun names hn => ?_,
    fun names hn i hi hne b hb => ?_, fun b hb => ?_, fun e he => ?_⟩
  · rw [hplatter]
    exact h.covers.follow hnext.ge
  · rw [hnames] at hi
    rcases hdirs names hn with rfl | hn
    · exact tmp_ne path (x.stored.disk.unlinked _ _ i hp hi)
    · exact h.tmp names hn i hi hp
  · rcases hdirs names hn with rfl | hn
    · rw [← hnames]
      exact .inl hlog.intact.names
    · exact .inr ⟨names, hn, rfl⟩
  · rw [hplatter] at hb
    exact h.covers.mem_follow (hdata i (hf ▸ hne)) hb
  · rw [hplatter] at hb
    rcases Platter.mem_follow hb with hb | hb
    · exact .inl hb
    · rw [hf] at hb
      exact .inr ⟨hf, hb, hcur⟩
  · rcases List.mem_cons.1 he with rfl | he
    · exact ⟨x'.cur, List.mem_cons_self, hcur⟩
    · refine ⟨e, List.mem_cons_of_mem _ ?_, .refl e⟩
      rw [hpast]
      exact he

/-- What the buffered writer makes of an attempt to append. -/
theorem Logs.append {landed : List Value} (h : x.Logs path landed) {t : Attempt}
    (hwf : t.cmd.WellFormed) {s : Stored} (hs : (s.log, s.disk) =
      (AOF.append t (x.stored.log, x.stored.disk)).1) (past : List Epoch) :
    ∃ landed', (Traced.mk s { x.cur with
      later := x.cur.later ++ [t.cmd]
      acked := if (AOF.append t (x.stored.log, x.stored.disk)).2 then x.cur.acked ++ [t.cmd]
        else x.cur.acked } past).Logs path landed' := by
  have herr : s.log.w.err = (AOF.append t (x.stored.log, x.stored.disk)).1.1.w.err :=
    congrArg (fun c : AOF × Disk Bytes UInt8 => c.1.w.err) hs
  rcases h.intact.append hwf with ⟨he, hintact⟩ | ⟨hintact, he, hok⟩
  · have hall : landed = x.cur.later := h.whole he
    refine ⟨landed ++ [t.cmd], ?_, ?_, ?_, fun _ => ?_⟩
    · dsimp only
      rw [hs, ← List.append_assoc]
      exact hintact
    · rw [hall]
    · dsimp only
      split
      · exact h.acked.append (List.Sublist.refl _)
      · exact h.acked.trans (List.sublist_append_left _ _)
    · rw [hall]
  · refine ⟨landed, ?_, h.first.trans (List.prefix_append _ _), ?_, fun hno => ?_⟩
    · dsimp only
      rw [hs]
      exact hintact
    · dsimp only
      rw [hok]
      exact h.acked
    · rw [herr, he] at hno
      cases hno

/-- `Append` adds its command to the epoch. -/
theorem Sound.append_after (h : x.Sound path) {t : Attempt} (hwf : t.cmd.WellFormed) :
    x.After path (x.call path (.append t)) := by
  obtain ⟨landed, hlog⟩ := h.log
  obtain ⟨landed', hlog'⟩ := hlog.append hwf (s :=
    { x.stored with
      log := (AOF.append t (x.stored.log, x.stored.disk)).1.1
      disk := (AOF.append t (x.stored.log, x.stored.disk)).1.2
      platter := x.stored.platter.follow x.stored.disk
        (AOF.append t (x.stored.log, x.stored.disk)).1.2 }) rfl x.past
  have hafter := h.after_write hlog' rfl rfl rfl
    (fun i hi => @data_append t (x.stored.log, x.stored.disk) i hi) rfl
    ⟨rfl, List.prefix_append _ _⟩ rfl
  simp only [Traced.call, Stored.call, Stored.append]
  split
  · exact hafter
  · exact hafter.fsync t.syncs

/-- `Flush` finds nothing in the buffer. -/
theorem Sound.flush_after (h : x.Sound path) (room : Option Nat) :
    x.After path { x with stored := (x.stored.flush room).1 } := by
  obtain ⟨landed, hlog⟩ := h.log
  rw [hlog.intact.idle.flush_stored]
  exact h.after_write ⟨hlog.intact, hlog.first, hlog.acked, hlog.whole⟩ rfl rfl rfl
    (fun _ _ => rfl) rfl (.refl _) rfl

/-- A tick of everysec adds nothing, -/
theorem Sound.tick_after (h : x.Sound path) (syncs : Bool) :
    x.After path (x.call path (.tick syncs)) := by
  simp only [Traced.call, Stored.call, Stored.tick]
  split
  · exact (After.refl h).fsync syncs
  · exact .refl h

/-- nor does a sync of the directory. -/
theorem Sound.syncDir_after (h : x.Sound path) : x.After path (x.call path .syncDir) := by
  obtain ⟨landed, hlog⟩ := h.log
  refine ⟨⟨h.covers.syncDir, fun names hn i hi hp => ?_, landed, hlog.intact, hlog.first,
    hlog.acked, hlog.whole⟩, fun names hn => ?_, fun _ _ _ _ _ _ hb => hb,
    fun _ hb => .inr ⟨rfl, hb, .refl _⟩, fun e he => ⟨e, he, .refl e⟩⟩
  · rw [List.mem_singleton.1 hn] at hp
    exact tmp_ne path (x.stored.disk.unlinked _ _ i hp hi)
  · rw [List.mem_singleton.1 hn]
    exact .inl hlog.intact.names

/-- Work on the temporary file, which is the log's from then on or is not. -/
theorem Sound.after_aside (h : x.Sound path) {landed : List Value} (hlog : x'.Logs path landed)
    (haside : x.stored.disk.Aside (Persistence.tmp path) x'.stored.disk)
    (hdirs : x'.stored.platter.dirs = x'.stored.disk.names :: x.stored.platter.dirs)
    (hcovers : x'.stored.platter.Covers x'.stored.disk)
    (hfiles : ∀ i, ∀ b ∈ x'.stored.platter.files i,
      b ∈ (x.stored.platter.follow x.stored.disk x'.stored.disk).files i)
    (hcur : x'.stored.log.f = x.stored.log.f ∧ x'.cur = x.cur ∨
      ∀ b ∈ x'.stored.platter.files x'.stored.log.f, b = x'.stored.disk.data x'.stored.log.f)
    (hepochs : ∀ e ∈ x.epochs, e ∈ x'.epochs) : x.After path x' := by
  have hold : ∀ names ∈ x.stored.platter.dirs, ∀ i, names path = some i →
      ∀ b ∈ x'.stored.platter.files i, b ∈ x.stored.platter.files i := by
    intro names hn i hi b hb
    have hdata := haside.data i (h.covers.used names hn path i hi)
      fun ht => h.tmp names hn i ht hi
    exact h.covers.mem_follow hdata (hfiles i b hb)
  refine ⟨⟨hcovers, fun names hn i hi hp => ?_, landed, hlog⟩, fun names hn => ?_,
    fun names hn i hi _ => hold names hn i hi, fun b hb => ?_,
    fun e he => ⟨e, hepochs e he, .refl e⟩⟩
  · rw [hdirs] at hn
    rcases List.mem_cons.1 hn with rfl | hn
    · exact tmp_ne path (x'.stored.disk.unlinked _ _ i hp hi)
    · rcases haside.names i hi with hi | hlt
      · exact h.tmp names hn i hi hp
      · exact absurd (h.covers.used names hn path i hp) (Nat.not_lt.2 hlt)
  · rw [hdirs] at hn
    rcases List.mem_cons.1 hn with rfl | hn
    · exact .inl hlog.intact.names
    · exact .inr ⟨names, hn, rfl⟩
  · rcases hcur with ⟨hf, hcur⟩ | hnew
    · rw [hf] at hb
      obtain ⟨landed₀, hlog₀⟩ := h.log
      refine .inr ⟨hf, hold _ h.covers.names _ hlog₀.intact.names b hb, ?_⟩
      rw [hcur]
      exact .refl _
    · exact .inl (hnew b hb)

/-- **`Rewrite`.**  The file that gets the log's name was synced before. -/
theorem Sound.rewrite_after (h : x.Sound path) {clock : Bytes → Time}
    {records : List SnapshotEntry} {F : Faults} (stat : Bool)
    (hwf : ∀ c ∈ snapshotCommands clock records, c.WellFormed) (hr : F.reopen = true) :
    x.After path (x.call path (.rewrite clock records F stat)) := by
  obtain ⟨landed, hlog⟩ := h.log
  have haside : x.stored.disk.Aside (Persistence.tmp path)
      (x.stored.rewrite path clock records F stat).1.disk := hlog.intact.idle.aside_rewrite
  obtain ⟨hdirs, hcovers, hfiles, hsynced⟩ :=
    @rewrite_platter path clock records F x.stored stat h.covers haside.next
  have hret := @rewrite_returns path x.stored.log x.stored.disk clock records F hr
  by_cases hF : F.Swaps (snapshotCommands clock records)
  · -- the snapshot is the log, and nothing was appended to it
    have hok : (x.stored.rewrite path clock records F stat).2 = true := hret.2 hF
    obtain ⟨hintact, herr⟩ := hlog.intact.rewrite_after hwf hF hr
    have hnew := hsynced _ (@syncedTmp_eq path x.stored.log x.stored.disk clock records F hF hr)
    simp only [Traced.call, Stored.call, hok, if_true]
    refine h.after_aside (show Logs path _ [] from ⟨?_, List.prefix_rfl, .slnil, fun _ => rfl⟩)
      haside hdirs hcovers hfiles (.inr hnew) fun e he => List.mem_cons_of_mem _ he
    rw [List.append_nil]
    exact hintact
  · have hok : (x.stored.rewrite path clock records F stat).2 = false := by
      rw [← Bool.not_eq_true]
      exact fun hok => hF (hret.1 hok)
    obtain ⟨ha, -⟩ := @rewrite_before path x.stored.log x.stored.disk clock records F hF
    have hlog' : (x.stored.rewrite path clock records F stat).1.log = x.stored.log := ha
    simp only [Traced.call, Stored.call, hok, Bool.false_eq_true, if_false]
    refine h.after_aside (show Logs path _ landed from ⟨?_, hlog.first, hlog.acked, fun he => ?_⟩)
      haside hdirs hcovers hfiles (.inl ⟨congrArg AOF.f hlog', rfl⟩) fun e he => he
    · exact hlog.intact.rewrite_before hF
    · exact hlog.whole (hlog' ▸ he)

/-- **One call.** -/
theorem Sound.call_after (h : x.Sound path) {c : FileCall} (hc : c.Good) :
    x.After path (x.call path c) := by
  cases c with
  | append t => exact h.append_after hc
  | tick syncs => exact h.tick_after syncs
  | flush room => exact h.flush_after room
  | rewrite clock records F stat => exact h.rewrite_after stat hc.1 hc.2
  | syncDir => exact h.syncDir_after

end Calls

/-! ### From a sync on -/

/-- Whatever file the directory may name is one of an epoch, and the log's file is one of the
present epoch. -/
structure Dated (path : Bytes) (x : Traced) : Prop where
  sound : x.Sound path
  named : ∀ names ∈ x.stored.platter.dirs, ∃ i, names path = some i ∧
    ∃ e ∈ x.epochs, ∀ b ∈ x.stored.platter.files i, e.Describes b
  current : ∀ b ∈ x.stored.platter.files x.stored.log.f, x.cur.Describes b

/-- The epochs go on describing what the platter may hold. -/
theorem Dated.after {path : Bytes} {x x' : Traced} (h : x.Dated path) (hx : x.After path x') :
    x'.Dated path := by
  obtain ⟨landed, hlog⟩ := hx.sound.log
  have hcurrent : ∀ b ∈ x'.stored.platter.files x'.stored.log.f, x'.cur.Describes b := by
    intro b hb
    rcases hx.current b hb with rfl | ⟨-, hb, hgrows⟩
    · exact hlog.describes
    · exact (h.current b hb).mono hgrows
  refine ⟨hx.sound, fun names hn => ?_, hcurrent⟩
  rcases hx.dirs names hn with hp | ⟨names', hn', hp⟩
  · exact ⟨_, hp, x'.cur, List.mem_cons_self, hcurrent⟩
  · obtain ⟨i, hi, e, he, hdescribes⟩ := h.named names' hn'
    refine ⟨i, hp.trans hi, ?_⟩
    by_cases hf : i = x'.stored.log.f
    · subst hf
      exact ⟨x'.cur, List.mem_cons_self, hcurrent⟩
    · obtain ⟨e', he', hgrows⟩ := hx.epochs e he
      exact ⟨e', he', fun b hb =>
        (hdescribes b (hx.files names' hn' i hi hf b hb)).mono hgrows⟩

theorem Sound.calls {path : Bytes} {x : Traced} {cs : List FileCall} (h : x.Sound path)
    (hcs : ∀ c ∈ cs, c.Good) : (x.calls path cs).Sound path := by
  induction cs generalizing x with
  | nil => exact h
  | cons c cs ih =>
      obtain ⟨hc, hcs⟩ := List.forall_mem_cons.1 hcs
      exact ih (h.call_after hc).sound hcs

theorem Dated.calls {path : Bytes} {x : Traced} {cs : List FileCall} (h : x.Dated path)
    (hcs : ∀ c ∈ cs, c.Good) : (x.calls path cs).Dated path := by
  induction cs generalizing x with
  | nil => exact h
  | cons c cs ih =>
      obtain ⟨hc, hcs⟩ := List.forall_mem_cons.1 hcs
      exact ih (h.after (h.sound.call_after hc)) hcs

/-- **What a power loss leaves** is replayed as an epoch's log, up to some command after its
base. -/
theorem Dated.yields {path : Bytes} {x : Traced} (h : x.Dated path) {file : Option Bytes}
    (hloss : x.stored.platter.Tears path file) :
    ∃ e ∈ x.epochs, ∃ more, more <+: e.later ∧ Yields file (e.base ++ more) := by
  obtain ⟨names, hn, hloss⟩ := hloss
  obtain ⟨i, hi, e, he, hdescribes⟩ := h.named names hn
  rw [hi] at hloss
  rcases hloss with ⟨hnone, -⟩ | ⟨j, b, hj, rfl, b₁, hb₁, b₂, hb₂, hpre₁, hpre₂⟩
  · cases hnone
  · cases hj
    exact ⟨e, he, (hdescribes b₁ hb₁).between (hdescribes b₂ hb₂) hpre₁ hpre₂⟩

end Traced

/-- The directory durably names the log's file. -/
def Stored.Settled (path : Bytes) (s : Stored) : Prop :=
  ∀ names ∈ s.platter.dirs, names path = some s.log.f

/-- The call syncs the log's file and returns nil: `Append` in one mode, a tick in another. -/
def FileCall.Syncs (s : Stored) : FileCall → Prop
  | .append t => s.log.mode = .always ∧ (s.append t).2 = true
  | .tick syncs => s.log.mode = .everySec ∧ syncs = true
  | _ => False

/-- The log's file is synced, and the directory names it for certain. -/
structure Stored.Safe (path : Bytes) (s : Stored) : Prop where
  settled : s.Settled path
  synced : ∀ b ∈ s.platter.files s.log.f, b = s.disk.data s.log.f

/-- A log can start anew from where it is safe. -/
theorem Traced.Logs.dated {path : Bytes} {x : Traced} {landed : List Value}
    (h : x.Logs path landed) (hs : x.Sound path) (hsafe : x.stored.Safe path) :
    (since (x.cur.base ++ landed) x.stored).Dated path := by
  have hlogs : (since (x.cur.base ++ landed) x.stored).Logs path [] := by
    refine ⟨?_, List.prefix_rfl, .slnil, fun _ => rfl⟩
    have hnil : (since (x.cur.base ++ landed) x.stored).cur.base ++ [] = x.cur.base ++ landed :=
      List.append_nil _
    rw [hnil]
    exact h.intact
  have hcurrent : ∀ b ∈ x.stored.platter.files x.stored.log.f,
      (since (x.cur.base ++ landed) x.stored).cur.Describes b := by
    intro b hb
    rw [hsafe.synced b hb]
    exact hlogs.describes
  exact ⟨⟨hs.covers, hs.tmp, [], hlogs⟩,
    fun names hn => ⟨_, hsafe.settled names hn, _, List.mem_cons_self, hcurrent⟩, hcurrent⟩

/-! ### Opening, and the calls that sync -/

/-- `Open` on whole frames, or on no file, starts an epoch with these. -/
theorem Traced.Sound.open {path : Bytes} {d : Disk Bytes UInt8} {old : List Value}
    (mode : FsyncMode) (stat : Bool) (hwf : ∀ c ∈ old, c.WellFormed)
    (hlog : (d.content path).getD [] = old.flatMap encode) :
    (Traced.since old (Stored.open path mode stat d)).Sound path := by
  refine ⟨(Platter.Covers.of d).follow Disk.next_openAppend, fun names hn i hi hp => ?_,
    [], ?_, List.prefix_rfl, .slnil, fun _ => rfl⟩
  · have htmp : d.names (Persistence.tmp path) = some i :=
      (Disk.names_openAppend_of_ne (tmp_ne path).symm).symm.trans hi
    rcases List.mem_cons.1 hn with rfl | hn
    · exact tmp_ne path (Disk.unlinked _ _ _ i hp hi)
    · rw [List.mem_singleton.1 hn] at hp
      exact tmp_ne path (d.unlinked _ _ i hp htmp)
  · have hnil : (Traced.since old (Stored.open path mode stat d)).cur.base ++ [] = old :=
      List.append_nil _
    rw [hnil]
    exact Intact.open mode hwf hlog

/-- A sync of a log that is durably named makes it safe. -/
theorem Stored.Settled.fsync {path : Bytes} {s : Stored} (h : s.Settled path) :
    (s.fsync true).Safe path :=
  ⟨h, fun _ hb => Platter.mem_syncFile.1 hb⟩

/-- A call that changes neither the name nor the file leaves the log settled. -/
theorem Stored.Settled.follow {path : Bytes} {s : Stored} {cmds : List Value}
    (h : s.Settled path) (hlog : Intact path cmds (s.log, s.disk)) {log : AOF}
    {disk : Disk Bytes UInt8} (hf : log.f = s.log.f) (hnames : disk.names = s.disk.names) :
    Stored.Settled path ⟨log, disk, s.platter.follow s.disk disk, s.baseSize⟩ := by
  intro names hn
  rw [hf]
  rcases List.mem_cons.1 hn with rfl | hn
  · rw [hnames]
    exact hlog.names
  · exact h names hn

/-- A call that syncs makes the log safe. -/
theorem FileCall.Syncs.safe {path : Bytes} {s : Stored} {c : FileCall} {cmds : List Value}
    (h : c.Syncs s) (hs : s.Settled path) (hlog : Intact path cmds (s.log, s.disk)) :
    (s.call path c).1.Safe path := by
  cases c with
  | append t =>
      obtain ⟨hmode, hok⟩ := h
      have happend : (AOF.append t (s.log, s.disk)).2 = true := hok
      obtain ⟨herr, hsync⟩ := AOF.append_nil.1 happend
      have hgo : ((AOF.append t (s.log, s.disk)).1.1.w.err ||
          (AOF.append t (s.log, s.disk)).1.1.mode != .always) = false := by
        rw [herr, AOF.mode_append, hmode]
        rfl
      simp only [Stored.call, Stored.append, hgo, Bool.false_eq_true, if_false, hsync hmode]
      exact Stored.Settled.fsync (hs.follow hlog rfl rfl)
  | tick syncs =>
      obtain ⟨hmode, rfl⟩ := h
      simp only [Stored.call, Stored.tick, hmode, if_true]
      exact hs.fsync
  | flush | rewrite | syncDir => exact h.elim

/-- **What was synced survives.**  A log of whole frames is opened, or a new one, and any calls
follow, with any failures of the file operations but that of the reopening in `Rewrite`.  When the
directory durably names the log's file and a call syncs it, the log holds every command that was
acknowledged since its epoch began.  From then on, whatever calls follow and whenever the power is
lost, the file that is left is replayed without an error, and gives all of that log or the snapshot
of a later `Rewrite`, and of what was to be appended after that the first commands. -/
theorem synced_survives {path : Bytes} {mode : FsyncMode} {stat : Bool} {d : Disk Bytes UInt8}
    {old : List Value} {before after : List FileCall} {c : FileCall}
    (hold : ∀ c ∈ old, c.WellFormed) (hlog : (d.content path).getD [] = old.flatMap encode)
    (hbefore : ∀ c ∈ before, c.Good) (hc : c.Good) (hafter : ∀ c ∈ after, c.Good)
    (hsettled :
      ((Traced.since old (.open path mode stat d)).calls path before).stored.Settled path)
    (hsyncs : c.Syncs ((Traced.since old (.open path mode stat d)).calls path before).stored) :
    let x := (Traced.since old (.open path mode stat d)).calls path (before ++ [c])
    ∃ landed, Yields (x.stored.disk.content path) (x.cur.base ++ landed) ∧
      x.cur.acked.Sublist landed ∧ landed <+: x.cur.later ∧
      let y := (Traced.since (x.cur.base ++ landed) x.stored).calls path after
      ∀ file, y.stored.platter.Tears path file →
        ∃ e ∈ y.epochs, ∃ more, more <+: e.later ∧ Yields file (e.base ++ more) := by
  intro x
  have hx : x = ((Traced.since old (.open path mode stat d)).calls path before).call path c :=
    List.foldl_concat _ _ _ _
  have hsound := (Traced.Sound.open mode stat hold hlog).calls hbefore
  obtain ⟨cmds, hlogs⟩ := hsound.log
  have hsafe := hsyncs.safe hsettled hlogs.intact
  have hxs := (hsound.call_after hc).sound
  rw [← Traced.call_stored, ← hx] at hsafe
  rw [← hx] at hxs
  obtain ⟨landed, hland⟩ := hxs.log
  refine ⟨landed, hland.intact.yields, hland.acked, hland.first, fun file hloss => ?_⟩
  exact ((hland.dated hxs hsafe).calls hafter).yields hloss

/-- Two commands, and a log of the first that a tick has synced. -/
def setA : Value := bulkCmd [txt "SET", txt "a", txt "1"]

/-- `SET b 2` -/
def setB : Value := bulkCmd [txt "SET", txt "b", txt "2"]

/-- A new log in everysec, with one command appended, its name made durable and a tick after it. -/
def tickedLog : Traced :=
  (Traced.since [] (.open (txt "aof") .everySec true Disk.empty)).calls (txt "aof")
    [.append ⟨setA, none, true⟩, .syncDir, .tick true]

/-- A tick, an append, and a power loss that tears the appended frame: the first command is
left. -/
theorem synced_survives_tornAppend :
    let y := (Traced.since [setA] tickedLog.stored).calls (txt "aof") [.append ⟨setB, none, true⟩]
    y.stored.platter.Tears (txt "aof") (some (encode setA ++ (encode setB).take 5)) ∧
      ∀ file, y.stored.platter.Tears (txt "aof") file →
        Yields file [setA] ∨ Yields file [setA, setB] := by
  intro y
  have hA : setA.WellFormed := bulkCmd_wellFormed (by decide) (by decide)
  have hB : setB.WellFormed := bulkCmd_wellFormed (by decide) (by decide)
  obtain ⟨landed, hy, -, -, hloss⟩ := @synced_survives (txt "aof") .everySec true Disk.empty []
    [.append ⟨setA, none, true⟩, .syncDir] [.append ⟨setB, none, true⟩] (.tick true)
    (List.forall_mem_nil _) rfl
    (List.forall_mem_cons.2 ⟨hA, List.forall_mem_singleton.2 trivial⟩) trivial
    (List.forall_mem_singleton.2 hB)
    (fun names hn => by rw [List.mem_singleton.1 hn]; rfl) ⟨rfl, rfl⟩
  have hone : Yields (tickedLog.stored.disk.content (txt "aof")) [setA] := by decide +kernel
  have hland : landed = [setA] := hy.unique hone
  subst hland
  have hfiles : y.stored.platter.files 0 = [encode setA ++ encode setB, encode setA] := by
    decide +kernel
  refine ⟨⟨_, List.mem_cons_self, .inr ⟨0, _, rfl, rfl, encode setA, ?_,
    encode setA ++ encode setB, ?_, List.prefix_append _ _, ?_⟩⟩, fun file hfile => ?_⟩
  · rw [hfiles]
    exact List.mem_cons_of_mem _ List.mem_cons_self
  · rw [hfiles]
    exact List.mem_cons_self
  · rw [List.prefix_append_right_inj]
    exact List.take_prefix _ _
  · obtain ⟨e, he, more, hmore, hyields⟩ := hloss file hfile
    obtain rfl := List.mem_singleton.1 he
    rcases List.prefix_cons_iff.1 hmore with rfl | ⟨rest, rfl, hrest⟩
    · exact .inl hyields
    · obtain rfl := List.prefix_nil.1 hrest
      exact .inr hyields

/-! ### `Close` -/

/-- `Close` returns nil when its flush, its sync and its close all succeed. -/
theorem Stored.close_nil {s : Stored} {room : Option Nat} {syncs closes : Bool} :
    (s.close room syncs closes).2 = none ↔
      (s.flush room).2 = true ∧ syncs = true ∧ closes = true := by
  simp only [Stored.close]
  cases (s.flush room).2 <;> cases syncs <;> cases closes <;> decide

/-- **A `Close` that returns nil loses nothing**, in any mode.  A log of whole frames is opened, or
a new one, and any calls follow, with any failures of the file operations but that of the reopening
in `Rewrite`.  When the directory durably names the log's file and `Close` returns nil, whatever a
power loss leaves after it is replayed without an error, and gives all that the log's epoch began
with and all that was to be appended since: no `Append` of the epoch had an error of the file behind
it. -/
theorem close_survives {path : Bytes} {mode : FsyncMode} {stat : Bool} {d : Disk Bytes UInt8}
    {old : List Value} {cs : List FileCall} {room : Option Nat} {syncs closes : Bool}
    (hold : ∀ c ∈ old, c.WellFormed) (hlog : (d.content path).getD [] = old.flatMap encode)
    (hcs : ∀ c ∈ cs, c.Good)
    (hsettled : ((Traced.since old (.open path mode stat d)).calls path cs).stored.Settled path)
    (hclose : (((Traced.since old (.open path mode stat d)).calls path cs).stored.close
      room syncs closes).2 = none) :
    let x := (Traced.since old (.open path mode stat d)).calls path cs
    ∀ file, (x.stored.close room syncs closes).1.platter.Tears path file →
      Yields file (x.cur.base ++ x.cur.later) := by
  intro x file hloss
  have hsound : x.Sound path := (Traced.Sound.open mode stat hold hlog).calls hcs
  obtain ⟨hflushed, rfl, -⟩ := Stored.close_nil.1 hclose
  obtain ⟨cmds, hlogs⟩ := hsound.log
  have hsafe : (x.stored.close room true closes).1.Safe path :=
    Stored.Settled.fsync (hsettled.follow hlogs.intact rfl rfl)
  have hclosed := ((hsound.flush_after room).fsync true).sound
  obtain ⟨landed, hland⟩ := hclosed.log
  have herr : (x.stored.flush room).1.log.w.err = false := by
    simpa only [Stored.flush, Bool.not_eq_true'] using hflushed
  obtain rfl : landed = x.cur.later := hland.whole herr
  obtain ⟨e, he, more, hmore, hyields⟩ := (hland.dated hclosed hsafe).yields hloss
  obtain rfl := List.mem_singleton.1 he
  obtain rfl := List.prefix_nil.1 hmore
  rw [List.append_nil] at hyields
  exact hyields

/-- A log that is not synced until it is closed. -/
def unsyncedLog : Traced :=
  (Traced.since [] (.open (txt "aof") .no true Disk.empty)).calls (txt "aof")
    [.append ⟨setA, none, false⟩, .syncDir, .append ⟨setB, none, false⟩]

/-- Before `Close` a power loss may take everything; after it, nothing. -/
theorem close_survives_unsynced :
    unsyncedLog.stored.platter.Tears (txt "aof") (some []) ∧
      ∀ file, (unsyncedLog.stored.close none true true).1.platter.Tears (txt "aof") file →
        Yields file [setA, setB] := by
  have hA : setA.WellFormed := bulkCmd_wellFormed (by decide) (by decide)
  have hB : setB.WellFormed := bulkCmd_wellFormed (by decide) (by decide)
  have hfiles : unsyncedLog.stored.platter.files 0 =
      [encode setA ++ encode setB, encode setA, []] := by decide +kernel
  refine ⟨Platter.Leaves.tears ⟨_, List.mem_cons_self, .inr ⟨0, [], rfl, ?_, rfl⟩⟩, ?_⟩
  · rw [hfiles]
    exact List.mem_cons_of_mem _ (List.mem_cons_of_mem _ List.mem_cons_self)
  · refine @close_survives (txt "aof") .no true Disk.empty [] _ none true true
      (List.forall_mem_nil _) rfl
      (List.forall_mem_cons.2 ⟨hA, List.forall_mem_cons.2
        ⟨trivial, List.forall_mem_singleton.2 hB⟩⟩) (fun names hn => ?_) (by decide +kernel)
    have hmem : names ∈ List.replicate 2 unsyncedLog.stored.disk.names := hn
    rw [List.eq_of_mem_replicate hmem]
    rfl

end MiniRedis.Persistence
