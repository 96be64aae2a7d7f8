import MiniRedis.Persistence.Fsync
import MiniRedis.Persistence.Metering

/-!
# Persistence — Growth

When the log is compacted.  A tick of `runAutoRewrite` asks `ShouldRewrite`, which compares the
size of the log with a floor and with its size after the last `Rewrite`; if it says yes, `Rewrite`
follows, but only when the write lock is free, so that other calls come in between.  Sizes are
natural numbers: those of files stay below the `2 ^ 62` from which `rewriteGrowthFactor * baseSize`
would wrap in the `int64` of the source.

* `Rewriter.Paced.step`: what the log has grown by pays for the next rewrite.
* `rewrites_paced`: **there is at most one rewrite for every 32 KiB of frames**, if the sizes can
  be read.
-/

namespace MiniRedis.Persistence

open Protocol Store Files Buffered Cmd

/-- A log is compacted when it is this many times as large as after the last compaction. -/
def rewriteGrowthFactor : Nat := 2

/-- A log below this size is not compacted. -/
def minRewriteSize : Nat := 64 * 1024

namespace Stored

/-- The size of the log's file. -/
def size (s : Stored) : Nat := (s.disk.data s.log.f).length

/-- `sizeLocked`, which may fail. -/
def sizeLocked (stat : Bool) (s : Stored) : Option Nat := if stat then some s.size else none

/-- `ShouldRewrite` -/
def shouldRewrite (stat : Bool) (s : Stored) : Bool :=
  match s.sizeLocked stat with
  | none => false
  | some size => minRewriteSize ≤ size && rewriteGrowthFactor * s.baseSize ≤ size

end Stored

/-- The log under `runAutoRewrite`: whether `ShouldRewrite` has said yes and `Rewrite` is yet to
come, and how many times it has returned nil. -/
structure Rewriter where
  stored : Stored
  due : Bool
  rewrites : Nat

/-- The calls on the log, those of `runAutoRewrite` in two: `check` is `ShouldRewrite`, and
`rewrite` the `Rewrite` that follows if it is due. -/
inductive RewriterCall where
  | append (t : Attempt)
  | tick (syncs : Bool)
  | flush (room : Option Nat)
  | check (stat : Bool)
  | rewrite (clock : Bytes → Time) (records : List SnapshotEntry) (F : Faults) (stat : Bool)

namespace RewriterCall

/-- The length of the frame that is to be appended. -/
def length : RewriterCall → Nat
  | append t => (encode t.cmd).length
  | _ => 0

/-- The bytes of all frames that are to be appended. -/
def total (cs : List RewriterCall) : Nat := (cs.map length).sum

/-- `Rewrite` can read the size of the new file. -/
def Stats : RewriterCall → Prop
  | rewrite _ _ _ stat => stat = true
  | _ => True

end RewriterCall

/-! ### One call -/

/-- `Append` leaves the buffer empty or an error, and adds no more than the frame. -/
theorem AOF.Idle.append {a : AOF} (h : a.Idle) (t : Attempt) (d : Disk Bytes UInt8) :
    (AOF.append t (a, d)).1.1.Idle ∧ ∃ taken, taken.length ≤ (encode t.cmd).length ∧
      (AOF.append t (a, d)).1.2 = d.write a.f taken := by
  rcases h with he | hw
  · rw [append_of_err he]
    exact ⟨.inl he, [], Nat.zero_le _, Disk.write_nil.symm⟩
  · have hcases := sendAll_cases bufSize t.room (pieces t.cmd)
    rw [flatten_pieces] at hcases
    simp only [AOF.append, hw]
    rcases hcases with ⟨hnew, htaken, -⟩ | ⟨herr, r, -, -, htaken⟩
    · exact ⟨.inr hnew, _, (congrArg List.length htaken).le, rfl⟩
    · refine ⟨.inl herr, _, ?_, rfl⟩
      rw [htaken]
      exact List.length_take_le' _ _

namespace Stored

/-- What a call adds to the log's file, which stays the same. -/
structure Adds (n : Nat) (s s' : Stored) : Prop where
  idle : s'.log.Idle
  file : s'.log.f = s.log.f
  next : s'.disk.next = s.disk.next
  names : s'.disk.names = s.disk.names
  base : s'.baseSize = s.baseSize
  le : s.size ≤ s'.size
  size : s'.size ≤ s.size + n

theorem Adds.fsync {n : Nat} {s s' : Stored} (h : s.Adds n s') (syncs : Bool) :
    s.Adds n (s'.fsync syncs) := by
  cases syncs with
  | false => exact h
  | true => exact ⟨h.idle, h.file, h.next, h.names, h.base, h.le, h.size⟩

/-- The sync is all that `Append` does besides what the buffered writer makes of it. -/
theorem append_fields (s : Stored) (t : Attempt) :
    (s.append t).1.log = (AOF.append t (s.log, s.disk)).1.1 ∧
      (s.append t).1.disk = (AOF.append t (s.log, s.disk)).1.2 ∧
      (s.append t).1.baseSize = s.baseSize := by
  simp only [append, Stored.fsync]
  split_ifs
  · exact ⟨rfl, rfl, rfl⟩
  · exact ⟨rfl, rfl, rfl⟩
  · exact ⟨rfl, rfl, rfl⟩

/-- `Append` adds no more than its frame. -/
theorem adds_append {s : Stored} (h : s.log.Idle) (t : Attempt) :
    s.Adds (encode t.cmd).length (s.append t).1 := by
  obtain ⟨hlog, hdisk, hbase⟩ := s.append_fields t
  obtain ⟨hidle, taken, hlen, hwrite⟩ := h.append t s.disk
  have hsize : (s.append t).1.size = s.size + taken.length := by
    rw [size, hlog, hdisk, hwrite]
    simp [Disk.write, size, AOF.append]
  refine ⟨hlog ▸ hidle, ?_, ?_, ?_, hbase, by omega, by omega⟩
  · rw [hlog]
    rfl
  · rw [hdisk]
    rfl
  · rw [hdisk]
    rfl

theorem adds_tick {s : Stored} (h : s.log.Idle) (syncs : Bool) : s.Adds 0 (s.tick syncs) := by
  have hadds : s.Adds 0 s := ⟨h, rfl, rfl, rfl, rfl, le_rfl, le_rfl⟩
  unfold tick
  split
  · exact hadds.fsync syncs
  · exact hadds

theorem adds_flush {s : Stored} (h : s.log.Idle) (room : Option Nat) :
    s.Adds 0 (s.flush room).1 := by
  rw [h.flush_stored]
  exact ⟨h, rfl, rfl, rfl, rfl, le_rfl, le_rfl⟩

end Stored

section Rewrite

variable {path : Bytes} {clock : Bytes → Time} {records : List SnapshotEntry} {F : Faults}
  {a : AOF} {d : Disk Bytes UInt8}

/-- A `Rewrite` that fails keeps the handle. -/
theorem rewrite_fails (h : (AOF.rewrite path clock records F (a, d)).2 = false) :
    (AOF.rewrite path clock records F (a, d)).1.1 = a := by
  simp only [AOF.rewrite] at h ⊢
  split_ifs at h ⊢
  · rfl
  · rfl
  · rfl
  · rfl

/-- A `Rewrite` that succeeds leaves the log open on the file at its path. -/
theorem names_rewrite (h : (AOF.rewrite path clock records F (a, d)).2 = true) :
    (AOF.rewrite path clock records F (a, d)).1.2.names path =
      some (AOF.rewrite path clock records F (a, d)).1.1.f := by
  simp only [AOF.rewrite] at h ⊢
  split_ifs at h ⊢
  exact Disk.names_openAppend

end Rewrite

namespace Rewriter

/-- `Open`, with the size of the file read. -/
def «open» (path : Bytes) (mode : FsyncMode) (d : Disk Bytes UInt8) : Rewriter :=
  ⟨.open path mode true d, false, 0⟩

/-- One call. -/
def call (path : Bytes) : RewriterCall → Rewriter → Rewriter
  | .append t, x => { x with stored := (x.stored.append t).1 }
  | .tick syncs, x => { x with stored := x.stored.tick syncs }
  | .flush room, x => { x with stored := (x.stored.flush room).1 }
  | .check stat, x => { x with due := x.stored.shouldRewrite stat }
  | .rewrite clock records F stat, x =>
      if x.due then
        let (s, ok) := x.stored.rewrite path clock records F stat
        ⟨s, false, if ok then x.rewrites + 1 else x.rewrites⟩
      else x

/-- Calls one after the other. -/
def calls (path : Bytes) (cs : List RewriterCall) (x : Rewriter) : Rewriter :=
  cs.foldl (fun x c => x.call path c) x

/-! ### The pace of the rewrites -/

/-- **The invariant**, `n` bytes of frames having been given to `Append`: each rewrite was paid for
with 32 KiB of them, and what the log has grown by since is still to spend. -/
structure Paced (path : Bytes) (n : Nat) (x : Rewriter) : Prop where
  idle : x.stored.log.Idle
  used : x.stored.log.f < x.stored.disk.next
  apart : x.stored.disk.names (tmp path) ≠ some x.stored.log.f
  grown : x.stored.baseSize ≤ x.stored.size
  paid : 32 * 1024 * x.rewrites + x.stored.size ≤ x.stored.baseSize + n
  due : x.due = true → minRewriteSize ≤ x.stored.size ∧
    rewriteGrowthFactor * x.stored.baseSize ≤ x.stored.size

namespace Paced

variable {path : Bytes} {n : Nat} {x : Rewriter}

theorem start (path : Bytes) (mode : FsyncMode) (d : Disk Bytes UInt8) :
    (Rewriter.open path mode d).Paced path 0 := by
  have hnames : (d.openAppend path).1.names path = some (d.openAppend path).2 :=
    Disk.names_openAppend
  refine ⟨.inr rfl, Disk.named_lt _ _ _ hnames, fun ht => ?_, le_rfl, ?_, fun h => by cases h⟩
  · exact tmp_ne path (Disk.unlinked _ _ _ _ hnames ht)
  · exact (Nat.zero_add _).le

/-- A call that adds to the log leaves more to spend. -/
theorem adds (h : x.Paced path n) {k : Nat} {s : Stored} (hs : x.stored.Adds k s) :
    ({ x with stored := s } : Rewriter).Paced path (n + k) := by
  obtain ⟨hidle, hf, hnext, hnames, hbase, hle, hsize⟩ := hs
  have hpaid := h.paid
  refine ⟨hidle, ?_, ?_, ?_, ?_, fun hdue => ?_⟩
  · rw [hf, hnext]
    exact h.used
  · rw [hf, hnames]
    exact h.apart
  · rw [hbase]
    exact h.grown.trans hle
  · rw [hbase]
    dsimp only
    omega
  · obtain ⟨hfloor, hfactor⟩ := h.due hdue
    rw [hbase]
    exact ⟨hfloor.trans hle, hfactor.trans hle⟩

/-- The log has doubled since it was last compacted, and is over the floor: by half the floor or
more it has grown since. -/
theorem half_floor {base size : Nat} (hfloor : minRewriteSize ≤ size)
    (hfactor : rewriteGrowthFactor * base ≤ size) : base + 32 * 1024 ≤ size := by
  unfold minRewriteSize at hfloor
  unfold rewriteGrowthFactor at hfactor
  omega

/-- **A `Rewrite` that is due** is paid for with what the log has grown by. -/
theorem rewrite (h : x.Paced path n) (hdue : x.due = true) {clock : Bytes → Time}
    {records : List SnapshotEntry} {F : Faults} :
    (x.call path (.rewrite clock records F true)).Paced path n := by
  have haside : x.stored.disk.Aside (tmp path)
      (AOF.rewrite path clock records F (x.stored.log, x.stored.disk)).1.2 :=
    h.idle.aside_rewrite
  have hgrown := h.grown
  have hpaid := h.paid
  by_cases hok : (AOF.rewrite path clock records F (x.stored.log, x.stored.disk)).2 = true
  · have hnames := names_rewrite hok
    have hhalf := half_floor (h.due hdue).1 (h.due hdue).2
    simp only [Rewriter.call, hdue, if_true, Stored.rewrite, hok, Bool.and_self]
    refine ⟨.inr (Metered.rewrite_new hok), Disk.named_lt _ _ _ hnames, fun ht => ?_, le_rfl, ?_,
      fun h => by cases h⟩
    · exact tmp_ne path (Disk.unlinked _ _ _ _ hnames ht)
    · simp only [Stored.size] at hpaid hhalf ⊢
      omega
  · rw [Bool.not_eq_true] at hok
    have hlog := rewrite_fails hok
    have hdata := haside.data _ h.used h.apart
    simp only [Rewriter.call, hdue, if_true, Stored.rewrite, hok, Bool.false_and,
      Bool.false_eq_true, if_false, hlog]
    have hsize : ((AOF.rewrite path clock records F
        (x.stored.log, x.stored.disk)).1.2.data x.stored.log.f).length = x.stored.size :=
      congrArg List.length hdata
    refine ⟨h.idle, h.used.trans_le haside.next, fun ht => ?_, hgrown.trans hsize.ge, ?_,
      fun h => by cases h⟩
    · rcases haside.names _ ht with ht | hlt
      · exact h.apart ht
      · exact absurd h.used (Nat.not_lt.2 hlt)
    · exact (Nat.add_le_add_left hsize.le _).trans hpaid

/-- **One call.** -/
theorem step (h : x.Paced path n) {c : RewriterCall} (hc : c.Stats) :
    (x.call path c).Paced path (n + c.length) := by
  cases c with
  | append t => exact h.adds (Stored.adds_append h.idle t)
  | tick syncs => exact h.adds (Stored.adds_tick h.idle syncs)
  | flush room => exact h.adds (Stored.adds_flush h.idle room)
  | check stat =>
      refine ⟨h.idle, h.used, h.apart, h.grown, h.paid, fun hdue => ?_⟩
      cases stat with
      | false => cases hdue
      | true => exact (Bool.and_eq_true_iff.1 hdue).imp of_decide_eq_true of_decide_eq_true
  | rewrite clock records F stat =>
      obtain rfl : stat = true := hc
      by_cases hdue : x.due = true
      · exact h.rewrite hdue
      · rw [Rewriter.call, if_neg hdue]
        exact h

theorem calls {cs : List RewriterCall} (h : x.Paced path n) (hcs : ∀ c ∈ cs, c.Stats) :
    (x.calls path cs).Paced path (n + RewriterCall.total cs) := by
  induction cs generalizing x n with
  | nil => exact h
  | cons c cs ih =>
      obtain ⟨hc, hcs⟩ := List.forall_mem_cons.1 hcs
      have hrun := ih (h.step hc) hcs
      rw [Nat.add_assoc] at hrun
      exact hrun

end Paced

end Rewriter

/-- **Rewrites are paid for.**  Whatever the calls on an open log and whatever fails of them, and
whenever the rewrites that are due come, there was at most one rewrite for every 32 KiB of frames
that were given to `Append`, and one that is due finds a log of at least 64 KiB, which has doubled
since the last; provided that the size of the log can be read when it is opened and after each
rewrite. -/
theorem rewrites_paced {path : Bytes} {mode : FsyncMode} {d : Disk Bytes UInt8}
    {cs : List RewriterCall} (hcs : ∀ c ∈ cs, c.Stats) :
    let x := (Rewriter.open path mode d).calls path cs
    32 * 1024 * x.rewrites ≤ RewriterCall.total cs ∧
      (x.due = true → minRewriteSize ≤ x.stored.size ∧
        rewriteGrowthFactor * x.stored.baseSize ≤ x.stored.size) := by
  intro x
  have hx : x.Paced path (0 + RewriterCall.total cs) := (Rewriter.Paced.start path mode d).calls hcs
  have hgrown := hx.grown
  have hpaid := hx.paid
  exact ⟨by omega, hx.due⟩

/-- A value of 64 KiB. -/
def bigSet : Value := bulkCmd [txt "SET", txt "k", List.replicate minRewriteSize 0]

/-- Nothing fails. -/
def noFaults : Faults := ⟨true, none, true, true, true, true, true, none⟩

theorem minRewriteSize_le_bigSet : minRewriteSize ≤ (encode bigSet).length := by
  have hlen : (List.replicate minRewriteSize (0 : UInt8)).length = minRewriteSize :=
    List.length_replicate
  simp only [bigSet, bulkCmd, List.map_cons, List.map_nil, encode, encodeItems, List.length_append,
    List.length_cons, hlen]
  omega

/-- A frame over the floor is appended to a new log, which is then compacted. -/
def writtenOnce (v : Value) : List RewriterCall :=
  [.append ⟨v, none, true⟩, .check true, .rewrite (fun _ => 0) [] noFaults true]

theorem stats_writtenOnce (v : Value) : ∀ c ∈ writtenOnce v, c.Stats :=
  List.forall_mem_cons.2 ⟨trivial, List.forall_mem_cons.2
    ⟨trivial, List.forall_mem_singleton.2 (rfl : true = true)⟩⟩

/-- One large frame pays for one rewrite. -/
theorem rewrites_writtenOnce {v : Value} (hv : minRewriteSize ≤ (encode v).length) :
    ((Rewriter.open (txt "aof") .everySec Disk.empty).calls (txt "aof")
      (writtenOnce v)).rewrites = 1 := by
  have happend : (AOF.append ⟨v, none, true⟩ (AOF.open (txt "aof") .everySec Disk.empty)).1 = _ :=
    append_new rfl _ fun r h => by cases h
  obtain ⟨hlog, hdisk, hbase⟩ :=
    (Stored.open (txt "aof") .everySec true Disk.empty).append_fields ⟨v, none, true⟩
  change (Rewriter.call (txt "aof") (.rewrite (fun _ => 0) [] noFaults true)
    ⟨((Stored.open (txt "aof") .everySec true Disk.empty).append ⟨v, none, true⟩).1,
      Stored.shouldRewrite true
        ((Stored.open (txt "aof") .everySec true Disk.empty).append ⟨v, none, true⟩).1,
      0⟩).rewrites = 1
  generalize ((Stored.open (txt "aof") .everySec true Disk.empty).append ⟨v, none, true⟩).1 = s
    at hlog hdisk hbase ⊢
  have hsize : s.size = (encode v).length := by
    rw [Stored.size, hlog, hdisk]
    exact congrArg (fun c : AOF × Disk Bytes UInt8 => (c.2.data c.1.f).length) happend
  have hdue : s.shouldRewrite true = true := by
    simp only [Stored.shouldRewrite, Stored.sizeLocked, if_true, hsize, hbase, Bool.and_eq_true,
      decide_eq_true_eq]
    exact ⟨hv, Nat.zero_le _⟩
  have hswaps : noFaults.Swaps (snapshotCommands (fun _ => 0) []) :=
    ⟨rfl, (fun r h => by cases h), rfl, rfl, rfl⟩
  have hok : (s.rewrite (txt "aof") (fun _ => 0) [] noFaults true).2 = true :=
    (@rewrite_returns (txt "aof") s.log s.disk (fun _ => 0) [] noFaults rfl).2 hswaps
  simp only [Rewriter.call, hdue, if_true, hok]

/-- A log that is rewritten once, after one large frame. -/
theorem rewrites_paced_bigSet :
    let x := (Rewriter.open (txt "aof") .everySec Disk.empty).calls (txt "aof") (writtenOnce bigSet)
    x.rewrites = 1 ∧ 32 * 1024 * x.rewrites ≤ RewriterCall.total (writtenOnce bigSet) :=
  ⟨rewrites_writtenOnce minRewriteSize_le_bigSet, (rewrites_paced (stats_writtenOnce bigSet)).1⟩

end MiniRedis.Persistence
