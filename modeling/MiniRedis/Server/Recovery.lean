import MiniRedis.Persistence.AOF
import MiniRedis.Server.Load
import MiniRedis.Support.Files
import MiniRedis.Support.Machine

/-!
# Server — Recovery

A server with a log, as a machine whose steps are those the process can be killed between:
requests that only read, at any time; writes, which take `writeMu`, are dispatched and appended,
the bytes of the frame reaching the file a few at a time; and `rewriteAOF`, which holds `writeMu`
from the snapshot to the reopened file.  The holder of `writeMu` is at a `Stage`; everybody else
only reads.

* `Node.Sound`: at every stage the file at the log's path holds the frames of commands that
  rebuild the keyspace, but for the one write that is being appended.
* `recovery`: **whenever the server is killed, loading the file rebuilds the live keyspace**, or
  the one before the write in flight.
-/

namespace MiniRedis.Server

open Protocol Store Cmd Reference Persistence Files Machine

/-- Where the holder of `writeMu` is. -/
inductive Stage where
  | free
  /-- A write holds the lock. -/
  | write (request : Value)
  /-- It has been dispatched, on the store `before`; `Append` still has to write `rest`. -/
  | appending (request : Value) (before : DB) (rest : Bytes)
  /-- `rewriteAOF` holds the lock. -/
  | rewrite
  | snapshotted (records : List SnapshotEntry)
  /-- The temporary file is open; `buffer` is not in it yet, `cmds` are not encoded yet. -/
  | writing (tmp : Nat) (buffer : Bytes) (cmds : List Value)
  | flushed
  | synced
  | closed
  | renamed
  /-- About to release the lock. -/
  | done

/-- The store, the disk, the file the log is open on, and where the holder of `writeMu` is. -/
structure Node where
  db : DB
  disk : Disk Bytes UInt8
  aof : Nat
  stage : Stage

/-- The steps. -/
inductive Label where
  | read (d : Dispatched)
  | connection (pubsub : Broker)
  | pass (now : Time) (start : Fin shardCount) (order : RangeOrder)
  | lockWrite (request : Value)
  | dispatch (now : Time) (order : RangeOrder)
  | append (chunk : Bytes)
  | appended
  | lockRewrite
  | snapshot (now : Time) (order : RangeOrder)
  | openTmp (clock : Bytes → Time)
  | encode
  | writeTmp (chunk : Bytes)
  | flush
  | sync
  | close
  | rename
  | reopen
  | unlock

/-- The request a connection submits with a step. -/
def Label.request? : Label → Option Value
  | .read d => some d.request
  | .lockWrite request => some request
  | _ => none

/-- One step of a server with its log at `path`. -/
inductive Step (path : Bytes) : Node → Label → Node → Prop where
  /-- The fast path of `applyRecord`. -/
  | read {s d} (h : isWrite (commandName d.request) = false) :
      Step path s (.read d) { s with db := (s.db.dispatch d.now d.order d.request).1 }
  /-- Subscriptions and deliveries, which concern the broker only. -/
  | connection {s pubsub} : Step path s (.connection pubsub) { s with db := { s.db with pubsub } }
  | pass {s now start order} :
      Step path s (.pass now start order)
        { s with db := (s.db.activeExpiryPass now start order).1 }
  | lockWrite {s request} (h : s.stage = .free) (hw : isWrite (commandName request) = true) :
      Step path s (.lockWrite request) { s with stage := .write request }
  /-- An error reply is not recorded. -/
  | dispatch {s request now order} (h : s.stage = .write request) :
      Step path s (.dispatch now order)
        { s with
          db := (s.db.dispatch now order request).1
          stage := if (s.db.dispatch now order request).2.isError then .done
            else .appending request s.db (Protocol.encode request) }
  | append {s request before chunk rest} (h : s.stage = .appending request before (chunk ++ rest)) :
      Step path s (.append chunk)
        { s with disk := s.disk.write s.aof chunk, stage := .appending request before rest }
  | appended {s request before} (h : s.stage = .appending request before []) :
      Step path s .appended { s with stage := .done }
  | lockRewrite {s} (h : s.stage = .free) : Step path s .lockRewrite { s with stage := .rewrite }
  | snapshot {s now order} (h : s.stage = .rewrite) :
      Step path s (.snapshot now order) { s with stage := .snapshotted (s.db.snapshot now order) }
  | openTmp {s records clock} (h : s.stage = .snapshotted records) :
      Step path s (.openTmp clock)
        { s with
          disk := (s.disk.openTrunc (Persistence.tmp path)).1
          stage := .writing (s.disk.openTrunc (Persistence.tmp path)).2 []
            (snapshotCommands clock records) }
  /-- The array of the next command has to be allocated. -/
  | encode {s tmp buffer c cmds} (h : s.stage = .writing tmp buffer (c :: cmds)) (hc : c.Fits) :
      Step path s .encode { s with stage := .writing tmp (buffer ++ Protocol.encode c) cmds }
  | writeTmp {s tmp chunk buffer cmds} (h : s.stage = .writing tmp (chunk ++ buffer) cmds) :
      Step path s (.writeTmp chunk)
        { s with disk := s.disk.write tmp chunk, stage := .writing tmp buffer cmds }
  | flush {s tmp} (h : s.stage = .writing tmp [] []) :
      Step path s .flush { s with stage := .flushed }
  | sync {s} (h : s.stage = .flushed) : Step path s .sync { s with stage := .synced }
  | close {s} (h : s.stage = .synced) : Step path s .close { s with stage := .closed }
  | rename {s} (h : s.stage = .closed) :
      Step path s .rename
        { s with disk := s.disk.rename (Persistence.tmp path) path, stage := .renamed }
  /-- The old file is flushed and closed; `Append` has left nothing in its buffer. -/
  | reopen {s} (h : s.stage = .renamed) :
      Step path s .reopen
        { s with
          disk := (s.disk.openAppend path).1
          aof := (s.disk.openAppend path).2
          stage := .done }
  | unlock {s} (h : s.stage = .done) : Step path s .unlock { s with stage := .free }

/-- A server that starts: it loads the log and opens it for appending. -/
def start (path : Bytes) (clock : Nat → Time) (order : Nat → RangeOrder)
    (disk : Disk Bytes UInt8) : Node where
  db := (loadAOF clock order (disk.content path) DB.new).1
  disk := (disk.openAppend path).1
  aof := (disk.openAppend path).2
  stage := .free

/-! ### The invariant -/

/-- The file at `p` holds the frames of commands that rebuild `ks`, with `tail` behind them. -/
def HoldsLog (disk : Disk Bytes UInt8) (p : Bytes) (ks : Keyspace) (tail : Bytes) : Prop :=
  ∃ cmds, disk.content p = some (cmds.flatMap encode ++ tail) ∧ Rebuilds cmds ks

/-- Commands that rebuild `ks` after `done`, and that are well-formed if they can be allocated. -/
structure Completes (done cmds : List Value) (ks : Keyspace) : Prop where
  wellFormed : ∀ c ∈ done, c.WellFormed
  oneLine : ∀ c ∈ cmds, c.OneLine
  timeless : ∀ c ∈ done ++ cmds, ¬ SetsDeadline c
  rebuild_eq : rebuild (done ++ cmds) (fun _ => none) = ks

/-- The next command of the rewrite is written. -/
theorem Completes.next {done cmds : List Value} {c : Value} {ks : Keyspace}
    (h : Completes done (c :: cmds) ks) (hc : c.Fits) : Completes (done ++ [c]) cmds ks := by
  have happ : done ++ [c] ++ cmds = done ++ c :: cmds := List.append_cons done c cmds |>.symm
  refine ⟨?_, fun d hd => h.oneLine d (List.mem_cons_of_mem _ hd), happ ▸ h.timeless,
    happ ▸ h.rebuild_eq⟩
  intro d hd
  rcases List.mem_append.1 hd with hd | hd
  · exact h.wellFormed d hd
  · rw [List.mem_singleton.1 hd]
    exact c.wellFormed_iff.2 ⟨h.oneLine c List.mem_cons_self, hc⟩

/-- With all of them written the temporary file rebuilds the keyspace. -/
theorem Completes.rebuilds {done : List Value} {ks : Keyspace} (h : Completes done [] ks) :
    Rebuilds done ks :=
  ⟨h.wellFormed, by simpa using h.timeless, by simpa using h.rebuild_eq⟩

/-- The log is open on the file at its path, which holds a log of `ks` with `tail` behind it. -/
structure Attached (path : Bytes) (disk : Disk Bytes UInt8) (aof : Nat) (ks : Keyspace)
    (tail : Bytes) : Prop where
  names : disk.names path = some aof
  log : HoldsLog disk path ks tail

namespace Attached

variable {path : Bytes} {disk : Disk Bytes UInt8} {aof : Nat} {ks : Keyspace} {tail : Bytes}

theorem write (h : Attached path disk aof ks tail) (chunk : Bytes) :
    Attached path (disk.write aof chunk) aof ks (tail ++ chunk) := by
  obtain ⟨hnames, cmds, hcontent, hcmds⟩ := h
  refine ⟨hnames, cmds, ?_, hcmds⟩
  rw [Disk.content_write hnames hcontent, List.append_assoc]

/-- A whole frame behind a log is one more command of it. -/
theorem commit {request : Value} (h : Attached path disk aof ks (encode request))
    (hwf : request.WellFormed) (hr : ¬ SetsDeadline request) :
    Attached path disk aof (effect 0 request ks) [] := by
  obtain ⟨hnames, cmds, hcontent, hcmds⟩ := h
  refine ⟨hnames, cmds ++ [request], ?_, hcmds.concat hwf hr⟩
  rw [hcontent, List.flatMap_append, List.flatMap_singleton, List.append_nil]

theorem openTmp (h : Attached path disk aof ks tail) :
    Attached path (disk.openTrunc (Persistence.tmp path)).1 aof ks tail := by
  obtain ⟨hnames, cmds, hcontent, hcmds⟩ := h
  have hne := tmp_ne path
  exact ⟨(Disk.names_openTrunc_of_ne hne).trans hnames, cmds,
    (Disk.content_openTrunc_of_ne hne).trans hcontent, hcmds⟩

/-- The temporary file is another file. -/
theorem writeTmp (h : Attached path disk aof ks tail) {tmp : Nat}
    (htmp : disk.names (Persistence.tmp path) = some tmp) (chunk : Bytes) :
    Attached path (disk.write tmp chunk) aof ks tail := by
  obtain ⟨hnames, cmds, hcontent, hcmds⟩ := h
  refine ⟨hnames, cmds, (Disk.content_write_of_ne fun h => ?_).trans hcontent, hcmds⟩
  exact (tmp_ne path).symm (disk.unlinked _ _ tmp htmp h)

end Attached

/-- What a stage says of the files, the live keyspace being `ks`. -/
def Stage.Sound (path : Bytes) (disk : Disk Bytes UInt8) (aof : Nat) (ks : Keyspace) :
    Stage → Prop
  | .free | .rewrite | .done => Attached path disk aof ks []
  | .write request =>
      Attached path disk aof ks [] ∧ request.WellFormed ∧ ¬ SetsDeadline request
  | .appending request before rest =>
      request.WellFormed ∧ ¬ SetsDeadline request ∧ before.Timeless ∧
        effect 0 request (before.keyspace 0) = ks ∧
        ∃ written, written ++ rest = encode request ∧
          Attached path disk aof (before.keyspace 0) written
  | .snapshotted records =>
      Attached path disk aof ks [] ∧ ∀ clock, Completes [] (snapshotCommands clock records) ks
  | .writing tmp buffer cmds =>
      Attached path disk aof ks [] ∧ disk.names (Persistence.tmp path) = some tmp ∧
        ∃ done content, disk.content (Persistence.tmp path) = some content ∧
          content ++ buffer = done.flatMap encode ∧ Completes done cmds ks
  | .flushed | .synced | .closed =>
      Attached path disk aof ks [] ∧ HoldsLog disk (Persistence.tmp path) ks []
  | .renamed => HoldsLog disk path ks []

/-- **The invariant**: no key has a deadline, and the files are as the stage says. -/
structure Node.Sound (path : Bytes) (s : Node) : Prop where
  timeless : s.db.Timeless
  stage : s.stage.Sound path s.disk s.aof (s.db.keyspace 0)

namespace Node.Sound

variable {path : Bytes} {s : Node}

/-- A store with the same keyspace is as good. -/
theorem of_keyspace (h : s.Sound path) {db : DB} (ht : db.Timeless)
    (hk : db.keyspace 0 = s.db.keyspace 0) : Node.Sound path { s with db } :=
  ⟨ht, by rw [hk]; exact h.stage⟩

theorem start (clock : Nat → Time) (order : Nat → RangeOrder) {disk : Disk Bytes UInt8}
    (h : disk.names path = none) : (Server.start path clock order disk).Sound path := by
  have hc : disk.content path = none := by rw [Disk.content, h]; rfl
  have hdb : (Server.start path clock order disk).db = DB.new := by
    simp only [Server.start, hc]
    rfl
  refine ⟨hdb ▸ .new _, ?_, [], ?_, ?_⟩
  · exact Disk.names_openAppend
  · rw [Server.start, Disk.content_openAppend, hc]
    rfl
  · rw [hdb]
    exact .nil

/-- A request that is not recorded. -/
theorem unrecorded (h : s.Sound path) {now : Time} {order : RangeOrder} {request : Value}
    (hr : ¬ SetsDeadline request) (hu : isWrite (commandName request) = false ∨
      (s.db.dispatch now order request).2.isError = true) :
    Node.Sound path { s with db := (s.db.dispatch now order request).1 } :=
  h.of_keyspace (h.timeless.dispatch hr) (h.timeless.keyspace_unrecorded hr hu 0)

/-- **One step keeps the invariant**, if the request submitted with it is a decoded one that sets
no deadline. -/
theorem step {l : Label} {s' : Node}
    (hl : ∀ r, l.request? = some r → Decoded r ∧ ¬ SetsDeadline r) (h : Step path s l s')
    (hs : s.Sound path) : s'.Sound path := by
  obtain ⟨ht, hstage⟩ := id hs
  cases h with
  | @read d hw => exact hs.unrecorded (hl d.request rfl).2 (.inl hw)
  | connection => exact hs.of_keyspace ⟨ht.routed, ht.entries⟩ rfl
  | @pass now start order =>
      have hr := DB.activeExpiryPass_reaped now start order s.db
      exact hs.of_keyspace (ht.reaped hr) (DB.Timeless.keyspace_reaped ht hr 0)
  | @lockWrite request h hw =>
      rw [h] at hstage
      exact ⟨ht, hstage, (hl request rfl).1.wellFormed, (hl request rfl).2⟩
  | @dispatch request now order h =>
      rw [h] at hstage
      obtain ⟨hlog, hwf, hr⟩ := hstage
      refine ⟨ht.dispatch hr, ?_⟩
      dsimp only
      split_ifs with he
      -- a write that failed is not logged, and has changed nothing
      · rw [ht.keyspace_unrecorded hr (.inr he)]
        exact hlog
      · exact ⟨hwf, hr, ht, (ht.keyspace_dispatch hr 0).symm, [], rfl, hlog⟩
  | @append request before chunk rest h =>
      rw [h] at hstage
      obtain ⟨hwf, hr, hb, hk, written, hw, hlog⟩ := hstage
      refine ⟨ht, hwf, hr, hb, hk, written ++ chunk, by rw [List.append_assoc, hw], ?_⟩
      exact hlog.write chunk
  | @appended request before h =>
      rw [h] at hstage
      obtain ⟨hwf, hr, -, hk, written, hw, hlog⟩ := hstage
      -- nothing is left to write: the bytes behind the log are the whole frame
      rw [List.append_nil] at hw
      subst hw
      exact ⟨ht, hk ▸ hlog.commit hwf hr⟩
  | lockRewrite h =>
      rw [h] at hstage
      exact ⟨ht, hstage⟩
  | @snapshot now order h =>
      rw [h] at hstage
      exact ⟨ht, hstage, fun clock => ⟨nofun, fun c hc => snapshotCommands_oneLine hc,
        fun c hc => snapshotCommands_timeless ht hc, rebuild_snapshot ht 0⟩⟩
  | @openTmp records clock h =>
      rw [h] at hstage
      obtain ⟨hlog, hc⟩ := hstage
      exact ⟨ht, hlog.openTmp, Disk.names_openTrunc, [], [], Disk.content_openTrunc, rfl, hc clock⟩
  | @encode tmp buffer c cmds h hc =>
      rw [h] at hstage
      obtain ⟨hlog, htmp, done, content, hcontent, hbytes, hcmds⟩ := hstage
      refine ⟨ht, hlog, htmp, done ++ [c], content, hcontent, ?_, hcmds.next hc⟩
      rw [← List.append_assoc, hbytes, List.flatMap_append, List.flatMap_singleton]
  | @writeTmp tmp chunk buffer cmds h =>
      rw [h] at hstage
      obtain ⟨hlog, htmp, done, content, hcontent, hbytes, hcmds⟩ := hstage
      refine ⟨ht, hlog.writeTmp htmp chunk, htmp, done, content ++ chunk, ?_, ?_, hcmds⟩
      · exact Disk.content_write htmp hcontent
      · rw [List.append_assoc, hbytes]
  | @flush tmp h =>
      rw [h] at hstage
      obtain ⟨hlog, htmp, done, content, hcontent, hbytes, hcmds⟩ := hstage
      refine ⟨ht, hlog, done, ?_, hcmds.rebuilds⟩
      rw [hcontent, ← hbytes]
      simp
  | sync h | close h =>
      rw [h] at hstage
      exact ⟨ht, hstage⟩
  | rename h =>
      rw [h] at hstage
      -- from here on the path names the new file, and the handle still the old one
      obtain ⟨-, cmds, hcontent, hcmds⟩ := hstage
      exact ⟨ht, cmds, Disk.content_rename.trans hcontent, hcmds⟩
  | reopen h =>
      rw [h] at hstage
      obtain ⟨cmds, hcontent, hcmds⟩ := hstage
      refine ⟨ht, Disk.names_openAppend, cmds, ?_, hcmds⟩
      rw [Disk.content_openAppend, hcontent]
      rfl
  | unlock h =>
      rw [h] at hstage
      exact ⟨ht, hstage⟩

end Node.Sound

/-! ### Loading the file -/

section Loads

variable {path : Bytes} {clock : Nat → Time} {order : Nat → RangeOrder}

/-- A log with what is left of a frame behind it is loaded to the keyspace. -/
theorem HoldsLog.loads {disk : Disk Bytes UInt8} {ks : Keyspace} {tail : Bytes}
    (h : HoldsLog disk path ks tail) (htail : codec.Tail tail) :
    ∃ db, loadAOF clock order (disk.content path) DB.new = (db, none) ∧
      ∀ t, db.keyspace t = ks := by
  obtain ⟨cmds, hcontent, hcmds⟩ := h
  rw [hcontent]
  exact loadAOF_log hcmds htail

/-- Every stage but that of an append has a log of the live keyspace at the path. -/
theorem Stage.Sound.holdsLog {disk : Disk Bytes UInt8} {aof : Nat} {ks : Keyspace} {stage : Stage}
    (h : stage.Sound path disk aof ks) :
    HoldsLog disk path ks [] ∨
      ∃ request before rest, stage = .appending request before rest := by
  cases stage with
  | appending request before rest => exact .inr ⟨request, before, rest, rfl⟩
  | free | rewrite | done => exact .inl h.log
  | write | snapshotted | writing | flushed | synced | closed => exact .inl h.1.log
  | renamed => exact .inl h

end Loads

/-- **Recovery.**  A server starts without a log file, and connections submit any decoded requests
but `EXPIRE` and `PEXPIRE`, with compactions at any time.  Whenever the process is killed, the
file at the path of its log is loaded without an error, at whatever clock readings, and the store
is the live keyspace: always if `writeMu` is free, and otherwise but for the one write whose
append is in progress, which may be missing. -/
theorem recovery (path : Bytes) (disk : Disk Bytes UInt8) (clock clock' : Nat → Time)
    (order order' : Nat → RangeOrder) (labels : List Label) (s : Node)
    (habsent : disk.names path = none)
    (hlabels : ∀ l ∈ labels, ∀ r, l.request? = some r → Decoded r ∧ ¬ SetsDeadline r)
    (hrun : Run (Step path) (start path clock order disk) labels s) (t : Time) :
    ∃ db, loadAOF clock' order' (s.disk.content path) DB.new = (db, none) ∧
      (s.stage = .free → db.keyspace t = s.db.keyspace t) ∧
      (db.keyspace t = s.db.keyspace t ∨
        ∃ request before rest, s.stage = .appending request before rest ∧
          db.keyspace t = before.keyspace t ∧
          ∀ now order, s.db.keyspace t = (before.dispatch now order request).1.keyspace t) := by
  obtain ⟨ht, hstage⟩ := hrun.preserves (fun _ _ _ hl h hs => Node.Sound.step hl h hs) hlabels
    (Node.Sound.start clock order habsent)
  have hlive := ht.keyspace_eq t 0
  rcases hstage.holdsLog with hlog | ⟨request, before, rest, hs⟩
  · obtain ⟨db, hload, hdb⟩ := hlog.loads (.inl rfl)
    exact ⟨db, hload, fun _ => (hdb t).trans hlive.symm, .inl ((hdb t).trans hlive.symm)⟩
  · rw [hs] at hstage ⊢
    obtain ⟨hwf, hr, hb, hk, written, hw, hatt⟩ := hstage
    by_cases hrest : rest = []
    · -- the whole frame is in the file
      subst hrest
      rw [List.append_nil] at hw
      subst hw
      obtain ⟨db, hload, hdb⟩ := (hatt.commit hwf hr).log.loads (.inl rfl)
      have heq : db.keyspace t = s.db.keyspace t := by rw [hdb t, hk, hlive]
      exact ⟨db, hload, fun _ => heq, .inl heq⟩
    · -- a part of it: the loader stops there, at the store before the write
      have htorn : Frames.Torn written (encode request) :=
        ⟨⟨rest, hw⟩, fun h => hrest (by simpa [h] using hw)⟩
      obtain ⟨db, hload, hdb⟩ := hatt.log.loads (.inr ⟨request, hwf, htorn⟩)
      refine ⟨db, hload, nofun, .inr ⟨request, before, rest, rfl, ?_, fun now order => ?_⟩⟩
      · rw [hdb t, hb.keyspace_eq t 0]
      · rw [hlive, ← hk, hb.keyspace_dispatch hr t, hb.keyspace_eq t 0]

/-- A write to be cut short. -/
def setHello : Value := bulkCmd [txt "SET", txt "k", txt "hello"]

/-- A server killed when 30 bytes of the frame have reached the file. -/
def tornAppend : Node where
  db := (DB.new.dispatch 0 .sorted setHello).1
  disk := (Disk.empty.openAppend (txt "aof")).1.write 0 ((encode setHello).take 30)
  aof := 0
  stage := .appending setHello DB.new ((encode setHello).drop 30)

/-- A server that is killed inside an `Append`. -/
theorem recovery_tornAppend :
    ∃ db, loadAOF (fun _ => 7) (fun _ => .sorted) (tornAppend.disk.content (txt "aof")) DB.new =
        (db, none) ∧
      (tornAppend.stage = .free → db.keyspace 9 = tornAppend.db.keyspace 9) ∧
      (db.keyspace 9 = tornAppend.db.keyspace 9 ∨
        ∃ request before rest, tornAppend.stage = .appending request before rest ∧
          db.keyspace 9 = before.keyspace 9 ∧
          ∀ now order, tornAppend.db.keyspace 9 =
            (before.dispatch now order request).1.keyspace 9) := by
  refine recovery (txt "aof") Disk.empty (fun _ => 0) (fun _ => 7) (fun _ => .sorted)
    (fun _ => .sorted)
    [.lockWrite setHello, .dispatch 0 .sorted, .append ((encode setHello).take 30)]
    tornAppend rfl ?_
    (.cons (.lockWrite rfl (by decide)) (.cons (.dispatch rfl) (.cons (.append rfl) (.nil _)))) 9
  intro l hl r hr
  simp only [List.mem_cons, List.not_mem_nil, or_false] at hl
  rcases hl with rfl | rfl | rfl <;> cases hr
  exact ⟨decoded_iff.2 (bulkCmd_wellFormed (by decide) (by decide)), by decide⟩

end MiniRedis.Server
