import MiniRedis.Server.Load
import MiniRedis.Support.Files

/-!
# Server — Sessions

Servers that run one after the other on the same log, each ended by a crash.  A session loads the
log, opens it for appending, and appends commands; the crash leaves some number of the bytes it
was writing.  `Open` appends behind whatever the file holds, so a frame torn by one crash is
followed by the frames of the next session, and is then read together with them.

* `sessions_recover`: as long as nothing is appended behind a torn frame, **every session starts
  and the log holds exactly the commands that were written whole**.
* `torn_frame_hides`: otherwise a later session's commands can be lost, and a command nobody sent
  be applied.
-/

namespace MiniRedis.Server

open Protocol Store Cmd Persistence Files Frames

/-- A session: the readings at which it loads the log, the commands it calls `Append` with, and
how many of their bytes are in the file when it crashes. -/
structure Session where
  clock : Nat → Time
  order : Nat → RangeOrder
  commands : List Value
  written : Nat

namespace Session

/-- The bytes a session leaves. -/
def bytes (s : Session) : Bytes := (s.commands.flatMap encode).take s.written

/-- The commands whose frames were completely written. -/
def complete (s : Session) : List Value := within encode s.commands s.written

/-- The crash fell between two frames. -/
def Clean (s : Session) : Prop := s.bytes = s.complete.flatMap encode

instance (s : Session) : Decidable s.Clean := inferInstanceAs (Decidable (_ = _))

/-- The disk after a session; a server whose log does not load does not start. -/
def run (path : Bytes) (disk : Disk Bytes UInt8) (s : Session) : Option (Disk Bytes UInt8) :=
  match (loadAOF s.clock s.order (disk.content path) DB.new).2 with
  | some _ => none
  | none => some ((disk.openAppend path).1.write (disk.openAppend path).2 s.bytes)

/-- The disk after sessions, one after the other. -/
def runAll (path : Bytes) : List Session → Disk Bytes UInt8 → Option (Disk Bytes UInt8)
  | [], disk => some disk
  | s :: ss, disk => (s.run path disk).bind (runAll path ss)

/-- A session leaves whole frames and at most one that is cut short. -/
theorem bytes_eq (s : Session) (h : ∀ c ∈ s.commands, Decoded c) :
    ∃ p, codec.Tail p ∧ s.bytes = s.complete.flatMap encode ++ p :=
  codec.take_flatMap s.commands s.written fun c hc => (h c hc).wellFormed

/-- A session that leaves no bytes has written no command. -/
theorem complete_eq_nil {s : Session} (h : ∀ c ∈ s.commands, Decoded c) (hb : s.bytes = []) :
    s.complete = [] := by
  obtain ⟨p, -, hp⟩ := s.bytes_eq h
  rw [hb, eq_comm, List.append_eq_nil_iff] at hp
  have hlen : s.complete.length ≤ (s.complete.flatMap encode).length :=
    codec.length_le_flatMap fun c hc => (h c (mem_of_mem_within hc)).wellFormed
  rw [hp.1] at hlen
  exact List.length_eq_zero_iff.1 (Nat.le_zero.1 hlen)

end Session

/-- The file at `path` holds the frames of `cmds`, and `p` behind them; a missing file is an empty
one. -/
def HoldsFrames (path : Bytes) (disk : Disk Bytes UInt8) (cmds : List Value) (p : Bytes) : Prop :=
  (disk.content path).getD [] = cmds.flatMap encode ++ p

section Recover

variable {path : Bytes} {disk : Disk Bytes UInt8} {cmds : List Value} {p : Bytes}

/-- Such a file is replayed to its whole frames. -/
theorem HoldsFrames.replay {σ : Type} (h : HoldsFrames path disk cmds p)
    (hwf : ∀ c ∈ cmds, c.WellFormed) (hp : codec.Tail p) (g : σ → Value → σ) (s : σ) :
    replay (fun s c => (g s c, none)) (disk.content path) s =
      (cmds.foldl g s, cmds.length, none) := by
  rw [replay_getD, h]
  exact replay_frames g s hwf hp

/-- A session on a log that loads: it starts, and its bytes are behind the others. -/
theorem Session.run_eq (h : HoldsFrames path disk cmds p) (hwf : ∀ c ∈ cmds, c.WellFormed)
    (hp : codec.Tail p) (s : Session) :
    ∃ disk', s.run path disk = some disk' ∧
      (disk'.content path).getD [] = cmds.flatMap encode ++ p ++ s.bytes := by
  have herr : (loadAOF s.clock s.order (disk.content path) DB.new).2 = none := by
    rw [loadAOF, h.replay hwf hp]
  refine ⟨_, by rw [Session.run, herr], ?_⟩
  rw [Disk.content_append, h]
  rfl

/-- **Sessions that append nothing behind a torn frame** all start, and leave the frames of their
complete commands. -/
theorem Session.runAll_eq : ∀ (ss : List Session) {disk : Disk Bytes UInt8} {cmds : List Value}
    {p : Bytes}, HoldsFrames path disk cmds p → (∀ c ∈ cmds, c.WellFormed) → codec.Tail p →
      (∀ s ∈ ss, ∀ c ∈ s.commands, Decoded c) → (∀ s ∈ ss, p = [] ∨ s.bytes = []) →
      (ss.Pairwise fun s s' => s.Clean ∨ s'.bytes = []) →
      ∃ disk' p', runAll path ss disk = some disk' ∧ codec.Tail p' ∧
        HoldsFrames path disk' (cmds ++ ss.flatMap complete) p' ∧
        ∀ c ∈ cmds ++ ss.flatMap complete, c.WellFormed
  | [], disk, cmds, p, h, hwf, hp, _, _, _ => by
      exact ⟨disk, p, rfl, hp, by simpa using h, by simpa using hwf⟩
  | s :: ss, disk, cmds, p, h, hwf, hp, hdec, hempty, hpair => by
      obtain ⟨hs, hss⟩ := List.forall_mem_cons.1 hdec
      obtain ⟨hps, hpss⟩ := List.forall_mem_cons.1 hempty
      obtain ⟨hclean, hrest⟩ := List.pairwise_cons.1 hpair
      obtain ⟨disk₁, hrun, hcontent⟩ := s.run_eq h hwf hp
      have hwf₁ : ∀ c ∈ cmds ++ s.complete, c.WellFormed := by
        intro c hc
        rcases List.mem_append.1 hc with hc | hc
        · exact hwf c hc
        · exact (hs c (mem_of_mem_within hc)).wellFormed
      -- what is behind the whole frames now: the session's own torn frame, or the one it found
      obtain ⟨p₁, hp₁, hfile, hempty₁⟩ : ∃ p₁, codec.Tail p₁ ∧
          HoldsFrames path disk₁ (cmds ++ s.complete) p₁ ∧ ∀ s' ∈ ss, p₁ = [] ∨ s'.bytes = [] := by
        rcases hps with rfl | hb
        · obtain ⟨p₁, hp₁, hbytes⟩ := s.bytes_eq hs
          refine ⟨p₁, hp₁, ?_, fun s' hs' => (hclean s' hs').imp_left fun hc => ?_⟩
          · rw [HoldsFrames, hcontent, hbytes]
            simp
          · rw [Clean, hbytes] at hc
            simpa using hc
        · refine ⟨p, hp, ?_, hpss⟩
          rw [HoldsFrames, hcontent, hb, complete_eq_nil hs hb]
          simp
      obtain ⟨disk', p', hrun', hp', hfile', hwf'⟩ :=
        runAll_eq ss hfile hwf₁ hp₁ hss hempty₁ hrest
      refine ⟨disk', p', ?_, hp', ?_, ?_⟩
      · rw [runAll, hrun]
        exact hrun'
      · rwa [List.flatMap_cons, ← List.append_assoc]
      · rwa [List.flatMap_cons, ← List.append_assoc]

end Recover

/-- **Recovery across crashes.**  On a log that does not exist yet, let any sessions run one after
the other, each ended by a crash at an arbitrary byte, such that a session that leaves any bytes
has only sessions before it whose crash fell between two frames.  Then every session starts, and
replaying the log they leave returns no error and applies exactly the commands whose frames were
completely written, in order. -/
theorem sessions_recover (path : Bytes) (disk : Disk Bytes UInt8) (ss : List Session)
    (habsent : disk.names path = none) (hdec : ∀ s ∈ ss, ∀ c ∈ s.commands, Decoded c)
    (hclean : ss.Pairwise fun s s' => s.Clean ∨ s'.bytes = []) :
    ∃ disk', Session.runAll path ss disk = some disk' ∧
      ∀ (σ : Type) (g : σ → Value → σ) (init : σ),
        replay (fun s c => (g s c, none)) (disk'.content path) init =
          ((ss.flatMap Session.complete).foldl g init, (ss.flatMap Session.complete).length,
            none) := by
  have hstart : HoldsFrames path disk [] [] := by
    rw [HoldsFrames, Disk.content, habsent]
    rfl
  obtain ⟨disk', p, hrun, hp, hfile, hwf⟩ :=
    Session.runAll_eq ss hstart (List.forall_mem_nil _) (.inl rfl) hdec (fun _ _ => .inl rfl) hclean
  exact ⟨disk', hrun, fun σ g init => hfile.replay hwf hp g init⟩

/-- A session that is killed in the middle of a value. -/
def tornSession : Session :=
  ⟨fun _ => 0, fun _ => .sorted, [bulkCmd [txt "SET", txt "k", txt "hello"]], 27⟩

/-- A session that is killed after its one command. -/
def wholeSession : Session :=
  ⟨fun _ => 1, fun _ => .sorted, [bulkCmd [txt "SET", txt "a", txt "b"]], 27⟩

/-- In this order nothing is lost. -/
theorem sessions_recover_tornLast :
    ∃ disk', Session.runAll (txt "aof") [wholeSession, tornSession] Disk.empty = some disk' ∧
      ∀ (σ : Type) (g : σ → Value → σ) (init : σ),
        replay (fun s c => (g s c, none)) (disk'.content (txt "aof")) init =
          (g init (bulkCmd [txt "SET", txt "a", txt "b"]), 1, none) := by
  refine sessions_recover (txt "aof") Disk.empty [wholeSession, tornSession] rfl ?_ (by decide)
  intro s hs c hc
  rcases List.mem_pair.1 hs with rfl | rfl <;> rw [List.mem_singleton.1 hc] <;>
    exact decoded_iff.2 (bulkCmd_wellFormed (by decide) (by decide))

/-- In the other order, the torn value swallows the beginning of the next frame: a third session
applies a `SET` nobody sent and does not apply the one that was written whole. -/
theorem torn_frame_hides :
    (∀ s ∈ [tornSession, wholeSession], ∀ c ∈ s.commands, Decoded c) ∧
      [tornSession, wholeSession].flatMap Session.complete =
        [bulkCmd [txt "SET", txt "a", txt "b"]] ∧
      (Session.runAll (txt "aof") [tornSession, wholeSession] Disk.empty).map (fun disk =>
          replay (fun cmds c => (cmds ++ [c], none)) (disk.content (txt "aof")) []) =
        some ([bulkCmd [txt "SET", txt "k", txt "hel*3"], .bulkString (some (txt "SET")),
          .bulkString (some (txt "a")), .bulkString (some (txt "b"))], 4, none) := by
  refine ⟨?_, by decide, by decide +kernel⟩
  intro s hs c hc
  rcases List.mem_pair.1 hs with rfl | rfl <;> rw [List.mem_singleton.1 hc] <;>
    exact decoded_iff.2 (bulkCmd_wellFormed (by decide) (by decide))

end MiniRedis.Server
