import MiniRedis.Server.Recovery
import MiniRedis.Support.Durable

/-!
# Server — Power loss

The server of `Recovery` in the mode that syncs the log on every append (`FsyncAlways`), on a disk
that can lose what was not synced.  `Append` syncs the log's file before it returns, and `Rewrite`
syncs the temporary file before it renames it; neither syncs the directory, so the entry that
`Open` or the rename made may be lost with everything appended since.

* `Powered.Sound.step`: whatever a power loss may leave at the log's path is a log of the live
  keyspace, up to the append in progress, as long as an append returns only when the directory
  durably names the log's file (`Powered.Settled`).
* `power_loss_recovers`: then **every acknowledged write survives a power loss**.
* `power_loss_forgets`: an acknowledged write that does not, in a log that was just created.
-/

namespace MiniRedis.Server

open Protocol Store Cmd Reference Persistence Files Machine

/-- A server and what a power loss may leave of its disk. -/
structure Powered where
  node : Node
  platter : Platter Bytes UInt8

/-- The file a step syncs: `Append` the log's, before it returns; `Rewrite` the temporary one. -/
def Label.syncs (path : Bytes) (s : Node) : Label → Option Nat
  | .appended => some s.aof
  | .sync => s.disk.names (Persistence.tmp path)
  | _ => none

/-- What a power loss may leave after a step of the server. -/
def Powered.after (path : Bytes) (s : Powered) (l : Label) (n : Node) : Platter Bytes UInt8 :=
  let m := s.platter.follow s.node.disk n.disk
  match l.syncs path s.node with
  | none => m
  | some i => m.syncFile n.disk i

/-- The steps: those of the server, and the operating system writing out the directory. -/
inductive PowerLabel where
  | server (l : Label)
  | syncDir

/-- A step of the server, with what reaches the platter, or the directory reaching it. -/
inductive PowerStep (path : Bytes) : Powered → PowerLabel → Powered → Prop where
  | server {s l n} (h : Step path s.node l n) :
      PowerStep path s (.server l) ⟨n, s.after path l n⟩
  | syncDir {s} :
      PowerStep path s .syncDir { s with platter := s.platter.syncDir s.node.disk }

/-- A server that starts on a disk where everything is safe. -/
def Powered.start (path : Bytes) (clock : Nat → Time) (order : Nat → RangeOrder)
    (disk : Disk Bytes UInt8) : Powered :=
  ⟨Server.start path clock order disk, (Platter.of disk).follow disk (disk.openAppend path).1⟩

/-- The directory durably names the log's file. -/
def Powered.Settled (path : Bytes) (s : Powered) : Prop :=
  ∀ names ∈ s.platter.dirs, names path = some s.node.aof

/-- An append returns only when the directory durably names the log's file. -/
def PowerLabel.Careful (path : Bytes) (s : Powered) (l : PowerLabel) : Prop :=
  l = .server .appended → s.Settled path

/-! ### What may be recovered -/

/-- The keyspaces a recovery may give: the live one, or the one before the append in progress. -/
def Node.Accepts (s : Node) (ks : Keyspace) : Prop :=
  ks = s.db.keyspace 0 ∨
    ∃ request before rest, s.stage = .appending request before rest ∧ ks = before.keyspace 0

/-- The file is a log of such a keyspace, with a torn frame behind it or not. -/
def Node.Recovers (s : Node) (file : Option Bytes) : Prop :=
  ∃ cmds tail ks, file.getD [] = cmds.flatMap encode ++ tail ∧ codec.Tail tail ∧
    Rebuilds cmds ks ∧ s.Accepts ks

/-- The file at the log's path is such a log. -/
theorem Node.Sound.recovers {path : Bytes} {s : Node} (h : s.Sound path) :
    s.Recovers (s.disk.content path) := by
  rcases h.stage.holdsLog with ⟨cmds, hc, hcmds⟩ | ⟨request, before, rest, hs⟩
  · exact ⟨cmds, [], _, by rw [hc]; rfl, .inl rfl, hcmds, .inl rfl⟩
  · have hstage := h.stage
    rw [hs] at hstage
    obtain ⟨hwf, hr, -, hk, written, hw, hatt⟩ := hstage
    by_cases hrest : rest = []
    · -- the whole frame is in the file
      subst hrest
      rw [List.append_nil] at hw
      subst hw
      obtain ⟨cmds, hc, hcmds⟩ := (hatt.commit hwf hr).log
      exact ⟨cmds, [], _, by rw [hc]; rfl, .inl rfl, hcmds, .inl hk⟩
    · have htorn : Frames.Torn written (encode request) :=
        ⟨⟨rest, hw⟩, fun h => hrest (by simpa [h] using hw)⟩
      obtain ⟨cmds, hc, hcmds⟩ := hatt.log
      exact ⟨cmds, written, _, by rw [hc]; rfl, .inr ⟨request, hwf, htorn⟩, hcmds,
        .inr ⟨request, before, rest, hs, rfl⟩⟩

namespace Node.Accepts

variable {s : Node} {ks : Keyspace}

/-- Unless a write is on its way, only the live keyspace is accepted. -/
theorem live (h : s.Accepts ks)
    (hs : ∀ request before rest, s.stage ≠ .appending request before rest) :
    ks = s.db.keyspace 0 := by
  rcases h with h | ⟨request, before, rest, hstage, -⟩
  · exact h
  · exact absurd hstage (hs request before rest)

/-- What is accepted depends on the keyspace alone. -/
theorem of_keyspace (h : s.Accepts ks) {db : DB} (hk : db.keyspace 0 = s.db.keyspace 0) :
    Node.Accepts { s with db } ks :=
  h.imp_left fun h => h.trans hk.symm

/-- **A step accepts what was accepted**, unless it is the return of an append. -/
theorem step {path : Bytes} {l : Label} {s' : Node}
    (hl : ∀ r, l.request? = some r → Decoded r ∧ ¬ SetsDeadline r) (h : Step path s l s')
    (hs : s.Sound path) (hne : l ≠ .appended) (ha : s.Accepts ks) : s'.Accepts ks := by
  cases h with
  | @read d hw =>
      exact ha.of_keyspace (hs.timeless.keyspace_unrecorded (hl d.request rfl).2 (.inl hw) 0)
  | connection => exact ha.of_keyspace rfl
  | @pass now start order =>
      exact ha.of_keyspace (DB.Timeless.keyspace_reaped hs.timeless
        (DB.activeExpiryPass_reaped now start order s.db) 0)
  | @dispatch request now order h =>
      have hlive := ha.live (by simp [h])
      have hstage := hs.stage
      rw [h] at hstage
      obtain ⟨-, -, hr⟩ := hstage
      by_cases he : (s.db.dispatch now order request).2.isError = true
      · left
        rw [hlive]
        exact (hs.timeless.keyspace_unrecorded hr (.inr he) 0).symm
      · exact .inr ⟨request, s.db, encode request, if_neg he, hlive⟩
  | append h =>
      rcases ha with ha | ⟨request, before, rest, hstage, ha⟩
      · exact .inl ha
      · rw [h] at hstage
        cases hstage
        exact .inr ⟨_, _, _, rfl, ha⟩
  | appended => exact absurd rfl hne
  | lockWrite h | lockRewrite h | snapshot h | openTmp h | encode h | writeTmp h | flush h
  | sync h | close h | rename h | reopen h | unlock h =>
      exact .inl (ha.live (by simp [h]))

end Node.Accepts

theorem Node.Recovers.step {path : Bytes} {s s' : Node} {l : Label} {file : Option Bytes}
    (hl : ∀ r, l.request? = some r → Decoded r ∧ ¬ SetsDeadline r) (h : Step path s l s')
    (hs : s.Sound path) (hne : l ≠ .appended) (hf : s.Recovers file) : s'.Recovers file := by
  obtain ⟨cmds, tail, ks, hfile, htail, hcmds, ha⟩ := hf
  exact ⟨cmds, tail, ks, hfile, htail, hcmds, ha.step hl h hs hne⟩

/-! ### What a step does to the disk -/

/-- The disk is as it was, or the log or the temporary file is written to, or the temporary file
is opened or renamed. -/
inductive DiskStep (path : Bytes) (s : Node) : Label → Node → Prop where
  | same {l n} (h : n.disk = s.disk) : DiskStep path s l n
  | append {n chunk} (hp : s.disk.names path = some s.aof)
      (h : n.disk = s.disk.write s.aof chunk) : DiskStep path s (.append chunk) n
  | writeTmp {n tmp chunk} (ht : s.disk.names (Persistence.tmp path) = some tmp)
      (h : n.disk = s.disk.write tmp chunk) : DiskStep path s (.writeTmp chunk) n
  | openTmp {n clock} (h : n.disk = (s.disk.openTrunc (Persistence.tmp path)).1) :
      DiskStep path s (.openTmp clock) n
  | rename {n} (hc : s.stage = .closed) (h : n.disk = s.disk.rename (Persistence.tmp path) path) :
      DiskStep path s .rename n

/-- A step of the server does to the disk one of few things. -/
theorem Step.diskStep {path : Bytes} {s n : Node} {l : Label} (h : Step path s l n)
    (hs : s.Sound path) : DiskStep path s l n := by
  have hstage := hs.stage
  cases h with
  | append h =>
      rw [h] at hstage
      obtain ⟨-, -, -, -, written, -, hatt⟩ := hstage
      exact .append hatt.names rfl
  | writeTmp h =>
      rw [h] at hstage
      exact .writeTmp hstage.2.1 rfl
  | openTmp h => exact .openTmp rfl
  | rename h => exact .rename h rfl
  | reopen h =>
      rw [h] at hstage
      obtain ⟨cmds, hc, -⟩ := hstage
      obtain ⟨i, hi⟩ := Disk.names_of_content hc
      exact .same (congrArg Prod.fst (Disk.openAppend_of_names hi))
  | read | connection | pass | lockWrite | dispatch | appended | lockRewrite | snapshot | encode
  | flush | sync | close | unlock => exact .same rfl

theorem DiskStep.next_le {path : Bytes} {s n : Node} {l : Label} (h : DiskStep path s l n) :
    s.disk.next ≤ n.disk.next := by
  cases h with
  | same h | append _ h | writeTmp _ h | rename _ h => exact le_of_eq (congrArg Disk.next h).symm
  | openTmp h =>
      rw [h]
      unfold Disk.openTrunc
      split
      · exact le_rfl
      · exact Nat.le_succ _

/-- The temporary file after a step is the one before, or a new one. -/
theorem DiskStep.tmp {path : Bytes} {s n : Node} {l : Label} (h : DiskStep path s l n) {i : Nat}
    (hi : n.disk.names (Persistence.tmp path) = some i) :
    s.disk.names (Persistence.tmp path) = some i ∨ s.disk.next ≤ i := by
  cases h with
  | same h | append _ h | writeTmp _ h =>
      rw [h] at hi
      exact .inl hi
  | openTmp h =>
      rw [h, Disk.names_openTrunc] at hi
      cases hi
      unfold Disk.openTrunc
      split
      · rename_i j hj
        exact .inl hj
      · exact .inr le_rfl
  | rename _ h =>
      rw [h, Disk.names_rename_old (tmp_ne path).symm] at hi
      cases hi

/-! ### The invariant -/

/-- **The invariant**: the node's, and whatever a power loss may leave at the log's path is a log
that may be recovered.  The temporary file was never at the log's path, and once it is synced a
power loss leaves it as it is. -/
structure Powered.Sound (path : Bytes) (s : Powered) : Prop where
  node : s.node.Sound path
  covers : s.platter.Covers s.node.disk
  tmp : ∀ names ∈ s.platter.dirs, ∀ i,
    s.node.disk.names (Persistence.tmp path) = some i → names path ≠ some i
  synced : s.node.stage = .synced ∨ s.node.stage = .closed → ∀ i,
    s.node.disk.names (Persistence.tmp path) = some i →
      ∀ b ∈ s.platter.files i, b = s.node.disk.data i
  found : ∀ file, s.platter.Leaves path file → s.node.Recovers file

namespace Powered.Sound

variable {path : Bytes} {s : Powered} {l : Label} {n : Node}

/-- The directories that may be left are those before, and the new one. -/
theorem mem_dirs {names : Bytes → Option Nat} (h : names ∈ (s.after path l n).dirs) :
    names = n.disk.names ∨ names ∈ s.platter.dirs := by
  unfold Powered.after at h
  cases hl : l.syncs path s.node with
  | none =>
      simp only [hl] at h
      exact List.mem_cons.1 h
  | some i =>
      simp only [hl] at h
      exact List.mem_cons.1 h

/-- The platter goes on covering the disk. -/
theorem covers_after (hs : s.Sound path) (h : DiskStep path s.node l n) :
    (s.after path l n).Covers n.disk := by
  have hfollow := hs.covers.follow h.next_le
  unfold Powered.after
  cases l.syncs path s.node with
  | none => exact hfollow
  | some i => exact hfollow.syncFile i

/-- No directory state has the temporary file at the log's path. -/
theorem tmp_after (hs : s.Sound path) (h : DiskStep path s.node l n) :
    ∀ names ∈ (s.after path l n).dirs, ∀ i,
      n.disk.names (Persistence.tmp path) = some i → names path ≠ some i := by
  intro names hn i hi hp
  rcases mem_dirs hn with rfl | hn
  · exact (tmp_ne path).symm (n.disk.unlinked _ _ i hi hp)
  · rcases h.tmp hi with hi | hlt
    · exact hs.tmp names hn i hi hp
    · exact absurd (hs.covers.used names hn path i hp) (Nat.not_lt.2 hlt)

/-- **What a power loss may leave after a step** it could leave before, or is what is there now. -/
theorem leaves_after (hs : s.Sound path) (h : DiskStep path s.node l n) {file : Option Bytes}
    (hl : (s.after path l n).Leaves path file) :
    s.platter.Leaves path file ∨ file = n.disk.content path := by
  have hfollow : (s.platter.follow s.node.disk n.disk).Leaves path file := by
    unfold Powered.after at hl
    cases hsync : l.syncs path s.node with
    | none => simpa only [hsync] using hl
    | some i =>
        simp only [hsync] at hl
        exact hl.of_syncFile (hs.covers.follow h.next_le)
  cases h with
  | same h =>
      rw [h] at hfollow
      exact .inl (hfollow.of_follow_self hs.covers)
  | append hp h =>
      rw [h] at hfollow ⊢
      rcases hfollow.of_follow_data hs.covers rfl (fun j hj => Function.update_of_ne hj _ _) with
        hl | ⟨-, hfile⟩
      · exact .inl hl
      · exact .inr (hfile.trans (Disk.content_eq (d := s.node.disk.write _ _) hp).symm)
  | writeTmp ht h =>
      rw [h] at hfollow
      rcases hfollow.of_follow_data hs.covers rfl (fun j hj => Function.update_of_ne hj _ _) with
        hl | ⟨⟨names, hn, hp⟩, -⟩
      · exact .inl hl
      · exact absurd hp (hs.tmp names hn _ ht)
  | openTmp h =>
      rw [h] at hfollow
      exact .inl (hfollow.of_openTrunc hs.covers (tmp_ne path) hs.tmp)
  | rename hc h =>
      rw [h] at hfollow ⊢
      exact hfollow.of_rename hs.covers (hs.synced (.inr hc))

/-- An append returns: its file has just been synced, and the directory names no other. -/
theorem leaves_appended (hn : n.disk = s.node.disk)
    (hp : s.node.disk.names path = some s.node.aof) (hc : s.Settled path) {file : Option Bytes}
    (hl : (s.after path .appended n).Leaves path file) : file = n.disk.content path := by
  obtain ⟨names, hmem, hl⟩ := hl
  have hnames : names path = some s.node.aof := by
    rcases mem_dirs hmem with rfl | hmem
    · rw [hn, hp]
    · exact hc names hmem
  rw [hnames] at hl
  rcases hl with ⟨hnone, -⟩ | ⟨i, b, hi, hb, rfl⟩
  · cases hnone
  · cases hi
    rw [Platter.mem_syncFile.1 hb, hn, Disk.content_eq hp]

/-- Once synced, the temporary file stays as it is. -/
theorem synced_after (hs : s.Sound path) (h : Step path s.node l n)
    (hstage : n.stage = .synced ∨ n.stage = .closed) (i : Nat)
    (hi : n.disk.names (Persistence.tmp path) = some i) :
    ∀ b ∈ (s.after path l n).files i, b = n.disk.data i := by
  have same : n.disk = s.node.disk → l.syncs path s.node = none →
      s.node.stage = .synced ∨ s.node.stage = .closed →
      ∀ b ∈ (s.after path l n).files i, b = n.disk.data i := by
    intro hn hsync hst b hb
    rw [hn] at hi ⊢
    simp only [Powered.after, hsync, Platter.follow, hn] at hb
    split at hb
    · rcases List.mem_cons.1 hb with rfl | hb
      · rfl
      · exact hs.synced hst i hi b hb
    · exact List.mem_singleton.1 hb
  cases h with
  | read | connection | pass => exact same rfl rfl hstage
  | sync h =>
      intro b hb
      have hsync : Label.syncs path s.node .sync = some i := hi
      simp only [Powered.after, hsync] at hb
      exact Platter.mem_syncFile.1 hb
  | close h => exact same rfl rfl (.inl h)
  | dispatch h =>
      dsimp only at hstage
      split at hstage <;> simp at hstage
  | lockWrite | append | appended | lockRewrite | snapshot | openTmp | encode | writeTmp | flush
  | rename | reopen | unlock => simp at hstage

/-- **A step keeps the invariant**, if an append returns only when the directory durably names the
log's file. -/
theorem step {l : PowerLabel} {s' : Powered}
    (hl : ∀ l', l = .server l' → ∀ r, l'.request? = some r → Decoded r ∧ ¬ SetsDeadline r)
    (h : PowerStep path s l s') (hcareful : l.Careful path s) (hs : s.Sound path) :
    s'.Sound path := by
  cases h with
  | @server l n h =>
      have hreq := hl l rfl
      have hnode := hs.node.step hreq h
      have hdisk := h.diskStep hs.node
      refine ⟨hnode, hs.covers_after hdisk, hs.tmp_after hdisk, hs.synced_after h, ?_⟩
      intro file hfile
      by_cases hl' : l = .appended
      · subst hl'
        have hstage := hs.node.stage
        cases h with
        | appended h =>
            rw [h] at hstage
            obtain ⟨-, -, -, -, written, -, hatt⟩ := hstage
            rw [leaves_appended rfl hatt.names (hcareful rfl) hfile]
            exact hnode.recovers
      · rcases hs.leaves_after hdisk hfile with hfile | rfl
        · exact (hs.found file hfile).step hreq h hs.node hl'
        · exact hnode.recovers
  | syncDir =>
      refine ⟨hs.node, hs.covers.syncDir, fun names hn i hi hp => ?_, hs.synced,
        fun file hfile => hs.found file (hfile.of_syncDir hs.covers)⟩
      rw [List.mem_singleton.1 hn] at hp
      exact (tmp_ne path).symm (s.node.disk.unlinked _ _ i hi hp)

end Powered.Sound

/-! ### Starting -/

theorem foldl_redo_isTimeless {clock : Nat → Time} {order : Nat → RangeOrder} (cmds : List Value)
    (h : ∀ c ∈ cmds, ¬ SetsDeadline c) {s : DB × Nat} (hs : s.1.Timeless) :
    (cmds.foldl (redo clock order) s).1.Timeless := by
  induction cmds generalizing s with
  | nil => exact hs
  | cons c cmds ih =>
      exact ih (fun d hd => h d (List.mem_cons_of_mem _ hd))
        (hs.dispatch (h c List.mem_cons_self))

/-- A server that starts on a log of whole frames that set no deadline, or on none. -/
theorem Node.Sound.resume {path : Bytes} {disk : Disk Bytes UInt8} {old : List Value}
    (clock : Nat → Time) (order : Nat → RangeOrder) (hwf : ∀ c ∈ old, c.WellFormed)
    (htimeless : ∀ c ∈ old, ¬ SetsDeadline c)
    (hlog : (disk.content path).getD [] = old.flatMap encode) :
    (Server.start path clock order disk).Sound path := by
  have hload : loadAOF clock order (disk.content path) DB.new =
      ((old.foldl (redo clock order) (DB.new, 0)).1, none) := by
    have hframes := @loadAOF_frames clock order DB.new old hwf [] (.inl rfl)
    rw [List.append_nil, ← hlog] at hframes
    rw [← hframes, loadAOF, loadAOF, ← replay_getD]
  have hdb : (Server.start path clock order disk).db =
      (old.foldl (redo clock order) (DB.new, 0)).1 := congrArg Prod.fst hload
  have hks := @foldl_redo_timeless clock order old (DB.new, 0) htimeless (.new _) 0
  refine ⟨?_, Disk.names_openAppend, old, ?_, ⟨hwf, htimeless, ?_⟩⟩
  · rw [hdb]
    exact foldl_redo_isTimeless old htimeless (.new _)
  · rw [Server.start, Disk.content_openAppend, hlog, List.append_nil]
  · rw [hdb, hks]
    rfl

theorem Powered.Sound.start {path : Bytes} {disk : Disk Bytes UInt8} {old : List Value}
    (clock : Nat → Time) (order : Nat → RangeOrder) (hwf : ∀ c ∈ old, c.WellFormed)
    (htimeless : ∀ c ∈ old, ¬ SetsDeadline c)
    (hlog : (disk.content path).getD [] = old.flatMap encode) :
    (Powered.start path clock order disk).Sound path := by
  have hnode := Node.Sound.resume clock order hwf htimeless hlog
  have hnext : disk.next ≤ (disk.openAppend path).1.next := by
    unfold Disk.openAppend
    split
    · exact le_rfl
    · exact Nat.le_succ _
  refine ⟨hnode, (Platter.Covers.of disk).follow hnext, fun names hn i hi hp => ?_, fun h => ?_,
    fun file hfile => ?_⟩
  · have hi' : disk.names (Persistence.tmp path) = some i :=
      (Disk.names_openAppend_of_ne (tmp_ne path).symm).symm.trans hi
    rcases List.mem_cons.1 hn with rfl | hn
    · exact (tmp_ne path).symm (Disk.unlinked _ _ _ i hi hp)
    · rw [List.mem_singleton.1 hn] at hp
      exact (tmp_ne path).symm (disk.unlinked _ _ i hi' hp)
  · rcases h with h | h <;> cases h
  · -- both files that may be left hold the old log
    obtain ⟨cmds, tail, ks, hcontent, hrest⟩ := hnode.recovers
    refine ⟨cmds, tail, ks, ?_, hrest⟩
    rw [← hcontent]
    change file.getD [] = ((disk.openAppend path).1.content path).getD []
    rcases hfile.of_openAppend with rfl | rfl
    · rw [Disk.content_openAppend]
      rfl
    · rfl

/-- **Power loss.**  A server that syncs the log on every append starts on a log of whole frames, or
on none, and connections submit any decoded requests but `EXPIRE` and `PEXPIRE`, with compactions
at any time.  If an append returns only when the directory durably names the log's file, then
whenever the power is lost, the file that is left at the log's path, if any, is loaded without an
error and gives the live keyspace, but for the one write whose append has not returned, which may
be missing. -/
theorem power_loss_recovers (path : Bytes) (disk : Disk Bytes UInt8) (old : List Value)
    (clock clock' : Nat → Time) (order order' : Nat → RangeOrder) (labels : List PowerLabel)
    (s : Powered) (hold : ∀ c ∈ old, Decoded c ∧ ¬ SetsDeadline c)
    (hlog : (disk.content path).getD [] = old.flatMap encode)
    (hlabels : ∀ l, .server l ∈ labels → ∀ r, l.request? = some r → Decoded r ∧ ¬ SetsDeadline r)
    (hrun : Run (fun s l s' => PowerStep path s l s' ∧ l.Careful path s)
      (Powered.start path clock order disk) labels s)
    (file : Option Bytes) (hloss : s.platter.Leaves path file) (t : Time) :
    ∃ db, loadAOF clock' order' file DB.new = (db, none) ∧
      (db.keyspace t = s.node.db.keyspace t ∨
        ∃ request before rest, s.node.stage = .appending request before rest ∧
          db.keyspace t = before.keyspace t ∧
          ∀ now order, s.node.db.keyspace t =
            (before.dispatch now order request).1.keyspace t) := by
  have hs : s.Sound path := hrun.preserves
    (G := fun l => ∀ l', l = .server l' → ∀ r, l'.request? = some r → Decoded r ∧ ¬ SetsDeadline r)
    (fun _ _ _ hl h hs => hs.step hl h.1 h.2)
    (fun l hl l' hl' => hlabels l' (hl' ▸ hl))
    (.start clock order (fun c hc => (hold c hc).1.wellFormed) (fun c hc => (hold c hc).2) hlog)
  obtain ⟨cmds, tail, ks, hfile, htail, hcmds, ha⟩ := hs.found file hloss
  obtain ⟨db, hload, hdb⟩ := @loadAOF_log clock' order' cmds ks hcmds tail htail
  refine ⟨db, ?_, ?_⟩
  · rw [← hload, ← hfile, loadAOF, loadAOF, ← replay_getD]
  · rcases ha with rfl | ⟨request, before, rest, hst, rfl⟩
    · exact .inl ((hdb t).trans (hs.node.timeless.keyspace_eq 0 t))
    · have hstage := hs.node.stage
      rw [hst] at hstage
      obtain ⟨-, hr, hb, hk, -⟩ := hstage
      refine .inr ⟨request, before, rest, hst, (hdb t).trans (hb.keyspace_eq 0 t), ?_⟩
      intro now order
      rw [hs.node.timeless.keyspace_eq t 0, ← hk, hb.keyspace_dispatch hr t, hb.keyspace_eq t 0]

/-- One write, from the lock to the return of its append and the release of the lock. -/
def wholeWrite : List PowerLabel :=
  [.server (.lockWrite setHello), .server (.dispatch 0 .sorted),
    .server (.append (encode setHello)), .server .appended, .server .unlock]

/-- The server when the frame is in the file and `Append` has not returned. -/
def appendingHello (path : Bytes) (s : Powered) : Powered :=
  let n₁ : Node := { s.node with stage := .write setHello }
  let n₂ : Node :=
    { n₁ with
      db := (s.node.db.dispatch 0 .sorted setHello).1
      stage := .appending setHello s.node.db (encode setHello) }
  let n₃ : Node :=
    { n₂ with
      disk := s.node.disk.write s.node.aof (encode setHello)
      stage := .appending setHello s.node.db [] }
  let s₁ : Powered := ⟨n₁, s.after path (.lockWrite setHello) n₁⟩
  let s₂ : Powered := ⟨n₂, s₁.after path (.dispatch 0 .sorted) n₂⟩
  ⟨n₃, s₂.after path (.append (encode setHello)) n₃⟩

/-- The server after the write. -/
def wroteHello (path : Bytes) (s : Powered) : Powered :=
  let s₃ := appendingHello path s
  let n₄ : Node := { s₃.node with stage := .done }
  let n₅ : Node := { n₄ with stage := .free }
  let s₄ : Powered := ⟨n₄, s₃.after path .appended n₄⟩
  ⟨n₅, s₄.after path .unlock n₅⟩

/-- The run of the write, under any condition on the steps that its steps meet. -/
theorem run_wholeWrite {path : Bytes} {s : Powered} {C : Powered → PowerLabel → Prop}
    (h : s.node.stage = .free) (hC : ∀ s l, l ≠ .server .appended → C s l)
    (hret : C (appendingHello path s) (.server .appended)) :
    Run (fun s l s' => PowerStep path s l s' ∧ C s l) s wholeWrite (wroteHello path s) := by
  have hrest : (Stage.appending setHello s.node.db (encode setHello)) =
      .appending setHello s.node.db (encode setHello ++ []) := by rw [List.append_nil]
  exact .cons ⟨.server (.lockWrite h (by decide)), hC _ _ (by simp)⟩
    (.cons ⟨.server (.dispatch rfl), hC _ _ (by simp)⟩
      (.cons ⟨.server (.append hrest), hC _ _ (by simp)⟩
        (.cons ⟨.server (.appended rfl), hret⟩
          (.cons ⟨.server (.unlock rfl), hC _ _ (by simp)⟩ (.nil _)))))

/-- A server with no log yet. -/
def freshServer : Powered :=
  Powered.start (txt "aof") (fun _ => 0) (fun _ => .sorted) Disk.empty

/-- A write to a log that was just created is acknowledged, and the power loss takes the file. -/
theorem power_loss_forgets :
    ∃ s, Run (PowerStep (txt "aof")) freshServer wholeWrite s ∧ s.node.stage = .free ∧
      s.platter.Leaves (txt "aof") none ∧ (s.node.db.keyspace 0 (txt "k")).isSome ∧
      (loadAOF (fun _ => 0) (fun _ => .sorted) none DB.new).1.keyspace 0 (txt "k") = none := by
  have hrun : Run (PowerStep (txt "aof")) freshServer wholeWrite
      (wroteHello (txt "aof") freshServer) :=
    (run_wholeWrite (C := fun _ _ => True) rfl (fun _ _ _ => trivial) trivial).mono
      fun _ _ _ h => h.1
  refine ⟨_, hrun, rfl, ⟨(Disk.empty : Disk Bytes UInt8).names, ?_, .inl ⟨rfl, rfl⟩⟩,
    by decide +kernel, rfl⟩
  simp [wroteHello, appendingHello, Powered.after, Label.syncs, Platter.follow, Platter.syncFile,
    freshServer, Powered.start, Platter.of]

/-- The server without a log once its directory is written out. -/
def settledServer : Powered :=
  { freshServer with platter := freshServer.platter.syncDir freshServer.node.disk }

/-- A write whose `Append` has returned. -/
theorem power_loss_recovers_wholeWrite :
    let s := wroteHello (txt "aof") settledServer
    let file := s.node.disk.content (txt "aof")
    s.platter.Leaves (txt "aof") file ∧
      ∃ db, loadAOF (fun _ => 7) (fun _ => .sorted) file DB.new = (db, none) ∧
        db.keyspace 9 = s.node.db.keyspace 9 := by
  intro s file
  have hret : (PowerLabel.server .appended).Careful (txt "aof")
      (appendingHello (txt "aof") settledServer) := by
    rintro - names hn
    have hmem : names ∈ List.replicate 4 freshServer.node.disk.names := hn
    rw [List.eq_of_mem_replicate hmem]
    rfl
  have hloss : s.platter.Leaves (txt "aof") file :=
    ⟨s.node.disk.names, List.mem_cons_self, .inr ⟨0, _, rfl, List.mem_cons_self, rfl⟩⟩
  have hlabels : ∀ l, PowerLabel.server l ∈ PowerLabel.syncDir :: wholeWrite → ∀ r,
      l.request? = some r → Decoded r ∧ ¬ SetsDeadline r := by
    intro l hl r hr
    simp only [wholeWrite, List.mem_cons, List.not_mem_nil, or_false, reduceCtorEq,
      PowerLabel.server.injEq, false_or] at hl
    rcases hl with rfl | rfl | rfl | rfl | rfl <;> cases hr
    exact ⟨decoded_iff.2 (bulkCmd_wellFormed (by decide) (by decide)), by decide⟩
  obtain ⟨db, hload, hdb⟩ := power_loss_recovers (txt "aof") Disk.empty [] (fun _ => 0)
    (fun _ => 7) (fun _ => .sorted) (fun _ => .sorted) (.syncDir :: wholeWrite) s
    (List.forall_mem_nil _) rfl hlabels
    (.cons ⟨.syncDir, fun h => by cases h⟩
      (run_wholeWrite (C := fun s l => l.Careful (txt "aof") s) rfl
        (fun _ _ hne h => absurd h hne) hret)) file hloss 9
  refine ⟨hloss, db, hload, hdb.resolve_right ?_⟩
  rintro ⟨request, before, rest, hstage, -⟩
  cases hstage

end MiniRedis.Server
