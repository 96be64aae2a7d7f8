import MiniRedis.Persistence.AOF

/-!
# Persistence — Swapping

`Rewrite` under failures of its file operations.  Up to the rename a failure leaves the log as it
was; from the reopened file on the log is the snapshot.  In between there is a gap: the path names
the snapshot, and the handle is still the old file, which has no name any more.  A rewrite that
ends there (`Faults.Swaps` and no `reopen`) leaves a log whose appends are acknowledged and lost.

* `Intact.rewrite_before`, `Intact.rewrite_after`, `not_keeps_between`: the three outcomes.
* `rewrite_keeps_iff`: **a rewrite costs no durability, unless the reopening fails.**
-/

namespace MiniRedis.Persistence

open Protocol Store Files Buffered Cmd AOF

/-- Every operation up to and including the rename succeeds. -/
structure Faults.Swaps (F : Faults) (snap : List Value) : Prop where
  openTmp : F.openTmp = true
  fits : Buffered.Fits F.room (snap.flatMap encode).length
  sync : F.sync = true
  close : F.close = true
  rename : F.rename = true

/-! ### The temporary file -/

section WriteTmp

variable {path : Bytes} {cmds : List Value} {room : Option Nat} {d : Disk Bytes UInt8}

/-- The log keeps its name while the temporary file is written. -/
theorem names_writeTmp : (writeTmp path cmds room d).2.names path = d.names path :=
  Disk.names_openTrunc_of_ne (tmp_ne path)

/-- Writing the temporary file does not touch the log. -/
theorem content_writeTmp : (writeTmp path cmds room d).2.content path = d.content path := by
  refine (Disk.content_write_of_ne fun h => ?_).trans (Disk.content_openTrunc_of_ne (tmp_ne path))
  exact tmp_ne path (Disk.unlinked _ _ _ _ h Disk.names_openTrunc)

/-- With room for all commands the temporary file holds them, -/
theorem writeTmp_ok (h : Buffered.Fits room (cmds.flatMap encode).length) :
    (writeTmp path cmds room d).1 = .new ∧
      (writeTmp path cmds room d).2.content (tmp path) = some (cmds.flatMap encode) := by
  obtain ⟨hnew, ht⟩ := sendAll_ok bufSize (cmds.flatMap pieces)
    (by rw [flatten_flatMap_pieces]; exact h)
  refine ⟨hnew, ?_⟩
  rw [flatten_flatMap_pieces] at ht
  simp only [writeTmp, ht]
  exact Disk.content_write Disk.names_openTrunc Disk.content_openTrunc

/-- and without the writer has an error. -/
theorem writeTmp_refused (h : ¬ Buffered.Fits room (cmds.flatMap encode).length) :
    (writeTmp path cmds room d).1.err = true :=
  (sendAll_refused bufSize (cmds.flatMap pieces) (by rw [flatten_flatMap_pieces]; exact h)).1

end WriteTmp

/-! ### The three outcomes -/

section Outcomes

variable {path : Bytes} {cmds : List Value} {a : AOF} {d : Disk Bytes UInt8}
  {clock : Bytes → Time} {records : List SnapshotEntry} {F : Faults}

/-- **A rewrite that does not get to the rename** leaves the log as it was. -/
theorem rewrite_before (hF : ¬ F.Swaps (snapshotCommands clock records)) :
    let s := (AOF.rewrite path clock records F (a, d)).1
    s.1 = a ∧ s.2.names path = d.names path ∧ s.2.content path = d.content path := by
  unfold AOF.rewrite
  rcases ho : F.openTmp with _ | _
  · exact ⟨rfl, rfl, rfl⟩
  · have hstop : ((writeTmp path (snapshotCommands clock records) F.room d).1.err || !F.sync ||
        !F.close || !F.rename) = true := by
      by_contra hgo
      simp only [Bool.or_eq_true, Bool.not_eq_true', not_or, Bool.not_eq_false] at hgo
      obtain ⟨⟨⟨herr, hsync⟩, hclose⟩, hrename⟩ := hgo
      refine hF ⟨ho, ?_, hsync, hclose, hrename⟩
      by_contra hfit
      exact herr (writeTmp_refused hfit)
    simp only [Bool.not_true, Bool.false_eq_true, if_false, hstop, if_true]
    rcases F.remove with _ | _
    · exact ⟨trivial, names_writeTmp, content_writeTmp⟩
    · exact ⟨trivial, (Disk.names_remove_of_ne (tmp_ne path)).trans names_writeTmp,
        (Disk.content_remove_of_ne (tmp_ne path)).trans content_writeTmp⟩

/-- A rewrite that fails before its rename leaves the log as it was. -/
theorem Intact.rewrite_before (h : Intact path cmds (a, d))
    (hF : ¬ F.Swaps (snapshotCommands clock records)) :
    Intact path cmds (AOF.rewrite path clock records F (a, d)).1 := by
  obtain ⟨ha, hnames, hcontent⟩ := @Persistence.rewrite_before path a d clock records F hF
  rw [show (AOF.rewrite path clock records F (a, d)).1 =
    (a, (AOF.rewrite path clock records F (a, d)).1.2) from Prod.ext ha rfl]
  exact h.of_same hnames hcontent

/-- The disk once the snapshot has been renamed to the path. -/
def swapped (path : Bytes) (snap : List Value) (room : Option Nat) (d : Disk Bytes UInt8) :
    Disk Bytes UInt8 :=
  (writeTmp path snap room d).2.rename (tmp path) path

/-- After the rename the path holds the snapshot. -/
theorem content_swapped {snap : List Value} {room : Option Nat}
    (h : Buffered.Fits room (snap.flatMap encode).length) :
    (swapped path snap room d).content path = some (snap.flatMap encode) :=
  Disk.content_rename.trans (writeTmp_ok h).2

/-- The old file has lost its name. -/
theorem names_swapped {snap : List Value} {room : Option Nat} (h : d.names path = some a.f) :
    (swapped path snap room d).names path ≠ some a.f := by
  intro hf
  rw [swapped, Disk.names_rename] at hf
  exact tmp_ne path (Disk.unlinked _ _ _ _ (names_writeTmp.trans h) hf)

/-- A rewrite that gets past its rename leaves the log on the new file, if it can be opened. -/
theorem rewrite_swaps (hF : F.Swaps (snapshotCommands clock records)) :
    (AOF.rewrite path clock records F (a, d)).1 =
      let d := swapped path (snapshotCommands clock records) F.room d
      if F.reopen then
        ({ a with f := (d.openAppend path).2, w := .new },
          (d.openAppend path).1.write a.f (flush (a.w, ⟨[], F.oldRoom⟩)).2.taken)
      else (a, d) := by
  unfold AOF.rewrite
  have herr : (writeTmp path (snapshotCommands clock records) F.room d).1.err = false := by
    rw [(writeTmp_ok hF.fits).1]
    rfl
  simp only [hF.openTmp, hF.sync, hF.close, hF.rename, herr, Bool.not_true, Bool.or_self,
    Bool.false_eq_true, if_false, swapped]
  rcases F.reopen with _ | _ <;> rfl

/-- **A rewrite that gets to the end** leaves the log on the snapshot, with a new writer. -/
theorem Intact.rewrite_after (h : Intact path cmds (a, d))
    (hwf : ∀ c ∈ snapshotCommands clock records, c.WellFormed)
    (hF : F.Swaps (snapshotCommands clock records)) (hr : F.reopen = true) :
    Intact path (snapshotCommands clock records) (AOF.rewrite path clock records F (a, d)).1 ∧
      (AOF.rewrite path clock records F (a, d)).1.1.w.err = false := by
  have hc : (swapped path _ F.room d).content path = _ := content_swapped hF.fits
  obtain ⟨i, hi⟩ := Disk.names_of_content hc
  have hne : i ≠ a.f := fun e => names_swapped h.names (e ▸ hi)
  rw [rewrite_swaps hF, hr]
  simp only [if_true, Disk.openAppend_of_names hi]
  refine ⟨⟨hi, hwf, fun _ => ⟨rfl, ?_⟩, fun h' => absurd h' Bool.false_ne_true⟩, rfl⟩
  refine (Disk.content_write_of_ne ?_).trans hc
  rw [hi]
  exact fun e => hne (Option.some.inj e)

end Outcomes

/-! ### Later appends -/

/-- After a rewrite the log at `path` is the whole old log or the whole snapshot; the log is not
open on a temporary file, nor does the path name one; and what is acknowledged from then on is
behind it, in order. -/
def Keeps (path : Bytes) (old snap : List Value) (s : AOF × Disk Bytes UInt8) : Prop :=
  ∃ base, (base = old ∨ base = snap) ∧ Yields (s.2.content path) base ∧
    (∀ i, s.2.names (tmp path) = some i → s.1.f ≠ i ∧ s.2.names path ≠ some i) ∧
    ∀ later : List Attempt, (∀ t ∈ later, t.cmd.WellFormed) →
      ∃ more, Yields ((appends later s).2.content path) (base ++ more) ∧
        (acknowledged later s).Sublist more

/-- An intact log keeps what it has. -/
theorem Intact.keeps {path : Bytes} {base old snap : List Value} {s : AOF × Disk Bytes UInt8}
    (h : Intact path base s) (hbase : base = old ∨ base = snap) : Keeps path old snap s := by
  refine ⟨base, hbase, h.yields, fun i hi => ?_, fun later hwf => ?_⟩
  · have hne : s.2.names path ≠ some i :=
      fun hp => tmp_ne path (s.2.unlinked _ _ i hp hi)
    exact ⟨fun hf => hne (hf ▸ h.names), hne⟩
  · rcases he : s.1.w.err with _ | _
    · obtain ⟨hs, -, hsub, -⟩ := h.appends he hwf
      exact ⟨landed later, hs.yields, hsub⟩
    · obtain ⟨hs, hack⟩ := appends_of_err he later
      refine ⟨[], ?_, ?_⟩
      · rw [hs, List.append_nil]
        exact h.yields
      · rw [hack]

/-- The commands a snapshot is written as are not `PING`. -/
theorem ping_not_mem_snapshot {clock : Bytes → Time} {records : List SnapshotEntry} :
    bulkCmd [txt "PING"] ∉ snapshotCommands clock records := by
  intro h
  obtain ⟨r, -, hr⟩ := List.mem_flatMap.1 h
  have hname : ∀ name ∈ [txt "SET", txt "RPUSH", txt "HSET", txt "SADD"], name ≠ txt "PING" := by
    decide
  have hexpire : bulkCmd [txt "PING"] ∉ encodeExpire (clock r.key) r := by
    unfold encodeExpire
    split
    · exact List.not_mem_nil
    · simp [bulkCmd]
  rcases encodeRecord_cases (clock r.key) r with he | ⟨name, hmem, args, he⟩
  · rw [he] at hr
    cases hr
  · rw [he] at hr
    rcases List.mem_cons.1 hr with heq | hr
    · simp only [bulkCmd, List.map_cons, Value.array.injEq, List.cons.injEq,
        Value.bulkString.injEq, Option.some.injEq] at heq
      exact hname name hmem heq.1.symm
    · exact hexpire hr

/-- **Between the rename and the reopening** the log is the snapshot, and the handle a file
without a name: an append is acknowledged, and is not in the log. -/
theorem not_keeps_between {path : Bytes} {old snap : List Value} {a : AOF} {d : Disk Bytes UInt8}
    (hw : a.w = .new) (hnames : d.names path ≠ some a.f) (hsnap : Yields (d.content path) snap)
    (hping : bulkCmd [txt "PING"] ∉ snap) : ¬ Keeps path old snap (a, d) := by
  rintro ⟨base, -, -, -, hlater⟩
  have hwf : (bulkCmd [txt "PING"]).WellFormed := bulkCmd_wellFormed (by decide) (by decide)
  obtain ⟨more, hy, hsub⟩ := hlater [⟨bulkCmd [txt "PING"], none, true⟩]
    (List.forall_mem_singleton.2 hwf)
  have happ : (AOF.append ⟨bulkCmd [txt "PING"], none, true⟩ (a, d)).2 = true := by
    rw [append_nil, append_new hw d fun r h => by cases h]
    exact ⟨congrArg Writer.err hw, fun _ => rfl⟩
  have hack : acknowledged [⟨bulkCmd [txt "PING"], none, true⟩] (a, d) =
      [bulkCmd [txt "PING"]] := by
    rw [acknowledged, happ]
    rfl
  rw [hack] at hsub
  have hfile : (appends [⟨bulkCmd [txt "PING"], none, true⟩] (a, d)).2.content path =
      d.content path := Disk.content_write_of_ne hnames
  rw [hfile] at hy
  have hmem : bulkCmd [txt "PING"] ∈ base ++ more :=
    List.mem_append_right _ (hsub.subset (List.mem_singleton_self _))
  rw [hy.unique hsnap] at hmem
  exact hping hmem

/-- **A rewrite costs no durability unless the reopening fails.**  After any appends to a log of
whole frames, some of them refused, and a rewrite whose file operations fail in any pattern, the
log is kept, if and only if the path was reopened in case it was renamed to, or the writer had an
error before and acknowledges nothing anyway. -/
theorem rewrite_keeps_iff {path : Bytes} {mode : FsyncMode} {d : Disk Bytes UInt8}
    {old : List Value} {earlier : List Attempt} {clock : Bytes → Time}
    {records : List SnapshotEntry} (hold : ∀ c ∈ old, c.WellFormed)
    (hlog : (d.content path).getD [] = old.flatMap encode)
    (hearlier : ∀ t ∈ earlier, t.cmd.WellFormed)
    (hfits : ∀ c ∈ snapshotCommands clock records, c.Fits) (F : Faults) :
    let s := appends earlier (AOF.open path mode d)
    let snap := snapshotCommands clock records
    Keeps path (old ++ landed earlier) snap (AOF.rewrite path clock records F s).1 ↔
      (F.Swaps snap → F.reopen = true ∨ s.1.w.err = true) := by
  intro s snap
  have hwf : ∀ c ∈ snap, c.WellFormed := fun c hc =>
    c.wellFormed_iff.2 ⟨snapshotCommands_oneLine hc, hfits c hc⟩
  obtain ⟨hs, -⟩ : Intact path (old ++ landed earlier) s ∧ _ :=
    (Intact.open mode hold hlog).appends rfl hearlier
  rcases hsplit : s with ⟨a, d'⟩
  rw [hsplit] at hs
  by_cases hF : F.Swaps snap
  · have hc : (swapped path snap F.room d').content path = _ := content_swapped hF.fits
    have hy : Yields ((swapped path snap F.room d').content path) snap := by
      rw [hc, ← List.append_nil (snap.flatMap encode)]
      exact yields_frames hwf (.inl rfl)
    rcases hr : F.reopen with _ | _
    · rw [rewrite_swaps hF, hr]
      simp only [Bool.false_eq_true, if_false, false_or, hF, forall_const]
      rcases he : a.w.err with _ | _
      · simp only [Bool.false_eq_true, iff_false]
        exact not_keeps_between (hs.sound he).1 (names_swapped hs.names) hy ping_not_mem_snapshot
      · -- nothing is acknowledged any more
        simp only [iff_true]
        refine ⟨snap, .inr rfl, hy, fun i hi => ?_, fun later _ => ⟨[], ?_, ?_⟩⟩
        · rw [swapped, Disk.names_rename_old (tmp_ne path).symm] at hi
          cases hi
        · rw [(appends_of_err he later).1, List.append_nil]
          exact hy
        · rw [(appends_of_err he later).2]
    · simp only [true_or, implies_true, iff_true]
      exact (hs.rewrite_after hwf hF hr).1.keeps (.inr rfl)
  · simp only [hF, false_imp_iff, iff_true]
    exact (hs.rewrite_before hF).keeps (.inl rfl)

/-- A log with one command, and the record of its key. -/
def oneKey : AOF × Disk Bytes UInt8 :=
  appends [⟨bulkCmd [txt "SET", txt "a", txt "1"], none, true⟩]
    (AOF.open (txt "aof") .everySec Disk.empty)

/-- The snapshot of a store with one key. -/
def oneRecord : List SnapshotEntry := [⟨txt "a", .str (txt "1"), none⟩]

/-- All goes well until the path is to be reopened. -/
def reopenFails : Faults := ⟨true, none, true, true, true, true, false, none⟩

/-- The next append is acknowledged, and the log at the path does not have it. -/
theorem append_lost_after_rewrite :
    let s := (AOF.rewrite (txt "aof") (fun _ => 0) oneRecord reopenFails oneKey).1
    let t : Attempt := ⟨bulkCmd [txt "SET", txt "b", txt "2"], none, true⟩
    (AOF.append t s).2 = true ∧
      Yields ((AOF.append t s).1.2.content (txt "aof")) [bulkCmd [txt "SET", txt "a", txt "1"]] :=
  ⟨by decide +kernel, by decide +kernel⟩

/-- The rename fails, and the temporary file cannot be removed either. -/
def renameFails : Faults := ⟨true, none, true, true, false, false, true, none⟩

/-- A rewrite whose rename fails. -/
theorem rewrite_keeps_renameFails :
    Keeps (txt "aof") [bulkCmd [txt "SET", txt "a", txt "1"]]
      (snapshotCommands (fun _ => 0) oneRecord)
      (AOF.rewrite (txt "aof") (fun _ => 0) oneRecord renameFails oneKey).1 := by
  have hwf : (bulkCmd [txt "SET", txt "a", txt "1"]).WellFormed :=
    bulkCmd_wellFormed (by decide) (by decide)
  refine (@rewrite_keeps_iff (txt "aof") .everySec Disk.empty []
    [⟨bulkCmd [txt "SET", txt "a", txt "1"], none, true⟩] (fun _ => 0) oneRecord
    (List.forall_mem_nil _) rfl (List.forall_mem_singleton.2 hwf) ?_ renameFails).2 fun hF => ?_
  · intro c hc
    rw [List.mem_singleton.1 hc]
    exact (Value.wellFormed_iff _).1 hwf |>.2
  · cases hF.rename

end MiniRedis.Persistence
