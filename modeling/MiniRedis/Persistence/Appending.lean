import MiniRedis.Persistence.AOF

/-!
# Persistence — Appending

Appends to a file that at times refuses a write.  What a replay finds is at every point what was
acknowledged (`appends_yield`).  But the buffered writer keeps its error: after one refusal every
append fails, however much room the file has by then, so that an append the file has room for is
acknowledged only if all before it were (`append_recovers_iff`).
-/

namespace MiniRedis.Persistence

open Protocol Files AOF Cmd

variable {path : Bytes} {mode : FsyncMode} {d : Disk Bytes UInt8} {old : List Value}
  {ts : List Attempt}

/-- **Replaying the file applies what was acknowledged**, behind what the file held. -/
theorem appends_yield (hmode : mode ≠ .always) (hold : ∀ c ∈ old, c.WellFormed)
    (hlog : (d.content path).getD [] = old.flatMap encode) (hts : ∀ t ∈ ts, t.cmd.WellFormed) :
    Yields ((appends ts (AOF.open path mode d)).2.content path)
      (old ++ acknowledged ts (AOF.open path mode d)) := by
  obtain ⟨hs, -, -, hack⟩ := (Intact.open mode hold hlog).appends rfl hts
  rw [hack hmode]
  exact hs.yields

/-- The next append is acknowledged if the file has had room for all so far. -/
theorem append_nil_iff (hmode : mode ≠ .always) (hold : ∀ c ∈ old, c.WellFormed)
    (hlog : (d.content path).getD [] = old.flatMap encode) {t : Attempt}
    (hts : ∀ u ∈ ts ++ [t], u.cmd.WellFormed) :
    (AOF.append t (appends ts (AOF.open path mode d))).2 = true ↔ ∀ u ∈ ts ++ [t], u.Fits := by
  obtain ⟨-, herr, -⟩ := (Intact.open mode hold hlog).appends rfl hts
  rw [appends_append] at herr
  rw [append_nil, mode_appends]
  exact ⟨fun h => herr.1 h.1, fun h => ⟨herr.2 h, fun hm => absurd hm hmode⟩⟩

/-- **Appends under write failures.**  In a session that does not sync on every append, a replay at
any point applies exactly what was acknowledged, without an error; and every append the file has
room for is acknowledged, if and only if none comes after one the file had no room for. -/
theorem append_recovers_iff (hmode : mode ≠ .always) (hold : ∀ c ∈ old, c.WellFormed)
    (hlog : (d.content path).getD [] = old.flatMap encode) (hts : ∀ t ∈ ts, t.cmd.WellFormed) :
    let s := AOF.open path mode d
    ((∀ pre, pre <+: ts → Yields ((appends pre s).2.content path) (old ++ acknowledged pre s)) ∧
        ∀ pre t post, ts = pre ++ t :: post → t.Fits → (AOF.append t (appends pre s)).2 = true) ↔
      ∀ pre t post, ts = pre ++ t :: post → t.Fits → ∀ u ∈ pre, u.Fits := by
  intro s
  have hwf : ∀ pre, pre <+: ts → ∀ t ∈ pre, t.cmd.WellFormed :=
    fun pre hpre t ht => hts t (hpre.subset ht)
  have hnext : ∀ pre t post, ts = pre ++ t :: post →
      ((AOF.append t (appends pre s)).2 = true ↔ ∀ u ∈ pre ++ [t], u.Fits) := by
    intro pre t post hsplit
    refine append_nil_iff hmode hold hlog (hwf _ ⟨post, ?_⟩)
    rw [hsplit, List.append_assoc, List.singleton_append]
  constructor
  · rintro ⟨-, hrecover⟩ pre t post hsplit hfit u hu
    exact (hnext pre t post hsplit).1 (hrecover pre t post hsplit hfit) u
      (List.mem_append_left _ hu)
  · intro hperm
    refine ⟨fun pre hpre => appends_yield hmode hold hlog (hwf pre hpre), ?_⟩
    intro pre t post hsplit hfit
    refine (hnext pre t post hsplit).2 fun u hu => ?_
    rcases List.mem_append.1 hu with hu | hu
    · exact hperm pre t post hsplit hfit u hu
    · rwa [List.mem_singleton.1 hu]

/-- A write cut short after five bytes, and one the file has all the room for. -/
def fullThenFree : List Attempt :=
  [⟨bulkCmd [txt "SET", txt "a", txt "1"], some 5, true⟩,
    ⟨bulkCmd [txt "SET", txt "b", txt "2"], none, true⟩]

/-- The second append fails, though the file has room for it, and its command is lost. -/
theorem append_stuck :
    let s := AOF.open (txt "aof") .everySec Disk.empty
    ∃ pre t, fullThenFree = pre ++ [t] ∧ t.Fits ∧ (AOF.append t (appends pre s)).2 = false ∧
      Yields ((appends fullThenFree s).2.content (txt "aof")) [] :=
  ⟨[⟨bulkCmd [txt "SET", txt "a", txt "1"], some 5, true⟩],
    ⟨bulkCmd [txt "SET", txt "b", txt "2"], none, true⟩, rfl, by decide, by decide +kernel,
    by decide +kernel⟩

/-- The file fills up for good at the second write. -/
def freeThenFull : List Attempt :=
  [⟨bulkCmd [txt "SET", txt "a", txt "1"], none, true⟩,
    ⟨bulkCmd [txt "SET", txt "b", txt "2"], some 5, true⟩]

/-- A disk that takes one command and part of the next. -/
theorem append_recovers_freeThenFull :
    let s := AOF.open (txt "aof") .everySec Disk.empty
    Yields ((appends freeThenFull s).2.content (txt "aof"))
        [bulkCmd [txt "SET", txt "a", txt "1"]] ∧
      ∀ pre t post, freeThenFull = pre ++ t :: post → t.Fits →
        (AOF.append t (appends pre s)).2 = true := by
  have hwf : ∀ t ∈ freeThenFull, t.cmd.WellFormed := by
    rintro t ht
    rcases List.mem_cons.1 ht with rfl | ht
    · exact bulkCmd_wellFormed (by decide) (by decide)
    · rw [List.mem_singleton.1 ht]
      exact bulkCmd_wellFormed (by decide) (by decide)
  refine ⟨by decide +kernel,
    ((append_recovers_iff (by decide) (List.forall_mem_nil _) rfl hwf).2 ?_).2⟩
  intro pre t post hsplit hfit u hu
  rcases pre with _ | ⟨v, pre⟩
  · cases hu
  · obtain ⟨rfl, hrest⟩ := List.cons.inj hsplit
    rcases pre with _ | ⟨v, pre⟩
    · rw [List.mem_singleton.1 hu]
      decide
    · have := congrArg List.length hrest
      simp at this

end MiniRedis.Persistence
