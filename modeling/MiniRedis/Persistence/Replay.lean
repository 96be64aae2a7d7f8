import MiniRedis.Protocol.RoundTrip

/-!
# Persistence — Replay

`Replay` of `internal/persistence/replay.go`: decode the log frame by frame and apply each
command, stopping without an error at the end of the file and at a torn last frame.  A missing
file is an empty history.

* `replay_frames`: whole frames and a torn one.
* `replay_cut`: **a log cut at any byte.**
-/

namespace MiniRedis.Persistence

open Protocol Frames

variable {σ : Type}

/-- `Replay` of the file's content: the state reached, the number of commands applied, and the
error if there was one. -/
def replay (apply : σ → Value → σ × Option DecodeError) (file : Option Bytes) (s : σ) :
    σ × Nat × Option DecodeError :=
  match file with
  | none => (s, 0, none)
  | some b => scan decode DecodeError.isEOF apply (b.length + 1) s b

/-- A missing file is as good as an empty one. -/
theorem replay_getD (apply : σ → Value → σ × Option DecodeError) (file : Option Bytes) (s : σ) :
    replay apply file s = replay apply (some (file.getD [])) s := by
  cases file <;> rfl

/-- A property that applying a command keeps survives the replay of any file. -/
theorem replay_preserves {apply : σ → Value → σ × Option DecodeError} {P : σ → Prop}
    (h : ∀ s c, P s → P (apply s c).1) (file : Option Bytes) {s : σ} (hs : P s) :
    P (replay apply file s).1 := by
  cases file with
  | none => exact hs
  | some b => exact scan_preserves h _ hs b

/-- **Replaying whole frames and a torn one** applies the commands of the whole ones, in order,
and returns no error. -/
theorem replay_frames (g : σ → Value → σ) (s : σ) {cmds : List Value}
    (h : ∀ c ∈ cmds, c.WellFormed) {p : Bytes} (hp : codec.Tail p) :
    replay (fun s c => (g s c, none)) (some (cmds.flatMap encode ++ p)) s =
      (cmds.foldl g s, cmds.length, none) := by
  refine codec.scan_frames g hp cmds s _ ?_ h
  have hlen : cmds.length ≤ (cmds.flatMap encode).length := codec.length_le_flatMap h
  rw [List.length_append]
  omega

/-! ### A log cut anywhere -/

/-- **Replaying the first `k` bytes of a log** applies the commands whose frames end at or before
byte `k` — the first `m` — in order, counts them and returns no error. -/
theorem replay_cut (g : σ → Value → σ) (s : σ) {cmds : List Value}
    (h : ∀ c ∈ cmds, c.WellFormed) (k : Nat) :
    ∃ m ≤ cmds.length,
      (∀ i ≤ cmds.length, i ≤ m ↔ ((cmds.take i).flatMap encode).length ≤ k) ∧
        replay (fun s c => (g s c, none)) (some ((cmds.flatMap encode).take k)) s =
          ((cmds.take m).foldl g s, m, none) := by
  obtain ⟨p, hp, hcut⟩ := codec.take_flatMap cmds k h
  obtain ⟨m, hm, hwithin, hends⟩ := @within_eq_take _ _ encode cmds k
  have htake : (cmds.flatMap encode).take k = (cmds.take m).flatMap encode ++ p :=
    hwithin ▸ hcut
  have hfirst : ∀ c ∈ cmds.take m, c.WellFormed := fun c hc => h c (List.mem_of_mem_take hc)
  refine ⟨m, hm, hends, ?_⟩
  rw [htake, replay_frames g s hfirst hp, List.length_take_of_le hm]

/-- The commands `*1 $4 PING` and `*1 *1 $2 \r\n`, cut inside the terminator of the second. -/
theorem replay_cut_terminator :
    let ping := Value.array [.bulkString (some (txt "PING"))]
    let nested := Value.array [.array [.bulkString (some crlf)]]
    replay (fun s c => (s ++ [c], none)) (some (([ping, nested].flatMap encode).take 29)) [] =
      ([ping], 1, none) := by
  intro ping nested
  have hping : decode (encode ping) = .ok (ping, []) := rfl
  have hnested : decode (encode nested) = .ok (nested, []) := rfl
  have hwf : ∀ c ∈ [ping, nested], c.WellFormed := by
    simp [decode_wellFormed hping, decode_wellFormed hnested]
  obtain ⟨m, hm, hends, h⟩ := replay_cut (fun s c => s ++ [c]) [] hwf 29
  have hfirst : 1 ≤ m := (hends 1 (by decide)).2 (by decide)
  have hsecond : ¬ 2 ≤ m := fun h2 => absurd ((hends 2 le_rfl).1 h2) (by decide)
  obtain rfl : m = 1 := by omega
  exact h

end MiniRedis.Persistence
