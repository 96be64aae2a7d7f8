import MiniRedis.Persistence.AOF
import MiniRedis.Replication.Primary

/-!
# Server — the logged form of a request

The log and the replica feeds hold a fresh encoding of the request that was decoded, not the bytes
the client sent, which may spell the same request in other ways: a signed or padded length, a
negative length other than `-1`, elements that are no bulk strings.

* `Stands`: a frame that stands for a request, wherever it is read back.
* `append_stands`, `propagate_stands`: what `Append` writes and `Propagate` queues.
* `reencode_lossless`: **nothing of a request is lost by decoding it and encoding it again.**
-/

namespace MiniRedis.Server

open Protocol Store Cmd Files Persistence Replication

/-- `Encode` after `Decode`. -/
def reencode (b : Bytes) : Except DecodeError Bytes := (decode b).map fun p => encode p.1

/-- Whatever is behind the frame, it is read back as one request, and that request has the effect of
`request` and its reply on every store, at any moment. -/
def Stands (frame : Bytes) (request : Value) : Prop :=
  ∀ rest, ∃ w, decode (frame ++ rest) = .ok (w, rest) ∧
    ∀ (db : DB) (now : Time) (order : RangeOrder),
      db.dispatch now order w = db.dispatch now order request

theorem stands_encode {v : Value} (h : v.WellFormed) : Stands (encode v) v :=
  fun rest => ⟨v, decode_encode v rest h, fun _ _ _ => rfl⟩

/-- What `Append` writes reads as the command, -/
theorem append_stands {a : AOF} (hw : a.w = .new) (d : Disk Bytes UInt8) {t : Attempt}
    (hfit : t.Fits) (h : t.cmd.WellFormed) :
    ∃ frame, (AOF.append t (a, d)).1.2 = d.write a.f frame ∧ Stands frame t.cmd :=
  ⟨encode t.cmd, by rw [append_new hw d hfit], stands_encode h⟩

/-- and so does what `Propagate` sends. -/
theorem propagate_stands {v : Value} (h : v.WellFormed) (replicas : Replicas) :
    ∃ frame, Stands frame v ∧
      ∀ id, (replicas.propagate v).reps id =
        (replicas.reps id).map fun rep => ⟨(rep.ch.send frame).1⟩ :=
  ⟨encode v, stands_encode h, fun _ => rfl⟩

/-- **Re-encoding a decoded request is lossless.**  However the client spelled the request, what was
decoded is well formed and is decoded again from its encoding; encoding after decoding does nothing
a second time; and the request that `applyRecord` hands to the log and to the replicas is put there
as a frame that stands for it. -/
theorem reencode_lossless {b r : Bytes} {v : Value} (h : decode b = .ok (v, r)) :
    v.WellFormed ∧ decode (encode v ++ r) = .ok (v, r) ∧
      (reencode b).bind reencode = reencode b ∧
      ∀ (aof any : Bool) (now : Time) (order : RangeOrder) (db : DB),
        (∀ cmd, (applyRecord aof any now order v db).appended = some cmd →
          ∀ (a : AOF) (d : Disk Bytes UInt8) (room : Option Nat) (syncs : Bool), a.w = .new →
            (Attempt.mk cmd room syncs).Fits →
              ∃ frame, (AOF.append ⟨cmd, room, syncs⟩ (a, d)).1.2 = d.write a.f frame ∧
                Stands frame v) ∧
        ∀ cmd, (applyRecord aof any now order v db).propagated = some cmd →
          ∀ replicas : Replicas, ∃ frame, Stands frame v ∧
            ∀ id, (replicas.propagate cmd).reps id =
              (replicas.reps id).map fun rep => ⟨(rep.ch.send frame).1⟩ := by
  have hwf := decode_wellFormed h
  refine ⟨hwf, decode_encode v r hwf, ?_, fun aof any now order db => ⟨?_, ?_⟩⟩
  · have hagain : decode (encode v) = .ok (v, []) := by
      simpa using decode_encode v [] hwf
    simp only [reencode, h, Except.map, Except.bind, hagain]
  · intro cmd hcmd a d room syncs hw hfit
    obtain rfl := applyRecord_handed (.inl hcmd)
    exact append_stands hw d hfit hwf
  · intro cmd hcmd replicas
    obtain rfl := applyRecord_handed (.inr hcmd)
    exact propagate_stands hwf replicas

/-- A `SET` with a signed length, a padded one, a simple string for its name and a null key. -/
theorem reencode_lossless_odd :
    let b := txt "*+3\r\n+set\r\n$-7\r\n$01\r\nv\r\n*1"
    let v := Value.array [.simpleString (txt "set"), .bulkString none, .bulkString (some (txt "v"))]
    decode b = .ok (v, txt "*1") ∧
      reencode b = .ok (txt "*3\r\n+set\r\n$-1\r\n$1\r\nv\r\n") ∧
      decode (encode v ++ txt "*1") = .ok (v, txt "*1") := by
  intro b v
  have h : decode b = .ok (v, txt "*1") := rfl
  have hagain : reencode b = .ok (encode v) := by rw [reencode, h]; rfl
  exact ⟨h, hagain, (reencode_lossless h).2.1⟩

end MiniRedis.Server
