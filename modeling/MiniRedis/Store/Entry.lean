import Mathlib.Data.Finmap
import MiniRedis.Support.Decimal
import MiniRedis.Support.Maps

/-!
# Store — Entry

What one key maps to: a value of one of four kinds and an optional deadline
(`internal/db/entry.go`, and the deadline test of `internal/db/expiry.go`).

The source keeps a `kind` tag beside four fields of which one is meaningful; `Payload` is the
same data with the tag as the constructor.  Times are nanoseconds, the zero `time.Time` of a
persistent key is `none`, and byte slices are values: the source clones what it stores.
-/

namespace MiniRedis.Store

open Maps

/-- A clock reading, or a deadline, in nanoseconds. -/
abbrev Time := Int

/-- A `time.Duration`: nanoseconds in an int64. -/
abbrev Duration := Int64

/-- The value of an entry, under its kind. -/
inductive Payload where
  | str (value : Bytes)
  | list (items : List Bytes)
  | hash (fields : Dict Bytes Bytes)
  | set (members : Finset Bytes)
deriving DecidableEq

/-- An entry of the keyspace; `expireAt = none` is a persistent key. -/
structure Entry where
  payload : Payload
  expireAt : Option Time
deriving DecidableEq

/-- `Entry.expired`: the deadline has been reached (it is inclusive). -/
def Entry.expired (e : Entry) (t : Time) : Bool :=
  match e.expireAt with
  | none => false
  | some d => !(t < d)

theorem Entry.expired_iff {e : Entry} {t : Time} :
    e.expired t = true ↔ ∃ d, e.expireAt = some d ∧ d ≤ t := by
  unfold Entry.expired
  cases e.expireAt with
  | none => simp
  | some d => simp

/-- Once expired, always expired. -/
theorem Entry.expired_mono {e : Entry} {t u : Time} (h : t ≤ u) (he : e.expired t = true) :
    e.expired u = true := by
  obtain ⟨d, hd, hle⟩ := Entry.expired_iff.1 he
  exact Entry.expired_iff.2 ⟨d, hd, le_trans hle h⟩

/-! ### Kinds -/

/-- A kind with its field of the entry: how a value is stored under it, when an entry has it,
and the value a new entry of the kind starts with. -/
structure Kind (β : Type) where
  wrap : β → Payload
  unwrap : Payload → Option β
  empty : β
  unwrap_iff : ∀ p b, unwrap p = some b ↔ p = wrap b

/-- Strings. -/
def kindString : Kind Bytes where
  wrap := .str
  unwrap | .str b => some b | _ => none
  empty := []
  unwrap_iff p b := by cases p <;> simp

/-- Lists. -/
def kindList : Kind (List Bytes) where
  wrap := .list
  unwrap | .list l => some l | _ => none
  empty := []
  unwrap_iff p b := by cases p <;> simp

/-- Hashes. -/
def kindHash : Kind (Dict Bytes Bytes) where
  wrap := .hash
  unwrap | .hash m => some m | _ => none
  empty := ∅
  unwrap_iff p b := by cases p <;> simp

/-- Sets. -/
def kindSet : Kind (Finset Bytes) where
  wrap := .set
  unwrap | .set s => some s | _ => none
  empty := ∅
  unwrap_iff p b := by cases p <;> simp

/-- `ErrWrongType`, the one error of the store. -/
inductive StoreError where
  | wrongType
deriving DecidableEq

end MiniRedis.Store
