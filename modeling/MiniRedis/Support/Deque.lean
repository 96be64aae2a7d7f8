import Mathlib.Data.List.Basic

/-!
# Support — Deque

A double-ended queue as a mathematical sequence: pushing and popping at both ends, the length, and
ranges between two indices of which a negative one counts from the end.

* `Op.apply`, `run`: what an operation, and a list of them, does to a sequence and answers.
* `between_eq`: a range is a stretch of the sequence.
-/

namespace MiniRedis.Deque

variable {α : Type*}

/-- The operations on a list. -/
inductive Op (α : Type*) where
  | pushFront (xs : List α)
  | pushBack (xs : List α)
  | popFront
  | popBack
  | length
  | range (start stop : Int)

/-- What an operation answers: a length, an element if there is one, or elements. -/
inductive Answer (α : Type*) where
  | count (n : Nat)
  | item (a : Option α)
  | items (as : List α)
deriving DecidableEq

/-- The index that `i` stands for in a sequence of length `n`. -/
def index (n : Nat) (i : Int) : Int := if i < 0 then i + n else i

/-- The elements at the indices from `start` to `stop`, in order. -/
def between (start stop : Int) (l : List α) : List α :=
  (l.zipIdx.filter fun p => index l.length start ≤ p.2 ∧ p.2 ≤ index l.length stop).map Prod.fst

/-- The elements pushed in front come one before the other. -/
def Op.apply : Op α → List α → List α × Answer α
  | .pushFront xs, l => (xs.reverse ++ l, .count (xs.length + l.length))
  | .pushBack xs, l => (l ++ xs, .count (l.length + xs.length))
  | .popFront, l => (l.tail, .item l.head?)
  | .popBack, l => (l.dropLast, .item l.getLast?)
  | .length, l => (l, .count l.length)
  | .range start stop, l => (l, .items (between start stop l))

/-- Operations one after the other, with their answers. -/
def run : List (Op α) → List α → List α × List (Answer α)
  | [], l => (l, [])
  | op :: ops, l =>
      let (l, a) := op.apply l
      let (l, as) := run ops l
      (l, a :: as)

theorem map_filter_zipIdx (a b : Int) :
    ∀ (l : List α) (k : Nat),
      ((l.zipIdx k).filter fun p => a ≤ p.2 ∧ p.2 ≤ b).map Prod.fst =
        (l.drop (a - k).toNat).take (b + 1 - max a k).toNat
  | [], k => by simp
  | x :: l, k => by
      have ih := map_filter_zipIdx a b l (k + 1)
      rw [List.zipIdx_cons, List.filter_cons]
      rcases Int.lt_or_le (k : Int) a with hlt | hge
      · -- before the stretch
        have hskip : (a - k).toNat = (a - (k + 1 : Nat)).toNat + 1 := by omega
        have hmax : max a k = max a (k + 1 : Nat) := by omega
        rw [if_neg (by simp; omega), ih, hskip, List.drop_succ_cons, hmax]
      · have hstart : (a - k).toNat = 0 := by omega
        have hstart' : (a - (k + 1 : Nat)).toNat = 0 := by omega
        rw [hstart, List.drop_zero]
        rw [hstart', List.drop_zero] at ih
        rcases Int.lt_or_le b (k : Int) with hgt | hle
        · -- behind it
          have hnone : (b + 1 - max a k).toNat = 0 := by omega
          have hnone' : (b + 1 - max a (k + 1 : Nat)).toNat = 0 := by omega
          rw [if_neg (by simp; omega), ih, hnone, hnone', List.take_zero, List.take_zero]
        · have hmore : (b + 1 - max a k).toNat = (b + 1 - max a (k + 1 : Nat)).toNat + 1 := by omega
          rw [if_pos (by simp; omega), List.map_cons, ih, hmore, List.take_succ_cons]

theorem between_eq (start stop : Int) (l : List α) :
    between start stop l =
      (l.drop (index l.length start).toNat).take
        (index l.length stop + 1 - max (index l.length start) 0).toNat := by
  simpa [between] using map_filter_zipIdx (index l.length start) (index l.length stop) l 0

end MiniRedis.Deque
