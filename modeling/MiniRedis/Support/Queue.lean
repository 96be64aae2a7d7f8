import Mathlib.Data.List.Forall2

/-!
# Support — Queue

A bounded channel with a sender that never waits: `send` appends when there is room and
otherwise leaves the queue alone and says so.  The bound is a field, so a queue over its
capacity cannot be built.

`Tracks` keeps a queue next to a record of what was sent through it: what is in the queue is what
the record has from the number of the items taken on.
-/

namespace MiniRedis

/-- A first-in first-out queue of at most `cap` items. -/
structure Queue (cap : Nat) (α : Type*) where
  items : List α
  bounded : items.length ≤ cap
deriving DecidableEq

namespace Queue

variable {cap : Nat} {α : Type*}

@[ext] theorem ext : ∀ {q q' : Queue cap α}, q.items = q'.items → q = q'
  | ⟨_, _⟩, ⟨_, _⟩, rfl => rfl

/-- The queue a channel is made with. -/
def empty : Queue cap α := ⟨[], Nat.zero_le _⟩

instance : Inhabited (Queue cap α) := ⟨empty⟩

/-- Whether a send would find no room. -/
def full (q : Queue cap α) : Bool := cap ≤ q.items.length

/-- The non-blocking send: whether the item went in. -/
def send (q : Queue cap α) (a : α) : Queue cap α × Bool :=
  if h : q.items.length < cap then
    (⟨q.items ++ [a], by rw [List.length_append]; exact h⟩, true)
  else (q, false)

/-- The receive: nothing on an empty queue. -/
def recv : Queue cap α → Option (α × Queue cap α)
  | ⟨[], _⟩ => none
  | ⟨a :: l, h⟩ => some (a, ⟨l, Nat.le_of_succ_le h⟩)

/-- A send to a full queue is dropped. -/
theorem send_items (q : Queue cap α) (a : α) :
    (q.send a).1.items = if q.full then q.items else q.items ++ [a] := by
  unfold send full
  by_cases h : q.items.length < cap
  · simp [h, Nat.not_le.2 h]
  · simp [h, Nat.not_lt.1 h]

/-- What is received is the first of the items. -/
theorem recv_eq_some {q q' : Queue cap α} {a : α} :
    q.recv = some (a, q') ↔ q.items = a :: q'.items := by
  rcases q with ⟨_ | ⟨b, l⟩, hq⟩
  · simp [recv]
  · simp only [recv, Option.some.injEq, Prod.mk.injEq, List.cons.injEq, Queue.ext_iff]

end Queue

/-! ### A record of a queue -/

section Tracks

variable {α β : Type*} {R R' : α → β → Prop} {sent : List α} {taken : Nat} {items : List β}

/-- The items in a queue belong to what was sent and not yet taken. -/
structure Tracks (R : α → β → Prop) (sent : List α) (taken : Nat) (items : List β) : Prop where
  le : taken ≤ sent.length
  items : List.Forall₂ R (sent.drop taken) items

namespace Tracks

theorem mono (h : Tracks R sent taken items) (hR : ∀ a b, R a b → R' a b) :
    Tracks R' sent taken items := ⟨h.le, h.items.imp hR⟩

/-- What is sent is tracked at the end, -/
theorem send (h : Tracks R sent taken items) {a : α} {b : β} (hab : R a b) :
    Tracks R (sent ++ [a]) taken (items ++ [b]) where
  le := by
    rw [List.length_append]
    exact Nat.le_add_right_of_le h.le
  items := by
    rw [List.drop_append_of_le_length h.le]
    exact List.rel_append h.items (.cons hab .nil)

/-- and what is received is the next that was sent. -/
theorem recv {b : β} (h : Tracks R sent taken (b :: items)) :
    Tracks R sent (taken + 1) items ∧ ∃ a, sent[taken]? = some a ∧ R a b := by
  have hitems := h.items
  cases hdrop : sent.drop taken with
  | nil =>
      rw [hdrop] at hitems
      cases hitems
  | cons a rest =>
      rw [hdrop] at hitems
      obtain ⟨hab, hrest⟩ := List.forall₂_cons.1 hitems
      have hlt : taken < sent.length := by
        by_contra hge
        rw [List.drop_eq_nil_of_le (Nat.not_lt.1 hge)] at hdrop
        cases hdrop
      have hget : sent[taken]? = some a := by
        rw [← List.head?_drop, hdrop]
        rfl
      refine ⟨⟨hlt, ?_⟩, a, hget, hab⟩
      rw [← List.tail_drop, hdrop]
      exact hrest

/-- Nothing was sent, so nothing is there. -/
theorem items_eq_nil (h : Tracks R [] taken items) : items = [] := by
  have hitems := h.items
  rw [List.drop_nil] at hitems
  exact List.forall₂_nil_left_iff.1 hitems

end Tracks

end Tracks

end MiniRedis
