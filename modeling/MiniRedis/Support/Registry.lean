import MiniRedis.Support.Maps

/-!
# Support — Registry

A map from topics to the lists of those enrolled on them.  A missing entry is the empty list;
enrolling appends, and withdrawing puts the last of the list into the gap and drops the entry of
an empty list.

* `count_enrol`, `count_withdraw`: what the two do to how often one is enrolled on a topic.
* `Trim.enrol`, `Trim.withdraw`: no entry is an empty list.
-/

namespace MiniRedis.Registry

open Maps

variable {κ ι : Type*} [DecidableEq κ]

section SwapOut

variable [DecidableEq ι]

/-- The list without the first `a`, with the last element in its place. -/
def swapOut (a : ι) (l : List ι) : List ι :=
  if a ∈ l then (l.set (l.idxOf a) (l.getLastD a)).dropLast else l

/-- The order apart, that is the list without the first `a`. -/
theorem swapOut_perm (a : ι) (l : List ι) : (swapOut a l).Perm (l.erase a) := by
  unfold swapOut
  split
  case isFalse h => rw [List.erase_of_not_mem h]
  case isTrue h =>
    obtain ⟨pre, post, rfl, hpre⟩ := List.eq_append_cons_of_mem h
    rw [List.idxOf_append_of_notMem hpre, List.idxOf_cons_self, List.erase_append_right _ hpre,
      List.erase_cons_head, Nat.add_zero, List.set_append_right _ _ le_rfl, Nat.sub_self,
      List.set_cons_zero]
    rcases List.eq_nil_or_concat post with rfl | ⟨q, z, rfl⟩
    · simp
    · -- the last element moves from behind `q` to before it
      have hlast : (pre ++ a :: (q ++ [z])).getLastD a = z := by
        rw [← List.cons_append, ← List.append_assoc, List.getLastD_concat]
      have hdrop : (pre ++ z :: (q ++ [z])).dropLast = pre ++ z :: q := by
        rw [← List.cons_append, ← List.append_assoc, List.dropLast_concat]
      rw [List.concat_eq_append, hlast, hdrop]
      exact (List.perm_append_singleton z q).symm.append_left pre

end SwapOut

/-- Those enrolled on a topic. -/
def enrolled (r : Dict κ (List ι)) (k : κ) : List ι := (r.lookup k).getD []

/-- The member is added at the end of the key's list. -/
def enrol (k : κ) (a : ι) (r : Dict κ (List ι)) : Dict κ (List ι) :=
  r.insert k (enrolled r k ++ [a])

/-- The member is taken out of the key's list, and the key with its last member. -/
def withdraw [DecidableEq ι] (k : κ) (a : ι) (r : Dict κ (List ι)) : Dict κ (List ι) :=
  if swapOut a (enrolled r k) = [] then r.erase k else r.insert k (swapOut a (enrolled r k))

/-- No topic has an empty list. -/
def Trim (r : Dict κ (List ι)) : Prop := ∀ k l, r.lookup k = some l → l ≠ []

variable {r : Dict κ (List ι)}

/-- A member is added to one key alone. -/
theorem enrolled_enrol (k : κ) (a : ι) (r : Dict κ (List ι)) (k' : κ) :
    enrolled (enrol k a r) k' = if k' = k then enrolled r k ++ [a] else enrolled r k' := by
  unfold enrolled enrol
  rw [lookup_insert_ite]
  split <;> rfl

theorem Trim.enrol (h : Trim r) (k : κ) (a : ι) : Trim (enrol k a r) := by
  intro k' l hl
  rw [Registry.enrol, lookup_insert_ite] at hl
  split at hl
  · cases hl
    exact List.append_ne_nil_of_right_ne_nil _ (List.cons_ne_nil a [])
  · exact h k' l hl

variable [DecidableEq ι]

/-- A member is taken out of one key alone. -/
theorem enrolled_withdraw (k : κ) (a : ι) (r : Dict κ (List ι)) (k' : κ) :
    enrolled (withdraw k a r) k' = if k' = k then swapOut a (enrolled r k) else enrolled r k' := by
  unfold withdraw
  split
  case isTrue h =>
    rw [enrolled, lookup_erase_ite]
    split
    · rw [h]; rfl
    · rfl
  case isFalse =>
    rw [enrolled, lookup_insert_ite]
    split <;> rfl

/-- One more of the member at the key, -/
theorem count_enrol (k : κ) (a : ι) (r : Dict κ (List ι)) (k' : κ) (b : ι) :
    (enrolled (enrol k a r) k').count b =
      (enrolled r k').count b + if k' = k ∧ b = a then 1 else 0 := by
  rw [enrolled_enrol]
  by_cases hk : k' = k
  · subst hk
    rw [if_pos rfl, List.count_append, List.count_singleton]
    simp only [beq_iff_eq, true_and, @eq_comm _ a b]
  · simp [hk]

/-- and one less. -/
theorem count_withdraw (k : κ) (a : ι) (r : Dict κ (List ι)) (k' : κ) (b : ι) :
    (enrolled (withdraw k a r) k').count b =
      (enrolled r k').count b - if k' = k ∧ b = a then 1 else 0 := by
  rw [enrolled_withdraw]
  by_cases hk : k' = k
  · subst hk
    rw [if_pos rfl, (swapOut_perm a _).count_eq, List.count_erase]
    simp only [beq_iff_eq, true_and, @eq_comm _ a b]
  · simp [hk]

/-- A key goes with its last member. -/
theorem Trim.withdraw (h : Trim r) (k : κ) (a : ι) : Trim (withdraw k a r) := by
  intro k' l hl
  unfold Registry.withdraw at hl
  split at hl
  case isTrue =>
    rw [lookup_erase_ite] at hl
    split at hl
    · cases hl
    · exact h k' l hl
  case isFalse hne =>
    rw [lookup_insert_ite] at hl
    split at hl
    · cases hl
      exact hne
    · exact h k' l hl

end MiniRedis.Registry
