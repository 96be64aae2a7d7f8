import Mathlib.Data.List.Basic

/-!
# Support — Along

A property of each element of a sequence and what comes before it: what an order of events has to
satisfy at every event.  A sequence that grows at its end keeps it if the new event has it
(`along_concat`).
-/

namespace MiniRedis

variable {α : Type*} {P : List α → α → Prop} {l : List α} {a : α}

/-- Every element has `P` of what comes before it. -/
def Along (P : List α → α → Prop) (l : List α) : Prop :=
  ∀ pre a post, l = pre ++ a :: post → P pre a

theorem along_nil : Along P [] := by
  intro pre a post h
  cases pre <;> cases h

theorem along_concat : Along P (l ++ [a]) ↔ Along P l ∧ P l a := by
  constructor
  · intro h
    refine ⟨fun pre b post hl => h pre b (post ++ [a]) ?_, h l a [] rfl⟩
    rw [hl, List.append_assoc, List.cons_append]
  · rintro ⟨hl, ha⟩ pre b post h
    rcases List.eq_nil_or_concat post with rfl | ⟨post, z, rfl⟩
    · obtain ⟨rfl, rfl⟩ := List.append_singleton_inj.1 h
      exact ha
    · rw [List.concat_eq_append, ← List.cons_append, ← List.append_assoc] at h
      exact hl pre b post (List.append_singleton_inj.1 h).1

end MiniRedis
