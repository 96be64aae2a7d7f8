import Mathlib.Data.List.Basic

/-!
# Support — Machine

Runs of a labelled transition relation, and the rule by which what one step preserves holds in
every state a run reaches.  A run may stop anywhere, so a statement about the last state of every
run is one about every instant.  Where the steps of one machine are runs of another, its runs are
too.
-/

namespace MiniRedis.Machine

variable {σ ℓ : Type*} {Step : σ → ℓ → σ → Prop}

/-- `Run Step s ls s'`: steps labelled `ls` take `s` to `s'`. -/
inductive Run (Step : σ → ℓ → σ → Prop) : σ → List ℓ → σ → Prop where
  | nil (s : σ) : Run Step s [] s
  | cons {s s' s'' : σ} {l : ℓ} {ls : List ℓ} (h : Step s l s') (t : Run Step s' ls s'') :
      Run Step s (l :: ls) s''

/-- **The invariant rule**, for runs whose labels all meet a condition. -/
theorem Run.preserves {Inv : σ → Prop} {G : ℓ → Prop}
    (hstep : ∀ s l s', G l → Step s l s' → Inv s → Inv s') {s s' : σ} {ls : List ℓ}
    (h : Run Step s ls s') (hG : ∀ l ∈ ls, G l) (hs : Inv s) : Inv s' := by
  induction h with
  | nil => exact hs
  | cons h _ ih =>
      exact ih (fun l hl => hG l (List.mem_cons_of_mem _ hl))
        (hstep _ _ _ (hG _ List.mem_cons_self) h hs)

/-- One run after another. -/
theorem Run.append {s s' s'' : σ} {ls ls' : List ℓ} (h : Run Step s ls s')
    (h' : Run Step s' ls' s'') : Run Step s (ls ++ ls') s'' := by
  induction h with
  | nil => exact h'
  | cons h _ ih => exact .cons h (ih h')

/-- **The simulation rule**: where one step is answered by a run of another machine, so is a run. -/
theorem Run.simulates {σ' ℓ' : Type*} {Step' : σ' → ℓ' → σ' → Prop} {R : σ → σ' → Prop}
    (hstep : ∀ s l s' b, Step s l s' → R s b → ∃ ms b', Run Step' b ms b' ∧ R s' b') {s s' : σ}
    {ls : List ℓ} (h : Run Step s ls s') {b : σ'} (hR : R s b) :
    ∃ ms b', Run Step' b ms b' ∧ R s' b' := by
  induction h generalizing b with
  | nil => exact ⟨[], b, .nil b, hR⟩
  | cons h _ ih =>
      obtain ⟨ms₁, b₁, hrun₁, hR₁⟩ := hstep _ _ _ _ h hR
      obtain ⟨ms₂, b₂, hrun₂, hR₂⟩ := ih hR₁
      exact ⟨ms₁ ++ ms₂, b₂, hrun₁.append hrun₂, hR₂⟩

/-- A run is one of every relation that has its steps. -/
theorem Run.mono {Step' : σ → ℓ → σ → Prop} (h : ∀ s l s', Step s l s' → Step' s l s') {s s' : σ}
    {ls : List ℓ} (hrun : Run Step s ls s') : Run Step' s ls s' := by
  induction hrun with
  | nil s => exact .nil s
  | cons hs _ ih => exact .cons (h _ _ _ hs) ih

/-! ### Parts of a state -/

/-- What is found after a change at one place: the new value there, the old one elsewhere. -/
theorem update_eq_some {α β : Type*} [DecidableEq α] {f : α → Option β} {a a' : α} {o : Option β}
    {b : β} : Function.update f a o a' = some b ↔ a' = a ∧ o = some b ∨ a' ≠ a ∧ f a' = some b := by
  rw [Function.update_apply]
  split
  case isTrue h => simp [h]
  case isFalse h => simp [h]

theorem getElem?_modify_eq_some {α : Type*} {l : List α} {k j : Nat} {f : α → α} {c : α} :
    (l.modify k f)[j]? = some c ↔
      j = k ∧ (∃ a, l[k]? = some a ∧ f a = c) ∨ j ≠ k ∧ l[j]? = some c := by
  rw [List.getElem?_modify]
  by_cases h : j = k
  · subst h
    simp
  · simp [h, Ne.symm h]

theorem getElem?_concat_eq_some {α : Type*} {l : List α} {a c : α} {j : Nat} :
    (l ++ [a])[j]? = some c ↔ l[j]? = some c ∨ j = l.length ∧ a = c := by
  rw [List.getElem?_append]
  split
  case isTrue h => simp [Nat.ne_of_lt h]
  case isFalse h =>
    rw [List.getElem?_eq_none (Nat.not_lt.1 h)]
    rcases Nat.eq_or_lt_of_le (Nat.not_lt.1 h) with he | hlt
    · simp [he]
    · rw [List.getElem?_eq_none (by simp; omega)]
      simp [Nat.ne_of_gt hlt]

end MiniRedis.Machine
