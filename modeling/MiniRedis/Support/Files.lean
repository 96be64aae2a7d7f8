import Mathlib.Data.List.Basic
import Mathlib.Logic.Function.Basic

/-!
# Support — Files

A directory of files as processes see it: names point to inodes, inodes hold the data, and an
open file is an inode, which outlives its name.  No inode has two names, and the numbers from
`next` on are unused; both are fields, so every operation keeps them.
-/

namespace MiniRedis.Files

variable {π β : Type*}

/-- Names, inodes and their data. -/
structure Disk (π β : Type*) where
  names : π → Option Nat
  data : Nat → List β
  next : Nat
  named_lt : ∀ p i, names p = some i → i < next
  unlinked : ∀ p q i, names p = some i → names q = some i → p = q

namespace Disk

/-- A disk without files. -/
def empty : Disk π β := ⟨fun _ => none, fun _ => [], 0, nofun, nofun⟩

/-- The data under a name. -/
def content (d : Disk π β) (p : π) : Option (List β) := (d.names p).map d.data

/-- Write at the end of an open file. -/
def write (i : Nat) (b : List β) (d : Disk π β) : Disk π β :=
  { d with data := Function.update d.data i (d.data i ++ b) }

variable [DecidableEq π]

/-- A new empty file under `p`. -/
def create (p : π) (d : Disk π β) : Disk π β × Nat :=
  ({ names := Function.update d.names p (some d.next)
     data := Function.update d.data d.next []
     next := d.next + 1
     named_lt := fun q i h => by
       rw [Function.update_apply] at h
       split at h
       · cases h; exact Nat.lt_succ_self _
       · exact Nat.lt_succ_of_lt (d.named_lt q i h)
     unlinked := fun q r i hq hr => by
       rw [Function.update_apply] at hq hr
       split at hq <;> split at hr
       · rename_i h₁ h₂; rw [h₁, h₂]
       · cases hq; exact absurd (d.named_lt r _ hr) (Nat.lt_irrefl _)
       · cases hr; exact absurd (d.named_lt q _ hq) (Nat.lt_irrefl _)
       · exact d.unlinked q r i hq hr }, d.next)

/-- Open for appending, creating the file if there is none. -/
def openAppend (p : π) (d : Disk π β) : Disk π β × Nat :=
  match d.names p with
  | some i => (d, i)
  | none => d.create p

/-- Open for writing, emptying the file or creating it. -/
def openTrunc (p : π) (d : Disk π β) : Disk π β × Nat :=
  match d.names p with
  | some i => ({ d with data := Function.update d.data i [] }, i)
  | none => d.create p

/-- Rename `p` to `q`, replacing what was there, in one step. -/
def rename (p q : π) (d : Disk π β) : Disk π β :=
  { d with
    names := Function.update (Function.update d.names p none) q (d.names p)
    named_lt := fun r i h => by
      rw [Function.update_apply, Function.update_apply] at h
      split at h
      · exact d.named_lt p i h
      · split at h
        · cases h
        · exact d.named_lt r i h
    unlinked := fun r s i hr hs => by
      simp only [Function.update_apply] at hr hs
      split at hr <;> split at hs
      · rename_i h₁ h₂; rw [h₁, h₂]
      · split at hs
        · cases hs
        · exact absurd (d.unlinked s p i hs hr) ‹_›
      · split at hr
        · cases hr
        · exact absurd (d.unlinked r p i hr hs) ‹_›
      · split at hr
        · cases hr
        · split at hs
          · cases hs
          · exact d.unlinked r s i hr hs }

/-- Remove the name; an open file lives on without it. -/
def remove (p : π) (d : Disk π β) : Disk π β :=
  { d with
    names := Function.update d.names p none
    named_lt := fun q i h => by
      rw [Function.update_apply] at h
      split at h
      · cases h
      · exact d.named_lt q i h
    unlinked := fun q r i hq hr => by
      rw [Function.update_apply] at hq hr
      split at hq
      · cases hq
      · split at hr
        · cases hr
        · exact d.unlinked q r i hq hr }

/-! ### What is under a name afterwards -/

section Write

omit [DecidableEq π]

variable {d : Disk π β} {p : π} {i : Nat}

theorem content_eq (h : d.names p = some i) : d.content p = some (d.data i) := by
  rw [content, h]
  rfl

theorem names_of_content {c : List β} (h : d.content p = some c) : ∃ i, d.names p = some i := by
  obtain ⟨i, hi, -⟩ := Option.map_eq_some_iff.1 h
  exact ⟨i, hi⟩

@[simp] theorem write_nil : d.write i [] = d := by
  simp [write]

/-- A write to a file shows at its path, -/
theorem content_write {b c : List β} (h : d.names p = some i) (hc : d.content p = some c) :
    (d.write i b).content p = some (c ++ b) := by
  rw [content_eq h] at hc
  cases hc
  rw [content_eq (d := d.write i b) h]
  exact congrArg some (Function.update_self _ _ _)

/-- and at no other. -/
theorem content_write_of_ne {b : List β} (h : d.names p ≠ some i) :
    (d.write i b).content p = d.content p := by
  unfold content
  cases hp : d.names p with
  | none => simp [write, hp]
  | some j =>
      have hj : j ≠ i := fun e => h (hp.trans (e ▸ rfl))
      simp [write, hp, hj]

end Write

variable {d : Disk π β} {p q : π}

theorem names_create : (d.create p).1.names p = some (d.create p).2 := Function.update_self _ _ _

theorem content_create : (d.create p).1.content p = some [] := by
  rw [content_eq names_create]
  exact congrArg some (Function.update_self _ _ _)

theorem names_create_of_ne (h : q ≠ p) : (d.create p).1.names q = d.names q :=
  Function.update_of_ne h _ _

theorem content_create_of_ne (h : q ≠ p) : (d.create p).1.content q = d.content q := by
  unfold content
  rw [names_create_of_ne h]
  cases hq : d.names q with
  | none => rfl
  | some j =>
      have hj : j ≠ d.next := Nat.ne_of_lt (d.named_lt q j hq)
      exact congrArg some (Function.update_of_ne hj _ _)

/-- Opening a file that is there changes nothing. -/
theorem openAppend_of_names {i : Nat} (h : d.names p = some i) : d.openAppend p = (d, i) := by
  unfold openAppend
  rw [h]

theorem names_openAppend : (d.openAppend p).1.names p = some (d.openAppend p).2 := by
  unfold openAppend
  split
  · assumption
  · exact names_create

theorem names_openAppend_of_ne (h : q ≠ p) : (d.openAppend p).1.names q = d.names q := by
  unfold openAppend
  split
  · rfl
  · exact names_create_of_ne h

theorem next_openAppend : d.next ≤ (d.openAppend p).1.next := by
  unfold openAppend
  split
  · exact Nat.le_refl _
  · exact Nat.le_succ _

/-- A file that is opened to append keeps its content, and is created empty. -/
theorem content_openAppend : (d.openAppend p).1.content p = some ((d.content p).getD []) := by
  unfold openAppend
  cases hp : d.names p with
  | none =>
      have hc : d.content p = none := by rw [content, hp]; rfl
      rw [hc]
      exact content_create
  | some i =>
      rw [content_eq hp]
      rfl

/-- Opening a file and writing to it puts the data behind what was there. -/
theorem content_append (b : List β) :
    ((d.openAppend p).1.write (d.openAppend p).2 b).content p =
      some ((d.content p).getD [] ++ b) :=
  content_write names_openAppend content_openAppend

theorem names_openTrunc : (d.openTrunc p).1.names p = some (d.openTrunc p).2 := by
  unfold openTrunc
  split
  · assumption
  · exact names_create

/-- A file that is opened with truncation is empty. -/
theorem content_openTrunc : (d.openTrunc p).1.content p = some [] := by
  rw [content_eq names_openTrunc]
  unfold openTrunc
  split
  · exact congrArg some (Function.update_self _ _ _)
  · exact congrArg some (Function.update_self _ _ _)

theorem names_openTrunc_of_ne (h : q ≠ p) : (d.openTrunc p).1.names q = d.names q := by
  unfold openTrunc
  split
  · rfl
  · exact names_create_of_ne h

theorem content_openTrunc_of_ne (h : q ≠ p) : (d.openTrunc p).1.content q = d.content q := by
  unfold openTrunc
  split
  · rename_i i hi
    unfold content
    cases hq : d.names q with
    | none => rfl
    | some j =>
        have hj : j ≠ i := fun e => h (d.unlinked q p j hq (e ▸ hi))
        exact congrArg some (Function.update_of_ne hj _ _)
  · exact content_create_of_ne h

theorem names_remove_of_ne (h : q ≠ p) : (d.remove p).names q = d.names q :=
  Function.update_of_ne h _ _

theorem content_remove_of_ne (h : q ≠ p) : (d.remove p).content q = d.content q := by
  unfold content
  rw [names_remove_of_ne h]
  rfl

theorem names_rename : (d.rename p q).names q = d.names p := Function.update_self _ _ _

/-- A rename takes the old name away, -/
theorem names_rename_old (h : p ≠ q) : (d.rename p q).names p = none := by
  simp [rename, h]

/-- and moves the content. -/
theorem content_rename : (d.rename p q).content q = d.content p := by
  simp [content, rename]

/-! ### Work on one file -/

/-- All that was done to the disk was done to the file under `p` or to new ones, and `p` names no
other. -/
structure Aside (p : π) (d d' : Disk π β) : Prop where
  next : d.next ≤ d'.next
  names : ∀ i, d'.names p = some i → d.names p = some i ∨ d.next ≤ i
  data : ∀ i, i < d.next → d.names p ≠ some i → d'.data i = d.data i

namespace Aside

omit [DecidableEq π] in
theorem refl (p : π) (d : Disk π β) : d.Aside p d :=
  ⟨Nat.le_refl _, fun _ h => .inl h, fun _ _ _ => rfl⟩

omit [DecidableEq π] in
theorem trans {d₁ d₂ d₃ : Disk π β} (h : d₁.Aside p d₂) (h' : d₂.Aside p d₃) : d₁.Aside p d₃ := by
  refine ⟨Nat.le_trans h.next h'.next, fun i hi => ?_, fun i hi hne => ?_⟩
  · rcases h'.names i hi with hi | hi
    · exact h.names i hi
    · exact .inr (Nat.le_trans h.next hi)
  · have hne' : d₂.names p ≠ some i := fun hp =>
      (h.names i hp).elim hne (Nat.not_le.2 hi)
    rw [h'.data i (Nat.lt_of_lt_of_le hi h.next) hne', h.data i hi hne]

omit [DecidableEq π] in
theorem write {i : Nat} (h : d.names p = some i) (b : List β) : d.Aside p (d.write i b) := by
  refine ⟨Nat.le_refl _, fun _ h => .inl h, fun j _ hne => Function.update_of_ne ?_ _ _⟩
  rintro rfl
  exact hne h

theorem openTrunc (p : π) (d : Disk π β) : d.Aside p (d.openTrunc p).1 := by
  unfold Disk.openTrunc
  split
  case h_1 i hi =>
    refine ⟨Nat.le_refl _, fun _ h => .inl h, fun j _ hne => Function.update_of_ne ?_ _ _⟩
    rintro rfl
    exact hne hi
  case h_2 =>
    refine ⟨Nat.le_succ _, fun i hi => ?_,
      fun j hj _ => Function.update_of_ne (Nat.ne_of_lt hj) _ _⟩
    rw [names_create] at hi
    cases hi
    exact .inr (Nat.le_refl _)

theorem remove (p : π) (d : Disk π β) : d.Aside p (d.remove p) := by
  refine ⟨Nat.le_refl _, fun i hi => ?_, fun _ _ _ => rfl⟩
  rw [show (d.remove p).names p = none from Function.update_self _ _ _] at hi
  cases hi

theorem rename (h : p ≠ q) (d : Disk π β) : d.Aside p (d.rename p q) := by
  refine ⟨Nat.le_refl _, fun i hi => ?_, fun _ _ _ => rfl⟩
  rw [names_rename_old h] at hi
  cases hi

end Aside

end Disk

end MiniRedis.Files
