import MiniRedis.Support.Files

/-!
# Support — Durable

What a power loss leaves of a disk.  The data of a file is safe once that file is synced, a change
of the directory once the directory is; until then each of the states since is as good as another.
A `Platter` keeps those states beside the disk the processes see: `dirs` are the directories, and
`files i` the contents of the inode `i`, that a power loss may leave.

* `Covers`: the present state is always among them.
* `Leaves.of_follow` and the rules from it: what a power loss may leave under a name after an
  operation, in terms of what it could leave before.
-/

namespace MiniRedis.Files

variable {π β : Type*}

/-- The directories and the contents a power loss may leave. -/
structure Platter (π β : Type*) where
  dirs : List (π → Option Nat)
  files : Nat → List (List β)

namespace Platter

/-- Everything is safe. -/
def of (d : Disk π β) : Platter π β := ⟨[d.names], fun i => [d.data i]⟩

/-- The disk has changed from `d` to `d'`.  An inode that was not in use has no past. -/
def follow (d d' : Disk π β) (m : Platter π β) : Platter π β :=
  ⟨d'.names :: m.dirs, fun i => if i < d.next then d'.data i :: m.files i else [d'.data i]⟩

/-- The file is synced. -/
def syncFile (d : Disk π β) (i : Nat) (m : Platter π β) : Platter π β :=
  { m with files := Function.update m.files i [d.data i] }

/-- The directory is synced. -/
def syncDir (d : Disk π β) (m : Platter π β) : Platter π β := { m with dirs := [d.names] }

/-- After a sync the platter has the file as it is. -/
@[simp] theorem mem_syncFile {d : Disk π β} {i : Nat} {m : Platter π β} {b : List β} :
    b ∈ (m.syncFile d i).files i ↔ b = d.data i := by
  simp [syncFile]

/-- A power loss may leave this under the name: no file, or one with this content. -/
def Leaves (m : Platter π β) (p : π) (file : Option (List β)) : Prop :=
  ∃ names ∈ m.dirs, (names p = none ∧ file = none) ∨
    ∃ i b, names p = some i ∧ b ∈ m.files i ∧ file = some b

/-- The disk is among what may be left, and no directory names an inode that was never used. -/
structure Covers (m : Platter π β) (d : Disk π β) : Prop where
  names : d.names ∈ m.dirs
  data : ∀ i, d.data i ∈ m.files i
  used : ∀ names ∈ m.dirs, ∀ p i, names p = some i → i < d.next

variable {m : Platter π β} {d d' : Disk π β} {p q : π} {file : Option (List β)}

theorem Covers.of (d : Disk π β) : (Platter.of d).Covers d := by
  refine ⟨List.mem_singleton_self _, fun i => List.mem_singleton_self _, fun names h p i hi => ?_⟩
  rw [List.mem_singleton.1 h] at hi
  exact d.named_lt p i hi

theorem Covers.follow (h : m.Covers d) (hnext : d.next ≤ d'.next) :
    (m.follow d d').Covers d' := by
  refine ⟨List.mem_cons_self, fun i => ?_, fun names hn p i hi => ?_⟩
  · unfold Platter.follow
    dsimp only
    split
    · exact List.mem_cons_self
    · exact List.mem_singleton_self _
  · rcases List.mem_cons.1 hn with rfl | hn
    · exact d'.named_lt p i hi
    · exact Nat.lt_of_lt_of_le (h.used names hn p i hi) hnext

theorem Covers.syncFile (h : m.Covers d) (i : Nat) : (m.syncFile d i).Covers d := by
  refine ⟨h.names, fun j => ?_, h.used⟩
  by_cases hj : j = i
  · subst hj
    simp [Platter.syncFile]
  · simpa [Platter.syncFile, hj] using h.data j

theorem Covers.syncDir (h : m.Covers d) : (m.syncDir d).Covers d := by
  refine ⟨List.mem_singleton_self _, h.data, fun names hn p i hi => ?_⟩
  rw [List.mem_singleton.1 hn] at hi
  exact d.named_lt p i hi

/-! ### After each operation -/

/-- A sync of the directory only rules losses out. -/
theorem Leaves.of_syncDir (h : m.Covers d) (hl : (m.syncDir d).Leaves p file) :
    m.Leaves p file := by
  obtain ⟨names, hn, hl⟩ := hl
  rw [List.mem_singleton.1 hn] at hl
  exact ⟨d.names, h.names, hl⟩

/-- A sync of a file only rules losses out. -/
theorem Leaves.of_syncFile (h : m.Covers d) {i : Nat} (hl : (m.syncFile d i).Leaves p file) :
    m.Leaves p file := by
  obtain ⟨names, hn, hl⟩ := hl
  refine ⟨names, hn, hl.imp_right ?_⟩
  rintro ⟨j, b, hj, hb, hfile⟩
  refine ⟨j, b, hj, ?_, hfile⟩
  change b ∈ Function.update m.files i [d.data i] j at hb
  by_cases hji : j = i
  · subst hji
    rw [Function.update_self] at hb
    rw [List.mem_singleton.1 hb]
    exact h.data j
  · rwa [Function.update_of_ne hji] at hb

/-- **The general rule**: what may be left after a change is what could be left before, or else
comes from the new directory or is the new content of a file whose name could be left before. -/
theorem Leaves.of_follow (hl : (m.follow d d').Leaves p file) :
    m.Leaves p file ∨
      (d'.names p = none ∧ file = none) ∨
      (∃ i b, d'.names p = some i ∧ (b = d'.data i ∨ i < d.next ∧ b ∈ m.files i) ∧
        file = some b) ∨
      ∃ names ∈ m.dirs, ∃ i, names p = some i ∧ file = some (d'.data i) := by
  obtain ⟨names, hn, hl⟩ := hl
  have hmem : ∀ i b, b ∈ (m.follow d d').files i → b = d'.data i ∨ i < d.next ∧ b ∈ m.files i := by
    intro i b hb
    unfold Platter.follow at hb
    dsimp only at hb
    split at hb
    · rename_i hi
      exact (List.mem_cons.1 hb).imp_right fun hb => ⟨hi, hb⟩
    · exact .inl (List.mem_singleton.1 hb)
  rcases List.mem_cons.1 hn with rfl | hn
  · rcases hl with hl | ⟨i, b, hi, hb, hfile⟩
    · exact .inr (.inl hl)
    · exact .inr (.inr (.inl ⟨i, b, hi, hmem i b hb, hfile⟩))
  · rcases hl with hl | ⟨i, b, hi, hb, hfile⟩
    · exact .inl ⟨names, hn, .inl hl⟩
    · rcases hmem i b hb with rfl | ⟨-, hb⟩
      · exact .inr (.inr (.inr ⟨names, hn, i, hi, hfile⟩))
      · exact .inl ⟨names, hn, .inr ⟨i, b, hi, hb, hfile⟩⟩

/-- The disk is as it was. -/
theorem Leaves.of_follow_self (h : m.Covers d) (hl : (m.follow d d).Leaves p file) :
    m.Leaves p file := by
  rcases hl.of_follow with hl | hl | ⟨i, b, hi, hb, hfile⟩ | ⟨names, hn, i, hi, hfile⟩
  · exact hl
  · exact ⟨d.names, h.names, .inl hl⟩
  · refine ⟨d.names, h.names, .inr ⟨i, b, hi, ?_, hfile⟩⟩
    rcases hb with rfl | ⟨-, hb⟩
    · exact h.data i
    · exact hb
  · exact ⟨names, hn, .inr ⟨i, d.data i, hi, h.data i, hfile⟩⟩

/-- One inode has new data: it is left, or what could be left before. -/
theorem Leaves.of_follow_data (h : m.Covers d) (hl : (m.follow d d').Leaves p file) {i : Nat}
    (hnames : d'.names = d.names) (hdata : ∀ j, j ≠ i → d'.data j = d.data j) :
    m.Leaves p file ∨ (∃ names ∈ m.dirs, names p = some i) ∧ file = some (d'.data i) := by
  have key : ∀ names ∈ m.dirs, ∀ j, names p = some j → file = some (d'.data j) →
      m.Leaves p file ∨ (∃ names ∈ m.dirs, names p = some i) ∧ file = some (d'.data i) := by
    intro names hn j hj hfile
    by_cases hji : j = i
    · subst hji
      exact .inr ⟨⟨names, hn, hj⟩, hfile⟩
    · rw [hdata j hji] at hfile
      exact .inl ⟨names, hn, .inr ⟨j, d.data j, hj, h.data j, hfile⟩⟩
  rcases hl.of_follow with hl | hl | ⟨j, b, hj, hb, hfile⟩ | ⟨names, hn, j, hj, hfile⟩
  · exact .inl hl
  · rw [hnames] at hl
    exact .inl ⟨d.names, h.names, .inl hl⟩
  · rw [hnames] at hj
    rcases hb with rfl | ⟨-, hb⟩
    · exact key d.names h.names j hj hfile
    · exact .inl ⟨d.names, h.names, .inr ⟨j, b, hj, hb, hfile⟩⟩
  · exact key names hn j hj hfile

/-! ### Files that only grow -/

/-- A power loss may leave this under the name, when of a file that only grew since it was synced
any part of the growth may be lost: the content is between two of those it had. -/
def Tears (m : Platter π β) (p : π) (file : Option (List β)) : Prop :=
  ∃ names ∈ m.dirs, (names p = none ∧ file = none) ∨
    ∃ i b, names p = some i ∧ file = some b ∧
      ∃ b₁ ∈ m.files i, ∃ b₂ ∈ m.files i, b₁ <+: b ∧ b <+: b₂

/-- A loss that tears nothing is one that may. -/
theorem Leaves.tears (h : m.Leaves p file) : m.Tears p file := by
  obtain ⟨names, hn, hl⟩ := h
  refine ⟨names, hn, hl.imp_right ?_⟩
  rintro ⟨i, b, hi, hb, hfile⟩
  exact ⟨i, b, hi, hfile, b, hb, b, hb, List.prefix_rfl, List.prefix_rfl⟩

theorem mem_follow {i : Nat} {b : List β} (h : b ∈ (m.follow d d').files i) :
    b = d'.data i ∨ b ∈ m.files i := by
  unfold Platter.follow at h
  dsimp only at h
  split at h
  · exact List.mem_cons.1 h
  · exact .inl (List.mem_singleton.1 h)

/-- A file that a change leaves as it was has no new content. -/
theorem Covers.mem_follow (h : m.Covers d) {i : Nat} {b : List β} (hi : d'.data i = d.data i)
    (hb : b ∈ (m.follow d d').files i) : b ∈ m.files i := by
  rcases Platter.mem_follow hb with rfl | hb
  · rw [hi]
    exact h.data i
  · exact hb

theorem Covers.mem_syncFile (h : m.Covers d) {i j : Nat} {b : List β}
    (hb : b ∈ (m.syncFile d i).files j) : b ∈ m.files j := by
  by_cases hj : j = i
  · subst hj
    rw [Platter.mem_syncFile.1 hb]
    exact h.data j
  · change b ∈ Function.update m.files i [d.data i] j at hb
    rwa [Function.update_of_ne hj] at hb

variable [DecidableEq π]

/-- A file under another name is opened and emptied; if it is an old one, it was never under this
name. -/
theorem Leaves.of_openTrunc (h : m.Covers d) (hpq : p ≠ q)
    (hq : ∀ names ∈ m.dirs, ∀ i, d.names q = some i → names p ≠ some i)
    (hl : (m.follow d (d.openTrunc q).1).Leaves p file) : m.Leaves p file := by
  cases hi : d.names q with
  | some i =>
      have ho : (d.openTrunc q).1 = { d with data := Function.update d.data i [] } := by
        simp only [Disk.openTrunc, hi]
      rw [ho] at hl
      rcases Leaves.of_follow_data h hl rfl fun j hj => Function.update_of_ne hj _ _ with
        hl | ⟨⟨names, hn, hp⟩, -⟩
      · exact hl
      · exact absurd hp (hq names hn i hi)
  | none =>
      have ho : d.openTrunc q = d.create q := by simp only [Disk.openTrunc, hi]
      rw [ho] at hl
      -- the new inode has no other name, and the others are as they were
      have hdata : ∀ j, j < d.next → (d.create q).1.data j = d.data j :=
        fun j hj => Function.update_of_ne (Nat.ne_of_lt hj) _ _
      rcases hl.of_follow with hl | hl | ⟨j, b, hj, hb, hfile⟩ | ⟨names, hn, j, hj, hfile⟩
      · exact hl
      · rw [Disk.names_create_of_ne hpq] at hl
        exact ⟨d.names, h.names, .inl hl⟩
      · rw [Disk.names_create_of_ne hpq] at hj
        refine ⟨d.names, h.names, .inr ⟨j, b, hj, ?_, hfile⟩⟩
        rcases hb with rfl | ⟨-, hb⟩
        · rw [hdata j (d.named_lt p j hj)]
          exact h.data j
        · exact hb
      · rw [hdata j (h.used names hn p j hj)] at hfile
        exact ⟨names, hn, .inr ⟨j, d.data j, hj, h.data j, hfile⟩⟩

/-- A safe disk, on which the file is opened for appending: it is left, or what was there. -/
theorem Leaves.of_openAppend (hl : ((Platter.of d).follow d (d.openAppend p).1).Leaves p file) :
    file = d.content p ∨ file = (d.openAppend p).1.content p := by
  have hof : (Platter.of d).Leaves p file → file = d.content p := by
    rintro ⟨names, hn, hl⟩
    rw [List.mem_singleton.1 hn] at hl
    rcases hl with ⟨hp, rfl⟩ | ⟨i, b, hp, hb, rfl⟩
    · rw [Disk.content, hp]
      rfl
    · rw [Disk.content_eq hp, List.mem_singleton.1 hb]
  cases hp : d.names p with
  | some i =>
      rw [Disk.openAppend_of_names hp] at hl
      exact .inl (hof (hl.of_follow_self (.of d)))
  | none =>
      have ho : d.openAppend p = d.create p := by simp only [Disk.openAppend, hp]
      rw [ho] at hl ⊢
      rcases hl.of_follow with hl | ⟨hn, -⟩ | ⟨i, b, hi, hb, rfl⟩ | ⟨names, hn, i, hi, -⟩
      · exact .inl (hof hl)
      · rw [Disk.names_create] at hn
        cases hn
      · rw [Disk.names_create] at hi
        cases hi
        rcases hb with rfl | ⟨hlt, -⟩
        · exact .inr (Disk.content_eq Disk.names_create).symm
        · exact absurd hlt (Nat.lt_irrefl _)
      · rw [List.mem_singleton.1 hn, hp] at hi
        cases hi

/-- A synced file is renamed to this name: it is left, or what could be left before. -/
theorem Leaves.of_rename (h : m.Covers d)
    (hq : ∀ i, d.names q = some i → ∀ b ∈ m.files i, b = d.data i)
    (hl : (m.follow d (d.rename q p)).Leaves p file) :
    m.Leaves p file ∨ file = (d.rename q p).content p := by
  rw [Disk.content_rename]
  rcases hl.of_follow with hl | ⟨hi, rfl⟩ | ⟨i, b, hi, hb, rfl⟩ | ⟨names, hn, i, hi, hfile⟩
  · exact .inl hl
  · rw [Disk.names_rename] at hi
    rw [Disk.content, hi]
    exact .inr rfl
  · rw [Disk.names_rename] at hi
    rw [Disk.content_eq hi]
    rcases hb with rfl | ⟨-, hb⟩
    · exact .inr rfl
    · exact .inr (congrArg some (hq i hi b hb))
  · exact .inl ⟨names, hn, .inr ⟨i, d.data i, hi, h.data i, hfile⟩⟩

end Platter

end MiniRedis.Files
