import Mathlib.Data.List.Basic
import Mathlib.Order.Nat
import Mathlib.Tactic.Common

/-!
# Support — Slices

Slices as Go has them: windows into arrays that other slices may look into as well.  An append
writes behind the window when the array has room there, where another window may look, and
otherwise moves the elements to a new array.

A memory *keeps* its arrays (`Keeps W`) when those it had are as they were, but for the arrays of
`W`.  What a slice shows changes only with its array (`Keeps.read`), and an append changes no array
but that of the slice it appends to (`append_keeps`).

* `read_append`: **an appended slice shows what was there and then the new elements**, wherever
  they were put.
* `append_array`: it looks into the same array, or into one that nothing else looks into.
-/

namespace MiniRedis.Slices

variable {ι α : Type*}

/-- `len` elements of an array from `off` on, with `cap` up to the end of the array.  An array is
named by where it was allocated and a number; a nil slice has no capacity. -/
structure Slice (ι : Type*) where
  site : ι
  array : Nat
  off : Nat
  len : Nat
  cap : Nat
deriving DecidableEq

/-- The arrays, and how many of each site are allocated. -/
structure Mem (ι α : Type*) where
  cell : ι → Nat → Nat → α
  next : ι → Nat

namespace Slice

/-- The nil slice. -/
def nil (site : ι) : Slice ι := ⟨site, 0, 0, 0, 0⟩

/-- `s[1:]` -/
def tail (s : Slice ι) : Slice ι := ⟨s.site, s.array, s.off + 1, s.len - 1, s.cap - 1⟩

/-- `s[:len(s)-1]` -/
def dropLast (s : Slice ι) : Slice ι := { s with len := s.len - 1 }

/-- The slice looks into the array. -/
def Into (s : Slice ι) (i : ι) (a : Nat) : Prop := i = s.site ∧ a = s.array ∧ 0 < s.cap

/-- The window ends within its array, and the array is allocated. -/
structure Held (s : Slice ι) (m : Mem ι α) : Prop where
  len_le : s.len ≤ s.cap
  lt : 0 < s.cap → s.array < m.next s.site

theorem Held.into_lt {s : Slice ι} {m : Mem ι α} (hs : s.Held m) {i : ι} {a : Nat}
    (h : s.Into i a) : a < m.next i := by
  obtain ⟨rfl, rfl, hc⟩ := h
  exact hs.lt hc

theorem Held.tail {s : Slice ι} {m : Mem ι α} (hs : s.Held m) : s.tail.Held m :=
  ⟨Nat.sub_le_sub_right hs.len_le 1, fun hc => hs.lt (Nat.lt_of_lt_of_le hc (Nat.sub_le _ 1))⟩

theorem Held.dropLast {s : Slice ι} {m : Mem ι α} (hs : s.Held m) : s.dropLast.Held m :=
  ⟨(Nat.sub_le _ 1).trans hs.len_le, hs.lt⟩

theorem into_of_tail {s : Slice ι} {i : ι} {a : Nat} (h : s.tail.Into i a) : s.Into i a :=
  ⟨h.1, h.2.1, Nat.lt_of_lt_of_le h.2.2 (Nat.sub_le _ 1)⟩

end Slice

namespace Mem

variable {m m' m'' : Mem ι α} {s : Slice ι} {W W' : ι → Nat → Prop}

/-- `s[i]` -/
def get (s : Slice ι) (i : Nat) (m : Mem ι α) : α := m.cell s.site s.array (s.off + i)

/-- What the slice shows. -/
def read (s : Slice ι) (m : Mem ι α) : List α := (List.range s.len).map fun i => m.get s i

@[simp] theorem length_read (s : Slice ι) (m : Mem ι α) : (m.read s).length = s.len := by
  simp [read]

/-- What a slice shows, from its front, -/
theorem read_eq_cons (h : s.len ≠ 0) : m.read s = m.get s 0 :: m.read s.tail := by
  obtain ⟨n, hn⟩ := Nat.exists_eq_succ_of_ne_zero h
  simp only [read, Slice.tail, hn, List.range_succ_eq_map, List.map_cons, List.map_map,
    Nat.succ_eq_add_one, Nat.add_sub_cancel]
  refine congrArg _ (List.map_congr_left fun i _ => ?_)
  simp only [Function.comp, get, Nat.succ_eq_add_one]
  congr 1
  omega

/-- and from its end. -/
theorem read_eq_concat (h : s.len ≠ 0) :
    m.read s = m.read s.dropLast ++ [m.get s (s.len - 1)] := by
  obtain ⟨n, hn⟩ := Nat.exists_eq_succ_of_ne_zero h
  simp only [read, Slice.dropLast, hn, Nat.succ_eq_add_one, Nat.add_sub_cancel, List.range_succ,
    List.map_append, List.map_cons, List.map_nil]
  rfl

theorem get_mem_read {i : Nat} (hi : i < s.len) : m.get s i ∈ m.read s :=
  List.mem_map_of_mem (List.mem_range.2 hi)

/-- The elements of a range of places. -/
theorem map_get_range' {lo n : Nat} (h : lo + n ≤ s.len) :
    (List.range' lo n).map (fun i => m.get s i) = ((m.read s).drop lo).take n := by
  refine List.ext_getElem (by simp; omega) fun i hi _ => ?_
  simp [read]

/-! ### Keeping -/

/-- The arrays of `m` are in `m'` as they were, but for those of `W`. -/
structure Keeps (W : ι → Nat → Prop) (m m' : Mem ι α) : Prop where
  next : ∀ i, m.next i ≤ m'.next i
  cell : ∀ i a, a < m.next i → ¬ W i a → m'.cell i a = m.cell i a

namespace Keeps

theorem refl (W : ι → Nat → Prop) (m : Mem ι α) : Keeps W m m :=
  ⟨fun _ => le_rfl, fun _ _ _ _ => rfl⟩

/-- Later, arrays may change that were not there before. -/
theorem trans (h : Keeps W m m') (h' : Keeps W' m' m'')
    (hW : ∀ i a, a < m.next i → W' i a → W i a) : Keeps W m m'' :=
  ⟨fun i => (h.next i).trans (h'.next i), fun i a ha hn =>
    (h'.cell i a (ha.trans_le (h.next i)) fun hw => hn (hW i a ha hw)).trans (h.cell i a ha hn)⟩

theorem mono (h : Keeps W m m') (hW : ∀ i a, a < m.next i → W i a → W' i a) : Keeps W' m m' :=
  ⟨h.next, fun i a ha hn => h.cell i a ha fun hw => hn (hW i a ha hw)⟩

theorem held (h : Keeps W m m') (hs : s.Held m) : s.Held m' :=
  ⟨hs.len_le, fun hc => (hs.lt hc).trans_le (h.next _)⟩

theorem get {i : Nat} (h : Keeps W m m') (hs : s.Held m) (hW : ∀ i a, s.Into i a → ¬ W i a)
    (hi : i < s.cap) : m'.get s i = m.get s i := by
  have hc : 0 < s.cap := Nat.zero_lt_of_lt hi
  exact congrFun (h.cell s.site s.array (hs.lt hc) (hW _ _ ⟨rfl, rfl, hc⟩)) _

/-- A slice into an array that is not written goes on showing what it showed. -/
theorem read (h : Keeps W m m') (hs : s.Held m) (hW : ∀ i a, s.Into i a → ¬ W i a) :
    m'.read s = m.read s :=
  List.map_congr_left fun _ hi =>
    h.get hs hW ((List.mem_range.1 hi).trans_le hs.len_le)

end Keeps

/-! ### Allocating -/

variable [DecidableEq ι] [Inhabited α]

/-- A new array of `cap` elements that begins with `xs`. -/
def alloc (site : ι) (xs : List α) (cap : Nat) (m : Mem ι α) : Mem ι α × Slice ι :=
  (⟨fun i a j => if i = site ∧ a = m.next site then xs.getD j default else m.cell i a j,
    fun i => if i = site then m.next i + 1 else m.next i⟩,
    ⟨site, m.next site, 0, xs.length, cap⟩)

theorem alloc_keeps (W : ι → Nat → Prop) (site : ι) (xs : List α) (cap : Nat) (m : Mem ι α) :
    Keeps W m (m.alloc site xs cap).1 := by
  refine ⟨fun i => ?_, fun i a ha _ => funext fun j => ?_⟩
  · simp only [alloc]
    split <;> omega
  · refine if_neg ?_
    rintro ⟨rfl, rfl⟩
    exact lt_irrefl _ ha

theorem alloc_held (site : ι) (xs : List α) {cap : Nat} (hcap : xs.length ≤ cap) (m : Mem ι α) :
    (m.alloc site xs cap).2.Held (m.alloc site xs cap).1 :=
  ⟨hcap, fun _ => by simp [alloc]⟩

@[simp] theorem read_alloc (site : ι) (xs : List α) (cap : Nat) (m : Mem ι α) :
    (m.alloc site xs cap).1.read (m.alloc site xs cap).2 = xs := by
  refine List.ext_getElem (by simp [alloc]) fun i h _ => ?_
  have hi : i < xs.length := by simpa [alloc] using h
  simp [read, get, alloc, hi]

/-! ### Appending -/

/-- How much room a new array gets: at least what is needed. -/
structure Growth where
  cap : (old needed : Nat) → Nat
  needed_le : ∀ old needed, needed ≤ cap old needed

/-- `append(s, xs...)`; a new array is the site's. -/
def append (grow : Growth) (site : ι) (s : Slice ι) (xs : List α) (m : Mem ι α) :
    Mem ι α × Slice ι :=
  if s.len + xs.length ≤ s.cap then
    (⟨fun i a j =>
        if i = s.site ∧ a = s.array ∧ s.off + s.len ≤ j ∧ j < s.off + s.len + xs.length then
          xs.getD (j - (s.off + s.len)) default
        else m.cell i a j, m.next⟩,
      { s with len := s.len + xs.length })
  else m.alloc site (m.read s ++ xs) (grow.cap s.cap (s.len + xs.length))

section

variable {grow : Growth} {site : ι} {xs : List α}

/-- **An appended slice shows what was there and then the new elements.** -/
theorem read_append (m : Mem ι α) (s : Slice ι) :
    (m.append grow site s xs).1.read (m.append grow site s xs).2 = m.read s ++ xs := by
  unfold append
  split
  · refine List.ext_getElem (by simp) fun i h _ => ?_
    have hi : i < s.len + xs.length := by simpa using h
    by_cases hs : i < s.len
    · rw [List.getElem_append_left (by simpa using hs)]
      simp [read, get, Nat.not_le.2 hs]
    · rw [List.getElem_append_right (by simpa using hs)]
      have hx : i - s.len < xs.length := by omega
      have hj : s.off + i - (s.off + s.len) = i - s.len := by omega
      have hend : s.off + i < s.off + s.len + xs.length := by omega
      simp [read, get, hj, hx, hend, Nat.not_lt.1 hs]
  · exact read_alloc _ _ _ _

/-- `append` writes to the slice's own array at most. -/
theorem append_keeps (m : Mem ι α) (s : Slice ι) :
    Keeps s.Into m (m.append grow site s xs).1 := by
  unfold append
  split
  case isFalse => exact alloc_keeps _ _ _ _ _
  case isTrue h =>
    refine ⟨fun _ => le_rfl, fun i a _ hn => funext fun j => if_neg ?_⟩
    rintro ⟨hi, ha, hlo, hhi⟩
    exact hn ⟨hi, ha, by omega⟩

theorem append_held (hs : s.Held m) :
    (m.append grow site s xs).2.Held (m.append grow site s xs).1 := by
  unfold append
  split
  case isTrue h => exact ⟨h, hs.lt⟩
  case isFalse =>
    refine alloc_held _ _ ?_ _
    rw [List.length_append, length_read]
    exact grow.needed_le _ _

/-- The slice looks into the same array as before, or into a new one. -/
theorem append_array {i : ι} {a : Nat} (h : (m.append grow site s xs).2.Into i a) :
    s.Into i a ∨ m.next i ≤ a := by
  revert h
  unfold append
  split
  case isTrue => exact .inl
  case isFalse =>
    rintro ⟨rfl, rfl, -⟩
    exact .inr le_rfl

theorem append_site (hs : s.site = site) : (m.append grow site s xs).2.site = site := by
  unfold append
  split
  · exact hs
  · rfl

end

end Mem

end MiniRedis.Slices
