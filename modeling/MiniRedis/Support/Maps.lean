import Mathlib.Data.Finmap
import Mathlib.Data.Finset.Card
import Mathlib.Data.Finset.Sort

/-!
# Support — Maps

Finite maps whose iteration order belongs to the runtime.  A `Dict` is Mathlib's `Finmap` with
one value type: two maps with the same lookups are equal, and nothing in it fixes an order.  A
loop that ranges over a map runs over *some* list of its entries, each of them once; `Lists l m`
and `ListsSet l s` say that `l` is such a list.

* `lists_sorted`, `listsSet_sort`: there is always one, in the order of the keys.
* `Lists.perm`: two lists of one map are permutations of each other.
* `Lists.putAll`, `ListsSet.addAll`: inserting what was ranged over rebuilds the collection,
  whatever the order was.
* `size_putAll`, `size_dropAll`, `card_addAll`, `card_remAll`: what a loop counted is by how much
  the collection grew or shrank.
-/

namespace MiniRedis.Maps

variable {κ α : Type*} [DecidableEq κ]

/-- A finite map from `κ` to `α`. -/
abbrev Dict (κ α : Type*) := Finmap fun _ : κ => α

theorem lookup_insert_ite (m : Dict κ α) (k k' : κ) (a : α) :
    (m.insert k a).lookup k' = if k' = k then some a else m.lookup k' := by
  split
  case isTrue h => subst h; exact Finmap.lookup_insert m
  case isFalse h => exact Finmap.lookup_insert_of_ne m h

theorem lookup_erase_ite (m : Dict κ α) (k k' : κ) :
    (m.erase k).lookup k' = if k' = k then none else m.lookup k' := by
  split
  case isTrue h => subst h; exact Finmap.lookup_erase k' m
  case isFalse h => exact Finmap.lookup_erase_ne h

/-- The map with every value changed by `f`. -/
def mapValues {β : Type*} (f : α → β) (m : Dict κ α) : Dict κ β :=
  Finmap.keysLookupEquiv.symm ⟨(m.keys, fun k => (m.lookup k).map f),
    fun k => by rw [Option.isSome_map, Finmap.lookup_isSome, Finmap.mem_keys]⟩

@[simp] theorem lookup_mapValues {β : Type*} (f : α → β) (m : Dict κ α) (k : κ) :
    (mapValues f m).lookup k = (m.lookup k).map f := by
  simp [mapValues]

theorem mapValues_insert {β : Type*} (f : α → β) (m : Dict κ α) (k : κ) (a : α) :
    mapValues f (m.insert k a) = (mapValues f m).insert k (f a) := by
  refine Finmap.ext_lookup fun k' => ?_
  simp only [lookup_mapValues, lookup_insert_ite]
  split <;> rfl

theorem mapValues_erase {β : Type*} (f : α → β) (m : Dict κ α) (k : κ) :
    mapValues f (m.erase k) = (mapValues f m).erase k := by
  refine Finmap.ext_lookup fun k' => ?_
  simp only [lookup_mapValues, lookup_erase_ite]
  split <;> rfl

theorem mem_mapValues {β : Type*} {f : α → β} {m : Dict κ α} {k : κ} :
    k ∈ mapValues f m ↔ k ∈ m := by
  simp [Finmap.mem_iff]

theorem mapValues_congr {β : Type*} {f g : α → β} {m : Dict κ α}
    (h : ∀ k a, m.lookup k = some a → f a = g a) : mapValues f m = mapValues g m := by
  refine Finmap.ext_lookup fun k => ?_
  rw [lookup_mapValues, lookup_mapValues]
  exact Option.map_congr fun a ha => h k a ha

@[simp] theorem mapValues_empty {β : Type*} (f : α → β) : mapValues f (∅ : Dict κ α) = ∅ :=
  Finmap.ext_lookup fun k => by simp

/-- The number of entries. -/
def size (m : Dict κ α) : Nat := m.keys.card

@[simp] theorem size_mapValues {β : Type*} (f : α → β) (m : Dict κ α) :
    size (mapValues f m) = size m := by
  refine congrArg Finset.card (Finset.ext fun k => ?_)
  rw [Finmap.mem_keys, Finmap.mem_keys, mem_mapValues]

theorem size_eq_zero {m : Dict κ α} : size m = 0 ↔ m = ∅ := by
  rw [size, Finset.card_eq_zero]
  refine ⟨fun h => Finmap.ext_lookup fun k => ?_, fun h => by rw [h, Finmap.keys_empty]⟩
  rw [Finmap.lookup_empty, Finmap.lookup_eq_none, ← Finmap.mem_keys, h]
  exact Finset.notMem_empty k

/-! ### Ranging over a map -/

/-- `l` lists the entries of `m`, each exactly once. -/
structure Lists (l : List (κ × α)) (m : Dict κ α) : Prop where
  nodup : (l.map Prod.fst).Nodup
  mem_iff : ∀ k a, (k, a) ∈ l ↔ m.lookup k = some a

/-- `l` lists the members of `s`, each exactly once. -/
structure ListsSet (l : List κ) (s : Finset κ) : Prop where
  nodup : l.Nodup
  mem_iff : ∀ a, a ∈ l ↔ a ∈ s

namespace Lists

variable {l l' : List (κ × α)} {m : Dict κ α}

theorem mem_keys (h : Lists l m) (k : κ) : k ∈ l.map Prod.fst ↔ k ∈ m := by
  simp only [List.mem_map, Prod.exists, exists_and_right, exists_eq_right, h.mem_iff,
    Finmap.mem_iff]

theorem perm (h : Lists l m) (h' : Lists l' m) : l.Perm l' := by
  refine (List.perm_ext_iff_of_nodup h.nodup.of_map h'.nodup.of_map).2 fun p => ?_
  rw [← Prod.mk.eta (p := p), h.mem_iff, h'.mem_iff]

theorem mapValues {β : Type*} (h : Lists l m) (f : α → β) :
    Lists (l.map fun p => (p.1, f p.2)) (mapValues f m) where
  nodup := by
    rw [List.map_map]
    exact h.nodup
  mem_iff k b := by
    rw [lookup_mapValues, Option.map_eq_some_iff, List.mem_map]
    constructor
    · rintro ⟨⟨k', a⟩, hp, he⟩
      cases he
      exact ⟨a, (h.mem_iff _ a).1 hp, rfl⟩
    · rintro ⟨a, ha, rfl⟩
      exact ⟨(k, a), (h.mem_iff k a).2 ha, rfl⟩

theorem length_eq (h : Lists l m) : l.length = size m := by
  have hkeys : (l.map Prod.fst).toFinset = m.keys := by
    ext k
    rw [List.mem_toFinset, h.mem_keys, Finmap.mem_keys]
  rw [size, ← hkeys, List.toFinset_card_of_nodup h.nodup, List.length_map]

end Lists

omit [DecidableEq κ] in
theorem ListsSet.perm {l l' : List κ} {s : Finset κ} (h : ListsSet l s) (h' : ListsSet l' s) :
    l.Perm l' :=
  (List.perm_ext_iff_of_nodup h.nodup h'.nodup).2 fun a => by rw [h.mem_iff, h'.mem_iff]

theorem ListsSet.length_eq {l : List κ} {s : Finset κ} (h : ListsSet l s) :
    l.length = s.card := by
  have hset : l.toFinset = s := by
    ext a
    rw [List.mem_toFinset, h.mem_iff]
  rw [← hset, List.toFinset_card_of_nodup h.nodup]

section Sorted

variable (r : κ → κ → Prop) [DecidableRel r] [IsTrans κ r] [Std.Antisymm r] [Std.Total r]

/-- The entries of a map in the order of their keys. -/
def sorted (m : Dict κ α) : List (κ × α) :=
  (m.keys.sort r).filterMap fun k => (m.lookup k).map fun a => (k, a)

theorem mem_sorted (m : Dict κ α) (k : κ) (a : α) :
    (k, a) ∈ sorted r m ↔ m.lookup k = some a := by
  simp only [sorted, List.mem_filterMap, Finset.mem_sort, Finmap.mem_keys, Option.map_eq_some_iff,
    Prod.mk.injEq]
  constructor
  · rintro ⟨k', -, a', ha, rfl, rfl⟩
    exact ha
  · exact fun h => ⟨k, Finmap.mem_of_lookup_eq_some h, a, h, rfl, rfl⟩

theorem map_fst_sorted (m : Dict κ α) : (sorted r m).map Prod.fst = m.keys.sort r := by
  have h : ∀ l : List κ, (∀ k ∈ l, k ∈ m) →
      (l.filterMap fun k => (m.lookup k).map fun a => (k, a)).map Prod.fst = l := by
    intro l hl
    induction l with
    | nil => rfl
    | cons k l ih =>
        obtain ⟨a, ha⟩ := Finmap.mem_iff.1 (hl k List.mem_cons_self)
        rw [List.filterMap_cons_some (by rw [ha]; rfl), List.map_cons,
          ih fun k hk => hl k (List.mem_cons_of_mem _ hk)]
  exact h _ fun k hk => Finmap.mem_keys.1 ((Finset.mem_sort r).1 hk)

theorem lists_sorted (m : Dict κ α) : Lists (sorted r m) m :=
  ⟨by rw [map_fst_sorted]; exact Finset.sort_nodup _ r, mem_sorted r m⟩

omit [DecidableEq κ] in
theorem listsSet_sort (s : Finset κ) : ListsSet (s.sort r) s :=
  ⟨Finset.sort_nodup s r, fun _ => Finset.mem_sort r⟩

end Sorted

/-! ### Loops that insert or delete, counting what they changed -/

/-- Insert the pairs in order, counting the keys that were new. -/
def putAll (m : Dict κ α) : List (κ × α) → Dict κ α × Nat
  | [] => (m, 0)
  | (k, a) :: l =>
      let (m', n) := putAll (m.insert k a) l
      (m', (if k ∈ m then 0 else 1) + n)

/-- Delete the keys in order, counting those that were there. -/
def dropAll (m : Dict κ α) : List κ → Dict κ α × Nat
  | [] => (m, 0)
  | k :: l =>
      let (m', n) := dropAll (m.erase k) l
      (m', (if k ∈ m then 1 else 0) + n)

/-- Add the members in order, counting those that were new. -/
def addAll (s : Finset κ) : List κ → Finset κ × Nat
  | [] => (s, 0)
  | a :: l =>
      let (s', n) := addAll (insert a s) l
      (s', (if a ∈ s then 0 else 1) + n)

/-- Remove the members in order, counting those that were there. -/
def remAll (s : Finset κ) : List κ → Finset κ × Nat
  | [] => (s, 0)
  | a :: l =>
      let (s', n) := remAll (s.erase a) l
      (s', (if a ∈ s then 1 else 0) + n)

/-- The keys after `putAll`. -/
theorem mem_putAll : ∀ (l : List (κ × α)) (m : Dict κ α) (k : κ),
    k ∈ (putAll m l).1 ↔ k ∈ m ∨ k ∈ l.map Prod.fst
  | [], _, _ => by simp [putAll]
  | (k', a) :: l, m, k => by
      rw [putAll, mem_putAll l, Finmap.mem_insert, List.map_cons, List.mem_cons]
      tauto

/-- A key that is not put stays as it is, -/
theorem lookup_putAll_of_notMem : ∀ (l : List (κ × α)) (m : Dict κ α) (k : κ),
    k ∉ l.map Prod.fst → (putAll m l).1.lookup k = m.lookup k
  | [], _, _, _ => rfl
  | (k', a) :: l, m, k, h => by
      obtain ⟨hk, hl⟩ := List.ne_and_not_mem_of_not_mem_cons h
      rw [putAll, lookup_putAll_of_notMem l _ k hl, lookup_insert_ite, if_neg hk]

/-- and one that is put gets its value. -/
theorem lookup_putAll_of_mem : ∀ (l : List (κ × α)) (m : Dict κ α) (k : κ) (a : α),
    (l.map Prod.fst).Nodup → (k, a) ∈ l → (putAll m l).1.lookup k = some a
  | (k', a') :: l, m, k, a, hn, h => by
      obtain ⟨hk, hl⟩ := List.nodup_cons.1 hn
      rcases List.mem_cons.1 h with he | ht
      · cases he
        rw [putAll, lookup_putAll_of_notMem l _ k' hk, lookup_insert_ite, if_pos rfl]
      · exact lookup_putAll_of_mem l _ k a hl ht

/-- The last pair of a key is the one that stays. -/
theorem lookup_putAll_last (m : Dict κ α) {pre post : List (κ × α)} {k : κ} {a : α}
    (h : k ∉ post.map Prod.fst) : (putAll m (pre ++ (k, a) :: post)).1.lookup k = some a := by
  induction pre generalizing m with
  | nil =>
      rw [List.nil_append, putAll, lookup_putAll_of_notMem post _ k h, lookup_insert_ite,
        if_pos rfl]
  | cons p pre ih => exact ih (m.insert p.1 p.2)

/-- A key that is dropped is gone, and no other. -/
theorem lookup_dropAll : ∀ (l : List κ) (m : Dict κ α) (k : κ),
    (dropAll m l).1.lookup k = if k ∈ l then none else m.lookup k
  | [], _, _ => by simp [dropAll]
  | k' :: l, m, k => by
      rw [dropAll, lookup_dropAll l, lookup_erase_ite]
      by_cases hk : k = k' <;> simp [hk]

/-- **Inserting the entries that were ranged over rebuilds the map.** -/
theorem Lists.putAll {l : List (κ × α)} {m : Dict κ α} (h : Lists l m) :
    (putAll ∅ l).1 = m := by
  refine Finmap.ext_lookup fun k => ?_
  cases hm : m.lookup k with
  | some a => exact lookup_putAll_of_mem l ∅ k a h.nodup ((h.mem_iff k a).2 hm)
  | none =>
      rw [lookup_putAll_of_notMem l ∅ k, Finmap.lookup_empty]
      rw [h.mem_keys, ← Finmap.lookup_eq_none]
      exact hm

theorem addAll_eq_union : ∀ (l : List κ) (s : Finset κ), (addAll s l).1 = s ∪ l.toFinset
  | [], s => by simp [addAll]
  | a :: l, s => by
      rw [addAll, addAll_eq_union l, List.toFinset_cons, Finset.insert_union,
        Finset.union_insert]

/-- **Adding the members that were ranged over rebuilds the set.** -/
theorem ListsSet.addAll {l : List κ} {s : Finset κ} (h : ListsSet l s) : (addAll ∅ l).1 = s := by
  rw [addAll_eq_union, Finset.empty_union]
  ext a
  rw [List.mem_toFinset, h.mem_iff]

theorem mapValues_dropAll {β : Type*} (f : α → β) : ∀ (l : List κ) (m : Dict κ α),
    dropAll (mapValues f m) l = (mapValues f (dropAll m l).1, (dropAll m l).2)
  | [], _ => rfl
  | k :: l, m => by
      simp only [dropAll, ← mapValues_erase, mapValues_dropAll f l, mem_mapValues]

theorem dropAll_empty : ∀ l : List κ, dropAll (∅ : Dict κ α) l = (∅, 0)
  | [] => rfl
  | k :: l => by
      have hempty : (∅ : Dict κ α).erase k = ∅ := Finmap.ext_lookup fun k' => by
        rw [lookup_erase_ite]
        split <;> simp
      simp [dropAll, hempty, dropAll_empty l, Finmap.notMem_empty]

theorem remAll_empty : ∀ l : List κ, remAll (∅ : Finset κ) l = (∅, 0)
  | [] => rfl
  | a :: l => by
      simp [remAll, remAll_empty l]

/-! ### The counts are differences of sizes -/

theorem size_insert (m : Dict κ α) (k : κ) (a : α) :
    size (m.insert k a) = size m + if k ∈ m then 0 else 1 := by
  have hkeys : (m.insert k a).keys = insert k m.keys := by
    ext k'
    rw [Finmap.mem_keys, Finmap.mem_insert, Finset.mem_insert, Finmap.mem_keys]
  rw [size, hkeys, Finset.card_insert_eq_ite]
  simp only [Finmap.mem_keys, size]
  split <;> rfl

theorem card_erase_add (s : Finset κ) (a : κ) :
    (s.erase a).card + (if a ∈ s then 1 else 0) = s.card := by
  split
  case isTrue h => exact Finset.card_erase_add_one h
  case isFalse h => rw [Finset.erase_eq_of_notMem h, Nat.add_zero]

theorem size_erase (m : Dict κ α) (k : κ) :
    size (m.erase k) + (if k ∈ m then 1 else 0) = size m := by
  simp only [size, Finmap.keys_erase, ← card_erase_add m.keys k, Finmap.mem_keys]

/-- `putAll` counts by how much the map has grown, -/
theorem size_putAll : ∀ (l : List (κ × α)) (m : Dict κ α),
    size (putAll m l).1 = size m + (putAll m l).2
  | [], _ => rfl
  | (k, a) :: l, m => by
      rw [putAll, size_putAll l, size_insert, Nat.add_assoc]

/-- `dropAll` by how much it has shrunk, -/
theorem size_dropAll : ∀ (l : List κ) (m : Dict κ α),
    size (dropAll m l).1 + (dropAll m l).2 = size m
  | [], _ => rfl
  | k :: l, m => by
      rw [dropAll, ← size_erase m k, ← size_dropAll l (m.erase k)]
      dsimp only
      omega

/-- `addAll` by how much the set has grown, -/
theorem card_addAll : ∀ (l : List κ) (s : Finset κ),
    (addAll s l).1.card = s.card + (addAll s l).2
  | [], _ => rfl
  | a :: l, s => by
      rw [addAll, card_addAll l, Finset.card_insert_eq_ite]
      dsimp only
      split <;> omega

/-- and `remAll` by how much it has shrunk. -/
theorem card_remAll : ∀ (l : List κ) (s : Finset κ),
    (remAll s l).1.card + (remAll s l).2 = s.card
  | [], _ => rfl
  | a :: l, s => by
      rw [remAll, ← card_erase_add s a, ← card_remAll l (s.erase a)]
      dsimp only
      omega

/-! ### The loops on two lists, one after the other -/

theorem putAll_append : ∀ (l l' : List (κ × α)) (m : Dict κ α),
    putAll m (l ++ l') =
      ((putAll (putAll m l).1 l').1, (putAll m l).2 + (putAll (putAll m l).1 l').2)
  | [], l', m => by simp [putAll]
  | (k, a) :: l, l', m => by simp [putAll, putAll_append l, Nat.add_assoc]

theorem dropAll_append : ∀ (l l' : List κ) (m : Dict κ α),
    dropAll m (l ++ l') =
      ((dropAll (dropAll m l).1 l').1, (dropAll m l).2 + (dropAll (dropAll m l).1 l').2)
  | [], l', m => by simp [dropAll]
  | k :: l, l', m => by simp [dropAll, dropAll_append l, Nat.add_assoc]

theorem addAll_append : ∀ (l l' : List κ) (s : Finset κ),
    addAll s (l ++ l') =
      ((addAll (addAll s l).1 l').1, (addAll s l).2 + (addAll (addAll s l).1 l').2)
  | [], l', s => by simp [addAll]
  | a :: l, l', s => by simp [addAll, addAll_append l, Nat.add_assoc]

theorem remAll_append : ∀ (l l' : List κ) (s : Finset κ),
    remAll s (l ++ l') =
      ((remAll (remAll s l).1 l').1, (remAll s l).2 + (remAll (remAll s l).1 l').2)
  | [], l', s => by simp [remAll]
  | a :: l, l', s => by simp [remAll, remAll_append l, Nat.add_assoc]

end MiniRedis.Maps
