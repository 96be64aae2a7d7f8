import MiniRedis.Reference.Dispatch
import MiniRedis.Store.Memory
import MiniRedis.Support.Machine

/-!
# Store — Aliasing

When slices may be read as values.  A byte slice is *safe* when its array is not a caller's: such
arrays are written once, when they are allocated.  A *table* is a slice of safe byte slices, into an
array of a known site.  Both show the same as long as memory *keeps* the arrays they look into.

* `append_spec`, `appendEach_spec`, `fresh_each`, `appendBoth_spec`, `putClones_spec`: what the
  loops of the methods do to memory, and what the slices they leave show.
* `Payload.value`, `Payload.Safe`: the value of an entry, and when it is kept.
* `Kind.Means`: a kind of memory and the kind of its values.
-/

namespace MiniRedis.Store.Memory

open Maps Slices Machine Reference

/-! ### Memory that is kept -/

/-- No array. -/
def nowhere (_ : Site) (_ : Nat) : Prop := False

namespace Heap

/-- Nothing has changed but the byte arrays of `B` and the tables of `W`. -/
structure Keeps (B W : Site → Nat → Prop) (h h' : Heap) : Prop where
  bytes : h.bytes.Keeps B h'.bytes
  tables : h.tables.Keeps W h'.tables

/-- A byte slice into an array that is not a caller's. -/
structure Safe (b : Ref) (h : Heap) : Prop where
  site : b.site ≠ .caller
  held : b.Held h.bytes

/-- A slice of safe byte slices, into a table of the site. -/
structure Table (site : Site) (l : Ref) (h : Heap) : Prop where
  site : l.site = site
  held : l.Held h.tables
  items : ∀ b ∈ h.tables.read l, h.Safe b

variable {h h' h'' : Heap} {B W W' : Site → Nat → Prop} {b l : Ref} {site : Site}

namespace Keeps

theorem refl (B W : Site → Nat → Prop) (h : Heap) : h.Keeps B W h := ⟨.refl B _, .refl W _⟩

/-- Tables that were not there before may change. -/
theorem trans (k : h.Keeps B W h') (k' : h'.Keeps B W' h'')
    (hW : ∀ i a, a < h.tables.next i → W' i a → W i a) : h.Keeps B W h'' :=
  ⟨k.bytes.trans k'.bytes fun _ _ _ hB => hB, k.tables.trans k'.tables hW⟩

theorem mono (k : h.Keeps nowhere W h') (hW : ∀ i a, a < h.tables.next i → W i a → W' i a) :
    h.Keeps B W' h' :=
  ⟨k.bytes.mono fun _ _ _ hB => hB.elim, k.tables.mono hW⟩

theorem safe (k : h.Keeps B W h') (hb : h.Safe b) : h'.Safe b := ⟨hb.site, k.bytes.held hb.held⟩

/-- A safe slice goes on showing what it showed when only arrays of callers are written. -/
theorem text (k : h.Keeps B W h') (hB : ∀ i a, B i a → i = .caller) (hb : h.Safe b) :
    h'.text b = h.text b :=
  k.bytes.read hb.held fun i a hi hBi => hb.site (hi.1.symm.trans (hB i a hBi))

/-- An argument, as long as nothing is written to byte arrays. -/
theorem text_held (k : h.Keeps nowhere W h') (hb : b.Held h.bytes) : h'.text b = h.text b :=
  k.bytes.read hb fun _ _ _ hn => hn

theorem read (k : h.Keeps B W h') (hl : l.Held h.tables) (hW : ∀ i a, l.Into i a → ¬ W i a) :
    h'.tables.read l = h.tables.read l := k.tables.read hl hW

/-- A table that is not written stays a table of safe slices, -/
theorem table (k : h.Keeps B W h') (hl : h.Table site l) (hW : ∀ i a, l.Into i a → ¬ W i a) :
    h'.Table site l :=
  ⟨hl.site, k.tables.held hl.held, by
    rw [k.read hl.held hW]
    exact fun b hb => k.safe (hl.items b hb)⟩

/-- and goes on showing what it showed. -/
theorem texts (k : h.Keeps B W h') (hB : ∀ i a, B i a → i = .caller) (hl : h.Table site l)
    (hW : ∀ i a, l.Into i a → ¬ W i a) : h'.texts l = h.texts l := by
  unfold Heap.texts
  rw [k.read hl.held hW]
  exact List.map_congr_left fun b hb => k.text hB (hl.items b hb)

end Keeps

/-! ### What the operations on memory do -/

theorem table_nil (site : Site) (h : Heap) : h.Table site (.nil site) :=
  ⟨rfl, ⟨le_rfl, fun hc => absurd hc (lt_irrefl 0)⟩, nofun⟩

theorem not_into_nil (site : Site) (i : Site) (a : Nat) : ¬ (Slice.nil site).Into i a :=
  fun hi => lt_irrefl 0 hi.2.2

theorem newBytes_keeps (site : Site) (s : Bytes) (h : Heap) :
    h.Keeps nowhere nowhere (h.newBytes site s).1 :=
  ⟨Mem.alloc_keeps _ _ _ s.length _, .refl _ _⟩

theorem newBytes_safe (hsite : site ≠ .caller) (s : Bytes) (h : Heap) :
    (h.newBytes site s).1.Safe (h.newBytes site s).2 :=
  ⟨hsite, Mem.alloc_held _ _ le_rfl _⟩

@[simp] theorem text_newBytes (site : Site) (s : Bytes) (h : Heap) :
    (h.newBytes site s).1.text (h.newBytes site s).2 = s := Mem.read_alloc _ _ _ _

theorem make_keeps (site : Site) (n : Nat) (h : Heap) : h.Keeps nowhere nowhere (h.make site n).1 :=
  ⟨.refl _ _, Mem.alloc_keeps _ _ _ n _⟩

theorem make_table (site : Site) (n : Nat) (h : Heap) :
    (h.make site n).1.Table site (h.make site n).2 :=
  ⟨rfl, Mem.alloc_held _ _ (Nat.zero_le _) _, nofun⟩

theorem make_into (site : Site) (n : Nat) (h : Heap) {i : Site} {a : Nat}
    (hi : (h.make site n).2.Into i a) : i = site ∧ h.tables.next i ≤ a := by
  obtain ⟨rfl, rfl, -⟩ := hi
  exact ⟨rfl, le_rfl⟩

/-- What appending to a slice of byte slices has to do. -/
structure Appended (site : Site) (l : Ref) (h : Heap) (values : List Bytes) (r : Heap × Ref) :
    Prop where
  keeps : h.Keeps nowhere l.Into r.1
  table : r.1.Table site r.2
  texts : r.1.texts r.2 = h.texts l ++ values
  into : ∀ i a, r.2.Into i a → l.Into i a ∨ h.tables.next i ≤ a

@[simp] theorem length_texts (l : Ref) (h : Heap) : (h.texts l).length = l.len := by
  rw [texts, List.length_map, Mem.length_read]

/-- `append` gives a table that shows the items behind what the old one showed. -/
theorem append_spec (grow : Mem.Growth) (hl : h.Table site l) (items : List Ref)
    (hitems : ∀ b ∈ items, h.Safe b) :
    Appended site l h (items.map fun b => h.text b) (h.append grow site l items) := by
  have hk : h.Keeps nowhere l.Into (h.append grow site l items).1 :=
    ⟨.refl _ _, Mem.append_keeps _ _⟩
  have hread : (h.append grow site l items).1.tables.read (h.append grow site l items).2 =
      h.tables.read l ++ items := Mem.read_append _ _
  refine ⟨hk, ⟨Mem.append_site hl.site, Mem.append_held hl.held, ?_⟩, ?_,
    fun _ _ => Mem.append_array⟩
  · rw [hread]
    intro b hb
    rcases List.mem_append.1 hb with hb | hb
    · exact hk.safe (hl.items b hb)
    · exact hk.safe (hitems b hb)
  · unfold texts
    rw [hread, List.map_append]
    rfl

/-- A loop that appends safe items appends what they show. -/
theorem appendEach_spec {β : Type} (grow : Mem.Growth) {item : β → Heap → Heap × Ref}
    (value : β → Bytes) (xs : List β) (hl : h.Table site l)
    (hitem : ∀ x ∈ xs, ∀ h₁, h.Keeps nowhere l.Into h₁ → h₁.Keeps nowhere nowhere (item x h₁).1 ∧
      (item x h₁).1.Safe (item x h₁).2 ∧ (item x h₁).1.text (item x h₁).2 = value x) :
    Appended site l h (xs.map value) (h.appendEach grow site item xs l) := by
  induction xs generalizing h l with
  | nil => exact ⟨.refl _ _ _, hl, (List.append_nil _).symm, fun _ _ => .inl⟩
  | cons x xs ih =>
      obtain ⟨hk, hsafe, hval⟩ := hitem x List.mem_cons_self h (.refl _ _ _)
      -- the item first, then the place it is put at
      have happ := append_spec grow (hk.table hl fun _ _ _ hn => hn) [(item x h).2]
        (by simpa using hsafe)
      have hk₁ : h.Keeps nowhere l.Into ((item x h).1.append grow site l [(item x h).2]).1 :=
        (hk.mono fun _ _ _ hn => hn.elim).trans happ.keeps fun _ _ _ hi => hi
      have hinto : ∀ i a, a < h.tables.next i →
          ((item x h).1.append grow site l [(item x h).2]).2.Into i a → l.Into i a := by
        intro i a ha hi
        exact (happ.into i a hi).resolve_right
          (Nat.not_le.2 (ha.trans_le (hk.tables.next i)))
      obtain ⟨hk₂, htable, htexts, hinto₂⟩ := ih happ.table fun y hy h₁ hh₁ =>
        hitem y (List.mem_cons_of_mem _ hy) h₁ (hk₁.trans hh₁ hinto)
      refine ⟨hk₁.trans hk₂ hinto, htable, ?_, fun i a hi => ?_⟩
      · refine htexts.trans ?_
        rw [happ.texts, hk.texts nofun hl fun _ _ _ hn => hn, List.append_assoc]
        simp only [List.map_cons, List.map_nil, hval, List.singleton_append]
      · rcases hinto₂ i a hi with h₁ | h₁
        · rcases happ.into i a h₁ with h₂ | h₂
          · exact .inl h₂
          · exact .inr ((hk.tables.next i).trans h₂)
        · exact .inr ((hk₁.tables.next i).trans h₁)

/-- Appending to one slice leaves another alone that looks elsewhere, and they stay apart. -/
theorem Appended.other {values : List Bytes} {r : Heap × Ref} (hr : Appended site l h values r)
    {site' : Site} {l' : Ref} (hl' : h.Table site' l')
    (hapart : ∀ i a, l.Into i a → ¬ l'.Into i a) :
    r.1.Table site' l' ∧ r.1.texts l' = h.texts l' ∧ ∀ i a, r.2.Into i a → ¬ l'.Into i a := by
  have hW : ∀ i a, l'.Into i a → ¬ l.Into i a := fun i a hi hn => hapart i a hn hi
  refine ⟨hr.keeps.table hl' hW, hr.keeps.texts nofun hl' hW, fun i a hi hn => ?_⟩
  rcases hr.into i a hi with hi | hi
  · exact hapart i a hi hn
  · exact absurd (hl'.held.into_lt hn) (Nat.not_lt.2 hi)

/-- A slice into a new table. -/
structure Fresh (site : Site) (h : Heap) (values : List Bytes) (r : Heap × Ref) : Prop where
  keeps : h.Keeps nowhere nowhere r.1
  table : r.1.Table site r.2
  texts : r.1.texts r.2 = values
  into : ∀ i a, r.2.Into i a → h.tables.next i ≤ a

/-- A loop that fills a slice it has made. -/
theorem fresh_each {β : Type} (grow : Mem.Growth) (site : Site) {item : β → Heap → Heap × Ref}
    (value : β → Bytes) (xs : List β) (n : Nat)
    (hitem : ∀ x ∈ xs, ∀ h₁, h.Keeps nowhere nowhere h₁ → h₁.Keeps nowhere nowhere (item x h₁).1 ∧
      (item x h₁).1.Safe (item x h₁).2 ∧ (item x h₁).1.text (item x h₁).2 = value x) :
    Fresh site h (xs.map value)
      ((h.make site n).1.appendEach grow site item xs (h.make site n).2) := by
  have hk := h.make_keeps site n
  have hnew : ∀ i a, a < h.tables.next i → (h.make site n).2.Into i a → nowhere i a :=
    fun i a ha hi => absurd ha (Nat.not_lt.2 (h.make_into site n hi).2)
  have happ := appendEach_spec grow value xs (h.make_table site n) fun x hx h₁ hk₁ =>
    hitem x hx h₁ (hk.trans hk₁ hnew)
  refine ⟨hk.trans happ.keeps hnew, happ.table, happ.texts, fun i a hi => ?_⟩
  rcases happ.into i a hi with hi | hi
  · exact (h.make_into site n hi).2
  · exact (hk.tables.next i).trans hi

/-- The elements of another slice, copied behind those of a new one. -/
theorem Fresh.append {values : List Bytes} {r : Heap × Ref} (hr : Fresh site h values r)
    (grow : Mem.Growth) {site' : Site} (hl : h.Table site' l) :
    Fresh site h (values ++ h.texts l) (r.1.append grow site r.2 (r.1.tables.read l)) := by
  have hl' := hr.keeps.table hl fun _ _ _ hn => hn
  have happ := append_spec grow hr.table _ hl'.items
  refine ⟨hr.keeps.trans happ.keeps fun i a ha hi => ?_, happ.table, ?_, fun i a hi => ?_⟩
  · exact absurd ha (Nat.not_lt.2 (hr.into i a hi))
  · rw [happ.texts, hr.texts]
    exact congrArg (values ++ ·) (hr.keeps.texts nofun hl fun _ _ _ hn => hn)
  · rcases happ.into i a hi with hi | hi
    · exact hr.into i a hi
    · exact (hr.keeps.tables.next i).trans hi

/-- The loop of `HGetAll` fills two slices that look into different arrays. -/
theorem appendBoth_spec (grow : Mem.Growth) {l : List (Bytes × Ref)} {fs vs : Ref}
    (hf : h.Table .reply fs) (hv : h.Table .reply vs) (hapart : ∀ i a, fs.Into i a → ¬ vs.Into i a)
    (hl : ∀ p ∈ l, h.Safe p.2) :
    h.Keeps nowhere (fun i a => fs.Into i a ∨ vs.Into i a) (h.appendBoth grow l fs vs).1 ∧
      ((h.appendBoth grow l fs vs).1.Table .reply (h.appendBoth grow l fs vs).2.1 ∧
        (h.appendBoth grow l fs vs).1.Table .reply (h.appendBoth grow l fs vs).2.2) ∧
      (h.appendBoth grow l fs vs).1.texts (h.appendBoth grow l fs vs).2.1 =
        h.texts fs ++ l.map Prod.fst ∧
      (h.appendBoth grow l fs vs).1.texts (h.appendBoth grow l fs vs).2.2 =
        h.texts vs ++ l.map fun p => h.text p.2 := by
  induction l generalizing h fs vs with
  | nil => exact ⟨.refl _ _ _, ⟨hf, hv⟩, (List.append_nil _).symm, (List.append_nil _).symm⟩
  | cons p l ih =>
      have hkc := h.newBytes_keeps .reply p.1
      have hf₀ := hkc.table hf fun _ _ _ hn => hn
      have hv₀ := hkc.table hv fun _ _ _ hn => hn
      have hfs := append_spec grow hf₀ [(h.newBytes .reply p.1).2]
        (by simpa using newBytes_safe (by decide) p.1 h)
      obtain ⟨hv₁, htv₁, hapart₁⟩ := hfs.other hv₀ hapart
      have hsafe := hfs.keeps.safe (hkc.safe (hl p List.mem_cons_self))
      have hvs := append_spec grow hv₁ [p.2] (by simpa using hsafe)
      obtain ⟨hf₂, htf₂, hapart₂⟩ := hvs.other hfs.table fun i a hi hn => hapart₁ i a hn hi
      -- to the first memory, only the two arrays have changed
      have hk₁ : h.Keeps nowhere fs.Into _ :=
        (hkc.mono fun _ _ _ hn => hn.elim).trans hfs.keeps fun _ _ _ hi => hi
      have hk₂ : h.Keeps nowhere (fun i a => fs.Into i a ∨ vs.Into i a) _ :=
        (hk₁.mono fun _ _ _ => .inl).trans hvs.keeps fun _ _ _ => .inr
      obtain ⟨hk, htables, htf, htv⟩ := ih hf₂ hvs.table (fun i a hi hn => hapart₂ i a hn hi)
        fun q hq => hk₂.safe (hl q (List.mem_cons_of_mem _ hq))
      refine ⟨hk₂.trans hk fun i a ha hi => ?_, htables, ?_, ?_⟩
      · rcases hi with hi | hi
        · refine .inl ((hfs.into i a hi).resolve_right ?_)
          exact Nat.not_le.2 (ha.trans_le (hkc.tables.next i))
        · refine .inr ((hvs.into i a hi).resolve_right ?_)
          exact Nat.not_le.2 (ha.trans_le (hk₁.tables.next i))
      · refine htf.trans ?_
        rw [htf₂, hfs.texts, hkc.texts nofun hf fun _ _ _ hn => hn, List.append_assoc]
        simp
      · refine htv.trans ?_
        rw [hvs.texts, htv₁, hkc.texts nofun hv fun _ _ _ hn => hn, List.append_assoc]
        refine congrArg (h.texts vs ++ ·)
          (congrArg₂ List.cons ?_ (List.map_congr_left fun q hq => ?_))
        · exact hk₁.text nofun (hl p List.mem_cons_self)
        · exact hk₂.text nofun (hl q (List.mem_cons_of_mem _ hq))

/-- The loop of `HSet` puts copies of the values. -/
theorem putClones_spec {m : Dict Bytes Ref} {l : List (Ref × Ref)}
    (hm : ∀ f b, m.lookup f = some b → h.Safe b)
    (hl : ∀ p ∈ l, p.1.Held h.bytes ∧ p.2.Held h.bytes) :
    h.Keeps nowhere nowhere (h.putClones m l).1 ∧
      (∀ f b, (h.putClones m l).2.1.lookup f = some b → (h.putClones m l).1.Safe b) ∧
      (mapValues (fun b => (h.putClones m l).1.text b) (h.putClones m l).2.1,
        (h.putClones m l).2.2) =
        putAll (mapValues (fun b => h.text b) m) (l.map fun p => (h.text p.1, h.text p.2)) := by
  induction l generalizing h m with
  | nil => exact ⟨.refl _ _ _, hm, rfl⟩
  | cons p l ih =>
      have hkc : h.Keeps nowhere nowhere (h.cloneBytes p.2).1 := h.newBytes_keeps _ _
      have hm' : ∀ f b, (m.insert (h.text p.1) (h.cloneBytes p.2).2).lookup f = some b →
          (h.cloneBytes p.2).1.Safe b := by
        intro f b hb
        rw [lookup_insert_ite] at hb
        split at hb
        · cases hb
          exact newBytes_safe (by decide) _ h
        · exact hkc.safe (hm f b hb)
      obtain ⟨hk, hsafe, hval⟩ := ih hm' fun q hq =>
        (hl q (List.mem_cons_of_mem _ hq)).imp hkc.bytes.held hkc.bytes.held
      refine ⟨hkc.trans hk fun _ _ _ hn => hn, hsafe, ?_⟩
      have hinsert : mapValues (fun b => (h.cloneBytes p.2).1.text b)
          (m.insert (h.text p.1) (h.cloneBytes p.2).2) =
          (mapValues (fun b => h.text b) m).insert (h.text p.1) (h.text p.2) := by
        rw [mapValues_insert]
        exact congrArg₂ (fun m v => Finmap.insert (h.text p.1) v m)
          (mapValues_congr fun f b hb => hkc.text nofun (hm f b hb)) (text_newBytes _ _ h)
      have hrest : (l.map fun q => ((h.cloneBytes p.2).1.text q.1, (h.cloneBytes p.2).1.text q.2)) =
          l.map fun q => (h.text q.1, h.text q.2) :=
        List.map_congr_left fun q hq => Prod.ext
          (hkc.text_held (hl q (List.mem_cons_of_mem _ hq)).1)
          (hkc.text_held (hl q (List.mem_cons_of_mem _ hq)).2)
      rw [hinsert, hrest] at hval
      rw [List.map_cons, putAll, ← hval]
      simp only [putClones, mem_mapValues]

end Heap

/-! ### Entries as values -/

namespace Payload

/-- The value that the memory shows. -/
def value (h : Heap) : Payload → Store.Payload
  | .str b => .str (h.text b)
  | .list l => .list (h.texts l)
  | .hash m => .hash (mapValues (fun b => h.text b) m)
  | .set s => .set s

/-- No array the payload looks into is a caller's; a list has a table of the store's. -/
def Safe (h : Heap) : Payload → Prop
  | .str b => h.Safe b
  | .list l => h.Table .store l
  | .hash m => ∀ f b, m.lookup f = some b → h.Safe b
  | .set _ => True

/-- The table that an append may write to. -/
def Into : Payload → Site → Nat → Prop
  | .list l => l.Into
  | _ => nowhere

variable {h h' : Heap} {B W : Site → Nat → Prop} {p : Payload}

/-- A payload stays safe while its tables are not written, -/
theorem Safe.kept (hp : p.Safe h) (k : h.Keeps B W h') (hW : ∀ i a, p.Into i a → ¬ W i a) :
    p.Safe h' := by
  cases p with
  | str b => exact k.safe hp
  | list l => exact k.table hp hW
  | hash m => exact fun f b hb => k.safe (hp f b hb)
  | set s => trivial

/-- and keeps its value. -/
theorem Safe.value_kept (hp : p.Safe h) (k : h.Keeps B W h') (hB : ∀ i a, B i a → i = .caller)
    (hW : ∀ i a, p.Into i a → ¬ W i a) : p.value h' = p.value h := by
  cases p with
  | str b => exact congrArg _ (k.text hB hp)
  | list l => exact congrArg _ (k.texts hB hp hW)
  | hash m => exact congrArg _ (mapValues_congr fun f b hb => k.text hB (hp f b hb))
  | set s => rfl

/-- A payload looks into tables of the store that are there. -/
theorem Safe.into_lt (hp : p.Safe h) {i : Site} {a : Nat} (hi : p.Into i a) :
    i = .store ∧ a < h.tables.next i := by
  cases p with
  | list l => exact ⟨hi.1.trans hp.site, hp.held.into_lt hi⟩
  | str | hash | set => exact hi.elim

end Payload

/-- The entry with what its slices show. -/
def Entry.value (h : Heap) (e : Entry) : Store.Entry := ⟨e.payload.value h, e.expireAt⟩

@[simp] theorem Entry.expired_value (h : Heap) (e : Entry) (t : Time) :
    (e.value h).expired t = e.expired t := rfl

/-- The values of a shard. -/
def Shard.value (h : Heap) (sh : Shard) : Store.Shard := mapValues (Entry.value h) sh

@[simp] theorem Shard.lookup_value (h : Heap) (sh : Shard) (k : Bytes) :
    (sh.value h).lookup k = (sh.lookup k).map (Entry.value h) := lookup_mapValues _ sh k

@[simp] theorem Shard.peek_value (h : Heap) (now : Time) (key : Bytes) (sh : Shard) :
    Store.Shard.peek now key (sh.value h) = (sh.peek now key).map (Entry.value h) := by
  unfold Store.Shard.peek Shard.peek
  rw [lookup_value]
  cases sh.lookup key with
  | none => rfl
  | some e => by_cases he : e.expired now <;> simp [he]

/-- The kind is that of the values, which are what `den` shows. -/
structure Kind.Means {β β' : Type} (K : Kind β) (K' : Store.Kind β') (den : Heap → β → β') :
    Prop where
  wrap : ∀ h b, (K.wrap b).value h = K'.wrap (den h b)
  other : ∀ h p, K.unwrap p = none → K'.unwrap (p.value h) = none
  empty : ∀ h, den h K.empty = K'.empty
  isEmpty : ∀ h b, K.isEmpty b = true ↔ den h b = K'.empty
  safe : ∀ h, (K.wrap K.empty).Safe h
  apart : ∀ i a, ¬ (K.wrap K.empty).Into i a

/-- A list is what its table shows. -/
theorem kindList_means : kindList.Means Store.kindList fun h l => h.texts l := by
  refine ⟨fun _ _ => rfl, fun h p hp => ?_, fun _ => rfl, fun h l => ?_,
    fun h => h.table_nil .store, Heap.not_into_nil .store⟩
  · cases p with
    | list l => cases hp
    | str | hash | set => rfl
  · simp [kindList, Store.kindList, Heap.texts, ← List.length_eq_zero_iff]

/-- A hash is what the slices of its fields show. -/
theorem kindHash_means :
    kindHash.Means Store.kindHash fun h m => mapValues (fun b => h.text b) m := by
  refine ⟨fun _ _ => rfl, fun h p hp => ?_, fun _ => mapValues_empty _, fun h m => ?_,
    fun h f b hb => ?_, fun _ _ hn => hn⟩
  · cases p with
    | hash m => cases hp
    | str | list | set => rfl
  · have hsize := size_eq_zero (m := mapValues (fun b => h.text b) m)
    rw [size_mapValues] at hsize
    exact beq_iff_eq.trans hsize
  · cases (Finmap.lookup_empty f).symm.trans hb

/-- A set has its members as strings. -/
theorem kindSet_means : kindSet.Means Store.kindSet fun _ s => s := by
  refine ⟨fun _ _ => rfl, fun h p hp => ?_, fun _ => rfl, fun h s => ?_, fun _ => trivial,
    fun _ _ hn => hn⟩
  · cases p with
    | set s => cases hp
    | str | list | hash => rfl
  · simp [kindSet, Store.kindSet]

end MiniRedis.Store.Memory
