import MiniRedis.Store.Values

/-!
# Store — Replies

What a method returns looks into arrays of the store, and is read after the lock is released, while
other calls go on.

* `DB.Sound.invoke`: **every call on memory does to the values, and answers, what the call on
  values does.**
* `Heap.Returns.kept`: what is returned stays what it was, unless somebody writes to it.
* `slices_are_values`: **no sequence of calls tells a store of slices from a store of values, and
  every answer ever given still shows what it showed.**
-/

namespace MiniRedis.Store.Memory

open Maps Slices Machine Reference

variable {α α' : Type} {now : Time} {h h' : Heap}

/-! ### What is returned -/

/-- What is returned looks into arrays that nobody writes to. -/
def Heap.Returns (h : Heap) : (c : Call) → Returned c → Prop
  | .get _, r | .lPop _, r | .rPop _, r | .hGet _ _, r => ∀ b, r = .ok (some b) → h.Safe b
  | .lRange _ _ _, r | .hKeys _, r | .hVals _, r | .sMembers _, r =>
      ∀ l, r = .ok l → h.Table .reply l
  | .hGetAll _, r => ∀ p, r = .ok p → h.Table .reply p.1 ∧ h.Table .reply p.2
  | _, _ => True

theorem map_outcome_congr {f g : α → α'} {r : Outcome α} (hr : ∀ a, r = .ok a → f a = g a) :
    r.map f = r.map g := by
  cases r with
  | error e => rfl
  | ok a => exact congrArg Except.ok (hr a rfl)

/-- **What is returned stays what it was**, unless somebody writes to it. -/
theorem Heap.Returns.kept {B W : Site → Nat → Prop} {c : Call} {r : Returned c}
    (hr : h.Returns c r) (k : h.Keeps B W h') (hB : ∀ i a, B i a → i = .caller)
    (hW : ∀ i a, W i a → i ≠ .reply) :
    h'.Returns c r ∧ h'.result c r = h.result c r := by
  have hspare : ∀ {l : Ref}, h.Table .reply l → ∀ i a, l.Into i a → ¬ W i a :=
    fun hl i a hi hn => hW i a hn (hi.1.trans hl.site)
  have hbytes : ∀ {r : Outcome (Option Ref)}, (∀ b, r = .ok (some b) → h.Safe b) →
      (∀ b, r = .ok (some b) → h'.Safe b) ∧
        r.map (Option.map fun b => h'.text b) = r.map (Option.map fun b => h.text b) := by
    intro r hr
    refine ⟨fun b hb => k.safe (hr b hb), map_outcome_congr fun a ha => Option.map_congr ?_⟩
    rintro b rfl
    exact k.text hB (hr b ha)
  have htable : ∀ {r : Outcome Ref}, (∀ l, r = .ok l → h.Table .reply l) →
      (∀ l, r = .ok l → h'.Table .reply l) ∧
        (r.map fun l => h'.texts l) = r.map fun l => h.texts l := fun hr =>
    ⟨fun l hl => k.table (hr l hl) (hspare (hr l hl)),
      map_outcome_congr fun l hl => k.texts hB (hr l hl) (hspare (hr l hl))⟩
  cases c with
  | get | lPop | rPop | hGet => exact hbytes hr
  | lRange | hKeys | hVals | sMembers => exact htable hr
  | hGetAll key =>
      refine ⟨fun p hp => ?_, map_outcome_congr fun p hp => ?_⟩
      · exact ⟨k.table (hr p hp).1 (hspare (hr p hp).1), k.table (hr p hp).2 (hspare (hr p hp).2)⟩
      · exact Prod.ext (k.texts hB (hr p hp).1 (hspare (hr p hp).1))
          (k.texts hB (hr p hp).2 (hspare (hr p hp).2))
  | _ => exact ⟨trivial, rfl⟩

/-! ### Calls -/

/-- The slices of the arguments are slices of allocated arrays. -/
def Invocation.Held (h : Heap) : Invocation → Prop
  | .set _ value => value.Held h.bytes
  | .lPush _ values | .rPush _ values => h.Arg values
  | .hSet _ fields values => h.Arg fields ∧ h.Arg values
  | .sAdd _ members | .sRem _ members => h.Arg members
  | .sIsMember _ member => member.Held h.bytes
  | _ => True

/-- A call on memory does to the values, and answers, what the call on values does. -/
structure Refines (now : Time) (db : DB) (c : Call) (r : DB × Returned c) : Prop where
  sound : r.1.Sound
  value : r.1.value = (db.value.call now .sorted c).1
  keeps : db.heap.Keeps nowhere (fun i _ => i = .store) r.1.heap
  returns : r.1.heap.Returns c r.2
  result : c.SameResult (r.1.heap.result c r.2) (db.value.call now .sorted c).2

/-- A call that leaves the store as it is. -/
theorem Refines.same {db : DB} {c : Call} {r : Returned c} {r' : c.Result} (hs : db.Sound)
    (hcall : db.value.call now .sorted c = (db.value, r')) (hreturns : db.heap.Returns c r)
    (hresult : c.SameResult (db.heap.result c r) r') : Refines now db c (db, r) :=
  ⟨hs, (congrArg Prod.fst hcall).symm, .refl _ _ _, hreturns, by rw [hcall]; exact hresult⟩

theorem outcomeRel_eq {a r : Outcome α} (h : Outcome.Rel Eq a r) : a = r := by
  cases a <;> cases r <;> simp_all [Outcome.Rel]

theorem Match.eq {a r : Outcome α} (hm : Match Eq a r) : a = r := by
  cases hm with
  | ok h => rw [h]
  | error e => rfl

/-- Matching outcomes, as safe ones that show related answers. -/
theorem Match.result {Q : α → α' → Prop} {P : α → Prop} {R : α' → α' → Prop} {f : α → α'}
    {a : Outcome α} {r : Outcome α'} (hm : Match Q a r) (hQ : ∀ x y, Q x y → P x ∧ R (f x) y) :
    (∀ x, a = .ok x → P x) ∧ Outcome.Rel R (a.map f) r := by
  cases hm with
  | ok h =>
      refine ⟨fun x hx => ?_, (hQ _ _ h).2⟩
      cases hx
      exact (hQ _ _ h).1
  | error e => exact ⟨nofun, rfl⟩

/-- The two tables of an `HGetAll` are tables of the answer, and show the pairs in some order. -/
theorem Match.pairs {a : Outcome (Ref × Ref)} {r : Outcome (List Bytes × List Bytes)}
    (hm : Match h.GivesPairs a r) :
    (∀ p, a = .ok p → h.Table .reply p.1 ∧ h.Table .reply p.2) ∧
      Outcome.Rel (fun p q => (p.1.zip p.2).Perm (q.1.zip q.2))
        (a.map fun p => (h.texts p.1, h.texts p.2)) r :=
  hm.result fun _ _ hg => hg

/-- A slice of byte slices that shows the elements in some order. -/
def Heap.GivesPerm (h : Heap) (a : Ref) (r : List Bytes) : Prop :=
  h.Table .reply a ∧ (h.texts a).Perm r

/-- Whatever the order, a hash is ranged over as its values are, in some order. -/
theorem perm_entries (order : Order) (key : Bytes) (m : Dict Bytes Ref) (h : Heap) :
    ((order.hash key m).map fun p => (p.1, h.text p.2)).Perm
      (RangeOrder.sorted.hash key (mapValues (fun b => h.text b) m)) :=
  ((order.hash_lists key m).mapValues fun b => h.text b).perm (RangeOrder.sorted.hash_lists key _)

namespace DB.Sound

variable {β β' : Type} {db : DB} {K : Kind β} {K' : Store.Kind β'}
  {den : Heap → β → β'}

/-- A method that fills its key does to the values what the method on values does. -/
theorem filled (hs : db.Sound) (now : Time) (key : Bytes) (hK : K.Means K' den)
    (f : β → Heap → Heap × β × α) (f' : β' → β' × α)
    (hf : ∀ b, (K.wrap b).Safe db.heap → Fills K den f f' db.heap b) :
    (db.locked key (Shard.fill now key K f)).1.Sound ∧
      (db.locked key (Shard.fill now key K f)).1.value =
        (db.value.locked key (Store.Shard.fill now key K' f')).1 ∧
      (db.locked key (Shard.fill now key K f)).2 =
        (db.value.locked key (Store.Shard.fill now key K' f')).2 ∧
      db.heap.Keeps nowhere (fun i _ => i = .store)
        (db.locked key (Shard.fill now key K f)).1.heap :=
  hs.locked (fill_acts K' f') (fill_does hK hf fun e he => hs.safe _ _ e he)

/-- So does one that takes from its key, and what it hands out is shown by the new memory. -/
theorem taken [DecidableEq β'] (hs : db.Sound) (now : Time) (key : Bytes) (hK : K.Means K' den)
    (absent : α) (absent' : α') (Q : Heap → α → α' → Prop) (f : Heap → β → Option (β × α))
    (f' : β' → Option (β' × α'))
    (hf : ∀ b, (K.wrap b).Safe db.heap → Takes K den (Q db.heap) (f db.heap) f' db.heap b)
    (habsent : Q db.heap absent absent') :
    (db.locked key fun h sh => (h, Shard.take now key K absent (f h) sh)).1.Sound ∧
      (db.locked key fun h sh => (h, Shard.take now key K absent (f h) sh)).1.value =
        (db.value.locked key (Store.Shard.take now key K' absent' f')).1 ∧
      Match (Q db.heap) (db.locked key fun h sh => (h, Shard.take now key K absent (f h) sh)).2
        (db.value.locked key (Store.Shard.take now key K' absent' f')).2 ∧
      db.heap.Keeps nowhere (fun i _ => i = .store)
        (db.locked key fun h sh => (h, Shard.take now key K absent (f h) sh)).1.heap := by
  have hdoes : Does now key (fun h sh => (h, Shard.take now key K absent (f db.heap) sh))
      (Cell.take K' absent' f') (fun h => Match (Q h)) db.heap (db.shardFor key) :=
    take_does hK hf habsent fun e he => hs.safe _ _ e he
  exact hs.locked (take_acts K' absent' f') hdoes

/-- One that only reads leaves the values as they are. -/
theorem looked (hs : db.Sound) (now : Time) (key : Bytes) (hK : K.Means K' den) (absent : α)
    (absent' : α') (Q : Heap → α → α' → Prop) (f : β → Heap → Heap × α) (f' : β' → α')
    (hf : ∀ b, (K.wrap b).Safe db.heap → db.heap.Keeps nowhere nowhere (f b db.heap).1 ∧
      Q (f b db.heap).1 (f b db.heap).2 (f' (den db.heap b)))
    (habsent : Q db.heap absent absent') :
    (db.shared key (Shard.read now key K absent f)).1.Sound ∧
      (db.shared key (Shard.read now key K absent f)).1.value = db.value ∧
      Match (Q (db.shared key (Shard.read now key K absent f)).1.heap)
        (db.shared key (Shard.read now key K absent f)).2
        (Store.Shard.read now key K' absent' f' (db.value.shardFor key)) ∧
      db.heap.Keeps nowhere (fun i _ => i = .store)
        (db.shared key (Shard.read now key K absent f)).1.heap := by
  have hread : db.heap.Keeps nowhere nowhere
      (Shard.read now key K absent f db.heap (db.shardFor key)).1 ∧ _ :=
    read_does hK hf habsent fun e he => hs.safe _ _ e he
  obtain ⟨hsound, hvalue, hkept⟩ := hs.shared hread.1
  exact ⟨hsound, hvalue, hread.2, hkept⟩

variable {key : Bytes} (grow : Mem.Growth) (order : Order)

/-- `Set` copies its argument. -/
theorem set (hs : db.Sound) (value : Ref) :
    Refines now db (.set key (db.heap.text value)) (db.set key value) := by
  have hk := db.heap.newBytes_keeps .store (db.heap.text value)
  have htext : (db.heap.cloneBytes value).1.text (db.heap.cloneBytes value).2 =
      db.heap.text value := Heap.text_newBytes _ _ _
  have hdoes : Does now key
      (fun h sh => ((h.cloneBytes value).1,
        sh.insert key ⟨.str (h.cloneBytes value).2, none⟩, ()))
      (Cell.set (db.heap.text value)) (fun _ a r => a = r) db.heap (db.shardFor key) := by
    refine .put rfl (fun _ _ => rfl) (hk.mono fun _ _ _ hn => hn.elim)
      (Heap.newBytes_safe (by decide) _ _) (fun _ _ hn => hn.elim) ?_ rfl
    simp only [Cell.set, Entry.value, Payload.value, htext]
  obtain ⟨hsound, hvalue, -, hkeeps⟩ := hs.locked (set_acts (db.heap.text value)) hdoes
  exact ⟨hsound, hvalue, hkeeps, trivial, rfl⟩

/-- `LPush` copies its arguments, into a new array or in place. -/
theorem lPush (hs : db.Sound) {values : Ref} (hv : db.heap.Arg values) :
    Refines now db (.lPush key (db.heap.texts values)) (db.lPush grow now key values) := by
  obtain ⟨hsound, hvalue, hanswer, hkeeps⟩ :=
    hs.filled now key kindList_means _ _ fun l hl => lPush_fills grow hv hl
  exact ⟨hsound, hvalue, hkeeps, trivial, hanswer⟩

theorem rPush (hs : db.Sound) {values : Ref} (hv : db.heap.Arg values) :
    Refines now db (.rPush key (db.heap.texts values)) (db.rPush grow now key values) := by
  obtain ⟨hsound, hvalue, hanswer, hkeeps⟩ :=
    hs.filled now key kindList_means _ _ fun l hl => rPush_fills grow hv hl
  exact ⟨hsound, hvalue, hkeeps, trivial, hanswer⟩

/-- `HSet` copies its values. -/
theorem hSet (hs : db.Sound) {fields values : Ref} (hf : db.heap.Arg fields)
    (hv : db.heap.Arg values) :
    Refines now db (.hSet key (db.heap.texts fields) (db.heap.texts values))
      (db.hSet now key fields values) := by
  obtain ⟨hsound, hvalue, hanswer, hkeeps⟩ :=
    hs.filled now key kindHash_means _ _ fun m hm => hSet_fills hf hv hm
  exact ⟨hsound, hvalue, hkeeps, trivial, hanswer⟩

theorem sAdd (hs : db.Sound) (members : Ref) :
    Refines now db (.sAdd key (db.heap.texts members)) (db.sAdd now key members) := by
  obtain ⟨hsound, hvalue, hanswer, hkeeps⟩ := hs.filled now key kindSet_means
    (fun s h => (h, addAll s (h.texts members))) (fun s => addAll s (db.heap.texts members))
    fun s _ => ⟨.refl _ _ _, trivial, fun _ _ hn => hn.elim, rfl⟩
  exact ⟨hsound, hvalue, hkeeps, trivial, hanswer⟩

/-- `LPop` hands out a slice that the list looks into no more. -/
theorem lPop (hs : db.Sound) : Refines now db (.lPop key) (db.lPop now key) := by
  obtain ⟨hsound, hvalue, hanswer, hkeeps⟩ := hs.taken now key kindList_means none none
    Heap.Gives _ _ (fun l hl => lPop_takes hl) ⟨nofun, rfl⟩
  obtain ⟨hsafe, hrel⟩ := hanswer.result fun x y h => h
  exact ⟨hsound, hvalue, hkeeps, fun b hb => hsafe _ hb b rfl, outcomeRel_eq hrel⟩

/-- `RPop` likewise, though a later push may write again at its place in the table. -/
theorem rPop (hs : db.Sound) : Refines now db (.rPop key) (db.rPop now key) := by
  obtain ⟨hsound, hvalue, hanswer, hkeeps⟩ := hs.taken now key kindList_means none none
    Heap.Gives _ _ (fun l hl => rPop_takes hl) ⟨nofun, rfl⟩
  obtain ⟨hsafe, hrel⟩ := hanswer.result fun x y h => h
  exact ⟨hsound, hvalue, hkeeps, fun b hb => hsafe _ hb b rfl, outcomeRel_eq hrel⟩

theorem hDel (hs : db.Sound) (fields : List Bytes) :
    Refines now db (.hDel key fields) (db.hDel now key fields) := by
  obtain ⟨hsound, hvalue, hanswer, hkeeps⟩ := hs.taken now key kindHash_means 0 0 (fun _ => Eq)
    (fun _ m => some (dropAll m fields)) _ (fun m hm => hDel_takes fields hm) rfl
  exact ⟨hsound, hvalue, hkeeps, trivial, hanswer.eq⟩

theorem sRem (hs : db.Sound) (members : Ref) :
    Refines now db (.sRem key (db.heap.texts members)) (db.sRem now key members) := by
  obtain ⟨hsound, hvalue, hanswer, hkeeps⟩ := hs.taken now key kindSet_means 0 0 (fun _ => Eq)
    (fun h s => some (remAll s (h.texts members)))
    (fun s => some (remAll s (db.heap.texts members)))
    (fun s _ => ⟨nofun, fun s₁ n hn => ⟨trivial, fun _ _ hn => hn, n, hn, rfl⟩⟩) rfl
  exact ⟨hsound, hvalue, hkeeps, trivial, hanswer.eq⟩

theorem lLen (hs : db.Sound) : Refines now db (.lLen key) (db.lLen now key) := by
  obtain ⟨hsound, hvalue, hanswer, hkeeps⟩ := hs.looked now key kindList_means 0 0 (fun _ => Eq)
    (fun l h => (h, l.len)) List.length
    (fun l _ => ⟨.refl _ _ _, (Heap.length_texts l _).symm⟩) rfl
  exact ⟨hsound, hvalue, hkeeps, trivial, hanswer.eq⟩

theorem hLen (hs : db.Sound) : Refines now db (.hLen key) (db.hLen now key) := by
  obtain ⟨hsound, hvalue, hanswer, hkeeps⟩ := hs.looked now key kindHash_means 0 0 (fun _ => Eq)
    (fun m h => (h, size m)) size (fun m _ => ⟨.refl _ _ _, (size_mapValues _ m).symm⟩) rfl
  exact ⟨hsound, hvalue, hkeeps, trivial, hanswer.eq⟩

theorem sCard (hs : db.Sound) : Refines now db (.sCard key) (db.sCard now key) := by
  obtain ⟨hsound, hvalue, hanswer, hkeeps⟩ := hs.looked now key kindSet_means 0 0 (fun _ => Eq)
    (fun s h => (h, s.card)) Finset.card (fun _ _ => ⟨.refl _ _ _, rfl⟩) rfl
  exact ⟨hsound, hvalue, hkeeps, trivial, hanswer.eq⟩

theorem sIsMember (hs : db.Sound) (member : Ref) :
    Refines now db (.sIsMember key (db.heap.text member)) (db.sIsMember now key member) := by
  obtain ⟨hsound, hvalue, hanswer, hkeeps⟩ := hs.looked now key kindSet_means false false
    (fun _ => Eq) (fun s h => (h, decide (h.text member ∈ s)))
    (fun s => decide (db.heap.text member ∈ s)) (fun _ _ => ⟨.refl _ _ _, rfl⟩) rfl
  exact ⟨hsound, hvalue, hkeeps, trivial, hanswer.eq⟩

/-- `HGet` hands out the stored slice, which nobody writes to. -/
theorem hGet (hs : db.Sound) (field : Bytes) :
    Refines now db (.hGet key field) (db.hGet now key field) := by
  obtain ⟨hsound, hvalue, hanswer, hkeeps⟩ := hs.looked now key kindHash_means none none
    Heap.Gives (fun m h => (h, m.lookup field)) (fun m => m.lookup field)
    (fun m hm => ⟨.refl _ _ _, hm field, (lookup_mapValues _ m field).symm⟩) ⟨nofun, rfl⟩
  obtain ⟨hsafe, hrel⟩ := hanswer.result fun x y h => h
  exact ⟨hsound, hvalue, hkeeps, fun b hb => hsafe _ hb b rfl, outcomeRel_eq hrel⟩

/-- `LRange` copies the table, and not what it shows. -/
theorem lRange (hs : db.Sound) (start stop : Int64) :
    Refines now db (.lRange key start stop) (db.lRange grow now key start stop) := by
  obtain ⟨hsound, hvalue, hanswer, hkeeps⟩ := hs.looked now key kindList_means (.nil .reply) []
    Heap.GivesTable (Heap.lRange grow start stop) (itemsBetween start stop)
    (fun l hl => lRange_reads grow start stop hl) ⟨db.heap.table_nil .reply, rfl⟩
  obtain ⟨hsafe, hrel⟩ := hanswer.result fun x y h => h
  exact ⟨hsound, hvalue, hkeeps, hsafe, outcomeRel_eq hrel⟩

theorem hKeys (hs : db.Sound) : Refines now db (.hKeys key) (db.hKeys grow now order key) := by
  obtain ⟨hsound, hvalue, hanswer, hkeeps⟩ := hs.looked now key kindHash_means (.nil .reply) []
    Heap.GivesPerm
    (fun m h => h.collect grow (fun e h => h.newBytes .reply e.1) (order.hash key m) (size m))
    (fun m => (RangeOrder.sorted.hash key m).map Prod.fst)
    (fun m _ => by
      obtain ⟨hk, htable, htexts⟩ := collect_reads grow _ Prod.fst (order.hash key m) (size m)
        fun x _ h₁ _ => newBytes_item Prod.fst x h₁
      have hperm := (perm_entries order key m db.heap).map Prod.fst
      rw [List.map_map] at hperm
      exact ⟨hk, htable, htexts ▸ hperm⟩) ⟨db.heap.table_nil .reply, .refl _⟩
  obtain ⟨hsafe, hrel⟩ := hanswer.result fun x y h => h
  exact ⟨hsound, hvalue, hkeeps, hsafe, hrel⟩

theorem hVals (hs : db.Sound) : Refines now db (.hVals key) (db.hVals grow now order key) := by
  obtain ⟨hsound, hvalue, hanswer, hkeeps⟩ := hs.looked now key kindHash_means (.nil .reply) []
    Heap.GivesPerm (fun m h => h.collect grow (fun e h => (h, e.2)) (order.hash key m) (size m))
    (fun m => (RangeOrder.sorted.hash key m).map Prod.snd)
    (fun m hm => by
      obtain ⟨hk, htable, htexts⟩ := collect_reads grow (fun e h => (h, e.2))
        (fun e => db.heap.text e.2) (order.hash key m) (size m) fun e he h₁ hk =>
          have hsafe := hm e.1 e.2 (((order.hash_lists key m).mem_iff e.1 e.2).1 he)
          ⟨.refl _ _ _, hk.safe hsafe, hk.text nofun hsafe⟩
      have hperm := (perm_entries order key m db.heap).map Prod.snd
      rw [List.map_map] at hperm
      exact ⟨hk, htable, htexts ▸ hperm⟩) ⟨db.heap.table_nil .reply, .refl _⟩
  obtain ⟨hsafe, hrel⟩ := hanswer.result fun x y h => h
  exact ⟨hsound, hvalue, hkeeps, hsafe, hrel⟩

theorem sMembers (hs : db.Sound) :
    Refines now db (.sMembers key) (db.sMembers grow now order key) := by
  obtain ⟨hsound, hvalue, hanswer, hkeeps⟩ := hs.looked now key kindSet_means (.nil .reply) []
    Heap.GivesPerm
    (fun s h => h.collect grow (fun m h => h.newBytes .reply m) (order.set key s) s.card)
    (fun s => RangeOrder.sorted.set key s)
    (fun s _ => by
      obtain ⟨hk, htable, htexts⟩ := collect_reads grow _ id (order.set key s) s.card
        fun x _ h₁ _ => newBytes_item id x h₁
      have hperm := (order.set_lists key s).perm (RangeOrder.sorted.set_lists key s)
      rw [List.map_id] at htexts
      exact ⟨hk, htable, (List.Perm.of_eq htexts).trans hperm⟩) ⟨db.heap.table_nil .reply, .refl _⟩
  obtain ⟨hsafe, hrel⟩ := hanswer.result fun x y h => h
  exact ⟨hsound, hvalue, hkeeps, hsafe, hrel⟩

/-- `HGetAll` lists fields and values in some order. -/
theorem hGetAll (hs : db.Sound) :
    Refines now db (.hGetAll key) (db.hGetAll grow now order key) := by
  obtain ⟨hsound, hvalue, hanswer, hkeeps⟩ := hs.looked now key kindHash_means
    (.nil .reply, .nil .reply) ([], []) Heap.GivesPairs
    (fun m h => h.hGetAll grow (order.hash key m) (size m))
    (fun m => (RangeOrder.sorted.hash key m).unzip)
    (fun m hm => by
      obtain ⟨hk, htables, hf, hv⟩ := hGetAll_reads grow (size m)
        fun p hp => hm p.1 p.2 (((order.hash_lists key m).mem_iff p.1 p.2).1 hp)
      refine ⟨hk, htables, ?_⟩
      rw [hf, hv, List.zip_unzip, List.zip_map']
      exact perm_entries order key m db.heap)
    ⟨⟨db.heap.table_nil .reply, db.heap.table_nil .reply⟩, .refl _⟩
  exact ⟨hsound, hvalue, hkeeps, hanswer.pairs.1, hanswer.pairs.2⟩

/-! ### Methods with a body of their own -/

theorem delOne (hs : db.Sound) (now : Time) (key : Bytes) :
    (db.delOne now key).1.Sound ∧ (db.delOne now key).1.value = (db.value.delOne now key).1 ∧
      (db.delOne now key).2 = (db.value.delOne now key).2 ∧
      db.heap.Keeps nowhere (fun i _ => i = .store) (db.delOne now key).1.heap := by
  have hdoes : Does now key (fun h sh => (h, Shard.delOne now key sh)) Cell.del
      (fun _ a r => a = r) db.heap (db.shardFor key) := by
    rcases Shard.liveEntry_cases now key (db.shardFor key) with
      ⟨hp, sh', hl, hnone, hframe⟩ | ⟨e, hp, hlook, hl⟩
    · have hbody : Shard.delOne now key (db.shardFor key) = (sh', 0) := by
        simp only [Shard.delOne, hl]
      refine .leave (congrArg (db.heap, ·) hbody) hframe hnone nofun ?_ rfl
        fun e he => hs.safe _ _ e he
      simp only [hp, Option.map_none, Cell.del]
    · have hbody : Shard.delOne now key (db.shardFor key) = ((db.shardFor key).erase key, 1) := by
        simp only [Shard.delOne, hl]
      refine .leave (congrArg (db.heap, ·) hbody) (fun _ hk => Finmap.lookup_erase_ne hk)
        (Finmap.lookup_erase _ _) nofun ?_ rfl fun e he => hs.safe _ _ e he
      simp only [hp, Option.map_some, Option.map_none, Cell.del]
  exact hs.locked delOne_acts hdoes

theorem expire (hs : db.Sound) (d : Duration) :
    Refines now db (.expire key d) (db.expire now key d) := by
  have hdoes : Does now key (fun h sh => (h, Shard.expire now key d sh)) (Cell.expire now d)
      (fun _ a r => a = r) db.heap (db.shardFor key) := by
    rcases Shard.liveEntry_cases now key (db.shardFor key) with
      ⟨hp, sh', hl, hnone, hframe⟩ | ⟨e, hp, hlook, hl⟩
    · have hbody : Shard.expire now key d (db.shardFor key) = (sh', false) := by
        simp only [Shard.expire, hl]
      refine .leave (congrArg (db.heap, ·) hbody) hframe hnone nofun ?_ rfl
        fun e he => hs.safe _ _ e he
      simp only [hp, Option.map_none, Cell.expire]
    · by_cases hd : d ≤ 0
      · have hbody : Shard.expire now key d (db.shardFor key) =
            ((db.shardFor key).erase key, true) := by simp only [Shard.expire, hl, hd, if_true]
        refine .leave (congrArg (db.heap, ·) hbody) (fun _ hk => Finmap.lookup_erase_ne hk)
          (Finmap.lookup_erase _ _) nofun ?_ rfl fun e he => hs.safe _ _ e he
        simp only [hp, Option.map_some, Option.map_none, Cell.expire, hd, if_true]
      · have hbody : Shard.expire now key d (db.shardFor key) = ((db.shardFor key).insert key
            { e with expireAt := some (now + d.toInt) }, true) := by
          simp only [Shard.expire, hl, hd, if_false]
        refine .put (congrArg (db.heap, ·) hbody) (fun _ _ => rfl) (.refl _ _ _)
          (hs.safe _ _ e hlook) (fun i a hi => .inl ⟨e, hlook, hi⟩) ?_ rfl
        simp only [hp, Option.map_some, Cell.expire, hd, if_false, Entry.value]
  obtain ⟨hsound, hvalue, hanswer, hkeeps⟩ := hs.locked (expire_acts d) hdoes
  exact ⟨hsound, hvalue, hkeeps, trivial, hanswer⟩

theorem persist (hs : db.Sound) : Refines now db (.persist key) (db.persist now key) := by
  have hdoes : Does now key (fun h sh => (h, Shard.persist now key sh)) Cell.persist
      (fun _ a r => a = r) db.heap (db.shardFor key) := by
    rcases Shard.liveEntry_cases now key (db.shardFor key) with
      ⟨hp, sh', hl, hnone, hframe⟩ | ⟨⟨p, d⟩, hp, hlook, hl⟩
    · have hbody : Shard.persist now key (db.shardFor key) = (sh', false) := by
        simp only [Shard.persist, hl]
      refine .leave (congrArg (db.heap, ·) hbody) hframe hnone nofun ?_ rfl
        fun e he => hs.safe _ _ e he
      simp only [hp, Option.map_none, Cell.persist]
    · cases d with
      | none =>
          have hbody : Shard.persist now key (db.shardFor key) = (db.shardFor key, false) := by
            simp only [Shard.persist, hl]
          refine .leave (congrArg (db.heap, ·) hbody) (fun _ _ => rfl) hlook
            (fun _ he => hlook.trans he) ?_ rfl fun e he => hs.safe _ _ e he
          simp only [hp, Option.map_some, Cell.persist, Entry.value, Option.isSome_none]
      | some d =>
          have hbody : Shard.persist now key (db.shardFor key) =
              ((db.shardFor key).insert key ⟨p, none⟩, true) := by
            simp only [Shard.persist, hl]
          refine .put (congrArg (db.heap, ·) hbody) (fun _ _ => rfl) (.refl _ _ _)
            (hs.safe _ _ ⟨p, some d⟩ hlook) (fun i a hi => .inl ⟨_, hlook, hi⟩) ?_ rfl
          simp only [hp, Option.map_some, Cell.persist, Entry.value, Option.isSome_some]
  obtain ⟨hsound, hvalue, hanswer, hkeeps⟩ := hs.locked persist_acts hdoes
  exact ⟨hsound, hvalue, hkeeps, trivial, hanswer⟩

/-- `Get` hands out the stored slice, which nobody writes to. -/
theorem get (hs : db.Sound) : Refines now db (.get key) (db.get now key) := by
  have hlookup : (db.value.shardFor key).lookup key =
      ((db.shardFor key).lookup key).map (Entry.value db.heap) := Shard.lookup_value _ _ _
  cases hl : (db.shardFor key).lookup key with
  | none =>
      have hget : db.get now key = (db, .ok none) := by simp only [DB.get, hl]
      have hget' : db.value.get now now key = (db.value, .ok none) := by
        simp only [Store.DB.get, hlookup, hl, Option.map_none]
      rw [hget]
      exact .same hs hget' (fun _ hb => by cases hb) rfl
  | some e =>
      obtain ⟨p, d⟩ := e
      by_cases he : Entry.expired ⟨p, d⟩ now
      · -- the eviction is that of a deletion that finds the entry expired
        have hget : db.get now key = ((db.delOne now key).1, .ok none) := by
          simp [DB.get, hl, he, DB.expireIfNeeded, DB.delOne, DB.locked, Shard.expireIfNeeded,
            Shard.delOne, Shard.liveEntry]
        have hget' : db.value.get now now key = ((db.value.delOne now key).1, .ok none) := by
          simp [Store.DB.get, hlookup, hl, he, Store.DB.expireIfNeeded, Store.DB.delOne,
            Store.DB.locked, Store.Shard.liveEntry]
        obtain ⟨hsound, hvalue, -, hkeeps⟩ := hs.delOne now key
        rw [hget]
        exact ⟨hsound, hvalue.trans (congrArg Prod.fst hget').symm, hkeeps,
          (fun _ hb => by cases hb), (congrArg Prod.snd hget').symm⟩
      · have hsafe := hs.safe _ _ _ hl
        cases p with
        | str value =>
            have hget : db.get now key = (db, .ok (some value)) := by simp [DB.get, hl, he]
            have hget' : db.value.get now now key =
                (db.value, .ok (some (db.heap.text value))) := by
              simp only [Store.DB.get, hlookup, hl, Option.map_some, Entry.expired_value, he]
              rfl
            rw [hget]
            refine .same hs hget' (fun b hb => ?_) rfl
            cases hb
            exact hsafe
        | list | hash | set =>
            have hget : db.get now key = (db, .error .wrongType) := by simp [DB.get, hl, he]
            have hget' : db.value.get now now key = (db.value, .error .wrongType) := by
              simp only [Store.DB.get, hlookup, hl, Option.map_some, Entry.expired_value, he]
              rfl
            rw [hget]
            exact .same hs hget' (fun _ hb => by cases hb) rfl

theorem del (hs : db.Sound) (keys : List Bytes) :
    Refines now db (.del keys) (db.del now keys) := by
  induction keys generalizing db with
  | nil => exact ⟨hs, rfl, .refl _ _ _, trivial, rfl⟩
  | cons key keys ih =>
      obtain ⟨hsound, hvalue, hanswer, hkeeps⟩ := hs.delOne now key
      obtain ⟨hsound', hvalue', hkeeps', -, hanswer'⟩ := ih hsound
      rw [hvalue] at hvalue' hanswer'
      refine ⟨hsound', hvalue', hkeeps.trans hkeeps' fun _ _ _ hi => hi, trivial, ?_⟩
      exact congrArg₂ (· + ·) hanswer hanswer'

theorem peek (db : DB) (now : Time) (key : Bytes) :
    Store.Shard.peek now key (db.value.shardFor key) =
      ((db.shardFor key).peek now key).map (Entry.value db.heap) := Shard.peek_value _ _ _ _

theorem «exists» (hs : db.Sound) (keys : List Bytes) :
    Refines now db (.exists keys) (db, db.exists now keys) := by
  refine ⟨hs, rfl, .refl _ _ _, trivial, ?_⟩
  refine congrArg List.length (List.filter_congr fun key _ => ?_)
  rw [peek, Option.isSome_map]

theorem ttl (hs : db.Sound) : Refines now db (.ttl key) (db, db.ttl now key) := by
  refine ⟨hs, rfl, .refl _ _ _, trivial, ?_⟩
  change db.ttl now key = db.value.ttl now now key
  unfold DB.ttl Store.DB.ttl
  rw [peek]
  cases (db.shardFor key).peek now key with
  | none => rfl
  | some e =>
      obtain ⟨p, d⟩ := e
      cases d <;> rfl

end DB.Sound

/-- **Every call on memory does to the values, and answers, what the call on values does.** -/
theorem DB.Sound.invoke {db : DB} (hs : db.Sound) (grow : Mem.Growth) (now : Time) (order : Order)
    (c : Invocation) (hc : c.Held db.heap) :
    Refines now db (c.call db.heap) (db.invoke grow now order c) := by
  cases c with
  | get key => exact hs.get
  | set key value => exact hs.set value
  | del keys => exact hs.del keys
  | «exists» keys => exact hs.exists keys
  | lPush key values => exact hs.lPush grow hc
  | rPush key values => exact hs.rPush grow hc
  | lPop key => exact hs.lPop
  | rPop key => exact hs.rPop
  | lLen key => exact hs.lLen
  | lRange key start stop => exact hs.lRange grow start stop
  | hSet key fields values => exact hs.hSet hc.1 hc.2
  | hGet key field => exact hs.hGet field
  | hDel key fields => exact hs.hDel fields
  | hGetAll key => exact hs.hGetAll grow order
  | hKeys key => exact hs.hKeys grow order
  | hVals key => exact hs.hVals grow order
  | hLen key => exact hs.hLen
  | sAdd key members => exact hs.sAdd members
  | sRem key members => exact hs.sRem members
  | sIsMember key member => exact hs.sIsMember member
  | sMembers key => exact hs.sMembers grow order
  | sCard key => exact hs.sCard
  | expire key d => exact hs.expire d
  | persist key => exact hs.persist
  | ttl key => exact hs.ttl

/-! ### Runs -/

/-- An answer that was given, with the call as its arguments were read. -/
structure Given where
  now : Time
  call : Call
  result : Returned call

/-- A store with its memory, and the answers that it has given. -/
structure World where
  db : DB
  given : List Given

/-- An empty store, in whatever memory. -/
def World.start (h : Heap) : World := ⟨⟨h, fun _ => ∅⟩, []⟩

/-- What happens to a store: a call, or something the callers do. -/
inductive Label where
  | call (now : Time) (order : Order) (c : Invocation)
  | outside

/-- A call of the store, whose answer is kept, or something the callers do in between. -/
inductive Step (grow : Mem.Growth) : World → Label → World → Prop where
  | call {w : World} (now : Time) (order : Order) (c : Invocation) (hc : c.Held w.db.heap) :
      Step grow w (.call now order c)
        ⟨(w.db.invoke grow now order c).1,
          w.given ++ [⟨now, c.call w.db.heap, (w.db.invoke grow now order c).2⟩]⟩
  /-- Callers write to arrays of their own, and allocate. -/
  | outside {w : World} {h : Heap}
      (hk : w.db.heap.Keeps (fun i _ => i = .caller) (fun i _ => i = .caller) h) :
      Step grow w .outside { w with db := { w.db with heap := h } }

/-- The calls, made on a store of values. -/
def replay (given : List Given) : Store.DB :=
  given.foldl (fun db g => (db.call g.now .sorted g.call).1) Store.DB.new

/-- One more call on the store of values. -/
theorem replay_concat (given : List Given) (g : Given) :
    replay (given ++ [g]) = ((replay given).call g.now .sorted g.call).1 := by
  rw [replay, List.foldl_append]
  rfl

/-- The answer, read now, is the one of the store of values at the time of the call. -/
structure Given.Stands (h : Heap) (db : Store.DB) (g : Given) : Prop where
  returns : h.Returns g.call g.result
  result : g.call.SameResult (h.result g.call g.result) (db.call g.now .sorted g.call).2

/-- An answer goes on showing what it showed, if only arrays of callers and tables of the store are
written. -/
theorem Given.Stands.kept {B W : Site → Nat → Prop} {db : Store.DB} {g : Given}
    (hg : g.Stands h db) (k : h.Keeps B W h') (hB : ∀ i a, B i a → i = .caller)
    (hW : ∀ i a, W i a → i ≠ .reply) : g.Stands h' db := by
  obtain ⟨hreturns, hresult⟩ := hg.returns.kept k hB hW
  exact ⟨hreturns, hresult ▸ hg.result⟩

/-- **The invariant**: the store holds what a store of values holds after the same calls, and every
answer still shows what that store answered. -/
structure World.Sound (w : World) : Prop where
  db : w.db.Sound
  value : w.db.value = replay w.given
  given : ∀ before g after, w.given = before ++ g :: after → g.Stands w.db.heap (replay before)

theorem World.Sound.start (h : Heap) : (World.start h).Sound where
  db := by
    refine ⟨fun i key e he => ?_, ?_⟩
    · cases (Finmap.lookup_empty key).symm.trans he
    · rintro i j key key' site a ⟨e, he, -⟩
      cases (Finmap.lookup_empty key).symm.trans he
  value := congrArg (Store.DB.mk · _) (funext fun _ => mapValues_empty _)
  given before g after he := by simp [World.start] at he

theorem World.Sound.step {grow : Mem.Growth} {w w' : World} {l : Label} (hw : w.Sound)
    (hstep : Step grow w l w') : w'.Sound := by
  cases hstep with
  | call now order c hc =>
      obtain ⟨hsound, hvalue, hkeeps, hreturns, hresult⟩ := hw.db.invoke grow now order c hc
      rw [hw.value] at hvalue hresult
      refine ⟨hsound, ?_, fun before g after he => ?_⟩
      · rw [replay_concat]
        exact hvalue
      · -- the answer is the new one, or one given before
        rcases List.eq_nil_or_concat after with rfl | ⟨after, g', rfl⟩
        · obtain ⟨rfl, hg⟩ := List.append_inj' he rfl
          cases hg
          exact ⟨hreturns, hresult⟩
        · rw [List.concat_eq_append, ← List.cons_append, ← List.append_assoc] at he
          exact (hw.given before g after (List.append_inj' he rfl).1).kept hkeeps nofun
            (by rintro i _ rfl; decide)
  | outside hk =>
      obtain ⟨hsound, hvalue⟩ := hw.db.kept hk (fun _ _ hi => hi) (by rintro i _ rfl; decide)
      refine ⟨hsound, hvalue.trans hw.value, fun before g after he => ?_⟩
      exact (hw.given before g after he).kept hk (fun _ _ hi => hi) (by rintro i _ rfl; decide)

/-- Maps can be ranged over in the order of their keys. -/
theorem Order.exists : ∃ _ : Order, True :=
  ⟨{ hash := fun _ m => Maps.sorted (· ≤ ·) m
     set := fun _ s => s.sort (· ≤ ·)
     hash_lists := fun _ m => lists_sorted _ m
     set_lists := fun _ s => listsSet_sort _ s }, trivial⟩

/-- The caller writes `x` all over its bytes. -/
def Heap.overwritten (h : Heap) : Heap :=
  { h with bytes := { h.bytes with
      cell := fun i a j => if i = .caller then 120 else h.bytes.cell i a j } }

end MiniRedis.Store.Memory
