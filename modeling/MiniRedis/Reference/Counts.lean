import MiniRedis.Reference.Dispatch

/-!
# Reference — Counts

What the replies of the hash and set commands and of `DEL` count.  A key has contents of a kind:
those of its entry, nothing when it is absent, and an error when it holds another kind
(`Cell.contents`).  In these terms filling and taking are functions on contents, whether or not the
key was there before or is there after (`fill_contents`, `take_contents`), and the counts are those
of the loops of `Support/Maps.lean`.

* `del_at`, `del_count`: what `DEL` deletes, and how many.
* `counts_observable`: **a count is the change that `HLEN`, `SCARD` or a lookup observes, and a
  listing is as long as that, names everything once and agrees with `HGET`.**
-/

namespace MiniRedis.Reference

open Maps Protocol Store Cmd

/-! ### Contents -/

namespace Cell

variable {α β : Type}

/-- The contents of a key of a kind. -/
def contents (K : Kind β) : Cell → Outcome β := read K K.empty id

/-- Reading an absent key is reading an empty collection. -/
theorem read_eq_map {K : Kind β} {absent : α} {f : β → α} (h : f K.empty = absent) (c : Cell) :
    read K absent f c = (contents K c).map f := by
  cases c with
  | none => rw [← h]; rfl
  | some e =>
      simp only [read, contents]
      cases K.unwrap e.payload <;> rfl

theorem contents_wrap (K : Kind β) (b : β) (d : Option Time) :
    contents K (some ⟨K.wrap b, d⟩) = .ok b := by
  have hb : K.unwrap (K.wrap b) = some b := (K.unwrap_iff _ _).2 rfl
  simp only [contents, read, hb, id]

/-- Filling a key changes the collection, and returns what the change returns. -/
theorem fill_contents (K : Kind β) (f : β → β × α) (c : Cell) :
    contents K (fill K f c).1 = (contents K c).map (fun b => (f b).1) ∧
      (fill K f c).2 = (contents K c).map fun b => (f b).2 := by
  cases c with
  | none => exact ⟨contents_wrap K _ none, rfl⟩
  | some e =>
      cases hu : K.unwrap e.payload with
      | none => simp [fill, contents, read, hu, Except.map]
      | some b =>
          have hc : contents K (some e) = .ok b := by simp [contents, read, hu]
          simp only [fill, hu, hc]
          exact ⟨contents_wrap K _ _, rfl⟩

/-- Taking by a function that takes nothing from nothing. -/
theorem take_contents [DecidableEq β] {K : Kind β} {absent : α} {g : β → β × α}
    (h : g K.empty = (K.empty, absent)) (c : Cell) :
    contents K (take K absent (fun b => some (g b)) c).1 =
        (contents K c).map (fun b => (g b).1) ∧
      (take K absent (fun b => some (g b)) c).2 = (contents K c).map fun b => (g b).2 := by
  cases c with
  | none =>
      simp only [take, contents, read, Except.map, h]
      exact ⟨trivial, trivial⟩
  | some e =>
      cases hu : K.unwrap e.payload with
      | none => simp [take, contents, read, hu, Except.map]
      | some b =>
          have hc : contents K (some e) = .ok b := by simp [contents, read, hu]
          simp only [take, hu, hc]
          refine ⟨?_, rfl⟩
          by_cases hb : (g b).1 = K.empty
          · simp [hb, contents, read, Except.map]
          · rw [if_neg hb]
            exact contents_wrap K _ _

end Cell

/-! ### A request that acts on one key -/

/-- The fields and values of a `HSET` are its pairs. -/
theorem RefStore.hSet_call {now : Time} {order : RangeOrder} (key : Bytes)
    (ps : List (Bytes × Bytes)) (s : RefStore) :
    s.call now order (.hSet key (ps.map Prod.fst) (ps.map Prod.snd)) =
      s.onKey key (Cell.fill kindHash fun m => putAll m ps) := by
  rw [RefStore.call, ← List.zip_of_prod rfl rfl]

section Reads

variable {now : Time} {key : Bytes} {db : DB}

theorem read_contents {α β : Type} {K : Kind β} {absent : α} {f : β → α} {b : β}
    (habsent : f K.empty = absent) (h : Cell.contents K (db.keyspace now key) = .ok b) :
    Shard.read now key K absent f (db.shardFor key) = .ok (f b) := by
  rw [read_eq, Cell.read_eq_map habsent, ← DB.keyspace, h]
  rfl

theorem hLen_contents {m : Dict Bytes Bytes}
    (h : Cell.contents kindHash (db.keyspace now key) = .ok m) :
    db.hLen now key = .ok (size m) :=
  read_contents rfl h

theorem hGet_contents {m : Dict Bytes Bytes}
    (h : Cell.contents kindHash (db.keyspace now key) = .ok m) (field : Bytes) :
    db.hGet now key field = .ok (m.lookup field) :=
  read_contents rfl h

theorem sCard_contents {s : Finset Bytes}
    (h : Cell.contents kindSet (db.keyspace now key) = .ok s) : db.sCard now key = .ok s.card :=
  read_contents rfl h

theorem sIsMember_contents {s : Finset Bytes}
    (h : Cell.contents kindSet (db.keyspace now key) = .ok s) (member : Bytes) :
    db.sIsMember now key member = .ok (decide (member ∈ s)) :=
  read_contents rfl h

end Reads

/-! ### Counts -/

/-- The reply is by how much the length of one store exceeds that of another. -/
def Exceeds (len : DB → Outcome Nat) (more less : DB) (reply : Value) : Prop :=
  ∃ b n, len less = .ok b ∧ len more = .ok (b + n) ∧ reply = countReply n

/-- What a count that is no error says of the contents before and after. -/
theorem contents_counted {β : Type} {now : Time} {K : Kind β} {f : β → β × Nat}
    {cell : Cell → Cell × Outcome Nat} {key : Bytes} {db db' : DB} {v : Value}
    (hcell : ∀ c, Cell.contents K (cell c).1 = (Cell.contents K c).map (fun b => (f b).1) ∧
      (cell c).2 = (Cell.contents K c).map fun b => (f b).2)
    (h : db'.keyspace now = Function.update (db.keyspace now) key (cell (db.keyspace now key)).1 ∧
      v = orErr countReply (cell (db.keyspace now key)).2) (hok : v.isError = false) :
    ∃ b, Cell.contents K (db.keyspace now key) = .ok b ∧
      Cell.contents K (db'.keyspace now key) = .ok (f b).1 ∧ v = countReply (f b).2 := by
  obtain ⟨hks, rfl⟩ := h
  obtain ⟨hafter, hanswer⟩ := hcell (db.keyspace now key)
  rw [hanswer] at hok ⊢
  rw [hks, Function.update_self, hafter]
  cases hb : Cell.contents K (db.keyspace now key) with
  | error err => rw [hb] at hok; cases err; cases hok
  | ok b => exact ⟨b, rfl, rfl, rfl⟩

section Counts

variable {now : Time} {order : RangeOrder} {request : Value} {args : List Value} {db : DB}

/-- A request whose handler makes a call is answered by what the call returns. -/
theorem dispatch_call {c : Call} {render : c.Result → Value} (h : plan request = .call c render) :
    (db.dispatch now order request).2 = render (db.call now order c).2 := by
  rw [DB.dispatch, Cmd.dispatch, h]
  rfl

/-- The reply is no error, so the arguments are not of the wrong number. -/
theorem args_of_ok {c : Command} {P : Prop} (hn : Names c args request)
    (hok : (db.dispatch now order request).2.isError = false)
    (h : P ∨ ∃ name, c.handler args = .reply (wrongArgs name)) : P := by
  refine h.resolve_right fun ⟨name, hwrong⟩ => ?_
  rw [DB.dispatch, Cmd.dispatch, hn.plan_eq, hwrong] at hok
  cases hok

/-- The commands that change members of one value take a key and at least one member. -/
theorem moreArgs_of_ok {c : Command} (hc : c ∈ [.sAdd, .hDel, .sRem]) (hn : Names c args request)
    (hok : (db.dispatch now order request).2.isError = false) :
    ∃ k x xs, args = k :: x :: xs := by
  refine args_of_ok hn hok ?_
  simp only [List.mem_cons, List.not_mem_nil, or_false] at hc
  rcases args with _ | ⟨k, _ | ⟨x, xs⟩⟩
  · exact .inr (by rcases hc with rfl | rfl | rfl <;> exact ⟨_, rfl⟩)
  · exact .inr (by rcases hc with rfl | rfl | rfl <;> exact ⟨_, rfl⟩)
  · exact .inl ⟨k, x, xs, rfl⟩

/-- The commands that read one value whole take its key. -/
theorem oneArg_of_ok {c : Command}
    (hc : c ∈ [.hKeys, .hVals, .hGetAll, .sMembers, .hLen, .sCard]) (hn : Names c args request)
    (hok : (db.dispatch now order request).2.isError = false) : ∃ k, args = [k] := by
  refine args_of_ok hn hok ?_
  simp only [List.mem_cons, List.not_mem_nil, or_false] at hc
  rcases args with _ | ⟨k, _ | ⟨x, xs⟩⟩
  · exact .inr (by rcases hc with rfl | rfl | rfl | rfl | rfl | rfl <;> exact ⟨_, rfl⟩)
  · exact .inl ⟨k, rfl⟩
  · exact .inr (by rcases hc with rfl | rfl | rfl | rfl | rfl | rfl <;> exact ⟨_, rfl⟩)

/-- `HSET` counts the fields that are new; each field has the last value it was given. -/
theorem hSet_counts (hn : Names .hSet args request)
    (hok : (db.dispatch now order request).2.isError = false) :
    let after := (db.dispatch now order request).1
    ∃ k rest, args = k :: rest ∧
      Exceeds (DB.hLen now k.str) after db (db.dispatch now order request).2 ∧
      (∀ pre field value post, pairUp rest = pre ++ (field, value) :: post →
        field ∉ post.map Prod.fst → after.hGet now k.str field = .ok (some value)) ∧
      ∀ field ∉ (pairUp rest).map Prod.fst,
        after.hGet now k.str field = db.hGet now k.str field := by
  obtain ⟨k, rest, rfl, hplan⟩ : ∃ k rest, args = k :: rest ∧ Command.handler .hSet args =
      .call (.hSet k.str ((pairUp rest).map Prod.fst) ((pairUp rest).map Prod.snd))
        (orErr countReply) := by
    refine args_of_ok hn hok ?_
    cases args with
    | nil => exact .inr ⟨_, rfl⟩
    | cons k rest =>
        simp only [Command.handler, Cmd.hSet]
        split
        · exact .inr ⟨_, rfl⟩
        · exact .inl ⟨k, rest, rfl, rfl⟩
  obtain ⟨m, hm, hm', hv⟩ := contents_counted (Cell.fill_contents _ _)
    (DB.dispatch_onKey now order (hn.plan_eq.trans hplan) (RefStore.hSet_call _ _) db) hok
  refine ⟨k, rest, rfl, ⟨size m, _, hLen_contents hm, ?_, hv⟩, fun pre field value post hp hf => ?_,
    fun field hf => ?_⟩
  · rw [hLen_contents hm', size_putAll]
  · rw [hGet_contents hm', hp, lookup_putAll_last m hf]
  · rw [hGet_contents hm', hGet_contents hm, lookup_putAll_of_notMem _ _ _ hf]

/-- `SADD` returns by how many members the set has grown. -/
theorem sAdd_counts (hn : Names .sAdd args request)
    (hok : (db.dispatch now order request).2.isError = false) :
    ∃ k rest, args = k :: rest ∧
      Exceeds (DB.sCard now k.str) (db.dispatch now order request).1 db
        (db.dispatch now order request).2 := by
  obtain ⟨k, x, xs, rfl⟩ := moreArgs_of_ok (by decide) hn hok
  obtain ⟨s, hs, hs', hv⟩ := contents_counted (Cell.fill_contents _ _)
    (DB.dispatch_onKey now order hn.plan_eq (fun _ => rfl) db) hok
  refine ⟨k, _, rfl, s.card, _, sCard_contents hs, ?_, hv⟩
  rw [sCard_contents hs', card_addAll]

/-- `HDEL` returns by how many fields the hash has shrunk. -/
theorem hDel_counts (hn : Names .hDel args request)
    (hok : (db.dispatch now order request).2.isError = false) :
    ∃ k rest, args = k :: rest ∧
      Exceeds (DB.hLen now k.str) db (db.dispatch now order request).1
        (db.dispatch now order request).2 := by
  obtain ⟨k, x, xs, rfl⟩ := moreArgs_of_ok (by decide) hn hok
  obtain ⟨m, hm, hm', hv⟩ := contents_counted (Cell.take_contents (dropAll_empty _))
    (DB.dispatch_onKey now order hn.plan_eq (fun _ => rfl) db) hok
  refine ⟨k, _, rfl, _, _, hLen_contents hm', ?_, hv⟩
  rw [hLen_contents hm, size_dropAll]

/-- `SREM` returns by how many members the set has shrunk. -/
theorem sRem_counts (hn : Names .sRem args request)
    (hok : (db.dispatch now order request).2.isError = false) :
    ∃ k rest, args = k :: rest ∧
      Exceeds (DB.sCard now k.str) db (db.dispatch now order request).1
        (db.dispatch now order request).2 := by
  obtain ⟨k, x, xs, rfl⟩ := moreArgs_of_ok (by decide) hn hok
  obtain ⟨s, hs, hs', hv⟩ := contents_counted (Cell.take_contents (remAll_empty _))
    (DB.dispatch_onKey now order hn.plan_eq (fun _ => rfl) db) hok
  refine ⟨k, _, rfl, _, _, sCard_contents hs', ?_, hv⟩
  rw [sCard_contents hs, card_remAll]

end Counts

/-! ### Deletions -/

namespace RefStore

theorem onKey_del (key : Bytes) (s : RefStore) (k : Bytes) :
    (s.onKey key Cell.del).1.keys k = if k = key then none else s.keys k := by
  simp only [onKey, Function.update_apply]
  cases s.keys key <;> rfl

/-- `DEL` empties the keys it names and no other. -/
theorem del_at : ∀ (keys : List Bytes) (s : RefStore) (k : Bytes),
    (s.del keys).1.keys k = if k ∈ keys then none else s.keys k
  | [], _, _ => by simp [del]
  | key :: keys, s, k => by
      rw [del, del_at keys, onKey_del]
      by_cases hk : k = key <;> simp [hk]

/-- The keys that count are the distinct ones that were there. -/
theorem del_count : ∀ (keys : List Bytes) (s : RefStore),
    (s.del keys).2 = (keys.toFinset.filter fun k => (s.keys k).isSome = true).card
  | [], _ => rfl
  | key :: keys, s => by
      have hone : (s.onKey key Cell.del).2 =
          if key ∈ (key :: keys).toFinset.filter fun k => (s.keys k).isSome = true
          then 1 else 0 := by
        simp only [onKey, Finset.mem_filter, List.mem_toFinset, List.mem_cons_self, true_and]
        cases s.keys key <;> rfl
      have hrest : (keys.toFinset.filter fun k =>
            ((s.onKey key Cell.del).1.keys k).isSome = true) =
          ((key :: keys).toFinset.filter fun k => (s.keys k).isSome = true).erase key := by
        ext k
        simp only [Finset.mem_filter, List.mem_toFinset, Finset.mem_erase, List.mem_cons, onKey_del]
        by_cases hk : k = key <;> simp [hk]
      rw [del, ← card_erase_add _ key, ← hone, ← hrest, ← del_count keys, Nat.add_comm]

end RefStore

section Del

variable {now : Time} {order : RangeOrder} {request : Value} {args : List Value} {db : DB}

theorem dispatch_del (now : Time) (order : RangeOrder) (db : DB) (hne : args ≠ [])
    (hn : Names .del args request) :
    (db.dispatch now order request).1.abs now = ((db.abs now).del (args.map Value.str)).1 ∧
      (db.dispatch now order request).2 =
        countReply ((db.abs now).del (args.map Value.str)).2 := by
  obtain ⟨a, args, rfl⟩ := List.exists_cons_of_ne_nil hne
  exact DB.abs_of_plan now order hn.plan_eq db

/-- `DEL` returns the number of different keys it removed. -/
theorem del_counts (hn : Names .del args request)
    (hok : (db.dispatch now order request).2.isError = false) :
    (db.dispatch now order request).2 = countReply
        ((args.map Value.str).toFinset.filter fun key => (db.keyspace now key).isSome = true).card ∧
      ∀ a ∈ args, (db.dispatch now order request).1.keyspace now a.str = none := by
  have hne : args ≠ [] := by
    refine args_of_ok hn hok ?_
    cases args <;> simp [Command.handler, Cmd.del]
  obtain ⟨hstore, hreply⟩ := dispatch_del now order db hne hn
  refine ⟨hreply.trans (congrArg countReply (RefStore.del_count _ _)), fun a ha => ?_⟩
  have hkeys := congrFun (congrArg RefStore.keys hstore) a.str
  rw [RefStore.del_at, if_pos (List.mem_map_of_mem ha)] at hkeys
  exact hkeys

end Del

/-! ### Listings -/

/-- The pairs are the fields of the hash with their values, each field once. -/
structure Enumerates (now : Time) (key : Bytes) (db : DB) (ps : List (Bytes × Bytes)) : Prop where
  nodup : (ps.map Prod.fst).Nodup
  length : db.hLen now key = .ok ps.length
  mem_iff : ∀ field value, (field, value) ∈ ps ↔ db.hGet now key field = .ok (some value)

section Listings

variable {now : Time} {order : RangeOrder} {request : Value} {args : List Value} {db : DB}

/-- The reply to a read is no error, so the key has contents of the kind and the reply renders
them. -/
theorem contents_of_read {α β : Type} {K : Kind β} {absent : α} {f : β → α} {render : α → Value}
    {key : Bytes} {v : Value} (habsent : f K.empty = absent)
    (hv : v = orErr render (Shard.read now key K absent f (db.shardFor key)))
    (hok : v.isError = false) :
    ∃ b, Cell.contents K (db.keyspace now key) = .ok b ∧ v = render (f b) := by
  subst hv
  rw [read_eq, Cell.read_eq_map habsent, ← DB.keyspace] at hok ⊢
  cases hb : Cell.contents K (db.keyspace now key) with
  | error err => rw [hb] at hok; cases err; cases hok
  | ok b => exact ⟨b, rfl, rfl⟩

theorem hash_empty (key : Bytes) : order.hash key kindHash.empty = [] :=
  List.eq_nil_of_length_eq_zero ((order.hash_lists key ∅).length_eq.trans rfl)

theorem set_empty (key : Bytes) : order.set key kindSet.empty = [] :=
  List.eq_nil_of_length_eq_zero (order.set_lists key ∅).length_eq

/-- However a hash is ranged over, each of its fields is met once, with its value. -/
theorem enumerates_hash {key : Bytes} {m : Dict Bytes Bytes}
    (h : Cell.contents kindHash (db.keyspace now key) = .ok m) :
    Enumerates now key db (order.hash key m) := by
  have hlists := order.hash_lists key m
  refine ⟨hlists.nodup, ?_, fun field value => ?_⟩
  · rw [hLen_contents h, hlists.length_eq]
  · rw [hlists.mem_iff, hGet_contents h, Except.ok.injEq]

/-- `HKEYS` lists the fields, -/
theorem hKeys_lists (hn : Names .hKeys args request)
    (hok : (db.dispatch now order request).2.isError = false) :
    ∃ k ps, args = [k] ∧ Enumerates now k.str db ps ∧
      (db.dispatch now order request).2 = bulkArrayValue (ps.map Prod.fst) := by
  obtain ⟨k, rfl⟩ := oneArg_of_ok (by decide) hn hok
  obtain ⟨m, hm, hv⟩ := contents_of_read (by rw [hash_empty]; rfl) (dispatch_call hn.plan_eq) hok
  exact ⟨k, _, rfl, enumerates_hash hm, hv⟩

/-- `HVALS` the values, -/
theorem hVals_lists (hn : Names .hVals args request)
    (hok : (db.dispatch now order request).2.isError = false) :
    ∃ k ps, args = [k] ∧ Enumerates now k.str db ps ∧
      (db.dispatch now order request).2 = bulkArrayValue (ps.map Prod.snd) := by
  obtain ⟨k, rfl⟩ := oneArg_of_ok (by decide) hn hok
  obtain ⟨m, hm, hv⟩ := contents_of_read (by rw [hash_empty]; rfl) (dispatch_call hn.plan_eq) hok
  exact ⟨k, _, rfl, enumerates_hash hm, hv⟩

/-- `HGETALL` both, -/
theorem hGetAll_lists (hn : Names .hGetAll args request)
    (hok : (db.dispatch now order request).2.isError = false) :
    ∃ k ps, args = [k] ∧ Enumerates now k.str db ps ∧
      (db.dispatch now order request).2 = bulkArrayValue (ps.flatMap fun p => [p.1, p.2]) := by
  obtain ⟨k, rfl⟩ := oneArg_of_ok (by decide) hn hok
  obtain ⟨m, hm, hv⟩ := contents_of_read (by rw [hash_empty]; rfl) (dispatch_call hn.plan_eq) hok
  refine ⟨k, order.hash k.str m, rfl, enumerates_hash hm, hv.trans ?_⟩
  simp only [List.zip_unzip, bulkArrayValue, List.map_flatMap]
  rfl

/-- and `SMEMBERS` the members, each once. -/
theorem sMembers_lists (hn : Names .sMembers args request)
    (hok : (db.dispatch now order request).2.isError = false) :
    ∃ k ms, args = [k] ∧ ms.Nodup ∧ db.sCard now k.str = .ok ms.length ∧
      (∀ member, member ∈ ms ↔ db.sIsMember now k.str member = .ok true) ∧
      (db.dispatch now order request).2 = bulkArrayValue ms := by
  obtain ⟨k, rfl⟩ := oneArg_of_ok (by decide) hn hok
  obtain ⟨s, hs, hv⟩ := contents_of_read (set_empty k.str) (dispatch_call hn.plan_eq) hok
  have hlists := order.set_lists k.str s
  refine ⟨k, _, rfl, hlists.nodup, ?_, fun member => ?_, hv⟩
  · rw [sCard_contents hs, hlists.length_eq]
  · rw [hlists.mem_iff, sIsMember_contents hs, Except.ok.injEq, decide_eq_true_iff]

theorem hLen_answers (hn : Names .hLen args request)
    (hok : (db.dispatch now order request).2.isError = false) :
    ∃ k n, args = [k] ∧ db.hLen now k.str = .ok n ∧
      (db.dispatch now order request).2 = countReply n := by
  obtain ⟨k, rfl⟩ := oneArg_of_ok (by decide) hn hok
  obtain ⟨m, hm, hv⟩ := contents_of_read (by rfl) (dispatch_call hn.plan_eq) hok
  exact ⟨k, size m, rfl, hLen_contents hm, hv⟩

theorem sCard_answers (hn : Names .sCard args request)
    (hok : (db.dispatch now order request).2.isError = false) :
    ∃ k n, args = [k] ∧ db.sCard now k.str = .ok n ∧
      (db.dispatch now order request).2 = countReply n := by
  obtain ⟨k, rfl⟩ := oneArg_of_ok (by decide) hn hok
  obtain ⟨s, hs, hv⟩ := contents_of_read (by rfl) (dispatch_call hn.plan_eq) hok
  exact ⟨k, s.card, rfl, sCard_contents hs, hv⟩

theorem hGet_answers (hn : Names .hGet args request)
    (hok : (db.dispatch now order request).2.isError = false) :
    ∃ k f o, args = [k, f] ∧ db.hGet now k.str f.str = .ok o ∧
      (db.dispatch now order request).2 = bulkValue o := by
  obtain ⟨k, f, rfl⟩ : ∃ k f, args = [k, f] := by
    refine args_of_ok hn hok ?_
    rcases args with _ | ⟨k, _ | ⟨f, _ | ⟨x, xs⟩⟩⟩ <;> simp [Command.handler, Cmd.hGet]
  obtain ⟨m, hm, hv⟩ := contents_of_read (by rfl) (dispatch_call hn.plan_eq) hok
  refine ⟨k, f, m.lookup f.str, rfl, hGet_contents hm f.str, hv.trans ?_⟩
  cases m.lookup f.str <;> rfl

end Listings

/-! ### The result -/

/-- **The counts are what is observed.**  Let the reply to a request be no error.  If it is to
`HSET` or `SADD`, it is by how much `HLEN` or `SCARD` has grown, and if to `HDEL` or `SREM`, by how
much it has shrunk; after `HSET` a field has the last value given to it, or the one it had.  If it
is to `DEL`, it is how many of the keys there were, each counted once, and none of them is left.  If
it lists a hash or a set, the list is as long as `HLEN` or `SCARD` says, has everything once, and
agrees with `HGET` or `SISMEMBER`. -/
theorem counts_observable (now : Time) (order : RangeOrder) (db : DB) {request : Value}
    {args : List Value} (hok : (db.dispatch now order request).2.isError = false) :
    let after := (db.dispatch now order request).1
    let reply := (db.dispatch now order request).2
    (Names .hSet args request → ∃ k rest, args = k :: rest ∧
      Exceeds (DB.hLen now k.str) after db reply ∧
      (∀ pre field value post, pairUp rest = pre ++ (field, value) :: post →
        field ∉ post.map Prod.fst → after.hGet now k.str field = .ok (some value)) ∧
      ∀ field ∉ (pairUp rest).map Prod.fst,
        after.hGet now k.str field = db.hGet now k.str field) ∧
    (Names .sAdd args request → ∃ k rest, args = k :: rest ∧
      Exceeds (DB.sCard now k.str) after db reply) ∧
    (Names .hDel args request → ∃ k rest, args = k :: rest ∧
      Exceeds (DB.hLen now k.str) db after reply) ∧
    (Names .sRem args request → ∃ k rest, args = k :: rest ∧
      Exceeds (DB.sCard now k.str) db after reply) ∧
    (Names .del args request →
      reply = countReply ((args.map Value.str).toFinset.filter
        fun key => (db.keyspace now key).isSome = true).card ∧
      ∀ a ∈ args, after.keyspace now a.str = none) ∧
    (Names .hKeys args request → ∃ k ps, args = [k] ∧ Enumerates now k.str db ps ∧
      reply = bulkArrayValue (ps.map Prod.fst)) ∧
    (Names .hVals args request → ∃ k ps, args = [k] ∧ Enumerates now k.str db ps ∧
      reply = bulkArrayValue (ps.map Prod.snd)) ∧
    (Names .hGetAll args request → ∃ k ps, args = [k] ∧ Enumerates now k.str db ps ∧
      reply = bulkArrayValue (ps.flatMap fun p => [p.1, p.2])) ∧
    (Names .sMembers args request → ∃ k ms, args = [k] ∧ ms.Nodup ∧
      db.sCard now k.str = .ok ms.length ∧
      (∀ member, member ∈ ms ↔ db.sIsMember now k.str member = .ok true) ∧
      reply = bulkArrayValue ms) ∧
    (Names .hLen args request → ∃ k n, args = [k] ∧ db.hLen now k.str = .ok n ∧
      reply = countReply n) ∧
    (Names .sCard args request → ∃ k n, args = [k] ∧ db.sCard now k.str = .ok n ∧
      reply = countReply n) ∧
    (Names .hGet args request → ∃ k f o, args = [k, f] ∧ db.hGet now k.str f.str = .ok o ∧
      reply = bulkValue o) := by
  intro after reply
  refine ⟨fun hn => hSet_counts hn hok, fun hn => sAdd_counts hn hok, fun hn => hDel_counts hn hok,
    fun hn => sRem_counts hn hok, fun hn => del_counts hn hok, fun hn => hKeys_lists hn hok,
    fun hn => hVals_lists hn hok, fun hn => hGetAll_lists hn hok, fun hn => sMembers_lists hn hok,
    fun hn => hLen_answers hn hok, fun hn => sCard_answers hn hok, fun hn => hGet_answers hn hok⟩

/-- `HSET` of three pairs, two of which are for one field. -/
def twiceF : Value :=
  bulkCmd [txt "HSET", txt "k", txt "f", txt "1", txt "f", txt "2", txt "g", txt "3"]

/-- On an empty store that is a hash of two fields, and the second value is the one of `f`. -/
theorem counts_observable_twiceF :
    Exceeds (DB.hLen 0 (txt "k")) (DB.new.dispatch 0 .sorted twiceF).1 DB.new (countReply 2) ∧
      (DB.new.dispatch 0 .sorted twiceF).1.hGet 0 (txt "k") (txt "f") = .ok (some (txt "2")) := by
  have hok : (DB.new.dispatch 0 .sorted twiceF).2.isError = false := by decide +kernel
  have hreply : (DB.new.dispatch 0 .sorted twiceF).2 = countReply 2 := by decide +kernel
  have hn : Names .hSet (([txt "k", txt "f", txt "1", txt "f", txt "2", txt "g", txt "3"]).map
      fun a => .bulkString (some a)) twiceF := ⟨_, rfl, by decide⟩
  obtain ⟨k, rest, hargs, hcount, hlast, -⟩ := (counts_observable 0 .sorted DB.new hok).1 hn
  cases hargs
  refine ⟨hreply ▸ hcount, ?_⟩
  exact hlast [(txt "f", txt "1")] (txt "f") (txt "2") [(txt "g", txt "3")] rfl (by decide)

end MiniRedis.Reference
