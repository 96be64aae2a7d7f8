import MiniRedis.Store.Aliasing

/-!
# Store — Values

What the methods do to memory, and what that is to the values.  A body under a lock *does* what a
cell function does (`Does`) when it leaves at its key an entry that shows what the cell function
gives, writes to no table but that of the key's list, and leaves the list in that table or in a new
one.

* `fill_does`, `take_does`, `read_does`: the three shapes of a body.
* `DB.Sound.locked`: **a body that does what a cell function does keeps the lists of a store apart,
  and does to the values of the store what the method does that acts as the cell function.**
* `lPush_fills` … `hGetAll_reads`: what the loops of the methods do.
-/

namespace MiniRedis.Store.Memory

open Maps Slices Machine Reference

variable {α α' β β' : Type} {now : Time} {key : Bytes} {h : Heap} {sh : Shard}

/-! ### Bodies -/

/-- What a lookup that evicts finds and leaves. -/
theorem Shard.liveEntry_cases (now : Time) (key : Bytes) (sh : Shard) :
    (sh.peek now key = none ∧ ∃ sh', liveEntry now key sh = (sh', none) ∧ sh'.lookup key = none ∧
        ∀ k, k ≠ key → sh'.lookup k = sh.lookup k) ∨
      ∃ e, sh.peek now key = some e ∧ sh.lookup key = some e ∧
        liveEntry now key sh = (sh, some e) := by
  unfold peek liveEntry
  cases hl : sh.lookup key with
  | none => exact .inl ⟨rfl, sh, rfl, hl, fun _ _ => rfl⟩
  | some e =>
      by_cases he : e.expired now
      · refine .inl ⟨by simp [he], sh.erase key, by simp [he], Finmap.lookup_erase _ _, ?_⟩
        exact fun k hk => Finmap.lookup_erase_ne hk
      · exact .inr ⟨e, by simp [he], rfl, by simp [he]⟩

/-- The table of the key's list. -/
def Shard.Into (key : Bytes) (sh : Shard) (i : Site) (a : Nat) : Prop :=
  ∃ e, sh.lookup key = some e ∧ e.payload.Into i a

/-- The body does to the memory and the shard what `cell` does to the value of the key's live entry:
it writes to no table but that of the key's list, and leaves a list in that table or a new one. -/
structure Does (now : Time) (key : Bytes) (body : Heap → Shard → Heap × Shard × α)
    (cell : Cell → Cell × α') (Q : Heap → α → α' → Prop) (h : Heap) (sh : Shard) : Prop where
  keeps : h.Keeps nowhere (sh.Into key) (body h sh).1
  frame : ∀ k, k ≠ key → (body h sh).2.1.lookup k = sh.lookup k
  safe : ∀ e, (body h sh).2.1.lookup key = some e → e.payload.Safe (body h sh).1
  into : ∀ i a, (body h sh).2.1.Into key i a → sh.Into key i a ∨ h.tables.next i ≤ a
  update : ((body h sh).2.1.lookup key).map (Entry.value (body h sh).1) =
    (cell ((sh.peek now key).map (Entry.value h))).1
  answer : Q (body h sh).1 (body h sh).2.2 (cell ((sh.peek now key).map (Entry.value h))).2

section

variable {body : Heap → Shard → Heap × Shard × α} {cell : Cell → Cell × α'}
  {Q : Heap → α → α' → Prop} {sh' : Shard} {a : α} {r : α'}

/-- A body that removes the entry, or leaves it as it is. -/
theorem Does.leave {c : Option Entry} (hbody : body h sh = (h, sh', a))
    (hframe : ∀ k, k ≠ key → sh'.lookup k = sh.lookup k) (hlookup : sh'.lookup key = c)
    (hsub : ∀ e, c = some e → sh.lookup key = some e)
    (hcell : cell ((sh.peek now key).map (Entry.value h)) = (c.map (Entry.value h), r))
    (hQ : Q h a r) (hsafe : ∀ e, sh.lookup key = some e → e.payload.Safe h) :
    Does now key body cell Q h sh := by
  refine ⟨?_, ?_, ?_, ?_, ?_, ?_⟩
  all_goals rw [hbody]
  · exact .refl _ _ _
  · exact hframe
  · exact fun e he => hsafe e (hsub e (hlookup.symm.trans he))
  · rintro i a ⟨e, he, hi⟩
    exact .inl ⟨e, hsub e (hlookup.symm.trans he), hi⟩
  · rw [hcell, hlookup]
  · rw [hcell]
    exact hQ

/-- A body that puts an entry. -/
theorem Does.put {h' : Heap} {e : Entry} (hbody : body h sh = (h', sh'.insert key e, a))
    (hframe : ∀ k, k ≠ key → sh'.lookup k = sh.lookup k)
    (hkeeps : h.Keeps nowhere (sh.Into key) h') (hsafe : e.payload.Safe h')
    (hinto : ∀ i a, e.payload.Into i a → sh.Into key i a ∨ h.tables.next i ≤ a)
    (hcell : cell ((sh.peek now key).map (Entry.value h)) = (some (e.value h'), r))
    (hQ : Q h' a r) : Does now key body cell Q h sh := by
  have hkey : (sh'.insert key e).lookup key = some e := Finmap.lookup_insert _
  refine ⟨?_, ?_, ?_, ?_, ?_, ?_⟩
  all_goals rw [hbody]
  · exact hkeeps
  · exact fun k hk => (Finmap.lookup_insert_of_ne _ hk).trans (hframe k hk)
  · intro e' he'
    cases hkey.symm.trans he'
    exact hsafe
  · rintro i a ⟨e', he', hi⟩
    cases hkey.symm.trans he'
    exact hinto i a hi
  · rw [hcell, hkey]
    rfl
  · rw [hcell]
    exact hQ

end

/-- Two outcomes of one kind whose answers are related. -/
inductive Match (Q : α → α' → Prop) : Outcome α → Outcome α' → Prop where
  | ok {a : α} {a' : α'} (h : Q a a') : Match Q (.ok a) (.ok a')
  | error (e : StoreError) : Match Q (.error e) (.error e)

variable {K : Kind β} {K' : Store.Kind β'} {den : Heap → β → β'}

/-- What filling a field has to do to the memory. -/
structure Fills (K : Kind β) (den : Heap → β → β') (f : β → Heap → Heap × β × α)
    (f' : β' → β' × α) (h : Heap) (b : β) : Prop where
  keeps : h.Keeps nowhere (K.wrap b).Into (f b h).1
  safe : (K.wrap (f b h).2.1).Safe (f b h).1
  into : ∀ i a, (K.wrap (f b h).2.1).Into i a → (K.wrap b).Into i a ∨ h.tables.next i ≤ a
  value : (den (f b h).1 (f b h).2.1, (f b h).2.2) = f' (den h b)

/-- A method that fills its key does what the method on the cell does. -/
theorem fill_does (hK : K.Means K' den) {f : β → Heap → Heap × β × α} {f' : β' → β' × α}
    (hf : ∀ b, (K.wrap b).Safe h → Fills K den f f' h b)
    (hsafe : ∀ e, sh.lookup key = some e → e.payload.Safe h) :
    Does now key (Shard.fill now key K f) (Cell.fill K' f') (fun _ a r => a = r) h sh := by
  rcases Shard.liveEntry_cases now key sh with ⟨hp, sh', hl, -, hframe⟩ | ⟨e, hp, hlook, hl⟩
  · -- the entry is created, and its table is new
    obtain ⟨hkeeps, hs, hinto, hval⟩ := hf K.empty (hK.safe h)
    have hbody : Shard.fill now key K f h sh = ((f K.empty h).1,
        (sh'.insert key ⟨K.wrap K.empty, none⟩).insert key ⟨K.wrap (f K.empty h).2.1, none⟩,
        .ok (f K.empty h).2.2) := by simp [Shard.fill, Shard.typedEntry, hl]
    refine .put hbody (fun k hk => ?_) (hkeeps.mono fun i a _ hi => absurd hi (hK.apart i a)) hs
      (fun i a hi => .inr ((hinto i a hi).resolve_left (hK.apart i a))) ?_ rfl
    · rw [Finmap.lookup_insert_of_ne _ hk, hframe k hk]
    · rw [hK.empty] at hval
      simp only [hp, Option.map_none, Cell.fill, ← hval, Entry.value, hK.wrap]
  · obtain ⟨p, d⟩ := e
    cases hu : K.unwrap p with
    | none =>
        have hbody : Shard.fill now key K f h sh = (h, sh, .error .wrongType) := by
          simp [Shard.fill, Shard.typedEntry, hl, hu]
        refine .leave hbody (fun _ _ => rfl) hlook (fun _ he => hlook.trans he) ?_ rfl hsafe
        simp only [hp, Option.map_some, Cell.fill, Entry.value, hK.other h p hu]
    | some b =>
        cases (K.unwrap_iff _ _).1 hu
        obtain ⟨hkeeps, hs, hinto, hval⟩ := hf b (hsafe _ hlook)
        have hbody : Shard.fill now key K f h sh =
            ((f b h).1, sh.insert key ⟨K.wrap (f b h).2.1, d⟩, .ok (f b h).2.2) := by
          simp [Shard.fill, Shard.typedEntry, hl, hu]
        refine .put hbody (fun _ _ => rfl) (hkeeps.mono fun i a _ hi => ⟨_, hlook, hi⟩) hs
          (fun i a hi => (hinto i a hi).imp_left fun hi => ⟨_, hlook, hi⟩) ?_ rfl
        simp only [hp, Option.map_some, Cell.fill, Entry.value, hK.wrap,
          (K'.unwrap_iff _ _).2 rfl, ← hval]

/-- What taking from a field has to do. -/
structure Takes (K : Kind β) (den : Heap → β → β') (Q : α → α' → Prop)
    (f : β → Option (β × α)) (f' : β' → Option (β' × α')) (h : Heap) (b : β) : Prop where
  none : f b = none → f' (den h b) = none
  some : ∀ b₁ a, f b = some (b₁, a) → (K.wrap b₁).Safe h ∧
    (∀ i a, (K.wrap b₁).Into i a → (K.wrap b).Into i a) ∧
    ∃ a', f' (den h b) = some (den h b₁, a') ∧ Q a a'

/-- So does one that takes from its key. -/
theorem take_does [DecidableEq β'] (hK : K.Means K' den) {absent : α} {absent' : α'}
    {Q : Heap → α → α' → Prop} {f : β → Option (β × α)} {f' : β' → Option (β' × α')}
    (hf : ∀ b, (K.wrap b).Safe h → Takes K den (Q h) f f' h b) (habsent : Q h absent absent')
    (hsafe : ∀ e, sh.lookup key = some e → e.payload.Safe h) :
    Does now key (fun h sh => (h, Shard.take now key K absent f sh)) (Cell.take K' absent' f')
      (fun h => Match (Q h)) h sh := by
  rcases Shard.liveEntry_cases now key sh with ⟨hp, sh', hl, hnone, hframe⟩ | ⟨e, hp, hlook, hl⟩
  · have hbody : Shard.take now key K absent f sh = (sh', .ok absent) := by
      simp [Shard.take, Shard.typedEntry, hl]
    refine .leave (congrArg (h, ·) hbody) hframe hnone nofun ?_ (.ok habsent) hsafe
    simp only [hp, Option.map_none, Cell.take]
  · obtain ⟨p, d⟩ := e
    cases hu : K.unwrap p with
    | none =>
        have hbody : Shard.take now key K absent f sh = (sh, .error .wrongType) := by
          simp [Shard.take, Shard.typedEntry, hl, hu]
        refine .leave (congrArg (h, ·) hbody) (fun _ _ => rfl) hlook (fun _ he => hlook.trans he) ?_
          (.error _) hsafe
        simp only [hp, Option.map_some, Cell.take, Entry.value, hK.other h p hu]
    | some b =>
        cases (K.unwrap_iff _ _).1 hu
        have hunwrap : K'.unwrap ((K.wrap b).value h) = some (den h b) :=
          (K'.unwrap_iff _ _).2 (hK.wrap h b)
        obtain ⟨hnone, hsome⟩ := hf b (hsafe _ hlook)
        cases hfb : f b with
        | none =>
            have hbody : Shard.take now key K absent f sh = (sh, .ok absent) := by
              simp [Shard.take, Shard.typedEntry, hl, hu, hfb]
            refine .leave (congrArg (h, ·) hbody) (fun _ _ => rfl) hlook
              (fun _ he => hlook.trans he) ?_ (.ok habsent) hsafe
            simp only [hp, Option.map_some, Cell.take, Entry.value, hunwrap, hnone hfb]
        | some q =>
            obtain ⟨b₁, a⟩ := q
            obtain ⟨hs, hinto, a', hf', hQ⟩ := hsome b₁ a hfb
            by_cases hempty : K.isEmpty b₁
            · have hbody : Shard.take now key K absent f sh = (sh.erase key, .ok a) := by
                simp [Shard.take, Shard.typedEntry, hl, hu, hfb, hempty]
              refine .leave (congrArg (h, ·) hbody) (fun _ hk => Finmap.lookup_erase_ne hk)
                (Finmap.lookup_erase _ _) nofun ?_ (.ok hQ) hsafe
              simp only [hp, Option.map_some, Cell.take, Entry.value, hunwrap, hf',
                if_pos ((hK.isEmpty h b₁).1 hempty), Option.map_none]
            · have hbody : Shard.take now key K absent f sh =
                  (sh.insert key ⟨K.wrap b₁, d⟩, .ok a) := by
                simp [Shard.take, Shard.typedEntry, hl, hu, hfb, hempty]
              refine .put (congrArg (h, ·) hbody) (fun _ _ => rfl) (.refl _ _ _) hs
                (fun i a hi => .inl ⟨_, hlook, hinto i a hi⟩) ?_ (.ok hQ)
              simp only [hp, Option.map_some, Cell.take, Entry.value, hunwrap, hf',
                if_neg (mt (hK.isEmpty h b₁).2 hempty), hK.wrap h b₁]

/-- A method that only reads leaves what it reads, and may allocate. -/
theorem read_does (hK : K.Means K' den) {absent : α} {absent' : α'} {Q : Heap → α → α' → Prop}
    {f : β → Heap → Heap × α} {f' : β' → α'}
    (hf : ∀ b, (K.wrap b).Safe h →
      h.Keeps nowhere nowhere (f b h).1 ∧ Q (f b h).1 (f b h).2 (f' (den h b)))
    (habsent : Q h absent absent') (hsafe : ∀ e, sh.lookup key = some e → e.payload.Safe h) :
    h.Keeps nowhere nowhere (Shard.read now key K absent f h sh).1 ∧
      Match (Q (Shard.read now key K absent f h sh).1) (Shard.read now key K absent f h sh).2
        (Store.Shard.read now key K' absent' f' (sh.value h)) := by
  rw [read_eq, Shard.peek_value]
  rcases Shard.liveEntry_cases now key sh with ⟨hp, -⟩ | ⟨⟨p, d⟩, hp, hlook, -⟩
  · simp only [Shard.read, hp, Option.map_none, Cell.read]
    exact ⟨.refl _ _ _, .ok habsent⟩
  · cases hu : K.unwrap p with
    | none =>
        simp only [Shard.read, hp, hu, Option.map_some, Cell.read, Entry.value, hK.other h p hu]
        exact ⟨.refl _ _ _, .error _⟩
    | some b =>
        cases (K.unwrap_iff _ _).1 hu
        obtain ⟨hkeeps, hQ⟩ := hf b (hsafe _ hlook)
        simp only [Shard.read, hp, hu, Option.map_some, Cell.read, Entry.value, hK.wrap,
          (K'.unwrap_iff _ _).2 rfl]
        exact ⟨hkeeps, .ok hQ⟩

/-! ### Stores -/

namespace DB

variable {db : DB}

/-- The values of a store. -/
def value (db : DB) : Store.DB := ⟨fun i => (db.shards i).value db.heap, Broker.new⟩

/-- Every slice is safe, and no two lists share a table. -/
structure Sound (db : DB) : Prop where
  safe : ∀ i key e, (db.shards i).lookup key = some e → e.payload.Safe db.heap
  apart : ∀ i j key key' site a, (db.shards i).Into key site a → (db.shards j).Into key' site a →
    i = j ∧ key = key'

/-- The tables of the store are its own. -/
theorem Sound.into_lt (hs : db.Sound) {i : Fin shardCount} {key : Bytes} {site : Site} {a : Nat}
    (h : (db.shards i).Into key site a) : site = .store ∧ a < db.heap.tables.next site := by
  obtain ⟨e, he, hi⟩ := h
  exact (hs.safe i key e he).into_lt hi

section

variable {B W : Site → Nat → Prop} {h' : Heap}

/-- A change of the memory that spares the key's list leaves the key's entry. -/
theorem Sound.value_kept (hs : db.Sound) (k : db.heap.Keeps B W h')
    (hB : ∀ i a, B i a → i = .caller) (i : Fin shardCount) (key : Bytes)
    (hW : ∀ site a, (db.shards i).Into key site a → ¬ W site a) :
    ((db.shards i).lookup key).map (Entry.value h') =
      ((db.shards i).lookup key).map (Entry.value db.heap) := by
  refine Option.map_congr fun e he => ?_
  refine congrArg (Store.Entry.mk · _) ((hs.safe i key e he).value_kept k hB fun site a hi => ?_)
  exact hW site a ⟨e, he, hi⟩

/-- An entry stays safe while its tables are not written. -/
theorem Sound.safe_kept (hs : db.Sound) (k : db.heap.Keeps B W h') {i : Fin shardCount}
    {key : Bytes} (hW : ∀ site a, (db.shards i).Into key site a → ¬ W site a) {e : Entry}
    (he : (db.shards i).lookup key = some e) : e.payload.Safe h' :=
  (hs.safe i key e he).kept k fun site a hi => hW site a ⟨e, he, hi⟩

/-- **A change that writes to no list and to no byte of the store is not seen.** -/
theorem Sound.kept (hs : db.Sound) (k : db.heap.Keeps B W h') (hB : ∀ i a, B i a → i = .caller)
    (hW : ∀ i a, W i a → i ≠ .store) :
    Sound { db with heap := h' } ∧ value { db with heap := h' } = db.value := by
  have hspare : ∀ i key site a, (db.shards i).Into key site a → ¬ W site a :=
    fun i key site a hi hn => hW site a hn (hs.into_lt hi).1
  refine ⟨⟨fun i key e he => hs.safe_kept k (hspare i key) he, hs.apart⟩, ?_⟩
  refine congrArg (Store.DB.mk · _) (funext fun i => Finmap.ext_lookup fun key => ?_)
  rw [Shard.lookup_value, Shard.lookup_value]
  exact hs.value_kept k hB i key (hspare i key)

end

section

variable {body : Heap → Shard → Heap × Shard × α} {cell : Cell → Cell × α'}
  {Q : Heap → α → α' → Prop}

theorem lookup_locked_self (body : Heap → Shard → Heap × Shard × α) (k : Bytes) :
    ((db.locked key body).1.shards (shardIndex key)).lookup k =
      (body db.heap (db.shardFor key)).2.1.lookup k := by
  simp [DB.locked]

/-- The entries of other places are as they were. -/
theorem lookup_locked (hdoes : Does now key body cell Q db.heap (db.shardFor key))
    {i : Fin shardCount} {k : Bytes} (hne : ¬ (i = shardIndex key ∧ k = key)) :
    ((db.locked key body).1.shards i).lookup k = (db.shards i).lookup k := by
  by_cases hi : i = shardIndex key
  · subst hi
    rw [lookup_locked_self]
    exact hdoes.frame k fun hk => hne ⟨rfl, hk⟩
  · simp [DB.locked, hi]

/-- A method does not make other entries look into its tables. -/
theorem into_locked (hdoes : Does now key body cell Q db.heap (db.shardFor key))
    {i : Fin shardCount} {k : Bytes} (hne : ¬ (i = shardIndex key ∧ k = key)) {site : Site}
    {a : Nat} (h : ((db.locked key body).1.shards i).Into k site a) :
    (db.shards i).Into k site a := by
  obtain ⟨e, he, hi⟩ := h
  exact ⟨e, (lookup_locked hdoes hne).symm.trans he, hi⟩

/-- Lists of other places are not in the key's table. -/
theorem Sound.spare (hs : db.Sound) {i : Fin shardCount} {k : Bytes}
    (hne : ¬ (i = shardIndex key ∧ k = key)) (site : Site) (a : Nat)
    (h : (db.shards i).Into k site a) : ¬ (db.shardFor key).Into key site a :=
  fun hn => hne (hs.apart _ _ _ _ _ _ h hn)

/-- The list that a method leaves at its key is in no other list's table. -/
theorem Sound.apart_locked (hs : db.Sound)
    (hdoes : Does now key body cell Q db.heap (db.shardFor key)) {i : Fin shardCount} {k : Bytes}
    {site : Site} {a : Nat}
    (hkey : ((db.locked key body).1.shards (shardIndex key)).Into key site a)
    (h : ((db.locked key body).1.shards i).Into k site a) : i = shardIndex key ∧ k = key := by
  by_contra hne
  have hold := into_locked hdoes hne h
  rw [show ((db.locked key body).1.shards (shardIndex key)) =
    (body db.heap (db.shardFor key)).2.1 from Function.update_self _ _ _] at hkey
  rcases hdoes.into site a hkey with hi | hi
  · exact hs.spare hne site a hold hi
  · exact absurd (hs.into_lt hold).2 (Nat.not_lt.2 hi)

/-- A method keeps the invariant. -/
theorem Sound.sound_locked (hs : db.Sound)
    (hdoes : Does now key body cell Q db.heap (db.shardFor key)) :
    (db.locked key body).1.Sound := by
  refine ⟨fun i k e he => ?_, fun i j k k' site a hi hj => ?_⟩
  · by_cases hne : i = shardIndex key ∧ k = key
    · obtain ⟨rfl, rfl⟩ := hne
      rw [lookup_locked_self] at he
      exact hdoes.safe e he
    · rw [lookup_locked hdoes hne] at he
      exact hs.safe_kept hdoes.keeps (hs.spare hne) he
  · by_cases hne : i = shardIndex key ∧ k = key
    · obtain ⟨rfl, rfl⟩ := hne
      obtain ⟨hj, hk⟩ := hs.apart_locked hdoes hi hj
      exact ⟨hj.symm, hk.symm⟩
    · by_cases hne' : j = shardIndex key ∧ k' = key
      · obtain ⟨rfl, rfl⟩ := hne'
        exact hs.apart_locked hdoes hj hi
      · exact hs.apart _ _ _ _ _ _ (into_locked hdoes hne hi) (into_locked hdoes hne' hj)

/-- **A method that does to its key what a cell function does keeps the store sound, and does to
the values what the method does that acts as the cell function.** -/
theorem Sound.locked (hs : db.Sound) {body' : Store.Shard → Store.Shard × α'}
    (hacts : Acts now key body' cell)
    (hdoes : Does now key body cell Q db.heap (db.shardFor key)) :
    (db.locked key body).1.Sound ∧
      (db.locked key body).1.value = (db.value.locked key body').1 ∧
      Q (db.locked key body).1.heap (db.locked key body).2 (db.value.locked key body').2 ∧
      db.heap.Keeps nowhere (fun i _ => i = .store) (db.locked key body).1.heap := by
  have hpeek : Store.Shard.peek now key (db.value.shardFor key) =
      ((db.shardFor key).peek now key).map (Entry.value db.heap) := Shard.peek_value _ _ _ _
  refine ⟨hs.sound_locked hdoes, ?_, ?_, ?_⟩
  · refine congrArg (Store.DB.mk · _) (funext fun i => Finmap.ext_lookup fun k => ?_)
    rw [Shard.lookup_value]
    by_cases hne : i = shardIndex key ∧ k = key
    · obtain ⟨rfl, rfl⟩ := hne
      rw [lookup_locked_self, Function.update_self]
      exact hdoes.update.trans (by rw [hacts.update, hpeek])
    · rw [lookup_locked hdoes hne]
      refine (hs.value_kept hdoes.keeps nofun i k (hs.spare hne)).trans ?_
      rw [← Shard.lookup_value]
      by_cases hi : i = shardIndex key
      · subst hi
        rw [Function.update_self, hacts.frame _ k fun hk => hne ⟨rfl, hk⟩]
        rfl
      · rw [Function.update_of_ne hi]
        rfl
  · have hanswer := hdoes.answer
    rw [← hpeek, ← hacts.answer] at hanswer
    exact hanswer
  · exact hdoes.keeps.mono fun i a _ hi => (hs.into_lt hi).1

end

/-- A method under the read lock. -/
theorem Sound.shared (hs : db.Sound) {body : Heap → Shard → Heap × α}
    (hkeeps : db.heap.Keeps nowhere nowhere (body db.heap (db.shardFor key)).1) :
    (db.shared key body).1.Sound ∧ (db.shared key body).1.value = db.value ∧
      db.heap.Keeps nowhere (fun i _ => i = .store) (db.shared key body).1.heap :=
  have hkept := hs.kept hkeeps nofun nofun
  ⟨hkept.1, hkept.2, hkeeps.mono fun _ _ _ hn => hn.elim⟩

end DB

/-! ### What the methods do to memory -/

section

variable {l : Ref}

/-- The byte slices of an argument are slices of allocated arrays. -/
def Heap.Arg (l : Ref) (h : Heap) : Prop := ∀ b ∈ h.tables.read l, b.Held h.bytes

/-- Copies of arguments are safe, and show what the arguments showed. -/
theorem clone_item {h₀ h₁ : Heap} {W : Site → Nat → Prop} {b : Ref} (k : h₀.Keeps nowhere W h₁)
    (hb : b.Held h₀.bytes) :
    h₁.Keeps nowhere nowhere (h₁.cloneBytes b).1 ∧ (h₁.cloneBytes b).1.Safe (h₁.cloneBytes b).2 ∧
      (h₁.cloneBytes b).1.text (h₁.cloneBytes b).2 = h₀.text b :=
  ⟨h₁.newBytes_keeps _ _, Heap.newBytes_safe (by decide) _ h₁,
    (Heap.text_newBytes _ _ h₁).trans (k.text_held hb)⟩

theorem rPush_fills (grow : Mem.Growth) {values : Ref} (hv : h.Arg values) (hl : h.Table .store l) :
    Fills kindList (fun h l => h.texts l) (Heap.rPush grow values)
      (fun l => (l ++ h.texts values, (l ++ h.texts values).length)) h l := by
  have happ := Heap.appendEach_spec grow (fun b => h.text b) _ hl
    fun b hb h₁ hk => clone_item hk (hv b hb)
  refine ⟨happ.keeps, happ.table, happ.into, Prod.ext happ.texts ?_⟩
  exact (Heap.length_texts _ _).symm.trans (congrArg List.length happ.texts)

/-- `LPush` puts copies of the values in front, the last one first. -/
theorem lPush_fills (grow : Mem.Growth) {values : Ref} (hv : h.Arg values) (hl : h.Table .store l) :
    Fills kindList (fun h l => h.texts l) (Heap.lPush grow values)
      (fun l => ((h.texts values).reverse ++ l, ((h.texts values).reverse ++ l).length)) h l := by
  -- the new elements go to a new table, and the old ones are copied behind them
  have hr := (Heap.fresh_each grow .store (fun b => h.text b) (h.tables.read values).reverse
    values.len fun b hb h₁ hk => clone_item hk (hv b (List.mem_reverse.1 hb))).append grow hl
  rw [List.map_reverse] at hr
  refine ⟨hr.keeps.mono fun _ _ _ hn => hn.elim, hr.table, fun i a hi => .inr (hr.into i a hi),
    Prod.ext hr.texts ?_⟩
  exact (Heap.length_texts _ _).symm.trans (congrArg List.length hr.texts)

theorem hSet_fills {fields values : Ref} (hf : h.Arg fields) (hv : h.Arg values)
    {m : Dict Bytes Ref} (hm : (Payload.hash m).Safe h) :
    Fills kindHash (fun h m => mapValues (fun b => h.text b) m) (Heap.hSet fields values)
      (fun m => putAll m ((h.texts fields).zip (h.texts values))) h m := by
  obtain ⟨hk, hsafe, hval⟩ := Heap.putClones_spec hm
    (l := (h.tables.read fields).zip (h.tables.read values)) fun p hp =>
      ⟨hf _ (List.of_mem_zip hp).1, hv _ (List.of_mem_zip hp).2⟩
  refine ⟨hk.mono fun _ _ _ hn => hn.elim, hsafe, fun _ _ hn => hn.elim, hval.trans ?_⟩
  simp only [Heap.texts, List.zip_map]
  rfl

/-- An answer that is a byte slice. -/
def Heap.Gives (h : Heap) (a : Option Ref) (r : Option Bytes) : Prop :=
  (∀ b, a = some b → h.Safe b) ∧ a.map (fun b => h.text b) = r

/-- An answer that is a slice of byte slices. -/
def Heap.GivesTable (h : Heap) (a : Ref) (r : List Bytes) : Prop :=
  h.Table .reply a ∧ h.texts a = r

/-- `LPop` makes the slice smaller at its front. -/
theorem lPop_takes (hl : h.Table .store l) :
    Takes kindList (fun h l => h.texts l) h.Gives h.lPop
      (fun | [] => none | v :: l => some (l, some v)) h l := by
  by_cases hlen : l.len = 0
  · have hnil : h.texts l = [] := List.eq_nil_of_length_eq_zero ((Heap.length_texts l h).trans hlen)
    exact ⟨fun _ => by rw [hnil], fun b₁ a hb => by simp [Heap.lPop, hlen] at hb⟩
  · have hread := Mem.read_eq_cons (m := h.tables) hlen
    have htexts : h.texts l = h.text (h.tables.get l 0) :: h.texts l.tail := by
      rw [Heap.texts, hread, List.map_cons]
      rfl
    refine ⟨fun hn => by simp [Heap.lPop, hlen] at hn, fun b₁ a hb => ?_⟩
    simp only [Heap.lPop, hlen, if_false, Option.some.injEq, Prod.mk.injEq] at hb
    obtain ⟨rfl, rfl⟩ := hb
    refine ⟨⟨hl.site, hl.held.tail, fun b hb => hl.items b ?_⟩, fun _ _ => Slice.into_of_tail,
      some (h.text (h.tables.get l 0)), by rw [htexts], ?_, rfl⟩
    · rw [hread]
      exact List.mem_cons_of_mem _ hb
    · rintro b ⟨⟩
      exact hl.items _ (by rw [hread]; exact List.mem_cons_self)

theorem rPop_takes (hl : h.Table .store l) :
    Takes kindList (fun h l => h.texts l) h.Gives h.rPop
      (fun l => l.getLast?.map fun v => (l.dropLast, some v)) h l := by
  by_cases hlen : l.len = 0
  · have hnil : h.texts l = [] := List.eq_nil_of_length_eq_zero ((Heap.length_texts l h).trans hlen)
    exact ⟨fun _ => by rw [hnil]; rfl, fun b₁ a hb => by simp [Heap.rPop, hlen] at hb⟩
  · have hread := Mem.read_eq_concat (m := h.tables) hlen
    have htexts : h.texts l = h.texts l.dropLast ++ [h.text (h.tables.get l (l.len - 1))] := by
      rw [Heap.texts, hread, List.map_append]
      rfl
    refine ⟨fun hn => by simp [Heap.rPop, hlen] at hn, fun b₁ a hb => ?_⟩
    simp only [Heap.rPop, hlen, if_false, Option.some.injEq, Prod.mk.injEq] at hb
    obtain ⟨rfl, rfl⟩ := hb
    refine ⟨⟨hl.site, hl.held.dropLast, fun b hb => hl.items b ?_⟩, fun _ _ hi => hi,
      some (h.text (h.tables.get l (l.len - 1))), by simp [htexts], ?_, rfl⟩
    · rw [hread]
      exact List.mem_append_left _ hb
    · rintro b ⟨⟩
      exact hl.items _ (by rw [hread]; exact List.mem_append_right _ List.mem_cons_self)

theorem hDel_takes (fields : List Bytes) {m : Dict Bytes Ref} (hm : (Payload.hash m).Safe h) :
    Takes kindHash (fun h m => mapValues (fun b => h.text b) m) Eq
      (fun m => some (dropAll m fields)) (fun m => some (dropAll m fields)) h m := by
  refine ⟨nofun, fun m₁ n he => ?_⟩
  have hdrop : dropAll m fields = (m₁, n) := Option.some.inj he
  refine ⟨fun f b hb => hm f b ?_, fun _ _ hn => hn, n, by rw [mapValues_dropAll, hdrop], rfl⟩
  rw [show m₁ = (dropAll m fields).1 by rw [hdrop], lookup_dropAll] at hb
  split at hb
  · cases hb
  · exact hb

/-- A range is in the list, however long the list is. -/
theorem normalizeRange_bounds {start stop lo hi : Int64} {n : Nat}
    (h : Store.DB.normalizeRange start stop (Int64.ofNat n) = some (lo, hi)) :
    lo.toNatClampNeg ≤ hi.toNatClampNeg ∧ hi.toNatClampNeg < n := by
  have hn : (Int64.ofNat n).toInt ≤ n := by
    rw [Int64.toInt_ofNat', Int.bmod_def, Int64.size]
    split <;> omega
  unfold Store.DB.normalizeRange at h
  dsimp only at h
  generalize Int64.ofNat n = N at h hn
  generalize (if start < 0 then start + N else start) = s at h
  generalize (if stop < 0 then stop + N else stop) = e at h
  have hs : (0 : Int) ≤ (if s < 0 then 0 else s).toInt := by
    split
    case isTrue => exact le_rfl
    case isFalse hs => simpa [Int64.lt_iff_toInt_lt] using hs
  have he : 0 < N.toInt → (if e ≥ N then N - 1 else e).toInt < N.toInt := by
    intro hpos
    split
    case isTrue =>
      have hlt := N.toInt_lt
      have hsub : (N - 1).toInt = N.toInt - 1 := by
        rw [Int64.toInt_sub, Int64.toInt_one, Int.bmod_eq_of_le] <;> omega
      omega
    case isFalse he => exact Int.not_le.1 (mt Int64.le_iff_toInt_le.2 he)
  generalize (if s < 0 then 0 else s) = s' at h hs
  generalize (if e ≥ N then N - 1 else e) = e' at h he
  split at h
  case isTrue => cases h
  case isFalse hc =>
    cases h
    have hlt : lo.toInt < N.toInt :=
      Int.not_le.1 fun hle => hc (.inr (.inr (Int64.le_iff_toInt_le.2 hle)))
    have hle : lo.toInt ≤ hi.toInt :=
      Int.not_lt.1 fun hlt => hc (.inr (.inl (Int64.lt_iff_toInt_lt.2 hlt)))
    have hhi := he (by omega)
    rw [← Int64.toNat_toInt, ← Int64.toNat_toInt]
    omega

/-- What collecting safe items gives. -/
theorem collect_reads {β : Type} (grow : Mem.Growth) (item : β → Heap → Heap × Ref)
    (value : β → Bytes) (xs : List β) (n : Nat)
    (hitem : ∀ x ∈ xs, ∀ h₁, h.Keeps nowhere nowhere h₁ → h₁.Keeps nowhere nowhere (item x h₁).1 ∧
      (item x h₁).1.Safe (item x h₁).2 ∧ (item x h₁).1.text (item x h₁).2 = value x) :
    h.Keeps nowhere nowhere (h.collect grow item xs n).1 ∧
      (h.collect grow item xs n).1.GivesTable (h.collect grow item xs n).2 (xs.map value) :=
  have hr := Heap.fresh_each grow .reply value xs n hitem
  ⟨hr.keeps, hr.table, hr.texts⟩

/-- Strings that are copied out. -/
theorem newBytes_item {β : Type} (value : β → Bytes) (x : β) (h₁ : Heap) :
    h₁.Keeps nowhere nowhere (h₁.newBytes .reply (value x)).1 ∧
      (h₁.newBytes .reply (value x)).1.Safe (h₁.newBytes .reply (value x)).2 ∧
      (h₁.newBytes .reply (value x)).1.text (h₁.newBytes .reply (value x)).2 = value x :=
  ⟨h₁.newBytes_keeps _ _, Heap.newBytes_safe (by decide) _ h₁, Heap.text_newBytes _ _ h₁⟩

/-- What `LRange` takes of the items of a list. -/
def itemsBetween (start stop : Int64) (items : List Bytes) : List Bytes :=
  match Store.DB.normalizeRange start stop (Int64.ofNat items.length) with
  | none => []
  | some (lo, hi) => (items.drop lo.toNatClampNeg).take (hi.toNatClampNeg + 1 - lo.toNatClampNeg)

/-- `LRange` makes a table of the items in the range. -/
theorem lRange_reads (grow : Mem.Growth) (start stop : Int64) (hl : h.Table .store l) :
    h.Keeps nowhere nowhere (h.lRange grow start stop l).1 ∧
      (h.lRange grow start stop l).1.GivesTable (h.lRange grow start stop l).2
        (itemsBetween start stop (h.texts l)) := by
  rw [itemsBetween, Heap.length_texts, Heap.lRange]
  cases hr : Store.DB.normalizeRange start stop (Int64.ofNat l.len) with
  | none => exact ⟨.refl _ _ _, h.table_nil .reply, rfl⟩
  | some p =>
      obtain ⟨lo, hi⟩ := p
      obtain ⟨hle, hlt⟩ := normalizeRange_bounds hr
      dsimp only
      obtain ⟨n, hn⟩ : ∃ n, hi.toNatClampNeg + 1 - lo.toNatClampNeg = n := ⟨_, rfl⟩
      have hbound : lo.toNatClampNeg + n ≤ l.len := by omega
      rw [hn, Heap.texts, ← List.map_drop, ← List.map_take, ← Mem.map_get_range' hbound,
        List.map_map]
      refine collect_reads grow _ _ _ n fun i hi h₁ hk => ?_
      have hlen : i < l.len := (List.mem_range'_1.1 hi).2.trans_le hbound
      have hsafe : h.Safe (h.tables.get l i) := hl.items _ (Mem.get_mem_read hlen)
      rw [hk.tables.get hl.held (fun _ _ _ hn => hn) (hlen.trans_le hl.held.len_le)]
      exact ⟨.refl _ _ _, hk.safe hsafe, hk.text (fun _ _ hw => False.elim hw) hsafe⟩

/-- Two slices that list a hash, field by field. -/
def Heap.GivesPairs (h : Heap) (a : Ref × Ref) (r : List Bytes × List Bytes) : Prop :=
  (h.Table .reply a.1 ∧ h.Table .reply a.2) ∧
    ((h.texts a.1).zip (h.texts a.2)).Perm (r.1.zip r.2)

/-- `HGetAll` makes a table of the fields and one of the values. -/
theorem hGetAll_reads (grow : Mem.Growth) {entries : List (Bytes × Ref)} (n : Nat)
    (he : ∀ p ∈ entries, h.Safe p.2) :
    h.Keeps nowhere nowhere (h.hGetAll grow entries n).1 ∧
      ((h.hGetAll grow entries n).1.Table .reply (h.hGetAll grow entries n).2.1 ∧
        (h.hGetAll grow entries n).1.Table .reply (h.hGetAll grow entries n).2.2) ∧
      (h.hGetAll grow entries n).1.texts (h.hGetAll grow entries n).2.1 = entries.map Prod.fst ∧
      (h.hGetAll grow entries n).1.texts (h.hGetAll grow entries n).2.2 =
        entries.map fun p => h.text p.2 := by
  have hf := h.make_keeps .reply n
  have hv := (h.make .reply n).1.make_keeps .reply n
  have hk := hf.trans hv fun _ _ _ hn => hn
  have htable := h.make_table .reply n
  -- the second slice looks into a table that the first does not look into
  have hapart : ∀ i a, (h.make .reply n).2.Into i a →
      ¬ ((h.make .reply n).1.make .reply n).2.Into i a := fun i a hi hn =>
    absurd (htable.held.into_lt hi) (Nat.not_lt.2 (Heap.make_into _ _ _ hn).2)
  obtain ⟨hboth, htables, htf, htv⟩ := Heap.appendBoth_spec grow
    (hv.table htable fun _ _ _ hn => hn) (Heap.make_table .reply n _) hapart
    fun p hp => hk.safe (he p hp)
  refine ⟨hk.trans hboth fun i a ha hi => ?_, htables, htf, htv.trans ?_⟩
  · rcases hi with hi | hi
    · exact absurd ha (Nat.not_lt.2 (Heap.make_into _ _ _ hi).2)
    · exact absurd (ha.trans_le (hf.tables.next i)) (Nat.not_lt.2 (Heap.make_into _ _ _ hi).2)
  · exact List.map_congr_left fun p hp => hk.text nofun (he p hp)

end

end MiniRedis.Store.Memory
