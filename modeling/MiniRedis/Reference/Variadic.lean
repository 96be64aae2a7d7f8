import MiniRedis.Reference.Counts

/-!
# Reference — Variadic

A command with many elements is the command on some of them and then on the others.  On the cell of
a key, filling twice is filling once by both functions, and taking twice is taking once
(`fill_fill`, `take_take`); the loops of `Support/Maps.lean` run over two lists one after the other.

* `Variadic.cell_append`: one cell, two lists.
* `variadic_splits`: **the same keyspace, the second reply or the sum of the two, and a type error
  just when the first is one.**
-/

namespace MiniRedis.Reference

open Maps Protocol Store Cmd

/-- What two outcomes, one after the other, make: the error of the first, or the join of both. -/
inductive Joins (join : Nat → Nat → Nat) : Outcome Nat → Outcome Nat → Outcome Nat → Prop where
  | error (err : StoreError) : Joins join (.error err) (.error err) (.error err)
  | ok (n m : Nat) : Joins join (.ok n) (.ok m) (.ok (join n m))

namespace Cell

variable {β : Type} {K : Kind β} {join : Nat → Nat → Nat} {f g h : β → β × Nat}

/-- Two fills in a row are one fill of both. -/
theorem fill_fill (hboth : ∀ b, h b = ((g (f b).1).1, join (f b).2 (g (f b).1).2)) (c : Cell) :
    (fill K h c).1 = (fill K g (fill K f c).1).1 ∧
      Joins join (fill K f c).2 (fill K g (fill K f c).1).2 (fill K h c).2 := by
  have hwrap : ∀ b, K.unwrap (K.wrap b) = some b := fun b => (K.unwrap_iff _ _).2 rfl
  cases c with
  | none =>
      simp only [fill, hwrap, hboth]
      exact ⟨trivial, .ok _ _⟩
  | some e =>
      cases hu : K.unwrap e.payload with
      | none =>
          simp only [fill, hu]
          exact ⟨trivial, .error _⟩
      | some b =>
          simp only [fill, hu, hwrap, hboth]
          exact ⟨trivial, .ok _ _⟩

/-- Taking twice by functions that take nothing from nothing. -/
theorem take_take [DecidableEq β] (hg : g K.empty = (K.empty, 0))
    (hboth : ∀ b, h b = ((g (f b).1).1, (f b).2 + (g (f b).1).2)) (c : Cell) :
    (take K 0 (fun b => some (h b)) c).1 =
        (take K 0 (fun b => some (g b)) (take K 0 (fun b => some (f b)) c).1).1 ∧
      Joins (· + ·) (take K 0 (fun b => some (f b)) c).2
        (take K 0 (fun b => some (g b)) (take K 0 (fun b => some (f b)) c).1).2
        (take K 0 (fun b => some (h b)) c).2 := by
  have hwrap : ∀ b, K.unwrap (K.wrap b) = some b := fun b => (K.unwrap_iff _ _).2 rfl
  cases c with
  | none => exact ⟨rfl, .ok 0 0⟩
  | some e =>
      cases hu : K.unwrap e.payload with
      | none =>
          simp only [take, hu]
          exact ⟨trivial, .error _⟩
      | some b =>
          by_cases hb : (f b).1 = K.empty
          · -- The key is gone after the first; the second finds nothing to take.
            simp only [take, hu, hb, if_true, hboth, hg]
            exact ⟨trivial, .ok _ 0⟩
          · simp only [take, hu, hb, if_false, hboth, hwrap]
            exact ⟨trivial, .ok _ _⟩

end Cell

/-! ### The commands on one key -/

/-- The commands that take a key and any number of elements. -/
inductive Variadic where
  | lPush | rPush | sAdd | sRem | hSet | hDel

namespace Variadic

/-- The command of a variadic call. -/
def command : Variadic → Command
  | .lPush => .lPush
  | .rPush => .rPush
  | .sAdd => .sAdd
  | .sRem => .sRem
  | .hSet => .hSet
  | .hDel => .hDel

/-- The arguments after the key are elements as the command takes them: pairs, for `HSET`. -/
def Whole (xs : List Value) : Variadic → Prop
  | .hSet => xs.length % 2 = 0
  | _ => True

/-- What the replies of two pushes, or the two counts, make. -/
def join : Variadic → Nat → Nat → Nat
  | .lPush, _, m | .rPush, _, m => m
  | _, n, m => n + m

/-- What the command does to the cell of its key. -/
def cell (xs : List Value) : Variadic → Cell → Cell × Outcome Nat
  | .lPush => Cell.fill kindList fun l =>
      ((xs.map Value.str).reverse ++ l, ((xs.map Value.str).reverse ++ l).length)
  | .rPush => Cell.fill kindList fun l => (l ++ xs.map Value.str, (l ++ xs.map Value.str).length)
  | .sAdd => Cell.fill kindSet fun s => addAll s (xs.map Value.str)
  | .sRem => Cell.take kindSet 0 fun s => some (remAll s (xs.map Value.str))
  | .hSet => Cell.fill kindHash fun m => putAll m (pairUp xs)
  | .hDel => Cell.take kindHash 0 fun m => some (dropAll m (xs.map Value.str))

/-- Whole pairs may be split anywhere. -/
theorem pairUp_append : ∀ {xs : List Value}, xs.length % 2 = 0 → ∀ ys : List Value,
    pairUp (xs ++ ys) = pairUp xs ++ pairUp ys
  | [], _, _ => rfl
  | [_], h, _ => by simp at h
  | f :: v :: xs, h, ys => by
      have hxs : xs.length % 2 = 0 := by
        simp only [List.length_cons] at h
        omega
      simp only [List.cons_append, pairUp, pairUp_append hxs ys]

/-- A variadic call on one key is its parts, one after the other. -/
theorem cell_append (c : Variadic) {xs : List Value} (hxs : c.Whole xs) (ys : List Value)
    (k : Cell) :
    (c.cell (xs ++ ys) k).1 = (c.cell ys (c.cell xs k).1).1 ∧
      Joins c.join (c.cell xs k).2 (c.cell ys (c.cell xs k).1).2 (c.cell (xs ++ ys) k).2 := by
  cases c with
  | lPush => exact Cell.fill_fill (fun l => by simp [join]) k
  | rPush => exact Cell.fill_fill (fun l => by simp [join]) k
  | sAdd => exact Cell.fill_fill (fun s => by simp [join, addAll_append]) k
  | hSet => exact Cell.fill_fill (fun m => by rw [pairUp_append hxs, putAll_append]; rfl) k
  | sRem => exact Cell.take_take (remAll_empty _) (fun s => by simp [remAll_append]) k
  | hDel => exact Cell.take_take (dropAll_empty _) (fun m => by simp [dropAll_append]) k

/-- The request does to the keyspace what the call does to the cell. -/
theorem dispatch_cell (c : Variadic) {key : Value} {xs : List Value} {request : Value}
    (hne : xs ≠ []) (hxs : c.Whole xs) (hn : Names c.command (key :: xs) request) (now : Time)
    (order : RangeOrder) (db : DB) :
    (db.dispatch now order request).1.keyspace now =
        Function.update (db.keyspace now) key.str (c.cell xs (db.keyspace now key.str)).1 ∧
      (db.dispatch now order request).2 =
        orErr countReply (c.cell xs (db.keyspace now key.str)).2 := by
  obtain ⟨x, xs, rfl⟩ := List.exists_cons_of_ne_nil hne
  cases c with
  | lPush | rPush | sAdd | sRem | hDel =>
      exact DB.dispatch_onKey now order hn.plan_eq (fun _ => rfl) db
  | hSet =>
      have hlen : (x :: xs).length % 2 = 0 := hxs
      have hplan : Command.handler .hSet (key :: x :: xs) =
          .call (.hSet key.str ((pairUp (x :: xs)).map Prod.fst)
            ((pairUp (x :: xs)).map Prod.snd)) (orErr countReply) := by
        simp only [Command.handler, Cmd.hSet]
        rw [if_neg]
        simp only [List.length_cons] at hlen ⊢
        omega
      exact DB.dispatch_onKey now order (hn.plan_eq.trans hplan) (RefStore.hSet_call _ _) db

/-- On a store: the outcomes of the three requests, and what they leave. -/
theorem dispatch_append (c : Variadic) {key : Value} {xs ys : List Value} {r r₁ r₂ : Value}
    (hxs : xs ≠ []) (hys : ys ≠ []) (wx : c.Whole xs) (wy : c.Whole ys)
    (h : Names c.command (key :: (xs ++ ys)) r) (h₁ : Names c.command (key :: xs) r₁)
    (h₂ : Names c.command (key :: ys) r₂) (now : Time) (order order₁ order₂ : RangeOrder)
    (db : DB) :
    let whole := db.dispatch now order r
    let first := db.dispatch now order₁ r₁
    let second := first.1.dispatch now order₂ r₂
    whole.1.keyspace now = second.1.keyspace now ∧
    ∃ o₁ o₂ o, Joins c.join o₁ o₂ o ∧ first.2 = orErr countReply o₁ ∧
      second.2 = orErr countReply o₂ ∧ whole.2 = orErr countReply o := by
  intro whole first second
  have hboth : c.Whole (xs ++ ys) := by
    cases c with
    | hSet =>
        have hx : xs.length % 2 = 0 := wx
        have hy : ys.length % 2 = 0 := wy
        change (xs ++ ys).length % 2 = 0
        rw [List.length_append]
        omega
    | _ => trivial
  obtain ⟨hks, hreply⟩ := c.dispatch_cell (by simp [hxs]) hboth h now order db
  obtain ⟨hks₁, hreply₁⟩ := c.dispatch_cell hxs wx h₁ now order₁ db
  obtain ⟨hks₂, hreply₂⟩ := c.dispatch_cell hys wy h₂ now order₂ first.1
  obtain ⟨hcell, hjoins⟩ := c.cell_append wx ys (db.keyspace now key.str)
  rw [hks₁, Function.update_self] at hks₂ hreply₂
  refine ⟨?_, _, _, _, hjoins, hreply₁, hreply₂, hreply⟩
  rw [hks, hks₂, hcell, Function.update_idem]

end Variadic

/-! ### Deletions -/

theorem RefStore.del_append : ∀ (keys keys' : List Bytes) (s : RefStore),
    s.del (keys ++ keys') =
      (((s.del keys).1.del keys').1, (s.del keys).2 + ((s.del keys).1.del keys').2)
  | [], _, _ => by simp [del]
  | key :: keys, keys', s => by simp [del, del_append keys, Nat.add_assoc]

/-! ### The result -/

/-- **Variadic commands are iterated.**  At one reading, a push, `SADD`, `SREM`, `HSET` or `HDEL` of
two lists of elements leaves the keyspace that the command leaves on the first list and then on the
second.  It is a type error just when the first is; otherwise its reply is that of the second push,
or the sum of the two counts.  So it is with the keys of a `DEL`, which is never a type error. -/
theorem variadic_splits {xs ys : List Value} (hxs : xs ≠ []) (hys : ys ≠ []) {r r₁ r₂ : Value}
    (now : Time) (order order₁ order₂ : RangeOrder) (db : DB) :
    let whole := db.dispatch now order r
    let first := db.dispatch now order₁ r₁
    let second := first.1.dispatch now order₂ r₂
    (∀ (c : Variadic) (key : Value), c.Whole xs → c.Whole ys →
      Names c.command (key :: (xs ++ ys)) r → Names c.command (key :: xs) r₁ →
      Names c.command (key :: ys) r₂ →
      whole.1.keyspace now = second.1.keyspace now ∧
      (whole.2 = replyForErr .wrongType ↔ first.2 = replyForErr .wrongType) ∧
      (first.2 ≠ replyForErr .wrongType → ∃ n m, first.2 = countReply n ∧
        second.2 = countReply m ∧ whole.2 = countReply (c.join n m))) ∧
    (Names .del (xs ++ ys) r → Names .del xs r₁ → Names .del ys r₂ →
      whole.1.keyspace now = second.1.keyspace now ∧
      ∃ n m, first.2 = countReply n ∧ second.2 = countReply m ∧ whole.2 = countReply (n + m)) := by
  intro whole first second
  refine ⟨fun c key wx wy h h₁ h₂ => ?_, fun h h₁ h₂ => ?_⟩
  · obtain ⟨hks, o₁, o₂, o, hjoins, hr₁, hr₂, hr⟩ :=
      c.dispatch_append hxs hys wx wy h h₁ h₂ now order order₁ order₂ db
    refine ⟨hks, ?_, fun hne => ?_⟩
    · change first.2 = _ at hr₁
      change whole.2 = _ at hr
      rw [hr, hr₁]
      cases hjoins with
      | error err => cases err; exact Iff.rfl
      | ok n m => exact ⟨nofun, nofun⟩
    · cases hjoins with
      | error err => cases err; exact absurd hr₁ hne
      | ok n m => exact ⟨n, m, hr₁, hr₂, hr⟩
  · have hne : xs ++ ys ≠ [] := by simp [hxs]
    obtain ⟨hstore, hreply⟩ := dispatch_del now order db hne h
    obtain ⟨hstore₁, hreply₁⟩ := dispatch_del now order₁ db hxs h₁
    obtain ⟨hstore₂, hreply₂⟩ := dispatch_del now order₂ first.1 hys h₂
    rw [List.map_append, RefStore.del_append, ← hstore₁] at hstore hreply
    exact ⟨congrArg RefStore.keys (hstore.trans hstore₂.symm), _, _, hreply₁, hreply₂, hreply⟩

/-- Two fields of a hash and one that is not there, in two requests and in one: the second takes the
last field, and the key is gone. -/
theorem variadic_splits_hDel :
    let hdel := fun fields => bulkCmd (txt "HDEL" :: txt "k" :: fields)
    let db := (DB.new.dispatch 0 .sorted
      (bulkCmd [txt "HSET", txt "k", txt "f", txt "1", txt "g", txt "2"])).1
    let first := db.dispatch 0 .sorted (hdel [txt "f", txt "x"])
    first.2 = countReply 1 ∧
      (db.dispatch 0 .sorted (hdel [txt "f", txt "x", txt "g"])).1.keyspace 0 =
        (first.1.dispatch 0 .sorted (hdel [txt "g"])).1.keyspace 0 := by
  intro hdel db first
  have harg : ∀ fields, Names .hDel ((txt "k" :: fields).map fun a => .bulkString (some a))
      (hdel fields) := fun fields => ⟨_, rfl, by decide⟩
  have hxs : [txt "f", txt "x"].map (fun a => Value.bulkString (some a)) ≠ [] := by decide
  have hys : [txt "g"].map (fun a => Value.bulkString (some a)) ≠ [] := by decide
  have hsplits := (variadic_splits hxs hys 0 .sorted .sorted .sorted db).1 .hDel
    (.bulkString (some (txt "k"))) trivial trivial (harg [txt "f", txt "x", txt "g"])
    (harg [txt "f", txt "x"]) (harg [txt "g"])
  exact ⟨by decide +kernel, hsplits.1⟩

end MiniRedis.Reference
