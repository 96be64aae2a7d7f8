import MiniRedis.Reference.Transparency
import MiniRedis.Support.Deque

/-!
# Reference — lists as deques

The list commands on one key, next to a double-ended queue (`Support/Deque.lean`).  A key without a
deadline holds a sequence: nothing when it is empty, and otherwise the list of its elements.  A Go
slice is shorter than `2 ^ 63`; of the sequences of the model this is assumed.

* `normalizeRange_cases`, `ranged_eq_between`: the bounds of a range, in exact arithmetic.
* `Holds.lPush` … `Holds.lRange`: the methods, on a key that holds a sequence.
* `Holds.dispatch`: one request is one operation of the deque.
* `lists_refine_deque`: **so is every sequence of requests, and `LRANGE` computes its indices
  without overflow and stays inside the list.**
-/

namespace MiniRedis.Reference

open Protocol Store Cmd Deque

/-! ### The bounds of a range -/

section Range

variable {n : Nat} (hn : n < 2 ^ 63)

include hn

theorem toInt_length : (Int64.ofNat n).toInt = n :=
  Int64.toInt_ofNat_of_lt hn

theorem toInt_add_length {i : Int64} (hi : i < 0) :
    (i + Int64.ofNat n).toInt = i.toInt + n := by
  have hneg : i.toInt < 0 := Int64.lt_iff_toInt_lt.1 hi
  have hmin := i.le_toInt
  rw [Int64.toInt_add, toInt_length hn]
  exact Int.bmod_eq_of_le (by omega) (by omega)

theorem toInt_length_sub_one : (Int64.ofNat n - 1).toInt = n - 1 := by
  rw [Int64.toInt_sub, toInt_length hn, Int64.toInt_one]
  exact Int.bmod_eq_of_le (by omega) (by omega)

theorem toInt_index (i : Int64) :
    (if i < 0 then i + Int64.ofNat n else i).toInt = index n i.toInt := by
  have hneg : i < 0 ↔ i.toInt < 0 := Int64.lt_iff_toInt_lt
  rw [index]
  by_cases hi : i < 0
  · rw [if_pos hi, if_pos (hneg.1 hi), toInt_add_length hn hi]
  · rw [if_neg hi, if_neg (fun h => hi (hneg.2 h))]

/-- `normalizeRange` in exact arithmetic. -/
theorem normalizeRange_cases (start stop : Int64) :
    (DB.normalizeRange start stop (Int64.ofNat n) = none ∧
        min (index n stop.toInt) (n - 1) < max (index n start.toInt) 0) ∨
      ∃ lo hi, DB.normalizeRange start stop (Int64.ofNat n) = some (lo, hi) ∧
        lo.toInt = max (index n start.toInt) 0 ∧ hi.toInt = min (index n stop.toInt) (n - 1) ∧
          lo.toInt ≤ hi.toInt := by
  have hlen := toInt_length hn
  have hsub := toInt_length_sub_one hn
  have hs := toInt_index hn start
  have he := toInt_index hn stop
  unfold DB.normalizeRange
  dsimp only
  generalize (if start < 0 then start + Int64.ofNat n else start) = s at hs ⊢
  generalize (if stop < 0 then stop + Int64.ofNat n else stop) = e at he ⊢
  have hlo : (if s < 0 then 0 else s).toInt = max (index n start.toInt) 0 := by
    rw [← hs]
    split
    case isTrue h => rw [Int64.lt_iff_toInt_lt] at h; simp at h ⊢; omega
    case isFalse h => rw [Int64.lt_iff_toInt_lt] at h; simp at h ⊢; omega
  have hhi : (if e ≥ Int64.ofNat n then Int64.ofNat n - 1 else e).toInt =
      min (index n stop.toInt) (n - 1) := by
    rw [← he]
    split
    case isTrue h => rw [ge_iff_le, Int64.le_iff_toInt_le] at h; omega
    case isFalse h => rw [ge_iff_le, Int64.le_iff_toInt_le] at h; omega
  generalize (if s < 0 then 0 else s) = lo at hlo ⊢
  generalize (if e ≥ Int64.ofNat n then Int64.ofNat n - 1 else e) = hi at hhi ⊢
  split
  case isTrue h =>
    refine .inl ⟨rfl, ?_⟩
    rcases h with h | h | h
    · have hzero : (n : Int) = 0 := by rw [← hlen, h]; rfl
      omega
    · have hlt : hi.toInt < lo.toInt := Int64.lt_iff_toInt_lt.1 h
      omega
    · have hle : (Int64.ofNat n).toInt ≤ lo.toInt := Int64.le_iff_toInt_le.1 h
      omega
  case isFalse h =>
    refine .inr ⟨lo, hi, rfl, hlo, hhi, ?_⟩
    by_contra hlt
    exact h (.inr (.inl (Int64.lt_iff_toInt_lt.2 (Int.not_le.1 hlt))))

end Range

/-- The elements `LRange` returns of a list. -/
def ranged (start stop : Int64) (l : List Bytes) : List Bytes :=
  match DB.normalizeRange start stop (Int64.ofNat l.length) with
  | none => []
  | some (lo, hi) => (l.drop lo.toNatClampNeg).take (hi.toNatClampNeg + 1 - lo.toNatClampNeg)

/-- The range in machine arithmetic is that of the integers. -/
theorem ranged_eq_between {l : List Bytes} (hl : l.length < 2 ^ 63) (start stop : Int64) :
    ranged start stop l = between start.toInt stop.toInt l := by
  rw [ranged, between_eq]
  rcases normalizeRange_cases hl start stop with ⟨hnone, hlt⟩ | ⟨lo, hi, hsome, hlo, hhi, hle⟩
  · rw [hnone]
    refine (List.eq_nil_of_length_eq_zero ?_).symm
    rw [List.length_take, List.length_drop]
    omega
  · have hdrop : lo.toNatClampNeg = (index l.length start.toInt).toNat := by
      rw [← Int64.toNat_toInt]
      omega
    rw [hsome]
    dsimp only
    rw [hdrop, List.take_eq_take_iff, List.length_drop, ← Int64.toNat_toInt]
    omega

/-! ### Sequences under a key -/

/-- What the key of a sequence maps to. -/
def cellOf (l : List Bytes) : Cell := if l = [] then none else some ⟨.list l, none⟩

/-- The key holds the sequence, and no deadline. -/
def Holds (db : DB) (key : Bytes) (l : List Bytes) : Prop :=
  (db.shardFor key).lookup key = cellOf l

theorem cellOf_nil : cellOf [] = none := rfl

theorem cellOf_of_ne {l : List Bytes} (h : l ≠ []) : cellOf l = some ⟨.list l, none⟩ := if_neg h

theorem fill_cellOf {α : Type} {f : List Bytes → List Bytes × α} {l : List Bytes}
    (hne : (f l).1 ≠ []) : Cell.fill kindList f (cellOf l) = (cellOf (f l).1, .ok (f l).2) := by
  rw [cellOf_of_ne hne]
  by_cases hl : l = []
  · subst hl
    rfl
  · rw [cellOf_of_ne hl]
    rfl

theorem take_cellOf {α : Type} {f : List Bytes → Option (List Bytes × α)} {absent a : α}
    {l l' : List Bytes} (hl : l ≠ []) (hf : f l = some (l', a)) :
    Cell.take kindList absent f (cellOf l) = (cellOf l', .ok a) := by
  have hu : kindList.unwrap (.list l) = some l := rfl
  rw [cellOf_of_ne hl]
  simp only [Cell.take, hu, hf]
  rfl

theorem read_cellOf {α : Type} {f : List Bytes → α} {absent : α} (h : f [] = absent)
    (l : List Bytes) : Cell.read kindList absent f (cellOf l) = .ok (f l) := by
  by_cases hl : l = []
  · subst hl
    rw [h]
    rfl
  · rw [cellOf_of_ne hl]
    rfl

section Holds

variable {db : DB} {key : Bytes} {l : List Bytes} {now : Time}

theorem Holds.peek (h : Holds db key l) (now : Time) :
    Shard.peek now key (db.shardFor key) = cellOf l := by
  unfold Holds at h
  rw [Shard.peek, h]
  by_cases hl : l = []
  · subst hl
    rfl
  · rw [cellOf_of_ne hl]
    rfl

/-- The key exists just when the sequence is not empty. -/
theorem Holds.isSome_iff (h : Holds db key l) (now : Time) :
    (db.keyspace now key).isSome = true ↔ l ≠ [] := by
  rw [DB.keyspace, h.peek]
  by_cases hl : l = []
  · simp [hl, cellOf_nil]
  · simp [cellOf_of_ne hl, hl]

/-- A method does to the list what its body does to the cell. -/
theorem Holds.locked {α : Type} {body : Shard → Shard × α} {cell : Cell → Cell × α}
    (h : Holds db key l) (hacts : Acts now key body cell) {l' : List Bytes} {a : α}
    (hcell : cell (cellOf l) = (cellOf l', a)) :
    Holds (db.locked key body).1 key l' ∧ (db.locked key body).2 = a := by
  refine ⟨?_, ?_⟩
  · rw [Holds, DB.shardFor_locked, if_pos rfl, hacts.update, h.peek, hcell]
  · exact (hacts.answer _).trans (by rw [h.peek, hcell])

theorem Holds.lPush (h : Holds db key l) (now : Time) {xs : List Bytes} (hxs : xs ≠ []) :
    Holds (db.lPush now key xs).1 key (xs.reverse ++ l) ∧
      (db.lPush now key xs).2 = .ok (xs.length + l.length) := by
  have hcell : Cell.fill kindList (fun l => (xs.reverse ++ l, (xs.reverse ++ l).length))
      (cellOf l) = (cellOf (xs.reverse ++ l), .ok (xs.length + l.length)) := by
    rw [fill_cellOf (by simp [hxs]), List.length_append, List.length_reverse]
  exact h.locked (fill_acts kindList _) hcell

theorem Holds.rPush (h : Holds db key l) (now : Time) {xs : List Bytes} (hxs : xs ≠ []) :
    Holds (db.rPush now key xs).1 key (l ++ xs) ∧
      (db.rPush now key xs).2 = .ok (l.length + xs.length) := by
  have hcell : Cell.fill kindList (fun l => (l ++ xs, (l ++ xs).length)) (cellOf l) =
      (cellOf (l ++ xs), .ok (l.length + xs.length)) := by
    rw [fill_cellOf (by simp [hxs]), List.length_append]
  exact h.locked (fill_acts kindList _) hcell

theorem Holds.lPop (h : Holds db key l) (now : Time) :
    Holds (db.lPop now key).1 key l.tail ∧ (db.lPop now key).2 = .ok l.head? := by
  refine h.locked (take_acts kindList none _) ?_
  cases l with
  | nil => rfl
  | cons x l => exact take_cellOf (List.cons_ne_nil x l) rfl

theorem Holds.rPop (h : Holds db key l) (now : Time) :
    Holds (db.rPop now key).1 key l.dropLast ∧ (db.rPop now key).2 = .ok l.getLast? := by
  refine h.locked (take_acts kindList none _) ?_
  cases l with
  | nil => rfl
  | cons x l =>
      refine take_cellOf (List.cons_ne_nil x l) ?_
      rw [List.getLast?_eq_some_getLast (List.cons_ne_nil x l)]
      rfl

theorem Holds.lLen (h : Holds db key l) (now : Time) : db.lLen now key = .ok l.length := by
  rw [DB.lLen, read_eq, h.peek]
  exact read_cellOf List.length_nil l

theorem Holds.lRange (h : Holds db key l) (hl : l.length < 2 ^ 63) (now : Time)
    (start stop : Int64) :
    db.lRange now key start stop = .ok (between start.toInt stop.toInt l) := by
  have hnil : ranged start stop [] = [] := by
    rw [ranged_eq_between (by decide)]
    rfl
  rw [← ranged_eq_between hl, ← read_cellOf hnil, ← h.peek now, ← read_eq]
  rfl

end Holds

/-! ### Requests as operations -/

/-- The request asks for the operation on the key. -/
def Asks (key : Bytes) (request : Value) : Op Bytes → Prop
  | .pushFront xs => ∃ k v vs, Names .lPush (k :: v :: vs) request ∧ k.str = key ∧
      (v :: vs).map Value.str = xs
  | .pushBack xs => ∃ k v vs, Names .rPush (k :: v :: vs) request ∧ k.str = key ∧
      (v :: vs).map Value.str = xs
  | .popFront => ∃ k, Names .lPop [k] request ∧ k.str = key
  | .popBack => ∃ k, Names .rPop [k] request ∧ k.str = key
  | .length => ∃ k, Names .lLen [k] request ∧ k.str = key
  | .range start stop => ∃ k a b, Names .lRange [k, a, b] request ∧ k.str = key ∧
      (∃ lo, parseInt a.str = some lo ∧ lo.toInt = start) ∧
        ∃ hi, parseInt b.str = some hi ∧ hi.toInt = stop

/-- The reply is the answer: a length as an integer, null for no element. -/
def Shows : Answer Bytes → Value → Prop
  | .count n, v => ∃ k : Int64, v = .integer k ∧ k.toInt = n
  | .item a, v => v = .bulkString a
  | .items as, v => v = .array (as.map fun b => .bulkString (some b))

section Dispatch

variable {db : DB} {key : Bytes} {l : List Bytes} {request : Value}

theorem shows_countReply {n : Nat} (hn : n < 2 ^ 63) : Shows (.count n) (countReply n) :=
  ⟨_, rfl, toInt_length hn⟩

theorem shows_optionReply (a : Option Bytes) : Shows (.item a) (optionReply a) := by
  cases a <;> rfl

/-- **One request is one operation of the deque**, in its answer and in what it leaves. -/
theorem Holds.dispatch {op : Op Bytes} (h : Holds db key l) (hasks : Asks key request op)
    (hl : l.length < 2 ^ 63) (hl' : (op.apply l).1.length < 2 ^ 63) (now : Time)
    (order : RangeOrder) :
    Holds (db.dispatch now order request).1 key (op.apply l).1 ∧
      Shows (op.apply l).2 (db.dispatch now order request).2 := by
  rw [DB.dispatch, Cmd.dispatch]
  cases op with
  | pushFront xs =>
      obtain ⟨k, v, vs, hnames, rfl, rfl⟩ := hasks
      obtain ⟨hdb, hreply⟩ := h.lPush now (List.cons_ne_nil v.str (vs.map Value.str))
      rw [hnames.plan_eq]
      refine ⟨hdb, ?_⟩
      change Shows _ (orErr countReply (db.lPush now k.str ((v :: vs).map Value.str)).2)
      rw [List.map_cons, hreply]
      have hcount : (Op.apply (.pushFront ((v :: vs).map Value.str)) l).1.length =
          (v.str :: vs.map Value.str).length + l.length := by
        rw [Op.apply, List.length_append, List.length_reverse, List.map_cons]
      exact shows_countReply (hcount ▸ hl')
  | pushBack xs =>
      obtain ⟨k, v, vs, hnames, rfl, rfl⟩ := hasks
      obtain ⟨hdb, hreply⟩ := h.rPush now (List.cons_ne_nil v.str (vs.map Value.str))
      rw [hnames.plan_eq]
      refine ⟨hdb, ?_⟩
      change Shows _ (orErr countReply (db.rPush now k.str ((v :: vs).map Value.str)).2)
      rw [List.map_cons, hreply]
      have hcount : (Op.apply (.pushBack ((v :: vs).map Value.str)) l).1.length =
          l.length + (v.str :: vs.map Value.str).length := by
        rw [Op.apply, List.length_append, List.map_cons]
      exact shows_countReply (hcount ▸ hl')
  | popFront =>
      obtain ⟨k, hnames, rfl⟩ := hasks
      obtain ⟨hdb, hreply⟩ := h.lPop now
      rw [hnames.plan_eq]
      refine ⟨hdb, ?_⟩
      change Shows _ (orErr optionReply (db.lPop now k.str).2)
      rw [hreply]
      exact shows_optionReply _
  | popBack =>
      obtain ⟨k, hnames, rfl⟩ := hasks
      obtain ⟨hdb, hreply⟩ := h.rPop now
      rw [hnames.plan_eq]
      refine ⟨hdb, ?_⟩
      change Shows _ (orErr optionReply (db.rPop now k.str).2)
      rw [hreply]
      exact shows_optionReply _
  | length =>
      obtain ⟨k, hnames, rfl⟩ := hasks
      rw [hnames.plan_eq]
      refine ⟨h, ?_⟩
      change Shows _ (orErr countReply (db.lLen now k.str))
      rw [h.lLen now]
      exact shows_countReply hl
  | range start stop =>
      obtain ⟨k, a, b, hnames, rfl, ⟨lo, ha, rfl⟩, hi, hb, rfl⟩ := hasks
      have hplan : plan request = .call (.lRange k.str lo hi) (orErr bulkArrayValue) := by
        rw [hnames.plan_eq]
        simp only [Command.handler, Cmd.lRange, ha, hb]
      rw [hplan]
      refine ⟨h, ?_⟩
      change Shows _ (orErr bulkArrayValue (db.lRange now k.str lo hi))
      rw [h.lRange hl now]
      rfl

end Dispatch

/-! ### Runs -/

/-- The sequence fits a slice, before the operations and after each of them. -/
def Fits : List (Op Bytes) → List Bytes → Prop
  | [], l => l.length < 2 ^ 63
  | op :: ops, l => l.length < 2 ^ 63 ∧ Fits ops (op.apply l).1

theorem Fits.length_lt {ops : List (Op Bytes)} {l : List Bytes} (h : Fits ops l) :
    l.length < 2 ^ 63 := by
  cases ops with
  | nil => exact h
  | cons op ops => exact h.1

/-- The requests of a run and the operations they ask for. -/
abbrev Exchange := Dispatched × Op Bytes

theorem Holds.run {key : Bytes} (rs : List Exchange)
    (hasks : ∀ r ∈ rs, Asks key r.1.request r.2) {db : DB} {l : List Bytes} (h : Holds db key l)
    (hfits : Fits (rs.map Prod.snd) l) :
    Holds (db.run (rs.map fun r => .request r.1)).1 key (Deque.run (rs.map Prod.snd) l).1 ∧
      (Deque.run (rs.map Prod.snd) l).1.length < 2 ^ 63 ∧
      List.Forall₂ Shows (Deque.run (rs.map Prod.snd) l).2
        ((db.run (rs.map fun r => .request r.1)).2.map Prod.snd) := by
  induction rs generalizing db l with
  | nil => exact ⟨h, hfits, .nil⟩
  | cons r rs ih =>
      obtain ⟨hr, hrs⟩ := List.forall_mem_cons.1 hasks
      obtain ⟨hl, hrest⟩ := hfits
      obtain ⟨hdb, hreply⟩ := h.dispatch hr hl hrest.length_lt r.1.now r.1.order
      obtain ⟨hend, hlen, hreplies⟩ := ih hrs hdb hrest
      exact ⟨hend, hlen, .cons hreply hreplies⟩

/-- The arithmetic of `normalizeRange` and of the loop behind it is exact, and every index the loop
reads is one of the list. -/
def RangeSafe (start stop : Int64) (n : Nat) : Prop :=
  (Int64.ofNat n).toInt = n ∧
    (start < 0 → (start + Int64.ofNat n).toInt = start.toInt + n) ∧
    (stop < 0 → (stop + Int64.ofNat n).toInt = stop.toInt + n) ∧
    (Int64.ofNat n - 1).toInt = n - 1 ∧
    ∀ lo hi, DB.normalizeRange start stop (Int64.ofNat n) = some (lo, hi) →
      0 ≤ lo.toInt ∧ lo.toInt ≤ hi.toInt ∧ hi.toInt < n ∧
        (hi - lo + 1).toInt = hi.toInt - lo.toInt + 1 ∧ (hi + 1).toInt = hi.toInt + 1

/-- The bounds that `LRANGE` slices with are inside the list. -/
theorem rangeSafe {n : Nat} (hn : n < 2 ^ 63) (start stop : Int64) : RangeSafe start stop n := by
  refine ⟨toInt_length hn, toInt_add_length hn, toInt_add_length hn, toInt_length_sub_one hn,
    fun lo hi h => ?_⟩
  rcases normalizeRange_cases hn start stop with ⟨hnone, -⟩ | ⟨lo', hi', hsome, hlo, hhi, hle⟩
  · rw [hnone] at h
    cases h
  · rw [hsome] at h
    cases h
    have hwidth : (hi - lo).toInt = hi.toInt - lo.toInt := by
      rw [Int64.toInt_sub]
      exact Int.bmod_eq_of_le (by omega) (by omega)
    refine ⟨by omega, hle, by omega, ?_, ?_⟩
    · rw [Int64.toInt_add, hwidth, Int64.toInt_one]
      exact Int.bmod_eq_of_le (by omega) (by omega)
    · rw [Int64.toInt_add, Int64.toInt_one]
      exact Int.bmod_eq_of_le (by omega) (by omega)

/-- **Lists refine a deque.**  From a key that holds a sequence, the replies to a run of list
requests, at any readings, are the answers of the deque, and the key then holds the sequence the
deque ends in and exists just when it is not empty.  And whatever the bounds of an `LRANGE`, its
arithmetic does not overflow and its indices are in range. -/
theorem lists_refine_deque {key : Bytes} {db : DB} {l : List Bytes} (h : Holds db key l)
    (rs : List Exchange) (hasks : ∀ r ∈ rs, Asks key r.1.request r.2)
    (hfits : Fits (rs.map Prod.snd) l) :
    let db' := (db.run (rs.map fun r => .request r.1)).1
    let l' := (Deque.run (rs.map Prod.snd) l).1
    List.Forall₂ Shows (Deque.run (rs.map Prod.snd) l).2
        ((db.run (rs.map fun r => .request r.1)).2.map Prod.snd) ∧
      Holds db' key l' ∧ (∀ t, (db'.keyspace t key).isSome = true ↔ l' ≠ []) ∧
      ∀ start stop : Int64, RangeSafe start stop l'.length := by
  intro db' l'
  obtain ⟨hend, hlen, hreplies⟩ := h.run rs hasks hfits
  exact ⟨hreplies, hend, hend.isSome_iff, rangeSafe hlen⟩

/-- Pushes at both ends, a range that counts from the end, and pops until the key is gone. -/
def pushesAndPops : List Exchange :=
  [(⟨0, .sorted, bulkCmd [txt "rpush", txt "k", txt "a", txt "b"]⟩, .pushBack [txt "a", txt "b"]),
    (⟨0, .sorted, bulkCmd [txt "lpush", txt "k", txt "c", txt "d"]⟩,
      .pushFront [txt "c", txt "d"]),
    (⟨1, .sorted, bulkCmd [txt "lrange", txt "k", txt "-3", txt "-1"]⟩, .range (-3) (-1)),
    (⟨2, .sorted, bulkCmd [txt "lpop", txt "k"]⟩, .popFront),
    (⟨0, .sorted, bulkCmd [txt "rpop", txt "k"]⟩, .popBack),
    (⟨3, .sorted, bulkCmd [txt "llen", txt "k"]⟩, .length)]

/-- A run with pushes and pops at both ends. -/
theorem lists_refine_deque_pushesAndPops :
    Deque.run (pushesAndPops.map Prod.snd) [] =
        ([txt "c", txt "a"],
          [.count 2, .count 4, .items [txt "c", txt "a", txt "b"], .item (some (txt "d")),
            .item (some (txt "b")), .count 2]) ∧
      List.Forall₂ Shows (Deque.run (pushesAndPops.map Prod.snd) []).2
        ((DB.new.run (pushesAndPops.map fun r => .request r.1)).2.map Prod.snd) := by
  have hnew : Holds DB.new (txt "k") [] := rfl
  have hasks : ∀ r ∈ pushesAndPops, Asks (txt "k") r.1.request r.2 := by
    intro r hr
    simp only [pushesAndPops, List.mem_cons, List.not_mem_nil, or_false] at hr
    rcases hr with rfl | rfl | rfl | rfl | rfl | rfl
    · exact ⟨_, _, _, ⟨_, rfl, by decide⟩, rfl, rfl⟩
    · exact ⟨_, _, _, ⟨_, rfl, by decide⟩, rfl, rfl⟩
    · exact ⟨_, _, _, ⟨_, rfl, by decide⟩, rfl, ⟨-3, by decide, rfl⟩, -1, by decide, rfl⟩
    · exact ⟨_, ⟨_, rfl, by decide⟩, rfl⟩
    · exact ⟨_, ⟨_, rfl, by decide⟩, rfl⟩
    · exact ⟨_, ⟨_, rfl, by decide⟩, rfl⟩
  have hfits : Fits (pushesAndPops.map Prod.snd) [] := by
    refine ⟨by decide, by decide, by decide, by decide, by decide, by decide, ?_⟩
    show (Op.apply _ _).1.length < 2 ^ 63
    decide
  exact ⟨by decide, (lists_refine_deque hnew pushesAndPops hasks hfits).1⟩

end MiniRedis.Reference
