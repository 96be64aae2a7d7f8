import MiniRedis.Reference.Dispatch

/-!
# Reference — setting and reporting deadlines

`EXPIRE` and `PEXPIRE` multiply the timeout by its unit in 64 bits, and the sign of the product
decides between a deadline and a deletion.  `TTL` and `PTTL` read the clock twice, once to look the
key up and once for the time it has left, and round by adding half a unit in 64 bits.

* `expire_honoured_iff`: **a timeout is honoured just when its product with the unit does not
  overflow to another meaning.**
* `timeouts_misread`: a timeout that deletes, one that comes early, and a past one that keeps the
  key.
* `ttl_unambiguous_iff`: **the reply of `TTL` is unambiguous just when the second reading is less
  than a unit and a half behind the deadline, and rounding does not overflow.**
* `ttl_ambiguous`: a live key with a deadline reported as one without, as absent, and with a
  wrapped time.
-/

namespace MiniRedis.Reference

open Protocol Store Cmd Strings

/-- The unit in which a command counts time. -/
inductive Scale where
  | seconds | milliseconds
deriving DecidableEq

namespace Scale

/-- The command that sets a deadline in the unit. -/
def expire : Scale → Command
  | seconds => .expire
  | milliseconds => .pExpire

/-- The command that reports a deadline in the unit. -/
def ttl : Scale → Command
  | seconds => .ttl
  | milliseconds => .pTTL

/-- The unit of the scale, in nanoseconds. -/
def unit : Scale → Duration
  | seconds => second
  | milliseconds => millisecond

/-- The unit, in nanoseconds. -/
def nanos : Scale → Int
  | seconds => 1000000000
  | milliseconds => 1000000

theorem toInt_unit (u : Scale) : u.unit.toInt = u.nanos := by
  cases u
  · exact toInt_second
  · exact toInt_millisecond

theorem nanos_pos (u : Scale) : 0 < u.nanos := by
  cases u <;> decide

end Scale

/-! ### Setting a deadline -/

/-- The request asks for the key to expire in `n` units, in whatever form the number is written. -/
def AsksExpire (u : Scale) (key : Bytes) (n : Int64) (request : Value) : Prop :=
  ∃ k v, Names u.expire [k, v] request ∧ k.str = key ∧ parseInt v.str = some n

/-- The request is one call of `Expire`. -/
theorem AsksExpire.plan_eq {u : Scale} {key : Bytes} {n : Int64} {request : Value}
    (h : AsksExpire u key n request) :
    plan request = .call (.expire key (n * u.unit)) boolReply := by
  obtain ⟨k, v, hnames, rfl, hn⟩ := h
  rw [hnames.plan_eq]
  cases u <;>
    simp only [Scale.expire, Command.handler, Cmd.expire, pExpire, expireIn, hn, Scale.unit]

/-- What a timeout of `n` units means for a key that holds `e`: one that is not positive deletes the
key; a positive one is refused, and nothing changes, or sets the deadline and nothing else. -/
def Honours (u : Scale) (now : Time) (key : Bytes) (e : Entry) (n : Int) (ks ks' : Keyspace)
    (reply : Value) : Prop :=
  (n ≤ 0 → reply = integerValue 1 ∧ ks' = Function.update ks key none) ∧
    (0 < n → reply.isError = true ∧ ks' = ks ∨
      reply = integerValue 1 ∧
        ks' = Function.update ks key (some { e with expireAt := some (now + n * u.nanos) }))

/-- The product with the unit, in 64 bits, still says what the timeout says: a deletion, or the same
deadline. -/
def Scale.Holds (u : Scale) (n : Int) : Prop :=
  (n ≤ 0 → (n * u.nanos).bmod (2 ^ 64) ≤ 0) ∧ (0 < n → n * u.nanos < 2 ^ 63)

instance (u : Scale) (n : Int) : Decidable (u.Holds n) := inferInstanceAs (Decidable (_ ∧ _))

/-- The deadline under a key. -/
def deadline (ks : Keyspace) (key : Bytes) : Option Time := (ks key).bind Entry.expireAt

section Expire

variable {u : Scale} {now : Time} {key : Bytes} {n : Int64} {request : Value} {db : DB} {e : Entry}
  (order : RangeOrder)

/-- What `EXPIRE` makes of a live key. -/
theorem dispatch_expire (h : AsksExpire u key n request) (he : db.keyspace now key = some e) :
    (db.dispatch now order request).2 = integerValue 1 ∧
      (db.dispatch now order request).1.keyspace now =
        Function.update (db.keyspace now) key
          (if (n.toInt * u.nanos).bmod (2 ^ 64) ≤ 0 then none
            else some { e with expireAt := some (now + (n.toInt * u.nanos).bmod (2 ^ 64)) }) := by
  have hmul : (n * u.unit).toInt = (n.toInt * u.nanos).bmod (2 ^ 64) := by
    rw [Int64.toInt_mul, u.toInt_unit]
  have hd : (n * u.unit ≤ 0) ↔ (n.toInt * u.nanos).bmod (2 ^ 64) ≤ 0 := by
    rw [Int64.le_iff_toInt_le, hmul]
    rfl
  obtain ⟨hks, hreply⟩ := db.dispatch_onKey now order h.plan_eq fun _ => rfl
  rw [hks, hreply, he]
  refine ⟨rfl, ?_⟩
  simp only [Cell.expire, hd, hmul]

/-- A positive timeout whose product does not overflow sets its deadline. -/
theorem keyspace_of_holds (h : AsksExpire u key n request) (he : db.keyspace now key = some e)
    (hpos : 0 < n.toInt) (hfits : n.toInt * u.nanos < 2 ^ 63) :
    (db.dispatch now order request).1.keyspace now =
      Function.update (db.keyspace now) key
        (some { e with expireAt := some (now + n.toInt * u.nanos) }) := by
  have hmul : 0 < n.toInt * u.nanos := Int.mul_pos hpos u.nanos_pos
  have hexact : (n.toInt * u.nanos).bmod (2 ^ 64) = n.toInt * u.nanos :=
    Int.bmod_eq_of_le (by omega) (by omega)
  rw [(dispatch_expire order h he).2, hexact, if_neg (Int.not_le.2 hmul)]

/-- A timeout is honoured just when its product with the unit still says what it says. -/
theorem honours_iff (h : AsksExpire u key n request) (he : db.keyspace now key = some e) :
    Honours u now key e n.toInt (db.keyspace now) ((db.dispatch now order request).1.keyspace now)
      (db.dispatch now order request).2 ↔ u.Holds n.toInt := by
  obtain ⟨hreply, hks⟩ := dispatch_expire order h he
  have hinj : ∀ c c' : Cell, Function.update (db.keyspace now) key c =
      Function.update (db.keyspace now) key c' ↔ c = c' :=
    fun _ _ => (Function.update_injective _ key).eq_iff
  rw [Honours, hreply, Scale.Holds]
  refine and_congr (imp_congr_right fun hle => ?_) (imp_congr_right fun hpos => ?_)
  · rw [hks, hinj]
    split <;> simp_all
  · constructor
    · rintro (⟨herr, -⟩ | ⟨-, hset⟩)
      · cases herr
      · rw [hks, hinj] at hset
        split at hset
        · cases hset
        · simp only [Option.some.injEq, Entry.mk.injEq, true_and] at hset
          rw [← Int.add_left_cancel hset]
          exact Int.bmod_lt (by decide)
    · exact fun hfits => .inr ⟨rfl, keyspace_of_holds order h he hpos hfits⟩

/-- The deadline an honoured timeout leaves. -/
theorem deadline_of_holds (h : AsksExpire u key n request) (he : db.keyspace now key = some e)
    (hn : u.Holds n.toInt) {d : Time}
    (hd : deadline ((db.dispatch now order request).1.keyspace now) key = some d) :
    d = now + n.toInt * u.nanos := by
  rcases Int.lt_or_le 0 n.toInt with hpos | hle
  · rw [deadline, keyspace_of_holds order h he hpos (hn.2 hpos), Function.update_self] at hd
    exact (Option.some.inj hd).symm
  · have hdel := ((honours_iff order h he).2 hn).1 hle
    rw [deadline, hdel.2, Function.update_self] at hd
    cases hd

end Expire

/-- **When `EXPIRE` and `PEXPIRE` honour a timeout.**  On a live key, just when the product with the
unit does not overflow (a positive timeout) or overflow past zero (the others); and of two such
timeouts the larger never gives the earlier deadline. -/
theorem expire_honoured_iff (u : Scale) {now : Time} {key : Bytes} {n : Int64} {request : Value}
    {db : DB} {e : Entry} (order : RangeOrder) (h : AsksExpire u key n request)
    (he : db.keyspace now key = some e) :
    (Honours u now key e n.toInt (db.keyspace now)
        ((db.dispatch now order request).1.keyspace now) (db.dispatch now order request).2 ↔
      u.Holds n.toInt) ∧
    ∀ (m : Int64) (request' : Value) (d d' : Time), AsksExpire u key m request' →
      u.Holds n.toInt → u.Holds m.toInt → n ≤ m →
        deadline ((db.dispatch now order request).1.keyspace now) key = some d →
          deadline ((db.dispatch now order request').1.keyspace now) key = some d' → d ≤ d' := by
  refine ⟨honours_iff order h he, fun m request' d d' h' hn hm hnm hd hd' => ?_⟩
  rw [deadline_of_holds order h he hn hd, deadline_of_holds order h' he hm hd']
  have hmul := Int.mul_le_mul_of_nonneg_right (Int64.le_iff_toInt_le.1 hnm) u.nanos_pos.le
  exact Int.add_le_add_left hmul now

/-- A store with one string that has no deadline. -/
def oneString : DB := (DB.new.set (txt "k") (txt "v")).1

theorem oneString_keyspace (now : Time) :
    oneString.keyspace now (txt "k") = some ⟨.str (txt "v"), none⟩ := by
  rw [oneString, DB.set, DB.keyspace_locked (set_acts _), Function.update_self]
  rfl

/-- `EXPIRE k n` or `PEXPIRE k n`, for a number as it is written. -/
def expireK (u : Scale) (n : String) : Value := bulkCmd [u.expire.name, txt "k", txt n]

theorem asks_expireK {u : Scale} {s : String} {n : Int64} (h : parseInt (txt s) = some n) :
    AsksExpire u (txt "k") n (expireK u s) :=
  ⟨_, _, ⟨_, rfl, by cases u <;> decide⟩, rfl, h⟩

/-- A string with ten seconds to live. -/
theorem expire_honoured_iff_tenSeconds :
    Honours .seconds 0 (txt "k") ⟨.str (txt "v"), none⟩ 10 (oneString.keyspace 0)
      ((oneString.dispatch 0 .sorted (expireK .seconds "10")).1.keyspace 0)
      (oneString.dispatch 0 .sorted (expireK .seconds "10")).2 := by
  have h : AsksExpire .seconds (txt "k") 10 (expireK .seconds "10") := asks_expireK (by decide)
  exact (expire_honoured_iff .seconds .sorted h (oneString_keyspace 0)).1.2 (by decide)

/-- What a timeout makes of the one string: the reply, and the key afterwards. -/
theorem dispatch_expireK {u : Scale} {s : String} {n : Int64} (hn : parseInt (txt s) = some n) :
    (oneString.dispatch 0 .sorted (expireK u s)).2 = integerValue 1 ∧
      (oneString.dispatch 0 .sorted (expireK u s)).1.keyspace 0 (txt "k") =
        if (n.toInt * u.nanos).bmod (2 ^ 64) ≤ 0 then none
        else some ⟨.str (txt "v"), some (0 + (n.toInt * u.nanos).bmod (2 ^ 64))⟩ := by
  obtain ⟨hreply, hks⟩ := dispatch_expire .sorted (asks_expireK hn) (oneString_keyspace 0)
  exact ⟨hreply, by rw [hks, Function.update_self]⟩

/-- In seconds, 9223372037 deletes the key, 18446744074 leaves it under a third of a second, and
-18446744073 keeps it for more than half a second. -/
theorem timeouts_misread :
    ((oneString.dispatch 0 .sorted (expireK .seconds "9223372037")).2 = integerValue 1 ∧
      (oneString.dispatch 0 .sorted (expireK .seconds "9223372037")).1.keyspace 0 (txt "k") =
        none) ∧
    ((oneString.dispatch 0 .sorted (expireK .seconds "18446744074")).2 = integerValue 1 ∧
      deadline ((oneString.dispatch 0 .sorted (expireK .seconds "18446744074")).1.keyspace 0)
        (txt "k") = some 290448384) ∧
    ((oneString.dispatch 0 .sorted (expireK .seconds "-18446744073")).2 = integerValue 1 ∧
      deadline ((oneString.dispatch 0 .sorted (expireK .seconds "-18446744073")).1.keyspace 0)
        (txt "k") = some 709551616) := by
  obtain ⟨hr₁, hk₁⟩ := dispatch_expireK (u := .seconds) (s := "9223372037") (n := 9223372037)
    (by decide)
  obtain ⟨hr₂, hk₂⟩ := dispatch_expireK (u := .seconds) (s := "18446744074") (n := 18446744074)
    (by decide)
  obtain ⟨hr₃, hk₃⟩ := dispatch_expireK (u := .seconds) (s := "-18446744073") (n := -18446744073)
    (by decide)
  refine ⟨⟨hr₁, ?_⟩, ⟨hr₂, ?_⟩, hr₃, ?_⟩
  · rw [hk₁]
    rfl
  · rw [deadline, hk₂]
    rfl
  · rw [deadline, hk₃]
    rfl

/-! ### Reporting a deadline -/

/-- The request asks for the time the key has left. -/
def AsksTTL (u : Scale) (key : Bytes) (request : Value) : Prop :=
  ∃ k, Names u.ttl [k] request ∧ k.str = key

/-- The request is one call of `TTL`. -/
theorem AsksTTL.plan_eq {u : Scale} {key : Bytes} {request : Value} (h : AsksTTL u key request) :
    plan request =
      .call (.ttl key) fun r => integerValue (ttlReply r.1 r.2.1 r.2.2 u.unit) := by
  obtain ⟨k, hnames, rfl⟩ := h
  rw [hnames.plan_eq]
  cases u <;> rfl

/-- What a reply says of a key that held `c` at the first reading: -2 that there is no such key, -1
that it has no deadline, and otherwise the time left at the second reading, in the nearest unit. -/
def Unambiguous (u : Scale) (c : Cell) (t₂ : Time) (reply : Int) : Prop :=
  (reply = -2 ↔ c = none) ∧ (reply = -1 ↔ ∃ e, c = some e ∧ e.expireAt = none) ∧
    ∀ d, c.bind Entry.expireAt = some d →
      0 ≤ reply ∧ |2 * (reply * u.nanos - max 0 (d - t₂))| ≤ u.nanos

/-- Half a unit can be added to the time left, and at the second reading the deadline is less than a
unit and a half past. -/
def Scale.Reportable (u : Scale) (left : Int) : Prop :=
  left + u.nanos / 2 < 2 ^ 63 ∧ -u.nanos < left + u.nanos / 2

instance (u : Scale) (left : Int) : Decidable (u.Reportable left) :=
  inferInstanceAs (Decidable (_ ∧ _))

/-- The time left in units, as `ttlReply` rounds it: a saturated difference, to which half a unit is
added in 64 bits, divided towards zero. -/
def Scale.rounded (u : Scale) (left : Int) : Int :=
  ((max (-2 ^ 63) (min left (2 ^ 63 - 1)) + u.nanos / 2).bmod (2 ^ 64)).tdiv u.nanos

/-- The machine arithmetic of the reply is that of `rounded`. -/
theorem Scale.toInt_rounded (u : Scale) (d t₂ : Time) :
    ((untilAt d t₂ + u.unit / 2) / u.unit).toInt = u.rounded (d - t₂) := by
  have hhalf : (u.unit / 2).toInt = u.nanos / 2 := by cases u <;> decide
  have hne : u.unit ≠ -1 := by cases u <;> decide
  rw [Int64.toInt_div_of_ne_right _ _ hne, Int64.toInt_add, toInt_untilAt, hhalf, u.toInt_unit]
  rfl

theorem Scale.rounded_of_reportable {u : Scale} {left : Int} (h : u.Reportable left) :
    u.rounded left = max 0 ((left + u.nanos / 2) / u.nanos) := by
  obtain ⟨hmax, hmin⟩ := h
  have hsat : max (-2 ^ 63) (min left (2 ^ 63 - 1)) = left := by
    cases u <;> simp only [nanos] at hmax hmin <;> omega
  have hsum : (left + u.nanos / 2).bmod (2 ^ 64) = left + u.nanos / 2 := by
    cases u <;> simp only [nanos] at hmax hmin ⊢ <;> exact Int.bmod_eq_of_le (by omega) (by omega)
  rw [rounded, hsat, hsum]
  rcases le_or_gt 0 (left + u.nanos / 2) with hpos | hneg
  · have hdiv : 0 ≤ (left + u.nanos / 2) / u.nanos := Int.ediv_nonneg hpos u.nanos_pos.le
    rw [Int.tdiv_eq_ediv_of_nonneg hpos, max_eq_right hdiv]
  · have hdiv : (left + u.nanos / 2) / u.nanos < 0 := Int.ediv_neg_of_neg_of_pos hneg u.nanos_pos
    rw [max_eq_left hdiv.le, ← Int.neg_neg (left + u.nanos / 2), Int.neg_tdiv,
      Int.tdiv_eq_zero_of_lt (by omega) (by omega), Int.neg_zero]

/-- Otherwise the reply is negative: half a unit too many has wrapped, or the deadline is long
past. -/
theorem Scale.rounded_neg {u : Scale} {left : Int} (h : ¬ u.Reportable left) :
    u.rounded left < 0 := by
  have hsum : (max (-2 ^ 63) (min left (2 ^ 63 - 1)) + u.nanos / 2).bmod (2 ^ 64) ≤ -u.nanos := by
    generalize hsat : max (-2 ^ 63) (min left (2 ^ 63 - 1)) = sat
    rw [Reportable] at h
    rw [Int.bmod]
    cases u <;> simp only [nanos] at h ⊢ <;> split_ifs <;> omega
  have hunit : 1 ≤ (-(max (-2 ^ 63) (min left (2 ^ 63 - 1)) + u.nanos / 2).bmod (2 ^ 64)) /
      u.nanos := Int.le_ediv_of_mul_le u.nanos_pos (by omega)
  have hpos := u.nanos_pos
  rw [rounded, ← Int.neg_neg (Int.bmod _ _), Int.neg_tdiv,
    Int.tdiv_eq_ediv_of_nonneg (by omega)]
  omega

/-- The reply is the nearest unit, and not negative, exactly when the time left is reportable. -/
theorem Scale.rounded_iff (u : Scale) (left : Int) :
    0 ≤ u.rounded left ∧ |2 * (u.rounded left * u.nanos - max 0 left)| ≤ u.nanos ↔
      u.Reportable left := by
  constructor
  · rintro ⟨hpos, -⟩
    by_contra h
    exact absurd hpos (Int.not_le.2 (rounded_neg h))
  · intro h
    rw [rounded_of_reportable h, abs_le]
    obtain ⟨hmax, hmin⟩ := h
    cases u <;> simp only [nanos] at hmax hmin ⊢ <;> omega

/-- The integer `TTL` and `PTTL` answer with, from the two readings of the clock. -/
def ttlAt (u : Scale) (t₁ t₂ : Time) (key : Bytes) (db : DB) : Int64 :=
  let (remaining, exist, hasTTL) := db.ttl t₁ t₂ key
  ttlReply remaining exist hasTTL u.unit

/-- The reply by what the key holds at the first reading. -/
theorem toInt_ttlAt (u : Scale) (t₁ t₂ : Time) (key : Bytes) (db : DB) :
    (ttlAt u t₁ t₂ key db).toInt =
      match db.keyspace t₁ key with
      | none => -2
      | some ⟨_, none⟩ => -1
      | some ⟨_, some d⟩ => u.rounded (d - t₂) := by
  simp only [ttlAt, DB.ttl, DB.keyspace]
  rcases Shard.peek t₁ key (db.shardFor key) with _ | ⟨payload, _ | d⟩
  · rfl
  · rfl
  · exact u.toInt_rounded d t₂

theorem toInt_ttlAt_of_deadline {u : Scale} {t₁ t₂ d : Time} {key : Bytes} {db : DB}
    (h : deadline (db.keyspace t₁) key = some d) :
    (ttlAt u t₁ t₂ key db).toInt = u.rounded (d - t₂) := by
  obtain ⟨⟨payload, expireAt⟩, he, rfl⟩ := Option.bind_eq_some_iff.1 h
  rw [toInt_ttlAt, he]

/-- **When the replies of `TTL` and `PTTL` are unambiguous.**  The reply to a request is the integer
`ttlAt`, and it tells an absent key, a key without a deadline and the time left apart, just when
the deadline, if there is one, is less than a unit and a half before the second reading, and the
time left can be rounded without overflow. -/
theorem ttl_unambiguous_iff (u : Scale) {key : Bytes} {request : Value}
    (h : AsksTTL u key request) (t₁ t₂ : Time) (db : DB) :
    (∃ render, plan request = .call (.ttl key) render ∧
      render (db.ttl t₁ t₂ key) = integerValue (ttlAt u t₁ t₂ key db)) ∧
    (Unambiguous u (db.keyspace t₁ key) t₂ (ttlAt u t₁ t₂ key db).toInt ↔
      ∀ d, deadline (db.keyspace t₁) key = some d → u.Reportable (d - t₂)) := by
  refine ⟨⟨_, h.plan_eq, rfl⟩, ?_⟩
  rw [toInt_ttlAt, Unambiguous, deadline]
  rcases db.keyspace t₁ key with _ | ⟨payload, _ | d⟩
  · simp
  · simp
  · simp only [Option.bind_some, Option.some.injEq, forall_eq', u.rounded_iff]
    refine ⟨fun h => h.2.2, fun h => ⟨?_, ?_, h⟩⟩
    all_goals
      have hpos := ((u.rounded_iff _).2 h).1
      refine iff_of_false (by omega) ?_
      simp

/-- The store with the string, once it is given a timeout at the epoch. -/
def expiring (u : Scale) (n : String) : DB := (oneString.dispatch 0 .sorted (expireK u n)).1

/-- The deadline of the key after the `EXPIRE`. -/
theorem deadline_expiring {u : Scale} {s : String} {n : Int64} (h : parseInt (txt s) = some n)
    (hpos : 0 < n.toInt) (hfits : n.toInt * u.nanos < 2 ^ 63) {t : Time} (ht : 0 ≤ t)
    (hlive : t < n.toInt * u.nanos) :
    deadline ((expiring u s).keyspace t) (txt "k") = some (n.toInt * u.nanos) := by
  have hks := keyspace_of_holds .sorted (asks_expireK h) (oneString_keyspace 0) hpos hfits
  rw [deadline, DB.keyspace_later ht, expiring, hks, Function.update_self]
  simp [Entry.expired, Option.filter, hlive]

/-- Ten seconds to live, of which seven and a half are left at the second reading. -/
theorem ttl_unambiguous_iff_tenSeconds :
    Unambiguous .seconds ((expiring .seconds "10").keyspace 2400000000 (txt "k")) 2500000000
      (ttlAt .seconds 2400000000 2500000000 (txt "k") (expiring .seconds "10")).toInt := by
  have hd := deadline_expiring (u := .seconds) (s := "10") (n := 10) (t := 2400000000) (by decide)
    (by decide) (by decide) (by decide) (by decide)
  have h : AsksTTL .seconds (txt "k") (bulkCmd [txt "ttl", txt "k"]) :=
    ⟨_, ⟨_, rfl, by decide⟩, rfl⟩
  refine (ttl_unambiguous_iff .seconds h 2400000000 2500000000 _).2.2 fun d hd' => ?_
  rw [hd] at hd'
  cases hd'
  decide

/-- One millisecond to live: when the second reading comes a millisecond and a half after the
deadline, `PTTL` answers that the key has no deadline; a millisecond later, that there is no such
key.  And `TTL` of a key that has 9223372036854 milliseconds left is negative. -/
theorem ttl_ambiguous :
    (deadline ((expiring .milliseconds "1").keyspace 999999) (txt "k") = some 1000000 ∧
      (ttlAt .milliseconds 999999 2500000 (txt "k") (expiring .milliseconds "1")).toInt = -1 ∧
      (ttlAt .milliseconds 999999 3500000 (txt "k") (expiring .milliseconds "1")).toInt = -2) ∧
    (ttlAt .seconds 0 0 (txt "k") (expiring .milliseconds "9223372036854")).toInt =
      -9223372036 := by
  have hd := deadline_expiring (u := .milliseconds) (s := "1") (n := 1) (t := 999999) (by decide)
    (by decide) (by decide) (by decide) (by decide)
  have hlong := deadline_expiring (u := .milliseconds) (s := "9223372036854") (n := 9223372036854)
    (t := 0) (by decide) (by decide) (by decide) (by decide) (by decide)
  refine ⟨⟨hd, ?_, ?_⟩, ?_⟩
  · rw [toInt_ttlAt_of_deadline hd]
    decide
  · rw [toInt_ttlAt_of_deadline hd]
    decide
  · rw [toInt_ttlAt_of_deadline hlong]
    decide

end MiniRedis.Reference
