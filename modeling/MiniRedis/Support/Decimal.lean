import Mathlib.Data.Nat.Digits.Lemmas
import Mathlib.Tactic

/-!
# Support — Decimal

Decimal numerals over bytes, as `strconv` prints and reads them.  `formatInt` is `FormatInt(n, 10)`
(and `Itoa`): an optional `-` and the digits, most significant first, no leading zero.  `parseInt`
is `ParseInt(s, 10, 64)` (and `Atoi` where `int` has 64 bits): an optional sign, at least one digit,
nothing else, and a value in the range of `int64`.

* `parseInt_formatInt`: every `int64` is read back from its numeral.
* `parseInt_formatNat`: so is every natural number below `2^63`.

`Numeral` says what a numeral is without reading it: digits with an optional sign, leading zeros
included.

* `parseInt_iff`: `parseInt` reads the numerals of the `int64`s and nothing else.
* `numeral_formatInt`, `numeral_formatNat`: what is printed is a numeral.
* `Numeral.line`: a numeral has no line feed in it.
-/

namespace MiniRedis

/-- A Go `string` or `[]byte`: a sequence of bytes. -/
abbrev Bytes := List UInt8

/-- The bytes of an ASCII text. -/
def txt (s : String) : Bytes := s.toList.map fun c => UInt8.ofNat c.toNat

/-! ### Printing -/

/-- The byte of a decimal digit. -/
def digitByte (d : Nat) : UInt8 := UInt8.ofNat (48 + d)

/-- `strconv.Itoa` on a length. -/
def formatNat (n : Nat) : Bytes :=
  if n = 0 then [48] else (Nat.digits 10 n).reverse.map digitByte

/-- `strconv.FormatInt(n, 10)`. -/
def formatInt (n : Int64) : Bytes :=
  if n.toInt < 0 then 45 :: formatNat n.toInt.natAbs else formatNat n.toInt.natAbs

/-! ### Reading -/

/-- The digits of a numeral, from the left, added to `acc`; `none` at a byte that is no digit. -/
def parseDigits : Nat → Bytes → Option Nat
  | acc, [] => some acc
  | acc, b :: bs =>
      if 48 ≤ b.toNat ∧ b.toNat ≤ 57 then parseDigits (acc * 10 + (b.toNat - 48)) bs else none

/-- `strconv.ParseUint(s, 10, 64)` without its range check: at least one digit, only digits. -/
def parseNat (s : Bytes) : Option Nat := if s = [] then none else parseDigits 0 s

/-- `strconv.ParseInt(s, 10, 64)`; `none` is a syntax or a range error. -/
def parseInt (s : Bytes) : Option Int64 :=
  match s with
  | [] => none
  | b :: ds =>
      if b = 45 then
        (parseNat ds).bind fun n => if n ≤ 2 ^ 63 then some (Int64.ofInt (-n)) else none
      else
        (parseNat (if b = 43 then ds else s)).bind fun n =>
          if n < 2 ^ 63 then some (Int64.ofInt n) else none

/-! ### The digits of a number -/

theorem digitByte_toNat {d : Nat} (h : d < 10) : (digitByte d).toNat = 48 + d := by
  simp only [digitByte, UInt8.toNat_ofNat']
  omega

theorem parseDigits_append (acc : Nat) (s t : Bytes) :
    parseDigits acc (s ++ t) = (parseDigits acc s).bind fun n => parseDigits n t := by
  induction s generalizing acc with
  | nil => rfl
  | cons b s ih =>
      simp only [List.cons_append, parseDigits]
      split
      · exact ih _
      · rfl

/-- The digits of a number, least significant first, read back from the other end. -/
theorem parseDigits_digits :
    ∀ ds : List Nat, (∀ d ∈ ds, d < 10) →
      parseDigits 0 (ds.reverse.map digitByte) = some (Nat.ofDigits 10 ds)
  | [], _ => rfl
  | d :: ds, h => by
      have hd : d < 10 := h d List.mem_cons_self
      have ih := parseDigits_digits ds fun x hx => h x (List.mem_cons_of_mem _ hx)
      rw [List.reverse_cons, List.map_append, parseDigits_append, ih]
      simp only [List.map_cons, List.map_nil, Option.bind_some, parseDigits, digitByte_toNat hd,
        Nat.ofDigits_cons]
      rw [if_pos (by omega)]
      congr 1
      omega

theorem formatNat_ne_nil (n : Nat) : formatNat n ≠ [] := by
  unfold formatNat
  split
  · simp
  · rename_i h
    simpa [Nat.digits_eq_nil_iff_eq_zero] using h

/-- Every byte of a numeral is a digit. -/
theorem formatNat_digit {n : Nat} {b : UInt8} (h : b ∈ formatNat n) :
    48 ≤ b.toNat ∧ b.toNat ≤ 57 := by
  unfold formatNat at h
  split at h
  · simp only [List.mem_singleton] at h
    subst h
    decide
  · simp only [List.map_reverse, List.mem_reverse, List.mem_map] at h
    obtain ⟨d, hd, rfl⟩ := h
    have hlt : d < 10 := Nat.digits_lt_base (by norm_num) hd
    rw [digitByte_toNat hlt]
    omega

/-- What is formatted is read back. -/
theorem parseNat_formatNat (n : Nat) : parseNat (formatNat n) = some n := by
  rw [parseNat, if_neg (formatNat_ne_nil n), formatNat]
  split
  · rename_i h
    subst h
    decide
  · rw [parseDigits_digits _ fun d hd => Nat.digits_lt_base (by norm_num) hd, Nat.ofDigits_digits]

/-! ### Round trips -/

/-- A numeral that starts with a digit is read without a sign. -/
theorem parseInt_unsigned {s : Bytes} {n : Nat} (hs : ∀ b ∈ s, 48 ≤ b.toNat)
    (hp : parseNat s = some n) (hn : n < 2 ^ 63) : parseInt s = some (Int64.ofInt n) := by
  cases s with
  | nil => simp [parseNat] at hp
  | cons b ds =>
      have hb := hs b List.mem_cons_self
      have h45 : b ≠ 45 := fun e => by subst e; revert hb; decide
      have h43 : b ≠ 43 := fun e => by subst e; revert hb; decide
      simp only [parseInt, h45, h43, if_false, hp, Option.bind_some, if_pos hn]

/-- **A length is read back from its numeral.** -/
theorem parseInt_formatNat {n : Nat} (hn : n < 2 ^ 63) :
    parseInt (formatNat n) = some (Int64.ofInt n) :=
  parseInt_unsigned (fun _ hb => (formatNat_digit hb).1) (parseNat_formatNat n) hn

/-- **Every `int64` is read back from its numeral.** -/
theorem parseInt_formatInt (n : Int64) : parseInt (formatInt n) = some n := by
  have hlo := n.le_toInt
  have hhi := n.toInt_lt
  unfold formatInt
  split
  · rename_i h
    simp only [parseInt, if_true, parseNat_formatNat, Option.bind_some]
    rw [if_pos (by omega)]
    have hneg : (-(n.toInt.natAbs : Int)) = n.toInt := by omega
    rw [hneg, Int64.ofInt_toInt]
  · rename_i h
    rw [parseInt_formatNat (by omega)]
    have hpos : (n.toInt.natAbs : Int) = n.toInt := by omega
    rw [hpos, Int64.ofInt_toInt]

example : parseInt (txt "-9223372036854775808") = some Int64.minValue := by decide

/-! ### Numerals -/

/-- At least one digit, and the number they are. -/
inductive Digits : Bytes → Nat → Prop where
  | one {d : Nat} (hd : d < 10) : Digits [digitByte d] d
  | more {s : Bytes} {n d : Nat} (h : Digits s n) (hd : d < 10) :
      Digits (s ++ [digitByte d]) (n * 10 + d)

/-- Digits with an optional sign. -/
inductive Numeral : Bytes → Int → Prop where
  | plain {s : Bytes} {n : Nat} (h : Digits s n) : Numeral s n
  | plus {s : Bytes} {n : Nat} (h : Digits s n) : Numeral (43 :: s) n
  | minus {s : Bytes} {n : Nat} (h : Digits s n) : Numeral (45 :: s) (-n)

theorem Digits.digit {s : Bytes} {n : Nat} (h : Digits s n) :
    ∀ b ∈ s, 48 ≤ b.toNat ∧ b.toNat ≤ 57 := by
  have hdigit : ∀ {d : Nat} {b : UInt8}, d < 10 → b ∈ [digitByte d] →
      48 ≤ b.toNat ∧ b.toNat ≤ 57 := by
    intro d b hd hb
    rw [List.mem_singleton.1 hb, digitByte_toNat hd]
    omega
  induction h with
  | one hd => exact fun b hb => hdigit hd hb
  | more _ hd ih =>
      intro b hb
      rcases List.mem_append.1 hb with hb | hb
      · exact ih b hb
      · exact hdigit hd hb

theorem parseDigits_digitByte (acc : Nat) {d : Nat} (hd : d < 10) :
    parseDigits acc [digitByte d] = some (acc * 10 + d) := by
  simp only [parseDigits, digitByte_toNat hd]
  rw [if_pos (by omega), Nat.add_sub_cancel_left]

/-- A byte that is read as a digit is the byte of one. -/
theorem digitByte_sub {b : UInt8} (h : 48 ≤ b.toNat ∧ b.toNat ≤ 57) :
    b.toNat - 48 < 10 ∧ digitByte (b.toNat - 48) = b := by
  have hlt : b.toNat - 48 < 10 := by omega
  refine ⟨hlt, UInt8.toNat_inj.1 ?_⟩
  rw [digitByte_toNat hlt]
  omega

/-- What is read as a natural number: digits, and at least one. -/
theorem parseNat_iff {s : Bytes} {n : Nat} : parseNat s = some n ↔ Digits s n := by
  constructor
  · intro h
    unfold parseNat at h
    split at h
    case isTrue => cases h
    case isFalse hne =>
      induction s using List.reverseRecOn generalizing n with
      | nil => exact absurd rfl hne
      | append_singleton s b ih =>
          rw [parseDigits_append, Option.bind_eq_some_iff] at h
          obtain ⟨m, hm, h⟩ := h
          unfold parseDigits at h
          split at h
          case isFalse => cases h
          case isTrue hb =>
            cases h
            obtain ⟨hlt, hbyte⟩ := digitByte_sub hb
            rw [← hbyte, digitByte_toNat hlt, Nat.add_sub_cancel_left]
            by_cases hs : s = []
            · subst hs
              cases hm
              rw [Nat.zero_mul, Nat.zero_add]
              exact .one hlt
            · exact .more (ih hs hm) hlt
  · intro h
    induction h with
    | one hd =>
        rw [parseNat, if_neg (List.cons_ne_nil _ _), parseDigits_digitByte 0 hd, Nat.zero_mul,
          Nat.zero_add]
    | @more s n d h hd ih =>
        have hs : s ≠ [] := by
          rintro rfl
          cases ih
        rw [parseNat, if_neg hs] at ih
        rw [parseNat, if_neg (List.append_ne_nil_of_left_ne_nil hs _), parseDigits_append, ih]
        exact parseDigits_digitByte n hd

/-- **`parseInt` reads the numerals in the range of `int64`.** -/
theorem parseInt_iff {s : Bytes} {n : Int64} : parseInt s = some n ↔ Numeral s n.toInt := by
  constructor
  · intro h
    cases s with
    | nil => cases h
    | cons b ds =>
        simp only [parseInt] at h
        split at h
        case isTrue hb =>
          obtain ⟨m, hm, h⟩ := Option.bind_eq_some_iff.1 h
          split at h
          case isTrue hle =>
            cases h
            rw [hb, Int64.toInt_ofInt_of_le (by omega) (by omega)]
            exact .minus (parseNat_iff.1 hm)
          case isFalse => cases h
        case isFalse =>
          obtain ⟨m, hm, h⟩ := Option.bind_eq_some_iff.1 h
          split at h
          case isTrue hlt =>
            cases h
            rw [Int64.toInt_ofInt_of_le (by omega) (by omega)]
            split at hm
            case isTrue hb =>
              rw [hb]
              exact .plus (parseNat_iff.1 hm)
            case isFalse => exact .plain (parseNat_iff.1 hm)
          case isFalse => cases h
  · intro h
    have hlo := n.le_toInt
    have hhi := n.toInt_lt
    generalize hi : n.toInt = i at h
    cases h with
    | @plain _ m h =>
        rw [parseInt_unsigned (fun b hb => (h.digit b hb).1) (parseNat_iff.2 h) (by omega), ← hi,
          Int64.ofInt_toInt]
    | @plus s m h =>
        have h45 : (43 : UInt8) ≠ 45 := by decide
        simp only [parseInt, h45, if_false, if_true, parseNat_iff.2 h, Option.bind_some]
        rw [if_pos (by omega), ← hi, Int64.ofInt_toInt]
    | @minus s m h =>
        simp only [parseInt, if_true, parseNat_iff.2 h, Option.bind_some]
        rw [if_pos (by omega), ← hi, Int64.ofInt_toInt]

theorem numeral_formatNat (n : Nat) : Numeral (formatNat n) n :=
  .plain (parseNat_iff.1 (parseNat_formatNat n))

theorem numeral_formatInt (n : Int64) : Numeral (formatInt n) n.toInt :=
  parseInt_iff.1 (parseInt_formatInt n)

/-- A numeral is one line. -/
theorem Numeral.line {s : Bytes} {n : Int} (h : Numeral s n) : (10 : UInt8) ∉ s := by
  have hdigits : ∀ {s : Bytes} {n : Nat}, Digits s n → (10 : UInt8) ∉ s := fun h hm =>
    absurd (h.digit _ hm).1 (by decide)
  cases h with
  | plain h => exact hdigits h
  | plus h | minus h =>
      rw [List.mem_cons, not_or]
      exact ⟨by decide, hdigits h⟩

end MiniRedis
