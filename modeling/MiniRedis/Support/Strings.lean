import MiniRedis.Support.Decimal

/-!
# Support — Strings

The Unicode side of Go's `strings` that command names meet.  A string is read as UTF-8 one rune at a
time; a byte that starts no valid encoding is the rune `U+FFFD` of width one.  `toUpper` is
`strings.ToUpper`: ASCII strings byte by byte, any other rune by rune through `unicode.ToUpper`, so
that an invalid byte comes out as the three bytes of `U+FFFD`, and the dotless `ı` and the long `ſ`
come out as the ASCII letters `I` and `S`.

The simple upper-case mapping of Unicode 15 is given as `unicode.CaseRanges` gives it: ranges with
one offset (`upperDeltas`), and ranges in which upper- and lower-case letters alternate
(`upperLowers`).

* `mem_toUpper_lf`: upper-casing neither makes nor drops a line feed.
-/

namespace MiniRedis.Strings

/-- `utf8.RuneError`. -/
def runeError : Nat := 0xfffd

/-! ### Reading runes -/

/-- A continuation byte. -/
def isCont (b : UInt8) : Prop := 0x80 ≤ b.toNat ∧ b.toNat ≤ 0xbf

instance (b : UInt8) : Decidable (isCont b) := inferInstanceAs (Decidable (_ ∧ _))

/-- The second bytes that may follow the lead byte `n`: no overlong form, no surrogate, nothing past
`U+10FFFF`. -/
def isSecond (n : Nat) (b : UInt8) : Prop :=
  (if n = 0xe0 then 0xa0 else if n = 0xf0 then 0x90 else 0x80) ≤ b.toNat ∧
    b.toNat ≤ (if n = 0xed then 0x9f else if n = 0xf4 then 0x8f else 0xbf)

instance (n : Nat) (b : UInt8) : Decidable (isSecond n b) := inferInstanceAs (Decidable (_ ∧ _))

/-- The six low bits of a continuation byte. -/
def low6 (b : UInt8) : Nat := b.toNat - 0x80

/-- `utf8.DecodeRuneInString` on a lead byte `n` and what follows it: the rune, and how many of the
following bytes belong to it. -/
def decodeRune (n : Nat) (s : Bytes) : Nat × Nat :=
  if n < 0x80 then (n, 0)
  else if 0xc2 ≤ n ∧ n ≤ 0xdf then match s with
    | b₁ :: _ => if isCont b₁ then ((n - 0xc0) * 0x40 + low6 b₁, 1) else (runeError, 0)
    | _ => (runeError, 0)
  else if 0xe0 ≤ n ∧ n ≤ 0xef then match s with
    | b₁ :: b₂ :: _ =>
        if isSecond n b₁ ∧ isCont b₂ then
          ((n - 0xe0) * 0x1000 + low6 b₁ * 0x40 + low6 b₂, 2)
        else (runeError, 0)
    | _ => (runeError, 0)
  else if 0xf0 ≤ n ∧ n ≤ 0xf4 then match s with
    | b₁ :: b₂ :: b₃ :: _ =>
        if isSecond n b₁ ∧ isCont b₂ ∧ isCont b₃ then
          ((n - 0xf0) * 0x40000 + low6 b₁ * 0x1000 + low6 b₂ * 0x40 + low6 b₃, 3)
        else (runeError, 0)
    | _ => (runeError, 0)
  else (runeError, 0)

/-- The runes of a string, as `for _, c := range s` gives them; each takes at least one byte, so a
bound of the length is enough. -/
def runes : Nat → Bytes → List Nat
  | 0, _ => []
  | _ + 1, [] => []
  | f + 1, b :: s =>
      (decodeRune b.toNat s).1 :: runes f (s.drop (decodeRune b.toNat s).2)

/-- `utf8.AppendRune`. -/
def encodeRune (r : Nat) : Bytes :=
  if r < 0x80 then [UInt8.ofNat r]
  else if r < 0x800 then [UInt8.ofNat (0xc0 + r / 0x40), UInt8.ofNat (0x80 + r % 0x40)]
  else if (0xd800 ≤ r ∧ r ≤ 0xdfff) ∨ 0x10ffff < r then [0xef, 0xbf, 0xbd]
  else if r < 0x10000 then
    [UInt8.ofNat (0xe0 + r / 0x1000), UInt8.ofNat (0x80 + r / 0x40 % 0x40),
      UInt8.ofNat (0x80 + r % 0x40)]
  else
    [UInt8.ofNat (0xf0 + r / 0x40000), UInt8.ofNat (0x80 + r / 0x1000 % 0x40),
      UInt8.ofNat (0x80 + r / 0x40 % 0x40), UInt8.ofNat (0x80 + r % 0x40)]

/-! ### Upper and lower case -/

/-- The ranges outside ASCII whose letters have their upper case at one offset. -/
def upperDeltas : List (Nat × Nat × Int) :=
  [(0xb5, 0xb5, 743), (0xe0, 0xf6, -32), (0xf8, 0xfe, -32), (0xff, 0xff, 121),
   (0x131, 0x131, -232), (0x17f, 0x17f, -300), (0x180, 0x180, 195), (0x195, 0x195, 97),
   (0x19a, 0x19a, 163), (0x19e, 0x19e, 130), (0x1bf, 0x1bf, 56), (0x1c6, 0x1c6, -2),
   (0x1c9, 0x1c9, -2), (0x1cc, 0x1cc, -2), (0x1dd, 0x1dd, -79), (0x1f3, 0x1f3, -2),
   (0x23f, 0x240, 10815), (0x250, 0x250, 10783), (0x251, 0x251, 10780), (0x252, 0x252, 10782),
   (0x253, 0x253, -210), (0x254, 0x254, -206), (0x256, 0x257, -205), (0x259, 0x259, -202),
   (0x25b, 0x25b, -203), (0x25c, 0x25c, 42319), (0x260, 0x260, -205), (0x261, 0x261, 42315),
   (0x263, 0x263, -207), (0x265, 0x265, 42280), (0x266, 0x266, 42308), (0x268, 0x268, -209),
   (0x269, 0x269, -211), (0x26a, 0x26a, 42308), (0x26b, 0x26b, 10743), (0x26c, 0x26c, 42305),
   (0x26f, 0x26f, -211), (0x271, 0x271, 10749), (0x272, 0x272, -213), (0x275, 0x275, -214),
   (0x27d, 0x27d, 10727), (0x280, 0x280, -218), (0x282, 0x282, 42307), (0x283, 0x283, -218),
   (0x287, 0x287, 42282), (0x288, 0x288, -218), (0x289, 0x289, -69), (0x28a, 0x28b, -217),
   (0x28c, 0x28c, -71), (0x292, 0x292, -219), (0x29d, 0x29d, 42261), (0x29e, 0x29e, 42258),
   (0x345, 0x345, 84), (0x37b, 0x37d, 130), (0x3ac, 0x3ac, -38), (0x3ad, 0x3af, -37),
   (0x3b1, 0x3c1, -32), (0x3c2, 0x3c2, -31), (0x3c3, 0x3cb, -32), (0x3cc, 0x3cc, -64),
   (0x3cd, 0x3ce, -63), (0x3d0, 0x3d0, -62), (0x3d1, 0x3d1, -57), (0x3d5, 0x3d5, -47),
   (0x3d6, 0x3d6, -54), (0x3d7, 0x3d7, -8), (0x3f0, 0x3f0, -86), (0x3f1, 0x3f1, -80),
   (0x3f2, 0x3f2, 7), (0x3f3, 0x3f3, -116), (0x3f5, 0x3f5, -96), (0x430, 0x44f, -32),
   (0x450, 0x45f, -80), (0x4cf, 0x4cf, -15), (0x561, 0x586, -48), (0x10d0, 0x10fa, 3008),
   (0x10fd, 0x10ff, 3008), (0x13f8, 0x13fd, -8), (0x1c80, 0x1c80, -6254), (0x1c81, 0x1c81, -6253),
   (0x1c82, 0x1c82, -6244), (0x1c83, 0x1c84, -6242), (0x1c85, 0x1c85, -6243),
   (0x1c86, 0x1c86, -6236), (0x1c87, 0x1c87, -6181), (0x1c88, 0x1c88, 35266),
   (0x1d79, 0x1d79, 35332), (0x1d7d, 0x1d7d, 3814), (0x1d8e, 0x1d8e, 35384),
   (0x1e9b, 0x1e9b, -59), (0x1f00, 0x1f07, 8), (0x1f10, 0x1f15, 8), (0x1f20, 0x1f27, 8),
   (0x1f30, 0x1f37, 8), (0x1f40, 0x1f45, 8), (0x1f51, 0x1f51, 8), (0x1f53, 0x1f53, 8),
   (0x1f55, 0x1f55, 8), (0x1f57, 0x1f57, 8), (0x1f60, 0x1f67, 8), (0x1f70, 0x1f71, 74),
   (0x1f72, 0x1f75, 86), (0x1f76, 0x1f77, 100), (0x1f78, 0x1f79, 128), (0x1f7a, 0x1f7b, 112),
   (0x1f7c, 0x1f7d, 126), (0x1f80, 0x1f87, 8), (0x1f90, 0x1f97, 8), (0x1fa0, 0x1fa7, 8),
   (0x1fb0, 0x1fb1, 8), (0x1fb3, 0x1fb3, 9), (0x1fbe, 0x1fbe, -7205), (0x1fc3, 0x1fc3, 9),
   (0x1fd0, 0x1fd1, 8), (0x1fe0, 0x1fe1, 8), (0x1fe5, 0x1fe5, 7), (0x1ff3, 0x1ff3, 9),
   (0x214e, 0x214e, -28), (0x2170, 0x217f, -16), (0x24d0, 0x24e9, -26), (0x2c30, 0x2c5f, -48),
   (0x2c65, 0x2c65, -10795), (0x2c66, 0x2c66, -10792), (0x2d00, 0x2d25, -7264),
   (0x2d27, 0x2d27, -7264), (0x2d2d, 0x2d2d, -7264), (0xa794, 0xa794, 48), (0xab53, 0xab53, -928),
   (0xab70, 0xabbf, -38864), (0xff41, 0xff5a, -32), (0x10428, 0x1044f, -40),
   (0x104d8, 0x104fb, -40), (0x10597, 0x105a1, -39), (0x105a3, 0x105b1, -39),
   (0x105b3, 0x105b9, -39), (0x105bb, 0x105bc, -39), (0x10cc0, 0x10cf2, -64),
   (0x118c0, 0x118df, -32), (0x16e60, 0x16e7f, -32), (0x1e922, 0x1e943, -34)]

/-- The ranges in which an upper-case letter and its lower case alternate, from an upper-case
one. -/
def upperLowers : List (Nat × Nat) :=
  [(0x100, 0x12f), (0x132, 0x137), (0x139, 0x148), (0x14a, 0x177), (0x179, 0x17e), (0x182, 0x185),
   (0x187, 0x188), (0x18b, 0x18c), (0x191, 0x192), (0x198, 0x199), (0x1a0, 0x1a5), (0x1a7, 0x1a8),
   (0x1ac, 0x1ad), (0x1af, 0x1b0), (0x1b3, 0x1b6), (0x1b8, 0x1b9), (0x1bc, 0x1bd), (0x1c4, 0x1c5),
   (0x1c7, 0x1c8), (0x1ca, 0x1cb), (0x1cd, 0x1dc), (0x1de, 0x1ef), (0x1f1, 0x1f2), (0x1f4, 0x1f5),
   (0x1f8, 0x21f), (0x222, 0x233), (0x23b, 0x23c), (0x241, 0x242), (0x246, 0x24f), (0x370, 0x373),
   (0x376, 0x377), (0x3d8, 0x3ef), (0x3f7, 0x3f8), (0x3fa, 0x3fb), (0x460, 0x481), (0x48a, 0x4bf),
   (0x4c1, 0x4ce), (0x4d0, 0x52f), (0x1e00, 0x1e95), (0x1ea0, 0x1eff), (0x2183, 0x2184),
   (0x2c60, 0x2c61), (0x2c67, 0x2c6c), (0x2c72, 0x2c73), (0x2c75, 0x2c76), (0x2c80, 0x2ce3),
   (0x2ceb, 0x2cee), (0x2cf2, 0x2cf3), (0xa640, 0xa66d), (0xa680, 0xa69b), (0xa722, 0xa72f),
   (0xa732, 0xa76f), (0xa779, 0xa77c), (0xa77e, 0xa787), (0xa78b, 0xa78c), (0xa790, 0xa793),
   (0xa796, 0xa7a9), (0xa7b4, 0xa7c3), (0xa7c7, 0xa7ca), (0xa7d0, 0xa7d1), (0xa7d6, 0xa7d9),
   (0xa7f5, 0xa7f6)]

/-- `'a' <= c && c <= 'z'`, upper-cased. -/
def upperByte (b : UInt8) : UInt8 :=
  if 97 ≤ b.toNat ∧ b.toNat ≤ 122 then UInt8.ofNat (b.toNat - 32) else b

/-- `unicode.ToUpper`. -/
def upperRune (r : Nat) : Nat :=
  if r < 0x80 then (upperByte (UInt8.ofNat r)).toNat
  else match upperDeltas.find? fun e => e.1 ≤ r ∧ r ≤ e.2.1 with
    | some (_, _, d) => ((r : Int) + d).toNat
    | none => match upperLowers.find? fun e => e.1 ≤ r ∧ r ≤ e.2 with
        | some (lo, _) => lo + (r - lo) / 2 * 2
        | none => r

/-- `strings.ToUpper`. -/
def toUpper (s : Bytes) : Bytes :=
  if s.all (·.toNat < 0x80) then s.map upperByte
  else (runes s.length s).flatMap fun r => encodeRune (upperRune r)

/-- `'A' <= c && c <= 'Z'`, lower-cased. -/
def lowerByte (b : UInt8) : UInt8 :=
  if 65 ≤ b.toNat ∧ b.toNat ≤ 90 then UInt8.ofNat (b.toNat + 32) else b

/-- The letters outside ASCII that have their lower case at an offset and are in no range of
`upperLowers`, or are exceptions there. -/
def lowerDeltas : List (Nat × Nat × Int) :=
  [(0xc0, 0xd6, 32), (0xd8, 0xde, 32), (0x130, 0x130, -199), (0x178, 0x178, -121),
   (0x181, 0x181, 210), (0x186, 0x186, 206), (0x189, 0x18a, 205), (0x18e, 0x18e, 79),
   (0x18f, 0x18f, 202), (0x190, 0x190, 203), (0x193, 0x193, 205), (0x194, 0x194, 207),
   (0x196, 0x196, 211), (0x197, 0x197, 209), (0x19c, 0x19c, 211), (0x19d, 0x19d, 213),
   (0x19f, 0x19f, 214), (0x1a6, 0x1a6, 218), (0x1a9, 0x1a9, 218), (0x1ae, 0x1ae, 218),
   (0x1b1, 0x1b2, 217), (0x1b7, 0x1b7, 219), (0x1c4, 0x1c4, 2), (0x1c5, 0x1c5, 1),
   (0x1c7, 0x1c7, 2), (0x1c8, 0x1c8, 1), (0x1ca, 0x1ca, 2), (0x1cb, 0x1cb, 1), (0x1f1, 0x1f1, 2),
   (0x1f2, 0x1f2, 1), (0x1f6, 0x1f6, -97), (0x1f7, 0x1f7, -56), (0x220, 0x220, -130),
   (0x23a, 0x23a, 10795), (0x23d, 0x23d, -163), (0x23e, 0x23e, 10792), (0x243, 0x243, -195),
   (0x244, 0x244, 69), (0x245, 0x245, 71), (0x37f, 0x37f, 116), (0x386, 0x386, 38),
   (0x388, 0x38a, 37), (0x38c, 0x38c, 64), (0x38e, 0x38f, 63), (0x391, 0x3a1, 32),
   (0x3a3, 0x3ab, 32), (0x3cf, 0x3cf, 8), (0x3f4, 0x3f4, -60), (0x3f9, 0x3f9, -7),
   (0x3fd, 0x3ff, -130), (0x400, 0x40f, 80), (0x410, 0x42f, 32), (0x4c0, 0x4c0, 15),
   (0x531, 0x556, 48), (0x10a0, 0x10c5, 7264), (0x10c7, 0x10c7, 7264), (0x10cd, 0x10cd, 7264),
   (0x13a0, 0x13ef, 38864), (0x13f0, 0x13f5, 8), (0x1c90, 0x1cba, -3008), (0x1cbd, 0x1cbf, -3008),
   (0x1e9e, 0x1e9e, -7615), (0x1f08, 0x1f0f, -8), (0x1f18, 0x1f1d, -8), (0x1f28, 0x1f2f, -8),
   (0x1f38, 0x1f3f, -8), (0x1f48, 0x1f4d, -8), (0x1f59, 0x1f59, -8), (0x1f5b, 0x1f5b, -8),
   (0x1f5d, 0x1f5d, -8), (0x1f5f, 0x1f5f, -8), (0x1f68, 0x1f6f, -8), (0x1f88, 0x1f8f, -8),
   (0x1f98, 0x1f9f, -8), (0x1fa8, 0x1faf, -8), (0x1fb8, 0x1fb9, -8), (0x1fba, 0x1fbb, -74),
   (0x1fbc, 0x1fbc, -9), (0x1fc8, 0x1fcb, -86), (0x1fcc, 0x1fcc, -9), (0x1fd8, 0x1fd9, -8),
   (0x1fda, 0x1fdb, -100), (0x1fe8, 0x1fe9, -8), (0x1fea, 0x1feb, -112), (0x1fec, 0x1fec, -7),
   (0x1ff8, 0x1ff9, -128), (0x1ffa, 0x1ffb, -126), (0x1ffc, 0x1ffc, -9), (0x2126, 0x2126, -7517),
   (0x212a, 0x212a, -8383), (0x212b, 0x212b, -8262), (0x2132, 0x2132, 28), (0x2160, 0x216f, 16),
   (0x24b6, 0x24cf, 26), (0x2c00, 0x2c2f, 48), (0x2c62, 0x2c62, -10743), (0x2c63, 0x2c63, -3814),
   (0x2c64, 0x2c64, -10727), (0x2c6d, 0x2c6d, -10780), (0x2c6e, 0x2c6e, -10749),
   (0x2c6f, 0x2c6f, -10783), (0x2c70, 0x2c70, -10782), (0x2c7e, 0x2c7f, -10815),
   (0xa77d, 0xa77d, -35332), (0xa78d, 0xa78d, -42280), (0xa7aa, 0xa7aa, -42308),
   (0xa7ab, 0xa7ab, -42319), (0xa7ac, 0xa7ac, -42315), (0xa7ad, 0xa7ad, -42305),
   (0xa7ae, 0xa7ae, -42308), (0xa7b0, 0xa7b0, -42258), (0xa7b1, 0xa7b1, -42282),
   (0xa7b2, 0xa7b2, -42261), (0xa7b3, 0xa7b3, 928), (0xa7c4, 0xa7c4, -48),
   (0xa7c5, 0xa7c5, -42307), (0xa7c6, 0xa7c6, -35384), (0xff21, 0xff3a, 32),
   (0x10400, 0x10427, 40), (0x104b0, 0x104d3, 40), (0x10570, 0x1057a, 39), (0x1057c, 0x1058a, 39),
   (0x1058c, 0x10592, 39), (0x10594, 0x10595, 39), (0x10c80, 0x10cb2, 64), (0x118a0, 0x118bf, 32),
   (0x16e40, 0x16e5f, 32), (0x1e900, 0x1e921, 34)]

/-- `unicode.ToLower`. -/
def lowerRune (r : Nat) : Nat :=
  if r < 0x80 then (lowerByte (UInt8.ofNat r)).toNat
  else match lowerDeltas.find? fun e => e.1 ≤ r ∧ r ≤ e.2.1 with
    | some (_, _, d) => ((r : Int) + d).toNat
    | none => match upperLowers.find? fun e => e.1 ≤ r ∧ r ≤ e.2 with
        | some (lo, _) => lo + (r - lo) / 2 * 2 + 1
        | none => r

/-- `strings.ToLower`. -/
def toLower (s : Bytes) : Bytes :=
  if s.all (·.toNat < 0x80) then s.map lowerByte
  else (runes s.length s).flatMap fun r => encodeRune (lowerRune r)

/-- `strings.EqualFold(s, t)` for an ASCII `t` without `k` and `s`: outside ASCII only the Kelvin
sign and the long `ſ` fold to an ASCII letter, so the comparison is byte by byte. -/
def equalFold (s t : Bytes) : Bool := s.map lowerByte = t.map lowerByte

/-! ### Line feeds -/

theorem decodeRune_ascii {n : Nat} (h : n < 0x80) (s : Bytes) : decodeRune n s = (n, 0) := by
  simp [decodeRune, h]

theorem isCont.wide {b : UInt8} (h : isCont b) : 0x80 ≤ b.toNat := h.1

theorem isSecond.wide {n : Nat} {b : UInt8} (h : isSecond n b) : 0x80 ≤ b.toNat := by
  refine le_trans ?_ h.1
  split
  · omega
  · split <;> omega

/-- A rune that starts outside ASCII stays outside, with all of its bytes. -/
theorem decodeRune_wide {n : Nat} (h : 0x80 ≤ n) (s : Bytes) :
    0x80 ≤ (decodeRune n s).1 ∧ ∀ c ∈ s.take (decodeRune n s).2, 0x80 ≤ c.toNat := by
  have hbad : 0x80 ≤ runeError ∧ ∀ c ∈ s.take 0, 0x80 ≤ c.toNat := by simp [runeError]
  unfold decodeRune
  rw [if_neg (by omega)]
  split
  · split
    · split
      · rename_i b₁ t hc
        refine ⟨?_, by simpa using hc.wide⟩
        dsimp only
        omega
      · exact hbad
    · exact hbad
  split
  · split
    · split
      · rename_i b₁ b₂ t hc
        refine ⟨?_, by simpa using ⟨hc.1.wide, hc.2.wide⟩⟩
        -- after the lead byte `0xe0` the second one is at least `0xa0`
        have hs := hc.1.1
        dsimp only [low6]
        split at hs <;> omega
      · exact hbad
    · exact hbad
  split
  · split
    · split
      · rename_i b₁ b₂ b₃ t hc
        refine ⟨?_, by simpa using ⟨hc.1.wide, hc.2.1.wide, hc.2.2.wide⟩⟩
        have hs := hc.1.1
        dsimp only [low6]
        split at hs
        · omega
        · split at hs <;> omega
      · exact hbad
    · exact hbad
  · exact hbad

/-- The ASCII runes of a string are its ASCII bytes. -/
theorem mem_runes_ascii {a : UInt8} (ha : a.toNat < 0x80) :
    ∀ (f : Nat) (s : Bytes), s.length ≤ f → (a.toNat ∈ runes f s ↔ a ∈ s)
  | 0, s, h => by
      rw [List.length_eq_zero_iff.mp (Nat.le_zero.mp h)]
      simp [runes]
  | f + 1, [], _ => by simp [runes]
  | f + 1, b :: s, h => by
      have hs : s.length ≤ f := by simpa using h
      have ih := mem_runes_ascii ha f (s.drop (decodeRune b.toNat s).2)
        (le_trans (by simp) hs)
      rw [runes, List.mem_cons, List.mem_cons, ih]
      by_cases hb : b.toNat < 0x80
      · rw [decodeRune_ascii hb]
        simp [UInt8.toNat_inj]
      · obtain ⟨hr, htake⟩ := decodeRune_wide (not_lt.mp hb) s
        have hab : a ≠ b := fun e => hb (e ▸ ha)
        have hmem : a ∈ s ↔ a ∈ s.drop (decodeRune b.toNat s).2 := by
          conv_lhs => rw [← List.take_append_drop (decodeRune b.toNat s).2 s, List.mem_append]
          exact or_iff_right fun hm => absurd (htake a hm) (by omega)
        rw [hmem]
        exact or_congr_left (iff_of_false (by omega) hab)

theorem ofNat_eq_lf {n : Nat} (h : n < 0x100) : UInt8.ofNat n = 10 ↔ n = 10 := by
  rw [← UInt8.toNat_inj, UInt8.toNat_ofNat', Nat.mod_eq_of_lt h]
  rfl

/-- Only the line feed is encoded with a line feed. -/
theorem mem_encodeRune_lf (r : Nat) : (10 : UInt8) ∈ encodeRune r ↔ r = 10 := by
  have hne : ∀ n : Nat, 0x80 ≤ n → n < 0x100 → (10 : UInt8) ≠ UInt8.ofNat n := fun n h₁ h₂ e =>
    absurd ((ofNat_eq_lf h₂).mp e.symm) (by omega)
  unfold encodeRune
  split
  · rw [List.mem_singleton, eq_comm, ofNat_eq_lf (by omega)]
  refine iff_of_false ?_ (by omega)
  split
  · simp only [List.mem_cons, List.not_mem_nil, or_false, not_or]
    exact ⟨hne _ (by omega) (by omega), hne _ (by omega) (by omega)⟩
  split
  · decide
  split
  · simp only [List.mem_cons, List.not_mem_nil, or_false, not_or]
    exact ⟨hne _ (by omega) (by omega), hne _ (by omega) (by omega), hne _ (by omega) (by omega)⟩
  · simp only [List.mem_cons, List.not_mem_nil, or_false, not_or]
    exact ⟨hne _ (by omega) (by omega), hne _ (by omega) (by omega), hne _ (by omega) (by omega),
      hne _ (by omega) (by omega)⟩

/-- Upper case makes no line feed of another byte, -/
theorem upperByte_lf (b : UInt8) : upperByte b = 10 ↔ b = 10 := by
  unfold upperByte
  split
  · rename_i h
    rw [ofNat_eq_lf (by omega)]
    refine iff_of_false (by omega) fun e => ?_
    rw [e] at h
    exact absurd h.1 (by decide)
  · rfl

theorem upperDeltas_ge : ∀ e ∈ upperDeltas, (64 : Int) ≤ e.1 + e.2.2 := by decide +kernel

theorem upperLowers_ge : ∀ e ∈ upperLowers, 64 ≤ e.1 := by decide +kernel

/-- nor of another rune. -/
theorem upperRune_lf (r : Nat) : upperRune r = 10 ↔ r = 10 := by
  unfold upperRune
  split
  · rename_i h
    have e₁ : (10 : UInt8).toNat = 10 := rfl
    rw [← e₁, UInt8.toNat_inj, upperByte_lf, ofNat_eq_lf (by omega), e₁]
  refine iff_of_false ?_ (by omega)
  split
  · rename_i lo hi d hf
    have hlo := upperDeltas_ge _ (List.mem_of_find?_eq_some hf)
    have hin := List.find?_some hf
    simp only [decide_eq_true_eq] at hin hlo
    omega
  · split
    · rename_i lo hi hf
      have hlo := upperLowers_ge _ (List.mem_of_find?_eq_some hf)
      dsimp only at hlo
      omega
    · omega

/-- **Upper-casing neither makes nor drops a line feed.** -/
theorem mem_toUpper_lf (s : Bytes) : (10 : UInt8) ∈ toUpper s ↔ (10 : UInt8) ∈ s := by
  unfold toUpper
  split
  · simp only [List.mem_map, upperByte_lf, exists_eq_right]
  · simp only [List.mem_flatMap, mem_encodeRune_lf, upperRune_lf, exists_eq_right]
    exact mem_runes_ascii (a := 10) (by decide) _ s le_rfl

example : toUpper (txt "hset") = txt "HSET" := by decide
example : toUpper [0xc5, 0xbf, 101, 116] = txt "SET" := by decide +kernel

end MiniRedis.Strings
