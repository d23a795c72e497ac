import Coinkit.Lib.Run

/-!
# Hexadecimal

Go's `encoding/hex` on the bytes of a string. `EncodeToString` writes each byte as two
lower-case digits of `hextable`. `DecodeString` reads pairs of digits through `fromHexChar`,
which takes `0`–`9`, `a`–`f` and `A`–`F`; it fails at the first byte that is no digit
(`InvalidByteError`) and, once the last digit is checked, on an odd length (`ErrLength`).
Decoders of Go before 1.11 test the length first; on an even-length input they agree.

## What is proved

- `decode_encode`: decoding what was encoded gives the bytes back;
- `decode_toLower`: decoding does not see the case of a letter digit;
- `encode_eq_toLower_of_decode`: what decodes is the encoding of its bytes with its letters
  lowered, so the lower-case text is the only one `EncodeToString` writes, and every text that
  decodes to the same bytes differs from it in the case of letters only.
-/

set_option autoImplicit false

namespace Hex

/-- `hextable`: the digits `0123456789abcdef` as bytes. -/
def hextable : List UInt8 := [48, 49, 50, 51, 52, 53, 54, 55, 56, 57, 97, 98, 99, 100, 101, 102]

/-- `EncodeToString`: the high four bits of each byte, then the low four, as digits. -/
def encode : List UInt8 → List UInt8
  | [] => []
  | b :: rest => hextable.getD (b.toNat / 16) 0 :: hextable.getD (b.toNat % 16) 0 :: encode rest

/-- `fromHexChar`: the value of a digit, in either case. -/
def fromHexChar (c : UInt8) : Option Nat :=
  if 48 ≤ c ∧ c ≤ 57 then some (c.toNat - 48)
  else if 97 ≤ c ∧ c ≤ 102 then some (c.toNat - 87)
  else if 65 ≤ c ∧ c ≤ 70 then some (c.toNat - 55)
  else none

/-- The errors of `DecodeString`. -/
inductive Error
  /-- `ErrLength`: an odd number of digits. -/
  | length
  /-- `InvalidByteError`: a byte that is no digit. -/
  | invalidByte (b : UInt8)
  deriving DecidableEq, Repr

/-- `DecodeString`: a pair of digits makes a byte; a lone last digit is checked, then the length
is refused. -/
def decode : List UInt8 → Except Error (List UInt8)
  | p :: q :: rest =>
    match fromHexChar p, fromHexChar q with
    | some a, some b => (fun tail => (a * 16 + b).toUInt8 :: tail) <$> decode rest
    | none, _ => .error (.invalidByte p)
    | some _, none => .error (.invalidByte q)
  | [p] => if (fromHexChar p).isSome then .error .length else .error (.invalidByte p)
  | [] => pure []

/-- An upper-case letter digit `A`–`F` as its lower-case `a`–`f`; every other byte as it is. -/
def toLowerDigit (c : UInt8) : UInt8 := if 65 ≤ c ∧ c ≤ 70 then c + 32 else c

/-- A text with its letter digits lowered. -/
def toLower (s : List UInt8) : List UInt8 := s.map toLowerDigit

example : encode [171, 1] = [97, 98, 48, 49] := by decide
example : decode [65, 98, 48, 49] = .ok [171, 1] := by decide

/-! ## Digits -/

theorem fromHexChar_hextable_of_mem : ∀ n ∈ List.range 16, fromHexChar (hextable.getD n 0) = some n := by
  decide

theorem fromHexChar_hextable {n : Nat} (h : n < 16) : fromHexChar (hextable.getD n 0) = some n :=
  fromHexChar_hextable_of_mem n (List.mem_range.mpr h)

set_option maxRecDepth 2048 in
/-- The facts about one byte that the lemmas below use, decided over all 256 bytes: a digit's
value is below sixteen and `hextable` writes it as the lowered digit, lowering changes only
digits, and it keeps their values. -/
theorem digit_facts_of_lt : ∀ n < 256,
    ((fromHexChar (UInt8.ofNat n)).all fun a =>
      decide (a < 16) && hextable.getD a 0 == toLowerDigit (UInt8.ofNat n)) = true ∧
    ((fromHexChar (UInt8.ofNat n)).isNone = true → toLowerDigit (UInt8.ofNat n) = UInt8.ofNat n) ∧
    fromHexChar (toLowerDigit (UInt8.ofNat n)) = fromHexChar (UInt8.ofNat n) := by
  decide

theorem digit_facts (c : UInt8) :
    ((fromHexChar c).all fun a => decide (a < 16) && hextable.getD a 0 == toLowerDigit c) = true ∧
    ((fromHexChar c).isNone = true → toLowerDigit c = c) ∧
    fromHexChar (toLowerDigit c) = fromHexChar c := by
  have h := digit_facts_of_lt c.toNat c.toNat_lt
  rwa [UInt8.ofNat_toNat] at h

theorem fromHexChar_toLowerDigit (c : UInt8) : fromHexChar (toLowerDigit c) = fromHexChar c :=
  (digit_facts c).2.2

/-- A digit's value is below sixteen, and `hextable` writes it as the lowered digit. -/
theorem digit_of_fromHexChar {c : UInt8} {a : Nat} (h : fromHexChar c = some a) :
    a < 16 ∧ hextable.getD a 0 = toLowerDigit c := by
  have hc := (digit_facts c).1
  rw [h] at hc
  simpa using hc

theorem toLowerDigit_of_fromHexChar {c : UInt8} (h : fromHexChar c = none) : toLowerDigit c = c :=
  (digit_facts c).2.1 (by rw [h]; rfl)

/-! ## Round trips -/

/-- Decoding the encoding of bytes gives them back, two digits a byte. -/
theorem decode_encode (bytes : List UInt8) : decode (encode bytes) = .ok bytes := by
  induction bytes with
  | nil => rfl
  | cons b rest ih =>
    have hb := b.toNat_lt
    have hsplit : (b.toNat / 16 * 16 + b.toNat % 16).toUInt8 = b := by
      rw [show b.toNat / 16 * 16 + b.toNat % 16 = b.toNat by omega]
      exact UInt8.ofNat_toNat
    simp only [encode, decode, fromHexChar_hextable (show b.toNat / 16 < 16 by omega),
      fromHexChar_hextable (show b.toNat % 16 < 16 by omega), ih, hsplit]
    rfl

theorem length_encode (bytes : List UInt8) : (encode bytes).length = 2 * bytes.length := by
  induction bytes with
  | nil => rfl
  | cons b rest ih =>
    simp only [encode, List.length_cons, ih]
    omega

/-- `EncodeToString` writes digits of `hextable` only. -/
theorem mem_encode {bytes : List UInt8} {c : UInt8} (h : c ∈ encode bytes) : c ∈ hextable := by
  induction bytes with
  | nil => cases h
  | cons b rest ih =>
    have hb := b.toNat_lt
    have hdigit : ∀ n < 16, hextable.getD n 0 ∈ hextable := by decide
    rcases List.mem_cons.mp h with rfl | h
    · exact hdigit _ (by omega)
    rcases List.mem_cons.mp h with rfl | h
    · exact hdigit _ (by omega)
    · exact ih h

/-- Decoding does not see the case of a letter digit: lowering changes only digits, and keeps
their values. -/
theorem decode_toLower : ∀ s : List UInt8, decode (toLower s) = decode s
  | p :: q :: rest => by
    have hrest := decode_toLower rest
    simp only [toLower, List.map_cons] at hrest ⊢
    simp only [decode, fromHexChar_toLowerDigit, hrest]
    cases hp : fromHexChar p with
    | none => rw [toLowerDigit_of_fromHexChar hp]
    | some a =>
      cases hq : fromHexChar q with
      | none => rw [toLowerDigit_of_fromHexChar hq]
      | some b => rfl
  | [p] => by
    simp only [toLower, List.map_cons, List.map_nil, decode, fromHexChar_toLowerDigit]
    cases hp : fromHexChar p with
    | none => rw [toLowerDigit_of_fromHexChar hp]
    | some a => rfl
  | [] => rfl

/-- A byte of two digit values reads back as the two digits. -/
theorem encode_byte {a b : Nat} (ha : a < 16) (hb : b < 16) :
    ((a * 16 + b).toUInt8.toNat / 16 = a) ∧ ((a * 16 + b).toUInt8.toNat % 16 = b) := by
  have hval : (a * 16 + b).toUInt8.toNat = a * 16 + b := UInt8.toNat_ofNat_of_lt' (by unfold UInt8.size; omega)
  rw [hval]
  omega

/-- What decodes is the encoding of its bytes with its letters lowered. -/
theorem encode_eq_toLower_of_decode :
    ∀ {s : List UInt8} {bytes : List UInt8}, decode s = .ok bytes → encode bytes = toLower s
  | p :: q :: rest, bytes, h => by
    simp only [decode] at h
    cases hp : fromHexChar p with
    | none => rw [hp] at h; cases h
    | some a =>
      cases hq : fromHexChar q with
      | none => rw [hp, hq] at h; cases h
      | some b =>
        rw [hp, hq] at h
        obtain ⟨tail, htail, rfl⟩ := Except.exists_of_map_eq_ok h
        have hbyte := encode_byte (digit_of_fromHexChar hp).1 (digit_of_fromHexChar hq).1
        simp only [encode, toLower, List.map_cons, hbyte.1, hbyte.2, (digit_of_fromHexChar hp).2,
          (digit_of_fromHexChar hq).2]
        rw [encode_eq_toLower_of_decode htail]
        rfl
  | [p], bytes, h => by
    simp only [decode] at h
    split at h <;> cases h
  | [], bytes, h => by
    cases h
    rfl

/-- A text of bytes decodes to them exactly when it is their encoding up to the case of its
letters. -/
theorem decode_eq_ok_iff (s bytes : List UInt8) : decode s = .ok bytes ↔ toLower s = encode bytes := by
  constructor
  · intro h
    exact (encode_eq_toLower_of_decode h).symm
  · intro h
    rw [← decode_toLower, h, decode_encode]

theorem length_of_decode {s bytes : List UInt8} (h : decode s = .ok bytes) :
    s.length = 2 * bytes.length := by
  have henc := congrArg List.length (encode_eq_toLower_of_decode h)
  rw [length_encode, toLower, List.length_map] at henc
  exact henc.symm

end Hex
