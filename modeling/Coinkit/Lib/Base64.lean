import Mathlib.Data.List.Basic
import Mathlib.Data.List.GetD

/-!
# Base64 without padding

The standard alphabet of RFC 4648 (`A`–`Z`, `a`–`z`, `0`–`9`, `+`, `/`), each
three bytes making four characters and a short final group making two or
three, with no `=` padding: Go's `base64.RawStdEncoding`. The recursion is on
the byte list, three bytes at a time, so it evaluates by `decide`.

`encode` is the same text as the bytes a Go string holds, and `decode` is
`RawStdEncoding.DecodeString` on them: it skips carriage returns and newlines,
reads four digits as three bytes and a final two or three as one or two, and
refuses a final single digit or any byte outside the alphabet; as Go's
non-strict decoder, it does not check the bits below the last byte.

## What is proved

- `decode_encode`: decoding what was encoded gives the bytes back, so
  encoding is injective (`encodeBytes_injective`, `encodeToString_injective`);
- `mem_encode`: the encoded text uses the sixty-four digits only, none of them
  a colon or a line end (`colon_not_mem_encode`, `newline_not_mem_encode`).
-/

set_option autoImplicit false

namespace Base64

/-- The sixty-four characters, in digit order. -/
def alphabet : List Char :=
  "ABCDEFGHIJKLMNOPQRSTUVWXYZabcdefghijklmnopqrstuvwxyz0123456789+/".toList

/-- The character of one six-bit digit (`n < 64`). -/
def digit (n : Nat) : Char := alphabet.getD n 'A'

/-- The characters of a byte list: a full group of three bytes is the 24-bit
number they spell, read as four digits; a final group of two bytes gives
three digits and of one byte two. -/
def encodeBytes : List UInt8 → List Char
  | a :: b :: c :: rest =>
    let n := a.toNat * 65536 + b.toNat * 256 + c.toNat
    [digit (n / 262144), digit (n / 4096 % 64), digit (n / 64 % 64), digit (n % 64)]
      ++ encodeBytes rest
  | [a, b] =>
    let n := a.toNat * 65536 + b.toNat * 256
    [digit (n / 262144), digit (n / 4096 % 64), digit (n / 64 % 64)]
  | [a] =>
    let n := a.toNat * 65536
    [digit (n / 262144), digit (n / 4096 % 64)]
  | [] => []

/-- `RawStdEncoding.EncodeToString`. -/
def encodeToString (bytes : List UInt8) : String := String.ofList (encodeBytes bytes)

example : encodeToString [77, 97, 110] = "TWFu" := by decide
example : encodeToString [77, 97] = "TWE" := by decide

/-- The bytes of the encoded text: each digit is an ASCII character. -/
def encode (bytes : List UInt8) : List UInt8 := (encodeBytes bytes).map Char.toUInt8

/-! ## Decoding -/

/-- The six-bit value of a byte, when it is a digit of the alphabet. -/
def digitValue (b : UInt8) : Option Nat := (alphabet.map Char.toUInt8).idxOf? b

/-- Four digits make the 24-bit number of three bytes; a final three or two make the high bits
of two bytes or one, and a final single digit is corrupt input. -/
def decodeDigits : List UInt8 → Option (List UInt8)
  | c0 :: c1 :: c2 :: c3 :: rest => do
    let n := (← digitValue c0) * 262144 + (← digitValue c1) * 4096 + (← digitValue c2) * 64 +
      (← digitValue c3)
    let tail ← decodeDigits rest
    pure ((n / 65536).toUInt8 :: (n / 256 % 256).toUInt8 :: (n % 256).toUInt8 :: tail)
  | [c0, c1, c2] => do
    let n := (← digitValue c0) * 262144 + (← digitValue c1) * 4096 + (← digitValue c2) * 64
    pure [(n / 65536).toUInt8, (n / 256 % 256).toUInt8]
  | [c0, c1] => do
    let n := (← digitValue c0) * 262144 + (← digitValue c1) * 4096
    pure [(n / 65536).toUInt8]
  | [_] => none
  | [] => some []

/-- `RawStdEncoding.DecodeString`, on the bytes of the text: carriage returns and newlines are
skipped wherever they stand. -/
def decode (input : List UInt8) : Option (List UInt8) :=
  decodeDigits (input.filter fun b => b != 10 && b != 13)

/-- The digits as the bytes of their ASCII codes, read off the alphabet once. -/
theorem alphabet_map_toUInt8 : alphabet.map Char.toUInt8 =
    [65, 66, 67, 68, 69, 70, 71, 72, 73, 74, 75, 76, 77, 78, 79, 80, 81, 82, 83, 84, 85, 86, 87, 88,
      89, 90, 97, 98, 99, 100, 101, 102, 103, 104, 105, 106, 107, 108, 109, 110, 111, 112, 113, 114,
      115, 116, 117, 118, 119, 120, 121, 122, 48, 49, 50, 51, 52, 53, 54, 55, 56, 57, 43, 47] := by
  decide +kernel

/-- A digit's byte is the alphabet's byte at its value. -/
theorem toUInt8_digit (n : Nat) : (digit n).toUInt8 = (alphabet.map Char.toUInt8).getD n 65 := by
  rw [digit, ← List.getD_map alphabet 'A' Char.toUInt8]
  rfl

theorem digitValue_digit_of_mem : ∀ n ∈ List.range 64, digitValue (digit n).toUInt8 = some n := by
  simp only [digitValue, toUInt8_digit, alphabet_map_toUInt8]
  decide

/-- Each digit decodes to its value. -/
theorem digitValue_digit {n : Nat} (h : n < 64) : digitValue (digit n).toUInt8 = some n :=
  digitValue_digit_of_mem n (List.mem_range.mpr h)

theorem digit_mem_of_mem : ∀ n ∈ List.range 64,
    (digit n).toUInt8 ∈ alphabet.map Char.toUInt8 := by
  simp only [toUInt8_digit, alphabet_map_toUInt8]
  decide

theorem toUInt8_toNat (a : UInt8) : a.toNat.toUInt8 = a := UInt8.ofNat_toNat

/-- A full group: the four digits of a 24-bit number decode to its three bytes. -/
theorem decodeDigits_four {n : Nat} (hn : n < 16777216) (rest : List UInt8) :
    decodeDigits ((digit (n / 262144)).toUInt8 :: (digit (n / 4096 % 64)).toUInt8 ::
      (digit (n / 64 % 64)).toUInt8 :: (digit (n % 64)).toUInt8 :: rest) =
      (decodeDigits rest).map fun tail =>
        (n / 65536).toUInt8 :: (n / 256 % 256).toUInt8 :: (n % 256).toUInt8 :: tail := by
  have hsum : n / 262144 * 262144 + n / 4096 % 64 * 4096 + n / 64 % 64 * 64 + n % 64 = n := by
    omega
  simp only [decodeDigits, digitValue_digit (show n / 262144 < 64 by omega),
    digitValue_digit (show n / 4096 % 64 < 64 by omega), digitValue_digit (show n / 64 % 64 < 64 by omega),
    digitValue_digit (show n % 64 < 64 by omega), Option.bind_eq_bind, Option.bind_some, hsum]
  cases decodeDigits rest <;> rfl

/-- A final group of two bytes: three digits. -/
theorem decodeDigits_three {n : Nat} (hn : n < 16777216) (hlow : n % 256 = 0) :
    decodeDigits [(digit (n / 262144)).toUInt8, (digit (n / 4096 % 64)).toUInt8,
      (digit (n / 64 % 64)).toUInt8] = some [(n / 65536).toUInt8, (n / 256 % 256).toUInt8] := by
  have hsum : n / 262144 * 262144 + n / 4096 % 64 * 4096 + n / 64 % 64 * 64 = n := by omega
  simp only [decodeDigits, digitValue_digit (show n / 262144 < 64 by omega),
    digitValue_digit (show n / 4096 % 64 < 64 by omega), digitValue_digit (show n / 64 % 64 < 64 by omega),
    Option.bind_eq_bind, Option.bind_some, Option.pure_def, hsum]

/-- A final group of one byte: two digits. -/
theorem decodeDigits_two {n : Nat} (hn : n < 16777216) (hlow : n % 65536 = 0) :
    decodeDigits [(digit (n / 262144)).toUInt8, (digit (n / 4096 % 64)).toUInt8] =
      some [(n / 65536).toUInt8] := by
  have hsum : n / 262144 * 262144 + n / 4096 % 64 * 4096 = n := by omega
  simp only [decodeDigits, digitValue_digit (show n / 262144 < 64 by omega),
    digitValue_digit (show n / 4096 % 64 < 64 by omega), Option.bind_eq_bind, Option.bind_some,
    Option.pure_def, hsum]

/-- Decoding the digits of the bytes gives the bytes back, a group of three at a time. -/
theorem decodeDigits_encode (bytes : List UInt8) : decodeDigits (encode bytes) = some bytes := by
  induction bytes using encodeBytes.induct with
  | case1 a b c rest ih =>
    have ha := a.toNat_lt
    have hb := b.toNat_lt
    have hc := c.toNat_lt
    simp only [encode, encodeBytes, List.map_cons, List.cons_append, List.nil_append] at ih ⊢
    rw [decodeDigits_four (by omega), ih]
    simp only [Option.map_some, show (a.toNat * 65536 + b.toNat * 256 + c.toNat) / 65536 = a.toNat by omega,
      show (a.toNat * 65536 + b.toNat * 256 + c.toNat) / 256 % 256 = b.toNat by omega,
      show (a.toNat * 65536 + b.toNat * 256 + c.toNat) % 256 = c.toNat by omega, toUInt8_toNat]
  | case2 a b =>
    have ha := a.toNat_lt
    have hb := b.toNat_lt
    simp only [encode, encodeBytes, List.map_cons, List.map_nil]
    rw [decodeDigits_three (by omega) (by omega)]
    simp only [show (a.toNat * 65536 + b.toNat * 256) / 65536 = a.toNat by omega,
      show (a.toNat * 65536 + b.toNat * 256) / 256 % 256 = b.toNat by omega, toUInt8_toNat]
  | case3 a =>
    have ha := a.toNat_lt
    simp only [encode, encodeBytes, List.map_cons, List.map_nil]
    rw [decodeDigits_two (by omega) (by omega)]
    simp only [show a.toNat * 65536 / 65536 = a.toNat by omega, toUInt8_toNat]
  | case4 => rfl

theorem digit_mem {n : Nat} (h : n < 64) : (digit n).toUInt8 ∈ alphabet.map Char.toUInt8 :=
  digit_mem_of_mem n (List.mem_range.mpr h)

/-- The encoded text uses the digits of the alphabet only. -/
theorem mem_encode {bytes : List UInt8} {b : UInt8} (h : b ∈ encode bytes) :
    b ∈ alphabet.map Char.toUInt8 := by
  induction bytes using encodeBytes.induct with
  | case1 a b' c rest ih =>
    have ha := a.toNat_lt
    have hb := b'.toNat_lt
    have hc := c.toNat_lt
    simp only [encode, encodeBytes, List.map_cons, List.cons_append, List.nil_append,
      List.mem_cons] at h
    rcases h with rfl | rfl | rfl | rfl | h
    · exact digit_mem (by omega)
    · exact digit_mem (Nat.mod_lt _ (by decide))
    · exact digit_mem (Nat.mod_lt _ (by decide))
    · exact digit_mem (Nat.mod_lt _ (by decide))
    · exact ih h
  | case2 a b' =>
    have ha := a.toNat_lt
    have hb := b'.toNat_lt
    simp only [encode, encodeBytes, List.map_cons, List.map_nil, List.mem_cons, List.not_mem_nil,
      or_false] at h
    rcases h with rfl | rfl | rfl
    · exact digit_mem (by omega)
    · exact digit_mem (Nat.mod_lt _ (by decide))
    · exact digit_mem (Nat.mod_lt _ (by decide))
  | case3 a =>
    have ha := a.toNat_lt
    simp only [encode, encodeBytes, List.map_cons, List.map_nil, List.mem_cons, List.not_mem_nil,
      or_false] at h
    rcases h with rfl | rfl
    · exact digit_mem (by omega)
    · exact digit_mem (Nat.mod_lt _ (by decide))
  | case4 => simp [encode, encodeBytes] at h

theorem newline_not_mem_alphabet : (10 : UInt8) ∉ alphabet.map Char.toUInt8 ∧
    (13 : UInt8) ∉ alphabet.map Char.toUInt8 := by
  rw [alphabet_map_toUInt8]
  decide

theorem colon_not_mem_alphabet : (58 : UInt8) ∉ alphabet.map Char.toUInt8 := by
  rw [alphabet_map_toUInt8]
  decide

theorem newline_not_mem_encode (bytes : List UInt8) : (10 : UInt8) ∉ encode bytes :=
  fun h => newline_not_mem_alphabet.1 (mem_encode h)

/-- No colon: the text can stand between the colons of a frame. -/
theorem colon_not_mem_encode (bytes : List UInt8) : (58 : UInt8) ∉ encode bytes :=
  fun h => colon_not_mem_alphabet (mem_encode h)

/-- `DecodeString` undoes `EncodeToString`. -/
theorem decode_encode (bytes : List UInt8) : decode (encode bytes) = some bytes := by
  have hkeep : (encode bytes).filter (fun b => b != 10 && b != 13) = encode bytes := by
    apply List.filter_eq_self.mpr
    intro b hb
    have hmem := mem_encode hb
    have h10 : b ≠ 10 := fun h => newline_not_mem_alphabet.1 (h ▸ hmem)
    have h13 : b ≠ 13 := fun h => newline_not_mem_alphabet.2 (h ▸ hmem)
    simp [h10, h13]
  rw [decode, hkeep, decodeDigits_encode]

theorem encodeBytes_injective : Function.Injective encodeBytes := by
  intro a b h
  have hbytes : encode a = encode b := congrArg (List.map Char.toUInt8) h
  have hdecode := decode_encode a
  rw [hbytes, decode_encode b] at hdecode
  exact (Option.some.inj hdecode).symm

/-- Distinct bytes have distinct texts. -/
theorem encodeToString_injective : Function.Injective encodeToString :=
  fun _ _ h => encodeBytes_injective (String.ofList_injective h)

end Base64
