import Coinkit.Util.Basic
import Coinkit.Lib.Hex

/-!
# Public keys and their text

`util/public_key.go`. A public key is 34 bytes: the 32 bytes of an ed25519 key and a checksum
of two, the first two bytes of the SHA3-512 digest of the key (`checkBytes`). Its text is `0x`
and the 68 hex digits of the 34 bytes. `ReadPublicKey` checks the length, the prefix, the
digits and the checksum.

A Go string is a sequence of bytes, and here it is a `List UInt8`: `len`, slicing and `==`
are on bytes. The digest is the parameter `sha3`. `checkBytes` panics on an input that is not
32 bytes long; both of its callers pass 32 bytes, so the panic is not modelled. Where
`ReadPublicKey` returns an error it also returns the zero key, which no caller reads; the model
returns the error alone.

## What is proved

- `readPublicKey_string`: a key whose checksum holds reads back from its text, and
  `generatePublicKey_validate` says every generated key's checksum holds;
- `readPublicKey_eq_ok_iff`: `ReadPublicKey` accepts a string exactly when it starts with `0x`,
  it is the text of a key with a valid checksum once its letter digits are lowered, and the key
  read is that key. Go's hex decoder takes `A`–`F` as well as `a`–`f`, so a key whose text has a
  letter digit has more than one accepted spelling, and only the lower-case one is its `String()`.
-/

set_option autoImplicit false

namespace Coinkit

/-- A Go `error` value: the text of an `errors.New`, an error of the hex decoder, or `io.EOF`. -/
inductive GoError
  | text (message : String)
  | hex (e : Hex.Error)
  | eof
  deriving DecidableEq, Repr

/-- `copy(dst, src)` into a fresh zero array of `n` bytes: the first bytes of `src` that fit,
then zeros. -/
def copyInto (n : Nat) (src : List UInt8) : Vector UInt8 n := Vector.ofFn fun i => src.getD i 0

/-- `PublicKey`: `[34]byte`, the key and its checksum. -/
structure PublicKey where
  bytes : Vector UInt8 34
  deriving DecidableEq, Repr

/-- `"0x"`. -/
def hexPrefix : List UInt8 := [48, 120]

section Keys

variable (sha3 : List UInt8 → List UInt8)

/-- `checkBytes(input)`: the first two bytes of the digest. -/
def checkBytes (input : List UInt8) : List UInt8 := (sha3 input).take 2

/-- `GeneratePublicKey(input)`: the 32 bytes, then their checksum. -/
def generatePublicKey (input : List UInt8) : Except Fault PublicKey :=
  if input.length = 32 then pure ⟨copyInto 34 (input ++ checkBytes sha3 input)⟩
  else .error (.panic "caller should only generate public keys with 32 bytes")

/-- `PublicKey.Validate`: the checksum of the first 32 bytes is the last two. -/
def PublicKey.validate (pk : PublicKey) : Bool :=
  checkBytes sha3 (pk.bytes.toList.take 32) == pk.bytes.toList.drop 32

/-- `PublicKey.WithoutChecksum`: the 32 key bytes. -/
def PublicKey.withoutChecksum (pk : PublicKey) : List UInt8 := pk.bytes.toList.take 32

/-- `PublicKey.String`: `0x` and the lower-case hex digits of the 34 bytes. -/
def PublicKey.string (pk : PublicKey) : List UInt8 := hexPrefix ++ Hex.encode pk.bytes.toList

/-- `ReadPublicKey(input)`. -/
def readPublicKey (input : List UInt8) : Except GoError PublicKey :=
  if input.length ≠ 70 then .error (.text "public key strings are 70 characters long")
  else if input.take 2 ≠ hexPrefix then .error (.text "public key strings should start with 0x")
  else
    match Hex.decode (input.drop 2) with
    | .error e => .error (.hex e)
    | .ok bs =>
      let answer : PublicKey := ⟨copyInto 34 bs⟩
      if !answer.validate sha3 then .error (.text "bad checksum") else pure answer

end Keys

/-! ## Bytes of a key -/

/-- Copying exactly `n` bytes keeps them. -/
theorem toList_copyInto {n : Nat} {src : List UInt8} (h : src.length = n) :
    (copyInto n src).toList = src := by
  subst h
  apply List.ext_getElem
  · simp [copyInto]
  · intro i h₁ h₂
    simp [copyInto]

/-- The first `m` bytes of a copy are those of the source, when it has them. -/
theorem take_copyInto {n m : Nat} {src : List UInt8} (hm : m ≤ n) (hlen : m ≤ src.length) :
    (copyInto n src).toList.take m = src.take m := by
  apply List.ext_getElem
  · simp
    omega
  · intro i h₁ h₂
    simp only [List.length_take] at h₁ h₂
    simp [copyInto, List.getElem?_eq_getElem (show i < src.length by omega)]

theorem copyInto_toList (pk : PublicKey) : ⟨copyInto 34 pk.bytes.toList⟩ = pk := by
  cases pk with
  | mk bytes =>
    rw [PublicKey.mk.injEq]
    exact Vector.toList_inj.mp (toList_copyInto (by simp))

theorem length_string (pk : PublicKey) : pk.string.length = 70 := by
  simp [PublicKey.string, hexPrefix, Hex.length_encode]

theorem length_withoutChecksum (pk : PublicKey) : pk.withoutChecksum.length = 32 := by
  simp [PublicKey.withoutChecksum]

/-- The text of a key is `0x` and digits of `hextable`. -/
theorem mem_string {pk : PublicKey} {c : UInt8} (h : c ∈ pk.string) : c ∈ hexPrefix ++ Hex.hextable := by
  rcases List.mem_append.mp h with h | h
  · exact List.mem_append_left _ h
  · exact List.mem_append_right _ (Hex.mem_encode h)

theorem colon_not_mem_string (pk : PublicKey) : (58 : UInt8) ∉ pk.string :=
  fun h => absurd (mem_string h) (by decide)

theorem newline_not_mem_string (pk : PublicKey) : (10 : UInt8) ∉ pk.string :=
  fun h => absurd (mem_string h) (by decide)

section Keys

variable (sha3 : List UInt8 → List UInt8)

/-- A generated key's checksum holds when the digest has the two bytes `checkBytes` slices. -/
theorem generatePublicKey_validate {input : List UInt8} {pk : PublicKey}
    (hdigest : 2 ≤ (sha3 input).length) (h : generatePublicKey sha3 input = .ok pk) :
    pk.validate sha3 = true := by
  unfold generatePublicKey at h
  split at h
  · next hlen =>
    -- `Except.ok.inj`, not `cases`: unifying would unfold the 34 bytes
    obtain rfl := Except.ok.inj h
    have hcheck : (checkBytes sha3 input).length = 2 := by
      simp [checkBytes]
      omega
    have hbytes : (copyInto 34 (input ++ checkBytes sha3 input)).toList = input ++ checkBytes sha3 input :=
      toList_copyInto (by simp [hlen, hcheck])
    simp only [PublicKey.validate, hbytes, List.take_left' hlen, List.drop_left' hlen, beq_self_eq_true]
  · cases h

/-- `GeneratePublicKey` returns on 32 bytes, with those bytes first. -/
theorem generatePublicKey_ok {input : List UInt8} (h : input.length = 32) :
    ∃ pk, generatePublicKey sha3 input = .ok pk ∧ pk.withoutChecksum = input := by
  refine ⟨_, if_pos h, ?_⟩
  rw [PublicKey.withoutChecksum, take_copyInto (by decide) (by simp [h]), List.take_left' h]

/-- Past the length and the prefix, a string whose digits decode is read as the key of their
bytes when its checksum holds. -/
theorem readPublicKey_of_decode {input bs : List UInt8} (hlen : input.length = 70)
    (hpre : input.take 2 = hexPrefix) (hdec : Hex.decode (input.drop 2) = .ok bs) :
    readPublicKey sha3 input =
      if (⟨copyInto 34 bs⟩ : PublicKey).validate sha3 then .ok ⟨copyInto 34 bs⟩
      else .error (.text "bad checksum") := by
  rw [readPublicKey, if_neg (by omega), if_neg (by simp [hpre]), hdec]
  dsimp only
  cases (⟨copyInto 34 bs⟩ : PublicKey).validate sha3 <;> rfl

/-- A key whose checksum holds reads back from its text. -/
theorem readPublicKey_string {pk : PublicKey} (hv : pk.validate sha3 = true) :
    readPublicKey sha3 pk.string = .ok pk := by
  have hpre : pk.string.take 2 = hexPrefix := List.take_left' rfl
  have hdigits : pk.string.drop 2 = Hex.encode pk.bytes.toList := List.drop_left' rfl
  rw [readPublicKey_of_decode sha3 (length_string pk) hpre (by rw [hdigits, Hex.decode_encode]),
    copyInto_toList, if_pos hv]

/-- What a successful `ReadPublicKey` has checked: the length, the prefix, the digits, and the
checksum of the key of their bytes. -/
theorem readPublicKey_inv {input : List UInt8} {pk : PublicKey} (h : readPublicKey sha3 input = .ok pk) :
    input.length = 70 ∧ input.take 2 = hexPrefix ∧
      ∃ bs, Hex.decode (input.drop 2) = .ok bs ∧ pk = ⟨copyInto 34 bs⟩ ∧ pk.validate sha3 = true := by
  by_cases hlen : input.length = 70
  swap
  · rw [readPublicKey, if_pos hlen] at h
    cases h
  by_cases hpre : input.take 2 = hexPrefix
  swap
  · rw [readPublicKey, if_neg (by omega), if_pos hpre] at h
    cases h
  refine ⟨hlen, hpre, ?_⟩
  cases hdec : Hex.decode (input.drop 2) with
  | error e =>
    rw [readPublicKey, if_neg (by omega), if_neg (by simp [hpre]), hdec] at h
    cases h
  | ok bs =>
    rw [readPublicKey_of_decode sha3 hlen hpre hdec] at h
    by_cases hv : (⟨copyInto 34 bs⟩ : PublicKey).validate sha3 = true
    · rw [if_pos hv] at h
      -- `Except.ok.inj`, not `cases`: unifying would unfold the 34 bytes
      have hpk := Except.ok.inj h
      exact ⟨bs, rfl, hpk.symm, hpk ▸ hv⟩
    · rw [if_neg hv] at h
      cases h

/-- The strings `ReadPublicKey` accepts, and the key it reads from each: those that start with
`0x` and are, with their letter digits lowered, the text of a key with a valid checksum. -/
theorem readPublicKey_eq_ok_iff (input : List UInt8) (pk : PublicKey) :
    readPublicKey sha3 input = .ok pk ↔
      pk.validate sha3 = true ∧ input.take 2 = hexPrefix ∧ Hex.toLower input = pk.string := by
  constructor
  · intro h
    obtain ⟨hlen, hpre, bs, hdec, rfl, hv⟩ := readPublicKey_inv sha3 h
    -- 68 digits are 34 bytes, which the copy keeps
    have hbytes : bs.length = 34 := by
      have := Hex.length_of_decode hdec
      simp only [List.length_drop, hlen] at this
      omega
    refine ⟨hv, hpre, ?_⟩
    rw [← List.take_append_drop 2 input, Hex.toLower, List.map_append, ← Hex.toLower, ← Hex.toLower,
      ← Hex.encode_eq_toLower_of_decode hdec, hpre, PublicKey.string, toList_copyInto hbytes]
    rfl
  · rintro ⟨hv, hpre, hlower⟩
    have hlen : input.length = 70 := by
      rw [← length_string pk, ← hlower, Hex.toLower, List.length_map]
    have hdigits : Hex.toLower (input.drop 2) = Hex.encode pk.bytes.toList := by
      rw [Hex.toLower, List.map_drop, ← Hex.toLower, hlower]
      exact List.drop_left' rfl
    rw [readPublicKey_of_decode sha3 hlen hpre ((Hex.decode_eq_ok_iff _ _).mpr hdigits),
      copyInto_toList, if_pos hv]

/-- The text of a public key. For every 32 bytes, the key `GeneratePublicKey` makes of them
reads back from its `String()`. And `ReadPublicKey` accepts a string, with key `pk`, exactly when
`pk`'s checksum holds, the string starts with `0x`, and it is `pk.String()` once its letter digits
are lowered: `pk.String()` is the lower-case spelling of every string read as `pk`. -/
theorem public_key_text (hdigest : ∀ bytes, 2 ≤ (sha3 bytes).length) :
    (∀ b : List UInt8, b.length = 32 → ∃ pk, generatePublicKey sha3 b = .ok pk ∧
      readPublicKey sha3 pk.string = .ok pk) ∧
    ∀ (s : List UInt8) (pk : PublicKey), readPublicKey sha3 s = .ok pk ↔
      pk.validate sha3 = true ∧ s.take 2 = hexPrefix ∧ Hex.toLower s = pk.string := by
  refine ⟨fun b hb => ?_, readPublicKey_eq_ok_iff sha3⟩
  obtain ⟨pk, hpk, -⟩ := generatePublicKey_ok sha3 hb
  exact ⟨pk, hpk, readPublicKey_string sha3 (generatePublicKey_validate sha3 (hdigest b) hpk)⟩

theorem public_key_text_zero_key :
    (∀ bytes : List UInt8, 2 ≤ (((fun _ => [0, 0]) : List UInt8 → List UInt8) bytes).length) ∧
      ∃ pk, generatePublicKey (fun _ => [0, 0]) (List.replicate 32 0) = .ok pk ∧
        readPublicKey (fun _ => [0, 0]) pk.string = .ok pk :=
  have hdigest : ∀ bytes : List UInt8, 2 ≤ (((fun _ => [0, 0]) : List UInt8 → List UInt8) bytes).length :=
    fun _ => Nat.le_refl 2
  ⟨hdigest, (public_key_text (fun _ => [0, 0]) hdigest).1 _ List.length_replicate⟩

/-- A key has more than one accepted spelling: with a digest that is all zeros, the key of the
bytes `ab 00 … 00` is read from `0xAB00…00` as well as from its `String()` `0xab00…00`. -/
theorem read_public_key_accepts_upper_case :
    generatePublicKey (fun _ => [0, 0]) (171 :: List.replicate 31 0) =
        .ok ⟨copyInto 34 (171 :: List.replicate 33 0)⟩ ∧
      readPublicKey (fun _ => [0, 0]) ([48, 120, 65, 66] ++ List.replicate 66 48) =
        .ok ⟨copyInto 34 (171 :: List.replicate 33 0)⟩ ∧
      (⟨copyInto 34 (171 :: List.replicate 33 0)⟩ : PublicKey).string ≠
        [48, 120, 65, 66] ++ List.replicate 66 48 := by
  refine ⟨if_pos (by decide), (readPublicKey_eq_ok_iff _ _ _).mpr ⟨?_, by decide, ?_⟩, ?_⟩
  · decide +kernel
  · decide +kernel
  · decide +kernel

end Keys

end Coinkit
