import Coinkit.Util.PublicKey
import Coinkit.Lib.Base64
import Coinkit.Lib.Bufio

/-!
# Signed messages on the wire

A signed message travels as one line `e:signer:signature:json`: the signer's public key text,
the signature of the JSON text in raw base64, and the JSON text itself, which may hold colons.
`NewSignedMessageFromSerialized` splits the line at its first three colons with `SplitN`,
checks the version, reads the key, verifies the signature and decodes the message. A nil
message travels as the line `ok`. `ReadSignedMessage` reads one line through a new
`bufio.Reader` made for the call, so whatever that reader buffered past the line is dropped
with it.

JSON and ed25519 are parameters: `encodeMessage` and `decodeMessage` stand for
`EncodeMessage` and `DecodeMessage`, `ed25519Sign` and `ed25519Verify` for the signature scheme.

## What is proved

- `newSignedMessageFromSerialized_serialize`: a message signed by a key pair reads back from
  its frame with the same signer, signature and text, and the message decoded from the text;
- `signedMessageOfLine_sound`: the other way round, every line the parse accepts is the line
  `SignedMessageToLine` writes for what it returns, whose signer is a valid key, whose signature
  verifies and whose text decodes (`SplitN` only cuts at separators: `intercalate_splitN`);
- `readSignedMessages_of_aligned`: on a connection whose every read result ends at a line end
  or holds none, successive calls return the written items in order, then `io.EOF`;
- `readSignedMessage_of_chunk`: a first read result with bytes after its first line end loses
  those bytes: the next call starts at the next read result.
-/

set_option autoImplicit false

namespace Coinkit

/-- The Go error of a `bufio` error: `io.EOF`, and `io.ErrNoProgress` with its text. -/
def GoError.ofBufio : Bufio.Error → GoError
  | .eof => .eof
  | .noProgress => .text "multiple Read calls return no data or error"

/-- `OK`: the line of a nil message. -/
def ok : List UInt8 := [111, 107]

/-- A key pair: the public key, and the private key `ed25519Sign` signs with. -/
structure KeyPair where
  publicKey : PublicKey
  privateKey : List UInt8

/-- `SignedMessage`. -/
structure SignedMessage (α : Type) where
  message : α
  messageString : List UInt8
  signer : List UInt8
  signature : List UInt8
  deriving DecidableEq, Repr

/-- `strings.SplitN(s, sep, n)` for a separator of one byte: the parts before each of the first
`n - 1` separators, then the rest. -/
def splitN (sep : UInt8) : Nat → List UInt8 → List (List UInt8)
  | 0, _ => []
  | 1, s => [s]
  | n + 2, s =>
    match s.idxOf? sep with
    | none => [s]
    | some i => s.take i :: splitN sep (n + 1) (s.drop (i + 1))

section Wire

variable {α : Type} (sha3 : List UInt8 → List UInt8)
  (ed25519Sign : List UInt8 → List UInt8 → List UInt8)
  (ed25519Verify : List UInt8 → List UInt8 → List UInt8 → Bool)
  (encodeMessage : α → List UInt8) (decodeMessage : List UInt8 → Except GoError α)

/-- `KeyPair.Sign`: the signature of the text, in raw base64. -/
def KeyPair.sign (kp : KeyPair) (message : List UInt8) : List UInt8 :=
  Base64.encode (ed25519Sign kp.privateKey message)

/-- A signature is base64 text: it holds no colon and no newline. -/
theorem KeyPair.separators_not_mem_sign (kp : KeyPair) (message : List UInt8) :
    (58 : UInt8) ∉ kp.sign ed25519Sign message ∧ (10 : UInt8) ∉ kp.sign ed25519Sign message :=
  ⟨Base64.colon_not_mem_encode _, Base64.newline_not_mem_encode _⟩

/-- `Verify`: a key of `ed25519.PublicKeySize` bytes, and a signature that decodes to
`ed25519.SignatureSize` bytes and that `ed25519.Verify` accepts. -/
def verify (publicKey : PublicKey) (message signature : List UInt8) : Bool :=
  let pub := publicKey.withoutChecksum
  if pub.length ≠ 32 then false
  else
    match Base64.decode signature with
    | none => false
    | some sig => if sig.length ≠ 64 then false else ed25519Verify pub message sig

/-- `NewSignedMessage`. -/
def newSignedMessage (kp : KeyPair) (message : α) : SignedMessage α :=
  let ms := encodeMessage message
  ⟨message, ms, kp.publicKey.string, kp.sign ed25519Sign ms⟩

/-- `Serialize`: `e:signer:signature:json`. -/
def SignedMessage.serialize (sm : SignedMessage α) : List UInt8 :=
  [101, 58] ++ sm.signer ++ [58] ++ sm.signature ++ [58] ++ sm.messageString

/-- `NewSignedMessageFromSerialized`. -/
def newSignedMessageFromSerialized (serialized : List UInt8) : Except GoError (SignedMessage α) :=
  match splitN 58 4 serialized with
  | [version, signer, signature, ms] =>
    if version ≠ [101] then .error (.text "unrecognized version")
    else
      match readPublicKey sha3 signer with
      | .error e => .error e
      | .ok publicKey =>
        if !verify ed25519Verify publicKey ms signature then
          .error (.text "signature failed verification")
        else
          match decodeMessage ms with
          | .error e => .error e
          | .ok m => pure ⟨m, ms, signer, signature⟩
  | _ => .error (.text "could not find 4 parts")

/-- `SignedMessageToLine`: a nil message as `ok`, and each line ended by a newline. -/
def signedMessageToLine : Option (SignedMessage α) → List UInt8
  | none => ok ++ [10]
  | some sm => sm.serialize ++ [10]

/-- The part of `ReadSignedMessage` after the newline is chopped: `ok` is a nil message, and any
other line a serialized one. -/
def signedMessageOfLine (serialized : List UInt8) : Except GoError (Option (SignedMessage α)) :=
  if serialized = ok then .ok none
  else (newSignedMessageFromSerialized sha3 ed25519Verify decodeMessage serialized).map some

/-- `ReadSignedMessage` on a connection: a new `bufio.Reader` reads one line and is dropped
with what it buffered past it, and the connection is left where that reader left it. -/
def readSignedMessage (r : Bufio.ChunkReader) :
    Except GoError (Option (SignedMessage α)) × Bufio.ChunkReader :=
  let (data, err, b) := Bufio.readString 10 (Bufio.newReader r)
  match err with
  | some e => (.error (GoError.ofBufio e), b.rd)
  | none => (signedMessageOfLine sha3 ed25519Verify decodeMessage data.dropLast, b.rd)

/-- The results of `n` successive `ReadSignedMessage` calls on one connection, as
`Server.handleConnection` makes them. -/
def readSignedMessages : Nat → Bufio.ChunkReader → List (Except GoError (Option (SignedMessage α)))
  | 0, _ => []
  | n + 1, r =>
    let (result, r') := readSignedMessage sha3 ed25519Verify decodeMessage r
    result :: readSignedMessages n r'

/-! ## Frames -/

theorem splitN_append_cons {sep : UInt8} {part : List UInt8} (n : Nat) (rest : List UInt8)
    (h : sep ∉ part) : splitN sep (n + 2) (part ++ sep :: rest) = part :: splitN sep (n + 1) rest := by
  have htake : (part ++ sep :: rest).take part.length = part := by simp
  have hdrop : (part ++ sep :: rest).drop (part.length + 1) = rest := by simp [List.drop_append]
  rw [splitN, Bufio.idxOf?_append_cons rest h]
  dsimp only
  rw [htake, hdrop]

/-- `SplitN(s, ":", 4)` of a frame whose first three parts hold no colon gives the four parts,
the last with all its colons. -/
theorem splitN_frame {a b c : List UInt8} (d : List UInt8) (ha : 58 ∉ a) (hb : 58 ∉ b)
    (hc : 58 ∉ c) : splitN 58 4 (a ++ 58 :: (b ++ 58 :: (c ++ 58 :: d))) = [a, b, c, d] := by
  rw [splitN_append_cons 2 _ ha, splitN_append_cons 1 _ hb, splitN_append_cons 0 _ hc]
  rfl

theorem serialize_eq (sm : SignedMessage α) :
    sm.serialize = [101] ++ 58 :: (sm.signer ++ 58 :: (sm.signature ++ 58 :: sm.messageString)) := by
  simp [SignedMessage.serialize]

/-- What `NewKeyPair` gives: a public key whose checksum holds, and signatures of
`ed25519.SignatureSize` bytes that `ed25519.Verify` accepts with the key. -/
structure KeyPair.Sound (kp : KeyPair) : Prop where
  validate : kp.publicKey.validate sha3 = true
  length_sign : ∀ ms, (ed25519Sign kp.privateKey ms).length = 64
  verify_sign : ∀ ms, ed25519Verify kp.publicKey.withoutChecksum ms (ed25519Sign kp.privateKey ms) = true

variable {sha3 ed25519Sign ed25519Verify} in
theorem KeyPair.Sound.verify {kp : KeyPair} (hkp : kp.Sound sha3 ed25519Sign ed25519Verify)
    (ms : List UInt8) : verify ed25519Verify kp.publicKey ms (kp.sign ed25519Sign ms) = true := by
  simp only [Coinkit.verify, KeyPair.sign, length_withoutChecksum, Base64.decode_encode,
    hkp.length_sign, ne_eq, not_true_eq_false, ↓reduceIte, hkp.verify_sign]

variable {sha3 ed25519Sign ed25519Verify} in
/-- A message signed by a key pair reads back from its frame with the same signer, signature and
text, and the message decoded from the text: the signer's text and the base64 signature hold no
colon, so the colons of the JSON text stay in the last part. -/
theorem newSignedMessageFromSerialized_serialize {kp : KeyPair}
    (hkp : kp.Sound sha3 ed25519Sign ed25519Verify) (m : α) :
    newSignedMessageFromSerialized sha3 ed25519Verify decodeMessage
        (newSignedMessage ed25519Sign encodeMessage kp m).serialize =
      (decodeMessage (encodeMessage m)).map fun m' =>
        { newSignedMessage ed25519Sign encodeMessage kp m with message := m' } := by
  rw [newSignedMessageFromSerialized, serialize_eq]
  dsimp only [newSignedMessage]
  rw [splitN_frame _ (by decide) (colon_not_mem_string _)
    (kp.separators_not_mem_sign ed25519Sign _).1]
  simp only [ne_eq, not_true_eq_false, ↓reduceIte,
    readPublicKey_string sha3 hkp.validate, hkp.verify, Bool.not_true, Bool.false_eq_true]
  cases decodeMessage (encodeMessage m) <;> rfl

/-- `SplitN` never gives an empty list of parts for a positive count. -/
theorem splitN_succ_ne_nil (sep : UInt8) (n : Nat) (s : List UInt8) : splitN sep (n + 1) s ≠ [] := by
  cases n with
  | zero => simp [splitN]
  | succ n =>
    rw [splitN]
    split <;> simp

/-- `SplitN` cuts the text at separators only: its parts, joined back with the separator, are the
text. -/
theorem intercalate_splitN (sep : UInt8) : ∀ (n : Nat) (s : List UInt8),
    [sep].intercalate (splitN sep (n + 1) s) = s
  | 0, s => by simp [splitN]
  | n + 1, s => by
    rw [splitN]
    split
    · simp
    · rename_i i hi
      obtain ⟨hlt, hget, -⟩ := List.idxOf?_eq_some_iff.mp hi
      obtain ⟨first, rest, hcons⟩ := List.exists_cons_of_ne_nil (splitN_succ_ne_nil sep n (s.drop (i + 1)))
      rw [hcons, List.intercalate_cons_cons, ← hcons, intercalate_splitN sep n]
      -- the separator found at i is the one put back between the two halves
      conv_rhs => rw [← List.take_append_drop i s, List.drop_eq_getElem_cons hlt, hget]
      simp

/-- What `NewSignedMessageFromSerialized` accepts is the frame of the message it returns: the
text is exactly its serialization, its signer reads as a valid key under which the signature
verifies the text, and the text decodes to the message. -/
theorem newSignedMessageFromSerialized_sound {serialized : List UInt8} {sm : SignedMessage α}
    (h : newSignedMessageFromSerialized sha3 ed25519Verify decodeMessage serialized = .ok sm) :
    sm.serialize = serialized ∧ decodeMessage sm.messageString = .ok sm.message ∧
      ∃ publicKey, readPublicKey sha3 sm.signer = .ok publicKey ∧
        verify ed25519Verify publicKey sm.messageString sm.signature = true := by
  have hjoin := intercalate_splitN 58 3 serialized
  unfold newSignedMessageFromSerialized at h
  split at h
  · rename_i version signer signature ms hsplit
    rw [hsplit] at hjoin
    by_cases hversion : version = [101]
    · rw [if_neg (not_not.mpr hversion)] at h
      cases hkey : readPublicKey sha3 signer with
      | error e =>
        rw [hkey] at h
        cases h
      | ok publicKey =>
        rw [hkey] at h
        dsimp only at h
        by_cases hverify : verify ed25519Verify publicKey ms signature = true
        · simp only [hverify, Bool.not_true, Bool.false_eq_true, ↓reduceIte] at h
          cases hdecode : decodeMessage ms with
          | error e =>
            rw [hdecode] at h
            cases h
          | ok m =>
            rw [hdecode] at h
            cases h
            refine ⟨?_, hdecode, publicKey, hkey, hverify⟩
            rw [← hjoin, hversion]
            simp [SignedMessage.serialize, List.intercalate]
        · rw [Bool.not_eq_true] at hverify
          simp only [hverify, Bool.not_false, ↓reduceIte] at h
          cases h
    · rw [if_pos hversion] at h
      cases h
  · cases h

/-! ## Lines and the stream -/

/-- What a reader gets back for a written item: nothing for a nil message; for a message its
signer, signature and text, with the message decoded from the text. -/
def receivedItem : Option (SignedMessage α) → Except GoError (Option (SignedMessage α))
  | none => .ok none
  | some sm => (decodeMessage sm.messageString).map fun m => some { sm with message := m }

/-- An item written to the stream: nil, or a message signed by a sound key pair whose JSON text
has no newline. -/
def Written (item : Option (SignedMessage α)) : Prop :=
  ∀ sm, item = some sm → ∃ kp m, kp.Sound sha3 ed25519Sign ed25519Verify ∧
    10 ∉ encodeMessage m ∧ sm = newSignedMessage ed25519Sign encodeMessage kp m

/-- The line of an item without its newline. -/
def itemLine : Option (SignedMessage α) → List UInt8
  | none => ok
  | some sm => sm.serialize

theorem signedMessageToLine_eq (item : Option (SignedMessage α)) :
    signedMessageToLine item = itemLine item ++ [10] := by
  cases item <;> rfl

variable {sha3 ed25519Verify decodeMessage} in
/-- What the parse of `ReadSignedMessage` accepts is a line that `SignedMessageToLine` writes:
`ok` for a nil message, or the frame of a message whose signer is a valid key, under which the
signature verifies the text, and whose text decodes to the message. -/
theorem signedMessageOfLine_sound {line : List UInt8} {item : Option (SignedMessage α)}
    (h : signedMessageOfLine sha3 ed25519Verify decodeMessage line = .ok item) :
    signedMessageToLine item = line ++ [10] ∧
      ∀ sm, item = some sm → decodeMessage sm.messageString = .ok sm.message ∧
        ∃ publicKey, readPublicKey sha3 sm.signer = .ok publicKey ∧
          verify ed25519Verify publicKey sm.messageString sm.signature = true := by
  unfold signedMessageOfLine at h
  by_cases hok : line = ok
  · rw [if_pos hok] at h
    cases h
    exact ⟨by rw [hok]; rfl, fun _ hsm => nomatch hsm⟩
  · rw [if_neg hok] at h
    obtain ⟨sm, hsm, rfl⟩ := Except.exists_of_map_eq_ok h
    obtain ⟨hserialize, hmessage⟩ :=
      newSignedMessageFromSerialized_sound sha3 ed25519Verify decodeMessage hsm
    refine ⟨by rw [signedMessageToLine, hserialize], fun sm' hsm' => ?_⟩
    cases hsm'
    exact hmessage

/-- The line of `{}` signed by the zero key, with a digest of zeros and a signature
scheme that accepts everything. -/
theorem signedMessageOfLine_sound_zero_key :
    ∃ item, signedMessageOfLine (fun _ => [0, 0]) (fun _ _ _ => true) (fun _ => .ok ())
        (newSignedMessage (fun _ _ => List.replicate 64 0) (fun _ => [123, 125])
          ⟨⟨Vector.replicate 34 0⟩, []⟩ ()).serialize = .ok item ∧
      signedMessageToLine item = (newSignedMessage (fun _ _ => List.replicate 64 0)
        (fun _ => [123, 125]) ⟨⟨Vector.replicate 34 0⟩, []⟩ ()).serialize ++ [10] ∧
      ∀ sm, item = some sm → (fun _ => .ok () : List UInt8 → Except GoError Unit) sm.messageString =
          .ok sm.message ∧
        ∃ publicKey, readPublicKey (fun _ => [0, 0]) sm.signer = .ok publicKey ∧
          verify (fun _ _ _ => true) publicKey sm.messageString sm.signature = true := by
  have hkp : KeyPair.Sound (fun _ => [0, 0]) (fun _ _ => List.replicate 64 0) (fun _ _ _ => true)
      ⟨⟨Vector.replicate 34 0⟩, []⟩ :=
    ⟨by decide +kernel, fun _ => List.length_replicate, fun _ => rfl⟩
  have hne : (newSignedMessage (fun _ _ => List.replicate 64 0) (fun _ => [123, 125])
      ⟨⟨Vector.replicate 34 0⟩, []⟩ ()).serialize ≠ ok := by
    rw [serialize_eq]
    simp [ok]
  have h : signedMessageOfLine (fun _ => [0, 0]) (fun _ _ _ => true) (fun _ => .ok ())
      (newSignedMessage (fun _ _ => List.replicate 64 0) (fun _ => [123, 125])
        ⟨⟨Vector.replicate 34 0⟩, []⟩ ()).serialize =
      .ok (some (newSignedMessage (fun _ _ => List.replicate 64 0) (fun _ => [123, 125])
        ⟨⟨Vector.replicate 34 0⟩, []⟩ ())) := by
    rw [signedMessageOfLine, if_neg hne,
      newSignedMessageFromSerialized_serialize (fun _ => [123, 125]) (fun _ => .ok ()) hkp ()]
    rfl
  exact ⟨_, h, signedMessageOfLine_sound h⟩

variable {sha3 ed25519Sign ed25519Verify encodeMessage} in
/-- A written item's line holds no newline, and reads back as the item. -/
theorem Written.line {item : Option (SignedMessage α)}
    (h : Written sha3 ed25519Sign ed25519Verify encodeMessage item) :
    10 ∉ itemLine item ∧
      signedMessageOfLine sha3 ed25519Verify decodeMessage (itemLine item) = receivedItem decodeMessage item := by
  rcases item with _ | sm
  · exact ⟨show (10 : UInt8) ∉ ok by decide, rfl⟩
  · obtain ⟨kp, m, hkp, hm, rfl⟩ := h _ rfl
    have hne : (newSignedMessage ed25519Sign encodeMessage kp m).serialize ≠ ok := by
      rw [serialize_eq]
      simp [ok]
    refine ⟨?_, ?_⟩
    · rw [itemLine, serialize_eq]
      simp only [List.mem_append, List.mem_cons, not_or]
      exact ⟨by decide, by decide, newline_not_mem_string _, by decide,
        (kp.separators_not_mem_sign ed25519Sign _).2, by decide, hm⟩
    · rw [itemLine, signedMessageOfLine, if_neg hne,
        newSignedMessageFromSerialized_serialize encodeMessage decodeMessage hkp m, receivedItem]
      dsimp only [newSignedMessage]
      cases decodeMessage (encodeMessage m) <;> rfl

/-- On an aligned connection a call reads the first line, and leaves the connection at the
rest, aligned. -/
theorem readSignedMessage_of_aligned {r : Bufio.ChunkReader} {line rest : List UInt8}
    (hr : r.Aligned 10) (hline : 10 ∉ line) (hbytes : r.bytes = line ++ 10 :: rest) :
    ∃ r', readSignedMessage sha3 ed25519Verify decodeMessage r =
      (signedMessageOfLine sha3 ed25519Verify decodeMessage line, r') ∧ r'.Aligned 10 ∧ r'.bytes = rest := by
  obtain ⟨b, hres, -, hrd, hrest⟩ := Bufio.readString_of_aligned hr hline hbytes
  refine ⟨b.rd, ?_, hrd, hrest⟩
  simp only [readSignedMessage, hres, List.dropLast_concat]

/-- On an aligned connection with nothing left, a call returns `io.EOF`. -/
theorem readSignedMessage_of_aligned_nil {r : Bufio.ChunkReader} (hr : r.Aligned 10)
    (hbytes : r.bytes = []) :
    ∃ r', readSignedMessage sha3 ed25519Verify decodeMessage r = (.error .eof, r') := by
  obtain ⟨b, hres⟩ := Bufio.readString_of_aligned_nil hr hbytes
  exact ⟨b.rd, by simp only [readSignedMessage, hres]; rfl⟩

theorem readSignedMessages_succ {n : Nat} {r r' : Bufio.ChunkReader}
    {result : Except GoError (Option (SignedMessage α))}
    (h : readSignedMessage sha3 ed25519Verify decodeMessage r = (result, r')) :
    readSignedMessages sha3 ed25519Verify decodeMessage (n + 1) r =
      result :: readSignedMessages sha3 ed25519Verify decodeMessage n r' := by
  rw [readSignedMessages, h]

variable {sha3 ed25519Sign ed25519Verify encodeMessage} in
/-- Written items read back in order, then `io.EOF`, from a connection whose every read result
ends at a line end or holds none. -/
theorem readSignedMessages_of_aligned (items : List (Option (SignedMessage α)))
    (hitems : ∀ item ∈ items, Written sha3 ed25519Sign ed25519Verify encodeMessage item)
    {r : Bufio.ChunkReader} (hr : r.Aligned 10) (hbytes : r.bytes = (items.map signedMessageToLine).flatten) :
    readSignedMessages sha3 ed25519Verify decodeMessage (items.length + 1) r =
      items.map (receivedItem decodeMessage) ++ [.error .eof] := by
  -- induction on the items written, with the connection at the start of the next line
  induction items generalizing r with
  | nil =>
    obtain ⟨r', hend⟩ := readSignedMessage_of_aligned_nil sha3 ed25519Verify decodeMessage hr hbytes
    rw [List.length_nil, readSignedMessages_succ sha3 ed25519Verify decodeMessage hend]
    rfl
  | cons item items ih =>
    obtain ⟨hline, hread⟩ := (hitems item List.mem_cons_self).line decodeMessage
    rw [List.map_cons, List.flatten_cons, signedMessageToLine_eq, List.append_assoc,
      List.singleton_append] at hbytes
    obtain ⟨r', hres, hr', hrest⟩ := readSignedMessage_of_aligned sha3 ed25519Verify decodeMessage hr hline hbytes
    rw [List.length_cons, readSignedMessages_succ sha3 ed25519Verify decodeMessage hres, hread,
      ih (fun i hi => hitems i (List.mem_cons_of_mem item hi)) hr' hrest, List.map_cons,
      List.cons_append]

/-- The message `{}` signed by the zero key (with a digest of zeros and a signature scheme that
accepts everything), then a nil message, each line in a read of its own: the signed message reads
back as itself and the nil one as nil. -/
theorem readSignedMessages_of_aligned_signed_then_nil :
    (∀ item ∈ [some (newSignedMessage (fun _ _ => List.replicate 64 0) (fun _ => [123, 125])
          ⟨⟨Vector.replicate 34 0⟩, []⟩ ()), none],
        Written (fun _ => [0, 0]) (fun _ _ => List.replicate 64 0) (fun _ _ _ => true)
          (fun _ => [123, 125]) item) ∧
      Bufio.ChunkReader.Aligned 10 ⟨[signedMessageToLine (some (newSignedMessage
          (fun _ _ => List.replicate 64 0) (fun _ => [123, 125]) ⟨⟨Vector.replicate 34 0⟩, []⟩ ())),
        ok ++ [10]]⟩ ∧
      readSignedMessages (fun _ => [0, 0]) (fun _ _ _ => true) (fun _ => .ok ()) 3
          ⟨[signedMessageToLine (some (newSignedMessage (fun _ _ => List.replicate 64 0)
            (fun _ => [123, 125]) ⟨⟨Vector.replicate 34 0⟩, []⟩ ())), ok ++ [10]]⟩ =
        [some (newSignedMessage (fun _ _ => List.replicate 64 0) (fun _ => [123, 125])
            ⟨⟨Vector.replicate 34 0⟩, []⟩ ()), none].map (receivedItem (fun _ => .ok ())) ++
          [.error .eof] := by
  have hkp : KeyPair.Sound (fun _ => [0, 0]) (fun _ _ => List.replicate 64 0) (fun _ _ _ => true)
      ⟨⟨Vector.replicate 34 0⟩, []⟩ :=
    ⟨by decide +kernel, fun _ => List.length_replicate, fun _ => rfl⟩
  have hitems : ∀ item ∈ [some (newSignedMessage (fun _ _ => List.replicate 64 0)
        (fun _ => [123, 125]) ⟨⟨Vector.replicate 34 0⟩, []⟩ ()), none],
      Written (fun _ => [0, 0]) (fun _ _ => List.replicate 64 0) (fun _ _ _ => true)
        (fun _ => [123, 125]) item := by
    intro item hitem sm hsm
    rw [List.mem_pair] at hitem
    rcases hitem with rfl | rfl
    · cases hsm
      exact ⟨_, (), hkp, by decide, rfl⟩
    · cases hsm
  have hr : Bufio.ChunkReader.Aligned 10 ⟨[signedMessageToLine (some (newSignedMessage
      (fun _ _ => List.replicate 64 0) (fun _ => [123, 125]) ⟨⟨Vector.replicate 34 0⟩, []⟩ ())),
      ok ++ [10]]⟩ := by
    unfold Bufio.ChunkReader.Aligned
    decide +kernel
  exact ⟨hitems, hr, readSignedMessages_of_aligned (fun _ => .ok ()) _ hitems hr rfl⟩

/-- A first read result with bytes after its first line end: the call reads the line, and the
connection moves on to the next read result, so those bytes are lost. -/
theorem readSignedMessage_of_chunk {line extra : List UInt8} (cs : List (List UInt8))
    (hline : 10 ∉ line) (hroom : (line ++ 10 :: extra).length ≤ Bufio.defaultBufSize) :
    readSignedMessage sha3 ed25519Verify decodeMessage ⟨(line ++ 10 :: extra) :: cs⟩ =
      (signedMessageOfLine sha3 ed25519Verify decodeMessage line, ⟨cs⟩) := by
  simp only [readSignedMessage, Bufio.readString_of_chunk cs hline hroom, List.dropLast_concat]

/-- Two nil messages written back to back read back as two nil messages when the connection
delivers each line in a read of its own. When one read delivers both lines, the first call's
reader buffers the second line and is dropped with it, and the second call gets `io.EOF`. -/
theorem read_signed_message_drops_buffered_line :
    readSignedMessages sha3 ed25519Verify decodeMessage 2
        ⟨[signedMessageToLine (none : Option (SignedMessage α)),
          signedMessageToLine (none : Option (SignedMessage α))]⟩ =
      [.ok none, .ok none] ∧
    readSignedMessages sha3 ed25519Verify decodeMessage 2
        ⟨[signedMessageToLine (none : Option (SignedMessage α)) ++
          signedMessageToLine (none : Option (SignedMessage α))]⟩ =
      [.ok none, .error .eof] := by
  have hok : signedMessageOfLine sha3 ed25519Verify decodeMessage ok =
      (.ok none : Except GoError (Option (SignedMessage α))) := if_pos rfl
  have hline : (10 : UInt8) ∉ ok := by decide
  have hshort : (ok ++ [10]).length ≤ Bufio.defaultBufSize := by decide
  have hlong : (ok ++ 10 :: (ok ++ [10])).length ≤ Bufio.defaultBufSize := by decide
  simp only [signedMessageToLine, List.append_assoc, List.singleton_append]
  constructor
  · -- each line in a read of its own: the second call starts at the second read result
    rw [readSignedMessages_succ _ _ _ (readSignedMessage_of_chunk _ _ _ _ hline hshort),
      readSignedMessages_succ _ _ _ (readSignedMessage_of_chunk _ _ _ _ hline hshort),
      readSignedMessages, hok]
  · -- both lines in one read: the second line stays in the first call's buffer, and the
    -- connection has nothing left for the second call
    obtain ⟨r', hend⟩ := readSignedMessage_of_aligned_nil sha3 ed25519Verify decodeMessage (α := α)
      (show Bufio.ChunkReader.Aligned 10 ⟨[]⟩ from fun _ hc => absurd hc List.not_mem_nil) rfl
    rw [readSignedMessages_succ _ _ _ (readSignedMessage_of_chunk _ _ _ _ hline hlong),
      readSignedMessages_succ _ _ _ hend, readSignedMessages, hok]

end Wire

end Coinkit
