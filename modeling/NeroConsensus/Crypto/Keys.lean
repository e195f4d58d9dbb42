import NeroConsensus.Crypto
import NeroConsensus.Foundations.Base64
import Mathlib.Data.Vector.Basic

/-!
# Keys as text

`crypto/src/lib.rs`: a key is written as the Base64 text of its bytes, and read from such a text.
The crate `base64` is a parameter, with the one law that a text it has made decodes to the bytes
it was made from; `Base64Crate.standard` is the standard alphabet.

`decode_base64` cuts the decoded bytes to the length of a key before it converts them, and so the
error for a wrong length is never returned: a text of too few bytes is a panic, and the excess of
a text of too many is dropped (`decodesExactly_iff`).  Through `Deserialize` such a text may come
from a message or from a file.
-/

namespace NeroConsensus

/-- The crate `base64`, with `DecodeError` for `ε`. -/
structure Base64Crate (ε : Type) where
  encode : List UInt8 → String
  decode : String → Except ε (List UInt8)
  /-- `DecodeError::InvalidLength`. -/
  invalidLength : ε

namespace Base64Crate

variable {ε : Type} (B : Base64Crate ε)

/-- What is encoded can be decoded. -/
def RoundTrips : Prop := ∀ bytes, B.decode (B.encode bytes) = .ok bytes

/-- The standard alphabet. -/
def standard : Base64Crate String where
  encode bytes := String.ofList (Base64.encode bytes)
  decode s :=
    match Base64.decode s.toList with
    | some bytes => .ok bytes
    | none => .error "invalid text"
  invalidLength := "invalid length"

theorem standard_roundTrips : standard.RoundTrips := by
  intro bytes
  show (match Base64.decode (String.ofList (Base64.encode bytes)).toList with
    | some bytes => Except.ok bytes
    | none => Except.error "invalid text") = .ok bytes
  rw [String.toList_ofList, Base64.decode_encode]

end Base64Crate

/-! ## Decoding -/

/-- `bytes[..n]`, which panics where there are fewer bytes. -/
def sliceTo (n : ℕ) (bytes : List UInt8) : Option (List UInt8) :=
  if n ≤ bytes.length then some (bytes.take n) else none

/-- `try_into`, from a slice to an array. -/
def tryInto (n : ℕ) (bytes : List UInt8) : Option (List.Vector UInt8 n) :=
  if h : bytes.length = n then some ⟨bytes, h⟩ else none

section Decode

variable {ε : Type} {B : Base64Crate ε} {n : ℕ} {s : String} {bytes : List UInt8}

/-- The body of `decode_base64`, for keys of `n` bytes: `none` is a panic. -/
def decodeArray (B : Base64Crate ε) (n : ℕ) (s : String) :
    Option (Except ε (List.Vector UInt8 n)) :=
  match B.decode s with
  | .error e => some (.error e)
  | .ok bytes =>
    (sliceTo n bytes).map fun slice =>
      match tryInto n slice with
      | some array => .ok array
      | none => .error B.invalidLength

theorem decodeArray_of_error {e : ε} (h : B.decode s = .error e) :
    decodeArray B n s = some (.error e) := by
  rw [decodeArray, h]

/-- Too few bytes are a panic. -/
theorem decodeArray_of_lt (h : B.decode s = .ok bytes) (hlength : bytes.length < n) :
    decodeArray B n s = none := by
  simp only [decodeArray, h]
  rw [sliceTo, if_neg (Nat.not_le_of_lt hlength), Option.map_none]

/-- Of too many bytes the first are taken, and the error is not returned. -/
theorem decodeArray_of_le (h : B.decode s = .ok bytes) (hlength : n ≤ bytes.length) :
    ∃ array : List.Vector UInt8 n,
      decodeArray B n s = some (.ok array) ∧ array.toList = bytes.take n := by
  refine ⟨⟨bytes.take n, List.length_take_of_le hlength⟩, ?_, rfl⟩
  simp only [decodeArray, h]
  rw [sliceTo, if_pos hlength, Option.map_some, tryInto,
    dif_pos (List.length_take_of_le hlength)]

end Decode

/-! ## Keys -/

/-- `SecretKey([u8; 64])`. -/
structure SecretKey where
  bytes : List.Vector UInt8 64
  deriving DecidableEq

section Keys

variable {ε : Type} (B : Base64Crate ε)

/-- `PublicKey::encode_base64`. -/
def PublicKey.encodeBase64 (k : PublicKey) : String :=
  B.encode k.bytes.toList

/-- `PublicKey::decode_base64`. -/
def PublicKey.decodeBase64 (s : String) : Option (Except ε PublicKey) :=
  (decodeArray B 32 s).map (Except.map PublicKey.mk)

/-- `SecretKey::encode_base64`. -/
def SecretKey.encodeBase64 (k : SecretKey) : String :=
  B.encode k.bytes.toList

/-- `SecretKey::decode_base64`. -/
def SecretKey.decodeBase64 (s : String) : Option (Except ε SecretKey) :=
  (decodeArray B 64 s).map (Except.map SecretKey.mk)

/-- `deserialize` of both keys: the text, if there is one, is decoded, and an error is made one
of the deserializer. -/
def deserializeKey {δ : Type} {κ : Type} (decodeBase64 : String → Option (Except ε κ))
    (custom : ε → δ) (text : Except δ String) : Option (Except δ κ) :=
  match text with
  | .error e => some (.error e)
  | .ok s => (decodeBase64 s).map (Except.mapError custom)

/-- `PublicKey::deserialize`. -/
def PublicKey.deserialize {δ : Type} (custom : ε → δ) (text : Except δ String) :
    Option (Except δ PublicKey) :=
  deserializeKey (PublicKey.decodeBase64 B) custom text

/-- `SecretKey::deserialize`. -/
def SecretKey.deserialize {δ : Type} (custom : ε → δ) (text : Except δ String) :
    Option (Except δ SecretKey) :=
  deserializeKey (SecretKey.decodeBase64 B) custom text

end Keys

/-! ## What decoding owes -/

section Exactness

variable {ε : Type} {B : Base64Crate ε} {n : ℕ} {κ : Type} {s : String}

/-- The result of decoding, for keys of `n` bytes: no panic; an error where there are no bytes or
not `n` of them; else the key of these bytes.  And a key is only read from the text of all its
bytes. -/
structure DecodesExactly (toArray : κ → List.Vector UInt8 n)
    (decoded : Except ε (List UInt8)) (result : Option (Except ε κ)) : Prop where
  noPanic : result ≠ none
  error : ∀ e, decoded = .error e → ∃ e', result = some (.error e')
  invalidLength : ∀ bytes, decoded = .ok bytes → bytes.length ≠ n →
    ∃ e, result = some (.error e)
  key : ∀ bytes, decoded = .ok bytes → bytes.length = n →
    ∃ k, result = some (.ok k) ∧ (toArray k).toList = bytes
  represented : ∀ k, result = some (.ok k) → decoded = .ok (toArray k).toList

/-- **When decoding is exact**: where there are no bytes, or as many as the key has. -/
theorem decodesExactly_decodeArray_iff {mk : List.Vector UInt8 n → κ}
    {toArray : κ → List.Vector UInt8 n} (hmk : ∀ array, toArray (mk array) = array) :
    DecodesExactly toArray (B.decode s) ((decodeArray B n s).map (Except.map mk)) ↔
      ∀ bytes, B.decode s = .ok bytes → bytes.length = n := by
  constructor
  · intro h bytes hbytes
    by_contra hlength
    obtain ⟨e, he⟩ := h.invalidLength bytes hbytes hlength
    rcases Nat.lt_or_ge bytes.length n with hlt | hle
    · rw [decodeArray_of_lt hbytes hlt] at he
      cases he
    · obtain ⟨array, harray, -⟩ := decodeArray_of_le hbytes hle
      rw [harray] at he
      cases he
  · intro h
    cases hdecode : B.decode s with
    | error e =>
      rw [decodeArray_of_error hdecode]
      exact ⟨nofun, fun _ _ => ⟨e, rfl⟩, nofun, nofun, nofun⟩
    | ok bytes =>
      have hlength := h bytes hdecode
      obtain ⟨array, harray, htoList⟩ := decodeArray_of_le hdecode hlength.ge
      rw [List.take_of_length_le hlength.le] at htoList
      rw [harray]
      refine ⟨nofun, nofun, fun bytes' hbytes' hne => ?_, fun bytes' hbytes' _ => ?_,
        fun k hk => ?_⟩
      · exact absurd (Except.ok.inj hbytes' ▸ hlength) hne
      · refine ⟨_, rfl, ?_⟩
        rw [hmk, htoList]
        exact Except.ok.inj hbytes'
      · rw [← Except.ok.inj (Option.some.inj hk), hmk, htoList]

/-- The text of a key is read as the key. -/
theorem decodeArray_encode (hB : B.RoundTrips) (array : List.Vector UInt8 n) :
    decodeArray B n (B.encode array.toList) = some (.ok array) := by
  obtain ⟨array', harray', htoList⟩ := decodeArray_of_le (hB array.toList) array.toList_length.ge
  rw [List.take_of_length_le array.toList_length.le] at htoList
  rw [harray', Subtype.ext htoList]

/-- The text of a public key is read as the key. -/
theorem PublicKey.decodeBase64_encodeBase64 (hB : B.RoundTrips) (k : PublicKey) :
    PublicKey.decodeBase64 B (k.encodeBase64 B) = some (.ok k) := by
  rw [PublicKey.encodeBase64, PublicKey.decodeBase64, decodeArray_encode hB]
  rfl

/-- The text of a secret key is read as the key. -/
theorem SecretKey.decodeBase64_encodeBase64 (hB : B.RoundTrips) (k : SecretKey) :
    SecretKey.decodeBase64 B (k.encodeBase64 B) = some (.ok k) := by
  rw [SecretKey.encodeBase64, SecretKey.decodeBase64, decodeArray_encode hB]
  rfl

/-- A public key that has been serialized is deserialized as it was. -/
theorem PublicKey.deserialize_encodeBase64 {δ : Type} (hB : B.RoundTrips) (custom : ε → δ)
    (k : PublicKey) : PublicKey.deserialize B custom (.ok (k.encodeBase64 B)) = some (.ok k) := by
  rw [PublicKey.deserialize, deserializeKey, PublicKey.decodeBase64_encodeBase64 hB]
  rfl

/-- A secret key that has been serialized is deserialized as it was. -/
theorem SecretKey.deserialize_encodeBase64 {δ : Type} (hB : B.RoundTrips) (custom : ε → δ)
    (k : SecretKey) : SecretKey.deserialize B custom (.ok (k.encodeBase64 B)) = some (.ok k) := by
  rw [SecretKey.deserialize, deserializeKey, SecretKey.decodeBase64_encodeBase64 hB]
  rfl

/-- **When the decoding of keys is exact.**  The text of a key is read as the key, for both kinds
of keys.  Decoding does what it owes for a text if and only if there are no bytes in the text, or
as many as the key has. -/
theorem decodesExactly_iff (hB : B.RoundTrips) :
    (∀ s, DecodesExactly PublicKey.bytes (B.decode s) (PublicKey.decodeBase64 B s) ↔
        ∀ bytes, B.decode s = .ok bytes → bytes.length = 32) ∧
      (∀ s, DecodesExactly SecretKey.bytes (B.decode s) (SecretKey.decodeBase64 B s) ↔
        ∀ bytes, B.decode s = .ok bytes → bytes.length = 64) ∧
      (∀ k : PublicKey, PublicKey.decodeBase64 B (k.encodeBase64 B) = some (.ok k)) ∧
      ∀ k : SecretKey, SecretKey.decodeBase64 B (k.encodeBase64 B) = some (.ok k) := by
  refine ⟨fun s => ?_, fun s => ?_, PublicKey.decodeBase64_encodeBase64 hB,
    SecretKey.decodeBase64_encodeBase64 hB⟩
  · exact decodesExactly_decodeArray_iff fun _ => rfl
  · exact decodesExactly_decodeArray_iff fun _ => rfl

end Exactness

theorem decodesExactly_iff_standard :
    (∀ s, DecodesExactly PublicKey.bytes (Base64Crate.standard.decode s)
          (PublicKey.decodeBase64 Base64Crate.standard s) ↔
        ∀ bytes, Base64Crate.standard.decode s = .ok bytes → bytes.length = 32) ∧
      (∀ s, DecodesExactly SecretKey.bytes (Base64Crate.standard.decode s)
          (SecretKey.decodeBase64 Base64Crate.standard s) ↔
        ∀ bytes, Base64Crate.standard.decode s = .ok bytes → bytes.length = 64) ∧
      (∀ k : PublicKey, PublicKey.decodeBase64 Base64Crate.standard
        (k.encodeBase64 Base64Crate.standard) = some (.ok k)) ∧
      ∀ k : SecretKey, SecretKey.decodeBase64 Base64Crate.standard
        (k.encodeBase64 Base64Crate.standard) = some (.ok k) :=
  decodesExactly_iff Base64Crate.standard_roundTrips

/-- **Decoding is not exact**: the text of one byte is a panic, and the text of thirty-three is
read as a key of thirty-two. -/
theorem exists_not_decodesExactly :
    ¬DecodesExactly PublicKey.bytes (Base64Crate.standard.decode "AA==")
        (PublicKey.decodeBase64 Base64Crate.standard "AA==") ∧
      ¬DecodesExactly PublicKey.bytes
        (Base64Crate.standard.decode "AAAAAAAAAAAAAAAAAAAAAAAAAAAAAAAAAAAAAAAAAAAA")
        (PublicKey.decodeBase64 Base64Crate.standard
          "AAAAAAAAAAAAAAAAAAAAAAAAAAAAAAAAAAAAAAAAAAAA") := by
  constructor
  · exact fun h => h.noPanic (by decide +kernel)
  · intro h
    have hall := h.represented ⟨List.Vector.replicate 32 0⟩ (by decide +kernel)
    exact absurd hall (by decide +kernel)

end NeroConsensus
