import NeroConsensus.Crypto.Keys
import NeroConsensus.Foundations.Codec
import NeroConsensus.Network.ReliableSender
import NeroConsensus.Primary.Vote
import Mathlib.Data.List.Lex

/-!
# Messages on the wire

`broadcast_message` writes a message with `bincode::serialize`, and `dispatch` reads it with
`bincode::deserialize`.  The layout is that of the derived `Serialize` and `Deserialize`: the
fields in the order of their declaration, a tag for an alternative, a length before a sequence,
and for a key, whose `Serialize` is written out, the text of its Base64 form.  The crate `base64`
is a parameter, as in the module on keys.

`bincode::deserialize` accepts bytes after the message.  So a message is read back whatever
follows (`deserialize_serialize`), but no piece of it is read as a message
(`not_deserialize_of_piece`).

A deserializer may also panic, where a key has too few bytes; that is one of the errors here, as
either ends the task that reads.
-/

namespace NeroConsensus

/-- How `bincode::deserialize` fails; `ε` is the error of `base64`. -/
inductive WireError (ε : Type) where
  | unexpectedEof : WireError ε
  | invalidTag : WireError ε
  | invalidUtf8 : WireError ε
  /-- `de::Error::custom`. -/
  | custom : ε → WireError ε
  /-- There is no error, but a panic. -/
  | panic : WireError ε
  deriving DecidableEq

/-- The derived order of `VoteHash`, by the bytes. -/
instance : LinearOrder VoteHash :=
  LinearOrder.lift' (fun h : VoteHash => h.digest.bytes.toList.map UInt8.toNat) <| by
    rintro ⟨⟨a⟩⟩ ⟨⟨b⟩⟩ hab
    have hlist : a.toList = b.toList :=
      List.map_injective_iff.mpr (fun _ _ h => UInt8.toNat_inj.mp h) hab
    exact congrArg (fun v => VoteHash.mk (Digest.mk v)) (Subtype.ext hlist)

namespace Wire

variable {ε : Type}

/-! ## The parts of a message -/

/-- An array of 32 bytes in a tuple struct. -/
def digest : Codec (WireError ε) Digest :=
  (Codec.bytes .unexpectedEof 32).narrow
    (fun bs => (tryInto 32 bs).elim (.error .unexpectedEof) fun array => .ok ⟨array⟩)
    fun d => some d.bytes.toList

/-- A text: its length, and its bytes in UTF-8. -/
def string : Codec (WireError ε) String :=
  (Codec.nat .unexpectedEof 8).andThen (fun s => s.toByteArray.data.toList.length) fun n =>
    (Codec.bytes .unexpectedEof n).narrow
      (fun bs => (String.fromUTF8? ⟨bs.toArray⟩).elim (.error .invalidUtf8) .ok)
      fun s => some s.toByteArray.data.toList

/-- `Serialize` and `Deserialize` of `PublicKey`. -/
def publicKey (B : Base64Crate ε) : Codec (WireError ε) PublicKey :=
  string.narrow
    (fun s => (PublicKey.deserialize B WireError.custom (.ok s)).elim (.error .panic) id)
    fun k => some (k.encodeBase64 B)

def round : Codec (WireError ε) Round := Codec.nat .unexpectedEof 4

def value : Codec (WireError ε) Value :=
  Codec.enum .unexpectedEof .invalidTag [.zero, .one]

def voteType : Codec (WireError ε) VoteType :=
  Codec.enum .unexpectedEof .invalidTag [.initialVote, .commit, .decide]

def voteHash : Codec (WireError ε) VoteHash :=
  digest.narrow (fun d => .ok ⟨d⟩) fun h => some h.digest

def blockHash : Codec (WireError ε) BlockHash :=
  digest.narrow (fun d => .ok ⟨d⟩) fun h => some h.digest

def transaction : Codec (WireError ε) Transaction :=
  digest.narrow (fun d => .ok ⟨d⟩) fun tx => some tx.hash

def proof : Codec (WireError ε) (Option (Finset VoteHash)) :=
  (voteHash.set .unexpectedEof).option .unexpectedEof .invalidTag

/-- The fields of `PrimaryVote` in the order of their declaration. -/
def primaryVote (B : Base64Crate ε) : Codec (WireError ε) PrimaryVote :=
  ((publicKey B).pair (round.pair (value.pair (voteType.pair (proof.pair blockHash))))).narrow
    (fun (signer, round, value, voteType, proof, electionHash) =>
      .ok ⟨signer, round, value, voteType, proof, electionHash⟩)
    fun v => some (v.signer, v.round, v.value, v.voteType, v.proof, v.electionHash)

/-- The number of an alternative of `PrimaryMessage`. -/
def tag : PrimaryMessage → ℕ
  | .sendVote _ => 0
  | .timerExpired _ => 1
  | .transactions _ => 2

/-- What follows the tag. -/
def body (B : Base64Crate ε) : ℕ → Codec (WireError ε) PrimaryMessage
  | 0 => (primaryVote B).narrow (fun v => .ok (.sendVote v)) fun
    | .sendVote v => some v
    | _ => none
  | 1 => (primaryVote B).narrow (fun v => .ok (.timerExpired v)) fun
    | .timerExpired v => some v
    | _ => none
  | 2 => (transaction.list .unexpectedEof).narrow (fun txs => .ok (.transactions txs)) fun
    | .transactions txs => some txs
    | _ => none
  | _ => .fail .invalidTag

def primaryMessage (B : Base64Crate ε) : Codec (WireError ε) PrimaryMessage :=
  (Codec.nat .unexpectedEof 4).andThen tag (body B)

/-- `bincode::serialize`. -/
def serialize (B : Base64Crate ε) (message : PrimaryMessage) : Bytes :=
  (primaryMessage B).write message

/-- `bincode::deserialize`, which takes no notice of what follows the message. -/
def deserialize (B : Base64Crate ε) (bytes : Bytes) : Except (WireError ε) PrimaryMessage :=
  ((primaryMessage B).read bytes).map Prod.fst

/-! ## What is read -/

section Reads

variable {B : Base64Crate ε}

theorem digest_reads : (digest : Codec (WireError ε) Digest).Reads fun _ => True := by
  refine Codec.narrow_reads (Codec.bytes_reads _ 32) fun d _ => ⟨_, rfl, d.bytes.2, ?_⟩
  have harray : tryInto 32 d.bytes.toList = some d.bytes := dif_pos d.bytes.2
  rw [harray]
  rfl

theorem digest_local : (digest : Codec (WireError ε) Digest).Local :=
  Codec.narrow_local (Codec.bytes_local _ 32) _ _

theorem fromUTF8?_toByteArray (s : String) :
    String.fromUTF8? ⟨s.toByteArray.data.toList.toArray⟩ = some s := by
  have hbytes : (⟨s.toByteArray.data.toList.toArray⟩ : ByteArray) = s.toByteArray := rfl
  rw [hbytes, String.fromUTF8?, dif_pos s.isValidUTF8]
  rfl

theorem string_reads : (string : Codec (WireError ε) String).Reads fun s =>
    s.toByteArray.data.toList.length < 256 ^ 8 := by
  refine Codec.andThen_reads (Codec.nat_reads _ 8) (fun n => ?_) fun s hs => hs
  refine Codec.narrow_reads (Codec.bytes_reads _ n) fun s hs => ⟨_, rfl, hs.2, ?_⟩
  rw [fromUTF8?_toByteArray]
  rfl

theorem string_local : (string : Codec (WireError ε) String).Local :=
  Codec.andThen_local (Codec.nat_local _ 8) fun n => Codec.narrow_local (Codec.bytes_local _ n) _ _

theorem length_toByteArray_le (cs : List Char) :
    (String.ofList cs).toByteArray.data.toList.length ≤ 4 * cs.length := by
  rw [String.toByteArray_ofList]
  induction cs with
  | nil => rw [List.utf8Encode_nil]; exact Nat.zero_le _
  | cons c cs ih =>
    have hc := Char.utf8Size_le_four c
    rw [List.utf8Encode_cons, ByteArray.data_append, Array.toList_append, List.length_append,
      List.utf8Encode_singleton, List.data_toByteArray, List.toList_toArray,
      String.length_utf8EncodeChar, List.length_cons]
    omega

/-- The texts of keys are of a length that eight bytes hold. -/
def Short (B : Base64Crate ε) : Prop :=
  ∀ k : PublicKey, (k.encodeBase64 B).toByteArray.data.toList.length < 256 ^ 8

theorem standard_short : Short Base64Crate.standard := by
  intro k
  have hchars : (Base64.encode k.bytes.toList).length ≤ 4 * k.bytes.toList.length :=
    Base64.length_encode_le _
  have hbytes := length_toByteArray_le (Base64.encode k.bytes.toList)
  rw [k.bytes.toList_length] at hchars
  show (String.ofList (Base64.encode k.bytes.toList)).toByteArray.data.toList.length < _
  omega

theorem publicKey_reads (hB : B.RoundTrips) (hshort : Short B) :
    (publicKey B).Reads fun _ => True := by
  refine Codec.narrow_reads string_reads fun k _ => ⟨_, rfl, hshort k, ?_⟩
  rw [PublicKey.deserialize_encodeBase64 hB]
  rfl

theorem publicKey_local (B : Base64Crate ε) : (publicKey B).Local :=
  Codec.narrow_local string_local _ _

theorem round_reads : (round : Codec (WireError ε) Round).Reads fun r => r ≤ u32Max :=
  (Codec.nat_reads _ 4).mono fun r hr => Nat.lt_of_le_pred (by decide) hr

theorem value_reads : (value : Codec (WireError ε) Value).Reads fun _ => True :=
  (Codec.enum_reads _ _ (by decide)).mono fun v _ => by cases v <;> decide

theorem voteType_reads : (voteType : Codec (WireError ε) VoteType).Reads fun _ => True :=
  (Codec.enum_reads _ _ (by decide)).mono fun t _ => by cases t <;> decide

theorem voteHash_reads : (voteHash : Codec (WireError ε) VoteHash).Reads fun _ => True :=
  Codec.narrow_reads digest_reads fun h _ => ⟨h.digest, rfl, trivial, rfl⟩

theorem blockHash_reads : (blockHash : Codec (WireError ε) BlockHash).Reads fun _ => True :=
  Codec.narrow_reads digest_reads fun h _ => ⟨h.digest, rfl, trivial, rfl⟩

theorem transaction_reads : (transaction : Codec (WireError ε) Transaction).Reads fun _ => True :=
  Codec.narrow_reads digest_reads fun tx _ => ⟨tx.hash, rfl, trivial, rfl⟩

theorem proof_reads : (proof : Codec (WireError ε) (Option (Finset VoteHash))).Reads fun o =>
    ∀ s ∈ o, s.card < 256 ^ 8 :=
  (Codec.option_reads _ _ (Codec.set_reads _ voteHash_reads)).mono fun _ ho s hs =>
    ⟨ho s hs, fun _ _ => trivial⟩

theorem proof_local : (proof : Codec (WireError ε) (Option (Finset VoteHash))).Local :=
  Codec.option_local _ _ (Codec.set_local _ (Codec.narrow_local digest_local _ _))

end Reads

/-! ## The messages that fit -/

section Messages

variable {B : Base64Crate ε}

/-- The fields of the vote are within the widths of their types: a round is a `u32`, and a length
a `u64`. -/
structure VoteFits (v : PrimaryVote) : Prop where
  round : v.round ≤ u32Max
  proof : ∀ s ∈ v.proof, s.card < 256 ^ 8

/-- The message is one that the types of the source can hold. -/
def Fits : PrimaryMessage → Prop
  | .sendVote v => VoteFits v
  | .timerExpired v => VoteFits v
  | .transactions txs => txs.length < 256 ^ 8

theorem primaryVote_reads (hB : B.RoundTrips) (hshort : Short B) :
    (primaryVote B).Reads VoteFits :=
  Codec.narrow_reads
    (Codec.pair_reads (publicKey_reads hB hshort) (Codec.pair_reads round_reads
      (Codec.pair_reads value_reads (Codec.pair_reads voteType_reads
        (Codec.pair_reads proof_reads blockHash_reads)))))
    fun v hv => ⟨(v.signer, v.round, v.value, v.voteType, v.proof, v.electionHash), rfl,
      ⟨trivial, hv.round, trivial, trivial, hv.proof, trivial⟩, rfl⟩

theorem primaryVote_local (B : Base64Crate ε) : (primaryVote B).Local :=
  Codec.narrow_local
    (Codec.pair_local (publicKey_local B) (Codec.pair_local (Codec.nat_local _ 4)
      (Codec.pair_local (Codec.enum_local _ _ _) (Codec.pair_local (Codec.enum_local _ _ _)
        (Codec.pair_local proof_local (Codec.narrow_local digest_local _ _)))))) _ _

theorem body_reads (hB : B.RoundTrips) (hshort : Short B) (n : ℕ) :
    (body B n).Reads fun m => Fits m ∧ tag m = n := by
  match n with
  | 0 =>
    rw [body]
    refine Codec.narrow_reads (primaryVote_reads hB hshort) fun m hm => ?_
    cases m with
    | sendVote v => exact ⟨v, rfl, hm.1, rfl⟩
    | timerExpired v => exact absurd hm.2 (by simp [tag])
    | transactions txs => exact absurd hm.2 (by simp [tag])
  | 1 =>
    rw [body]
    refine Codec.narrow_reads (primaryVote_reads hB hshort) fun m hm => ?_
    cases m with
    | sendVote v => exact absurd hm.2 (by simp [tag])
    | timerExpired v => exact ⟨v, rfl, hm.1, rfl⟩
    | transactions txs => exact absurd hm.2 (by simp [tag])
  | 2 =>
    rw [body]
    refine Codec.narrow_reads (Codec.list_reads _ transaction_reads) fun m hm => ?_
    cases m with
    | sendVote v => exact absurd hm.2 (by simp [tag])
    | timerExpired v => exact absurd hm.2 (by simp [tag])
    | transactions txs => exact ⟨txs, rfl, ⟨hm.1, fun _ _ => trivial⟩, rfl⟩
  | n + 3 =>
    intro m hm
    have htag : tag m = n + 3 := hm.2
    cases m <;> rw [tag] at htag <;> omega

theorem body_local (B : Base64Crate ε) (n : ℕ) : (body B n).Local := by
  unfold body
  split
  · exact Codec.narrow_local (primaryVote_local B) _ _
  · exact Codec.narrow_local (primaryVote_local B) _ _
  · exact Codec.narrow_local (Codec.list_local _ (Codec.narrow_local digest_local _ _)) _ _
  · exact Codec.fail_local _

theorem primaryMessage_reads (hB : B.RoundTrips) (hshort : Short B) :
    (primaryMessage B).Reads Fits :=
  Codec.andThen_reads (Codec.nat_reads _ 4) (body_reads hB hshort) fun m _ => by
    cases m <;> rw [tag] <;> decide

theorem primaryMessage_local (B : Base64Crate ε) : (primaryMessage B).Local :=
  Codec.andThen_local (Codec.nat_local _ 4) (body_local B)

theorem round_yields : (round : Codec (WireError ε) Round).Yields fun r => r ≤ u32Max :=
  (Codec.nat_yields _ 4).mono fun _ hr => Nat.le_pred_of_lt hr

theorem proof_yields : (proof : Codec (WireError ε) (Option (Finset VoteHash))).Yields fun o =>
    ∀ s ∈ o, s.card < 256 ^ 8 :=
  (Codec.option_yields _ _ (Codec.set_yields _ (Codec.yields_true voteHash))).mono
    fun _ ho s hs => (ho s hs).1

theorem primaryVote_yields (B : Base64Crate ε) : (primaryVote B).Yields VoteFits := by
  refine Codec.narrow_yields
    (Codec.pair_yields (Codec.yields_true (publicKey B)) (Codec.pair_yields round_yields
      (Codec.pair_yields (Codec.yields_true value) (Codec.pair_yields (Codec.yields_true voteType)
        (Codec.pair_yields proof_yields (Codec.yields_true blockHash)))))) _ fun p v hp hv => ?_
  obtain rfl := Except.ok.inj hv
  exact ⟨hp.2.1, hp.2.2.2.2.1⟩

theorem body_yields (B : Base64Crate ε) (n : ℕ) : (body B n).Yields Fits := by
  unfold body
  split
  · refine Codec.narrow_yields (primaryVote_yields B) _ fun v m hv hm => ?_
    obtain rfl := Except.ok.inj hm
    exact hv
  · refine Codec.narrow_yields (primaryVote_yields B) _ fun v m hv hm => ?_
    obtain rfl := Except.ok.inj hm
    exact hv
  · refine Codec.narrow_yields (Codec.list_yields _ (Codec.yields_true transaction)) _
      fun txs m htxs hm => ?_
    obtain rfl := Except.ok.inj hm
    exact htxs.1
  · exact Codec.fail_yields _ _

theorem primaryMessage_yields (B : Base64Crate ε) : (primaryMessage B).Yields Fits :=
  Codec.andThen_yields (Codec.nat_yields _ 4) fun n _ => body_yields B n

theorem deserialize_append (hB : B.RoundTrips) (hshort : Short B) {m : PrimaryMessage}
    (hm : Fits m) (rest : Bytes) : deserialize B (serialize B m ++ rest) = .ok m := by
  rw [deserialize, serialize, primaryMessage_reads hB hshort m hm rest]
  rfl

theorem read_of_deserialize {bytes : Bytes} {m : PrimaryMessage}
    (h : deserialize B bytes = .ok m) : ∃ rest, (primaryMessage B).read bytes = .ok (m, rest) := by
  rw [deserialize] at h
  cases hread : (primaryMessage B).read bytes with
  | error e => rw [hread] at h; exact nomatch h
  | ok p =>
    rw [hread] at h
    exact ⟨p.2, congrArg (fun m => Except.ok (m, p.2)) (Except.ok.inj h)⟩

/-- **What has been written is read.**  Whatever follows the message in the frame, it is the
message that is read. -/
theorem deserialize_serialize (hB : B.RoundTrips) (hshort : Short B) (m : PrimaryMessage)
    (hm : Fits m) (rest : Bytes) : deserialize B (serialize B m ++ rest) = .ok m :=
  deserialize_append hB hshort hm rest

/-- The message of an authority that commits. -/
def commitMessage : PrimaryMessage :=
  .sendVote (ballot 1 3 .one .commit [0, 1, 2])

theorem commitMessage_fits : Fits commitMessage where
  round := by decide
  proof := by
    rintro s ⟨⟩
    exact (List.toFinset_card_le _).trans_lt (by decide)

theorem deserialize_serialize_commit :
    deserialize Base64Crate.standard (serialize Base64Crate.standard commitMessage ++ [7]) =
      .ok commitMessage :=
  deserialize_serialize Base64Crate.standard_roundTrips standard_short commitMessage
    commitMessage_fits [7]

/-- **A piece of a message is not a message.**  No proper beginning of what has been written is
read, as that message or as another. -/
theorem not_deserialize_of_piece (hB : B.RoundTrips) (hshort : Short B) (m : PrimaryMessage)
    (hm : Fits m) {bytes : Bytes} (hpiece : bytes <+: serialize B m)
    (hne : bytes ≠ serialize B m) (m' : PrimaryMessage) : deserialize B bytes ≠ .ok m' := by
  intro h
  obtain ⟨rest, hread⟩ := read_of_deserialize h
  exact (primaryMessage_reads hB hshort).not_read_of_piece (primaryMessage_local B) hm hpiece hne
    m' rest hread

theorem not_deserialize_dropLast :
    0 < (serialize Base64Crate.standard commitMessage).dropLast.length ∧
      deserialize Base64Crate.standard (serialize Base64Crate.standard commitMessage).dropLast ≠
        .ok commitMessage := by
  have hlength : 1 < (serialize Base64Crate.standard commitMessage).length := by
    decide +kernel
  refine ⟨by rw [List.length_dropLast]; exact Nat.sub_pos_of_lt hlength, ?_⟩
  refine not_deserialize_of_piece Base64Crate.standard_roundTrips standard_short commitMessage
    commitMessage_fits (List.dropLast_prefix _) (fun heq => ?_) commitMessage
  have hshorter := congrArg List.length heq
  rw [List.length_dropLast] at hshorter
  omega

/-- **What is accepted can be passed on.**  Whoever has sent the bytes, a message that is read from
them is one that the types of the source hold, and when it is written again, it is read again. -/
theorem fits_of_deserialize (hB : B.RoundTrips) (hshort : Short B) {bytes : Bytes}
    {m : PrimaryMessage} (h : deserialize B bytes = .ok m) :
    Fits m ∧ ∀ rest, deserialize B (serialize B m ++ rest) = .ok m := by
  obtain ⟨rest, hread⟩ := read_of_deserialize h
  have hfits : Fits m := primaryMessage_yields B bytes m rest hread
  exact ⟨hfits, deserialize_append hB hshort hfits⟩

theorem fits_of_deserialize_commit :
    Fits commitMessage ∧ ∀ rest,
      deserialize Base64Crate.standard (serialize Base64Crate.standard commitMessage ++ rest) =
        .ok commitMessage :=
  fits_of_deserialize Base64Crate.standard_roundTrips standard_short
    (deserialize_append Base64Crate.standard_roundTrips standard_short commitMessage_fits [7])

end Messages

end Wire
end NeroConsensus
