import NeroConsensus.Crypto
import Mathlib.Data.Finset.Basic
import Mathlib.Data.Finset.Option

/-!
# Votes

`primary/src/general.rs`, `primary/src/vote.rs` and the live part of
`primary/src/messages.rs`: the constants of the protocol, the vote with its proof,
and the messages primaries exchange.

## What is a parameter

Two things are not fixed here.  `NUMBER_OF_BYZANTINE_NODES` is `1` in the source
and every other constant is derived from it, so it is a field of `Params` and the
others are functions of it.  SHA-512 is the other field: `PrimaryVote::digest`
feeds the hasher the signer's key and nothing else --- the updates with the round,
the value and the type are commented out --- and keeps the first thirty-two bytes,
so `sha512` stands for that function of the key.  Nothing is assumed about it in
the definitions; a statement that needs two signers to have two digests says so.

## Rounds

A round is a `u32`.  It is a natural number here, and the one addition the code
makes on it is `Round.next`, which fails where the `u32` addition overflows.
-/

namespace NeroConsensus

/-! ## General -/

/-- The compile-time constant and the hash function. -/
structure Params where
  /-- `NUMBER_OF_BYZANTINE_NODES`. -/
  numberOfByzantineNodes : ℕ
  /-- The first thirty-two bytes of the SHA-512 of a public key. -/
  sha512 : PublicKey → Digest

namespace Params

variable (P : Params)

/-- `NUMBER_OF_TOTAL_NODES`. -/
def numberOfTotalNodes : ℕ := 3 * P.numberOfByzantineNodes + 1

/-- `QUORUM`. -/
def quorum : ℕ := 2 * P.numberOfByzantineNodes + 1

/-- `SEMI_QUORUM`. -/
def semiQuorum : ℕ := P.numberOfByzantineNodes + 1

theorem quorum_pos : 0 < P.quorum := Nat.succ_pos _

theorem semiQuorum_pos : 0 < P.semiQuorum := Nat.succ_pos _

theorem semiQuorum_le_quorum : P.semiQuorum ≤ P.quorum := by
  rw [semiQuorum, quorum]
  omega

end Params

/-- `Round(pub u32)`. -/
abbrev Round := ℕ

/-- The largest `u32`. -/
def u32Max : ℕ := 2 ^ 32 - 1

/-- `Round(round.0 + 1)`, which panics on overflow. -/
def Round.next (round : Round) : Option Round :=
  if round < u32Max then some (round + 1) else none

/-- `BlockHash(pub Digest)`, the name of an election. -/
structure BlockHash where
  digest : Digest
  deriving DecidableEq

/-- `Transaction`, of which only the digest is left. -/
structure Transaction where
  hash : Digest
  deriving DecidableEq

/-- `Transaction::digest`. -/
def Transaction.digest (tx : Transaction) : BlockHash := ⟨tx.hash⟩

/-! ## The vote -/

/-- `VoteHash(pub D)`. -/
structure VoteHash where
  digest : Digest
  deriving DecidableEq

inductive VoteType where
  | initialVote : VoteType
  | commit : VoteType
  | decide : VoteType
  deriving DecidableEq

inductive Value where
  | zero : Value
  | one : Value
  deriving DecidableEq

structure Decision where
  value : Value
  voteType : VoteType
  deriving DecidableEq

/-- The value `gen_range(0..2)` selects: the draw is `1` exactly when it is `true`. -/
def Value.ofDraw (draw : Bool) : Value := if draw then .one else .zero

/-- `Decision::random`, from its two draws.  It never yields a `Decide`. -/
def Decision.random (draw : Bool × Bool) : Decision :=
  { value := Value.ofDraw draw.1
    voteType := if draw.2 then .commit else .initialVote }

/-- `PrimaryVote`.  The proof is the set of hashes of the votes of the round before
that justify the vote; a vote of round 0 has none. -/
@[ext] structure PrimaryVote where
  signer : PublicKey
  round : Round
  value : Value
  voteType : VoteType
  proof : Option (Finset VoteHash)
  electionHash : BlockHash

namespace PrimaryVote

/-- Field by field, so that it evaluates on sets that are listed in different orders. -/
instance : DecidableEq PrimaryVote := fun a b =>
  decidable_of_iff (a.signer = b.signer ∧ a.round = b.round ∧ a.value = b.value ∧
      a.voteType = b.voteType ∧ a.proof = b.proof ∧ a.electionHash = b.electionHash)
    ⟨fun h => PrimaryVote.ext h.1 h.2.1 h.2.2.1 h.2.2.2.1 h.2.2.2.2.1 h.2.2.2.2.2,
      fun h => h ▸ ⟨rfl, rfl, rfl, rfl, rfl, rfl⟩⟩

/-- `PrimaryVote::random`, from its draw. -/
def random (signer : PublicKey) (electionHash : BlockHash) (draw : Bool) : PrimaryVote :=
  { signer := signer
    round := 0
    value := Value.ofDraw draw
    voteType := .initialVote
    proof := none
    electionHash := electionHash }

/-- `PrimaryVote::new`. -/
def new (signer : PublicKey) (round : Round) (value : Value) (voteType : VoteType)
    (proof : Option (Finset VoteHash)) (electionHash : BlockHash) : PrimaryVote :=
  { signer, round, value, voteType, proof, electionHash }

/-- `Hash::digest` for `PrimaryVote`: it covers the signer alone. -/
def digest (P : Params) (vote : PrimaryVote) : Digest := P.sha512 vote.signer

/-- `VoteHash(vote.digest())`. -/
def voteHash (P : Params) (vote : PrimaryVote) : VoteHash := ⟨vote.digest P⟩

end PrimaryVote

/-- The key under which the votes of one signer are stored. -/
def PublicKey.voteHash (P : Params) (signer : PublicKey) : VoteHash := ⟨P.sha512 signer⟩

theorem PrimaryVote.voteHash_eq (P : Params) (vote : PrimaryVote) :
    vote.voteHash P = vote.signer.voteHash P := rfl

/-- Distinct digests mean distinct keys. -/
theorem PublicKey.voteHash_injective {P : Params} (h : Function.Injective P.sha512) :
    Function.Injective (PublicKey.voteHash P) := by
  intro a b hab
  exact h (VoteHash.mk.inj hab)

inductive ValidationStatus where
  | valid : ValidationStatus
  | invalid : ValidationStatus
  | pending : ValidationStatus
  deriving DecidableEq

/-! ## The committee of the source

Concrete values for the runs that are evaluated: one Byzantine node is tolerated, as
in the source, and the hash keeps the bytes of the key, so that distinct keys have
distinct digests. -/

namespace Params

def source : Params :=
  { numberOfByzantineNodes := 1
    sha512 := fun signer => ⟨signer.bytes⟩ }

theorem source_pos : 0 < source.numberOfByzantineNodes := Nat.one_pos

theorem source_injective : Function.Injective source.sha512 := by
  rintro ⟨a⟩ ⟨b⟩ hab
  exact congrArg PublicKey.mk (Digest.mk.inj hab)

end Params

/-- The key of the `i`-th authority. -/
def authority (i : UInt8) : PublicKey := ⟨List.Vector.replicate 32 i⟩

/-- The hashes of the votes of some authorities. -/
def hashes (authorities : List UInt8) : Finset VoteHash :=
  (authorities.map fun i => (authority i).voteHash Params.source).toFinset

/-- The block all the concrete runs are about. -/
def block : BlockHash := ⟨⟨List.Vector.replicate 32 0⟩⟩

/-- The vote of an authority in round 0. -/
def firstBallot (i : UInt8) (value : Value) : PrimaryVote :=
  PrimaryVote.new (authority i) 0 value .initialVote none block

/-- The vote of an authority in a later round, resting on the votes of some others. -/
def ballot (i : UInt8) (round : Round) (value : Value) (voteType : VoteType)
    (authorities : List UInt8) : PrimaryVote :=
  PrimaryVote.new (authority i) round value voteType (some (hashes authorities)) block

/-! ## Messages -/

/-- `std::net::SocketAddr`. -/
structure SocketAddr where
  ip : List UInt8
  port : UInt16
  deriving DecidableEq

/-- `PrimaryMessage`. -/
inductive PrimaryMessage where
  | sendVote : PrimaryVote → PrimaryMessage
  | timerExpired : PrimaryVote → PrimaryMessage
  | transactions : List Transaction → PrimaryMessage
  deriving DecidableEq

end NeroConsensus
