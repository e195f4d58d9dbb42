import NeroConsensus.Crypto.Keys
import NeroConsensus.Foundations.Service

/-!
# Signatures

`crypto/src/lib.rs`: `Signature`, which keeps the sixty-four bytes of an ed25519 signature in two
halves, and `SignatureService`, the task that holds the secret key of a node and signs the digests
it is sent.  The crate `ed25519_dalek` is a parameter.  `Genuine` is what it promises for a key pair
that it has generated, and `VerifiesBatches` what it promises for a batch.

* `signed_of_reachable`: whoever asks the service for a signature gets one that verifies for the
  digest of this very call, however many others ask at the same time, and nobody waits for ever.
* `verifyBatch_of_signed`: what the services of different nodes return for one digest verifies as a
  batch.
-/

namespace NeroConsensus

/-- The crate `ed25519_dalek`, with its key pairs `κ`, public keys `π`, signatures `ς` and errors
`ε`. -/
structure DalekCrate (κ π ς ε : Type) where
  /-- `Keypair::from_bytes`, `none` for an error. -/
  keypairFromBytes : List.Vector UInt8 64 → Option κ
  /-- `Keypair::to_bytes`. -/
  keypairToBytes : κ → List.Vector UInt8 64
  /-- `keypair.public.to_bytes()`. -/
  publicToBytes : κ → List.Vector UInt8 32
  /-- `Signer::sign`, and the bytes of the signature. -/
  sign : κ → List.Vector UInt8 32 → List.Vector UInt8 64
  signatureFromBytes : List.Vector UInt8 64 → Except ε ς
  publicKeyFromBytes : List.Vector UInt8 32 → Except ε π
  verifyStrict : π → List.Vector UInt8 32 → ς → Except ε Unit
  verifyBatch : List (List.Vector UInt8 32) → List ς → List π → Except ε Unit

namespace DalekCrate

variable {κ π ς ε : Type} (D : DalekCrate κ π ς ε)

/-- A generated key pair can be stored and loaded, and its signatures verify. -/
structure Genuine (keypair : κ) : Prop where
  fromBytes : D.keypairFromBytes (D.keypairToBytes keypair) = some keypair
  verifies : ∀ message, ∃ signature key,
    D.signatureFromBytes (D.sign keypair message) = .ok signature ∧
      D.publicKeyFromBytes (D.publicToBytes keypair) = .ok key ∧
      D.verifyStrict key message signature = .ok ()

/-- Signatures of one message that verify one by one verify together. -/
def VerifiesBatches : Prop :=
  ∀ message (pairs : List (ς × π)),
    (∀ p ∈ pairs, D.verifyStrict p.2 message p.1 = .ok ()) →
      D.verifyBatch (pairs.map fun _ => message) (pairs.map Prod.fst) (pairs.map Prod.snd) = .ok ()

/-- The bytes of two halves. -/
def halves (a b : List.Vector UInt8 32) : List.Vector UInt8 64 :=
  ⟨a.toList ++ b.toList, by rw [List.length_append, a.toList_length, b.toList_length]⟩

/-- A crate whose signatures are the message and the public key, and whose secret keys are the
public key twice. -/
def plain : DalekCrate (List.Vector UInt8 32) (List.Vector UInt8 32) (List.Vector UInt8 64)
    String where
  keypairFromBytes bytes := tryInto 32 (bytes.toList.take 32)
  keypairToBytes keypair := halves keypair keypair
  publicToBytes keypair := keypair
  sign keypair message := halves message keypair
  signatureFromBytes bytes := .ok bytes
  publicKeyFromBytes bytes := .ok bytes
  verifyStrict key message signature :=
    if signature = halves message key then .ok () else .error "signature error"
  verifyBatch messages signatures keys :=
    if (messages.zip (signatures.zip keys)).all fun p => p.2.1 = halves p.1 p.2.2 then .ok ()
    else .error "signature error"

theorem plain_genuine (keypair : List.Vector UInt8 32) : plain.Genuine keypair where
  fromBytes := by
    show tryInto 32 ((keypair.toList ++ keypair.toList).take 32) = some keypair
    rw [List.take_left' keypair.toList_length]
    exact dif_pos keypair.toList_length
  verifies message := ⟨_, _, rfl, rfl, if_pos rfl⟩

theorem plain_verifyStrict {key message : List.Vector UInt8 32}
    {signature : List.Vector UInt8 64} :
    plain.verifyStrict key message signature = .ok () ↔ signature = halves message key := by
  simp [plain]

theorem plain_verifiesBatches : plain.VerifiesBatches := by
  intro message pairs hpairs
  refine if_pos (List.all_eq_true.mpr ?_)
  intro p hp
  rw [List.zip_map', List.zip_map'] at hp
  obtain ⟨pair, hpair, rfl⟩ := List.mem_map.mp hp
  exact decide_eq_true (plain_verifyStrict.mp (hpairs pair hpair))

end DalekCrate

section Crate

variable {κ π ς ε : Type} (D : DalekCrate κ π ς ε)

/-- `generate_keypair`, from the key pair that dalek generates. -/
def generateKeypair (keypair : κ) : PublicKey × SecretKey :=
  (⟨D.publicToBytes keypair⟩, ⟨D.keypairToBytes keypair⟩)

structure Signature where
  part1 : List.Vector UInt8 32
  part2 : List.Vector UInt8 32
  deriving DecidableEq

namespace Signature

/-- `Signature::new`: `none` is a panic. -/
def new (digest : Digest) (secret : SecretKey) : Option Signature := do
  let keypair ← D.keypairFromBytes secret.bytes
  let sig := (D.sign keypair digest.bytes).toList
  let part1 ← tryInto 32 (sig.take 32)
  let part2 ← tryInto 32 ((sig.take 64).drop 32)
  return { part1 := part1, part2 := part2 }

/-- `Signature::flatten`. -/
def flatten (signature : Signature) : Option (List.Vector UInt8 64) :=
  tryInto 64 (signature.part1.toList ++ signature.part2.toList)

/-- `Signature::verify`. -/
def verify (signature : Signature) (digest : Digest) (publicKey : PublicKey) :
    Option (Except ε Unit) :=
  signature.flatten.map fun bytes => do
    let signature ← D.signatureFromBytes bytes
    let key ← D.publicKeyFromBytes publicKey.bytes
    D.verifyStrict key digest.bytes signature

/-- The loop of `verify_batch`: the signatures and the keys, up to the first error. -/
def collect : List (PublicKey × Signature) → Option (Except ε (List (ς × π)))
  | [] => some (.ok [])
  | (key, sig) :: votes =>
    match sig.flatten with
    | none => none
    | some bytes =>
      match D.signatureFromBytes bytes with
      | .error e => some (.error e)
      | .ok signature =>
        match D.publicKeyFromBytes key.bytes with
        | .error e => some (.error e)
        | .ok key => (collect votes).map (Except.map fun pairs => (signature, key) :: pairs)

/-- `Signature::verify_batch`. -/
def verifyBatch (digest : Digest) (votes : List (PublicKey × Signature)) :
    Option (Except ε Unit) :=
  (collect D votes).map fun collected => do
    let pairs ← collected
    D.verifyBatch (pairs.map fun _ => digest.bytes) (pairs.map Prod.fst) (pairs.map Prod.snd)

end Signature

/-! ## The service -/

/-- The state of the task: how many digests it has signed, and what it has sent back. -/
structure SignatureTask where
  received : ℕ
  replies : List (ℕ × Signature)

/-- The state in which the task is spawned. -/
def SignatureTask.new : SignatureTask := { received := 0, replies := [] }

/-- `SignatureService::new`, with what `request_signature` does with its channel. -/
def signatureService (secret : SecretKey) : Service SignatureTask Digest Signature where
  step s digest := (Signature.new D digest secret).map fun signature =>
    { received := s.received + 1
      replies := s.replies ++ [(s.received, signature)] }
  replies := SignatureTask.replies
  awaits _ := true
  capacity := 100

/-- The answer to a request: the signature of its digest. -/
def signatureOf (secret : SecretKey) (digests : List Digest) (n : ℕ) : Option Signature :=
  digests[n]?.bind fun digest => Signature.new D digest secret

/-- The task has answered the digests it has been sent, one after the other. -/
structure Signed (secret : SecretKey) (digests : List Digest) (s : SignatureTask) : Prop where
  received : s.received = digests.length
  replies : ∀ n sig, (n, sig) ∈ s.replies ↔ signatureOf D secret digests n = some sig

end Crate

section Signing

variable {κ π ς ε : Type} {D : DalekCrate κ π ς ε} {secret : SecretKey} {keypair : κ}
  {digest : Digest}

theorem exists_tryInto {n : ℕ} {bytes : List UInt8} (h : bytes.length = n) :
    ∃ array, tryInto n bytes = some array ∧ array.toList = bytes :=
  ⟨⟨bytes, h⟩, dif_pos h, rfl⟩

/-- The two halves are put together again. -/
theorem Signature.exists_new (hkey : D.keypairFromBytes secret.bytes = some keypair)
    (digest : Digest) : ∃ sig, Signature.new D digest secret = some sig ∧
      sig.flatten = some (D.sign keypair digest.bytes) := by
  have hlength := (D.sign keypair digest.bytes).toList_length
  obtain ⟨part1, hpart1, hfirst⟩ := exists_tryInto
    (show ((D.sign keypair digest.bytes).toList.take 32).length = 32 by simp)
  obtain ⟨part2, hpart2, hsecond⟩ := exists_tryInto
    (show (((D.sign keypair digest.bytes).toList.take 64).drop 32).length = 32 by simp)
  refine ⟨⟨part1, part2⟩, ?_, ?_⟩
  · simp [new, hkey, hpart1, hpart2]
  · have hall : part1.toList ++ part2.toList = (D.sign keypair digest.bytes).toList := by
      rw [hfirst, hsecond, List.take_of_length_le hlength.le, List.take_append_drop]
    obtain ⟨array, harray, hbytes⟩ := exists_tryInto hlength
    rw [flatten, hall, harray, Option.some_inj]
    exact List.Vector.eq _ _ hbytes

theorem generateKeypair_secret (hgenuine : D.Genuine keypair) :
    D.keypairFromBytes (generateKeypair D keypair).2.bytes = some keypair :=
  hgenuine.fromBytes

/-- What a generated key has signed is read back and verifies. -/
theorem Signature.exists_verifyStrict (hgenuine : D.Genuine keypair) {sig : Signature}
    (hnew : Signature.new D digest (generateKeypair D keypair).2 = some sig) :
    ∃ signature key, sig.flatten = some (D.sign keypair digest.bytes) ∧
      D.signatureFromBytes (D.sign keypair digest.bytes) = .ok signature ∧
      D.publicKeyFromBytes (generateKeypair D keypair).1.bytes = .ok key ∧
      D.verifyStrict key digest.bytes signature = .ok () := by
  obtain ⟨sig', hsig', hflatten⟩ := exists_new (generateKeypair_secret hgenuine) digest
  obtain rfl := Option.some.inj (hsig'.symm.trans hnew)
  obtain ⟨signature, key, hsignature, hpublic, hverify⟩ := hgenuine.verifies digest.bytes
  exact ⟨signature, key, hflatten, hsignature, hpublic, hverify⟩

theorem Signature.verify_new (hgenuine : D.Genuine keypair) {sig : Signature}
    (hnew : Signature.new D digest (generateKeypair D keypair).2 = some sig) :
    sig.verify D digest (generateKeypair D keypair).1 = some (.ok ()) := by
  obtain ⟨signature, key, hflatten, hsignature, hpublic, hverify⟩ :=
    exists_verifyStrict hgenuine hnew
  rw [verify, hflatten, Option.map_some, hsignature, hpublic]
  exact congrArg some hverify

theorem Signed.step {digests : List Digest} {s : SignatureTask} (h : Signed D secret digests s)
    {sig : Signature} (hnew : Signature.new D digest secret = some sig) :
    Signed D secret (digests ++ [digest])
      { received := s.received + 1, replies := s.replies ++ [(s.received, sig)] } := by
  refine ⟨by simp [h.received], fun n r => ?_⟩
  rw [List.mem_append, h.replies, List.mem_singleton, Prod.mk.injEq, h.received, signatureOf,
    signatureOf]
  rcases Nat.lt_trichotomy n digests.length with hlt | rfl | hgt
  · simp [List.getElem?_append_left hlt, hlt.ne]
  · simp [hnew, eq_comm]
  · have hnone : (digests ++ [digest])[n]? = none :=
      List.getElem?_eq_none (by rw [List.length_append, List.length_singleton]; omega)
    simp [List.getElem?_eq_none hgt.le, hnone, hgt.ne']

theorem signatureService_implements (D : DalekCrate κ π ς ε) (secret : SecretKey) :
    (signatureService D secret).Implements .new
      (signatureOf D secret) (Signed D secret) where
  init := ⟨rfl, fun n sig => by simp [signatureOf, SignatureTask.new]⟩
  step h hstep := by
    obtain ⟨sig, hnew, rfl⟩ := Option.map_eq_some_iff.mp hstep
    exact h.step hnew
  replies h := h.replies _ _
  append digest hanswer := by
    obtain ⟨d, hd, hnew⟩ := Option.bind_eq_some_iff.mp hanswer
    have hlt := (List.getElem?_eq_some_iff.mp hd).1
    rw [signatureOf, List.getElem?_append_left hlt, hd]
    exact hnew

variable {f : Service.Office SignatureTask Digest Signature}

section Runs

variable (hgenuine : D.Genuine keypair)
  (hreach : (signatureService D (generateKeypair D keypair).2).machine.Reachable
    (.start .new) f)

include hgenuine

/-- The task does not panic. -/
theorem signatureService_step (s : SignatureTask) (digest : Digest) :
    (signatureService D (generateKeypair D keypair).2).step s digest ≠ none := by
  obtain ⟨sig, hsig, -⟩ := Signature.exists_new (generateKeypair_secret hgenuine) digest
  intro hstep
  rw [signatureService, Option.map_eq_none_iff, hsig] at hstep
  cases hstep

include hreach

/-- What a call returns is a signature of its digest. -/
theorem verify_of_returned {a : Service.Call Digest Signature} (ha : a ∈ f.calls) {t : ℕ}
    {o : Option Signature} (hended : a.ended = some (t, .returned o)) : ∃ sig, o = some sig ∧
      sig.verify D a.request (generateKeypair D keypair).1 = some (.ok ()) := by
  have hexplained := Service.explained_of_reachable
    (signatureService_implements D (generateKeypair D keypair).2) hreach
  obtain ⟨n, m, hn, hnm, -, ⟨hsome, hanswer⟩, -⟩ := hexplained.returned a ha t o hended
  obtain ⟨sig, rfl⟩ := Option.isSome_iff_exists.mp hsome
  refine ⟨sig, rfl, ?_⟩
  have hsig := hanswer.symm
  rw [signatureOf, List.getElem?_take_of_lt hnm, hexplained.request a ha n hn,
    Option.bind_some] at hsig
  exact Signature.verify_new hgenuine hsig

end Runs

/-- **Everybody gets the signature of its own digest.**  In every run of the service with a key that
has been generated: no call panics, what a call returns is a signature that verifies for the digest
of this call, and where nothing can go on, no call is left. -/
theorem signed_of_reachable (hgenuine : D.Genuine keypair)
    (hreach : (signatureService D (generateKeypair D keypair).2).machine.Reachable
      (.start .new) f) :
    (∀ a ∈ f.calls, ∀ t, a.ended ≠ some (t, .panicked)) ∧
      (∀ a ∈ f.calls, ∀ t o, a.ended = some (t, .returned o) → ∃ sig, o = some sig ∧
        sig.verify D a.request (generateKeypair D keypair).1 = some (.ok ())) ∧
      (Service.Idle (signatureService D (generateKeypair D keypair).2) f →
        ∀ a ∈ f.calls, a.ended ≠ none) := by
  have himp := signatureService_implements D (generateKeypair D keypair).2
  have hsteady : ∀ {rs : List Digest} {s : SignatureTask} {q : Digest},
      Signed D (generateKeypair D keypair).2 rs s →
        (signatureService D (generateKeypair D keypair).2).step s q ≠ none :=
    fun _ => signatureService_step hgenuine _ _
  refine ⟨(himp.steady hsteady hreach).2, fun a ha t o hended =>
    verify_of_returned hgenuine hreach ha hended, fun hidle a ha hopen => ?_⟩
  obtain ⟨-, n, -, hn, hnone⟩ :=
    himp.waits_of_idle hsteady hreach Nat.succ_pos' hidle ha hopen
  obtain ⟨sig, hsig, -⟩ := Signature.exists_new (generateKeypair_secret hgenuine) a.request
  rw [signatureOf, hn, Option.bind_some, hsig] at hnone
  cases hnone

/-- Thirty-two bytes of a concrete run. -/
def bytesOf (i : UInt8) : List.Vector UInt8 32 := List.Vector.replicate 32 i

/-- The service of a node of a concrete run. -/
def nodeService (i : UInt8) : Service SignatureTask Digest Signature :=
  signatureService .plain (generateKeypair .plain (bytesOf i)).2

/-- Two clients ask for signatures at the same time. -/
def twoRequests : List (Service.Action Digest) :=
  [.call ⟨bytesOf 3⟩, .call ⟨bytesOf 4⟩, .send 1, .send 0, .serve, .serve, .finish 0, .finish 1]

theorem signed_of_reachable_twoRequests :
    (∀ a ∈ ((nodeService 1).machine.run (.start .new) twoRequests).calls, ∀ t,
        a.ended ≠ some (t, .panicked)) ∧
      (∀ a ∈ ((nodeService 1).machine.run (.start .new) twoRequests).calls, ∀ t o,
        a.ended = some (t, .returned o) → ∃ sig, o = some sig ∧
          sig.verify .plain a.request (generateKeypair .plain (bytesOf 1)).1 = some (.ok ())) ∧
      (Service.Idle (nodeService 1) ((nodeService 1).machine.run (.start .new) twoRequests) →
        ∀ a ∈ ((nodeService 1).machine.run (.start .new) twoRequests).calls, a.ended ≠ none) :=
  signed_of_reachable (DalekCrate.plain_genuine (bytesOf 1))
    (GuardedMachine.reachable_run twoRequests (by decide +kernel))

/-! ## Batches -/

theorem Signature.exists_of_verify {sig : Signature} {key : PublicKey}
    (h : sig.verify D digest key = some (.ok ())) : ∃ bytes signature k,
      sig.flatten = some bytes ∧ D.signatureFromBytes bytes = .ok signature ∧
        D.publicKeyFromBytes key.bytes = .ok k ∧
        D.verifyStrict k digest.bytes signature = .ok () := by
  obtain ⟨bytes, hbytes, hverify⟩ := Option.map_eq_some_iff.mp h
  cases hsignature : D.signatureFromBytes bytes with
  | error e =>
    rw [hsignature] at hverify
    cases hverify
  | ok signature =>
    cases hkey : D.publicKeyFromBytes key.bytes with
    | error e =>
      rw [hsignature, hkey] at hverify
      cases hverify
    | ok k =>
      rw [hsignature, hkey] at hverify
      exact ⟨bytes, signature, k, hbytes, hsignature, hkey ▸ rfl, hverify⟩

/-- Votes that verify one by one are all collected. -/
theorem Signature.exists_collect {votes : List (PublicKey × Signature)}
    (hvotes : ∀ v ∈ votes, v.2.verify D digest v.1 = some (.ok ())) :
    ∃ pairs, collect D votes = some (.ok pairs) ∧
      ∀ p ∈ pairs, D.verifyStrict p.2 digest.bytes p.1 = .ok () := by
  induction votes with
  | nil => exact ⟨[], rfl, fun p hp => absurd hp List.not_mem_nil⟩
  | cons vote votes ih =>
    obtain ⟨bytes, signature, k, hbytes, hsignature, hkey, hverify⟩ :=
      exists_of_verify (hvotes vote List.mem_cons_self)
    obtain ⟨pairs, hpairs, hall⟩ := ih fun v hv => hvotes v (List.mem_cons_of_mem _ hv)
    refine ⟨(signature, k) :: pairs, ?_, fun p hp => ?_⟩
    · simp [collect, hbytes, hsignature, hkey, hpairs, Except.map]
    · rcases List.mem_cons.mp hp with rfl | hp
      · exact hverify
      · exact hall p hp

/-- **What the services of different nodes return for a digest verifies as a batch.** -/
theorem verifyBatch_of_signed (hbatch : D.VerifiesBatches)
    {votes : List (PublicKey × Signature)}
    (hvotes : ∀ v ∈ votes, ∃ keypair f, D.Genuine keypair ∧
      v.1 = (generateKeypair D keypair).1 ∧
      (signatureService D (generateKeypair D keypair).2).machine.Reachable (.start .new) f ∧
      ∃ a ∈ f.calls, ∃ t, a.request = digest ∧ a.ended = some (t, .returned (some v.2))) :
    Signature.verifyBatch D digest votes = some (.ok ()) := by
  have hall : ∀ v ∈ votes, v.2.verify D digest v.1 = some (.ok ()) := by
    intro v hv
    obtain ⟨keypair, f, hgenuine, hkey, hreach, a, ha, t, hrequest, hended⟩ := hvotes v hv
    obtain ⟨sig, hsig, hverify⟩ := verify_of_returned hgenuine hreach ha hended
    rw [hkey, Option.some.inj hsig, ← hrequest]
    exact hverify
  obtain ⟨pairs, hpairs, hverified⟩ := Signature.exists_collect hall
  rw [Signature.verifyBatch, hpairs, Option.map_some]
  exact congrArg some (hbatch digest.bytes pairs hverified)

/-- The signature of a node of a concrete run. -/
def signatureBy (i : UInt8) (digest : Digest) : Signature :=
  { part1 := digest.bytes, part2 := bytesOf i }

/-- One client asks for a signature. -/
def oneRequest : List (Service.Action Digest) :=
  [.call ⟨bytesOf 5⟩, .send 0, .serve, .finish 0]

/-- The call of that client, at the node `i`. -/
def oneCall (i : UInt8) : Service.Call Digest Signature :=
  { request := ⟨bytesOf 5⟩
    made := 0
    number := some 0
    ended := some (3, .returned (some (signatureBy i ⟨bytesOf 5⟩))) }

theorem oneRequest_spec : ∀ i ∈ [(1 : UInt8), 2],
    (nodeService i).machine.Legal (.start .new) oneRequest ∧
      ((nodeService i).machine.run (.start .new) oneRequest).calls = [oneCall i] := by
  decide +kernel

theorem verifyBatch_of_signed_pair :
    Signature.verifyBatch .plain ⟨bytesOf 5⟩
      ([1, 2].map fun i => (⟨bytesOf i⟩, signatureBy i ⟨bytesOf 5⟩)) = some (.ok ()) := by
  refine verifyBatch_of_signed DalekCrate.plain_verifiesBatches fun v hv => ?_
  obtain ⟨i, hi, rfl⟩ := List.mem_map.mp hv
  obtain ⟨hlegal, hcalls⟩ := oneRequest_spec i hi
  exact ⟨bytesOf i, _, DalekCrate.plain_genuine (bytesOf i), rfl,
    GuardedMachine.reachable_run _ hlegal, oneCall i, hcalls ▸ List.mem_singleton_self _, 3, rfl,
    rfl⟩

end Signing

end NeroConsensus
