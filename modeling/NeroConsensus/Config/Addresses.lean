import NeroConsensus.Config

/-!
# Where the primaries listen

`Primary::spawn` hands the core the configured addresses of all authorities, its own among them,
and `handle_messages` listens at the configured port, but on the local interface: it replaces the
address by `127.0.0.1`.  So an authority can be reached at its configured address if that is local
(`Local.host_eq`), and at no address of the configuration if none is one that leads to the local
interface (`Remote.host_eq`).  `127.0.0.1` is not the only one that does: so do the unspecified
address and the two as addresses of the other family.
-/

namespace NeroConsensus
namespace Config.Committee

/-- Where `Primary::handle_messages` listens. -/
def listening (com : Committee) (name : PublicKey) : Option SocketAddr :=
  match com.primary name with
  | .ok addresses => some { addresses.transactions with ip := [127, 0, 0, 1] }
  | .error _ => none

/-- An address of four bytes as one of sixteen. -/
def mapped (ip : List UInt8) : List UInt8 :=
  List.replicate 10 0 ++ [255, 255] ++ ip

/-- Where an attempt to connect finds a listener on `127.0.0.1`. -/
def loopback : List (List UInt8) :=
  [[127, 0, 0, 1], [0, 0, 0, 0], mapped [127, 0, 0, 1], mapped [0, 0, 0, 0]]

/-- Where an attempt to connect to an address goes to. -/
def resolved (address : SocketAddr) : SocketAddr :=
  if address.ip ∈ loopback then { address with ip := [127, 0, 0, 1] } else address

/-- The primary that is reached at an address. -/
def host (com : Committee) (address : SocketAddr) : Option PublicKey :=
  com.authorities.keys.find? fun name => com.listening name = some (resolved address)

/-- What `Primary::spawn` gives to the core for `primary_addresses`. -/
def primaryAddresses (com : Committee) (name : PublicKey) : List (PublicKey × SocketAddr) :=
  (com.othersPrimaries name).map fun entry => (entry.1, entry.2.transactions)

/-! ## Who can be reached -/

variable {com : Committee}

/-- Every authority has an address of its own on this machine. -/
structure Local (com : Committee) : Prop where
  ip : ∀ entry ∈ com.authorities.entries, entry.2.primary.transactions.ip = [127, 0, 0, 1]
  distinct : (com.authorities.entries.map fun entry => entry.2.primary).Nodup

/-- No authority has an address that leads to the local interface. -/
def Remote (com : Committee) : Prop :=
  ∀ entry ∈ com.authorities.entries, entry.2.primary.transactions.ip ∉ loopback

instance (com : Committee) : Decidable com.Remote :=
  inferInstanceAs (Decidable (∀ entry ∈ com.authorities.entries, _ ∉ _))

theorem exists_entry_of_primary {name : PublicKey} {p : PrimaryAddresses}
    (h : com.primary name = .ok p) :
    ∃ entry ∈ com.authorities.entries, entry.1 = name ∧ entry.2.primary = p := by
  unfold primary at h
  split at h
  · rename_i authority hlookup
    exact ⟨_, AList.mem_lookup_iff.mp hlookup, rfl, Except.ok.inj h⟩
  · cases h

theorem Local.ip_eq (hlocal : com.Local) {name : PublicKey} {p : PrimaryAddresses}
    (h : com.primary name = .ok p) : p.transactions.ip = [127, 0, 0, 1] := by
  obtain ⟨entry, hentry, -, rfl⟩ := exists_entry_of_primary h
  exact hlocal.ip entry hentry

theorem Local.name_eq (hlocal : com.Local) {name name' : PublicKey} {p : PrimaryAddresses}
    (h : com.primary name = .ok p) (h' : com.primary name' = .ok p) : name = name' := by
  obtain ⟨entry, hentry, rfl, rfl⟩ := exists_entry_of_primary h
  obtain ⟨entry', hentry', rfl, hsame⟩ := exists_entry_of_primary h'
  exact congrArg Sigma.fst
    (List.inj_on_of_nodup_map hlocal.distinct hentry hentry' hsame.symm)

theorem mem_keys_of_primary {name : PublicKey} {p : PrimaryAddresses}
    (h : com.primary name = .ok p) : name ∈ com.authorities.keys :=
  List.mem_toFinset.mp (mem_names_iff_primary.mpr ⟨p, h⟩)

/-- Who is reached at an address has it, up to the replaced part. -/
theorem primary_of_host {address : SocketAddr} {name : PublicKey}
    (h : com.host address = some name) :
    ∃ p, com.primary name = .ok p ∧
      ⟨[127, 0, 0, 1], p.transactions.port⟩ = resolved address := by
  have hlistening : com.listening name = some (resolved address) :=
    of_decide_eq_true (@List.find?_some _
      (fun name => decide (com.listening name = some (resolved address))) _ _ h)
  unfold listening at hlistening
  split at hlistening
  · rename_i p hp
    exact ⟨p, hp, Option.some.inj hlistening⟩
  · cases hlistening

/-- At a local address its authority listens. -/
theorem Local.host_eq (hlocal : com.Local) {name : PublicKey} {p : PrimaryAddresses}
    (h : com.primary name = .ok p) : com.host p.transactions = some name := by
  have hself : resolved p.transactions = p.transactions := by
    rw [resolved, hlocal.ip_eq h, ← hlocal.ip_eq h]
    exact ite_self _
  have hlistening : com.listening name = some p.transactions := by
    rw [listening, h]
    show some ({ p.transactions with ip := [127, 0, 0, 1] } : SocketAddr) = _
    rw [← hlocal.ip_eq h]
  cases hhost : com.host p.transactions with
  | none =>
    have hnone := List.find?_eq_none.mp hhost name (mem_keys_of_primary h)
    rw [hself] at hnone
    exact absurd (decide_eq_true hlistening) hnone
  | some name' =>
    obtain ⟨p', hp', heq⟩ := primary_of_host hhost
    have hsame : p'.transactions = p.transactions := by
      rw [← hself, ← heq, ← hlocal.ip_eq hp']
    have hp : p' = p := congrArg PrimaryAddresses.mk hsame
    exact congrArg some (hlocal.name_eq (hp ▸ hp') h)

/-- The addresses of the core are those of all authorities, its own among them. -/
theorem mem_primaryAddresses {name : PublicKey} {p : PrimaryAddresses}
    (h : com.primary name = .ok p) (myself : PublicKey) :
    p.transactions ∈ (com.primaryAddresses myself).map Prod.snd := by
  obtain ⟨entry, hentry, -, rfl⟩ := exists_entry_of_primary h
  rw [primaryAddresses, othersPrimaries, List.map_map, List.map_map]
  exact List.mem_map.mpr ⟨entry, hentry, rfl⟩

/-- Where no address leads to the local interface, nobody listens at the addresses of the core. -/
theorem Remote.host_eq (hremote : com.Remote) {address : SocketAddr} {myself : PublicKey}
    (h : address ∈ (com.primaryAddresses myself).map Prod.snd) : com.host address = none := by
  rw [primaryAddresses, othersPrimaries, List.map_map, List.map_map] at h
  obtain ⟨entry, hentry, rfl⟩ := List.mem_map.mp h
  by_contra hsome
  obtain ⟨name, hname⟩ := Option.ne_none_iff_exists'.mp hsome
  obtain ⟨p, -, hp⟩ := primary_of_host hname
  have hp : (⟨[127, 0, 0, 1], p.transactions.port⟩ : SocketAddr) =
    resolved entry.2.primary.transactions := hp
  have hfar : entry.2.primary.transactions.ip ∉ loopback := hremote entry hentry
  have hip : entry.2.primary.transactions.ip = [127, 0, 0, 1] := by
    rw [resolved, if_neg hfar] at hp
    exact (congrArg SocketAddr.ip hp).symm
  exact hfar (hip ▸ List.mem_cons_self)

/-- The committees of the concrete runs, on one machine. -/
def ofLocal (authorities : List UInt8) : Committee :=
  { authorities := (authorities.map fun i => (⟨authority i,
      { stake := 1
        primary := ⟨{ ip := [127, 0, 0, 1], port := 4000 + i.toUInt16 }⟩ }⟩ :
          Sigma fun _ : PublicKey => Authority)).toAList }

end Config.Committee
end NeroConsensus
