import N42.Lib.Bytes

/-!
The data of the consensus crates: hashes, BLS keys and signatures, and the wire messages of the
HotStuff-2 engine. Views and indices are natural numbers; `u64Max` and the two additions say where
the source saturates or wraps.
-/

namespace N42

open Lib

def u64Max : ℕ := 2 ^ 64 - 1

def satAdd (a b : ℕ) : ℕ := min (a + b) u64Max

/-- The release profile's `+` on `u64`, which wraps. -/
def wrapAdd (a b : ℕ) : ℕ := (a + b) % 2 ^ 64

theorem satAdd_le_max (a b : ℕ) : satAdd a b ≤ u64Max := Nat.min_le_right _ _

theorem satAdd_le_add (a b : ℕ) : satAdd a b ≤ a + b := Nat.min_le_left _ _

/-- The order in which a hash map with some entries is iterated over: any order. -/
structure Iteration (α : Type) where
  order : List α → List α
  perm : ∀ entries, (order entries).Perm entries

def Iteration.asListed (α : Type) : Iteration α := ⟨id, List.Perm.refl⟩

abbrev B256 := BitVec 256

abbrev Address := BitVec 160

instance B256.decidableMem (h : B256) (l : List B256) : Decidable (h ∈ l) := inferInstance

def B256.toBytes (h : B256) : Bytes := beBytes 32 h.toNat

@[simp] theorem B256.toBytes_length (h : B256) : (B256.toBytes h).length = 32 := by
  simp [B256.toBytes]

theorem B256.toBytes_injective {a b : B256} (h : B256.toBytes a = B256.toBytes b) : a = b := by
  apply BitVec.eq_of_toNat_eq
  exact beBytes_injective (by simpa using a.isLt) (by simpa using b.isLt) h

/-- The hash function of the execution layer, of which nothing is assumed here. -/
class Keccak where
  keccak256 : Bytes → B256

structure BlsSecretKey where
  scalar : Bytes
deriving DecidableEq

structure BlsPublicKey where
  toBytes : Bytes
deriving DecidableEq

structure BlsSignature where
  toBytes : Bytes
deriving DecidableEq

/-- The two domain-separation tags of `n42_primitives::bls`: `DST` for native
signatures and `H2_V4_DST`, the proof-of-possession suite that gov5 uses. -/
inductive Ciphersuite where
  | native
  | h2V4
deriving DecidableEq

inductive ValidatorChange where
  | add (address : Address) (blsPublicKey : BlsPublicKey) (p2pPeerId : Option String)
  | remove (address : Address)
deriving DecidableEq

/-- The third-party functions the crates call: `blst` behind the BLS wrappers,
`blake3`, `bincode`, and `libp2p`'s peer-id parser. Nothing is assumed of them here;
a result that needs more says so in its hypotheses. -/
class Crypto where
  keyGen : Bytes → BlsSecretKey
  publicKey : BlsSecretKey → BlsPublicKey
  sign : Ciphersuite → BlsSecretKey → Bytes → BlsSignature
  verify : Ciphersuite → BlsPublicKey → Bytes → BlsSignature → Bool
  /-- `blst`'s point check: in the subgroup and not the point at infinity. -/
  validate : BlsPublicKey → Bool
  aggregate : List BlsSignature → Option BlsSignature
  fastAggregateVerify : Ciphersuite → List BlsPublicKey → Bytes → BlsSignature → Bool
  blake3 : Bytes → B256
  serializeChanges : List ValidatorChange → Bytes
  /-- `libp2p::PeerId::from_str` followed by printing: the canonical form, if any. -/
  parsePeerId : String → Option String

structure QuorumCertificate where
  view : ℕ
  blockHash : B256
  aggregateSignature : BlsSignature
  signers : List Bool
deriving DecidableEq

def QuorumCertificate.signerCount (qc : QuorumCertificate) : ℕ := qc.signers.count true

/-- The sentinel certificate of view 0, whose dummy signature is never verified. -/
def QuorumCertificate.genesis [Crypto] : QuorumCertificate where
  view := 0
  blockHash := 0
  -- the message is the ASCII text "genesis"
  aggregateSignature := Crypto.sign .native (Crypto.keyGen (List.replicate 32 1))
    [0x67, 0x65, 0x6e, 0x65, 0x73, 0x69, 0x73]
  signers := []

structure TimeoutCertificate where
  view : ℕ
  aggregateSignature : BlsSignature
  signers : List Bool
  highQc : QuorumCertificate
deriving DecidableEq

structure Proposal where
  view : ℕ
  blockHash : B256
  justifyQc : QuorumCertificate
  proposer : ℕ
  signature : BlsSignature
  prepareQc : Option QuorumCertificate
  txRootHash : Option B256
  validatorChanges : Option (List ValidatorChange)
deriving DecidableEq

structure Vote where
  view : ℕ
  blockHash : B256
  voter : ℕ
  signature : BlsSignature
deriving DecidableEq

structure CommitVote where
  view : ℕ
  blockHash : B256
  voter : ℕ
  signature : BlsSignature
deriving DecidableEq

structure TimeoutMessage where
  view : ℕ
  highQc : QuorumCertificate
  sender : ℕ
  signature : BlsSignature
deriving DecidableEq

structure NewView where
  view : ℕ
  timeoutCert : TimeoutCertificate
  leader : ℕ
  signature : BlsSignature
deriving DecidableEq

structure PrepareQC where
  view : ℕ
  blockHash : B256
  qc : QuorumCertificate
deriving DecidableEq

structure Decide where
  view : ℕ
  blockHash : B256
  commitQc : QuorumCertificate
  validatorChangesHash : B256
deriving DecidableEq

inductive ConsensusMessage where
  | proposal (p : Proposal)
  | vote (v : Vote)
  | commitVote (cv : CommitVote)
  | prepareQc (pqc : PrepareQC)
  | timeout (t : TimeoutMessage)
  | newView (nv : NewView)
  | decide (d : Decide)
deriving DecidableEq

def ConsensusMessage.view : ConsensusMessage → ℕ
  | .proposal p => p.view
  | .vote v => v.view
  | .commitVote cv => cv.view
  | .prepareQc pqc => pqc.view
  | .timeout t => t.view
  | .newView nv => nv.view
  | .decide d => d.view

def ConsensusMessage.qcs : ConsensusMessage → List QuorumCertificate
  | .proposal p => p.justifyQc :: p.prepareQc.toList
  | .prepareQc pqc => [pqc.qc]
  | .timeout t => [t.highQc]
  | .newView nv => [nv.timeoutCert.highQc]
  | .decide d => [d.commitQc]
  | .vote _ => []
  | .commitVote _ => []

def ConsensusMessage.tcs : ConsensusMessage → List TimeoutCertificate
  | .newView nv => [nv.timeoutCert]
  | _ => []

def ConsensusMessage.signature? : ConsensusMessage → Option BlsSignature
  | .proposal p => some p.signature
  | .vote v => some v.signature
  | .commitVote cv => some cv.signature
  | .timeout t => some t.signature
  | .newView nv => some nv.signature
  | .prepareQc _ => none
  | .decide _ => none

/-- `extract_qc_from_message`: the certificate a view jump may rest on. -/
def ConsensusMessage.extractQc : ConsensusMessage → Option QuorumCertificate
  | .proposal p => some p.justifyQc
  | .timeout t => some t.highQc
  | .decide d => some d.commitQc
  | .prepareQc pqc => some pqc.qc
  | .newView nv => some nv.timeoutCert.highQc
  | .vote _ => none
  | .commitVote _ => none

end N42
