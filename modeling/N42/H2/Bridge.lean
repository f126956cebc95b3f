import N42.H2.Envelope

/-!
Conversion between native consensus messages and the H2-v4 schema (`n42-network/src/h2_bridge.rs`).
-/

namespace N42.H2

open Lib

inductive H2BridgeError where
  | nonZeroChangesHash
  | invalidBitmap
  | invalidAggregateSignature
  | validatorChangesUnsupported
deriving DecidableEq

variable (signers : List Bool)

def setIndices : List ℕ :=
  (signers.zipIdx.filter Prod.fst).map Prod.snd

/-- The bits in bytes, the lowest bit of a byte first. -/
def packBits : Bytes :=
  ((setIndices signers).foldl Bitfield.setBit
    (List.replicate ((signers.length + 7) / 8) 0)).map UInt8.ofBitVec

def nativeBitmapToH2 : Except H2BridgeError Bytes :=
  if signers.length ≥ 2 ^ 16 then .error .invalidBitmap
  else if signers.length = 0 then .ok []
  else .ok (leBytes 2 signers.length ++ packBits signers)

def bitAt (bytes : Bytes) (index : ℕ) : Bool :=
  Bitfield.hasBit (bytes.getD (index / 8) 0).toBitVec (index % 8)

def h2BitmapToNative (encoded : Bytes) : Except H2BridgeError (List Bool) :=
  match encoded with
  | [] => .ok []
  | [_] => .error .invalidBitmap
  | lo :: hi :: rest =>
    let count := leNat [lo, hi]
    if count = 0 ∨ rest.length ≠ (count + 7) / 8 then .error .invalidBitmap
    else if hasUnusedBits count (rest.getLastD 0) then .error .invalidBitmap
    else .ok ((List.range count).map (bitAt rest))

/-- A certificate that the bridge takes for the genesis certificate. -/
def isGenesisSentinel (qc : QuorumCertificate) : Bool :=
  qc.view = 0 ∧ qc.blockHash = 0 ∧ qc.signers.all (! ·) = true

def qcToH2 (qc : QuorumCertificate) : Except H2BridgeError H2QuorumCertificate :=
  if isGenesisSentinel qc then .ok ⟨0, 0, [], []⟩
  else do
    let signersBitmap ← nativeBitmapToH2 qc.signers
    return ⟨BitVec.ofNat 64 qc.view, qc.blockHash, qc.aggregateSignature.toBytes, signersBitmap⟩

def aggregateFromBytes [BlsCodec] (bytes : Bytes) : Except H2BridgeError BlsSignature :=
  if bytes.length ≠ 96 then .error .invalidAggregateSignature
  else
    match BlsCodec.signatureFromBytes bytes with
    | none => .error .invalidAggregateSignature
    | some signature => .ok signature

def tcToH2 (tc : TimeoutCertificate) : Except H2BridgeError H2TimeoutCertificate := do
  let signersBitmap ← nativeBitmapToH2 tc.signers
  let highQc ← qcToH2 tc.highQc
  return ⟨BitVec.ofNat 64 tc.view, tc.aggregateSignature.toBytes, signersBitmap, highQc⟩

section Bridge

variable [Crypto] [BlsCodec]

def qcFromH2 (qc : H2QuorumCertificate) : Except H2BridgeError QuorumCertificate :=
  if qc.view = 0 ∧ qc.blockHash = 0 ∧ qc.aggregateSignature = [] ∧ qc.signersBitmap = [] then
    .ok QuorumCertificate.genesis
  else do
    let aggregateSignature ← aggregateFromBytes qc.aggregateSignature
    let signers ← h2BitmapToNative qc.signersBitmap
    return ⟨qc.view.toNat, qc.blockHash, aggregateSignature, signers⟩

def tcFromH2 (tc : H2TimeoutCertificate) : Except H2BridgeError TimeoutCertificate := do
  let aggregateSignature ← aggregateFromBytes tc.aggregateSignature
  let signers ← h2BitmapToNative tc.signersBitmap
  let highQc ← qcFromH2 tc.highQc
  return ⟨tc.view.toNat, aggregateSignature, signers, highQc⟩

def mapOption {α β : Type} (f : α → Except H2BridgeError β) :
    Option α → Except H2BridgeError (Option β)
  | none => .ok none
  | some a => (f a).map some

omit [Crypto] [BlsCodec] in
def messageToH2 : ConsensusMessage → Except H2BridgeError H2Message
  | .proposal value => do
    if value.validatorChanges.any (! ·.isEmpty) then throw .validatorChangesUnsupported
    let justifyQc ← qcToH2 value.justifyQc
    let prepareQc ← mapOption qcToH2 value.prepareQc
    return .proposal ⟨BitVec.ofNat 64 value.view, value.blockHash, justifyQc,
      BitVec.ofNat 32 value.proposer, value.signature, prepareQc, value.txRootHash.getD 0⟩
  | .vote value => .ok (.vote ⟨BitVec.ofNat 64 value.view, value.blockHash,
      BitVec.ofNat 32 value.voter, value.signature, none⟩)
  | .commitVote value => .ok (.commitVote ⟨BitVec.ofNat 64 value.view, value.blockHash,
      BitVec.ofNat 32 value.voter, value.signature, none⟩)
  | .prepareQc value => do
    let qc ← qcToH2 value.qc
    return .prepareQc ⟨BitVec.ofNat 64 value.view, value.blockHash, qc⟩
  | .timeout value => do
    let highQc ← qcToH2 value.highQc
    return .timeout ⟨BitVec.ofNat 64 value.view, highQc, BitVec.ofNat 32 value.sender,
      value.signature, none⟩
  | .newView value => do
    let timeoutCertificate ← tcToH2 value.timeoutCert
    return .newView ⟨BitVec.ofNat 64 value.view, timeoutCertificate, BitVec.ofNat 32 value.leader,
      value.signature⟩
  | .decide value => do
    if value.validatorChangesHash ≠ 0 then throw .nonZeroChangesHash
    let commitQc ← qcToH2 value.commitQc
    return .decide ⟨BitVec.ofNat 64 value.view, value.blockHash, commitQc⟩

omit [Crypto] [BlsCodec] in
def consensusToH2V4 (identity : H2V4ChainIdentity) (message : ConsensusMessage) :
    Except H2BridgeError H2V4Envelope := do
  let message ← messageToH2 message
  return ⟨identity, 0, message⟩

def messageFromH2 : H2Message → Except H2BridgeError ConsensusMessage
  | .proposal value => do
    let justifyQc ← qcFromH2 value.justifyQc
    let prepareQc ← mapOption qcFromH2 value.prepareQc
    return .proposal ⟨value.view.toNat, value.blockHash, justifyQc, value.proposer.toNat,
      value.signature, prepareQc, some value.txRootHash, none⟩
  | .vote value =>
    .ok (.vote ⟨value.view.toNat, value.blockHash, value.voter.toNat, value.signature⟩)
  | .commitVote value =>
    .ok (.commitVote ⟨value.view.toNat, value.blockHash, value.voter.toNat, value.signature⟩)
  | .prepareQc value => do
    let qc ← qcFromH2 value.qc
    return .prepareQc ⟨value.view.toNat, value.blockHash, qc⟩
  | .timeout value => do
    let highQc ← qcFromH2 value.highQc
    return .timeout ⟨value.view.toNat, highQc, value.sender.toNat, value.signature⟩
  | .newView value => do
    let timeoutCert ← tcFromH2 value.timeoutCertificate
    return .newView ⟨value.view.toNat, timeoutCert, value.leader.toNat, value.signature⟩
  | .decide value => do
    let commitQc ← qcFromH2 value.commitQc
    return .decide ⟨value.view.toNat, value.blockHash, commitQc, 0⟩

def consensusFromH2V4 (envelope : H2V4Envelope) : Except H2BridgeError ConsensusMessage :=
  if envelope.changesHash ≠ 0 then .error .nonZeroChangesHash else messageFromH2 envelope.message

end Bridge

end N42.H2
