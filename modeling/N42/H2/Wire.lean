import N42.Lib.Bitfield
import N42.Lib.Frame
import N42.Primitives.Types

/-!
gov5's HotStuff-2 wire format (`n42-network/src/h2_wire.rs`): little-endian words and byte fields
behind their lengths, in an envelope of a kind byte and a payload.
-/

namespace N42.H2

open Lib

def MAX_ENVELOPE_PAYLOAD : ℕ := 8 * 1024

def MAX_SIGNATURE : ℕ := 256

def MAX_BITMAP : ℕ := 1024

def MAX_QC : ℕ := 2 * 1024

def MAX_HIGH_TC : ℕ := 4 * 1024

def MAX_VALIDATORS : ℕ := 4096

inductive H2MessageKind where
  | proposal
  | vote
  | commitVote
  | prepareQc
  | timeout
  | newView
  | decide
deriving DecidableEq

def H2MessageKind.toByte : H2MessageKind → UInt8
  | .proposal => 1
  | .vote => 2
  | .commitVote => 3
  | .prepareQc => 4
  | .timeout => 5
  | .newView => 6
  | .decide => 7

structure H2Envelope where
  kind : H2MessageKind
  payload : Bytes
deriving DecidableEq

structure H2QuorumCertificate where
  view : BitVec 64
  blockHash : B256
  aggregateSignature : Bytes
  /-- A 16-bit validator count and the bits, or nothing. -/
  signersBitmap : Bytes
deriving DecidableEq

structure H2TimeoutCertificate where
  view : BitVec 64
  aggregateSignature : Bytes
  signersBitmap : Bytes
  highQc : H2QuorumCertificate
deriving DecidableEq

structure H2Proposal where
  view : BitVec 64
  blockHash : B256
  justifyQc : H2QuorumCertificate
  proposer : BitVec 32
  signature : BlsSignature
  prepareQc : Option H2QuorumCertificate
  txRootHash : B256
deriving DecidableEq

structure H2Vote where
  view : BitVec 64
  blockHash : B256
  voter : BitVec 32
  signature : BlsSignature
  highTc : Option H2TimeoutCertificate
deriving DecidableEq

structure H2PrepareQc where
  view : BitVec 64
  blockHash : B256
  qc : H2QuorumCertificate
deriving DecidableEq

structure H2Timeout where
  view : BitVec 64
  highQc : H2QuorumCertificate
  sender : BitVec 32
  signature : BlsSignature
  highTc : Option H2TimeoutCertificate
deriving DecidableEq

structure H2NewView where
  view : BitVec 64
  timeoutCertificate : H2TimeoutCertificate
  leader : BitVec 32
  signature : BlsSignature
deriving DecidableEq

structure H2Decide where
  view : BitVec 64
  blockHash : B256
  commitQc : H2QuorumCertificate
deriving DecidableEq

inductive H2Message where
  | proposal (value : H2Proposal)
  | vote (value : H2Vote)
  | commitVote (value : H2Vote)
  | prepareQc (value : H2PrepareQc)
  | timeout (value : H2Timeout)
  | newView (value : H2NewView)
  | decide (value : H2Decide)
deriving DecidableEq

def H2Message.kind : H2Message → H2MessageKind
  | .proposal _ => .proposal
  | .vote _ => .vote
  | .commitVote _ => .commitVote
  | .prepareQc _ => .prepareQc
  | .timeout _ => .timeout
  | .newView _ => .newView
  | .decide _ => .decide

inductive H2WireError where
  | truncated
  | trailingBytes
  | envelopeTooLarge (actual max : ℕ)
  | fieldTooLarge (actual max : ℕ)
  | unknownMessageKind (byte : UInt8)
  | invalidBlockHashLength (length : ℕ)
  | invalidSignatureLength (length : ℕ)
  | invalidSignature
  | invalidBitmap
deriving DecidableEq

def H2MessageKind.ofByte (byte : UInt8) : Except H2WireError H2MessageKind :=
  if byte = 1 then .ok .proposal
  else if byte = 2 then .ok .vote
  else if byte = 3 then .ok .commitVote
  else if byte = 4 then .ok .prepareQc
  else if byte = 5 then .ok .timeout
  else if byte = 6 then .ok .newView
  else if byte = 7 then .ok .decide
  else .error (.unknownMessageKind byte)

/-- The signature decoder of the BLS library. -/
class BlsCodec where
  signatureFromBytes : Bytes → Option BlsSignature

variable (data : Bytes)

def readU64 : Except H2WireError (BitVec 64 × Bytes) :=
  Frame.word .truncated 64 8 data

def readU32 : Except H2WireError (BitVec 32 × Bytes) :=
  Frame.word .truncated 32 4 data

def readBytes (max : ℕ) (data : Bytes) : Except H2WireError (Bytes × Bytes) :=
  Frame.unframe .truncated .fieldTooLarge max data

def readHash : Except H2WireError (B256 × Bytes) := do
  let bytes ← readBytes 32 data
  if bytes.1.length ≠ 32 then throw (.invalidBlockHashLength bytes.1.length)
  return (BitVec.ofNat 256 (beNat bytes.1), bytes.2)

def readSignature [BlsCodec] (data : Bytes) : Except H2WireError (BlsSignature × Bytes) := do
  let bytes ← readBytes MAX_SIGNATURE data
  if bytes.1.length ≠ 96 then throw (.invalidSignatureLength bytes.1.length)
  match BlsCodec.signatureFromBytes bytes.1 with
  | none => throw .invalidSignature
  | some signature => return (signature, bytes.2)

def finish (rest : Bytes) : Except H2WireError Unit :=
  if rest = [] then .ok () else .error .trailingBytes

def putBytes : Except H2WireError Bytes :=
  if data.length ≥ 2 ^ 32 then .error (.fieldTooLarge data.length (2 ^ 32 - 1))
  else .ok (Frame.frame data)

def putLimitedBytes (max : ℕ) : Except H2WireError Bytes :=
  if data.length > max then .error (.fieldTooLarge data.length max) else putBytes data

def putSignature (signature : BlsSignature) : Except H2WireError Bytes :=
  putLimitedBytes signature.toBytes MAX_SIGNATURE

/-- The unused high bits of the last byte, where the count is not a multiple of eight. -/
def hasUnusedBits (count : ℕ) (last : UInt8) : Bool :=
  count % 8 ≠ 0 ∧ last &&& ~~~((1 <<< UInt8.ofNat (count % 8)) - 1) ≠ 0

def validateBitmap (bitmap : Bytes) : Except H2WireError Unit :=
  if bitmap = [] then .ok ()
  else if bitmap.length < 2 then .error .invalidBitmap
  else
    let count := leNat (bitmap.take 2)
    let expected := 2 + (count + 7) / 8
    if count = 0 ∨ count > MAX_VALIDATORS then .error .invalidBitmap
    else if bitmap.length ≠ expected then .error .invalidBitmap
    else if hasUnusedBits count (bitmap.getD (expected - 1) 0) then .error .invalidBitmap
    else .ok ()

/-- An optional field is empty where there is none. -/
def decodeOptional {α : Type} (decode : Bytes → Except H2WireError α) (data : Bytes) :
    Except H2WireError (Option α) :=
  if data = [] then .ok none else (decode data).map some

def encodeOptional {α : Type} (encode : α → Except H2WireError Bytes) :
    Option α → Except H2WireError Bytes
  | none => .ok []
  | some a => encode a

def decodeQc : Except H2WireError H2QuorumCertificate := do
  let view ← readU64 data
  let blockHash ← readHash view.2
  let aggregateSignature ← readBytes MAX_SIGNATURE blockHash.2
  let signersBitmap ← readBytes MAX_BITMAP aggregateSignature.2
  let _ ← validateBitmap signersBitmap.1
  let _ ← finish signersBitmap.2
  return ⟨view.1, blockHash.1, aggregateSignature.1, signersBitmap.1⟩

def encodeQc (value : H2QuorumCertificate) : Except H2WireError Bytes := do
  let _ ← validateBitmap value.signersBitmap
  let blockHash ← putLimitedBytes (B256.toBytes value.blockHash) 32
  let aggregateSignature ← putLimitedBytes value.aggregateSignature MAX_SIGNATURE
  let signersBitmap ← putLimitedBytes value.signersBitmap MAX_BITMAP
  return leBytes 8 value.view.toNat ++ (blockHash ++ (aggregateSignature ++ signersBitmap))

def decodeTc : Except H2WireError H2TimeoutCertificate := do
  let view ← readU64 data
  let aggregateSignature ← readBytes MAX_SIGNATURE view.2
  let signersBitmap ← readBytes MAX_BITMAP aggregateSignature.2
  let _ ← validateBitmap signersBitmap.1
  let qcBytes ← readBytes MAX_QC signersBitmap.2
  let highQc ← decodeQc qcBytes.1
  let _ ← finish qcBytes.2
  return ⟨view.1, aggregateSignature.1, signersBitmap.1, highQc⟩

def encodeTc (value : H2TimeoutCertificate) : Except H2WireError Bytes := do
  let _ ← validateBitmap value.signersBitmap
  let qcBytes ← encodeQc value.highQc
  let aggregateSignature ← putLimitedBytes value.aggregateSignature MAX_SIGNATURE
  let signersBitmap ← putLimitedBytes value.signersBitmap MAX_BITMAP
  let highQc ← putLimitedBytes qcBytes MAX_QC
  return leBytes 8 value.view.toNat ++ (aggregateSignature ++ (signersBitmap ++ highQc))

def encodeHighTc (value : H2TimeoutCertificate) : Except H2WireError Bytes := do
  let encoded ← encodeTc value
  if encoded.length > MAX_HIGH_TC then throw (.fieldTooLarge encoded.length MAX_HIGH_TC)
  else return encoded

section Messages

variable [BlsCodec]

variable (data : Bytes)

def decodeProposal : Except H2WireError H2Proposal := do
  let view ← readU64 data
  let blockHash ← readHash view.2
  let justifyBytes ← readBytes MAX_QC blockHash.2
  let justifyQc ← decodeQc justifyBytes.1
  let proposer ← readU32 justifyBytes.2
  let signature ← readSignature proposer.2
  let prepareBytes ← readBytes MAX_QC signature.2
  let prepareQc ← decodeOptional decodeQc prepareBytes.1
  let txRootHash ← readHash prepareBytes.2
  let _ ← finish txRootHash.2
  return ⟨view.1, blockHash.1, justifyQc, proposer.1, signature.1, prepareQc, txRootHash.1⟩

def encodeProposal (value : H2Proposal) : Except H2WireError Bytes := do
  let justifyBytes ← encodeQc value.justifyQc
  let prepareBytes ← encodeOptional encodeQc value.prepareQc
  let blockHash ← putLimitedBytes (B256.toBytes value.blockHash) 32
  let justifyQc ← putLimitedBytes justifyBytes MAX_QC
  let signature ← putSignature value.signature
  let prepareQc ← putLimitedBytes prepareBytes MAX_QC
  let txRootHash ← putLimitedBytes (B256.toBytes value.txRootHash) 32
  return leBytes 8 value.view.toNat ++ (blockHash ++ (justifyQc ++
    (leBytes 4 value.proposer.toNat ++ (signature ++ (prepareQc ++ txRootHash)))))

/-- The trailing field of votes and timeouts, which older messages leave out. -/
def decodeTrailingTc : Except H2WireError (Option H2TimeoutCertificate) :=
  if data = [] then .ok none
  else do
    let tcBytes ← readBytes MAX_HIGH_TC data
    let highTc ← decodeOptional decodeTc tcBytes.1
    let _ ← finish tcBytes.2
    return highTc

def decodeVotePayload : Except H2WireError H2Vote := do
  let view ← readU64 data
  let blockHash ← readHash view.2
  let voter ← readU32 blockHash.2
  let signature ← readSignature voter.2
  let highTc ← decodeTrailingTc signature.2
  return ⟨view.1, blockHash.1, voter.1, signature.1, highTc⟩

def encodeVotePayload (value : H2Vote) : Except H2WireError Bytes := do
  let tcBytes ← encodeOptional encodeHighTc value.highTc
  let blockHash ← putLimitedBytes (B256.toBytes value.blockHash) 32
  let signature ← putSignature value.signature
  let highTc ← putLimitedBytes tcBytes MAX_HIGH_TC
  return leBytes 8 value.view.toNat ++ (blockHash ++
    (leBytes 4 value.voter.toNat ++ (signature ++ highTc)))

def decodePrepareQc : Except H2WireError H2PrepareQc := do
  let view ← readU64 data
  let blockHash ← readHash view.2
  let qcBytes ← readBytes MAX_QC blockHash.2
  let qc ← decodeQc qcBytes.1
  let _ ← finish qcBytes.2
  return ⟨view.1, blockHash.1, qc⟩

def encodePrepareQc (value : H2PrepareQc) : Except H2WireError Bytes := do
  let qcBytes ← encodeQc value.qc
  let blockHash ← putLimitedBytes (B256.toBytes value.blockHash) 32
  let qc ← putLimitedBytes qcBytes MAX_QC
  return leBytes 8 value.view.toNat ++ (blockHash ++ qc)

def decodeTimeout : Except H2WireError H2Timeout := do
  let view ← readU64 data
  let qcBytes ← readBytes MAX_QC view.2
  let highQc ← decodeQc qcBytes.1
  let sender ← readU32 qcBytes.2
  let signature ← readSignature sender.2
  let highTc ← decodeTrailingTc signature.2
  return ⟨view.1, highQc, sender.1, signature.1, highTc⟩

def encodeTimeout (value : H2Timeout) : Except H2WireError Bytes := do
  let qcBytes ← encodeQc value.highQc
  let tcBytes ← encodeOptional encodeHighTc value.highTc
  let highQc ← putLimitedBytes qcBytes MAX_QC
  let signature ← putSignature value.signature
  let highTc ← putLimitedBytes tcBytes MAX_HIGH_TC
  return leBytes 8 value.view.toNat ++ (highQc ++
    (leBytes 4 value.sender.toNat ++ (signature ++ highTc)))

def decodeNewView : Except H2WireError H2NewView := do
  let view ← readU64 data
  let tcBytes ← readBytes MAX_HIGH_TC view.2
  let timeoutCertificate ← decodeTc tcBytes.1
  let leader ← readU32 tcBytes.2
  let signature ← readSignature leader.2
  let _ ← finish signature.2
  return ⟨view.1, timeoutCertificate, leader.1, signature.1⟩

def encodeNewView (value : H2NewView) : Except H2WireError Bytes := do
  let tcBytes ← encodeHighTc value.timeoutCertificate
  let timeoutCertificate ← putLimitedBytes tcBytes MAX_HIGH_TC
  let signature ← putSignature value.signature
  return leBytes 8 value.view.toNat ++ (timeoutCertificate ++
    (leBytes 4 value.leader.toNat ++ signature))

def decodeDecide : Except H2WireError H2Decide := do
  let view ← readU64 data
  let blockHash ← readHash view.2
  let qcBytes ← readBytes MAX_QC blockHash.2
  let commitQc ← decodeQc qcBytes.1
  let _ ← finish qcBytes.2
  return ⟨view.1, blockHash.1, commitQc⟩

def encodeDecide (value : H2Decide) : Except H2WireError Bytes := do
  let qcBytes ← encodeQc value.commitQc
  let blockHash ← putLimitedBytes (B256.toBytes value.blockHash) 32
  let commitQc ← putLimitedBytes qcBytes MAX_QC
  return leBytes 8 value.view.toNat ++ (blockHash ++ commitQc)

def decodeWireEnvelope : Except H2WireError H2Envelope :=
  match data with
  | [] => .error .truncated
  | kindByte :: rest => do
    let payload ← readBytes MAX_ENVELOPE_PAYLOAD rest
    let _ ← finish payload.2
    let kind ← H2MessageKind.ofByte kindByte
    return ⟨kind, payload.1⟩

variable (kind : H2MessageKind) (payload : Bytes)

def encodeWireEnvelope : Except H2WireError Bytes :=
  if payload.length > MAX_ENVELOPE_PAYLOAD then
    .error (.envelopeTooLarge payload.length MAX_ENVELOPE_PAYLOAD)
  else (putBytes payload).map (kind.toByte :: ·)

def decodePayload : Except H2WireError H2Message :=
  match kind with
  | .proposal => (decodeProposal payload).map .proposal
  | .vote => (decodeVotePayload payload).map .vote
  | .commitVote => (decodeVotePayload payload).map .commitVote
  | .prepareQc => (decodePrepareQc payload).map .prepareQc
  | .timeout => (decodeTimeout payload).map .timeout
  | .newView => (decodeNewView payload).map .newView
  | .decide => (decodeDecide payload).map .decide

def encodePayload : H2Message → Except H2WireError Bytes
  | .proposal value => encodeProposal value
  | .vote value => encodeVotePayload value
  | .commitVote value => encodeVotePayload value
  | .prepareQc value => encodePrepareQc value
  | .timeout value => encodeTimeout value
  | .newView value => encodeNewView value
  | .decide value => encodeDecide value

def decodeMessage : Except H2WireError H2Message := do
  let envelope ← decodeWireEnvelope data
  decodePayload envelope.kind envelope.payload

def encodeMessage (message : H2Message) : Except H2WireError Bytes := do
  let payload ← encodePayload message
  encodeWireEnvelope message.kind payload

end Messages

end N42.H2
