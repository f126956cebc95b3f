import N42.Lib.Bitfield
import N42.Lib.Table
import Mathlib.Data.Finset.Card
import Mathlib.Data.List.MinMax
import N42.Primitives.Types

/-!
The node's side of mobile verification: the verifier registry and the aggregate attestation
(`n42-mobile/src/attestation.rs`), the receipt counters (`verification.rs`), and the bridge
(`n42-node/src/mobile_bridge.rs`).
-/

namespace N42.Mobile

open Lib List

abbrev PubkeyBytes := Bytes

/-- Which bytes `blst` decodes to a point. -/
class PointDecoder where
  isPoint : PubkeyBytes → Bool

def publicKeyFromBytes [PointDecoder] (bytes : PubkeyBytes) : Option BlsPublicKey :=
  if PointDecoder.isPoint bytes then some ⟨bytes⟩ else none

structure VerificationReceipt where
  blockHash : B256
  blockNumber : ℕ
  computedReceiptsRoot : B256
  verifierPubkey : PubkeyBytes
  signature : BlsSignature
deriving DecidableEq

def buildSigningMessage (blockHash : B256) (blockNumber : ℕ) (computedReceiptsRoot : B256) :
    Bytes :=
  blockHash.toBytes ++ leBytes 8 blockNumber ++ computedReceiptsRoot.toBytes

def VerificationReceipt.signingMessage (receipt : VerificationReceipt) : Bytes :=
  buildSigningMessage receipt.blockHash receipt.blockNumber receipt.computedReceiptsRoot

def VerificationReceipt.verifySignature [Crypto] [PointDecoder] (receipt : VerificationReceipt) :
    Bool :=
  match publicKeyFromBytes receipt.verifierPubkey with
  | none => false
  | some pubkey => Crypto.verify .native pubkey receipt.signingMessage receipt.signature

structure VerifierRegistry where
  pubkeys : List PubkeyBytes
  nodup : pubkeys.Nodup

namespace VerifierRegistry

variable (registry : VerifierRegistry)

def register (pubkey : PubkeyBytes) : VerifierRegistry :=
  if h : pubkey ∈ registry.pubkeys then registry
  else ⟨registry.pubkeys ++ [pubkey],
    nodup_append.mpr ⟨registry.nodup, nodup_singleton pubkey, by
      intro a ha b hb hab
      rw [hab, mem_singleton.mp hb] at ha
      exact h ha⟩⟩

def indexOf (pubkey : PubkeyBytes) : Option ℕ :=
  if pubkey ∈ registry.pubkeys then some (registry.pubkeys.idxOf pubkey) else none

def pubkeyAt (index : ℕ) : Option PubkeyBytes :=
  registry.pubkeys[index]?

end VerifierRegistry

inductive AttestationError where
  | noParticipants
  | invalidPublicKey
  | invalidAggregateSignature
  | registryIndexOutOfBounds (index : ℕ)
  | aggregationFailed
deriving DecidableEq

structure AggregatedAttestation where
  blockHash : B256
  blockNumber : ℕ
  receiptsRoot : B256
  aggregateSignature : BlsSignature
  participantBitfield : List (BitVec 8)
  participantCount : ℕ

namespace AggregatedAttestation

def signingMessage (attestation : AggregatedAttestation) : Bytes :=
  buildSigningMessage attestation.blockHash attestation.blockNumber attestation.receiptsRoot

def extractParticipantPubkeys (attestation : AggregatedAttestation) (registry : VerifierRegistry) :
    Except AttestationError (List PubkeyBytes) :=
  (Bitfield.indices attestation.participantBitfield).mapM fun index =>
    match registry.pubkeyAt index with
    | some pubkey => .ok pubkey
    | none => .error (.registryIndexOutOfBounds index)

def verify [Crypto] [PointDecoder] (attestation : AggregatedAttestation)
    (registry : VerifierRegistry) : Except AttestationError Unit := do
  let pubkeys ← attestation.extractParticipantPubkeys registry
  if pubkeys = [] then throw .noParticipants
  match pubkeys.mapM publicKeyFromBytes with
  | none => throw .invalidPublicKey
  | some blsPubkeys =>
    if Crypto.fastAggregateVerify .native blsPubkeys attestation.signingMessage
        attestation.aggregateSignature then pure ()
    else throw .invalidAggregateSignature

end AggregatedAttestation

/-- The signatures collected for a block, each under the registry index of its verifier. -/
structure AttestationBuilder where
  blockHash : B256
  blockNumber : ℕ
  receiptsRoot : B256
  entries : List (ℕ × BlsSignature)
  /-- `seen_indices` are the indices of the entries. -/
  nodup : (entries.map Prod.fst).Nodup

namespace AttestationBuilder

def new (blockHash : B256) (blockNumber : ℕ) (receiptsRoot : B256) : AttestationBuilder :=
  ⟨blockHash, blockNumber, receiptsRoot, [], nodup_nil⟩

variable (builder : AttestationBuilder)

def accepts (receipt : VerificationReceipt) : Bool :=
  receipt.blockHash = builder.blockHash ∧ receipt.blockNumber = builder.blockNumber ∧
    receipt.computedReceiptsRoot = builder.receiptsRoot

def push (index : ℕ) (signature : BlsSignature) : AttestationBuilder :=
  if h : index ∈ builder.entries.map Prod.fst then builder
  else { builder with
    entries := builder.entries ++ [(index, signature)]
    nodup := by
      rw [map_append, nodup_append]
      refine ⟨builder.nodup, nodup_singleton _, ?_⟩
      intro a ha b hb hab
      rw [hab, mem_singleton.mp hb] at ha
      exact h ha }

def addReceipt (receipt : VerificationReceipt) (registry : VerifierRegistry) : AttestationBuilder :=
  if builder.accepts receipt then
    match registry.indexOf receipt.verifierPubkey with
    | none => builder
    | some index => builder.push index receipt.signature
  else builder

def count : ℕ := builder.entries.length

def attestation (aggregate : BlsSignature) : AggregatedAttestation where
  blockHash := builder.blockHash
  blockNumber := builder.blockNumber
  receiptsRoot := builder.receiptsRoot
  aggregateSignature := aggregate
  participantBitfield := Bitfield.ofIndices (builder.entries.map Prod.fst)
  participantCount := builder.count

def build [Crypto] (builder : AttestationBuilder) : Except AttestationError AggregatedAttestation :=
  if builder.entries = [] then .error .noParticipants
  else match Crypto.aggregate (builder.entries.map Prod.snd) with
    | none => .error .aggregationFailed
    | some aggregate => .ok (builder.attestation aggregate)

end AttestationBuilder

structure BlockVerificationStatus where
  blockHash : B256
  blockNumber : ℕ
  expectedReceiptsRoot : Option B256
  validCount : ℕ
  invalidCount : ℕ
  threshold : ℕ
  seenVerifiers : Finset PubkeyBytes

namespace BlockVerificationStatus

def new (blockHash : B256) (blockNumber : ℕ) (expectedReceiptsRoot : Option B256)
    (threshold : ℕ) : BlockVerificationStatus :=
  ⟨blockHash, blockNumber, expectedReceiptsRoot, 0, 0, threshold, ∅⟩

variable (status : BlockVerificationStatus)

variable (receipt : VerificationReceipt)

/-- Without an expected root every receipt counts. -/
def matchesExpected : Bool :=
  match status.expectedReceiptsRoot with
  | some expected => receipt.computedReceiptsRoot = expected
  | none => true

/-- The status with a receipt counted, unless its verifier was seen before. -/
def addReceipt : BlockVerificationStatus :=
  if receipt.verifierPubkey ∈ status.seenVerifiers then status
  else
    let seen := insert receipt.verifierPubkey status.seenVerifiers
    if status.matchesExpected receipt then
      { status with seenVerifiers := seen, validCount := status.validCount + 1 }
    else { status with seenVerifiers := seen, invalidCount := status.invalidCount + 1 }

def isAttested : Bool := status.validCount ≥ status.threshold

def expect (root : Option B256) : BlockVerificationStatus :=
  if status.expectedReceiptsRoot.isNone then { status with expectedReceiptsRoot := root }
  else status

@[simp] theorem blockHash_addReceipt :
    (status.addReceipt receipt).blockHash = status.blockHash := by
  unfold addReceipt
  split
  · rfl
  · split <;> rfl

@[simp] theorem blockHash_expect (root : Option B256) :
    (status.expect root).blockHash = status.blockHash := by
  unfold expect
  split <;> rfl

end BlockVerificationStatus

abbrev StatusMap := Table BlockVerificationStatus.blockHash

structure ReceiptAggregator where
  blocks : StatusMap
  defaultThreshold : ℕ
  maxTrackedBlocks : ℕ

def clampThreshold (threshold : ℕ) : ℕ := if threshold = 0 then 1 else threshold

namespace ReceiptAggregator

def pruneOldBlocks (blocks : StatusMap) (currentBlock ttlBlocks : ℕ) : StatusMap :=
  blocks.retain fun status => currentBlock - ttlBlocks ≤ status.blockNumber

variable (aggregator : ReceiptAggregator)

variable (iteration : Iteration BlockVerificationStatus)

/-- At capacity the block with the lowest number goes. -/
def evictOldest : StatusMap :=
  if aggregator.blocks.entries.length ≥ aggregator.maxTrackedBlocks then
    match (iteration.order aggregator.blocks.entries).argmin (·.blockNumber) with
    | some oldest => aggregator.blocks.retain (·.blockHash ≠ oldest.blockHash)
    | none => aggregator.blocks
  else aggregator.blocks

def registerBlock (blockHash : B256) (blockNumber : ℕ) (expectedReceiptsRoot : Option B256) :
    ReceiptAggregator :=
  match aggregator.blocks.get blockHash with
  | some status =>
    { aggregator with blocks := aggregator.blocks.insert (status.expect expectedReceiptsRoot) }
  | none =>
    let status := BlockVerificationStatus.new blockHash blockNumber expectedReceiptsRoot
      aggregator.defaultThreshold
    { aggregator with
      blocks := pruneOldBlocks ((aggregator.evictOldest iteration).insert status) blockNumber 256 }

/-- Whether the receipt was new, and if so whether it made the block reach its threshold. -/
def processReceipt (receipt : VerificationReceipt) : Option Bool × ReceiptAggregator :=
  match aggregator.blocks.get receipt.blockHash with
  | none => (none, aggregator)
  | some status =>
    if receipt.verifierPubkey ∈ status.seenVerifiers then (none, aggregator)
    else
      let counted := status.addReceipt receipt
      (some (!status.isAttested && counted.isAttested),
        { aggregator with blocks := aggregator.blocks.insert counted })

def setDefaultThreshold (threshold : ℕ) : ReceiptAggregator :=
  { aggregator with defaultThreshold := clampThreshold threshold }

end ReceiptAggregator

structure FinalizedAttestation where
  attestation : AggregatedAttestation
  rewardPubkeys : List PubkeyBytes

/-- A receipt that reached the bridge, with what the bridge knew of its block and verifier. -/
structure Received where
  receipt : VerificationReceipt
  status : Option BlockVerificationStatus
  registered : Bool

structure MobileVerificationBridge where
  receiptAggregator : ReceiptAggregator
  connectedSessions : List (ℕ × PubkeyBytes)
  attestationBuilders : B256 → Option AttestationBuilder
  registry : VerifierRegistry
  emitted : List FinalizedAttestation
  /-- All receipts so far (bookkeeping). -/
  received : List Received

namespace MobileVerificationBridge

def new (defaultThreshold maxTrackedBlocks : ℕ) (registry : VerifierRegistry) :
    MobileVerificationBridge where
  receiptAggregator :=
    ⟨⟨[], nodup_nil⟩, clampThreshold (clampThreshold defaultThreshold), maxTrackedBlocks⟩
  connectedSessions := []
  attestationBuilders _ := none
  registry := registry
  emitted := []
  received := []

variable (bridge : MobileVerificationBridge)

def registerDispatchedBlock (iteration : Iteration BlockVerificationStatus) (blockHash : B256)
    (blockNumber : ℕ) (expectedReceiptsRoot : Option B256) : MobileVerificationBridge :=
  let receiptAggregator := bridge.receiptAggregator.registerBlock iteration blockHash blockNumber
    expectedReceiptsRoot
  let attestationBuilders :=
    match expectedReceiptsRoot, bridge.attestationBuilders blockHash with
    | some receiptsRoot, none => Function.update bridge.attestationBuilders blockHash
        (some (.new blockHash blockNumber receiptsRoot))
    | _, _ => bridge.attestationBuilders
  { bridge with
    receiptAggregator := receiptAggregator
    attestationBuilders := attestationBuilders }

def updateDynamicThreshold (minAttestationThreshold : ℕ) : MobileVerificationBridge :=
  let threshold := max (bridge.connectedSessions.length * 2 / 3) minAttestationThreshold
  { bridge with receiptAggregator := bridge.receiptAggregator.setDefaultThreshold threshold }

variable (minAttestationThreshold sessionId : ℕ)

/-- `HubEvent::PhoneConnected`; whether the verifier may connect is the staking manager's
answer. -/
def phoneConnected (verifierPubkey : PubkeyBytes) (authorized : Bool) : MobileVerificationBridge :=
  if authorized then
    updateDynamicThreshold
      { bridge with
        connectedSessions := (sessionId, verifierPubkey) ::
          bridge.connectedSessions.filter (·.1 ≠ sessionId)
        registry := bridge.registry.register verifierPubkey } minAttestationThreshold
  else bridge

def phoneDisconnected : MobileVerificationBridge :=
  updateDynamicThreshold
    { bridge with connectedSessions := bridge.connectedSessions.filter (·.1 ≠ sessionId) }
    minAttestationThreshold

variable [Crypto]

/-- What a builder yields when its block reaches the threshold. -/
def finalize (registry : VerifierRegistry) (builder : AttestationBuilder) (requiredCount : ℕ) :
    Option FinalizedAttestation :=
  match builder.build with
  | .error _ => none
  | .ok attestation =>
    if attestation.participantCount < requiredCount then none
    -- `u16::try_from`
    else if attestation.participantCount ≥ 2 ^ 16 then none
    else some ⟨attestation,
      (Bitfield.indices attestation.participantBitfield).filterMap registry.pubkeyAt⟩

/-- The builder is removed, whatever becomes of it. -/
def finalizeAttestation (bridge : MobileVerificationBridge) (blockHash : B256)
    (requiredCount : ℕ) : MobileVerificationBridge :=
  match bridge.attestationBuilders blockHash with
  | none => bridge
  | some builder =>
    { bridge with
      attestationBuilders := Function.update bridge.attestationBuilders blockHash none
      emitted := (finalize bridge.registry builder requiredCount).toList ++ bridge.emitted }

/-- Receipts that do not contradict the expected root go to the builder of their block. -/
def feedBuilder (bridge : MobileVerificationBridge) (receipt : VerificationReceipt) :
    B256 → Option AttestationBuilder :=
  let status := bridge.receiptAggregator.blocks.get receipt.blockHash
  if status.all (·.matchesExpected receipt) then
    Function.update bridge.attestationBuilders receipt.blockHash
      ((bridge.attestationBuilders receipt.blockHash).map
        (·.addReceipt receipt bridge.registry))
  else bridge.attestationBuilders

def processReceipt (bridge : MobileVerificationBridge) (receipt : VerificationReceipt) :
    MobileVerificationBridge :=
  let status := bridge.receiptAggregator.blocks.get receipt.blockHash
  let processed := bridge.receiptAggregator.processReceipt receipt
  let bridge := { bridge with
    attestationBuilders := bridge.feedBuilder receipt
    receiptAggregator := processed.2
    received :=
      ⟨receipt, status, (bridge.registry.indexOf receipt.verifierPubkey).isSome⟩ ::
        bridge.received }
  if processed.1 = some true then
    bridge.finalizeAttestation receipt.blockHash (status.elim 0 (·.threshold))
  else bridge

end MobileVerificationBridge

end N42.Mobile
