import N42.Lib.CallFrames
import N42.Primitives.Types

/-!
The decision hub (`contracts/decision/DecisionHub.sol`): paid requests for decisions that an
operator attests to, the fees they earn, and the refunds of those that expire. A function that
reverts is an error with its text; one that succeeds tells which fee it added where, and which ether
it sends, to code that may call the hub again.
-/

namespace N42.Decision

open Lib Function

/-- The opcode `KECCAK256` and the precompile that the contract uses. -/
class HubCrypto extends Keccak where
  ecrecover : B256 → ℕ → ℕ → ℕ → Address

def PPM : ℕ := 1000000

def MAX_QUESTIONS : ℕ := 8

def MAX_OPTIONS : ℕ := 16

def SECP256K1_HALF_N : ℕ := 0x7fffffffffffffffffffffffffffffff5d576e7357a4501ddfe92f46681b20a0

def DAY : ℕ := 86400

inductive Status where
  | pending
  | ready
  | review
  | consumed
  | expired
deriving DecidableEq

structure Template where
  documentHash : B256 := 0
  modelHash : B256 := 0
  active : Bool := false
  kinds : List ℕ := []
  sizes : List ℕ := []
  minProbabilityPpm : List ℕ := []
  minConfidencePpm : List ℕ := []
  reviewOption : List ℕ := []

structure Quote where
  requester : Address
  refundTo : Address
  consumer : Address
  templateId : ℕ
  inputHash : B256
  deadline : ℕ
  signerVersion : ℕ
  fee : ℕ
  quoteExpiry : ℕ

structure Answer where
  kind : ℕ
  selected : ℕ
  valuePpm : ℕ
  confidencePpm : ℕ
  probabilitiesPpm : List ℕ

structure Request where
  requester : Address := 0
  refundTo : Address := 0
  consumer : Address := 0
  templateId : ℕ := 0
  deadline : ℕ := 0
  signerVersion : ℕ := 0
  inputHash : B256 := 0
  answerHash : B256 := 0
  evidenceHash : B256 := 0
  fee : ℕ := 0
  status : Status := .pending
  answers : Bytes := []

structure Deployment where
  chainId : ℕ
  this : Address
  owner : Address

structure DecisionHub where
  requestsPaused : Bool := false
  templateCount : ℕ := 0
  activeSignerVersion : ℕ
  nextRequestId : ℕ := 1
  serviceBalance : ℕ := 0
  templates : ℕ → Template := fun _ => {}
  signerAt : ℕ → Address
  signerRevoked : ℕ → Bool := fun _ => false
  requests : ℕ → Request := fun _ => {}
  refundCredits : Address → ℕ := fun _ => 0

structure Msg where
  sender : Address
  value : ℕ
  timestamp : ℕ

inductive Addition where
  | service (requestId amount : ℕ)
  | credit (requestId : ℕ) (refundTo : Address) (amount : ℕ)
deriving DecidableEq

inductive Payment where
  | refund (receiver : Address) (amount : ℕ)
  | fees (receiver : Address) (amount : ℕ)
deriving DecidableEq

inductive Returned where
  | nothing
  | templateId (id : ℕ)
  | requestId (id : ℕ)
  | answers (answers : Bytes)

structure Effect where
  hub : DecisionHub
  returned : Returned := .nothing
  addition : Option Addition := none
  payment : Option Payment := none

def require (condition : Prop) [Decidable condition] (text : String) : Except String Unit :=
  if condition then .ok () else .error text

/-- Addition that reverts when the sum does not fit into the type. -/
def checkedAdd (bits a b : ℕ) : Except String ℕ :=
  if a + b < 2 ^ bits then .ok (a + b) else .error "Panic(0x11)"

def element (array : List ℕ) (i : ℕ) : Except String ℕ :=
  match array[i]? with
  | some x => .ok x
  | none => .error "Panic(0x32)"

def abiWord (x : ℕ) : Bytes := beBytes 32 x

def Answer.abi (answer : Answer) : Bytes :=
  abiWord answer.kind ++ abiWord answer.selected ++ abiWord answer.valuePpm ++
    abiWord answer.confidencePpm ++ abiWord 160 ++ abiWord answer.probabilitiesPpm.length ++
    answer.probabilitiesPpm.flatMap abiWord

def abiOffsets (start : ℕ) : List Bytes → List ℕ
  | [] => []
  | item :: rest => start :: abiOffsets (start + item.length) rest

def abiAnswers (answers : List Answer) : Bytes :=
  abiWord 32 ++ abiWord answers.length ++
    (abiOffsets (32 * answers.length) (answers.map Answer.abi)).flatMap abiWord ++
    (answers.map Answer.abi).flatten

section Digests

variable [HubCrypto]

def DOMAIN_TYPEHASH : B256 := Keccak.keccak256 (String.toUTF8
  "EIP712Domain(string name,string version,uint256 chainId,address verifyingContract)").toList

def QUOTE_TYPEHASH : B256 := Keccak.keccak256 (String.toUTF8
  ("Quote(address requester,address refundTo,address consumer,uint64 templateId,bytes32 " ++
    "inputHash,uint64 deadline,uint64 signerVersion,uint256 fee,uint64 quoteExpiry)")).toList

def RESULT_TYPEHASH : B256 := Keccak.keccak256 (String.toUTF8
  ("ResultAttestation(uint256 requestId,bytes32 answerHash,bytes32 evidenceHash," ++
    "bytes32 modelHash,uint64 signerVersion)")).toList

variable (d : Deployment)

def domainSeparator : B256 :=
  Keccak.keccak256 (B256.toBytes DOMAIN_TYPEHASH ++
    B256.toBytes (Keccak.keccak256 (String.toUTF8 "N42Decision").toList) ++
    B256.toBytes (Keccak.keccak256 (String.toUTF8 "1").toList) ++
    abiWord d.chainId ++ abiWord d.this.toNat)

def typedDigest (messageHash : B256) : B256 :=
  Keccak.keccak256 ([0x19, 0x01] ++ B256.toBytes (domainSeparator d) ++ B256.toBytes messageHash)

def quoteDigest (q : Quote) : B256 :=
  typedDigest d (Keccak.keccak256 (B256.toBytes QUOTE_TYPEHASH ++ abiWord q.requester.toNat ++
    abiWord q.refundTo.toNat ++ abiWord q.consumer.toNat ++ abiWord q.templateId ++
    B256.toBytes q.inputHash ++ abiWord q.deadline ++ abiWord q.signerVersion ++ abiWord q.fee ++
    abiWord q.quoteExpiry))

def resultDigest (requestId : ℕ) (answerHash evidenceHash modelHash : B256) (signerVersion : ℕ) :
    B256 :=
  typedDigest d (Keccak.keccak256 (B256.toBytes RESULT_TYPEHASH ++ abiWord requestId ++
    B256.toBytes answerHash ++ B256.toBytes evidenceHash ++ B256.toBytes modelHash ++
    abiWord signerVersion))

def recover (digest : B256) (signature : Bytes) : Except String Address := do
  require (signature.length = 65) "signature length"
  let r := beNat (signature.take 32)
  let s := beNat ((signature.drop 32).take 32)
  let v := beNat ((signature.drop 64).take 1)
  require (s ≤ SECP256K1_HALF_N ∧ s ≠ 0) "signature s"
  require (v = 27 ∨ v = 28) "signature v"
  return HubCrypto.ecrecover digest v r s

end Digests

namespace DecisionHub

variable (hub : DecisionHub) (d : Deployment) (msg : Msg)

def addSigner (signer : Address) : Except String Effect := do
  require (msg.sender = d.owner) "owner only"
  require (signer ≠ 0) "zero signer"
  let version ← checkedAdd 64 hub.activeSignerVersion 1
  return { hub := { hub with
    activeSignerVersion := version
    signerAt := update hub.signerAt version signer } }

def revokeSigner (version : ℕ) : Except String Effect := do
  require (msg.sender = d.owner) "owner only"
  require (hub.signerAt version ≠ 0) "unknown signer"
  return { hub := { hub with signerRevoked := update hub.signerRevoked version true } }

def setRequestsPaused (paused : Bool) : Except String Effect := do
  require (msg.sender = d.owner) "owner only"
  return { hub := { hub with requestsPaused := paused } }

def checkQuestion (template : Template) (i : ℕ) : Except String Unit := do
  let minProbability ← element template.minProbabilityPpm i
  let minConfidence ← element template.minConfidencePpm i
  require (minProbability ≤ PPM ∧ minConfidence ≤ PPM) "threshold range"
  let kind ← element template.kinds i
  let size ← element template.sizes i
  let reviewOption ← element template.reviewOption i
  if kind = 1 then
    require (2 ≤ size ∧ size ≤ MAX_OPTIONS) "choice size"
    require (reviewOption = 255 ∨ reviewOption < size) "review index"
  else if kind = 2 then
    require (2 ≤ size ∧ size ≤ 10 ∧ reviewOption = 255) "score size"
  else
    require (kind = 3 ∧ size = 0 ∧ reviewOption = 255) "noul schema"

def registerTemplate (template : Template) : Except String Effect := do
  require (msg.sender = d.owner) "owner only"
  let n := template.kinds.length
  require (template.documentHash ≠ 0 ∧ template.modelHash ≠ 0) "missing hash"
  require (0 < n ∧ n ≤ MAX_QUESTIONS) "question count"
  require (n = template.sizes.length ∧ n = template.minProbabilityPpm.length ∧
    n = template.minConfidencePpm.length ∧ n = template.reviewOption.length) "schema lengths"
  (List.range n).forM (checkQuestion template)
  let id ← checkedAdd 64 hub.templateCount 1
  return {
    hub := { hub with
      templateCount := id
      templates := update hub.templates id { template with active := true } }
    returned := .templateId id }

def disableTemplate (id : ℕ) : Except String Effect := do
  require (msg.sender = d.owner) "owner only"
  require ((hub.templates id).active = true) "inactive template"
  return { hub := { hub with
    templates := update hub.templates id { hub.templates id with active := false } } }

section Attested

variable [HubCrypto]

def authenticated (hub : DecisionHub) (version : ℕ) (digest : B256) (signature : Bytes) :
    Except String Unit := do
  let signer := hub.signerAt version
  require (signer ≠ 0 ∧ hub.signerRevoked version = false) "signer unavailable"
  let recovered ← recover digest signature
  require (recovered = signer) "bad signer"

variable (hub : DecisionHub) (d : Deployment) (msg : Msg)

def requestDecision (q : Quote) (signature : Bytes) : Except String Effect := do
  require (hub.requestsPaused = false) "requests paused"
  require (q.requester = msg.sender ∧ q.refundTo ≠ 0) "quote parties"
  require (q.inputHash ≠ 0 ∧ (hub.templates q.templateId).active = true) "input or template"
  require (q.signerVersion = hub.activeSignerVersion) "stale signer"
  require (q.deadline > msg.timestamp) "deadline"
  let latest ← checkedAdd 256 msg.timestamp DAY
  require (q.deadline ≤ latest) "deadline"
  require (q.quoteExpiry ≥ msg.timestamp ∧ q.quoteExpiry ≤ q.deadline) "quote expired"
  require (msg.value = q.fee) "fee mismatch"
  hub.authenticated q.signerVersion (quoteDigest d q) signature
  let requestId := hub.nextRequestId
  let nextRequestId ← checkedAdd 256 requestId 1
  return {
    hub := { hub with
      nextRequestId := nextRequestId
      requests := update hub.requests requestId { hub.requests requestId with
        requester := q.requester
        refundTo := q.refundTo
        consumer := q.consumer
        templateId := q.templateId
        deadline := q.deadline
        signerVersion := q.signerVersion
        inputHash := q.inputHash
        fee := q.fee } }
    returned := .requestId requestId }

/-- The checks of the distribution of one answer; the largest probability. -/
def checkDistribution (probabilities : List ℕ) (size : ℕ) : Except String ℕ := do
  probabilities.forM fun p => require (p ≤ PPM) "probability range"
  require (probabilities.sum ≤ PPM ∧ probabilities.sum + size ≥ PPM) "distribution sum"
  return probabilities.foldl max 0

/-- The checks of one answer, and whether it asks for a review. -/
def validateAnswer (t : Template) (i : ℕ) (a : Answer) : Except String Bool := do
  let size ← element t.sizes i
  let kind ← element t.kinds i
  require (a.kind = kind) "answer type"
  require (a.valuePpm ≤ (if size > 0 then (size - 1) * PPM else PPM) % 2 ^ 32) "value range"
  require (a.confidencePpm ≤ PPM) "confidence range"
  if a.kind = 3 then
    require (size = 0 ∧ a.selected = 0 ∧ a.confidencePpm = 0 ∧ a.probabilitiesPpm = [])
      "noul shape"
    let minProbability ← element t.minProbabilityPpm i
    return a.valuePpm < minProbability
  else
    require (a.probabilitiesPpm.length = size ∧ a.selected < size) "distribution shape"
    let maxProbability ← checkDistribution a.probabilitiesPpm size
    if a.kind = 1 then
      let chosen ← element a.probabilitiesPpm a.selected
      require (a.valuePpm = 0 ∧ chosen = maxProbability) "choice mismatch"
      let minProbability ← element t.minProbabilityPpm i
      let minConfidence ← element t.minConfidencePpm i
      let reviewOption ← element t.reviewOption i
      return maxProbability < minProbability ∨ a.confidencePpm < minConfidence ∨
        a.selected = reviewOption
    else
      require (a.selected = 0) "score shape"
      let minConfidence ← element t.minConfidencePpm i
      return a.confidencePpm < minConfidence

def validateAnswers (t : Template) (answers : List Answer) : Except String Bool := do
  require (answers.length = t.kinds.length) "answer count"
  answers.zipIdx.foldlM (fun review answer => do
    let asks ← validateAnswer t answer.2 answer.1
    return review || asks) false

def fulfill (requestId : ℕ) (answers : List Answer) (evidenceHash modelHash : B256)
    (signature : Bytes) : Except String Effect := do
  let r := hub.requests requestId
  require (r.requester ≠ 0 ∧ r.status = .pending) "not pending"
  require (msg.timestamp < r.deadline) "deadline reached"
  require (evidenceHash ≠ 0) "missing evidence"
  let t := hub.templates r.templateId
  require (modelHash = t.modelHash) "model mismatch"
  let answerHash := Keccak.keccak256 (abiAnswers answers)
  hub.authenticated r.signerVersion
    (resultDigest d requestId answerHash evidenceHash modelHash r.signerVersion) signature
  let review ← validateAnswers t answers
  let serviceBalance ← checkedAdd 256 hub.serviceBalance r.fee
  return {
    hub := { hub with
      requests := update hub.requests requestId { r with
        status := if review then .review else .ready
        answerHash := answerHash
        evidenceHash := evidenceHash
        answers := abiAnswers answers }
      serviceBalance := serviceBalance }
    addition := some (.service requestId r.fee) }

end Attested

def consume (requestId : ℕ) : Except String Effect := do
  let r := hub.requests requestId
  require (r.consumer = msg.sender ∧ r.consumer ≠ 0) "wrong consumer"
  require (r.status = .ready) "not ready"
  return {
    hub := { hub with
      requests := update hub.requests requestId { r with status := .consumed } }
    returned := .answers r.answers }

def expire (requestId : ℕ) : Except String Effect := do
  let r := hub.requests requestId
  require (r.requester ≠ 0 ∧ r.status = .pending) "not pending"
  require (msg.timestamp ≥ r.deadline ∨ hub.signerRevoked r.signerVersion = true) "not expired"
  let credit ← checkedAdd 256 (hub.refundCredits r.refundTo) r.fee
  return {
    hub := { hub with
      requests := update hub.requests requestId { r with status := .expired }
      refundCredits := update hub.refundCredits r.refundTo credit }
    addition := some (.credit requestId r.refundTo r.fee) }

def withdrawRefund : Except String Effect := do
  let amount := hub.refundCredits msg.sender
  require (amount > 0) "no refund"
  return {
    hub := { hub with refundCredits := update hub.refundCredits msg.sender 0 }
    payment := some (.refund msg.sender amount) }

def withdrawServiceFees (hub : DecisionHub) (d : Deployment) (msg : Msg) (receiver : Address)
    (amount : ℕ) : Except String Effect := do
  require (msg.sender = d.owner) "owner only"
  require (receiver ≠ 0 ∧ amount ≤ hub.serviceBalance) "fee withdrawal"
  return {
    hub := { hub with serviceBalance := hub.serviceBalance - amount }
    payment := some (.fees receiver amount) }

end DecisionHub

inductive Method where
  | addSigner (signer : Address)
  | revokeSigner (version : ℕ)
  | setRequestsPaused (paused : Bool)
  | registerTemplate (template : Template)
  | disableTemplate (id : ℕ)
  | requestDecision (q : Quote) (signature : Bytes)
  | fulfill (requestId : ℕ) (answers : List Answer) (evidenceHash modelHash : B256)
      (signature : Bytes)
  | consume (requestId : ℕ)
  | expire (requestId : ℕ)
  | withdrawRefund
  | withdrawServiceFees (receiver : Address) (amount : ℕ)

def Method.payable : Method → Bool
  | .requestDecision _ _ => true
  | _ => false

/-- The contract's account, with the fees it added and the ether it sent so far. -/
structure World where
  hub : DecisionHub
  balance : ℕ
  timestamp : ℕ
  additions : List Addition := []
  payments : List Payment := []

inductive Call where
  | hub (sender : Address) (value : ℕ) (method : Method)
  /-- The next block. -/
  | newBlock (timestamp : ℕ)
  /-- Ether that arrives without a call, as from `selfdestruct`. -/
  | forced (amount : ℕ)

def Payment.amount : Payment → ℕ
  | .refund _ amount => amount
  | .fees _ amount => amount

def Payment.receiver : Payment → Address
  | .refund receiver _ => receiver
  | .fees receiver _ => receiver

def Payment.failure : Payment → String
  | .refund _ _ => "refund failed"
  | .fees _ _ => "fee transfer failed"

variable [HubCrypto]

def DecisionHub.dispatch (hub : DecisionHub) (d : Deployment) (msg : Msg) :
    Method → Except String Effect
  | .addSigner signer => hub.addSigner d msg signer
  | .revokeSigner version => hub.revokeSigner d msg version
  | .setRequestsPaused paused => hub.setRequestsPaused d msg paused
  | .registerTemplate template => hub.registerTemplate d msg template
  | .disableTemplate id => hub.disableTemplate d msg id
  | .requestDecision q signature => hub.requestDecision d msg q signature
  | .fulfill requestId answers evidenceHash modelHash signature =>
    hub.fulfill d msg requestId answers evidenceHash modelHash signature
  | .consume requestId => hub.consume msg requestId
  | .expire requestId => hub.expire msg requestId
  | .withdrawRefund => hub.withdrawRefund msg
  | .withdrawServiceFees receiver amount => hub.withdrawServiceFees d msg receiver amount

omit [HubCrypto] in
def World.applied (w : World) (value : ℕ) (effect : Effect) : World :=
  ⟨effect.hub, w.balance + value, w.timestamp, w.additions ++ effect.addition.toList, w.payments⟩

omit [HubCrypto] in
def World.paid (w : World) (payment : Payment) : World :=
  ⟨w.hub, w.balance - payment.amount, w.timestamp, w.additions, w.payments ++ [payment]⟩

/-- A call of the hub's account. The transfer fails at once when the balance does not cover it, and
when it goes to the hub itself, which has no `receive`. -/
def World.exec (d : Deployment) : Call → World → Except String (Reply World)
  | .newBlock timestamp, w => do
    require (w.timestamp ≤ timestamp) "block order"
    return .returns { w with timestamp := timestamp }
  | .forced amount, w => .ok (.returns { w with balance := w.balance + amount })
  | .hub sender value method, w => do
    require (value = 0 ∨ method.payable = true) "not payable"
    let effect ← w.hub.dispatch d ⟨sender, value, w.timestamp⟩ method
    let after := w.applied value effect
    match effect.payment with
    | none => return .returns after
    | some payment =>
      require (payment.amount ≤ after.balance ∧ payment.receiver ≠ d.this) payment.failure
      return .suspends (after.paid payment)

omit [HubCrypto] in
def World.deploy (initialSigner : Address) (balance timestamp : ℕ) : Except String World := do
  require (initialSigner ≠ 0) "zero signer"
  return {
    hub := { activeSignerVersion := 1, signerAt := update (fun _ => 0) 1 initialSigner }
    balance := balance
    timestamp := timestamp }

end N42.Decision
