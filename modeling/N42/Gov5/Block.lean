import N42.Gov5.NativeHeader

/-!
gov5's sealed blocks on the wire (`n42-network/src/gov5_block.rs`): a list of a native header,
transactions, verifiers, rewards and an optional proof. Only the header is hashed.
-/

namespace N42.Gov5

open Lib
open Rlp (encodeWord encodeNumber)

/-- The third-party functions of the block decoder, over the type of transactions. -/
class ChainCrypto (Tx : Type) extends Keccak where
  decode2718 : Bytes → Option (Tx × Bytes)
  calculateTransactionRoot : List Tx → B256

def EMPTY_OMMER_ROOT_HASH : B256 :=
  0x1dcc4de8dec75d7aab85b567b6ccd41ad312451b948a7413f0a142fd40d49347

def EMPTY_ROOT_HASH : B256 :=
  0x56e81f171bcc55a6ff8345e692c0f86e5b48e01b996cadc001622fb5e363b421

def GOV5_HEADER_EXTRA_MAGIC : Bytes := [0x4e, 0x34, 0x32, 0x48]

def MIN_GOV5_HEADER_EXTRA_BYTES : ℕ := 12

def MAX_GOV5_HEADER_EXTRA_BYTES : ℕ := 4096

inductive N42HeaderProfileError where
  | gov5ExtraTooShort (length : ℕ)
  | gov5ExtraTooLong (length : ℕ)
  | gov5ExtraInvalidMagic
  | gov5OmmersHash (hash : B256)
  | gov5Difficulty (difficulty : BitVec 256)
  | gov5ReplayV2Shape (reason : String)

inductive Gov5BlockError where
  | invalidRlp
  | headerProfile (error : N42HeaderProfileError)
  | transactionRootMismatch
  | rewardsRootMismatch

structure Gov5Reward where
  address : Address
  amount : BitVec 256
deriving DecidableEq

structure Gov5GossipBlock (Tx : Type) where
  blockHash : B256
  header : Header
  transactions : List Tx
  rewards : List Gov5Reward
  mobileRegistryRoot : Option B256
deriving DecidableEq

def validateGov5HeaderExtra (extraData : Bytes) : Except N42HeaderProfileError Unit :=
  if extraData.length < MIN_GOV5_HEADER_EXTRA_BYTES then
    .error (.gov5ExtraTooShort extraData.length)
  else if extraData.length > MAX_GOV5_HEADER_EXTRA_BYTES then
    .error (.gov5ExtraTooLong extraData.length)
  else if GOV5_HEADER_EXTRA_MAGIC.isPrefixOf extraData = false then .error .gov5ExtraInvalidMagic
  else .ok ()

def validateGov5H2Header (header : Header) : Except N42HeaderProfileError Unit :=
  if header.ommersHash ≠ 0 then .error (.gov5OmmersHash header.ommersHash)
  else if header.difficulty ≠ 0 ∧ header.difficulty ≠ 1 then
    .error (.gov5Difficulty header.difficulty)
  else validateGov5HeaderExtra header.extraData.bytes

section Decoder

variable (Tx : Type) [ChainCrypto Tx]

def validateGov5ReplayV2Header (header : Header) : Except N42HeaderProfileError Unit :=
  if header.ommersHash ≠ EMPTY_OMMER_ROOT_HASH then
    .error (.gov5ReplayV2Shape "ommers hash is not the canonical empty-list hash")
  else if header.difficulty ≠ 0 then .error (.gov5ReplayV2Shape "difficulty is not zero")
  else if header.extraData.bytes ≠ List.replicate 32 0 then
    .error (.gov5ReplayV2Shape "extra data is not exactly 32 zero bytes")
  else if header.withdrawalsRoot ≠ some (Keccak.keccak256 []) then
    .error (.gov5ReplayV2Shape "empty reward-list root is not keccak(empty)")
  else if header.blobGasUsed ≠ some 0 ∨ header.excessBlobGas ≠ some 0 then
    .error (.gov5ReplayV2Shape "blob gas fields are not both zero")
  else if header.parentBeaconBlockRoot = none then
    .error (.gov5ReplayV2Shape "parent consensus-evidence root is absent")
  else if header.requestsHash ≠ some EMPTY_ROOT_HASH then
    .error (.gov5ReplayV2Shape "execution requests root is not the canonical empty root")
  else if header.blockAccessListHash ≠ none then
    .error (.gov5ReplayV2Shape "block access list is unsupported in replay-v2 v1 history")
  else .ok ()

def validateGov5InteropHeader (header : Header) : Except N42HeaderProfileError Unit :=
  if GOV5_HEADER_EXTRA_MAGIC.isPrefixOf header.extraData.bytes then validateGov5H2Header header
  else validateGov5ReplayV2Header Tx header

omit [ChainCrypto Tx] in
def listPayload (encoded : Bytes) : Option Bytes :=
  match Rlp.Header.decode encoded with
  | .error _ => none
  | .ok head =>
    if head.1.list = true ∧ head.1.payloadLength = head.2.length then some head.2 else none

def takeRlpItem (cursor : Bytes) : Option (Bytes × Bytes) := Rlp.takeItem cursor

def takeRlpBytes (cursor : Bytes) : Option (Bytes × Bytes) :=
  match Rlp.Header.decode cursor with
  | .error _ => none
  | .ok head =>
    if head.1.list = true ∨ head.1.payloadLength > head.2.length then none
    else some (head.2.take head.1.payloadLength, head.2.drop head.1.payloadLength)

def takeRlpListItem (cursor : Bytes) : Option (Bytes × Bytes) := do
  let taken ← takeRlpItem cursor
  let _ ← listPayload taken.1
  return taken

/-- `[address, amount]`. -/
def decodeReward (item : Bytes) : Option Gov5Reward := do
  let cursor ← listPayload item
  let address ← (decodeWord 160 20 cursor).toOption
  let amount ← (decodeNumber 256 32 address.2).toOption
  if amount.2 = [] then some ⟨address.1, amount.1⟩ else none

/-- The rewards of a payload, which has at most `fuel` items. -/
def decodeRewardItems : ℕ → Bytes → Option (List Gov5Reward)
  | _, [] => some []
  | 0, _ :: _ => none
  | fuel + 1, byte :: payload => do
    let taken ← takeRlpListItem (byte :: payload)
    let reward ← decodeReward taken.1
    let rewards ← decodeRewardItems fuel taken.2
    return reward :: rewards

variable (encoded : Bytes)

def decodeRewards : Option (List Gov5Reward) := do
  let payload ← listPayload encoded
  decodeRewardItems payload.length payload

/-- The transactions of a payload, which has at most `fuel` items. -/
def decodeTransactionItems : ℕ → Bytes → Option (List Tx)
  | _, [] => some []
  | 0, _ :: _ => none
  | fuel + 1, byte :: payload => do
    let taken ← takeRlpBytes (byte :: payload)
    let transaction ← ChainCrypto.decode2718 taken.1
    if transaction.2 ≠ [] then none
    else
      let transactions ← decodeTransactionItems fuel taken.2
      return transaction.1 :: transactions

def decodeTransactions : Option (List Tx) := do
  let payload ← listPayload encoded
  decodeTransactionItems Tx payload.length payload

def Gov5Reward.encode (reward : Gov5Reward) : Bytes :=
  Rlp.Header.encode
      ⟨true, (encodeWord 20 reward.address).length + (encodeNumber reward.amount).length⟩ ++
    encodeWord 20 reward.address ++ encodeNumber reward.amount

def gov5NativeRewardsRoot (rewards : List Gov5Reward) : B256 :=
  Keccak.keccak256 (rewards.map Gov5Reward.encode).flatten

def attributableHash : Option B256 := do
  let payload ← listPayload encoded
  let headerRlp ← takeRlpItem payload
  let _ ← (Gov5NativeHeader.decode headerRlp.1).toOption
  return Keccak.keccak256 headerRlp.1

def orInvalid {α : Type} (x : Option α) : Except Gov5BlockError α :=
  match x with
  | some a => .ok a
  | none => .error .invalidRlp

def skipProof (payload : Bytes) : Option Bytes :=
  if payload = [] then some [] else (takeRlpBytes payload).map Prod.snd

def rewardsMatch (header : Header) (rewards : List Gov5Reward) : Bool :=
  match header.withdrawalsRoot.filter fun _ =>
    !(validateGov5ReplayV2Header Tx header).toOption.isSome with
  | some root => gov5NativeRewardsRoot Tx rewards = root
  | none => rewards.isEmpty

def decodeGov5BlockRlp : Except Gov5BlockError (Gov5GossipBlock Tx) := do
  let payload ← orInvalid (listPayload encoded)
  let headerRlp ← orInvalid (takeRlpItem payload)
  let native ← orInvalid (Gov5NativeHeader.decode headerRlp.1).toOption
  if native.encode ≠ headerRlp.1 then throw .invalidRlp
  (validateGov5InteropHeader Tx native.header).mapError .headerProfile
  let transactionsRlp ← orInvalid (takeRlpItem headerRlp.2)
  let transactions ← orInvalid (decodeTransactions Tx transactionsRlp.1)
  let verifiers ← orInvalid (takeRlpListItem transactionsRlp.2)
  let rewardsRlp ← orInvalid (takeRlpListItem verifiers.2)
  let rewards ← orInvalid (decodeRewards rewardsRlp.1)
  let rest ← orInvalid (skipProof rewardsRlp.2)
  if rest ≠ [] then throw .invalidRlp
  if ChainCrypto.calculateTransactionRoot transactions ≠ native.header.transactionsRoot then
    throw .transactionRootMismatch
  if rewardsMatch Tx native.header rewards = false then throw .rewardsRootMismatch
  return {
    blockHash := Keccak.keccak256 headerRlp.1
    header := native.header
    transactions := transactions
    rewards := rewards
    mobileRegistryRoot := native.mobileRegistryRoot }

end Decoder

end N42.Gov5
