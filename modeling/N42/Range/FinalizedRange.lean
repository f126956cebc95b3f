import N42.Gov5.Block
import N42.Range.CompactReceipts

/-!
Finalized ranges (`n42-network/src/finalized_range.rs`): a stream of consecutive blocks, each with
header, block and compact receipts, under one trailing digest. Verifying and decoding are one
parser.
-/

namespace N42.Range

open Lib Gov5

/-- The third-party functions of the stream parser. -/
class RangeCrypto (Tx : Type) extends ChainCrypto Tx where
  blake3 : Bytes → B256
  decodeConsensusHeader : Bytes → Option (Header × Bytes)

def MAGIC : Bytes := [0x4e, 0x34, 0x32, 0x46, 0x52, 0x4e, 0x47, 0x01]

def MAX_FINALIZED_RANGE_BLOCKS : ℕ := 1024

def MAX_BLOB_SIZE : ℕ := 16 * 2 ^ 20

def MAX_MATERIALIZED_FINALIZED_RANGE_BYTES : ℕ := 256 * 2 ^ 20

inductive FinalizedRangeError where
  | io (message : String)
  | version
  | chainIdentity
  | bounds
  | nonContiguous (number : ℕ)
  | parentMismatch (number : ℕ)
  | invalidBlob (number : ℕ)
  | headerHashMismatch (number : ℕ)
  | headerFieldsMismatch (number : ℕ)
  | blockHeaderMismatch (number : ℕ)
  | invalidTransactions (number : ℕ)
  | transactionRootMismatch (number : ℕ)
  | receiptCountMismatch (number : ℕ)
  | invalidReceipts (number : ℕ) (error : CompactReceiptError)
  | receiptRootMismatch (number : ℕ)
  | materializedBytes
  | contentHashMismatch
  | trailingBytes
deriving DecidableEq

structure FinalizedRangeVerification where
  chainId : ℕ
  genesisHash : B256
  fromBlock : ℕ
  toBlock : ℕ
  blockCount : ℕ
  transactionCount : ℕ
  firstParentHash : B256
  lastBlockHash : B256
  lastStateRoot : B256
  lastReceiptsRoot : B256
deriving DecidableEq

structure VerifiedFinalizedRangeEntry (Tx : Type) where
  number : ℕ
  blockHash : B256
  parentHash : B256
  stateRoot : B256
  receiptsRoot : B256
  transactionsRoot : B256
  header : Header
  headerRlp : Bytes
  blockRlp : Bytes
  transactions : List Tx
  receipts : List EthereumReceipt
deriving DecidableEq

structure VerifiedFinalizedRange (Tx : Type) where
  verification : FinalizedRangeVerification
  entries : List (VerifiedFinalizedRangeEntry Tx)
deriving DecidableEq

structure HashingReader where
  inner : Bytes
  hashed : Bytes

def unexpectedEof : FinalizedRangeError := .io "failed to fill whole buffer"

def HashingReader.array (n : ℕ) (reader : HashingReader) :
    Except FinalizedRangeError (Bytes × HashingReader) :=
  if n ≤ reader.inner.length then
    .ok (reader.inner.take n, ⟨reader.inner.drop n, reader.hashed ++ reader.inner.take n⟩)
  else .error unexpectedEof

def HashingReader.u64 (reader : HashingReader) :
    Except FinalizedRangeError (ℕ × HashingReader) := do
  let read ← reader.array 8
  return (leNat read.1, read.2)

def HashingReader.b256 (reader : HashingReader) :
    Except FinalizedRangeError (B256 × HashingReader) := do
  let read ← reader.array 32
  return (BitVec.ofNat 256 (beNat read.1), read.2)

variable (number : ℕ) (reader : HashingReader)

def HashingReader.blob : Except FinalizedRangeError (Bytes × HashingReader) := do
  let size ← reader.array 4
  if leNat size.1 = 0 ∨ leNat size.1 > MAX_BLOB_SIZE then throw (.invalidBlob number)
  size.2.array (leNat size.1)

def HashingReader.optionalBlob : Except FinalizedRangeError (Bytes × HashingReader) := do
  let size ← reader.array 4
  if leNat size.1 > MAX_BLOB_SIZE then throw (.invalidBlob number)
  size.2.array (leNat size.1)

section Parser

variable (Tx : Type) [RangeCrypto Tx]

/-- The digest is not hashed itself, and nothing follows it. -/
def HashingReader.finish (reader : HashingReader) : Except FinalizedRangeError Unit :=
  if reader.inner.length < 32 then .error unexpectedEof
  else if (RangeCrypto.blake3 Tx reader.hashed).toBytes ≠ reader.inner.take 32 then
    .error .contentHashMismatch
  else if reader.inner.drop 32 ≠ [] then .error .trailingBytes
  else .ok ()

def decodeHeader (encoded : Bytes) : Option Header := do
  let decoded ← RangeCrypto.decodeConsensusHeader Tx encoded
  if decoded.2 = [] then some decoded.1 else none

def embeddedHeader (block : Bytes) : Option Bytes := do
  let payload ← listPayload block
  let taken ← takeRlpItem payload
  return taken.1

def leadingListPayload (bytes : Bytes) : Option Bytes :=
  match Rlp.Header.decode bytes with
  | .error _ => none
  | .ok head =>
    if head.1.list = true ∧ head.1.payloadLength ≤ head.2.length then
      some (head.2.take head.1.payloadLength)
    else none

def blockTransactions (block : Bytes) : Option (List Tx) := do
  let payload ← listPayload block
  let header ← takeRlpItem payload
  let transactions ← leadingListPayload header.2
  decodeTransactionItems Tx transactions.length transactions

def gov5NativeReceiptsRoot (receipts : List EthereumReceipt) : B256 :=
  Keccak.keccak256 (encodeReceipts receipts)

def orError {α : Type} (err : FinalizedRangeError) (x : Option α) : Except FinalizedRangeError α :=
  match x with
  | some a => .ok a
  | none => .error err

structure BlockRead where
  entry : VerifiedFinalizedRangeEntry Tx
  receiptsBytes : Bytes
  transactionCount : ℕ
  reader : HashingReader

structure RangeState where
  reader : HashingReader
  previousHash : Option B256
  firstParentHash : B256
  last : B256 × B256 × B256
  transactionCount : ℕ
  materializedBytes : ℕ
  entries : List (VerifiedFinalizedRangeEntry Tx)

variable {Tx}

/-- The body of the loop up to what only decoding does. -/
def readBlock (fromBlock index : ℕ) (previousHash : Option B256) (transactionCount : ℕ)
    (reader : HashingReader) : Except FinalizedRangeError (BlockRead Tx) := do
  let number ← reader.u64
  if number.1 ≠ fromBlock + index then throw (.nonContiguous number.1)
  let blockHash ← number.2.b256
  let parentHash ← blockHash.2.b256
  let stateRoot ← parentHash.2.b256
  let receiptsRoot ← stateRoot.2.b256
  let txRoot ← receiptsRoot.2.b256
  if index ≠ 0 ∧ previousHash ≠ some parentHash.1 then throw (.parentMismatch number.1)
  let header ← txRoot.2.blob number.1
  if Keccak.keccak256 header.1 ≠ blockHash.1 then throw (.headerHashMismatch number.1)
  let decodedHeader ← orError (.headerFieldsMismatch number.1) (decodeHeader Tx header.1)
  if decodedHeader.number.toNat ≠ number.1 ∨ decodedHeader.parentHash ≠ parentHash.1 ∨
      decodedHeader.stateRoot ≠ stateRoot.1 ∨ decodedHeader.transactionsRoot ≠ txRoot.1 ∨
      decodedHeader.receiptsRoot ≠ receiptsRoot.1 then
    throw (.headerFieldsMismatch number.1)
  let block ← header.2.blob number.1
  if embeddedHeader block.1 ≠ some header.1 then throw (.blockHeaderMismatch number.1)
  let transactions ← orError (.invalidTransactions number.1) (blockTransactions Tx block.1)
  if ChainCrypto.calculateTransactionRoot transactions ≠ txRoot.1 then
    throw (.transactionRootMismatch number.1)
  let receiptsBytes ← block.2.optionalBlob number.1
  let receipts ← (decodeCompactReceipts receiptsBytes.1).mapError (.invalidReceipts number.1)
  if transactions.length ≠ receipts.length then throw (.receiptCountMismatch number.1)
  if transactionCount + receipts.length ≥ 2 ^ 64 then throw .bounds
  -- block zero may carry Ethereum's empty trie root instead
  if gov5NativeReceiptsRoot Tx receipts ≠ receiptsRoot.1 ∧
      ¬ (number.1 = 0 ∧ receipts.isEmpty = true ∧
        receiptsRoot.1 = ChainCrypto.calculateTransactionRoot ([] : List Tx)) then
    throw (.receiptRootMismatch number.1)
  return {
    entry := {
      number := number.1, blockHash := blockHash.1, parentHash := parentHash.1
      stateRoot := stateRoot.1, receiptsRoot := receiptsRoot.1, transactionsRoot := txRoot.1
      header := decodedHeader, headerRlp := header.1, blockRlp := block.1
      transactions := transactions, receipts := receipts }
    receiptsBytes := receiptsBytes.1
    transactionCount := transactionCount + receipts.length
    reader := receiptsBytes.2 }

def RangeState.advance (st : RangeState Tx) (index : ℕ) (block : BlockRead Tx) : RangeState Tx :=
  { st with
    reader := block.reader
    previousHash := some block.entry.blockHash
    firstParentHash := if index = 0 then block.entry.parentHash else st.firstParentHash
    last := (block.entry.blockHash, block.entry.stateRoot, block.entry.receiptsRoot)
    transactionCount := block.transactionCount }

/-- The retained bytes count the header, the block and the receipts. -/
def RangeState.retain (materialize : Bool) (block : BlockRead Tx) (st : RangeState Tx) :
    Except FinalizedRangeError (RangeState Tx) :=
  if materialize then
    let size := st.materializedBytes + block.entry.headerRlp.length +
      block.entry.blockRlp.length + block.receiptsBytes.length
    if size > MAX_MATERIALIZED_FINALIZED_RANGE_BYTES then .error .materializedBytes
    else .ok { st with materializedBytes := size, entries := st.entries ++ [block.entry] }
  else .ok st

def parseBlock (materialize : Bool) (fromBlock index : ℕ) (st : RangeState Tx) :
    Except FinalizedRangeError (RangeState Tx) := do
  let block ← readBlock fromBlock index st.previousHash st.transactionCount st.reader
  (st.advance index block).retain materialize block

def parseBlocks (materialize : Bool) (fromBlock : ℕ) :
    ℕ → ℕ → RangeState Tx → Except FinalizedRangeError (RangeState Tx)
  | 0, _, st => .ok st
  | count + 1, index, st => do
    let next ← parseBlock materialize fromBlock index st
    parseBlocks materialize fromBlock count (index + 1) next

def RangeState.start (reader : HashingReader) : RangeState Tx where
  reader := reader
  previousHash := none
  firstParentHash := 0
  last := (0, 0, 0)
  transactionCount := 0
  materializedBytes := 0
  entries := []

variable (Tx)

variable (stream : Bytes) (expectedChainId : ℕ) (expectedGenesisHash : B256)

def parseFinalizedRangeStream (materialize : Bool) :
    Except FinalizedRangeError (VerifiedFinalizedRange Tx) := do
  let magic ← HashingReader.array 8 ⟨stream, []⟩
  if magic.1 ≠ MAGIC then throw .version
  let chainId ← magic.2.u64
  let genesisHash ← chainId.2.b256
  if chainId.1 ≠ expectedChainId ∨ genesisHash.1 ≠ expectedGenesisHash then throw .chainIdentity
  let fromBlock ← genesisHash.2.u64
  let toBlock ← fromBlock.2.u64
  let blockCount ← toBlock.2.u64
  -- a span that overflows is over the maximum
  if blockCount.1 = 0 ∨ blockCount.1 > MAX_FINALIZED_RANGE_BLOCKS ∨ fromBlock.1 > toBlock.1 ∨
      toBlock.1 - fromBlock.1 + 1 ≠ blockCount.1 then throw .bounds
  let st ← parseBlocks materialize fromBlock.1 blockCount.1 0 (RangeState.start blockCount.2)
  let _ ← st.reader.finish Tx
  return {
    verification := {
      chainId := chainId.1, genesisHash := genesisHash.1, fromBlock := fromBlock.1
      toBlock := toBlock.1, blockCount := blockCount.1, transactionCount := st.transactionCount
      firstParentHash := st.firstParentHash, lastBlockHash := st.last.1
      lastStateRoot := st.last.2.1, lastReceiptsRoot := st.last.2.2 }
    entries := st.entries }

def verifyFinalizedRangeStream : Except FinalizedRangeError FinalizedRangeVerification := do
  let range ← parseFinalizedRangeStream Tx stream expectedChainId expectedGenesisHash false
  return range.verification

def decodeFinalizedRangeStream : Except FinalizedRangeError (VerifiedFinalizedRange Tx) :=
  parseFinalizedRangeStream Tx stream expectedChainId expectedGenesisHash true

end Parser

end N42.Range
