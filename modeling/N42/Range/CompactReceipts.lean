import N42.Gov5.NativeHeader
import N42.Lib.Frame

/-!
Compact receipts (`n42-network/src/compact_receipts.rs`) and the root that gov5 commits to
(`n42-consensus/src/receipt.rs`), which hashes another encoding of them.
-/

namespace N42.Range

open Lib Gov5
open Rlp (encodeWord encodeNumber)

def MAX_RECEIPTS_PER_BLOCK : ℕ := 250000

def MAX_LOGS_PER_BLOCK : ℕ := 1000000

inductive CompactReceiptError where
  | truncated
  | reservedFlags
  | unsupportedType (txType : UInt8)
  | invalidGasLength (length : ℕ)
  | invalidVarint
  | tooManyTopics (count : ℕ)
  | tooManyReceipts
  | tooManyLogs
deriving DecidableEq

inductive TxType where
  | legacy
  | eip2930
  | eip1559
  | eip4844
  | eip7702
deriving DecidableEq

def TxType.ofByte (byte : UInt8) : Option TxType :=
  if byte = 0 then some .legacy
  else if byte = 1 then some .eip2930
  else if byte = 2 then some .eip1559
  else if byte = 3 then some .eip4844
  else if byte = 4 then some .eip7702
  else none

structure Log where
  address : Address
  topics : List B256
  data : Bytes
deriving DecidableEq

structure EthereumReceipt where
  txType : TxType
  success : Bool
  cumulativeGasUsed : BitVec 64
  logs : List Log
deriving DecidableEq

def Cursor.take (len : ℕ) (bytes : Bytes) : Except CompactReceiptError (Bytes × Bytes) :=
  Frame.take .truncated len bytes

variable (bytes : Bytes)

def Cursor.byte : Except CompactReceiptError (UInt8 × Bytes) :=
  match bytes with
  | [] => .error .truncated
  | byte :: rest => .ok (byte, rest)

def Cursor.varintFrom : ℕ → ℕ → BitVec 64 → Bytes → Except CompactReceiptError (BitVec 64 × Bytes)
  | 0, _, _, _ => .error .invalidVarint
  | left + 1, index, value, bytes => do
    let taken ← Cursor.byte bytes
    let byte := taken.1
    if index = 9 ∧ byte > 1 then throw .invalidVarint
    let value := value ||| (BitVec.ofNat 64 (byte &&& 0x7f).toNat <<< (index * 7))
    if byte &&& 0x80 = 0 then
      if index > 0 ∧ value < 1#64 <<< (index * 7) then throw .invalidVarint
      else return (value, taken.2)
    else varintFrom left (index + 1) value taken.2

def Cursor.varint : Except CompactReceiptError (BitVec 64 × Bytes) :=
  varintFrom 10 0 0 bytes

def Cursor.topics : ℕ → Bytes → Except CompactReceiptError (List B256 × Bytes)
  | 0, bytes => .ok ([], bytes)
  | count + 1, bytes => do
    let word ← Cursor.take 32 bytes
    let rest ← topics count word.2
    return (BitVec.ofNat 256 (beNat word.1) :: rest.1, rest.2)

def Cursor.log : Except CompactReceiptError (Log × Bytes) := do
  let address ← Cursor.take 20 bytes
  let topicCount ← Cursor.byte address.2
  if topicCount.1.toNat > 4 then throw (.tooManyTopics topicCount.1.toNat)
  let topics ← Cursor.topics topicCount.1.toNat topicCount.2
  let dataLen ← Cursor.varint topics.2
  let data ← Cursor.take dataLen.1.toNat dataLen.2
  return (⟨BitVec.ofNat 160 (beNat address.1), topics.1, data.1⟩, data.2)

def Cursor.logs : ℕ → Bytes → Except CompactReceiptError (List Log × Bytes)
  | 0, bytes => .ok ([], bytes)
  | count + 1, bytes => do
    let log ← Cursor.log bytes
    let rest ← logs count log.2
    return (log.1 :: rest.1, rest.2)

/-- The byte of the transaction type: the low bits of the flags, or a byte of its own after `3`. -/
def Cursor.encodedType (flags : UInt8) (bytes : Bytes) :
    Except CompactReceiptError (UInt8 × Bytes) :=
  if flags &&& 0x03 = 3 then Cursor.byte bytes else .ok (flags &&& 0x03, bytes)

def Cursor.txType (flags : UInt8) (bytes : Bytes) :
    Except CompactReceiptError (TxType × Bytes) := do
  let encoded ← Cursor.encodedType flags bytes
  match TxType.ofByte encoded.1 with
  | none => throw (.unsupportedType encoded.1)
  | some txType => return (txType, encoded.2)

def Cursor.receipt (totalLogs : ℕ) (bytes : Bytes) :
    Except CompactReceiptError ((EthereumReceipt × ℕ) × Bytes) := do
  let flags ← Cursor.byte bytes
  if flags.1 &&& 0x80 ≠ 0 then throw .reservedFlags
  let txType ← Cursor.txType flags.1 flags.2
  let gasLen := ((flags.1 >>> 3) &&& 0x0f).toNat
  if gasLen > 8 then throw (.invalidGasLength gasLen)
  let gas ← Cursor.take gasLen txType.2
  let logCount ← Cursor.varint gas.2
  if totalLogs + logCount.1.toNat > MAX_LOGS_PER_BLOCK then throw .tooManyLogs
  if logCount.1.toNat > logCount.2.length / 22 then throw .truncated
  let logs ← Cursor.logs logCount.1.toNat logCount.2
  return ((⟨txType.1, decide (flags.1 &&& 0x04 ≠ 0), BitVec.ofNat 64 (beNat gas.1), logs.1⟩,
    totalLogs + logCount.1.toNat), logs.2)

def decodeReceiptsFrom : ℕ → ℕ → ℕ → Bytes → Except CompactReceiptError (List EthereumReceipt)
  | _, _, _, [] => .ok []
  | 0, _, _, _ :: _ => .error .truncated
  | fuel + 1, count, totalLogs, byte :: bytes => do
    if count = MAX_RECEIPTS_PER_BLOCK then throw .tooManyReceipts
    let receipt ← Cursor.receipt totalLogs (byte :: bytes)
    let receipts ← decodeReceiptsFrom fuel (count + 1) receipt.1.2 receipt.2
    return receipt.1.1 :: receipts

def decodeCompactReceipts : Except CompactReceiptError (List EthereumReceipt) :=
  decodeReceiptsFrom bytes.length 0 0 bytes

/-- `[address, topics, data]`. -/
def Log.encode (log : Log) : Bytes :=
  Rlp.item true (encodeWord 20 log.address ++
    Rlp.item true (log.topics.map (encodeWord 32)).flatten ++ Rlp.item false log.data)

/-- `[status, cumulativeGasUsed, logs]`: the transaction type is not in it. -/
def EthereumReceipt.encode (receipt : EthereumReceipt) : Bytes :=
  Rlp.item true (encodeNumber (BitVec.ofNat 64 receipt.success.toNat) ++
    encodeNumber receipt.cumulativeGasUsed ++
    Rlp.item true (receipt.logs.map Log.encode).flatten)

/-- The string that `gov5_native_receipts_root` hashes. -/
def encodeReceipts (receipts : List EthereumReceipt) : Bytes :=
  (receipts.map EthereumReceipt.encode).flatten

end N42.Range
