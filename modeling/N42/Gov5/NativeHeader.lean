import N42.Lib.Rlp
import N42.Primitives.Types
import Mathlib.Data.List.DropRight

/-!
gov5's native header (`n42-consensus/src/gov5_native_header.rs`): an Ethereum header with two more
fields, whose optional fields are left out from the last one that is set on, and written as the
empty string where they are unset before it.
-/

namespace N42.Gov5

open Lib
open Rlp (encodeWord encodeNumber)

/-- Bytes that a buffer can hold: `isize::MAX` at most. -/
structure Buffer where
  bytes : Bytes
  length_lt : bytes.length < 2 ^ 63
deriving DecidableEq

structure Header where
  parentHash : B256
  ommersHash : B256
  beneficiary : Address
  stateRoot : B256
  transactionsRoot : B256
  receiptsRoot : B256
  logsBloom : BitVec 2048
  difficulty : BitVec 256
  number : BitVec 64
  gasLimit : BitVec 64
  gasUsed : BitVec 64
  timestamp : BitVec 64
  extraData : Buffer
  mixHash : B256
  nonce : BitVec 64
  baseFeePerGas : Option (BitVec 64) := none
  withdrawalsRoot : Option B256 := none
  blobGasUsed : Option (BitVec 64) := none
  excessBlobGas : Option (BitVec 64) := none
  parentBeaconBlockRoot : Option B256 := none
  requestsHash : Option B256 := none
  blockAccessListHash : Option B256 := none
  slotNumber : Option (BitVec 64) := none
deriving DecidableEq

structure Gov5NativeHeader where
  header : Header
  mobileRegistryRoot : Option B256
deriving DecidableEq

inductive FieldError where
  | rlp (error : Rlp.Error)
  | unexpectedList
  | truncated
  | hashOfBytes (length : ℕ)
  | nonCanonicalInteger
  | oversized
deriving DecidableEq

inductive Gov5NativeHeaderError where
  | notAList
  | field (name : String) (error : FieldError)
  | trailing (bytes : ℕ)
  | tooManyFields
deriving DecidableEq

def decodeWord (w size : ℕ) (buf : Bytes) : Except FieldError (BitVec w × Bytes) :=
  (Rlp.decodeWord w size buf).mapError .rlp

def decodeNumber (w size : ℕ) (buf : Bytes) : Except FieldError (BitVec w × Bytes) :=
  (Rlp.decodeNumber w size buf).mapError .rlp

def encodeBuffer (x : Buffer) : Bytes := Rlp.item false x.bytes

variable (buf : Bytes)

def decodeBuffer : Except FieldError (Buffer × Bytes) := do
  let bytes ← (Rlp.takeString buf).mapError .rlp
  if h : bytes.1.length < 2 ^ 63 then return (⟨bytes.1, h⟩, bytes.2) else throw .oversized

def named {α : Type} (name : String) (x : Except FieldError α) : Except Gov5NativeHeaderError α :=
  x.mapError (.field name)

def Header.decodeRequired : Except Gov5NativeHeaderError (Header × Bytes) := do
  let parentHash ← named "parentHash" (decodeWord 256 32 buf)
  let ommersHash ← named "sha3Uncles" (decodeWord 256 32 parentHash.2)
  let beneficiary ← named "miner" (decodeWord 160 20 ommersHash.2)
  let stateRoot ← named "stateRoot" (decodeWord 256 32 beneficiary.2)
  let transactionsRoot ← named "transactionsRoot" (decodeWord 256 32 stateRoot.2)
  let receiptsRoot ← named "receiptsRoot" (decodeWord 256 32 transactionsRoot.2)
  let logsBloom ← named "logsBloom" (decodeWord 2048 256 receiptsRoot.2)
  let difficulty ← named "difficulty" (decodeNumber 256 32 logsBloom.2)
  let number ← named "number" (decodeNumber 64 8 difficulty.2)
  let gasLimit ← named "gasLimit" (decodeNumber 64 8 number.2)
  let gasUsed ← named "gasUsed" (decodeNumber 64 8 gasLimit.2)
  let timestamp ← named "timestamp" (decodeNumber 64 8 gasUsed.2)
  let extraData ← named "extraData" (decodeBuffer timestamp.2)
  let mixHash ← named "mixHash" (decodeWord 256 32 extraData.2)
  let nonce ← named "nonce" (decodeWord 64 8 mixHash.2)
  return ({
    parentHash := parentHash.1
    ommersHash := ommersHash.1
    beneficiary := beneficiary.1
    stateRoot := stateRoot.1
    transactionsRoot := transactionsRoot.1
    receiptsRoot := receiptsRoot.1
    logsBloom := logsBloom.1
    difficulty := difficulty.1
    number := number.1
    gasLimit := gasLimit.1
    gasUsed := gasUsed.1
    timestamp := timestamp.1
    extraData := extraData.1
    mixHash := mixHash.1
    nonce := nonce.1 }, nonce.2)

def Header.requiredItems (h : Header) : List Bytes :=
  [encodeWord 32 h.parentHash, encodeWord 32 h.ommersHash, encodeWord 20 h.beneficiary,
    encodeWord 32 h.stateRoot, encodeWord 32 h.transactionsRoot, encodeWord 32 h.receiptsRoot,
    encodeWord 256 h.logsBloom, encodeNumber h.difficulty, encodeNumber h.number,
    encodeNumber h.gasLimit, encodeNumber h.gasUsed, encodeNumber h.timestamp,
    encodeBuffer h.extraData, encodeWord 32 h.mixHash, encodeWord 8 h.nonce]

/-- `None` for the empty string that stands for an unset field. -/
def takeOptionalItem : Except FieldError (Option Bytes × Bytes) := do
  let head ← (Rlp.Header.decode buf).mapError .rlp
  if head.1.list then throw .unexpectedList
  if head.1.payloadLength = 0 then return (none, head.2)
  else if head.1.payloadLength ≤ head.2.length then
    return (some (head.2.take head.1.payloadLength), head.2.drop head.1.payloadLength)
  else throw .truncated

def optionalHash : Except FieldError (Option B256 × Bytes) := do
  let taken ← takeOptionalItem buf
  match taken.1 with
  | none => return (none, taken.2)
  | some item =>
    if item.length = 32 then return (some (BitVec.ofNat 256 (beNat item)), taken.2)
    else throw (.hashOfBytes item.length)

def shiftIn (value : BitVec 64) (byte : UInt8) : BitVec 64 :=
  value <<< 8 ||| BitVec.ofNat 64 byte.toNat

def optionalU64 : Except FieldError (Option (BitVec 64) × Bytes) := do
  let taken ← takeOptionalItem buf
  match taken.1 with
  | none => return (none, taken.2)
  | some item =>
    if item.length > 8 ∨ item.head? = some 0 then throw .nonCanonicalInteger
    else return (some (item.foldl shiftIn 0), taken.2)

inductive OptionalField where
  | u64 (value : Option (BitVec 64))
  | hash (value : Option B256)
deriving DecidableEq

def OptionalField.isSome : OptionalField → Bool
  | .u64 value => value.isSome
  | .hash value => value.isSome

def OptionalField.encode : OptionalField → Bytes
  | .u64 (some value) => encodeNumber value
  | .hash (some value) => encodeWord 32 value
  | .u64 none | .hash none => [0x80]

/-- The optional fields in wire order. -/
inductive Slot where
  | baseFeePerGas
  | withdrawalsRoot
  | blobGasUsed
  | excessBlobGas
  | parentBeaconBlockRoot
  | requestsHash
  | blockAccessListHash
  | mobileRegistryRoot
deriving DecidableEq

def Slot.all : List Slot :=
  [.baseFeePerGas, .withdrawalsRoot, .blobGasUsed, .excessBlobGas, .parentBeaconBlockRoot,
    .requestsHash, .blockAccessListHash, .mobileRegistryRoot]

def Slot.name : Slot → String
  | .baseFeePerGas => "baseFeePerGas"
  | .withdrawalsRoot => "withdrawalsRoot"
  | .blobGasUsed => "blobGasUsed"
  | .excessBlobGas => "excessBlobGas"
  | .parentBeaconBlockRoot => "parentBeaconBlockRoot"
  | .requestsHash => "requestsHash"
  | .blockAccessListHash => "blockAccessListHash"
  | .mobileRegistryRoot => "mobileRegistryRoot"

def Slot.isInteger : Slot → Bool
  | .baseFeePerGas | .blobGasUsed | .excessBlobGas => true
  | _ => false

def Slot.get (h : Gov5NativeHeader) : Slot → OptionalField
  | .baseFeePerGas => .u64 h.header.baseFeePerGas
  | .withdrawalsRoot => .hash h.header.withdrawalsRoot
  | .blobGasUsed => .u64 h.header.blobGasUsed
  | .excessBlobGas => .u64 h.header.excessBlobGas
  | .parentBeaconBlockRoot => .hash h.header.parentBeaconBlockRoot
  | .requestsHash => .hash h.header.requestsHash
  | .blockAccessListHash => .hash h.header.blockAccessListHash
  | .mobileRegistryRoot => .hash h.mobileRegistryRoot

def Slot.put (h : Gov5NativeHeader) : Slot → OptionalField → Gov5NativeHeader
  | .baseFeePerGas, .u64 x => { h with header.baseFeePerGas := x }
  | .withdrawalsRoot, .hash x => { h with header.withdrawalsRoot := x }
  | .blobGasUsed, .u64 x => { h with header.blobGasUsed := x }
  | .excessBlobGas, .u64 x => { h with header.excessBlobGas := x }
  | .parentBeaconBlockRoot, .hash x => { h with header.parentBeaconBlockRoot := x }
  | .requestsHash, .hash x => { h with header.requestsHash := x }
  | .blockAccessListHash, .hash x => { h with header.blockAccessListHash := x }
  | .mobileRegistryRoot, .hash x => { h with mobileRegistryRoot := x }
  | _, _ => h

/-- An integer that is written is set: an unset one and zero are written alike. -/
def Slot.read (slot : Slot) (buf : Bytes) : Except Gov5NativeHeaderError (OptionalField × Bytes) :=
  if slot.isInteger then do
    let value ← named slot.name (optionalU64 buf)
    return (.u64 (some (value.1.getD 0)), value.2)
  else do
    let value ← named slot.name (optionalHash buf)
    return (.hash value.1, value.2)

/-- The optional fields from a slot on, as long as there are bytes. -/
def decodeOptional (h : Gov5NativeHeader) :
    List Slot → Bytes → Except Gov5NativeHeaderError Gov5NativeHeader
  | [], buf => if buf = [] then .ok h else .error .tooManyFields
  | slot :: slots, buf =>
    if buf = [] then .ok h
    else do
      let value ← slot.read buf
      decodeOptional (slot.put h value.1) slots value.2

namespace Gov5NativeHeader

def decode (raw : Bytes) : Except Gov5NativeHeaderError Gov5NativeHeader := do
  let head ← named "header" ((Rlp.Header.decode raw).mapError .rlp)
  if head.1.list = false then throw .notAList
  if head.2.length ≠ head.1.payloadLength then
    throw (.trailing (head.2.length - head.1.payloadLength))
  let required ← Header.decodeRequired head.2
  decodeOptional ⟨required.1, none⟩ Slot.all required.2

variable (h : Gov5NativeHeader)

def optionalFields : List OptionalField := Slot.all.map (Slot.get h)

/-- One more than the index of the last field that is set. -/
def writtenOptionalCount : ℕ :=
  (h.optionalFields.rdropWhile fun field => !field.isSome).length

def items : List Bytes :=
  h.header.requiredItems ++
    (h.optionalFields.take h.writtenOptionalCount).map OptionalField.encode

def payloadLength : ℕ := (h.items.map List.length).sum

def encode (h : Gov5NativeHeader) : Bytes :=
  Rlp.Header.encode ⟨true, h.payloadLength⟩ ++ h.items.flatten

end Gov5NativeHeader

end N42.Gov5
