import N42.Lib.MergedSum
import N42.Lib.Rlp
import N42.Tx.Frame

/-!
The alternative-signature transaction `0x50` (`n42-tx-types/src/alt_sig.rs`): its encoding, the
check of one signature, and the check of many at once.
-/

namespace N42.Tx

open Lib
open Rlp (encodeWord encodeNumber decodeWord decodeNumber)

def ALT_SIG_TX_TYPE_ID : UInt8 := 0x50

def ALG_ED25519 : BitVec 8 := 1

def ED25519_PUBKEY_LEN : ℕ := 32

def ED25519_SIGNATURE_LEN : ℕ := 64

inductive AltSigError where
  | unknownAlgorithm (algType : BitVec 8)
  | pubkeyLength (actual expected : ℕ)
  | signatureLength (actual expected : ℕ)
  | badPubkey
  | badSignature
  | invalid
deriving DecidableEq

structure AccessListItem where
  address : Address
  storageKeys : List B256
deriving DecidableEq

/-- The unsigned fields; `recipient` is the source's `to`. -/
structure TxAltSig where
  chainId : BitVec 64
  nonce : BitVec 64
  maxPriorityFeePerGas : BitVec 128
  maxFeePerGas : BitVec 128
  gasLimit : BitVec 64
  recipient : Address
  value : BitVec 256
  input : Bytes
  accessList : List AccessListItem
  algType : BitVec 8
  pubkey : Bytes
deriving DecidableEq

structure AltSigTx where
  tx : TxAltSig
  signature : Bytes
  hash : B256
deriving DecidableEq

def encodeKeys (keys : List B256) : Bytes := Rlp.item true (keys.map (encodeWord 32)).flatten

def AccessListItem.encodeFields (item : AccessListItem) : Bytes :=
  encodeWord 20 item.address ++ encodeKeys item.storageKeys

def AccessListItem.encode (item : AccessListItem) : Bytes := Rlp.item true item.encodeFields

def encodeAccessList (items : List AccessListItem) : Bytes :=
  Rlp.item true (items.map AccessListItem.encode).flatten

def TxAltSig.encodeFields (tx : TxAltSig) : Bytes :=
  encodeNumber tx.chainId ++ (encodeNumber tx.nonce ++ (encodeNumber tx.maxPriorityFeePerGas ++
    (encodeNumber tx.maxFeePerGas ++ (encodeNumber tx.gasLimit ++ (encodeWord 20 tx.recipient ++
      (encodeNumber tx.value ++ (Rlp.item false tx.input ++ (encodeAccessList tx.accessList ++
        (encodeNumber tx.algType ++ Rlp.item false tx.pubkey)))))))))

def AltSigTx.encodeFields (t : AltSigTx) : Bytes :=
  t.tx.encodeFields ++ Rlp.item false t.signature

def AltSigTx.encode2718 (t : AltSigTx) : Bytes :=
  ALT_SIG_TX_TYPE_ID :: Rlp.item true t.encodeFields

def AccessListItem.decodeFields (buf : Bytes) : Except Rlp.Error (AccessListItem × Bytes) := do
  let address ← decodeWord 160 20 buf
  let storageKeys ← Rlp.decodeVec (decodeWord 256 32) address.2
  return (⟨address.1, storageKeys.1⟩, storageKeys.2)

def AccessListItem.decode : Bytes → Except Rlp.Error (AccessListItem × Bytes) :=
  Rlp.decodeStruct .listLengthMismatch AccessListItem.decodeFields

def decodeAccessList : Bytes → Except Rlp.Error (List AccessListItem × Bytes) :=
  Rlp.decodeVec AccessListItem.decode

def TxAltSig.decodeFields (buf : Bytes) : Except Rlp.Error (TxAltSig × Bytes) := do
  let chainId ← decodeNumber 64 8 buf
  let nonce ← decodeNumber 64 8 chainId.2
  let maxPriorityFeePerGas ← decodeNumber 128 16 nonce.2
  let maxFeePerGas ← decodeNumber 128 16 maxPriorityFeePerGas.2
  let gasLimit ← decodeNumber 64 8 maxFeePerGas.2
  let recipient ← decodeWord 160 20 gasLimit.2
  let value ← decodeNumber 256 32 recipient.2
  let input ← Rlp.takeString value.2
  let accessList ← decodeAccessList input.2
  let algType ← decodeNumber 8 1 accessList.2
  let pubkey ← Rlp.takeString algType.2
  return ({
    chainId := chainId.1
    nonce := nonce.1
    maxPriorityFeePerGas := maxPriorityFeePerGas.1
    maxFeePerGas := maxFeePerGas.1
    gasLimit := gasLimit.1
    recipient := recipient.1
    value := value.1
    input := input.1
    accessList := accessList.1
    algType := algType.1
    pubkey := pubkey.1 }, pubkey.2)

def decodeSigned (buf : Bytes) : Except Rlp.Error ((TxAltSig × Bytes) × Bytes) := do
  let tx ← TxAltSig.decodeFields buf
  let signature ← Rlp.takeString tx.2
  return ((tx.1, signature.1), signature.2)

inductive Eip2718Error where
  | unexpectedType (ty : UInt8)
  | rlp (error : Rlp.Error)
  | trailing
deriving DecidableEq

section Hashing

variable [Keccak]

def TxAltSig.signingHash (tx : TxAltSig) : B256 :=
  Keccak.keccak256 (ALT_SIG_TX_TYPE_ID :: Rlp.item true tx.encodeFields)

def senderOf (algType : BitVec 8) (pubkey : Bytes) : Address :=
  (Keccak.keccak256 (UInt8.ofBitVec algType :: pubkey)).setWidth 160

def TxAltSig.sender (tx : TxAltSig) : Address := senderOf tx.algType tx.pubkey

def AltSigTx.sender (t : AltSigTx) : Address := t.tx.sender

def AltSigTx.new (tx : TxAltSig) (signature : Bytes) : AltSigTx :=
  let this : AltSigTx := ⟨tx, signature, 0⟩
  { this with hash := Keccak.keccak256 this.encode2718 }

/-- The payload behind the type byte; the hash is over the type byte and the bytes consumed. -/
def decodePayload (buf : Bytes) : Except Rlp.Error (AltSigTx × Bytes) := do
  let signed ← Rlp.decodeStruct .unexpectedLength decodeSigned buf
  let consumed := buf.length - signed.2.length
  return (⟨signed.1.1, signed.1.2, Keccak.keccak256 (ALT_SIG_TX_TYPE_ID :: buf.take consumed)⟩,
    signed.2)

def decode2718Exact (bytes : Bytes) : Except Eip2718Error AltSigTx :=
  match bytes with
  | [] => .error (.unexpectedType 0)
  | ty :: buf =>
    if ty > 0x7f then .error (.unexpectedType 0)
    else if ty ≠ ALT_SIG_TX_TYPE_ID then .error (.unexpectedType ty)
    else do
      let t ← (decodePayload buf).mapError .rlp
      if t.2 ≠ [] then throw .trailing
      return t.1

end Hashing

/-- The curve and the libraries over it (`curve25519_dalek`, `ed25519_dalek`, `merlin`, `sha2`).
Points are a module over the scalars. -/
class Ed25519 where
  Scalar : Type
  Point : Type
  [commRing : CommRing Scalar]
  [addCommGroup : AddCommGroup Point]
  [module : Module Scalar Point]
  [decidableEq : DecidableEq Point]
  basepoint : Point
  /-- `CompressedEdwardsY::decompress`. -/
  decompress : Bytes → Option Point
  /-- Of small order. -/
  isWeak : Point → Bool
  fromCanonicalBytes : Bytes → Option Scalar
  fromBytesModOrderWide : Bytes → Scalar
  sha512 : Bytes → Bytes
  /-- The coefficients that the transcript of a batch gives, from its challenges and its scalars. -/
  draw : List Bytes → List Bytes → ℕ → Scalar

attribute [reducible, instance] Ed25519.commRing Ed25519.addCommGroup Ed25519.module
  Ed25519.decidableEq

structure EdSignature where
  rBytes : Bytes
  sBytes : Bytes
deriving DecidableEq

def GROUP_ORDER : Bytes := [
  0xed, 0xd3, 0xf5, 0x5c, 0x1a, 0x63, 0x12, 0x58, 0xd6, 0x9c, 0xf7, 0xa2, 0xde, 0xf9, 0xde,
  0x14, 0x00, 0x00, 0x00, 0x00, 0x00, 0x00, 0x00, 0x00, 0x00, 0x00, 0x00, 0x00, 0x00, 0x00,
  0x00, 0x10]

def lessFrom : List (UInt8 × UInt8) → Bool
  | [] => false
  | (a, b) :: rest => if a < b then true else if a > b then false else lessFrom rest

def scalarIsCanonical (s : Bytes) : Bool := lessFrom (s.zip GROUP_ORDER).reverse

section Curve

variable [Ed25519]

/-- A key that has been decompressed. The cache of keys holds only such values. -/
structure VerifyingKey where
  asBytes : Bytes
  point : Ed25519.Point
  decompressed : Ed25519.decompress asBytes = some point

/-- `VerifyingKey::from_bytes`, through the cache or not. -/
def verifyingKey (bytes : Bytes) : Option VerifyingKey :=
  match h : Ed25519.decompress bytes with
  | none => none
  | some point => some ⟨bytes, point, h⟩

def TxAltSig.ed25519Key (tx : TxAltSig) : Except AltSigError VerifyingKey :=
  if tx.algType ≠ ALG_ED25519 then .error (.unknownAlgorithm tx.algType)
  else if tx.pubkey.length ≠ ED25519_PUBKEY_LEN then
    .error (.pubkeyLength tx.pubkey.length ED25519_PUBKEY_LEN)
  else
    match verifyingKey tx.pubkey with
    | none => .error .badPubkey
    | some key => if Ed25519.isWeak key.point then .error .badPubkey else .ok key

omit [Ed25519] in
def AltSigTx.ed25519Signature (t : AltSigTx) : Except AltSigError EdSignature :=
  if t.tx.algType ≠ ALG_ED25519 then .error (.unknownAlgorithm t.tx.algType)
  else if t.signature.length ≠ ED25519_SIGNATURE_LEN then
    .error (.signatureLength t.signature.length ED25519_SIGNATURE_LEN)
  else if !scalarIsCanonical (t.signature.drop 32) then .error .badSignature
  else .ok ⟨t.signature.take 32, t.signature.drop 32⟩

def hram (signature : EdSignature) (key : VerifyingKey) (message : Bytes) : Bytes :=
  Ed25519.sha512 (signature.rBytes ++ (key.asBytes ++ message))

variable (messages : List Bytes) (signatures : List EdSignature) (keys : List VerifyingKey)

def hramsOf : List Bytes :=
  ((signatures.zip keys).zip messages).map fun e => hram e.1.1 e.1.2 e.2

def coefficientsOf (hrams : List Bytes) (signatures : List EdSignature) : List Ed25519.Scalar :=
  (List.range signatures.length).map (Ed25519.draw hrams (signatures.map (·.sBytes)))

/-- `optional_multiscalar_mul`: no sum where a point is missing. -/
def optionalMultiscalarMul (scalars : List Ed25519.Scalar) (points : List (Option Ed25519.Point)) :
    Option Ed25519.Point := do
  let points ← points.mapM id
  return (List.zipWith (· • ·) scalars points).sum

def equationSum (signatures : List EdSignature) (sValues zs : List Ed25519.Scalar)
    (keyScalars : List Ed25519.Scalar) (keyPoints : List Ed25519.Point) : Option Ed25519.Point :=
  optionalMultiscalarMul
    (-(List.zipWith (fun s z => z * s) sValues zs).sum :: (zs ++ keyScalars))
    (some Ed25519.basepoint ::
      (signatures.map (fun signature => Ed25519.decompress signature.rBytes) ++
        keyPoints.map some))

def keyTerm (hram : Bytes) (z : Ed25519.Scalar) : Ed25519.Scalar :=
  Ed25519.fromBytesModOrderWide hram * z

/-- `ed25519_dalek::verify_batch`, with one term for each signature. -/
def dalekVerifyBatch : Bool :=
  if messages.length ≠ signatures.length ∨ keys.length ≠ signatures.length then false
  else
    let hrams := hramsOf messages signatures keys
    match signatures.mapM fun signature => Ed25519.fromCanonicalBytes signature.sBytes with
    | none => false
    | some sValues =>
      let zs := coefficientsOf hrams signatures
      equationSum signatures sValues zs (List.zipWith keyTerm hrams zs) (keys.map (·.point)) =
        some 0

def mergeKeys (keys : List VerifyingKey) (hrams : List Bytes) (zs : List Ed25519.Scalar) :
    MergedSum Bytes Ed25519.Point Ed25519.Scalar :=
  ((keys.zip hrams).zip zs).foldl
    (fun m e => m.add e.1.1.asBytes e.1.1.point (keyTerm e.1.2 e.2)) MergedSum.empty

def batchEquationHolds : Bool :=
  if messages.length ≠ signatures.length ∨ keys.length ≠ signatures.length then false
  else
    let hrams := hramsOf messages signatures keys
    match signatures.mapM fun signature => Ed25519.fromCanonicalBytes signature.sBytes with
    | none => false
    | some sValues =>
      let zs := coefficientsOf hrams signatures
      let merged := mergeKeys keys hrams zs
      equationSum signatures sValues zs merged.coefficients merged.points = some 0

/-- `merge` is `N42_ED25519_MERGE`. -/
def batchHolds (merge : Bool) (messages : List Bytes) (signatures : List EdSignature)
    (keys : List VerifyingKey) : Bool :=
  if merge then batchEquationHolds messages signatures keys
  else dalekVerifyBatch messages signatures keys

variable [Keccak]

def AltSigTx.verify (t : AltSigTx) : Except AltSigError Address := do
  let key ← t.tx.ed25519Key
  let signature ← t.ed25519Signature
  if !dalekVerifyBatch [B256.toBytes t.tx.signingHash] [signature] [key] then throw .invalid
  return t.tx.sender

/-- The key and the signature, where both have the right shape. -/
def AltSigTx.shape (t : AltSigTx) : Except AltSigError (VerifyingKey × EdSignature) := do
  let key ← t.tx.ed25519Key
  let signature ← t.ed25519Signature
  return (key, signature)

/-- The lists that a batch is collected in. -/
structure Batch where
  out : List (Except AltSigError Address)
  keys : List VerifyingKey
  signatures : List EdSignature
  hashes : List B256
  index : List ℕ

omit [Keccak] in
def Batch.empty : Batch := ⟨[], [], [], [], []⟩

def Batch.push (b : Batch) (entry : AltSigTx × ℕ) : Batch :=
  match entry.1.shape with
  | .error err => { b with out := b.out ++ [.error err] }
  | .ok shape =>
    { out := b.out ++ [.error .invalid]
      keys := b.keys ++ [shape.1]
      signatures := b.signatures ++ [shape.2]
      hashes := b.hashes ++ [entry.1.tx.signingHash]
      index := b.index ++ [entry.2] }

omit [Ed25519] in
def accept (txs : List AltSigTx) (out : List (Except AltSigError Address)) (i : ℕ) :
    List (Except AltSigError Address) :=
  match txs[i]? with
  | none => out
  | some t => out.set i (.ok t.tx.sender)

omit [Ed25519] [Keccak] in
def oneAt {α : Type} (xs : List α) (slot : ℕ) : List α := (xs.drop slot).take 1

def verifyBatch (merge : Bool) (txs : List AltSigTx) : List (Except AltSigError Address) :=
  let b := txs.zipIdx.foldl Batch.push Batch.empty
  if b.keys.isEmpty then b.out
  else
    let messages := b.hashes.map B256.toBytes
    if batchHolds merge messages b.signatures b.keys then b.index.foldl (accept txs) b.out
    else
      b.index.zipIdx.foldl (fun out e =>
        if dalekVerifyBatch (oneAt messages e.2) (oneAt b.signatures e.2) (oneAt b.keys e.2) then
          accept txs out e.1
        else out) b.out

end Curve

end N42.Tx
