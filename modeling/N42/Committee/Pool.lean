import N42.Lib.FisherYates
import N42.Primitives.Types
import Mathlib.Data.List.OfFn

/-!
The simulated committee pool (`n42-consensus/src/committee_pool.rs`): the slots active at a block,
the committee drawn from them, and the evidence that the committee signed the block.
-/

namespace N42.Committee

open Lib Lib.FisherYates

/-- The third-party functions of the pool: `sha2`, `blst` and `blake3`. A secret key stands for its
scalar. -/
class PoolCrypto where
  sha256 : Bytes → B256
  keyGen : B256 → Option ℕ
  validScalar : ℕ → Bool
  signH2V4 : ℕ → Bytes → Bytes
  signH2V4_length : ∀ scalar message, (signH2V4 scalar message).length = 96

def BLS_SCALAR_ORDER : ℕ := 0x73eda753299d7d483339d80809a1d80553bda402fffe5bfeffffffff00000001

structure CommitteePoolConfig where
  seed : B256
  poolSize : ℕ
  committeeSize : ℕ
  rampBlocks : ℕ

inductive CommitteePoolError where
  | invalidSize (poolSize committeeSize : ℕ)
  | keyDerivation (slot : ℕ)
  | noCoverage (blockNumber : ℕ)
  | invalidScalarSum

structure SimulatedCommitteePool where
  config : CommitteePoolConfig
  scalars : List ℕ

/-- Slots active at a block; the product is a `u64`. -/
def activePool (blockNumber poolSize committeeSize rampBlocks : ℕ) : ℕ :=
  if rampBlocks = 0 ∨ blockNumber ≥ rampBlocks then poolSize
  else
    let grow := (poolSize - committeeSize) * blockNumber % 2 ^ 64 / rampBlocks
    min (committeeSize + grow) poolSize

variable [PoolCrypto]

def slotIkm (seed : B256) (slot : ℕ) : B256 :=
  PoolCrypto.sha256 (B256.toBytes seed ++ beBytes 8 slot)

variable (view : ℕ) (blockHash : B256)

def stepRandom (i : ℕ) : ℕ :=
  let base := PoolCrypto.sha256 (leBytes 8 view ++ B256.toBytes blockHash)
  let h := PoolCrypto.sha256 (B256.toBytes base ++ leBytes 8 i)
  leNat ((B256.toBytes h).take 8)

/-- The position that step `i` exchanges with position `i`. -/
def stepDraw (active i : ℕ) : ℕ :=
  i + stepRandom view blockHash i % (active - i)

def committee (active committeeSize : ℕ) : List ℕ :=
  let k := min committeeSize active
  (Lazy.run (stepDraw view blockHash active) k).out

def signingMessage : Bytes :=
  leBytes 8 view ++ B256.toBytes blockHash

structure MobileEvidence where
  receiptsRoot : B256
  aggregateSignature : Bytes
  participantCount : ℕ
  participantsPacked : Bytes
  createdAtMs : ℕ

structure ConsensusEvidence where
  view : ℕ
  blockHash : B256
  aggregateSignature : Bytes
  signerCount : ℕ
  signersPacked : Bytes
  mobile : Option MobileEvidence

def padded (bytes : Bytes) (len : ℕ) : Bytes :=
  bytes.take len ++ List.replicate (len - bytes.length) 0

def MobileEvidence.marshal (mobile : MobileEvidence) : Bytes :=
  B256.toBytes mobile.receiptsRoot ++ mobile.aggregateSignature ++
    leBytes 2 mobile.participantCount ++
    padded mobile.participantsPacked ((mobile.participantCount + 7) / 8) ++
    leBytes 8 mobile.createdAtMs

def ConsensusEvidence.marshal (evidence : ConsensusEvidence) : Bytes :=
  leBytes 8 evidence.view ++ B256.toBytes evidence.blockHash ++ evidence.aggregateSignature ++
    leBytes 2 evidence.signerCount ++
    padded evidence.signersPacked ((evidence.signerCount + 7) / 8) ++
    evidence.mobile.elim [0] fun mobile => 1 :: mobile.marshal

namespace SimulatedCommitteePool

def deriveFrom (seed : B256) (slot : ℕ) : ℕ → Except CommitteePoolError (List ℕ)
  | 0 => .ok []
  | count + 1 =>
    match PoolCrypto.keyGen (slotIkm seed slot) with
    | none => .error (.keyDerivation slot)
    | some scalar => (deriveFrom seed (slot + 1) count).map (scalar :: ·)

def new (config : CommitteePoolConfig) : Except CommitteePoolError SimulatedCommitteePool :=
  if config.poolSize = 0 ∨ config.committeeSize = 0 ∨ config.committeeSize > config.poolSize then
    .error (.invalidSize config.poolSize config.committeeSize)
  else (deriveFrom config.seed 0 config.poolSize).map fun scalars => ⟨config, scalars⟩

omit [PoolCrypto] in
def activeSize (pool : SimulatedCommitteePool) (blockNumber : ℕ) : ℕ :=
  activePool blockNumber pool.config.poolSize pool.config.committeeSize pool.config.rampBlocks

variable (pool : SimulatedCommitteePool) (blockNumber : ℕ)

def committeeAt (blockHash : B256) : List ℕ :=
  committee blockNumber blockHash (pool.activeSize blockNumber) pool.config.committeeSize

def fullBitmap (members : ℕ) : Bytes :=
  (List.range members).foldl
    (fun bitmap i => bitmap.modify (i / 8) fun byte =>
      byte ||| ((1 : UInt8) <<< UInt8.ofNat (i % 8)))
    (List.replicate ((members + 7) / 8) 0)

def buildEvidence (blockHash receiptsRoot : B256) : Except CommitteePoolError ConsensusEvidence :=
  let members := pool.committeeAt blockNumber blockHash
  if members = [] then .error (.noCoverage blockNumber)
  else
    let sum := members.foldl (fun sum slot => (sum + pool.scalars.getD slot 0) % BLS_SCALAR_ORDER) 0
    if PoolCrypto.validScalar sum then
      let signature := PoolCrypto.signH2V4 sum (signingMessage blockNumber blockHash)
      .ok ⟨blockNumber, blockHash, signature, members.length % 2 ^ 16, fullBitmap members.length,
        some ⟨receiptsRoot, signature, members.length % 2 ^ 16, fullBitmap members.length, 0⟩⟩
    else .error .invalidScalarSum

end SimulatedCommitteePool

end N42.Committee
