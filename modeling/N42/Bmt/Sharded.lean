import N42.Bmt.Tree
import N42.Twig.Sharded

/-!
`ShardedSbmt` of `n42-jmt` and the proof a light client checks: sixteen sparse trees, one for each
top nibble of the key, joined by a depth-4 tree, and beside each tree the map of its values.
-/

namespace N42.Bmt

open Lib Lib.MerkleHeap

def shardIndexForKey (key : B256) : Fin SHARD_COUNT :=
  ⟨((B256.toBytes key).headD 0).toNat >>> 4, by
    have hbyte := UInt8.toNat_lt ((B256.toBytes key).headD 0)
    show _ < 16
    omega⟩

structure ShardedBmtProof where
  shardIndex : ℕ
  shardRoot : B256
  shardPath : List B256
  inner : BmtProof
  value : Option Bytes
deriving DecidableEq

inductive BmtVerifyError where
  | shardIndexOutOfRange (index : ℕ)
  | keyMismatch
  | wrongShardForKey (expected got : ℕ)
  | combinedRootMismatch
  | malformedShardPath (len expected : ℕ)
  | valueHashMismatch
  | inShardProofFailed
deriving DecidableEq

namespace ShardedBmtProof

variable [Crypto]

def verify (p : ShardedBmtProof) (combinedRoot : B256) : Except BmtVerifyError Unit :=
  if p.shardIndex ≥ SHARD_COUNT then .error (.shardIndexOutOfRange p.shardIndex)
  else if p.shardPath.length ≠ SHARD_BITS then
    .error (.malformedShardPath p.shardPath.length SHARD_BITS)
  else if climb hashNode p.shardRoot p.shardIndex p.shardPath ≠ combinedRoot then
    .error .combinedRootMismatch
  else if p.inner.valueHash ≠ p.value.map hashValue then .error .valueHashMismatch
  else if ¬ p.inner.verify p.shardRoot (p.value.map hashValue) SHARD_BITS then
    .error .inShardProofFailed
  else .ok ()

/-- Verify, and bind the proof to the key that was asked about. -/
def verifyForKey (p : ShardedBmtProof) (combinedRoot expectedKey : B256) :
    Except BmtVerifyError Unit :=
  if p.inner.key ≠ expectedKey then .error .keyMismatch
  else if p.shardIndex ≠ shardIndexForKey expectedKey then
    .error (.wrongShardForKey (shardIndexForKey expectedKey) p.shardIndex)
  else p.verify combinedRoot

end ShardedBmtProof

abbrev Values := Finmap fun _ : B256 => Bytes

/-- The pairs of a map, in the order of its iteration. -/
structure Listing where
  list : Values → List (B256 × Bytes)
  mem_list : ∀ {values key value}, (key, value) ∈ list values ↔ values.lookup key = some value

instance : Nonempty Listing :=
  ⟨fun values => values.entries.toList.map fun e => (e.1, e.2), by
    simp [Finmap.lookup_eq_some_iff]⟩

structure JmtSnapshot where
  version : ℕ
  root : B256
  entries : List (B256 × Bytes)

structure RootMismatch where
  expected : B256
  got : B256

structure ShardedSbmt where
  shards : Vector Sbmt SHARD_COUNT
  values : Vector Values SHARD_COUNT
  version : ℕ

namespace ShardedSbmt

def new : ShardedSbmt where
  shards := Vector.replicate SHARD_COUNT (.withBaseDepth SHARD_BITS)
  values := Vector.replicate SHARD_COUNT ∅
  version := 0

def get (t : ShardedSbmt) (key : B256) : Option Bytes :=
  t.values[shardIndexForKey key].lookup key

variable [Crypto]

def rootHash (t : ShardedSbmt) : B256 × ShardedSbmt :=
  let hashed := t.shards.map Sbmt.rootHash
  (shardTreeRoot (hashed.map Prod.fst).toList, { t with shards := hashed.map Prod.snd })

variable (t : ShardedSbmt)

def insertRaw (key : B256) (value : Bytes) : Option ShardedSbmt := do
  let si := shardIndexForKey key
  let shard ← t.shards[si].insert key value
  return { t with
    shards := t.shards.set si shard
    values := t.values.set si (t.values[si].insert key value) }

def removeRaw (key : B256) : ShardedSbmt :=
  let si := shardIndexForKey key
  { t with
    shards := t.shards.set si (t.shards[si].remove key).2
    values := t.values.set si (t.values[si].erase key) }

def update : B256 × Option Bytes → Option ShardedSbmt
  | (key, some value) => t.insertRaw key value
  | (key, none) => some (t.removeRaw key)

/-- What `apply_diff` does with the updates of a diff. Each shard's worker takes the updates
of its own keys in their order, and no two workers share a tree or a map. -/
def applyUpdates (updates : List (B256 × Option Bytes)) : Option ((ℕ × B256) × ShardedSbmt) := do
  let t ← updates.foldlM update t
  let (root, t) := t.rootHash
  return ((t.version + 1, root), { t with version := t.version + 1 })

def prove (t : ShardedSbmt) (key : B256) : ShardedBmtProof × ShardedSbmt :=
  let si := shardIndexForKey key
  let (inner, shard) := t.shards[si].prove key
  let value := t.values[si].lookup key
  let hashed := (t.shards.set si shard).map Sbmt.rootHash
  let roots := (hashed.map Prod.fst).toList
  ({ shardIndex := si
     shardRoot := roots.getD si NULL_HASH
     shardPath := shardTreePath roots si
     inner
     value }, { t with shards := hashed.map Prod.snd })

def snapshot (l : Listing) : JmtSnapshot where
  version := t.version
  root := t.rootHash.1
  entries := t.values.toList.flatMap l.list

def fromSnapshot (s : JmtSnapshot) : Option (Except RootMismatch ShardedSbmt) := do
  let t ← s.entries.foldlM (fun t entry => t.insertRaw entry.1 entry.2) new
  let (root, t) := { t with version := s.version }.rootHash
  return if root ≠ s.root then .error ⟨s.root, root⟩ else .ok t

inductive Call where
  | insert (key : B256) (value : Bytes)
  | applyDiff (updates : List (B256 × Option Bytes))
  | rootHash
  | prove (key : B256)

def call : Call → Option ShardedSbmt
  | .insert key value => t.insertRaw key value
  | .applyDiff updates => (t.applyUpdates updates).map Prod.snd
  | .rootHash => some t.rootHash.2
  | .prove key => some (t.prove key).2

end ShardedSbmt

end N42.Bmt
