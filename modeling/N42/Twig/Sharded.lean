import N42.Twig.Tree

/-!
`ShardedTwig`: 16 twig trees under a depth-4 tree over their roots, its snapshots, and its
proofs.
-/

namespace N42

open Lib Lib.MerkleHeap

def SHARD_COUNT : ℕ := 16

def SHARD_BITS : ℕ := 4

/-- Shard a key falls into: the top nibble of byte 0. -/
def shardIndex (key : B256) : ℕ := ((B256.toBytes key).headD 0).toNat >>> (8 - SHARD_BITS)

structure EntrySnapshot where
  key : B256
  value : Bytes
  active : Bool

structure ShardSnapshot where
  nextSlot : ℕ
  entries : List EntrySnapshot

structure TwigSnapshot where
  version : ℕ
  shards : List ShardSnapshot

namespace TwigTree

/-- The flat index, the twigs and the slot log must agree on the number of live keys. -/
def checkConsistency (t : TwigTree) : Except String Unit :=
  let indexLive := t.index.len
  let twigLive := (t.twigs.map Twig.live).sum
  let activeEntries := t.entries.countP Entry.active
  if indexLive ≠ twigLive ∨ indexLive ≠ activeEntries then
    .error ("twig live-counter mismatch: index.len()=" ++ toString indexLive ++
      ", Σtwig.live=" ++ toString twigLive ++ ", active_entries=" ++ toString activeEntries)
  else .ok ()

/-- The log of a shard; the values of dead entries are dropped. -/
def snapshot (t : TwigTree) : ShardSnapshot where
  nextSlot := t.nextSlot
  entries := t.entries.map fun e =>
    { key := e.key, value := if e.active then t.valueOf e else [], active := e.active }

variable [Crypto]

def restoreEntry (t : TwigTree) (slot : ℕ) (e : EntrySnapshot) : Except String TwigTree :=
  if e.value.length > u32Max then
    .error ("snapshot entry " ++ toString slot ++ " value is too large: " ++
      toString e.value.length ++ " bytes")
  else
    let twigId := slot / TWIG_SIZE
    let t := { t with twigs := ensureTwigs t.twigs (twigId + 1) }
    let voff := t.valueArena.length
    let t := { t with valueArena := t.valueArena ++ e.value }
    let t := if e.active then
        { t with
          twigs := t.twigs.modify twigId fun tw =>
            let tw := tw.writeLeaf (slot % TWIG_SIZE) (hashLeaf e.key e.value)
            { tw with live := tw.live + 1 }
          touched := t.touched ++ [slot]
          index := t.index.insert (keyPrefix e.key) slot }
      else t
    .ok { t with
      entries := t.entries ++
        [{ key := e.key, voff, vlen := e.value.length % 2 ^ 32, active := e.active }] }

def restore (snap : ShardSnapshot) : Except String TwigTree := do
  if snap.nextSlot ≠ snap.entries.length then
    throw ("snapshot next_slot " ++ toString snap.nextSlot ++ " does not match entry count " ++
      toString snap.entries.length)
  let t ← snap.entries.zipIdx.foldlM (fun t (e, slot) => t.restoreEntry slot e)
    { new with nextSlot := snap.nextSlot }
  t.checkConsistency
  return t

end TwigTree

section

variable [Crypto]

def pairUp : List B256 → List B256
  | left :: right :: rest => hashNode left right :: pairUp rest
  | _ => []

variable (leaves : List B256)

/-- Depth-4 root over the shard roots: pair up levels while more than one hash is left. -/
def shardTreeRoot : B256 :=
  go leaves.length leaves
where
  go : ℕ → List B256 → B256
    | 0, level => level.headD NULL_HASH
    | fuel + 1, level =>
      if level.length > 1 then go fuel (pairUp level) else level.headD NULL_HASH

/-- Authentication path, bottom-up, from shard `index` to the root. -/
def shardTreePath (index : ℕ) : List B256 :=
  go SHARD_BITS leaves index
where
  go : ℕ → List B256 → ℕ → List B256
    | 0, _, _ => []
    | n + 1, level, idx => level.getD (idx ^^^ 1) NULL_HASH :: go n (pairUp level) (idx / 2)

theorem shardTreePath_length (index : ℕ) : (shardTreePath leaves index).length = SHARD_BITS :=
  go_length SHARD_BITS leaves index
where
  go_length (n : ℕ) (level : List B256) (idx : ℕ) : (shardTreePath.go n level idx).length = n := by
    induction n generalizing level idx with
    | zero => rfl
    | succ n ih => simp [shardTreePath.go, ih]

theorem pairUp_length : (pairUp leaves).length = leaves.length / 2 := by
  induction leaves using pairUp.induct with
  | case1 left right rest ih =>
    rw [pairUp, List.length_cons, List.length_cons, List.length_cons]
    omega
  | case2 leaves hne =>
    rcases leaves with _ | ⟨left, _ | ⟨right, rest⟩⟩
    · rfl
    · simp [pairUp]
    · exact absurd rfl (hne left right rest)

theorem pairUp_getD {i : ℕ} (hi : 2 * i + 1 < leaves.length) : (pairUp leaves).getD i NULL_HASH =
      hashNode (leaves.getD (2 * i) NULL_HASH) (leaves.getD (2 * i + 1) NULL_HASH) := by
  induction leaves using pairUp.induct generalizing i with
  | case1 left right rest ih =>
    cases i with
    | zero => rfl
    | succ i =>
      simp only [List.length_cons] at hi
      rw [pairUp, List.getD_cons_succ, ih (by omega), show 2 * (i + 1) = 2 * i + 1 + 1 by omega,
        List.getD_cons_succ, List.getD_cons_succ, List.getD_cons_succ, List.getD_cons_succ]
  | case2 leaves hne =>
    rcases leaves with _ | ⟨left, _ | ⟨right, rest⟩⟩
    · simp at hi
    · simp at hi
    · exact absurd rfl (hne left right rest)

theorem shardTreeRoot_go {n fuel : ℕ} {leaves : List B256} (hlen : leaves.length = 2 ^ n)
    (hfuel : n ≤ fuel) : shardTreeRoot.go fuel leaves =
      merkleRoot hashNode (fun i => leaves.getD i NULL_HASH) n := by
  induction n generalizing fuel leaves with
  | zero =>
    obtain ⟨leaf, rfl⟩ := List.length_eq_one_iff.mp hlen
    cases fuel <;> rfl
  | succ n ih =>
    obtain ⟨fuel, rfl⟩ : ∃ f, fuel = f + 1 := ⟨fuel - 1, by omega⟩
    have hpos : 0 < 2 ^ n := Nat.two_pow_pos n
    rw [shardTreeRoot.go, if_pos (by omega), ih (by rw [pairUp_length]; omega) (by omega),
      merkleRoot, merkleRoot, subtree_succ]
    refine subtree_congr fun s _ hs => pairUp_getD leaves ?_
    omega

theorem climb_shardTreePath_go {n index : ℕ} {leaves : List B256} (hlen : leaves.length = 2 ^ n)
    (hindex : index < 2 ^ n) :
    climb hashNode (leaves.getD index NULL_HASH) index (shardTreePath.go n leaves index) =
      merkleRoot hashNode (fun i => leaves.getD i NULL_HASH) n := by
  induction n generalizing leaves index with
  | zero =>
    obtain rfl : index = 0 := by omega
    rfl
  | succ n ih =>
    have hpair := pairUp_getD leaves (i := index / 2) (by omega)
    have hstep : (if index % 2 = 0
        then hashNode (leaves.getD index NULL_HASH) (leaves.getD (index ^^^ 1) NULL_HASH)
        else hashNode (leaves.getD (index ^^^ 1) NULL_HASH) (leaves.getD index NULL_HASH)) =
        (pairUp leaves).getD (index / 2) NULL_HASH := by
      rw [hpair]
      rcases Nat.mod_two_eq_zero_or_one index with hbit | hbit
      · rw [if_pos hbit, Nat.xor_one_of_even (Nat.even_iff.mpr hbit),
          show 2 * (index / 2) = index by omega]
      · rw [if_neg (by omega), Nat.xor_one_of_odd (Nat.odd_iff.mpr hbit),
          show 2 * (index / 2) = index - 1 by omega, show index - 1 + 1 = index by omega]
    rw [shardTreePath.go, climb, hstep, ih (by rw [pairUp_length]; omega) (by omega), merkleRoot,
      merkleRoot, subtree_succ]
    refine subtree_congr fun s _ hs => pairUp_getD leaves ?_
    omega

def foldShardPath (leaf : B256) (index : ℕ) (path : Vector B256 SHARD_BITS) : B256 :=
  climb hashNode leaf index path.toList

end

structure ShardedTwig where
  shards : List TwigTree
  version : ℕ

structure ShardedTwigProof where
  shardIndex : ℕ
  shardRoot : B256
  shardPath : Vector B256 SHARD_BITS
  inner : TwigProof

inductive TwigVerifyError where
  | keyMismatch
  | wrongShardForKey (expected got : ℕ)
  | shardIndexOutOfRange (index : ℕ)
  | verifyFailed
deriving DecidableEq

namespace ShardedTwig

def new : ShardedTwig where
  shards := List.replicate SHARD_COUNT TwigTree.new
  version := 0

def get (t : ShardedTwig) (key : B256) : Option Bytes :=
  (t.shards[shardIndex key]?).bind fun shard => shard.get key

def checkConsistency (t : ShardedTwig) : Except String Unit :=
  t.shards.zipIdx.forM fun (shard, i) =>
    shard.checkConsistency.mapError fun e => "shard " ++ toString i ++ ": " ++ e

def snapshot (t : ShardedTwig) : TwigSnapshot where
  version := t.version
  shards := t.shards.map TwigTree.snapshot

variable [Crypto]

/-- Set one key directly, with no version bump. -/
def set (t : ShardedTwig) (key : B256) (value : Bytes) : ShardedTwig :=
  { t with shards := t.shards.modify (shardIndex key) fun shard => shard.set key value }

def root (t : ShardedTwig) : B256 × ShardedTwig :=
  let rooted := t.shards.map TwigTree.root
  (shardTreeRoot (rooted.map Prod.fst), { t with shards := rooted.map Prod.snd })

/-- Apply a block's operations, shard by shard; the result is `(version, combined_root)`. -/
def applyBatch (t : ShardedTwig) (ops : List TwigTree.BatchOp) : (ℕ × B256) × ShardedTwig :=
  let rooted := t.shards.mapIdx fun i shard =>
    let picked := ops.filter fun op => shardIndex op.1 = i
    let shard := if picked = [] then shard else shard.applyBatchIndexed picked
    shard.root
  let version := t.version + 1
  ((version, shardTreeRoot (rooted.map Prod.fst)),
    { shards := rooted.map Prod.snd, version })

/-- Every entry of a snapshot must fall in the shard that holds it. -/
def checkShards (snap : TwigSnapshot) : Except String Unit :=
  snap.shards.zipIdx.forM fun (shard, expectedShard) =>
    shard.entries.zipIdx.forM fun (entry, slot) =>
      if shardIndex entry.key ≠ expectedShard then
        .error ("shard " ++ toString expectedShard ++ " entry " ++ toString slot ++
          " belongs to shard " ++ toString (shardIndex entry.key))
      else .ok ()

def tryFromSnapshot (snap : TwigSnapshot) : Except String ShardedTwig := do
  if snap.shards.length ≠ SHARD_COUNT then
    throw ("snapshot shard count mismatch: expected " ++ toString SHARD_COUNT ++ ", got " ++
      toString snap.shards.length)
  checkShards snap
  let shards ← snap.shards.zipIdx.mapM fun (shard, index) =>
    (TwigTree.restore shard).mapError fun error => "shard " ++ toString index ++ ": " ++ error
  let t := ({ shards, version := snap.version } : ShardedTwig).root.2
  t.checkConsistency
  return t

end ShardedTwig

namespace ShardedTwigProof

variable [Crypto]

def verify (p : ShardedTwigProof) (combinedRoot : B256) : Except TwigVerifyError Unit :=
  if p.shardIndex ≥ SHARD_COUNT then .error (.shardIndexOutOfRange p.shardIndex)
  else if ¬ p.inner.verify p.shardRoot then .error .verifyFailed
  else if foldShardPath p.shardRoot p.shardIndex p.shardPath ≠ combinedRoot then
    .error .verifyFailed
  else .ok ()

def verifyForKey (p : ShardedTwigProof) (combinedRoot expectedKey : B256) :
    Except TwigVerifyError Unit :=
  if p.inner.key ≠ expectedKey then .error .keyMismatch
  else if p.shardIndex ≠ N42.shardIndex expectedKey then
    .error (.wrongShardForKey (N42.shardIndex expectedKey) p.shardIndex)
  else p.verify combinedRoot

end ShardedTwigProof

end N42
