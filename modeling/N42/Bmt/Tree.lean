import Mathlib.Data.Finmap
import N42.Lib.HashTree
import N42.Twig.Hashing

/-!
The sparse binary Merkle tree of `n42-bmt-core`: a subtree with one key is that key's leaf, an empty
one is the zero hash, and inner nodes cache their hash until an update walks past. No two links of
the arena share a slot, so the arena is the tree.
-/

namespace N42

open Lib

namespace Bmt

def EMPTY_HASH : B256 := 0

def leafBytes (key valueHash : B256) : Bytes :=
  0x00 :: (B256.toBytes key ++ B256.toBytes valueHash)

def internalBytes (left right : B256) : Bytes :=
  0x01 :: (B256.toBytes left ++ B256.toBytes right)

/-- Bit `depth` of a key, most significant first; `true` is right. -/
def bit (key : B256) (depth : ℕ) : Bool := key.getMsbD depth

section

variable [Crypto]

def hashLeaf (key valueHash : B256) : B256 := Crypto.blake3 (leafBytes key valueHash)

def hashInternal (left right : B256) : B256 := Crypto.blake3 (internalBytes left right)

def hashValue (value : Bytes) : B256 := Crypto.blake3 value

end

inductive Node where
  | nil
  | leaf (key valueHash : B256)
  | internal (left right : Node) (cache : Option B256)
deriving DecidableEq

/-- Inclusion or exclusion of one key within one tree. Siblings run from the root down. -/
structure BmtProof where
  key : B256
  valueHash : Option B256
  siblings : List B256
  otherLeaf : Option (B256 × B256)
deriving DecidableEq

namespace Node

/-- Hash of a subtree, and the subtree with the caches this fills. -/
def nodeHash [Crypto] : Node → B256 × Node
  | nil => (EMPTY_HASH, nil)
  | leaf key valueHash => (hashLeaf key valueHash, leaf key valueHash)
  | internal left right (some hash) => (hash, internal left right (some hash))
  | internal left right none =>
    let l := nodeHash left
    let r := nodeHash right
    let hash := hashInternal l.1 r.1
    (hash, internal l.2 r.2 (some hash))

/-- `insert_at`, and whether a leaf was added. The recursion is not structural, since a leaf
in the way is put back below itself; `none` is a recursion that does not come to an end. -/
def insertAt : ℕ → Node → B256 → B256 → ℕ → Option (Node × Bool)
  | 0, _, _, _, _ => none
  | _ + 1, nil, key, valueHash, _ => some (leaf key valueHash, true)
  | fuel + 1, leaf existing existingHash, key, valueHash, depth =>
    if existing = key then some (leaf key valueHash, false)
    else do
      let (slot, _) ← insertAt fuel (internal nil nil none) existing existingHash depth
      let (slot, _) ← insertAt fuel slot key valueHash depth
      return (slot, true)
  | fuel + 1, internal left right _, key, valueHash, depth =>
    if bit key depth then do
      let (right, added) ← insertAt fuel right key valueHash (depth + 1)
      return (internal left right none, added)
    else do
      let (left, added) ← insertAt fuel left key valueHash (depth + 1)
      return (internal left right none, added)

/-- A node one of whose children changed: an only child that is a leaf takes its place, an
only child that is an inner node stays below it. -/
def collapse : Node → Node
  | internal nil nil _ => nil
  | internal (leaf key valueHash) nil _ => leaf key valueHash
  | internal nil (leaf key valueHash) _ => leaf key valueHash
  | slot => slot

def removeAt : Node → B256 → ℕ → Node × Bool
  | nil, _, _ => (nil, false)
  | leaf existing existingHash, key, _ =>
    if existing = key then (nil, true) else (leaf existing existingHash, false)
  | internal left right _, key, depth =>
    if bit key depth then
      let r := removeAt right key (depth + 1)
      (collapse (internal left r.1 none), r.2)
    else
      let l := removeAt left key (depth + 1)
      (collapse (internal l.1 right none), l.2)

def get : Node → B256 → ℕ → Option B256
  | nil, _, _ => none
  | leaf existing valueHash, key, _ => if existing = key then some valueHash else none
  | internal left right _, key, depth =>
    if bit key depth then right.get key (depth + 1) else left.get key (depth + 1)

def prove [Crypto] : Node → B256 → ℕ → BmtProof × Node
  | nil, key, _ => (⟨key, none, [], none⟩, nil)
  | leaf existing valueHash, key, _ =>
    if existing = key then (⟨key, some valueHash, [], none⟩, leaf existing valueHash)
    else (⟨key, none, [], some (existing, valueHash)⟩, leaf existing valueHash)
  | internal left right cache, key, depth =>
    if bit key depth then
      let l := nodeHash left
      let (proof, right) := right.prove key (depth + 1)
      ({ proof with siblings := l.1 :: proof.siblings }, internal l.2 right cache)
    else
      let r := nodeHash right
      let (proof, left) := left.prove key (depth + 1)
      ({ proof with siblings := r.1 :: proof.siblings }, internal left r.2 cache)

end Node

/-- A tree of keys that share their first `baseDepth` bits. -/
structure Sbmt where
  root : Node
  len : ℕ
  baseDepth : ℕ
deriving DecidableEq

namespace Sbmt

def withBaseDepth (baseDepth : ℕ) : Sbmt where
  root := .nil
  len := 0
  baseDepth := baseDepth

def rootHash [Crypto] (t : Sbmt) : B256 × Sbmt :=
  let (hash, root) := t.root.nodeHash
  (hash, { t with root := root })

/-- Enough recursion for two keys that differ in the last of their 256 bits only. -/
def insertFuel : ℕ := 2 * 256 + 2

def insertHashed (t : Sbmt) (key valueHash : B256) : Option Sbmt := do
  let (root, added) ← t.root.insertAt insertFuel key valueHash t.baseDepth
  return { t with root := root, len := if added then t.len + 1 else t.len }

def insert [Crypto] (t : Sbmt) (key : B256) (value : Bytes) : Option Sbmt :=
  t.insertHashed key (hashValue value)

def remove (t : Sbmt) (key : B256) : Bool × Sbmt :=
  let (root, removed) := t.root.removeAt key t.baseDepth
  (removed, { t with root := root, len := if removed then t.len - 1 else t.len })

def prove [Crypto] (t : Sbmt) (key : B256) : BmtProof × Sbmt :=
  let (proof, root) := t.root.prove key t.baseDepth
  (proof, { t with root := root })

end Sbmt

namespace BmtProof

variable [Crypto]

/-- The fold of `verify`, from the deepest sibling up: the sibling at `depth` stands on the
side the key's bit does not take. -/
def fold (key : B256) : ℕ → List B256 → B256 → B256
  | _, [], cur => cur
  | depth, sibling :: siblings, cur =>
    if bit key depth then hashInternal sibling (fold key (depth + 1) siblings cur)
    else hashInternal (fold key (depth + 1) siblings cur) sibling

def sharesPrefixRange (a b : B256) (base len : ℕ) : Bool :=
  (List.range' base len).all fun d => bit a d == bit b d

/-- The digest a proof starts from, unless its contents contradict each other. -/
def start (p : BmtProof) (baseDepth : ℕ) : Option B256 :=
  match p.valueHash, p.otherLeaf with
  | some valueHash, none => some (hashLeaf p.key valueHash)
  | none, none => some EMPTY_HASH
  | none, some (other, otherHash) =>
    if other = p.key then none
    else if ¬ sharesPrefixRange p.key other baseDepth p.siblings.length then none
    else some (hashLeaf other otherHash)
  | some _, some _ => none

def verify (p : BmtProof) (root : B256) (expectedValueHash : Option B256) (baseDepth : ℕ) : Bool :=
  if baseDepth > 256 ∨ p.siblings.length > 256 - baseDepth then false
  else if p.valueHash ≠ expectedValueHash then false
  else match p.start baseDepth with
    | none => false
    | some cur => fold p.key baseDepth p.siblings cur = root

end BmtProof

end Bmt

end N42
