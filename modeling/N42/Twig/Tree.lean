import Mathlib.Data.Finmap
import N42.Twig.Hashing

/-!
`TwigTree`, the single-shard engine of `n42-twig-core`: an append-only log of entries, a forest of
2048-leaf twigs whose inner nodes are repaired when the root is asked for, and an upper tree over
the twig roots.
-/

namespace N42

open Lib Lib.MerkleHeap

def u32Max : ℕ := 2 ^ 32 - 1

/-- One twig: a heap of `2 * TWIG_SIZE` hashes with the root at node 1 and the leaves from
`TWIG_SIZE` on. -/
structure Twig where
  nodes : ℕ → B256
  live : ℕ
  dirty : Bool

namespace Twig

variable [Crypto]

def new : Twig where
  nodes := nullNodes
  live := 0
  dirty := false

variable (t : Twig)

def writeLeaf (loc : ℕ) (h : B256) : Twig :=
  { t with nodes := Function.update t.nodes (TWIG_SIZE + loc) h, dirty := true }

/-- Fold the union of several changed leaves' paths, one level at a time. -/
def foldBatch (locals : List ℕ) : Twig :=
  let level := ((locals.map (TWIG_SIZE + ·)).mergeSort (· ≤ ·)).destutter (· ≠ ·)
  { t with nodes := foldUp hashNode TWIG_HEIGHT level t.nodes }

/-- Recompute all inner nodes, whole levels at a time. -/
def recompute : Twig :=
  { t with nodes := foldLevels hashNode TWIG_HEIGHT (TWIG_SIZE / 2) t.nodes }

def root : B256 := t.nodes 1

/-- What `TwigTree::root` does to one twig with the locals touched in it: a full
recompute when they are many, a batch fold otherwise. -/
def repair (locals : List ℕ) : Twig :=
  if t.dirty then
    { (if locals.length * TWIG_HEIGHT ≥ TWIG_SIZE then t.recompute else t.foldBatch locals) with
      dirty := false }
  else t

end Twig

/-- One append-slot entry; the value is `value_arena[voff..voff + vlen]`. -/
structure Entry where
  key : B256
  voff : ℕ
  vlen : ℕ
  active : Bool

/-- The compact index key, the first 16 bytes of a key (kept as bytes, not as the `u128`
they spell). -/
def keyPrefix (key : B256) : Bytes := (B256.toBytes key).take 16

/-- The open-addressing table of `flat.rs`, as the finite map it implements. -/
abbrev FlatIndex := Finmap fun _ : Bytes => ℕ

def FlatIndex.len (index : FlatIndex) : ℕ := index.keys.card

structure TwigTree where
  /-- indexed by slot -/
  entries : List Entry
  valueArena : Bytes
  twigs : List Twig
  index : FlatIndex
  nextSlot : ℕ
  /-- slots whose leaves changed since the last `root()` -/
  touched : List ℕ
  /-- the upper tree over the twig roots, as of the last `root()` -/
  upper : ℕ → B256
  upCap : ℕ

structure TwigProof where
  key : B256
  value : Bytes
  slot : ℕ
  twigPath : Vector B256 TWIG_HEIGHT
  upperPath : List B256

namespace TwigTree

def new : TwigTree where
  entries := []
  valueArena := []
  twigs := []
  index := ∅
  nextSlot := 0
  touched := []
  upper := fun _ => NULL_HASH
  upCap := 0

def valueOf (t : TwigTree) (e : Entry) : Bytes := (t.valueArena.drop e.voff).take e.vlen

def entryValue (t : TwigTree) (slot : ℕ) : Bytes :=
  match t.entries[slot]? with
  | some e => t.valueOf e
  | none => []

/-- The slot of `key`, confirmed against the entry's full key. -/
def lookup (t : TwigTree) (key : B256) : Option ℕ :=
  (t.index.lookup (keyPrefix key)).filter fun slot => t.entries[slot]?.map Entry.key == some key

def get (t : TwigTree) (key : B256) : Option Bytes := (t.lookup key).map t.entryValue

variable [Crypto]

variable (t : TwigTree)

def deactivate (slot : ℕ) : TwigTree :=
  { t with
    entries := t.entries.modify slot fun e => { e with active := false }
    touched := t.touched ++ [slot]
    twigs := t.twigs.modify (slot / TWIG_SIZE) fun tw =>
      let tw := tw.writeLeaf (slot % TWIG_SIZE) NULL_HASH
      { tw with live := tw.live - 1 } }

def ensureTwigs (twigs : List Twig) (count : ℕ) : List Twig :=
  twigs ++ List.replicate (count - twigs.length) Twig.new

variable (key : B256) (value : Bytes)

/-- Append a fresh entry at `next_slot`, the part of `set_with_leaf` after the old slot
has been deactivated. -/
def append (leaf : B256) : TwigTree :=
  let slot := t.nextSlot
  { t with
    nextSlot := t.nextSlot + 1
    touched := t.touched ++ [slot]
    twigs := (ensureTwigs t.twigs (slot / TWIG_SIZE + 1)).modify (slot / TWIG_SIZE) fun tw =>
      let tw := tw.writeLeaf (slot % TWIG_SIZE) leaf
      { tw with live := tw.live + 1 }
    valueArena := t.valueArena ++ value
    -- `value.len() as u32`: only a debug assertion guards the width
    entries := t.entries ++
      [{ key, voff := t.valueArena.length, vlen := value.length % 2 ^ 32, active := true }]
    index := t.index.insert (keyPrefix key) slot }

def setWithLeaf (leaf : B256) : TwigTree :=
  let t := match t.lookup key with
    | some old => t.deactivate old
    | none => t
  t.append key value leaf

def set : TwigTree :=
  t.setWithLeaf key value (hashLeaf key value)

/-- Delete `key`; the Boolean says whether it was present. -/
def delete (key : B256) : Bool × TwigTree :=
  match t.lookup key with
  | some slot => (true, { t with index := t.index.erase (keyPrefix key) }.deactivate slot)
  | none => (false, t)

abbrev BatchOp := B256 × Option Bytes

/-- Apply one operation; the leaf hashes of all set operations of a block are computed
up front in the source, each from its own key and value. -/
def applyOp (op : BatchOp) : TwigTree :=
  match op.2 with
  | some value => t.setWithLeaf op.1 value (hashLeaf op.1 value)
  | none => (t.delete op.1).2

/-- Apply the picked operations of a block, stably sorted by key. -/
def applyBatchIndexed (ops : List BatchOp) : TwigTree :=
  (ops.mergeSort fun a b => a.1 ≤ b.1).foldl applyOp t

def applyBatch (ops : List BatchOp) : TwigTree := t.applyBatchIndexed ops

/-- The twigs `compact` empties: not the active one, not empty, and sparser than
`threshold`. -/
def sparseTwigs (threshold : Float) : List ℕ :=
  let active := t.nextSlot / TWIG_SIZE
  (List.range t.twigs.length).filter fun id =>
    match t.twigs[id]? with
    | some tw => id ≠ active ∧ tw.live ≠ 0 ∧
        Float.ofNat tw.live / Float.ofNat TWIG_SIZE < threshold
    | none => false

def liveEntries (ids : List ℕ) : List (B256 × Bytes) :=
  ids.flatMap fun id => (List.range TWIG_SIZE).filterMap fun loc =>
    match t.entries[id * TWIG_SIZE + loc]? with
    | some e => if e.active then some (e.key, t.valueOf e) else none
    | none => none

/-- Re-append the live entries of every sparse twig at fresh slots, sorted by key; the
number is how many were moved. -/
def compact (threshold : Float) : ℕ × TwigTree :=
  let live := (t.liveEntries (t.sparseTwigs threshold)).mergeSort fun a b => a.1 ≤ b.1
  (live.length, live.foldl (fun t kv => t.set kv.1 kv.2) t)

/-- Repair the twigs of a sorted list of touched slots, one group of equal twig ids at a
time. The first argument bounds the number of groups. -/
def repairTouched : ℕ → List ℕ → List Twig → List Twig
  | 0, _, twigs => twigs
  | _ + 1, [], twigs => twigs
  | fuel + 1, slot :: rest, twigs =>
    let id := slot / TWIG_SIZE
    let group := slot :: rest.takeWhile (· / TWIG_SIZE = id)
    repairTouched fuel (rest.dropWhile (· / TWIG_SIZE = id))
      (twigs.modify id (·.repair (group.map (· % TWIG_SIZE))))

/-- The upper tree over the twig roots, padded with null hashes. -/
def buildUpper (twigs : List Twig) : ℕ → B256 :=
  let cap := nextPowerOfTwo twigs.length
  refreshDown hashNode (cap - 1) fun j =>
    if j < cap then NULL_HASH else (twigs[j - cap]?.map Twig.root).getD NULL_HASH

def root : B256 × TwigTree :=
  let slots := (t.touched.mergeSort (· ≤ ·)).destutter (· ≠ ·)
  let twigs := repairTouched slots.length slots t.twigs
  if twigs = [] then
    (NULL_HASH, { t with twigs, touched := [], upper := fun _ => NULL_HASH, upCap := 0 })
  else
    let upper := buildUpper twigs
    (upper 1, { t with twigs, touched := [], upper, upCap := nextPowerOfTwo twigs.length })

def cachedRoot : B256 := if t.upCap = 0 then NULL_HASH else t.upper 1

def prove (key : B256) : Option TwigProof :=
  match t.lookup key with
  | none => none
  | some slot =>
    let twigId := slot / TWIG_SIZE
    let nodes := match t.twigs[twigId]? with
      | some tw => tw.nodes
      | none => fun _ => NULL_HASH
    some {
      key
      value := t.entryValue slot
      slot
      twigPath := ⟨(siblings nodes TWIG_HEIGHT (TWIG_SIZE + slot % TWIG_SIZE)).toArray, by simp⟩
      -- `while j > 1`, halving `j`
      upperPath := siblings t.upper (Nat.log2 (t.upCap + twigId)) (t.upCap + twigId) }

end TwigTree

def TwigProof.verify [Crypto] (p : TwigProof) (root : B256) : Bool :=
  climb hashNode
    (climb hashNode (hashLeaf p.key p.value) (p.slot % TWIG_SIZE) p.twigPath.toList)
    (p.slot / TWIG_SIZE) p.upperPath = root

end N42
