import N42.Lib.HashTree
import N42.Twig.Restore

/-!
What an accepted `ShardedTwigProof` says about the forest whose root it was checked against.

`hash_node` hashes 64 bytes with no domain prefix, and so does a leaf with a 31-byte value. Where
neither the forest nor the proof holds such a value, an accepted proof is sound.
-/

namespace N42

open Lib Lib.MerkleHeap HashTree TwigTree Set

attribute [local simp] HashTree.contents

section

variable [Crypto]

namespace LogEntry

/-- The computation at a slot: the leaf of a live entry, null for a dead or unused slot. -/
def leafTree (log : List LogEntry) (slot : ℕ) : HashTree Bytes :=
  match log[slot]? with
  | some e => if e.active then .data (leafPreimage e.key e.value) else .null
  | none => .null

def worldTree (log : List LogEntry) : HashTree Bytes :=
  let count := twigCount log.length
  if count = 0 then .null
  else merkleRoot .node
    (fun id => if id < count then
        merkleRoot .node (fun i => leafTree log (id * TWIG_SIZE + i)) TWIG_HEIGHT
      else .null)
    (Nat.clog 2 count)

end LogEntry

abbrev digestOf (t : HashTree Bytes) : B256 := t.root Crypto.blake3 nodePreimage NULL_HASH

abbrev stringsOf (t : HashTree Bytes) : Set Bytes :=
  t.hashed Crypto.blake3 nodePreimage NULL_HASH

theorem digestOf_node (left right : HashTree Bytes) :
    digestOf (.node left right) = hashNode (digestOf left) (digestOf right) := rfl

theorem stringsOf_node (left right : HashTree Bytes) :
    stringsOf (.node left right) = insert (nodePreimage (digestOf left) (digestOf right))
      (stringsOf left ∪ stringsOf right) := rfl

namespace LogEntry

theorem digestOf_leafTree (log : List LogEntry) (slot : ℕ) :
    digestOf (leafTree log slot) = leafAt log slot := by
  rw [leafTree, leafAt]
  cases log[slot]? with
  | none => rfl
  | some e =>
    simp only
    split <;> rfl

theorem digestOf_worldTree (log : List LogEntry) : digestOf (worldTree log) = worldRoot log := by
  have hnode : (fun l r => Crypto.blake3 (nodePreimage l r)) = hashNode := rfl
  rw [worldTree, worldRoot, forestRoot]
  by_cases hcount : twigCount log.length = 0
  · rw [if_pos hcount, if_pos hcount]
    rfl
  · rw [if_neg hcount, if_neg hcount, merkleRoot, digestOf, root_subtree]
    refine congrArg (fun leaf => subtree hashNode leaf _ 0) (funext fun id => ?_)
    split
    · rw [merkleRoot, root_subtree]
      exact congrArg (fun leaf => subtree hashNode leaf _ 0)
        (funext fun i => digestOf_leafTree log _)
    · rfl

omit [Crypto] in
theorem mem_contents_worldTree {log : List LogEntry} {m : Bytes}
    (hm : m ∈ (worldTree log).contents) :
    ∃ e ∈ log, e.active = true ∧ m = leafPreimage e.key e.value := by
  have hleaf : ∀ {slot}, m ∈ (leafTree log slot).contents →
      ∃ e ∈ log, e.active = true ∧ m = leafPreimage e.key e.value := by
    intro slot hm
    rw [leafTree] at hm
    cases he : log[slot]? with
    | none => simp [he] at hm
    | some e =>
      simp only [he] at hm
      split at hm
      · next hactive => exact ⟨e, List.mem_of_getElem? he, hactive, hm⟩
      · simp at hm
  rw [worldTree] at hm
  split at hm
  · simp at hm
  · obtain ⟨id, hm⟩ := mem_contents_subtree hm
    split at hm
    · obtain ⟨i, hm⟩ := mem_contents_subtree hm
      exact hleaf hm
    · simp at hm

end LogEntry

open LogEntry

namespace ShardedTwig

def hashTree (t : ShardedTwig) : HashTree Bytes :=
  merkleRoot .node (fun i => match t.shards[i]? with
    | some shard => worldTree shard.log
    | none => .null) SHARD_BITS

def hashed (t : ShardedTwig) : Set Bytes := stringsOf t.hashTree

end ShardedTwig

namespace ShardedTwig

variable {K : B256 → Prop} {t : ShardedTwig}

theorem Keyed.root_eq (h : t.Keyed K) : t.root.1 = digestOf t.hashTree := by
  have hlen : (t.shards.map fun s => s.root.1).length = 2 ^ SHARD_BITS := by
    rw [List.length_map, h.length]
    rfl
  have hroot : t.root.1 = shardTreeRoot (t.shards.map fun s => s.root.1) := by
    simp [ShardedTwig.root, Function.comp_def]
  rw [hroot, shardTreeRoot, shardTreeRoot_go hlen (hlen ▸ Nat.lt_two_pow_self.le), hashTree,
    merkleRoot, merkleRoot, digestOf, root_subtree]
  refine congrArg (fun leaf => subtree hashNode leaf SHARD_BITS 0) (funext fun i => ?_)
  rw [List.getD_eq_getElem?_getD, List.getElem?_map]
  cases hs : t.shards[i]? with
  | none => rfl
  | some s =>
    rw [Option.map_some, Option.getD_some, (h.shards i s hs).inv.root_eq]
    exact (digestOf_worldTree s.log).symm

variable (hK : PrefixFree K)
include hK

theorem Keyed.get_of_active (h : t.Keyed K) {i : ℕ} {s : TwigTree} (hs : t.shards[i]? = some s)
    {e : LogEntry} (he : e ∈ s.log) (hactive : e.active = true) : t.get e.key = some e.value := by
  have hkeyed := h.shards i s hs
  obtain ⟨e₀, he₀, rfl⟩ := List.mem_map.mp he
  obtain ⟨slot, hslot⟩ := List.mem_iff_getElem?.mp he₀
  have hkey := hkeyed.keys e₀ he₀
  have hlookup : s.lookup e₀.key = some slot := by
    rw [hkeyed.indexed.lookup_eq (fun a b ha hb => hK a b ha.1 hb.1) hkey]
    exact (hkeyed.exact _ _).mpr ⟨e₀, hslot, hactive, rfl⟩
  simp [ShardedTwig.get, hkey.2, hs, TwigTree.get, hlookup, TwigTree.entryValue, hslot]

theorem Keyed.get_of_mem_contents (h : t.Keyed K) {m : Bytes} (hm : m ∈ t.hashTree.contents) :
    ∃ key value, t.get key = some value ∧ m = leafPreimage key value := by
  obtain ⟨i, hm⟩ := mem_contents_subtree hm
  cases hs : t.shards[i]? with
  | none => simp [hs] at hm
  | some s =>
    simp only [hs] at hm
    obtain ⟨e, he, hactive, hm⟩ := mem_contents_worldTree hm
    exact ⟨e.key, e.value, h.get_of_active hK hs he hactive, hm⟩

end ShardedTwig

namespace ShardedTwigProof

def hashed (p : ShardedTwigProof) : Set Bytes :=
  let leaf := hashLeaf p.inner.key p.inner.value
  let twigRoot := climb hashNode leaf (p.inner.slot % TWIG_SIZE) p.inner.twigPath.toList
  {leafPreimage p.inner.key p.inner.value} ∪
    HashTree.climbed Crypto.blake3 nodePreimage leaf (p.inner.slot % TWIG_SIZE)
      p.inner.twigPath.toList ∪
    HashTree.climbed Crypto.blake3 nodePreimage twigRoot (p.inner.slot / TWIG_SIZE)
      p.inner.upperPath ∪
    HashTree.climbed Crypto.blake3 nodePreimage p.shardRoot p.shardIndex p.shardPath.toList

theorem verifyForKey_eq_ok {p : ShardedTwigProof} {root key : B256} :
    p.verifyForKey root key = .ok () ↔
      p.inner.key = key ∧ p.shardIndex = N42.shardIndex key ∧ p.shardIndex < SHARD_COUNT ∧
        p.inner.verify p.shardRoot = true ∧
        foldShardPath p.shardRoot p.shardIndex p.shardPath = root := by
  simp only [verifyForKey, ShardedTwigProof.verify, error_guard_eq_ok, not_not, not_le,
    and_true]

theorem mem_contents_of_accepted {p : ShardedTwigProof} {t : HashTree Bytes} {key : B256}
    (hbinds : HashTree.Binds Crypto.blake3 nodePreimage NULL_HASH p.hashed t)
    (hp : p.inner.value.length ≠ 31) (hok : p.verifyForKey (digestOf t) key = .ok ()) :
    leafPreimage key p.inner.value ∈ t.contents := by
  obtain ⟨rfl, -, -, hinner, hshard⟩ := verifyForKey_eq_ok.mp hok
  have hupper := of_decide_eq_true hinner
  -- down the shard tree, then the upper tree, then the twig
  obtain ⟨u₁, hu₁, hroot₁⟩ := hbinds.climb nodePreimage_inj
    (fun m hm => .inr hm) hshard
  have hbinds₁ := hbinds.descend hu₁
  obtain ⟨u₂, hu₂, hroot₂⟩ := hbinds₁.climb nodePreimage_inj
    (fun m hm => .inl (.inr hm)) (hupper.trans hroot₁.symm)
  have hbinds₂ := hbinds₁.descend hu₂
  obtain ⟨u₃, hu₃, hroot₃⟩ := hbinds₂.climb nodePreimage_inj
    (fun m hm => .inl (.inl (.inr hm))) hroot₂.symm
  have hbinds₃ := hbinds₂.descend hu₃
  have hcontents : u₃.contents ⊆ t.contents := fun m hm =>
    (descend_hashed Crypto.blake3 nodePreimage NULL_HASH hu₁).2
      ((descend_hashed Crypto.blake3 nodePreimage NULL_HASH hu₂).2
        ((descend_hashed Crypto.blake3 nodePreimage NULL_HASH hu₃).2 hm))
  apply hcontents
  rcases hbinds₃.cases (.inl (.inl (.inl rfl))) hroot₃.symm with rfl | ⟨left, right, -, hm⟩
  · exact rfl
  · -- a leaf as long as a pair has a value of 31 bytes
    have hlen := congrArg List.length hm
    rw [leafPreimage_length, nodePreimage_length] at hlen
    omega

end ShardedTwigProof

namespace ShardedTwig

/-- An accepted proof is sound where keys have distinct prefixes, values fit their entries,
and neither the proof nor the forest holds a value of 31 bytes; `blake3` has to be free of
collisions, and of the null digest, on the strings hashed. -/
theorem accepted_proof_sound (calls : List Call)
    (hdistinct : ∀ a b, Named calls a → Named calls b → keyPrefix a = keyPrefix b → a = b)
    (hfits : ∀ op ∈ calls.flatMap Call.ops, ∀ value ∈ op.2, value.length ≤ u32Max)
    (key : B256) (p : ShardedTwigProof) :
    let t := calls.foldl call new
    Set.InjOn Crypto.blake3 (t.hashed ∪ p.hashed) →
    (∀ m ∈ p.hashed, Crypto.blake3 m ≠ NULL_HASH) →
    (∀ key value, t.get key = some value → value.length ≠ 31) → p.inner.value.length ≠ 31 →
    p.verifyForKey t.root.1 key = .ok () → t.get key = some p.inner.value := by
  intro t hinj hnonzero hlive hp hok
  have hkeyed : t.Keyed (Named calls) := Keyed.run hdistinct hfits
  have hplain : ∀ m ∈ t.hashTree.contents, ∀ a b, m ≠ nodePreimage a b := by
    intro m hm a b heq
    obtain ⟨key', value', hget, rfl⟩ := hkeyed.get_of_mem_contents hdistinct hm
    have hlen := congrArg List.length heq
    rw [leafPreimage_length, nodePreimage_length] at hlen
    exact hlive key' value' hget (by omega)
  rw [hkeyed.root_eq] at hok
  have hmem := ShardedTwigProof.mem_contents_of_accepted ⟨hinj, hnonzero, hplain⟩ hp hok
  obtain ⟨key', value', hget, heq⟩ := hkeyed.get_of_mem_contents hdistinct hmem
  obtain ⟨rfl, hvalue⟩ := leafPreimage_inj heq
  rw [hget, hvalue]

end ShardedTwig

end

/-- A hash of 64 bytes that is the successor of the left 32, and of anything else that tells
the length. -/
def leftSucc (bytes : Bytes) : B256 :=
  BitVec.ofNat 256 (if bytes.length = 64 then beNat (bytes.take 32) + 1 else 2 ^ 100 + bytes.length)

section LeftSucc

local instance : Crypto := Crypto.ofBlake3 leftSucc

theorem leftSucc_node (left right : B256) : leftSucc (nodePreimage left right) = left + 1 := by
  have htake : (nodePreimage left right).take 32 = B256.toBytes left := by
    rw [nodePreimage, List.take_left' (by simp)]
  rw [leftSucc, if_pos (nodePreimage_length _ _), BitVec.ofNat_add]
  exact congrArg (· + 1) (ofNat_beNat_beBytes 32 left)

theorem hashNode_leftSucc (left right : B256) : hashNode left right = left + 1 :=
  leftSucc_node left right

/-- The digests of the all-null subtrees of height `first`, …, `first + n - 1`. -/
def nulls (first n : ℕ) : List B256 := (List.range' first n).map (BitVec.ofNat 256)

/-- The strings hashed on the way up from a leftmost digest, with null siblings. -/
def spine (digest : B256) (n : ℕ) : List Bytes :=
  (List.range n).map fun j => nodePreimage (digest + BitVec.ofNat 256 j) (BitVec.ofNat 256 j)

theorem mem_spine {digest : B256} {n j : ℕ} (hj : j < n) :
    nodePreimage (digest + BitVec.ofNat 256 j) (BitVec.ofNat 256 j) ∈ spine digest n :=
  List.mem_map.mpr ⟨j, List.mem_range.mpr hj, rfl⟩

theorem spine_mono {digest : B256} {n n' : ℕ} (hn : n ≤ n') {m : Bytes} (hm : m ∈ spine digest n) :
    m ∈ spine digest n' := by
  obtain ⟨j, hj, rfl⟩ := List.mem_map.mp hm
  exact mem_spine ((List.mem_range.mp hj).trans_le hn)

theorem climb_leftSucc (digest : B256) (path : List B256) :
    climb hashNode digest 0 path = digest + BitVec.ofNat 256 path.length := by
  induction path generalizing digest with
  | nil => simp [climb]
  | cons sibling path ih =>
    rw [climb, if_pos rfl, hashNode_leftSucc, ih, List.length_cons, BitVec.ofNat_add,
      BitVec.add_assoc, BitVec.add_comm (1 : B256)]
    rfl

theorem climbed_nulls (digest : B256) (first n : ℕ) :
    HashTree.climbed Crypto.blake3 nodePreimage (digest + BitVec.ofNat 256 first) 0
      (nulls first n) ⊆ {m | m ∈ spine digest (first + n)} := by
  induction n generalizing first with
  | zero => simp [nulls, climbed]
  | succ n ih =>
    have hnext : digest + BitVec.ofNat 256 first + 1 = digest + BitVec.ofNat 256 (first + 1) := by
      rw [BitVec.ofNat_add, BitVec.add_assoc]
      rfl
    have hrest := ih (first + 1)
    rw [← hnext] at hrest
    refine insert_subset (mem_spine (by omega)) ?_
    show climbed _ _ (leftSucc (nodePreimage _ _)) (0 / 2) _ ⊆ _
    rw [leftSucc_node]
    exact hrest.trans fun m hm => spine_mono (by omega) hm

theorem null_subtree {leaf : ℕ → HashTree Bytes} (hleaf : ∀ s, s ≠ 0 → leaf s = .null) (h : ℕ)
    {i : ℕ} (hi : i ≠ 0) :
    digestOf (subtree .node leaf h i) = BitVec.ofNat 256 h ∧
      stringsOf (subtree .node leaf h i) ⊆ {m | m ∈ spine 0 h} := by
  induction h generalizing i with
  | zero =>
    rw [subtree, hleaf i hi]
    exact ⟨rfl, empty_subset _⟩
  | succ h ih =>
    obtain ⟨hleft, hleft'⟩ := ih (i := 2 * i) (by omega)
    obtain ⟨hright, hright'⟩ := ih (i := 2 * i + 1) (by omega)
    have hzero : (0 : B256) + BitVec.ofNat 256 h = BitVec.ofNat 256 h := BitVec.zero_add _
    have hpair : nodePreimage (BitVec.ofNat 256 h) (BitVec.ofNat 256 h) ∈ spine 0 (h + 1) := by
      have hmem : nodePreimage (0 + BitVec.ofNat 256 h) (BitVec.ofNat 256 h) ∈ spine 0 (h + 1) :=
        mem_spine (by omega)
      rwa [hzero] at hmem
    rw [subtree, digestOf_node, stringsOf_node, hleft, hright, hashNode_leftSucc]
    exact ⟨(BitVec.ofNat_add h 1).symm,
      insert_subset hpair (union_subset (fun m hm => spine_mono (by omega) (hleft' hm))
        fun m hm => spine_mono (by omega) (hright' hm))⟩

theorem left_subtree (leaf : ℕ → HashTree Bytes) (hleaf : ∀ s, s ≠ 0 → leaf s = .null) (h : ℕ) :
    digestOf (merkleRoot .node leaf h) = digestOf (leaf 0) + BitVec.ofNat 256 h ∧
      stringsOf (merkleRoot .node leaf h) ⊆ stringsOf (leaf 0) ∪
        {m | m ∈ spine (digestOf (leaf 0)) h ++ spine 0 h} := by
  rw [merkleRoot]
  induction h with
  | zero => exact ⟨by simp [subtree], subset_union_left⟩
  | succ h ih =>
    obtain ⟨hleft, hleft'⟩ := ih
    obtain ⟨hright, hright'⟩ := null_subtree hleaf h (i := 1) (by omega)
    rw [subtree, digestOf_node, stringsOf_node, hleft, hright,
      hashNode_leftSucc]
    constructor
    · rw [BitVec.ofNat_add, BitVec.add_assoc]
      rfl
    · refine insert_subset (.inr (List.mem_append_left _ (mem_spine (by omega))))
        (union_subset (hleft'.trans (union_subset_union_right _ fun m hm => ?_))
          fun m hm => .inr (List.mem_append_right _ (spine_mono (by omega) (hright' hm))))
      rcases List.mem_append.mp hm with hm | hm
      · exact List.mem_append_left _ (spine_mono (by omega) hm)
      · exact List.mem_append_right _ (spine_mono (by omega) hm)

theorem binds_of_nodup {S : Set Bytes} {messages : List Bytes}
    (hS : S ⊆ {m | m ∈ messages}) (hnodup : (NULL_HASH :: messages.map leftSucc).Nodup) :
    Set.InjOn Crypto.blake3 S ∧ ∀ m ∈ S, Crypto.blake3 m ≠ NULL_HASH := by
  obtain ⟨hzero, hnodup⟩ := List.nodup_cons.mp hnodup
  refine ⟨fun m hm m' hm' heq => List.inj_on_of_nodup_map hnodup (hS hm) (hS hm') heq,
    fun m hm heq => hzero ?_⟩
  rw [← heq]
  exact List.mem_map.mpr ⟨m, hS hm, rfl⟩

namespace ShardedTwig

open LogEntry

def oneLeaf (value : Bytes) : ShardedTwig := [Call.applyBatch [(0, some value)]].foldl call new

variable {value : Bytes}

theorem oneLeaf_named (a b : B256) (ha : Named [Call.applyBatch [(0, some value)]] a)
    (hb : Named [Call.applyBatch [(0, some value)]] b) (_ : keyPrefix a = keyPrefix b) : a = b := by
  obtain ⟨op, hop, rfl⟩ := ha
  obtain ⟨op', hop', rfl⟩ := hb
  simp only [List.flatMap_cons, Call.ops, List.flatMap_nil, List.append_nil,
    List.mem_singleton] at hop hop'
  rw [hop, hop']

theorem oneLeaf_fits (hlen : value.length ≤ u32Max) :
    ∀ op ∈ [Call.applyBatch [(0, some value)]].flatMap Call.ops, ∀ v ∈ op.2,
      v.length ≤ u32Max := by
  simpa [Call.ops] using hlen

theorem oneLeaf_shards (value : Bytes) : (oneLeaf value).shards =
    (TwigTree.new.append 0 value (hashLeaf 0 value)).root.2 ::
      List.replicate 15 TwigTree.new.root.2 := by
  have hindex : shardIndex 0 = 0 := by decide
  have hfirst : pick [(0, some value)] 0 TwigTree.new =
      TwigTree.new.append 0 value (hashLeaf 0 value) := by
    rw [pick, List.filter_cons_of_pos (by simpa using hindex), List.filter_nil, applyBatchIndexed, List.mergeSort_singleton]
    rfl
  have hrest : ∀ i : ℕ, pick [(0, some value)] (i + 1) TwigTree.new = TwigTree.new := by
    intro i
    rw [pick, List.filter_cons_of_neg (by rw [decide_eq_true_eq, hindex]; omega),
      List.filter_nil, if_pos rfl]
  have hnew : new.shards = TwigTree.new :: List.replicate 15 TwigTree.new := rfl
  rw [oneLeaf, List.foldl_cons, List.foldl_nil, call, applyBatch_eq_mapIdx, hnew]
  apply List.ext_getElem?
  intro i
  rw [List.getElem?_mapIdx]
  cases i with
  | zero => rw [List.getElem?_cons_zero, List.getElem?_cons_zero, Option.map_some, hfirst]
  | succ i =>
    rw [List.getElem?_cons_succ, List.getElem?_cons_succ, List.getElem?_replicate,
      List.getElem?_replicate]
    split
    · rw [Option.map_some, hrest]
    · rfl

section

variable (hlen : value.length ≤ u32Max)
include hlen

theorem oneLeaf_log {i : ℕ} {s : TwigTree} (hs : (oneLeaf value).shards[i]? = some s) :
    s.log = if i = 0 then [{ key := 0, value, active := true }] else [] := by
  have hwidth : value.length < 2 ^ 32 := by
    rw [u32Max] at hlen
    omega
  rw [oneLeaf_shards] at hs
  cases i with
  | zero =>
    obtain rfl := Option.some.inj hs
    rw [root_log, log_append TwigTree.Stores.new hwidth]
    rfl
  | succ i =>
    obtain rfl := List.eq_of_mem_replicate (List.mem_of_getElem? hs)
    rw [root_log]
    rfl

theorem oneLeaf_get {key : B256} {found : Bytes}
    (h : (oneLeaf value).get key = some found) : key = 0 ∧ found = value := by
  obtain ⟨s, hs, hget⟩ := Option.bind_eq_some_iff.mp h
  obtain ⟨slot, hlookup, rfl⟩ := Option.map_eq_some_iff.mp hget
  obtain ⟨-, e, he, rfl⟩ := lookup_eq_some hlookup
  have hmem : ({ key := e.key, value := s.valueOf e, active := e.active } : LogEntry) ∈ s.log :=
    List.mem_map.mpr ⟨e, List.mem_of_getElem? he, rfl⟩
  rw [oneLeaf_log hlen hs] at hmem
  split at hmem
  · have heq := List.mem_singleton.mp hmem
    simp only [LogEntry.mk.injEq] at heq
    rw [entryValue, he]
    exact ⟨heq.1, heq.2.1⟩
  · simp at hmem

theorem oneLeaf_hashTree :
    (oneLeaf value).hashTree = merkleRoot .node (fun i => if i = 0 then
        merkleRoot .node (fun i => if i = 0 then .data (leafPreimage 0 value) else .null)
          TWIG_HEIGHT
      else .null) SHARD_BITS := by
  have htwig : worldTree [{ key := 0, value, active := true }] =
      merkleRoot .node (fun i => if i = 0 then .data (leafPreimage 0 value) else .null)
        TWIG_HEIGHT := by
    have hcount : twigCount 1 = 1 := by decide
    rw [worldTree]
    simp only [List.length_singleton, hcount]
    refine congrArg (fun leaf => merkleRoot node leaf TWIG_HEIGHT) (funext fun i => ?_)
    cases i with
    | zero => rfl
    | succ i => rfl
  refine congrArg (fun leaf => merkleRoot node leaf SHARD_BITS) (funext fun i => ?_)
  cases hs : (oneLeaf value).shards[i]? with
  | none =>
    have hi : i ≠ 0 := by
      rintro rfl
      rw [oneLeaf_shards] at hs
      simp at hs
    rw [if_neg hi]
  | some s =>
    simp only [oneLeaf_log hlen hs]
    split
    · exact htwig
    · have hcount : twigCount ([] : List LogEntry).length = 0 := by decide
      rw [worldTree, if_pos hcount]

end

def oneLeafStrings (value : Bytes) : List Bytes :=
  let leaf := hashLeaf 0 value
  leafPreimage 0 value :: (spine leaf 11 ++ spine 0 11 ++ spine (leaf + 11) 4)

theorem oneLeaf_digest (value : Bytes) (hlen : value.length ≤ u32Max) :
    (oneLeaf value).root.1 = hashLeaf 0 value + 15 ∧
      (oneLeaf value).hashed ⊆ {m | m ∈ oneLeafStrings value} := by
  obtain ⟨hdigest, hstrings⟩ := left_subtree (fun i => if i = 0 then
    .data (leafPreimage 0 value) else .null) (fun s hs => if_neg hs) TWIG_HEIGHT
  obtain ⟨hdigest', hstrings'⟩ := left_subtree (fun i => if i = 0 then
    merkleRoot .node (fun i => if i = 0 then .data (leafPreimage 0 value) else .null) TWIG_HEIGHT
      else .null) (fun s hs => if_neg hs) SHARD_BITS
  rw [oneLeaf, (Keyed.run oneLeaf_named (oneLeaf_fits hlen)).root_eq, hashed, ← oneLeaf,
    oneLeaf_hashTree hlen]
  simp only [if_true] at hdigest hstrings hdigest' hstrings'
  rw [hdigest] at hdigest' hstrings'
  constructor
  · rw [hdigest', BitVec.add_assoc]
    rfl
  · refine hstrings'.trans (union_subset (hstrings.trans (union_subset ?_ ?_)) ?_)
    · rintro m rfl
      exact List.mem_cons_self
    · intro m hm
      exact List.mem_cons_of_mem _ (List.mem_append_left _ hm)
    · intro m hm
      refine List.mem_cons_of_mem _ ?_
      rcases List.mem_append.mp hm with hm | hm
      · exact List.mem_append_right _ hm
      · exact List.mem_append_left _ (List.mem_append_right _ (spine_mono (by decide) hm))

/-- The siblings of the leftmost leaf, then of the first shard. -/
def nullPath : Vector B256 TWIG_HEIGHT := ⟨(nulls 0 11).toArray, rfl⟩

def nullShardPath : Vector B256 SHARD_BITS := ⟨(nulls 0 4).toArray, rfl⟩

theorem climbed_nulls_zero (digest : B256) (n : ℕ) :
    HashTree.climbed Crypto.blake3 nodePreimage digest 0 (nulls 0 n) ⊆
      {m | m ∈ spine digest n} := by
  have h := climbed_nulls digest 0 n
  rwa [Nat.zero_add, show digest + BitVec.ofNat 256 0 = digest from BitVec.add_zero _] at h

theorem accepted_proof_sound_of_one_leaf : (oneLeaf [7]).get 0 = some [7] := by
  let p : ShardedTwigProof :=
    { shardIndex := 0
      shardRoot := hashLeaf 0 [7] + 11
      shardPath := nullShardPath
      inner := { key := 0, value := [7], slot := 0, twigPath := nullPath, upperPath := [] } }
  obtain ⟨hroot, hstrings⟩ := oneLeaf_digest [7] (by decide)
  have hp : p.hashed ⊆ {m | m ∈ oneLeafStrings [7]} := by
    refine union_subset (union_subset (union_subset ?_ ?_) ?_) ?_
    · rintro m rfl
      exact List.mem_cons_self
    · intro m hm
      exact List.mem_cons_of_mem _ (List.mem_append_left _ (List.mem_append_left _
        (climbed_nulls_zero _ 11 hm)))
    · exact empty_subset _
    · intro m hm
      exact List.mem_cons_of_mem _ (List.mem_append_right _ (climbed_nulls_zero _ 4 hm))
  have hbinds := binds_of_nodup (union_subset hstrings hp) (by decide)
  refine accepted_proof_sound [.applyBatch [(0, some [7])]] ?_ ?_ 0 p hbinds.1
    (fun m hm => hbinds.2 m (.inr hm)) ?_ (by decide) ?_
  · exact oneLeaf_named
  · exact oneLeaf_fits (by decide)
  · intro key value hget
    rw [(oneLeaf_get (by decide) hget).2]
    decide
  · show p.verifyForKey (oneLeaf [7]).root.1 0 = .ok ()
    rw [hroot, ShardedTwigProof.verifyForKey_eq_ok]
    refine ⟨rfl, by decide, by decide, decide_eq_true ?_, ?_⟩
    · show climb hashNode (climb hashNode (hashLeaf 0 [7]) 0 (nulls 0 11)) 0 [] = _
      rw [climb, climb_leftSucc]
      rfl
    · show climb hashNode (hashLeaf 0 [7] + 11) 0 (nulls 0 4) = _
      rfl

def forgedKey : B256 := BitVec.ofNat 256 (2 ^ 200)

/-- A value whose leaf reads as the inner node over the forged leaf. -/
def carrier : Bytes := (B256.toBytes (hashLeaf forgedKey [])).drop 1

/-- The left half of that node: the leaf prefix and the first 31 bytes of key 0. -/
def carrierLeft : B256 := BitVec.ofNat 256 (2 ^ 248)

theorem carrier_leaf :
    leafPreimage 0 carrier = nodePreimage carrierLeft (hashLeaf forgedKey []) := by
  decide

theorem climb_forged (path : List B256) :
    climb hashNode (hashLeaf forgedKey []) 1 (carrierLeft :: path) =
      hashLeaf 0 carrier + BitVec.ofNat 256 path.length := by
  have hnode : hashNode carrierLeft (hashLeaf forgedKey []) = hashLeaf 0 carrier := by
    rfl
  rw [climb]
  exact climb_leftSucc _ path

theorem climbed_forged (path : List B256) :
    HashTree.climbed Crypto.blake3 nodePreimage (hashLeaf forgedKey []) 1 (carrierLeft :: path) =
      insert (leafPreimage 0 carrier)
        (HashTree.climbed Crypto.blake3 nodePreimage (hashLeaf 0 carrier) 0 path) := by
  rfl

/-- The proof of the leaf of key 0, one level longer: the leaf is read as a pair. -/
def forgedProof : ShardedTwigProof where
  shardIndex := 0
  shardRoot := hashLeaf 0 carrier + 11
  shardPath := nullShardPath
  inner :=
    { key := forgedKey
      value := []
      slot := 1
      twigPath := ⟨(carrierLeft :: nulls 0 10).toArray, rfl⟩
      upperPath := nulls 10 1 }

/-- With a value of 31 bytes in the forest, a proof of a key that was never set is
accepted, although no two of the strings hashed collide and none has the null digest. -/
theorem forged_proof_accepted :
    let t := [Call.applyBatch [(0, some carrier)]].foldl call new
    Set.InjOn Crypto.blake3 (t.hashed ∪ forgedProof.hashed) ∧
      (∀ m ∈ t.hashed ∪ forgedProof.hashed, Crypto.blake3 m ≠ NULL_HASH) ∧
      forgedProof.verifyForKey t.root.1 forgedKey = .ok () ∧ t.get forgedKey = none := by
  intro t
  have hlen : carrier.length ≤ u32Max := by decide
  obtain ⟨hroot, hstrings⟩ := oneLeaf_digest carrier hlen
  have hp : forgedProof.hashed ⊆
      {m | m ∈ leafPreimage forgedKey [] :: oneLeafStrings carrier} := by
    refine union_subset (union_subset (union_subset ?_ ?_) ?_) ?_
    · rintro m rfl
      exact List.mem_cons_self
    · refine (climbed_forged (nulls 0 10)).subset.trans ?_
      refine insert_subset (List.mem_cons_of_mem _ List.mem_cons_self) fun m hm => ?_
      have hspine := spine_mono (show 10 ≤ 11 by omega) (climbed_nulls_zero _ 10 hm)
      exact List.mem_cons_of_mem _ (List.mem_cons_of_mem _ (List.mem_append_left _
        (List.mem_append_left _ hspine)))
    · intro m hm
      have hspine := climbed_nulls (hashLeaf 0 carrier) 10 1
        ((climb_forged (nulls 0 10)) ▸ hm)
      exact List.mem_cons_of_mem _ (List.mem_cons_of_mem _ (List.mem_append_left _
        (List.mem_append_left _ hspine)))
    · intro m hm
      exact List.mem_cons_of_mem _ (List.mem_cons_of_mem _ (List.mem_append_right _
        (climbed_nulls_zero _ 4 hm)))
  have hbinds := binds_of_nodup (union_subset
    (fun m hm => List.mem_cons_of_mem (leafPreimage forgedKey []) (hstrings hm)) hp)
    (by decide)
  refine ⟨hbinds.1, hbinds.2, ?_, ?_⟩
  · show forgedProof.verifyForKey (oneLeaf carrier).root.1 forgedKey = .ok ()
    rw [hroot, ShardedTwigProof.verifyForKey_eq_ok]
    refine ⟨rfl, by decide, by decide, decide_eq_true ?_, ?_⟩
    · show climb hashNode
        (climb hashNode (hashLeaf forgedKey []) 1 (carrierLeft :: nulls 0 10)) 0 (nulls 10 1) = _
      rw [climb_forged]
      rfl
    · rfl
  · rw [Option.eq_none_iff_forall_ne_some]
    intro value hget
    have hkey := (oneLeaf_get hlen hget).1
    exact absurd hkey (by decide)

end ShardedTwig

end LeftSucc

end N42
