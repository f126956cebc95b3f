import N42.Bmt.Routing
import N42.Bmt.Sharded
import N42.Twig.Soundness

/-!
Proofs of the sharded sparse tree are sound and complete, presence and absence alike.

A proof that folds to the root of a tree has walked down that tree.
-/

namespace N42.Bmt

open Lib Lib.MerkleHeap List Finmap Node

theorem shardIndexForKey_eq (key : B256) : (shardIndexForKey key : ℕ) = key.toNat / 2 ^ 252 := by
  have hlt := key.isLt
  have hhead : (B256.toBytes key).headD 0 = UInt8.ofNat (key.toNat / 256 ^ 31) :=
    headD_beBytes (by decide) key.toNat 0
  have hbyte : key.toNat / 256 ^ 31 < 256 := Nat.div_lt_of_lt_mul (by simpa using hlt)
  have hpow : 256 ^ 31 * 2 ^ 4 = 2 ^ 252 := by norm_num
  show ((B256.toBytes key).headD 0).toNat >>> 4 = _
  rw [hhead, UInt8.toNat_ofNat_of_lt' hbyte, Nat.shiftRight_eq_div_pow,
    Nat.div_div_eq_div_mul, hpow]

/-- Keys of one shard that differ do so below the shard selector. -/
theorem splits_shard (i : Fin SHARD_COUNT) :
    Splits (fun key => shardIndexForKey key = i) SHARD_BITS := by
  intro a b ha hb heq
  have hshard : a.toNat / 2 ^ 252 = b.toNat / 2 ^ 252 := by
    rw [← shardIndexForKey_eq, ← shardIndexForKey_eq, ha, hb]
  apply BitVec.eq_of_getMsbD_eq
  intro j hj
  by_cases hlow : SHARD_BITS ≤ j
  · exact heq j hlow hj
  · -- one of the four bits that select the shard
    have hbit : ∀ x : B256, x.getMsbD j = (x.toNat / 2 ^ 252).testBit (3 - j) := by
      intro x
      have hindex : 3 - j + 252 = 255 - j := by
        have : SHARD_BITS = 4 := rfl
        omega
      rw [Nat.testBit_div_two_pow, hindex, BitVec.getMsbD, BitVec.getLsbD]
      simp [hj]
    rw [hbit, hbit, hshard]

theorem leafBytes_inj {k v k' v' : B256} (h : leafBytes k v = leafBytes k' v') :
    k = k' ∧ v = v' := by
  obtain ⟨hk, hv⟩ := append_inj (List.cons.inj h).2 (by simp)
  exact ⟨B256.toBytes_injective hk, B256.toBytes_injective hv⟩

theorem internalBytes_inj {a b c d : B256} (h : internalBytes a b = internalBytes c d) :
    a = c ∧ b = d := by
  obtain ⟨hleft, hright⟩ := append_inj (List.cons.inj h).2 (by simp)
  exact ⟨B256.toBytes_injective hleft, B256.toBytes_injective hright⟩

theorem leafBytes_ne_internalBytes (k v a b : B256) : leafBytes k v ≠ internalBytes a b :=
  fun h => absurd (List.cons.inj h).1 (by decide)

variable {n : Node} {key : B256}

namespace Node

/-- The subtree `n` bits of the key further down. -/
def walk (key : B256) : ℕ → ℕ → Node → Option Node
  | 0, _, n => some n
  | m + 1, depth, internal left right _ =>
    walk key m (depth + 1) (if bit key depth then right else left)
  | _ + 1, _, _ => none

/-- The end of a walk decides the lookup. -/
theorem get_walk {m depth : ℕ} {n u : Node} (h : walk key m depth n = some u) :
    n.get key depth = u.get key (depth + m) := by
  induction m generalizing depth n with
  | zero =>
    obtain rfl : n = u := Option.some.inj h
    rfl
  | succ m ih =>
    cases n with
    | nil => cases h
    | leaf existing valueHash => cases h
    | internal left right cache =>
      rw [show depth + (m + 1) = depth + 1 + m by omega, ← ih h, get]
      split <;> rfl

/-- Keys at the end of a walk share the bits walked. -/
theorem Routed.walk {P : B256 → Prop} {m depth : ℕ} {n u : Node} (hn : n.Routed P depth)
    (hdepth : depth ≤ 256) (h : walk key m depth n = some u) :
    depth + m ≤ 256 ∧ u.Routed (fun k => P k ∧ ∀ d, depth ≤ d → d < depth + m →
      bit key d = bit k d) (depth + m) := by
  induction m generalizing depth n P with
  | zero =>
    obtain rfl : n = u := Option.some.inj h
    exact ⟨hdepth, hn.mono fun k hk => ⟨hk, fun d hd hlt => by omega⟩⟩
  | succ m ih =>
    cases n with
    | nil => cases h
    | leaf existing valueHash => cases h
    | internal left right cache =>
      obtain ⟨hlt, hleft, hright⟩ := hn
      have hchild : (if bit key depth then right else left).Routed
          (fun k => P k ∧ bit k depth = bit key depth) (depth + 1) := by
        cases hbit : bit key depth with
        | true => exact hright
        | false => exact hleft
      obtain ⟨hm, hu⟩ := ih hchild hlt h
      rw [show depth + (m + 1) = depth + 1 + m by omega]
      refine ⟨hm, hu.mono fun k hk => ⟨hk.1.1, fun d hd hlt => ?_⟩⟩
      rcases Nat.eq_or_lt_of_le hd with rfl | hd
      · exact hk.1.2.symm
      · exact hk.2 d hd hlt

variable [Crypto]

/-- What a proof says about the subtree its walk ends at. -/
def Ends (p : BmtProof) : Node → Prop
  | nil => p.valueHash = none ∧ p.otherLeaf = none
  | leaf key valueHash =>
    (p.valueHash = some valueHash ∧ p.otherLeaf = none ∧ key = p.key) ∨
      (p.valueHash = none ∧ p.otherLeaf = some (key, valueHash) ∧ key ≠ p.key)
  | internal _ _ _ => False

/-- `prove` records the walk of its key, and only fills caches. -/
theorem prove_spec (hfresh : n.Fresh) (key : B256) (depth : ℕ) :
    (n.prove key depth).1.key = key ∧ (n.prove key depth).1.valueHash = n.get key depth ∧
      (n.prove key depth).2.Fresh ∧ (n.prove key depth).2.erase = n.erase ∧
      ∃ u, walk key (n.prove key depth).1.siblings.length depth n = some u ∧
        BmtProof.fold key depth (n.prove key depth).1.siblings u.digest = n.digest ∧
        Ends (n.prove key depth).1 u := by
  induction n generalizing depth with
  | nil => exact ⟨rfl, rfl, trivial, rfl, nil, rfl, rfl, rfl, rfl⟩
  | leaf existing valueHash =>
    by_cases heq : existing = key
    · simp only [prove, get, if_pos heq, true_and]
      exact ⟨trivial, leaf existing valueHash, rfl, rfl, .inl ⟨rfl, rfl, heq⟩⟩
    · simp only [prove, get, if_neg heq, true_and]
      exact ⟨trivial, leaf existing valueHash, rfl, rfl, .inr ⟨rfl, rfl, heq⟩⟩
  | internal left right cache ihl ihr =>
    obtain ⟨hcache, hleft, hright⟩ := hfresh
    by_cases hbit : bit key depth = true
    · obtain ⟨hkey, hvalue, hrfresh, hrsame, u, hwalk, hfold, hends⟩ := ihr hright (depth + 1)
      obtain ⟨hl, hlfresh, hlsame⟩ := nodeHash_spec hleft
      simp only [prove, get, if_pos hbit]
      refine ⟨hkey, hvalue, ⟨?_, hlfresh, hrfresh⟩, by simp [erase, hlsame, hrsame], u, ?_, ?_, ?_⟩
      · rwa [digest_congr hlsame, digest_congr hrsame]
      · simpa [walk, hbit] using hwalk
      · simp [BmtProof.fold, hbit, hfold, hl]
      · cases u <;> exact hends
    · obtain ⟨hkey, hvalue, hlfresh, hlsame, u, hwalk, hfold, hends⟩ := ihl hleft (depth + 1)
      obtain ⟨hr, hrfresh, hrsame⟩ := nodeHash_spec hright
      simp only [prove, get, if_neg hbit]
      refine ⟨hkey, hvalue, ⟨?_, hlfresh, hrfresh⟩, by simp [erase, hlsame, hrsame], u, ?_, ?_, ?_⟩
      · rwa [digest_congr hlsame, digest_congr hrsame]
      · simpa [walk, hbit] using hwalk
      · simp [BmtProof.fold, hbit, hfold, hr]
      · cases u <;> exact hends

end Node

namespace BmtProof

variable [Crypto]

def folded (key : B256) : ℕ → List B256 → B256 → Set Bytes
  | _, [], _ => ∅
  | depth, sibling :: siblings, cur =>
    let below := fold key (depth + 1) siblings cur
    insert (if bit key depth then internalBytes sibling below else internalBytes below sibling)
      (folded key (depth + 1) siblings cur)

def hashed (p : BmtProof) (baseDepth : ℕ) : Set Bytes :=
  {m | ∃ v ∈ p.valueHash, m = leafBytes p.key v} ∪
    {m | ∃ other ∈ p.otherLeaf, m = leafBytes other.1 other.2} ∪
    {m | ∃ cur ∈ p.start baseDepth, m ∈ folded p.key baseDepth p.siblings cur}

/-- A path that folds to the digest of a subtree has walked down it. -/
theorem walk_of_fold {S : Set Bytes} {depth : ℕ} {siblings : List B256} {cur : B256}
    (hbinds : HashTree.Binds Crypto.blake3 internalBytes EMPTY_HASH S n.tree)
    (hS : folded key depth siblings cur ⊆ S) (hfold : fold key depth siblings cur = n.digest) :
    ∃ u, Node.walk key siblings.length depth n = some u ∧ u.digest = cur ∧
      HashTree.Binds Crypto.blake3 internalBytes EMPTY_HASH S u.tree ∧
      u.tree.hashed Crypto.blake3 internalBytes EMPTY_HASH ⊆
        n.tree.hashed Crypto.blake3 internalBytes EMPTY_HASH := by
  induction siblings generalizing depth n with
  | nil => exact ⟨n, rfl, hfold.symm, hbinds, subset_rfl⟩
  | cons sibling siblings ih =>
    obtain ⟨hmem, hrest⟩ := Set.insert_subset_iff.mp hS
    have hinner : ∃ left right cache, n = .internal left right cache ∧
        (if bit key depth then right else left).digest = fold key (depth + 1) siblings cur := by
      obtain ⟨a, b, hmem, hfold, hbelow⟩ : ∃ a b, internalBytes a b ∈ S ∧
          hashInternal a b = n.digest ∧
            (if bit key depth then b else a) = fold key (depth + 1) siblings cur := by
        rw [fold] at hfold
        split at hfold
        · next hbit => exact ⟨_, _, by simpa [hbit] using hmem, hfold, if_pos hbit⟩
        · next hbit => exact ⟨_, _, by simpa [hbit] using hmem, hfold, if_neg hbit⟩
      obtain ⟨_, _, htree, rfl, rfl⟩ := hbinds.pair_cases internalBytes_inj hmem hfold
      cases n with
      | nil => cases htree
      | leaf k v => cases htree
      | internal left right cache =>
        cases htree
        exact ⟨left, right, cache, rfl, by rw [← hbelow]; split <;> rfl⟩
    obtain ⟨left, right, cache, rfl, hchild⟩ := hinner
    have hdescend : (internal left right cache).tree.descend 1 (bit key depth).toNat =
        some (if bit key depth then right else left).tree := by
      cases bit key depth <;> rfl
    obtain ⟨u, hwalk, hcur, hu, hsub⟩ := ih (hbinds.descend hdescend) hrest hchild.symm
    exact ⟨u, hwalk, hcur, hu, hsub.trans (HashTree.descend_hashed _ _ _ hdescend).1⟩

/-- What an accepted proof leaves: a digest it starts from that folds to the root. -/
theorem verify_eq_true {p : BmtProof} {root : B256} {expected : Option B256} {baseDepth : ℕ} :
    p.verify root expected baseDepth = true ↔
      baseDepth ≤ 256 ∧ p.siblings.length ≤ 256 - baseDepth ∧ p.valueHash = expected ∧
        ∃ cur, p.start baseDepth = some cur ∧ fold p.key baseDepth p.siblings cur = root := by
  rw [verify]
  by_cases hlen : baseDepth > 256 ∨ p.siblings.length > 256 - baseDepth
  · rw [if_pos hlen]
    constructor
    · nofun
    · omega
  · rw [not_or, not_lt, not_lt] at hlen
    by_cases hvalue : p.valueHash = expected
    · cases hstart : p.start baseDepth with
      | none => simp
      | some cur => simp [hlen]
    · simp [hvalue]

theorem get_of_verify {p : BmtProof} {expected : Option B256} {baseDepth : ℕ}
    (hbinds : HashTree.Binds Crypto.blake3 internalBytes EMPTY_HASH (p.hashed baseDepth) n.tree)
    (hzero : ∀ m ∈ n.tree.hashed Crypto.blake3 internalBytes EMPTY_HASH,
      Crypto.blake3 m ≠ EMPTY_HASH) (hok : p.verify n.digest expected baseDepth = true) :
    n.get p.key baseDepth = expected := by
  obtain ⟨-, -, rfl, cur, hstart, hfold⟩ := verify_eq_true.mp hok
  obtain ⟨u, hwalk, hcur, hu, hsub⟩ := walk_of_fold hbinds
    (fun m hm => .inr ⟨cur, hstart, hm⟩) hfold
  rw [get_walk hwalk]
  -- a leaf the proof names is the leaf the walk ends at
  have hleaf : ∀ k v, leafBytes k v ∈ p.hashed baseDepth → u.digest = hashLeaf k v →
      u = .leaf k v := by
    intro k v hmem hdigest
    cases u with
    | nil => exact absurd hdigest.symm (hu.nonzero _ hmem)
    | leaf k' v' =>
      obtain ⟨rfl, rfl⟩ := leafBytes_inj (hu.inj (.inl rfl) (.inr hmem) hdigest)
      rfl
    | internal left right cache =>
      have hbytes := hu.inj (.inl (.inl rfl)) (.inr hmem) hdigest
      exact absurd hbytes.symm (leafBytes_ne_internalBytes k v _ _)
  rw [start] at hstart
  cases hvalue : p.valueHash with
  | some v =>
    cases hother : p.otherLeaf with
    | some other => simp [hvalue, hother] at hstart
    | none =>
      simp only [hvalue, hother, Option.some.injEq] at hstart
      have hmem : leafBytes p.key v ∈ p.hashed baseDepth := .inl (.inl ⟨v, hvalue, rfl⟩)
      rw [hleaf p.key v hmem (hcur.trans hstart.symm)]
      simp [Node.get]
  | none =>
    cases hother : p.otherLeaf with
    | none =>
      simp only [hvalue, hother, Option.some.injEq] at hstart
      rw [← hstart] at hcur
      cases u with
      | nil => rfl
      | leaf k v => exact absurd hcur (hzero _ (hsub rfl))
      | internal left right cache => exact absurd hcur (hzero _ (hsub (.inl rfl)))
    | some other =>
      obtain ⟨k, v⟩ := other
      simp only [hvalue, hother] at hstart
      split at hstart
      · cases hstart
      · next hne =>
        split at hstart
        · cases hstart
        · have hmem : leafBytes k v ∈ p.hashed baseDepth := .inl (.inr ⟨(k, v), hother, rfl⟩)
          rw [hleaf k v hmem (hcur.trans (Option.some.inj hstart).symm), Node.get, if_neg hne]

theorem verify_prove {P : B256 → Prop} {depth : ℕ} (hn : n.Routed P depth) (hfresh : n.Fresh)
    (hdepth : depth ≤ 256) (key : B256) :
    (n.prove key depth).1.verify n.digest (n.get key depth) depth = true := by
  obtain ⟨hkey, hvalue, -, -, u, hwalk, hfold, hends⟩ := prove_spec hfresh key depth
  obtain ⟨hlen, hrouted⟩ := hn.walk hdepth hwalk
  refine verify_eq_true.mpr ⟨hdepth, by omega, hvalue, u.digest, ?_, by rw [hkey]; exact hfold⟩
  rw [start]
  cases u with
  | nil =>
    obtain ⟨hnone, hother⟩ := hends
    simp [hnone, hother]
  | internal left right cache => exact hends.elim
  | leaf k v =>
    rcases hends with ⟨hsome, hother, heq⟩ | ⟨hnone, hother, hne⟩
    · simp [hsome, hother, ← heq]
    · have hshares :
          sharesPrefixRange key k depth (n.prove key depth).1.siblings.length = true := by
        rw [sharesPrefixRange, all_eq_true]
        intro d hd
        obtain ⟨hle, hlt⟩ := mem_range'_1.mp hd
        exact beq_iff_eq.mpr (hrouted.2 d hle hlt)
      rw [hkey] at hne ⊢
      simp [hnone, hother, hne, hshares]

end BmtProof

section

variable [Crypto]

/-- A shard's tree and map: the tree commits to the values of the map, under keys of the
shard. -/
structure Kept (i : Fin SHARD_COUNT) (shard : Sbmt) (values : Values) : Prop where
  base : shard.baseDepth = SHARD_BITS
  routed : shard.root.Routed (fun key => shardIndexForKey key = i) SHARD_BITS
  fresh : shard.root.Fresh
  get : ∀ key, shard.root.get key SHARD_BITS = (values.lookup key).map hashValue

variable {i : Fin SHARD_COUNT} {shard : Sbmt} {values : Values}

theorem Kept.new : Kept i (.withBaseDepth SHARD_BITS) ∅ where
  base := rfl
  routed := trivial
  fresh := trivial
  get key := by simp [Sbmt.withBaseDepth, Node.get]

section

variable (h : Kept i shard values)
include h

theorem Kept.insert (hkey : shardIndexForKey key = i) (value : Bytes) :
    ∃ shard', shard.insert key value = some shard' ∧
      Kept i shard' (values.insert key value) := by
  have hfuel : shard.root.need SHARD_BITS < Sbmt.insertFuel := by
    have hbits : SHARD_BITS = 4 := rfl
    simp only [need, Sbmt.insertFuel]
    split <;> omega
  obtain ⟨⟨root, added⟩, hroot, hinserted⟩ :=
    insertAt_spec (hashValue value) h.routed (splits_shard i) hkey hfuel
  refine ⟨{ shard with root := root, len := if added then shard.len + 1 else shard.len },
    by rw [Sbmt.insert, Sbmt.insertHashed, h.base, hroot]; simp [← h.base], h.base,
    hinserted.routed, hinserted.fresh h.fresh, fun k => ?_⟩
  have hget : root.get k SHARD_BITS = _ := hinserted.get k
  by_cases hk : k = key
  · rw [hget, if_pos hk, hk, lookup_insert, Option.map_some]
  · rw [hget, if_neg hk, lookup_insert_of_ne values hk, h.get]

theorem Kept.remove (key : B256) : Kept i (shard.remove key).2 (values.erase key) := by
  obtain ⟨hrouted, hfresh, hget⟩ := removeAt_spec h.routed key
  have hroot : (shard.remove key).2.root = (shard.root.removeAt key SHARD_BITS).1 := by
    rw [Sbmt.remove, h.base]
  refine ⟨h.base, hroot ▸ hrouted, hroot ▸ hfresh h.fresh, fun k => ?_⟩
  rw [hroot, hget]
  by_cases hk : k = key
  · rw [if_pos hk, hk, lookup_erase, Option.map_none]
  · rw [if_neg hk, lookup_erase_ne hk, h.get]

theorem Kept.congr {root : Node} (hfresh : root.Fresh)
    (hsame : root.erase = shard.root.erase) : Kept i { shard with root := root } values where
  base := h.base
  routed := by
    rw [← routed_erase]
    rw [hsame, routed_erase]
    exact h.routed
  fresh := hfresh
  get key := by
    rw [← get_erase]
    rw [hsame, get_erase]
    exact h.get key

theorem Kept.rootHash :
    shard.rootHash.1 = shard.root.digest ∧ Kept i shard.rootHash.2 values ∧
      shard.rootHash.2.root.digest = shard.root.digest := by
  obtain ⟨hhash, hfresh, hsame⟩ := nodeHash_spec h.fresh
  exact ⟨hhash, h.congr hfresh hsame, digest_congr hsame⟩

theorem Kept.prove (key : B256) :
    Kept i (shard.prove key).2 values ∧
      (shard.prove key).2.root.digest = shard.root.digest := by
  obtain ⟨-, -, hfresh, hsame, -⟩ := prove_spec h.fresh key shard.baseDepth
  exact ⟨h.congr hfresh hsame, digest_congr hsame⟩

end

namespace ShardedSbmt

def Holds (t : ShardedSbmt) : Prop := ∀ i : Fin SHARD_COUNT, Kept i t.shards[i] t.values[i]

variable {t : ShardedSbmt}

theorem Holds.new : Holds new := by
  intro i
  simpa [ShardedSbmt.new] using Kept.new

theorem Holds.set (h : t.Holds) {i : Fin SHARD_COUNT} {shard : Sbmt} {values : Values}
    (hshard : Kept i shard values) (version : ℕ) :
    Holds ⟨t.shards.set i shard, t.values.set i values, version⟩ := by
  intro j
  by_cases hj : i = j
  · subst hj
    simpa using hshard
  · have hne : (i : ℕ) ≠ j := fun heq => hj (Fin.ext heq)
    simpa [Vector.getElem_set, hne] using h j

theorem Holds.insertRaw (h : t.Holds) (key : B256) (value : Bytes) :
    ∃ t', t.insertRaw key value = some t' ∧ t'.Holds := by
  obtain ⟨shard, hshard, hkept⟩ := (h (shardIndexForKey key)).insert rfl value
  exact ⟨_, by simp only [ShardedSbmt.insertRaw, hshard]; rfl, h.set hkept t.version⟩

theorem Holds.removeRaw (h : t.Holds) (key : B256) : (t.removeRaw key).Holds :=
  h.set ((h (shardIndexForKey key)).remove key) t.version

def digests (t : ShardedSbmt) : List B256 := (t.shards.map fun s => s.root.digest).toList

theorem Holds.rootHash (h : t.Holds) :
    t.rootHash.1 = shardTreeRoot t.digests ∧ t.rootHash.2.Holds := by
  constructor
  · have hroots : (t.shards.map Sbmt.rootHash).map Prod.fst =
        t.shards.map fun s => s.root.digest := by
      refine Vector.ext fun i hi => ?_
      simpa using (h ⟨i, hi⟩).rootHash.1
    simp only [ShardedSbmt.rootHash, hroots, digests]
  · intro i
    simpa [ShardedSbmt.rootHash] using (h i).rootHash.2.1

theorem Holds.withVersion (h : t.Holds) (version : ℕ) : Holds { t with version := version } := h

theorem Holds.update (h : t.Holds) (op : B256 × Option Bytes) :
    ∃ t', t.update op = some t' ∧ t'.Holds := by
  obtain ⟨key, value⟩ := op
  cases value with
  | none => exact ⟨_, rfl, h.removeRaw key⟩
  | some value => exact h.insertRaw key value

/-- A list of steps that do not fail and keep the shards does neither. -/
theorem Holds.foldlM {α : Type} {f : ShardedSbmt → α → Option ShardedSbmt} (h : t.Holds)
    (hf : ∀ {t : ShardedSbmt} (a : α), t.Holds → ∃ t', f t a = some t' ∧ t'.Holds) (l : List α) :
    ∃ t', l.foldlM f t = some t' ∧ t'.Holds :=
  foldlM_refines (R := fun (s : ShardedSbmt) (_ : Unit) => s.Holds) (g := fun u _ => u)
    (fun a h => hf a h) (t := ()) h l

theorem Holds.applyUpdates (h : t.Holds) (updates : List (B256 × Option Bytes)) :
    ∃ result, t.applyUpdates updates = some result ∧ result.2.Holds := by
  obtain ⟨t', ht', hholds⟩ := h.foldlM (fun op h => h.update op) updates
  refine ⟨_, by rw [ShardedSbmt.applyUpdates, ht']; rfl, ?_⟩
  exact hholds.rootHash.2.withVersion _

theorem getD_digests (t : ShardedSbmt) (i : Fin SHARD_COUNT) :
    t.digests.getD i NULL_HASH = t.shards[i].root.digest := by
  simp [digests]

/-- A proof leaves the tree as it was, up to caches, and is made of its digests. -/
theorem Holds.prove (h : t.Holds) (key : B256) :
    (t.prove key).2.Holds ∧ ∀ i, shardIndexForKey key = i →
      (t.prove key).1 = ⟨i, t.shards[i].root.digest, shardTreePath t.digests i,
        (t.shards[i].prove key).1, t.get key⟩ := by
  obtain ⟨hkept, hdigest⟩ := (h (shardIndexForKey key)).prove key
  have hset : Holds ⟨t.shards.set (shardIndexForKey key)
      (t.shards[shardIndexForKey key].prove key).2, t.values, t.version⟩ := by
    simpa using h.set hkept t.version
  have hroots : ((t.shards.set (shardIndexForKey key)
      (t.shards[shardIndexForKey key].prove key).2).map Sbmt.rootHash).map Prod.fst =
      t.shards.map fun s => s.root.digest := by
    refine Vector.ext fun i hi => ?_
    have hroot := (hset ⟨i, hi⟩).rootHash.1
    simp only [Vector.getElem_map]
    refine hroot.trans ?_
    by_cases hi' : (shardIndexForKey key : ℕ) = i
    · subst hi'
      simpa using hdigest
    · simp [hi']
  constructor
  · exact hset.rootHash.2
  · rintro i rfl
    simp only [ShardedSbmt.prove, hroots]
    rw [← digests, getD_digests]
    rfl

theorem Holds.call (h : t.Holds) (c : Call) : ∃ t', t.call c = some t' ∧ t'.Holds := by
  cases c with
  | insert key value => exact h.insertRaw key value
  | applyDiff updates =>
    obtain ⟨result, hresult, hholds⟩ := h.applyUpdates updates
    exact ⟨result.2, by rw [ShardedSbmt.call, hresult, Option.map_some], hholds⟩
  | rootHash => exact ⟨_, rfl, h.rootHash.2⟩
  | prove key => exact ⟨_, rfl, (h.prove key).1⟩

end ShardedSbmt

namespace Node

/-- The last hash of a subtree's digest. -/
def summary : Node → HashTree Bytes
  | nil => .null
  | leaf key valueHash => .data (leafBytes key valueHash)
  | internal left right _ => .data (internalBytes left.digest right.digest)

theorem root_summary (n : Node) :
    n.summary.root Crypto.blake3 nodePreimage NULL_HASH = n.digest := by
  cases n <;> rfl

theorem plain_summary {m : Bytes} (hm : m ∈ n.summary.contents) (a b : B256) :
    m ≠ nodePreimage a b := by
  have hlen : m.length = 65 := by
    cases n with
    | nil => simp [summary, HashTree.contents] at hm
    | leaf key valueHash =>
      rw [show m = leafBytes key valueHash from hm]
      simp [leafBytes]
    | internal left right cache =>
      rw [show m = internalBytes left.digest right.digest from hm]
      simp [internalBytes]
  intro heq
  rw [heq, nodePreimage_length] at hlen
  omega

omit [Crypto] in
theorem plain_tree {m : Bytes} (hm : m ∈ n.tree.contents) (a b : B256) : m ≠ internalBytes a b := by
  induction n with
  | nil => simp [tree, HashTree.contents] at hm
  | leaf key valueHash =>
    rw [show m = leafBytes key valueHash from hm]
    exact leafBytes_ne_internalBytes key valueHash a b
  | internal left right cache ihl ihr =>
    rcases hm with hm | hm
    · exact ihl hm
    · exact ihr hm

end Node

namespace ShardedSbmt

/-- The computation that joins the shard roots. -/
def top (t : ShardedSbmt) : HashTree Bytes :=
  merkleRoot .node ((t.shards.map fun s => s.root.summary).toList.getD · .null) SHARD_BITS

/-- The strings hashed for the combined root: in every shard, above the shards, and for the
values. -/
def hashed (t : ShardedSbmt) : Set Bytes :=
  {m | ∃ i : Fin SHARD_COUNT,
    m ∈ t.shards[i].root.tree.hashed Crypto.blake3 internalBytes EMPTY_HASH} ∪
  t.top.hashed Crypto.blake3 nodePreimage NULL_HASH ∪
  {m | ∃ (i : Fin SHARD_COUNT) (key : B256), t.values[i].lookup key = some m}

variable (t : ShardedSbmt)
include t

theorem length_digests : t.digests.length = 2 ^ SHARD_BITS := by
  rw [digests, Vector.length_toList]
  rfl

theorem root_top : t.top.root Crypto.blake3 nodePreimage NULL_HASH = shardTreeRoot t.digests := by
  have hlen := t.length_digests
  rw [shardTreeRoot, shardTreeRoot_go hlen (hlen ▸ Nat.lt_two_pow_self.le), top, merkleRoot,
    HashTree.root_subtree]
  refine congrArg (fun leaf => subtree hashNode leaf SHARD_BITS 0) (funext fun i => ?_)
  simp only [digests, getD_eq_getElem?_getD, Vector.toList_map, getElem?_map]
  cases t.shards.toList[i]? with
  | none => rfl
  | some shard => exact shard.root.root_summary

theorem plain_top {m : Bytes} (hm : m ∈ t.top.contents) (a b : B256) : m ≠ nodePreimage a b := by
  obtain ⟨i, hm⟩ := HashTree.mem_contents_subtree hm
  simp only [getD_eq_getElem?_getD, Vector.toList_map, getElem?_map] at hm
  cases hs : t.shards.toList[i]? with
  | none => simp [hs, HashTree.contents] at hm
  | some shard =>
    simp only [hs] at hm
    exact plain_summary hm a b

/-- Below the root of the shard tree stand the shards. -/
theorem descend_top (i : Fin SHARD_COUNT) :
    t.top.descend SHARD_BITS i = some t.shards[i].root.summary := by
  have hi : (i : ℕ) % 2 ^ SHARD_BITS = i := Nat.mod_eq_of_lt i.isLt
  have hdescend := HashTree.descend_subtree
    ((t.shards.map fun s => s.root.summary).toList.getD · .null) SHARD_BITS 0 0 i
  rw [hi, subtree] at hdescend
  refine hdescend.trans ?_
  simp [getD_eq_getElem?_getD]

end ShardedSbmt

namespace ShardedBmtProof

def hashed (p : ShardedBmtProof) : Set Bytes :=
  {m | p.value = some m} ∪ p.inner.hashed SHARD_BITS ∪
    HashTree.climbed Crypto.blake3 nodePreimage p.shardRoot p.shardIndex p.shardPath

theorem verifyForKey_eq_ok {p : ShardedBmtProof} {root key : B256} :
    p.verifyForKey root key = .ok () ↔
      p.inner.key = key ∧ p.shardIndex = shardIndexForKey key ∧
        p.shardPath.length = SHARD_BITS ∧
        climb hashNode p.shardRoot p.shardIndex p.shardPath = root ∧
        p.inner.valueHash = p.value.map hashValue ∧
        p.inner.verify p.shardRoot (p.value.map hashValue) SHARD_BITS = true := by
  simp only [verifyForKey, ShardedBmtProof.verify, error_guard_eq_ok, not_not, not_le,
    and_true]
  constructor
  · rintro ⟨hkey, hshard, -, hrest⟩
    exact ⟨hkey, hshard, hrest⟩
  · rintro ⟨hkey, hshard, hrest⟩
    exact ⟨hkey, hshard, hshard ▸ (shardIndexForKey key).isLt, hrest⟩

end ShardedBmtProof

namespace ShardedSbmt

variable {t : ShardedSbmt}

theorem Holds.prove_accepted (h : t.Holds) (key : B256) :
    (t.prove key).1.verifyForKey t.rootHash.1 key = .ok () := by
  obtain ⟨-, hproof⟩ := h.prove key
  have hkept := h (shardIndexForKey key)
  obtain ⟨hkey, hvalue, -⟩ := prove_spec hkept.fresh key SHARD_BITS
  have hverify := BmtProof.verify_prove hkept.routed hkept.fresh (by decide) key
  have hlen := t.length_digests
  have hclimb := climb_shardTreePath_go hlen (shardIndexForKey key).isLt
  rw [getD_digests] at hclimb
  rw [hkept.get] at hvalue hverify
  have hinner : (t.shards[shardIndexForKey key].prove key).1 =
      (t.shards[shardIndexForKey key].root.prove key SHARD_BITS).1 := by
    rw [Sbmt.prove, hkept.base]
  rw [hproof _ rfl, ShardedBmtProof.verifyForKey_eq_ok, h.rootHash.1, hinner]
  refine ⟨hkey, rfl, shardTreePath_length _ _, ?_, hvalue, hverify⟩
  rw [shardTreeRoot, shardTreeRoot_go hlen (hlen ▸ Nat.lt_two_pow_self.le)]
  exact hclimb

theorem Holds.accepted_exact (h : t.Holds) {p : ShardedBmtProof}
    (hinj : Set.InjOn Crypto.blake3 (t.hashed ∪ p.hashed))
    (hzero : ∀ m ∈ t.hashed ∪ p.hashed, Crypto.blake3 m ≠ EMPTY_HASH)
    (hok : p.verifyForKey t.rootHash.1 key = .ok ()) : p.value = t.get key := by
  obtain ⟨rfl, hshard, hpath, hclimb, -, hinner⟩ := ShardedBmtProof.verifyForKey_eq_ok.mp hok
  -- down the shard tree, to the shard of the key
  have htop : HashTree.Binds Crypto.blake3 nodePreimage NULL_HASH p.hashed t.top :=
    ⟨hinj.mono (Set.union_subset_union_left _ fun m hm => .inl (.inr hm)),
      fun m hm => hzero m (.inr hm), fun m hm => t.plain_top hm⟩
  rw [h.rootHash.1, ← root_top] at hclimb
  obtain ⟨u, hu, hroot⟩ := htop.climb nodePreimage_inj (fun m hm => .inr hm) hclimb
  rw [hpath, hshard, descend_top, Option.some.injEq] at hu
  rw [← hu, root_summary] at hroot
  -- down the shard's own tree
  have hkept := h (shardIndexForKey p.inner.key)
  have hshardTree : HashTree.Binds Crypto.blake3 internalBytes EMPTY_HASH
      (p.inner.hashed SHARD_BITS) t.shards[shardIndexForKey p.inner.key].root.tree :=
    ⟨hinj.mono (Set.union_subset_union (fun m hm => .inl (.inl ⟨_, hm⟩))
        fun m hm => .inl (.inr hm)), fun m hm => hzero m (.inr (.inl (.inr hm))),
      fun m hm => plain_tree hm⟩
  rw [← hroot] at hinner
  have hget := BmtProof.get_of_verify hshardTree
    (fun m hm => hzero m (.inl (.inl (.inl ⟨_, hm⟩)))) hinner
  -- the value hashes agree, and so do the values
  rw [hkept.get] at hget
  have hcommitted : ∀ v, t.get p.inner.key = some v → v ∈ t.hashed ∪ p.hashed :=
    fun v hv => .inl (.inr ⟨_, _, hv⟩)
  rw [← ShardedSbmt.get] at hget
  cases hfound : t.get p.inner.key with
  | none =>
    rw [hfound, Option.map_none, eq_comm, Option.map_eq_none_iff] at hget
    exact hget
  | some v =>
    rw [hfound, Option.map_some, eq_comm, Option.map_eq_some_iff] at hget
    obtain ⟨v', hv', heq⟩ := hget
    rw [hv', hinj (.inr (.inl (.inl hv'))) (hcommitted v hfound) heq]

/-- After any calls the tree proves every key, present or absent, and an accepted proof holds
exactly the key's value, where `blake3` has no collision among the strings hashed and none of
them hashes to the digest of an empty subtree. -/
theorem bmt_proofs_exact (calls : List Call) :
    ∃ t, calls.foldlM ShardedSbmt.call new = some t ∧
      (∀ key, (t.prove key).1.verifyForKey t.rootHash.1 key = .ok ()) ∧
      ∀ (key : B256) (p : ShardedBmtProof), Set.InjOn Crypto.blake3 (t.hashed ∪ p.hashed) →
        (∀ m ∈ t.hashed ∪ p.hashed, Crypto.blake3 m ≠ EMPTY_HASH) →
        p.verifyForKey t.rootHash.1 key = .ok () → p.value = t.get key := by
  obtain ⟨t, ht, hholds⟩ := Holds.new.foldlM (fun c h => h.call c) calls
  exact ⟨t, ht, hholds.prove_accepted, fun key p hinj hzero hok =>
    hholds.accepted_exact hinj hzero hok⟩

end ShardedSbmt

end

section OneLeaf

local instance : Crypto := Crypto.ofBlake3 leftSucc

namespace ShardedSbmt

def singleValues : Values := Finmap.insert 0 [7] ∅

def single : ShardedSbmt where
  shards := new.shards.set (shardIndexForKey 0) ⟨.leaf 0 (hashValue [7]), 1, SHARD_BITS⟩
  values := new.values.set (shardIndexForKey 0) singleValues
  version := 0

theorem shards_single (i : Fin SHARD_COUNT) :
    single.shards[i].root = if (i : ℕ) = 0 then .leaf 0 (hashValue [7]) else .nil := by
  have hindex : (shardIndexForKey 0#256 : ℕ) = 0 := by decide
  by_cases hi : (i : ℕ) = 0
  · simp [single, hindex, hi]
  · simp [single, hindex, hi, Ne.symm hi, new, Sbmt.withBaseDepth]

theorem values_single (i : Fin SHARD_COUNT) :
    single.values[i] = if (i : ℕ) = 0 then singleValues else ∅ := by
  have hindex : (shardIndexForKey 0#256 : ℕ) = 0 := by decide
  by_cases hi : (i : ℕ) = 0
  · simp [single, hindex, hi]
  · simp [single, hindex, hi, Ne.symm hi, new]

theorem insert_single : [Call.insert 0 [7]].foldlM ShardedSbmt.call new = some single := by
  rfl

def singleStrings : List Bytes :=
  [7] :: leafBytes 0 (hashValue [7]) ::
    (spine (hashLeaf 0 (hashValue [7])) SHARD_BITS ++ spine 0 SHARD_BITS)

theorem hashed_single : single.hashed ⊆ {m | m ∈ singleStrings} := by
  rintro m ((⟨i, hm⟩ | hm) | ⟨i, key, hm⟩)
  · rw [shards_single] at hm
    split at hm
    · have hm : m = leafBytes 0 (hashValue [7]) := hm
      simp [hm, singleStrings]
    · exact hm.elim
  · have hleaf : ∀ s : ℕ, s < SHARD_COUNT →
        (single.shards.map fun s => s.root.summary).toList.getD s .null =
          if s = 0 then .data (leafBytes 0 (hashValue [7])) else .null := by
      intro s hs
      have hroot := shards_single ⟨s, hs⟩
      simp only [Fin.getElem_fin] at hroot
      rw [getD_eq_getElem?_getD, Vector.toList_map, getElem?_map]
      simp only [Vector.length_toList, hs, getElem?_pos, Vector.getElem_toList, hroot,
        Option.map_some]
      split <;> rfl
    have hnull : ∀ s : ℕ, s ≠ 0 →
        (single.shards.map fun s => s.root.summary).toList.getD s .null = .null := by
      intro s hs
      by_cases hlt : s < SHARD_COUNT
      · rw [hleaf s hlt, if_neg hs]
      · simp [hlt]
    obtain ⟨-, hstrings⟩ := left_subtree _ hnull SHARD_BITS
    rw [hleaf 0 (by decide)] at hstrings
    rcases hstrings hm with hm | hm
    · have hm : m = leafBytes 0 (hashValue [7]) := hm
      simp [hm, singleStrings]
    · exact mem_cons_of_mem _ (mem_cons_of_mem _ hm)
  · rw [values_single] at hm
    split at hm
    · by_cases hkey : key = 0
      · rw [hkey, singleValues, lookup_insert, Option.some.injEq] at hm
        simp [← hm, singleStrings]
      · rw [singleValues, lookup_insert_of_ne _ hkey] at hm
        cases hm
    · cases hm

/-- The proof of the one key there is, by the key's value. -/
def singleProof : ShardedBmtProof where
  shardIndex := 0
  shardRoot := hashLeaf 0 (hashValue [7])
  shardPath := nulls 0 SHARD_BITS
  inner := ⟨0, some (hashValue [7]), [], none⟩
  value := some [7]

theorem hashed_singleProof : singleProof.hashed ⊆ {m | m ∈ singleStrings} := by
  rintro m ((hm | ((⟨v, hv, rfl⟩ | ⟨other, hother, -⟩) | ⟨cur, -, hm⟩)) | hm)
  · have hm : [7] = m := Option.some.inj hm
    simp [← hm, singleStrings]
  · obtain rfl : hashValue [7] = v := Option.some.inj hv
    simp [singleProof, singleStrings]
  · cases hother
  · exact hm.elim
  · have hclimbed := climbed_nulls (hashLeaf 0 (hashValue [7])) 0 SHARD_BITS
    have hspine := hclimbed hm
    exact mem_cons_of_mem _ (mem_cons_of_mem _ (mem_append_left _ hspine))

theorem bmt_proofs_exact_of_single : ∃ t, [Call.insert 0 [7]].foldlM ShardedSbmt.call new = some t ∧
    (t.prove 1).1.verifyForKey t.rootHash.1 1 = .ok () ∧
    singleProof.verifyForKey t.rootHash.1 0 = .ok () ∧ t.get 0 = some [7] := by
  obtain ⟨t, ht, hprove, hsound⟩ := bmt_proofs_exact [Call.insert 0 [7]]
  obtain rfl : single = t := Option.some.inj (insert_single.symm.trans ht)
  have hstrings : single.hashed ∪ singleProof.hashed ⊆ {m | m ∈ singleStrings} :=
    Set.union_subset hashed_single hashed_singleProof
  obtain ⟨hinj, hzero⟩ := binds_of_nodup hstrings (by decide)
  have hok : singleProof.verifyForKey single.rootHash.1 0 = .ok () := by decide +kernel
  exact ⟨single, ht, hprove 1, hok, (hsound 0 singleProof hinj hzero hok).symm⟩

end ShardedSbmt

end OneLeaf

end N42.Bmt
