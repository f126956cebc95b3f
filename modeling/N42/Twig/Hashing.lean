import N42.Lib.MerkleHeap
import N42.Primitives.Types

/-!
Hashing in `n42-twig-core`: leaves, inner nodes, the all-null subtrees, and the heap of a
twig that holds no leaf yet.
-/

namespace N42

open Lib Lib.MerkleHeap

def TWIG_HEIGHT : ℕ := 11

def TWIG_SIZE : ℕ := 2048

theorem TWIG_SIZE_eq : TWIG_SIZE = 2 ^ TWIG_HEIGHT := rfl

theorem TWIG_SIZE_pos : 0 < TWIG_SIZE := by decide

def NULL_HASH : B256 := 0

def nextPowerOfTwo (n : ℕ) : ℕ := 2 ^ Nat.clog 2 n

theorem le_nextPowerOfTwo (n : ℕ) : n ≤ nextPowerOfTwo n := Nat.le_pow_clog (by omega) n

theorem nextPowerOfTwo_pos (n : ℕ) : 0 < nextPowerOfTwo n := Nat.pow_pos (by omega)

theorem log2_two_mul_add_one {j : ℕ} (hj : 1 ≤ j) : Nat.log2 (2 * j + 1) = Nat.log2 j + 1 := by
  have hlow := Nat.log2_self_le (n := j) (by omega)
  have hhigh := Nat.lt_log2_self (n := j)
  rw [Nat.log2_eq_iff (by omega)]
  constructor
  · omega
  · omega

/-- The functions of `Crypto` with a given hash and no signatures: enough to run trees. -/
abbrev Crypto.ofBlake3 (blake3 : Bytes → B256) : Crypto where
  keyGen := BlsSecretKey.mk
  publicKey sk := ⟨sk.scalar⟩
  sign _ _ _ := ⟨[]⟩
  verify _ _ _ _ := false
  validate _ := false
  aggregate _ := none
  fastAggregateVerify _ _ _ _ := false
  blake3 := blake3
  serializeChanges _ := []
  parsePeerId := some

section

variable [Crypto]

/-- What `hash_leaf` feeds to `blake3`: `0x01 || key || value`. -/
def leafPreimage (key : B256) (value : Bytes) : Bytes := 0x01 :: (B256.toBytes key ++ value)

/-- What `hash_node` feeds to `blake3`: `left || right`, with no domain prefix. -/
def nodePreimage (left right : B256) : Bytes := B256.toBytes left ++ B256.toBytes right

def hashLeaf (key : B256) (value : Bytes) : B256 := Crypto.blake3 (leafPreimage key value)

def hashNode (left right : B256) : B256 := Crypto.blake3 (nodePreimage left right)

/-- `null_level[h]`, the root of an all-null subtree of height `h`. -/
def nullLevel : ℕ → B256
  | 0 => NULL_HASH
  | h + 1 => hashNode (nullLevel h) (nullLevel h)

/-- The node array of a fresh twig: inner node `j` roots an all-null subtree of height
`TWIG_HEIGHT - floor(log2 j)`, and every leaf is null. -/
def nullNodes (j : ℕ) : B256 :=
  if 1 ≤ j ∧ j < TWIG_SIZE then nullLevel (TWIG_HEIGHT - Nat.log2 j) else NULL_HASH

theorem nullNodes_of_le {j : ℕ} (hj : TWIG_SIZE ≤ j) : nullNodes j = NULL_HASH :=
  if_neg (by omega)

theorem nullNodes_folded : Folded hashNode TWIG_SIZE nullNodes := by
  intro j hj hcap
  have hlog : Nat.log2 j < TWIG_HEIGHT := (Nat.log2_lt (by omega)).mpr hcap
  -- either both children are inner nodes or both are leaves
  have hchild : ∀ c, Nat.log2 c = Nat.log2 j + 1 → 2 * j ≤ c → c < 2 * TWIG_SIZE →
      nullNodes c = nullLevel (TWIG_HEIGHT - (Nat.log2 j + 1)) := by
    intro c hc hle hlt
    by_cases hin : c < TWIG_SIZE
    · rw [nullNodes, if_pos ⟨by omega, hin⟩, hc]
    · have hleaf : Nat.log2 c = TWIG_HEIGHT := by
        rw [Nat.log2_eq_iff (by omega), pow_succ, ← TWIG_SIZE_eq]
        omega
      rw [nullNodes_of_le (by omega), show TWIG_HEIGHT - (Nat.log2 j + 1) = 0 by omega]
      rfl
  rw [FoldedAt, nullNodes, if_pos ⟨hj, hcap⟩,
    hchild _ (Nat.log2_two_mul (by omega)) le_rfl (by omega),
    hchild _ (log2_two_mul_add_one hj) (by omega) (by omega),
    show TWIG_HEIGHT - Nat.log2 j = TWIG_HEIGHT - (Nat.log2 j + 1) + 1 by omega]
  rfl

end

@[simp] theorem nodePreimage_length (left right : B256) :
    (nodePreimage left right).length = 64 := by
  simp [nodePreimage]

theorem nodePreimage_inj {left right left' right' : B256}
    (h : nodePreimage left right = nodePreimage left' right') : left = left' ∧ right = right' := by
  obtain ⟨hl, hr⟩ := List.append_inj h (by simp)
  exact ⟨B256.toBytes_injective hl, B256.toBytes_injective hr⟩

@[simp] theorem leafPreimage_length (key : B256) (value : Bytes) :
    (leafPreimage key value).length = 33 + value.length := by
  simp [leafPreimage]
  omega

theorem leafPreimage_inj {key key' : B256} {value value' : Bytes}
    (h : leafPreimage key value = leafPreimage key' value') : key = key' ∧ value = value' := by
  obtain ⟨hk, hv⟩ := List.append_inj (List.cons.inj h).2 (by simp)
  exact ⟨B256.toBytes_injective hk, hv⟩

end N42
