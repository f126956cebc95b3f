import N42.Lib.MerkleHeap

/-!
Trees of hash computations, and what an authentication path can reach in one.

A `HashTree` keeps what was hashed at every node, so that freedom from collisions is asked only of
the messages compared.
-/

namespace Lib

open MerkleHeap

universe u v

inductive HashTree (M : Type u) where
  | null
  | data (message : M)
  | node (left right : HashTree M)

namespace HashTree

variable {M : Type u} {D : Type v}

def child (side : ℕ) : HashTree M → Option (HashTree M)
  | node left right => some (if side = 0 then left else right)
  | _ => none

/-- The subtree `n` levels down; the bits of `index`, lowest last, say which way to go. -/
def descend (t : HashTree M) : ℕ → ℕ → Option (HashTree M)
  | 0, _ => some t
  | n + 1, index => (t.descend n (index / 2)).bind (child (index % 2))

def contents : HashTree M → Set M
  | null => ∅
  | data message => {message}
  | node left right => left.contents ∪ right.contents

/-- Walking down a perfect tree reaches the subtree the index names. -/
theorem descend_subtree (leaf : ℕ → HashTree M) (n h j index : ℕ) :
    (subtree node leaf (n + h) j).descend n index =
      some (subtree node leaf h (2 ^ n * j + index % 2 ^ n)) := by
  induction n generalizing index h with
  | zero => simp [descend, Nat.mod_one]
  | succ n ih =>
    have hindex : 2 ^ (n + 1) * j + index % 2 ^ (n + 1) =
        2 * (2 ^ n * j + index / 2 % 2 ^ n) + index % 2 := by
      rw [pow_succ', Nat.mod_mul, mul_assoc]
      omega
    rw [show n + 1 + h = n + (h + 1) by omega, descend, ih, Option.bind_some, hindex, subtree,
      child]
    rcases Nat.mod_two_eq_zero_or_one index with hbit | hbit
    · simp [hbit]
    · simp [hbit]

theorem mem_contents_subtree {leaf : ℕ → HashTree M} {h i : ℕ} {m : M}
    (hm : m ∈ (subtree node leaf h i).contents) : ∃ s, m ∈ (leaf s).contents := by
  induction h generalizing i with
  | zero => exact ⟨i, hm⟩
  | succ h ih =>
    rcases hm with hm | hm
    · exact ih hm
    · exact ih hm

section Digests

variable (hash : M → D) (pair : D → D → M) (zero : D)

def root : HashTree M → D
  | null => zero
  | data message => hash message
  | node left right => hash (pair left.root right.root)

/-- Every message hashed on the way to the root. -/
def hashed : HashTree M → Set M
  | null => ∅
  | data message => {message}
  | node left right =>
    insert (pair (left.root hash pair zero) (right.root hash pair zero))
      (left.hashed ∪ right.hashed)

/-- Every message hashed along a path. -/
def climbed : D → ℕ → List D → Set M
  | _, _, [] => ∅
  | digest, index, sibling :: path =>
    let message := if index % 2 = 0 then pair digest sibling else pair sibling digest
    insert message (climbed (hash message) (index / 2) path)

theorem descend_hashed {t u : HashTree M} {n index : ℕ} (h : t.descend n index = some u) :
    u.hashed hash pair zero ⊆ t.hashed hash pair zero ∧ u.contents ⊆ t.contents := by
  induction n generalizing index u with
  | zero =>
    obtain rfl : t = u := Option.some.inj h
    exact ⟨subset_rfl, subset_rfl⟩
  | succ n ih =>
    obtain ⟨v, hv, hchild⟩ := Option.bind_eq_some_iff.mp h
    obtain ⟨hhashed, hcontents⟩ := ih hv
    cases v with
    | null => simp [child] at hchild
    | data message => simp [child] at hchild
    | node left right =>
      have hu : u = left ∨ u = right := by
        simp only [child, Option.some.injEq] at hchild
        split at hchild
        · exact .inl hchild.symm
        · exact .inr hchild.symm
      rcases hu with rfl | rfl
      · exact ⟨fun m hm => hhashed (.inr (.inl hm)), fun m hm => hcontents (.inl hm)⟩
      · exact ⟨fun m hm => hhashed (.inr (.inr hm)), fun m hm => hcontents (.inr hm)⟩

variable {hash pair zero}

theorem root_subtree (leaf : ℕ → HashTree M) (h i : ℕ) :
    (subtree node leaf h i).root hash pair zero =
      subtree (fun l r => hash (pair l r)) (fun s => (leaf s).root hash pair zero) h i := by
  induction h generalizing i with
  | zero => rfl
  | succ h ih => simp only [subtree, root, ih]

/-- What a verifier must be able to rely on to bind the messages `S` to the tree. -/
structure Binds (hash : M → D) (pair : D → D → M) (zero : D) (S : Set M) (t : HashTree M) :
    Prop where
  inj : Set.InjOn hash (t.hashed hash pair zero ∪ S)
  nonzero : ∀ m ∈ S, hash m ≠ zero
  plain : ∀ m ∈ t.contents, ∀ a b, m ≠ pair a b

theorem Binds.descend {S : Set M} {t u : HashTree M} (h : Binds hash pair zero S t)
    {n index : ℕ} (hu : t.descend n index = some u) : Binds hash pair zero S u := by
  obtain ⟨hhashed, hcontents⟩ := descend_hashed hash pair zero hu
  exact ⟨h.inj.mono (Set.union_subset_union_left S hhashed), h.nonzero,
    fun m hm => h.plain m (hcontents hm)⟩

variable {S : Set M} {t : HashTree M}

/-- A bound message with the digest of a tree is the message the tree was hashed from. -/
theorem Binds.cases (h : Binds hash pair zero S t) {m : M} (hm : m ∈ S)
    (heq : hash m = t.root hash pair zero) : t = data m ∨ ∃ left right, t = node left right ∧
      m = pair (left.root hash pair zero) (right.root hash pair zero) := by
  cases t with
  | null => exact absurd heq (h.nonzero m hm)
  | data message =>
    exact .inl (congrArg data (h.inj (.inr hm) (.inl rfl) heq).symm)
  | node left right =>
    exact .inr ⟨left, right, rfl, h.inj (.inr hm) (.inl (.inl rfl)) heq⟩

theorem Binds.pair_cases (h : Binds hash pair zero S t)
    (hpair : ∀ {a b c d}, pair a b = pair c d → a = c ∧ b = d) {a b : D} (hm : pair a b ∈ S)
    (heq : hash (pair a b) = t.root hash pair zero) :
    ∃ left right, t = node left right ∧ left.root hash pair zero = a ∧
      right.root hash pair zero = b := by
  rcases h.cases hm heq with rfl | ⟨left, right, rfl, hmessage⟩
  · exact absurd rfl (h.plain _ rfl a b)
  · obtain ⟨rfl, rfl⟩ := hpair hmessage
    exact ⟨left, right, rfl, rfl, rfl⟩

theorem Binds.climb (h : Binds hash pair zero S t)
    (hpair : ∀ {a b c d}, pair a b = pair c d → a = c ∧ b = d) {digest : D} {index : ℕ}
    {path : List D} (hS : climbed hash pair digest index path ⊆ S)
    (heq :
      MerkleHeap.climb (fun l r => hash (pair l r)) digest index path = t.root hash pair zero) :
    ∃ u, t.descend path.length index = some u ∧ u.root hash pair zero = digest := by
  induction path generalizing digest index with
  | nil => exact ⟨t, rfl, heq.symm⟩
  | cons sibling path ih =>
    obtain ⟨hmem, hrest⟩ := Set.insert_subset_iff.mp hS
    rcases Nat.mod_two_eq_zero_or_one index with hbit | hbit
    · simp only [hbit] at hmem hrest
      simp only [MerkleHeap.climb, hbit] at heq
      obtain ⟨v, hv, hroot⟩ := ih hrest heq
      obtain ⟨left, right, rfl, hleft, -⟩ := (h.descend hv).pair_cases hpair hmem hroot.symm
      exact ⟨left, by simp [HashTree.descend, hv, child, hbit], hleft⟩
    · simp only [hbit] at hmem hrest
      simp only [MerkleHeap.climb, hbit] at heq
      obtain ⟨v, hv, hroot⟩ := ih hrest heq
      obtain ⟨left, right, rfl, -, hright⟩ := (h.descend hv).pair_cases hpair hmem hroot.symm
      exact ⟨right, by simp [HashTree.descend, hv, child, hbit], hright⟩

end Digests

end HashTree

end Lib
