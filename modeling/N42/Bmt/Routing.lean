import N42.Bmt.Tree

/-!
What every tree the operations build looks like: a leaf stands under the bits of its own key, and a
cached hash is the hash of the subtree.
-/

namespace N42.Bmt

open Lib

/-- Keys with `P` differ, if at all, in a bit from `depth` on. -/
def Splits (P : B256 → Prop) (depth : ℕ) : Prop :=
  ∀ a b, P a → P b → (∀ i, depth ≤ i → i < 256 → bit a i = bit b i) → a = b

theorem Splits.lt {P : B256 → Prop} {depth : ℕ} (h : Splits P depth) {a b : B256} (ha : P a)
    (hb : P b) (hne : a ≠ b) : depth < 256 := by
  by_contra hdepth
  exact hne (h a b ha hb fun i hi hlt => by omega)

theorem Splits.next {P : B256 → Prop} {depth : ℕ} (h : Splits P depth) (side : Bool) :
    Splits (fun k => P k ∧ bit k depth = side) (depth + 1) := by
  intro a b ha hb heq
  refine h a b ha.1 hb.1 fun i hi hlt => ?_
  rcases Nat.eq_or_lt_of_le hi with rfl | hi
  · rw [ha.2, hb.2]
  · exact heq i hi hlt

namespace Node

/-- Every key of the subtree has `P` and stands where its bits lead. -/
def Routed : (B256 → Prop) → ℕ → Node → Prop
  | _, _, nil => True
  | P, _, leaf key _ => P key
  | P, depth, internal left right _ => depth < 256 ∧
      left.Routed (fun k => P k ∧ bit k depth = false) (depth + 1) ∧
      right.Routed (fun k => P k ∧ bit k depth = true) (depth + 1)

def tree : Node → HashTree Bytes
  | nil => .null
  | leaf key valueHash => .data (leafBytes key valueHash)
  | internal left right _ => .node left.tree right.tree

section

variable [Crypto]

def digest (n : Node) : B256 := n.tree.root Crypto.blake3 internalBytes EMPTY_HASH

@[simp] theorem digest_nil : digest nil = EMPTY_HASH := rfl

@[simp] theorem digest_leaf (key valueHash : B256) :
    digest (leaf key valueHash) = hashLeaf key valueHash := rfl

@[simp] theorem digest_internal (left right : Node) (cache : Option B256) :
    digest (internal left right cache) = hashInternal left.digest right.digest := rfl

/-- Every cached hash is the hash. -/
def Fresh : Node → Prop
  | nil => True
  | leaf _ _ => True
  | internal left right cache =>
    (∀ hash ∈ cache, hash = hashInternal left.digest right.digest) ∧ left.Fresh ∧ right.Fresh

end

def erase : Node → Node
  | nil => nil
  | leaf key valueHash => leaf key valueHash
  | internal left right _ => internal left.erase right.erase none

theorem get_erase (n : Node) (key : B256) (depth : ℕ) :
    n.erase.get key depth = n.get key depth := by
  induction n generalizing depth with
  | nil => rfl
  | leaf existing valueHash => rfl
  | internal left right cache ihl ihr => simp only [erase, get, ihl, ihr]

theorem tree_erase (n : Node) : n.erase.tree = n.tree := by
  induction n with
  | nil => rfl
  | leaf existing valueHash => rfl
  | internal left right cache ihl ihr => simp only [erase, tree, ihl, ihr]

theorem routed_erase (n : Node) (P : B256 → Prop) (depth : ℕ) :
    n.erase.Routed P depth ↔ n.Routed P depth := by
  induction n generalizing P depth with
  | nil => rfl
  | leaf existing valueHash => rfl
  | internal left right cache ihl ihr => simp only [erase, Routed, ihl, ihr]

variable {P : B256 → Prop} {depth : ℕ} {n : Node}

theorem Routed.mono {Q : B256 → Prop} (h : n.Routed P depth) (hPQ : ∀ k, P k → Q k) :
    n.Routed Q depth := by
  induction n generalizing P Q depth with
  | nil => trivial
  | leaf existing valueHash => exact hPQ existing h
  | internal left right cache ihl ihr =>
    exact ⟨h.1, ihl h.2.1 fun k hk => ⟨hPQ k hk.1, hk.2⟩, ihr h.2.2 fun k hk => ⟨hPQ k hk.1, hk.2⟩⟩

section

variable [Crypto]

theorem digest_congr {a b : Node} (h : a.erase = b.erase) : a.digest = b.digest := by
  rw [digest, digest, ← tree_erase a, ← tree_erase b, h]

theorem nodeHash_spec (h : n.Fresh) :
    n.nodeHash.1 = n.digest ∧ n.nodeHash.2.Fresh ∧ n.nodeHash.2.erase = n.erase := by
  induction n with
  | nil => exact ⟨rfl, trivial, rfl⟩
  | leaf key valueHash => exact ⟨rfl, trivial, rfl⟩
  | internal left right cache ihl ihr =>
    obtain ⟨hcache, hleft, hright⟩ := h
    cases cache with
    | some hash => exact ⟨hcache hash rfl, ⟨hcache, hleft, hright⟩, rfl⟩
    | none =>
      obtain ⟨hl, hlfresh, hlsame⟩ := ihl hleft
      obtain ⟨hr, hrfresh, hrsame⟩ := ihr hright
      simp only [nodeHash]
      refine ⟨by rw [hl, hr, digest_internal], ⟨?_, hlfresh, hrfresh⟩,
        by simp [erase, hlsame, hrsame]⟩
      rintro hash ⟨rfl⟩
      rw [hl, hr, digest_congr hlsame, digest_congr hrsame]

end

/-- How many calls an insertion below `depth` may need: two for every bit left, one more
where a leaf stands in the way. -/
def need (n : Node) (depth : ℕ) : ℕ :=
  2 * (256 - depth) + match n with
    | leaf _ _ => 1
    | _ => 0

/-- What an insertion leaves. -/
structure Inserted [Crypto] (P : B256 → Prop) (depth : ℕ) (n : Node) (key valueHash : B256)
    (result : Node × Bool) : Prop where
  routed : result.1.Routed P depth
  fresh : n.Fresh → result.1.Fresh
  get : ∀ k, result.1.get k depth = if k = key then some valueHash else n.get k depth
  inner : ∀ left right cache, n = internal left right cache → result.1.need depth ≤ n.need depth

variable [Crypto]

theorem insertAt_spec {fuel : ℕ} {key : B256} (valueHash : B256) (hn : n.Routed P depth)
    (hsplits : Splits P depth) (hkey : P key) (hfuel : n.need depth < fuel) :
    ∃ result, n.insertAt fuel key valueHash depth = some result ∧
      Inserted P depth n key valueHash result := by
  induction fuel generalizing n P depth key valueHash with
  | zero => omega
  | succ fuel ih =>
    cases n with
    | nil =>
      refine ⟨(leaf key valueHash, true), rfl, hkey, fun _ => trivial, fun k => ?_, nofun⟩
      simp only [get, eq_comm]
    | leaf existing existingHash =>
      by_cases heq : existing = key
      · subst heq
        refine ⟨(leaf existing valueHash, false), by simp [insertAt], hn, fun _ => trivial,
          fun k => ?_, nofun⟩
        by_cases hk : k = existing
        · simp [get, hk]
        · simp [get, hk, Ne.symm hk]
      · -- the leaf in the way is put below an empty inner node, then the key
        have hdepth := hsplits.lt hn hkey heq
        have hempty : (internal nil nil none).Routed P depth := ⟨hdepth, trivial, trivial⟩
        have hemptyFresh : (internal nil nil none).Fresh := ⟨nofun, trivial, trivial⟩
        simp only [need] at hfuel
        obtain ⟨r₁, hr₁, h₁⟩ := ih existingHash hempty hsplits hn (by simp only [need]; omega)
        have hneed := h₁.inner nil nil none rfl
        simp only [need] at hneed
        obtain ⟨r₂, hr₂, h₂⟩ := ih valueHash h₁.routed hsplits hkey (by simp only [need]; omega)
        refine ⟨(r₂.1, true), by simp [insertAt, heq, hr₁, hr₂], h₂.routed,
          fun _ => h₂.fresh (h₁.fresh hemptyFresh), fun k => ?_, nofun⟩
        have hnone : (internal nil nil none).get k depth = none := by simp [get]
        rw [h₂.get, h₁.get, hnone]
        simp only [get, eq_comm]
    | internal left right cache =>
      obtain ⟨hdepth, hleft, hright⟩ := hn
      have hchild : ∀ c : Node, c.need (depth + 1) < fuel := by
        intro c
        simp only [need] at hfuel ⊢
        split <;> omega
      by_cases hbit : bit key depth = true
      · obtain ⟨r, hr, h⟩ := ih valueHash hright (hsplits.next true) ⟨hkey, hbit⟩ (hchild right)
        refine ⟨(internal left r.1 none, r.2), by simp [insertAt, hbit, hr],
          ⟨hdepth, hleft, h.routed⟩, fun hf => ⟨nofun, hf.2.1, h.fresh hf.2.2⟩, fun k => ?_,
          fun _ _ _ _ => le_rfl⟩
        simp only [get, h.get]
        split
        · rfl
        · next hk =>
          rw [if_neg]
          rintro rfl
          exact hk hbit
      · have hbit : bit key depth = false := by simpa using hbit
        obtain ⟨r, hr, h⟩ := ih valueHash hleft (hsplits.next false) ⟨hkey, hbit⟩ (hchild left)
        refine ⟨(internal r.1 right none, r.2), by simp [insertAt, hbit, hr],
          ⟨hdepth, h.routed, hright⟩, fun hf => ⟨nofun, h.fresh hf.2.1, hf.2.2⟩, fun k => ?_,
          fun _ _ _ _ => le_rfl⟩
        simp only [get, h.get]
        split
        · next hk =>
          rw [if_neg]
          rintro rfl
          simp [hbit] at hk
        · rfl

variable {cache : Option B256} {left right : Node}

omit [Crypto] in
theorem Routed.collapse (h : (internal left right cache).Routed P depth) :
    (internal left right cache).collapse.Routed P depth := by
  obtain ⟨hdepth, hleft, hright⟩ := h
  rcases left with _ | ⟨k, v⟩ | ⟨l, r, c⟩ <;> rcases right with _ | ⟨k', v'⟩ | ⟨l', r', c'⟩
  all_goals first
    | exact trivial
    | exact hright.1
    | exact hleft.1
    | exact ⟨hdepth, hleft, hright⟩

omit [Crypto] in
theorem get_collapse (h : (internal left right cache).Routed P depth) (key : B256) :
    (internal left right cache).collapse.get key depth =
      (internal left right cache).get key depth := by
  obtain ⟨-, hleft, hright⟩ := h
  rcases left with _ | ⟨k, v⟩ | ⟨l, r, c⟩ <;> rcases right with _ | ⟨k', v'⟩ | ⟨l', r', c'⟩
  · simp [collapse, get]
  · have hk := hright.2
    simp only [collapse, get]
    grind
  · rfl
  · have hk := hleft.2
    simp only [collapse, get]
    grind
  all_goals rfl

theorem Fresh.collapse (h : (internal left right cache).Fresh) :
    (internal left right cache).collapse.Fresh := by
  rcases left with _ | ⟨k, v⟩ | ⟨l, r, c⟩ <;> rcases right with _ | ⟨k', v'⟩ | ⟨l', r', c'⟩
  all_goals first
    | exact trivial
    | exact h

theorem removeAt_spec (hn : n.Routed P depth) (key : B256) :
    (n.removeAt key depth).1.Routed P depth ∧
      (n.Fresh → (n.removeAt key depth).1.Fresh) ∧
      ∀ k, (n.removeAt key depth).1.get k depth = if k = key then none else n.get k depth := by
  induction n generalizing P depth with
  | nil => exact ⟨trivial, fun _ => trivial, by simp [removeAt, get]⟩
  | leaf existing valueHash =>
    by_cases heq : existing = key
    · subst heq
      simp only [removeAt]
      refine ⟨trivial, fun _ => trivial, fun k => ?_⟩
      by_cases hk : k = existing
      · simp [get, hk]
      · simp [get, Ne.symm hk]
    · simp only [removeAt, if_neg heq]
      refine ⟨hn, fun _ => trivial, fun k => ?_⟩
      by_cases hk : k = key
      · simp [get, hk, heq]
      · simp [hk]
  | internal left right cache ihl ihr =>
    obtain ⟨hdepth, hleft, hright⟩ := hn
    by_cases hbit : bit key depth = true
    · obtain ⟨hrouted, hfresh, hget⟩ := ihr hright
      have hnode : (internal left (right.removeAt key (depth + 1)).1 none).Routed P depth :=
        ⟨hdepth, hleft, hrouted⟩
      simp only [removeAt, if_pos hbit]
      refine ⟨hnode.collapse, fun hf => Fresh.collapse ⟨nofun, hf.2.1, hfresh hf.2.2⟩, fun k => ?_⟩
      rw [get_collapse hnode]
      simp only [get, hget]
      by_cases hk : k = key
      · subst hk
        simp [hbit]
      · simp [hk]
    · obtain ⟨hrouted, hfresh, hget⟩ := ihl hleft
      have hnode : (internal (left.removeAt key (depth + 1)).1 right none).Routed P depth :=
        ⟨hdepth, hrouted, hright⟩
      simp only [removeAt, if_neg hbit]
      refine ⟨hnode.collapse, fun hf => Fresh.collapse ⟨nofun, hfresh hf.2.1, hf.2.2⟩, fun k => ?_⟩
      rw [get_collapse hnode]
      simp only [get, hget]
      by_cases hk : k = key
      · subst hk
        simp [hbit]
      · simp [hk]

end Node

end N42.Bmt
