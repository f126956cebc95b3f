import N42.Lib.PairTree
import N42.Primitives.Types

/-!
Frames of transactions and the roots that name them (`n42-tx-types/src/frame.rs`). A block's root is
that of its frames' roots; it does not fix the shape of the tree, but it fixes the body.
-/

namespace N42.Tx

open Lib List PairTree

section Roots

theorem pairString_injective {p q : B256 × B256}
    (h : B256.toBytes p.1 ++ B256.toBytes p.2 = B256.toBytes q.1 ++ B256.toBytes q.2) : p = q := by
  obtain ⟨hleft, hright⟩ := append_inj h (by simp)
  exact Prod.ext (B256.toBytes_injective hleft) (B256.toBytes_injective hright)

theorem layout_eq_nil {layout : List ℕ} (hzero : 0 ∉ layout) (hsum : layout.sum = 0) :
    layout = [] := by
  cases layout with
  | nil => rfl
  | cons len layout =>
    rw [sum_cons] at hsum
    exact absurd (mem_cons.mpr (Or.inl (by omega))) hzero

variable [Keccak]

def pairHash (left right : B256) : B256 :=
  Keccak.keccak256 (B256.toBytes left ++ B256.toBytes right)

def binaryMerkleRoot (leaves : List B256) : B256 :=
  match leaves with
  | [] => Keccak.keccak256 []
  | [only] => only
  | _ => (joinAll pairHash leaves).headD 0

def frameRoot (txHashes : List B256) : B256 := binaryMerkleRoot txHashes

def frameTreeRoot (frameRoots : List B256) : B256 := binaryMerkleRoot frameRoots

omit [Keccak] in
def checkedAdd (total len : ℕ) : Option ℕ :=
  if total + len < 2 ^ 64 then some (total + len) else none

omit [Keccak] in
def frames : List ℕ → List B256 → List (List B256)
  | [], _ => []
  | len :: layout, txHashes => txHashes.take len :: frames layout (txHashes.drop len)

variable (txHashes : List B256) (layout : List ℕ)

def frameTreeRootOf : Option B256 := do
  let covered ← layout.foldlM checkedAdd 0
  if 0 ∈ layout ∨ covered ≠ txHashes.length then none
  else return frameTreeRoot ((frames layout txHashes).map frameRoot)

def merkleStrings (leaves : List B256) : List Bytes :=
  match leaves with
  | [] => [[]]
  | _ => (joinPairs pairHash leaves).map fun p => B256.toBytes p.1 ++ B256.toBytes p.2

/-- The strings hashed for the root of a body. -/
def frameTreeStrings : List Bytes :=
  (frames layout txHashes).flatMap merkleStrings ++
    merkleStrings ((frames layout txHashes).map frameRoot)

variable {layout : List ℕ} {root : B256} {txHashes : List B256}

omit [Keccak] in
theorem foldlM_checkedAdd {total covered : ℕ} (h : layout.foldlM checkedAdd total = some covered) :
    covered = total + layout.sum := by
  induction layout generalizing total with
  | nil => simpa using h.symm
  | cons len layout ih =>
    rw [foldlM_cons, Option.bind_eq_bind, Option.bind_eq_some_iff] at h
    obtain ⟨next, hnext, hrest⟩ := h
    unfold checkedAdd at hnext
    split at hnext
    · rw [ih hrest, ← Option.some.inj hnext, sum_cons, Nat.add_assoc]
    · cases hnext

theorem frameTreeRootOf_eq_some (h : frameTreeRootOf txHashes layout = some root) :
    0 ∉ layout ∧ layout.sum = txHashes.length ∧
      root = frameTreeRoot ((frames layout txHashes).map frameRoot) := by
  simp only [frameTreeRootOf, Option.bind_eq_bind, Option.bind_eq_some_iff] at h
  obtain ⟨covered, hcovered, h⟩ := h
  split at h
  · cases h
  case isFalse hcheck =>
    obtain ⟨hzero, hcheck⟩ := not_or.mp hcheck
    have hsum := foldlM_checkedAdd hcovered
    exact ⟨hzero, by omega, (Option.some.inj h).symm⟩

omit [Keccak] in
theorem frames_spec (hzero : 0 ∉ layout) (hsum : layout.sum = txHashes.length) :
    (frames layout txHashes).flatten = txHashes ∧ ∀ frame ∈ frames layout txHashes, frame ≠ [] := by
  induction layout generalizing txHashes with
  | nil =>
    have hnil : txHashes = [] := length_eq_zero_iff.mp hsum.symm
    simp [frames, hnil]
  | cons len layout ih =>
    rw [sum_cons] at hsum
    obtain ⟨hlen, hzero⟩ := not_or.mp (mem_cons.not.mp hzero)
    have hdrop : layout.sum = (txHashes.drop len).length := by
      rw [length_drop]
      omega
    obtain ⟨hflatten, hnonempty⟩ := ih hzero hdrop
    constructor
    · rw [frames, flatten_cons, hflatten, take_append_drop]
    · intro frame hframe
      rcases mem_cons.mp hframe with rfl | hframe
      · apply length_pos_iff.mp
        rw [length_take]
        omega
      · exact hnonempty frame hframe

omit [Keccak] in
def rootTree (trees : List (PairTree B256)) : PairTree B256 :=
  (joinAll PairTree.node trees).headD (.leaf 0)

variable {trees : List (PairTree B256)}

section

variable (h : trees ≠ [])
include h

omit [Keccak] in
theorem joinAll_eq_rootTree : joinAll PairTree.node trees = [rootTree trees] := by
  obtain ⟨root, hroot⟩ := exists_joinAll node h
  rw [rootTree, hroot]
  rfl

theorem value_rootTree :
    (rootTree trees).value pairHash = binaryMerkleRoot (trees.map (PairTree.value pairHash)) := by
  have hclimb := map_value_joinAll pairHash trees
  rw [joinAll_eq_rootTree h] at hclimb
  unfold binaryMerkleRoot
  split
  case h_1 hnil => exact absurd (map_eq_nil_iff.mp hnil) h
  case h_2 only honly =>
    rw [honly, joinAll] at hclimb
    exact (List.cons.inj hclimb).1
  case h_3 => rw [← hclimb, map_cons, headD_cons]

omit [Keccak] in
theorem note_rootTree (noted : List B256) :
    note noted (rootTree trees).leaves = note noted (trees.flatMap PairTree.leaves) := by
  rw [← note_joinAll, joinAll_eq_rootTree h, flatMap_singleton]

theorem pairs_rootTree :
    ∀ p ∈ (rootTree trees).pairs pairHash,
      p ∈ joinPairs pairHash (trees.map (PairTree.value pairHash)) ∨
        ∃ s ∈ trees, p ∈ s.pairs pairHash := by
  apply pairs_joinAll
  rw [joinAll_eq_rootTree h]
  exact mem_singleton.mpr rfl

end

/-- A hash that no root computation makes: not that of two nodes. -/
def NotPair (hash : B256) : Prop := ∀ pair : Bytes, pair.length = 64 → Keccak.keccak256 pair ≠ hash

theorem NotPair.pairHash_ne {hash : B256} (h : NotPair hash) (left right : B256) :
    pairHash left right ≠ hash :=
  h _ (by simp)

theorem injOn_pairHash {strings : Set Bytes} (hfree : Set.InjOn Keccak.keccak256 strings)
    {pairs : Set (B256 × B256)}
    (hpairs : ∀ p ∈ pairs, B256.toBytes p.1 ++ B256.toBytes p.2 ∈ strings) :
    Set.InjOn (fun p : B256 × B256 => pairHash p.1 p.2) pairs := by
  intro p hp q hq h
  exact pairString_injective (hfree (hpairs p hp) (hpairs q hq) h)

theorem mem_merkleStrings {leaves : List B256} {p : B256 × B256}
    (h : p ∈ joinPairs pairHash leaves) :
    B256.toBytes p.1 ++ B256.toBytes p.2 ∈ merkleStrings leaves := by
  cases leaves with
  | nil =>
    rw [joinPairs] at h
    cases h
  | cons leaf leaves => exact mem_map.mpr ⟨p, h, rfl⟩

def frameTree (frame : List B256) : PairTree B256 := rootTree (frame.map PairTree.leaf)

def bodyTree (layout : List ℕ) (txHashes : List B256) : PairTree B256 :=
  rootTree ((frames layout txHashes).map frameTree)

variable {frame : List B256}

theorem value_frameTree (h : frame ≠ []) : (frameTree frame).value pairHash = frameRoot frame := by
  rw [frameTree, value_rootTree (by simpa using h), map_value_leaf, frameRoot]

omit [Keccak] in
theorem note_frameTree (h : frame ≠ []) (noted : List B256) :
    note noted (frameTree frame).leaves = note noted frame := by
  rw [frameTree, note_rootTree (by simpa using h), flatMap_leaves_leaf]

theorem pairs_frameTree (h : frame ≠ []) :
    ∀ p ∈ (frameTree frame).pairs pairHash,
      B256.toBytes p.1 ++ B256.toBytes p.2 ∈ merkleStrings frame := by
  intro p hp
  apply mem_merkleStrings
  rcases pairs_rootTree (by simpa using h) p hp with hclimb | ⟨s, hs, hpair⟩
  · rwa [map_value_leaf] at hclimb
  · obtain ⟨a, -, rfl⟩ := mem_map.mp hs
    cases hpair

omit [Keccak] in
theorem note_flatMap_frameTree {body : List (List B256)} (h : ∀ frame ∈ body, frame ≠ [])
    (noted : List B256) :
    note noted ((body.map frameTree).flatMap PairTree.leaves) = note noted body.flatten := by
  induction body generalizing noted with
  | nil => rfl
  | cons frame body ih =>
    rw [map_cons, flatMap_cons, flatten_cons, note_append, note_append,
      note_frameTree (h frame mem_cons_self)]
    exact ih (fun f hf => h f (mem_cons_of_mem _ hf)) _

/-- What an aligned body is, as a tree. -/
structure Aligned (txHashes : List B256) (layout : List ℕ) (root : B256) : Prop where
  value : (bodyTree layout txHashes).value pairHash = root
  leaves : note [] (bodyTree layout txHashes).leaves = note [] txHashes
  pairs : ∀ p ∈ (bodyTree layout txHashes).pairs pairHash,
    B256.toBytes p.1 ++ B256.toBytes p.2 ∈ frameTreeStrings txHashes layout

theorem aligned_of_layout (hne : txHashes ≠ []) (hzero : 0 ∉ layout)
    (hsum : layout.sum = txHashes.length) :
    Aligned txHashes layout (frameTreeRoot ((frames layout txHashes).map frameRoot)) := by
  obtain ⟨hflatten, hframes⟩ := frames_spec hzero hsum
  have hbody : (frames layout txHashes).map frameTree ≠ [] := by
    intro hnil
    rw [map_eq_nil_iff.mp hnil] at hflatten
    exact hne hflatten.symm
  have hvalues : ((frames layout txHashes).map frameTree).map (value pairHash) =
      (frames layout txHashes).map frameRoot := by
    rw [map_map]
    apply map_congr_left
    intro frame hframe
    exact value_frameTree (hframes frame hframe)
  constructor
  · rw [bodyTree, value_rootTree hbody, hvalues, frameTreeRoot]
  · rw [bodyTree, note_rootTree hbody, note_flatMap_frameTree hframes, hflatten]
  · intro p hp
    rw [frameTreeStrings, mem_append, mem_flatMap]
    rcases pairs_rootTree hbody p hp with hclimb | ⟨s, hs, hpair⟩
    · rw [hvalues] at hclimb
      exact Or.inr (mem_merkleStrings hclimb)
    · obtain ⟨frame, hframe, rfl⟩ := mem_map.mp hs
      exact Or.inl ⟨frame, hframe, pairs_frameTree (hframes frame hframe) p hpair⟩

theorem aligned_of_frameTreeRootOf (hne : txHashes ≠ [])
    (h : frameTreeRootOf txHashes layout = some root) : Aligned txHashes layout root := by
  obtain ⟨hzero, hsum, rfl⟩ := frameTreeRootOf_eq_some h
  exact aligned_of_layout hne hzero hsum

theorem Aligned.mem_leaves (h : Aligned txHashes layout root) {a : B256} :
    a ∈ (bodyTree layout txHashes).leaves ↔ a ∈ txHashes := by
  have hnote := @mem_note _ _ [] (bodyTree layout txHashes).leaves a
  rw [h.leaves, mem_note] at hnote
  simpa using hnote.symm

/-- Two bodies with one root have the same transactions in the same order, apart from repeats. -/
theorem Aligned.note_eq {xs ys : List B256} {layout' : List ℕ} (hx : Aligned xs layout root)
    (hy : Aligned ys layout' root) (hpair : ∀ h, h ∈ xs ∨ h ∈ ys → NotPair h) (hfree : Set.InjOn
      Keccak.keccak256 {b | b ∈ frameTreeStrings xs layout ∨ b ∈ frameTreeStrings ys layout'}) :
    note [] xs = note [] ys := by
  have htree : bodyTree layout xs = bodyTree layout' ys := by
    apply eq_of_value_eq
    · apply injOn_pairHash hfree
      rintro p (hp | hp)
      · exact Or.inl (hx.pairs p hp)
      · exact Or.inr (hy.pairs p hp)
    · intro a ha
      rw [hx.mem_leaves, hy.mem_leaves] at ha
      exact (hpair a ha).pairHash_ne
    · rw [hx.value, hy.value]
  rw [← hx.leaves, ← hy.leaves, htree]

/-- The root of a body is not that of no transactions. -/
theorem Aligned.root_ne_empty (h : Aligned txHashes layout root) {strings : Set Bytes}
    (hfree : Set.InjOn Keccak.keccak256 strings) (hnil : [] ∈ strings)
    (hstrings : ∀ b ∈ frameTreeStrings txHashes layout, b ∈ strings)
    (htx : ∀ h ∈ txHashes, ∃ encoding ∈ strings, encoding ≠ [] ∧ Keccak.keccak256 encoding = h) :
    root ≠ Keccak.keccak256 [] := by
  have hmem := @h.mem_leaves
  have hpairs := h.pairs
  intro hroot
  rw [← h.value] at hroot
  cases htree : bodyTree layout txHashes with
  | leaf a =>
    rw [htree] at hroot hmem
    obtain ⟨encoding, hencoding, hne, hhash⟩ := htx a (hmem.mp (by simp [PairTree.leaves]))
    apply hne
    apply hfree hencoding hnil
    rw [hhash]
    exact hroot
  | node left right =>
    rw [htree] at hroot hpairs
    have hstring := hstrings _ (hpairs _ mem_cons_self)
    have heq := congrArg List.length (hfree hstring hnil hroot)
    simp at heq

/-- The strings whose hashes must not collide: those hashed for the two roots, and the encodings of
the transactions. -/
def bodyStrings (encoding : B256 → Bytes) (xs : List B256) (layout : List ℕ) : Set Bytes :=
  {b | b ∈ frameTreeStrings xs layout ∨ ∃ h ∈ xs, b = encoding h}

theorem frameTreeRootOf_nil (h : frameTreeRootOf [] layout = some root) :
    root = Keccak.keccak256 [] ∧ [] ∈ frameTreeStrings [] layout := by
  obtain ⟨hzero, hsum, rfl⟩ := frameTreeRootOf_eq_some h
  obtain rfl := layout_eq_nil hzero hsum
  exact ⟨rfl, mem_cons_self⟩

theorem body_eq_nil {encoding : B256 → Bytes} {ys : List B256} {layout' : List ℕ}
    (htx : ∀ h ∈ ys, encoding h ≠ [] ∧ Keccak.keccak256 (encoding h) = h) (hfree : Set.InjOn
      Keccak.keccak256 (bodyStrings encoding [] layout ∪ bodyStrings encoding ys layout'))
    (hx : frameTreeRootOf [] layout = some root) (hy : frameTreeRootOf ys layout' = some root) :
    ys = [] := by
  by_contra hne
  obtain ⟨hroot, hnil⟩ := frameTreeRootOf_nil hx
  apply (aligned_of_frameTreeRootOf hne hy).root_ne_empty hfree (Or.inl (Or.inl hnil)) _ _ hroot
  · intro b hb
    exact Or.inr (Or.inl hb)
  · intro h hh
    exact ⟨encoding h, Or.inr (Or.inr ⟨h, hh, rfl⟩), htx h hh⟩

theorem aligned_frame (h : frame ≠ []) : Aligned frame [frame.length] (frameRoot frame) := by
  have hpos := length_pos_iff.mpr h
  have haligned := @aligned_of_layout _ [frame.length] frame h (by simp; omega) (by simp)
  simpa [frames, frameTreeRoot, binaryMerkleRoot] using haligned

theorem frameTreeStrings_frame (frame : List B256) :
    frameTreeStrings frame [frame.length] = merkleStrings frame := by
  have hsingle : merkleStrings [frameRoot frame] = [] := by
    rw [merkleStrings, joinPairs]
    · rfl
    · simp
  rw [frameTreeStrings, frames, frames, take_length, map_cons, map_nil, hsingle]
  simp

theorem frame_tree_fixes_body (encoding : B256 → Bytes) (xs ys : List B256)
    (layout layout' : List ℕ) (root : B256)
    (htx : ∀ h, h ∈ xs ∨ h ∈ ys → encoding h ≠ [] ∧ Keccak.keccak256 (encoding h) = h)
    (hpair : ∀ h, h ∈ xs ∨ h ∈ ys → NotPair h)
    (hfree : Set.InjOn Keccak.keccak256
      (bodyStrings encoding xs layout ∪ bodyStrings encoding ys layout'))
    (hxs : xs.Nodup) (hys : ys.Nodup) (hx : frameTreeRootOf xs layout = some root)
    (hy : frameTreeRootOf ys layout' = some root) : xs = ys := by
  by_cases hxnil : xs = []
  · subst hxnil
    exact (body_eq_nil (fun h hh => htx h (Or.inr hh)) hfree hx hy).symm
  by_cases hynil : ys = []
  · subst hynil
    rw [Set.union_comm] at hfree
    exact body_eq_nil (fun h hh => htx h (Or.inl hh)) hfree hy hx
  have hstrings : Set.InjOn Keccak.keccak256
      {b | b ∈ frameTreeStrings xs layout ∨ b ∈ frameTreeStrings ys layout'} := by
    apply hfree.mono
    rintro b (hb | hb)
    · exact Or.inl (Or.inl hb)
    · exact Or.inr (Or.inl hb)
  have hnote := (aligned_of_frameTreeRootOf hxnil hx).note_eq
    (aligned_of_frameTreeRootOf hynil hy) hpair hstrings
  rwa [note_of_nodup (by simpa using hxs), note_of_nodup (by simpa using hys)] at hnote

end Roots

/-- A hash function by length: its values on strings of distinct lengths are distinct. -/
@[reducible] def lengthKeccak : Keccak where
  keccak256 bytes := BitVec.ofNat 256 bytes.length

attribute [local instance] lengthKeccak

/-- As many bytes as a hash says. -/
def lengthEncoding (hash : B256) : Bytes := List.replicate hash.toNat 0

theorem notPair_one_two (h : B256) (hmem : h ∈ ([1, 2] : List B256)) : NotPair h := by
  intro pair hlength hpair
  simp only [Keccak.keccak256, hlength] at hpair
  rw [← hpair] at hmem
  revert hmem
  decide

theorem frameTreeStrings_one_two :
    frameTreeStrings [1, 2] [2] = [B256.toBytes 1 ++ B256.toBytes 2] ∧
      frameTreeStrings [1, 2] [1, 1] = [B256.toBytes 1 ++ B256.toBytes 2] := by
  constructor <;>
    simp [frameTreeStrings, frames, merkleStrings, joinPairs, levelPairs, joinLevel, frameRoot,
      binaryMerkleRoot]

theorem injOn_one_two : Set.InjOn Keccak.keccak256
    (bodyStrings lengthEncoding [1, 2] [2] ∪ bodyStrings lengthEncoding [1, 2] [1, 1]) := by
  have hstrings : ∀ b ∈ bodyStrings lengthEncoding [1, 2] [2] ∪
      bodyStrings lengthEncoding [1, 2] [1, 1],
      b ∈ [B256.toBytes 1 ++ B256.toBytes 2, lengthEncoding 1, lengthEncoding 2] := by
    simp only [bodyStrings, frameTreeStrings_one_two.1, frameTreeStrings_one_two.2]
    rintro b ((hb | ⟨h, hh, rfl⟩) | (hb | ⟨h, hh, rfl⟩)) <;> simp_all <;>
      rcases hh with rfl | rfl <;> simp
  intro b hb c hc h
  have hb := hstrings b hb
  have hc := hstrings c hc
  simp only [mem_cons, not_mem_nil, or_false] at hb hc
  rcases hb with rfl | rfl | rfl <;> rcases hc with rfl | rfl | rfl <;>
    first | rfl | exact absurd h (by decide)

theorem frame_tree_fixes_body_sample :
    ∃ root, frameTreeRootOf [1, 2] [2] = some root ∧ frameTreeRootOf [1, 2] [1, 1] = some root ∧
      ([1, 2] : List B256) = [1, 2] := by
  have hroot : frameTreeRootOf [1, 2] [2] = some (pairHash 1 2) := by
    simp [frameTreeRootOf, checkedAdd, frames, frameTreeRoot, frameRoot, binaryMerkleRoot, joinAll,
      joinLevel]
  have hroot' : frameTreeRootOf [1, 2] [1, 1] = some (pairHash 1 2) := by
    simp [frameTreeRootOf, checkedAdd, frames, frameTreeRoot, frameRoot, binaryMerkleRoot, joinAll,
      joinLevel]
  refine ⟨pairHash 1 2, hroot, hroot', frame_tree_fixes_body lengthEncoding _ _ _ _ _ ?_ ?_
    injOn_one_two (by decide) (by decide) hroot hroot'⟩
  · intro h hh
    rw [or_self, mem_pair] at hh
    rcases hh with rfl | rfl
    · exact ⟨by decide, by decide⟩
    · exact ⟨by decide, by decide⟩
  · intro h hh
    rw [or_self] at hh
    exact notPair_one_two h hh

end N42.Tx
