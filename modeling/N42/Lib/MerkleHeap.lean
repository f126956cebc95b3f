import Mathlib.Data.List.Destutter
import Mathlib.Data.Nat.Bitwise
import Mathlib.Data.Nat.Log
import Mathlib.Tactic.Linarith
import Mathlib.Tactic.Ring

/-!
Binary trees of digests stored as heaps: node 1 is the root, the children of node `j` are `2 * j`
and `2 * j + 1`, and the leaves of a tree of capacity `cap` are the nodes from `cap` on.
-/

namespace Lib

open List Function

namespace MerkleHeap

variable {α : Type*} (node : α → α → α)

def FoldedAt (nodes : ℕ → α) (j : ℕ) : Prop :=
  nodes j = node (nodes (2 * j)) (nodes (2 * j + 1))

/-- Every inner node below `cap` is the hash of its children. -/
def Folded (cap : ℕ) (nodes : ℕ → α) : Prop :=
  ∀ j, 1 ≤ j → j < cap → FoldedAt node nodes j

/-- Every inner node below `cap` with no child in `stale` is the hash of its children. -/
def FoldedBut (cap : ℕ) (stale : ℕ → Prop) (nodes : ℕ → α) : Prop :=
  ∀ j, 1 ≤ j → j < cap → ¬ stale (2 * j) → ¬ stale (2 * j + 1) → FoldedAt node nodes j

def refresh (nodes : ℕ → α) (j : ℕ) : ℕ → α :=
  Function.update nodes j (node (nodes (2 * j)) (nodes (2 * j + 1)))

def refreshAll (js : List ℕ) (nodes : ℕ → α) : ℕ → α :=
  js.foldl (refresh node) nodes

section Stale

variable {node} {cap : ℕ} {stale : ℕ → Prop} {nodes : ℕ → α}

theorem Folded.but (h : Folded node cap nodes) : FoldedBut node cap stale nodes :=
  fun j hj hcap _ _ => h j hj hcap

theorem FoldedBut.mono {stale' : ℕ → Prop} (h : FoldedBut node cap stale nodes)
    (hsub : ∀ d, stale d → stale' d) : FoldedBut node cap stale' nodes :=
  fun j hj hcap hleft hright =>
    h j hj hcap (fun hd => hleft (hsub _ hd)) (fun hd => hright (hsub _ hd))

/-- The root is nobody's child, so a stale root leaves nothing to repair. -/
theorem FoldedBut.folded (h : FoldedBut node cap stale nodes) (hroot : ∀ d, stale d → d ≤ 1) :
    Folded node cap nodes := by
  intro j hj hcap
  apply h j hj hcap
  · intro hd
    have := hroot _ hd
    omega
  · intro hd
    have := hroot _ hd
    omega

theorem foldedBut_all (cap : ℕ) (nodes : ℕ → α) :
    FoldedBut node cap (fun d => d < 2 * cap) nodes := by
  intro j _ hcap hleft _
  exact absurd (by omega) hleft

theorem FoldedBut.writeLeaf (h : FoldedBut node cap stale nodes) {leaf : ℕ} (hleaf : cap ≤ leaf)
    (digest : α) :
    FoldedBut node cap (fun d => stale d ∨ d = leaf) (Function.update nodes leaf digest) := by
  intro j hj hcap hleft hright
  have hself : j ≠ leaf := by omega
  have hl : 2 * j ≠ leaf := fun he => hleft (.inr he)
  have hr : 2 * j + 1 ≠ leaf := fun he => hright (.inr he)
  simp only [FoldedAt, update_of_ne hself, update_of_ne hl,
    update_of_ne hr]
  exact h j hj hcap (fun hd => hleft (.inl hd)) (fun hd => hright (.inl hd))

/-- Recomputing `p` clears its children from the stale set and puts `p` in it. -/
theorem FoldedBut.refresh (h : FoldedBut node cap stale nodes) {p : ℕ} (hp : 1 ≤ p) :
    FoldedBut node cap (fun d => (stale d ∧ d / 2 ≠ p) ∨ d = p)
      (MerkleHeap.refresh node nodes p) := by
  intro j hj hcap hleft hright
  have hl : 2 * j ≠ p := fun he => hleft (.inr he)
  have hr : 2 * j + 1 ≠ p := fun he => hright (.inr he)
  simp only [FoldedAt, MerkleHeap.refresh, update_of_ne hl, update_of_ne hr]
  by_cases hself : j = p
  · subst hself
    rw [update_self]
  · rw [update_of_ne hself]
    apply h j hj hcap
    · exact fun hd => hleft (.inl ⟨hd, by omega⟩)
    · exact fun hd => hright (.inl ⟨hd, by omega⟩)

@[simp] theorem refreshAll_cons (j : ℕ) (js : List ℕ) :
    refreshAll node (j :: js) nodes = refreshAll node js (refresh node nodes j) := rfl

theorem refreshAll_of_notMem {js : List ℕ} {k : ℕ} (hk : k ∉ js) :
    refreshAll node js nodes k = nodes k := by
  induction js generalizing nodes with
  | nil => rfl
  | cons j js ih =>
    obtain ⟨hne, htail⟩ := ne_and_not_mem_of_not_mem_cons hk
    rw [refreshAll_cons, ih htail, refresh, update_of_ne hne]

/-- Recomputing a list that holds every stale node's parent leaves at most that list
stale. The order does not matter here: each recomputed node is itself stale for its parent. -/
theorem FoldedBut.refreshAll (h : FoldedBut node cap stale nodes) {js : List ℕ}
    (hparents : ∀ d, stale d → d / 2 ∈ js) (hpos : ∀ j ∈ js, 1 ≤ j) :
    FoldedBut node cap (· ∈ js) (MerkleHeap.refreshAll node js nodes) := by
  suffices hgen : ∀ (todo : List ℕ) (stale : ℕ → Prop) (nodes : ℕ → α),
      FoldedBut node cap stale nodes → (∀ j ∈ todo, j ∈ js) →
      (∀ d, stale d → d / 2 ∈ todo ∨ d ∈ js) →
      FoldedBut node cap (· ∈ js) (MerkleHeap.refreshAll node todo nodes) from
    hgen js stale nodes h (fun _ hj => hj) (fun d hd => .inl (hparents d hd))
  intro todo
  induction todo with
  | nil =>
    intro stale nodes h _ hstale
    exact h.mono fun d hd => (hstale d hd).resolve_left (by simp)
  | cons p todo ih =>
    intro stale nodes h hsub hstale
    have hp : p ∈ js := hsub p (by simp)
    refine ih _ _ (h.refresh (hpos p hp)) (fun j hj => hsub j (by simp [hj])) ?_
    rintro d (⟨hd, hne⟩ | rfl)
    · rcases hstale d hd with hmem | hmem
      · exact .inl ((mem_cons.mp hmem).resolve_left hne)
      · exact .inr hmem
    · exact .inr hp

end Stale

/-- `for j in (1..=n).rev()`: recompute the nodes `n, …, 1`. -/
def refreshDown : ℕ → (ℕ → α) → ℕ → α
  | 0, nodes => nodes
  | n + 1, nodes => refreshDown n (refresh node nodes (n + 1))

/-- The distinct parents of a sorted level. -/
def parents (level : List ℕ) : List ℕ :=
  (level.map (· / 2)).destutter (· ≠ ·)

/-- Recompute the ancestors of a sorted level, one level at a time, until the level is
the root. The first argument bounds the number of levels. -/
def foldUp : ℕ → List ℕ → (ℕ → α) → ℕ → α
  | 0, _, nodes => nodes
  | fuel + 1, level, nodes =>
    if level.headD 0 > 1 then
      foldUp fuel (parents level) (refreshAll node (parents level) nodes)
    else nodes

/-- Recompute whole levels bottom up: `start..2 * start`, then half of it, down to the
root. -/
def foldLevels : ℕ → ℕ → (ℕ → α) → ℕ → α
  | 0, _, nodes => nodes
  | fuel + 1, start, nodes =>
    if start ≥ 1 then
      foldLevels fuel (start / 2) (refreshAll node (List.range' start start) nodes)
    else nodes

section Loops

variable {node} {cap : ℕ} {stale : ℕ → Prop} {nodes : ℕ → α}

theorem refreshDown_of_lt {n k : ℕ} (hk : n < k) : refreshDown node n nodes k = nodes k := by
  induction n generalizing nodes with
  | zero => rfl
  | succ n ih => rw [refreshDown, ih (by omega), refresh, update_of_ne (by omega)]

/-- The descending pass reaches every parent after its children. -/
theorem FoldedBut.refreshDown {n : ℕ} (h : FoldedBut node cap stale nodes)
    (hstale : ∀ d, stale d → d / 2 ≤ n) :
    Folded node cap (MerkleHeap.refreshDown node n nodes) := by
  induction n generalizing nodes stale with
  | zero =>
    apply h.folded
    intro d hd
    have := hstale d hd
    omega
  | succ n ih =>
    apply ih (h.refresh (by omega))
    rintro d (⟨hd, hne⟩ | rfl)
    · have := hstale d hd
      omega
    · omega

/-- A descending pass over all inner nodes makes any heap a folded one. -/
theorem folded_refreshDown (cap : ℕ) (nodes : ℕ → α) :
    Folded node cap (refreshDown node (cap - 1) nodes) := by
  apply (foldedBut_all cap nodes).refreshDown
  omega

theorem mem_destutter' {β : Type*} [DecidableEq β] (a : β) (l : List β) {x : β}
    (hx : x = a ∨ x ∈ l) : x ∈ l.destutter' (· ≠ ·) a := by
  induction l generalizing a with
  | nil => simpa using hx
  | cons b l ih =>
    rw [destutter'_cons]
    split_ifs with hne
    · rcases hx with rfl | hx
      · exact mem_cons_self
      · exact mem_cons_of_mem _ (ih b (by simpa using hx))
    · have hab : a = b := not_not.mp hne
      apply ih a
      rcases hx with rfl | hx
      · exact .inl rfl
      · rcases mem_cons.mp hx with rfl | hx
        · exact .inl hab.symm
        · exact .inr hx

theorem mem_destutter {β : Type*} [DecidableEq β] {l : List β} {x : β} :
    x ∈ l.destutter (· ≠ ·) ↔ x ∈ l := by
  constructor
  · exact fun hx => (destutter_sublist (R := (· ≠ ·)) l).subset hx
  · intro hx
    cases l with
    | nil => exact hx
    | cons a l =>
      exact mem_destutter' a l (by simpa using hx)

variable {level : List ℕ}

theorem mem_parents {p : ℕ} : p ∈ parents level ↔ ∃ d ∈ level, d / 2 = p := by
  rw [parents, mem_destutter, mem_map]

/-- The level of a heap that holds the nodes from `2 ^ h` to `2 ^ (h + 1) - 1`. -/
def OnLevel (h : ℕ) (level : List ℕ) : Prop := ∀ d ∈ level, 2 ^ h ≤ d ∧ d < 2 ^ (h + 1)

variable {h fuel : ℕ}

theorem OnLevel.parents (hlevel : OnLevel (h + 1) level) :
    OnLevel h (MerkleHeap.parents level) := by
  intro p hp
  obtain ⟨d, hd, rfl⟩ := mem_parents.mp hp
  have hd := hlevel d hd
  omega

theorem OnLevel.pos (hlevel : OnLevel h level) {d : ℕ} (hd : d ∈ level) : 1 ≤ d :=
  Nat.one_le_two_pow.trans (hlevel d hd).1

theorem FoldedBut.foldUp (hlevel : OnLevel h level) (hfuel : h ≤ fuel)
    (hf : FoldedBut node cap (· ∈ level) nodes) :
    Folded node cap (MerkleHeap.foldUp node fuel level nodes) := by
  induction h generalizing fuel level nodes with
  | zero =>
    have hone : ∀ d ∈ level, d ≤ 1 := fun d hd => by
      have := (hlevel d hd).2
      omega
    have hstop : ¬ level.headD 0 > 1 := by
      cases level with
      | nil => simp
      | cons d level => simpa using hone d mem_cons_self
    have hfold : MerkleHeap.foldUp node fuel level nodes = nodes := by
      cases fuel <;> simp only [MerkleHeap.foldUp, if_neg hstop]
    rw [hfold]
    exact hf.folded hone
  | succ h ih =>
    obtain ⟨fuel, rfl⟩ : ∃ f, fuel = f + 1 := ⟨fuel - 1, by omega⟩
    rw [MerkleHeap.foldUp]
    split_ifs with hgo
    · apply ih hlevel.parents (by omega)
      exact hf.refreshAll (fun d hd => mem_parents.mpr ⟨d, hd, rfl⟩)
        (fun p hp => hlevel.parents.pos hp)
    · -- only the empty level stops above the root
      cases level with
      | nil => exact hf.folded (by simp)
      | cons d level =>
        have hd := (hlevel d mem_cons_self).1
        have : 2 ≤ 2 ^ (h + 1) := Nat.le_self_pow (by omega) 2
        simp only [headD_cons] at hgo
        omega

theorem foldUp_of_le {k : ℕ} (hlevel : OnLevel h level) (hk : 2 ^ h ≤ k) :
    foldUp node fuel level nodes k = nodes k := by
  induction fuel generalizing h level nodes with
  | zero => rfl
  | succ fuel ih =>
    rw [foldUp]
    split_ifs with hgo
    · cases h with
      | zero =>
        cases level with
        | nil => simp at hgo
        | cons d level =>
          have := (hlevel d mem_cons_self).2
          simp only [headD_cons] at hgo
          omega
      | succ h =>
        have hlow : 2 ^ h ≤ k := le_trans (Nat.pow_le_pow_right (by omega) (by omega)) hk
        rw [ih hlevel.parents hlow]
        apply refreshAll_of_notMem
        intro hmem
        have := (hlevel.parents k hmem).2
        omega
    · rfl

theorem FoldedBut.foldLevels (hfuel : h < fuel)
    (hf : FoldedBut node cap (fun d => 2 ^ (h + 1) ≤ d ∧ d < 2 ^ (h + 2)) nodes) :
    Folded node cap (MerkleHeap.foldLevels node fuel (2 ^ h) nodes) := by
  induction h generalizing fuel nodes with
  | zero =>
    obtain ⟨fuel, rfl⟩ : ∃ f, fuel = f + 1 := ⟨fuel - 1, by omega⟩
    have hone : MerkleHeap.foldLevels node (fuel + 1) (2 ^ 0) nodes =
        MerkleHeap.refreshAll node [1] nodes := by
      cases fuel <;> simp [MerkleHeap.foldLevels]
    rw [hone]
    apply (hf.refreshAll ?_ (by simp)).folded (by simp)
    intro d hd
    have : d / 2 = 1 := by omega
    simp [this]
  | succ h ih =>
    obtain ⟨fuel, rfl⟩ : ∃ f, fuel = f + 1 := ⟨fuel - 1, by omega⟩
    have hpow' : 2 ^ (h + 2) = 2 ^ (h + 1) * 2 := pow_succ _ _
    have hpow'' : 2 ^ (h + 1 + 2) = 2 ^ (h + 2) * 2 := pow_succ _ _
    have hone : 1 ≤ 2 ^ h := Nat.one_le_two_pow
    rw [MerkleHeap.foldLevels, if_pos (by omega), show 2 ^ (h + 1) / 2 = 2 ^ h by omega]
    apply ih (by omega)
    refine (hf.refreshAll ?_ ?_).mono ?_
    · rintro d ⟨hd, hd'⟩
      rw [mem_range'_1]
      omega
    · intro j hj
      rw [mem_range'_1] at hj
      omega
    · intro d hd
      rw [mem_range'_1] at hd
      omega

theorem foldLevels_of_le {start k : ℕ} (hk : 2 * start ≤ k) :
    foldLevels node fuel start nodes k = nodes k := by
  induction fuel generalizing start nodes with
  | zero => rfl
  | succ fuel ih =>
    rw [foldLevels]
    split_ifs with hgo
    · rw [ih (by omega)]
      apply refreshAll_of_notMem
      rw [mem_range'_1]
      omega
    · rfl

end Loops

/-- The root of the perfect subtree of height `h` whose leaves are `leaf (2 ^ h * i)` and
the `2 ^ h - 1` that follow. -/
def subtree (leaf : ℕ → α) : ℕ → ℕ → α
  | 0, i => leaf i
  | h + 1, i => node (subtree leaf h (2 * i)) (subtree leaf h (2 * i + 1))

/-- The root of the perfect tree of height `h` over `leaf 0, …, leaf (2 ^ h - 1)`. -/
def merkleRoot (leaf : ℕ → α) (h : ℕ) : α := subtree node leaf h 0

section Content

variable {node} {nodes : ℕ → α} {leaf : ℕ → α}

/-- The leaves of a heap of capacity `2 ^ H`. -/
def HasLeaves (H : ℕ) (leaf nodes : ℕ → α) : Prop := ∀ i < 2 ^ H, nodes (2 ^ H + i) = leaf i

theorem Folded.eq_subtree {H : ℕ} (hf : Folded node (2 ^ H) nodes) (hl : HasLeaves H leaf nodes)
    {h k i : ℕ} (hsum : k + h = H) (hi : i < 2 ^ k) :
    nodes (2 ^ k + i) = subtree node leaf h i := by
  induction h generalizing k i with
  | zero =>
    obtain rfl : k = H := by omega
    exact hl i hi
  | succ h ih =>
    have hcap : 2 ^ (k + 1) ≤ 2 ^ H := Nat.pow_le_pow_right (by omega) (by omega)
    calc nodes (2 ^ k + i)
        = node (nodes (2 * (2 ^ k + i))) (nodes (2 * (2 ^ k + i) + 1)) :=
          hf _ (by omega) (by omega)
      _ = node (nodes (2 ^ (k + 1) + 2 * i)) (nodes (2 ^ (k + 1) + (2 * i + 1))) := by
          rw [show 2 * (2 ^ k + i) = 2 ^ (k + 1) + 2 * i by omega]
          rfl
      _ = subtree node leaf (h + 1) i := by
          rw [ih (k := k + 1) (i := 2 * i) (by omega) (by omega),
            ih (k := k + 1) (i := 2 * i + 1) (by omega) (by omega)]
          rfl

theorem Folded.root_eq {H : ℕ} (hf : Folded node (2 ^ H) nodes) (hl : HasLeaves H leaf nodes) :
    nodes 1 = merkleRoot node leaf H := by
  have h := hf.eq_subtree hl (h := H) (k := 0) (i := 0) (by omega) (by simp)
  simpa [merkleRoot] using h

/-- The lowest level of a subtree can be folded first. -/
theorem subtree_succ (h i : ℕ) : subtree node leaf (h + 1) i =
    subtree node (fun s => node (leaf (2 * s)) (leaf (2 * s + 1))) h i := by
  induction h generalizing i with
  | zero => rfl
  | succ h ih =>
    rw [subtree, ih, ih]
    rfl

theorem subtree_congr {leaf' : ℕ → α} {h i : ℕ}
    (hleaf : ∀ s, 2 ^ h * i ≤ s → s < 2 ^ h * (i + 1) → leaf s = leaf' s) :
    subtree node leaf h i = subtree node leaf' h i := by
  induction h generalizing i with
  | zero => exact hleaf i (by simp) (by simp)
  | succ h ih =>
    have hpow : 2 ^ (h + 1) = 2 ^ h * 2 := pow_succ _ _
    rw [subtree]
    congr 1
    · apply ih
      intro s hs hs'
      apply hleaf s <;> rw [hpow] <;> linarith
    · apply ih
      intro s hs hs'
      apply hleaf s <;> rw [hpow] <;> linarith

end Content

def siblings (nodes : ℕ → α) : ℕ → ℕ → List α
  | 0, _ => []
  | n + 1, j => nodes (j ^^^ 1) :: siblings nodes n (j / 2)

/-- Fold a digest up a path of siblings; the bits of `index`, lowest first, say on which
side the running digest stands. -/
def climb : α → ℕ → List α → α
  | digest, _, [] => digest
  | digest, index, sibling :: path =>
    climb (if index % 2 = 0 then node digest sibling else node sibling digest) (index / 2) path

section Paths

variable {node} {nodes : ℕ → α}

@[simp] theorem siblings_length (n j : ℕ) : (siblings nodes n j).length = n := by
  induction n generalizing j with
  | zero => rfl
  | succ n ih => simp [siblings, ih]

theorem Folded.climb_siblings {H n j index : ℕ} (hf : Folded node (2 ^ H) nodes)
    (hlow : 2 ^ n ≤ j) (hhigh : j < 2 ^ (H + 1)) (hindex : index % 2 ^ n = j % 2 ^ n) :
    climb node (nodes j) index (siblings nodes n j) = nodes (j / 2 ^ n) := by
  induction n generalizing j index with
  | zero => simp [siblings, climb]
  | succ n ih =>
    have hpow : 2 ^ (n + 1) = 2 * 2 ^ n := pow_succ' _ _
    have hparity : index % 2 = j % 2 := by
      have h := congrArg (· % 2) hindex
      simpa [hpow, Nat.mod_mul_right_mod] using h
    have hrest : index / 2 % 2 ^ n = j / 2 % 2 ^ n := by
      have h := congrArg (· / 2) hindex
      simpa [hpow, Nat.mod_mul_right_div_self] using h
    have hfold := hf (j / 2) (by omega) (by omega)
    have hstep : (if index % 2 = 0 then node (nodes j) (nodes (j ^^^ 1))
        else node (nodes (j ^^^ 1)) (nodes j)) = nodes (j / 2) := by
      rcases Nat.mod_two_eq_zero_or_one j with heven | hodd
      · have hsib : j ^^^ 1 = j + 1 := by
          rw [Nat.xor_one_of_even (Nat.even_iff.mpr heven)]
        rw [if_pos (by omega), hsib, hfold, show 2 * (j / 2) = j by omega]
      · have hsib : j ^^^ 1 = j - 1 := by
          rw [Nat.xor_one_of_odd (Nat.odd_iff.mpr hodd)]
        rw [if_neg (by omega), hsib, hfold, show 2 * (j / 2) = j - 1 by omega,
          show j - 1 + 1 = j by omega]
    rw [siblings, climb, hstep, ih (by omega) (by omega) hrest, Nat.div_div_eq_div_mul, hpow]

theorem log2_leaf {H i : ℕ} (hi : i < 2 ^ H) : Nat.log2 (2 ^ H + i) = H := by
  rw [Nat.log2_eq_iff (by omega)]
  omega

theorem Folded.climb_leaf {H i : ℕ} (hf : Folded node (2 ^ H) nodes) (hi : i < 2 ^ H) :
    climb node (nodes (2 ^ H + i)) i (siblings nodes H (2 ^ H + i)) = nodes 1 := by
  have hpos : 0 < 2 ^ H := Nat.two_pow_pos H
  rw [hf.climb_siblings (by omega) (by omega) (by rw [Nat.add_mod_left]),
    Nat.add_div_left _ hpos, Nat.div_eq_of_lt hi]

end Paths

end MerkleHeap

end Lib
