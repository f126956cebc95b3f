import Mathlib.Data.List.Nodup
import Mathlib.Data.Set.Function

/-!
Roots by pairing, an odd last node with itself: the value fixes the tree where the combinations do
not collide and no leaf is one, and the tree fixes the leaves up to the repeats of odd levels.
-/

namespace Lib

open List

variable {α β : Type}

def joinLevel (combine : α → α → α) : List α → List α
  | [] => []
  | [last] => [combine last last]
  | left :: right :: rest => combine left right :: joinLevel combine rest

theorem length_joinLevel (combine : α → α → α) (level : List α) :
    (joinLevel combine level).length = (level.length + 1) / 2 := by
  induction level using joinLevel.induct with
  | case1 => simp [joinLevel]
  | case2 last => simp [joinLevel]
  | case3 left right rest ih =>
    rw [joinLevel, length_cons, length_cons, length_cons]
    omega

/-- Levels are paired until at most one node is left. -/
def joinAll (combine : α → α → α) (level : List α) : List α :=
  if 1 < level.length then joinAll combine (joinLevel combine level) else level
termination_by level.length
decreasing_by
  rw [length_joinLevel]
  omega

/-- What one level keeps is kept up to the root. -/
theorem joinAll_induction {combine : α → α → α} {motive : List α → List α → Prop}
    (stop : ∀ level, level.length ≤ 1 → motive level level)
    (step : ∀ level last, motive (joinLevel combine level) last → motive level last)
    (level : List α) : motive level (joinAll combine level) := by
  induction level using joinAll.induct combine with
  | case1 level hlong ih =>
    rw [joinAll, if_pos hlong]
    exact step level _ ih
  | case2 level hshort =>
    rw [joinAll, if_neg hshort]
    exact stop level (Nat.le_of_not_lt hshort)

theorem exists_joinAll (combine : α → α → α) {level : List α} (h : level ≠ []) :
    ∃ root, joinAll combine level = [root] := by
  have hone : level ≠ [] → (joinAll combine level).length = 1 := by
    apply joinAll_induction (motive := fun level last => level ≠ [] → last.length = 1)
    · intro level hshort hne
      have hpos := length_pos_iff.mpr hne
      omega
    · intro level last ih hne
      apply ih
      apply length_pos_iff.mp
      have hpos := length_pos_iff.mpr hne
      rw [length_joinLevel]
      omega
  exact length_eq_one_iff.mp (hone h)

section Map

variable {combine : α → α → α} {combine' : β → β → β} {f : α → β}

variable (hf : ∀ x y, f (combine x y) = combine' (f x) (f y))
include hf

theorem map_joinLevel (level : List α) :
    (joinLevel combine level).map f = joinLevel combine' (level.map f) := by
  induction level using joinLevel.induct with
  | case1 => rfl
  | case2 last => simp [joinLevel, hf]
  | case3 left right rest ih => simp [joinLevel, hf, ih]

theorem map_joinAll (level : List α) :
    (joinAll combine level).map f = joinAll combine' (level.map f) := by
  induction level using joinAll.induct combine with
  | case1 level hlong ih =>
    have hlong' : 1 < (level.map f).length := by rwa [length_map]
    rw [joinAll, if_pos hlong, joinAll.eq_def combine', if_pos hlong', ih, map_joinLevel hf]
  | case2 level hshort =>
    have hshort' : ¬ 1 < (level.map f).length := by rwa [length_map]
    rw [joinAll, if_neg hshort, joinAll, if_neg hshort']

end Map

def levelPairs : List α → List (α × α)
  | [] => []
  | [last] => [(last, last)]
  | left :: right :: rest => (left, right) :: levelPairs rest

def joinPairs (combine : α → α → α) (level : List α) : List (α × α) :=
  if 1 < level.length then levelPairs level ++ joinPairs combine (joinLevel combine level) else []
termination_by level.length
decreasing_by
  rw [length_joinLevel]
  omega

/-- A computation of a root. -/
inductive PairTree (α : Type) where
  | leaf (a : α)
  | node (left right : PairTree α)

namespace PairTree

def value (combine : α → α → α) : PairTree α → α
  | leaf a => a
  | node left right => combine (left.value combine) (right.value combine)

def leaves : PairTree α → List α
  | leaf a => [a]
  | node left right => left.leaves ++ right.leaves

def pairs (combine : α → α → α) : PairTree α → List (α × α)
  | leaf _ => []
  | node left right => (left.value combine, right.value combine) ::
      (left.pairs combine ++ right.pairs combine)

variable (combine : α → α → α)

variable (trees : List (PairTree α))

theorem map_value_joinAll :
    (joinAll node trees).map (value combine) = joinAll combine (trees.map (value combine)) :=
  map_joinAll (fun _ _ => rfl) trees

theorem map_value_leaf (level : List α) : (level.map leaf).map (value combine) = level := by
  induction level with
  | nil => rfl
  | cons a level ih => simpa [value] using ih

theorem flatMap_leaves_leaf (level : List α) : (level.map leaf).flatMap leaves = level := by
  induction level with
  | nil => rfl
  | cons a level ih => simpa [leaves] using ih

theorem eq_of_value_eq {combine : α → α → α} {s t : PairTree α}
    (hinj : Set.InjOn (fun p : α × α => combine p.1 p.2)
      {p | p ∈ s.pairs combine ∨ p ∈ t.pairs combine})
    (hleaf : ∀ a, a ∈ s.leaves ∨ a ∈ t.leaves → ∀ x y, combine x y ≠ a)
    (h : s.value combine = t.value combine) : s = t := by
  induction s generalizing t with
  | leaf a =>
    cases t with
    | leaf b => exact congrArg leaf h
    | node left right => exact absurd h.symm (hleaf a (Or.inl (by simp [leaves])) _ _)
  | node left right ihl ihr =>
    cases t with
    | leaf b => exact absurd h (hleaf b (Or.inr (by simp [leaves])) _ _)
    | node left' right' =>
      have hpair := hinj (Or.inl mem_cons_self) (Or.inr mem_cons_self) h
      obtain ⟨hl, hr⟩ := Prod.mk.inj hpair
      have hleft : left = left' := by
        apply ihl _ _ hl
        · exact hinj.mono (by rintro p (hp | hp) <;> simp [pairs, hp])
        · rintro a (ha | ha)
          · exact hleaf a (Or.inl (mem_append_left _ ha))
          · exact hleaf a (Or.inr (mem_append_left _ ha))
      have hright : right = right' := by
        apply ihr _ _ hr
        · exact hinj.mono (by rintro p (hp | hp) <;> simp [pairs, hp])
        · rintro a (ha | ha)
          · exact hleaf a (Or.inl (mem_append_right _ ha))
          · exact hleaf a (Or.inr (mem_append_right _ ha))
      rw [hleft, hright]

theorem pairs_joinLevel : ∀ t ∈ joinLevel node trees, ∀ p ∈ t.pairs combine,
      p ∈ levelPairs (trees.map (value combine)) ∨ ∃ s ∈ trees, p ∈ s.pairs combine := by
  induction trees using joinLevel.induct with
  | case1 =>
    intro t ht
    cases ht
  | case2 last =>
    intro t ht p hp
    obtain rfl := mem_singleton.mp ht
    simp only [pairs, mem_cons, mem_append, or_self] at hp
    rcases hp with rfl | hp
    · exact Or.inl mem_cons_self
    · exact Or.inr ⟨last, mem_cons_self, hp⟩
  | case3 left right rest ih =>
    intro t ht p hp
    rcases mem_cons.mp ht with rfl | ht
    · simp only [pairs, mem_cons, mem_append] at hp
      rcases hp with rfl | hp | hp
      · exact Or.inl mem_cons_self
      · exact Or.inr ⟨left, by simp, hp⟩
      · exact Or.inr ⟨right, by simp, hp⟩
    · rcases ih t ht p hp with hlevel | ⟨s, hs, hp⟩
      · exact Or.inl (mem_cons_of_mem _ hlevel)
      · exact Or.inr ⟨s, by simp [hs], hp⟩

theorem pairs_joinAll : ∀ t ∈ joinAll node trees, ∀ p ∈ t.pairs combine,
      p ∈ joinPairs combine (trees.map (value combine)) ∨ ∃ s ∈ trees, p ∈ s.pairs combine := by
  induction trees using joinAll.induct node with
  | case1 trees hlong ih =>
    intro t ht p hp
    rw [joinAll, if_pos hlong] at ht
    rw [joinPairs, if_pos (by rwa [length_map]), mem_append]
    rcases ih t ht p hp with hclimb | ⟨s, hs, hp⟩
    · rw [map_joinLevel (fun _ _ => rfl)] at hclimb
      exact Or.inl (Or.inr hclimb)
    · rcases pairs_joinLevel combine trees s hs p hp with hlevel | hold
      · exact Or.inl (Or.inl hlevel)
      · exact Or.inr hold
  | case2 trees hshort =>
    intro t ht p hp
    rw [joinAll, if_neg hshort] at ht
    exact Or.inr ⟨t, ht, hp⟩

end PairTree

section Note

variable [DecidableEq α]

/-- The entries of a list in the order they first occur, behind those noted before. -/
def note (noted : List α) (entries : List α) : List α :=
  entries.foldl (fun noted a => if a ∈ noted then noted else noted ++ [a]) noted

theorem note_append (noted xs ys : List α) : note noted (xs ++ ys) = note (note noted xs) ys :=
  foldl_append

variable {noted entries : List α}

theorem mem_note {a : α} : a ∈ note noted entries ↔ a ∈ noted ∨ a ∈ entries := by
  induction entries generalizing noted with
  | nil => simp [note]
  | cons b entries ih =>
    rw [note, foldl_cons, ← note, ih]
    split
    case isTrue hb =>
      rw [mem_cons]
      constructor
      · rintro (h | h)
        · exact Or.inl h
        · exact Or.inr (Or.inr h)
      · rintro (h | rfl | h)
        · exact Or.inl h
        · exact Or.inl hb
        · exact Or.inr h
    case isFalse => simp [or_assoc]

theorem note_of_subset (h : entries ⊆ noted) : note noted entries = noted := by
  induction entries with
  | nil => rfl
  | cons a entries ih =>
    rw [note, foldl_cons, if_pos (h mem_cons_self)]
    exact ih (subset_of_cons_subset h)

theorem note_append_self (noted xs : List α) : note noted (xs ++ xs) = note noted xs := by
  rw [note_append]
  apply note_of_subset
  intro a ha
  exact mem_note.mpr (Or.inr ha)

theorem nodup_note {noted : List α} (h : noted.Nodup) (entries : List α) :
    (note noted entries).Nodup := by
  induction entries generalizing noted with
  | nil => exact h
  | cons a entries ih =>
    rw [note, foldl_cons]
    split
    case isTrue => exact ih h
    case isFalse ha =>
      apply ih
      exact h.append (nodup_singleton a) (disjoint_singleton.mpr ha)

theorem note_of_nodup (h : (noted ++ entries).Nodup) : note noted entries = noted ++ entries := by
  induction entries generalizing noted with
  | nil => simp [note]
  | cons a entries ih =>
    have hnew : a ∉ noted := by
      intro ha
      exact disjoint_of_nodup_append h ha mem_cons_self
    rw [note, foldl_cons, if_neg hnew, ← note, ih]
    · simp
    · simpa using h

namespace PairTree

variable (noted : List α) (trees : List (PairTree α))

theorem note_joinLevel :
    note noted ((joinLevel node trees).flatMap leaves) = note noted (trees.flatMap leaves) := by
  induction trees using joinLevel.induct generalizing noted with
  | case1 => rfl
  | case2 last => simpa [joinLevel, leaves] using note_append_self noted last.leaves
  | case3 left right rest ih =>
    simp only [joinLevel, flatMap_cons, leaves]
    rw [← append_assoc left.leaves, note_append, note_append _ _ (rest.flatMap leaves), ih]

theorem note_joinAll :
    note noted ((joinAll node trees).flatMap leaves) = note noted (trees.flatMap leaves) := by
  apply joinAll_induction
    (motive := fun level last =>
      note noted (last.flatMap leaves) = note noted (level.flatMap leaves))
  · intro level hshort
    rfl
  · intro level last ih
    rw [ih, note_joinLevel]

end PairTree

end Note

end Lib
