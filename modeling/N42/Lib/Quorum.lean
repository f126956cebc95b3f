import Mathlib.Data.Finset.Card

/-!
Quorums over bitmaps: which positions a bitmap selects, and the two counting facts that
make quorums useful when some positions are faulty.
-/

namespace Lib

open List

variable (bits : List Bool)

def members : Finset ℕ :=
  (Finset.range bits.length).filter fun i => bits[i]? = some true

@[simp] theorem mem_members {bits : List Bool} {i : ℕ} :
    i ∈ members bits ↔ bits[i]? = some true := by
  simp only [members, Finset.mem_filter, Finset.mem_range, and_iff_right_iff_imp]
  intro h
  exact (List.getElem?_eq_some_iff.mp h).1

theorem members_subset_range : members bits ⊆ Finset.range bits.length :=
  Finset.filter_subset _ _

theorem members_append_singleton (b : Bool) :
    members (bits ++ [b]) = if b then insert bits.length (members bits) else members bits := by
  ext i
  rcases lt_trichotomy i bits.length with hi | rfl | hi
  · cases b <;> simp [getElem?_append_left hi, hi.ne]
  · cases b <;> simp
  · have hout : (bits ++ [b])[i]? = none := by
      rw [getElem?_eq_none_iff, length_append, length_singleton]
      omega
    have hout' : bits[i]? = none := getElem?_eq_none hi.le
    cases b <;> simp [hout, hout', hi.ne']

theorem card_members : (members bits).card = bits.count true := by
  induction bits using List.reverseRecOn with
  | nil => rfl
  | append_singleton bits b ih =>
    have hnew : bits.length ∉ members bits := by simp
    rw [members_append_singleton, count_append]
    cases b with
    | false => simpa using ih
    | true =>
      rw [if_pos rfl, Finset.card_insert_of_notMem hnew, ih]
      rfl

theorem length_le_count_range {n : ℕ} {p : ℕ → Bool} {keys : List ℕ} (hnodup : keys.Nodup)
    (hlt : ∀ k ∈ keys, k < n) (hp : ∀ k ∈ keys, p k = true) :
    keys.length ≤ ((List.range n).map p).count true := by
  have hsub : keys ⊆ (List.range n).filter p := by
    intro k hk
    exact mem_filter.mpr ⟨mem_range.mpr (hlt k hk), hp k hk⟩
  have hle := (hnodup.subperm hsub).length_le
  have hcount : ((List.range n).map p).count true = ((List.range n).filter p).length := by
    rw [count_eq_countP, countP_map, countP_eq_length_filter]
    congr 2
    funext i
    simp
  omega

/-- Two sets that together exceed the universe by more than the faulty positions share
a position that is not faulty. -/
theorem exists_common_notMem {α : Type} [DecidableEq α] {all A B : Finset α} (faulty : Finset α)
    (hA : A ⊆ all) (hB : B ⊆ all) (hlarge : all.card + faulty.card < A.card + B.card) :
    ∃ i, i ∈ A ∧ i ∈ B ∧ i ∉ faulty := by
  have hunion : (A ∪ B).card ≤ all.card := Finset.card_le_card (Finset.union_subset hA hB)
  have hsum := Finset.card_union_add_card_inter A B
  obtain ⟨i, hi, hfaulty⟩ :=
    Finset.exists_mem_notMem_of_card_lt_card (by omega : faulty.card < (A ∩ B).card)
  exact ⟨i, (Finset.mem_inter.mp hi).1, (Finset.mem_inter.mp hi).2, hfaulty⟩

end Lib
