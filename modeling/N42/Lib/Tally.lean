import Mathlib.Algebra.BigOperators.Intervals

/-!
Sums over the entries of a journal, grouped by the key an entry carries, and over a table that
grows and is written to.
-/

namespace Lib

open Finset Function

variable {α ρ : Type}

theorem sum_eq_sum_keys (journal : List α) (key weight : α → ℕ) {n : ℕ}
    (hkey : ∀ entry ∈ journal, key entry < n) :
    (journal.map weight).sum =
      ∑ k ∈ range n, ((journal.filter fun entry => key entry = k).map weight).sum := by
  induction journal with
  | nil => simp
  | cons entry journal ih =>
    have hhead : key entry < n := hkey entry List.mem_cons_self
    have hsplit : ∀ k, (((entry :: journal).filter fun entry => key entry = k).map weight).sum =
        (if key entry = k then weight entry else 0) +
          ((journal.filter fun entry => key entry = k).map weight).sum := by
      intro k
      by_cases hk : key entry = k <;> simp [hk]
    simp only [hsplit, sum_add_distrib, sum_ite_eq, mem_range, if_pos hhead, List.map_cons,
      List.sum_cons]
    rw [ih fun other hother => hkey other (List.mem_cons_of_mem entry hother)]

variable (table : ℕ → ρ) (weight : ρ → ℕ)

theorem sum_range_update {n k : ℕ} (hk : k < n) (value : ρ) :
    (∑ i ∈ range n, weight (Function.update table k value i)) + weight (table k) =
      (∑ i ∈ range n, weight (table i)) + weight value := by
  have hmem : k ∈ range n := mem_range.mpr hk
  rw [← add_sum_erase _ _ hmem, ← add_sum_erase (range n) (fun i => weight (table i)) hmem]
  have hrest : ∑ i ∈ (range n).erase k, weight (Function.update table k value i) =
      ∑ i ∈ (range n).erase k, weight (table i) := by
    apply sum_congr rfl
    intro i hi
    rw [update_of_ne (ne_of_mem_erase hi)]
  rw [update_self]
  omega

theorem sum_range_succ_update (n : ℕ) (value : ρ) :
    ∑ i ∈ range (n + 1), weight (Function.update table n value i) =
      (∑ i ∈ range n, weight (table i)) + weight value := by
  rw [sum_range_succ, update_self]
  congr 1
  apply sum_congr rfl
  intro i hi
  rw [update_of_ne (ne_of_lt (mem_range.mp hi))]

end Lib
