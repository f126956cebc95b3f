import Mathlib.Logic.Equiv.Basic
import Mathlib.Data.List.Nodup

/-!
The Fisher–Yates shuffle of the positions below `n`, step `i` of which exchanges position `i` with
position `draw i`: on an explicit list, and on a map that only holds the positions it has touched.
-/

namespace Lib.FisherYates

open List

def Draws (n : ℕ) (draw : ℕ → ℕ) : Prop := ∀ i < n, i ≤ draw i ∧ draw i < n

section Arrangement

variable (draw : ℕ → ℕ)

def arrangement : ℕ → Equiv.Perm ℕ
  | 0 => Equiv.refl ℕ
  | i + 1 => (Equiv.swap i (draw i)).trans (arrangement i)

theorem arrangement_succ (i p : ℕ) :
    arrangement draw (i + 1) p = arrangement draw i (Equiv.swap i (draw i) p) := rfl

variable {draw} {n : ℕ}

/-- No step after step `i` touches position `i`. -/
theorem arrangement_settled (hdraw : Draws n draw) {i k : ℕ} (hik : i < k) (hk : k ≤ n) :
    arrangement draw k i = arrangement draw (i + 1) i := by
  induction k with
  | zero => omega
  | succ k ih =>
    rcases Nat.lt_succ_iff_lt_or_eq.mp hik with hlt | rfl
    · have hfix : Equiv.swap k (draw k) i = i := by
        have hle := (hdraw k hk).1
        exact Equiv.swap_apply_of_ne_of_ne (by omega) (by omega)
      rw [arrangement_succ, hfix, ih hlt (by omega)]
    · rfl

theorem arrangement_lt (hdraw : Draws n draw) {k p : ℕ} (hk : k ≤ n) (hp : p < n) :
    arrangement draw k p < n := by
  induction k generalizing p with
  | zero => exact hp
  | succ k ih =>
    apply ih (by omega)
    rw [Equiv.swap_apply_def]
    have hlt := (hdraw k hk).2
    split
    · exact hlt
    · split <;> omega

end Arrangement

def swapAt (a : List ℕ) (i j : ℕ) : List ℕ := (a.set i (a.getD j 0)).set j (a.getD i 0)

theorem swapAt_perm {a : List ℕ} {i j : ℕ} (hi : i < a.length) (hj : j < a.length) :
    (swapAt a i j).Perm a := by
  simpa [swapAt, hi, hj] using set_set_perm hi hj

def shuffled (draw : ℕ → ℕ) (n : ℕ) : ℕ → List ℕ
  | 0 => List.range n
  | i + 1 => swapAt (shuffled draw n i) i (draw i)

theorem shuffled_eq {draw : ℕ → ℕ} {n k : ℕ} (hdraw : Draws n draw) (hk : k ≤ n) :
    shuffled draw n k = (List.range n).map (arrangement draw k) := by
  induction k with
  | zero =>
    exact (map_id _).symm
  | succ k ih =>
    obtain ⟨-, hlt⟩ := hdraw k hk
    have hat : ∀ p < n, ((List.range n).map (arrangement draw k)).getD p 0 =
        arrangement draw k p := by
      intro p hp
      simp [hp]
    rw [shuffled, ih (by omega), swapAt, hat _ hlt, hat k (by omega)]
    apply ext_getElem
    · simp
    · intro p hp _
      simp only [getElem_map, arrangement_succ,
        Equiv.swap_apply_def]
      by_cases hdrawn : draw k = p
      · subst hdrawn
        by_cases hsame : draw k = k <;> simp [hsame]
      · by_cases hself : k = p
        · subst hself
          simp [hdrawn]
        · simp [hdrawn, hself, Ne.symm hdrawn, Ne.symm hself]

structure Lazy where
  swaps : ℕ → Option ℕ
  out : List ℕ

namespace Lazy

def empty : Lazy := ⟨fun _ => none, []⟩

def get (s : Lazy) (i : ℕ) : ℕ := (s.swaps i).getD i

variable (draw : ℕ → ℕ)

def step (s : Lazy) (i : ℕ) : Lazy where
  swaps := Function.update (Function.update s.swaps (draw i) (some (s.get i))) i
    (some (s.get (draw i)))
  out := s.out ++ [s.get (draw i)]

def run (k : ℕ) : Lazy := (List.range k).foldl (step draw) empty

theorem run_succ (k : ℕ) : run draw (k + 1) = step draw (run draw k) k := by
  simp [run, range_succ]

theorem get_run (k p : ℕ) : (run draw k).get p = arrangement draw k p := by
  induction k generalizing p with
  | zero => rfl
  | succ k ih =>
    rw [run_succ, arrangement_succ, Equiv.swap_apply_def, get, step]
    by_cases hself : p = k
    · subst hself
      simp [ih]
    · by_cases hdrawn : p = draw k
      · subst hdrawn
        simp [hself, ih]
      · simp only [Function.update_of_ne hself, Function.update_of_ne hdrawn, if_neg hself,
          if_neg hdrawn]
        exact ih p

theorem out_run (k : ℕ) :
    (run draw k).out = (List.range k).map fun i => arrangement draw (i + 1) i := by
  induction k with
  | zero => rfl
  | succ k ih =>
    have hout : (run draw (k + 1)).out = (run draw k).out ++ [(run draw k).get (draw k)] := by
      rw [run_succ]
      rfl
    rw [hout, ih, get_run, range_succ, map_append, map_singleton,
      arrangement_succ, Equiv.swap_apply_left]

variable {draw : ℕ → ℕ} {n k : ℕ}

theorem out_run_eq (hdraw : Draws n draw) {m : ℕ} (hkm : k ≤ m) (hm : m ≤ n) :
    (run draw k).out = (List.range k).map (arrangement draw m) := by
  rw [out_run]
  apply map_congr_left
  intro i hi
  rw [mem_range] at hi
  exact (arrangement_settled hdraw (by omega) hm).symm

/-- The partial shuffle draws the first positions of the whole one. -/
theorem out_run_eq_take (hdraw : Draws n draw) (hk : k ≤ n) :
    (run draw k).out = (shuffled draw n n).take k := by
  rw [shuffled_eq hdraw n.le_refl, ← map_take, take_range, Nat.min_eq_left hk]
  exact out_run_eq hdraw hk n.le_refl

theorem length_out_run (draw : ℕ → ℕ) (k : ℕ) : (run draw k).out.length = k := by
  rw [out_run, length_map, length_range]

theorem nodup_out_run (hdraw : Draws n draw) (hk : k ≤ n) : (run draw k).out.Nodup := by
  rw [out_run_eq hdraw hk n.le_refl]
  exact nodup_range.map (arrangement draw n).injective

theorem lt_of_mem_out_run (hdraw : Draws n draw) (hk : k ≤ n) {slot : ℕ}
    (h : slot ∈ (run draw k).out) : slot < n := by
  rw [out_run_eq hdraw hk n.le_refl] at h
  obtain ⟨i, hi, rfl⟩ := mem_map.mp h
  rw [mem_range] at hi
  exact arrangement_lt hdraw n.le_refl (by omega)

end Lazy

end Lib.FisherYates
