import Mathlib.Algebra.Module.Defs
import Mathlib.Data.List.AList

/-!
A linear combination with the coefficients of equal keys added up before the points are multiplied.
Keys get a place when they are first seen; the sum is that of the terms one by one.
-/

namespace Lib

open List

structure MergedSum (K P S : Type) where
  places : AList fun _ : K => ℕ
  points : List P
  coefficients : List S

namespace MergedSum

variable {K P S : Type} [DecidableEq K]

def empty : MergedSum K P S := ⟨∅, [], []⟩

def add [Add S] (m : MergedSum K P S) (key : K) (point : P) (term : S) : MergedSum K P S :=
  match m.places.lookup key with
  | some place => { m with coefficients := m.coefficients.modify place (· + term) }
  | none =>
    { places := m.places.insert key m.points.length
      points := m.points ++ [point]
      coefficients := m.coefficients ++ [term] }

structure Sound (pointOf : K → P) (m : MergedSum K P S) : Prop where
  length_eq : m.coefficients.length = m.points.length
  point : ∀ key place, m.places.lookup key = some place → m.points[place]? = some (pointOf key)

theorem Sound.empty (pointOf : K → P) : (MergedSum.empty : MergedSum K P S).Sound pointOf where
  length_eq := rfl
  point key place h := by simp [MergedSum.empty] at h

section Total

variable [Semiring S] [AddCommMonoid P] [Module S P]

omit [DecidableEq K] in
def total (m : MergedSum K P S) : P := (List.zipWith (· • ·) m.coefficients m.points).sum

theorem sum_modify {coefficients : List S} {points : List P} {place : ℕ} {point : P} (term : S)
    (hlength : coefficients.length = points.length) (hpoint : points[place]? = some point) :
    (List.zipWith (· • ·) (coefficients.modify place (· + term)) points).sum =
      (List.zipWith (· • ·) coefficients points).sum + term • point := by
  induction points generalizing coefficients place with
  | nil => simp at hpoint
  | cons p points ih =>
    cases coefficients with
    | nil => simp at hlength
    | cons c coefficients =>
      cases place with
      | zero =>
        obtain rfl : p = point := by simpa using hpoint
        simp [add_smul, add_right_comm]
      | succ place =>
        have htail := @ih coefficients place (by simpa using hlength) (by simpa using hpoint)
        simp [htail, add_assoc]

theorem Sound.add {pointOf : K → P} {m : MergedSum K P S} (h : m.Sound pointOf) (key : K)
    (term : S) :
    (m.add key (pointOf key) term).Sound pointOf ∧
      (m.add key (pointOf key) term).total = m.total + term • pointOf key := by
  unfold MergedSum.add
  cases hplace : m.places.lookup key with
  | some place =>
    constructor
    · constructor
      · rw [length_modify, h.length_eq]
      · exact h.point
    · exact sum_modify term h.length_eq (h.point key place hplace)
  | none =>
    constructor
    · constructor
      · simp [h.length_eq]
      · intro other place hother
        by_cases heq : other = key
        · subst heq
          rw [AList.lookup_insert] at hother
          obtain rfl := Option.some.inj hother
          simp
        · rw [AList.lookup_insert_ne heq] at hother
          have hold := h.point other place hother
          obtain ⟨hlt, -⟩ := List.getElem?_eq_some_iff.mp hold
          rw [List.getElem?_append_left hlt, hold]
    · simp [total, zipWith_append h.length_eq]

theorem Sound.foldl {ι : Type} {pointOf : K → P} {key : ι → K} {term : ι → S} (items : List ι)
    {m : MergedSum K P S} (h : m.Sound pointOf) :
    (items.foldl (fun m i => m.add (key i) (pointOf (key i)) (term i)) m).total =
      m.total + (items.map fun i => term i • pointOf (key i)).sum := by
  induction items generalizing m with
  | nil => simp
  | cons i items ih =>
    obtain ⟨hsound, htotal⟩ := h.add (key i) (term i)
    rw [foldl_cons, ih hsound, htotal, map_cons, sum_cons, add_assoc]

end Total

end MergedSum

end Lib
