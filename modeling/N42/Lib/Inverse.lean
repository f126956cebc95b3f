import Mathlib.Data.Option.Basic

/-! Two partial maps that are inverse to each other: who owns a key, and which key an owner has. -/

namespace Lib

open Function

variable {κ ω : Type}

/-- Each key has at most one owner and each owner at most one key. -/
def Inverse (owner : κ → Option ω) (held : ω → Option κ) : Prop :=
  ∀ k o, owner k = some o ↔ held o = some k

namespace Inverse

variable {owner : κ → Option ω} {held : ω → Option κ} {k : κ} {o : ω}

variable [DecidableEq κ] [DecidableEq ω]

theorem drop (h : Inverse owner held) (hk : held o = some k) :
    Inverse (update owner k none) (update held o none) := by
  intro k' o'
  by_cases hk' : k' = k
  · subst hk'
    by_cases ho' : o' = o
    · simp [ho']
    · have hother : held o' ≠ some k' := by
        intro hheld
        have howner := (h k' o').mpr hheld
        rw [(h k' o).mpr hk] at howner
        exact ho' (Option.some.inj howner).symm
      simp [ho', hother]
  · by_cases ho' : o' = o
    · subst ho'
      have hother : owner k' ≠ some o' := by
        intro howner
        have hheld := (h k' o').mp howner
        rw [hk] at hheld
        exact hk' (Option.some.inj hheld).symm
      simp [hk', hother]
    · simpa [hk', ho'] using h k' o'

theorem add (h : Inverse owner held) (hk : owner k = none) (ho : held o = none) :
    Inverse (update owner k (some o)) (update held o (some k)) := by
  intro k' o'
  by_cases hk' : k' = k
  · subst hk'
    by_cases ho' : o' = o
    · simp [ho']
    · have hother : held o' ≠ some k' := by
        rw [Ne, ← h k' o', hk]
        exact (Option.some_ne_none _).symm
      simp [ho', hother, Ne.symm ho']
  · by_cases ho' : o' = o
    · subst ho'
      have hother : owner k' ≠ some o' := by
        rw [Ne, h k' o', ho]
        exact (Option.some_ne_none _).symm
      simp [hk', hother, Ne.symm hk']
    · simpa [hk', ho'] using h k' o'

end Inverse

section Assign

variable [DecidableEq κ]

variable (owner : κ → Option ω)

/-- The owner's key becomes `k`; the key it held before is free again. -/
def assign (old : Option κ) (k : κ) (o : ω) : κ → Option ω :=
  update (old.elim owner fun old => update owner old none) k (some o)

theorem assign_some_self (k : κ) (o : ω) :
    assign owner (some k) k o = update owner k (some o) := by
  simp [assign]

theorem Inverse.assign [DecidableEq ω] {owner : κ → Option ω} {held : ω → Option κ} {k : κ} {o : ω}
    (h : Inverse owner held) (hfree : ∀ o', owner k = some o' → o' = o) :
    Inverse (assign owner (held o) k o) (update held o (some k)) := by
  have hself : owner k ≠ none → held o = some k := by
    intro hsome
    obtain ⟨o', ho'⟩ := Option.ne_none_iff_exists'.mp hsome
    obtain rfl := hfree o' ho'
    exact (h k o').mp ho'
  cases hheld : held o with
  | none =>
    have hnone : owner k = none := by
      by_contra hsome
      rw [hself hsome] at hheld
      cases hheld
    exact h.add hnone hheld
  | some old =>
    have hnone : update owner old none k = none := by
      by_cases hk : k = old
      · simp [hk]
      · rw [update_of_ne hk]
        by_contra hsome
        rw [hself hsome] at hheld
        exact hk (Option.some.inj hheld)
    have hadd := (h.drop hheld).add hnone (update_self ..)
    rwa [update_idem] at hadd

def record (pair : ω × κ) : κ → Option ω :=
  update owner pair.2 (some pair.1)

theorem foldl_record_spec (pairs : List (ω × κ)) (f : κ → Option ω) (k : κ) :
    (∃ o, (o, k) ∈ pairs ∧ pairs.foldl record f k = some o) ∨
      (∀ o, (o, k) ∉ pairs) ∧ pairs.foldl record f k = f k := by
  induction pairs generalizing f with
  | nil => exact .inr ⟨fun _ => List.not_mem_nil, rfl⟩
  | cons pair pairs ih =>
    obtain ⟨o, k'⟩ := pair
    rw [List.foldl_cons]
    rcases ih (record f (o, k')) with ⟨o', hmem, hfold⟩ | ⟨hnone, hfold⟩
    · exact .inl ⟨o', List.mem_cons_of_mem _ hmem, hfold⟩
    · by_cases hk : k = k'
      · subst hk
        left
        exact ⟨o, List.mem_cons_self, by rw [hfold, record, update_self]⟩
      · right
        constructor
        · intro o' hmem
          rcases List.mem_cons.mp hmem with heq | hmem
          · exact hk (congrArg Prod.snd heq)
          · exact hnone o' hmem
        · rw [hfold, record, update_of_ne hk]

/-- A map filled from all the pairs of an inverse pair is the first of the two. -/
theorem Inverse.refill {owner : κ → Option ω} {held : ω → Option κ} (h : Inverse owner held)
    {pairs : List (ω × κ)} (hpairs : ∀ o k, (o, k) ∈ pairs ↔ held o = some k) :
    pairs.foldl record (fun _ => none) = owner := by
  funext k
  rcases foldl_record_spec pairs (fun _ => none) k with ⟨o, hmem, hfold⟩ | ⟨hnone, hfold⟩
  · rw [hfold, (h k o).mpr ((hpairs o k).mp hmem)]
  · rw [hfold]
    cases howner : owner k with
    | none => rfl
    | some o => exact absurd ((hpairs o k).mpr ((h k o).mp howner)) (hnone o)

end Assign

end Lib
