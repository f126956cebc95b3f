/-!
Inversion of successful runs in `Except`: what a check-then-continue function has
checked once it returns a value; and loops whose every step succeeds.
-/

namespace Lib

variable {ε α β : Type} {x : Except ε α}

theorem bind_eq_ok {f : α → Except ε β} {b : β} :
    (x >>= f) = .ok b ↔ ∃ a, x = .ok a ∧ f a = .ok b := by
  cases x with
  | error err => simp [bind, Except.bind]
  | ok a => simp [bind, Except.bind]

theorem pure_eq_ok {a b : α} : (pure a : Except ε α) = .ok b ↔ a = b := by
  simp [pure, Except.pure]

theorem throw_eq_ok {err : ε} {b : α} : (throw err : Except ε α) = .ok b ↔ False := by
  simp [throw]

theorem map_eq_ok {f : α → β} {b : β} : x.map f = .ok b ↔ ∃ a, x = .ok a ∧ f a = b := by
  cases x <;> simp [Except.map]

theorem mapError_eq_ok {ε' : Type} {f : ε → ε'} {a : α} : x.mapError f = .ok a ↔ x = .ok a := by
  cases x with
  | error e =>
    change Except.error (f e) = .ok a ↔ _
    simp
  | ok b =>
    change Except.ok b = .ok a ↔ _
    simp

theorem toOption_eq_some {a : α} : x.toOption = some a ↔ x = .ok a := by
  cases x <;> simp [Except.toOption]

theorem guard_eq_ok {c : Prop} [Decidable c] {err : ε} {y : Except ε α} {b : α} :
    (if c then throw err else y) = .ok b ↔ ¬ c ∧ y = .ok b := by
  by_cases h : c <;> simp [h]

theorem error_guard_eq_ok {c : Prop} [Decidable c] {err : ε} {y : Except ε α} {b : α} :
    (if c then .error err else y) = .ok b ↔ ¬ c ∧ y = .ok b :=
  guard_eq_ok

theorem guard_bind_eq_ok {c : Prop} [Decidable c] {err : ε} {k : α → Except ε β}
    {y : Except ε β} {b : β} : (if c then throw err >>= k else y) = .ok b ↔ ¬ c ∧ y = .ok b := by
  by_cases h : c <;> simp [h, bind, Except.bind]

theorem forM_eq_ok {f : α → Except ε PUnit} {l : List α} (h : ∀ a ∈ l, f a = .ok ⟨⟩) :
    l.forM f = .ok ⟨⟩ := by
  induction l with
  | nil => rfl
  | cons a l ih =>
    rw [List.forM, h a List.mem_cons_self]
    exact ih fun b hb => h b (List.mem_cons_of_mem a hb)

theorem mapM_zipIdx_eq_ok {f : α × Nat → Except ε β} {R : Nat → β → Prop} {l : List α}
    (start : Nat) (h : ∀ i a, l[i]? = some a → ∃ b, f (a, start + i) = .ok b ∧ R i b) :
    ∃ bs, (l.zipIdx start).mapM f = .ok bs ∧ bs.length = l.length ∧
      ∀ i b, bs[i]? = some b → R i b := by
  induction l generalizing start R with
  | nil => exact ⟨[], rfl, rfl, by simp⟩
  | cons a l ih =>
    obtain ⟨b, hb, hR⟩ := h 0 a rfl
    obtain ⟨bs, hbs, hlen, hrest⟩ := ih (R := fun i => R (i + 1)) (start + 1) fun i a' ha' => by
      obtain ⟨b', hb', hR'⟩ := h (i + 1) a' ha'
      exact ⟨b', by rw [Nat.add_assoc, Nat.add_comm 1 i]; exact hb', hR'⟩
    refine ⟨b :: bs, ?_, congrArg Nat.succ hlen, ?_⟩
    · rw [List.zipIdx_cons, List.mapM_cons, show f (a, start) = .ok b from hb, hbs]
      rfl
    · intro i b' hb'
      cases i with
      | zero =>
        obtain rfl : b = b' := by simpa using hb'
        exact hR
      | succ i => exact hrest i b' (by simpa using hb')

/-- A loop refines the loop of the steps that its own steps refine. -/
theorem foldlM_refines {σ τ : Type} {R : σ → τ → Prop} {f : σ → α → Option σ} {g : τ → α → τ}
    (step : ∀ {s t} a, R s t → ∃ s', f s a = some s' ∧ R s' (g t a)) {s : σ} {t : τ} (h : R s t)
    (l : List α) : ∃ s', l.foldlM f s = some s' ∧ R s' (l.foldl g t) := by
  induction l generalizing s t with
  | nil => exact ⟨s, rfl, h⟩
  | cons a l ih =>
    obtain ⟨s₁, hs₁, h₁⟩ := step a h
    obtain ⟨s', hs', hrest⟩ := ih h₁
    exact ⟨s', by simpa [hs₁] using hs', hrest⟩

end Lib
