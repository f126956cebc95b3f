import Mathlib.Order.Defs.Unbundled

/-!
Two-state guarantees of stateful programs that may fail.

`Guarantee R x s P`: the run of `x` from `s` moves the state along `R`, whether or not it fails, and
ends in `P` if it succeeds. `Outcome x s P E` says how the run ends in either case.
-/

namespace Lib

variable {ε σ α β : Type}

theorem bind_run (x : EStateM ε σ α) (f : α → EStateM ε σ β) (s : σ) :
    (x >>= f) s = match x s with
      | .ok a s' => f a s'
      | .error err s' => .error err s' := rfl

def Guarantee (R : σ → σ → Prop) (x : EStateM ε σ α) (s : σ) (P : α → σ → Prop) : Prop :=
  match x s with
  | .ok a s' => R s s' ∧ P a s'
  | .error _ s' => R s s'

namespace Guarantee

variable {R : σ → σ → Prop} {s : σ} {P Q : α → σ → Prop}

theorem pure [Std.Refl R] {a : α} (h : P a s) : Guarantee R (Pure.pure a : EStateM ε σ α) s P :=
  ⟨Std.Refl.refl s, h⟩

theorem throw [Std.Refl R] {err : ε} : Guarantee R (MonadExcept.throw err : EStateM ε σ α) s P :=
  Std.Refl.refl s

variable {x : EStateM ε σ α} {f : β → EStateM ε σ α}

theorem bind [IsTrans σ R] {f : α → EStateM ε σ β} {Q : β → σ → Prop} (hx : Guarantee R x s P)
    (hf : ∀ a s', R s s' → P a s' → Guarantee R (f a) s' Q) : Guarantee R (x >>= f) s Q := by
  unfold Guarantee at hx ⊢
  rw [bind_run]
  cases h : x s with
  | error err s' =>
    rw [h] at hx
    exact hx
  | ok a s' =>
    rw [h] at hx
    have hnext := hf a s' hx.1 hx.2
    unfold Guarantee at hnext
    dsimp only
    cases hr : f a s' with
    | error err s'' =>
      rw [hr] at hnext
      exact IsTrans.trans _ _ _ hx.1 hnext
    | ok b s'' =>
      rw [hr] at hnext
      exact ⟨IsTrans.trans _ _ _ hx.1 hnext.1, hnext.2⟩

theorem throw_bind [Std.Refl R] {err : ε} :
    Guarantee R (MonadExcept.throw err >>= f : EStateM ε σ α) s P :=
  Std.Refl.refl s

theorem mono (hx : Guarantee R x s P) (hPQ : ∀ a s', R s s' → P a s' → Q a s') :
    Guarantee R x s Q := by
  unfold Guarantee at hx ⊢
  split at hx
  · exact ⟨hx.1, hPQ _ _ hx.1 hx.2⟩
  · exact hx

theorem ite {c : Prop} [Decidable c] {y : EStateM ε σ α} (hx : c → Guarantee R x s P)
    (hy : ¬ c → Guarantee R y s P) : Guarantee R (if c then x else y) s P := by
  by_cases h : c
  · rw [if_pos h]
    exact hx h
  · rw [if_neg h]
    exact hy h

theorem ofExcept_bind [Std.Refl R] {r : Except ε β} (h : ∀ b, r = .ok b → Guarantee R (f b) s P) :
    Guarantee R (MonadExcept.ofExcept r >>= f) s P := by
  cases r with
  | error err => exact throw_bind
  | ok b => exact h b rfl

theorem run_bind [IsTrans σ R] {x : EStateM ε σ β} {b : β} {s' : σ} (hrun : x s = .ok b s')
    (hR : R s s') (h : Guarantee R (f b) s' P) : Guarantee R (x >>= f) s P := by
  refine bind (P := fun b' s'' => b' = b ∧ s'' = s') ?_ ?_
  · unfold Guarantee
    rw [hrun]
    exact ⟨hR, rfl, rfl⟩
  · rintro _ _ - ⟨rfl, rfl⟩
    exact h

end Guarantee

/-- The run of `x` from `s` ends in `P` if it succeeds and in `E` if it fails. -/
def Outcome (x : EStateM ε σ α) (s : σ) (P : α → σ → Prop) (E : σ → Prop) : Prop :=
  match x s with
  | .ok a s' => P a s'
  | .error _ s' => E s'

namespace Outcome

variable {s : σ} {P P' : α → σ → Prop} {E E' : σ → Prop}

theorem pure {a : α} (h : P a s) : Outcome (Pure.pure a : EStateM ε σ α) s P E := h

variable {x : EStateM ε σ α}

variable {f : α → EStateM ε σ β} {Q : β → σ → Prop}

theorem bind (hx : Outcome x s P E) (hf : ∀ a s', P a s' → Outcome (f a) s' Q E) :
    Outcome (x >>= f) s Q E := by
  unfold Outcome at hx ⊢
  rw [bind_run]
  cases h : x s with
  | error err s' =>
    rw [h] at hx
    exact hx
  | ok a s' =>
    rw [h] at hx
    exact hf a s' hx

theorem run_bind {a : α} {t : σ} (hrun : x s = .ok a t) (h : Outcome (f a) t Q E) :
    Outcome (x >>= f) s Q E := by
  unfold Outcome
  rw [bind_run, hrun]
  exact h

theorem mono (hx : Outcome x s P E) (hP : ∀ a s', P a s' → P' a s') (hE : ∀ s', E s' → E' s') :
    Outcome x s P' E' := by
  unfold Outcome at hx ⊢
  split at hx
  · exact hP _ _ hx
  · exact hE _ hx

theorem ite {c : Prop} [Decidable c] {y : EStateM ε σ α} (hx : c → Outcome x s P E)
    (hy : ¬ c → Outcome y s P E) : Outcome (if c then x else y) s P E := by
  by_cases h : c
  · rw [if_pos h]
    exact hx h
  · rw [if_neg h]
    exact hy h

theorem of_guarantee {R : σ → σ → Prop} (hx : Guarantee R x s P) :
    Outcome x s (fun a s' => R s s' ∧ P a s') (R s) := hx

end Outcome

end Lib
