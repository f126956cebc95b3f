import N42.Lib.Guarantee

/-!
Runs of stateful programs from two related states: with the same value or the same error, they
end in related states. The judgement is a class, found by instance search for programs put together
from parts.
-/

namespace Lib

variable {ε σ α β : Type}

def Alike (R : σ → σ → Prop) : EStateM.Result ε σ α → EStateM.Result ε σ α → Prop
  | .ok a s, .ok b t => a = b ∧ R s t
  | .error err s, .error err' t => err = err' ∧ R s t
  | _, _ => False

theorem Alike.cases {R : σ → σ → Prop} {r r' : EStateM.Result ε σ α} (h : Alike R r r') :
    (∃ a s t, r = .ok a s ∧ r' = .ok a t ∧ R s t) ∨
      ∃ err s t, r = .error err s ∧ r' = .error err t ∧ R s t := by
  cases r with
  | ok a s =>
    cases r' with
    | ok b t => exact .inl ⟨a, s, t, rfl, by rw [h.1], h.2⟩
    | error err t => exact h.elim
  | error err s =>
    cases r' with
    | ok b t => exact h.elim
    | error err' t => exact .inr ⟨err, s, t, rfl, by rw [h.1], h.2⟩

class Mirrors (R : σ → σ → Prop) (x y : EStateM ε σ α) : Prop where
  run : ∀ s t, R s t → Alike R (x s) (y t)

abbrev Agrees (R : σ → σ → Prop) (x : EStateM ε σ α) : Prop := Mirrors R x x

namespace Mirrors

variable {R : σ → σ → Prop}

instance pure (a : α) : Mirrors R (Pure.pure a : EStateM ε σ α) (Pure.pure a) :=
  ⟨fun _ _ h => ⟨rfl, h⟩⟩

instance throw (err : ε) :
    Mirrors R (MonadExcept.throw err : EStateM ε σ α) (MonadExcept.throw err) :=
  ⟨fun _ _ h => ⟨rfl, h⟩⟩

instance bind (x y : EStateM ε σ α) (f g : α → EStateM ε σ β) [hx : Mirrors R x y]
    [hf : ∀ a, Mirrors R (f a) (g a)] : Mirrors R (x >>= f) (y >>= g) where
  run s t hst := by
    rw [bind_run, bind_run]
    obtain ⟨a, s', t', hs, ht, hst'⟩ | ⟨err, s', t', hs, ht, hst'⟩ := (hx.run s t hst).cases
    · rw [hs, ht]
      exact (hf a).run s' t' hst'
    · rw [hs, ht]
      exact ⟨rfl, hst'⟩

theorem andThen {x y : EStateM ε σ α} {f g : α → EStateM ε σ β} [Mirrors R x y]
    (hf : ∀ a, Mirrors R (f a) (g a)) : Mirrors R (x >>= f) (y >>= g) :=
  bind x y f g

theorem cond {c : Prop} [Decidable c] {x y x' y' : EStateM ε σ α} (hx : Mirrors R x x')
    (hy : Mirrors R y y') : Mirrors R (if c then x else y) (if c then x' else y') := by
  by_cases h : c
  · rwa [if_pos h, if_pos h]
  · rwa [if_neg h, if_neg h]

instance ite (c : Prop) [Decidable c] (x y x' y' : EStateM ε σ α) [hx : Mirrors R x x']
    [hy : Mirrors R y y'] : Mirrors R (if c then x else y) (if c then x' else y') :=
  cond hx hy

instance ofExcept (r : Except ε α) :
    Mirrors R (MonadExcept.ofExcept r : EStateM ε σ α) (MonadExcept.ofExcept r) := by
  cases r with
  | error err => exact throw err
  | ok a => exact pure a

instance throw_bind (err : ε) (f g : α → EStateM ε σ β) :
    Mirrors R (MonadExcept.throw err >>= f) (MonadExcept.throw err >>= g) :=
  inferInstanceAs (Mirrors R (MonadExcept.throw err : EStateM ε σ β) (MonadExcept.throw err))

instance discard (x y : EStateM ε σ α) [Mirrors R x y] :
    Mirrors R (Functor.discard x) (Functor.discard y) :=
  bind x y (fun _ => Pure.pure ()) fun _ => Pure.pure ()

end Mirrors

end Lib
