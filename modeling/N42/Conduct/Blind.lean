import N42.Conduct.Mirrors

/-!
The engine does not read its audit log. Two worlds are twins if they have the same engine, their
logs have gained the same, and so will be the answers to the next writes and outputs.
-/

namespace N42

open Lib EngineM

/-- The worlds have gained the same effects over the logs `base₁` and `base₂`. -/
structure Twins (base₁ base₂ : List Effect) (w₁ w₂ : World) : Prop where
  engine : w₁.engine = w₂.engine
  rank : w₁.env.rank = w₂.env.rank
  gained : ∃ added, w₁.log = added ++ base₁ ∧ w₂.log = added ++ base₂
  fate : ∀ n, w₁.env.fate (n + base₁.length) = w₂.env.fate (n + base₂.length)

/-- `x` does not read the log. -/
class Blind {α : Type} (x : EngineM α) : Prop where
  agrees : ∀ base₁ base₂, Agrees (Twins base₁ base₂) x

variable (b₁ b₂ : List Effect)

instance : OverlooksState (Twins b₁ b₂) where
  engine _ _ h := h.engine
  rank _ _ h := h.rank
  -- the answer to the next write depends only on what was gained
  fate w₁ w₂ h := by
    obtain ⟨added, h₁, h₂⟩ := h.gained
    rw [h₁, h₂, List.length_append, List.length_append]
    exact h.fate _
  record w₁ w₂ x h := by
    obtain ⟨added, h₁, h₂⟩ := h.gained
    exact { h with gained := ⟨x :: added, congrArg (x :: ·) h₁, congrArg (x :: ·) h₂⟩ }
  staged _ _ _ h _ := { h with engine := rfl }
  framed _ _ _ h _ := { h with engine := rfl }
  heard _ _ _ h _ := { h with engine := rfl }

instance {α : Type} (x : EngineM α) [h : ∀ b₁ b₂, Agrees (Twins b₁ b₂) x] : Blind x :=
  ⟨h⟩

instance (f : Engine → Engine) : Agrees (Twins b₁ b₂) (update f) :=
  ⟨fun _ _ h => ⟨rfl, { h with engine := congrArg f h.engine }⟩⟩

instance (newView : ℕ) : Agrees (Twins b₁ b₂) (drainBuffer newView) := by
  unfold drainBuffer
  infer_instance

variable [Crypto]

instance (newView : ℕ) : Agrees (Twins b₁ b₂) (changeView newView) := by
  unfold changeView
  infer_instance

instance (replay : ConsensusMessage → EngineM Unit) [∀ m, Agrees (Twins b₁ b₂) (replay m)]
    (newView : ℕ) : Agrees (Twins b₁ b₂) (advanceAndReplay replay newView) := by
  unfold advanceAndReplay
  infer_instance

instance (depth newView : ℕ) : Agrees (Twins b₁ b₂) (advanceToView depth newView) := by
  induction depth generalizing newView with
  | zero =>
    unfold advanceToView
    infer_instance
  | succ depth ih =>
    unfold advanceToView
    infer_instance

end N42
