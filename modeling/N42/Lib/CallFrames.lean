/-!
Calls that can be re-entered. A call of a component either returns, or hands control to a callee,
which may call the component again, to any depth; when a frame reverts, everything done since it was
entered is undone.
-/

namespace Lib

/-- How far a call got that did not revert. -/
inductive Reply (σ : Type) where
  | returns (state : σ)
  | suspends (state : σ)

def Reply.state {σ : Type} : Reply σ → σ
  | .returns state => state
  | .suspends state => state

/-- A component in the middle of a transaction: its state, and for every open frame, the newest
first, the state to go back to when the frame reverts. -/
structure CallFrames (σ : Type) where
  state : σ
  saved : List σ

/-- What whoever holds control does next. -/
inductive Act (κ : Type) where
  | call (call : κ)
  /-- A frame of code outside the component is entered. -/
  | enter
  /-- The newest open frame is left. -/
  | leave (ok : Bool)

namespace CallFrames

variable {σ κ ε : Type} (exec : κ → σ → Except ε (Reply σ))

def step (frames : CallFrames σ) : Act κ → CallFrames σ
  | .call call =>
    match exec call frames.state with
    | .error _ => frames
    | .ok (.returns state) => ⟨state, frames.saved⟩
    | .ok (.suspends state) => ⟨state, frames.state :: frames.saved⟩
  | .enter => ⟨frames.state, frames.state :: frames.saved⟩
  | .leave ok =>
    match frames.saved with
    | [] => frames
    | before :: saved => ⟨if ok then frames.state else before, saved⟩

def run (frames : CallFrames σ) (acts : List (Act κ)) : CallFrames σ :=
  acts.foldl (step exec) frames

/-- A property of the current state and of every state that a revert can bring back. -/
def Holds (P : σ → Prop) (frames : CallFrames σ) : Prop :=
  P frames.state ∧ ∀ state ∈ frames.saved, P state

variable {exec} {P : σ → Prop}

variable (hexec : ∀ call state reply, exec call state = .ok reply → P state → P reply.state)
include hexec

theorem Holds.step {frames : CallFrames σ} (h : frames.Holds P) (act : Act κ) :
    (frames.step exec act).Holds P := by
  obtain ⟨state, saved⟩ := frames
  obtain ⟨hstate, hsaved⟩ := h
  have hpush : ∀ before ∈ state :: saved, P before := by
    exact List.forall_mem_cons.mpr ⟨hstate, hsaved⟩
  cases act with
  | call call =>
    cases hreply : exec call state with
    | error _ =>
      simp only [CallFrames.step, hreply]
      exact ⟨hstate, hsaved⟩
    | ok reply =>
      have hafter := hexec call state reply hreply hstate
      cases reply with
      | returns after =>
        simp only [CallFrames.step, hreply]
        exact ⟨hafter, hsaved⟩
      | suspends after =>
        simp only [CallFrames.step, hreply]
        exact ⟨hafter, hpush⟩
  | enter => exact ⟨hstate, hpush⟩
  | leave ok =>
    cases saved with
    | nil => exact ⟨hstate, hsaved⟩
    | cons before saved =>
      have hrest : ∀ state ∈ saved, P state := fun state hmem =>
        hsaved state (List.mem_cons_of_mem before hmem)
      cases ok with
      | false => exact ⟨hsaved before List.mem_cons_self, hrest⟩
      | true => exact ⟨hstate, hrest⟩

/-- What every call that does not revert preserves holds through every run. -/
theorem Holds.run (acts : List (Act κ)) {frames : CallFrames σ} (h : frames.Holds P) :
    (frames.run exec acts).Holds P := by
  induction acts generalizing frames with
  | nil => exact h
  | cons act acts ih => exact ih (h.step hexec act)

end CallFrames

end Lib
