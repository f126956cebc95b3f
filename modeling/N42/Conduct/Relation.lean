import N42.Audit.Primitives
import N42.Conduct.Mirrors

/-!
How far a handler may move the engine, shown on the state itself.

`Quiet` is the conduct of code that stays within a view, `Calm` that of code that may change the
view but commits nothing.
-/

namespace N42

open Lib EngineM List

def LostOutput (log : List Effect) : Prop := ∃ output, .emit output false ∈ log

theorem LostOutput.of_suffix {log log' : List Effect} (h : LostOutput log) (hs : log <:+ log') :
    LostOutput log' := by
  obtain ⟨output, hmem⟩ := h
  exact ⟨output, hs.subset hmem⟩

/-- The last thing that happened after `w` is that an output was refused. -/
def Refused (w w' : World) : Prop :=
  ∃ output rest, w'.log = .emit output false :: rest ∧ w.log <:+ rest

theorem Refused.lost {w w' : World} (h : Refused w w') : LostOutput w'.log := by
  obtain ⟨output, rest, hlog, -⟩ := h
  exact ⟨output, by rw [hlog]; exact mem_cons_self⟩

theorem Refused.of_suffix {w w₁ w' : World} (h : Refused w₁ w') (hs : w.log <:+ w₁.log) :
    Refused w w' := by
  obtain ⟨output, rest, hlog, hrest⟩ := h
  exact ⟨output, rest, hlog, hs.trans hrest⟩

/-- What the handlers of single messages leave alone. -/
structure Frame where
  view : ℕ
  committed : QuorumCertificate
  votes : Option VoteCollector
  commitVotes : Option VoteCollector
  timeouts : Option TimeoutCollector
  futureTimeouts : Map ℕ TimeoutCollector
  buffer : List (ℕ × ConsensusMessage)

def World.frame (w : World) : Frame where
  view := w.engine.roundState.currentView
  committed := w.engine.roundState.lastCommittedQc
  votes := w.engine.voteCollector
  commitVotes := w.engine.commitCollector
  timeouts := w.engine.timeoutCollector
  futureTimeouts := w.engine.futureTimeoutCollectors
  buffer := w.engine.futureMsgBuffer

abbrev World.view (w : World) : ℕ := w.engine.roundState.currentView

abbrev World.lockView (w : World) : ℕ := w.engine.roundState.lockedQc.view

/-- The frame is kept, and the lock is raised at most to the view, or to a height for which
`L` holds. -/
structure Quiet (L : ℕ → Prop) (w w' : World) : Prop where
  suffix : w.log <:+ w'.log
  frame : w'.frame = w.frame
  lock : ∀ k, L k → w'.lockView ≤ max w.lockView (max w.view k)

namespace Quiet

variable {L : ℕ → Prop} {w w' : World}

theorem view_eq (h : Quiet L w w') : w'.view = w.view := congrArg Frame.view h.frame

theorem push (w : World) (x : Effect) : Quiet L w (w.push x) where
  suffix := suffix_cons _ _
  frame := rfl
  lock _ _ := Nat.le_max_left _ _

theorem setEngine {e : Engine} (h : e.framed = w.engine.framed) : Quiet L w (w.setEngine e) where
  suffix := suffix_refl _
  frame := congrArg (fun ((view, buffer), committed, _, votes, commitVotes, timeouts, later) =>
    Frame.mk view committed votes commitVotes timeouts later buffer) h
  lock _ _ := (congrArg (·.2.2.1.view) h).le.trans (Nat.le_max_left _ _)

end Quiet

/-- Steps that leave the frame, the lock and the epochs alone are allowed. -/
class Placid (R : World → World → Prop) : Prop extends Std.Refl R, IsTrans World R where
  push : ∀ w x, R w (w.push x)
  setEngine : ∀ (w : World) (e : Engine), e.staged = w.engine.staged → R w (w.setEngine e)

instance (R : World → World → Prop) [Placid R] (w : World) : Respected (On (R w)) :=
  On.respected (fun w' x h => IsTrans.trans _ _ _ h (Placid.push w' x))
    (On.overlooks fun w' e h he => IsTrans.trans _ _ _ h (Placid.setEngine w' e he))

instance (L : ℕ → Prop) : Placid (Quiet L) where
  refl _ := ⟨suffix_refl _, rfl, fun _ _ => Nat.le_max_left _ _⟩
  trans _ _ _ hab hbc := by
    refine ⟨hab.suffix.trans hbc.suffix, hbc.frame.trans hab.frame, fun k hL => ?_⟩
    have h₁ := hab.lock k hL
    have h₂ := hbc.lock k hL
    have hview := hab.view_eq
    omega
  push := .push
  setEngine _ _ h := .setEngine (congrArg Prod.fst h)

instance (L : ℕ → Prop) (w : World) : OverlooksEpochs (On (Quiet L w)) where
  framed := On.overlooks fun _ _ h he => IsTrans.trans _ _ _ h (.setEngine he)

theorem engine_guarantee {R : World → World → Prop} {β : Type} {w : World}
    {P : β → World → Prop} {k : Engine → EngineM β} (h : Guarantee R (k w.engine) w P) :
    Guarantee R (EngineM.engine >>= k) w P := h

theorem engine_outcome {β : Type} {w : World} {P : β → World → Prop} {E : World → Prop}
    {k : Engine → EngineM β} (h : Outcome (k w.engine) w P E) :
    Outcome (EngineM.engine >>= k) w P E := h

theorem updateLockedQc_run (qc : QuorumCertificate) (w : World) :
    ∃ w', EngineM.updateLockedQc qc w = .ok () w' ∧ w.log <:+ w'.log ∧ w'.frame = w.frame ∧
      w'.lockView ≤ max w.lockView qc.view ∧
      w'.engine.epochManager = w.engine.epochManager := by
  have hset : ∀ w₁ : World, w₁.engine = w.engine → ∀ w', w' = w₁.setEngine { w₁.engine with
      roundState := w₁.engine.roundState.updateLockedQc qc } →
      w'.frame = w.frame ∧ w'.lockView ≤ max w.lockView qc.view ∧
        w'.engine.epochManager = w.engine.epochManager := by
    rintro w₁ he _ rfl
    simp only [World.setEngine, RoundState.updateLockedQc, he]
    split
    · exact ⟨rfl, Nat.le_max_right _ _, trivial⟩
    · exact ⟨rfl, Nat.le_max_left _ _, trivial⟩
  have hrun : EngineM.updateLockedQc qc w = (if w.engine.roundState.lockedQc.view < qc.view then
      (record (.lock qc) >>= fun _ => updateRound (·.updateLockedQc qc))
      else updateRound (·.updateLockedQc qc)) w := rfl
  rw [hrun]
  split
  · exact ⟨_, rfl, suffix_cons _ _, hset (w.push (.lock qc)) rfl _ rfl⟩
  · exact ⟨_, rfl, suffix_refl _, hset w rfl _ rfl⟩

end N42

open N42 in
theorem Lib.Guarantee.placid {R : World → World → Prop} [Placid R] {w : World} {α : Type}
    {x : EngineM α} [Agrees (On (R w)) x] : Guarantee R x w fun _ _ => True :=
  (On.outcome (P := R w) (Std.Refl.refl w)).mono (fun _ _ h => ⟨h, trivial⟩) fun _ h => h

namespace N42

open Lib EngineM List

/-- `x` runs within the view. -/
def Quietly (L : ℕ → Prop) {α : Type} (x : EngineM α) (w : World) : Prop :=
  Guarantee (Quiet L) x w fun _ _ => True

namespace Quietly

variable {L : ℕ → Prop} {α β : Type} {w : World}

theorem pure {a : α} : Quietly L (Pure.pure a : EngineM α) w := Guarantee.pure trivial

variable {k : α → EngineM β}

theorem throw_bind {err : ConsensusError} : Quietly L (MonadExcept.throw err >>= k) w :=
  Guarantee.throw_bind

variable {x : EngineM α}

theorem bind (hx : Quietly L x w) (hk : ∀ a w', Quiet L w w' → Quietly L (k a) w') :
    Quietly L (x >>= k) w :=
  Guarantee.bind hx fun a w' hquiet _ => hk a w' hquiet

theorem ite {c : Prop} [Decidable c] {x y : EngineM α} (hx : c → Quietly L x w)
    (hy : ¬ c → Quietly L y w) : Quietly L (if c then x else y) w :=
  Guarantee.ite hx hy

theorem engine_bind {k : Engine → EngineM β} (h : Quietly L (k w.engine) w) :
    Quietly L (EngineM.engine >>= k) w := h

theorem ofExcept_bind {r : Except ConsensusError α} (h : ∀ a, r = .ok a → Quietly L (k a) w) :
    Quietly L (ofExcept r >>= k) w :=
  Guarantee.ofExcept_bind h

theorem of_run {a : α} {w' : World} (hrun : x w = .ok a w') (h : Quiet L w w') : Quietly L x w := by
  unfold Quietly Guarantee
  rw [hrun]
  exact ⟨h, trivial⟩

/-- Raising the lock is quiet if the certificate is not ahead of the view. -/
theorem updateLockedQc {qc : QuorumCertificate} (h : ∀ k, L k → qc.view ≤ max w.view k) :
    Quietly L (EngineM.updateLockedQc qc) w := by
  obtain ⟨w', hrun, hs, hframe, hlock, -⟩ := updateLockedQc_run qc w
  refine of_run hrun ⟨hs, hframe, fun k hL => ?_⟩
  have hle := h k hL
  omega

end Quietly

end N42
