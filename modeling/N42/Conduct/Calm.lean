import N42.Conduct.Handlers

/-!
Code that commits nothing.

Lock and view are compared with the help of a height `k`: code that raises the lock first
and changes the view afterwards keeps the lock below `max view k` throughout.
-/

namespace N42

open Lib EngineM

/-- Every certificate that came with a timeout is at most of the collector's view. -/
def TimeoutCollector.HighBelow (k : ℕ) (c : TimeoutCollector) : Prop :=
  ∀ index sig qc, c.timeouts.lookup index = some (sig, qc) → qc.view ≤ max c.view k

theorem TimeoutCollector.HighBelow.mono {k k' : ℕ} {c : TimeoutCollector} (h : c.HighBelow k)
    (hk : max c.view k ≤ max c.view k') : c.HighBelow k' :=
  fun index sig qc hlookup => (h index sig qc hlookup).trans hk

namespace Frame

def Fresh (f : Frame) : Prop := f.votes = none ∧ f.commitVotes = none

/-- Votes are collected for the current view, and messages that carry quorum proofs are never
buffered. -/
structure Clean (f : Frame) : Prop where
  votes : ∀ c, f.votes = some c → c.view = f.view
  commitVotes : ∀ c, f.commitVotes = some c → c.view = f.view
  buffer : ∀ view m, (view, m) ∈ f.buffer → isExempt m = false

/-- Timeouts are collected for the right view, with certificates below it. -/
structure Leveled (k : ℕ) (f : Frame) : Prop where
  timeouts : ∀ c, f.timeouts = some c → c.view = f.view ∧ c.HighBelow k
  future : ∀ view c, f.futureTimeouts.lookup view = some c →
    c.view = view ∧ f.view < view ∧ c.HighBelow k
  buffer : ∀ view m, (view, m) ∈ f.buffer → m.Level

end Frame

namespace World

/-- The lock is below the view or the height `k`. -/
structure Leveled (k : ℕ) (w : World) : Prop where
  lock : w.lockView ≤ max w.view k
  frame : w.frame.Leveled k

theorem Leveled.lower {k q : ℕ} {w : World} (h : w.Leveled (max k q)) (hq : q ≤ max w.view k) :
    w.Leveled k where
  lock := by
    have := h.lock
    omega
  frame :=
    { h.frame with
      timeouts := fun c hc => by
        obtain ⟨hview, hhigh⟩ := h.frame.timeouts c hc
        have hview' : c.view = w.view := hview
        exact ⟨hview, hhigh.mono (by omega)⟩
      future := fun view c hc => by
        obtain ⟨hview, hlt, hhigh⟩ := h.frame.future view c hc
        have hlt' : w.view < view := hlt
        exact ⟨hview, hlt, hhigh.mono (by omega)⟩ }

theorem Leveled.raise {k : ℕ} (q : ℕ) {w : World} (h : w.Leveled k) : w.Leveled (max k q) where
  lock := by
    have := h.lock
    omega
  frame :=
    { h.frame with
      timeouts := fun c hc =>
        ⟨(h.frame.timeouts c hc).1, (h.frame.timeouts c hc).2.mono (by omega)⟩
      future := fun view c hc =>
        ⟨(h.frame.future view c hc).1, (h.frame.future view c hc).2.1,
          (h.frame.future view c hc).2.2.mono (by omega)⟩ }

end World

/-- The lock stays below the view, unless an output is refused. -/
def Levels (L : ℕ → Prop) (w w' : World) : Prop :=
  ∀ k, L k → ¬ LostOutput w'.log → w.Leveled k → w'.Leveled k

theorem Levels.trans {L : ℕ → Prop} {a b c : World} (hab : Levels L a b) (hbc : Levels L b c)
    (hs : b.log <:+ c.log) : Levels L a c := fun k hL hlost ha =>
  hbc k hL hlost (hab k hL (fun h => hlost (h.of_suffix hs)) ha)

theorem Quiet.levels {L : ℕ → Prop} {w w' : World} (h : Quiet L w w') : Levels L w w' := by
  intro k hL _ hk
  refine ⟨?_, h.frame ▸ hk.frame⟩
  have h₁ := h.lock k hL
  have h₂ := hk.lock
  have h₃ := h.view_eq
  omega

structure Calm (L : ℕ → Prop) (w w' : World) : Prop where
  clean : w'.frame.Clean
  suffix : w.log <:+ w'.log
  view_le : w.view ≤ w'.view
  committed : w'.frame.committed = w.frame.committed
  fresh : w.frame.Fresh → w'.frame.Fresh
  level : Levels L w w'

namespace Calm

variable {L : ℕ → Prop} {a b c w w' : World}

theorem refl (h : w.frame.Clean) : Calm L w w :=
  ⟨h, List.suffix_refl _, Nat.le_refl _, rfl, id, fun _ _ _ h => h⟩

theorem trans (hab : Calm L a b) (hbc : Calm L b c) : Calm L a c where
  clean := hbc.clean
  suffix := hab.suffix.trans hbc.suffix
  view_le := hab.view_le.trans hbc.view_le
  committed := hbc.committed.trans hab.committed
  fresh := fun h => hbc.fresh (hab.fresh h)
  level := hab.level.trans hbc.level hbc.suffix

theorem of_quiet (h : Quiet L w w') (hclean : w.frame.Clean) : Calm L w w' where
  clean := h.frame ▸ hclean
  suffix := h.suffix
  view_le := h.view_eq.ge
  committed := congrArg Frame.committed h.frame
  fresh := fun hf => h.frame ▸ hf
  level := h.levels

end Calm

def Calmly (L : ℕ → Prop) {α : Type} (x : EngineM α) (w : World) : Prop :=
  w.frame.Clean → Outcome x w (fun _ w' => Calm L w w') (Calm L w)

namespace Calmly

variable {L : ℕ → Prop} {α β : Type} {w : World}

theorem pure {a : α} : Calmly L (Pure.pure a : EngineM α) w := fun hw => .refl hw

variable {k : α → EngineM β} {x : EngineM α}

theorem throw_bind {err : ConsensusError} :
    Calmly L (MonadExcept.throw err >>= k) w := fun hw => .refl hw

/-- A first part about which more is known. -/
theorem bind_of {P : α → World → Prop}
    (hx : w.frame.Clean → Outcome x w (fun a w' => Calm L w w' ∧ P a w') (Calm L w))
    (hk : ∀ a w', Calm L w w' → P a w' → Calmly L (k a) w') : Calmly L (x >>= k) w := fun hw =>
  Outcome.bind (hx hw) fun a w' ⟨hcalm, hp⟩ =>
    (hk a w' hcalm hp hcalm.clean).mono (fun _ _ h => hcalm.trans h) fun _ h => hcalm.trans h

theorem bind (hx : Calmly L x w) (hk : ∀ a w', Calm L w w' → Calmly L (k a) w') :
    Calmly L (x >>= k) w :=
  bind_of (P := fun _ _ => True) (fun hw => (hx hw).mono (fun _ _ h => ⟨h, trivial⟩) fun _ h => h)
    fun a w' hcalm _ => hk a w' hcalm

theorem ite {c : Prop} [Decidable c] {y : EngineM α} (hx : c → Calmly L x w)
    (hy : ¬ c → Calmly L y w) : Calmly L (if c then x else y) w :=
  fun hw => .ite (fun h => hx h hw) fun h => hy h hw

theorem engine_bind {k : Engine → EngineM β} (h : Calmly L (k w.engine) w) :
    Calmly L (EngineM.engine >>= k) w := h

theorem rank_bind {k : (ℕ → ℕ) → EngineM β} (h : Calmly L (k w.env.rank) w) :
    Calmly L (EngineM.rank >>= k) w := h

theorem ofExcept_bind {r : Except ConsensusError α} (h : ∀ a, r = .ok a → Calmly L (k a) w) :
    Calmly L (ofExcept r >>= k) w := by
  cases r with
  | error err => exact throw_bind
  | ok a => exact h a rfl

theorem of_quietly (h : Quietly L x w) : Calmly L x w := fun hw =>
  (Outcome.of_guarantee h).mono (fun _ _ hq => .of_quiet hq.1 hw) fun _ hq => .of_quiet hq hw

theorem bind_quietly (hx : Quietly L x w) (hk : ∀ a w', Quiet L w w' → Calmly L (k a) w') :
    Calmly L (x >>= k) w :=
  bind_of (P := fun _ w' => Quiet L w w') (fun hw => (Outcome.of_guarantee hx).mono
    (fun _ _ h => ⟨.of_quiet h.1 hw, h.1⟩) fun _ h => .of_quiet h hw) fun a w' _ hq => hk a w' hq

theorem update {f : Engine → Engine}
    (hround : (f w.engine).roundState.lockedQc = w.engine.roundState.lockedQc ∧
      (f w.engine).roundState.currentView = w.engine.roundState.currentView ∧
      (f w.engine).roundState.lastCommittedQc = w.engine.roundState.lastCommittedQc)
    (hclean : w.frame.Clean → (w.setEngine (f w.engine)).frame.Clean)
    (hfresh : w.frame.Fresh → (w.setEngine (f w.engine)).frame.Fresh)
    (hlevel : ∀ k, L k → w.Leveled k → (w.setEngine (f w.engine)).frame.Leveled k) :
    Calmly L (EngineM.update f) w := fun hw =>
  { clean := hclean hw
    suffix := List.suffix_refl _
    view_le := hround.2.1.ge
    committed := hround.2.2
    fresh := hfresh
    level := fun k hL _ hk => by
      refine ⟨?_, hlevel k hL hk⟩
      show (f w.engine).roundState.lockedQc.view ≤ max (f w.engine).roundState.currentView k
      rw [hround.1, hround.2.1]
      exact hk.lock }

end Calmly

/-- An operation that reaches a view, or is cut short by a refused output. -/
def Reaching (L : ℕ → Prop) (target : ℕ) {α : Type} (x : EngineM α) (w : World) : Prop :=
  w.frame.Clean → Outcome x w (fun _ w' => Calm L w w' ∧ target ≤ w'.view)
    fun w' => Calm L w w' ∧ Refused w w'

/-- How a view change behaves. -/
def Advancing (advance : ℕ → EngineM Unit) : Prop :=
  ∀ L w newView, Reaching L newView (advance newView) w

section Reaching

variable {L : ℕ → Prop} {α : Type} {w : World}

variable {target : ℕ} {x : EngineM α}

theorem Reaching.calmly (h : Reaching L target x w) : Calmly L x w :=
  fun hw => (h hw).mono (fun _ _ hx => hx.1) fun _ hx => hx.1

theorem Reaching.after {β : Type} {k : α → EngineM β}
    (hx : Outcome x w (fun _ w' => Quiet L w w') fun w' => Quiet L w w' ∧ Refused w w')
    (hk : ∀ a w', Quiet L w w' → Reaching L target (k a) w') : Reaching L target (x >>= k) w := by
  intro hw
  refine Outcome.bind (P := fun _ w' => Quiet L w w')
    (hx.mono (fun _ _ h => h) fun w' h => ⟨.of_quiet h.1 hw, h.2⟩) fun a w' hq => ?_
  have hcalm := Calm.of_quiet hq hw
  refine (hk a w' hq hcalm.clean).mono (fun _ _ h => ⟨hcalm.trans h.1, h.2⟩) fun _ h => ?_
  exact ⟨hcalm.trans h.1, h.2.of_suffix hcalm.suffix⟩

theorem Reaching.emit_viewChanged (hx : Reaching L target x w) :
    Reaching L target (x >>= fun _ => EngineM.engine >>= fun e =>
      EngineM.emit (.viewChanged e.currentView)) w := by
  intro hw
  refine Outcome.bind (hx hw) fun a w' ⟨hcalm, hview⟩ => ?_
  have hrun : (EngineM.engine >>= fun e => EngineM.emit (.viewChanged e.currentView)) w' =
      EngineM.emit (.viewChanged w'.engine.currentView) w' := rfl
  unfold Outcome
  rw [hrun, Sound.emit_run]
  have hpush := fun accepted => hcalm.trans
    (.of_quiet (.push w' (.emit (.viewChanged w'.engine.currentView) accepted)) hcalm.clean)
  split_ifs
  · exact ⟨hpush true, hview⟩
  · exact ⟨hpush false, _, _, rfl, hcalm.suffix⟩

theorem emit_outcome (output : EngineOutput) : Outcome (EngineM.emit output) w
    (fun _ w' => Quiet L w w') fun w' => Quiet L w w' ∧ Refused w w' := by
  unfold Outcome
  rw [Sound.emit_run]
  split_ifs
  · exact .push w _
  · exact ⟨.push w _, _, _, rfl, List.suffix_refl _⟩

/-- Raising the lock to a certificate is calm if the rest reaches the certificate's view. -/
theorem calmly_lock {qc : QuorumCertificate} {k : Unit → EngineM α}
    (hk : ∀ w', w'.frame = w.frame → Reaching (fun _ => True) target (k ()) w')
    (hqc : ∀ height, L height → w.Leveled height → qc.view ≤ max (max target w.view) height) :
    Calmly L (EngineM.updateLockedQc qc >>= k) w := by
  intro hw
  obtain ⟨w₁, hrun, hs, hframe, hlock, -⟩ := updateLockedQc_run qc w
  have hview : w₁.view = w.view := congrArg Frame.view hframe
  have hrest := hk w₁ hframe (hframe ▸ hw)
  have hcalm : ∀ w', Calm (fun _ => True) w₁ w' → (¬ LostOutput w'.log → target ≤ w'.view) →
      Calm L w w' := by
    intro w' hc htarget
    refine ⟨hc.clean, hs.trans hc.suffix, hview ▸ hc.view_le, hc.committed.trans ?_, ?_, ?_⟩
    · rw [hframe]
    · exact fun hf => hc.fresh (hframe ▸ hf)
    · intro height hL hlost hheight
      have hraised : w₁.Leveled (max height qc.view) := by
        refine ⟨?_, hframe ▸ (hheight.raise qc.view).frame⟩
        have := hheight.lock
        omega
      have hend := hc.level _ trivial hlost hraised
      refine hend.lower ?_
      have h₁ := hqc height hL hheight
      have h₂ := htarget hlost
      have h₃ := hc.view_le
      omega
  unfold Outcome
  rw [bind_run, hrun]
  refine (show Outcome (k ()) w₁ _ _ from hrest).mono (fun _ w' h => ?_) fun w' h => ?_
  · exact hcalm w' h.1 fun _ => h.2
  · exact hcalm w' h.1 fun hlost => absurd h.2.lost hlost

end Reaching

/-- Within a run from `w` only the heights that `w` satisfies matter. -/
theorem Calmly.assume {L : ℕ → Prop} {α : Type} {x : EngineM α} {w : World}
    (h : Calmly (fun k => L k ∧ w.Leveled k) x w) : Calmly L x w := fun hw =>
  (h hw).mono (fun _ _ hc => { hc with level := fun k hL hlost hk => hc.level k ⟨hL, hk⟩ hlost hk })
    fun _ hc => { hc with level := fun k hL hlost hk => hc.level k ⟨hL, hk⟩ hlost hk }

end N42
