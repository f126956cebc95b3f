import N42.Conduct.Timeout
import N42.Audit.StateMachine

/-!
View changes and the replays in them commit nothing.

A replayed message is of a view that has just begun, so no votes are collected and the
vote handlers have nothing to count.
-/

namespace N42

open Lib EngineM List

section Votes

variable [Crypto] {L : ℕ → Prop} {w : World} {advance : ℕ → EngineM Unit}

theorem processVoteInner_fresh {vote : Vote} {verified : Bool} (hfresh : w.frame.Fresh) :
    Quietly L (processVoteInner advance vote verified) w := by
  refine .ite (fun _ => .throw_bind) fun _ => .ite (fun _ => .pure) fun _ => ?_
  have hcount : ∀ w', Quiet L w w' → Quietly L (countVote advance vote) w' := by
    intro w' hw'
    have hnone : w'.engine.voteCollector = none := (congrArg Frame.votes hw'.frame).trans hfresh.1
    refine .engine_bind ?_
    rw [hnone]
    dsimp only
    split <;> exact .placid
  refine .ite (fun _ => ?_) fun _ => hcount w (Std.Refl.refl w)
  exact .bind .placid fun _ w' hw' => hcount w' hw'

theorem processCommitVoteInner_fresh {cv : CommitVote} {verified : Bool} (hfresh : w.frame.Fresh) :
    Quietly L (processCommitVoteInner advance cv verified) w := by
  refine .ite (fun _ => .throw_bind) fun _ => .ite (fun _ => .pure) fun _ => ?_
  have hcount : ∀ w', Quiet L w w' → Quietly L (countCommitVote advance cv) w' := by
    intro w' hw'
    have hnone : w'.engine.commitCollector = none :=
      (congrArg Frame.commitVotes hw'.frame).trans hfresh.2
    refine .engine_bind ?_
    rw [hnone]
    dsimp only
    split <;> exact .placid
  refine .ite (fun _ => ?_) fun _ => hcount w (Std.Refl.refl w)
  exact .bind .placid fun _ w' hw' => hcount w' hw'

end Votes

section Advance

variable [Crypto] {L : ℕ → Prop} {w : World}

theorem crossEpochBoundaries_outcome (target n : ℕ) :
    Outcome (crossEpochBoundaries target n) w (fun _ w' => Quiet L w w')
      fun w' => Quiet L w w' ∧ Refused w w' := by
  induction n generalizing w with
  | zero => exact .pure (Std.Refl.refl w)
  | succ n ih =>
    refine engine_outcome (.ite (fun _ => ?_) fun _ => .pure (Std.Refl.refl w))
    have hcrossed : Quiet L w w.crossed := ⟨suffix_cons _ _, rfl, fun _ _ => Nat.le_max_left _ _⟩
    refine Outcome.bind (P := fun _ w' => Quiet L w w') ?_ fun _ w' hw' => ?_
    · unfold Outcome
      rw [crossEpochBoundary_run]
      refine (emit_outcome (L := L) _).mono (fun _ _ h => IsTrans.trans _ _ _ hcrossed h) ?_
      exact fun _ h => ⟨IsTrans.trans _ _ _ hcrossed h.1, h.2.of_suffix hcrossed.suffix⟩
    · refine ih.mono (fun _ _ h => IsTrans.trans _ _ _ hw' h) fun _ h => ?_
      exact ⟨IsTrans.trans _ _ _ hw' h.1, h.2.of_suffix hw'.suffix⟩

/-- A new view begins with nothing collected. -/
def Frame.entered (f : Frame) (newView : ℕ) : Frame where
  view := newView
  committed := f.committed
  votes := none
  commitVotes := none
  timeouts := none
  futureTimeouts := f.futureTimeouts.retain fun view =>
    newView < view ∧ view ≤ satAdd newView futureViewWindow
  buffer := f.buffer

variable {newView : ℕ}

theorem enterView_frame (hnew : w.view < newView) :
    (w.setEngine (w.engine.enterView newView)).frame = w.frame.entered newView ∧
      (w.setEngine (w.engine.enterView newView)).lockView = w.lockView := by
  have hround : w.engine.roundState.advanceView newView =
      { w.engine.roundState with currentView := newView, phase := .waitingForProposal } :=
    if_neg (Nat.not_le.mpr hnew)
  unfold Engine.enterView
  rw [Engine.syncLocalValidatorIndex_eq, hround]
  exact ⟨rfl, rfl⟩

omit [Crypto] in
theorem Calm.entered {w' : World} (hw : w.frame.Clean) (hnew : w.view < newView)
    (hlog : w.log <:+ w'.log) (hframe : w'.frame = w.frame.entered newView)
    (hlock : w'.lockView = w.lockView) : Calm L w w' where
  clean := hframe ▸ ⟨by simp [Frame.entered], by simp [Frame.entered], hw.buffer⟩
  suffix := hlog
  view_le := hnew.le.trans (congrArg Frame.view hframe).ge
  committed := hframe ▸ rfl
  fresh := fun _ => hframe ▸ ⟨rfl, rfl⟩
  level := fun k hL _ hk => by
    have hview : w'.view = newView := congrArg Frame.view hframe
    refine ⟨?_, hframe ▸ ⟨by simp [Frame.entered], fun view c hc => ?_, hk.frame.buffer⟩⟩
    · have := hk.lock
      omega
    · obtain ⟨hlookup, hkeep⟩ := Map.lookup_retain hc
      obtain ⟨hview, -, hhigh⟩ := hk.frame.future view c hlookup
      exact ⟨hview, (of_decide_eq_true hkeep).1, hhigh⟩

theorem changeView_outcome (hw : w.frame.Clean) (hnew : w.view < newView) :
    Outcome (changeView newView) w
      (fun _ w' => Calm L w w' ∧ newView ≤ w'.view ∧ w'.frame.Fresh)
      fun w' => Calm L w w' ∧ Refused w w' := by
  refine engine_outcome (Outcome.bind (P := fun _ w' => Quiet L w w')
    ((crossEpochBoundaries_outcome _ _).mono (fun _ _ h => h) fun _ h => ⟨.of_quiet h.1 hw, h.2⟩)
    fun _ w₁ hw₁ => ?_)
  have hcalm := Calm.of_quiet hw₁ hw
  have hnew₁ : (w₁.push (.enter newView)).view < newView := hw₁.view_eq.trans_lt hnew
  obtain ⟨hframe, hlock⟩ := enterView_frame hnew₁
  have hentered : Calm L w₁ ((w₁.push (.enter newView)).setEngine (w₁.engine.enterView newView)) :=
    .entered hcalm.clean hnew₁ (suffix_cons _ _) hframe hlock
  exact ⟨hcalm.trans hentered, (congrArg Frame.view hframe).ge, congrArg Frame.votes hframe,
    congrArg Frame.commitVotes hframe⟩

omit [Crypto] in
theorem drainBuffer_outcome (hw : w.frame.Clean) (newView : ℕ) :
    Outcome (drainBuffer newView) w (fun messages w' => Calm L w w' ∧
      ∀ m ∈ messages, isExempt m = false ∧ ∀ k, w.Leveled k → m.Level) fun _ => False := by
  let kept := w.engine.futureMsgBuffer.filter fun entry =>
    newView < entry.1 ∧ entry.1 ≤ wrapAdd newView futureViewWindow
  have hkept : ∀ entry, entry ∈ kept → entry ∈ w.engine.futureMsgBuffer := fun _ h =>
    (mem_filter.mp h).1
  show Calm L w (w.setEngine { w.engine with futureMsgBuffer := kept }) ∧ _
  refine ⟨⟨{ hw with buffer := fun view m hm => hw.buffer view m (hkept _ hm) }, suffix_refl _,
    Nat.le_refl _, rfl, id, fun k _ _ hk => ⟨hk.lock, { hk.frame with
      buffer := fun view m hm => hk.frame.buffer view m (hkept _ hm) }⟩⟩, fun m hm => ?_⟩
  obtain ⟨⟨view, m⟩, hentry, rfl⟩ := mem_map.mp hm
  have hmem := (mem_filter.mp hentry).1
  exact ⟨hw.buffer view m hmem, fun k hk => hk.frame.buffer view m hmem⟩

/-- What a replay of a buffered message has to satisfy. -/
def ReplaysCalmly (replay : ConsensusMessage → EngineM Unit) : Prop :=
  ∀ L w m, w.frame.Fresh → isExempt m = false → (∀ k, L k → m.Level) → Calmly L (replay m) w

variable {replay : ConsensusMessage → EngineM Unit}

omit [Crypto] in
theorem replayAll_outcome (hreplay : ReplaysCalmly replay) {messages : List ConsensusMessage}
    (hw : w.frame.Clean) (hfresh : w.frame.Fresh)
    (hm : ∀ m ∈ messages, isExempt m = false ∧ ∀ k, L k → m.Level) :
    Outcome (replayAll replay messages) w (fun _ w' => Calm L w w') fun _ => False := by
  induction messages generalizing w with
  | nil => exact .pure (.refl hw)
  | cons m rest ih =>
    unfold replayAll
    obtain ⟨hexempt, hlevel⟩ := hm m mem_cons_self
    have hone : Outcome (discard (EngineM.succeeds (replay m))) w (fun _ w' => Calm L w w')
        fun _ => False := by
      have hx := hreplay L w m hfresh hexempt hlevel hw
      refine Outcome.bind (P := fun _ w' => Calm L w w') ?_ fun _ _ h => .pure h
      unfold Outcome at hx ⊢
      unfold EngineM.succeeds
      cases hrun : replay m w with
      | ok a w' => rwa [hrun] at hx
      | error err w' => rwa [hrun] at hx
    refine Outcome.bind hone fun _ w₁ hw₁ => ?_
    exact (ih hw₁.clean (hw₁.fresh hfresh) fun m' hm' => hm m' (mem_cons_of_mem _ hm')).mono
      (fun _ _ h => hw₁.trans h) fun _ h => h

theorem advanceAndReplay_reaching (hreplay : ReplaysCalmly replay) :
    Advancing (advanceAndReplay replay) := by
  intro L w newView hw
  refine engine_outcome (.ite (fun hle => .pure ⟨.refl hw, hle⟩) fun hnew => ?_)
  have hnew : w.view < newView := Nat.lt_of_not_le hnew
  have hupdate : Quiet L w (w.setEngine { w.engine with
      previousPrepareQc := w.engine.prepareQc, prepareQc := none }) := .setEngine rfl
  have hcalm := Calm.of_quiet hupdate hw
  refine Outcome.run_bind rfl ?_
  refine Outcome.bind ((changeView_outcome (L := L) hcalm.clean hnew).mono (fun _ _ h => h)
    fun _ h => ⟨hcalm.trans h.1, h.2.of_suffix hcalm.suffix⟩) ?_
  rintro _ w₁ ⟨hw₁, hview, hfresh⟩
  have hcalm₁ := hcalm.trans hw₁
  -- only the heights at which the new view begins matter for what is replayed
  refine Outcome.bind ((drainBuffer_outcome (L := L) hw₁.clean newView).mono (fun _ _ h => h)
    fun _ h => h.elim) ?_
  rintro messages w₂ ⟨hw₂, hmessages⟩
  have hguard : ∀ m ∈ messages, isExempt m = false ∧ ∀ k, L k ∧ w₁.Leveled k → m.Level :=
    fun m hm => ⟨(hmessages m hm).1, fun k hk => (hmessages m hm).2 k hk.2⟩
  refine (replayAll_outcome hreplay hw₂.clean (hw₂.fresh hfresh) hguard).mono (fun _ w₃ hw₃ => ?_)
    fun _ h => h.elim
  have hw₃' : Calm L w₁ w₃ := {
    clean := hw₃.clean
    suffix := hw₂.suffix.trans hw₃.suffix
    view_le := hw₂.view_le.trans hw₃.view_le
    committed := hw₃.committed.trans hw₂.committed
    fresh := fun h => hw₃.fresh (hw₂.fresh h)
    level := fun k hL hlost hk => hw₃.level k ⟨hL, hk⟩ hlost
      (hw₂.level k hL (fun h => hlost (h.of_suffix hw₃.suffix)) hk) }
  exact ⟨hcalm₁.trans hw₃', hview.trans hw₃'.view_le⟩

theorem dispatchMessage_replayed {advance : ℕ → EngineM Unit} (hadv : Advancing advance) :
    ReplaysCalmly fun m => dispatchMessage advance m none := by
  intro L w m hfresh hexempt hlevel
  cases m with
  | proposal p => exact .of_quietly (processProposal_quiet hlevel)
  | vote v => exact .of_quietly (processVoteInner_fresh hfresh)
  | commitVote cv => exact .engine_bind (.of_quietly (processCommitVoteInner_fresh hfresh))
  | prepareQc pqc => exact .of_quietly (processPrepareQc_quiet pqc)
  | timeout t =>
    refine processTimeout_calm hadv fun k hL _ => ?_
    exact (hlevel k hL t.highQc mem_cons_self).trans (Nat.le_max_left _ _)
  | newView nv => cases hexempt
  | decide d => cases hexempt

theorem advanceToView_reaching (depth : ℕ) : Advancing (advanceToView depth) := by
  induction depth with
  | zero => exact advanceAndReplay_reaching fun _ _ _ _ _ _ => .pure
  | succ depth ih => exact advanceAndReplay_reaching (dispatchMessage_replayed ih)

end Advance

end N42
