import N42.Conduct.Calm

/-!
Timeouts commit nothing, given that view changes do not.
-/

namespace N42

open Lib EngineM TimeoutCollector

section Timeouts

variable [Crypto] {L : ℕ → Prop} {w : World} {advance : ℕ → EngineM Unit}

/-- The next leader always finds itself in the set. -/
theorem broadcastNewView_outcome (tc : TimeoutCertificate) (nextView : ℕ) :
    Outcome (broadcastNewView tc nextView) w (fun _ w' => Quiet L w w')
      fun w' => Quiet L w w' ∧ Refused w w' := by
  refine engine_outcome (.ite (fun hleader => ?_) fun _ => .pure (Std.Refl.refl w))
  have hindex : w.engine.localValidatorIndexForView nextView =
      some (w.engine.leaderIndexForView nextView) := by
    simpa [Engine.isLeaderForView] using hleader
  rw [hindex]
  have hpush := Quiet.push (L := L) w (.release (.newView nextView))
  refine (emit_outcome _).mono (fun _ _ h => IsTrans.trans _ _ _ hpush h) fun _ h => ?_
  exact ⟨IsTrans.trans _ _ _ hpush h.1, h.2.of_suffix hpush.suffix⟩

theorem advanceWithTc_calm (hadv : Advancing advance) {tc : TimeoutCertificate} {nextView : ℕ}
    (hqc : ∀ k, L k → w.Leveled k → tc.highQc.view ≤ max (max nextView w.view) k) :
    Calmly L (advanceWithTc advance tc nextView) w := by
  refine calmly_lock (fun w₁ _ => ?_) hqc
  exact .after (broadcastNewView_outcome tc nextView) fun _ w₂ _ => (hadv _ w₂ _).emit_viewChanged

theorem tryFormTcAndAdvance_calm (hadv : Advancing advance) (currentView nextView : ℕ) :
    Calmly L (tryFormTcAndAdvance advance currentView nextView) w := by
  refine .engine_bind ?_
  split
  · exact .pure
  · next collector hcollector =>
    refine .rank_bind (.ofExcept_bind fun tc htc => .assume ?_)
    refine .bind (.of_quietly .placid) fun _ w₁ hw₁ => advanceWithTc_calm hadv ?_
    rintro k ⟨-, hk⟩ -
    obtain ⟨hview, hhigh⟩ := hk.frame.timeouts collector hcollector
    obtain ⟨-, -, -, i, sig, hlookup⟩ := buildTcWithProfile_ok htc
    have hle := hhigh i sig tc.highQc hlookup
    have hmono := hw₁.view_le
    have hview' : collector.view = w.view := hview
    omega

section

omit [Crypto]

theorem TimeoutCollector.HighBelow.add {c c' : TimeoutCollector} {k i : ℕ}
    {signature : BlsSignature} {qc : QuorumCertificate} (h : c.HighBelow k)
    (hqc : qc.view ≤ max c.view k) (hadd : c.addVerifiedTimeout i signature qc = some c') :
    c'.view = c.view ∧ c'.HighBelow k := by
  obtain ⟨hview, hlookup⟩ := addVerifiedTimeout_eq_some hadd
  refine ⟨hview, fun j sig qc' hj => ?_⟩
  rw [hview]
  obtain ⟨-, -, rfl⟩ | hold := hlookup j sig qc' hj
  · exact hqc
  · exact h j sig qc' hold

theorem TimeoutCollector.highBelow_new (view setSize k : ℕ) :
    (TimeoutCollector.new view setSize).HighBelow k := by
  intro index sig qc h
  simp [new] at h

theorem World.Leveled.collector {k : ℕ} (h : w.Leveled k) (setSize : ℕ) :
    (w.engine.timeoutCollector.getD (.new w.view setSize)).view = w.view ∧
      (w.engine.timeoutCollector.getD (.new w.view setSize)).HighBelow k := by
  cases hc : w.engine.timeoutCollector with
  | none => exact ⟨rfl, highBelow_new _ _ _⟩
  | some c => exact h.frame.timeouts c hc

theorem World.Leveled.futureCollector {k : ℕ} (h : w.Leveled k) (view setSize : ℕ) :
    ((w.engine.futureTimeoutCollectors.lookup view).getD (.new view setSize)).view = view ∧
      ((w.engine.futureTimeoutCollectors.lookup view).getD (.new view setSize)).HighBelow k := by
  cases hc : w.engine.futureTimeoutCollectors.lookup view with
  | none => exact ⟨rfl, highBelow_new _ _ _⟩
  | some c => exact ⟨(h.frame.future view c hc).1, (h.frame.future view c hc).2.2⟩

theorem setTimeouts_calm {collector : TimeoutCollector}
    (h : ∀ k, L k → w.Leveled k → collector.view = w.view ∧ collector.HighBelow k) :
    Calmly L (update fun e => { e with timeoutCollector := some collector }) w := by
  refine .update ⟨rfl, rfl, rfl⟩ (fun h => { h with }) id fun k hL hk =>
    { hk.frame with timeouts := ?_ }
  rintro _ ⟨rfl⟩
  exact h k hL hk

end

variable {timeout : TimeoutMessage}

theorem countTimeout_calm (hadv : Advancing advance)
    (hqc : ∀ k, L k → w.Leveled k → timeout.highQc.view ≤ max w.view k) :
    Calmly L (countTimeout advance timeout) w := by
  refine .engine_bind ?_
  dsimp only
  split
  · exact setTimeouts_calm fun k _ hk => hk.collector _
  · next collector hadd =>
    refine .bind (setTimeouts_calm fun k hL hk => ?_) fun _ w₁ _ => ?_
    · obtain ⟨hview, hhigh⟩ := hk.collector (w.engine.validatorSetForView w.view).len
      obtain ⟨hview', hhigh'⟩ := hhigh.add (hview.symm ▸ hqc k hL hk) hadd
      exact ⟨hview'.trans hview, hhigh'⟩
    refine .bind (.of_quietly .placid) fun _ w₂ _ => ?_
    exact .ite (fun _ => tryFormTcAndAdvance_calm hadv _ _) fun _ => .pure

theorem processTimeout_calm (hadv : Advancing advance)
    (hqc : ∀ k, L k → w.Leveled k → timeout.highQc.view ≤ max timeout.view k) :
    Calmly L (processTimeout advance timeout) w := by
  refine .ite (fun _ => .pure) fun hle => .ite (fun _ => .pure) fun hge => .assume ?_
  have hview : timeout.view = w.view := Nat.le_antisymm (Nat.not_lt.mp hge) (Nat.not_lt.mp hle)
  refine .bind (.of_quietly .placid) fun _ w₁ hw₁ => ?_
  refine .bind (.of_quietly .placid) fun _ w₂ hw₂ => ?_
  refine countTimeout_calm hadv ?_
  rintro k ⟨hL, hk⟩ -
  have h₁ := hqc k hL hk
  have h₂ := hw₁.view_le
  have h₃ := hw₂.view_le
  omega

/-- The engine's own timeout carries its lock. -/
theorem broadcastTimeout_calm (hw : w.frame.Clean) : Outcome broadcastTimeout w
    (fun timeout w' => Calm L w w' ∧ timeout.view = w.view ∧
      timeout.highQc = w.engine.roundState.lockedQc) (Calm L w) := by
  refine engine_outcome ?_
  refine Outcome.run_bind rfl ?_
  have hpush := Quiet.push (L := L) w (.release (.timeout w.view))
  have hcalm := fun {w'} (h : Quiet L _ w') => Calm.of_quiet (IsTrans.trans _ _ _ hpush h) hw
  refine Outcome.bind ((emit_outcome (L := L) _).mono (fun _ _ h => hcalm h)
    fun _ h => hcalm h.1) fun _ w' h => ?_
  exact ⟨h, rfl, rfl⟩

theorem repeatTimeout_calm (hadv : Advancing advance) : Calmly L (repeatTimeout advance) w := by
  refine .bind_of (P := fun _ _ => True) (fun hw => Outcome.bind (broadcastTimeout_calm hw)
    fun _ _ h => .pure ⟨h.1, trivial⟩) fun _ w₁ _ _ => .engine_bind ?_
  split
  · exact .pure
  · exact .ite (fun _ => tryFormTcAndAdvance_calm hadv _ _) fun _ => .pure

theorem onTimeout_calm (hadv : Advancing advance) : Calmly L (onTimeout advance) w := by
  refine .ite (fun _ => ?_) fun _ => .ite (fun _ => ?_) fun _ => ?_
  · exact .bind (.of_quietly (.of_run rfl (.setEngine rfl))) fun _ _ _ => .pure
  · exact .bind (repeatTimeout_calm hadv) fun _ _ _ => .pure
  · refine .bind (.update ⟨rfl, rfl, rfl⟩ (fun h => { h with }) id fun k _ hk =>
      { hk.frame with timeouts := ?_ })
      fun _ w₁ hw₁ => ?_
    · rintro _ ⟨rfl⟩
      exact hk.collector _
    refine .assume (.bind_of broadcastTimeout_calm fun timeout w₂ _ ⟨hview, hhigh⟩ => ?_)
    refine processTimeout_calm hadv ?_
    rintro k ⟨-, hk⟩ -
    rw [hview, hhigh]
    exact hk.lock

theorem joinTimedOutView_calm (hadv : Advancing advance)
    (hqc : ∀ k, L k → timeout.highQc.view ≤ timeout.view) :
    Calmly L (joinTimedOutView advance timeout) w := by
  refine .bind (hadv L w timeout.view).calmly fun _ w₁ _ => ?_
  refine .engine_bind (.ite (fun _ => .pure) fun _ => ?_)
  refine .bind (processTimeout_calm hadv fun k hL _ => ?_) fun _ w₂ _ => ?_
  · exact (hqc k hL).trans (Nat.le_max_left _ _)
  · exact .engine_bind (.ite (fun _ => onTimeout_calm hadv) fun _ => .pure)

omit [Crypto] in
theorem setFutureTimeouts_calm {view : ℕ} {collector : TimeoutCollector}
    (h : ∀ k, L k → w.Leveled k →
      collector.view = view ∧ w.view < view ∧ collector.HighBelow k) :
    Calmly L (update fun e => { e with
      futureTimeoutCollectors := e.futureTimeoutCollectors.insert view collector }) w := by
  refine .update ⟨rfl, rfl, rfl⟩ (fun h => { h with }) id fun k hL hk =>
    { hk.frame with future := ?_ }
  intro view' c hc
  by_cases heq : view' = view
  · subst heq
    have hc : (w.engine.futureTimeoutCollectors.insert view' collector).lookup view' = some c := hc
    rw [AList.lookup_insert] at hc
    exact Option.some.inj hc ▸ h k hL hk
  · have hc : (w.engine.futureTimeoutCollectors.insert view collector).lookup view' = some c := hc
    rw [AList.lookup_insert_ne heq] at hc
    exact hk.frame.future view' c hc

variable (hadv : Advancing advance)
include hadv

theorem countFutureTimeout_calm {viewSet : ValidatorSet} (hlater : w.view < timeout.view)
    (hmax : timeout.view ≤ u64Max) (hqc : ∀ k, L k → timeout.highQc.view ≤ timeout.view) :
    Calmly L (countFutureTimeout advance timeout viewSet) w := by
  refine .engine_bind ?_
  dsimp only
  split
  · refine .bind (setFutureTimeouts_calm fun k _ hk => ?_) fun _ _ _ => .pure
    obtain ⟨hview, hhigh⟩ := hk.futureCollector timeout.view viewSet.len
    exact ⟨hview, hlater, hhigh⟩
  · next collector hadd =>
    have hcollector : ∀ k, L k → w.Leveled k →
        collector.view = timeout.view ∧ w.view < timeout.view ∧ collector.HighBelow k := by
      intro k hL hk
      obtain ⟨hview, hhigh⟩ := hk.futureCollector timeout.view viewSet.len
      have hle := hqc k hL
      obtain ⟨hview', hhigh'⟩ := hhigh.add (by omega) hadd
      exact ⟨hview'.trans hview, hlater, hhigh'⟩
    refine .assume (.bind (setFutureTimeouts_calm fun k hL hk => hcollector k hL.1 hk) ?_)
    intro _ w₁ hw₁
    refine .ite (fun _ => ?_) fun _ => .ite (fun _ => ?_) fun _ => .pure
    · refine .rank_bind (.ofExcept_bind fun tc htc => ?_)
      refine .bind (.of_quietly .placid) fun _ w₂ hw₂ => ?_
      refine .bind (.update ⟨rfl, rfl, rfl⟩ (fun h => { h with }) id fun k _ hk =>
        { hk.frame with future := ?_ })
        fun _ w₃ hw₃ => ?_
      · intro view c hc
        have hc : (w₂.engine.futureTimeoutCollectors.erase timeout.view).lookup view = some c := hc
        by_cases heq : view = timeout.view
        · rw [heq, AList.lookup_erase] at hc
          cases hc
        · rw [AList.lookup_erase_ne heq] at hc
          exact hk.frame.future view c hc
      refine .bind (advanceWithTc_calm hadv ?_) fun _ _ _ => .pure
      rintro k ⟨hL, hk⟩ -
      obtain ⟨hview, -, hhigh⟩ := hcollector k hL hk
      obtain ⟨-, -, -, i, sig, hlookup⟩ := buildTcWithProfile_ok htc
      have hle := hhigh i sig tc.highQc hlookup
      have hnext : timeout.view ≤ satAdd timeout.view 1 := by
        simp only [satAdd]
        omega
      omega
    · exact .bind (joinTimedOutView_calm hadv fun k hL => hqc k hL.1) fun _ _ _ => .pure

theorem collectFutureTimeout_calm (hqc : ∀ k, L k → timeout.highQc.view ≤ timeout.view) :
    Calmly L (collectFutureTimeout advance timeout) w := by
  refine .engine_bind (.ite (fun _ => .pure) fun hwindow => ?_)
  push Not at hwindow
  have hmax : timeout.view ≤ u64Max := hwindow.2.trans (satAdd_le_max _ _)
  dsimp only
  split
  · refine .bind_quietly .placid fun _ w₁ hw₁ => .bind_quietly .placid fun _ w₂ hw₂ => ?_
    refine .bind_quietly .placid fun _ w₃ hw₃ => ?_
    refine countFutureTimeout_calm hadv ?_ hmax hqc
    rw [hw₃.view_eq, hw₂.view_eq, hw₁.view_eq]
    exact hwindow.1
  · exact .pure

theorem processNewView_calm {nv : NewView} (hqc : ∀ k, L k → nv.timeoutCert.highQc.view ≤ nv.view) :
    Calmly L (processNewView advance nv) w := by
  refine .engine_bind (.ite (fun _ => .pure) fun _ => ?_)
  refine .ite (fun _ => .throw_bind) fun _ => .ofExcept_bind fun _ _ => ?_
  refine .ite (fun _ => .throw_bind) fun _ => .ite (fun _ => .throw_bind) fun _ => ?_
  refine .bind (.of_quietly .placid) fun _ w₁ _ => .bind (.of_quietly .placid) fun _ w₂ _ => ?_
  refine calmly_lock (fun w₃ _ => (hadv _ w₃ nv.view).emit_viewChanged) fun k hL _ => ?_
  exact (hqc k hL).trans ((Nat.le_max_left _ _).trans (Nat.le_max_left _ _))

end Timeouts

end N42
