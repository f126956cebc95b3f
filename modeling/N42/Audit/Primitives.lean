import N42.Audit.Invariant

/-!
Specifications of the primitive operations of `EngineM`. Each one names the world that it
leads to, or the part of it that callers need; no handler proof unfolds a primitive.
-/

namespace N42

open Lib EngineM

variable (e : Engine) (qc : QuorumCertificate)

def Engine.withLock : Engine :=
  { e with roundState := e.roundState.updateLockedQc qc }

@[simp] theorem Engine.withLock_currentView : (e.withLock qc).currentView = e.currentView :=
  e.roundState.updateLockedQc_currentView qc

theorem Engine.view_le_withLock : qc.view ≤ (e.withLock qc).roundState.lockedQc.view :=
  e.roundState.view_le_updateLockedQc qc

variable [Crypto] {cfg : NodeConfig} {w : World}

namespace Sound

theorem record {x : Effect} (hx : Rule cfg w.log x) (hn : x.IsNote) :
    Sound cfg (EngineM.record x) w fun _ w' => w' = w.push x :=
  of_eq rfl (·.push hx hn) (.cons w.log hn.ne_boot)

theorem update {f : Engine → Engine} (hcore : (f w.engine).core = w.engine.core)
    (hstored : Inv cfg w → Stored cfg (f w.engine) w.log) :
    Sound cfg (EngineM.update f) w fun _ w' => w' = w.setEngine (f w.engine) :=
  of_eq rfl (fun hw => hw.setEngine hcore (hstored hw)) (.refl w.log)

variable {f : RoundState → RoundState}

theorem updateRound
    (hcore : { w.engine with roundState := f w.engine.roundState }.core = w.engine.core) :
    Sound cfg (EngineM.updateRound f) w fun _ w' =>
      w' = w.setEngine { w.engine with roundState := f w.engine.roundState } := by
  refine update hcore fun hw => ?_
  have hview : (f w.engine.roundState).currentView = w.engine.roundState.currentView :=
    congrArg Core.view hcore
  have h := hw.stored
  exact { h with
    pending := fun pp hpp => hview ▸ h.pending pp hpp
    votes := fun c hc => hview ▸ h.votes c hc
    commitVotes := fun c hc => hview ▸ h.commitVotes c hc
    timeouts := fun c hc => hview ▸ h.timeouts c hc
    voteTracker := fun i b hb => hview ▸ h.voteTracker i b hb
    commitTracker := fun i b hb => hview ▸ h.commitTracker i b hb
    proposalTracker := fun i c b hb => hview ▸ h.proposalTracker i c b hb }

omit [Crypto] in
theorem emit_run (output : EngineOutput) (w : World) :
    EngineM.emit output w =
      if w.env.fate w.log.length = .done then .ok () (w.push (.emit output true))
      else .error .outputChannelClosed (w.push (.emit output false)) := by
  have hrun : EngineM.emit output w =
      (if ¬ w.env.fate w.log.length = .done then MonadExcept.throw .outputChannelClosed
        else Pure.pure () : EngineM Unit)
        (w.push (.emit output (decide (w.env.fate w.log.length = .done)))) := rfl
  rw [hrun]
  by_cases h : w.env.fate w.log.length = .done
  · rw [if_neg (not_not.mpr h), if_pos h, decide_eq_true h]
    rfl
  · rw [if_pos h, if_neg h, decide_eq_false h]
    rfl

theorem emit {output : EngineOutput}
    (h : EmitRule cfg.signingProfile w.log (coreOf cfg w.log) output) :
    Sound cfg (EngineM.emit output) w fun _ w' => w' = w.push (.emit output true) :=
  of_outcome (emit_run output w) (.push h trivial) (.push h trivial)

omit [Crypto] in
theorem persist_run (mk : Fate → Effect) (w : World) :
    EngineM.persist mk w =
      if w.env.fate w.log.length = .done then .ok () (w.push (mk .done))
      else .error .voteLogFsync (w.push (mk (w.env.fate w.log.length))) := by
  have hrun : EngineM.persist mk w =
      (if w.env.fate w.log.length ≠ .done then MonadExcept.throw .voteLogFsync
        else Pure.pure () : EngineM Unit) (w.push (mk (w.env.fate w.log.length))) := rfl
  rw [hrun]
  by_cases h : w.env.fate w.log.length = .done
  · rw [if_neg (not_not.mpr h), if_pos h, h]
    rfl
  · rw [if_pos h, if_neg h]
    rfl

theorem persist {mk : Fate → Effect} (h : ∀ fate, Rule cfg w.log (mk fate))
    (hn : ∀ fate, (mk fate).IsNote) :
    Sound cfg (EngineM.persist mk) w fun _ w' => w' = w.push (mk .done) :=
  of_outcome (persist_run mk w) (.push (h _) (hn _)) (.push (h _) (hn _))

/-- A watermark is raised in memory and then on disk. In between the state is ahead of
the log, so the two make one step. -/
theorem updateRound_persist {mk : Fate → Effect} (h : ∀ fate, Rule cfg w.log (mk fate))
    (hboot : ∀ fate core, mk fate ≠ .boot core)
    (hcore : ∀ fate, { w.engine with roundState := f w.engine.roundState }.core =
      w.engine.core.apply (mk fate))
    (hstored : Stored cfg { w.engine with roundState := f w.engine.roundState } w.log)
    (hsteady : w.engine.core.Steady →
      { w.engine with roundState := f w.engine.roundState }.core.Steady) :
    Sound cfg (EngineM.updateRound f >>= fun _ => EngineM.persist mk) w fun _ w' =>
      w' = (w.setEngine { w.engine with roundState := f w.engine.roundState }).push
        (mk .done) := by
  have hkeep : ∀ fate, Keeps cfg w
      ((w.setEngine { w.engine with roundState := f w.engine.roundState }).push (mk fate)) :=
    fun fate hw => ⟨hw.step (h fate) (hboot fate) (hcore fate) hstored fun _ => hsteady,
      .cons w.log (hboot fate)⟩
  exact of_outcome (persist_run mk
    (w.setEngine { w.engine with roundState := f w.engine.roundState })) (hkeep _) (hkeep _)

theorem recordVote {view : ℕ} [hw : Inv cfg w] (hview : view = w.engine.currentView)
    (hmay : w.engine.roundState.mayVoteIn view = true) :
    Sound cfg (EngineM.recordVote view) w fun _ w' =>
      w' = (w.setEngine { w.engine with
        roundState := w.engine.roundState.recordVote view }).push (.persistVote view .done) := by
  have hrule : ∀ fate, Rule cfg w.log (.persistVote view fate) := fun _ => by
    simp only [Rule, ← hw.core]
    exact ⟨of_decide_eq_true hmay, hview⟩
  exact updateRound_persist hrule (by simp) (fun _ => rfl) { hw.stored with } fun h => h

theorem recordCommitVote {view : ℕ} [hw : Inv cfg w] (hview : view = w.engine.currentView)
    (hmay : w.engine.roundState.mayCommitVoteIn view = true) :
    Sound cfg (EngineM.recordCommitVote view) w fun _ w' =>
      w' = ((w.push (.persistLock w.engine.roundState.lockedQc .done)).setEngine
        { w.engine with roundState := w.engine.roundState.recordCommitVote view }).push
          (.persistCommitVote view .done) := by
  refine engine_bind ?_
  refine bind (persist (fun _ => ?_) fun _ => trivial) ?_
  · simp only [Rule, ← hw.core]
    rfl
  rintro _ _ hw₁ - rfl
  have hrule : ∀ fate, Rule cfg (w.push (.persistLock w.engine.roundState.lockedQc .done)).log
      (.persistCommitVote view fate) := fun _ => by
    simp only [Rule, ← hw₁.core]
    exact ⟨of_decide_eq_true hmay, hview, rfl⟩
  exact updateRound_persist hrule (by simp) (fun _ => rfl) { hw₁.stored with } fun h => h

variable {qc : QuorumCertificate} {cert : Certificate} {set : ValidatorSet}

theorem updateLockedQc [hw : Inv cfg w] (hqc : Trusted w.log qc) :
    Sound cfg (EngineM.updateLockedQc qc) w fun _ w' => w'.engine = w.engine.withLock qc := by
  have hrun : EngineM.updateLockedQc qc w = (if w.engine.roundState.lockedQc.view < qc.view then
      (EngineM.record (.lock qc) >>= fun _ => EngineM.updateRound (·.updateLockedQc qc))
      else EngineM.updateRound (·.updateLockedQc qc)) w := rfl
  by_cases hlt : w.engine.roundState.lockedQc.view < qc.view
  · have hrule : Rule cfg w.log (.lock qc) := by
      refine ⟨?_, hqc.resolve_left (by omega)⟩
      rw [← hw.core]
      exact hlt
    have hlock : w.engine.withLock qc =
        { w.engine with roundState := { w.engine.roundState with lockedQc := qc } } := by
      rw [Engine.withLock, RoundState.updateLockedQc, if_pos hlt]
    have hend : EngineM.updateLockedQc qc w =
        .ok () ((w.setEngine (w.engine.withLock qc)).push (.lock qc)) := by
      rw [hrun, if_pos hlt]
      rfl
    refine mono (of_eq hend (fun hw => ?_) (.cons w.log (by simp))) ?_
    · rw [hlock]
      exact hw.step hrule (by simp) rfl { hw.stored with } fun _ h => h
    · rintro _ _ - - rfl
      rfl
  · have hlock : w.engine.withLock qc = w.engine := by
      rw [Engine.withLock, RoundState.updateLockedQc, if_neg hlt]
    have hend : EngineM.updateLockedQc qc w = .ok () (w.setEngine (w.engine.withLock qc)) := by
      rw [hrun, if_neg hlt]
      rfl
    refine mono (of_eq hend (fun hw => ?_) (.refl w.log)) ?_
    · rw [hlock]
      exact hw
    · rintro _ _ - - rfl
      rfl

theorem commitRound
    (h : ∃ changesHash used known, .accept (.commit qc changesHash) used known ∈ w.log) :
    Sound cfg (EngineM.commitRound qc) w fun _ w' =>
      w' = (w.setEngine { w.engine with roundState := w.engine.roundState.commit qc }).push
        (.commit qc) :=
  of_eq rfl (fun hw => hw.step h (by simp) rfl { hw.stored with } fun _ h => h)
    (.cons w.log (by simp))

theorem updateEpochs {op : EpochOp} {em : EpochManager} (hrule : Rule cfg w.log (.epoch op))
    (hop : em = op.apply w.engine.epochManager)
    (hactive : em.active = w.engine.epochManager.active) :
    Sound cfg (EngineM.updateEpochs op em) w fun _ w' =>
      w' = (w.setEngine { w.engine with epochManager := em }).push (.epoch op) := by
  obtain ⟨hlen, hepoch, hset⟩ : em.epochLength = w.engine.epochManager.epochLength ∧
      em.currentEpoch = w.engine.epochManager.currentEpoch ∧
      em.currentSet = w.engine.epochManager.currentSet := by
    simpa [EpochManager.active] using hactive
  refine of_eq rfl (fun hw => hw.step hrule (by simp) (by rw [hop]; rfl) ?_ ?_)
    (.cons w.log (by simp))
  · exact { hw.stored with
      index := by
        intro hzero
        rw [hset]
        exact hw.stored.index (hlen ▸ hzero) }
  · rintro - (hzero | hsteady)
    · exact .inl (hlen.trans hzero)
    · refine .inr ?_
      show em.epochForView _ = em.currentEpoch
      rw [hepoch, EpochManager.epochForView, hlen]
      exact hsteady

theorem accept {used : ValidatorSet} (hrule : Rule cfg w.log (.accept cert used
      (w.engine.epochManager.knownValidatorSetForView cert.view))) :
    Sound cfg (EngineM.accept cert used) w fun _ w' => w' = w.push (.accept cert used
      (w.engine.epochManager.knownValidatorSetForView cert.view)) := by
  exact engine_bind (record hrule trivial)

variable [hw : Inv cfg w]

theorem verifyShare {index : ℕ} {item : Item} {signature : BlsSignature}
    (hbacked : (∃ m, Delivered w.log m ∧ m.signature? = some signature) ∨ ∃ view,
      item = .timeout view ∧ .release item ∈ w.log ∧ IsOwnIndex cfg w.engine.core index)
    (hview : item.view ≤ u64Max)
    (hset : IsCurrentSet w.log (coreOf cfg w.log) item.view set ∨ ((∃ view, item = .timeout view) ∧
      w.engine.epochManager.knownValidatorSetForView item.view = some set)) :
    Sound cfg (EngineM.verifyShare set index item signature) w fun _ w' =>
      w' = w.push (.share set index item) := by
  refine ofExcept_bind fun pk hpk => ?_
  refine ite (fun _ => throw_bind) fun hverify => record ⟨?_, hview, ?_⟩ trivial
  · rcases hbacked with ⟨m, hm, hsig⟩ | hown
    · refine .inl ⟨m, signature, pk, hm, hsig, ValidatorSet.getPublicKey_eq_ok.mp hpk, ?_⟩
      rw [← hw.stored.profile]
      simpa using hverify
    · rw [hw.core] at hown
      exact .inr hown
  · rw [← hw.core]
    rw [← hw.core] at hset
    exact hset

theorem signItem {item : Item}
    (h : ReleaseRule cfg.signingProfile w.log (coreOf cfg w.log) item) :
    Sound cfg (EngineM.signItem item) w fun _ w' => w' = w.push (.release item) := by
  refine engine_bind ?_
  refine bind (record h trivial) ?_
  rintro _ _ - - rfl
  exact pure rfl

theorem rule_accept_received (hm : ∃ m, Delivered w.log m ∧ cert.CarriedBy m)
    (hverify : cert.verify set w.engine.signingProfile = .ok ()) (hset :
      w.engine.epochManager.knownValidatorSetForView cert.view = some set ∨ (set =
      w.engine.validatorSetForView cert.view ∧ FallbackChecked w.log w.engine.currentView cert)) :
    Rule cfg w.log (.accept cert set
      (w.engine.epochManager.knownValidatorSetForView cert.view)) := by
  have hcore := hw.core
  refine ⟨by rw [← hcore]; rfl, .inl ⟨hm, ?_⟩, ?_⟩
  · rw [← hw.stored.profile]
    exact hverify
  · rw [← hcore]
    exact hset.imp_right .inr

theorem verifyCert (hm : ∃ m, Delivered w.log m ∧ cert.CarriedBy m) (hset :
      w.engine.epochManager.knownValidatorSetForView cert.view = some set ∨ (set =
      w.engine.validatorSetForView cert.view ∧ FallbackChecked w.log w.engine.currentView cert)) :
    Sound cfg (EngineM.verifyCert cert set) w fun _ w' => w' = w.push (.accept cert set
      (w.engine.epochManager.knownValidatorSetForView cert.view)) := by
  refine ofExcept_bind fun _ hverify => ?_
  exact accept (rule_accept_received hm hverify hset)

theorem verifyQcAnyDomainOrKnown
    (hm : (∃ m, Delivered w.log m ∧ qc ∈ m.qcs) ∨ qc = w.engine.roundState.lockedQc) :
    Sound cfg (EngineM.verifyQcAnyDomainOrKnown qc) w fun _ w' =>
      Trusted w'.log qc ∧ w'.engine = w.engine := by
  refine ite (fun hknown => pure ⟨?_, rfl⟩) fun hnew => ?_
  · rcases hknown with rfl | rfl
    · exact hw.trusted_locked
    · exact hw.trusted_committed
  refine ofExcept_bind fun set hset => ?_
  obtain ⟨m, hdel, hmem⟩ := hm.resolve_right fun h => hnew (.inl h)
  refine mono (verifyCert ⟨m, hdel, hmem⟩
    (.inl (Engine.resolveQcValidatorSet_ok hset))) ?_
  rintro _ _ - - rfl
  exact ⟨.inr ⟨_, set, _, List.mem_cons_self, rfl⟩, rfl⟩

end Sound

end N42
