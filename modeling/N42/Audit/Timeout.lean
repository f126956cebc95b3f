import N42.Audit.Voting

/-!
The handlers of decisions, timeouts and view changes keep the invariant.
-/

namespace N42

open Lib EngineM List TimeoutCollector

variable [Crypto] {cfg : NodeConfig} {w : World} {advance : ℕ → EngineM Unit}

variable [hw : Inv cfg w]

theorem authenticateDecide_sound {d : Decide} (hm : Delivered w.log (.decide d)) :
    Sound cfg (authenticateDecide d) w fun _ w' =>
      d.commitQc.view = d.view ∧ d.commitQc.blockHash = d.blockHash ∧
        ∃ used known, .accept (.commit d.commitQc d.validatorChangesHash) used known ∈ w'.log := by
  refine .engine_bind (.ofExcept_bind fun set hset => ?_)
  refine .guard fun _ => ?_
  refine .guard fun hview => ?_
  refine .guard fun hblock => ?_
  have hcarried : Certificate.CarriedBy (.commit d.commitQc d.validatorChangesHash) (.decide d) :=
    mem_cons_self
  refine .mono (.verifyCert ⟨_, hm, hcarried⟩
    (.inl (Engine.resolveQcValidatorSet_ok hset))) ?_
  rintro _ _ - - rfl
  exact ⟨not_not.mp hview, not_not.mp hblock, _, _, mem_cons_self⟩

theorem stageDecided_sound {d : Decide} : Safely cfg (stageDecided d) w := by
  refine .engine_bind (.ite (fun _ => .ite (fun _ => ?_) fun _ => ?_) fun _ => .pure trivial)
  · exact .drop commitPendingChanges_sound
  · exact .bind (.emit trivial) fun _ _ _ _ _ => .pure trivial

omit hw in
theorem reportGap_sound {currentView view : ℕ} : Safely cfg (reportGap currentView view) w := by
  unfold reportGap
  exact .ite (fun _ => .drop (.emit trivial)) fun _ => .pure trivial

theorem processDecide_sound {d : Decide} (hadv : Advances cfg advance)
    (hm : Delivered w.log (.decide d)) : Safely cfg (processDecide advance d) w := by
  refine .early fun _ => ?_
  refine .bind (authenticateDecide_sound hm) ?_
  rintro _ w₁ _ hg₁ ⟨hview, hblock, used, known, hacc₁⟩
  refine .next (.update rfl fun hw => { hw.stored with }) fun _ _ hg₂ => ?_
  refine .bind reportGap_sound ?_
  rintro _ w₃ _ hg₃ -
  have hacc₃ := hg₃.mem hacc₁
  refine .bind (.updateLockedQc (.inr ⟨_, used, known, hacc₃, rfl⟩)) ?_
  rintro _ w₄ _ hg₄ -
  have hacc₄ := hg₄.mem hacc₃
  refine .next (.commitRound ⟨_, used, known, hacc₄⟩) fun _ _ hg₅ => ?_
  refine .bind stageDecided_sound ?_
  rintro changes w₆ _ hg₆ -
  exact announceCommit_sound hadv hview hblock ⟨_, used, known, hg₆.mem (hg₅.mem hacc₄)⟩

theorem verifyEmbeddedQc_sound {qc : QuorumCertificate}
    (hm : (∃ m, Delivered w.log m ∧ qc ∈ m.qcs) ∨ qc = w.engine.roundState.lockedQc) :
    Sound cfg (verifyEmbeddedQc qc) w fun _ w' =>
      Trusted w'.log qc ∧ w'.engine = w.engine := by
  refine .ite (fun hzero => ?_) fun _ => .verifyQcAnyDomainOrKnown hm
  refine .engine_bind (.ite (fun _ => .pure ⟨.inl hzero, rfl⟩) fun _ => .throw_bind)

variable {tc : TimeoutCertificate} {nextView : ℕ}

theorem broadcastNewView_sound (hmax : nextView ≤ u64Max) :
    Safely cfg (broadcastNewView tc nextView) w := by
  refine .engine_bind (.ite (fun _ => ?_) fun _ => .pure trivial)
  split
  · exact .throw
  · refine .next (.signItem hmax) fun signature _ _ => ?_
    exact .drop (.emit trivial)

theorem advanceWithTc_sound (hadv : Advances cfg advance)
    (hhigh : Trusted w.log tc.highQc)
    (hacc : ∃ used known, .accept (.timeout tc) used known ∈ w.log) (hmax : nextView ≤ u64Max)
    (hnext : nextView ≤ tc.view + 1) : Safely cfg (advanceWithTc advance tc nextView) w := by
  obtain ⟨used, known, hacc⟩ := hacc
  refine .bind (.updateLockedQc hhigh) ?_
  rintro _ w₁ _ hg₁ -
  refine .bind (broadcastNewView_sound hmax) ?_
  rintro _ w₂ hw₂ hg₂ -
  refine .bind (hadv _ _ hw₂ hmax
    (.inr (.inl ⟨tc, used, known, hg₂.mem (hg₁.mem hacc), hnext⟩))) ?_
  rintro _ w₃ _ - -
  exact .engine_bind (.drop (.emit trivial))

section Collectors

variable {e : Engine} {log : List Effect} {c c' : TimeoutCollector} {i : ℕ}
  {signature : BlsSignature} {highQc : QuorumCertificate}

section

omit [Crypto]

theorem timeoutsCounted_new (log : List Effect) (view setSize : ℕ) :
    TimeoutsCounted log (.new view setSize) := by
  intro i sig qc h
  simp [new] at h

theorem TimeoutsCounted.add (h : TimeoutsCounted log c)
    (hadd : c.addVerifiedTimeout i signature highQc = some c')
    (hshare : ∃ set, .share set i (.timeout c.view) ∈ log) (hqc : Trusted log highQc) :
    TimeoutsCounted log c' := by
  obtain ⟨hview, hlookup⟩ := addVerifiedTimeout_eq_some hadd
  intro j sig qc hj
  rw [hview]
  rcases hlookup j sig qc hj with ⟨rfl, -, rfl⟩ | hold
  · exact ⟨hshare, hqc⟩
  · exact h j sig qc hold

theorem TimeoutsCounted.share (h : TimeoutsCounted log c) (hi : i ∈ c.timeouts) :
    ∃ set, .share set i (.timeout c.view) ∈ log := by
  obtain ⟨⟨sig, qc⟩, hlookup⟩ := Option.isSome_iff_exists.mp (AList.lookup_isSome.mpr hi)
  exact (h i sig qc hlookup).1

end

section

variable (h : Stored cfg e log)
include h

theorem Stored.currentTimeouts (setSize : ℕ) :
    (e.timeoutCollector.getD (.new e.currentView setSize)).view = e.roundState.currentView ∧
      TimeoutsCounted log (e.timeoutCollector.getD (.new e.currentView setSize)) := by
  cases hc : e.timeoutCollector with
  | none => exact ⟨rfl, timeoutsCounted_new log _ _⟩
  | some c => exact h.timeouts c hc

theorem Stored.futureTimeoutsOf (view setSize : ℕ) :
    ((e.futureTimeoutCollectors.lookup view).getD (.new view setSize)).view = view ∧
      TimeoutsCounted log ((e.futureTimeoutCollectors.lookup view).getD (.new view setSize)) := by
  cases hc : e.futureTimeoutCollectors.lookup view with
  | none => exact ⟨rfl, timeoutsCounted_new log _ _⟩
  | some c => exact h.futureTimeouts view c hc

theorem Stored.withTimeouts (hview : c.view = e.roundState.currentView)
    (hcounted : TimeoutsCounted log c) : Stored cfg { e with timeoutCollector := some c } log :=
  { h with
    timeouts := by
      rintro _ ⟨rfl⟩
      exact ⟨hview, hcounted⟩ }

theorem Stored.withFutureTimeouts {view : ℕ} (hview : c.view = view)
    (hcounted : TimeoutsCounted log c) :
    Stored cfg { e with futureTimeoutCollectors := e.futureTimeoutCollectors.insert view c } log :=
  { h with
    futureTimeouts := by
      intro v d hd
      by_cases hv : v = view
      · subst hv
        rw [AList.lookup_insert, Option.some.injEq] at hd
        exact hd ▸ ⟨hview, hcounted⟩
      · rw [AList.lookup_insert_ne hv] at hd
        exact h.futureTimeouts v d hd }

end

theorem TimeoutsCounted.built (h : TimeoutsCounted log c) {rank : ℕ → ℕ} {s : ValidatorSet}
    {p : ConsensusSigningProfile} {tc : TimeoutCertificate}
    (hbuild : c.buildTcWithProfile rank s p = .ok tc) :
    tc.view = c.view ∧ Trusted log tc.highQc ∧ s.IsQuorum tc.signers ∧
      ∀ i, tc.signers[i]? = some true → Counted log i (.timeout tc.view) := by
  obtain ⟨hview, hquorum, hmem, j, sig, hhigh⟩ := buildTcWithProfile_ok hbuild
  refine ⟨hview, (h j sig _ hhigh).2, hquorum, fun i hi => ?_⟩
  obtain ⟨set, hshare⟩ := h.share (hmem i hi)
  exact ⟨.timeout c.view, by rw [hview]; rfl, .inl ⟨set, hshare⟩⟩

end Collectors

theorem tryFormTcAndAdvance_sound (hadv : Advances cfg advance) :
    Safely cfg (tryFormTcAndAdvance advance w.engine.currentView (satAdd w.engine.currentView 1))
      w := by
  refine .engine_bind ?_
  split
  · exact .pure trivial
  · next collector hcollector =>
    refine .rank_bind (.ofExcept_bind fun tc hbuild => ?_)
    obtain ⟨hcview, hcounted⟩ := hw.stored.timeouts collector hcollector
    obtain ⟨hview, hhigh, hquorum, hsigned⟩ := hcounted.built hbuild
    have hcurrent : tc.view = w.engine.currentView := hview.trans hcview
    refine .next (.accept (rule_accept_formed (.timeout tc) hcurrent hquorum
      (.timeout tc) hsigned)) fun _ _ hg₁ => ?_
    refine advanceWithTc_sound hadv (hg₁.trusted hhigh) ⟨_, _, mem_cons_self⟩
      (satAdd_le_max _ 1) ?_
    rw [hcurrent]
    exact satAdd_le_add _ 1

variable {timeout : TimeoutMessage}

theorem relayTimeout_sound {relay : Prop} [Decidable relay] {nextLeader : ℕ} :
    Sound cfg (relayTimeout relay nextLeader timeout) w fun _ w' => w'.engine = w.engine := by
  refine .ite (fun _ => .mono (.emit trivial) ?_) fun _ => .pure rfl
  rintro _ _ - - rfl
  rfl

theorem countTimeout_sound (hadv : Advances cfg advance)
    (hshare : ∃ set, .share set timeout.sender (.timeout w.engine.currentView) ∈ w.log)
    (hhigh : Trusted w.log timeout.highQc) : Safely cfg (countTimeout advance timeout) w := by
  refine .engine_bind ?_
  dsimp only
  obtain ⟨hview, hcounted⟩ := hw.stored.currentTimeouts
    (w.engine.validatorSetForView w.engine.currentView).len
  split
  · exact .drop (.update rfl fun hw => hw.stored.withTimeouts hview hcounted)
  · next added hadded =>
    have hview' := (addVerifiedTimeout_eq_some hadded).1
    have hcounted' := hcounted.add hadded (hview ▸ hshare) hhigh
    refine .next (.update rfl fun hw => hw.stored.withTimeouts (hview'.trans hview)
      hcounted') fun _ _ hg₁ => ?_
    refine .bind relayTimeout_sound ?_
    rintro _ w₂ _ hg₂ heng₂
    refine .ite (fun _ => ?_) fun _ => .pure trivial
    have hsame : w.engine.currentView = w₂.engine.currentView := by
      rw [heng₂]
      rfl
    rw [hsame]
    exact tryFormTcAndAdvance_sound hadv

/-- A timeout message that was received, or this engine's own. -/
def KnownTimeout (cfg : NodeConfig) (w : World) (timeout : TimeoutMessage) : Prop :=
  Delivered w.log (.timeout timeout) ∨
    (.release (.timeout timeout.view) ∈ w.log ∧
      IsOwnIndex cfg w.engine.core timeout.sender ∧
      timeout.highQc = w.engine.roundState.lockedQc)

theorem processTimeout_sound (hadv : Advances cfg advance)
    (hm : KnownTimeout cfg w timeout) : Safely cfg (processTimeout advance timeout) w := by
  refine .early fun hnotOld => ?_
  refine .early fun hnotNew => ?_
  have hview : timeout.view = w.engine.currentView := by omega
  refine .bind (.verifyShare ?_ hw.view_le_max (.inl (hw.isCurrentSet rfl))) ?_
  · rcases hm with hm | ⟨hown, hindex, -⟩
    · exact .inl ⟨_, hm, rfl⟩
    · exact .inr ⟨_, rfl, hview ▸ hown, hindex⟩
  rintro _ _ _ hg₁ rfl
  refine .bind (verifyEmbeddedQc_sound ?_) ?_
  · rcases hm with hm | ⟨-, -, hlocked⟩
    · exact .inl ⟨_, hg₁.delivered hm, mem_cons_self⟩
    · exact .inr hlocked
  rintro _ w₂ _ hg₂ ⟨hhigh, heng₂⟩
  have hshare := hg₂.mem (mem_cons_self (l := w.log))
  exact countTimeout_sound hadv (heng₂ ▸ ⟨_, hshare⟩) hhigh

theorem broadcastTimeout_sound :
    Sound cfg broadcastTimeout w fun timeout w' =>
      IsOwnIndex cfg w.engine.core w.engine.myIndex → KnownTimeout cfg w' timeout := by
  refine .engine_bind ?_
  refine .bind (.signItem ?_) ?_
  · rw [← hw.core]
    rfl
  rintro signature _ _ hg₁ rfl
  refine .next (.emit trivial) fun _ _ hg₂ => ?_
  exact .pure fun hown => .inr ⟨hg₂.mem mem_cons_self, hown, rfl⟩

theorem repeatTimeout_sound (hadv : Advances cfg advance) :
    Safely cfg (repeatTimeout advance) w := by
  refine .bind (.discard broadcastTimeout_sound) ?_
  rintro _ w₁ _ - -
  refine .engine_bind ?_
  split
  · exact .pure trivial
  · exact .ite (fun _ => tryFormTcAndAdvance_sound hadv) fun _ => .pure trivial

theorem onTimeout_sound (hadv : Advances cfg advance) :
    Safely cfg (onTimeout advance) w := by
  refine .ite (fun _ => .bind (.updateRound rfl) fun _ _ _ _ _ => .pure trivial)
    fun hactive => ?_
  refine .ite (fun _ => .bind (repeatTimeout_sound hadv) fun _ _ _ _ _ => .pure trivial)
    fun _ => ?_
  refine .next (.update rfl fun hw => { hw.stored with
    pending := by simp
    imports := hw.stored.imports.clear
    timeouts := by
      rintro _ ⟨rfl⟩
      exact hw.stored.currentTimeouts _ }) fun _ _ hg₁ => ?_
  refine .bind broadcastTimeout_sound ?_
  rintro timeout w₂ _ hg₂ hknown
  have hown := hw.stored.ownIndex_of_active (by simpa using hactive)
  exact processTimeout_sound hadv (hknown hown)

variable (hadv : Advances cfg advance)
include hadv

theorem joinTimedOutView_sound (hm : Delivered w.log (.timeout timeout))
    (hcause : EntryCause w.log timeout.view) : Safely cfg (joinTimedOutView advance timeout) w := by
  refine .bind (hadv _ _ hw (hw.valid.wire hm).1 hcause) ?_
  rintro _ w₁ _ hg₁ -
  refine .engine_bind (.early fun _ => ?_)
  refine .bind (processTimeout_sound hadv (.inl (hg₁.delivered hm))) ?_
  rintro _ w₂ _ - -
  exact .engine_bind (.ite (fun _ => onTimeout_sound hadv) fun _ => .pure trivial)

theorem countFutureTimeout_sound {viewSet : ValidatorSet} (hm : Delivered w.log (.timeout timeout))
    (hknown : w.engine.epochManager.knownValidatorSetForView timeout.view = some viewSet)
    (hshare : .share viewSet timeout.sender (.timeout timeout.view) ∈ w.log)
    (hhigh : Trusted w.log timeout.highQc) :
    Safely cfg (countFutureTimeout advance timeout viewSet) w := by
  refine .engine_bind ?_
  dsimp only
  obtain ⟨hview, hcounted⟩ := hw.stored.futureTimeoutsOf timeout.view viewSet.len
  split
  · refine .bind (.update rfl fun hw => hw.stored.withFutureTimeouts hview hcounted) ?_
    exact fun _ _ _ _ _ => .pure trivial
  · next added hadded =>
    have hview' : added.view = timeout.view :=
      (addVerifiedTimeout_eq_some hadded).1.trans hview
    have hcounted' := hcounted.add hadded ⟨viewSet, by rw [hview]; exact hshare⟩ hhigh
    refine .next (.update rfl fun hw => hw.stored.withFutureTimeouts hview' hcounted')
      fun _ hw₁ hg₁ => ?_
    refine .ite (fun _ => ?_) fun _ => .ite (fun hjoin => ?_) fun _ => .pure trivial
    · refine .rank_bind (.ofExcept_bind fun tc hbuild => ?_)
      obtain ⟨htc, hhigh', hquorum, hsigned⟩ := hcounted'.built hbuild
      have htcview : tc.view = timeout.view := htc.trans hview'
      refine .bind (.accept ⟨by rw [← hw₁.core]; rfl,
        .inr ⟨hquorum, _, .timeout tc, hsigned⟩, .inl ?_⟩) ?_
      · show w.engine.epochManager.knownValidatorSetForView tc.view = some viewSet
        rw [htcview]
        exact hknown
      rintro _ _ _ hg₂ rfl
      refine .bind (.update rfl fun hw => { hw.stored with futureTimeouts := ?_ }) ?_
      · intro v d hd
        by_cases hv : v = timeout.view
        · subst hv
          simp at hd
        · rw [AList.lookup_erase_ne hv] at hd
          exact hw.stored.futureTimeouts v d hd
      rintro _ _ _ hg₃ rfl
      refine .bind (advanceWithTc_sound hadv (hg₂.trusted hhigh')
        ⟨_, _, mem_cons_self⟩ (satAdd_le_max _ 1) ?_) fun _ _ _ _ _ => .pure trivial
      rw [htcview]
      exact satAdd_le_add _ 1
    · have hcause : EntryCause w.log timeout.view := by
        refine .inr (.inr ⟨viewSet, added.timeouts.keys, added.timeouts.keys_nodup, ?_,
          ⟨_, hshare⟩, fun i hi => ?_⟩)
        · exact of_decide_eq_true hjoin.1
        · obtain ⟨set, h⟩ := hcounted'.share (AList.mem_keys.mpr hi)
          exact ⟨set, hview' ▸ h⟩
      refine .bind (joinTimedOutView_sound hadv hm hcause) ?_
      exact fun _ _ _ _ _ => .pure trivial

theorem collectFutureTimeout_sound (hm : Delivered w.log (.timeout timeout)) :
    Safely cfg (collectFutureTimeout advance timeout) w := by
  refine .engine_bind (.early fun _ => ?_)
  dsimp only
  split
  · next viewSet nextViewSet hknown hnext =>
    refine .next (.verifyShare (.inl ⟨_, hm, rfl⟩) (hw.valid.wire hm).1
      (.inr ⟨⟨_, rfl⟩, hknown⟩)) fun _ _ hg₁ => ?_
    refine .bind (verifyEmbeddedQc_sound
      (.inl ⟨_, hg₁.delivered hm, mem_cons_self⟩)) ?_
    rintro _ w₂ _ hg₂ ⟨hhigh, heng₂⟩
    refine .bind relayTimeout_sound ?_
    rintro _ w₃ _ hg₃ heng₃
    refine countFutureTimeout_sound hadv (hg₃.delivered (hg₂.delivered (hg₁.delivered hm))) ?_
      (hg₃.mem (hg₂.mem mem_cons_self)) (hg₃.trusted hhigh)
    rw [heng₃, heng₂]
    exact hknown
  · exact .pure trivial

/-- The certificate of a `NewView` is checked against the set of the fallback lookup. -/
theorem processNewView_sound {nv : NewView} {input : Input} (hm : Delivered w.log (.newView nv))
    (hhead : w.log.head? = some (.deliver input)) (hsubject : input.subject = some (.newView nv)) :
    Safely cfg (processNewView advance nv) w := by
  refine .engine_bind (.early fun hnew => ?_)
  refine .guard fun _ => ?_
  refine .ofExcept_bind fun _ _ => ?_
  refine .guard fun _ => ?_
  refine .guard fun hprev => ?_
  have hfallback : FallbackChecked w.log w.engine.currentView (.timeout nv.timeoutCert) :=
    ⟨input, hhead, .inr ⟨nv, hsubject, by omega, rfl⟩⟩
  have hcarried : Certificate.CarriedBy (.timeout nv.timeoutCert) (.newView nv) :=
    mem_cons_self
  refine .next (.verifyCert ⟨_, hm, hcarried⟩ (.inr ⟨rfl, hfallback⟩)) fun _ _ hg₁ => ?_
  refine .bind (verifyEmbeddedQc_sound
    (.inl ⟨_, hg₁.delivered hm, mem_cons_self⟩)) ?_
  rintro _ w₂ _ hg₂ ⟨hhigh, -⟩
  refine .bind (.updateLockedQc hhigh) ?_
  rintro _ w₃ hw₃ hg₃ -
  have hcause : EntryCause w₃.log nv.view :=
    .inr (.inl ⟨nv.timeoutCert, _, _, hg₃.mem (hg₂.mem mem_cons_self), by omega⟩)
  refine .bind (hadv _ _ hw₃ (hw.valid.wire hm).1 hcause) ?_
  rintro _ w₄ _ - -
  exact .engine_bind (.drop (.emit trivial))

end N42
