import N42.Audit.Primitives

/-!
The voting handlers keep the invariant.
-/

namespace N42

open Lib EngineM List VoteCollector

variable [Crypto] {cfg : NodeConfig} {w : World} {advance : ℕ → EngineM Unit}

/-- What a handler assumes of the view change it is given. -/
def Advances (cfg : NodeConfig) (advance : ℕ → EngineM Unit) : Prop :=
  ∀ w view, Inv cfg w → view ≤ u64Max → EntryCause w.log view →
    Safely cfg (advance view) w

variable [hw : Inv cfg w]

theorem commitPendingChanges_sound :
    Sound cfg commitPendingChanges w fun _ w' =>
      w'.engine.roundState = w.engine.roundState := by
  refine .ofExcept_bind fun staged hstaged => ?_
  refine .bind (.updateEpochs trivial ?_
    (EpochManager.active_of_commitPendingChanges hstaged)) ?_
  · simp [EpochOp.apply, hstaged, Except.toOption]
  · rintro _ _ - - rfl
    exact .pure rfl

theorem stageCommitted_sound {changesHash : B256} :
    Safely cfg (stageCommitted changesHash) w := by
  refine .engine_bind (.ite (fun _ => ?_) fun _ => .pure trivial)
  exact .drop commitPendingChanges_sound

variable {blockHash : B256} {view : ℕ} {commitQc : QuorumCertificate}

theorem announceCommit_sound {changes : Option (List ValidatorChange)} (hadv : Advances cfg advance)
    (hview : commitQc.view = view) (hblock : commitQc.blockHash = blockHash)
    (hacc : ∃ changesHash used known, .accept (.commit commitQc changesHash) used known ∈ w.log) :
    Safely cfg (announceCommit advance view blockHash commitQc changes) w := by
  obtain ⟨changesHash, used, known, hacc⟩ := hacc
  refine .next (.update rfl fun hw => { hw.stored with }) fun _ _ _ => ?_
  refine .next (.emit ⟨hview, hblock, changesHash, used, known, hacc⟩) fun _ hw₂ _ => ?_
  have hcause : EntryCause (Effect.emit (.blockCommitted view blockHash commitQc changes) true ::
      w.log) (satAdd view 1) := by
    refine .inl ⟨commitQc, ⟨_, used, known, mem_cons_of_mem _ hacc, rfl⟩, ?_⟩
    rw [hview]
    exact satAdd_le_add view 1
  refine .bind (hadv _ _ hw₂ (satAdd_le_max view 1) hcause) ?_
  rintro _ w₃ _ - -
  exact .engine_bind (.drop (.emit trivial))

theorem finishCommit_sound (hadv : Advances cfg advance)
    (hview : commitQc.view = view) (hblock : commitQc.blockHash = blockHash)
    (hacc : ∃ changesHash used known, .accept (.commit commitQc changesHash) used known ∈ w.log) :
    Safely cfg (finishCommit advance view blockHash commitQc) w := by
  refine .next (.commitRound hacc) fun _ _ hg₁ => ?_
  refine .engine_bind ?_
  refine .bind stageCommitted_sound ?_
  rintro changes w₂ _ hg₂ -
  refine .next (.emit trivial) fun _ _ hg₃ => ?_
  obtain ⟨changesHash, used, known, hacc⟩ := hacc
  exact announceCommit_sound hadv hview hblock
    ⟨changesHash, used, known, hg₃.mem (hg₂.mem (hg₁.mem hacc))⟩

theorem rule_accept_formed (cert : Certificate) {claim : Claim}
    (hview : cert.view = w.engine.currentView)
    (hquorum : (w.engine.validatorSetForView w.engine.currentView).IsQuorum cert.signers)
    (hclaim : cert.Attests claim)
    (hcounted : ∀ i, cert.signers[i]? = some true → Counted w.log i claim) :
    Rule cfg w.log (.accept cert (w.engine.validatorSetForView w.engine.currentView)
      (w.engine.epochManager.knownValidatorSetForView cert.view)) := by
  refine ⟨by rw [← hw.core]; rfl, .inr ⟨hquorum, claim, hclaim, hcounted⟩, .inr (.inl ?_)⟩
  rw [hview]
  exact hw.isCurrentSet rfl

theorem tryFormCommitQc_sound (hadv : Advances cfg advance) :
    Safely cfg (tryFormCommitQc advance) w := by
  refine .engine_bind ?_
  split
  · exact .pure trivial
  · next collector hcollector =>
    refine .early fun _ => ?_
    refine .rank_bind (.ofExcept_bind fun commitQc hbuild => ?_)
    obtain ⟨hview, hblock, hquorum, hvotes⟩ := buildQcWithProfileMessage_ok hbuild
    obtain ⟨hcview, hcounted⟩ := hw.stored.commitVotes collector hcollector
    have hcurrent : commitQc.view = w.engine.currentView := hview.trans hcview
    refine .bind (.accept (rule_accept_formed (.commit commitQc _) hcurrent hquorum
      (.commit commitQc _) fun i hi => ?_)) ?_
    · rw [hview, hblock]
      exact hcounted i (hvotes i hi)
    · rintro _ _ _ - rfl
      exact finishCommit_sound hadv hcurrent hblock ⟨_, _, _, mem_cons_self⟩

theorem Stored.ownIndex_of_active {e : Engine} {log : List Effect} (h : Stored cfg e log)
    (hactive : e.isLocalValidatorActiveForView view = true) : IsOwnIndex cfg e.core e.myIndex := by
  intro hzero
  have hset : e.validatorSetForView view = e.epochManager.currentSet :=
    if_pos hzero
  simp only [Engine.isLocalValidatorActiveForView, Engine.localValidatorIndexForView,
    Engine.localPublicKey, hset, h.key, Option.isSome_iff_exists] at hactive
  obtain ⟨index, hindex⟩ := hactive
  rw [h.index hzero _ hindex]
  exact hindex

theorem Stored.ownIndex {e : Engine} {log : List Effect} (h : Stored cfg e log)
    (hleader : e.isLeaderForView view = true) : IsOwnIndex cfg e.core e.myIndex := by
  have hactive : e.isLocalValidatorActiveForView view = true := by
    rw [Engine.isLocalValidatorActiveForView, eq_of_beq hleader]
    rfl
  exact h.ownIndex_of_active hactive

section Counting

variable {e : Engine} {log : List Effect} {c c' : VoteCollector} {i : ℕ}
  {signature : BlsSignature}

omit [Crypto] in
theorem VotesCounted.add {claim : Claim} (h : VotesCounted log c claim)
    (hadd : c.addVerifiedVote i signature = some c') (hi : Counted log i claim) :
    VotesCounted log c' claim := by
  intro j hj
  rcases (addVerifiedVote_eq_some hadd).2.2 j hj with rfl | hj
  · exact hi
  · exact h j hj

theorem Stored.addVote (h : Stored cfg e log) (hc : e.voteCollector = some c)
    (hadd : c.addVerifiedVote i signature = some c')
    (hi : Counted log i (.first e.roundState.currentView c.blockHash)) :
    Stored cfg { e with voteCollector := some c' } log := by
  obtain ⟨hview, hblock, -⟩ := addVerifiedVote_eq_some hadd
  obtain ⟨hcurrent, hcounted⟩ := h.votes c hc
  exact { h with
    votes := by
      rintro _ ⟨rfl⟩
      refine ⟨hview.trans hcurrent, ?_⟩
      rw [hview, hblock]
      exact hcounted.add hadd (hcurrent ▸ hi)
    sameBlock := by
      rintro _ d ⟨rfl⟩ hd
      rw [hblock]
      exact h.sameBlock c d hc hd }

theorem Stored.addCommitVote (h : Stored cfg e log) (hc : e.commitCollector = some c)
    (hadd : c.addVerifiedVote i signature = some c')
    (hi : Counted log i (.second e.roundState.currentView c.blockHash)) :
    Stored cfg { e with commitCollector := some c' } log := by
  obtain ⟨hview, hblock, -⟩ := addVerifiedVote_eq_some hadd
  obtain ⟨hcurrent, hcounted⟩ := h.commitVotes c hc
  exact { h with
    commitVotes := by
      rintro _ ⟨rfl⟩
      refine ⟨hview.trans hcurrent, ?_⟩
      rw [hview, hblock]
      exact hcounted.add hadd (hcurrent ▸ hi)
    sameBlock := by
      rintro d _ hd ⟨rfl⟩
      rw [hblock]
      exact h.sameBlock d c hd hc }

end Counting

theorem releaseRule_commitVote {changesHash : B256}
    (hhead : w.log.head? = some (.persistCommitVote view .done))
    (hview : view = w.engine.currentView) (hlocked : view ≤ w.engine.roundState.lockedQc.view)
    (hqc : ∃ qc used known, .accept (.prepare qc) used known ∈ w.log ∧ qc.view = view ∧
      qc.blockHash = blockHash) :
    ReleaseRule cfg.signingProfile w.log (coreOf cfg w.log)
      (.commitVote view blockHash changesHash) := by
  refine ⟨hhead, ?_, ?_, hqc⟩
  · rw [← hw.core]
    exact hview
  · rw [← hw.core]
    exact hlocked

theorem castOwnCommitVote_sound (hview : view = w.engine.currentView)
    (hmay : w.engine.roundState.mayCommitVoteIn view = true)
    (hlocked : view ≤ w.engine.roundState.lockedQc.view) (hqc : ∃ qc used known, .accept (.prepare
      qc) used known ∈ w.log ∧ qc.view = view ∧ qc.blockHash = blockHash)
    (hblock : ∀ c, w.engine.commitCollector = some c → c.blockHash = blockHash)
    (hown : IsOwnIndex cfg w.engine.core w.engine.myIndex) :
    Safely cfg (castOwnCommitVote view blockHash) w := by
  refine .next (.recordCommitVote hview hmay) fun _ _ hg₁ => ?_
  refine .engine_bind ?_
  refine .bind (.signItem (releaseRule_commitVote rfl hview hlocked ?_)) ?_
  · obtain ⟨qc, used, known, hacc, hqc⟩ := hqc
    exact ⟨qc, used, known, hg₁.mem hacc, hqc⟩
  rintro signature _ hw₂ hg₂ rfl
  split
  · exact .pure trivial
  · next collector hcollector =>
    split
    · exact .throw
    · next added hadded =>
      refine .bind (.record ⟨rfl, ?_⟩ trivial) ?_
      · rw [← hw₂.core]
        exact hown
      rintro _ _ hw₃ hg₃ rfl
      refine .drop (.update rfl fun _ => hw₃.stored.addCommitVote hcollector hadded ?_)
      refine ⟨_, ?_, .inr mem_cons_self⟩
      rw [hblock collector hcollector, hview]
      rfl

variable (hadv : Advances cfg advance)
include hadv

theorem tryFormPrepareQc_sound (hown : IsOwnIndex cfg w.engine.core w.engine.myIndex) :
    Safely cfg (tryFormPrepareQc advance) w := by
  refine .engine_bind ?_
  split
  · exact .pure trivial
  · next collector hcollector =>
    refine .early fun _ => ?_
    refine .rank_bind (.ofExcept_bind fun qc hbuild => ?_)
    obtain ⟨hview, hblock, hquorum, hvotes⟩ := buildQcWithProfileMessage_ok hbuild
    obtain ⟨hcview, hcounted⟩ := hw.stored.votes collector hcollector
    have hcurrent : qc.view = w.engine.currentView := hview.trans hcview
    refine .bind (.accept (rule_accept_formed (.prepare qc) hcurrent hquorum
      (.prepare qc) fun i hi => ?_)) ?_
    · rw [hview, hblock]
      exact hcounted i (hvotes i hi)
    rintro _ _ _ hg₁ rfl
    refine .next (.update rfl fun hw => { hw.stored with }) fun _ _ hg₂ => ?_
    refine .next (.updateRound rfl) fun _ _ hg₃ => ?_
    refine .bind (.updateLockedQc (.inr ⟨_, _, _, mem_cons_self, rfl⟩)) ?_
    rintro _ w₄ _ hg₄ heng₄
    refine .next (.emit trivial) fun _ _ hg₅ => ?_
    refine .engine_bind (.early fun hmay => ?_)
    have hview₄ : w.engine.currentView = w₄.engine.currentView := by
      rw [heng₄, Engine.withLock_currentView]
      rfl
    have hcast : Safely cfg (castOwnCommitVote w.engine.currentView qc.blockHash)
        (w₄.push (.emit (.broadcastMessage (.prepareQc
          { view := w.engine.currentView, blockHash := qc.blockHash, qc })) true)) := by
      refine castOwnCommitVote_sound hview₄ (by simpa using hmay) ?_ ?_ ?_ ?_
      · rw [World.push_engine, heng₄, ← hcurrent]
        exact Engine.view_le_withLock _ qc
      · exact ⟨qc, _, _, hg₅.mem (hg₄.mem mem_cons_self), hcurrent, rfl⟩
      · rw [World.push_engine, heng₄, hblock]
        exact fun c hc => hw.stored.sameBlock collector c hcollector hc
      · rw [World.push_engine, heng₄]
        exact hown
    refine .bind hcast ?_
    rintro _ w₆ _ - -
    exact tryFormCommitQc_sound hadv

theorem countVote_sound {vote : Vote} (hown : IsOwnIndex cfg w.engine.core w.engine.myIndex)
    (hshare : ∃ set, .share set vote.voter (.vote w.engine.currentView vote.blockHash) ∈
      sinceBoot w.log) : Safely cfg (countVote advance vote) w := by
  obtain ⟨set, hshare⟩ := hshare
  refine .engine_bind ?_
  have htracker : Stored cfg { w.engine with
      equivocationTracker :=
        (checkEquivocation w.engine.equivocationTracker vote.voter vote.blockHash).1 } w.log :=
    { hw.stored with
      voteTracker := by
        intro i b hb
        rcases lookup_checkEquivocation hb with hb | ⟨rfl, rfl⟩
        · exact hw.stored.voteTracker i b hb
        · exact ⟨set, hshare⟩ }
  refine .next (.update rfl fun _ => htracker) fun _ hw₁ hg₁ => ?_
  split
  · next hash1 hash2 hconflict =>
    obtain ⟨hprev, hne, rfl⟩ := checkEquivocation_conflict hconflict
    obtain ⟨set', hshare'⟩ := hw.stored.voteTracker _ _ hprev
    refine .bind (.emit ?_) fun _ _ _ _ _ => .pure trivial
    refine ⟨set', set, _, _, hshare', hshare, rfl, rfl, ?_, .vote hne, ?_⟩
    · rw [← hw₁.core]
      rfl
    · rw [← hw₁.core]
      exact hw₁.steady
  · split
    · exact .pure trivial
    · next collector hcollector =>
      refine .early fun hblock => ?_
      split
      · exact .pure trivial
      · next added hadded =>
        refine .bind (.update rfl fun _ => hw₁.stored.addVote hcollector hadded ?_) ?_
        · refine ⟨_, ?_, .inl ⟨set, mem_of_mem_sinceBoot hshare⟩⟩
          rw [← not_not.mp hblock]
          rfl
        · rintro _ _ _ - rfl
          exact tryFormPrepareQc_sound hadv hown

theorem processVoteInner_sound {vote : Vote} {signatureVerified : Bool}
    (hm : Delivered w.log (.vote vote))
    (hverified : signatureVerified = true → ∃ set,
      .share set vote.voter (.vote vote.view vote.blockHash) ∈ sinceBoot w.log) :
    Safely cfg (processVoteInner advance vote signatureVerified) w := by
  refine .guard fun hview => ?_
  have hview := not_not.mp hview
  refine .early fun hleader => ?_
  have hleader : w.engine.isCurrentLeader = true := by simpa using hleader
  have hown : IsOwnIndex cfg w.engine.core w.engine.myIndex := hw.stored.ownIndex hleader
  refine .ite (fun _ => ?_) fun hver => ?_
  · have hwire : vote.view ≤ u64Max := (hw.valid.wire hm).1
    refine .next (.verifyShare (.inl ⟨_, hm, rfl⟩) (hview ▸ hwire)
      (.inl (hw.isCurrentSet rfl))) fun _ _ _ => ?_
    exact countVote_sound hadv hown ⟨_, mem_cons_self⟩
  · obtain ⟨set, hshare⟩ := hverified (by simpa using hver)
    rw [hview] at hshare
    exact countVote_sound hadv hown ⟨set, hshare⟩

theorem countCommitVote_sound {cv : CommitVote} (hshare : ∃ set changesHash,
      .share set cv.voter (.commitVote w.engine.currentView cv.blockHash changesHash) ∈
        sinceBoot w.log) : Safely cfg (countCommitVote advance cv) w := by
  obtain ⟨set, changesHash, hshare⟩ := hshare
  refine .engine_bind ?_
  have htracker : Stored cfg { w.engine with
      commitEquivocationTracker :=
        (checkEquivocation w.engine.commitEquivocationTracker cv.voter cv.blockHash).1 } w.log :=
    { hw.stored with
      commitTracker := by
        intro i b hb
        rcases lookup_checkEquivocation hb with hb | ⟨rfl, rfl⟩
        · exact hw.stored.commitTracker i b hb
        · exact ⟨set, changesHash, hshare⟩ }
  refine .next (.update rfl fun _ => htracker) fun _ hw₁ hg₁ => ?_
  split
  · next hash1 hash2 hconflict =>
    obtain ⟨hprev, hne, rfl⟩ := checkEquivocation_conflict hconflict
    obtain ⟨set', changesHash', hshare'⟩ := hw.stored.commitTracker _ _ hprev
    refine .bind (.emit ?_) fun _ _ _ _ _ => .pure trivial
    refine ⟨set', set, _, _, hshare', hshare, rfl, rfl, ?_, .commitVote _ _ hne, ?_⟩
    · rw [← hw₁.core]
      rfl
    · rw [← hw₁.core]
      exact hw₁.steady
  · split
    · exact .pure trivial
    · next collector hcollector =>
      refine .early fun hblock => ?_
      split
      · exact .pure trivial
      · next added hadded =>
        refine .bind (.update rfl fun _ => hw₁.stored.addCommitVote hcollector hadded ?_) ?_
        · refine ⟨_, ?_, .inl ⟨set, mem_of_mem_sinceBoot hshare⟩⟩
          rw [← not_not.mp hblock]
          rfl
        · rintro _ _ _ - rfl
          exact tryFormCommitQc_sound hadv

theorem processCommitVoteInner_sound {cv : CommitVote} {signatureVerified : Bool}
    (hm : Delivered w.log (.commitVote cv))
    (hverified : signatureVerified = true → ∃ set changesHash,
      .share set cv.voter (.commitVote cv.view cv.blockHash changesHash) ∈ sinceBoot w.log) :
    Safely cfg (processCommitVoteInner advance cv signatureVerified) w := by
  refine .guard fun hview => ?_
  have hview := not_not.mp hview
  refine .early fun _ => ?_
  refine .ite (fun _ => ?_) fun hver => ?_
  · have hwire : cv.view ≤ u64Max := (hw.valid.wire hm).1
    refine .next (.verifyShare (.inl ⟨_, hm, rfl⟩) (hview ▸ hwire)
      (.inl (hw.isCurrentSet rfl))) fun _ _ _ => ?_
    exact countCommitVote_sound hadv ⟨_, _, mem_cons_self⟩
  · obtain ⟨set, changesHash, hshare⟩ := hverified (by simpa using hver)
    rw [hview] at hshare
    exact countCommitVote_sound hadv ⟨set, changesHash, hshare⟩

end N42
