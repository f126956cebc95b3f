import N42.Audit.Proposal
import N42.Audit.Timeout

/-!
View changes, message dispatch and whole events keep the invariant.
-/

namespace N42

open Lib EngineM List EpochManager

variable [Crypto] {cfg : NodeConfig} {w : World} {advance : ℕ → EngineM Unit}

def EpochManager.nextEpoch (em : EpochManager) : EpochManager :=
  if em.hasStagedNext then em.advanceEpoch else em.carryEpochForward

def EpochManager.boundaryOp (em : EpochManager) : EpochOp :=
  if em.hasStagedNext then .advance else .carry

omit [Crypto] in
theorem EpochManager.nextEpoch_eq {em : EpochManager} (hlen : 0 < em.epochLength) :
    em.nextEpoch.epochLength = em.epochLength ∧
      em.nextEpoch.currentEpoch = em.currentEpoch + 1 := by
  unfold nextEpoch
  cases hnext : em.nextSet with
  | none =>
    have hzero : (em.epochLength == 0) = false := by simpa using hlen.ne'
    simp [hasStagedNext, hnext, carryEpochForward, hzero]
  | some set => simp [hasStagedNext, hnext, advanceEpoch]

theorem EpochManager.boundaryOp_apply (em : EpochManager) :
    em.boundaryOp.apply em = em.nextEpoch := by
  unfold boundaryOp nextEpoch
  split <;> rfl

def World.crossed (w : World) : World :=
  let em := w.engine.epochManager
  let index := (em.nextSet.getD em.currentSet).indexOfPublicKey w.engine.localPublicKey
  (w.setEngine { w.engine with
    epochManager := em.nextEpoch
    myIndex := index.getD w.engine.myIndex }).push (.epoch em.boundaryOp)

theorem crossEpochBoundary_run (w : World) : crossEpochBoundary w =
    EngineM.emit (.epochTransition w.engine.epochManager.nextEpoch.currentEpoch
      w.engine.epochManager.nextEpoch.currentSet.len) w.crossed := by
  have hrun : crossEpochBoundary w = (activateNextEpoch >>= fun _ => do
      update fun e => { e with
        myIndex := ((w.engine.epochManager.nextSet.getD
          w.engine.epochManager.currentSet).indexOfPublicKey w.engine.localPublicKey).getD
            e.myIndex }
      let em := (← engine).epochManager
      emit (.epochTransition em.currentEpoch em.currentSet.len)) w := rfl
  have hactivate : activateNextEpoch w = .ok () ((w.setEngine { w.engine with
      epochManager := w.engine.epochManager.nextEpoch }).push
        (.epoch w.engine.epochManager.boundaryOp)) := by
    have h : activateNextEpoch w = (if w.engine.epochManager.hasStagedNext then
        updateEpochs .advance w.engine.epochManager.advanceEpoch
        else updateEpochs .carry w.engine.epochManager.carryEpochForward) w := rfl
    rw [h, nextEpoch, boundaryOp]
    cases w.engine.epochManager.hasStagedNext <;> rfl
  rw [hrun, bind_run, hactivate]
  rfl

theorem Base.crossed (hw : Base cfg w) (hlen : 0 < w.engine.epochManager.epochLength) :
    Base cfg w.crossed := by
  obtain ⟨hlen', -⟩ := nextEpoch_eq hlen
  refine hw.step ?_ (by simp) ?_ { hw.stored with index := ?_ }
  · have hcore : w.engine.epochManager = (coreOf cfg w.log).epochs := congrArg Core.epochs hw.core
    unfold boundaryOp
    split
    · next hstaged => exact ⟨hcore ▸ hlen, hcore ▸ hstaged⟩
    · next hstaged => exact ⟨hcore ▸ hlen, hcore ▸ hstaged⟩
  · exact congrArg (fun em => { w.engine.core with epochs := em })
      (boundaryOp_apply w.engine.epochManager).symm
  · intro hzero
    exact absurd (hlen'.symm.trans hzero) hlen.ne'

theorem Base.push {x : Effect} (hw : Base cfg w) (hx : Rule cfg w.log x) (hn : x.IsNote) :
    Base cfg (w.push x) :=
  hw.step hx hn.ne_boot (Core.apply_note hn _).symm hw.stored

/-- The epoch loop ends at the target epoch, or an output about a transition was lost. -/
theorem crossEpochBoundaries_base (target n : ℕ) (hw : Base cfg w)
    (hn : 0 < w.engine.epochManager.epochLength →
      target ≤ w.engine.epochManager.currentEpoch + n) :
    match crossEpochBoundaries target n w with
    | .ok _ w' => Base cfg w' ∧ Grows w.log w'.log ∧ w'.engine.roundState = w.engine.roundState ∧
        w'.engine.epochManager.epochLength = w.engine.epochManager.epochLength ∧
        (0 < w.engine.epochManager.epochLength →
          w'.engine.epochManager.currentEpoch = max w.engine.epochManager.currentEpoch target)
    | .error _ w' => Base cfg w' ∧ Grows w.log w'.log ∧ EpochOutputLost w'.log := by
  induction n generalizing w with
  | zero =>
    refine ⟨hw, .refl _, rfl, rfl, fun hlen => ?_⟩
    have hle := hn hlen
    exact (max_eq_left (by simpa using hle)).symm
  | succ n ih =>
    have hrun : crossEpochBoundaries target (n + 1) w =
        (if w.engine.epochManager.epochsEnabled ∧
            w.engine.epochManager.currentEpoch < target then
          (crossEpochBoundary >>= fun _ => crossEpochBoundaries target n) else pure ()) w := rfl
    rw [hrun]
    by_cases hmore : w.engine.epochManager.epochsEnabled ∧
        w.engine.epochManager.currentEpoch < target
    · have hlen : 0 < w.engine.epochManager.epochLength := of_decide_eq_true hmore.1
      obtain ⟨hlen', hepoch⟩ := nextEpoch_eq hlen
      have hcrossed := hw.crossed hlen
      have hgrow : Grows w.log w.crossed.log := .cons w.log (by simp)
      rw [if_pos hmore, bind_run, crossEpochBoundary_run, Sound.emit_run]
      by_cases hfate : w.crossed.env.fate w.crossed.log.length = .done
      · rw [if_pos hfate]
        have hbase := hcrossed.push (x := .emit (.epochTransition
          w.engine.epochManager.nextEpoch.currentEpoch
          w.engine.epochManager.nextEpoch.currentSet.len) true) trivial trivial
        have hleft : target ≤ w.engine.epochManager.nextEpoch.currentEpoch + n := by
          omega
        have hnext := ih hbase fun _ => hleft
        dsimp only
        revert hnext
        cases crossEpochBoundaries target n _ with
        | ok _ w' =>
          rintro ⟨hbase', hg, hround, hlength, hreached⟩
          refine ⟨hbase', (hgrow.trans (.cons _ (by simp))).trans hg, hround,
            hlength.trans hlen', fun _ => ?_⟩
          rw [hreached (hlen'.symm ▸ hlen)]
          show max w.engine.epochManager.nextEpoch.currentEpoch target = _
          rw [max_eq_right (by omega), max_eq_right (by omega)]
        | error err w' =>
          rintro ⟨hbase', hg, hlost⟩
          exact ⟨hbase', (hgrow.trans (.cons _ (by simp))).trans hg, hlost⟩
      · rw [if_neg hfate]
        exact ⟨hcrossed.push trivial trivial, hgrow.trans (.cons _ (by simp)), _, _,
          mem_cons_self⟩
    · rw [if_neg hmore]
      refine ⟨hw, .refl _, rfl, rfl, fun hlen => ?_⟩
      have hle : target ≤ w.engine.epochManager.currentEpoch := by
        by_contra hlt
        exact hmore ⟨decide_eq_true hlen, by omega⟩
      exact (max_eq_left hle).symm

theorem Engine.syncLocalValidatorIndex_eq (e : Engine) : e.syncLocalValidatorIndex =
    { e with myIndex := (e.validatorSet.indexOfPublicKey e.localPublicKey).getD e.myIndex } := by
  unfold syncLocalValidatorIndex
  cases e.validatorSet.indexOfPublicKey e.localPublicKey <;> rfl

variable {newView : ℕ}

theorem enterView_core {e : Engine} (hnew : e.currentView < newView) :
    (e.enterView newView).core = { e.core with view := newView } := by
  have hround : e.roundState.advanceView newView =
      { e.roundState with currentView := newView, phase := .waitingForProposal } :=
    if_neg (Nat.not_le.mpr hnew)
  unfold Engine.enterView
  rw [Engine.syncLocalValidatorIndex_eq, hround]
  rfl

theorem enterView_stored {e : Engine} {log : List Effect} (h : Stored cfg e log) (newView : ℕ) :
    Stored cfg (e.enterView newView) log := by
  unfold Engine.enterView
  rw [Engine.syncLocalValidatorIndex_eq]
  exact {
    key := h.key
    profile := h.profile
    index := by
      intro _ i hi
      have hlocal : e.validatorSet.indexOfPublicKey e.localPublicKey = some i := by
        rw [Engine.localPublicKey, h.key]
        exact hi
      show (e.validatorSet.indexOfPublicKey e.localPublicKey).getD e.myIndex = i
      rw [hlocal]
      rfl
    pending := by simp
    imports := h.imports.clear
    votes := by simp
    commitVotes := by simp
    sameBlock := by simp
    timeouts := by simp
    futureTimeouts := fun view c hc => h.futureTimeouts view c (Map.lookup_retain hc).1
    voteTracker := by simp
    commitTracker := by simp
    proposalTracker := by simp
    buffer := h.buffer }

variable [hw : Inv cfg w]

theorem changeView_sound (hnew : w.engine.currentView < newView)
    (hmax : newView ≤ u64Max) (hcause : EntryCause w.log newView) :
    Sound cfg (changeView newView) w fun _ w' => w'.engine.currentView = newView := by
  let em := w.engine.epochManager
  have hrun : changeView newView w =
      (crossEpochBoundaries (em.epochForView newView)
        (em.epochForView newView - em.currentEpoch) >>= fun _ => do
          record (.enter newView)
          update (·.enterView newView)) w := rfl
  unfold Sound Guarantee
  rw [hrun, bind_run]
  have hcross := crossEpochBoundaries_base (em.epochForView newView)
    (em.epochForView newView - em.currentEpoch) hw.toBase fun _ => le_add_tsub
  revert hcross
  cases crossEpochBoundaries (em.epochForView newView)
      (em.epochForView newView - em.currentEpoch) w with
  | error err w' =>
    rintro ⟨hbase, hg, hlost⟩
    exact fun _ => ⟨⟨hbase, fun h => absurd hlost h⟩, hg⟩
  | ok _ w' =>
    rintro ⟨hbase, hg, hround, hlen, hreached⟩
    have hnew' : w'.engine.currentView < newView := by
      rw [Engine.currentView, hround]
      exact hnew
    have hrule : Rule cfg w'.log (.enter newView) := by
      refine ⟨?_, hmax, hg.entryCause hcause⟩
      rw [← hbase.core]
      exact hnew'
    have hgrow := hg.trans (.cons w'.log (x := .enter newView) (by simp))
    have hbase' : Base cfg ((w'.setEngine (w'.engine.enterView newView)).push (.enter newView)) :=
      hbase.step hrule (by simp) (enterView_core hnew') (enterView_stored hbase.stored newView)
    refine ⟨fun _ => ⟨⟨hbase', fun hlost => ?_⟩, hgrow⟩, ?_⟩
    · have hsteady := hw.steady fun h => hlost (hgrow.epochOutputLost h)
      rw [enterView_core hnew']
      rcases Nat.eq_zero_or_pos em.epochLength with hzero | hpos
      · exact .inl (hlen.trans hzero)
      · refine .inr ?_
        show w'.engine.epochManager.epochForView newView = w'.engine.epochManager.currentEpoch
        have hbefore : em.epochForView w.engine.currentView = em.currentEpoch :=
          hsteady.resolve_left hpos.ne'
        have hmono : em.epochForView w.engine.currentView ≤ em.epochForView newView :=
          Nat.div_le_div_right (by omega)
        rw [hreached hpos, epochForView, hlen, max_eq_right (hbefore ▸ hmono)]
        rfl
    · exact congrArg Core.view (enterView_core hnew')

theorem drainBuffer_sound : Sound cfg (drainBuffer newView) w fun messages w' =>
      ∀ m ∈ messages, Delivered w'.log m ∧ isExempt m = false := by
  refine .engine_bind ?_
  refine .bind (.update rfl fun hw => { hw.stored with buffer := ?_ }) ?_
  · intro view m hm
    exact hw.stored.buffer view m (mem_filter.mp hm).1
  · rintro _ _ - - rfl
    refine .pure fun m hm => ?_
    obtain ⟨⟨view, msg⟩, hentry, rfl⟩ := mem_map.mp hm
    exact hw.stored.buffer view msg (mem_filter.mp hentry).1

/-- What a replay of a buffered message has to satisfy. -/
def Replays (cfg : NodeConfig) (replay : ConsensusMessage → EngineM Unit) : Prop :=
  ∀ w m, Inv cfg w → Delivered w.log m → isExempt m = false →
    Safely cfg (replay m) w

variable {replay : ConsensusMessage → EngineM Unit} {messages : List ConsensusMessage}

theorem replayAll_sound (hreplay : Replays cfg replay)
    (hm : ∀ m ∈ messages, Delivered w.log m ∧ isExempt m = false) :
    Safely cfg (replayAll replay messages) w := by
  induction messages generalizing w with
  | nil => exact .pure trivial
  | cons m rest ih =>
    obtain ⟨hdel, hexempt⟩ := hm m mem_cons_self
    refine .bind (.discard (.succeeds (hreplay w m hw hdel hexempt))) ?_
    rintro _ w₁ _ hg₁ -
    exact ih fun m' hm' =>
      ⟨hg₁.delivered (hm m' (mem_cons_of_mem _ hm')).1, (hm m' (mem_cons_of_mem _ hm')).2⟩

theorem advanceAndReplay_sound (hreplay : Replays cfg replay) :
    Advances cfg (advanceAndReplay replay) := by
  intro w newView hw hmax hcause
  refine .engine_bind (.early fun hnew => ?_)
  refine .next (.update rfl fun hw => { hw.stored with }) fun _ _ hg₁ => ?_
  refine .bind (changeView_sound (Nat.lt_of_not_le hnew) hmax hcause) ?_
  rintro _ w₂ _ hg₂ -
  refine .bind drainBuffer_sound ?_
  rintro messages w₃ _ hg₃ hmessages
  exact replayAll_sound hreplay hmessages

/-- The message being processed is the subject of the input just delivered. -/
def JustDelivered (log : List Effect) (msg : ConsensusMessage) : Prop :=
  ∃ input, log.head? = some (.deliver input) ∧ input.subject = some msg

variable {msg : ConsensusMessage} {proof : Option AuthenticatedVoteProof}

theorem dispatchMessage_sound (hadv : Advances cfg advance)
    (hm : Delivered w.log msg) (hproof : ∀ token, proof = some token → TokenBasis w.log msg token)
    (hexempt : isExempt msg = true → JustDelivered w.log msg) :
    Safely cfg (dispatchMessage advance msg proof) w := by
  cases msg with
  | proposal p => exact processProposal_sound hm
  | vote v =>
    refine processVoteInner_sound hadv hm fun hverified => ?_
    exact (hproof _ (of_decide_eq_true hverified)).2
  | commitVote cv =>
    refine .engine_bind (processCommitVoteInner_sound hadv hm fun hverified => ?_)
    obtain ⟨-, set, hshare⟩ := hproof _ (of_decide_eq_true hverified)
    exact ⟨set, _, hshare⟩
  | prepareQc pqc => exact processPrepareQc_sound hm
  | timeout t => exact processTimeout_sound hadv (.inl hm)
  | newView nv =>
    obtain ⟨input, hhead, hsubject⟩ := hexempt rfl
    exact processNewView_sound hadv hm hhead hsubject
  | decide d => exact processDecide_sound hadv hm

theorem advanceToView_sound (cfg : NodeConfig) (depth : ℕ) :
    Advances cfg (advanceToView depth) := by
  induction depth with
  | zero => exact advanceAndReplay_sound fun _ _ _ _ _ => .pure trivial
  | succ depth ih =>
    refine advanceAndReplay_sound fun w m hw hm hexempt => ?_
    exact dispatchMessage_sound ih hm (by simp) fun h => absurd h (by simp [hexempt])

theorem verifyJumpQc_sound {qc : QuorumCertificate} (hm : Delivered w.log msg)
    (hqc : msg.extractQc = some qc) (hexempt : isExempt msg = false) (hfresh : ∀ pqc, msg =
      .prepareQc pqc → JustDelivered w.log msg ∧ w.engine.currentView < pqc.view) :
    Sound cfg (verifyJumpQc msg qc) w fun valid w' => valid = true → Trusted w'.log qc := by
  have hany : qc ∈ msg.qcs → Sound cfg (succeeds (verifyQcAnyDomainOrKnown qc)) w
      fun valid w' => valid = true → Trusted w'.log qc := by
    intro hmem
    refine .mono (.succeeds (.verifyQcAnyDomainOrKnown (.inl ⟨msg, hm, hmem⟩))) ?_
    exact fun _ _ _ _ h hvalid => (h hvalid).1
  refine .engine_bind ?_
  cases msg with
  | proposal p =>
    obtain rfl := Option.some.inj hqc
    exact hany mem_cons_self
  | timeout t =>
    obtain rfl := Option.some.inj hqc
    exact hany mem_cons_self
  | newView nv => simp [isExempt] at hexempt
  | decide d => simp [isExempt] at hexempt
  | vote v => simp [ConsensusMessage.extractQc] at hqc
  | commitVote cv => simp [ConsensusMessage.extractQc] at hqc
  | prepareQc pqc =>
    obtain rfl := Option.some.inj hqc
    obtain ⟨⟨input, hhead, hsubject⟩, hview⟩ := hfresh pqc rfl
    have hcarried : Certificate.CarriedBy (.prepare pqc.qc) (.prepareQc pqc) :=
      mem_cons_self
    have hfallback : FallbackChecked w.log w.engine.currentView (.prepare pqc.qc) :=
      ⟨input, hhead, .inl ⟨pqc, hsubject, hview, rfl⟩⟩
    refine .mono (.succeeds (.verifyCert ⟨_, hm, hcarried⟩ (.inr ⟨rfl, hfallback⟩))) ?_
    rintro valid w' - - h hvalid
    obtain rfl := h hvalid
    exact .inr ⟨_, _, _, mem_cons_self, rfl⟩

theorem tryQcViewJump_sound (hadv : Advances cfg advance)
    (hm : Delivered w.log msg) (hexempt : isExempt msg = false) (hfresh : ∀ pqc, msg = .prepareQc
      pqc → JustDelivered w.log msg ∧ w.engine.currentView < pqc.view) :
    Safely cfg (tryQcViewJump advance msg) w := by
  unfold tryQcViewJump
  split
  · exact .pure trivial
  · next qc hqc =>
    refine .early fun hpos => ?_
    refine .bind (verifyJumpQc_sound hm hqc hexempt hfresh) ?_
    rintro valid w₁ _ hg₁ htrusted
    refine .early fun hvalid => ?_
    have htrusted : Trusted w₁.log qc := htrusted (by simpa using hvalid)
    refine .early fun _ => ?_
    refine .bind (.updateLockedQc htrusted) ?_
    rintro _ w₂ _ hg₂ -
    refine .next (.updateRound rfl) fun _ _ hg₃ => ?_
    refine .next (.emit trivial) fun _ hw₄ hg₄ => ?_
    have hcertified := (hg₄.trusted (hg₂.trusted htrusted)).resolve_left hpos
    refine .bind (hadv _ _ hw₄ (satAdd_le_max _ 1)
      (.inl ⟨qc, hcertified, satAdd_le_add _ 1⟩)) ?_
    rintro _ w₅ _ - -
    exact .engine_bind (.bind (.emit trivial) fun _ _ _ _ _ => .pure trivial)

theorem Stored.withBuffered {e : Engine} {log : List Effect} (h : Stored cfg e log)
    {buffer : List (ℕ × ConsensusMessage)} (hsub : ∀ entry ∈ buffer, entry ∈ e.futureMsgBuffer)
    {view : ℕ} (hm : Delivered log msg) (hexempt : isExempt msg = false) :
    Stored cfg { e with futureMsgBuffer := buffer ++ [(view, msg)] } log :=
  { h with
    buffer := by
      intro v m hmem
      rcases mem_append.mp hmem with hmem | hmem
      · exact h.buffer v m (hsub _ hmem)
      · obtain ⟨rfl, rfl⟩ := Prod.mk.inj (mem_singleton.mp hmem)
        exact ⟨hm, hexempt⟩ }

omit [Crypto] in
theorem mem_of_mem_swapRemove {α : Type} {l : List α} {i : ℕ} {x : α}
    (h : x ∈ swapRemove l i) : x ∈ l := by
  unfold swapRemove at h
  split at h
  · exact h
  · next last hlast =>
    rcases mem_or_eq_of_mem_set (dropLast_subset _ h) with h | rfl
    · exact h
    · exact mem_of_getLast? hlast

omit hw in
theorem bufferMessage_sound (hm : Delivered w.log msg) (hexempt : isExempt msg = false) :
    Safely cfg (bufferMessage msg) w := by
  unfold bufferMessage
  refine .drop (.update rfl fun hw => hw.stored.withBuffered (fun entry h => ?_) hm hexempt)
  split at h
  · exact mem_of_mem_swapRemove h
  · exact h

section

variable (hadv : Advances cfg advance) (hm : Delivered w.log msg)
  (hproof : ∀ token, proof = some token → TokenBasis w.log msg token)
include hadv hm hproof

theorem afterJump_sound (hexempt : isExempt msg = false) :
    Safely cfg (afterJump advance msg proof) w := by
  refine .ite (fun _ => ?_) fun _ => .ite (fun _ => ?_) fun _ => .pure trivial
  · exact dispatchMessage_sound hadv hm hproof fun h => absurd h (by simp [hexempt])
  · exact .drop (.update rfl fun hw => hw.stored.withBuffered (fun _ h => h) hm hexempt)

theorem processFutureMessage_sound (hexempt : isExempt msg = false)
    (hjust : JustDelivered w.log msg) (hfuture : w.engine.currentView < msg.view) :
    Safely cfg (processFutureMessage advance msg proof) w := by
  have hfresh : ∀ pqc, msg = .prepareQc pqc → JustDelivered w.log msg ∧
      w.engine.currentView < pqc.view := by
    rintro pqc rfl
    exact ⟨hjust, hfuture⟩
  have hafter : ∀ w', Inv cfg w' → Grows w.log w'.log →
      Safely cfg (afterJump advance msg proof) w' := fun w' _ hg =>
    afterJump_sound hadv (hg.delivered hm) (fun token h => hg.tokenBasis (hproof token h)) hexempt
  have hjump : ∀ w', Inv cfg w' → Grows w.log w'.log →
      Sound cfg (tryQcViewJump advance msg) w' (fun _ _ => True) →
      Safely cfg (tryQcViewJump advance msg >>= fun jumped =>
        if jumped = true then afterJump advance msg proof else bufferMessage msg) w' := by
    intro w' hw' hg hx
    refine .bind hx ?_
    rintro jumped w'' hw'' hg' -
    exact .ite (fun _ => hafter w'' hw'' (hg.trans hg')) fun _ =>
      bufferMessage_sound (hg'.delivered (hg.delivered hm)) hexempt
  refine .engine_bind ?_
  refine .ite (fun _ => ?_) fun _ => ?_
  · split
    · next t =>
      refine .bind (collectFutureTimeout_sound hadv hm) ?_
      rintro changed w₁ hw₁ hg₁ -
      refine .early fun _ => ?_
      exact hjump w₁ hw₁ hg₁ (tryQcViewJump_sound hadv (hg₁.delivered hm) hexempt (by simp))
    · exact hjump w hw (.refl _) (tryQcViewJump_sound hadv hm hexempt hfresh)
  · refine .bind (tryQcViewJump_sound hadv hm hexempt hfresh) ?_
    rintro jumped w₁ hw₁ hg₁ -
    exact .ite (fun _ => hafter w₁ hw₁ hg₁) fun _ => .pure trivial

theorem processMessageInner_sound (hjust : JustDelivered w.log msg) :
    Safely cfg (processMessageInner advance msg proof) w := by
  refine .ite (fun hfuture => ?_) fun _ => .ite (fun _ => ?_) fun _ => ?_
  · exact processFutureMessage_sound hadv hm hproof (by simpa using hfuture.2) hjust hfuture.1
  · split
    · exact .discard recoverLateCommittedProposal_sound
    · exact .pure trivial
  · exact dispatchMessage_sound hadv hm hproof fun _ => hjust

end

/-- What the batch verifier knows of a candidate. -/
structure Candidate (w : World) (set : ValidatorSet) (c : VoteCandidate) : Prop where
  delivered : Delivered w.log c.message
  signature : c.message.signature? = some c.signature
  key : set.keyAt c.signer = some c.publicKey
  view : c.item.view = w.engine.currentView
  token : ∀ log, .share set c.signer c.item ∈ sinceBoot log → TokenBasis log c.message c.proof

omit [Crypto] in
theorem voteCandidate_spec {c : VoteCandidate} (hm : Delivered w.log msg)
    (hc : w.engine.voteCandidate msg = some c) :
    Candidate w (w.engine.validatorSetForView w.engine.currentView) c := by
  unfold Engine.voteCandidate at hc
  split at hc
  · next v =>
    split at hc
    · next hview =>
      obtain ⟨pk, hpk, rfl⟩ := Option.map_eq_some_iff.mp hc
      rw [hview] at hpk
      exact ⟨hm, rfl, hpk, hview, fun log h => ⟨rfl, _, h⟩⟩
    · cases hc
  · next cv =>
    split at hc
    · next hview =>
      obtain ⟨pk, hpk, rfl⟩ := Option.map_eq_some_iff.mp hc
      rw [hview] at hpk
      exact ⟨hm, rfl, hpk, hview, fun log h => ⟨rfl, _, h⟩⟩
    · cases hc
  · cases hc

omit [Crypto] in
theorem eq_of_mem_zip_map {α β : Type} {l : List α} {f : α → β} {x : α} {b : β}
    (h : (x, b) ∈ l.zip (l.map f)) : b = f x := by
  have hzip : l.zip (l.map f) = l.map fun a => (a, f a) := by
    simpa using zip_map' (f := id) (g := f) (l := l)
  rw [hzip] at h
  obtain ⟨a, -, heq⟩ := mem_map.mp h
  obtain ⟨rfl, rfl⟩ := Prod.mk.inj heq
  rfl

theorem verified_of_batchVerify {p : ConsensusSigningProfile} {α : Type} {l : List α}
    {tuple : α → Bytes × BlsSignature × BlsPublicKey} {x : α}
    (h : (x, true) ∈ l.zip (batchVerify p (l.map tuple))) :
    p.verifySingle (tuple x).2.2 (tuple x).1 (tuple x).2.1 = true := by
  unfold batchVerify at h
  split at h
  · rw [map_map] at h
    exact absurd (eq_of_mem_zip_map h) (by simp)
  · rw [map_map] at h
    exact (eq_of_mem_zip_map h).symm

theorem issueTokens_sound {set : ValidatorSet} {entries : List (VoteCandidate × Bool)}
    (hset : set = w.engine.validatorSetForView w.engine.currentView)
    (hall : ∀ c, (c, true) ∈ entries → Candidate w set c ∧
      cfg.signingProfile.verifySingle c.publicKey (c.item.message cfg.signingProfile)
        c.signature = true) : Safely cfg (issueTokens set entries) w := by
  induction entries generalizing w with
  | nil => exact .pure trivial
  | cons entry rest ih =>
    obtain ⟨c, good⟩ := entry
    have hrest : ∀ w', Inv cfg w' → Grows w.log w'.log → w'.engine = w.engine →
        Safely cfg (issueTokens set rest) w' := by
      intro w' hw' hg heng
      refine ih (heng ▸ hset) fun c' hc' => ?_
      obtain ⟨hcand, hverify⟩ := hall c' (mem_cons_of_mem _ hc')
      exact ⟨⟨hg.delivered hcand.delivered, hcand.signature, hcand.key, heng ▸ hcand.view,
        hcand.token⟩, hverify⟩
    refine .ite (fun hgood => ?_) fun _ => hrest w hw (.refl _) rfl
    subst hgood
    obtain ⟨hcand, hverify⟩ := hall c mem_cons_self
    have hcurrent : IsCurrentSet w.log (coreOf cfg w.log) c.item.view set := by
      rw [hset, ← hcand.view]
      exact hw.isCurrentSet hcand.view
    refine .next (.record ⟨.inl ⟨c.message, c.signature, c.publicKey, hcand.delivered,
      hcand.signature, hcand.key, hverify⟩, hcand.view ▸ hw.view_le_max, .inl hcurrent⟩ trivial)
      fun _ _ hg₁ => ?_
    refine .next (.record ⟨hg₁.delivered hcand.delivered,
      hcand.token _ mem_cons_self⟩ trivial) fun _ hw₂ hg₂ => ?_
    exact hrest _ hw₂ (hg₁.trans hg₂) rfl

theorem authenticateVoteBatch_sound (hm : ∀ m ∈ messages, Delivered w.log m) :
    Safely cfg (authenticateVoteBatch messages) w := by
  refine issueTokens_sound rfl fun c hc => ⟨?_, ?_⟩
  · obtain ⟨m, hmem, hcand⟩ := mem_filterMap.mp (of_mem_zip hc).1
    exact voteCandidate_spec (hm m hmem) hcand
  · have h := verified_of_batchVerify hc
    rw [hw.stored.profile] at h
    exact h

omit hw in
theorem proposeChange_sound {op : EpochOp} {result : Except ConsensusError EpochManager}
    (hrule : Rule cfg w.log (.epoch op))
    (hop : ∀ em, result = .ok em → em = op.apply w.engine.epochManager ∧
      em.active = w.engine.epochManager.active) : Safely cfg (proposeChange op result) w := by
  unfold proposeChange
  refine .ofExcept_bind fun em hem => ?_
  obtain ⟨happly, hactive⟩ := hop em hem
  exact .drop (.updateEpochs hrule happly hactive)

theorem handle_sound {input : Input} (hadm : input.Admissible w.log) :
    Safely cfg (handle input) w := by
  refine .next (.record hadm trivial) fun _ _ hg₁ => ?_
  refine .engine_bind ?_
  have hadv := advanceToView_sound cfg (w.engine.futureMsgBuffer.length + 1)
  cases input with
  | message msg =>
    exact processMessageInner_sound hadv ⟨_, mem_cons_self, by simp [Input.messages]⟩
      (by simp) ⟨_, rfl, rfl⟩
  | blockReady blockHash txRootHash => exact onBlockReady_sound hadv rfl
  | blockImported blockHash => exact onBlockImported_sound mem_cons_self
  | blockImportedWithParent blockHash parentHash =>
    exact onBlockImported_sound mem_cons_self
  | timeout => exact onTimeout_sound hadv
  | voteBatch messages =>
    exact authenticateVoteBatch_sound fun m hm => ⟨_, mem_cons_self, hm⟩
  | authenticated msg proof =>
    obtain ⟨hdel, hbasis⟩ := hw.valid.token (hadm.authorized msg proof rfl)
    refine processMessageInner_sound hadv (hg₁.delivered hdel) ?_ ⟨_, rfl, rfl⟩
    rintro _ ⟨rfl⟩
    exact hg₁.tokenBasis hbasis
  | proposeAdd info =>
    refine proposeChange_sound trivial fun em hem => ⟨?_, ?_⟩
    · simp only [EpochOp.apply, hem, Except.toOption, Option.getD_some]
    · rw [proposeAddValidator_ok hem]
      rfl
  | proposeRemove address =>
    refine proposeChange_sound trivial fun em hem => ⟨?_, ?_⟩
    · simp only [EpochOp.apply, hem, Except.toOption, Option.getD_some]
    · rw [proposeRemoveValidator_ok hem]
      rfl

end N42
