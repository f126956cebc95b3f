import N42.Lib.Agreement
import N42.Protocol.StateMachine

/-!
Handlers run from related worlds, and handlers that change the view in two ways.

For a relation that the primitives respect, and two ways to change the view that take related worlds
to related worlds, so does every handler.
-/

namespace N42

open Lib EngineM

section Parts

variable (e : Engine)

abbrev Engine.heard := (e.roundState.currentView, e.futureMsgBuffer)

abbrev Engine.framed := (e.heard, e.roundState.lastCommittedQc, e.roundState.lockedQc,
  e.voteCollector, e.commitCollector, e.timeoutCollector, e.futureTimeoutCollectors)

abbrev Engine.staged := (e.framed, e.epochManager)

end Parts

class Same {β : Type} (f g : Engine → β) : Prop where
  eq : ∀ e, f e = g e

instance {β : Type} (f : Engine → β) : Same f f := ⟨fun _ => rfl⟩

section Relations

variable {R : World → World → Prop} {β γ : Type} {seen : Engine → β}

/-- Related worlds stay related when both are given an engine in which `seen` is the same. -/
def Overlooks (R : World → World → Prop) (seen : Engine → β) : Prop :=
  ∀ w₁ w₂ e, R w₁ w₂ → seen e = seen w₁.engine → R { w₁ with engine := e } { w₂ with engine := e }

/-- Related worlds have the same engine and get the same answers. -/
class Respected (R : World → World → Prop) : Prop where
  engine : ∀ w₁ w₂, R w₁ w₂ → w₁.engine = w₂.engine
  rank : ∀ w₁ w₂, R w₁ w₂ → w₁.env.rank = w₂.env.rank
  fate : ∀ w₁ w₂, R w₁ w₂ → w₁.env.fate w₁.log.length = w₂.env.fate w₂.log.length
  record : ∀ w₁ w₂ x, R w₁ w₂ → R { w₁ with log := x :: w₁.log } { w₂ with log := x :: w₂.log }
  staged : Overlooks R Engine.staged

/-- Besides, the epochs do not matter. -/
class OverlooksEpochs (R : World → World → Prop) : Prop extends Respected R where
  framed : Overlooks R Engine.framed

/-- Only the view and the buffer matter. -/
class OverlooksState (R : World → World → Prop) : Prop extends OverlooksEpochs R where
  heard : Overlooks R Engine.heard

theorem Overlooks.update [hR : Respected R] (h : Overlooks R seen) {f : Engine → Engine}
    (hf : ∀ e, seen (f e) = seen e) : Agrees R (update f) := ⟨fun w₁ w₂ hw => by
  refine ⟨rfl, ?_⟩
  have hset := h w₁ w₂ (f w₁.engine) hw (hf _)
  show R { w₁ with engine := f w₁.engine } { w₂ with engine := f w₂.engine }
  rwa [← hR.engine w₁ w₂ hw]⟩

instance (f : Engine → Engine) [Respected R] [h : Same (fun e => (f e).staged) Engine.staged] :
    Agrees R (update f) :=
  Respected.staged.update h.eq

instance (f : Engine → Engine) [OverlooksEpochs R]
    [h : Same (fun e => (f e).framed) Engine.framed] :
    Agrees R (update f) :=
  OverlooksEpochs.framed.update h.eq

instance (f : Engine → Engine) [OverlooksState R] [h : Same (fun e => (f e).heard) Engine.heard] :
    Agrees R (update f) :=
  OverlooksState.heard.update h.eq

/-- One world, of which `P` holds. -/
structure On (P : World → Prop) (w₁ w₂ : World) : Prop where
  eq : w₁ = w₂
  holds : P w₁

namespace On

variable {P : World → Prop} {w : World} {α : Type}

theorem overlooks (h : ∀ w e, P w → seen e = seen w.engine → P { w with engine := e }) :
    Overlooks (On P) seen := fun w₁ _ e hw he => ⟨by rw [hw.eq], h w₁ e hw.holds he⟩

theorem respected (hrecord : ∀ w x, P w → P { w with log := x :: w.log })
    (hstaged : Overlooks (On P) Engine.staged) : Respected (On P) where
  engine _ _ h := congrArg World.engine h.eq
  rank _ _ h := congrArg (·.env.rank) h.eq
  fate _ _ h := by rw [h.eq]
  record w₁ _ x h := ⟨by rw [h.eq], hrecord w₁ x h.holds⟩
  staged := hstaged

theorem outcome {x : EngineM α} [h : Agrees (On P) x] (hw : P w) : Outcome x w (fun _ => P) P := by
  unfold Outcome
  obtain ⟨a, w', _, h₁, -, -, hw'⟩ | ⟨err, w', _, h₁, -, -, hw'⟩ := (h.run w w ⟨rfl, hw⟩).cases
  · rw [h₁]
    exact hw'
  · rw [h₁]
    exact hw'

end On

instance (x y : EngineM Unit) [h : Mirrors R x y] :
    Mirrors R (EngineM.succeeds x) (EngineM.succeeds y) := ⟨fun w₁ w₂ hw => by
  unfold EngineM.succeeds
  obtain ⟨a, w₁', w₂', h₁, h₂, hw⟩ | ⟨err, w₁', w₂', h₁, h₂, hw⟩ := (h.run w₁ w₂ hw).cases
  · rw [h₁, h₂]
    exact ⟨rfl, hw⟩
  · rw [h₁, h₂]
    exact ⟨rfl, hw⟩⟩

end Relations

variable {R : World → World → Prop} (view : ℕ) (blockHash : B256) (qc : QuorumCertificate)
  (proposal : Proposal) (cert : Certificate) (set : ValidatorSet) (item : Item) (d : Decide)
  (timeout : TimeoutMessage) (tc : TimeoutCertificate)

section Stays

variable [hR : Respected R]

instance : Agrees R EngineM.engine := ⟨fun w₁ w₂ h => ⟨hR.engine w₁ w₂ h, h⟩⟩

instance : Agrees R EngineM.rank := ⟨fun w₁ w₂ h => ⟨hR.rank w₁ w₂ h, h⟩⟩

instance : Agrees R EngineM.fate := ⟨fun w₁ w₂ h => ⟨hR.fate w₁ w₂ h, h⟩⟩

instance (x : Effect) : Agrees R (record x) := ⟨fun w₁ w₂ h => ⟨rfl, hR.record w₁ w₂ x h⟩⟩

instance (output : EngineOutput) : Agrees R (emit output) := by
  unfold emit
  infer_instance

instance (mk : Fate → Effect) : Agrees R (persist mk) := by
  unfold persist
  infer_instance

instance : Agrees R (recordVote view) := by
  unfold recordVote updateRound RoundState.recordVote
  infer_instance

instance : Agrees R (recordCommitVote view) := by
  unfold recordCommitVote updateRound RoundState.recordCommitVote
  infer_instance

instance : Agrees R (updateRound (·.enterPreCommit)) := by
  unfold updateRound RoundState.enterPreCommit
  infer_instance

instance (used : ValidatorSet) : Agrees R (accept cert used) := by
  unfold accept
  infer_instance

variable [Crypto]

instance (index : ℕ) (signature : BlsSignature) :
    Agrees R (verifyShare set index item signature) := by
  unfold verifyShare
  infer_instance

instance : Agrees R (signItem item) := by
  unfold signItem
  infer_instance

instance : Agrees R (verifyCert cert set) := by
  unfold verifyCert
  infer_instance

instance : Agrees R (verifyQcAnyDomainOrKnown qc) := by
  unfold verifyQcAnyDomainOrKnown
  infer_instance

instance : Agrees R (sendVote view blockHash) := by
  unfold sendVote
  infer_instance

instance : Agrees R (authenticateProposal proposal) := by
  unfold authenticateProposal
  infer_instance

instance : Agrees R (trackProposal proposal) := by
  refine .andThen fun e => ?_
  split <;> infer_instance

instance : Agrees R (verifyJustify qc) := by
  unfold verifyJustify
  infer_instance

instance : Agrees R (voteOnProposal proposal) := by
  unfold voteOnProposal
  infer_instance

instance : Agrees R (sendCommitVote view blockHash) := by
  unfold sendCommitVote
  infer_instance

instance : Agrees R (authenticateDecide d) := by
  unfold authenticateDecide
  infer_instance

instance (currentView : ℕ) : Agrees R (reportGap currentView view) := by
  unfold reportGap
  infer_instance

instance : Agrees R (verifyEmbeddedQc qc) := by
  unfold verifyEmbeddedQc
  infer_instance

instance (nextView : ℕ) : Agrees R (broadcastNewView tc nextView) := by
  refine .andThen fun e => .cond ?_ inferInstance
  split <;> infer_instance

instance (relay : Prop) [Decidable relay] (nextLeader : ℕ) :
    Agrees R (relayTimeout relay nextLeader timeout) := by
  unfold relayTimeout
  infer_instance

instance (m : ConsensusMessage) : Agrees R (verifyJumpQc m qc) := by
  unfold verifyJumpQc
  cases m <;> infer_instance

instance (candidates : List (VoteCandidate × Bool)) :
    Agrees R (issueTokens set candidates) := by
  induction candidates with
  | nil => exact Mirrors.pure ()
  | cons candidate rest ih =>
    unfold issueTokens
    infer_instance

instance (messages : List ConsensusMessage) : Agrees R (authenticateVoteBatch messages) := by
  unfold authenticateVoteBatch
  infer_instance

end Stays

section Epochs

variable [OverlooksEpochs R]

instance (op : EpochOp) (em : EpochManager) : Agrees R (updateEpochs op em) := by
  unfold updateEpochs
  infer_instance

variable [Crypto]

instance : Agrees R commitPendingChanges := by
  unfold commitPendingChanges
  infer_instance

instance : Agrees R (cacheProposal proposal) := by
  unfold cacheProposal RoundState.enterVoting
  infer_instance

instance (changesHash : B256) : Agrees R (stageCommitted changesHash) := by
  unfold stageCommitted
  infer_instance

instance : Agrees R (stageDecided d) := by
  unfold stageDecided
  infer_instance

instance : Agrees R activateNextEpoch := by
  unfold activateNextEpoch
  infer_instance

instance : Agrees R crossEpochBoundary := by
  unfold crossEpochBoundary
  infer_instance

instance (target n : ℕ) : Agrees R (crossEpochBoundaries target n) := by
  induction n with
  | zero => exact Mirrors.pure ()
  | succ n ih =>
    unfold crossEpochBoundaries
    infer_instance

instance (proposal : Proposal) : Agrees R (recoverLateCommittedProposal proposal) := by
  refine .andThen fun e => ?_
  dsimp only
  repeat' first | infer_instance | split

instance (op : EpochOp) (result : Except ConsensusError EpochManager) :
    Agrees R (proposeChange op result) := by
  unfold proposeChange
  infer_instance

end Epochs

section Certificates

variable [OverlooksState R]

instance : Agrees R (updateLockedQc qc) := by
  have : Agrees R (updateRound (·.updateLockedQc qc)) :=
    OverlooksState.heard.update fun e => by simp
  unfold updateLockedQc
  infer_instance

instance : Agrees R (commitRound qc) := by
  unfold commitRound updateRound RoundState.commit
  infer_instance

variable [Crypto]

instance : Agrees R (adoptJustify proposal) := by
  unfold adoptJustify
  infer_instance

instance (qc : Option QuorumCertificate) : Agrees R (adoptPiggybacked qc) := by
  refine .andThen fun e => ?_
  split
  · infer_instance
  · split
    · infer_instance
    · split <;> infer_instance

instance : Agrees R (processProposal proposal) := by
  refine .andThen fun _ => .andThen fun _ => .cond inferInstance ?_
  exact .andThen fun _ => .andThen fun _ => .andThen fun _ => inferInstance

instance (pqc : PrepareQC) : Agrees R (processPrepareQc pqc) := by
  refine .andThen fun e => .cond inferInstance (.cond inferInstance (.cond inferInstance ?_))
  exact .andThen fun _ => .andThen fun _ => .andThen fun _ => inferInstance

instance : Agrees R (castOwnCommitVote view blockHash) := by
  refine .andThen fun _ => .andThen fun e => .andThen fun _ => ?_
  split
  · infer_instance
  · split <;> infer_instance

end Certificates

section Advancing

variable [Crypto] (advance advance' : ℕ → EngineM Unit) (vote : Vote) (cv : CommitVote)
  (verified : Bool)

/-- The handler does the same whichever way the view is changed. -/
abbrev Tracks (R : World → World → Prop) {α : Type} (handler : (ℕ → EngineM Unit) → EngineM α) :
    Prop :=
  Mirrors R (handler advance) (handler advance')

variable [OverlooksState R] [∀ view, Mirrors R (advance view) (advance' view)]

instance (changes : Option (List ValidatorChange)) :
    Tracks advance advance' R (announceCommit · view blockHash qc changes) := by
  unfold announceCommit
  infer_instance

instance : Tracks advance advance' R (finishCommit · view blockHash qc) := by
  unfold finishCommit
  infer_instance

instance : Tracks advance advance' R tryFormCommitQc := by
  refine .andThen fun e => ?_
  split <;> infer_instance

instance : Tracks advance advance' R tryFormPrepareQc := by
  refine .andThen fun e => ?_
  split
  · infer_instance
  · refine .cond inferInstance (.andThen fun _ => .andThen fun _ => .andThen fun _ => ?_)
    exact .andThen fun _ => .andThen fun _ => .andThen fun _ => inferInstance

instance : Tracks advance advance' R (countVote · vote) := by
  refine .andThen fun e => ?_
  refine .andThen fun _ => ?_
  split
  · infer_instance
  · split
    · infer_instance
    · refine .cond inferInstance ?_
      split <;> infer_instance

instance : Tracks advance advance' R (countCommitVote · cv) := by
  refine .andThen fun e => ?_
  refine .andThen fun _ => ?_
  split
  · infer_instance
  · split
    · infer_instance
    · refine .cond inferInstance ?_
      split <;> infer_instance

instance : Tracks advance advance' R (processVoteInner · vote verified) := by
  unfold processVoteInner
  infer_instance

instance : Tracks advance advance' R (processCommitVoteInner · cv verified) := by
  unfold processCommitVoteInner
  infer_instance

instance : Tracks advance advance' R (processDecide · d) := by
  refine .andThen fun e => .cond inferInstance ?_
  exact .andThen fun _ => .andThen fun _ => .andThen fun _ => .andThen fun _ => inferInstance

instance (nextView : ℕ) : Tracks advance advance' R (advanceWithTc · tc nextView) := by
  unfold advanceWithTc
  infer_instance

instance (currentView nextView : ℕ) :
    Tracks advance advance' R (tryFormTcAndAdvance · currentView nextView) := by
  refine .andThen fun e => ?_
  split <;> infer_instance

instance : Tracks advance advance' R (countTimeout · timeout) := by
  refine .andThen fun e => ?_
  dsimp only
  split <;> infer_instance

instance : Tracks advance advance' R (processTimeout · timeout) := by
  unfold processTimeout
  infer_instance

instance (nv : NewView) : Tracks advance advance' R (processNewView · nv) := by
  refine .andThen fun e => .cond inferInstance (.cond inferInstance (.andThen fun _ => ?_))
  refine .cond inferInstance (.cond inferInstance ?_)
  exact .andThen fun _ => .andThen fun _ => .andThen fun _ => inferInstance

instance (m : ConsensusMessage) (proof : Option AuthenticatedVoteProof) :
    Tracks advance advance' R (dispatchMessage · m proof) := by
  unfold dispatchMessage
  split <;> infer_instance

end Advancing

instance (replay replay' : ConsensusMessage → EngineM Unit)
    [∀ m, Mirrors R (replay m) (replay' m)] (messages : List ConsensusMessage) :
    Mirrors R (replayAll replay messages) (replayAll replay' messages) := by
  induction messages with
  | nil => exact Mirrors.pure ()
  | cons m rest ih =>
    unfold replayAll
    infer_instance

end N42
