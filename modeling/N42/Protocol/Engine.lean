import N42.Protocol.Round
import N42.Service.Snapshot

/-!
The state of the consensus engine, its inputs and outputs, and the monad its handlers run in
(`protocol/state_machine.rs`).

A handler that fails keeps the changes made so far. The audit log, newest entry first, holds every
durable write and output in order, so that a crash is a shorter log, and observations that no
handler reads. The clocks decide when a timeout is raised, not what it does, and are left out.
-/

namespace N42

/-- `AuthenticatedVoteProof`: the signature domain that the batch verifier checked. -/
inductive AuthenticatedVoteProof where
  | vote (signer : ℕ)
  | commitVote (signer : ℕ) (validatorChangesHash : B256)
deriving DecidableEq

/-- What drives an engine: `process_event`, the pacemaker's `on_timeout`, the batch
verifier and the messages it authenticated, and the two administrative calls. -/
inductive Input where
  | message (m : ConsensusMessage)
  | blockReady (blockHash : B256) (txRootHash : Option B256)
  | blockImported (blockHash : B256)
  | blockImportedWithParent (blockHash parentHash : B256)
  | timeout
  | voteBatch (messages : List ConsensusMessage)
  | authenticated (m : ConsensusMessage) (proof : AuthenticatedVoteProof)
  | proposeAdd (info : ValidatorInfo)
  | proposeRemove (address : Address)

def Input.messages : Input → List ConsensusMessage
  | .message m => [m]
  | .voteBatch ms => ms
  | _ => []

inductive EngineOutput where
  | broadcastMessage (m : ConsensusMessage)
  | sendToValidator (target : ℕ) (m : ConsensusMessage)
  | executeBlock (blockHash : B256)
  | blockCommitted (view : ℕ) (blockHash : B256) (commitQc : QuorumCertificate)
      (validatorChanges : Option (List ValidatorChange))
  | committedBlockValidatorChangesRecovered (view : ℕ) (blockHash : B256)
      (validatorChanges : List ValidatorChange)
  | viewChanged (newView : ℕ)
  | syncRequired (localView targetView : ℕ)
  | equivocationDetected (view validator : ℕ) (hash1 hash2 : B256)
  | epochTransition (newEpoch validatorCount : ℕ)
deriving DecidableEq

/-- A certificate together with the signing domain it was checked under. -/
inductive Certificate where
  | prepare (qc : QuorumCertificate)
  | commit (qc : QuorumCertificate) (changesHash : B256)
  /-- Accepted if it verifies as either of the above. -/
  | anyDomain (qc : QuorumCertificate) (changesHash : B256)
  | timeout (tc : TimeoutCertificate)
deriving DecidableEq

def Certificate.view : Certificate → ℕ
  | .prepare qc => qc.view
  | .commit qc _ => qc.view
  | .anyDomain qc _ => qc.view
  | .timeout tc => tc.view

def Certificate.qc? : Certificate → Option QuorumCertificate
  | .prepare qc => some qc
  | .commit qc _ => some qc
  | .anyDomain qc _ => some qc
  | .timeout _ => none

def Certificate.signers : Certificate → List Bool
  | .prepare qc => qc.signers
  | .commit qc _ => qc.signers
  | .anyDomain qc _ => qc.signers
  | .timeout tc => tc.signers

def Certificate.verify [Crypto] (c : Certificate) (s : ValidatorSet)
    (p : ConsensusSigningProfile) : Except ConsensusError Unit :=
  match c with
  | .prepare qc => verifyQcWithProfile qc s p
  | .commit qc changesHash => verifyCommitQcWithProfile qc s changesHash p
  | .anyDomain qc changesHash => verifyQcAnyDomainWithProfile qc s changesHash p
  | .timeout tc => verifyTcWithProfile tc s p

inductive EpochOp where
  | replacePending (changes : List ValidatorChange)
  | commitPending
  | advance
  | carry
  | proposeAdd (info : ValidatorInfo)
  | proposeRemove (address : Address)

/-- What became of a durable write: it was made, or it failed, and then the bytes may
or may not have reached the disk. For an output only `done` means accepted. -/
inductive Fate where
  | done
  | failed
  | failedDurable
deriving DecidableEq

def Fate.durable : Fate → Bool
  | .done => true
  | .failed => false
  | .failedDurable => true

/-- The part of the engine's state that outlives a view. -/
structure Core where
  view : ℕ
  locked : QuorumCertificate
  committed : QuorumCertificate
  votedView : ℕ
  commitVotedView : ℕ
  epochs : EpochManager

inductive Effect where
  /-- An input reached the engine. -/
  | deliver (i : Input)
  /-- A single signature over `item` passed under the key at `index` of `set`. -/
  | share (set : ValidatorSet) (index : ℕ) (item : Item)
  /-- The engine counted its own signature over `item` at `index`. -/
  | ownShare (index : ℕ) (item : Item)
  /-- The batch verifier authenticated exactly this message. -/
  | token (m : ConsensusMessage) (proof : AuthenticatedVoteProof)
  /-- A certificate was accepted on the authority of `used`; `known` is what the strict
  lookup gives for its view. -/
  | accept (cert : Certificate) (used : ValidatorSet) (known : Option ValidatorSet)
  /-- A proposal passed the voting rule; `own` if this engine proposes it. -/
  | approve (view : ℕ) (blockHash : B256) (justify : QuorumCertificate) (own : Bool)
  | persistVote (view : ℕ) (fate : Fate)
  | persistLock (qc : QuorumCertificate) (fate : Fate)
  | persistCommitVote (view : ℕ) (fate : Fate)
  /-- A signature over `item` leaves the engine or enters a certificate it builds. -/
  | release (item : Item)
  | lock (qc : QuorumCertificate)
  | commit (qc : QuorumCertificate)
  | enter (view : ℕ)
  | epoch (op : EpochOp)
  | emit (output : EngineOutput) (accepted : Bool)
  /-- The orchestrator replaced the snapshot on disk. -/
  | save (snapshot : ConsensusSnapshot)
  /-- The process started with this state. -/
  | boot (core : Core)

structure PendingProposal where
  view : ℕ
  blockHash : B256
  justifyBlock : B256

structure Engine where
  myIndex : ℕ
  secretKey : BlsSecretKey
  epochManager : EpochManager
  signingProfile : ConsensusSigningProfile
  roundState : RoundState
  voteCollector : Option VoteCollector
  commitCollector : Option VoteCollector
  timeoutCollector : Option TimeoutCollector
  futureTimeoutCollectors : Map ℕ TimeoutCollector
  prepareQc : Option QuorumCertificate
  previousPrepareQc : Option QuorumCertificate
  pendingProposal : Option PendingProposal
  importedBlocks : List B256
  importedParents : Map B256 B256
  importedBlockFifo : List B256
  equivocationTracker : Map ℕ B256
  commitEquivocationTracker : Map ℕ B256
  proposalEquivocationTracker : Map ℕ (B256 × B256)
  futureMsgBuffer : List (ℕ × ConsensusMessage)
  pendingTxRoots : BoundedFifoMap B256 B256
  pendingChangesHashes : BoundedFifoMap B256 B256

def futureViewWindow : ℕ := 50

def maxFutureMessages : ℕ := 256

namespace Engine

def start (myIndex : ℕ) (secretKey : BlsSecretKey) (epochManager : EpochManager)
    (signingProfile : ConsensusSigningProfile) (roundState : RoundState) : Engine where
  myIndex := myIndex
  secretKey := secretKey
  epochManager := epochManager
  signingProfile := signingProfile
  roundState := roundState
  voteCollector := none
  commitCollector := none
  timeoutCollector := none
  futureTimeoutCollectors := ∅
  prepareQc := none
  previousPrepareQc := none
  pendingProposal := none
  importedBlocks := []
  importedParents := ∅
  importedBlockFifo := []
  equivocationTracker := ∅
  commitEquivocationTracker := ∅
  proposalEquivocationTracker := ∅
  futureMsgBuffer := []
  pendingTxRoots := .new 64
  pendingChangesHashes := .new 64

variable (e : Engine)

def core : Core where
  view := e.roundState.currentView
  locked := e.roundState.lockedQc
  committed := e.roundState.lastCommittedQc
  votedView := e.roundState.lastVotedView
  commitVotedView := e.roundState.lastCommitVotedView
  epochs := e.epochManager

def currentView : ℕ := e.roundState.currentView

def validatorSet : ValidatorSet := e.epochManager.currentSet

def validatorSetForView (view : ℕ) : ValidatorSet := e.epochManager.validatorSetForView view

def leaderIndexForView (view : ℕ) : ℕ := leaderForView view (e.validatorSetForView view)

def cachedChangesHash (blockHash : B256) : B256 := (e.pendingChangesHashes.get blockHash).getD 0

section

variable [Crypto]

def localPublicKey : BlsPublicKey := Crypto.publicKey e.secretKey

def localValidatorIndexForView (view : ℕ) : Option ℕ :=
  (e.validatorSetForView view).indexOfPublicKey e.localPublicKey

def isLocalValidatorActiveForView (view : ℕ) : Bool := (e.localValidatorIndexForView view).isSome

def isLeaderForView (view : ℕ) : Bool :=
  e.localValidatorIndexForView view == some (e.leaderIndexForView view)

def isCurrentLeader : Bool := e.isLeaderForView e.currentView

end

/-- `resolve_qc_validator_set`: the set authorised for the certificate's exact view. -/
def resolveQcValidatorSet (qc : QuorumCertificate) : Except ConsensusError ValidatorSet :=
  match e.epochManager.knownValidatorSetForView qc.view with
  | none => .error (.invalidQC qc.view "validator set unavailable for certificate view")
  | some authorized =>
    if authorized.len ≠ qc.signers.length then
      .error (.invalidQC qc.view (s!"signer bitmap length {qc.signers.length} does not match " ++
        s!"authorized validator set length {authorized.len}"))
    else .ok authorized

theorem resolveQcValidatorSet_ok {e : Engine} {qc : QuorumCertificate} {set : ValidatorSet}
    (h : e.resolveQcValidatorSet qc = .ok set) :
    e.epochManager.knownValidatorSetForView qc.view = some set := by
  unfold resolveQcValidatorSet at h
  split at h
  · cases h
  · next authorized hknown =>
    split at h
    · cases h
    · cases h
      exact hknown

end Engine

/-- What the environment decides during one event: the fate of the write or output
made when the log has a given length, and the iteration order of hash maps. -/
structure Env where
  fate : ℕ → Fate
  rank : ℕ → ℕ

structure World where
  engine : Engine
  log : List Effect
  env : Env

abbrev EngineM := EStateM ConsensusError World

namespace EngineM

def engine : EngineM Engine := do return (← get).engine

def update (f : Engine → Engine) : EngineM Unit :=
  modify fun w => { w with engine := f w.engine }

def updateRound (f : RoundState → RoundState) : EngineM Unit :=
  update fun e => { e with roundState := f e.roundState }

def record (x : Effect) : EngineM Unit := modify fun w => { w with log := x :: w.log }

def fate : EngineM Fate := do
  let w ← get
  return w.env.fate w.log.length

def rank : EngineM (ℕ → ℕ) := do return (← get).env.rank

/-- Whether an operation succeeds; its error is dropped, its state changes stay. -/
def succeeds (x : EngineM Unit) : EngineM Bool := fun w =>
  match x w with
  | .ok _ w' => .ok true w'
  | .error _ w' => .ok false w'

def emit (output : EngineOutput) : EngineM Unit := do
  let accepted := (← fate) = .done
  record (.emit output accepted)
  if ¬ accepted then throw .outputChannelClosed

/-- A durable write of the vote log, recorded by `mk`. -/
def persist (mk : Fate → Effect) : EngineM Unit := do
  let f ← fate
  record (mk f)
  if f ≠ .done then throw .voteLogFsync

/-- `round_state.record_vote` and `vote_log.record_vote`. -/
def recordVote (view : ℕ) : EngineM Unit := do
  updateRound (·.recordVote view)
  persist (.persistVote view)

/-- `vote_log.record_lock`, `round_state.record_commit_vote` and
`vote_log.record_commit_vote`, in this order. -/
def recordCommitVote (view : ℕ) : EngineM Unit := do
  let locked := (← engine).roundState.lockedQc
  persist (.persistLock locked)
  updateRound (·.recordCommitVote view)
  persist (.persistCommitVote view)

def updateLockedQc (qc : QuorumCertificate) : EngineM Unit := do
  if (← engine).roundState.lockedQc.view < qc.view then
    record (.lock qc)
  updateRound (·.updateLockedQc qc)

def commitRound (commitQc : QuorumCertificate) : EngineM Unit := do
  record (.commit commitQc)
  updateRound (·.commit commitQc)

def updateEpochs (op : EpochOp) (em : EpochManager) : EngineM Unit := do
  record (.epoch op)
  update fun e => { e with epochManager := em }

/-- Notes a certificate that the caller has checked against `used` or built from it. -/
def accept (cert : Certificate) (used : ValidatorSet) : EngineM Unit := do
  let em := (← engine).epochManager
  record (.accept cert used (em.knownValidatorSetForView cert.view))

variable [Crypto]

/-- Verifies one signature over an item under the key at `index` of `set`. -/
def verifyShare (set : ValidatorSet) (index : ℕ) (item : Item) (signature : BlsSignature) :
    EngineM Unit := do
  let p := (← engine).signingProfile
  let pk ← ofExcept (set.getPublicKey index)
  if !p.verifySingle pk (item.message p) signature then
    throw (.invalidSignature item.view index)
  record (.share set index item)

def signItem (item : Item) : EngineM BlsSignature := do
  let e ← engine
  record (.release item)
  return e.signingProfile.sign e.secretKey (item.message e.signingProfile)

def verifyCert (cert : Certificate) (set : ValidatorSet) : EngineM Unit := do
  ofExcept (cert.verify set (← engine).signingProfile)
  accept cert set

/-- `verify_qc_any_domain_or_known`: an exact certificate already held as the lock or
the last commit is trusted. -/
def verifyQcAnyDomainOrKnown (qc : QuorumCertificate) : EngineM Unit := do
  let e ← engine
  if qc = e.roundState.lockedQc ∨ qc = e.roundState.lastCommittedQc then return
  let set ← ofExcept (e.resolveQcValidatorSet qc)
  verifyCert (.anyDomain qc (e.cachedChangesHash qc.blockHash)) set

end EngineM

end N42
