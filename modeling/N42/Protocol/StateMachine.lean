import N42.Protocol.Proposal
import N42.Protocol.Decision
import N42.Protocol.Timeout

/-!
Message dispatch, view jumps, view changes with the replay of buffered messages, and
the entry point of the engine (`protocol/state_machine.rs`).
-/

namespace N42

open EngineM

def Map.retain {K V : Type} (m : Map K V) (keep : K → Bool) : Map K V where
  entries := m.entries.filter fun e => keep e.1
  nodupKeys := m.nodupKeys.sublist List.filter_sublist

theorem Map.lookup_retain {K V : Type} [DecidableEq K] {m : Map K V} {keep : K → Bool} {k : K}
    {v : V} (h : (m.retain keep).lookup k = some v) : m.lookup k = some v ∧ keep k = true := by
  rw [← Option.mem_def, AList.mem_lookup_iff] at h ⊢
  exact List.mem_filter.mp h

def swapRemove {α : Type} (l : List α) (i : ℕ) : List α :=
  match l.getLast? with
  | none => l
  | some last => (l.set i last).dropLast

def lowestViewIndex (buffer : List (ℕ × ConsensusMessage)) : ℕ :=
  buffer.findIdx fun entry => buffer.all fun other => entry.1 ≤ other.1

variable [Crypto]

def dispatchMessage (advanceToView : ℕ → EngineM Unit) (msg : ConsensusMessage)
    (proof : Option AuthenticatedVoteProof) : EngineM Unit := do
  match msg with
  | .proposal p => processProposal p
  | .vote v => processVoteInner advanceToView v (proof = some (.vote v.voter))
  | .commitVote cv =>
    let e ← engine
    processCommitVoteInner advanceToView cv
      (proof = some (.commitVote cv.voter (e.cachedChangesHash cv.blockHash)))
  | .prepareQc pqc => processPrepareQc pqc
  | .timeout t => processTimeout advanceToView t
  | .newView nv => processNewView advanceToView nv
  | .decide d => processDecide advanceToView d

def Engine.syncLocalValidatorIndex (e : Engine) : Engine :=
  match e.validatorSet.indexOfPublicKey e.localPublicKey with
  | some index => { e with myIndex := index }
  | none => e

def activateNextEpoch : EngineM Unit := do
  let em := (← engine).epochManager
  if em.hasStagedNext then updateEpochs .advance em.advanceEpoch
  else updateEpochs .carry em.carryEpochForward

def crossEpochBoundary : EngineM Unit := do
  let e ← engine
  let nextSet := e.epochManager.nextSet.getD e.epochManager.currentSet
  let localInNext := nextSet.indexOfPublicKey e.localPublicKey
  activateNextEpoch
  update fun e => { e with myIndex := localInNext.getD e.myIndex }
  let em := (← engine).epochManager
  emit (.epochTransition em.currentEpoch em.currentSet.len)

/-- The epoch loop of `advance_to_view`. Each turn raises the epoch by one, so
`target - current` turns are all the source makes. -/
def crossEpochBoundaries (targetEpoch : ℕ) : ℕ → EngineM Unit
  | 0 => pure ()
  | n + 1 => do
    let em := (← engine).epochManager
    if em.epochsEnabled ∧ em.currentEpoch < targetEpoch then
      crossEpochBoundary
      crossEpochBoundaries targetEpoch n

def Engine.enterView (e : Engine) (newView : ℕ) : Engine :=
  ({ e with
    roundState := e.roundState.advanceView newView
    voteCollector := none
    commitCollector := none
    timeoutCollector := none
    futureTimeoutCollectors := e.futureTimeoutCollectors.retain fun view =>
      newView < view ∧ view ≤ satAdd newView futureViewWindow
    prepareQc := none
    pendingProposal := none
    importedBlocks := if e.signingProfile.isGov5 then e.importedBlocks else []
    importedBlockFifo := if e.signingProfile.isGov5 then e.importedBlockFifo else []
    equivocationTracker := ∅
    commitEquivocationTracker := ∅
    proposalEquivocationTracker := ∅ } : Engine).syncLocalValidatorIndex

def drainBuffer (newView : ℕ) : EngineM (List ConsensusMessage) := do
  let buffer := (← engine).futureMsgBuffer
  update fun e => { e with
    futureMsgBuffer := buffer.filter fun entry =>
      newView < entry.1 ∧ entry.1 ≤ wrapAdd newView futureViewWindow }
  return (buffer.filter fun entry => entry.1 = newView).map (·.2)

def replayAll (replay : ConsensusMessage → EngineM Unit) : List ConsensusMessage → EngineM Unit
  | [] => pure ()
  | msg :: rest => do
    discard (succeeds (replay msg))
    replayAll replay rest

def changeView (newView : ℕ) : EngineM Unit := do
  let em := (← engine).epochManager
  let targetEpoch := em.epochForView newView
  crossEpochBoundaries targetEpoch (targetEpoch - em.currentEpoch)
  record (.enter newView)
  update (·.enterView newView)

/-- `advance_to_view`, given how a buffered message is replayed. -/
def advanceAndReplay (replay : ConsensusMessage → EngineM Unit) (newView : ℕ) : EngineM Unit := do
  let e ← engine
  if newView ≤ e.currentView then return
  update fun e => { e with previousPrepareQc := e.prepareQc, prepareQc := none }
  changeView newView
  let toReplay ← drainBuffer newView
  replayAll replay toReplay

/-- `advance_to_view` with replays nested at most `depth` deep. A replayed message can
change the view again and replay what is left in the buffer, and every level takes its
messages out of the buffer, so a depth of the buffer's length is never used up. -/
def advanceToView : ℕ → ℕ → EngineM Unit
  | 0, newView => advanceAndReplay (fun _ => pure ()) newView
  | depth + 1, newView =>
    advanceAndReplay (fun msg => dispatchMessage (advanceToView depth) msg none) newView

/-- The verification step of `try_qc_view_jump`: false if the certificate is rejected.
The `Decide` and `PrepareQC` arms use the lookup that falls back to the current set. -/
def verifyJumpQc (msg : ConsensusMessage) (qc : QuorumCertificate) : EngineM Bool := do
  let e ← engine
  let set := e.validatorSetForView qc.view
  match msg with
  | .decide d => succeeds (verifyCert (.commit qc d.validatorChangesHash) set)
  | .prepareQc _ => succeeds (verifyCert (.prepare qc) set)
  | .proposal _ | .timeout _ | .newView _ => succeeds (verifyQcAnyDomainOrKnown qc)
  | .vote _ | .commitVote _ => return false

def tryQcViewJump (advanceToView : ℕ → EngineM Unit) (msg : ConsensusMessage) : EngineM Bool := do
  let currentView := (← engine).currentView
  match msg.extractQc with
  | none => return false
  | some qc =>
    if qc.view = 0 then return false
    if !(← verifyJumpQc msg qc) then return false
    let targetView := satAdd qc.view 1
    if targetView ≤ currentView then return false
    updateLockedQc qc
    updateRound (·.resetConsecutiveTimeouts)
    emit (.syncRequired currentView targetView)
    advanceToView targetView
    emit (.viewChanged (← engine).currentView)
    return true

/-- After a jump: process the message if its view was reached, else keep it for later. -/
def afterJump (advanceToView : ℕ → EngineM Unit) (msg : ConsensusMessage)
    (proof : Option AuthenticatedVoteProof) : EngineM Unit := do
  let e ← engine
  let view := msg.view
  if view = e.currentView then
    dispatchMessage advanceToView msg proof
  else if e.currentView < view ∧ view ≤ wrapAdd e.currentView futureViewWindow ∧
      e.futureMsgBuffer.length < maxFutureMessages then
    update fun e => { e with futureMsgBuffer := e.futureMsgBuffer ++ [(view, msg)] }

/-- Buffers a message of a later view, evicting one of the lowest view if full. -/
def bufferMessage (msg : ConsensusMessage) : EngineM Unit :=
  update fun e =>
    let buffer :=
      if maxFutureMessages ≤ e.futureMsgBuffer.length then
        swapRemove e.futureMsgBuffer (lowestViewIndex e.futureMsgBuffer)
      else e.futureMsgBuffer
    { e with futureMsgBuffer := buffer ++ [(msg.view, msg)] }

/-- `Decide` and `NewView` carry quorum proofs and handle other views themselves. -/
def isExempt : ConsensusMessage → Bool
  | .decide _ => true
  | .newView _ => true
  | _ => false

def processFutureMessage (advanceToView : ℕ → EngineM Unit) (msg : ConsensusMessage)
    (proof : Option AuthenticatedVoteProof) : EngineM Unit := do
  let currentView := (← engine).currentView
  if msg.view ≤ wrapAdd currentView futureViewWindow then
    if let .timeout t := msg then
      if ← collectFutureTimeout advanceToView t then return
    if ← tryQcViewJump advanceToView msg then
      afterJump advanceToView msg proof
    else bufferMessage msg
  else
    if ← tryQcViewJump advanceToView msg then
      afterJump advanceToView msg proof

def processMessageInner (advanceToView : ℕ → EngineM Unit) (msg : ConsensusMessage)
    (proof : Option AuthenticatedVoteProof) : EngineM Unit := do
  let currentView := (← engine).currentView
  if currentView < msg.view ∧ !isExempt msg then
    processFutureMessage advanceToView msg proof
  else if msg.view < currentView ∧ !isExempt msg then
    if let .proposal p := msg then
      discard (recoverLateCommittedProposal p)
  else dispatchMessage advanceToView msg proof

structure VoteCandidate where
  message : ConsensusMessage
  proof : AuthenticatedVoteProof
  item : Item
  signer : ℕ
  signature : BlsSignature
  publicKey : BlsPublicKey

/-- The candidate a message gives. The orchestrator passes on only votes of the current
view; votes of unknown validators are skipped. -/
def Engine.voteCandidate (e : Engine) (msg : ConsensusMessage) : Option VoteCandidate :=
  match msg with
  | .vote v =>
    if v.view = e.currentView then
      ((e.validatorSetForView v.view).keyAt v.voter).map fun pk =>
        ⟨msg, .vote v.voter, .vote v.view v.blockHash, v.voter, v.signature, pk⟩
    else none
  | .commitVote cv =>
    if cv.view = e.currentView then
      let changesHash := e.cachedChangesHash cv.blockHash
      ((e.validatorSetForView cv.view).keyAt cv.voter).map fun pk =>
        ⟨msg, .commitVote cv.voter changesHash, .commitVote cv.view cv.blockHash changesHash,
          cv.voter, cv.signature, pk⟩
    else none
  | _ => none

def issueTokens (set : ValidatorSet) : List (VoteCandidate × Bool) → EngineM Unit
  | [] => pure ()
  | (candidate, good) :: rest => do
    if good then
      record (.share set candidate.signer candidate.item)
      record (.token candidate.message candidate.proof)
    issueTokens set rest

def authenticateVoteBatch (messages : List ConsensusMessage) : EngineM Unit := do
  let e ← engine
  let candidates := messages.filterMap e.voteCandidate
  let good := batchVerify e.signingProfile (candidates.map fun c =>
    (c.item.message e.signingProfile, c.signature, c.publicKey))
  issueTokens (e.validatorSetForView e.currentView) (candidates.zip good)

def proposeChange (op : EpochOp) (result : Except ConsensusError EpochManager) : EngineM Unit := do
  let em ← ofExcept result
  updateEpochs op em

/-- Processes one input. The replay depth is the length of the buffer before it, plus
one for the message that this input may add. -/
def handle (input : Input) : EngineM Unit := do
  record (.deliver input)
  let e ← engine
  let advance := advanceToView (e.futureMsgBuffer.length + 1)
  match input with
  | .message msg => processMessageInner advance msg none
  | .blockReady blockHash txRootHash => onBlockReady advance blockHash txRootHash
  | .blockImported blockHash => onBlockImported blockHash none
  | .blockImportedWithParent blockHash parentHash => onBlockImported blockHash (some parentHash)
  | .timeout => onTimeout advance
  | .voteBatch messages => authenticateVoteBatch messages
  | .authenticated msg proof => processMessageInner advance msg (some proof)
  | .proposeAdd info => proposeChange (.proposeAdd info) (e.epochManager.proposeAddValidator info)
  | .proposeRemove address =>
    proposeChange (.proposeRemove address) (e.epochManager.proposeRemoveValidator address)

end N42
