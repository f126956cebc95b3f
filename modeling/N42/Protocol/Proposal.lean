import N42.Protocol.Voting

/-!
Proposals, round 1 votes and imported blocks (`protocol/proposal.rs`).
-/

namespace N42

open EngineM

def maxImportedBlocks : ℕ := 64

def maxChangesPerProposal : ℕ := 4

def hasChanges : Option (List ValidatorChange) → Bool
  | some changes => !changes.isEmpty
  | none => false

namespace Engine

variable (e : Engine) (blockHash : B256)

/-- `extends_justify`: a block has to be a child of the block its justify certificate
certifies. A genesis justify and an unknown or zero parent pass. -/
def extendsJustify : Bool :=
  match e.pendingProposal with
  | none => true
  | some pending =>
    if pending.justifyBlock = 0 then true
    else
      match e.importedParents.lookup blockHash with
      | none => true
      | some parent => if parent = 0 then true else parent = pending.justifyBlock

/-- The loop of `evict_oldest_imported_block`: the hash a deferred vote waits for is
moved to the back instead of being dropped. -/
def evictLoop (e : Engine) : ℕ → Engine
  | 0 => e
  | n + 1 =>
    match e.importedBlockFifo with
    | [] => e
    | oldest :: rest =>
      if some oldest = e.pendingProposal.map (·.blockHash) then
        evictLoop { e with importedBlockFifo := rest ++ [oldest] } n
      else
        { e with
          importedBlockFifo := rest
          importedBlocks := e.importedBlocks.filter (· ≠ oldest)
          importedParents := e.importedParents.erase oldest }

def evictOldestImportedBlock (e : Engine) : Engine := e.evictLoop e.importedBlockFifo.length

/-- Enters an imported block into the bounded queue. -/
def queueImport : Engine :=
  if blockHash ∈ e.importedBlocks then e
  else
    let e := { e with importedBlocks := blockHash :: e.importedBlocks }
    let e := if maxImportedBlocks ≤ e.importedBlockFifo.length then e.evictOldestImportedBlock
      else e
    { e with importedBlockFifo := e.importedBlockFifo ++ [blockHash] }

def noteParent (parentHash : Option B256) : Engine :=
  if blockHash ∈ e.importedBlocks then
    match parentHash with
    | some parent => { e with importedParents := e.importedParents.insert blockHash parent }
    | none => e
  else { e with importedParents := e.importedParents.erase blockHash }

def noteImport (parentHash : Option B256) : Engine :=
  (e.queueImport blockHash).noteParent blockHash parentHash

end Engine

variable [Crypto]

variable (proposal : Proposal)

/-- `recover_late_committed_proposal`: the changes of a block whose `Decide` overtook
its proposal. -/
def recoverLateCommittedProposal : EngineM Bool := do
  let e ← engine
  match proposal.validatorChanges with
  | none => return false
  | some changes =>
    if changes.isEmpty then return false
    if e.currentView ≤ proposal.view then return false
    let lastCommitted := e.roundState.lastCommittedQc
    if lastCommitted.view ≠ proposal.view ∨ lastCommitted.blockHash ≠ proposal.blockHash then
      return false
    let expectedHash := e.cachedChangesHash proposal.blockHash
    if expectedHash = 0 then return false
    if hashChanges changes ≠ expectedHash then return false
    if e.epochManager.currentEpoch ≠ e.epochManager.epochForView proposal.view ∨
        e.epochManager.hasStagedNext then return false
    let viewSet := e.validatorSetForView proposal.view
    if proposal.proposer ≠ leaderForView proposal.view viewSet then return false
    match viewSet.keyAt proposal.proposer with
    | none => return false
    | some pk =>
      let propMsg := e.signingProfile.proposalMessage proposal.view proposal.blockHash
        proposal.validatorChanges
      if !e.signingProfile.verifySingle pk propMsg proposal.signature then return false
      updateEpochs (.replacePending changes) (e.epochManager.replacePendingFromProposal changes)
      discard commitPendingChanges
      emit (.committedBlockValidatorChangesRecovered proposal.view proposal.blockHash changes)
      return true

variable (view : ℕ) (blockHash : B256)

/-- The leader's own round 1 vote, recorded durably before it is signed. -/
def castOwnVote : EngineM Unit := do
  recordVote view
  let signature ← signItem (.vote view blockHash)
  let e ← engine
  match e.voteCollector with
  | none => return
  | some collector =>
    match collector.addVerifiedVote e.myIndex signature with
    | none => throw (.duplicateVote collector.view e.myIndex)
    | some collector =>
      record (.ownShare e.myIndex (.vote view blockHash))
      update fun e => { e with voteCollector := some collector }

def onBlockReady (advanceToView : ℕ → EngineM Unit) (blockHash : B256)
    (txRootHash : Option B256) : EngineM Unit := do
  let e ← engine
  let view := e.currentView
  if !e.isCurrentLeader then return
  if e.roundState.phase ≠ .waitingForProposal then return
  let justifyQc := e.roundState.lockedQc
  record (.approve view blockHash justifyQc true)
  let prepareQc := e.previousPrepareQc
  update fun e => { e with previousPrepareQc := none }
  let validatorChanges := e.epochManager.pendingChangesForProposal
  if e.signingProfile.isGov5 && hasChanges validatorChanges then
    throw .h2V4ValidatorChangesUnsupported
  update fun e => { e with
    pendingChangesHashes :=
      e.pendingChangesHashes.insert blockHash (validatorChangesHash validatorChanges) }
  let viewSetLen := (e.validatorSetForView view).len
  update fun e => { e with
    voteCollector := some (.new view blockHash viewSetLen)
    commitCollector := some (.new view blockHash viewSetLen)
    roundState := e.roundState.enterVoting }
  if !e.roundState.mayVoteIn view then return
  castOwnVote view blockHash
  -- the source signs the proposal earlier, but only here does the signature leave
  let signature ← signItem (.proposal view blockHash validatorChanges)
  emit (.broadcastMessage (.proposal {
    view, blockHash, justifyQc
    proposer := (e.localValidatorIndexForView view).getD e.myIndex
    signature, prepareQc, txRootHash, validatorChanges }))
  tryFormPrepareQc advanceToView

def sendVote : EngineM Unit := do
  let e ← engine
  if !e.isLocalValidatorActiveForView view then return
  if !e.roundState.mayVoteIn view then return
  recordVote view
  let signature ← signItem (.vote view blockHash)
  emit (.sendToValidator (e.leaderIndexForView view)
    (.vote { view, blockHash, voter := e.myIndex, signature }))

def authenticateProposal : EngineM Unit := do
  let e ← engine
  let view := e.currentView
  if proposal.view ≠ view then throw (.viewMismatch view proposal.view)
  let viewSet := e.validatorSetForView view
  let expectedLeader := leaderForView view viewSet
  if proposal.proposer ≠ expectedLeader then
    throw (.invalidProposer view expectedLeader proposal.proposer)
  let _ ← ofExcept (viewSet.getPublicKey proposal.proposer)
  if e.signingProfile.isGov5 && hasChanges proposal.validatorChanges then
    throw .h2V4ValidatorChangesUnsupported
  verifyShare viewSet proposal.proposer
    (.proposal view proposal.blockHash proposal.validatorChanges) proposal.signature

/-- The equivocation check of `process_proposal`: true if the proposal conflicts with an
earlier one of this view, which ends its processing. -/
def trackProposal : EngineM Bool := do
  let e ← engine
  let view := e.currentView
  let commitment := Crypto.blake3
    (e.signingProfile.proposalMessage view proposal.blockHash proposal.validatorChanges)
  match e.proposalEquivocationTracker.lookup proposal.proposer with
  | some (previousCommitment, previousBlockHash) =>
    if previousCommitment ≠ commitment then
      if previousBlockHash ≠ proposal.blockHash then
        emit (.equivocationDetected view proposal.proposer previousBlockHash proposal.blockHash)
      else
        emit (.equivocationDetected view proposal.proposer previousCommitment commitment)
      return true
    return false
  | none =>
    update fun e => { e with
      proposalEquivocationTracker :=
        e.proposalEquivocationTracker.insert proposal.proposer (commitment, proposal.blockHash) }
    return false

/-- The justify of view 0 needs no proof. -/
def verifyJustify (justifyQc : QuorumCertificate) : EngineM Unit := do
  if 0 < justifyQc.view then verifyQcAnyDomainOrKnown justifyQc

/-- The justify check: a valid certificate that does not fall behind the lock. -/
def adoptJustify : EngineM Unit := do
  let justifyQc := proposal.justifyQc
  verifyJustify justifyQc
  let e ← engine
  if !e.roundState.isSafeToVote justifyQc then
    throw (.safetyViolation justifyQc.view e.roundState.lockedQc.view)
  record (.approve e.currentView proposal.blockHash justifyQc false)
  updateLockedQc justifyQc

/-- Chained mode: an invalid piggybacked certificate is ignored. -/
def adoptPiggybacked (prepareQc : Option QuorumCertificate) : EngineM Unit := do
  let e ← engine
  match prepareQc with
  | none => return
  | some qc =>
    match e.resolveQcValidatorSet qc with
    | .error _ => return
    | .ok set =>
      match verifyQcWithProfile qc set e.signingProfile with
      | .error _ => return
      | .ok _ =>
        accept (.prepare qc) set
        updateLockedQc qc

/-- Replaces the pending changes and caches what later rounds need of the proposal. -/
def cacheProposal : EngineM Unit := do
  let e ← engine
  if hasChanges proposal.validatorChanges then
    let changes := proposal.validatorChanges.getD []
    if maxChangesPerProposal < changes.length then
      throw (.tooManyValidatorChanges changes.length maxChangesPerProposal)
    updateEpochs (.replacePending changes) (e.epochManager.replacePendingFromProposal changes)
  update fun e => { e with
    pendingChangesHashes := e.pendingChangesHashes.insert proposal.blockHash
      (validatorChangesHash proposal.validatorChanges)
    pendingTxRoots :=
      match proposal.txRootHash with
      | some txRoot => e.pendingTxRoots.insert proposal.blockHash txRoot
      | none => e.pendingTxRoots
    roundState := e.roundState.enterVoting }

/-- Native engines vote at once; gov5 engines wait until the block is imported. -/
def voteOnProposal : EngineM Unit := do
  let e ← engine
  let view := e.currentView
  if e.signingProfile.isGov5 then
    update fun e => { e with
      pendingProposal := some {
        view, blockHash := proposal.blockHash, justifyBlock := proposal.justifyQc.blockHash } }
    let e ← engine
    if proposal.blockHash ∈ e.importedBlocks then
      if !e.extendsJustify proposal.blockHash then return
      sendVote view proposal.blockHash
  else
    sendVote view proposal.blockHash

def processProposal : EngineM Unit := do
  authenticateProposal proposal
  if ← trackProposal proposal then return
  adoptJustify proposal
  adoptPiggybacked proposal.prepareQc
  cacheProposal proposal
  emit (.executeBlock proposal.blockHash)
  voteOnProposal proposal

def sendCommitVote : EngineM Unit := do
  recordCommitVote view
  let e ← engine
  let signature ← signItem (.commitVote view blockHash (e.cachedChangesHash blockHash))
  emit (.sendToValidator (e.leaderIndexForView view)
    (.commitVote { view, blockHash, voter := e.myIndex, signature }))

def processPrepareQc (pqc : PrepareQC) : EngineM Unit := do
  let e ← engine
  let view := e.currentView
  if pqc.view ≠ view then throw (.viewMismatch view pqc.view)
  if pqc.qc.view ≠ pqc.view then throw (.viewMismatch pqc.view pqc.qc.view)
  if pqc.qc.blockHash ≠ pqc.blockHash then
    throw (.blockHashMismatch pqc.blockHash pqc.qc.blockHash)
  let qcSet ← ofExcept (e.resolveQcValidatorSet pqc.qc)
  verifyCert (.prepare pqc.qc) qcSet
  updateLockedQc pqc.qc
  updateRound (·.enterPreCommit)
  let e ← engine
  if !e.isLocalValidatorActiveForView view then return
  if !e.roundState.mayCommitVoteIn view then return
  sendCommitVote view pqc.blockHash

def onBlockImported (blockHash : B256) (parentHash : Option B256) : EngineM Unit := do
  update (·.noteImport blockHash parentHash)
  let e ← engine
  match e.pendingProposal with
  | none => return
  | some pending =>
    if e.signingProfile.isGov5 ∧ pending.view = e.currentView ∧ pending.blockHash = blockHash ∧
        e.roundState.mayVoteIn pending.view then
      if !e.extendsJustify blockHash then return
      sendVote pending.view blockHash

end N42
