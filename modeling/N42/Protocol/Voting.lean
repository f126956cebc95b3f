import N42.Protocol.Engine

/-!
Votes of both rounds at the leader, and the certificates built from them (`protocol/voting.rs`).
Handlers that move to another view take `advanceToView` as an argument; `StateMachine` closes the
recursion.
-/

namespace N42

open EngineM

/-- `check_equivocation`: the tracker afterwards, and the two hashes if they differ. -/
def checkEquivocation (tracker : Map ℕ B256) (voter : ℕ) (blockHash : B256) :
    Map ℕ B256 × Option (B256 × B256) :=
  match tracker.lookup voter with
  | some prev => (tracker, if prev ≠ blockHash then some (prev, blockHash) else none)
  | none => (tracker.insert voter blockHash, none)

theorem lookup_checkEquivocation {tracker : Map ℕ B256} {voter : ℕ} {blockHash : B256}
    {i : ℕ} {b : B256} (h : (checkEquivocation tracker voter blockHash).1.lookup i = some b) :
    tracker.lookup i = some b ∨ (i = voter ∧ b = blockHash) := by
  unfold checkEquivocation at h
  split at h
  · exact .inl h
  · by_cases hi : i = voter
    · subst hi
      rw [AList.lookup_insert, Option.some.injEq] at h
      exact .inr ⟨rfl, h.symm⟩
    · rw [AList.lookup_insert_ne hi] at h
      exact .inl h

theorem checkEquivocation_conflict {tracker : Map ℕ B256} {voter : ℕ} {blockHash hash1 hash2 : B256}
    (h : (checkEquivocation tracker voter blockHash).2 = some (hash1, hash2)) :
    tracker.lookup voter = some hash1 ∧ hash1 ≠ blockHash ∧ hash2 = blockHash := by
  unfold checkEquivocation at h
  split at h
  · next prev hprev =>
    split at h
    · next hne =>
      obtain ⟨rfl, rfl⟩ := Prod.mk.inj (Option.some.inj h)
      exact ⟨hprev, hne, rfl⟩
    · cases h
  · cases h

variable [Crypto]

/-- Captures the pending changes and stages the set they lead to. -/
def commitPendingChanges : EngineM (Option (List ValidatorChange)) := do
  let em := (← engine).epochManager
  let staged ← ofExcept em.commitPendingChanges
  updateEpochs .commitPending staged
  return em.pendingChangesForProposal

variable (advanceToView : ℕ → EngineM Unit)

variable (view : ℕ) (blockHash : B256)

/-- The end of a commit: announce it, move on, and report the view reached. -/
def announceCommit (commitQc : QuorumCertificate)
    (committedChanges : Option (List ValidatorChange)) : EngineM Unit := do
  update fun e => { e with pendingTxRoots := e.pendingTxRoots.remove blockHash }
  emit (.blockCommitted view blockHash commitQc committedChanges)
  advanceToView (satAdd view 1)
  emit (.viewChanged (← engine).currentView)

/-- Stages the pending changes if they are the ones that were committed. -/
def stageCommitted (changesHash : B256) : EngineM (Option (List ValidatorChange)) := do
  let e ← engine
  if changesHash ≠ 0 ∧ e.epochManager.pendingChangesHash = changesHash then commitPendingChanges
  else return none

def finishCommit (commitQc : QuorumCertificate) : EngineM Unit := do
  commitRound commitQc
  let changesHash := (← engine).cachedChangesHash blockHash
  let committedChanges ← stageCommitted changesHash
  emit (.broadcastMessage
    (.decide { view, blockHash, commitQc, validatorChangesHash := changesHash }))
  announceCommit advanceToView view blockHash commitQc committedChanges

def tryFormCommitQc : EngineM Unit := do
  let e ← engine
  let view := e.currentView
  let viewSet := e.validatorSetForView view
  match e.commitCollector with
  | none => return
  | some collector =>
    if !collector.hasQuorum viewSet.quorumSize then return
    let blockHash := collector.blockHash
    let changesHash := e.cachedChangesHash blockHash
    let commitMsg := e.signingProfile.commitMessage view blockHash changesHash
    let commitQc ← ofExcept
      (collector.buildQcWithProfileMessage (← rank) viewSet commitMsg e.signingProfile)
    accept (.commit commitQc changesHash) viewSet
    finishCommit advanceToView view blockHash commitQc

def castOwnCommitVote : EngineM Unit := do
  recordCommitVote view
  let e ← engine
  let item := Item.commitVote view blockHash (e.cachedChangesHash blockHash)
  let signature ← signItem item
  match e.commitCollector with
  | none => return
  | some collector =>
    match collector.addVerifiedVote e.myIndex signature with
    | none => throw (.duplicateVote collector.view e.myIndex)
    | some collector =>
      record (.ownShare e.myIndex item)
      update fun e => { e with commitCollector := some collector }

def tryFormPrepareQc : EngineM Unit := do
  let e ← engine
  let view := e.currentView
  let viewSet := e.validatorSetForView view
  match e.voteCollector with
  | none => return
  | some collector =>
    if !collector.hasQuorum viewSet.quorumSize || e.prepareQc.isSome then return
    let voteMessage := e.signingProfile.voteMessage view collector.blockHash
    let qc ← ofExcept
      (collector.buildQcWithProfileMessage (← rank) viewSet voteMessage e.signingProfile)
    accept (.prepare qc) viewSet
    update fun e => { e with prepareQc := some qc }
    updateRound (·.enterPreCommit)
    updateLockedQc qc
    emit (.broadcastMessage (.prepareQc { view, blockHash := qc.blockHash, qc }))
    if !(← engine).roundState.mayCommitVoteIn view then return
    castOwnCommitVote view qc.blockHash
    tryFormCommitQc advanceToView

def countVote (vote : Vote) : EngineM Unit := do
  let e ← engine
  let view := e.currentView
  let (tracker, conflict) := checkEquivocation e.equivocationTracker vote.voter vote.blockHash
  update fun e => { e with equivocationTracker := tracker }
  if let some (hash1, hash2) := conflict then
    emit (.equivocationDetected view vote.voter hash1 hash2)
    return
  match e.voteCollector with
  | none => return
  | some collector =>
    if vote.blockHash ≠ collector.blockHash then return
    match collector.addVerifiedVote vote.voter vote.signature with
    | none => return
    | some collector =>
      update fun e => { e with voteCollector := some collector }
      tryFormPrepareQc advanceToView

def processVoteInner (vote : Vote) (signatureVerified : Bool) : EngineM Unit := do
  let e ← engine
  let view := e.currentView
  if vote.view ≠ view then throw (.viewMismatch view vote.view)
  if !e.isCurrentLeader then return
  if !signatureVerified then
    verifyShare (e.validatorSetForView view) vote.voter (.vote view vote.blockHash) vote.signature
  countVote advanceToView vote

def countCommitVote (cv : CommitVote) : EngineM Unit := do
  let e ← engine
  let view := e.currentView
  let (tracker, conflict) := checkEquivocation e.commitEquivocationTracker cv.voter cv.blockHash
  update fun e => { e with commitEquivocationTracker := tracker }
  if let some (hash1, hash2) := conflict then
    emit (.equivocationDetected view cv.voter hash1 hash2)
    return
  match e.commitCollector with
  | none => return
  | some collector =>
    if cv.blockHash ≠ collector.blockHash then return
    match collector.addVerifiedVote cv.voter cv.signature with
    | none => return
    | some collector =>
      update fun e => { e with commitCollector := some collector }
      tryFormCommitQc advanceToView

def processCommitVoteInner (cv : CommitVote) (signatureVerified : Bool) : EngineM Unit := do
  let e ← engine
  let view := e.currentView
  if cv.view ≠ view then throw (.viewMismatch view cv.view)
  if !e.isCurrentLeader then return
  if !signatureVerified then
    verifyShare (e.validatorSetForView view) cv.voter
      (.commitVote view cv.blockHash (e.cachedChangesHash cv.blockHash)) cv.signature
  countCommitVote advanceToView cv

end N42
