import N42.Protocol.Voting

/-!
The decision message (`protocol/decision.rs`).
-/

namespace N42

open EngineM

variable [Crypto]

def authenticateDecide (d : Decide) : EngineM Unit := do
  let e ← engine
  let commitSet ← ofExcept (e.resolveQcValidatorSet d.commitQc)
  if d.commitQc.signerCount < commitSet.quorumSize then
    throw (.insufficientVotes d.view d.commitQc.signerCount commitSet.quorumSize)
  if d.commitQc.view ≠ d.view then throw (.viewMismatch d.view d.commitQc.view)
  if d.commitQc.blockHash ≠ d.blockHash then
    throw (.blockHashMismatch d.blockHash d.commitQc.blockHash)
  verifyCert (.commit d.commitQc d.validatorChangesHash) commitSet

def stageDecided (d : Decide) : EngineM (Option (List ValidatorChange)) := do
  let e ← engine
  if d.validatorChangesHash ≠ 0 then
    if e.epochManager.pendingChangesHash = d.validatorChangesHash then
      commitPendingChanges
    else
      emit (.syncRequired (d.view - 1) d.view)
      return none
  else return none

/-- A decision far ahead also asks for a sync. -/
def reportGap (currentView view : ℕ) : EngineM Unit := do
  if wrapAdd currentView 3 < view then emit (.syncRequired currentView view)

def processDecide (advanceToView : ℕ → EngineM Unit) (d : Decide) : EngineM Unit := do
  let currentView := (← engine).currentView
  if d.view < currentView then return
  authenticateDecide d
  update fun e => { e with
    pendingChangesHashes := e.pendingChangesHashes.insert d.blockHash d.validatorChangesHash }
  reportGap currentView d.view
  updateLockedQc d.commitQc
  commitRound d.commitQc
  let committedChanges ← stageDecided d
  announceCommit advanceToView d.view d.blockHash d.commitQc committedChanges

end N42
