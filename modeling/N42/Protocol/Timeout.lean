import N42.Protocol.Voting

/-!
Timeouts, timeout certificates and view changes (`protocol/timeout.rs`).
-/

namespace N42

open EngineM

variable [Crypto]

/-- `verify_embedded_qc`: the genesis certificate passes only while the lock is still
at genesis. -/
def verifyEmbeddedQc (qc : QuorumCertificate) : EngineM Unit := do
  if qc.view = 0 then
    if (← engine).roundState.lockedQc.view = 0 then return
    throw (.invalidQC 0 "genesis QC rejected: local locked_qc has already advanced")
  verifyQcAnyDomainOrKnown qc

def broadcastNewView (tc : TimeoutCertificate) (nextView : ℕ) : EngineM Unit := do
  let e ← engine
  if e.isLeaderForView nextView then
    match e.localValidatorIndexForView nextView with
    | none => throw (.localValidatorNotInSet (e.epochManager.currentEpoch + 1))
    | some leader =>
      let signature ← signItem (.newView nextView)
      emit (.broadcastMessage (.newView { view := nextView, timeoutCert := tc, leader, signature }))

variable (advanceToView : ℕ → EngineM Unit)

def advanceWithTc (tc : TimeoutCertificate) (nextView : ℕ) : EngineM Unit := do
  updateLockedQc tc.highQc
  broadcastNewView tc nextView
  advanceToView nextView
  emit (.viewChanged (← engine).currentView)

def tryFormTcAndAdvance (currentView nextView : ℕ) : EngineM Unit := do
  let e ← engine
  match e.timeoutCollector with
  | none => return
  | some collector =>
    let viewSet := e.validatorSetForView currentView
    let tc ← ofExcept (collector.buildTcWithProfile (← rank) viewSet e.signingProfile)
    accept (.timeout tc) viewSet
    advanceWithTc advanceToView tc nextView

def relayTimeout (relay : Prop) [Decidable relay] (nextLeader : ℕ) (timeout : TimeoutMessage) :
    EngineM Unit := do
  if relay then emit (.sendToValidator nextLeader (.timeout timeout))

variable (timeout : TimeoutMessage)

def countTimeout : EngineM Unit := do
  let e ← engine
  let view := e.currentView
  let viewSet := e.validatorSetForView view
  let nextView := satAdd view 1
  let nextLeader := leaderForView nextView viewSet
  let collector := e.timeoutCollector.getD (.new view viewSet.len)
  match collector.addVerifiedTimeout timeout.sender timeout.signature timeout.highQc with
  | none => update fun e => { e with timeoutCollector := some collector }
  | some collector =>
    update fun e => { e with timeoutCollector := some collector }
    relayTimeout (timeout.sender ≠ e.myIndex ∧ nextLeader ≠ e.myIndex ∧ !e.signingProfile.isGov5)
      nextLeader timeout
    if collector.hasQuorum viewSet.quorumSize then
      tryFormTcAndAdvance advanceToView view nextView

def processTimeout : EngineM Unit := do
  let e ← engine
  let view := e.currentView
  if timeout.view < view then return
  if view < timeout.view then return
  verifyShare (e.validatorSetForView view) timeout.sender (.timeout view) timeout.signature
  verifyEmbeddedQc timeout.highQc
  countTimeout advanceToView timeout

def broadcastTimeout : EngineM TimeoutMessage := do
  let e ← engine
  let view := e.currentView
  let signature ← signItem (.timeout view)
  let timeoutMsg : TimeoutMessage :=
    { view, highQc := e.roundState.lockedQc, sender := e.myIndex, signature }
  emit (.broadcastMessage (.timeout timeoutMsg))
  return timeoutMsg

/-- A repeated timeout of one view: broadcast again, and use a quorum that has formed. -/
def repeatTimeout : EngineM Unit := do
  discard broadcastTimeout
  let e ← engine
  let view := e.currentView
  match e.timeoutCollector with
  | none => return
  | some collector =>
    if collector.hasQuorum (e.validatorSetForView view).quorumSize then
      tryFormTcAndAdvance advanceToView view (satAdd view 1)

def onTimeout : EngineM Unit := do
  let e ← engine
  let view := e.currentView
  if !e.isLocalValidatorActiveForView view then
    updateRound (·.timeout)
    return
  if e.roundState.phase = .timedOut then
    repeatTimeout advanceToView
    return
  update fun e => { e with
    roundState := e.roundState.timeout
    pendingProposal := none
    importedBlocks := if e.signingProfile.isGov5 then e.importedBlocks else []
    importedBlockFifo := if e.signingProfile.isGov5 then e.importedBlockFifo else []
    timeoutCollector :=
      some (e.timeoutCollector.getD (.new view (e.validatorSetForView view).len)) }
  let timeoutMsg ← broadcastTimeout
  processTimeout advanceToView timeoutMsg

/-- The weak synchroniser: `f + 1` reports include an honest one, so join their view. -/
def joinTimedOutView : EngineM Unit := do
  advanceToView timeout.view
  if (← engine).currentView ≠ timeout.view then return
  processTimeout advanceToView timeout
  if (← engine).currentView = timeout.view then
    onTimeout advanceToView

/-- Counts a verified timeout for a future view: true if the view was changed. -/
def countFutureTimeout (viewSet : ValidatorSet) : EngineM Bool := do
  let e ← engine
  let collector := (e.futureTimeoutCollectors.lookup timeout.view).getD
    (.new timeout.view viewSet.len)
  match collector.addVerifiedTimeout timeout.sender timeout.signature timeout.highQc with
  | none =>
    update fun e => { e with
      futureTimeoutCollectors := e.futureTimeoutCollectors.insert timeout.view collector }
    return false
  | some collector =>
    update fun e => { e with
      futureTimeoutCollectors := e.futureTimeoutCollectors.insert timeout.view collector }
    if collector.hasQuorum viewSet.quorumSize then
      let tc ← ofExcept (collector.buildTcWithProfile (← rank) viewSet e.signingProfile)
      accept (.timeout tc) viewSet
      update fun e => { e with
        futureTimeoutCollectors := e.futureTimeoutCollectors.erase timeout.view }
      advanceWithTc advanceToView tc (satAdd timeout.view 1)
      return true
    if collector.hasQuorum (viewSet.faultTolerance + 1) ∧
        (viewSet.indexOfPublicKey e.localPublicKey).isSome then
      joinTimedOutView advanceToView timeout
      return true
    return false

def collectFutureTimeout : EngineM Bool := do
  let e ← engine
  if timeout.view ≤ e.currentView ∨ satAdd e.currentView futureViewWindow < timeout.view then
    return false
  let nextView := satAdd timeout.view 1
  match e.epochManager.knownValidatorSetForView timeout.view,
      e.epochManager.knownValidatorSetForView nextView with
  | some viewSet, some nextViewSet =>
    verifyShare viewSet timeout.sender (.timeout timeout.view) timeout.signature
    verifyEmbeddedQc timeout.highQc
    let nextLeader := leaderForView nextView nextViewSet
    relayTimeout (viewSet.indexOfPublicKey e.localPublicKey ≠ some timeout.sender ∧
      nextViewSet.indexOfPublicKey e.localPublicKey ≠ some nextLeader) nextLeader timeout
    countFutureTimeout advanceToView timeout viewSet
  | _, _ => return false

def processNewView (nv : NewView) : EngineM Unit := do
  let e ← engine
  if nv.view ≤ e.currentView then return
  let newViewSet := e.validatorSetForView nv.view
  let expectedLeader := leaderForView nv.view newViewSet
  if nv.leader ≠ expectedLeader then
    throw (.invalidProposer nv.view expectedLeader nv.leader)
  let pk ← ofExcept (newViewSet.getPublicKey nv.leader)
  if !e.signingProfile.verifySingle pk (e.signingProfile.newViewMessage nv.view) nv.signature then
    throw (.invalidSignature nv.view nv.leader)
  if nv.timeoutCert.view ≠ nv.view - 1 then
    throw (.invalidTC nv.timeoutCert.view (s!"TC view {nv.timeoutCert.view} does not match " ++
      s!"expected view {nv.view - 1} (nv.view - 1)"))
  -- the set comes from the lookup that falls back to the current one
  verifyCert (.timeout nv.timeoutCert) (e.validatorSetForView nv.timeoutCert.view)
  verifyEmbeddedQc nv.timeoutCert.highQc
  updateLockedQc nv.timeoutCert.highQc
  advanceToView nv.view
  emit (.viewChanged (← engine).currentView)

end N42
