import N42.Validator.Epoch

/-!
The consensus snapshot and its validation (`n42-consensus-service/src/persistence.rs`), without the
fields that no modelled function reads.
-/

namespace N42

structure ConsensusSnapshot where
  currentView : ℕ
  lockedQc : QuorumCertificate
  lastCommittedQc : QuorumCertificate
  consecutiveTimeouts : ℕ
  scheduledEpochTransition : Option (ℕ × List ValidatorInfo × ℕ)
  lastVotedView : ℕ
  lastCommitVotedView : ℕ
  currentEpochValidators : Option (ℕ × List ValidatorInfo × ℕ)
deriving DecidableEq

def maxDurableVoteWatermarkAhead : ℕ := 128

variable [Crypto]

def parsePeerIds : List ValidatorInfo → Except String (List String)
  | [] => .ok []
  | v :: vs => do
    let rest ← parsePeerIds vs
    match v.p2pPeerId with
    | none => return rest
    | some text =>
      match Crypto.parsePeerId text with
      | none => throw "scheduled_epoch_transition has invalid p2p_peer_id"
      | some peerId => return peerId :: rest

def validateTransitionInfo (targetEpoch : ℕ) (validators : List ValidatorInfo)
    (faultTolerance : ℕ) : Except String Unit := do
  if targetEpoch = 0 then throw "scheduled_epoch_transition target epoch must be > 0"
  if validators.isEmpty then throw "scheduled_epoch_transition has empty validator set"
  if maxFaultToleranceForLen validators.length < faultTolerance then
    throw "scheduled_epoch_transition invalid"
  let peerIdPresence := validators.countP fun v => v.p2pPeerId.isSome
  if peerIdPresence ≠ 0 ∧ peerIdPresence ≠ validators.length then
    throw ("scheduled_epoch_transition must either define p2p_peer_id for " ++
      "all validators or omit it for all")
  let peerIds ← parsePeerIds validators
  if ¬ peerIds.Nodup then
    throw "scheduled_epoch_transition has duplicate validator p2p_peer_id"

namespace ConsensusSnapshot

def validate (s : ConsensusSnapshot) : Except String Unit := do
  if s.currentView < s.lockedQc.view then
    throw s!"locked_qc.view ({s.lockedQc.view}) > current_view ({s.currentView})"
  if s.lockedQc.view < s.lastCommittedQc.view then
    throw s!"last_committed_qc.view ({s.lastCommittedQc.view}) > locked_qc.view ({s.lockedQc.view})"
  let maximumVoteWatermark := satAdd s.currentView maxDurableVoteWatermarkAhead
  if maximumVoteWatermark < s.lastVotedView then
    throw (s!"last_voted_view ({s.lastVotedView}) exceeds bounded recovery watermark " ++
      s!"{maximumVoteWatermark} for current_view ({s.currentView})")
  if maximumVoteWatermark < s.lastCommitVotedView then
    throw (s!"last_commit_voted_view ({s.lastCommitVotedView}) exceeds bounded recovery watermark "
      ++ s!"{maximumVoteWatermark} for current_view ({s.currentView})")
  match s.scheduledEpochTransition with
  | none => return
  | some (targetEpoch, validators, faultTolerance) =>
    validateTransitionInfo targetEpoch validators faultTolerance

end ConsensusSnapshot

def higherLock (snapshotLock : QuorumCertificate) : Option QuorumCertificate → QuorumCertificate
  | some lock => if snapshotLock.view < lock.view then lock else snapshotLock
  | none => snapshotLock

end N42
