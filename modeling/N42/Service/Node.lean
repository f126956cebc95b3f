import N42.Protocol.StateMachine

/-!
One node: what it keeps on disk, how it starts from there, and how its engine runs between crashes
(`n42-node/src/main.rs`, `n42-consensus-service/src/persistence.rs`).

The disk is read off the audit log: each write is all or nothing. A static `epoch_schedule.json` and
block sync are not modelled.
-/

namespace N42

structure NodeConfig where
  secretKey : BlsSecretKey
  signingProfile : ConsensusSigningProfile
  initialValidatorSet : ValidatorSet
  generatedValidators : Bool
  epochLength : ℕ
  maxHistoricalEpochs : ℕ

structure Disk where
  votedView : ℕ
  commitVotedView : ℕ
  lock : Option QuorumCertificate
  snapshot : Option ConsensusSnapshot

def Disk.empty : Disk where
  votedView := 0
  commitVotedView := 0
  lock := none
  snapshot := none

def Disk.apply (d : Disk) : Effect → Disk
  | .persistVote view fate => if fate.durable then { d with votedView := view } else d
  | .persistCommitVote view fate => if fate.durable then { d with commitVotedView := view } else d
  | .persistLock qc fate => if fate.durable then { d with lock := some qc } else d
  | .save snapshot => { d with snapshot := some snapshot }
  | _ => d

/-- What is on disk after the effects of a log. -/
def diskOf : List Effect → Disk
  | [] => .empty
  | x :: log => (diskOf log).apply x

def buildSnapshot (e : Engine) : ConsensusSnapshot where
  currentView := e.roundState.currentView
  lockedQc := e.roundState.lockedQc
  lastCommittedQc := e.roundState.lastCommittedQc
  consecutiveTimeouts := e.roundState.consecutiveTimeouts
  scheduledEpochTransition := e.epochManager.stagedEpochInfo
  lastVotedView := e.roundState.lastVotedView
  lastCommitVotedView := e.roundState.lastCommitVotedView
  currentEpochValidators :=
    if e.epochManager.epochsEnabled then
      some (e.epochManager.currentEpoch, e.epochManager.currentSet.validators,
        e.epochManager.currentSet.faultTolerance)
    else none

variable [Crypto]

def buildEpochManager (cfg : NodeConfig) (snapshot : Option ConsensusSnapshot) :
    Option EpochManager :=
  if cfg.epochLength = 0 then some (.new cfg.initialValidatorSet)
  else
    let currentEpoch := snapshot.elim 0 fun s => (s.currentView - 1) / cfg.epochLength
    let restored := (snapshot.bind (·.currentEpochValidators)).filter fun r => !r.2.1.isEmpty
    match restored with
    | some (_, validators, faultTolerance) =>
      match ValidatorSet.tryNew validators faultTolerance with
      | .error _ => none
      | .ok set =>
        some (.fromEpochWithHistory set cfg.epochLength currentEpoch cfg.maxHistoricalEpochs)
    | none =>
      some (.fromEpochWithHistory cfg.initialValidatorSet cfg.epochLength currentEpoch
        cfg.maxHistoricalEpochs)

/-- Restores the staged transition of a snapshot when it targets the next epoch, or
would under the epoch numbering of older snapshots. -/
def restoreStaged (em : EpochManager) (s : ConsensusSnapshot) : EpochManager :=
  match s.scheduledEpochTransition with
  | none => em
  | some (targetEpoch, validators, faultTolerance) =>
    let legacyRetarget := s.currentEpochValidators.any fun r =>
      targetEpoch = r.1 + 1 ∧ r.1 < em.currentEpoch
    if targetEpoch ≠ em.currentEpoch + 1 ∧ !legacyRetarget then em
    else (em.stageNextEpoch validators faultTolerance).toOption.getD em

/-- The index a node starts with; `none` if a gov5 participant's key is not in the set. -/
def startIndex (cfg : NodeConfig) (set : ValidatorSet) : Option ℕ :=
  match set.indexOfPublicKey (Crypto.publicKey cfg.secretKey) with
  | some index => some index
  | none =>
    if cfg.signingProfile.isGov5 then none
    else if cfg.generatedValidators then some 0
    else some set.len

def maxRecoveredConsecutiveTimeouts : ℕ := 128

/-- The round state a restart resumes with. The vote log only raises the two vote
floors; the view is the snapshot's. -/
def recoverRound (s : ConsensusSnapshot) (d : Disk) : RoundState :=
  .fromSnapshot s.currentView (higherLock s.lockedQc d.lock) s.lastCommittedQc
    (min s.consecutiveTimeouts maxRecoveredConsecutiveTimeouts)
    (max s.lastVotedView d.votedView) (max s.lastCommitVotedView d.commitVotedView)

def recover (cfg : NodeConfig) (d : Disk) : Option Engine := do
  let em ← buildEpochManager cfg d.snapshot
  let index ← startIndex cfg em.currentSet
  match d.snapshot with
  | none =>
    if d.votedView ≠ 0 ∨ d.commitVotedView ≠ 0 then none
    else some (.start index cfg.secretKey em cfg.signingProfile .new)
  | some s =>
    match s.validate with
    | .error _ => none
    | .ok _ =>
      some (.start index cfg.secretKey (restoreStaged em s) cfg.signingProfile (recoverRound s d))

theorem recover_eq_some {cfg : NodeConfig} {d : Disk} {e : Engine} (h : recover cfg d = some e) :
    ∃ em index, buildEpochManager cfg d.snapshot = some em ∧
      startIndex cfg em.currentSet = some index ∧
      ((d.snapshot = none ∧ d.votedView = 0 ∧ d.commitVotedView = 0 ∧
          e = .start index cfg.secretKey em cfg.signingProfile .new) ∨
        ∃ s, d.snapshot = some s ∧ s.validate = .ok () ∧
          e = .start index cfg.secretKey (restoreStaged em s) cfg.signingProfile
            (recoverRound s d)) := by
  simp only [recover, Option.bind_eq_bind, Option.bind_eq_some_iff] at h
  obtain ⟨em, hem, index, hindex, h⟩ := h
  refine ⟨em, index, hem, hindex, ?_⟩
  split at h
  · next hnone =>
    split at h
    · exact absurd h (by simp)
    · next hzero =>
      push Not at hzero
      exact .inl ⟨hnone, hzero.1, hzero.2, (Option.some.inj h).symm⟩
  · next s hs =>
    split at h
    · exact absurd h (by simp)
    · next hok => exact .inr ⟨s, hs, hok, (Option.some.inj h).symm⟩

/-- A node: its audit log, and its engine while the process is up. -/
structure Node where
  engine : Option Engine
  log : List Effect

def Node.down : Node := ⟨none, []⟩

def sinceBoot : List Effect → List Effect
  | [] => []
  | .boot _ :: _ => []
  | x :: log => x :: sinceBoot log

/-- The source's `u64` fields hold no larger values. -/
def ConsensusMessage.Wire (m : ConsensusMessage) : Prop :=
  m.view ≤ u64Max ∧ (∀ qc ∈ m.qcs, qc.view ≤ u64Max) ∧ ∀ tc ∈ m.tcs, tc.view ≤ u64Max

/-- What can reach an engine: well-typed messages, and an authenticated message only
with the token issued for it. -/
structure Input.Admissible (log : List Effect) (input : Input) : Prop where
  wire : ∀ m ∈ input.messages, m.Wire
  authorized : ∀ m proof, input = .authenticated m proof → .token m proof ∈ sinceBoot log

def EngineM.world {α : Type} (x : EngineM α) (w : World) : World :=
  match x w with
  | .ok _ w' => w'
  | .error _ w' => w'

def runInput (e : Engine) (log : List Effect) (env : Env) (input : Input) : World :=
  (handle input).world ⟨e, log, env⟩

/-- The steps of a node. A crash may come between any two effects of an event. -/
inductive NodeStep (cfg : NodeConfig) : Node → Node → Prop where
  | boot {log : List Effect} {e : Engine} (h : recover cfg (diskOf log) = some e) :
      NodeStep cfg ⟨none, log⟩ ⟨some e, .boot e.core :: log⟩
  | handle {e : Engine} {log : List Effect} (env : Env) (input : Input)
      (h : input.Admissible log) :
      NodeStep cfg ⟨some e, log⟩
        ⟨some (runInput e log env input).engine, (runInput e log env input).log⟩
  | crash {e : Engine} {log log' : List Effect} (env : Env) (input : Input)
      (h : input.Admissible log) (hnew : log <:+ log')
      (hcut : log' <:+ (runInput e log env input).log) :
      NodeStep cfg ⟨some e, log⟩ ⟨none, log'⟩
  | save {e : Engine} {log : List Effect} (h : (buildSnapshot e).validate = .ok ()) :
      NodeStep cfg ⟨some e, log⟩ ⟨some e, .save (buildSnapshot e) :: log⟩

end N42
