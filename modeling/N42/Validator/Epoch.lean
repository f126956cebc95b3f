import N42.Lib.Except
import N42.Validator.Set
import N42.Protocol.Signing
import Mathlib.Data.List.Sort

/-!
Validator set transitions across epochs (`validator/epoch.rs`). Epoch numbers stay far below
`u64::MAX`, so the source's `current_epoch + 1` is plain addition here.
-/

namespace N42

def maxHistoricalEpochsLimit : ℕ := 256

def clampMaxHistorical (value : ℕ) : ℕ := max 1 (min value maxHistoricalEpochsLimit)

def minValidatorCount : ℕ := 4

structure EpochManager where
  epochLength : ℕ
  currentEpoch : ℕ
  currentSet : ValidatorSet
  nextSet : Option ValidatorSet
  stagedInfo : Option (List ValidatorInfo × ℕ)
  /-- The `BTreeMap` of past sets, in ascending key order. -/
  historicalSets : List (ℕ × ValidatorSet)
  maxHistoricalEpochs : ℕ
  pendingAdds : List ValidatorInfo
  pendingRemoves : List Address
deriving DecidableEq

namespace EpochManager

variable (validatorSet : ValidatorSet)

def new : EpochManager where
  epochLength := 0
  currentEpoch := 0
  currentSet := validatorSet
  nextSet := none
  stagedInfo := none
  historicalSets := []
  maxHistoricalEpochs := 32
  pendingAdds := []
  pendingRemoves := []

def fromEpochWithHistory (epochLength startingEpoch maxHistoricalEpochs : ℕ) : EpochManager where
  epochLength := epochLength
  currentEpoch := startingEpoch
  currentSet := validatorSet
  nextSet := none
  stagedInfo := none
  historicalSets := []
  maxHistoricalEpochs := clampMaxHistorical maxHistoricalEpochs
  pendingAdds := []
  pendingRemoves := []

variable (em : EpochManager)

def epochsEnabled : Bool := 0 < em.epochLength

/-- Views `1 .. epoch_length` are epoch 0, the next `epoch_length` views epoch 1, and
so on; epoch 0 when epochs are disabled. -/
def epochForView (view : ℕ) : ℕ := (view - 1) / em.epochLength

def validatorSetForView (view : ℕ) : ValidatorSet :=
  if em.epochLength = 0 then em.currentSet
  else if em.epochForView view = em.currentEpoch then em.currentSet
  else
    match if em.epochForView view = em.currentEpoch + 1 then em.nextSet else none with
    | some nextSet => nextSet
    | none => (em.historicalSets.lookup (em.epochForView view)).getD em.currentSet

def knownValidatorSetForView (view : ℕ) : Option ValidatorSet :=
  if em.epochLength = 0 then some em.currentSet
  else if em.epochForView view = em.currentEpoch then some em.currentSet
  else if em.epochForView view = em.currentEpoch + 1 then em.nextSet
  else em.historicalSets.lookup (em.epochForView view)

def stageNextEpoch [Crypto] (validators : List ValidatorInfo) (faultTolerance : ℕ) :
    Except ConsensusError EpochManager := do
  let next ← ValidatorSet.tryNew validators faultTolerance
  return { em with nextSet := some next, stagedInfo := some (validators, faultTolerance) }

def stagedEpochInfo : Option (ℕ × List ValidatorInfo × ℕ) :=
  em.stagedInfo.map fun info => (em.currentEpoch + 1, info.1, info.2)

/-- `BTreeMap::insert` followed by `trim_historical`. -/
def archiveCurrent : List (ℕ × ValidatorSet) :=
  let inserted := em.historicalSets.takeWhile (·.1 < em.currentEpoch) ++
    (em.currentEpoch, em.currentSet) :: em.historicalSets.dropWhile (·.1 ≤ em.currentEpoch)
  inserted.drop (inserted.length - em.maxHistoricalEpochs)

def hasStagedNext : Bool := em.nextSet.isSome

def advanceEpoch : EpochManager :=
  match em.nextSet with
  | none => em
  | some nextSet =>
    { em with
      nextSet := none
      stagedInfo := none
      historicalSets := em.archiveCurrent
      currentEpoch := em.currentEpoch + 1
      currentSet := nextSet }

def carryEpochForward : EpochManager :=
  if em.hasStagedNext || em.epochLength == 0 then em
  else { em with historicalSets := em.archiveCurrent, currentEpoch := em.currentEpoch + 1 }

def checkProposalsAllowed : Except ConsensusError Unit := do
  if em.epochLength = 0 then throw .epochsDisabled
  if em.hasStagedNext then throw .epochTransitionAlreadyStaged

def proposeAddValidator (info : ValidatorInfo) : Except ConsensusError EpochManager := do
  em.checkProposalsAllowed
  if em.currentSet.containsAddress info.address then
    throw (.validatorAlreadyExists info.address)
  if em.pendingAdds.any (fun v => v.address == info.address) then
    throw (.validatorAlreadyExists info.address)
  return { em with pendingAdds := em.pendingAdds ++ [info] }

def proposeRemoveValidator (addr : Address) : Except ConsensusError EpochManager := do
  em.checkProposalsAllowed
  if !em.currentSet.containsAddress addr then throw (.validatorNotFound addr)
  if em.pendingRemoves.contains addr then throw (.validatorAlreadyPendingRemoval addr)
  let futureCount := em.currentSet.len + em.pendingAdds.length - em.pendingRemoves.length - 1
  if futureCount < minValidatorCount then
    throw (.insufficientValidators futureCount minValidatorCount)
  return { em with pendingRemoves := em.pendingRemoves ++ [addr] }

def hasPendingChanges : Bool := !em.pendingAdds.isEmpty || !em.pendingRemoves.isEmpty

/-- `dedup_by_key` on the address: of each run of equal addresses the first is kept. -/
def dedupAfter (previous : Address) : List ValidatorInfo → List ValidatorInfo
  | [] => []
  | v :: vs =>
    if v.address = previous then dedupAfter previous vs else v :: dedupAfter v.address vs

def dedupByAddress : List ValidatorInfo → List ValidatorInfo
  | [] => []
  | v :: vs => v :: dedupAfter v.address vs

/-- The members of a set after a list of additions and removals: the current ones less
the removed, plus the added, sorted by address, without repeated addresses. -/
def rebuild (members adds : List ValidatorInfo) (removes : List Address) : List ValidatorInfo :=
  dedupByAddress (((members.filter fun v => !removes.contains v.address) ++ adds).insertionSort
    fun a b => a.address.toNat ≤ b.address.toNat)

def validateTransition (newValidators : List ValidatorInfo) : Except ConsensusError Unit := do
  if newValidators.length < minValidatorCount then
    throw (.insufficientValidators newValidators.length minValidatorCount)
  let overlap := em.currentSet.validators.countP
    fun v => newValidators.any fun w => w.address == v.address
  if overlap < em.currentSet.quorumSize then
    throw (.insufficientQuorumOverlap overlap em.currentSet.quorumSize)

def commitPendingChanges [Crypto] : Except ConsensusError EpochManager := do
  if !em.hasPendingChanges then return em
  let newValidators := rebuild em.currentSet.validators em.pendingAdds em.pendingRemoves
  em.validateTransition newValidators
  let staged ← em.stageNextEpoch newValidators (maxFaultToleranceForLen newValidators.length)
  return { staged with pendingAdds := [], pendingRemoves := [] }

def pendingChangesForProposal : Option (List ValidatorChange) :=
  if em.hasPendingChanges then
    some (em.pendingAdds.map (fun i => .add i.address i.blsPublicKey i.p2pPeerId) ++
      em.pendingRemoves.map .remove)
  else none

def pendingChangesHash [Crypto] : B256 := validatorChangesHash em.pendingChangesForProposal

def replacePendingFromProposal (changes : List ValidatorChange) : EpochManager :=
  { em with
    pendingAdds := changes.filterMap fun
      | .add address blsPublicKey p2pPeerId => some ⟨address, blsPublicKey, p2pPeerId⟩
      | .remove _ => none
    pendingRemoves := changes.filterMap fun
      | .add .. => none
      | .remove address => some address }

section Spec

open Lib

variable [Crypto] {em em' : EpochManager}

omit [Crypto] in
theorem validatorSetForView_of_known {view : ℕ} {set : ValidatorSet}
    (h : em.knownValidatorSetForView view = some set) : em.validatorSetForView view = set := by
  unfold knownValidatorSetForView at h
  unfold validatorSetForView
  split_ifs at h ⊢ with hzero hcurrent hnext
  · exact Option.some.inj h
  · exact Option.some.inj h
  · rw [h]
  · rw [h]
    rfl

variable {validators : List ValidatorInfo}

theorem stageNextEpoch_ok {faultTolerance : ℕ}
    (h : em.stageNextEpoch validators faultTolerance = .ok em') :
    ∃ next, ValidatorSet.tryNew validators faultTolerance = .ok next ∧
      em' = { em with nextSet := some next, stagedInfo := some (validators, faultTolerance) } := by
  simp only [stageNextEpoch, bind_eq_ok, pure_eq_ok] at h
  obtain ⟨next, hnext, rfl⟩ := h
  exact ⟨next, hnext, rfl⟩

omit [Crypto] in
theorem validateTransition_eq_ok :
    em.validateTransition validators = .ok () ↔ minValidatorCount ≤ validators.length ∧
      em.currentSet.quorumSize ≤ em.currentSet.validators.countP
        fun v => validators.any fun w => w.address == v.address := by
  simp only [validateTransition, guard_bind_eq_ok, guard_eq_ok, not_lt, pure_eq_ok, and_true]

theorem commitPendingChanges_ok (h : em.commitPendingChanges = .ok em') :
    (em.hasPendingChanges = false ∧ em' = em) ∨
      em.hasPendingChanges = true ∧ ∃ next, em.validateTransition next.validators = .ok () ∧
        next.validators = rebuild em.currentSet.validators em.pendingAdds em.pendingRemoves ∧
        next.faultTolerance = maxFaultToleranceForLen next.validators.length ∧
        em' = { em with
          nextSet := some next
          stagedInfo := some (next.validators, maxFaultToleranceForLen next.validators.length)
          pendingAdds := []
          pendingRemoves := [] } := by
  unfold commitPendingChanges at h
  split at h
  · next hnone =>
    rw [pure_eq_ok] at h
    exact .inl ⟨by simpa using hnone, h.symm⟩
  · next hsome =>
    simp only [bind_eq_ok, pure_eq_ok] at h
    obtain ⟨_, hsafe, staged, hstaged, rfl⟩ := h
    obtain ⟨next, hnext, rfl⟩ := stageNextEpoch_ok hstaged
    obtain ⟨hvalidators, hfault⟩ := ValidatorSet.tryNew_ok hnext
    exact .inr ⟨by simpa using hsome, next, hvalidators ▸ hsafe, hvalidators,
      by rw [hfault, hvalidators], by rw [hvalidators]⟩

def active (em : EpochManager) : ℕ × ℕ × ValidatorSet :=
  (em.epochLength, em.currentEpoch, em.currentSet)

theorem active_of_commitPendingChanges (h : em.commitPendingChanges = .ok em') :
    em'.active = em.active := by
  obtain ⟨-, rfl⟩ | ⟨-, next, -, -, -, rfl⟩ := commitPendingChanges_ok h <;> rfl

omit [Crypto] in
theorem proposeAddValidator_ok {info : ValidatorInfo} (h : em.proposeAddValidator info = .ok em') :
    em' = { em with pendingAdds := em.pendingAdds ++ [info] } := by
  simp only [proposeAddValidator, bind_eq_ok, guard_bind_eq_ok, pure_eq_ok] at h
  obtain ⟨-, -, -, -, rfl⟩ := h
  rfl

omit [Crypto] in
theorem proposeRemoveValidator_ok {address : Address}
    (h : em.proposeRemoveValidator address = .ok em') :
    em' = { em with pendingRemoves := em.pendingRemoves ++ [address] } := by
  simp only [proposeRemoveValidator, bind_eq_ok, guard_bind_eq_ok, pure_eq_ok] at h
  obtain ⟨-, -, -, -, -, rfl⟩ := h
  rfl

end Spec

end EpochManager

end N42
