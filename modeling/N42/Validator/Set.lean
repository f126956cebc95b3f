import N42.Primitives.Types

/-!
The consensus error type, the validator set, and round-robin leader selection (`error.rs`,
`validator/set.rs`, `validator/selection.rs`). A set carries the bound that `try_new` checks.
-/

namespace N42

/-- `ConsensusError`. The `Bls` variant is only ever raised by a failed aggregation. -/
inductive ConsensusError where
  | invalidSignature (view validatorIndex : ℕ)
  | invalidProposer (view expected actual : ℕ)
  | insufficientVotes (view have_ need : ℕ)
  | viewMismatch (current received : ℕ)
  | duplicateVote (view validatorIndex : ℕ)
  | invalidQC (view : ℕ) (reason : String)
  | invalidTC (view : ℕ) (reason : String)
  | unknownValidator (index setSize : ℕ)
  | safetyViolation (qcView lockedView : ℕ)
  | blockHashMismatch (expected got : B256)
  | blsSigningFailed
  | outputChannelClosed
  | invalidValidatorSetParams (validatorCount faultTolerance maxFaultTolerance : ℕ)
  | localValidatorNotInSet (epoch : ℕ)
  | insufficientValidators (have_ need : ℕ)
  | insufficientQuorumOverlap (have_ need : ℕ)
  | validatorAlreadyExists (address : Address)
  | validatorNotFound (address : Address)
  | validatorAlreadyPendingRemoval (address : Address)
  | epochTransitionAlreadyStaged
  | tooManyValidatorChanges (count max : ℕ)
  | epochsDisabled
  | h2V4ValidatorChangesUnsupported
  | invalidValidatorPubkey (index : ℕ)
  | voteLogFsync
deriving DecidableEq

structure ValidatorInfo where
  address : Address
  blsPublicKey : BlsPublicKey
  p2pPeerId : Option String
deriving DecidableEq

/-- `max_fault_tolerance_for_len`: the largest `f` with `3 f < n`. -/
def maxFaultToleranceForLen (len : ℕ) : ℕ := (len - 1) / 3

/-- An ordered validator set whose fault tolerance respects the BFT bound. -/
structure ValidatorSet where
  validators : List ValidatorInfo
  faultTolerance : ℕ
  faultTolerance_le : faultTolerance ≤ maxFaultToleranceForLen validators.length
deriving DecidableEq

namespace ValidatorSet

def tryNew [Crypto] (validators : List ValidatorInfo) (faultTolerance : ℕ) :
    Except ConsensusError ValidatorSet :=
  if h : faultTolerance ≤ maxFaultToleranceForLen validators.length then
    match validators.findIdx? (fun v => !Crypto.validate v.blsPublicKey) with
    | some index => .error (.invalidValidatorPubkey index)
    | none => .ok ⟨validators, faultTolerance, h⟩
  else
    .error (.invalidValidatorSetParams validators.length faultTolerance
      (maxFaultToleranceForLen validators.length))

theorem tryNew_ok [Crypto] {validators : List ValidatorInfo} {faultTolerance : ℕ}
    {s : ValidatorSet} (h : tryNew validators faultTolerance = .ok s) :
    s.validators = validators ∧ s.faultTolerance = faultTolerance := by
  unfold tryNew at h
  split at h
  · split at h
    · cases h
    · cases h
      exact ⟨rfl, rfl⟩
  · cases h

variable (s : ValidatorSet)

def len : ℕ := s.validators.length

def quorumSize : ℕ := s.validators.length - s.faultTolerance

def keyAt (index : ℕ) : Option BlsPublicKey :=
  s.validators[index]?.map (·.blsPublicKey)

def getPublicKey (index : ℕ) : Except ConsensusError BlsPublicKey :=
  match s.keyAt index with
  | some pk => .ok pk
  | none => .error (.unknownValidator index s.len)

def indexOfPublicKey (pk : BlsPublicKey) : Option ℕ :=
  s.validators.findIdx? (fun v => v.blsPublicKey == pk)

def containsAddress (addr : Address) : Bool :=
  s.validators.any (fun v => v.address == addr)

structure IsQuorum (s : ValidatorSet) (signers : List Bool) : Prop where
  length_eq : signers.length = s.len
  quorum : s.quorumSize ≤ signers.count true

variable {s : ValidatorSet} {index : ℕ} {pk : BlsPublicKey}

theorem getPublicKey_eq_ok : s.getPublicKey index = .ok pk ↔ s.keyAt index = some pk := by
  unfold getPublicKey
  cases s.keyAt index <;> simp

theorem keyAt_eq_some :
    s.keyAt index = some pk ↔ ∃ h : index < s.len,
      (s.validators.get ⟨index, h⟩).blsPublicKey = pk := by
  simp [keyAt, len, List.getElem?_eq_some_iff]

theorem keyAt_of_indexOfPublicKey {s : ValidatorSet} {pk : BlsPublicKey} {i : ℕ}
    (h : s.indexOfPublicKey pk = some i) : s.keyAt i = some pk := by
  obtain ⟨hi, hpk, -⟩ := List.findIdx?_eq_some_iff_getElem.mp h
  exact keyAt_eq_some.mpr ⟨hi, by simpa using hpk⟩

/-- With fewer than a third of the validators faulty, two quorums share more than
`f` members, and a quorum has more than `f` of its own. -/
theorem quorum_overlap (hn : 0 < s.len) :
    s.len + s.faultTolerance < 2 * s.quorumSize ∧ s.faultTolerance < s.quorumSize := by
  have h := s.faultTolerance_le
  simp only [maxFaultToleranceForLen] at h
  simp only [quorumSize, len] at hn ⊢
  omega

end ValidatorSet

/-- `LeaderSelector::leader_for_view`. The source asserts that the set is not empty. -/
def leaderForView (view : ℕ) (s : ValidatorSet) : ℕ := view % s.len

end N42
