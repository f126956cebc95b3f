import N42.Network.Script

/-!
What becomes of committed validator changes.

The staged set is built from the active one, so a second list of the same epoch replaces the first
instead of adding to it.
-/

namespace N42

open Lib List Option EpochManager

def addedBy (changes : List ValidatorChange) : List ValidatorInfo :=
  changes.filterMap fun
    | .add address blsPublicKey p2pPeerId => some ⟨address, blsPublicKey, p2pPeerId⟩
    | .remove _ => none

def removedBy (changes : List ValidatorChange) : List Address :=
  changes.filterMap fun
    | .add .. => none
    | .remove address => some address

def applyChanges (set : List ValidatorInfo × ℕ) (changes : List ValidatorChange) :
    List ValidatorInfo × ℕ :=
  let members := EpochManager.rebuild set.1 (addedBy changes) (removedBy changes)
  (members, maxFaultToleranceForLen members.length)

def ValidatorSet.content (set : ValidatorSet) : List ValidatorInfo × ℕ :=
  (set.validators, set.faultTolerance)

variable {em : EpochManager}

namespace EpochManager

/-- What the next boundary will activate. -/
def outlook (em : EpochManager) : List ValidatorInfo × ℕ :=
  (em.nextSet.getD em.currentSet).content

theorem pending_of_proposal {changes : List ValidatorChange}
    (h : em.pendingChangesForProposal = some changes) :
    addedBy changes = em.pendingAdds ∧ removedBy changes = em.pendingRemoves := by
  unfold pendingChangesForProposal at h
  split at h
  · obtain rfl := Option.some.inj h
    simp [addedBy, removedBy]
  · cases h

def stagedList [Crypto] (em : EpochManager) : List (List ValidatorChange) :=
  match em.commitPendingChanges with
  | .ok _ => em.pendingChangesForProposal.toList
  | .error _ => []

theorem outlook_commitPending [Crypto] (hnone : em.nextSet = none) :
    (EpochOp.commitPending.apply em).outlook = em.stagedList.foldl applyChanges em.outlook := by
  unfold stagedList EpochOp.apply
  cases hcommit : em.commitPendingChanges with
  | error err => rfl
  | ok em' =>
    obtain ⟨hempty, rfl⟩ | ⟨hsome, next, -, hnext, hfault, rfl⟩ := commitPendingChanges_ok hcommit
    · rw [pendingChangesForProposal, hempty]
      rfl
    · obtain ⟨changes, hlist⟩ : ∃ changes, em.pendingChangesForProposal = some changes := by
        rw [pendingChangesForProposal, hsome]
        exact ⟨_, rfl⟩
      obtain ⟨hadds, hremoves⟩ := pending_of_proposal hlist
      simp [Except.toOption, outlook, hnone, hlist, applyChanges, hadds, hremoves,
        ValidatorSet.content, hnext, hfault]

/-- Nothing but a commit of pending changes or a boundary changes the outlook. -/
theorem outlook_apply [Crypto] {op : EpochOp} (hcommit : op ≠ .commitPending)
    (hadvance : op ≠ .advance) (hcarry : op ≠ .carry) : (op.apply em).outlook = em.outlook := by
  cases op with
  | replacePending changes => rfl
  | commitPending => exact absurd rfl hcommit
  | advance => exact absurd rfl hadvance
  | carry => exact absurd rfl hcarry
  | proposeAdd info => exact keeps_getD fun em' h => by rw [proposeAddValidator_ok h]; rfl
  | proposeRemove address => exact keeps_getD fun em' h => by rw [proposeRemoveValidator_ok h]; rfl

end EpochManager

section Run

variable [Crypto] {cfg : NodeConfig} {log : List Effect}

/-- The change lists staged since the epoch began or the process started, oldest first. -/
def committedInEpoch (cfg : NodeConfig) : List Effect → List (List ValidatorChange)
  | [] => []
  | .epoch .commitPending :: log => committedInEpoch cfg log ++ (coreOf cfg log).epochs.stagedList
  | .epoch .advance :: _ => []
  | .epoch .carry :: _ => []
  | .boot _ :: _ => []
  | _ :: log => committedInEpoch cfg log

/-- The set those lists are to be applied to: the active set, or the one that the process
found staged in its snapshot. -/
def epochBase (cfg : NodeConfig) : List Effect → List ValidatorInfo × ℕ
  | [] => (Core.initial cfg).epochs.outlook
  | .epoch .advance :: log => (coreOf cfg (.epoch .advance :: log)).epochs.outlook
  | .epoch .carry :: log => (coreOf cfg (.epoch .carry :: log)).epochs.outlook
  | .boot core :: _ => core.epochs.outlook
  | _ :: log => epochBase cfg log

def StagedOnce (cfg : NodeConfig) (log : List Effect) : Prop :=
  ∀ old, .epoch .commitPending :: old <:+ log → (coreOf cfg old).epochs.nextSet = none

theorem outlook_eq (honce : StagedOnce cfg log) :
    (coreOf cfg log).epochs.outlook =
      (committedInEpoch cfg log).foldl applyChanges (epochBase cfg log) := by
  induction log with
  | nil => rfl
  | cons x log ih =>
    have ih := ih fun old hs => honce old (hs.trans (suffix_cons _ _))
    cases x with
    | epoch op =>
      cases op with
      | commitPending =>
        have hbase : epochBase cfg (.epoch .commitPending :: log) = epochBase cfg log := rfl
        rw [committedInEpoch, hbase, foldl_append, ← ih]
        exact outlook_commitPending (honce log (suffix_refl _))
      | advance => rfl
      | carry => rfl
      | replacePending changes => exact ih
      | proposeAdd info =>
        exact (outlook_apply (by simp) (by simp) (by simp)).trans ih
      | proposeRemove address =>
        exact (outlook_apply (by simp) (by simp) (by simp)).trans ih
    | boot core => rfl
    | _ => exact ih

omit [Crypto] in
theorem EpochManager.advanceEpoch_content (h : em.hasStagedNext = true) :
    em.advanceEpoch.currentSet.content = em.outlook ∧ em.advanceEpoch.nextSet = none := by
  obtain ⟨next, hnext⟩ := isSome_iff_exists.mp h
  simp [advanceEpoch, outlook, hnext]

omit [Crypto] in
theorem EpochManager.carryEpochForward_content (h : ¬ em.hasStagedNext = true) :
    em.carryEpochForward.currentSet.content = em.outlook ∧ em.carryEpochForward.nextSet = none := by
  have hnone : em.nextSet = none := by simpa [hasStagedNext] using h
  unfold carryEpochForward
  split <;> exact ⟨by simp [outlook, hnone], hnone⟩

theorem Valid.boundary_content {op : EpochOp} (hv : Valid cfg (.epoch op :: log))
    (hop : op = .advance ∨ op = .carry) :
    (coreOf cfg (.epoch op :: log)).epochs.currentSet.content =
      (coreOf cfg log).epochs.outlook ∧
    (coreOf cfg (.epoch op :: log)).epochs.nextSet = none := by
  have hrule := hv.rule_of_cons
  obtain rfl | rfl := hop
  · exact advanceEpoch_content hrule.2
  · exact carryEpochForward_content hrule.2

/-- Unless a set was found staged at a start, the lists are applied to the active set. -/
theorem Valid.epochBase_eq (hv : Valid cfg log)
    (hclean : ∀ core, .boot core ∈ log → core.epochs.nextSet = none) :
    epochBase cfg log = (coreOf cfg log).epochs.currentSet.content := by
  induction hv with
  | nil => rfl
  | @cons log x tail allowed ih =>
    have hv : Valid cfg (x :: log) := .cons tail allowed
    have ih := ih fun core hmem => hclean core (mem_cons_of_mem _ hmem)
    have hkeep : ∀ op : EpochOp, op ≠ .advance → op ≠ .carry → x = .epoch op →
        (coreOf cfg (x :: log)).epochs.currentSet = (coreOf cfg log).epochs.currentSet := by
      rintro op hadvance hcarry rfl
      exact congrArg (·.2.2) (EpochOp.apply_active (coreOf cfg log).epochs op hadvance hcarry)
    cases x with
    | epoch op =>
      cases op with
      | advance =>
        obtain ⟨-, hnone⟩ := hv.boundary_content (.inl rfl)
        rw [epochBase, outlook, hnone]
        rfl
      | carry =>
        obtain ⟨-, hnone⟩ := hv.boundary_content (.inr rfl)
        rw [epochBase, outlook, hnone]
        rfl
      | replacePending changes => exact ih
      | commitPending => rw [hkeep _ (by simp) (by simp) rfl]; exact ih
      | proposeAdd info => rw [hkeep _ (by simp) (by simp) rfl]; exact ih
      | proposeRemove address => rw [hkeep _ (by simp) (by simp) rfl]; exact ih
    | boot core =>
      have hnone := hclean core mem_cons_self
      rw [epochBase, outlook, hnone]
      rfl
    | _ => exact ih

end Run

section Runs

open Symbolic

instance [Crypto] (cfg : NodeConfig) (log : List Effect) : Decidable (StagedOnce cfg log) :=
  decidable_of_iff (∀ l ∈ log.tails, l.head?.all fun
      | .epoch .commitPending => (coreOf cfg l.tail).epochs.nextSet = none
      | _ => true) <| by
    simp only [mem_tails]
    constructor
    · intro h old hs
      exact of_decide_eq_true (h _ hs)
    · intro h l hs
      cases l with
      | nil => rfl
      | cons x old =>
        cases x with
        | epoch op =>
          cases op with
          | commitPending => exact decide_eq_true (h old hs)
          | _ => rfl
        | _ => rfl

def beforeBoundary : List Effect → Option (List Effect)
  | [] => none
  | .epoch .advance :: old => some old
  | _ :: log => beforeBoundary log

theorem beforeBoundary_suffix {log old : List Effect} (h : beforeBoundary log = some old) :
    .epoch .advance :: old <:+ log := by
  induction log with
  | nil => cases h
  | cons x log ih =>
    unfold beforeBoundary at h
    split at h
    · cases h
    · next heq =>
      obtain ⟨rfl, rfl⟩ := List.cons.inj heq
      obtain rfl := Option.some.inj h
      exact suffix_refl _
    · next heq =>
      obtain ⟨rfl, rfl⟩ := List.cons.inj heq
      exact (ih h).trans (suffix_cons _ _)

def changesConfig : NodeConfig := { quadConfig .native 0 with epochLength := 4 }

def addition (k : ℕ) : List ValidatorChange := [.add (validator k).address ⟨[UInt8.ofNat k]⟩ none]

/-- An epoch in which the validator with key 4 is added in view 1, and `second` is committed
in view 2. The next epoch begins with view 5. -/
def changesScript (second : Option (List ValidatorChange)) : List Command :=
  let p := ConsensusSigningProfile.native
  let hash₁ := hashChanges (addition 4)
  let hash₂ := validatorChangesHash second
  let qc₁ := commitQcBy p 4 [1, 2, 3] 1 21 hash₁
  [.boot, deliver (proposalBy p 1 1 21 .genesis (some (addition 4))),
    deliver (decideFrom qc₁ hash₁),
    deliver (proposalBy p 2 2 22 qc₁ second),
    deliver (decideFrom (commitQcBy p 4 [1, 2, 3] 2 22 hash₂) hash₂),
    deliver (decideFrom (commitQcBy p 4 [1, 2, 3] 3 23 0) 0),
    deliver (decideFrom (commitQcBy p 4 [1, 2, 3] 4 24 0) 0)]

theorem changesScript_once :
    (Node.run changesConfig .down (changesScript none)).any (fun node =>
      StagedOnce changesConfig node.log ∧
      (beforeBoundary node.log).any fun old =>
        committedInEpoch changesConfig old = [addition 4] ∧
        epochBase changesConfig old = quadSet.content) = true := by decide +kernel

theorem changesScript_twice :
    (Node.run changesConfig .down (changesScript (some (addition 5)))).any (fun node =>
      (beforeBoundary node.log).any fun old =>
        committedInEpoch changesConfig old = [addition 4, addition 5] ∧
        (coreOf changesConfig old).epochs.currentSet = quadSet ∧
        (coreOf changesConfig (.epoch .advance :: old)).epochs.currentSet.content ≠
          [addition 4, addition 5].foldl applyChanges quadSet.content ∧
        validator 4 ∉
          (coreOf changesConfig (.epoch .advance :: old)).epochs.currentSet.validators) = true := by
  decide +kernel

end Runs

end N42
