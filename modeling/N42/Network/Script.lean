import N42.Network.Evidence
import N42.Symbolic.Scheme
import Mathlib.Data.Fintype.Basic

/-!
Scripts for a network under the symbolic signature scheme, and a deployment of four
validators of which one is not honest.
-/

namespace N42

open Lib Option

namespace Symbolic

variable {ι : Type} [DecidableEq ι] [Fintype ι] {d : Deployment ι} {h : List (ι × Effect)}

def signedBytes (d : Deployment ι) (h : List (ι × Effect)) (i : ι) : List Bytes :=
  (releasedItems (project i h)).map (·.message d.profile)

/-- Every honest node that a signature names has signed its message. -/
def signatureGenuine (d : Deployment ι) (h : List (ι × Effect)) (signature : BlsSignature) : Bool :=
  match decode signature with
  | none => true
  | some (_, signers, message) =>
    decide (∀ i, (d.key i).toBytes ⊆ signers → message ∈ signedBytes d h i)

def effectGenuine (d : Deployment ι) (h : List (ι × Effect)) : Effect → Bool
  | .deliver input => input.messages.all fun m => m.signatures.all (signatureGenuine d h)
  | _ => true

omit [Fintype ι] in
theorem signed_of_mem_signedBytes {i : ι} {message : Bytes} (hm : message ∈ signedBytes d h i) :
    d.Signed h i message := by
  obtain ⟨item, hitem, rfl⟩ := List.mem_map.mp hm
  exact ⟨item, mem_project.mp (mem_releasedItems.mp hitem), rfl⟩

theorem genuine_of_signatureGenuine (hkeys : ∀ i, (d.key i).toBytes.length < 256)
    {signature : BlsSignature} (hs : signatureGenuine d h signature = true) :
    d.Genuine h signature := by
  have hsigned : ∀ suite signers message, decode signature = some (suite, signers, message) →
      ∀ i, (d.key i).toBytes ⊆ signers → d.Signed h i message := by
    intro suite signers message hdecode i hi
    rw [signatureGenuine, hdecode] at hs
    exact signed_of_mem_signedBytes (of_decide_eq_true hs i hi)
  refine ⟨fun i message hv => ?_, fun pks message _ hv i hi => ?_⟩
  · have hsignature := congrArg decode (of_decide_eq_true hv)
    exact hsigned _ _ _ (hsignature.trans (decode_encode (hkeys i))) i (List.Subset.refl _)
  · obtain ⟨signers, hdecode, hsub⟩ := decode_of_fastAggregateVerify hv
    exact hsigned _ _ _ hdecode i (hsub _ hi)

def netExec (d : Deployment ι) (net : Net ι) (i : ι) (c : Command) : Option (Net ι) :=
  ((net.node i).exec (d.cfg i) c).bind fun node =>
    let new := node.log.take (node.log.length - (net.node i).log.length)
    if new.all (effectGenuine d net.history) then
      some ⟨Function.update net.node i node, new.map (i, ·) ++ net.history⟩
    else none

def netRun (d : Deployment ι) (net : Net ι) : List (ι × Command) → Option (Net ι)
  | [] => some net
  | (i, c) :: script => (netExec d net i c).bind fun net => netRun d net script

section

variable (hkeys : ∀ i, (d.key i).toBytes.length < 256)
include hkeys

theorem netExec_step {net net' : Net ι} {i : ι} {c : Command} (hnet : NetInv d net)
    (hexec : netExec d net i c = some net') : NetStep d net net' := by
  obtain ⟨node, hnode, hexec⟩ := bind_eq_some_iff.mp hexec
  obtain ⟨hgenuine, heq⟩ := ite_none_right_eq_some.mp hexec
  obtain rfl := Option.some.inj heq
  have hinv := (hnet.nodes i).inv
  have hstep := Node.exec_step hinv hnode
  refine .step i hstep (List.suffix_iff_eq_append.mp (hstep.log_suffix hinv)).symm ?_
  intro input hmem m hm signature hs
  have hinput := List.all_eq_true.mp hgenuine _ hmem
  exact genuine_of_signatureGenuine hkeys
    (List.all_eq_true.mp (List.all_eq_true.mp hinput m hm) signature hs)

variable {script : List (ι × Command)}

theorem netRun_reachable {net net' : Net ι} (hnet : net.Reachable d)
    (hrun : netRun d net script = some net') : net'.Reachable d := by
  induction script generalizing net with
  | nil =>
    obtain rfl := Option.some.inj hrun
    exact hnet
  | cons x script ih =>
    obtain ⟨next, hexec, hrest⟩ := bind_eq_some_iff.mp hrun
    exact ih (hnet.tail (netExec_step hkeys hnet.inv hexec)) hrest

theorem exists_of_netRun {P : Net ι → Bool} (h : (netRun d .down script).any P = true) :
    ∃ net : Net ι, net.Reachable d ∧ P net = true := by
  obtain ⟨net, hnet, hcheck⟩ := (any_eq_true _ _).mp h
  exact ⟨net, netRun_reachable hkeys .refl hnet, hcheck⟩

end

section Messages

def deliver (m : ConsensusMessage) : Command := .handle allDone (.message m)

variable (p : ConsensusSigningProfile)

def signedBy (signers : List ℕ) (message : Bytes) : BlsSignature :=
  encode (suiteByte p.ciphersuite) (signers.map UInt8.ofNat) message

variable (size : ℕ) (signers : List ℕ)

def bitmap : List Bool :=
  (List.range size).map fun k => decide (k ∈ signers)

def prepareQcBy (view : ℕ) (blockHash : B256) : QuorumCertificate where
  view := view
  blockHash := blockHash
  aggregateSignature := signedBy p signers (p.voteMessage view blockHash)
  signers := bitmap size signers

def commitQcBy (view : ℕ) (blockHash changesHash : B256) : QuorumCertificate where
  view := view
  blockHash := blockHash
  aggregateSignature := signedBy p signers (p.commitMessage view blockHash changesHash)
  signers := bitmap size signers

def proposalBy (k view : ℕ) (blockHash : B256) (justifyQc : QuorumCertificate)
    (changes : Option (List ValidatorChange)) : ConsensusMessage :=
  .proposal {
    view, blockHash, justifyQc
    proposer := k
    signature := signedBy p [k] (p.proposalMessage view blockHash changes)
    prepareQc := none
    txRootHash := none
    validatorChanges := changes }

/-- A vote of the owner of key `k` that claims to come from the validator at `index`. -/
def voteBy (k index view : ℕ) (blockHash : B256) : ConsensusMessage :=
  .vote {
    view, blockHash
    voter := index
    signature := signedBy p [k] (p.voteMessage view blockHash) }

def commitVoteBy (k view : ℕ) (blockHash : B256) : ConsensusMessage :=
  .commitVote {
    view, blockHash
    voter := k
    signature := signedBy p [k] (p.commitMessage view blockHash 0) }

def prepareQcFrom (qc : QuorumCertificate) : ConsensusMessage :=
  .prepareQc { view := qc.view, blockHash := qc.blockHash, qc }

def decideFrom (commitQc : QuorumCertificate) (changesHash : B256) : ConsensusMessage :=
  .decide {
    view := commitQc.view
    blockHash := commitQc.blockHash
    commitQc
    validatorChangesHash := changesHash }

def timeoutBy (k view : ℕ) (highQc : QuorumCertificate) : ConsensusMessage :=
  .timeout {
    view, highQc
    sender := k
    signature := signedBy p [k] (p.timeoutMessage view) }

def timeoutCertBy (view : ℕ) (highQc : QuorumCertificate) : TimeoutCertificate where
  view := view
  aggregateSignature := signedBy p signers (p.timeoutMessage view)
  signers := bitmap size signers
  highQc := highQc

def newViewBy (k : ℕ) (tc : TimeoutCertificate) : ConsensusMessage :=
  .newView {
    view := tc.view + 1
    timeoutCert := tc
    leader := k
    signature := signedBy p [k] (p.newViewMessage (tc.view + 1)) }

end Messages

def quadSet : ValidatorSet := ⟨[validator 0, validator 1, validator 2, validator 3], 1, by decide⟩

theorem quadSet_keyAt : ∀ k : Fin 4, quadSet.keyAt k = some ⟨[UInt8.ofNat k]⟩ := by decide

variable (profile : ConsensusSigningProfile)

def quadConfig (k : ℕ) : NodeConfig where
  secretKey := secret k
  signingProfile := profile
  initialValidatorSet := quadSet
  generatedValidators := false
  epochLength := 0
  maxHistoricalEpochs := 8

/-- Validators 0 to 3, all honest but one. -/
def quad (faulty : Fin 4) : Deployment {k : Fin 4 // k ≠ faulty} where
  cfg k := quadConfig profile k.1
  profile := profile
  profile_eq _ := rfl
  key_injective i j hij := by
    have hbyte : UInt8.ofNat i.1 = UInt8.ofNat j.1 := by
      simpa [Crypto.publicKey, quadConfig, secret] using hij
    have hnat := congrArg UInt8.toNat hbyte
    simp only [UInt8.toNat_ofNat'] at hnat
    exact Subtype.ext (Fin.ext (by omega))
  registered _ := True

/-! The honest nodes where validator 2 is faulty. -/

abbrev QuadHonest := {k : Fin 4 // k ≠ 2}

def node0 : QuadHonest := ⟨0, by decide⟩

def node1 : QuadHonest := ⟨1, by decide⟩

def node3 : QuadHonest := ⟨3, by decide⟩

theorem quad_fixedSet (faulty : Fin 4) : (quad profile faulty).FixedSet quadSet where
  nonempty := by decide
  set_eq _ := rfl
  noEpochs _ := rfl
  registered _ _ _ := trivial
  faulty := by
    refine ⟨{faulty.1}, (Finset.card_singleton _).le, fun k hk hgood => ?_⟩
    have hne : (⟨k, hk⟩ : Fin 4) ≠ faulty := by
      rintro rfl
      simp at hgood
    exact ⟨⟨⟨k, hk⟩, hne⟩, quadSet_keyAt ⟨k, hk⟩⟩

theorem quad_keys (faulty : Fin 4) (i) : ((quad profile faulty).key i).toBytes.length < 256 := by
  show 1 < 256
  omega

end Symbolic

end N42
