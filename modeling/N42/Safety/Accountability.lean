import N42.Network.Script

/-!
No honest validator is accused of equivocation, as long as no output about an epoch is lost.
-/

namespace N42

open Lib

section Accountability

variable [Crypto] {ι : Type} [DecidableEq ι] {d : Deployment ι} {h : List (ι × Effect)}

theorem exists_proposal_of_signed {j : ι} {view : ℕ} {b : B256}
    {changes : Option (List ValidatorChange)} (hp : d.profile = .native) (hl : Lawful (NetRule d) h)
    (hview : view ≤ u64Max) (hs : d.Signed h j (d.profile.proposalMessage view b changes)) :
    ∃ changes', .release (.proposal view b changes') ∈ project j h ∧
      d.profile.proposalMessage view b changes' = d.profile.proposalMessage view b changes := by
  obtain ⟨item, hmem, hmessage⟩ := hs
  have hrelease := mem_project.mpr hmem
  have hmessage' : item.message d.profile = (Item.proposal view b changes).message d.profile :=
    hmessage
  have hview' : (Item.proposal view b changes).view ≤ u64Max := hview
  have hclaim := Item.message_injective ((valid_project hl j).item_view_le_max hrelease) hview'
    hmessage'
  have hlen := congrArg List.length hmessage'
  rw [Item.message_length, Item.message_length, hp] at hlen
  cases item with
  | proposal view' b' changes' =>
    obtain ⟨rfl, rfl⟩ := Claim.first.inj hclaim
    exact ⟨changes', hrelease, hmessage⟩
  | _ => simp at hlen

/-- An honest node signs the bytes of one proposal in a view. -/
theorem proposalMessage_unique (hl : Lawful (NetRule d) h) {j : ι} {view : ℕ} {a b : B256}
    {ca cb : Option (List ValidatorChange)} (hview : view ≤ u64Max)
    (ha : d.Signed h j (d.profile.proposalMessage view a ca))
    (hb : d.Signed h j (d.profile.proposalMessage view b cb)) :
    d.profile.proposalMessage view a ca = d.profile.proposalMessage view b cb := by
  have hvalid := valid_project hl j
  obtain rfl : a = b := hvalid.first_unique (ha.claimed (.proposal view a ca) hl hview)
    (hb.claimed (.proposal view b cb) hl hview)
  cases hp : d.profile with
  -- the gov5 profiles leave the changes out of the signed bytes
  | gov5Legacy => rfl
  | h2V4 identity => rfl
  | native =>
    obtain ⟨ca', hra, hma⟩ := exists_proposal_of_signed hp hl hview ha
    obtain ⟨cb', hrb, hmb⟩ := exists_proposal_of_signed hp hl hview hb
    obtain ⟨-, rfl⟩ := hvalid.proposal_unique hra hrb
    rw [← hp, ← hma, ← hmb]

theorem no_conflict (hl : Lawful (NetRule d) h) {j : ι} {a b : Item} (hview : a.view ≤ u64Max)
    (ha : d.Signed h j (a.message d.profile)) (hb : d.Signed h j (b.message d.profile)) :
    ¬ Conflict d.profile a b := by
  have hvalid := valid_project hl j
  intro hconflict
  cases hconflict with
  | @vote view x y hne =>
    exact hne (hvalid.first_unique (ha.claimed (.vote view x) hl hview)
      (hb.claimed (.vote view y) hl hview))
  | @commitVote view x y cx cy hne =>
    exact hne (hvalid.second_unique (ha.claimed (.commitVote view x cx) hl hview)
      (hb.claimed (.commitVote view y cy) hl hview))
  | proposal hne => exact hne (proposalMessage_unique hl hview ha hb)

theorem Conflict.not_timeout {p : ConsensusSigningProfile} {a b : Item} (hc : Conflict p a b) :
    (∀ view, a ≠ .timeout view) ∧ ∀ view, b ≠ .timeout view := by
  cases hc <;> simp

/-- A share of the current view was checked against the set that the view still has. -/
theorem Valid.share_set {cfg : NodeConfig} {log : List Effect} {s : ValidatorSet} {k : ℕ}
    {item : Item} (hv : Valid cfg log) (hkept : ¬ EpochOutputLost log)
    (hs : .share s k item ∈ sinceBoot log) (hitem : ∀ view, item ≠ .timeout view)
    (hview : item.view = (coreOf cfg log).view) (hsteady : (coreOf cfg log).Steady) :
    s = (coreOf cfg log).epochs.validatorSetForView item.view ∧ item.view ≤ u64Max := by
  obtain ⟨old, hg⟩ := grows_of_mem_sinceBoot hs
  have hrule : Rule cfg old (.share s k item) := (hv.of_suffix hg.suffix).rule_of_cons
  obtain ⟨-, hmax, hcurrent | ⟨⟨view, rfl⟩, -⟩⟩ := hrule
  · have hgrow : Grows old log := (Grows.cons old (by simp)).trans hg
    exact ⟨hv.set_of_isCurrentSet hgrow hkept hcurrent hview hsteady, hmax⟩
  · exact absurd rfl (hitem view)

end Accountability

section OneEquivocator

open Symbolic

/-- The view and the validator of an accusation that was just made, and the log before. -/
def accusation : List Effect → Option ((ℕ × ℕ) × List Effect)
  | .emit (.equivocationDetected view k _ _) _ :: old => some ((view, k), old)
  | _ => none

theorem accusation_eq_some {log old : List Effect} {view k : ℕ}
    (h : accusation log = some ((view, k), old)) :
    ∃ hash1 hash2 accepted,
      log = .emit (.equivocationDetected view k hash1 hash2) accepted :: old := by
  unfold accusation at h
  split at h
  · obtain ⟨⟨rfl, rfl⟩, rfl⟩ : (_ ∧ _) ∧ _ := by simpa using h
    exact ⟨_, _, _, rfl⟩
  · cases h

/-- Validator 2 votes for two blocks in the view that validator 1 leads. -/
def quadEquivocation : List (QuadHonest × Command) :=
  [(node1, .boot),
    (node1, deliver (voteBy .native 2 2 1 7)),
    (node1, deliver (voteBy .native 2 2 1 8))]

theorem quadEquivocation_accuses :
    (netRun (quad .native 2) .down quadEquivocation).any (fun net =>
      (accusation (net.node ⟨1, by decide⟩).log).any fun a =>
        a.1 = (1, 2) ∧ ¬ EpochOutputLost a.2) = true := by decide

end OneEquivocator

section LostOutput

open Symbolic

def member (address key : ℕ) : ValidatorInfo where
  address := BitVec.ofNat 160 address
  blsPublicKey := ⟨[UInt8.ofNat key]⟩
  p2pPeerId := none

def sevenSet : ValidatorSet :=
  ⟨[member 10 0, member 20 1, member 40 2, member 50 3, member 60 4, member 70 5, member 80 6], 2,
    by decide⟩

/-- Epochs of four views, of which only the latest one is kept after it ends. -/
def sevenConfig (k : ℕ) : NodeConfig where
  secretKey := secret k
  signingProfile := .native
  initialValidatorSet := sevenSet
  generatedValidators := false
  epochLength := 4
  maxHistoricalEpochs := 1

/-- Only the validators with keys 1 and 3 are honest. -/
def pair : Deployment Bool where
  cfg leader := sevenConfig (if leader then 3 else 1)
  profile := .native
  profile_eq _ := rfl
  key_injective i j hij := by
    cases i <;> cases j <;> first | rfl | exact absurd hij (by decide)
  registered _ := True

/-- Adds a validator and removes the first, which moves key 1 from index 1 to index 0. -/
def rotation : List ValidatorChange :=
  [.add (BitVec.ofNat 160 30) ⟨[7]⟩ none, .remove (BitVec.ofNat 160 10)]

/-- The keys of the validators that are not honest: a quorum of their own. -/
def adversary : List ℕ := [0, 2, 4, 5, 6]

def adversaryCommits (view : ℕ) (blockHash : B256) (changes : List ValidatorChange) :
    ConsensusMessage :=
  decideFrom (commitQcBy .native 7 adversary view blockHash (hashChanges changes))
    (hashChanges changes)

/-- The leader of view 3 has a change of the set staged and has seen a vote at index 0 for
block 99. A certificate of view 9 makes it cross two epoch boundaries; the output about the
second is lost, so it stays in view 3, but with the new set. Then the honest validator's
vote for block 3, presented with index 0, passes under the key that is now at index 0. -/
def lostOutputScript : List (Bool × Command) :=
  let p := ConsensusSigningProfile.native
  let justify1 := commitQcBy p 7 adversary 1 1 0
  let justify2 := commitQcBy p 7 adversary 2 2 (hashChanges rotation)
  let losing : Env := ⟨fun length => if length = 40 then .failed else .done, id⟩
  [(true, .boot), (false, .boot),
    (true, deliver (adversaryCommits 1 1 [])), (false, deliver (adversaryCommits 1 1 [])),
    (true, deliver (proposalBy p 2 2 2 justify1 (some rotation))),
    (true, deliver (adversaryCommits 2 2 rotation)),
    (false, deliver (adversaryCommits 2 2 rotation)),
    (true, .handle allDone (.blockReady 3 none)),
    (false, deliver (proposalBy p 3 3 3 justify2 none)),
    (true, deliver (voteBy p 0 0 3 99)),
    (true, .handle losing (.message (prepareQcFrom (prepareQcBy p 7 adversary 9 9)))),
    (true, deliver (voteBy p 1 0 3 3))]

theorem lostOutputScript_accuses :
    (netRun pair .down lostOutputScript).any (fun net =>
      (accusation (net.node true).log).any fun a => a.1 = (3, 0) ∧
        ((coreOf (pair.cfg true) a.2).epochs.validatorSetForView 3).keyAt 0 =
          some (pair.key false)) = true := by decide +kernel

end LostOutput

section Forks

variable [Crypto] {ι : Type} [DecidableEq ι] {d : Deployment ι} {set : ValidatorSet}

/-- At least `n - 2 f` positions that both bitmaps name, and none of them an honest node's. -/
def Exposes (d : Deployment ι) (set : ValidatorSet) (A B : List Bool) (double : Finset ℕ) : Prop :=
  set.len ≤ double.card + 2 * set.faultTolerance ∧
    ∀ k ∈ double, A[k]? = some true ∧ B[k]? = some true ∧ ∀ i, set.keyAt k ≠ some (d.key i)

omit [DecidableEq ι] in
theorem exposes_of_quorums {A B : List Bool} (hA : set.IsQuorum A) (hB : set.IsQuorum B)
    (hnone : ∀ k, A[k]? = some true → B[k]? = some true → ∀ i, set.keyAt k ≠ some (d.key i)) :
    Exposes d set A B (members A ∩ members B) := by
  have hunion : (members A ∪ members B).card ≤ set.len := by
    rw [← Finset.card_range set.len]
    exact Finset.card_le_card (Finset.union_subset (hA.length_eq ▸ members_subset_range A)
      (hB.length_eq ▸ members_subset_range B))
  have hsum := Finset.card_union_add_card_inter (members A) (members B)
  have hqa := hA.quorum
  have hqb := hB.quorum
  rw [← card_members, ValidatorSet.quorumSize, ← ValidatorSet.len] at hqa hqb
  refine ⟨by omega, fun k hk => ?_⟩
  obtain ⟨ha, hb⟩ := Finset.mem_inter.mp hk
  rw [mem_members] at ha hb
  exact ⟨ha, hb, hnone k ha hb⟩

/-- However many validators are faulty, two valid certificates of one view and round for different
blocks expose by their signers alone validators that signed both. -/
theorem fork_exposes_validators (hset : ∀ k pk, set.keyAt k = some pk → d.registered pk)
    {net : Net ι} (hnet : net.Reachable d) {qc qc' : QuorumCertificate} (hmax : qc.view ≤ u64Max)
    (hview : qc.view = qc'.view) (hne : qc.blockHash ≠ qc'.blockHash)
    (hg : d.Genuine net.history qc.aggregateSignature)
    (hg' : d.Genuine net.history qc'.aggregateSignature)
    (hround : (verifyQcWithProfile qc set d.profile = .ok () ∧
        verifyQcWithProfile qc' set d.profile = .ok ()) ∨
      ∃ changesHash changesHash', verifyCommitQcWithProfile qc set changesHash d.profile = .ok () ∧
        verifyCommitQcWithProfile qc' set changesHash' d.profile = .ok ()) :
    ∃ double, Exposes d set qc.signers qc'.signers double := by
  have hl := hnet.inv.lawful
  have hmax' : qc'.view ≤ u64Max := hview ▸ hmax
  refine ⟨members qc.signers ∩ members qc'.signers, ?_⟩
  rcases hround with ⟨hv, hv'⟩ | ⟨changesHash, changesHash', hv, hv'⟩
  · obtain ⟨hquorum, hagg⟩ := verifyQcWithProfile_ok hv
    obtain ⟨hquorum', hagg'⟩ := verifyQcWithProfile_ok hv'
    refine exposes_of_quorums hquorum hquorum' fun k hk hk' i hi => hne ?_
    have hclaim := claimed_of_aggregateSigned (.vote _ _) hl hset hagg hg hmax k hk i hi
    have hclaim' := claimed_of_aggregateSigned (.vote _ _) hl hset hagg' hg' hmax' k hk' i hi
    rw [← hview] at hclaim'
    exact (valid_project hl i).first_unique hclaim hclaim'
  · obtain ⟨hquorum, hagg⟩ := verifyCommitQcWithProfile_ok hv
    obtain ⟨hquorum', hagg'⟩ := verifyCommitQcWithProfile_ok hv'
    refine exposes_of_quorums hquorum hquorum' fun k hk hk' i hi => hne ?_
    have hclaim := claimed_of_aggregateSigned (.commitVote _ _ _) hl hset hagg hg hmax k hk i hi
    have hclaim' :=
      claimed_of_aggregateSigned (.commitVote _ _ _) hl hset hagg' hg' hmax' k hk' i hi
    rw [← hview] at hclaim'
    exact (valid_project hl i).second_unique hclaim hclaim'

end Forks

open Symbolic in
/-- Five of seven validators certify two blocks: at least three are exposed. -/
theorem fork_exposes_validators_of_adversary :
    ∃ double, Exposes pair sevenSet (prepareQcBy .native 7 adversary 1 7).signers
      (prepareQcBy .native 7 adversary 1 8).signers double :=
  fork_exposes_validators (fun _ _ _ => trivial) .refl (by decide) rfl (by decide)
    (genuine_of_signatureGenuine (by decide) (by decide))
    (genuine_of_signatureGenuine (by decide) (by decide))
    (.inl ⟨by decide +kernel, by decide⟩)

end N42
