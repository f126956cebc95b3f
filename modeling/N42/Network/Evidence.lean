import N42.Lib.LockedVoting
import N42.Network.Net
import N42.Audit.Epochs

/-!
What certificates prove in a network with a fixed validator set: the honest validators among the
signers have all made the claim the certificate attests.
-/

namespace N42

open Lib List

variable [Crypto] {ι : Type} [DecidableEq ι] {d : Deployment ι} {h : List (ι × Effect)}

/-- All nodes are configured with one set and without epochs, and all but at most `f` of its
validators are honest nodes. -/
structure Deployment.FixedSet (d : Deployment ι) (set : ValidatorSet) : Prop where
  nonempty : 0 < set.len
  set_eq : ∀ i, (d.cfg i).initialValidatorSet = set
  noEpochs : ∀ i, (d.cfg i).epochLength = 0
  registered : ∀ k pk, set.keyAt k = some pk → d.registered pk
  faulty : ∃ faulty : Finset ℕ, faulty.card ≤ set.faultTolerance ∧
    ∀ k < set.len, k ∉ faulty → ∃ i, set.keyAt k = some (d.key i)

variable {item : Item}

theorem Valid.item_view_le_max {cfg : NodeConfig} {log : List Effect} (hv : Valid cfg log)
    (hmem : .release item ∈ log) : item.view ≤ u64Max := by
  obtain ⟨new, old, -, hold, hrule⟩ := hv.exists_of_mem hmem
  have hmax := (Valid.view_le_max hold).1
  cases item with
  | proposal view blockHash changes => exact hrule.1.le.trans hmax
  | vote view blockHash => exact hrule.2.1.le.trans hmax
  | commitVote view blockHash changesHash => exact hrule.2.1.le.trans hmax
  | timeout view => exact (show view = _ from hrule).le.trans hmax
  | newView view => exact hrule

theorem Deployment.Signed.claimed {i : ι} (item : Item) (hl : Lawful (NetRule d) h)
    (hs : d.Signed h i (item.message d.profile)) (hview : item.view ≤ u64Max) :
    Claimed (project i h) item.claim := by
  obtain ⟨item', hmem, hmessage⟩ := hs
  have hrelease := mem_project.mpr hmem
  have hview' := (valid_project hl i).item_view_le_max hrelease
  exact ⟨item', Item.message_injective hview' hview hmessage, hrelease⟩

variable {m : ConsensusMessage}

theorem genuine_of_delivered {i : ι} (hl : Lawful (NetRule d) h) (hm : Delivered (project i h) m)
    {signature : BlsSignature} (hs : signature ∈ m.signatures) : d.Genuine h signature := by
  obtain ⟨input, hmem, hin⟩ := hm
  obtain ⟨new, old, rfl, -, -, hgenuine⟩ := hl.exists_of_mem (mem_project.mp hmem)
  exact (hgenuine input rfl m hin signature hs).mono fun x hx => by simp [hx]

/-- A signature that a node received and verified under the key of an honest node is that
node's. -/
theorem signed_of_received {i j : ι} (hl : Lawful (NetRule d) h) {old : List Effect}
    {s : ValidatorSet} {k : ℕ} (hold : old <:+ project i h)
    (hreceived : ∃ m sig pk, Delivered old m ∧ m.signature? = some sig ∧ s.keyAt k = some pk ∧
      (d.cfg i).signingProfile.verifySingle pk (item.message (d.cfg i).signingProfile) sig = true)
    (hkey : s.keyAt k = some (d.key j)) : d.Signed h j (item.message d.profile) := by
  obtain ⟨m, signature, pk, ⟨input, hmem, hin⟩, hsig, hpk, hverify⟩ := hreceived
  obtain rfl : d.key j = pk := Option.some.inj (hkey.symm.trans hpk)
  have hdelivered : Delivered (project i h) m := ⟨input, hold.subset hmem, hin⟩
  have hcarried : signature ∈ m.signatures := by simp [ConsensusMessage.signatures, hsig]
  rw [d.profile_eq] at hverify
  exact (genuine_of_delivered hl hdelivered hcarried).single j _ hverify

/-- A vote or proposal that a node checked under the key of an honest node is that node's. -/
theorem signed_of_share {i j : ι} (hl : Lawful (NetRule d) h) {s : ValidatorSet} {k : ℕ}
    (hs : .share s k item ∈ project i h) (hitem : ∀ view, item ≠ .timeout view)
    (hkey : s.keyAt k = some (d.key j)) : d.Signed h j (item.message d.profile) := by
  obtain ⟨new, old, hsplit, -, hbacked, -, -⟩ := (valid_project hl i).exists_of_mem hs
  have hold : old <:+ project i h :=
    hsplit ▸ (suffix_cons _ _).trans (suffix_append _ _)
  rcases hbacked with hreceived | ⟨view, rfl, -⟩
  · exact signed_of_received hl hold hreceived hkey
  · exact absurd rfl (hitem view)

/-- A quorum of signers, of which the honest ones have made the claim. -/
structure Deployment.Backs (d : Deployment ι) (set : ValidatorSet) (h : List (ι × Effect))
    (signers : List Bool) (claim : Claim) : Prop where
  quorum : set.IsQuorum signers
  claimed : ∀ k, signers[k]? = some true → ∀ i, set.keyAt k = some (d.key i) →
    Claimed (project i h) claim

variable {signers : List Bool}

theorem claimed_of_aggregateSigned {set : ValidatorSet} {signature : BlsSignature} (item : Item)
    (hl : Lawful (NetRule d) h) (hset : ∀ k pk, set.keyAt k = some pk → d.registered pk)
    (hagg : AggregateSigned d.profile set signers signature (item.message d.profile))
    (hg : d.Genuine h signature) (hview : item.view ≤ u64Max) (k : ℕ) (hk : signers[k]? = some true)
    (i : ι) (hi : set.keyAt k = some (d.key i)) : Claimed (project i h) item.claim := by
  obtain ⟨pks, hverify, hkeys⟩ := hagg
  obtain ⟨pk, hpk, hkey⟩ := hkeys.complete k (mem_signerIndices.mpr hk)
  obtain rfl : d.key i = pk := Option.some.inj (hi.symm.trans hkey)
  have hreg : ∀ pk ∈ pks, d.registered pk := by
    intro pk hpk
    obtain ⟨k', hk'⟩ := hkeys.registered pk hpk
    exact hset k' pk hk'
  exact (hg.aggregate pks _ hreg hverify i hpk).claimed _ hl hview

theorem backs_of_aggregateSigned {set : ValidatorSet} {signature : BlsSignature} (item : Item)
    (hl : Lawful (NetRule d) h) (hfix : d.FixedSet set) (hquorum : set.IsQuorum signers)
    (hagg : AggregateSigned d.profile set signers signature (item.message d.profile))
    (hg : d.Genuine h signature) (hview : item.view ≤ u64Max) :
    d.Backs set h signers item.claim :=
  ⟨hquorum, claimed_of_aggregateSigned item hl hfix.registered hagg hg hview⟩

def Certificate.signature : Certificate → BlsSignature
  | .prepare qc => qc.aggregateSignature
  | .commit qc _ => qc.aggregateSignature
  | .anyDomain qc _ => qc.aggregateSignature
  | .timeout tc => tc.aggregateSignature

theorem backs_of_verify {set : ValidatorSet} (cert : Certificate) (hl : Lawful (NetRule d) h)
    (hfix : d.FixedSet set) (hverify : cert.verify set d.profile = .ok ())
    (hg : d.Genuine h cert.signature) (hview : cert.view ≤ u64Max) :
    ∃ claim, cert.Attests claim ∧ d.Backs set h cert.signers claim := by
  cases cert with
  | prepare qc =>
    obtain ⟨hquorum, hagg⟩ := verifyQcWithProfile_ok hverify
    exact ⟨_, .prepare qc,
      backs_of_aggregateSigned (.vote qc.view qc.blockHash) hl hfix hquorum hagg hg hview⟩
  | commit qc changesHash =>
    obtain ⟨hquorum, hagg⟩ := verifyCommitQcWithProfile_ok hverify
    exact ⟨_, .commit qc changesHash, backs_of_aggregateSigned
      (.commitVote qc.view qc.blockHash changesHash) hl hfix hquorum hagg hg hview⟩
  | anyDomain qc changesHash =>
    obtain ⟨hquorum, hagg | hagg⟩ := verifyQcAnyDomainWithProfile_ok hverify
    · exact ⟨_, .anyFirst qc changesHash,
        backs_of_aggregateSigned (.vote qc.view qc.blockHash) hl hfix hquorum hagg hg hview⟩
    · exact ⟨_, .anySecond qc changesHash, backs_of_aggregateSigned
        (.commitVote qc.view qc.blockHash changesHash) hl hfix hquorum hagg hg hview⟩
  | timeout tc =>
    obtain ⟨hquorum, hagg⟩ := verifyTcWithProfile_ok hverify
    exact ⟨_, .timeout tc,
      backs_of_aggregateSigned (.timeout tc.view) hl hfix hquorum hagg hg hview⟩

variable {cert : Certificate}

omit [Crypto] in
theorem Certificate.signature_mem (hc : cert.CarriedBy m) : cert.signature ∈ m.signatures := by
  simp only [ConsensusMessage.signatures, mem_append, mem_map]
  cases cert with
  | timeout tc => exact .inr (.inr ⟨tc, hc, rfl⟩)
  | prepare qc => exact .inr (.inl ⟨qc, hc, rfl⟩)
  | commit qc changesHash => exact .inr (.inl ⟨qc, hc, rfl⟩)
  | anyDomain qc changesHash => exact .inr (.inl ⟨qc, hc, rfl⟩)

omit [Crypto] in
theorem Certificate.view_le_max (hc : cert.CarriedBy m) (hm : m.Wire) : cert.view ≤ u64Max := by
  cases cert with
  | timeout tc => exact hm.2.2 tc hc
  | prepare qc => exact hm.2.1 qc hc
  | commit qc changesHash => exact hm.2.1 qc hc
  | anyDomain qc changesHash => exact hm.2.1 qc hc

namespace Deployment.FixedSet

variable {set : ValidatorSet} {i j : ι}

variable {log : List Effect} {k : ℕ} {s : ValidatorSet} {claim : Claim}

section

variable (hfix : d.FixedSet set)
include hfix

section

omit [DecidableEq ι]

variable (hv : Valid (d.cfg i) log)
include hv

theorem sets (view : ℕ) :
    (coreOf (d.cfg i) log).epochs.validatorSetForView view = set ∧
      (coreOf (d.cfg i) log).epochs.knownValidatorSetForView view = some set := by
  rw [← hfix.set_eq i]
  exact hv.sets_of_disabled (hfix.noEpochs i) view

theorem keyAt_own (hown : IsOwnIndex (d.cfg i) (coreOf (d.cfg i) log) k) :
    set.keyAt k = some (d.key i) := by
  have hactive := hv.active_of_disabled (hfix.noEpochs i)
  have hindex := hown (congrArg Prod.fst hactive)
  have hset : (coreOf (d.cfg i) log).epochs.currentSet = set :=
    (congrArg (·.2.2) hactive).trans (hfix.set_eq i)
  rw [hset] at hindex
  exact ValidatorSet.keyAt_of_indexOfPublicKey hindex

theorem eq_of_keyAt_own (hown : IsOwnIndex (d.cfg i) (coreOf (d.cfg i) log) k)
    (hkey : set.keyAt k = some (d.key j)) :
    i = j :=
  d.key_injective i j (Option.some.inj ((hfix.keyAt_own hv hown).symm.trans hkey))

end

section

variable (hl : Lawful (NetRule d) h)
include hl

theorem set_of_share (hs : .share s k item ∈ project i h) : s = set := by
  obtain ⟨new, old, -, hold, -, -, hset⟩ := (valid_project hl i).exists_of_mem hs
  rcases hset with hcurrent | ⟨-, hknown⟩
  · exact hcurrent.set_eq.trans (hfix.sets hold _).1
  · exact Option.some.inj (hknown.symm.trans (hfix.sets hold _).2)

theorem keyAt_of_share (hs : .share s k item ∈ project i h) : ∃ pk, set.keyAt k = some pk := by
  obtain rfl := hfix.set_of_share hl hs
  obtain ⟨new, old, -, hold, hbacked, -, -⟩ := (valid_project hl i).exists_of_mem hs
  rcases hbacked with ⟨m, signature, pk, -, -, hpk, -⟩ | ⟨view, -, -, hown⟩
  · exact ⟨pk, hpk⟩
  · exact ⟨_, hfix.keyAt_own hold hown⟩

/-- A signature that a node counted at the index of an honest validator is that
validator's. -/
theorem claimed_of_share (hs : .share s k item ∈ project i h)
    (hkey : set.keyAt k = some (d.key j)) : Claimed (project j h) item.claim := by
  obtain rfl := hfix.set_of_share hl hs
  obtain ⟨new, old, hsplit, hvalid, hbacked, hview, -⟩ := (valid_project hl i).exists_of_mem hs
  have hold : old <:+ project i h :=
    hsplit ▸ (suffix_cons _ _).trans (suffix_append _ _)
  rcases hbacked with hreceived | ⟨view, rfl, hrelease, hown⟩
  · exact (signed_of_received hl hold hreceived hkey).claimed _ hl hview
  · obtain rfl : i = j := hfix.eq_of_keyAt_own hvalid hown hkey
    exact ⟨_, rfl, hold.subset hrelease⟩

theorem claimed_of_counted (hc : Counted (project i h) k claim)
    (hkey : set.keyAt k = some (d.key j)) : Claimed (project j h) claim := by
  obtain ⟨item, rfl, ⟨s, hshare⟩ | hown⟩ := hc
  · exact hfix.claimed_of_share hl hshare hkey
  · obtain ⟨new, old, hsplit, hold, hhead, hindex⟩ := (valid_project hl i).exists_of_mem hown
    obtain rfl : i = j := hfix.eq_of_keyAt_own hold hindex hkey
    exact ⟨item, rfl, by rw [hsplit]; simp [mem_of_head? hhead]⟩

end

theorem backs_of_accept {used : ValidatorSet} {known : Option ValidatorSet}
    (hl : Lawful (NetRule d) ((i, .accept cert used known) :: h)) :
    ∃ claim, cert.Attests claim ∧ d.Backs set h cert.signers claim := by
  have htail := hl.tail_of_cons
  have hvalid := valid_project htail i
  obtain ⟨⟨hknown, hhow, hset⟩, -⟩ := hl.rule_of_cons
  obtain rfl : used = set := by
    rcases hset with hk | hcurrent | ⟨hused, -⟩
    · exact Option.some.inj (hk.symm.trans (hknown.trans (hfix.sets hvalid _).2))
    · exact hcurrent.set_eq.trans (hfix.sets hvalid _).1
    · exact hused.trans (hfix.sets hvalid _).1
  rcases hhow with ⟨⟨m, hm, hcarried⟩, hverify⟩ | ⟨hquorum, claim, hattests, hcounted⟩
  · rw [d.profile_eq] at hverify
    exact backs_of_verify cert htail hfix hverify
      (genuine_of_delivered htail hm (Certificate.signature_mem hcarried))
      (Certificate.view_le_max hcarried (hvalid.wire hm))
  · exact ⟨claim, hattests, hquorum,
      fun k hk j hkey => hfix.claimed_of_counted htail (hcounted k hk) hkey⟩

end

theorem honest_of_backs (hfix : d.FixedSet set) (hb : d.Backs set h signers claim) :
    ∃ i k, set.keyAt k = some (d.key i) ∧ Claimed (project i h) claim := by
  obtain ⟨faulty, hcard, hhonest⟩ := hfix.faulty
  have hoverlap := (set.quorum_overlap hfix.nonempty).2
  have hquorum := hb.quorum.quorum
  rw [← card_members] at hquorum
  obtain ⟨k, hk, hgood⟩ := Finset.exists_mem_notMem_of_card_lt_card
    (by omega : faulty.card < (members signers).card)
  have hlt := Finset.mem_range.mp (members_subset_range _ hk)
  rw [hb.quorum.length_eq] at hlt
  obtain ⟨i, hi⟩ := hhonest k hlt hgood
  exact ⟨i, k, hi, hb.claimed k (mem_members.mp hk) i hi⟩

/-- The quorums of the set, by the honest nodes they must contain. -/
def quorums (hfix : d.FixedSet set) : QuorumSystem ι where
  IsQuorum S := ∃ signers, set.IsQuorum signers ∧
    ∀ k, signers[k]? = some true → ∀ i, set.keyAt k = some (d.key i) → i ∈ S
  mono := by
    rintro S T ⟨signers, hquorum, hmem⟩ hsub
    exact ⟨signers, hquorum, fun k hk i hi => hsub (hmem k hk i hi)⟩
  inter := by
    rintro S T ⟨A, hA, hS⟩ ⟨B, hB, hT⟩
    obtain ⟨faulty, hcard, hhonest⟩ := hfix.faulty
    have hoverlap := (set.quorum_overlap hfix.nonempty).1
    have hqa := hA.quorum
    have hqb := hB.quorum
    rw [← card_members] at hqa hqb
    have hrange : ∀ {bits : List Bool}, set.IsQuorum bits → members bits ⊆ Finset.range set.len :=
      fun hq => hq.length_eq ▸ members_subset_range _
    obtain ⟨k, hka, hkb, hgood⟩ := exists_common_notMem faulty (hrange hA) (hrange hB)
      (by rw [Finset.card_range]; omega)
    obtain ⟨i, hi⟩ := hhonest k (Finset.mem_range.mp (hrange hA hka)) hgood
    exact ⟨i, hS k (mem_members.mp hka) i hi, hT k (mem_members.mp hkb) i hi⟩

theorem isQuorum_of_backs (hfix : d.FixedSet set) (hb : d.Backs set h signers claim) :
    hfix.quorums.IsQuorum {i | Claimed (project i h) claim} :=
  ⟨signers, hb.quorum, hb.claimed⟩

theorem honest_common (hfix : d.FixedSet set) {h' : List (ι × Effect)} {A B : List Bool}
    {a b : Claim} (ha : d.Backs set h A a) (hb : d.Backs set h' B b) :
    ∃ i, Claimed (project i h) a ∧ Claimed (project i h') b :=
  hfix.quorums.inter (hfix.isQuorum_of_backs ha) (hfix.isQuorum_of_backs hb)

end Deployment.FixedSet

end N42
