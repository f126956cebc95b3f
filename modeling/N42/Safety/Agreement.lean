import N42.Network.Script

/-!
Agreement within a view, and the reasons for entering one.

Two quorums share an honest validator, which votes for one block in a view, and a quorum has an
honest member, which was in the view it signed for.
-/

namespace N42

open Lib

section Agreement

variable [Crypto] {ι : Type} [DecidableEq ι] {d : Deployment ι} {set : ValidatorSet}
  {h h' : List (ι × Effect)}

omit [Crypto] in
theorem Claimed.mono {log log' : List Effect} {claim : Claim} (hc : Claimed log claim)
    (hs : log <:+ log') : Claimed log' claim := by
  obtain ⟨item, hclaim, hmem⟩ := hc
  exact ⟨item, hclaim, hs.subset hmem⟩

theorem Deployment.Backs.mono {signers : List Bool} {claim : Claim}
    (hb : d.Backs set h signers claim) (hs : h <:+ h') : d.Backs set h' signers claim :=
  ⟨hb.quorum, fun k hk i hi => (hb.claimed k hk i hi).mono (project_suffix hs)⟩

section

variable (hfix : d.FixedSet set)
include hfix

theorem second_agreement (hl : Lawful (NetRule d) h) {A B : List Bool} {view : ℕ} {a b : B256}
    (ha : d.Backs set h A (.second view a)) (hb : d.Backs set h B (.second view b)) : a = b := by
  obtain ⟨i, hia, hib⟩ := hfix.honest_common ha hb
  exact (valid_project hl i).second_unique hia hib

theorem backs_of_mem_accept (hl : Lawful (NetRule d) h) {i : ι}
    {cert : Certificate} {used : ValidatorSet} {known : Option ValidatorSet}
    (hacc : .accept cert used known ∈ project i h) :
    ∃ claim, cert.Attests claim ∧ d.Backs set h cert.signers claim := by
  obtain ⟨new, old, rfl⟩ := List.append_of_mem (mem_project.mp hacc)
  obtain ⟨claim, hattests, hb⟩ := hfix.backs_of_accept hl.of_append
  exact ⟨claim, hattests, hb.mono ((List.suffix_cons _ _).trans (List.suffix_append _ _))⟩

theorem backs_of_committed (hl : Lawful (NetRule d) h) {i : ι} {view : ℕ} {blockHash : B256}
    {qc : QuorumCertificate} {changes : Option (List ValidatorChange)} {accepted : Bool}
    (hemit : .emit (.blockCommitted view blockHash qc changes) accepted ∈ project i h) :
    d.Backs set h qc.signers (.second view blockHash) := by
  obtain ⟨new, old, hsplit, -, rfl, rfl, changesHash, used, known, hacc⟩ :=
    (valid_project hl i).exists_of_mem hemit
  have hacc : .accept (.commit qc changesHash) used known ∈ project i h := by
    rw [hsplit]
    simp [hacc]
  obtain ⟨claim, hattests, hb⟩ := backs_of_mem_accept hfix hl hacc
  cases hattests with
  | commit => exact hb

end

/-- In every run no two certificates of one view and round are for different blocks, and no
two honest engines announce different blocks of one view. -/
theorem single_view_agreement (hfix : d.FixedSet set) {net : Net ι} (hnet : net.Reachable d) :
    (∀ qc qc' : QuorumCertificate, qc.view ≤ u64Max → qc.view = qc'.view →
      d.Genuine net.history qc.aggregateSignature → d.Genuine net.history qc'.aggregateSignature →
      verifyQcWithProfile qc set d.profile = .ok () →
      verifyQcWithProfile qc' set d.profile = .ok () → qc.blockHash = qc'.blockHash) ∧
    (∀ (qc qc' : QuorumCertificate) (changesHash changesHash' : B256), qc.view ≤ u64Max →
      qc.view = qc'.view →
      d.Genuine net.history qc.aggregateSignature → d.Genuine net.history qc'.aggregateSignature →
      verifyCommitQcWithProfile qc set changesHash d.profile = .ok () →
      verifyCommitQcWithProfile qc' set changesHash' d.profile = .ok () →
      qc.blockHash = qc'.blockHash) ∧
    ∀ i j view a b qc qc' changes changes' accepted accepted',
      .emit (.blockCommitted view a qc changes) accepted ∈ (net.node i).log →
      .emit (.blockCommitted view b qc' changes') accepted' ∈ (net.node j).log → a = b := by
  have hl := hnet.inv.lawful
  refine ⟨fun qc qc' hmax hview hg hg' hv hv' => ?_,
    fun qc qc' ch ch' hmax hview hg hg' hv hv' => ?_,
    fun i j view a b qc qc' changes changes' accepted accepted' ha hb => ?_⟩
  · obtain ⟨_, ⟨⟩, hb⟩ := backs_of_verify (.prepare qc) hl hfix hv hg hmax
    obtain ⟨_, ⟨⟩, hb'⟩ := backs_of_verify (.prepare qc') hl hfix hv' hg' (hview.ge.trans hmax)
    rw [← hview] at hb'
    obtain ⟨i, hi, hi'⟩ := hfix.honest_common hb hb'
    exact (valid_project hl i).first_unique hi hi'
  · obtain ⟨_, ⟨⟩, hb⟩ := backs_of_verify (.commit qc ch) hl hfix hv hg hmax
    obtain ⟨_, ⟨⟩, hb'⟩ := backs_of_verify (.commit qc' ch') hl hfix hv' hg' (hview.ge.trans hmax)
    rw [← hview] at hb'
    exact second_agreement hfix hl hb hb'
  · rw [hnet.inv.log_eq] at ha hb
    exact second_agreement hfix hl (backs_of_committed hfix hl ha) (backs_of_committed hfix hl hb)

end Agreement

section FourValidators

open Symbolic

/-- A view in which validator 1 leads, with validator 2 silent. -/
def quadCommit : List (QuadHonest × Command) :=
  let p := ConsensusSigningProfile.native
  let qc := prepareQcBy p 4 [0, 1, 3] 1 7
  [(node0, .boot), (node1, .boot), (node3, .boot),
    (node1, .handle allDone (.blockReady 7 none)),
    (node0, deliver (proposalBy p 1 1 7 .genesis none)),
    (node3, deliver (proposalBy p 1 1 7 .genesis none)),
    (node1, deliver (voteBy p 0 0 1 7)),
    (node1, deliver (voteBy p 3 3 1 7)),
    (node0, deliver (prepareQcFrom qc)),
    (node3, deliver (prepareQcFrom qc)),
    (node1, deliver (commitVoteBy p 0 1 7)),
    (node1, deliver (commitVoteBy p 3 1 7))]

theorem quadCommit_commits :
    (netRun (quad .native 2) .down quadCommit).any (fun net =>
      signatureGenuine (quad .native 2) net.history
        (prepareQcBy .native 4 [1, 2, 3] 1 7).aggregateSignature ∧
      signatureGenuine (quad .native 2) net.history
        (commitQcBy .native 4 [0, 1, 2] 1 7 0).aggregateSignature ∧
      (1, 7) ∈ announcedBlocks (net.node ⟨1, by decide⟩).log) = true := by decide +kernel

/-- In that run block 7 has a certificate of each round and is announced; so a certificate
of view 1, in either round, and an announcement of view 1 can only be for block 7. -/
theorem single_view_agreement_of_quadCommit :
    ∃ net : Net {k : Fin 4 // k ≠ 2}, net.Reachable (quad .native 2) ∧
      (∀ qc : QuorumCertificate, qc.view = 1 →
        (quad .native 2).Genuine net.history qc.aggregateSignature →
        verifyQcWithProfile qc quadSet .native = .ok () → qc.blockHash = 7) ∧
      (∀ (qc : QuorumCertificate) (changesHash : B256), qc.view = 1 →
        (quad .native 2).Genuine net.history qc.aggregateSignature →
        verifyCommitQcWithProfile qc quadSet changesHash .native = .ok () → qc.blockHash = 7) ∧
      ∀ j b qc changes accepted,
        .emit (.blockCommitted 1 b qc changes) accepted ∈ (net.node j).log → b = 7 := by
  obtain ⟨net, hreach, hcheck⟩ := exists_of_netRun (quad_keys .native 2) quadCommit_commits
  obtain ⟨hprepare, hcommit, hannounced⟩ := of_decide_eq_true hcheck
  have hfix := quad_fixedSet .native 2
  obtain ⟨hfirst, hsecond, hemit⟩ := single_view_agreement hfix hreach
  refine ⟨net, hreach, fun qc hview hg hv => ?_, fun qc changesHash hview hg hv => ?_,
    fun j b qc changes accepted hmem => ?_⟩
  · exact hfirst qc (prepareQcBy .native 4 [1, 2, 3] 1 7) (by rw [hview]; decide) hview hg
      (genuine_of_signatureGenuine (quad_keys .native 2) hprepare) hv (by decide)
  · exact hsecond qc (commitQcBy .native 4 [0, 1, 2] 1 7 0) changesHash 0 (by rw [hview]; decide)
      hview hg
      (genuine_of_signatureGenuine (quad_keys .native 2) hcommit) hv (by decide)
  · obtain ⟨qc', changes', hmem'⟩ := mem_announcedBlocks hannounced
    exact hemit j ⟨1, by decide⟩ 1 b 7 qc qc' changes changes' accepted true hmem hmem'

end FourValidators

end N42
