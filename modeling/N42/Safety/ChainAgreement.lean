import N42.Safety.Chain

/-!
Agreement on the chain, in the profiles that check a block's parent when its import is reported, and
in the native one, which leaves the parent to the proposer.
-/

namespace N42

open Lib

variable (parent : B256 → Option B256)

/-- Imports are reported with the true parent of the block, and no block has hash zero. -/
def Effect.TruthfulImport : Effect → Prop
  | .deliver (.blockImported _) => False
  | .deliver (.blockImportedWithParent b p) => b ≠ 0 ∧ p ≠ 0 ∧ IsParent parent p b
  | .approve _ b _ true => b ≠ 0
  | _ => True

/-- An honest leader proposes a child of the block that its lock certifies. -/
def Effect.LeaderExtends : Effect → Prop
  | .approve _ b justify true => 0 < justify.view → IsParent parent justify.blockHash b
  | _ => True

/-- A proposal carries a child of the block that its justification certifies. -/
def ConsensusMessage.Extends : ConsensusMessage → Prop
  | .proposal p => 0 < p.justifyQc.view → IsParent parent p.justifyQc.blockHash p.blockHash
  | _ => True

def Effect.ProposalsExtend : Effect → Prop
  | .deliver input => ∀ m ∈ input.messages, m.Extends parent
  | _ => True

instance (a b : B256) : Decidable (IsParent parent a b) :=
  inferInstanceAs (Decidable (parent b = some a))

instance : DecidablePred (Effect.TruthfulImport parent) := by
  intro effect
  unfold Effect.TruthfulImport
  split <;> infer_instance

instance : DecidablePred (Effect.LeaderExtends parent) := by
  intro effect
  unfold Effect.LeaderExtends
  split <;> infer_instance

instance : DecidablePred Effect.RestartsAboveVotes := by
  intro effect
  unfold Effect.RestartsAboveVotes
  split <;> infer_instance

instance : DecidablePred (ConsensusMessage.Extends parent) := by
  intro m
  unfold ConsensusMessage.Extends
  split <;> infer_instance

instance : DecidablePred (Effect.ProposalsExtend parent) := by
  intro effect
  unfold Effect.ProposalsExtend
  split <;> infer_instance

section ChainAgreement

variable [Crypto] {ι : Type} [DecidableEq ι] {d : Deployment ι} {set : ValidatorSet}
  {h : List (ι × Effect)} {parent : B256 → Option B256}

theorem voted_ne_zero (hl : Lawful (NetRule d) h) (hgov5 : d.profile.isGov5 = true)
    (himports : ∀ x ∈ h, x.2.TruthfulImport parent) {i : ι} {view : ℕ} {b : B256}
    (hb : (i, .first view b) ∈ ballots h) : b ≠ 0 := by
  obtain ⟨new, old, hsplit, -, -, -, justify, own, happrove, himport⟩ :=
    (valid_project hl i).exists_of_mem (release_of_first hb)
  have hmem : ∀ {x}, x ∈ old → (i, x) ∈ h := fun hx =>
    mem_project.mp (by rw [hsplit]; simp [hx])
  cases own with
  | true => exact himports _ (hmem (mem_of_mem_sinceBoot happrove))
  | false =>
    obtain ⟨report, hdel, -⟩ := himport rfl (by rw [d.profile_eq]; exact hgov5)
    cases report with
    | none => exact (himports _ (hmem hdel)).elim
    | some p => exact (himports _ (hmem hdel)).1

theorem certified_ne_zero (hfix : d.FixedSet set) (hl : Lawful (NetRule d) h)
    (hgov5 : d.profile.isGov5 = true) (himports : ∀ x ∈ h, x.2.TruthfulImport parent) {i : ι}
    {qc : QuorumCertificate} (hpos : 0 < qc.view) (hqc : Trusted (project i h) qc) :
    qc.blockHash ≠ 0 := by
  rcases hqc with hzero | hcertified
  · omega
  · have hcarried := carried_first_of_certified hfix hl hcertified
    obtain ⟨j, hj, -⟩ := hfix.quorums.inter hcarried hcarried
    exact voted_ne_zero hl hgov5 himports hj

theorem votesExtend_of_imports (hfix : d.FixedSet set) (hl : Lawful (NetRule d) h)
    (hgov5 : d.profile.isGov5 = true) (himports : ∀ x ∈ h, x.2.TruthfulImport parent)
    (hleaders : ∀ x ∈ h, x.2.LeaderExtends parent) : VotesExtend d parent h := by
  intro j log view b justify own hs happrove himport hpos
  have hlog : log <:+ project j h := (List.suffix_cons _ _).trans hs
  have hmem : ∀ {x}, x ∈ log → (j, x) ∈ h := fun hx => mem_project.mp (hlog.subset hx)
  cases own with
  | true => exact hleaders _ (hmem (mem_of_mem_sinceBoot happrove)) hpos
  | false =>
    have htrusted : Trusted (project j h) justify := by
      have hvalid : Valid (d.cfg j) log := (valid_project hl j).of_suffix hlog
      refine (hvalid.trusted_justify happrove).imp_right ?_
      rintro ⟨cert, used, known, hacc, hqc⟩
      exact ⟨cert, used, known, hlog.subset hacc, hqc⟩
    have hne := certified_ne_zero hfix hl hgov5 himports hpos htrusted
    obtain ⟨report, hdel, hreport⟩ := himport rfl hgov5
    cases report with
    | none => exact (himports _ (hmem hdel)).elim
    | some p =>
      obtain ⟨-, hp, hparent⟩ : b ≠ 0 ∧ p ≠ 0 ∧ IsParent parent p b := himports _ (hmem hdel)
      rcases hreport with hzero | hnone | hzero | heq
      · exact absurd hzero hne
      · cases hnone
      · exact absurd (Option.some.inj hzero) hp
      · exact Option.some.inj heq ▸ hparent

theorem votesExtend_of_proposals (hl : Lawful (NetRule d) h)
    (hproposals : ∀ x ∈ h, x.2.ProposalsExtend parent)
    (hleaders : ∀ x ∈ h, x.2.LeaderExtends parent) : VotesExtend d parent h := by
  intro j log view b justify own hs happrove _ hpos
  have hlog : log <:+ project j h := (List.suffix_cons _ _).trans hs
  have hmem : ∀ {x}, x ∈ log → (j, x) ∈ h := fun hx => mem_project.mp (hlog.subset hx)
  cases own with
  | true => exact hleaders _ (hmem (mem_of_mem_sinceBoot happrove)) hpos
  | false =>
    have hvalid : Valid (d.cfg j) log := (valid_project hl j).of_suffix hlog
    obtain ⟨new, old, hsplit, -, -, -, -, p, ⟨input, hdel, hin⟩, -, rfl, rfl⟩ :=
      hvalid.exists_of_mem (mem_of_mem_sinceBoot happrove)
    have hdel : .deliver input ∈ log := by
      rw [hsplit]
      simp [hdel]
    exact hproposals _ (hmem hdel) (.proposal p) hin hpos

end ChainAgreement

section Fork

/-- Blocks 6 and 7 are children of block 1, and blocks 8 and 9 are children of block 7. -/
def fork (b : B256) : Option B256 :=
  if b = 6 ∨ b = 7 then some 1 else if b = 8 ∨ b = 9 then some 7 else none

theorem fork_acyclic (a : B256) : ¬ Relation.TransGen (IsParent fork) a a := by
  have hlt : ∀ a b, IsParent fork a b → a.toNat < b.toNat := by
    intro a b hab
    unfold IsParent fork at hab
    split at hab
    · next h =>
      obtain rfl := Option.some.inj hab
      rcases h with rfl | rfl <;> decide
    · split at hab
      · next h =>
        obtain rfl := Option.some.inj hab
        rcases h with rfl | rfl <;> decide
      · cases hab
  intro ha
  have hself : Relation.TransGen (· < ·) a.toNat a.toNat := ha.lift BitVec.toNat hlt
  rw [Relation.transGen_eq_self] at hself
  exact lt_irrefl _ hself

theorem not_ancestor {parent : B256 → Option B256} {a b : B256} (hne : a ≠ b)
    (hup : ∀ c, parent b = some c → ¬ Relation.ReflTransGen (IsParent parent) a c) :
    ¬ Relation.ReflTransGen (IsParent parent) a b := by
  intro hab
  obtain rfl | ⟨c, hac, hparent⟩ := Relation.ReflTransGen.cases_tail hab
  · exact hne rfl
  · exact hup c hparent hac

theorem fork_siblings : ¬ OneChain (IsParent fork) 7 6 ∧ ¬ OneChain (IsParent fork) 8 9 := by
  have hroot : ∀ a, a ≠ 1 → ¬ Relation.ReflTransGen (IsParent fork) a 1 := fun a ha =>
    not_ancestor ha fun c hc => by cases hc
  have hstep : ∀ a b, a ≠ b → a ≠ 1 → fork b = some 1 →
      ¬ Relation.ReflTransGen (IsParent fork) a b := fun a b hab ha hb =>
    not_ancestor hab fun c hc => by
      obtain rfl := Option.some.inj (hb.symm.trans hc)
      exact hroot a ha
  have hleaf : ∀ a b, a ≠ b → a ≠ 7 → a ≠ 1 → fork b = some 7 →
      ¬ Relation.ReflTransGen (IsParent fork) a b := fun a b hab h7 ha hb =>
    not_ancestor hab fun c hc => by
      obtain rfl := Option.some.inj (hb.symm.trans hc)
      exact hstep a 7 h7 ha (by decide)
  refine ⟨not_or.mpr ⟨?_, ?_⟩, not_or.mpr ⟨?_, ?_⟩⟩
  · exact hstep 7 6 (by decide) (by decide) (by decide)
  · exact hstep 6 7 (by decide) (by decide) (by decide)
  · exact hleaf 8 9 (by decide) (by decide) (by decide) (by decide)
  · exact hleaf 9 8 (by decide) (by decide) (by decide) (by decide)

end Fork

section Runs

open Symbolic

def imports (b : B256) : Command :=
  .handle allDone (.blockImportedWithParent b ((fork b).getD 0))

variable (p : ConsensusSigningProfile)

def firstQc : QuorumCertificate := prepareQcBy p 4 [0, 1, 3] 1 7

/-- Validator 1 leads view 1, and block 7 is committed at every honest node. -/
def opening : List (QuadHonest × Command) :=
  let decision := deliver (decideFrom (commitQcBy p 4 [0, 1, 3] 1 7 0) 0)
  [(node0, .boot), (node1, .boot), (node3, .boot),
    (node1, .handle allDone (.blockReady 7 none)),
    (node0, deliver (proposalBy p 1 1 7 .genesis none)), (node0, imports 7),
    (node3, deliver (proposalBy p 1 1 7 .genesis none)), (node3, imports 7),
    (node1, deliver (voteBy p 0 0 1 7)), (node1, deliver (voteBy p 3 3 1 7)),
    (node0, deliver (prepareQcFrom (firstQc p))), (node3, deliver (prepareQcFrom (firstQc p))),
    (node1, deliver (commitVoteBy p 0 1 7)), (node1, deliver (commitVoteBy p 3 1 7)),
    (node0, decision), (node3, decision)]

/-- Validator 2, who is not honest, leads view 2 and has nodes 0 and 1 vote for a block. -/
def secondVotes (b : B256) : List (QuadHonest × Command) :=
  [(node0, deliver (proposalBy p 2 2 b (firstQc p) none)), (node0, imports b),
    (node1, deliver (proposalBy p 2 2 b (firstQc p) none)), (node1, imports b)]

/-- The same validator has the block certified and committed at nodes 0 and 1. -/
def secondCommit (b : B256) : List (QuadHonest × Command) :=
  let qc := prepareQcBy p 4 [0, 1, 2] 2 b
  let decision := deliver (decideFrom (commitQcBy p 4 [0, 1, 2] 2 b 0) 0)
  [(node0, deliver (prepareQcFrom qc)), (node1, deliver (prepareQcFrom qc)),
    (node0, decision), (node1, decision)]

/-- View 2 times out with its certificate withheld. Validator 3 leads view 3, and nodes 0 and
1 vote for a sibling of the block of view 2. -/
def thirdVotes : List (QuadHonest × Command) :=
  let tc := timeoutCertBy p 4 [0, 1, 3] 2 (firstQc p)
  let proposal := deliver (proposalBy p 3 3 9 (firstQc p) none)
  [(node0, .handle allDone .timeout), (node1, .handle allDone .timeout),
    (node3, .handle allDone .timeout),
    (node3, deliver (timeoutBy p 0 2 (firstQc p))), (node3, deliver (timeoutBy p 1 2 (firstQc p))),
    (node0, deliver (newViewBy p 3 tc)), (node1, deliver (newViewBy p 3 tc)),
    (node3, .handle allDone (.blockReady 9 none)),
    (node0, proposal), (node0, imports 9), (node1, proposal), (node1, imports 9),
    (node3, deliver (voteBy p 0 0 3 9)), (node3, deliver (voteBy p 1 1 3 9))]

def thirdCommit : List (QuadHonest × Command) :=
  let qc := prepareQcBy p 4 [0, 1, 3] 3 9
  [(node0, deliver (prepareQcFrom qc)), (node1, deliver (prepareQcFrom qc)),
    (node3, deliver (commitVoteBy p 0 3 9)), (node3, deliver (commitVoteBy p 1 3 9))]

/-- Nodes 0 and 1 save in view 2, vote in view 3, and restart in view 2, where they commit to
the block of that view after all. -/
def restartFork : List (QuadHonest × Command) :=
  opening p ++ secondVotes p 8 ++ [(node0, .save), (node1, .save)] ++ thirdVotes p ++
    [(node0, .crash), (node1, .crash), (node0, .boot), (node1, .boot)] ++
    secondCommit p 8 ++ thirdCommit p

/-- Block 7 is committed in view 1 and block `b` in view 2. -/
def twoCommits (b : B256) : List (QuadHonest × Command) :=
  opening p ++ secondVotes p b ++ secondCommit p b

end Runs

section ImportGated

variable [Crypto] {ι : Type} [DecidableEq ι] {d : Deployment ι} {set : ValidatorSet}
  {parent : B256 → Option B256}

/-- In the profiles that vote after import, committed blocks lie on one chain in every run
in which no node restarts below its recorded votes. -/
theorem chain_agreement_gov5 (hfix : d.FixedSet set) (hgov5 : d.profile.isGov5 = true) {net : Net ι}
    (hnet : net.Reachable d) (himports : ∀ x ∈ net.history, x.2.TruthfulImport parent)
    (hleaders : ∀ x ∈ net.history, x.2.LeaderExtends parent)
    (hrestarts : ∀ x ∈ net.history, x.2.RestartsAboveVotes) :
    ∀ i j v v' a b qc qc' changes changes' accepted accepted',
      .emit (.blockCommitted v a qc changes) accepted ∈ (net.node i).log →
      .emit (.blockCommitted v' b qc' changes') accepted' ∈ (net.node j).log →
      OneChain (IsParent parent) a b := by
  intro i j v v' a b qc qc' changes changes' accepted accepted' ha hb
  have hextend := votesExtend_of_imports hfix hnet.inv.lawful hgov5 himports hleaders
  exact committed_blocks_one_chain hfix hnet hrestarts hextend ha hb

end ImportGated

section ImportGatedRuns

open Symbolic

theorem twoCommits_gov5_extends :
    (netRun (quad .gov5Legacy 2) .down (twoCommits .gov5Legacy 8)).any (fun net =>
      (1, 7) ∈ announcedBlocks (net.node node1).log ∧
      (2, 8) ∈ announcedBlocks (net.node node0).log ∧
      (∀ x ∈ net.history, x.2.TruthfulImport fork) ∧
      (∀ x ∈ net.history, x.2.LeaderExtends fork) ∧
      ∀ x ∈ net.history, x.2.RestartsAboveVotes) = true := by decide +kernel

/-- With block 8 proposed on block 7, both are committed and the theorem puts them on one
chain. -/
theorem chain_agreement_gov5_of_twoCommits :
    ∃ net : Net QuadHonest, net.Reachable (quad .gov5Legacy 2) ∧
      (1, 7) ∈ announcedBlocks (net.node node1).log ∧
      (2, 8) ∈ announcedBlocks (net.node node0).log ∧ OneChain (IsParent fork) 7 8 := by
  obtain ⟨net, hreach, hcheck⟩ := exists_of_netRun (quad_keys .gov5Legacy 2) twoCommits_gov5_extends
  obtain ⟨hseven, height, himports, hleaders, hrestarts⟩ := of_decide_eq_true hcheck
  obtain ⟨qc, changes, hmem⟩ := mem_announcedBlocks hseven
  obtain ⟨qc', changes', hmem'⟩ := mem_announcedBlocks height
  exact ⟨net, hreach, hseven, height,
    chain_agreement_gov5 (quad_fixedSet .gov5Legacy 2) rfl hreach himports hleaders hrestarts
      _ _ _ _ _ _ _ _ _ _ _ _ hmem hmem'⟩

theorem restartFork_forks :
    (netRun (quad .gov5Legacy 2) .down (restartFork .gov5Legacy)).any (fun net =>
      (2, 8) ∈ announcedBlocks (net.node node0).log ∧
      (3, 9) ∈ announcedBlocks (net.node node3).log ∧
      (∀ x ∈ net.history, x.2.TruthfulImport fork) ∧
      ∀ x ∈ net.history, x.2.LeaderExtends fork) = true := by decide +kernel

/-- Two nodes that restart below their votes let two siblings be committed. -/
theorem siblings_committed_after_restart :
    (quad .gov5Legacy 2).FixedSet quadSet ∧ (∀ a, ¬ Relation.TransGen (IsParent fork) a a) ∧
      ∃ net : Net QuadHonest, net.Reachable (quad .gov5Legacy 2) ∧
        (∀ x ∈ net.history, x.2.TruthfulImport fork) ∧
        (∀ x ∈ net.history, x.2.LeaderExtends fork) ∧
        (∃ qc changes, .emit (.blockCommitted 2 8 qc changes) true ∈ (net.node node0).log) ∧
        (∃ qc changes, .emit (.blockCommitted 3 9 qc changes) true ∈ (net.node node3).log) ∧
        ¬ OneChain (IsParent fork) 8 9 := by
  obtain ⟨net, hreach, hcheck⟩ := exists_of_netRun (quad_keys .gov5Legacy 2) restartFork_forks
  obtain ⟨height, hnine, himports, hleaders⟩ := of_decide_eq_true hcheck
  exact ⟨quad_fixedSet .gov5Legacy 2, fork_acyclic, net, hreach, himports, hleaders,
    mem_announcedBlocks height, mem_announcedBlocks hnine, fork_siblings.2⟩

end ImportGatedRuns

section Optimistic

variable [Crypto] {ι : Type} [DecidableEq ι] {d : Deployment ι} {set : ValidatorSet}
  {parent : B256 → Option B256}

/-- Whatever the profile, committed blocks lie on one chain in every run in which every
proposal that reaches an honest engine carries a child of the block its justification
certifies, and no node restarts below its recorded votes. -/
theorem chain_agreement_of_proposals (hfix : d.FixedSet set) {net : Net ι}
    (hnet : net.Reachable d) (hproposals : ∀ x ∈ net.history, x.2.ProposalsExtend parent)
    (hleaders : ∀ x ∈ net.history, x.2.LeaderExtends parent)
    (hrestarts : ∀ x ∈ net.history, x.2.RestartsAboveVotes) :
    ∀ i j v v' a b qc qc' changes changes' accepted accepted',
      .emit (.blockCommitted v a qc changes) accepted ∈ (net.node i).log →
      .emit (.blockCommitted v' b qc' changes') accepted' ∈ (net.node j).log →
      OneChain (IsParent parent) a b := by
  intro i j v v' a b qc qc' changes changes' accepted accepted' ha hb
  have hextend := votesExtend_of_proposals hnet.inv.lawful hproposals hleaders
  exact committed_blocks_one_chain hfix hnet hrestarts hextend ha hb

end Optimistic

section NativeRuns

open Symbolic

theorem twoCommits_native_extends :
    (netRun (quad .native 2) .down (twoCommits .native 8)).any (fun net =>
      (1, 7) ∈ announcedBlocks (net.node node1).log ∧
      (2, 8) ∈ announcedBlocks (net.node node0).log ∧
      (∀ x ∈ net.history, x.2.ProposalsExtend fork) ∧
      (∀ x ∈ net.history, x.2.LeaderExtends fork) ∧
      ∀ x ∈ net.history, x.2.RestartsAboveVotes) = true := by decide +kernel

/-- With block 8 proposed on block 7, both are committed and the theorem puts them on one
chain. -/
theorem chain_agreement_of_proposals_twoCommits :
    ∃ net : Net QuadHonest, net.Reachable (quad .native 2) ∧
      (1, 7) ∈ announcedBlocks (net.node node1).log ∧
      (2, 8) ∈ announcedBlocks (net.node node0).log ∧ OneChain (IsParent fork) 7 8 := by
  obtain ⟨net, hreach, hcheck⟩ := exists_of_netRun (quad_keys .native 2) twoCommits_native_extends
  obtain ⟨hseven, height, hproposals, hleaders, hrestarts⟩ := of_decide_eq_true hcheck
  obtain ⟨qc, changes, hmem⟩ := mem_announcedBlocks hseven
  obtain ⟨qc', changes', hmem'⟩ := mem_announcedBlocks height
  exact ⟨net, hreach, hseven, height,
    chain_agreement_of_proposals (quad_fixedSet .native 2) hreach hproposals hleaders hrestarts
      _ _ _ _ _ _ _ _ _ _ _ _ hmem hmem'⟩

theorem twoCommits_native_forks :
    (netRun (quad .native 2) .down (twoCommits .native 6)).any (fun net =>
      (1, 7) ∈ announcedBlocks (net.node node1).log ∧
      (2, 6) ∈ announcedBlocks (net.node node0).log ∧
      (∀ x ∈ net.history, x.2.LeaderExtends fork) ∧
      ∀ x ∈ net.history, x.2.RestartsAboveVotes) = true := by decide +kernel

/-- In the native profile one leader that builds on a stale parent is enough: its block is
committed beside the one its justification certifies, without any restart. -/
theorem siblings_committed_natively :
    (quad .native 2).FixedSet quadSet ∧
      ∃ net : Net QuadHonest, net.Reachable (quad .native 2) ∧
        (∀ x ∈ net.history, x.2.LeaderExtends fork) ∧
        (∀ x ∈ net.history, x.2.RestartsAboveVotes) ∧
        (∃ qc changes, .emit (.blockCommitted 1 7 qc changes) true ∈ (net.node node1).log) ∧
        (∃ qc changes, .emit (.blockCommitted 2 6 qc changes) true ∈ (net.node node0).log) ∧
        ¬ OneChain (IsParent fork) 7 6 := by
  obtain ⟨net, hreach, hcheck⟩ := exists_of_netRun (quad_keys .native 2) twoCommits_native_forks
  obtain ⟨hseven, hsix, hleaders, hrestarts⟩ := of_decide_eq_true hcheck
  exact ⟨quad_fixedSet .native 2, net, hreach, hleaders, hrestarts, mem_announcedBlocks hseven,
    mem_announcedBlocks hsix, fork_siblings.1⟩

end NativeRuns

end N42
