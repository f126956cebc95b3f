import N42.Safety.Agreement

/-!
Committed blocks lie on one chain: the network refines the protocol of `Lib.LockedVoting` as long as
no node restarts below its recorded votes and every block voted for is a child of the block its
justification certifies.
-/

namespace N42

open Lib List

section Refinement

variable [Crypto] {ι : Type} [DecidableEq ι] {d : Deployment ι} {set : ValidatorSet}
  {h : List (ι × Effect)} {i j : ι} {cfg : NodeConfig} {log : List Effect}

def Effect.ballot : Effect → Option (Ballot B256)
  | .release (.vote view blockHash) => some (.first view blockHash)
  | .release (.commitVote view blockHash _) => some (.second view blockHash)
  | _ => none

def ballots (h : List (ι × Effect)) : List (ι × Ballot B256) :=
  h.filterMap fun x => x.2.ballot.map (x.1, ·)

omit [Crypto] [DecidableEq ι] in
theorem mem_ballots {x : Ballot B256} :
    (i, x) ∈ ballots h ↔ ∃ effect, (i, effect) ∈ h ∧ effect.ballot = some x := by
  simp only [ballots, mem_filterMap, Option.map_eq_some_iff]
  constructor
  · rintro ⟨⟨j, effect⟩, hmem, y, hy, heq⟩
    obtain ⟨rfl, rfl⟩ := Prod.mk.inj heq
    exact ⟨effect, hmem, hy⟩
  · rintro ⟨effect, hmem, hx⟩
    exact ⟨(i, effect), hmem, x, hx, rfl⟩

variable {b : B256} {view : ℕ}

section

omit [Crypto]

theorem release_of_first (hb : (i, .first view b) ∈ ballots h) :
    .release (.vote view b) ∈ project i h := by
  obtain ⟨effect, hmem, heq⟩ := mem_ballots.mp hb
  unfold Effect.ballot at heq
  split at heq
  · obtain ⟨rfl, rfl⟩ := Ballot.first.inj (Option.some.inj heq)
    exact mem_project.mpr hmem
  · cases heq
  · cases heq

theorem claimed_of_first (hb : (i, .first view b) ∈ ballots h) :
    Claimed (project i h) (.first view b) :=
  ⟨_, rfl, release_of_first hb⟩

theorem claimed_of_second (hb : (i, .second view b) ∈ ballots h) :
    Claimed (project i h) (.second view b) := by
  obtain ⟨effect, hmem, heq⟩ := mem_ballots.mp hb
  unfold Effect.ballot at heq
  split at heq
  · cases heq
  · obtain ⟨rfl, rfl⟩ := Ballot.second.inj (Option.some.inj heq)
    exact ⟨_, rfl, mem_project.mpr hmem⟩
  · cases heq

end

/-- Who signed for a block in round 1 has voted for it: a proposer votes first. -/
theorem first_of_claimed (hl : Lawful (NetRule d) h) (hc : Claimed (project i h) (.first view b)) :
    (i, .first view b) ∈ ballots h := by
  suffices hvote : .release (.vote view b) ∈ project i h from
    mem_ballots.mpr ⟨_, mem_project.mp hvote, rfl⟩
  obtain ⟨item, hclaim, hmem⟩ := hc
  obtain rfl | ⟨changes, rfl⟩ := Item.of_claim_first hclaim
  · exact hmem
  · obtain ⟨new, old, hsplit⟩ := append_of_mem hmem
    have hvalid : Valid (d.cfg i) (.release (.proposal view b changes) :: old) :=
      (hsplit ▸ valid_project hl i).of_append
    simp [hsplit, hvalid.vote_mem_of_proposal]

omit [Crypto] in
theorem second_of_claimed (hc : Claimed (project i h) (.second view b)) :
    (i, .second view b) ∈ ballots h := by
  obtain ⟨item, hclaim, hmem⟩ := hc
  obtain ⟨ch, rfl⟩ := Item.of_claim_second hclaim
  exact mem_ballots.mpr ⟨_, mem_project.mp hmem, rfl⟩

section

variable (hfix : d.FixedSet set)
include hfix

theorem carried_first_of_backs (hl : Lawful (NetRule d) h)
    {signers : List Bool} (hb : d.Backs set h signers (.first view b)) :
    Carried hfix.quorums (ballots h) (.first view b) :=
  hfix.quorums.mono (hfix.isQuorum_of_backs hb) fun _ hc => first_of_claimed hl hc

theorem carried_second_of_backs {signers : List Bool}
    (hb : d.Backs set h signers (.second view b)) :
    Carried hfix.quorums (ballots h) (.second view b) :=
  hfix.quorums.mono (hfix.isQuorum_of_backs hb) fun _ hc => second_of_claimed hc

theorem carried_first_of_commitVote (hl : Lawful (NetRule d) h)
    (hc : Claimed (project i h) (.second view b)) :
    Carried hfix.quorums (ballots h) (.first view b) := by
  obtain ⟨item, hclaim, hmem⟩ := hc
  obtain ⟨ch, rfl⟩ := Item.of_claim_second hclaim
  obtain ⟨new, old, hsplit, -, -, -, -, qc, used, known, hacc, rfl, rfl⟩ :=
    (valid_project hl i).exists_of_mem hmem
  have hacc : .accept (.prepare qc) used known ∈ project i h := by
    rw [hsplit]
    simp [hacc]
  obtain ⟨_, ⟨⟩, hb⟩ := backs_of_mem_accept hfix hl hacc
  exact carried_first_of_backs hfix hl hb

theorem carried_first_of_certified (hl : Lawful (NetRule d) h)
    {qc : QuorumCertificate} (hc : Certified (project i h) qc) :
    Carried hfix.quorums (ballots h) (.first qc.view qc.blockHash) := by
  obtain ⟨cert, used, known, hacc, hqc⟩ := hc
  obtain ⟨claim, hattests, hb⟩ := backs_of_mem_accept hfix hl hacc
  have hsecond : claim = .second qc.view qc.blockHash →
      Carried hfix.quorums (ballots h) (.first qc.view qc.blockHash) := by
    rintro rfl
    obtain ⟨j, -, -, hclaimed⟩ := hfix.honest_of_backs hb
    exact carried_first_of_commitVote hfix hl hclaimed
  cases hattests with
  | prepare => cases hqc; exact carried_first_of_backs hfix hl hb
  | commit => cases hqc; exact hsecond rfl
  | anyFirst => cases hqc; exact carried_first_of_backs hfix hl hb
  | anySecond => cases hqc; exact hsecond rfl
  | timeout => cases hqc

end

variable {justify : QuorumCertificate} {own : Bool}

/-- At a vote the justification is at or above every lower view in which the node voted to
commit. -/
theorem Valid.lock_le_justify (hv : Valid cfg log)
    (happrove : .approve view b justify own ∈ sinceBoot log) {c : ℕ} {b' : B256}
    (hc : Claimed log (.second c b')) (hlt : c < view) : c ≤ justify.view := by
  obtain ⟨old, added, rfl, hboot⟩ := grows_of_mem_sinceBoot happrove
  have hcut : Valid cfg (.approve view b justify own :: old) := hv.of_append
  have hold : Valid cfg old := hcut.tail_of_cons
  obtain ⟨hview, hjustify⟩ := hcut.rule_of_cons
  have hlocked : (coreOf cfg old).locked.view ≤ justify.view := by
    cases own with
    | true => exact hjustify.2 ▸ Nat.le_refl _
    | false => exact hjustify.1
  -- a commit vote after the approval would be for a view at or above it
  have hbefore : Claimed old (.second c b') := by
    obtain ⟨item, hclaim, hmem⟩ := hc
    rcases mem_append.mp hmem with hmem | hmem
    · obtain ⟨new, mid, rfl⟩ := append_of_mem hmem
      rw [append_assoc] at hv
      have hrelease : Valid cfg (.release item :: (mid ++ .approve view b justify own :: old)) :=
        hv.of_append
      have hgrow : Grows old (mid ++ .approve view b justify own :: old) :=
        (Grows.cons old (by simp)).trans
          ⟨mid, rfl, fun core hcore => hboot core (by simp [hcore])⟩
      have hmono := Valid.view_mono hrelease.tail_of_cons hgrow
      obtain ⟨ch, rfl⟩ := Item.of_claim_second hclaim
      have hcurrent := hrelease.rule_of_cons.2.1
      omega
    · exact ⟨item, hclaim, by simpa using hmem⟩
  exact (hold.floors.lock c b' hbefore).1.trans hlocked

theorem Valid.trusted_justify (hv : Valid cfg log)
    (happrove : .approve view b justify own ∈ sinceBoot log) : Trusted log justify := by
  obtain ⟨old, hg⟩ := grows_of_mem_sinceBoot happrove
  have hcut : Valid cfg (.approve view b justify own :: old) := hv.of_suffix hg.suffix
  have hgrow : Grows old log := (Grows.cons old (by simp)).trans hg
  obtain ⟨-, hjustify⟩ := hcut.rule_of_cons
  cases own with
  | true =>
    rw [hjustify.2]
    exact hgrow.trusted (Valid.certificatesTrusted hcut.tail_of_cons).locked
  | false => exact hgrow.trusted hjustify.2.1

/-- A restart does not resume in a view below the recorded round 1 votes. -/
def Effect.RestartsAboveVotes : Effect → Prop
  | .boot core => core.votedView ≤ core.view
  | _ => True

def IsParent (parent : B256 → Option B256) (a b : B256) : Prop := parent b = some a

/-- Every block that an honest node votes for is a child of the block that its
justification certifies. A justification of view 0 certifies nothing. -/
def VotesExtend (d : Deployment ι) (parent : B256 → Option B256) (h : List (ι × Effect)) : Prop :=
  ∀ j log view b justify own, .release (.vote view b) :: log <:+ project j h →
    .approve view b justify own ∈ sinceBoot log →
    (own = false → d.profile.isGov5 → ExtendsJustify log b justify) →
    0 < justify.view → IsParent parent justify.blockHash b

variable {parent : B256 → Option B256}

variable (hfix : d.FixedSet set)
include hfix

theorem first_allowed (hl : Lawful (NetRule d) ((j, .release (.vote view b)) :: h))
    (hextend : VotesExtend d parent ((j, .release (.vote view b)) :: h)) :
    BallotRule hfix.quorums (IsParent parent) (ballots h) (j, .first view b) := by
  have htail := hl.tail_of_cons
  have hvalid : Valid (d.cfg j) (.release (.vote view b) :: project j h) := by
    simpa using valid_project hl j
  obtain ⟨-, -, justify, own, happrove, himport⟩ :
      ReleaseRule (d.cfg j).signingProfile (project j h) (coreOf (d.cfg j) (project j h))
        (.vote view b) := hvalid.rule_of_cons
  rw [d.profile_eq] at himport
  refine ⟨fun b' hb' => ?_, justify.view, justify.blockHash, fun hpos => ⟨?_, ?_⟩, ?_⟩
  · exact absurd (claimed_of_first hb') (hvalid.not_claimed_of_vote b')
  · exact hextend j (project j h) view b justify own (by simp) happrove himport hpos
  · rcases Valid.trusted_justify hvalid.tail_of_cons happrove with hzero | hcertified
    · omega
    · exact carried_first_of_certified hfix htail hcertified
  · intro c b' hc hlt
    exact Valid.lock_le_justify hvalid.tail_of_cons happrove (claimed_of_second hc) hlt

theorem second_allowed {ch : B256}
    (hl : Lawful (NetRule d) ((j, .release (.commitVote view b ch)) :: h))
    (hrestart : ∀ x ∈ h, x.2.RestartsAboveVotes) :
    BallotRule hfix.quorums (IsParent parent) (ballots h) (j, .second view b) := by
  have htail := hl.tail_of_cons
  have hvalid : Valid (d.cfg j) (.release (.commitVote view b ch) :: project j h) := by
    simpa using valid_project hl j
  have hold : Valid (d.cfg j) (project j h) := hvalid.tail_of_cons
  obtain ⟨-, hview, -, qc, used, known, hacc, rfl, rfl⟩ :
      ReleaseRule (d.cfg j).signingProfile (project j h) (coreOf (d.cfg j) (project j h))
        (.commitVote view b ch) := hvalid.rule_of_cons
  refine ⟨?_, fun b' hb' => ?_, ?_, fun w b' hb' => ?_⟩
  · obtain ⟨old, -, -, hlt, -⟩ := hvalid.commitVote_shape
    omega
  · exact absurd (claimed_of_second hb') (hvalid.not_claimed_of_commitVote b')
  · obtain ⟨_, ⟨⟩, hb⟩ := backs_of_mem_accept hfix htail hacc
    exact carried_first_of_backs hfix htail hb
  · have hfloor := (hold.floors.first w b' (claimed_of_first hb')).2.1
    have hle := hold.votedView_le_view fun core hcore => hrestart _ (mem_project.mp hcore)
    omega

/-- The network refines voting with locks. -/
theorem ballots_lawful (hl : Lawful (NetRule d) h)
    (hrestart : ∀ x ∈ h, x.2.RestartsAboveVotes) (hextend : VotesExtend d parent h) :
    Lawful (BallotRule hfix.quorums (IsParent parent)) (ballots h) := by
  induction hl with
  | nil => exact .nil
  | @cons h x tail allowed ih =>
    obtain ⟨j, x⟩ := x
    have hl : Lawful (NetRule d) ((j, x) :: h) := .cons tail allowed
    have hrest := fun y hy => hrestart y (mem_cons_of_mem _ hy)
    have ih := ih hrest fun i log view b justify own hs =>
      hextend i log view b justify own (hs.trans (project_suffix (suffix_cons _ _)))
    have hskip : x.ballot = none → ballots ((j, x) :: h) = ballots h := by
      intro hnone
      simp [ballots, hnone]
    cases x with
    | release item =>
      cases item with
      | vote view b => exact .cons ih (first_allowed hfix hl hextend)
      | commitVote view b ch => exact .cons ih (second_allowed hfix hl hrest)
      | _ => rwa [hskip rfl]
    | _ => rwa [hskip rfl]

theorem committed_blocks_one_chain {net : Net ι} (hnet : net.Reachable d)
    (hrestart : ∀ x ∈ net.history, x.2.RestartsAboveVotes)
    (hextend : VotesExtend d parent net.history) {v v' : ℕ} {a : B256} {qc qc' : QuorumCertificate}
    {changes changes' : Option (List ValidatorChange)} {accepted accepted' : Bool}
    (ha : .emit (.blockCommitted v a qc changes) accepted ∈ (net.node i).log)
    (hb : .emit (.blockCommitted v' b qc' changes') accepted' ∈ (net.node j).log) :
    OneChain (IsParent parent) a b := by
  have hl := hnet.inv.lawful
  rw [hnet.inv.log_eq] at ha hb
  exact committed_one_chain (ballots_lawful hfix hl hrestart hextend)
    (carried_second_of_backs hfix (backs_of_committed hfix hl ha))
    (carried_second_of_backs hfix (backs_of_committed hfix hl hb))

end Refinement

end N42
