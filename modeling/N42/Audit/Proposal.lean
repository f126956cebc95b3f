import N42.Audit.Voting

/-!
The handlers of proposals, round 1 votes and imported blocks keep the invariant.
-/

namespace N42

open Lib EngineM List AList

variable [Crypto] {cfg : NodeConfig} {w : World} {advance : ℕ → EngineM Unit}

variable {blockHash : B256} {proposal : Proposal} {justify : QuorumCertificate}

omit [Crypto] in
theorem Grows.extendsJustify {a b : List Effect} (h : Grows a b)
    (he : ExtendsJustify a blockHash justify) : ExtendsJustify b blockHash justify := by
  obtain ⟨parent, himport, hparent⟩ := he
  exact ⟨parent, h.mem himport, hparent⟩

variable [hw : Inv cfg w]

theorem recoverLateCommittedProposal_sound :
    Safely cfg (recoverLateCommittedProposal proposal) w := by
  unfold recoverLateCommittedProposal
  split
  · exact .pure trivial
  · next changes =>
    refine .early fun _ => ?_
    refine .early fun _ => ?_
    refine .early fun _ => ?_
    refine .early fun _ => ?_
    refine .early fun _ => ?_
    refine .early fun _ => ?_
    refine .early fun _ => ?_
    split
    · exact .pure trivial
    · refine .early fun _ => ?_
      refine .next (.updateEpochs trivial rfl rfl) fun _ _ _ => ?_
      refine .bind (.discard commitPendingChanges_sound) ?_
      rintro _ w₂ _ - -
      exact .bind (.emit trivial) fun _ _ _ _ _ => .pure trivial

/-- The evidence a round 1 vote rests on. -/
def Approved (cfg : NodeConfig) (log : List Effect) (view : ℕ) (blockHash : B256) : Prop :=
  ∃ justify own, .approve view blockHash justify own ∈ sinceBoot log ∧
    (own = false → cfg.signingProfile.isGov5 → ExtendsJustify log blockHash justify)

variable {view : ℕ} {log : List Effect}

omit [Crypto] in
theorem Grows.approved {a b : List Effect} (h : Grows a b) (ha : Approved cfg a view blockHash) :
    Approved cfg b view blockHash := by
  obtain ⟨justify, own, happrove, hextends⟩ := ha
  exact ⟨justify, own, h.mem_sinceBoot happrove, fun hown hgov =>
    h.extendsJustify (hextends hown hgov)⟩

theorem releaseRule_vote (hhead : w.log.head? = some (.persistVote view .done))
    (hview : view = w.engine.currentView) (happroved : Approved cfg w.log view blockHash) :
    ReleaseRule cfg.signingProfile w.log (coreOf cfg w.log) (.vote view blockHash) := by
  obtain ⟨justify, own, happrove, hextends⟩ := happroved
  refine ⟨hhead, ?_, justify, own, happrove, hextends⟩
  rw [← hw.core]
  exact hview

/-- The leader's own vote is the last thing signed when it is done. -/
theorem castOwnVote_sound (hview : view = w.engine.currentView)
    (hmay : w.engine.roundState.mayVoteIn view = true)
    (happroved : Approved cfg w.log view blockHash)
    (hblock : ∀ c, w.engine.voteCollector = some c → c.blockHash = blockHash)
    (hown : IsOwnIndex cfg w.engine.core w.engine.myIndex) :
    Sound cfg (castOwnVote view blockHash) w fun _ w' =>
      (w'.log.head? = some (.release (.vote view blockHash)) ∨
        ∃ index, w'.log.head? = some (.ownShare index (.vote view blockHash))) ∧
      w'.engine.currentView = w.engine.currentView ∧
        IsOwnIndex cfg w'.engine.core w'.engine.myIndex := by
  refine .next (.recordVote hview hmay) fun _ _ hg₁ => ?_
  refine .next (.signItem (releaseRule_vote rfl hview (hg₁.approved happroved)))
    fun signature hw₂ hg₂ => ?_
  refine .engine_bind ?_
  split
  · exact .pure ⟨.inl rfl, rfl, hown⟩
  · next collector hcollector =>
    split
    · exact .throw
    · next added hadded =>
      refine .bind (.record ⟨rfl, ?_⟩ trivial) ?_
      · rw [← hw₂.core]
        exact hown
      rintro _ _ hw₃ hg₃ rfl
      refine .mono (.update rfl fun _ => hw₃.stored.addVote hcollector hadded ?_) ?_
      · refine ⟨_, ?_, .inr mem_cons_self⟩
        rw [hblock collector hcollector, hview]
        rfl
      · rintro _ _ - - rfl
        exact ⟨.inr ⟨_, rfl⟩, rfl, hown⟩

theorem sendVote_sound (hview : view = w.engine.currentView)
    (happroved : Approved cfg w.log view blockHash) : Safely cfg (sendVote view blockHash) w := by
  refine .engine_bind (.early fun _ => ?_)
  refine .early fun hmay => ?_
  refine .next (.recordVote hview (by simpa using hmay)) fun _ _ hg₁ => ?_
  refine .next (.signItem (releaseRule_vote rfl hview (hg₁.approved happroved)))
    fun signature _ hg₂ => ?_
  exact .drop (.emit rfl)

theorem onBlockReady_sound {txRootHash : Option B256} (hadv : Advances cfg advance)
    (hhead : w.log.head? = some (.deliver (.blockReady blockHash txRootHash))) :
    Safely cfg (onBlockReady advance blockHash txRootHash) w := by
  refine .early fun hleader => ?_
  have hleader : w.engine.isCurrentLeader = true := by simpa using hleader
  have hown : IsOwnIndex cfg w.engine.core w.engine.myIndex := hw.stored.ownIndex hleader
  refine .early fun _ => ?_
  refine .bind (.record ⟨?_, ⟨txRootHash, hhead⟩, ?_⟩ trivial) ?_
  · rw [← hw.core]
    rfl
  · rw [← hw.core]
    rfl
  rintro _ _ _ hg₁ rfl
  refine .next (.update rfl fun hw => { hw.stored with }) fun _ _ hg₂ => ?_
  refine .guard fun _ => ?_
  refine .next (.update rfl fun hw => { hw.stored with }) fun _ _ hg₃ => ?_
  refine .next (.update rfl fun hw => { hw.stored with
    votes := by
      rintro _ ⟨rfl⟩
      exact ⟨rfl, fun i hi => absurd hi (notMem_empty i)⟩
    commitVotes := by
      rintro _ ⟨rfl⟩
      exact ⟨rfl, fun i hi => absurd hi (notMem_empty i)⟩
    sameBlock := by
      rintro _ _ ⟨rfl⟩ ⟨rfl⟩
      rfl }) fun _ _ hg₄ => ?_
  refine .early fun hmay => ?_
  have hmay : w.engine.roundState.mayVoteIn w.engine.currentView = true := by simpa using hmay
  have happroved : Approved cfg
      (Effect.approve w.engine.currentView blockHash w.engine.roundState.lockedQc true :: w.log)
      w.engine.currentView blockHash := ⟨_, true, mem_cons_self, by simp⟩
  refine .bind (castOwnVote_sound rfl hmay happroved ?_ hown) ?_
  · rintro _ ⟨rfl⟩
    rfl
  rintro _ w₅ hw₅ hg₅ ⟨hhead₅, hview₅, hown₅⟩
  refine .bind (.signItem ⟨?_, hhead₅⟩) ?_
  · rw [← hw₅.core]
    exact hview₅.symm
  rintro signature _ _ hg₆ rfl
  refine .next (.emit rfl) fun _ _ hg₇ => ?_
  exact tryFormPrepareQc_sound hadv hown₅

section

theorem authenticateProposal_sound (hm : Delivered w.log (.proposal proposal)) :
    Sound cfg (authenticateProposal proposal) w fun _ w' =>
      proposal.view = w.engine.currentView ∧ ∃ set, w' = w.push (.share set proposal.proposer
        (.proposal w.engine.currentView proposal.blockHash proposal.validatorChanges)) := by
  refine .guard fun hview => ?_
  have hview := not_not.mp hview
  refine .guard fun _ => ?_
  refine .ofExcept_bind fun _ _ => ?_
  refine .guard fun _ => ?_
  have hwire : proposal.view ≤ u64Max := (hw.valid.wire hm).1
  refine .mono (.verifyShare (.inl ⟨_, hm, rfl⟩) (hview ▸ hwire)
    (.inl (hw.isCurrentSet rfl))) ?_
  rintro _ _ - - rfl
  exact ⟨hview, _, rfl⟩

theorem trackProposal_sound (hshare : ∃ set, .share set proposal.proposer
      (.proposal w.engine.currentView proposal.blockHash proposal.validatorChanges) ∈ sinceBoot
      w.log) :
    Sound cfg (trackProposal proposal) w fun _ w' =>
      w'.engine.currentView = w.engine.currentView := by
  obtain ⟨set, hshare⟩ := hshare
  refine .engine_bind ?_
  split
  · next previousCommitment previousBlockHash hprev =>
    obtain ⟨set', changes, hshare', hcommitment⟩ := hw.stored.proposalTracker _ _ _ hprev
    refine .ite (fun hne => ?_) fun _ => .pure rfl
    have hmessage : cfg.signingProfile.proposalMessage w.engine.currentView previousBlockHash
        changes ≠ cfg.signingProfile.proposalMessage w.engine.currentView proposal.blockHash
          proposal.validatorChanges := by
      intro heq
      apply hne
      rw [hcommitment, hw.stored.profile]
      exact congrArg _ heq
    have hrule : ∀ hash1 hash2, EmitRule cfg.signingProfile w.log (coreOf cfg w.log)
        (.equivocationDetected w.engine.currentView proposal.proposer hash1 hash2) := by
      intro hash1 hash2
      refine ⟨set', set, _, _, hshare', hshare, rfl, rfl, ?_, .proposal hmessage, ?_⟩
      · rw [← hw.core]
        rfl
      · rw [← hw.core]
        exact hw.steady
    refine .ite (fun _ => ?_) fun _ => ?_
    all_goals
      refine .next (.emit (hrule _ _)) fun _ _ _ => ?_
      exact .pure rfl
  · refine .bind (.update rfl fun hw => { hw.stored with proposalTracker := ?_ }) ?_
    · intro i commitment b hb
      by_cases hi : i = proposal.proposer
      · subst hi
        rw [lookup_insert] at hb
        obtain ⟨rfl, rfl⟩ := hb
        refine ⟨set, proposal.validatorChanges, hshare, ?_⟩
        rw [hw.stored.profile]
        rfl
      · rw [lookup_insert_ne hi] at hb
        exact hw.stored.proposalTracker i commitment b hb
    · rintro _ _ - - rfl
      exact .pure rfl

theorem adoptJustify_sound (hm : Delivered w.log (.proposal proposal))
    (hview : proposal.view = w.engine.currentView) :
    Sound cfg (adoptJustify proposal) w fun _ w' =>
      .approve w.engine.currentView proposal.blockHash proposal.justifyQc false ∈ sinceBoot w'.log ∧
        w'.engine.currentView = w.engine.currentView := by
  refine .bind (.ite (fun _ => .verifyQcAnyDomainOrKnown (.inl ⟨_, hm, mem_cons_self⟩))
    fun hzero => .pure ⟨.inl (by omega), rfl⟩) ?_
  rintro _ w₁ hw₁ hg₁ ⟨htrusted, heng₁⟩
  refine .engine_bind (.guard fun hsafe => ?_)
  have hsafe : w₁.engine.roundState.isSafeToVote proposal.justifyQc = true := by simpa using hsafe
  refine .bind (.record ⟨?_, ?_, htrusted, proposal, hg₁.delivered hm, ?_, rfl, rfl⟩ trivial) ?_
  · rw [← hw₁.core]
    rfl
  · rw [← hw₁.core]
    exact of_decide_eq_true hsafe
  · rw [heng₁]
    exact hview
  rintro _ _ _ hg₂ rfl
  refine .mono (.updateLockedQc (hg₂.trusted htrusted)) ?_
  rintro _ w₃ - hg₃ heng₃
  rw [heng₃, Engine.withLock_currentView, World.push_engine, heng₁]
  exact ⟨hg₃.mem_sinceBoot (by rw [heng₁]; exact mem_cons_self), rfl⟩

theorem adoptPiggybacked_sound (hm : Delivered w.log (.proposal proposal)) :
    Sound cfg (adoptPiggybacked proposal.prepareQc) w fun _ w' =>
      w'.engine.currentView = w.engine.currentView := by
  refine .engine_bind ?_
  split
  · exact .pure rfl
  · next qc hqc =>
    split
    · exact .pure rfl
    · next set hset =>
      split
      · exact .pure rfl
      · next hverify =>
        have hcarried : Certificate.CarriedBy (.prepare qc) (.proposal proposal) := by
          simp [Certificate.CarriedBy, ConsensusMessage.qcs, hqc]
        refine .next (.accept (Sound.rule_accept_received ⟨_, hm, hcarried⟩ hverify
          (.inl (Engine.resolveQcValidatorSet_ok hset)))) fun _ _ hg₁ => ?_
        refine .mono (.updateLockedQc (.inr ⟨_, _, _, mem_cons_self, rfl⟩)) ?_
        rintro _ w₂ - - heng₂
        rw [heng₂, Engine.withLock_currentView]
        rfl

theorem cacheProposal_sound :
    Sound cfg (cacheProposal proposal) w fun _ w' =>
      w'.engine.currentView = w.engine.currentView := by
  refine .engine_bind (.ite (fun _ => ?_) fun _ => ?_)
  · refine .guard fun _ => ?_
    refine .next (.updateEpochs trivial rfl rfl) fun _ _ _ => ?_
    refine .mono (.update rfl fun hw => { hw.stored with }) ?_
    rintro _ _ - - rfl
    rfl
  · refine .mono (.update rfl fun hw => { hw.stored with }) ?_
    rintro _ _ - - rfl
    rfl

end

theorem extendsJustify_of_imported {e : Engine} (h : Stored cfg e log) {pp : PendingProposal}
    (hpp : e.pendingProposal = some pp) (hjustify : pp.justifyBlock = justify.blockHash)
    (himported : blockHash ∈ e.importedBlocks) (hextends : e.extendsJustify blockHash = true) :
    ExtendsJustify log blockHash justify := by
  unfold Engine.extendsJustify at hextends
  rw [hpp] at hextends
  dsimp only at hextends
  cases hlookup : e.importedParents.lookup blockHash with
  | none => exact ⟨none, h.imports.bare blockHash himported (by simp) hlookup, .inr (.inl rfl)⟩
  | some parent =>
    refine ⟨some parent, h.imports.parents blockHash parent hlookup, ?_⟩
    rw [hlookup] at hextends
    split at hextends
    · next hzero => exact .inl (hjustify ▸ hzero)
    · dsimp only at hextends
      split at hextends
      · next hzero => exact .inr (.inr (.inl (congrArg some hzero)))
      · have hparent : parent = justify.blockHash := hjustify ▸ of_decide_eq_true hextends
        exact .inr (.inr (.inr (congrArg some hparent)))

theorem voteOnProposal_sound (happrove : .approve w.engine.currentView
      proposal.blockHash proposal.justifyQc false ∈ sinceBoot w.log) :
    Safely cfg (voteOnProposal proposal) w := by
  refine .ite (fun _ => ?_) fun hnative => ?_
  · refine .bind (.update rfl fun hw => { hw.stored with pending := ?_ }) ?_
    · rintro _ ⟨rfl⟩
      exact ⟨rfl, _, happrove, rfl⟩
    rintro _ _ hw₁ hg₁ rfl
    refine .engine_bind (.ite (fun himported => ?_) fun _ => .pure trivial)
    refine .early fun hextends => ?_
    refine sendVote_sound rfl ⟨_, false, happrove, fun _ _ => ?_⟩
    exact extendsJustify_of_imported hw₁.stored rfl rfl himported (by simpa using hextends)
  · refine sendVote_sound rfl ⟨_, false, happrove, fun _ hgov => ?_⟩
    rw [hw.stored.profile] at hnative
    exact absurd hgov hnative

theorem processProposal_sound (hm : Delivered w.log (.proposal proposal)) :
    Safely cfg (processProposal proposal) w := by
  refine .bind (authenticateProposal_sound hm) ?_
  rintro _ _ _ hg₁ ⟨hview, set, rfl⟩
  refine .bind (trackProposal_sound ⟨set, mem_cons_self⟩) ?_
  rintro conflict w₂ _ hg₂ hview₂
  refine .early fun _ => ?_
  have hm₂ := hg₂.delivered (hg₁.delivered hm)
  refine .bind (adoptJustify_sound hm₂ (hview.trans hview₂.symm)) ?_
  rintro _ w₃ _ hg₃ ⟨happrove, hview₃⟩
  refine .bind (adoptPiggybacked_sound (hg₃.delivered hm₂)) ?_
  rintro _ w₄ _ hg₄ hview₄
  refine .bind cacheProposal_sound ?_
  rintro _ w₅ _ hg₅ hview₅
  refine .next (.emit trivial) fun _ _ hg₆ => ?_
  refine voteOnProposal_sound ?_
  rw [World.push_engine, hview₅, hview₄, hview₃]
  exact hg₆.mem_sinceBoot (hg₅.mem_sinceBoot (hg₄.mem_sinceBoot happrove))

theorem sendCommitVote_sound (hview : view = w.engine.currentView)
    (hmay : w.engine.roundState.mayCommitVoteIn view = true)
    (hlocked : view ≤ w.engine.roundState.lockedQc.view) (hqc : ∃ qc used known, .accept (.prepare
      qc) used known ∈ w.log ∧ qc.view = view ∧ qc.blockHash = blockHash) :
    Safely cfg (sendCommitVote view blockHash) w := by
  refine .next (.recordCommitVote hview hmay) fun _ _ hg₁ => ?_
  refine .engine_bind ?_
  refine .bind (.signItem (releaseRule_commitVote rfl hview hlocked ?_)) ?_
  · obtain ⟨qc, used, known, hacc, hqc⟩ := hqc
    exact ⟨qc, used, known, hg₁.mem hacc, hqc⟩
  rintro signature _ _ hg₂ rfl
  exact .drop (.emit ⟨_, rfl⟩)

theorem processPrepareQc_sound {pqc : PrepareQC}
    (hm : Delivered w.log (.prepareQc pqc)) : Safely cfg (processPrepareQc pqc) w := by
  refine .guard fun hview => ?_
  refine .guard fun hqcView => ?_
  refine .guard fun hblock => ?_
  have hcurrent : pqc.qc.view = w.engine.currentView :=
    (not_not.mp hqcView).trans (not_not.mp hview)
  refine .ofExcept_bind fun set hset => ?_
  have hcarried : Certificate.CarriedBy (.prepare pqc.qc) (.prepareQc pqc) := mem_cons_self
  refine .next (.verifyCert ⟨_, hm, hcarried⟩
    (.inl (Engine.resolveQcValidatorSet_ok hset))) fun _ _ hg₁ => ?_
  refine .bind (.updateLockedQc (.inr ⟨_, _, _, mem_cons_self, rfl⟩)) ?_
  rintro _ w₂ _ hg₂ heng₂
  refine .next (.updateRound rfl) fun _ _ hg₃ => ?_
  refine .engine_bind (.early fun _ => ?_)
  refine .early fun hmay => ?_
  have hview₂ : w₂.engine.currentView = w.engine.currentView := by
    rw [heng₂, Engine.withLock_currentView]
    rfl
  refine sendCommitVote_sound hview₂.symm (by simpa using hmay) ?_ ?_
  · rw [heng₂, ← hcurrent]
    exact Engine.view_le_withLock _ pqc.qc
  · exact ⟨pqc.qc, _, _, hg₃.mem (hg₂.mem mem_cons_self), hcurrent, not_not.mp hblock⟩

def Engine.withImported (e : Engine) (r : Imported) : Engine :=
  { e with importedBlocks := r.blocks, importedParents := r.parents, importedBlockFifo := r.fifo }

section Imports

variable {log : List Effect} {gov5 : Bool} {r : Imported} {e : Engine} {blockHash : B256}

omit [Crypto]

theorem Imported.Backed.drop (h : r.Backed gov5 log none) {victim : B256} {kept : List B256}
    (hperm : (victim :: kept).Perm r.fifo) :
    Backed ⟨r.blocks.filter (· ≠ victim), r.parents.erase victim, kept⟩ gov5 log none := by
  obtain ⟨hgone, hnodup⟩ := nodup_cons.mp (hperm.nodup_iff.mpr h.nodup)
  refine ⟨fun b parent hp => ?_, fun b hb hne hnone => ?_, hnodup, fun b => ?_, ?_,
    fun hgov b hb => ?_⟩
  · by_cases hb : b = victim
    · subst hb
      simp at hp
    · rw [lookup_erase_ne hb] at hp
      exact h.parents b parent hp
  · obtain ⟨hb, hkept⟩ := mem_filter.mp hb
    rw [lookup_erase_ne (by simpa using hkept)] at hnone
    exact h.bare b hb hne hnone
  · rw [mem_filter, ← h.queued, ← hperm.mem_iff]
    by_cases hb : b = victim
    · simp [hb, hgone]
    · simp [hb]
  · have hlength := hperm.length_eq
    have hbounded := h.bounded
    rw [length_cons] at hlength
    show kept.length ≤ _
    omega
  · obtain ⟨hne, hb⟩ := mem_erase.mp hb
    exact mem_filter.mpr ⟨h.closed hgov b hb, by simpa using hne⟩

theorem Imported.Backed.push (h : r.Backed gov5 log none) (hnew : blockHash ∉ r.blocks)
    (hroom : r.fifo.length < maxImportedBlocks) :
    Backed ⟨blockHash :: r.blocks, r.parents, r.fifo ++ [blockHash]⟩ gov5 log (some blockHash) where
  parents := h.parents
  bare b hb hne hnone :=
    h.bare b ((mem_cons.mp hb).resolve_left (by simpa using hne)) (by simp) hnone
  nodup := nodup_append_comm.mp (nodup_cons.mpr ⟨(h.queued _).not.mpr hnew, h.nodup⟩)
  queued b := by simp [h.queued, or_comm]
  bounded := by simpa using Nat.succ_le_of_lt hroom
  closed hgov b hb := mem_cons_of_mem _ (h.closed hgov b hb)

theorem Imported.Backed.note (h : r.Backed gov5 log (some blockHash)) (hheld : blockHash ∈ r.blocks)
    {parent : B256} (hdel : .deliver (.blockImportedWithParent blockHash parent) ∈ log) :
    Backed { r with parents := r.parents.insert blockHash parent } gov5 log none := by
  refine { h with parents := fun b p hp => ?_, bare := fun b hb _ hnone => ?_, closed := ?_ }
  · by_cases hb' : b = blockHash
    · subst hb'
      rw [lookup_insert, Option.some.injEq] at hp
      exact hp ▸ hdel
    · rw [lookup_insert_ne hb'] at hp
      exact h.parents b p hp
  · by_cases hb' : b = blockHash
    · subst hb'
      simp at hnone
    · rw [lookup_insert_ne hb'] at hnone
      exact h.bare b hb (by simpa using hb') hnone
  · intro hgov b hb
    rcases (mem_insert _).mp hb with rfl | hb
    · exact hheld
    · exact h.closed hgov b hb

theorem Engine.evictOldestImportedBlock_spec (hnodup : e.importedBlockFifo.Nodup)
    (hlength : 2 ≤ e.importedBlockFifo.length) :
    ∃ victim kept, some victim ≠ e.pendingProposal.map (·.blockHash) ∧
      (victim :: kept).Perm e.importedBlockFifo ∧
      e.evictOldestImportedBlock = e.withImported
        ⟨e.importedBlocks.filter (· ≠ victim), e.importedParents.erase victim, kept⟩ := by
  obtain ⟨a, b, rest, hfifo⟩ : ∃ a b rest, e.importedBlockFifo = a :: b :: rest := by
    match h : e.importedBlockFifo, hlength with
    | a :: b :: rest, _ => exact ⟨a, b, rest, rfl⟩
  have hne : a ≠ b := by
    rintro rfl
    simp [hfifo] at hnodup
  unfold evictOldestImportedBlock
  rw [hfifo, length_cons, length_cons, evictLoop, hfifo]
  by_cases hlive : some a = e.pendingProposal.map (·.blockHash)
  · have hother : some b ≠ e.pendingProposal.map (·.blockHash) := by
      rw [← hlive]
      simpa using hne.symm
    refine ⟨b, rest ++ [a], hother, ?_, ?_⟩
    · exact ((perm_append_singleton a rest).cons b).trans (List.Perm.swap a b rest)
    · simp only [if_pos hlive, evictLoop, cons_append, if_neg hother]
      rfl
  · refine ⟨a, b :: rest, hlive, .refl _, ?_⟩
    simp only [if_neg hlive]
    rfl

theorem Engine.queueImport_spec (h : e.imported.Backed gov5 log none) (blockHash : B256) :
    ∃ r : Imported, e.queueImport blockHash = e.withImported r ∧
      r.Backed gov5 log (some blockHash) ∧ blockHash ∈ r.blocks ∧
      ∀ b ∈ e.importedBlocks, some b = e.pendingProposal.map (·.blockHash) → b ∈ r.blocks := by
  unfold queueImport
  split
  · next hheld => exact ⟨e.imported, rfl, { h with bare := fun b hb _ => h.bare b hb (by simp) },
      hheld, fun b hb _ => hb⟩
  next hnew =>
  dsimp only
  split
  · next hfull =>
    obtain ⟨victim, kept, hlive, hperm, heq⟩ := evictOldestImportedBlock_spec
      (e := { e with importedBlocks := blockHash :: e.importedBlocks }) h.nodup
      (le_trans (by decide) hfull)
    have hvictim : victim ∈ e.importedBlocks := (h.queued _).mp (hperm.mem_iff.mp mem_cons_self)
    have hfilter : (blockHash :: e.importedBlocks).filter (· ≠ victim) =
        blockHash :: e.importedBlocks.filter (· ≠ victim) :=
      filter_cons_of_pos (by simpa using fun h : blockHash = victim => hnew (h ▸ hvictim))
    have hlength := hperm.length_eq
    have hbounded := h.bounded
    refine ⟨_, by rw [heq, hfilter]; rfl, (h.drop hperm).push ?_ ?_, mem_cons_self, ?_⟩
    · exact fun hmem => hnew (mem_filter.mp hmem).1
    · exact lt_of_lt_of_le (Nat.lt_of_succ_le hlength.le) hbounded
    · intro b hb hpending
      refine mem_cons_of_mem _ (mem_filter.mpr ⟨hb, ?_⟩)
      simpa using fun h : b = victim => hlive (h ▸ hpending)
  · next hroom =>
    exact ⟨_, rfl, h.push hnew (Nat.lt_of_not_le hroom), mem_cons_self,
      fun b hb _ => mem_cons_of_mem _ hb⟩

theorem Engine.noteImport_spec (h : e.imported.Backed gov5 log none) {parentHash : Option B256}
    (hdel : .deliver (.ofImport blockHash parentHash) ∈ log) :
    ∃ r : Imported, e.noteImport blockHash parentHash = e.withImported r ∧
      r.Backed gov5 log none ∧ blockHash ∈ r.blocks ∧
      ∀ b ∈ e.importedBlocks, some b = e.pendingProposal.map (·.blockHash) → b ∈ r.blocks := by
  obtain ⟨r, heq, hback, hheld, hlive⟩ := queueImport_spec h blockHash
  unfold noteImport noteParent
  rw [heq, if_pos (show blockHash ∈ (e.withImported r).importedBlocks from hheld)]
  cases parentHash with
  | none =>
    refine ⟨r, rfl, { hback with bare := fun b hb _ hnone => ?_ }, hheld, hlive⟩
    by_cases hb' : b = blockHash
    · exact hb' ▸ hdel
    · exact hback.bare b hb (by simpa using hb') hnone
  | some parent => exact ⟨_, rfl, hback.note hheld hdel, hheld, hlive⟩

theorem Engine.noteImport_same (e : Engine) (blockHash : B256) (parentHash : Option B256) :
    ∃ r, e.noteImport blockHash parentHash = e.withImported r := by
  have hevict : ∀ n (e : Engine), ∃ r, e.evictLoop n = e.withImported r := by
    intro n
    induction n with
    | zero => exact fun e => ⟨e.imported, rfl⟩
    | succ n ih =>
      intro e
      unfold evictLoop
      split
      · exact ⟨e.imported, rfl⟩
      · split
        · exact ih { e with importedBlockFifo := _ }
        · exact ⟨⟨_, _, _⟩, rfl⟩
  have hqueue : ∃ r, e.queueImport blockHash = e.withImported r := by
    unfold queueImport
    split
    · exact ⟨e.imported, rfl⟩
    · dsimp only
      split
      · obtain ⟨r, heq⟩ := hevict _ { e with importedBlocks := blockHash :: e.importedBlocks }
        rw [evictOldestImportedBlock, heq]
        exact ⟨⟨_, _, _⟩, rfl⟩
      · exact ⟨⟨_, _, _⟩, rfl⟩
  obtain ⟨r, heq⟩ := hqueue
  unfold noteImport noteParent
  rw [heq]
  split
  · cases parentHash <;> exact ⟨⟨_, _, _⟩, rfl⟩
  · exact ⟨⟨_, _, _⟩, rfl⟩

end Imports

theorem onBlockImported_sound {parentHash : Option B256}
    (hdel : .deliver (.ofImport blockHash parentHash) ∈ w.log) :
    Safely cfg (onBlockImported blockHash parentHash) w := by
  obtain ⟨r, heq, hback, hheld, -⟩ := Engine.noteImport_spec hw.stored.imports hdel
  refine .next (.update (by rw [heq]; rfl) fun hw => heq ▸ { hw.stored with imports := hback })
    fun _ hw₁ hg₁ => ?_
  refine .engine_bind ?_
  split
  · exact .pure trivial
  · next pending hpending =>
    refine .ite (fun hready => ?_) fun _ => .pure trivial
    refine .early fun hextends => ?_
    obtain ⟨hgov, hview, hblock, hmay⟩ := hready
    obtain ⟨-, justify, happrove, hjustify⟩ := hw₁.stored.pending pending hpending
    rw [hblock] at happrove
    refine sendVote_sound hview ⟨justify, false, happrove, fun _ _ => ?_⟩
    refine extendsJustify_of_imported hw₁.stored hpending hjustify ?_ (by simpa using hextends)
    rw [heq]
    exact hheld

end N42
