import N42.Conduct.Commit

/-!
Votes, own blocks, decisions, and the entry point of the engine.
-/

namespace N42

open Lib EngineM List Outcome Guarantee

instance (L : ℕ → Prop) : Placid (Prelude L) where
  refl := .refl
  trans _ _ _ := .trans
  push := .push
  setEngine _ _ h := .of_quiet (.setEngine (congrArg Prod.fst h)) (congrArg Prod.snd h)

variable {L : ℕ → Prop} {em : EpochManager}

theorem Prelude.setEngine {w : World} {e : Engine} (hround : e.roundState.lockedQc =
      w.engine.roundState.lockedQc ∧ e.roundState.currentView = w.engine.roundState.currentView ∧
      e.roundState.lastCommittedQc = w.engine.roundState.lastCommittedQc)
    (hepochs : e.epochManager = w.engine.epochManager)
    (hclean : w.frame.Clean → (w.setEngine e).frame.Clean)
    (hlevel : ∀ k, w.frame.Leveled k → (w.setEngine e).frame.Leveled k) :
    Prelude L w (w.setEngine e) where
  suffix := suffix_refl _
  view_eq := hround.2.1
  committed := hround.2.2
  epochs := hepochs
  clean := hclean
  level := fun k _ _ hk => by
    refine ⟨?_, hlevel k hk.frame⟩
    show e.roundState.lockedQc.view ≤ max e.roundState.currentView k
    rw [hround.1, hround.2.1]
    exact hk.lock

def Preparing (L : ℕ → Prop) {α : Type} (x : EngineM α) (w : World) : Prop :=
  Guarantee (Prelude L) x w fun _ _ => True

namespace Preparing

variable {α : Type} {w : World}

theorem of_run {x : EngineM α} {a : α} {w' : World} (hrun : x w = .ok a w')
    (h : Prelude L w w') : Preparing L x w := by
  unfold Preparing Guarantee
  rw [hrun]
  exact ⟨h, trivial⟩

theorem updateLockedQc {qc : QuorumCertificate} (h : qc.view ≤ w.view) :
    Preparing L (EngineM.updateLockedQc qc) w := by
  obtain ⟨w', hrun, hs, hframe, hlock, hepochs⟩ := updateLockedQc_run qc w
  refine of_run hrun (.of_quiet ⟨hs, hframe, fun k _ => ?_⟩ hepochs)
  omega

end Preparing

variable {α β : Type}

theorem Settling.after [Crypto] {w : World} {x : EngineM α} {k : α → EngineM β}
    (hx : Preparing L x w) (hk : ∀ a w', Prelude L w w' → Settling L em (k a) w') :
    Settling L em (x >>= k) w :=
  .bind (of_guarantee hx) fun a w' hw' _ => hk a w' hw'

theorem Settling.run_bind [Crypto] {w w' : World} {x : EngineM α} {k : α → EngineM β} {a : α}
    (hrun : x w = .ok a w') (h : Prelude L w w') (hk : Settling L em (k a) w') :
    Settling L em (x >>= k) w := by
  refine .bind (P := fun a' w'' => a' = a ∧ w'' = w') ?_ ?_
  · unfold Outcome
    rw [hrun]
    exact ⟨h, rfl, rfl⟩
  · rintro _ _ - ⟨rfl, rfl⟩
    exact hk

theorem Settling.of_clean [Crypto] {w : World} {α : Type} {x : EngineM α}
    (h : w.frame.Clean → Settling L em x w) : Settling L em x w :=
  fun hw => h hw hw

section Votes

variable [Crypto] {w : World} {advance : ℕ → EngineM Unit}

omit [Crypto] in
theorem commitRound_run (qc : QuorumCertificate) (w : World) :
    ∃ w', commitRound qc w = .ok () w' ∧ w.log <:+ w'.log ∧ w'.frame = w.frame.commit qc ∧
      w'.lockView ≤ max w.lockView qc.view ∧ w'.engine.epochManager = w.engine.epochManager ∧
      w'.engine.pendingChangesHashes = w.engine.pendingChangesHashes := by
  refine ⟨_, rfl, suffix_cons _ _, rfl, ?_, rfl, rfl⟩
  show (if _ then qc else _ : QuorumCertificate).view ≤ _
  split
  · exact Nat.le_max_right _ _
  · exact Nat.le_max_left _ _

theorem finishCommit_finishes (hadv : Advancing advance) (qc : QuorumCertificate)
    (blockHash changesHash : B256) :
    Finishes w.engine.epochManager qc changesHash (do
      let committedChanges ← stageCommitted changesHash
      emit (.broadcastMessage (.decide
        { view := qc.view, blockHash, commitQc := qc, validatorChangesHash := changesHash }))
      announceCommit advance qc.view blockHash qc committedChanges) w := by
  refine .of_stages blockHash id (stageCommitted_stages changesHash) fun changes w' hw' => ?_
  refine bind ((emit_outcome (L := AnyHeight) _).mono (fun _ _ h => h)
    fun _ h => ⟨.of_quiet h.1 hw', h.2⟩) fun _ w₁ hw₁ => ?_
  have hcalm := Calm.of_quiet hw₁ hw'
  refine (announceCommit_outcome hadv hcalm.clean _ _ _ _).mono (fun _ _ h => ?_) fun _ h => ?_
  · exact ⟨hcalm.trans h.1, h.2.1, h.2.2.before hcalm.suffix⟩
  · exact ⟨hcalm.trans h.1, h.2.of_suffix hcalm.suffix⟩

theorem tryFormCommitQc_settles (hadv : Advancing advance) :
    Settling L w.engine.epochManager (tryFormCommitQc advance) w := by
  refine .engine_bind ?_
  split
  · exact .pure
  next collector hcollector =>
  refine .ite (fun _ => .pure) fun _ => .rank_bind (.ofExcept_bind fun qc hqc hw => ?_)
  have hview : qc.view = w.view :=
    (VoteCollector.buildQcWithProfileMessage_ok hqc).1.trans (hw.commitVotes collector hcollector)
  set blockHash := collector.blockHash
  set changesHash := w.engine.cachedChangesHash blockHash with hhash
  set accepted : Effect := .accept (.commit qc changesHash)
    (w.engine.validatorSetForView w.engine.currentView)
    (w.engine.epochManager.knownValidatorSetForView qc.view) with haccepted
  obtain ⟨w₁, hrun, hs, hframe, hlock, hepochs, hhashes⟩ := commitRound_run qc (w.push accepted)
  have hfinish := finishCommit_finishes (w := w₁) hadv qc blockHash changesHash
  rw [hepochs] at hfinish
  have hsettles := hfinish.settles (L := L) (w := w.push accepted) hw (.push w accepted)
    ⟨_, _, .head rfl (suffix_refl _)⟩ hs hframe hlock hview.ge
    fun k _ _ => .inl (hview.le.trans (Nat.le_max_left _ _))
  refine run_bind (t := w.push accepted) rfl ?_
  refine run_bind hrun (engine_outcome ?_)
  have hcached : w₁.engine.cachedChangesHash blockHash = changesHash := by
    rw [Engine.cachedChangesHash, hhashes]
    rfl
  rw [hcached, show w.engine.currentView = qc.view from hview.symm]
  exact hsettles

section

omit [Crypto]

theorem Prelude.setCollectors {votes commitVotes : Option VoteCollector}
    (hvotes : w.frame.Clean → ∀ c, votes = some c → c.view = w.view)
    (hcommitVotes : w.frame.Clean → ∀ c, commitVotes = some c → c.view = w.view) :
    Prelude L w (w.setEngine { w.engine with
      voteCollector := votes, commitCollector := commitVotes }) :=
  .setEngine ⟨rfl, rfl, rfl⟩ rfl
    (fun hw => ⟨hvotes hw, hcommitVotes hw, hw.buffer⟩)
    fun _ hk => ⟨hk.timeouts, hk.future, hk.buffer⟩

variable {c c' : VoteCollector} {i : ℕ} {signature : BlsSignature}

theorem Prelude.addVote (hc : w.engine.voteCollector = some c)
    (hadd : c.addVerifiedVote i signature = some c') :
    Prelude L w (w.setEngine { w.engine with voteCollector := some c' }) := by
  refine .setCollectors (fun hw => ?_) fun hw => hw.commitVotes
  rintro _ ⟨rfl⟩
  exact (VoteCollector.addVerifiedVote_eq_some hadd).1.trans (hw.votes c hc)

theorem Prelude.addCommitVote (hc : w.engine.commitCollector = some c)
    (hadd : c.addVerifiedVote i signature = some c') :
    Prelude L w (w.setEngine { w.engine with commitCollector := some c' }) := by
  refine .setCollectors (fun hw => hw.votes) fun hw => ?_
  rintro _ ⟨rfl⟩
  exact (VoteCollector.addVerifiedVote_eq_some hadd).1.trans (hw.commitVotes c hc)

/-- The node's own share goes into the collector it is for. -/
theorem Preparing.ownShare {collector : Option VoteCollector} (item : Item)
    {store : VoteCollector → Engine → Engine}
    (hstore : ∀ {c c'}, collector = some c → c.addVerifiedVote i signature = some c' →
      ∀ w', w'.engine = w.engine → Prelude L w' (w'.setEngine (store c' w'.engine))) :
    Preparing L (match collector with
      | none => return
      | some collector =>
        match collector.addVerifiedVote i signature with
        | none => throw (.duplicateVote collector.view i)
        | some collector => do
          record (.ownShare i item)
          update (store collector)) w := by
  split
  · exact .pure trivial
  · split
    · exact .throw
    next added hadd =>
    exact .run_bind rfl (.push w _) (Preparing.of_run rfl (hstore rfl hadd _ rfl))

end

theorem castOwnCommitVote_prepares (view : ℕ) (blockHash : B256) :
    Preparing L (castOwnCommitVote view blockHash) w := by
  refine bind .placid fun _ w₁ _ _ => engine_guarantee ?_
  refine run_bind rfl (.push w₁ _) (Preparing.ownShare _ fun hc hadd w' hw' => ?_)
  exact .addCommitVote (hw' ▸ hc) hadd

theorem castOwnVote_prepares (view : ℕ) (blockHash : B256) :
    Preparing L (castOwnVote view blockHash) w := by
  refine bind .placid fun _ w₁ _ _ => ?_
  refine run_bind rfl (.push w₁ _) (engine_guarantee ?_)
  refine Preparing.ownShare _ fun hc hadd w' hw' => ?_
  exact .addVote (hw' ▸ hc) hadd

variable (hadv : Advancing advance)
include hadv

theorem tryFormPrepareQc_settles :
    Settling L w.engine.epochManager (tryFormPrepareQc advance) w := by
  refine .engine_bind ?_
  split
  · exact .pure
  next collector hcollector =>
  refine .ite (fun _ => .pure) fun _ =>
    .rank_bind (.ofExcept_bind fun qc hqc => .of_clean fun hw => ?_)
  have hview : qc.view = w.view :=
    (VoteCollector.buildQcWithProfileMessage_ok hqc).1.trans (hw.votes collector hcollector)
  refine .after .placid fun _ w₁ hw₁ => .after .placid fun _ w₂ hw₂ => ?_
  refine .after .placid fun _ w₃ hw₃ => ?_
  have hw₃' := (hw₁.trans hw₂).trans hw₃
  refine .after (.updateLockedQc ?_) fun _ w₄ hw₄ => .after .placid fun _ w₅ hw₅ => ?_
  · rw [hw₃'.view_eq, hview]
  refine .engine_bind (.ite (fun _ => .pure) fun _ => ?_)
  refine .after (castOwnCommitVote_prepares _ _) fun _ w₆ hw₆ => ?_
  rw [← ((hw₃'.trans hw₄).trans (hw₅.trans hw₆)).epochs]
  exact tryFormCommitQc_settles hadv

theorem countVote_settles (vote : Vote) :
    Settling L w.engine.epochManager (countVote advance vote) w := by
  refine .engine_bind ?_
  refine .run_bind rfl (.of_quiet (.setEngine rfl) rfl) ?_
  split
  · exact .after .placid fun _ _ _ => .pure
  split
  · exact .pure
  next collector hcollector =>
  refine .ite (fun _ => .pure) fun _ => ?_
  split
  · exact .pure
  next added hadded =>
  exact .run_bind rfl (.addVote hcollector hadded) (tryFormPrepareQc_settles hadv)

theorem countCommitVote_settles (cv : CommitVote) :
    Settling L w.engine.epochManager (countCommitVote advance cv) w := by
  refine .engine_bind ?_
  refine .run_bind rfl (.of_quiet (.setEngine rfl) rfl) ?_
  split
  · exact .after .placid fun _ _ _ => .pure
  split
  · exact .pure
  next collector hcollector =>
  refine .ite (fun _ => .pure) fun _ => ?_
  split
  · exact .pure
  next added hadded =>
  exact .run_bind rfl (.addCommitVote hcollector hadded) (tryFormCommitQc_settles hadv)

theorem processVoteInner_settles (vote : Vote) (verified : Bool) :
    Settling L w.engine.epochManager (processVoteInner advance vote verified) w := by
  refine .engine_bind (.ite (fun _ => .throw_bind) fun _ => .ite (fun _ => .pure) fun _ => ?_)
  refine .ite (fun _ => ?_) fun _ => countVote_settles hadv vote
  refine .after .placid fun _ w₁ hw₁ => ?_
  rw [← hw₁.epochs]
  exact countVote_settles hadv vote

theorem processCommitVoteInner_settles (cv : CommitVote) (verified : Bool) :
    Settling L w.engine.epochManager (processCommitVoteInner advance cv verified) w := by
  unfold processCommitVoteInner
  refine .engine_bind (.ite (fun _ => .throw_bind) fun _ => .ite (fun _ => .pure) fun _ => ?_)
  refine .ite (fun _ => ?_) fun _ => countCommitVote_settles hadv cv
  refine .after .placid fun _ w₁ hw₁ => ?_
  rw [← hw₁.epochs]
  exact countCommitVote_settles hadv cv

theorem onBlockReady_settles (blockHash : B256) (txRootHash : Option B256) :
    Settling L w.engine.epochManager (onBlockReady advance blockHash txRootHash) w := by
  refine .engine_bind (.ite (fun _ => .pure) fun _ => .ite (fun _ => .pure) fun _ => ?_)
  refine .run_bind rfl (.push w _) (.run_bind rfl (.of_quiet (.setEngine rfl) rfl) ?_)
  refine .ite (fun _ => .throw_bind) fun _ => ?_
  refine .run_bind rfl (.of_quiet (.setEngine rfl) rfl) ?_
  -- both collectors start empty, in the current view
  refine .run_bind rfl (.setEngine ⟨rfl, rfl, rfl⟩ rfl (fun hw => ⟨?_, ?_, hw.buffer⟩)
    fun _ hk => ⟨hk.timeouts, hk.future, hk.buffer⟩) ?_
  · rintro _ ⟨rfl⟩
    rfl
  · rintro _ ⟨rfl⟩
    rfl
  refine .ite (fun _ => .pure) fun _ => ?_
  refine .after (castOwnVote_prepares _ _) fun _ w₁ hw₁ => ?_
  refine .after .placid fun _ w₂ hw₂ => .after .placid fun _ w₃ hw₃ => ?_
  have hepochs : w₃.engine.epochManager = w.engine.epochManager :=
    ((hw₁.trans hw₂).trans hw₃).epochs
  rw [← hepochs]
  exact tryFormPrepareQc_settles hadv

end Votes

section Decisions

variable [Crypto] {w : World} {advance : ℕ → EngineM Unit}

theorem authenticateDecide_prepares (d : Decide) :
    Guarantee (Prelude L) (authenticateDecide d) w fun _ w' => d.commitQc.view = d.view ∧
      ∃ used known,
        Added w w' (.accept (.commit d.commitQc d.validatorChangesHash) used known) := by
  refine engine_guarantee (.ofExcept_bind fun set _ => ?_)
  refine .ite (fun _ => .throw_bind) fun _ => .ite (fun _ => .throw_bind) fun hview => ?_
  refine .ite (fun _ => .throw_bind) fun _ => engine_guarantee (.ofExcept_bind fun _ _ => ?_)
  exact ⟨.push w _, not_not.mp hview, _, _, .head rfl (suffix_refl _)⟩

theorem stageDecided_finishes (hadv : Advancing advance) {d : Decide}
    (hview : d.commitQc.view = d.view) :
    Finishes w.engine.epochManager d.commitQc d.validatorChangesHash (do
      let committedChanges ← stageDecided d
      announceCommit advance d.view d.blockHash d.commitQc committedChanges) w := by
  refine .of_stages d.blockHash id (stageDecided_stages d) fun changes w' hw' => ?_
  rw [hview]
  exact announceCommit_outcome hadv hw' _ _ _ _

/-- A decision ahead of the view may leave the lock there if its changes cannot be staged. -/
theorem processDecide_settles (hadv : Advancing advance) {d : Decide}
    (hlevel : ∀ k, L k → d.view ≤ max w.view k ∨
      (StagingOk w.engine.epochManager d.validatorChangesHash ∧ d.view ≤ u64Max)) :
    Settling L w.engine.epochManager (processDecide advance d) w := by
  refine .engine_bind (.ite (fun _ => .pure) fun hahead hw => ?_)
  refine bind ((of_guarantee (authenticateDecide_prepares (L := L) d)).mono
    (fun _ _ h => h) fun _ h => .of_prelude h) ?_
  rintro _ w₁ ⟨hw₁, hview, used, known, haccepted⟩
  have hcached : Prelude L w₁ (w₁.setEngine { w₁.engine with
      pendingChangesHashes := w₁.engine.pendingChangesHashes.insert d.blockHash
        d.validatorChangesHash }) := .of_quiet (.setEngine rfl) rfl
  refine run_bind rfl ?_
  have hgap : Preparing L (reportGap w.engine.currentView d.view) (w₁.setEngine { w₁.engine with
      pendingChangesHashes := w₁.engine.pendingChangesHashes.insert d.blockHash
        d.validatorChangesHash }) :=
    .placid
  refine bind ((of_guarantee hgap).mono (fun _ _ h => h)
    fun _ h => .of_prelude (hw₁.trans (hcached.trans h))) ?_
  rintro _ w₂ ⟨hw₂, -⟩
  have hpre : Prelude L w w₂ := hw₁.trans (hcached.trans hw₂)
  obtain ⟨w₃, hrun₃, hs₃, hframe₃, hlock₃, hepochs₃⟩ := updateLockedQc_run d.commitQc w₂
  obtain ⟨w₄, hrun₄, hs₄, hframe₄, hlock₄, hepochs₄, -⟩ := commitRound_run d.commitQc w₃
  have hfinish := stageDecided_finishes (w := w₄) hadv hview
  rw [hepochs₄, hepochs₃, hpre.epochs] at hfinish
  have hsettles := hfinish.settles (hpre.clean hw) hpre
    ⟨used, known, haccepted.after (hcached.trans hw₂).suffix⟩ (hs₃.trans hs₄)
    (by rw [hframe₄, hframe₃]) (by omega)
    (by rw [hpre.view_eq, hview]; exact Nat.le_of_not_lt hahead)
    fun k hL _ => by rw [hpre.view_eq, hview]; exact hlevel k hL
  exact run_bind hrun₃ (run_bind hrun₄ hsettles)

end Decisions

section Jumps

variable [Crypto] {w : World} {advance : ℕ → EngineM Unit} {m : ConsensusMessage}

omit [Crypto] in
theorem ConsensusMessage.mem_qcs_of_extractQc {qc : QuorumCertificate}
    (h : m.extractQc = some qc) : qc ∈ m.qcs := by
  cases m with
  | vote v => cases h
  | commitVote cv => cases h
  | _ =>
    cases h
    exact mem_cons_self

omit [Crypto] in
theorem Reaching.andReturn {target : ℕ} {x : EngineM α} (b : β) (hx : Reaching L target x w) :
    Reaching L target (x >>= fun _ => pure b) w :=
  fun hw => bind (hx hw) fun _ _ h => .pure h

theorem tryQcViewJump_calm (hadv : Advancing advance) (hwire : ∀ qc ∈ m.qcs, qc.view ≤ u64Max) :
    Calmly L (tryQcViewJump advance m) w := by
  unfold tryQcViewJump
  split
  · exact .pure
  next qc hqc =>
  refine .ite (fun _ => .pure) fun _ => .bind (.of_quietly .placid) fun verified w₁ _ => ?_
  refine .ite (fun _ => .pure) fun _ => .ite (fun _ => .pure) fun _ => ?_
  have htarget : ∀ k, L k → w₁.Leveled k → qc.view ≤ max (max (satAdd qc.view 1) w₁.view) k := by
    have := hwire qc (ConsensusMessage.mem_qcs_of_extractQc hqc)
    simp only [satAdd]
    omega
  refine calmly_lock (fun w₂ _ => ?_) htarget
  refine .after (x := updateRound _) (show Quiet _ w₂ _ from .setEngine rfl) fun _ w₃ _ => ?_
  refine .after (emit_outcome _) fun _ w₄ _ => ?_
  simpa only [bind_assoc] using ((hadv AnyHeight w₄ _).emit_viewChanged).andReturn true

theorem tryQcViewJump_of_none (hqc : m.extractQc = none) :
    tryQcViewJump advance m w = .ok false w := by
  cases m with
  | vote v => rfl
  | commitVote cv => rfl
  | _ => cases hqc

variable {proof : Option AuthenticatedVoteProof}

section

variable (hexempt : isExempt m = false) (hlevel : ∀ k, L k → m.Level)
include hexempt hlevel

omit [Crypto] in
theorem setBuffer_calm {kept : Engine → List (ℕ × ConsensusMessage)}
    (hkept : ∀ entry ∈ kept w.engine, entry ∈ w.engine.futureMsgBuffer) :
    Calmly L (update fun e => { e with futureMsgBuffer := kept e ++ [(m.view, m)] }) w := by
  refine .update ⟨rfl, rfl, rfl⟩ (fun hw => { hw with buffer := fun view m' hm => ?_ }) id
    fun k hL hk => { hk.frame with buffer := fun view m' hm => ?_ }
  · rcases mem_append.mp hm with hm | hm
    · exact hw.buffer view m' (hkept _ hm)
    · cases mem_singleton.mp hm
      exact hexempt
  · rcases mem_append.mp hm with hm | hm
    · exact hk.frame.buffer view m' (hkept _ hm)
    · cases mem_singleton.mp hm
      exact hlevel k hL

omit [Crypto] in
theorem bufferMessage_calm : Calmly L (bufferMessage m) w := by
  refine setBuffer_calm hexempt hlevel fun entry h => ?_
  split at h
  · exact mem_of_mem_swapRemove h
  · exact h

variable (hadv : Advancing advance)
include hadv

theorem dispatchMessage_calm (hqc : m.extractQc ≠ none) :
    Calmly L (dispatchMessage advance m proof) w := by
  cases m with
  | proposal p => exact .of_quietly (processProposal_quiet hlevel)
  | vote v => exact absurd rfl hqc
  | commitVote cv => exact absurd rfl hqc
  | prepareQc pqc => exact .of_quietly (processPrepareQc_quiet pqc)
  | timeout t =>
    refine processTimeout_calm hadv fun k hL _ => ?_
    exact (hlevel k hL t.highQc mem_cons_self).trans (Nat.le_max_left _ _)
  | newView nv => cases hexempt
  | decide d => cases hexempt

theorem afterJump_calm (hqc : m.extractQc ≠ none) : Calmly L (afterJump advance m proof) w := by
  refine .engine_bind (.ite (fun _ => dispatchMessage_calm hexempt hlevel hadv hqc) fun _ => ?_)
  exact .ite (fun _ => setBuffer_calm hexempt hlevel fun _ h => h) fun _ => .pure

variable (hwire : ∀ qc ∈ m.qcs, qc.view ≤ u64Max)
include hwire

/-- A jump if there is a certificate for one, and else `rest`. -/
theorem jumpOr_calm {rest : EngineM Unit} (hrest : ∀ w, Calmly L rest w) :
    Calmly L (do if ← tryQcViewJump advance m then afterJump advance m proof else rest) w := by
  by_cases hqc : m.extractQc = none
  · intro hw
    exact run_bind (tryQcViewJump_of_none hqc) (hrest w hw)
  · refine .bind (tryQcViewJump_calm hadv hwire) fun jumped w' _ => ?_
    exact .ite (fun _ => afterJump_calm hexempt hlevel hadv hqc) fun _ => hrest w'

theorem processFutureMessage_calm : Calmly L (processFutureMessage advance m proof) w := by
  have hbuffer : ∀ w, Calmly L
      (do if ← tryQcViewJump advance m then afterJump advance m proof else bufferMessage m) w :=
    fun w => jumpOr_calm hexempt hlevel hadv hwire fun _ => bufferMessage_calm hexempt hlevel
  refine .engine_bind (.ite (fun _ => ?_) fun _ => ?_)
  · split
    · next t _ =>
      refine .bind (collectFutureTimeout_calm hadv fun k hL => ?_) fun collected w' _ => ?_
      · exact hlevel k hL t.highQc mem_cons_self
      · exact .ite (fun _ => .pure) fun _ => hbuffer w'
    · exact hbuffer w
  · exact jumpOr_calm hexempt hlevel hadv hwire fun _ => .pure

end

end Jumps

section Entry

variable [Crypto] {w : World} {advance : ℕ → EngineM Unit} {m : ConsensusMessage}

/-- The message cannot leave the lock ahead of the view. -/
structure ConsensusMessage.Steady (m : ConsensusMessage) (view : ℕ) (em : EpochManager) : Prop where
  level : m.Level
  staged : ∀ d, m = .decide d → d.view ≤ view ∨ StagingOk em d.validatorChangesHash

variable {proof : Option AuthenticatedVoteProof}

theorem dispatchMessage_settles (hadv : Advancing advance) (hwire : m.Wire)
    (hsteady : ∀ k, L k → m.Steady w.view w.engine.epochManager) :
    Settling L w.engine.epochManager (dispatchMessage advance m proof) w := by
  have hlevel : ∀ k, L k → m.Level := fun k hL => (hsteady k hL).level
  cases m with
  | proposal p => exact .of_calmly (.of_quietly (processProposal_quiet hlevel))
  | vote v => exact processVoteInner_settles hadv v _
  | commitVote cv => exact .engine_bind (processCommitVoteInner_settles hadv cv _)
  | prepareQc pqc => exact .of_calmly (.of_quietly (processPrepareQc_quiet pqc))
  | timeout t =>
    refine .of_calmly (processTimeout_calm hadv fun k hL _ => ?_)
    exact (hlevel k hL t.highQc mem_cons_self).trans (Nat.le_max_left _ _)
  | newView nv =>
    exact .of_calmly (processNewView_calm hadv fun k hL =>
      hlevel k hL nv.timeoutCert.highQc mem_cons_self)
  | decide d =>
    refine processDecide_settles hadv fun k hL => ?_
    rcases (hsteady k hL).staged d rfl with hle | hok
    · exact .inl (hle.trans (Nat.le_max_left _ _))
    · exact .inr ⟨hok, hwire.1⟩

theorem processMessageInner_settles (hadv : Advancing advance) (hwire : m.Wire)
    (hsteady : ∀ k, L k → m.Steady w.view w.engine.epochManager) :
    Settling L w.engine.epochManager (processMessageInner advance m proof) w := by
  refine .engine_bind (.ite (fun hfuture => .of_calmly ?_) fun _ => .ite (fun _ => ?_) fun _ => ?_)
  · exact processFutureMessage_calm (by simpa using hfuture.2) (fun k hL => (hsteady k hL).level)
      hadv hwire.2.1
  · split
    · exact .of_calmly (.of_quietly .placid)
    · exact .pure
  · exact dispatchMessage_settles hadv hwire hsteady

theorem ConsensusMessage.Steady.of_vote (hqcs : m.qcs = []) (view : ℕ) (em : EpochManager) :
    m.Steady view em where
  level := fun qc hqc => by simp [hqcs] at hqc
  staged := by
    rintro d rfl
    cases hqcs

theorem handle_settles {input : Input} (hw : w.frame.Clean) (hwire : ∀ m ∈ input.messages, m.Wire)
    (hauth : ∀ m proof, input = .authenticated m proof → m.Wire ∧ m.qcs = [])
    (hsteady : ∀ k, L k → ∀ m, input = .message m → m.Steady w.view w.engine.epochManager) :
    Outcome (handle input) w
      (fun _ w' => Settles L w.engine.epochManager w w' ∧ .deliver input :: w.log <:+ w'.log)
      fun w' => Settles L w.engine.epochManager w w' ∧ .deliver input :: w.log <:+ w'.log := by
  have hlift : ∀ x : EngineM Unit, Settling L w.engine.epochManager x (w.push (.deliver input)) →
      Outcome x (w.push (.deliver input))
        (fun _ w' => Settles L w.engine.epochManager w w' ∧ .deliver input :: w.log <:+ w'.log)
        fun w' => Settles L w.engine.epochManager w w' ∧ .deliver input :: w.log <:+ w'.log :=
    fun x hx => (hx hw).mono
      (fun _ _ hs => ⟨(Prelude.push w _).settles hs, hs.suffix⟩)
      fun _ hs => ⟨(Prelude.push w _).settles hs, hs.suffix⟩
  refine run_bind (t := w.push (.deliver input)) rfl (engine_outcome (hlift _ ?_))
  have hadv := advanceToView_reaching (w.engine.futureMsgBuffer.length + 1)
  cases input with
  | message m =>
    exact processMessageInner_settles (w := w.push _) hadv (hwire m mem_cons_self) fun k hL =>
      hsteady k hL m rfl
  | blockReady blockHash txRootHash => exact onBlockReady_settles (w := w.push _) hadv _ _
  | blockImported blockHash => exact .of_calmly (.of_quietly .placid)
  | blockImportedWithParent blockHash parentHash =>
    exact .of_calmly (.of_quietly .placid)
  | timeout => exact .of_calmly (onTimeout_calm hadv)
  | voteBatch messages => exact .of_calmly (.of_quietly .placid)
  | authenticated m proof =>
    obtain ⟨hm, hqcs⟩ := hauth m proof rfl
    exact processMessageInner_settles (w := w.push _) hadv hm fun _ _ => .of_vote hqcs _ _
  | proposeAdd info => exact .of_calmly (.of_quietly .placid)
  | proposeRemove address => exact .of_calmly (.of_quietly .placid)

omit [Crypto] in
theorem TokenBasis.qcs_eq_nil {log : List Effect} {proof : AuthenticatedVoteProof}
    (h : TokenBasis log m proof) : m.qcs = [] := by
  cases m with
  | vote v => rfl
  | commitVote cv => rfl
  | _ => exact h.elim

theorem Inv.clean {cfg : NodeConfig} (hw : Inv cfg w) : w.frame.Clean where
  votes c hc := (hw.stored.votes c hc).1
  commitVotes c hc := (hw.stored.commitVotes c hc).1
  buffer view m hm := (hw.stored.buffer view m hm).2

theorem runInput_settles {cfg : NodeConfig} {e : Engine} {log : List Effect} {env : Env}
    {input : Input} (hw : Inv cfg ⟨e, log, env⟩) (hadm : input.Admissible log)
    (hsteady : ∀ k, L k → ∀ m, input = .message m →
      m.Steady e.roundState.currentView e.epochManager) :
    Settles L e.epochManager ⟨e, log, env⟩ (runInput e log env input) ∧
      .deliver input :: log <:+ (runInput e log env input).log := by
  have hauth : ∀ m proof, input = .authenticated m proof → m.Wire ∧ m.qcs = [] := by
    intro m proof hinput
    obtain ⟨hm, hbasis⟩ := hw.valid.token (hadm.authorized m proof hinput)
    exact ⟨hw.valid.wire hm, hbasis.qcs_eq_nil⟩
  have h := handle_settles (w := ⟨e, log, env⟩) hw.clean hadm.wire hauth hsteady
  unfold Outcome at h
  unfold runInput EngineM.world
  cases hres : handle input ⟨e, log, env⟩ with
  | ok a w' =>
    rw [hres] at h
    exact h
  | error err w' =>
    rw [hres] at h
    exact h

end Entry

end N42
