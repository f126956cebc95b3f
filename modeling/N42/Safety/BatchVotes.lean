import N42.Conduct.Blind
import N42.Network.Script

/-!
Votes that were authenticated in a batch are handled as plain ones: a token spares a signature check
that would have passed. A vote that the batch verifier rejected is dropped without an error.
-/

namespace N42

open Lib EngineM List

variable {rank : ℕ → ℕ} {base₁ base₂ : List Effect}

section Batch

variable [Crypto]

/-- Hands the results of the batch verifier back to the positions of the messages. -/
def Engine.alignProofs (e : Engine) :
    List ConsensusMessage → List Bool → List (Option AuthenticatedVoteProof)
  | [], _ => []
  | m :: messages, good =>
    match e.voteCandidate m, good with
    | some c, valid :: good => (if valid then some c.proof else none) :: e.alignProofs messages good
    | some _, [] => none :: e.alignProofs messages []
    | none, good => none :: e.alignProofs messages good

variable (e : Engine) (messages : List ConsensusMessage)

def Engine.voteCandidates : List VoteCandidate :=
  messages.filterMap e.voteCandidate

def Engine.batchProofs : List (Option AuthenticatedVoteProof) :=
  e.alignProofs messages (batchVerify e.signingProfile ((e.voteCandidates messages).map fun c =>
    (c.item.message e.signingProfile, c.signature, c.publicKey)))

/-- What `handle_network_event_with_auth` does with a vote of a drained batch: a commit vote
without a proof is handled as a plain message, a vote without one is dropped. -/
def handleDrained (m : ConsensusMessage) : Option AuthenticatedVoteProof → EngineM Unit
  | some proof => handle (.authenticated m proof)
  | none =>
    match m with
    | .commitVote cv => handle (.message (.commitVote cv))
    | _ => pure ()

def Engine.proofFor (e : Engine) (m : ConsensusMessage) : Option AuthenticatedVoteProof :=
  (e.voteCandidate m).bind fun c =>
    if e.signingProfile.verifySingle c.publicKey (c.item.message e.signingProfile) c.signature
    then some c.proof else none

variable {e : Engine} {messages : List ConsensusMessage} {m : ConsensusMessage}

theorem Engine.batchProofs_eq (hsize : (e.voteCandidates messages).length ≤ 10000) :
    e.batchProofs messages = messages.map e.proofFor := by
  have hverify : batchVerify e.signingProfile ((e.voteCandidates messages).map fun c =>
      (c.item.message e.signingProfile, c.signature, c.publicKey)) =
      (e.voteCandidates messages).map fun c => e.signingProfile.verifySingle c.publicKey
        (c.item.message e.signingProfile) c.signature := by
    rw [batchVerify, if_neg (by simpa using hsize), map_map]
    rfl
  rw [batchProofs, hverify]
  clear hsize hverify
  induction messages with
  | nil => rfl
  | cons m messages ih =>
    unfold voteCandidates at ih ⊢
    cases hc : e.voteCandidate m with
    | none =>
      rw [filterMap_cons_none hc]
      simp only [alignProofs, hc, ih, map_cons, proofFor, Option.bind_none]
    | some c =>
      rw [filterMap_cons_some hc]
      simp only [alignProofs, hc, ih, map_cons, proofFor, Option.bind_some]

variable {proof : AuthenticatedVoteProof}

section

omit [Crypto]

theorem Engine.voteCandidate_message {c : VoteCandidate} (h : e.voteCandidate m = some c) :
    c.message = m := by
  unfold voteCandidate at h
  split at h
  · split at h
    · obtain ⟨pk, -, rfl⟩ := Option.map_eq_some_iff.mp h
      rfl
    · cases h
  · split at h
    · obtain ⟨pk, -, rfl⟩ := Option.map_eq_some_iff.mp h
      rfl
    · cases h
  · cases h

theorem Engine.mem_alignProofs {good : List Bool}
    (h : (m, some proof) ∈ messages.zip (e.alignProofs messages good)) :
    ∃ c, (c, true) ∈ (e.voteCandidates messages).zip good ∧ c.message = m ∧ c.proof = proof := by
  induction messages generalizing good with
  | nil => cases h
  | cons m' messages ih =>
    unfold voteCandidates at ih ⊢
    unfold alignProofs at h
    cases hc : e.voteCandidate m' with
    | none =>
      rw [hc] at h
      rcases mem_cons.mp h with heq | hmem
      · cases heq
      · rw [filterMap_cons_none hc]
        exact ih hmem
    | some c =>
      rw [filterMap_cons_some hc]
      rw [hc] at h
      cases good with
      | nil =>
        rcases mem_cons.mp h with heq | hmem
        · cases heq
        · obtain ⟨c', hmem', -⟩ := ih hmem
          simp at hmem'
      | cons valid good =>
        rcases mem_cons.mp h with heq | hmem
        · cases valid with
          | false => cases heq
          | true =>
            cases heq
            exact ⟨c, mem_cons_self, voteCandidate_message hc, rfl⟩
        · obtain ⟨c', hmem', hc'⟩ := ih hmem
          exact ⟨c', mem_cons_of_mem _ hmem', hc'⟩

theorem issueTokens_run (set : ValidatorSet) (entries : List (VoteCandidate × Bool)) (w : World) :
    ∃ added, issueTokens set entries w = .ok () { w with log := added ++ w.log } ∧
      (∀ core, Effect.boot core ∉ added) ∧
      ∀ c, (c, true) ∈ entries → .token c.message c.proof ∈ added := by
  induction entries generalizing w with
  | nil => exact ⟨[], rfl, by simp, by simp⟩
  | cons entry entries ih =>
    obtain ⟨candidate, good⟩ := entry
    cases good with
    | false =>
      obtain ⟨added, hrun, hboot, htoken⟩ := ih w
      exact ⟨added, hrun, hboot, fun c hc => htoken c (by simpa using hc)⟩
    | true =>
      obtain ⟨added, hrun, hboot, htoken⟩ := ih ((w.push (.share set candidate.signer
        candidate.item)).push (.token candidate.message candidate.proof))
      refine ⟨added ++ [.token candidate.message candidate.proof,
        .share set candidate.signer candidate.item], ?_, ?_, fun c hc => ?_⟩
      · refine Eq.trans (show _ = issueTokens set entries _ from rfl) (hrun.trans ?_)
        simp [World.push]
      · simpa using hboot
      · rcases mem_cons.mp hc with heq | hmem
        · cases heq
          simp
        · exact mem_append_left _ (htoken c hmem)

end

theorem token_of_batchProofs (hm : (m, some proof) ∈ messages.zip (e.batchProofs messages))
    (log : List Effect) (env : Env) :
    .token m proof ∈ sinceBoot (runInput e log env (.voteBatch messages)).log := by
  obtain ⟨c, hc, rfl, rfl⟩ := Engine.mem_alignProofs hm
  obtain ⟨added, hrun, hboot, htoken⟩ := issueTokens_run
    (e.validatorSetForView e.currentView) ((e.voteCandidates messages).zip _)
    ⟨e, .deliver (.voteBatch messages) :: log, env⟩
  have hlog : (runInput e log env (.voteBatch messages)).log =
      added ++ .deliver (.voteBatch messages) :: log := by
    have hhandle : handle (.voteBatch messages) ⟨e, log, env⟩ = _ := hrun
    rw [runInput, world, hhandle]
  rw [hlog, Grows.sinceBoot_append hboot]
  exact mem_append_left _ (htoken c hc)

def Effect.isExternal : Effect → Bool
  | .emit .. => true
  | .persistVote .. => true
  | .persistLock .. => true
  | .persistCommitVote .. => true
  | _ => false

/-- What can be seen of a run: the engine afterwards, everything written and sent so far, and
the error. -/
structure Observation where
  engine : Engine
  external : List Effect
  error : Option ConsensusError

def EngineM.observe (x : EngineM Unit) (w : World) : Observation :=
  match x w with
  | .ok _ w' => ⟨w'.engine, w'.log.filter Effect.isExternal, none⟩
  | .error err w' => ⟨w'.engine, w'.log.filter Effect.isExternal, some err⟩

/-- The observations that the world outside may make possible: it decides which writes and
outputs succeed. -/
def EngineM.observations (x : EngineM Unit) (e : Engine) (log : List Effect) (rank : ℕ → ℕ) :
    Set Observation :=
  Set.range fun fate => x.observe ⟨e, log, ⟨fate, rank⟩⟩

omit [Crypto] in
theorem Twins.external_eq {b₁ b₂ : List Effect} {w₁ w₂ : World} (h : Twins b₁ b₂ w₁ w₂)
    (hext : b₁.filter Effect.isExternal = b₂.filter Effect.isExternal) :
    w₁.log.filter Effect.isExternal = w₂.log.filter Effect.isExternal := by
  obtain ⟨added, h₁, h₂⟩ := h.gained
  rw [h₁, h₂, filter_append, filter_append, hext]

variable {x : EngineM Unit}

omit [Crypto]

theorem Blind.observe_eq [hx : Blind x] {b₁ b₂ : List Effect} {w₁ w₂ : World}
    (h : Twins b₁ b₂ w₁ w₂) (hext : b₁.filter Effect.isExternal = b₂.filter Effect.isExternal) :
    x.observe w₁ = x.observe w₂ := by
  unfold observe
  obtain ⟨a, w₁', w₂', h₁, h₂, hw⟩ | ⟨err, w₁', w₂', h₁, h₂, hw⟩ :=
    ((hx.agrees b₁ b₂).run _ _ h).cases
  · simp only [h₁, h₂, hw.engine, hw.external_eq hext]
  · simp only [h₁, h₂, hw.engine, hw.external_eq hext]

/-- What does not read the log is observed alike over any two logs. -/
theorem Blind.observations_eq [Blind x]
    (hext : base₁.filter Effect.isExternal = base₂.filter Effect.isExternal) :
    x.observations e base₁ rank = x.observations e base₂ rank := by
  have htwins : ∀ (b₁ b₂ : List Effect) (fate : ℕ → Fate),
      Twins b₁ b₂ ⟨e, b₁, ⟨fate, rank⟩⟩
        ⟨e, b₂, ⟨fun n => fate (n - b₂.length + b₁.length), rank⟩⟩ := fun b₁ b₂ fate =>
    { engine := rfl
      rank := rfl
      gained := ⟨[], rfl, rfl⟩
      fate := fun n => by simp }
  refine Set.Subset.antisymm ?_ ?_
  · rintro _ ⟨fate, rfl⟩
    exact ⟨_, (Blind.observe_eq (htwins base₁ base₂ fate) hext).symm⟩
  · rintro _ ⟨fate, rfl⟩
    exact ⟨_, (Blind.observe_eq (htwins base₂ base₁ fate) hext.symm).symm⟩

theorem EngineM.observations_congr {y : EngineM Unit} {log log' : List Effect}
    (h : ∀ env, x ⟨e, log, env⟩ = y ⟨e, log', env⟩) :
    x.observations e log rank = y.observations e log' rank := by
  refine congrArg Set.range (funext fun fate => ?_)
  rw [observe, observe, h]

end Batch

section Votes

variable [Crypto] {advance : ℕ → EngineM Unit} {w : World}

def ConsensusMessage.isVote : ConsensusMessage → Bool
  | .vote _ => true
  | .commitVote _ => true
  | _ => false

variable {m : ConsensusMessage} {signature : BlsSignature} {log : List Effect}

theorem processMessageInner_stale (hm : m.isVote = true) (hview : m.view < w.engine.currentView)
    (proof : Option AuthenticatedVoteProof) : processMessageInner advance m proof w = .ok () w := by
  have hexempt : (!isExempt m) = true := by cases m <;> first | rfl | cases hm
  show (if w.engine.currentView < m.view ∧ (!isExempt m) = true then _
    else if m.view < w.engine.currentView ∧ (!isExempt m) = true then _ else _ : EngineM Unit) w = _
  rw [if_neg fun h => absurd h.1 (by omega), if_pos ⟨hview, hexempt⟩]
  cases m with
  | vote v => rfl
  | commitVote cv => rfl
  | _ => cases hm

theorem processMessageInner_current (hview : m.view = w.engine.currentView)
    (proof : Option AuthenticatedVoteProof) :
    processMessageInner advance m proof w = dispatchMessage advance m proof w := by
  show (if w.engine.currentView < m.view ∧ (!isExempt m) = true then _
    else if m.view < w.engine.currentView ∧ (!isExempt m) = true then _ else _ : EngineM Unit) w = _
  rw [if_neg fun h => absurd h.1 (by omega), if_neg fun h => absurd h.1 (by omega)]

def Engine.Passes (e : Engine) (set : ValidatorSet) (index : ℕ) (item : Item)
    (signature : BlsSignature) : Prop :=
  ∃ pk, set.keyAt index = some pk ∧
    e.signingProfile.verifySingle pk (item.message e.signingProfile) signature = true

section Share

variable {set : ValidatorSet} {index : ℕ} {item : Item}

theorem verifyShare_of_key {pk : BlsPublicKey} (hkey : set.keyAt index = some pk) :
    verifyShare set index item signature w =
      if w.engine.signingProfile.verifySingle pk (item.message w.engine.signingProfile) signature
      then .ok () (w.push (.share set index item))
      else .error (.invalidSignature item.view index) w := by
  have hget : set.getPublicKey index = .ok pk := by rw [ValidatorSet.getPublicKey, hkey]
  unfold verifyShare
  rw [hget]
  show (if (!w.engine.signingProfile.verifySingle pk (item.message w.engine.signingProfile)
    signature) = true then _ else _ : EngineM Unit) w = _
  cases w.engine.signingProfile.verifySingle pk (item.message w.engine.signingProfile) signature
  · rfl
  · rfl

theorem verifyShare_passes (h : w.engine.Passes set index item signature) :
    verifyShare set index item signature w = .ok () (w.push (.share set index item)) := by
  obtain ⟨pk, hkey, hverify⟩ := h
  rw [verifyShare_of_key hkey, if_pos hverify]

theorem verifyShare_fails (h : ¬ w.engine.Passes set index item signature) :
    ∃ err, verifyShare set index item signature w = .error err w := by
  cases hkey : set.keyAt index with
  | none =>
    refine ⟨.unknownValidator index set.len, ?_⟩
    unfold verifyShare ValidatorSet.getPublicKey
    rw [hkey]
    rfl
  | some pk =>
    exact ⟨_, (verifyShare_of_key hkey).trans (if_neg fun hok => h ⟨pk, hkey, hok⟩)⟩

end Share

/-- The check of a current vote, made or spared, and what follows it. -/
def checkThen (leader verified : Bool) (check rest : EngineM Unit) : EngineM Unit :=
  if !leader then pure () else if !verified then check >>= fun _ => rest else rest

theorem processVoteInner_run {vote : Vote} (hview : vote.view = w.engine.currentView)
    (verified : Bool) :
    processVoteInner advance vote verified w = checkThen w.engine.isCurrentLeader verified
      (verifyShare (w.engine.validatorSetForView w.engine.currentView) vote.voter
        (.vote w.engine.currentView vote.blockHash) vote.signature) (countVote advance vote) w := by
  show (if vote.view ≠ w.engine.currentView then _ else _ : EngineM Unit) w = _
  rw [if_neg (not_not.mpr hview)]
  rfl

variable {e : Engine} {rank : ℕ → ℕ}

theorem processVoteInner_observations {vote : Vote} (hview : vote.view = e.currentView)
    (verified : Bool) :
    (processVoteInner advance vote verified).observations e log rank =
      (checkThen e.isCurrentLeader verified
        (verifyShare (e.validatorSetForView e.currentView) vote.voter
          (.vote e.currentView vote.blockHash) vote.signature)
        (countVote advance vote)).observations e log rank :=
  observations_congr fun env => processVoteInner_run (w := ⟨e, log, env⟩) hview verified

theorem processCommitVoteInner_observations {cv : CommitVote} (hview : cv.view = e.currentView)
    (verified : Bool) :
    (processCommitVoteInner advance cv verified).observations e log rank =
      (checkThen e.isCurrentLeader verified
        (verifyShare (e.validatorSetForView e.currentView) cv.voter
          (.commitVote e.currentView cv.blockHash (e.cachedChangesHash cv.blockHash)) cv.signature)
        (countCommitVote advance cv)).observations e log rank := by
  refine observations_congr fun env => ?_
  show (if cv.view ≠ e.currentView then _ else _ : EngineM Unit) _ = _
  rw [if_neg (not_not.mpr hview)]
  rfl

omit [Crypto] in
theorem checkThen_observations {leader : Bool} {check rest : EngineM Unit} [Blind rest] {x : Effect}
    (hx : x.isExternal = false)
    (hext : base₁.filter Effect.isExternal = base₂.filter Effect.isExternal)
    (hcheck : ∀ env, check ⟨e, base₁, env⟩ = .ok () (World.push ⟨e, base₁, env⟩ x)) :
    (checkThen leader false check rest).observations e base₁ rank =
      (checkThen leader true check rest).observations e base₂ rank := by
  cases leader with
  | false => exact Blind.observations_eq (x := pure ()) hext
  | true =>
    have hplain : (checkThen true false check rest).observations e base₁ rank =
        rest.observations e (x :: base₁) rank := by
      refine observations_congr fun env => ?_
      show (check >>= fun _ => rest) _ = _
      rw [bind_run, hcheck]
      rfl
    rw [hplain]
    refine Blind.observations_eq (x := rest) ?_
    rw [filter_cons_of_neg (by simp [hx]), hext]

section Proofs

variable {proof : AuthenticatedVoteProof}

theorem Engine.proofFor_iff {set : ValidatorSet} {index : ℕ} {item : Item}
    {issued : AuthenticatedVoteProof} (h : e.voteCandidate m =
      (set.keyAt index).map fun pk => ⟨m, issued, item, index, signature, pk⟩) :
    e.proofFor m = some proof ↔ proof = issued ∧ e.Passes set index item signature := by
  unfold proofFor Passes
  rw [h]
  cases set.keyAt index with
  | none => simp
  | some pk =>
    simp only [Option.map_some, Option.bind_some, Option.ite_none_right_eq_some,
      Option.some.injEq, exists_eq_left']
    exact ⟨fun h => ⟨h.2.symm, h.1⟩, fun h => ⟨h.2, h.1.symm⟩⟩

end Proofs

/-- As far as votes are concerned, a later state of the same engine: while the view is the
same, so are the keys. -/
structure Engine.Later (e₀ e₁ : Engine) : Prop where
  view_le : e₀.currentView ≤ e₁.currentView
  profile : e₁.signingProfile = e₀.signingProfile
  set : e₁.currentView = e₀.currentView →
    e₁.validatorSetForView e₁.currentView = e₀.validatorSetForView e₀.currentView

variable {e₀ e₁ : Engine}

theorem Engine.Later.passes_iff (h : e₀.Later e₁) (hview : e₁.currentView = e₀.currentView)
    {index : ℕ} {item : Item} :
    e₁.Passes (e₁.validatorSetForView e₁.currentView) index item signature ↔
      e₀.Passes (e₀.validatorSetForView e₀.currentView) index item signature := by
  unfold Passes
  rw [h.set hview, h.profile]

theorem handle_observations {input : Input} {proof : Option AuthenticatedVoteProof}
    (hinput : input = .message m ∧ proof = none ∨ ∃ p, input = .authenticated m p ∧
      proof = some p) :
    (handle input).observations e log rank =
      (processMessageInner (advanceToView (e.futureMsgBuffer.length + 1)) m proof).observations e
        (.deliver input :: log) rank := by
  refine observations_congr fun env => ?_
  obtain ⟨rfl, rfl⟩ | ⟨p, rfl, rfl⟩ := hinput
  · rfl
  · rfl

/-- A drained message is handled as a plain one, unless it is a vote without a proof. -/
theorem handleDrained_observations (hlater : e₀.Later e₁) (hm : m.isVote = true)
    (hview : m.view = e₀.currentView) (hproof : ∀ v, m = .vote v → e₀.proofFor m ≠ none) :
    (handleDrained m (e₀.proofFor m)).observations e₁ log rank =
      (handle (.message m)).observations e₁ log rank := by
  cases hhint : e₀.proofFor m with
  | none =>
    cases m with
    | vote v => exact absurd hhint (hproof v rfl)
    | commitVote cv => rfl
    | _ => cases hm
  | some proof =>
    have hext : (Effect.deliver (.authenticated m proof) :: log).filter Effect.isExternal =
        (Effect.deliver (.message m) :: log).filter Effect.isExternal := rfl
    have hle := hlater.view_le
    unfold handleDrained
    rw [handle_observations (.inr ⟨proof, rfl, rfl⟩), handle_observations (.inl ⟨rfl, rfl⟩)]
    by_cases hstale : m.view < e₁.currentView
    · rw [observations_congr (y := pure ()) fun env =>
          processMessageInner_stale (w := ⟨e₁, _, env⟩) hm hstale _,
        observations_congr (y := pure ()) fun env =>
          processMessageInner_stale (w := ⟨e₁, _, env⟩) hm hstale _]
      exact Blind.observations_eq hext
    have hsame : e₁.currentView = e₀.currentView := by omega
    have hcurrent : m.view = e₁.currentView := hview.trans hsame.symm
    rw [observations_congr fun env =>
        processMessageInner_current (w := ⟨e₁, _, env⟩) hcurrent _,
      observations_congr fun env =>
        processMessageInner_current (w := ⟨e₁, _, env⟩) hcurrent _]
    cases m with
    | vote v =>
      obtain ⟨rfl, hpasses⟩ := (Engine.proofFor_iff (m := .vote v) (if_pos hview)).mp hhint
      have hspared : ∀ advance, dispatchMessage advance (.vote v) (some (.vote v.voter)) =
          processVoteInner advance v true := fun advance => by simp [dispatchMessage]
      have hplain : ∀ advance, dispatchMessage advance (.vote v) none =
          processVoteInner advance v false := fun advance => by simp [dispatchMessage]
      rw [hspared, hplain, processVoteInner_observations hcurrent,
        processVoteInner_observations hcurrent]
      symm
      refine checkThen_observations rfl hext.symm fun env => verifyShare_passes ?_
      refine (hlater.passes_iff hsame).mpr ?_
      rwa [← hcurrent, show e₀.currentView = v.view from hview.symm]
    | commitVote cv =>
      obtain ⟨rfl, hpasses⟩ := (Engine.proofFor_iff (m := .commitVote cv) (if_pos hview)).mp hhint
      have hdispatch : ∀ advance proof base,
          (dispatchMessage advance (.commitVote cv) proof).observations e₁ base rank =
            (processCommitVoteInner advance cv (proof = some (.commitVote cv.voter
              (e₁.cachedChangesHash cv.blockHash)))).observations e₁ base rank := fun _ _ _ =>
        observations_congr fun _ => rfl
      rw [hdispatch, hdispatch]
      by_cases hhash : e₀.cachedChangesHash cv.blockHash = e₁.cachedChangesHash cv.blockHash
      · rw [hhash, decide_eq_true rfl, processCommitVoteInner_observations hcurrent,
          processCommitVoteInner_observations hcurrent]
        symm
        refine checkThen_observations rfl hext.symm fun env => verifyShare_passes ?_
        refine (hlater.passes_iff hsame).mpr ?_
        rwa [← hcurrent, ← hhash, show e₀.currentView = cv.view from hview.symm]
      · rw [decide_eq_false (by simpa using hhash)]
        exact Blind.observations_eq hext
    | _ => cases hm

/-- A vote that got no proof changes nothing, however it is handled. -/
theorem handle_rejected (hlater : e₀.Later e₁) {v : Vote} (hview : v.view = e₀.currentView)
    (hproof : e₀.proofFor (.vote v) = none) (env : Env) :
    ∃ error, (handle (.message (.vote v))).observe ⟨e₁, log, env⟩ =
      ⟨e₁, log.filter Effect.isExternal, error⟩ := by
  have hle := hlater.view_le
  have hhandle : ∀ advance, advance = advanceToView (e₁.futureMsgBuffer.length + 1) →
      handle (.message (.vote v)) ⟨e₁, log, env⟩ = processMessageInner advance (.vote v) none
        ⟨e₁, .deliver (.message (.vote v)) :: log, env⟩ := by
    rintro _ rfl
    rfl
  unfold observe
  rw [hhandle _ rfl]
  by_cases hstale : v.view < e₁.currentView
  · rw [processMessageInner_stale (w := ⟨e₁, _, env⟩) (m := .vote v) rfl hstale]
    exact ⟨none, rfl⟩
  have hsame : e₁.currentView = e₀.currentView := by omega
  have hcurrent : v.view = e₁.currentView := hview.trans hsame.symm
  have hfails : ¬ e₁.Passes (e₁.validatorSetForView e₁.currentView) v.voter
      (.vote e₁.currentView v.blockHash) v.signature := by
    intro hpasses
    have hpasses := (hlater.passes_iff hsame).mp hpasses
    rw [← hcurrent, show e₀.currentView = v.view from hview.symm] at hpasses
    cases hproof.symm.trans ((Engine.proofFor_iff (m := .vote v) (if_pos hview)).mpr ⟨rfl, hpasses⟩)
  rw [processMessageInner_current (w := ⟨e₁, _, env⟩) (m := .vote v) hcurrent]
  have hplain : ∀ advance, dispatchMessage advance (.vote v) none =
      processVoteInner advance v false := fun advance => by simp [dispatchMessage]
  rw [hplain, processVoteInner_run hcurrent]
  cases e₁.isCurrentLeader with
  | false => exact ⟨none, rfl⟩
  | true =>
    obtain ⟨err, hrun⟩ := verifyShare_fails
      (w := ⟨e₁, .deliver (.message (.vote v)) :: log, env⟩) hfails
    refine ⟨some err, ?_⟩
    show (match (verifyShare _ _ _ _ >>= fun _ => _ : EngineM Unit) _ with
      | .ok _ _ => _
      | .error _ _ => _) = _
    rw [bind_run, hrun]
    rfl

end Votes

section Runs

variable [Crypto] {cfg : NodeConfig}

inductive Node.Handles : Node → Node → Prop where
  | handle {e : Engine} {log : List Effect} (env : Env) (input : Input)
      (h : input.Admissible log) :
      Handles ⟨some e, log⟩
        ⟨some (runInput e log env input).engine, (runInput e log env input).log⟩

theorem Node.Handles.reachable {node node' : Node} (hreach : node.Reachable cfg)
    (h : Relation.ReflTransGen Node.Handles node node') :
    node'.Reachable cfg ∧ Grows node.log node'.log := by
  induction h with
  | refl => exact ⟨hreach, .refl _⟩
  | tail _ hstep ih =>
    cases hstep with
    | handle env input hadm =>
      exact ⟨ih.1.tail (.handle env input hadm),
        ih.2.trans (runInput_inv (ih.1.inv.engine _ rfl env) hadm).2⟩

/-- While no output about an epoch is lost, a view keeps its keys. -/
theorem Node.Handles.later {node₀ node₁ : Node} (hreach : node₀.Reachable cfg)
    (hrun : Relation.ReflTransGen Node.Handles node₀ node₁) {e₀ e₁ : Engine}
    (he₀ : node₀.engine = some e₀) (he₁ : node₁.engine = some e₁)
    (hkept : ¬ EpochOutputLost node₁.log) : e₀.Later e₁ := by
  obtain ⟨hreach₁, hgrows⟩ := Node.Handles.reachable hreach hrun
  have hinv₀ : Inv cfg ⟨e₀, node₀.log, allDone⟩ := hreach.inv.engine e₀ he₀ allDone
  have hinv₁ : Inv cfg ⟨e₁, node₁.log, allDone⟩ := hreach₁.inv.engine e₁ he₁ allDone
  have hcore₀ : e₀.core = coreOf cfg node₀.log := hinv₀.core
  have hcore₁ : e₁.core = coreOf cfg node₁.log := hinv₁.core
  refine ⟨?_, hinv₁.stored.profile.trans hinv₀.stored.profile.symm, fun hview => ?_⟩
  · have hmono := Valid.view_mono hinv₁.valid hgrows
    rwa [← hcore₀, ← hcore₁] at hmono
  · have hset := Valid.set_of_isCurrentSet hinv₁.valid hgrows hkept (hinv₀.isCurrentSet rfl)
      (by rw [← hcore₁]; exact hview.symm) (hcore₁ ▸ hinv₁.steady hkept)
    rw [← hcore₁] at hset
    rw [hview]
    exact hset.symm

/-- What an observation says apart from the error. -/
def Observation.effect (o : Observation) : Engine × List Effect := (o.engine, o.external)

omit [Crypto] in
theorem EngineM.effect_of_idle {x : EngineM Unit} {e : Engine} {log : List Effect}
    (h : ∀ env, ∃ error, x.observe ⟨e, log, env⟩ = ⟨e, log.filter Effect.isExternal, error⟩) :
    Observation.effect '' x.observations e log rank = {(e, log.filter Effect.isExternal)} := by
  refine Set.eq_singleton_iff_unique_mem.mpr ⟨?_, ?_⟩
  · obtain ⟨error, hrun⟩ := h ⟨fun _ => .done, rank⟩
    exact ⟨_, ⟨fun _ => .done, rfl⟩, by dsimp only; rw [hrun]; rfl⟩
  · rintro _ ⟨_, ⟨fate, rfl⟩, rfl⟩
    obtain ⟨error, hrun⟩ := h ⟨fate, rank⟩
    dsimp only
    rw [hrun]
    rfl

end Runs

section Batches

open Symbolic

def proposed : List Command := [.boot, .handle allDone (.blockReady 21 none)]

def drained : List ConsensusMessage :=
  [voteBy .native 2 2 1 21, voteBy .native 3 0 1 21]

theorem proposed_leads :
    (Node.run (quadConfig .native 1) .down proposed).any (fun node =>
      node.engine.any fun e => e.isCurrentLeader = true ∧ e.currentView = 1 ∧
        e.batchProofs drained = [some (.vote 2), none] ∧ ¬ EpochOutputLost node.log) = true := by
  decide

theorem proposed_refuses_forgery :
    (Node.run (quadConfig .native 1) .down proposed).any (fun node =>
      node.engine.any fun e => e.batchProofs drained = [some (.vote 2), none] ∧
        ((handle (.message (voteBy .native 3 0 1 21))).observe ⟨e, node.log, allDone⟩).error =
          some (.invalidSignature 1 0)) = true := by decide

end Batches

end N42
