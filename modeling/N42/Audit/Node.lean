import N42.Audit.StateMachine

/-!
Every run of a node, through any crashes and restarts, writes a valid log.
-/

namespace N42

open Lib EngineM List

attribute [local simp] Engine.start

variable [Crypto] {cfg : NodeConfig}

theorem buildEpochManager_spec {snapshot : Option ConsensusSnapshot} {em : EpochManager}
    (h : buildEpochManager cfg snapshot = some em) :
    em.epochLength = cfg.epochLength ∧
      (cfg.epochLength = 0 → em = .new cfg.initialValidatorSet) ∧
      (cfg.epochLength ≠ 0 →
        em.currentEpoch = snapshot.elim 0 fun s => (s.currentView - 1) / cfg.epochLength) := by
  unfold buildEpochManager at h
  split at h
  · next hzero =>
    obtain rfl := Option.some.inj h
    exact ⟨hzero.symm, fun _ => rfl, fun hne => absurd hzero hne⟩
  · next hne =>
    dsimp only at h
    split at h
    · split at h
      · cases h
      · obtain rfl := Option.some.inj h
        exact ⟨rfl, fun hzero => absurd hzero hne, fun _ => rfl⟩
    · obtain rfl := Option.some.inj h
      exact ⟨rfl, fun hzero => absurd hzero hne, fun _ => rfl⟩

theorem restoreStaged_active (em : EpochManager) (s : ConsensusSnapshot) :
    (restoreStaged em s).active = em.active := by
  unfold restoreStaged
  split
  · rfl
  · next targetEpoch validators faultTolerance _ =>
    dsimp only
    split
    · rfl
    · cases hstage : em.stageNextEpoch validators faultTolerance with
      | error err => rfl
      | ok staged =>
        obtain ⟨next, -, rfl⟩ := EpochManager.stageNextEpoch_ok hstage
        rfl

variable {log : List Effect}

/-- An engine that has just started holds nothing that needs a reason. -/
theorem start_stored {index : ℕ} {em : EpochManager} {round : RoundState}
    (hindex : startIndex cfg em.currentSet = some index) :
    Stored cfg (.start index cfg.secretKey em cfg.signingProfile round) log where
  key := rfl
  profile := rfl
  index := by
    intro _ i hi
    change em.currentSet.indexOfPublicKey _ = some i at hi
    rw [startIndex, hi] at hindex
    exact (Option.some.inj hindex).symm
  pending := by simp
  imports := by constructor <;> simp [Engine.imported]
  votes := by simp
  commitVotes := by simp
  sameBlock := by simp
  timeouts := by simp
  futureTimeouts := by simp
  voteTracker := by simp
  commitTracker := by simp
  proposalTracker := by simp
  buffer := by simp

theorem recover_steady {d : Disk} {e : Engine} (h : recover cfg d = some e) : e.core.Steady := by
  obtain ⟨em, index, hem, -, hcases⟩ := recover_eq_some h
  obtain ⟨hlen, -, hepoch⟩ := buildEpochManager_spec hem
  by_cases hzero : cfg.epochLength = 0
  · obtain ⟨-, -, -, rfl⟩ | ⟨s, -, -, rfl⟩ := hcases
    · exact .inl (hlen.trans hzero)
    · refine .inl ?_
      have hactive := congrArg Prod.fst (restoreStaged_active em s)
      exact hactive.trans (hlen.trans hzero)
  · have hepoch := hepoch hzero
    obtain ⟨hsnap, -, -, rfl⟩ | ⟨s, hsnap, -, rfl⟩ := hcases
    · refine .inr ?_
      rw [hsnap] at hepoch
      show (1 - 1) / em.epochLength = em.currentEpoch
      rw [hepoch, Nat.zero_div]
      rfl
    · refine .inr ?_
      rw [hsnap] at hepoch
      obtain ⟨hl, he, -⟩ : (restoreStaged em s).epochLength = em.epochLength ∧
          (restoreStaged em s).currentEpoch = em.currentEpoch ∧
          (restoreStaged em s).currentSet = em.currentSet := by
        simpa [EpochManager.active] using restoreStaged_active em s
      show (s.currentView - 1) / (restoreStaged em s).epochLength =
        (restoreStaged em s).currentEpoch
      rw [hl, he, hepoch, hlen]
      rfl

theorem boot_inv {e : Engine} (hv : Valid cfg log) (h : recover cfg (diskOf log) = some e)
    (env : Env) : Inv cfg ⟨e, .boot e.core :: log, env⟩ where
  valid := .cons hv ⟨e, h, rfl⟩
  core := rfl
  stored := by
    obtain ⟨em, index, -, hindex, ⟨-, -, -, rfl⟩ | ⟨s, -, -, rfl⟩⟩ := recover_eq_some h
    · exact start_stored hindex
    · have hset : (restoreStaged em s).currentSet = em.currentSet :=
        congrArg (·.2.2) (restoreStaged_active em s)
      exact start_stored (hset.symm ▸ hindex)
  steady := fun _ => recover_steady h

/-- The log is valid, and while the process is up the engine is in step with it. -/
structure NodeInv (cfg : NodeConfig) (node : Node) : Prop where
  valid : Valid cfg node.log
  engine : ∀ e, node.engine = some e → ∀ env, Inv cfg ⟨e, node.log, env⟩

theorem runInput_inv {e : Engine} {env : Env} {input : Input} (hw : Inv cfg ⟨e, log, env⟩)
    (hadm : input.Admissible log) :
    Inv cfg (runInput e log env input) ∧ Grows log (runInput e log env input).log := by
  have h : Safely cfg (handle input) ⟨e, log, env⟩ := handle_sound hadm
  unfold Safely Sound Guarantee at h
  unfold runInput EngineM.world
  cases hres : handle input ⟨e, log, env⟩ with
  | ok a w' =>
    rw [hres] at h
    exact h.1 hw
  | error err w' =>
    rw [hres] at h
    exact h hw

variable {node node' : Node}

theorem NodeStep.keeps (hstep : NodeStep cfg node node') (h : NodeInv cfg node) :
    NodeInv cfg node' := by
  cases hstep with
  | boot hrec =>
    refine ⟨.cons h.valid ⟨_, hrec, rfl⟩, ?_⟩
    rintro _ ⟨rfl⟩ env
    exact boot_inv h.valid hrec env
  | handle env input hadm =>
    have hrun := (runInput_inv (h.engine _ rfl env) hadm).1
    refine ⟨hrun.valid, ?_⟩
    rintro _ ⟨rfl⟩ env'
    exact ⟨⟨hrun.valid, hrun.core, hrun.stored⟩, hrun.steady⟩
  | crash env input hadm hnew hcut =>
    exact ⟨(runInput_inv (h.engine _ rfl env) hadm).1.valid.of_suffix hcut, by simp⟩
  | @save e log hvalid =>
    have hinv : ∀ env, Inv cfg (World.push ⟨e, log, env⟩ (.save (buildSnapshot e))) := fun env =>
      (h.engine e rfl env).push ⟨e, (h.engine e rfl env).core, rfl, hvalid⟩ trivial
    refine ⟨(hinv ⟨fun _ => .done, id⟩).valid, ?_⟩
    rintro _ ⟨rfl⟩ env
    exact hinv env

theorem NodeStep.log_suffix (hstep : NodeStep cfg node node') (h : NodeInv cfg node) :
    node.log <:+ node'.log := by
  cases hstep with
  | boot hrec => exact suffix_cons _ _
  | handle env input hadm => exact (runInput_inv (h.engine _ rfl env) hadm).2.suffix
  | crash env input hadm hnew hcut => exact hnew
  | save hvalid => exact suffix_cons _ _

/-- The states a node can reach from an empty disk. -/
def Node.Reachable (cfg : NodeConfig) (node : Node) : Prop :=
  Relation.ReflTransGen (NodeStep cfg) .down node

theorem Node.Reachable.inv {node : Node} (h : node.Reachable cfg) : NodeInv cfg node := by
  induction h with
  | refl => exact ⟨.nil, by simp [Node.down]⟩
  | tail _ hstep ih => exact hstep.keeps ih

/-- A running engine was started, and so was every engine that ever did anything. -/
structure Node.Started (node : Node) : Prop where
  running : node.engine.isSome → ∃ core, .boot core ∈ node.log
  before : ∀ x log, x :: log <:+ node.log → (∀ core, x ≠ .boot core) → ∃ core, .boot core ∈ log

theorem NodeStep.keeps_started (hstep : NodeStep cfg node node') (hinv : NodeInv cfg node)
    (h : node.Started) : node'.Started := by
  have hsuffix := hstep.log_suffix hinv
  by_cases hup : node.engine.isSome
  · obtain ⟨core, hboot⟩ := h.running hup
    refine ⟨fun _ => ⟨core, hsuffix.subset hboot⟩, fun x log hs hx => ?_⟩
    rcases suffix_or_suffix_of_suffix hs hsuffix with hold | hnew
    · exact h.before x log hold hx
    · rcases suffix_cons_iff.mp hnew with heq | hnew
      · exact h.before x log (heq ▸ suffix_refl _) hx
      · exact ⟨core, hnew.subset hboot⟩
  · cases hstep with
    | @boot log e hrec =>
      refine ⟨fun _ => ⟨e.core, mem_cons_self⟩, fun x log' hs hx => ?_⟩
      rcases suffix_cons_iff.mp hs with heq | hold
      · exact absurd (List.cons.inj heq).1 (hx e.core)
      · exact h.before x log' hold hx
    | handle env input hadm => exact absurd rfl hup
    | crash env input hadm hnew hcut => exact absurd rfl hup
    | save hvalid => exact absurd rfl hup

theorem Node.Reachable.started {node : Node} (h : node.Reachable cfg) : node.Started := by
  induction h with
  | refl => exact ⟨by simp [Node.down], fun x log hs => by simp [Node.down] at hs⟩
  | tail hreach hstep ih => exact hstep.keeps_started (Node.Reachable.inv hreach) ih

end N42
