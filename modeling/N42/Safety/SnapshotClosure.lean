import N42.Conduct.Handle
import N42.Network.Script

/-!
When the snapshot of a running engine is accepted by its own validation. That the lock is not ahead
of the view cannot be read off the log.
-/

namespace N42

open Lib EngineM List

section Validation

variable [Crypto]

/-- Peer ids are given for all validators or for none, and are parsable and distinct. -/
structure PeersConsistent (validators : List ValidatorInfo) : Prop where
  presence : validators.countP (fun v => v.p2pPeerId.isSome) = 0 ∨
    validators.countP (fun v => v.p2pPeerId.isSome) = validators.length
  distinct : ∃ peerIds, parsePeerIds validators = .ok peerIds ∧ peerIds.Nodup

/-- A set that can be staged across a restart. -/
structure StageableSet (validators : List ValidatorInfo) (faultTolerance : ℕ) : Prop where
  nonempty : validators ≠ []
  tolerance : faultTolerance ≤ maxFaultToleranceForLen validators.length
  peers : PeersConsistent validators

theorem validateTransitionInfo_eq_ok {targetEpoch faultTolerance : ℕ}
    {validators : List ValidatorInfo} :
    validateTransitionInfo targetEpoch validators faultTolerance = .ok () ↔
      targetEpoch ≠ 0 ∧ StageableSet validators faultTolerance := by
  simp only [validateTransitionInfo, guard_bind_eq_ok, bind_eq_ok, guard_eq_ok, pure_eq_ok,
    not_lt, not_not, and_true]
  constructor
  · rintro ⟨htarget, hempty, htolerance, hpresence, hdistinct⟩
    refine ⟨htarget, by simpa using hempty, htolerance, ⟨?_, hdistinct⟩⟩
    by_contra hsome
    exact hpresence (not_or.mp hsome)
  · rintro ⟨htarget, hset⟩
    refine ⟨htarget, by simpa using hset.nonempty, hset.tolerance, fun hsome => ?_,
      hset.peers.distinct⟩
    exact not_or.mpr hsome hset.peers.presence

structure ConsensusSnapshot.Coherent (s : ConsensusSnapshot) : Prop where
  lock_le : s.lockedQc.view ≤ s.currentView
  commit_le : s.lastCommittedQc.view ≤ s.lockedQc.view
  voted_le : s.lastVotedView ≤ satAdd s.currentView maxDurableVoteWatermarkAhead
  commitVoted_le : s.lastCommitVotedView ≤ satAdd s.currentView maxDurableVoteWatermarkAhead
  transition : ∀ targetEpoch validators faultTolerance,
    s.scheduledEpochTransition = some (targetEpoch, validators, faultTolerance) →
      targetEpoch ≠ 0 ∧ StageableSet validators faultTolerance

theorem ConsensusSnapshot.validate_eq_ok {s : ConsensusSnapshot} :
    s.validate = .ok () ↔ s.Coherent := by
  constructor
  · intro h
    unfold validate at h
    simp only [guard_bind_eq_ok, not_lt] at h
    obtain ⟨hlock, hcommit, hvoted, hcommitVoted, hrest⟩ := h
    refine ⟨hlock, hcommit, hvoted, hcommitVoted,
      fun targetEpoch validators faultTolerance hs => ?_⟩
    rw [hs] at hrest
    exact validateTransitionInfo_eq_ok.mp hrest
  · rintro ⟨hlock, hcommit, hvoted, hcommitVoted, hrest⟩
    unfold validate
    simp only [guard_bind_eq_ok, not_lt]
    refine ⟨hlock, hcommit, hvoted, hcommitVoted, ?_⟩
    cases hs : s.scheduledEpochTransition with
    | none => rfl
    | some info =>
      exact validateTransitionInfo_eq_ok.mpr (hrest _ _ _ hs)

end Validation

section Bounds

variable [Crypto] {cfg : NodeConfig} {log : List Effect}

/-- The staged set can be staged again after a restart. -/
def EpochManager.Restageable (em : EpochManager) : Prop :=
  ∀ validators faultTolerance, em.stagedInfo = some (validators, faultTolerance) →
    StageableSet validators faultTolerance

/-- Everything `validate` asks for except that the lock is not ahead of the view. -/
structure Core.InBounds (c : Core) : Prop where
  commit_le : c.committed.view ≤ c.locked.view
  voted_le : c.votedView ≤ satAdd c.view maxDurableVoteWatermarkAhead
  commitVoted_le : c.commitVotedView ≤ satAdd c.view maxDurableVoteWatermarkAhead
  staged : c.epochs.Restageable

/-- A restart finds no lock ahead of the view, and watermarks near it. -/
structure Core.Restored (c : Core) : Prop where
  lock_le : c.locked.view ≤ c.view
  voted_le : c.votedView ≤ satAdd c.view maxDurableVoteWatermarkAhead
  commitVoted_le : c.commitVotedView ≤ satAdd c.view maxDurableVoteWatermarkAhead

/-- A run in which no message carries a certificate from ahead of it, no decision from ahead
brings changes that cannot be staged, no output is refused, restarts find no record far ahead of
the snapshot, and staged sets have consistent peer ids. -/
structure Benign (cfg : NodeConfig) (log : List Effect) : Prop where
  outputs : ¬ LostOutput log
  messages : ∀ m old, .deliver (.message m) :: old <:+ log →
    m.Steady (coreOf cfg old).view (coreOf cfg old).epochs
  starts : ∀ core old, .boot core :: old <:+ log → core.Restored
  staged : ∀ staged old, .epoch .commitPending :: old <:+ log →
    (coreOf cfg old).epochs.commitPendingChanges = .ok staged →
      ∀ validators faultTolerance, staged.stagedInfo = some (validators, faultTolerance) →
        PeersConsistent validators

theorem Benign.of_suffix {log' : List Effect} (h : Benign cfg log') (hs : log <:+ log') :
    Benign cfg log where
  outputs := fun hlost => h.outputs (hlost.of_suffix hs)
  messages := fun m old hm => h.messages m old (hm.trans hs)
  starts := fun core old hcore => h.starts core old (hcore.trans hs)
  staged := fun staged old hold => h.staged staged old (hold.trans hs)

theorem EpochManager.Restageable.commitPending {em em' : EpochManager} (hem : em.Restageable)
    (h : em.commitPendingChanges = .ok em')
    (hpeers : ∀ validators faultTolerance, em'.stagedInfo = some (validators, faultTolerance) →
      PeersConsistent validators) : em'.Restageable := by
  have hresult := commitPendingChanges_ok h
  obtain ⟨-, rfl⟩ | ⟨-, next, hsafe, -, -, heq⟩ := hresult
  · exact hem
  · have hlength := (validateTransition_eq_ok.mp hsafe).1
    intro validators faultTolerance hinfo
    have hinfo' : some (next.validators, maxFaultToleranceForLen next.validators.length) =
        some (validators, faultTolerance) := by rwa [heq] at hinfo
    obtain ⟨rfl, rfl⟩ := Prod.mk.inj (Option.some.inj hinfo')
    refine ⟨fun hnil => ?_, Nat.le_refl _, hpeers _ _ hinfo⟩
    rw [hnil] at hlength
    exact absurd hlength (by decide)

variable {em : EpochManager}

theorem EpochManager.Restageable.restore {s : ConsensusSnapshot} (hem : em.stagedInfo = none)
    (hs : s.Coherent) : (restoreStaged em s).Restageable := by
  have hnone : em.Restageable := fun _ _ h => by
    rw [hem] at h
    cases h
  unfold restoreStaged
  split
  · exact hnone
  next targetEpoch validators faultTolerance htransition =>
  dsimp only
  split
  · exact hnone
  cases hstage : em.stageNextEpoch validators faultTolerance with
  | error err => exact hnone
  | ok em' =>
    obtain ⟨next, -, rfl⟩ := stageNextEpoch_ok hstage
    rintro _ _ ⟨rfl⟩
    exact (hs.transition _ _ _ htransition).2

theorem buildEpochManager_stagedInfo {snapshot : Option ConsensusSnapshot}
    (h : buildEpochManager cfg snapshot = some em) : em.stagedInfo = none := by
  unfold buildEpochManager at h
  split at h
  · obtain rfl := Option.some.inj h
    rfl
  dsimp only at h
  split at h
  · split at h
    · cases h
    · obtain rfl := Option.some.inj h
      rfl
  · obtain rfl := Option.some.inj h
    rfl

theorem EpochOp.restageable (hem : em.Restageable) (op : EpochOp)
    (hpeers : op = .commitPending → ∀ staged, em.commitPendingChanges = .ok staged →
      ∀ validators faultTolerance, staged.stagedInfo = some (validators, faultTolerance) →
        PeersConsistent validators) : (op.apply em).Restageable := by
  have hkept : ∀ em' : EpochManager, em'.stagedInfo = em.stagedInfo → em'.Restageable := by
    intro em' hinfo validators faultTolerance h
    exact hem validators faultTolerance (hinfo ▸ h)
  cases op with
  | replacePending changes => exact hem
  | commitPending =>
    show (em.commitPendingChanges.toOption.getD em).Restageable
    cases hresult : em.commitPendingChanges with
    | error err => exact hem
    | ok staged => exact hem.commitPending hresult (hpeers rfl staged hresult)
  | advance =>
    show em.advanceEpoch.Restageable
    unfold EpochManager.advanceEpoch
    split
    · exact hem
    · exact fun _ _ h => by cases h
  | carry =>
    refine hkept _ ?_
    show em.carryEpochForward.stagedInfo = _
    unfold EpochManager.carryEpochForward
    split
    · rfl
    · rfl
  | proposeAdd info =>
    exact hkept _ (keeps_getD fun em' h => by rw [EpochManager.proposeAddValidator_ok h])
  | proposeRemove address =>
    exact hkept _ (keeps_getD fun em' h => by rw [EpochManager.proposeRemoveValidator_ok h])

omit [Crypto] in
theorem view_le_higherLock (snapshotLock : QuorumCertificate) (lock : Option QuorumCertificate) :
    snapshotLock.view ≤ (higherLock snapshotLock lock).view := by
  cases lock with
  | none => exact Nat.le_refl _
  | some qc =>
    simp only [higherLock]
    split
    · next hlt => exact hlt.le
    · exact Nat.le_refl _

theorem recover_inBounds {d : Disk} {e : Engine} (h : recover cfg d = some e)
    (hrestored : e.core.Restored) : e.core.InBounds := by
  obtain ⟨em, index, hem, -, ⟨-, -, -, rfl⟩ | ⟨s, -, hvalid, rfl⟩⟩ := recover_eq_some h
  · refine ⟨Nat.le_refl _, hrestored.voted_le, hrestored.commitVoted_le, fun _ _ hinfo => ?_⟩
    cases (buildEpochManager_stagedInfo hem).symm.trans hinfo
  · have hs := ConsensusSnapshot.validate_eq_ok.mp hvalid
    exact ⟨hs.commit_le.trans (view_le_higherLock _ _), hrestored.voted_le,
      hrestored.commitVoted_le, .restore (buildEpochManager_stagedInfo hem) hs⟩

omit [Crypto] in
theorem satAdd_mono {a b : ℕ} (h : a ≤ b) (c : ℕ) : satAdd a c ≤ satAdd b c := by
  simp only [satAdd]
  omega

theorem Valid.inBounds (hv : Valid cfg log) (hbenign : Benign cfg log) :
    (coreOf cfg log).InBounds := by
  induction hv with
  | nil => exact ⟨Nat.le_refl _, Nat.zero_le _, Nat.zero_le _, fun _ _ h => by cases h⟩
  | @cons log x tail allowed ih =>
    have ih := ih (hbenign.of_suffix (suffix_cons x log))
    have hmax := (Valid.view_le_max tail).1
    have hnear :
        (coreOf cfg log).view ≤ satAdd (coreOf cfg log).view maxDurableVoteWatermarkAhead := by
      simp only [satAdd]
      omega
    cases x with
    | lock qc => exact { ih with commit_le := ih.commit_le.trans allowed.1.le }
    | commit qc =>
      refine { ih with commit_le := ?_ }
      have hle := ih.commit_le
      show (if _ then _ else _ : QuorumCertificate).view ≤
        (if _ then _ else _ : QuorumCertificate).view
      split_ifs <;> omega
    | enter view =>
      have hmono := satAdd_mono allowed.1.le maxDurableVoteWatermarkAhead
      exact { ih with
        voted_le := ih.voted_le.trans hmono
        commitVoted_le := ih.commitVoted_le.trans hmono }
    | persistVote view fate => exact { ih with voted_le := allowed.2.trans_le hnear }
    | persistCommitVote view fate => exact { ih with commitVoted_le := allowed.2.1.trans_le hnear }
    | epoch op =>
      refine { ih with staged := EpochOp.restageable ih.staged op ?_ }
      rintro rfl staged hstaged
      exact hbenign.staged staged log (suffix_refl _) hstaged
    | boot core =>
      obtain ⟨e, hrec, rfl⟩ := allowed
      exact recover_inBounds hrec (hbenign.starts e.core log (suffix_refl _))
    | _ => exact ih

end Bounds

variable {log : List Effect}

section Closure

variable [Crypto] {cfg : NodeConfig}

theorem runInput_leveled {e : Engine} {env : Env} {input : Input} (hw : Inv cfg ⟨e, log, env⟩)
    (hadm : input.Admissible log) (hbenign : Benign cfg (runInput e log env input).log)
    (hlevel : World.Leveled 0 ⟨e, log, env⟩) : (runInput e log env input).Leveled 0 := by
  have hdelivered := (runInput_settles (L := fun _ => False) hw hadm fun _ h => h.elim).2
  have hsteady : ∀ m, input = .message m → m.Steady e.roundState.currentView e.epochManager := by
    rintro m rfl
    have h := hbenign.messages m log hdelivered
    rwa [← hw.core] at h
  exact (runInput_settles (L := AnyHeight) hw hadm fun _ _ => hsteady).1.level 0 trivial
    hbenign.outputs hlevel

theorem recover_leveled {d : Disk} {e : Engine} (env : Env) (h : recover cfg d = some e)
    (hrestored : e.core.Restored) : World.Leveled 0 ⟨e, log, env⟩ where
  lock := hrestored.lock_le.trans (Nat.le_max_left _ _)
  frame := by
    have hstart : ∀ index em round, Frame.Leveled 0 (World.frame
        ⟨Engine.start index cfg.secretKey em cfg.signingProfile round, log, env⟩) := fun _ _ _ =>
      { timeouts := by rintro _ ⟨⟩
        future := by rintro _ _ ⟨⟩
        buffer := by rintro _ _ ⟨⟩ }
    obtain ⟨em, index, -, -, ⟨-, -, -, rfl⟩ | ⟨s, -, -, rfl⟩⟩ := recover_eq_some h
    · exact hstart index em _
    · exact hstart index _ _

theorem Node.Reachable.leveled {node : Node} (hreach : node.Reachable cfg)
    (hbenign : Benign cfg node.log) :
    ∀ e, node.engine = some e → ∀ env, World.Leveled 0 ⟨e, node.log, env⟩ := by
  induction hreach with
  | refl => exact fun e h => by cases h
  | @tail node node' hreach hstep ih =>
    have hinv := Node.Reachable.inv hreach
    have ih := ih (hbenign.of_suffix (hstep.log_suffix hinv))
    cases hstep with
    | boot hrec =>
      rintro e ⟨rfl⟩ env
      exact recover_leveled env hrec (hbenign.starts _ _ (suffix_refl _))
    | handle env input hadm =>
      rintro e ⟨rfl⟩ env'
      exact { runInput_leveled (hinv.engine _ rfl env) hadm hbenign (ih _ rfl env) with }
    | crash env input hadm hnew hcut => exact fun e h => by cases h
    | save hvalid =>
      rintro e ⟨rfl⟩ env
      exact { ih _ rfl env with }

/-- In a benign run the snapshot of the engine is always accepted. -/
theorem snapshot_closure {node : Node} (hreach : node.Reachable cfg)
    (hbenign : Benign cfg node.log) {e : Engine} (he : node.engine = some e) :
    (buildSnapshot e).validate = .ok () ∧
      e.roundState.lastCommittedQc.view ≤ e.roundState.lockedQc.view ∧
      e.roundState.lockedQc.view ≤ e.roundState.currentView := by
  have hcore : e.core = coreOf cfg node.log := (hreach.inv.engine e he allDone).core
  have hbounds := Valid.inBounds hreach.inv.valid hbenign
  rw [← hcore] at hbounds
  have hlock : e.roundState.lockedQc.view ≤ e.roundState.currentView :=
    (hreach.leveled hbenign e he allDone).lock.trans (Nat.max_zero _).le
  refine ⟨ConsensusSnapshot.validate_eq_ok.mpr ?_, hbounds.commit_le, hlock⟩
  refine ⟨hlock, hbounds.commit_le, hbounds.voted_le, hbounds.commitVoted_le, ?_⟩
  intro targetEpoch validators faultTolerance htransition
  obtain ⟨⟨validators', faultTolerance'⟩, hinfo, heq⟩ := Option.map_eq_some_iff.mp htransition
  cases heq
  exact ⟨Nat.succ_ne_zero _, hbounds.staged _ _ hinfo⟩

end Closure

section Runs

open Symbolic

/-- Enough for a step to be benign: nothing comes from ahead, and nothing is staged. -/
def plainStep [Crypto] (cfg : NodeConfig) (old : List Effect) : Effect → Bool
  | .emit _ false => false
  | .deliver (.message m) =>
    (m.qcs.all fun qc => qc.view ≤ m.view) &&
      match m with
      | .decide d => d.view ≤ (coreOf cfg old).view
      | _ => true
  | .boot core => core.locked.view ≤ core.view ∧
      core.votedView ≤ satAdd core.view maxDurableVoteWatermarkAhead ∧
      core.commitVotedView ≤ satAdd core.view maxDurableVoteWatermarkAhead
  | .epoch .commitPending => false
  | _ => true

theorem benign_of_plain [Crypto] {cfg : NodeConfig}
    (h : log.tails.all (fun l => l.head?.all (plainStep cfg l.tail)) = true) : Benign cfg log := by
  have hstep : ∀ x old, x :: old <:+ log → plainStep cfg old x = true := fun x old hs =>
    all_eq_true.mp h (x :: old) ((mem_tails _ _).mpr hs)
  refine ⟨?_, fun m old hs => ⟨?_, ?_⟩, fun core old hs => ?_, fun staged old hs => ?_⟩
  · rintro ⟨output, hmem⟩
    obtain ⟨new, old, rfl⟩ := append_of_mem hmem
    cases hstep _ old (suffix_append _ _)
  · have hm := (Bool.and_eq_true_iff.mp (hstep _ old hs)).1
    exact fun qc hqc => of_decide_eq_true (all_eq_true.mp hm qc hqc)
  · rintro d rfl
    exact .inl (of_decide_eq_true (Bool.and_eq_true_iff.mp (hstep _ old hs)).2)
  · obtain ⟨hlock, hvoted, hcommitVoted⟩ := of_decide_eq_true (hstep _ old hs)
    exact ⟨hlock, hvoted, hcommitVoted⟩
  · cases hstep _ old hs

/-- A proposal of view 1, justified by `justify`, and possibly the decision on it. -/
def firstView (justify : QuorumCertificate) (decided : Bool) : List Command :=
  let p := ConsensusSigningProfile.native
  [.boot, deliver (proposalBy p 1 1 21 justify none)] ++
    if decided then [deliver (decideFrom (commitQcBy p 4 [1, 2, 3] 1 21 0) 0)] else []

theorem firstView_commits :
    (Node.run (quadConfig .native 0) .down (firstView .genesis true)).any (fun node =>
      node.engine.any fun e => e.roundState.lastCommittedQc.view = 1 ∧
        e.roundState.currentView = 2 ∧ node.log.tails.all fun l =>
          l.head?.all (plainStep (quadConfig .native 0) l.tail)) = true := by decide

theorem snapshot_closure_of_firstView :
    ∃ (node : Node) (e : Engine), node.Reachable (quadConfig .native 0) ∧ node.engine = some e ∧
      e.roundState.lastCommittedQc.view = 1 ∧ e.roundState.currentView = 2 ∧
      (buildSnapshot e).validate = .ok () := by
  obtain ⟨node, e, hreach, he, hcheck⟩ := Node.exists_of_run firstView_commits
  obtain ⟨hcommitted, hview, hplain⟩ := of_decide_eq_true hcheck
  exact ⟨node, e, hreach, he, hcommitted, hview,
    (snapshot_closure hreach (benign_of_plain hplain) he).1⟩

theorem firstView_justified_early :
    (Node.run (quadConfig .native 0) .down
      (firstView (prepareQcBy .native 4 [1, 2, 3] 5 7) false)).any (fun node =>
      node.engine.any fun e => e.roundState.lockedQc.view = 5 ∧
        e.roundState.currentView = 1) = true := by decide

/-- A proposal of view 1 justified by a certificate of view 5: the engine locks on it, stays in
view 1, and its snapshot is rejected. -/
theorem snapshot_rejected_after_early_justify :
    ∃ (node : Node) (e : Engine), node.Reachable (quadConfig .native 0) ∧ node.engine = some e ∧
      e.roundState.lockedQc.view = 5 ∧ e.roundState.currentView = 1 ∧
      (buildSnapshot e).validate ≠ .ok () := by
  obtain ⟨node, e, hreach, he, hcheck⟩ := Node.exists_of_run firstView_justified_early
  obtain ⟨hlocked, hview⟩ := of_decide_eq_true hcheck
  refine ⟨node, e, hreach, he, hlocked, hview, fun hvalid => ?_⟩
  have hle : e.roundState.lockedQc.view ≤ e.roundState.currentView :=
    (ConsensusSnapshot.validate_eq_ok.mp hvalid).lock_le
  omega

end Runs

end N42
