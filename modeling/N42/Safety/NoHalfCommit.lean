import N42.Conduct.Handle
import N42.Network.Script

/-!
A commit is announced in the event that makes it, unless its validator changes cannot be staged:
they are validated only then, after the last commit has been raised.
-/

namespace N42

open Lib

section Commits

variable [Crypto] {cfg : NodeConfig}

def Announced (w w' : World) : Prop :=
  (∃ blockHash changes, Added w w' (.emit (.blockCommitted w'.frame.committed.view blockHash
    w'.frame.committed changes) true)) ∧ w'.frame.committed.view < w'.view

/-- If an event raises the last commit and no output is refused, then the commit is announced
and the view left exactly if the committed changes can be staged and there is a next view. -/
theorem no_half_commit {node : Node} (hreach : node.Reachable cfg) {e : Engine}
    (he : node.engine = some e) (env : Env) {input : Input} (hadm : input.Admissible node.log)
    (haccepts : ∀ output,
      ¬ Added ⟨e, node.log, env⟩ (runInput e node.log env input) (.emit output false))
    (hraised : e.roundState.lastCommittedQc.view <
      (runInput e node.log env input).engine.roundState.lastCommittedQc.view) :
    ∃ changesHash used known,
      Added ⟨e, node.log, env⟩ (runInput e node.log env input)
        (.accept (.commit (runInput e node.log env input).engine.roundState.lastCommittedQc
          changesHash) used known) ∧
      (Announced ⟨e, node.log, env⟩ (runInput e node.log env input) ↔
        StagingOk e.epochManager changesHash ∧
          (runInput e node.log env input).engine.roundState.lastCommittedQc.view < u64Max) := by
  have hinv : Inv cfg ⟨e, node.log, env⟩ := hreach.inv.engine e he env
  have hsettles := (runInput_settles (L := fun _ => False) hinv hadm fun _ h => h.elim).1
  have hmax := (runInput_inv hinv hadm).1.view_le_max
  set w' := runInput e node.log env input
  obtain hsame | ⟨qc, changesHash, hcommits⟩ := hsettles.settled
  · exact absurd (congrArg QuorumCertificate.view hsame) hraised.ne'
  have hqc : w'.engine.roundState.lastCommittedQc = qc := hcommits.committed
  obtain ⟨used, known, haccepted⟩ := hcommits.accepted
  refine ⟨changesHash, used, known, by rwa [hqc], ⟨?_, ?_⟩⟩
  · rintro ⟨-, hview⟩
    rw [hcommits.committed] at hview
    refine ⟨?_, ?_⟩
    · by_contra hfail
      exact absurd (hcommits.undone hfail) (Nat.not_le.mpr hview)
    · rw [hqc]
      exact hview.trans_le hmax
  · rintro ⟨hok, hlt⟩
    obtain ⟨hannounced, hview⟩ := hcommits.done hok haccepts
    rw [hqc] at hlt
    refine ⟨by rwa [hcommits.committed], ?_⟩
    rw [hcommits.committed]
    simp only [satAdd] at hview
    omega

end Commits

section Runs

open Symbolic

def addedEffects (w w' : World) : List Effect := w'.log.take (w'.log.length - w.log.length)

theorem mem_addedEffects {w w' : World} {x : Effect} (h : Added w w' x) :
    x ∈ addedEffects w w' := by
  obtain ⟨added, hlog, hx⟩ := h
  simpa [addedEffects, hlog] using hx

def Effect.isRefusal : Effect → Bool
  | .emit _ false => true
  | _ => false

def Effect.isCommitNotice : Effect → Bool
  | .emit (.blockCommitted ..) _ => true
  | _ => false

def removal : List ValidatorChange := [.remove (validator 3).address]

def decisionOn (changes : Option (List ValidatorChange)) : List Command × Input :=
  let p := ConsensusSigningProfile.native
  let hash := validatorChangesHash changes
  ([.boot, deliver (proposalBy p 1 1 21 .genesis changes)],
    .message (decideFrom (commitQcBy p 4 [1, 2, 3] 1 21 hash) hash))

theorem decisionOn_commits :
    (Node.run (quadConfig .native 0) .down (decisionOn none).1).any (fun node =>
      node.engine.any fun e =>
        let w' := runInput e node.log allDone (decisionOn none).2
        e.roundState.lastCommittedQc.view = 0 ∧ w'.frame.committed.view = 1 ∧
        (addedEffects ⟨e, node.log, allDone⟩ w').all (fun x => !x.isRefusal) ∧
        e.epochManager.hasPendingChanges = false) = true := by decide

theorem no_half_commit_of_decision :
    ∃ (node : Node) (e : Engine) (w' : World), node.Reachable (quadConfig .native 0) ∧
      node.engine = some e ∧ w' = runInput e node.log allDone (decisionOn none).2 ∧
      e.roundState.lastCommittedQc.view = 0 ∧ w'.frame.committed.view = 1 ∧
      Announced ⟨e, node.log, allDone⟩ w' := by
  obtain ⟨node, e, hreach, he, hcheck⟩ := Node.exists_of_run decisionOn_commits
  obtain ⟨hbefore, hafter, haccepts, hpending⟩ := of_decide_eq_true hcheck
  have hadm : (decisionOn none).2.Admissible node.log :=
    Input.admissible_of_scriptable (by decide)
  have haccepts' : ∀ output, ¬ Added ⟨e, node.log, allDone⟩
      (runInput e node.log allDone (decisionOn none).2) (.emit output false) := fun output hadded =>
    absurd (List.all_eq_true.mp haccepts _ (mem_addedEffects hadded)) (by simp [Effect.isRefusal])
  obtain ⟨changesHash, -, -, -, hiff⟩ := no_half_commit hreach he allDone hadm haccepts'
    (by rw [hbefore]; exact Nat.lt_of_lt_of_eq Nat.one_pos hafter.symm)
  refine ⟨node, e, _, hreach, he, rfl, hbefore, hafter,
    hiff.mpr ⟨fun _ _ => ⟨e.epochManager, ?_⟩, ?_⟩⟩
  · rw [EpochManager.commitPendingChanges, hpending]
    rfl
  · exact lt_of_eq_of_lt hafter (by decide)

theorem decisionOn_removal_fails :
    (Node.run (quadConfig .native 0) .down (decisionOn (some removal)).1).any (fun node =>
      node.engine.any fun e =>
        (handle (decisionOn (some removal)).2 ⟨e, node.log, allDone⟩).casesOn
          (fun _ _ => false) fun err w' =>
          err = .insufficientValidators 3 4 ∧ e.roundState.lastCommittedQc.view = 0 ∧
          w'.frame.committed.view = 1 ∧ w'.view = 1 ∧
          (addedEffects ⟨e, node.log, allDone⟩ w').all fun x =>
            x.isRefusal = false ∧ x.isCommitNotice = false) = true := by decide +kernel

/-- Three of four validators would be left, which cannot be staged: the node has committed the
block of view 1, returns an error, says nothing about the block and stays in the view. -/
theorem removal_committed_in_silence :
    ∃ (node : Node) (e : Engine) (w' : World), node.Reachable (quadConfig .native 0) ∧
      node.engine = some e ∧ (decisionOn (some removal)).2.Admissible node.log ∧
      handle (decisionOn (some removal)).2 ⟨e, node.log, allDone⟩ =
        .error (.insufficientValidators 3 4) w' ∧
      e.roundState.lastCommittedQc.view = 0 ∧ w'.frame.committed.view = 1 ∧ w'.view = 1 ∧
      ∀ x, Added ⟨e, node.log, allDone⟩ w' x → x.isRefusal = false ∧ x.isCommitNotice = false := by
  obtain ⟨node, e, hreach, he, hcheck⟩ := Node.exists_of_run decisionOn_removal_fails
  cases hres : handle (decisionOn (some removal)).2 ⟨e, node.log, allDone⟩ with
  | ok a w' =>
    rw [hres] at hcheck
    cases hcheck
  | error err w' =>
    rw [hres] at hcheck
    obtain ⟨rfl, hbefore, hafter, hview, hadded⟩ := of_decide_eq_true hcheck
    exact ⟨node, e, w', hreach, he,
      Input.admissible_of_scriptable (by decide), hres, hbefore, hafter, hview,
      fun x hx => of_decide_eq_true (List.all_eq_true.mp hadded x (mem_addedEffects hx))⟩

end Runs

/-- From every state a node can be in, a view change ends at its target or beyond, whatever
buffered messages it replays on the way, and commits nothing. Only a refused output cuts it
short. -/
theorem view_change_reaches_target [Crypto] {cfg : NodeConfig} {node : Node}
    (hreach : node.Reachable cfg) {e : Engine} (he : node.engine = some e) (env : Env)
    (depth newView : ℕ) :
    Outcome (advanceToView depth newView) ⟨e, node.log, env⟩
      (fun _ w' => max e.currentView newView ≤ w'.view ∧ node.log <:+ w'.log ∧
        w'.engine.roundState.lastCommittedQc = e.roundState.lastCommittedQc)
      fun w' => Refused ⟨e, node.log, env⟩ w' ∧ e.currentView ≤ w'.view ∧
        w'.engine.roundState.lastCommittedQc = e.roundState.lastCommittedQc := by
  have hinv : Inv cfg ⟨e, node.log, env⟩ := hreach.inv.engine e he env
  refine (advanceToView_reaching depth (fun _ => False) _ newView hinv.clean).mono ?_ ?_
  · rintro _ w' ⟨hcalm, hview⟩
    exact ⟨max_le hcalm.view_le hview, hcalm.suffix, hcalm.committed⟩
  · rintro w' ⟨hcalm, hrefused⟩
    exact ⟨hrefused, hcalm.view_le, hcalm.committed⟩

open Symbolic in
theorem view_change_reaches_target_of_decided :
    ∃ (node : Node) (e : Engine), node.engine = some e ∧
      Outcome (advanceToView 3 9) ⟨e, node.log, allDone⟩ (fun _ w' => 9 ≤ w'.view)
        (Refused ⟨e, node.log, allDone⟩) := by
  obtain ⟨node, e, hreach, he, -⟩ := Node.exists_of_run decisionOn_commits
  exact ⟨node, e, he, (view_change_reaches_target hreach he allDone 3 9).mono
    (fun _ _ h => (Nat.le_max_right _ _).trans h.1) fun _ h => h.1⟩

end N42
