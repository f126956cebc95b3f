import N42.Audit.Node

/-!
The epoch manager along a valid log.
-/

namespace N42

open Lib EpochManager

variable [Crypto] {cfg : NodeConfig} {log : List Effect} {em : EpochManager}

omit [Crypto] in
theorem EpochManager.validatorSetForView_of_disabled (h : em.epochLength = 0) (view : ℕ) :
    em.validatorSetForView view = em.currentSet :=
  if_pos h

omit [Crypto] in
theorem EpochManager.knownValidatorSetForView_of_disabled (h : em.epochLength = 0) (view : ℕ) :
    em.knownValidatorSetForView view = some em.currentSet :=
  if_pos h

theorem recover_active {d : Disk} {e : Engine} (h : recover cfg d = some e) :
    ∃ em, buildEpochManager cfg d.snapshot = some em ∧ e.epochManager.active = em.active := by
  obtain ⟨em, index, hem, -, ⟨-, -, -, rfl⟩ | ⟨s, -, -, rfl⟩⟩ := recover_eq_some h
  · exact ⟨em, hem, rfl⟩
  · exact ⟨em, hem, restoreStaged_active em s⟩

omit [Crypto] in
/-- What a successful operation keeps is kept if the operation fails, too. -/
theorem keeps_getD {α : Type} {f : EpochManager → α} {em : EpochManager}
    {result : Except ConsensusError EpochManager} (h : ∀ em', result = .ok em' → f em' = f em) :
    f (result.toOption.getD em) = f em := by
  cases result with
  | error err => rfl
  | ok em' => exact h em' rfl

/-- Every change of the epoch manager but a boundary crossing leaves the active set. -/
theorem EpochOp.apply_active (em : EpochManager) (op : EpochOp) (hadvance : op ≠ .advance)
    (hcarry : op ≠ .carry) : (op.apply em).active = em.active := by
  cases op with
  | replacePending changes => rfl
  | commitPending => exact keeps_getD fun _ => active_of_commitPendingChanges
  | advance => exact absurd rfl hadvance
  | carry => exact absurd rfl hcarry
  | proposeAdd info =>
    exact keeps_getD fun em' h => by rw [proposeAddValidator_ok h]; rfl
  | proposeRemove address =>
    exact keeps_getD fun em' h => by rw [proposeRemoveValidator_ok h]; rfl

theorem Valid.active_of_disabled (hv : Valid cfg log) (hzero : cfg.epochLength = 0) :
    (coreOf cfg log).epochs.active = (0, 0, cfg.initialValidatorSet) := by
  induction hv with
  | nil => rfl
  | @cons log x tail allowed ih =>
    have hlength : (coreOf cfg log).epochs.epochLength = 0 := congrArg Prod.fst ih
    cases x with
    | epoch op =>
      have hadvance : op ≠ .advance := by
        rintro rfl
        have hpos := allowed.1
        omega
      have hcarry : op ≠ .carry := by
        rintro rfl
        have hpos := allowed.1
        omega
      exact (EpochOp.apply_active _ op hadvance hcarry).trans ih
    | boot core =>
      obtain ⟨e, hrec, rfl⟩ := allowed
      obtain ⟨em, hem, hactive⟩ := recover_active hrec
      obtain rfl := (buildEpochManager_spec hem).2.1 hzero
      exact hactive
    | _ => exact ih

theorem Valid.sets_of_disabled (hv : Valid cfg log) (hzero : cfg.epochLength = 0) (view : ℕ) :
    (coreOf cfg log).epochs.validatorSetForView view = cfg.initialValidatorSet ∧
      (coreOf cfg log).epochs.knownValidatorSetForView view = some cfg.initialValidatorSet := by
  have hactive := hv.active_of_disabled hzero
  have hlength : (coreOf cfg log).epochs.epochLength = 0 := congrArg Prod.fst hactive
  have hset : (coreOf cfg log).epochs.currentSet = cfg.initialValidatorSet :=
    congrArg (·.2.2) hactive
  rw [validatorSetForView_of_disabled hlength,
    knownValidatorSetForView_of_disabled hlength, hset]
  exact ⟨rfl, rfl⟩

/-- Until the next restart the epoch number only grows, and one epoch has one set. -/
structure EpochManager.Follows (em em' : EpochManager) : Prop where
  length_eq : em'.epochLength = em.epochLength
  epoch_le : em.currentEpoch ≤ em'.currentEpoch
  set_eq : em'.currentEpoch = em.currentEpoch ∨ em.epochLength = 0 →
    em'.currentSet = em.currentSet

section

omit [Crypto]

theorem EpochManager.Follows.trans {a b c : EpochManager} (hab : a.Follows b)
    (hbc : b.Follows c) : a.Follows c where
  length_eq := hbc.length_eq.trans hab.length_eq
  epoch_le := hab.epoch_le.trans hbc.epoch_le
  set_eq h := by
    have hle := hab.epoch_le
    have hle' := hbc.epoch_le
    have hlength := hab.length_eq
    exact (hbc.set_eq (by omega)).trans (hab.set_eq (by omega))

theorem EpochManager.Follows.of_active {a b : EpochManager} (h : b.active = a.active) :
    a.Follows b := by
  obtain ⟨hlength, hepoch, hset⟩ : b.epochLength = a.epochLength ∧
      b.currentEpoch = a.currentEpoch ∧ b.currentSet = a.currentSet := by
    simpa [active] using h
  exact ⟨hlength, hepoch.ge, fun _ => hset⟩

theorem EpochManager.Follows.of_next {a b : EpochManager} (hpos : 0 < a.epochLength)
    (hlength : b.epochLength = a.epochLength) (hnext : b.currentEpoch = a.currentEpoch + 1) :
    a.Follows b :=
  ⟨hlength, by omega, fun h => by omega⟩

end

theorem EpochOp.follows {op : EpochOp}
    (hadvance : op = .advance → 0 < em.epochLength ∧ em.hasStagedNext = true)
    (hcarry : op = .carry → 0 < em.epochLength ∧ ¬ em.hasStagedNext = true) :
    em.Follows (op.apply em) := by
  by_cases ha : op = .advance
  · subst ha
    obtain ⟨hpos, hstaged⟩ := hadvance rfl
    obtain ⟨next, hnext⟩ := Option.isSome_iff_exists.mp hstaged
    have happly : EpochOp.advance.apply em = em.advanceEpoch := rfl
    rw [happly, advanceEpoch, hnext]
    exact .of_next hpos rfl rfl
  · by_cases hc : op = .carry
    · subst hc
      obtain ⟨hpos, hnone⟩ := hcarry rfl
      have hguard : ¬ (em.hasStagedNext || em.epochLength == 0) = true := by
        simpa using ⟨by simpa using hnone, hpos.ne'⟩
      have happly : EpochOp.carry.apply em = em.carryEpochForward := rfl
      rw [happly, carryEpochForward, if_neg hguard]
      exact .of_next hpos rfl rfl
    · exact .of_active (EpochOp.apply_active em op ha hc)

theorem Valid.follows {old new : List Effect} (hv : Valid cfg new) (hg : Grows old new) :
    (coreOf cfg old).epochs.Follows (coreOf cfg new).epochs := by
  obtain ⟨added, rfl, hboot⟩ := hg
  induction added with
  | nil => exact .of_active rfl
  | cons x added ih =>
    have ih := ih (fun core hmem => hboot core (List.mem_cons_of_mem _ hmem)) hv.tail_of_cons
    have hrule : Rule cfg (added ++ old) x := hv.rule_of_cons
    cases x with
    | epoch op =>
      refine ih.trans (EpochOp.follows ?_ ?_)
      · rintro rfl
        exact hrule
      · rintro rfl
        exact hrule
    | boot core => exact absurd List.mem_cons_self (hboot core)
    | _ => exact ih

omit [Crypto] in
/-- While the epoch number agrees with the view, the view's set is the current one. -/
theorem Core.Steady.set_eq {c : Core} (h : c.Steady) :
    c.epochs.validatorSetForView c.view = c.epochs.currentSet := by
  rcases h with hzero | hepoch
  · exact validatorSetForView_of_disabled hzero _
  · simp [validatorSetForView, hepoch]

/-- Within a session, and with no output about an epoch lost, a view has one set. -/
theorem Valid.set_of_isCurrentSet {old new : List Effect} {view : ℕ} {set : ValidatorSet}
    (hv : Valid cfg new) (hg : Grows old new) (hkept : ¬ EpochOutputLost new)
    (hset : IsCurrentSet old (coreOf cfg old) view set) (hview : view = (coreOf cfg new).view)
    (hsteady : (coreOf cfg new).Steady) :
    set = (coreOf cfg new).epochs.validatorSetForView view := by
  have hold := hset.steady fun hlost => hkept (hg.epochOutputLost hlost)
  have hfollows := hv.follows hg
  have hsame : (coreOf cfg new).epochs.currentSet = (coreOf cfg old).epochs.currentSet := by
    refine hfollows.set_eq ?_
    rcases hold with hzero | hepoch
    · exact .inr hzero
    · rcases hsteady with hzero | hepoch'
      · exact .inr (hfollows.length_eq.symm.trans hzero)
      · refine .inl ?_
        rw [← hepoch, ← hepoch', ← hview, ← hset.view_eq, epochForView,
          epochForView, hfollows.length_eq]
  rw [hset.set_eq, hset.view_eq, hold.set_eq, ← hset.view_eq, hview, hsteady.set_eq, hsame]

end N42
