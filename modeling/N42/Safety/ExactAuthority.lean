import N42.Network.Script

/-!
On whose authority certificates are accepted when validator sets change.

`validator_set_for_view` falls back to the current set where the view's own is not known.
-/

namespace N42

open Lib List

variable {cert : Certificate}

section Authority

variable [Crypto] {cfg : NodeConfig} {log : List Effect}

omit [Crypto] in
theorem Core.Steady.known_eq {c : Core} (h : c.Steady) :
    c.epochs.knownValidatorSetForView c.view = some c.epochs.currentSet := by
  rcases h with hzero | hepoch
  · exact EpochManager.knownValidatorSetForView_of_disabled hzero _
  · simp [EpochManager.knownValidatorSetForView, hepoch]

/-- If the message asks the lookup that can fall back, the set it asks for is known. -/
def AuthorityKnown (c : Core) (input : Input) : Prop :=
  match input.subject with
  | some (.prepareQc pqc) =>
    c.view < pqc.view → (c.epochs.knownValidatorSetForView pqc.qc.view).isSome
  | some (.newView nv) =>
    c.view < nv.view → (c.epochs.knownValidatorSetForView nv.timeoutCert.view).isSome
  | _ => True

def AuthoritiesKnown (cfg : NodeConfig) (log : List Effect) : Prop :=
  ∀ input old, .deliver input :: old <:+ log → AuthorityKnown (coreOf cfg old) input

/-- A certificate checked with the fallback was checked against the known set after all, if
the set was known when the message came. -/
theorem known_of_fallbackChecked (hcheck : FallbackChecked log (coreOf cfg log).view cert)
    (hknown : AuthoritiesKnown cfg log) :
    ((coreOf cfg log).epochs.knownValidatorSetForView cert.view).isSome := by
  obtain ⟨input, hhead, hcases⟩ := hcheck
  obtain ⟨old, rfl⟩ : ∃ old, log = .deliver input :: old := by
    cases log with
    | nil => cases hhead
    | cons x old => exact ⟨old, by rw [Option.some.inj hhead]⟩
  have hcore := hknown input old (suffix_refl _)
  unfold AuthorityKnown at hcore
  obtain ⟨pqc, hsubject, hview, rfl⟩ | ⟨nv, hsubject, hview, rfl⟩ := hcases
  · rw [hsubject] at hcore
    exact hcore hview
  · rw [hsubject] at hcore
    exact hcore hview

/-- An accepted certificate was checked against the set known for its own view. -/
theorem Valid.known_of_accept {used : ValidatorSet} {known : Option ValidatorSet}
    (hv : Valid cfg (.accept cert used known :: log)) (hkept : ¬ EpochOutputLost log)
    (hknown : AuthoritiesKnown cfg log) :
    (coreOf cfg log).epochs.knownValidatorSetForView cert.view = some used := by
  obtain ⟨rfl, -, hset⟩ := hv.rule_of_cons
  rcases hset with hexact | hcurrent | ⟨rfl, hcheck⟩
  · exact hexact
  · have hsteady := hcurrent.steady hkept
    rw [hcurrent.set_eq, hcurrent.view_eq, hsteady.known_eq, hsteady.set_eq]
  · obtain ⟨set, hset⟩ := Option.isSome_iff_exists.mp (known_of_fallbackChecked hcheck hknown)
    rw [hset, EpochManager.validatorSetForView_of_known hset]

instance (c : Core) (input : Input) : Decidable (AuthorityKnown c input) := by
  unfold AuthorityKnown
  split <;> infer_instance

instance : Decidable (AuthoritiesKnown cfg log) :=
  decidable_of_iff (∀ l ∈ log.tails, l.head?.all fun
      | .deliver input => AuthorityKnown (coreOf cfg l.tail) input
      | _ => true) <| by
    simp only [mem_tails]
    constructor
    · intro h input old hs
      exact of_decide_eq_true (h _ hs)
    · intro h l hs
      cases l with
      | nil => rfl
      | cons x old =>
        cases x with
        | deliver input => exact decide_eq_true (h input old hs)
        | _ => rfl

end Authority

section Runs

open Symbolic

/-- The certificates accepted in a log, each with the set it was checked against and the
log before. -/
def acceptances (log : List Effect) : List ((Certificate × ValidatorSet) × List Effect) :=
  log.tails.filterMap fun
    | .accept cert used _ :: old => some ((cert, used), old)
    | _ => none

theorem mem_acceptances {log old : List Effect} {used : ValidatorSet}
    (h : ((cert, used), old) ∈ acceptances log) :
    ∃ known, .accept cert used known :: old <:+ log := by
  obtain ⟨l, hl, hsome⟩ := mem_filterMap.mp h
  split at hsome
  · obtain ⟨⟨rfl, rfl⟩, rfl⟩ : (_ ∧ _) ∧ _ := by simpa using hsome
    exact ⟨_, (mem_tails _ _).mp hl⟩
  · cases hsome

def epochConfig : NodeConfig := { quadConfig .native 0 with epochLength := 4 }

/-- A node is handed a `PrepareQC` of a later view, signed by three of the validators it
started with. -/
def jumpScript (view : ℕ) : List Command :=
  [.boot, deliver (prepareQcFrom (prepareQcBy .native 4 [1, 2, 3] view 7))]

theorem jumpScript_three_locks :
    (Node.run epochConfig .down (jumpScript 3)).any (fun node =>
      node.engine.any fun e => e.roundState.lockedQc.view = 3 ∧ e.currentView = 4 ∧
      ((acceptances node.log).map (·.1)).contains
        (.prepare (prepareQcBy .native 4 [1, 2, 3] 3 7), quadSet) ∧
      ¬ EpochOutputLost node.log ∧ AuthoritiesKnown epochConfig node.log) = true := by
  decide

theorem jumpScript_nine_locks :
    (Node.run epochConfig .down (jumpScript 9)).any (fun node =>
      node.engine.any fun e => e.roundState.lockedQc.view = 9 ∧ e.currentView = 10 ∧
      (acceptances node.log).any fun a =>
        a.1 = (.prepare (prepareQcBy .native 4 [1, 2, 3] 9 7), quadSet) ∧
        (coreOf epochConfig a.2).epochs.knownValidatorSetForView 9 = none) = true := by
  decide +kernel

end Runs

end N42
