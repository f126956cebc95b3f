import N42.Symbolic.Scheme

/-!
The validator set of a past, current or staged epoch, over every run of an epoch manager.
-/

namespace N42

open Lib List

inductive EpochCall where
  | stage (validators : List ValidatorInfo) (faultTolerance : ℕ)
  | advance
  | carry

namespace EpochManager

section Runs

variable [Crypto]

variable (em : EpochManager)

def call : EpochCall → EpochManager
  | .stage validators faultTolerance =>
    match em.stageNextEpoch validators faultTolerance with
    | .ok staged => staged
    | .error _ => em
  | .advance => em.advanceEpoch
  | .carry => em.carryEpochForward

def calls (run : List EpochCall) : EpochManager := run.foldl call em

def activeSets (em : EpochManager) : List EpochCall → List (ℕ × ValidatorSet)
  | [] => [(em.currentEpoch, em.currentSet)]
  | c :: run => (em.currentEpoch, em.currentSet) :: (em.call c).activeSets run

/-- In the run, `set` is active in `epoch`, and no other is. -/
def IsSetOf (run : List EpochCall) (epoch : ℕ) (set : ValidatorSet) : Prop :=
  ∀ other, (epoch, other) ∈ em.activeSets run ↔ other = set

variable {em : EpochManager} {run : List EpochCall} {epoch : ℕ} {set : ValidatorSet}

/-- What a call does to the epoch, its set and the past: nothing, or it moves to the next epoch. -/
theorem call_cases (em : EpochManager) (c : EpochCall) :
    (em.call c).epochLength = em.epochLength ∧
      (em.call c).maxHistoricalEpochs = em.maxHistoricalEpochs ∧
      ((em.call c).currentEpoch = em.currentEpoch ∧ (em.call c).currentSet = em.currentSet ∧
          (em.call c).historicalSets = em.historicalSets ∨
        (em.call c).currentEpoch = em.currentEpoch + 1 ∧
          (em.call c).historicalSets = em.archiveCurrent) := by
  cases c with
  | stage validators faultTolerance =>
    simp only [call]
    split
    · next staged hstaged =>
      obtain ⟨next, -, rfl⟩ := stageNextEpoch_ok hstaged
      exact ⟨rfl, rfl, .inl ⟨rfl, rfl, rfl⟩⟩
    · exact ⟨rfl, rfl, .inl ⟨rfl, rfl, rfl⟩⟩
  | advance =>
    simp only [call, advanceEpoch]
    split
    · exact ⟨rfl, rfl, .inl ⟨rfl, rfl, rfl⟩⟩
    · exact ⟨rfl, rfl, .inr ⟨rfl, rfl⟩⟩
  | carry =>
    simp only [call, carryEpochForward]
    split
    · exact ⟨rfl, rfl, .inl ⟨rfl, rfl, rfl⟩⟩
    · exact ⟨rfl, rfl, .inr ⟨rfl, rfl⟩⟩

theorem current_mem_activeSets (em : EpochManager) (run : List EpochCall) :
    ((em.calls run).currentEpoch, (em.calls run).currentSet) ∈ em.activeSets run := by
  induction run generalizing em with
  | nil => exact mem_singleton_self _
  | cons c run ih => exact mem_cons_of_mem _ (ih (em.call c))

/-- From here on epochs only grow, and the current one keeps its set. -/
theorem mem_activeSets_spec (h : (epoch, set) ∈ em.activeSets run) :
    em.currentEpoch ≤ epoch ∧ (epoch = em.currentEpoch → set = em.currentSet) := by
  induction run generalizing em with
  | nil =>
    obtain ⟨rfl, rfl⟩ := Prod.mk.inj (mem_singleton.mp h)
    exact ⟨le_rfl, fun _ => rfl⟩
  | cons c run ih =>
    rcases mem_cons.mp h with heq | h
    · obtain ⟨rfl, rfl⟩ := Prod.mk.inj heq
      exact ⟨le_rfl, fun _ => rfl⟩
    · obtain ⟨hle, hset⟩ := ih h
      obtain ⟨-, -, ⟨hepoch, hsame, -⟩ | ⟨hepoch, -⟩⟩ := em.call_cases c
      · rw [hepoch] at hle hset
        exact ⟨hle, fun heq => (hset heq).trans hsame⟩
      · exact ⟨by omega, fun heq => by omega⟩

theorem isSetOf_of_mem (h : (epoch, set) ∈ em.activeSets run) : em.IsSetOf run epoch set := by
  intro other
  constructor
  · intro hother
    induction run generalizing em with
    | nil =>
      rw [activeSets, mem_singleton, Prod.mk.injEq] at h hother
      exact hother.2.trans h.2.symm
    | cons c run ih =>
      by_cases hcurrent : epoch = em.currentEpoch
      · rw [(mem_activeSets_spec hother).2 hcurrent, (mem_activeSets_spec h).2 hcurrent]
      · simp only [activeSets, mem_cons, Prod.mk.injEq, hcurrent, false_and, false_or]
          at h hother
        exact ih h hother
  · rintro rfl
    exact h

/-- The history is bounded, and what was not there before has been active since. -/
theorem historicalSets_calls (hbound : em.historicalSets.length ≤ em.maxHistoricalEpochs) :
    (em.calls run).epochLength = em.epochLength ∧
      (em.calls run).historicalSets.length ≤ em.maxHistoricalEpochs ∧
      ∀ entry ∈ (em.calls run).historicalSets,
        entry ∈ em.historicalSets ∨ entry ∈ em.activeSets run := by
  induction run generalizing em with
  | nil => exact ⟨rfl, hbound, fun _ h => .inl h⟩
  | cons c run ih =>
    obtain ⟨hlength, hmax, hcases⟩ := em.call_cases c
    have harchived : (em.call c).historicalSets.length ≤ em.maxHistoricalEpochs ∧
        ∀ entry ∈ (em.call c).historicalSets,
          entry ∈ em.historicalSets ∨ entry = (em.currentEpoch, em.currentSet) := by
      rcases hcases with ⟨-, -, hpast⟩ | ⟨-, hpast⟩
      all_goals rw [hpast]
      · exact ⟨hbound, fun _ h => .inl h⟩
      · constructor
        · simp only [archiveCurrent, length_drop]
          omega
        · intro entry h
          rcases mem_append.mp (mem_of_mem_drop h) with h | h
          · exact .inl (takeWhile_subset _ h)
          · rcases mem_cons.mp h with h | h
            · exact .inr h
            · exact .inl (dropWhile_subset _ h)
    obtain ⟨hlengths, hbounds, hmem⟩ := ih (hmax ▸ harchived.1)
    refine ⟨hlengths.trans hlength, hmax ▸ hbounds, fun entry h => ?_⟩
    rcases hmem entry h with h | h
    · refine (harchived.2 entry h).imp id ?_
      rintro rfl
      exact mem_cons_self
    · exact .inr (mem_cons_of_mem _ h)

end Runs

/-- A set that is looked up is the one active in its epoch, or the one that `advance_epoch` is
about to make so. Both lookups agree on it, and the history keeps its bound. -/
theorem epoch_lookup_exact [Crypto] (validatorSet : ValidatorSet)
    (epochLength startingEpoch maxHistoricalEpochs : ℕ) (hlength : 0 < epochLength)
    (run : List EpochCall) :
    let start := fromEpochWithHistory validatorSet epochLength startingEpoch maxHistoricalEpochs
    let em := start.calls run
    (∀ view set, em.knownValidatorSetForView view = some set →
      (start.IsSetOf run (em.epochForView view) set ∨
        em.epochForView view = em.currentEpoch + 1 ∧
          start.IsSetOf (run ++ [.advance]) (em.epochForView view) set) ∧
      em.validatorSetForView view = set) ∧
    em.historicalSets.length ≤ clampMaxHistorical maxHistoricalEpochs := by
  intro start em
  obtain ⟨hlengths, hbound, hpast⟩ : em.epochLength = start.epochLength ∧
      em.historicalSets.length ≤ start.maxHistoricalEpochs ∧ ∀ entry ∈ em.historicalSets,
        entry ∈ start.historicalSets ∨ entry ∈ start.activeSets run :=
    historicalSets_calls (Nat.zero_le _)
  have henabled : em.epochLength ≠ 0 := hlengths ▸ hlength.ne'
  refine ⟨fun view set h => ⟨?_, validatorSetForView_of_known h⟩, hbound⟩
  rw [knownValidatorSetForView, if_neg henabled] at h
  split at h
  · next hcurrent =>
    obtain rfl := Option.some.inj h
    exact .inl (hcurrent ▸ isSetOf_of_mem (current_mem_activeSets start run))
  · split at h
    · next hnext =>
      have hactive := current_mem_activeSets start (run ++ [.advance])
      have hadvance : start.calls (run ++ [.advance]) = em.advanceEpoch := by
        rw [calls, foldl_append]
        rfl
      rw [hadvance, advanceEpoch, h] at hactive
      exact .inr ⟨hnext, hnext ▸ isSetOf_of_mem hactive⟩
    · obtain ⟨before, after, hsplit, -⟩ := lookup_eq_some_iff.mp h
      have hentry : (em.epochForView view, set) ∈ em.historicalSets := by simp [hsplit]
      exact .inl (isSetOf_of_mem ((hpast _ hentry).resolve_left not_mem_nil))

open Symbolic in
/-- Five validators are staged and take over, and their epoch is carried on into the next. -/
theorem epoch_lookup_exact_sample :
    let start := fromEpochWithHistory ⟨(List.range 4).map validator, 1, by decide⟩ 2 0 8
    let em := start.calls [.stage ((List.range 5).map validator) 1, .advance, .carry]
    em.knownValidatorSetForView 2 = some start.currentSet ∧
      em.validatorSetForView 2 = start.currentSet := by
  intro start em
  have hknown : em.knownValidatorSetForView 2 = some start.currentSet := by decide
  exact ⟨hknown, ((epoch_lookup_exact start.currentSet 2 0 8 (by decide) _).1 2 _ hknown).2⟩

end EpochManager

end N42
