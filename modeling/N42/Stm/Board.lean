import Mathlib.Data.Finset.Card
import N42.Stm.Scheduler

/-!
The scheduler without the work it schedules. While claims are made in order and not during an abort,
the validated transactions are a prefix that only grows.
-/

namespace N42.Stm

open Function Finset

/-- The worker has claimed the validation of `i` and not given it back. -/
def Role.Holds (r : Role) (i : ℕ) : Prop := r = .validating i ∨ r = .rewinding i

def Role.Aborting (r : Role) : Prop := r = .sweeping ∨ ∃ i, r = .rewinding i

def Role.Critical (r : Role) : Prop := r = .sweeping ∨ ∃ i, r.Holds i

@[simp] theorem Role.not_critical_idle : ¬ Role.idle.Critical := by
  simp [Role.Critical, Role.Holds]

@[simp] theorem Role.not_critical_executing (i : ℕ) : ¬ (Role.executing i).Critical := by
  simp [Role.Critical, Role.Holds]

@[simp] theorem Role.not_critical_counting : ¬ Role.counting.Critical := by
  simp [Role.Critical, Role.Holds]

theorem Role.Holds.critical {r : Role} {i : ℕ} (h : r.Holds i) : r.Critical := .inr ⟨i, h⟩

theorem Role.Aborting.critical {r : Role} (h : r.Aborting) : r.Critical := by
  rcases h with h | ⟨i, h⟩
  · exact .inl h
  · exact .inr ⟨i, .inr h⟩

structure Board where
  status : ℕ → Status
  execCursor : ℕ
  valCursor : ℕ
  validatedCount : ℕ
  roles : ℕ → Role

namespace Board

def assign (s : Board) (w : ℕ) (role : Role) : Board :=
  { s with roles := update s.roles w role }

def mark (s : Board) (i : ℕ) (status : Status) : Board :=
  { s with status := update s.status i status }

/-- `m` transactions are settled. -/
structure Inv (n : ℕ) (s : Board) (m : ℕ) : Prop where
  executing : ∀ w i, s.roles w = .executing i → s.status i = .pending ∧ i < s.execCursor ∧ i < n
  alone : ∀ w w' i, s.roles w = .executing i → s.roles w' = .executing i → w = w'
  untouched : ∀ i, n ≤ i ∨ s.execCursor ≤ i → s.status i = .pending
  validated : ∀ i, s.status i = .validated ↔ i < m
  critical : ∀ w w', (s.roles w).Critical → (s.roles w').Critical → w = w'
  holding : ∀ w i, (s.roles w).Holds i → i = m ∧ s.valCursor = m + 1
  free : (∀ w i, ¬ (s.roles w).Holds i) → s.valCursor = m
  checked : ∀ w i, s.roles w = .validating i → s.status i = .executed
  counted : ∃ C : Finset ℕ, (∀ w, w ∈ C ↔ s.roles w = .counting) ∧ s.validatedCount + C.card = m

variable {n w : ℕ} {s s' : Board} {m : ℕ}

variable (h : s.Inv n m)
include h

theorem Inv.counted_assign {role : Role} (hold : s.roles w ≠ .counting)
    (hnew : role ≠ .counting) : ∃ C : Finset ℕ,
      (∀ w', w' ∈ C ↔ update s.roles w role w' = .counting) ∧
        s.validatedCount + C.card = m := by
  obtain ⟨C, hC, hcount⟩ := h.counted
  refine ⟨C, fun w' => ?_, hcount⟩
  rw [hC, update_apply]
  split
  · next heq => simp [heq, hold, hnew]
  · rfl

/-- A worker that was neither validating nor aborting and is not now. -/
theorem Inv.aside (w : ℕ) (role : Role) (hold : ¬ (s.roles w).Critical) (hnew : ¬ role.Critical) :
    (∀ w₁ w₂, (update s.roles w role w₁).Critical →
      (update s.roles w role w₂).Critical → w₁ = w₂) ∧
    (∀ w' i, (update s.roles w role w').Holds i → i = m ∧ s.valCursor = m + 1) ∧
    ((∀ w' i, ¬ (update s.roles w role w').Holds i) → s.valCursor = m) := by
  have hcritical : ∀ w', (update s.roles w role w').Critical → (s.roles w').Critical := by
    intro w' hw'
    by_cases heq : w' = w
    · subst heq
      rw [update_self] at hw'
      exact absurd hw' hnew
    · rwa [update_of_ne heq] at hw'
  have hholds : ∀ w' i, (update s.roles w role w').Holds i ↔ (s.roles w').Holds i := by
    intro w' i
    by_cases heq : w' = w
    · subst heq
      rw [update_self]
      exact ⟨fun hi => absurd hi.critical hnew, fun hi => absurd hi.critical hold⟩
    · rw [update_of_ne heq]
  refine ⟨fun w₁ w₂ h₁ h₂ => h.critical w₁ w₂ (hcritical w₁ h₁) (hcritical w₂ h₂), fun w' i hi =>
    h.holding w' i ((hholds w' i).mp hi), fun hnone => h.free fun w' i hi => ?_⟩
  exact hnone w' i ((hholds w' i).mpr hi)

theorem Inv.take (hidle : s.roles w = .idle) (hmore : s.execCursor < n) :
    ({ s with execCursor := s.execCursor + 1 }.assign w (.executing s.execCursor)).Inv n m := by
  have ⟨hexec, halone, huntouched, _, _, _, _, hcheck, _⟩ := h
  obtain ⟨hcrit, hhold, hfree⟩ := h.aside w (.executing s.execCursor) (by simp [hidle]) (by simp)
  refine ⟨?_, ?_, ?_, h.validated, hcrit, hhold, hfree, ?_,
    h.counted_assign (by simp [hidle]) (by simp)⟩
  all_goals simp only [assign] at *
  all_goals grind -ring -linarith

theorem Inv.overshoot (hnone : n ≤ s.execCursor) :
    { s with execCursor := s.execCursor + 1 }.Inv n m := by
  have hexec := h.executing
  have huntouched := h.untouched
  refine ⟨?_, h.alone, ?_, h.validated, h.critical, h.holding, h.free, h.checked, h.counted⟩
  all_goals grind -ring -linarith

variable {i : ℕ}

theorem Inv.retake (hidle : s.roles w = .idle) (hredo : s.status i = .redo) :
    ((s.mark i .pending).assign w (.executing i)).Inv n m := by
  have ⟨hexec, halone, huntouched, hvalid, _, _, _, hcheck, _⟩ := h
  obtain ⟨hcrit, hhold, hfree⟩ := h.aside w (.executing i) (by simp [hidle]) (by simp)
  refine ⟨?_, ?_, ?_, ?_, hcrit, hhold, hfree, ?_,
    h.counted_assign (by simp [hidle]) (by simp)⟩
  all_goals simp only [assign, mark] at *
  all_goals grind -ring -linarith

theorem Inv.finish (hrole : s.roles w = .executing i) :
    ((s.mark i .executed).assign w .idle).Inv n m := by
  have ⟨hexec, halone, huntouched, hvalid, _, _, _, hcheck, _⟩ := h
  obtain ⟨hcrit, hhold, hfree⟩ := h.aside w .idle (by simp [hrole]) (by simp)
  refine ⟨?_, ?_, ?_, ?_, hcrit, hhold, hfree, ?_,
    h.counted_assign (by simp [hrole]) (by simp)⟩
  all_goals simp only [assign, mark] at *
  all_goals grind -ring -linarith

/-- A claim finds nobody else validating or aborting: the predecessor of the cursor is
validated, so the cursor stands at the end of the settled prefix. -/
theorem Inv.claim (hidle : s.roles w = .idle)
    (hcalm : ∀ w', ¬ (s.roles w').Aborting) (hexecuted : s.status s.valCursor = .executed)
    (hprev : 0 < s.valCursor → s.status (s.valCursor - 1) = .validated) :
    ({ s with valCursor := s.valCursor + 1 }.assign w (.validating s.valCursor)).Inv n m := by
  have ⟨hexec, halone, _, hvalid, _, _, _, hcheck, _⟩ := h
  have hnone : ∀ w' i, ¬ (s.roles w').Holds i := by
    intro w' i hi
    obtain ⟨rfl, hcursor⟩ := h.holding w' i hi
    have hself := (hvalid i).mp (by simpa [hcursor] using hprev (by omega))
    exact lt_irrefl _ hself
  have hcritical : ∀ w', ¬ (s.roles w').Critical := by
    rintro w' (hsweep | ⟨i, hi⟩)
    · exact hcalm w' (.inl hsweep)
    · exact hnone w' i hi
  refine ⟨?_, ?_, h.untouched, hvalid, ?_, ?_, ?_, ?_,
    h.counted_assign (by simp [hidle]) (by simp)⟩
  all_goals simp only [assign, update_apply, Role.Holds] at *
  all_goals grind -ring -linarith

theorem Inv.unique (hw : (s.roles w).Critical) : ∀ w', (s.roles w').Critical → w' = w :=
  fun w' hw' => h.critical w' w hw' hw

theorem Inv.pass (hrole : s.roles w = .validating i) :
    ((s.mark i .validated).assign w .counting).Inv n (m + 1) := by
  obtain ⟨rfl, hcursor⟩ := h.holding w i (.inl hrole)
  have ⟨hexec, halone, huntouched, hvalid, _, _, _, hcheck, _⟩ := h
  have hunique := h.unique (w := w) (.inr ⟨i, .inl hrole⟩)
  obtain ⟨C, hC, hcount⟩ := h.counted
  have hnew : w ∉ C := by simp [hC, hrole]
  have hcard : s.validatedCount + (insert w C).card = i + 1 := by
    rw [card_insert_of_notMem hnew]
    omega
  refine ⟨?_, ?_, ?_, ?_, ?_, ?_, ?_, ?_, insert w C, ?_, hcard⟩
  all_goals simp only [assign, mark, Role.Critical, Role.Holds] at *
  all_goals grind -ring -linarith

theorem Inv.count (hrole : s.roles w = .counting) :
    ({ s with validatedCount := s.validatedCount + 1 }.assign w .idle).Inv n m := by
  have ⟨hexec, halone, _, _, _, _, _, hcheck, _⟩ := h
  obtain ⟨hcrit, hhold, hfree⟩ := h.aside w .idle (by simp [hrole]) (by simp)
  obtain ⟨C, hC, hcount⟩ := h.counted
  have hmem : w ∈ C := (hC w).mpr hrole
  have hcard : s.validatedCount + 1 + (C.erase w).card = m := by
    have := card_erase_add_one hmem
    omega
  refine ⟨?_, ?_, h.untouched, h.validated, hcrit, hhold, hfree, ?_, C.erase w, ?_, hcard⟩
  all_goals simp only [assign] at *
  all_goals grind -ring -linarith

theorem Inv.fail (hrole : s.roles w = .validating i) :
    ((s.mark i .redo).assign w (.rewinding i)).Inv n m := by
  have ⟨hexec, halone, huntouched, hvalid, _, _, _, hcheck, _⟩ := h
  have hunique := h.unique (w := w) (.inr ⟨i, .inl hrole⟩)
  refine ⟨?_, ?_, ?_, ?_, ?_, ?_,
    fun hnone => absurd (.inr (by simp [assign])) (hnone w i), ?_,
    h.counted_assign (by simp [hrole]) (by simp)⟩
  all_goals simp only [assign, mark, Role.Critical, Role.Holds] at *
  all_goals grind -ring -linarith

theorem Inv.rewind (hrole : s.roles w = .rewinding i) :
    ({ s with valCursor := i }.assign w .sweeping).Inv n m := by
  obtain ⟨rfl, hcursor⟩ := h.holding w i (.inr hrole)
  have ⟨hexec, halone, _, _, _, _, _, hcheck, _⟩ := h
  have hunique := h.unique (w := w) (.inr ⟨i, .inr hrole⟩)
  refine ⟨?_, ?_, h.untouched, h.validated, ?_, ?_, ?_, ?_,
    h.counted_assign (by simp [hrole]) (by simp)⟩
  all_goals simp only [assign, update_apply, Role.Critical, Role.Holds] at *
  all_goals grind -ring -linarith

theorem Inv.sweep {j : ℕ} (hrole : s.roles w = .sweeping)
    (hexecuted : s.status j = .executed) : (s.mark j .redo).Inv n m := by
  have ⟨hexec, _, huntouched, hvalid, _, _, _, _, _⟩ := h
  have hnone : ∀ w' i, s.roles w' ≠ .validating i := by
    intro w' i hw'
    have heq := h.unique (w := w) (.inl hrole) w' (.inr ⟨i, .inl hw'⟩)
    rw [heq, hrole] at hw'
    cases hw'
  refine ⟨?_, h.alone, ?_, ?_, h.critical, h.holding, h.free,
    fun w' i hw' => absurd hw' (hnone w' i), h.counted⟩
  all_goals simp only [mark] at *
  all_goals grind -ring -linarith

theorem Inv.rest (hrole : s.roles w = .sweeping) : (s.assign w .idle).Inv n m := by
  have ⟨hexec, halone, _, _, _, _, _, hcheck, _⟩ := h
  have hunique := h.unique (w := w) (.inl hrole)
  have hfree : s.valCursor = m := by
    refine h.free fun w' i hi => ?_
    have hw := hunique w' hi.critical
    rw [hw, hrole] at hi
    simp [Role.Holds] at hi
  refine ⟨?_, ?_, h.untouched, h.validated, ?_, ?_, fun _ => hfree, ?_,
    h.counted_assign (by simp [hrole]) (by simp)⟩
  all_goals simp only [assign, Role.Holds] at *
  all_goals grind -ring -linarith

end Board

end N42.Stm
