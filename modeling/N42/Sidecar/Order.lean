import N42.Sidecar.Release

/-!
State diffs reach the sinks in view order and without gaps, where they do.

Every committed view is handed over, held by the worker, queued, staged, or noted as missing, if the
commit noted it; `handle_block_committed` may not.
-/

namespace N42.Sidecar

open Lib List Function

variable {D : Type}

/-- The committed views below a diff of the list are in `seen` or before it in the list. -/
def Closed (committed : List (ℕ × B256)) (seen : Set ℕ) : List (SidecarDiffWork D) → Prop
  | [] => True
  | work :: rest => (∀ c ∈ committed, c.1 < work.1 → c.1 ∈ seen) ∧
      Closed committed (insert work.1 seen) rest

variable {c : ℕ × B256} {committed' : List (ℕ × B256)}

namespace Closed

variable {committed : List (ℕ × B256)} {seen : Set ℕ}

theorem append_iff {l l' : List (SidecarDiffWork D)} :
    Closed committed seen (l ++ l') ↔
      Closed committed seen l ∧ Closed committed (seen ∪ {v | v ∈ views l}) l' := by
  induction l generalizing seen with
  | nil => simp [Closed]
  | cons work l ih =>
    have hset : insert work.1 seen ∪ {v | v ∈ views l} = seen ∪ {v | v ∈ views (work :: l)} := by
      ext v
      simp only [Set.mem_union, Set.mem_insert_iff, Set.mem_ofPred_eq, views_cons, mem_cons]
      tauto
    rw [cons_append, Closed, Closed, ih, hset, and_assoc]

variable {l : List (SidecarDiffWork D)}

/-- A commit that is not new, or above all of the list, does not matter to it. -/
theorem commit (h : Closed committed seen l) (habove : ∀ work ∈ l, c.1 < work.1 → c ∈ committed) :
    Closed (committed ++ [c]) seen l := by
  induction l generalizing seen with
  | nil => trivial
  | cons work l ih =>
    obtain ⟨hhead, htail⟩ := h
    refine ⟨fun c' hc' hlt => ?_, ih htail fun w hw => habove w (mem_cons_of_mem _ hw)⟩
    rcases mem_append.mp hc' with hc' | hc'
    · exact hhead c' hc' hlt
    · obtain rfl := mem_singleton.mp hc'
      exact hhead c' (habove work (mem_cons_self ..) hlt) hlt

theorem of_mem_iff (hmem : ∀ c, c ∈ committed' ↔ c ∈ committed) (h : Closed committed seen l) :
    Closed committed' seen l := by
  induction l generalizing seen with
  | nil => trivial
  | cons work l ih => exact ⟨fun c hc => h.1 c ((hmem c).mp hc), ih h.2⟩

theorem of_sorted (hsorted : l.Pairwise fun a b => a.1 < b.1)
    (h : ∀ work ∈ l, ∀ c ∈ committed, c.1 < work.1 → c.1 ∈ seen ∨ c.1 ∈ views l) :
    Closed committed seen l := by
  induction l generalizing seen with
  | nil => trivial
  | cons work l ih =>
    have hlt : ∀ w ∈ l, work.1 < w.1 := fun w hw => rel_of_pairwise_cons hsorted hw
    refine ⟨fun c hc hc' => ?_, ih (List.Pairwise.of_cons hsorted) fun w hw c hc hc' => ?_⟩
    · rcases h work (mem_cons_self ..) c hc hc' with hseen | hmem
      · exact hseen
      · rw [views_cons, mem_cons] at hmem
        rcases hmem with heq | hmem
        · omega
        · obtain ⟨w, hw, heq⟩ := mem_map.mp hmem
          have := hlt w hw
          omega
    · rcases h w (mem_cons_of_mem _ hw) c hc hc' with hseen | hmem
      · exact .inl (.inr hseen)
      · rw [views_cons, mem_cons] at hmem
        rcases hmem with heq | hmem
        · exact .inl (.inl heq)
        · exact .inr hmem

end Closed

/-- The diffs on their way. The sinks have `handed`, and `ahead` comes next. -/
structure Transit (D : Type) where
  validated : Std.TreeMap ℕ B256
  pending : Std.TreeMap ℕ (B256 × D)
  missing : Std.TreeMap ℕ B256
  handed : List (SidecarDiffWork D)
  ahead : List (SidecarDiffWork D)

/-- `held` is what the worker holds. -/
def Service.transit (s : Service D) (held : Option (SidecarDiffWork D)) : Transit D :=
  ⟨s.executionValidatedSidecarHashes, s.pendingSidecarDiffs, s.missingSidecarDiffs, s.handed,
    held.toList ++ s.sidecarApplyQueue⟩

/-- Every committed view is on its way. -/
structure Tracked (t : Transit D) (committed confirmed : List (ℕ × B256)) : Prop where
  bound : ∀ (v : ℕ) (h : B256), t.validated[v]? = some h → (v, h) ∈ confirmed
  agree : ∀ c ∈ committed, ∀ c' ∈ confirmed, c'.1 = c.1 → c' = c
  positive : ∀ c ∈ committed, 0 < c.1
  staged : ∀ (v : ℕ) (h : B256) (d : D), t.pending[v]? = some (h, d) → (v, h) ∈ committed
  missing : ∀ (v : ℕ) (h : B256), t.missing[v]? = some h → (v, h) ∈ committed
  line : ∀ work ∈ t.handed ++ t.ahead,
    (work.1, work.2.1) ∈ committed ∧ (work.1, work.2.1) ∈ confirmed
  covered : ∀ c ∈ committed, c.1 ∈ views (t.handed ++ t.ahead) ∨
    t.pending[c.1]?.isSome ∨ t.missing[c.1]?.isSome
  gapless : ∀ work ∈ t.handed, ∀ c ∈ committed, c.1 < work.1 → c.1 ∈ views t.handed
  closed : Closed committed {v | v ∈ views t.handed} t.ahead

namespace Tracked

variable {t : Transit D} {committed confirmed : List (ℕ × B256)} {validated' : Std.TreeMap ℕ B256}
  {pending' : Std.TreeMap ℕ (B256 × D)} {missing' : Std.TreeMap ℕ B256}

section

variable (h : Tracked t committed confirmed)
include h

theorem restage (hbound : ∀ (v : ℕ) (g : B256), validated'[v]? = some g → (v, g) ∈ confirmed)
    (hstaged : ∀ (v : ℕ) (g : B256) (d : D), pending'[v]? = some (g, d) → (v, g) ∈ committed)
    (hmissing : ∀ (v : ℕ) (g : B256), missing'[v]? = some g → (v, g) ∈ committed)
    (hkept : ∀ v : ℕ, t.pending[v]?.isSome ∨ t.missing[v]?.isSome →
      pending'[v]?.isSome ∨ missing'[v]?.isSome) :
    Tracked ⟨validated', pending', missing', t.handed, t.ahead⟩ committed confirmed where
  bound := hbound
  agree := h.agree
  positive := h.positive
  staged := hstaged
  missing := hmissing
  line := h.line
  covered c hc := (h.covered c hc).imp id (hkept c.1)
  gapless := h.gapless
  closed := h.closed

/-- A block commits: its view is staged or noted as missing, and above all others unless it was
committed before. -/
theorem commit (hpos : 0 < c.1) (horder : c ∈ committed ∨ ∀ c' ∈ committed, c'.1 < c.1)
    (hagree : ∀ c' ∈ confirmed, c'.1 = c.1 → c' = c)
    (hstaged : ∀ (v : ℕ) (g : B256) (d : D), pending'[v]? = some (g, d) →
      t.pending[v]? = some (g, d) ∨ (v, g) = c)
    (hmissing : ∀ (v : ℕ) (g : B256), missing'[v]? = some g → t.missing[v]? = some g ∨ (v, g) = c)
    (hkept : ∀ v : ℕ, t.pending[v]?.isSome ∨ t.missing[v]?.isSome →
      pending'[v]?.isSome ∨ missing'[v]?.isSome)
    (hnoted : pending'[c.1]?.isSome ∨ missing'[c.1]?.isSome) :
    Tracked ⟨t.validated, pending', missing', t.handed, t.ahead⟩ (committed ++ [c]) confirmed := by
  have hmem : ∀ c', c' ∈ committed ++ [c] ↔ c' ∈ committed ∨ c' = c := by simp
  have hline : ∀ work ∈ t.handed ++ t.ahead, c.1 < work.1 → c ∈ committed := by
    intro work hwork hlt
    refine horder.resolve_right fun hnew => ?_
    exact absurd hlt (hnew _ (h.line work hwork).1).not_gt
  refine ⟨h.bound, fun c₁ hc₁ => ?_, fun c₁ hc₁ => ?_,
    fun v g d hv => (hmem _).mpr ((hstaged v g d hv).imp (h.staged v g d) id),
    fun v g hv => (hmem _).mpr ((hmissing v g hv).imp (h.missing v g) id),
    fun work hwork => ⟨mem_append_left _ (h.line work hwork).1, (h.line work hwork).2⟩,
    fun c₁ hc₁ => ?_, fun work hwork c₁ hc₁ hlt => ?_,
    h.closed.commit fun work hwork => hline work (mem_append_right _ hwork)⟩
  · rcases (hmem c₁).mp hc₁ with hold | rfl
    · exact h.agree c₁ hold
    · exact hagree
  · rcases (hmem c₁).mp hc₁ with hold | rfl
    · exact h.positive c₁ hold
    · exact hpos
  · rcases (hmem c₁).mp hc₁ with hold | rfl
    · exact (h.covered c₁ hold).imp id (hkept c₁.1)
    · exact .inr hnoted
  · rcases (hmem c₁).mp hc₁ with hold | rfl
    · exact h.gapless work hwork c₁ hold hlt
    · exact h.gapless work hwork c₁ (hline work (mem_append_left _ hwork) hlt) hlt

theorem of_mem_iff (hmem : ∀ c, c ∈ committed' ↔ c ∈ committed) :
    Tracked t committed' confirmed where
  bound := h.bound
  agree c hc := h.agree c ((hmem c).mp hc)
  positive c hc := h.positive c ((hmem c).mp hc)
  staged v g d hv := (hmem _).mpr (h.staged v g d hv)
  missing v g hv := (hmem _).mpr (h.missing v g hv)
  line work hwork := (h.line work hwork).imp (hmem _).mpr id
  covered c hc := h.covered c ((hmem c).mp hc)
  gapless work hwork c hc := h.gapless work hwork c ((hmem c).mp hc)
  closed := h.closed.of_mem_iff hmem

theorem confirm (hagree : ∀ c' ∈ committed, c'.1 = c.1 → c'.2 = c.2) :
    Tracked t committed (confirmed ++ [c]) where
  bound v g hv := mem_append_left _ (h.bound v g hv)
  agree c₁ hc₁ c₂ hc₂ heq := by
    rcases mem_append.mp hc₂ with hc₂ | hc₂
    · exact h.agree c₁ hc₁ c₂ hc₂ heq
    · obtain rfl := mem_singleton.mp hc₂
      exact Prod.ext heq (hagree c₁ hc₁ heq.symm).symm
  positive := h.positive
  staged := h.staged
  missing := h.missing
  line work hwork := ⟨(h.line work hwork).1, mem_append_left _ (h.line work hwork).2⟩
  covered := h.covered
  gapless := h.gapless
  closed := h.closed

end

theorem enqueue {s : Service D} {held : Option (SidecarDiffWork D)}
    (h : Tracked (s.transit held) committed confirmed) (confirmedView : ℕ) :
    Tracked ((s.enqueueConfirmed confirmedView).transit held) committed confirmed := by
  obtain ⟨picked, hreleased, hsorted, hpicked, hpending, hmissing⟩ :=
    s.enqueueConfirmed_spec confirmedView fun v g d g' hv hg =>
      congrArg Prod.snd (h.agree (v, g) (h.staged v g d hv) (v, g') (h.bound v g' hg) rfl)
  have hahead : (s.transit held).ahead ++ picked =
      ((s.enqueueConfirmed confirmedView).transit held).ahead := by
    rw [Service.transit, Service.transit, hreleased.queue, append_assoc]
  have hmissing' : ((s.enqueueConfirmed confirmedView).transit held).missing =
      (s.transit held).missing := hreleased.missing
  have hhanded :
      (s.transit held).handed = ((s.enqueueConfirmed confirmedView).transit held).handed :=
    hreleased.handed.symm
  refine ⟨fun v g hv => h.bound v g (hreleased.validated v g hv), h.agree, h.positive,
    fun v g d hv => ?_, fun v g hv => h.missing v g (hmissing' ▸ hv), ?_, fun c hc => ?_,
    hhanded ▸ h.gapless, ?_⟩
  · rw [Service.transit, hreleased.pending] at hv
    split at hv
    · cases hv
    · exact h.staged v g d hv
  · rw [← hhanded, ← hahead, ← append_assoc]
    refine forall_mem_append.mpr ⟨h.line, fun work hwork => ?_⟩
    obtain ⟨hstaged, hvalid⟩ := hpicked work hwork
    exact ⟨h.staged _ _ _ hstaged, h.bound _ _ hvalid⟩
  · rw [← hhanded, ← hahead, ← append_assoc, views_append, mem_append]
    rcases h.covered c hc with hline | hstaged | hgap
    · exact .inl (.inl hline)
    · by_cases hmem : c.1 ∈ views picked
      · exact .inl (.inr hmem)
      · exact .inr (.inl (by rwa [Service.transit, hreleased.pending, if_neg hmem]))
    · exact .inr (.inr (hmissing' ▸ hgap))
  · rw [← hhanded, ← hahead, Closed.append_iff]
    refine ⟨h.closed, Closed.of_sorted hsorted fun work hwork c hc hlt => ?_⟩
    rcases h.covered c hc with hline | hstaged | hgap
    · rw [views_append, mem_append] at hline
      exact .inl hline
    · by_cases hmem : c.1 ∈ views picked
      · exact .inr hmem
      · exact absurd hlt (hpending c.1 hstaged hmem work hwork).not_gt
    · exact absurd hlt (hmissing c.1 hgap work hwork).not_gt

variable {work : SidecarDiffWork D} {handed rest : List (SidecarDiffWork D)}

variable (h : Tracked ⟨validated', pending', missing', handed, work :: rest⟩ committed confirmed)
include h

theorem drop (hdone : work.1 ∈ views handed) :
    Tracked ⟨validated', pending', missing', handed, rest⟩ committed confirmed where
  bound := h.bound
  agree := h.agree
  positive := h.positive
  staged := h.staged
  missing := h.missing
  line work' hwork' := h.line work' (by simp at hwork' ⊢; tauto)
  covered c hc := by
    refine (h.covered c hc).imp (fun hline => ?_) id
    simp only [views_append, views_cons, mem_append, mem_cons] at hline ⊢
    rcases hline with hline | heq | hline
    · exact .inl hline
    · exact .inl (heq ▸ hdone)
    · exact .inr hline
  gapless := h.gapless
  closed := by
    have hclosed := h.closed.2
    rwa [Set.insert_eq_of_mem (show work.1 ∈ {v | v ∈ views handed} from hdone)] at hclosed

theorem hand :
    Tracked ⟨validated', pending', missing', handed ++ [work], rest⟩ committed confirmed := by
  have hline : handed ++ [work] ++ rest = handed ++ (work :: rest) := by simp
  obtain ⟨hbelow, hrest⟩ := h.closed
  refine ⟨h.bound, h.agree, h.positive, h.staged, h.missing, hline ▸ h.line,
    hline ▸ h.covered, fun work' hwork' c hc hlt => ?_, ?_⟩
  · rw [views_append, mem_append]
    rcases mem_append.mp hwork' with hold | hnew
    · exact .inl (h.gapless work' hold c hc hlt)
    · rw [mem_singleton.mp hnew] at hlt
      exact .inl (hbelow c hc hlt)
  · have hseen : {v | v ∈ views (handed ++ [work])} = insert work.1 {v | v ∈ views handed} := by
      ext v
      simp only [views_append, views_cons, views_nil, Set.mem_ofPred_eq, mem_append,
        mem_singleton, Set.mem_insert_iff]
      tauto
    rw [hseen]
    exact hrest

end Tracked

namespace Worker

def held : Worker D → Option (SidecarDiffWork D)
  | .load work | .accept work | .apply work => some work
  | _ => none

def Active : Worker D → Prop
  | .pop | .release | .load _ | .accept _ | .apply _ => True
  | _ => False

end Worker

open Service (Roster)

/-- What the last applied view is while the active worker stands at `pc`. -/
def Phase (r : Roster D) : Worker D → Prop
  | .accept work => r.lastApplied < work.1 ∧ (r.lastApplied = 0 ∨ r.lastApplied ∈ views r.handed)
  | .apply work => r.lastApplied = work.1 ∧ ∀ done ∈ r.handed, done.1 < work.1
  | _ => r.lastApplied = 0 ∨ r.lastApplied ∈ views r.handed

theorem Worker.held_of_not_active {pc : Worker D} (h : ¬ pc.Active) : pc.held = none := by
  cases pc <;> simp_all [Active, held]

theorem Phase.of_not_active {r : Roster D} {pc : Worker D} (h : Phase r pc) (hpc : ¬ pc.Active) :
    r.lastApplied = 0 ∨ r.lastApplied ∈ views r.handed := by
  cases pc <;> first | exact h | exact absurd trivial hpc

/-- At most one worker owns the running flag, and stands at `pc`. -/
structure Crew (r : Roster D) (pc : Worker D) : Prop where
  alone : ∀ w w', (r.workers w).Active → (r.workers w').Active → w = w'
  position : ∀ w, (r.workers w).Active → r.workers w = pc
  running : r.running = true ↔ pc.Active
  unborn : ∀ w, r.spawned ≤ w → r.workers w = .unborn
  increasing : r.handed.Pairwise fun a b => a.1 < b.1
  applied : ∀ work ∈ r.handed, work.1 ≤ r.lastApplied
  phase : Phase r pc

namespace Crew

variable {r r' : Roster D} {pc pc' : Worker D} {w : ℕ}

variable (h : Crew r pc)
include h

theorem turn (hturn : (r.workers w).Active ∨ ¬ pc.Active)
    (hworkers : r'.workers = Function.update r.workers w pc') (hborn : w < r'.spawned)
    (hspawned : r.spawned ≤ r'.spawned) (hrunning : r'.running = true ↔ pc'.Active)
    (hincreasing : r'.handed.Pairwise fun a b => a.1 < b.1)
    (happlied : ∀ work ∈ r'.handed, work.1 ≤ r'.lastApplied) (hphase : Phase r' pc') :
    Crew r' pc' := by
  have hothers : ∀ w', w' ≠ w → ¬ (r'.workers w').Active := by
    intro w' hne hw'
    rw [hworkers, update_of_ne hne] at hw'
    rcases hturn with hactive | hfree
    · exact hne (h.alone w' w hw' hactive)
    · exact hfree (h.position w' hw' ▸ hw')
  have honly : ∀ w', (r'.workers w').Active → w' = w := fun w' hw' =>
    by_contra fun hne => hothers w' hne hw'
  refine ⟨fun w₁ w₂ h₁ h₂ => (honly w₁ h₁).trans (honly w₂ h₂).symm, fun w' hw' => ?_, hrunning,
    fun w' hw' => ?_, hincreasing, happlied, hphase⟩
  · rw [honly w' hw', hworkers, update_self]
  · rw [hworkers, update_of_ne (by omega)]
    exact h.unborn w' (by omega)

theorem lt_spawned (hborn : r.workers w ≠ .unborn) : w < r.spawned :=
  not_le.mp fun hge => hborn (h.unborn w hge)

theorem move (hpc : r.workers w = pc) (hactive : pc.Active)
    (hworkers : r'.workers = Function.update r.workers w pc') (hactive' : pc'.Active)
    (hincreasing : r'.handed.Pairwise fun a b => a.1 < b.1)
    (happlied : ∀ work ∈ r'.handed, work.1 ≤ r'.lastApplied) (hphase : Phase r' pc')
    (hspawned : r'.spawned = r.spawned := by rfl) (hrunning : r'.running = r.running := by rfl) :
    Crew r' pc' := by
  refine h.turn (.inl (hpc ▸ hactive)) hworkers ?_ hspawned.ge ?_ hincreasing happlied hphase
  · rw [hspawned]
    refine h.lt_spawned fun hunborn => ?_
    rw [← hpc, hunborn] at hactive
    exact hactive
  · simp [hrunning, h.running, hactive, hactive']

theorem aside (hold : ¬ (r.workers w).Active) (hnew : ¬ pc'.Active)
    (hborn : r.workers w ≠ .unborn) :
    Crew { r with workers := Function.update r.workers w pc' } pc := by
  have hsame : ∀ w', (Function.update r.workers w pc' w').Active →
      (r.workers w').Active ∧ Function.update r.workers w pc' w' = r.workers w' := by
    intro w' hw'
    by_cases heq : w' = w
    · subst heq
      rw [update_self] at hw'
      exact absurd hw' hnew
    · rw [update_of_ne heq] at hw'
      exact ⟨hw', update_of_ne heq _ _⟩
  refine ⟨fun w₁ w₂ h₁ h₂ => h.alone w₁ w₂ (hsame w₁ h₁).1 (hsame w₂ h₂).1,
    fun w' hw' => (hsame w' hw').2.trans (h.position w' (hsame w' hw').1), h.running,
    fun w' hw' => ?_, h.increasing, h.applied, ?_⟩
  · have hne : w' ≠ w := fun heq => hborn (heq ▸ h.unborn w' hw')
    exact (update_of_ne hne _ _).trans (h.unborn w' hw')
  · have hphase := h.phase
    cases pc <;> exact hphase

end Crew

end N42.Sidecar
