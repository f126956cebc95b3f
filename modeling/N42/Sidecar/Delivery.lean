import N42.Sidecar.Order

/-!
Every event keeps the diffs on their way, and the order in which the sinks receive them.
-/

namespace N42.Sidecar

open Lib List Service

variable {D : Type}

def blockOf (entry : ℕ × B256 × Option D) : ℕ × B256 := (entry.1, entry.2.1)

/-- Blocks that can commit one after the other: each has been committed before or is above all
committed ones, and none contradicts an execution-valid result. -/
def InOrder (confirmed : List (ℕ × B256)) : List (ℕ × B256) → List (ℕ × B256) → Prop
  | _, [] => True
  | committed, c :: rest => 0 < c.1 ∧ (c ∈ committed ∨ ∀ c' ∈ committed, c'.1 < c.1) ∧
      (∀ c' ∈ confirmed, c'.1 = c.1 → c' = c) ∧ InOrder confirmed (committed ++ [c]) rest

instance InOrder.decidable (confirmed : List (ℕ × B256)) :
    ∀ committed blocks : List (ℕ × B256), Decidable (InOrder confirmed committed blocks)
  | _, [] => inferInstanceAs (Decidable True)
  | committed, c :: rest =>
    have := InOrder.decidable confirmed (committed ++ [c]) rest
    inferInstanceAs (Decidable (_ ∧ _ ∧ _ ∧ _))

/-- The diffs are on their way and the workers in order. -/
def Ordered (s : Service D) (committed confirmed : List (ℕ × B256)) : Prop :=
  ∃ pc, Crew s.roster pc ∧ Tracked (s.transit pc.held) committed confirmed

namespace Ordered

variable {s s' : Service D} {committed confirmed : List (ℕ × B256)}

theorem workerStep (h : Ordered s committed confirmed) (w : ℕ) :
    Ordered (s.workerStep w) committed confirmed := by
  obtain ⟨pc, hcrew, htracked⟩ := h
  cases hpc : s.workers w
  all_goals have hpos : s.roster.workers w = _ := hpc
  case unborn =>
    simp only [Service.workerStep, hpc]
    exact ⟨pc, hcrew, htracked⟩
  case gone =>
    simp only [Service.workerStep, hpc]
    exact ⟨pc, hcrew, htracked⟩
  case recheck =>
    simp only [Service.workerStep, hpc]
    refine ⟨pc, hcrew.aside (by simp [hpos, Worker.Active]) ?_ (by simp [hpos]), htracked⟩
    split <;> simp [Worker.Active]
  case reclaim =>
    simp only [Service.workerStep, hpc]
    split
    · exact ⟨pc, hcrew.aside (by simp [hpos, Worker.Active]) (by simp [Worker.Active])
        (by simp [hpos]), htracked⟩
    · next hfree =>
      have hpc' : ¬ pc.Active := fun hactive => hfree (hcrew.running.mpr hactive)
      rw [Worker.held_of_not_active hpc'] at htracked
      exact ⟨.pop, hcrew.turn (.inr hpc') rfl (hcrew.lt_spawned (by simp [hpos])) le_rfl
        (by simp [roster, Worker.Active]) hcrew.increasing hcrew.applied
        (hcrew.phase.of_not_active hpc'), htracked⟩
  -- the active worker
  all_goals
    obtain rfl := hpos.symm.trans (hcrew.position w (by rw [hpos]; trivial))
    have hphase := hcrew.phase
  case pop =>
    simp only [Service.workerStep, hpc]
    split
    · exact ⟨.release, hcrew.move hpos trivial rfl trivial hcrew.increasing hcrew.applied hphase,
        htracked⟩
    · next work rest hqueue =>
      refine ⟨.load work, hcrew.move hpos trivial rfl trivial hcrew.increasing hcrew.applied hphase,
        ?_⟩
      rw [transit, hqueue] at htracked
      exact htracked
  case release =>
    simp only [Service.workerStep, hpc]
    exact ⟨.recheck, hcrew.turn (.inl (by rw [hpos]; trivial)) rfl
      (hcrew.lt_spawned (by simp [hpos])) le_rfl (by simp [roster, Worker.Active])
      hcrew.increasing hcrew.applied hphase, htracked⟩
  case load work =>
    simp only [Service.workerStep, hpc]
    split
    · next hle =>
      refine ⟨.pop, hcrew.move hpos trivial rfl trivial hcrew.increasing hcrew.applied hphase,
        htracked.drop ?_⟩
      -- the last applied view was handed over, and with it every committed view below it
      have hcommitted := (htracked.line work
        (mem_append_right _ (mem_cons_self ..))).1
      have hpositive := htracked.positive _ hcommitted
      rcases hphase with hzero | hlast
      · simp only [roster] at hpositive hzero
        omega
      · rcases Nat.lt_or_eq_of_le hle with hlt | heq
        · obtain ⟨done, hdone, hdoneView⟩ := mem_map.mp hlast
          exact htracked.gapless done hdone _ hcommitted (hdoneView ▸ hlt)
        · rw [heq]
          exact hlast
    · next hgt =>
      exact ⟨.accept work, hcrew.move hpos trivial rfl trivial hcrew.increasing hcrew.applied
        ⟨not_le.mp hgt, hphase⟩, htracked⟩
  case accept work =>
    simp only [Service.workerStep, hpc]
    have hbelow : ∀ done ∈ s.handed, done.1 < work.1 := fun done hdone =>
      lt_of_le_of_lt (hcrew.applied done hdone) hphase.1
    exact ⟨.apply work, hcrew.move hpos trivial rfl trivial hcrew.increasing
      (fun done hdone => (hbelow done hdone).le) ⟨rfl, hbelow⟩, htracked⟩
  case apply work =>
    obtain ⟨hlast, hbelow⟩ := hphase
    simp only [Service.workerStep, hpc]
    have hlast : s.lastSidecarAppliedView = work.1 := hlast
    refine ⟨.pop, hcrew.move hpos trivial rfl trivial ?_ ?_ (.inr (by simp [roster, hlast])),
      htracked.hand⟩
    · refine pairwise_append.mpr ⟨hcrew.increasing, pairwise_singleton _ _, ?_⟩
      intro done hdone work' hwork'
      rw [mem_singleton.mp hwork']
      exact hbelow done hdone
    · exact forall_mem_append.mpr ⟨hcrew.applied, forall_mem_singleton.mpr hlast.ge⟩

theorem kick (h : Ordered s committed confirmed) : Ordered s.kick committed confirmed := by
  obtain ⟨pc, hcrew, htracked⟩ := h
  rw [Service.kick]
  split
  · exact ⟨pc, hcrew, htracked⟩
  · next hfree =>
    have hpc : ¬ pc.Active := fun hactive => hfree (hcrew.running.mpr hactive)
    rw [Worker.held_of_not_active hpc] at htracked
    exact ⟨.pop, hcrew.turn (.inr hpc) rfl (Nat.lt_succ_self _) (Nat.le_succ _)
      (by simp [roster, Worker.Active]) hcrew.increasing hcrew.applied
      (hcrew.phase.of_not_active hpc), htracked⟩

theorem enqueue (h : Ordered s committed confirmed) (confirmedView : ℕ) :
    Ordered (s.enqueueConfirmed confirmedView) committed confirmed := by
  obtain ⟨pc, hcrew, htracked⟩ := h
  obtain ⟨picked, hreleased, -⟩ := s.enqueueConfirmed_spec confirmedView fun v g d g' hv hg =>
    congrArg Prod.snd (htracked.agree (v, g) (htracked.staged v g d hv) (v, g')
      (htracked.bound v g' hg) rfl)
  exact ⟨pc, hreleased.roster ▸ hcrew, htracked.enqueue confirmedView⟩

variable {hash : B256} {view : ℕ}

variable (h : Ordered s committed confirmed)
include h

theorem restage (hcommitted : (view, hash) ∈ committed) (diff : D) :
    Ordered { s with
      missingSidecarDiffs := s.missingSidecarDiffs.erase view
      pendingSidecarDiffs := s.pendingSidecarDiffs.insert view (hash, diff) }
      committed confirmed := by
  obtain ⟨pc, hcrew, htracked⟩ := h
  refine ⟨pc, hcrew, htracked.restage htracked.bound
    (fun v g d hv => ?_) (fun v g hv => ?_) fun v hv => ?_⟩
  · rw [Std.TreeMap.getElem?_insert] at hv
    split at hv
    · next heq =>
      cases hv
      rwa [← Nat.compare_eq_eq.mp heq]
    · exact htracked.staged v g d hv
  · rw [Std.TreeMap.getElem?_erase] at hv
    split at hv
    · cases hv
    · exact htracked.missing v g hv
  · simp only [Std.TreeMap.getElem?_insert, Std.TreeMap.getElem?_erase]
    split
    · exact .inl rfl
    · exact hv

theorem unstage (hcommitted : (view, hash) ∈ committed) (pending : Std.TreeMap ℕ (B256 × D))
    (hpending : ∀ v : ℕ, pending[v]? = s.pendingSidecarDiffs[v]? ∨ v = view ∧ pending[v]? = none) :
    Ordered { s with
      pendingSidecarDiffs := pending
      missingSidecarDiffs := s.missingSidecarDiffs.insert view hash } committed confirmed := by
  obtain ⟨pc, hcrew, htracked⟩ := h
  refine ⟨pc, hcrew, htracked.restage htracked.bound
    (fun v g d hv => ?_) (fun v g hv => ?_) fun v hv => ?_⟩
  · rcases hpending v with hsame | ⟨-, hnone⟩
    · exact htracked.staged v g d (hsame ▸ hv)
    · rw [hnone] at hv
      cases hv
  · rw [Std.TreeMap.getElem?_insert] at hv
    split at hv
    · next heq =>
      cases hv
      rwa [← Nat.compare_eq_eq.mp heq]
    · exact htracked.missing v g hv
  · simp only [Std.TreeMap.getElem?_insert]
    rcases hpending v with hsame | ⟨rfl, -⟩
    · rw [hsame]
      split
      · exact .inr rfl
      · exact hv
    · exact .inr (by simp)

theorem fillGap (hmissing : s.missingSidecarDiffs[view]? = some hash) (diff : D) :
    Ordered (s.fillGap view hash diff) committed confirmed := by
  have hcommitted : (view, hash) ∈ committed := by
    obtain ⟨pc, -, htracked⟩ := h
    exact htracked.missing view hash hmissing
  rw [Service.fillGap]
  split
  · exact (h.restage hcommitted diff).enqueue _
  · exact h.restage hcommitted diff

theorem tryRecoverMissingSidecarDiff (hash : B256) (data : BlockData D) :
    Ordered (s.tryRecoverMissingSidecarDiff hash data) committed confirmed := by
  rw [Service.tryRecoverMissingSidecarDiff]
  split
  · next view missingHash diff hfound hdiff =>
    have hmem := mem_of_find?_eq_some hfound
    have hhash : missingHash = hash := by simpa using find?_some hfound
    rw [Std.TreeMap.mem_toList_iff_getElem?_eq_some, hhash] at hmem
    exact h.fillGap hmem diff
  · exact h

theorem cachePendingBlockData (hash : B256)
    (data : BlockData D) : Ordered (s.cachePendingBlockData hash data) committed confirmed := by
  have hremembered : Ordered
      ((s.tryRecoverMissingSidecarDiff hash data).rememberRecentBlockData hash data)
      committed confirmed := by
    have hrecovered := h.tryRecoverMissingSidecarDiff hash data
    rw [rememberRecentBlockData]
    split
    · exact hrecovered
    · split
      · exact hrecovered
      · exact hrecovered
  rw [Service.cachePendingBlockData]
  split
  · exact hremembered
  · exact hremembered

theorem handleStateDiffReady (hash : B256) (diff : D) :
    Ordered (s.handleStateDiffReady hash diff) committed confirmed := by
  rw [Service.handleStateDiffReady]
  split
  · exact h
  · split
    · next hmissing => exact h.fillGap hmissing diff
    · exact h

theorem discardUnvalidatedSidecarDiff (view : ℕ)
    (hash : B256) : Ordered (s.discardUnvalidatedSidecarDiff view hash) committed confirmed := by
  rw [Service.discardUnvalidatedSidecarDiff]
  split
  · next hmatch =>
    obtain ⟨⟨stagedHash, diff⟩, hstaged, hhash⟩ := (Option.any_eq_true _ _).mp hmatch
    obtain rfl : stagedHash = hash := by simpa using hhash
    have hcommitted : (view, stagedHash) ∈ committed := by
      obtain ⟨pc, -, htracked⟩ := h
      exact htracked.staged view stagedHash diff hstaged
    refine h.unstage hcommitted _ fun v => ?_
    rw [Std.TreeMap.getElem?_erase]
    by_cases heq : v = view
    · exact .inr ⟨heq, by simp [heq]⟩
    · exact .inl (by simp [Ne.symm heq])
  · exact h

theorem confirm (hagree : ∀ c ∈ committed, c.1 = view → c.2 = hash) :
    Ordered s committed (confirmed ++ [(view, hash)]) := by
  obtain ⟨pc, hcrew, htracked⟩ := h
  exact ⟨pc, hcrew, htracked.confirm hagree⟩

theorem advanceExecutionValidatedHead (hagree : ∀ c ∈ committed, c.1 = view → c.2 = hash) :
    Ordered (s.advanceExecutionValidatedHead view hash) committed
      (confirmed ++ [(view, hash)]) := by
  have hbound : Ordered { s with executionValidatedSidecarHashes :=
      s.executionValidatedSidecarHashes.insert view hash } committed
      (confirmed ++ [(view, hash)]) := by
    obtain ⟨pc, hcrew, htracked⟩ := h.confirm hagree
    refine ⟨pc, hcrew, htracked.restage (fun v g hv => ?_)
      htracked.staged htracked.missing fun v hv => hv⟩
    rw [Std.TreeMap.getElem?_insert] at hv
    split at hv
    · next heq =>
      cases hv
      rw [← Nat.compare_eq_eq.mp heq]
      exact mem_append_right _ (mem_singleton_self _)
    · exact htracked.bound v g hv
  rw [Service.advanceExecutionValidatedHead]
  split
  · exact h.confirm hagree
  · dsimp only
    split
    · exact hbound.enqueue _
    · split
      · exact hbound
      · have hhead : Ordered { s with
            executionValidatedSidecarHashes := s.executionValidatedSidecarHashes.insert view hash
            headBlockHash := hash
            executionValidatedHeadView := view } committed (confirmed ++ [(view, hash)]) := hbound
        exact hhead.enqueue view

theorem stage (entry : ℕ × B256 × Option D) (hpos : 0 < entry.1)
    (horder : blockOf entry ∈ committed ∨ ∀ c ∈ committed, c.1 < entry.1)
    (hagree : ∀ c ∈ confirmed, c.1 = entry.1 → c = blockOf entry) :
    Ordered (s.stage entry) (committed ++ [blockOf entry]) confirmed := by
  obtain ⟨pc, hcrew, htracked⟩ := h
  obtain ⟨view, hash, diff⟩ := entry
  cases diff with
  | none =>
    refine ⟨pc, hcrew, htracked.commit hpos horder hagree
      (fun v g d hv => .inl hv) (fun v g hv => ?_) (fun v hv => ?_) ?_⟩
    · rw [Service.stage, Std.TreeMap.getElem?_insert] at hv
      split at hv
      · next heq =>
        cases hv
        exact .inr (by rw [← Nat.compare_eq_eq.mp heq]; rfl)
      · exact .inl hv
    · simp only [Service.stage, Std.TreeMap.getElem?_insert]
      split
      · exact .inr rfl
      · exact hv
    · exact .inr (by simp [Service.stage, blockOf])
  | some diff =>
    refine ⟨pc, hcrew, htracked.commit hpos horder hagree
      (fun v g d hv => ?_) (fun v g hv => ?_) (fun v hv => ?_) ?_⟩
    · rw [Service.stage, Std.TreeMap.getElem?_insert] at hv
      split at hv
      · next heq =>
        cases hv
        exact .inr (by rw [← Nat.compare_eq_eq.mp heq]; rfl)
      · exact .inl hv
    · rw [Service.stage, Std.TreeMap.getElem?_erase] at hv
      split at hv
      · cases hv
      · exact .inl hv
    · simp only [Service.stage, Std.TreeMap.getElem?_insert, Std.TreeMap.getElem?_erase]
      split
      · exact .inl rfl
      · exact hv
    · exact .inl (by simp [Service.stage, blockOf])

theorem stageAll {entries : List (ℕ × B256 × Option D)}
    (horder : InOrder confirmed committed (entries.map blockOf)) :
    Ordered (entries.foldl Service.stage s) (committed ++ entries.map blockOf) confirmed := by
  induction entries generalizing s committed with
  | nil => simpa using h
  | cons entry entries ih =>
    obtain ⟨hpos, hfirst, hagree, hrest⟩ := horder
    have htail := ih (h.stage entry hpos hfirst hagree) hrest
    rwa [append_assoc] at htail

theorem stageCommit {lineage : List (RecentBlockData D)}
    (hnoted : (view, hash) ∈ (s.lineageData lineage view hash).map blockOf)
    (horder : InOrder confirmed committed ((s.lineageData lineage view hash).map blockOf)) :
    Ordered (s.stageCommit view hash lineage)
      (committed ++ (s.lineageData lineage view hash).map blockOf ++ [(view, hash)])
      confirmed := by
  have hstaged : Ordered ((s.lineageData lineage view hash).foldl Service.stage
      { s with committing := none })
      (committed ++ (s.lineageData lineage view hash).map blockOf ++ [(view, hash)])
      confirmed := by
    have hidle : Ordered { s with committing := none } committed confirmed := h
    obtain ⟨pc, hcrew, htracked⟩ := hidle.stageAll horder
    refine ⟨pc, hcrew, htracked.of_mem_iff fun c => ?_⟩
    simp only [mem_append, mem_singleton]
    constructor
    · rintro (hc | rfl)
      · exact hc
      · exact .inr hnoted
    · exact .inl
  rw [Service.stageCommit]
  split
  · exact hstaged.enqueue _
  · exact hstaged

end Ordered

namespace World

variable (x : World D)

/-- A commit notes the block it commits, and the blocks it finalizes are in order. -/
def NotesCommit : Option (ℕ × B256 × List (RecentBlockData D)) → Prop
  | none => True
  | some (view, hash, lineage) => x.service.kicking = false →
      (view, hash) ∈ (x.service.lineageData lineage view hash).map blockOf ∧
      InOrder x.confirmed x.committed ((x.service.lineageData lineage view hash).map blockOf)

/-- What a run needs of its next event: a commit is noted, and an execution-valid result is for
the block committed at its view. -/
def Orderly : Event D → Prop
  | .stageCommit => x.NotesCommit x.service.committing
  | .executionValid view hash => ¬ x.Busy → ∀ c ∈ x.committed, c.1 = view → c.2 = hash
  | _ => True

def OrderlyRun : World D → List (Event D) → Prop
  | _, [] => True
  | x, event :: events => x.Orderly event ∧ OrderlyRun (x.step event) events

def Inv : Prop := Ordered x.service x.committed x.confirmed

theorem inv_new (genesis : B256) : (new genesis : World D).Inv := by
  refine ⟨.gone, ⟨fun _ _ h => h.elim, fun _ h => h.elim, ?_, fun _ _ => rfl, .nil, ?_, .inl rfl⟩,
    ⟨?_, ?_, ?_, ?_, ?_, ?_, ?_, ?_, trivial⟩⟩
  all_goals simp [new, Service.new, Service.roster, Service.transit, Worker.Active, Worker.held]

theorem Inv.step {x : World D} (h : x.Inv) {event : Event D} (horderly : x.Orderly event) :
    (x.step event).Inv := by
  cases event with
  | kick =>
    rw [World.step]
    split
    · exact h.kick
    · exact h
  | worker w => exact h.workerStep w
  | blockData hash data =>
    rw [World.step]
    split
    · exact h
    · exact h.cachePendingBlockData hash data
  | dropBlockData hash =>
    rw [World.step]
    split
    · exact h
    · exact h
  | executionMetadata hash parentHash blockNumber stateDiff =>
    rw [World.step]
    split
    · exact h
    · exact h
  | stateDiffReady hash stateDiff =>
    rw [World.step]
    split
    · exact h
    · exact h.handleStateDiffReady hash stateDiff
  | commit view hash =>
    rw [World.step]
    split
    · exact h
    · exact h
  | stageCommit =>
    rw [World.step]
    split
    · exact h
    · next view hash lineage hcommitting =>
      split
      · exact h
      · next hidle =>
        rw [Orderly, hcommitting] at horderly
        obtain ⟨hnoted, horder⟩ := horderly (by simpa using hidle)
        exact h.stageCommit hnoted horder
  | executionValid view hash =>
    rw [World.step]
    split
    · exact h
    · next hidle => exact h.advanceExecutionValidatedHead (horderly hidle)
  | discard view hash =>
    rw [World.step]
    split
    · exact h
    · exact h.discardUnvalidatedSidecarDiff view hash

theorem Inv.run {x : World D} (h : x.Inv) {events : List (Event D)}
    (horderly : x.OrderlyRun events) : (events.foldl World.step x).Inv := by
  induction events generalizing x with
  | nil => exact h
  | cons event events ih => exact ih (h.step horderly.1) horderly.2

/-- In an orderly run the sinks receive diffs of committed blocks in the order of their views,
each for the hash confirmed at its view, and none while a committed view below it is left out. -/
theorem diffs_in_order (genesis : B256) (events : List (Event D))
    (horderly : (new genesis).OrderlyRun events) :
    ((run genesis events).service.handed.Pairwise fun a b => a.1 < b.1) ∧
    ∀ work ∈ (run genesis events).service.handed,
      (work.1, work.2.1) ∈ (run genesis events).committed ∧
      (work.1, work.2.1) ∈ (run genesis events).confirmed ∧
      ∀ c ∈ (run genesis events).committed, c.1 < work.1 →
        c.1 ∈ views (run genesis events).service.handed := by
  obtain ⟨pc, hcrew, htracked⟩ := (inv_new genesis).run horderly
  refine ⟨hcrew.increasing, fun work hwork => ?_⟩
  obtain ⟨hcommitted, hconfirmed⟩ := htracked.line work (mem_append_left _ hwork)
  exact ⟨hcommitted, hconfirmed, htracked.gapless work hwork⟩

instance : ∀ committing, Decidable (x.NotesCommit committing)
  | none => inferInstanceAs (Decidable True)
  | some (_, _, _) => inferInstanceAs (Decidable (_ → _ ∧ _))

instance : ∀ event, Decidable (x.Orderly event)
  | .stageCommit => inferInstanceAs (Decidable (x.NotesCommit _))
  | .executionValid _ _ => inferInstanceAs (Decidable (_ → _))
  | .blockData _ _ | .dropBlockData _ | .executionMetadata _ _ _ _ | .stateDiffReady _ _
  | .commit _ _ | .discard _ _ | .kick | .worker _ => inferInstanceAs (Decidable True)

instance OrderlyRun.decidable : ∀ (x : World D) (events : List (Event D)),
    Decidable (x.OrderlyRun events)
  | _, [] => inferInstanceAs (Decidable True)
  | x, event :: events =>
    have := OrderlyRun.decidable (x.step event) events
    inferInstanceAs (Decidable (_ ∧ _))

def dataOf (view : ℕ) (parent : B256) (diff : ℕ) : BlockData ℕ :=
  ⟨some view, some (parent, view), some diff⟩

/-- A block arrives, is executed, committed and confirmed, and the worker has its turn. -/
def delivery (view : ℕ) (hash parent : B256) (diff : ℕ) : List (Event ℕ) :=
  [.blockData hash (dataOf view parent diff), .executionMetadata hash parent view (some diff),
    .commit view hash, .stageCommit, .executionValid view hash, .kick] ++
      List.replicate 4 (.worker 0)

theorem diffs_in_order_of_two :
    (new 0).OrderlyRun (delivery 1 11 0 4 ++ delivery 2 12 11 5) ∧
    views (run 0 (delivery 1 11 0 4 ++ delivery 2 12 11 5)).service.handed = [1, 2] ∧
    (run 0 (delivery 1 11 0 4 ++ delivery 2 12 11 5)).service.handed.Pairwise
      fun a b => a.1 < b.1 := by
  have horderly : (new 0).OrderlyRun (delivery 1 11 0 4 ++ delivery 2 12 11 5) := by
    decide
  exact ⟨horderly, by decide, (diffs_in_order 0 _ horderly).1⟩

/-- Block 11 commits at view 1 before its data has come; the data come before view 2. -/
def lateData : List (Event ℕ) :=
  [.commit 1 11, .stageCommit, .blockData 11 (dataOf 1 0 4), .executionMetadata 11 0 1 (some 4),
    .executionValid 1 11] ++ delivery 2 12 11 5

/-- The diff of view 2 is handed over, and that of view 1 is neither handed over nor on its way
nor noted as missing. -/
theorem first_view_left_out :
    (run 0 lateData).committed = [(1, 11), (2, 12), (2, 12)] ∧
    (run 0 lateData).confirmed = [(1, 11), (2, 12)] ∧
    (run 0 lateData).service.handed = [(2, 12, 5)] ∧
    (run 0 lateData).service.sidecarApplyQueue = [] ∧
    (run 0 lateData).service.pendingSidecarDiffs.keys = [] ∧
    (run 0 lateData).service.missingSidecarDiffs.keys = [] := by
  decide

end World

end N42.Sidecar
