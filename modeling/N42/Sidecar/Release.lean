import N42.Sidecar.Service

/-!
What `enqueue_confirmed_sidecar_state_diffs` releases: the first staged diffs in view order, as
long as they lie below every missing view and their hash is the confirmed one.
-/

namespace N42.Sidecar

open Lib List

variable {D : Type}

def views (works : List (SidecarDiffWork D)) : List ℕ := works.map Prod.fst

@[simp] theorem views_append (l l' : List (SidecarDiffWork D)) :
    views (l ++ l') = views l ++ views l' := map_append

@[simp] theorem views_cons (work : SidecarDiffWork D) (l : List (SidecarDiffWork D)) :
    views (work :: l) = work.1 :: views l := rfl

@[simp] theorem views_nil : views ([] : List (SidecarDiffWork D)) = [] := rfl

namespace Service

theorem confirmable_spec (validated : Std.TreeMap ℕ B256) (blocked : Option ℕ)
    {entries : List (ℕ × B256 × D)} (hsorted : entries.Pairwise fun a b => a.1 < b.1)
    (hagree : ∀ e ∈ entries, ∀ h, validated[e.1]? = some h → h = e.2.1) :
    ∃ picked rest, entries = picked ++ rest ∧
      confirmable validated blocked entries = (views picked, none) ∧
      (∀ e ∈ picked, validated[e.1]? = some e.2.1) ∧
      ∀ e ∈ picked, ∀ v ∈ blocked, e.1 < v := by
  induction entries with
  | nil => exact ⟨[], [], rfl, rfl, by simp, by simp⟩
  | cons entry entries ih =>
    obtain ⟨view, stagedHash, diff⟩ := entry
    rw [confirmable]
    split
    · exact ⟨[], _, rfl, rfl, by simp, by simp⟩
    · next hblocked =>
      split
      · exact ⟨[], _, rfl, rfl, by simp, by simp⟩
      · next canonicalHash hcanonical =>
        have hhash : canonicalHash = stagedHash :=
          hagree _ (mem_cons_self ..) canonicalHash hcanonical
        obtain ⟨picked, rest, hsplit, hconfirmable, hvalid, hbelow⟩ :=
          ih (List.Pairwise.of_cons hsorted) fun e he => hagree e (mem_cons_of_mem _ he)
        rw [if_neg (not_not.mpr hhash), hconfirmable]
        refine ⟨(view, stagedHash, diff) :: picked, rest, by rw [hsplit]; rfl, rfl, ?_, ?_⟩
        · intro e he
          rcases mem_cons.mp he with rfl | he
          · rw [hcanonical, hhash]
          · exact hvalid e he
        · intro e he v hv
          rcases mem_cons.mp he with rfl | he
          · simpa [Option.mem_def.mp hv] using hblocked
          · exact hbelow e he v hv

theorem staged_sorted (s : Service D) (confirmedView : ℕ) :
    (s.staged confirmedView).Pairwise fun a b => a.1 < b.1 := by
  have hordered := Std.TreeMap.ordered_keys_toList (t := s.pendingSidecarDiffs)
  refine (hordered.imp ?_).sublist filter_sublist
  exact fun hab => Nat.compare_eq_lt.mp hab

variable {s : Service D}

theorem mem_staged {confirmedView view : ℕ} {hash : B256} {diff : D} :
    (view, hash, diff) ∈ s.staged confirmedView ↔
      s.pendingSidecarDiffs[view]? = some (hash, diff) ∧ view ≤ confirmedView := by
  rw [staged]
  simp

theorem blockedView_le {confirmedView view : ℕ} (hmissing : s.missingSidecarDiffs[view]?.isSome)
    (hview : view ≤ confirmedView) : ∃ blocked ∈ s.blockedView confirmedView, blocked ≤ view := by
  have hmem : view ∈ s.missingSidecarDiffs.keys.filter fun v => v ≤ confirmedView := by
    rw [mem_filter, Std.TreeMap.mem_keys, Std.TreeMap.mem_iff_isSome_getElem?]
    exact ⟨hmissing, by simpa using hview⟩
  have hsorted : (s.missingSidecarDiffs.keys.filter fun v => v ≤ confirmedView).Pairwise
      (· < ·) := by
    refine (Std.TreeMap.ordered_keys.imp ?_).sublist filter_sublist
    exact fun hab => Nat.compare_eq_lt.mp hab
  rw [blockedView]
  cases hkeys : s.missingSidecarDiffs.keys.filter fun v => v ≤ confirmedView with
  | nil => simp [hkeys] at hmem
  | cons blocked rest =>
    rw [hkeys] at hmem hsorted
    refine ⟨blocked, rfl, ?_⟩
    rcases mem_cons.mp hmem with rfl | hmem
    · exact le_rfl
    · exact (rel_of_pairwise_cons hsorted hmem).le

/-- The workers, and what only they change. -/
structure Roster (D : Type) where
  workers : ℕ → Worker D
  spawned : ℕ
  running : Bool
  lastApplied : ℕ
  handed : List (SidecarDiffWork D)

def roster (s : Service D) : Roster D :=
  ⟨s.workers, s.spawned, s.sidecarApplyWorkerRunning, s.lastSidecarAppliedView, s.handed⟩

/-- What an enqueueing does to the service: `picked` goes from the staged diffs to the queue. -/
structure Released (s s' : Service D) (picked : List (SidecarDiffWork D)) : Prop where
  queue : s'.sidecarApplyQueue = s.sidecarApplyQueue ++ picked
  pending : ∀ v : ℕ, s'.pendingSidecarDiffs[v]? =
    if v ∈ views picked then none else s.pendingSidecarDiffs[v]?
  validated : ∀ (v : ℕ) (h : B256), s'.executionValidatedSidecarHashes[v]? = some h →
    s.executionValidatedSidecarHashes[v]? = some h
  missing : s'.missingSidecarDiffs = s.missingSidecarDiffs
  roster : s'.roster = s.roster

theorem Released.handed {s s' : Service D} {picked : List (SidecarDiffWork D)}
    (h : Released s s' picked) : s'.handed = s.handed :=
  congrArg Roster.handed h.roster

theorem Released.refl (s : Service D) : Released s s [] :=
  ⟨by simp, fun v => by simp, fun _ _ h => h, rfl, rfl⟩

variable {picked : List (SidecarDiffWork D)}

theorem Released.after {s₁ s' : Service D} (h : Released s s₁ []) (h' : Released s₁ s' picked) :
    Released s s' picked where
  queue := by rw [h'.queue, h.queue, append_nil]
  pending v := by rw [h'.pending, h.pending]; simp
  validated v hash hv := h.validated v hash (h'.validated v hash hv)
  missing := h'.missing.trans h.missing
  roster := h'.roster.trans h.roster

theorem Released.kicking {s' : Service D} (h : Released s s' picked) (kicking : Bool) :
    Released s { s' with kicking := kicking } picked :=
  ⟨h.queue, h.pending, h.validated, h.missing, h.roster⟩

theorem released_foldl (hsorted : picked.Pairwise fun a b => a.1 < b.1)
    (hpicked : ∀ e ∈ picked, s.pendingSidecarDiffs[e.1]? = some e.2) :
    Released s ((views picked).foldl release s) picked := by
  induction picked generalizing s with
  | nil => exact Released.refl s
  | cons work picked ih =>
    obtain ⟨view, hash, diff⟩ := work
    have hhead : s.pendingSidecarDiffs[view]? = some (hash, diff) :=
      hpicked _ (mem_cons_self ..)
    have hrest := ih (s := s.release view) (List.Pairwise.of_cons hsorted) fun e he => by
      have hlt : view < e.1 := rel_of_pairwise_cons hsorted he
      rw [release, Std.TreeMap.getElem?_erase, if_neg (by simp [hlt.ne])]
      exact hpicked e (mem_cons_of_mem _ he)
    refine ⟨?_, fun v => ?_, fun v h hv => ?_, hrest.missing, hrest.roster⟩
    · rw [views_cons, foldl_cons, hrest.queue]
      simp [release, hhead]
    · rw [views_cons, foldl_cons, hrest.pending, release, Std.TreeMap.getElem?_erase]
      by_cases hv : v = view
      · simp [hv]
      · simp [hv, Ne.symm hv]
    · have hvalid := hrest.validated v h hv
      rw [release, Std.TreeMap.getElem?_erase] at hvalid
      split at hvalid
      · cases hvalid
      · exact hvalid

theorem released_dropStaleBindings (s : Service D) : Released s s.dropStaleBindings [] := by
  have herase : ∀ (stale : List ℕ) (bindings : Std.TreeMap ℕ B256) (v : ℕ) (h : B256),
      (stale.foldl (fun bindings view => bindings.erase view) bindings)[v]? = some h →
        bindings[v]? = some h := by
    intro stale
    induction stale with
    | nil => exact fun _ _ _ h => h
    | cons view stale ih =>
      intro bindings v h hv
      have hvalid := ih _ v h hv
      rw [Std.TreeMap.getElem?_erase] at hvalid
      split at hvalid
      · cases hvalid
      · exact hvalid
  exact ⟨by simp [dropStaleBindings], fun v => by simp [dropStaleBindings], herase _ _, rfl,
    rfl⟩

/-- Where no staged hash contradicts a confirmed one, an enqueueing releases the first staged
diffs: those left are at greater views, and so are all missing ones. -/
theorem enqueueConfirmed_spec (s : Service D) (confirmedView : ℕ)
    (hagree : ∀ (v : ℕ) (h : B256) (d : D) (g : B256), s.pendingSidecarDiffs[v]? = some (h, d) →
      s.executionValidatedSidecarHashes[v]? = some g → g = h) :
    ∃ picked, Released s (s.enqueueConfirmed confirmedView) picked ∧
      (picked.Pairwise fun a b => a.1 < b.1) ∧
      (∀ e ∈ picked, s.pendingSidecarDiffs[e.1]? = some e.2 ∧
        s.executionValidatedSidecarHashes[e.1]? = some e.2.1) ∧
      (∀ v : ℕ, s.pendingSidecarDiffs[v]?.isSome → v ∉ views picked → ∀ e ∈ picked, e.1 < v) ∧
      ∀ v : ℕ, s.missingSidecarDiffs[v]?.isSome → ∀ e ∈ picked, e.1 < v := by
  have hdrop := released_dropStaleBindings s
  obtain ⟨picked, rest, hsplit, hconfirmable, hvalid, hbelow⟩ :=
    confirmable_spec s.dropStaleBindings.executionValidatedSidecarHashes
      (s.dropStaleBindings.blockedView confirmedView)
      (s.dropStaleBindings.staged_sorted confirmedView) fun e he g hg =>
        hagree e.1 e.2.1 e.2.2 g (mem_staged.mp he).1 (hdrop.validated _ _ hg)
  have hsorted := s.dropStaleBindings.staged_sorted confirmedView
  rw [hsplit] at hsorted
  obtain ⟨hpickedSorted, -, hcross⟩ := pairwise_append.mp hsorted
  have hstaged : ∀ e ∈ picked, s.pendingSidecarDiffs[e.1]? = some e.2 ∧ e.1 ≤ confirmedView :=
    fun e he => mem_staged.mp (hsplit ▸ mem_append_left rest he)
  refine ⟨picked, ?_, hpickedSorted, fun e he => ⟨(hstaged e he).1,
    hdrop.validated _ _ (hvalid e he)⟩, fun v hv hnot e he => ?_, fun v hv e he => ?_⟩
  · rw [enqueueConfirmed]
    simp only [hconfirmable]
    split
    · next hempty =>
      obtain rfl : picked = [] := by simpa [views] using hempty
      exact hdrop
    · have hfold : Released s.dropStaleBindings
          ((views picked).foldl release s.dropStaleBindings) picked :=
        released_foldl hpickedSorted fun e he => (hstaged e he).1
      exact hdrop.after (hfold.kicking true)
  · by_cases hle : v ≤ confirmedView
    · obtain ⟨⟨hash, diff⟩, hentry⟩ := Option.isSome_iff_exists.mp hv
      have hmem : (v, hash, diff) ∈ s.dropStaleBindings.staged confirmedView :=
        mem_staged.mpr ⟨hentry, hle⟩
      rw [hsplit] at hmem
      rcases mem_append.mp hmem with hmem | hmem
      · exact absurd (mem_map_of_mem hmem) hnot
      · exact hcross e he _ hmem
    · exact lt_of_le_of_lt (hstaged e he).2 (not_le.mp hle)
  · by_cases hle : v ≤ confirmedView
    · obtain ⟨blocked, hblocked, hle'⟩ := blockedView_le (s := s.dropStaleBindings) hv hle
      exact lt_of_lt_of_le (hbelow e he blocked hblocked) hle'
    · exact lt_of_le_of_lt (hstaged e he).2 (not_le.mp hle)

end Service

end N42.Sidecar
