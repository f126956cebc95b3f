import N42.Stm.Settled

/-!
Serializability of the Block-STM workers, where it holds: every claim of a validation still finds
the statuses it loaded, and no abort under way.
-/

namespace N42.Stm

open List Function Block

/-- If the next step of worker `w` claims a validation, then no abort is under way and the
statuses that `next_task` checked are still as it found them. -/
def Calm (s : State) (w : ℕ) : Prop :=
  ∀ v, s.workers w = .casCursor v → s.valCursor = v →
    (∀ w', ¬ (s.workers w').role.Aborting) ∧ s.status v = .executed ∧
      (0 < v → s.status (v - 1) = .validated)

namespace Settled

variable {b : Block} {s : State} {w m : ℕ} (h : Settled b s m)

include h

theorem step_task (hcalm : Calm s w) (hidle : (s.workers w).role = .idle) :
    Settled b (b.step s w) m := by
  have hnot : ∀ i, (s.workers w).role ≠ .executing i := by simp [hidle]
  cases hpc : s.workers w
  all_goals
    have hrole := hidle
    simp only [hpc, Pc.role, reduceCtorEq] at hrole
  all_goals
    rw [step, hpc]
  case idle => exact h.look hidle (by split <;> rfl)
  case popLock =>
    dsimp only
    split
    · exact h.look hidle rfl
    · exact h.look hidle rfl
  case popSub cand => exact h.look hidle rfl
  case casRedo cand =>
    dsimp only
    split
    · next hredo =>
      exact h.turn hnot (h.board.retake hidle hredo) (h.quiet_of_status (by simp [hredo])) trivial
        trivial
    · exact h.look hidle rfl
  case fetchExec =>
    dsimp only
    split
    · next hmore =>
      refine h.turn hnot (h.board.take hidle hmore) ?_ trivial trivial
      exact h.mem.quiet _ fun w' hw' => absurd (h.board.executing w' _ hw').2.1 (lt_irrefl _)
    · next hmore =>
      exact h.turn hnot (State.inv_assign { s with execCursor := s.execCursor + 1 } hidle
        (h.board.overshoot (not_lt.mp hmore))) trivial trivial trivial
  case loadCursor => exact h.look hidle (by split <;> rfl)
  case loadStatus v => exact h.look hidle (by split <;> [rfl; split <;> rfl])
  case loadPrev v => exact h.look hidle (by split <;> rfl)
  case casCursor v =>
    dsimp only
    split
    · next hcursor =>
      obtain ⟨hnone, hexecuted, hprev⟩ := hcalm v hpc hcursor
      subst hcursor
      exact h.move (h.board.claim hidle hnone hexecuted hprev) (fun i hi => absurd hi (hnot i))
        (fun w' _ => Tidy.of_not_aborting (hnone w')) h.outputs trivial trivial trivial
    · exact h.look hidle rfl
  case checkDone => exact h.look hidle (by split <;> rfl)
  case stopped => exact h

variable {i : ℕ}

theorem store_output {out : TxOutputInternal} (hpc : s.workers w = .storeOutput i out) :
    Settled b ({ s with outputs := Function.update s.outputs i (some out) }.goto w (.finish i))
      m := by
  have hold : (s.workers w).role = .executing i := by rw [hpc, Pc.role]
  have hpending : s.status i = .pending := (h.board.executing w i hold).1
  have hother : ∀ j, s.status j ≠ .pending →
      Function.update s.outputs i (some out) j = s.outputs j := by
    intro j hj
    refine update_of_ne ?_ _ _
    rintro rfl
    exact hj hpending
  refine ⟨?_, h.mem.store hpc fun w' hw' => h.board.alone w' w i hw' hold, fun w' => ?_,
    fun w' => ?_, fun j hj => ?_⟩
  · rw [State.board_goto]
    exact s.inv_assign hold h.board
  · by_cases heq : w' = w
    · subst heq
      simp only [State.goto, update_self, Tidy]
    · simpa [State.goto, heq] using h.tidy w'
  · by_cases heq : w' = w
    · subst heq
      simp only [State.goto, update_self, CheckOk]
    · simp only [State.goto, update_of_ne heq]
      refine (h.checks w').congr fun j hj => hother j ?_
      have hexecuted : s.status j = .executed := h.board.checked w' j hj
      simp [hexecuted]
  · have hvalidated : s.status j = .validated := (h.board.validated j).mpr hj
    exact (hother j (by simp [hvalidated])).trans (h.outputs j hj)

theorem step_execute (hold : (s.workers w).role = .executing i) : Settled b (b.step s w) m := by
  have hbusy := h.mem.busy w
  cases hpc : s.workers w
  all_goals
    have hrole := hold
    simp only [hpc, Pc.role, reduceCtorEq, Role.executing.injEq] at hrole
  all_goals
    subst hrole
    rw [hpc] at hbusy
  case clearDelta i =>
    rw [step, hpc]
    refine h.write hold rfl ?_
    rw [ExecOk, update_self, show s.mv i = heldBy (s.outputs i) from hbusy]
  case clearIndex i =>
    rw [step, hpc]
    refine h.write hold rfl ?_
    rw [ExecOk, update_self, hbusy]
    have hnoted := Slice.noted_heldBy (s.outputs i)
    exact ⟨rfl, rfl, hnoted.accounts, hnoted.storage, hnoted.wipes⟩
  case clearKeys i keys =>
    obtain ⟨hindex, hdelta, hcovered⟩ := hbusy
    cases keys with
    | nil =>
      rw [step, hpc]
      exact h.stay hold ⟨hcovered.eq_empty hindex hdelta, .start⟩ trivial trivial
    | cons key keys =>
      rw [step, hpc]
      refine h.write hold rfl ?_
      rw [ExecOk, update_self]
      refine ⟨?_, ?_, hcovered.remove⟩
      · cases key <;> exact hindex
      · cases key <;> exact hdelta
  case running i prog reads =>
    obtain ⟨hempty, hreplay⟩ := hbusy
    cases prog with
    | done outcome =>
      rw [step, hpc]
      have hproduced : b.Produced i (outputOf b.coinbase reads outcome) := by
        refine ⟨outcome, ?_, ?_⟩
        · rw [readSet_outputOf]
          exact hreplay
        · rw [readSet_outputOf]
      exact h.stay hold ⟨hproduced, [], rfl, hempty⟩ trivial trivial
    | basic address next =>
      rw [step, hpc]
      dsimp only
      split
      · next hblind => exact h.stay hold ⟨hempty, hreplay.blind hblind⟩ trivial trivial
      · next hseen =>
        exact h.stay hold ⟨hempty, hreplay.basic (by simpa using hseen) _⟩ trivial trivial
    | storage address slot next =>
      rw [step, hpc]
      exact h.stay hold ⟨hempty, hreplay⟩ trivial trivial
  case readWipe i address slot next reads latestSlot =>
    obtain ⟨hempty, hreplay⟩ := hbusy
    rw [step, hpc]
    exact h.stay hold ⟨hempty, hreplay.storage _⟩ trivial trivial
  case writing i out todo =>
    obtain ⟨hproduced, written, haccesses, hslice⟩ := hbusy
    cases todo with
    | nil =>
      rw [step, hpc]
      rw [append_nil] at haccesses
      refine h.stay hold ⟨hproduced, ?_⟩ trivial trivial
      rw [hslice, TxOutputInternal.published, haccesses]
    | cons access todo =>
      rw [step, hpc]
      refine h.write hold rfl ⟨hproduced, written ++ [access], by simpa using haccesses, ?_⟩
      rw [update_self, hslice, foldl_append]
      rfl
  case storeOutput i out =>
    rw [step, hpc]
    dsimp only
    split
    · exact h
    · exact h.store_output hpc
  case finish i =>
    rw [step, hpc]
    refine h.move (h.board.finish hold) ?_ (fun w' _ => h.tidy w') h.outputs trivial trivial trivial
    intro j hj _
    obtain rfl := Role.executing.inj (hold.symm.trans hj)
    exact hbusy

/-- A validator that finds a read as recorded finds what the sequential execution reads. -/
theorem mv_below (hrole : (s.workers w).role = .validating i) :
    ∀ j < i, s.mv j = b.seqMemory i j := by
  obtain ⟨rfl, -⟩ := h.board.holding w i (.inl hrole)
  exact fun j => h.mv_eq

/-- A read that is found as recorded is one of those that agree. -/
theorem check_next (hold : (s.workers w).role = .validating i) {out : TxOutputInternal}
    {checked todo : List ReadEntry} {entry : ReadEntry} (hout : s.outputs i = some out)
    (hsplit : out.readSet = checked ++ entry :: todo) (hagrees : ∀ e ∈ checked, b.Agrees i e)
    (hentry : b.Agrees i entry) : Settled b (s.goto w (.checking i todo)) m := by
  refine h.stay hold trivial trivial ⟨out, checked ++ [entry], hout, by simpa using hsplit, ?_⟩
  simp only [mem_append, mem_singleton]
  rintro e (he | rfl)
  · exact hagrees e he
  · exact hentry

theorem step_validate (hold : (s.workers w).role = .validating i) :
    ∃ m', m ≤ m' ∧ Settled b (b.step s w) m' := by
  have hnot : ∀ i, (s.workers w).role ≠ .executing i := by simp [hold]
  have hbelow := h.mv_below hold
  have hexecuted : s.status i = .executed := h.board.checked w i hold
  have hcheck := h.checks w
  cases hpc : s.workers w
  all_goals
    have hrole := hold
    simp only [hpc, Pc.role, reduceCtorEq, Role.validating.injEq] at hrole
  all_goals
    subst hrole
    rw [hpc] at hcheck
  case lockOutput i =>
    refine ⟨m, le_rfl, ?_⟩
    rw [step, hpc]
    dsimp only
    split
    · exact h
    · split
      · exact h.stay hold trivial trivial trivial
      · next out hout =>
        exact h.stay hold trivial trivial
          ⟨out, [], hout, rfl, fun _ he => absurd he not_mem_nil⟩
  case checking i todo =>
    obtain ⟨out, checked, hout, hsplit, hagrees⟩ := hcheck
    refine ⟨m, le_rfl, ?_⟩
    cases todo with
    | nil =>
      rw [step, hpc]
      rw [append_nil] at hsplit
      exact h.stay hold trivial trivial ⟨out, hout, hsplit ▸ hagrees⟩
    | cons entry todo =>
      rw [step, hpc]
      dsimp only
      split
      · next address hkey =>
        split
        · next hsame =>
          refine h.check_next hold hout hsplit hagrees ?_
          rw [Block.Agrees, hkey]
          exact hsame.trans (by rw [account_congr hbelow])
        · exact h.stay hold trivial trivial trivial
      · next address slot hkey =>
        exact h.stay hold trivial trivial
          ⟨out, checked, hout, hsplit, hagrees, hkey, latestSlot_congr hbelow address slot⟩
  case checkWipe i entry address slot todo latestSlot =>
    obtain ⟨out, checked, hout, hsplit, hagrees, hkey, hslot⟩ := hcheck
    refine ⟨m, le_rfl, ?_⟩
    rw [step, hpc]
    dsimp only
    split
    · next hsame =>
      refine h.check_next hold hout hsplit hagrees ?_
      rw [Block.Agrees, hkey]
      exact hsame.trans (by rw [hslot, latestWipe_congr hbelow])
    · exact h.stay hold trivial trivial trivial
  case casValidated i =>
    obtain ⟨out, hout, hagrees⟩ := hcheck
    have hseq := (h.mem.produced i out hout).eq_seqOutput hagrees
    have him := (h.board.holding w i (.inl hold)).1
    rw [step, hpc]
    dsimp only
    rw [if_pos hexecuted]
    refine ⟨m + 1, Nat.le_succ m, h.move (h.board.pass hold) (fun j hj => absurd hj (hnot j))
      (fun w' _ => h.tidy w') (fun j hj => ?_) trivial trivial trivial⟩
    rcases Nat.lt_succ_iff_lt_or_eq.mp hj with hlt | rfl
    · exact h.outputs j hlt
    · rw [← him, hout, hseq]
  case abortSwap i =>
    refine ⟨m, le_rfl, ?_⟩
    rw [step, hpc]
    dsimp only
    rw [hexecuted]
    exact h.turn hnot (h.board.fail hold) trivial rfl trivial

theorem step_count (hold : (s.workers w).role = .counting) : Settled b (b.step s w) m := by
  cases hpc : s.workers w
  all_goals
    have hrole := hold
    simp only [hpc, Pc.role, reduceCtorEq] at hrole
  case countValidated =>
    rw [step, hpc]
    exact h.turn (by simp [hold]) (h.board.count hold) trivial trivial trivial

theorem step_rewind (hold : (s.workers w).role = .rewinding i) : Settled b (b.step s w) m := by
  obtain ⟨him, hcursor⟩ := h.board.holding w i (.inr hold)
  have htidy := h.tidy w
  cases hpc : s.workers w
  all_goals
    have hrole := hold
    simp only [hpc, Pc.role, reduceCtorEq, Role.rewinding.injEq] at hrole
  all_goals
    subst hrole
    rw [hpc] at htidy
    rw [step, hpc]
  case abortPush i invalidated => exact h.stay hold trivial htidy trivial
  case abortLen i invalidated => exact h.stay hold trivial htidy trivial
  case abortLoad i invalidated => exact h.stay hold trivial ⟨htidy, him ▸ hcursor⟩ trivial
  case abortRewind i invalidated cur =>
    obtain ⟨rfl, rfl⟩ := htidy
    have hcursor : s.valCursor = i + 1 := him ▸ hcursor
    dsimp only
    rw [if_pos (Nat.lt_succ_self i), if_pos hcursor]
    refine h.move (h.board.rewind hold) (by simp [hold]) (fun w' hne => ?_) h.outputs trivial
      ⟨rfl, Nat.lt_succ_self i⟩ trivial
    -- nobody else aborts while this worker does
    refine Tidy.of_not_aborting fun hw' => hne (h.board.critical w' w hw'.critical ?_)
    exact .inr ⟨i, .inr hold⟩

theorem step_sweep (hold : (s.workers w).role = .sweeping) : Settled b (b.step s w) m := by
  have hnot : ∀ i, (s.workers w).role ≠ .executing i := by simp [hold]
  have hcursor : s.valCursor = m := by
    refine h.board.free fun w' i hi => ?_
    obtain rfl := h.board.critical w' w hi.critical (.inl hold)
    rcases hi with hi | hi
    · exact Role.noConfusion (hold.symm.trans hi)
    · exact Role.noConfusion (hold.symm.trans hi)
  have htidy := h.tidy w
  cases hpc : s.workers w
  all_goals
    have hrole := hold
    simp only [hpc, Pc.role, reduceCtorEq] at hrole
  all_goals
    rw [hpc] at htidy
    rw [step, hpc]
  case scan j invalidated =>
    obtain ⟨rfl, hj⟩ := htidy
    have hstatus : s.status j ≠ .validated := by
      intro hvalidated
      have hlt := (h.board.validated j).mp hvalidated
      omega
    dsimp only
    split
    · refine h.stay ?_ ?_ ?_ ?_
      · rw [hold]
        split <;> rfl
      · split <;> trivial
      · split
        · exact ⟨rfl, by omega⟩
        · next hfound =>
          refine ⟨rfl, hj, ?_⟩
          by_contra hne
          exact hfound ⟨hne, hstatus⟩
      · split <;> trivial
    · exact h.stay hold trivial rfl trivial
  case scanCas j invalidated cur =>
    obtain ⟨rfl, hj, rfl⟩ := htidy
    dsimp only
    split
    · next hexecuted =>
      exact h.turn hnot ((s.setStatus j .redo).inv_assign hold (h.board.sweep hold hexecuted))
        trivial ⟨rfl, hj⟩ trivial
    · exact h.stay hold trivial ⟨rfl, hj⟩ trivial
  case scanPush j invalidated => exact h.stay hold trivial htidy trivial
  case scanLen j invalidated =>
    exact h.stay hold trivial ⟨htidy.1, Nat.lt_succ_of_lt htidy.2⟩ trivial
  case discount invalidated =>
    obtain rfl : invalidated = 0 := htidy
    exact h.turn hnot (h.board.rest hold) trivial trivial trivial

theorem step (hcalm : Calm s w) : ∃ m', m ≤ m' ∧ Settled b (b.step s w) m' := by
  cases hrole : (s.workers w).role with
  | idle => exact ⟨m, le_rfl, h.step_task hcalm hrole⟩
  | executing i => exact ⟨m, le_rfl, h.step_execute hrole⟩
  | validating i => exact h.step_validate hrole
  | counting => exact ⟨m, le_rfl, h.step_count hrole⟩
  | rewinding i => exact ⟨m, le_rfl, h.step_rewind hrole⟩
  | sweeping => exact ⟨m, le_rfl, h.step_sweep hrole⟩

end Settled

def CalmRun (b : Block) : State → List ℕ → Prop
  | _, [] => True
  | s, w :: schedule => Calm s w ∧ CalmRun b (b.step s w) schedule

variable {b : Block}

theorem calmRun_append {s : State} {early late : List ℕ} (h : CalmRun b s (early ++ late)) :
    CalmRun b s early ∧ CalmRun b (early.foldl b.step s) late := by
  induction early generalizing s with
  | nil => exact ⟨trivial, h⟩
  | cons w early ih =>
    obtain ⟨hcalm, hrest⟩ := h
    obtain ⟨hearly, hlate⟩ := ih hrest
    exact ⟨⟨hcalm, hearly⟩, hlate⟩

theorem Settled.run {s : State} {m : ℕ} (h : Settled b s m) {schedule : List ℕ}
    (hcalm : CalmRun b s schedule) : ∃ m', m ≤ m' ∧ Settled b (schedule.foldl b.step s) m' := by
  induction schedule generalizing s m with
  | nil => exact ⟨m, le_rfl, h⟩
  | cons w schedule ih =>
    obtain ⟨m₁, hm₁, h₁⟩ := h.step hcalm.1
    obtain ⟨m₂, hm₂, h₂⟩ := ih h₁ hcalm.2
    exact ⟨m₂, hm₁.trans hm₂, h₂⟩

/-- Once the block is done, in a calm run, all of it is settled and stays so. -/
theorem Block.settled_of_calm {early late : List ℕ} (hcalm : CalmRun b .init (early ++ late))
    (hdone : b.AllDone (b.run early)) :
    ∃ m, b.txs.length ≤ m ∧ Settled b (b.run (early ++ late)) m := by
  obtain ⟨hearly, hlate⟩ := calmRun_append hcalm
  obtain ⟨m, -, hsettled⟩ := (Settled.init b).run hearly
  obtain ⟨m', hm', hsettled'⟩ := hsettled.run hlate
  have hcount : b.txs.length ≤ m := by
    obtain ⟨C, -, hC⟩ := hsettled.board.counted
    have hdone : b.txs.length ≤ (early.foldl b.step .init).validatedCount := hdone
    have hC : (early.foldl b.step .init).validatedCount + C.card = m := hC
    omega
  refine ⟨m', hcount.trans hm', ?_⟩
  rw [run, foldl_append]
  exact hsettled'

theorem buildOutput_of_outputs {n : ℕ} {outputs : ℕ → Option TxOutputInternal}
    {f : ℕ → TxOutputInternal} (h : ∀ i < n, outputs i = some (f i)) :
    buildOutput n outputs = .ok (assemble ((List.range n).map f)) := by
  have hall : ∀ l : List ℕ, (∀ i ∈ l, outputs i = some (f i)) →
      l.mapM (storedOutput outputs) = .ok (l.map f) := by
    intro l
    induction l with
    | nil => exact fun _ => rfl
    | cons i l ih =>
      intro hl
      rw [mapM_cons, storedOutput, hl i (mem_cons_self ..),
        ih fun j hj => hl j (mem_cons_of_mem _ hj)]
      rfl
  rw [buildOutput, hall _ fun i hi => h i (mem_range.mp hi)]
  rfl

/-- What `next_task` has loaded is still so. -/
def Fresh (status : ℕ → Status) : Pc → Prop
  | .loadPrev v => status v = .executed
  | .casCursor v => status v = .executed ∧ (0 < v → status (v - 1) = .validated)
  | _ => True

/-- Only worker `w` has moved. -/
structure Solo (s : State) (w : ℕ) : Prop where
  others : ∀ w', w' ≠ w → s.workers w' = .idle
  fresh : Fresh s.status (s.workers w)

namespace Solo

variable {s : State} {w : ℕ}

variable (h : Solo s w)
include h

theorem goto {s₁ : State} {pc : Pc} (hworkers : s₁.workers = s.workers)
    (hfresh : Fresh s₁.status pc) : Solo (s₁.goto w pc) w where
  others w' hw' := by simpa [State.goto, hw', hworkers] using h.others w' hw'
  fresh := by simpa [State.goto] using hfresh

theorem step : Solo (b.step s w) w := by
  have hfresh := h.fresh
  cases hpc : s.workers w
  all_goals rw [hpc] at hfresh
  case loadStatus v =>
    rw [Block.step, hpc]
    refine h.goto rfl ?_
    split
    · trivial
    · next hexecuted =>
      split
      · exact not_not.mp hexecuted
      · next hzero => exact ⟨not_not.mp hexecuted, fun hpos => absurd hpos hzero⟩
  case loadPrev v =>
    rw [Block.step, hpc]
    refine h.goto rfl ?_
    split
    · trivial
    · next hvalidated => exact ⟨hfresh, fun _ => not_not.mp hvalidated⟩
  -- no other step of the worker starts or goes on with a claim
  all_goals
    rw [step.eq_def, hpc]
    dsimp only
    repeat' first
      | exact h
      | exact h.goto rfl trivial
      | (split <;> trivial)
      | split

theorem calm : Calm s w := by
  intro v hpc hcursor
  have hfresh := h.fresh
  rw [hpc] at hfresh
  refine ⟨fun w' => ?_, hfresh⟩
  by_cases heq : w' = w
  · rw [heq, hpc]
    simp [Pc.role, Role.Aborting]
  · rw [h.others w' heq]
    simp [Pc.role, Role.Aborting]

theorem calmRun (k : ℕ) : CalmRun b s (List.replicate k w) := by
  induction k generalizing s with
  | zero => trivial
  | succ k ih => exact ⟨h.calm, ih h.step⟩

end Solo

theorem calmRun_single (b : Block) (w k : ℕ) : CalmRun b .init (List.replicate k w) :=
  Solo.calmRun (s := .init) ⟨fun _ _ => rfl, trivial⟩ k

/-- In a calm run, a block that is done has the outputs and the merged writes of its sequential
execution, whatever steps follow. -/
theorem Block.serializable_of_calm (b : Block) (hcoinbase : b.coinbase = none) (early late : List ℕ)
    (hcalm : CalmRun b .init (early ++ late)) (hdone : b.AllDone (b.run early)) :
    (∀ i < b.txs.length, (b.run (early ++ late)).outputs i = some (b.seqOutput i)) ∧
      buildOutput b.txs.length (b.run (early ++ late)).outputs = .ok b.sequentialExecute := by
  obtain ⟨m, hm, hsettled⟩ := b.settled_of_calm hcalm hdone
  have houtputs : ∀ i < b.txs.length,
      (b.run (early ++ late)).outputs i = some (b.seqOutput i) :=
    fun i hi => hsettled.outputs i (by omega)
  refine ⟨houtputs, ?_⟩
  rw [buildOutput_of_outputs houtputs, sequentialExecute]
  have hplain : ({ b with coinbase := none } : Block) = b := by rw [← hcoinbase]
  rw [hplain]

def holding (address : Address) (balance : U256) : Prog :=
  .done (some ⟨⟨21000, true, []⟩,
    [(address, ⟨⟨balance, 0, KECCAK_EMPTY⟩, true, false, false, []⟩)]⟩)

def copying (source target : Address) : Prog :=
  .basic source fun info => holding target ((info.map AccountInfo.balance).getD 0)

/-- Four transactions, each of which reads what the one before it writes. -/
def chain : Block where
  txs := [holding 1 1, .basic 1 fun _ => holding 2 5, copying 2 3, copying 3 4]
  base := ⟨fun _ => none, fun _ _ => 0⟩
  coinbase := none

theorem serializable_of_calm_chain :
    chain.AllDone (chain.run (List.replicate 200 0)) ∧
    buildOutput 4 (chain.run (List.replicate 200 0 ++ [])).outputs =
      .ok chain.sequentialExecute := by
  have hdone : chain.AllDone (chain.run (List.replicate 200 0)) := by decide +kernel
  refine ⟨hdone, (chain.serializable_of_calm rfl (List.replicate 200 0) [] ?_ hdone).2⟩
  rw [append_nil]
  exact calmRun_single chain 0 200

/-- Seven workers on the four transactions. Transaction 1 is found stale and the cursor goes back
to it; before worker 1 takes back the transactions above, 1 and 2 are validated again and worker
4 is about to claim 3. The late sweep takes back 2 and 3 and finds nothing counted to discount.
While 3 is executed again, without the entries of 2, worker 4 validates the output it had. -/
def race : List ℕ :=
  [(2, 0), (12, 1), (12, 2), (12, 3), (17, 0), (13, 1), (25, 2), (10, 3), (5, 4), (10, 1), (7, 5),
    (10, 6), (8, 5), (4, 4), (5, 6), (2, 4), (1, 2), (1, 3), (9, 0), (8, 1), (8, 2), (8, 3),
    (8, 4), (8, 5), (8, 6)].flatMap fun turn => List.replicate turn.1 turn.2

def Pc.isStopped : Pc → Bool
  | .stopped => true
  | _ => false

def finalBalance (address : Address) (output : Except ParallelEvmError ParallelExecutionOutput) :
    Option U256 :=
  (output.toOption.bind fun out => out.stateChanges address).map fun account =>
    account.info.balance

/-- The block is done and every worker has stopped, with an output that is not the
sequential one. -/
theorem serializable_race :
    chain.coinbase = none ∧ chain.AllDone (chain.run race) ∧
    (∀ w < 7, ((chain.run race).workers w).isStopped) ∧
    (chain.run race).outputs 3 ≠ some (chain.seqOutput 3) ∧
    buildOutput 4 (chain.run race).outputs ≠ .ok chain.sequentialExecute := by
  have hrun : chain.AllDone (chain.run race) ∧
      (∀ w < 7, ((chain.run race).workers w).isStopped) ∧
      (chain.run race).outputs 3 ≠ some (chain.seqOutput 3) ∧
      finalBalance 4 (buildOutput 4 (chain.run race).outputs) ≠
        finalBalance 4 (.ok chain.sequentialExecute) := by decide +kernel
  obtain ⟨hdone, hstopped, houtput, hbalance⟩ := hrun
  exact ⟨rfl, hdone, hstopped, houtput, fun h => hbalance (congrArg (finalBalance 4) h)⟩

end N42.Stm
