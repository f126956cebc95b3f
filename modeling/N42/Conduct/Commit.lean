import N42.Conduct.ViewChange

/-!
Handlers that may commit: votes, own blocks and decisions.

A commit is announced and followed by a view change unless an output is refused or the
validator changes that it carries cannot be staged.
-/

namespace N42

open Lib EngineM List

def Added (w w' : World) (x : Effect) : Prop := ∃ added, w'.log = added ++ w.log ∧ x ∈ added

theorem Added.head {w w' : World} {x : Effect} {rest : List Effect} (hlog : w'.log = x :: rest)
    (hs : w.log <:+ rest) : Added w w' x := by
  obtain ⟨t, rfl⟩ := hs
  exact ⟨x :: t, by rw [hlog]; rfl, mem_cons_self⟩

theorem Added.before {w₀ w w' : World} {x : Effect} (h : Added w w' x) (hs : w₀.log <:+ w.log) :
    Added w₀ w' x := by
  obtain ⟨added, hlog, hx⟩ := h
  obtain ⟨t, ht⟩ := hs
  exact ⟨added ++ t, by rw [hlog, ← ht, append_assoc], mem_append_left _ hx⟩

theorem Added.after {w w₁ w' : World} {x : Effect} (h : Added w w₁ x) (hs : w₁.log <:+ w'.log) :
    Added w w' x := by
  obtain ⟨added, hlog, hx⟩ := h
  obtain ⟨t, ht⟩ := hs
  exact ⟨t ++ added, by rw [← ht, hlog, append_assoc], mem_append_right _ hx⟩

theorem Refused.added {w w' : World} (h : Refused w w') :
    ∃ output, Added w w' (.emit output false) := by
  obtain ⟨output, rest, hlog, hs⟩ := h
  exact ⟨output, .head hlog hs⟩

section Outcomes

variable [Crypto]

/-- Staging what was committed cannot fail. -/
def StagingOk (em : EpochManager) (changesHash : B256) : Prop :=
  changesHash ≠ 0 → em.pendingChangesHash = changesHash →
    ∃ staged, em.commitPendingChanges = .ok staged

structure Commits (em : EpochManager) (w w' : World) (qc : QuorumCertificate)
    (changesHash : B256) : Prop where
  accepted : ∃ used known, Added w w' (.accept (.commit qc changesHash) used known)
  committed : w'.frame.committed = qc
  done : StagingOk em changesHash → (∀ output, ¬ Added w w' (.emit output false)) →
    (∃ blockHash changes, Added w w' (.emit (.blockCommitted qc.view blockHash qc changes) true)) ∧
      satAdd qc.view 1 ≤ w'.view
  undone : ¬ StagingOk em changesHash → w'.view ≤ qc.view

/-- Nothing was committed, or a commit ran its course. -/
structure Settles (L : ℕ → Prop) (em : EpochManager) (w w' : World) : Prop where
  suffix : w.log <:+ w'.log
  level : Levels L w w'
  settled : w'.frame.committed = w.frame.committed ∨
    ∃ qc changesHash, Commits em w w' qc changesHash

def Settling (L : ℕ → Prop) (em : EpochManager) {α : Type} (x : EngineM α) (w : World) : Prop :=
  w.frame.Clean → Outcome x w (fun _ w' => Settles L em w w') (Settles L em w)

end Outcomes

/-- Steps of a handler before it commits. -/
structure Prelude (L : ℕ → Prop) (w w' : World) : Prop where
  suffix : w.log <:+ w'.log
  view_eq : w'.view = w.view
  committed : w'.frame.committed = w.frame.committed
  epochs : w'.engine.epochManager = w.engine.epochManager
  clean : w.frame.Clean → w'.frame.Clean
  level : Levels L w w'

namespace Prelude

variable {L : ℕ → Prop} {a b c w : World}

theorem refl (w : World) : Prelude L w w :=
  ⟨suffix_refl _, rfl, rfl, rfl, id, fun _ _ _ h => h⟩

theorem trans (hab : Prelude L a b) (hbc : Prelude L b c) : Prelude L a c where
  suffix := hab.suffix.trans hbc.suffix
  view_eq := hbc.view_eq.trans hab.view_eq
  committed := hbc.committed.trans hab.committed
  epochs := hbc.epochs.trans hab.epochs
  clean := fun h => hbc.clean (hab.clean h)
  level := hab.level.trans hbc.level hbc.suffix

theorem of_quiet {w' : World} (h : Quiet L w w')
    (hepochs : w'.engine.epochManager = w.engine.epochManager) : Prelude L w w' where
  suffix := h.suffix
  view_eq := h.view_eq
  committed := congrArg Frame.committed h.frame
  epochs := hepochs
  clean := fun hw => h.frame ▸ hw
  level := h.levels

theorem push (w : World) (x : Effect) : Prelude L w (w.push x) := of_quiet (.push w x) rfl

end Prelude

section Rules

variable [Crypto] {L : ℕ → Prop} {em : EpochManager} {w w' : World} {α β : Type}

theorem Settles.of_prelude (h : Prelude L w w') : Settles L em w w' :=
  ⟨h.suffix, h.level, .inl h.committed⟩

theorem Settles.of_calm (h : Calm L w w') : Settles L em w w' :=
  ⟨h.suffix, h.level, .inl h.committed⟩

theorem Prelude.settles {w₁ : World} (h : Prelude L w w₁) (h' : Settles L em w₁ w') :
    Settles L em w w' where
  suffix := h.suffix.trans h'.suffix
  level := h.level.trans h'.level h'.suffix
  settled := by
    obtain hsame | ⟨qc, changesHash, hcommit⟩ := h'.settled
    · exact .inl (hsame.trans h.committed)
    · obtain ⟨used, known, haccepted⟩ := hcommit.accepted
      refine .inr ⟨qc, changesHash, ⟨used, known, haccepted.before h.suffix⟩, hcommit.committed,
        fun hstage hrefused => ?_, hcommit.undone⟩
      obtain ⟨⟨blockHash, changes, hannounced⟩, hview⟩ := hcommit.done hstage fun output hadded =>
        hrefused output (hadded.before h.suffix)
      exact ⟨⟨blockHash, changes, hannounced.before h.suffix⟩, hview⟩

namespace Settling

theorem of_calmly {x : EngineM α} (h : Calmly L x w) : Settling L em x w := fun hw =>
  (h hw).mono (fun _ _ hc => .of_calm hc) fun _ hc => .of_calm hc

theorem pure {a : α} : Settling L em (Pure.pure a : EngineM α) w := of_calmly .pure

variable {k : α → EngineM β}

theorem throw_bind {err : ConsensusError} :
    Settling L em (MonadExcept.throw err >>= k) w := of_calmly .throw_bind

theorem bind {x : EngineM α} {P : α → World → Prop}
    (hx : Outcome x w (fun a w' => Prelude L w w' ∧ P a w') (Prelude L w))
    (hk : ∀ a w', Prelude L w w' → P a w' → Settling L em (k a) w') :
    Settling L em (x >>= k) w := fun hw =>
  Outcome.bind (hx.mono (fun _ _ h => h) fun _ h => .of_prelude h) fun a w' ⟨h, hp⟩ =>
    (hk a w' h hp (h.clean hw)).mono (fun _ _ h' => h.settles h') fun _ h' => h.settles h'

theorem ite {c : Prop} [Decidable c] {x y : EngineM α} (hx : c → Settling L em x w)
    (hy : ¬ c → Settling L em y w) : Settling L em (if c then x else y) w :=
  fun hw => .ite (fun h => hx h hw) fun h => hy h hw

theorem engine_bind {k : Engine → EngineM β} (h : Settling L em (k w.engine) w) :
    Settling L em (EngineM.engine >>= k) w := h

theorem rank_bind {k : (ℕ → ℕ) → EngineM β} (h : Settling L em (k w.env.rank) w) :
    Settling L em (EngineM.rank >>= k) w := h

theorem ofExcept_bind {r : Except ConsensusError α} (h : ∀ a, r = .ok a → Settling L em (k a) w) :
    Settling L em (ofExcept r >>= k) w := by
  cases r with
  | error err => exact throw_bind
  | ok a => exact h a rfl

end Settling

end Rules

section Finish

variable [Crypto] {L : ℕ → Prop} {em : EpochManager} {w : World} {advance : ℕ → EngineM Unit}

abbrev AnyHeight : ℕ → Prop := fun _ => True

/-- The rest of a handler after the commit: it ends in the next view, or an output was
refused, or the changes could not be staged. -/
def Finishes (em : EpochManager) (qc : QuorumCertificate) (changesHash : B256) (x : EngineM Unit)
    (w : World) : Prop :=
  w.frame.Clean → Outcome x w
    (fun _ w' => Calm AnyHeight w w' ∧ StagingOk em changesHash ∧ satAdd qc.view 1 ≤ w'.view ∧
      ∃ blockHash changes, Added w w' (.emit (.blockCommitted qc.view blockHash qc changes) true))
    fun w' => Calm AnyHeight w w' ∧
      (Refused w w' ∧ StagingOk em changesHash ∨ ¬ StagingOk em changesHash ∧ w'.view = w.view)

omit [Crypto] in
theorem announceCommit_outcome (hadv : Advancing advance) (hw : w.frame.Clean) (view : ℕ)
    (blockHash : B256) (qc : QuorumCertificate) (changes : Option (List ValidatorChange)) :
    Outcome (announceCommit advance view blockHash qc changes) w
      (fun _ w' => Calm AnyHeight w w' ∧ satAdd view 1 ≤ w'.view ∧
        Added w w' (.emit (.blockCommitted view blockHash qc changes) true))
      fun w' => Calm AnyHeight w w' ∧ Refused w w' := by
  unfold announceCommit
  let w₁ := w.setEngine { w.engine with pendingTxRoots := w.engine.pendingTxRoots.remove blockHash }
  have hquiet : Quiet AnyHeight w w₁ := .setEngine rfl
  refine Outcome.run_bind (t := w₁) rfl ?_
  refine Outcome.bind
    (P := fun _ w' => w' = w₁.push (.emit (.blockCommitted view blockHash qc changes) true)) ?_ ?_
  · unfold Outcome
    rw [Sound.emit_run]
    split_ifs
    · rfl
    · exact ⟨.of_quiet (IsTrans.trans _ _ _ hquiet (.push w₁ _)) hw, _, _, rfl, suffix_refl _⟩
  rintro _ _ rfl
  have hcalm := Calm.of_quiet (IsTrans.trans _ _ _ hquiet
    (.push w₁ (.emit (.blockCommitted view blockHash qc changes) true))) hw
  have hadded : Added w (w₁.push (.emit (.blockCommitted view blockHash qc changes) true))
      (.emit (.blockCommitted view blockHash qc changes) true) := .head rfl (suffix_refl _)
  refine ((hadv AnyHeight _ _).emit_viewChanged hcalm.clean).mono (fun _ _ h => ?_) fun _ h => ?_
  · exact ⟨hcalm.trans h.1, h.2, hadded.after h.1.suffix⟩
  · exact ⟨hcalm.trans h.1, h.2.of_suffix hcalm.suffix⟩

def Stages (em : EpochManager) (changesHash : B256) {α : Type} (x : EngineM α) (w : World) : Prop :=
  Outcome x w (fun _ w' => Quiet AnyHeight w w' ∧ StagingOk em changesHash) fun w' =>
    Quiet AnyHeight w w' ∧ (Refused w w' ∧ StagingOk em changesHash ∨ ¬ StagingOk em changesHash)

variable {changesHash : B256}

theorem commitPendingChanges_stages (hne : changesHash ≠ 0)
    (hhash : w.engine.epochManager.pendingChangesHash = changesHash) :
    Stages w.engine.epochManager changesHash commitPendingChanges w := by
  refine engine_outcome ?_
  dsimp only
  cases hresult : w.engine.epochManager.commitPendingChanges with
  | error err =>
    have hfails : ¬ StagingOk w.engine.epochManager changesHash := by
      intro hok
      obtain ⟨staged, hstaged⟩ := hok hne hhash
      rw [hstaged] at hresult
      cases hresult
    exact Outcome.bind (P := fun _ _ => False) ⟨Std.Refl.refl w, .inr hfails⟩
      fun _ _ h => h.elim
  | ok staged =>
    have hquiet : Quiet AnyHeight w ((w.push (.epoch .commitPending)).setEngine
        { w.engine with epochManager := staged }) :=
      IsTrans.trans _ _ _ (.push w (.epoch .commitPending)) (.setEngine rfl)
    have hok : StagingOk w.engine.epochManager changesHash := fun _ _ => ⟨staged, hresult⟩
    exact And.intro hquiet hok

theorem stageCommitted_stages (changesHash : B256) :
    Stages w.engine.epochManager changesHash (stageCommitted changesHash) w := by
  refine engine_outcome (.ite (fun h => commitPendingChanges_stages h.1 h.2) fun h => ?_)
  exact .pure ⟨Std.Refl.refl w, fun hne hhash => absurd ⟨hne, hhash⟩ h⟩

theorem stageDecided_stages (d : Decide) :
    Stages w.engine.epochManager d.validatorChangesHash (stageDecided d) w := by
  refine engine_outcome (.ite (fun hne => ?_) fun h => ?_)
  · refine .ite (fun hhash => commitPendingChanges_stages hne hhash) fun h => ?_
    have hok : StagingOk w.engine.epochManager d.validatorChangesHash :=
      fun _ hhash => absurd hhash h
    exact Outcome.bind ((emit_outcome (L := AnyHeight) _).mono (fun _ _ h => h)
      fun _ h => ⟨h.1, .inl ⟨h.2, hok⟩⟩) fun _ _ h => .pure ⟨h, hok⟩
  · exact .pure ⟨Std.Refl.refl w, fun hne _ => absurd hne h⟩

theorem Finishes.of_stages {α : Type} {qc : QuorumCertificate} {stage : EngineM α}
    {k : α → EngineM Unit} (blockHash : B256) (changes : α → Option (List ValidatorChange))
    (hstage : Stages em changesHash stage w) (hk : ∀ a w', w'.frame.Clean → Outcome (k a) w'
      (fun _ w'' => Calm AnyHeight w' w'' ∧ satAdd qc.view 1 ≤ w''.view ∧
        Added w' w'' (.emit (.blockCommitted qc.view blockHash qc (changes a)) true))
      fun w'' => Calm AnyHeight w' w'' ∧ Refused w' w'') :
    Finishes em qc changesHash (stage >>= k) w := by
  intro hw
  refine Outcome.bind (P := fun _ w' => Quiet AnyHeight w w' ∧ StagingOk em changesHash)
    (hstage.mono (fun _ _ h => h) fun w' h => ⟨.of_quiet h.1 hw, ?_⟩) ?_
  · exact h.2.imp_right fun hfail => ⟨hfail, h.1.view_eq⟩
  rintro a w' ⟨hquiet, hok⟩
  have hcalm := Calm.of_quiet hquiet hw
  refine (hk a w' hcalm.clean).mono (fun _ _ h => ?_) fun _ h => ?_
  · exact ⟨hcalm.trans h.1, hok, h.2.1, _, _, h.2.2.before hcalm.suffix⟩
  · exact ⟨hcalm.trans h.1, .inl ⟨h.2.of_suffix hcalm.suffix, hok⟩⟩

/-- The certificate that is the last commit after `qc`. -/
def Frame.commit (f : Frame) (qc : QuorumCertificate) : Frame :=
  { f with committed := if f.committed.view ≤ qc.view then qc else f.committed }

/-- A commit settles: `w₀` is where the handler began, `w` is before the commit and `w₁`
after it. -/
theorem Finishes.settles {w₀ w₁ : World} {qc : QuorumCertificate} {x : EngineM Unit}
    (h : Finishes em qc changesHash x w₁) (hw : w.frame.Clean) (hpre : Prelude L w₀ w)
    (haccepted : ∃ used known, Added w₀ w (.accept (.commit qc changesHash) used known))
    (hs : w.log <:+ w₁.log) (hframe : w₁.frame = w.frame.commit qc)
    (hlock : w₁.lockView ≤ max w.lockView qc.view) (hview : w.view ≤ qc.view)
    (hlevel : ∀ k, L k → w.Leveled k →
      qc.view ≤ max w.view k ∨ (StagingOk em changesHash ∧ qc.view ≤ u64Max)) :
    Outcome x w₁ (fun _ w' => Settles L em w₀ w') (Settles L em w₀) := by
  have hw₁ : w₁.frame.Clean := hframe ▸ ⟨hw.votes, hw.commitVotes, hw.buffer⟩
  have hview₁ : w₁.view = w.view := congrArg Frame.view hframe
  have hsettles : ∀ w', Calm AnyHeight w₁ w' →
      (¬ LostOutput w'.log → StagingOk em changesHash → satAdd qc.view 1 ≤ w'.view) →
      (StagingOk em changesHash → (∀ output, ¬ Added w₀ w' (.emit output false)) →
        (∃ blockHash changes,
          Added w₀ w' (.emit (.blockCommitted qc.view blockHash qc changes) true)) ∧
          satAdd qc.view 1 ≤ w'.view) →
      (¬ StagingOk em changesHash → w'.view = w₁.view) → Settles L em w₀ w' := by
    intro w' hcalm hreach hdone hundone
    refine ⟨hpre.suffix.trans (hs.trans hcalm.suffix), hpre.level.trans ?_ (hs.trans hcalm.suffix),
      ?_⟩
    · intro k hL hlost hk
      have hraised : w₁.Leveled (max k qc.view) := by
        refine ⟨?_, hframe ▸ { (hk.raise qc.view).frame with }⟩
        have := hk.lock
        omega
      refine (hcalm.level _ trivial hlost hraised).lower ?_
      have hmono := hcalm.view_le
      rcases hlevel k hL hk with hle | ⟨hok, hmax⟩
      · omega
      · have hle := hreach hlost hok
        simp only [satAdd] at hle
        omega
    · have hcommitted : w'.frame.committed = (w.frame.commit qc).committed :=
        hcalm.committed.trans (congrArg Frame.committed hframe)
      by_cases hle : w.frame.committed.view ≤ qc.view
      · obtain ⟨used, known, hadded⟩ := haccepted
        refine .inr ⟨qc, changesHash, ⟨used, known, hadded.after (hs.trans hcalm.suffix)⟩, ?_,
          hdone, fun hfail => ?_⟩
        · rw [hcommitted, Frame.commit, if_pos hle]
        · rw [hundone hfail, hview₁]
          exact hview
      · refine .inl (hcommitted.trans ?_)
        rw [Frame.commit, if_neg hle]
        exact hpre.committed
  refine (h hw₁).mono (fun _ w' hok => ?_) fun w' hfail => ?_
  · obtain ⟨hcalm, hstaging, hreach, blockHash, changes, hadded⟩ := hok
    exact hsettles w' hcalm (fun _ _ => hreach)
      (fun _ _ => ⟨⟨blockHash, changes, hadded.before (hpre.suffix.trans hs)⟩, hreach⟩)
      fun hno => absurd hstaging hno
  · obtain ⟨hcalm, ⟨hrefused, hstaging⟩ | ⟨hno, hsame⟩⟩ := hfail
    · refine hsettles w' hcalm (fun hlost => absurd hrefused.lost hlost) (fun _ hnone => ?_)
        fun hno => absurd hstaging hno
      obtain ⟨output, hadded⟩ := hrefused.added
      exact absurd (hadded.before (hpre.suffix.trans hs)) (hnone output)
    · exact hsettles w' hcalm (fun _ hok => absurd hok hno) (fun hok => absurd hok hno)
        fun _ => hsame

end Finish

end N42
