import N42.Audit.Log

/-!
What the durable vote records achieve: every released vote lies at or below the watermarks, in
memory and on disk, so a view is voted in at most once, in each round, over all restarts.
-/

namespace N42

open Lib List

variable [Crypto] {cfg : NodeConfig} {log : List Effect}

def Claimed (log : List Effect) (claim : Claim) : Prop :=
  ∃ item : Item, item.claim = claim ∧ .release item ∈ log

section

omit [Crypto]

variable {claim : Claim}

theorem Claimed.cons (h : Claimed log claim) (x : Effect) : Claimed (x :: log) claim := by
  obtain ⟨item, hclaim, hmem⟩ := h
  exact ⟨item, hclaim, mem_cons_of_mem _ hmem⟩

theorem claimed_cons {x : Effect} (h : Claimed (x :: log) claim) :
    (∃ item, x = .release item ∧ item.claim = claim) ∨ Claimed log claim := by
  obtain ⟨item, hclaim, hmem⟩ := h
  rcases mem_cons.mp hmem with heq | hmem
  · exact .inl ⟨item, heq.symm, hclaim⟩
  · exact .inr ⟨item, hclaim, hmem⟩

theorem Claimed.of_cons {x : Effect} (h : Claimed (x :: log) claim)
    (hx : ∀ item, x ≠ .release item) : Claimed log claim := by
  rcases claimed_cons h with ⟨item, heq, -⟩ | h
  · exact absurd heq (hx item)
  · exact h

end

variable {blockHash : B256} {view : ℕ}

theorem Valid.vote_shape (hv : Valid cfg (.release (.vote view blockHash) :: log)) :
    ∃ old, log = .persistVote view .done :: old ∧ Valid cfg old ∧
      (coreOf cfg old).votedView < view := by
  obtain ⟨hhead, -⟩ : ReleaseRule cfg.signingProfile log (coreOf cfg log)
      (.vote view blockHash) := hv.rule_of_cons
  obtain ⟨old, rfl⟩ := head?_eq_some_iff.mp hhead
  exact ⟨old, rfl, hv.tail_of_cons.tail_of_cons, hv.tail_of_cons.rule_of_cons.1⟩

theorem Valid.proposal_shape {changes : Option (List ValidatorChange)}
    (hv : Valid cfg (.release (.proposal view blockHash changes) :: log)) :
    ∃ old, (log = .release (.vote view blockHash) :: old ∨
      ∃ index, log = .ownShare index (.vote view blockHash) ::
        .release (.vote view blockHash) :: old) := by
  obtain ⟨-, hhead⟩ : ReleaseRule cfg.signingProfile log (coreOf cfg log)
      (.proposal view blockHash changes) := hv.rule_of_cons
  rcases hhead with hhead | ⟨index, hhead⟩
  · obtain ⟨old, rfl⟩ := head?_eq_some_iff.mp hhead
    exact ⟨old, .inl rfl⟩
  · obtain ⟨mid, rfl⟩ := head?_eq_some_iff.mp hhead
    have hshare : mid.head? = some (.release (.vote view blockHash)) :=
      hv.tail_of_cons.rule_of_cons.1
    obtain ⟨old, rfl⟩ := head?_eq_some_iff.mp hshare
    exact ⟨old, .inr ⟨index, rfl⟩⟩

theorem Valid.vote_mem_of_proposal {changes : Option (List ValidatorChange)}
    (hv : Valid cfg (.release (.proposal view blockHash changes) :: log)) :
    .release (.vote view blockHash) ∈ log := by
  obtain ⟨old, rfl | ⟨index, rfl⟩⟩ := hv.proposal_shape <;> simp

theorem Valid.commitVote_shape {changesHash : B256}
    (hv : Valid cfg (.release (.commitVote view blockHash changesHash) :: log)) :
    ∃ old, log = .persistCommitVote view .done ::
        .persistLock (coreOf cfg old).locked .done :: old ∧
      Valid cfg old ∧ (coreOf cfg old).commitVotedView < view ∧
      view ≤ (coreOf cfg old).locked.view := by
  obtain ⟨hhead, -, hlocked, -⟩ : ReleaseRule cfg.signingProfile log (coreOf cfg log)
      (.commitVote view blockHash changesHash) := hv.rule_of_cons
  obtain ⟨mid, rfl⟩ := head?_eq_some_iff.mp hhead
  obtain ⟨hmay, -, hlock⟩ := hv.tail_of_cons.rule_of_cons
  obtain ⟨old, hmid⟩ := head?_eq_some_iff.mp hlock
  generalize hq : (coreOf cfg mid).locked = q at hmid
  subst hmid
  obtain rfl : (coreOf cfg old).locked = q := hq
  exact ⟨old, rfl, hv.tail_of_cons.tail_of_cons.tail_of_cons, hmay, hlocked⟩

/-- Released votes lie at or below the watermarks and the lock. -/
structure Floors (cfg : NodeConfig) (log : List Effect) : Prop where
  first : ∀ v b, Claimed log (.first v b) →
    0 < v ∧ v ≤ (coreOf cfg log).votedView ∧ v ≤ (diskOf log).votedView
  second : ∀ v b, Claimed log (.second v b) →
    0 < v ∧ v ≤ (coreOf cfg log).commitVotedView ∧ v ≤ (diskOf log).commitVotedView
  lock : ∀ v b, Claimed log (.second v b) →
    v ≤ (coreOf cfg log).locked.view ∧ ∃ qc, (diskOf log).lock = some qc ∧ v ≤ qc.view

theorem Floors.cons {x : Effect} (h : Floors cfg log) (hx : ∀ item, x ≠ .release item)
    (hfirst : ∀ v, v ≤ (coreOf cfg log).votedView ∧ v ≤ (diskOf log).votedView →
      v ≤ (coreOf cfg (x :: log)).votedView ∧ v ≤ (diskOf (x :: log)).votedView)
    (hsecond : ∀ v, v ≤ (coreOf cfg log).commitVotedView ∧ v ≤ (diskOf log).commitVotedView →
      v ≤ (coreOf cfg (x :: log)).commitVotedView ∧ v ≤ (diskOf (x :: log)).commitVotedView)
    (hlock : ∀ v, (v ≤ (coreOf cfg log).locked.view ∧
        ∃ qc, (diskOf log).lock = some qc ∧ v ≤ qc.view) →
      v ≤ (coreOf cfg (x :: log)).locked.view ∧
        ∃ qc, (diskOf (x :: log)).lock = some qc ∧ v ≤ qc.view) : Floors cfg (x :: log) where
  first v b hc := (h.first v b (hc.of_cons hx)).imp_right (hfirst v)
  second v b hc := (h.second v b (hc.of_cons hx)).imp_right (hsecond v)
  lock v b hc := hlock v (h.lock v b (hc.of_cons hx))

omit [Crypto] in
theorem le_higherLock (snapshotLock qc : QuorumCertificate) :
    qc.view ≤ (higherLock snapshotLock (some qc)).view := by
  simp only [higherLock]
  split <;> omega

theorem Floors.release {item : Item} (h : Floors cfg log)
    (hv : Valid cfg (.release item :: log)) : Floors cfg (.release item :: log) := by
  refine ⟨fun v b hc => ?_, fun v b hc => ?_, fun v b hc => ?_⟩
  · rcases claimed_cons hc with ⟨item', ⟨rfl⟩, hclaim⟩ | hc
    · obtain rfl | ⟨changes, rfl⟩ := Item.of_claim_first hclaim
      · obtain ⟨old, rfl, -, hlt⟩ := hv.vote_shape
        exact ⟨by omega, Nat.le_refl _, Nat.le_refl _⟩
      · exact h.first v b ⟨_, rfl, hv.vote_mem_of_proposal⟩
    · exact h.first v b hc
  · rcases claimed_cons hc with ⟨item', ⟨rfl⟩, hclaim⟩ | hc
    · obtain ⟨ch, rfl⟩ := Item.of_claim_second hclaim
      obtain ⟨old, rfl, -, hlt, -⟩ := hv.commitVote_shape
      exact ⟨by omega, Nat.le_refl _, Nat.le_refl _⟩
    · exact h.second v b hc
  · rcases claimed_cons hc with ⟨item', ⟨rfl⟩, hclaim⟩ | hc
    · obtain ⟨ch, rfl⟩ := Item.of_claim_second hclaim
      obtain ⟨old, rfl, -, -, hle⟩ := hv.commitVote_shape
      exact ⟨hle, _, rfl, hle⟩
    · exact h.lock v b hc

/-- A restart takes the higher of what the snapshot and the vote log say. -/
theorem Floors.boot {e : Engine} (h : Floors cfg log) (hrec : recover cfg (diskOf log) = some e) :
    Floors cfg (.boot e.core :: log) := by
  have hold : ∀ {claim}, Claimed (.boot e.core :: log) claim → Claimed log claim :=
    fun hc => hc.of_cons (by simp)
  obtain ⟨em, index, -, -, ⟨-, hvoted, hcommit, rfl⟩ | ⟨s, -, -, rfl⟩⟩ := recover_eq_some hrec
  · -- a fresh start is refused once a vote is on record
    refine ⟨fun v b hc => ?_, fun v b hc => ?_, fun v b hc => ?_⟩
    · obtain ⟨hpos, -, hd⟩ := h.first v b (hold hc)
      omega
    · obtain ⟨hpos, -, hd⟩ := h.second v b (hold hc)
      omega
    · obtain ⟨hpos, -, hd⟩ := h.second v b (hold hc)
      omega
  · refine h.cons (by simp) (fun v hv => ⟨hv.2.trans (Nat.le_max_right _ _), hv.2⟩)
      (fun v hv => ⟨hv.2.trans (Nat.le_max_right _ _), hv.2⟩) fun v ⟨_, qc, hqc, hle⟩ =>
        ⟨?_, qc, hqc, hle⟩
    show v ≤ (higherLock s.lockedQc (diskOf log).lock).view
    rw [hqc]
    exact hle.trans (le_higherLock _ _)

theorem Valid.floors (hv : Valid cfg log) : Floors cfg log := by
  induction hv with
  | nil =>
    have hnone : ∀ claim, ¬ Claimed [] claim := by
      rintro claim ⟨item, -, hmem⟩
      cases hmem
    exact ⟨fun v b h => absurd h (hnone _), fun v b h => absurd h (hnone _),
      fun v b h => absurd h (hnone _)⟩
  | @cons log x tail allowed ih =>
    cases x with
    | release item => exact ih.release (.cons tail allowed)
    | persistVote view fate =>
      have hlt : (coreOf cfg log).votedView < view := allowed.1
      refine ih.cons (by simp) (fun v hv => ⟨(hv.1.trans hlt.le : v ≤ view), ?_⟩)
        (by cases fate <;> exact fun _ hv => hv) (by cases fate <;> exact fun _ hv => hv)
      cases fate with
      | failed => exact hv.2
      | done | failedDurable => exact hv.1.trans hlt.le
    | persistCommitVote view fate =>
      have hlt : (coreOf cfg log).commitVotedView < view := allowed.1
      refine ih.cons (by simp) (by cases fate <;> exact fun _ hv => hv)
        (fun v hv => ⟨(hv.1.trans hlt.le : v ≤ view), ?_⟩) (by cases fate <;> exact fun _ hv => hv)
      cases fate with
      | failed => exact hv.2
      | done | failedDurable => exact hv.1.trans hlt.le
    | persistLock qc fate =>
      obtain rfl : qc = (coreOf cfg log).locked := allowed
      refine ih.cons (by simp) (by cases fate <;> exact fun _ hv => hv)
        (by cases fate <;> exact fun _ hv => hv) fun v hv => ⟨hv.1, ?_⟩
      cases fate with
      | failed => exact hv.2
      | done | failedDurable => exact ⟨_, rfl, hv.1⟩
    | lock qc =>
      exact ih.cons (by simp) (fun _ hv => hv) (fun _ hv => hv) fun _ hv =>
        ⟨hv.1.trans allowed.1.le, hv.2⟩
    | commit qc =>
      refine ih.cons (by simp) (fun _ hv => hv) (fun _ hv => hv) fun v hv =>
        ⟨(?_ : v ≤ (if (coreOf cfg log).locked.view < qc.view then qc
          else (coreOf cfg log).locked).view), hv.2⟩
      split <;> omega
    | boot core =>
      obtain ⟨e, hrec, rfl⟩ := allowed
      exact ih.boot hrec
    | _ => exact ih.cons (by simp) (fun _ hv => hv) (fun _ hv => hv) fun _ hv => hv

/-- No vote of a view is on record before the one that is just being released. -/
theorem Valid.not_claimed_of_vote (hv : Valid cfg (.release (.vote view blockHash) :: log))
    (b : B256) : ¬ Claimed log (.first view b) := by
  obtain ⟨old, rfl, hold, hlt⟩ := hv.vote_shape
  intro hc
  obtain ⟨-, hle, -⟩ := hold.floors.first view b (hc.of_cons (by simp))
  omega

theorem Valid.not_claimed_of_commitVote {changesHash : B256}
    (hv : Valid cfg (.release (.commitVote view blockHash changesHash) :: log)) (b : B256) :
    ¬ Claimed log (.second view b) := by
  obtain ⟨old, rfl, hold, hlt, -⟩ := hv.commitVote_shape
  intro hc
  obtain ⟨-, hle, -⟩ := hold.floors.second view b ((hc.of_cons (by simp)).of_cons (by simp))
  omega

theorem Valid.first_unique (hv : Valid cfg log) {a b : B256} (ha : Claimed log (.first view a))
    (hb : Claimed log (.first view b)) : a = b := by
  obtain ⟨i, hi, hilog⟩ := ha
  obtain ⟨j, hj, hjlog⟩ := hb
  refine hv.agree (p := fun x c => ∃ item : Item, x = .release item ∧ item.claim = .first view c)
    ?_ ?_ hilog hjlog ⟨i, rfl, hi⟩ ⟨j, rfl, hj⟩
  · rintro _ a b ⟨item, rfl, ha⟩ ⟨_, ⟨rfl⟩, hb⟩
    exact (Claim.first.inj (ha.symm.trans hb)).2
  · -- a vote has no predecessor, a proposal repeats its vote
    rintro old _ hnew hagree _ a b hold ⟨item, rfl, ha⟩ ⟨item', rfl, hb⟩
    obtain rfl | ⟨changes, rfl⟩ := Item.of_claim_first ha
    · exact absurd ⟨item', hb, hold⟩ (Valid.not_claimed_of_vote hnew b)
    · exact hagree (Valid.vote_mem_of_proposal hnew) hold ⟨_, rfl, rfl⟩ ⟨item', rfl, hb⟩

theorem Valid.second_unique (hv : Valid cfg log) {a b : B256} (ha : Claimed log (.second view a))
    (hb : Claimed log (.second view b)) : a = b := by
  obtain ⟨i, hi, hilog⟩ := ha
  obtain ⟨j, hj, hjlog⟩ := hb
  refine hv.agree (p := fun x c => ∃ item : Item, x = .release item ∧ item.claim = .second view c)
    ?_ ?_ hilog hjlog ⟨i, rfl, hi⟩ ⟨j, rfl, hj⟩
  · rintro _ a b ⟨item, rfl, ha⟩ ⟨_, ⟨rfl⟩, hb⟩
    exact (Claim.second.inj (ha.symm.trans hb)).2
  · rintro old _ hnew - _ a b hold ⟨item, rfl, ha⟩ ⟨item', rfl, hb⟩
    obtain ⟨changesHash, rfl⟩ := Item.of_claim_second ha
    exact absurd ⟨item', hb, hold⟩ (Valid.not_claimed_of_commitVote hnew b)

theorem Valid.proposal_unique (hv : Valid cfg log) {a b : B256}
    {ca cb : Option (List ValidatorChange)} (ha : .release (.proposal view a ca) ∈ log)
    (hb : .release (.proposal view b cb) ∈ log) : a = b ∧ ca = cb := by
  refine Prod.mk.inj <| hv.agree (p := fun x (c : B256 × Option (List ValidatorChange)) =>
    x = .release (.proposal view c.1 c.2)) ?_ ?_ ha hb rfl rfl
  · rintro _ a b rfl heq
    obtain ⟨-, hblock, hchanges⟩ := Item.proposal.inj (Effect.release.inj heq)
    exact Prod.ext hblock hchanges
  · rintro old _ hnew - _ a b hold rfl rfl
    -- the vote before the newer proposal has no predecessor
    obtain ⟨older, hshape⟩ := Valid.proposal_shape hnew
    have hvote : Valid cfg (.release (.vote view a.1) :: older) := by
      rcases hshape with rfl | ⟨index, rfl⟩
      · exact hnew.tail_of_cons
      · exact hnew.tail_of_cons.tail_of_cons
    refine absurd ⟨.proposal view b.1 b.2, rfl, ?_⟩ (hvote.not_claimed_of_vote b.1)
    rcases hshape with rfl | ⟨index, rfl⟩ <;> simpa using hold

theorem Valid.view_mono {old new : List Effect} (hv : Valid cfg new) (hg : Grows old new) :
    (coreOf cfg old).view ≤ (coreOf cfg new).view := by
  obtain ⟨added, rfl, hboot⟩ := hg
  induction added with
  | nil => exact Nat.le_refl _
  | cons x added ih =>
    have ih := ih (fun core hmem => hboot core (mem_cons_of_mem _ hmem)) hv.tail_of_cons
    cases x with
    | enter view => exact ih.trans hv.rule_of_cons.1.le
    | boot core => exact absurd mem_cons_self (hboot core)
    | _ => exact ih

/-- If no restart resumes below the recorded votes, no view ever lies below them. -/
theorem Valid.votedView_le_view (hv : Valid cfg log)
    (hboot : ∀ core, .boot core ∈ log → core.votedView ≤ core.view) :
    (coreOf cfg log).votedView ≤ (coreOf cfg log).view := by
  induction hv with
  | nil => exact Nat.zero_le _
  | @cons log x tail allowed ih =>
    have ih := ih fun core hmem => hboot core (mem_cons_of_mem _ hmem)
    cases x with
    | enter view => exact ih.trans allowed.1.le
    | persistVote view fate => exact allowed.2.le
    | boot core => exact hboot core mem_cons_self
    | _ => exact ih

end N42
