import N42.Audit.Rules

/-!
First facts about audit logs: how they grow within one run of the process, and what the
rule says about certificates, messages and tokens in a valid log.
-/

namespace N42

open Lib List

/-- `new` extends `old` without a restart in between. -/
def Grows (old new : List Effect) : Prop :=
  ∃ added, new = added ++ old ∧ ∀ core, Effect.boot core ∉ added

variable {x : Effect} {m : ConsensusMessage} {qc : QuorumCertificate}
  {proof : AuthenticatedVoteProof}

namespace Grows

variable {a b c log : List Effect}

theorem refl (log : List Effect) : Grows log log := ⟨[], rfl, by simp⟩

theorem trans (hab : Grows a b) (hbc : Grows b c) : Grows a c := by
  obtain ⟨l, rfl, hl⟩ := hab
  obtain ⟨l', rfl, hl'⟩ := hbc
  refine ⟨l' ++ l, by simp, fun core hmem => ?_⟩
  rcases mem_append.mp hmem with hmem | hmem
  · exact hl' core hmem
  · exact hl core hmem

theorem cons (log : List Effect) (hx : ∀ core, x ≠ .boot core) : Grows log (x :: log) :=
  ⟨[x], rfl, fun core hmem => hx core (by simpa using (mem_singleton.mp hmem).symm)⟩

theorem suffix (h : Grows a b) : a <:+ b := by
  obtain ⟨l, rfl, -⟩ := h
  exact suffix_append l a

theorem mem (h : Grows a b) (hx : x ∈ a) : x ∈ b := h.suffix.subset hx

theorem sinceBoot_append {added log : List Effect} (h : ∀ core, Effect.boot core ∉ added) :
    sinceBoot (added ++ log) = added ++ sinceBoot log := by
  induction added with
  | nil => rfl
  | cons x added ih =>
    have hrest : ∀ core, Effect.boot core ∉ added := fun core hmem =>
      h core (mem_cons_of_mem _ hmem)
    have hx : ∀ core, x ≠ .boot core := fun core heq => h core (by simp [heq])
    cases x <;> first | exact absurd rfl (hx _) | simp [sinceBoot, ih hrest]

variable (h : Grows a b)
include h

theorem mem_sinceBoot (hx : x ∈ sinceBoot a) : x ∈ sinceBoot b := by
  obtain ⟨l, rfl, hl⟩ := h
  rw [sinceBoot_append hl]
  exact mem_append_right _ hx

theorem delivered (hm : Delivered a m) : Delivered b m := by
  obtain ⟨i, hi, hmi⟩ := hm
  exact ⟨i, h.mem hi, hmi⟩

theorem certified (hq : Certified a qc) : Certified b qc := by
  obtain ⟨cert, used, known, hacc, hqc⟩ := hq
  exact ⟨cert, used, known, h.mem hacc, hqc⟩

theorem counted {index : ℕ} {claim : Claim} (hc : Counted a index claim) :
    Counted b index claim := by
  obtain ⟨item, hclaim, hshare⟩ := hc
  refine ⟨item, hclaim, hshare.imp ?_ h.mem⟩
  rintro ⟨set, hset⟩
  exact ⟨set, h.mem hset⟩

theorem epochOutputLost (hl : EpochOutputLost a) : EpochOutputLost b := by
  obtain ⟨n, k, hmem⟩ := hl
  exact ⟨n, k, h.mem hmem⟩

theorem tokenBasis (hb : TokenBasis a m proof) : TokenBasis b m proof := by
  cases m <;> cases proof <;> try exact hb
  · obtain ⟨hs, set, hset⟩ := hb
    exact ⟨hs, set, h.mem_sinceBoot hset⟩
  · obtain ⟨hs, set, hset⟩ := hb
    exact ⟨hs, set, h.mem_sinceBoot hset⟩

theorem trusted (hq : Trusted a qc) : Trusted b qc :=
  hq.imp_right h.certified

theorem entryCause {view : ℕ} (hc : EntryCause a view) : EntryCause b view := by
  rcases hc with ⟨qc, hqc, hview⟩ | ⟨tc, used, known, hacc, hview⟩ |
    ⟨set, reporters, hnodup, hlarge, ⟨index, hshare⟩, hall⟩
  · exact .inl ⟨qc, h.certified hqc, hview⟩
  · exact .inr (.inl ⟨tc, used, known, h.mem hacc, hview⟩)
  · refine .inr (.inr ⟨set, reporters, hnodup, hlarge, ⟨index, h.mem hshare⟩, ?_⟩)
    intro i hi
    obtain ⟨s, hs⟩ := hall i hi
    exact ⟨s, h.mem hs⟩

end Grows

theorem mem_of_mem_sinceBoot {log : List Effect} (h : x ∈ sinceBoot log) : x ∈ log := by
  induction log with
  | nil => exact h
  | cons y log ih =>
    cases y with
    | boot core => simp [sinceBoot] at h
    | _ => exact (mem_cons.mp h).elim (fun heq => by simp [heq]) fun h =>
        mem_cons_of_mem _ (ih h)

theorem grows_of_mem_sinceBoot {log : List Effect} (h : x ∈ sinceBoot log) :
    ∃ old, Grows (x :: old) log := by
  induction log with
  | nil => simp [sinceBoot] at h
  | cons y log ih =>
    cases y with
    | boot core => simp [sinceBoot] at h
    | _ =>
      rcases mem_cons.mp h with rfl | h
      · exact ⟨log, .refl _⟩
      · obtain ⟨old, hg⟩ := ih h
        exact ⟨old, hg.trans (.cons log (by simp))⟩

/-- Effects that change neither the long-lived state nor the process. -/
def Effect.IsNote : Effect → Prop
  | .persistVote .. | .persistCommitVote .. | .lock _ | .commit _ | .enter _ | .epoch _
  | .boot _ => False
  | _ => True

theorem Effect.IsNote.ne_boot (h : x.IsNote) (core : Core) : x ≠ .boot core := by
  rintro rfl
  exact h

variable (w : World)

def World.push (x : Effect) : World := { w with log := x :: w.log }

def World.setEngine (e : Engine) : World := { w with engine := e }

@[simp] theorem World.push_engine (x : Effect) : (w.push x).engine = w.engine := rfl

variable [Crypto] {cfg : NodeConfig} {log : List Effect}

theorem Core.apply_note (hx : x.IsNote) (c : Core) : c.apply x = c := by
  cases x <;> first | rfl | exact hx.elim

theorem Valid.wire (hv : Valid cfg log) (hm : Delivered log m) : m.Wire := by
  obtain ⟨i, hi, hmem⟩ := hm
  obtain ⟨_, old, _, _, hrule⟩ := Lawful.exists_of_mem hv hi
  exact hrule.wire m hmem

/-- A token still stands for what was checked when it was issued. -/
theorem Valid.token (hv : Valid cfg log) (ht : .token m proof ∈ sinceBoot log) :
    Delivered log m ∧ TokenBasis log m proof := by
  obtain ⟨old, hg⟩ := grows_of_mem_sinceBoot ht
  have hrule : Rule cfg old (.token m proof) := (hv.of_suffix hg.suffix).rule_of_cons
  have hgrow : Grows old log := (Grows.cons old (by simp)).trans hg
  exact ⟨hgrow.delivered hrule.1, hgrow.tokenBasis hrule.2⟩

omit [Crypto] in
theorem Trusted.cons (h : Trusted log qc) (x : Effect) : Trusted (x :: log) qc := by
  refine h.imp_right ?_
  rintro ⟨cert, used, known, hacc, hqc⟩
  exact ⟨cert, used, known, mem_cons_of_mem _ hacc, hqc⟩

/-- The certificates in the engine's long-lived state and on its disk. -/
structure CertificatesTrusted (cfg : NodeConfig) (log : List Effect) : Prop where
  locked : Trusted log (coreOf cfg log).locked
  committed : Trusted log (coreOf cfg log).committed
  lockFile : ∀ qc, (diskOf log).lock = some qc → Trusted log qc
  snapshot : ∀ s, (diskOf log).snapshot = some s →
    Trusted log s.lockedQc ∧ Trusted log s.lastCommittedQc

theorem CertificatesTrusted.cons (hlocked : Trusted log (coreOf cfg (x :: log)).locked)
    (hcommitted : Trusted log (coreOf cfg (x :: log)).committed)
    (hlockFile : ∀ qc, (diskOf (x :: log)).lock = some qc → Trusted log qc)
    (hsnapshot : ∀ s, (diskOf (x :: log)).snapshot = some s →
      Trusted log s.lockedQc ∧ Trusted log s.lastCommittedQc) :
    CertificatesTrusted cfg (x :: log) :=
  ⟨hlocked.cons x, hcommitted.cons x, fun qc hqc => (hlockFile qc hqc).cons x,
    fun s hs => (hsnapshot s hs).imp (·.cons x) (·.cons x)⟩

omit [Crypto] in
theorem trusted_higherLock {snapshotLock : QuorumCertificate} {lock : Option QuorumCertificate}
    (hs : Trusted log snapshotLock) (hl : ∀ qc, lock = some qc → Trusted log qc) :
    Trusted log (higherLock snapshotLock lock) := by
  cases lock with
  | none => exact hs
  | some qc =>
    simp only [higherLock]
    split
    · exact hl qc rfl
    · exact hs

theorem Valid.certificatesTrusted (hv : Valid cfg log) : CertificatesTrusted cfg log := by
  induction hv with
  | nil => exact ⟨.inl rfl, .inl rfl, by simp [diskOf, Disk.empty], by simp [diskOf, Disk.empty]⟩
  | @cons log x tail allowed ih =>
    cases x with
    | persistVote view fate =>
      exact .cons ih.locked ih.committed (by cases fate <;> exact ih.lockFile)
        (by cases fate <;> exact ih.snapshot)
    | persistCommitVote view fate =>
      exact .cons ih.locked ih.committed (by cases fate <;> exact ih.lockFile)
        (by cases fate <;> exact ih.snapshot)
    | persistLock qc fate =>
      obtain rfl : qc = (coreOf cfg log).locked := allowed
      refine .cons ih.locked ih.committed (fun qc hqc => ?_) (by cases fate <;> exact ih.snapshot)
      cases fate with
      | failed => exact ih.lockFile qc hqc
      | done | failedDurable =>
        obtain rfl := Option.some.inj hqc
        exact ih.locked
    | lock qc => exact .cons (.inr allowed.2) ih.committed ih.lockFile ih.snapshot
    | commit qc =>
      have hqc : Trusted log qc := by
        obtain ⟨changesHash, used, known, hacc⟩ := allowed
        exact .inr ⟨_, used, known, hacc, rfl⟩
      refine .cons ?_ ?_ ih.lockFile ih.snapshot
      · show Trusted _ (if _ then _ else _)
        split
        exacts [hqc, ih.locked]
      · show Trusted _ (if _ then _ else _)
        split
        exacts [hqc, ih.committed]
    | save snapshot =>
      obtain ⟨e, hcore, rfl, -⟩ := allowed
      refine .cons ih.locked ih.committed ih.lockFile fun s hs => ?_
      obtain rfl := Option.some.inj hs
      exact ⟨(congrArg Core.locked hcore ▸ ih.locked : Trusted log e.core.locked),
        (congrArg Core.committed hcore ▸ ih.committed : Trusted log e.core.committed)⟩
    | boot core =>
      obtain ⟨e, hrec, rfl⟩ := allowed
      obtain ⟨em, index, -, -, ⟨-, -, -, rfl⟩ | ⟨s, hs, -, rfl⟩⟩ := recover_eq_some hrec
      · exact .cons (.inl rfl) (.inl rfl) ih.lockFile ih.snapshot
      · exact .cons (trusted_higherLock (ih.snapshot s hs).1 ih.lockFile) (ih.snapshot s hs).2
          ih.lockFile ih.snapshot
    | _ => exact .cons ih.locked ih.committed ih.lockFile ih.snapshot

theorem Valid.view_le_max (hv : Valid cfg log) : (coreOf cfg log).view ≤ u64Max ∧
    ∀ s, (diskOf log).snapshot = some s → s.currentView ≤ u64Max := by
  have hone : 1 ≤ u64Max := by decide
  induction hv with
  | nil => exact ⟨hone, by simp [diskOf, Disk.empty]⟩
  | @cons log x tail allowed ih =>
    cases x with
    | persistVote view fate => exact ⟨ih.1, fun s hs => ih.2 s (by cases fate <;> exact hs)⟩
    | persistCommitVote view fate => exact ⟨ih.1, fun s hs => ih.2 s (by cases fate <;> exact hs)⟩
    | persistLock qc fate => exact ⟨ih.1, fun s hs => ih.2 s (by cases fate <;> exact hs)⟩
    | enter view => exact ⟨allowed.2.1, ih.2⟩
    | save snapshot =>
      obtain ⟨e, hcore, rfl, -⟩ := allowed
      refine ⟨ih.1, fun s hs => ?_⟩
      obtain rfl := Option.some.inj hs
      exact (congrArg Core.view hcore).trans_le ih.1
    | boot core =>
      obtain ⟨e, hrec, rfl⟩ := allowed
      obtain ⟨em, index, -, -, ⟨-, -, -, rfl⟩ | ⟨s, hs, -, rfl⟩⟩ := recover_eq_some hrec
      · exact ⟨hone, ih.2⟩
      · exact ⟨ih.2 s hs, ih.2⟩
    | _ => exact ih

end N42
