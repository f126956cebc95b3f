import N42.Conduct.Relation
import N42.Audit.Proposal

/-!
Proposals, certificates, imports and the batch verifier stay within the view.
-/

namespace N42

open Lib EngineM

variable [Crypto] {L : ℕ → Prop} {w : World}

def ConsensusMessage.Level (m : ConsensusMessage) : Prop := ∀ qc ∈ m.qcs, qc.view ≤ m.view

variable (proposal : Proposal)

/-- Besides, an authenticated proposal is of the current view. -/
theorem authenticateProposal_quiet :
    Guarantee (Quiet L) (authenticateProposal proposal) w fun _ _ => proposal.view = w.view := by
  refine .ite (fun _ => .throw_bind) fun hview => .ite (fun _ => .throw_bind) fun _ => ?_
  exact Guarantee.mono .placid fun _ _ _ _ => not_not.mp hview

theorem adoptJustify_quiet {proposal : Proposal}
    (h : ∀ k, L k → proposal.justifyQc.view ≤ max w.view k) :
    Quietly L (adoptJustify proposal) w := by
  refine .bind .placid fun _ w₁ hw₁ => ?_
  refine .engine_bind (.ite (fun _ => .throw_bind) fun _ => ?_)
  refine .bind .placid fun _ w₂ hw₂ => .updateLockedQc fun k hL => ?_
  rw [hw₂.view_eq, hw₁.view_eq]
  exact h k hL

theorem adoptPiggybacked_quiet {prepareQc : Option QuorumCertificate}
    (h : ∀ k, L k → ∀ qc ∈ prepareQc, qc.view ≤ max w.view k) :
    Quietly L (adoptPiggybacked prepareQc) w := by
  refine .engine_bind ?_
  cases prepareQc with
  | none => exact .pure
  | some qc =>
    dsimp only
    split
    · exact .pure
    · split
      · exact .pure
      · refine .bind .placid fun _ w₁ hw₁ => .updateLockedQc fun k hL => ?_
        rw [hw₁.view_eq]
        exact h k hL qc rfl

theorem processProposal_quiet {proposal : Proposal}
    (h : ∀ k, L k → (ConsensusMessage.proposal proposal).Level) :
    Quietly L (processProposal proposal) w := by
  refine Guarantee.bind (authenticateProposal_quiet proposal) fun _ w₁ hw₁ hview => ?_
  have hlevel : ∀ k, L k → ∀ qc ∈ (ConsensusMessage.proposal proposal).qcs,
      qc.view ≤ max w.view k := fun k hL qc hqc =>
    (h k hL qc hqc).trans (hview.le.trans (Nat.le_max_left _ _))
  refine Quietly.bind .placid fun _ w₂ hw₂ => ?_
  refine .ite (fun _ => .pure) fun _ => ?_
  refine .bind (adoptJustify_quiet fun k hL => ?_) fun _ w₃ hw₃ => ?_
  · rw [hw₂.view_eq, hw₁.view_eq]
    exact hlevel k hL _ List.mem_cons_self
  refine .bind (adoptPiggybacked_quiet fun k hL qc hqc => ?_) fun _ w₄ _ => ?_
  · rw [hw₃.view_eq, hw₂.view_eq, hw₁.view_eq]
    exact hlevel k hL qc (List.mem_cons_of_mem _ (Option.mem_toList.mpr hqc))
  exact .placid

theorem processPrepareQc_quiet (pqc : PrepareQC) : Quietly L (processPrepareQc pqc) w := by
  refine .ite (fun _ => .throw_bind) fun hview => .ite (fun _ => .throw_bind) fun hqc => ?_
  refine .ite (fun _ => .throw_bind) fun _ => .ofExcept_bind fun _ _ => ?_
  refine .bind .placid fun _ w₁ hw₁ => ?_
  refine .bind (.updateLockedQc fun k _ => ?_) fun _ _ _ => ?_
  · rw [hw₁.view_eq, not_not.mp hqc, not_not.mp hview]
    exact Nat.le_max_left _ _
  exact .placid

instance {R : World → World → Prop} [Respected R] (blockHash : B256) (parentHash : Option B256) :
    Agrees R (onBlockImported blockHash parentHash) := by
  have : Same (fun e => (e.noteImport blockHash parentHash).staged) Engine.staged := ⟨fun e => by
    obtain ⟨r, hsame⟩ := e.noteImport_same blockHash parentHash
    rw [hsame]
    rfl⟩
  refine .andThen fun _ => .andThen fun e => ?_
  split <;> infer_instance

end N42
