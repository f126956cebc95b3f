import N42.Audit.Watermarks
import N42.Symbolic.Scheme

/-!
One validator votes safely through any crashes and restarts.
-/

namespace N42

open Lib

variable (log : List Effect) (view : ℕ) (blockHash : B256)

/-- A round 1 signature has left the node: in a vote it sent, or in a certificate or a
proposal it makes. -/
def VoteReleased : Prop :=
  Claimed log (.first view blockHash) ∨
    ∃ target vote accepted, .emit (.sendToValidator target (.vote vote)) accepted ∈ log ∧
      vote.view = view ∧ vote.blockHash = blockHash

def CommitVoteReleased : Prop :=
  Claimed log (.second view blockHash) ∨
    ∃ target vote accepted, .emit (.sendToValidator target (.commitVote vote)) accepted ∈ log ∧
      vote.view = view ∧ vote.blockHash = blockHash

section Voting

variable [Crypto] {cfg : NodeConfig} {log : List Effect} {view : ℕ} {blockHash : B256}

theorem VoteReleased.claimed (hv : Valid cfg log) (h : VoteReleased log view blockHash) :
    Claimed log (.first view blockHash) := by
  rcases h with h | ⟨target, vote, accepted, hmem, rfl, rfl⟩
  · exact h
  · obtain ⟨new, old, rfl, -, hrule⟩ := hv.exists_of_mem hmem
    have hhead : old.head? = some (.release (.vote vote.view vote.blockHash)) := hrule
    exact ⟨.vote vote.view vote.blockHash, rfl, by simp [List.mem_of_head? hhead]⟩

theorem CommitVoteReleased.claimed (hv : Valid cfg log)
    (h : CommitVoteReleased log view blockHash) : Claimed log (.second view blockHash) := by
  rcases h with h | ⟨target, vote, accepted, hmem, rfl, rfl⟩
  · exact h
  · obtain ⟨new, old, rfl, -, changesHash, hhead⟩ := hv.exists_of_mem hmem
    exact ⟨.commitVote vote.view vote.blockHash changesHash, rfl,
      by simp [List.mem_of_head? hhead]⟩

/-- Over a whole run, with crashes between any two effects, a node votes for one block in a
view, in each round, and every restart and every running engine is locked at or above each
view in which it ever released a commit vote. -/
theorem crash_safe_voting {node : Node} (h : node.Reachable cfg) :
    (∀ v a b, VoteReleased node.log v a → VoteReleased node.log v b → a = b) ∧
    (∀ v a b, CommitVoteReleased node.log v a → CommitVoteReleased node.log v b → a = b) ∧
    (∀ core old, .boot core :: old <:+ node.log → ∀ v b, CommitVoteReleased old v b →
      v ≤ core.locked.view) ∧
    ∀ e, node.engine = some e → ∀ v b, CommitVoteReleased node.log v b →
      v ≤ e.roundState.lockedQc.view := by
  have hv := h.inv.valid
  refine ⟨fun v a b ha hb => ?_, fun v a b ha hb => ?_, ?_, ?_⟩
  · exact hv.first_unique (ha.claimed hv) (hb.claimed hv)
  · exact hv.second_unique (ha.claimed hv) (hb.claimed hv)
  · intro core old hsuffix v b hc
    have hboot : Valid cfg (.boot core :: old) := hv.of_suffix hsuffix
    have hclaim := (hc.claimed hboot.tail_of_cons).cons (.boot core)
    exact (hboot.floors.lock v b hclaim).1
  · intro e he v b hc
    have hlock := (hv.floors.lock v b (hc.claimed hv)).1
    rw [← (h.inv.engine e he ⟨fun _ => .done, id⟩).core] at hlock
    exact hlock

end Voting

section OneValidator

open Symbolic

def soloSet : ValidatorSet := ⟨[validator 0], 0, by decide⟩

def soloConfig : NodeConfig where
  secretKey := secret 0
  signingProfile := .native
  initialValidatorSet := soloSet
  generatedValidators := false
  epochLength := 0
  maxHistoricalEpochs := 8

/-- The validator proposes, votes and commits alone, saves its state, dies and restarts. -/
def soloScript : List Command :=
  [.boot, .handle allDone (.blockReady 7 none), .save, .crash, .boot]

theorem soloScript_votes :
    (Node.run soloConfig .down soloScript).any (fun node => node.engine.isSome ∧
      .vote 1 7 ∈ releasedItems node.log ∧ .commitVote 1 7 0 ∈ releasedItems node.log) = true := by
  decide +kernel

theorem crash_safe_voting_of_soloScript :
    ∃ node : Node, node.Reachable soloConfig ∧ VoteReleased node.log 1 7 ∧
      CommitVoteReleased node.log 1 7 ∧ (∀ b, VoteReleased node.log 1 b → b = 7) ∧
      ∃ e : Engine, node.engine = some e ∧ 1 ≤ e.roundState.lockedQc.view := by
  obtain ⟨node, hnode, hcheck⟩ := (Option.any_eq_true _ _).mp soloScript_votes
  obtain ⟨hup, hvote, hcommit⟩ := of_decide_eq_true hcheck
  obtain ⟨e, he⟩ := Option.isSome_iff_exists.mp hup
  have hreach : node.Reachable soloConfig := Node.run_reachable .refl hnode
  have hvoted : VoteReleased node.log 1 7 := .inl ⟨_, rfl, mem_releasedItems.mp hvote⟩
  have hcommitted : CommitVoteReleased node.log 1 7 :=
    .inl ⟨_, rfl, mem_releasedItems.mp hcommit⟩
  obtain ⟨hone, -, -, hlock⟩ := crash_safe_voting hreach
  exact ⟨node, hreach, hvoted, hcommitted, fun b hb => hone 1 b 7 hb hvoted, e, he,
    hlock e he 1 7 hcommitted⟩

end OneValidator

end N42
