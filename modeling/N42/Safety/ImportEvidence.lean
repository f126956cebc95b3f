import N42.Network.Script

/-!
The records of imported blocks: the set, the parents, and the queue that bounds them.
-/

namespace N42

open Lib

theorem Engine.importedBlocks_noteParent (e : Engine) (blockHash : B256)
    (parentHash : Option B256) :
    (e.noteParent blockHash parentHash).importedBlocks = e.importedBlocks := by
  unfold noteParent
  split
  · cases parentHash <;> rfl
  · rfl

/-- The set and the queue agree and are bounded, and a block that a deferred vote waits for
stays. Parents are known only of blocks in the set under gov5, or if no import came with one. -/
theorem import_evidence [Crypto] {cfg : NodeConfig} {node : Node} {e : Engine}
    (hreach : node.Reachable cfg) (he : node.engine = some e) :
    e.importedBlockFifo.Nodup ∧ (∀ b, b ∈ e.importedBlockFifo ↔ b ∈ e.importedBlocks) ∧
    e.importedBlockFifo.length ≤ maxImportedBlocks ∧
    (∀ pending b parentHash, e.pendingProposal = some pending →
      pending.blockHash ∈ e.importedBlocks →
      pending.blockHash ∈ (e.noteImport b parentHash).importedBlocks) ∧
    (cfg.signingProfile.isGov5 = true ∨
        (∀ b parent, .deliver (.blockImportedWithParent b parent) ∉ node.log) →
      ∀ b ∈ e.importedParents, b ∈ e.importedBlocks) := by
  have hstored := (hreach.inv.engine e he ⟨fun _ => .done, id⟩).stored
  have himports := hstored.imports
  refine ⟨himports.nodup, himports.queued, himports.bounded,
    fun pending b parentHash hp hheld => ?_, fun hcond b hb => ?_⟩
  · obtain ⟨r, heq, -, -, hlive⟩ := Engine.queueImport_spec himports b
    rw [Engine.noteImport, Engine.importedBlocks_noteParent, heq]
    exact hlive _ hheld (by rw [hp]; rfl)
  · rcases hcond with hgov | hnone
    · exact himports.closed (hstored.profile ▸ hgov) b hb
    · obtain ⟨parent, hparent⟩ := Option.isSome_iff_exists.mp (AList.lookup_isSome.mpr hb)
      exact absurd (himports.parents b parent hparent) (hnone b parent)

section Runs

open Symbolic

def importThen (profile : ConsensusSigningProfile) (input : Input) : Option Node :=
  Node.run (quadConfig profile 0) .down
    [.boot, .handle allDone (.blockImportedWithParent 7 8), .handle allDone input]

theorem importThen_keeps_parent : (importThen .gov5Legacy .timeout).any (fun node =>
    node.engine.any fun e => 7 ∈ e.importedParents) = true := by decide

theorem import_evidence_of_timeout : ∃ node e, importThen .gov5Legacy .timeout = some node ∧
    node.engine = some e ∧ 7 ∈ e.importedParents ∧ 7 ∈ e.importedBlocks := by
  obtain ⟨node, hnode, hengine⟩ := (Option.any_eq_true _ _).mp importThen_keeps_parent
  obtain ⟨e, he, hparent⟩ := (Option.any_eq_true _ _).mp hengine
  have hparent := of_decide_eq_true hparent
  obtain ⟨-, -, -, -, hclosed⟩ := import_evidence (Node.run_reachable .refl hnode) he
  exact ⟨node, e, hnode, he, hparent, hclosed (.inl rfl) 7 hparent⟩

/-- In the native profile the timeout forgets the block and keeps its parent. -/
theorem parent_outlives_block : (importThen .native .timeout).any (fun node =>
    node.engine.any fun e => 7 ∈ e.importedParents ∧ 7 ∉ e.importedBlocks) = true := by
  decide

end Runs

end N42
