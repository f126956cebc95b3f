import N42.Lib.Guarantee
import N42.Audit.Log

/-!
The invariant that ties a running engine to its audit log, and the judgement in which the handlers
are shown to keep it. `Stored` says what entries of the log the volatile state rests on.
-/

namespace N42

open Lib

/-- Every vote of a collector was counted for the collector's own claim. -/
def VotesCounted (log : List Effect) (c : VoteCollector) (claim : Claim) : Prop :=
  ∀ index ∈ c.votes, Counted log index claim

/-- Every timeout of a collector was verified, and so was the certificate with it. -/
def TimeoutsCounted (log : List Effect) (c : TimeoutCollector) : Prop :=
  ∀ index sig qc, c.timeouts.lookup index = some (sig, qc) →
    (∃ set, .share set index (.timeout c.view) ∈ log) ∧ Trusted log qc

variable {log log' : List Effect}

theorem VotesCounted.grows {c : VoteCollector} {claim : Claim} (h : VotesCounted log c claim)
    (hg : Grows log log') : VotesCounted log' c claim :=
  fun index hmem => hg.counted (h index hmem)

theorem TimeoutsCounted.grows {c : TimeoutCollector} (h : TimeoutsCounted log c)
    (hg : Grows log log') : TimeoutsCounted log' c := by
  intro index sig qc hlook
  obtain ⟨⟨set, hshare⟩, hqc⟩ := h index sig qc hlook
  exact ⟨⟨set, hg.mem hshare⟩, hg.trusted hqc⟩

structure Imported where
  blocks : List B256
  parents : Map B256 B256
  fifo : List B256

def Engine.imported (e : Engine) : Imported :=
  ⟨e.importedBlocks, e.importedParents, e.importedBlockFifo⟩

/-- What holds of the records; `pardon` is a block whose parent has yet to be noted. Only gov5
drops the parent of a block with the block. -/
structure Imported.Backed (r : Imported) (gov5 : Bool) (log : List Effect) (pardon : Option B256) :
    Prop where
  parents : ∀ b parent, r.parents.lookup b = some parent →
    .deliver (.blockImportedWithParent b parent) ∈ log
  bare : ∀ b ∈ r.blocks, some b ≠ pardon → r.parents.lookup b = none →
    .deliver (.blockImported b) ∈ log
  nodup : r.fifo.Nodup
  queued : ∀ b, b ∈ r.fifo ↔ b ∈ r.blocks
  bounded : r.fifo.length ≤ maxImportedBlocks
  closed : gov5 = true → ∀ b ∈ r.parents, b ∈ r.blocks

/-- The records at the end of a view, or at a timeout. -/
theorem Imported.Backed.clear {r : Imported} {gov5 : Bool} (h : r.Backed gov5 log none) :
    Backed ⟨if gov5 then r.blocks else [], r.parents, if gov5 then r.fifo else []⟩ gov5 log
      none := by
  cases gov5 with
  | true => exact h
  | false => exact ⟨h.parents, by simp, by simp, by simp, by simp, by simp⟩

variable [Crypto]

structure Stored (cfg : NodeConfig) (e : Engine) (log : List Effect) : Prop where
  key : e.secretKey = cfg.secretKey
  profile : e.signingProfile = cfg.signingProfile
  index : e.epochManager.epochLength = 0 → ∀ i,
    e.epochManager.currentSet.indexOfPublicKey (Crypto.publicKey cfg.secretKey) = some i →
      e.myIndex = i
  pending : ∀ pp, e.pendingProposal = some pp → pp.view = e.roundState.currentView ∧
    ∃ justify, .approve pp.view pp.blockHash justify false ∈ sinceBoot log ∧
      pp.justifyBlock = justify.blockHash
  imports : e.imported.Backed e.signingProfile.isGov5 log none
  votes : ∀ c, e.voteCollector = some c → c.view = e.roundState.currentView ∧
    VotesCounted log c (.first c.view c.blockHash)
  commitVotes : ∀ c, e.commitCollector = some c → c.view = e.roundState.currentView ∧
    VotesCounted log c (.second c.view c.blockHash)
  sameBlock : ∀ c c', e.voteCollector = some c → e.commitCollector = some c' →
    c'.blockHash = c.blockHash
  timeouts : ∀ c, e.timeoutCollector = some c → c.view = e.roundState.currentView ∧
    TimeoutsCounted log c
  futureTimeouts : ∀ view c, e.futureTimeoutCollectors.lookup view = some c → c.view = view ∧
    TimeoutsCounted log c
  voteTracker : ∀ index b, e.equivocationTracker.lookup index = some b →
    ∃ set, .share set index (.vote e.roundState.currentView b) ∈ sinceBoot log
  commitTracker : ∀ index b, e.commitEquivocationTracker.lookup index = some b →
    ∃ set changesHash,
      .share set index (.commitVote e.roundState.currentView b changesHash) ∈ sinceBoot log
  proposalTracker : ∀ index commitment b,
    e.proposalEquivocationTracker.lookup index = some (commitment, b) →
    ∃ set changes, .share set index (.proposal e.roundState.currentView b changes) ∈ sinceBoot log ∧
      commitment = Crypto.blake3
        (cfg.signingProfile.proposalMessage e.roundState.currentView b changes)
  buffer : ∀ view m, (view, m) ∈ e.futureMsgBuffer → Delivered log m ∧ isExempt m = false

variable {e : Engine} {x : Effect}

theorem Stored.grows {cfg : NodeConfig} (h : Stored cfg e log) (hg : Grows log log') :
    Stored cfg e log' where
  key := h.key
  profile := h.profile
  index := h.index
  pending := by
    intro pp hpp
    obtain ⟨hview, justify, happrove, hblock⟩ := h.pending pp hpp
    exact ⟨hview, justify, hg.mem_sinceBoot happrove, hblock⟩
  imports := { h.imports with
    parents := fun b parent hp => hg.mem (h.imports.parents b parent hp)
    bare := fun b hb hne hp => hg.mem (h.imports.bare b hb hne hp) }
  votes := fun c hc => ⟨(h.votes c hc).1, (h.votes c hc).2.grows hg⟩
  commitVotes := fun c hc => ⟨(h.commitVotes c hc).1, (h.commitVotes c hc).2.grows hg⟩
  sameBlock := h.sameBlock
  timeouts := fun c hc => ⟨(h.timeouts c hc).1, (h.timeouts c hc).2.grows hg⟩
  futureTimeouts := fun v c hc => ⟨(h.futureTimeouts v c hc).1,
    (h.futureTimeouts v c hc).2.grows hg⟩
  voteTracker := by
    intro i b hb
    obtain ⟨set, hs⟩ := h.voteTracker i b hb
    exact ⟨set, hg.mem_sinceBoot hs⟩
  commitTracker := by
    intro i b hb
    obtain ⟨set, ch, hs⟩ := h.commitTracker i b hb
    exact ⟨set, ch, hg.mem_sinceBoot hs⟩
  proposalTracker := by
    intro i cm b hb
    obtain ⟨set, ch, hs, hcm⟩ := h.proposalTracker i cm b hb
    exact ⟨set, ch, hg.mem_sinceBoot hs, hcm⟩
  buffer := fun v m hm => ⟨hg.delivered (h.buffer v m hm).1, (h.buffer v m hm).2⟩

/-- What holds even in the middle of an epoch boundary. -/
structure Base (cfg : NodeConfig) (w : World) : Prop where
  valid : Valid cfg w.log
  core : w.engine.core = coreOf cfg w.log
  stored : Stored cfg w.engine w.log

structure Inv (cfg : NodeConfig) (w : World) : Prop extends Base cfg w where
  steady : ¬ EpochOutputLost w.log → w.engine.core.Steady

attribute [class] Inv

variable (cfg : NodeConfig)

/-- The two-state relation of every handler: it keeps the invariant and only adds to
the log. -/
def Keeps (w w' : World) : Prop :=
  Inv cfg w → Inv cfg w' ∧ Grows w.log w'.log

instance : Std.Refl (Keeps cfg) := ⟨fun w hw => ⟨hw, .refl w.log⟩⟩

instance : IsTrans World (Keeps cfg) where
  trans _ _ _ hab hbc ha :=
    ⟨(hbc (hab ha).1).1, (hab ha).2.trans (hbc (hab ha).1).2⟩

/-- The judgement in which handlers are specified: from a world that satisfies the
invariant, `x` keeps it, and establishes `P` if it succeeds. -/
def Sound {α : Type} (x : EngineM α) (w : World) (P : α → World → Prop) : Prop :=
  Guarantee (Keeps cfg) x w P

abbrev Safely {α : Type} (x : EngineM α) (w : World) : Prop := Sound cfg x w fun _ _ => True

variable {cfg : NodeConfig} {w : World}

theorem Base.step (hw : Base cfg w) (hx : Rule cfg w.log x) (hboot : ∀ core, x ≠ .boot core)
    (hcore : e.core = w.engine.core.apply x) (hstored : Stored cfg e w.log) :
    Base cfg ((w.setEngine e).push x) where
  valid := .cons hw.valid hx
  core := by
    show e.core = (coreOf cfg w.log).apply x
    rw [hcore, hw.core]
  stored := hstored.grows (.cons w.log hboot)

theorem Inv.step (hw : Inv cfg w) (hx : Rule cfg w.log x) (hboot : ∀ core, x ≠ .boot core)
    (hcore : e.core = w.engine.core.apply x) (hstored : Stored cfg e w.log)
    (hsteady : ¬ EpochOutputLost (x :: w.log) → w.engine.core.Steady → e.core.Steady) :
    Inv cfg ((w.setEngine e).push x) where
  toBase := hw.toBase.step hx hboot hcore hstored
  steady := fun hlost => hsteady hlost
    (hw.steady fun h => hlost ((Grows.cons w.log hboot).epochOutputLost h))

theorem Inv.push (hw : Inv cfg w) (hx : Rule cfg w.log x) (hn : x.IsNote) : Inv cfg (w.push x) :=
  hw.step hx hn.ne_boot (Core.apply_note hn _).symm hw.stored fun _ h => h

theorem Inv.setEngine (hw : Inv cfg w) (hcore : e.core = w.engine.core)
    (hstored : Stored cfg e w.log) : Inv cfg (w.setEngine e) where
  valid := hw.valid
  core := hcore.trans hw.core
  stored := hstored
  steady := fun hlost => hcore ▸ hw.steady hlost

theorem Keeps.push (hx : Rule cfg w.log x) (hn : x.IsNote) : Keeps cfg w (w.push x) :=
  fun hw => ⟨hw.push hx hn, .cons w.log hn.ne_boot⟩

theorem Inv.trusted_locked (hw : Inv cfg w) : Trusted w.log w.engine.roundState.lockedQc := by
  have h := hw.valid.certificatesTrusted.locked
  rw [← hw.core] at h
  exact h

theorem Inv.trusted_committed (hw : Inv cfg w) :
    Trusted w.log w.engine.roundState.lastCommittedQc := by
  have h := hw.valid.certificatesTrusted.committed
  rw [← hw.core] at h
  exact h

theorem Inv.view_le_max (hw : Inv cfg w) : w.engine.currentView ≤ u64Max := by
  have h := hw.valid.view_le_max.1
  rw [← hw.core] at h
  exact h

theorem Inv.isCurrentSet (hw : Inv cfg w) {view : ℕ} (hview : view = w.engine.currentView) :
    IsCurrentSet w.log (coreOf cfg w.log) view (w.engine.validatorSetForView view) := by
  rw [← hw.core]
  exact ⟨hview, rfl, hw.steady⟩

namespace Sound

variable {α β : Type} {P : α → World → Prop} {Q : β → World → Prop}

theorem pure {a : α} (h : P a w) : Sound cfg (Pure.pure a) w P := Guarantee.pure h

variable {err : ConsensusError} {k : α → EngineM β} {x : EngineM α}

theorem throw : Sound cfg (MonadExcept.throw err : EngineM α) w P :=
  Guarantee.throw

theorem throw_bind : Sound cfg (MonadExcept.throw err >>= k) w Q :=
  Guarantee.throw_bind

theorem bind [hw : Inv cfg w] (hx : Sound cfg x w P)
    (hk : ∀ a w', Inv cfg w' → Grows w.log w'.log → P a w' → Sound cfg (k a) w' Q) :
    Sound cfg (x >>= k) w Q :=
  Guarantee.bind hx fun a w' hkeep hp => hk a w' (hkeep hw).1 (hkeep hw).2 hp

theorem mono {P' : α → World → Prop} [hw : Inv cfg w] (hx : Sound cfg x w P)
    (h : ∀ a w', Inv cfg w' → Grows w.log w'.log → P a w' → P' a w') : Sound cfg x w P' :=
  Guarantee.mono hx fun a w' hkeep hp => h a w' (hkeep hw).1 (hkeep hw).2 hp

/-- A step whose result is known. -/
theorem next {w₁ : World} [hw : Inv cfg w] (hx : Sound cfg x w fun _ w' => w' = w₁)
    (hk : ∀ a, Inv cfg w₁ → Grows w.log w₁.log → Sound cfg (k a) w₁ Q) :
    Sound cfg (x >>= k) w Q := by
  refine bind hx ?_
  rintro a _ hw₁ hg₁ rfl
  exact hk a hw₁ hg₁

theorem drop (hx : Sound cfg x w P) : Safely cfg x w :=
  Guarantee.mono hx fun _ _ _ _ => trivial

theorem discard [hw : Inv cfg w] (hx : Sound cfg x w P) : Safely cfg (discard x) w := by
  exact bind hx fun _ _ _ _ _ => pure trivial

theorem ite {c : Prop} [Decidable c] {y : EngineM α} (hx : c → Sound cfg x w P)
    (hy : ¬ c → Sound cfg y w P) : Sound cfg (if c then x else y) w P :=
  Guarantee.ite hx hy

theorem early {c : Prop} [Decidable c] {a : α} (h : ¬ c → Safely cfg x w) :
    Safely cfg (if c then Pure.pure a else x) w :=
  .ite (fun _ => .pure trivial) h

theorem guard {c : Prop} [Decidable c] {y : EngineM β} (hy : ¬ c → Sound cfg y w Q) :
    Sound cfg (if c then MonadExcept.throw err >>= k else y) w Q :=
  .ite (fun _ => throw_bind) hy

theorem engine_bind {k : Engine → EngineM β} (h : Sound cfg (k w.engine) w Q) :
    Sound cfg (EngineM.engine >>= k) w Q := h

theorem rank_bind {k : (ℕ → ℕ) → EngineM β} (h : Sound cfg (k w.env.rank) w Q) :
    Sound cfg (EngineM.rank >>= k) w Q := h

theorem ofExcept_bind {r : Except ConsensusError α} (h : ∀ a, r = .ok a → Sound cfg (k a) w Q) :
    Sound cfg (ofExcept r >>= k) w Q := by
  cases r with
  | error err => exact throw_bind
  | ok a => exact h a rfl

theorem succeeds {x : EngineM Unit} {P : Unit → World → Prop} (hx : Sound cfg x w P) :
    Sound cfg (EngineM.succeeds x) w fun valid w' => valid = true → P () w' := by
  unfold Sound Guarantee at hx ⊢
  unfold EngineM.succeeds
  cases h : x w with
  | ok a w' =>
    rw [h] at hx
    exact ⟨hx.1, fun _ => hx.2⟩
  | error err w' =>
    rw [h] at hx
    exact ⟨hx, by simp⟩

theorem of_eq {a : α} {w' : World} (hrun : x w = .ok a w') (h : Inv cfg w → Inv cfg w')
    (hg : Grows w.log w'.log) : Sound cfg x w fun _ s => s = w' := by
  unfold Sound Guarantee
  rw [hrun]
  exact ⟨fun hw => ⟨h hw, hg⟩, rfl⟩

theorem of_outcome {x : EngineM Unit} {c : Prop} [Decidable c] {w₁ w₂ : World}
    (hrun : x w = if c then .ok () w₁ else .error err w₂) (h₁ : Keeps cfg w w₁)
    (h₂ : Keeps cfg w w₂) : Sound cfg x w fun _ w' => w' = w₁ := by
  unfold Sound Guarantee
  rw [hrun]
  by_cases h : c
  · rw [if_pos h]
    exact ⟨h₁, rfl⟩
  · rw [if_neg h]
    exact h₂

end Sound

end N42
