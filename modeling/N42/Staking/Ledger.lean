import N42.Staking.Books

/-!
Nodes that scan one chain of committed blocks, each with its own staking manager, and build
payloads from it. `Fair` says when no unstake is paid twice, because two nodes built with it, or
lost with a build that is discarded.
-/

namespace N42.Staking

open Lib
open StakingManager (load)

structure Block where
  transactions : List Transaction
  build : Build

def Build.unstakes (build : Build) : List Unstake := build.returns.map Return.unstake

structure Node where
  manager : StakingManager
  saved : PersistedStakingState
  /-- Whether a build took returns since the last save. -/
  drew : Bool

structure Candidate where
  builder : ℕ
  build : Build

structure World where
  chain : List Block
  nodes : ℕ → Node
  candidates : List Candidate

inductive Event where
  /-- The node scans the committed block after the last one it scanned. -/
  | scan (node : ℕ)
  | build (node nextBlockNumber : ℕ) (rewards : List Withdrawal) (iteration : Iteration StakeEntry)
  /-- A block is committed with one of the builds at hand; the others are discarded. -/
  | commit (candidate : ℕ) (transactions : List Transaction)
  | save (node : ℕ) (stakeOrder : Iteration StakeEntry)
      (registrationOrder : Iteration RegistrationEntry)
  | reload (node : ℕ)

/-- What the committed blocks say: the manager of a node that scans and never builds. -/
def ledger [Keccak] (chain : List Block) : StakingManager :=
  chain.foldl (fun m block => m.scanCommittedBlock (m.lastScannedBlock + 1) block.transactions)
    StakingManager.new

def keyUses (chain : List Block) : List (Address × Bytes) :=
  chain.flatMap fun block => block.transactions.filterMap Transaction.keyUse

namespace World

def init : World where
  chain := []
  nodes := fun _ =>
    ⟨.new, StakingManager.new.save (.asListed StakeEntry) (.asListed RegistrationEntry), false⟩
  candidates := []

def paid (w : World) : List Unstake := w.chain.flatMap (·.build.unstakes)

/-- The unstakes that builds of a node carry which are neither committed nor discarded. -/
def building (w : World) (node : ℕ) : List Unstake :=
  (w.candidates.filter (·.builder = node)).flatMap (·.build.unstakes)

/-- The unstakes taken off a queue for good: committed, or in a build. -/
def drawn (w : World) : List Unstake := w.paid ++ w.candidates.flatMap (·.build.unstakes)

def set (w : World) (node : ℕ) (value : Node) : World :=
  { w with nodes := Function.update w.nodes node value }

section

variable [Keccak]

def step (w : World) : Event → World
  | .scan node =>
    let n := w.nodes node
    match w.chain[n.manager.lastScannedBlock]? with
    | some block =>
      w.set node { n with
        manager := n.manager.scanCommittedBlock (n.manager.lastScannedBlock + 1)
          block.transactions }
    | none => w
  | .build node nextBlockNumber rewards iteration =>
    let n := w.nodes node
    if nextBlockNumber ≤ w.chain.length + 1 then
      let (build, manager) := n.manager.withdrawalsForBlock iteration rewards nextBlockNumber
      { w.set node { n with manager := manager, drew := n.drew || !build.returns.isEmpty } with
        candidates := w.candidates ++ [⟨node, build⟩] }
    else w
  | .commit candidate transactions =>
    match w.candidates[candidate]? with
    | some chosen => { w with chain := w.chain ++ [⟨transactions, chosen.build⟩], candidates := [] }
    | none => w
  | .save node stakeOrder registrationOrder =>
    let n := w.nodes node
    w.set node { n with saved := n.manager.save stakeOrder registrationOrder, drew := false }
  | .reload node =>
    let n := w.nodes node
    w.set node { n with manager := load n.saved }

def run (w : World) (events : List Event) : World := events.foldl step w

def DueOn (w : World) (node : ℕ) (u : Unstake) : Prop :=
  (w.nodes node).manager.status u.1 = some (.unstaking u.2) ∨
    u ∈ (w.nodes node).manager.queued ∨ u ∈ w.building node

/-- No unstake is paid twice, and until it is paid it is due on every node that has scanned it.
Staking again cancels an unstake. -/
structure PaidOnce (w : World) : Prop where
  once : w.paid.Nodup
  due : ∀ node staker block,
    (ledger (w.chain.take (w.nodes node).manager.lastScannedBlock)).status staker =
      some (.unstaking block) →
    (staker, block) ∈ w.paid ∨ w.DueOn node (staker, block)

def draws (w : World) (node nextBlockNumber : ℕ) (iteration : Iteration StakeEntry) : List Return :=
  ((w.nodes node).manager.withdrawalsForBlock iteration [] nextBlockNumber).1.returns

/-- The step keeps the returns in one hand: that of `builder`. -/
def Fair (builder : ℕ) (w : World) : Event → Prop
  | .scan _ => True
  | .build node nextBlockNumber _ iteration =>
    node ≠ builder → w.draws node nextBlockNumber iteration = []
  | .commit candidate transactions =>
    (∀ other ∈ w.candidates.eraseIdx candidate, other.build.returns = []) ∧
      Exclusive (keyUses w.chain ++ transactions.filterMap Transaction.keyUse)
  | .save _ _ _ => True
  | .reload node => (w.nodes node).drew = false

instance decidableFair (builder : ℕ) (w : World) :
    (event : Event) → Decidable (w.Fair builder event)
  | .scan _ => inferInstanceAs (Decidable True)
  | .build _ _ _ _ => inferInstanceAs (Decidable (_ → _))
  | .commit _ _ => inferInstanceAs (Decidable (_ ∧ _))
  | .save _ _ _ => inferInstanceAs (Decidable True)
  | .reload _ => inferInstanceAs (Decidable (_ = _))

def AlwaysFair (builder : ℕ) : World → List Event → Prop
  | _, [] => True
  | w, event :: events => w.Fair builder event ∧ (w.step event).AlwaysFair builder events

instance decidableAlwaysFair (builder : ℕ) : (w : World) → (events : List Event) →
    Decidable (w.AlwaysFair builder events)
  | _, [] => inferInstanceAs (Decidable True)
  | w, event :: events =>
    haveI := decidableAlwaysFair builder (w.step event) events
    inferInstanceAs (Decidable (w.Fair builder event ∧ (w.step event).AlwaysFair builder events))

end

end World

end N42.Staking
