import N42.Protocol.Quorum

/-!
The state of one consensus round and the bounded insertion-order map that caches
proposal data (`protocol/round.rs`, `protocol/bounded_fifo.rs`).
-/

namespace N42

inductive Phase where
  | waitingForProposal
  | voting
  | preCommit
  | committed
  | timedOut
deriving DecidableEq

structure RoundState where
  currentView : ℕ
  phase : Phase
  lockedQc : QuorumCertificate
  lastCommittedQc : QuorumCertificate
  consecutiveTimeouts : ℕ
  lastVotedView : ℕ
  lastCommitVotedView : ℕ

namespace RoundState

def new [Crypto] : RoundState where
  currentView := 1
  phase := .waitingForProposal
  lockedQc := .genesis
  lastCommittedQc := .genesis
  consecutiveTimeouts := 0
  lastVotedView := 0
  lastCommitVotedView := 0

def fromSnapshot (view : ℕ) (lockedQc lastCommittedQc : QuorumCertificate)
    (consecutiveTimeouts lastVotedView lastCommitVotedView : ℕ) : RoundState where
  currentView := view
  phase := .waitingForProposal
  lockedQc := lockedQc
  lastCommittedQc := lastCommittedQc
  consecutiveTimeouts := consecutiveTimeouts
  lastVotedView := lastVotedView
  lastCommitVotedView := lastCommitVotedView

variable (r : RoundState)

def mayVoteIn (view : ℕ) : Bool := r.lastVotedView < view

def recordVote (view : ℕ) : RoundState := { r with lastVotedView := view }

def mayCommitVoteIn (view : ℕ) : Bool := r.lastCommitVotedView < view

def recordCommitVote (view : ℕ) : RoundState := { r with lastCommitVotedView := view }

def enterVoting : RoundState := { r with phase := .voting }

def enterPreCommit : RoundState := { r with phase := .preCommit }

/-- Marks the current view as committed. The lock and the last commit never regress. -/
def commit (commitQc : QuorumCertificate) : RoundState :=
  { r with
    phase := .committed
    lockedQc := if r.lockedQc.view < commitQc.view then commitQc else r.lockedQc
    lastCommittedQc :=
      if r.lastCommittedQc.view ≤ commitQc.view then commitQc else r.lastCommittedQc
    consecutiveTimeouts := 0 }

def advanceView (newView : ℕ) : RoundState :=
  if newView ≤ r.currentView then r
  else { r with currentView := newView, phase := .waitingForProposal }

/-- The counter is a `u32` and saturates. -/
def timeout : RoundState :=
  { r with
    phase := .timedOut
    consecutiveTimeouts := min (r.consecutiveTimeouts + 1) (2 ^ 32 - 1) }

def resetConsecutiveTimeouts : RoundState := { r with consecutiveTimeouts := 0 }

variable (qc : QuorumCertificate)

def updateLockedQc : RoundState :=
  if r.lockedQc.view < qc.view then { r with lockedQc := qc } else r

@[simp] theorem updateLockedQc_currentView : (r.updateLockedQc qc).currentView = r.currentView := by
  unfold updateLockedQc
  split <;> rfl

theorem view_le_updateLockedQc : qc.view ≤ (r.updateLockedQc qc).lockedQc.view := by
  unfold updateLockedQc
  split
  · exact Nat.le_refl _
  · omega

/-- The HotStuff-2 voting rule, which compares views only. -/
def isSafeToVote (justifyQc : QuorumCertificate) : Bool := r.lockedQc.view ≤ justifyQc.view

end RoundState

/-- A map of bounded size that evicts in insertion order. Overwriting a key does not
make it newer. -/
structure BoundedFifoMap (K V : Type) [DecidableEq K] where
  map : Map K V
  order : List K
  capacity : ℕ

namespace BoundedFifoMap

variable {K V : Type} [DecidableEq K]

def new (capacity : ℕ) : BoundedFifoMap K V where
  map := ∅
  order := []
  capacity := capacity

def insert (m : BoundedFifoMap K V) (key : K) (value : V) : BoundedFifoMap K V :=
  if key ∈ m.map then { m with map := m.map.insert key value }
  else
    match decide (m.capacity ≤ m.map.keys.length), m.order with
    | true, oldest :: rest =>
      { m with map := (m.map.erase oldest).insert key value, order := rest ++ [key] }
    | _, _ => { m with map := m.map.insert key value, order := m.order ++ [key] }

def get (m : BoundedFifoMap K V) (key : K) : Option V := m.map.lookup key

def remove (m : BoundedFifoMap K V) (key : K) : BoundedFifoMap K V :=
  if key ∈ m.map then { m with map := m.map.erase key, order := m.order.erase key } else m

end BoundedFifoMap

end N42
