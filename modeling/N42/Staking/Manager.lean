import N42.Lib.Table
import N42.Stm.Memory

/-!
The staking manager (`n42-node/src/staking.rs`): stakes and registrations read off committed
blocks, the queue of returns of matured unstakes, and the withdrawals a payload is built with
(`n42-node/src/sinks/mod.rs`).
-/

namespace N42.Staking

open Lib
open Stm (U256 satAdd256)

def STAKING_ADDRESS : Address := 0x42

def UNSTAKE_COOLDOWN_BLOCKS : ℕ := 21600

def UNSTAKE_SELECTOR : Bytes := [0x2d, 0xef, 0x66, 0x20]

def MAX_RETURNS : ℕ := 8

def ZERO_PUBKEY : Bytes := List.replicate 48 0

def blsPubkeyToRewardAddress [Keccak] (pubkey : Bytes) : Address :=
  (Keccak.keccak256 pubkey).setWidth 160

inductive StakeStatus where
  | active
  | unstaking (initiatedBlock : ℕ)
  deriving DecidableEq

structure StakeEntry where
  staker : Address
  blsPubkey : Bytes
  amount : U256
  stakedAtBlock : ℕ
  status : StakeStatus
  deriving DecidableEq

structure RegistrationEntry where
  evmAddress : Address
  blsPubkey : Bytes
  registeredAtBlock : ℕ
  deriving DecidableEq

structure Withdrawal where
  index : ℕ
  validatorIndex : ℕ
  address : Address
  amount : ℕ
  deriving DecidableEq

/-- An unstake: who withdrew the stake, and in which block. -/
abbrev Unstake := Address × ℕ

/-- A queued withdrawal. The block its unstake was initiated in is kept beside it to tell which
unstake it pays; the manager never reads it. -/
structure Return where
  withdrawal : Withdrawal
  initiatedBlock : ℕ
  deriving DecidableEq

def Return.unstake (r : Return) : Unstake := (r.withdrawal.address, r.initiatedBlock)

structure StakingManager where
  stakes : Table StakeEntry.staker
  registrations : Table RegistrationEntry.evmAddress
  blsToStaker : Bytes → Option Address
  rewardToStaker : Address → Option Address
  pendingReturns : List Return
  lastScannedBlock : ℕ
  nextWithdrawalIndex : ℕ

/-- What the scan reads of a decoded transaction: `target` is its `to` field, `none` for a
contract creation; `signer` is `none` when the sender cannot be recovered. -/
structure Transaction where
  target : Option Address
  value : U256
  input : Bytes
  signer : Option Address

inductive Call where
  | stake (blsPubkey : Bytes) (value : U256)
  | unstake
  | register (blsPubkey : Bytes)

def Transaction.operation (tx : Transaction) : Option Call :=
  if tx.value ≠ 0 ∧ tx.input.length = 48 then some (.stake tx.input tx.value)
  else if tx.value = 0 ∧ tx.input.length ≥ 4 ∧ tx.input.take 4 = UNSTAKE_SELECTOR then some .unstake
  else if tx.value = 0 ∧ tx.input.length = 48 then some (.register tx.input)
  else none

def Transaction.call (tx : Transaction) : Option (Address × Call) :=
  if tx.target = some STAKING_ADDRESS then
    tx.signer.bind fun sender => tx.operation.map fun call => (sender, call)
  else none

namespace StakingManager

def new : StakingManager where
  stakes := .empty
  registrations := .empty
  blsToStaker := fun _ => none
  rewardToStaker := fun _ => none
  pendingReturns := []
  lastScannedBlock := 0
  nextWithdrawalIndex := 1000000

variable [Keccak]

variable (m : StakingManager)

variable (blsPubkey : Bytes)

def link (owner : Address) : StakingManager :=
  { m with
    blsToStaker := Function.update m.blsToStaker blsPubkey (some owner)
    rewardToStaker :=
      Function.update m.rewardToStaker (blsPubkeyToRewardAddress blsPubkey) (some owner) }

def unlink : StakingManager :=
  { m with
    blsToStaker := Function.update m.blsToStaker blsPubkey none
    rewardToStaker := Function.update m.rewardToStaker (blsPubkeyToRewardAddress blsPubkey) none }

def ownedByAnother (sender : Address) : Bool :=
  (m.blsToStaker blsPubkey).any (· ≠ sender)

/-- The key an owner used before gives way to the one used now. -/
def relink (old blsPubkey : Bytes) (owner : Address) : StakingManager :=
  if old ≠ blsPubkey then (m.unlink old).link blsPubkey owner else m

/-- Staking removes the registration, and the key it was made with unless it is the same. -/
def upgradeRegistration (staker : Address) (blsPubkey : Bytes) : StakingManager :=
  match m.registrations.get staker with
  | some old =>
    let removed := { m with registrations := m.registrations.remove staker }
    if old.blsPubkey ≠ blsPubkey then removed.unlink old.blsPubkey else removed
  | none => m

def handleStake (staker : Address) (blsPubkey : Bytes) (value : U256) (blockNumber : ℕ) :
    StakingManager :=
  if blsPubkey = ZERO_PUBKEY then m
  else if m.ownedByAnother blsPubkey staker then m
  else match m.stakes.get staker with
    | some entry =>
      let appended : StakeEntry :=
        ⟨entry.staker, blsPubkey, satAdd256 entry.amount value, entry.stakedAtBlock, .active⟩
      { m.relink entry.blsPubkey blsPubkey staker with stakes := m.stakes.insert appended }
    | none =>
      let entry : StakeEntry := ⟨staker, blsPubkey, value, blockNumber, .active⟩
      let upgraded := m.upgradeRegistration staker blsPubkey
      { upgraded.link blsPubkey staker with stakes := m.stakes.insert entry }

def handleUnstake (staker : Address) (blockNumber : ℕ) : StakingManager :=
  match m.stakes.get staker with
  | some entry =>
    if entry.status = .active then
      { m with stakes := m.stakes.insert { entry with status := .unstaking blockNumber } }
    else m
  | none => m

def handleRegister (sender : Address) (blsPubkey : Bytes) (blockNumber : ℕ) : StakingManager :=
  if blsPubkey = ZERO_PUBKEY then m
  else if m.ownedByAnother blsPubkey sender then m
  else if (m.stakes.get sender).isSome then m
  else match m.registrations.get sender with
    | some existing =>
      { m.relink existing.blsPubkey blsPubkey sender with
        registrations := m.registrations.insert { existing with blsPubkey := blsPubkey } }
    | none =>
      { m.link blsPubkey sender with
        registrations := m.registrations.insert ⟨sender, blsPubkey, blockNumber⟩ }

def processTransaction (blockNumber : ℕ) (m : StakingManager) (tx : Transaction) : StakingManager :=
  match tx.call with
  | some (sender, .stake blsPubkey value) => m.handleStake sender blsPubkey value blockNumber
  | some (sender, .unstake) => m.handleUnstake sender blockNumber
  | some (sender, .register blsPubkey) => m.handleRegister sender blsPubkey blockNumber
  | none => m

def scanCommittedBlock (blockNumber : ℕ) (transactions : List Transaction) : StakingManager :=
  transactions.foldl (processTransaction blockNumber) { m with lastScannedBlock := blockNumber }

end StakingManager

def gwei (amount : U256) : ℕ := min (amount.toNat / 1000000000) (2 ^ 64 - 1)

namespace StakeStatus

def initiatedBlock : StakeStatus → ℕ
  | active => 0
  | unstaking initiatedBlock => initiatedBlock

def isMatured (currentBlock : ℕ) : StakeStatus → Bool
  | active => false
  | unstaking initiatedBlock => currentBlock ≥ initiatedBlock + UNSTAKE_COOLDOWN_BLOCKS

end StakeStatus

/-- The staking part of a payload: the rewards, sent to the stakers' own addresses, then the
returns. -/
structure Build where
  rewards : List Withdrawal
  returns : List Return

namespace StakingManager

variable [Keccak]

/-- One matured stake leaves the books and joins the queue. -/
def release (m : StakingManager) (staker : Address) : StakingManager :=
  match m.stakes.get staker with
  | some entry =>
    { m.unlink entry.blsPubkey with
      stakes := m.stakes.remove staker
      nextWithdrawalIndex := m.nextWithdrawalIndex + 1
      pendingReturns := m.pendingReturns ++
        [⟨⟨m.nextWithdrawalIndex, 0, entry.staker, gwei entry.amount⟩,
          entry.status.initiatedBlock⟩] }
  | none => m

variable (m : StakingManager) (iteration : Iteration StakeEntry)

def matured (currentBlock : ℕ) : List Address :=
  ((iteration.order m.stakes.entries).filter (·.status.isMatured currentBlock)).map (·.staker)

def checkCooldowns (currentBlock : ℕ) : StakingManager :=
  (m.matured iteration currentBlock).foldl release m

def takePendingReturns (m : StakingManager) (max : ℕ) : List Return × StakingManager :=
  (m.pendingReturns.take max, { m with pendingReturns := m.pendingReturns.drop max })

def stakerAddressByReward (m : StakingManager) (address : Address) : Address :=
  (m.rewardToStaker address).getD address

/-- `rewards` are the withdrawals the reward manager releases for the block. -/
def withdrawalsForBlock (rewards : List Withdrawal) (nextBlockNumber : ℕ) :
    Build × StakingManager :=
  let resolved := rewards.map fun w => { w with address := m.stakerAddressByReward w.address }
  let (returns, m) := (m.checkCooldowns iteration nextBlockNumber).takePendingReturns MAX_RETURNS
  (⟨resolved, returns⟩, m)

end StakingManager

structure PersistedStakingState where
  stakes : List StakeEntry
  registrations : List RegistrationEntry
  pendingReturns : List Return
  lastScannedBlock : ℕ
  nextWithdrawalIndex : ℕ

namespace StakingManager

variable [Keccak]

variable (m : StakingManager)

def save (stakeOrder : Iteration StakeEntry) (registrationOrder : Iteration RegistrationEntry) :
    PersistedStakingState where
  stakes := stakeOrder.order m.stakes.entries
  registrations := registrationOrder.order m.registrations.entries
  pendingReturns := m.pendingReturns
  lastScannedBlock := m.lastScannedBlock
  nextWithdrawalIndex := m.nextWithdrawalIndex

def loadStake (entry : StakeEntry) : StakingManager :=
  { m.link entry.blsPubkey entry.staker with stakes := m.stakes.insert entry }

def loadRegistration (entry : RegistrationEntry) : StakingManager :=
  { m.link entry.blsPubkey entry.evmAddress with registrations := m.registrations.insert entry }

def load (persisted : PersistedStakingState) : StakingManager :=
  let stakes := persisted.stakes.foldl loadStake new
  let loaded := persisted.registrations.foldl loadRegistration stakes
  { loaded with
    pendingReturns := persisted.pendingReturns
    lastScannedBlock := persisted.lastScannedBlock
    nextWithdrawalIndex := persisted.nextWithdrawalIndex }

end StakingManager

end N42.Staking
