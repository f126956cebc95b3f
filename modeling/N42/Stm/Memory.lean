import N42.Primitives.Types

/-!
The data of `n42-parallel-evm`: what a transaction reads and returns, the multi-version memory, and
the sequential reference execution.

A transaction is a program that asks for accounts and slots, one at a time, and ends with its result
and post-state. A code hash stands for the bytecode.
-/

namespace N42.Stm

open Lib Function

abbrev U256 := BitVec 256

def KECCAK_EMPTY : B256 := 0xc5d2460186f7233c927e7db2dcc703c0e500b653ca82273b7bfad8045d85a470

def satSub (a b : U256) : U256 := BitVec.ofNat 256 (a.toNat - b.toNat)

def satAdd256 (a b : U256) : U256 := BitVec.ofNat 256 (min (a.toNat + b.toNat) (2 ^ 256 - 1))

structure AccountInfo where
  balance : U256
  nonce : ℕ
  codeHash : B256
deriving DecidableEq

def AccountInfo.empty : AccountInfo where
  balance := 0
  nonce := 0
  codeHash := KECCAK_EMPTY

inductive LocationKey where
  | account (address : Address)
  | storage (address : Address) (slot : U256)
deriving DecidableEq

inductive ReadValue where
  | account (info : Option AccountInfo)
  | storage (value : U256)
deriving DecidableEq

structure ReadEntry where
  key : LocationKey
  value : ReadValue
deriving DecidableEq

structure TxResult where
  gasUsed : ℕ
  success : Bool
  logs : List Bytes
deriving DecidableEq

/-- An account of a transaction's post-state. A slot stands with its present value and whether
it changed. -/
structure EvmAccount where
  info : AccountInfo
  touched : Bool
  selfdestructed : Bool
  created : Bool
  storage : List (U256 × U256 × Bool)
deriving DecidableEq

structure ResultAndState where
  result : TxResult
  state : List (Address × EvmAccount)
deriving DecidableEq

/-- A transaction under execution. `done none` is an execution error. -/
inductive Prog where
  | done (outcome : Option ResultAndState)
  | basic (address : Address) (next : Option AccountInfo → Prog)
  | storage (address : Address) (slot : U256) (next : U256 → Prog)

structure BaseDb where
  basic : Address → Option AccountInfo
  storage : Address → U256 → U256

inductive AccountWrite where
  | updated (info : AccountInfo)
  | recreated (info : AccountInfo)
  | destroyed
deriving DecidableEq

def AccountWrite.info : AccountWrite → Option AccountInfo
  | updated info => some info
  | recreated info => some info
  | destroyed => none

def AccountWrite.wipes : AccountWrite → Bool
  | updated _ => false
  | recreated _ => true
  | destroyed => true

structure TxOutputInternal where
  result : TxResult
  accountWrites : List (Address × AccountWrite)
  storageWrites : List (Address × U256 × U256)
  readSet : List ReadEntry
  beneDelta : Option U256
  deferredBeneInvalidated : Bool
deriving DecidableEq

structure DeferredCoinbase where
  bene : Address
  base : Option AccountInfo
deriving DecidableEq

/-- The balance a transaction credited to the beneficiary, if its nonce and code are those of
the start of the block. -/
def DeferredCoinbase.extractDelta (cb : DeferredCoinbase) (account : EvmAccount) : Option U256 :=
  let base := cb.base.getD .empty
  if account.info.nonce = base.nonce ∧ account.info.codeHash = base.codeHash then
    some (satSub account.info.balance base.balance)
  else none

def EvmAccount.changedSlots (address : Address) (account : EvmAccount) :
    List (Address × U256 × U256) :=
  account.storage.filterMap fun (slot, value, changed) =>
    if changed then some (address, slot, value) else none

def TxOutputInternal.addAccount (coinbase : Option DeferredCoinbase) (out : TxOutputInternal) :
    Address × EvmAccount → TxOutputInternal
  | (address, account) =>
    if ¬ account.touched then out
    else match coinbase.filter fun cb => cb.bene = address with
    | some cb =>
      if account.selfdestructed then
        { out with
          deferredBeneInvalidated := true
          accountWrites := out.accountWrites ++ [(address, .destroyed)] }
      else if account.created then
        { out with
          deferredBeneInvalidated := true
          accountWrites := out.accountWrites ++ [(address, .recreated account.info)]
          storageWrites := out.storageWrites ++ account.changedSlots address }
      else match cb.extractDelta account with
        | some delta =>
          { out with
            beneDelta := some delta
            storageWrites := out.storageWrites ++ account.changedSlots address }
        | none =>
          { out with
            deferredBeneInvalidated := true
            accountWrites := out.accountWrites ++ [(address, .updated account.info)]
            storageWrites := out.storageWrites ++ account.changedSlots address }
    | none =>
      if account.selfdestructed then
        { out with accountWrites := out.accountWrites ++ [(address, .destroyed)] }
      else
        { out with
          accountWrites := out.accountWrites ++
            [(address, if account.created then .recreated account.info else .updated account.info)]
          storageWrites := out.storageWrites ++ account.changedSlots address }

def outputOf (coinbase : Option DeferredCoinbase) (readSet : List ReadEntry) :
    Option ResultAndState → TxOutputInternal
  | none => ⟨⟨0, false, []⟩, [], [], readSet, none, false⟩
  | some r => r.state.foldl (.addAccount coinbase) ⟨r.result, [], [], readSet, none, false⟩

inductive WriteKey where
  | account (address : Address)
  | storage (address : Address) (slot : U256)
  | storageWipe (address : Address)
deriving DecidableEq

/-- What the memory holds under one transaction index: the entry of that index in every
version map, the list of keys `tx_writes` has for it, and its beneficiary delta. -/
structure Slice where
  accounts : Address → Option (Option AccountInfo)
  storage : Address → U256 → Option U256
  wipes : Address → Bool
  txWrites : Option (List WriteKey)
  beneDelta : Option U256

/-- `MvMemory`, its version maps read by transaction. -/
abbrev MvMemory := ℕ → Slice

namespace Slice

def empty : Slice where
  accounts _ := none
  storage _ _ := none
  wipes _ := false
  txWrites := none
  beneDelta := none

end Slice

/-- One access of `write_account`, `write_storage` or `record_bene_delta`. -/
inductive Access where
  | account (address : Address) (info : Option AccountInfo)
  | wipe (address : Address)
  | storage (address : Address) (slot value : U256)
  | note (key : WriteKey)
  | delta (value : U256)

namespace Slice

def access (s : Slice) : Access → Slice
  | .account address info =>
    { s with accounts := update s.accounts address (some info) }
  | .wipe address => { s with wipes := update s.wipes address true }
  | .storage address slot value => { s with
      storage := update s.storage address
        (update (s.storage address) slot (some value)) }
  | .note key => { s with txWrites := some (s.txWrites.getD [] ++ [key]) }
  | .delta value => { s with beneDelta := some value }

def remove (s : Slice) : WriteKey → Slice
  | .account address => { s with accounts := update s.accounts address none }
  | .storage address slot => { s with
      storage := update s.storage address
        (update (s.storage address) slot none) }
  | .storageWipe address => { s with wipes := update s.wipes address false }

end Slice

def accountAccesses : Address × AccountWrite → List Access
  | (address, write) =>
    [.account address write.info, .note (.account address)] ++
      if write.wipes then [.wipe address, .note (.storageWipe address)] else []

def storageAccesses : Address × U256 × U256 → List Access
  | (address, slot, value) => [.storage address slot value, .note (.storage address slot)]

def TxOutputInternal.accesses (out : TxOutputInternal) : List Access :=
  out.accountWrites.flatMap accountAccesses ++ out.storageWrites.flatMap storageAccesses ++
    (out.beneDelta.map Access.delta).toList

/-- What an output leaves under its index. -/
def TxOutputInternal.published (out : TxOutputInternal) : Slice :=
  out.accesses.foldl Slice.access .empty

def latest {α : Type} (versions : ℕ → Option α) : ℕ → Option (ℕ × α)
  | 0 => none
  | reader + 1 => match versions reader with
    | some value => some (reader, value)
    | none => latest versions reader

namespace MvMemory

variable (mv : MvMemory) (reader : ℕ) (address : Address)

def readAccount : Option (Option AccountInfo) :=
  (latest (fun tx => (mv tx).accounts address) reader).map Prod.snd

def latestSlot (slot : U256) : Option (ℕ × U256) :=
  latest (fun tx => (mv tx).storage address slot) reader

def latestWipe : Option ℕ :=
  (latest (fun tx => if (mv tx).wipes address then some () else none) reader).map Prod.fst

end MvMemory

/-- The value `read_storage` makes of its two accesses, if any. -/
def slotValue (slot : Option (ℕ × U256)) (wipe : Option ℕ) : Option U256 :=
  match slot, wipe with
  | some (slotTx, value), some wipeTx => if wipeTx > slotTx then some 0 else some value
  | some (_, value), none => some value
  | none, some _ => some 0
  | none, none => none

def MvMemory.readStorage (mv : MvMemory) (reader : ℕ) (address : Address) (slot : U256) :
    Option U256 :=
  slotValue (mv.latestSlot reader address slot) (mv.latestWipe reader address)

structure Block where
  txs : List Prog
  base : BaseDb
  coinbase : Option DeferredCoinbase

namespace Block

variable (b : Block)

/-- The beneficiary whose account is read from the parent state and not recorded. -/
def blind (address : Address) : Bool := b.coinbase.any fun cb => cb.bene = address

def tx (i : ℕ) : Prog := b.txs.getD i (.done none)

/-- The account a transaction finds, `blind` apart. -/
def account (mv : MvMemory) (i : ℕ) (address : Address) : Option AccountInfo :=
  (mv.readAccount i address).getD (b.base.basic address)

/-- The slot a transaction finds, given the two accesses. -/
def slot (b : Block) (latestSlot : Option (ℕ × U256)) (latestWipe : Option ℕ)
    (address : Address) (slot : U256) : U256 :=
  (slotValue latestSlot latestWipe).getD (b.base.storage address slot)

def exec (b : Block) (mv : MvMemory) (i : ℕ) : Prog → List ReadEntry × Option ResultAndState
  | .done outcome => ([], outcome)
  | .basic address next =>
    if b.blind address then b.exec mv i (next (b.base.basic address))
    else
      let info := b.account mv i address
      let (reads, outcome) := b.exec mv i (next info)
      (⟨.account address, .account info⟩ :: reads, outcome)
  | .storage address slot next =>
    let value := b.slot (mv.latestSlot i address slot) (mv.latestWipe i address) address slot
    let (reads, outcome) := b.exec mv i (next value)
    (⟨.storage address slot, .storage value⟩ :: reads, outcome)

/-- `execute_single_tx` with no other worker at the memory. -/
def executeSingleTx (mv : MvMemory) (i : ℕ) : TxOutputInternal :=
  let (reads, outcome) := b.exec mv i (b.tx i)
  outputOf b.coinbase reads outcome

def seqMemory (b : Block) : ℕ → MvMemory
  | 0 => fun _ => .empty
  | i + 1 => update (b.seqMemory i) i (b.executeSingleTx (b.seqMemory i) i).published

/-- The output of transaction `i` when the transactions run one after the other. -/
def seqOutput (i : ℕ) : TxOutputInternal := b.executeSingleTx (b.seqMemory i) i

end Block

structure MergedAccount where
  info : AccountInfo
  touched : Bool
  selfdestructed : Bool
  created : Bool
  storage : U256 → Option U256

def MergedAccount.notExisting : MergedAccount where
  info := .empty
  touched := false
  selfdestructed := false
  created := false
  storage _ := none

abbrev StateChanges := Address → Option MergedAccount

variable (changes : StateChanges)

def mergeAccount : Address × AccountWrite → StateChanges
  | (address, write) =>
    let account := (changes address).getD .notExisting
    update changes address (some (match write with
      | .updated info => { account with info := info, selfdestructed := false, touched := true }
      | .recreated info => { account with
          storage := fun _ => none
          info := info
          selfdestructed := false
          created := true
          touched := true }
      | .destroyed => { account with storage := fun _ => none, selfdestructed := true }))

def mergeSlot : Address × U256 × U256 → StateChanges
  | (address, slot, value) =>
    let account := (changes address).getD .notExisting
    update changes address
      (some { account with storage := update account.storage slot (some value) })

def mergeTxState (out : TxOutputInternal) : StateChanges :=
  out.storageWrites.foldl mergeSlot (out.accountWrites.foldl mergeAccount changes)

structure ParallelExecutionOutput where
  results : List TxResult
  stateChanges : StateChanges

def assemble (outputs : List TxOutputInternal) : ParallelExecutionOutput where
  results := outputs.map TxOutputInternal.result
  stateChanges := outputs.foldl mergeTxState fun _ => none

/-- `sequential_execute`: beneficiary credits are ordinary writes. -/
def Block.sequentialExecute (b : Block) : ParallelExecutionOutput :=
  assemble ((List.range b.txs.length).map ({ b with coinbase := none } : Block).seqOutput)

inductive ParallelEvmError where
  | database (message : String)
  | blockTooLarge (txCount : ℕ)

def storedOutput (outputs : ℕ → Option TxOutputInternal) (i : ℕ) :
    Except ParallelEvmError TxOutputInternal :=
  match outputs i with
  | some out => .ok out
  | none => .error (.database ("missing output for tx " ++ toString i))

def buildOutput (n : ℕ) (outputs : ℕ → Option TxOutputInternal) :
    Except ParallelEvmError ParallelExecutionOutput := do
  let outputs ← (List.range n).mapM (storedOutput outputs)
  return assemble outputs

end N42.Stm
