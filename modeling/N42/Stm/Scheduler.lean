import N42.Stm.Memory

/-!
The Block-STM scheduler and the worker loop: every atomic access, lock operation and access of the
multi-version memory is one step of one worker.
-/

namespace N42.Stm

inductive Status where
  | pending
  | executed
  | validated
  | redo
deriving DecidableEq

/-- Where a worker stands, with its local variables. `invalidated` is the count of validated
transactions that an abort has taken back. -/
inductive Pc where
  /-- `pop_redo`: load the length of the redo queue. -/
  | idle
  | popLock
  | popSub (cand : ℕ)
  | casRedo (cand : ℕ)
  /-- `next_task`: claim a transaction to execute, then one to validate. -/
  | fetchExec
  | loadCursor
  | loadStatus (v : ℕ)
  | loadPrev (v : ℕ)
  | casCursor (v : ℕ)
  | checkDone
  | stopped
  /-- `clear_tx`. -/
  | clearDelta (i : ℕ)
  | clearIndex (i : ℕ)
  | clearKeys (i : ℕ) (keys : List WriteKey)
  /-- `execute_single_tx`; a storage read takes two accesses. -/
  | running (i : ℕ) (prog : Prog) (reads : List ReadEntry)
  | readWipe (i : ℕ) (address : Address) (slot : U256) (next : U256 → Prog)
    (reads : List ReadEntry) (latestSlot : Option (ℕ × U256))
  /-- Publication of the output. -/
  | writing (i : ℕ) (out : TxOutputInternal) (todo : List Access)
  | storeOutput (i : ℕ) (out : TxOutputInternal)
  | finish (i : ℕ)
  /-- `validate_read_set`, under the lock of the output. -/
  | lockOutput (i : ℕ)
  | checking (i : ℕ) (todo : List ReadEntry)
  | checkWipe (i : ℕ) (entry : ReadEntry) (address : Address) (slot : U256)
    (todo : List ReadEntry) (latestSlot : Option (ℕ × U256))
  /-- `finish_validation`. -/
  | casValidated (i : ℕ)
  | countValidated
  /-- `abort_and_reschedule`. -/
  | abortSwap (i : ℕ)
  | abortPush (i : ℕ) (invalidated : ℕ)
  | abortLen (i : ℕ) (invalidated : ℕ)
  | abortLoad (i : ℕ) (invalidated : ℕ)
  | abortRewind (i : ℕ) (invalidated : ℕ) (cur : ℕ)
  | scan (j : ℕ) (invalidated : ℕ)
  | scanCas (j : ℕ) (invalidated : ℕ) (cur : Status)
  | scanPush (j : ℕ) (invalidated : ℕ)
  | scanLen (j : ℕ) (invalidated : ℕ)
  | discount (invalidated : ℕ)

structure State where
  status : ℕ → Status
  execCursor : ℕ
  valCursor : ℕ
  validatedCount : ℕ
  redo : List ℕ
  redoLen : UInt64
  mv : MvMemory
  outputs : ℕ → Option TxOutputInternal
  locked : ℕ → Bool
  workers : ℕ → Pc

namespace State

def init : State where
  status _ := .pending
  execCursor := 0
  valCursor := 0
  validatedCount := 0
  redo := []
  redoLen := 0
  mv _ := .empty
  outputs _ := none
  locked _ := false
  workers _ := .idle

def goto (s : State) (w : ℕ) (pc : Pc) : State :=
  { s with workers := Function.update s.workers w pc }

variable (s : State) (i : ℕ)

def setStatus (status : Status) : State :=
  { s with status := Function.update s.status i status }

def setSlice (slice : Slice) : State :=
  { s with mv := Function.update s.mv i slice }

def setLocked (locked : Bool) : State :=
  { s with locked := Function.update s.locked i locked }

end State

namespace Block

variable (b : Block) (s : State)

def AllDone : Prop := b.txs.length ≤ s.validatedCount

instance : Decidable (b.AllDone s) :=
  inferInstanceAs (Decidable (_ ≤ _))

def step (w : ℕ) : State :=
  match s.workers w with
  -- `next_task` and its redo queue
  | .idle => s.goto w (if s.redoLen = 0 then .fetchExec else .popLock)
  | .popLock => match s.redo with
    | [] => s.goto w .fetchExec
    | cand :: rest => { s with redo := rest }.goto w (.popSub cand)
  | .popSub cand => { s with redoLen := s.redoLen - 1 }.goto w (.casRedo cand)
  | .casRedo cand =>
    if s.status cand = .redo then (s.setStatus cand .pending).goto w (.clearDelta cand)
    else s.goto w .idle
  | .fetchExec =>
    let idx := s.execCursor
    { s with execCursor := idx + 1 }.goto w
      (if idx < b.txs.length then .clearDelta idx else .loadCursor)
  | .loadCursor =>
    s.goto w (if s.valCursor ≥ b.txs.length then .checkDone else .loadStatus s.valCursor)
  | .loadStatus v =>
    s.goto w (if s.status v ≠ .executed then .checkDone
      else if v > 0 then .loadPrev v else .casCursor v)
  | .loadPrev v =>
    s.goto w (if s.status (v - 1) ≠ .validated then .checkDone else .casCursor v)
  | .casCursor v =>
    if s.valCursor = v then { s with valCursor := v + 1 }.goto w (.lockOutput v)
    else s.goto w .loadCursor
  | .checkDone => s.goto w (if b.AllDone s then .stopped else .idle)
  | .stopped => s
  -- `Task::Execute`
  | .clearDelta i => (s.setSlice i { s.mv i with beneDelta := none }).goto w (.clearIndex i)
  | .clearIndex i =>
    (s.setSlice i { s.mv i with txWrites := none }).goto w
      (.clearKeys i ((s.mv i).txWrites.getD []))
  | .clearKeys i [] => s.goto w (.running i (b.tx i) [])
  | .clearKeys i (key :: keys) =>
    (s.setSlice i ((s.mv i).remove key)).goto w (.clearKeys i keys)
  | .running i (.done outcome) reads =>
    let out := outputOf b.coinbase reads outcome
    s.goto w (.writing i out out.accesses)
  | .running i (.basic address next) reads =>
    if b.blind address then s.goto w (.running i (next (b.base.basic address)) reads)
    else
      let info := b.account s.mv i address
      s.goto w (.running i (next info) (reads ++ [⟨.account address, .account info⟩]))
  | .running i (.storage address slot next) reads =>
    s.goto w (.readWipe i address slot next reads (s.mv.latestSlot i address slot))
  | .readWipe i address slot next reads latestSlot =>
    let value := b.slot latestSlot (s.mv.latestWipe i address) address slot
    s.goto w (.running i (next value) (reads ++ [⟨.storage address slot, .storage value⟩]))
  | .writing i out [] => s.goto w (.storeOutput i out)
  | .writing i out (access :: todo) =>
    (s.setSlice i ((s.mv i).access access)).goto w (.writing i out todo)
  | .storeOutput i out =>
    if s.locked i then s
    else { s with outputs := Function.update s.outputs i (some out) }.goto w (.finish i)
  | .finish i => (s.setStatus i .executed).goto w .idle
  -- `Task::Validate`
  | .lockOutput i =>
    if s.locked i then s
    else match s.outputs i with
      | none => s.goto w (.abortSwap i)
      | some out => (s.setLocked i true).goto w (.checking i out.readSet)
  | .checking i [] => (s.setLocked i false).goto w (.casValidated i)
  | .checking i (entry :: todo) => match entry.key with
    | .account address =>
      if entry.value = .account (b.account s.mv i address) then s.goto w (.checking i todo)
      else (s.setLocked i false).goto w (.abortSwap i)
    | .storage address slot =>
      s.goto w (.checkWipe i entry address slot todo (s.mv.latestSlot i address slot))
  | .checkWipe i entry address slot todo latestSlot =>
    if entry.value = .storage (b.slot latestSlot (s.mv.latestWipe i address) address slot) then
      s.goto w (.checking i todo)
    else (s.setLocked i false).goto w (.abortSwap i)
  | .casValidated i =>
    if s.status i = .executed then (s.setStatus i .validated).goto w .countValidated
    else s.goto w .idle
  | .countValidated => { s with validatedCount := s.validatedCount + 1 }.goto w .idle
  -- `abort_and_reschedule`
  | .abortSwap i =>
    (s.setStatus i .redo).goto w (.abortPush i (if s.status i = .validated then 1 else 0))
  | .abortPush i invalidated => { s with redo := s.redo ++ [i] }.goto w (.abortLen i invalidated)
  | .abortLen i invalidated =>
    { s with redoLen := s.redoLen + 1 }.goto w (.abortLoad i invalidated)
  | .abortLoad i invalidated => s.goto w (.abortRewind i invalidated s.valCursor)
  | .abortRewind i invalidated cur =>
    if cur > i then
      if s.valCursor = cur then { s with valCursor := i }.goto w (.scan (i + 1) invalidated)
      else s.goto w (.abortRewind i invalidated s.valCursor)
    else s.goto w (.scan (i + 1) invalidated)
  | .scan j invalidated =>
    if j < b.txs.length then
      let cur := s.status j
      s.goto w (if cur ≠ .executed ∧ cur ≠ .validated then .scan (j + 1) invalidated
        else .scanCas j invalidated cur)
    else s.goto w (.discount invalidated)
  | .scanCas j invalidated cur =>
    if s.status j = cur then
      (s.setStatus j .redo).goto w
        (.scanPush j (if cur = .validated then invalidated + 1 else invalidated))
    else s.goto w (.scan j invalidated)
  | .scanPush j invalidated => { s with redo := s.redo ++ [j] }.goto w (.scanLen j invalidated)
  | .scanLen j invalidated =>
    { s with redoLen := s.redoLen + 1 }.goto w (.scan (j + 1) invalidated)
  | .discount invalidated =>
    { s with validatedCount := s.validatedCount - invalidated }.goto w .idle

def run (b : Block) (schedule : List ℕ) : State := schedule.foldl b.step .init

end Block

/-- What a worker is about, as far as the other workers can tell. -/
inductive Role where
  | idle
  | executing (i : ℕ)
  | validating (i : ℕ)
  | counting
  /-- Aborting, the validation cursor not yet rewound. -/
  | rewinding (i : ℕ)
  /-- Aborting, taking back the higher transactions. -/
  | sweeping
deriving DecidableEq

def Pc.role : Pc → Role
  | .clearDelta i | .clearIndex i | .clearKeys i _ | .running i _ _ | .readWipe i _ _ _ _ _
  | .writing i _ _ | .storeOutput i _ | .finish i => .executing i
  | .lockOutput i | .checking i _ | .checkWipe i _ _ _ _ _ | .casValidated i
  | .abortSwap i => .validating i
  | .countValidated => .counting
  | .abortPush i _ | .abortLen i _ | .abortLoad i _ | .abortRewind i _ _ => .rewinding i
  | .scan _ _ | .scanCas _ _ _ | .scanPush _ _ | .scanLen _ _ | .discount _ => .sweeping
  | _ => .idle

end N42.Stm
