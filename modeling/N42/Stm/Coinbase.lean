import N42.Stm.Merge
import N42.Stm.Serializability

/-!
Deferred coinbase: the beneficiary's account is read as it was at the start of the block, its
credits are summed beside the versioned memory, and the sum is added once at the end.
-/

namespace N42.Stm

open List Function

/-- How the beneficiary of a block is handled. -/
inductive CoinbasePlan where
  | defer (cb : DeferredCoinbase)
  | noDefer
  | sequential
deriving DecidableEq

/-- A block to execute: its transactions with their callers, the parent state and the
beneficiary. -/
structure Batch where
  txs : List (Address × Prog)
  base : BaseDb
  beneficiary : Address

/-- `DeferredCoinbase::plan`, given whether `N42_DEFERRED_COINBASE` leaves deferral on. -/
def Batch.plan (c : Batch) (enabled : Bool) : CoinbasePlan :=
  if ¬ enabled then .noDefer
  else
    let base := c.base.basic c.beneficiary
    let isSender := c.txs.any fun tx => tx.1 = c.beneficiary
    let isEoa := base.all fun info => info.codeHash = KECCAK_EMPTY
    if isSender || !isEoa then .sequential else .defer ⟨c.beneficiary, base⟩

/-- `sum_bene_deltas`; saturating addition does not depend on the order of the entries. -/
def MvMemory.sumBeneDeltas (mv : MvMemory) (n : ℕ) : U256 :=
  (List.range n).foldl (fun sum i => (mv i).beneDelta.elim sum (satAdd256 sum)) 0

def DeferredCoinbase.materialize (cb : DeferredCoinbase) (sum : U256)
    (output : ParallelExecutionOutput) : ParallelExecutionOutput :=
  if sum = 0 then output
  else
    let info := cb.base.getD .empty
    let account := (output.stateChanges cb.bene).getD .notExisting
    { output with
      stateChanges := Function.update output.stateChanges cb.bene (some { account with
        info := { info with balance := satAdd256 info.balance sum }
        touched := true }) }

namespace Batch

variable (c : Batch)

def block (coinbase : Option DeferredCoinbase) : Block := ⟨c.txs.map Prod.snd, c.base, coinbase⟩

def sequentialExecute : ParallelExecutionOutput := (c.block none).sequentialExecute

/-- Some output says that the beneficiary was more than credited. -/
def Invalidated (s : State) : Prop :=
  ∃ i < c.txs.length, (s.outputs i).any TxOutputInternal.deferredBeneInvalidated

instance (s : State) : Decidable (c.Invalidated s) :=
  inferInstanceAs (Decidable (∃ i < _, _))

/-- The parallel part of `parallel_execute`, once the workers are through with `schedule`. -/
def executeWith (coinbase : Option DeferredCoinbase) (schedule : List ℕ) :
    Except ParallelEvmError ParallelExecutionOutput :=
  let s := (c.block coinbase).run schedule
  if ¬ (c.block coinbase).AllDone s then .ok c.sequentialExecute
  else if coinbase.isSome ∧ c.Invalidated s then .ok c.sequentialExecute
  else do
    let output ← buildOutput c.txs.length s.outputs
    return match coinbase with
      | some cb => cb.materialize (s.mv.sumBeneDeltas c.txs.length) output
      | none => output

/-- `parallel_execute`, given `N42_PARALLEL_THRESHOLD` and `N42_DEFERRED_COINBASE`. -/
def parallelExecute (threshold : ℕ) (enabled : Bool) (schedule : List ℕ) :
    Except ParallelEvmError ParallelExecutionOutput :=
  if c.txs.length = 0 then .ok ⟨[], fun _ => none⟩
  else if c.txs.length ≥ 2 ^ 32 - 1 then .error (.blockTooLarge c.txs.length)
  else if c.txs.length ≤ threshold then .ok c.sequentialExecute
  else match c.plan enabled with
    | .sequential => .ok c.sequentialExecute
    | .noDefer => c.executeWith none schedule
    | .defer cb => c.executeWith (some cb) schedule

end Batch

/-- What a transaction comes to if it finds these accounts and slots. -/
def Prog.outcome (account : Address → Option AccountInfo) (slot : Address → U256 → U256) :
    Prog → Option ResultAndState
  | .done outcome => outcome
  | .basic address next => (next (account address)).outcome account slot
  | .storage address key next => (next (slot address key)).outcome account slot

def AccountInfo.credit (info : AccountInfo) (amount : U256) : AccountInfo :=
  { info with balance := info.balance + amount }

/-- What an entry adds to the balance of `bene`, found empty, after an earlier entry added
`credit`. -/
def EvmAccount.creditOf (bene : Address) (credit : Option U256) :
    Address × EvmAccount → Option U256
  | (address, account) =>
    if address = bene ∧ account.touched then some account.info.balance else credit

/-- What the entry of `bene`, found empty, is if `info` is found instead. -/
def EvmAccount.creditTo (bene : Address) (info : AccountInfo) :
    Address × EvmAccount → Address × EvmAccount
  | (address, account) => (address, if address = bene then
      { account with info := info.credit account.info.balance } else account)

/-- What a transaction that found `bene` empty adds to its balance, if it touches it. -/
def ResultAndState.credit (bene : Address) (r : ResultAndState) : Option U256 :=
  r.state.foldl (EvmAccount.creditOf bene) none

/-- The outcome of that transaction if it finds `info` instead, and credits it. -/
def ResultAndState.creditTo (bene : Address) (info : AccountInfo) (r : ResultAndState) :
    ResultAndState :=
  { r with state := r.state.map (EvmAccount.creditTo bene info) }

/-- Whatever account without code the transaction finds for `bene`, it does what it does if it
finds none, and adds its credit to that account if there is room for it. -/
def Prog.OnlyCredits (bene : Address) (prog : Prog) : Prop :=
  ∀ account slot (found : Option AccountInfo),
    let unseen := prog.outcome (Function.update account bene none) slot
    (found.getD .empty).codeHash = KECCAK_EMPTY →
    (∀ amount ∈ unseen.bind (·.credit bene),
      (found.getD .empty).balance.toNat + amount.toNat < 2 ^ 256) →
    prog.outcome (Function.update account bene found) slot =
      unseen.map (·.creditTo bene (found.getD .empty))

namespace Batch

variable (c : Batch)

def accountsAt (i : ℕ) : Address → Option AccountInfo :=
  (c.block none).account ((c.block none).seqMemory i) i

def slotsAt (i : ℕ) (address : Address) (slot : U256) : U256 :=
  (((c.block none).seqMemory i).readStorage i address slot).getD (c.base.storage address slot)

def unseen (i : ℕ) : Option ResultAndState :=
  ((c.block none).tx i).outcome (Function.update (c.accountsAt i) c.beneficiary none) (c.slotsAt i)

def credit (i : ℕ) : Option U256 := (c.unseen i).bind (·.credit c.beneficiary)

def credits (i : ℕ) : ℕ := ((List.range i).map fun j => ((c.credit j).getD 0).toNat).sum

/-- The transactions do nothing with the beneficiary but credit it, its balance does not
overflow, and it exists if it is touched and gets nothing. -/
structure Deferrable : Prop where
  onlyCredits : ∀ tx ∈ c.txs, tx.2.OnlyCredits c.beneficiary
  fits : ((c.base.basic c.beneficiary).getD .empty).balance.toNat + c.credits c.txs.length < 2 ^ 256
  present : c.credits c.txs.length = 0 → (∃ i < c.txs.length, c.credit i ≠ none) →
    c.base.basic c.beneficiary ≠ none

end Batch

/-- An account once the changes are committed. -/
def BaseDb.accountAfter (base : BaseDb) (changes : StateChanges) (address : Address) :
    Option AccountInfo :=
  match changes address with
  | none => base.basic address
  | some account =>
    if account.selfdestructed then none
    else if account.touched then some account.info
    else base.basic address

/-- What an output says apart from the account of `bene`. -/
def TxOutputInternal.effects (bene : Address) (out : TxOutputInternal) :
    TxResult × List (Address × AccountWrite) × List (Address × U256 × U256) :=
  (out.result, out.accountWrites.filter fun write => write.1 ≠ bene, out.storageWrites)

/-- The results, the writes of every transaction and the beneficiary's final account are those
of the sequential execution. -/
structure Batch.Exact (c : Batch) (cb : DeferredCoinbase) (s : State)
    (output : ParallelExecutionOutput) : Prop where
  results : output.results = c.sequentialExecute.results
  writes : ∀ i < c.txs.length, (s.outputs i).map (TxOutputInternal.effects cb.bene) =
    some (((c.block none).seqOutput i).effects cb.bene)
  beneficiary : c.base.accountAfter output.stateChanges cb.bene =
    c.base.accountAfter c.sequentialExecute.stateChanges cb.bene

namespace Overlay

variable {bene address : Address} {out out' : TxOutputInternal}

theorem foldl_applyAccount_filter (hne : address ≠ bene) (writes : List (Address × AccountWrite))
    (v : Overlay) : (writes.filter fun write => write.1 ≠ bene).foldl (applyAccount address) v =
      writes.foldl (applyAccount address) v := by
  induction writes generalizing v with
  | nil => rfl
  | cons write writes ih =>
    rw [filter_cons, foldl_cons]
    split
    · exact ih _
    · next hbene =>
      have hskip : v.applyAccount address write = v := by
        have : write.1 ≠ address := by simpa [← not_not.mp (by simpa using hbene)] using hne.symm
        rw [applyAccount, if_neg this]
      rw [hskip]
      exact ih v

/-- Outputs of the same effects write the same to every account but that of `bene`. -/
theorem apply_congr (hne : address ≠ bene) (h : out.effects bene = out'.effects bene)
    (v : Overlay) : v.apply address out = v.apply address out' := by
  simp only [TxOutputInternal.effects, Prod.mk.injEq] at h
  obtain ⟨-, haccounts, hstorage⟩ := h
  rw [apply, apply, ← foldl_applyAccount_filter hne, haccounts, foldl_applyAccount_filter hne,
    hstorage]

/-- The overlays differ in the account alone. -/
def AlikeSlots (v v' : Overlay) : Prop := v.wiped = v'.wiped ∧ v.slots = v'.slots

theorem AlikeSlots.applySlots {v v' : Overlay} (h : v.AlikeSlots v')
    (writes : List (Address × U256 × U256)) : (writes.foldl (applySlot address) v).AlikeSlots
      (writes.foldl (applySlot address) v') := by
  induction writes generalizing v v' with
  | nil => exact h
  | cons write writes ih =>
    refine ih ?_
    rw [applySlot, applySlot]
    split
    · exact ⟨h.1, by rw [writeSlot, writeSlot, h.2]⟩
    · exact h

theorem account_applySlots (writes : List (Address × U256 × U256)) (v : Overlay) :
    (writes.foldl (applySlot address) v).account = v.account := by
  induction writes generalizing v with
  | nil => rfl
  | cons write writes ih =>
    rw [foldl_cons, ih, applySlot]
    split <;> rfl

end Overlay

theorem TxOutputInternal.beneDelta_published (out : TxOutputInternal) :
    out.published.beneDelta = out.beneDelta := by
  have hframe : ∀ l : List Access, (∀ value, .delta value ∉ l) →
      (l.foldl Slice.access .empty).beneDelta = none := by
    intro l hl
    refine List.foldlRecOn (motive := fun sl : Slice => sl.beneDelta = none) l _ rfl ?_
    intro sl hsl a ha
    cases a with
    | delta value => exact absurd ha (hl value)
    | _ => exact hsl
  rw [published, accesses, foldl_append]
  cases hdelta : out.beneDelta with
  | some value => rfl
  | none =>
    refine hframe _ fun value hvalue => ?_
    simp only [mem_append, mem_flatMap] at hvalue
    rcases hvalue with ⟨⟨address, write⟩, -, h⟩ | ⟨write, -, h⟩
    · cases write <;> simp [accountAccesses] at h
    · simp [storageAccesses] at h

theorem accountAfter_assemble (base : BaseDb) (outputs : List TxOutputInternal)
    (address : Address) : base.accountAfter (assemble outputs).stateChanges address =
      (Overlay.of address outputs).account.getD (base.basic address) := by
  have hreflects := reflects_assemble outputs address
  rw [BaseDb.accountAfter]
  cases hentry : (assemble outputs).stateChanges address with
  | none =>
    rw [hentry] at hreflects
    rw [show Overlay.of address outputs = .untouched from hreflects]
    rfl
  | some a =>
    rw [hentry] at hreflects
    obtain ⟨ha, -⟩ := hreflects
    cases haccount : (Overlay.of address outputs).account with
    | none =>
      obtain ⟨-, hlive, huntouched⟩ := ha.unwritten haccount
      simp [hlive, huntouched]
    | some written =>
      cases written with
      | none => simp [ha.destroyed haccount]
      | some info =>
        obtain ⟨hinfo, hlive, htouched⟩ := ha.live info haccount
        simp [hinfo, hlive, htouched]

def DeferredCoinbase.credited (cb : DeferredCoinbase) (sum : U256) : Option AccountInfo :=
  if sum = 0 then cb.base
  else
    let info := cb.base.getD .empty
    some { info with balance := satAdd256 info.balance sum }

theorem DeferredCoinbase.results_materialize (cb : DeferredCoinbase) (sum : U256)
    (output : ParallelExecutionOutput) : (cb.materialize sum output).results = output.results := by
  rw [materialize]
  split <;> rfl

theorem accountAfter_materialize {base : BaseDb} {cb : DeferredCoinbase}
    (hbase : cb.base = base.basic cb.bene) {outputs : List TxOutputInternal}
    (hquiet : (Overlay.of cb.bene outputs).account = none) (sum : U256) :
    base.accountAfter (cb.materialize sum (assemble outputs)).stateChanges cb.bene =
      cb.credited sum := by
  rw [DeferredCoinbase.materialize, DeferredCoinbase.credited]
  split
  · rw [accountAfter_assemble, hquiet, hbase]
    rfl
  · have hlive := ((reflects_assemble outputs cb.bene).getD.unwritten hquiet).2.1
    simp [BaseDb.accountAfter, hlive]

namespace Block

variable (b : Block) (i : ℕ) (address : Address)

def overlay : Overlay := .of address ((List.range i).map b.seqOutput)

theorem overlay_zero : b.overlay 0 address = .untouched := rfl

theorem overlay_succ :
    b.overlay (i + 1) address = (b.overlay i address).apply address (b.seqOutput i) := by
  simp [overlay, Overlay.of, range_succ]

theorem seqMemory_read :
    (b.seqMemory i).readAccount i address = (b.overlay i address).account ∧
      ∀ slot, (b.seqMemory i).readStorage i address slot = (b.overlay i address).slot slot := by
  have hmemory : ∀ j < i, b.seqMemory i j = memoryOf ((List.range i).map b.seqOutput) j := by
    intro j hj
    rw [b.seqMemory_of_lt hj]
    simp [memoryOf, hj]
  have hspec := memoryOf_spec ((List.range i).map b.seqOutput) address
  rw [length_map, length_range] at hspec
  obtain ⟨haccount, hslots⟩ := read_congr hmemory address
  exact ⟨haccount.trans hspec.1, fun slot => (hslots slot).trans (hspec.2 slot)⟩

theorem exec_outcome (mv : MvMemory) (prog : Prog) : (b.exec mv i prog).2 = prog.outcome
    (fun address => if b.blind address then b.base.basic address else b.account mv i address)
    fun address slot => (mv.readStorage i address slot).getD (b.base.storage address slot) := by
  induction prog with
  | done outcome => rfl
  | basic address next ih =>
    rw [exec, Prog.outcome]
    split
    · exact ih _
    · exact ih _
  | storage address slot next ih =>
    exact ih _

end Block

/-- The outputs of a transaction that credits the beneficiary, deferred and sequential: the credit
is in the delta of the one and in the last write of the other. -/
structure Matches (cb : DeferredCoinbase) (info : AccountInfo) (credit : Option U256)
    (out out' : TxOutputInternal) : Prop where
  effects_eq : out.effects cb.bene = out'.effects cb.bene
  delta_eq : out.beneDelta = credit.map fun amount =>
    satSub ((cb.base.getD .empty).credit amount).balance (cb.base.getD .empty).balance
  quiet : ∀ v, out.accountWrites.foldl (Overlay.applyAccount cb.bene) v = v
  written : ∀ v, out'.accountWrites.foldl (Overlay.applyAccount cb.bene) v =
    credit.elim v fun amount => v.writeAccount (.updated (info.credit amount))

section Output

variable {cb : DeferredCoinbase} {info : AccountInfo} {credit : Option U256}
  {out out' : TxOutputInternal}

theorem Matches.other (h : Matches cb info credit out out') {write : Address × AccountWrite}
    (hne : write.1 ≠ cb.bene) (slots : List (Address × U256 × U256)) :
    Matches cb info credit
      { out with accountWrites := out.accountWrites ++ [write]
                 storageWrites := out.storageWrites ++ slots }
      { out' with accountWrites := out'.accountWrites ++ [write]
                  storageWrites := out'.storageWrites ++ slots } := by
  obtain ⟨heffects, hdelta, hquiet, hwritten⟩ := h
  simp only [TxOutputInternal.effects, Prod.mk.injEq] at heffects
  obtain ⟨hresult, haccounts, hslots⟩ := heffects
  refine ⟨?_, hdelta, fun v => ?_, fun v => ?_⟩
  · simp only [TxOutputInternal.effects, filter_append, hresult, haccounts, hslots]
  · rw [foldl_append, hquiet, foldl_cons, foldl_nil, Overlay.applyAccount, if_neg hne]
  · rw [foldl_append, hwritten, foldl_cons, foldl_nil, Overlay.applyAccount, if_neg hne]

theorem Matches.credited (h : Matches cb info credit out out') (amount : U256)
    (slots : List (Address × U256 × U256)) :
    Matches cb info (some amount)
      { out with beneDelta := some (satSub ((cb.base.getD .empty).credit amount).balance
                   (cb.base.getD .empty).balance)
                 storageWrites := out.storageWrites ++ slots }
      { out' with accountWrites := out'.accountWrites ++ [(cb.bene, .updated (info.credit amount))]
                  storageWrites := out'.storageWrites ++ slots } := by
  obtain ⟨heffects, -, hquiet, hwritten⟩ := h
  simp only [TxOutputInternal.effects, Prod.mk.injEq] at heffects
  obtain ⟨hresult, haccounts, hslots⟩ := heffects
  refine ⟨?_, rfl, hquiet, fun v => ?_⟩
  · simp only [TxOutputInternal.effects, hresult, haccounts, hslots]
    simp
  · rw [foldl_append, hwritten, foldl_cons, Overlay.applyAccount]
    cases credit <;> simp [Overlay.writeAccount, AccountWrite.wipes]

/-- One entry of the post-state, unless it invalidates the deferred output. -/
theorem Matches.add (h : out.deferredBeneInvalidated = false → Matches cb info credit out out')
    (entry : Address × EvmAccount)
    (hvalid : (out.addAccount (some cb)
      (EvmAccount.creditTo cb.bene (cb.base.getD .empty) entry)).deferredBeneInvalidated = false) :
    Matches cb info (EvmAccount.creditOf cb.bene credit entry)
      (out.addAccount (some cb) (EvmAccount.creditTo cb.bene (cb.base.getD .empty) entry))
      (out'.addAccount none (EvmAccount.creditTo cb.bene info entry)) := by
  obtain ⟨address, account⟩ := entry
  rw [EvmAccount.creditTo] at hvalid ⊢
  rw [EvmAccount.creditOf, EvmAccount.creditTo]
  by_cases hbene : address = cb.bene
  · subst hbene
    simp only [if_true, true_and, TxOutputInternal.addAccount, DeferredCoinbase.extractDelta,
      AccountInfo.credit, Option.filter_some, decide_true] at hvalid ⊢
    split at hvalid
    · next htouched =>
      rw [if_pos htouched, if_pos htouched, if_neg htouched]
      exact h hvalid
    · next htouched =>
      rw [if_neg htouched, if_neg htouched, if_pos (not_not.mp htouched)]
      split at hvalid
      · cases hvalid
      · next hlive =>
        split at hvalid
        · cases hvalid
        · next hold =>
          rw [if_neg hlive, if_neg hlive, if_neg hold, if_neg hold]
          exact (h hvalid).credited _ _
  · have hother : ¬ cb.bene = address := fun heq => hbene heq.symm
    simp only [hbene, hother, if_false, TxOutputInternal.addAccount,
      Option.filter_some, decide_false, Bool.false_eq_true] at hvalid ⊢
    split at hvalid
    · next htouched =>
      rw [if_pos htouched, if_pos htouched]
      exact h hvalid
    · next htouched =>
      rw [if_neg htouched, if_neg htouched]
      split at hvalid
      · next hdead =>
        rw [if_pos hdead, if_pos hdead]
        have hdestroyed : (address, AccountWrite.destroyed).1 ≠ cb.bene := hbene
        simpa using (h hvalid).other hdestroyed []
      · next hlive =>
        rw [if_neg hlive, if_neg hlive]
        exact (h hvalid).other hbene _

theorem Matches.foldl (state : List (Address × EvmAccount))
    (h : out.deferredBeneInvalidated = false → Matches cb info credit out out')
    (hvalid : ((state.map (EvmAccount.creditTo cb.bene (cb.base.getD .empty))).foldl
      (.addAccount (some cb)) out).deferredBeneInvalidated = false) :
    Matches cb info (state.foldl (EvmAccount.creditOf cb.bene) credit)
      ((state.map (EvmAccount.creditTo cb.bene (cb.base.getD .empty))).foldl
        (.addAccount (some cb)) out)
      ((state.map (EvmAccount.creditTo cb.bene info)).foldl (.addAccount none) out') := by
  induction state generalizing credit out out' with
  | nil => exact h hvalid
  | cons entry state ih => exact ih (fun hvalid => .add h entry hvalid) hvalid

theorem matches_outputOf (reads reads' : List ReadEntry) (unseen : Option ResultAndState)
    (hvalid : (outputOf (some cb) reads
      (unseen.map (·.creditTo cb.bene (cb.base.getD .empty)))).deferredBeneInvalidated = false) :
    Matches cb info (unseen.bind (·.credit cb.bene))
      (outputOf (some cb) reads (unseen.map (·.creditTo cb.bene (cb.base.getD .empty))))
      (outputOf none reads' (unseen.map (·.creditTo cb.bene info))) := by
  cases unseen with
  | none => exact ⟨rfl, rfl, fun _ => rfl, fun _ => rfl⟩
  | some r => exact .foldl r.state (fun _ => ⟨rfl, rfl, fun _ => rfl, fun _ => rfl⟩) hvalid

end Output

namespace Batch

variable {c : Batch}

@[simp] theorem length_block (coinbase : Option DeferredCoinbase) :
    (c.block coinbase).txs.length = c.txs.length := by simp [block]

variable (c)

def deferred : DeferredCoinbase := ⟨c.beneficiary, c.base.basic c.beneficiary⟩

theorem deferred_bene : c.deferred.bene = c.beneficiary := rfl

abbrev found (i : ℕ) : Option AccountInfo := c.accountsAt i c.beneficiary

/-- Transaction `i` does the same in the two executions, but for the beneficiary's account. -/
abbrev MatchesAt (i : ℕ) : Prop :=
  Matches c.deferred ((c.found i).getD .empty) (c.credit i)
    ((c.block (some c.deferred)).seqOutput i) ((c.block none).seqOutput i)

variable {c} {i : ℕ}

theorem accountsAt_eq (i : ℕ) (address : Address) : c.accountsAt i address =
    ((c.block none).overlay i address).account.getD (c.base.basic address) := by
  rw [accountsAt, Block.account, (Block.seqMemory_read ..).1]
  rfl

theorem seqOutput_sequential (i : ℕ) : ∃ reads, (c.block none).seqOutput i =
    outputOf none reads (((c.block none).tx i).outcome (c.accountsAt i) (c.slotsAt i)) := by
  exact ⟨_, congrArg (outputOf _ _) (Block.exec_outcome ..)⟩

theorem credits_succ (i : ℕ) : c.credits (i + 1) = c.credits i + ((c.credit i).getD 0).toNat := by
  simp [credits, range_succ]

theorem credits_mono {i j : ℕ} (h : i ≤ j) : c.credits i ≤ c.credits j :=
  monotone_nat_of_le_succ (fun k => by rw [credits_succ]; omega) h

theorem MatchesAt.found_succ (h : c.MatchesAt i) : c.found (i + 1) =
    (c.credit i).elim (c.found i) fun amount => some (((c.found i).getD .empty).credit amount) := by
  have hwritten := h.written ((c.block none).overlay i c.beneficiary)
  rw [deferred_bene] at hwritten
  rw [found, accountsAt_eq, Block.overlay_succ, Overlay.apply, Overlay.account_applySlots, hwritten]
  cases c.credit i with
  | none => exact (accountsAt_eq ..).symm
  | some amount => rfl

section Prefix

variable (h : ∀ j < i, c.MatchesAt j)
include h

theorem overlay_of_ne {address : Address} (hne : address ≠ c.beneficiary) :
    (c.block (some c.deferred)).overlay i address = (c.block none).overlay i address := by
  induction i with
  | zero => rw [Block.overlay_zero, Block.overlay_zero]
  | succ i ih =>
    rw [Block.overlay_succ, Block.overlay_succ, ih fun j hj => h j (by omega)]
    exact Overlay.apply_congr hne (h i (by omega)).effects_eq _

theorem alikeSlots_overlay : ((c.block (some c.deferred)).overlay i c.beneficiary).AlikeSlots
    ((c.block none).overlay i c.beneficiary) := by
  induction i with
  | zero =>
    rw [Block.overlay_zero, Block.overlay_zero]
    exact ⟨rfl, rfl⟩
  | succ i ih =>
    obtain ⟨heffects, -, hquiet, hwritten⟩ := h i (by omega)
    have hstorage : ((c.block (some c.deferred)).seqOutput i).storageWrites =
        ((c.block none).seqOutput i).storageWrites := congrArg (·.2.2) heffects
    rw [Block.overlay_succ, Block.overlay_succ, Overlay.apply, Overlay.apply, hstorage]
    refine Overlay.AlikeSlots.applySlots ?_ _
    rw [deferred_bene] at hquiet hwritten
    rw [hquiet, hwritten]
    obtain ⟨hwiped, hslots⟩ := ih fun j hj => h j (by omega)
    cases c.credit i with
    | none => exact ⟨hwiped, hslots⟩
    | some amount =>
      constructor
      · simp [Overlay.writeAccount, AccountWrite.wipes, hwiped]
      · simp [Overlay.writeAccount, AccountWrite.wipes, hslots]

/-- The deferred execution finds the same accounts, and the beneficiary of the block's start. -/
theorem accounts_eq :
    (fun address => if (c.block (some c.deferred)).blind address then c.base.basic address
      else (c.block (some c.deferred)).account ((c.block (some c.deferred)).seqMemory i) i
        address) =
    Function.update (c.accountsAt i) c.beneficiary (c.base.basic c.beneficiary) := by
  funext address
  by_cases hbene : address = c.beneficiary
  · subst hbene
    simp [Block.blind, block, deferred]
  · have hseen : (c.block (some c.deferred)).blind address = false := by
      simpa [Block.blind, block, deferred] using fun heq => hbene heq.symm
    rw [hseen, update_of_ne hbene, accountsAt_eq, ← overlay_of_ne h hbene, Block.account, (Block.seqMemory_read ..).1]
    rfl

theorem slots_eq : (fun address slot =>
      (((c.block (some c.deferred)).seqMemory i).readStorage i address slot).getD
        (c.base.storage address slot)) = c.slotsAt i := by
  funext address slot
  have hslot : ((c.block (some c.deferred)).overlay i address).slot slot =
      ((c.block none).overlay i address).slot slot := by
    by_cases hbene : address = c.beneficiary
    · subst hbene
      obtain ⟨hwiped, hslots⟩ := alikeSlots_overlay h
      rw [Overlay.slot, Overlay.slot, hwiped, hslots]
    · rw [overlay_of_ne h hbene]
  rw [slotsAt, (Block.seqMemory_read ..).2, (Block.seqMemory_read ..).2, hslot]

theorem seqOutput_deferred : ∃ reads, (c.block (some c.deferred)).seqOutput i =
    outputOf (some c.deferred) reads (((c.block none).tx i).outcome
      (Function.update (c.accountsAt i) c.beneficiary (c.base.basic c.beneficiary))
      (c.slotsAt i)) := by
  rw [← accounts_eq h, ← slots_eq h]
  exact ⟨_, congrArg (outputOf _ _) (Block.exec_outcome ..)⟩

theorem quiet_overlay :
    ((c.block (some c.deferred)).overlay i c.beneficiary).account = none := by
  induction i with
  | zero => rfl
  | succ i ih =>
    have hquiet := (h i (by omega)).quiet
    rw [deferred_bene] at hquiet
    rw [Block.overlay_succ, Overlay.apply, Overlay.account_applySlots, hquiet]
    exact ih fun j hj => h j (by omega)

/-- The beneficiary is as it was, or has been credited. -/
theorem found_cases :
    c.credits i = 0 ∧ c.found i = c.base.basic c.beneficiary ∨
    (∃ j < i, c.credit j ≠ none) ∧ c.found i = some
      (((c.base.basic c.beneficiary).getD .empty).credit (BitVec.ofNat 256 (c.credits i))) := by
  induction i with
  | zero => exact .inl ⟨rfl, rfl⟩
  | succ i ih =>
    rw [(h i (by omega)).found_succ, credits_succ]
    cases hcredit : c.credit i with
    | none =>
      rcases ih fun j hj => h j (by omega) with ⟨hzero, hfound⟩ | ⟨⟨j, hj, hsome⟩, hfound⟩
      · exact .inl ⟨by simpa using hzero, hfound⟩
      · exact .inr ⟨⟨j, by omega, hsome⟩, by simpa using hfound⟩
    | some amount =>
      refine .inr ⟨⟨i, by omega, by simp [hcredit]⟩, ?_⟩
      rcases ih fun j hj => h j (by omega) with ⟨hzero, hfound⟩ | ⟨-, hfound⟩
      · simp [hfound, hzero]
      · simp [hfound, AccountInfo.credit, BitVec.add_assoc, BitVec.ofNat_add]

theorem found_getD : (c.found i).getD .empty =
    ((c.base.basic c.beneficiary).getD .empty).credit (BitVec.ofNat 256 (c.credits i)) := by
  rcases found_cases h with ⟨hzero, hfound⟩ | ⟨-, hfound⟩
  · simp [hfound, hzero, AccountInfo.credit]
  · simp [hfound]

end Prefix

theorem Deferrable.onlyCredits_tx (h : c.Deferrable) (hi : i < c.txs.length) :
    ((c.block none).tx i).OnlyCredits c.beneficiary := by
  simpa [Block.tx, block, hi] using h.onlyCredits _ (getElem_mem hi)

theorem Deferrable.room (h : c.Deferrable) (hi : i < c.txs.length) {amount : U256}
    (hamount : amount ∈ c.credit i) : ((c.base.basic c.beneficiary).getD .empty).balance.toNat +
      c.credits i + amount.toNat < 2 ^ 256 := by
  have hfits := h.fits
  have hle : c.credits (i + 1) ≤ c.credits c.txs.length := credits_mono hi
  rw [credits_succ, Option.mem_def.mp hamount, Option.getD_some] at hle
  omega

/-- The delta is the credit, which is the balance found in the post-state less the one shown. -/
theorem MatchesAt.beneDelta_eq (hmatches : c.MatchesAt i) (h : c.Deferrable)
    (hi : i < c.txs.length) :
    ((c.block (some c.deferred)).seqOutput i).beneDelta = c.credit i := by
  rw [hmatches.delta_eq]
  cases hcredit : c.credit i with
  | none => rfl
  | some amount =>
    have hroom := h.room hi hcredit
    rw [Option.map_some, Option.some.injEq]
    apply BitVec.eq_of_toNat_eq
    simp only [satSub, AccountInfo.credit, deferred, BitVec.toNat_ofNat, BitVec.toNat_add]
    omega

section Deferrable

variable (heoa : ((c.base.basic c.beneficiary).getD .empty).codeHash = KECCAK_EMPTY)
  (hdeferrable : c.Deferrable)
  (hvalid : ∀ i < c.txs.length,
    ((c.block (some c.deferred)).seqOutput i).deferredBeneInvalidated = false)
include heoa hdeferrable hvalid

theorem matchesAt (i : ℕ) (hi : i < c.txs.length) : c.MatchesAt i := by
  induction i using Nat.strong_induction_on with
  | _ i ih =>
    have hbefore : ∀ j < i, c.MatchesAt j := fun j hj => ih j hj (by omega)
    have honly := hdeferrable.onlyCredits_tx hi (c.accountsAt i) (c.slotsAt i)
    have hroom : ∀ amount ∈ c.credit i, _ := fun _ => hdeferrable.room hi
    have hbase : _ = (c.unseen i).map _ := honly (c.base.basic c.beneficiary) heoa
      fun amount hamount => by
        have := hroom amount hamount
        omega
    have hfound : _ = (c.unseen i).map _ :=
      honly (c.found i) (by rw [found_getD hbefore]; exact heoa)
      fun amount hamount => by
        have := hroom amount hamount
        rw [found_getD hbefore]
        simp only [AccountInfo.credit, BitVec.toNat_add, BitVec.toNat_ofNat]
        omega
    rw [update_eq_self] at hfound
    obtain ⟨reads, hdeferred⟩ := seqOutput_deferred hbefore
    obtain ⟨reads', hsequential⟩ := c.seqOutput_sequential i
    rw [hbase] at hdeferred
    rw [hfound] at hsequential
    have hinvalid := hvalid i hi
    rw [MatchesAt, hsequential]
    rw [hdeferred] at hinvalid ⊢
    exact matches_outputOf reads reads' (c.unseen i) hinvalid

/-- The sum of the deltas is what the sequential execution credits. -/
theorem sumBeneDeltas_eq {mv : MvMemory} (hmv : ∀ i < c.txs.length, (mv i).beneDelta =
      ((c.block (some c.deferred)).seqOutput i).beneDelta) :
    mv.sumBeneDeltas c.txs.length = BitVec.ofNat 256 (c.credits c.txs.length) := by
  have hsum : ∀ k ≤ c.txs.length, mv.sumBeneDeltas k = BitVec.ofNat 256 (c.credits k) := by
    intro k
    induction k with
    | zero => exact fun _ => rfl
    | succ k ih =>
      intro hk
      have hdelta := (matchesAt heoa hdeferrable hvalid k hk).beneDelta_eq hdeferrable hk
      rw [MvMemory.sumBeneDeltas, range_succ, foldl_append, foldl_cons, foldl_nil,
        ← MvMemory.sumBeneDeltas, ih (by omega), hmv k hk, hdelta, credits_succ]
      cases hcredit : c.credit k with
      | none => rfl
      | some amount =>
        have hroom := hdeferrable.room hk hcredit
        apply BitVec.eq_of_toNat_eq
        simp only [Option.elim_some, Option.getD_some, satAdd256, BitVec.toNat_ofNat]
        omega
  exact hsum _ le_rfl

/-- The beneficiary's account of the start, credited once, is the sequential one. -/
theorem credited_eq_found : c.deferred.credited (BitVec.ofNat 256 (c.credits c.txs.length)) =
    c.found c.txs.length := by
  have hfits := hdeferrable.fits
  have hmatches := matchesAt heoa hdeferrable hvalid
  rw [DeferredCoinbase.credited]
  rcases found_cases hmatches with ⟨hzero, hfound⟩ | ⟨htouched, hfound⟩
  · rw [hzero, hfound]
    rfl
  · rw [hfound]
    by_cases hzero : c.credits c.txs.length = 0
    · obtain ⟨info, hinfo⟩ := Option.ne_none_iff_exists'.mp (hdeferrable.present hzero htouched)
      simp [hzero, deferred, hinfo, AccountInfo.credit]
    · have hne : BitVec.ofNat 256 (c.credits c.txs.length) ≠ 0 := by
        intro heq
        have hnat := congrArg BitVec.toNat heq
        simp only [BitVec.toNat_ofNat, BitVec.ofNat_eq_ofNat] at hnat
        omega
      have hsum : satAdd256 ((c.base.basic c.beneficiary).getD .empty).balance
          (BitVec.ofNat 256 (c.credits c.txs.length)) =
            ((c.base.basic c.beneficiary).getD .empty).balance +
              BitVec.ofNat 256 (c.credits c.txs.length) := by
        apply BitVec.eq_of_toNat_eq
        simp only [satAdd256, BitVec.toNat_ofNat, BitVec.toNat_add]
        omega
      rw [if_neg hne]
      simp only [deferred, hsum, AccountInfo.credit]

end Deferrable

theorem deferred_of_plan {enabled : Bool} {cb : DeferredCoinbase}
    (hplan : c.plan enabled = .defer cb) : cb = c.deferred ∧
      ((c.base.basic c.beneficiary).getD .empty).codeHash = KECCAK_EMPTY := by
  rw [plan] at hplan
  split at hplan
  · cases hplan
  · dsimp only at hplan
    split at hplan
    · cases hplan
    · next hcond =>
      cases hplan
      refine ⟨rfl, ?_⟩
      simp only [Bool.or_eq_true, not_or] at hcond
      cases hbase : c.base.basic c.beneficiary with
      | none => rfl
      | some info => simpa [hbase] using hcond.2

theorem parallelExecute_of_done {threshold : ℕ} {enabled : Bool} {schedule : List ℕ}
    {cb : DeferredCoinbase}
    (hplan : c.plan enabled = .defer cb) (hmany : threshold < c.txs.length)
    (hfit : c.txs.length < 2 ^ 32 - 1)
    (hdone : (c.block (some cb)).AllDone ((c.block (some cb)).run schedule))
    (hvalid : ¬ c.Invalidated ((c.block (some cb)).run schedule))
    {f : ℕ → TxOutputInternal}
    (houtputs : ∀ i < c.txs.length,
      ((c.block (some cb)).run schedule).outputs i = some (f i)) :
    c.parallelExecute threshold enabled schedule =
      .ok (cb.materialize (((c.block (some cb)).run schedule).mv.sumBeneDeltas c.txs.length)
        (assemble ((List.range c.txs.length).map f))) := by
  rw [parallelExecute, if_neg (by omega), if_neg (by omega), if_neg (by omega), hplan]
  dsimp only
  rw [executeWith, if_neg (not_not.mpr hdone), if_neg (fun h => hvalid h.2),
    buildOutput_of_outputs houtputs]
  rfl

end Batch

def paying (bene : Address) (fee : U256) : Prog :=
  .basic bene fun info => .done (some ⟨⟨21000, true, []⟩,
    [(bene, ⟨(info.getD .empty).credit fee, true, false, false, []⟩)]⟩)

/-- Nine transactions that each pay a fee of seven. -/
def payers : Batch where
  txs := List.replicate 9 (1, paying 9 7)
  base := ⟨fun _ => none, fun _ _ => 0⟩
  beneficiary := 9

theorem paying_onlyCredits (bene : Address) (fee : U256) : (paying bene fee).OnlyCredits bene := by
  intro account slot found unseen _ _
  simp [unseen, paying, Prog.outcome, ResultAndState.creditTo, EvmAccount.creditTo,
    AccountInfo.credit, AccountInfo.empty]

/-- The second of nine transactions copies the beneficiary's balance to account 3. -/
def feeReader : Batch :=
  { payers with txs := payers.txs.set 1 (2, copying 9 3) }

end N42.Stm
