import N42.Stm.Board

/-!
What holds of the multi-version memory and the outputs while workers run.

Below the validated prefix both stand still, and a validation compares against the memory the
sequential execution would have left.
-/

namespace N42.Stm

open List Function

attribute [local simp] State.goto State.setSlice

def heldBy : Option TxOutputInternal → Slice
  | none => .empty
  | some out => out.published

/-- Every entry of a slice stands under one of the keys. -/
structure Slice.Covered (sl : Slice) (keys : List WriteKey) : Prop where
  accounts : ∀ address, sl.accounts address ≠ none → .account address ∈ keys
  storage : ∀ address slot, sl.storage address slot ≠ none → .storage address slot ∈ keys
  wipes : ∀ address, sl.wipes address = true → .storageWipe address ∈ keys

namespace Slice

variable {sl : Slice} {keys : List WriteKey}

theorem Covered.remove {key : WriteKey} (h : sl.Covered (key :: keys)) :
    (sl.remove key).Covered keys := by
  obtain ⟨haccounts, hstorage, hwipes⟩ := h
  constructor
  all_goals cases key
  all_goals simp only [Slice.remove, update_apply]
  all_goals grind -ring -linarith

theorem Covered.eq_empty (h : sl.Covered []) (hindex : sl.txWrites = none)
    (hdelta : sl.beneDelta = none) : sl = .empty := by
  obtain ⟨accounts, storage, wipes, txWrites, beneDelta⟩ := sl
  obtain ⟨haccounts, hstorage, hwipes⟩ := h
  subst hindex hdelta
  have h₁ : accounts = fun _ => none := by
    funext address
    by_contra hne
    exact absurd (haccounts address hne) (by simp)
  have h₂ : storage = fun _ _ => none := by
    funext address slot
    by_contra hne
    exact absurd (hstorage address slot hne) (by simp)
  have h₃ : wipes = fun _ => false := by
    funext address
    by_contra hne
    exact absurd (hwipes address (by simpa using hne)) (by simp)
  rw [h₁, h₂, h₃]
  rfl

def Noted (sl : Slice) : Prop := sl.Covered (sl.txWrites.getD [])

theorem Noted.empty : Noted .empty :=
  ⟨fun _ h => absurd rfl h, fun _ _ h => absurd rfl h, fun _ h => by cases h⟩

theorem Noted.account (h : sl.Noted) (write : Address × AccountWrite) :
    ((accountAccesses write).foldl access sl).Noted := by
  obtain ⟨haccounts, hstorage, hwipes⟩ := h
  rw [accountAccesses]
  split
  all_goals
    constructor
    all_goals simp only [cons_append, nil_append, foldl_cons, foldl_nil,
      access]
    all_goals grind -ring -linarith

theorem Noted.storageWrite (h : sl.Noted) (write : Address × U256 × U256) :
    ((storageAccesses write).foldl access sl).Noted := by
  obtain ⟨haccounts, hstorage, hwipes⟩ := h
  constructor
  all_goals simp only [storageAccesses, foldl_cons, foldl_nil, access,
    update_apply]
  all_goals grind -ring -linarith

theorem noted_published (out : TxOutputInternal) : out.published.Noted := by
  have haccounts : ∀ writes : List (Address × AccountWrite), ∀ sl : Slice, sl.Noted →
      ((writes.flatMap accountAccesses).foldl access sl).Noted := by
    intro writes
    induction writes with
    | nil => exact fun _ h => h
    | cons write writes ih =>
      intro sl h
      rw [flatMap_cons, foldl_append]
      exact ih _ (h.account write)
  have hstorage : ∀ writes : List (Address × U256 × U256), ∀ sl : Slice, sl.Noted →
      ((writes.flatMap storageAccesses).foldl access sl).Noted := by
    intro writes
    induction writes with
    | nil => exact fun _ h => h
    | cons write writes ih =>
      intro sl h
      exact ih _ (h.storageWrite write)
  rw [TxOutputInternal.published, TxOutputInternal.accesses, foldl_append,
    foldl_append]
  have hwritten := hstorage out.storageWrites _ (haccounts out.accountWrites _ Noted.empty)
  cases out.beneDelta with
  | none => exact hwritten
  | some delta => exact ⟨hwritten.accounts, hwritten.storage, hwritten.wipes⟩

theorem noted_heldBy (out : Option TxOutputInternal) : (heldBy out).Noted := by
  cases out with
  | none => exact Noted.empty
  | some out => exact noted_published out

end Slice

theorem latest_congr {α : Type} {f g : ℕ → Option α} {reader : ℕ}
    (h : ∀ j < reader, f j = g j) : latest f reader = latest g reader := by
  induction reader with
  | zero => rfl
  | succ reader ih =>
    rw [latest, latest, h reader (Nat.lt_succ_self _), ih fun j hj => h j (by omega)]

section

variable {mv mv' : MvMemory} {i : ℕ} (h : ∀ j < i, mv j = mv' j)

include h

theorem latestSlot_congr (address : Address) (slot : U256) :
    mv.latestSlot i address slot = mv'.latestSlot i address slot :=
  latest_congr fun j hj => by rw [h j hj]

theorem latestWipe_congr (address : Address) : mv.latestWipe i address = mv'.latestWipe i address :=
  congrArg (Option.map Prod.fst) (latest_congr fun j hj => by rw [h j hj])

theorem account_congr (b : Block) (address : Address) :
    b.account mv i address = b.account mv' i address := by
  have hread : mv.readAccount i address = mv'.readAccount i address :=
    congrArg (Option.map Prod.snd) (latest_congr fun j hj => by rw [h j hj])
  rw [Block.account, Block.account, hread]

end

variable {i : ℕ}

namespace Block

variable (b : Block)

theorem seqMemory_of_lt {i j : ℕ} (hj : j < i) : b.seqMemory i j = (b.seqOutput j).published := by
  induction i with
  | zero => omega
  | succ i ih =>
    rcases Nat.lt_succ_iff_lt_or_eq.mp hj with hlt | rfl
    · rw [seqMemory, update_of_ne (by omega), ih hlt]
    · rw [seqMemory, update_self]
      rfl

def Agrees (i : ℕ) (e : ReadEntry) : Prop :=
  match e.key with
  | .account address => e.value = .account (b.account (b.seqMemory i) i address)
  | .storage address slot => e.value = .storage (b.slot
      ((b.seqMemory i).latestSlot i address slot) ((b.seqMemory i).latestWipe i address)
      address slot)

/-- The transaction can have come to `prog` by recording `reads`. -/
inductive Replay (i : ℕ) : List ReadEntry → Prog → Prop where
  | start : Replay i [] (b.tx i)
  | blind {reads : List ReadEntry} {address : Address} {next : Option AccountInfo → Prog}
    (h : Replay i reads (.basic address next)) (hblind : b.blind address = true) :
    Replay i reads (next (b.base.basic address))
  | basic {reads : List ReadEntry} {address : Address} {next : Option AccountInfo → Prog}
    (h : Replay i reads (.basic address next)) (hseen : b.blind address = false)
    (info : Option AccountInfo) :
    Replay i (reads ++ [⟨.account address, .account info⟩]) (next info)
  | storage {reads : List ReadEntry} {address : Address} {slot : U256} {next : U256 → Prog}
    (h : Replay i reads (.storage address slot next)) (value : U256) :
    Replay i (reads ++ [⟨.storage address slot, .storage value⟩]) (next value)

variable {b}

/-- Reads that agree with the sequential execution are its reads. -/
theorem Replay.exec {reads : List ReadEntry} {prog : Prog} (h : b.Replay i reads prog)
    (hagrees : ∀ e ∈ reads, b.Agrees i e) : b.exec (b.seqMemory i) i (b.tx i) =
      (reads ++ (b.exec (b.seqMemory i) i prog).1, (b.exec (b.seqMemory i) i prog).2) := by
  induction h with
  | start => rfl
  | blind h hblind ih => rw [ih hagrees, Block.exec, if_pos hblind]
  | basic h hseen info ih =>
    have hlast := hagrees _ (mem_append_right _ (mem_singleton_self _))
    simp only [Agrees, ReadValue.account.injEq] at hlast
    rw [ih fun e he => hagrees e (mem_append_left _ he), Block.exec,
      if_neg (by simp [hseen]), hlast]
    simp
  | storage h value ih =>
    have hlast := hagrees _ (mem_append_right _ (mem_singleton_self _))
    simp only [Agrees, ReadValue.storage.injEq] at hlast
    rw [ih fun e he => hagrees e (mem_append_left _ he), Block.exec, hlast]
    simp

def Produced (b : Block) (i : ℕ) (out : TxOutputInternal) : Prop :=
  ∃ outcome, b.Replay i out.readSet (.done outcome) ∧
    out = outputOf b.coinbase out.readSet outcome

theorem Produced.eq_seqOutput {out : TxOutputInternal} (h : b.Produced i out)
    (hagrees : ∀ e ∈ out.readSet, b.Agrees i e) : out = b.seqOutput i := by
  obtain ⟨outcome, hreplay, hout⟩ := h
  rw [seqOutput, executeSingleTx, hreplay.exec hagrees]
  simpa [Block.exec] using hout

end Block

theorem readSet_addAccount (coinbase : Option DeferredCoinbase) (out : TxOutputInternal)
    (account : Address × EvmAccount) : (out.addAccount coinbase account).readSet = out.readSet := by
  rw [TxOutputInternal.addAccount]
  split
  · rfl
  · split
    · split
      · rfl
      · split
        · rfl
        · split <;> rfl
    · split <;> rfl

theorem readSet_outputOf (coinbase : Option DeferredCoinbase) (reads : List ReadEntry)
    (outcome : Option ResultAndState) : (outputOf coinbase reads outcome).readSet = reads := by
  cases outcome with
  | none => rfl
  | some r =>
    refine List.foldlRecOn
      (motive := fun out : TxOutputInternal => out.readSet = reads) r.state _ rfl ?_
    exact fun out hout account _ => (readSet_addAccount coinbase out account).trans hout

namespace State

def board (s : State) : Board where
  status := s.status
  execCursor := s.execCursor
  valCursor := s.valCursor
  validatedCount := s.validatedCount
  roles w := (s.workers w).role

theorem board_goto (s : State) (w : ℕ) (pc : Pc) :
    (s.goto w pc).board = s.board.assign w pc.role := by
  have hroles : (fun w' => (update s.workers w pc w').role) =
      update (fun w' => (s.workers w').role) w pc.role := by
    funext w'
    by_cases heq : w' = w
    · subst heq
      simp
    · simp [heq]
  simp only [board, goto, Board.assign, hroles]

theorem inv_assign (s : State) {n m w : ℕ} {role : Role} (hrole : (s.workers w).role = role)
    (h : s.board.Inv n m) : (s.board.assign w role).Inv n m := by
  have hsame : update s.board.roles w role = s.board.roles :=
    hrole ▸ update_eq_self w _
  rwa [Board.assign, hsame]

end State

variable {b : Block} {s : State} {w m : ℕ}

/-- What an executor's position says about the slice of its transaction. -/
def ExecOk (b : Block) (mv : MvMemory) (outputs : ℕ → Option TxOutputInternal) : Pc → Prop
  | .clearDelta i => mv i = heldBy (outputs i)
  | .clearIndex i => mv i = { heldBy (outputs i) with beneDelta := none }
  | .clearKeys i keys =>
    (mv i).txWrites = none ∧ (mv i).beneDelta = none ∧ (mv i).Covered keys
  | .running i prog reads => mv i = .empty ∧ b.Replay i reads prog
  | .readWipe i address slot next reads _ =>
    mv i = .empty ∧ b.Replay i reads (.storage address slot next)
  | .writing i out todo => b.Produced i out ∧
      ∃ written, out.accesses = written ++ todo ∧ mv i = written.foldl Slice.access .empty
  | .storeOutput i out => b.Produced i out ∧ mv i = out.published
  | .finish i => mv i = heldBy (outputs i)
  | _ => True

/-- Slices at rest are those of the outputs, and the executors keep theirs. -/
structure Mem (b : Block) (s : State) : Prop where
  quiet : ∀ i, (∀ w, (s.workers w).role ≠ .executing i) → s.mv i = heldBy (s.outputs i)
  busy : ∀ w, ExecOk b s.mv s.outputs (s.workers w)
  produced : ∀ i out, s.outputs i = some out → b.Produced i out

variable {outputs : ℕ → Option TxOutputInternal} {pc : Pc} {outputs' : ℕ → Option TxOutputInternal}

theorem ExecOk.congr {mv mv' : MvMemory} (h : ExecOk b mv outputs pc)
    (hsame : ∀ i, pc.role = .executing i → mv' i = mv i ∧ outputs' i = outputs i) :
    ExecOk b mv' outputs' pc := by
  cases pc
  all_goals simp only [ExecOk, Pc.role] at *
  all_goals simp_all

theorem ExecOk.of_not_executing {mv : MvMemory} (h : ∀ i, pc.role ≠ .executing i) :
    ExecOk b mv outputs pc := by
  cases pc
  all_goals simp only [ExecOk, Pc.role, ne_eq, Role.executing.injEq, forall_eq'] at *

theorem Mem.goto (h : Mem b s) (hpc : ExecOk b s.mv s.outputs pc) (hleave : ∀ i, (s.workers w).role
      = .executing i → pc.role ≠ .executing i → s.mv i = heldBy (s.outputs i)) :
    Mem b (s.goto w pc) where
  quiet i hnone := by
    have hpcRole : pc.role ≠ .executing i := by simpa using hnone w
    by_cases hw : (s.workers w).role = .executing i
    · exact hleave i hw hpcRole
    · refine h.quiet i fun w' hw' => ?_
      by_cases heq : w' = w
      · exact hw (heq ▸ hw')
      · exact hnone w' (by simpa [heq] using hw')
  busy w' := by
    by_cases heq : w' = w
    · subst heq
      simpa using hpc
    · simpa [heq] using h.busy w'
  produced := h.produced

theorem Mem.write (h : Mem b s) {sl : Slice} (hold : (s.workers w).role = .executing i)
    (halone : ∀ w', (s.workers w').role = .executing i → w' = w) (hrole : pc.role = .executing i)
    (hpc : ExecOk b (update s.mv i sl) s.outputs pc) :
    Mem b ((s.setSlice i sl).goto w pc) where
  quiet j hnone := by
    have hji : j ≠ i := by
      rintro rfl
      exact hnone w (by simpa using hrole)
    have hmv : update s.mv i sl j = s.mv j := update_of_ne hji _ _
    refine hmv.trans (h.quiet j fun w' hw' => ?_)
    by_cases heq : w' = w
    · rw [heq, hold] at hw'
      exact hji (Role.executing.inj hw').symm
    · exact hnone w' (by simpa [heq] using hw')
  busy w' := by
    by_cases heq : w' = w
    · subst heq
      simpa using hpc
    · have hbusy := h.busy w'
      simp only [State.goto, update_of_ne heq]
      refine hbusy.congr fun j hj => ⟨?_, rfl⟩
      refine update_of_ne ?_ _ _
      rintro rfl
      exact heq (halone w' hj)
  produced := h.produced

theorem Mem.store (h : Mem b s) {out : TxOutputInternal} (hold : s.workers w = .storeOutput i out)
    (halone : ∀ w', (s.workers w').role = .executing i → w' = w) :
    Mem b ({ s with outputs := update s.outputs i (some out) }.goto w (.finish i)) := by
  have hbusy := h.busy w
  rw [hold] at hbusy
  obtain ⟨hproduced, hslice⟩ := hbusy
  refine ⟨fun j hnone => ?_, fun w' => ?_, fun j out' hout' => ?_⟩
  · have hji : j ≠ i := by
      rintro rfl
      exact hnone w (by simp [Pc.role])
    have hout : update s.outputs i (some out) j = s.outputs j :=
      update_of_ne hji _ _
    simp only [State.goto, hout]
    refine h.quiet j fun w' hw' => ?_
    by_cases heq : w' = w
    · rw [heq, hold] at hw'
      exact hji (Role.executing.inj hw').symm
    · exact hnone w' (by simpa [heq] using hw')
  · by_cases heq : w' = w
    · subst heq
      simpa [ExecOk, heldBy] using hslice
    · have hbusy := h.busy w'
      simp only [State.goto, update_of_ne heq]
      refine hbusy.congr fun j hj => ⟨rfl, ?_⟩
      refine update_of_ne ?_ _ _
      rintro rfl
      exact heq (halone w' hj)
  · by_cases hji : j = i
    · subst hji
      simp only [State.goto, update_self, Option.some.injEq] at hout'
      exact hout' ▸ hproduced
    · simp only [State.goto, update_of_ne hji] at hout'
      exact h.produced j out' hout'

/-- What a validator has found so far. -/
def CheckOk (b : Block) (outputs : ℕ → Option TxOutputInternal) : Pc → Prop
  | .checking i todo => ∃ out checked, outputs i = some out ∧ out.readSet = checked ++ todo ∧
      ∀ e ∈ checked, b.Agrees i e
  | .checkWipe i entry address slot todo latestSlot => ∃ out checked, outputs i = some out ∧
      out.readSet = checked ++ entry :: todo ∧ (∀ e ∈ checked, b.Agrees i e) ∧
      entry.key = .storage address slot ∧
      latestSlot = (b.seqMemory i).latestSlot i address slot
  | .casValidated i => ∃ out, outputs i = some out ∧ ∀ e ∈ out.readSet, b.Agrees i e
  | _ => True

theorem CheckOk.congr (h : CheckOk b outputs pc)
    (hsame : ∀ i, pc.role = .validating i → outputs' i = outputs i) : CheckOk b outputs' pc := by
  cases pc
  all_goals simp only [CheckOk, Pc.role] at *
  all_goals simp_all

theorem CheckOk.of_not_validating (h : ∀ i, pc.role ≠ .validating i) : CheckOk b outputs pc := by
  cases pc
  all_goals simp only [CheckOk, Pc.role, ne_eq, Role.validating.injEq, forall_eq'] at *

/-- An abort takes back no validated transaction, and rewinds the cursor by one. -/
def Tidy (valCursor : ℕ) : Pc → Prop
  | .abortPush _ invalidated => invalidated = 0
  | .abortLen _ invalidated => invalidated = 0
  | .abortLoad _ invalidated => invalidated = 0
  | .abortRewind i invalidated cur => invalidated = 0 ∧ cur = i + 1
  | .scan j invalidated => invalidated = 0 ∧ valCursor < j
  | .scanCas j invalidated cur => invalidated = 0 ∧ valCursor < j ∧ cur = .executed
  | .scanPush j invalidated => invalidated = 0 ∧ valCursor < j
  | .scanLen j invalidated => invalidated = 0 ∧ valCursor < j
  | .discount invalidated => invalidated = 0
  | _ => True

theorem Tidy.of_not_aborting {valCursor : ℕ} (h : ¬ pc.role.Aborting) : Tidy valCursor pc := by
  cases pc
  all_goals simp [Tidy, Pc.role, Role.Aborting] at *

/-- The state of a run in which `m` transactions are settled. -/
structure Settled (b : Block) (s : State) (m : ℕ) : Prop where
  board : s.board.Inv b.txs.length m
  mem : Mem b s
  tidy : ∀ w, Tidy s.valCursor (s.workers w)
  checks : ∀ w, CheckOk b s.outputs (s.workers w)
  outputs : ∀ j < m, s.outputs j = some (b.seqOutput j)

namespace Settled

theorem init (b : Block) : Settled b .init 0 where
  board := {
    executing := fun _ _ h => by cases h
    alone := fun _ _ _ h => by cases h
    untouched := fun _ _ => rfl
    validated := fun i => ⟨fun h => (by cases h), fun h => (by omega)⟩
    critical := fun _ _ h => by
      rcases h with h | ⟨_, h | h⟩ <;> cases h
    holding := fun _ _ h => by
      rcases h with h | h <;> cases h
    free := fun _ => rfl
    checked := fun _ _ h => by cases h
    counted := ⟨∅, fun _ => by simp [State.board, State.init, Pc.role], rfl⟩ }
  mem := ⟨fun _ _ => rfl, fun _ => trivial, fun _ _ h => by cases h⟩
  tidy _ := trivial
  checks _ := trivial
  outputs j hj := by omega

variable (h : Settled b s m)

include h

theorem quiet_of_status (hstatus : s.status i ≠ .pending) : s.mv i = heldBy (s.outputs i) :=
  h.mem.quiet i fun w hw => hstatus (h.board.executing w i hw).1

/-- Below the settled prefix the memory is that of the sequential execution. -/
theorem mv_eq {j : ℕ} (hj : j < m) : s.mv j = b.seqMemory m j := by
  have hstatus : s.status j = .validated := (h.board.validated j).mpr hj
  rw [h.quiet_of_status (by simp [hstatus]), h.outputs j hj, b.seqMemory_of_lt hj, heldBy]

theorem move {s₁ : State} {m' : ℕ} {pc : Pc}
    (hboard : (s₁.board.assign w pc.role).Inv b.txs.length m')
    (hleave : ∀ i, (s.workers w).role = .executing i → pc.role ≠ .executing i →
      s.mv i = heldBy (s.outputs i))
    (hothers : ∀ w', w' ≠ w → Tidy s₁.valCursor (s.workers w'))
    (hsettled : ∀ j < m', s.outputs j = some (b.seqOutput j))
    (hexec : ExecOk b s.mv s.outputs pc) (htidy : Tidy s₁.valCursor pc)
    (hcheck : CheckOk b s.outputs pc) (hmv : s₁.mv = s.mv := by rfl)
    (hout : s₁.outputs = s.outputs := by rfl) (hworkers : s₁.workers = s.workers := by rfl) :
    Settled b (s₁.goto w pc) m' := by
  have hmem : Mem b s₁ := ⟨fun i hi => by rw [hmv, hout]; exact h.mem.quiet i (hworkers ▸ hi),
    fun w' => by rw [hmv, hout, hworkers]; exact h.mem.busy w',
    fun i out hi => h.mem.produced i out (hout ▸ hi)⟩
  refine ⟨by rwa [State.board_goto], hmem.goto (by rw [hmv, hout]; exact hexec)
    (by rw [hmv, hout, hworkers]; exact hleave), fun w' => ?_, fun w' => ?_, fun j hj => ?_⟩
  · by_cases heq : w' = w
    · subst heq
      simpa using htidy
    · simpa [heq, hworkers] using hothers w' heq
  · by_cases heq : w' = w
    · subst heq
      simpa [hout] using hcheck
    · simpa [heq, hout, hworkers] using h.checks w'
  · simpa [hout] using hsettled j hj

variable {s₁ : State} {pc : Pc}

/-- A worker that is not executing takes on another role. -/
theorem turn (hnot : ∀ i, (s.workers w).role ≠ .executing i)
    (hboard : (s₁.board.assign w pc.role).Inv b.txs.length m) (hexec : ExecOk b s.mv s.outputs pc)
    (htidy : Tidy s.valCursor pc) (hcheck : CheckOk b s.outputs pc)
    (hcursor : s₁.valCursor = s.valCursor := by rfl) (hmv : s₁.mv = s.mv := by rfl)
    (hout : s₁.outputs = s.outputs := by rfl) (hworkers : s₁.workers = s.workers := by rfl) :
    Settled b (s₁.goto w pc) m :=
  h.move hboard (fun i hi => absurd hi (hnot i)) (fun w' _ => hcursor ▸ h.tidy w') h.outputs hexec
    (hcursor ▸ htidy) hcheck hmv hout hworkers

theorem stay (hrole : (s.workers w).role = pc.role) (hexec : ExecOk b s.mv s.outputs pc)
    (htidy : Tidy s.valCursor pc) (hcheck : CheckOk b s.outputs pc)
    (hboard : s₁.board = s.board := by rfl) (hmv : s₁.mv = s.mv := by rfl)
    (hout : s₁.outputs = s.outputs := by rfl) (hworkers : s₁.workers = s.workers := by rfl) :
    Settled b (s₁.goto w pc) m := by
  have hcursor : s₁.valCursor = s.valCursor := congrArg Board.valCursor hboard
  refine h.move ?_ (fun i hi hne => absurd (hrole.symm.trans hi) hne)
    (fun w' _ => hcursor ▸ h.tidy w') h.outputs hexec (hcursor ▸ htidy) hcheck hmv hout hworkers
  rw [hboard]
  exact s.inv_assign hrole h.board

theorem look (hold : (s.workers w).role = .idle) (hrole : pc.role = .idle)
    (hboard : s₁.board = s.board := by rfl) (hmv : s₁.mv = s.mv := by rfl)
    (hout : s₁.outputs = s.outputs := by rfl) (hworkers : s₁.workers = s.workers := by rfl) :
    Settled b (s₁.goto w pc) m :=
  h.stay (hold.trans hrole.symm) (ExecOk.of_not_executing (by simp [hrole]))
    (Tidy.of_not_aborting (by simp [hrole, Role.Aborting]))
    (CheckOk.of_not_validating (by simp [hrole])) hboard hmv hout hworkers

theorem write {sl : Slice} {pc : Pc} (hold : (s.workers w).role = .executing i)
    (hrole : pc.role = .executing i) (hpc : ExecOk b (update s.mv i sl) s.outputs pc) :
    Settled b ((s.setSlice i sl).goto w pc) m := by
  refine ⟨?_, h.mem.write hold (fun w' hw' => h.board.alone w' w i hw' hold) hrole hpc,
    fun w' => ?_, fun w' => ?_, h.outputs⟩
  · rw [State.board_goto]
    exact s.inv_assign (hold.trans hrole.symm) h.board
  · by_cases heq : w' = w
    · subst heq
      exact Tidy.of_not_aborting (by simp [hrole, Role.Aborting])
    · simpa [heq] using h.tidy w'
  · by_cases heq : w' = w
    · subst heq
      exact CheckOk.of_not_validating (by simp [hrole])
    · simpa [heq] using h.checks w'

end Settled

end N42.Stm
