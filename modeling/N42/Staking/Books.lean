import N42.Staking.Manager

/-!
What each operation of the staking manager does to the statuses of the stakes. Without disputed keys
they follow the calls alone (`Statuses.apply`).
-/

namespace N42.Staking

open Lib List Function Table
open Stm (U256 satAdd256)

abbrev Statuses := Address → Option StakeStatus

namespace Statuses

variable (number : ℕ) (statuses : Statuses)

/-- The effect of a call in block `number` when nobody else owns the key it names. -/
def apply (sender : Address) : Call → Statuses
  | .stake blsPubkey _ =>
    if blsPubkey = ZERO_PUBKEY then statuses else Function.update statuses sender (some .active)
  | .unstake =>
    if statuses sender = some .active then
      Function.update statuses sender (some (.unstaking number))
    else statuses
  | .register _ => statuses

theorem apply_of_ne {sender staker : Address} (h : staker ≠ sender) (number : ℕ)
    (statuses : Statuses) (call : Call) :
    statuses.apply number sender call staker = statuses staker := by
  cases call with
  | register blsPubkey => rfl
  | stake blsPubkey value =>
    simp only [apply]
    split
    · rfl
    · exact update_of_ne h _ _
  | unstake =>
    simp only [apply]
    split
    · exact update_of_ne h _ _
    · rfl

theorem apply_self (sender : Address) (call : Call) :
    statuses.apply number sender call sender = statuses sender ∨
      statuses.apply number sender call sender = some .active ∨
      statuses.apply number sender call sender = some (.unstaking number) := by
  cases call with
  | register blsPubkey => exact .inl rfl
  | stake blsPubkey value =>
    simp only [apply]
    split
    · exact .inl rfl
    · exact .inr (.inl (update_self ..))
  | unstake =>
    simp only [apply]
    split
    · exact .inr (.inr (update_self ..))
    · exact .inl rfl

def process (tx : Transaction) : Statuses :=
  tx.call.elim statuses fun call => statuses.apply number call.1 call.2

/-- A node that has released stakes knows less than the ledger: each stake it misses is an unstake
in `due`. -/
def Behind (due : Unstake → Prop) (ledger statuses : Statuses) : Prop :=
  ∀ staker, statuses staker = ledger staker ∨
    ∃ block, ledger staker = some (.unstaking block) ∧ statuses staker = none ∧ due (staker, block)

theorem Behind.refl (due : Unstake → Prop) (statuses : Statuses) : Behind due statuses statuses :=
  fun _ => .inl rfl

variable {due : Unstake → Prop} {ledger statuses : Statuses}

section

variable (h : Behind due ledger statuses)
include h

theorem Behind.mono {due' : Unstake → Prop} (hle : ∀ u, due u → due' u) :
    Behind due' ledger statuses := by
  intro staker
  rcases h staker with heq | ⟨block, hledger, hnone, hdue⟩
  · exact .inl heq
  · exact .inr ⟨block, hledger, hnone, hle _ hdue⟩

theorem Behind.update (sender : Address) (status : Option StakeStatus) :
    Behind due (Function.update ledger sender status) (Function.update statuses sender status) := by
  intro staker
  by_cases hs : staker = sender
  · subst hs
    simp
  · simpa [update_of_ne hs] using h staker

theorem Behind.apply (number : ℕ) (sender : Address) (call : Call) :
    Behind due (ledger.apply number sender call) (statuses.apply number sender call) := by
  cases call with
  | stake blsPubkey value =>
    simp only [Statuses.apply]
    split
    · exact h
    · exact h.update sender _
  | register blsPubkey => exact h
  | unstake =>
    simp only [Statuses.apply]
    -- A stake the node misses is unstaking already, so the call changes neither side.
    rcases h sender with heq | ⟨block, hledger, hnone, -⟩
    · rw [heq]
      split
      · exact h.update sender _
      · exact h
    · rw [if_neg (by simp [hledger]), if_neg (by simp [hnone])]
      exact h

end

theorem Behind.process {number : ℕ} (transactions : List Transaction)
    (h : Behind due ledger statuses) :
    Behind due (transactions.foldl (Statuses.process number) ledger)
      (transactions.foldl (Statuses.process number) statuses) := by
  induction transactions generalizing ledger statuses with
  | nil => exact h
  | cons tx transactions ih =>
    apply ih
    unfold Statuses.process
    cases tx.call with
    | none => exact h
    | some call => exact h.apply number call.1 call.2

/-- Releasing an unstaking stake is accounted for by the unstake it makes due. -/
theorem Behind.release {staker : Address} {block : ℕ} (h : Behind due ledger statuses)
    (hstatus : statuses staker = some (.unstaking block)) (hdue : due (staker, block)) :
    Behind due ledger (Function.update statuses staker none) := by
  intro other
  by_cases hs : other = staker
  · subst hs
    rcases h other with heq | ⟨_, _, hnone, _⟩
    · exact .inr ⟨block, by rw [← heq, hstatus], by simp, hdue⟩
    · rw [hstatus] at hnone
      cases hnone
  · simpa [update_of_ne hs] using h other

/-- Books that balance: no unstake is owed twice, and none that is owed still has its stake. -/
structure Balanced (owed : List Unstake) (statuses : Statuses) (scanned : ℕ) : Prop where
  nodup : owed.Nodup
  bounded : ∀ u ∈ owed, u.2 ≤ scanned
  fresh : ∀ staker block, statuses staker = some (.unstaking block) →
    block ≤ scanned ∧ (staker, block) ∉ owed

namespace Balanced

variable {owed owed' : List Unstake} {statuses : Statuses} {scanned : ℕ}

theorem perm (h : Balanced owed statuses scanned) (hperm : owed'.Perm owed) :
    Balanced owed' statuses scanned where
  nodup := hperm.nodup_iff.mpr h.nodup
  bounded u hu := h.bounded u (hperm.mem_iff.mp hu)
  fresh staker block hstatus :=
    ⟨(h.fresh staker block hstatus).1,
      fun hmem => (h.fresh staker block hstatus).2 (hperm.mem_iff.mp hmem)⟩

theorem release {staker : Address} {block : ℕ} (h : Balanced owed statuses scanned)
    (hstatus : statuses staker = some (.unstaking block)) :
    Balanced ((staker, block) :: owed) (Function.update statuses staker none) scanned := by
  obtain ⟨hle, hnot⟩ := h.fresh staker block hstatus
  constructor
  · exact nodup_cons.mpr ⟨hnot, h.nodup⟩
  · exact forall_mem_cons.mpr ⟨hle, h.bounded⟩
  · intro other b hother
    by_cases hs : other = staker
    · simp [hs] at hother
    · rw [update_of_ne hs] at hother
      obtain ⟨hle, hnot⟩ := h.fresh other b hother
      constructor
      · exact hle
      · simpa [hs] using hnot

/-- A new block unstakes under its own number, which nothing owed has. -/
theorem process (transactions : List Transaction) (h : Balanced owed statuses scanned) :
    Balanced owed (transactions.foldl (Statuses.process (scanned + 1)) statuses) (scanned + 1) := by
  have hbounded : ∀ u ∈ owed, u.2 ≤ scanned := h.bounded
  have hfresh : ∀ staker block, statuses staker = some (.unstaking block) →
      block ≤ scanned + 1 ∧ (staker, block) ∉ owed := fun staker block hstatus =>
    ⟨(h.fresh staker block hstatus).1.trans (Nat.le_succ scanned),
      (h.fresh staker block hstatus).2⟩
  constructor
  · exact h.nodup
  · exact fun u hu => (hbounded u hu).trans (Nat.le_succ scanned)
  · clear h
    induction transactions generalizing statuses with
    | nil => exact hfresh
    | cons tx transactions ih =>
      apply ih
      intro staker block hstatus
      unfold Statuses.process at hstatus
      cases hcall : tx.call with
      | none =>
        rw [hcall] at hstatus
        exact hfresh staker block hstatus
      | some call =>
        obtain ⟨sender, call⟩ := call
        rw [hcall] at hstatus
        by_cases hs : staker = sender
        · subst hs
          rcases apply_self (scanned + 1) statuses staker call with heq | heq | heq
          · exact hfresh staker block (heq.symm.trans hstatus)
          · cases heq.symm.trans hstatus
          · obtain rfl : scanned + 1 = block := by simpa using heq.symm.trans hstatus
            constructor
            · exact le_rfl
            · intro hmem
              have hle := hbounded _ hmem
              omega
        · exact hfresh staker block ((apply_of_ne hs _ _ _).symm.trans hstatus)

end Balanced

end Statuses

def Call.blsPubkey : Call → Option Bytes
  | .stake blsPubkey _ => some blsPubkey
  | .unstake => none
  | .register blsPubkey => some blsPubkey

/-- The key a transaction asks to own, with its sender; nobody can own the zero key. -/
def Transaction.keyUse (tx : Transaction) : Option (Address × Bytes) :=
  tx.call.bind fun call =>
    (call.2.blsPubkey.filter (· ≠ ZERO_PUBKEY)).map fun blsPubkey => (call.1, blsPubkey)

def Exclusive (uses : List (Address × Bytes)) : Prop :=
  ∀ a ∈ uses, ∀ b ∈ uses, a.2 = b.2 → a.1 = b.1

instance (uses : List (Address × Bytes)) : Decidable (Exclusive uses) :=
  inferInstanceAs (Decidable (∀ a ∈ uses, ∀ b ∈ uses, a.2 = b.2 → a.1 = b.1))

namespace StakingManager

/-- Every key a manager knows was asked for by the address it has it under. -/
structure Keyed (uses : List (Address × Bytes)) (m : StakingManager) : Prop where
  linked : ∀ blsPubkey owner, m.blsToStaker blsPubkey = some owner → (owner, blsPubkey) ∈ uses
  staked : ∀ entry ∈ m.stakes.entries, (entry.staker, entry.blsPubkey) ∈ uses
  registered : ∀ entry ∈ m.registrations.entries, (entry.evmAddress, entry.blsPubkey) ∈ uses

def status (m : StakingManager) : Statuses := fun staker => (m.stakes.get staker).map (·.status)

def queued (m : StakingManager) : List Unstake := m.pendingReturns.map Return.unstake

variable {uses : List (Address × Bytes)} {m : StakingManager}

theorem keyed_new (uses : List (Address × Bytes)) : Keyed uses new := by
  constructor
  · intro blsPubkey owner h
    cases h
  · intro entry h
    cases h
  · intro entry h
    cases h

section

variable (h : m.Keyed uses)
include h

theorem Keyed.mono {uses' : List (Address × Bytes)} (hsub : uses ⊆ uses') : m.Keyed uses' where
  linked blsPubkey owner hlink := hsub (h.linked blsPubkey owner hlink)
  staked entry hentry := hsub (h.staked entry hentry)
  registered entry hentry := hsub (h.registered entry hentry)

theorem Keyed.setStakes {stakes : Table StakeEntry.staker}
    (hstakes : ∀ entry ∈ stakes.entries, (entry.staker, entry.blsPubkey) ∈ uses) :
    Keyed uses { m with stakes := stakes } where
  linked := h.linked
  staked := hstakes
  registered := h.registered

theorem Keyed.setRegistrations {registrations : Table RegistrationEntry.evmAddress}
    (hregistrations : ∀ entry ∈ registrations.entries, (entry.evmAddress, entry.blsPubkey) ∈ uses) :
    Keyed uses { m with registrations := registrations } where
  linked := h.linked
  staked := h.staked
  registered := hregistrations

theorem Keyed.insertStake {entry : StakeEntry} (hentry : (entry.staker, entry.blsPubkey) ∈ uses) :
    ∀ other ∈ (m.stakes.insert entry).entries, (other.staker, other.blsPubkey) ∈ uses := by
  intro other hother
  rcases mem_insert hother with rfl | hother
  · exact hentry
  · exact h.staked other hother

theorem Keyed.removeStake (staker : Address) :
    ∀ entry ∈ (m.stakes.remove staker).entries, (entry.staker, entry.blsPubkey) ∈ uses :=
  fun entry hentry => h.staked entry (mem_of_mem_filter hentry)

theorem Keyed.insertRegistration {entry : RegistrationEntry}
    (hentry : (entry.evmAddress, entry.blsPubkey) ∈ uses) :
    ∀ other ∈ (m.registrations.insert entry).entries,
      (other.evmAddress, other.blsPubkey) ∈ uses := by
  intro other hother
  rcases mem_insert hother with rfl | hother
  · exact hentry
  · exact h.registered other hother

end

variable {blsPubkey : Bytes}

theorem Keyed.not_ownedByAnother (h : m.Keyed uses) (hexclusive : Exclusive uses) {sender : Address}
    (huse : (sender, blsPubkey) ∈ uses) : m.ownedByAnother blsPubkey sender = false := by
  unfold ownedByAnother
  cases hlink : m.blsToStaker blsPubkey with
  | none => rfl
  | some owner =>
    have howner := hexclusive _ (h.linked blsPubkey owner hlink) _ huse rfl
    simpa using howner

structure SameQueue (m m' : StakingManager) : Prop where
  pending : m'.pendingReturns = m.pendingReturns
  scanned : m'.lastScannedBlock = m.lastScannedBlock

theorem SameQueue.refl (m : StakingManager) : SameQueue m m := ⟨rfl, rfl⟩

theorem status_insert (m m' : StakingManager) (entry : StakeEntry) :
    status { m' with stakes := m.stakes.insert entry } =
      Function.update m.status entry.staker (some entry.status) := by
  funext staker
  simp only [status, get_insert, update_apply]
  by_cases hs : entry.staker = staker
  · subst hs
    simp
  · simp [hs, Ne.symm hs]

variable [Keccak]

section

variable (h : m.Keyed uses)
include h

theorem Keyed.link {owner : Address} (huse : (owner, blsPubkey) ∈ uses) :
    (m.link blsPubkey owner).Keyed uses where
  linked other owner' hlink := by
    by_cases hkey : other = blsPubkey
    · subst hkey
      obtain rfl : owner = owner' := by simpa [StakingManager.link] using hlink
      exact huse
    · exact h.linked other owner' (by simpa [StakingManager.link, hkey] using hlink)
  staked := h.staked
  registered := h.registered

theorem Keyed.unlink (blsPubkey : Bytes) : (m.unlink blsPubkey).Keyed uses where
  linked other owner hlink := by
    by_cases hkey : other = blsPubkey
    · simp [StakingManager.unlink, hkey] at hlink
    · exact h.linked other owner (by simpa [StakingManager.unlink, hkey] using hlink)
  staked := h.staked
  registered := h.registered

theorem Keyed.relink (old : Bytes) {owner : Address}
    (huse : (owner, blsPubkey) ∈ uses) : (m.relink old blsPubkey owner).Keyed uses := by
  unfold StakingManager.relink
  split
  · exact (h.unlink old).link huse
  · exact h

theorem Keyed.upgradeRegistration (staker : Address) (blsPubkey : Bytes) :
    (m.upgradeRegistration staker blsPubkey).Keyed uses := by
  unfold StakingManager.upgradeRegistration
  split
  · next old _ =>
    have hremoved : Keyed uses { m with registrations := m.registrations.remove staker } :=
      h.setRegistrations fun entry hentry => h.registered entry (mem_of_mem_filter hentry)
    split
    · exact hremoved.unlink old.blsPubkey
    · exact hremoved
  · exact h

end

theorem sameQueue_upgradeRegistration (m : StakingManager) (staker : Address) (blsPubkey : Bytes) :
    SameQueue m (m.upgradeRegistration staker blsPubkey) := by
  unfold upgradeRegistration
  split
  · split <;> exact ⟨rfl, rfl⟩
  · exact .refl m

theorem sameQueue_relink (m : StakingManager) (old blsPubkey : Bytes) (owner : Address) :
    SameQueue m (m.relink old blsPubkey owner) := by
  unfold relink
  split <;> exact ⟨rfl, rfl⟩

/-- What a call does when its key, if it has one, is in `uses`. -/
structure Processed (uses : List (Address × Bytes)) (m m' : StakingManager)
    (statuses : Statuses) : Prop where
  keyed : m'.Keyed uses
  queue : SameQueue m m'
  status : m'.status = statuses

omit [Keccak] in
theorem Keyed.processed_self (h : m.Keyed uses) : Processed uses m m m.status :=
  ⟨h, .refl m, rfl⟩

variable {staker : Address}

section

variable (h : m.Keyed uses)
include h

theorem handleStake_spec (hexclusive : Exclusive uses)
    (huse : blsPubkey ≠ ZERO_PUBKEY → (staker, blsPubkey) ∈ uses) (value : U256) (number : ℕ) :
    Processed uses m (m.handleStake staker blsPubkey value number)
      (m.status.apply number staker (.stake blsPubkey value)) := by
  unfold handleStake
  simp only [Statuses.apply]
  by_cases hzero : blsPubkey = ZERO_PUBKEY
  · rw [if_pos hzero, if_pos hzero]
    exact h.processed_self
  · have huse := huse hzero
    have hfree := h.not_ownedByAnother hexclusive huse
    rw [if_neg hzero, if_neg hzero, hfree]
    cases hget : m.stakes.get staker with
    | some entry =>
      obtain rfl : entry.staker = staker := key_of_get hget
      constructor
      · exact (h.relink entry.blsPubkey huse).setStakes (h.insertStake huse)
      · have hqueue := sameQueue_relink m entry.blsPubkey blsPubkey entry.staker
        exact ⟨hqueue.pending, hqueue.scanned⟩
      · exact status_insert m _ _
    | none =>
      constructor
      · exact ((h.upgradeRegistration staker blsPubkey).link huse).setStakes (h.insertStake huse)
      · have hqueue := sameQueue_upgradeRegistration m staker blsPubkey
        exact ⟨hqueue.pending, hqueue.scanned⟩
      · exact status_insert m _ _

omit [Keccak] in
theorem handleUnstake_spec (staker : Address) (number : ℕ) :
    Processed uses m (m.handleUnstake staker number) (m.status.apply number staker .unstake) := by
  unfold handleUnstake
  simp only [Statuses.apply]
  cases hget : m.stakes.get staker with
  | none =>
    rw [if_neg (by simp [status, hget])]
    exact h.processed_self
  | some entry =>
    obtain rfl : entry.staker = staker := key_of_get hget
    have hstatus : m.status entry.staker = some entry.status := by simp [status, hget]
    by_cases hactive : entry.status = .active
    · rw [if_pos (by rw [hstatus, hactive])]
      simp only [hactive, if_true]
      constructor
      · exact h.setStakes (h.insertStake (h.staked entry (get_eq_some.mp hget).1))
      · exact ⟨rfl, rfl⟩
      · exact status_insert m _ _
    · rw [if_neg (by simpa [hstatus] using hactive)]
      simp only [hactive, if_false]
      exact h.processed_self

theorem handleRegister_spec {sender : Address}
    (huse : blsPubkey ≠ ZERO_PUBKEY → (sender, blsPubkey) ∈ uses) (number : ℕ) :
    Processed uses m (m.handleRegister sender blsPubkey number) m.status := by
  unfold handleRegister
  split
  · exact h.processed_self
  · next hzero =>
    have huse := huse hzero
    split
    · exact h.processed_self
    · split
      · exact h.processed_self
      · cases hget : m.registrations.get sender with
        | some existing =>
          obtain rfl : existing.evmAddress = sender := key_of_get hget
          have hqueue := sameQueue_relink m existing.blsPubkey blsPubkey existing.evmAddress
          constructor
          · exact (h.relink existing.blsPubkey huse).setRegistrations (h.insertRegistration huse)
          · exact ⟨hqueue.pending, hqueue.scanned⟩
          · simp only [relink]
            split <;> rfl
        | none =>
          constructor
          · exact (h.link huse).setRegistrations (h.insertRegistration huse)
          · exact ⟨rfl, rfl⟩
          · rfl

theorem processTransaction_spec (hexclusive : Exclusive uses)
    {tx : Transaction} (huse : ∀ use, tx.keyUse = some use → use ∈ uses) (number : ℕ) :
    Processed uses m (processTransaction number m tx) (m.status.process number tx) := by
  unfold processTransaction Statuses.process
  cases hcall : tx.call with
  | none => exact h.processed_self
  | some call =>
    obtain ⟨sender, call⟩ := call
    have hkey : ∀ blsPubkey, call.blsPubkey = some blsPubkey → blsPubkey ≠ ZERO_PUBKEY →
        (sender, blsPubkey) ∈ uses := by
      intro blsPubkey hkey hzero
      apply huse
      simp [Transaction.keyUse, hcall, hkey, hzero]
    cases call with
    | stake blsPubkey value => exact handleStake_spec h hexclusive (hkey blsPubkey rfl) value number
    | unstake => exact handleUnstake_spec h sender number
    | register blsPubkey => exact handleRegister_spec h (hkey blsPubkey rfl) number

end

theorem foldl_processTransaction_spec (transactions : List Transaction)
    (hexclusive : Exclusive uses) (huses : transactions.filterMap Transaction.keyUse ⊆ uses)
    (number : ℕ) {m : StakingManager} (h : m.Keyed uses) :
    Processed uses m (transactions.foldl (processTransaction number) m)
      (transactions.foldl (Statuses.process number) m.status) := by
  induction transactions generalizing m with
  | nil => exact h.processed_self
  | cons tx transactions ih =>
    have hhead : ∀ use, tx.keyUse = some use → use ∈ uses := fun use huse =>
      huses (mem_filterMap.mpr ⟨tx, mem_cons_self, huse⟩)
    have htail : transactions.filterMap Transaction.keyUse ⊆ uses := by
      intro use huse
      obtain ⟨other, hother, huse⟩ := mem_filterMap.mp huse
      exact huses (mem_filterMap.mpr ⟨other, mem_cons_of_mem tx hother, huse⟩)
    have hfirst := processTransaction_spec h hexclusive hhead number
    have hrest := ih htail hfirst.keyed
    rw [foldl_cons, foldl_cons, ← hfirst.status]
    constructor
    · exact hrest.keyed
    · exact ⟨hrest.queue.pending.trans hfirst.queue.pending,
        hrest.queue.scanned.trans hfirst.queue.scanned⟩
    · exact hrest.status

theorem scanCommittedBlock_spec (h : m.Keyed uses) (hexclusive : Exclusive uses)
    {transactions : List Transaction} (huses : transactions.filterMap Transaction.keyUse ⊆ uses)
    (number : ℕ) :
    (m.scanCommittedBlock number transactions).Keyed uses ∧
      (m.scanCommittedBlock number transactions).queued = m.queued ∧
      (m.scanCommittedBlock number transactions).lastScannedBlock = number ∧
      (m.scanCommittedBlock number transactions).status =
        transactions.foldl (Statuses.process number) m.status := by
  have hstart : Keyed uses { m with lastScannedBlock := number } :=
    ⟨h.linked, h.staked, h.registered⟩
  have hscan := foldl_processTransaction_spec transactions hexclusive huses number hstart
  exact ⟨hscan.keyed, congrArg (List.map Return.unstake) hscan.queue.pending, hscan.queue.scanned,
    hscan.status⟩

theorem release_spec {block : ℕ} (hstatus : m.status staker = some (.unstaking block)) :
    (m.release staker).queued = m.queued ++ [(staker, block)] ∧
      (m.release staker).lastScannedBlock = m.lastScannedBlock ∧
      (m.release staker).status = Function.update m.status staker none := by
  obtain ⟨entry, hget, hentry⟩ := Option.map_eq_some_iff.mp hstatus
  obtain rfl : entry.staker = staker := key_of_get hget
  simp only [release, hget]
  refine ⟨?_, rfl, ?_⟩
  · simp [queued, Return.unstake, hentry, StakeStatus.initiatedBlock]
  · funext other
    simp only [status, get_remove, update_apply]
    by_cases hs : entry.staker = other
    · simp [hs]
    · simp [hs, Ne.symm hs]

theorem Keyed.release (h : m.Keyed uses) (staker : Address) : (m.release staker).Keyed uses := by
  unfold StakingManager.release
  split
  · next entry _ =>
    have hkeyed := (h.unlink entry.blsPubkey).setStakes (h.removeStake staker)
    exact ⟨hkeyed.linked, hkeyed.staked, hkeyed.registered⟩
  · exact h

omit [Keccak] in
theorem status_of_mem_matured {iteration : Iteration StakeEntry} {currentBlock : ℕ}
    (h : staker ∈ m.matured iteration currentBlock) :
    ∃ block, m.status staker = some (.unstaking block) := by
  obtain ⟨entry, hentry, rfl⟩ := mem_map.mp h
  obtain ⟨hentry, hmatured⟩ := mem_filter.mp hentry
  have hget : m.stakes.get entry.staker = some entry :=
    get_eq_some.mpr ⟨(iteration.perm _).mem_iff.mp hentry, rfl⟩
  cases hstatus : entry.status with
  | active =>
    rw [hstatus] at hmatured
    cases hmatured
  | unstaking block => exact ⟨block, by simp [status, hget, hstatus]⟩

omit [Keccak] in
theorem nodup_matured (m : StakingManager) (iteration : Iteration StakeEntry) (currentBlock : ℕ) :
    (m.matured iteration currentBlock).Nodup := by
  have hall : ((iteration.order m.stakes.entries).map StakeEntry.staker).Nodup :=
    ((iteration.perm _).map StakeEntry.staker).nodup_iff.mpr m.stakes.nodup
  exact hall.sublist (filter_sublist.map _)

/-- What holds of a manager and survives the release of an unstaking stake survives the check of
the cooldowns. -/
theorem checkCooldowns_induction {motive : StakingManager → Prop}
    (hrelease : ∀ m staker block, motive m → m.status staker = some (.unstaking block) →
      motive (m.release staker))
    (h : motive m) (iteration : Iteration StakeEntry) (currentBlock : ℕ) :
    motive (m.checkCooldowns iteration currentBlock) := by
  have hstatus : ∀ staker ∈ m.matured iteration currentBlock,
      ∃ block, m.status staker = some (.unstaking block) := fun _ => status_of_mem_matured
  have hnodup := nodup_matured m iteration currentBlock
  unfold checkCooldowns
  generalize m.matured iteration currentBlock = stakers at hstatus hnodup
  induction stakers generalizing m with
  | nil => exact h
  | cons staker stakers ih =>
    rw [nodup_cons] at hnodup
    obtain ⟨block, hblock⟩ := hstatus staker mem_cons_self
    apply ih (hrelease m staker block h hblock) _ hnodup.2
    intro other hother
    obtain ⟨block', hblock'⟩ := hstatus other (mem_cons_of_mem staker hother)
    have hne : other ≠ staker := fun heq => hnodup.1 (heq ▸ hother)
    exact ⟨block', by rw [(release_spec hblock).2.2, update_of_ne hne, hblock']⟩

theorem foldl_loadStake (entries : List StakeEntry) (m : StakingManager) :
    (entries.foldl loadStake m).stakes = m.stakes.insertAll entries ∧
      (entries.foldl loadStake m).registrations = m.registrations := by
  induction entries generalizing m with
  | nil => exact ⟨rfl, rfl⟩
  | cons entry entries ih => exact ih (m.loadStake entry)

theorem foldl_loadRegistration (entries : List RegistrationEntry) (m : StakingManager) :
    (entries.foldl loadRegistration m).stakes = m.stakes ∧
      (entries.foldl loadRegistration m).registrations = m.registrations.insertAll entries := by
  induction entries generalizing m with
  | nil => exact ⟨rfl, rfl⟩
  | cons entry entries ih => exact ih (m.loadRegistration entry)

theorem Keyed.load {persisted : PersistedStakingState}
    (hstakes : ∀ entry ∈ persisted.stakes, (entry.staker, entry.blsPubkey) ∈ uses)
    (hregistrations : ∀ entry ∈ persisted.registrations,
      (entry.evmAddress, entry.blsPubkey) ∈ uses) : (load persisted).Keyed uses := by
  have hstaked : Keyed uses (persisted.stakes.foldl loadStake new) := by
    refine List.foldlRecOn _ _ (keyed_new uses) ?_
    intro m hm entry hentry
    exact (hm.link (hstakes entry hentry)).setStakes (hm.insertStake (hstakes entry hentry))
  have hloaded : Keyed uses
      (persisted.registrations.foldl loadRegistration (persisted.stakes.foldl loadStake new)) := by
    refine List.foldlRecOn _ _ hstaked ?_
    intro m hm entry hentry
    exact (hm.link (hregistrations entry hentry)).setRegistrations
      (hm.insertRegistration (hregistrations entry hentry))
  exact ⟨hloaded.linked, hloaded.staked, hloaded.registered⟩

theorem Keyed.reload (h : m.Keyed uses) (stakeOrder : Iteration StakeEntry)
    (registrationOrder : Iteration RegistrationEntry) :
    (StakingManager.load (m.save stakeOrder registrationOrder)).Keyed uses := by
  apply Keyed.load
  · intro entry hentry
    exact h.staked entry ((stakeOrder.perm _).mem_iff.mp hentry)
  · intro entry hentry
    exact h.registered entry ((registrationOrder.perm _).mem_iff.mp hentry)

variable (m : StakingManager) (stakeOrder : Iteration StakeEntry)
  (registrationOrder : Iteration RegistrationEntry)

theorem stakes_reload (address : Address) :
    (load (m.save stakeOrder registrationOrder)).stakes.get address = m.stakes.get address := by
  have hstakes : (load (m.save stakeOrder registrationOrder)).stakes =
      empty.insertAll (stakeOrder.order m.stakes.entries) :=
    (foldl_loadRegistration _ _).1.trans (foldl_loadStake _ _).1
  rw [hstakes, get_refill m.stakes (stakeOrder.perm _)]

theorem registrations_reload (address : Address) :
    (load (m.save stakeOrder registrationOrder)).registrations.get address =
      m.registrations.get address := by
  have hregistrations : (load (m.save stakeOrder registrationOrder)).registrations =
      empty.insertAll (registrationOrder.order m.registrations.entries) := by
    refine (foldl_loadRegistration _ _).2.trans ?_
    rw [(foldl_loadStake _ _).2]
    rfl
  rw [hregistrations, get_refill m.registrations (registrationOrder.perm _)]

theorem status_reload :
    (load (m.save stakeOrder registrationOrder)).status = m.status := by
  funext staker
  rw [status, stakes_reload, status]

end StakingManager

end N42.Staking
