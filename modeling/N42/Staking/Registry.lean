import N42.Lib.Inverse
import N42.Staking.Books

/-!
The registry of the staking manager over every run: which address stakes or is registered, and
under which key.
-/

namespace N42.Staking

open Lib List Function StakingManager Table
open Stm (U256 satAdd256)

namespace StakingManager

def keyOf (m : StakingManager) (owner : Address) : Option Bytes :=
  ((m.stakes.get owner).map (·.blsPubkey)).or ((m.registrations.get owner).map (·.blsPubkey))

variable [Keccak]

def rewardOf (m : StakingManager) : Address → Option Address :=
  Option.map blsPubkeyToRewardAddress ∘ m.keyOf

structure RegistryConsistent (m : StakingManager) : Prop where
  exclusive : ∀ address, m.stakes.get address = none ∨ m.registrations.get address = none
  owners : ∀ blsPubkey owner, m.blsToStaker blsPubkey = some owner ↔ m.keyOf owner = some blsPubkey
  nonzero : ∀ owner, m.keyOf owner ≠ some ZERO_PUBKEY
  rewards : ∀ address owner, m.rewardToStaker address = some owner ↔
    ∃ blsPubkey, m.keyOf owner = some blsPubkey ∧ blsPubkeyToRewardAddress blsPubkey = address

structure SameRegistry (m m' : StakingManager) : Prop where
  stakes : ∀ address, m'.stakes.get address = m.stakes.get address
  registrations : ∀ address, m'.registrations.get address = m.registrations.get address
  blsToStaker : m'.blsToStaker = m.blsToStaker
  rewardToStaker : m'.rewardToStaker = m.rewardToStaker
  pendingReturns : m'.pendingReturns = m.pendingReturns
  lastScannedBlock : m'.lastScannedBlock = m.lastScannedBlock
  nextWithdrawalIndex : m'.nextWithdrawalIndex = m.nextWithdrawalIndex

end StakingManager

inductive RegistryEvent where
  | transaction (blockNumber : ℕ) (tx : Transaction)
  | checkCooldowns (iteration : Iteration StakeEntry) (currentBlock : ℕ)
  | takePendingReturns (max : ℕ)
  | reload (stakeOrder : Iteration StakeEntry) (registrationOrder : Iteration RegistrationEntry)

def RegistryEvent.keys : RegistryEvent → List Bytes
  | .transaction _ tx => (tx.call.bind (·.2.blsPubkey)).toList
  | .checkCooldowns _ _ => []
  | .takePendingReturns _ => []
  | .reload _ _ => []

/-- Distinct keys have distinct reward addresses. -/
def Distinguished [Keccak] (keys : List Bytes) : Prop :=
  ∀ a ∈ keys, ∀ b ∈ keys, blsPubkeyToRewardAddress a = blsPubkeyToRewardAddress b → a = b

instance [Keccak] (keys : List Bytes) : Decidable (Distinguished keys) :=
  inferInstanceAs (Decidable (∀ a ∈ keys, ∀ b ∈ keys, _ → a = b))

namespace StakingManager

variable [Keccak]

variable (m : StakingManager)

def apply : RegistryEvent → StakingManager
  | .transaction blockNumber tx => processTransaction blockNumber m tx
  | .checkCooldowns iteration currentBlock => m.checkCooldowns iteration currentBlock
  | .takePendingReturns max => (m.takePendingReturns max).2
  | .reload stakeOrder registrationOrder => load (m.save stakeOrder registrationOrder)

def run (events : List RegistryEvent) : StakingManager := events.foldl apply m

/-- The event is the owner's own transaction, or releases the owner's matured unstake. -/
def MayRelease (owner : Address) : RegistryEvent → Prop
  | .transaction _ tx => ∃ call, tx.call = some (owner, call)
  | .checkCooldowns _ currentBlock => ∃ entry, m.stakes.get owner = some entry ∧
      entry.status.isMatured currentBlock = true
  | .takePendingReturns _ => False
  | .reload _ _ => False

end StakingManager

/-- The registry is consistent and knows only the keys in `keys`. -/
structure Registry [Keccak] (keys : List Bytes) (m : StakingManager) : Prop where
  exclusive : ∀ address, m.stakes.get address = none ∨ m.registrations.get address = none
  owners : Inverse m.blsToStaker m.keyOf
  rewards : Inverse m.rewardToStaker m.rewardOf
  known : ∀ owner blsPubkey, m.keyOf owner = some blsPubkey → blsPubkey ∈ keys
  nonzero : ∀ owner, m.keyOf owner ≠ some ZERO_PUBKEY

/-- Nobody's stake or registration changes but the owner's, whose key is then `key`. -/
structure Rekeyed (m m' : StakingManager) (owner : Address) (key : Option Bytes) : Prop where
  others : ∀ address, address ≠ owner → m'.stakes.get address = m.stakes.get address ∧
    m'.registrations.get address = m.registrations.get address
  exclusive : m'.stakes.get owner = none ∨ m'.registrations.get owner = none
  key : m'.keyOf owner = key

namespace Rekeyed

variable {m m' : StakingManager} {owner : Address} {key : Option Bytes}

theorem keyOf_eq (h : Rekeyed m m' owner key) : m'.keyOf = Function.update m.keyOf owner key := by
  funext address
  by_cases ha : address = owner
  · subst ha
    rw [h.key, update_self]
  · obtain ⟨hstakes, hregistrations⟩ := h.others address ha
    rw [update_of_ne ha, keyOf, hstakes, hregistrations,
      keyOf]

theorem exclusive_all (h : Rekeyed m m' owner key)
    (hbefore : ∀ address, m.stakes.get address = none ∨ m.registrations.get address = none)
    (address : Address) : m'.stakes.get address = none ∨ m'.registrations.get address = none := by
  by_cases ha : address = owner
  · exact ha ▸ h.exclusive
  · obtain ⟨hstakes, hregistrations⟩ := h.others address ha
    rw [hstakes, hregistrations]
    exact hbefore address

theorem insertStake (entry : StakeEntry) (hstakes : m'.stakes = m.stakes.insert entry)
    (hregistrations : ∀ address, m'.registrations.get address =
      if entry.staker = address then none else m.registrations.get address) :
    Rekeyed m m' entry.staker (some entry.blsPubkey) where
  others address ha := by simp [hstakes, hregistrations, get_insert, Ne.symm ha]
  exclusive := by simp [hregistrations]
  key := by simp [keyOf, hstakes, get_insert]

theorem insertRegistration (entry : RegistrationEntry)
    (hstake : m.stakes.get entry.evmAddress = none) (hstakes : m'.stakes = m.stakes)
    (hregistrations : m'.registrations = m.registrations.insert entry) :
    Rekeyed m m' entry.evmAddress (some entry.blsPubkey) where
  others address ha := by simp [hstakes, hregistrations, get_insert, Ne.symm ha]
  exclusive := .inl (hstakes ▸ hstake)
  key := by simp [keyOf, hstakes, hstake, hregistrations, get_insert]

theorem removeStake (hregistration : m.registrations.get owner = none)
    (hstakes : m'.stakes = m.stakes.remove owner)
    (hregistrations : m'.registrations = m.registrations) : Rekeyed m m' owner none where
  others address ha := by simp [hstakes, hregistrations, get_remove, Ne.symm ha]
  exclusive := by simp [hstakes, get_remove]
  key := by simp [keyOf, hstakes, hregistrations, hregistration, get_remove]

end Rekeyed

namespace StakingManager

variable {m : StakingManager} {owner : Address}

theorem keyOf_of_stakes {entry : StakeEntry} (h : m.stakes.get owner = some entry) :
    m.keyOf owner = some entry.blsPubkey := by
  simp [keyOf, h]

theorem keyOf_of_registrations {entry : RegistrationEntry} (hstake : m.stakes.get owner = none)
    (h : m.registrations.get owner = some entry) : m.keyOf owner = some entry.blsPubkey := by
  simp [keyOf, hstake, h]

variable [Keccak]

structure Linked (m m' : StakingManager) (owner : Address) (blsPubkey : Bytes) : Prop where
  owners : m'.blsToStaker = Lib.assign m.blsToStaker (m.keyOf owner) blsPubkey owner
  rewards : m'.rewardToStaker = Lib.assign m.rewardToStaker (m.rewardOf owner)
    (blsPubkeyToRewardAddress blsPubkey) owner

theorem rewardOf_eq {key : Option Bytes} (h : m.keyOf owner = key) :
    m.rewardOf owner = key.map blsPubkeyToRewardAddress := by
  rw [rewardOf, comp_apply, h]

@[simp] theorem stakes_relink (m : StakingManager) (old blsPubkey : Bytes) (owner : Address) :
    (m.relink old blsPubkey owner).stakes = m.stakes := by
  unfold relink
  split <;> rfl

@[simp] theorem registrations_relink (m : StakingManager) (old blsPubkey : Bytes)
    (owner : Address) : (m.relink old blsPubkey owner).registrations = m.registrations := by
  unfold relink
  split <;> rfl

theorem linked_link (hkey : m.keyOf owner = none) (blsPubkey : Bytes) :
    Linked m (m.link blsPubkey owner) owner blsPubkey := by
  constructor
  · rw [hkey]
    rfl
  · rw [rewardOf_eq hkey]
    rfl

theorem linked_upgrade (hstake : m.stakes.get owner = none) (blsPubkey : Bytes) :
    Linked m ((m.upgradeRegistration owner blsPubkey).link blsPubkey owner) owner blsPubkey := by
  unfold upgradeRegistration
  cases hregistered : m.registrations.get owner with
  | none => exact linked_link (by simp [keyOf, hstake, hregistered]) blsPubkey
  | some old =>
    have hkey := keyOf_of_registrations hstake hregistered
    by_cases hold : old.blsPubkey = blsPubkey
    · subst hold
      constructor <;>
        simp [rewardOf_eq hkey, hkey, assign_some_self, link]
    · simp only [ne_eq, hold]
      constructor
      · rw [hkey]
        rfl
      · rw [rewardOf_eq hkey]
        rfl

theorem registrations_upgrade (m : StakingManager) (owner : Address) (blsPubkey : Bytes)
    (address : Address) :
    (m.upgradeRegistration owner blsPubkey).registrations.get address =
      if owner = address then none else m.registrations.get address := by
  unfold upgradeRegistration
  cases hregistered : m.registrations.get owner with
  | none =>
    by_cases ha : owner = address
    · subst ha
      rw [if_pos rfl]
      exact hregistered
    · rw [if_neg ha]
  | some old =>
    rw [← get_remove]
    simp only
    split <;> rfl

end StakingManager

namespace Registry

variable [Keccak] {keys : List Bytes} {m m' : StakingManager} {owner : Address} {blsPubkey : Bytes}

theorem new (keys : List Bytes) : Registry keys .new where
  exclusive _ := .inl rfl
  owners _ _ := by simp [StakingManager.new, StakingManager.keyOf]
  rewards _ _ := by simp [StakingManager.new, StakingManager.rewardOf, StakingManager.keyOf]
  known _ _ h := by cases h
  nonzero _ h := by cases h

theorem consistent (h : Registry keys m) : m.RegistryConsistent where
  exclusive := h.exclusive
  owners := h.owners
  nonzero := h.nonzero
  rewards address owner := by
    rw [h.rewards address owner]
    exact Option.map_eq_some_iff

/-- A call acts on the key of its sender alone. -/
structure Handled (keys : List Bytes) (m m' : StakingManager) (sender : Address) : Prop where
  registry : Registry keys m'
  others : ∀ owner, owner ≠ sender → m'.keyOf owner = m.keyOf owner

section

variable (h : Registry keys m)
include h

theorem handled_self (sender : Address) : Handled keys m m sender :=
  ⟨h, fun _ _ => rfl⟩

/-- The new key, if any, is a known one; the maps have to follow the keys. -/
theorem handled {key : Option Bytes} (hrekeyed : Rekeyed m m' owner key)
    (hkey : ∀ blsPubkey ∈ key, blsPubkey ∈ keys ∧ blsPubkey ≠ ZERO_PUBKEY)
    (howners : Inverse m'.blsToStaker (Function.update m.keyOf owner key))
    (hrewards : Inverse m'.rewardToStaker
      (Function.update m.rewardOf owner (key.map blsPubkeyToRewardAddress))) :
    Handled keys m m' owner := by
  have heq := hrekeyed.keyOf_eq
  have hheld : ∀ other held, m'.keyOf other = some held →
      m.keyOf other = some held ∨ key = some held := by
    intro other held hother
    rw [heq, update_apply] at hother
    split at hother
    · exact .inr hother
    · exact .inl hother
  refine ⟨⟨hrekeyed.exclusive_all h.exclusive, ?_, ?_, ?_, ?_⟩, ?_⟩
  · rwa [heq]
  · rwa [rewardOf, heq, comp_update]
  · intro other held hother
    rcases hheld other held hother with hbefore | hnew
    · exact h.known other held hbefore
    · exact (hkey held hnew).1
  · intro other hother
    rcases hheld other ZERO_PUBKEY hother with hbefore | hnew
    · exact h.nonzero other hbefore
    · exact (hkey ZERO_PUBKEY hnew).2 rfl
  · intro other hother
    rw [heq, update_of_ne hother]

/-- Who accepts a key owns no other afterwards. -/
theorem assign (hdistinguished : Distinguished keys)
    (hfree : m.ownedByAnother blsPubkey owner = false) (hknown : blsPubkey ∈ keys)
    (hzero : blsPubkey ≠ ZERO_PUBKEY) (hrekeyed : Rekeyed m m' owner (some blsPubkey))
    (hlinked : m.Linked m' owner blsPubkey) : Handled keys m m' owner := by
  have hown : ∀ other, m.blsToStaker blsPubkey = some other → other = owner := by
    intro other hother
    simpa [ownedByAnother, hother] using hfree
  apply h.handled hrekeyed
  · rintro _ ⟨⟩
    exact ⟨hknown, hzero⟩
  · rw [hlinked.owners]
    exact h.owners.assign hown
  · rw [hlinked.rewards]
    apply h.rewards.assign
    intro other hother
    obtain ⟨held, hheld, haddress⟩ := Option.map_eq_some_iff.mp ((h.rewards _ other).mp hother)
    have hsame := hdistinguished _ (h.known other held hheld) _ hknown haddress
    exact hown other ((h.owners blsPubkey other).mpr (hsame ▸ hheld))

theorem of_same
    (hexclusive : ∀ address, m'.stakes.get address = none ∨ m'.registrations.get address = none)
    (hkey : m'.keyOf = m.keyOf) (howner : m'.blsToStaker = m.blsToStaker)
    (hreward : m'.rewardToStaker = m.rewardToStaker) : Registry keys m' where
  exclusive := hexclusive
  owners := by
    rw [hkey, howner]
    exact h.owners
  rewards := by
    rw [rewardOf, hkey, hreward]
    exact h.rewards
  known := by
    rw [hkey]
    exact h.known
  nonzero := by
    rw [hkey]
    exact h.nonzero

theorem linked_relink {old : Bytes} (hheld : m.keyOf owner = some old)
    (blsPubkey : Bytes) : m.Linked (m.relink old blsPubkey owner) owner blsPubkey := by
  have hreward := rewardOf_eq hheld
  have howner : m.blsToStaker old = some owner := (h.owners old owner).mpr hheld
  have hrewarded := (h.rewards _ owner).mpr hreward
  unfold relink
  by_cases hold : old = blsPubkey
  · subst hold
    rw [if_neg (by simp)]
    constructor
    · rw [hheld, assign_some_self, ← howner, update_eq_self]
    · rw [hreward, Option.map_some, assign_some_self, ← hrewarded, update_eq_self]
  · rw [if_pos hold]
    constructor
    · rw [hheld]
      rfl
    · rw [hreward]
      rfl

theorem registrations_of_stake {entry : StakeEntry}
    (hget : m.stakes.get owner = some entry) (address : Address) :
    m.registrations.get address =
      if owner = address then none else m.registrations.get address := by
  split
  · next heq => exact heq ▸ (h.exclusive owner).resolve_left (by simp [hget])
  · rfl

end

section

variable (h : Registry keys m)
include h

theorem handleStake (hdistinguished : Distinguished keys)
    (hknown : blsPubkey ∈ keys) (staker : Address) (value : U256) (number : ℕ) :
    Handled keys m (m.handleStake staker blsPubkey value number) staker := by
  unfold StakingManager.handleStake
  split
  · exact h.handled_self staker
  · next hzero =>
    cases hfree : m.ownedByAnother blsPubkey staker with
    | true => exact h.handled_self staker
    | false =>
      cases hget : m.stakes.get staker with
      | some entry =>
        obtain rfl : entry.staker = staker := key_of_get hget
        have hlinked := h.linked_relink (keyOf_of_stakes hget) blsPubkey
        refine h.assign hdistinguished hfree hknown hzero (Rekeyed.insertStake ⟨entry.staker,
          blsPubkey, satAdd256 entry.amount value, entry.stakedAtBlock, .active⟩ rfl ?_)
          ⟨hlinked.owners, hlinked.rewards⟩
        simpa using h.registrations_of_stake hget
      | none =>
        have hlinked := linked_upgrade hget blsPubkey
        exact h.assign hdistinguished hfree hknown hzero (Rekeyed.insertStake ⟨staker, blsPubkey,
          value, number, .active⟩ rfl (m.registrations_upgrade staker blsPubkey))
          ⟨hlinked.owners, hlinked.rewards⟩

theorem handleUnstake (staker : Address) (number : ℕ) :
    Handled keys m (m.handleUnstake staker number) staker := by
  unfold StakingManager.handleUnstake
  cases hget : m.stakes.get staker with
  | none => exact h.handled_self staker
  | some entry =>
    obtain rfl : entry.staker = staker := key_of_get hget
    have hheld := keyOf_of_stakes hget
    simp only
    split
    · refine h.handled (Rekeyed.insertStake { entry with status := .unstaking number } rfl
        (h.registrations_of_stake hget)) ?_ ?_ ?_
      · rintro _ ⟨⟩
        exact ⟨h.known _ _ hheld, fun hzero => h.nonzero entry.staker (hzero ▸ hheld)⟩
      · rw [← hheld, update_eq_self]
        exact h.owners
      · rw [← rewardOf_eq hheld, update_eq_self]
        exact h.rewards
    · exact h.handled_self entry.staker

theorem handleRegister (hdistinguished : Distinguished keys)
    (hknown : blsPubkey ∈ keys) (sender : Address) (number : ℕ) :
    Handled keys m (m.handleRegister sender blsPubkey number) sender := by
  unfold StakingManager.handleRegister
  split
  · exact h.handled_self sender
  · next hzero =>
    cases hfree : m.ownedByAnother blsPubkey sender with
    | true => exact h.handled_self sender
    | false =>
      cases hstake : m.stakes.get sender with
      | some entry => exact h.handled_self sender
      | none =>
        cases hget : m.registrations.get sender with
        | some existing =>
          obtain rfl : existing.evmAddress = sender := key_of_get hget
          have hlinked := h.linked_relink (keyOf_of_registrations hstake hget)
            blsPubkey
          exact h.assign hdistinguished hfree hknown hzero
            (Rekeyed.insertRegistration { existing with
            blsPubkey := blsPubkey } hstake (m.stakes_relink ..) rfl)
            ⟨hlinked.owners, hlinked.rewards⟩
        | none =>
          have hnone : m.keyOf sender = none := by simp [keyOf, hstake, hget]
          have hlinked := linked_link hnone blsPubkey
          exact h.assign hdistinguished hfree hknown hzero (Rekeyed.insertRegistration ⟨sender,
            blsPubkey, number⟩ hstake rfl rfl) ⟨hlinked.owners, hlinked.rewards⟩

theorem processTransaction (hdistinguished : Distinguished keys)
    {number : ℕ} {tx : Transaction} (hknown : (tx.call.bind (·.2.blsPubkey)).toList ⊆ keys) :
    Registry keys (StakingManager.processTransaction number m tx) ∧
      ∀ owner, (∀ call, tx.call ≠ some (owner, call)) →
        (StakingManager.processTransaction number m tx).keyOf owner = m.keyOf owner := by
  unfold StakingManager.processTransaction
  cases hcall : tx.call with
  | none => exact ⟨h, fun _ _ => rfl⟩
  | some call =>
    obtain ⟨sender, call⟩ := call
    rw [hcall] at hknown
    have hcalled : ∀ m', Handled keys m m' sender → Registry keys m' ∧
        ∀ owner, (∀ c, some (sender, call) ≠ some (owner, c)) → m'.keyOf owner = m.keyOf owner := by
      refine fun m' hhandled => ⟨hhandled.registry, fun owner howner => hhandled.others owner ?_⟩
      rintro rfl
      exact howner call rfl
    cases call with
    | stake blsPubkey value =>
      exact hcalled _
        (h.handleStake hdistinguished (hknown mem_cons_self) sender value number)
    | unstake => exact hcalled _ (h.handleUnstake sender number)
    | register blsPubkey =>
      exact hcalled _ (h.handleRegister hdistinguished (hknown mem_cons_self) sender number)

end

theorem release (h : Registry keys m) (staker : Address) :
    Handled keys m (m.release staker) staker := by
  unfold StakingManager.release
  cases hget : m.stakes.get staker with
  | none => exact h.handled_self staker
  | some entry =>
    obtain rfl : entry.staker = staker := key_of_get hget
    have hheld := keyOf_of_stakes hget
    have hregistration := (h.exclusive entry.staker).resolve_left (by simp [hget])
    refine h.handled (Rekeyed.removeStake hregistration rfl rfl) ?_ ?_ ?_
    · rintro _ ⟨⟩
    · exact h.owners.drop hheld
    · exact h.rewards.drop (rewardOf_eq hheld)

theorem checkCooldowns (h : Registry keys m) (iteration : Iteration StakeEntry) (currentBlock : ℕ) :
    Registry keys (m.checkCooldowns iteration currentBlock) ∧
      ∀ owner ∉ m.matured iteration currentBlock,
        (m.checkCooldowns iteration currentBlock).keyOf owner = m.keyOf owner := by
  unfold StakingManager.checkCooldowns
  generalize m.matured iteration currentBlock = stakers
  induction stakers generalizing m with
  | nil => exact ⟨h, fun _ _ => rfl⟩
  | cons staker stakers ih =>
    have hrelease := h.release staker
    obtain ⟨hregistry, hothers⟩ := ih hrelease.registry
    constructor
    · exact hregistry
    · intro owner howner
      rw [mem_cons, not_or] at howner
      rw [foldl_cons, hothers owner howner.2, hrelease.others owner howner.1]

def links (persisted : PersistedStakingState) : List (Address × Bytes) :=
  persisted.stakes.map (fun entry => (entry.staker, entry.blsPubkey)) ++
    persisted.registrations.map fun entry => (entry.evmAddress, entry.blsPubkey)

/-- What the two maps become when entries are loaded one after the other. -/
theorem foldl_load {ε : Type} (load : StakingManager → ε → StakingManager)
    (pair : ε → Address × Bytes)
    (hload : ∀ m e, (load m e).blsToStaker = (m.link (pair e).2 (pair e).1).blsToStaker ∧
      (load m e).rewardToStaker = (m.link (pair e).2 (pair e).1).rewardToStaker)
    (entries : List ε) (m : StakingManager) :
    (entries.foldl load m).blsToStaker = (entries.map pair).foldl record m.blsToStaker ∧
      (entries.foldl load m).rewardToStaker = ((entries.map pair).map fun pair =>
        (pair.1, blsPubkeyToRewardAddress pair.2)).foldl record m.rewardToStaker := by
  induction entries generalizing m with
  | nil => exact ⟨rfl, rfl⟩
  | cons entry entries ih =>
    obtain ⟨hbls, hreward⟩ := ih (load m entry)
    rw [(hload m entry).1] at hbls
    rw [(hload m entry).2] at hreward
    exact ⟨hbls, hreward⟩

theorem load_maps (persisted : PersistedStakingState) :
    (StakingManager.load persisted).blsToStaker =
        (links persisted).foldl record (fun _ => none) ∧
      (StakingManager.load persisted).rewardToStaker =
        ((links persisted).map fun pair => (pair.1, blsPubkeyToRewardAddress pair.2)).foldl record
          (fun _ => none) := by
  have hstakes := foldl_load loadStake (fun entry => (entry.staker, entry.blsPubkey))
    (fun _ _ => ⟨rfl, rfl⟩) persisted.stakes .new
  have hregistrations := foldl_load loadRegistration
    (fun entry => (entry.evmAddress, entry.blsPubkey)) (fun _ _ => ⟨rfl, rfl⟩)
    persisted.registrations (persisted.stakes.foldl loadStake .new)
  rw [links, map_append, foldl_append, foldl_append]
  exact ⟨hregistrations.1.trans (by rw [hstakes.1]; rfl),
    hregistrations.2.trans (by rw [hstakes.2]; rfl)⟩

theorem mem_links_save (h : Registry keys m) (stakeOrder : Iteration StakeEntry)
    (registrationOrder : Iteration RegistrationEntry) (owner : Address) (blsPubkey : Bytes) :
    (owner, blsPubkey) ∈ links (m.save stakeOrder registrationOrder) ↔
      m.keyOf owner = some blsPubkey := by
  rw [links, mem_append, mem_map, mem_map]
  simp only [save, (stakeOrder.perm _).mem_iff, (registrationOrder.perm _).mem_iff]
  constructor
  · rintro (⟨entry, hentry, heq⟩ | ⟨entry, hentry, heq⟩)
    · obtain ⟨rfl, rfl⟩ := Prod.mk.inj heq
      exact keyOf_of_stakes (get_eq_some.mpr ⟨hentry, rfl⟩)
    · obtain ⟨rfl, rfl⟩ := Prod.mk.inj heq
      have hget : m.registrations.get entry.evmAddress = some entry :=
        get_eq_some.mpr ⟨hentry, rfl⟩
      have hstake : m.stakes.get entry.evmAddress = none :=
        (h.exclusive entry.evmAddress).resolve_right (by simp [hget])
      exact keyOf_of_registrations hstake hget
  · intro hkey
    cases hstake : m.stakes.get owner with
    | some entry =>
      rw [keyOf_of_stakes hstake] at hkey
      obtain ⟨hentry, hstaker⟩ := get_eq_some.mp hstake
      exact .inl ⟨entry, hentry, by rw [hstaker, Option.some.inj hkey]⟩
    | none =>
      cases hregistered : m.registrations.get owner with
      | none => simp [keyOf, hstake, hregistered] at hkey
      | some entry =>
        rw [keyOf_of_registrations hstake hregistered] at hkey
        obtain ⟨hentry, haddress⟩ := get_eq_some.mp hregistered
        exact .inr ⟨entry, hentry, by rw [haddress, Option.some.inj hkey]⟩

theorem reload (h : Registry keys m) (stakeOrder : Iteration StakeEntry)
    (registrationOrder : Iteration RegistrationEntry) :
    m.SameRegistry (StakingManager.load (m.save stakeOrder registrationOrder)) := by
  set persisted := m.save stakeOrder registrationOrder with hpersisted
  have hlinks := h.mem_links_save stakeOrder registrationOrder
  rw [← hpersisted] at hlinks
  obtain ⟨hbls, hreward⟩ := load_maps persisted
  constructor
  · intro address
    exact stakes_reload m stakeOrder registrationOrder address
  · intro address
    exact registrations_reload m stakeOrder registrationOrder address
  · rw [hbls]
    exact h.owners.refill hlinks
  · rw [hreward]
    apply h.rewards.refill
    intro owner address
    simp only [mem_map, Prod.mk.injEq, Prod.exists, hlinks, rewardOf,
      comp_apply, Option.map_eq_some_iff]
    constructor
    · rintro ⟨other, blsPubkey, hkey, rfl, rfl⟩
      exact ⟨blsPubkey, hkey, rfl⟩
    · rintro ⟨blsPubkey, hkey, rfl⟩
      exact ⟨owner, blsPubkey, hkey, rfl, rfl⟩
  · rfl
  · rfl
  · rfl

omit [Keccak] in
theorem exists_of_mem_matured {iteration : Iteration StakeEntry} {currentBlock : ℕ}
    (h : owner ∈ m.matured iteration currentBlock) :
    ∃ entry, m.stakes.get owner = some entry ∧ entry.status.isMatured currentBlock = true := by
  obtain ⟨entry, hentry, rfl⟩ := mem_map.mp h
  obtain ⟨hentry, hmatured⟩ := mem_filter.mp hentry
  exact ⟨entry, get_eq_some.mpr ⟨(iteration.perm _).mem_iff.mp hentry, rfl⟩, hmatured⟩

theorem apply (h : Registry keys m) (hdistinguished : Distinguished keys) {event : RegistryEvent}
    (hknown : event.keys ⊆ keys) :
    Registry keys (m.apply event) ∧
      ∀ owner, ¬ m.MayRelease owner event → (m.apply event).keyOf owner = m.keyOf owner := by
  cases event with
  | transaction number tx =>
    obtain ⟨hregistry, hothers⟩ := h.processTransaction hdistinguished hknown
    exact ⟨hregistry, fun owner howner => hothers owner fun call hcall => howner ⟨call, hcall⟩⟩
  | checkCooldowns iteration currentBlock =>
    obtain ⟨hregistry, hothers⟩ := h.checkCooldowns iteration currentBlock
    exact ⟨hregistry, fun owner howner =>
      hothers owner fun hmem => howner (exists_of_mem_matured hmem)⟩
  | takePendingReturns max => exact ⟨h.of_same h.exclusive rfl rfl rfl, fun _ _ => rfl⟩
  | reload stakeOrder registrationOrder =>
    have hsame := h.reload stakeOrder registrationOrder
    have hkey : (m.apply (.reload stakeOrder registrationOrder)).keyOf = m.keyOf := by
      funext owner
      simp only [StakingManager.apply, StakingManager.keyOf, hsame.stakes, hsame.registrations]
    constructor
    · apply h.of_same _ hkey hsame.blsToStaker hsame.rewardToStaker
      intro address
      simp only [StakingManager.apply, hsame.stakes, hsame.registrations]
      exact h.exclusive address
    · exact fun owner _ => congrFun hkey owner

theorem run (events : List RegistryEvent) (h : Registry keys m)
    (hdistinguished : Distinguished keys) (hknown : events.flatMap RegistryEvent.keys ⊆ keys) :
    Registry keys (m.run events) := by
  induction events generalizing m with
  | nil => exact h
  | cons event events ih =>
    rw [flatMap_cons, append_subset] at hknown
    exact ih (h.apply hdistinguished hknown.1).1 hknown.2

end Registry

/-- Over every run the maps of keys are the inverse of the entries, a key changes hands only with
its owner's doing, and a saved registry is loaded as it was. -/
theorem registry_consistent [Keccak] (events : List RegistryEvent)
    (hdistinguished : Distinguished (events.flatMap RegistryEvent.keys)) :
    (StakingManager.new.run events).RegistryConsistent ∧
      (∀ before event after, events = before ++ event :: after → ∀ blsPubkey owner,
        (StakingManager.new.run before).blsToStaker blsPubkey = some owner →
        ((StakingManager.new.run before).apply event).blsToStaker blsPubkey ≠ some owner →
        (StakingManager.new.run before).MayRelease owner event) ∧
      ∀ stakeOrder registrationOrder, (StakingManager.new.run events).SameRegistry
        (StakingManager.load
          ((StakingManager.new.run events).save stakeOrder registrationOrder)) := by
  have hnew := Registry.new (events.flatMap RegistryEvent.keys)
  have hrun := hnew.run events hdistinguished (List.Subset.refl _)
  refine ⟨hrun.consistent, ?_, fun stakeOrder registrationOrder =>
    hrun.reload stakeOrder registrationOrder⟩
  intro before event after hevents blsPubkey owner hbefore hafter
  have hkeys : events.flatMap RegistryEvent.keys =
      before.flatMap RegistryEvent.keys ++ (event.keys ++ after.flatMap RegistryEvent.keys) := by
    rw [hevents, flatMap_append, flatMap_cons]
  have hprefix : before.flatMap RegistryEvent.keys ⊆ events.flatMap RegistryEvent.keys := by
    rw [hkeys]
    exact subset_append_left _ _
  have hevent : event.keys ⊆ events.flatMap RegistryEvent.keys := by
    rw [hkeys]
    exact List.Subset.trans (subset_append_left _ _) (subset_append_right _ _)
  have hheld := hnew.run before hdistinguished hprefix
  obtain ⟨hregistry, hothers⟩ := hheld.apply hdistinguished hevent
  by_contra hrelease
  apply hafter
  rw [hregistry.owners, hothers owner hrelease, ← hheld.owners]
  exact hbefore

section

local instance widthKeccak : Keccak := ⟨fun bytes => BitVec.ofNat 256 (beNat bytes)⟩

/-- One address stakes and unstakes, another registers; the first is paid out and the state is
saved and loaded. -/
def registrySample : List RegistryEvent :=
  [.transaction 1 ⟨some STAKING_ADDRESS, 5, List.replicate 48 1, some 7⟩,
    .transaction 1 ⟨some STAKING_ADDRESS, 0, List.replicate 48 2, some 8⟩,
    .transaction 2 ⟨some STAKING_ADDRESS, 0, UNSTAKE_SELECTOR, some 7⟩,
    .checkCooldowns (.asListed StakeEntry) (UNSTAKE_COOLDOWN_BLOCKS + 2),
    .reload (.asListed StakeEntry) (.asListed RegistrationEntry)]

theorem registrySample_spec : Distinguished (registrySample.flatMap RegistryEvent.keys) ∧
    (StakingManager.new.run registrySample).blsToStaker (List.replicate 48 1) = none ∧
    (StakingManager.new.run registrySample).blsToStaker (List.replicate 48 2) = some 8 := by
  decide

theorem registry_consistent_sample :
    Distinguished (registrySample.flatMap RegistryEvent.keys) ∧
      (StakingManager.new.run registrySample).blsToStaker (List.replicate 48 2) = some 8 ∧
      (StakingManager.new.run registrySample).RegistryConsistent :=
  ⟨registrySample_spec.1, registrySample_spec.2.2,
    (registry_consistent registrySample registrySample_spec.1).1⟩

end

end N42.Staking
