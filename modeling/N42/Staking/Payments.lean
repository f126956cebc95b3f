import N42.Staking.Ledger
import Mathlib.Data.List.Induction

/-!
Every run whose steps are fair pays each unstake at most once and keeps it due until then.
-/

namespace N42.Staking

open Lib List Function StakingManager
open StakingManager (load)

theorem keyUses_append (chain chain' : List Block) :
    keyUses (chain ++ chain') = keyUses chain ++ keyUses chain' := flatMap_append

variable {block : Block}

theorem keyUses_subset_of_mem {chain : List Block} (h : block ∈ chain) :
    block.transactions.filterMap Transaction.keyUse ⊆ keyUses chain := fun _ huse =>
  mem_flatMap.mpr ⟨block, h, huse⟩

variable {transactions : List Transaction}

section

variable [Keccak]

theorem ledger_append (chain : List Block) (block : Block) :
    ledger (chain ++ [block]) = (ledger chain).scanCommittedBlock
      ((ledger chain).lastScannedBlock + 1) block.transactions := by
  simp [ledger]

variable {uses : List (Address × Bytes)}

theorem ledger_spec (hexclusive : Exclusive uses) (chain : List Block)
    (huses : keyUses chain ⊆ uses) :
    (ledger chain).Keyed uses ∧ (ledger chain).lastScannedBlock = chain.length := by
  induction chain using List.reverseRecOn with
  | nil => exact ⟨keyed_new uses, rfl⟩
  | append_singleton chain block ih =>
    rw [keyUses_append] at huses
    obtain ⟨hkeyed, hscanned⟩ := ih (List.Subset.trans (subset_append_left _ _) huses)
    have hblock : block.transactions.filterMap Transaction.keyUse ⊆ uses :=
      List.Subset.trans (keyUses_subset_of_mem mem_cons_self)
        (List.Subset.trans (subset_append_right _ _) huses)
    have hscan := scanCommittedBlock_spec hkeyed hexclusive hblock
      ((ledger chain).lastScannedBlock + 1)
    rw [ledger_append]
    constructor
    · exact hscan.1
    · rw [hscan.2.2.1, hscanned, length_append, length_singleton]

theorem status_ledger_take_succ {chain : List Block} (hexclusive : Exclusive (keyUses chain))
    {n : ℕ} (hblock : chain[n]? = some block) : (ledger (chain.take (n + 1))).status =
      block.transactions.foldl (Statuses.process (n + 1)) (ledger (chain.take n)).status := by
  obtain ⟨hn, -⟩ := List.getElem?_eq_some_iff.mp hblock
  have hprefix : keyUses (chain.take n) ⊆ keyUses chain := by
    intro use huse
    obtain ⟨b, hb, huse⟩ := mem_flatMap.mp huse
    exact mem_flatMap.mpr ⟨b, mem_of_mem_take hb, huse⟩
  obtain ⟨hkeyed, hscanned⟩ := ledger_spec hexclusive (chain.take n) hprefix
  rw [length_take, min_eq_left hn.le] at hscanned
  have hscan := scanCommittedBlock_spec hkeyed hexclusive
    (keyUses_subset_of_mem (mem_of_getElem? hblock)) (n + 1)
  rw [take_add_one, hblock, Option.toList_some, ledger_append, hscanned]
  exact hscan.2.2.2

/-- A manager agrees with the ledger of the blocks it scanned, except for unstakes that it has
released: those are queued, or are given elsewhere. -/
structure Consistent (chain : List Block) (given : List Unstake) (m : StakingManager) : Prop where
  keyed : m.Keyed (keyUses chain)
  scanned : m.lastScannedBlock ≤ chain.length
  behind : Statuses.Behind (fun u => u ∈ given ∨ u ∈ m.queued)
    (ledger (chain.take m.lastScannedBlock)).status m.status

namespace Consistent

variable {chain : List Block} {given : List Unstake} {m : StakingManager}

theorem new (chain : List Block) (given : List Unstake) : Consistent chain given .new := by
  constructor
  · exact keyed_new _
  · exact Nat.zero_le _
  · exact Statuses.Behind.refl _ _

variable (h : Consistent chain given m)
include h

theorem mono {given' : List Unstake} (hgiven : given ⊆ given') : Consistent chain given' m where
  keyed := h.keyed
  scanned := h.scanned
  behind := h.behind.mono fun _ hu => hu.imp_left fun hmem => hgiven hmem

theorem append (chain' : List Block) : Consistent (chain ++ chain') given m := by
  constructor
  · rw [keyUses_append]
    exact h.keyed.mono (subset_append_left _ _)
  · rw [length_append]
    exact h.scanned.trans (Nat.le_add_right _ _)
  · rw [take_append_of_le_length h.scanned]
    exact h.behind

theorem scan (hexclusive : Exclusive (keyUses chain))
    (hblock : chain[m.lastScannedBlock]? = some block) : Consistent chain given
      (m.scanCommittedBlock (m.lastScannedBlock + 1) block.transactions) := by
  obtain ⟨hkeyed, hqueued, hscanned, hstatus⟩ :=
    scanCommittedBlock_spec h.keyed hexclusive
      (keyUses_subset_of_mem (mem_of_getElem? hblock)) (m.lastScannedBlock + 1)
  constructor
  · exact hkeyed
  · rw [hscanned]
    exact (List.getElem?_eq_some_iff.mp hblock).1
  · rw [hscanned, hqueued, hstatus, status_ledger_take_succ hexclusive hblock]
    exact h.behind.process block.transactions

theorem release {staker : Address} {block : ℕ}
    (hstatus : m.status staker = some (.unstaking block)) :
    Consistent chain given (m.release staker) := by
  obtain ⟨hqueued, hscanned, hafter⟩ := release_spec hstatus
  constructor
  · exact h.keyed.release staker
  · rw [hscanned]
    exact h.scanned
  · rw [hscanned, hqueued, hafter]
    have hmore := h.behind.mono fun u hu =>
      hu.imp_right fun hmem => mem_append_left [(staker, block)] hmem
    exact hmore.release hstatus (.inr (mem_append_right _ mem_cons_self))

/-- What a build takes off the queue has to be given elsewhere. -/
theorem withdrawalsForBlock (iteration : Iteration StakeEntry)
    (rewards : List Withdrawal) (number : ℕ) {given' : List Unstake} (hgiven : given ⊆ given')
    (hdrawn : (m.withdrawalsForBlock iteration rewards number).1.unstakes ⊆ given') :
    Consistent chain given' (m.withdrawalsForBlock iteration rewards number).2 := by
  have hchecked : Consistent chain given (m.checkCooldowns iteration number) :=
    checkCooldowns_induction (fun _ _ _ hm hstatus => hm.release hstatus) h
      iteration number
  constructor
  · exact ⟨hchecked.keyed.linked, hchecked.keyed.staked, hchecked.keyed.registered⟩
  · exact hchecked.scanned
  · apply hchecked.behind.mono
    intro u hu
    rcases hu with hu | hu
    · exact .inl (hgiven hu)
    · obtain ⟨r, hr, rfl⟩ := mem_map.mp hu
      rw [← take_append_drop MAX_RETURNS
        (m.checkCooldowns iteration number).pendingReturns, mem_append] at hr
      rcases hr with hr | hr
      · exact .inl (hdrawn (mem_map_of_mem hr))
      · exact .inr (mem_map_of_mem hr)

theorem reload (stakeOrder : Iteration StakeEntry)
    (registrationOrder : Iteration RegistrationEntry) :
    Consistent chain given (load (m.save stakeOrder registrationOrder)) := by
  constructor
  · exact h.keyed.reload stakeOrder registrationOrder
  · exact h.scanned
  · rw [status_reload]
    exact h.behind

end Consistent

/-- No unstake is queued or drawn twice, or still staked when it is. -/
def Balanced (drawn : List Unstake) (m : StakingManager) : Prop :=
  Statuses.Balanced (m.queued ++ drawn) m.status m.lastScannedBlock

namespace Balanced

variable {drawn : List Unstake} {m : StakingManager}

variable (h : Balanced drawn m)
include h

theorem scan (hkeyed : m.Keyed uses) (hexclusive : Exclusive uses)
    (huses : transactions.filterMap Transaction.keyUse ⊆ uses) :
    Balanced drawn (m.scanCommittedBlock (m.lastScannedBlock + 1) transactions) := by
  obtain ⟨-, hqueued, hscanned, hstatus⟩ :=
    scanCommittedBlock_spec hkeyed hexclusive huses (m.lastScannedBlock + 1)
  unfold Balanced
  rw [hqueued, hscanned, hstatus]
  exact Statuses.Balanced.process transactions h

theorem release {staker : Address} {block : ℕ}
    (hstatus : m.status staker = some (.unstaking block)) : Balanced drawn (m.release staker) := by
  obtain ⟨hqueued, hscanned, hafter⟩ := release_spec hstatus
  unfold Balanced
  rw [hqueued, hscanned, hafter]
  apply (Statuses.Balanced.release h hstatus).perm
  rw [append_assoc]
  exact perm_middle

theorem withdrawalsForBlock (iteration : Iteration StakeEntry)
    (rewards : List Withdrawal) (number : ℕ) :
    Balanced (drawn ++ (m.withdrawalsForBlock iteration rewards number).1.unstakes)
      (m.withdrawalsForBlock iteration rewards number).2 := by
  have hchecked : Balanced drawn (m.checkCooldowns iteration number) :=
    checkCooldowns_induction (fun _ _ _ hm hstatus => hm.release hstatus) h
      iteration number
  have hsplit : (m.checkCooldowns iteration number).queued =
      (m.withdrawalsForBlock iteration rewards number).1.unstakes ++
        (m.withdrawalsForBlock iteration rewards number).2.queued := by
    rw [queued, ← take_append_drop MAX_RETURNS
      (m.checkCooldowns iteration number).pendingReturns, map_append]
    rfl
  unfold Balanced at hchecked
  rw [hsplit] at hchecked
  apply hchecked.perm
  rw [← append_assoc, append_assoc _ _ drawn]
  exact perm_append_comm

theorem reload (stakeOrder : Iteration StakeEntry)
    (registrationOrder : Iteration RegistrationEntry) :
    Balanced drawn (load (m.save stakeOrder registrationOrder)) := by
  unfold Balanced
  rw [status_reload]
  exact h

end Balanced

end

namespace World

def given (w : World) (node : ℕ) : List Unstake := w.paid ++ w.building node

theorem flatMap_of_eraseIdx_nil {α β : Type} {f : α → List β} {l : List α} {k : ℕ} {a : α}
    (hk : l[k]? = some a) (h : ∀ b ∈ l.eraseIdx k, f b = []) : l.flatMap f = f a := by
  induction l generalizing k with
  | nil => cases hk
  | cons b l ih =>
    cases k with
    | zero =>
      obtain rfl : b = a := by simpa using hk
      rw [eraseIdx_zero, tail_cons] at h
      rw [flatMap_cons, flatMap_eq_nil_iff.mpr h, append_nil]
    | succ k =>
      rw [flatMap_cons, h b mem_cons_self]
      exact ih (by simpa using hk) fun c hc => h c (mem_cons_of_mem b hc)

section

variable [Keccak]

structure Inv (builder : ℕ) (w : World) : Prop where
  exclusive : Exclusive (keyUses w.chain)
  current : ∀ node, Consistent w.chain (w.given node) (w.nodes node).manager
  saved : ∀ node, Consistent w.chain (w.given node) (load (w.nodes node).saved)
  balanced : Balanced w.drawn (w.nodes builder).manager
  balanced_saved : (w.nodes builder).drew = false → Balanced w.drawn (load (w.nodes builder).saved)

variable {builder : ℕ} {w : World}

omit [Keccak] in
theorem balanced_new : Balanced [] .new := by
  constructor
  · exact nodup_nil
  · intro u hu
    cases hu
  · intro staker block h
    cases h

theorem inv_init (builder : ℕ) : init.Inv builder where
  exclusive := by
    intro a ha
    cases ha
  current node := Consistent.new [] _
  saved node := (Consistent.new [] _).reload _ _
  balanced := balanced_new
  balanced_saved _ := balanced_new.reload _ _

section

variable (h : w.Inv builder)
include h

/-- One node changes, and may build a candidate. -/
theorem Inv.change {w' : World} {node : ℕ} {value : Node} (hchain : w'.chain = w.chain)
    (hnodes : w'.nodes = update w.nodes node value)
    (hgiven : ∀ other, w.given other ⊆ w'.given other)
    (hcurrent : Consistent w.chain (w'.given node) value.manager)
    (hsaved : Consistent w.chain (w'.given node) (load value.saved))
    (hdrawn : node ≠ builder → w'.drawn = w.drawn)
    (hbalanced : node = builder → Balanced w'.drawn value.manager ∧
      (value.drew = false → Balanced w'.drawn (load value.saved))) : w'.Inv builder := by
  have hself : w'.nodes node = value := hnodes ▸ update_self ..
  have hother : ∀ other ≠ node, w'.nodes other = w.nodes other := fun other hne =>
    hnodes ▸ update_of_ne hne ..
  have hbooks : Balanced w'.drawn (w'.nodes builder).manager ∧ ((w'.nodes builder).drew = false →
      Balanced w'.drawn (load (w'.nodes builder).saved)) := by
    by_cases hne : node = builder
    · subst hne
      rw [hself]
      exact hbalanced rfl
    · rw [hother builder (Ne.symm hne), hdrawn hne]
      exact ⟨h.balanced, h.balanced_saved⟩
  have heach : ∀ other, Consistent w'.chain (w'.given other) (w'.nodes other).manager ∧
      Consistent w'.chain (w'.given other) (load (w'.nodes other).saved) := by
    intro other
    rw [hchain]
    by_cases hne : other = node
    · subst hne
      rw [hself]
      exact ⟨hcurrent, hsaved⟩
    · rw [hother other hne]
      exact ⟨(h.current other).mono (hgiven other), (h.saved other).mono (hgiven other)⟩
  exact ⟨hchain ▸ h.exclusive, fun other => (heach other).1, fun other => (heach other).2, hbooks.1,
    hbooks.2⟩

theorem Inv.set {node : ℕ} {value : Node}
    (hcurrent : Consistent w.chain (w.given node) value.manager)
    (hsaved : Consistent w.chain (w.given node) (load value.saved))
    (hbalanced : node = builder → Balanced w.drawn value.manager ∧
      (value.drew = false → Balanced w.drawn (load value.saved))) :
    (w.set node value).Inv builder :=
  h.change rfl rfl (fun _ => List.Subset.refl _) hcurrent hsaved (fun _ => rfl) hbalanced

theorem Inv.scan (node : ℕ) : (w.step (.scan node)).Inv builder := by
  simp only [step]
  cases hblock : w.chain[(w.nodes node).manager.lastScannedBlock]? with
  | none => exact h
  | some block =>
    apply h.set
    · exact (h.current node).scan h.exclusive hblock
    · exact h.saved node
    · rintro rfl
      exact ⟨h.balanced.scan (h.current node).keyed h.exclusive
        (keyUses_subset_of_mem (mem_of_getElem? hblock)), h.balanced_saved⟩

theorem Inv.save (node : ℕ) (stakeOrder : Iteration StakeEntry)
    (registrationOrder : Iteration RegistrationEntry) :
    (w.step (.save node stakeOrder registrationOrder)).Inv builder := by
  apply h.set
  · exact h.current node
  · exact (h.current node).reload stakeOrder registrationOrder
  · rintro rfl
    exact ⟨h.balanced, fun _ => h.balanced.reload stakeOrder registrationOrder⟩

theorem Inv.reload {node : ℕ} (hfair : w.Fair builder (.reload node)) :
    (w.step (.reload node)).Inv builder := by
  apply h.set
  · exact h.saved node
  · exact h.saved node
  · rintro rfl
    exact ⟨h.balanced_saved hfair, h.balanced_saved⟩

end

variable {iteration : Iteration StakeEntry}

theorem step_build {node number : ℕ} {rewards : List Withdrawal}
    (hnumber : number ≤ w.chain.length + 1) {build : Build} {manager : StakingManager}
    (hbuild : (w.nodes node).manager.withdrawalsForBlock iteration rewards number =
      (build, manager)) : w.step (.build node number rewards iteration) =
      { w.set node ⟨manager, (w.nodes node).saved,
          (w.nodes node).drew || !build.returns.isEmpty⟩ with
        candidates := w.candidates ++ [⟨node, build⟩] } := by
  simp only [step, hnumber, if_true, hbuild]

theorem Inv.build (h : w.Inv builder) {node number : ℕ} {rewards : List Withdrawal}
    (hfair : w.Fair builder (.build node number rewards iteration)) :
    (w.step (.build node number rewards iteration)).Inv builder := by
  by_cases hnumber : number ≤ w.chain.length + 1
  swap
  · simpa [step, hnumber] using h
  obtain ⟨build, manager, hbuild⟩ : ∃ build manager,
      (w.nodes node).manager.withdrawalsForBlock iteration rewards number = (build, manager) :=
    ⟨_, _, rfl⟩
  rw [step_build hnumber hbuild]
  set w' : World := { w.set node ⟨manager, (w.nodes node).saved,
    (w.nodes node).drew || !build.returns.isEmpty⟩ with
      candidates := w.candidates ++ [⟨node, build⟩] } with hw'
  have hdrawn : w'.drawn = w.drawn ++ build.unstakes := by
    simp [hw', drawn, paid, World.set]
  have hgiven : ∀ other, w.given other ⊆ w'.given other := by
    simp [hw', given, paid, building, World.set]
  have hnode : build.unstakes ⊆ w'.given node := by
    simp [hw', given, building]
  have hmanager : Consistent w.chain (w'.given node) manager := by
    have hbuilt := (h.current node).withdrawalsForBlock iteration rewards number (hgiven node)
    rw [hbuild] at hbuilt
    exact hbuilt hnode
  -- A build that takes nothing leaves what is drawn as it was.
  have hnothing : build.returns = [] → w'.drawn = w.drawn := by
    intro hreturns
    rw [hdrawn, Build.unstakes, hreturns, map_nil, append_nil]
  have hidle : node ≠ builder → w'.drawn = w.drawn := by
    intro hne
    apply hnothing
    have hdraws : w.draws node number iteration = build.returns := congrArg (·.1.returns) hbuild
    rw [← hdraws]
    exact hfair hne
  refine h.change rfl rfl hgiven hmanager ((h.saved node).mono (hgiven node)) hidle ?_
  rintro rfl
  constructor
  · have hbuilt := h.balanced.withdrawalsForBlock iteration rewards number
    rw [hbuild] at hbuilt
    rw [hdrawn]
    exact hbuilt
  · intro hdrew
    obtain ⟨hbefore, hreturns⟩ : (w.nodes node).drew = false ∧ build.returns = [] := by
      simpa using hdrew
    rw [hnothing hreturns]
    exact h.balanced_saved hbefore

theorem Inv.commit (h : w.Inv builder) {candidate : ℕ}
    (hfair : w.Fair builder (.commit candidate transactions)) :
    (w.step (.commit candidate transactions)).Inv builder := by
  obtain ⟨hdiscarded, hexclusive⟩ := hfair
  simp only [step]
  cases hchosen : w.candidates[candidate]? with
  | none => exact h
  | some chosen =>
    set w' : World := { w with
      chain := w.chain ++ [⟨transactions, chosen.build⟩], candidates := [] } with hw'
    have hcarried : w.candidates.flatMap (·.build.unstakes) = chosen.build.unstakes := by
      apply flatMap_of_eraseIdx_nil hchosen
      intro other hother
      rw [Build.unstakes, hdiscarded other hother, map_nil]
    have hpaid : w'.paid = w.paid ++ chosen.build.unstakes := by simp [hw', paid]
    have hdrawn : w'.drawn = w.drawn := by
      rw [drawn, drawn, hpaid, hcarried]
      simp [hw']
    have hgiven : ∀ node, w.given node ⊆ w'.given node := by
      intro node u hu
      have hbuilding : w'.building node = [] := rfl
      rw [given, hbuilding, append_nil, hpaid]
      rcases mem_append.mp hu with hu | hu
      · exact mem_append_left _ hu
      · obtain ⟨other, hother, hu⟩ := mem_flatMap.mp hu
        apply mem_append_right
        rw [← hcarried]
        exact mem_flatMap.mpr ⟨other, mem_of_mem_filter hother, hu⟩
    constructor
    · have huses : keyUses w'.chain =
          keyUses w.chain ++ transactions.filterMap Transaction.keyUse := by
        simp [hw', keyUses]
      rw [huses]
      exact hexclusive
    · intro node
      exact ((h.current node).mono (hgiven node)).append _
    · intro node
      exact ((h.saved node).mono (hgiven node)).append _
    · rw [hdrawn]
      exact h.balanced
    · rw [hdrawn]
      exact h.balanced_saved

theorem Inv.step (h : w.Inv builder) {event : Event} (hfair : w.Fair builder event) :
    (w.step event).Inv builder := by
  cases event with
  | scan node => exact h.scan node
  | build node number rewards iteration => exact h.build hfair
  | commit candidate transactions => exact h.commit hfair
  | save node stakeOrder registrationOrder => exact h.save node stakeOrder registrationOrder
  | reload node => exact h.reload hfair

theorem Inv.run (events : List Event) (h : w.Inv builder) (hfair : w.AlwaysFair builder events) :
    (w.run events).Inv builder := by
  induction events generalizing w with
  | nil => exact h
  | cons event events ih => exact ih (h.step hfair.1) hfair.2

theorem Inv.paidOnce (h : w.Inv builder) : w.PaidOnce where
  once := by
    have hnodup := (nodup_append.mp h.balanced.nodup).2.1
    exact (nodup_append.mp hnodup).1
  due node staker block hledger := by
    rcases (h.current node).behind staker with heq | ⟨block', hledger', -, hdue⟩
    · exact .inr (.inl (heq.trans hledger))
    · obtain rfl : block' = block := by simpa using hledger'.symm.trans hledger
      rcases hdue with hdue | hdue
      · rcases mem_append.mp hdue with hdue | hdue
        · exact .inl hdue
        · exact .inr (.inr (.inr hdue))
      · exact .inr (.inr (.inl hdue))

/-- When every step is fair, each unstake is paid by at most one committed block, and stays due on
every node until one pays it. -/
theorem unstakes_paid_once (builder : ℕ) (events : List Event)
    (hfair : init.AlwaysFair builder events) : (init.run events).PaidOnce :=
  ((inv_init builder).run events hfair).paidOnce

theorem run_append (w : World) (events events' : List Event) :
    w.run (events ++ events') = (w.run events).run events' := foldl_append

theorem alwaysFair_append {events events' : List Event} (h : w.AlwaysFair builder events)
    (h' : (w.run events).AlwaysFair builder events') :
    w.AlwaysFair builder (events ++ events') := by
  induction events generalizing w with
  | nil => exact h'
  | cons event events ih => exact ⟨h.1, ih h.2 h'⟩

theorem run_cons (w : World) (event : Event) (events : List Event) :
    w.run (event :: events) = (w.step event).run events := rfl

theorem run_nil (w : World) : w.run [] = w := rfl

theorem step_commit {k : ℕ} {chosen : Candidate} (h : w.candidates[k]? = some chosen) :
    w.step (.commit k transactions) =
      { w with chain := w.chain ++ [⟨transactions, chosen.build⟩], candidates := [] } := by
  simp only [step, h]

def emptyBlock : Block := ⟨[], ⟨[], []⟩⟩

def idle (node : ℕ) : ℕ → List Event
  | 0 => []
  | count + 1 => .build node 1 [] (.asListed StakeEntry) :: .commit 0 [] :: idle node count

variable {node : ℕ}

section

variable (hcandidates : w.candidates = []) (hmanager : (w.nodes node).manager = .new)
  (hdrew : (w.nodes node).drew = false)
include hcandidates hmanager hdrew

theorem step_idle :
    w.step (.build node 1 [] (.asListed StakeEntry)) =
      { w with candidates := [⟨node, emptyBlock.build⟩] } := by
  have hbuild : (w.nodes node).manager.withdrawalsForBlock (.asListed StakeEntry) [] 1 =
      (emptyBlock.build, .new) := by
    rw [hmanager]
    rfl
  have hsame : (⟨.new, (w.nodes node).saved, false⟩ : Node) = w.nodes node := by
    rw [← hmanager, ← hdrew]
  rw [step_build (Nat.le_add_left 1 _) hbuild, hcandidates, hdrew]
  simp only [emptyBlock, isEmpty_nil, Bool.not_true, Bool.or_false, nil_append]
  rw [hsame, World.set, update_eq_self]

theorem run_idle (count : ℕ) :
    w.run (idle node count) = { w with chain := w.chain ++ List.replicate count emptyBlock } := by
  induction count generalizing w with
  | zero =>
    rw [replicate_zero, append_nil]
    rfl
  | succ count ih =>
    have hstep : w.run (idle node (count + 1)) =
        World.run { w with chain := w.chain ++ [emptyBlock], candidates := [] }
          (idle node count) := by
      have hfirst := step_idle hcandidates hmanager hdrew
      simp only [run, idle, foldl_cons, hfirst]
      rfl
    have hrest := ih (w := { w with chain := w.chain ++ [emptyBlock], candidates := [] }) rfl
      hmanager hdrew
    rw [hstep, hrest, append_assoc, hcandidates]
    rfl

theorem alwaysFair_idle (hexclusive : Exclusive (keyUses w.chain)) (count : ℕ) :
    w.AlwaysFair builder (idle node count) := by
  induction count generalizing w with
  | zero => trivial
  | succ count ih =>
    refine ⟨?_, ?_⟩
    · intro _
      rw [draws, hmanager]
      rfl
    · rw [step_idle hcandidates hmanager hdrew]
      refine ⟨⟨?_, ?_⟩, ?_⟩
      · intro other hother
        cases hother
      · simpa using hexclusive
      · have hchain : keyUses (w.chain ++ [emptyBlock]) = keyUses w.chain := by
          simp [keyUses, emptyBlock]
        exact ih (w := { w with chain := w.chain ++ [emptyBlock], candidates := [] })
          rfl hmanager hdrew (hchain ▸ hexclusive)

end

end

local instance sampleKeccak : Keccak := ⟨fun bytes => BitVec.ofNat 256 bytes.length⟩

def unstaking : List Event :=
  [.build 9 1 [] (.asListed StakeEntry),
    .commit 0 [⟨some STAKING_ADDRESS, 32000000000000000000, List.replicate 48 1, some 7⟩],
    .build 9 1 [] (.asListed StakeEntry),
    .commit 0 [⟨some STAKING_ADDRESS, 0, UNSTAKE_SELECTOR, some 7⟩],
    .scan 0, .scan 0, .scan 1, .scan 1]

def waited : List Event := unstaking ++ idle 9 UNSTAKE_COOLDOWN_BLOCKS

def cooled : World :=
  { init.run unstaking with
    chain := (init.run unstaking).chain ++ List.replicate UNSTAKE_COOLDOWN_BLOCKS emptyBlock }

theorem run_waited : init.run waited = cooled := by
  rw [waited, run_append]
  exact run_idle rfl rfl rfl _

theorem alwaysFair_waited : init.AlwaysFair 0 waited := by
  apply alwaysFair_append
  · decide
  · exact alwaysFair_idle rfl rfl rfl (by decide) _

theorem length_cooled : cooled.chain.length = UNSTAKE_COOLDOWN_BLOCKS + 2 := by
  have hlength : (init.run unstaking).chain.length = 2 := rfl
  rw [cooled, length_append, hlength, length_replicate, Nat.add_comm]

theorem flatMap_cooled {β : Type} (f : Block → List β) (hempty : f emptyBlock = []) :
    cooled.chain.flatMap f = (init.run unstaking).chain.flatMap f := by
  have hrest : (List.replicate UNSTAKE_COOLDOWN_BLOCKS emptyBlock).flatMap f = [] := by
    rw [flatMap_eq_nil_iff]
    intro block hblock
    rw [eq_of_mem_replicate hblock, hempty]
  rw [cooled, flatMap_append, hrest, append_nil]

theorem paid_cooled : cooled.paid = [] := flatMap_cooled _ rfl

def payout (node : ℕ) : Event := .build node (UNSTAKE_COOLDOWN_BLOCKS + 3) [] (.asListed StakeEntry)

def paidOut (node : ℕ) : Build × StakingManager :=
  (cooled.nodes node).manager.withdrawalsForBlock (.asListed StakeEntry) []
    (UNSTAKE_COOLDOWN_BLOCKS + 3)

/-- Nodes 0 and 1 both return the stake, and then forget it. -/
theorem paidOut_spec : ∀ node ∈ [0, 1],
    (paidOut node).1.unstakes = [(7, 2)] ∧ (paidOut node).2.status 7 = none ∧
      (paidOut node).2.queued = [] ∧ (paidOut node).2.lastScannedBlock = 2 := by decide

def paidOutNode (n : Node) (node : ℕ) : Node :=
  ⟨(paidOut node).2, n.saved, n.drew || !(paidOut node).1.returns.isEmpty⟩

variable {w : World} {node : ℕ}

section

variable (hlength : UNSTAKE_COOLDOWN_BLOCKS + 2 ≤ w.chain.length) (hcandidates : w.candidates = [])
  (hsame : (w.nodes node).manager = (cooled.nodes node).manager)
include hlength hcandidates hsame

theorem step_payout : w.step (payout node) =
      ⟨w.chain, update w.nodes node (paidOutNode (w.nodes node) node),
        [⟨node, (paidOut node).1⟩]⟩ := by
  have hbuild : (w.nodes node).manager.withdrawalsForBlock (.asListed StakeEntry) []
      (UNSTAKE_COOLDOWN_BLOCKS + 3) = ((paidOut node).1, (paidOut node).2) := by
    rw [hsame]
    rfl
  rw [payout, step_build (by omega) hbuild, hcandidates]
  rfl

theorem run_payout : w.run [payout node, .commit 0 []] =
      ⟨w.chain ++ [⟨[], (paidOut node).1⟩],
        update w.nodes node (paidOutNode (w.nodes node) node), []⟩ := by
  rw [run_cons, run_cons, run_nil, step_payout hlength hcandidates hsame, step_commit rfl]

theorem paid_payout (hnode : node ∈ [0, 1]) :
    (w.run [payout node, .commit 0 []]).paid = w.paid ++ [(7, 2)] := by
  rw [run_payout hlength hcandidates hsame, ← (paidOut_spec node hnode).1]
  simp [paid]

end

theorem unstakes_paid_once_sample :
    init.AlwaysFair 0 (waited ++ [payout 0, .commit 0 []]) ∧
      (init.run (waited ++ [payout 0, .commit 0 []])).paid = [(7, 2)] ∧
      (init.run (waited ++ [payout 0, .commit 0 []])).PaidOnce := by
  have hstep := step_payout length_cooled.ge rfl (rfl : (cooled.nodes 0).manager = _)
  have hexclusive : Exclusive (keyUses cooled.chain) := by
    rw [keyUses, flatMap_cooled _ rfl]
    decide
  have hfair : init.AlwaysFair 0 (waited ++ [payout 0, .commit 0 []]) := by
    apply alwaysFair_append alwaysFair_waited
    rw [run_waited]
    refine ⟨fun h => absurd rfl h, ⟨?_, ?_⟩, trivial⟩
    · rw [hstep]
      intro other hother
      cases hother
    · rw [hstep]
      simpa using hexclusive
  refine ⟨hfair, ?_, unstakes_paid_once 0 _ hfair⟩
  rw [run_append, run_waited, paid_payout length_cooled.ge rfl rfl (by decide), paid_cooled,
    nil_append]

theorem ledger_unstaking :
    (ledger (init.run unstaking).chain).status 7 = some (.unstaking 2) := by decide

/-- Node 0 builds with the return, and the block of node 9, which has none, is committed. -/
theorem run_discarded : cooled.run [payout 0, .build 9 1 [] (.asListed StakeEntry), .commit 1 []] =
    ⟨cooled.chain ++ [emptyBlock],
      update cooled.nodes 0 (paidOutNode (cooled.nodes 0) 0), []⟩ := by
  set nodes := update cooled.nodes 0 (paidOutNode (cooled.nodes 0) 0) with hnodes
  have hbuild : (nodes 9).manager.withdrawalsForBlock (.asListed StakeEntry) [] 1 =
      (emptyBlock.build, (nodes 9).manager) := by
    rfl
  have hsame : update nodes 9 ⟨(nodes 9).manager, (nodes 9).saved, (nodes 9).drew⟩ =
      nodes := update_eq_self 9 nodes
  rw [run_cons, run_cons, run_cons, run_nil, step_payout length_cooled.ge rfl rfl, step_build (w := ⟨cooled.chain, nodes, _⟩) (Nat.le_add_left 1 _) hbuild, step_commit rfl]
  simp only [emptyBlock, World.set, isEmpty_nil, Bool.not_true, Bool.or_false, hsame]

/-- The build of node 0 is discarded and the unstake is lost there; or nodes 0 and 1 both pay it. -/
theorem unstakes_not_paid_once :
    ¬ (init.run (waited ++
        [payout 0, .build 9 1 [] (.asListed StakeEntry), .commit 1 []])).PaidOnce ∧
      ¬ (init.run (waited ++ ([payout 0, .commit 0 []] ++ [payout 1, .commit 0 []]))).PaidOnce := by
  rw [run_append, run_append, run_waited]
  constructor
  · intro h
    rw [run_discarded] at h
    set final : World := ⟨cooled.chain ++ [emptyBlock],
      update cooled.nodes 0 (paidOutNode (cooled.nodes 0) 0), []⟩ with hfinal
    have hledger : (ledger (final.chain.take (final.nodes 0).manager.lastScannedBlock)).status 7 =
        some (.unstaking 2) := by
      exact ledger_unstaking
    rcases h.due 0 7 2 hledger with hpaid | hdue | hdue | hdue
    · have hnone : cooled.chain.flatMap (·.build.unstakes) = [] := paid_cooled
      simp only [hfinal, paid, flatMap_append, hnone] at hpaid
      cases hpaid
    · cases hdue
    · cases hdue
    · cases hdue
  · intro h
    have hfirst := run_payout length_cooled.ge rfl (rfl : (cooled.nodes 0).manager = _)
    have hlength : UNSTAKE_COOLDOWN_BLOCKS + 2 ≤
        (cooled.run [payout 0, .commit 0 []]).chain.length := by
      rw [hfirst, length_append, length_cooled]
      exact Nat.le_add_right _ _
    have hsame : ((cooled.run [payout 0, .commit 0 []]).nodes 1).manager =
        (cooled.nodes 1).manager := by
      rw [hfirst]
      rfl
    have hsecond := paid_payout hlength (by rw [hfirst]) hsame (by decide)
    have hnodup := h.once
    rw [run_append, hsecond, paid_payout length_cooled.ge rfl rfl (by decide),
      paid_cooled] at hnodup
    revert hnodup
    decide

end World

end N42.Staking
