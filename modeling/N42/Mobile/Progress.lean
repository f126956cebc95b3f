import N42.Mobile.Exactness

/-!
An attestation is not held back as long as every receipt for the block is fair: the aggregator
then counts exactly the verifiers whose signatures the builder holds.
-/

namespace N42.Mobile

open Lib List MobileVerificationBridge

attribute [local simp] Slot.register Slot.receive

variable {chain : Chain} {blockHash : B256} {registry : VerifierRegistry} {slot : Slot}
  {status : BlockVerificationStatus} {builder : AttestationBuilder}

/-- No receipt came while the block was tracked. -/
def Unheard (received : List Received) : Prop := ∀ entry ∈ received, entry.status = none

/-- The aggregator and the builder agree: both count the supporters, and whoever else was seen
sent another root. -/
structure Counting (chain : Chain) (blockHash : B256) (registry : VerifierRegistry) (slot : Slot)
    (status : BlockVerificationStatus) (builder : AttestationBuilder) : Prop where
  held : slot.builder = some builder
  count : status.validCount = builder.entries.length
  below : status.validCount < status.threshold
  card : (supporters chain slot.received blockHash).card = builder.entries.length
  supporter : ∀ pubkey, pubkey ∈ supporters chain slot.received blockHash ↔
    ∃ index, registry.indexOf pubkey = some index ∧ index ∈ builder.entries.map Prod.fst
  seen : supporters chain slot.received blockHash ⊆ status.seenVerifiers
  others : ∀ pubkey ∈ status.seenVerifiers, pubkey ∈ supporters chain slot.received blockHash ∨
    ∃ entry ∈ slot.received, entry.status.isSome ∧ entry.receipt.verifierPubkey = pubkey ∧
      entry.receipt.computedReceiptsRoot ≠ chain.receiptsRoot blockHash

/-- Nothing is heard of a block before its root is known; from then on the attestation is out, or
the count goes on. -/
inductive Live (chain : Chain) (blockHash : B256) (registry : VerifierRegistry) (slot : Slot) : Prop
  | untracked (hstatus : slot.status = none) (hbuilder : slot.builder = none)
      (hunheard : Unheard slot.received)
  | unrooted {status : BlockVerificationStatus} (hstatus : slot.status = some status)
      (hroot : status.expectedReceiptsRoot = none) (hbuilder : slot.builder = none)
      (hunheard : Unheard slot.received) (hseen : status.seenVerifiers = ∅)
      (hcount : status.validCount = 0) (hthreshold : 0 < status.threshold)
  | rooted {status : BlockVerificationStatus} (hstatus : slot.status = some status)
      (hroot : status.expectedReceiptsRoot = some (chain.receiptsRoot blockHash))
      (hlive : slot.emitted ≠ [] ∨ ∃ builder, Counting chain blockHash registry slot status builder)

variable {received : List Received}

theorem mem_supporters {pubkey : PubkeyBytes} :
    pubkey ∈ supporters chain received blockHash ↔
      ∃ entry ∈ received, entry.Supports chain blockHash ∧
        entry.receipt.verifierPubkey = pubkey := by
  simp [supporters, and_assoc]

theorem supporters_of_unheard (h : Unheard received) : supporters chain received blockHash = ∅ := by
  rw [Finset.eq_empty_iff_forall_notMem]
  intro pubkey hmem
  obtain ⟨entry, hentry, ⟨-, -, hrooted⟩, -⟩ := mem_supporters.mp hmem
  simp [h entry hentry] at hrooted

theorem supporters_slot (bridge : MobileVerificationBridge) :
    supporters chain (bridge.slot blockHash).received blockHash =
      supporters chain bridge.received blockHash := by
  ext pubkey
  simp only [mem_supporters, slot, mem_filter, decide_eq_true_eq]
  constructor
  · rintro ⟨entry, ⟨hentry, -⟩, hrest⟩
    exact ⟨entry, hentry, hrest⟩
  · rintro ⟨entry, hentry, hsupports, hkey⟩
    exact ⟨entry, ⟨hentry, hsupports.1.1⟩, hsupports, hkey⟩

theorem Counting.mono (h : Counting chain blockHash registry slot status builder)
    (hsound : builder.Sound chain registry slot.received blockHash) {later : VerifierRegistry}
    (hregistry : later.Extends registry) : Counting chain blockHash later slot status builder := by
  refine { h with supporter := ?_ }
  intro pubkey
  rw [h.supporter]
  constructor
  · rintro ⟨index, hindex, hmem⟩
    exact ⟨index, hregistry.indexOf hindex, hmem⟩
  · rintro ⟨index, hindex, hmem⟩
    -- the index was in use before, so the key is the one it had
    obtain ⟨e, he, rfl⟩ := mem_map.mp hmem
    obtain ⟨entry, -, -, hat, -⟩ := hsound.entries e he
    have hat' := VerifierRegistry.indexOf_eq_some.mp hindex
    rw [hregistry.pubkeyAt hat] at hat'
    rw [← Option.some.inj hat']
    exact ⟨e.1, VerifierRegistry.indexOf_eq_some.mpr hat, hmem⟩

/-- The first registration of a root starts the count at zero. -/
theorem counting_new {number : ℕ} {root : B256}
    (hbuilder : slot.builder = some (.new blockHash number root)) (hunheard : Unheard slot.received)
    (hseen : status.seenVerifiers = ∅) (hcount : status.validCount = 0)
    (hthreshold : 0 < status.threshold) :
    Counting chain blockHash registry slot status (.new blockHash number root) where
  held := hbuilder
  count := hcount
  below := hcount ▸ hthreshold
  card := by rw [supporters_of_unheard hunheard]; rfl
  supporter pubkey := by simp [supporters_of_unheard hunheard, AttestationBuilder.new]
  seen := by rw [supporters_of_unheard hunheard]; exact Finset.empty_subset _
  others pubkey hmem := by simp [hseen] at hmem

theorem Live.register (h : Live chain blockHash registry slot) {threshold : ℕ}
    (hdefault : 0 < threshold) {root : Option B256}
    (hroot : ∀ r ∈ root, r = chain.receiptsRoot blockHash) :
    Live chain blockHash registry
      (slot.register blockHash (chain.number blockHash) root threshold) := by
  cases h with
  | untracked hstatus hbuilder hunheard =>
    cases root with
    | none =>
      exact .unrooted (by simp [hstatus]; rfl) rfl (by simp [hbuilder])
        hunheard rfl rfl hdefault
    | some receiptsRoot =>
      obtain rfl := hroot receiptsRoot rfl
      exact .rooted (by simp [hstatus]; rfl) rfl
        (.inr ⟨_, counting_new (by simp [hbuilder]; rfl) hunheard rfl rfl hdefault⟩)
  | @unrooted status hstatus hunrooted hbuilder hunheard hseen hcount hthreshold =>
    have hstatus' : (slot.register blockHash (chain.number blockHash) root threshold).status =
        some (status.expect root) := by simp [hstatus]
    obtain ⟨hthreshold', hseen', hcount'⟩ := status.expect_spec root
    cases root with
    | none =>
      rw [status.expect_none] at hstatus'
      exact .unrooted hstatus' hunrooted (by simp [hbuilder]) hunheard hseen hcount
        hthreshold
    | some receiptsRoot =>
      obtain rfl := hroot receiptsRoot rfl
      refine .rooted hstatus' (by simp [BlockVerificationStatus.expect, hunrooted]) (.inr ⟨_,
        counting_new (by simp [hbuilder]; rfl) hunheard (hseen'.trans hseen)
          (hcount'.trans hcount) (hthreshold.trans_eq hthreshold'.symm)⟩)
  | @rooted status hstatus hrooted hlive =>
    refine .rooted ?_ hrooted (hlive.imp_right ?_)
    · simp [hstatus, status.expect_of_isSome (by simp [hrooted])]
    · rintro ⟨builder, hcounting⟩
      exact ⟨builder, { hcounting with held := by simp [hcounting.held] }⟩

section Receipts

variable [Crypto] {receipt : VerificationReceipt}

omit [Crypto] in
theorem not_crosses (hstatus : slot.status = some status)
    (hlt : (status.addReceipt receipt).validCount < status.threshold) :
    slot.crosses receipt = false := by
  rw [Bool.eq_false_iff]
  intro hcross
  obtain ⟨status', hstatus', -, hafter⟩ := Slot.crosses_eq_true.mp hcross
  obtain rfl := Option.some.inj (hstatus'.symm.trans hstatus)
  have hafter := of_decide_eq_true hafter
  rw [(status'.addReceipt_spec receipt).1] at hafter
  omega

/-- What `Fair` says of a receipt with the root of its block. -/
structure Confirming (chain : Chain) (blockHash : B256) (registry : VerifierRegistry) (slot : Slot)
    (receipt : VerificationReceipt) (index : ℕ) : Prop where
  confirms : chain.Confirms blockHash receipt
  index : registry.indexOf receipt.verifierPubkey = some index
  clean : ∀ entry ∈ slot.received, entry.status.isSome →
    entry.receipt.verifierPubkey = receipt.verifierPubkey →
      entry.receipt.computedReceiptsRoot = chain.receiptsRoot blockHash

variable {index : ℕ}

omit [Crypto] in
/-- Such a verifier was seen if and only if the builder holds its signature. -/
theorem Counting.seen_iff (h : Counting chain blockHash registry slot status builder)
    (hr : Confirming chain blockHash registry slot receipt index) :
    (receipt.verifierPubkey ∈ status.seenVerifiers ↔
      receipt.verifierPubkey ∈ supporters chain slot.received blockHash) ∧
      (receipt.verifierPubkey ∈ supporters chain slot.received blockHash ↔
        index ∈ builder.entries.map Prod.fst) := by
  constructor
  · constructor
    · intro hmem
      refine (h.others _ hmem).resolve_right ?_
      rintro ⟨entry, hentry, htracked, hkey, hroot⟩
      exact hroot (hr.clean entry hentry htracked hkey)
    · exact fun hmem => h.seen hmem
  · rw [h.supporter]
    constructor
    · rintro ⟨index', hindex', hmem⟩
      rwa [Option.some.inj (hindex'.symm.trans hr.index)] at hmem
    · exact fun hmem => ⟨index, hr.index, hmem⟩

omit [Crypto] in
theorem entries_push (h : index ∉ builder.entries.map Prod.fst) (signature : BlsSignature) :
    (builder.push index signature).entries = builder.entries ++ [(index, signature)] := by
  simp only [AttestationBuilder.push, h, dif_neg, not_false_eq_true]

section

variable (h : Counting chain blockHash registry slot status builder)
  (hstatus : slot.status = some status)
  (hexpected : status.expectedReceiptsRoot = some (chain.receiptsRoot blockHash))
include h hstatus hexpected

theorem Counting.mismatch (hroot : receipt.computedReceiptsRoot ≠ chain.receiptsRoot blockHash) :
    Counting chain blockHash registry (slot.receive registry receipt) (status.addReceipt receipt)
      builder := by
  have hmismatch : status.matchesExpected receipt = false := by
    simp [BlockVerificationStatus.matchesExpected, hexpected, hroot]
  have hcount : (status.addReceipt receipt).validCount = status.validCount := by
    simp only [BlockVerificationStatus.addReceipt, hmismatch]
    split <;> rfl
  have hseen : (status.addReceipt receipt).seenVerifiers =
      insert receipt.verifierPubkey status.seenVerifiers := by
    simp only [BlockVerificationStatus.addReceipt, hmismatch]
    split
    · next hmem => rw [Finset.insert_eq_of_mem hmem]
    · rfl
  have hsupporters : supporters chain (slot.receive registry receipt).received blockHash =
      supporters chain slot.received blockHash := by
    have hnot : ¬ (slot.entry registry receipt).Supports chain blockHash :=
      fun hsupports => hroot hsupports.1.2.2
    simp [supporters, hnot]
  have hcross := not_crosses hstatus (hcount.trans_lt h.below)
  constructor
  case held => simp [hcross, Slot.fed, hstatus, hmismatch, h.held]
  case count => exact hcount.trans h.count
  case below =>
    rw [hcount, (status.addReceipt_spec receipt).1]
    exact h.below
  case card => exact hsupporters ▸ h.card
  case supporter => exact hsupporters ▸ h.supporter
  case seen =>
    rw [hsupporters, hseen]
    exact h.seen.trans (Finset.subset_insert _ _)
  case others =>
    intro pubkey hmem
    rw [hsupporters]
    rw [hseen] at hmem
    rcases Finset.mem_insert.mp hmem with rfl | hmem
    · exact .inr ⟨slot.entry registry receipt, mem_cons_self, by simp [Slot.entry, hstatus],
        rfl, hroot⟩
    · apply (h.others pubkey hmem).imp_right
      rintro ⟨entry, hentry, hrest⟩
      exact ⟨entry, mem_cons_of_mem _ hentry, hrest⟩

variable (hr : Confirming chain blockHash registry slot receipt index)
include hr

section

variable (hsound : builder.Sound chain registry slot.received blockHash)
include hsound

theorem fed_confirming :
    slot.fed registry receipt = some (builder.push index receipt.signature) ∧
      supporters chain (slot.receive registry receipt).received blockHash =
        insert receipt.verifierPubkey (supporters chain slot.received blockHash) := by
  obtain ⟨hhash, hnumber, hroot⟩ := hr.confirms
  constructor
  · have hmatches : status.matchesExpected receipt = true := by
      simp [BlockVerificationStatus.matchesExpected, hexpected, hroot]
    have haccepts : builder.accepts receipt = true := by
      simp [AttestationBuilder.accepts, hsound.hash, hsound.number, hsound.root, hhash, hnumber,
        hroot]
    simp [Slot.fed, hstatus, hmatches, h.held, AttestationBuilder.addReceipt, haccepts, hr.index]
  · have hsupports : (slot.entry registry receipt).Supports chain blockHash :=
      ⟨hr.confirms, by simp [Slot.entry, hr.index], by simp [Slot.entry, hstatus, hexpected]⟩
    simp only [Slot.receive, supporters, filter_cons, hsupports, decide_true, if_true, map_cons,
      toFinset_cons]
    rfl

theorem Counting.again (hseen : receipt.verifierPubkey ∈ status.seenVerifiers) :
    Counting chain blockHash registry (slot.receive registry receipt) (status.addReceipt receipt)
      builder := by
  have hsame : status.addReceipt receipt = status := by
    simp [BlockVerificationStatus.addReceipt, hseen]
  have hmem := (h.seen_iff hr).1.mp hseen
  obtain ⟨hfed, hsupporters⟩ := fed_confirming h hstatus hexpected hr hsound
  rw [Finset.insert_eq_of_mem hmem] at hsupporters
  have hpush : builder.push index receipt.signature = builder := by
    simp only [AttestationBuilder.push, (h.seen_iff hr).2.mp hmem, dif_pos]
  have hcross := not_crosses hstatus (by rw [hsame]; exact h.below)
  rw [hsame]
  refine ⟨?_, h.count, h.below, hsupporters ▸ h.card, hsupporters ▸ h.supporter,
    hsupporters ▸ h.seen, ?_⟩
  · simp [hcross, hfed, hpush]
  · intro pubkey hpubkey
    rw [hsupporters]
    apply (h.others pubkey hpubkey).imp_right
    rintro ⟨entry, hentry, hrest⟩
    exact ⟨entry, mem_cons_of_mem _ hentry, hrest⟩

theorem Counting.support (hseen : receipt.verifierPubkey ∉ status.seenVerifiers)
    (hcounted : status.addReceipt receipt = { status with
      seenVerifiers := insert receipt.verifierPubkey status.seenVerifiers
      validCount := status.validCount + 1 })
    (hlt : status.validCount + 1 < status.threshold) :
    Counting chain blockHash registry (slot.receive registry receipt) (status.addReceipt receipt)
      (builder.push index receipt.signature) := by
  have hnew := (h.seen_iff hr).1.not.mp hseen
  have hentries := entries_push ((h.seen_iff hr).2.not.mp hnew) receipt.signature
  obtain ⟨hfed, hsupporters⟩ := fed_confirming h hstatus hexpected hr hsound
  have hcross : slot.crosses receipt = false := not_crosses hstatus (by rwa [hcounted])
  constructor
  case held => simp [hcross, hfed]
  case count => rw [hcounted, hentries, length_append, length_singleton, ← h.count]
  case below => rwa [hcounted]
  case card =>
    rw [hsupporters, Finset.card_insert_of_notMem hnew, h.card, hentries, length_append,
      length_singleton]
  case supporter =>
    intro pubkey
    rw [hsupporters, Finset.mem_insert, h.supporter, hentries, map_append]
    constructor
    · rintro (rfl | ⟨other, hother, hmem⟩)
      · exact ⟨index, hr.index, by simp⟩
      · exact ⟨other, hother, mem_append_left _ hmem⟩
    · rintro ⟨other, hother, hmem⟩
      rcases mem_append.mp hmem with hmem | hmem
      · exact .inr ⟨other, hother, hmem⟩
      · left
        obtain rfl : other = index := by simpa using hmem
        have hat := VerifierRegistry.indexOf_eq_some.mp hother
        exact Option.some.inj (hat.symm.trans (VerifierRegistry.indexOf_eq_some.mp hr.index))
  case seen =>
    rw [hsupporters, hcounted]
    exact Finset.insert_subset_insert _ h.seen
  case others =>
    intro pubkey hpubkey
    rw [hcounted] at hpubkey
    rw [hsupporters, Finset.mem_insert]
    rcases Finset.mem_insert.mp hpubkey with rfl | hpubkey
    · exact .inl (.inl rfl)
    · rcases h.others pubkey hpubkey with hmem | ⟨entry, hentry, hrest⟩
      · exact .inl (.inr hmem)
      · exact .inr ⟨entry, mem_cons_of_mem _ hentry, hrest⟩

end

variable [PointDecoder]

/-- The supporter that completes the count makes the bridge emit the attestation. -/
theorem Counting.complete (hsafe : Safe chain blockHash registry slot)
    (hagg : AggregatesSignatures) (hvalid : receipt.verifySignature = true)
    (hfits : status.threshold < 2 ^ 16) (hseen : receipt.verifierPubkey ∉ status.seenVerifiers)
    (hcount : (status.addReceipt receipt).validCount = status.validCount + 1)
    (hge : status.threshold ≤ status.validCount + 1) :
    (slot.receive registry receipt).emitted ≠ [] := by
  have hbelow := h.below
  have hnew := (h.seen_iff hr).1.not.mp hseen
  have hentries := entries_push ((h.seen_iff hr).2.not.mp hnew) receipt.signature
  have hfed := (fed_confirming h hstatus hexpected hr (hsafe.builder _ h.held)).1
  have hcross : slot.crosses receipt = true := by
    refine Slot.crosses_eq_true.mpr ⟨status, hstatus, decide_eq_false (by omega),
      decide_eq_true ?_⟩
    rw [hcount, (status.addReceipt_spec receipt).1]
    exact hge
  obtain ⟨attestation, hbuild, -, hparticipants, -⟩ := (hsafe.fed hfed).build hagg
    (forall_mem_cons.mpr ⟨hvalid, hsafe.signed⟩) (by simp [hentries])
  rw [AttestationBuilder.count, hentries, length_append, length_singleton,
    ← h.count] at hparticipants
  have hfinal : slot.finalized registry receipt = some ⟨attestation,
      (Bitfield.indices attestation.participantBitfield).filterMap registry.pubkeyAt⟩ := by
    simp only [Slot.finalized, hcross, if_true, hfed, Option.bind_some, hstatus, Option.elim_some,
      finalize, hbuild]
    rw [if_neg (by omega), if_neg (by omega)]
  simp [hfinal]

end

variable [PointDecoder]

def FairFor (chain : Chain) (blockHash : B256) (registry : VerifierRegistry) (slot : Slot)
    (receipt : VerificationReceipt) : Prop :=
  ∀ status ∈ slot.status, status.threshold < 2 ^ 16 ∧ status.expectedReceiptsRoot.isSome ∧
    (receipt.computedReceiptsRoot = chain.receiptsRoot blockHash →
      ∃ index, Confirming chain blockHash registry slot receipt index)

theorem Live.receive (h : Live chain blockHash registry slot)
    (hsafe : Safe chain blockHash registry slot) (hagg : AggregatesSignatures)
    (hvalid : receipt.verifySignature = true)
    (hfair : FairFor chain blockHash registry slot receipt) :
    Live chain blockHash registry (slot.receive registry receipt) := by
  cases h with
  | untracked hstatus hbuilder hunheard =>
    -- a receipt for an untracked block is dropped
    refine .untracked (by simp [hstatus]) ?_ ?_
    · simp [Slot.fed, hbuilder]
    · exact forall_mem_cons.mpr ⟨hstatus, hunheard⟩
  | unrooted hstatus hroot =>
    have hrooted := (hfair _ hstatus).2.1
    simp [hroot] at hrooted
  | @rooted status hstatus hroot hlive =>
    obtain ⟨hfits, -, hconfirming⟩ := hfair status hstatus
    have hstatus' : (slot.receive registry receipt).status = some (status.addReceipt receipt) := by
      simp [hstatus]
    refine .rooted hstatus' ((status.addReceipt_spec receipt).2.1.trans hroot) ?_
    rcases hlive with hemitted | ⟨builder, hcounting⟩
    · exact .inl (by simp [hemitted])
    by_cases hmatch : receipt.computedReceiptsRoot = chain.receiptsRoot blockHash
    swap
    · exact .inr ⟨builder, hcounting.mismatch hstatus hroot hmatch⟩
    obtain ⟨index, hr⟩ := hconfirming hmatch
    have hsound := hsafe.builder _ hcounting.held
    by_cases hseen : receipt.verifierPubkey ∈ status.seenVerifiers
    · exact .inr ⟨builder, hcounting.again hstatus hroot hr hsound hseen⟩
    have hmatches : status.matchesExpected receipt = true := by
      simp [BlockVerificationStatus.matchesExpected, hroot, hmatch]
    have hcounted : status.addReceipt receipt = { status with
        seenVerifiers := insert receipt.verifierPubkey status.seenVerifiers
        validCount := status.validCount + 1 } := by
      simp [BlockVerificationStatus.addReceipt, hseen, hmatches]
    rcases Nat.lt_or_ge (status.validCount + 1) status.threshold with hlt | hge
    · exact .inr ⟨_, hcounting.support hstatus hroot hr hsound hseen hcounted hlt⟩
    · exact .inl (hcounting.complete hstatus hroot hr hsafe hagg hvalid hfits hseen
        (by rw [hcounted]) hge)

theorem Live.step (h : Live chain blockHash registry slot)
    (hsafe : Safe chain blockHash registry slot) (hagg : AggregatesSignatures)
    {event : BridgeEvent} {threshold : ℕ} (hdefault : 0 < threshold) {registry' : VerifierRegistry}
    {slot' : Slot}
    (hstep : SlotStep chain blockHash event threshold registry slot registry' slot')
    (hvalid : ∀ receipt, event = .receipt receipt → receipt.verifySignature = true)
    (hfair : ∀ receipt, event = .receipt receipt → receipt.blockHash = blockHash →
      FairFor chain blockHash registry slot receipt) : Live chain blockHash registry' slot' := by
  cases hstep with
  | same hregistry =>
    cases h with
    | untracked hstatus hbuilder hunheard => exact .untracked hstatus hbuilder hunheard
    | unrooted hstatus hroot hbuilder hunheard hseen hcount hthreshold =>
      exact .unrooted hstatus hroot hbuilder hunheard hseen hcount hthreshold
    | rooted hstatus hroot hlive =>
      refine .rooted hstatus hroot (hlive.imp_right ?_)
      rintro ⟨builder, hcounting⟩
      exact ⟨builder, hcounting.mono (hsafe.builder _ hcounting.held) hregistry⟩
  | registered hroot => exact h.register hdefault hroot
  | received hevent hhash => exact h.receive hsafe hagg (hvalid _ hevent) (hfair _ hevent hhash)

end Receipts

section Runs

theorem clampThreshold_pos (threshold : ℕ) : 0 < clampThreshold threshold := by
  unfold clampThreshold
  split
  · exact Nat.one_pos
  · next h => exact Nat.pos_of_ne_zero h

theorem defaultThreshold_registerBlock (aggregator : ReceiptAggregator)
    (iteration : Iteration BlockVerificationStatus) (other : B256) (number : ℕ)
    (root : Option B256) :
    (aggregator.registerBlock iteration other number root).defaultThreshold =
      aggregator.defaultThreshold := by
  unfold ReceiptAggregator.registerBlock
  split <;> rfl

variable [Crypto]

/-- What holds of the bridge as a whole. -/
structure Ready (bridge : MobileVerificationBridge) : Prop where
  keyed : Keyed bridge
  default : 0 < bridge.receiptAggregator.defaultThreshold

variable {bridge : MobileVerificationBridge}

theorem Ready.step (h : Ready bridge) (event : BridgeEvent) : Ready (bridge.step chain event) := by
  refine ⟨h.keyed.step event, ?_⟩
  cases event with
  | connected minimum sessionId pubkey authorized =>
    cases authorized with
    | false => exact h.default
    | true => exact clampThreshold_pos _
  | disconnected minimum sessionId => exact clampThreshold_pos _
  | threshold threshold => exact clampThreshold_pos _
  | committed other iteration => exact h.default.trans_eq (defaultThreshold_registerBlock ..).symm
  | dispatched other iteration => exact h.default.trans_eq (defaultThreshold_registerBlock ..).symm
  | receipt receipt =>
    rw [MobileVerificationBridge.step, (bridge.processReceipt_spec receipt).1]
    unfold ReceiptAggregator.processReceipt
    split
    · exact h.default
    · split <;> exact h.default

omit [Crypto] in
theorem FairFor.of_fair {receipt : VerificationReceipt}
    (h : Fair chain blockHash bridge (.receipt receipt)) (hhash : receipt.blockHash = blockHash) :
    FairFor chain blockHash bridge.registry (bridge.slot blockHash) receipt := by
  intro status hstatus
  obtain ⟨hfits, hrooted, hconfirms⟩ := h hhash status hstatus
  subst hhash
  refine ⟨hfits, hrooted, fun hmatch => ?_⟩
  obtain ⟨hnumber, hregistered, hclean⟩ := hconfirms hmatch
  obtain ⟨index, hindex⟩ := Option.isSome_iff_exists.mp hregistered
  refine ⟨index, ⟨rfl, hnumber, hmatch⟩, hindex, fun entry hentry => ?_⟩
  obtain ⟨hmem, hentryHash⟩ := mem_filter.mp hentry
  exact hclean entry hmem (of_decide_eq_true hentryHash)

variable [PointDecoder]

/-- Every run keeps the block safe, and a run that was fair so far, `F`, and stays so keeps it
live. -/
theorem run_spec {F : Prop} (hready : Ready bridge)
    (hsafe : Safe chain blockHash bridge.registry (bridge.slot blockHash))
    (hlive : F → Live chain blockHash bridge.registry (bridge.slot blockHash))
    (hagg : AggregatesSignatures) {events : List BridgeEvent}
    (hvalid : ∀ receipt, .receipt receipt ∈ events → receipt.verifySignature = true)
    (hstays : StaysTracked chain blockHash bridge events) :
    let last := bridge.run chain events
    Safe chain blockHash last.registry (last.slot blockHash) ∧
      (F → AlwaysFair chain blockHash bridge events →
        Live chain blockHash last.registry (last.slot blockHash)) := by
  induction events generalizing bridge F with
  | nil => exact ⟨hsafe, fun hF _ => hlive hF⟩
  | cons event events ih =>
    obtain ⟨hstep, hrest⟩ := hstays
    have hvalid' : ∀ receipt, event = .receipt receipt → receipt.verifySignature = true := by
      rintro receipt rfl
      exact hvalid receipt mem_cons_self
    have hslot := bridge.slotStep hready.keyed hstep
    have hnext : F ∧ Fair chain blockHash bridge event → Live chain blockHash
        (bridge.step chain event).registry ((bridge.step chain event).slot blockHash) := by
      rintro ⟨hF, hevent⟩
      refine (hlive hF).step hsafe hagg hready.default hslot hvalid' ?_
      rintro receipt rfl hhash
      exact .of_fair hevent hhash
    obtain ⟨hsafe', hlive'⟩ := ih (hready.step event) (hsafe.step hagg hslot hvalid') hnext
      (fun r hr => hvalid r (mem_cons_of_mem _ hr)) hrest
    exact ⟨hsafe', fun hF hfair => hlive' ⟨hF, hfair.1⟩ hfair.2⟩

/-- For a block that stays tracked: at most one attestation is emitted; it is exact, with at
least threshold participants; and if all receipts for the block are fair, it is emitted once
threshold registered verifiers have confirmed the block after its root was registered. -/
theorem attestations_exact (hagg : AggregatesSignatures) (chain : Chain)
    (defaultThreshold maxTrackedBlocks : ℕ) (registry : VerifierRegistry)
    (events : List BridgeEvent)
    (hvalid : ∀ receipt, .receipt receipt ∈ events → receipt.verifySignature = true)
    (blockHash : B256)
    (hstays : StaysTracked chain blockHash (.new defaultThreshold maxTrackedBlocks registry)
      events) :
    let bridge := (MobileVerificationBridge.new defaultThreshold maxTrackedBlocks registry).run
      chain events
    (bridge.attestationsFor blockHash).length ≤ 1 ∧
      (∀ finalized ∈ bridge.attestationsFor blockHash,
        Exact chain bridge.registry bridge.received blockHash finalized.attestation ∧
          ∃ status, bridge.status blockHash = some status ∧
            status.threshold ≤ finalized.attestation.participantCount) ∧
      (AlwaysFair chain blockHash (.new defaultThreshold maxTrackedBlocks registry) events →
        ∀ status, bridge.status blockHash = some status → status.expectedReceiptsRoot.isSome →
          status.threshold ≤ (supporters chain bridge.received blockHash).card →
            bridge.attestationsFor blockHash ≠ []) := by
  have hready : Ready (.new defaultThreshold maxTrackedBlocks registry) :=
    ⟨by simp [Keyed, new], clampThreshold_pos _⟩
  have hsafe : Safe chain blockHash registry
      ((new defaultThreshold maxTrackedBlocks registry).slot blockHash) := by
    constructor <;> simp [new, slot, attestationsFor]
  have hlive : True → Live chain blockHash registry
      ((new defaultThreshold maxTrackedBlocks registry).slot blockHash) :=
    fun _ => .untracked rfl rfl (by simp [Unheard, slot, new])
  obtain ⟨hsafe', hlive'⟩ := run_spec hready hsafe hlive hagg hvalid hstays
  refine ⟨hsafe'.once, ?_, ?_⟩
  · intro finalized hfinalized
    obtain ⟨hexact, status, hstatus, -, hthreshold⟩ := hsafe'.attested finalized hfinalized
    exact ⟨hexact.mono prefix_rfl (filter_subset_self _), status, hstatus, hthreshold⟩
  · intro hfair status hstatus hrooted henough
    rw [← supporters_slot] at henough
    cases hlive' trivial hfair with
    | untracked hnone => exact absurd (hstatus.symm.trans hnone) (by simp)
    | unrooted hstatus' hroot =>
      obtain rfl := Option.some.inj (hstatus'.symm.trans hstatus)
      simp [hroot] at hrooted
    | rooted hstatus' _ hlive =>
      obtain rfl := Option.some.inj (hstatus'.symm.trans hstatus)
      rcases hlive with hemitted | ⟨builder, hcounting⟩
      · exact hemitted
      · have hbelow := hcounting.below
        rw [hcounting.card, ← hcounting.count] at henough
        omega

end Runs

/-- Signatures are numbers, written as lengths: a key signs a message with the sum of their
lengths, and an aggregate is a sum. -/
local instance additive : Crypto where
  keyGen seed := ⟨seed⟩
  publicKey sk := ⟨sk.scalar⟩
  sign _ sk message := ⟨List.replicate (sk.scalar.length + message.length) 0⟩
  verify _ pk message signature := signature.toBytes.length = pk.toBytes.length + message.length
  validate _ := true
  aggregate signatures :=
    some ⟨List.replicate (signatures.map fun signature => signature.toBytes.length).sum 0⟩
  fastAggregateVerify _ pks message signature :=
    signature.toBytes.length = (pks.map fun pk => pk.toBytes.length + message.length).sum
  blake3 _ := 0
  serializeChanges _ := []
  parsePeerId := some

local instance : PointDecoder := ⟨fun _ => true⟩

theorem additive_aggregatesSignatures : AggregatesSignatures := by
  intro message signed keys _ hverify hperm
  refine ⟨_, rfl, decide_eq_true ?_⟩
  have hsum : ∀ s ∈ signed, s.2.toBytes.length = s.1.toBytes.length + message.length :=
    fun s hs => of_decide_eq_true (hverify s hs)
  rw [length_replicate, map_map,
    (hperm.map fun pk : BlsPublicKey => pk.toBytes.length + message.length).sum_nat, map_map]
  exact congrArg List.sum (map_congr_left hsum)

def sampleChain : Chain := ⟨fun _ => 7, fun _ => 9⟩

def sampleKey (k : UInt8) : PubkeyBytes := List.replicate 48 k

/-- The receipt of the phone with key `k` for the block with hash `5`, which has root `9`. -/
def sampleReceipt (root : B256) (k : UInt8) : VerificationReceipt :=
  ⟨5, 7, root, sampleKey k, ⟨List.replicate 120 0⟩⟩

/-- The phones 0, 1 and 2 connect, the packet of the block `5` goes out, and receipts come back. -/
def sampleEvents (threshold : ℕ) (receipts : List VerificationReceipt) : List BridgeEvent :=
  .connected 1 0 (sampleKey 0) true :: .connected 1 1 (sampleKey 1) true ::
    .connected 1 2 (sampleKey 2) true :: .threshold threshold :: .dispatched 5 (.asListed _) ::
    receipts.map .receipt

def emptyRegistry : VerifierRegistry := ⟨[], nodup_nil⟩

abbrev sampleStart : MobileVerificationBridge := .new 1 8 emptyRegistry

/-- The phones 1 and 0 confirm the root, and phone 2 reports another one in between. -/
def confirming : List BridgeEvent :=
  sampleEvents 2 [sampleReceipt 9 1, sampleReceipt 8 2, sampleReceipt 9 0]

/-- A phone that never connected confirms the root, and then phone 0. -/
def preempted : List BridgeEvent := sampleEvents 1 [sampleReceipt 9 7, sampleReceipt 9 0]

/-- The block has a root and enough supporters. -/
abbrev Supported (bridge : MobileVerificationBridge) : Prop :=
  ∃ status ∈ bridge.status 5, status.expectedReceiptsRoot.isSome ∧
    status.threshold ≤ (supporters sampleChain bridge.received 5).card

theorem confirming_spec : StaysTracked sampleChain 5 sampleStart confirming ∧
    AlwaysFair sampleChain 5 sampleStart confirming ∧
    Supported (sampleStart.run sampleChain confirming) := by
  decide

theorem attestations_exact_sample :
    let bridge := sampleStart.run sampleChain confirming
    (bridge.attestationsFor 5).length = 1 ∧ ∀ finalized ∈ bridge.attestationsFor 5,
      Exact sampleChain bridge.registry bridge.received 5 finalized.attestation := by
  have hvalid : ∀ receipt, .receipt receipt ∈ confirming → receipt.verifySignature = true := by
    intro receipt hmem
    obtain rfl | rfl | rfl : receipt = sampleReceipt 9 1 ∨ receipt = sampleReceipt 8 2 ∨
        receipt = sampleReceipt 9 0 := by
      simpa [confirming, sampleEvents] using hmem
    all_goals decide +kernel
  obtain ⟨htracked, hfair, status, hstatus, hrooted, henough⟩ := confirming_spec
  obtain ⟨honce, hexact, hemitted⟩ := attestations_exact additive_aggregatesSignatures sampleChain 1
    8 emptyRegistry confirming hvalid 5 htracked
  have hsome := hemitted hfair status hstatus hrooted henough
  exact ⟨Nat.le_antisymm honce (length_pos_of_ne_nil hsome),
    fun finalized hfinalized => (hexact finalized hfinalized).1⟩

/-- A stranger's receipt reaches the threshold first. The builder, which does not hold it, is
dropped, and the receipt of the registered verifier comes too late. -/
theorem attestation_suppressed :
    let bridge := sampleStart.run sampleChain preempted
    AggregatesSignatures ∧
      (∀ receipt, .receipt receipt ∈ preempted → receipt.verifySignature = true) ∧
      StaysTracked sampleChain 5 sampleStart preempted ∧
      (∃ status ∈ bridge.status 5, status.expectedReceiptsRoot.isSome ∧
        status.threshold ≤ (supporters sampleChain bridge.received 5).card) ∧
      bridge.attestationsFor 5 = [] := by
  refine ⟨additive_aggregatesSignatures, ?_, by decide, by decide,
    isEmpty_iff.mp (by decide)⟩
  intro receipt hmem
  obtain rfl | rfl : receipt = sampleReceipt 9 7 ∨ receipt = sampleReceipt 9 0 := by
    simpa [preempted, sampleEvents] using hmem
  all_goals decide

end N42.Mobile
