import N42.Mobile.Bridge

/-!
What the bridge holds of one block, and what each event does to it. As long as the block stays
tracked, an attestation of it is the only one, and it is exact.
-/

namespace N42.Mobile

open Lib List Function Option MobileVerificationBridge ReceiptAggregator

/-- What the bridge holds of one block. -/
structure Slot where
  status : Option BlockVerificationStatus
  builder : Option AttestationBuilder
  emitted : List FinalizedAttestation
  received : List Received

def MobileVerificationBridge.slot (bridge : MobileVerificationBridge) (blockHash : B256) :
    Slot where
  status := bridge.status blockHash
  builder := bridge.attestationBuilders blockHash
  emitted := bridge.attestationsFor blockHash
  received := bridge.received.filter (·.receipt.blockHash = blockHash)

variable {builder : AttestationBuilder}

namespace Slot

def register (slot : Slot) (blockHash : B256) (number : ℕ) (root : Option B256)
    (threshold : ℕ) : Slot :=
  { slot with
    status := some (slot.status.elim (.new blockHash number root threshold) (·.expect root))
    builder := slot.builder.or (root.map (.new blockHash number)) }

variable (slot : Slot) (registry : VerifierRegistry) (receipt : VerificationReceipt)

def entry : Received :=
  ⟨receipt, slot.status, (registry.indexOf receipt.verifierPubkey).isSome⟩

def fed : Option AttestationBuilder :=
  if slot.status.all (·.matchesExpected receipt) then
    slot.builder.map (·.addReceipt receipt registry)
  else slot.builder

def crosses (slot : Slot) (receipt : VerificationReceipt) : Bool :=
  slot.status.any fun status => !status.isAttested && (status.addReceipt receipt).isAttested

def finalized [Crypto] (slot : Slot) (registry : VerifierRegistry) (receipt : VerificationReceipt) :
    Option FinalizedAttestation :=
  if slot.crosses receipt then
    (slot.fed registry receipt).bind fun builder =>
      MobileVerificationBridge.finalize registry builder (slot.status.elim 0 (·.threshold))
  else none

def receive [Crypto] (slot : Slot) (registry : VerifierRegistry) (receipt : VerificationReceipt) :
    Slot where
  status := slot.status.map (·.addReceipt receipt)
  builder := if slot.crosses receipt then none else slot.fed registry receipt
  emitted := (slot.finalized registry receipt).toList ++ slot.emitted
  received := slot.entry registry receipt :: slot.received

theorem crosses_eq_true {slot : Slot} {receipt : VerificationReceipt} :
    slot.crosses receipt = true ↔ ∃ status, slot.status = some status ∧
      status.isAttested = false ∧ (status.addReceipt receipt).isAttested = true := by
  simp [crosses, Option.any_eq_true]

theorem fed_eq_some {slot : Slot} {registry : VerifierRegistry} {receipt : VerificationReceipt}
    (h : slot.fed registry receipt = some builder) : slot.builder = some builder ∨
      ∃ held, slot.builder = some held ∧ builder = held.addReceipt receipt registry := by
  unfold fed at h
  split at h
  · obtain ⟨held, hheld, rfl⟩ := map_eq_some_iff.mp h
    exact .inr ⟨held, hheld, rfl⟩
  · exact .inl h

end Slot

def Keyed (bridge : MobileVerificationBridge) : Prop :=
  ∀ other, ∀ builder ∈ bridge.attestationBuilders other, builder.blockHash = other

variable {finalized : FinalizedAttestation}

namespace MobileVerificationBridge

section Register

variable {bridge : MobileVerificationBridge} {iteration : Iteration BlockVerificationStatus}
  {blockHash other : B256} {number : ℕ} {root : Option B256}

theorem attestationBuilders_registerDispatchedBlock (key : B256) :
    (bridge.registerDispatchedBlock iteration other number root).attestationBuilders key =
      if key = other then (bridge.attestationBuilders key).or (root.map (.new other number))
      else bridge.attestationBuilders key := by
  unfold registerDispatchedBlock
  cases root with
  | none => simp
  | some receiptsRoot =>
    cases hbuilder : bridge.attestationBuilders other with
    | none =>
      simp only [update_apply]
      split
      · next hkey => simp [hkey, hbuilder]
      · rfl
    | some builder =>
      simp only
      split
      · next hkey => simp [hkey, hbuilder]
      · rfl

theorem slot_registerDispatchedBlock :
    (bridge.registerDispatchedBlock iteration blockHash number root).slot blockHash =
      (bridge.slot blockHash).register blockHash number root
        bridge.receiptAggregator.defaultThreshold := by
  have hstatus : (bridge.registerDispatchedBlock iteration blockHash number root).status blockHash =
      some ((bridge.status blockHash).elim (.new blockHash number root
        bridge.receiptAggregator.defaultThreshold) (·.expect root)) :=
    get_registerBlock iteration number root
  simp only [slot, hstatus, attestationBuilders_registerDispatchedBlock]
  rfl

theorem slot_registerDispatchedBlock_of_ne (hother : other ≠ blockHash)
    (hstays : (bridge.status blockHash).isSome →
      ((bridge.registerDispatchedBlock iteration other number root).status blockHash).isSome) :
    (bridge.registerDispatchedBlock iteration other number root).slot blockHash =
      bridge.slot blockHash := by
  have hstatus : (bridge.registerDispatchedBlock iteration other number root).status blockHash =
      bridge.status blockHash := by
    cases hstatus' : (bridge.registerDispatchedBlock iteration other number root).status
        blockHash with
    | some status' => exact (get_registerBlock_of_ne hother hstatus').symm
    | none =>
      cases hstatus : bridge.status blockHash with
      | none => rfl
      | some status => simp [hstatus, hstatus'] at hstays
  simp only [slot, hstatus, attestationBuilders_registerDispatchedBlock, if_neg hother.symm]
  rfl

end Register

section Receive

variable [Crypto] {bridge : MobileVerificationBridge} {receipt : VerificationReceipt}

omit [Crypto] in
theorem feedBuilder_apply (key : B256) :
    bridge.feedBuilder receipt key =
      if key = receipt.blockHash then (bridge.slot key).fed bridge.registry receipt
      else bridge.attestationBuilders key := by
  unfold feedBuilder
  by_cases hkey : key = receipt.blockHash
  · subst hkey
    rw [if_pos rfl]
    unfold Slot.fed
    split
    · next h => exact (update_self _ _ _).trans (if_pos h).symm
    · next h => exact (if_neg h).symm
  · rw [if_neg hkey]
    split
    · rw [update_of_ne hkey]
    · rfl

theorem finalizeAttestation_eq (blockHash : B256) (required : ℕ) :
    bridge.finalizeAttestation blockHash required = { bridge with
      attestationBuilders := Function.update bridge.attestationBuilders blockHash none
      emitted := ((bridge.attestationBuilders blockHash).bind
        (finalize bridge.registry · required)).toList ++ bridge.emitted } := by
  unfold finalizeAttestation
  split
  · next hnone =>
    rw [update_eq_self_iff.mpr hnone.symm]
    simp [hnone]
  · next builder hbuilder => simp [hbuilder]

theorem processReceipt_spec (bridge : MobileVerificationBridge) (receipt : VerificationReceipt) :
    let held := bridge.slot receipt.blockHash
    (bridge.processReceipt receipt).receiptAggregator =
        (bridge.receiptAggregator.processReceipt receipt).2 ∧
      (bridge.processReceipt receipt).registry = bridge.registry ∧
      (bridge.processReceipt receipt).received =
        held.entry bridge.registry receipt :: bridge.received ∧
      (bridge.processReceipt receipt).emitted =
        (held.finalized bridge.registry receipt).toList ++ bridge.emitted ∧
      ∀ key, (bridge.processReceipt receipt).attestationBuilders key =
        if key = receipt.blockHash then (held.receive bridge.registry receipt).builder
        else bridge.attestationBuilders key := by
  intro held
  have hcross : (bridge.receiptAggregator.processReceipt receipt).1 = some true ↔
      held.crosses receipt = true :=
    processReceipt_eq_true.trans (@Slot.crosses_eq_true held receipt).symm
  have hfed : ∀ key, bridge.feedBuilder receipt key =
      if key = receipt.blockHash then held.fed bridge.registry receipt
      else bridge.attestationBuilders key := by
    intro key
    rw [feedBuilder_apply]
    split
    · next hkey => rw [hkey]
    · rfl
  unfold processReceipt
  simp only [hcross]
  split
  · next h =>
    rw [finalizeAttestation_eq]
    refine ⟨rfl, rfl, rfl, ?_, fun key => ?_⟩
    · simp only [hfed, Slot.finalized, h]
      rfl
    · simp only [update_apply, hfed, Slot.receive]
      split <;> rfl
  · next h =>
    refine ⟨rfl, rfl, rfl, ?_, fun key => ?_⟩
    · simp [Slot.finalized, h]
    · simp only [hfed, Slot.receive, h, Bool.false_eq_true, if_false]

theorem status_processReceipt (bridge : MobileVerificationBridge) (receipt : VerificationReceipt)
    (blockHash : B256) :
    (bridge.processReceipt receipt).status blockHash =
      if receipt.blockHash = blockHash then (bridge.status blockHash).map (·.addReceipt receipt)
      else bridge.status blockHash := by
  rw [status, (bridge.processReceipt_spec receipt).1, get_processReceipt]
  rfl

theorem finalize_eq_some {registry : VerifierRegistry} {required : ℕ}
    (h : finalize registry builder required = some finalized) :
    builder.build = .ok finalized.attestation ∧
      required ≤ finalized.attestation.participantCount := by
  unfold finalize at h
  split at h
  · cases h
  · next attestation hbuild =>
    split at h
    · cases h
    · next hrequired =>
      split at h
      · cases h
      · obtain rfl := Option.some.inj h
        exact ⟨hbuild, not_lt.mp hrequired⟩

theorem blockHash_of_finalized (hkeyed : Keyed bridge)
    (h : finalized ∈ (bridge.slot receipt.blockHash).finalized bridge.registry receipt) :
    finalized.attestation.blockHash = receipt.blockHash := by
  unfold Slot.finalized at h
  split at h
  · obtain ⟨builder, hbuilder, hfinalize⟩ := bind_eq_some_iff.mp h
    have hhash : builder.blockHash = receipt.blockHash := by
      rcases Slot.fed_eq_some hbuilder with hheld | ⟨held, hheld, rfl⟩
      · exact hkeyed _ builder hheld
      · exact (held.blockHash_addReceipt receipt).trans (hkeyed _ held hheld)
    have hbuild := (finalize_eq_some hfinalize).1
    unfold AttestationBuilder.build at hbuild
    split at hbuild
    · cases hbuild
    · split at hbuild
      · cases hbuild
      · rw [← Except.ok.inj hbuild]
        exact hhash
  · cases h

theorem slot_processReceipt (hkeyed : Keyed bridge) (receipt : VerificationReceipt)
    (blockHash : B256) :
    (bridge.processReceipt receipt).slot blockHash =
      if receipt.blockHash = blockHash then
        (bridge.slot blockHash).receive bridge.registry receipt
      else bridge.slot blockHash := by
  obtain ⟨-, -, hreceived, hemitted, hbuilders⟩ := bridge.processReceipt_spec receipt
  have hstatus := bridge.status_processReceipt receipt blockHash
  have hnew : ∀ finalized ∈
      ((bridge.slot receipt.blockHash).finalized bridge.registry receipt).toList,
      finalized.attestation.blockHash = receipt.blockHash :=
    fun finalized hmem => blockHash_of_finalized hkeyed (mem_toList.mp hmem)
  generalize hheld : bridge.slot receipt.blockHash = held at hreceived hemitted hbuilders hnew
  by_cases hhash : receipt.blockHash = blockHash
  · subst hhash
    have hfor : (bridge.processReceipt receipt).attestationsFor receipt.blockHash =
        (held.finalized bridge.registry receipt).toList ++ held.emitted := by
      rw [attestationsFor, hemitted, filter_append, filter_eq_self.mpr, ← hheld]
      · rfl
      · exact fun finalized hmem => decide_eq_true (hnew finalized hmem)
    rw [slot, hstatus, hbuilders, hfor, hreceived, hheld]
    simp [Slot.receive, Slot.entry, ← hheld, slot]
  · have hfor : (bridge.processReceipt receipt).attestationsFor blockHash =
        bridge.attestationsFor blockHash := by
      rw [attestationsFor, hemitted, filter_append, filter_eq_nil_iff.mpr]
      · rfl
      · intro finalized hmem
        simpa [hnew finalized hmem] using hhash
    rw [slot, hstatus, hbuilders, hfor, hreceived, if_neg (Ne.symm hhash)]
    simp [slot, Slot.entry, hhash]

end Receive

end MobileVerificationBridge

section Steps

variable {chain : Chain} {blockHash : B256}

variable {bridge : MobileVerificationBridge}

theorem Keyed.register (h : Keyed bridge) (iteration : Iteration BlockVerificationStatus)
    (other : B256) (number : ℕ) (root : Option B256) :
    Keyed (bridge.registerDispatchedBlock iteration other number root) := by
  intro key builder hbuilder
  rw [attestationBuilders_registerDispatchedBlock] at hbuilder
  split at hbuilder
  · next hkey =>
    rcases or_eq_some_iff.mp hbuilder with hheld | ⟨-, hnew⟩
    · exact h key builder hheld
    · obtain ⟨receiptsRoot, -, rfl⟩ := map_eq_some_iff.mp hnew
      exact hkey.symm
  · exact h key builder hbuilder

variable [Crypto]

/-- What an event can do to a block that is not evicted. -/
inductive SlotStep (chain : Chain) (blockHash : B256) (event : BridgeEvent) (threshold : ℕ)
    (registry : VerifierRegistry) (slot : Slot) : VerifierRegistry → Slot → Prop
  | same {later : VerifierRegistry} (h : later.Extends registry) :
    SlotStep chain blockHash event threshold registry slot later slot
  | registered {root : Option B256} (h : ∀ r ∈ root, r = chain.receiptsRoot blockHash) :
    SlotStep chain blockHash event threshold registry slot registry
      (slot.register blockHash (chain.number blockHash) root threshold)
  | received {receipt : VerificationReceipt} (h : event = .receipt receipt)
      (hhash : receipt.blockHash = blockHash) :
    SlotStep chain blockHash event threshold registry slot registry (slot.receive registry receipt)

theorem SlotStep.of_register {iteration : Iteration BlockVerificationStatus} {other : B256}
    {root : Option B256} (hroot : ∀ r ∈ root, r = chain.receiptsRoot other) (hstays : (bridge.status
      blockHash).isSome → ((bridge.registerDispatchedBlock iteration other (chain.number other)
      root).status blockHash).isSome) (event : BridgeEvent) :
    SlotStep chain blockHash event bridge.receiptAggregator.defaultThreshold bridge.registry
      (bridge.slot blockHash) bridge.registry ((bridge.registerDispatchedBlock iteration other
        (chain.number other) root).slot blockHash) := by
  by_cases hother : other = blockHash
  · subst hother
    rw [slot_registerDispatchedBlock]
    exact .registered hroot
  · rw [slot_registerDispatchedBlock_of_ne hother hstays]
    exact .same prefix_rfl

theorem MobileVerificationBridge.slotStep (hkeyed : Keyed bridge) {event : BridgeEvent} (hstays :
      (bridge.status blockHash).isSome → ((bridge.step chain event).status blockHash).isSome) :
    SlotStep chain blockHash event bridge.receiptAggregator.defaultThreshold bridge.registry
      (bridge.slot blockHash) (bridge.step chain event).registry
      ((bridge.step chain event).slot blockHash) := by
  cases event with
  | connected minimum sessionId pubkey authorized =>
    cases authorized with
    | false => exact .same prefix_rfl
    | true => exact .same (bridge.registry.extends_register pubkey)
  | disconnected minimum sessionId => exact .same prefix_rfl
  | threshold threshold => exact .same prefix_rfl
  | committed other iteration => exact .of_register (by simp) hstays _
  | dispatched other iteration => exact .of_register (by simp) hstays _
  | receipt receipt =>
    have hslot := slot_processReceipt hkeyed receipt blockHash
    simp only [step, hslot, (bridge.processReceipt_spec receipt).2.1]
    split
    · next hhash => exact .received rfl hhash
    · exact .same prefix_rfl

theorem Keyed.step (h : Keyed bridge) (event : BridgeEvent) : Keyed (bridge.step chain event) := by
  cases event with
  | connected minimum sessionId pubkey authorized =>
    cases authorized with
    | false => exact h
    | true => exact h
  | disconnected minimum sessionId => exact h
  | threshold threshold => exact h
  | committed other iteration => exact h.register _ _ _ _
  | dispatched other iteration => exact h.register _ _ _ _
  | receipt receipt =>
    intro key builder hbuilder
    rw [MobileVerificationBridge.step, (bridge.processReceipt_spec receipt).2.2.2.2] at hbuilder
    split at hbuilder
    · next hkey =>
      subst hkey
      unfold Slot.receive at hbuilder
      split at hbuilder
      · cases hbuilder
      · rcases Slot.fed_eq_some hbuilder with hheld | ⟨held, hheld, rfl⟩
        · exact h _ builder hheld
        · exact (held.blockHash_addReceipt receipt).trans (h _ held hheld)
    · exact h key builder hbuilder

end Steps

section Safety

variable [Crypto] [PointDecoder] {chain : Chain} {blockHash : B256}
  {registry : VerifierRegistry} {slot : Slot} {registry' : VerifierRegistry}

theorem Exact.mono {received received' : List Received} {attestation : AggregatedAttestation}
    (h : Exact chain registry received blockHash attestation)
    (hregistry : registry'.Extends registry) (hreceived : received ⊆ received') :
    Exact chain registry' received' blockHash attestation where
  number := h.number
  root := h.root
  participants index hindex := by
    obtain ⟨entry, hentry, hconfirms, hat⟩ := h.participants index hindex
    exact ⟨entry, hreceived hentry, hconfirms, hregistry.pubkeyAt hat⟩
  count := h.count
  verifies := by
    have hat : ∀ index ∈ Bitfield.indices attestation.participantBitfield,
        registry.pubkeyAt index = some ((registry.pubkeyAt index).getD []) := by
      intro index hindex
      obtain ⟨entry, -, -, hat⟩ := h.participants index hindex
      simp [hat]
    have hextract : attestation.extractParticipantPubkeys registry' =
        attestation.extractParticipantPubkeys registry := by
      rw [extractParticipantPubkeys_eq_ok hat,
        extractParticipantPubkeys_eq_ok fun index hindex => hregistry.pubkeyAt (hat index hindex)]
    have hverifies := h.verifies
    unfold AggregatedAttestation.verify at hverifies ⊢
    rwa [hextract]

/-- The builder is sound, and the attestation of the block, if any, is the only one and exact; the
block has reached its threshold. -/
structure Safe (chain : Chain) (blockHash : B256) (registry : VerifierRegistry) (slot : Slot) :
    Prop where
  builder : ∀ builder ∈ slot.builder, builder.Sound chain registry slot.received blockHash
  signed : ∀ entry ∈ slot.received, entry.receipt.verifySignature = true
  once : slot.emitted.length ≤ 1
  attested : ∀ finalized ∈ slot.emitted,
    Exact chain registry slot.received blockHash finalized.attestation ∧
      ∃ status, slot.status = some status ∧ status.isAttested = true ∧
        status.threshold ≤ finalized.attestation.participantCount

section

variable (h : Safe chain blockHash registry slot)
include h

theorem Safe.mono {later : VerifierRegistry}
    (hregistry : later.Extends registry) : Safe chain blockHash later slot where
  builder builder hbuilder := (h.builder builder hbuilder).mono hregistry (List.Subset.refl _)
  signed := h.signed
  once := h.once
  attested finalized hfinalized :=
    (h.attested finalized hfinalized).imp_left (·.mono hregistry (List.Subset.refl _))

theorem Safe.register {root : Option B256}
    (hroot : ∀ r ∈ root, r = chain.receiptsRoot blockHash) (threshold : ℕ) :
    Safe chain blockHash registry
      (slot.register blockHash (chain.number blockHash) root threshold) where
  builder builder hbuilder := by
    rcases or_eq_some_iff.mp hbuilder with hheld | ⟨-, hnew⟩
    · exact h.builder builder hheld
    · obtain ⟨receiptsRoot, hmem, rfl⟩ := map_eq_some_iff.mp hnew
      exact ⟨rfl, rfl, hroot _ hmem, by simp [AttestationBuilder.new]⟩
  signed := h.signed
  once := h.once
  attested finalized hfinalized := by
    obtain ⟨hexact, status, hstatus, hattested, hthreshold⟩ := h.attested finalized hfinalized
    obtain ⟨hthreshold', -, hcount⟩ := status.expect_spec root
    refine ⟨hexact, status.expect root, by simp [Slot.register, hstatus], ?_,
      hthreshold' ▸ hthreshold⟩
    rwa [BlockVerificationStatus.isAttested, hthreshold', hcount]

theorem Safe.fed {receipt : VerificationReceipt}
    (hbuilder : slot.fed registry receipt = some builder) :
    builder.Sound chain registry (slot.entry registry receipt :: slot.received) blockHash := by
  rcases Slot.fed_eq_some hbuilder with hheld | ⟨held, hheld, rfl⟩
  · exact (h.builder builder hheld).mono prefix_rfl (subset_cons_self _ _)
  · have hsound := (h.builder held hheld).mono prefix_rfl
      (subset_cons_self (slot.entry registry receipt) slot.received)
    exact hsound.addReceipt mem_cons_self

end

theorem AttestationBuilder.Sound.finalize {received : List Received}
    (h : builder.Sound chain registry received blockHash) (hagg : AggregatesSignatures)
    (hsigned : ∀ entry ∈ received, entry.receipt.verifySignature = true) {required : ℕ}
    (hfinalize : MobileVerificationBridge.finalize registry builder required = some finalized) :
    Exact chain registry received blockHash finalized.attestation ∧
      required ≤ finalized.attestation.participantCount := by
  obtain ⟨hbuild, hrequired⟩ := finalize_eq_some hfinalize
  have hentries : builder.entries ≠ [] := by
    intro hnil
    simp [AttestationBuilder.build, hnil] at hbuild
  obtain ⟨attestation, hbuild', -, -, hexact⟩ := h.build hagg hsigned hentries
  obtain rfl := Except.ok.inj (hbuild'.symm.trans hbuild)
  exact ⟨hexact, hrequired⟩

theorem Safe.receive (h : Safe chain blockHash registry slot) (hagg : AggregatesSignatures)
    {receipt : VerificationReceipt} (hvalid : receipt.verifySignature = true) :
    Safe chain blockHash registry (slot.receive registry receipt) := by
  have hsigned : ∀ entry ∈ slot.entry registry receipt :: slot.received,
      entry.receipt.verifySignature = true := forall_mem_cons.mpr ⟨hvalid, h.signed⟩
  have hold : ∀ finalized ∈ slot.emitted,
      Exact chain registry (slot.entry registry receipt :: slot.received) blockHash
          finalized.attestation ∧
        ∃ status, (slot.receive registry receipt).status = some status ∧
          status.isAttested = true ∧ status.threshold ≤ finalized.attestation.participantCount := by
    intro finalized hfinalized
    obtain ⟨hexact, status, hstatus, hattested, hthreshold⟩ := h.attested finalized hfinalized
    obtain ⟨hthreshold', -, hcount⟩ := status.addReceipt_spec receipt
    refine ⟨hexact.mono prefix_rfl (subset_cons_self _ _), status.addReceipt receipt,
      by simp [Slot.receive, hstatus], ?_, hthreshold' ▸ hthreshold⟩
    exact decide_eq_true (hthreshold' ▸ (of_decide_eq_true hattested).trans hcount)
  have hbuilder : ∀ builder ∈ (slot.receive registry receipt).builder,
      builder.Sound chain registry (slot.entry registry receipt :: slot.received) blockHash := by
    intro builder hmem
    unfold Slot.receive at hmem
    split at hmem
    · cases hmem
    · exact h.fed hmem
  cases hfinal : slot.finalized registry receipt with
  | none =>
    have hemitted : (slot.receive registry receipt).emitted = slot.emitted := by
      simp [Slot.receive, hfinal]
    exact ⟨hbuilder, hsigned, hemitted ▸ h.once, hemitted ▸ hold⟩
  | some finalized =>
    have hemitted : (slot.receive registry receipt).emitted = finalized :: slot.emitted := by
      simp [Slot.receive, hfinal]
    unfold Slot.finalized at hfinal
    split at hfinal
    swap
    · cases hfinal
    next hcross =>
    obtain ⟨status, hstatus, hbefore, hafter⟩ := Slot.crosses_eq_true.mp hcross
    obtain ⟨builder, hfed, hfinalize⟩ := bind_eq_some_iff.mp hfinal
    obtain ⟨hexact, hrequired⟩ := (h.fed hfed).finalize hagg hsigned hfinalize
    -- the block had not reached its threshold, so it had no attestation
    have hfirst : slot.emitted = [] := by
      rw [eq_nil_iff_forall_not_mem]
      intro other hother
      obtain ⟨-, status', hstatus', hattested, -⟩ := h.attested other hother
      obtain rfl := Option.some.inj (hstatus'.symm.trans hstatus)
      rw [hbefore] at hattested
      cases hattested
    refine ⟨hbuilder, hsigned, by simp [hemitted, hfirst], ?_⟩
    rw [hemitted, forall_mem_cons]
    refine ⟨⟨hexact, status.addReceipt receipt, by simp [Slot.receive, hstatus], hafter, ?_⟩, hold⟩
    rw [(status.addReceipt_spec receipt).1]
    simpa [hstatus] using hrequired

theorem Safe.step (h : Safe chain blockHash registry slot) (hagg : AggregatesSignatures)
    {event : BridgeEvent} {threshold : ℕ} {slot' : Slot}
    (hstep : SlotStep chain blockHash event threshold registry slot registry' slot')
    (hvalid : ∀ receipt, event = .receipt receipt → receipt.verifySignature = true) :
    Safe chain blockHash registry' slot' := by
  cases hstep with
  | same hregistry => exact h.mono hregistry
  | registered hroot => exact h.register hroot threshold
  | received hevent _ => exact h.receive hagg (hvalid _ hevent)

end Safety

end N42.Mobile
