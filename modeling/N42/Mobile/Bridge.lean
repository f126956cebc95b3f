import N42.Mobile.Attestation
import N42.Lib.Except

/-!
Attestations over every run of the bridge: for a block that stays tracked, an attestation is
emitted at most once and is exact; and it is emitted in time unless some receipt spoils the count
(`Fair`).
-/

namespace N42.Mobile

open Lib List BlockVerificationStatus Bitfield Table

namespace ReceiptAggregator

variable {aggregator : ReceiptAggregator} {blockHash : B256}

theorem get_registerBlock (iteration : Iteration BlockVerificationStatus) (number : ℕ)
    (root : Option B256) :
    (aggregator.registerBlock iteration blockHash number root).blocks.get blockHash =
      some ((aggregator.blocks.get blockHash).elim
        (.new blockHash number root aggregator.defaultThreshold) (·.expect root)) := by
  unfold registerBlock
  cases h : aggregator.blocks.get blockHash with
  | none =>
    refine get_retain.mpr ⟨?_, decide_eq_true (Nat.sub_le number 256)⟩
    rw [get_insert, if_pos] <;> rfl
  | some status =>
    rw [get_insert, if_pos]
    · rfl
    · rw [blockHash_expect]
      exact (get_eq_some.mp h).2

theorem get_registerBlock_of_ne {iteration : Iteration BlockVerificationStatus} {other : B256}
    {number : ℕ} {root : Option B256} {status : BlockVerificationStatus} (hne : blockHash ≠ other)
    (h : (aggregator.registerBlock iteration blockHash number root).blocks.get other =
      some status) : aggregator.blocks.get other = some status := by
  unfold registerBlock at h
  cases hget : aggregator.blocks.get blockHash with
  | some tracked =>
    rw [hget] at h
    have htracked := (get_eq_some.mp hget).2
    rwa [get_insert, blockHash_expect, htracked, if_neg hne] at h
  | none =>
    rw [hget] at h
    have h := (get_retain.mp h).1
    rw [get_insert, if_neg (by exact hne)] at h
    unfold evictOldest at h
    split at h
    · split at h
      · exact (get_retain.mp h).1
      · exact h
    · exact h

theorem get_processReceipt (aggregator : ReceiptAggregator) (receipt : VerificationReceipt)
    (blockHash : B256) :
    (aggregator.processReceipt receipt).2.blocks.get blockHash =
      if receipt.blockHash = blockHash then
        (aggregator.blocks.get blockHash).map (·.addReceipt receipt)
      else aggregator.blocks.get blockHash := by
  unfold processReceipt
  by_cases hhash : receipt.blockHash = blockHash
  · subst hhash
    rw [if_pos rfl]
    cases hget : aggregator.blocks.get receipt.blockHash with
    | none => exact hget
    | some status =>
      by_cases hseen : receipt.verifierPubkey ∈ status.seenVerifiers
      · simp [hseen, hget, addReceipt]
      · simp only [hseen, if_false, Option.map_some]
        rw [get_insert, blockHash_addReceipt,
          if_pos (get_eq_some.mp hget).2]
  · rw [if_neg hhash]
    cases hget : aggregator.blocks.get receipt.blockHash with
    | none => rfl
    | some status =>
      by_cases hseen : receipt.verifierPubkey ∈ status.seenVerifiers
      · simp only [hseen, if_true]
      · simp only [hseen, if_false]
        rw [get_insert, blockHash_addReceipt,
          (get_eq_some.mp hget).2, if_neg hhash]

theorem processReceipt_eq_true {receipt : VerificationReceipt} :
    (aggregator.processReceipt receipt).1 = some true ↔
      ∃ status, aggregator.blocks.get receipt.blockHash = some status ∧
        status.isAttested = false ∧ (status.addReceipt receipt).isAttested = true := by
  unfold processReceipt
  cases hget : aggregator.blocks.get receipt.blockHash with
  | none => simp
  | some status =>
    by_cases hseen : receipt.verifierPubkey ∈ status.seenVerifiers
    · have hsame : status.addReceipt receipt = status := by
        simp [addReceipt, hseen]
      simp [hseen, hsame]
    · simp [hseen]

end ReceiptAggregator

namespace BlockVerificationStatus

variable (status : BlockVerificationStatus)

theorem addReceipt_spec (receipt : VerificationReceipt) :
    (status.addReceipt receipt).threshold = status.threshold ∧
      (status.addReceipt receipt).expectedReceiptsRoot = status.expectedReceiptsRoot ∧
      status.validCount ≤ (status.addReceipt receipt).validCount := by
  unfold addReceipt
  split
  · exact ⟨rfl, rfl, le_rfl⟩
  · split
    · exact ⟨rfl, rfl, Nat.le_succ _⟩
    · exact ⟨rfl, rfl, le_rfl⟩

theorem expect_of_isSome {status : BlockVerificationStatus} (h : status.expectedReceiptsRoot.isSome)
    (root : Option B256) : status.expect root = status := by
  unfold expect
  rw [if_neg]
  rw [Option.isNone_iff_eq_none]
  exact Option.isSome_iff_ne_none.mp h

@[simp] theorem expect_none : status.expect none = status := by
  unfold expect
  split
  · next hnone => rw [← Option.isNone_iff_eq_none.mp hnone]
  · rfl

theorem expect_spec (root : Option B256) : (status.expect root).threshold = status.threshold ∧
      (status.expect root).seenVerifiers = status.seenVerifiers ∧
      (status.expect root).validCount = status.validCount := by
  unfold expect
  split <;> exact ⟨rfl, rfl, rfl⟩

end BlockVerificationStatus

namespace VerifierRegistry

def Extends (later earlier : VerifierRegistry) : Prop := earlier.pubkeys <+: later.pubkeys

theorem extends_register (registry : VerifierRegistry) (pubkey : PubkeyBytes) :
    (registry.register pubkey).Extends registry := by
  unfold register
  split
  · exact prefix_rfl
  · exact prefix_append _ _

variable {pubkey : PubkeyBytes} {later earlier : VerifierRegistry}

theorem Extends.pubkeyAt (h : later.Extends earlier) {index : ℕ}
    (hat : earlier.pubkeyAt index = some pubkey) : later.pubkeyAt index = some pubkey := by
  obtain ⟨rest, hrest⟩ := h
  rw [VerifierRegistry.pubkeyAt, ← hrest]
  obtain ⟨hlt, -⟩ := List.getElem?_eq_some_iff.mp hat
  rw [List.getElem?_append_left hlt]
  exact hat

theorem indexOf_eq_some {registry : VerifierRegistry} {index : ℕ} :
    registry.indexOf pubkey = some index ↔ registry.pubkeyAt index = some pubkey := by
  unfold indexOf pubkeyAt
  constructor
  · intro h
    split at h
    · next hmem =>
      rw [← Option.some.inj h, getElem?_eq_getElem (idxOf_lt_length_of_mem hmem),
        getElem_idxOf]
    · cases h
  · intro h
    obtain ⟨hlt, rfl⟩ := List.getElem?_eq_some_iff.mp h
    rw [if_pos (List.getElem_mem hlt), registry.nodup.idxOf_getElem]

theorem Extends.indexOf (h : later.Extends earlier) {index : ℕ}
    (hindex : earlier.indexOf pubkey = some index) : later.indexOf pubkey = some index :=
  indexOf_eq_some.mpr (h.pubkeyAt (indexOf_eq_some.mp hindex))

end VerifierRegistry

/-- The number and the receipts root of the block with a given hash. -/
structure Chain where
  number : B256 → ℕ
  receiptsRoot : B256 → B256

variable (chain : Chain) (blockHash : B256) (receipt : VerificationReceipt)

def Chain.Confirms : Prop :=
  receipt.blockHash = blockHash ∧ receipt.blockNumber = chain.number blockHash ∧
    receipt.computedReceiptsRoot = chain.receiptsRoot blockHash

instance : Decidable (chain.Confirms blockHash receipt) :=
  inferInstanceAs (Decidable (_ ∧ _ ∧ _))

/-- Aggregating valid signatures of one message succeeds, and the sum verifies for the keys that
signed, in any order. -/
def AggregatesSignatures [Crypto] : Prop :=
  ∀ (message : Bytes) (signed : List (BlsPublicKey × BlsSignature)) (keys : List BlsPublicKey),
    signed ≠ [] → (∀ s ∈ signed, Crypto.verify .native s.1 message s.2 = true) →
      keys.Perm (signed.map Prod.fst) →
        ∃ aggregate, Crypto.aggregate (signed.map Prod.snd) = some aggregate ∧
          Crypto.fastAggregateVerify .native keys message aggregate = true

/-- The set bits of an attestation are as many registered verifiers as it says, each of which
sent a receipt for the block, and its signature verifies. -/
structure Exact [Crypto] [PointDecoder] (chain : Chain) (registry : VerifierRegistry)
    (received : List Received) (blockHash : B256) (attestation : AggregatedAttestation) : Prop where
  number : attestation.blockNumber = chain.number blockHash
  root : attestation.receiptsRoot = chain.receiptsRoot blockHash
  participants : ∀ index ∈ Bitfield.indices attestation.participantBitfield,
    ∃ entry ∈ received, chain.Confirms blockHash entry.receipt ∧
      registry.pubkeyAt index = some entry.receipt.verifierPubkey
  count : attestation.participantCount =
    (Bitfield.indices attestation.participantBitfield).length
  verifies : attestation.verify registry = .ok ()

section Building

variable [Crypto] [PointDecoder] {chain : Chain} {registry : VerifierRegistry}
  {received : List Received} {blockHash : B256}

/-- Every entry of a builder is the signature of a registered verifier under the block. -/
structure AttestationBuilder.Sound (chain : Chain) (registry : VerifierRegistry)
    (received : List Received) (blockHash : B256) (builder : AttestationBuilder) : Prop where
  hash : builder.blockHash = blockHash
  number : builder.blockNumber = chain.number blockHash
  root : builder.receiptsRoot = chain.receiptsRoot blockHash
  entries : ∀ e ∈ builder.entries, ∃ entry ∈ received, chain.Confirms blockHash entry.receipt ∧
    registry.pubkeyAt e.1 = some entry.receipt.verifierPubkey ∧ entry.receipt.signature = e.2

variable {builder : AttestationBuilder}

section

omit [Crypto] [PointDecoder]

theorem AttestationBuilder.Sound.mono (h : builder.Sound chain registry received blockHash)
    {registry' : VerifierRegistry} (hregistry : registry'.Extends registry)
    {received' : List Received} (hreceived : received ⊆ received') :
    builder.Sound chain registry' received' blockHash where
  hash := h.hash
  number := h.number
  root := h.root
  entries e he := by
    obtain ⟨entry, hentry, hconfirms, hat, hsignature⟩ := h.entries e he
    exact ⟨entry, hreceived hentry, hconfirms, hregistry.pubkeyAt hat, hsignature⟩

@[simp] theorem AttestationBuilder.blockHash_addReceipt (builder : AttestationBuilder)
    (receipt : VerificationReceipt) :
    (builder.addReceipt receipt registry).blockHash = builder.blockHash := by
  unfold AttestationBuilder.addReceipt AttestationBuilder.push
  grind

theorem AttestationBuilder.Sound.addReceipt (h : builder.Sound chain registry received blockHash)
    {entry : Received} (hentry : entry ∈ received) :
    (builder.addReceipt entry.receipt registry).Sound chain registry received blockHash := by
  unfold AttestationBuilder.addReceipt
  split
  · next haccepts =>
    split
    · exact h
    · next index hindex =>
      unfold AttestationBuilder.push
      split
      · exact h
      · refine ⟨h.hash, h.number, h.root, ?_⟩
        obtain ⟨hhash, hnumber, hroot⟩ := of_decide_eq_true haccepts
        exact forall_mem_append.mpr ⟨h.entries, forall_mem_singleton.mpr ⟨entry, hentry,
          ⟨hhash.trans h.hash, hnumber.trans h.number, hroot.trans h.root⟩,
          VerifierRegistry.indexOf_eq_some.mp hindex, rfl⟩⟩
  · exact h

end

theorem isPoint_of_verifySignature {receipt : VerificationReceipt}
    (h : receipt.verifySignature = true) :
    publicKeyFromBytes receipt.verifierPubkey = some ⟨receipt.verifierPubkey⟩ ∧
      Crypto.verify .native ⟨receipt.verifierPubkey⟩ receipt.signingMessage receipt.signature =
        true := by
  unfold VerificationReceipt.verifySignature publicKeyFromBytes at h
  by_cases hpoint : PointDecoder.isPoint receipt.verifierPubkey = true
  · simp only [hpoint] at h
    exact ⟨by simp [publicKeyFromBytes, hpoint], h⟩
  · simp [hpoint] at h

omit [Crypto] in
theorem mapM_publicKeyFromBytes {pubkeys : List PubkeyBytes}
    (h : ∀ pubkey ∈ pubkeys, publicKeyFromBytes pubkey = some ⟨pubkey⟩) :
    pubkeys.mapM publicKeyFromBytes = some (pubkeys.map BlsPublicKey.mk) := by
  induction pubkeys with
  | nil => rfl
  | cons pubkey pubkeys ih =>
    rw [mapM_cons, h pubkey mem_cons_self,
      ih fun other hother => h other (mem_cons_of_mem _ hother)]
    rfl

variable {attestation : AggregatedAttestation}

omit [Crypto] [PointDecoder] in
theorem extractParticipantPubkeys_eq_ok {key : ℕ → PubkeyBytes}
    (h : ∀ index ∈ Bitfield.indices attestation.participantBitfield,
      registry.pubkeyAt index = some (key index)) : attestation.extractParticipantPubkeys registry =
      .ok ((Bitfield.indices attestation.participantBitfield).map key) := by
  unfold AggregatedAttestation.extractParticipantPubkeys
  generalize indices attestation.participantBitfield = indices at h
  induction indices with
  | nil => rfl
  | cons index indices ih =>
    rw [mapM_cons, ih fun other hother => h other (mem_cons_of_mem _ hother),
      h index mem_cons_self]
    rfl

theorem verify_eq_ok {key : ℕ → PubkeyBytes}
    (hsome : Bitfield.indices attestation.participantBitfield ≠ [])
    (hat : ∀ index ∈ Bitfield.indices attestation.participantBitfield,
      registry.pubkeyAt index = some (key index) ∧
        publicKeyFromBytes (key index) = some ⟨key index⟩)
    (hverify : Crypto.fastAggregateVerify .native
      ((Bitfield.indices attestation.participantBitfield).map fun index => ⟨key index⟩)
      attestation.signingMessage attestation.aggregateSignature = true) :
    attestation.verify registry = .ok () := by
  have hpubkeys : ((indices attestation.participantBitfield).map key).mapM
      publicKeyFromBytes = some ((indices attestation.participantBitfield).map
        fun index => ⟨key index⟩) := by
    rw [mapM_publicKeyFromBytes, map_map]
    · rfl
    · intro pubkey hpubkey
      obtain ⟨index, hindex, rfl⟩ := mem_map.mp hpubkey
      exact (hat index hindex).2
  unfold AggregatedAttestation.verify
  rw [extractParticipantPubkeys_eq_ok fun index hindex => (hat index hindex).1]
  simp only [bind, Except.bind, map_eq_nil_iff, hsome, if_false, hpubkeys, hverify, if_true,
    pure, Except.pure]

theorem AttestationBuilder.Sound.build (h : builder.Sound chain registry received blockHash)
    (hagg : AggregatesSignatures)
    (hsigned : ∀ entry ∈ received, entry.receipt.verifySignature = true)
    (hentries : builder.entries ≠ []) :
    ∃ attestation, builder.build = .ok attestation ∧ attestation.blockHash = blockHash ∧
      attestation.participantCount = builder.count ∧
      Exact chain registry received blockHash attestation := by
  set numbers := builder.entries.map Prod.fst with hnumbers
  have hperm : (indices (ofIndices numbers)).Perm numbers :=
    (perm_ext_iff_of_nodup (nodup_indices _) builder.nodup).mpr
      fun index => mem_indices_ofIndices
  set key : ℕ → PubkeyBytes := fun index => (registry.pubkeyAt index).getD [] with hkey
  -- what an entry says about its key
  have hentry : ∀ e ∈ builder.entries, registry.pubkeyAt e.1 = some (key e.1) ∧
      publicKeyFromBytes (key e.1) = some ⟨key e.1⟩ ∧
      Crypto.verify .native ⟨key e.1⟩
        (buildSigningMessage blockHash (chain.number blockHash) (chain.receiptsRoot blockHash))
        e.2 = true := by
    intro e he
    obtain ⟨entry, hmem, ⟨hhash, hnumber, hroot⟩, hat, hsignature⟩ := h.entries e he
    have hkey_eq : key e.1 = entry.receipt.verifierPubkey := by simp [hkey, hat]
    obtain ⟨hpoint, hverify⟩ := isPoint_of_verifySignature (hsigned entry hmem)
    rw [VerificationReceipt.signingMessage, hhash, hnumber, hroot, hsignature] at hverify
    rw [hkey_eq]
    exact ⟨hat, hpoint, hverify⟩
  have hnumber : ∀ index ∈ indices (ofIndices numbers),
      ∃ e ∈ builder.entries, e.1 = index := by
    intro index hindex
    exact mem_map.mp (hperm.mem_iff.mp hindex)
  obtain ⟨aggregate, haggregate, hverify⟩ := hagg
    (buildSigningMessage blockHash (chain.number blockHash) (chain.receiptsRoot blockHash))
    (builder.entries.map fun e => (⟨key e.1⟩, e.2))
    ((indices (ofIndices numbers)).map fun index => ⟨key index⟩)
    (by simpa using hentries)
    (by
      intro s hs
      obtain ⟨e, he, rfl⟩ := mem_map.mp hs
      exact (hentry e he).2.2)
    (by
      have hmapped := hperm.map fun index => (⟨key index⟩ : BlsPublicKey)
      simpa [hnumbers, Function.comp_def] using hmapped)
  have haggregate : Crypto.aggregate (builder.entries.map Prod.snd) = some aggregate := by
    simpa [Function.comp_def] using haggregate
  have hsome : indices (ofIndices numbers) ≠ [] := by
    intro hnil
    rw [hnil] at hperm
    exact hentries (map_eq_nil_iff.mp hperm.nil_eq.symm)
  refine ⟨builder.attestation aggregate, by simp [AttestationBuilder.build, hentries, haggregate],
    h.hash, rfl, h.number, h.root, ?_, ?_, ?_⟩
  · intro index hindex
    obtain ⟨e, he, rfl⟩ := hnumber index hindex
    obtain ⟨entry, hmem, hconfirms, hat, -⟩ := h.entries e he
    exact ⟨entry, hmem, hconfirms, hat⟩
  · exact (length_map (f := Prod.fst)).symm.trans hperm.length_eq.symm
  · have hat : ∀ index ∈ indices (ofIndices numbers),
        registry.pubkeyAt index = some (key index) ∧
          publicKeyFromBytes (key index) = some ⟨key index⟩ := by
      intro index hindex
      obtain ⟨e, he, rfl⟩ := hnumber index hindex
      exact ⟨(hentry e he).1, (hentry e he).2.1⟩
    apply verify_eq_ok hsome hat
    · change Crypto.fastAggregateVerify _ _ (buildSigningMessage builder.blockHash
        builder.blockNumber builder.receiptsRoot) _ = true
      rw [h.hash, h.number, h.root]
      exact hverify

end Building

inductive BridgeEvent where
  /-- A phone connects; whether it may is the staking manager's answer. -/
  | connected (minAttestationThreshold sessionId : ℕ) (verifierPubkey : PubkeyBytes)
      (authorized : Bool)
  | disconnected (minAttestationThreshold sessionId : ℕ)
  | threshold (threshold : ℕ)
  /-- A block was committed; its root is not known yet. -/
  | committed (blockHash : B256) (iteration : Iteration BlockVerificationStatus)
  /-- The packet of a block was built. -/
  | dispatched (blockHash : B256) (iteration : Iteration BlockVerificationStatus)
  | receipt (receipt : VerificationReceipt)

section Runs

variable [Crypto] (chain : Chain)

variable (bridge : MobileVerificationBridge)

def MobileVerificationBridge.step : BridgeEvent → MobileVerificationBridge
  | .connected minimum sessionId pubkey authorized =>
    bridge.phoneConnected minimum sessionId pubkey authorized
  | .disconnected minimum sessionId => bridge.phoneDisconnected minimum sessionId
  | .threshold threshold =>
    { bridge with receiptAggregator := bridge.receiptAggregator.setDefaultThreshold threshold }
  | .committed blockHash iteration =>
    bridge.registerDispatchedBlock iteration blockHash (chain.number blockHash) none
  | .dispatched blockHash iteration =>
    bridge.registerDispatchedBlock iteration blockHash (chain.number blockHash)
      (some (chain.receiptsRoot blockHash))
  | .receipt receipt => bridge.processReceipt receipt

def MobileVerificationBridge.run (events : List BridgeEvent) : MobileVerificationBridge :=
  events.foldl (·.step chain) bridge

def MobileVerificationBridge.status (blockHash : B256) : Option BlockVerificationStatus :=
  bridge.receiptAggregator.blocks.get blockHash

/-- Once tracked, the block is not evicted. -/
def StaysTracked (blockHash : B256) : MobileVerificationBridge → List BridgeEvent → Prop
  | _, [] => True
  | bridge, event :: events =>
    ((bridge.status blockHash).isSome → ((bridge.step chain event).status blockHash).isSome) ∧
      StaysTracked blockHash (bridge.step chain event) events

def MobileVerificationBridge.attestationsFor (blockHash : B256) : List FinalizedAttestation :=
  bridge.emitted.filter (·.attestation.blockHash = blockHash)

variable (blockHash : B256)

/-- A receipt for the block by a verifier registered when it arrived, after the root. -/
def Received.Supports (entry : Received) : Prop :=
  chain.Confirms blockHash entry.receipt ∧ entry.registered = true ∧
    (entry.status.bind (·.expectedReceiptsRoot)).isSome = true

instance (entry : Received) : Decidable (entry.Supports chain blockHash) :=
  inferInstanceAs (Decidable (_ ∧ _ ∧ _))

def supporters (received : List Received) (blockHash : B256) : Finset PubkeyBytes :=
  ((received.filter (·.Supports chain blockHash)).map (·.receipt.verifierPubkey)).toFinset

variable (receipt : VerificationReceipt) (status : BlockVerificationStatus)

/-- A receipt that does not spoil the count of its block: the root is known; if the receipt has
the block's root, it has its number, comes from a registered verifier, and this verifier sent no
other root before. The threshold has to fit the evidence codec. -/
def FairReceipt : Prop :=
  status.threshold < 2 ^ 16 ∧ status.expectedReceiptsRoot.isSome ∧
    (receipt.computedReceiptsRoot = chain.receiptsRoot receipt.blockHash →
      receipt.blockNumber = chain.number receipt.blockHash ∧
      (bridge.registry.indexOf receipt.verifierPubkey).isSome ∧
      ∀ entry ∈ bridge.received, entry.receipt.blockHash = receipt.blockHash →
        entry.status.isSome → entry.receipt.verifierPubkey = receipt.verifierPubkey →
          entry.receipt.computedReceiptsRoot = chain.receiptsRoot receipt.blockHash)

def Fair (bridge : MobileVerificationBridge) : BridgeEvent → Prop
  | .receipt receipt => receipt.blockHash = blockHash →
      ∀ status ∈ bridge.status blockHash, FairReceipt chain bridge receipt status
  | _ => True

def AlwaysFair (blockHash : B256) : MobileVerificationBridge → List BridgeEvent → Prop
  | _, [] => True
  | bridge, event :: events =>
    Fair chain blockHash bridge event ∧ AlwaysFair blockHash (bridge.step chain event) events

instance : Decidable (FairReceipt chain bridge receipt status) :=
  inferInstanceAs (Decidable (_ ∧ _ ∧ (_ → _)))

instance decidableFair (bridge : MobileVerificationBridge) :
    (event : BridgeEvent) → Decidable (Fair chain blockHash bridge event)
  | .receipt _ => inferInstanceAs (Decidable (_ → _))
  | .connected .. => isTrue trivial
  | .disconnected .. => isTrue trivial
  | .threshold _ => isTrue trivial
  | .committed .. => isTrue trivial
  | .dispatched .. => isTrue trivial

instance decidableAlwaysFair (blockHash : B256) : (bridge : MobileVerificationBridge) →
    (events : List BridgeEvent) → Decidable (AlwaysFair chain blockHash bridge events)
  | _, [] => isTrue trivial
  | bridge, event :: events =>
    have := decidableAlwaysFair blockHash (bridge.step chain event) events
    inferInstanceAs (Decidable (_ ∧ _))

instance decidableStaysTracked (blockHash : B256) : (bridge : MobileVerificationBridge) →
    (events : List BridgeEvent) → Decidable (StaysTracked chain blockHash bridge events)
  | _, [] => isTrue trivial
  | bridge, event :: events =>
    have := decidableStaysTracked blockHash (bridge.step chain event) events
    inferInstanceAs (Decidable ((_ → _) ∧ _))

end Runs

end N42.Mobile
