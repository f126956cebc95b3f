import N42.Tx.Admission

/-!
Attested frames are as good as verified ones: a root that enough gateways have signed is the root of
transactions that an honest gateway has verified, and these are the transactions of the frame.
-/

namespace N42.Tx

open Lib List

section Trusted

variable [Ed25519] [Keccak] [StrictVerifier]

/-- Transactions that were verified one by one, under their right hashes. -/
structure VerifiedList (txs : List AltSigTx) : Prop where
  fits : ∀ t ∈ txs, t.Fits
  hash : ∀ t ∈ txs, t.hash = Keccak.keccak256 t.encode2718
  verified : ∀ t ∈ txs, ∃ sender, t.verify = .ok sender

def frameStrings (chainId : BitVec 64) (txs : List AltSigTx) : Set Bytes :=
  {b | b = [] ∨ b = attestString chainId (frameRoot (txs.map (·.hash))) ∨
    b ∈ merkleStrings (txs.map (·.hash)) ∨ ∃ t ∈ txs, b = t.encode2718}

/-- What is assumed of the gateways. `attests` says which lists a gateway has signed the root of. -/
structure Trust (g : FrameGateways) (faulty : Finset Bytes)
    (attests : Bytes → BitVec 64 → List AltSigTx → Prop) (strings : Set Bytes) : Prop where
  few_faulty : faulty.card < g.min
  unforgeable : ∀ key ∈ g.keys, key ∉ faulty → ∀ message signature,
    StrictVerifier.verifyStrict key message signature = true → ∃ chainId txs,
      attests key chainId txs ∧
      message = B256.toBytes (frameAttestMessage chainId (frameRoot (txs.map (·.hash))))
  verified : ∀ key ∈ g.keys, key ∉ faulty → ∀ chainId txs, attests key chainId txs →
    VerifiedList txs
  hashed : ∀ key ∈ g.keys, key ∉ faulty → ∀ chainId txs, attests key chainId txs →
    frameStrings chainId txs ⊆ strings ∧ ∀ t ∈ txs, NotPair t.hash

variable {chainId chainId' : BitVec 64}

omit [Ed25519] [Keccak] [StrictVerifier] in
theorem root_eq_of_attestString {root root' : B256}
    (h : attestString chainId root = attestString chainId' root') : root = root' := by
  obtain ⟨-, hroot⟩ := append_inj (append_cancel_left h) (by simp)
  exact B256.toBytes_injective hroot

omit [Ed25519] [StrictVerifier] in
theorem mem_hashes_of_frameRoot_eq {strings : Set Bytes}
    (hfree : Set.InjOn Keccak.keccak256 strings) {xs ys : List AltSigTx}
    (hxs : frameStrings chainId xs ⊆ strings) (hys : frameStrings chainId' ys ⊆ strings)
    (hxpair : ∀ t ∈ xs, NotPair t.hash) (hypair : ∀ t ∈ ys, NotPair t.hash)
    (hhash : ∀ t ∈ xs, t.hash = Keccak.keccak256 t.encode2718) (hne : xs ≠ [])
    (h : frameRoot (xs.map (·.hash)) = frameRoot (ys.map (·.hash))) :
    ∀ t ∈ xs, t.hash ∈ ys.map (·.hash) := by
  have hx := aligned_frame (map_eq_nil_iff.not.mpr hne : xs.map (·.hash) ≠ [])
  have hxstrings := frameTreeStrings_frame (xs.map (·.hash))
  have hyne : ys.map (·.hash) ≠ [] := by
    intro hnil
    rw [hnil] at h
    apply hx.root_ne_empty hfree (hxs (Or.inl rfl)) _ _ h
    · intro b hb
      rw [hxstrings] at hb
      exact hxs (Or.inr (Or.inr (Or.inl hb)))
    · intro hash hmem
      obtain ⟨t, ht, rfl⟩ := mem_map.mp hmem
      exact ⟨t.encode2718, hxs (Or.inr (Or.inr (Or.inr ⟨t, ht, rfl⟩))), cons_ne_nil _ _,
        (hhash t ht).symm⟩
  have hy := aligned_frame hyne
  rw [h] at hx
  have hnote := hx.note_eq hy
    (by
      rintro hash (hmem | hmem)
      · obtain ⟨t, ht, rfl⟩ := mem_map.mp hmem
        exact hxpair t ht
      · obtain ⟨t, ht, rfl⟩ := mem_map.mp hmem
        exact hypair t ht)
    (hfree.mono (by
      rintro b (hb | hb)
      · rw [hxstrings] at hb
        exact hxs (Or.inr (Or.inr (Or.inl hb)))
      · rw [frameTreeStrings_frame] at hb
        exact hys (Or.inr (Or.inr (Or.inl hb)))))
  intro t ht
  have hmem : t.hash ∈ note [] (xs.map (·.hash)) :=
    mem_note.mpr (Or.inr (mem_map.mpr ⟨t, ht, rfl⟩))
  rw [hnote, mem_note] at hmem
  exact hmem.resolve_left not_mem_nil

omit [StrictVerifier] in
theorem verify_congr {t t' : AltSigTx} (htx : t.tx = t'.tx)
    (hsignature : t.signature = t'.signature) : t.verify = t'.verify := by
  unfold AltSigTx.verify AltSigTx.ed25519Signature
  rw [htx, hsignature]

variable {decoded : List AltSigTx}

theorem Trust.verifies {g : FrameGateways} {faulty : Finset Bytes}
    {attests : Bytes → BitVec 64 → List AltSigTx → Prop} {strings : Set Bytes}
    (h : Trust g faulty attests strings) (hfree : Set.InjOn Keccak.keccak256 strings)
    {chainId : BitVec 64} (hstrings : frameStrings chainId decoded ⊆ strings)
    (hpair : ∀ t ∈ decoded, NotPair t.hash)
    (hgenuine : ∀ t ∈ decoded, t.Fits ∧ t.hash = Keccak.keccak256 t.encode2718)
    {attestations : List FrameAttestation}
    (hattested : (g.check chainId (frameRoot (decoded.map (·.hash))) attestations).attested =
      true) : ∀ t ∈ decoded, ∃ sender, t.verify = .ok sender := by
  intro t ht
  obtain ⟨key, hkey, hhonest, signature, hsignature⟩ :=
    exists_signature_of_attested hattested h.few_faulty
  obtain ⟨chainId', txs, hattests, hmessage⟩ :=
    h.unforgeable key hkey hhonest _ signature hsignature
  obtain ⟨hstrings', hpair'⟩ := h.hashed key hkey hhonest chainId' txs hattests
  have hverified := h.verified key hkey hhonest chainId' txs hattests
  have hattest := hfree (hstrings (Or.inr (Or.inl rfl))) (hstrings' (Or.inr (Or.inl rfl)))
    (B256.toBytes_injective hmessage)
  have hroot := root_eq_of_attestString hattest
  have hmem := mem_hashes_of_frameRoot_eq hfree hstrings hstrings' hpair hpair'
    (fun t ht => (hgenuine t ht).2) (ne_nil_of_mem ht) hroot t ht
  obtain ⟨t', ht', hhash⟩ := mem_map.mp hmem
  have hencode : t'.encode2718 = t.encode2718 := by
    apply hfree (hstrings' (Or.inr (Or.inr (Or.inr ⟨t', ht', rfl⟩))))
      (hstrings (Or.inr (Or.inr (Or.inr ⟨t, ht, rfl⟩))))
    rw [← hverified.hash t' ht', hhash, (hgenuine t ht).2]
  obtain ⟨htx, hsignature⟩ :=
    encode2718_injective (hverified.fits t' ht') (hgenuine t ht).1 hencode
  rw [← verify_congr htx hsignature]
  exact hverified.verified t' ht'

omit [StrictVerifier] in
theorem sender_of_verify {t : AltSigTx} {sender : Address} (h : t.verify = .ok sender) :
    sender = t.sender := by
  simp only [AltSigTx.verify, bind_eq_ok, guard_bind_eq_ok, pure_eq_ok] at h
  obtain ⟨-, -, -, -, -, h⟩ := h
  exact h.symm

/-- No bad signature hides in a batch. -/
def SoundBatch (txs : List AltSigTx) : Prop :=
  batchVerifies txs = true → ∀ c ∈ candidates txs, c.passes = true

omit [StrictVerifier] in
theorem authenticatedSenders_eq_ok {merge attested : Bool} (hbatch : SoundBatch decoded)
    {senders : List Address} : authenticatedSenders merge attested decoded = .ok senders ↔
      senders = decoded.map AltSigTx.sender ∧
        (attested = false → ∀ t ∈ decoded, ∃ sender, t.verify = .ok sender) := by
  unfold authenticatedSenders
  cases attested with
  | true => simp [eq_comm]
  | false =>
    rw [if_neg (by simp), sendersFrom_eq_ok, verifyBatch_eq_map_verify merge hbatch]
    constructor
    · intro h
      have hverify : ∀ t ∈ decoded, t.verify = .ok t.sender := by
        intro t ht
        have hmem : t.verify ∈ senders.map Except.ok := by
          rw [← h]
          exact mem_map_of_mem ht
        obtain ⟨sender, -, hsender⟩ := mem_map.mp hmem
        rw [← hsender, sender_of_verify hsender.symm]
      rw [map_congr_left hverify, ← Function.comp_def, ← map_map] at h
      have hinj : Function.Injective (Except.ok : Address → Except AltSigError Address) :=
        fun a b hab => Except.ok.inj hab
      exact ⟨(hinj.list_map h).symm, fun _ t ht => ⟨_, hverify t ht⟩⟩
    · rintro ⟨rfl, hverify⟩
      rw [map_map]
      apply map_congr_left
      intro t ht
      obtain ⟨sender, hsender⟩ := hverify rfl t ht
      rw [hsender, sender_of_verify hsender]
      rfl

omit [Ed25519] [StrictVerifier] in
theorem zipWith_sender (decoded : List AltSigTx) :
    List.zipWith AdmittedTransaction.mk decoded (decoded.map AltSigTx.sender) =
      decoded.map fun t => ⟨t, t.sender⟩ := by
  induction decoded with
  | nil => rfl
  | cons t decoded ih => rw [map_cons, zipWith_cons_cons, ih, map_cons]

omit [Ed25519] [StrictVerifier] in
theorem genuine_of_forall₂ {encoded : List Bytes}
    (h : List.Forall₂ (fun bytes t => decode2718Exact bytes = .ok t) encoded decoded) :
    ∀ t ∈ decoded, t.Fits ∧ t.hash = Keccak.keccak256 t.encode2718 := by
  induction h with
  | nil =>
    intro t ht
    cases ht
  | cons hdecode _ ih =>
    intro t ht
    rcases mem_cons.mp ht with rfl | ht
    · obtain ⟨hfits, rfl, hhash⟩ := decode2718Exact_eq_ok.mp hdecode
      exact ⟨hfits, hhash⟩
    · exact ih t ht

/-- What is assumed of the inputs of a frame: their hashes are ideal and their batch is sound. -/
structure IdealInput (chainId : BitVec 64) (encoded : List Bytes) (strings : Set Bytes) : Prop where
  hashed : ∀ txs, List.Forall₂ (fun bytes t => decode2718Exact bytes = .ok t) encoded txs →
    frameStrings chainId txs ⊆ strings ∧ ∀ t ∈ txs, NotPair t.hash
  batch : ∀ txs, List.Forall₂ (fun bytes t => decode2718Exact bytes = .ok t) encoded txs →
    SoundBatch txs

/-- An authenticated frame: what the property asks of it. -/
structure Authenticated (chainId : BitVec 64) (encoded : List Bytes) (frame : AdmittedFrame) :
    Prop where
  decoded : List.Forall₂ (fun bytes a => decode2718Exact bytes = .ok a.transaction) encoded
    frame.transactions
  distinct : (frame.transactions.map (·.transaction.hash)).Nodup
  chain : ∀ a ∈ frame.transactions, a.transaction.tx.chainId = chainId
  verified : ∀ a ∈ frame.transactions, ∃ sender, a.transaction.verify = .ok sender
  sender : ∀ a ∈ frame.transactions,
    a.sender = senderOf a.transaction.tx.algType a.transaction.tx.pubkey

theorem attested_frames_verified (merge : Bool) (chainId : BitVec 64) (encoded : List Bytes)
    (gateways : Option FrameGateways) (limits : FrameLimits) (strings : Set Bytes)
    (hfree : Set.InjOn Keccak.keccak256 strings) (hinput : IdealInput chainId encoded strings)
    (htrust : ∀ g ∈ gateways, ∃ faulty attests, Trust g faulty attests strings) :
    (∀ attestations frame,
      authenticate merge chainId encoded attestations gateways limits = .ok frame →
        Authenticated chainId encoded frame) ∧
    ∀ attestations attestations' frame,
      authenticate merge chainId encoded attestations gateways limits = .ok frame →
      attestations'.length ≤ MAX_FRAME_ATTESTATIONS →
      (∀ a ∈ frame.transactions, ∃ sender, a.transaction.verify = .ok sender) →
      ∃ frame', authenticate merge chainId encoded attestations' gateways limits = .ok frame' := by
  constructor
  · intro attestations frame h
    obtain ⟨-, -, -, -, encodedBytes, -, decoded, hdecoded, attested, hattested, senders, hsenders,
      rfl⟩ := authenticate_eq_ok.mp h
    obtain ⟨hforall, hchain, hnodup, -⟩ := decodeFrom_eq_ok hdecoded
    obtain ⟨rfl, hverified⟩ :=
      (authenticatedSenders_eq_ok (hinput.batch decoded hforall)).mp hsenders
    obtain ⟨hstrings, hpair⟩ := hinput.hashed decoded hforall
    have hverify : ∀ t ∈ decoded, ∃ sender, t.verify = .ok sender := by
      cases hvalue : attested with
      | false => exact hverified hvalue
      | true =>
        rw [hvalue, eq_comm, Option.any_eq_true] at hattested
        obtain ⟨g, hg, hcheck⟩ := hattested
        obtain ⟨faulty, attests, hgateways⟩ := htrust g hg
        exact hgateways.verifies hfree hstrings hpair (genuine_of_forall₂ hforall) hcheck
    rw [zipWith_sender]
    constructor
    · rw [List.forall₂_map_right_iff]
      exact hforall
    · rw [map_map]
      exact hnodup
    · intro a ha
      obtain ⟨t, ht, rfl⟩ := mem_map.mp ha
      exact hchain t ht
    · intro a ha
      obtain ⟨t, ht, rfl⟩ := mem_map.mp ha
      exact hverify t ht
    · intro a ha
      obtain ⟨t, ht, rfl⟩ := mem_map.mp ha
      rfl
  · intro attestations attestations' frame h hcount hverify
    obtain ⟨hne, hlimit, -, hgateways, encodedBytes, hbytes, decoded, hdecoded, attested, hattested,
      senders, hsenders, rfl⟩ := authenticate_eq_ok.mp h
    have hbatch := hinput.batch decoded (decodeFrom_eq_ok hdecoded).1
    obtain ⟨rfl, -⟩ := (authenticatedSenders_eq_ok hbatch).mp hsenders
    rw [zipWith_sender] at hverify
    have hverified : ∀ t ∈ decoded, ∃ sender, t.verify = .ok sender := by
      intro t ht
      exact hverify ⟨t, t.sender⟩ (mem_map.mpr ⟨t, ht, rfl⟩)
    exact ⟨_, authenticate_eq_ok.mpr ⟨hne, hlimit, hcount, hgateways, encodedBytes, hbytes, decoded,
      hdecoded, _, rfl, _, (authenticatedSenders_eq_ok hbatch).mpr ⟨rfl, fun _ => hverified⟩, rfl⟩⟩

end Trusted

attribute [local instance] integerCurve lengthKeccak

@[reducible] def sampleVerifier : StrictVerifier where
  verifyStrict _ message _ := message = B256.toBytes 56

attribute [local instance] sampleVerifier

def sampleGateways : FrameGateways := FrameGateways.new [[7], [7]] 0

def sampleTx : AltSigTx :=
  { sampleAltSig 3 1 4 with hash := Keccak.keccak256 (sampleAltSig 3 1 4).encode2718 }

def sampleEncoded : List Bytes := [sampleTx.encode2718]

theorem sampleTx_decoded : decode2718Exact sampleTx.encode2718 = .ok sampleTx := by decide +kernel

theorem sampleTx_verified : sampleTx.verify = .ok sampleTx.sender := by decide

theorem sampleTx_hash : sampleTx.hash ≠ 0 ∧ sampleTx.hash ≠ 56 ∧ sampleTx.hash ≠ 64 := by
  decide +kernel

theorem sampleFrame_accepted : (authenticate true 1 sampleEncoded [⟨[7], []⟩]
    (some sampleGateways) ⟨10, 1000⟩).toOption.isSome = true := by decide +kernel

theorem sampleEncoded_decoded {txs : List AltSigTx}
    (h : List.Forall₂ (fun bytes t => decode2718Exact bytes = .ok t) sampleEncoded txs) :
    txs = [sampleTx] := by
  cases h with
  | cons hdecode hrest =>
    cases hrest with
    | nil =>
      rw [sampleTx_decoded] at hdecode
      rw [Except.ok.inj hdecode]

theorem sample_injOn : Set.InjOn Keccak.keccak256 (frameStrings 1 [sampleTx]) := by
  have hcases : ∀ b ∈ frameStrings 1 [sampleTx],
      b = [] ∨ b = attestString 1 sampleTx.hash ∨ b = sampleTx.encode2718 := by
    rintro b (rfl | rfl | hb | ⟨t, ht, rfl⟩)
    · exact Or.inl rfl
    · exact Or.inr (Or.inl rfl)
    · simp [merkleStrings, joinPairs] at hb
    · rw [mem_singleton.mp ht]
      exact Or.inr (Or.inr rfl)
  have hattest : Keccak.keccak256 (attestString 1 sampleTx.hash) = 56 := by
    simp [Keccak.keccak256, attestString, FRAME_ATTEST_DOMAIN]
  have hnil : Keccak.keccak256 ([] : Bytes) = 0 := rfl
  have hencode : Keccak.keccak256 sampleTx.encode2718 = sampleTx.hash :=
    (decode2718Exact_eq_ok.mp sampleTx_decoded).2.2.symm
  obtain ⟨hzero, hattestNe, -⟩ := sampleTx_hash
  intro b hb c hc h
  rcases hcases b hb with rfl | rfl | rfl <;> rcases hcases c hc with rfl | rfl | rfl <;>
    simp only [hattest, hencode] at h
  · rfl
  · exact absurd h (by decide)
  · exact absurd h.symm hzero
  · exact absurd h (by decide)
  · rfl
  · exact absurd h.symm hattestNe
  · exact absurd h hzero
  · exact absurd h hattestNe
  · rfl

theorem sample_notPair : NotPair sampleTx.hash := by
  intro pair hlength hpair
  simp only [Keccak.keccak256, hlength] at hpair
  exact sampleTx_hash.2.2 hpair.symm

theorem sample_idealInput : IdealInput 1 sampleEncoded (frameStrings 1 [sampleTx]) := by
  constructor
  · intro txs htxs
    obtain rfl := sampleEncoded_decoded htxs
    constructor
    · exact subset_rfl
    · intro t ht
      rw [mem_singleton.mp ht]
      exact sample_notPair
  · intro txs htxs
    obtain rfl := sampleEncoded_decoded htxs
    unfold SoundBatch
    decide

theorem sample_trust : Trust sampleGateways ∅
    (fun _ chainId txs => chainId = 1 ∧ txs = [sampleTx]) (frameStrings 1 [sampleTx]) := by
  have hgenuine := decode2718Exact_eq_ok.mp sampleTx_decoded
  constructor
  · decide
  · intro key hkey hhonest message signature hverify
    refine ⟨1, [sampleTx], ⟨rfl, rfl⟩, ?_⟩
    have hmessage : frameAttestMessage 1 (frameRoot ([sampleTx].map (·.hash))) = 56 := by
      simp [frameAttestMessage, Keccak.keccak256, attestString, FRAME_ATTEST_DOMAIN]
    rw [of_decide_eq_true hverify, hmessage]
  · rintro key hkey hhonest chainId txs ⟨rfl, rfl⟩
    constructor
    · intro t ht
      rw [mem_singleton.mp ht]
      exact hgenuine.1
    · intro t ht
      rw [mem_singleton.mp ht]
      exact hgenuine.2.2
    · intro t ht
      rw [mem_singleton.mp ht]
      exact ⟨_, sampleTx_verified⟩
  · rintro key hkey hhonest chainId txs ⟨rfl, rfl⟩
    constructor
    · exact subset_rfl
    · intro t ht
      rw [mem_singleton.mp ht]
      exact sample_notPair

theorem attested_frames_verified_sample :
    ∃ frame, authenticate true 1 sampleEncoded [⟨[7], []⟩] (some sampleGateways) ⟨10, 1000⟩ =
      .ok frame ∧ Authenticated 1 sampleEncoded frame := by
  obtain ⟨frame, hframe⟩ := Option.isSome_iff_exists.mp sampleFrame_accepted
  have haccepted := toOption_eq_some.mp hframe
  have hresult := attested_frames_verified true 1 sampleEncoded (some sampleGateways) ⟨10, 1000⟩
    (frameStrings 1 [sampleTx]) sample_injOn sample_idealInput (by
      intro g hg
      rw [← Option.some.inj hg]
      exact ⟨_, _, sample_trust⟩)
  exact ⟨frame, haccepted, hresult.1 _ frame haccepted⟩

end N42.Tx
