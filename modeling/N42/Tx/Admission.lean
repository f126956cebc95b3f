import Mathlib.Data.Finset.Card
import N42.Tx.AltSigCodec
import N42.Tx.Batch

/-!
Admission of native frames (`n42-tx-types/src/admission.rs`) and the attestations of gateways
(`frame.rs`): a frame that enough trusted gateways attest is taken without checking its signatures.
-/

namespace N42.Tx

open Lib List

def FRAME_ATTEST_DOMAIN : Bytes := [
  0x6e, 0x34, 0x32, 0x2d, 0x66, 0x72, 0x61, 0x6d, 0x65, 0x2d, 0x61, 0x74, 0x74, 0x65, 0x73, 0x74]

def MAX_FRAME_ATTESTATIONS : ℕ := 16

structure FrameAttestation where
  gateway : Bytes
  signature : Bytes
deriving DecidableEq

structure AttestVerdict where
  valid : ℕ
  bad : ℕ
  ignored : ℕ
  attested : Bool
deriving DecidableEq

/-- `VerifyingKey::verify_strict` of `ed25519_dalek`, on a key's bytes. -/
class StrictVerifier where
  verifyStrict : Bytes → Bytes → Bytes → Bool

/-- The string whose hash a gateway signs. -/
def attestString (chainId : BitVec 64) (root : B256) : Bytes :=
  FRAME_ATTEST_DOMAIN ++ (beBytes 8 chainId.toNat ++ B256.toBytes root)

def frameAttestMessage [Keccak] (chainId : BitVec 64) (root : B256) : B256 :=
  Keccak.keccak256 (attestString chainId root)

/-- The trusted gateways, without duplicates, and how many of them a frame needs. -/
structure FrameGateways where
  keys : List Bytes
  min : ℕ
  nodup : keys.Nodup
  min_pos : 1 ≤ min

/-- `FrameGateways::new`: keys are compared by their bytes. -/
def FrameGateways.new (keys : List Bytes) (min : ℕ) : FrameGateways where
  keys := note [] keys
  min := max min 1
  nodup := nodup_note nodup_nil keys
  min_pos := le_max_right min 1

section Check

variable [StrictVerifier]

/-- The loop of `check`, from a verdict and the gateways counted so far. -/
def FrameGateways.checkFrom (g : FrameGateways) (message : Bytes) :
    List FrameAttestation → AttestVerdict → List Bytes → AttestVerdict × List Bytes
  | [], verdict, counted => (verdict, counted)
  | attestation :: rest, verdict, counted =>
    if verdict.valid ≥ g.min then (verdict, counted)
    else if attestation.gateway ∉ g.keys then
      g.checkFrom message rest { verdict with ignored := verdict.ignored + 1 } counted
    else if attestation.gateway ∈ counted then
      g.checkFrom message rest { verdict with ignored := verdict.ignored + 1 } counted
    else if StrictVerifier.verifyStrict attestation.gateway message attestation.signature then
      g.checkFrom message rest { verdict with valid := verdict.valid + 1 }
        (counted ++ [attestation.gateway])
    else g.checkFrom message rest { verdict with bad := verdict.bad + 1 } counted

def FrameGateways.check [Keccak] (g : FrameGateways) (chainId : BitVec 64) (root : B256)
    (attestations : List FrameAttestation) : AttestVerdict :=
  let message := B256.toBytes (frameAttestMessage chainId root)
  let verdict := (g.checkFrom message attestations ⟨0, 0, 0, false⟩ []).1
  { verdict with attested := verdict.valid ≥ g.min }

end Check

structure FrameLimits where
  maxTransactions : ℕ
  maxEncodedBytes : ℕ

inductive FrameAdmissionError where
  | transactionCount
  | encodedBytes
  | attestationCount
  | gatewayConfiguration
  | envelope (index : ℕ)
  | chain (index : ℕ)
  | duplicate (index : ℕ)
  | signature (index : ℕ) (source : AltSigError)
deriving DecidableEq

structure AdmittedTransaction where
  transaction : AltSigTx
  sender : Address
deriving DecidableEq

inductive FrameAuthentication where
  | transactionSignatures
  | trustedGateways
deriving DecidableEq

structure AdmittedFrame where
  root : B256
  chainId : BitVec 64
  encodedBytes : ℕ
  transactions : List AdmittedTransaction
  authentication : FrameAuthentication
deriving DecidableEq

section Authenticate

variable [Ed25519] [Keccak] [StrictVerifier]

omit [StrictVerifier] in
/-- The loop over the inputs, from an index and the hashes seen so far. -/
def decodeFrom (chainId : BitVec 64) :
    ℕ → List Bytes → List B256 → Except FrameAdmissionError (List AltSigTx)
  | _, [], _ => .ok []
  | index, bytes :: encoded, unique => do
    let t ← (decode2718Exact bytes).mapError fun _ => .envelope index
    if t.tx.chainId ≠ chainId then throw (.chain index)
    let _ ← t.tx.ed25519Key.mapError (.signature index)
    let _ ← t.ed25519Signature.mapError (.signature index)
    if t.hash ∈ unique then throw (.duplicate index)
    let decoded ← decodeFrom chainId (index + 1) encoded (t.hash :: unique)
    return t :: decoded

omit [Ed25519] [Keccak] [StrictVerifier] in
def sendersFrom : ℕ → List (Except AltSigError Address) → Except FrameAdmissionError (List Address)
  | _, [] => .ok []
  | index, verdict :: verdicts => do
    let sender ← verdict.mapError (.signature index)
    let senders ← sendersFrom (index + 1) verdicts
    return sender :: senders

def authenticatedSenders (merge attested : Bool) (decoded : List AltSigTx) :
    Except FrameAdmissionError (List Address) :=
  if attested then .ok (decoded.map AltSigTx.sender) else sendersFrom 0 (verifyBatch merge decoded)

omit [Ed25519] [Keccak] [StrictVerifier] in
def FrameGateways.unreachable (g : FrameGateways) : Bool :=
  g.min > g.keys.length ∨ g.min > MAX_FRAME_ATTESTATIONS

omit [Ed25519] [Keccak] [StrictVerifier] in
def totalBytes (encoded : List Bytes) (limit : ℕ) : Option ℕ := do
  let total ← (encoded.map List.length).foldlM checkedAdd 0
  if total ≤ limit then some total else none

def authenticate (merge : Bool) (chainId : BitVec 64) (encoded : List Bytes)
    (attestations : List FrameAttestation) (gateways : Option FrameGateways)
    (limits : FrameLimits) : Except FrameAdmissionError AdmittedFrame := do
  if encoded = [] ∨ encoded.length > limits.maxTransactions then throw .transactionCount
  if attestations.length > MAX_FRAME_ATTESTATIONS then throw .attestationCount
  if gateways.any FrameGateways.unreachable then throw .gatewayConfiguration
  match totalBytes encoded limits.maxEncodedBytes with
  | none => throw .encodedBytes
  | some encodedBytes =>
    let decoded ← decodeFrom chainId 0 encoded []
    let root := frameRoot (decoded.map (·.hash))
    let attested := gateways.any fun g => (g.check chainId root attestations).attested
    let senders ← authenticatedSenders merge attested decoded
    return {
      root
      chainId
      encodedBytes
      transactions := List.zipWith AdmittedTransaction.mk decoded senders
      authentication := if attested then .trustedGateways else .transactionSignatures }

end Authenticate

variable {chainId : BitVec 64} {attestations : List FrameAttestation}

section Counting

variable [StrictVerifier]

/-- The gateways counted by the loop: configured, distinct, and each with a signature that
verifies. -/
structure Counted (g : FrameGateways) (message : Bytes) (counted : List Bytes) : Prop where
  nodup : counted.Nodup
  signed : ∀ key ∈ counted,
    key ∈ g.keys ∧ ∃ signature, StrictVerifier.verifyStrict key message signature = true

theorem Counted.checkFrom {g : FrameGateways} {message : Bytes}
    (attestations : List FrameAttestation) {verdict : AttestVerdict} {counted : List Bytes}
    (h : Counted g message counted) (hvalid : verdict.valid = counted.length) :
    Counted g message (g.checkFrom message attestations verdict counted).2 ∧
      (g.checkFrom message attestations verdict counted).1.valid =
        (g.checkFrom message attestations verdict counted).2.length := by
  induction attestations generalizing verdict counted with
  | nil => exact ⟨h, hvalid⟩
  | cons attestation attestations ih =>
    rw [FrameGateways.checkFrom]
    by_cases hdone : verdict.valid ≥ g.min
    · rw [if_pos hdone]
      exact ⟨h, hvalid⟩
    rw [if_neg hdone]
    by_cases hkey : attestation.gateway ∉ g.keys
    · rw [if_pos hkey]
      exact ih h hvalid
    rw [if_neg hkey]
    by_cases hcounted : attestation.gateway ∈ counted
    · rw [if_pos hcounted]
      exact ih h hvalid
    rw [if_neg hcounted]
    by_cases hverify :
        StrictVerifier.verifyStrict attestation.gateway message attestation.signature = true
    · rw [if_pos hverify]
      apply ih
      · constructor
        · exact h.nodup.append (nodup_singleton _) (disjoint_singleton.mpr hcounted)
        · exact forall_mem_append.mpr ⟨h.signed,
            forall_mem_singleton.mpr ⟨not_not.mp hkey, attestation.signature, hverify⟩⟩
      · simp [hvalid]
    · rw [if_neg hverify]
      exact ih h hvalid

theorem exists_signature_of_attested [Keccak] {g : FrameGateways} {root : B256}
    (h : (g.check chainId root attestations).attested = true) {faulty : Finset Bytes}
    (hfaulty : faulty.card < g.min) :
    ∃ key ∈ g.keys, key ∉ faulty ∧ ∃ signature, StrictVerifier.verifyStrict key
      (B256.toBytes (frameAttestMessage chainId root)) signature = true := by
  have hempty : Counted g (B256.toBytes (frameAttestMessage chainId root)) [] :=
    ⟨nodup_nil, by simp⟩
  obtain ⟨hcounted, hvalid⟩ := hempty.checkFrom attestations (by rfl : (⟨0, 0, 0, false⟩ :
    AttestVerdict).valid = _)
  have hmin : g.min ≤ (g.checkFrom (B256.toBytes (frameAttestMessage chainId root)) attestations
      ⟨0, 0, 0, false⟩ []).1.valid := of_decide_eq_true h
  rw [hvalid, ← toFinset_card_of_nodup hcounted.nodup] at hmin
  obtain ⟨key, hkey, hhonest⟩ :=
    Finset.exists_mem_notMem_of_card_lt_card (hfaulty.trans_le hmin)
  obtain ⟨hmem, hsigned⟩ := hcounted.signed key (mem_toFinset.mp hkey)
  exact ⟨key, hmem, hhonest, hsigned⟩

end Counting

section Inversion

variable [Ed25519] [Keccak] [StrictVerifier]

omit [StrictVerifier] in
theorem decodeFrom_eq_ok {index : ℕ} {encoded : List Bytes} {unique : List B256}
    {decoded : List AltSigTx} (h : decodeFrom chainId index encoded unique = .ok decoded) :
    List.Forall₂ (fun bytes t => decode2718Exact bytes = .ok t) encoded decoded ∧
      (∀ t ∈ decoded, t.tx.chainId = chainId) ∧
      (decoded.map (·.hash)).Nodup ∧ ∀ t ∈ decoded, t.hash ∉ unique := by
  induction encoded generalizing index unique decoded with
  | nil =>
    obtain rfl := Except.ok.inj h
    simp
  | cons bytes encoded ih =>
    simp only [decodeFrom, bind_eq_ok, guard_bind_eq_ok, mapError_eq_ok, pure_eq_ok, not_not] at h
    obtain ⟨t, hdecode, hchain, -, -, -, -, hunique, rest, hrest, rfl⟩ := h
    obtain ⟨hdecoded, hchains, hnodup, hnew⟩ := ih hrest
    refine ⟨List.Forall₂.cons hdecode hdecoded, ?_, ?_, ?_⟩
    · rintro t' ht'
      rcases mem_cons.mp ht' with rfl | ht'
      · exact hchain
      · exact hchains t' ht'
    · rw [map_cons, nodup_cons]
      refine ⟨?_, hnodup⟩
      intro hmem
      obtain ⟨t', ht', hhash⟩ := mem_map.mp hmem
      exact hnew t' ht' (by rw [hhash]; exact mem_cons_self)
    · exact forall_mem_cons.mpr
        ⟨hunique, fun t' ht' hmem => hnew t' ht' (mem_cons_of_mem _ hmem)⟩

omit [Ed25519] [Keccak] [StrictVerifier] in
theorem sendersFrom_eq_ok {index : ℕ} {verdicts : List (Except AltSigError Address)}
    {senders : List Address} :
    sendersFrom index verdicts = .ok senders ↔ verdicts = senders.map .ok := by
  induction verdicts generalizing index senders with
  | nil =>
    constructor
    · intro h
      rw [← Except.ok.inj h]
      rfl
    · intro h
      rw [map_eq_nil_iff.mp h.symm]
      rfl
  | cons verdict verdicts ih =>
    simp only [sendersFrom, bind_eq_ok, mapError_eq_ok, pure_eq_ok, ih]
    constructor
    · rintro ⟨sender, rfl, rest, rfl, rfl⟩
      rfl
    · intro h
      cases senders with
      | nil => cases h
      | cons sender senders =>
        obtain ⟨hverdict, hverdicts⟩ := List.cons.inj h
        exact ⟨sender, hverdict, senders, hverdicts, rfl⟩

theorem authenticate_eq_ok {merge : Bool} {encoded : List Bytes} {gateways : Option FrameGateways}
    {limits : FrameLimits} {frame : AdmittedFrame} :
    authenticate merge chainId encoded attestations gateways limits = .ok frame ↔
      encoded ≠ [] ∧ encoded.length ≤ limits.maxTransactions ∧
      attestations.length ≤ MAX_FRAME_ATTESTATIONS ∧
      gateways.any FrameGateways.unreachable = false ∧
      ∃ encodedBytes, totalBytes encoded limits.maxEncodedBytes = some encodedBytes ∧
      ∃ decoded, decodeFrom chainId 0 encoded [] = .ok decoded ∧
      ∃ attested, attested = gateways.any (fun g =>
        (g.check chainId (frameRoot (decoded.map (·.hash))) attestations).attested) ∧
      ∃ senders, authenticatedSenders merge attested decoded = .ok senders ∧
      frame = ⟨frameRoot (decoded.map (·.hash)), chainId, encodedBytes,
        List.zipWith AdmittedTransaction.mk decoded senders,
        if attested then .trustedGateways else .transactionSignatures⟩ := by
  unfold authenticate
  simp only [guard_bind_eq_ok, not_or, not_lt, Bool.not_eq_true]
  cases totalBytes encoded limits.maxEncodedBytes with
  | none => simp [throw]
  | some encodedBytes =>
    simp only [bind_eq_ok, pure_eq_ok]
    constructor
    · rintro ⟨⟨hne, hcount⟩, hattestations, hgateways, decoded, hdecoded, senders, hsenders, rfl⟩
      exact ⟨hne, hcount, hattestations, hgateways, encodedBytes, rfl, decoded, hdecoded, _, rfl,
        senders, hsenders, rfl⟩
    · rintro ⟨hne, hcount, hattestations, hgateways, _, hbytes, decoded, hdecoded, _, rfl,
        senders, hsenders, rfl⟩
      obtain rfl := Option.some.inj hbytes
      exact ⟨⟨hne, hcount⟩, hattestations, hgateways, decoded, hdecoded, senders, hsenders, rfl⟩

end Inversion

end N42.Tx
