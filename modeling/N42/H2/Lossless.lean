import N42.H2.Bridge
import N42.Twig.Hashing

/-!
The bridge and the wire codec lose nothing of a message, up to three normal forms: the genesis
certificate, an absent transaction root, and an empty list of validator changes.
-/

namespace N42.H2

open Lib Frame List

variable {signers : List Bool}

theorem mem_setIndices {i : ℕ} : i ∈ setIndices signers ↔ signers[i]? = some true := by
  simp only [setIndices, mem_map, mem_filter, Prod.exists]
  constructor
  · rintro ⟨bit, j, ⟨hmem, hbit⟩, rfl⟩
    rw [mem_zipIdx_iff_getElem?] at hmem
    rw [hmem, show bit = true from hbit]
  · intro h
    exact ⟨true, i, ⟨mem_zipIdx_iff_getElem?.mpr h, rfl⟩, rfl⟩

theorem length_foldl_setBit (numbers : List ℕ) (bytes : List (BitVec 8)) :
    (numbers.foldl Bitfield.setBit bytes).length = bytes.length := by
  induction numbers generalizing bytes with
  | nil => rfl
  | cons i numbers ih => rw [foldl_cons, ih, Bitfield.length_setBit]

theorem length_packBits (signers : List Bool) :
    (packBits signers).length = (signers.length + 7) / 8 := by
  rw [packBits, length_map, length_foldl_setBit, length_replicate]

theorem bitAt_packBits {i : ℕ} (hi : i / 8 < (signers.length + 7) / 8) :
    bitAt (packBits signers) i = true ↔ signers[i]? = some true := by
  have hfield : ∀ j ∈ setIndices signers,
      j / 8 < (List.replicate ((signers.length + 7) / 8) (0 : BitVec 8)).length := by
    intro j hj
    have hlt : j < signers.length := by
      by_contra hge
      rw [mem_setIndices, getElem?_eq_none (by omega)] at hj
      cases hj
    rw [length_replicate]
    omega
  have hmember := @Bitfield.member_foldl_setBit _ _ i hfield
  have hzero : ¬ Bitfield.Member (List.replicate ((signers.length + 7) / 8) 0) i := by
    simp [Bitfield.Member, getElem?_replicate]
  rw [or_iff_left hzero, mem_setIndices] at hmember
  rw [← hmember, bitAt, Bitfield.hasBit_eq_getLsbD (Nat.mod_lt _ (by decide)), packBits]
  have hlength : i / 8 < ((setIndices signers).foldl Bitfield.setBit
      (List.replicate ((signers.length + 7) / 8) 0)).length := by
    rw [length_foldl_setBit, length_replicate]
    exact hi
  generalize (setIndices signers).foldl Bitfield.setBit _ = field at hlength ⊢
  have hbyte := getElem?_eq_getElem hlength
  simp [Bitfield.Member, hbyte]

theorem unusedBits_of_getLsbD :
    ∀ used < 8, ∀ byte : BitVec 8, (∀ bit < 8, used ≤ bit → byte.getLsbD bit = false) →
      UInt8.ofBitVec byte &&& ~~~((1 <<< UInt8.ofNat used) - 1) = 0 := by
  decide +kernel

theorem hasUnusedBits_packBits (signers : List Bool) :
    hasUnusedBits signers.length ((packBits signers).getD ((signers.length + 7) / 8 - 1) 0) =
      false := by
  by_cases hfull : signers.length % 8 = 0
  · simp [hasUnusedBits, hfull]
  have hbits : ∀ bit < 8, signers.length % 8 ≤ bit →
      ((packBits signers).getD ((signers.length + 7) / 8 - 1) 0).toBitVec.getLsbD bit = false := by
    intro bit hbit hunused
    have hindex : (8 * (signers.length / 8) + bit) / 8 = (signers.length + 7) / 8 - 1 := by omega
    have hmod : (8 * (signers.length / 8) + bit) % 8 = bit := by omega
    have hclear := @bitAt_packBits signers (8 * (signers.length / 8) + bit) (by omega)
    rw [getElem?_eq_none (by omega)] at hclear
    rw [bitAt, hindex, hmod, Bitfield.hasBit_eq_getLsbD hbit] at hclear
    simpa using hclear
  have hmask := unusedBits_of_getLsbD _ (Nat.mod_lt _ (by decide)) _ hbits
  simp only [hasUnusedBits, decide_eq_false_iff_not, not_and, not_not]
  intro _
  exact hmask

theorem map_bitAt_packBits (signers : List Bool) :
    (List.range signers.length).map (bitAt (packBits signers)) = signers := by
  apply ext_getElem
  · simp
  · intro i hi hsigners
    rw [getElem_map, getElem_range]
    have hbit := @bitAt_packBits signers i (by omega)
    rw [getElem?_eq_getElem hsigners, Option.some.injEq] at hbit
    exact Bool.eq_iff_iff.mpr hbit

theorem h2BitmapToNative_nativeBitmapToH2 {encoded : Bytes}
    (h : nativeBitmapToH2 signers = .ok encoded) : h2BitmapToNative encoded = .ok signers := by
  unfold nativeBitmapToH2 at h
  split_ifs at h with hlarge hzero
  · obtain rfl := Except.ok.inj h
    rw [length_eq_zero_iff.mp hzero]
    rfl
  · obtain rfl := Except.ok.inj h
    have hcount : leNat (leBytes 2 signers.length) = signers.length := by
      rw [leNat_leBytes]
      exact Nat.mod_eq_of_lt (by omega)
    have hlast : (packBits signers).getLastD 0 =
        (packBits signers).getD ((signers.length + 7) / 8 - 1) 0 := by
      rw [← length_packBits, getLastD_eq_getLast?, getLast?_eq_getElem?,
        getD_eq_getElem?_getD]
    simp only [leBytes, cons_append, nil_append] at hcount ⊢
    simp only [h2BitmapToNative, hcount, hlast, hasUnusedBits_packBits, length_packBits,
      map_bitAt_packBits, hzero]
    simp

section Lossless

variable [Crypto] [BlsCodec]

omit [Crypto] in
theorem aggregateFromBytes_toBytes {signature : BlsSignature} (h : Genuine signature) :
    aggregateFromBytes signature.toBytes = .ok signature := by
  simp [aggregateFromBytes, h.1, h.2]

/-- A certificate as it comes back: the genesis certificate for what the bridge takes for it. -/
def QuorumCertificate.normal (qc : QuorumCertificate) : QuorumCertificate :=
  if isGenesisSentinel qc then .genesis else qc

/-- A certificate of machine integers and signatures of the library. -/
def RepresentableQc (qc : QuorumCertificate) : Prop :=
  qc.view < 2 ^ 64 ∧ Genuine qc.aggregateSignature

def RepresentableTc (tc : TimeoutCertificate) : Prop :=
  tc.view < 2 ^ 64 ∧ Genuine tc.aggregateSignature ∧ RepresentableQc tc.highQc

omit [Crypto] [BlsCodec] in
theorem toNat_ofNat {w x : ℕ} (h : x < 2 ^ w) : (BitVec.ofNat w x).toNat = x := by
  rw [BitVec.toNat_ofNat, Nat.mod_eq_of_lt h]

theorem qcFromH2_qcToH2 {qc : QuorumCertificate} {h2 : H2QuorumCertificate}
    (hqc : RepresentableQc qc) (h : qcToH2 qc = .ok h2) :
    qcFromH2 h2 = .ok (QuorumCertificate.normal qc) := by
  obtain ⟨hview, hgenuine⟩ := hqc
  unfold qcToH2 at h
  unfold QuorumCertificate.normal
  split at h
  case isTrue hsentinel =>
    obtain rfl := Except.ok.inj h
    rw [if_pos hsentinel]
    rfl
  case isFalse hother =>
    simp only [bind_eq_ok, pure_eq_ok] at h
    obtain ⟨bitmap, hbitmap, rfl⟩ := h
    have hsigned : qc.aggregateSignature.toBytes ≠ [] := by
      intro hnil
      have hlength := hgenuine.1
      rw [hnil] at hlength
      cases hlength
    rw [qcFromH2, if_neg (fun hempty => hsigned hempty.2.2.1), if_neg hother,
      aggregateFromBytes_toBytes hgenuine, h2BitmapToNative_nativeBitmapToH2 hbitmap,
      toNat_ofNat hview]
    rfl

theorem tcFromH2_tcToH2 {tc : TimeoutCertificate} {h2 : H2TimeoutCertificate}
    (htc : RepresentableTc tc) (h : tcToH2 tc = .ok h2) :
    tcFromH2 h2 = .ok { tc with highQc := QuorumCertificate.normal tc.highQc } := by
  obtain ⟨hview, hgenuine, hqc⟩ := htc
  simp only [tcToH2, bind_eq_ok, pure_eq_ok] at h
  obtain ⟨bitmap, hbitmap, highQc, hhighQc, rfl⟩ := h
  rw [tcFromH2, aggregateFromBytes_toBytes hgenuine, h2BitmapToNative_nativeBitmapToH2 hbitmap,
    qcFromH2_qcToH2 hqc hhighQc, toNat_ofNat hview]
  rfl

theorem mapOption_qcFromH2 {qc : Option QuorumCertificate} {h2 : Option H2QuorumCertificate}
    (hqc : ∀ c ∈ qc, RepresentableQc c) (h : mapOption qcToH2 qc = .ok h2) :
    mapOption qcFromH2 h2 = .ok (qc.map QuorumCertificate.normal) := by
  cases qc with
  | none =>
    obtain rfl := Except.ok.inj h
    rfl
  | some c =>
    obtain ⟨c2, hc, rfl⟩ := map_eq_ok.mp h
    rw [mapOption, qcFromH2_qcToH2 (hqc c rfl) hc]
    rfl

def ConsensusMessage.normal : ConsensusMessage → ConsensusMessage
  | .proposal value => .proposal { value with
      justifyQc := QuorumCertificate.normal value.justifyQc
      prepareQc := value.prepareQc.map QuorumCertificate.normal
      txRootHash := some (value.txRootHash.getD 0)
      validatorChanges := value.validatorChanges.filter (! ·.isEmpty) }
  | .vote value => .vote value
  | .commitVote value => .commitVote value
  | .prepareQc value => .prepareQc { value with qc := QuorumCertificate.normal value.qc }
  | .timeout value => .timeout { value with highQc := QuorumCertificate.normal value.highQc }
  | .newView value => .newView { value with
      timeoutCert := { value.timeoutCert with
        highQc := QuorumCertificate.normal value.timeoutCert.highQc } }
  | .decide value => .decide { value with commitQc := QuorumCertificate.normal value.commitQc }

/-- A message of machine integers and signatures of the library. -/
def Representable : ConsensusMessage → Prop
  | .proposal value => value.view < 2 ^ 64 ∧ value.proposer < 2 ^ 32 ∧ Genuine value.signature ∧
      RepresentableQc value.justifyQc ∧ ∀ qc ∈ value.prepareQc, RepresentableQc qc
  | .vote value => value.view < 2 ^ 64 ∧ value.voter < 2 ^ 32 ∧ Genuine value.signature
  | .commitVote value => value.view < 2 ^ 64 ∧ value.voter < 2 ^ 32 ∧ Genuine value.signature
  | .prepareQc value => value.view < 2 ^ 64 ∧ RepresentableQc value.qc
  | .timeout value => value.view < 2 ^ 64 ∧ value.sender < 2 ^ 32 ∧ Genuine value.signature ∧
      RepresentableQc value.highQc
  | .newView value => value.view < 2 ^ 64 ∧ value.leader < 2 ^ 32 ∧ Genuine value.signature ∧
      RepresentableTc value.timeoutCert
  | .decide value => value.view < 2 ^ 64 ∧ RepresentableQc value.commitQc

theorem messageFromH2_messageToH2 {m : ConsensusMessage} {h2 : H2Message} (hm : Representable m)
    (h : messageToH2 m = .ok h2) :
    h2.Genuine ∧ messageFromH2 h2 = .ok (ConsensusMessage.normal m) := by
  cases m with
  | proposal value =>
    obtain ⟨hview, hproposer, hgenuine, hjustify, hprepare⟩ := hm
    simp only [messageToH2, guard_bind_eq_ok, bind_eq_ok, pure_eq_ok] at h
    obtain ⟨hchanges, justifyQc, hjustifyQc, prepareQc, hprepareQc, rfl⟩ := h
    have hnone : value.validatorChanges.filter (! ·.isEmpty) = none := by
      cases hvalue : value.validatorChanges <;> simp_all
    refine ⟨hgenuine, ?_⟩
    simp only [messageFromH2, qcFromH2_qcToH2 hjustify hjustifyQc,
      mapOption_qcFromH2 hprepare hprepareQc, toNat_ofNat hview, toNat_ofNat hproposer,
      ConsensusMessage.normal, hnone]
    rfl
  | vote value =>
    obtain ⟨hview, hvoter, hgenuine⟩ := hm
    obtain rfl := Except.ok.inj h
    exact ⟨hgenuine, by simp only [messageFromH2, toNat_ofNat hview, toNat_ofNat hvoter,
      ConsensusMessage.normal]⟩
  | commitVote value =>
    obtain ⟨hview, hvoter, hgenuine⟩ := hm
    obtain rfl := Except.ok.inj h
    exact ⟨hgenuine, by simp only [messageFromH2, toNat_ofNat hview, toNat_ofNat hvoter,
      ConsensusMessage.normal]⟩
  | prepareQc value =>
    obtain ⟨hview, hqc⟩ := hm
    simp only [messageToH2, bind_eq_ok, pure_eq_ok] at h
    obtain ⟨qc, hqc2, rfl⟩ := h
    refine ⟨trivial, ?_⟩
    simp only [messageFromH2, qcFromH2_qcToH2 hqc hqc2, toNat_ofNat hview]
    rfl
  | timeout value =>
    obtain ⟨hview, hsender, hgenuine, hqc⟩ := hm
    simp only [messageToH2, bind_eq_ok, pure_eq_ok] at h
    obtain ⟨qc, hqc2, rfl⟩ := h
    refine ⟨hgenuine, ?_⟩
    simp only [messageFromH2, qcFromH2_qcToH2 hqc hqc2, toNat_ofNat hview, toNat_ofNat hsender]
    rfl
  | newView value =>
    obtain ⟨hview, hleader, hgenuine, htc⟩ := hm
    simp only [messageToH2, bind_eq_ok, pure_eq_ok] at h
    obtain ⟨tc, htc2, rfl⟩ := h
    refine ⟨hgenuine, ?_⟩
    simp only [messageFromH2, tcFromH2_tcToH2 htc htc2, toNat_ofNat hview, toNat_ofNat hleader]
    rfl
  | decide value =>
    obtain ⟨hview, hqc⟩ := hm
    simp only [messageToH2, guard_bind_eq_ok, bind_eq_ok, pure_eq_ok, not_not] at h
    obtain ⟨hzero, qc, hqc2, rfl⟩ := h
    refine ⟨trivial, ?_⟩
    simp only [messageFromH2, qcFromH2_qcToH2 hqc hqc2, toNat_ofNat hview,
      ← hzero]
    rfl

/-- Messages come back in normal form, envelopes are read in one form only, and wire messages in one
form up to the last field of votes and timeouts. -/
theorem h2_v4_lossless (hbls : BytesRoundTrip) :
    (∀ (identity : H2V4ChainIdentity) (m : ConsensusMessage) (envelope : H2V4Envelope)
      (bytes : Bytes), identity.chainId < 2 ^ 64 → Representable m →
      consensusToH2V4 identity m = .ok envelope → encodeEnvelope envelope = .ok bytes →
      ∃ read, decodeEnvelope bytes identity = .ok read ∧
        consensusFromH2V4 read = .ok (ConsensusMessage.normal m)) ∧
    (∀ (identity : H2V4ChainIdentity) (bytes : Bytes) (envelope : H2V4Envelope),
      decodeEnvelope bytes identity = .ok envelope → encodeEnvelope envelope = .ok bytes) ∧
    ∀ (bytes : Bytes) (m : H2Message), decodeMessage bytes = .ok m →
      encodeMessage m = .ok bytes ∨ ∃ payload, m.HasNoTc ∧
        bytes = m.kind.toByte :: frame payload ∧
        encodeMessage m = .ok (m.kind.toByte :: frame (payload ++ frame [])) := by
  refine ⟨?_, ?_, ?_⟩
  · intro identity m envelope bytes hchain hm hbridge hencode
    simp only [consensusToH2V4, bind_eq_ok, pure_eq_ok] at hbridge
    obtain ⟨h2, hmessage, rfl⟩ := hbridge
    obtain ⟨hgenuine, hback⟩ := messageFromH2_messageToH2 hm hmessage
    refine ⟨_, decodeEnvelope_encodeEnvelope hbls hchain hgenuine hencode, ?_⟩
    exact hback
  · intro identity bytes envelope hdecode
    exact (encodeEnvelope_decodeEnvelope hdecode).2
  · intro bytes m hdecode
    exact encodeMessage_decodeMessage hbls hdecode

end Lossless

@[reducible] def plainCodec : BlsCodec where
  signatureFromBytes bytes := some ⟨bytes⟩

theorem plainCodec_roundTrip : @BytesRoundTrip plainCodec := by
  intro bytes signature h
  rw [← Option.some.inj h]

@[reducible] def plainCrypto : Crypto := Crypto.ofBlake3 fun _ => 0

attribute [local instance] plainCodec plainCrypto

def samplePayloadSignature : BlsSignature := ⟨List.replicate 96 7⟩

/-- A proposal over a padded genesis certificate, with nine validators in its other one, no
transaction root and an empty change list. -/
def sampleProposal : ConsensusMessage := .proposal {
  view := 5
  blockHash := 11
  justifyQc := ⟨0, 0, samplePayloadSignature, [false, false, false]⟩
  proposer := 2
  signature := samplePayloadSignature
  prepareQc := some ⟨4, 10, samplePayloadSignature,
    [true, false, true, true, true, true, false, true, true]⟩
  txRootHash := none
  validatorChanges := some [] }

def sampleIdentity : H2V4ChainIdentity := ⟨1143, 9⟩

def sampleBytes : Option Bytes := do
  let envelope ← (consensusToH2V4 sampleIdentity sampleProposal).toOption
  (encodeEnvelope envelope).toOption

theorem sampleBytes_isSome : sampleBytes.isSome = true := by decide +kernel

theorem samplePayloadSignature_genuine : Genuine samplePayloadSignature :=
  ⟨by decide, rfl⟩

theorem sampleProposal_representable : Representable sampleProposal := by
  refine ⟨by norm_num, by norm_num, samplePayloadSignature_genuine,
    ⟨by norm_num, samplePayloadSignature_genuine⟩, ?_⟩
  intro qc hqc
  obtain rfl := Option.some.inj hqc
  exact ⟨by norm_num, samplePayloadSignature_genuine⟩

theorem h2_v4_lossless_sample :
    ∃ envelope bytes read, consensusToH2V4 sampleIdentity sampleProposal = .ok envelope ∧
      encodeEnvelope envelope = .ok bytes ∧ decodeEnvelope bytes sampleIdentity = .ok read ∧
      consensusFromH2V4 read = .ok (ConsensusMessage.normal sampleProposal) ∧
      encodeEnvelope read = .ok bytes := by
  obtain ⟨bytes, hbytes⟩ := Option.isSome_iff_exists.mp sampleBytes_isSome
  simp only [sampleBytes, Option.bind_eq_bind, Option.bind_eq_some_iff, toOption_eq_some] at hbytes
  obtain ⟨envelope, hbridge, hencode⟩ := hbytes
  obtain ⟨hforth, hback, -⟩ := h2_v4_lossless plainCodec_roundTrip
  obtain ⟨read, hdecode, hread⟩ := hforth sampleIdentity sampleProposal envelope bytes
    (by norm_num [sampleIdentity]) sampleProposal_representable hbridge hencode
  exact ⟨envelope, bytes, read, hbridge, hencode, hdecode, hread, hback _ _ _ hdecode⟩

end N42.H2
