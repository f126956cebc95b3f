import N42.H2.WireLaws
import N42.Protocol.Signing

/-!
The chain-bound envelope of H2-v4 (`n42-network/src/h2_v4.rs`) around a wire message, and what the
two decoders accept.
-/

namespace N42.H2

open Lib Frame List

attribute [local simp] map_eq_ok

def PREFIX : Bytes := [0x4e, 0x34, 0x32, 0x48, 0x32, 0x56, 0x34]

def MAX_WIRE_SIZE : ℕ := 8192

def HEADER_SIZE : ℕ := 7 + 8 + 32 + 32 + 4

structure H2V4Envelope where
  identity : H2V4ChainIdentity
  changesHash : B256
  message : H2Message
deriving DecidableEq

inductive H2V4Error where
  | truncated
  | invalidMagic
  | chainIdentityMismatch
  | invalidLength
  | nonCanonicalPayload
  | wire (error : H2WireError)
deriving DecidableEq

def encodeEnvelope (envelope : H2V4Envelope) : Except H2V4Error Bytes := do
  let wire ← (encodeMessage envelope.message).mapError .wire
  if wire.length > MAX_WIRE_SIZE then throw .invalidLength
  else return PREFIX ++ (leBytes 8 envelope.identity.chainId ++
    (B256.toBytes envelope.identity.genesisHash ++ (B256.toBytes envelope.changesHash ++
      (leBytes 4 wire.length ++ wire))))

def slice (data : Bytes) (offset n : ℕ) : Bytes := (data.drop offset).take n

def decodeEnvelope [BlsCodec] (data : Bytes) (expected : H2V4ChainIdentity) :
    Except H2V4Error H2V4Envelope := do
  if data.length < HEADER_SIZE then throw .truncated
  if slice data 0 7 ≠ PREFIX then throw .invalidMagic
  let identity : H2V4ChainIdentity :=
    ⟨leNat (slice data 7 8), BitVec.ofNat 256 (beNat (slice data 15 32))⟩
  if identity ≠ expected then throw .chainIdentityMismatch
  let changesHash : B256 := BitVec.ofNat 256 (beNat (slice data 47 32))
  let wireLen := leNat (slice data 79 4)
  if wireLen > MAX_WIRE_SIZE ∨ wireLen ≠ data.length - HEADER_SIZE then throw .invalidLength
  let wire := data.drop HEADER_SIZE
  let message ← (decodeMessage wire).mapError .wire
  let canonical ← (encodeMessage message).mapError .wire
  if canonical ≠ wire then throw .nonCanonicalPayload
  else return ⟨identity, changesHash, message⟩

/-- The signatures of a message are read back from their bytes. -/
def H2Message.Genuine [BlsCodec] : H2Message → Prop
  | .proposal value => H2.Genuine value.signature
  | .vote value => H2.Genuine value.signature
  | .commitVote value => H2.Genuine value.signature
  | .timeout value => H2.Genuine value.signature
  | .newView value => H2.Genuine value.signature
  | .prepareQc _ => True
  | .decide _ => True

/-- A vote or a timeout without a timeout certificate. -/
def H2Message.HasNoTc : H2Message → Prop
  | .vote value => value.highTc = none
  | .commitVote value => value.highTc = none
  | .timeout value => value.highTc = none
  | .proposal _ => False
  | .prepareQc _ => False
  | .newView _ => False
  | .decide _ => False

theorem ofByte_eq_ok {byte : UInt8} {kind : H2MessageKind} :
    H2MessageKind.ofByte byte = .ok kind ↔ byte = kind.toByte := by
  constructor
  · intro h
    unfold H2MessageKind.ofByte at h
    split_ifs at h with h1 h2 h3 h4 h5 h6 h7 <;> cases h <;> assumption
  · rintro rfl
    cases kind <;> rfl

section Messages

variable [BlsCodec] {data payload : Bytes} {m : H2Message}

theorem kind_of_decodePayload {kind : H2MessageKind} (h : decodePayload kind payload = .ok m) :
    m.kind = kind := by
  cases kind <;> simp only [decodePayload, map_eq_ok] at h <;> obtain ⟨value, -, rfl⟩ := h <;> rfl

attribute [simp] H2Message.kind decodePayload encodePayload H2Message.Genuine H2Message.HasNoTc

theorem decodePayload_eq_ok (hbls : BytesRoundTrip) :
    decodePayload m.kind payload = .ok m ↔ m.Genuine ∧ (encodePayload m = .ok payload ∨
      m.HasNoTc ∧ encodePayload m = .ok (payload ++ frame [])) := by
  cases m with
  | proposal value => simp [decodeProposal_eq_ok hbls]
  | vote value => simp [decodeVotePayload_eq_ok hbls]
  | commitVote value => simp [decodeVotePayload_eq_ok hbls]
  | prepareQc value => simp [decodePrepareQc_eq_ok]
  | timeout value => simp [decodeTimeout_eq_ok hbls]
  | newView value => simp [decodeNewView_eq_ok hbls]
  | decide value => simp [decodeDecide_eq_ok]

omit [BlsCodec] in
theorem encodeMessage_eq_ok :
    encodeMessage m = .ok data ↔ ∃ payload, encodePayload m = .ok payload ∧
      payload.length ≤ MAX_ENVELOPE_PAYLOAD ∧ data = m.kind.toByte :: frame payload := by
  have hput : ∀ payload : Bytes, encodeWireEnvelope m.kind payload = .ok data ↔
      payload.length ≤ MAX_ENVELOPE_PAYLOAD ∧ data = m.kind.toByte :: frame payload := by
    intro payload
    unfold encodeWireEnvelope
    split
    case isTrue hlarge =>
      simp only [reduceCtorEq, false_iff, not_and]
      intro hle
      omega
    case isFalse hfits =>
      have hlt : payload.length < 2 ^ 32 := by
        unfold MAX_ENVELOPE_PAYLOAD at hfits
        omega
      rw [map_eq_ok, putBytes, if_neg (by omega)]
      constructor
      · rintro ⟨_, hframe, rfl⟩
        rw [← Except.ok.inj hframe]
        exact ⟨by omega, rfl⟩
      · rintro ⟨-, rfl⟩
        exact ⟨_, rfl, rfl⟩
  simp only [encodeMessage, bind_eq_ok, hput]

theorem decodeMessage_eq_ok :
    decodeMessage data = .ok m ↔ ∃ payload, decodePayload m.kind payload = .ok m ∧
      payload.length ≤ MAX_ENVELOPE_PAYLOAD ∧ data = m.kind.toByte :: frame payload := by
  cases data with
  | nil => simp [decodeMessage, decodeWireEnvelope, bind, Except.bind]
  | cons byte rest =>
    simp only [decodeMessage, decodeWireEnvelope, bind_eq_ok, pure_eq_ok, Prod.exists,
      finish_eq_ok, ofByte_eq_ok, readBytes_eq_ok]
    constructor
    · rintro ⟨_, ⟨payload, _, ⟨hlength, rfl⟩, _, rfl, kind, rfl, rfl⟩, hdecode⟩
      have hkind := kind_of_decodePayload hdecode
      refine ⟨payload, ?_, hlength, ?_⟩
      · rw [hkind]
        exact hdecode
      · rw [hkind, append_nil]
    · rintro ⟨payload, hdecode, hlength, hdata⟩
      obtain ⟨rfl, rfl⟩ := List.cons.inj hdata
      exact ⟨_, ⟨payload, [], ⟨hlength, (append_nil _).symm⟩, (), rfl, _, rfl, rfl⟩, hdecode⟩

theorem length_of_hasNoTc (hgenuine : m.Genuine) (htc : m.HasNoTc)
    (h : encodePayload m = .ok payload) : payload.length ≤ MAX_ENVELOPE_PAYLOAD := by
  have hvote : ∀ {v : H2Vote}, H2.Genuine v.signature → v.highTc = none →
      encodeVotePayload v = .ok payload → payload.length ≤ MAX_ENVELOPE_PAYLOAD := by
    intro v hsig hnone hencode
    obtain ⟨tail, htail, rfl⟩ := (encodeVotePayload_eq_ok hsig).mp hencode
    rw [hnone, trailingTc_none] at htail
    simp [htail, hsig.1, MAX_ENVELOPE_PAYLOAD]
  cases m with
  | vote value => exact hvote hgenuine htc h
  | commitVote value => exact hvote hgenuine htc h
  | timeout value =>
    obtain ⟨qcBytes, tail, -, hqc, htail, rfl⟩ := (encodeTimeout_eq_ok hgenuine).mp h
    rw [show value.highTc = none from htc, trailingTc_none] at htail
    unfold MAX_QC at hqc
    simp only [htail, length_append, leBytes_length, length_frame, length_nil,
      show value.signature.toBytes.length = 96 from hgenuine.1, MAX_ENVELOPE_PAYLOAD]
    omega
  | proposal value => exact htc.elim
  | prepareQc value => exact htc.elim
  | newView value => exact htc.elim
  | decide value => exact htc.elim

theorem decodeMessage_encodeMessage (hbls : BytesRoundTrip) (hgenuine : m.Genuine)
    (h : encodeMessage m = .ok data) : decodeMessage data = .ok m := by
  obtain ⟨payload, hencode, hlength, rfl⟩ := encodeMessage_eq_ok.mp h
  apply decodeMessage_eq_ok.mpr
  exact ⟨payload, (decodePayload_eq_ok hbls).mpr ⟨hgenuine, Or.inl hencode⟩, hlength, rfl⟩

theorem encodeMessage_decodeMessage (hbls : BytesRoundTrip) (h : decodeMessage data = .ok m) :
    encodeMessage m = .ok data ∨ ∃ payload, m.HasNoTc ∧
      data = m.kind.toByte :: frame payload ∧
      encodeMessage m = .ok (m.kind.toByte :: frame (payload ++ frame [])) := by
  obtain ⟨payload, hdecode, hlength, rfl⟩ := decodeMessage_eq_ok.mp h
  obtain ⟨hgenuine, hencode⟩ := (decodePayload_eq_ok hbls).mp hdecode
  rcases hencode with hencode | ⟨htc, hencode⟩
  · exact Or.inl (encodeMessage_eq_ok.mpr ⟨payload, hencode, hlength, rfl⟩)
  · refine Or.inr ⟨payload, htc, rfl, encodeMessage_eq_ok.mpr ?_⟩
    exact ⟨_, hencode, length_of_hasNoTc hgenuine htc hencode, rfl⟩

end Messages

variable (identity : H2V4ChainIdentity) (changesHash : B256) (wire : Bytes)

def header : Bytes :=
  PREFIX ++ (leBytes 8 identity.chainId ++ (B256.toBytes identity.genesisHash ++
    (B256.toBytes changesHash ++ (leBytes 4 wire.length ++ wire))))

variable {data : Bytes}

theorem encodeEnvelope_eq_ok {envelope : H2V4Envelope} :
    encodeEnvelope envelope = .ok data ↔ ∃ wire, encodeMessage envelope.message = .ok wire ∧
      wire.length ≤ MAX_WIRE_SIZE ∧ data = header envelope.identity envelope.changesHash wire := by
  simp only [encodeEnvelope, bind_eq_ok, guard_eq_ok, pure_eq_ok, mapError_eq_ok, not_lt]
  constructor
  · rintro ⟨wire, hwire, hlength, rfl⟩
    exact ⟨wire, hwire, hlength, rfl⟩
  · rintro ⟨wire, hwire, hlength, rfl⟩
    exact ⟨wire, hwire, hlength, rfl⟩

theorem slice_append {a b : Bytes} {n : ℕ} (ha : a.length = n) : slice (a ++ b) 0 n = a := by
  rw [slice, drop_zero, ← ha, take_left]

theorem slice_append_of_le {a b : Bytes} {offset k n : ℕ} (ha : a.length = k)
    (hle : k ≤ offset) : slice (a ++ b) offset n = slice b (offset - k) n := by
  rw [slice, slice, drop_append, drop_eq_nil_of_le (by omega), nil_append, ha]

theorem slice_header : slice (header identity changesHash wire) 0 7 = PREFIX ∧
    slice (header identity changesHash wire) 7 8 = leBytes 8 identity.chainId ∧
    slice (header identity changesHash wire) 15 32 = B256.toBytes identity.genesisHash ∧
    slice (header identity changesHash wire) 47 32 = B256.toBytes changesHash ∧
    slice (header identity changesHash wire) 79 4 = leBytes 4 wire.length ∧
    (header identity changesHash wire).drop HEADER_SIZE = wire := by
  have hmagic : PREFIX.length = 7 := rfl
  have hskip : ∀ offset n, 15 ≤ offset → slice (header identity changesHash wire) offset n =
      slice (B256.toBytes identity.genesisHash ++ (B256.toBytes changesHash ++
        (leBytes 4 wire.length ++ wire))) (offset - 7 - 8) n := by
    intro offset n hle
    rw [header, slice_append_of_le hmagic (by omega),
      slice_append_of_le (leBytes_length _ _) (by omega)]
  refine ⟨slice_append hmagic, ?_, ?_, ?_, ?_, ?_⟩
  · rw [header, slice_append_of_le hmagic (by norm_num)]
    exact slice_append (leBytes_length _ _)
  · rw [hskip 15 32 (by norm_num)]
    exact slice_append (B256.toBytes_length _)
  · rw [hskip 47 32 (by norm_num), slice_append_of_le (B256.toBytes_length _) (by norm_num)]
    exact slice_append (B256.toBytes_length _)
  · exact slice_append (leBytes_length _ _)
  · have hlength : (PREFIX ++ (leBytes 8 identity.chainId ++
        (B256.toBytes identity.genesisHash ++ (B256.toBytes changesHash ++
          leBytes 4 wire.length)))).length = HEADER_SIZE := by
      simp [hmagic, HEADER_SIZE]
    rw [← hlength]
    simp only [header, ← append_assoc, drop_left]

theorem length_slice {offset n : ℕ} (h : offset + n ≤ data.length) :
    (slice data offset n).length = n := by
  rw [slice, length_take, length_drop]
  omega

theorem leBytes_slice {offset n : ℕ} (h : offset + n ≤ data.length) :
    leBytes n (leNat (slice data offset n)) = slice data offset n := by
  rw [leBytes_leNat (length_slice h).le, length_slice h]
  simp

theorem header_slices (h : HEADER_SIZE ≤ data.length) (hmagic : slice data 0 7 = PREFIX)
    (hlength : leNat (slice data 79 4) = data.length - HEADER_SIZE) :
    header ⟨leNat (slice data 7 8), BitVec.ofNat 256 (beNat (slice data 15 32))⟩
      (BitVec.ofNat 256 (beNat (slice data 47 32))) (data.drop HEADER_SIZE) = data := by
  have hsize : HEADER_SIZE = 83 := rfl
  rw [hsize] at h hlength ⊢
  have hsplit : ∀ offset n, slice data offset n ++ data.drop (offset + n) = data.drop offset := by
    intro offset n
    rw [slice, ← drop_drop, take_append_drop]
  rw [header, length_drop, ← hlength, leBytes_slice (by omega), leBytes_slice (by omega),
    toBytes_ofNat_beNat (length_slice (by omega)), toBytes_ofNat_beNat (length_slice (by omega)),
    ← hmagic, hsplit 79 4, hsplit 47 32, hsplit 15 32, hsplit 7 8, hsplit 0 7, drop_zero]

section Envelopes

variable [BlsCodec] {data : Bytes} {expected : H2V4ChainIdentity} {envelope : H2V4Envelope}

theorem encodeEnvelope_decodeEnvelope (h : decodeEnvelope data expected = .ok envelope) :
    envelope.identity = expected ∧ encodeEnvelope envelope = .ok data := by
  simp only [decodeEnvelope, bind_eq_ok, guard_bind_eq_ok, guard_eq_ok, pure_eq_ok,
    mapError_eq_ok, not_or, not_not, not_lt] at h
  obtain ⟨hsize, hmagic, hidentity, ⟨hmax, hlength⟩, message, -, canonical, hencode, rfl, rfl⟩ := h
  refine ⟨hidentity, encodeEnvelope_eq_ok.mpr ⟨_, hencode, ?_, ?_⟩⟩
  · rw [length_drop, ← hlength]
    exact hmax
  · exact (header_slices hsize hmagic hlength).symm

theorem decodeEnvelope_encodeEnvelope (hbls : BytesRoundTrip)
    (hchain : envelope.identity.chainId < 2 ^ 64) (hgenuine : envelope.message.Genuine)
    (h : encodeEnvelope envelope = .ok data) :
    decodeEnvelope data envelope.identity = .ok envelope := by
  obtain ⟨wire, hencode, hmax, rfl⟩ := encodeEnvelope_eq_ok.mp h
  have hdecode := decodeMessage_encodeMessage hbls hgenuine hencode
  obtain ⟨hmagic, hchainId, hgenesis, hchanges, hlength, hwire⟩ :=
    slice_header envelope.identity envelope.changesHash wire
  have hsize : (header envelope.identity envelope.changesHash wire).length =
      HEADER_SIZE + wire.length := by
    simp [header, PREFIX, HEADER_SIZE]
    omega
  have hchainRead : leNat (leBytes 8 envelope.identity.chainId) = envelope.identity.chainId := by
    rw [leNat_leBytes]
    exact Nat.mod_eq_of_lt (hchain.trans_eq (by norm_num))
  have hlengthRead : leNat (leBytes 4 wire.length) = wire.length := by
    unfold MAX_WIRE_SIZE at hmax
    rw [leNat_leBytes]
    exact Nat.mod_eq_of_lt (by omega)
  simp only [decodeEnvelope, bind_eq_ok, guard_bind_eq_ok, guard_eq_ok, mapError_eq_ok, not_or, not_not, not_lt, hmagic, hchainId, hgenesis, hchanges, hlength,
    ofNat_beNat_toBytes, hchainRead, hlengthRead, hsize]
  exact ⟨Nat.le_add_right _ _, trivial, trivial, ⟨hmax, by omega⟩, envelope.message, hdecode, wire,
    hencode, rfl, rfl⟩

end Envelopes

end N42.H2
