import N42.H2.Wire

/-!
Every decoder of the wire format accepts exactly what its encoder writes. Votes and timeouts are the
exception: their last field may be left out, and is written when they are encoded again.
-/

namespace N42.H2

open Lib Frame List

section Fields

variable {data rest : Bytes}

theorem readU64_eq_ok {x : BitVec 64} :
    readU64 data = .ok (x, rest) ↔ data = leBytes 8 x.toNat ++ rest :=
  word_eq_ok (by norm_num)

theorem readU32_eq_ok {x : BitVec 32} :
    readU32 data = .ok (x, rest) ↔ data = leBytes 4 x.toNat ++ rest :=
  word_eq_ok (by norm_num)

instance : Fact (MAX_SIGNATURE < 2 ^ 32) := ⟨by decide⟩

instance : Fact (MAX_BITMAP < 2 ^ 32) := ⟨by decide⟩

instance : Fact (MAX_QC < 2 ^ 32) := ⟨by decide⟩

instance : Fact (MAX_HIGH_TC < 2 ^ 32) := ⟨by decide⟩

instance : Fact (MAX_ENVELOPE_PAYLOAD < 2 ^ 32) := ⟨by decide⟩

theorem readBytes_eq_ok {max : ℕ} [hmax : Fact (max < 2 ^ 32)] {bytes : Bytes} :
    readBytes max data = .ok (bytes, rest) ↔ bytes.length ≤ max ∧ data = frame bytes ++ rest :=
  unframe_eq_ok hmax.out

theorem toBytes_ofNat_beNat {bytes : Bytes} (h : bytes.length = 32) :
    B256.toBytes (BitVec.ofNat 256 (beNat bytes)) = bytes :=
  beBytes_ofNat_beNat h

theorem ofNat_beNat_toBytes (hash : B256) :
    BitVec.ofNat 256 (beNat (B256.toBytes hash)) = hash :=
  ofNat_beNat_beBytes 32 hash

theorem readHash_eq_ok {hash : B256} :
    readHash data = .ok (hash, rest) ↔ data = frame (B256.toBytes hash) ++ rest := by
  have : Fact (32 < 2 ^ 32) := ⟨by norm_num⟩
  simp only [readHash, bind_eq_ok, guard_bind_eq_ok, pure_eq_ok, Prod.exists, Prod.mk.injEq,
    readBytes_eq_ok, not_not]
  constructor
  · rintro ⟨bytes, after, ⟨-, rfl⟩, hlength, rfl, rfl⟩
    rw [toBytes_ofNat_beNat hlength]
  · rintro rfl
    exact ⟨_, _, ⟨(B256.toBytes_length hash).le, rfl⟩, B256.toBytes_length hash,
      ofNat_beNat_toBytes hash, rfl⟩

theorem finish_eq_ok {u : Unit} : finish rest = .ok u ↔ rest = [] := by
  unfold finish
  split <;> simp_all

theorem putLimitedBytes_eq_ok {max : ℕ} [hmax : Fact (max < 2 ^ 32)] {bytes out : Bytes} :
    putLimitedBytes bytes max = .ok out ↔ bytes.length ≤ max ∧ out = frame bytes := by
  have hmax := hmax.out
  unfold putLimitedBytes putBytes
  split
  · simp
    omega
  · rw [if_neg (by omega)]
    simp only [Except.ok.injEq]
    constructor
    · rintro rfl
      exact ⟨by omega, rfl⟩
    · rintro ⟨-, rfl⟩
      rfl

theorem putHash_eq_ok {hash : B256} {out : Bytes} :
    putLimitedBytes (B256.toBytes hash) 32 = .ok out ↔ out = frame (B256.toBytes hash) := by
  have : Fact (32 < 2 ^ 32) := ⟨by norm_num⟩
  rw [putLimitedBytes_eq_ok]
  simp

/-- A value that the BLS library reads back from its 96 bytes. -/
def Genuine [BlsCodec] (signature : BlsSignature) : Prop :=
  signature.toBytes.length = 96 ∧
    BlsCodec.signatureFromBytes signature.toBytes = some signature

/-- A signature is written as the bytes that it is read from. -/
def BytesRoundTrip [BlsCodec] : Prop :=
  ∀ bytes signature, BlsCodec.signatureFromBytes bytes = some signature →
    signature.toBytes = bytes

theorem readSignature_eq_ok [BlsCodec] (hbls : BytesRoundTrip) {signature : BlsSignature} :
    readSignature data = .ok (signature, rest) ↔
      Genuine signature ∧ data = frame signature.toBytes ++ rest := by
  simp only [readSignature, bind_eq_ok, guard_bind_eq_ok, Prod.exists, not_not, readBytes_eq_ok]
  constructor
  · rintro ⟨bytes, after, ⟨-, rfl⟩, hlength, hread⟩
    cases hbytes : BlsCodec.signatureFromBytes bytes with
    | none =>
      rw [hbytes] at hread
      cases hread
    | some read =>
      rw [hbytes] at hread
      obtain ⟨rfl, rfl⟩ := Prod.mk.inj (pure_eq_ok.mp hread)
      have hwritten := hbls bytes read hbytes
      refine ⟨⟨?_, ?_⟩, ?_⟩
      · rw [hwritten, hlength]
      · rw [hwritten, hbytes]
      · rw [hwritten]
  · rintro ⟨⟨hlength, hread⟩, rfl⟩
    refine ⟨_, _, ⟨?_, rfl⟩, hlength, ?_⟩
    · rw [hlength]
      decide
    · rw [hread]
      rfl

theorem putSignature_eq_ok [BlsCodec] {signature : BlsSignature} (h : Genuine signature)
    {out : Bytes} : putSignature signature = .ok out ↔ out = frame signature.toBytes := by
  rw [putSignature, putLimitedBytes_eq_ok, h.1]
  simp [MAX_SIGNATURE]

theorem decodeOptional_eq_ok {α : Type} {decode : Bytes → Except H2WireError α}
    {encode : α → Except H2WireError Bytes} (hlaw : ∀ a, decode data = .ok a ↔ encode a = .ok data)
    (hne : ∀ a, encode a ≠ .ok []) {value : Option α} :
    decodeOptional decode data = .ok value ↔ encodeOptional encode value = .ok data := by
  unfold decodeOptional
  split
  case isTrue hnil =>
    subst hnil
    cases value with
    | none => simp [encodeOptional]
    | some a => simp [encodeOptional, hne]
  case isFalse hcons =>
    cases value with
    | none =>
      cases decode data <;> simp [encodeOptional, Except.map, Ne.symm hcons]
    | some a =>
      rw [encodeOptional, ← hlaw a]
      cases decode data <;> simp [Except.map]

end Fields

variable {data : Bytes} {tc : H2TimeoutCertificate}

theorem decodeQc_eq_ok {qc : H2QuorumCertificate} :
    decodeQc data = .ok qc ↔ encodeQc qc = .ok data := by
  simp only [encodeQc, decodeQc, bind_eq_ok, pure_eq_ok, Prod.exists, readU64_eq_ok, readHash_eq_ok,
    readBytes_eq_ok, finish_eq_ok, putHash_eq_ok, putLimitedBytes_eq_ok]
  constructor
  · rintro ⟨view, _, rfl, hash, _, rfl, signature, _, ⟨hsignature, rfl⟩, bitmap, _,
      ⟨hbitmap, rfl⟩, u, hvalid, _, rfl, rfl⟩
    exact ⟨u, hvalid, _, rfl, _, ⟨hsignature, rfl⟩, _, ⟨hbitmap, rfl⟩, by simp⟩
  · rintro ⟨u, hvalid, _, rfl, _, ⟨hsignature, rfl⟩, _, ⟨hbitmap, rfl⟩, rfl⟩
    exact ⟨_, _, rfl, _, _, rfl, _, _, ⟨hsignature, rfl⟩, _, [], ⟨hbitmap, by simp⟩, u, hvalid,
      (), rfl, rfl⟩

theorem decodeTc_eq_ok : decodeTc data = .ok tc ↔ encodeTc tc = .ok data := by
  simp only [encodeTc, decodeTc, bind_eq_ok, pure_eq_ok, Prod.exists, readU64_eq_ok,
    readBytes_eq_ok, finish_eq_ok, decodeQc_eq_ok, putLimitedBytes_eq_ok]
  constructor
  · rintro ⟨view, _, rfl, signature, _, ⟨hsignature, rfl⟩, bitmap, _, ⟨hbitmap, rfl⟩, u, hvalid,
      qcBytes, _, ⟨hlength, rfl⟩, qc, hqc, _, rfl, rfl⟩
    exact ⟨u, hvalid, qcBytes, hqc, _, ⟨hsignature, rfl⟩, _, ⟨hbitmap, rfl⟩, _, ⟨hlength, rfl⟩,
      by simp⟩
  · rintro ⟨u, hvalid, qcBytes, hqc, _, ⟨hsignature, rfl⟩, _, ⟨hbitmap, rfl⟩, _, ⟨hlength, rfl⟩,
      rfl⟩
    exact ⟨_, _, rfl, _, _, ⟨hsignature, rfl⟩, _, _, ⟨hbitmap, rfl⟩, u, hvalid, qcBytes, [],
      ⟨hlength, by simp⟩, _, hqc, (), rfl, rfl⟩

theorem encodeHighTc_eq_ok :
    encodeHighTc tc = .ok data ↔ encodeTc tc = .ok data ∧ data.length ≤ MAX_HIGH_TC := by
  simp only [encodeHighTc, bind_eq_ok, guard_eq_ok, pure_eq_ok, not_lt]
  constructor
  · rintro ⟨_, hencode, hlength, rfl⟩
    exact ⟨hencode, hlength⟩
  · rintro ⟨hencode, hlength⟩
    exact ⟨data, hencode, hlength, rfl⟩

theorem encodeQc_ne_nil (qc : H2QuorumCertificate) : encodeQc qc ≠ .ok [] := by
  intro h
  have hshort : Except.error H2WireError.truncated = .ok qc := decodeQc_eq_ok.mpr h
  cases hshort

theorem encodeTc_ne_nil (tc : H2TimeoutCertificate) : encodeTc tc ≠ .ok [] := by
  intro h
  have hshort : Except.error H2WireError.truncated = .ok tc := decodeTc_eq_ok.mpr h
  cases hshort

theorem decodeOptionalQc_eq_ok {qc : Option H2QuorumCertificate} :
    decodeOptional decodeQc data = .ok qc ↔ encodeOptional encodeQc qc = .ok data :=
  decodeOptional_eq_ok (fun _ => decodeQc_eq_ok) encodeQc_ne_nil

variable {tc : Option H2TimeoutCertificate}

theorem decodeOptionalTc_eq_ok (hlength : data.length ≤ MAX_HIGH_TC) :
    decodeOptional decodeTc data = .ok tc ↔ encodeOptional encodeHighTc tc = .ok data := by
  apply decodeOptional_eq_ok
  · intro a
    rw [decodeTc_eq_ok, encodeHighTc_eq_ok]
    exact ⟨fun h => ⟨h, hlength⟩, And.left⟩
  · intro a h
    exact encodeTc_ne_nil a (encodeHighTc_eq_ok.mp h).1

theorem length_encodeOptionalTc (h : encodeOptional encodeHighTc tc = .ok data) :
    data.length ≤ MAX_HIGH_TC := by
  cases tc with
  | none =>
    rw [← Except.ok.inj h]
    exact Nat.zero_le _
  | some tc => exact (encodeHighTc_eq_ok.mp h).2

/-- The last field of a vote or a timeout, as written. -/
def TrailingTc (highTc : Option H2TimeoutCertificate) (data : Bytes) : Prop :=
  ∃ tcBytes, encodeOptional encodeHighTc highTc = .ok tcBytes ∧ data = frame tcBytes

variable {highTc : Option H2TimeoutCertificate}

theorem decodeTrailingTc_eq_ok :
    decodeTrailingTc data = .ok highTc ↔ TrailingTc highTc data ∨ highTc = none ∧ data = [] := by
  unfold decodeTrailingTc TrailingTc
  split
  case isTrue hnil =>
    subst hnil
    constructor
    · intro h
      exact Or.inr ⟨(Except.ok.inj h).symm, rfl⟩
    · rintro (⟨tcBytes, -, hframe⟩ | ⟨rfl, -⟩)
      · exact absurd hframe.symm (frame_ne_nil tcBytes)
      · rfl
  case isFalse hcons =>
    simp only [bind_eq_ok, pure_eq_ok, Prod.exists, finish_eq_ok, readBytes_eq_ok, hcons, and_false,
      or_false]
    constructor
    · rintro ⟨tcBytes, _, ⟨hlength, rfl⟩, tc, htc, _, rfl, rfl⟩
      exact ⟨tcBytes, (decodeOptionalTc_eq_ok hlength).mp htc, append_nil _⟩
    · rintro ⟨tcBytes, htc, rfl⟩
      have hlength := length_encodeOptionalTc htc
      exact ⟨tcBytes, [], ⟨hlength, (append_nil _).symm⟩, highTc,
        (decodeOptionalTc_eq_ok hlength).mpr htc, (), rfl, rfl⟩

theorem trailingTc_none : TrailingTc none data ↔ data = frame [] := by
  simp [TrailingTc, encodeOptional]

theorem putHighTc_eq_ok {out : Bytes} :
    (∃ tcBytes, encodeOptional encodeHighTc highTc = .ok tcBytes ∧
      putLimitedBytes tcBytes MAX_HIGH_TC = .ok out) ↔ TrailingTc highTc out := by
  simp only [putLimitedBytes_eq_ok]
  constructor
  · rintro ⟨tcBytes, htc, -, rfl⟩
    exact ⟨tcBytes, htc, rfl⟩
  · rintro ⟨tcBytes, htc, rfl⟩
    exact ⟨tcBytes, htc, length_encodeOptionalTc htc, rfl⟩

section Messages

variable [BlsCodec] {data : Bytes}

theorem decodeProposal_eq_ok (hbls : BytesRoundTrip) {p : H2Proposal} :
    decodeProposal data = .ok p ↔ Genuine p.signature ∧ encodeProposal p = .ok data := by
  simp only [encodeProposal, decodeProposal, bind_eq_ok, pure_eq_ok, Prod.exists, readU64_eq_ok,
    readU32_eq_ok, readHash_eq_ok, readSignature_eq_ok hbls, readBytes_eq_ok, finish_eq_ok,
    decodeQc_eq_ok, decodeOptionalQc_eq_ok, putHash_eq_ok, putLimitedBytes_eq_ok]
  constructor
  · rintro ⟨view, _, rfl, hash, _, rfl, justify, _, ⟨hjustifyLe, rfl⟩, qc, hjustify, proposer, _,
      rfl, signature, _, ⟨hsig, rfl⟩, prepare, _, ⟨hprepareLe, rfl⟩, qc', hprepare, root, _, rfl,
      _, rfl, rfl⟩
    exact ⟨hsig, justify, hjustify, prepare, hprepare, _, rfl, _, ⟨hjustifyLe, rfl⟩, _,
      (putSignature_eq_ok hsig).mpr rfl, _, ⟨hprepareLe, rfl⟩, _, rfl, by simp⟩
  · rintro ⟨hsig, justify, hjustify, prepare, hprepare, _, rfl, _, ⟨hjustifyLe, rfl⟩, _, hput, _,
      ⟨hprepareLe, rfl⟩, _, rfl, rfl⟩
    obtain rfl := (putSignature_eq_ok hsig).mp hput
    exact ⟨_, _, rfl, _, _, rfl, justify, _, ⟨hjustifyLe, rfl⟩, _, hjustify, _, _, rfl, _, _,
      ⟨hsig, rfl⟩, prepare, _, ⟨hprepareLe, rfl⟩, _, hprepare, _, [], (append_nil _).symm, (),
      rfl, rfl⟩

theorem encodeVotePayload_eq_ok {v : H2Vote} (hsig : Genuine v.signature) :
    encodeVotePayload v = .ok data ↔ ∃ tail, TrailingTc v.highTc tail ∧
      data = leBytes 8 v.view.toNat ++ (frame (B256.toBytes v.blockHash) ++
        (leBytes 4 v.voter.toNat ++ (frame v.signature.toBytes ++ tail))) := by
  simp only [encodeVotePayload, bind_eq_ok, pure_eq_ok, putHash_eq_ok, putSignature_eq_ok hsig, ←
    putHighTc_eq_ok]
  constructor
  · rintro ⟨tcBytes, htc, _, rfl, _, rfl, tail, htail, rfl⟩
    exact ⟨tail, ⟨tcBytes, htc, htail⟩, rfl⟩
  · rintro ⟨tail, ⟨tcBytes, htc, htail⟩, rfl⟩
    exact ⟨tcBytes, htc, _, rfl, _, rfl, tail, htail, rfl⟩

theorem decodeVotePayload_eq_ok (hbls : BytesRoundTrip) {v : H2Vote} :
    decodeVotePayload data = .ok v ↔ Genuine v.signature ∧ (encodeVotePayload v = .ok data ∨
      v.highTc = none ∧ encodeVotePayload v = .ok (data ++ frame [])) := by
  simp only [decodeVotePayload, bind_eq_ok, pure_eq_ok, Prod.exists, readU64_eq_ok, readU32_eq_ok,
    readHash_eq_ok, readSignature_eq_ok hbls, decodeTrailingTc_eq_ok]
  constructor
  · rintro ⟨view, _, rfl, hash, _, rfl, voter, _, rfl, signature, tail, ⟨hsig, rfl⟩, highTc, htail,
      rfl⟩
    refine ⟨hsig, ?_⟩
    rcases htail with htail | ⟨rfl, rfl⟩
    · exact Or.inl ((encodeVotePayload_eq_ok hsig).mpr ⟨tail, htail, rfl⟩)
    · refine Or.inr ⟨rfl, (encodeVotePayload_eq_ok hsig).mpr ?_⟩
      exact ⟨_, trailingTc_none.mpr rfl, by simp⟩
  · rintro ⟨hsig, hencode⟩
    simp only [encodeVotePayload_eq_ok hsig] at hencode
    rcases hencode with ⟨tail, htail, rfl⟩ | ⟨hnone, tail, htail, hdata⟩
    · exact ⟨_, _, rfl, _, _, rfl, _, _, rfl, _, tail, ⟨hsig, rfl⟩, _, Or.inl htail, rfl⟩
    · rw [hnone] at htail
      rw [trailingTc_none.mp htail] at hdata
      simp only [← append_assoc] at hdata
      have hdata := append_cancel_right hdata
      refine ⟨_, _, ?_, _, _, rfl, _, _, rfl, _, [], ⟨hsig, rfl⟩, _, Or.inr ⟨hnone, rfl⟩, rfl⟩
      rw [hdata]
      simp

omit [BlsCodec] in
theorem decodePrepareQc_eq_ok {q : H2PrepareQc} :
    decodePrepareQc data = .ok q ↔ encodePrepareQc q = .ok data := by
  simp only [encodePrepareQc, decodePrepareQc, bind_eq_ok, pure_eq_ok, Prod.exists, readU64_eq_ok,
    readHash_eq_ok, readBytes_eq_ok, finish_eq_ok, decodeQc_eq_ok, putHash_eq_ok,
    putLimitedBytes_eq_ok]
  constructor
  · rintro ⟨view, _, rfl, hash, _, rfl, qcBytes, _, ⟨hlength, rfl⟩, qc, hqc, _, rfl, rfl⟩
    exact ⟨qcBytes, hqc, _, rfl, _, ⟨hlength, rfl⟩, by simp⟩
  · rintro ⟨qcBytes, hqc, _, rfl, _, ⟨hlength, rfl⟩, rfl⟩
    exact ⟨_, _, rfl, _, _, rfl, qcBytes, [], ⟨hlength, by simp⟩, _, hqc, (), rfl, rfl⟩

theorem encodeTimeout_eq_ok {t : H2Timeout} (hsig : Genuine t.signature) :
    encodeTimeout t = .ok data ↔ ∃ qcBytes tail, encodeQc t.highQc = .ok qcBytes ∧
      qcBytes.length ≤ MAX_QC ∧ TrailingTc t.highTc tail ∧
      data = leBytes 8 t.view.toNat ++ (frame qcBytes ++ (leBytes 4 t.sender.toNat ++
        (frame t.signature.toBytes ++ tail))) := by
  simp only [encodeTimeout, bind_eq_ok, pure_eq_ok, putSignature_eq_ok hsig, ← putHighTc_eq_ok,
    putLimitedBytes_eq_ok]
  constructor
  · rintro ⟨qcBytes, hqc, tcBytes, htc, _, ⟨hlength, rfl⟩, _, rfl, tail, htail, rfl⟩
    exact ⟨qcBytes, tail, hqc, hlength, ⟨tcBytes, htc, htail⟩, rfl⟩
  · rintro ⟨qcBytes, tail, hqc, hlength, ⟨tcBytes, htc, htail⟩, rfl⟩
    exact ⟨qcBytes, hqc, tcBytes, htc, _, ⟨hlength, rfl⟩, _, rfl, tail, htail, rfl⟩

theorem decodeTimeout_eq_ok (hbls : BytesRoundTrip) {t : H2Timeout} :
    decodeTimeout data = .ok t ↔ Genuine t.signature ∧ (encodeTimeout t = .ok data ∨
      t.highTc = none ∧ encodeTimeout t = .ok (data ++ frame [])) := by
  simp only [decodeTimeout, bind_eq_ok, pure_eq_ok, Prod.exists, readU64_eq_ok, readU32_eq_ok,
    readSignature_eq_ok hbls, readBytes_eq_ok, decodeQc_eq_ok, decodeTrailingTc_eq_ok]
  constructor
  · rintro ⟨view, _, rfl, qcBytes, _, ⟨hlength, rfl⟩, qc, hqc, sender, _, rfl, signature, tail,
      ⟨hsig, rfl⟩, highTc, htail, rfl⟩
    refine ⟨hsig, ?_⟩
    rcases htail with htail | ⟨rfl, rfl⟩
    · exact Or.inl ((encodeTimeout_eq_ok hsig).mpr ⟨qcBytes, tail, hqc, hlength, htail, rfl⟩)
    · refine Or.inr ⟨rfl, (encodeTimeout_eq_ok hsig).mpr ?_⟩
      exact ⟨qcBytes, _, hqc, hlength, trailingTc_none.mpr rfl, by simp⟩
  · rintro ⟨hsig, hencode⟩
    simp only [encodeTimeout_eq_ok hsig] at hencode
    rcases hencode with ⟨qcBytes, tail, hqc, hlength, htail, rfl⟩ |
      ⟨hnone, qcBytes, tail, hqc, hlength, htail, hdata⟩
    · exact ⟨_, _, rfl, qcBytes, _, ⟨hlength, rfl⟩, _, hqc, _, _, rfl, _, tail, ⟨hsig, rfl⟩, _,
        Or.inl htail, rfl⟩
    · rw [hnone] at htail
      rw [trailingTc_none.mp htail] at hdata
      simp only [← append_assoc] at hdata
      have hdata := append_cancel_right hdata
      refine ⟨_, _, ?_, qcBytes, _, ⟨hlength, rfl⟩, _, hqc, _, _, rfl, _, [], ⟨hsig, rfl⟩, _,
        Or.inr ⟨hnone, rfl⟩, rfl⟩
      rw [hdata]
      simp

theorem decodeNewView_eq_ok (hbls : BytesRoundTrip) {n : H2NewView} :
    decodeNewView data = .ok n ↔ Genuine n.signature ∧ encodeNewView n = .ok data := by
  simp only [encodeNewView, decodeNewView, bind_eq_ok, pure_eq_ok, Prod.exists, readU64_eq_ok,
    readU32_eq_ok, readSignature_eq_ok hbls, readBytes_eq_ok, finish_eq_ok, decodeTc_eq_ok,
    encodeHighTc_eq_ok, putLimitedBytes_eq_ok]
  constructor
  · rintro ⟨view, _, rfl, tcBytes, _, ⟨hlength, rfl⟩, tc, htc, leader, _, rfl, signature, _,
      ⟨hsig, rfl⟩, _, rfl, rfl⟩
    exact ⟨hsig, tcBytes, ⟨htc, hlength⟩, _, ⟨hlength, rfl⟩, _, (putSignature_eq_ok hsig).mpr rfl,
      by simp⟩
  · rintro ⟨hsig, tcBytes, ⟨htc, hlength⟩, _, ⟨-, rfl⟩, _, hput, rfl⟩
    obtain rfl := (putSignature_eq_ok hsig).mp hput
    exact ⟨_, _, rfl, tcBytes, _, ⟨hlength, rfl⟩, _, htc, _, _, rfl, _, [], ⟨hsig, by simp⟩, (),
      rfl, rfl⟩

omit [BlsCodec] in
theorem decodeDecide_eq_ok {d : H2Decide} :
    decodeDecide data = .ok d ↔ encodeDecide d = .ok data := by
  have hsame : decodeDecide data =
      (fun q => ⟨q.view, q.blockHash, q.qc⟩) <$> decodePrepareQc data := by
    simp only [decodeDecide, decodePrepareQc, map_bind, map_pure]
  rw [hsame]
  refine map_eq_ok.trans ⟨?_, ?_⟩
  · rintro ⟨q, hq, rfl⟩
    exact decodePrepareQc_eq_ok.mp hq
  · exact fun hd => ⟨⟨d.view, d.blockHash, d.commitQc⟩, decodePrepareQc_eq_ok.mpr hd, rfl⟩

end Messages

end N42.H2
