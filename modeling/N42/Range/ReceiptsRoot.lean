import N42.Gov5.HeaderRoundTrip
import N42.Range.CompactReceipts

/-!
What the receipts root fixes: everything in a receipt but its transaction type. The lengths in the
committed encoding fit in eight bytes because the compact receipts come in bounded blobs.
-/

namespace N42.Range

open Lib Gov5 List Rlp

def Log.Fits (n : ℕ) (log : Log) : Prop := log.topics.length ≤ 4 ∧ log.data.length ≤ n

def EthereumReceipt.Fits (n : ℕ) (receipt : EthereumReceipt) : Prop :=
  receipt.logs.length ≤ MAX_LOGS_PER_BLOCK ∧ ∀ log ∈ receipt.logs, log.Fits n

theorem Log.Fits.mono {n m : ℕ} {log : Log} (h : log.Fits n) (hle : n ≤ m) : log.Fits m :=
  ⟨h.1, h.2.trans hle⟩

variable {receipt : EthereumReceipt}

theorem EthereumReceipt.Fits.mono {n m : ℕ} (h : receipt.Fits n) (hle : n ≤ m) : receipt.Fits m :=
  ⟨h.1, fun log hlog => (h.2 log hlog).mono hle⟩

variable {bytes rest : Bytes}

theorem length_byte_le {byte : UInt8} (h : Cursor.byte bytes = .ok (byte, rest)) :
    rest.length ≤ bytes.length := by
  cases bytes with
  | nil => cases h
  | cons b bytes =>
    obtain ⟨-, rfl⟩ := Prod.mk.inj (Except.ok.inj h)
    exact Nat.le_succ _

theorem length_take_le {len : ℕ} {out : Bytes} (h : Cursor.take len bytes = .ok (out, rest)) :
    out.length ≤ bytes.length ∧ rest.length ≤ bytes.length := by
  obtain ⟨-, rfl⟩ := Frame.take_eq_ok.mp h
  rw [length_append]
  omega

theorem length_varintFrom_le {left index : ℕ} {start value : BitVec 64}
    (h : Cursor.varintFrom left index start bytes = .ok (value, rest)) :
    rest.length ≤ bytes.length := by
  induction left generalizing index start bytes with
  | zero => cases h
  | succ left ih =>
    simp only [Cursor.varintFrom, bind_eq_ok, guard_bind_eq_ok] at h
    obtain ⟨taken, htaken, -, hrest⟩ := h
    have hbyte := length_byte_le htaken
    split at hrest
    · obtain ⟨-, hvalue⟩ := guard_eq_ok.mp hrest
      obtain ⟨-, rfl⟩ := Prod.mk.inj (pure_eq_ok.mp hvalue)
      exact hbyte
    · exact (ih hrest).trans hbyte

theorem topics_eq_ok {count : ℕ} {topics : List B256}
    (h : Cursor.topics count bytes = .ok (topics, rest)) :
    topics.length = count ∧ rest.length ≤ bytes.length := by
  induction count generalizing bytes topics with
  | zero =>
    obtain ⟨rfl, rfl⟩ := Prod.mk.inj (Except.ok.inj h)
    exact ⟨rfl, Nat.le_refl _⟩
  | succ count ih =>
    simp only [Cursor.topics, bind_eq_ok, pure_eq_ok] at h
    obtain ⟨word, hword, more, hmore, hout⟩ := h
    obtain ⟨rfl, rfl⟩ := Prod.mk.inj hout
    obtain ⟨hlength, hle⟩ := ih hmore
    exact ⟨congrArg Nat.succ hlength, hle.trans (length_take_le hword).2⟩

theorem log_fits {log : Log} (h : Cursor.log bytes = .ok (log, rest)) :
    log.Fits bytes.length ∧ rest.length ≤ bytes.length := by
  simp only [Cursor.log, bind_eq_ok, guard_bind_eq_ok, pure_eq_ok] at h
  obtain ⟨address, haddress, topicCount, hcount, hfour, topics, htopics, dataLen, hdataLen, data,
    hdata, hout⟩ := h
  obtain ⟨rfl, rfl⟩ := Prod.mk.inj hout
  obtain ⟨hlength, htopicsLe⟩ := topics_eq_ok htopics
  have hle : dataLen.2.length ≤ bytes.length :=
    calc dataLen.2.length ≤ topics.2.length := length_varintFrom_le hdataLen
      _ ≤ topicCount.2.length := htopicsLe
      _ ≤ address.2.length := length_byte_le hcount
      _ ≤ bytes.length := (length_take_le haddress).2
  obtain ⟨hdataLe, hrestLe⟩ := length_take_le hdata
  refine ⟨⟨?_, hdataLe.trans hle⟩, hrestLe.trans hle⟩
  rw [hlength]
  exact Nat.le_of_not_lt hfour

theorem logs_fits {count : ℕ} {logs : List Log} (h : Cursor.logs count bytes = .ok (logs, rest)) :
    logs.length = count ∧ (∀ log ∈ logs, log.Fits bytes.length) ∧ rest.length ≤ bytes.length := by
  induction count generalizing bytes logs with
  | zero =>
    obtain ⟨rfl, rfl⟩ := Prod.mk.inj (Except.ok.inj h)
    exact ⟨rfl, by simp, Nat.le_refl _⟩
  | succ count ih =>
    simp only [Cursor.logs, bind_eq_ok, pure_eq_ok] at h
    obtain ⟨log, hlog, more, hmore, hout⟩ := h
    obtain ⟨rfl, rfl⟩ := Prod.mk.inj hout
    obtain ⟨hfits, hle⟩ := log_fits hlog
    obtain ⟨hlength, hall, hrest⟩ := ih hmore
    refine ⟨congrArg Nat.succ hlength, ?_, hrest.trans hle⟩
    exact forall_mem_cons.mpr ⟨hfits, fun other hmem => (hall other hmem).mono hle⟩

theorem length_txType_le {flags : UInt8} {txType : TxType}
    (h : Cursor.txType flags bytes = .ok (txType, rest)) : rest.length ≤ bytes.length := by
  simp only [Cursor.txType, bind_eq_ok] at h
  obtain ⟨encoded, hencoded, hout⟩ := h
  have hle : encoded.2.length ≤ bytes.length := by
    unfold Cursor.encodedType at hencoded
    split at hencoded
    · exact length_byte_le hencoded
    · rw [← Except.ok.inj hencoded]
  split at hout
  · cases hout
  · obtain ⟨-, rfl⟩ := Prod.mk.inj (pure_eq_ok.mp hout)
    exact hle

theorem receipt_fits {totalLogs total : ℕ}
    (h : Cursor.receipt totalLogs bytes = .ok ((receipt, total), rest)) :
    receipt.Fits bytes.length ∧ rest.length ≤ bytes.length := by
  simp only [Cursor.receipt, bind_eq_ok, guard_bind_eq_ok, pure_eq_ok] at h
  obtain ⟨flags, hflags, -, txType, htxType, -, gas, hgas, logCount, hlogCount, hmax, -, logs,
    hlogs, hout⟩ := h
  obtain ⟨hreceipt, rfl⟩ := Prod.mk.inj hout
  obtain ⟨rfl, -⟩ := Prod.mk.inj hreceipt
  have hle : logCount.2.length ≤ bytes.length :=
    calc logCount.2.length ≤ gas.2.length := length_varintFrom_le hlogCount
      _ ≤ txType.2.length := (length_take_le hgas).2
      _ ≤ flags.2.length := length_txType_le htxType
      _ ≤ bytes.length := length_byte_le hflags
  obtain ⟨hlength, hall, hrest⟩ := logs_fits hlogs
  refine ⟨⟨?_, fun log hlog => (hall log hlog).mono hle⟩, hrest.trans hle⟩
  rw [hlength]
  omega

theorem decodeReceiptsFrom_fits {fuel count totalLogs : ℕ} {receipts : List EthereumReceipt}
    (h : decodeReceiptsFrom fuel count totalLogs bytes = .ok receipts) :
    ∀ receipt ∈ receipts, receipt.Fits bytes.length := by
  induction fuel generalizing count totalLogs bytes receipts with
  | zero =>
    cases bytes with
    | nil =>
      rw [← Except.ok.inj h]
      simp
    | cons byte bytes => cases h
  | succ fuel ih =>
    cases bytes with
    | nil =>
      rw [← Except.ok.inj h]
      simp
    | cons byte bytes =>
      simp only [decodeReceiptsFrom, guard_bind_eq_ok, bind_eq_ok, pure_eq_ok] at h
      obtain ⟨-, first, hfirst, more, hmore, rfl⟩ := h
      obtain ⟨hfits, hle⟩ := receipt_fits hfirst
      exact forall_mem_cons.mpr ⟨hfits, fun receipt hmem => (ih hmore receipt hmem).mono hle⟩

variable {receipts receipts' : List EthereumReceipt}

section Encoding

variable {n : ℕ}

theorem Log.length_payload_lt {log : Log} (h : log.Fits n) (hn : n ≤ 2 ^ 24) :
    (log.topics.map (encodeWord 32)).flatten.length < 2 ^ 64 ∧
    (encodeWord 20 log.address ++ Rlp.item true (log.topics.map (encodeWord 32)).flatten ++
      Rlp.item false log.data).length < 2 ^ 25 := by
  obtain ⟨hcount, hdata⟩ := h
  have haddress := length_encodeWord_le (show 20 ≤ 256 by norm_num) log.address
  have htopics : (log.topics.map (encodeWord 32)).flatten.length ≤ log.topics.length * 265 :=
    length_flatten_map_le fun topic _ => length_encodeWord_le (by norm_num) topic
  have hlt : (log.topics.map (encodeWord 32)).flatten.length < 2 ^ 64 := by omega
  have htopicsItem := length_item_le true hlt
  have hdataItem := @length_item_le log.data false (by omega)
  rw [length_append, length_append]
  omega

theorem Log.encode_append_inj {log log' : Log} {rest rest' : Bytes} (hn : n ≤ 2 ^ 24)
    (hlog : log.Fits n) (hlog' : log'.Fits n) (h : log.encode ++ rest = log'.encode ++ rest') :
    log = log' ∧ rest = rest' := by
  obtain ⟨htopicsLt, hlt⟩ := log.length_payload_lt hlog hn
  obtain ⟨htopicsLt', hlt'⟩ := log'.length_payload_lt hlog' hn
  obtain ⟨-, hpayload, hrest⟩ := item_append_inj (by omega) (by omega) h
  rw [append_assoc, append_assoc] at hpayload
  obtain ⟨haddress, hafter⟩ :=
    (reads_decodeWord (by norm_num) (by norm_num)).append_inj trivial trivial hpayload
  obtain ⟨-, htopicBytes, hdataItem⟩ := item_append_inj htopicsLt htopicsLt' hafter
  have htopics : log.topics.map id = log'.topics.map id := by
    apply map_eq_of_flatten_eq (P := fun _ => True) _ _ (by simp) (by simp) htopicBytes
    · intro topic
      exact item_ne_nil _ _
    · intro topic topic' after after' _ _ hbytes
      exact (reads_decodeWord (by norm_num) (by norm_num)).append_inj trivial trivial hbytes
  have hdata : log.data = log'.data := by
    rw [← append_nil (item false log.data),
      ← append_nil (item false log'.data)] at hdataItem
    have hle := hlog.2
    have hle' := hlog'.2
    exact (item_append_inj (by omega) (by omega) hdataItem).2.1
  cases log
  simp_all

/-- What the committed encoding of a receipt fixes. -/
def EthereumReceipt.content (receipt : EthereumReceipt) : Bool × BitVec 64 × List Log :=
  (receipt.success, receipt.cumulativeGasUsed, receipt.logs)

theorem EthereumReceipt.length_payload_lt (h : receipt.Fits n) (hn : n ≤ 2 ^ 24) :
    (receipt.logs.map Log.encode).flatten.length < 2 ^ 64 ∧
    (encodeNumber (BitVec.ofNat 64 receipt.success.toNat) ++
      encodeNumber receipt.cumulativeGasUsed ++
      Rlp.item true (receipt.logs.map Log.encode).flatten).length < 2 ^ 64 := by
  have hlog : ∀ log ∈ receipt.logs, log.encode.length ≤ 2 ^ 26 := by
    intro log hmem
    obtain ⟨-, hlt⟩ := log.length_payload_lt (h.2 log hmem) hn
    exact (length_item_le true (by omega)).trans (by omega)
  have hlogs := length_flatten_map_le hlog
  have hcount := h.1
  have hlt : (receipt.logs.map Log.encode).flatten.length < 2 ^ 63 := by
    unfold MAX_LOGS_PER_BLOCK at hcount
    omega
  have hitem := @length_item_le (receipt.logs.map Log.encode).flatten true (by omega)
  have hstatus := length_encodeNumber_le (show 64 ≤ 256 by norm_num)
    (BitVec.ofNat 64 receipt.success.toNat)
  have hgas := length_encodeNumber_le (show 64 ≤ 256 by norm_num) receipt.cumulativeGasUsed
  rw [length_append, length_append]
  omega

theorem status_inj {b b' : Bool} (h : BitVec.ofNat 64 b.toNat = BitVec.ofNat 64 b'.toNat) :
    b = b' := by
  revert h
  cases b <;> cases b' <;> decide

theorem EthereumReceipt.encode_append_inj {receipt receipt' : EthereumReceipt} {rest rest' : Bytes}
    (hn : n ≤ 2 ^ 24) (hfits : receipt.Fits n) (hfits' : receipt'.Fits n)
    (h : receipt.encode ++ rest = receipt'.encode ++ rest') :
    receipt.content = receipt'.content ∧ rest = rest' := by
  obtain ⟨hlogsLt, hlt⟩ := receipt.length_payload_lt hfits hn
  obtain ⟨hlogsLt', hlt'⟩ := receipt'.length_payload_lt hfits' hn
  obtain ⟨-, hpayload, hrest⟩ := item_append_inj hlt hlt' h
  rw [append_assoc, append_assoc] at hpayload
  obtain ⟨hstatus, hafter⟩ :=
    (reads_decodeNumber (show 64 = 8 * 8 by norm_num) (by norm_num)).append_inj trivial
      trivial hpayload
  obtain ⟨hgas, hlogsItem⟩ :=
    (reads_decodeNumber (show 64 = 8 * 8 by norm_num) (by norm_num)).append_inj trivial
      trivial hafter
  rw [← append_nil (item true (receipt.logs.map Log.encode).flatten),
    ← append_nil (item true (receipt'.logs.map Log.encode).flatten)] at hlogsItem
  obtain ⟨-, hlogBytes, -⟩ := item_append_inj hlogsLt hlogsLt' hlogsItem
  have hlogs : receipt.logs.map id = receipt'.logs.map id := by
    apply map_eq_of_flatten_eq (P := Log.Fits n) _ _ hfits.2 hfits'.2 hlogBytes
    · intro log
      exact item_ne_nil _ _
    · intro log log' after after' hlog hlog' hbytes
      exact Log.encode_append_inj hn hlog hlog' hbytes
  rw [map_id, map_id] at hlogs
  refine ⟨?_, hrest⟩
  rw [EthereumReceipt.content, EthereumReceipt.content, status_inj hstatus, hgas, hlogs]

/-- Receipts of one committed encoding differ in their transaction types alone. -/
theorem content_eq_of_encodeReceipts (hn : n ≤ 2 ^ 24)
    (hfits : ∀ receipt ∈ receipts, receipt.Fits n) (hfits' : ∀ receipt ∈ receipts', receipt.Fits n)
    (h : encodeReceipts receipts = encodeReceipts receipts') :
    receipts.map EthereumReceipt.content = receipts'.map EthereumReceipt.content := by
  apply map_eq_of_flatten_eq (P := EthereumReceipt.Fits n) _ _ hfits hfits' h
  · intro receipt
    exact item_ne_nil _ _
  · intro receipt receipt' rest rest' hreceipt hreceipt' hbytes
    exact EthereumReceipt.encode_append_inj hn hreceipt hreceipt' hbytes

end Encoding

theorem receipts_eq_iff
    (hcontent : receipts.map EthereumReceipt.content = receipts'.map EthereumReceipt.content) :
    receipts = receipts' ↔
      receipts.map EthereumReceipt.txType = receipts'.map EthereumReceipt.txType := by
  constructor
  · intro h
    rw [h]
  · intro htypes
    apply ext_getElem?
    intro i
    have hc := congrArg (·[i]?) hcontent
    have ht := congrArg (·[i]?) htypes
    simp only [getElem?_map] at hc ht
    cases hr : receipts[i]? with
    | none => cases hr' : receipts'[i]? <;> simp_all
    | some receipt =>
      cases hr' : receipts'[i]? with
      | none => simp_all
      | some receipt' =>
        cases receipt
        simp_all [EthereumReceipt.content]

end N42.Range
