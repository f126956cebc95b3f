import N42.Gov5.BlockBinding
import N42.Lib.HashChain
import N42.Range.FinalizedRange
import N42.Range.ReceiptsRoot

/-!
What the last hash of a finalized range binds: headers, transactions and receipts, the receipts up
to their transaction types, which no root covers.
-/

namespace N42.Range

open Lib Gov5 List Option RangeState

/-- The type byte of a compact receipt, and what follows it. -/
def typeByte (flags : UInt8) (bytes : Bytes) : UInt8 × Bytes :=
  if flags &&& 0x03 = 3 then (bytes.headD 0, bytes.tail) else (flags &&& 0x03, bytes)

/-- The types in the flags of the compact receipts of a block; gas and logs are skipped. -/
def flagTypesFrom : ℕ → Bytes → List (Option TxType)
  | 0, _ => []
  | _, [] => []
  | fuel + 1, flags :: bytes =>
    let skipped := do
      let logCount ← Cursor.varint ((typeByte flags bytes).2.drop ((flags >>> 3) &&& 0x0f).toNat)
      Cursor.logs logCount.1.toNat logCount.2
    TxType.ofByte (typeByte flags bytes).1 ::
      (skipped.toOption.elim [] fun logs => flagTypesFrom fuel logs.2)

/-- The blob behind its length, and what follows it. -/
def skipBlob (bytes : Bytes) : Bytes × Bytes :=
  (bytes.drop 4).splitAt (leNat (bytes.take 4))

/-- The compact receipts of a block, which stand behind its number, five hashes, header and block
in the stream; and what follows them. -/
def receiptsBlob (bytes : Bytes) : Bytes × Bytes :=
  skipBlob (skipBlob (skipBlob (bytes.drop (8 + 5 * 32))).2).2

def flagTypesOf : ℕ → Bytes → List (List (Option TxType))
  | 0, _ => []
  | count + 1, bytes =>
    flagTypesFrom (receiptsBlob bytes).1.length (receiptsBlob bytes).1 ::
      flagTypesOf count (receiptsBlob bytes).2

/-- The receipt types in the flags of a stream, block by block. -/
def flagTypes (stream : Bytes) : List (List (Option TxType)) :=
  flagTypesOf (leNat ((stream.drop 64).take 8)) (stream.drop 72)

theorem txType_eq_ok {flags : UInt8} {bytes : Bytes} {read : TxType × Bytes}
    (h : Cursor.txType flags bytes = .ok read) :
    TxType.ofByte (typeByte flags bytes).1 = some read.1 ∧ read.2 = (typeByte flags bytes).2 := by
  simp only [Cursor.txType, Cursor.encodedType, bind_eq_ok] at h
  obtain ⟨encoded, hencoded, htype⟩ := h
  have heq : encoded = typeByte flags bytes := by
    unfold typeByte
    split at hencoded
    · next hown =>
      rw [if_pos hown]
      cases bytes with
      | nil => cases hencoded
      | cons byte bytes => exact (Except.ok.inj hencoded).symm
    · next hflags =>
      rw [if_neg hflags]
      exact (Except.ok.inj hencoded).symm
  rw [heq] at htype
  split at htype
  · cases htype
  · next hbyte =>
    obtain rfl := pure_eq_ok.mp htype
    exact ⟨hbyte, rfl⟩

/-- The types of decoded receipts are those of the flags. -/
theorem flagTypesFrom_of_decode {fuel count totalLogs : ℕ} {bytes : Bytes}
    {receipts : List EthereumReceipt}
    (h : decodeReceiptsFrom fuel count totalLogs bytes = .ok receipts) :
    flagTypesFrom fuel bytes = receipts.map fun receipt => some receipt.txType := by
  induction fuel generalizing count totalLogs bytes receipts with
  | zero =>
    cases bytes with
    | nil =>
      obtain rfl := Except.ok.inj h
      rfl
    | cons byte bytes => cases h
  | succ fuel ih =>
    cases bytes with
    | nil =>
      obtain rfl := Except.ok.inj h
      rfl
    | cons flags bytes =>
      simp only [decodeReceiptsFrom, Cursor.receipt, bind_eq_ok, guard_bind_eq_ok, pure_eq_ok] at h
      obtain ⟨-, receipt, ⟨read, hread, -, txType, htype, -, gas, hgas, logCount, hcount, -, -,
        logs, hlogs, rfl⟩, rest, hrest, rfl⟩ := h
      obtain rfl := Except.ok.inj hread
      obtain ⟨hbyte, hafter⟩ := txType_eq_ok htype
      obtain ⟨hlength, happend⟩ := Frame.take_eq_ok.mp hgas
      have hskip : txType.2.drop ((flags >>> 3) &&& 0x0f).toNat = gas.2 := by
        rw [happend, drop_left' hlength]
      have hlogs : (do
          let logCount ← Cursor.varint (txType.2.drop ((flags >>> 3) &&& 0x0f).toNat)
          Cursor.logs logCount.1.toNat logCount.2) = .ok logs := by
        rw [hskip, hcount]
        exact hlogs
      rw [flagTypesFrom, ← hafter, hlogs, hbyte, map_cons, ← ih hrest]
      rfl

section Binding

variable {Tx : Type} [RangeCrypto Tx]

/-- The results of the two modes of a parser: the same up to `f`, unless the bytes to be kept are
too many. -/
inductive Follows {α β : Type} (f : α → β) :
    Except FinalizedRangeError α → Except FinalizedRangeError β → Prop
  | ok (a : α) : Follows f (.ok a) (.ok (f a))
  | error (err : FinalizedRangeError) : Follows f (.error err) (.error err)
  | oversized (y : Except FinalizedRangeError β) : Follows f (.error .materializedBytes) y

theorem Follows.refl {α : Type} (x : Except FinalizedRangeError α) : Follows id x x := by
  cases x with
  | error err => exact .error err
  | ok a => exact .ok a

theorem Follows.bind {α β γ δ : Type} {f : α → β} {g : γ → δ} {x : Except FinalizedRangeError α}
    {y : Except FinalizedRangeError β} {k : α → Except FinalizedRangeError γ}
    {l : β → Except FinalizedRangeError δ} (h : Follows f x y)
    (hnext : ∀ a, Follows g (k a) (l (f a))) : Follows g (x >>= k) (y >>= l) := by
  cases h with
  | ok a => exact hnext a
  | error err => exact .error err
  | oversized y => exact .oversized _

theorem Follows.guard {α β γ : Type} {f : α → β} {c : Prop} [Decidable c]
    {err : FinalizedRangeError} {x : Except FinalizedRangeError α}
    {y : Except FinalizedRangeError β} {k : γ → Except FinalizedRangeError α}
    {l : γ → Except FinalizedRangeError β} (h : Follows f x y) :
    Follows f (if c then throw err >>= k else x) (if c then throw err >>= l else y) := by
  split
  · exact .error err
  · exact h

/-- A state without what only decoding keeps. -/
def RangeState.bare (st : RangeState Tx) : RangeState Tx :=
  { st with materializedBytes := 0, entries := [] }

theorem parseBlock_follows (fromBlock index : ℕ) (st : RangeState Tx) :
    Follows RangeState.bare (parseBlock true fromBlock index st)
      (parseBlock false fromBlock index st.bare) := by
  apply Follows.bind (Follows.refl _)
  intro block
  simp only [retain, if_true]
  split
  · exact .oversized _
  · exact .ok _

theorem parseBlocks_follows (fromBlock count index : ℕ) (st : RangeState Tx) :
    Follows RangeState.bare (parseBlocks true fromBlock count index st)
      (parseBlocks false fromBlock count index st.bare) := by
  induction count generalizing index st with
  | zero => exact .ok st
  | succ count ih => exact (parseBlock_follows fromBlock index st).bind fun next => ih _ next

variable (stream : Bytes) (chainId : ℕ) (genesisHash : B256)

theorem parse_follows : Follows (fun range : VerifiedFinalizedRange Tx => ⟨range.verification, []⟩)
      (parseFinalizedRangeStream Tx stream chainId genesisHash true)
      (parseFinalizedRangeStream Tx stream chainId genesisHash false) := by
  apply (Follows.refl _).bind
  intro magic
  apply Follows.guard
  apply (Follows.refl _).bind
  intro chainIdRead
  apply (Follows.refl _).bind
  intro genesis
  apply Follows.guard
  apply (Follows.refl _).bind
  intro fromBlock
  apply (Follows.refl _).bind
  intro toBlock
  apply (Follows.refl _).bind
  intro blockCount
  apply Follows.guard
  apply (parseBlocks_follows _ _ _ _).bind
  intro st
  apply (Follows.refl _).bind
  intro _
  exact .ok _

theorem decode_follows : Follows VerifiedFinalizedRange.verification
      (decodeFinalizedRangeStream Tx stream chainId genesisHash)
      (verifyFinalizedRangeStream Tx stream chainId genesisHash) := by
  have h := (@parse_follows Tx _ stream chainId genesisHash).bind
    (g := VerifiedFinalizedRange.verification) (k := pure)
    (l := fun range => pure range.verification) fun range => .ok range
  rwa [bind_pure] at h

def VerifiedFinalizedRangeEntry.receiptTypes (entry : VerifiedFinalizedRangeEntry Tx) :
    List TxType :=
  entry.receipts.map EthereumReceipt.txType

structure VerifiedFinalizedRangeEntry.Checked (entry : VerifiedFinalizedRangeEntry Tx) : Prop where
  blockHash_eq : entry.blockHash = Keccak.keccak256 entry.headerRlp
  header_eq : decodeHeader Tx entry.headerRlp = some entry.header
  number_eq : entry.number = entry.header.number.toNat
  parentHash_eq : entry.parentHash = entry.header.parentHash
  transactions_match :
    ChainCrypto.calculateTransactionRoot entry.transactions = entry.header.transactionsRoot
  counts_eq : entry.transactions.length = entry.receipts.length
  receipts_match : gov5NativeReceiptsRoot Tx entry.receipts = entry.header.receiptsRoot ∨
    entry.receipts = []
  receipts_fit : ∀ receipt ∈ entry.receipts, receipt.Fits MAX_BLOB_SIZE

theorem orError_eq_ok {α : Type} {err : FinalizedRangeError} {x : Option α} {a : α} :
    orError err x = .ok a ↔ x = some a := by
  cases x <;> simp [orError]

section Layout

omit [RangeCrypto Tx]

variable {number : ℕ} {reader : HashingReader}

theorem array_eq_ok {n : ℕ} {read : Bytes × HashingReader} (h : reader.array n = .ok read) :
    read.1 = reader.inner.take n ∧ read.2.inner = reader.inner.drop n := by
  unfold HashingReader.array at h
  split at h
  · obtain rfl := Except.ok.inj h
    exact ⟨rfl, rfl⟩
  · cases h

theorem u64_eq_ok {read : ℕ × HashingReader} (h : reader.u64 = .ok read) :
    read.1 = leNat (reader.inner.take 8) ∧ read.2.inner = reader.inner.drop 8 := by
  simp only [HashingReader.u64, bind_eq_ok, pure_eq_ok] at h
  obtain ⟨bytes, hbytes, rfl⟩ := h
  exact ⟨congrArg leNat (array_eq_ok hbytes).1, (array_eq_ok hbytes).2⟩

theorem b256_eq_ok {read : B256 × HashingReader} (h : reader.b256 = .ok read) :
    read.2.inner = reader.inner.drop 32 := by
  simp only [HashingReader.b256, bind_eq_ok, pure_eq_ok] at h
  obtain ⟨bytes, hbytes, rfl⟩ := h
  exact (array_eq_ok hbytes).2

theorem optionalBlob_eq_ok {read : Bytes × HashingReader}
    (h : reader.optionalBlob number = .ok read) :
    (read.1, read.2.inner) = skipBlob reader.inner ∧ read.1.length ≤ MAX_BLOB_SIZE := by
  simp only [HashingReader.optionalBlob, bind_eq_ok, guard_bind_eq_ok] at h
  obtain ⟨size, hsize, hbound, hread⟩ := h
  obtain ⟨hsize, hinner⟩ := array_eq_ok hsize
  obtain ⟨hbytes, hrest⟩ := array_eq_ok hread
  refine ⟨?_, ?_⟩
  · rw [skipBlob, splitAt_eq, hbytes, hrest, hsize, hinner]
  · rw [hbytes, length_take]
    omega

theorem blob_eq_ok {read : Bytes × HashingReader} (h : reader.blob number = .ok read) :
    (read.1, read.2.inner) = skipBlob reader.inner := by
  simp only [HashingReader.blob, bind_eq_ok, guard_bind_eq_ok] at h
  obtain ⟨size, hsize, -, hread⟩ := h
  obtain ⟨hsize, hinner⟩ := array_eq_ok hsize
  obtain ⟨hbytes, hrest⟩ := array_eq_ok hread
  rw [skipBlob, splitAt_eq, hbytes, hrest, hsize, hinner]

end Layout

theorem readBlock_checked {fromBlock index transactionCount : ℕ} {previousHash : Option B256}
    {reader : HashingReader} {block : BlockRead Tx}
    (h : readBlock fromBlock index previousHash transactionCount reader = .ok block) :
    block.entry.Checked ∧ block.entry.number = fromBlock + index ∧
      (index ≠ 0 → previousHash = some block.entry.parentHash) ∧
      (∀ count, flagTypesOf (count + 1) reader.inner =
        block.entry.receiptTypes.map some :: flagTypesOf count block.reader.inner) := by
  simp only [readBlock, bind_eq_ok, guard_bind_eq_ok, orError_eq_ok, mapError_eq_ok,
    pure_eq_ok] at h
  obtain ⟨number, hread, hnumber, blockHash, hread₁, parentHash, hread₂, stateRoot, hread₃,
    receiptsRoot, hread₄, txRoot, hread₅, hparent, header, hheader, hhash, decoded, hdecoded,
    hfields, h⟩ := h
  obtain ⟨blockBytes, hblock, -, transactions, -, hroot, receiptsBytes, hbytes, receipts,
    hreceipts, hcount, -, hreceiptsRoot, rfl⟩ := h
  simp only [not_or, not_not] at hfields hnumber hhash hroot hcount
  obtain ⟨hnumberField, hparentField, -, htxField, hreceiptsField⟩ := hfields
  have hlayout : (receiptsBytes.1, receiptsBytes.2.inner) = receiptsBlob reader.inner := by
    have hafter : blockBytes.2.inner = _ := congrArg Prod.snd (blob_eq_ok hblock)
    have hafter' : header.2.inner = _ := congrArg Prod.snd (blob_eq_ok hheader)
    rw [receiptsBlob, (optionalBlob_eq_ok hbytes).1, hafter, hafter', b256_eq_ok hread₅,
      b256_eq_ok hread₄, b256_eq_ok hread₃, b256_eq_ok hread₂, b256_eq_ok hread₁,
      (u64_eq_ok hread).2]
    simp only [drop_drop]
  refine ⟨?_, hnumber, ?_, fun count => ?_⟩
  · constructor
    · exact hhash.symm
    · exact hdecoded
    · exact hnumberField.symm
    · exact hparentField.symm
    · exact hroot.trans htxField.symm
    · exact hcount
    · rw [hreceiptsField]
      by_cases hmatch : gov5NativeReceiptsRoot Tx receipts = receiptsRoot.1
      · exact Or.inl hmatch
      · have hlegacy := not_not.mp fun hne => hreceiptsRoot ⟨hmatch, hne⟩
        exact Or.inr (isEmpty_iff.mp hlegacy.2.1)
    · intro receipt hmem
      exact (decodeReceiptsFrom_fits hreceipts receipt hmem).mono (optionalBlob_eq_ok hbytes).2
  · intro hindex
    exact not_not.mp fun hne => hparent ⟨hindex, hne⟩
  · rw [flagTypesOf, ← hlayout, flagTypesFrom_of_decode hreceipts]
    simp [VerifiedFinalizedRangeEntry.receiptTypes]

/-- What holds of the entries kept so far, before block `index`. -/
structure RangeState.Kept (fromBlock index : ℕ) (st : RangeState Tx) : Prop where
  length_eq : st.entries.length = index
  checked : ∀ entry ∈ st.entries, entry.Checked
  linked : HashChain.Linked VerifiedFinalizedRangeEntry.blockHash
    VerifiedFinalizedRangeEntry.parentHash st.entries
  newest : st.previousHash = st.entries.getLast?.map VerifiedFinalizedRangeEntry.blockHash
  last_eq : ∀ entry, st.entries.getLast? = some entry →
    st.last.1 = entry.blockHash ∧ entry.number + 1 = fromBlock + index

/-- The receipt types of the entries kept so far. -/
def RangeState.typesKept (st : RangeState Tx) : List (List (Option TxType)) :=
  st.entries.map fun entry => entry.receiptTypes.map some

theorem RangeState.Kept.start (fromBlock : ℕ) (reader : HashingReader) :
    (RangeState.start reader : RangeState Tx).Kept fromBlock 0 := by
  constructor
  · rfl
  · simp [RangeState.start]
  · exact .nil
  · rfl
  · simp [RangeState.start]

theorem RangeState.Kept.step {fromBlock index : ℕ} {st st' : RangeState Tx}
    (h : st.Kept fromBlock index) (hparse : parseBlock true fromBlock index st = .ok st') :
    st'.Kept fromBlock (index + 1) ∧ ∀ count, st'.typesKept ++ flagTypesOf count st'.reader.inner =
      st.typesKept ++ flagTypesOf (count + 1) st.reader.inner := by
  simp only [parseBlock, bind_eq_ok] at hparse
  obtain ⟨block, hread, hretain⟩ := hparse
  obtain ⟨hchecked, hnumber, hparent, hflags⟩ := readBlock_checked hread
  simp only [retain, if_true] at hretain
  split at hretain
  · cases hretain
  · obtain rfl := Except.ok.inj hretain
    refine ⟨?_, fun count => by rw [hflags count]; simp [typesKept, advance]⟩
    constructor
    · simp [advance, h.length_eq]
    · exact forall_mem_append.mpr ⟨h.checked, forall_mem_singleton.mpr hchecked⟩
    · -- the parent check is skipped for the first block alone, which has no predecessor
      apply List.IsChain.append h.linked (isChain_singleton _)
      intro older holder newer hnewer
      obtain rfl : block.entry = newer := by simpa using hnewer
      have hindex : index ≠ 0 := by
        rintro rfl
        rw [length_eq_zero_iff.mp h.length_eq] at holder
        cases holder
      have hprevious := h.newest
      rw [hparent hindex, mem_def.mp holder] at hprevious
      exact Option.some.inj hprevious
    · simp [advance]
    · intro entry hlast
      obtain rfl : block.entry = entry := by simpa [advance] using hlast
      refine ⟨rfl, ?_⟩
      rw [hnumber]
      rfl

theorem RangeState.Kept.run {fromBlock count index : ℕ} {st st' : RangeState Tx}
    (h : st.Kept fromBlock index) (hparse : parseBlocks true fromBlock count index st = .ok st') :
    st'.Kept fromBlock (index + count) ∧ st'.typesKept =
      st.typesKept ++ flagTypesOf count st.reader.inner := by
  induction count generalizing index st with
  | zero =>
    obtain rfl := Except.ok.inj hparse
    exact ⟨h, (append_nil _).symm⟩
  | succ count ih =>
    simp only [parseBlocks, bind_eq_ok] at hparse
    obtain ⟨next, hnext, hrest⟩ := hparse
    obtain ⟨hkept, htypes⟩ := ih (h.step hnext).1 hrest
    rw [Nat.add_assoc, Nat.add_comm 1 count] at hkept
    exact ⟨hkept, htypes.trans ((h.step hnext).2 count)⟩

structure VerifiedFinalizedRange.Bound (stream : Bytes) (range : VerifiedFinalizedRange Tx) :
    Prop where
  types_eq : (range.entries.map fun entry => entry.receiptTypes.map some) = flagTypes stream
  nonempty : range.entries ≠ []
  checked : ∀ entry ∈ range.entries, entry.Checked
  linked : HashChain.Linked VerifiedFinalizedRangeEntry.blockHash
    VerifiedFinalizedRangeEntry.parentHash range.entries
  last_eq : ∀ entry, range.entries.getLast? = some entry →
    range.verification.lastBlockHash = entry.blockHash ∧
      entry.number + 1 = range.verification.fromBlock + range.entries.length

theorem decode_bound {stream : Bytes} {chainId : ℕ} {genesisHash : B256}
    {range : VerifiedFinalizedRange Tx}
    (h : decodeFinalizedRangeStream Tx stream chainId genesisHash = .ok range) :
    range.Bound stream := by
  simp only [decodeFinalizedRangeStream, parseFinalizedRangeStream, bind_eq_ok, guard_bind_eq_ok,
    pure_eq_ok] at h
  obtain ⟨magic, hmagic, -, chain, hchain, genesis, hgenesis, -, fromBlock, hfrom, toBlock, hto,
    blockCount, hblocks, hbounds, st, hst, -, -, rfl⟩ := h
  obtain ⟨hkept, htypes⟩ := (RangeState.Kept.start fromBlock.1 blockCount.2).run hst
  rw [Nat.zero_add] at hkept
  constructor
  · refine htypes.trans ?_
    show flagTypesOf blockCount.1 blockCount.2.inner = _
    rw [(u64_eq_ok hblocks).1, (u64_eq_ok hblocks).2, (u64_eq_ok hto).2, (u64_eq_ok hfrom).2,
      b256_eq_ok hgenesis, (u64_eq_ok hchain).2, (array_eq_ok hmagic).2]
    simp only [drop_drop, flagTypes]
  · intro hnil
    have hlength := hkept.length_eq
    rw [show st.entries = [] from hnil] at hlength
    exact hbounds (Or.inl hlength.symm)
  · exact hkept.checked
  · exact hkept.linked
  · intro entry hlast
    obtain ⟨hhash, hnumber⟩ := hkept.last_eq entry hlast
    refine ⟨hhash, ?_⟩
    rw [hkept.length_eq]
    exact hnumber

def VerifiedFinalizedRange.hashed (range : VerifiedFinalizedRange Tx) : Set Bytes :=
  {bytes | ∃ entry ∈ range.entries,
    bytes = entry.headerRlp ∨ bytes = encodeReceipts entry.receipts}

def VerifiedFinalizedRange.rooted (range : VerifiedFinalizedRange Tx) : Set (List Tx) :=
  {transactions | ∃ entry ∈ range.entries, transactions = entry.transactions}

variable (entry entry' : VerifiedFinalizedRangeEntry Tx)

def VerifiedFinalizedRangeEntry.AgreeButTypes : Prop :=
  entry.number = entry'.number ∧ entry.header = entry'.header ∧
    entry.transactions = entry'.transactions ∧
    entry.receipts.map EthereumReceipt.content = entry'.receipts.map EthereumReceipt.content

def VerifiedFinalizedRangeEntry.Agree : Prop :=
  entry.number = entry'.number ∧ entry.header = entry'.header ∧
    entry.transactions = entry'.transactions ∧ entry.receipts = entry'.receipts

omit [RangeCrypto Tx] in
theorem VerifiedFinalizedRangeEntry.AgreeButTypes.agree_iff
    {entry entry' : VerifiedFinalizedRangeEntry Tx} (h : entry.AgreeButTypes entry') :
    entry.Agree entry' ↔ entry.receiptTypes = entry'.receiptTypes := by
  obtain ⟨hnumber, hheader, htransactions, hcontent⟩ := h
  unfold VerifiedFinalizedRangeEntry.Agree VerifiedFinalizedRangeEntry.receiptTypes
  rw [← receipts_eq_iff hcontent]
  simp [hnumber, hheader, htransactions]

section Pair

variable {range range' : VerifiedFinalizedRange Tx}
  {entry entry' : VerifiedFinalizedRangeEntry Tx}

section

variable (hkeccak : Set.InjOn Keccak.keccak256 (range.hashed ∪ range'.hashed))
include hkeccak

theorem content_eq_of_checked (hmem : entry ∈ range.entries) (hmem' : entry' ∈ range'.entries)
    (hchecked : entry.Checked) (hchecked' : entry'.Checked) (hheader : entry.header = entry'.header)
    (htransactions : entry.transactions = entry'.transactions) :
    entry.receipts.map EthereumReceipt.content = entry'.receipts.map EthereumReceipt.content := by
  have hlength : entry.receipts.length = entry'.receipts.length := by
    rw [← hchecked.counts_eq, ← hchecked'.counts_eq, htransactions]
  rcases hchecked.receipts_match with hroot | hnil
  · rcases hchecked'.receipts_match with hroot' | hnil'
    · have hbytes : encodeReceipts entry.receipts = encodeReceipts entry'.receipts := by
        apply hkeccak
        · exact Or.inl ⟨entry, hmem, Or.inr rfl⟩
        · exact Or.inr ⟨entry', hmem', Or.inr rfl⟩
        · exact hroot.trans ((congrArg Header.receiptsRoot hheader).trans hroot'.symm)
      exact content_eq_of_encodeReceipts (by decide) hchecked.receipts_fit
        hchecked'.receipts_fit hbytes
    · rw [hnil'] at hlength
      rw [hnil', length_eq_zero_iff.mp hlength]
  · rw [hnil] at hlength
    rw [hnil, length_eq_zero_iff.mp hlength.symm]

theorem agree_of_blockHash
    (hroots : Set.InjOn (@ChainCrypto.calculateTransactionRoot Tx _) (range.rooted ∪ range'.rooted))
    (hmem : entry ∈ range.entries) (hmem' : entry' ∈ range'.entries) (hchecked : entry.Checked)
    (hchecked' : entry'.Checked) (hhash : entry.blockHash = entry'.blockHash) :
    entry.AgreeButTypes entry' ∧ entry.parentHash = entry'.parentHash := by
  have hbytes : entry.headerRlp = entry'.headerRlp := by
    apply hkeccak
    · exact Or.inl ⟨entry, hmem, Or.inl rfl⟩
    · exact Or.inr ⟨entry', hmem', Or.inl rfl⟩
    · rw [← hchecked.blockHash_eq, ← hchecked'.blockHash_eq, hhash]
  have hheader : entry.header = entry'.header := by
    have hdecoded := hchecked.header_eq
    rw [hbytes, hchecked'.header_eq] at hdecoded
    exact (Option.some.inj hdecoded).symm
  have htransactions : entry.transactions = entry'.transactions := by
    apply hroots
    · exact Or.inl ⟨entry, hmem, rfl⟩
    · exact Or.inr ⟨entry', hmem', rfl⟩
    · rw [hchecked.transactions_match, hchecked'.transactions_match, hheader]
  refine ⟨⟨?_, hheader, htransactions, ?_⟩, ?_⟩
  · rw [hchecked.number_eq, hchecked'.number_eq, hheader]
  · exact content_eq_of_checked hkeccak hmem hmem' hchecked hchecked' hheader htransactions
  · rw [hchecked.parentHash_eq, hchecked'.parentHash_eq, hheader]

end

theorem forall₂_agreeButTypes {stream stream' : Bytes} (hbound : range.Bound stream)
    (hbound' : range'.Bound stream')
    (hkeccak : Set.InjOn Keccak.keccak256 (range.hashed ∪ range'.hashed))
    (hroots : Set.InjOn (@ChainCrypto.calculateTransactionRoot Tx _)
      (range.rooted ∪ range'.rooted))
    (hfrom : range.verification.fromBlock = range'.verification.fromBlock)
    (hlast : range.verification.lastBlockHash = range'.verification.lastBlockHash) :
    List.Forall₂ VerifiedFinalizedRangeEntry.AgreeButTypes range.entries range'.entries := by
  obtain ⟨entry, hentry⟩ := ne_none_iff_exists'.mp
    (mt getLast?_eq_none_iff.mp hbound.nonempty)
  obtain ⟨entry', hentry'⟩ := ne_none_iff_exists'.mp
    (mt getLast?_eq_none_iff.mp hbound'.nonempty)
  obtain ⟨hhash, hnumber⟩ := hbound.last_eq entry hentry
  obtain ⟨hhash', hnumber'⟩ := hbound'.last_eq entry' hentry'
  have hsame : entry.blockHash = entry'.blockHash := by rw [← hhash, ← hhash', hlast]
  have hmem := mem_of_getLast? hentry
  have hmem' := mem_of_getLast? hentry'
  obtain ⟨⟨hnumbers, -⟩, -⟩ := agree_of_blockHash hkeccak hroots hmem hmem'
    (hbound.checked entry hmem) (hbound'.checked entry' hmem') hsame
  apply HashChain.forall₂_of_linked _ hbound.linked hbound'.linked
  · intro older holder older' holder' hequal
    exact agree_of_blockHash hkeccak hroots holder holder' (hbound.checked older holder)
      (hbound'.checked older' holder') hequal
  · rw [hentry, hentry', map_some, map_some, hsame]
  · -- the last header carries the number of the last block
    omega

end Pair

/-- Two ranges of one last hash agree up to the transaction types of their receipts, and in these
too exactly when the flags in both streams hold the same types; decoding and verifying differ in
the bound on what is kept alone. -/
theorem finalized_range_binding :
    (∀ (stream stream' : Bytes) (chainId : ℕ) (genesisHash : B256)
      (range range' : VerifiedFinalizedRange Tx),
      decodeFinalizedRangeStream Tx stream chainId genesisHash = .ok range →
      decodeFinalizedRangeStream Tx stream' chainId genesisHash = .ok range' →
      Set.InjOn Keccak.keccak256 (range.hashed ∪ range'.hashed) →
      Set.InjOn (@ChainCrypto.calculateTransactionRoot Tx _) (range.rooted ∪ range'.rooted) →
      range.verification.fromBlock = range'.verification.fromBlock →
      range.verification.lastBlockHash = range'.verification.lastBlockHash →
      List.Forall₂ VerifiedFinalizedRangeEntry.AgreeButTypes range.entries range'.entries ∧
      (List.Forall₂ VerifiedFinalizedRangeEntry.Agree range.entries range'.entries ↔
        flagTypes stream = flagTypes stream')) ∧
    (∀ (stream : Bytes) (chainId : ℕ) (genesisHash : B256) (range : VerifiedFinalizedRange Tx),
      decodeFinalizedRangeStream Tx stream chainId genesisHash = .ok range →
      verifyFinalizedRangeStream Tx stream chainId genesisHash = .ok range.verification) ∧
    ∀ (stream : Bytes) (chainId : ℕ) (genesisHash : B256)
      (verification : FinalizedRangeVerification) (err : FinalizedRangeError),
      verifyFinalizedRangeStream Tx stream chainId genesisHash = .ok verification →
      decodeFinalizedRangeStream Tx stream chainId genesisHash = .error err →
      err = .materializedBytes := by
  refine ⟨?_, ?_, ?_⟩
  · intro stream stream' chainId genesisHash range range' hdecode hdecode' hkeccak hroots hfrom
      hlast
    have hbound := decode_bound hdecode
    have hbound' := decode_bound hdecode'
    have hagree := forall₂_agreeButTypes hbound hbound' hkeccak hroots hfrom hlast
    refine ⟨hagree, ?_⟩
    rw [← hbound.types_eq, ← hbound'.types_eq]
    generalize range.entries = entries, range'.entries = entries' at hagree
    induction hagree with
    | nil => simp
    | cons hhead _ ih =>
      simp [hhead.agree_iff, ih, (map_injective_iff.mpr (some_injective TxType)).eq_iff]
  · intro stream chainId genesisHash range hdecode
    have hfollows := @decode_follows Tx _ stream chainId genesisHash
    rw [hdecode] at hfollows
    generalize verifyFinalizedRangeStream Tx stream chainId genesisHash = result at hfollows ⊢
    cases hfollows
    rfl
  · intro stream chainId genesisHash verification err hverify hdecode
    have hfollows := @decode_follows Tx _ stream chainId genesisHash
    rw [hdecode, hverify] at hfollows
    cases hfollows
    rfl

end Binding

/-- Transactions are their own bytes, hashes are lengths, and headers are native ones. -/
@[reducible] def lengthRange : RangeCrypto Bytes where
  toChainCrypto := lengthChain
  blake3 _ := 0
  decodeConsensusHeader bytes :=
    (Gov5NativeHeader.decode bytes).toOption.map fun native => (native.header, [])

attribute [local instance] lengthRange

def rangeReceipt (txType : TxType) : EthereumReceipt := ⟨txType, true, 0x21, []⟩

def rangeReceipts (n : ℕ) : Bytes := encodeReceipts (replicate n (rangeReceipt .legacy))

def rangeHeader (parentHash : B256) (n : ℕ) (number gasLimit : BitVec 64) : Gov5NativeHeader where
  header := { sampleBlockHeader.header with
    parentHash, number, gasLimit, transactionsRoot := BitVec.ofNat 256 n
    receiptsRoot := BitVec.ofNat 256 (rangeReceipts n).length, gasUsed := 33
    baseFeePerGas := none, withdrawalsRoot := none }
  mobileRegistryRoot := none

def rangeHash (native : Gov5NativeHeader) : B256 := BitVec.ofNat 256 native.encode.length

def seventh : Gov5NativeHeader := rangeHeader 6 1 7 300

def eighth : Gov5NativeHeader := rangeHeader (rangeHash seventh) 2 8 70000

def rangeBlock (native : Gov5NativeHeader) (txs : List Bytes) : Bytes :=
  Rlp.item true (native.encode ++ Rlp.item true (txs.flatMap (Rlp.item false)))

def rangeFrame (native : Gov5NativeHeader) (txs : List Bytes) (compact : Bytes) : Bytes :=
  leBytes 8 native.header.number.toNat ++ B256.toBytes (rangeHash native) ++
    B256.toBytes native.header.parentHash ++ B256.toBytes 4 ++
    B256.toBytes native.header.receiptsRoot ++ B256.toBytes native.header.transactionsRoot ++
    Frame.frame native.encode ++ Frame.frame (rangeBlock native txs) ++ Frame.frame compact

/-- Blocks 7 and 8, with the given compact receipts of block 7. -/
def rangeStream (compact : Bytes) : Bytes :=
  MAGIC ++ leBytes 8 1143 ++ B256.toBytes 5 ++ leBytes 8 7 ++ leBytes 8 8 ++ leBytes 8 2 ++
    rangeFrame seventh [[1, 2, 3]] compact ++
    rangeFrame eighth [[4], [5]] [0x0c, 0x21, 0, 0x0e, 0x21, 0] ++ B256.toBytes 0

def rangeEntry (native : Gov5NativeHeader) (txs : List Bytes) (types : List TxType) :
    VerifiedFinalizedRangeEntry Bytes where
  number := native.header.number.toNat
  blockHash := rangeHash native
  parentHash := native.header.parentHash
  stateRoot := 4
  receiptsRoot := native.header.receiptsRoot
  transactionsRoot := native.header.transactionsRoot
  header := native.header
  headerRlp := native.encode
  blockRlp := rangeBlock native txs
  transactions := txs
  receipts := types.map rangeReceipt

def rangeOf (txType : TxType) : VerifiedFinalizedRange Bytes where
  verification := {
    chainId := 1143, genesisHash := 5, fromBlock := 7, toBlock := 8, blockCount := 2
    transactionCount := 3, firstParentHash := 6, lastBlockHash := rangeHash eighth
    lastStateRoot := 4, lastReceiptsRoot := eighth.header.receiptsRoot }
  entries := [rangeEntry seventh [[1, 2, 3]] [txType],
    rangeEntry eighth [[4], [5]] [.legacy, .eip1559]]

/-- The second and the third stream encode one type in two ways. -/
theorem range_decodes :
    decodeFinalizedRangeStream Bytes (rangeStream [0x0c, 0x21, 0]) 1143 5 = .ok (rangeOf .legacy) ∧
    decodeFinalizedRangeStream Bytes (rangeStream [0x0d, 0x21, 0]) 1143 5 =
      .ok (rangeOf .eip2930) ∧
    decodeFinalizedRangeStream Bytes (rangeStream [0x0f, 0x01, 0x21, 0]) 1143 5 =
      .ok (rangeOf .eip2930) := by
  simp only [← toOption_eq_some]
  decide +kernel

def rangeHashed : List Bytes :=
  [seventh.encode, rangeReceipts 1, eighth.encode, rangeReceipts 2]

theorem rangeOf_hashed {txType : TxType} {bytes : Bytes} (h : bytes ∈ (rangeOf txType).hashed) :
    bytes ∈ rangeHashed := by
  obtain ⟨entry, hentry, hbytes⟩ := h
  rcases mem_cons.mp hentry with rfl | hentry
  · rcases hbytes with hbytes | hbytes
    · exact mem_of_getElem? (i := 0) (congrArg some hbytes.symm)
    · exact mem_of_getElem? (i := 1) (congrArg some hbytes.symm)
  · rw [mem_singleton.mp hentry] at hbytes
    rcases hbytes with hbytes | hbytes
    · exact mem_of_getElem? (i := 2) (congrArg some hbytes.symm)
    · exact mem_of_getElem? (i := 3) (congrArg some hbytes.symm)

theorem rangeOf_keccak (txType txType' : TxType) : Set.InjOn Keccak.keccak256
    ((rangeOf txType).hashed ∪ (rangeOf txType').hashed) := by
  have hinj : ∀ a ∈ rangeHashed, ∀ b ∈ rangeHashed,
      Keccak.keccak256 a = Keccak.keccak256 b → a = b := by
    decide +kernel
  exact fun a ha b hb => hinj a (ha.elim rangeOf_hashed rangeOf_hashed) b
    (hb.elim rangeOf_hashed rangeOf_hashed)

theorem rangeOf_rooted (txType txType' : TxType) :
    Set.InjOn (@ChainCrypto.calculateTransactionRoot Bytes _)
      ((rangeOf txType).rooted ∪ (rangeOf txType').rooted) := by
  have hcases : ∀ txType, ∀ txs ∈ (rangeOf txType).rooted,
      txs = [[1, 2, 3]] ∨ txs = [[4], [5]] := by
    rintro txType txs ⟨entry, hentry, rfl⟩
    rcases mem_cons.mp hentry with rfl | hentry
    · exact .inl rfl
    · rw [mem_singleton.mp hentry]
      exact .inr rfl
  intro a ha b hb hab
  rcases ha.elim (hcases _ a) (hcases _ a) with rfl | rfl <;>
    rcases hb.elim (hcases _ b) (hcases _ b) with rfl | rfl
  · rfl
  · cases hab
  · cases hab
  · rfl

/-- Blocks 7 and 8, with the flags of the first receipt changed from a legacy to an access-list
transaction. -/
theorem receipt_type_unbound :
    ∃ range range' : VerifiedFinalizedRange Bytes,
      decodeFinalizedRangeStream Bytes (rangeStream [0x0c, 0x21, 0]) 1143 5 = .ok range ∧
      decodeFinalizedRangeStream Bytes (rangeStream [0x0d, 0x21, 0]) 1143 5 = .ok range' ∧
      Set.InjOn Keccak.keccak256 (range.hashed ∪ range'.hashed) ∧
      Set.InjOn (@ChainCrypto.calculateTransactionRoot Bytes _) (range.rooted ∪ range'.rooted) ∧
      range.verification.fromBlock = range'.verification.fromBlock ∧
      range.verification.lastBlockHash = range'.verification.lastBlockHash ∧
      ¬ List.Forall₂ VerifiedFinalizedRangeEntry.Agree range.entries range'.entries := by
  obtain ⟨hlegacy, haccess, -⟩ := range_decodes
  refine ⟨rangeOf .legacy, rangeOf .eip2930, hlegacy, haccess, rangeOf_keccak _ _,
    rangeOf_rooted _ _, rfl, rfl, ?_⟩
  intro hagree
  obtain ⟨⟨-, -, -, hreceipts⟩, -⟩ := List.forall₂_cons.mp hagree
  have htypes := congrArg (List.map EthereumReceipt.txType) hreceipts
  cases htypes

/-- Streams that differ in bytes, but not in the types in their flags. -/
theorem finalized_range_binding_sample :
    rangeStream [0x0d, 0x21, 0] ≠ rangeStream [0x0f, 0x01, 0x21, 0] ∧
    ∃ range range' : VerifiedFinalizedRange Bytes,
      decodeFinalizedRangeStream Bytes (rangeStream [0x0d, 0x21, 0]) 1143 5 = .ok range ∧
      decodeFinalizedRangeStream Bytes (rangeStream [0x0f, 0x01, 0x21, 0]) 1143 5 = .ok range' ∧
      List.Forall₂ VerifiedFinalizedRangeEntry.Agree range.entries range'.entries ∧
      verifyFinalizedRangeStream Bytes (rangeStream [0x0d, 0x21, 0]) 1143 5 =
        .ok range.verification := by
  obtain ⟨-, haccess, haccess'⟩ := range_decodes
  obtain ⟨hbinding, hverify, -⟩ := @finalized_range_binding Bytes _
  exact ⟨by decide +kernel, _, _, haccess, haccess',
    (hbinding _ _ _ _ _ _ haccess haccess' (rangeOf_keccak _ _) (rangeOf_rooted _ _) rfl
      rfl).2.mpr (by decide +kernel), hverify _ _ _ _ haccess⟩

end N42.Range
