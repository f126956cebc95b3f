import N42.Mobile.Replay

/-!
The phone (`n42-mobile/src/verifier.rs`, `n42-mobile-ffi/src/lib.rs`): it decodes a packet, checks
the header against the hash the packet names, executes with code from the packet or its cache, and
signs the receipts root it computed.
-/

namespace N42.Mobile

open Lib List Option
open Stm (U256 KECCAK_EMPTY)

section

variable [Evm]

inductive VerifyError where
  | headerDecode
  | headerHashMismatch (expected actual : B256)
  | txDecode
  | senderRecovery
  /-- A database error, or an error of the block itself. -/
  | execution (cause : Option StreamDbError)
  | missingBytecode (codeHash : B256)
  | invalidBytecode (codeHash : B256)
deriving DecidableEq

structure WitnessAccount where
  address : Address
  nonce : ℕ
  balance : U256
  codeHash : B256
  storage : List (U256 × U256)

structure VerificationPacket where
  blockHash : B256
  blockNumber : ℕ
  headerRlp : Bytes
  transactions : List Bytes
  witnessAccounts : List WitnessAccount
  uncachedBytecodes : List (B256 × Bytes)
  blockHashes : List (ℕ × B256)

structure StreamPacket where
  blockHash : B256
  headerRlp : Bytes
  transactions : List Bytes
  readLogData : Bytes
  bytecodes : List (B256 × Bytes)

def StreamPacket.headerInfo (packet : StreamPacket) : Option (ℕ × B256) :=
  (Evm.decodeHeader packet.headerRlp).map fun header => (Evm.number header, Evm.receiptsRoot header)

def decodeAndVerifyHeader (headerRlp : Bytes) (expectedHash : B256) :
    Except VerifyError Evm.Header :=
  match Evm.decodeHeader headerRlp with
  | none => .error .headerDecode
  | some header =>
    if Evm.hash header ≠ expectedHash then
      .error (.headerHashMismatch expectedHash (Evm.hash header))
    else .ok header

def recover (tx : Evm.Tx) : Option (Evm.Tx × Address) := (Evm.recoverSigner tx).map fun a => (tx, a)

def decodeAndRecover (transactions : List Bytes) : Except VerifyError (List (Evm.Tx × Address)) :=
  match transactions.mapM Evm.decode2718 with
  | none => .error .txDecode
  | some txs =>
    match txs.mapM recover with
    | none => .error .senderRecovery
    | some recovered => .ok recovered

/-- `CachedReads` over an empty database, the latest insertion first. -/
structure CachedReads where
  accounts : List (Address × AccountInfo × List (U256 × U256))
  blockHashes : List (ℕ × B256)

variable (packet : VerificationPacket)

/-- The code of a witness account: from the cache, else from the packet. -/
def witnessCode (wa : WitnessAccount) (cache : CodeCache) :
    Except VerifyError (Option Bytes) × CodeCache :=
  if wa.codeHash = KECCAK_EMPTY then (.ok none, cache)
  else
    match (cache.get wa.codeHash).1.or (packet.uncachedBytecodes.reverse.lookup wa.codeHash) with
    | some code =>
      if Evm.validRaw code then (.ok (some code), (cache.get wa.codeHash).2)
      else (.error (.invalidBytecode wa.codeHash), (cache.get wa.codeHash).2)
    | none => (.error (.missingBytecode wa.codeHash), (cache.get wa.codeHash).2)

def insertWitness (packet : VerificationPacket) :
    List WitnessAccount → CachedReads → CodeCache → Except VerifyError CachedReads × CodeCache
  | [], reads, cache => (.ok reads, cache)
  | wa :: rest, reads, cache => andThen (witnessCode packet wa cache) fun code cache =>
      let info : AccountInfo := ⟨⟨wa.balance, wa.nonce, wa.codeHash⟩, code⟩
      insertWitness packet rest
        { reads with accounts := (wa.address, info, wa.storage) :: reads.accounts } cache

variable (cache : CodeCache)

def buildCachedReads : Except VerifyError CachedReads × CodeCache :=
  insertWitness packet packet.witnessAccounts ⟨[], packet.blockHashes.reverse⟩ cache

/-- What is not cached is asked of `EmptyDB`: no account, empty code, zero slots, and the hash of
the number's decimal digits as a block hash. -/
def CachedReads.database : Database CachedReads StreamDbError where
  basic reads address := (.ok ((reads.accounts.lookup address).map Prod.fst), reads)
  codeByHash reads _ := (.ok [], reads)
  storage reads address index :=
    (.ok (((reads.accounts.lookup address).bind fun account =>
      account.2.reverse.lookup index).getD 0), reads)
  blockHash reads number :=
    (.ok ((reads.blockHashes.lookup number).getD
      (Keccak.keccak256 (toString number).toUTF8.toList)), reads)

structure Verified where
  header : Evm.Header
  transactions : List Evm.Tx
  executed : List (B256 × Bytes)
  computedReceiptsRoot : B256

def conclude {σ : Type} (header : Evm.Header) (recovered : List (Evm.Tx × Address))
    (run : Except StreamDbError (Option B256) × Journal σ) : Except VerifyError Verified :=
  match run.1 with
  | .ok (some root) => .ok ⟨header, recovered.map Prod.fst, run.2.executed, root⟩
  | .ok none => .error (.execution none)
  | .error cause => .error (.execution (some cause))

def verifyBlock : Except VerifyError Verified × CodeCache :=
  match decodeAndVerifyHeader packet.headerRlp packet.blockHash with
  | .error e => (.error e, cache)
  | .ok header =>
    match decodeAndRecover packet.transactions with
    | .error e => (.error e, cache)
    | .ok recovered => andThen (buildCachedReads packet cache) fun reads cache =>
        (conclude header recovered
          (Journal.run CachedReads.database (Evm.executeOne header recovered) ⟨reads, [], []⟩),
          cache)

def updateCacheAfterVerify : CodeCache :=
  cache.putAll packet.uncachedBytecodes

variable (packet : StreamPacket)

def replay (header : Evm.Header) (recovered : List (Evm.Tx × Address)) (cache : CodeCache) :
    Except StreamDbError (Option B256) × Journal StreamReplayDB :=
  Journal.run StreamReplayDB.database (Evm.executeOne header recovered)
    ⟨.new packet.readLogData packet.bytecodes.reverse cache, [], []⟩

def verifyBlockStream (cache : CodeCache) : Except VerifyError Verified × CodeCache :=
  match decodeAndVerifyHeader packet.headerRlp packet.blockHash with
  | .error e => (.error e, cache)
  | .ok header =>
    match decodeAndRecover packet.transactions with
    | .error e => (.error e, cache)
    | .ok recovered =>
      match packet.bytecodes.find? fun entry => !Evm.validRaw entry.2 with
      | some (codeHash, _) => (.error (.invalidBytecode codeHash), cache)
      | none =>
        let run := replay packet header recovered cache
        (conclude header recovered run, run.2.db.codeCache)

def updateCacheAfterStreamVerify (cache : CodeCache) : CodeCache :=
  cache.putAll packet.bytecodes

inductive Packet where
  | v1 (packet : VerificationPacket)
  | v2 (packet : StreamPacket)

/-- The content of a signed receipt, with the verification it was signed for. -/
structure SignedReceipt where
  blockHash : B256
  blockNumber : ℕ
  computedReceiptsRoot : B256
  verified : Verified

structure Phone where
  codeCache : CodeCache
  signed : List SignedReceipt

def Phone.new : Phone := ⟨.new DEFAULT_CODE_CACHE_CAPACITY, []⟩

def Phone.sign (phone : Phone) (blockHash : B256) (blockNumber : ℕ)
    (result : Except VerifyError Verified × CodeCache) (update : CodeCache → CodeCache) : Phone :=
  match result with
  | (.error _, cache) => { phone with codeCache := cache }
  | (.ok verified, cache) =>
    { codeCache := update cache
      signed := ⟨blockHash, blockNumber, verified.computedReceiptsRoot, verified⟩ :: phone.signed }

def n42VerifyAndSend (phone : Phone) : Packet → Phone
  | .v2 packet =>
    phone.sign packet.blockHash (packet.headerInfo.getD (0, 0)).1
      (verifyBlockStream packet phone.codeCache) (updateCacheAfterStreamVerify packet)
  | .v1 packet =>
    phone.sign packet.blockHash packet.blockNumber
      (verifyBlock packet phone.codeCache) (updateCacheAfterVerify packet)

inductive HubMessage where
  | cacheSync (msg : CacheSyncMessage)
  | packet (packet : Packet)

def Phone.handle (phone : Phone) : HubMessage → Phone
  | .cacheSync msg => { phone with codeCache := applyCacheSync msg phone.codeCache }
  | .packet packet => n42VerifyAndSend phone packet

/-- The receipt is about the block it names. -/
structure SignedReceipt.Bound (receipt : SignedReceipt) : Prop where
  hash : Evm.hash receipt.verified.header = receipt.blockHash
  number : Evm.number receipt.verified.header = receipt.blockNumber
  root : receipt.verified.computedReceiptsRoot = receipt.computedReceiptsRoot
  transactions : Evm.calculateTransactionRoot receipt.verified.transactions =
    Evm.transactionsRoot receipt.verified.header
  code : ∀ entry ∈ receipt.verified.executed, Keccak.keccak256 entry.2 = entry.1

/-- Every code stands under its hash. -/
def Hashed (codes : List (B256 × Bytes)) : Prop :=
  ∀ entry ∈ codes, Keccak.keccak256 entry.2 = entry.1

variable {codes : List (B256 × Bytes)} {cache : CodeCache} {packet : VerificationPacket}
  {recovered : List (Evm.Tx × Address)}

theorem Hashed.lookup (h : Hashed codes) {codeHash : B256} {code : Bytes}
    (hlookup : codes.lookup codeHash = some code) : Keccak.keccak256 code = codeHash := by
  obtain ⟨before, after, hcodes, -⟩ := lookup_eq_some_iff.mp hlookup
  exact h (codeHash, code) (by simp [hcodes])

theorem Hashed.reverse (h : Hashed codes) : Hashed codes.reverse :=
  fun entry hentry => h entry (mem_reverse.mp hentry)

theorem Hashed.putAll (h : Hashed cache.entries) (hcodes : Hashed codes) :
    Hashed (cache.putAll codes).entries := by
  intro entry hentry
  rcases Lru.mem_putAll hentry with hentry | ⟨hentry, -⟩
  · exact hcodes entry hentry
  · exact h entry hentry

theorem Hashed.get (h : Hashed cache.entries) (codeHash : B256) :
    Hashed (cache.get codeHash).2.entries :=
  fun entry hentry => h entry (Lru.mem_get hentry)

theorem Hashed.of_get (h : Hashed cache.entries) {codeHash : B256} {code : Bytes}
    (hget : (cache.get codeHash).1 = some code) : Keccak.keccak256 code = codeHash :=
  h (codeHash, code) (Lru.mem_of_get hget)

theorem hashed_applyCacheSync {msg : CacheSyncMessage} (hmsg : Hashed msg.codes)
    (h : Hashed cache.entries) : Hashed (applyCacheSync msg cache).entries := by
  have hpop : ∀ (hints : List B256) (cache : CodeCache), Hashed cache.entries →
      Hashed (hints.foldl Lru.pop cache).entries := by
    intro hints
    induction hints with
    | nil => exact fun cache h => h
    | cons hint hints ih =>
      exact fun cache h => ih _ fun entry hentry => h entry (mem_of_mem_filter hentry)
  exact hpop _ _ (h.putAll hmsg)

/-- A replayed stream hands out the code of the packet and of the cache. -/
theorem StreamReplayDB.supplies :
    StreamReplayDB.database.Supplies
      (fun db => Hashed db.bytecodes ∧ Hashed db.codeCache.entries) (fun _ => True)
      (fun codeHash code => Keccak.keccak256 code = codeHash) where
  basic db address h := by
    obtain ⟨hbytecodes, hcache⟩ := db.sameCode_basic address
    exact ⟨hbytecodes ▸ h.1, hcache ▸ h.2⟩
  info db address info _ hinfo := by
    refine ⟨fun code hcode => ?_, fun _ => .inr trivial⟩
    rw [db.basic_code address hinfo] at hcode
    cases hcode
  codeByHash db codeHash h := by
    change Hashed (db.codeByHash codeHash).2.bytecodes ∧
      Hashed (db.codeByHash codeHash).2.codeCache.entries
    have hcache := h.2.get codeHash
    unfold StreamReplayDB.codeByHash
    split
    · exact h
    · split
      · exact h
      · next code cache hget =>
        rw [hget] at hcache
        split
        · refine ⟨?_, hcache⟩
          exact forall_mem_cons.mpr ⟨h.2.of_get (congrArg Prod.fst hget), h.1⟩
        · exact ⟨h.1, hcache⟩
  code db codeHash code h _ hcode := by
    change (db.codeByHash codeHash).1 = .ok code at hcode
    unfold StreamReplayDB.codeByHash at hcode
    split at hcode
    · next code' hlookup =>
      rw [← Except.ok.inj hcode]
      exact h.1.lookup hlookup
    · split at hcode
      · cases hcode
      · next code' cache hget =>
        split at hcode
        · rw [← Except.ok.inj hcode]
          exact h.2.of_get (congrArg Prod.fst hget)
        · cases hcode
  storage db address index h := by
    obtain ⟨hbytecodes, hcache⟩ := db.sameCode_storage address index
    exact ⟨hbytecodes ▸ h.1, hcache ▸ h.2⟩
  blockHash db number h := by
    obtain ⟨hbytecodes, hcache⟩ := db.sameCode_blockHash number
    exact ⟨hbytecodes ▸ h.1, hcache ▸ h.2⟩

/-- The witness accounts hold their code, unless it is empty. -/
def CachedReads.Sound (reads : CachedReads) : Prop :=
  ∀ account ∈ reads.accounts,
    (∀ code, account.2.1.code = some code → Keccak.keccak256 code = account.2.1.codeHash) ∧
      (account.2.1.code = none → account.2.1.codeHash = KECCAK_EMPTY)

theorem CachedReads.supplies :
    CachedReads.database.Supplies CachedReads.Sound (fun _ => False)
      (fun codeHash code => Keccak.keccak256 code = codeHash) where
  basic _ _ h := h
  info reads address info h hinfo := by
    have hlookup : (reads.accounts.lookup address).map Prod.fst = some info := Except.ok.inj hinfo
    obtain ⟨account, haccount, rfl⟩ := map_eq_some_iff.mp hlookup
    obtain ⟨before, after, haccounts, -⟩ := lookup_eq_some_iff.mp haccount
    obtain ⟨hcode, hnone⟩ := h (address, account) (by simp [haccounts])
    exact ⟨hcode, fun hc => .inl (hnone hc)⟩
  codeByHash _ _ h := h
  code _ _ _ _ hask _ := hask.elim
  storage _ _ _ h := h
  blockHash _ _ h := h

theorem witnessCode_spec (wa : WitnessAccount) (hpacket : Hashed packet.uncachedBytecodes)
    (hcache : Hashed cache.entries) :
    Hashed (witnessCode packet wa cache).2.entries ∧
      ∀ code, (witnessCode packet wa cache).1 = .ok code →
        (∀ c, code = some c → Keccak.keccak256 c = wa.codeHash) ∧
          (code = none → wa.codeHash = KECCAK_EMPTY) := by
  unfold witnessCode
  split
  · next hempty =>
    refine ⟨hcache, fun code h => ?_⟩
    obtain rfl := Except.ok.inj h
    exact ⟨by simp, fun _ => hempty⟩
  · split
    · next code hcode =>
      have hhash : Keccak.keccak256 code = wa.codeHash := by
        rcases or_eq_some_iff.mp hcode with h | ⟨-, h⟩
        · exact hcache.of_get h
        · exact hpacket.reverse.lookup h
      split
      · refine ⟨hcache.get _, fun c h => ?_⟩
        obtain rfl := Except.ok.inj h
        exact ⟨fun c hc => Option.some.inj hc ▸ hhash, by simp⟩
      · exact ⟨hcache.get _, by simp⟩
    · exact ⟨hcache.get _, by simp⟩

theorem insertWitness_spec (hpacket : Hashed packet.uncachedBytecodes)
    (accounts : List WitnessAccount) {reads : CachedReads} (hreads : reads.Sound)
    (hcache : Hashed cache.entries) :
    Hashed (insertWitness packet accounts reads cache).2.entries ∧
      ∀ result, (insertWitness packet accounts reads cache).1 = .ok result → result.Sound := by
  induction accounts generalizing reads cache with
  | nil =>
    refine ⟨hcache, fun result h => ?_⟩
    rw [← Except.ok.inj h]
    exact hreads
  | cons wa accounts ih =>
    obtain ⟨hcache', hcode⟩ := witnessCode_spec wa hpacket hcache
    have hinsert : ∀ code, (witnessCode packet wa cache).1 = .ok code →
        CachedReads.Sound { reads with
          accounts := (wa.address, ⟨⟨wa.balance, wa.nonce, wa.codeHash⟩, code⟩, wa.storage) ::
            reads.accounts } := by
      intro code h account haccount
      rcases mem_cons.mp haccount with rfl | haccount
      · exact hcode code h
      · exact hreads account haccount
    constructor
    · exact andThen_snd (I := fun c : CodeCache => Hashed c.entries) hcache' fun code h =>
        (ih (hinsert code h) hcache').1
    · intro result h
      obtain ⟨code, hok, hrest⟩ := andThen_fst h
      exact (ih (hinsert code hok) hcache').2 result hrest

theorem decodeAndVerifyHeader_eq_ok {headerRlp : Bytes} {expected : B256} {header : Evm.Header}
    (h : decodeAndVerifyHeader headerRlp expected = .ok header) :
    Evm.decodeHeader headerRlp = some header ∧ Evm.hash header = expected := by
  unfold decodeAndVerifyHeader at h
  split at h
  · cases h
  · next decoded hdecoded =>
    split at h
    · cases h
    · next hhash =>
      obtain rfl := Except.ok.inj h
      exact ⟨hdecoded, not_not.mp hhash⟩

theorem map_fst_recover {txs : List Evm.Tx} (h : txs.mapM recover = some recovered) :
    recovered.map Prod.fst = txs := by
  induction txs generalizing recovered with
  | nil =>
    obtain rfl : [] = recovered := by simpa using h
    rfl
  | cons tx txs ih =>
    rw [mapM_cons, bind_eq_bind, bind_eq_some_iff] at h
    obtain ⟨pair, hpair, h⟩ := h
    rw [bind_eq_bind, bind_eq_some_iff] at h
    obtain ⟨rest, hrest, h⟩ := h
    obtain ⟨signer, -, rfl⟩ := map_eq_some_iff.mp hpair
    rw [← Option.some.inj h, map_cons, ih hrest]

theorem decodeAndRecover_eq_ok {transactions : List Bytes}
    (h : decodeAndRecover transactions = .ok recovered) :
    transactions.mapM Evm.decode2718 = some (recovered.map Prod.fst) := by
  unfold decodeAndRecover at h
  split at h
  · cases h
  · next txs htxs =>
    split at h
    · cases h
    · next recovered' hrecovered =>
      obtain rfl := Except.ok.inj h
      rw [htxs, map_fst_recover hrecovered]

theorem conclude_eq_ok {σ : Type} {header : Evm.Header}
    {run : Except StreamDbError (Option B256) × Journal σ} {verified : Verified}
    (h : conclude header recovered run = .ok verified) :
    verified.header = header ∧ verified.transactions = recovered.map Prod.fst ∧
      verified.executed = run.2.executed := by
  unfold conclude at h
  split at h
  · obtain rfl := Except.ok.inj h
    exact ⟨rfl, rfl, rfl⟩
  · cases h
  · cases h

/-- What a successful verification of a header and transactions says, whatever the packet. -/
structure Verified.Of (verified : Verified) (blockHash : B256) (headerRlp : Bytes)
    (transactions : List Bytes) : Prop where
  decoded : Evm.decodeHeader headerRlp = some verified.header
  hash : Evm.hash verified.header = blockHash
  transactions : transactions.mapM Evm.decode2718 = some verified.transactions
  code : Hashed verified.executed

theorem verifyBlock_spec (hpacket : Hashed packet.uncachedBytecodes)
    (hcache : Hashed cache.entries) :
    Hashed (verifyBlock packet cache).2.entries ∧
      ∀ verified, (verifyBlock packet cache).1 = .ok verified →
        verified.Of packet.blockHash packet.headerRlp packet.transactions := by
  unfold verifyBlock
  split
  · exact ⟨hcache, by simp⟩
  · next header hheader =>
    obtain ⟨hdecoded, hhash⟩ := decodeAndVerifyHeader_eq_ok hheader
    split
    · exact ⟨hcache, by simp⟩
    · next recovered hrecovered =>
      have hempty : CachedReads.Sound ⟨[], packet.blockHashes.reverse⟩ := by
        simp [CachedReads.Sound]
      obtain ⟨hcache', hreads⟩ := insertWitness_spec hpacket packet.witnessAccounts hempty hcache
      constructor
      · exact andThen_snd (I := fun c : CodeCache => Hashed c.entries) hcache' fun _ _ => hcache'
      intro verified h
      obtain ⟨reads, hok, hrun⟩ := andThen_fst h
      obtain ⟨rfl, htxs, hexecuted⟩ := conclude_eq_ok hrun
      have hsound : Journal.Sound CachedReads.Sound (fun _ => False)
          (fun codeHash code => Keccak.keccak256 code = codeHash) (⟨reads, [], []⟩ : Journal _) :=
        ⟨hreads reads hok, by simp, by simp⟩
      refine ⟨hdecoded, hhash, htxs ▸ decodeAndRecover_eq_ok hrecovered, ?_⟩
      rw [hexecuted]
      exact (hsound.run CachedReads.supplies _).executed

theorem verifyBlockStream_spec {packet : StreamPacket} (hpacket : Hashed packet.bytecodes)
    (hcache : Hashed cache.entries) :
    Hashed (verifyBlockStream packet cache).2.entries ∧
      ∀ verified, (verifyBlockStream packet cache).1 = .ok verified →
        verified.Of packet.blockHash packet.headerRlp packet.transactions := by
  unfold verifyBlockStream
  split
  · exact ⟨hcache, by simp⟩
  · next header hheader =>
    obtain ⟨hdecoded, hhash⟩ := decodeAndVerifyHeader_eq_ok hheader
    split
    · exact ⟨hcache, by simp⟩
    · next recovered hrecovered =>
      split
      · exact ⟨hcache, by simp⟩
      · have hsound : (replay packet header recovered cache).2.Sound
            (fun db => Hashed db.bytecodes ∧ Hashed db.codeCache.entries) (fun _ => True)
            (fun codeHash code => Keccak.keccak256 code = codeHash) := by
          apply Journal.Sound.run StreamReplayDB.supplies
          exact ⟨⟨hpacket.reverse, hcache⟩, by simp, by simp⟩
        refine ⟨hsound.db.2, fun verified h => ?_⟩
        obtain ⟨rfl, htxs, hexecuted⟩ := conclude_eq_ok h
        refine ⟨hdecoded, hhash, htxs ▸ decodeAndRecover_eq_ok hrecovered, ?_⟩
        rw [hexecuted]
        exact hsound.executed

/-- The decoded transactions of a packet are those its header commits to. -/
def BodyMatches (headerRlp : Bytes) (transactions : List Bytes) : Prop :=
  ∀ header txs, Evm.decodeHeader headerRlp = some header →
    transactions.mapM Evm.decode2718 = some txs →
      Evm.calculateTransactionRoot txs = Evm.transactionsRoot header

/-- What the hub would have to keep to, since the phone does not check it: codes stand under
their hashes, the transactions belong to the header, and a V1 packet names the header's
number. -/
def HubMessage.Honest : HubMessage → Prop
  | .cacheSync msg => Hashed msg.codes
  | .packet (.v2 stream) =>
    Hashed stream.bytecodes ∧ BodyMatches stream.headerRlp stream.transactions
  | .packet (.v1 witness) =>
    Hashed witness.uncachedBytecodes ∧ BodyMatches witness.headerRlp witness.transactions ∧
      ∀ header, Evm.decodeHeader witness.headerRlp = some header →
        Evm.number header = witness.blockNumber

/-- Every code of the cache stands under its hash, and every receipt is about its block. -/
structure Phone.Sound (phone : Phone) : Prop where
  cache : Hashed phone.codeCache.entries
  signed : ∀ receipt ∈ phone.signed, receipt.Bound

theorem Phone.Sound.sign {phone : Phone} (h : phone.Sound) {blockHash : B256} {blockNumber : ℕ}
    {result : Except VerifyError Verified × CodeCache} {update : CodeCache → CodeCache}
    (hcache : Hashed result.2.entries)
    (hupdate : ∀ cache : CodeCache, Hashed cache.entries → Hashed (update cache).entries)
    (hbound : ∀ verified, result.1 = .ok verified →
      SignedReceipt.Bound ⟨blockHash, blockNumber, verified.computedReceiptsRoot, verified⟩) :
    (phone.sign blockHash blockNumber result update).Sound := by
  rcases result with ⟨result, cache⟩
  cases result with
  | error e => exact ⟨hcache, h.signed⟩
  | ok verified =>
    refine ⟨hupdate cache hcache, ?_⟩
    exact forall_mem_cons.mpr ⟨hbound verified rfl, h.signed⟩

theorem Verified.Of.bound {verified : Verified} {blockHash : B256} {headerRlp : Bytes}
    {transactions : List Bytes} (h : verified.Of blockHash headerRlp transactions)
    (hbody : BodyMatches headerRlp transactions) {blockNumber : ℕ}
    (hnumber : Evm.number verified.header = blockNumber) :
    SignedReceipt.Bound ⟨blockHash, blockNumber, verified.computedReceiptsRoot, verified⟩ where
  hash := h.hash
  number := hnumber
  root := rfl
  transactions := hbody _ _ h.decoded h.transactions
  code := h.code

theorem Phone.Sound.handle {phone : Phone} (h : phone.Sound) {message : HubMessage}
    (honest : message.Honest) : (phone.handle message).Sound := by
  cases message with
  | cacheSync msg => exact ⟨hashed_applyCacheSync honest h.cache, h.signed⟩
  | packet packet =>
    cases packet with
    | v1 packet =>
      obtain ⟨hcodes, hbody, hnumber⟩ := honest
      obtain ⟨hcache, hverified⟩ := verifyBlock_spec hcodes h.cache
      apply h.sign hcache fun cache hc => hc.putAll hcodes
      intro verified hok
      exact (hverified verified hok).bound hbody (hnumber _ (hverified verified hok).decoded)
    | v2 packet =>
      obtain ⟨hcodes, hbody⟩ := honest
      obtain ⟨hcache, hverified⟩ := verifyBlockStream_spec hcodes h.cache
      apply h.sign hcache fun cache hc => hc.putAll hcodes
      intro verified hok
      apply (hverified verified hok).bound hbody
      rw [StreamPacket.headerInfo, (hverified verified hok).decoded]
      rfl

/-- A phone that only ever hears from an honest hub signs receipts about the blocks they
name. -/
theorem receipts_bound (history : List HubMessage) (honest : ∀ message ∈ history, message.Honest) :
    ∀ receipt ∈ (history.foldl Phone.handle Phone.new).signed, receipt.Bound := by
  have hrun : ∀ phone : Phone, phone.Sound → (history.foldl Phone.handle phone).Sound := by
    induction history with
    | nil => exact fun phone h => h
    | cons message history ih =>
      intro phone h
      apply ih fun m hm => honest m (mem_cons_of_mem _ hm)
      exact h.handle (honest message mem_cons_self)
  have hcache : Hashed Phone.new.codeCache.entries := by
    simp [Phone.new, CodeCache.new, Lru.new, Hashed]
  exact (hrun Phone.new ⟨hcache, by simp [Phone.new]⟩).signed

end

/-- A header is its own encoding; its hash is the number it spells and its number is its length.
The root of some transactions is how many they are, and a block runs the code of account `0`. -/
local instance sampleEvm : Evm where
  Header := Bytes
  Tx := Bytes
  decodeHeader := some
  hash header := BitVec.ofNat 256 (beNat header)
  number := List.length
  receiptsRoot _ := 0
  transactionsRoot _ := 0
  decode2718 := some
  recoverSigner _ := some 0
  calculateTransactionRoot txs := BitVec.ofNat 256 txs.length
  keccak256 code := BitVec.ofNat 256 (beNat code)
  validRaw _ := true
  executeOne _ _ := .code 0 fun _ => .finish (some 3)

def sampleLog : Bytes := [1, 0, 0, 0, 0x21] ++ beBytes 32 7

/-- A cache sync with code `[code]` under hash `7`, then a packet for the block `5` with the
given transactions. -/
def streamHistory (code : UInt8) (transactions : List Bytes) : List HubMessage :=
  [.cacheSync ⟨[(7, [code])], []⟩, .packet (.v2 ⟨5, [5], transactions, sampleLog, []⟩)]

theorem receipts_bound_stream :
    (((streamHistory 7 []).foldl Phone.handle Phone.new).signed.length = 1) ∧
      ∀ receipt ∈ ((streamHistory 7 []).foldl Phone.handle Phone.new).signed, receipt.Bound := by
  refine ⟨by decide, receipts_bound _ ?_⟩
  intro message hmessage
  rcases mem_cons.mp hmessage with rfl | hmessage
  · exact fun entry hentry => by
      rw [mem_singleton.mp hentry]
      rfl
  · rw [mem_singleton.mp hmessage]
    refine ⟨fun entry hentry => absurd hentry not_mem_nil, ?_⟩
    intro header txs _ htxs
    obtain rfl : [] = txs := by simpa using htxs
    rfl

def misnumbered : HubMessage := .packet (.v1 ⟨5, 9, [5], [], [], [], []⟩)

theorem misnumbered_signed :
    (9, 1) ∈ ((streamHistory 1 [[]] ++ [misnumbered]).foldl Phone.handle Phone.new).signed.map
      fun receipt => (receipt.blockNumber, Evm.number receipt.verified.header) := by
  decide

theorem misrooted_signed : (1, [(7, [1])]) ∈
    ((streamHistory 1 [[]] ++ [misnumbered]).foldl Phone.handle Phone.new).signed.map
      fun receipt => (Evm.calculateTransactionRoot receipt.verified.transactions,
        receipt.verified.executed) := by
  decide

/-- The phone signs for a number that is not the header's, for transactions the header does not
commit to, and for code that does not hash to the code hash it ran under. -/
theorem receipts_unbound :
    let signed := ((streamHistory 1 [[]] ++ [misnumbered]).foldl Phone.handle Phone.new).signed
    (∃ receipt ∈ signed, Evm.number receipt.verified.header ≠ receipt.blockNumber) ∧
      ∃ receipt ∈ signed,
        Evm.calculateTransactionRoot receipt.verified.transactions ≠
            Evm.transactionsRoot receipt.verified.header ∧
          ∃ entry ∈ receipt.verified.executed, Keccak.keccak256 entry.2 ≠ entry.1 := by
  constructor
  · obtain ⟨receipt, hreceipt, hnumber⟩ := mem_map.mp misnumbered_signed
    simp only [Prod.mk.injEq] at hnumber
    refine ⟨receipt, hreceipt, ?_⟩
    rw [hnumber.1, hnumber.2]
    decide
  · obtain ⟨receipt, hreceipt, hbody⟩ := mem_map.mp misrooted_signed
    simp only [Prod.mk.injEq] at hbody
    refine ⟨receipt, hreceipt, ?_, (7, [1]), by simp [hbody.2], by decide⟩
    rw [hbody.1]
    exact show (1 : B256) ≠ 0 by decide

end N42.Mobile
