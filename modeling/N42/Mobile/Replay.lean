import N42.Lib.Cache
import N42.Stm.Memory

/-!
The database a phone replays a block against (`n42-mobile/src/verifier.rs`): a stream of values
without keys for a V2 packet (`StreamReplayDB`), a keyed witness for a V1 packet (`CachedReads`).
-/

namespace N42.Mobile

open Lib
open Stm (U256 KECCAK_EMPTY)

/-- `AccountInfo` of `revm`, with the code if the database sent it along. -/
structure AccountInfo extends Stm.AccountInfo where
  code : Option Bytes

/-- What executing a block asks of its database. It ends with the root of the receipts, or with
a block execution error. -/
inductive Exec where
  | finish (receiptsRoot : Option B256)
  | basic (address : Address) (next : Option AccountInfo → Exec)
  | code (address : Address) (next : Bytes → Exec)
  | storage (address : Address) (index : U256) (next : U256 → Exec)
  | blockHash (number : ℕ) (next : B256 → Exec)

/-- The `Database` trait over a state `σ`. -/
structure Database (σ ε : Type) where
  basic : σ → Address → Except ε (Option AccountInfo) × σ
  codeByHash : σ → B256 → Except ε Bytes × σ
  storage : σ → Address → U256 → Except ε U256 × σ
  blockHash : σ → ℕ → Except ε B256 × σ

/-- Go on with the value of a step, or stop with its error. The state is kept either way. -/
def andThen {σ ε α β : Type} (step : Except ε α × σ) (next : α → σ → Except ε β × σ) :
    Except ε β × σ :=
  match step with
  | (.ok a, s) => next a s
  | (.error e, s) => (.error e, s)

/-- The accounts loaded so far, and the code executed under each code hash. -/
structure Journal (σ : Type) where
  db : σ
  loaded : List (Address × Option AccountInfo)
  executed : List (B256 × Bytes)

namespace Journal

variable {σ ε α β : Type} (D : Database σ ε)

def ask (j : Journal σ) (answer : Except ε α × σ) : Except ε α × Journal σ :=
  (answer.1, { j with db := answer.2 })

def account (j : Journal σ) (address : Address) : Except ε (Option AccountInfo) × Journal σ :=
  match j.loaded.lookup address with
  | some info => (.ok info, j)
  | none => andThen (j.ask (D.basic j.db address)) fun info j =>
      (.ok info, { j with loaded := (address, info) :: j.loaded })

def execute (j : Journal σ) (codeHash : B256) (code : Bytes) : Except ε Bytes × Journal σ :=
  (.ok code, { j with executed := (codeHash, code) :: j.executed })

def code (j : Journal σ) (address : Address) : Except ε Bytes × Journal σ :=
  andThen (j.account D address) fun info j =>
    match info with
    | none => (.ok [], j)
    | some info =>
      match info.code with
      | some code => j.execute info.codeHash code
      | none =>
        if info.codeHash = KECCAK_EMPTY then (.ok [], j)
        else andThen (j.ask (D.codeByHash j.db info.codeHash)) fun code j =>
          j.execute info.codeHash code

def run : Exec → Journal σ → Except ε (Option B256) × Journal σ
  | .finish receiptsRoot, j => (.ok receiptsRoot, j)
  | .basic address next, j => andThen (j.account D address) fun info j => run (next info) j
  | .code address next, j => andThen (j.code D address) fun code j => run (next code) j
  | .storage address index next, j =>
    andThen (j.ask (D.storage j.db address index)) fun value j => run (next value) j
  | .blockHash number next, j =>
    andThen (j.ask (D.blockHash j.db number)) fun hash j => run (next hash) j

end Journal

variable {σ ε α β : Type} {step : Except ε α × σ} {next : α → σ → Except ε β × σ}

theorem andThen_snd {I : σ → Prop} (hstep : I step.2)
    (hnext : ∀ a, step.1 = .ok a → I (next a step.2).2) : I (andThen step next).2 := by
  rcases step with ⟨result, s⟩
  cases result with
  | ok a => exact hnext a rfl
  | error e => exact hstep

theorem andThen_fst {b : β} (h : (andThen step next).1 = .ok b) :
    ∃ a, step.1 = .ok a ∧ (next a step.2).1 = .ok b := by
  rcases step with ⟨result, s⟩
  cases result with
  | ok a => exact ⟨a, rfl, h⟩
  | error e => exact absurd h (by simp [andThen])

section Provenance

variable {σ ε : Type}

/-- Under the invariant `I`, code the database hands out for a hash satisfies `P`. An account
without code is one of the empty code hash, or the database may be asked for its code. -/
structure Database.Supplies (D : Database σ ε) (I : σ → Prop) (askable : B256 → Prop)
    (P : B256 → Bytes → Prop) : Prop where
  basic : ∀ db address, I db → I (D.basic db address).2
  info : ∀ db address info, I db → (D.basic db address).1 = .ok (some info) →
    (∀ code, info.code = some code → P info.codeHash code) ∧
      (info.code = none → info.codeHash = KECCAK_EMPTY ∨ askable info.codeHash)
  codeByHash : ∀ db h, I db → I (D.codeByHash db h).2
  code : ∀ db h code, I db → askable h → (D.codeByHash db h).1 = .ok code → P h code
  storage : ∀ db address index, I db → I (D.storage db address index).2
  blockHash : ∀ db number, I db → I (D.blockHash db number).2

variable {D : Database σ ε} {I : σ → Prop} {askable : B256 → Prop} {P : B256 → Bytes → Prop}

/-- What `Supplies` says of an account, kept for the accounts loaded. -/
structure Journal.Sound (I : σ → Prop) (askable : B256 → Prop) (P : B256 → Bytes → Prop)
    (j : Journal σ) : Prop where
  db : I j.db
  loaded : ∀ address info, j.loaded.lookup address = some (some info) →
    (∀ code, info.code = some code → P info.codeHash code) ∧
      (info.code = none → info.codeHash = KECCAK_EMPTY ∨ askable info.codeHash)
  executed : ∀ e ∈ j.executed, P e.1 e.2

variable {j : Journal σ}

theorem Journal.Sound.ask {α : Type} (hj : j.Sound I askable P) {answer : Except ε α × σ}
    (h : I answer.2) : (j.ask answer).2.Sound I askable P :=
  ⟨h, hj.loaded, hj.executed⟩

theorem Journal.Sound.execute (hj : j.Sound I askable P) {h : B256} {code : Bytes}
    (hcode : P h code) : (j.execute h code : Except ε Bytes × _).2.Sound I askable P := by
  refine ⟨hj.db, hj.loaded, ?_⟩
  exact List.forall_mem_cons.mpr ⟨hcode, hj.executed⟩

theorem Journal.Sound.account (hD : D.Supplies I askable P) (hj : j.Sound I askable P)
    (address : Address) :
    (j.account D address).2.Sound I askable P ∧
      ∀ info, (j.account D address).1 = .ok (some info) →
        (∀ code, info.code = some code → P info.codeHash code) ∧
          (info.code = none → info.codeHash = KECCAK_EMPTY ∨ askable info.codeHash) := by
  unfold Journal.account
  split
  · next info hinfo =>
    refine ⟨hj, fun info' h => hj.loaded address info' ?_⟩
    rw [hinfo, Except.ok.inj h]
  · constructor
    · apply andThen_snd (hj.ask (hD.basic _ _ hj.db))
      intro info hinfo
      refine ⟨hD.basic _ _ hj.db, ?_, hj.executed⟩
      intro a info' hlookup
      rw [List.lookup_cons] at hlookup
      split at hlookup
      · rw [Option.some.inj hlookup] at hinfo
        exact hD.info _ _ _ hj.db hinfo
      · exact hj.loaded a info' hlookup
    · intro info h
      obtain ⟨a, ha, hnext⟩ := andThen_fst h
      rw [show a = some info from Except.ok.inj hnext] at ha
      exact hD.info _ _ _ hj.db ha

theorem Journal.Sound.code (hD : D.Supplies I askable P) (hj : j.Sound I askable P)
    (address : Address) : (j.code D address).2.Sound I askable P := by
  obtain ⟨hsound, hinfo⟩ := hj.account hD address
  apply andThen_snd hsound
  intro info h
  cases info with
  | none => exact hsound
  | some info =>
    obtain ⟨hcode, hnone⟩ := hinfo info h
    cases hc : info.code with
    | some code => simpa only [hc] using hsound.execute (hcode code hc)
    | none =>
      by_cases hempty : info.codeHash = KECCAK_EMPTY
      · simpa only [hc, if_pos hempty] using hsound
      · simp only [hc, if_neg hempty]
        apply andThen_snd (hsound.ask (hD.codeByHash _ _ hsound.db))
        intro code hanswer
        apply Journal.Sound.execute (hsound.ask (hD.codeByHash _ _ hsound.db))
        exact hD.code _ _ _ hsound.db ((hnone hc).resolve_left hempty) hanswer

/-- All code that a run executes is code the database supplied. -/
theorem Journal.Sound.run (hD : D.Supplies I askable P) (exec : Exec) (hj : j.Sound I askable P) :
    (Journal.run D exec j).2.Sound I askable P := by
  induction exec generalizing j with
  | finish r => exact hj
  | basic address next ih =>
    have h := (hj.account hD address).1
    exact andThen_snd h fun _ _ => ih _ h
  | code address next ih =>
    have h := hj.code hD address
    exact andThen_snd h fun _ _ => ih _ h
  | storage address index next ih =>
    have h := hj.ask (hD.storage j.db address index hj.db)
    exact andThen_snd h fun _ _ => ih _ h
  | blockHash number next ih =>
    have h := hj.ask (hD.blockHash j.db number hj.db)
    exact andThen_snd h fun _ _ => ih _ h

end Provenance

abbrev CodeCache := Lru B256 Bytes

def DEFAULT_CODE_CACHE_CAPACITY : ℕ := 1000

def CodeCache.new (capacity : ℕ) : CodeCache := Lru.new (if capacity = 0 then 1 else capacity)

structure CacheSyncMessage where
  codes : List (B256 × Bytes)
  evictHints : List B256

def applyCacheSync (msg : CacheSyncMessage) (cache : CodeCache) : CodeCache :=
  msg.evictHints.foldl Lru.pop (cache.putAll msg.codes)

/-- The third-party parts of the verifier: `alloy`'s headers and transactions, `keccak256`, and
`revm`'s check of raw bytecode and its execution. -/
class Evm extends Keccak where
  Header : Type
  Tx : Type
  decodeHeader : Bytes → Option Header
  hash : Header → B256
  number : Header → ℕ
  receiptsRoot : Header → B256
  transactionsRoot : Header → B256
  decode2718 : Bytes → Option Tx
  recoverSigner : Tx → Option Address
  calculateTransactionRoot : List Tx → B256
  validRaw : Bytes → Bool
  executeOne : Header → List (Tx × Address) → Exec

inductive StreamDbError where
  | exhausted (cursor : ℕ)
  | unexpectedEntry (cursor : ℕ) (expected actual : String)
  | missingCode (codeHash : B256)
  | invalidCode (codeHash : B256)
deriving DecidableEq

def HEADER_ACCOUNT_NOT_FOUND : UInt8 := 0x00
def HEADER_STORAGE_BASE : UInt8 := 0x80
def HEADER_BLOCK_HASH : UInt8 := 0xC0
def ACCT_NONCE_LEN_SHIFT : UInt8 := 1
def ACCT_NONCE_LEN_MASK : UInt8 := 0x0E
def ACCT_BALANCE_BIT : UInt8 := 0x10
def ACCT_CODE_HASH_BIT : UInt8 := 0x20
def ACCT_NONCE_8B_BIT : UInt8 := 0x40

structure StreamReplayDB where
  data : Bytes
  pos : ℕ
  entriesConsumed : ℕ
  entryCount : ℕ
  bytecodes : List (B256 × Bytes)
  codeCache : CodeCache

namespace StreamReplayDB

def parseStreamHeader (data : Bytes) : ℕ × ℕ :=
  if data.length ≥ 4 then (leNat (data.take 4), 4) else (0, data.length)

def new (data : Bytes) (bytecodes : List (B256 × Bytes)) (codeCache : CodeCache) :
    StreamReplayDB where
  data := data
  pos := (parseStreamHeader data).2
  entriesConsumed := 0
  entryCount := (parseStreamHeader data).1
  bytecodes := bytecodes
  codeCache := codeCache

variable (db : StreamReplayDB)

def readBytes (cursor n : ℕ) : Except StreamDbError Bytes × StreamReplayDB :=
  if db.pos + n > db.data.length then (.error (.exhausted cursor), db)
  else (.ok ((db.data.drop db.pos).take n), { db with pos := db.pos + n })

def readHeader : Except StreamDbError UInt8 × StreamReplayDB :=
  match db.data[db.pos]? with
  | none => (.error (.exhausted db.entriesConsumed), db)
  | some header =>
    (.ok header, { db with pos := db.pos + 1, entriesConsumed := db.entriesConsumed + 1 })

def nonceLen (header : UInt8) : ℕ :=
  if header &&& ACCT_NONCE_8B_BIT ≠ 0 then 8
  else ((header &&& ACCT_NONCE_LEN_MASK) >>> ACCT_NONCE_LEN_SHIFT).toNat

def readBalance (cursor : ℕ) (header : UInt8) : Except StreamDbError U256 × StreamReplayDB :=
  if header &&& ACCT_BALANCE_BIT ≠ 0 then
    andThen (db.readBytes cursor 1) fun len db =>
      if beNat len > 32 then
        (.error (.unexpectedEntry cursor "Account balance_len <= 32" "corrupted balance_len > 32"),
          db)
      else andThen (db.readBytes cursor (beNat len)) fun bytes db =>
        (.ok (BitVec.ofNat 256 (beNat bytes)), db)
  else (.ok 0, db)

def readCodeHash (cursor : ℕ) (header : UInt8) : Except StreamDbError B256 × StreamReplayDB :=
  if header &&& ACCT_CODE_HASH_BIT ≠ 0 then
    andThen (db.readBytes cursor 32) fun bytes db => (.ok (BitVec.ofNat 256 (beNat bytes)), db)
  else (.ok KECCAK_EMPTY, db)

def basic (_address : Address) : Except StreamDbError (Option AccountInfo) × StreamReplayDB :=
  let cursor := db.entriesConsumed
  andThen db.readHeader fun header db =>
    if header = HEADER_ACCOUNT_NOT_FOUND then (.ok none, db)
    else if header ≥ HEADER_STORAGE_BASE then
      (.error (.unexpectedEntry cursor "Account"
        (if header ≤ HEADER_STORAGE_BASE + 32 then "Storage" else "BlockHash")), db)
    else
      andThen (db.readBytes cursor (nonceLen header)) fun nonce db =>
      andThen (db.readBalance cursor header) fun balance db =>
      andThen (db.readCodeHash cursor header) fun codeHash db =>
        (.ok (some ⟨⟨balance, beNat nonce, codeHash⟩, none⟩), db)

def codeByHash [Evm] (db : StreamReplayDB) (codeHash : B256) :
    Except StreamDbError Bytes × StreamReplayDB :=
  match db.bytecodes.lookup codeHash with
  | some code => (.ok code, db)
  | none =>
    match db.codeCache.get codeHash with
    | (none, _) => (.error (.missingCode codeHash), db)
    | (some code, cache) =>
      if Evm.validRaw code then
        (.ok code, { db with bytecodes := (codeHash, code) :: db.bytecodes, codeCache := cache })
      else (.error (.invalidCode codeHash), { db with codeCache := cache })

def storage (_address : Address) (_index : U256) : Except StreamDbError U256 × StreamReplayDB :=
  let cursor := db.entriesConsumed
  andThen db.readHeader fun header db =>
    if ¬ (HEADER_STORAGE_BASE ≤ header ∧ header ≤ HEADER_STORAGE_BASE + 32) then
      (.error (.unexpectedEntry cursor "Storage"
        (if header < HEADER_STORAGE_BASE then "Account" else "BlockHash")), db)
    else
      andThen (db.readBytes cursor (header - HEADER_STORAGE_BASE).toNat) fun bytes db =>
        (.ok (BitVec.ofNat 256 (beNat bytes)), db)

def blockHash (_number : ℕ) : Except StreamDbError B256 × StreamReplayDB :=
  let cursor := db.entriesConsumed
  andThen db.readHeader fun header db =>
    if header ≠ HEADER_BLOCK_HASH then
      (.error (.unexpectedEntry cursor "BlockHash"
        (if header < 0x80 then "Account" else "Storage")), db)
    else andThen (db.readBytes cursor 32) fun bytes db =>
      (.ok (BitVec.ofNat 256 (beNat bytes)), db)

def database [Evm] : Database StreamReplayDB StreamDbError where
  basic := basic
  codeByHash := codeByHash
  storage := storage
  blockHash := blockHash

/-- Reading the log touches neither the bytecodes nor the cache. -/
structure SameCode (db db' : StreamReplayDB) : Prop where
  bytecodes : db'.bytecodes = db.bytecodes
  codeCache : db'.codeCache = db.codeCache

theorem SameCode.refl : db.SameCode db := ⟨rfl, rfl⟩

variable {db db' : StreamReplayDB}

theorem SameCode.andThen {α β : Type} {step : Except StreamDbError α × StreamReplayDB}
    {next : α → StreamReplayDB → Except StreamDbError β × StreamReplayDB}
    (hstep : db.SameCode step.2) (hnext : ∀ a db', db.SameCode db' → db.SameCode (next a db').2) :
    db.SameCode (Mobile.andThen step next).2 :=
  andThen_snd hstep fun a _ => hnext a _ hstep

theorem SameCode.readBytes (h : db.SameCode db') (cursor n : ℕ) :
    db.SameCode (db'.readBytes cursor n).2 := by
  unfold StreamReplayDB.readBytes
  split
  · exact h
  · exact ⟨h.bytecodes, h.codeCache⟩

theorem SameCode.readHeader (h : db.SameCode db') : db.SameCode db'.readHeader.2 := by
  unfold StreamReplayDB.readHeader
  split
  · exact h
  · exact ⟨h.bytecodes, h.codeCache⟩

theorem SameCode.readBalance (h : db.SameCode db') (cursor : ℕ) (header : UInt8) :
    db.SameCode (db'.readBalance cursor header).2 := by
  unfold StreamReplayDB.readBalance
  split
  · apply (h.readBytes cursor 1).andThen
    intro len db' h
    split
    · exact h
    · exact (h.readBytes cursor _).andThen fun _ _ h => h
  · exact h

theorem SameCode.readCodeHash (h : db.SameCode db') (cursor : ℕ) (header : UInt8) :
    db.SameCode (db'.readCodeHash cursor header).2 := by
  unfold StreamReplayDB.readCodeHash
  split
  · exact (h.readBytes cursor 32).andThen fun _ _ h => h
  · exact h

variable (db : StreamReplayDB) (address : Address)

theorem sameCode_basic : db.SameCode (db.basic address).2 := by
  apply (SameCode.refl db).readHeader.andThen
  intro header db' h
  split
  · exact h
  split
  · exact h
  apply (h.readBytes _ _).andThen
  intro nonce db' h
  apply (h.readBalance _ _).andThen
  intro balance db' h
  exact (h.readCodeHash _ _).andThen fun _ _ h => h

theorem sameCode_storage (index : U256) : db.SameCode (db.storage address index).2 := by
  apply (SameCode.refl db).readHeader.andThen
  intro header db' h
  split
  · exact h
  · exact (h.readBytes _ _).andThen fun _ _ h => h

theorem sameCode_blockHash (db : StreamReplayDB) (number : ℕ) :
    db.SameCode (db.blockHash number).2 := by
  apply (SameCode.refl db).readHeader.andThen
  intro header db' h
  split
  · exact h
  · exact (h.readBytes _ _).andThen fun _ _ h => h

theorem basic_code {info : AccountInfo} (h : (db.basic address).1 = .ok (some info)) :
    info.code = none := by
  obtain ⟨header, -, h⟩ := andThen_fst h
  split at h
  · cases h
  split at h
  · cases h
  obtain ⟨nonce, -, h⟩ := andThen_fst h
  obtain ⟨balance, -, h⟩ := andThen_fst h
  obtain ⟨codeHash, -, h⟩ := andThen_fst h
  rw [← Option.some.inj (Except.ok.inj h)]

end StreamReplayDB

end N42.Mobile
