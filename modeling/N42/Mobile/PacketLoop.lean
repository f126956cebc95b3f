import N42.Mobile.Verifier

/-!
The node's packet loop and the phones it feeds (`n42-node/src/mobile_packet.rs`). A block stands for
the code its execution reads.
-/

namespace N42.Mobile

open Lib List Function StreamReplayDB

def MAX_PREVIOUSLY_SENT_CODES : ℕ := 2000

abbrev SentCodes := Fifo B256 Bytes

section

variable [Evm]

/-- A committed block. `reads` are the calls of `code_by_hash` in the order of execution,
`captured` the map of `ReadLogDatabase` in the order of its iteration. -/
structure Block where
  reads : List B256
  captured : List (B256 × Bytes)
  nodup : (captured.map Prod.fst).Nodup
  covered : ∀ codeHash ∈ reads, codeHash ∈ captured.map Prod.fst
  valid : ∀ entry ∈ captured, Evm.validRaw entry.2

def newCodes (sent : SentCodes) (block : Block) : List (B256 × Bytes) :=
  block.captured.filter fun entry => entry.1 ∉ sent.keys

def readCodes : List B256 → StreamReplayDB → Except StreamDbError Unit × StreamReplayDB
  | [], db => (.ok (), db)
  | codeHash :: rest, db => andThen (db.codeByHash codeHash) fun _ db => readCodes rest db

/-- A phone verifies a packet and, if it could, stores the packet's code. -/
def deliver (bytecodes : List (B256 × Bytes)) (reads : List B256) (cache : CodeCache) : CodeCache :=
  match readCodes reads (.new [] bytecodes.reverse cache) with
  | (.ok (), db) => db.codeCache.putAll bytecodes
  | (.error _, db) => db.codeCache

/-- The node, the caches of the connected phones, and for each of them the code hashes the node
remembered when it connected or broadcast since (bookkeeping). -/
structure World where
  previouslySentCodes : SentCodes
  phones : ℕ → Option CodeCache
  since : ℕ → Finset B256

def World.init : World where
  previouslySentCodes := .new MAX_PREVIOUSLY_SENT_CODES
  phones _ := none
  since _ := ∅

inductive Event where
  | commit (block : Block)
  /-- A phone connects, with whatever its cache holds from before. -/
  | connect (session : ℕ) (cache : CodeCache)
      (capacity : cache.capacity = DEFAULT_CODE_CACHE_CAPACITY)
      (iteration : Iteration (B256 × Bytes))

def Block.hashes (block : Block) : Finset B256 := (block.captured.map Prod.fst).toFinset

def World.step (w : World) : Event → World
  | .commit block =>
    { previouslySentCodes := w.previouslySentCodes.insertAll block.captured
      phones := fun session => (w.phones session).map
        (deliver (newCodes w.previouslySentCodes block) block.reads)
      since := fun session => w.since session ∪ block.hashes }
  | .connect session cache _ iteration =>
    let msg : CacheSyncMessage := ⟨iteration.order w.previouslySentCodes.entries, []⟩
    { w with
      phones := Function.update w.phones session (some (applyCacheSync msg cache))
      since := Function.update w.since session w.previouslySentCodes.keys.toFinset }

/-- Every connected phone can resolve the code the block reads, and so verifies its packet. -/
def World.Served (w : World) : Event → Prop
  | .commit block => ∀ session cache, w.phones session = some cache →
      (∀ codeHash ∈ block.reads,
        codeHash ∈ (newCodes w.previouslySentCodes block).map Prod.fst ∨
          ∃ code, cache.lookup codeHash = some code) ∧
      (readCodes block.reads
        (.new [] (newCodes w.previouslySentCodes block).reverse cache)).1 = .ok ()
  | .connect .. => True

def World.AlwaysServed : World → List Event → Prop
  | _, [] => True
  | w, event :: events => w.Served event ∧ (w.step event).AlwaysServed events

/-- The code a phone was sent since it connected fits its cache. -/
def World.Fits (w : World) : Event → Prop
  | .commit block => ∀ session cache, w.phones session = some cache →
      (w.since session ∪ block.hashes).card ≤ DEFAULT_CODE_CACHE_CAPACITY
  | .connect .. => w.previouslySentCodes.entries.length ≤ DEFAULT_CODE_CACHE_CAPACITY

def World.AlwaysFits : World → List Event → Prop
  | _, [] => True
  | w, event :: events => w.Fits event ∧ (w.step event).AlwaysFits events

/-- A phone's cache holds the code of `held`, used no longer ago than the rest of `keys`. -/
structure Holds (keys held : Finset B256) (cache : CodeCache) : Prop where
  capacity : cache.capacity = DEFAULT_CODE_CACHE_CAPACITY
  recent : ∀ codeHash ∈ held, cache.Recent keys codeHash
  valid : ∀ entry ∈ cache.entries, entry.1 ∈ held → Evm.validRaw entry.2

variable {cache : CodeCache} {codeHash : B256} {held keys : Finset B256} {db : StreamReplayDB}
  {block : Block}

theorem Holds.get (h : Holds keys held cache) (hsub : held ⊆ keys)
    (hcard : keys.card ≤ DEFAULT_CODE_CACHE_CAPACITY) (hkey : codeHash ∈ keys) :
    Holds keys held (cache.get codeHash).2 where
  capacity := (Lru.capacity_get cache codeHash).trans h.capacity
  recent other hother :=
    (h.recent other hother).get (hsub hother) hkey (hcard.trans_eq h.capacity.symm)
  valid entry hentry := h.valid entry (Lru.mem_get hentry)

variable {codes : List (B256 × Bytes)}

theorem Holds.putAll (h : Holds keys held cache) (hcard : keys.card ≤ DEFAULT_CODE_CACHE_CAPACITY)
    (hvalid : ∀ entry ∈ codes, Evm.validRaw entry.2) (hcodes : ∀ entry ∈ codes, entry.1 ∈ keys)
    (hkeys : ∀ codeHash ∈ keys, codeHash ∈ held ∨ codeHash ∈ codes.map Prod.fst) :
    Holds keys keys (cache.putAll codes) where
  capacity := (Lru.capacity_putAll cache codes).trans h.capacity
  recent codeHash hkey := by
    apply Lru.recent_putAll hcodes (hcard.trans_eq h.capacity.symm) hkey
    exact (hkeys codeHash hkey).imp_left (h.recent codeHash)
  valid entry hentry hkey := by
    rcases Lru.mem_putAll hentry with hentry | ⟨hentry, hnot⟩
    · exact hvalid entry hentry
    · exact h.valid entry hentry ((hkeys entry.1 hkey).resolve_right hnot)

omit [Evm] in
theorem exists_lookup_of_mem (h : codeHash ∈ codes.map Prod.fst) :
    ∃ code, codes.lookup codeHash = some code := by
  obtain ⟨entry, hentry, rfl⟩ := mem_map.mp h
  rw [← Option.isSome_iff_exists, lookup_isSome_iff]
  exact ⟨entry, hentry, by simp⟩

theorem codeByHash_found (h : Holds keys held db.codeCache) (hsub : held ⊆ keys)
    (hcard : keys.card ≤ DEFAULT_CODE_CACHE_CAPACITY) (hkey : codeHash ∈ keys)
    (hfound : codeHash ∈ db.bytecodes.map Prod.fst ∨ codeHash ∈ held) :
    ∃ code db', db.codeByHash codeHash = (.ok code, db') ∧ Holds keys held db'.codeCache ∧
      ∀ other ∈ db.bytecodes.map Prod.fst, other ∈ db'.bytecodes.map Prod.fst := by
  unfold codeByHash
  cases hlookup : db.bytecodes.lookup codeHash with
  | some code => exact ⟨code, db, rfl, h, fun _ hother => hother⟩
  | none =>
    have hheld : codeHash ∈ held := by
      refine hfound.resolve_left fun hmem => ?_
      obtain ⟨code, hcode⟩ := exists_lookup_of_mem hmem
      rw [hlookup] at hcode
      cases hcode
    obtain ⟨code, hcode⟩ := (h.recent codeHash hheld).lookup
    have hvalid := h.valid (codeHash, code) (Lru.mem_of_lookup hcode) hheld
    have hget : db.codeCache.get codeHash = (some code, (db.codeCache.get codeHash).2) := by
      simp [Lru.get, hcode]
    rw [hget]
    simp only [hvalid]
    refine ⟨code, _, rfl, h.get hsub hcard hkey, fun other hother => ?_⟩
    exact mem_cons_of_mem _ hother

theorem readCodes_ok (hsub : held ⊆ keys) (hcard : keys.card ≤ DEFAULT_CODE_CACHE_CAPACITY)
    (reads : List B256) (h : Holds keys held db.codeCache)
    (hkeys : ∀ codeHash ∈ reads, codeHash ∈ keys)
    (hfound : ∀ codeHash ∈ reads, codeHash ∈ db.bytecodes.map Prod.fst ∨ codeHash ∈ held) :
    ∃ db', readCodes reads db = (.ok (), db') ∧ Holds keys held db'.codeCache := by
  induction reads generalizing db with
  | nil => exact ⟨db, rfl, h⟩
  | cons codeHash reads ih =>
    obtain ⟨code, db', hstep, h', hmono⟩ := codeByHash_found h hsub hcard
      (hkeys codeHash mem_cons_self) (hfound codeHash mem_cons_self)
    rw [readCodes, hstep]
    apply ih h' fun other hother => hkeys other (mem_cons_of_mem _ hother)
    intro other hother
    exact (hfound other (mem_cons_of_mem _ hother)).imp_left (hmono other)

theorem readCodes_carried {reads : List B256}
    (hcarried : ∀ codeHash ∈ reads, codeHash ∈ db.bytecodes.map Prod.fst) :
    readCodes reads db = (.ok (), db) := by
  induction reads with
  | nil => rfl
  | cons codeHash reads ih =>
    obtain ⟨code, hcode⟩ := exists_lookup_of_mem (hcarried codeHash mem_cons_self)
    rw [readCodes, codeByHash, hcode]
    exact ih fun other hother => hcarried other (mem_cons_of_mem _ hother)

/-- What the node remembers was sent to every phone since it connected, and each phone still
holds all of that. -/
structure World.Inv (w : World) : Prop where
  valid : ∀ entry ∈ w.previouslySentCodes.entries, Evm.validRaw entry.2
  sent : ∀ session cache, w.phones session = some cache →
    ∀ codeHash ∈ w.previouslySentCodes.keys, codeHash ∈ w.since session
  held : ∀ session cache, w.phones session = some cache →
    Holds (w.since session) (w.since session) cache

theorem mem_newCodes {sent : SentCodes} {entry : B256 × Bytes} :
    entry ∈ newCodes sent block ↔ entry ∈ block.captured ∧ entry.1 ∉ sent.keys := by
  simp [newCodes]

theorem Block.mem_hashes :
    codeHash ∈ block.hashes ↔ codeHash ∈ block.captured.map Prod.fst := mem_toFinset

variable {w : World} {session : ℕ}

theorem World.Inv.carried (h : w.Inv) (hphone : w.phones session = some cache)
    (hmem : codeHash ∈ block.captured.map Prod.fst) :
    codeHash ∈ (newCodes w.previouslySentCodes block).map Prod.fst ∨
      codeHash ∈ w.since session := by
  by_cases hsent : codeHash ∈ w.previouslySentCodes.keys
  · exact .inr (h.sent session cache hphone codeHash hsent)
  · obtain ⟨entry, hentry, rfl⟩ := mem_map.mp hmem
    exact .inl (mem_map_of_mem (mem_newCodes.mpr ⟨hentry, hsent⟩))

theorem Holds.mono {keys' : Finset B256} (h : Holds keys held cache) (hsub : keys ⊆ keys') :
    Holds keys' held cache :=
  ⟨h.capacity, fun codeHash hmem => (h.recent codeHash hmem).mono hsub, h.valid⟩

/-- A packet is verified, and leaves the phone with what it held and with the block's code. -/
theorem World.Inv.verified (h : w.Inv) (hphone : w.phones session = some cache)
    (hfits : w.Fits (.commit block)) :
    ∃ db, readCodes block.reads (.new [] (newCodes w.previouslySentCodes block).reverse cache) =
        (.ok (), db) ∧
      Holds (w.since session ∪ block.hashes) (w.since session) db.codeCache := by
  apply readCodes_ok Finset.subset_union_left (hfits session cache hphone)
  · exact (h.held session cache hphone).mono Finset.subset_union_left
  · intro codeHash hread
    exact Finset.mem_union_right _ (Block.mem_hashes.mpr (block.covered codeHash hread))
  · intro codeHash hread
    have hcarried := h.carried hphone (block.covered codeHash hread)
    simpa [new] using hcarried

theorem World.Inv.served (h : w.Inv) {event : Event} (hfits : w.Fits event) : w.Served event := by
  cases event with
  | connect => trivial
  | commit block =>
    intro session cache hphone
    constructor
    · intro codeHash hread
      apply (h.carried hphone (block.covered codeHash hread)).imp_right
      exact fun hheld => ((h.held session cache hphone).recent codeHash hheld).lookup
    · obtain ⟨db, hread, -⟩ := h.verified hphone hfits
      rw [hread]

theorem World.Inv.commit (h : w.Inv) (hfits : w.Fits (.commit block)) :
    (w.step (.commit block)).Inv := by
  have hphones : ∀ session cache', (w.step (.commit block)).phones session = some cache' →
      ∃ cache, w.phones session = some cache ∧
        deliver (newCodes w.previouslySentCodes block) block.reads cache = cache' :=
    fun session cache' hcache' => Option.map_eq_some_iff.mp hcache'
  constructor
  · intro entry hentry
    rcases Fifo.mem_insertAll hentry with hentry | hentry
    · exact h.valid entry hentry
    · exact block.valid entry hentry
  · intro session cache' hcache' codeHash hsent
    obtain ⟨cache, hphone, -⟩ := hphones session cache' hcache'
    obtain ⟨entry, hentry, rfl⟩ := mem_map.mp hsent
    rcases Fifo.mem_insertAll hentry with hentry | hentry
    · exact Finset.mem_union_left _
        (h.sent session cache hphone entry.1 (mem_map_of_mem hentry))
    · exact Finset.mem_union_right _ (Block.mem_hashes.mpr (mem_map_of_mem hentry))
  · intro session cache' hcache'
    obtain ⟨cache, hphone, rfl⟩ := hphones session cache' hcache'
    obtain ⟨db, hread, hholds⟩ := h.verified hphone hfits
    rw [deliver, hread]
    apply hholds.putAll (hfits session cache hphone)
    · exact fun entry hentry => block.valid entry (mem_newCodes.mp hentry).1
    · intro entry hentry
      apply Finset.mem_union_right
      exact Block.mem_hashes.mpr (mem_map_of_mem (mem_newCodes.mp hentry).1)
    · intro codeHash hkey
      rcases Finset.mem_union.mp hkey with hkey | hkey
      · exact .inl hkey
      · exact (h.carried hphone (Block.mem_hashes.mp hkey)).symm

theorem World.Inv.connect (h : w.Inv) {capacity : cache.capacity = DEFAULT_CODE_CACHE_CAPACITY}
    {iteration : Iteration (B256 × Bytes)}
    (hfits : w.Fits (.connect session cache capacity iteration)) :
    (w.step (.connect session cache capacity iteration)).Inv := by
  have hsynced : Holds w.previouslySentCodes.keys.toFinset w.previouslySentCodes.keys.toFinset
      (cache.putAll (iteration.order w.previouslySentCodes.entries)) := by
    have hperm := iteration.perm w.previouslySentCodes.entries
    have hcard : w.previouslySentCodes.keys.toFinset.card ≤ DEFAULT_CODE_CACHE_CAPACITY := by
      apply (toFinset_card_le _).trans
      rw [Fifo.keys, length_map]
      exact hfits
    have hempty : Holds w.previouslySentCodes.keys.toFinset ∅ cache := ⟨capacity, by simp, by simp⟩
    apply hempty.putAll hcard
    · exact fun entry hentry => h.valid entry (hperm.mem_iff.mp hentry)
    · intro entry hentry
      exact mem_toFinset.mpr (mem_map_of_mem (hperm.mem_iff.mp hentry))
    · intro codeHash hkey
      exact .inr ((hperm.map Prod.fst).mem_iff.mpr (mem_toFinset.mp hkey))
  refine ⟨h.valid, ?_, ?_⟩
  · intro other cache' hcache' codeHash hsent
    by_cases hsession : other = session
    · subst hsession
      simpa [World.step] using hsent
    · simp only [World.step, update_of_ne hsession] at hcache' ⊢
      exact h.sent other cache' hcache' codeHash hsent
  · intro other cache' hcache'
    by_cases hsession : other = session
    · subst hsession
      simp only [World.step, update_self] at hcache' ⊢
      rw [← Option.some.inj hcache']
      exact hsynced
    · simp only [World.step, update_of_ne hsession] at hcache' ⊢
      exact h.held other cache' hcache'

theorem World.Inv.alwaysServed (h : w.Inv) {events : List Event} (hfits : w.AlwaysFits events) :
    w.AlwaysServed events := by
  induction events generalizing w with
  | nil => trivial
  | cons event events ih =>
    obtain ⟨hevent, hrest⟩ := hfits
    refine ⟨h.served hevent, ih ?_ hrest⟩
    cases event with
    | commit block => exact h.commit hevent
    | connect session cache capacity iteration => exact h.connect hevent

/-- As long as what a phone was sent since it connected fits its cache, it can execute every
packet. -/
theorem packets_executable (events : List Event) (hfits : World.init.AlwaysFits events) :
    World.init.AlwaysServed events := by
  have hinit : World.init.Inv := by
    refine ⟨?_, ?_, ?_⟩ <;> simp [World.init, Fifo.new]
  exact hinit.alwaysServed hfits

end

local instance : Evm := sampleEvm

/-- A block that reads the codes with hashes below `count`. -/
def wideBlock (count : ℕ) (hcount : count ≤ 2 ^ 256) : Block where
  reads := (List.range count).map (BitVec.ofNat 256)
  captured := (List.range count).map fun i => (BitVec.ofNat 256 i, [])
  nodup := by
    rw [map_map]
    refine List.Nodup.map_on ?_ nodup_range
    intro i hi j hj h
    rw [mem_range] at hi hj
    have h : (BitVec.ofNat 256 i).toNat = (BitVec.ofNat 256 j).toNat := congrArg BitVec.toNat h
    rwa [BitVec.toNat_ofNat, BitVec.toNat_ofNat, Nat.mod_eq_of_lt (hi.trans_le hcount),
      Nat.mod_eq_of_lt (hj.trans_le hcount)] at h
  covered := by simp
  valid _ _ := rfl

def firstConnection : Event :=
  .connect 0 (.new DEFAULT_CODE_CACHE_CAPACITY) rfl (.asListed (B256 × Bytes))

theorem three_le : 3 ≤ 2 ^ 256 := by norm_num

theorem one_le : 1 ≤ 2 ^ 256 := Nat.one_le_two_pow

theorem capacity_succ_le : DEFAULT_CODE_CACHE_CAPACITY + 1 ≤ 2 ^ 256 := by
  norm_num [DEFAULT_CODE_CACHE_CAPACITY]

theorem packets_executable_once :
    World.init.AlwaysFits [firstConnection, .commit (wideBlock 3 three_le)] ∧
      World.init.AlwaysServed [firstConnection, .commit (wideBlock 3 three_le)] := by
  have hfits : World.init.AlwaysFits [firstConnection, .commit (wideBlock 3 three_le)] := by
    refine ⟨Nat.zero_le _, ?_, trivial⟩
    intro session cache _
    have hsince : (World.init.step firstConnection).since session = ∅ := by
      simp [World.step, firstConnection, World.init, Fifo.new, Fifo.keys]
    rw [hsince]
    exact (toFinset_card_le _).trans (by simp [wideBlock, DEFAULT_CODE_CACHE_CAPACITY])
  exact ⟨hfits, packets_executable _ hfits⟩

theorem lookup_putAll_wideBlock {count : ℕ} (hcount : count + 1 ≤ 2 ^ 256) :
    ((Lru.new count).putAll (wideBlock (count + 1) hcount).captured).lookup 0 = none := by
  rw [Lru.lookup, Lru.entries_putAll (wideBlock (count + 1) hcount).nodup, Option.map_eq_none_iff,
    find?_eq_none]
  intro entry hentry
  simp only [wideBlock, range_succ_eq_map] at hentry
  obtain ⟨i, hi, rfl⟩ : ∃ i < count, (BitVec.ofNat 256 (i + 1), []) = entry := by
    simpa using hentry
  intro hzero
  have hzero : BitVec.ofNat 256 (i + 1) = 0#256 := by simpa using hzero
  have hnat := congrArg BitVec.toNat hzero
  rw [BitVec.toNat_ofNat, Nat.mod_eq_of_lt (by omega)] at hnat
  simp at hnat

theorem newCodes_new (block : Block) (capacity : ℕ) :
    newCodes (Fifo.new capacity) block = block.captured := by
  simp [newCodes, Fifo.new, Fifo.keys]

theorem deliver_carried (block : Block) (cache : CodeCache) :
    deliver block.captured block.reads cache = cache.putAll block.captured := by
  have hcarried : ∀ codeHash ∈ block.reads, codeHash ∈
      (new [] block.captured.reverse cache).bytecodes.map Prod.fst := by
    intro codeHash hread
    simpa [new] using block.covered codeHash hread
  rw [deliver, readCodes_carried hcarried]
  rfl

/-- A block that reads one code more than a phone can hold, then one that reads the first of
them again: the node leaves it out and the phone has dropped it. -/
theorem packets_not_executable :
    ¬ World.init.AlwaysServed [firstConnection,
      .commit (wideBlock (DEFAULT_CODE_CACHE_CAPACITY + 1) capacity_succ_le),
      .commit (wideBlock 1 one_le)] := by
  rintro ⟨-, -, hserved, -⟩
  set wide := wideBlock (DEFAULT_CODE_CACHE_CAPACITY + 1) capacity_succ_le with hwide
  have hphone : ((World.init.step firstConnection).step (.commit wide)).phones 0 =
      some ((Lru.new DEFAULT_CODE_CACHE_CAPACITY).putAll wide.captured) := by
    simp only [World.step, firstConnection, update_self, Option.map_some]
    rw [show World.init.previouslySentCodes = Fifo.new MAX_PREVIOUSLY_SENT_CODES from rfl,
      newCodes_new, deliver_carried]
    rfl
  have hsent : ((World.init.step firstConnection).step (.commit wide)).previouslySentCodes.keys =
      wide.captured.map Prod.fst := by
    have hfits : wide.captured.length ≤ MAX_PREVIOUSLY_SENT_CODES := by
      simp [hwide, wideBlock, DEFAULT_CODE_CACHE_CAPACITY, MAX_PREVIOUSLY_SENT_CODES]
    exact congrArg (List.map Prod.fst) (Fifo.entries_insertAll wide.nodup hfits).1
  have hread : (0 : B256) ∈ (wideBlock 1 one_le).reads := by simp [wideBlock]
  rcases (hserved 0 _ hphone).1 0 hread with hnew | ⟨code, hcode⟩
  · obtain ⟨entry, hentry, hkey⟩ := mem_map.mp hnew
    apply (mem_newCodes.mp hentry).2
    rw [hsent, hkey, hwide]
    simp [wideBlock, range_succ_eq_map]
  · rw [lookup_putAll_wideBlock] at hcode
    cases hcode

end N42.Mobile
