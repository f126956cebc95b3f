import N42.Gov5.Block
import N42.Gov5.HeaderRoundTrip

/-!
A gov5 block is determined by its hash: the header's bytes fix the header, and through its two
commitments the transactions and the rewards.
-/

namespace N42.Gov5

open Lib List
open Rlp (encodeWord encodeNumber)

theorem Gov5Reward.encode_eq_item (reward : Gov5Reward) :
    reward.encode =
      Rlp.item true (encodeWord 20 reward.address ++ encodeNumber reward.amount) := by
  rw [Gov5Reward.encode, Rlp.item, Rlp.lead_list, length_append, append_assoc]

theorem Gov5Reward.payload_inj {reward reward' : Gov5Reward}
    (h : encodeWord 20 reward.address ++ encodeNumber reward.amount =
      encodeWord 20 reward'.address ++ encodeNumber reward'.amount) : reward = reward' := by
  obtain ⟨haddress, hrest⟩ :=
    (Rlp.reads_decodeWord (by norm_num) (by norm_num)).append_inj trivial trivial h
  rw [← append_nil (encodeNumber reward.amount),
    ← append_nil (encodeNumber reward'.amount)] at hrest
  obtain ⟨hamount, -⟩ :=
    (Rlp.reads_decodeNumber (show 256 = 8 * 32 by norm_num) (le_refl 32)).append_inj trivial
      trivial hrest
  cases reward
  simp_all

theorem Gov5Reward.length_payload_lt (reward : Gov5Reward) :
    (encodeWord 20 reward.address ++ encodeNumber reward.amount).length < 2 ^ 64 := by
  have hword := length_encodeWord_le (show 20 ≤ 256 by norm_num) reward.address
  have hnumber := length_encodeNumber_le (by norm_num) reward.amount
  rw [length_append]
  omega

theorem encodeRewards_injective :
    Function.Injective fun rewards : List Gov5Reward =>
      (rewards.map Gov5Reward.encode).flatten := by
  intro rewards rewards' h
  have hmap : rewards.map id = rewards'.map id := by
    apply Rlp.map_eq_of_flatten_eq (P := fun _ => True) _ _ (by simp) (by simp) h
    · intro reward
      rw [reward.encode_eq_item]
      exact Rlp.item_ne_nil _ _
    · intro reward reward' rest rest' _ _ hbytes
      rw [reward.encode_eq_item, reward'.encode_eq_item] at hbytes
      obtain ⟨-, hpayload, hrest⟩ :=
        Rlp.item_append_inj reward.length_payload_lt reward'.length_payload_lt hbytes
      exact ⟨Gov5Reward.payload_inj hpayload, hrest⟩
  rwa [map_id, map_id] at hmap

theorem orInvalid_eq_ok {α : Type} {x : Option α} {a : α} : orInvalid x = .ok a ↔ x = some a := by
  cases x <;> simp [orInvalid]

def headerRlp (encoded : Bytes) : Option Bytes := do
  let payload ← listPayload encoded
  let taken ← takeRlpItem payload
  return taken.1

section Binding

variable {Tx : Type} [ChainCrypto Tx]

/-- What the decoder has checked of a block that it returns. -/
structure Accepted (encoded : Bytes) (block : Gov5GossipBlock Tx) (bytes : Bytes) : Prop where
  headerRlp_eq : headerRlp encoded = some bytes
  native : Gov5NativeHeader.decode bytes = .ok ⟨block.header, block.mobileRegistryRoot⟩
  blockHash_eq : block.blockHash = Keccak.keccak256 bytes
  transactions_match :
    ChainCrypto.calculateTransactionRoot block.transactions = block.header.transactionsRoot
  rewards_match : rewardsMatch Tx block.header block.rewards = true

theorem exists_accepted {encoded : Bytes} {block : Gov5GossipBlock Tx}
    (h : decodeGov5BlockRlp Tx encoded = .ok block) : ∃ bytes, Accepted encoded block bytes := by
  simp only [decodeGov5BlockRlp, bind_eq_ok, guard_bind_eq_ok, orInvalid_eq_ok, toOption_eq_some,
    pure_eq_ok] at h
  obtain ⟨payload, hpayload, taken, htaken, native, hnative, hrest⟩ := h
  obtain ⟨-, -, -, -, -, transactions, -, -, -, -, -, rewards, -, -, -, -, htransactions,
    hrewards, rfl⟩ := hrest
  exact ⟨taken.1, by simp [headerRlp, hpayload, htaken], hnative, rfl, not_not.mp htransactions,
    by simpa using hrewards⟩

variable (Tx) in
def hashed (encoded : Bytes) : Set Bytes :=
  {bytes | headerRlp encoded = some bytes ∨ ∃ block : Gov5GossipBlock Tx,
    decodeGov5BlockRlp Tx encoded = .ok block ∧
      bytes = (block.rewards.map Gov5Reward.encode).flatten}

theorem rewards_eq_of_match {header : Header} {rewards rewards' : List Gov5Reward} {s : Set Bytes}
    (hinj : Set.InjOn Keccak.keccak256 s)
    (hmem : (rewards.map Gov5Reward.encode).flatten ∈ s)
    (hmem' : (rewards'.map Gov5Reward.encode).flatten ∈ s)
    (hmatch : rewardsMatch Tx header rewards = true)
    (hmatch' : rewardsMatch Tx header rewards' = true) : rewards = rewards' := by
  unfold rewardsMatch at hmatch hmatch'
  split at hmatch
  case h_1 root hroot =>
    -- the header commits to the rewards by their hash
    simp only [hroot, decide_eq_true_eq] at hmatch hmatch'
    exact encodeRewards_injective (hinj hmem hmem' (hmatch.trans hmatch'.symm))
  case h_2 hroot =>
    -- the header has no such commitment, or the shape that fixes it to that of no rewards
    simp only [hroot, List.isEmpty_iff] at hmatch hmatch'
    rw [hmatch, hmatch']

/-- Blocks of one hash are equal, and a block's hash is read off its bytes. -/
theorem block_determined_by_hash :
    (∀ (encoded encoded' : Bytes) (block block' : Gov5GossipBlock Tx),
      decodeGov5BlockRlp Tx encoded = .ok block → decodeGov5BlockRlp Tx encoded' = .ok block' →
      Set.InjOn Keccak.keccak256 (hashed Tx encoded ∪ hashed Tx encoded') →
      Set.InjOn (@ChainCrypto.calculateTransactionRoot Tx _)
        {block.transactions, block'.transactions} →
      block.blockHash = block'.blockHash →
      block.header = block'.header ∧ block.mobileRegistryRoot = block'.mobileRegistryRoot ∧
        block.transactions = block'.transactions ∧ block.rewards = block'.rewards) ∧
    ∀ (encoded : Bytes) (block : Gov5GossipBlock Tx), decodeGov5BlockRlp Tx encoded = .ok block →
      attributableHash Tx encoded = some block.blockHash := by
  constructor
  · intro encoded encoded' block block' hdecode hdecode' hkeccak hroot hhash
    obtain ⟨bytes, hblock⟩ := exists_accepted hdecode
    obtain ⟨bytes', hblock'⟩ := exists_accepted hdecode'
    have hbytes : bytes = bytes' := by
      apply hkeccak
      · exact Or.inl (Or.inl hblock.headerRlp_eq)
      · exact Or.inr (Or.inl hblock'.headerRlp_eq)
      · rw [← hblock.blockHash_eq, hhash, hblock'.blockHash_eq]
    have hnative := hblock.native
    rw [hbytes, hblock'.native] at hnative
    obtain ⟨hheader, hmobile⟩ := Gov5NativeHeader.mk.inj (Except.ok.inj hnative)
    refine ⟨hheader.symm, hmobile.symm, ?_, ?_⟩
    · apply hroot (Set.mem_insert _ _) (Set.mem_insert_of_mem _ rfl)
      rw [hblock.transactions_match, hblock'.transactions_match, hheader]
    · have hmatch := hblock.rewards_match
      rw [← hheader] at hmatch
      exact rewards_eq_of_match hkeccak (Or.inl (Or.inr ⟨block, hdecode, rfl⟩))
        (Or.inr (Or.inr ⟨block', hdecode', rfl⟩)) hmatch hblock'.rewards_match
  · intro encoded block hdecode
    obtain ⟨bytes, hblock⟩ := exists_accepted hdecode
    have hheader := hblock.headerRlp_eq
    simp only [headerRlp, Option.bind_eq_bind, Option.bind_eq_some_iff, Option.pure_def,
      Option.some.injEq] at hheader
    obtain ⟨payload, hpayload, taken, htaken, rfl⟩ := hheader
    simp [attributableHash, hpayload, htaken, hblock.native, hblock.blockHash_eq,
      Except.toOption]

end Binding

/-- Transactions are their own bytes, and hashes are lengths. -/
@[reducible] def lengthChain : ChainCrypto Bytes where
  keccak256 bytes := BitVec.ofNat 256 bytes.length
  decode2718 bytes := some (bytes, [])
  calculateTransactionRoot transactions := BitVec.ofNat 256 transactions.length

attribute [local instance] lengthChain

def sampleExtra : Bytes := GOV5_HEADER_EXTRA_MAGIC ++ List.replicate 8 1

theorem sampleExtra_length_lt : sampleExtra.length < 2 ^ 63 := by decide

def sampleReward : Gov5Reward := ⟨7, 1000⟩

def sampleBlockHeader : Gov5NativeHeader where
  header := { sampleHeader.header with
    ommersHash := 0, transactionsRoot := 1, extraData := ⟨sampleExtra, sampleExtra_length_lt⟩
    baseFeePerGas := some 5
    withdrawalsRoot := some (BitVec.ofNat 256 sampleReward.encode.length) }
  mobileRegistryRoot := none

def sampleBlock : Gov5GossipBlock Bytes where
  blockHash := BitVec.ofNat 256 sampleBlockHeader.encode.length
  header := sampleBlockHeader.header
  transactions := [[1, 2, 3]]
  rewards := [sampleReward]
  mobileRegistryRoot := none

/-- The block's bytes, before its list header; `proof` is the bytes of its proof. -/
def sampleEncoded (proof : Bytes) : Bytes :=
  Rlp.item true (sampleBlockHeader.encode ++ Rlp.item true (Rlp.item false [1, 2, 3]) ++
    Rlp.item true [] ++ Rlp.item true sampleReward.encode ++ proof)

theorem sample_decodes : (decodeGov5BlockRlp Bytes (sampleEncoded [])).toOption =
    some sampleBlock ∧
    (decodeGov5BlockRlp Bytes (sampleEncoded [0x05])).toOption = some sampleBlock ∧
    headerRlp (sampleEncoded []) = some sampleBlockHeader.encode ∧
    headerRlp (sampleEncoded [0x05]) = some sampleBlockHeader.encode ∧
    BitVec.ofNat 256 sampleBlockHeader.encode.length ≠
      BitVec.ofNat 256 (([sampleReward].map Gov5Reward.encode).flatten).length := by decide +kernel

theorem hashed_sample {encoded bytes : Bytes}
    (hheader : headerRlp encoded = some sampleBlockHeader.encode)
    (hdecode : (decodeGov5BlockRlp Bytes encoded).toOption = some sampleBlock)
    (hmem : bytes ∈ hashed Bytes encoded) :
    bytes = sampleBlockHeader.encode ∨
      bytes = ([sampleReward].map Gov5Reward.encode).flatten := by
  rcases hmem with hbytes | ⟨block, hblock, rfl⟩
  · exact Or.inl (Option.some.inj (hbytes.symm.trans hheader))
  · rw [toOption_eq_some.mp hdecode] at hblock
    rw [← Except.ok.inj hblock]
    exact Or.inr rfl

theorem block_determined_by_hash_sample :
    sampleEncoded [] ≠ sampleEncoded [0x05] ∧
      ∃ block block' : Gov5GossipBlock Bytes,
        decodeGov5BlockRlp Bytes (sampleEncoded []) = .ok block ∧
        decodeGov5BlockRlp Bytes (sampleEncoded [0x05]) = .ok block' ∧
        block.rewards = [sampleReward] ∧
        block.header = block'.header ∧ block.mobileRegistryRoot = block'.mobileRegistryRoot ∧
        block.transactions = block'.transactions ∧ block.rewards = block'.rewards ∧
        attributableHash Bytes (sampleEncoded []) = some block.blockHash := by
  obtain ⟨hplain, hproof, hheader, hheader', hne⟩ := sample_decodes
  obtain ⟨hequal, hattribute⟩ := @block_determined_by_hash Bytes _
  have hinj : Set.InjOn Keccak.keccak256
      (hashed Bytes (sampleEncoded []) ∪ hashed Bytes (sampleEncoded [0x05])) := by
    intro a ha b hb hab
    have hcases : ∀ c ∈ hashed Bytes (sampleEncoded []) ∪ hashed Bytes (sampleEncoded [0x05]),
        c = sampleBlockHeader.encode ∨ c = ([sampleReward].map Gov5Reward.encode).flatten := by
      intro c hc
      rcases hc with hc | hc
      · exact hashed_sample hheader hplain hc
      · exact hashed_sample hheader' hproof hc
    rcases hcases a ha with ha | ha <;> rcases hcases b hb with hb | hb
    · rw [ha, hb]
    · rw [ha, hb] at hab
      exact absurd hab hne
    · rw [ha, hb] at hab
      exact absurd hab.symm hne
    · rw [ha, hb]
  have hplain := toOption_eq_some.mp hplain
  have hproof := toOption_eq_some.mp hproof
  have hroot : Set.InjOn (@ChainCrypto.calculateTransactionRoot Bytes _)
      {sampleBlock.transactions, sampleBlock.transactions} := by
    rw [Set.pair_eq_singleton]
    exact Set.injOn_singleton _ _
  obtain ⟨h1, h2, h3, h4⟩ := hequal _ _ _ _ hplain hproof hinj hroot rfl
  refine ⟨?_, sampleBlock, sampleBlock, hplain, hproof, rfl, h1, h2, h3, h4,
    hattribute _ _ hplain⟩
  decide +kernel

end N42.Gov5
