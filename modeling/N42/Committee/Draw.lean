import N42.Committee.Pool

/-!
The committee of every block of every accepted pool: its size, its members, the shuffle it is the
start of, and that its evidence tells blocks apart.
-/

namespace N42.Committee

open Lib Lib.FisherYates List SimulatedCommitteePool

variable {blockNumber : ℕ}

section Ramp

variable {poolSize committeeSize rampBlocks : ℕ}

theorem activePool_ramp (hramp : (poolSize - committeeSize) * rampBlocks < 2 ^ 64)
    (h : blockNumber < rampBlocks) : activePool blockNumber poolSize committeeSize rampBlocks =
      min (committeeSize + (poolSize - committeeSize) * blockNumber / rampBlocks) poolSize := by
  have hproduct : (poolSize - committeeSize) * blockNumber < 2 ^ 64 :=
    (Nat.mul_le_mul_left _ h.le).trans_lt hramp
  rw [activePool, if_neg (by omega), Nat.mod_eq_of_lt hproduct]

theorem activePool_full (h : rampBlocks ≤ blockNumber) :
    activePool blockNumber poolSize committeeSize rampBlocks = poolSize := if_pos (.inr h)

theorem activePool_le (blockNumber : ℕ) :
    activePool blockNumber poolSize committeeSize rampBlocks ≤ poolSize := by
  unfold activePool
  split
  · exact le_rfl
  · exact min_le_right _ _

theorem le_activePool (hsize : committeeSize ≤ poolSize)
    (hramp : (poolSize - committeeSize) * rampBlocks < 2 ^ 64) (blockNumber : ℕ) :
    committeeSize ≤ activePool blockNumber poolSize committeeSize rampBlocks := by
  rcases lt_or_ge blockNumber rampBlocks with h | h
  · rw [activePool_ramp hramp h]
    exact le_min (Nat.le_add_right _ _) hsize
  · rw [activePool_full h]
    exact hsize

theorem activePool_mono (hramp : (poolSize - committeeSize) * rampBlocks < 2 ^ 64) :
    Monotone fun blockNumber => activePool blockNumber poolSize committeeSize rampBlocks := by
  intro before after hle
  rcases lt_or_ge after rampBlocks with h | h
  · simp only [activePool_ramp hramp h, activePool_ramp hramp (hle.trans_lt h)]
    gcongr
  · simp only [activePool_full h]
    exact activePool_le before

end Ramp

section Evidence

variable [PoolCrypto]

theorem draws_stepDraw (view : ℕ) (blockHash : B256) (active : ℕ) :
    Draws active (stepDraw view blockHash active) := by
  intro i hi
  have hlt := Nat.mod_lt (stepRandom view blockHash i) (Nat.sub_pos_of_lt hi)
  unfold stepDraw
  omega

theorem SimulatedCommitteePool.new_spec {config : CommitteePoolConfig}
    {pool : SimulatedCommitteePool} (h : new config = .ok pool) :
    pool.config = config ∧ config.committeeSize ≤ config.poolSize := by
  unfold new at h
  split at h
  · cases h
  · next hsize =>
    cases hderived : deriveFrom config.seed 0 config.poolSize with
    | error error =>
      rw [hderived] at h
      cases h
    | ok scalars =>
      rw [hderived] at h
      obtain rfl := Except.ok.inj h
      exact ⟨rfl, by omega⟩

namespace SimulatedCommitteePool

variable {pool : SimulatedCommitteePool}

def shuffledSlots (pool : SimulatedCommitteePool) (blockNumber : ℕ) (blockHash : B256) : List ℕ :=
  shuffled (stepDraw blockNumber blockHash (pool.activeSize blockNumber))
    (pool.activeSize blockNumber) (pool.activeSize blockNumber)

theorem committeeAt_eq (hsize : pool.config.committeeSize ≤ pool.activeSize blockNumber)
    (blockHash : B256) : pool.committeeAt blockNumber blockHash =
      (Lazy.run (stepDraw blockNumber blockHash (pool.activeSize blockNumber))
        pool.config.committeeSize).out := by
  rw [committeeAt, committee, min_eq_left hsize]

theorem buildEvidence_spec {blockHash receiptsRoot : B256} {evidence : ConsensusEvidence}
    (h : pool.buildEvidence blockNumber blockHash receiptsRoot = .ok evidence) :
    ∃ signature : Bytes, signature.length = 96 ∧
      evidence = ⟨blockNumber, blockHash, signature,
        (pool.committeeAt blockNumber blockHash).length % 2 ^ 16,
        fullBitmap (pool.committeeAt blockNumber blockHash).length,
        some ⟨receiptsRoot, signature, (pool.committeeAt blockNumber blockHash).length % 2 ^ 16,
          fullBitmap (pool.committeeAt blockNumber blockHash).length, 0⟩⟩ := by
  unfold buildEvidence at h
  simp only at h
  split at h
  · cases h
  · split at h
    · exact ⟨_, PoolCrypto.signH2V4_length _ _, (Except.ok.inj h).symm⟩
    · cases h

end SimulatedCommitteePool

omit [PoolCrypto] in
theorem length_padded (bytes : Bytes) (len : ℕ) : (padded bytes len).length = len := by
  rw [padded, length_append, length_take, length_replicate]
  omega

omit [PoolCrypto] in
theorem marshal_injective {view view' count : ℕ} {blockHash blockHash' : B256}
    {signature signature' packed packed' : Bytes} {mobile mobile' : MobileEvidence}
    (hview : view < 2 ^ 64) (hview' : view' < 2 ^ 64) (hsignature : signature.length = 96)
    (hsignature' : signature'.length = 96)
    (h : (⟨view, blockHash, signature, count, packed, some mobile⟩ : ConsensusEvidence).marshal =
      (⟨view', blockHash', signature', count, packed', some mobile'⟩ :
        ConsensusEvidence).marshal) :
    view = view' ∧ blockHash = blockHash' ∧ mobile.receiptsRoot = mobile'.receiptsRoot := by
  simp only [ConsensusEvidence.marshal, Option.elim_some, MobileEvidence.marshal,
    append_assoc] at h
  obtain ⟨hviews, h⟩ := append_inj h (by simp)
  obtain ⟨hhashes, h⟩ := append_inj h (by simp)
  obtain ⟨-, h⟩ := append_inj h (by rw [hsignature, hsignature'])
  obtain ⟨-, h⟩ := append_inj h rfl
  obtain ⟨-, h⟩ := append_inj h (by rw [length_padded, length_padded])
  obtain ⟨hroots, -⟩ := append_inj (cons_inj_right 1 |>.mp h) (by simp)
  refine ⟨leBytes_injective ?_ ?_ hviews, B256.toBytes_injective hhashes,
    B256.toBytes_injective hroots⟩
  · norm_num
    exact hview
  · norm_num
    exact hview'

/-- The committee of every block of an accepted pool, and its evidence. -/
theorem committee_draw (config : CommitteePoolConfig) (pool : SimulatedCommitteePool)
    (hnew : SimulatedCommitteePool.new config = .ok pool)
    (hramp : (config.poolSize - config.committeeSize) * config.rampBlocks < 2 ^ 64) :
    (∀ blockNumber blockHash,
      (pool.committeeAt blockNumber blockHash).length = config.committeeSize ∧
      (pool.committeeAt blockNumber blockHash).Nodup ∧
      (∀ slot ∈ pool.committeeAt blockNumber blockHash, slot < pool.activeSize blockNumber) ∧
      pool.committeeAt blockNumber blockHash =
        (pool.shuffledSlots blockNumber blockHash).take config.committeeSize) ∧
    (∀ blockNumber, config.committeeSize ≤ pool.activeSize blockNumber ∧
      pool.activeSize blockNumber ≤ config.poolSize) ∧
    Monotone pool.activeSize ∧
    ∀ number < 2 ^ 64, ∀ number' < 2 ^ 64, ∀ blockHash blockHash' receiptsRoot receiptsRoot',
      (number, blockHash, receiptsRoot) ≠ (number', blockHash', receiptsRoot') →
      ∀ evidence evidence', pool.buildEvidence number blockHash receiptsRoot = .ok evidence →
        pool.buildEvidence number' blockHash' receiptsRoot' = .ok evidence' →
        evidence.marshal ≠ evidence'.marshal := by
  obtain ⟨rfl, hsize⟩ := new_spec hnew
  have hactive : ∀ blockNumber, pool.config.committeeSize ≤ pool.activeSize blockNumber :=
    le_activePool hsize hramp
  have hlength : ∀ blockNumber blockHash,
      (pool.committeeAt blockNumber blockHash).length = pool.config.committeeSize := by
    intro blockNumber blockHash
    rw [committeeAt_eq (hactive blockNumber), Lazy.length_out_run]
  refine ⟨?_, fun blockNumber => ⟨hactive blockNumber, activePool_le blockNumber⟩,
    activePool_mono hramp, ?_⟩
  · intro blockNumber blockHash
    have hdraws := draws_stepDraw blockNumber blockHash (pool.activeSize blockNumber)
    refine ⟨hlength blockNumber blockHash, ?_⟩
    rw [committeeAt_eq (hactive blockNumber)]
    exact ⟨Lazy.nodup_out_run hdraws (hactive blockNumber),
      fun slot => Lazy.lt_of_mem_out_run hdraws (hactive blockNumber),
      Lazy.out_run_eq_take hdraws (hactive blockNumber)⟩
  · intro number hnumber number' hnumber' blockHash blockHash' receiptsRoot receiptsRoot' hne
      evidence evidence' hevidence hevidence' hmarshal
    obtain ⟨signature, hsignature, rfl⟩ := buildEvidence_spec hevidence
    obtain ⟨signature', hsignature', rfl⟩ := buildEvidence_spec hevidence'
    rw [hlength, hlength] at hmarshal
    obtain ⟨rfl, rfl, hroot⟩ :=
      marshal_injective hnumber hnumber' hsignature hsignature' hmarshal
    obtain rfl : receiptsRoot = receiptsRoot' := hroot
    exact hne rfl

end Evidence

section Sample

@[reducible]
def samplePoolCrypto : PoolCrypto where
  sha256 bytes := BitVec.ofNat 256 (leNat bytes)
  keyGen _ := some 1
  validScalar scalar := scalar != 0
  signH2V4 _ _ := List.replicate 96 7
  signH2V4_length _ _ := length_replicate

def samplePoolConfig : CommitteePoolConfig := ⟨9, 5, 3, 4⟩

def samplePool : SimulatedCommitteePool := ⟨samplePoolConfig, [1, 1, 1, 1, 1]⟩

attribute [local instance] samplePoolCrypto

theorem committee_draw_sample :
    SimulatedCommitteePool.new samplePoolConfig = .ok samplePool ∧
      samplePool.activeSize 2 = 4 ∧ (samplePool.committeeAt 2 0x1234).length = 3 ∧
      (samplePool.committeeAt 2 0x1234).Nodup ∧
      ∀ evidence evidence', samplePool.buildEvidence 2 0x1234 5 = .ok evidence →
        samplePool.buildEvidence 2 0x1234 6 = .ok evidence' →
        evidence.marshal ≠ evidence'.marshal := by
  have hnew : new samplePoolConfig = .ok samplePool := rfl
  obtain ⟨hmembers, -, -, hevidence⟩ :=
    committee_draw samplePoolConfig samplePool hnew (by decide)
  exact ⟨hnew, by decide, (hmembers 2 0x1234).1, (hmembers 2 0x1234).2.1,
    hevidence 2 (by decide) 2 (by decide) 0x1234 0x1234 5 6 (by decide)⟩

end Sample

end N42.Committee
