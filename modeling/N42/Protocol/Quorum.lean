import N42.Validator.Set
import N42.Protocol.Signing
import N42.Lib.Except
import N42.Lib.Quorum
import Mathlib.Data.List.AList
import Mathlib.Data.List.Sort

/-!
Vote and timeout collectors, and the verification of certificates (`protocol/quorum.rs`). Where the
source iterates over a `HashMap`, the environment chooses the order.
-/

namespace N42

open Lib List

/-- A `HashMap` or the value part of one. -/
abbrev Map (K V : Type) := AList fun _ : K => V

/-- The entries of a map in the iteration order that `rank` stands for. -/
def Map.iter {V : Type} (rank : ℕ → ℕ) (m : Map ℕ V) : List (ℕ × V) :=
  (m.entries.map fun e => (e.1, e.2)).insertionSort fun a b => rank a.1 ≤ rank b.1

/-- `batch_verify`: one flag for each tuple. The randomised multi-pairing accepts a
batch exactly when every tuple verifies, so the flags are the individual checks; a
batch over `MAX_BATCH_SIZE` is rejected as a whole. -/
def batchVerify [Crypto] (p : ConsensusSigningProfile)
    (tuples : List (Bytes × BlsSignature × BlsPublicKey)) : List Bool :=
  if 10000 < tuples.length then tuples.map fun _ => false
  else tuples.map fun t => p.verifySingle t.2.2 t.1 t.2.1

/-- The entries whose signature passes the batch check under the key at their index. -/
def batchChecked [Crypto] {V : Type} (entries : List (ℕ × V)) (signature : V → BlsSignature)
    (s : ValidatorSet) (message : Bytes) (p : ConsensusSigningProfile) : List (ℕ × V) :=
  let keyed := entries.filterMap fun e => (s.keyAt e.1).map fun pk => (e, pk)
  let good := batchVerify p (keyed.map fun u => (message, signature u.1.2, u.2))
  ((keyed.zip good).filter (·.2)).map (·.1.1)

/-- The entries that a certificate is built from: those marked as verified, then those
that pass the batch check. Indices outside the set are skipped. -/
def validEntries [Crypto] {V : Type} (entries : Map ℕ V) (signature : V → BlsSignature)
    (setSize : ℕ) (verified : List ℕ) (rank : ℕ → ℕ) (s : ValidatorSet) (message : Bytes)
    (p : ConsensusSigningProfile) : List (ℕ × V) :=
  let inRange := (entries.iter rank).filter fun e => e.1 < setSize
  (inRange.filter fun e => e.1 ∈ verified) ++
    batchChecked (inRange.filter fun e => e.1 ∉ verified) signature s message p

def signerBitmap {V : Type} (setSize : ℕ) (valid : List (ℕ × V)) : List Bool :=
  (List.range setSize).map fun i => valid.any fun e => e.1 == i

variable {V : Type} {rank : ℕ → ℕ} {m : Map ℕ V}

theorem Map.mem_iter {e : ℕ × V} : e ∈ m.iter rank ↔ m.lookup e.1 = some e.2 := by
  rw [Map.iter, (perm_insertionSort _ _).mem_iff, mem_map, ← Option.mem_def,
    AList.mem_lookup_iff]
  constructor
  · rintro ⟨entry, hmem, rfl⟩
    exact hmem
  · intro hmem
    exact ⟨_, hmem, rfl⟩

theorem Map.iter_nodup : ((m.iter rank).map Prod.fst).Nodup := by
  have hperm := (perm_insertionSort (fun a b : ℕ × V => rank a.1 ≤ rank b.1)
    (m.entries.map fun e => (e.1, e.2))).map Prod.fst
  rw [Map.iter, hperm.nodup_iff, map_map]
  exact m.keys_nodup

variable {i : ℕ}

section ValidEntries

variable [Crypto] {V : Type} {entries : Map ℕ V} {signature : V → BlsSignature} {setSize : ℕ}
  {verified : List ℕ} {rank : ℕ → ℕ} {s : ValidatorSet} {message : Bytes}
  {p : ConsensusSigningProfile}

omit [Crypto] in
theorem flagged_sublist (l : List (ℕ × V)) (good : List Bool) :
    List.Sublist ((((l.filterMap fun e => (s.keyAt e.1).map fun pk => (e, pk)).zip good).filter
      (·.2)).map (·.1.1)) l := by
  induction l generalizing good with
  | nil => simp
  | cons e l ih =>
    rw [filterMap_cons]
    cases s.keyAt e.1 with
    | none => exact (ih good).cons e
    | some pk =>
      cases good with
      | nil => simp
      | cons g good =>
        cases g with
        | false => simpa using (ih good).cons e
        | true => simpa using (ih good).cons_cons e

theorem batchChecked_sublist (signature : V → BlsSignature) (s : ValidatorSet) (message : Bytes)
    (p : ConsensusSigningProfile) (l : List (ℕ × V)) :
    List.Sublist (batchChecked l signature s message p) l :=
  flagged_sublist l _

theorem lookup_of_mem_validEntries {e : ℕ × V}
    (h : e ∈ validEntries entries signature setSize verified rank s message p) :
    entries.lookup e.1 = some e.2 ∧ e.1 < setSize := by
  have hrange : e ∈ (entries.iter rank).filter fun e => e.1 < setSize := by
    rcases mem_append.mp h with h | h
    · exact (mem_filter.mp h).1
    · exact (mem_filter.mp ((batchChecked_sublist signature s message p _).subset h)).1
  obtain ⟨hiter, hlt⟩ := mem_filter.mp hrange
  exact ⟨Map.mem_iter.mp hiter, by simpa using hlt⟩

theorem validEntries_nodup :
    ((validEntries entries signature setSize verified rank s message p).map Prod.fst).Nodup := by
  have hrange : (((entries.iter rank).filter fun e => e.1 < setSize).map Prod.fst).Nodup :=
    Map.iter_nodup.sublist (filter_sublist.map Prod.fst)
  have hrest := fun l => (batchChecked_sublist signature s message p l).map Prod.fst
  rw [validEntries, map_append, nodup_append]
  refine ⟨hrange.sublist (filter_sublist.map Prod.fst),
    (hrange.sublist (filter_sublist.map Prod.fst)).sublist (hrest _), ?_⟩
  -- no index is on both sides: one side is verified, the other is not
  rintro a ha b hb rfl
  obtain ⟨x, hx, rfl⟩ := mem_map.mp ha
  obtain ⟨y, hy, hxy⟩ := mem_map.mp ((hrest _).subset hb)
  have hin := (mem_filter.mp hx).2
  have hout := (mem_filter.mp hy).2
  simp only [decide_eq_true_eq] at hin hout
  exact hout (hxy ▸ hin)

omit [Crypto] in
theorem length_le_count_signerBitmap {valid : List (ℕ × V)} (hnodup : (valid.map Prod.fst).Nodup)
    (hlt : ∀ i ∈ valid.map Prod.fst, i < setSize) :
    valid.length ≤ (signerBitmap setSize valid).count true := by
  rw [← length_map Prod.fst]
  apply length_le_count_range hnodup hlt
  intro k hk
  obtain ⟨e, he, rfl⟩ := mem_map.mp hk
  exact any_eq_true.mpr ⟨e, he, by simp⟩

theorem lt_of_mem_validEntries :
    ∀ i ∈ (validEntries entries signature setSize verified rank s message p).map Prod.fst,
      i < setSize := by
  intro i hi
  obtain ⟨e, he, rfl⟩ := mem_map.mp hi
  exact (lookup_of_mem_validEntries he).2

theorem mem_of_signerBitmap (h : (signerBitmap setSize
      (validEntries entries signature setSize verified rank s message p))[i]? = some true) :
    i ∈ entries := by
  simp only [signerBitmap, getElem?_map, Option.map_eq_some_iff, any_eq_true,
    beq_iff_eq] at h
  obtain ⟨j, hj, e, he, rfl⟩ := h
  obtain ⟨hlt, hi⟩ := List.getElem?_eq_some_iff.mp hj
  rw [List.getElem_range] at hi
  rw [hi]
  exact AList.lookup_isSome.mp (by rw [(lookup_of_mem_validEntries he).1]; rfl)

end ValidEntries

structure VoteCollector where
  view : ℕ
  blockHash : B256
  votes : Map ℕ BlsSignature
  setSize : ℕ
  verified : List ℕ

variable {p : ConsensusSigningProfile}

namespace VoteCollector

def new (view : ℕ) (blockHash : B256) (setSize : ℕ) : VoteCollector where
  view := view
  blockHash := blockHash
  votes := ∅
  setSize := setSize
  verified := []

def voteCount (c : VoteCollector) : ℕ := c.votes.keys.length

def hasQuorum (c : VoteCollector) (quorumSize : ℕ) : Bool := quorumSize ≤ c.voteCount

variable (c : VoteCollector) (validatorIndex : ℕ) (signature : BlsSignature)

/-- `add_vote`; `none` is the source's `DuplicateVote`. -/
def addVote : Option VoteCollector :=
  if validatorIndex ∈ c.votes then none
  else some { c with votes := c.votes.insert validatorIndex signature }

def addVerifiedVote : Option VoteCollector :=
  if validatorIndex ∈ c.votes then none
  else some { c with
    votes := c.votes.insert validatorIndex signature
    verified := validatorIndex :: c.verified }

theorem addVerifiedVote_eq_some {c c' : VoteCollector} {signature : BlsSignature}
    (h : c.addVerifiedVote i signature = some c') :
    c'.view = c.view ∧ c'.blockHash = c.blockHash ∧ ∀ j ∈ c'.votes, j = i ∨ j ∈ c.votes := by
  unfold addVerifiedVote at h
  split at h
  · cases h
  · cases h
    exact ⟨rfl, rfl, fun j hj => (AList.mem_insert _).mp hj⟩

def validVotes [Crypto] (c : VoteCollector) (rank : ℕ → ℕ) (s : ValidatorSet) (message : Bytes)
    (p : ConsensusSigningProfile) : List (ℕ × BlsSignature) :=
  validEntries c.votes id c.setSize c.verified rank s message p

def buildQcWithProfileMessage [Crypto] (c : VoteCollector) (rank : ℕ → ℕ) (s : ValidatorSet)
    (message : Bytes) (p : ConsensusSigningProfile) : Except ConsensusError QuorumCertificate := do
  if s.len ≠ c.setSize then
    throw (.invalidQC c.view ("validator_set size mismatch: collector " ++
      s!"set_size={c.setSize}, validator_set.len()={s.len}"))
  if c.voteCount < s.quorumSize then
    throw (.insufficientVotes c.view c.voteCount s.quorumSize)
  let valid := c.validVotes rank s message p
  if valid.length < s.quorumSize then
    throw (.insufficientVotes c.view valid.length s.quorumSize)
  match Crypto.aggregate (valid.map (·.2)) with
  | none => throw .blsSigningFailed
  | some aggregate =>
    return {
      view := c.view
      blockHash := c.blockHash
      aggregateSignature := aggregate
      signers := signerBitmap c.setSize valid }

/-- A built certificate is over the collector's block and a quorum of its votes. -/
theorem buildQcWithProfileMessage_ok [Crypto] {c : VoteCollector} {rank : ℕ → ℕ} {s : ValidatorSet}
    {message : Bytes} {qc : QuorumCertificate}
    (h : c.buildQcWithProfileMessage rank s message p = .ok qc) :
    qc.view = c.view ∧ qc.blockHash = c.blockHash ∧ s.IsQuorum qc.signers ∧
      ∀ i, qc.signers[i]? = some true → i ∈ c.votes := by
  simp only [buildQcWithProfileMessage, guard_bind_eq_ok, not_not, not_lt] at h
  obtain ⟨hsize, -, hvalid, h⟩ := h
  split at h
  · exact absurd h (by simp [throw_eq_ok])
  · rw [pure_eq_ok] at h
    subst h
    refine ⟨rfl, rfl, ⟨by simp [signerBitmap, hsize], ?_⟩, fun i hi => mem_of_signerBitmap hi⟩
    exact hvalid.trans (length_le_count_signerBitmap validEntries_nodup lt_of_mem_validEntries)

end VoteCollector

structure TimeoutCollector where
  view : ℕ
  timeouts : Map ℕ (BlsSignature × QuorumCertificate)
  setSize : ℕ
  verified : List ℕ

namespace TimeoutCollector

def new (view : ℕ) (setSize : ℕ) : TimeoutCollector where
  view := view
  timeouts := ∅
  setSize := setSize
  verified := []

def timeoutCount (c : TimeoutCollector) : ℕ := c.timeouts.keys.length

def hasQuorum (c : TimeoutCollector) (quorumSize : ℕ) : Bool := quorumSize ≤ c.timeoutCount

variable (c : TimeoutCollector) (validatorIndex : ℕ) (signature : BlsSignature)
  (highQc : QuorumCertificate)

def addTimeout : Option TimeoutCollector :=
  if validatorIndex ∈ c.timeouts then none
  else some { c with timeouts := c.timeouts.insert validatorIndex (signature, highQc) }

def addVerifiedTimeout : Option TimeoutCollector :=
  if validatorIndex ∈ c.timeouts then none
  else some { c with
    timeouts := c.timeouts.insert validatorIndex (signature, highQc)
    verified := validatorIndex :: c.verified }

theorem addVerifiedTimeout_eq_some {c c' : TimeoutCollector} {signature : BlsSignature}
    {highQc : QuorumCertificate} (h : c.addVerifiedTimeout i signature highQc = some c') :
    c'.view = c.view ∧ ∀ j sig qc, c'.timeouts.lookup j = some (sig, qc) →
      (j = i ∧ sig = signature ∧ qc = highQc) ∨ c.timeouts.lookup j = some (sig, qc) := by
  unfold addVerifiedTimeout at h
  split at h
  · cases h
  · cases h
    refine ⟨rfl, fun j sig qc hj => ?_⟩
    by_cases hji : j = i
    · subst hji
      simp only [AList.lookup_insert, Option.some.injEq, Prod.mk.injEq] at hj
      exact .inl ⟨rfl, hj.1.symm, hj.2.symm⟩
    · rw [AList.lookup_insert_ne hji] at hj
      exact .inr hj

def validTimeouts [Crypto] (c : TimeoutCollector) (rank : ℕ → ℕ) (s : ValidatorSet)
    (message : Bytes) (p : ConsensusSigningProfile) : List (ℕ × BlsSignature × QuorumCertificate) :=
  validEntries c.timeouts Prod.fst c.setSize c.verified rank s message p

/-- The first certificate of the highest view, in iteration order. -/
def highestQc : List QuorumCertificate → Option QuorumCertificate
  | [] => none
  | qc :: qcs => some (qcs.foldl (fun best q => if best.view < q.view then q else best) qc)

def buildTcWithProfile [Crypto] (c : TimeoutCollector) (rank : ℕ → ℕ) (s : ValidatorSet)
    (p : ConsensusSigningProfile) : Except ConsensusError TimeoutCertificate := do
  if s.len ≠ c.setSize then
    throw (.invalidTC c.view ("validator_set size mismatch: collector " ++
      s!"set_size={c.setSize}, validator_set.len()={s.len}"))
  if c.timeoutCount < s.quorumSize then
    throw (.insufficientVotes c.view c.timeoutCount s.quorumSize)
  let valid := c.validTimeouts rank s (p.timeoutMessage c.view) p
  if valid.length < s.quorumSize then
    throw (.insufficientVotes c.view valid.length s.quorumSize)
  match Crypto.aggregate (valid.map (·.2.1)), highestQc (valid.map (·.2.2)) with
  | none, _ => throw .blsSigningFailed
  | some _, none => throw (.invalidTC c.view "no high_qc found in timeout messages")
  | some aggregate, some highQc =>
    return {
      view := c.view
      aggregateSignature := aggregate
      signers := signerBitmap c.setSize valid
      highQc := highQc }

theorem highestQc_mem {qcs : List QuorumCertificate} {qc : QuorumCertificate}
    (h : highestQc qcs = some qc) : qc ∈ qcs := by
  cases qcs with
  | nil => simp [highestQc] at h
  | cons first rest =>
    simp only [highestQc, Option.some.injEq] at h
    subst h
    -- every step of the fold keeps its best or takes the next certificate
    suffices hfold : ∀ (l : List QuorumCertificate) (best : QuorumCertificate),
        l.foldl (fun best q => if best.view < q.view then q else best) best ∈ best :: l from
      hfold rest first
    intro l
    induction l with
    | nil => simp
    | cons q l ih =>
      intro best
      rw [foldl_cons]
      have hmem := ih (if best.view < q.view then q else best)
      by_cases hlt : best.view < q.view
      · rw [if_pos hlt] at hmem ⊢
        exact mem_cons_of_mem _ hmem
      · rw [if_neg hlt] at hmem ⊢
        simp only [mem_cons] at hmem ⊢
        tauto

/-- A built certificate is over a quorum of the collector's timeouts, and its high QC
came with one of them. -/
theorem buildTcWithProfile_ok [Crypto] {c : TimeoutCollector} {rank : ℕ → ℕ} {s : ValidatorSet}
    {tc : TimeoutCertificate} (h : c.buildTcWithProfile rank s p = .ok tc) :
    tc.view = c.view ∧ s.IsQuorum tc.signers ∧
      (∀ i, tc.signers[i]? = some true → i ∈ c.timeouts) ∧
      ∃ i sig, c.timeouts.lookup i = some (sig, tc.highQc) := by
  simp only [buildTcWithProfile, guard_bind_eq_ok, not_not, not_lt] at h
  obtain ⟨hsize, -, hvalid, h⟩ := h
  split at h
  · exact absurd h (by simp [throw_eq_ok])
  · exact absurd h (by simp [throw_eq_ok])
  · next aggregate highQc _ hhigh =>
    rw [pure_eq_ok] at h
    subst h
    refine ⟨rfl, ⟨by simp [signerBitmap, hsize], ?_⟩, fun i hi => mem_of_signerBitmap hi, ?_⟩
    · exact hvalid.trans (length_le_count_signerBitmap validEntries_nodup lt_of_mem_validEntries)
    · obtain ⟨e, he, hqc⟩ := mem_map.mp (highestQc_mem hhigh)
      refine ⟨e.1, e.2.1, ?_⟩
      rw [(lookup_of_mem_validEntries he).1, ← hqc]

end TimeoutCollector

inductive CertKind where
  | qc
  | tc

def CertKind.invalidError : CertKind → ℕ → String → ConsensusError
  | .qc, view, reason => .invalidQC view reason
  | .tc, view, reason => .invalidTC view reason

def signerIndices (signers : List Bool) : List ℕ :=
  (List.range signers.length).filter fun i => signers[i]? == some true

def collectSignerKeys (signers : List Bool) (s : ValidatorSet) (quorumSize view : ℕ)
    (kind : CertKind) : Except ConsensusError (List BlsPublicKey) := do
  if signers.length ≠ s.len then
    throw (kind.invalidError view
      s!"signers bitmap length mismatch: got {signers.length}, expected {s.len}")
  let signerCount := signers.count true
  if signerCount < quorumSize then
    throw (kind.invalidError view s!"insufficient signers: have {signerCount}, need {quorumSize}")
  (signerIndices signers).mapM s.getPublicKey

theorem mem_signerIndices {signers : List Bool} :
    i ∈ signerIndices signers ↔ signers[i]? = some true := by
  simp only [signerIndices, mem_filter, mem_range, beq_iff_eq, and_iff_right_iff_imp]
  intro h
  exact (List.getElem?_eq_some_iff.mp h).1

structure KeysOf (s : ValidatorSet) (indices : List ℕ) (pks : List BlsPublicKey) : Prop where
  complete : ∀ i ∈ indices, ∃ pk ∈ pks, s.keyAt i = some pk
  registered : ∀ pk ∈ pks, ∃ i, s.keyAt i = some pk

variable {s : ValidatorSet}

theorem keysOf_of_mapM {indices : List ℕ} {pks : List BlsPublicKey}
    (h : indices.mapM s.getPublicKey = .ok pks) : KeysOf s indices pks := by
  induction indices generalizing pks with
  | nil =>
    simp only [mapM_nil, pure_eq_ok] at h
    subst h
    exact ⟨by simp, by simp⟩
  | cons i indices ih =>
    rw [mapM_cons] at h
    simp only [bind_eq_ok, pure_eq_ok] at h
    obtain ⟨pk, hpk, rest, hrest, rfl⟩ := h
    have hi := ValidatorSet.getPublicKey_eq_ok.mp hpk
    refine ⟨fun j hj => ?_, fun pk' hpk' => ?_⟩
    · rcases mem_cons.mp hj with rfl | hj
      · exact ⟨pk, by simp, hi⟩
      · obtain ⟨pk', hmem, hkey⟩ := (ih hrest).complete j hj
        exact ⟨pk', by simp [hmem], hkey⟩
    · rcases mem_cons.mp hpk' with rfl | hmem
      · exact ⟨i, hi⟩
      · exact (ih hrest).registered pk' hmem

theorem collectSignerKeys_ok {signers : List Bool} {view : ℕ} {kind : CertKind}
    {pks : List BlsPublicKey} (h : collectSignerKeys signers s s.quorumSize view kind = .ok pks) :
    s.IsQuorum signers ∧ KeysOf s (signerIndices signers) pks := by
  simp only [collectSignerKeys, guard_bind_eq_ok, not_not, not_lt] at h
  obtain ⟨hlen, hquorum, hkeys⟩ := h
  exact ⟨⟨hlen, hquorum⟩, keysOf_of_mapM hkeys⟩

variable [Crypto]

/-- An aggregate signature over `message` that verifies for the signers of a bitmap. -/
def AggregateSigned (p : ConsensusSigningProfile) (s : ValidatorSet) (signers : List Bool)
    (signature : BlsSignature) (message : Bytes) : Prop :=
  ∃ pks, p.verifyAggregate message signature pks = true ∧ KeysOf s (signerIndices signers) pks

def verifyQcWithProfile (qc : QuorumCertificate) (s : ValidatorSet)
    (p : ConsensusSigningProfile) : Except ConsensusError Unit := do
  let signerPks ← collectSignerKeys qc.signers s s.quorumSize qc.view .qc
  if !p.verifyAggregate (p.voteMessage qc.view qc.blockHash) qc.aggregateSignature signerPks then
    throw (.invalidQC qc.view "aggregated signature verification failed")

variable (qc : QuorumCertificate) (s : ValidatorSet) (changesHash : B256)
  (p : ConsensusSigningProfile)

def verifyCommitQcWithProfile : Except ConsensusError Unit := do
  let signerPks ← collectSignerKeys qc.signers s s.quorumSize qc.view .qc
  if !p.verifyAggregate (p.commitMessage qc.view qc.blockHash changesHash)
      qc.aggregateSignature signerPks then
    throw (.invalidQC qc.view "commit QC aggregated signature verification failed")

def verifyQcAnyDomainWithProfile : Except ConsensusError Unit := do
  let signerPks ← collectSignerKeys qc.signers s s.quorumSize qc.view .qc
  if p.verifyAggregate (p.voteMessage qc.view qc.blockHash) qc.aggregateSignature signerPks then
    return
  if !p.verifyAggregate (p.commitMessage qc.view qc.blockHash changesHash)
      qc.aggregateSignature signerPks then
    throw (.invalidQC qc.view
      "aggregated signature verification failed (tried both prepare and commit domains)")

def verifyTcWithProfile (tc : TimeoutCertificate) (s : ValidatorSet)
    (p : ConsensusSigningProfile) : Except ConsensusError Unit := do
  let signerPks ← collectSignerKeys tc.signers s s.quorumSize tc.view .tc
  if !p.verifyAggregate (p.timeoutMessage tc.view) tc.aggregateSignature signerPks then
    throw (.invalidTC tc.view "aggregated signature verification failed")

variable {p : ConsensusSigningProfile} {qc : QuorumCertificate} {s : ValidatorSet}

theorem verifyQcWithProfile_ok (h : verifyQcWithProfile qc s p = .ok ()) :
    s.IsQuorum qc.signers ∧ AggregateSigned p s qc.signers qc.aggregateSignature
      (p.voteMessage qc.view qc.blockHash) := by
  simp only [verifyQcWithProfile, bind_eq_ok, guard_eq_ok] at h
  obtain ⟨pks, hkeys, hagg, -⟩ := h
  obtain ⟨hquorum, hmem⟩ := collectSignerKeys_ok hkeys
  exact ⟨hquorum, pks, by simpa using hagg, hmem⟩

theorem verifyCommitQcWithProfile_ok {changesHash : B256}
    (h : verifyCommitQcWithProfile qc s changesHash p = .ok ()) :
    s.IsQuorum qc.signers ∧ AggregateSigned p s qc.signers qc.aggregateSignature
      (p.commitMessage qc.view qc.blockHash changesHash) := by
  simp only [verifyCommitQcWithProfile, bind_eq_ok, guard_eq_ok] at h
  obtain ⟨pks, hkeys, hagg, -⟩ := h
  obtain ⟨hquorum, hmem⟩ := collectSignerKeys_ok hkeys
  exact ⟨hquorum, pks, by simpa using hagg, hmem⟩

theorem verifyQcAnyDomainWithProfile_ok {changesHash : B256}
    (h : verifyQcAnyDomainWithProfile qc s changesHash p = .ok ()) :
    s.IsQuorum qc.signers ∧
      (AggregateSigned p s qc.signers qc.aggregateSignature
          (p.voteMessage qc.view qc.blockHash) ∨
        AggregateSigned p s qc.signers qc.aggregateSignature
          (p.commitMessage qc.view qc.blockHash changesHash)) := by
  simp only [verifyQcAnyDomainWithProfile, bind_eq_ok] at h
  obtain ⟨pks, hkeys, h⟩ := h
  obtain ⟨hquorum, hmem⟩ := collectSignerKeys_ok hkeys
  split at h
  · next hvote => exact ⟨hquorum, .inl ⟨pks, hvote, hmem⟩⟩
  · rw [guard_eq_ok] at h
    exact ⟨hquorum, .inr ⟨pks, by simpa using h.1, hmem⟩⟩

theorem verifyTcWithProfile_ok {tc : TimeoutCertificate} (h : verifyTcWithProfile tc s p = .ok ()) :
    s.IsQuorum tc.signers ∧ AggregateSigned p s tc.signers tc.aggregateSignature
      (p.timeoutMessage tc.view) := by
  simp only [verifyTcWithProfile, bind_eq_ok, guard_eq_ok] at h
  obtain ⟨pks, hkeys, hagg, -⟩ := h
  obtain ⟨hquorum, hmem⟩ := collectSignerKeys_ok hkeys
  exact ⟨hquorum, pks, by simpa using hagg, hmem⟩

end N42
