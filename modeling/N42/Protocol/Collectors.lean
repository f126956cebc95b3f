import N42.Protocol.Quorum
import Mathlib.Tactic.IntervalCases

/-!
What a collector counts after any sequence of calls (`VoteCollector` and `TimeoutCollector` of
`protocol/quorum.rs`): a signer by the first signature it supplied, valid or not.
-/

namespace N42

open Lib List

/-- One call of a collector: `add_vote` or `add_verified_vote`, and the same for
timeouts. -/
structure Supplied (V : Type) where
  index : ℕ
  entry : V
  verified : Bool

namespace Supplied

variable {V : Type}

def first (calls : List (Supplied V)) (i : ℕ) : Option (Supplied V) :=
  calls.find? fun call => call.index == i

theorem first_append (calls : List (Supplied V)) (call : Supplied V) (i : ℕ) :
    first (calls ++ [call]) i =
      (first calls i).or (if call.index = i then some call else none) := by
  by_cases hi : call.index = i <;> simp [first]

/-- A map and its verified marks hold the first call of every signer. -/
structure Recorded (calls : List (Supplied V)) (entries : Map ℕ V) (verified : List ℕ) : Prop where
  lookup_eq : ∀ i, entries.lookup i = (first calls i).map (·.entry)
  mem_verified : ∀ i, i ∈ verified ↔ ∃ call, first calls i = some call ∧ call.verified = true

variable {calls : List (Supplied V)} {entries : Map ℕ V} {verified : List ℕ} {call : Supplied V}

theorem Recorded.nil : Recorded ([] : List (Supplied V)) ∅ [] := by
  constructor
  · simp [first]
  · simp [first]

theorem Recorded.mem_iff (h : Recorded calls entries verified) (i : ℕ) :
    i ∈ entries ↔ ∃ call, first calls i = some call := by
  rw [← AList.lookup_isSome, h.lookup_eq]
  simp [Option.isSome_iff_exists]

/-- A call for a signer that is held already is refused. -/
theorem Recorded.supply (h : Recorded calls entries verified) (call : Supplied V) :
    Recorded (calls ++ [call])
      (if call.index ∈ entries then entries else entries.insert call.index call.entry)
      (if call.index ∈ entries then verified
        else if call.verified then call.index :: verified else verified) := by
  by_cases hmem : call.index ∈ entries
  · obtain ⟨earlier, hearlier⟩ := (h.mem_iff _).mp hmem
    have hsame : ∀ i, first (calls ++ [call]) i = first calls i := by
      intro i
      rw [first_append]
      by_cases hi : call.index = i
      · rw [← hi, hearlier]
        rfl
      · simp [hi]
    rw [if_pos hmem, if_pos hmem]
    exact ⟨fun i => by rw [hsame, h.lookup_eq], fun i => by rw [hsame, h.mem_verified]⟩
  · have hnone : first calls call.index = none := by
      simpa [Option.eq_none_iff_forall_ne_some] using mt (h.mem_iff _).mpr hmem
    rw [if_neg hmem, if_neg hmem]
    constructor
    · intro i
      by_cases hi : i = call.index
      · subst hi
        simp [first_append, hnone]
      · simp [first_append, Ne.symm hi, AList.lookup_insert_ne hi, h.lookup_eq]
    · intro i
      by_cases hi : i = call.index
      · cases hv : call.verified <;> simp [hi, first_append, hnone, hv, h.mem_verified]
      · cases call.verified <;> simp [first_append, Ne.symm hi, hi, h.mem_verified]

end Supplied

open Supplied

def VoteCollector.supply (c : VoteCollector) (call : Supplied BlsSignature) : VoteCollector :=
  -- a refused call leaves the collector as it was
  (if call.verified then c.addVerifiedVote call.index call.entry
    else c.addVote call.index call.entry).getD c

variable (view : ℕ) (blockHash : B256) (setSize : ℕ) (calls : List (Supplied BlsSignature))

def VoteCollector.afterCalls : VoteCollector :=
  calls.foldl VoteCollector.supply (VoteCollector.new view blockHash setSize)

variable (c : TimeoutCollector) (call : Supplied (BlsSignature × QuorumCertificate))

def TimeoutCollector.supply : TimeoutCollector :=
  (if call.verified then c.addVerifiedTimeout call.index call.entry.1 call.entry.2
    else c.addTimeout call.index call.entry.1 call.entry.2).getD c

def TimeoutCollector.afterCalls (view setSize : ℕ)
    (calls : List (Supplied (BlsSignature × QuorumCertificate))) : TimeoutCollector :=
  calls.foldl TimeoutCollector.supply (TimeoutCollector.new view setSize)

theorem VoteCollector.supply_eq (c : VoteCollector) (call : Supplied BlsSignature) :
    c.supply call = { c with
      votes := if call.index ∈ c.votes then c.votes else c.votes.insert call.index call.entry
      verified := if call.index ∈ c.votes then c.verified
        else if call.verified then call.index :: c.verified else c.verified } := by
  unfold supply addVerifiedVote addVote
  by_cases hmem : call.index ∈ c.votes <;> cases call.verified <;> simp [hmem]

theorem TimeoutCollector.supply_eq : c.supply call = { c with
      timeouts :=
        if call.index ∈ c.timeouts then c.timeouts else c.timeouts.insert call.index call.entry
      verified := if call.index ∈ c.timeouts then c.verified
        else if call.verified then call.index :: c.verified else c.verified } := by
  unfold supply addVerifiedTimeout addTimeout
  by_cases hmem : call.index ∈ c.timeouts <;> cases call.verified <;> simp [hmem]

theorem VoteCollector.afterCalls_spec : ∃ votes verified, Recorded calls votes verified ∧
      afterCalls view blockHash setSize calls = ⟨view, blockHash, votes, setSize, verified⟩ := by
  induction calls using List.reverseRecOn with
  | nil => exact ⟨_, _, Recorded.nil, rfl⟩
  | append_singleton calls call ih =>
    obtain ⟨votes, verified, hrec, heq⟩ := ih
    refine ⟨_, _, hrec.supply call, ?_⟩
    rw [afterCalls] at heq ⊢
    rw [foldl_append, heq, foldl_cons, foldl_nil, supply_eq]

theorem TimeoutCollector.afterCalls_spec (view setSize : ℕ)
    (calls : List (Supplied (BlsSignature × QuorumCertificate))) :
    ∃ timeouts verified, Recorded calls timeouts verified ∧
      afterCalls view setSize calls = ⟨view, timeouts, setSize, verified⟩ := by
  induction calls using List.reverseRecOn with
  | nil => exact ⟨_, _, Recorded.nil, rfl⟩
  | append_singleton calls call ih =>
    obtain ⟨timeouts, verified, hrec, heq⟩ := ih
    refine ⟨_, _, hrec.supply call, ?_⟩
    rw [afterCalls] at heq ⊢
    rw [foldl_append, heq, foldl_cons, foldl_nil, supply_eq]

section Crypto

variable [Crypto]

/-- The signature that a signer of the set supplied first is valid for the message. -/
def CountedSigner {V : Type} (s : ValidatorSet) (p : ConsensusSigningProfile) (message : Bytes)
    (signature : V → BlsSignature) (calls : List (Supplied V)) (i : ℕ) : Prop :=
  ∃ pk call, s.keyAt i = some pk ∧ first calls i = some call ∧
    p.verifySingle pk message (signature call.entry) = true

/-- What the callers of a collector answer for: a recorded signature that was added as
verified is valid, and the unverified signatures fit in one batch. -/
structure CallerDuties {V : Type} (s : ValidatorSet) (p : ConsensusSigningProfile)
    (message : Bytes) (signature : V → BlsSignature) (calls : List (Supplied V)) : Prop where
  vouched : ∀ i call, i < s.len → first calls i = some call → call.verified = true →
    CountedSigner s p message signature calls i
  batch : ((List.range s.len).filter fun i =>
    (first calls i).any fun call => !call.verified).length ≤ 10000

/-- Valid signatures on one message aggregate, and the aggregate verifies under the
signers' keys in whatever order they are listed. -/
def AggregatesValid (suite : Ciphersuite) : Prop :=
  ∀ (message : Bytes) (signed : List (BlsPublicKey × BlsSignature)), signed ≠ [] →
    (∀ x ∈ signed, Crypto.verify suite x.1 message x.2 = true) →
    ∃ aggregate, Crypto.aggregate (signed.map Prod.snd) = some aggregate ∧
      ∀ pks, pks.Perm (signed.map Prod.fst) →
        Crypto.fastAggregateVerify suite pks message aggregate = true

variable {s : ValidatorSet} {p : ConsensusSigningProfile}

theorem mem_batchChecked {V : Type} {entries : List (ℕ × V)} {signature : V → BlsSignature}
    {message : Bytes} (hbatch : entries.length ≤ 10000) (e : ℕ × V) :
    e ∈ batchChecked entries signature s message p ↔
      e ∈ entries ∧ ∃ pk, s.keyAt e.1 = some pk ∧
        p.verifySingle pk message (signature e.2) = true := by
  have hlen : ¬10000 < ((entries.filterMap fun e => (s.keyAt e.1).map fun pk => (e, pk)).map
      fun u => (message, signature u.1.2, u.2)).length := by
    have hle := length_filterMap_le (fun e : ℕ × V => (s.keyAt e.1).map fun pk => (e, pk))
      entries
    rw [length_map]
    omega
  have hzip : ∀ (l : List ((ℕ × V) × BlsPublicKey)) (f : (ℕ × V) × BlsPublicKey → Bool),
      l.zip (l.map f) = l.map fun u => (u, f u) := by
    intro l f
    simpa using zip_map' (f := id) (g := f) (l := l)
  simp only [batchChecked, batchVerify, if_neg hlen, map_map, hzip]
  simp only [mem_map, mem_filter, mem_filterMap, Option.map_eq_some_iff]
  constructor
  · intro h
    obtain ⟨_, ⟨⟨u, ⟨e', hmem, pk, hkey, hu⟩, rfl⟩, hgood⟩, rfl⟩ := h
    subst hu
    exact ⟨hmem, pk, hkey, hgood⟩
  · intro h
    obtain ⟨hmem, pk, hkey, hgood⟩ := h
    exact ⟨_, ⟨⟨(e, pk), ⟨e, hmem, pk, hkey, rfl⟩, rfl⟩, hgood⟩, rfl⟩

section Counting

variable {V : Type} {calls : List (Supplied V)} {entries : Map ℕ V} {verified : List ℕ}
  {signature : V → BlsSignature} {rank : ℕ → ℕ} {s : ValidatorSet} {message : Bytes}
  {p : ConsensusSigningProfile}

theorem length_unverified_le (hrec : Recorded calls entries verified)
    (hduty : CallerDuties s p message signature calls) :
    (((entries.iter rank).filter fun e => e.1 < s.len).filter
      fun e => e.1 ∉ verified).length ≤ 10000 := by
  rw [← length_map Prod.fst]
  refine (List.Nodup.subperm ?_ ?_).length_le.trans hduty.batch
  · exact Map.iter_nodup.sublist
      ((filter_sublist.trans filter_sublist).map Prod.fst)
  · intro i hi
    obtain ⟨e, he, rfl⟩ := mem_map.mp hi
    obtain ⟨hrange, hout⟩ := mem_filter.mp he
    obtain ⟨hiter, hlt⟩ := mem_filter.mp hrange
    have hlookup := Map.mem_iter.mp hiter
    rw [hrec.lookup_eq, Option.map_eq_some_iff] at hlookup
    obtain ⟨call, hcall, -⟩ := hlookup
    have hunverified : call.verified = false := by
      rw [decide_eq_true_eq, hrec.mem_verified] at hout
      cases hv : call.verified with
      | false => rfl
      | true => exact absurd ⟨call, hcall, hv⟩ hout
    rw [mem_filter, hcall]
    exact ⟨by simpa using hlt, by simp [hunverified]⟩

theorem mem_validEntries (hrec : Recorded calls entries verified)
    (hduty : CallerDuties s p message signature calls) (e : ℕ × V) :
    e ∈ validEntries entries signature s.len verified rank s message p ↔
      entries.lookup e.1 = some e.2 ∧ CountedSigner s p message signature calls e.1 := by
  have hcall : ∀ {v : V}, entries.lookup e.1 = some v →
      ∃ call, first calls e.1 = some call ∧ call.entry = v := by
    intro v hv
    rwa [hrec.lookup_eq, Option.map_eq_some_iff] at hv
  rw [validEntries, mem_append, mem_batchChecked (length_unverified_le hrec hduty)]
  simp only [mem_filter, Map.mem_iter, decide_eq_true_eq]
  constructor
  · intro h
    rcases h with ⟨⟨hlookup, hlt⟩, hin⟩ | ⟨⟨⟨hlookup, hlt⟩, hout⟩, pk, hkey, hgood⟩
    · obtain ⟨call, hfirst, hv⟩ := (hrec.mem_verified _).mp hin
      exact ⟨hlookup, hduty.vouched _ call hlt hfirst hv⟩
    · obtain ⟨call, hfirst, hentry⟩ := hcall hlookup
      exact ⟨hlookup, pk, call, hkey, hfirst, by rw [hentry]; exact hgood⟩
  · intro h
    obtain ⟨hlookup, pk, call, hkey, hfirst, hgood⟩ := h
    obtain ⟨hlt, -⟩ := ValidatorSet.keyAt_eq_some.mp hkey
    by_cases hin : e.1 ∈ verified
    · exact .inl ⟨⟨hlookup, hlt⟩, hin⟩
    · obtain ⟨call', hfirst', hentry⟩ := hcall hlookup
      obtain rfl : call = call' := by simpa [hfirst] using hfirst'
      exact .inr ⟨⟨⟨hlookup, hlt⟩, hin⟩, pk, hkey, by rw [← hentry]; exact hgood⟩

/-- The counted signers, each once and with its first entry. -/
structure Tally (s : ValidatorSet) (p : ConsensusSigningProfile) (message : Bytes)
    (signature : V → BlsSignature) (calls : List (Supplied V)) (valid : List (ℕ × V)) : Prop where
  nodup : (valid.map Prod.fst).Nodup
  mem_iff : ∀ i v, (i, v) ∈ valid ↔
    CountedSigner s p message signature calls i ∧ (first calls i).map (·.entry) = some v

theorem tally_validEntries (rank : ℕ → ℕ) (hrec : Recorded calls entries verified)
    (hduty : CallerDuties s p message signature calls) :
    Tally s p message signature calls
      (validEntries entries signature s.len verified rank s message p) where
  nodup := validEntries_nodup
  mem_iff i v := by
    rw [mem_validEntries hrec hduty, ← hrec.lookup_eq]
    exact and_comm

variable {valid : List (ℕ × V)}

variable (h : Tally s p message signature calls valid)
include h

theorem Tally.mem_indices (i : ℕ) :
    i ∈ valid.map Prod.fst ↔ CountedSigner s p message signature calls i := by
  rw [mem_map]
  constructor
  · intro hi
    obtain ⟨e, he, rfl⟩ := hi
    exact ((h.mem_iff e.1 e.2).mp he).1
  · intro hi
    obtain ⟨pk, call, hkey, hfirst, hgood⟩ := hi
    exact ⟨(i, call.entry),
      (h.mem_iff _ _).mpr ⟨⟨pk, call, hkey, hfirst, hgood⟩, by rw [hfirst]; rfl⟩, rfl⟩

theorem Tally.lt : ∀ i ∈ valid.map Prod.fst, i < s.len := by
  intro i hi
  obtain ⟨pk, -, hkey, -⟩ := (h.mem_indices i).mp hi
  exact (ValidatorSet.keyAt_eq_some.mp hkey).1

theorem Tally.le_length_iff (quorum : ℕ) :
    quorum ≤ valid.length ↔ ∃ signers : Finset ℕ, quorum ≤ signers.card ∧
      ∀ i ∈ signers, CountedSigner s p message signature calls i := by
  have hcard : (valid.map Prod.fst).toFinset.card = valid.length := by
    rw [toFinset_card_of_nodup h.nodup, length_map]
  constructor
  · intro hle
    refine ⟨_, hle.trans hcard.ge, ?_⟩
    intro i hi
    exact (h.mem_indices i).mp (mem_toFinset.mp hi)
  · intro hsigners
    obtain ⟨signers, hquorum, hcounted⟩ := hsigners
    rw [← hcard]
    refine hquorum.trans (Finset.card_le_card ?_)
    intro i hi
    exact mem_toFinset.mpr ((h.mem_indices i).mpr (hcounted i hi))

end Counting

omit [Crypto] in
theorem getElem?_signerBitmap {V : Type} {setSize : ℕ} {valid : List (ℕ × V)}
    (hlt : ∀ i ∈ valid.map Prod.fst, i < setSize) (i : ℕ) :
    (signerBitmap setSize valid)[i]? = some true ↔ i ∈ valid.map Prod.fst := by
  have hany : (valid.any fun e => e.1 == i) = true ↔ i ∈ valid.map Prod.fst := by
    simp [any_eq_true]
  rw [← hany, signerBitmap, getElem?_map]
  by_cases hi : i < setSize
  · rw [getElem?_range hi]
    simp
  · have hout : i ∉ valid.map Prod.fst := fun hmem => hi (hlt i hmem)
    rw [getElem?_eq_none (by simpa using hi), hany]
    simpa using hout

omit [Crypto] in
/-- The signers that a check reads off the bitmap are those the builder put there. -/
theorem signerIndices_signerBitmap_perm {V : Type} {setSize : ℕ} {valid : List (ℕ × V)}
    (hnodup : (valid.map Prod.fst).Nodup) (hlt : ∀ i ∈ valid.map Prod.fst, i < setSize) :
    (signerIndices (signerBitmap setSize valid)).Perm (valid.map Prod.fst) := by
  have hindices : (signerIndices (signerBitmap setSize valid)).Nodup := nodup_range.filter _
  apply (perm_ext_iff_of_nodup hindices hnodup).mpr
  intro i
  rw [mem_signerIndices, getElem?_signerBitmap hlt]

def ValidatorSet.keyOr (s : ValidatorSet) (i : ℕ) : BlsPublicKey := (s.keyAt i).getD ⟨[]⟩

omit [Crypto] in
theorem ValidatorSet.keyAt_eq_keyOr {i : ℕ} (h : i < s.len) : s.keyAt i = some (s.keyOr i) := by
  obtain ⟨pk, hpk⟩ : ∃ pk, s.keyAt i = some pk := ⟨_, keyAt_eq_some.mpr ⟨h, rfl⟩⟩
  rw [keyOr, hpk]
  rfl

omit [Crypto] in
theorem ValidatorSet.mapM_getPublicKey {indices : List ℕ} (h : ∀ i ∈ indices, i < s.len) :
    indices.mapM s.getPublicKey = .ok (indices.map s.keyOr) := by
  induction indices with
  | nil => rfl
  | cons i indices ih =>
    have hi := getPublicKey_eq_ok.mpr (keyAt_eq_keyOr (h i (by simp)))
    rw [mapM_cons, hi, ih (fun j hj => h j (by simp [hj]))]
    rfl

variable {rank : ℕ → ℕ}

section Certificates

variable {V : Type} {calls : List (Supplied V)} {signature : V → BlsSignature}
  {s : ValidatorSet} {message : Bytes} {p : ConsensusSigningProfile} {valid : List (ℕ × V)}

theorem length_validEntries_le {entries : Map ℕ V} {verified : List ℕ} {setSize : ℕ} :
    (validEntries entries signature setSize verified rank s message p).length ≤
      entries.keys.length := by
  rw [← length_map Prod.fst]
  refine (validEntries_nodup.subperm ?_).length_le
  intro i hi
  obtain ⟨e, he, rfl⟩ := mem_map.mp hi
  change e.1 ∈ entries
  rw [← AList.lookup_isSome, (lookup_of_mem_validEntries he).1]
  rfl

theorem Tally.counted_of_bitmap (h : Tally s p message signature calls valid) {i : ℕ}
    (hi : (signerBitmap s.len valid)[i]? = some true) :
    CountedSigner s p message signature calls i :=
  (h.mem_indices i).mp ((getElem?_signerBitmap h.lt i).mp hi)

omit [Crypto] in
theorem Tally.ne_nil (hn : 0 < s.len) (hquorum : s.quorumSize ≤ valid.length) : valid ≠ [] := by
  intro hnil
  have hpos := (s.quorum_overlap hn).2
  rw [hnil, length_nil] at hquorum
  omega

/-- A quorum of counted entries aggregates to a signature that the check of a certificate
accepts for the bitmap of these entries. -/
theorem Tally.exists_aggregate (h : Tally s p message signature calls valid)
    (hbls : AggregatesValid p.ciphersuite) (hn : 0 < s.len)
    (hquorum : s.quorumSize ≤ valid.length) :
    ∃ aggregate, Crypto.aggregate (valid.map fun e => signature e.2) = some aggregate ∧
      ∀ view kind, ∃ pks, collectSignerKeys (signerBitmap s.len valid) s s.quorumSize view kind =
          .ok pks ∧ p.verifyAggregate message aggregate pks = true := by
  have hgood : ∀ e ∈ valid, p.verifySingle (s.keyOr e.1) message (signature e.2) = true := by
    intro e he
    obtain ⟨⟨pk, call, hkey, hfirst, hgood⟩, hentry⟩ := (h.mem_iff e.1 e.2).mp he
    rw [hfirst, Option.map_some, Option.some.injEq] at hentry
    rw [ValidatorSet.keyOr, hkey, ← hentry]
    exact hgood
  obtain ⟨aggregate, hagg, hverify⟩ := hbls message
    (valid.map fun e => (s.keyOr e.1, signature e.2)) (by simpa using Tally.ne_nil hn hquorum) (by
      intro x hx
      obtain ⟨e, he, rfl⟩ := mem_map.mp hx
      exact hgood e he)
  have hperm := signerIndices_signerBitmap_perm h.nodup h.lt
  refine ⟨aggregate, ?_, ?_⟩
  · rw [map_map] at hagg
    exact hagg
  · intro view kind
    refine ⟨(signerIndices (signerBitmap s.len valid)).map s.keyOr, ?_, ?_⟩
    · have hcount := length_le_count_signerBitmap h.nodup h.lt
      rw [collectSignerKeys, guard_bind_eq_ok, guard_bind_eq_ok]
      refine ⟨by simp [signerBitmap], not_lt.mpr (hquorum.trans hcount), ?_⟩
      apply ValidatorSet.mapM_getPublicKey
      intro i hi
      exact h.lt i (hperm.mem_iff.mp hi)
    · apply hverify
      have hkeys := hperm.map s.keyOr
      simpa [map_map, Function.comp_def] using hkeys

end Certificates

/-- The round a vote collector is for: the message of its votes and the check that its
certificate has to pass. -/
inductive VoteRound where
  | prepare
  | commit (changesHash : B256)

def VoteRound.message (round : VoteRound) (p : ConsensusSigningProfile) (view : ℕ)
    (blockHash : B256) : Bytes :=
  match round with
  | .prepare => p.voteMessage view blockHash
  | .commit changesHash => p.commitMessage view blockHash changesHash

def VoteRound.verify (round : VoteRound) (qc : QuorumCertificate) (s : ValidatorSet)
    (p : ConsensusSigningProfile) : Except ConsensusError Unit :=
  match round with
  | .prepare => verifyQcWithProfile qc s p
  | .commit changesHash => verifyCommitQcWithProfile qc s changesHash p

variable {qc : QuorumCertificate} {round : VoteRound}

theorem VoteRound.verify_eq_ok {pks : List BlsPublicKey}
    (hkeys : collectSignerKeys qc.signers s s.quorumSize qc.view .qc = .ok pks) (hagg :
      p.verifyAggregate (round.message p qc.view qc.blockHash) qc.aggregateSignature pks = true) :
    round.verify qc s p = .ok () := by
  cases round with
  | prepare =>
    simp only [VoteRound.message] at hagg
    simp only [VoteRound.verify, verifyQcWithProfile, bind_eq_ok, guard_eq_ok]
    exact ⟨pks, hkeys, by simpa using hagg, rfl⟩
  | commit changesHash =>
    simp only [VoteRound.message] at hagg
    simp only [VoteRound.verify, verifyCommitQcWithProfile, bind_eq_ok, guard_eq_ok]
    exact ⟨pks, hkeys, by simpa using hagg, rfl⟩

variable {s : ValidatorSet} {view : ℕ}

namespace VoteCollector

variable {p : ConsensusSigningProfile}

theorem buildQcWithProfileMessage_eq_ok {c : VoteCollector} {message : Bytes}
    (hsize : c.setSize = s.len) : c.buildQcWithProfileMessage rank s message p = .ok qc ↔
      s.quorumSize ≤ (c.validVotes rank s message p).length ∧
        ∃ aggregate, Crypto.aggregate ((c.validVotes rank s message p).map (·.2)) =
            some aggregate ∧
          ⟨c.view, c.blockHash, aggregate, signerBitmap s.len (c.validVotes rank s message p)⟩ =
            qc := by
  have hle : (c.validVotes rank s message p).length ≤ c.voteCount := length_validEntries_le
  simp only [buildQcWithProfileMessage, guard_bind_eq_ok, hsize, ne_eq, not_true_eq_false,
    not_false_eq_true, true_and, not_lt]
  cases hagg : Crypto.aggregate ((c.validVotes rank s message p).map (·.2)) with
  | none => simp [throw_eq_ok]
  | some aggregate =>
    simp only [pure_eq_ok, Option.some.injEq, exists_eq_left']
    exact ⟨fun h => h.2, fun h => ⟨h.1.trans hle, h⟩⟩

def built (rank : ℕ → ℕ) (s : ValidatorSet) (p : ConsensusSigningProfile) (round : VoteRound)
    (view : ℕ) (blockHash : B256) (calls : List (Supplied BlsSignature)) :
    Except ConsensusError QuorumCertificate :=
  (afterCalls view blockHash s.len calls).buildQcWithProfileMessage rank s
    (round.message p view blockHash) p

/-- A vote collector is exact: it builds a certificate exactly when a quorum of distinct
signers of the set is counted, the certificate names only such signers, and the check of
its round accepts it. -/
structure Exact (rank : ℕ → ℕ) (s : ValidatorSet) (p : ConsensusSigningProfile) (round : VoteRound)
    (view : ℕ) (blockHash : B256) (calls : List (Supplied BlsSignature)) : Prop where
  builds_iff : (∃ qc, built rank s p round view blockHash calls = .ok qc) ↔
    ∃ signers : Finset ℕ, s.quorumSize ≤ signers.card ∧
      ∀ i ∈ signers, CountedSigner s p (round.message p view blockHash) id calls i
  signers_counted : ∀ qc, built rank s p round view blockHash calls = .ok qc →
    ∀ i, qc.signers[i]? = some true →
      CountedSigner s p (round.message p view blockHash) id calls i
  accepted : ∀ qc, built rank s p round view blockHash calls = .ok qc →
    round.verify qc s p = .ok ()

variable {calls : List (Supplied BlsSignature)}

theorem exists_tally (s : ValidatorSet) (rank : ℕ → ℕ) {blockHash : B256}
    (hduty : CallerDuties s p (round.message p view blockHash) id calls) :
    ∃ valid, Tally s p (round.message p view blockHash) id calls valid ∧
      ∀ qc, built rank s p round view blockHash calls = .ok qc ↔
        s.quorumSize ≤ valid.length ∧
          ∃ aggregate, Crypto.aggregate (valid.map (·.2)) = some aggregate ∧
            ⟨view, blockHash, aggregate, signerBitmap s.len valid⟩ = qc := by
  obtain ⟨votes, verified, hrec, heq⟩ := afterCalls_spec view blockHash s.len calls
  refine ⟨_, tally_validEntries rank hrec hduty, ?_⟩
  intro qc
  rw [built, heq, buildQcWithProfileMessage_eq_ok rfl]
  rfl

theorem exact_of_duties (hbls : AggregatesValid p.ciphersuite) (hn : 0 < s.len) (rank : ℕ → ℕ)
    {blockHash : B256} (hduty : CallerDuties s p (round.message p view blockHash) id calls) :
    Exact rank s p round view blockHash calls := by
  obtain ⟨valid, htally, hbuilt⟩ := exists_tally s rank hduty
  constructor
  · simp only [hbuilt, ← htally.le_length_iff]
    constructor
    · intro h
      obtain ⟨qc, hquorum, -⟩ := h
      exact hquorum
    · intro h
      obtain ⟨aggregate, hagg, -⟩ := htally.exists_aggregate hbls hn h
      exact ⟨_, h, aggregate, hagg, rfl⟩
  · intro qc hqc i hi
    obtain ⟨-, aggregate, -, rfl⟩ := (hbuilt qc).mp hqc
    exact htally.counted_of_bitmap hi
  · intro qc hqc
    obtain ⟨hquorum, aggregate, hagg, rfl⟩ := (hbuilt qc).mp hqc
    obtain ⟨aggregate', hagg', hkeys⟩ := htally.exists_aggregate hbls hn hquorum
    obtain rfl : aggregate' = aggregate := Option.some.inj (hagg'.symm.trans hagg)
    obtain ⟨pks, hpks, hverify⟩ := hkeys view .qc
    exact VoteRound.verify_eq_ok hpks hverify

end VoteCollector

namespace TimeoutCollector

variable {qcs : List QuorumCertificate}

omit [Crypto] in
theorem view_le_highestQc (h : highestQc qcs = some qc) : ∀ q ∈ qcs, q.view ≤ qc.view := by
  cases qcs with
  | nil => simp
  | cons firstQc rest =>
    obtain rfl := Option.some.inj h
    clear h
    induction rest generalizing firstQc with
    | nil => simp
    | cons next l ih =>
      obtain ⟨hbest, hrest⟩ := forall_mem_cons.mp
        (ih (if firstQc.view < next.view then next else firstQc))
      refine forall_mem_cons.mpr ⟨le_trans ?_ hbest, forall_mem_cons.mpr ⟨le_trans ?_ hbest, hrest⟩⟩
      · split <;> omega
      · split <;> omega

omit [Crypto] in
theorem exists_highestQc (h : qcs ≠ []) : ∃ qc, highestQc qcs = some qc := by
  cases qcs with
  | nil => exact absurd rfl h
  | cons qc qcs => exact ⟨_, rfl⟩

variable {p : ConsensusSigningProfile}

theorem buildTcWithProfile_eq_ok {c : TimeoutCollector} {tc : TimeoutCertificate}
    (hsize : c.setSize = s.len) : c.buildTcWithProfile rank s p = .ok tc ↔
      s.quorumSize ≤ (c.validTimeouts rank s (p.timeoutMessage c.view) p).length ∧
        ∃ aggregate highQc,
          Crypto.aggregate ((c.validTimeouts rank s (p.timeoutMessage c.view) p).map (·.2.1)) =
            some aggregate ∧
          highestQc ((c.validTimeouts rank s (p.timeoutMessage c.view) p).map (·.2.2)) =
            some highQc ∧
          ⟨c.view, aggregate, signerBitmap s.len
            (c.validTimeouts rank s (p.timeoutMessage c.view) p), highQc⟩ = tc := by
  have hle : (c.validTimeouts rank s (p.timeoutMessage c.view) p).length ≤ c.timeoutCount :=
    length_validEntries_le
  simp only [buildTcWithProfile, guard_bind_eq_ok, hsize, ne_eq, not_true_eq_false,
    not_false_eq_true, true_and, not_lt]
  cases hagg : Crypto.aggregate
      ((c.validTimeouts rank s (p.timeoutMessage c.view) p).map (·.2.1)) with
  | none => simp [throw_eq_ok]
  | some aggregate =>
    cases hhigh : highestQc ((c.validTimeouts rank s (p.timeoutMessage c.view) p).map (·.2.2)) with
    | none => simp [throw_eq_ok]
    | some highQc =>
      simp only [pure_eq_ok, Option.some.injEq, exists_and_left, exists_eq_left']
      exact ⟨fun h => h.2, fun h => ⟨h.1.trans hle, h⟩⟩

def built (rank : ℕ → ℕ) (s : ValidatorSet) (p : ConsensusSigningProfile) (view : ℕ)
    (calls : List (Supplied (BlsSignature × QuorumCertificate))) :
    Except ConsensusError TimeoutCertificate :=
  (afterCalls view s.len calls).buildTcWithProfile rank s p

/-- A timeout collector is exact, and the high QC of its certificate has the highest view
among the timeouts that were counted. -/
structure Exact (rank : ℕ → ℕ) (s : ValidatorSet) (p : ConsensusSigningProfile) (view : ℕ)
    (calls : List (Supplied (BlsSignature × QuorumCertificate))) : Prop where
  builds_iff : (∃ tc, built rank s p view calls = .ok tc) ↔
    ∃ signers : Finset ℕ, s.quorumSize ≤ signers.card ∧
      ∀ i ∈ signers, CountedSigner s p (p.timeoutMessage view) Prod.fst calls i
  signers_counted : ∀ tc, built rank s p view calls = .ok tc → ∀ i, tc.signers[i]? = some true →
    CountedSigner s p (p.timeoutMessage view) Prod.fst calls i
  accepted : ∀ tc, built rank s p view calls = .ok tc → verifyTcWithProfile tc s p = .ok ()
  highQc_counted : ∀ tc, built rank s p view calls = .ok tc → ∃ i call,
    CountedSigner s p (p.timeoutMessage view) Prod.fst calls i ∧ first calls i = some call ∧
      call.entry.2 = tc.highQc
  highQc_maximal : ∀ tc, built rank s p view calls = .ok tc → ∀ i call,
    CountedSigner s p (p.timeoutMessage view) Prod.fst calls i → first calls i = some call →
      call.entry.2.view ≤ tc.highQc.view

variable {calls : List (Supplied (BlsSignature × QuorumCertificate))}

theorem exists_tally (s : ValidatorSet) (rank : ℕ → ℕ)
    (hduty : CallerDuties s p (p.timeoutMessage view) Prod.fst calls) :
    ∃ valid, Tally s p (p.timeoutMessage view) Prod.fst calls valid ∧
      ∀ tc, built rank s p view calls = .ok tc ↔ s.quorumSize ≤ valid.length ∧
        ∃ aggregate highQc, Crypto.aggregate (valid.map (·.2.1)) = some aggregate ∧
          highestQc (valid.map (·.2.2)) = some highQc ∧
            ⟨view, aggregate, signerBitmap s.len valid, highQc⟩ = tc := by
  obtain ⟨timeouts, verified, hrec, heq⟩ := afterCalls_spec view s.len calls
  refine ⟨_, tally_validEntries rank hrec hduty, ?_⟩
  intro tc
  rw [built, heq, buildTcWithProfile_eq_ok rfl]
  rfl

theorem exact_of_duties (hbls : AggregatesValid p.ciphersuite) (hn : 0 < s.len) (rank : ℕ → ℕ)
    (hduty : CallerDuties s p (p.timeoutMessage view) Prod.fst calls) :
    Exact rank s p view calls := by
  obtain ⟨valid, htally, hbuilt⟩ := exists_tally s rank hduty
  constructor
  · simp only [hbuilt, ← htally.le_length_iff]
    constructor
    · intro h
      obtain ⟨tc, hquorum, -⟩ := h
      exact hquorum
    · intro h
      obtain ⟨aggregate, hagg, -⟩ := htally.exists_aggregate hbls hn h
      obtain ⟨highQc, hhigh⟩ := @exists_highestQc (valid.map (·.2.2))
        (by simpa using Tally.ne_nil hn h)
      exact ⟨_, h, aggregate, highQc, hagg, hhigh, rfl⟩
  · intro tc htc i hi
    obtain ⟨-, aggregate, highQc, -, -, rfl⟩ := (hbuilt tc).mp htc
    exact htally.counted_of_bitmap hi
  · intro tc htc
    obtain ⟨hquorum, aggregate, highQc, hagg, -, rfl⟩ := (hbuilt tc).mp htc
    obtain ⟨aggregate', hagg', hkeys⟩ := htally.exists_aggregate hbls hn hquorum
    obtain rfl : aggregate' = aggregate := Option.some.inj (hagg'.symm.trans hagg)
    obtain ⟨pks, hpks, hverify⟩ := hkeys view .tc
    simp only [verifyTcWithProfile, bind_eq_ok, guard_eq_ok]
    exact ⟨pks, hpks, by rw [hverify]; simp, rfl⟩
  · intro tc htc
    obtain ⟨-, aggregate, highQc, -, hhigh, rfl⟩ := (hbuilt tc).mp htc
    obtain ⟨e, he, hqc⟩ := mem_map.mp (highestQc_mem hhigh)
    obtain ⟨hcounted, hentry⟩ := (htally.mem_iff e.1 e.2).mp he
    obtain ⟨call, hfirst, hentry⟩ := Option.map_eq_some_iff.mp hentry
    exact ⟨e.1, call, hcounted, hfirst, by rw [hentry, hqc]⟩
  · intro tc htc i call hcounted hfirst
    obtain ⟨-, aggregate, highQc, -, hhigh, rfl⟩ := (hbuilt tc).mp htc
    apply view_le_highestQc hhigh
    have hmem := (htally.mem_iff i call.entry).mpr ⟨hcounted, by rw [hfirst]; rfl⟩
    exact mem_map.mpr ⟨_, hmem, rfl⟩

end TimeoutCollector

/-- Whatever calls a collector received, and in whatever order its map is iterated over:
the first signature of a signer decides, and what is built from a quorum of these passes
the check. -/
theorem collectors_exact (p : ConsensusSigningProfile) (hbls : AggregatesValid p.ciphersuite)
    (s : ValidatorSet) (hn : 0 < s.len) (rank : ℕ → ℕ) (view : ℕ) :
    (∀ (blockHash : B256) (round : VoteRound) (calls : List (Supplied BlsSignature)),
      CallerDuties s p (round.message p view blockHash) id calls →
        VoteCollector.Exact rank s p round view blockHash calls) ∧
    ∀ calls : List (Supplied (BlsSignature × QuorumCertificate)),
      CallerDuties s p (p.timeoutMessage view) Prod.fst calls →
        TimeoutCollector.Exact rank s p view calls := by
  constructor
  · intro blockHash round calls hduty
    exact VoteCollector.exact_of_duties hbls hn rank hduty
  · intro calls hduty
    exact TimeoutCollector.exact_of_duties hbls hn rank hduty

end Crypto

/-- BLS with the discrete logarithms in the open: a key is the length of its bytes, the
message is hashed to its length, and a signature is their product. -/
@[reducible] def exponentCrypto : Crypto where
  keyGen seed := ⟨seed⟩
  publicKey sk := ⟨sk.scalar⟩
  sign _ sk message := ⟨List.replicate (sk.scalar.length * message.length) 0⟩
  verify _ pk message signature :=
    signature.toBytes.length == pk.toBytes.length * message.length
  validate pk := !pk.toBytes.isEmpty
  aggregate signatures :=
    if signatures.isEmpty then none
    else some ⟨List.replicate (signatures.map (·.toBytes.length)).sum 0⟩
  fastAggregateVerify _ pks message signature :=
    signature.toBytes.length ==
      (pks.map (·.toBytes.length)).sum * message.length
  blake3 _ := 0
  serializeChanges _ := []
  parsePeerId := some

attribute [local instance] exponentCrypto

theorem exponentCrypto_aggregatesValid (suite : Ciphersuite) : AggregatesValid suite := by
  intro message signed hne hvalid
  refine ⟨_, if_neg (by simpa using hne), ?_⟩
  intro pks hperm
  have hsum : ((signed.map Prod.snd).map (·.toBytes.length)).sum =
      ((signed.map Prod.fst).map (·.toBytes.length)).sum * message.length := by
    clear hne hperm
    induction signed with
    | nil => simp
    | cons x signed ih =>
      have hx : x.2.toBytes.length = x.1.toBytes.length * message.length := by
        exact beq_iff_eq.mp (hvalid x (by simp))
      have hrest := ih fun y hy => hvalid y (by simp [hy])
      simp only [map_cons, sum_cons]
      rw [hx, hrest, Nat.add_mul]
  have hkeys := (hperm.map fun pk : BlsPublicKey => pk.toBytes.length).sum_nat
  apply beq_iff_eq.mpr
  rw [length_replicate, hsum, hkeys]

def fourValidators : ValidatorSet where
  validators := (List.range 4).map fun i => ⟨BitVec.ofNat 160 i, ⟨List.replicate (i + 1) 0⟩, none⟩
  faultTolerance := 1
  faultTolerance_le := by simp [maxFaultToleranceForLen]

def signatureOf (i : ℕ) (message : Bytes) : BlsSignature :=
  ⟨List.replicate ((i + 1) * message.length) 0⟩

/-- Votes of the four validators and one from outside: one verified by the caller, one
invalid, one supplied twice. -/
def mixedVotes : List (Supplied BlsSignature) :=
  [⟨9, ⟨[]⟩, false⟩, ⟨1, signatureOf 1 (signingMessage 7 1), true⟩, ⟨2, ⟨[]⟩, false⟩,
    ⟨0, signatureOf 0 (signingMessage 7 1), false⟩, ⟨0, ⟨[]⟩, true⟩,
    ⟨3, signatureOf 3 (signingMessage 7 1), false⟩]

/-- An unverified timeout of every validator, each with a certificate of its own view. -/
def mixedTimeouts : List (Supplied (BlsSignature × QuorumCertificate)) :=
  (List.range 4).map fun i =>
    ⟨i, (signatureOf i (timeoutSigningMessage 7), ⟨i, 0, ⟨[]⟩, []⟩), false⟩

theorem mixedVotes_duties :
    CallerDuties fourValidators .native (signingMessage 7 1) id mixedVotes where
  vouched := by
    intro i call hi hfirst hv
    have hindex : i = 1 := by
      change i < 4 at hi
      interval_cases i
      · cases hfirst
        cases hv
      · rfl
      · cases hfirst
        cases hv
      · cases hfirst
        cases hv
    rw [hindex] at hfirst ⊢
    exact ⟨_, _, rfl, rfl, by decide⟩
  batch := by decide

theorem mixedTimeouts_duties :
    CallerDuties fourValidators .native (timeoutSigningMessage 7) Prod.fst mixedTimeouts where
  vouched := by
    intro i call hi hfirst hv
    obtain ⟨j, -, rfl⟩ := mem_map.mp (mem_of_find?_eq_some hfirst)
    cases hv
  batch := by decide

theorem collectors_exact_mixed :
    VoteCollector.Exact id fourValidators .native .prepare 7 1 mixedVotes ∧
      TimeoutCollector.Exact id fourValidators .native 7 mixedTimeouts :=
  ⟨(collectors_exact .native (exponentCrypto_aggregatesValid _) fourValidators (by decide) id
      7).1 1 .prepare mixedVotes mixedVotes_duties,
    (collectors_exact .native (exponentCrypto_aggregatesValid _) fourValidators (by decide) id
      7).2 mixedTimeouts mixedTimeouts_duties⟩

/-- Every validator supplies an invalid signature and then a valid one. -/
def lateVotes : List (Supplied BlsSignature) :=
  (List.range 4).flatMap fun i =>
    [⟨i, ⟨[]⟩, false⟩, ⟨i, signatureOf i (signingMessage 7 1), false⟩]

/-- Three invalid signatures that the caller vouches for. -/
def vouchedVotes : List (Supplied BlsSignature) := (List.range 3).map fun i => ⟨i, ⟨[]⟩, true⟩

/-- A collector does not look past the first signature of a signer, so a valid one that
comes second does not count, and it does not look at a signature that is added as
verified, so what it builds from these may fail the check. -/
theorem collectors_trust_calls :
    ((∀ i < 4, ∃ call ∈ lateVotes, call.index = i ∧ ConsensusSigningProfile.native.verifySingle
        (fourValidators.keyOr i) (signingMessage 7 1) call.entry = true) ∧
      (VoteCollector.afterCalls 7 1 4 lateVotes).buildQcWithProfileMessage id fourValidators
        (signingMessage 7 1) .native = .error (.insufficientVotes 7 0 3)) ∧
    (∀ call ∈ vouchedVotes, ∀ i < 4, ConsensusSigningProfile.native.verifySingle
        (fourValidators.keyOr i) (signingMessage 7 1) call.entry = false) ∧
      ∃ qc, (VoteCollector.afterCalls 7 1 4 vouchedVotes).buildQcWithProfileMessage id
          fourValidators (signingMessage 7 1) .native = .ok qc ∧
        verifyQcWithProfile qc fourValidators .native ≠ .ok () := by
  refine ⟨⟨by decide +kernel, rfl⟩, by decide, _, rfl, ?_⟩
  decide

end N42
