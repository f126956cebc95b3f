import N42.Committee.Draw
import N42.Lib.Deal

/-!
The relays of a view (`n42-consensus/src/rotor.rs`): who forwards a block to whom, drawn from the
view alone, and the cache of the last assignments.
-/

namespace N42.Rotor

open Lib Lib.FisherYates List Committee

/-- Each relay with the validators it forwards to, itself included. -/
structure RelayAssignment where
  relays : List (ℕ × List ℕ)

structure Request where
  view : ℕ
  validatorCount : ℕ
  leader : ℕ
  relayCount : ℕ
deriving DecidableEq

def Request.nonLeaders (request : Request) : List ℕ :=
  (List.range request.validatorCount).filter (· ≠ request.leader)

/-- `for i in (1..n).rev()`, from step `n - 1` on. -/
def shuffle (draw : ℕ → ℕ) : ℕ → List ℕ → List ℕ
  | 0, candidates => candidates
  | i + 1, candidates => shuffle draw i (swapAt candidates (i + 1) (draw (i + 1)))

section

variable [PoolCrypto]

def relayDraw (view i : ℕ) : ℕ :=
  let seed := PoolCrypto.sha256 (leBytes 8 view)
  let posHash := PoolCrypto.sha256 (B256.toBytes seed ++ leBytes 8 i)
  leNat ((B256.toBytes posHash).take 8) % (i + 1)

/-- Nothing is returned where the source panics, dividing by a relay count of zero. -/
def computeRelayAssignment (request : Request) : Option RelayAssignment :=
  let n := request.nonLeaders.length
  if n = 0 then some ⟨[]⟩
  else
    let effectiveRelayCount := min request.relayCount n
    let candidates := shuffle (relayDraw request.view) (n - 1) request.nonLeaders
    let relayIndices := candidates.take effectiveRelayCount
    let remaining := candidates.drop effectiveRelayCount
    if effectiveRelayCount = 0 then none
    else some ⟨relayIndices.zip (deal effectiveRelayCount (relayIndices.map ([·])) remaining)⟩

abbrev Cache := List (Request × RelayAssignment)

def MAX_CACHE : ℕ := 8

/-- A panic poisons the lock of the cache, which the next call ignores. -/
def cachedRelayAssignment (request : Request) (cache : Cache) : Option RelayAssignment × Cache :=
  match cache.find? fun entry => entry.1 = request with
  | some entry => (some entry.2, cache)
  | none =>
    match computeRelayAssignment request with
    | none => (none, cache)
    | some assignment =>
      (some assignment,
        (if cache.length ≥ MAX_CACHE then cache.tail else cache) ++ [(request, assignment)])

def cacheAfter (calls : List Request) : Cache :=
  calls.foldl (fun cache request => (cachedRelayAssignment request cache).2) []

end

theorem shuffle_perm {draw : ℕ → ℕ} (hdraw : ∀ i, draw i ≤ i) {i : ℕ} {candidates : List ℕ}
    (hi : i < candidates.length) : (shuffle draw i candidates).Perm candidates := by
  induction i generalizing candidates with
  | zero => exact Perm.refl candidates
  | succ i ih =>
    have hswap := swapAt_perm hi ((hdraw (i + 1)).trans_lt hi)
    exact (ih (by rw [hswap.length_eq]; omega)).trans hswap

section

variable [PoolCrypto]

theorem relayDraw_le (view i : ℕ) : relayDraw view i ≤ i :=
  Nat.le_of_lt_succ (Nat.mod_lt _ i.succ_pos)

/-- The targets split the candidates evenly, each relay being a target of its own. -/
structure Balanced (request : Request) (assignment : RelayAssignment) : Prop where
  count : assignment.relays.length = min request.relayCount request.nonLeaders.length
  disjoint : (assignment.relays.map (·.2)).Pairwise List.Disjoint
  once : (assignment.relays.flatMap (·.2)).Perm request.nonLeaders
  own : ∀ relay ∈ assignment.relays, relay.1 ∈ relay.2
  even : ∀ relay ∈ assignment.relays, ∀ other ∈ assignment.relays,
    relay.2.length ≤ other.2.length + 1

omit [PoolCrypto] in
theorem balanced_deal {request : Request} {candidates : List ℕ}
    (hperm : candidates.Perm request.nonLeaders) {k : ℕ} (hk : 0 < k)
    (hcount : k = min request.relayCount request.nonLeaders.length) :
    Balanced request ⟨(candidates.take k).zip
      (deal k ((candidates.take k).map ([·])) (candidates.drop k))⟩ := by
  set hands := (candidates.take k).map ([·]) with hhands
  set targets := deal k hands (candidates.drop k) with htargets
  have hlength : hands.length = k := by
    rw [hhands, length_map, length_take, hperm.length_eq]
    omega
  have hrelays : (candidates.take k).length = targets.length := by
    rw [htargets, length_deal, hhands, length_map]
  have hsnd : ((candidates.take k).zip targets).map (·.2) = targets := map_snd_zip hrelays.ge
  have honce : targets.flatten.Perm request.nonLeaders := by
    have hdealt := flatten_deal_perm hk hlength (candidates.drop k)
    have hflat : hands.flatten = candidates.take k := flatMap_singleton' _
    rw [hflat, take_append_drop] at hdealt
    exact hdealt.trans hperm
  have hmem : ∀ relay ∈ (candidates.take k).zip targets, relay.2 ∈ targets := fun relay hrelay =>
    (of_mem_zip hrelay).2
  constructor
  · rw [length_zip, hrelays, Nat.min_self, htargets, length_deal, hlength, hcount]
  · rw [hsnd]
    exact (nodup_flatten.mp (honce.nodup_iff.mpr (nodup_range.filter _))).2
  · rw [flatMap_def, hsnd]
    exact honce
  · intro relay hrelay
    obtain ⟨i, hi⟩ := mem_iff_getElem?.mp hrelay
    obtain ⟨hindex, htarget⟩ := getElem?_zip_eq_some.mp hi
    obtain ⟨start, hstart, hsub, -⟩ := getElem?_deal htarget
    rw [hhands, getElem?_map, hindex] at hstart
    cases hstart
    exact hsub mem_cons_self
  · intro relay hrelay other hother
    refine length_le_of_deal hk hlength (n := 1) ?_ (hmem relay hrelay) (hmem other hother)
    intro hand hhand
    obtain ⟨index, -, rfl⟩ := mem_map.mp hhand
    rfl

theorem computeRelayAssignment_balanced {request : Request} (hrelays : 1 ≤ request.relayCount) :
    ∃ assignment, computeRelayAssignment request = some assignment ∧
      Balanced request assignment := by
  unfold computeRelayAssignment
  dsimp only
  split
  · next hnone =>
    refine ⟨_, rfl, ?_⟩
    constructor <;> simp [length_eq_zero_iff.mp hnone]
  · next hsome =>
    have hpos : 0 < min request.relayCount request.nonLeaders.length := by omega
    rw [if_neg hpos.ne']
    have hperm := shuffle_perm (relayDraw_le request.view)
      (Nat.sub_lt (Nat.pos_of_ne_zero hsome) Nat.one_pos)
    exact ⟨_, rfl, balanced_deal hperm hpos rfl⟩

def Cache.Exact (cache : Cache) : Prop :=
  ∀ entry ∈ cache, computeRelayAssignment entry.1 = some entry.2

theorem Cache.Exact.cached {cache : Cache} (h : cache.Exact) (request : Request) :
    (cachedRelayAssignment request cache).1 = computeRelayAssignment request ∧
      Cache.Exact (cachedRelayAssignment request cache).2 := by
  unfold cachedRelayAssignment
  cases hfind : cache.find? fun entry => entry.1 = request with
  | some entry =>
    have hkey : entry.1 = request := by simpa using find?_some hfind
    exact ⟨hkey ▸ (h entry (mem_of_find?_eq_some hfind)).symm, h⟩
  | none =>
    cases hcompute : computeRelayAssignment request with
    | none => exact ⟨rfl, h⟩
    | some assignment =>
      refine ⟨rfl, fun entry hentry => ?_⟩
      rcases mem_append.mp hentry with hold | hnew
      · split at hold
        · exact h entry (mem_of_mem_tail hold)
        · exact h entry hold
      · rw [mem_singleton.mp hnew]
        exact hcompute

theorem exact_cacheAfter (calls : List Request) : (cacheAfter calls).Exact := by
  refine foldlRecOn calls _ ?_ fun cache hcache request _ => (hcache.cached request).2
  intro entry hentry
  cases hentry

/-- The relays split the other validators evenly, and the cache never changes an assignment. -/
theorem relay_assignment_balanced (request : Request) (hrelays : 1 ≤ request.relayCount) :
    ∃ assignment, computeRelayAssignment request = some assignment ∧
      Balanced request assignment ∧
      ∀ calls, (cachedRelayAssignment request (cacheAfter calls)).1 = some assignment := by
  obtain ⟨assignment, hcompute, hbalanced⟩ := computeRelayAssignment_balanced hrelays
  refine ⟨assignment, hcompute, hbalanced, fun calls => ?_⟩
  rw [((exact_cacheAfter calls).cached request).1, hcompute]

end

attribute [local instance] samplePoolCrypto

theorem relay_assignment_balanced_sample : ∃ assignment,
    computeRelayAssignment ⟨5, 7, 2, 3⟩ = some assignment ∧ assignment.relays.length = 3 ∧
      (cachedRelayAssignment ⟨5, 7, 2, 3⟩ (cacheAfter [⟨5, 7, 2, 0⟩, ⟨5, 7, 2, 3⟩])).1 =
        some assignment := by
  obtain ⟨assignment, hcompute, hbalanced, hcached⟩ :=
    relay_assignment_balanced ⟨5, 7, 2, 3⟩ (by decide)
  exact ⟨assignment, hcompute, hbalanced.count, hcached _⟩

end N42.Rotor
