import Mathlib.Data.Nat.Notation
import N42.Lib.Inverse

/-!
The maps between validators and peers that the network service keeps. An identify message that
claims another peer's index takes the sender's own route away.
-/

namespace N42

open Lib Function

/-- `expected_validator_peer_ids`, in which every peer is bound to at most one index. -/
structure Bindings (π : Type) where
  peerOf : ℕ → Option π
  -- `validator_index_for_expected_peer`
  indexOf : π → Option ℕ
  inverse : Inverse peerOf indexOf
  peers : List π
  mem_peers : ∀ p, p ∈ peers ↔ (indexOf p).isSome

structure PeerMaps (π : Type) where
  -- `deterministic_validator_peer_id`, where it is allowed
  deterministic : ℕ → Option π
  expected : Bindings π
  connections : π → ℕ := fun _ => 0
  validatorPeer : ℕ → Option π := fun _ => none
  peerValidator : π → Option ℕ := fun _ => none
  authenticatedPeer : ℕ → Option π := fun _ => none
  authenticatedIndex : π → Option ℕ := fun _ => none

inductive PeerEvent (π : Type) where
  | established (peer : π)
  | closed (peer : π)
  | identify (peer : π) (claimed : Option ℕ)
  | authenticate (peer : π) (index : ℕ)
  | replace (expected : Bindings π)

namespace PeerMaps

variable {π : Type} (m : PeerMaps π)

def expectedPeerId (index : ℕ) : Option π :=
  (m.expected.peerOf index).or (m.deterministic index)

variable [DecidableEq π] (peer : π)

/-- A peer leaves a map, and the other one if it is still the peer of its index there. -/
def forget (peers : ℕ → Option π) (indices : π → Option ℕ) : (ℕ → Option π) × (π → Option ℕ) :=
  (fun i => if indices peer = some i ∧ peers i = some peer then none else peers i,
    update indices peer none)

def clearValidatorMappingForPeer : PeerMaps π :=
  let (validatorPeer, peerValidator) := forget peer m.validatorPeer m.peerValidator
  { m with validatorPeer, peerValidator }

def clearAuthenticatedValidatorPeer : PeerMaps π :=
  let (authenticatedPeer, authenticatedIndex) :=
    forget peer m.authenticatedPeer m.authenticatedIndex
  { m with authenticatedPeer, authenticatedIndex }

def route (index : ℕ) : PeerMaps π :=
  { m with
    peerValidator :=
      update (fun p => (m.peerValidator p).filter (· ≠ index)) peer (some index)
    validatorPeer := update m.validatorPeer index (some peer) }

def routeExpectedValidatorPeer : PeerMaps π := (m.expected.indexOf peer).elim m (m.route peer)

/-- The peer and the index leave the pairs that they are in, and become one. -/
def promote (index : ℕ) : PeerMaps π :=
  let peers := update m.authenticatedPeer index (some peer)
  let indices := fun p =>
    if p ≠ peer ∧ m.authenticatedPeer index = some p then none else m.authenticatedIndex p
  { m with
    authenticatedIndex := update indices peer (some index)
    authenticatedPeer := fun i =>
      if i ≠ index ∧ indices peer = some i ∧ peers i = some peer then none else peers i }

def authenticateValidatorPeer (index : ℕ) : PeerMaps π :=
  if m.expectedPeerId index = some peer ∧ 0 < m.connections peer then
    (m.promote peer index).route peer index
  else m

/-- Only what the bindings name stays. -/
def retainExpected (expected : Bindings π) : PeerMaps π :=
  { m with
    expected
    authenticatedPeer := fun i =>
      (m.authenticatedPeer i).filter fun p => expected.peerOf i = some p
    authenticatedIndex := fun p =>
      (m.authenticatedIndex p).filter fun i => expected.peerOf i = some p
    peerValidator := fun p => (m.peerValidator p).filter fun i => expected.peerOf i = some p
    validatorPeer := fun i => (m.validatorPeer i).filter fun p => expected.peerOf i = some p }

def replaceExpectedValidatorPeers (expected : Bindings π) : PeerMaps π :=
  (expected.peers.filter fun p => 0 < m.connections p).foldl (·.routeExpectedValidatorPeer ·)
    (m.retainExpected expected)

def handleIdentify (claimed : Option ℕ) : PeerMaps π :=
  match claimed with
  | none => m
  | some index =>
    match m.expectedPeerId index with
    | some expected => if expected = peer then m.route peer index
      else m.clearValidatorMappingForPeer peer
    | none => m

def connect (count : ℕ) : PeerMaps π :=
  { m with connections := update m.connections peer count }

def step : PeerEvent π → PeerMaps π
  | .established peer => (m.connect peer (m.connections peer + 1)).routeExpectedValidatorPeer peer
  | .closed peer => ((m.connect peer (m.connections peer - 1)).clearValidatorMappingForPeer
      peer).clearAuthenticatedValidatorPeer peer
  | .identify peer claimed => m.handleIdentify peer claimed
  | .authenticate peer index => m.authenticateValidatorPeer peer index
  | .replace expected => m.replaceExpectedValidatorPeers expected

def Routed : Prop :=
  ∀ i p, m.expected.peerOf i = some p → 0 < m.connections p → m.validatorPeer i = some p

/-- A peer with a binding closes its last connection only, and claims no index of another. -/
def Calm : PeerEvent π → Prop
  | .closed peer => m.connections peer ≤ 1 ∨ m.expected.indexOf peer = none
  | .identify peer (some index) =>
    m.expected.indexOf peer = none ∨ ∀ p, m.expectedPeerId index = some p → p = peer
  | _ => True

/-- The maps follow the connections; the routes do so if all was calm. -/
structure Follows (calm : Prop) : Prop where
  inverse : Inverse m.authenticatedPeer m.authenticatedIndex
  live : ∀ i p, m.authenticatedPeer i = some p → 0 < m.connections p ∧ m.expectedPeerId i = some p
  routed : calm → m.Routed

variable {m peer}

theorem inverse_forget {peers : ℕ → Option π} {indices : π → Option ℕ}
    (h : Inverse peers indices) :
    Inverse (forget peer peers indices).1 (forget peer peers indices).2 := by
  intro k p
  have hk := h k p
  simp only [forget]
  grind

theorem Follows.promote {calm : Prop} {i : ℕ} (h : m.Follows calm)
    (hpeer : m.expectedPeerId i = some peer) (hlive : 0 < m.connections peer) :
    (m.promote peer i).Follows calm := by
  refine ⟨fun k p => ?_, fun k p hp => ?_, h.routed⟩
  · have hk := h.inverse k p
    have hi := h.inverse i p
    simp only [PeerMaps.promote, update_apply]
    grind
  · have hk := h.live k p
    simp only [PeerMaps.promote] at hp
    show 0 < m.connections p ∧ m.expectedPeerId k = some p
    grind

theorem Routed.route (h : m.Routed) {i : ℕ} (hpeer : m.expectedPeerId i = some peer) :
    (m.route peer i).Routed := by
  intro j p (hp : m.expected.peerOf j = some p) hlive
  have hj := h j p hp hlive
  have hself : j = i → p = peer := by
    rintro rfl
    simpa [expectedPeerId, hp] using hpeer
  simp only [PeerMaps.route]
  grind

/-- A peer that is forgotten is missed only if it is bound to an index and connected. -/
theorem Routed.clear (count : ℕ) (h : m.Routed)
    (hpeer : count = 0 ∨ m.expected.indexOf peer = none) :
    ((m.connect peer count).clearValidatorMappingForPeer peer).Routed := by
  intro i p (hp : m.expected.peerOf i = some p)
    (hlive : 0 < update m.connections peer count p)
  have hbound := (m.expected.inverse i p).mp hp
  have hi := h i p hp
  show (if m.peerValidator peer = some i ∧ m.validatorPeer i = some peer then none
    else m.validatorPeer i) = some p
  grind

/-- Peers are routed one after the other, each under the index it is bound to. -/
theorem foldl_routeExpected (peers : List π) (m : PeerMaps π) :
    ∃ validatorPeer peerValidator, peers.foldl (·.routeExpectedValidatorPeer ·) m =
        { m with validatorPeer, peerValidator } ∧
      ∀ i p, m.expected.peerOf i = some p → p ∈ peers ∨ m.validatorPeer i = some p →
        validatorPeer i = some p := by
  induction peers generalizing m with
  | nil => exact ⟨_, _, rfl, by simp⟩
  | cons peer peers ih =>
    rw [List.foldl_cons, routeExpectedValidatorPeer]
    cases hindex : m.expected.indexOf peer with
    | none =>
      obtain ⟨validatorPeer, peerValidator, heq, hrouted⟩ := ih m
      refine ⟨_, _, heq, fun i p hp h => hrouted i p hp ?_⟩
      have hbound := (m.expected.inverse i p).mp hp
      grind
    | some index =>
      obtain ⟨validatorPeer, peerValidator, heq, hrouted⟩ := ih (m.route peer index)
      refine ⟨_, _, heq, fun i p hp h => hrouted i p hp ?_⟩
      have hbound := (m.expected.inverse i p).mp hp
      have hother := (m.expected.inverse index peer).mpr hindex
      simp only [route]
      grind

section Events

variable {calm : Prop} (h : m.Follows calm)
include h

theorem Follows.established (peer : π) :
    (m.step (.established peer)).Follows (calm ∧ m.Calm (.established peer)) := by
  obtain ⟨validatorPeer, peerValidator, heq, hrouted⟩ :=
    foldl_routeExpected [peer] (m.connect peer (m.connections peer + 1))
  rw [List.foldl_cons, List.foldl_nil] at heq
  rw [PeerMaps.step, heq]
  refine ⟨h.inverse, fun i p hp => ?_, fun hcalm i p hp hlive => hrouted i p hp ?_⟩
  · have hi := h.live i p hp
    simp only [connect]
    exact ⟨by grind, hi.2⟩
  · have hi := h.routed hcalm.1 i p hp
    simp only [connect] at hlive ⊢
    grind

theorem Follows.closed (peer : π) :
    (m.step (.closed peer)).Follows (calm ∧ m.Calm (.closed peer)) := by
  refine ⟨inverse_forget h.inverse, fun i p hp => ?_, fun hcalm =>
    (h.routed hcalm.1).clear _ (Or.imp_left Nat.sub_eq_zero_of_le hcalm.2)⟩
  have hinverse := h.inverse i peer
  have hp : (if m.authenticatedIndex peer = some i ∧ m.authenticatedPeer i = some peer then none
    else m.authenticatedPeer i) = some p := hp
  have hlive := h.live i p
  show 0 < update m.connections peer _ p ∧ m.expectedPeerId i = some p
  grind

/-- A claim either confirms the route, or, for a peer bound to no index, removes none that
counts. -/
theorem Follows.identify (peer : π) (claimed : Option ℕ) :
    (m.step (.identify peer claimed)).Follows (calm ∧ m.Calm (.identify peer claimed)) := by
  unfold PeerMaps.step handleIdentify
  dsimp only
  split
  · exact ⟨h.inverse, h.live, fun hcalm => h.routed hcalm.1⟩
  · next index =>
    split
    · next expected hexpected =>
      split
      · next heq =>
        exact ⟨h.inverse, h.live, fun hcalm => (h.routed hcalm.1).route (heq ▸ hexpected)⟩
      · next hne =>
        refine ⟨h.inverse, h.live, fun hcalm => ?_⟩
        have hunbound := hcalm.2.resolve_right fun hsame => hne (hsame expected hexpected)
        have hclear := (h.routed hcalm.1).clear (m.connections peer) (.inr hunbound)
        rwa [connect, update_eq_self] at hclear
    · exact ⟨h.inverse, h.live, fun hcalm => h.routed hcalm.1⟩

theorem Follows.authenticate (peer : π) (index : ℕ) :
    (m.step (.authenticate peer index)).Follows (calm ∧ m.Calm (.authenticate peer index)) := by
  unfold PeerMaps.step authenticateValidatorPeer
  dsimp only
  split
  · next hcond =>
    have hpromoted := h.promote hcond.1 hcond.2
    exact ⟨hpromoted.inverse, hpromoted.live,
      fun hcalm => (hpromoted.routed hcalm.1).route hcond.1⟩
  · exact ⟨h.inverse, h.live, fun hcalm => h.routed hcalm.1⟩

/-- Replacing the bindings routes every connected peer that they name. -/
theorem Follows.replace (expected : Bindings π) :
    (m.step (.replace expected)).Follows (calm ∧ m.Calm (.replace expected)) := by
  obtain ⟨validatorPeer, peerValidator, heq, hrouted⟩ := foldl_routeExpected
    (expected.peers.filter fun p => 0 < m.connections p) (m.retainExpected expected)
  rw [PeerMaps.step, replaceExpectedValidatorPeers, heq]
  refine ⟨fun i p => ?_, fun i p hp => ?_, fun _ i p hp hlive =>
    hrouted i p hp (.inl (List.mem_filter.mpr ⟨(expected.mem_peers p).mpr ?_, ?_⟩))⟩
  · have hi := h.inverse i p
    simp only [retainExpected, Option.filter_eq_some_iff]
    grind
  · simp only [retainExpected, Option.filter_eq_some_iff] at hp
    exact ⟨(h.live i p hp.1).1, by simp [expectedPeerId, retainExpected, of_decide_eq_true hp.2]⟩
  · rw [(expected.inverse i p).mp hp]
    rfl
  · exact decide_eq_true hlive

theorem Follows.step (event : PeerEvent π) : (m.step event).Follows (calm ∧ m.Calm event) := by
  cases event with
  | established peer => exact h.established peer
  | closed peer => exact h.closed peer
  | identify peer claimed => exact h.identify peer claimed
  | authenticate peer index => exact h.authenticate peer index
  | replace expected => exact h.replace expected

end Events

def run (m : PeerMaps π) (events : List (PeerEvent π)) : PeerMaps π := events.foldl (·.step ·) m

def CalmRun : PeerMaps π → List (PeerEvent π) → Prop
  | _, [] => True
  | m, event :: events => m.Calm event ∧ CalmRun (m.step event) events

theorem Follows.run (events : List (PeerEvent π)) {m : PeerMaps π} {calm : Prop}
    (h : m.Follows calm) : (m.run events).Follows (calm ∧ m.CalmRun events) := by
  induction events generalizing m calm with
  | nil => exact ⟨h.inverse, h.live, fun hcalm => h.routed hcalm.1⟩
  | cons event events ih =>
    have hrun := ih (h.step event)
    exact ⟨hrun.inverse, hrun.live, fun hcalm => hrun.routed ⟨⟨hcalm.1, hcalm.2.1⟩, hcalm.2.2⟩⟩

/-- The authenticated maps are inverse, and authenticated peers are connected and expected. If
all events are calm, every connected peer with an expected binding is routed. -/
theorem peer_maps_follow_connections (deterministic : ℕ → Option π) (expected : Bindings π)
    (events : List (PeerEvent π)) :
    let m₀ : PeerMaps π := { deterministic, expected }
    let m := m₀.run events
    Inverse m.authenticatedPeer m.authenticatedIndex ∧
      (∀ i p, m.authenticatedPeer i = some p →
        0 < m.connections p ∧ m.expectedPeerId i = some p) ∧
      (m₀.CalmRun events → ∀ i p, m.expected.peerOf i = some p →
        0 < m.connections p → m.validatorPeer i = some p) := by
  intro m₀ m
  have hinit : m₀.Follows True := {
    inverse _ _ := by simp [m₀]
    live _ _ h := by cases h
    routed _ _ _ _ hlive := absurd hlive (Nat.lt_irrefl 0) }
  obtain ⟨hinverse, hlive, hrouted⟩ := hinit.run events
  exact ⟨hinverse, hlive, fun hcalm => hrouted ⟨trivial, hcalm⟩⟩

def sevenIsThree : Bindings ℕ where
  peerOf := update (fun _ => none) 3 (some 7)
  indexOf := update (fun _ => none) 7 (some 3)
  inverse k p := by
    grind
  peers := [7]
  mem_peers p := by
    grind

/-- Peer 9 is validator 3, and peer 7 validator 5. -/
def sevenIsFive : Bindings ℕ where
  peerOf := update (update (fun _ => none) 3 (some 9)) 5 (some 7)
  indexOf := update (update (fun _ => none) 9 (some 3)) 7 (some 5)
  inverse k p := by
    grind
  peers := [9, 7]
  mem_peers p := by
    grind

def sevenStart : PeerMaps ℕ where
  deterministic _ := none
  expected := sevenIsThree

/-- Peer 7 claims its new index, and peer 9 comes and goes. -/
theorem peer_maps_follow_connections_of_two :
    (sevenStart.run [.established 7, .authenticate 7 3, .replace sevenIsFive, .identify 7 (some 5),
      .established 9, .closed 9]).validatorPeer 5 = some 7 :=
  (peer_maps_follow_connections _ sevenIsThree [.established 7, .authenticate 7 3,
    .replace sevenIsFive, .identify 7 (some 5), .established 9, .closed 9]).2.2
    ⟨trivial, trivial, trivial, .inr fun _ hp => (Option.some.inj hp).symm, trivial,
      .inl (by decide), trivial⟩ 5 7 (by decide) (by decide)

/-- A peer that still claims the index it was bound to before loses the route of its new one. -/
theorem unrouted_after_claim :
    let m := sevenStart.run [.established 7, .replace sevenIsFive, .identify 7 (some 3)]
    m.expected.peerOf 5 = some 7 ∧ m.connections 7 = 1 ∧ m.validatorPeer 5 = none := by
  decide

end PeerMaps

end N42
