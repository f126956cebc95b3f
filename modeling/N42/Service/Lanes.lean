import Mathlib.Data.List.Perm.Basic

/-!
The two lanes on which the network service hands its events to the node. An event that finds room in
the channel of its lane overtakes those in the backlog.
-/

namespace N42

open List

inductive EventKind where
  | consensusMessage | gov5H2Message | gov5Block | gov5BlockFetched | gov5BlockFetchFailed
  | h2V4Message | blockAnnouncement | verificationReceipt | transactionReceived
  | blobSidecarReceived | peerConnected | peerDisconnected | txForwardReceived
  | txForwardCreditUpdate | syncRequest | syncResponse | syncRequestFailed
  deriving DecidableEq

structure NetworkEvent (π : Type) where
  kind : EventKind
  fields : π
  deriving DecidableEq

inductive LaneId where
  | consensus
  | data
  deriving DecidableEq

section Events

variable {π : Type} (h2V4Participant : Bool) (event : NetworkEvent π)

def eventUsesConsensusLane : Bool :=
  match event.kind with
  | .consensusMessage | .blockAnnouncement => true
  | .gov5H2Message | .h2V4Message | .gov5Block | .gov5BlockFetched | .gov5BlockFetchFailed =>
    h2V4Participant
  | _ => false

def reliableData : Bool :=
  match event.kind with
  | .gov5H2Message | .gov5Block | .gov5BlockFetched | .gov5BlockFetchFailed | .h2V4Message
  | .verificationReceipt | .blobSidecarReceived | .peerConnected | .peerDisconnected
  | .txForwardReceived | .txForwardCreditUpdate | .syncRequest | .syncResponse
  | .syncRequestFailed => true
  | _ => false

def laneOf : LaneId := if eventUsesConsensusLane h2V4Participant event then .consensus else .data

def reliable : Bool := eventUsesConsensusLane h2V4Participant event || reliableData event

end Events

/-- The channel to a consumer, and the backlog of the events it had no room for. -/
structure Lane (α : Type) where
  capacity : ℕ
  maxLen : ℕ
  channel : List α := []
  backlog : List α := []

namespace Lane

variable {α : Type} (l : Lane α) (x : α)

/-- `try_send` on an open channel; `none` is `TrySendError::Full`. -/
def trySend : Option (Lane α) :=
  if l.channel.length < l.capacity then some { l with channel := l.channel ++ [x] } else none

def pushBoundedBacklog : Lane α :=
  if l.maxLen ≤ l.backlog.length then l else { l with backlog := l.backlog ++ [x] }

def emitEvent (reliable : Bool) : Lane α :=
  (l.trySend x).getD (if reliable then l.pushBoundedBacklog x else l)

/-- One turn of the loop that drains the backlog; at a full channel the event is put back. -/
def drainTurn : Lane α :=
  match l.backlog with
  | [] => l
  | x :: rest => (trySend { l with backlog := rest } x).getD l

/-- There is room in the channel or in the backlog. -/
def hasRoom : Bool := l.channel.length < l.capacity || l.backlog.length < l.maxLen

/-- An event in the channel is ahead of none in the backlog. -/
def inOrder : Bool := l.backlog.isEmpty || l.capacity ≤ l.channel.length

end Lane

/-- A lane, the events emitted on it, each with the lane that it found, and those received. -/
structure Traffic (α : Type) where
  lane : Lane α
  emitted : List (α × Lane α) := []
  received : List α := []

namespace Traffic

variable {α : Type} (t : Traffic α) (r : α → Bool)

def emitEvent (x : α) : Traffic α :=
  { t with lane := t.lane.emitEvent x (r x), emitted := t.emitted ++ [(x, t.lane)] }

def drainTurn : Traffic α := { t with lane := t.lane.drainTurn }

def receive : Traffic α :=
  match t.lane.channel with
  | [] => t
  | x :: rest => { t with lane := { t.lane with channel := rest }, received := t.received ++ [x] }

/-- The events received and those on their way, in the order of the lane. -/
def events : List α := t.received ++ t.lane.channel ++ t.lane.backlog

attribute [local simp] events

def kept : List α := (t.emitted.filter fun p => r p.1 && p.2.hasRoom).map (·.1)

structure Accounted : Prop where
  perm : (t.events.filter r).Perm (t.kept r)
  ordered : (∀ p ∈ t.emitted, r p.1 → p.2.inOrder) → t.events.filter r = t.kept r

variable {t r}

theorem Accounted.of_events {t' : Traffic α} (h : t.Accounted r) (hevents : t'.events = t.events)
    (hemitted : t'.emitted = t.emitted) : t'.Accounted r := by
  have hkept : t'.kept r = t.kept r := by rw [kept, hemitted, kept]
  exact ⟨hevents ▸ hkept ▸ h.perm, hevents ▸ hkept ▸ hemitted ▸ h.ordered⟩

theorem events_drainTurn : t.drainTurn.events = t.events := by
  unfold events drainTurn Lane.drainTurn Lane.trySend
  cases hbacklog : t.lane.backlog with
  | nil => simp [hbacklog]
  | cons x rest =>
    dsimp only
    split
    · simp
    · simp [hbacklog]

theorem Accounted.receive (h : t.Accounted r) : t.receive.Accounted r := by
  unfold Traffic.receive
  split
  · exact h
  · next x rest hchannel => exact h.of_events (by simp [hchannel]) rfl

/-- A reliable event comes last among the events, unless it overtakes the backlog. -/
theorem filter_events_emitEvent (t : Traffic α) (x : α) : ∃ before after,
    t.events.filter r = before ++ after ∧ (t.emitEvent r x).events.filter r =
      before ++ (if r x && t.lane.hasRoom then [x] else []) ++ after ∧
    ((r x → t.lane.inOrder) → after = []) := by
  unfold events emitEvent Lane.emitEvent Lane.trySend Lane.hasRoom Lane.inOrder
  by_cases hroom : t.lane.channel.length < t.lane.capacity
  · cases hx : r x with
    | false => exact ⟨t.events.filter r, [], by simp, by simp [hroom, hx], by simp⟩
    | true =>
      refine ⟨(t.received ++ t.lane.channel).filter r, t.lane.backlog.filter r,
        filter_append .., by simp [hroom, hx], fun hin => ?_⟩
      have hnil : t.lane.backlog = [] := by simpa [Nat.not_le.mpr hroom] using hin rfl
      rw [hnil, filter_nil]
  · refine ⟨t.events.filter r, [], by simp, ?_, fun _ => rfl⟩
    cases hx : r x with
    | false => simp [hroom]
    | true =>
      by_cases hspare : t.lane.backlog.length < t.lane.maxLen
      · simp [hroom, hx, Lane.pushBoundedBacklog, Nat.not_le.mpr hspare]
      · simp [hroom, Lane.pushBoundedBacklog, Nat.not_lt.mp hspare]

theorem Accounted.emitEvent (h : t.Accounted r) (x : α) : (t.emitEvent r x).Accounted r := by
  have hkept : (t.emitEvent r x).kept r =
      t.kept r ++ if r x && t.lane.hasRoom then [x] else [] := by
    unfold kept Traffic.emitEvent
    cases hstored : r x && t.lane.hasRoom with
    | false => simp [hstored]
    | true => simp [hstored]
  obtain ⟨before, after, hold, hnew, hlast⟩ := filter_events_emitEvent (r := r) t x
  obtain ⟨hperm, hordered⟩ := h
  rw [hold] at hperm hordered
  refine ⟨?_, fun hin => ?_⟩
  · rw [hnew, hkept]
    refine .trans ?_ (hperm.append_right _)
    simpa using perm_append_comm.append_left before
  · obtain rfl := hlast (hin (x, t.lane) (by simp [Traffic.emitEvent]))
    rw [hnew, hkept, ← hordered fun p hp => hin p (mem_append_left _ hp)]
    simp

end Traffic

/-- What the service, its loop and the consumers do. -/
inductive LaneAction (π : Type) where
  | emitEvent (event : NetworkEvent π)
  | drainTurn (id : LaneId)
  | receive (id : LaneId)

namespace LaneId

def maxPending : LaneId → ℕ
  | .consensus => 2048
  | .data => 8192

variable {π : Type} (participant : Bool) (id : LaneId)

-- an emission may even fall between two turns of one drain, which the loop rules out
def step (t : Traffic (NetworkEvent π)) : LaneAction π → Traffic (NetworkEvent π)
  | .emitEvent e => if laneOf participant e = id then t.emitEvent (reliable participant) e else t
  | .drainTurn i => if i = id then t.drainTurn else t
  | .receive i => if i = id then t.receive else t

def run (capacity : ℕ) (actions : List (LaneAction π)) : Traffic (NetworkEvent π) :=
  actions.foldl (id.step participant) { lane := { capacity, maxLen := id.maxPending } }

variable {participant id}

theorem step_accounted {t : Traffic (NetworkEvent π)} (h : t.Accounted (reliable participant))
    (action : LaneAction π) : (id.step participant t action).Accounted (reliable participant) := by
  unfold step
  cases action with
  | emitEvent e =>
    dsimp only
    split
    exacts [h.emitEvent e, h]
  | drainTurn i =>
    dsimp only
    split
    exacts [h.of_events Traffic.events_drainTurn rfl, h]
  | receive i =>
    dsimp only
    split
    exacts [h.receive, h]

/-- In every run the reliable events of a lane that found room are received or on their way.
They are so in the order in which they were emitted, unless one of them found room in the
channel while others were in the backlog. -/
theorem lane_order (participant : Bool) (id : LaneId) (capacity : ℕ)
    (actions : List (LaneAction π)) {t : Traffic (NetworkEvent π)}
    (ht : t = id.run participant capacity actions) :
    (t.events.filter (reliable participant)).Perm (t.kept (reliable participant)) ∧
      ((∀ p ∈ t.emitted, reliable participant p.1 → p.2.inOrder) →
        t.received.filter (reliable participant) <+: t.kept (reliable participant)) := by
  have h : t.Accounted (reliable participant) := by
    subst ht
    exact List.foldlRecOn
      (motive := fun t : Traffic _ => t.Accounted (reliable participant)) actions _
      ⟨.refl _, fun _ => rfl⟩ fun _ h action _ => step_accounted h action
  refine ⟨h.perm, fun hin => ?_⟩
  rw [← h.ordered hin, Traffic.events, append_assoc, filter_append]
  exact prefix_append ..

/-- One event and the connection of a peer are emitted, and the first is received; then the peer
disconnects. -/
def reconnect : List (LaneAction ℕ) :=
  [.emitEvent ⟨.syncRequest, 0⟩, .emitEvent ⟨.peerConnected, 7⟩, .receive .data,
    .emitEvent ⟨.peerDisconnected, 7⟩, .receive .data, .drainTurn .data, .receive .data]

theorem lane_order_of_two :
    (data.run false 2 reconnect).received.map (·.kind) =
        [.syncRequest, .peerConnected, .peerDisconnected] ∧
      (data.run false 2 reconnect).received.filter (reliable false) <+:
        (data.run false 2 reconnect).kept (reliable false) :=
  ⟨by decide, (lane_order false .data 2 reconnect rfl).2 (by decide)⟩

/-- In a channel for one event, the disconnection overtakes the connection. -/
theorem disconnect_overtakes_connect :
    ((data.run false 1 reconnect).emitted.map fun p => (p.1.kind, p.2.hasRoom)) =
        [(.syncRequest, true), (.peerConnected, true), (.peerDisconnected, true)] ∧
      (data.run false 1 reconnect).received.map (·.kind) =
        [.syncRequest, .peerDisconnected, .peerConnected] := by
  decide

end LaneId

end N42
