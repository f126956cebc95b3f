import N42.Decision.Hub
import N42.Lib.Except
import N42.Lib.Tally
import Mathlib.Data.FinEnum

/-!
The hub's books through every transaction: what the fees of fulfilled and expired requests were
added to, and that the balance covers all that the hub owes, also while a receiver of ether calls
back.
-/

namespace N42.Decision

open Lib Finset List Function Option DecisionHub

def Addition.requestId : Addition → ℕ
  | .service id _ => id
  | .credit id _ _ => id

def Addition.toService : Addition → ℕ
  | .service _ amount => amount
  | .credit _ _ _ => 0

def Addition.toCredit (who : Address) : Addition → ℕ
  | .service _ _ => 0
  | .credit _ refundTo amount => if refundTo = who then amount else 0

def Payment.ofFees : Payment → ℕ
  | .refund _ _ => 0
  | .fees _ amount => amount

def Payment.ofRefund (who : Address) : Payment → ℕ
  | .refund receiver amount => if receiver = who then amount else 0
  | .fees _ _ => 0

namespace World

variable (w : World)

def earned : ℕ := (w.additions.map Addition.toService).sum

def credited (who : Address) : ℕ := (w.additions.map (Addition.toCredit who)).sum

def withdrawn : ℕ := (w.payments.map Payment.ofFees).sum

def refunded (who : Address) : ℕ := (w.payments.map (Payment.ofRefund who)).sum

end World

namespace DecisionHub

variable (hub : DecisionHub)

def pendingFees : ℕ :=
  ∑ id ∈ range hub.nextRequestId,
    if (hub.requests id).status = .pending then (hub.requests id).fee else 0

/-- The fees of the expired requests that name an address as `refundTo`. -/
def expiredFees (who : Address) : ℕ :=
  ∑ id ∈ range hub.nextRequestId,
    if (hub.requests id).status = .expired ∧ (hub.requests id).refundTo = who then
      (hub.requests id).fee else 0

end DecisionHub

/-- The additions that a request's status stands for. -/
def Request.settlement (id : ℕ) (r : Request) : List Addition :=
  match r.status with
  | .pending => []
  | .ready | .review | .consumed => [.service id r.fee]
  | .expired => [.credit id r.refundTo r.fee]

attribute [local simp] Addition.toCredit Request.settlement Addition.toService

/-- The balance covers the service balance, the refund credits and the pending fees. -/
def World.Solvent (w : World) : Prop :=
  w.hub.serviceBalance + ∑ who, w.hub.refundCredits who + w.hub.pendingFees ≤ w.balance

/-- For every request, the fee was added as often and where its status says; and the two balances
are what was added to them less what was paid from them. -/
structure World.SettledOnce (w : World) : Prop where
  once : ∀ id, (w.additions.filter fun addition => addition.requestId = id) =
    (w.hub.requests id).settlement id
  service : w.hub.serviceBalance + w.withdrawn = w.earned
  credits : ∀ who, w.hub.refundCredits who + w.refunded who = w.credited who

structure World.Books (w : World) : Prop extends w.SettledOnce where
  fresh : ∀ id, w.hub.nextRequestId ≤ id → w.hub.requests id = {}
  backing : ∑ id ∈ range w.hub.nextRequestId, (w.hub.requests id).fee ≤
    w.balance + w.withdrawn + ∑ who, w.refunded who

namespace World.Books

variable {w : World}

theorem requestId_lt (h : w.Books) : ∀ addition ∈ w.additions,
    addition.requestId < w.hub.nextRequestId := by
  intro addition hmem
  by_contra hlt
  have hnone := h.once addition.requestId
  rw [h.fresh _ (Nat.le_of_not_lt hlt)] at hnone
  have hin : addition ∈ w.additions.filter fun other => other.requestId = addition.requestId :=
    mem_filter.mpr ⟨hmem, decide_eq_true rfl⟩
  rw [hnone] at hin
  exact not_mem_nil hin

theorem sum_additions (h : w.Books) (weight : Addition → ℕ) :
    (w.additions.map weight).sum = ∑ id ∈ range w.hub.nextRequestId,
      (((w.hub.requests id).settlement id).map weight).sum := by
  rw [sum_eq_sum_keys w.additions Addition.requestId weight h.requestId_lt]
  apply sum_congr rfl
  intro id _
  rw [h.once id]

theorem credited_eq (h : w.Books) (who : Address) : w.credited who = w.hub.expiredFees who := by
  rw [credited, h.sum_additions]
  apply sum_congr rfl
  intro id _
  unfold Request.settlement
  cases hstatus : (w.hub.requests id).status <;> simp

theorem refunded_le (h : w.Books) (who : Address) : w.refunded who ≤ w.hub.expiredFees who := by
  rw [← h.credited_eq who, ← h.credits who]
  exact Nat.le_add_left _ _

theorem fees_eq (h : w.Books) :
    w.earned + ∑ who, w.credited who + w.hub.pendingFees =
      ∑ id ∈ range w.hub.nextRequestId, (w.hub.requests id).fee := by
  simp only [earned, credited, h.sum_additions, pendingFees]
  rw [sum_comm, ← sum_add_distrib, ← sum_add_distrib]
  apply sum_congr rfl
  intro id _
  unfold Request.settlement
  cases hstatus : (w.hub.requests id).status <;> simp

theorem solvent (h : w.Books) : w.Solvent := by
  have hfees := h.fees_eq
  have hbacking := h.backing
  have hservice := h.service
  have hcredits : ∑ who, w.credited who =
      ∑ who, w.hub.refundCredits who + ∑ who, w.refunded who := by
    rw [← sum_add_distrib]
    exact sum_congr rfl fun who _ => (h.credits who).symm
  unfold Solvent
  omega

end World.Books

theorem require_eq_ok {condition : Prop} [Decidable condition] {text : String} {u : Unit} :
    require condition text = .ok u ↔ condition := by
  by_cases h : condition <;> simp [require]

theorem checkedAdd_eq_ok {bits a b sum : ℕ} :
    checkedAdd bits a b = .ok sum ↔ a + b < 2 ^ bits ∧ a + b = sum := by
  by_cases h : a + b < 2 ^ bits <;> simp [checkedAdd, h]

/-- A function that leaves requests and balances alone. -/
structure Effect.Idle (hub : DecisionHub) (e : Effect) : Prop where
  nextRequestId : e.hub.nextRequestId = hub.nextRequestId
  requests : e.hub.requests = hub.requests
  serviceBalance : e.hub.serviceBalance = hub.serviceBalance
  refundCredits : e.hub.refundCredits = hub.refundCredits
  addition : e.addition = none
  payment : e.payment = none

/-- A function that writes one request: its fee stays, and the fee is added as the new status
says. -/
structure Effect.Writes (hub : DecisionHub) (id : ℕ) (r : Request) (e : Effect) : Prop where
  nextRequestId : e.hub.nextRequestId = hub.nextRequestId
  requests : e.hub.requests = Function.update hub.requests id r
  fee : r.fee = (hub.requests id).fee
  settlement : r.settlement id = (hub.requests id).settlement id ++ e.addition.toList
  requestId : ∀ addition ∈ e.addition.toList, addition.requestId = id
  serviceBalance : e.hub.serviceBalance =
    hub.serviceBalance + (e.addition.toList.map Addition.toService).sum
  refundCredits : ∀ who, e.hub.refundCredits who =
    hub.refundCredits who + (e.addition.toList.map (Addition.toCredit who)).sum
  known : (hub.requests id).requester ≠ 0 ∨ (hub.requests id).consumer ≠ 0
  payment : e.payment = none

/-- A function that sends ether: the balance it comes from goes down by as much. -/
structure Effect.Pays (hub : DecisionHub) (payment : Payment) (e : Effect) : Prop where
  nextRequestId : e.hub.nextRequestId = hub.nextRequestId
  requests : e.hub.requests = hub.requests
  serviceBalance : e.hub.serviceBalance + payment.ofFees = hub.serviceBalance
  refundCredits : ∀ who, e.hub.refundCredits who + payment.ofRefund who = hub.refundCredits who
  addition : e.addition = none
  payment : e.payment = some payment

structure Effect.Opens (hub : DecisionHub) (value : ℕ) (e : Effect) : Prop where
  nextRequestId : e.hub.nextRequestId = hub.nextRequestId + 1
  requests : ∃ r : Request, e.hub.requests = Function.update hub.requests hub.nextRequestId r ∧
    r.fee = value ∧ r.status = (hub.requests hub.nextRequestId).status
  serviceBalance : e.hub.serviceBalance = hub.serviceBalance
  refundCredits : e.hub.refundCredits = hub.refundCredits
  addition : e.addition = none
  payment : e.payment = none

variable {id : ℕ}

section Functions

variable {hub : DecisionHub} {d : Deployment} {msg : Msg} {e : Effect}

theorem idle_addSigner {signer : Address} (h : hub.addSigner d msg signer = .ok e) :
    e.Idle hub := by
  simp only [addSigner, bind_eq_ok, pure_eq_ok] at h
  obtain ⟨_, _, _, _, version, _, rfl⟩ := h
  exact ⟨rfl, rfl, rfl, rfl, rfl, rfl⟩

theorem idle_revokeSigner {version : ℕ} (h : hub.revokeSigner d msg version = .ok e) :
    e.Idle hub := by
  simp only [revokeSigner, bind_eq_ok, pure_eq_ok] at h
  obtain ⟨_, _, _, _, rfl⟩ := h
  exact ⟨rfl, rfl, rfl, rfl, rfl, rfl⟩

theorem idle_setRequestsPaused {paused : Bool} (h : hub.setRequestsPaused d msg paused = .ok e) :
    e.Idle hub := by
  simp only [setRequestsPaused, bind_eq_ok, pure_eq_ok] at h
  obtain ⟨_, _, rfl⟩ := h
  exact ⟨rfl, rfl, rfl, rfl, rfl, rfl⟩

theorem idle_registerTemplate {template : Template}
    (h : hub.registerTemplate d msg template = .ok e) : e.Idle hub := by
  simp only [registerTemplate, bind_eq_ok, pure_eq_ok] at h
  obtain ⟨_, _, _, _, _, _, _, _, _, _, id, _, rfl⟩ := h
  exact ⟨rfl, rfl, rfl, rfl, rfl, rfl⟩

theorem idle_disableTemplate (h : hub.disableTemplate d msg id = .ok e) : e.Idle hub := by
  simp only [disableTemplate, bind_eq_ok, pure_eq_ok] at h
  obtain ⟨_, _, _, _, rfl⟩ := h
  exact ⟨rfl, rfl, rfl, rfl, rfl, rfl⟩

theorem opens_requestDecision [HubCrypto] {q : Quote} {signature : Bytes}
    (h : hub.requestDecision d msg q signature = .ok e) : e.Opens hub msg.value := by
  simp only [requestDecision, bind_eq_ok, pure_eq_ok, require_eq_ok,
    checkedAdd_eq_ok] at h
  obtain ⟨_, _, _, _, _, _, _, _, _, _, _, _, _, _, _, _, _, hvalue, _, _, next, hnext, rfl⟩ := h
  exact ⟨hnext.2.symm, ⟨_, rfl, hvalue.symm, rfl⟩, rfl, rfl, rfl, rfl⟩

theorem writes_fulfill [HubCrypto] {answers : List Answer} {evidenceHash modelHash : B256}
    {signature : Bytes}
    (h : hub.fulfill d msg id answers evidenceHash modelHash signature = .ok e) :
    ∃ r, e.Writes hub id r := by
  simp only [fulfill, bind_eq_ok, pure_eq_ok, require_eq_ok, checkedAdd_eq_ok] at h
  obtain ⟨_, hpending, _, _, _, _, _, _, _, _, review, _, service, hservice, rfl⟩ := h
  refine ⟨_, rfl, rfl, rfl, ?_, ?_, ?_, ?_, .inl hpending.1, rfl⟩
  · cases review <;> simp [hpending.2]
  · simp [Addition.requestId]
  · simp [hservice.2]
  · simp

theorem writes_consume (h : hub.consume msg id = .ok e) : ∃ r, e.Writes hub id r := by
  simp only [consume, bind_eq_ok, pure_eq_ok, require_eq_ok] at h
  obtain ⟨_, hconsumer, _, hready, rfl⟩ := h
  refine ⟨_, rfl, rfl, rfl, ?_, ?_, rfl, fun _ => rfl, .inr hconsumer.2, rfl⟩
  · simp [hready]
  · simp

theorem writes_expire (h : hub.expire msg id = .ok e) : ∃ r, e.Writes hub id r := by
  simp only [expire, bind_eq_ok, pure_eq_ok, require_eq_ok, checkedAdd_eq_ok] at h
  obtain ⟨_, hpending, _, _, credit, hcredit, rfl⟩ := h
  refine ⟨_, rfl, rfl, rfl, ?_, ?_, ?_, ?_, .inl hpending.1, rfl⟩
  · simp [hpending.2]
  · simp [Addition.requestId]
  · simp
  · intro who
    by_cases hwho : (hub.requests id).refundTo = who
    · subst hwho
      simp [hcredit.2]
    · simp [hwho, update_of_ne (Ne.symm hwho)]

theorem pays_withdrawRefund (h : hub.withdrawRefund msg = .ok e) :
    ∃ payment, e.Pays hub payment := by
  simp only [withdrawRefund, bind_eq_ok, pure_eq_ok] at h
  obtain ⟨_, _, rfl⟩ := h
  refine ⟨_, rfl, rfl, rfl, ?_, rfl, rfl⟩
  intro who
  by_cases hwho : msg.sender = who
  · subst hwho
    simp [Payment.ofRefund]
  · simp [Payment.ofRefund, hwho, update_of_ne (Ne.symm hwho)]

theorem pays_withdrawServiceFees {receiver : Address} {amount : ℕ}
    (h : hub.withdrawServiceFees d msg receiver amount = .ok e) :
    ∃ payment, e.Pays hub payment := by
  simp only [withdrawServiceFees, bind_eq_ok, pure_eq_ok, require_eq_ok] at h
  obtain ⟨_, _, _, hfees, rfl⟩ := h
  exact ⟨.fees receiver amount, rfl, rfl, Nat.sub_add_cancel hfees.2, fun _ => rfl, rfl, rfl⟩

theorem dispatch_cases [HubCrypto] {method : Method} (h : hub.dispatch d msg method = .ok e) :
    e.Idle hub ∨ e.Opens hub msg.value ∨ (∃ id r, e.Writes hub id r) ∨
      ∃ payment, e.Pays hub payment := by
  cases method with
  | addSigner signer => exact .inl (idle_addSigner h)
  | revokeSigner version => exact .inl (idle_revokeSigner h)
  | setRequestsPaused paused => exact .inl (idle_setRequestsPaused h)
  | registerTemplate template => exact .inl (idle_registerTemplate h)
  | disableTemplate id => exact .inl (idle_disableTemplate h)
  | requestDecision q signature => exact .inr (.inl (opens_requestDecision h))
  | fulfill id answers evidenceHash modelHash signature =>
    exact .inr (.inr (.inl ⟨id, writes_fulfill h⟩))
  | consume id => exact .inr (.inr (.inl ⟨id, writes_consume h⟩))
  | expire id => exact .inr (.inr (.inl ⟨id, writes_expire h⟩))
  | withdrawRefund => exact .inr (.inr (.inr (pays_withdrawRefund h)))
  | withdrawServiceFees receiver amount =>
    exact .inr (.inr (.inr (pays_withdrawServiceFees h)))

end Functions

namespace World.Books

variable {w : World} {e : Effect} {value : ℕ}

theorem idle (h : w.Books) (he : e.Idle w.hub) (value : ℕ) : (w.applied value e).Books where
  once := by
    simpa only [applied, he.addition, toList_none, append_nil, he.requests] using h.once
  service := by
    simpa only [applied, earned, withdrawn, he.addition, toList_none, append_nil,
      he.serviceBalance] using h.service
  credits := by
    simpa only [applied, credited, refunded, he.addition, toList_none, append_nil,
      he.refundCredits] using h.credits
  fresh := by simpa only [applied, he.nextRequestId, he.requests] using h.fresh
  backing := by
    have hbacking := h.backing
    simp only [applied, he.nextRequestId, he.requests, withdrawn, refunded] at hbacking ⊢
    omega

theorem opens (h : w.Books) (he : e.Opens w.hub value) : (w.applied value e).Books := by
  obtain ⟨r, hrequests, hfee, hstatus⟩ := he.requests
  have hnew : w.hub.requests w.hub.nextRequestId = {} := h.fresh _ le_rfl
  refine ⟨⟨?_, ?_, ?_⟩, ?_, ?_⟩
  · intro id
    simp only [applied, he.addition, toList_none, append_nil, hrequests, h.once id]
    by_cases hid : id = w.hub.nextRequestId
    · subst hid
      simp [hnew, hstatus]
    · rw [update_of_ne hid]
  · simpa only [applied, earned, withdrawn, he.addition, toList_none, append_nil,
      he.serviceBalance] using h.service
  · simpa only [applied, credited, refunded, he.addition, toList_none, append_nil,
      he.refundCredits] using h.credits
  · intro id hid
    simp only [applied, he.nextRequestId, hrequests] at hid ⊢
    rw [update_of_ne (by omega), h.fresh id (by omega)]
  · have hbacking := h.backing
    simp only [applied, he.nextRequestId, hrequests, withdrawn, refunded] at hbacking ⊢
    rw [sum_range_succ_update w.hub.requests Request.fee]
    omega

theorem writes (h : w.Books) {r : Request} (he : e.Writes w.hub id r) (value : ℕ) :
    (w.applied value e).Books := by
  have hid : id < w.hub.nextRequestId := by
    by_contra hlt
    have hknown := he.known
    rw [h.fresh id (Nat.le_of_not_lt hlt)] at hknown
    simp at hknown
  refine ⟨⟨?_, ?_, ?_⟩, ?_, ?_⟩
  · intro other
    simp only [applied, he.requests, filter_append, h.once other]
    by_cases hother : other = id
    · subst hother
      rw [update_self, he.settlement, filter_eq_self.mpr]
      intro addition haddition
      simpa using he.requestId addition haddition
    · rw [update_of_ne hother, filter_eq_nil_iff.mpr, append_nil]
      intro addition haddition
      simpa [he.requestId addition haddition] using Ne.symm hother
  · have hservice := h.service
    simp only [applied, earned, withdrawn, he.serviceBalance, map_append,
      sum_append] at hservice ⊢
    omega
  · intro who
    have hcredits := h.credits who
    simp only [applied, credited, refunded, he.refundCredits, map_append,
      sum_append] at hcredits ⊢
    omega
  · intro other hother
    simp only [applied, he.nextRequestId, he.requests] at hother ⊢
    rw [update_of_ne (by omega), h.fresh other hother]
  · have hbacking := h.backing
    have hsum := sum_range_update w.hub.requests Request.fee hid r
    simp only [applied, he.nextRequestId, he.requests, withdrawn, refunded] at hbacking ⊢
    have hfee := he.fee
    omega

theorem amount_eq (payment : Payment) :
    payment.amount = payment.ofFees + ∑ who, payment.ofRefund who := by
  cases payment <;> simp [Payment.amount, Payment.ofFees, Payment.ofRefund]

theorem pays (h : w.Books) {payment : Payment} (he : e.Pays w.hub payment) (value : ℕ)
    (hcovered : payment.amount ≤ w.balance + value) : ((w.applied value e).paid payment).Books := by
  refine ⟨⟨?_, ?_, ?_⟩, ?_, ?_⟩
  · simpa only [applied, paid, he.addition, toList_none, append_nil, he.requests]
      using h.once
  · have hservice := h.service
    have hleft := he.serviceBalance
    simp only [applied, paid, earned, withdrawn, he.addition, toList_none, append_nil,
      List.map_append, List.sum_append, List.map_singleton, List.sum_singleton] at hservice ⊢
    omega
  · intro who
    have hcredits := h.credits who
    have hleft := he.refundCredits who
    simp only [applied, paid, credited, refunded, he.addition, toList_none,
      List.append_nil, List.map_append, List.sum_append, List.map_singleton,
      List.sum_singleton] at hcredits ⊢
    omega
  · simpa only [applied, paid, he.nextRequestId, he.requests] using h.fresh
  · have hbacking := h.backing
    have hamount := amount_eq payment
    simp only [applied, paid, he.nextRequestId, he.requests, withdrawn, refunded, map_append,
      List.sum_append, List.map_singleton, List.sum_singleton, sum_add_distrib] at hbacking ⊢
    omega

theorem exec [HubCrypto] (d : Deployment) (call : Call) (reply : Reply World)
    (hexec : World.exec d call w = .ok reply) (h : w.Books) : reply.state.Books := by
  cases call with
  | newBlock timestamp =>
    simp only [World.exec, bind_eq_ok, pure_eq_ok] at hexec
    obtain ⟨_, _, rfl⟩ := hexec
    exact ⟨⟨h.once, h.service, h.credits⟩, h.fresh, h.backing⟩
  | forced amount =>
    obtain rfl := Except.ok.inj hexec
    refine ⟨⟨h.once, h.service, h.credits⟩, h.fresh, h.backing.trans ?_⟩
    simp only [Reply.state, withdrawn, refunded]
    omega
  | hub sender value method =>
    simp only [World.exec, bind_eq_ok] at hexec
    obtain ⟨_, _, e, he, hreply⟩ := hexec
    rcases dispatch_cases he with hidle | hopens | ⟨id, r, hwrites⟩ | ⟨payment, hpays⟩
    · rw [hidle.payment] at hreply
      obtain rfl := Except.ok.inj hreply
      exact h.idle hidle value
    · rw [hopens.payment] at hreply
      obtain rfl := Except.ok.inj hreply
      exact h.opens hopens
    · rw [hwrites.payment] at hreply
      obtain rfl := Except.ok.inj hreply
      exact h.writes hwrites value
    · rw [hpays.payment] at hreply
      simp only [bind_eq_ok, pure_eq_ok, require_eq_ok] at hreply
      obtain ⟨_, hcovered, rfl⟩ := hreply
      exact h.pays hpays value hcovered.1

end World.Books

theorem World.Books.deploy {initialSigner : Address} {balance timestamp : ℕ} {w : World}
    (h : World.deploy initialSigner balance timestamp = .ok w) : w.Books := by
  simp only [World.deploy, bind_eq_ok, pure_eq_ok] at h
  obtain ⟨_, _, rfl⟩ := h
  refine ⟨⟨fun id => rfl, rfl, fun who => rfl⟩, fun id _ => rfl, ?_⟩
  simp

section Sample

/-- Everybody's signature is that of the signer 7. -/
@[reducible]
def sampleHubCrypto : HubCrypto where
  keccak256 _ := 0
  ecrecover _ _ _ _ := 7

attribute [local instance] sampleHubCrypto

/-- The owner 3 registers a template; 5 pays 10 for a decision that nobody makes, takes the refund,
and asks for it again while receiving it. -/
def sampleActs : List (Act Call) :=
  [.call (.hub 3 0 (.registerTemplate ⟨1, 1, false, [3], [0], [0], [0], [255]⟩)),
    .call (.hub 5 10 (.requestDecision ⟨5, 5, 6, 1, 1, 50, 1, 10, 20⟩
      (List.replicate 63 0 ++ [1, 27]))),
    .call (.newBlock 60),
    .call (.hub 9 0 (.expire 1)),
    .call (.hub 5 0 .withdrawRefund),
    .call (.hub 5 0 .withdrawRefund),
    .leave true]

theorem sampleActs_refund {w : World} (h : World.deploy 7 0 10 = .ok w) :
    ((⟨w, []⟩ : CallFrames World).run (World.exec ⟨42, 1, 3⟩) sampleActs).state.refunded 5 =
      10 := by
  obtain rfl := Except.ok.inj h
  decide

end Sample

end N42.Decision
