import Mathlib.Algebra.BigOperators.Group.Finset.Piecewise
import Mathlib.Data.Fintype.Basic

/-!
Credit for the transactions that the ingest listener admits into the pool. A connection asks for it
with a probe and spends it with batches.
-/

namespace N42

open Finset

inductive IngestFrameHeader where
  | close
  | creditProbe
  | batch (numTxs : ℕ)
  | oversized

def maxIngestBatchTxs : ℕ := 65536

def classifyIngestHeader (header : UInt32) : IngestFrameHeader :=
  if header = 0 then .close
  else if header = 0xffffffff then .creditProbe
  else if header.toNat > maxIngestBatchTxs then .oversized
  else .batch header.toNat

structure IngestConfig where
  baseHighWater : ℕ
  poolLimit : ℕ
  ttlMs : ℕ
  creditCap : ℕ

structure VirtualBlockCreditState where
  availableTxs : ℕ := 0
  untilMs : ℕ := 0

def creditProbeAllowance (baseHighWater pending poolLimit virtualAvailable : ℕ) : ℕ × ℕ × ℕ :=
  let baseCredit := baseHighWater - pending
  let virtualAvailable := min virtualAvailable (poolLimit - baseHighWater)
  let dynamicHighWater := baseHighWater + virtualAvailable
  if pending ≥ dynamicHighWater then (dynamicHighWater, dynamicHighWater, 0)
  else
    let virtualGrant := dynamicHighWater - pending - baseCredit
    (dynamicHighWater, dynamicHighWater, baseCredit + min virtualGrant virtualAvailable)

theorem pending_add_allowance_le {base pending limit available : ℕ} (hbase : base ≤ limit)
    (hcredit : (creditProbeAllowance base pending limit available).2.2 ≠ 0) :
    pending + (creditProbeAllowance base pending limit available).2.2 ≤ limit := by
  revert hcredit
  simp only [creditProbeAllowance]
  split
  · intro h
    exact absurd rfl h
  · dsimp only
    omega

variable (cfg : IngestConfig)

namespace VirtualBlockCreditState

variable (state : VirtualBlockCreditState) (nowMs : ℕ)

def resetExpired : VirtualBlockCreditState :=
  if state.untilMs = 0 ∨ nowMs > state.untilMs then {} else state

def note (txCount : ℕ) : VirtualBlockCreditState :=
  let creditTxs := min txCount cfg.creditCap
  if cfg.ttlMs = 0 ∨ txCount = 0 ∨ creditTxs = 0 then state
  else
    let untilMs := min (nowMs + cfg.ttlMs) (2 ^ 64 - 1)
    let state := state.resetExpired nowMs
    ⟨max state.availableTxs creditTxs, max state.untilMs untilMs⟩

def active : ℕ :=
  if cfg.ttlMs = 0 ∨ nowMs > state.untilMs then 0
  else min state.availableTxs (cfg.poolLimit - cfg.baseHighWater)

def effectiveHighWater : ℕ :=
  cfg.baseHighWater + state.active cfg nowMs

/-- `reserve_credit_probe_allowance`. Only the virtual part of a grant is taken from the state. -/
def reserve (pending : ℕ) : (ℕ × ℕ × ℕ) × VirtualBlockCreditState :=
  let baseCredit := cfg.baseHighWater - pending
  if cfg.ttlMs = 0 then ((cfg.baseHighWater, cfg.baseHighWater, baseCredit), state)
  else
    let state := state.resetExpired nowMs
    let virtualAvailable := min state.availableTxs (cfg.poolLimit - cfg.baseHighWater)
    let allowance := creditProbeAllowance cfg.baseHighWater pending cfg.poolLimit virtualAvailable
    if allowance.2.2 = 0 then (allowance, state)
    else
      let availableTxs := state.availableTxs - (allowance.2.2 - baseCredit)
      (allowance, ⟨availableTxs, if availableTxs = 0 then 0 else state.untilMs⟩)

variable {cfg state nowMs}

/-- A grant fits between the reading it was computed from and the pool limit. -/
theorem pending_add_reserve_le {pending : ℕ} (hbase : cfg.baseHighWater ≤ cfg.poolLimit)
    (hgrant : (state.reserve cfg nowMs pending).1.2.2 ≠ 0) :
    pending + (state.reserve cfg nowMs pending).1.2.2 ≤ cfg.poolLimit := by
  revert hgrant
  simp only [reserve]
  split
  · dsimp only
    omega
  · rw [apply_ite Prod.fst, ite_self]
    exact pending_add_allowance_le hbase

end VirtualBlockCreditState

/-- Where a connection stands in `handle_client` and `wait_for_credit_probe`. -/
inductive IngestPhase where
  | reading
  | polling
  | polled (pending : ℕ)
  -- the reading is below the effective high water
  | below (pending : ℕ)

structure Ingest (ι : Type) where
  pending : ℕ
  credit : VirtualBlockCreditState := {}
  phase : ι → IngestPhase := fun _ => .reading
  -- `leased_credit_remaining`
  leased : ι → ℕ := fun _ => 0

inductive IngestEvent (ι : Type) where
  -- a header with its batch, of which the pool accepts some transactions
  | frame (c : ι) (header : UInt32) (accepted nowMs : ℕ)
  | poll (c : ι)
  | gate (c : ι) (nowMs : ℕ)
  | reserve (c : ι) (nowMs : ℕ)
  | note (txCount nowMs : ℕ)
  | remove (count : ℕ)
  | disconnect (c : ι)

namespace Ingest

variable {ι : Type} [DecidableEq ι] (w : Ingest ι) (c : ι)

def moveTo (phase : IngestPhase) : Ingest ι :=
  { w with phase := Function.update w.phase c phase }

def leave : Ingest ι :=
  { w with leased := Function.update w.leased c 0 }.moveTo c .reading

def batch (numTxs accepted nowMs : ℕ) : Ingest ι :=
  let takeLimit := min (w.leased c) numTxs
  if w.pending ≥ w.credit.effectiveHighWater cfg nowMs ∧ w.leased c = 0 then w
  else if takeLimit = 0 then w
  else
    { w with
      -- decoding and admission can only lose transactions of the prefix
      pending := w.pending + min accepted takeLimit
      leased := Function.update w.leased c (w.leased c - takeLimit) }

def step : IngestEvent ι → Ingest ι
  | .frame c header accepted nowMs =>
    match w.phase c, classifyIngestHeader header with
    | .reading, .close | .reading, .oversized => w.leave c
    | .reading, .creditProbe => w.moveTo c .polling
    | .reading, .batch numTxs => w.batch cfg c numTxs accepted nowMs
    | _, _ => w
  | .poll c =>
    match w.phase c with
    | .polling => w.moveTo c (.polled w.pending)
    | _ => w
  | .gate c nowMs =>
    match w.phase c with
    | .polled pending =>
      w.moveTo c (if pending ≥ w.credit.effectiveHighWater cfg nowMs then .polling
        else .below pending)
    | _ => w
  | .reserve c nowMs =>
    match w.phase c with
    | .below pending =>
      let ((_, _, granted), credit) := w.credit.reserve cfg nowMs pending
      if granted = 0 then { w with credit }.moveTo c .polling
      else { w with credit, leased := Function.update w.leased c granted }.moveTo c .reading
    | _ => w
  | .note txCount nowMs => { w with credit := w.credit.note cfg nowMs txCount }
  | .remove count => { w with pending := w.pending - count }
  | .disconnect c => w.leave c

def run : Ingest ι → List (IngestEvent ι) → Ingest ι
  | w, [] => w
  | w, event :: events => run (w.step cfg event) events

variable [Fintype ι]

/-- When a probe is granted, the reading covers the pending count and the credit leased to the
other connections. -/
def Covered : IngestEvent ι → Prop
  | .reserve c _ =>
    ∀ pending, w.phase c = .below pending → w.pending + ∑ i ∈ univ \ {c}, w.leased i ≤ pending
  | _ => True

def CoveredRun : Ingest ι → List (IngestEvent ι) → Prop
  | _, [] => True
  | w, event :: events => w.Covered event ∧ CoveredRun (w.step cfg event) events

/-- The pool has room for everything that has been leased. -/
def Solvent : Prop :=
  w.pending + ∑ i, w.leased i ≤ cfg.poolLimit

variable {cfg w}

theorem sum_leased : ∑ i, w.leased i = w.leased c + ∑ i ∈ univ \ {c}, w.leased i := by
  have h := sum_update_of_mem (mem_univ c) w.leased (w.leased c)
  rwa [Function.update_eq_self] at h

theorem Solvent.leave (h : w.Solvent cfg) : (w.leave c).Solvent cfg := by
  have hsum := w.sum_leased c
  simp only [Solvent, Ingest.leave, moveTo, sum_update_of_mem (mem_univ c)] at h ⊢
  omega

theorem Solvent.batch {numTxs accepted nowMs : ℕ} (h : w.Solvent cfg) :
    (w.batch cfg c numTxs accepted nowMs).Solvent cfg := by
  have hsum := w.sum_leased c
  rw [Ingest.batch]
  split_ifs
  · exact h
  · exact h
  · simp only [Solvent, sum_update_of_mem (mem_univ c)] at h ⊢
    omega

theorem Solvent.reserve {nowMs : ℕ} (hbase : cfg.baseHighWater ≤ cfg.poolLimit)
    (h : w.Solvent cfg) (hcovered : w.Covered (.reserve c nowMs)) :
    (w.step cfg (.reserve c nowMs)).Solvent cfg := by
  rw [step]
  split
  next pending hphase =>
    have hreading := hcovered pending hphase
    dsimp only
    split
    · exact h
    next hgrant =>
      have hroom := VirtualBlockCreditState.pending_add_reserve_le hbase hgrant
      change w.pending + ∑ i, Function.update w.leased c
        (w.credit.reserve cfg nowMs pending).1.2.2 i ≤ cfg.poolLimit
      rw [sum_update_of_mem (mem_univ c)]
      omega
  · exact h

theorem Solvent.step (hbase : cfg.baseHighWater ≤ cfg.poolLimit) (h : w.Solvent cfg)
    (event : IngestEvent ι) (hcovered : w.Covered event) : (w.step cfg event).Solvent cfg := by
  cases event with
  | frame c =>
    rw [Ingest.step]
    split
    · exact h.leave c
    · exact h.leave c
    · exact h
    · exact h.batch c
    · exact h
  | poll | gate =>
    rw [Ingest.step]
    split <;> exact h
  | reserve c => exact h.reserve c hbase hcovered
  | note => exact h
  | remove count =>
    simp only [Solvent, Ingest.step] at h ⊢
    omega
  | disconnect c => exact h.leave c

theorem Solvent.run (hbase : cfg.baseHighWater ≤ cfg.poolLimit) (events : List (IngestEvent ι))
    (h : w.Solvent cfg) (hcovered : CoveredRun cfg w events) : (run cfg w events).Solvent cfg := by
  induction events generalizing w with
  | nil => exact h
  | cons event events ih => exact ih (h.step hbase event hcovered.1) hcovered.2

def probing (c : ι) : List (IngestEvent ι) :=
  [.frame c 0xffffffff 0 0, .poll c, .gate c 0]

end Ingest

end N42
