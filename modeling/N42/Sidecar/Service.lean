import Mathlib
import N42.Primitives.Types

/-!
The path of a state diff through `ConsensusService`: staged when its block commits, released once
execution confirmed the view's hash and no earlier diff is missing, and handed to the state sinks by
a worker.
-/

namespace N42.Sidecar

open Lib

/-- What decoding the bytes of a `BlockDataBroadcast` yields. -/
structure BlockData (D : Type) where
  view : Option ℕ
  parentAndNumber : Option (B256 × ℕ)
  stateDiff : Option D

structure RecentBlockData (D : Type) where
  view : ℕ
  blockHash : B256
  blockData : BlockData D
  executionParentHash : Option B256
  executionBlockNumber : Option ℕ
  executionStateDiff : Option D

def MAX_PENDING_BLOCK_DATA : ℕ := 16

abbrev SidecarDiffWork (D : Type) := ℕ × B256 × D

/-- Where a background worker stands. -/
inductive Worker (D : Type) where
  | unborn
  | pop
  /-- The queue was found empty. -/
  | release
  | recheck
  | reclaim
  | load (work : SidecarDiffWork D)
  | accept (work : SidecarDiffWork D)
  | apply (work : SidecarDiffWork D)
  | gone

/-- The fields of `ConsensusService` the diffs go through, the workers, and the sinks. -/
structure Service (D : Type) where
  headBlockHash : B256
  executionValidatedHeadView : ℕ
  recentBlockData : List (RecentBlockData D)
  pendingBlockData : List B256
  pendingSidecarDiffs : Std.TreeMap ℕ (B256 × D)
  executionValidatedSidecarHashes : Std.TreeMap ℕ B256
  missingSidecarDiffs : Std.TreeMap ℕ B256
  sidecarApplyQueue : List (SidecarDiffWork D)
  sidecarApplyWorkerRunning : Bool
  lastSidecarAppliedView : ℕ
  /-- The service has pushed to the queue and is about to look whether a worker runs. -/
  kicking : Bool
  /-- The commit the service is in, with the execution lineage read at its start. -/
  committing : Option (ℕ × B256 × List (RecentBlockData D))
  spawned : ℕ
  workers : ℕ → Worker D
  handed : List (SidecarDiffWork D)

namespace Service

variable {D : Type}

def new (genesis : B256) : Service D where
  headBlockHash := genesis
  executionValidatedHeadView := 0
  recentBlockData := []
  pendingBlockData := []
  pendingSidecarDiffs := ∅
  executionValidatedSidecarHashes := ∅
  missingSidecarDiffs := ∅
  sidecarApplyQueue := []
  sidecarApplyWorkerRunning := false
  lastSidecarAppliedView := 0
  kicking := false
  committing := none
  spawned := 0
  workers _ := .unborn
  handed := []

/-- The loop over the staged diffs: the views to release, and the view with its staged and its
canonical hash if the loop ends at a mismatch. -/
def confirmable (validated : Std.TreeMap ℕ B256) (blockedView : Option ℕ) :
    List (ℕ × B256 × D) → List ℕ × Option (ℕ × B256 × B256)
  | [] => ([], none)
  | (view, stagedHash, _) :: rest =>
    if blockedView.any fun blocked => view ≥ blocked then ([], none)
    else match validated[view]? with
      | none => ([], none)
      | some canonicalHash =>
        if canonicalHash ≠ stagedHash then ([], some (view, stagedHash, canonicalHash))
        else
          let (views, mismatch) := confirmable validated blockedView rest
          (view :: views, mismatch)

variable (s : Service D)

def dropStaleBindings : Service D :=
  let stale := s.executionValidatedSidecarHashes.keys.filter fun view =>
    view ≤ s.lastSidecarAppliedView ∧ s.pendingSidecarDiffs[view]?.isNone ∧
      s.missingSidecarDiffs[view]?.isNone
  { s with
    executionValidatedSidecarHashes :=
      stale.foldl (fun bindings view => bindings.erase view) s.executionValidatedSidecarHashes }

variable (confirmedView : ℕ)

def blockedView : Option ℕ :=
  (s.missingSidecarDiffs.keys.filter fun view => view ≤ confirmedView).head?

def staged : List (ℕ × B256 × D) :=
  s.pendingSidecarDiffs.toList.filter fun entry => entry.1 ≤ confirmedView

/-- A diff that is not of the confirmed hash makes way for the missing one. -/
def replaceMismatch : Option (ℕ × B256 × B256) → Service D
  | none => s
  | some (view, _, canonicalHash) => { s with
      pendingSidecarDiffs := s.pendingSidecarDiffs.erase view
      missingSidecarDiffs := s.missingSidecarDiffs.insert view canonicalHash }

def release (view : ℕ) : Service D :=
  { s with
    sidecarApplyQueue := s.sidecarApplyQueue ++
      (s.pendingSidecarDiffs[view]?.map fun (hash, diff) => (view, hash, diff)).toList
    pendingSidecarDiffs := s.pendingSidecarDiffs.erase view
    executionValidatedSidecarHashes := s.executionValidatedSidecarHashes.erase view }

/-- `enqueue_confirmed_sidecar_state_diffs`, up to the swap of the running flag. -/
def enqueueConfirmed : Service D :=
  let s := s.dropStaleBindings
  let (views, mismatch) := confirmable s.executionValidatedSidecarHashes
    (s.blockedView confirmedView) (s.staged confirmedView)
  let s := s.replaceMismatch mismatch
  if views.isEmpty then s else { views.foldl release s with kicking := true }

/-- `enqueue_confirmed_sidecar_state_diffs`, from the swap of the running flag on. -/
def kick : Service D :=
  if s.sidecarApplyWorkerRunning then { s with kicking := false }
  else { s with
    kicking := false
    sidecarApplyWorkerRunning := true
    spawned := s.spawned + 1
    workers := Function.update s.workers s.spawned .pop }

variable (view : ℕ) (hash : B256)

def fillGap (diff : D) : Service D :=
  let s := { s with
    missingSidecarDiffs := s.missingSidecarDiffs.erase view
    pendingSidecarDiffs := s.pendingSidecarDiffs.insert view (hash, diff) }
  if view ≤ s.executionValidatedHeadView then s.enqueueConfirmed s.executionValidatedHeadView
  else s

variable (data : BlockData D)

def tryRecoverMissingSidecarDiff : Service D :=
  match s.missingSidecarDiffs.toList.find? fun missing => missing.2 = hash, data.stateDiff with
  | some (view, _), some diff => s.fillGap view hash diff
  | _, _ => s

def rememberRecentBlockData : Service D :=
  if s.recentBlockData.any fun entry => entry.blockHash = hash then s
  else match data.view with
    | none => s
    | some view =>
      let kept := if s.recentBlockData.length ≥ MAX_PENDING_BLOCK_DATA then
        s.recentBlockData.tail else s.recentBlockData
      { s with recentBlockData := kept ++ [⟨view, hash, data, none, none, none⟩] }

/-- `cache_pending_block_data_inner`; which entry a full cache gives up is up to
`dropBlockData`. -/
def cachePendingBlockData : Service D :=
  let s := (s.tryRecoverMissingSidecarDiff hash data).rememberRecentBlockData hash data
  if hash ∈ s.pendingBlockData then s
  else { s with pendingBlockData := s.pendingBlockData ++ [hash] }

/-- Block data leaves the cache: evicted by another block, or cleared by a finalization. -/
def dropBlockData (hash : B256) : Service D :=
  { s with pendingBlockData := s.pendingBlockData.filter fun cached => cached ≠ hash }

def modifyRecent (f : RecentBlockData D → RecentBlockData D) (hash : B256) :
    List (RecentBlockData D) → List (RecentBlockData D)
  | [] => []
  | entry :: rest =>
    if entry.blockHash = hash then f entry :: rest else entry :: modifyRecent f hash rest

def recordValidatedExecutionMetadata (hash parentHash : B256) (blockNumber : ℕ)
    (stateDiff : Option D) : Service D :=
  { s with
    recentBlockData := modifyRecent (fun entry => { entry with
      executionParentHash := some parentHash
      executionBlockNumber := some blockNumber
      executionStateDiff := stateDiff <|> entry.executionStateDiff }) hash s.recentBlockData }

def handleStateDiffReady (hash : B256) (stateDiff : D) : Service D :=
  match s.recentBlockData.find? fun entry => entry.blockHash = hash with
  | none => s
  | some entry =>
    if s.missingSidecarDiffs[entry.view]? = some hash then s.fillGap entry.view hash stateDiff
    else { s with
      recentBlockData := modifyRecent (fun entry => { entry with
        executionStateDiff := some stateDiff }) hash s.recentBlockData }

def discardUnvalidatedSidecarDiff : Service D :=
  if (s.pendingSidecarDiffs[view]?.any fun staged => staged.1 = hash) then
    { s with
      pendingSidecarDiffs := s.pendingSidecarDiffs.erase view
      missingSidecarDiffs := s.missingSidecarDiffs.insert view hash }
  else s

def lineageLoop (s : Service D) : ℕ → B256 → List B256 → List (RecentBlockData D) →
    Option (List (RecentBlockData D))
  | 0, current, _, reversed => if current = s.headBlockHash then some reversed else none
  | fuel + 1, current, seen, reversed =>
    if current = s.headBlockHash then some reversed
    else if current ∈ seen then none
    else match s.recentBlockData.find? fun entry => entry.blockHash = current with
      | none => none
      | some entry =>
        let known := match entry.executionParentHash, entry.executionBlockNumber with
          | some parent, some number => some (parent, number)
          | _, _ => entry.blockData.parentAndNumber
        match known with
        | none => none
        | some (parent, number) =>
          s.lineageLoop fuel parent (current :: seen) ({ entry with
            executionParentHash := some parent
            executionBlockNumber := some number } :: reversed)

/-- `recent_execution_lineage`: at most `MAX_PENDING_BLOCK_DATA` blocks, none on failure. -/
def recentExecutionLineage (blockHash : B256) : List (RecentBlockData D) :=
  (s.lineageLoop MAX_PENDING_BLOCK_DATA blockHash [] []).getD []

/-- The blocks a commit finalizes, with the diffs at hand. -/
def lineageData (lineage : List (RecentBlockData D)) (view : ℕ) (hash : B256) :
    List (ℕ × B256 × Option D) :=
  if lineage.isEmpty then
    if hash ∈ s.pendingBlockData then
      [(view, hash, (s.recentBlockData.find? fun entry => entry.blockHash = hash).bind
        RecentBlockData.executionStateDiff)]
    else []
  else lineage.map fun entry => (entry.view, entry.blockHash, entry.executionStateDiff)

def stage : ℕ × B256 × Option D → Service D
  | (view, hash, some diff) => { s with
      missingSidecarDiffs := s.missingSidecarDiffs.erase view
      pendingSidecarDiffs := s.pendingSidecarDiffs.insert view (hash, diff) }
  | (view, hash, none) => { s with
      missingSidecarDiffs := s.missingSidecarDiffs.insert view hash }

def beginCommit : Service D :=
  { s with committing := some (view, hash, s.recentExecutionLineage hash) }

/-- The staging of `handle_block_committed`. Between its start and this the service may have
drained block data from the leader's feedback channel. -/
def stageCommit (lineage : List (RecentBlockData D)) : Service D :=
  let s := (s.lineageData lineage view hash).foldl stage { s with committing := none }
  if view ≤ s.executionValidatedHeadView then s.enqueueConfirmed s.executionValidatedHeadView
  else s

def advanceExecutionValidatedHead : Service D :=
  if s.executionValidatedSidecarHashes[view]?.any fun existing => existing ≠ hash then s
  else
    let s := { s with
      executionValidatedSidecarHashes := s.executionValidatedSidecarHashes.insert view hash }
    if view < s.executionValidatedHeadView then s.enqueueConfirmed s.executionValidatedHeadView
    else if view = s.executionValidatedHeadView ∧ s.executionValidatedHeadView ≠ 0 ∧
        s.headBlockHash ≠ hash then s
    else { s with
      headBlockHash := hash
      executionValidatedHeadView := view }.enqueueConfirmed view

def workerStep (w : ℕ) : Service D :=
  let goto (s : Service D) (pc : Worker D) := { s with workers := Function.update s.workers w pc }
  match s.workers w with
  | .unborn => s
  | .pop => match s.sidecarApplyQueue with
    | [] => goto s .release
    | work :: rest => goto { s with sidecarApplyQueue := rest } (.load work)
  | .release => goto { s with sidecarApplyWorkerRunning := false } .recheck
  | .recheck => goto s (if s.sidecarApplyQueue.isEmpty then .gone else .reclaim)
  | .reclaim =>
    if s.sidecarApplyWorkerRunning then goto s .gone
    else goto { s with sidecarApplyWorkerRunning := true } .pop
  | .load work =>
    goto s (if work.1 ≤ s.lastSidecarAppliedView then .pop else .accept work)
  | .accept work => goto { s with lastSidecarAppliedView := work.1 } (.apply work)
  | .apply work => goto { s with handed := s.handed ++ [work] } .pop
  | .gone => s

end Service

inductive Event (D : Type) where
  | blockData (hash : B256) (data : BlockData D)
  | dropBlockData (hash : B256)
  | executionMetadata (hash parentHash : B256) (blockNumber : ℕ) (stateDiff : Option D)
  | stateDiffReady (hash : B256) (stateDiff : D)
  | commit (view : ℕ) (hash : B256)
  | stageCommit
  | executionValid (view : ℕ) (hash : B256)
  | discard (view : ℕ) (hash : B256)
  | kick
  | worker (w : ℕ)

structure World (D : Type) where
  service : Service D
  committed : List (ℕ × B256)
  confirmed : List (ℕ × B256)

namespace World

variable {D : Type}

def new (genesis : B256) : World D := ⟨.new genesis, [], []⟩

def Busy (x : World D) : Prop := x.service.kicking = true ∨ x.service.committing.isSome

instance (x : World D) : Decidable x.Busy := inferInstanceAs (Decidable (_ ∨ _))

/-- One event. A handler that has begun is carried on before another one begins; during a
commit the leader's block data may come in. -/
def step (x : World D) : Event D → World D
  | .kick => if x.service.kicking then { x with service := x.service.kick } else x
  | .worker w => { x with service := x.service.workerStep w }
  | .blockData hash data =>
    if x.service.kicking then x
    else { x with service := x.service.cachePendingBlockData hash data }
  | .dropBlockData hash =>
    if x.service.kicking then x else { x with service := x.service.dropBlockData hash }
  | .executionMetadata hash parentHash blockNumber stateDiff =>
    if x.Busy then x
    else { x with service :=
      x.service.recordValidatedExecutionMetadata hash parentHash blockNumber stateDiff }
  | .stateDiffReady hash stateDiff =>
    if x.Busy then x
    else { x with service := x.service.handleStateDiffReady hash stateDiff }
  | .commit view hash =>
    if x.Busy then x else { x with service := x.service.beginCommit view hash }
  | .stageCommit => match x.service.committing with
    | none => x
    | some (view, hash, lineage) =>
      if x.service.kicking then x
      else { x with
        service := x.service.stageCommit view hash lineage
        committed := x.committed ++ (x.service.lineageData lineage view hash).map
          (fun block => (block.1, block.2.1)) ++ [(view, hash)] }
  | .executionValid view hash =>
    if x.Busy then x
    else { x with
      service := x.service.advanceExecutionValidatedHead view hash
      confirmed := x.confirmed ++ [(view, hash)] }
  | .discard view hash =>
    if x.Busy then x
    else { x with service := x.service.discardUnvalidatedSidecarDiff view hash }

def run (genesis : B256) (events : List (Event D)) : World D := events.foldl step (new genesis)

end World

end N42.Sidecar
