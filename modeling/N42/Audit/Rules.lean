import N42.Lib.History
import N42.Service.Node

/-!
What the audit log of a node can look like.

`Rule` says, for each kind of effect, what must already be in the log for the engine to produce it.
A log whose every entry obeys the rule is `Valid`.
-/

namespace N42

open Lib

variable [Crypto]

def EpochOp.apply (em : EpochManager) : EpochOp → EpochManager
  | .replacePending changes => em.replacePendingFromProposal changes
  | .commitPending => em.commitPendingChanges.toOption.getD em
  | .advance => em.advanceEpoch
  | .carry => em.carryEpochForward
  | .proposeAdd info => (em.proposeAddValidator info).toOption.getD em
  | .proposeRemove address => (em.proposeRemoveValidator address).toOption.getD em

def Core.apply (c : Core) : Effect → Core
  | .lock qc => { c with locked := qc }
  | .commit qc =>
    { c with
      locked := if c.locked.view < qc.view then qc else c.locked
      committed := if c.committed.view ≤ qc.view then qc else c.committed }
  | .enter view => { c with view := view }
  | .persistVote view _ => { c with votedView := view }
  | .persistCommitVote view _ => { c with commitVotedView := view }
  | .epoch op => { c with epochs := op.apply c.epochs }
  | .boot core => core
  | _ => c

variable (cfg : NodeConfig)

def Core.initial : Core where
  view := 1
  locked := .genesis
  committed := .genesis
  votedView := 0
  commitVotedView := 0
  epochs := .new cfg.initialValidatorSet

def coreOf (cfg : NodeConfig) : List Effect → Core
  | [] => .initial cfg
  | x :: log => (coreOf cfg log).apply x

variable (log : List Effect)

def Delivered (m : ConsensusMessage) : Prop :=
  ∃ i, .deliver i ∈ log ∧ m ∈ i.messages

def Certified (qc : QuorumCertificate) : Prop :=
  ∃ cert used known, .accept cert used known ∈ log ∧ cert.qc? = some qc

/-- A certificate the engine may rely on: it was accepted, or it is of view 0. -/
def Trusted (qc : QuorumCertificate) : Prop :=
  qc.view = 0 ∨ Certified log qc

def EpochOutputLost : Prop :=
  ∃ newEpoch count, .emit (.epochTransition newEpoch count) false ∈ log

def Core.Steady (c : Core) : Prop :=
  c.epochs.epochLength = 0 ∨ c.epochs.epochForView c.view = c.epochs.currentEpoch

/-- The set that the engine's lookup gives for its own view. -/
structure IsCurrentSet (log : List Effect) (c : Core) (view : ℕ) (set : ValidatorSet) : Prop where
  view_eq : view = c.view
  set_eq : set = c.epochs.validatorSetForView view
  steady : ¬ EpochOutputLost log → c.Steady

/-- The claim that each signer of a certificate makes. -/
inductive Certificate.Attests : Certificate → Claim → Prop where
  | prepare (qc : QuorumCertificate) : Attests (.prepare qc) (.first qc.view qc.blockHash)
  | commit (qc : QuorumCertificate) (changesHash : B256) :
      Attests (.commit qc changesHash) (.second qc.view qc.blockHash)
  | anyFirst (qc : QuorumCertificate) (changesHash : B256) :
      Attests (.anyDomain qc changesHash) (.first qc.view qc.blockHash)
  | anySecond (qc : QuorumCertificate) (changesHash : B256) :
      Attests (.anyDomain qc changesHash) (.second qc.view qc.blockHash)
  | timeout (tc : TimeoutCertificate) : Attests (.timeout tc) (.timeout tc.view)

def Certificate.CarriedBy (cert : Certificate) (m : ConsensusMessage) : Prop :=
  match cert with
  | .timeout tc => tc ∈ m.tcs
  | .prepare qc => qc ∈ m.qcs
  | .commit qc _ => qc ∈ m.qcs
  | .anyDomain qc _ => qc ∈ m.qcs

def Counted (index : ℕ) (claim : Claim) : Prop :=
  ∃ item : Item, item.claim = claim ∧
    ((∃ set, .share set index item ∈ log) ∨ .ownShare index item ∈ log)

/-- A certificate built by this engine: a quorum of counted signatures. -/
structure Formed (log : List Effect) (cert : Certificate) (used : ValidatorSet) : Prop where
  quorum : used.IsQuorum cert.signers
  counted : ∃ claim, cert.Attests claim ∧
    ∀ index, cert.signers[index]? = some true → Counted log index claim

variable (p : ConsensusSigningProfile) (log : List Effect)

/-- A certificate that came in a message and verified. -/
def Received (cert : Certificate) (used : ValidatorSet) : Prop :=
  (∃ m, Delivered log m ∧ cert.CarriedBy m) ∧ cert.verify used p = .ok ()

/-- The message that is being processed right now. -/
def Input.subject : Input → Option ConsensusMessage
  | .message m => some m
  | .authenticated m _ => some m
  | _ => none

/-- The certificate is that of a `PrepareQC` or `NewView` of a later view just received,
the two places where the engine asks the lookup that falls back to the current set. -/
def FallbackChecked (view : ℕ) (cert : Certificate) : Prop :=
  ∃ i, log.head? = some (.deliver i) ∧
    ((∃ pqc, i.subject = some (.prepareQc pqc) ∧ view < pqc.view ∧ cert = .prepare pqc.qc) ∨
      ∃ nv, i.subject = some (.newView nv) ∧ view < nv.view ∧ cert = .timeout nv.timeoutCert)

/-- The index at which the node finds itself, if there are no epochs. -/
def IsOwnIndex (c : Core) (index : ℕ) : Prop :=
  c.epochs.epochLength = 0 →
    c.epochs.currentSet.indexOfPublicKey (Crypto.publicKey cfg.secretKey) = some index

/-- A single signature is backed: it came in a message and verifies, or it is this
engine's own timeout. -/
def Backed (set : ValidatorSet) (index : ℕ) (item : Item) : Prop :=
  (∃ m sig pk, Delivered log m ∧ m.signature? = some sig ∧ set.keyAt index = some pk ∧
    cfg.signingProfile.verifySingle pk (item.message cfg.signingProfile) sig = true) ∨
  ∃ view, item = .timeout view ∧ .release item ∈ log ∧ IsOwnIndex cfg (coreOf cfg log) index

def Input.ofImport (blockHash : B256) : Option B256 → Input
  | none => .blockImported blockHash
  | some parent => .blockImportedWithParent blockHash parent

/-- The block was imported and, as far as the report tells, extends its justify block. -/
def ExtendsJustify (blockHash : B256) (justify : QuorumCertificate) : Prop :=
  ∃ parent, .deliver (.ofImport blockHash parent) ∈ log ∧
    (justify.blockHash = 0 ∨ parent = none ∨ parent = some 0 ∨ parent = some justify.blockHash)

/-- Why the engine may enter a view: a certificate of the view before it or of a later
one, or reports of more than `f` validators that they are timing out in it. -/
def EntryCause (view : ℕ) : Prop :=
  (∃ qc, Certified log qc ∧ view ≤ qc.view + 1) ∨
  (∃ tc used known, .accept (.timeout tc) used known ∈ log ∧ view ≤ tc.view + 1) ∨
  ∃ (set : ValidatorSet) (reporters : List ℕ), reporters.Nodup ∧
    set.faultTolerance < reporters.length ∧
    (∃ index, .share set index (.timeout view) ∈ log) ∧
    ∀ index ∈ reporters, ∃ s, .share s index (.timeout view) ∈ log

/-- Two authenticated values of one validator that conflict. -/
inductive Conflict (p : ConsensusSigningProfile) : Item → Item → Prop where
  | vote {view : ℕ} {a b : B256} (h : a ≠ b) : Conflict p (.vote view a) (.vote view b)
  | commitVote {view : ℕ} {a b : B256} (ca cb : B256) (h : a ≠ b) :
      Conflict p (.commitVote view a ca) (.commitVote view b cb)
  | proposal {view : ℕ} {a b : B256} {ca cb : Option (List ValidatorChange)}
      (h : p.proposalMessage view a ca ≠ p.proposalMessage view b cb) :
      Conflict p (.proposal view a ca) (.proposal view b cb)

/-- What a token for an authenticated message rests on. -/
def TokenBasis : ConsensusMessage → AuthenticatedVoteProof → Prop
  | .vote v, .vote signer =>
    signer = v.voter ∧ ∃ set, .share set v.voter (.vote v.view v.blockHash) ∈ sinceBoot log
  | .commitVote cv, .commitVote signer changesHash =>
    signer = cv.voter ∧
      ∃ set, .share set cv.voter (.commitVote cv.view cv.blockHash changesHash) ∈ sinceBoot log
  | _, _ => False

/-- When the engine may release a signature. -/
def ReleaseRule (c : Core) : Item → Prop
  | .vote view blockHash =>
    log.head? = some (.persistVote view .done) ∧ view = c.view ∧
      ∃ justify own, .approve view blockHash justify own ∈ sinceBoot log ∧
        (own = false → p.isGov5 → ExtendsJustify log blockHash justify)
  | .proposal view blockHash _ =>
    view = c.view ∧ (log.head? = some (.release (.vote view blockHash)) ∨
      ∃ index, log.head? = some (.ownShare index (.vote view blockHash)))
  | .commitVote view blockHash _ =>
    log.head? = some (.persistCommitVote view .done) ∧ view = c.view ∧ view ≤ c.locked.view ∧
      ∃ qc used known, .accept (.prepare qc) used known ∈ log ∧ qc.view = view ∧
        qc.blockHash = blockHash
  | .timeout view => view = c.view
  | .newView view => view ≤ u64Max

def EmitRule (c : Core) : EngineOutput → Prop
  | .sendToValidator _ (.vote v) => log.head? = some (.release (.vote v.view v.blockHash))
  | .sendToValidator _ (.commitVote cv) =>
    ∃ changesHash, log.head? = some (.release (.commitVote cv.view cv.blockHash changesHash))
  | .broadcastMessage (.proposal prop) =>
    log.head? = some (.release (.proposal prop.view prop.blockHash prop.validatorChanges))
  | .blockCommitted view blockHash qc _ =>
    qc.view = view ∧ qc.blockHash = blockHash ∧
      ∃ changesHash used known, .accept (.commit qc changesHash) used known ∈ log
  | .equivocationDetected view validator _ _ =>
    ∃ s s' a b, .share s validator a ∈ sinceBoot log ∧ .share s' validator b ∈ sinceBoot log ∧
      a.view = view ∧ b.view = view ∧ view = c.view ∧ Conflict p a b ∧
      (¬ EpochOutputLost log → c.Steady)
  | _ => True

def Rule : Effect → Prop
  | .deliver i => i.Admissible log
  | .share set index item =>
    Backed cfg log set index item ∧ item.view ≤ u64Max ∧
      (IsCurrentSet log (coreOf cfg log) item.view set ∨
        ((∃ view, item = .timeout view) ∧
          (coreOf cfg log).epochs.knownValidatorSetForView item.view = some set))
  | .ownShare index item =>
    log.head? = some (.release item) ∧ IsOwnIndex cfg (coreOf cfg log) index
  | .token m proof => Delivered log m ∧ TokenBasis log m proof
  | .accept cert used known =>
    known = (coreOf cfg log).epochs.knownValidatorSetForView cert.view ∧
      (Received cfg.signingProfile log cert used ∨ Formed log cert used) ∧
      (known = some used ∨ IsCurrentSet log (coreOf cfg log) cert.view used ∨
        (used = (coreOf cfg log).epochs.validatorSetForView cert.view ∧
          FallbackChecked log (coreOf cfg log).view cert))
  | .approve view blockHash justify own =>
    view = (coreOf cfg log).view ∧
      match own with
      | true => (∃ txRoot, log.head? = some (.deliver (.blockReady blockHash txRoot))) ∧
          justify = (coreOf cfg log).locked
      | false => (coreOf cfg log).locked.view ≤ justify.view ∧
          Trusted log justify ∧
          ∃ p, Delivered log (.proposal p) ∧ p.view = view ∧ p.blockHash = blockHash ∧
            p.justifyQc = justify
  | .persistVote view _ => (coreOf cfg log).votedView < view ∧ view = (coreOf cfg log).view
  | .persistLock qc _ => qc = (coreOf cfg log).locked
  | .persistCommitVote view _ =>
    (coreOf cfg log).commitVotedView < view ∧ view = (coreOf cfg log).view ∧
      log.head? = some (.persistLock (coreOf cfg log).locked .done)
  | .release item => ReleaseRule cfg.signingProfile log (coreOf cfg log) item
  | .lock qc => (coreOf cfg log).locked.view < qc.view ∧ Certified log qc
  | .commit qc => ∃ changesHash used known, .accept (.commit qc changesHash) used known ∈ log
  | .enter view =>
    (coreOf cfg log).view < view ∧ view ≤ u64Max ∧ EntryCause log view
  | .epoch .advance =>
    0 < (coreOf cfg log).epochs.epochLength ∧ (coreOf cfg log).epochs.hasStagedNext
  | .epoch .carry =>
    0 < (coreOf cfg log).epochs.epochLength ∧ ¬ (coreOf cfg log).epochs.hasStagedNext
  | .epoch _ => True
  | .emit output _ => EmitRule cfg.signingProfile log (coreOf cfg log) output
  | .save snapshot =>
    ∃ e : Engine, e.core = coreOf cfg log ∧ snapshot = buildSnapshot e ∧
      snapshot.validate = .ok ()
  | .boot core => ∃ e, recover cfg (diskOf log) = some e ∧ core = e.core

/-- A log that the node of configuration `cfg` can have written. -/
def Valid : Prop := Lawful (Rule cfg) log

end N42
