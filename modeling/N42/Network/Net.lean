import N42.Audit.Watermarks
import N42.Audit.Node

/-!
A network of honest nodes and an adversary.

The adversary delivers what it likes, in any order and any number of times, and has every key that
is not an honest node's, but cannot forge. The log of a node is its projection of one history.
-/

namespace N42

open Lib

variable {ι : Type}

def ConsensusMessage.signatures (m : ConsensusMessage) : List BlsSignature :=
  m.signature?.toList ++ (m.qcs.map (·.aggregateSignature) ++ m.tcs.map (·.aggregateSignature))

section Projection

variable [DecidableEq ι]

def project (i : ι) (h : List (ι × Effect)) : List Effect :=
  h.filterMap fun x => if x.1 = i then some x.2 else none

theorem mem_project {i : ι} {h : List (ι × Effect)} {x : Effect} :
    x ∈ project i h ↔ (i, x) ∈ h := by
  simp only [project, List.mem_filterMap, Option.ite_none_right_eq_some, Option.some.injEq]
  constructor
  · rintro ⟨⟨j, y⟩, hmem, rfl, rfl⟩
    exact hmem
  · exact fun hmem => ⟨(i, x), hmem, rfl, rfl⟩

@[simp] theorem project_cons_self (i : ι) (x : Effect) (h : List (ι × Effect)) :
    project i ((i, x) :: h) = x :: project i h := by
  simp [project]

theorem project_cons_ne {i j : ι} (hij : j ≠ i) (x : Effect) (h : List (ι × Effect)) :
    project i ((j, x) :: h) = project i h := by
  simp [project, hij]

theorem project_append_self (i : ι) (new : List Effect) (h : List (ι × Effect)) :
    project i (new.map (i, ·) ++ h) = new ++ project i h := by
  induction new with
  | nil => rfl
  | cons x new ih => simp [ih]

theorem project_append_ne {i j : ι} (hij : j ≠ i) (new : List Effect) (h : List (ι × Effect)) :
    project i (new.map (j, ·) ++ h) = project i h := by
  induction new with
  | nil => rfl
  | cons x new ih => rw [List.map_cons, List.cons_append, project_cons_ne hij, ih]

theorem project_suffix {i : ι} {old h : List (ι × Effect)} (hs : old <:+ h) :
    project i old <:+ project i h := by
  obtain ⟨new, rfl⟩ := hs
  exact ⟨project i new, by simp [project]⟩

end Projection

variable [Crypto]

/-- The honest nodes: their configurations, with one signing profile and distinct keys.
`registered` holds for the keys whose owners proved to possess them; only about those
is anything assumed of aggregate signatures. -/
structure Deployment (ι : Type) where
  cfg : ι → NodeConfig
  profile : ConsensusSigningProfile
  profile_eq : ∀ i, (cfg i).signingProfile = profile
  key_injective : ∀ i j, Crypto.publicKey (cfg i).secretKey = Crypto.publicKey (cfg j).secretKey →
    i = j
  registered : BlsPublicKey → Prop

namespace Deployment

variable (d : Deployment ι)

def key (i : ι) : BlsPublicKey := Crypto.publicKey (d.cfg i).secretKey

def Signed (h : List (ι × Effect)) (i : ι) (message : Bytes) : Prop :=
  ∃ item : Item, (i, .release item) ∈ h ∧ item.message d.profile = message

/-- A signature that contains no forgery: where it verifies for the key of an honest node,
that node has signed. -/
structure Genuine (h : List (ι × Effect)) (signature : BlsSignature) : Prop where
  single : ∀ i message, d.profile.verifySingle (d.key i) message signature = true →
    d.Signed h i message
  aggregate : ∀ pks message, (∀ pk ∈ pks, d.registered pk) →
    d.profile.verifyAggregate message signature pks = true →
    ∀ i, d.key i ∈ pks → d.Signed h i message

def GenuineInput (h : List (ι × Effect)) (input : Input) : Prop :=
  ∀ m ∈ input.messages, ∀ signature ∈ m.signatures, d.Genuine h signature

variable {d} {h h' : List (ι × Effect)}

theorem Signed.mono {i : ι} {message : Bytes} (hs : d.Signed h i message) (hsub : h ⊆ h') :
    d.Signed h' i message := by
  obtain ⟨item, hmem, hmessage⟩ := hs
  exact ⟨item, hsub hmem, hmessage⟩

theorem Genuine.mono {signature : BlsSignature} (hg : d.Genuine h signature) (hsub : h ⊆ h') :
    d.Genuine h' signature where
  single i message hv := (hg.single i message hv).mono hsub
  aggregate pks message hreg hv i hi := (hg.aggregate pks message hreg hv i hi).mono hsub

theorem GenuineInput.mono {input : Input} (hg : d.GenuineInput h input) (hsub : h ⊆ h') :
    d.GenuineInput h' input :=
  fun m hm signature hs => (hg m hm signature hs).mono hsub

end Deployment

structure Net (ι : Type) where
  node : ι → Node
  history : List (ι × Effect)

def Net.down : Net ι := ⟨fun _ => .down, []⟩

variable [DecidableEq ι]

/-- One node takes a step, and what it was handed is free of forgeries. -/
inductive NetStep (d : Deployment ι) : Net ι → Net ι → Prop where
  | step {net : Net ι} (i : ι) {node : Node} {new : List Effect}
      (h : NodeStep (d.cfg i) (net.node i) node) (hnew : node.log = new ++ (net.node i).log)
      (genuine : ∀ input, .deliver input ∈ new → d.GenuineInput net.history input) :
      NetStep d net ⟨Function.update net.node i node, new.map (i, ·) ++ net.history⟩

def Net.Reachable (d : Deployment ι) (net : Net ι) : Prop :=
  Relation.ReflTransGen (NetStep d) .down net

/-- What the nodes may add to a history. -/
def NetRule (d : Deployment ι) (h : List (ι × Effect)) (x : ι × Effect) : Prop :=
  Rule (d.cfg x.1) (project x.1 h) x.2 ∧ ∀ input, x.2 = .deliver input → d.GenuineInput h input

variable {d : Deployment ι} {h : List (ι × Effect)}

theorem valid_project (hl : Lawful (NetRule d) h) (i : ι) : Valid (d.cfg i) (project i h) := by
  induction hl with
  | nil => exact .nil
  | @cons h x tail allowed ih =>
    obtain ⟨j, x⟩ := x
    by_cases hij : j = i
    · subst hij
      rw [project_cons_self]
      exact .cons ih allowed.1
    · rw [project_cons_ne hij]
      exact ih

/-- A valid continuation of one node's log is a lawful continuation of the history. -/
theorem lawful_append {i : ι} {new : List Effect} (hl : Lawful (NetRule d) h)
    (hv : Valid (d.cfg i) (new ++ project i h))
    (genuine : ∀ input, .deliver input ∈ new → d.GenuineInput h input) :
    Lawful (NetRule d) (new.map (i, ·) ++ h) := by
  induction new with
  | nil => exact hl
  | cons x new ih =>
    refine .cons (ih hv.tail_of_cons fun input hmem => genuine input (.tail _ hmem)) ⟨?_, ?_⟩
    · show Rule (d.cfg i) (project i (new.map (i, ·) ++ h)) x
      rw [project_append_self]
      exact hv.rule_of_cons
    · rintro input rfl
      exact (genuine input List.mem_cons_self).mono (List.subset_append_right _ _)

structure NetInv (d : Deployment ι) (net : Net ι) : Prop where
  lawful : Lawful (NetRule d) net.history
  nodes : ∀ i, (net.node i).Reachable (d.cfg i)
  log_eq : ∀ i, (net.node i).log = project i net.history

theorem NetStep.keeps {net net' : Net ι} (hstep : NetStep d net net') (hnet : NetInv d net) :
    NetInv d net' := by
  cases hstep with
  | @step i node new hnode hnew genuine =>
    have hreach : node.Reachable (d.cfg i) := (hnet.nodes i).tail hnode
    have hlog : node.log = new ++ project i net.history := by rw [hnew, hnet.log_eq]
    refine ⟨lawful_append hnet.lawful (hlog ▸ hreach.inv.valid) genuine, fun j => ?_, fun j => ?_⟩
    · by_cases hj : j = i
      · subst hj
        simpa using hreach
      · simpa [hj] using hnet.nodes j
    · by_cases hj : j = i
      · subst hj
        simpa [project_append_self] using hlog
      · simpa [hj, project_append_ne (Ne.symm hj)] using hnet.log_eq j

theorem Net.Reachable.inv {net : Net ι} (hnet : net.Reachable d) : NetInv d net := by
  induction hnet with
  | refl => exact ⟨.nil, fun _ => .refl, fun _ => rfl⟩
  | tail _ hstep ih => exact hstep.keeps ih

end N42
