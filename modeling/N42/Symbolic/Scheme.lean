import N42.Audit.Node

/-!
A symbolic signature scheme, and scripts that drive a node under it. A signature spells out its
signers and its message, so that a run with concrete keys can be evaluated.
-/

namespace N42

open Lib List

namespace Symbolic

def suiteByte : Ciphersuite → UInt8
  | .native => 0
  | .h2V4 => 1

/-- A signature under `suite` by the owners of the key bytes `signers`. -/
def encode (suite : UInt8) (signers message : Bytes) : BlsSignature :=
  ⟨suite :: UInt8.ofNat signers.length :: (signers ++ message)⟩

def decode (signature : BlsSignature) : Option (UInt8 × Bytes × Bytes) :=
  match signature.toBytes with
  | suite :: count :: rest => some (suite, rest.take count.toNat, rest.drop count.toNat)
  | _ => none

/-- The common suite and message of some signatures, with all their signers. -/
def merge : List BlsSignature → Option (UInt8 × Bytes × Bytes)
  | [] => none
  | [signature] => decode signature
  | signature :: rest => do
    let (suite, signers, message) ← decode signature
    let (suite', signers', message') ← merge rest
    if suite = suite' ∧ message = message' then some (suite, signers ++ signers', message) else none

/-- Keys sign for themselves, the hash is polynomial, and every peer id is canonical. -/
scoped instance scheme : Crypto where
  -- generated keys lie apart from the small one-byte keys used below
  keyGen seed := ⟨seed.map (0x80 ||| ·)⟩
  publicKey sk := ⟨sk.scalar⟩
  sign suite sk message := encode (suiteByte suite) sk.scalar message
  verify suite pk message signature := signature = encode (suiteByte suite) pk.toBytes message
  validate _ := true
  aggregate signatures := (merge signatures).map fun r => encode r.1 r.2.1 r.2.2
  fastAggregateVerify suite pks message signature :=
    match decode signature with
    | none => false
    | some (suite', signers, message') =>
      suite' = suiteByte suite ∧ message' = message ∧ signers.isPerm (pks.flatMap (·.toBytes))
  blake3 bytes := bytes.foldl (fun h b => h * 257 + BitVec.ofNat 256 b.toNat + 1) 0
  serializeChanges changes := changes.flatMap fun
    | .add address pk _ => 1 :: (beBytes 20 address.toNat ++ pk.toBytes)
    | .remove address => 2 :: beBytes 20 address.toNat
  parsePeerId := some

theorem decode_encode {suite : UInt8} {signers message : Bytes} (h : signers.length < 256) :
    decode (encode suite signers message) = some (suite, signers, message) := by
  have hlen : (UInt8.ofNat signers.length).toNat = signers.length := by
    simpa using Nat.mod_eq_of_lt h
  simp [decode, encode, hlen]

/-- A signature that verifies for some keys names every one of them. -/
theorem decode_of_fastAggregateVerify {suite : Ciphersuite} {pks : List BlsPublicKey}
    {message : Bytes} {signature : BlsSignature}
    (h : Crypto.fastAggregateVerify suite pks message signature = true) :
    ∃ signers, decode signature = some (suiteByte suite, signers, message) ∧
      ∀ pk ∈ pks, pk.toBytes ⊆ signers := by
  simp only [Crypto.fastAggregateVerify] at h
  split at h
  · cases h
  · next suite' signers message' hdecode =>
    obtain ⟨rfl, rfl, hperm⟩ := of_decide_eq_true h
    refine ⟨signers, hdecode, fun pk hpk b hb => ?_⟩
    rw [(isPerm_iff.mp hperm).mem_iff]
    exact mem_flatMap.mpr ⟨pk, hpk, hb⟩

def validator (k : ℕ) : ValidatorInfo where
  address := BitVec.ofNat 160 k
  blsPublicKey := ⟨[UInt8.ofNat k]⟩
  p2pPeerId := none

def secret (k : ℕ) : BlsSecretKey := ⟨[UInt8.ofNat k]⟩

end Symbolic

variable (log : List Effect)

def releasedItems : List Item :=
  log.filterMap fun
    | .release item => some item
    | _ => none

theorem mem_releasedItems {log : List Effect} {item : Item} :
    item ∈ releasedItems log ↔ .release item ∈ log := by
  simp only [releasedItems, mem_filterMap]
  constructor
  · rintro ⟨x, hx, hitem⟩
    cases x with
    | release item' =>
      obtain rfl := Option.some.inj hitem
      exact hx
    | _ => cases hitem
  · exact fun h => ⟨_, h, rfl⟩

def announcedBlocks : List (ℕ × B256) :=
  log.filterMap fun
    | .emit (.blockCommitted view blockHash _ _) true => some (view, blockHash)
    | _ => none

theorem mem_announcedBlocks {log : List Effect} {view : ℕ} {blockHash : B256}
    (h : (view, blockHash) ∈ announcedBlocks log) :
    ∃ qc changes, .emit (.blockCommitted view blockHash qc changes) true ∈ log := by
  obtain ⟨x, hx, hsome⟩ := mem_filterMap.mp h
  split at hsome
  · obtain ⟨rfl, rfl⟩ := Prod.mk.inj (Option.some.inj hsome)
    exact ⟨_, _, hx⟩
  · cases hsome

def enteredViews : List ℕ :=
  log.filterMap fun
    | .enter view => some view
    | _ => none

theorem mem_enteredViews {log : List Effect} {view : ℕ} (h : view ∈ enteredViews log) :
    .enter view ∈ log := by
  obtain ⟨x, hx, hsome⟩ := mem_filterMap.mp h
  split at hsome
  · obtain rfl := Option.some.inj hsome
    exact hx
  · cases hsome

instance : Decidable (EpochOutputLost log) :=
  decidable_of_iff (log.any fun
      | .emit (.epochTransition _ _) false => true
      | _ => false) <| by
    rw [any_eq_true]
    constructor
    · rintro ⟨x, hx, hlost⟩
      split at hlost
      · exact ⟨_, _, hx⟩
      · cases hlost
    · rintro ⟨newEpoch, count, hx⟩
      exact ⟨_, hx, rfl⟩

section Scripts

variable [Crypto]

/-- A step of a node that a script can ask for. -/
inductive Command where
  | boot
  | handle (env : Env) (input : Input)
  | crash
  | save

def allDone : Env := ⟨fun _ => .done, id⟩

instance (m : ConsensusMessage) : Decidable m.Wire :=
  inferInstanceAs (Decidable (_ ∧ _ ∧ _))

/-- Whether a script may hand an input to a node: tokens are left out. -/
def Input.scriptable : Input → Bool
  | .authenticated _ _ => false
  | input => input.messages.all fun m => m.Wire

omit [Crypto] in
theorem Input.admissible_of_scriptable {input : Input} {log : List Effect}
    (h : input.scriptable = true) : input.Admissible log := by
  cases input with
  | authenticated m proof => cases h
  | _ =>
    refine ⟨fun m hm => ?_, by simp⟩
    exact of_decide_eq_true (all_eq_true.mp h m hm)

def Node.exec (cfg : NodeConfig) (node : Node) : Command → Option Node
  | .boot =>
    match node.engine with
    | some _ => none
    | none => (recover cfg (diskOf node.log)).map fun e => ⟨some e, .boot e.core :: node.log⟩
  | .handle env input =>
    match node.engine with
    | none => none
    | some e =>
      if input.scriptable then
        let w := runInput e node.log env input
        some ⟨some w.engine, w.log⟩
      else none
  | .crash =>
    match node.engine with
    | none => none
    | some _ => some ⟨none, node.log⟩
  | .save =>
    match node.engine with
    | none => none
    | some e =>
      if (buildSnapshot e).validate = .ok () then
        some ⟨some e, .save (buildSnapshot e) :: node.log⟩
      else none

def Node.run (cfg : NodeConfig) (node : Node) : List Command → Option Node
  | [] => some node
  | c :: commands => (node.exec cfg c).bind fun node => node.run cfg commands

variable {cfg : NodeConfig} {node node' : Node}

theorem Node.exec_step {c : Command} (hnode : NodeInv cfg node)
    (h : node.exec cfg c = some node') : NodeStep cfg node node' := by
  obtain ⟨engine, log⟩ := node
  cases c with
  | boot =>
    cases engine with
    | some e => cases h
    | none =>
      obtain ⟨e, hrec, rfl⟩ := Option.map_eq_some_iff.mp h
      exact .boot hrec
  | handle env input =>
    cases engine with
    | none => cases h
    | some e =>
      obtain ⟨hok, heq⟩ := Option.ite_none_right_eq_some.mp h
      obtain rfl := Option.some.inj heq
      exact .handle env input (Input.admissible_of_scriptable hok)
  | crash =>
    cases engine with
    | none => cases h
    | some e =>
      obtain rfl := Option.some.inj h
      have hadm : Input.timeout.Admissible log := Input.admissible_of_scriptable rfl
      -- the process dies before an event has any effect
      exact .crash allDone .timeout hadm (suffix_refl _)
        (runInput_inv (hnode.engine e rfl allDone) hadm).2.suffix
  | save =>
    cases engine with
    | none => cases h
    | some e =>
      obtain ⟨hok, heq⟩ := Option.ite_none_right_eq_some.mp h
      obtain rfl := Option.some.inj heq
      exact .save hok

theorem Node.run_reachable {commands : List Command} (hnode : node.Reachable cfg)
    (h : node.run cfg commands = some node') : node'.Reachable cfg := by
  induction commands generalizing node with
  | nil =>
    obtain rfl := Option.some.inj h
    exact hnode
  | cons c commands ih =>
    obtain ⟨next, hexec, hrest⟩ := Option.bind_eq_some_iff.mp h
    exact ih (hnode.tail (Node.exec_step hnode.inv hexec)) hrest

theorem Node.exists_of_run {commands : List Command} {P : Node → Engine → Bool}
    (h : (Node.run cfg .down commands).any (fun node => node.engine.any (P node)) = true) :
    ∃ node e, node.Reachable cfg ∧ node.engine = some e ∧ P node e = true := by
  obtain ⟨node, hnode, hengine⟩ := (Option.any_eq_true _ _).mp h
  obtain ⟨e, he, hcheck⟩ := (Option.any_eq_true _ _).mp hengine
  exact ⟨node, e, run_reachable .refl hnode, he, hcheck⟩

end Scripts

end N42
