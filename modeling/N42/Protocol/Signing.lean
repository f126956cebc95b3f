import N42.Primitives.Types

/-!
The byte strings that consensus signatures cover, for the three signing profiles.

`Item.message_injective`: the bytes determine the view and the block, up to the overlap of proposal
and vote that the gov5 legacy profile has by design.
-/

namespace N42

open Lib

structure H2V4ChainIdentity where
  chainId : ℕ
  genesisHash : B256
deriving DecidableEq

inductive H2V4Phase where
  | proposal
  | vote
  | commit
  | timeout
  | newView

def H2V4Phase.toByte : H2V4Phase → UInt8
  | .proposal => 1
  | .vote => 2
  | .commit => 3
  | .timeout => 4
  | .newView => 5

/-- `"N42H2V4" || phase || chain_id || genesis_hash || view`, 56 bytes. -/
def h2V4Base (identity : H2V4ChainIdentity) (phase : H2V4Phase) (view : ℕ) : Bytes :=
  [0x4e, 0x34, 0x32, 0x48, 0x32, 0x56, 0x34] ++ (phase.toByte :: (leBytes 8 identity.chainId ++
    (B256.toBytes identity.genesisHash ++ leBytes 8 view)))

def h2V4ProposalSigningMessage (identity : H2V4ChainIdentity) (view : ℕ)
    (blockHash changesHash : B256) : Bytes :=
  h2V4Base identity .proposal view ++ (B256.toBytes blockHash ++ B256.toBytes changesHash)

def h2V4VoteSigningMessage (identity : H2V4ChainIdentity) (view : ℕ) (blockHash : B256) : Bytes :=
  h2V4Base identity .vote view ++ B256.toBytes blockHash

def h2V4CommitSigningMessage (identity : H2V4ChainIdentity) (view : ℕ)
    (blockHash changesHash : B256) : Bytes :=
  h2V4Base identity .commit view ++ (B256.toBytes blockHash ++ B256.toBytes changesHash)

def h2V4TimeoutSigningMessage (identity : H2V4ChainIdentity) (view : ℕ) : Bytes :=
  h2V4Base identity .timeout view

def h2V4NewViewSigningMessage (identity : H2V4ChainIdentity) (view : ℕ) : Bytes :=
  h2V4Base identity .newView view

/-- `validator_changes_hash`, which is also `EpochManager::hash_changes`: the hash of
a non-empty change list and zero otherwise. -/
def hashChanges [Crypto] (changes : List ValidatorChange) : B256 :=
  if changes.isEmpty then 0 else Crypto.blake3 (Crypto.serializeChanges changes)

def validatorChangesHash [Crypto] : Option (List ValidatorChange) → B256
  | some changes => hashChanges changes
  | none => 0

def signingMessage (view : ℕ) (blockHash : B256) : Bytes :=
  leBytes 8 view ++ B256.toBytes blockHash

def proposalSigningMessage [Crypto] (view : ℕ) (blockHash : B256)
    (changes : Option (List ValidatorChange)) : Bytes :=
  leBytes 8 view ++ (B256.toBytes blockHash ++ B256.toBytes (validatorChangesHash changes))

def commitSigningMessage (view : ℕ) (blockHash changesHash : B256) : Bytes :=
  [0x63, 0x6f, 0x6d, 0x6d, 0x69, 0x74] ++ (leBytes 8 view ++
    (B256.toBytes blockHash ++ B256.toBytes changesHash))

def timeoutSigningMessage (view : ℕ) : Bytes :=
  [0x74, 0x69, 0x6d, 0x65, 0x6f, 0x75, 0x74] ++ leBytes 8 view

def newviewSigningMessage (view : ℕ) : Bytes :=
  [0x6e, 0x65, 0x77, 0x76, 0x69, 0x65, 0x77] ++ leBytes 8 view

def gov5LegacySigningMessage (view : ℕ) (blockHash : B256) : Bytes :=
  signingMessage view blockHash

def gov5LegacyCommitSigningMessage (view : ℕ) (blockHash : B256) : Bytes :=
  [0x63, 0x6f, 0x6d, 0x6d, 0x69, 0x74] ++ (leBytes 8 view ++ B256.toBytes blockHash)

inductive ConsensusSigningProfile where
  | native
  | h2V4 (identity : H2V4ChainIdentity)
  | gov5Legacy
deriving DecidableEq

namespace ConsensusSigningProfile

def isGov5 : ConsensusSigningProfile → Bool
  | .native => false
  | .h2V4 _ => true
  | .gov5Legacy => true

def ciphersuite : ConsensusSigningProfile → Ciphersuite
  | .native => .native
  | .h2V4 _ => .h2V4
  | .gov5Legacy => .h2V4

def proposalMessage [Crypto] (p : ConsensusSigningProfile) (view : ℕ) (blockHash : B256)
    (changes : Option (List ValidatorChange)) : Bytes :=
  match p with
  | .native => proposalSigningMessage view blockHash changes
  | .h2V4 identity => h2V4ProposalSigningMessage identity view blockHash 0
  | .gov5Legacy => gov5LegacySigningMessage view blockHash

variable (p : ConsensusSigningProfile) (view : ℕ)

def voteMessage (blockHash : B256) : Bytes :=
  match p with
  | .native => signingMessage view blockHash
  | .h2V4 identity => h2V4VoteSigningMessage identity view blockHash
  | .gov5Legacy => gov5LegacySigningMessage view blockHash

def commitMessage (blockHash changesHash : B256) : Bytes :=
  match p with
  | .native => commitSigningMessage view blockHash changesHash
  | .h2V4 identity => h2V4CommitSigningMessage identity view blockHash 0
  | .gov5Legacy => gov5LegacyCommitSigningMessage view blockHash

def timeoutMessage : Bytes :=
  match p with
  | .native => timeoutSigningMessage view
  | .h2V4 identity => h2V4TimeoutSigningMessage identity view
  | .gov5Legacy => timeoutSigningMessage view

def newViewMessage : Bytes :=
  match p with
  | .native => newviewSigningMessage view
  | .h2V4 identity => h2V4NewViewSigningMessage identity view
  | .gov5Legacy => newviewSigningMessage view

def sign [Crypto] (p : ConsensusSigningProfile) (sk : BlsSecretKey) (message : Bytes) :
    BlsSignature :=
  Crypto.sign p.ciphersuite sk message

def verifySingle [Crypto] (p : ConsensusSigningProfile) (pk : BlsPublicKey) (message : Bytes)
    (signature : BlsSignature) : Bool :=
  Crypto.verify p.ciphersuite pk message signature

def verifyAggregate [Crypto] (p : ConsensusSigningProfile) (message : Bytes)
    (signature : BlsSignature) (pks : List BlsPublicKey) : Bool :=
  Crypto.fastAggregateVerify p.ciphersuite pks message signature

end ConsensusSigningProfile

/-- What a consensus signature of a validator stands for. -/
inductive Item where
  | proposal (view : ℕ) (blockHash : B256) (changes : Option (List ValidatorChange))
  | vote (view : ℕ) (blockHash : B256)
  | commitVote (view : ℕ) (blockHash changesHash : B256)
  | timeout (view : ℕ)
  | newView (view : ℕ)
deriving DecidableEq

namespace Item

def view : Item → ℕ
  | .proposal v _ _ => v
  | .vote v _ => v
  | .commitVote v _ _ => v
  | .timeout v => v
  | .newView v => v

def message [Crypto] (p : ConsensusSigningProfile) : Item → Bytes
  | .proposal v b changes => p.proposalMessage v b changes
  | .vote v b => p.voteMessage v b
  | .commitVote v b ch => p.commitMessage v b ch
  | .timeout v => p.timeoutMessage v
  | .newView v => p.newViewMessage v

end Item

/-- What the bytes of an item commit to, whatever the profile: the voting round, the
view and the block. A proposal counts as its proposer's first-round claim. -/
inductive Claim where
  | first (view : ℕ) (blockHash : B256)
  | second (view : ℕ) (blockHash : B256)
  | timeout (view : ℕ)
  | newView (view : ℕ)
deriving DecidableEq

def Item.claim : Item → Claim
  | .proposal v b _ => .first v b
  | .vote v b => .first v b
  | .commitVote v b _ => .second v b
  | .timeout v => .timeout v
  | .newView v => .newView v

theorem Item.of_claim_first {item : Item} {v : ℕ} {b : B256} (h : item.claim = .first v b) :
    item = .vote v b ∨ ∃ changes, item = .proposal v b changes := by
  cases item <;> cases h
  · exact .inr ⟨_, rfl⟩
  · exact .inl rfl

theorem Item.of_claim_second {item : Item} {v : ℕ} {b : B256} (h : item.claim = .second v b) :
    ∃ changesHash, item = .commitVote v b changesHash := by
  cases item <;> cases h
  exact ⟨_, rfl⟩

theorem leBytes_view_injective {v w : ℕ} (hv : v ≤ u64Max) (hw : w ≤ u64Max)
    (h : leBytes 8 v = leBytes 8 w) : v = w := by
  have hmax : u64Max < 256 ^ 8 := by decide
  exact leBytes_injective (by omega) (by omega) h

theorem leBytes_append_inj (n x y : ℕ) (r r' : Bytes) :
    leBytes n x ++ r = leBytes n y ++ r' ↔ leBytes n x = leBytes n y ∧ r = r' :=
  ⟨fun h => List.append_inj h (by simp), fun h => by rw [h.1, h.2]⟩

theorem B256.toBytes_append_inj (a b : B256) (r r' : Bytes) :
    B256.toBytes a ++ r = B256.toBytes b ++ r' ↔ a = b ∧ r = r' := by
  constructor
  · intro h
    obtain ⟨hab, hr⟩ := List.append_inj h (by simp)
    exact ⟨B256.toBytes_injective hab, hr⟩
  · rintro ⟨rfl, rfl⟩
    rfl

theorem B256.toBytes_inj (a b : B256) : B256.toBytes a = B256.toBytes b ↔ a = b :=
  ⟨B256.toBytes_injective, congrArg _⟩

section Separation

variable [Crypto] {p : ConsensusSigningProfile}

/-- The length of a signed message tells the rounds apart, except where a tag does. -/
theorem Item.message_length (it : Item) :
    (it.message p).length =
      match p, it with
      | .native, .proposal .. => 72
      | .native, .vote .. => 40
      | .native, .commitVote .. => 78
      | .h2V4 _, .proposal .. => 120
      | .h2V4 _, .vote .. => 88
      | .h2V4 _, .commitVote .. => 120
      | .h2V4 _, _ => 56
      | .gov5Legacy, .proposal .. => 40
      | .gov5Legacy, .vote .. => 40
      | .gov5Legacy, .commitVote .. => 46
      | _, _ => 15 := by
  cases p <;> cases it <;>
    simp [message, ConsensusSigningProfile.proposalMessage, ConsensusSigningProfile.voteMessage,
      ConsensusSigningProfile.commitMessage, ConsensusSigningProfile.timeoutMessage,
      ConsensusSigningProfile.newViewMessage, proposalSigningMessage, signingMessage,
      commitSigningMessage, timeoutSigningMessage, newviewSigningMessage,
      gov5LegacySigningMessage, gov5LegacyCommitSigningMessage, h2V4ProposalSigningMessage,
      h2V4VoteSigningMessage, h2V4CommitSigningMessage, h2V4TimeoutSigningMessage,
      h2V4NewViewSigningMessage, h2V4Base]

/-- Equal signed bytes make equal claims: no signature of one round, view or block can
be presented as one of another. -/
theorem Item.message_injective {a b : Item} (ha : a.view ≤ u64Max) (hb : b.view ≤ u64Max)
    (h : a.message p = b.message p) : a.claim = b.claim := by
  have hlen := congrArg List.length h
  rw [message_length, message_length] at hlen
  have hview : leBytes 8 a.view = leBytes 8 b.view → a.view = b.view :=
    leBytes_view_injective ha hb
  -- the lengths rule out most pairs; the tags and the fixed offsets settle the others
  cases p <;> cases a <;> cases b <;> simp at hlen <;>
    simp_all [message, claim, view, ConsensusSigningProfile.proposalMessage,
      ConsensusSigningProfile.voteMessage, ConsensusSigningProfile.commitMessage,
      ConsensusSigningProfile.timeoutMessage, ConsensusSigningProfile.newViewMessage,
      proposalSigningMessage, signingMessage, commitSigningMessage, timeoutSigningMessage,
      newviewSigningMessage, gov5LegacySigningMessage, gov5LegacyCommitSigningMessage,
      h2V4ProposalSigningMessage, h2V4VoteSigningMessage, h2V4CommitSigningMessage,
      h2V4TimeoutSigningMessage, h2V4NewViewSigningMessage, h2V4Base, H2V4Phase.toByte,
      leBytes_append_inj, B256.toBytes_append_inj, B256.toBytes_inj]

end Separation

end N42
