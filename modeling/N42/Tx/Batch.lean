import N42.Tx.AltSig

/-!
The verdicts of a batch are those of the transactions one by one: merging the terms of equal keys
leaves the equation as it is, and every verdict goes back to the place of its transaction.
-/

namespace N42.Tx

open Lib List

section Equation

variable [Ed25519]

omit [Ed25519] in
theorem mapM_append_some {α : Type} (xs : List (Option α)) (ys : List α) :
    (xs ++ ys.map some).mapM id = (xs.mapM id).map (· ++ ys) := by
  induction xs with
  | nil =>
    induction ys with
    | nil => rfl
    | cons y ys ih =>
      simp only [nil_append] at ih ⊢
      simp [ih]
  | cons x xs ih =>
    cases x with
    | none => simp
    | some x =>
      simp only [cons_append, mapM_cons, id, ih]
      cases xs.mapM id <;> simp

omit [Ed25519] in
theorem length_of_mapM {α : Type} {xs : List (Option α)} {ys : List α}
    (h : xs.mapM id = some ys) : ys.length = xs.length := by
  induction xs generalizing ys with
  | nil =>
    obtain rfl : [] = ys := by simpa using h
    rfl
  | cons x xs ih =>
    simp only [mapM_cons, id, Option.bind_eq_bind, Option.bind_eq_some_iff,
      Option.pure_def, Option.some.injEq] at h
    obtain ⟨a, -, rest, hrest, rfl⟩ := h
    simp [ih hrest]

theorem equationSum_eq {signatures : List EdSignature} {sValues zs : List Ed25519.Scalar}
    (hzs : zs.length = signatures.length) {scalars scalars' : List Ed25519.Scalar}
    {points points' : List Ed25519.Point}
    (h : (List.zipWith (· • ·) scalars points).sum = (List.zipWith (· • ·) scalars' points').sum) :
    equationSum signatures sValues zs scalars points =
      equationSum signatures sValues zs scalars' points' := by
  have hsplit : ∀ (scalars : List Ed25519.Scalar) (points : List Ed25519.Point),
      equationSum signatures sValues zs scalars points =
        ((signatures.map fun signature => Ed25519.decompress signature.rBytes).mapM id).map
          fun rs => -(List.zipWith (fun s z => z * s) sValues zs).sum • Ed25519.basepoint +
            ((List.zipWith (· • ·) zs rs).sum + (List.zipWith (· • ·) scalars points).sum) := by
    intro scalars points
    unfold equationSum optionalMultiscalarMul
    rw [mapM_cons, mapM_append_some]
    cases hrs : (signatures.map fun signature => Ed25519.decompress signature.rBytes).mapM id with
    | none => simp
    | some rs =>
      have hlength : zs.length = rs.length := by
        rw [length_of_mapM hrs, length_map, hzs]
      simp [zipWith_append hlength]
  rw [hsplit, hsplit, h]

def pointOf (bytes : Bytes) : Ed25519.Point := (Ed25519.decompress bytes).getD 0

theorem VerifyingKey.pointOf_asBytes (key : VerifyingKey) : pointOf key.asBytes = key.point := by
  rw [pointOf, key.decompressed]
  rfl

variable (keys : List VerifyingKey) (hrams : List Bytes) (zs : List Ed25519.Scalar)

theorem total_mergeKeys : (mergeKeys keys hrams zs).total =
      (((keys.zip hrams).zip zs).map fun e => keyTerm e.1.2 e.2 • e.1.1.point).sum := by
  have hfold := @MergedSum.Sound.foldl Bytes Ed25519.Point Ed25519.Scalar _ _ _ _ _ pointOf
    (fun e : (VerifyingKey × Bytes) × Ed25519.Scalar => e.1.1.asBytes)
    (fun e => keyTerm e.1.2 e.2) ((keys.zip hrams).zip zs) _ (MergedSum.Sound.empty pointOf)
  simp only [VerifyingKey.pointOf_asBytes] at hfold
  rw [mergeKeys, hfold]
  simp [MergedSum.total, MergedSum.empty]

theorem sum_zip_eq : (((keys.zip hrams).zip zs).map fun e => keyTerm e.1.2 e.2 • e.1.1.point).sum =
      (List.zipWith (· • ·) (List.zipWith keyTerm hrams zs) (keys.map (·.point))).sum := by
  induction keys generalizing hrams zs with
  | nil => simp
  | cons key keys ih =>
    cases hrams with
    | nil => simp
    | cons hram hrams =>
      cases zs with
      | nil => simp
      | cons z zs => simp [ih]

theorem batchHolds_eq (merge : Bool) (messages : List Bytes) (signatures : List EdSignature)
    (keys : List VerifyingKey) :
    batchHolds merge messages signatures keys = dalekVerifyBatch messages signatures keys := by
  cases merge with
  | false => rfl
  | true =>
    show batchEquationHolds messages signatures keys = _
    unfold batchEquationHolds dalekVerifyBatch
    split
    · rfl
    · simp only
      split
      · rfl
      · rw [equationSum_eq (by simp [coefficientsOf])]
        rw [← sum_zip_eq, ← total_mergeKeys]
        rfl

end Equation

section Collection

variable [Ed25519] [Keccak]

structure Candidate where
  key : VerifyingKey
  signature : EdSignature
  hash : B256
  place : ℕ

def Candidate.message (c : Candidate) : Bytes := B256.toBytes c.hash

def Candidate.passes (c : Candidate) : Bool := dalekVerifyBatch [c.message] [c.signature] [c.key]

def candidate (entry : AltSigTx × ℕ) : Option Candidate :=
  match entry.1.shape with
  | .error _ => none
  | .ok shape => some ⟨shape.1, shape.2, entry.1.tx.signingHash, entry.2⟩

def candidates (txs : List AltSigTx) : List Candidate := txs.zipIdx.filterMap candidate

def placeholder (t : AltSigTx) : Except AltSigError Address :=
  match t.shape with
  | .error err => .error err
  | .ok _ => .error .invalid

theorem foldl_push (entries : List (AltSigTx × ℕ)) (b : Batch) :
    entries.foldl Batch.push b =
      { out := b.out ++ entries.map fun e => placeholder e.1
        keys := b.keys ++ (entries.filterMap candidate).map (·.key)
        signatures := b.signatures ++ (entries.filterMap candidate).map (·.signature)
        hashes := b.hashes ++ (entries.filterMap candidate).map (·.hash)
        index := b.index ++ (entries.filterMap candidate).map (·.place) } := by
  induction entries generalizing b with
  | nil => simp
  | cons entry entries ih =>
    rw [foldl_cons, ih]
    cases hshape : entry.1.shape with
    | error err => simp [Batch.push, candidate, placeholder, hshape]
    | ok shape => simp [Batch.push, candidate, placeholder, hshape]

omit [Keccak] in
theorem map_placeholder_zipIdx (txs : List AltSigTx) :
    txs.zipIdx.map (fun e => placeholder e.1) = txs.map placeholder := by
  rw [← Function.comp_def, ← map_map, zipIdx_map_fst]

theorem mem_candidates {txs : List AltSigTx} {c : Candidate} :
    c ∈ candidates txs ↔ ∃ t, txs[c.place]? = some t ∧ t.shape = .ok (c.key, c.signature) ∧
      c.hash = t.tx.signingHash := by
  simp only [candidates, mem_filterMap, Prod.exists, mem_zipIdx_iff_getElem?]
  constructor
  · rintro ⟨t, i, hget, hc⟩
    unfold candidate at hc
    split at hc
    · cases hc
    case h_2 shape hshape =>
      obtain rfl := Option.some.inj hc
      exact ⟨t, hget, hshape, rfl⟩
  · rintro ⟨t, hget, hshape, hhash⟩
    refine ⟨t, c.place, hget, ?_⟩
    simp only [candidate, hshape, ← hhash]

theorem verify_eq (t : AltSigTx) : t.verify =
    match t.shape with
    | .error err => .error err
    | .ok shape =>
      if dalekVerifyBatch [B256.toBytes t.tx.signingHash] [shape.2] [shape.1] then .ok t.tx.sender
      else .error .invalid := by
  unfold AltSigTx.verify AltSigTx.shape
  cases t.tx.ed25519Key with
  | error err => rfl
  | ok key =>
    cases t.ed25519Signature with
    | error err => rfl
    | ok signature =>
      simp only [bind, Except.bind, pure, Except.pure, throw, throwThe, MonadExceptOf.throw]
      cases dalekVerifyBatch [B256.toBytes t.tx.signingHash] [signature] [key] <;> simp

omit [Ed25519] in
@[simp] theorem length_accept (txs : List AltSigTx) (out : List (Except AltSigError Address))
    (i : ℕ) : (accept txs out i).length = out.length := by
  unfold accept
  split <;> simp

variable {out : List (Except AltSigError Address)}

omit [Ed25519] in
theorem getElem?_accept {txs : List AltSigTx} {i j : ℕ} (hlength : out.length = txs.length) :
    (accept txs out i)[j]? =
      if i = j then txs[j]?.map fun t => .ok t.tx.sender else out[j]? := by
  unfold accept
  by_cases hij : i = j
  · subst hij
    rw [if_pos rfl]
    cases hget : txs[i]? with
    | none => exact getElem?_eq_none (hlength ▸ getElem?_eq_none_iff.mp hget)
    | some t =>
      have hlt := (List.getElem?_eq_some_iff.mp hget).1
      exact List.getElem?_set_self (hlength ▸ hlt)
  · rw [if_neg hij]
    cases txs[i]? with
    | none => rfl
    | some t => exact getElem?_set_ne hij

def settle (txs : List AltSigTx) (out : List (Except AltSigError Address)) (cs : List Candidate) :
    List (Except AltSigError Address) :=
  cs.foldl (fun out c => if c.passes then accept txs out c.place else out) out

theorem getElem?_settle {txs : List AltSigTx} (cs : List Candidate) {j : ℕ}
    (hlength : out.length = txs.length) : (settle txs out cs)[j]? =
      if ∃ c ∈ cs, c.place = j ∧ c.passes = true then txs[j]?.map fun t => .ok t.tx.sender
      else out[j]? := by
  induction cs generalizing out with
  | nil => simp [settle]
  | cons c cs ih =>
    rw [settle, foldl_cons, ← settle]
    by_cases hpasses : c.passes
    · rw [if_pos hpasses, ih (by simpa using hlength), getElem?_accept hlength]
      by_cases hplace : c.place = j
      · simp [hplace, hpasses]
      · simp [hplace]
    · rw [if_neg hpasses, ih hlength]
      simp [hpasses]

theorem settle_candidates (txs : List AltSigTx) :
    settle txs (txs.map placeholder) (candidates txs) = txs.map AltSigTx.verify := by
  apply ext_getElem?
  intro j
  rw [getElem?_settle _ (length_map _), getElem?_map, getElem?_map]
  cases hget : txs[j]? with
  | none => simp
  | some t =>
    have hmem : ∀ c, c.place = j → (c ∈ candidates txs ↔
        t.shape = .ok (c.key, c.signature) ∧ c.hash = t.tx.signingHash) := by
      intro c hplace
      rw [mem_candidates, hplace, hget]
      simp
    cases hshape : t.shape with
    | error err =>
      rw [if_neg]
      · simp [placeholder, verify_eq, hshape]
      · rintro ⟨c, hc, hplace, -⟩
        have hok := ((hmem c hplace).mp hc).1
        rw [hshape] at hok
        cases hok
    | ok shape =>
      have hiff : (∃ c ∈ candidates txs, c.place = j ∧ c.passes = true) ↔
          dalekVerifyBatch [B256.toBytes t.tx.signingHash] [shape.2] [shape.1] = true := by
        constructor
        · rintro ⟨c, hc, hplace, hpasses⟩
          obtain ⟨hok, hhash⟩ := (hmem c hplace).mp hc
          rw [hshape] at hok
          rw [Except.ok.inj hok, ← hhash]
          exact hpasses
        · intro hpasses
          refine ⟨⟨shape.1, shape.2, t.tx.signingHash, j⟩, ?_, rfl, hpasses⟩
          exact (hmem _ rfl).mpr ⟨hshape, rfl⟩
      simp only [hiff, Option.map_some, verify_eq, hshape, placeholder]
      split <;> rfl

omit [Ed25519] [Keccak] in
theorem oneAt_map {α β : Type} {xs : List α} {f : α → β} {a : α} {slot : ℕ}
    (h : xs[slot]? = some a) : oneAt (xs.map f) slot = [f a] := by
  obtain ⟨hlt, rfl⟩ := List.getElem?_eq_some_iff.mp h
  rw [oneAt, ← List.map_drop, List.drop_eq_getElem_cons hlt]
  rfl

variable (txs : List AltSigTx)

theorem foldl_slots (cs : List Candidate) (out : List (Except AltSigError Address)) :
    (cs.map (·.place)).zipIdx.foldl (fun out e =>
      if dalekVerifyBatch (oneAt (cs.map Candidate.message) e.2)
          (oneAt (cs.map (·.signature)) e.2) (oneAt (cs.map (·.key)) e.2) then
        accept txs out e.1
      else out) out = settle txs out cs := by
  have hfst : cs = cs.zipIdx.map Prod.fst := (zipIdx_map_fst 0 cs).symm
  rw [settle]
  conv_rhs => rw [hfst, foldl_map]
  rw [zipIdx_map, foldl_map]
  apply foldl_ext
  intro out e he
  have hget : cs[e.2]? = some e.1 := mem_zipIdx_iff_getElem?.mp he
  simp only [Prod.map_snd, id, oneAt_map hget]
  rfl

/-- The unmerged equation over the transactions of the right shape. -/
def batchVerifies : Bool :=
  dalekVerifyBatch ((candidates txs).map Candidate.message) ((candidates txs).map (·.signature))
    ((candidates txs).map (·.key))

/-- A batch in which no bad signature hides gives the verdicts of its transactions alone. -/
theorem verifyBatch_eq_map_verify (merge : Bool) {txs : List AltSigTx}
    (h : batchVerifies txs = true → ∀ c ∈ candidates txs, c.passes = true) :
    verifyBatch merge txs = txs.map AltSigTx.verify := by
  rw [← settle_candidates]
  unfold verifyBatch
  simp only [foldl_push, Batch.empty, nil_append, map_placeholder_zipIdx, map_map,
    batchHolds_eq]
  change (if ((candidates txs).map (·.key)).isEmpty = true then _ else
    if batchVerifies txs = true then _ else _) = _
  split
  case isTrue hempty =>
    rw [List.isEmpty_iff, List.map_eq_nil_iff] at hempty
    rw [hempty]
    rfl
  case isFalse =>
    split
    case isTrue hholds =>
      have hpasses := h hholds
      rw [foldl_map]
      apply foldl_ext
      intro out c hc
      rw [if_pos (hpasses c hc)]
    case isFalse => exact foldl_slots txs (candidates txs) (txs.map placeholder)

/-- The assumption on the coefficients that are drawn: the equation over the batch holds exactly if
it holds for each signature alone. -/
def ExactBatch : Prop :=
  batchVerifies txs = true ↔ ∀ c ∈ candidates txs, c.passes = true

theorem verify_batch_eq_verify (merge : Bool) (txs : List AltSigTx) (h : ExactBatch txs) :
    verifyBatch merge txs = txs.map AltSigTx.verify :=
  verifyBatch_eq_map_verify merge h.mp

end Collection

/-- Integers for points and scalars, read off the first byte; challenges are one. -/
@[reducible] def integerCurve : Ed25519 where
  Scalar := ℤ
  Point := ℤ
  basepoint := 1
  decompress bytes := bytes.head?.map fun byte => (byte.toNat : ℤ)
  isWeak point := point = 0
  fromCanonicalBytes bytes := bytes.head?.map fun byte => (byte.toNat : ℤ)
  fromBytesModOrderWide _ := 1
  sha512 bytes := bytes
  draw _ _ i := (i : ℤ) + 1

attribute [local instance] integerCurve lengthKeccak

def sampleAltSig (key r s : UInt8) : AltSigTx where
  tx := {
    chainId := 1
    nonce := 0
    maxPriorityFeePerGas := 0
    maxFeePerGas := 0
    gasLimit := 0
    recipient := 0
    value := 0
    input := []
    accessList := []
    algType := 1
    pubkey := List.replicate 32 key }
  signature := List.replicate 32 r ++ s :: List.replicate 31 0
  hash := 0

/-- Two good signatures of one key, with a key of small order between them. -/
def sampleBatch : List AltSigTx :=
  [sampleAltSig 3 1 4, sampleAltSig 0 1 1, sampleAltSig 3 2 5]

theorem sampleBatch_exact : ExactBatch sampleBatch := by unfold ExactBatch; decide

theorem verify_batch_eq_verify_sample :
    verifyBatch true sampleBatch = sampleBatch.map AltSigTx.verify :=
  verify_batch_eq_verify true sampleBatch sampleBatch_exact

end N42.Tx
