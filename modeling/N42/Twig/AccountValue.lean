import N42.Lib.Frame
import N42.Lib.Rlp
import N42.Primitives.Types

/-!
The account values of the QMDB tree: the writer in `n42-twig-core` and the reader of the node's
QMDB view. A bitmap says which of the nonce, the balance and the code hash follow.
-/

namespace N42.Qmdb

open Lib Frame Rlp List

def GOV5_EMPTY_CODE_HASH : B256 :=
  0xc5d2460186f7233c927e7db2dcc703c0e500b653ca82273b7bfad8045d85a470

/-- A number in groups of seven bits, low ones first, all but the last with the top bit set. -/
def leb128 (remaining : ℕ) : Bytes :=
  if 0x80 ≤ remaining then UInt8.ofNat (remaining % 128 + 128) :: leb128 (remaining / 128)
  else [UInt8.ofNat remaining]

abbrev HasCode (codeHash : B256) : Prop := codeHash ≠ 0 ∧ codeHash ≠ GOV5_EMPTY_CODE_HASH

/-- The balance is the number that its 32 bytes spell. -/
def encodeGov5AccountValue (nonce balance : ℕ) (codeHash : B256) : Bytes :=
  ((if nonce ≠ 0 then 1 else 0) ||| (if balance ≠ 0 then 2 else 0) |||
      if HasCode codeHash then 8 else 0 : UInt8) ::
    ((if nonce ≠ 0 then leb128 nonce else []) ++
    ((if balance ≠ 0 then UInt8.ofNat (trimmed balance).length :: trimmed balance else []) ++
    if HasCode codeHash then B256.toBytes codeHash else []))

structure Account where
  nonce : ℕ
  balance : ℕ
  bytecodeHash : Option B256
deriving DecidableEq

inductive QmdbReadError where
  | invalidAccount
deriving DecidableEq

/-- The rounds of the loop over the nonce from `index` on, at most `left` of them. The groups are
disjoint, so that `|=` adds them. -/
def readNonce (index nonce : ℕ) : ℕ → Bytes → Except QmdbReadError (ℕ × Bytes)
  | 0, bytes => .ok (nonce, bytes)
  | _ + 1, [] => .error .invalidAccount
  | left + 1, byte :: bytes =>
    if index = 9 ∧ 1 < byte.toNat then .error .invalidAccount
    else
      let nonce := nonce + (byte.toNat % 128) <<< (index * 7)
      if byte.toNat < 128 then
        if byte.toNat = 0 then .error .invalidAccount else .ok (nonce, bytes)
      else readNonce (index + 1) nonce left bytes

def readBalance : Bytes → Except QmdbReadError (ℕ × Bytes)
  | [] => .error .invalidAccount
  | len :: bytes => do
    if len.toNat = 0 ∨ 32 < len.toNat then throw .invalidAccount
    let digits ← take .invalidAccount len.toNat bytes
    if digits.1.head? = some 0 then throw .invalidAccount
    return (beNat digits.1, digits.2)

def readCodeHash (bytes : Bytes) : Except QmdbReadError (B256 × Bytes) := do
  let word ← take .invalidAccount 32 bytes
  let hash : B256 := BitVec.ofNat 256 (beNat word.1)
  if hash = 0 ∨ hash = GOV5_EMPTY_CODE_HASH then throw .invalidAccount
  return (hash, word.2)

def readField {α : Type} (absent : α) (bitmap bit : UInt8)
    (read : Bytes → Except QmdbReadError (α × Bytes)) (bytes : Bytes) :
    Except QmdbReadError (α × Bytes) :=
  if bitmap &&& bit ≠ 0 then read bytes else .ok (absent, bytes)

def account (nonce balance : ℕ) (codeHash : B256) : Option Account :=
  if nonce = 0 ∧ balance = 0 ∧ codeHash = 0 then none
  else some ⟨nonce, balance, if codeHash ≠ 0 then some codeHash else none⟩

def decodeAccount : Bytes → Except QmdbReadError (Option Account)
  | [] => .error .invalidAccount
  | bitmap :: bytes => do
    if bitmap &&& ~~~0x0b ≠ 0 then throw .invalidAccount
    let nonce ← readField 0 bitmap 1 (readNonce 0 0 10) bytes
    let balance ← readField 0 bitmap 2 readBalance nonce.2
    let codeHash ← readField 0 bitmap 8 readCodeHash balance.2
    if codeHash.2 ≠ [] then throw .invalidAccount
    return account nonce.1 balance.1 codeHash.1

section Fields

variable {bytes rest : Bytes} {bitmap : UInt8}

theorem cons_eq_leb128 {byte : UInt8} {n : ℕ} : byte :: bytes = leb128 n ++ rest ↔
    if byte.toNat < 128 then n = byte.toNat ∧ bytes = rest
    else ∃ high, 0 < high ∧ n = byte.toNat % 128 + 128 * high ∧ bytes = leb128 high ++ rest := by
  have hbyte := byte.toNat_lt
  rw [leb128]
  by_cases hn : 0x80 ≤ n
  · rw [if_pos hn, cons_append, cons.injEq, ← UInt8.toNat_inj, UInt8.toNat_ofNat']
    split
    · omega
    · constructor
      · rintro ⟨hhead, htail⟩
        exact ⟨n / 128, by omega, by omega, htail⟩
      · rintro ⟨high, hhigh, rfl, rfl⟩
        refine ⟨by omega, ?_⟩
        rw [show (byte.toNat % 128 + 128 * high) / 128 = high by omega]
  · rw [if_neg hn, singleton_append, cons.injEq, ← UInt8.toNat_inj, UInt8.toNat_ofNat']
    split
    · rw [Nat.mod_eq_of_lt (by omega), eq_comm]
    · constructor
      · omega
      · omega

/-- The loop reads a number that is not zero and fits into what is left of 64 bits. -/
theorem readNonce_eq_ok {k index nonce v : ℕ} {bytes rest : Bytes} (hindex : index + k = 9) :
    readNonce index nonce (k + 1) bytes = .ok (v, rest) ↔ ∃ n, 0 < n ∧ n < 2 ^ (7 * k + 1) ∧
      v = nonce + n <<< (index * 7) ∧ bytes = leb128 n ++ rest := by
  cases bytes with
  | nil =>
    refine ⟨nofun, fun ⟨n, _, _, _, hnil⟩ => ?_⟩
    rw [leb128] at hnil
    split at hnil <;> cases hnil
  | cons byte bytes =>
    simp only [readNonce, cons_eq_leb128, error_guard_eq_ok]
    split
    · next hsmall =>
      have hroom : byte.toNat < 2 ^ (7 * k + 1) ↔ ¬ (index = 9 ∧ 1 < byte.toNat) := by
        cases k with
        | zero => omega
        | succ k =>
          have hpow : 2 ^ 7 ≤ 2 ^ (7 * (k + 1) + 1) := Nat.pow_le_pow_right (by omega) (by omega)
          omega
      simp only [← hroom, Nat.mod_eq_of_lt hsmall, error_guard_eq_ok, Except.ok.injEq,
        Prod.mk.injEq]
      constructor
      · rintro ⟨hlt, hne, rfl, rfl⟩
        exact ⟨byte.toNat, Nat.pos_of_ne_zero hne, hlt, rfl, rfl, rfl⟩
      · rintro ⟨n, hpos, hlt, rfl, rfl, rfl⟩
        exact ⟨hlt, hpos.ne', rfl, rfl⟩
    · next hlarge =>
      cases k with
      | zero => exact ⟨fun h => absurd h.1 (by omega), fun ⟨n, _, _, _, high, _, _, _⟩ => by omega⟩
      | succ k =>
        have hpow : 2 ^ (7 * (k + 1) + 1) = 128 * 2 ^ (7 * k + 1) := by ring
        have hshift : ∀ high,
            nonce + (byte.toNat % 128) <<< (index * 7) + high <<< ((index + 1) * 7) =
              nonce + (byte.toNat % 128 + 128 * high) <<< (index * 7) := by
          intro high
          simp only [Nat.shiftLeft_eq]
          ring
        simp only [readNonce_eq_ok (show index + 1 + k = 9 by omega), hshift]
        constructor
        · rintro ⟨-, high, hpos, hlt, hv, hbytes⟩
          exact ⟨_, by omega, by omega, hv, high, hpos, rfl, hbytes⟩
        · rintro ⟨_, -, hlt, hv, high, hpos, rfl, hbytes⟩
          exact ⟨by omega, high, hpos, by omega, hv, hbytes⟩

theorem readBalance_eq_ok {balance : ℕ} : readBalance bytes = .ok (balance, rest) ↔
    (balance ≠ 0 ∧ balance < 256 ^ 32) ∧
      bytes = UInt8.ofNat (trimmed balance).length :: trimmed balance ++ rest := by
  cases bytes with
  | nil => exact ⟨nofun, nofun⟩
  | cons len bytes =>
    simp only [readBalance, guard_bind_eq_ok, bind_eq_ok, pure_eq_ok, Prod.exists, Prod.mk.injEq,
      take_eq_ok, cons_append, cons.injEq]
    constructor
    · rintro ⟨hlen, digits, after, ⟨hlength, rfl⟩, hhead, rfl, rfl⟩
      have htrim := trimmed_beNat (by omega) hhead
      refine ⟨⟨fun hzero => ?_, ?_⟩, ?_, by rw [htrim]⟩
      · rw [hzero] at htrim
        rw [← htrim] at hlength
        exact hlen (.inl hlength.symm)
      · exact (beNat_lt digits).trans_le (Nat.pow_le_pow_right (by norm_num) (by omega))
      · rw [htrim, hlength, UInt8.ofNat_toNat]
    · rintro ⟨⟨hne, hlt⟩, rfl, rfl⟩
      have hpos := length_trimmed_pos (Nat.pos_of_ne_zero hne) hlt
      have hle := length_trimmed_le hlt le_rfl
      rw [UInt8.toNat_ofNat', Nat.mod_eq_of_lt (by omega)]
      exact ⟨by omega, _, _, ⟨rfl, rfl⟩, head?_trimmed _, beNat_trimmed hlt, rfl⟩

theorem readCodeHash_eq_ok {codeHash : B256} : readCodeHash bytes = .ok (codeHash, rest) ↔
    HasCode codeHash ∧ bytes = B256.toBytes codeHash ++ rest := by
  simp only [readCodeHash, guard_bind_eq_ok, bind_eq_ok, pure_eq_ok, Prod.exists, Prod.mk.injEq,
    take_eq_ok, not_or]
  constructor
  · rintro ⟨word, after, ⟨hlength, rfl⟩, hcode, rfl, rfl⟩
    exact ⟨hcode, congrArg (· ++ after) (beBytes_ofNat_beNat hlength).symm⟩
  · rintro ⟨hcode, rfl⟩
    have hword := ofNat_beNat_beBytes 32 codeHash
    exact ⟨_, _, ⟨beBytes_length _ _, rfl⟩, hword.symm ▸ hcode, hword, rfl⟩

theorem readField_eq_ok {α : Type} [DecidableEq α] {absent v : α} {bit : UInt8}
    {read : Bytes → Except QmdbReadError (α × Bytes)} {write : α → Bytes} {Ok : α → Prop}
    (habsent : Ok absent) (hread : ∀ {bytes v rest}, read bytes = .ok (v, rest) ↔
      (v ≠ absent ∧ Ok v) ∧ bytes = write v ++ rest) :
    readField absent bitmap bit read bytes = .ok (v, rest) ↔ (bitmap &&& bit ≠ 0 ↔ v ≠ absent) ∧
      Ok v ∧ bytes = (if v ≠ absent then write v else []) ++ rest := by
  unfold readField
  by_cases hbit : bitmap &&& bit ≠ 0
  · rw [if_pos hbit, hread]
    by_cases hv : v ≠ absent <;> simp [hbit, hv]
  · by_cases hv : v ≠ absent
    · simp [hbit, hv, Ne.symm hv]
    · obtain rfl := not_not.mp hv
      simp [hbit, habsent]

theorem bitmap_eq {p q r : Prop} [Decidable p] [Decidable q] [Decidable r] :
    bitmap = (if p then 1 else 0) ||| (if q then 2 else 0) ||| (if r then 8 else 0) ↔
      bitmap &&& ~~~0x0b = 0 ∧ (bitmap &&& 1 ≠ 0 ↔ p) ∧ (bitmap &&& 2 ≠ 0 ↔ q) ∧
        (bitmap &&& 8 ≠ 0 ↔ r) := by
  have hall : ∀ (b : BitVec 8) (p q r : Bool), UInt8.ofBitVec b =
      (if p then 1 else 0) ||| (if q then 2 else 0) ||| (if r then 8 else 0) ↔
      UInt8.ofBitVec b &&& ~~~0x0b = 0 ∧ (UInt8.ofBitVec b &&& 1 ≠ 0 ↔ p) ∧
        (UInt8.ofBitVec b &&& 2 ≠ 0 ↔ q) ∧ (UInt8.ofBitVec b &&& 8 ≠ 0 ↔ r) := by decide
  simpa only [decide_eq_true_eq] using hall bitmap.toBitVec (decide p) (decide q) (decide r)

end Fields

theorem decodeAccount_eq_ok {value : Bytes} {result : Option Account} :
    decodeAccount value = .ok result ↔ ∃ nonce balance codeHash, nonce < 2 ^ 64 ∧
      balance < 256 ^ 32 ∧ codeHash ≠ GOV5_EMPTY_CODE_HASH ∧
      value = encodeGov5AccountValue nonce balance codeHash ∧
      result = account nonce balance codeHash := by
  cases value with
  | nil => exact ⟨nofun, fun ⟨_, _, _, _, _, _, h, _⟩ => nomatch h⟩
  | cons bitmap bytes =>
    have hnonce : ∀ {bytes v rest}, readNonce 0 0 10 bytes = .ok (v, rest) ↔
        (v ≠ 0 ∧ v < 2 ^ 64) ∧ bytes = leb128 v ++ rest := by
      intro bytes v rest
      rw [readNonce_eq_ok (k := 9) rfl]
      simp [Nat.pos_iff_ne_zero, and_assoc, and_left_comm]
    have hhas : ∀ {codeHash}, codeHash ≠ GOV5_EMPTY_CODE_HASH → (HasCode codeHash ↔ codeHash ≠ 0) :=
      fun h => and_iff_left h
    simp only [decodeAccount, guard_bind_eq_ok, bind_eq_ok, pure_eq_ok, Prod.exists,
      readField_eq_ok (by decide) hnonce, readField_eq_ok (by decide) readBalance_eq_ok,
      readField_eq_ok (by decide) readCodeHash_eq_ok, encodeGov5AccountValue, cons.injEq, bitmap_eq,
      not_not]
    constructor
    · rintro ⟨hmap, nonce, _, ⟨hn, hnonce, rfl⟩, balance, _, ⟨hb, hbalance, rfl⟩, codeHash, _,
        ⟨hc, hcode, rfl⟩, rfl, rfl⟩
      exact ⟨nonce, balance, codeHash, hnonce, hbalance, hcode,
        ⟨⟨hmap, hn, hb, hc.trans (hhas hcode).symm⟩, by simp only [hhas hcode, append_nil]⟩, rfl⟩
    · rintro ⟨nonce, balance, codeHash, hnonce, hbalance, hcode, ⟨⟨hmap, hn, hb, hc⟩, rfl⟩, rfl⟩
      exact ⟨hmap, nonce, _, ⟨hn, hnonce, rfl⟩, balance, _, ⟨hb, hbalance, rfl⟩, codeHash, [],
        ⟨hc.trans (hhas hcode), hcode, by simp only [hhas hcode, append_nil]⟩, rfl, rfl⟩

def encodeAccount : Option Account → Bytes
  | none => encodeGov5AccountValue 0 0 0
  | some account =>
    encodeGov5AccountValue account.nonce account.balance (account.bytecodeHash.getD 0)

theorem encodeAccount_account (nonce balance : ℕ) (codeHash : B256) :
    encodeAccount (account nonce balance codeHash) =
      encodeGov5AccountValue nonce balance codeHash := by
  unfold account
  split
  · next h =>
    obtain ⟨rfl, rfl, rfl⟩ := h
    rfl
  · by_cases h : codeHash ≠ 0
    · rw [if_pos h]
      rfl
    · rw [not_not.mp h]
      rfl

/-- What is written is read as the account it was written for, with no code for the hash of the
empty code, and what is read is what is written for it. -/
theorem account_values_canonical :
    (∀ nonce balance codeHash, nonce < 2 ^ 64 → balance < 2 ^ 256 →
      decodeAccount (encodeGov5AccountValue nonce balance codeHash) =
        .ok (account nonce balance (if HasCode codeHash then codeHash else 0))) ∧
    ∀ value result, decodeAccount value = .ok result → encodeAccount result = value := by
  constructor
  · intro nonce balance codeHash hnonce hbalance
    refine decodeAccount_eq_ok.mpr ⟨nonce, balance, _, hnonce, by simpa using hbalance, ?_, ?_, rfl⟩
    · split
      · next h => exact h.2
      · decide
    · split
      · rfl
      · next h =>
        simp only [encodeGov5AccountValue, h, HasCode, ne_eq, not_true, false_and, if_false]
  · intro value result h
    obtain ⟨nonce, balance, codeHash, -, -, -, rfl, rfl⟩ := decodeAccount_eq_ok.mp h
    exact encodeAccount_account nonce balance codeHash

theorem account_values_canonical_sample :
    decodeAccount (encodeGov5AccountValue 300 5 GOV5_EMPTY_CODE_HASH) = .ok (some ⟨300, 5, none⟩) ∧
    encodeAccount (some ⟨300, 5, none⟩) = [3, 172, 2, 1, 5] :=
  ⟨account_values_canonical.1 300 5 GOV5_EMPTY_CODE_HASH (by norm_num) (by norm_num),
    account_values_canonical.2 [3, 172, 2, 1, 5] _ (by decide)⟩

end N42.Qmdb
