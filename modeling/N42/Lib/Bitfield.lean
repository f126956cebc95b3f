import Mathlib.Data.List.Sort

/-!
Sets of small numbers as bit fields: number `i` is bit `i % 8` of byte `i / 8`.
-/

namespace Lib.Bitfield

open List

def hasBit (byte : BitVec 8) (bit : ℕ) : Bool := byte &&& (1#8 <<< bit) ≠ 0

/-- The set bits of a byte, lowest first, as numbers of byte `k` of a field. -/
def byteIndices (byte : BitVec 8) (k : ℕ) : List ℕ :=
  ((List.range 8).filter (hasBit byte)).map (k * 8 + ·)

def indicesFrom : ℕ → List (BitVec 8) → List ℕ
  | _, [] => []
  | k, byte :: bytes => byteIndices byte k ++ indicesFrom (k + 1) bytes

variable (bytes : List (BitVec 8))

/-- The numbers in a field, in increasing order. -/
def indices : List ℕ := indicesFrom 0 bytes

def setBit (i : ℕ) : List (BitVec 8) :=
  bytes.modify (i / 8) (· ||| (1#8 <<< (i % 8)))

/-- The shortest field that holds the numbers given. -/
def ofIndices (numbers : List ℕ) : List (BitVec 8) :=
  numbers.foldl setBit (List.replicate (numbers.foldl max 0 / 8 + 1) 0)

theorem hasBit_eq_getLsbD {byte : BitVec 8} {bit : ℕ} (hbit : bit < 8) :
    hasBit byte bit = byte.getLsbD bit := by
  have hand : byte &&& (1#8 <<< bit) = if byte.getLsbD bit then BitVec.twoPow 8 bit else 0#8 :=
    BitVec.and_twoPow byte bit
  have hpow : BitVec.twoPow 8 bit ≠ 0 := by
    intro h
    have hbit' := congrArg (BitVec.getLsbD · bit) h
    simp [hbit] at hbit'
  rw [hasBit, hand]
  cases byte.getLsbD bit with
  | false => simp
  | true => simpa using hpow

/-- The bit of a number in a field. -/
def Member (i : ℕ) : Prop :=
  ∃ byte, bytes[i / 8]? = some byte ∧ byte.getLsbD (i % 8) = true

variable {i : ℕ} {bytes : List (BitVec 8)} {numbers : List ℕ}

theorem mem_byteIndices {byte : BitVec 8} {k : ℕ} :
    i ∈ byteIndices byte k ↔ i / 8 = k ∧ byte.getLsbD (i % 8) = true := by
  simp only [byteIndices, mem_map, mem_filter, mem_range]
  constructor
  · rintro ⟨bit, ⟨hbit, hset⟩, rfl⟩
    rw [hasBit_eq_getLsbD hbit] at hset
    rw [show (k * 8 + bit) % 8 = bit by omega]
    exact ⟨by omega, hset⟩
  · rintro ⟨rfl, hset⟩
    refine ⟨i % 8, ⟨Nat.mod_lt _ (by decide), ?_⟩, by omega⟩
    rw [hasBit_eq_getLsbD (Nat.mod_lt _ (by decide))]
    exact hset

theorem mem_indicesFrom {k : ℕ} :
    i ∈ indicesFrom k bytes ↔ k ≤ i / 8 ∧ ∃ byte, bytes[i / 8 - k]? = some byte ∧
      byte.getLsbD (i % 8) = true := by
  induction bytes generalizing k with
  | nil => simp [indicesFrom]
  | cons byte bytes ih =>
    rw [indicesFrom, mem_append, mem_byteIndices, ih]
    rcases Nat.lt_trichotomy (i / 8) k with h | h | h
    · simp [show ¬ k ≤ i / 8 by omega, show ¬ k + 1 ≤ i / 8 by omega, h.ne]
    · simp [h]
    · obtain ⟨d, hd⟩ := Nat.exists_eq_add_of_lt h
      have hleft : i / 8 - k = d + 1 := by omega
      have hright : i / 8 - (k + 1) = d := by omega
      simp [hleft, hright, h.ne', h.le, Nat.succ_le_of_lt h]

theorem mem_indices : i ∈ indices bytes ↔ Member bytes i := by
  simp [indices, mem_indicesFrom, Member]

theorem pairwise_indicesFrom (k : ℕ) (bytes : List (BitVec 8)) :
    (indicesFrom k bytes).Pairwise (· < ·) := by
  induction bytes generalizing k with
  | nil => exact List.Pairwise.nil
  | cons byte bytes ih =>
    rw [indicesFrom, pairwise_append]
    refine ⟨?_, ih (k + 1), ?_⟩
    · refine ((pairwise_lt_range).filter _).map _ ?_
      intro a b hab
      exact Nat.add_lt_add_left hab _
    · intro a ha b hb
      have ha := (mem_byteIndices.mp ha).1
      have hb := (mem_indicesFrom.mp hb).1
      omega

theorem nodup_indices (bytes : List (BitVec 8)) : (indices bytes).Nodup :=
  (pairwise_indicesFrom 0 bytes).imp fun h => h.ne

@[simp] theorem length_setBit (bytes : List (BitVec 8)) (i : ℕ) :
    (setBit bytes i).length = bytes.length := by
  simp [setBit]

theorem member_setBit {j : ℕ} (hi : i / 8 < bytes.length) :
    Member (setBit bytes i) j ↔ j = i ∨ Member bytes j := by
  unfold Member setBit
  rw [getElem?_modify]
  by_cases hbyte : i / 8 = j / 8
  · obtain ⟨byte, hget⟩ : ∃ byte, bytes[j / 8]? = some byte :=
      ⟨_, getElem?_eq_getElem (hbyte ▸ hi)⟩
    have hone : (1#8 <<< (i % 8)).getLsbD (j % 8) = true ↔ j = i := by
      change (BitVec.twoPow 8 (i % 8)).getLsbD (j % 8) = true ↔ j = i
      rw [BitVec.getLsbD_twoPow, Bool.and_eq_true, decide_eq_true_eq, decide_eq_true_eq]
      omega
    simp only [hbyte, hget, if_true, Option.map_eq_map, Option.map_some, Option.some.injEq,
      exists_eq_left', BitVec.getLsbD_or, Bool.or_eq_true, hone]
    exact or_comm
  · have hj : j ≠ i := by
      rintro rfl
      exact hbyte rfl
    simp [hbyte, hj]

theorem member_foldl_setBit {j : ℕ} (h : ∀ i ∈ numbers, i / 8 < bytes.length) :
    Member (numbers.foldl setBit bytes) j ↔ j ∈ numbers ∨ Member bytes j := by
  induction numbers generalizing bytes with
  | nil => simp
  | cons i numbers ih =>
    rw [foldl_cons, ih, member_setBit (h i mem_cons_self), mem_cons]
    · tauto
    · intro i' hi'
      rw [length_setBit]
      exact h i' (mem_cons_of_mem _ hi')

theorem le_foldl_max (start : ℕ) :
    start ≤ numbers.foldl max start ∧ ∀ i ∈ numbers, i ≤ numbers.foldl max start := by
  induction numbers generalizing start with
  | nil => simp
  | cons n numbers ih =>
    obtain ⟨hstart, hrest⟩ := ih (max start n)
    refine ⟨(le_max_left start n).trans hstart, ?_⟩
    exact forall_mem_cons.mpr ⟨(le_max_right start _).trans hstart, hrest⟩

theorem mem_indices_ofIndices : i ∈ indices (ofIndices numbers) ↔ i ∈ numbers := by
  rw [mem_indices, ofIndices, member_foldl_setBit]
  · simp [Member, getElem?_replicate]
  · intro j hj
    have hle := (le_foldl_max 0).2 j hj
    rw [length_replicate]
    omega

end Lib.Bitfield
