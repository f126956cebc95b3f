import Mathlib.Tactic.Linarith
import Mathlib.Data.List.Basic

/-!
Fixed-width byte encodings of natural numbers, and the injectivity facts that a
signing format built by concatenating such encodings rests on.
-/

namespace Lib

open List

abbrev Bytes := List UInt8

instance Bytes.decidableMem (b : Bytes) (l : List Bytes) : Decidable (b ∈ l) := inferInstance

/-- The `n` low-order bytes of `x`, least significant first (`to_le_bytes`). -/
def leBytes : ℕ → ℕ → Bytes
  | 0, _ => []
  | n + 1, x => UInt8.ofNat x :: leBytes n (x / 256)

variable (n x : ℕ)

def beBytes : Bytes := (leBytes n x).reverse

@[simp] theorem leBytes_length : (leBytes n x).length = n := by
  induction n generalizing x with
  | zero => rfl
  | succ n ih => simp [leBytes, ih]

@[simp] theorem beBytes_length : (beBytes n x).length = n := by
  simp [beBytes]

theorem leBytes_injective {n x y : ℕ} (hx : x < 256 ^ n) (hy : y < 256 ^ n)
    (h : leBytes n x = leBytes n y) : x = y := by
  induction n generalizing x y with
  | zero => omega
  | succ n ih =>
    simp only [leBytes, List.cons.injEq] at h
    obtain ⟨hlow, hhigh⟩ := h
    have hmod : x % 256 = y % 256 := by
      simpa using congrArg UInt8.toNat hlow
    have hdiv : x / 256 = y / 256 := by
      apply ih _ _ hhigh
      · exact Nat.div_lt_of_lt_mul (by rw [pow_succ] at hx; linarith)
      · exact Nat.div_lt_of_lt_mul (by rw [pow_succ] at hy; linarith)
    omega

theorem beBytes_injective {n x y : ℕ} (hx : x < 256 ^ n) (hy : y < 256 ^ n)
    (h : beBytes n x = beBytes n y) : x = y :=
  leBytes_injective hx hy (reverse_inj.mp h)

theorem leBytes_succ : leBytes (n + 1) x = leBytes n x ++ [UInt8.ofNat (x / 256 ^ n)] := by
  induction n generalizing x with
  | zero => simp [leBytes]
  | succ n ih =>
    rw [leBytes, ih, leBytes, cons_append, Nat.div_div_eq_div_mul, ← pow_succ']

theorem headD_beBytes {n m : ℕ} (hm : m = n + 1) (x : ℕ) (default : UInt8) :
    (beBytes m x).headD default = UInt8.ofNat (x / 256 ^ n) := by
  rw [hm, beBytes, leBytes_succ, reverse_append]
  rfl

/-- The number some bytes spell, least significant first (`from_le_bytes`). -/
def leNat : Bytes → ℕ
  | [] => 0
  | b :: bs => b.toNat + 256 * leNat bs

def beNat (bytes : Bytes) : ℕ := leNat bytes.reverse

theorem leNat_leBytes : leNat (leBytes n x) = x % 256 ^ n := by
  induction n generalizing x with
  | zero => simp [leBytes, leNat, Nat.mod_one]
  | succ n ih =>
    rw [leBytes, leNat, ih, pow_succ', Nat.mod_mul]
    simp

theorem beNat_beBytes : beNat (beBytes n x) = x % 256 ^ n := by
  rw [beNat, beBytes, reverse_reverse, leNat_leBytes]

theorem leNat_lt (bytes : Bytes) : leNat bytes < 256 ^ bytes.length := by
  induction bytes with
  | nil => simp [leNat]
  | cons b bytes ih =>
    have hb : b.toNat < 256 := b.toNat_lt
    rw [leNat, length_cons]
    omega

theorem beNat_lt (bytes : Bytes) : beNat bytes < 256 ^ bytes.length := by
  simpa [beNat] using leNat_lt bytes.reverse

/-- Bytes that are read and written again, at a width that may be larger. -/
theorem leBytes_leNat {n : ℕ} {bytes : Bytes} (h : bytes.length ≤ n) :
    leBytes n (leNat bytes) = bytes ++ List.replicate (n - bytes.length) 0 := by
  induction n generalizing bytes with
  | zero =>
    obtain rfl : bytes = [] := length_eq_zero_iff.mp (Nat.le_zero.mp h)
    rfl
  | succ n ih =>
    cases bytes with
    | nil =>
      have hrest : leBytes n (leNat []) = [] ++ List.replicate (n - 0) 0 := ih (Nat.zero_le n)
      simpa [leNat, leBytes, replicate_succ] using hrest
    | cons b bytes =>
      have hb : b.toNat < 256 := b.toNat_lt
      have hlow : UInt8.ofNat (b.toNat + 256 * leNat bytes) = b := by
        apply UInt8.toNat_inj.mp
        rw [UInt8.toNat_ofNat']
        omega
      have hhigh : (b.toNat + 256 * leNat bytes) / 256 = leNat bytes := by omega
      rw [leNat, leBytes, hlow, hhigh, ih (Nat.le_of_succ_le_succ h), length_cons,
        Nat.add_sub_add_right, cons_append]

theorem beBytes_beNat {n : ℕ} {bytes : Bytes} (h : bytes.length ≤ n) :
    beBytes n (beNat bytes) = List.replicate (n - bytes.length) 0 ++ bytes := by
  rw [beBytes, beNat, leBytes_leNat (by simpa using h)]
  simp

theorem two_pow_eq (size : ℕ) : 2 ^ (8 * size) = 256 ^ size := by
  rw [pow_mul]
  norm_num

section Words

variable {size : ℕ} {word : Bytes} (h : word.length = size)

include h in
theorem leBytes_ofNat_leNat : leBytes size (BitVec.ofNat (8 * size) (leNat word)).toNat = word := by
  subst h
  rw [BitVec.toNat_ofNat, two_pow_eq, Nat.mod_eq_of_lt (leNat_lt word), leBytes_leNat le_rfl,
    Nat.sub_self]
  exact append_nil word

include h in
theorem beBytes_ofNat_beNat : beBytes size (BitVec.ofNat (8 * size) (beNat word)).toNat = word := by
  rw [beBytes, beNat, leBytes_ofNat_leNat (by rwa [length_reverse]), reverse_reverse]

theorem ofNat_leNat_leBytes (size : ℕ) (x : BitVec (8 * size)) :
    BitVec.ofNat (8 * size) (leNat (leBytes size x.toNat)) = x := by
  rw [leNat_leBytes, ← two_pow_eq, Nat.mod_eq_of_lt x.isLt, BitVec.ofNat_toNat, BitVec.setWidth_eq]

theorem ofNat_beNat_beBytes (size : ℕ) (x : BitVec (8 * size)) :
    BitVec.ofNat (8 * size) (beNat (beBytes size x.toNat)) = x := by
  rw [beNat, beBytes, reverse_reverse, ofNat_leNat_leBytes]

end Words

end Lib
