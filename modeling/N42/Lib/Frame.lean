import N42.Lib.Bytes
import N42.Lib.Except

/-!
Reading binary records field by field: fixed-width little-endian words, and byte strings behind
their length in four bytes. Each reader accepts exactly the bytes that its field is written as.
-/

namespace Lib.Frame

open List

variable {ε : Type} {short : ε} {buf rest : Bytes}

def take (short : ε) (n : ℕ) (buf : Bytes) : Except ε (Bytes × Bytes) :=
  if n ≤ buf.length then .ok (buf.take n, buf.drop n) else .error short

theorem take_eq_ok {n : ℕ} {out : Bytes} :
    take short n buf = .ok (out, rest) ↔ out.length = n ∧ buf = out ++ rest := by
  unfold take
  split
  case isTrue hle =>
    simp only [Except.ok.injEq, Prod.mk.injEq]
    constructor
    · rintro ⟨rfl, rfl⟩
      exact ⟨length_take_of_le hle, (take_append_drop n buf).symm⟩
    · rintro ⟨rfl, rfl⟩
      exact ⟨take_left, drop_left⟩
  case isFalse hlt =>
    simp only [reduceCtorEq, false_iff, not_and]
    rintro rfl rfl
    rw [length_append] at hlt
    omega

def word (short : ε) (w n : ℕ) (buf : Bytes) : Except ε (BitVec w × Bytes) := do
  let taken ← take short n buf
  return (BitVec.ofNat w (leNat taken.1), taken.2)

theorem word_eq_ok {w n : ℕ} (hw : w = 8 * n) {x : BitVec w} :
    word short w n buf = .ok (x, rest) ↔ buf = leBytes n x.toNat ++ rest := by
  subst hw
  simp only [word, bind_eq_ok, pure_eq_ok, Prod.exists, Prod.mk.injEq, take_eq_ok]
  constructor
  · rintro ⟨bytes, after, ⟨hlength, rfl⟩, rfl, rfl⟩
    rw [leBytes_ofNat_leNat hlength]
  · rintro rfl
    exact ⟨_, _, ⟨leBytes_length _ _, rfl⟩, ofNat_leNat_leBytes n x, rfl⟩

def frame (bytes : Bytes) : Bytes := leBytes 4 bytes.length ++ bytes

@[simp] theorem length_frame (bytes : Bytes) : (frame bytes).length = 4 + bytes.length := by
  simp [frame]

theorem frame_ne_nil (bytes : Bytes) : frame bytes ≠ [] := by
  intro h
  have hlength := congrArg List.length h
  simp at hlength

def unframe (short : ε) (large : ℕ → ℕ → ε) (max : ℕ) (buf : Bytes) : Except ε (Bytes × Bytes) := do
  let len ← take short 4 buf
  if leNat len.1 > max then throw (large (leNat len.1) max)
  take short (leNat len.1) len.2

theorem unframe_eq_ok {large : ℕ → ℕ → ε} {max : ℕ} (hmax : max < 2 ^ 32) {bytes : Bytes} :
    unframe short large max buf = .ok (bytes, rest) ↔
      bytes.length ≤ max ∧ buf = frame bytes ++ rest := by
  simp only [unframe, bind_eq_ok, guard_bind_eq_ok, Prod.exists, take_eq_ok]
  constructor
  · rintro ⟨len, after, ⟨hlen, rfl⟩, hle, hlength, rfl⟩
    refine ⟨by omega, ?_⟩
    rw [frame, hlength, leBytes_leNat hlen.le, hlen]
    simp
  · rintro ⟨hle, rfl⟩
    have hread : leNat (leBytes 4 bytes.length) = bytes.length := by
      rw [leNat_leBytes]
      exact Nat.mod_eq_of_lt (by omega)
    refine ⟨leBytes 4 bytes.length, bytes ++ rest, ⟨leBytes_length _ _, ?_⟩, ?_, ?_, rfl⟩
    · rw [frame, append_assoc]
    · omega
    · rw [hread]

end Lib.Frame
