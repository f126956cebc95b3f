import N42.Lib.Bytes
import N42.Lib.Except
import Mathlib.Data.List.TakeWhile
import Mathlib.Tactic.Ring

/-!
Recursive-length-prefix items: the header of a string or a list, strings, numbers and words. Every
reader accepts exactly what the writer beside it writes.
-/

namespace Lib.Rlp

open List

inductive Error where
  | inputTooShort
  | nonCanonicalSingleByte
  | nonCanonicalSize
  | leadingZero
  | overflow
  | unexpectedList
  | unexpectedLength
  | unexpectedString
  | listLengthMismatch
deriving DecidableEq

/-- The big-endian digits of a number below `256 ^ 32`. -/
def trimmed (x : ℕ) : Bytes := (beBytes 32 x).dropWhile (· = 0)

theorem leNat_append_singleton (digits : Bytes) (b : UInt8) :
    leNat (digits ++ [b]) = leNat digits + 256 ^ digits.length * b.toNat := by
  induction digits with
  | nil => simp [leNat]
  | cons digit digits ih =>
    rw [cons_append, leNat, leNat, ih, length_cons]
    ring

theorem beNat_cons (b : UInt8) (digits : Bytes) :
    beNat (b :: digits) = beNat digits + 256 ^ digits.length * b.toNat := by
  rw [beNat, reverse_cons, leNat_append_singleton, length_reverse, beNat]

theorem beNat_replicate_append (n : ℕ) (digits : Bytes) :
    beNat (List.replicate n 0 ++ digits) = beNat digits := by
  induction n with
  | zero => rfl
  | succ n ih =>
    rw [replicate_succ, cons_append, beNat_cons, ih]
    simp

theorem exists_zeros (bytes : Bytes) :
    ∃ n, bytes = List.replicate n 0 ++ bytes.dropWhile (· = 0) := by
  refine ⟨(bytes.takeWhile (· = 0)).length, ?_⟩
  have hzeros : bytes.takeWhile (· = 0) =
      List.replicate (bytes.takeWhile (· = 0)).length 0 := by
    apply eq_replicate_of_mem
    intro b hb
    simpa using mem_takeWhile_imp hb
  rw [← hzeros, takeWhile_append_dropWhile]

theorem beNat_trimmed {x : ℕ} (h : x < 256 ^ 32) : beNat (trimmed x) = x := by
  obtain ⟨n, hn⟩ := exists_zeros (beBytes 32 x)
  rw [trimmed, ← beNat_replicate_append n, ← hn, beNat_beBytes, Nat.mod_eq_of_lt h]

theorem head?_trimmed (x : ℕ) : (trimmed x).head? ≠ some 0 := by
  intro hhead
  have hne : trimmed x ≠ [] := by
    intro hnil
    rw [hnil] at hhead
    cases hhead
  have hfirst : decide ((trimmed x).head hne = 0) = false :=
    head_dropWhile_not (fun b : UInt8 => decide (b = 0)) hne
  rw [head?_eq_some_head hne] at hhead
  exact of_decide_eq_false hfirst (Option.some.inj hhead)

theorem trimmed_beNat {digits : Bytes} (hlength : digits.length ≤ 32)
    (hhead : digits.head? ≠ some 0) : trimmed (beNat digits) = digits := by
  rw [trimmed, beBytes_beNat hlength, dropWhile_append_of_pos]
  · cases digits with
    | nil => rfl
    | cons b digits =>
      have hb : b ≠ 0 := by simpa using hhead
      simp [hb]
  · simp

theorem length_lt_of_beNat_lt {digits : Bytes} {n : ℕ} (hhead : digits.head? ≠ some 0)
    (h : beNat digits < 256 ^ n) : digits.length ≤ n := by
  cases digits with
  | nil => exact Nat.zero_le n
  | cons b digits =>
    by_contra hlong
    have hb : 0 < b.toNat := by
      rcases Nat.eq_zero_or_pos b.toNat with hzero | hpos
      · exact absurd (UInt8.toNat_inj.mp (hzero.trans rfl)) (by simpa using hhead)
      · exact hpos
    have hpow : 256 ^ n ≤ 256 ^ digits.length :=
      Nat.pow_le_pow_right (by norm_num) (Nat.le_of_lt_succ (Nat.lt_of_not_le hlong))
    have hmul : 256 ^ digits.length * 1 ≤ 256 ^ digits.length * b.toNat :=
      Nat.mul_le_mul_left _ hb
    rw [beNat_cons] at h
    omega

theorem length_trimmed_le {x n : ℕ} (hx : x < 256 ^ n) (hn : n ≤ 32) : (trimmed x).length ≤ n := by
  have hwide : x < 256 ^ 32 := hx.trans_le (Nat.pow_le_pow_right (by norm_num) hn)
  apply length_lt_of_beNat_lt (head?_trimmed x)
  rwa [beNat_trimmed hwide]

theorem length_trimmed_pos {x : ℕ} (hpos : 0 < x) (hx : x < 256 ^ 32) : 0 < (trimmed x).length := by
  rw [length_pos_iff]
  intro hnil
  have hvalue := beNat_trimmed hx
  rw [hnil] at hvalue
  exact hpos.ne hvalue

structure Header where
  list : Bool
  payloadLength : ℕ

variable (list : Bool)

def shortCode : ℕ := if list then 0xC0 else 0x80

/-- One less than the first code of long lists and strings. -/
def longCode : ℕ := if list then 0xF7 else 0xB7

def Header.encode (header : Header) : Bytes :=
  if header.payloadLength < 56 then
    [UInt8.ofNat (shortCode header.list + header.payloadLength)]
  else
    UInt8.ofNat (longCode header.list + (trimmed header.payloadLength).length) ::
      trimmed header.payloadLength

def Header.checked (header : Header) (rest : Bytes) : Except Error (Header × Bytes) :=
  if rest.length < header.payloadLength then .error .inputTooShort else .ok (header, rest)

/-- A header whose length stands in the next bytes. -/
def Header.decodeLong (lenOfLen : ℕ) (rest : Bytes) : Except Error (Header × Bytes) :=
  if rest.length < lenOfLen then .error .inputTooShort
  else if (rest.take lenOfLen).head? = some 0 then .error .leadingZero
  else if beNat (rest.take lenOfLen) < 56 then .error .nonCanonicalSize
  else Header.checked ⟨list, beNat (rest.take lenOfLen)⟩ (rest.drop lenOfLen)

/-- A byte below `0x80` is a string of its own and is left to be read as the payload. -/
def Header.decode : Bytes → Except Error (Header × Bytes)
  | [] => .error .inputTooShort
  | byte :: rest =>
    if byte.toNat < 0x80 then .ok (⟨false, 1⟩, byte :: rest)
    else if byte.toNat < 0xB8 then
      if byte.toNat = 0x81 ∧ rest = [] then .error .inputTooShort
      else if byte.toNat = 0x81 ∧ (rest.headD 0).toNat < 0x80 then .error .nonCanonicalSingleByte
      else Header.checked ⟨false, byte.toNat - 0x80⟩ rest
    else if byte.toNat < 0xC0 then Header.decodeLong false (byte.toNat - 0xB7) rest
    else if byte.toNat < 0xF8 then Header.checked ⟨true, byte.toNat - 0xC0⟩ rest
    else Header.decodeLong true (byte.toNat - 0xF7) rest

/-- What stands before a payload: nothing, before a string of one byte below `0x80`. -/
def lead (payload : Bytes) : Bytes :=
  if list = false ∧ payload.length = 1 ∧ (payload.headD 0).toNat < 0x80 then []
  else Header.encode ⟨list, payload.length⟩

variable {rest bytes : Bytes} {list : Bool}

theorem checked_eq_ok {header h : Header} {rest' : Bytes} :
    header.checked rest = .ok (h, rest') ↔
      header.payloadLength ≤ rest.length ∧ header = h ∧ rest = rest' := by
  unfold Header.checked
  by_cases hshort : rest.length < header.payloadLength
  · simp [hshort]
  · simp [hshort, Nat.le_of_not_lt hshort]

theorem decodeLong_eq_ok {lenOfLen : ℕ} {h : Header} (hlen : lenOfLen ≤ 8) :
    Header.decodeLong list lenOfLen bytes = .ok (h, rest) ↔
      h.list = list ∧ 56 ≤ h.payloadLength ∧ h.payloadLength < 2 ^ 64 ∧
        h.payloadLength ≤ rest.length ∧ (trimmed h.payloadLength).length = lenOfLen ∧
        bytes = trimmed h.payloadLength ++ rest := by
  unfold Header.decodeLong
  constructor
  · intro hok
    split at hok
    · cases hok
    split at hok
    · cases hok
    split at hok
    · cases hok
    next hlong hhead hsize =>
    obtain ⟨hthere, rfl, rfl⟩ := checked_eq_ok.mp hok
    have htake : (bytes.take lenOfLen).length = lenOfLen := by
      rw [length_take]
      omega
    have htrim : trimmed (beNat (bytes.take lenOfLen)) = bytes.take lenOfLen :=
      trimmed_beNat (by omega) hhead
    have hlt := beNat_lt (bytes.take lenOfLen)
    have hpow : 256 ^ (bytes.take lenOfLen).length ≤ 256 ^ 8 :=
      Nat.pow_le_pow_right (by norm_num) (by omega)
    refine ⟨rfl, Nat.le_of_not_lt hsize, ?_, hthere, ?_, ?_⟩
    · exact lt_of_lt_of_le hlt (hpow.trans (by norm_num))
    · rw [htrim, htake]
    · rw [htrim, take_append_drop]
  · rintro ⟨rfl, hsize, hlt, hthere, hlength, rfl⟩
    have hvalue : beNat (trimmed h.payloadLength) = h.payloadLength :=
      beNat_trimmed (hlt.trans (by norm_num))
    have htake : (trimmed h.payloadLength ++ rest).take lenOfLen = trimmed h.payloadLength := by
      rw [← hlength, take_left]
    have hdrop : (trimmed h.payloadLength ++ rest).drop lenOfLen = rest := by
      rw [← hlength, drop_left]
    rw [if_neg (by rw [length_append]; omega), htake, if_neg (head?_trimmed _), hvalue,
      if_neg (by omega), hdrop]
    exact checked_eq_ok.mpr ⟨hthere, rfl, rfl⟩

theorem encode_short {header : Header} (h : header.payloadLength < 56) :
    header.encode = [UInt8.ofNat (shortCode header.list + header.payloadLength)] := if_pos h

theorem encode_long {header : Header} (h : 56 ≤ header.payloadLength) :
    header.encode = UInt8.ofNat (longCode header.list + (trimmed header.payloadLength).length) ::
      trimmed header.payloadLength := if_neg (Nat.not_lt.mpr h)

theorem lead_list (payload : Bytes) : lead true payload = Header.encode ⟨true, payload.length⟩ :=
  if_neg fun hsingle => Bool.noConfusion hsingle.1

theorem toNat_ofNat_code {code : ℕ} (h : code < 256) : (UInt8.ofNat code).toNat = code := by
  exact Nat.mod_eq_of_lt h

section Decode

variable {h : Header} {byte : UInt8} {bytes rest : Bytes}

theorem decode_single (hbyte : byte.toNat < 0x80) :
    Header.decode (byte :: bytes) = .ok (⟨false, 1⟩, byte :: bytes) := if_pos hbyte

variable {list : Bool}

theorem decode_short {n : ℕ} (hn : n < 56) :
    Header.decode (UInt8.ofNat (shortCode list + n) :: bytes) = .ok (h, rest) ↔
      h = ⟨list, n⟩ ∧ rest = bytes ∧ n ≤ rest.length ∧
        (list = true ∨ ¬ (n = 1 ∧ (rest.headD 0).toNat < 0x80)) := by
  cases list with
  | false =>
    have hcode : (UInt8.ofNat (shortCode false + n)).toNat = 0x80 + n :=
      toNat_ofNat_code (by simp only [shortCode, Bool.false_eq_true, if_false]; omega)
    simp only [Header.decode, hcode, if_neg (show ¬ 0x80 + n < 0x80 by omega),
      if_pos (show 0x80 + n < 0xB8 by omega), Nat.add_sub_cancel_left, Bool.false_eq_true,
      false_or]
    constructor
    · intro hok
      split at hok
      · cases hok
      split at hok
      · cases hok
      next hempty hnext =>
      obtain ⟨hthere, rfl, rfl⟩ := checked_eq_ok.mp hok
      exact ⟨rfl, rfl, hthere, fun hone => hnext ⟨by omega, hone.2⟩⟩
    · rintro ⟨rfl, rfl, hthere, hsingle⟩
      rw [if_neg, if_neg, checked_eq_ok]
      · exact ⟨hthere, rfl, rfl⟩
      · exact fun hone => hsingle ⟨by omega, hone.2⟩
      · rintro ⟨hone, rfl⟩
        simp only [length_nil] at hthere
        omega
  | true =>
    have hcode : (UInt8.ofNat (shortCode true + n)).toNat = 0xC0 + n :=
      toNat_ofNat_code (by simp only [shortCode, if_true]; omega)
    simp only [Header.decode, hcode, if_neg (show ¬ 0xC0 + n < 0x80 by omega),
      if_neg (show ¬ 0xC0 + n < 0xB8 by omega), if_neg (show ¬ 0xC0 + n < 0xC0 by omega),
      if_pos (show 0xC0 + n < 0xF8 by omega), Nat.add_sub_cancel_left, checked_eq_ok, true_or,
      and_true]
    constructor
    · rintro ⟨hthere, rfl, rfl⟩
      exact ⟨rfl, rfl, hthere⟩
    · rintro ⟨rfl, rfl, hthere⟩
      exact ⟨hthere, rfl, rfl⟩

theorem decode_long {len : ℕ} (hpos : 0 < len) (hlen : len ≤ 8) :
    Header.decode (UInt8.ofNat (longCode list + len) :: bytes) =
      Header.decodeLong list len bytes := by
  cases list with
  | false =>
    have hcode : (UInt8.ofNat (longCode false + len)).toNat = 0xB7 + len :=
      toNat_ofNat_code (by simp only [longCode, Bool.false_eq_true, if_false]; omega)
    simp only [Header.decode, hcode, if_neg (show ¬ 0xB7 + len < 0x80 by omega),
      if_neg (show ¬ 0xB7 + len < 0xB8 by omega), if_pos (show 0xB7 + len < 0xC0 by omega),
      Nat.add_sub_cancel_left]
  | true =>
    have hcode : (UInt8.ofNat (longCode true + len)).toNat = 0xF7 + len :=
      toNat_ofNat_code (by simp only [longCode, if_true]; omega)
    simp only [Header.decode, hcode, if_neg (show ¬ 0xF7 + len < 0x80 by omega),
      if_neg (show ¬ 0xF7 + len < 0xB8 by omega), if_neg (show ¬ 0xF7 + len < 0xC0 by omega),
      if_neg (show ¬ 0xF7 + len < 0xF8 by omega), Nat.add_sub_cancel_left]

theorem byte_cases (byte : UInt8) :
    byte.toNat < 0x80 ∨ (∃ list n, n < 56 ∧ byte = UInt8.ofNat (shortCode list + n)) ∨
      ∃ list len, 0 < len ∧ len ≤ 8 ∧ byte = UInt8.ofNat (longCode list + len) := by
  have hbyte : byte.toNat < 256 := byte.toNat_lt
  have hcode : ∀ code, byte.toNat = code → byte = UInt8.ofNat code := by
    rintro code rfl
    exact UInt8.ofNat_toNat.symm
  by_cases hsingle : byte.toNat < 0x80
  · exact .inl hsingle
  by_cases hshort : byte.toNat < 0xB8
  · refine .inr (.inl ⟨false, byte.toNat - 0x80, by omega, hcode _ ?_⟩)
    simp only [shortCode, Bool.false_eq_true, if_false]
    omega
  by_cases hlong : byte.toNat < 0xC0
  · refine .inr (.inr ⟨false, byte.toNat - 0xB7, by omega, by omega, hcode _ ?_⟩)
    simp only [longCode, Bool.false_eq_true, if_false]
    omega
  by_cases hlist : byte.toNat < 0xF8
  · refine .inr (.inl ⟨true, byte.toNat - 0xC0, by omega, hcode _ ?_⟩)
    simp only [shortCode, if_true]
    omega
  · refine .inr (.inr ⟨true, byte.toNat - 0xF7, by omega, by omega, hcode _ ?_⟩)
    simp only [longCode, if_true]
    omega

theorem lead_take {n : ℕ} (hthere : n ≤ rest.length)
    (hsingle : list = true ∨ ¬ (n = 1 ∧ (rest.headD 0).toNat < 0x80)) :
    lead list (rest.take n) = Header.encode ⟨list, n⟩ := by
  have hlength : (rest.take n).length = n := length_take_of_le hthere
  unfold lead
  rw [hlength, if_neg]
  rintro ⟨rfl, rfl, hlow⟩
  rcases hsingle with hlist | hsingle
  · cases hlist
  · cases rest with
    | nil => simp at hthere
    | cons b rest => exact hsingle ⟨rfl, by simpa using hlow⟩

theorem eq_lead_of_decode (hok : Header.decode bytes = .ok (h, rest)) :
    h.payloadLength < 2 ^ 64 ∧ h.payloadLength ≤ rest.length ∧
      bytes = lead h.list (rest.take h.payloadLength) ++ rest := by
  cases bytes with
  | nil => cases hok
  | cons byte bytes =>
    rcases byte_cases byte with hsingle | ⟨list, n, hn, rfl⟩ | ⟨list, len, hpos, hlen, rfl⟩
    · rw [decode_single hsingle] at hok
      cases hok
      exact ⟨by norm_num, by simp, by simp [lead, hsingle]⟩
    · obtain ⟨rfl, rfl, hthere, hnot⟩ := (decode_short hn).mp hok
      refine ⟨hn.trans (by norm_num), hthere, ?_⟩
      rw [lead_take hthere hnot, encode_short hn]
      rfl
    · rw [decode_long hpos hlen, decodeLong_eq_ok hlen] at hok
      obtain ⟨rfl, hsize, hlt, hthere, hlength, rfl⟩ := hok
      refine ⟨hlt, hthere, ?_⟩
      rw [lead_take hthere (.inr (by omega)), encode_long hsize, hlength]
      rfl

theorem decode_lead {n : ℕ} (hlt : n < 2 ^ 64) (hthere : n ≤ rest.length) :
    Header.decode (lead list (rest.take n) ++ rest) = .ok (⟨list, n⟩, rest) := by
  by_cases hsingle : list = false ∧ n = 1 ∧ (rest.headD 0).toNat < 0x80
  · obtain ⟨rfl, rfl, hlow⟩ := hsingle
    cases rest with
    | nil => simp at hthere
    | cons b rest =>
      have hlow : b.toNat < 0x80 := by simpa using hlow
      simp only [lead, take_succ_cons, headD_cons, hlow]
      exact decode_single hlow
  have hnot : list = true ∨ ¬ (n = 1 ∧ (rest.headD 0).toNat < 0x80) := by
    cases list with
    | true => exact .inl rfl
    | false => exact .inr fun h => hsingle ⟨rfl, h⟩
  rw [lead_take hthere hnot]
  by_cases hshort : n < 56
  · rw [encode_short hshort]
    exact (decode_short hshort).mpr ⟨rfl, rfl, hthere, hnot⟩
  · have hsize : 56 ≤ n := Nat.le_of_not_lt hshort
    have hpos : 0 < (trimmed n).length :=
      length_trimmed_pos (by omega) (hlt.trans (by norm_num))
    have hle : (trimmed n).length ≤ 8 :=
      length_trimmed_le (hlt.trans_eq (by norm_num)) (by norm_num)
    rw [encode_long hsize]
    exact (decode_long hpos hle).trans
      ((decodeLong_eq_ok hle).mpr ⟨rfl, hsize, hlt, hthere, rfl, rfl⟩)

/-- A header is read where, and only where, it was written before a payload that is there. -/
theorem decode_eq_ok : Header.decode bytes = .ok (h, rest) ↔
    h.payloadLength < 2 ^ 64 ∧ h.payloadLength ≤ rest.length ∧
      bytes = lead h.list (rest.take h.payloadLength) ++ rest := by
  constructor
  · exact eq_lead_of_decode
  · rintro ⟨hlt, hthere, rfl⟩
    exact decode_lead hlt hthere

end Decode

def item (list : Bool) (payload : Bytes) : Bytes := lead list payload ++ payload

theorem item_ne_nil (list : Bool) (payload : Bytes) : item list payload ≠ [] := by
  intro hnil
  obtain ⟨hlead, rfl⟩ := append_eq_nil_iff.mp hnil
  simp [lead, Header.encode] at hlead

variable {payload : Bytes}

theorem decode_item (hlt : payload.length < 2 ^ 64) (rest : Bytes) :
    Header.decode (item list payload ++ rest) = .ok (⟨list, payload.length⟩, payload ++ rest) := by
  have htake : (payload ++ rest).take payload.length = payload := take_left
  have hthere : payload.length ≤ (payload ++ rest).length := by
    rw [length_append]
    exact Nat.le_add_right _ _
  have hdecode := @decode_lead (payload ++ rest) list payload.length hlt hthere
  rwa [htake, ← append_assoc] at hdecode

theorem exists_item_of_decode {h : Header} (hok : Header.decode bytes = .ok (h, rest)) :
    ∃ payload after, rest = payload ++ after ∧ payload.length = h.payloadLength ∧
      payload.length < 2 ^ 64 ∧ bytes = item h.list payload ++ after := by
  obtain ⟨hlt, hthere, rfl⟩ := decode_eq_ok.mp hok
  have hlength : (rest.take h.payloadLength).length = h.payloadLength :=
    length_take_of_le hthere
  refine ⟨rest.take h.payloadLength, rest.drop h.payloadLength, ?_, hlength, ?_, ?_⟩
  · rw [take_append_drop]
  · rwa [hlength]
  · rw [item, append_assoc, take_append_drop]

theorem item_append_inj {list' : Bool} {payload' rest' : Bytes} (hlt : payload.length < 2 ^ 64)
    (hlt' : payload'.length < 2 ^ 64)
    (h : item list payload ++ rest = item list' payload' ++ rest') :
    list = list' ∧ payload = payload' ∧ rest = rest' := by
  have hdecode := @decode_item list payload hlt rest
  rw [h, decode_item hlt' rest'] at hdecode
  obtain ⟨hheader, hbytes⟩ := Prod.mk.inj (Except.ok.inj hdecode)
  obtain ⟨hlist, hlength⟩ := Header.mk.inj hheader
  obtain ⟨hpayload, hrest⟩ := append_inj hbytes hlength
  exact ⟨hlist.symm, hpayload.symm, hrest.symm⟩

theorem length_item_le (list : Bool) (hlt : payload.length < 2 ^ 64) :
    (item list payload).length ≤ payload.length + 9 := by
  have hlead : (lead list payload).length ≤ 9 := by
    unfold lead
    split
    · simp
    · unfold Header.encode
      split
      · simp
      · have hlength : (trimmed payload.length).length ≤ 8 :=
          length_trimmed_le (hlt.trans_eq (by norm_num)) (by norm_num)
        simp only [length_cons]
        omega
  rw [item, length_append]
  omega

def takeString (bytes : Bytes) : Except Error (Bytes × Bytes) := do
  let head ← Header.decode bytes
  if head.1.list then throw .unexpectedList
  return (head.2.take head.1.payloadLength, head.2.drop head.1.payloadLength)

theorem takeString_eq_ok {s : Bytes} :
    takeString bytes = .ok (s, rest) ↔ s.length < 2 ^ 64 ∧ bytes = item false s ++ rest := by
  simp only [takeString, bind_eq_ok]
  constructor
  · rintro ⟨⟨⟨list, n⟩, after⟩, hok, hrest⟩
    simp only [guard_bind_eq_ok, Bool.not_eq_true] at hrest
    obtain ⟨rfl, rfl, rfl⟩ := hrest
    obtain ⟨payload, tail, rfl, rfl, hlt, rfl⟩ := exists_item_of_decode hok
    simpa using hlt
  · rintro ⟨hlt, rfl⟩
    refine ⟨_, decode_item hlt rest, ?_⟩
    simp [pure, Except.pure]

def encodeUint (x : ℕ) : Bytes := item false (trimmed x)

def decodeUint (size : ℕ) (bytes : Bytes) : Except Error (ℕ × Bytes) := do
  let digits ← takeString bytes
  if digits.1.head? = some 0 then throw .leadingZero
  if digits.1.length > size then throw .overflow
  return (beNat digits.1, digits.2)

theorem decodeUint_eq_ok {size : ℕ} (hsize : size ≤ 32) {x : ℕ} :
    decodeUint size bytes = .ok (x, rest) ↔
      x < 256 ^ size ∧ bytes = encodeUint x ++ rest := by
  simp only [decodeUint, bind_eq_ok]
  constructor
  · rintro ⟨⟨digits, after⟩, hok, hrest⟩
    simp only [guard_bind_eq_ok, not_lt] at hrest
    obtain ⟨hhead, hlength, rfl, rfl⟩ := hrest
    obtain ⟨-, rfl⟩ := takeString_eq_ok.mp hok
    refine ⟨(beNat_lt digits).trans_le (Nat.pow_le_pow_right (by norm_num) hlength), ?_⟩
    rw [encodeUint, trimmed_beNat (hlength.trans hsize) hhead]
  · rintro ⟨hlt, rfl⟩
    have hlength : (trimmed x).length ≤ size := length_trimmed_le hlt hsize
    have hwide : x < 256 ^ 32 := hlt.trans_le (Nat.pow_le_pow_right (by norm_num) hsize)
    refine ⟨(trimmed x, rest), takeString_eq_ok.mpr ⟨by omega, rfl⟩, ?_⟩
    simp only [guard_bind_eq_ok, pure_eq_ok, Prod.mk.injEq, not_lt]
    exact ⟨head?_trimmed x, hlength, beNat_trimmed hwide, trivial⟩

def decodeFixed (size : ℕ) (bytes : Bytes) : Except Error (Bytes × Bytes) := do
  let word ← takeString bytes
  if word.1.length ≠ size then throw .unexpectedLength
  return word

theorem decodeFixed_eq_ok {size : ℕ} (hsize : size < 2 ^ 64) {word : Bytes} :
    decodeFixed size bytes = .ok (word, rest) ↔
      word.length = size ∧ bytes = item false word ++ rest := by
  simp only [decodeFixed, bind_eq_ok, guard_bind_eq_ok, pure_eq_ok, not_not]
  constructor
  · rintro ⟨_, hok, hlength, rfl⟩
    exact ⟨hlength, (takeString_eq_ok.mp hok).2⟩
  · rintro ⟨hlength, rfl⟩
    exact ⟨(word, rest), takeString_eq_ok.mpr ⟨hlength ▸ hsize, rfl⟩, hlength, rfl⟩

section Machine

variable {α : Type} {w size : ℕ}

/-- A reader accepts the encodings of the valid values, and nothing else. -/
def Reads (decode : Bytes → Except Error (α × Bytes)) (encode : α → Bytes) (valid : α → Prop) :
    Prop :=
  ∀ bytes a rest, decode bytes = .ok (a, rest) ↔ valid a ∧ bytes = encode a ++ rest

/-- What a reader accepts ends where its encoding does. -/
theorem Reads.append_inj {decode : Bytes → Except Error (α × Bytes)} {encode : α → Bytes}
    {valid : α → Prop} (h : Reads decode encode valid) {a b : α} (ha : valid a) (hb : valid b)
    {rest rest' : Bytes} (heq : encode a ++ rest = encode b ++ rest') : a = b ∧ rest = rest' := by
  have hread := (h _ a rest).mpr ⟨ha, rfl⟩
  rw [heq, (h _ b rest').mpr ⟨hb, rfl⟩] at hread
  obtain ⟨hvalue, hrest⟩ := Prod.mk.inj (Except.ok.inj hread)
  exact ⟨hvalue.symm, hrest.symm⟩

def encodeWord (size : ℕ) (x : BitVec w) : Bytes := item false (beBytes size x.toNat)

def decodeWord (w size : ℕ) (bytes : Bytes) : Except Error (BitVec w × Bytes) := do
  let word ← decodeFixed size bytes
  return (BitVec.ofNat w (beNat word.1), word.2)

def encodeNumber (x : BitVec w) : Bytes := encodeUint x.toNat

def decodeNumber (w size : ℕ) (bytes : Bytes) : Except Error (BitVec w × Bytes) := do
  let number ← decodeUint size bytes
  return (BitVec.ofNat w number.1, number.2)

section

variable (hw : w = 8 * size)
include hw

theorem reads_decodeWord (hsize : size < 2 ^ 64) :
    Reads (decodeWord w size) (encodeWord size) fun _ => True := by
  subst hw
  intro bytes x rest
  simp only [decodeWord, bind_eq_ok, pure_eq_ok, Prod.exists, Prod.mk.injEq,
    decodeFixed_eq_ok hsize, encodeWord, true_and]
  constructor
  · rintro ⟨word, after, ⟨hlength, rfl⟩, rfl, rfl⟩
    rw [beBytes_ofNat_beNat hlength]
  · rintro rfl
    exact ⟨_, _, ⟨beBytes_length _ _, rfl⟩, ofNat_beNat_beBytes size x, rfl⟩

theorem reads_decodeNumber (hsize : size ≤ 32) :
    Reads (decodeNumber w size) encodeNumber fun _ => True := by
  subst hw
  intro bytes x rest
  simp only [decodeNumber, bind_eq_ok, pure_eq_ok, Prod.exists, Prod.mk.injEq,
    decodeUint_eq_ok hsize, encodeNumber, true_and]
  constructor
  · rintro ⟨number, after, ⟨hlt, rfl⟩, rfl, rfl⟩
    rw [BitVec.toNat_ofNat, Nat.mod_eq_of_lt (by rwa [two_pow_eq])]
  · rintro rfl
    refine ⟨_, _, ⟨?_, rfl⟩, ?_, rfl⟩
    · rw [← two_pow_eq]
      exact x.isLt
    · rw [BitVec.ofNat_toNat, BitVec.setWidth_eq]

end

end Machine

def takeItem (bytes : Bytes) : Option (Bytes × Bytes) :=
  match Header.decode bytes with
  | .error _ => none
  | .ok head =>
    let total := bytes.length - head.2.length + head.1.payloadLength
    if total ≤ bytes.length then some (bytes.take total, bytes.drop total) else none

theorem takeItem_item (hlt : payload.length < 2 ^ 64) (rest : Bytes) :
    takeItem (item list payload ++ rest) = some (item list payload, rest) := by
  have htotal : (item list payload ++ rest).length - (payload ++ rest).length + payload.length =
      (item list payload).length := by
    simp only [item, length_append]
    omega
  simp only [takeItem, decode_item hlt, htotal]
  rw [if_pos (by rw [length_append]; omega), take_left, drop_left]

/-- All items of some bytes, of which there are at most `fuel`. -/
def splitItems : ℕ → Bytes → Option (List Bytes)
  | _, [] => some []
  | 0, _ :: _ => none
  | fuel + 1, byte :: bytes =>
    match takeItem (byte :: bytes) with
    | none => none
    | some taken => (splitItems fuel taken.2).map (taken.1 :: ·)

def IsItem (bytes : Bytes) : Prop :=
  ∃ list payload, payload.length < 2 ^ 64 ∧ bytes = item list payload

theorem splitItems_flatten {items : List Bytes} (hitems : ∀ it ∈ items, IsItem it) {fuel : ℕ}
    (hfuel : items.length ≤ fuel) : splitItems fuel items.flatten = some items := by
  induction items generalizing fuel with
  | nil => simp [splitItems]
  | cons it items ih =>
    obtain ⟨list, payload, hlt, rfl⟩ := hitems it mem_cons_self
    cases fuel with
    | zero => simp at hfuel
    | succ fuel =>
      have hrest := ih (fun other hother => hitems other (mem_cons_of_mem _ hother))
        (Nat.le_of_succ_le_succ hfuel)
      have htake := @takeItem_item list payload hlt items.flatten
      rw [flatten_cons]
      cases hbytes : item list payload ++ items.flatten with
      | nil => exact absurd (append_eq_nil_iff.mp hbytes).1 (item_ne_nil list payload)
      | cons byte bytes =>
        rw [hbytes] at htake
        simp only [splitItems, htake, hrest, Option.map_some]

theorem IsItem.length_pos (h : IsItem bytes) : 0 < bytes.length := by
  obtain ⟨list, payload, -, rfl⟩ := h
  exact length_pos_iff.mpr (item_ne_nil list payload)

theorem length_le_length_flatten {items : List Bytes} (hitems : ∀ it ∈ items, IsItem it) :
    items.length ≤ items.flatten.length := by
  induction items with
  | nil => exact Nat.le_refl 0
  | cons it items ih =>
    have hpos := (hitems it mem_cons_self).length_pos
    have hrest := ih fun other hother => hitems other (mem_cons_of_mem it hother)
    rw [flatten_cons, length_append, length_cons]
    omega

section Concatenation

variable {α γ : Type} {encode : α → Bytes}

theorem length_flatten_map_le {as : List α} {n : ℕ} (h : ∀ a ∈ as, (encode a).length ≤ n) :
    (as.map encode).flatten.length ≤ as.length * n := by
  induction as with
  | nil => simp
  | cons a as ih =>
    have ha := h a mem_cons_self
    have has := ih fun b hb => h b (mem_cons_of_mem a hb)
    rw [map_cons, flatten_cons, length_append, length_cons, Nat.succ_mul]
    omega

/-- Encodings that can be told apart from what follows them can be concatenated: equal
concatenations come from lists that agree in the part `f` that the encodings fix. -/
theorem map_eq_of_flatten_eq {f : α → γ} {P : α → Prop} (hne : ∀ a, encode a ≠ [])
    (hsplit : ∀ a b rest rest', P a → P b → encode a ++ rest = encode b ++ rest' →
      f a = f b ∧ rest = rest')
    {as bs : List α} (has : ∀ a ∈ as, P a) (hbs : ∀ b ∈ bs, P b)
    (h : (as.map encode).flatten = (bs.map encode).flatten) : as.map f = bs.map f := by
  induction as generalizing bs with
  | nil =>
    cases bs with
    | nil => rfl
    | cons b bs => simp [hne] at h
  | cons a as ih =>
    cases bs with
    | nil => simp [hne] at h
    | cons b bs =>
      obtain ⟨hhead, htail⟩ := hsplit a b _ _ (has a mem_cons_self)
        (hbs b mem_cons_self) h
      rw [map_cons, map_cons, hhead,
        ih (fun c hc => has c (mem_cons_of_mem a hc))
          (fun c hc => hbs c (mem_cons_of_mem b hc)) htail]

end Concatenation

section Readers

variable {α : Type} {decode : Bytes → Except Error (α × Bytes)} {encode : α → Bytes}
  {valid : α → Prop}

/-- Fields behind a list header, which must be as long as it says. -/
def decodeStruct (mismatch : Error) (decodeFields : Bytes → Except Error (α × Bytes))
    (bytes : Bytes) : Except Error (α × Bytes) := do
  let head ← Header.decode bytes
  if !head.1.list then throw .unexpectedString
  let fields ← decodeFields head.2
  if head.2.length - fields.2.length ≠ head.1.payloadLength then throw mismatch
  return fields

theorem reads_decodeStruct {mismatch : Error} (h : Reads decode encode valid) :
    Reads (decodeStruct mismatch decode) (fun a => item true (encode a))
      fun a => valid a ∧ (encode a).length < 2 ^ 64 := by
  intro bytes a rest
  simp only [decodeStruct, bind_eq_ok]
  constructor
  · rintro ⟨⟨⟨list, n⟩, after⟩, hhead, hrest⟩
    simp only [guard_bind_eq_ok, bind_eq_ok, pure_eq_ok] at hrest
    obtain ⟨hlist, fields, hfields, hlength, rfl⟩ := hrest
    obtain ⟨hvalid, rfl⟩ := (h _ _ _).mp hfields
    obtain ⟨payload, tail, hsplit, hpayload, hlt, rfl⟩ := exists_item_of_decode hhead
    have hencode : encode a = payload ∧ rest = tail := by
      apply append_inj hsplit
      simp only [length_append] at hlength hpayload
      omega
    obtain ⟨rfl, rfl⟩ := hencode
    simp only [Bool.not_eq_true', Bool.not_eq_false] at hlist
    exact ⟨⟨hvalid, hlt⟩, by rw [hlist]⟩
  · rintro ⟨⟨hvalid, hlt⟩, rfl⟩
    refine ⟨_, decode_item hlt rest, ?_⟩
    simp only [guard_bind_eq_ok, bind_eq_ok]
    refine ⟨by simp, (a, rest), (h _ _ _).mpr ⟨hvalid, rfl⟩, by simp, rfl⟩

/-- The values of a payload, of which there are at most `fuel`. -/
def decodeSeq (decode : Bytes → Except Error (α × Bytes)) : ℕ → Bytes → Except Error (List α)
  | _, [] => .ok []
  | 0, _ :: _ => .error .inputTooShort
  | fuel + 1, byte :: bytes => do
    let value ← decode (byte :: bytes)
    let values ← decodeSeq decode fuel value.2
    return value.1 :: values

theorem decodeSeq_eq_ok (h : Reads decode encode valid) (hne : ∀ a, encode a ≠ []) {fuel : ℕ}
    {bytes : Bytes} {values : List α} (hfuel : bytes.length ≤ fuel) :
    decodeSeq decode fuel bytes = .ok values ↔
      (∀ a ∈ values, valid a) ∧ bytes = (values.map encode).flatten := by
  induction fuel generalizing bytes values with
  | zero =>
    obtain rfl := length_eq_zero_iff.mp (Nat.le_zero.mp hfuel)
    cases values with
    | nil => simp [decodeSeq]
    | cons a values => simp [decodeSeq, hne]
  | succ fuel ih =>
    cases bytes with
    | nil =>
      cases values with
      | nil => simp [decodeSeq]
      | cons a values => simp [decodeSeq, hne]
    | cons byte bytes =>
      simp only [decodeSeq, bind_eq_ok, pure_eq_ok, Prod.exists]
      constructor
      · rintro ⟨a, after, hvalue, tail, htail, rfl⟩
        obtain ⟨hvalid, hbytes⟩ := (h _ _ _).mp hvalue
        have hlength := congrArg List.length hbytes
        have hpos := length_pos_iff.mpr (hne a)
        rw [length_append] at hlength
        obtain ⟨hvalids, rfl⟩ := (ih (by omega)).mp htail
        refine ⟨?_, by rw [map_cons, flatten_cons, hbytes]⟩
        rintro b hb
        rcases mem_cons.mp hb with rfl | hb
        · exact hvalid
        · exact hvalids b hb
      · rintro ⟨hvalids, hbytes⟩
        cases values with
        | nil => simp at hbytes
        | cons a values =>
          rw [map_cons, flatten_cons] at hbytes
          have hlength := congrArg List.length hbytes
          have hpos := length_pos_iff.mpr (hne a)
          rw [length_append] at hlength
          refine ⟨a, _, (h _ _ _).mpr ⟨hvalids a mem_cons_self, hbytes⟩, values, ?_, rfl⟩
          exact (ih (by omega)).mpr
            ⟨fun b hb => hvalids b (mem_cons_of_mem a hb), rfl⟩

def decodeVec (decode : Bytes → Except Error (α × Bytes)) (bytes : Bytes) :
    Except Error (List α × Bytes) := do
  let head ← Header.decode bytes
  if !head.1.list then throw .unexpectedString
  let payload := head.2.take head.1.payloadLength
  let values ← decodeSeq decode payload.length payload
  return (values, head.2.drop head.1.payloadLength)

theorem reads_decodeVec (h : Reads decode encode valid) (hne : ∀ a, encode a ≠ []) :
    Reads (decodeVec decode) (fun values => item true (values.map encode).flatten)
      fun values => (∀ a ∈ values, valid a) ∧ (values.map encode).flatten.length < 2 ^ 64 := by
  intro bytes values rest
  simp only [decodeVec, bind_eq_ok]
  constructor
  · rintro ⟨⟨⟨list, n⟩, after⟩, hhead, hrest⟩
    simp only [guard_bind_eq_ok, bind_eq_ok] at hrest
    obtain ⟨hlist, _, hvalues, rfl, rfl⟩ := hrest
    obtain ⟨payload, tail, rfl, rfl, hlt, rfl⟩ := exists_item_of_decode hhead
    rw [take_left] at hvalues
    obtain ⟨hvalids, rfl⟩ := (decodeSeq_eq_ok h hne (Nat.le_refl _)).mp hvalues
    simp only [Bool.not_eq_true', Bool.not_eq_false] at hlist
    rw [hlist, drop_left]
    exact ⟨⟨hvalids, hlt⟩, rfl⟩
  · rintro ⟨⟨hvalids, hlt⟩, rfl⟩
    refine ⟨_, decode_item hlt rest, ?_⟩
    simp only [guard_bind_eq_ok, bind_eq_ok, pure_eq_ok, Prod.mk.injEq, take_left,
      drop_left]
    exact ⟨by simp, values, (decodeSeq_eq_ok h hne (Nat.le_refl _)).mpr ⟨hvalids, rfl⟩, rfl,
      trivial⟩

end Readers

end Lib.Rlp
