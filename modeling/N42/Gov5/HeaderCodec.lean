import N42.Gov5.NativeHeader

/-!
Which byte strings the native header decoder accepts, what they decode to, and what that encodes
to: the decoder accepts exactly the written headers, up to placeholders of hashes at the end.
-/

namespace N42.Gov5

open Lib List Option OptionalField Rlp

theorem named_eq_ok {α : Type} {name : String} {x : Except FieldError α} {a : α} :
    named name x = .ok a ↔ x = .ok a := mapError_eq_ok

section Fields

variable {w size : ℕ} {buf rest : Bytes}

variable {x : BitVec w}

section

variable (hw : w = 8 * size)
include hw

theorem decodeWord_eq_ok (hsize : size < 2 ^ 64) :
    decodeWord w size buf = .ok (x, rest) ↔ buf = encodeWord size x ++ rest := by
  rw [decodeWord, mapError_eq_ok, reads_decodeWord hw hsize buf x rest, true_and]

theorem decodeNumber_eq_ok (hsize : size ≤ 32) :
    decodeNumber w size buf = .ok (x, rest) ↔ buf = encodeNumber x ++ rest := by
  rw [decodeNumber, mapError_eq_ok, reads_decodeNumber hw hsize buf x rest, true_and]

end

theorem decodeBuffer_eq_ok {x : Buffer} :
    decodeBuffer buf = .ok (x, rest) ↔ buf = encodeBuffer x ++ rest := by
  simp only [decodeBuffer, bind_eq_ok, mapError_eq_ok, Prod.exists, takeString_eq_ok]
  constructor
  · rintro ⟨bytes, after, ⟨-, rfl⟩, hok⟩
    split at hok
    · obtain ⟨rfl, rfl⟩ := Prod.mk.inj (pure_eq_ok.mp hok)
      rfl
    · cases hok
  · rintro rfl
    have hlt := x.length_lt
    refine ⟨x.bytes, rest, ⟨by omega, rfl⟩, ?_⟩
    rw [dif_pos hlt]
    rfl

end Fields

/-- A header with the first fifteen fields of another and no optional one. -/
def Header.bare (h : Header) : Header :=
  { h with
    baseFeePerGas := none
    withdrawalsRoot := none
    blobGasUsed := none
    excessBlobGas := none
    parentBeaconBlockRoot := none
    requestsHash := none
    blockAccessListHash := none
    slotNumber := none }

theorem decodeRequired_eq_ok {buf rest : Bytes} {h : Header} :
    Header.decodeRequired buf = .ok (h, rest) ↔
      h = h.bare ∧ buf = h.requiredItems.flatten ++ rest := by
  have h256 : (256 : ℕ) = 8 * 32 := rfl
  have h160 : (160 : ℕ) = 8 * 20 := rfl
  have h2048 : (2048 : ℕ) = 8 * 256 := rfl
  have h64 : (64 : ℕ) = 8 * 8 := rfl
  have hword : ∀ size, size ≤ 256 → size < 2 ^ 64 := by
    intro size hsize
    omega
  simp only [Header.decodeRequired, bind_eq_ok, named_eq_ok, pure_eq_ok, Prod.exists,
    Prod.mk.injEq, decodeWord_eq_ok h256 (hword 32 (by norm_num)),
    decodeWord_eq_ok h160 (hword 20 (by norm_num)),
    decodeWord_eq_ok h2048 (hword 256 (by norm_num)),
    decodeWord_eq_ok h64 (hword 8 (by norm_num)), decodeNumber_eq_ok h256 (le_refl 32),
    decodeNumber_eq_ok h64 (show 8 ≤ 32 by norm_num), decodeBuffer_eq_ok]
  constructor
  · rintro ⟨_, _, h₁, _, _, h₂, _, _, h₃, _, _, h₄, _, _, h₅, _, _, h₆, _, _, h₇, _, _, h₈, _, _, h₉,
      _, _, h₁₀, _, _, h₁₁, _, _, h₁₂, _, _, h₁₃, _, _, h₁₄, _, _, h₁₅, rfl, rfl⟩
    refine ⟨rfl, ?_⟩
    simp [Header.requiredItems, h₁, h₂, h₃, h₄, h₅, h₆, h₇, h₈, h₉, h₁₀, h₁₁, h₁₂, h₁₃, h₁₄, h₁₅]
  · rintro ⟨hbare, hbuf⟩
    refine ⟨h.parentHash, _, by simp only [hbuf, Header.requiredItems, flatten_cons, append_assoc,
      flatten_nil, nil_append], h.ommersHash, _, rfl, h.beneficiary, _, rfl, h.stateRoot, _, rfl,
      h.transactionsRoot, _, rfl, h.receiptsRoot, _, rfl, h.logsBloom, _, rfl, h.difficulty, _, rfl,
      h.number, _, rfl, h.gasLimit, _, rfl, h.gasUsed, _, rfl, h.timestamp, _, rfl, h.extraData, _,
      rfl, h.mixHash, _, rfl, h.nonce, _, rfl, hbare.symm, rfl⟩

section Optional

variable {buf rest : Bytes}

def encodeOptional (value : Option Bytes) : Bytes := Rlp.item false (value.getD [])

theorem item_nil : Rlp.item false [] = [0x80] := by decide

theorem takeOptionalItem_eq_ok {value : Option Bytes} :
    takeOptionalItem buf = .ok (value, rest) ↔
      value ≠ some [] ∧ (value.getD []).length < 2 ^ 64 ∧ buf = encodeOptional value ++ rest := by
  simp only [takeOptionalItem, bind_eq_ok, mapError_eq_ok, Prod.exists, guard_bind_eq_ok,
    Bool.not_eq_true]
  constructor
  · rintro ⟨⟨list, n⟩, after, hdecode, rfl, hok⟩
    obtain ⟨payload, tail, rfl, rfl, hlt, rfl⟩ := exists_item_of_decode hdecode
    by_cases hnil : payload = []
    · subst hnil
      obtain ⟨rfl, rfl⟩ := Prod.mk.inj (pure_eq_ok.mp hok)
      exact ⟨by simp, by simp, rfl⟩
    · rw [if_neg (by simpa using hnil), if_pos (by simp)] at hok
      simp only [take_left, drop_left] at hok
      obtain ⟨rfl, rfl⟩ := hok
      exact ⟨by simpa using hnil, hlt, rfl⟩
  · rintro ⟨hne, hlt, rfl⟩
    refine ⟨_, _, decode_item hlt rest, rfl, ?_⟩
    cases value with
    | none => rfl
    | some payload =>
      have hnil : payload.length ≠ 0 := by simpa using hne
      simp [hnil, pure, Except.pure]

theorem optionalHash_eq_ok {value : Option B256} :
    optionalHash buf = .ok (value, rest) ↔ buf = (OptionalField.hash value).encode ++ rest := by
  simp only [optionalHash, bind_eq_ok, Prod.exists, takeOptionalItem_eq_ok]
  constructor
  · rintro ⟨taken, after, ⟨hne, hlt, rfl⟩, hok⟩
    cases taken with
    | none =>
      obtain ⟨rfl, rfl⟩ := Prod.mk.inj (pure_eq_ok.mp hok)
      rfl
    | some item =>
      simp only at hok
      split at hok
      · next hlength =>
        obtain ⟨rfl, rfl⟩ := Prod.mk.inj (pure_eq_ok.mp hok)
        exact congrArg (Rlp.item false · ++ after) (beBytes_ofNat_beNat hlength).symm
      · cases hok
  · rintro rfl
    cases value with
    | none =>
      refine ⟨none, rest, ⟨by simp, by simp, ?_⟩, rfl⟩
      rfl
    | some hash =>
      have hlength : (beBytes 32 hash.toNat).length = 32 := beBytes_length _ _
      refine ⟨some (beBytes 32 hash.toNat), rest, ⟨?_, ?_, rfl⟩, ?_⟩
      · intro hnil
        rw [Option.some.inj hnil] at hlength
        cases hlength
      · simp
      · simp only [hlength, if_true, pure_eq_ok]
        rw [ofNat_beNat_beBytes 32 hash]

theorem toNat_shiftIn {value : BitVec 64} (hvalue : value.toNat < 256 ^ 7) (byte : UInt8) :
    (shiftIn value byte).toNat = value.toNat * 256 + byte.toNat := by
  have hbyte : byte.toNat < 2 ^ 8 := byte.toNat_lt
  have hshift : value.toNat <<< 8 < 2 ^ 64 := by
    omega
  rw [shiftIn, BitVec.toNat_or, BitVec.toNat_shiftLeft, BitVec.toNat_ofNat, Nat.mod_eq_of_lt hshift,
    Nat.mod_eq_of_lt (hbyte.trans (by norm_num)), ← Nat.shiftLeft_add_eq_or_of_lt hbyte,
    Nat.shiftLeft_eq]

theorem toNat_foldl_shiftIn {digits : Bytes} {value : BitVec 64} {n : ℕ}
    (hvalue : value.toNat < 256 ^ n) (hn : n + digits.length ≤ 8) :
    (digits.foldl shiftIn value).toNat =
      value.toNat * 256 ^ digits.length + beNat digits := by
  induction digits generalizing value n with
  | nil => simp [beNat, leNat]
  | cons byte digits ih =>
    rw [length_cons] at hn
    have hseven : value.toNat < 256 ^ 7 :=
      hvalue.trans_le (Nat.pow_le_pow_right (by norm_num) (by omega))
    have hbyte : byte.toNat < 256 := byte.toNat_lt
    have hnext := toNat_shiftIn hseven byte
    rw [foldl_cons, ih (n := n + 1) (by omega) (by omega), hnext,
      beNat_cons, length_cons]
    ring

theorem optionalU64_eq_ok {x : BitVec 64} :
    (∃ value, optionalU64 buf = .ok (value, rest) ∧ value.getD 0 = x) ↔
      buf = (OptionalField.u64 (some x)).encode ++ rest := by
  have h64 : (256 : ℕ) ^ 8 = 2 ^ 64 := by norm_num
  simp only [optionalU64, bind_eq_ok, Prod.exists, takeOptionalItem_eq_ok, encode,
    encodeNumber, encodeUint]
  constructor
  · rintro ⟨value, ⟨taken, after, ⟨hne, hlt, rfl⟩, hok⟩, hx⟩
    cases taken with
    | none =>
      obtain ⟨rfl, rfl⟩ := Prod.mk.inj (pure_eq_ok.mp hok)
      obtain rfl : 0 = x := hx
      rfl
    | some digits =>
      simp only at hok
      split at hok
      · cases hok
      next hdigits =>
      obtain ⟨rfl, rfl⟩ := Prod.mk.inj (pure_eq_ok.mp hok)
      rw [not_or] at hdigits
      have hvalue := @toNat_foldl_shiftIn digits 0 0 (by decide)
        (by omega)
      rw [← hx, getD_some, hvalue]
      rw [show (0 : BitVec 64).toNat = 0 from rfl, Nat.zero_mul, Nat.zero_add,
        trimmed_beNat (by omega) hdigits.2]
      rfl
  · rintro rfl
    have hx : x.toNat < 256 ^ 32 := x.isLt.trans (by norm_num)
    have hlength : (trimmed x.toNat).length ≤ 8 :=
      length_trimmed_le (x.isLt.trans_eq h64.symm) (by norm_num)
    by_cases hnil : trimmed x.toNat = []
    · refine ⟨none, ⟨none, rest, ⟨by simp, by simp, by rw [hnil]; rfl⟩, rfl⟩, ?_⟩
      have hzero := beNat_trimmed hx
      rw [hnil] at hzero
      exact BitVec.eq_of_toNat_eq hzero
    · refine ⟨some ((trimmed x.toNat).foldl shiftIn 0),
        ⟨some (trimmed x.toNat), rest, ⟨?_, ?_, rfl⟩, ?_⟩, ?_⟩
      · exact fun h => hnil (Option.some.inj h)
      · rw [getD_some]
        omega
      · simp only
        rw [if_neg]
        · rfl
        · rintro (hlong | hhead)
          · omega
          · exact head?_trimmed _ hhead
      · apply BitVec.eq_of_toNat_eq
        rw [getD_some, toNat_foldl_shiftIn (n := 0) (by decide) (by omega),
          beNat_trimmed hx]
        simp

/-- What is read into a slot: a set integer, or a hash that may be unset. -/
def Slot.Reads (slot : Slot) : OptionalField → Prop
  | .u64 value => slot.isInteger = true ∧ value.isSome = true
  | .hash _ => slot.isInteger = false

theorem Slot.read_eq_ok {slot : Slot} {field : OptionalField} :
    slot.read buf = .ok (field, rest) ↔ slot.Reads field ∧ buf = field.encode ++ rest := by
  unfold Slot.read
  cases hslot : slot.isInteger with
  | true =>
    simp only [if_true, bind_eq_ok, named_eq_ok, pure_eq_ok, Prod.exists, Prod.mk.injEq]
    constructor
    · rintro ⟨value, after, hok, rfl, rfl⟩
      exact ⟨⟨hslot, rfl⟩, optionalU64_eq_ok.mp ⟨value, hok, rfl⟩⟩
    · rintro ⟨hreads, hbuf⟩
      cases field with
      | u64 value =>
        obtain ⟨x, rfl⟩ := isSome_iff_exists.mp hreads.2
        obtain ⟨value, hok, rfl⟩ := optionalU64_eq_ok.mpr hbuf
        exact ⟨value, rest, hok, rfl, rfl⟩
      | hash value => exact absurd (hslot.symm.trans hreads) (by decide)
  | false =>
    simp only [Bool.false_eq_true, if_false, bind_eq_ok, named_eq_ok, pure_eq_ok, Prod.exists,
      Prod.mk.injEq]
    constructor
    · rintro ⟨value, after, hok, rfl, rfl⟩
      exact ⟨hslot, optionalHash_eq_ok.mp hok⟩
    · rintro ⟨hreads, hbuf⟩
      cases field with
      | u64 value => exact absurd (hslot.symm.trans hreads.1) (by decide)
      | hash value => exact ⟨value, rest, optionalHash_eq_ok.mpr hbuf, rfl, rfl⟩

def Written : List Slot → List OptionalField → Prop
  | _, [] => True
  | [], _ :: _ => False
  | slot :: slots, field :: fields => slot.Reads field ∧ Written slots fields

def putAll (h : Gov5NativeHeader) : List Slot → List OptionalField → Gov5NativeHeader
  | slot :: slots, field :: fields => putAll (slot.put h field) slots fields
  | _, _ => h

theorem OptionalField.encode_ne_nil (field : OptionalField) : field.encode ≠ [] := by
  rcases field with (_ | value) | (_ | value)
  · simp [encode]
  · exact item_ne_nil _ _
  · simp [encode]
  · exact item_ne_nil _ _

theorem decodeOptional_eq_ok {h h' : Gov5NativeHeader} {slots : List Slot} :
    decodeOptional h slots buf = .ok h' ↔
      ∃ fields, Written slots fields ∧ buf = (fields.map OptionalField.encode).flatten ∧
        h' = putAll h slots fields := by
  induction slots generalizing h buf with
  | nil =>
    rw [decodeOptional]
    constructor
    · intro hok
      split at hok
      · next hnil =>
        obtain rfl := Except.ok.inj hok
        exact ⟨[], trivial, hnil, rfl⟩
      · cases hok
    · rintro ⟨fields, hwritten, rfl, rfl⟩
      cases fields with
      | nil => rfl
      | cons field fields => exact hwritten.elim
  | cons slot slots ih =>
    rw [decodeOptional]
    constructor
    · intro hok
      split at hok
      · next hnil =>
        obtain rfl := Except.ok.inj hok
        exact ⟨[], trivial, hnil, rfl⟩
      · obtain ⟨⟨field, rest⟩, hread, hrest⟩ := bind_eq_ok.mp hok
        obtain ⟨hreads, rfl⟩ := Slot.read_eq_ok.mp hread
        obtain ⟨fields, hwritten, rfl, rfl⟩ := ih.mp hrest
        exact ⟨field :: fields, ⟨hreads, hwritten⟩, rfl, rfl⟩
    · rintro ⟨fields, hwritten, rfl, rfl⟩
      cases fields with
      | nil => rfl
      | cons field fields =>
        have hne : (List.map encode (field :: fields)).flatten ≠ [] := by
          intro hnil
          exact field.encode_ne_nil (append_eq_nil_iff.mp hnil).1
        rw [if_neg hne]
        refine bind_eq_ok.mpr ⟨(field, _), Slot.read_eq_ok.mpr ⟨hwritten.1, rfl⟩, ?_⟩
        exact ih.mpr ⟨fields, hwritten.2, rfl, rfl⟩

end Optional

section Slots

variable {h : Gov5NativeHeader} {slot other : Slot} {field : OptionalField}

theorem Slot.get_put (hreads : slot.Reads field) : Slot.get (slot.put h field) slot = field := by
  cases slot <;> cases field <;>
    first | rfl | exact absurd hreads (by simp [Slot.Reads, Slot.isInteger])

theorem Slot.get_put_of_ne (hne : other ≠ slot) :
    Slot.get (slot.put h field) other = Slot.get h other := by
  cases slot <;> cases field <;> cases other <;> first | rfl | exact absurd rfl hne

theorem Slot.bare_put : (slot.put h field).header.bare = h.header.bare := by
  cases slot <;> cases field <;> rfl

theorem Slot.slotNumber_put : (slot.put h field).header.slotNumber = h.header.slotNumber := by
  cases slot <;> cases field <;> rfl

variable {slots : List Slot} {fields : List OptionalField}

theorem get_putAll_of_notMem (fields : List OptionalField) (hslot : slot ∉ slots) :
    Slot.get (putAll h slots fields) slot = Slot.get h slot := by
  induction slots generalizing h fields with
  | nil => rfl
  | cons first slots ih =>
    obtain ⟨hne, hrest⟩ := not_or.mp (mt mem_cons.mpr hslot)
    cases fields with
    | nil => rfl
    | cons field fields => rw [putAll, ih fields hrest, Slot.get_put_of_ne hne]

theorem map_get_putAll (hnodup : slots.Nodup) (hwritten : Written slots fields) :
    slots.map (Slot.get (putAll h slots fields)) =
      fields ++ (slots.drop fields.length).map (Slot.get h) := by
  induction slots generalizing h fields with
  | nil =>
    cases fields with
    | nil => rfl
    | cons field fields => exact hwritten.elim
  | cons slot slots ih =>
    cases fields with
    | nil => rfl
    | cons field fields =>
      obtain ⟨hslot, hslots⟩ := nodup_cons.mp hnodup
      have hrest : (slots.drop fields.length).map (Slot.get (slot.put h field)) =
          (slots.drop fields.length).map (Slot.get h) := by
        apply map_congr_left
        intro other hother
        apply Slot.get_put_of_ne
        rintro rfl
        exact hslot (mem_of_mem_drop hother)
      rw [map_cons, putAll, get_putAll_of_notMem fields hslot, Slot.get_put hwritten.1,
        ih hslots hwritten.2, hrest]
      rfl

theorem bare_putAll : (putAll h slots fields).header.bare = h.header.bare := by
  induction slots generalizing h fields with
  | nil => rfl
  | cons slot slots ih =>
    cases fields with
    | nil => rfl
    | cons field fields => rw [putAll, ih, Slot.bare_put]

theorem slotNumber_putAll : (putAll h slots fields).header.slotNumber = h.header.slotNumber := by
  induction slots generalizing h fields with
  | nil => rfl
  | cons slot slots ih =>
    cases fields with
    | nil => rfl
    | cons field fields => rw [putAll, ih, Slot.slotNumber_put]

theorem Gov5NativeHeader.ext_fields {a b : Gov5NativeHeader}
    (hbare : a.header.bare = b.header.bare) (hnumber : a.header.slotNumber = b.header.slotNumber)
    (hfields : a.optionalFields = b.optionalFields) : a = b := by
  obtain ⟨⟨_, _, _, _, _, _, _, _, _, _, _, _, _, _, _, _, _, _, _, _, _, _, _⟩, _⟩ := a
  simp only [Header.bare, Gov5NativeHeader.optionalFields, Slot.all, Slot.get,
    map_cons] at *
  simp_all

end Slots

end N42.Gov5
