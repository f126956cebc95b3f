import N42.Gov5.HeaderCodec
import Mathlib.Tactic.IntervalCases

/-!
Native headers read and written again: the bytes come back, unless they end in the placeholder of a
hash, and the header comes back, with zero for an unset integer that had to be written.
-/

namespace N42.Gov5

open Lib List Gov5NativeHeader Slot
open Rlp (encodeWord encodeNumber)

def payloadItems (raw : Bytes) : Option (List Bytes) :=
  match Rlp.Header.decode raw with
  | .error _ => none
  | .ok head => Rlp.splitItems head.2.length head.2

/-- The last optional field that is written, which are the items from the sixteenth on, is an empty
string, and its place is not one of the three of integers. -/
def EndsInPlaceholder (raw : Bytes) : Prop :=
  ∃ items, payloadItems raw = some items ∧ 15 < items.length ∧ items.getLast? = some [0x80] ∧
    items.length - 16 ∉ [0, 2, 3]

/-- An unset integer before a field that is written is written as zero. -/
def Gov5NativeHeader.fillIntegers (h : Gov5NativeHeader) : Gov5NativeHeader :=
  let fill (i : ℕ) (value : Option (BitVec 64)) : Option (BitVec 64) :=
    if i < h.writtenOptionalCount then some (value.getD 0) else value
  { h with
    header.baseFeePerGas := fill 0 h.header.baseFeePerGas
    header.blobGasUsed := fill 2 h.header.blobGasUsed
    header.excessBlobGas := fill 3 h.header.excessBlobGas }

theorem isItem_word {w size : ℕ} (hsize : size < 2 ^ 64) (x : BitVec w) :
    Rlp.IsItem (encodeWord size x) := ⟨false, _, by simpa using hsize, rfl⟩

theorem isItem_number {w : ℕ} (x : BitVec w) (hw : w ≤ 256) : Rlp.IsItem (encodeNumber x) := by
  have hlt : x.toNat < 256 ^ 32 :=
    x.isLt.trans_le ((Nat.pow_le_pow_right (by norm_num) hw).trans (by norm_num))
  have hlength := Rlp.length_trimmed_le hlt (le_refl 32)
  exact ⟨false, _, by omega, rfl⟩

theorem isItem_buffer (x : Buffer) : Rlp.IsItem (encodeBuffer x) := by
  have hlt := x.length_lt
  exact ⟨false, _, by omega, rfl⟩

theorem OptionalField.isItem_encode (field : OptionalField) : Rlp.IsItem field.encode := by
  rcases field with (_ | value) | (_ | value)
  · exact ⟨false, [], by norm_num, item_nil.symm⟩
  · exact isItem_number value (by norm_num)
  · exact ⟨false, [], by norm_num, item_nil.symm⟩
  · exact isItem_word (by norm_num) value

theorem Header.isItem_requiredItems (h : Header) : ∀ it ∈ h.requiredItems, Rlp.IsItem it := by
  have hword : ∀ {w : ℕ} (size : ℕ) (x : BitVec w), size ≤ 256 → Rlp.IsItem (encodeWord size x) :=
    fun size x hsize => isItem_word (by omega) x
  simp only [Header.requiredItems, forall_mem_cons]
  refine ⟨hword 32 _ (by norm_num), hword 32 _ (by norm_num), hword 20 _ (by norm_num),
    hword 32 _ (by norm_num), hword 32 _ (by norm_num), hword 32 _ (by norm_num),
    hword 256 _ (by norm_num), isItem_number _ (by norm_num), isItem_number _ (by norm_num),
    isItem_number _ (by norm_num), isItem_number _ (by norm_num), isItem_number _ (by norm_num),
    isItem_buffer _, hword 32 _ (by norm_num), hword 8 _ (by norm_num), ?_⟩
  intro it hit
  cases hit

theorem encode_eq_item (h : Gov5NativeHeader) : h.encode = Rlp.item true h.items.flatten := by
  rw [encode, Rlp.item, Rlp.lead_list, payloadLength,
    length_flatten]

variable {h : Gov5NativeHeader} {field : OptionalField} {fields : List OptionalField}
  {base : Header} {slot : Slot}

theorem decode_eq_ok {raw : Bytes} :
    Gov5NativeHeader.decode raw = .ok h ↔
      ∃ base fields, base = base.bare ∧ Written Slot.all fields ∧
        h = putAll ⟨base, none⟩ Slot.all fields ∧
        (base.requiredItems ++ fields.map OptionalField.encode).flatten.length < 2 ^ 64 ∧
        raw = Rlp.item true (base.requiredItems ++ fields.map OptionalField.encode).flatten := by
  simp only [decode, bind_eq_ok, named_eq_ok, mapError_eq_ok, guard_bind_eq_ok,
    Bool.not_eq_false, not_not, Prod.exists, decodeRequired_eq_ok, decodeOptional_eq_ok,
    flatten_append]
  constructor
  · rintro ⟨⟨list, n⟩, payload, hhead, rfl, hlength, base, rest, ⟨hbare, hpayload⟩, fields, hwritten,
      hrest, hh⟩
    obtain ⟨content, after, hcontent, hn, hlt, hraw⟩ := Rlp.exists_item_of_decode hhead
    have hafter : after = [] := by
      have hsum := congrArg List.length hcontent
      rw [hlength, length_append, hn] at hsum
      exact length_eq_zero_iff.mp (Nat.left_eq_add.mp hsum)
    subst hafter
    rw [append_nil] at hcontent hraw
    refine ⟨base, fields, hbare, hwritten, hh, ?_⟩
    rw [← hrest, ← hpayload, hcontent]
    exact ⟨hlt, hraw⟩
  · rintro ⟨base, fields, hbare, hwritten, hh, hlt, hraw⟩
    have hhead := @Rlp.decode_item true _ hlt []
    rw [append_nil, append_nil] at hhead
    rw [hraw]
    exact ⟨_, _, hhead, rfl, rfl, base, _, ⟨hbare, rfl⟩, fields, hwritten, rfl, hh⟩

theorem Written.getElem? {slots : List Slot} (h : Written slots fields) {i : ℕ}
    (hfield : fields[i]? = some field) : ∃ slot, slots[i]? = some slot ∧ slot.Reads field := by
  induction slots generalizing fields i with
  | nil =>
    cases fields with
    | nil => cases hfield
    | cons first fields => exact h.elim
  | cons slot slots ih =>
    cases fields with
    | nil => cases hfield
    | cons first fields =>
      cases i with
      | zero =>
        obtain rfl : first = field := by simpa using hfield
        exact ⟨slot, rfl, h.1⟩
      | succ i => exact ih h.2 (by simpa using hfield)

theorem Written.length_le {slots : List Slot} (h : Written slots fields) :
    fields.length ≤ slots.length := by
  by_contra hlong
  obtain ⟨slot, hslot, -⟩ := h.getElem? (getElem?_eq_getElem (Nat.lt_of_not_le hlong))
  rw [getElem?_eq_none (Nat.le_refl _)] at hslot
  cases hslot

theorem Slot.nodup_all : Slot.all.Nodup := by decide

theorem optionalFields_putAll (hwritten : Written Slot.all fields) :
    (putAll ⟨base, none⟩ Slot.all fields).optionalFields =
      fields ++ (Slot.all.drop fields.length).map (Slot.get ⟨base, none⟩) :=
  map_get_putAll nodup_all hwritten

theorem Slot.isSome_get_bare (base : Header) (slot : Slot) :
    (Slot.get ⟨base.bare, none⟩ slot).isSome = false := by
  cases slot <;> rfl

theorem Slot.get_of_isSome_eq_false (hnone : (Slot.get h slot).isSome = false) :
    Slot.get h slot = Slot.get ⟨h.header.bare, none⟩ slot := by
  cases slot <;> simpa [get, OptionalField.isSome, Header.bare] using hnone

theorem take_writtenOptionalCount (h : Gov5NativeHeader) :
    h.optionalFields.take h.writtenOptionalCount =
      h.optionalFields.rdropWhile fun field => !field.isSome :=
  (prefix_iff_eq_take.mp (List.rdropWhile_prefix _ _)).symm

theorem rdropWhile_append_of_all {α : Type} {p : α → Bool} (l : List α) {tail : List α}
    (htail : ∀ x ∈ tail, p x = true) : (l ++ tail).rdropWhile p = l.rdropWhile p := by
  rw [List.rdropWhile, reverse_append, dropWhile_append_of_pos]
  · rfl
  · intro x hx
    exact htail x (mem_reverse.mp hx)

theorem drop_rdropWhile {α : Type} (p : α → Bool) (l : List α) :
    l.drop (l.rdropWhile p).length = l.rtakeWhile p := by
  have hsplit : l.rdropWhile p ++ l.rtakeWhile p = l := rdropWhile_append_rtakeWhile
  calc l.drop (l.rdropWhile p).length
      = (l.rdropWhile p ++ l.rtakeWhile p).drop (l.rdropWhile p).length := by rw [hsplit]
    _ = l.rtakeWhile p := drop_left

theorem take_optionalFields_putAll (hbare : base = base.bare) (hwritten : Written Slot.all fields) :
    (putAll ⟨base, none⟩ Slot.all fields).optionalFields.take
        (putAll ⟨base, none⟩ Slot.all fields).writtenOptionalCount =
      fields.rdropWhile fun field => !field.isSome := by
  rw [take_writtenOptionalCount, optionalFields_putAll hwritten, rdropWhile_append_of_all]
  intro field hfield
  obtain ⟨slot, -, rfl⟩ := mem_map.mp hfield
  rw [hbare, isSome_get_bare]
  rfl

theorem items_putAll (hbare : base = base.bare) (hwritten : Written Slot.all fields) :
    (putAll ⟨base, none⟩ Slot.all fields).items = base.requiredItems ++
      (fields.rdropWhile fun field => !field.isSome).map OptionalField.encode := by
  have hrequired : (putAll ⟨base, none⟩ all fields).header.requiredItems =
      base.requiredItems := by
    have hsame : (putAll ⟨base, none⟩ all fields).header.bare = base.bare := bare_putAll
    calc (putAll ⟨base, none⟩ all fields).header.requiredItems
        = (putAll ⟨base, none⟩ all fields).header.bare.requiredItems := rfl
      _ = base.bare.requiredItems := by rw [hsame]
      _ = base.requiredItems := rfl
  rw [items, hrequired, take_optionalFields_putAll hbare hwritten]

def OptionalField.filled : OptionalField → OptionalField
  | .u64 value => .u64 (some (value.getD 0))
  | .hash value => .hash value

theorem OptionalField.encode_filled (field : OptionalField) :
    field.filled.encode = field.encode := by
  rcases field with (_ | value) | (_ | value)
  · exact item_nil
  · rfl
  · rfl
  · rfl

theorem Slot.reads_filled (h : Gov5NativeHeader) (slot : Slot) :
    slot.Reads (Slot.get h slot).filled := by
  cases slot <;> first | rfl | exact ⟨rfl, rfl⟩

theorem written_take (h : Gov5NativeHeader) (slots : List Slot) (n : ℕ) :
    Written slots (((slots.map (Slot.get h)).take n).map OptionalField.filled) := by
  induction slots generalizing n with
  | nil => cases n <;> exact trivial
  | cons slot slots ih =>
    cases n with
    | zero => exact trivial
    | succ n => exact ⟨reads_filled h slot, ih n⟩

theorem optionalFields_fillIntegers (h : Gov5NativeHeader) :
    h.fillIntegers.optionalFields =
      (h.optionalFields.take h.writtenOptionalCount).map OptionalField.filled ++
        h.optionalFields.drop h.writtenOptionalCount := by
  have hcount : h.writtenOptionalCount ≤ 8 := (List.rdropWhile_prefix _ _).length_le
  unfold fillIntegers
  generalize h.writtenOptionalCount = n at hcount
  interval_cases n <;> rfl

theorem putAll_filled (hslot : h.header.slotNumber = none) :
    putAll ⟨h.header.bare, none⟩ Slot.all
        ((h.optionalFields.take h.writtenOptionalCount).map OptionalField.filled) =
      h.fillIntegers := by
  have hwritten : Written all
      ((h.optionalFields.take h.writtenOptionalCount).map OptionalField.filled) :=
    written_take h all _
  have hcount : h.writtenOptionalCount ≤ h.optionalFields.length :=
    (List.rdropWhile_prefix _ _).length_le
  have hlength : ((h.optionalFields.take h.writtenOptionalCount).map
      OptionalField.filled).length = h.writtenOptionalCount := by
    rw [length_map, length_take_of_le hcount]
  -- behind the last field that is set there is nothing to read
  have hunset : ∀ field ∈ h.optionalFields.drop h.writtenOptionalCount,
      field.isSome = false := by
    intro field hfield
    rw [writtenOptionalCount, drop_rdropWhile] at hfield
    simpa using mem_rtakeWhile_imp hfield
  apply ext_fields
  · exact bare_putAll
  · rw [slotNumber_putAll]
    exact hslot.symm
  · rw [optionalFields_putAll hwritten, optionalFields_fillIntegers, hlength]
    congr 1
    rw [optionalFields, ← map_drop]
    apply map_congr_left
    intro slot hmem
    refine (get_of_isSome_eq_false (hunset _ ?_)).symm
    rw [optionalFields, ← map_drop]
    exact mem_map_of_mem hmem

theorem length_encodeWord_le {w size : ℕ} (hsize : size ≤ 256) (x : BitVec w) :
    (encodeWord size x).length ≤ 265 := by
  have hitem := @Rlp.length_item_le (beBytes size x.toNat) false (by simp; omega)
  rw [beBytes_length] at hitem
  exact hitem.trans (by omega)

theorem length_encodeNumber_le {w : ℕ} (hw : w ≤ 256) (x : BitVec w) :
    (encodeNumber x).length ≤ 41 := by
  have hlt : x.toNat < 256 ^ 32 :=
    x.isLt.trans_le ((Nat.pow_le_pow_right (by norm_num) hw).trans (by norm_num))
  have hlength := Rlp.length_trimmed_le hlt (le_refl 32)
  exact (Rlp.length_item_le false (by omega)).trans (by omega)

theorem OptionalField.length_encode_le (field : OptionalField) : field.encode.length ≤ 265 := by
  rcases field with (_ | value) | (_ | value)
  · simp [OptionalField.encode]
  · exact (length_encodeNumber_le (by norm_num) value).trans (by norm_num)
  · simp [OptionalField.encode]
  · exact length_encodeWord_le (by norm_num) value

theorem length_requiredItems_le (h : Header) :
    h.requiredItems.flatten.length ≤ h.extraData.bytes.length + 9 + 14 * 265 := by
  have hlt := h.extraData.length_lt
  have hextra : (encodeBuffer h.extraData).length ≤ h.extraData.bytes.length + 9 :=
    Rlp.length_item_le false (by omega)
  have hnumber : ∀ {w : ℕ} (x : BitVec w), w ≤ 256 → (encodeNumber x).length ≤ 265 :=
    fun x hw => (length_encodeNumber_le hw x).trans (by norm_num)
  simp only [Header.requiredItems, flatten_cons, flatten_nil, length_append,
    length_nil]
  linarith [length_encodeWord_le (show 32 ≤ 256 by norm_num) h.parentHash,
    length_encodeWord_le (show 32 ≤ 256 by norm_num) h.ommersHash,
    length_encodeWord_le (show 20 ≤ 256 by norm_num) h.beneficiary,
    length_encodeWord_le (show 32 ≤ 256 by norm_num) h.stateRoot,
    length_encodeWord_le (show 32 ≤ 256 by norm_num) h.transactionsRoot,
    length_encodeWord_le (show 32 ≤ 256 by norm_num) h.receiptsRoot,
    length_encodeWord_le (show 256 ≤ 256 by norm_num) h.logsBloom,
    hnumber h.difficulty (by norm_num), hnumber h.number (by norm_num),
    hnumber h.gasLimit (by norm_num), hnumber h.gasUsed (by norm_num),
    hnumber h.timestamp (by norm_num),
    length_encodeWord_le (show 32 ≤ 256 by norm_num) h.mixHash,
    length_encodeWord_le (show 8 ≤ 256 by norm_num) h.nonce]

theorem length_items_lt (hlength : fields.length ≤ 8) :
    (base.requiredItems ++ fields.map OptionalField.encode).flatten.length < 2 ^ 64 := by
  have hlt := base.extraData.length_lt
  have hrequired := length_requiredItems_le base
  have hoptional := Rlp.length_flatten_map_le fun field (_ : field ∈ fields) =>
    field.length_encode_le
  rw [flatten_append, length_append]
  omega

theorem decode_encode (hslot : h.header.slotNumber = none) :
    Gov5NativeHeader.decode h.encode = .ok h.fillIntegers := by
  have hwritten : Written all
      ((h.optionalFields.take h.writtenOptionalCount).map OptionalField.filled) :=
    written_take h all _
  have hencode : ((h.optionalFields.take h.writtenOptionalCount).map
      OptionalField.filled).map OptionalField.encode =
      (h.optionalFields.take h.writtenOptionalCount).map OptionalField.encode := by
    rw [map_map]
    apply map_congr_left
    intro field _
    exact field.encode_filled
  rw [decode_eq_ok]
  refine ⟨h.header.bare, _, rfl, hwritten, (putAll_filled hslot).symm,
    length_items_lt hwritten.length_le, ?_⟩
  rw [encode_eq_item, hencode]
  rfl

theorem Slot.Reads.filled_eq (h : slot.Reads field) : field.filled = field := by
  cases field with
  | u64 value =>
    obtain ⟨x, rfl⟩ := Option.isSome_iff_exists.mp h.2
    rfl
  | hash value => rfl

theorem fillIntegers_putAll (hbare : base = base.bare) (hwritten : Written Slot.all fields) :
    (putAll ⟨base, none⟩ Slot.all fields).fillIntegers = putAll ⟨base, none⟩ Slot.all fields := by
  apply ext_fields
  · rfl
  · rfl
  · have hfilled : ∀ field ∈ fields.rdropWhile fun field => !field.isSome,
        field.filled = id field := by
      intro field hfield
      obtain ⟨i, hi, rfl⟩ := mem_iff_getElem.mp
        ((List.rdropWhile_prefix _ _).subset hfield)
      obtain ⟨slot, -, hreads⟩ := hwritten.getElem? (getElem?_eq_getElem hi)
      exact hreads.filled_eq
    rw [optionalFields_fillIntegers, take_optionalFields_putAll hbare hwritten,
      map_congr_left hfilled, map_id, ← take_optionalFields_putAll hbare hwritten,
      take_append_drop]

theorem payloadItems_item {items : List Bytes} (hitems : ∀ it ∈ items, Rlp.IsItem it)
    (hlt : items.flatten.length < 2 ^ 64) :
    payloadItems (Rlp.item true items.flatten) = some items := by
  have hhead := @Rlp.decode_item true _ hlt []
  rw [append_nil, append_nil] at hhead
  rw [payloadItems, hhead]
  exact Rlp.splitItems_flatten hitems (Rlp.length_le_length_flatten hitems)

theorem Slot.Reads.eq_hash_none (h : slot.Reads field) (hnone : field.isSome = false) :
    slot.isInteger = false ∧ field = .hash none := by
  cases field with
  | u64 value => exact absurd (h.2.symm.trans hnone) (by decide)
  | hash value =>
    cases value with
    | none => exact ⟨h, rfl⟩
    | some value => cases hnone

theorem not_mem_of_isInteger {i : ℕ} (hslot : Slot.all[i]? = some slot)
    (hhash : slot.isInteger = false) : i ∉ [0, 2, 3] := by
  intro hmem
  simp only [mem_cons, not_mem_nil, or_false] at hmem
  rcases hmem with rfl | rfl | rfl <;> cases hslot <;> cases hhash

theorem rdropWhile_eq_self (hwritten : Written Slot.all fields) (hends : ¬ EndsInPlaceholder
      (Rlp.item true (base.requiredItems ++ fields.map OptionalField.encode).flatten)) :
    (fields.rdropWhile fun field => !field.isSome) = fields := by
  rw [rdropWhile_eq_self_iff]
  intro hne hlast
  have hitems : ∀ it ∈ base.requiredItems ++ fields.map OptionalField.encode, Rlp.IsItem it := by
    refine forall_mem_append.mpr ⟨base.isItem_requiredItems, fun it hoptional => ?_⟩
    obtain ⟨field, -, rfl⟩ := mem_map.mp hoptional
    exact field.isItem_encode
  have hpos : 0 < fields.length := length_pos_iff.mpr hne
  have hget : fields[fields.length - 1]? = some (fields.getLast hne) := by
    rw [getLast_eq_getElem, getElem?_eq_getElem]
  obtain ⟨slot, hslot, hreads⟩ := hwritten.getElem? hget
  obtain ⟨hhash, hplaceholder⟩ := hreads.eq_hash_none (by simpa using hlast)
  have hlength : (base.requiredItems ++ fields.map OptionalField.encode).length =
      15 + fields.length := by
    rw [length_append, length_map]
    rfl
  apply hends
  refine ⟨_, payloadItems_item hitems (length_items_lt hwritten.length_le), ?_, ?_, ?_⟩
  · omega
  · rw [getLast?_append_of_ne_nil _ (by simpa using hne), getLast?_map,
      getLast?_eq_some_getLast hne, hplaceholder]
    rfl
  · rw [hlength, show 15 + fields.length - 16 = fields.length - 1 by omega]
    exact not_mem_of_isInteger hslot hhash

theorem encode_decoded {raw : Bytes} (hdecode : Gov5NativeHeader.decode raw = .ok h)
    (hends : ¬ EndsInPlaceholder raw) : h.encode = raw := by
  obtain ⟨base, fields, hbare, hwritten, hh, hlt, hraw⟩ := decode_eq_ok.mp hdecode
  rw [hraw] at hends ⊢
  rw [hh, encode_eq_item, items_putAll hbare hwritten, rdropWhile_eq_self hwritten hends]

theorem native_header_round_trip :
    (∀ raw h, Gov5NativeHeader.decode raw = .ok h →
      Gov5NativeHeader.decode h.encode = .ok h ∧ (¬ EndsInPlaceholder raw → h.encode = raw)) ∧
    (∀ h : Gov5NativeHeader, h.header.slotNumber = none →
      Gov5NativeHeader.decode h.encode = .ok h.fillIntegers) ∧
    ∀ raw raw' h, Gov5NativeHeader.decode raw = .ok h → Gov5NativeHeader.decode raw' = .ok h →
      ¬ EndsInPlaceholder raw → ¬ EndsInPlaceholder raw' → raw = raw' := by
  refine ⟨?_, fun h hslot => decode_encode hslot, ?_⟩
  · intro raw h hdecode
    refine ⟨?_, encode_decoded hdecode⟩
    obtain ⟨base, fields, hbare, hwritten, hh, -, -⟩ := decode_eq_ok.mp hdecode
    have hslot : (putAll ⟨base, none⟩ all fields).header.slotNumber = none := by
      rw [slotNumber_putAll, hbare]
      rfl
    rw [hh, decode_encode hslot, fillIntegers_putAll hbare hwritten]
  · intro raw raw' h hdecode hdecode' hends hends'
    rw [← encode_decoded hdecode hends, ← encode_decoded hdecode' hends']

theorem nil_length_lt : ([] : Bytes).length < 2 ^ 63 := by decide

/-- A header that sets a withdrawals root and no base fee. -/
def sampleHeader : Gov5NativeHeader where
  header := {
    parentHash := 1, ommersHash := 2, beneficiary := 3, stateRoot := 4, transactionsRoot := 5
    receiptsRoot := 6, logsBloom := 0, difficulty := 0, number := 7, gasLimit := 300
    gasUsed := 200, timestamp := 100, extraData := ⟨[], nil_length_lt⟩, mixHash := 8, nonce := 9
    withdrawalsRoot := some 10 }
  mobileRegistryRoot := none

theorem native_header_round_trip_sample :
    Gov5NativeHeader.decode sampleHeader.encode = .ok sampleHeader.fillIntegers ∧
      sampleHeader.fillIntegers.header.baseFeePerGas = some 0 ∧
      Gov5NativeHeader.decode sampleHeader.fillIntegers.encode = .ok sampleHeader.fillIntegers := by
  obtain ⟨hread, hwrite, -⟩ := native_header_round_trip
  have hsample := hwrite sampleHeader rfl
  exact ⟨hsample, by decide, (hread _ _ hsample).1⟩

end N42.Gov5
