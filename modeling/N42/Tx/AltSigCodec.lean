import N42.Tx.AltSig

/-!
The decoder of `0x50` transactions accepts the encodings of transactions, and nothing else.
-/

namespace N42.Tx

open Lib List
open Rlp (encodeWord encodeNumber decodeWord decodeNumber reads_decodeWord reads_decodeNumber)

section Fields

theorem encodeWord_ne_nil {w : ℕ} (size : ℕ) (x : BitVec w) : encodeWord size x ≠ [] :=
  Rlp.item_ne_nil _ _

/-- Access lists whose parts are shorter than the largest string. -/
def AccessListItem.Fits (item : AccessListItem) : Prop :=
  (item.storageKeys.map (encodeWord 32)).flatten.length < 2 ^ 64 ∧
    item.encodeFields.length < 2 ^ 64

def AccessListFits (items : List AccessListItem) : Prop :=
  (∀ item ∈ items, item.Fits) ∧ (items.map AccessListItem.encode).flatten.length < 2 ^ 64

theorem AccessListItem.reads_decodeFields :
    Rlp.Reads AccessListItem.decodeFields AccessListItem.encodeFields
      fun item => (item.storageKeys.map (encodeWord 32)).flatten.length < 2 ^ 64 := by
  intro bytes item rest
  have hword := @reads_decodeWord 160 20 rfl (by norm_num)
  have hkeys := Rlp.reads_decodeVec (@reads_decodeWord 256 32 rfl (by norm_num))
    (encodeWord_ne_nil 32)
  simp only [AccessListItem.decodeFields, bind_eq_ok, pure_eq_ok, Prod.exists, Prod.mk.injEq,
    hword _ _ _, hkeys _ _ _, AccessListItem.encodeFields, encodeKeys]
  constructor
  · rintro ⟨address, _, ⟨-, rfl⟩, keys, _, ⟨⟨-, hlt⟩, rfl⟩, rfl, rfl⟩
    exact ⟨hlt, by simp⟩
  · rintro ⟨hlt, rfl⟩
    exact ⟨item.address, _, ⟨trivial, by simp⟩, item.storageKeys, rest,
      ⟨⟨fun _ _ => trivial, hlt⟩, rfl⟩, rfl, rfl⟩

theorem reads_decodeAccessList : Rlp.Reads decodeAccessList encodeAccessList AccessListFits :=
  Rlp.reads_decodeVec (Rlp.reads_decodeStruct AccessListItem.reads_decodeFields)
    fun _ => Rlp.item_ne_nil _ _

end Fields

def TxAltSig.Fits (tx : TxAltSig) : Prop :=
  tx.input.length < 2 ^ 64 ∧ AccessListFits tx.accessList ∧ tx.pubkey.length < 2 ^ 64

def AltSigTx.Fits (t : AltSigTx) : Prop :=
  t.tx.Fits ∧ t.signature.length < 2 ^ 64 ∧ t.encodeFields.length < 2 ^ 64

theorem TxAltSig.reads_decodeFields :
    Rlp.Reads TxAltSig.decodeFields TxAltSig.encodeFields TxAltSig.Fits := by
  intro bytes tx rest
  have h64 := @reads_decodeNumber 64 8 rfl (by norm_num)
  have h128 := @reads_decodeNumber 128 16 rfl (by norm_num)
  have h256 := @reads_decodeNumber 256 32 rfl (by norm_num)
  have h8 := @reads_decodeNumber 8 1 rfl (by norm_num)
  have hword := @reads_decodeWord 160 20 rfl (by norm_num)
  simp only [TxAltSig.decodeFields, bind_eq_ok, pure_eq_ok, Prod.exists, Prod.mk.injEq,
    h64 _ _ _, h128 _ _ _, h256 _ _ _, h8 _ _ _, hword _ _ _, Rlp.takeString_eq_ok,
    reads_decodeAccessList _ _ _, TxAltSig.encodeFields, true_and]
  constructor
  · rintro ⟨chainId, _, h₁, nonce, _, h₂, priority, _, h₃, fee, _, h₄, gas, _, h₅, recipient, _, h₆,
      value, _, h₇, input, _, ⟨hinput, h₈⟩, accessList, _, ⟨haccess, h₉⟩, algType, _, h₁₀,
      pubkey, _, ⟨hpubkey, h₁₁⟩, rfl, rfl⟩
    refine ⟨⟨hinput, haccess, hpubkey⟩, ?_⟩
    simp only [h₁, h₂, h₃, h₄, h₅, h₆, h₇, h₈, h₉, h₁₀, h₁₁, append_assoc]
  · rintro ⟨⟨hinput, haccess, hpubkey⟩, hbytes⟩
    simp only [hbytes, append_assoc]
    exact ⟨_, _, rfl, _, _, rfl, _, _, rfl, _, _, rfl, _, _, rfl, _, _, rfl, _, _, rfl, _, _,
      ⟨hinput, rfl⟩, _, _, ⟨haccess, rfl⟩, _, _, rfl, _, _, ⟨hpubkey, rfl⟩, rfl, rfl⟩

theorem reads_decodeSigned :
    Rlp.Reads decodeSigned (fun signed => signed.1.encodeFields ++ Rlp.item false signed.2)
      fun signed => signed.1.Fits ∧ signed.2.length < 2 ^ 64 := by
  intro bytes signed rest
  obtain ⟨tx, signature⟩ := signed
  simp only [decodeSigned, bind_eq_ok, pure_eq_ok, Prod.exists, Prod.mk.injEq,
    TxAltSig.reads_decodeFields _ _ _, Rlp.takeString_eq_ok]
  constructor
  · rintro ⟨tx, _, ⟨hfits, hbytes⟩, signature, _, ⟨hlt, hrest⟩, ⟨rfl, rfl⟩, rfl⟩
    exact ⟨⟨hfits, hlt⟩, by simp only [hbytes, hrest, append_assoc]⟩
  · rintro ⟨⟨hfits, hlt⟩, hbytes⟩
    simp only [hbytes, append_assoc]
    exact ⟨_, _, ⟨hfits, rfl⟩, _, _, ⟨hlt, rfl⟩, ⟨rfl, rfl⟩, rfl⟩

section Hashing

variable [Keccak]

theorem decodePayload_eq_ok {buf rest : Bytes} {t : AltSigTx} :
    decodePayload buf = .ok (t, rest) ↔ t.Fits ∧ buf = Rlp.item true t.encodeFields ++ rest ∧
      t.hash = Keccak.keccak256 (ALT_SIG_TX_TYPE_ID :: Rlp.item true t.encodeFields) := by
  have hstruct := @Rlp.reads_decodeStruct _ _ _ _ .unexpectedLength reads_decodeSigned
  obtain ⟨tx, signature, hash⟩ := t
  simp only [decodePayload, bind_eq_ok, pure_eq_ok, Prod.exists, Prod.mk.injEq, hstruct _ _ _,
    AltSigTx.mk.injEq, AltSigTx.Fits, AltSigTx.encodeFields]
  constructor
  · rintro ⟨tx, signature, after, ⟨⟨⟨hfits, hsignature⟩, hlt⟩, hbuf⟩, ⟨rfl, rfl, rfl⟩, rfl⟩
    refine ⟨⟨hfits, hsignature, hlt⟩, hbuf, ?_⟩
    simp only [hbuf, length_append, Nat.add_sub_cancel, take_left']
  · rintro ⟨⟨hfits, hsignature, hlt⟩, hbuf, hhash⟩
    refine ⟨tx, signature, rest, ⟨⟨⟨hfits, hsignature⟩, hlt⟩, hbuf⟩, ⟨rfl, rfl, ?_⟩, rfl⟩
    rw [hbuf, hhash]
    simp only [length_append, Nat.add_sub_cancel, take_left']

/-- Decoding is canonical: what is decoded is the encoding of the result, which has its hash. -/
theorem decode2718Exact_eq_ok {bytes : Bytes} {t : AltSigTx} :
    decode2718Exact bytes = .ok t ↔
      t.Fits ∧ bytes = t.encode2718 ∧ t.hash = Keccak.keccak256 bytes := by
  unfold decode2718Exact
  cases bytes with
  | nil => simp [AltSigTx.encode2718]
  | cons ty buf =>
    simp only
    by_cases hty : ty = ALT_SIG_TX_TYPE_ID
    · subst hty
      rw [if_neg (by decide), if_neg (by simp)]
      simp only [bind_eq_ok, guard_bind_eq_ok, pure_eq_ok, mapError_eq_ok, Prod.exists, not_not,
        decodePayload_eq_ok, AltSigTx.encode2718, List.cons.injEq, true_and]
      constructor
      · rintro ⟨t, rest, ⟨hfits, hbuf, hhash⟩, rfl, rfl⟩
        rw [append_nil] at hbuf
        exact ⟨hfits, hbuf, by rw [hhash, hbuf]⟩
      · rintro ⟨hfits, hbuf, hhash⟩
        exact ⟨t, [], ⟨hfits, by rw [hbuf, append_nil], by rw [hhash, hbuf]⟩, rfl, rfl⟩
    · have hne : ty :: buf ≠ t.encode2718 := by
        intro heq
        exact hty (List.cons.inj heq).1
      constructor
      · intro h
        split at h
        · cases h
        · cases h
      · rintro ⟨-, heq, -⟩
        exact absurd heq hne

omit [Keccak] in
theorem encode2718_injective {t t' : AltSigTx} (ht : t.Fits) (ht' : t'.Fits)
    (h : t.encode2718 = t'.encode2718) : t.tx = t'.tx ∧ t.signature = t'.signature := by
  have hstruct := @Rlp.reads_decodeStruct _ _ _ _ .unexpectedLength reads_decodeSigned
  have hitem : Rlp.item true t.encodeFields = Rlp.item true t'.encodeFields :=
    (List.cons.inj h).2
  have hread := (hstruct (Rlp.item true t.encodeFields) (t.tx, t.signature) []).mpr
    ⟨⟨⟨ht.1, ht.2.1⟩, ht.2.2⟩, (append_nil _).symm⟩
  have hread' := (hstruct (Rlp.item true t.encodeFields) (t'.tx, t'.signature) []).mpr
    ⟨⟨⟨ht'.1, ht'.2.1⟩, ht'.2.2⟩, hitem.trans (append_nil _).symm⟩
  rw [hread] at hread'
  obtain ⟨hsigned, -⟩ := Prod.mk.inj (Except.ok.inj hread')
  exact Prod.mk.inj hsigned

/-- A transaction that was built comes back from its encoding, and whatever bytes are accepted
are the encoding of a transaction that was built: there is no second form of a transaction. -/
theorem altSig_codec_exact :
    (∀ tx signature, (AltSigTx.new tx signature).Fits →
      decode2718Exact (AltSigTx.new tx signature).encode2718 = .ok (.new tx signature)) ∧
    ∀ bytes t, decode2718Exact bytes = .ok t →
      t = .new t.tx t.signature ∧ t.encode2718 = bytes := by
  refine ⟨fun tx signature hfits => decode2718Exact_eq_ok.mpr ⟨hfits, rfl, rfl⟩,
    fun bytes t h => ?_⟩
  obtain ⟨-, hbytes, hhash⟩ := decode2718Exact_eq_ok.mp h
  refine ⟨?_, hbytes.symm⟩
  rw [hbytes] at hhash
  obtain ⟨tx, signature, hash⟩ := t
  exact congrArg (AltSigTx.mk tx signature) hhash

end Hashing

attribute [local instance] lengthKeccak in
theorem altSig_codec_exact_of_transfer :
    let tx : TxAltSig := ⟨1, 0, 0, 7, 21000, 9, 5, [], [⟨2, [3]⟩], 1, [4]⟩
    decode2718Exact (AltSigTx.new tx [6]).encode2718 = .ok (.new tx [6]) :=
  altSig_codec_exact.1 _ _ (by
    simp only [AltSigTx.Fits, TxAltSig.Fits, AccessListFits, AccessListItem.Fits]
    decide +kernel)

end N42.Tx
