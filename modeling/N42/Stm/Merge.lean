import N42.Stm.Memory
import Mathlib.Data.List.Induction

/-!
The merged state changes of a block against its multi-version memory. They differ where an address
has slot writes alone, and where an update takes the mark of a destruction away.
-/

namespace N42.Stm

open List Option AccountWrite

/-- What a list of writes leaves of one address. -/
structure Overlay where
  account : Option (Option AccountInfo)
  wiped : Bool
  recreated : Bool
  slots : U256 → Option U256

namespace Overlay

def untouched : Overlay := ⟨none, false, false, fun _ => none⟩

def writeAccount (v : Overlay) (write : AccountWrite) : Overlay where
  account := some write.info
  wiped := v.wiped || write.wipes
  recreated := v.recreated || (write.wipes && write.info.isSome)
  slots := if write.wipes then fun _ => none else v.slots

def writeSlot (v : Overlay) (slot value : U256) : Overlay :=
  { v with slots := Function.update v.slots slot (some value) }

/-- The value written to a slot, if the slot does not show the parent state. -/
def slot (v : Overlay) (slot : U256) : Option U256 :=
  (v.slots slot).or (if v.wiped then some 0 else none)

variable (address : Address)

def applyAccount (v : Overlay) (write : Address × AccountWrite) : Overlay :=
  if write.1 = address then v.writeAccount write.2 else v

def applySlot (v : Overlay) (write : Address × U256 × U256) : Overlay :=
  if write.1 = address then v.writeSlot write.2.1 write.2.2 else v

def apply (v : Overlay) (out : TxOutputInternal) : Overlay :=
  out.storageWrites.foldl (applySlot address) (out.accountWrites.foldl (applyAccount address) v)

def of (outputs : List TxOutputInternal) : Overlay := outputs.foldl (apply address) untouched

end Overlay

def memoryOf (outputs : List TxOutputInternal) : MvMemory := fun i =>
  (outputs[i]?).elim .empty TxOutputInternal.published

namespace StateChanges

def account (changes : StateChanges) (base : BaseDb) (address : Address) : Option AccountInfo :=
  (changes address).elim (base.basic address) fun a =>
    if a.selfdestructed then none else some a.info

/-- A slot that the changes do not hold is the parent state's, unless the account is marked
destroyed or created. -/
def slot (changes : StateChanges) (base : BaseDb) (address : Address) (slot : U256) : U256 :=
  (changes address).elim (base.storage address slot) fun a =>
    (a.storage slot).getD
      (if a.selfdestructed || a.created then 0 else base.storage address slot)

end StateChanges

variable (base : BaseDb) (outputs : List TxOutputInternal)

/-- The merged changes read as the memory does after the last transaction. -/
def MergeAgrees : Prop :=
  ∀ address,
    (assemble outputs).stateChanges.account base address =
      ((memoryOf outputs).readAccount outputs.length address).getD (base.basic address) ∧
    ∀ slot, (assemble outputs).stateChanges.slot base address slot =
      ((memoryOf outputs).readStorage outputs.length address slot).getD
        (base.storage address slot)

/-- No address has slot writes without an account write, unless it is an empty account of the
parent state; and the parent state has no slot that shows again when a destroyed account, never
created again, is updated. -/
def NothingShows : Prop :=
  ∀ address,
    ((Overlay.of address outputs).account = none →
      (∃ slot, ((Overlay.of address outputs).slots slot).isSome) →
      base.basic address = some .empty) ∧
    ((Overlay.of address outputs).wiped = true → (Overlay.of address outputs).recreated = false →
      (Overlay.of address outputs).account ≠ some none →
      ∀ slot, (Overlay.of address outputs).slots slot = none → base.storage address slot = 0)

attribute [local simp] Overlay.writeAccount Slice.access accountAccesses AccountWrite.info
  Overlay.applyAccount storageAccesses Overlay.writeSlot Overlay.applySlot

section Published

variable {address : Address} {s : Slice} {v after : Overlay}

/-- The entries of one transaction in the memory turn an overlay into the next. -/
structure Slice.Turns (address : Address) (s : Slice) (v after : Overlay) : Prop where
  account : after.account = (s.accounts address).or v.account
  wiped : after.wiped = (s.wipes address || v.wiped)
  slots : ∀ slot, after.slots slot =
    (s.storage address slot).or (if s.wipes address then none else v.slots slot)

theorem Slice.turns_empty (address : Address) (v : Overlay) : Slice.empty.Turns address v v :=
  ⟨rfl, rfl, fun _ => rfl⟩

theorem storage_accountAccesses (s : Slice) (write : Address × AccountWrite) :
    ((accountAccesses write).foldl Slice.access s).storage = s.storage := by
  simp only [accountAccesses]
  split <;> rfl

theorem Slice.Turns.account_write (h : s.Turns address v after)
    (hstorage : ∀ slot, s.storage address slot = none) (write : Address × AccountWrite) :
    ((accountAccesses write).foldl Slice.access s).Turns address v
      (after.applyAccount address write) := by
  obtain ⟨target, write⟩ := write
  have hslots := h.slots
  by_cases htarget : target = address
  · subst htarget
    cases write with
    | updated info =>
      constructor
      · simp [AccountWrite.wipes]
      · simpa [AccountWrite.wipes] using h.wiped
      · simpa [AccountWrite.wipes, hstorage] using hslots
    | recreated info =>
      constructor <;> simp [AccountWrite.wipes, hstorage]
    | destroyed =>
      constructor <;> simp [AccountWrite.wipes, hstorage]
  · have hne : address ≠ target := Ne.symm htarget
    simp only [Overlay.applyAccount, htarget]
    constructor
    · cases hwipes : write.wipes <;>
        simpa [hwipes, hne] using h.account
    · cases hwipes : write.wipes <;>
        simpa [hwipes, hne] using h.wiped
    · intro slot
      have hslot := hslots slot
      cases hwipes : write.wipes <;>
        simpa [hwipes, hne, hstorage] using hslot

theorem Slice.Turns.account_writes (writes : List (Address × AccountWrite))
    (h : s.Turns address v after) (hstorage : ∀ slot, s.storage address slot = none) :
    ((writes.flatMap accountAccesses).foldl Slice.access s).Turns address v
      (writes.foldl (Overlay.applyAccount address) after) := by
  induction writes generalizing s after with
  | nil => exact h
  | cons write writes ih =>
    rw [flatMap_cons, foldl_append]
    apply ih (h.account_write hstorage write)
    intro slot
    rw [storage_accountAccesses, hstorage]

theorem Slice.Turns.slot_write (h : s.Turns address v after) (write : Address × U256 × U256) :
    ((storageAccesses write).foldl Slice.access s).Turns address v
      (after.applySlot address write) := by
  obtain ⟨target, slot, value⟩ := write
  by_cases htarget : target = address
  · subst htarget
    constructor
    · simpa using h.account
    · simpa using h.wiped
    · intro other
      by_cases hother : other = slot
      · subst hother
        simp
      · have hstorage : ((storageAccesses (target, slot, value)).foldl Slice.access s).storage
            target other = s.storage target other := by
          simp [hother]
        rw [hstorage]
        simp only [Overlay.applySlot, Overlay.writeSlot, if_true, Function.update_of_ne hother]
        exact h.slots other
  · have hne : address ≠ target := Ne.symm htarget
    simp only [Overlay.applySlot, htarget]
    constructor
    · simpa using h.account
    · simpa using h.wiped
    · intro other
      have hstorage : ((storageAccesses (target, slot, value)).foldl Slice.access s).storage
          address other = s.storage address other := by
        simp [hne]
      rw [hstorage]
      exact h.slots other

theorem Slice.Turns.slot_writes (writes : List (Address × U256 × U256))
    (h : s.Turns address v after) :
    ((writes.flatMap storageAccesses).foldl Slice.access s).Turns address v
      (writes.foldl (Overlay.applySlot address) after) := by
  induction writes generalizing s after with
  | nil => exact h
  | cons write writes ih =>
    exact ih (h.slot_write write)

theorem turns_published (address : Address) (v : Overlay) (out : TxOutputInternal) :
    out.published.Turns address v (v.apply address out) := by
  have haccounts := (Slice.turns_empty address v).account_writes out.accountWrites fun _ => rfl
  have hslots := haccounts.slot_writes out.storageWrites
  unfold TxOutputInternal.published TxOutputInternal.accesses
  rw [foldl_append, foldl_append]
  cases out.beneDelta with
  | none => exact hslots
  | some delta => exact ⟨hslots.account, hslots.wiped, hslots.slots⟩

end Published

section Memory

variable {α : Type}

theorem latest_lt {versions : ℕ → Option α} {reader tx : ℕ} {value : α}
    (h : latest versions reader = some (tx, value)) : tx < reader := by
  induction reader with
  | zero => cases h
  | succ reader ih =>
    simp only [latest] at h
    cases hversion : versions reader with
    | none =>
      rw [hversion] at h
      exact (ih h).trans (Nat.lt_succ_self reader)
    | some found =>
      rw [hversion] at h
      obtain ⟨rfl, -⟩ : reader = tx ∧ found = value := by simpa using h
      exact Nat.lt_succ_self reader

variable (mv : MvMemory) (reader : ℕ) (address : Address)

theorem readAccount_succ : mv.readAccount (reader + 1) address =
      ((mv reader).accounts address).or (mv.readAccount reader address) := by
  simp only [MvMemory.readAccount, latest]
  cases (mv reader).accounts address <;> rfl

theorem latestWipe_lt {mv : MvMemory} {reader tx : ℕ} {address : Address}
    (h : mv.latestWipe reader address = some tx) : tx < reader := by
  obtain ⟨⟨found, _⟩, hfound, rfl⟩ := map_eq_some_iff.mp h
  exact latest_lt hfound

theorem latestWipe_succ : mv.latestWipe (reader + 1) address =
      if (mv reader).wipes address then some reader else mv.latestWipe reader address := by
  simp only [MvMemory.latestWipe, latest]
  cases (mv reader).wipes address <;> rfl

/-- A reset shadows every older slot; a slot written in the transaction that resets stays. -/
theorem readStorage_succ (slot : U256) : mv.readStorage (reader + 1) address slot =
      ((mv reader).storage address slot).or
        (if (mv reader).wipes address then some 0 else mv.readStorage reader address slot) := by
  have hslot : mv.latestSlot (reader + 1) address slot =
      (((mv reader).storage address slot).map fun value => (reader, value)).or
        (mv.latestSlot reader address slot) := by
    simp only [MvMemory.latestSlot, latest]
    cases (mv reader).storage address slot <;> rfl
  have hold : ∀ tx value, mv.latestSlot reader address slot = some (tx, value) → tx < reader :=
    fun _ _ => latest_lt
  have hwipe : ∀ tx, mv.latestWipe reader address = some tx → tx < reader := fun _ => latestWipe_lt
  rw [MvMemory.readStorage, MvMemory.readStorage, latestWipe_succ, hslot]
  cases (mv reader).storage address slot with
  | some value =>
    cases (mv reader).wipes address with
    | true => simp [slotValue]
    | false =>
      cases hlatest : mv.latestWipe reader address with
      | none => simp [slotValue]
      | some tx => simp [slotValue, (hwipe tx hlatest).le]
  | none =>
    cases (mv reader).wipes address with
    | false => simp
    | true =>
      cases hlatest : mv.latestSlot reader address slot with
      | none => simp [slotValue]
      | some found => simp [slotValue, hold found.1 found.2 hlatest]

theorem read_congr {mv mv' : MvMemory} {reader : ℕ} (h : ∀ i < reader, mv i = mv' i)
    (address : Address) :
    mv.readAccount reader address = mv'.readAccount reader address ∧
      ∀ slot, mv.readStorage reader address slot = mv'.readStorage reader address slot := by
  induction reader with
  | zero => exact ⟨rfl, fun _ => rfl⟩
  | succ reader ih =>
    obtain ⟨haccount, hstorage⟩ := ih fun i hi => h i (hi.trans (Nat.lt_succ_self reader))
    have hlast := h reader (Nat.lt_succ_self reader)
    refine ⟨?_, fun slot => ?_⟩
    · rw [readAccount_succ, readAccount_succ, haccount, hlast]
    · rw [readStorage_succ, readStorage_succ, hstorage slot, hlast]

theorem memoryOf_spec (outputs : List TxOutputInternal) (address : Address) :
    (memoryOf outputs).readAccount outputs.length address =
        (Overlay.of address outputs).account ∧
      ∀ slot, (memoryOf outputs).readStorage outputs.length address slot =
        (Overlay.of address outputs).slot slot := by
  induction outputs using List.reverseRecOn with
  | nil => exact ⟨rfl, fun _ => rfl⟩
  | append_singleton outputs out ih =>
    have hbefore : ∀ i < outputs.length, memoryOf (outputs ++ [out]) i = memoryOf outputs i := by
      intro i hi
      rw [memoryOf, memoryOf, getElem?_append_left hi]
    have hlast : memoryOf (outputs ++ [out]) outputs.length = out.published := by
      simp [memoryOf]
    have hof : Overlay.of address (outputs ++ [out]) =
        (Overlay.of address outputs).apply address out := by
      simp [Overlay.of]
    obtain ⟨haccount, hstorage⟩ := read_congr hbefore address
    have hturns := turns_published address (Overlay.of address outputs) out
    rw [length_append, length_singleton, hof]
    constructor
    · rw [readAccount_succ, hlast, haccount, ih.1, hturns.account]
    · intro slot
      rw [readStorage_succ, hlast, hstorage, ih.2, Overlay.slot, Overlay.slot, hturns.slots,
        hturns.wiped]
      cases out.published.storage address slot with
      | some value => rfl
      | none => cases out.published.wipes address <;> simp

end Memory

/-- A merged entry and the overlay of its address. -/
structure MergedAccount.Reflects (a : MergedAccount) (v : Overlay) : Prop where
  unwritten : v.account = none → a.info = .empty ∧ a.selfdestructed = false ∧ a.touched = false
  destroyed : v.account = some none → a.selfdestructed = true
  live : ∀ info, v.account = some (some info) →
    a.info = info ∧ a.selfdestructed = false ∧ a.touched = true
  created : a.created = v.recreated
  storage : a.storage = v.slots
  reset : (a.selfdestructed || a.created) = true → v.wiped = true

/-- An address without an entry has no write, one with an entry has one. -/
def Reflects (entry : Option MergedAccount) (v : Overlay) : Prop :=
  entry.elim (v = .untouched) fun a =>
    a.Reflects v ∧ (v.account = none → ∃ slot, (v.slots slot).isSome = true)

theorem reflects_notExisting : MergedAccount.notExisting.Reflects .untouched where
  unwritten _ := ⟨rfl, rfl, rfl⟩
  destroyed h := by cases h
  live _ h := by cases h
  created := rfl
  storage := rfl
  reset h := by cases h

theorem Reflects.getD {entry : Option MergedAccount} {v : Overlay} (h : Reflects entry v) :
    (entry.getD .notExisting).Reflects v := by
  cases entry with
  | none =>
    obtain rfl : v = .untouched := h
    exact reflects_notExisting
  | some a => exact h.1

section Merge

variable {address : Address} {changes : StateChanges} {v : Overlay}

section

variable (h : Reflects (changes address) v)
include h

theorem Reflects.mergeAccount (write : Address × AccountWrite) :
    Reflects (mergeAccount changes write address) (v.applyAccount address write) := by
  obtain ⟨target, write⟩ := write
  by_cases htarget : target = address
  · subst htarget
    have hbefore := h.getD
    simp only [Stm.mergeAccount, Function.update_self, Overlay.applyAccount]
    refine ⟨?_, fun hnone => by cases hnone⟩
    cases write with
    | updated info =>
      constructor
      · nofun
      · nofun
      · intro other hother
        obtain rfl : info = other := by
          simpa using hother
        exact ⟨rfl, rfl, rfl⟩
      · simpa [wipes] using hbefore.created
      · simpa [wipes] using hbefore.storage
      · intro hcreated
        have hwiped := hbefore.reset (by simpa using Or.inr hcreated)
        simp [hwiped]
    | recreated info =>
      constructor
      · nofun
      · nofun
      · intro other hother
        obtain rfl : info = other := by
          simpa using hother
        exact ⟨rfl, rfl, rfl⟩
      · simp [wipes]
      · simp [wipes]
      · simp [wipes]
    | destroyed =>
      constructor
      · nofun
      · intro _
        rfl
      · nofun
      · simpa [wipes] using hbefore.created
      · simp [wipes]
      · simp [wipes]
  · simpa [Stm.mergeAccount, htarget, Ne.symm htarget] using h

theorem Reflects.mergeSlot (write : Address × U256 × U256) :
    Reflects (mergeSlot changes write address) (v.applySlot address write) := by
  obtain ⟨target, slot, value⟩ := write
  by_cases htarget : target = address
  · subst htarget
    have hbefore := h.getD
    simp only [Stm.mergeSlot, Function.update_self, Overlay.applySlot]
    refine ⟨?_, fun _ => ⟨slot, by simp⟩⟩
    constructor
    · exact hbefore.unwritten
    · exact hbefore.destroyed
    · exact hbefore.live
    · exact hbefore.created
    · simp [hbefore.storage]
    · exact hbefore.reset
  · simpa [Stm.mergeSlot, htarget, Ne.symm htarget] using h

theorem Reflects.mergeTxState (out : TxOutputInternal) :
    Reflects (mergeTxState changes out address) (v.apply address out) := by
  have haccounts : Reflects (out.accountWrites.foldl Stm.mergeAccount changes address)
      (out.accountWrites.foldl (Overlay.applyAccount address) v) := by
    generalize out.accountWrites = writes
    induction writes generalizing changes v with
    | nil => exact h
    | cons write writes ih => exact ih (h.mergeAccount write)
  unfold Stm.mergeTxState Overlay.apply
  revert haccounts
  generalize out.accountWrites.foldl Stm.mergeAccount changes = merged
  generalize out.accountWrites.foldl (Overlay.applyAccount address) v = after
  generalize out.storageWrites = writes
  intro haccounts
  induction writes generalizing merged after with
  | nil => exact haccounts
  | cons write writes ih => exact ih _ _ (haccounts.mergeSlot write)

end

theorem reflects_assemble (outputs : List TxOutputInternal) (address : Address) :
    Reflects ((assemble outputs).stateChanges address) (Overlay.of address outputs) := by
  have hstart : Reflects ((fun _ => none : StateChanges) address) .untouched := rfl
  unfold assemble Overlay.of
  revert hstart
  generalize (fun _ => none : StateChanges) = changes
  generalize Overlay.untouched = v
  intro hstart
  induction outputs generalizing changes v with
  | nil => exact hstart
  | cons out outputs ih => exact ih _ _ (hstart.mergeTxState out)

theorem Reflects.account_iff (h : Reflects (changes address) v) (base : BaseDb) :
    changes.account base address = v.account.getD (base.basic address) ↔
      (v.account = none → (∃ slot, (v.slots slot).isSome = true) →
        base.basic address = some .empty) := by
  unfold StateChanges.account
  cases hentry : changes address with
  | none =>
    rw [hentry] at h
    obtain rfl : v = .untouched := h
    simp [Overlay.untouched]
  | some a =>
    rw [hentry] at h
    obtain ⟨hreflects, hwritten⟩ := h
    cases haccount : v.account with
    | none =>
      obtain ⟨hinfo, hlive, -⟩ := hreflects.unwritten haccount
      have hread : (if a.selfdestructed then none else some a.info) = some AccountInfo.empty := by
        rw [hinfo, hlive]
        rfl
      rw [elim_some, hread]
      constructor
      · intro heq _ _
        exact heq.symm
      · intro hempty
        exact (hempty rfl (hwritten haccount)).symm
    | some written =>
      cases written with
      | none => simp [hreflects.destroyed haccount]
      | some info =>
        obtain ⟨hinfo, hlive, -⟩ := hreflects.live info haccount
        simp [hinfo, hlive]

/-- The slots are read alike unless an update has uncovered those of the parent state. -/
theorem Reflects.slot_iff (h : Reflects (changes address) v) (base : BaseDb) :
    (∀ slot, changes.slot base address slot = (v.slot slot).getD (base.storage address slot)) ↔
      (v.wiped = true → v.recreated = false → v.account ≠ some none →
        ∀ slot, v.slots slot = none → base.storage address slot = 0) := by
  unfold StateChanges.slot Overlay.slot
  cases hentry : changes address with
  | none =>
    rw [hentry] at h
    obtain rfl : v = .untouched := h
    simp [Overlay.untouched]
  | some a =>
    rw [hentry] at h
    obtain ⟨hreflects, -⟩ := h
    simp only [elim_some, hreflects.storage, hreflects.created]
    have hdestroyed : a.selfdestructed = true ↔ v.account = some none := by
      constructor
      · intro hselfdestructed
        cases haccount : v.account with
        | none => simp [(hreflects.unwritten haccount).2.1] at hselfdestructed
        | some written =>
          cases written with
          | none => rfl
          | some info => simp [(hreflects.live info haccount).2.1] at hselfdestructed
      · exact hreflects.destroyed
    have hreset := hreflects.reset
    rw [hreflects.created] at hreset
    constructor
    · intro hslots hwiped hrecreated hlive slot hslot
      have hread := hslots slot
      have hmark : a.selfdestructed = false := by
        rwa [Ne, ← hdestroyed, Bool.not_eq_true] at hlive
      simpa [hslot, hwiped, hrecreated, hmark] using hread
    · intro hshows slot
      cases hslot : v.slots slot with
      | some value => rfl
      | none =>
        cases hmark : a.selfdestructed || v.recreated with
        | true => simp [hreset hmark]
        | false =>
          obtain ⟨hselfdestructed, hrecreated⟩ := Bool.or_eq_false_iff.mp hmark
          cases hwiped : v.wiped with
          | false => simp
          | true =>
            have hlive : v.account ≠ some none := by simp [← hdestroyed, hselfdestructed]
            simp [hshows hwiped hrecreated hlive slot hslot]

end Merge

/-- The merged changes read as the memory does exactly when nothing of the parent state shows that
should not. -/
theorem mergeAgrees_iff (base : BaseDb) (outputs : List TxOutputInternal) :
    MergeAgrees base outputs ↔ NothingShows base outputs := by
  apply forall_congr'
  intro address
  obtain ⟨haccount, hslots⟩ := memoryOf_spec outputs address
  have hreflects := reflects_assemble outputs address
  simp only [haccount, hslots]
  exact and_congr (hreflects.account_iff base) (hreflects.slot_iff base)

/-- A contract with one slot is destroyed and later receives a transfer. -/
theorem merge_uncovers_slot :
    ¬ MergeAgrees ⟨fun _ => some .empty, fun _ _ => 5⟩
      [⟨⟨0, true, []⟩, [(1, .destroyed)], [], [], none, false⟩,
        ⟨⟨0, true, []⟩, [(1, .updated .empty)], [], [], none, false⟩] := by
  intro h
  have hslot := (h 1).2 0
  revert hslot
  decide

end N42.Stm
