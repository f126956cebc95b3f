import Mathlib.Data.List.Chain

/-!
Records that name their predecessor by its hash. Where the hash of a record fixes it, and with it
the hash it names, the hash of the newest record fixes all of them.
-/

namespace Lib.HashChain

open List

variable {E H : Type}

/-- Every record names the hash of the one before it. -/
def Linked (hash parent : E → H) (records : List E) : Prop :=
  records.IsChain fun older newer => parent newer = hash older

variable {hash parent : E → H} {Agree : E → E → Prop}

/-- The induction goes from the newest record back. -/
theorem forall₂_of_newest_first {records records' : List E}
    (hlength : records.length = records'.length)
    (hlinked : records.IsChain fun newer older => parent newer = hash older)
    (hlinked' : records'.IsChain fun newer older => parent newer = hash older)
    (hfixed : ∀ r ∈ records, ∀ r' ∈ records', hash r = hash r' →
      Agree r r' ∧ parent r = parent r')
    (hnewest : records.head?.map hash = records'.head?.map hash) :
    List.Forall₂ Agree records records' := by
  induction records generalizing records' with
  | nil =>
    rw [length_eq_zero_iff.mp hlength.symm]
    exact .nil
  | cons r records ih =>
    cases records' with
    | nil => cases hlength
    | cons r' records' =>
      obtain ⟨hagree, hparent⟩ := hfixed r mem_cons_self r' mem_cons_self
        (Option.some.inj hnewest)
      apply List.Forall₂.cons hagree
      apply ih (Nat.succ.inj hlength) hlinked.tail hlinked'.tail
      · intro s hs s' hs'
        exact hfixed s (mem_cons_of_mem r hs) s' (mem_cons_of_mem r' hs')
      · cases records with
        | nil =>
          rw [length_eq_zero_iff.mp (Nat.succ.inj hlength).symm]
        | cons s records =>
          cases records' with
          | nil => cases Nat.succ.inj hlength
          | cons s' records' =>
            have hs : parent r = hash s := (isChain_cons_cons.mp hlinked).1
            have hs' : parent r' = hash s' := (isChain_cons_cons.mp hlinked').1
            rw [head?_cons, head?_cons, Option.map_some, Option.map_some, ← hs, ← hs',
              hparent]

theorem forall₂_of_linked {records records' : List E}
    (hlength : records.length = records'.length) (hlinked : Linked hash parent records)
    (hlinked' : Linked hash parent records')
    (hfixed : ∀ r ∈ records, ∀ r' ∈ records', hash r = hash r' →
      Agree r r' ∧ parent r = parent r')
    (hnewest : records.getLast?.map hash = records'.getLast?.map hash) :
    List.Forall₂ Agree records records' := by
  rw [← List.forall₂_reverse_iff]
  apply @forall₂_of_newest_first E H hash parent
  · rw [length_reverse, length_reverse, hlength]
  · exact isChain_reverse.mpr hlinked
  · exact isChain_reverse.mpr hlinked'
  · intro r hr r' hr'
    exact hfixed r (mem_reverse.mp hr) r' (mem_reverse.mp hr')
  · rw [head?_reverse, head?_reverse, hnewest]

end Lib.HashChain
