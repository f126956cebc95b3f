import Mathlib.Data.List.Nodup

/-! Tables: records with distinct keys, as a hash map whose values know their own key holds them. -/

namespace Lib

open List

structure Table {α κ : Type} (key : α → κ) where
  entries : List α
  nodup : (entries.map key).Nodup

namespace Table

variable {α κ : Type} {key : α → κ}

def empty : Table key := ⟨[], nodup_nil⟩

def retain (t : Table key) (keep : α → Bool) : Table key :=
  ⟨t.entries.filter keep, t.nodup.sublist (filter_sublist.map _)⟩

variable [DecidableEq κ]

variable (t : Table key)

def get (k : κ) : Option α := t.entries.find? (key · = k)

def remove (k : κ) : Table key := t.retain (key · ≠ k)

def insert (a : α) : Table key :=
  ⟨a :: (t.remove (key a)).entries, by
    rw [map_cons, nodup_cons]
    constructor
    · simp [remove, retain]
    · exact (t.remove (key a)).nodup⟩

def insertAll (as : List α) : Table key := as.foldl insert t

theorem get_eq_some {t : Table key} {k : κ} {a : α} :
    t.get k = some a ↔ a ∈ t.entries ∧ key a = k := by
  constructor
  · intro h
    exact ⟨mem_of_find?_eq_some h, by simpa using find?_some h⟩
  · rintro ⟨hmem, rfl⟩
    obtain ⟨found, hfound⟩ : ∃ found, t.get (key a) = some found := by
      rw [← Option.isSome_iff_exists, get, find?_isSome]
      exact ⟨a, hmem, by simp⟩
    have hfound_mem := mem_of_find?_eq_some hfound
    have hkey : key found = key a := by simpa using find?_some hfound
    rw [hfound, inj_on_of_nodup_map t.nodup hfound_mem hmem hkey]

theorem key_of_get {t : Table key} {k : κ} {a : α} (h : t.get k = some a) : key a = k :=
  (get_eq_some.mp h).2

@[simp] theorem get_empty (k : κ) : (empty : Table key).get k = none := rfl

theorem get_retain {t : Table key} {keep : α → Bool} {k : κ} {a : α} :
    (t.retain keep).get k = some a ↔ t.get k = some a ∧ keep a = true := by
  simp only [get_eq_some, retain, mem_filter]
  tauto

theorem get_remove (k k' : κ) : (t.remove k).get k' = if k = k' then none else t.get k' := by
  ext a
  rw [remove, get_retain]
  split
  · next h =>
    subst h
    simp only [reduceCtorEq, iff_false, not_and, decide_eq_true_eq, not_not]
    exact key_of_get
  · next h =>
    simp only [decide_eq_true_eq, and_iff_left_iff_imp]
    intro hget heq
    exact h (heq.symm.trans (key_of_get hget))

theorem get_insert (a : α) (k : κ) :
    (t.insert a).get k = if key a = k then some a else t.get k := by
  split
  · next h => exact get_eq_some.mpr ⟨mem_cons_self, h⟩
  · next h =>
    have hremove := get_remove t (key a) k
    rw [if_neg h] at hremove
    rw [← hremove]
    simp [get, insert, h]

theorem mem_insert {t : Table key} {a b : α} (h : b ∈ (t.insert a).entries) :
    b = a ∨ b ∈ t.entries := by
  rcases mem_cons.mp h with rfl | h
  · exact .inl rfl
  · exact .inr (mem_of_mem_filter h)

theorem get_insertAll (as : List α) (t : Table key) (hnodup : (as.map key).Nodup) (k : κ) :
    (t.insertAll as).get k = ((as.find? (key · = k)).or (t.get k)) := by
  induction as generalizing t with
  | nil => rfl
  | cons a as ih =>
    rw [map_cons, nodup_cons] at hnodup
    have hstep : (t.insertAll (a :: as)).get k = ((t.insert a).insertAll as).get k := rfl
    rw [hstep, ih _ hnodup.2, get_insert]
    by_cases hkey : key a = k
    · have hnone : as.find? (key · = k) = none := by
        rw [find?_eq_none]
        intro b hb heq
        apply hnodup.1
        rw [hkey, ← of_decide_eq_true heq]
        exact mem_map_of_mem hb
      simp [hkey, hnone]
    · simp [hkey]

theorem get_refill {as : List α} (hperm : as.Perm t.entries) (k : κ) :
    ((empty : Table key).insertAll as).get k = t.get k := by
  have hnodup : (as.map key).Nodup := (hperm.map key).nodup_iff.mpr t.nodup
  have hfind : as.find? (key · = k) = t.get k := by
    ext a
    have h : (⟨as, hnodup⟩ : Table key).get k = some a ↔ t.get k = some a := by
      rw [get_eq_some, get_eq_some]
      exact and_congr_left' hperm.mem_iff
    exact h
  rw [get_insertAll as _ hnodup, hfind, get_empty, Option.or_none]

end Table

end Lib
