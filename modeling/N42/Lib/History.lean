import Mathlib.Data.List.Infix

/-!
Histories: lists of events, newest first, in which every event was allowed by a rule
that looks at the events before it.
-/

namespace Lib

variable {α : Type}

/-- Every event of the history was allowed by the events older than it. -/
inductive Lawful (rule : List α → α → Prop) : List α → Prop where
  | nil : Lawful rule []
  | cons {h : List α} {x : α} (tail : Lawful rule h) (allowed : rule h x) : Lawful rule (x :: h)

namespace Lawful

variable {rule : List α → α → Prop} {h : List α}

theorem tail_of_cons {x : α} (hl : Lawful rule (x :: h)) : Lawful rule h := by
  cases hl with
  | cons tail _ => exact tail

theorem rule_of_cons {x : α} (hl : Lawful rule (x :: h)) : rule h x := by
  cases hl with
  | cons _ allowed => exact allowed

/-- What was lawful up to some point stays so: cutting off newer events keeps the rule. -/
theorem of_append {new : List α} (hl : Lawful rule (new ++ h)) : Lawful rule h := by
  induction new with
  | nil => exact hl
  | cons x new ih => exact ih hl.tail_of_cons

theorem of_suffix {h' : List α} (hl : Lawful rule h) (hs : h' <:+ h) : Lawful rule h' := by
  obtain ⟨new, rfl⟩ := hs
  exact hl.of_append

theorem exists_of_mem {x : α} (hl : Lawful rule h) (hx : x ∈ h) :
    ∃ new old, h = new ++ x :: old ∧ Lawful rule old ∧ rule old x := by
  obtain ⟨new, old, rfl⟩ := List.append_of_mem hx
  have hcons : Lawful rule (x :: old) := hl.of_append
  exact ⟨new, old, rfl, hcons.tail_of_cons, hcons.rule_of_cons⟩

/-- What the events of a history assert is one value, if each asserts one and agrees with those
before it. -/
theorem agree {β : Type} {p : α → β → Prop} (hl : Lawful rule h)
    (hself : ∀ {x a b}, p x a → p x b → a = b)
    (hstep : ∀ {old x}, Lawful rule (x :: old) →
      (∀ {y z a b}, y ∈ old → z ∈ old → p y a → p z b → a = b) →
      ∀ {y a b}, y ∈ old → p x a → p y b → a = b)
    {x y : α} {a b : β} (hx : x ∈ h) (hy : y ∈ h) (ha : p x a) (hb : p y b) : a = b := by
  induction hl generalizing x y a b with
  | nil => cases hx
  | cons tail allowed ih =>
    have hlater := @hstep _ _ (.cons tail allowed) ih
    rcases List.mem_cons.mp hx with rfl | hx' <;> rcases List.mem_cons.mp hy with rfl | hy'
    · exact hself ha hb
    · exact hlater hy' ha hb
    · exact (hlater hx' hb ha).symm
    · exact ih hx' hy' ha hb

end Lawful

end Lib
