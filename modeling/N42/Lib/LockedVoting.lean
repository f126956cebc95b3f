import N42.Lib.History
import Mathlib.Data.Set.Basic

/-!
Safety of voting in two rounds with locks: a second vote needs a quorum of first votes and locks the
node; a first vote in a later view needs a certified justification at or above the lock, and extends
it.
-/

namespace Lib

open List

/-- Which sets of honest nodes witness a quorum. -/
structure QuorumSystem (Node : Type) where
  IsQuorum : Set Node → Prop
  mono : ∀ {S T : Set Node}, IsQuorum S → S ⊆ T → IsQuorum T
  inter : ∀ {S T : Set Node}, IsQuorum S → IsQuorum T → ∃ i, i ∈ S ∧ i ∈ T

inductive Ballot (Block : Type) where
  | first (view : ℕ) (block : Block)
  | second (view : ℕ) (block : Block)

variable {Node Block : Type} (Q : QuorumSystem Node) (parent : Block → Block → Prop)

def Carried (h : List (Node × Ballot Block)) (x : Ballot Block) : Prop :=
  Q.IsQuorum {i | (i, x) ∈ h}

/-- When a node may cast a ballot. -/
def BallotRule (h : List (Node × Ballot Block)) : Node × Ballot Block → Prop
  | (i, .first w b) =>
    (∀ b', (i, .first w b') ∈ h → b' = b) ∧
      ∃ u q, (0 < u → parent q b ∧ Carried Q h (.first u q)) ∧
        ∀ c b', (i, .second c b') ∈ h → c < w → c ≤ u
  | (i, .second c b) =>
    0 < c ∧ (∀ b', (i, .second c b') ∈ h → b' = b) ∧ Carried Q h (.first c b) ∧
      ∀ w b', (i, .first w b') ∈ h → w ≤ c

/-- One of the two blocks is an ancestor of the other, or they are equal. -/
def OneChain (a b : Block) : Prop :=
  Relation.ReflTransGen parent a b ∨ Relation.ReflTransGen parent b a

variable {Q parent} {h h' : List (Node × Ballot Block)}

theorem Carried.mono {x : Ballot Block} (hc : Carried Q h x) (hs : h <:+ h') : Carried Q h' x :=
  Q.mono hc fun _ hi => hs.subset hi

section Safety

variable (hl : Lawful (BallotRule Q parent) h)

include hl

variable {a b : Block}

theorem carried_first_unique {v : ℕ} (ha : Carried Q h (.first v a))
    (hb : Carried Q h (.first v b)) : a = b := by
  obtain ⟨i, ha, hb⟩ := Q.inter ha hb
  refine hl.agree (p := fun x c => x = (i, .first v c)) ?_ ?_ ha hb rfl rfl
  · rintro _ a b rfl heq
    exact (Ballot.first.inj (Prod.mk.inj heq).2).2
  · rintro old _ hnew - _ a b hold rfl rfl
    exact (hnew.rule_of_cons.1 b hold).symm

theorem second_before_first {i : Node} {c w : ℕ} {old new : List (Node × Ballot Block)}
    (hsplit : h = new ++ (i, .first w b) :: old) (ha : (i, .second c a) ∈ h) (hlt : c < w) :
    (i, .second c a) ∈ old := by
  subst hsplit
  induction new with
  | nil => simpa using ha
  | cons x new ih =>
    rcases mem_cons.mp ha with rfl | ha
    · have hle := hl.rule_of_cons.2.2.2 w b (by simp)
      omega
    · exact ih hl.tail_of_cons ha

theorem carried_first_of_second {c : ℕ} {b : Block} (hc : Carried Q h (.second c b)) :
    Carried Q h (.first c b) ∧ 0 < c := by
  obtain ⟨i, hi, -⟩ := Q.inter hc hc
  obtain ⟨new, old, rfl, -, hpos, -, hcarried, -⟩ := hl.exists_of_mem hi
  exact ⟨hcarried.mono ((suffix_cons _ _).trans (suffix_append _ _)), hpos⟩

theorem descendant_of_first {c : ℕ} {b : Block} (hc : Carried Q h (.second c b))
    {old : List (Node × Ballot Block)} (hold : old <:+ h) :
    ∀ i w b', (i, .first w b') ∈ old → (i, .second c b) ∈ h → c < w →
      Relation.ReflTransGen parent b b' := by
  obtain ⟨hfirst, hpos⟩ := carried_first_of_second hl hc
  -- in the order in which the votes were cast: the justification is older than the vote
  induction old with
  | nil =>
    intro i w b' hmem
    cases hmem
  | cons x old ih =>
    have ih := ih ((suffix_cons _ _).trans hold)
    intro i w b' hmem hi hlt
    rcases mem_cons.mp hmem with rfl | hmem
    · obtain ⟨new, rfl⟩ := hold
      have hbefore := second_before_first hl rfl hi hlt
      obtain ⟨-, u, q, hjustified, hlock⟩ := (hl.of_append).rule_of_cons
      have hcu := hlock c b hbefore hlt
      obtain ⟨hparent, hcarried⟩ := hjustified (by omega)
      have hsuffix : old <:+ new ++ (i, .first w b') :: old :=
        (suffix_cons _ _).trans (suffix_append _ _)
      rcases hcu.eq_or_lt with rfl | hcu
      · obtain rfl := carried_first_unique hl hfirst (hcarried.mono hsuffix)
        exact .single hparent
      · obtain ⟨j, hjq, hjc⟩ := Q.inter hcarried hc
        exact (ih j u q hjq hjc hcu).tail hparent
    · exact ih i w b' hmem hi hlt

theorem committed_one_chain {c c' : ℕ} {b b' : Block} (hc : Carried Q h (.second c b))
    (hc' : Carried Q h (.second c' b')) : OneChain parent b b' := by
  -- the block of the lower view is an ancestor of the other
  have hordered : ∀ {c c' : ℕ} {b b' : Block}, Carried Q h (.second c b) →
      Carried Q h (.second c' b') → c < c' → Relation.ReflTransGen parent b b' := by
    intro c c' b b' hc hc' hlt
    obtain ⟨i, hi, hi'⟩ := Q.inter hc (carried_first_of_second hl hc').1
    exact descendant_of_first hl hc (suffix_refl _) i c' b' hi' hi hlt
  rcases lt_trichotomy c c' with hlt | rfl | hlt
  · exact .inl (hordered hc hc' hlt)
  · obtain rfl := carried_first_unique hl (carried_first_of_second hl hc).1
      (carried_first_of_second hl hc').1
    exact .inl .refl
  · exact .inr (hordered hc' hc hlt)

end Safety

end Lib
