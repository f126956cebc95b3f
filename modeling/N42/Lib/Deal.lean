import Mathlib.Data.Int.CardIntervalMod

/-!
Dealing cards in turn to `k` hands.
-/

namespace Lib

open List

variable {α : Type} (k : ℕ) (hands : List (List α))

def deal (cards : List α) : List (List α) :=
  cards.zipIdx.foldl (fun hands card => hands.modify (card.2 % k) (· ++ [card.1])) hands

theorem deal_concat (cards : List α) (card : α) : deal k hands (cards ++ [card]) =
    (deal k hands cards).modify (cards.length % k) (· ++ [card]) := by
  simp [deal, zipIdx_append]

@[simp] theorem length_deal (cards : List α) : (deal k hands cards).length = hands.length := by
  induction cards using List.reverseRecOn with
  | nil => rfl
  | append_singleton cards card ih => rw [deal_concat, length_modify, ih]

theorem flatten_modify_perm (card : α) {hands : List (List α)} {i : ℕ} (hi : i < hands.length) :
    (hands.modify i (· ++ [card])).flatten.Perm (hands.flatten ++ [card]) := by
  have hsplit : hands.flatten =
      (take i hands).flatten ++ (hands[i] ++ (drop (i + 1) hands).flatten) := by
    rw [← flatten_cons, ← drop_eq_getElem_cons hi, ← flatten_append, take_append_drop]
  rw [modify_eq_take_cons_drop hi, hsplit]
  simp only [flatten_append, flatten_cons, append_assoc]
  exact (perm_append_comm.append_left _).append_left _

variable {k hands}

/-- Every card ends in some hand. -/
theorem flatten_deal_perm (hk : 0 < k) (hlength : hands.length = k) (cards : List α) :
    (deal k hands cards).flatten.Perm (hands.flatten ++ cards) := by
  induction cards using List.reverseRecOn with
  | nil => simp [deal]
  | append_singleton cards card ih =>
    rw [deal_concat, ← append_assoc]
    have hlt : cards.length % k < (deal k hands cards).length := by
      rw [length_deal, hlength]
      exact Nat.mod_lt _ hk
    exact (flatten_modify_perm card hlt).trans (ih.append_right [card])

/-- A hand keeps what it had and gets the cards of its turns. -/
theorem getElem?_deal {cards hand : List α} {i : ℕ} (h : (deal k hands cards)[i]? = some hand) :
    ∃ start, hands[i]? = some start ∧ start ⊆ hand ∧
      hand.length = start.length + Nat.count (· % k = i) cards.length := by
  induction cards using List.reverseRecOn generalizing hand with
  | nil => exact ⟨hand, h, Subset.refl hand, rfl⟩
  | append_singleton cards card ih =>
    rw [deal_concat, getElem?_modify] at h
    obtain ⟨before, hbefore, rfl⟩ := Option.map_eq_some_iff.mp h
    obtain ⟨start, hstart, hsub, hlength⟩ := ih hbefore
    refine ⟨start, hstart, ?_, ?_⟩
    · split
      · exact fun c hc => mem_append_left _ (hsub hc)
      · exact hsub
    · rw [length_append, length_singleton, Nat.count_succ]
      split <;> simp [hlength, Nat.add_assoc]

/-- Hands of one length stay equally long up to one card. -/
theorem length_le_of_deal (hk : 0 < k) (hlength : hands.length = k) {n : ℕ}
    (hsame : ∀ hand ∈ hands, hand.length = n) {cards hand hand' : List α}
    (hhand : hand ∈ deal k hands cards) (hhand' : hand' ∈ deal k hands cards) :
    hand.length ≤ hand'.length + 1 := by
  have hcount : ∀ hand ∈ deal k hands cards,
      n + cards.length / k ≤ hand.length ∧ hand.length ≤ n + cards.length / k + 1 := by
    intro hand hmem
    obtain ⟨i, hi⟩ := mem_iff_getElem?.mp hmem
    obtain ⟨start, hstart, -, hlen⟩ := getElem?_deal hi
    have hik : i % k = i := Nat.mod_eq_of_lt (hlength ▸ (List.getElem?_eq_some_iff.mp hstart).1)
    have hturns := Nat.count_modEq_card cards.length hk i
    simp only [Nat.ModEq, hik] at hturns
    rw [hlen, hsame start (mem_of_getElem? hstart), hturns]
    split <;> omega
  have hfew := (hcount hand hhand).2
  have hmany := (hcount hand' hhand').1
  omega

end Lib
