import N42.Symbolic.Scheme

/-!
The sets that pending changes stage, whatever calls led to the changes: of each address, the member
that stays or else the first addition. Keys are not compared.
-/

namespace N42

open Lib List

def holder (l : List ValidatorInfo) (address : Address) : Option ValidatorInfo :=
  l.find? fun v => v.address == address

theorem holder_cons (v : ValidatorInfo) (l : List ValidatorInfo) (address : Address) :
    holder (v :: l) address = if v.address = address then some v else holder l address := by
  by_cases h : v.address = address <;> simp [holder, h]

theorem address_of_holder {l : List ValidatorInfo} {address : Address} {v : ValidatorInfo}
    (h : holder l address = some v) : v.address = address := by
  simpa using find?_some h

theorem mem_iff_holder {l : List ValidatorInfo} (h : (l.map (·.address)).Nodup)
    {v : ValidatorInfo} : v ∈ l ↔ holder l v.address = some v := by
  constructor
  · intro hv
    induction l with
    | nil => cases hv
    | cons w l ih =>
      obtain ⟨hw, hl⟩ := nodup_cons.mp h
      rw [holder_cons]
      rcases mem_cons.mp hv with rfl | hv
      · rw [if_pos rfl]
      · rw [if_neg, ih hl hv]
        intro heq
        exact hw (mem_map.mpr ⟨v, hv, heq.symm⟩)
  · exact mem_of_find?_eq_some

namespace EpochManager

abbrev addressLe (v w : ValidatorInfo) : Prop := v.address.toNat ≤ w.address.toNat

instance : Std.Total addressLe := ⟨fun _ _ => Nat.le_total _ _⟩

instance : IsTrans ValidatorInfo addressLe := ⟨fun _ _ _ => Nat.le_trans⟩

variable (l : List ValidatorInfo) (address : Address)

theorem holder_insertionSort : holder (l.insertionSort addressLe) address = holder l address := by
  induction l with
  | nil => rfl
  | cons v l ih =>
    have hinsert : ∀ m, holder (m.orderedInsert addressLe v) address = holder (v :: m) address := by
      intro m
      induction m with
      | nil => rfl
      | cons w m ihm =>
        rw [List.orderedInsert]
        split
        · rfl
        · next hlt =>
          rw [holder_cons, ihm, holder_cons, holder_cons, holder_cons]
          split_ifs with hw hv
          · exact absurd (congrArg BitVec.toNat (hv.trans hw.symm)).le hlt
          all_goals rfl
    rw [insertionSort_cons, hinsert, holder_cons, holder_cons, ih]

theorem holder_dedupAfter {previous address : Address} (h : address ≠ previous)
    (l : List ValidatorInfo) : holder (dedupAfter previous l) address = holder l address := by
  induction l generalizing previous with
  | nil => rfl
  | cons v l ih =>
    rw [dedupAfter, holder_cons]
    split_ifs with hprevious haddress haddress
    · exact absurd (haddress.symm.trans hprevious) h
    · exact ih h
    · rw [holder_cons, if_pos haddress]
    · rw [holder_cons, if_neg haddress, ih (Ne.symm haddress)]

theorem holder_dedupByAddress : holder (dedupByAddress l) address = holder l address := by
  cases l with
  | nil => rfl
  | cons v l =>
    rw [dedupByAddress, holder_cons, holder_cons]
    split_ifs with h
    · rfl
    · exact holder_dedupAfter (Ne.symm h) l

theorem dedupAfter_above {previous : Address} {l : List ValidatorInfo} (hl : l.Pairwise addressLe)
    (h : ∀ v ∈ l, previous.toNat ≤ v.address.toNat) :
    (∀ v ∈ dedupAfter previous l, previous.toNat < v.address.toNat) ∧
      (previous :: (dedupAfter previous l).map (·.address)).Nodup := by
  induction l generalizing previous with
  | nil => simp [dedupAfter]
  | cons v l ih =>
    obtain ⟨hv, hl⟩ := pairwise_cons.mp hl
    obtain ⟨hfirst, hrest⟩ := forall_mem_cons.mp h
    rw [dedupAfter]
    split_ifs with heq
    · exact ih hl hrest
    · obtain ⟨habove, hnodup⟩ := ih hl hv
      have hlt : previous.toNat < v.address.toNat :=
        lt_of_le_of_ne hfirst fun h => heq (BitVec.eq_of_toNat_eq h.symm)
      have hall : ∀ w ∈ v :: dedupAfter v.address l, previous.toNat < w.address.toNat :=
        forall_mem_cons.mpr ⟨hlt, fun w hw => hlt.trans (habove w hw)⟩
      refine ⟨hall, nodup_cons.mpr ⟨fun hmem => ?_, hnodup⟩⟩
      obtain ⟨w, hw, heq⟩ := mem_map.mp hmem
      exact absurd (congrArg BitVec.toNat heq).le (hall w hw).not_ge

theorem nodup_rebuild (members adds : List ValidatorInfo) (removes : List Address) :
    ((rebuild members adds removes).map (·.address)).Nodup := by
  unfold rebuild
  have hsorted := pairwise_insertionSort addressLe
    ((members.filter fun v => !removes.contains v.address) ++ adds)
  cases hsort : List.insertionSort addressLe
      ((members.filter fun v => !removes.contains v.address) ++ adds) with
  | nil => exact nodup_nil
  | cons v l =>
    rw [hsort] at hsorted
    obtain ⟨hv, hl⟩ := pairwise_cons.mp hsorted
    exact (dedupAfter_above hl hv).2

def nextHolder (em : EpochManager) (address : Address) : Option ValidatorInfo :=
  holder ((em.currentSet.validators.filter fun v => !em.pendingRemoves.contains v.address) ++
    em.pendingAdds) address

/-- Whatever calls made the changes pending: a set that is staged has enough members, at
distinct addresses, of which a quorum of the active set; and they have distinct keys exactly if
the changes leave no key with two addresses. -/
theorem staged_set_safe_iff [Crypto] {em em' : EpochManager}
    (hpending : em.hasPendingChanges = true) (hcommit : em.commitPendingChanges = .ok em') :
    ∃ next, em'.nextSet = some next ∧ 4 ≤ next.len ∧
      (next.validators.map (·.address)).Nodup ∧ next.faultTolerance = (next.len - 1) / 3 ∧
      em.currentSet.quorumSize ≤
        em.currentSet.validators.countP (fun v => next.containsAddress v.address) ∧
      ((next.validators.map (·.blsPublicKey)).Nodup ↔ ∀ a b v w, em.nextHolder a = some v →
        em.nextHolder b = some w → v.blsPublicKey = w.blsPublicKey → a = b) := by
  obtain ⟨hnone, -⟩ | ⟨-, next, hsafe, hmembers, hfault, rfl⟩ := commitPendingChanges_ok hcommit
  · rw [hnone] at hpending
    cases hpending
  obtain ⟨hlength, hoverlap⟩ := validateTransition_eq_ok.mp hsafe
  have hnodup : (next.validators.map (·.address)).Nodup := hmembers ▸ nodup_rebuild _ _ _
  have hholder : ∀ a, holder next.validators a = em.nextHolder a := fun a => by
    rw [hmembers, rebuild, holder_dedupByAddress, holder_insertionSort]
    rfl
  refine ⟨next, rfl, hlength, hnodup, hfault, hoverlap, ?_⟩
  rw [nodup_map_iff_inj_on hnodup.of_map]
  constructor
  · intro hinj a b v w hv hw hkey
    rw [← hholder] at hv hw
    obtain rfl := hinj v (mem_of_find?_eq_some hv) w (mem_of_find?_eq_some hw) hkey
    exact (address_of_holder hv).symm.trans (address_of_holder hw)
  · intro hapart v hv w hw hkey
    rw [mem_iff_holder hnodup, hholder] at hv hw
    rw [hapart _ _ v w hv hw hkey, hw] at hv
    exact Option.some.inj hv.symm

section Samples

open Symbolic

def fourActive : EpochManager :=
  fromEpochWithHistory ⟨(List.range 4).map validator, 1, by decide⟩ 4 0 8

def joining (k : ℕ) : EpochManager :=
  { fourActive with pendingAdds := [⟨9, (validator k).blsPublicKey, none⟩] }

theorem staged_set_safe_of_joining : ∃ em' next, (joining 4).commitPendingChanges = .ok em' ∧
    em'.nextSet = some next ∧ (next.validators.map (·.address)).Nodup := by
  have hok : (joining 4).commitPendingChanges.toBool = true := by decide
  cases hcommit : (joining 4).commitPendingChanges with
  | error err =>
    rw [hcommit] at hok
    cases hok
  | ok em' =>
    obtain ⟨next, hnext, -, hnodup, -⟩ := staged_set_safe_iff (by decide) hcommit
    exact ⟨em', next, rfl, hnext, hnodup⟩

/-- An addition with the key of validator 0 passes, and two members share a key. -/
theorem staged_set_shares_key :
    fourActive.proposeAddValidator ⟨9, (validator 0).blsPublicKey, none⟩ = .ok (joining 0) ∧
    ((joining 0).commitPendingChanges.toOption.bind (·.nextSet)).any (fun next =>
      ¬ (next.validators.map (·.blsPublicKey)).Nodup) = true :=
  ⟨rfl, by decide⟩

end Samples

end EpochManager

end N42
