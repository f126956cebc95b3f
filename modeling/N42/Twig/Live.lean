import Mathlib.Algebra.BigOperators.Group.Finset.Sigma
import N42.Twig.Root
import N42.Twig.Sharded

/-!
The index and the live counters of a `TwigTree`: while the keys that are set have distinct prefixes,
the index holds exactly the live entries, and the counters of `check_consistency` agree.
-/

namespace N42

open Lib List Option Finmap

namespace TwigTree

variable {key : B256} {slot : ℕ} {t : TwigTree}

theorem getElem?_concat_eq_some {α : Type} {l : List α} {a b : α} {i : ℕ} :
    (l ++ [a])[i]? = some b ↔ l[i]? = some b ∨ i = l.length ∧ b = a := by
  grind

/-- The index holds exactly the live entries, by prefix. -/
def Exact (t : TwigTree) : Prop :=
  ∀ pre slot, t.index.lookup pre = some slot ↔
    ∃ e, t.entries[slot]? = some e ∧ e.active = true ∧ keyPrefix e.key = pre

/-- The index is exact away from one prefix, which no live entry has. -/
structure ExactBut (skip : Bytes) (t : TwigTree) : Prop where
  rest : ∀ pre slot, pre ≠ skip → (t.index.lookup pre = some slot ↔
    ∃ e, t.entries[slot]? = some e ∧ e.active = true ∧ keyPrefix e.key = pre)
  free : ∀ (slot : ℕ) (e : Entry), t.entries[slot]? = some e → e.active = true →
    keyPrefix e.key ≠ skip

theorem Exact.new : TwigTree.new.Exact := by
  intro pre slot
  simp [TwigTree.new]

theorem Exact.indexed (h : t.Exact) : t.IndexedBut fun _ => False :=
  fun pre slot _ hs => (h pre slot).mp hs

variable {skip : Bytes}

theorem Exact.but (h : t.Exact) (hskip : t.index.lookup skip = none) : t.ExactBut skip where
  rest pre slot _ := h pre slot
  free slot e he hactive hpre := by
    have := (h skip slot).mpr ⟨e, he, hactive, hpre⟩
    simp [hskip] at this

theorem ExactBut.exact (h : t.ExactBut skip) (hskip : t.index.lookup skip = none) : t.Exact := by
  intro pre slot
  by_cases hpre : pre = skip
  · subst hpre
    simp only [hskip, reduceCtorEq, false_iff]
    rintro ⟨e, he, hactive, heq⟩
    exact h.free slot e he hactive heq
  · exact h.rest pre slot hpre

theorem getElem?_deactivate (t : TwigTree) (slot s : ℕ) :
    (t.deactivate slot).entries[s]? =
      t.entries[s]?.map fun e => if slot = s then { e with active := false } else e := by
  simp only [deactivate, getElem?_modify]
  rfl

/-- Deactivating the slot a prefix leads to frees the prefix. -/
theorem Exact.deactivate (h : t.Exact) {slot : ℕ} (hslot : t.index.lookup skip = some slot) :
    (t.deactivate slot).ExactBut skip := by
  have hlive : ∀ (s : ℕ) (e : Entry) (pre : Bytes),
      ((t.deactivate slot).entries[s]? = some e ∧ e.active = true ∧ keyPrefix e.key = pre) ↔
        s ≠ slot ∧ t.entries[s]? = some e ∧ e.active = true ∧ keyPrefix e.key = pre := by
    intro s e pre
    rw [getElem?_deactivate]
    by_cases hs : slot = s
    · subst hs
      simp only [ne_eq, not_true_eq_false, false_and, iff_false]
      rintro ⟨hsome, hactive, -⟩
      obtain ⟨e₀, -, rfl⟩ := map_eq_some_iff.mp hsome
      simp at hactive
    · simp only [if_neg hs, Option.map_id']
      exact ⟨fun hp => ⟨fun heq => hs heq.symm, hp⟩, fun hp => hp.2⟩
  constructor
  · intro pre s hpre
    show t.index.lookup pre = some s ↔ _
    rw [h pre s]
    refine exists_congr fun e => ?_
    rw [hlive]
    refine ⟨fun hp => ⟨?_, hp⟩, fun hp => hp.2⟩
    rintro rfl
    obtain ⟨e₀, he₀, -, hpre₀⟩ := (h skip s).mp hslot
    obtain rfl : e₀ = e := by simpa [he₀] using hp.1
    exact hpre (hp.2.2.symm.trans hpre₀)
  · intro s e he hactive hpre
    obtain ⟨hne, he, -, -⟩ := (hlive s e skip).mp ⟨he, hactive, hpre⟩
    have := (h skip s).mpr ⟨e, he, hactive, hpre⟩
    rw [hslot] at this
    exact hne (Option.some.inj this).symm

/-- No two of the keys share a prefix. -/
abbrev PrefixFree (K : B256 → Prop) : Prop :=
  ∀ a b, K a → K b → keyPrefix a = keyPrefix b → a = b

/-- Entries over keys from `K`, one for each slot, and their exact index. -/
structure Indexed (K : B256 → Prop) (t : TwigTree) : Prop where
  slots : t.entries.length = t.nextSlot
  exact : t.Exact
  keys : ∀ e ∈ t.entries, K e.key

variable {K : B256 → Prop}

/-- With distinct prefixes the check against the full key never fails. -/
theorem Indexed.lookup_eq (h : t.Indexed K) (hK : PrefixFree K)
    (hkey : K key) : t.lookup key = t.index.lookup (keyPrefix key) := by
  rw [lookup]
  cases hindex : t.index.lookup (keyPrefix key) with
  | none => rfl
  | some slot =>
    obtain ⟨e, he, -, hpre⟩ := (h.exact _ _).mp hindex
    have : e.key = key := hK _ _ (h.keys e (mem_of_getElem? he)) hkey hpre
    simp [he, this]

theorem Indexed.delete (h : t.Indexed K) (key : B256) : (t.delete key).2.Indexed K := by
  unfold TwigTree.delete
  cases hlookup : t.lookup key with
  | none => exact h
  | some slot =>
    obtain ⟨hindex, -⟩ := lookup_eq_some hlookup
    have hbut := h.exact.deactivate hindex
    have hbut' : ({ t with index := t.index.erase (keyPrefix key) }.deactivate slot).ExactBut
        (keyPrefix key) := by
      refine ⟨fun pre s hpre => ?_, hbut.free⟩
      refine Iff.trans ?_ (hbut.rest pre s hpre)
      show (t.index.erase (keyPrefix key)).lookup pre = some s ↔ t.index.lookup pre = some s
      rw [lookup_erase_ne hpre]
    exact ⟨by simpa [deactivate] using h.slots, hbut'.exact (by simp [deactivate]),
      Stores.modify_entries (t := { t with index := t.index.erase (keyPrefix key) })
        h.keys (fun _ he => he) slot⟩

def liveSlots (t : TwigTree) : Finset ℕ :=
  (Finset.range t.entries.length).filter fun s => t.entries[s]?.any Entry.active

theorem mem_liveSlots :
    slot ∈ t.liveSlots ↔ ∃ e, t.entries[slot]? = some e ∧ e.active = true := by
  rw [liveSlots, Finset.mem_filter]
  cases hentry : t.entries[slot]? with
  | none => simp
  | some e => simp [(List.getElem?_eq_some_iff.mp hentry).1]

def Tallied (t : TwigTree) : Prop :=
  ∀ (id : ℕ) (tw : Twig), t.twigs[id]? = some tw →
    tw.live = (t.liveSlots.filter (· / TWIG_SIZE = id)).card

theorem Tallied.new : TwigTree.new.Tallied := by
  intro id tw htw
  simp [TwigTree.new] at htw

theorem card_liveSlots (t : TwigTree) : t.liveSlots.card = t.entries.countP Entry.active := by
  rw [liveSlots]
  induction t.entries using List.reverseRecOn with
  | nil => rfl
  | append_singleton l e ih =>
    have hold : (Finset.range l.length).filter (fun s => (l ++ [e])[s]?.any Entry.active) =
        (Finset.range l.length).filter fun s => l[s]?.any Entry.active := by
      refine Finset.filter_congr fun s hs => ?_
      rw [getElem?_append_left (Finset.mem_range.mp hs)]
    rw [length_append, length_singleton, Finset.range_add_one, Finset.filter_insert, hold,
      countP_append, ← ih]
    cases hactive : e.active <;> simp [hactive]

theorem Exact.card_liveSlots (h : t.Exact) : t.liveSlots.card = t.index.len := by
  have himage : t.liveSlots = t.index.keys.image fun pre => (t.index.lookup pre).getD 0 := by
    ext slot
    rw [mem_liveSlots, Finset.mem_image]
    constructor
    · rintro ⟨e, he, hactive⟩
      have hindex := (h _ slot).mpr ⟨e, he, hactive, rfl⟩
      exact ⟨_, Finmap.mem_keys.mpr (Finmap.mem_of_lookup_eq_some hindex), by simp [hindex]⟩
    · rintro ⟨pre, hpre, rfl⟩
      obtain ⟨slot, hindex⟩ := Finmap.mem_iff.mp (Finmap.mem_keys.mp hpre)
      obtain ⟨e, he, hactive, -⟩ := (h pre slot).mp hindex
      exact ⟨e, by simpa [hindex] using he, hactive⟩
  rw [himage]
  refine Finset.card_image_of_injOn fun a ha b hb hab => ?_
  obtain ⟨slot, hslot⟩ := Finmap.mem_iff.mp (Finmap.mem_keys.mp ha)
  obtain ⟨slot', hslot'⟩ := Finmap.mem_iff.mp (Finmap.mem_keys.mp hb)
  obtain rfl : slot = slot' := by simpa [hslot, hslot'] using hab
  obtain ⟨e, he, -, hpre⟩ := (h a slot).mp hslot
  obtain ⟨e', he', -, hpre'⟩ := (h b slot).mp hslot'
  obtain rfl : e = e' := by simpa [he] using he'
  exact hpre.symm.trans hpre'

/-- The three live counters agree. -/
def Counted (t : TwigTree) : Prop :=
  t.index.len = (t.twigs.map Twig.live).sum ∧ t.index.len = t.entries.countP Entry.active

theorem Counted.checkConsistency (h : t.Counted) : t.checkConsistency = .ok () := by
  exact if_neg (by simp [h.1.symm, h.2.symm])

variable [Crypto] {leaf : ℕ → B256}

theorem ExactBut.append (h : t.ExactBut (keyPrefix key)) (hslots : t.entries.length = t.nextSlot)
    (value : Bytes) (digest : B256) : (t.append key value digest).Exact := by
  intro pre slot
  have hentries : (t.append key value digest).entries = t.entries ++
      [{ key, voff := t.valueArena.length, vlen := value.length % 2 ^ 32, active := true }] := rfl
  have hindex : (t.append key value digest).index = t.index.insert (keyPrefix key) t.nextSlot := rfl
  simp only [hentries, hindex, getElem?_concat_eq_some]
  by_cases hpre : pre = keyPrefix key
  · subst hpre
    rw [lookup_insert, Option.some.injEq, ← hslots]
    constructor
    · rintro rfl
      exact ⟨_, Or.inr ⟨rfl, rfl⟩, rfl, rfl⟩
    · rintro ⟨e, he | he, hactive, heq⟩
      · exact absurd heq (h.free slot e he hactive)
      · exact he.1.symm
  · rw [lookup_insert_of_ne _ hpre, h.rest pre slot hpre]
    refine exists_congr fun e => and_congr_left fun ⟨hactive, heq⟩ => (or_iff_left ?_).symm
    rintro ⟨-, rfl⟩
    exact hpre heq.symm

theorem Indexed.setWithLeaf (h : t.Indexed K) (hK : PrefixFree K)
    (hkey : K key) (value : Bytes) (digest : B256) :
    (t.setWithLeaf key value digest).Indexed K := by
  have happend : ∀ t' : TwigTree, t'.ExactBut (keyPrefix key) →
      t'.entries.length = t'.nextSlot → (∀ e ∈ t'.entries, K e.key) →
      (t'.append key value digest).Indexed K := fun t' hbut hslots hkeys =>
    ⟨by simp [append, hslots], hbut.append hslots _ _,
      forall_mem_append.mpr ⟨hkeys, forall_mem_singleton.mpr hkey⟩⟩
  unfold TwigTree.setWithLeaf
  rw [h.lookup_eq hK hkey]
  cases hindex : t.index.lookup (keyPrefix key) with
  | none => exact happend t (h.exact.but hindex) h.slots h.keys
  | some old =>
    exact happend _ (h.exact.deactivate hindex) (by simpa [deactivate] using h.slots)
      (Stores.modify_entries h.keys (fun _ he => he) old)

theorem Stores.twig_lt (h : t.Stores leaf) (hslot : slot ∈ t.liveSlots) :
    slot / TWIG_SIZE < t.twigs.length := by
  obtain ⟨tw, htw⟩ := h.twig_of_slot (Finset.mem_range.mp (Finset.mem_filter.mp hslot).1)
  exact (List.getElem?_eq_some_iff.mp htw).1

theorem Stores.card_liveSlots (h : t.Stores leaf) (htally : t.Tallied) :
    t.liveSlots.card = (t.twigs.map Twig.live).sum := by
  have hlive : t.twigs.map Twig.live =
      (range t.twigs.length).map fun id => (t.liveSlots.filter (· / TWIG_SIZE = id)).card := by
    refine List.ext_getElem (by simp) fun id hid _ => ?_
    rw [getElem_map, getElem_map, getElem_range]
    exact htally id _ (getElem?_eq_getElem _)
  rw [hlive, Finset.card_eq_sum_card_fiberwise (f := (· / TWIG_SIZE))
    (t := Finset.range t.twigs.length) fun slot hslot => ?_]
  · rfl
  · exact Finset.mem_coe.mpr (Finset.mem_range.mpr (h.twig_lt hslot))

theorem Stores.counted (h : t.Stores leaf) (hexact : t.Exact) (htally : t.Tallied) : t.Counted :=
  ⟨hexact.card_liveSlots.symm.trans (h.card_liveSlots htally),
    hexact.card_liveSlots.symm.trans t.card_liveSlots⟩

theorem Tallied.ensureTwigs (htally : t.Tallied)
    (hlt : ∀ s ∈ t.liveSlots, s / TWIG_SIZE < t.twigs.length) {count id : ℕ} {tw : Twig}
    (htw : (ensureTwigs t.twigs count)[id]? = some tw) :
    tw.live = (t.liveSlots.filter (· / TWIG_SIZE = id)).card := by
  rw [TwigTree.ensureTwigs, getElem?_append] at htw
  split_ifs at htw with hid
  · exact htally id tw htw
  · rw [eq_of_mem_replicate (mem_of_getElem? htw)]
    refine (Finset.card_eq_zero.mpr (Finset.filter_eq_empty_iff.mpr ?_)).symm
    rintro s hs rfl
    exact hid (hlt s hs)

theorem Tallied.append (htally : t.Tallied) (h : t.Stores leaf) (value : Bytes) (digest : B256) :
    (t.append key value digest).Tallied := by
  have hlive : (t.append key value digest).liveSlots = insert t.nextSlot t.liveSlots := by
    ext s
    simp only [mem_liveSlots, Finset.mem_insert, TwigTree.append, getElem?_concat_eq_some, h.slots]
    constructor
    · rintro ⟨e, he | ⟨hs, -⟩, hactive⟩
      · exact .inr ⟨e, he, hactive⟩
      · exact .inl hs
    · rintro (hs | ⟨e, he, hactive⟩)
      · exact ⟨_, .inr ⟨hs, rfl⟩, rfl⟩
      · exact ⟨e, .inl he, hactive⟩
  have hnew : t.nextSlot ∉ t.liveSlots := by
    rw [mem_liveSlots, ← h.slots]
    simp
  intro id tw htw
  rw [hlive, Finset.filter_insert]
  simp only [TwigTree.append, getElem?_modify] at htw
  obtain ⟨tw₀, htw₀, rfl⟩ := Option.map_eq_some_iff.mp htw
  have hcount := htally.ensureTwigs (fun _ => h.twig_lt) htw₀
  by_cases hid : t.nextSlot / TWIG_SIZE = id
  · rw [if_pos hid, if_pos hid, Finset.card_insert_of_notMem (by simp [hnew]), ← hcount]
    rfl
  · rwa [if_neg hid, if_neg hid]

theorem live_repair (tw : Twig) (locals : List ℕ) : (tw.repair locals).live = tw.live := by
  unfold Twig.repair
  split
  · split <;> rfl
  · rfl

theorem live_repairTouched (fuel : ℕ) (todo : List ℕ) (twigs : List Twig) :
    (repairTouched fuel todo twigs).map Twig.live = twigs.map Twig.live := by
  induction fuel generalizing todo twigs with
  | zero => rfl
  | succ fuel ih =>
    cases todo with
    | nil => rfl
    | cons slot rest =>
      rw [repairTouched, ih]
      apply ext_getElem?
      intro id
      simp only [getElem?_map, getElem?_modify]
      cases twigs[id]? with
      | none => rfl
      | some tw => split <;> simp [live_repair]

theorem Tallied.root (htally : t.Tallied) : t.root.2.Tallied := by
  intro id tw htw
  rw [root_snd] at htw ⊢
  have hlive := congrArg (·[id]?) (live_repairTouched
    ((t.touched.mergeSort (· ≤ ·)).destutter (· ≠ ·)).length
    ((t.touched.mergeSort (· ≤ ·)).destutter (· ≠ ·)) t.twigs)
  simp only [getElem?_map, htw] at hlive
  obtain ⟨tw₀, htw₀, hsame⟩ := Option.map_eq_some_iff.mp hlive.symm
  exact hsame.symm.trans (htally id tw₀ htw₀)

end TwigTree

end N42
