import Mathlib.Data.Finset.Card

/-!
Bounded maps that forget. `Lru` drops the entry that was used longest ago, `Fifo` the one that was
inserted first.
-/

namespace Lib

open List

variable {κ ν : Type} [DecidableEq κ]

def without (k : κ) (entries : List (κ × ν)) : List (κ × ν) := entries.filter (·.1 ≠ k)

variable {entries : List (κ × ν)}

theorem nodup_without {k : κ} (h : (entries.map Prod.fst).Nodup) :
    ((without k entries).map Prod.fst).Nodup :=
  h.sublist (filter_sublist.map Prod.fst)

theorem nodup_cons_without {k : κ} (h : (entries.map Prod.fst).Nodup) (v : ν) :
    (((k, v) :: without k entries).map Prod.fst).Nodup := by
  rw [map_cons, nodup_cons]
  refine ⟨?_, nodup_without h⟩
  simp [without]

/-- A bounded map, the most recently used entry first. -/
structure Lru (κ ν : Type) where
  capacity : ℕ
  entries : List (κ × ν)
  nodup : (entries.map Prod.fst).Nodup
  bound : entries.length ≤ capacity

variable {e : κ × ν}

namespace Lru

def new (capacity : ℕ) : Lru κ ν := ⟨capacity, [], nodup_nil, Nat.zero_le _⟩

variable (c : Lru κ ν) (k : κ)

def lookup : Option ν := (c.entries.find? (·.1 = k)).map Prod.snd

def put (v : ν) : Lru κ ν where
  capacity := c.capacity
  entries := ((k, v) :: without k c.entries).take c.capacity
  nodup := (nodup_cons_without c.nodup v).sublist ((take_sublist _ _).map Prod.fst)
  bound := by simp

def get : Option ν × Lru κ ν :=
  match c.lookup k with
  | some v => (some v, c.put k v)
  | none => (none, c)

def pop : Lru κ ν where
  capacity := c.capacity
  entries := without k c.entries
  nodup := nodup_without c.nodup
  bound := (length_filter_le _ _).trans c.bound

variable (entries : List (κ × ν))

def putAll : Lru κ ν :=
  entries.foldl (fun c e => c.put e.1 e.2) c

@[simp] theorem capacity_get : (c.get k).2.capacity = c.capacity := by
  unfold get
  split <;> rfl

@[simp] theorem capacity_putAll : (c.putAll entries).capacity = c.capacity := by
  induction entries generalizing c with
  | nil => rfl
  | cons e entries ih =>
    exact ih (c.put e.1 e.2)

variable {c : Lru κ ν} {k : κ} {entries : List (κ × ν)}

theorem mem_of_lookup {v : ν} (h : c.lookup k = some v) : (k, v) ∈ c.entries := by
  rw [lookup, Option.map_eq_some_iff] at h
  obtain ⟨e, hfind, rfl⟩ := h
  have hkey : e.1 = k := by simpa using find?_some hfind
  rw [← hkey]
  exact mem_of_find?_eq_some hfind

theorem mem_put {v : ν} (h : e ∈ (c.put k v).entries) : e = (k, v) ∨ e ∈ c.entries ∧ e.1 ≠ k := by
  rcases mem_cons.mp (mem_of_mem_take h) with rfl | h
  · exact .inl rfl
  · exact .inr (by simpa [without] using h)

theorem mem_putAll (h : e ∈ (c.putAll entries).entries) :
    e ∈ entries ∨ e ∈ c.entries ∧ e.1 ∉ entries.map Prod.fst := by
  induction entries generalizing c with
  | nil => exact .inr ⟨h, by simp⟩
  | cons x entries ih =>
    rcases ih h with h | ⟨h, hkey⟩
    · exact .inl (mem_cons_of_mem _ h)
    · rcases mem_put h with rfl | ⟨h, hne⟩
      · exact .inl mem_cons_self
      · exact .inr ⟨h, by simpa [hne] using hkey⟩

theorem mem_of_get {v : ν} (h : (c.get k).1 = some v) : (k, v) ∈ c.entries := by
  unfold get at h
  split at h
  · next v' hv =>
    rw [← Option.some.inj h]
    exact mem_of_lookup hv
  · cases h

theorem mem_get (h : e ∈ (c.get k).2.entries) : e ∈ c.entries := by
  unfold get at h
  split at h
  · next v hv =>
    rcases mem_put h with rfl | ⟨h, -⟩
    · exact mem_of_lookup hv
    · exact h
  · exact h

/-- `k` is held, and every key used since it was last used is in `keys`. -/
def Recent (keys : Finset κ) (c : Lru κ ν) (k : κ) : Prop :=
  ∃ newer v older, c.entries = newer ++ (k, v) :: older ∧ ∀ e ∈ newer, e.1 ∈ keys

variable {keys : Finset κ}

theorem Recent.lookup (h : c.Recent keys k) : ∃ v, c.lookup k = some v := by
  obtain ⟨newer, v, older, hentries, -⟩ := h
  rw [← Option.isSome_iff_exists, Lru.lookup, Option.isSome_map, find?_isSome]
  exact ⟨(k, v), by simp [hentries], by simp⟩

omit [DecidableEq κ] in
theorem Recent.mono {keys' : Finset κ} (h : c.Recent keys k) (hsub : keys ⊆ keys') :
    c.Recent keys' k := by
  obtain ⟨newer, v, older, hentries, hnewer⟩ := h
  exact ⟨newer, v, older, hentries, fun e he => hsub (hnewer e he)⟩

theorem recent_put_self (hpos : 0 < c.capacity) (keys : Finset κ) (k : κ) (v : ν) :
    (c.put k v).Recent keys k := by
  obtain ⟨n, hn⟩ := Nat.exists_eq_succ_of_ne_zero hpos.ne'
  refine ⟨[], v, (without k c.entries).take n, ?_, by simp⟩
  simp [put, hn]

/-- Using a key of `keys` drops no recent key as long as `keys` fits the capacity: what
stands before a recent key are other keys of `keys`. -/
theorem Recent.put {k' : κ} (h : c.Recent keys k) (hk : k ∈ keys) (hk' : k' ∈ keys)
    (hcard : keys.card ≤ c.capacity) (v' : ν) : (c.put k' v').Recent keys k := by
  by_cases heq : k = k'
  · subst heq
    have hpos : 0 < keys.card := Finset.card_pos.mpr ⟨k, hk⟩
    exact recent_put_self (hpos.trans_le hcard) keys k v'
  obtain ⟨newer, v, older, hentries, hnewer⟩ := h
  have hsplit : (k', v') :: without k' c.entries =
      ((k', v') :: without k' newer) ++ (k, v) :: without k' older := by
    simp [without, hentries, heq]
  -- the keys in front of `k` are distinct members of `keys` other than `k`
  have hnodup := nodup_cons_without (k := k') c.nodup v'
  rw [hsplit, map_append, nodup_append] at hnodup
  have hfront : ((k', v') :: without k' newer).length < c.capacity := by
    have hsub : (((k', v') :: without k' newer).map Prod.fst).toFinset ⊆ keys.erase k := by
      intro a ha
      rw [mem_toFinset] at ha
      rw [Finset.mem_erase]
      refine ⟨fun hak => hnodup.2.2 a ha k (by simp) hak, ?_⟩
      obtain ⟨e, he, rfl⟩ := mem_map.mp ha
      rcases mem_cons.mp he with rfl | he
      · exact hk'
      · exact hnewer e (mem_of_mem_filter he)
    have hle := Finset.card_le_card hsub
    rw [toFinset_card_of_nodup hnodup.1, length_map, Finset.card_erase_of_mem hk] at hle
    have hpos : 0 < keys.card := Finset.card_pos.mpr ⟨k, hk⟩
    omega
  obtain ⟨n, hn⟩ : ∃ n, c.capacity - ((k', v') :: without k' newer).length = n + 1 :=
    ⟨_, (Nat.succ_pred (Nat.sub_ne_zero_of_lt hfront)).symm⟩
  refine ⟨(k', v') :: without k' newer, v, (without k' older).take n, ?_, ?_⟩
  · show List.take _ _ = _
    rw [hsplit, take_append, take_of_length_le hfront.le, hn, take_succ_cons]
  · exact forall_mem_cons.mpr ⟨hk', fun e he => hnewer e (mem_of_mem_filter he)⟩

theorem Recent.get {k' : κ} (h : c.Recent keys k) (hk : k ∈ keys) (hk' : k' ∈ keys)
    (hcard : keys.card ≤ c.capacity) : (c.get k').2.Recent keys k := by
  unfold Lru.get
  split
  · exact h.put hk hk' hcard _
  · exact h

/-- Everything that is put stays, and so does what was recent before. -/
theorem recent_putAll (hentries : ∀ e ∈ entries, e.1 ∈ keys) (hcard : keys.card ≤ c.capacity)
    (hk : k ∈ keys) (h : c.Recent keys k ∨ k ∈ entries.map Prod.fst) :
    (c.putAll entries).Recent keys k := by
  induction entries generalizing c with
  | nil => exact h.resolve_right (by simp)
  | cons e entries ih =>
    have he : e.1 ∈ keys := hentries e mem_cons_self
    refine ih (fun x hx => hentries x (mem_cons_of_mem _ hx)) hcard ?_
    rcases h with h | h
    · exact .inl (h.put hk he hcard e.2)
    · rw [map_cons, mem_cons] at h
      rcases h with rfl | h
      · have hpos : 0 < keys.card := Finset.card_pos.mpr ⟨e.1, hk⟩
        exact .inl (recent_put_self (hpos.trans_le hcard) keys e.1 e.2)
      · exact .inr h

/-- Distinct new keys push out everything but the last `capacity` of them. -/
theorem entries_putAll (hnodup : (entries.map Prod.fst).Nodup) (capacity : ℕ) :
    ((new capacity).putAll entries).entries = entries.reverse.take capacity := by
  induction entries using List.reverseRecOn with
  | nil => simp [putAll, new]
  | append_singleton entries e ih =>
    rw [map_append, nodup_append] at hnodup
    have hfresh : without e.1 (entries.reverse.take capacity) = entries.reverse.take capacity := by
      refine filter_eq_self.mpr fun x hx => ?_
      have hx : x.1 ∈ entries.map Prod.fst :=
        mem_map_of_mem (mem_reverse.mp (mem_of_mem_take hx))
      simpa using hnodup.2.2 x.1 hx e.1 (by simp)
    rw [putAll, foldl_append, foldl_cons, foldl_nil, put]
    have hcapacity : (List.foldl (fun c e => c.put e.1 e.2) (new capacity) entries).capacity =
        capacity := capacity_putAll (new capacity) entries
    have hentries := ih hnodup.1
    rw [putAll] at hentries
    simp only [hcapacity, hentries, hfresh, reverse_append, reverse_singleton,
      singleton_append]
    cases capacity with
    | zero => simp
    | succ n =>
      rw [take_succ_cons, take_succ_cons, take_take, Nat.min_eq_left n.le_succ]

end Lru

/-- A bounded map, the first inserted entry first. -/
structure Fifo (κ ν : Type) where
  capacity : ℕ
  entries : List (κ × ν)
  nodup : (entries.map Prod.fst).Nodup
  bound : entries.length ≤ capacity

namespace Fifo

def new (capacity : ℕ) : Fifo κ ν := ⟨capacity, [], nodup_nil, Nat.zero_le _⟩

variable (c : Fifo κ ν)

def keys : List κ := c.entries.map Prod.fst

/-- A key that is held keeps its place and its value; a new one may push out the oldest. -/
def insert (k : κ) (v : ν) : Fifo κ ν :=
  if h : k ∈ c.entries.map Prod.fst then c
  else {
    capacity := c.capacity
    entries := (c.entries ++ [(k, v)]).drop (c.entries.length + 1 - c.capacity)
    nodup := by
      have hnodup : ((c.entries ++ [(k, v)]).map Prod.fst).Nodup := by
        rw [map_append, nodup_append]
        refine ⟨c.nodup, by simp, fun a ha b hb => ?_⟩
        have hbk : b = k := by simpa using hb
        rw [hbk]
        exact fun hak => h (hak ▸ ha)
      exact hnodup.sublist ((drop_sublist _ _).map Prod.fst)
    bound := by
      simp only [length_drop, length_append, length_singleton]
      omega }

def insertAll (entries : List (κ × ν)) : Fifo κ ν :=
  entries.foldl (fun c e => c.insert e.1 e.2) c

@[simp] theorem capacity_insert (k : κ) (v : ν) : (c.insert k v).capacity = c.capacity := by
  unfold insert
  split <;> rfl

theorem mem_insert {c : Fifo κ ν} {k : κ} {v : ν} (h : e ∈ (c.insert k v).entries) :
    e = (k, v) ∨ e ∈ c.entries := by
  unfold insert at h
  split at h
  · exact .inr h
  · rcases mem_append.mp (mem_of_mem_drop h) with h | h
    · exact .inr h
    · exact .inl (mem_singleton.mp h)

theorem mem_insertAll {c : Fifo κ ν} (h : e ∈ (c.insertAll entries).entries) :
    e ∈ c.entries ∨ e ∈ entries := by
  induction entries generalizing c with
  | nil => exact .inl h
  | cons x entries ih =>
    rcases ih h with h | h
    · rcases mem_insert h with rfl | h
      · exact .inr mem_cons_self
      · exact .inl h
    · exact .inr (mem_cons_of_mem _ h)

theorem entries_insertAll (hnodup : (entries.map Prod.fst).Nodup) {capacity : ℕ}
    (hfits : entries.length ≤ capacity) : ((new capacity).insertAll entries).entries = entries ∧
      ((new capacity).insertAll entries : Fifo κ ν).capacity = capacity := by
  induction entries using List.reverseRecOn with
  | nil => exact ⟨rfl, rfl⟩
  | append_singleton entries e ih =>
    rw [map_append, nodup_append] at hnodup
    rw [length_append, length_singleton] at hfits
    obtain ⟨hentries, hcapacity⟩ := ih hnodup.1 (by omega)
    have hfresh : e.1 ∉ ((new capacity).insertAll entries).entries.map Prod.fst := by
      rw [hentries]
      exact fun hmem => hnodup.2.2 e.1 hmem e.1 (by simp) rfl
    rw [insertAll, foldl_append]
    change ((insertAll (new capacity) entries).insert e.1 e.2).entries = _ ∧
      ((insertAll (new capacity) entries).insert e.1 e.2).capacity = _
    refine ⟨?_, (capacity_insert _ _ _).trans hcapacity⟩
    rw [insert, dif_neg hfresh]
    simp only [hentries, hcapacity]
    rw [Nat.sub_eq_zero_of_le hfits, drop_zero]

end Fifo

end Lib
