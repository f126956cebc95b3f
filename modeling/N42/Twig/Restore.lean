import N42.Lib.Except
import N42.Twig.Live

/-!
A `ShardedTwig` restored from its snapshot behaves as the one the snapshot was taken of.

`TwigTree.Alike`, which every operation keeps, determines every root and lookup. Restoring gives a
tree alike to the original if the key prefixes are distinct.
-/

namespace N42

open Lib Lib.MerkleHeap List Function Option Finmap TwigTree

variable {key : B256}

namespace TwigTree

open LogEntry

section

variable [Crypto]

/-- Same snapshot, same index, and twigs over the same leaves. -/
structure Alike (t t' : TwigTree) : Prop where
  snapshot : t.snapshot = t'.snapshot
  index : t.index = t'.index
  indexed : t.IndexedBut fun _ => False
  stores : ∃ leaf, t.Stores leaf ∧ t'.Stores leaf

variable {t t' : TwigTree} {leaf : ℕ → B256}

omit [Crypto] in
theorem snapshot_entry (h : t.snapshot = t'.snapshot) (slot : ℕ) :
    t.entries[slot]?.map (fun e => (e.key, e.active, if e.active then t.valueOf e else [])) =
      t'.entries[slot]?.map
        (fun e => (e.key, e.active, if e.active then t'.valueOf e else [])) := by
  have hentries := congrArg (fun snap : ShardSnapshot =>
    snap.entries[slot]?.map fun e => (e.key, e.active, e.value)) h
  simpa only [snapshot, getElem?_map, Option.map_map, comp_def]
    using hentries

omit [Crypto] in
theorem lookup_congr (hsnap : t.snapshot = t'.snapshot) (hindex : t.index = t'.index) (key : B256) :
    t.lookup key = t'.lookup key := by
  have hkey : ∀ slot : ℕ, t.entries[slot]?.map Entry.key = t'.entries[slot]?.map Entry.key := by
    intro slot
    have := congrArg (Option.map Prod.fst) (snapshot_entry hsnap slot)
    simpa only [Option.map_map, comp_def] using this
  simp only [lookup, hindex, hkey]

theorem Alike.lookup_eq (h : Alike t t') (key : B256) : t.lookup key = t'.lookup key :=
  lookup_congr h.snapshot h.index key

/-- Alike trees answer every query alike: an indexed slot is live, and the snapshot keeps
the values of live slots. -/
theorem Alike.get_eq (h : Alike t t') (key : B256) : t.get key = t'.get key := by
  rw [get, get, ← h.lookup_eq key]
  cases hlookup : t.lookup key with
  | none => rfl
  | some slot =>
    obtain ⟨hindex, -⟩ := lookup_eq_some hlookup
    obtain ⟨e, he, hactive, -⟩ := h.indexed _ _ (fun hf => hf) hindex
    have hentry := snapshot_entry h.snapshot slot
    rw [he] at hentry
    obtain ⟨e', he', heq⟩ := map_eq_some_iff.mp hentry.symm
    simp only [Prod.mk.injEq, hactive] at heq
    obtain ⟨-, hactive', hvalue⟩ := heq
    rw [if_pos hactive'] at hvalue
    simp [entryValue, he, he', hvalue]

theorem Alike.nextSlot_eq (h : Alike t t') : t.nextSlot = t'.nextSlot :=
  congrArg ShardSnapshot.nextSlot h.snapshot

theorem Alike.root_eq (h : Alike t t') : t.root.1 = t'.root.1 := by
  obtain ⟨leaf, hs, hs'⟩ := h.stores
  rw [hs.root_eq, hs'.root_eq, h.nextSlot_eq]

omit [Crypto] in
theorem snapshot_deactivate (t : TwigTree) (slot : ℕ) :
    (t.deactivate slot).snapshot = { t.snapshot with
      entries := t.snapshot.entries.modify slot fun e =>
        { e with value := [], active := false } } := by
  simp only [snapshot, deactivate, ShardSnapshot.mk.injEq, true_and]
  apply ext_getElem?
  intro s
  simp only [valueOf, getElem?_map, getElem?_modify]
  by_cases hs : slot = s
  · subst hs
    cases t.entries[slot]? <;> simp
  · cases t.entries[s]? <;> simp [hs]

theorem snapshot_append (h : t.Stores leaf) (key : B256) (value : Bytes) (digest : B256) :
    (t.append key value digest).snapshot =
      { nextSlot := t.snapshot.nextSlot + 1
        entries := t.snapshot.entries ++
          [{ key, value := value.take (value.length % 2 ^ 32), active := true }] } := by
  simp only [snapshot, append, map_append, map_cons, map_nil,
    ShardSnapshot.mk.injEq, true_and]
  congr 1
  · refine map_congr_left fun e he => ?_
    simp only [valueOf, valueOf_append (h.arena e he)]
  · simp only [valueOf, drop_left, if_true]

theorem Alike.append (hs : t.Stores leaf) (hs' : t'.Stores leaf)
    (hsnap : t.snapshot = t'.snapshot) (hindex : t.index = t'.index)
    (hbut : t.IndexedBut (· = keyPrefix key)) (value : Bytes) (digest : B256) :
    Alike (t.append key value digest) (t'.append key value digest) := by
  have hnext : t.nextSlot = t'.nextSlot := congrArg ShardSnapshot.nextSlot hsnap
  refine ⟨?_, ?_, IndexedBut.append hs.slots hbut _ _, _, hs.append key value digest, ?_⟩
  · rw [snapshot_append hs, snapshot_append hs', hsnap]
  · simp only [TwigTree.append, hindex, hnext]
  · rw [hnext]
    exact hs'.append key value digest

section

variable (h : Alike t t')
include h

theorem Alike.setWithLeaf (key : B256) (value : Bytes) (digest : B256) :
    Alike (t.setWithLeaf key value digest) (t'.setWithLeaf key value digest) := by
  obtain ⟨leaf, hs, hs'⟩ := h.stores
  unfold TwigTree.setWithLeaf
  rw [← h.lookup_eq key]
  cases hlookup : t.lookup key with
  | none => exact .append hs hs' h.snapshot h.index (h.indexed.mono fun _ => False.elim) _ _
  | some old =>
    obtain ⟨e, he, rfl, hold⟩ := hs.lookup_eq_some hlookup
    refine .append (hs.deactivate hold) (hs'.deactivate (h.nextSlot_eq ▸ hold)) ?_ h.index
      (h.indexed.deactivate he) _ _
    rw [snapshot_deactivate, snapshot_deactivate, h.snapshot]

theorem Alike.delete (key : B256) : Alike (t.delete key).2 (t'.delete key).2 := by
  obtain ⟨leaf, hs, hs'⟩ := h.stores
  unfold TwigTree.delete
  rw [← h.lookup_eq key]
  cases hlookup : t.lookup key with
  | none => exact h
  | some slot =>
    obtain ⟨e, he, rfl, hslot⟩ := hs.lookup_eq_some hlookup
    refine ⟨?_, ?_, ?_, Function.update leaf slot NULL_HASH, ?_, ?_⟩
    · show (t.deactivate slot).snapshot = (t'.deactivate slot).snapshot
      rw [snapshot_deactivate, snapshot_deactivate, h.snapshot]
    · simp only [deactivate, h.index]
    · exact h.indexed.erase he
    · exact (hs.withIndex (t.index.erase (keyPrefix e.key))).deactivate hslot
    · exact (hs'.withIndex (t'.index.erase (keyPrefix e.key))).deactivate (h.nextSlot_eq ▸ hslot)

theorem Alike.root : Alike t.root.2 t'.root.2 := by
  obtain ⟨leaf, hs, hs'⟩ := h.stores
  refine ⟨?_, ?_, ?_, leaf, hs.root, hs'.root⟩
  · rw [root_snd, root_snd t']
    exact h.snapshot
  · rw [root_snd, root_snd t']
    exact h.index
  · rw [root_snd]
    exact h.indexed

theorem Alike.applyOp (op : BatchOp) : Alike (t.applyOp op) (t'.applyOp op) := by
  obtain ⟨key, value⟩ := op
  cases value with
  | some value => exact h.setWithLeaf key value _
  | none => exact h.delete key

theorem Alike.applyBatchIndexed (ops : List BatchOp) :
    Alike (t.applyBatchIndexed ops) (t'.applyBatchIndexed ops) := by
  unfold TwigTree.applyBatchIndexed
  induction ops.mergeSort fun a b => a.1 ≤ b.1 generalizing t t' with
  | nil => exact h
  | cons op ops ih => exact ih (h.applyOp op)

theorem Alike.root_right : Alike t t'.root.2 := by
  obtain ⟨leaf, hs, hs'⟩ := h.stores
  refine ⟨?_, ?_, h.indexed, leaf, hs, hs'.root⟩
  · rw [root_snd t']
    exact h.snapshot
  · rw [root_snd t']
    exact h.index

end

/-- A reachable tree over keys from `K`, with an exact index. -/
structure Keyed (K : B256 → Prop) (t : TwigTree) : Prop where
  inv : t.Inv
  exact : t.Exact
  keys : ∀ e ∈ t.entries, K e.key

section Keyed

variable {K : B256 → Prop} {t : TwigTree}

theorem Keyed.new (K : B256 → Prop) : TwigTree.new.Keyed K where
  inv := Inv.new
  exact := Exact.new
  keys := by simp [TwigTree.new]

variable (h : t.Keyed K)
include h

theorem Keyed.indexed : t.Indexed K := ⟨h.inv.stores.slots, h.exact, h.keys⟩

theorem Keyed.set (hK : PrefixFree K) (hkey : K key)
    {value : Bytes} (hlen : value.length < 2 ^ 32) : (t.set key value).Keyed K := by
  have hset := h.indexed.setWithLeaf hK hkey value (hashLeaf key value)
  exact ⟨h.inv.set key hlen, hset.exact, hset.keys⟩

theorem Keyed.delete (key : B256) : (t.delete key).2.Keyed K :=
  ⟨h.inv.delete key, (h.indexed.delete key).exact, (h.indexed.delete key).keys⟩

theorem Keyed.applyBatchIndexed (hK : PrefixFree K)
    {ops : List BatchOp} (hops : ∀ op ∈ ops, K op.1 ∧ BatchOp.Fits op) :
    (t.applyBatchIndexed ops).Keyed K := by
  refine List.foldlRecOn _ _ h fun t' ht' op hop => ?_
  obtain ⟨hkey, hfits⟩ := hops op (mem_mergeSort.mp hop)
  obtain ⟨key, value⟩ := op
  cases value with
  | some value => exact ht'.set hK hkey (hfits value rfl)
  | none => exact ht'.delete key

theorem Keyed.root : t.root.2.Keyed K := by
  refine ⟨h.inv.root, ?_, ?_⟩
  · rw [root_snd]
    exact h.exact
  · rw [root_snd]
    exact h.keys

end Keyed

def snapLog (entries : List EntrySnapshot) : List LogEntry :=
  entries.map fun e => { key := e.key, value := e.value, active := e.active }

/-- What `restore` has rebuilt after the entries `done`; the slot counter is set from the
snapshot before the loop. -/
structure Rebuilt (done : List EntrySnapshot) (t : TwigTree) : Prop where
  stores : { t with nextSlot := done.length }.Stores (leafAt (snapLog done))
  entries : t.snapshot.entries = done
  exact : t.Exact
  tallied : t.Tallied

/-- The entries of a snapshot of a tree with an exact index. -/
structure Restorable (entries : List EntrySnapshot) : Prop where
  width : ∀ e ∈ entries, e.value.length < 2 ^ 32
  dead : ∀ e ∈ entries, e.active = false → e.value = []
  distinct : ∀ (i j : ℕ) (e e' : EntrySnapshot), entries[i]? = some e → entries[j]? = some e' →
    e.active = true → e'.active = true → keyPrefix e.key = keyPrefix e'.key → i = j

theorem Rebuilt.new : Rebuilt [] TwigTree.new where
  stores := Stores.new
  entries := rfl
  exact := Exact.new
  tallied := Tallied.new

variable {done : List EntrySnapshot} {e : EntrySnapshot}

omit [Crypto] in
theorem entry_of_snapshot (h : t.snapshot.entries = done) {slot : ℕ} {e : Entry}
    (he : t.entries[slot]? = some e) :
    ∃ e', done[slot]? = some e' ∧ e'.key = e.key ∧ e'.active = e.active := by
  rw [← h]
  simp only [snapshot, getElem?_map, he, map_some]
  exact ⟨_, rfl, rfl, rfl⟩

theorem Rebuilt.free (h : Rebuilt done t) {rest : List EntrySnapshot}
    (hr : Restorable (done ++ e :: rest)) (hactive : e.active = true) :
    t.index.lookup (keyPrefix e.key) = none := by
  rw [eq_none_iff_forall_ne_some]
  intro slot hslot
  obtain ⟨e₀, he₀, hactive₀, hpre⟩ := (h.exact _ _).mp hslot
  obtain ⟨e₁, he₁, hkey, hact⟩ := entry_of_snapshot h.entries he₀
  have hlt : slot < done.length := (List.getElem?_eq_some_iff.mp he₁).1
  have := hr.distinct slot done.length e₁ e (by rw [List.getElem?_append_left hlt, he₁])
    (by simp) (hact.trans hactive₀) hactive (by rw [hkey, hpre])
  omega

theorem snapLog_append (done : List EntrySnapshot) (e : EntrySnapshot) :
    leafAt (snapLog (done ++ [e])) = Function.update (leafAt (snapLog done)) done.length
      (if e.active then hashLeaf e.key e.value else NULL_HASH) := by
  have hlog : snapLog (done ++ [e]) =
      snapLog done ++ [{ key := e.key, value := e.value, active := e.active }] := by
    simp [snapLog]
  have hlen : (snapLog done).length = done.length := by simp [snapLog]
  rw [hlog, leafAt_append, hlen]

theorem Rebuilt.live (h : Rebuilt done t) (hactive : e.active = true)
    (hwidth : e.value.length < 2 ^ 32) (hfree : t.index.lookup (keyPrefix e.key) = none) :
    Rebuilt (done ++ [e])
      { { t with nextSlot := done.length }.append e.key e.value (hashLeaf e.key e.value) with
        nextSlot := t.nextSlot } where
  stores := by
    rw [snapLog_append, if_pos hactive, length_append]
    exact h.stores.append e.key e.value _
  entries := by
    have hsnap := congrArg ShardSnapshot.entries
      (snapshot_append h.stores e.key e.value (hashLeaf e.key e.value))
    refine hsnap.trans ?_
    show t.snapshot.entries ++ _ = _
    rw [h.entries, Nat.mod_eq_of_lt hwidth, take_length, ← hactive]
  exact := by
    have hbut : ({ t with nextSlot := done.length } : TwigTree).ExactBut (keyPrefix e.key) :=
      ⟨(h.exact.but hfree).rest, (h.exact.but hfree).free⟩
    exact hbut.append h.stores.slots e.value (hashLeaf e.key e.value)
  tallied := by
    have htallied : ({ t with nextSlot := done.length } : TwigTree).Tallied := h.tallied
    exact htallied.append h.stores e.value _

theorem Rebuilt.dead (h : Rebuilt done t) (hactive : e.active = false) (hvalue : e.value = []) :
    Rebuilt (done ++ [e]) { t with
      twigs := ensureTwigs t.twigs (done.length / TWIG_SIZE + 1)
      valueArena := t.valueArena ++ e.value
      entries := t.entries ++ [{
        key := e.key, voff := t.valueArena.length, vlen := e.value.length % 2 ^ 32,
        active := e.active }] } where
  stores := by
    have hleaf : leafAt (snapLog (done ++ [e])) = leafAt (snapLog done) := by
      rw [snapLog_append, hactive]
      exact update_eq_self_iff.mpr (h.stores.unused done.length le_rfl).symm
    rw [hleaf, length_append]
    exact {
      slots := by simpa using h.stores.slots
      count := h.stores.ensureTwigs_length
      touched := fun s hs => (h.stores.touched s hs).trans (Nat.lt_succ_self _)
      holding := h.stores.ensureTwigs
      unused := fun s hs => h.stores.unused s (Nat.le_of_succ_le hs)
      arena := by
        simp only [hvalue, append_nil, forall_mem_append]
        exact ⟨h.stores.arena, by simp⟩
      width := by
        simp only [hvalue, forall_mem_append]
        exact ⟨h.stores.width, by simp⟩ }
  entries := by
    rw [← h.entries]
    obtain ⟨key, value, active⟩ := e
    simp only at hvalue hactive
    simp [snapshot, valueOf, hvalue]
  exact := by
    intro pre slot
    simp only [h.exact pre slot, getElem?_concat_eq_some]
    refine exists_congr fun e₀ => and_congr_left fun hmatch => (or_iff_left ?_).symm
    rintro ⟨-, rfl⟩
    simp [hactive] at hmatch
  tallied := by
    intro id tw htw
    refine (h.tallied.ensureTwigs (fun _ => h.stores.twig_lt) htw).trans ?_
    congr 2
    ext s
    simp only [mem_liveSlots, getElem?_concat_eq_some]
    refine exists_congr fun e₀ => and_congr_left fun hlive => (or_iff_left ?_).symm
    rintro ⟨-, rfl⟩
    simp [hactive] at hlive

theorem Rebuilt.step (h : Rebuilt done t) {rest : List EntrySnapshot}
    (hr : Restorable (done ++ e :: rest)) :
    ∃ t', t.restoreEntry done.length e = .ok t' ∧ t'.nextSlot = t.nextSlot ∧
      Rebuilt (done ++ [e]) t' := by
  have hmem : e ∈ done ++ e :: rest := by simp
  have hwidth := hr.width e hmem
  have hu32 : ¬ e.value.length > u32Max := by
    rw [u32Max]
    omega
  rw [restoreEntry, if_neg hu32]
  cases hactive : e.active with
  | true =>
    refine ⟨_, ?_, ?_, h.live hactive hwidth (h.free hr hactive)⟩
    · simp only [if_true]
      rw [append]
    · rfl
  | false =>
    have hdead := h.dead hactive (hr.dead e hmem hactive)
    rw [hactive] at hdead
    exact ⟨_, rfl, rfl, hdead⟩

theorem Rebuilt.run {entries : List EntrySnapshot} (hr : Restorable entries)
    (n : ℕ) : ∃ t', entries.zipIdx.foldlM (fun t (x : EntrySnapshot × ℕ) =>
        TwigTree.restoreEntry t x.2 x.1) { TwigTree.new with nextSlot := n } = Except.ok t' ∧
      t'.nextSlot = n ∧ Rebuilt entries t' := by
  -- the loop stands after `done`, with `rest` to come
  suffices hloop : ∀ (rest done : List EntrySnapshot) (t : TwigTree),
      Restorable (done ++ rest) → Rebuilt done t → t.nextSlot = n →
      ∃ t', (rest.zipIdx done.length).foldlM (fun t (x : EntrySnapshot × ℕ) =>
          restoreEntry t x.2 x.1) t = Except.ok t' ∧
        t'.nextSlot = n ∧ Rebuilt (done ++ rest) t' from
    hloop entries [] _ hr ⟨Stores.new, rfl, Rebuilt.new.exact, Rebuilt.new.tallied⟩ rfl
  intro rest
  induction rest with
  | nil =>
    intro done t hr ht hn
    exact ⟨t, rfl, hn, by simpa using ht⟩
  | cons e rest ih =>
    intro done t hr ht hn
    obtain ⟨t₁, hstep, hn₁, ht₁⟩ := ht.step hr
    obtain ⟨t', hrun, hn', ht'⟩ := ih (done ++ [e]) t₁ (by simpa using hr) ht₁ (hn₁.trans hn)
    refine ⟨t', ?_, hn', by simpa using ht'⟩
    rw [zipIdx_cons, foldlM_cons, hstep]
    rw [length_append] at hrun
    exact hrun

theorem Exact.restorable (h : t.Exact) (hs : t.Stores leaf) : Restorable t.snapshot.entries := by
  constructor
  · intro e he
    obtain ⟨e₀, he₀, rfl⟩ := mem_map.mp he
    split
    · exact hs.value_lt he₀
    · simp
  · intro e he hactive
    obtain ⟨e₀, he₀, rfl⟩ := mem_map.mp he
    simp only at hactive
    simp [hactive]
  · intro i j e e' he he' hactive hactive' hpre
    simp only [snapshot, getElem?_map] at he he'
    obtain ⟨e₀, he₀, rfl⟩ := map_eq_some_iff.mp he
    obtain ⟨e₁, he₁, rfl⟩ := map_eq_some_iff.mp he'
    have hi := (h (keyPrefix e₀.key) i).mpr ⟨e₀, he₀, hactive, rfl⟩
    have hj := (h (keyPrefix e₀.key) j).mpr ⟨e₁, he₁, hactive', hpre.symm⟩
    exact Option.some.inj (hi.symm.trans hj)

theorem leafAt_snapLog (t : TwigTree) : leafAt (snapLog t.snapshot.entries) = leafAt t.log := by
  funext slot
  simp only [leafAt, snapLog, snapshot, log, getElem?_map]
  cases t.entries[slot]? with
  | none => rfl
  | some e =>
    simp only [map_some]
    split <;> simp_all

omit [Crypto] in
theorem Exact.index_eq (h : t.Exact) (h' : t'.Exact) (hsnap : t.snapshot = t'.snapshot) :
    t.index = t'.index := by
  have hlive : ∀ (pre : Bytes) (slot : ℕ) (u : TwigTree),
      (∃ e, u.entries[slot]? = some e ∧ e.active = true ∧ keyPrefix e.key = pre) ↔
        ∃ x, u.snapshot.entries[slot]? = some x ∧ x.active = true ∧ keyPrefix x.key = pre := by
    intro pre slot u
    simp only [snapshot, getElem?_map]
    cases u.entries[slot]? <;> simp
  refine ext_lookup fun pre => Option.ext fun slot => ?_
  rw [h pre slot, h' pre slot, hlive, hlive, hsnap]

/-- Restoring a snapshot of a tree with distinct prefixes succeeds with a tree alike. -/
theorem Keyed.restore {K : B256 → Prop} (h : t.Keyed K) :
    ∃ t', TwigTree.restore t.snapshot = .ok t' ∧ Alike t t' ∧ t'.Tallied ∧ t'.Keyed K := by
  have hs := h.inv.stores
  obtain ⟨t', hrun, hnext, hr⟩ := Rebuilt.run (h.exact.restorable hs) t.snapshot.nextSlot
  have hlen : t.snapshot.entries.length = t.nextSlot := by simp [snapshot, hs.slots]
  have hsnap : t.snapshot = t'.snapshot := by
    have hentries := hr.entries
    have hnext' : t'.snapshot.nextSlot = t.snapshot.nextSlot := hnext
    cases hsnap' : t'.snapshot
    simp_all
  have hstores : t'.Stores (leafAt t.log) := by
    have := hr.stores
    rw [leafAt_snapLog, hlen, show t.nextSlot = t'.nextSlot from hnext.symm] at this
    exact this
  refine ⟨t', ?_, ⟨hsnap, h.exact.index_eq hr.exact hsnap, h.exact.indexed, _, hs, hstores⟩,
    hr.tallied, ?_, hr.exact, ?_⟩
  · unfold TwigTree.restore
    rw [if_neg (by rw [hlen]; simp [TwigTree.snapshot])]
    rw [hrun]
    show (t'.checkConsistency >>= _) = _
    rw [(hstores.counted hr.exact hr.tallied).checkConsistency]
    rfl
  · refine ⟨?_, hr.exact.indexed⟩
    rw [← leafAt_snapLog, ← hsnap, leafAt_snapLog]
    exact hstores
  · intro e he
    obtain ⟨slot, hslot⟩ := mem_iff_getElem?.mp he
    obtain ⟨e₁, he₁, hkey, -⟩ := entry_of_snapshot hr.entries hslot
    obtain ⟨e₀, he₀, rfl⟩ := mem_map.mp (mem_of_getElem? he₁)
    rw [← hkey]
    exact h.keys e₀ he₀

end

end TwigTree

namespace ShardedTwig

section

variable [Crypto]

structure Alike (t t' : ShardedTwig) : Prop where
  version : t.version = t'.version
  length : t.shards.length = t'.shards.length
  shards : ∀ (i : ℕ) (s s' : TwigTree), t.shards[i]? = some s → t'.shards[i]? = some s' →
    TwigTree.Alike s s'

/-- Sixteen shards, each reached with keys of its own out of `K`. -/
structure Keyed (K : B256 → Prop) (t : ShardedTwig) : Prop where
  length : t.shards.length = SHARD_COUNT
  shards : ∀ (i : ℕ) (s : TwigTree), t.shards[i]? = some s →
    s.Keyed fun key => K key ∧ shardIndex key = i

variable {t t' : ShardedTwig}

theorem Alike.map_eq {α : Type} (h : Alike t t') {f : ℕ → TwigTree → α}
    (hf : ∀ (i : ℕ) (s s' : TwigTree), TwigTree.Alike s s' → f i s = f i s') :
    t.shards.mapIdx f = t'.shards.mapIdx f := by
  apply ext_getElem?
  intro i
  rw [getElem?_mapIdx, getElem?_mapIdx]
  cases hs : t.shards[i]? with
  | none =>
    rw [getElem?_eq_none_iff, h.length, ← getElem?_eq_none_iff] at hs
    rw [hs]
  | some s =>
    have hlt : i < t'.shards.length := h.length ▸ (List.getElem?_eq_some_iff.mp hs).1
    have hs' := List.getElem?_eq_getElem hlt
    rw [hs']
    exact congrArg some (hf i s _ (h.shards i s _ hs hs'))

variable {f : ℕ → TwigTree → TwigTree}

theorem Alike.mapIdx (h : Alike t t')
    (hf : ∀ (i : ℕ) (s s' : TwigTree), TwigTree.Alike s s' → TwigTree.Alike (f i s) (f i s'))
    {v v' : ℕ} (hv : v = v') : Alike ⟨t.shards.mapIdx f, v⟩ ⟨t'.shards.mapIdx f, v'⟩ where
  version := hv
  length := by simpa using h.length
  shards i s s' hs hs' := by
    simp only [getElem?_mapIdx] at hs hs'
    obtain ⟨s₀, hs₀, rfl⟩ := map_eq_some_iff.mp hs
    obtain ⟨s₁, hs₁, rfl⟩ := map_eq_some_iff.mp hs'
    exact hf i s₀ s₁ (h.shards i s₀ s₁ hs₀ hs₁)

theorem Alike.get_eq (h : Alike t t') (key : B256) : t.get key = t'.get key := by
  have hmap := congrArg (fun l => (l[shardIndex key]?).bind id) (h.map_eq
    (f := fun _ s => s.get key) fun _ _ _ hs => hs.get_eq key)
  simp only [getElem?_mapIdx, bind_map] at hmap
  exact hmap

theorem root_eq_mapIdx (t : ShardedTwig) :
    t.root = (shardTreeRoot (t.shards.mapIdx fun _ s => s.root.1),
      { t with shards := t.shards.mapIdx fun _ s => s.root.2 }) := by
  have hmap : ∀ {α : Type} (f : TwigTree → α),
      t.shards.mapIdx (fun _ s => f s) = t.shards.map f := by
    intro α f
    apply ext_getElem?
    simp
  rw [hmap fun s => s.root.1, hmap fun s => s.root.2]
  simp [root, comp_def]

/-- What a batch does to shard `i`, up to the root. -/
def pick (ops : List TwigTree.BatchOp) (i : ℕ) (shard : TwigTree) : TwigTree :=
  let picked := ops.filter fun op => shardIndex op.1 = i
  if picked = [] then shard else shard.applyBatchIndexed picked

theorem applyBatch_eq_mapIdx (t : ShardedTwig) (ops : List TwigTree.BatchOp) :
    t.applyBatch ops = ((t.version + 1,
        shardTreeRoot (t.shards.mapIdx fun i s => (pick ops i s).root.1)),
      ⟨t.shards.mapIdx fun i s => (pick ops i s).root.2, t.version + 1⟩) := by
  simp only [applyBatch, pick]
  congr 2
  · simp [mapIdx_eq_zipIdx_map, comp_def]
  · simp [mapIdx_eq_zipIdx_map]

theorem Alike.root_eq (h : Alike t t') : t.root.1 = t'.root.1 := by
  rw [root_eq_mapIdx, root_eq_mapIdx]
  exact congrArg shardTreeRoot (h.map_eq fun _ _ _ hs => hs.root_eq)

theorem alike_pick {s s' : TwigTree} (h : TwigTree.Alike s s') (ops : List TwigTree.BatchOp)
    (i : ℕ) : TwigTree.Alike (pick ops i s) (pick ops i s') := by
  unfold pick
  simp only
  split
  · exact h
  · exact h.applyBatchIndexed _

theorem Alike.applyBatch (h : Alike t t') (ops : List TwigTree.BatchOp) :
    (t.applyBatch ops).1 = (t'.applyBatch ops).1 ∧
      Alike (t.applyBatch ops).2 (t'.applyBatch ops).2 := by
  rw [applyBatch_eq_mapIdx, applyBatch_eq_mapIdx]
  refine ⟨?_, h.mapIdx (fun i _ _ hs => (alike_pick hs ops i).root) (by rw [h.version])⟩
  rw [h.version, h.map_eq fun i _ _ hs => (alike_pick hs ops i).root_eq]

section Keyed

variable {K : B256 → Prop} {t : ShardedTwig}

theorem Keyed.new (K : B256 → Prop) : ShardedTwig.new.Keyed K where
  length := by simp [ShardedTwig.new]
  shards i s hs := by
    obtain ⟨-, rfl⟩ := List.getElem?_eq_some_iff.mp hs
    simp only [ShardedTwig.new, List.getElem_replicate]
    exact TwigTree.Keyed.new _

variable (h : t.Keyed K)
include h

theorem Keyed.mapIdx
    (hf : ∀ (i : ℕ) (s : TwigTree), (s.Keyed fun key => K key ∧ shardIndex key = i) →
      (f i s).Keyed fun key => K key ∧ shardIndex key = i) (v : ℕ) :
    (ShardedTwig.mk (t.shards.mapIdx f) v).Keyed K where
  length := by simpa using h.length
  shards i s hs := by
    simp only [getElem?_mapIdx] at hs
    obtain ⟨s₀, hs₀, rfl⟩ := map_eq_some_iff.mp hs
    exact hf i s₀ (h.shards i s₀ hs₀)

theorem Keyed.set (hK : PrefixFree K) (hkey : K key)
    {value : Bytes} (hlen : value.length < 2 ^ 32) : (t.set key value).Keyed K where
  length := by simpa [ShardedTwig.set] using h.length
  shards i s hs := by
    simp only [ShardedTwig.set, getElem?_modify] at hs
    obtain ⟨s₀, hs₀, rfl⟩ := map_eq_some_iff.mp hs
    have h₀ := h.shards i s₀ hs₀
    split
    · next hi => exact h₀.set (fun a b ha hb => hK a b ha.1 hb.1) ⟨hkey, hi⟩ hlen
    · exact h₀

theorem Keyed.root : t.root.2.Keyed K := by
  rw [root_eq_mapIdx]
  exact h.mapIdx (fun _ _ hs => hs.root) t.version

theorem Keyed.applyBatch (hK : PrefixFree K)
    {ops : List TwigTree.BatchOp} (hops : ∀ op ∈ ops, K op.1 ∧ TwigTree.BatchOp.Fits op) :
    (t.applyBatch ops).2.Keyed K := by
  rw [applyBatch_eq_mapIdx]
  refine h.mapIdx (fun i s hs => ?_) _
  unfold pick
  simp only
  split
  · exact hs.root
  · refine (hs.applyBatchIndexed (fun a b ha hb => hK a b ha.1 hb.1) fun op hop => ?_).root
    obtain ⟨hop, hi⟩ := mem_filter.mp hop
    exact ⟨⟨(hops op hop).1, of_decide_eq_true hi⟩, (hops op hop).2⟩

theorem Keyed.checkShards : checkShards t.snapshot = .ok () := by
  refine forM_eq_ok fun ⟨shard, i⟩ hshard => forM_eq_ok fun ⟨entry, slot⟩ hentry => ?_
  have hshard := mk_mem_zipIdx_iff_getElem?.mp hshard
  have hentry := mem_of_getElem? (mk_mem_zipIdx_iff_getElem?.mp hentry)
  simp only [snapshot, getElem?_map] at hshard
  obtain ⟨s, hs, rfl⟩ := map_eq_some_iff.mp hshard
  obtain ⟨e, he, rfl⟩ := mem_map.mp hentry
  exact if_neg (not_not.mpr ((h.shards i s hs).keys e he).2)

theorem Keyed.tryFromSnapshot :
    ∃ t', ShardedTwig.tryFromSnapshot t.snapshot = .ok t' ∧ Alike t t' ∧ t'.Keyed K := by
  obtain ⟨shards, hmapM, hlen, hshards⟩ := mapM_zipIdx_eq_ok
    (f := fun x : ShardSnapshot × ℕ => (restore x.1).mapError fun error =>
      "shard " ++ toString x.2 ++ ": " ++ error)
    (R := fun i s' => ∀ s, t.shards[i]? = some s →
      TwigTree.Alike s s' ∧ s'.Tallied ∧ s'.Keyed fun key => K key ∧ shardIndex key = i)
    (l := t.snapshot.shards) 0 fun i snap hsnap => by
      simp only [snapshot, getElem?_map] at hsnap
      obtain ⟨s, hs, rfl⟩ := map_eq_some_iff.mp hsnap
      obtain ⟨s', hrestore, hs'⟩ := (h.shards i s hs).restore
      refine ⟨s', by rw [hrestore]; rfl, fun s₀ hs₀ => ?_⟩
      obtain rfl : s = s₀ := Option.some.inj (hs.symm.trans hs₀)
      exact hs'
  have hlen' : shards.length = t.shards.length := by simpa [snapshot] using hlen
  have hof : ∀ (i : ℕ) (s' : TwigTree), shards[i]? = some s' → ∃ s, t.shards[i]? = some s ∧
      TwigTree.Alike s s' ∧ s'.Tallied ∧ s'.Keyed fun key => K key ∧ shardIndex key = i := by
    intro i s' hs'
    have hlt : i < t.shards.length := hlen' ▸ (List.getElem?_eq_some_iff.mp hs').1
    have hs := List.getElem?_eq_getElem hlt
    exact ⟨_, hs, hshards i s' hs' _ hs⟩
  obtain ⟨r, hr⟩ : ∃ r : ShardedTwig, r = ⟨shards, t.version⟩ := ⟨_, rfl⟩
  have hrkeyed : r.Keyed K := by
    rw [hr]
    refine ⟨hlen'.trans h.length, fun i s' hs' => ?_⟩
    obtain ⟨s, -, -, -, hkeyed⟩ := hof i s' hs'
    exact hkeyed
  have hcheck : r.root.2.checkConsistency = .ok () := by
    refine forM_eq_ok fun ⟨shard, i⟩ hshard => ?_
    have hshard := mk_mem_zipIdx_iff_getElem?.mp hshard
    rw [root_eq_mapIdx, hr] at hshard
    simp only [getElem?_mapIdx] at hshard
    obtain ⟨s', hs', rfl⟩ := map_eq_some_iff.mp hshard
    obtain ⟨s, -, -, htallied, hkeyed⟩ := hof i s' hs'
    have hroot := hkeyed.root
    simp only [(hroot.inv.stores.counted hroot.exact htallied.root).checkConsistency]
    rfl
  refine ⟨r.root.2, ?_, ?_, hrkeyed.root⟩
  · unfold ShardedTwig.tryFromSnapshot
    rw [if_neg (by simp [snapshot, h.length])]
    refine bind_eq_ok.mpr ⟨⟨⟩, h.checkShards, bind_eq_ok.mpr ⟨shards, hmapM, ?_⟩⟩
    rw [show (⟨shards, t.snapshot.version⟩ : ShardedTwig) = r from hr.symm]
    exact bind_eq_ok.mpr ⟨⟨⟩, hcheck, rfl⟩
  · rw [root_eq_mapIdx, hr]
    refine ⟨rfl, by simpa using hlen'.symm, fun i s s' hs hs' => ?_⟩
    simp only [getElem?_mapIdx] at hs'
    obtain ⟨s₁, hs₁, rfl⟩ := map_eq_some_iff.mp hs'
    exact (hshards i s₁ hs₁ s hs).1.root_right

end Keyed

inductive Call where
  | set (key : B256) (value : Bytes)
  | applyBatch (ops : List TwigTree.BatchOp)
  | root
  /-- the node restarts from a snapshot -/
  | reload

def call (t : ShardedTwig) : Call → ShardedTwig
  | .set key value => t.set key value
  | .applyBatch ops => (t.applyBatch ops).2
  | .root => t.root.2
  | .reload => match tryFromSnapshot t.snapshot with
    | .ok t' => t'
    | .error _ => t

def Call.ops : Call → List TwigTree.BatchOp
  | .set key value => [(key, some value)]
  | .applyBatch ops => ops
  | .root | .reload => []

theorem Keyed.call {K : B256 → Prop} (h : t.Keyed K)
    (hK : PrefixFree K) {c : Call}
    (hc : ∀ op ∈ c.ops, K op.1 ∧ TwigTree.BatchOp.Fits op) : (t.call c).Keyed K := by
  cases c with
  | set key value =>
    obtain ⟨hkey, hfits⟩ := hc (key, some value) (by simp [Call.ops])
    exact h.set hK hkey (hfits value rfl)
  | applyBatch ops => exact h.applyBatch hK hc
  | root => exact h.root
  | reload =>
    obtain ⟨t', hok, -, hkeyed⟩ := h.tryFromSnapshot
    rw [ShardedTwig.call, hok]
    exact hkeyed

def Named (calls : List Call) (key : B256) : Prop := ∃ op ∈ calls.flatMap Call.ops, op.1 = key

theorem Keyed.run {calls : List Call}
    (hdistinct : ∀ a b, Named calls a → Named calls b → keyPrefix a = keyPrefix b → a = b)
    (hfits : ∀ op ∈ calls.flatMap Call.ops, ∀ value ∈ op.2, value.length ≤ u32Max) :
    (calls.foldl ShardedTwig.call ShardedTwig.new).Keyed (Named calls) := by
  refine List.foldlRecOn _ _ (Keyed.new _) fun t ht c hc => ht.call hdistinct fun op hop => ?_
  have hmem : op ∈ calls.flatMap Call.ops := mem_flatMap.mpr ⟨c, hc, hop⟩
  refine ⟨⟨op, hmem, rfl⟩, fun value hvalue => ?_⟩
  have := hfits op hmem value hvalue
  rw [u32Max] at this
  omega

def applyBatches (t : ShardedTwig) : List (List TwigTree.BatchOp) → List (ℕ × B256) × ShardedTwig
  | [] => ([], t)
  | ops :: batches =>
    let out := (t.applyBatch ops).2.applyBatches batches
    ((t.applyBatch ops).1 :: out.1, out.2)

theorem Alike.applyBatches (h : Alike t t') (batches : List (List TwigTree.BatchOp)) :
    (t.applyBatches batches).1 = (t'.applyBatches batches).1 ∧
      Alike (t.applyBatches batches).2 (t'.applyBatches batches).2 := by
  induction batches generalizing t t' with
  | nil => exact ⟨rfl, h⟩
  | cons ops batches ih =>
    obtain ⟨hout, hnext⟩ := h.applyBatch ops
    obtain ⟨houts, hlast⟩ := ih hnext
    exact ⟨by simp only [ShardedTwig.applyBatches, hout, houts], hlast⟩

/-- Snapshot and restore: a forest reached with keys of distinct prefixes and values that
fit their entries is restored with the same root, version and lookups, and every later
list of batches gives both the same versions, roots and lookups. -/
theorem restore_same_future (calls : List Call)
    (hdistinct : ∀ a b, Named calls a → Named calls b → keyPrefix a = keyPrefix b → a = b)
    (hfits : ∀ op ∈ calls.flatMap Call.ops, ∀ value ∈ op.2, value.length ≤ u32Max) :
    let t := calls.foldl call new
    ∃ t', tryFromSnapshot t.snapshot = .ok t' ∧ t'.root.1 = t.root.1 ∧
      t'.version = t.version ∧ (∀ key, t'.get key = t.get key) ∧
      ∀ batches,
        let later := t.applyBatches batches
        let later' := t'.applyBatches batches
        later'.1 = later.1 ∧ later'.2.root.1 = later.2.root.1 ∧
          later'.2.version = later.2.version ∧ ∀ key, later'.2.get key = later.2.get key := by
  intro t
  have hkeyed : t.Keyed (Named calls) := Keyed.run hdistinct hfits
  obtain ⟨t', hok, halike, -⟩ := hkeyed.tryFromSnapshot
  refine ⟨t', hok, halike.root_eq.symm, halike.version.symm, fun key => (halike.get_eq key).symm,
    fun batches => ?_⟩
  obtain ⟨houts, hlast⟩ := halike.applyBatches batches
  exact ⟨houts.symm, hlast.root_eq.symm, hlast.version.symm,
    fun key => (hlast.get_eq key).symm⟩

end

theorem restore_same_future_of_overwrite :
    letI := Crypto.ofBlake3 fun bytes => BitVec.ofNat 256 (leNat bytes)
    let calls : List Call := [.set 0 [7], .applyBatch [(0, some [8]), (-1, some [9])], .reload,
      .applyBatch [(-1, none)]]
    ∃ t', tryFromSnapshot (calls.foldl call new).snapshot = .ok t' ∧
      t'.root.1 = (calls.foldl call new).root.1 := by
  let scheme := Crypto.ofBlake3 fun bytes => BitVec.ofNat 256 (leNat bytes)
  intro calls
  have hops : calls.flatMap Call.ops =
      [(0, some [7]), (0, some [8]), (-1, some [9]), (-1, none)] := rfl
  have hdistinct : TwigTree.PrefixFree (Named calls) := by
    have hdistinct : ∀ op ∈ calls.flatMap Call.ops, ∀ op' ∈ calls.flatMap Call.ops,
        keyPrefix op.1 = keyPrefix op'.1 → op.1 = op'.1 := by
      rw [hops]
      decide
    rintro _ _ ⟨op, hop, rfl⟩ ⟨op', hop', rfl⟩
    exact hdistinct op hop op' hop'
  have hfits : ∀ op ∈ calls.flatMap Call.ops, ∀ value ∈ op.2, value.length ≤ u32Max := by
    rw [hops]
    simp [u32Max]
  obtain ⟨t', hok, hroot, -⟩ := restore_same_future calls hdistinct hfits
  exact ⟨t', hok, hroot⟩

section LeftHash

local instance : Crypto := Crypto.ofBlake3 TwigTree.leftHash

theorem shardTreeRoot_leftHash (leaves : List B256) :
    shardTreeRoot leaves = leaves.headD NULL_HASH := by
  rw [shardTreeRoot]
  induction leaves.length generalizing leaves with
  | zero => rfl
  | succ fuel ih =>
    rw [shardTreeRoot.go]
    split
    · next hlen =>
      rcases leaves with _ | ⟨left, _ | ⟨right, rest⟩⟩
      · cases hlen
      · simp at hlen
      · rw [ih, pairUp, hashNode_leftHash]
        rfl
    · rfl

theorem shards_set_zero (value : Bytes) : (new.set 0 value).shards =
    TwigTree.new.append 0 value (hashLeaf 0 value) :: List.replicate 15 TwigTree.new := by
  rfl

theorem root_set_leftHash (value : Bytes) : (new.set 0 value).root.1 = hashLeaf 0 value := by
  rw [root_eq_mapIdx, shards_set_zero, shardTreeRoot_leftHash, mapIdx_cons]
  exact root_append_leftHash value _

/-- A value of `2 ^ 32` bytes is snapshot as the empty value its entry records: the
restored forest has another root. -/
theorem long_value_restored_otherwise :
    let t := new.set 0 (List.replicate (2 ^ 32) 0)
    ∃ t', tryFromSnapshot t.snapshot = .ok t' ∧ t'.root.1 ≠ t.root.1 := by
  intro t
  obtain ⟨value, hvalue⟩ : ∃ value : Bytes, value = List.replicate (2 ^ 32) 0 := ⟨_, rfl⟩
  have hlen : value.length = 2 ^ 32 := by rw [hvalue, length_replicate]
  have ht : t = new.set 0 value := by rw [hvalue]
  have hsnap : t.snapshot = (new.set 0 []).snapshot := by
    simp only [ht, snapshot, shards_set_zero, map_cons,
      snapshot_append TwigTree.Stores.new, hlen]
    rfl
  have hkeyed : (new.set 0 []).Keyed fun key => key = 0 :=
    Keyed.set (Keyed.new _) (fun _ _ ha hb _ => Eq.trans ha (Eq.symm hb)) rfl
      (by simp : ([] : Bytes).length < 2 ^ 32)
  obtain ⟨t', hok, halike, -⟩ := hkeyed.tryFromSnapshot
  refine ⟨t', hsnap.symm ▸ hok, ?_⟩
  rw [← halike.root_eq, ht, root_set_leftHash, root_set_leftHash,
    hashLeaf_leftHash (by decide), hashLeaf_leftHash (by rw [hlen]; decide), hlen]
  decide

end LeftHash

end ShardedTwig

end N42
