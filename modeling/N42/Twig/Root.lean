import Mathlib.Data.List.Sort
import Mathlib.Data.List.TakeWhile
import N42.Twig.Tree

/-!
The root of a `TwigTree` is the root of its append log, whatever was cached on the way: the inner
nodes are folded except above the touched slots.
-/

namespace N42

open Lib Lib.MerkleHeap List Function Option TwigTree

attribute [local simp] TwigTree.deactivate TwigTree.new TwigTree.append

section

theorem slot_div {id i : ℕ} (hi : i < TWIG_SIZE) : (id * TWIG_SIZE + i) / TWIG_SIZE = id := by
  rw [Nat.mul_comm, Nat.mul_add_div TWIG_SIZE_pos, Nat.div_eq_of_lt hi, Nat.add_zero]

theorem slot_mod {id i : ℕ} (hi : i < TWIG_SIZE) : (id * TWIG_SIZE + i) % TWIG_SIZE = i := by
  rw [Nat.mul_comm, Nat.mul_add_mod, Nat.mod_eq_of_lt hi]

theorem div_ne_of_mem_dropWhile {slot : ℕ} {rest : List ℕ}
    (hsorted : (slot :: rest).Pairwise (· ≤ ·)) {s : ℕ}
    (hs : s ∈ rest.dropWhile (· / TWIG_SIZE = slot / TWIG_SIZE)) :
    s / TWIG_SIZE ≠ slot / TWIG_SIZE := by
  obtain ⟨hhead, htail⟩ := pairwise_cons.mp hsorted
  induction rest with
  | nil => simp at hs
  | cons a rest ih =>
    rw [dropWhile_cons] at hs
    split_ifs at hs with ha
    · refine ih (hsorted.sublist (by simp)) hs (fun x hx => hhead x (by simp [hx]))
        (pairwise_cons.mp htail).2
    · have hne : a / TWIG_SIZE ≠ slot / TWIG_SIZE := by simpa using ha
      have hle : slot / TWIG_SIZE ≤ a / TWIG_SIZE := Nat.div_le_div_right (hhead a (by simp))
      rcases mem_cons.mp hs with rfl | hs
      · exact hne
      · have : a / TWIG_SIZE ≤ s / TWIG_SIZE :=
          Nat.div_le_div_right ((pairwise_cons.mp htail).1 s hs)
        omega

theorem valueOf_append {arena : Bytes} {e : Entry} (he : e.voff + e.vlen ≤ arena.length)
    (value : Bytes) :
    ((arena ++ value).drop e.voff).take e.vlen = (arena.drop e.voff).take e.vlen := by
  rw [drop_append_of_le_length (by omega),
    take_append_of_le_length (by rw [length_drop]; omega)]

variable [Crypto]

/-- A slot of the append log: what was set there, and whether it is still live. -/
structure LogEntry where
  key : B256
  value : Bytes
  active : Bool
deriving DecidableEq

namespace LogEntry

/-- The leaf at a slot: the hash of a live entry, null for a dead or unused slot. -/
def leafAt (log : List LogEntry) (slot : ℕ) : B256 :=
  match log[slot]? with
  | some e => if e.active then hashLeaf e.key e.value else NULL_HASH
  | none => NULL_HASH

def twigCount (n : ℕ) : ℕ := (n + (TWIG_SIZE - 1)) / TWIG_SIZE

/-- The root of a forest of `count` twigs with the given leaves: every twig from its
leaves, then the upper tree over the twig roots, padded with null hashes to a power of
two. -/
def forestRoot (leaf : ℕ → B256) (count : ℕ) : B256 :=
  if count = 0 then NULL_HASH
  else merkleRoot hashNode
    (fun id => if id < count then
        merkleRoot hashNode (fun i => leaf (id * TWIG_SIZE + i)) TWIG_HEIGHT
      else NULL_HASH)
    (Nat.clog 2 count)

def worldRoot (log : List LogEntry) : B256 := forestRoot (leafAt log) (twigCount log.length)

end LogEntry

def TwigTree.log (t : TwigTree) : List LogEntry :=
  t.entries.map fun e => { key := e.key, value := t.valueOf e, active := e.active }

/-- The twig stores the leaves `leaf`, every inner node away from the stale leaves is
folded, and a twig with a stale leaf is marked dirty. -/
structure Twig.Holds (leaf : ℕ → B256) (stale : ℕ → Prop) (tw : Twig) : Prop where
  leaves : HasLeaves TWIG_HEIGHT leaf tw.nodes
  folded : FoldedBut hashNode TWIG_SIZE (fun d => ∃ i, stale i ∧ d = TWIG_SIZE + i) tw.nodes
  dirty : ∀ i, stale i → tw.dirty = true

namespace Twig.Holds

variable {leaf : ℕ → B256} {stale : ℕ → Prop} {tw : Twig}

theorem withLive (h : tw.Holds leaf stale) (n : ℕ) : { tw with live := n }.Holds leaf stale :=
  ⟨h.leaves, h.folded, h.dirty⟩

theorem congr {leaf' : ℕ → B256} {stale' : ℕ → Prop} (h : tw.Holds leaf stale)
    (hleaf : ∀ i < TWIG_SIZE, leaf i = leaf' i) (hstale : ∀ i, stale i ↔ stale' i) :
    tw.Holds leaf' stale' where
  leaves i hi := (h.leaves i hi).trans (hleaf i hi)
  folded := h.folded.mono fun _ ⟨i, hi, hd⟩ => ⟨i, (hstale i).mp hi, hd⟩
  dirty i hi := h.dirty i ((hstale i).mpr hi)

theorem new : Twig.new.Holds (fun _ => NULL_HASH) fun _ => False where
  leaves i _ := nullNodes_of_le (Nat.le_add_right _ i)
  folded := nullNodes_folded.but
  dirty _ h := h.elim

theorem writeLeaf (h : tw.Holds leaf stale) (loc : ℕ) (digest : B256) :
    (tw.writeLeaf loc digest).Holds (update leaf loc digest)
      (fun i => stale i ∨ i = loc) where
  leaves i hi := by
    by_cases heq : i = loc
    · subst heq
      simp [Twig.writeLeaf, TWIG_SIZE_eq]
    · have hne : 2 ^ TWIG_HEIGHT + i ≠ TWIG_SIZE + loc := by
        rw [TWIG_SIZE_eq]
        omega
      simp only [Twig.writeLeaf, update_of_ne heq, update_of_ne hne]
      exact h.leaves i hi
  folded := by
    refine (h.folded.writeLeaf (Nat.le_add_right _ loc) digest).mono ?_
    rintro d (⟨i, hi, rfl⟩ | rfl)
    · exact ⟨i, .inl hi, rfl⟩
    · exact ⟨loc, .inr rfl, rfl⟩
  dirty _ _ := rfl

theorem root_eq (h : tw.Holds leaf fun _ => False) :
    tw.root = merkleRoot hashNode leaf TWIG_HEIGHT := by
  have hf : Folded hashNode (2 ^ TWIG_HEIGHT) tw.nodes := h.folded.folded (by simp)
  exact hf.root_eq h.leaves

theorem foldBatch (h : tw.Holds leaf stale) {locals : List ℕ} (hlt : ∀ i ∈ locals, i < TWIG_SIZE)
    (hstale : ∀ i, stale i → i ∈ locals) : (tw.foldBatch locals).Holds leaf fun _ => False where
  leaves i hi := by
    have hlevel := onLevel hlt
    exact (foldUp_of_le hlevel (Nat.le_add_right _ i)).trans (h.leaves i hi)
  folded := by
    refine (FoldedBut.foldUp (onLevel hlt) le_rfl (h.folded.mono ?_)).but
    rintro d ⟨i, hi, rfl⟩
    exact mem_level.mpr ⟨i, hstale i hi, rfl⟩
  dirty _ hf := hf.elim
where
  mem_level {locals : List ℕ} {d : ℕ} :
      d ∈ ((locals.map (TWIG_SIZE + ·)).mergeSort (· ≤ ·)).destutter (· ≠ ·) ↔
        ∃ i ∈ locals, d = TWIG_SIZE + i := by
    rw [mem_destutter]
    simp [eq_comm]
  onLevel {locals : List ℕ} (hlt : ∀ i ∈ locals, i < TWIG_SIZE) :
      OnLevel TWIG_HEIGHT
        (((locals.map (TWIG_SIZE + ·)).mergeSort (· ≤ ·)).destutter (· ≠ ·)) := by
    intro d hd
    obtain ⟨i, hi, rfl⟩ := mem_level.mp hd
    have := hlt i hi
    rw [pow_succ, ← TWIG_SIZE_eq]
    omega

theorem recompute (h : tw.Holds leaf stale) (hlt : ∀ i, stale i → i < TWIG_SIZE) :
    tw.recompute.Holds leaf fun _ => False where
  leaves i hi := by
    refine (foldLevels_of_le ?_).trans (h.leaves i hi)
    exact Nat.le_add_right _ i
  folded := by
    refine (FoldedBut.foldLevels (h := 10) (by decide) (h.folded.mono ?_)).but
    rintro d ⟨i, hi, rfl⟩
    have hsize : TWIG_SIZE = 2 ^ 11 := rfl
    have := hlt i hi
    omega
  dirty _ hf := hf.elim

/-- Repairing a twig with the locals touched in it leaves nothing stale. A twig that is
not dirty has nothing to repair. -/
theorem repair (h : tw.Holds leaf stale) {locals : List ℕ} (hlt : ∀ i ∈ locals, i < TWIG_SIZE)
    (hstale : ∀ i, stale i → i ∈ locals) : (tw.repair locals).Holds leaf fun _ => False := by
  rw [Twig.repair]
  split_ifs with hdirty hmany
  · have hr := h.recompute fun i hi => hlt i (hstale i hi)
    exact ⟨hr.leaves, hr.folded, fun _ hf => hf.elim⟩
  · have hr := h.foldBatch hlt hstale
    exact ⟨hr.leaves, hr.folded, fun _ hf => hf.elim⟩
  · refine h.congr (fun _ _ => rfl) fun i => ⟨fun hi => hdirty (h.dirty i hi), False.elim⟩

theorem climb (h : tw.Holds leaf fun _ => False) {loc : ℕ} (hloc : loc < TWIG_SIZE) :
    MerkleHeap.climb hashNode (leaf loc) loc
      (siblings tw.nodes TWIG_HEIGHT (TWIG_SIZE + loc)) = tw.root := by
  have hf : Folded hashNode (2 ^ TWIG_HEIGHT) tw.nodes := h.folded.folded (by simp)
  rw [← h.leaves loc hloc]
  exact hf.climb_leaf hloc

end Twig.Holds

/-- The twigs store `leaf`, slot by slot, and are folded away from the touched slots. -/
def Holding (twigs : List Twig) (leaf : ℕ → B256) (touched : List ℕ) : Prop :=
  ∀ (id : ℕ) (tw : Twig), twigs[id]? = some tw →
    tw.Holds (fun i => leaf (id * TWIG_SIZE + i))
      fun i => i < TWIG_SIZE ∧ id * TWIG_SIZE + i ∈ touched

namespace Holding

variable {twigs : List Twig} {leaf : ℕ → B256} {touched : List ℕ}

/-- Writing a leaf in the twig of `slot` touches that slot and changes no other. -/
theorem write (h : Holding twigs leaf touched) (slot : ℕ) (digest : B256) (live : Twig → ℕ) :
    Holding (twigs.modify (slot / TWIG_SIZE) fun tw =>
        { tw.writeLeaf (slot % TWIG_SIZE) digest with live := live tw })
      (update leaf slot digest) (touched ++ [slot]) := by
  intro id tw htw
  rw [getElem?_modify] at htw
  obtain ⟨tw₀, htw₀, rfl⟩ := map_eq_some_iff.mp htw
  by_cases hid : slot / TWIG_SIZE = id
  · subst hid
    simp only [if_true]
    refine (((h _ tw₀ htw₀).writeLeaf (slot % TWIG_SIZE) digest).withLive _).congr ?_ ?_
    · intro i hi
      by_cases heq : i = slot % TWIG_SIZE
      · rw [heq, update_self, Nat.div_add_mod', update_self]
      · rw [update_of_ne heq, update_of_ne]
        exact fun he => heq (by rw [← he, slot_mod hi])
    · intro i
      have hlt := Nat.mod_lt slot TWIG_SIZE_pos
      constructor
      · rintro (⟨hi, hmem⟩ | rfl)
        · exact ⟨hi, by simp [hmem]⟩
        · exact ⟨hlt, by simp [Nat.div_add_mod']⟩
      · rintro ⟨hi, hmem⟩
        rcases mem_append.mp hmem with hmem | hmem
        · exact .inl ⟨hi, hmem⟩
        · exact .inr (by rw [← mem_singleton.mp hmem, slot_mod hi])
  · simp only [if_neg hid]
    refine (h id tw₀ htw₀).congr ?_ ?_
    · intro i hi
      rw [update_of_ne]
      exact fun he => hid (by rw [← he, slot_div hi])
    · intro i
      refine and_congr_right fun hi => ?_
      rw [mem_append, mem_singleton]
      exact ⟨.inl, fun hm => hm.resolve_right fun he => hid (by rw [← he, slot_div hi])⟩

/-- Fresh twigs hold the null leaves of slots not used yet. -/
theorem ensureTwigs (h : Holding twigs leaf touched) (count : ℕ)
    (hleaf : ∀ slot, twigs.length * TWIG_SIZE ≤ slot → leaf slot = NULL_HASH)
    (htouched : ∀ slot ∈ touched, slot < twigs.length * TWIG_SIZE) :
    Holding (TwigTree.ensureTwigs twigs count) leaf touched := by
  intro id tw htw
  rw [TwigTree.ensureTwigs, getElem?_append] at htw
  split_ifs at htw with hid
  · exact h id tw htw
  · have hnew : tw = Twig.new := by
      have := mem_of_getElem? htw
      exact eq_of_mem_replicate this
    have hle : twigs.length * TWIG_SIZE ≤ id * TWIG_SIZE :=
      Nat.mul_le_mul_right _ (by omega)
    subst hnew
    refine Twig.Holds.new.congr (fun i _ => (hleaf _ (by omega)).symm) fun i => ?_
    refine ⟨False.elim, fun ⟨_, hmem⟩ => ?_⟩
    have := htouched _ hmem
    omega

/-- Repairing the sorted touched slots group by group leaves nothing stale. -/
theorem repairTouched {fuel : ℕ} {todo : List ℕ} (h : Holding twigs leaf todo)
    (hsorted : todo.Pairwise (· ≤ ·)) (hfuel : todo.length ≤ fuel) :
    Holding (TwigTree.repairTouched fuel todo twigs) leaf [] := by
  induction fuel generalizing todo twigs with
  | zero =>
    obtain rfl : todo = [] := length_eq_zero_iff.mp (by omega)
    exact h
  | succ fuel ih =>
    cases todo with
    | nil => exact h
    | cons slot rest =>
      have hdrop := (dropWhile_sublist (l := rest) (· / TWIG_SIZE = slot / TWIG_SIZE))
      have hafter : ∀ s ∈ rest.dropWhile (· / TWIG_SIZE = slot / TWIG_SIZE),
          s / TWIG_SIZE ≠ slot / TWIG_SIZE := fun s => div_ne_of_mem_dropWhile hsorted
      refine ih ?_ ((pairwise_cons.mp hsorted).2.sublist hdrop) ?_
      · intro id tw htw
        rw [getElem?_modify] at htw
        obtain ⟨tw₀, htw₀, rfl⟩ := map_eq_some_iff.mp htw
        by_cases hid : slot / TWIG_SIZE = id
        · subst hid
          simp only [if_true]
          refine ((h _ tw₀ htw₀).repair ?_ ?_).congr (fun _ _ => rfl) fun i => ?_
          · intro i hi
            obtain ⟨s, -, rfl⟩ := mem_map.mp hi
            exact Nat.mod_lt s TWIG_SIZE_pos
          · rintro i ⟨hi, hmem⟩
            refine mem_map.mpr ⟨slot / TWIG_SIZE * TWIG_SIZE + i, ?_, slot_mod hi⟩
            rcases mem_cons.mp hmem with he | hmem
            · simp [he]
            · rw [← takeWhile_append_dropWhile
                (p := fun s => decide (s / TWIG_SIZE = slot / TWIG_SIZE)) (l := rest)] at hmem
              refine mem_cons_of_mem _ ((mem_append.mp hmem).resolve_right fun hd => ?_)
              exact hafter _ hd (slot_div hi)
          · exact ⟨False.elim, fun ⟨hi, hmem⟩ => hafter _ hmem (slot_div hi)⟩
        · simp only [if_neg hid]
          refine (h id tw₀ htw₀).congr (fun _ _ => rfl) fun i => and_congr_right fun hi => ?_
          have hdiv : (id * TWIG_SIZE + i) / TWIG_SIZE = id := slot_div hi
          constructor
          · intro hmem
            rcases mem_cons.mp hmem with he | hmem
            · rw [he] at hdiv
              exact absurd hdiv hid
            · rw [← takeWhile_append_dropWhile
                (p := fun s => decide (s / TWIG_SIZE = slot / TWIG_SIZE)) (l := rest)] at hmem
              refine (mem_append.mp hmem).resolve_left fun ht => hid ?_
              have := mem_takeWhile_imp ht
              rw [decide_eq_true_iff, hdiv] at this
              exact this.symm
          · exact fun hmem => mem_cons_of_mem _ (hdrop.subset hmem)
      · have := hdrop.length_le
        simp only [length_cons] at hfuel
        omega

end Holding

namespace LogEntry

theorem leafAt_append (log : List LogEntry) (e : LogEntry) :
    leafAt (log ++ [e]) = update (leafAt log) log.length
      (if e.active then hashLeaf e.key e.value else NULL_HASH) := by
  funext slot
  rcases lt_trichotomy slot log.length with hlt | rfl | hgt
  · rw [update_of_ne (by omega), leafAt, leafAt, getElem?_append_left hlt]
  · simp [leafAt]
  · rw [update_of_ne (by omega), leafAt, leafAt,
      getElem?_eq_none (by simp; omega), getElem?_eq_none (by omega)]

theorem leafAt_kill (log : List LogEntry) (slot : ℕ) :
    leafAt (log.modify slot fun e => { e with active := false }) =
      update (leafAt log) slot NULL_HASH := by
  funext s
  by_cases hs : s = slot
  · subst hs
    rw [leafAt, getElem?_modify]
    cases log[s]? <;> simp
  · rw [update_of_ne hs, leafAt, leafAt, getElem?_modify]
    cases log[s]? <;> simp [Ne.symm hs]

omit [Crypto] in
theorem twigCount_succ (n : ℕ) : twigCount (n + 1) = max (twigCount n) (n / TWIG_SIZE + 1) := by
  have hsize : TWIG_SIZE = 2048 := rfl
  simp only [twigCount, hsize]
  omega

omit [Crypto] in
theorem le_twigCount_mul (n : ℕ) : n ≤ twigCount n * TWIG_SIZE := by
  have hsize : TWIG_SIZE = 2048 := rfl
  simp only [twigCount, hsize]
  omega

end LogEntry

namespace TwigTree

open LogEntry

/-- What every operation keeps, the index apart: the twigs over the leaves of the slots,
and the values inside the arena. -/
structure Stores (leaf : ℕ → B256) (t : TwigTree) : Prop where
  slots : t.entries.length = t.nextSlot
  count : t.twigs.length = twigCount t.nextSlot
  touched : ∀ s ∈ t.touched, s < t.nextSlot
  holding : Holding t.twigs leaf t.touched
  unused : ∀ s, t.nextSlot ≤ s → leaf s = NULL_HASH
  arena : ∀ e ∈ t.entries, e.voff + e.vlen ≤ t.valueArena.length
  width : ∀ e ∈ t.entries, e.vlen < 2 ^ 32

/-- Every indexed prefix outside `skip` leads to a live entry with that prefix. -/
def IndexedBut (skip : Bytes → Prop) (t : TwigTree) : Prop :=
  ∀ pre slot, ¬ skip pre → t.index.lookup pre = some slot →
    ∃ e, t.entries[slot]? = some e ∧ e.active = true ∧ keyPrefix e.key = pre

/-- The invariant of a reachable tree. -/
structure Inv (t : TwigTree) : Prop where
  stores : t.Stores (leafAt t.log)
  indexed : t.IndexedBut fun _ => False

omit [Crypto] in
theorem log_length (t : TwigTree) : t.log.length = t.entries.length := by simp [log]

variable {key : B256} {slot : ℕ} {t : TwigTree} {leaf : ℕ → B256}

omit [Crypto] in
theorem lookup_eq_some (h : t.lookup key = some slot) :
    t.index.lookup (keyPrefix key) = some slot ∧
      ∃ e, t.entries[slot]? = some e ∧ e.key = key := by
  obtain ⟨hindex, hkey⟩ := filter_eq_some_iff.mp h
  exact ⟨hindex, map_eq_some_iff.mp (beq_iff_eq.mp hkey)⟩

theorem Stores.new : new.Stores fun _ => NULL_HASH where
  slots := rfl
  count := rfl
  touched := by simp
  holding := by
    intro id tw htw
    simp at htw
  unused _ _ := rfl
  arena := by simp
  width := by simp

theorem Inv.new : new.Inv where
  stores := Stores.new
  indexed := by
    intro pre slot _ h
    simp at h

omit [Crypto] in
theorem log_deactivate (t : TwigTree) (slot : ℕ) :
    (t.deactivate slot).log = t.log.modify slot fun e => { e with active := false } := by
  apply ext_getElem?
  intro s
  simp only [log, deactivate, valueOf, getElem?_map, getElem?_modify]
  by_cases hs : slot = s
  · subst hs
    cases t.entries[slot]? <;> simp
  · cases t.entries[s]? <;> simp [hs]

variable {value : Bytes}

theorem log_append (h : t.Stores leaf) {digest : B256} (hlen : value.length < 2 ^ 32) :
    (t.append key value digest).log = t.log ++ [{ key, value, active := true }] := by
  simp only [log, append, map_append, map_cons, map_nil]
  congr 1
  · refine map_congr_left fun e he => ?_
    simp only [valueOf, valueOf_append (h.arena e he)]
  · have hmod : value.length % 2 ^ 32 = value.length := Nat.mod_eq_of_lt hlen
    simp only [valueOf, hmod, drop_left, take_length]

namespace Stores

variable {leaf : ℕ → B256} {t : TwigTree}

omit [Crypto] in
theorem modify_entries {P : Entry → Prop} (h : ∀ e ∈ t.entries, P e)
    (hkill : ∀ e, P e → P { e with active := false }) (slot : ℕ) :
    ∀ e ∈ (t.deactivate slot).entries, P e := by
  intro e he
  obtain ⟨s, hs⟩ := mem_iff_getElem?.mp he
  simp only [deactivate, getElem?_modify] at hs
  obtain ⟨e₀, he₀, rfl⟩ := map_eq_some_iff.mp hs
  have h₀ := h e₀ (mem_of_getElem? he₀)
  split
  · exact hkill e₀ h₀
  · exact h₀

variable (h : t.Stores leaf)
include h

theorem deactivate {slot : ℕ} (hslot : slot < t.nextSlot) :
    (t.deactivate slot).Stores (update leaf slot NULL_HASH) where
  slots := by simpa using h.slots
  count := by simpa using h.count
  touched := forall_mem_append.mpr ⟨h.touched, forall_mem_singleton.mpr hslot⟩
  holding := h.holding.write slot NULL_HASH fun tw => tw.live - 1
  unused s hs := by
    rw [update_of_ne (by simp only [TwigTree.deactivate] at hs; omega)]
    exact h.unused s hs
  arena := modify_entries h.arena (fun _ he => he) slot
  width := modify_entries h.width (fun _ he => he) slot

theorem ensureTwigs :
    Holding (TwigTree.ensureTwigs t.twigs (t.nextSlot / TWIG_SIZE + 1)) leaf t.touched := by
  have hfull : t.nextSlot ≤ t.twigs.length * TWIG_SIZE := by
    rw [h.count]
    exact le_twigCount_mul _
  apply h.holding.ensureTwigs
  · intro slot hslot
    exact h.unused slot (hfull.trans hslot)
  · intro slot hslot
    exact (h.touched slot hslot).trans_le hfull

theorem ensureTwigs_length :
    (TwigTree.ensureTwigs t.twigs (t.nextSlot / TWIG_SIZE + 1)).length =
      twigCount (t.nextSlot + 1) := by
  simp only [TwigTree.ensureTwigs, length_append, length_replicate, h.count,
    twigCount_succ]
  omega

theorem append (key : B256) (value : Bytes) (digest : B256) :
    (t.append key value digest).Stores (update leaf t.nextSlot digest) where
  slots := by simp [h.slots]
  count := by
    simp only [TwigTree.append, length_modify]
    exact h.ensureTwigs_length
  touched := forall_mem_append.mpr ⟨fun s hs => (h.touched s hs).trans (Nat.lt_succ_self _),
    forall_mem_singleton.mpr (Nat.lt_succ_self _)⟩
  holding := h.ensureTwigs.write t.nextSlot digest fun tw => tw.live + 1
  unused s hs := by
    simp only [TwigTree.append] at hs
    rw [update_of_ne (by omega)]
    exact h.unused s (by omega)
  arena := by
    simp only [TwigTree.append, length_append, forall_mem_append,
      forall_mem_singleton]
    exact ⟨fun e he => (h.arena e he).trans (Nat.le_add_right _ _),
      Nat.add_le_add_left (Nat.mod_le _ _) _⟩
  width := forall_mem_append.mpr ⟨h.width,
    forall_mem_singleton.mpr (Nat.mod_lt _ (by decide))⟩

theorem value_lt {e : Entry} (he : e ∈ t.entries) : (t.valueOf e).length < 2 ^ 32 := by
  have := h.width e he
  rw [valueOf, length_take]
  omega

theorem twig_of_slot {slot : ℕ} (hslot : slot < t.entries.length) :
    ∃ tw, t.twigs[slot / TWIG_SIZE]? = some tw := by
  refine ⟨_, getElem?_eq_getElem ?_⟩
  have hsize : TWIG_SIZE = 2048 := rfl
  rw [h.slots] at hslot
  rw [h.count, twigCount, hsize]
  omega

end Stores

theorem Inv.stores_deactivate (h : t.Stores (leafAt t.log)) (hslot : slot < t.nextSlot) :
    (t.deactivate slot).Stores (leafAt (t.deactivate slot).log) := by
  rw [log_deactivate, leafAt_kill]
  exact h.deactivate hslot

theorem Inv.stores_append (h : t.Stores (leafAt t.log)) (key : B256)
    (hlen : value.length < 2 ^ 32) :
    (t.append key value (hashLeaf key value)).Stores
      (leafAt (t.append key value (hashLeaf key value)).log) := by
  rw [log_append h hlen, leafAt_append, log_length, h.slots]
  exact h.append key value _

omit [Crypto] in
/-- Deactivating a slot spoils the index only for the prefix of its key. -/
theorem IndexedBut.deactivate (h : t.IndexedBut fun _ => False) {e : Entry}
    (he : t.entries[slot]? = some e) : (t.deactivate slot).IndexedBut (· = keyPrefix e.key) := by
  intro pre s hpre hs
  obtain ⟨e', he', hactive, hkey⟩ := h pre s (fun hf => hf) hs
  have hne : slot ≠ s := by
    rintro rfl
    obtain rfl : e = e' := by simpa [he] using he'
    exact hpre hkey.symm
  refine ⟨e', ?_, hactive, hkey⟩
  simp [hne, he']

theorem IndexedBut.append (hslots : t.entries.length = t.nextSlot)
    (h : t.IndexedBut (· = keyPrefix key)) (value : Bytes) (leaf : B256) :
    (t.append key value leaf).IndexedBut fun _ => False := by
  intro pre s _ hs
  by_cases hpre : pre = keyPrefix key
  · subst hpre
    have hslot : s = t.nextSlot := by
      simpa [eq_comm] using hs
    subst hslot
    refine ⟨{ key, voff := t.valueArena.length, vlen := value.length % 2 ^ 32, active := true },
      ?_, rfl, rfl⟩
    simp only [TwigTree.append, ← hslots, getElem?_concat_length]
  · have hold : t.index.lookup pre = some s := by
      simpa [Finmap.lookup_insert_of_ne _ hpre] using hs
    obtain ⟨e, he, hactive, hkey⟩ := h pre s hpre hold
    have hlt : s < t.entries.length := (List.getElem?_eq_some_iff.mp he).1
    exact ⟨e, by simp [List.getElem?_append_left hlt, he], hactive, hkey⟩

omit [Crypto] in
theorem IndexedBut.mono {skip skip' : Bytes → Prop} (h : t.IndexedBut skip)
    (hsub : ∀ p, skip p → skip' p) : t.IndexedBut skip' :=
  fun pre slot hpre => h pre slot fun hs => hpre (hsub pre hs)

theorem Stores.lookup_eq_some (h : t.Stores leaf) (hlookup : t.lookup key = some slot) :
    ∃ e, t.entries[slot]? = some e ∧ e.key = key ∧ slot < t.nextSlot := by
  obtain ⟨-, e, he, hkey⟩ := TwigTree.lookup_eq_some hlookup
  exact ⟨e, he, hkey, h.slots ▸ (List.getElem?_eq_some_iff.mp he).1⟩

theorem Inv.set (h : t.Inv) (key : B256) (hlen : value.length < 2 ^ 32) :
    (t.set key value).Inv := by
  unfold TwigTree.set setWithLeaf
  cases hlookup : t.lookup key with
  | none =>
    exact ⟨stores_append h.stores key hlen,
      IndexedBut.append h.stores.slots (h.indexed.mono fun _ => False.elim) _ _⟩
  | some old =>
    obtain ⟨e, he, rfl, hold⟩ := h.stores.lookup_eq_some hlookup
    have hstores := stores_deactivate h.stores hold
    exact ⟨stores_append hstores e.key hlen,
      IndexedBut.append hstores.slots (h.indexed.deactivate he) _ _⟩

theorem Stores.withIndex (h : t.Stores leaf) (index : FlatIndex) : { t with index }.Stores leaf :=
  ⟨h.slots, h.count, h.touched, h.holding, h.unused, h.arena, h.width⟩

omit [Crypto] in
theorem IndexedBut.erase (h : t.IndexedBut fun _ => False) {e : Entry}
    (he : t.entries[slot]? = some e) :
    ({ t with index := t.index.erase (keyPrefix e.key) }.deactivate slot).IndexedBut
      fun _ => False := by
  intro pre s hpre hs
  by_cases heq : pre = keyPrefix e.key
  · subst heq
    simp at hs
  · have hs' : t.index.lookup pre = some s := by
      simpa [Finmap.lookup_erase_ne heq] using hs
    exact h.deactivate he pre s heq hs'

theorem Inv.delete (h : t.Inv) (key : B256) : (t.delete key).2.Inv := by
  unfold TwigTree.delete
  cases hlookup : t.lookup key with
  | none => exact h
  | some slot =>
    obtain ⟨e, he, rfl, hslot⟩ := h.stores.lookup_eq_some hlookup
    exact ⟨stores_deactivate (h.stores.withIndex (t.index.erase (keyPrefix e.key))) hslot,
      h.indexed.erase he⟩

def BatchOp.Fits (op : BatchOp) : Prop := ∀ value ∈ op.2, value.length < 2 ^ 32

theorem Inv.applyOp (h : t.Inv) {op : BatchOp} (hop : BatchOp.Fits op) : (t.applyOp op).Inv := by
  obtain ⟨key, value⟩ := op
  cases value with
  | some value => exact h.set key (hop value rfl)
  | none => exact h.delete key

theorem Inv.applyBatchIndexed (h : t.Inv) {ops : List BatchOp}
    (hops : ∀ op ∈ ops, BatchOp.Fits op) : (t.applyBatchIndexed ops).Inv := by
  refine List.foldlRecOn _ _ h fun t ht op hop => ht.applyOp ?_
  exact hops op (mem_mergeSort.mp hop)

theorem Inv.compact (h : t.Inv) (threshold : Float) : (t.compact threshold).2.Inv := by
  refine List.foldlRecOn _ _ h fun t' ht' kv hkv => ht'.set kv.1 ?_
  obtain ⟨id, -, hlive⟩ := mem_flatMap.mp (mem_mergeSort.mp hkv)
  obtain ⟨loc, -, hentry⟩ := mem_filterMap.mp hlive
  split at hentry
  · next e he =>
    split_ifs at hentry
    obtain rfl := Option.some.inj hentry
    exact h.stores.value_lt (mem_of_getElem? he)
  · cases hentry

theorem repairTouched_length (fuel : ℕ) (todo : List ℕ) (twigs : List Twig) :
    (repairTouched fuel todo twigs).length = twigs.length := by
  induction fuel generalizing todo twigs with
  | zero => rfl
  | succ fuel ih => cases todo <;> simp [repairTouched, ih]

/-- The cached nodes are those of the log: no slot is touched, and the upper tree is
folded over the twig roots. -/
structure Rooted (t : TwigTree) : Prop where
  untouched : t.touched = []
  cap : t.upCap = if t.twigs = [] then 0 else nextPowerOfTwo t.twigs.length
  folded : Folded hashNode t.upCap t.upper
  leaves : ∀ id tw, t.twigs[id]? = some tw → t.upper (t.upCap + id) = tw.root
  padding : ∀ id, t.twigs.length ≤ id → t.upper (t.upCap + id) = NULL_HASH

theorem Stores.repaired (h : t.Stores leaf) :
    Holding (repairTouched ((t.touched.mergeSort (· ≤ ·)).destutter (· ≠ ·)).length
      ((t.touched.mergeSort (· ≤ ·)).destutter (· ≠ ·)) t.twigs) leaf [] := by
  have hmem : ∀ s, s ∈ (t.touched.mergeSort (· ≤ ·)).destutter (· ≠ ·) ↔ s ∈ t.touched := by
    intro s
    rw [mem_destutter, mem_mergeSort]
  have hsorted : ((t.touched.mergeSort (· ≤ ·)).destutter (· ≠ ·)).Pairwise (· ≤ ·) := by
    have := pairwise_mergeSort' (· ≤ ·) t.touched
    exact this.sublist (destutter_sublist _ _)
  refine Holding.repairTouched (fun id tw htw => ?_) hsorted le_rfl
  exact (h.holding id tw htw).congr (fun _ _ => rfl) fun i => by rw [hmem]

theorem buildUpper_folded (twigs : List Twig) :
    Folded hashNode (nextPowerOfTwo twigs.length) (buildUpper twigs) :=
  folded_refreshDown _ _

theorem buildUpper_leaf (twigs : List Twig) (id : ℕ) :
    buildUpper twigs (nextPowerOfTwo twigs.length + id) =
      (twigs[id]?.map Twig.root).getD NULL_HASH := by
  have hpos := nextPowerOfTwo_pos twigs.length
  rw [buildUpper, refreshDown_of_lt (by omega), if_neg (by omega), Nat.add_sub_cancel_left]

theorem root_snd (t : TwigTree) : t.root.2 = { t with
    twigs := repairTouched ((t.touched.mergeSort (· ≤ ·)).destutter (· ≠ ·)).length
      ((t.touched.mergeSort (· ≤ ·)).destutter (· ≠ ·)) t.twigs
    touched := [], upper := t.root.2.upper, upCap := t.root.2.upCap } := by
  unfold root
  simp only
  split_ifs <;> rfl

theorem root_rooted (t : TwigTree) : t.root.2.Rooted := by
  unfold root
  simp only
  split_ifs with hempty
  · refine ⟨rfl, by simp [hempty], ?_, ?_, fun _ _ => rfl⟩
    · intro j _ hj
      simp at hj
    · intro id tw htw
      simp [hempty] at htw
  · refine ⟨rfl, by simp [hempty], buildUpper_folded _, ?_, ?_⟩
    · intro id tw htw
      simp only [buildUpper_leaf, htw, map_some, getD_some]
    · intro id hid
      simp only [buildUpper_leaf, getElem?_eq_none hid, map_none, getD_none]

theorem root_log (t : TwigTree) : t.root.2.log = t.log := by
  rw [root_snd]
  rfl

theorem Stores.root (h : t.Stores leaf) : t.root.2.Stores leaf := by
  rw [root_snd]
  exact ⟨h.slots, (repairTouched_length _ _ _).trans h.count, by simp, h.repaired, h.unused,
    h.arena, h.width⟩

theorem Inv.root (h : t.Inv) : t.root.2.Inv := by
  refine ⟨?_, ?_⟩
  · rw [root_log]
    exact h.stores.root
  · rw [root_snd]
    exact h.indexed

/-- A tree whose caches are current has the root of its leaves. -/
theorem Rooted.cachedRoot_eq (hr : t.Rooted) (h : t.Stores leaf) :
    t.cachedRoot = forestRoot leaf (twigCount t.nextSlot) := by
  rw [cachedRoot, forestRoot, hr.cap, ← h.count]
  by_cases hempty : t.twigs = []
  · simp [hempty]
  · have hpos : t.twigs.length ≠ 0 := by simpa using hempty
    have hcap : t.upCap = 2 ^ Nat.clog 2 t.twigs.length := by rw [hr.cap, if_neg hempty]; rfl
    simp only [if_neg hempty, if_neg hpos, (nextPowerOfTwo_pos _).ne']
    have hfolded := hr.folded
    rw [hcap] at hfolded
    apply hfolded.root_eq
    intro id _
    rw [← hcap]
    show t.upper (t.upCap + id) = if id < t.twigs.length then _ else NULL_HASH
    split_ifs with hid
    · have htw : t.twigs[id]? = some t.twigs[id] := getElem?_eq_getElem hid
      rw [hr.leaves id _ htw]
      have hholds := h.holding id _ htw
      rw [hr.untouched] at hholds
      exact (hholds.congr (fun _ _ => rfl) fun i => by simp).root_eq
    · exact hr.padding id (by omega)

theorem root_fst (t : TwigTree) : t.root.1 = t.root.2.cachedRoot := by
  unfold root
  simp only
  split_ifs
  · rfl
  · simp [cachedRoot, (nextPowerOfTwo_pos _).ne']

theorem Stores.root_eq (h : t.Stores leaf) : t.root.1 = forestRoot leaf (twigCount t.nextSlot) := by
  have hnext : t.root.2.nextSlot = t.nextSlot := by rw [root_snd]
  rw [root_fst, (root_rooted t).cachedRoot_eq h.root, hnext]

theorem Inv.root_eq (h : t.Inv) : t.root.1 = worldRoot t.log := by
  rw [h.stores.root_eq, worldRoot, log_length, h.stores.slots]

theorem Rooted.climb_upper (hr : t.Rooted) {id : ℕ} {tw : Twig} (htw : t.twigs[id]? = some tw) :
    climb hashNode tw.root id (siblings t.upper (Nat.log2 (t.upCap + id)) (t.upCap + id)) =
      t.cachedRoot := by
  have hid : id < t.twigs.length := (List.getElem?_eq_some_iff.mp htw).1
  have hne : t.twigs ≠ [] := by
    rintro hnil
    simp [hnil] at hid
  have hcap : t.upCap = 2 ^ Nat.clog 2 t.twigs.length := by
    rw [hr.cap, if_neg hne]
    rfl
  have hidcap : id < 2 ^ Nat.clog 2 t.twigs.length := hid.trans_le (le_nextPowerOfTwo _)
  have hfolded := hr.folded
  have hclimb := hr.leaves id tw htw
  rw [hcap] at hfolded hclimb
  rw [cachedRoot, if_neg (by rw [hcap]; exact (Nat.two_pow_pos _).ne'), hcap, log2_leaf hidcap,
    ← hclimb]
  exact hfolded.climb_leaf hidcap

/-- Every proof of a tree whose caches are current verifies against its root. -/
theorem Rooted.prove_verify (hr : t.Rooted) (h : t.Inv) {p : TwigProof}
    (hp : t.prove key = some p) : p.verify t.cachedRoot = true := by
  unfold prove at hp
  cases hlookup : t.lookup key with
  | none => simp [hlookup] at hp
  | some slot =>
    obtain ⟨hindex, e, he, rfl⟩ := lookup_eq_some hlookup
    obtain ⟨e', he', hactive, -⟩ := h.indexed _ _ (fun hf => hf) hindex
    obtain rfl : e = e' := by simpa [he] using he'
    obtain ⟨tw, htw⟩ := h.stores.twig_of_slot (List.getElem?_eq_some_iff.mp he).1
    have hholds := h.stores.holding _ tw htw
    rw [hr.untouched] at hholds
    have htwig := (hholds.congr (fun _ _ => rfl) fun i => by simp).climb
      (Nat.mod_lt slot TWIG_SIZE_pos)
    have hleaf : leafAt t.log slot = hashLeaf e.key (t.entryValue slot) := by
      simp [leafAt, log, he, hactive, entryValue]
    rw [Nat.div_add_mod', hleaf] at htwig
    simp only [hlookup, htw, Option.some.injEq] at hp
    obtain rfl := hp
    simp only [TwigProof.verify, Vector.toList, htwig, decide_eq_true_eq]
    exact hr.climb_upper htw

inductive Call where
  | set (key : B256) (value : Bytes)
  | delete (key : B256)
  | applyBatch (ops : List BatchOp)
  | compact (threshold : Float)
  | root

def call (t : TwigTree) : Call → TwigTree
  | .set key value => t.set key value
  | .delete key => (t.delete key).2
  | .applyBatch ops => t.applyBatch ops
  | .compact threshold => (t.compact threshold).2
  | .root => t.root.2

/-- Every value the call writes has at most `u32::MAX` bytes. -/
def Call.Fits : Call → Prop
  | .set _ value => value.length < 2 ^ 32
  | .applyBatch ops => ∀ op ∈ ops, BatchOp.Fits op
  | _ => True

theorem Inv.call (h : t.Inv) {c : Call} (hc : c.Fits) : (t.call c).Inv := by
  cases c with
  | set key value => exact h.set key hc
  | delete key => exact h.delete key
  | applyBatch ops => exact h.applyBatchIndexed hc
  | compact threshold => exact h.compact threshold
  | root => exact h.root

theorem Inv.run {calls : List Call} (hcalls : ∀ c ∈ calls, c.Fits) :
    (calls.foldl TwigTree.call TwigTree.new).Inv :=
  List.foldlRecOn _ _ Inv.new fun _ ht c hc => ht.call (hcalls c hc)

/-- However the calls of a run interleave with `root()`, the root returned next is the one
computed from scratch from the append log, and every proof given after it verifies
against it. -/
theorem incremental_root (calls : List Call) (hcalls : ∀ c ∈ calls, c.Fits) :
    let t := calls.foldl TwigTree.call new
    t.root.1 = worldRoot t.log ∧
      ∀ key p, t.root.2.prove key = some p → p.verify t.root.1 = true := by
  have h := Inv.run hcalls
  refine ⟨h.root_eq, fun key p hp => ?_⟩
  rw [root_fst]
  exact (root_rooted _).prove_verify h.root hp

end TwigTree

end

namespace TwigTree

open LogEntry

theorem incremental_root_of_overwrite :
    letI := Crypto.ofBlake3 fun bytes => BitVec.ofNat 256 (leNat bytes)
    let calls : List Call :=
      [.set 1 [7], .root, .applyBatch [(2, some [8]), (1, some [9])], .delete 2, .compact 0.5]
    (∀ c ∈ calls, c.Fits) ∧
      (calls.foldl call new).root.1 = worldRoot (calls.foldl call new).log := by
  let scheme := Crypto.ofBlake3 fun bytes => BitVec.ofNat 256 (leNat bytes)
  intro calls
  have hfits : ∀ c ∈ calls, c.Fits := by
    simp only [calls, forall_mem_cons, Call.Fits, BatchOp.Fits]
    simp
  exact ⟨hfits, (incremental_root calls hfits).1⟩

/-- A hash of 64 bytes that keeps the left 32, and of anything else that keeps the
length. -/
def leftHash (bytes : Bytes) : B256 :=
  BitVec.ofNat 256 (if bytes.length = 64 then beNat (bytes.take 32) else bytes.length)

section LeftHash

local instance : Crypto := Crypto.ofBlake3 leftHash

theorem hashNode_leftHash (left right : B256) : hashNode left right = left := by
  have htake : (nodePreimage left right).take 32 = B256.toBytes left := by
    rw [nodePreimage, take_left' (by simp)]
  show leftHash (nodePreimage left right) = left
  rw [leftHash, if_pos (nodePreimage_length _ _)]
  exact ofNat_beNat_beBytes 32 left

theorem hashLeaf_leftHash {value : Bytes} (hlen : value.length ≠ 31) :
    hashLeaf 0 value = BitVec.ofNat 256 (33 + value.length) := by
  show leftHash (leafPreimage 0 value) = _
  rw [leftHash, leafPreimage_length, if_neg (by omega)]

theorem climb_leftHash (digest : B256) (path : List B256) :
    climb hashNode digest 0 path = digest := by
  induction path with
  | nil => rfl
  | cons sibling path ih => rw [climb, if_pos rfl, hashNode_leftHash, ih]

theorem merkleRoot_leftHash (leaf : ℕ → B256) (h : ℕ) : merkleRoot hashNode leaf h = leaf 0 := by
  rw [merkleRoot]
  induction h with
  | zero => rfl
  | succ h ih => rw [subtree, hashNode_leftHash, ih]

theorem root_append_leftHash (value : Bytes) (leaf : B256) :
    (new.append 0 value leaf).root.1 = leaf := by
  set t := new.append 0 value leaf with ht
  have hempty : Holding (ensureTwigs [] 1) (fun _ => NULL_HASH) [] :=
    Holding.ensureTwigs (fun id tw htw => by simp at htw) 1 (fun _ _ => rfl) (by simp)
  have hholding : Holding t.twigs (update (fun _ => NULL_HASH) 0 leaf) [0] :=
    hempty.write 0 leaf fun tw => tw.live + 1
  have hrepaired : Holding (repairTouched 1 [0] t.twigs)
      (update (fun _ => NULL_HASH) 0 leaf) [] :=
    hholding.repairTouched (by simp) le_rfl
  have hlength : (repairTouched 1 [0] t.twigs).length = 1 := by
    rfl
  obtain ⟨tw, htw⟩ := length_eq_one_iff.mp hlength
  have hroot : tw.root = leaf := by
    have hholds := hrepaired 0 tw (by rw [htw]; rfl)
    rw [(hholds.congr (fun _ _ => rfl) fun i => by simp).root_eq, merkleRoot_leftHash]
    rfl
  have hslots : (t.touched.mergeSort (· ≤ ·)).destutter (· ≠ ·) = [0] := by
    rw [show t.touched = [0] from rfl, mergeSort_singleton, destutter_singleton]
  have htwigs : t.root.2.twigs = [tw] := by
    rw [root_snd, hslots, ← htw]
    rfl
  have hr := root_rooted t
  have hcap : t.root.2.upCap = 1 := by
    rw [hr.cap, htwigs]
    rfl
  have hupper := hr.leaves 0 tw (by rw [htwigs]; rfl)
  rw [root_fst, cachedRoot, hcap]
  rw [hcap] at hupper
  exact hupper.trans hroot

/-- `set` of a value of `2 ^ 32` bytes records the length 0: the leaf commits to the whole
value, the proof carries the empty one, and it does not verify. -/
theorem long_value_proof_rejected :
    let t := new.set 0 (List.replicate (2 ^ 32) 0)
    ∃ p, t.root.2.prove 0 = some p ∧ p.value = [] ∧ p.verify t.root.1 = false := by
  intro t
  obtain ⟨value, hvalue⟩ : ∃ value : Bytes, value = List.replicate (2 ^ 32) 0 := ⟨_, rfl⟩
  have hlen : value.length = 2 ^ 32 := by rw [hvalue, length_replicate]
  have ht : t = new.append 0 value (hashLeaf 0 value) := by
    rw [hvalue]
    rfl
  have hindex : t.root.2.index.lookup (keyPrefix 0) = some 0 := by
    rw [root_snd]
    exact Finmap.lookup_insert _
  have hentries : t.root.2.entries =
      [{ key := 0, voff := 0, vlen := value.length % 2 ^ 32, active := true }] := by
    rw [root_snd, ht]
    rfl
  have hlookup : t.root.2.lookup 0 = some 0 := by
    rw [lookup, hindex, hentries]
    rfl
  have hshort : t.root.2.entryValue 0 = [] := by
    rw [entryValue, hentries]
    simp only [getElem?_cons_zero, valueOf, hlen, Nat.mod_self, take_zero]
  have hroot : t.root.1 = hashLeaf 0 value := by
    rw [ht]
    exact root_append_leftHash value _
  unfold prove
  rw [hlookup]
  refine ⟨_, rfl, hshort, ?_⟩
  simp only [TwigProof.verify, Nat.zero_mod, Nat.zero_div, climb_leftHash, hroot, hshort]
  -- the two leaves differ in length
  rw [hashLeaf_leftHash (by decide), hashLeaf_leftHash (by rw [hlen]; decide), hlen]
  decide

end LeftHash

end TwigTree

end N42
