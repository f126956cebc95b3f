import N42.Bmt.Soundness

/-!
The root of the sharded sparse tree is a function of its content, whatever calls led there: no inner
node stands above fewer than two keys, so the content decides the tree up to cached hashes.
-/

namespace N42.Bmt

open Lib Finmap

namespace Node

def inner : Node → Bool
  | internal _ _ _ => true
  | _ => false

/-- A node with an empty child has an inner node as the other. -/
def Reduced : Node → Prop
  | internal left right _ => left.Reduced ∧ right.Reduced ∧ (left = nil → right.inner = true) ∧
      (right = nil → left.inner = true)
  | _ => True

theorem Reduced.collapse {left right : Node} (hl : left.Reduced) (hr : right.Reduced) :
    (internal left right none).collapse.Reduced := by
  cases left <;> cases right <;> simp_all [Node.collapse, Reduced, inner]

theorem Reduced.removeAt {n : Node} (h : n.Reduced) (key : B256) (depth : ℕ) :
    (n.removeAt key depth).1.Reduced := by
  induction n generalizing depth with
  | nil => trivial
  | leaf existing existingHash =>
    unfold Node.removeAt
    split <;> trivial
  | internal left right cache ihl ihr =>
    unfold Node.removeAt
    split
    · exact .collapse h.1 (ihr h.2.1 _)
    · exact .collapse (ihl h.1 _) h.2.1

theorem insertAt_internal {fuel depth : ℕ} {left right : Node} {cache : Option B256}
    {key valueHash : B256} {result : Node × Bool}
    (h : (internal left right cache).insertAt (fuel + 1) key valueHash depth = some result) :
    (∃ r, right.insertAt fuel key valueHash (depth + 1) = some r ∧
        result.1 = internal left r.1 none) ∨
      ∃ l, left.insertAt fuel key valueHash (depth + 1) = some l ∧
        result.1 = internal l.1 right none := by
  unfold insertAt at h
  split at h
  · obtain ⟨r, hr, h⟩ := Option.bind_eq_some_iff.mp h
    exact .inl ⟨r, hr, by rw [← Option.some.inj h]⟩
  · obtain ⟨l, hl, h⟩ := Option.bind_eq_some_iff.mp h
    exact .inr ⟨l, hl, by rw [← Option.some.inj h]⟩

theorem insertAt_nil {fuel depth : ℕ} {key valueHash : B256} {result : Node × Bool}
    (h : nil.insertAt fuel key valueHash depth = some result) : result.1 = leaf key valueHash := by
  cases fuel with
  | zero => cases h
  | succ fuel =>
    cases h
    rfl

theorem Reduced.insertAt {fuel : ℕ} {n : Node} {key valueHash : B256} {depth : ℕ}
    {result : Node × Bool} (h : n.Reduced)
    (hinsert : n.insertAt fuel key valueHash depth = some result) :
    result.1.Reduced ∧ result.1 ≠ nil ∧
      ((n.inner = true ∨ ∃ k v, n = leaf k v ∧ k ≠ key) → result.1.inner = true) := by
  induction fuel using Nat.strong_induction_on generalizing n depth result with
  | _ fuel ih =>
  cases fuel with
  | zero => cases hinsert
  | succ fuel =>
  cases n with
  | nil => simp [insertAt_nil hinsert, Reduced, inner]
  | leaf existing existingHash =>
    unfold Node.insertAt at hinsert
    split at hinsert
    · next heq =>
      cases hinsert
      simp [Reduced, inner, heq]
    · next hne =>
      obtain ⟨slot, hslot, hinsert⟩ := Option.bind_eq_some_iff.mp hinsert
      obtain ⟨last, hlast, hinsert⟩ := Option.bind_eq_some_iff.mp hinsert
      obtain rfl := Option.some.inj hinsert
      cases fuel with
      | zero => cases hslot
      | succ fuel =>
      have hbelow {below : Node × Bool} (hmeets : (leaf existing existingHash).insertAt fuel key
          valueHash (depth + 1) = some below) :=
        ih fuel (by omega) (n := leaf existing existingHash) trivial hmeets
      -- the old leaf goes to one side, and the new key meets it there or stands beside it
      obtain ⟨r, hr, hslot⟩ | ⟨l, hl, hslot⟩ := insertAt_internal hslot
      · rw [hslot, insertAt_nil hr] at hlast
        obtain ⟨r', hr', hlast⟩ | ⟨l', hl', hlast⟩ := insertAt_internal hlast
        · obtain ⟨hreduced, hfull, hinner⟩ := hbelow hr'
          rw [hlast]
          exact ⟨⟨trivial, hreduced, fun _ => hinner (.inr ⟨_, _, rfl, hne⟩),
            fun hnil => absurd hnil hfull⟩, by simp, fun _ => rfl⟩
        · simp [hlast, insertAt_nil hl', Reduced, inner]
      · rw [hslot, insertAt_nil hl] at hlast
        obtain ⟨r', hr', hlast⟩ | ⟨l', hl', hlast⟩ := insertAt_internal hlast
        · simp [hlast, insertAt_nil hr', Reduced, inner]
        · obtain ⟨hreduced, hfull, hinner⟩ := hbelow hl'
          rw [hlast]
          exact ⟨⟨hreduced, trivial, fun hnil => absurd hnil hfull,
            fun _ => hinner (.inr ⟨_, _, rfl, hne⟩)⟩, by simp, fun _ => rfl⟩
  | internal left right cache =>
    obtain ⟨hl, hr, hleft, hright⟩ := h
    obtain ⟨r', hr', hresult⟩ | ⟨l', hl', hresult⟩ := insertAt_internal hinsert
    · obtain ⟨hreduced, hne, hinner⟩ := ih fuel (Nat.lt_succ_self _) hr hr'
      rw [hresult]
      exact ⟨⟨hl, hreduced, fun hnil => hinner (.inl (hleft hnil)), fun hnil => absurd hnil hne⟩,
        by simp, fun _ => rfl⟩
    · obtain ⟨hreduced, hne, hinner⟩ := ih fuel (Nat.lt_succ_self _) hl hl'
      rw [hresult]
      exact ⟨⟨hreduced, hr, fun hnil => absurd hnil hne, fun hnil => hinner (.inl (hright hnil))⟩,
        by simp, fun _ => rfl⟩

theorem reduced_erase (n : Node) : n.erase.Reduced ↔ n.Reduced := by
  induction n with
  | nil => rfl
  | leaf existing valueHash => rfl
  | internal left right cache ihl ihr =>
    rw [erase, Reduced, Reduced, ihl, ihr]
    cases left <;> cases right <;> simp [erase, inner]

section

variable {P : B256 → Prop} {depth : ℕ} {n : Node}

theorem Routed.of_get {key hash : B256} (h : n.Routed P depth)
    (hget : n.get key depth = some hash) : P key := by
  induction n generalizing P depth with
  | nil => simp [get] at hget
  | leaf existing valueHash =>
    obtain ⟨rfl, -⟩ := Option.ite_none_right_eq_some.mp hget
    exact h
  | internal left right cache ihl ihr =>
    rw [get] at hget
    split at hget
    · exact (ihr h.2.2 hget).1
    · exact (ihl h.2.1 hget).1

/-- Below a node that is not empty stands a key, and below an inner one a second. -/
theorem Reduced.exists_get (hn : n.Reduced) (h : n.Routed P depth) :
    (n ≠ nil → ∃ a, P a ∧ (n.get a depth).isSome) ∧
      (n.inner = true → ∃ a b, a ≠ b ∧ (P a ∧ (n.get a depth).isSome) ∧
        P b ∧ (n.get b depth).isSome) := by
  induction n generalizing P depth with
  | nil => exact ⟨fun hne => absurd rfl hne, nofun⟩
  | leaf existing valueHash => exact ⟨fun _ => ⟨existing, h, by simp [get]⟩, nofun⟩
  | internal left right cache ihl ihr =>
    obtain ⟨hleft, hright, hnoleft, hnoright⟩ := hn
    -- what is found below a child is found below the node
    have hup : ∀ side, ∀ a, (P a ∧ bit a depth = side) ∧
        ((if side then right else left).get a (depth + 1)).isSome →
        P a ∧ ((internal left right cache).get a depth).isSome := by
      rintro side a ⟨⟨ha, rfl⟩, hget⟩
      cases hbit : bit a depth <;> simp_all [get]
    have htwo : ∃ a b, a ≠ b ∧ (P a ∧ ((internal left right cache).get a depth).isSome) ∧
        P b ∧ ((internal left right cache).get b depth).isSome := by
      by_cases hl : left = nil
      · obtain ⟨a, b, hne, ha, hb⟩ := (ihr hright h.2.2).2 (hnoleft hl)
        exact ⟨a, b, hne, hup true a ha, hup true b hb⟩
      · by_cases hr : right = nil
        · obtain ⟨a, b, hne, ha, hb⟩ := (ihl hleft h.2.1).2 (hnoright hr)
          exact ⟨a, b, hne, hup false a ha, hup false b hb⟩
        · obtain ⟨a, ha⟩ := (ihl hleft h.2.1).1 hl
          obtain ⟨b, hb⟩ := (ihr hright h.2.2).1 hr
          refine ⟨a, b, ?_, hup false a ha, hup true b hb⟩
          rintro rfl
          exact absurd (ha.1.2.symm.trans hb.1.2) (by decide)
    obtain ⟨a, b, hne, ha, hb⟩ := htwo
    exact ⟨fun _ => ⟨a, ha⟩, fun _ => ⟨a, b, hne, ha, hb⟩⟩

theorem Reduced.eq_of_get {m : Node} (hn : n.Reduced) (h : n.Routed P depth)
    (hm : m.inner = false) (hroute : m.Routed P depth)
    (hsame : ∀ key, P key → n.get key depth = m.get key depth) : n = m := by
  have hfound : ∀ key, P key ∧ (n.get key depth).isSome → (m.get key depth).isSome :=
    fun key hget => hsame key hget.1 ▸ hget.2
  cases m with
  | internal left right cache => cases hm
  | nil =>
    by_contra hne
    obtain ⟨a, ha⟩ := (hn.exists_get h).1 hne
    exact absurd (hfound a ha) nofun
  | leaf key valueHash =>
    have hkey : ∀ a, P a ∧ (n.get a depth).isSome → a = key := by
      intro a ha
      by_contra hne
      simpa [get, Ne.symm hne] using hfound a ha
    have hget := hsame key hroute
    cases n with
    | nil => simp [get] at hget
    | leaf existing existingHash =>
      simpa [get] using hget
    | internal left right cache =>
      obtain ⟨a, b, hne, ha, hb⟩ := (hn.exists_get h).2 rfl
      exact absurd ((hkey a ha).trans (hkey b hb).symm) hne

/-- The content decides a reduced tree, up to cached hashes. -/
theorem Reduced.erase_eq {n' : Node} (hn : n.Reduced) (hn' : n'.Reduced) (h : n.Routed P depth)
    (h' : n'.Routed P depth) (hsame : ∀ key, P key → n.get key depth = n'.get key depth) :
    n.erase = n'.erase := by
  induction n generalizing n' P depth with
  | nil => rw [hn'.eq_of_get h' rfl h fun key hkey => (hsame key hkey).symm]
  | leaf existing valueHash =>
    rw [hn'.eq_of_get h' rfl h fun key hkey => (hsame key hkey).symm]
  | internal left right cache ihl ihr =>
    cases n' with
    | nil => rw [hn.eq_of_get h rfl h' hsame]
    | leaf existing valueHash => rw [hn.eq_of_get h rfl h' hsame]
    | internal left' right' cache' =>
      have hleft := ihl hn.1 hn'.1 h.2.1 h'.2.1 fun key hkey => by
        simpa [get, hkey.2] using hsame key hkey.1
      have hright := ihr hn.2.1 hn'.2.1 h.2.2 h'.2.2 fun key hkey => by
        simpa [get, hkey.2] using hsame key hkey.1
      rw [erase, erase, hleft, hright]

end

end Node

namespace ShardedSbmt

/-- What the tree is for: a partial map from keys to values. -/
abbrev Content := B256 → Option Bytes

def Call.apply (content : Content) : Call → Content
  | .insert key value => Function.update content key (some value)
  | .applyDiff updates => updates.foldl (fun c op => Function.update c op.1 op.2) content
  | .rootHash => content
  | .prove _ => content

variable {t : ShardedSbmt} {content : Content}

theorem get_set {i : Fin SHARD_COUNT} {shards : Vector Sbmt SHARD_COUNT} {values : Values}
    {value : Option Bytes} {key : B256} (hi : shardIndexForKey key = i)
    (hkey : values.lookup key = value)
    (hother : ∀ k, k ≠ key → values.lookup k = t.values[i].lookup k) (version : ℕ) :
    get ⟨shards, t.values.set i values, version⟩ = Function.update t.get key value := by
  subst hi
  funext k
  by_cases hk : k = key
  · subst hk
    simp [ShardedSbmt.get, hkey]
  · rw [Function.update_of_ne hk, ShardedSbmt.get, ShardedSbmt.get]
    by_cases hshard : (shardIndexForKey key : ℕ) = shardIndexForKey k
    · simpa [hshard] using hother k hk
    · simp [hshard]

theorem reduced_set (h : ∀ (i : ℕ) (hi : i < SHARD_COUNT), t.shards[i].root.Reduced) {shard : Sbmt}
    (hshard : shard.root.Reduced) {i : ℕ} (hi : i < SHARD_COUNT) (j : ℕ) (hj : j < SHARD_COUNT) :
    (t.shards.set i shard)[j].root.Reduced := by
  by_cases hij : i = j
  · simpa [Vector.getElem_set, hij] using hshard
  · simpa [Vector.getElem_set, hij] using h j hj

theorem Content.foldl_update {l : List (B256 × Bytes)} (h : ∀ e ∈ l, content e.1 = some e.2)
    (base : Content) (key : B256) :
    l.foldl (fun (c : Content) e => Function.update c e.1 (some e.2)) base key =
      if ∃ e ∈ l, e.1 = key then content key else base key := by
  induction l generalizing base with
  | nil => simp
  | cons e l ih =>
    rw [List.foldl_cons, ih fun e' he' => h e' (.tail _ he')]
    by_cases hkey : e.1 = key
    · subst hkey
      simp [h e]
    · simp only [List.exists_mem_cons_iff, hkey, false_or, Function.update_of_ne (Ne.symm hkey)]

variable [Crypto]

/-- The tree stands for the content, in the one shape there is for it. -/
structure Refines (t : ShardedSbmt) (content : Content) : Prop where
  holds : t.Holds
  reduced : ∀ (i : ℕ) (hi : i < SHARD_COUNT), t.shards[i].root.Reduced
  get : t.get = content

theorem Refines.new : Refines new fun _ => none where
  holds := .new
  reduced i hi := by simp [ShardedSbmt.new, Sbmt.withBaseDepth, Node.Reduced]
  get := by
    funext key
    simp [ShardedSbmt.get, ShardedSbmt.new]

theorem Refines.insertRaw (h : t.Refines content) (key : B256) (value : Bytes) :
    ∃ t', t.insertRaw key value = some t' ∧
      t'.Refines (Function.update content key (some value)) := by
  obtain ⟨t', ht', hholds⟩ := h.holds.insertRaw key value
  obtain ⟨shard, hshard, heq⟩ := Option.bind_eq_some_iff.mp ht'
  obtain ⟨result, hresult, hroot⟩ := Option.bind_eq_some_iff.mp hshard
  obtain rfl := Option.some.inj heq
  obtain rfl := Option.some.inj hroot
  refine ⟨_, ht', hholds,
    reduced_set h.reduced ((h.reduced _ _).insertAt hresult).1 (Fin.isLt _), ?_⟩
  rw [← h.get]
  exact get_set rfl (lookup_insert _) (fun k hk => lookup_insert_of_ne _ hk) _

theorem Refines.removeRaw (h : t.Refines content) (key : B256) :
    (t.removeRaw key).Refines (Function.update content key none) where
  holds := h.holds.removeRaw key
  reduced := reduced_set h.reduced ((h.reduced _ _).removeAt key _) (Fin.isLt _)
  get := by
    rw [← h.get]
    exact get_set rfl (lookup_erase _ _) (fun k hk => lookup_erase_ne hk) _

theorem Refines.update (h : t.Refines content) (op : B256 × Option Bytes) :
    ∃ t', t.update op = some t' ∧ t'.Refines (Function.update content op.1 op.2) := by
  obtain ⟨key, _ | value⟩ := op
  · exact ⟨_, rfl, h.removeRaw key⟩
  · exact h.insertRaw key value

theorem Refines.congr {t' : ShardedSbmt} (h : t.Refines content) (hholds : t'.Holds)
    (hget : t'.get = t.get)
    (hsame : ∀ (i : ℕ) (hi : i < SHARD_COUNT), t'.shards[i].root.erase = t.shards[i].root.erase) :
    t'.Refines content where
  holds := hholds
  reduced i hi := by
    rw [← Node.reduced_erase, hsame, Node.reduced_erase]
    exact h.reduced i hi
  get := hget.trans h.get

theorem Refines.rootHash (h : t.Refines content) : t.rootHash.2.Refines content :=
  h.congr h.holds.rootHash.2 rfl fun i hi => by
    simpa [ShardedSbmt.rootHash, Sbmt.rootHash] using
      (Node.nodeHash_spec (h.holds ⟨i, hi⟩).fresh).2.2

theorem Refines.prove (h : t.Refines content) (key : B256) : (t.prove key).2.Refines content := by
  obtain ⟨-, -, -, hsame, -⟩ := Node.prove_spec (h.holds (shardIndexForKey key)).fresh key
    t.shards[shardIndexForKey key].baseDepth
  -- the proof fills the caches of one shard, the path above it those of all
  have hset : Refines ⟨t.shards.set (shardIndexForKey key)
      (t.shards[shardIndexForKey key].prove key).2, t.values, t.version⟩ content := by
    refine h.congr (by simpa using h.holds.set ((h.holds _).prove key).1 t.version) rfl
      fun i _ => ?_
    by_cases hi : (shardIndexForKey key : ℕ) = i
    · subst hi
      simpa [Sbmt.prove] using hsame
    · simp [hi]
  exact hset.rootHash

theorem Refines.call (h : t.Refines content) (c : Call) :
    ∃ t', t.call c = some t' ∧ t'.Refines (c.apply content) := by
  cases c with
  | insert key value => exact h.insertRaw key value
  | applyDiff updates =>
    obtain ⟨t', ht', hrefines⟩ := foldlM_refines (fun op h => h.update op) h updates
    have hcall : t.call (.applyDiff updates) =
        some { t'.rootHash.2 with version := t'.rootHash.2.version + 1 } := by
      simp [ShardedSbmt.call, ShardedSbmt.applyUpdates, ht']
    exact ⟨_, hcall, hrefines.rootHash.congr hrefines.rootHash.holds rfl fun _ _ => rfl⟩
  | rootHash => exact ⟨_, rfl, h.rootHash⟩
  | prove key => exact ⟨_, rfl, h.prove key⟩

theorem Refines.rootHash_eq {t' : ShardedSbmt} (h : t.Refines content) (h' : t'.Refines content) :
    t.rootHash.1 = t'.rootHash.1 := by
  have hshard (i : Fin SHARD_COUNT) : t.shards[i].root.digest = t'.shards[i].root.digest := by
    refine Node.digest_congr ((h.reduced i i.isLt).erase_eq (h'.reduced i i.isLt)
      (h.holds i).routed (h'.holds i).routed ?_)
    rintro key rfl
    have hvalue : t.get key = t'.get key := by rw [h.get, h'.get]
    exact ((h.holds _).get key).trans
      ((congrArg (Option.map hashValue) hvalue).trans ((h'.holds _).get key).symm)
  have hdigests : t.digests = t'.digests :=
    congrArg Vector.toList (Vector.ext fun i hi => by simpa using hshard ⟨i, hi⟩)
  rw [h.holds.rootHash.1, h'.holds.rootHash.1, hdigests]

/-- Whatever calls are made, none fails, the tree looks up the content they leave, and its root
is a function of that content: the order of updates, values written over, removed keys and cached
hashes leave no trace. -/
theorem bmt_root_of_content : ∃ rootOf : Content → B256, ∀ calls : List Call,
    ∃ t, calls.foldlM call new = some t ∧ t.get = calls.foldl Call.apply (fun _ => none) ∧
      t.rootHash.1 = rootOf t.get := by
  refine ⟨fun content => Classical.epsilon fun root =>
    ∃ t : ShardedSbmt, t.Refines content ∧ t.rootHash.1 = root, fun calls => ?_⟩
  obtain ⟨t, ht, h⟩ := foldlM_refines (fun c h => h.call c) Refines.new calls
  have hsome : ∃ root, ∃ t : ShardedSbmt, t.Refines _ ∧ t.rootHash.1 = root := ⟨_, t, h, rfl⟩
  obtain ⟨t', h', hroot⟩ := Classical.epsilon_spec hsome
  refine ⟨t, ht, h.get, ?_⟩
  rw [h.get]
  exact (h.rootHash_eq h').trans hroot

theorem Refines.mem_entries (h : t.Refines content) (l : Listing) {key : B256} {value : Bytes} :
    (key, value) ∈ (t.snapshot l).entries ↔ content key = some value := by
  simp only [snapshot, List.mem_flatMap, l.mem_list, ← h.get]
  constructor
  · rintro ⟨values, hmem, hvalue⟩
    obtain ⟨i, hi, rfl⟩ := Vector.getElem_of_mem (Vector.mem_toList_iff.mp hmem)
    have hkept := h.holds ⟨i, hi⟩
    have hkey := hkept.routed.of_get ((hkept.get key).trans (congrArg _ hvalue))
    obtain rfl : (shardIndexForKey key : ℕ) = i := congrArg Fin.val hkey
    exact hvalue
  · intro hvalue
    refine ⟨t.values[shardIndexForKey key], ?_, hvalue⟩
    exact Vector.mem_toList_iff.mpr (Vector.getElem_mem (shardIndexForKey key).isLt)

theorem Refines.foldl_entries (h : t.Refines content) (l : Listing) :
    (t.snapshot l).entries.foldl (fun (c : Content) e => Function.update c e.1 (some e.2))
      (fun _ => none) = content := by
  funext key
  rw [Content.foldl_update fun e he => (h.mem_entries l).mp he]
  cases hvalue : content key with
  | none => simp
  | some value => exact if_pos ⟨_, (h.mem_entries l).mpr hvalue, rfl⟩

/-- After any calls a snapshot, in whatever order, restores to a tree of the same version, and no
later calls tell the two apart. -/
theorem bmt_snapshot_restores (calls later : List Call) (l : Listing) :
    ∃ t t' u u', calls.foldlM call new = some t ∧ fromSnapshot (t.snapshot l) = some (.ok t') ∧
      t'.version = t.version ∧ later.foldlM call t = some u ∧ later.foldlM call t' = some u' ∧
      u'.get = u.get ∧ u'.rootHash.1 = u.rootHash.1 := by
  obtain ⟨t, ht, h⟩ := foldlM_refines (fun c h => h.call c) Refines.new calls
  obtain ⟨s, hs, hs'⟩ := foldlM_refines
    (fun (e : B256 × Bytes) h => h.insertRaw e.1 e.2) Refines.new (t.snapshot l).entries
  rw [h.foldl_entries] at hs'
  obtain ⟨u, hu, hlater⟩ := foldlM_refines (fun c h => h.call c) h later
  have h' : Refines { s with version := t.version } _ := hs'.congr hs'.holds rfl fun _ _ => rfl
  obtain ⟨u', hu', hlater'⟩ := foldlM_refines (fun c h => h.call c) h'.rootHash later
  refine ⟨t, (rootHash { s with version := t.version }).2, u, u', ht, ?_, rfl, hu, hu',
    hlater'.get.trans hlater.get.symm, hlater'.rootHash_eq hlater⟩
  rw [fromSnapshot, hs]
  exact congrArg some (if_neg (not_not.mpr (h'.rootHash_eq h)))

end ShardedSbmt

end N42.Bmt
