import IndexedTree.Proofs.Tree.WellFormed

/-!
# The counter law

The counter behind `size` goes up with every successful add and down when a removal drops an
index entry. An add that stores an id the index already holds replaces that entry and still
counts, so the counter runs ahead of the index by the number of such adds. `overwriteTally`
counts them along a run, from zero again after each reset.

Each change keeps "the counter is the index's size plus the tally" (`WellFormed.count_apply`),
hence every run does (`WellFormed.count_applyAll`). On a well-formed tree `nodes` lists the node of
each index entry once (`nodes_map_id`, `mem_nodes`). The main statement is
`size_eq_size_index_add_overwrites`: on every tree that a run from an empty tree reaches, `size`
is the index's size plus the tally, the ids with a chain are the indexed ids, and `nodes` has one
node per index entry; so `nodes` is never longer than `size`, and exactly as long when no add
has overwritten an entry since the last reset.
-/

namespace IndexedTree

namespace Tree

variable {α : Type}

/-- Whether a change is a successful add of an id that the index already holds. -/
def overwrites (t : Tree α) (c : Change α) : Bool :=
  (t.apply c).1.isOk && c.addedId?.any fun x => (t.lookup? x).isSome

/-- The tally of overwriting adds after one more change: a reset starts it again from zero. -/
def tallyAfter (t : Tree α) (k : Nat) : Change α → Nat
  | .reset => 0
  | c => if t.overwrites c then k + 1 else k

/-- The tally of overwriting adds after the run `cs` from `t`, counted on from `k`. -/
def overwriteTally (t : Tree α) (k : Nat) : List (Change α) → Nat
  | [] => k
  | c :: cs => (t.apply c).2.overwriteTally (t.tallyAfter k c) cs

/-- A refused change leaves the tally as it was. -/
theorem tallyAfter_of_isOk_eq_false {t : Tree α} {c : Change α} (h : (t.apply c).1.isOk = false)
    (k : Nat) : t.tallyAfter k c = k := by
  cases c with
  | reset => simp [apply, Except.isOk, Except.toBool] at h
  | addRoot m => simp [tallyAfter, overwrites, h]
  | addChild m x => simp [tallyAfter, overwrites, h]
  | remove x => simp [tallyAfter, overwrites, h]

/-- A successful add counts when the index already held its id. -/
theorem tallyAfter_of_isOk {t : Tree α} {c : Change α} {x : Bytes} (hx : c.addedId? = some x)
    (h : (t.apply c).1.isOk = true) (k : Nat) :
    t.tallyAfter k c = if (t.lookup? x).isSome then k + 1 else k := by
  cases c with
  | reset => simp [Change.addedId?] at hx
  | addRoot m => simp [tallyAfter, overwrites, h, hx]
  | addChild m x => simp [tallyAfter, overwrites, h, hx]
  | remove x => simp [Change.addedId?] at hx

/-! ## One change -/

section Step

variable {k : Nat}

/-- A successful add counts one, and adds an index entry unless the index held its id. -/
theorem Added.count_eq {t t' : Tree α} {n : Node α} {parent : Option Stamp} {chain : List Bytes}
    (ha : Added t t' n parent chain) (hk : t.count = t.index.size + k) :
    t'.count = t'.index.size + if (t.lookup? n.id).isSome then k + 1 else k := by
  rw [ha.count, ha.index, ShardedMap.size_insert]
  cases h : (t.lookup? n.id).isSome
  · have h' : (t.index.get? n.id).isSome = false := h
    simp only [h', if_false, Bool.false_eq_true]
    omega
  · have h' : (t.index.get? n.id).isSome = true := h
    simp only [h', if_true]
    omega

/-- Dropping a record takes one from the counter exactly when it takes an entry from the index. -/
theorem count_drop {t : Tree α} (hk : t.count = t.index.size + k) (s : Stamp) :
    (t.drop s).count = (t.drop s).index.size + k := by
  cases hn : t.node? s with
  | none => rw [drop_of_node?_none hn]; exact hk
  | some n =>
    rw [drop_of_node? hn]
    split
    · rename_i hs
      -- the index holds the record under its id, so the erase takes exactly one entry
      have hsome : (t.index.get? n.id).isSome := by
        rw [hs]
        rfl
      have hsize := ShardedMap.size_erase_add_one hsome
      show t.count - 1 = (t.index.erase n.id).2.size + k
      omega
    · exact hk

theorem count_foldl_drop (L : List Stamp) {t : Tree α} (hk : t.count = t.index.size + k) :
    (L.foldl drop t).count = (L.foldl drop t).index.size + k := by
  induction L generalizing t with
  | nil => exact hk
  | cons s L ih => exact ih (count_drop hk s)

/-- A removal keeps the counter the index's size plus `k`: it takes one from both for each
index entry that it drops. -/
theorem count_remove {t : Tree α} (hk : t.count = t.index.size + k) (x : Bytes) :
    (t.remove x).2.count = (t.remove x).2.index.size + k := by
  cases hx : t.lookup? x with
  | none =>
    rw [remove_of_lookup_none hx]
    exact hk
  | some s =>
    rw [remove_of_lookup hx, count_eraseSubtree, index_eraseSubtree]
    -- unlinking and emptying the root slot touch neither the counter nor the index
    have hu : ((t.unlink x).vacate s).count = ((t.unlink x).vacate s).index.size + k := by
      rw [count_vacate, index_vacate, count_unlink, index_unlink]
      exact hk
    exact count_foldl_drop _ hu

/-- Every change keeps the counter the index's size plus the tally of overwriting adds. -/
theorem WellFormed.count_apply {t : Tree α} (hw : t.WellFormed) (hk : t.count = t.index.size + k)
    (c : Change α) : (t.apply c).2.count = (t.apply c).2.index.size + t.tallyAfter k c := by
  cases hw.outcome c with
  | unchanged e heq =>
    have herr : (t.apply c).1.isOk = false := by
      rw [heq]
      rfl
    rw [tallyAfter_of_isOk_eq_false herr, heq]
    exact hk
  | rootTaken n _ herr _ hi _ _ hcount =>
    -- the root slot is taken: the add is refused and the counter and index stay
    have herr' : (t.apply c).1.isOk = false := by
      rw [herr]
      rfl
    rw [tallyAfter_of_isOk_eq_false herr', hcount, hi]
    exact hk
  | added n parent chain hx hok ha =>
    have hok' : (t.apply c).1.isOk = true := by
      rw [hok]
      rfl
    rw [tallyAfter_of_isOk hx hok']
    exact ha.count_eq hk
  | removed x s hc =>
    subst hc
    -- a removal adds no node, so it never counts
    have htally : t.tallyAfter k (.remove x) = k := by
      simp [tallyAfter, overwrites, Change.addedId?]
    rw [htally]
    exact count_remove hk x
  | reset hc =>
    subst hc
    show t.reset.count = t.reset.index.size + 0
    simp [Tree.reset]

end Step

/-- Every run from a well-formed tree keeps the counter the index's size plus the tally. -/
theorem WellFormed.count_applyAll {t : Tree α} (hw : t.WellFormed) {k : Nat}
    (hk : t.count = t.index.size + k) (cs : List (Change α)) :
    (t.applyAll cs).count = (t.applyAll cs).index.size + t.overwriteTally k cs := by
  induction cs generalizing t k with
  | nil => exact hk
  | cons c cs ih =>
    rw [applyAll_cons, overwriteTally]
    exact ih (hw.apply c) (hw.count_apply hk c)

/-! ## The nodes of a tree -/

/-- On a well-formed tree the ids of `nodes` are the keys of the index, in its order. -/
theorem WellFormed.nodes_map_id {t : Tree α} (hw : t.WellFormed) :
    t.nodes.map (·.id) = t.index.toList.map Prod.fst := by
  unfold nodes
  rw [List.map_filterMap, ← List.filterMap_eq_map]
  apply List.filterMap_congr
  rintro ⟨x, s⟩ he
  -- the record of an entry lives and carries the entry's id
  have hl : t.lookup? x = some s := (ShardedMap.mem_toList hw.index_placed).1 he
  obtain ⟨m, hm, rfl⟩ := hasId_iff.1 (hw.index_sound x s hl)
  simp [hm]

/-- On a well-formed tree a node is in `nodes` exactly when `find?` gives it under its id. -/
theorem WellFormed.mem_nodes {t : Tree α} (hw : t.WellFormed) {m : Node α} :
    m ∈ t.nodes ↔ t.find? m.id = some m := by
  unfold nodes find?
  rw [List.mem_filterMap, Option.bind_eq_some_iff]
  constructor
  · rintro ⟨⟨x, s⟩, he, hm⟩
    have hl : t.lookup? x = some s := (ShardedMap.mem_toList hw.index_placed).1 he
    -- the node found under the entry carries the entry's id
    obtain ⟨m', hm', hid⟩ := hasId_iff.1 (hw.index_sound x s hl)
    rw [hm, Option.some.injEq] at hm'
    subst hm'
    rw [hid]
    exact ⟨s, hl, hm⟩
  · rintro ⟨s, hl, hm⟩
    exact ⟨(m.id, s), (ShardedMap.mem_toList hw.index_placed).2 hl, hm⟩

theorem WellFormed.length_nodes {t : Tree α} (hw : t.WellFormed) :
    t.nodes.length = t.index.size := by
  rw [← List.length_map (·.id), hw.nodes_map_id, List.length_map, ShardedMap.length_toList]

/-! ## Runs from an empty tree -/

/-- On every tree that a run from an empty tree reaches, `size` is the index's size plus the
adds since the last reset that overwrote an entry; the ids with a chain are the indexed ids; and
`nodes` holds one node per index entry, each the node `find?` gives under its id. So `nodes` is
never longer than `size`, and exactly as long when no add has overwritten an entry since the last
reset. -/
theorem size_eq_size_index_add_overwrites (n : Nat) (h : 0 < n) (cs : List (Change α)) :
    let t₀ : Tree α := Tree.empty n h
    let t := t₀.applyAll cs
    t.size = t.index.size + t₀.overwriteTally 0 cs ∧
    (∀ x, (t.chains.chain? x).isSome = (t.lookup? x).isSome) ∧
    t.nodes.length = t.index.size ∧ (t.nodes.map (·.id)).Nodup ∧
    (∀ m, m ∈ t.nodes ↔ t.find? m.id = some m) ∧
    t.nodes.length ≤ t.size ∧ (t.nodes.length = t.size ↔ t₀.overwriteTally 0 cs = 0) := by
  intro t₀ t
  have hw₀ : t₀.WellFormed := wellFormed_empty n h
  have hw : t.WellFormed := hw₀.applyAll cs
  -- the empty tree starts the counter and the index at zero
  have hk₀ : t₀.count = t₀.index.size + 0 := by simp [t₀, Tree.empty]
  have hcount : t.size = t.index.size + t₀.overwriteTally 0 cs := hw₀.count_applyAll hk₀ cs
  have hlen : t.nodes.length = t.index.size := hw.length_nodes
  have hnodup : (t.nodes.map (·.id)).Nodup := by
    rw [hw.nodes_map_id]
    exact ShardedMap.nodup_keys_toList hw.index_placed
  refine ⟨hcount, hw.chain_iff, hlen, hnodup, fun m => hw.mem_nodes, ?_, ?_⟩
  · calc t.nodes.length = t.index.size := hlen
      _ ≤ t.index.size + t₀.overwriteTally 0 cs := Nat.le_add_right _ _
      _ = t.size := hcount.symm
  · rw [hlen, hcount]
    omega

/-- A run that re-adds a child's id under the same parent, adds below the new record and removes
that: one overwrite stays in the tally, and the counter law holds at its end. -/
theorem size_eq_size_index_add_overwrites_of_readds :
    0 < 2 ∧
    let cs : List (Change Nat) := [.addRoot ⟨⟨[1]⟩, 0⟩, .addChild ⟨⟨[2]⟩, 1⟩ ⟨[1]⟩,
      .addChild ⟨⟨[2]⟩, 2⟩ ⟨[1]⟩, .addChild ⟨⟨[3]⟩, 3⟩ ⟨[2]⟩, .remove ⟨[3]⟩]
    let t₀ : Tree Nat := Tree.empty 2 (by decide)
    let t := t₀.applyAll cs
    t.size = t.index.size + t₀.overwriteTally 0 cs ∧
    (∀ x, (t.chains.chain? x).isSome = (t.lookup? x).isSome) ∧
    t.nodes.length = t.index.size ∧ (t.nodes.map (·.id)).Nodup ∧
    (∀ m, m ∈ t.nodes ↔ t.find? m.id = some m) ∧
    t.nodes.length ≤ t.size ∧ (t.nodes.length = t.size ↔ t₀.overwriteTally 0 cs = 0) :=
  ⟨by decide, size_eq_size_index_add_overwrites 2 (by decide) _⟩

end Tree

end IndexedTree
