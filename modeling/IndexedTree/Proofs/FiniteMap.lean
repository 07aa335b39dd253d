import IndexedTree.Proofs.ShardedMap

/-!
# Sharded maps are finite maps

A sharded map stands for one finite map from byte strings to values (`ShardedMap.Refines`): its
keys sit in the shards their hashes pick, and every key reads what the finite map holds under it.
The empty map of any shard count stands for the empty finite map, and every operation acts on
the finite map as its name says: `insert` stores, overwriting; `erase` deletes; `eraseIf` deletes
exactly when the key is held and the test passes on its value; `clear` empties. `erase` and
`eraseIf` answer whether they deleted. The size is the
number of keys of the finite map, and `toList` lists each of its entries once.

None of this depends on the number of shards: two sharded maps that stand for the same finite map
answer every read alike, whatever their shard counts.
-/

namespace IndexedTree

namespace ShardedMap

variable {α : Type}

/-- An entry as a member of a finite map from byte strings. -/
def toSigma (e : Bytes × α) : Σ _ : Bytes, α := ⟨e.1, e.2⟩

theorem toSigma_injective : Function.Injective (toSigma : Bytes × α → Σ _ : Bytes, α) := by
  rintro ⟨k, v⟩ ⟨k', v'⟩ h
  simp only [toSigma, Sigma.mk.injEq, heq_eq_eq] at h
  obtain ⟨rfl, rfl⟩ := h
  rfl

/-- A sharded map stands for the finite map `M`: every key sits in the shard its hash picks, and
a key reads what `M` holds under it. -/
structure Refines (m : ShardedMap α) (M : Finmap fun _ : Bytes => α) : Prop where
  placed : m.Placed
  get?_eq : ∀ k, m.get? k = M.lookup k

section Refines

variable {m : ShardedMap α} {M : Finmap fun _ : Bytes => α}

theorem refines_empty (n : Nat) (h : 0 < n) : (empty n h : ShardedMap α).Refines ∅ :=
  ⟨placed_empty n h, fun k => by rw [get?_empty, Finmap.lookup_empty]⟩

theorem refines_clear (m : ShardedMap α) : m.clear.Refines ∅ := refines_empty _ _

/-- A sharded map stands for one finite map only. -/
theorem Refines.unique {M' : Finmap fun _ : Bytes => α} (hm : m.Refines M) (hm' : m.Refines M') :
    M = M' :=
  Finmap.ext_lookup fun k => by rw [← hm.get?_eq, ← hm'.get?_eq]

theorem Refines.contains_iff (hm : m.Refines M) (k : Bytes) : m.contains k = true ↔ k ∈ M := by
  rw [contains_eq, hm.get?_eq, Finmap.lookup_isSome]

theorem Refines.insert (hm : m.Refines M) (k : Bytes) (v : α) :
    (m.insert k v).Refines (M.insert k v) := by
  refine ⟨hm.placed.insert k v, fun k' => ?_⟩
  rw [get?_insert]
  by_cases hk : k = k'
  · subst hk
    rw [if_pos rfl, Finmap.lookup_insert]
  · rw [if_neg hk, Finmap.lookup_insert_of_ne _ (Ne.symm hk), hm.get?_eq]

/-- `erase` deletes the key, and answers whether the finite map held it. -/
theorem Refines.erase_fst (hm : m.Refines M) (k : Bytes) : (m.erase k).1 = decide (k ∈ M) := by
  rw [Bool.eq_iff_iff, decide_eq_true_iff, ← hm.contains_iff]
  rfl

theorem Refines.erase (hm : m.Refines M) (k : Bytes) : (m.erase k).2.Refines (M.erase k) := by
  refine ⟨hm.placed.erase k, fun k' => ?_⟩
  rw [get?_erase]
  by_cases hk : k = k'
  · subst hk
    rw [if_pos rfl, Finmap.lookup_erase]
  · rw [if_neg hk, Finmap.lookup_erase_ne (Ne.symm hk), hm.get?_eq]

/-- `eraseIf` answers whether the key is held with a value that the test passes. -/
theorem Refines.eraseIf_fst (hm : m.Refines M) (k : Bytes) (p : α → Bool) :
    (m.eraseIf k p).1 = (M.lookup k).any p := by
  rw [ShardedMap.eraseIf_fst, hm.get?_eq]

/-- `eraseIf` deletes the key exactly when it is held and the test passes on its value, and
otherwise changes nothing. -/
theorem Refines.eraseIf (hm : m.Refines M) (k : Bytes) (p : α → Bool) :
    (m.eraseIf k p).2.Refines (if (M.lookup k).any p then M.erase k else M) := by
  rw [eraseIf_eq, hm.get?_eq]
  split
  · exact hm.erase k
  · exact hm

/-- `toList` lists every entry of the finite map once. -/
theorem Refines.toList_entries (hm : m.Refines M) :
    ((m.toList.map toSigma : List (Σ _ : Bytes, α)) : Multiset (Σ _ : Bytes, α)) = M.entries := by
  -- the keys of `toList` are distinct, so its entries are
  have hkeys : (m.toList.map toSigma).map Sigma.fst = m.toList.map Prod.fst := by
    rw [List.map_map]
    rfl
  have hnodup : (m.toList.map toSigma).Nodup :=
    List.Nodup.of_map Sigma.fst (hkeys ▸ nodup_keys_toList hm.placed)
  rw [Multiset.Nodup.ext (Multiset.coe_nodup.2 hnodup) M.nodup_entries]
  rintro ⟨k, v⟩
  rw [Multiset.mem_coe, ← Finmap.mem_lookup_iff, Option.mem_def, ← hm.get?_eq,
    ← mem_toList hm.placed]
  simp [toSigma]

/-- The size of a sharded map is the number of keys of the finite map it stands for. -/
theorem Refines.size_eq (hm : m.Refines M) : m.size = M.keys.card := by
  calc m.size = (m.toList.map toSigma).length := by rw [List.length_map, length_toList]
    _ = Multiset.card M.entries := by rw [← hm.toList_entries, Multiset.coe_card]
    _ = M.keys.card := by simp [Finmap.keys, Multiset.keys]

end Refines

end ShardedMap

end IndexedTree
