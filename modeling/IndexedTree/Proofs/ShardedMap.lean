import Mathlib
import IndexedTree.ShardedMap

/-!
# Placement, entries and size of sharded maps

A sharded map is read through `get?`, which looks a key up in the one shard that its hash picks;
`toList` and `size` go over every shard. The two sides agree when every key sits in the shard its
hash picks (`Placed`). The empty map is placed, and a change to the shard of a key that adds no
other key keeps a map placed, so every map that `empty`, `insert`, `erase`, `eraseIf` and `clear`
build is placed.

For a placed map, `toList` lists exactly the entries that `get?` reads, each key once
(`mem_toList`, `nodup_keys_toList`), and `size` is the length of that list; so two placed maps with
the same keys have the same size, whatever their shard counts (`size_eq_of_keys`). Inserting a key
that `get?` does not find adds one to `size`, erasing a key that it finds takes one away; neither
needs the map to be placed, since both read and change the key's own shard only.
-/

namespace IndexedTree

namespace ShardedMap

variable {α : Type}

/-- Every key of every shard sits in the shard that its hash picks. -/
def Placed (m : ShardedMap α) : Prop :=
  ∀ (i : Nat) (hi : i < m.shardCount) (k : Bytes), k ∈ m.shards[i] → m.shardIndex k = i

/-- The shard of a key is the array's entry at the key's shard index. -/
theorem shard_eq_getElem (m : ShardedMap α) (k : Bytes) (h : m.shardIndex k < m.shards.size) :
    m.shard k = m.shards[m.shardIndex k] := by
  simp [shard, Array.getElem?_eq_getElem h]

theorem placed_empty (n : Nat) (h : 0 < n) : (empty n h : ShardedMap α).Placed := by
  intro i hi k hk
  simp [empty] at hk

theorem placed_clear (m : ShardedMap α) : m.clear.Placed := placed_empty _ _

/-- A change to the shard of `k` that adds no key but `k` keeps a map placed. -/
theorem Placed.modifyShard {m : ShardedMap α} (hm : m.Placed) (k : Bytes)
    {f : Std.HashMap Bytes α → Std.HashMap Bytes α}
    (hf : ∀ x, x ∈ f (m.shard k) → x = k ∨ x ∈ m.shard k) : (m.modifyShard k f).Placed := by
  intro i hi x hx
  have hi' : i < m.shardCount := by simpa using hi
  simp only [shardIndex_modifyShard]
  simp only [ShardedMap.modifyShard, Array.getElem_modify] at hx
  split at hx
  · -- the shard of `k` itself: `x` is `k` or was there before
    rename_i hki
    subst hki
    rcases hf x (by rwa [shard_eq_getElem m k hi']) with rfl | hx'
    · rfl
    · exact hm _ hi' x (by rwa [shard_eq_getElem m k hi'] at hx')
  · exact hm i hi' x hx

theorem Placed.insert {m : ShardedMap α} (hm : m.Placed) (k : Bytes) (v : α) :
    (m.insert k v).Placed :=
  hm.modifyShard k fun x hx => by
    rcases Std.HashMap.mem_insert.1 hx with h | h
    · exact .inl (beq_iff_eq.1 h).symm
    · exact .inr h

theorem Placed.erase {m : ShardedMap α} (hm : m.Placed) (k : Bytes) : (m.erase k).2.Placed :=
  hm.modifyShard k fun _ hx => .inr (Std.HashMap.mem_erase.1 hx).2

theorem Placed.eraseIf {m : ShardedMap α} (hm : m.Placed) (k : Bytes) (p : α → Bool) :
    (m.eraseIf k p).2.Placed := by
  rw [eraseIf_eq]
  split
  · exact hm.erase k
  · exact hm

/-- In a placed map, `toList` holds exactly the entries that `get?` reads. -/
theorem mem_toList {m : ShardedMap α} (hm : m.Placed) {k : Bytes} {v : α} :
    (k, v) ∈ m.toList ↔ m.get? k = some v := by
  simp only [toList, List.mem_flatMap, Std.HashMap.mem_toList_iff_getElem?_eq_some]
  constructor
  · rintro ⟨sh, hsh, hkv⟩
    obtain ⟨i, hi, rfl⟩ := List.getElem_of_mem hsh
    have hi' : i < m.shardCount := by simpa using hi
    simp only [Array.getElem_toList] at hkv
    have hk : k ∈ m.shards[i] := by
      rw [Std.HashMap.mem_iff_isSome_getElem?]
      simp [hkv]
    have hplace := hm i hi' k hk
    rw [get?, shard_eq_getElem m k (m.shardIndex_lt k)]
    simp only [hplace]
    simpa using hkv
  · intro h
    refine ⟨m.shard k, ?_, h⟩
    rw [shard_eq_getElem m k (m.shardIndex_lt k)]
    exact Array.getElem_mem_toList _

/-- In a placed map, `toList` names each key once: no key sits in two shards. -/
theorem nodup_keys_toList {m : ShardedMap α} (hm : m.Placed) : (m.toList.map Prod.fst).Nodup := by
  simp only [toList, List.map_flatMap, Std.HashMap.map_fst_toList_eq_keys]
  refine List.nodup_flatMap.2 ⟨fun sh _ => Std.HashMap.nodup_keys, ?_⟩
  rw [List.pairwise_iff_getElem]
  intro i j hi hj hij x hxi hxj
  have hi' : i < m.shardCount := by simpa using hi
  have hj' : j < m.shardCount := by simpa using hj
  have hpi := hm i hi' x (by simpa using Std.HashMap.mem_of_mem_keys hxi)
  have hpj := hm j hj' x (by simpa using Std.HashMap.mem_of_mem_keys hxj)
  omega

/-- `size` counts the entries of `toList`. -/
theorem length_toList (m : ShardedMap α) : m.toList.length = m.size := by
  simp only [toList, size, List.length_flatMap, Std.HashMap.length_toList, ← Array.foldl_toList]
  generalize m.shards.toList = l
  suffices ∀ n, l.foldl (fun n s => n + s.size) n = n + (l.map (·.size)).sum by simpa using (this 0).symm
  induction l with
  | nil => simp
  | cons s l ih =>
    intro n
    simp only [List.foldl_cons, List.map_cons, List.sum_cons, ih]
    omega

/-- Two placed maps with the same keys have the same size, whatever their shard counts. -/
theorem size_eq_of_keys {β : Type} {m : ShardedMap α} {m' : ShardedMap β} (hm : m.Placed)
    (hm' : m'.Placed) (hkeys : ∀ k, (m.get? k).isSome = (m'.get? k).isSome) : m.size = m'.size := by
  have hmem : ∀ k, k ∈ m.toList.map Prod.fst ↔ k ∈ m'.toList.map Prod.fst := by
    intro k
    simp only [List.mem_map, Prod.exists, exists_and_right, exists_eq_right, mem_toList hm,
      mem_toList hm']
    rw [← Option.isSome_iff_exists, ← Option.isSome_iff_exists, hkeys]
  have hperm := (List.perm_ext_iff_of_nodup (nodup_keys_toList hm) (nodup_keys_toList hm')).2 hmem
  have hlen := hperm.length_eq
  rw [List.length_map, List.length_map, length_toList, length_toList] at hlen
  exact hlen

/-- Changing one entry of a list changes the total of a count over it by that entry's change. -/
private theorem sum_map_modify {β : Type} (g : β → Nat) (f : β → β) :
    ∀ (l : List β) (i : Nat) (hi : i < l.length),
      ((l.modify i f).map g).sum + g l[i] = (l.map g).sum + g (f l[i])
  | [], _, hi => absurd hi (Nat.not_lt_zero _)
  | b :: l, 0, _ => by
    simp only [List.modify_zero_cons, List.map_cons, List.sum_cons, List.getElem_cons_zero]
    omega
  | b :: l, i + 1, hi => by
    have ih := sum_map_modify g f l i (by simpa using hi)
    simp only [List.modify_succ_cons, List.map_cons, List.sum_cons, List.getElem_cons_succ]
    omega

/-- A change to the shard of `k` changes `size` by the change of that shard's size. -/
theorem size_modifyShard (m : ShardedMap α) (k : Bytes)
    (f : Std.HashMap Bytes α → Std.HashMap Bytes α) :
    (m.modifyShard k f).size + (m.shard k).size = m.size + (f (m.shard k)).size := by
  rw [← length_toList, ← length_toList]
  simp only [toList, List.length_flatMap, Std.HashMap.length_toList,
    shard_eq_getElem m k (m.shardIndex_lt k)]
  have hi : m.shardIndex k < m.shards.toList.length := by simpa using m.shardIndex_lt k
  have := sum_map_modify (·.size) f m.shards.toList (m.shardIndex k) hi
  simp only [Array.getElem_toList] at this
  simpa [ShardedMap.modifyShard, Function.comp_def] using this

theorem size_insert (m : ShardedMap α) (k : Bytes) (v : α) :
    (m.insert k v).size = if (m.get? k).isSome then m.size else m.size + 1 := by
  have h := size_modifyShard m k (·.insert k v)
  simp only [Std.HashMap.size_insert] at h
  simp only [get?, ← Std.HashMap.mem_iff_isSome_getElem?]
  change (m.modifyShard k (·.insert k v)).size = _
  by_cases hk : k ∈ m.shard k
  · simp only [hk, if_true] at h ⊢
    omega
  · simp only [hk, if_false] at h ⊢
    omega

/-- Erasing a key that `get?` finds takes exactly one entry away. -/
theorem size_erase_add_one {m : ShardedMap α} {k : Bytes} (hk : (m.get? k).isSome) :
    (m.erase k).2.size + 1 = m.size := by
  have h := size_modifyShard m k (·.erase k)
  have hmem : k ∈ m.shard k := by
    rw [Std.HashMap.mem_iff_isSome_getElem?]
    exact hk
  -- the shard of `k` holds it, so it is not empty and loses one entry
  have hne := Std.HashMap.isEmpty_eq_false_iff_exists_mem.2 ⟨k, hmem⟩
  rw [Std.HashMap.isEmpty_eq_size_eq_zero, beq_eq_false_iff_ne] at hne
  simp only [Std.HashMap.size_erase, hmem, if_true] at h
  change (m.modifyShard k (·.erase k)).size + 1 = m.size
  omega

theorem size_erase (m : ShardedMap α) (k : Bytes) :
    (m.erase k).2.size = if (m.get? k).isSome then m.size - 1 else m.size := by
  by_cases hk : (m.get? k).isSome
  · rw [if_pos hk, ← size_erase_add_one hk, Nat.add_sub_cancel]
  · -- the shard of `k` does not hold it, and keeps its size
    have h := size_modifyShard m k (·.erase k)
    have hmem : k ∉ m.shard k := by
      rw [Std.HashMap.mem_iff_isSome_getElem?]
      exact hk
    simp only [Std.HashMap.size_erase, hmem, if_false] at h
    rw [if_neg hk]
    change (m.modifyShard k (·.erase k)).size = m.size
    omega

@[simp] theorem size_empty (n : Nat) (h : 0 < n) : (empty n h : ShardedMap α).size = 0 := by
  rw [← length_toList]
  simp [toList, empty]

@[simp] theorem size_clear (m : ShardedMap α) : m.clear.size = 0 := size_empty _ _

end ShardedMap

end IndexedTree
