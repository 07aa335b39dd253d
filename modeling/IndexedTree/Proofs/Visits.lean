import IndexedTree.Proofs.ShardedMap
import IndexedTree.Service.ShardedMap

/-!
# Walks that stop early

`visitWhile` walks the shards in order, each entry by entry, and a visit that answers `false`
ends the whole walk, not only the loop over its own shard. So the walk is one loop over `toList`
that stops at the first visit answering `false` (`visitWhile_eq_visitList`), wherever the entries
sit among the shards, empty shards before or after the stop included. Had a stop ended only its
shard's loop, the walk would go on with the next shard.

One loop over a list visits a prefix of it: every entry up to and including the first visit that
answers `false`, or all of them (`visitList_append_of_stop`, `visitList_of_goesOn`). A visit that
counts and asks to go on while the count stays below `c` therefore makes `min (max c 1) m.size`
visits (`Service.MapStep.visitCount_eq`).

The main statement is `visitWhile_stops_at_first_false`.
-/

namespace IndexedTree

namespace ShardedMap

variable {α σ : Type}

/-- Visits the entries of a list in order, threading a state, up to and including the first visit
that answers `false`. -/
def visitList (visit : σ → Bytes → α → σ × Bool) : List (Bytes × α) → σ → σ
  | [], s => s
  | (k, v) :: rest, s =>
    let r := visit s k v
    if r.2 then visitList visit rest r.1 else r.1

/-- The loop over one shard, then the entries after it: the walk goes past the shard exactly when
no visit in it asked to stop. -/
theorem visitList_append (visit : σ → Bytes → α → σ × Bool) (l rest : List (Bytes × α)) (s : σ) :
    visitList visit (l ++ rest) s =
      if (visitShard visit l s).2 then visitList visit rest (visitShard visit l s).1
      else (visitShard visit l s).1 := by
  induction l generalizing s with
  | nil => rfl
  | cons e l ih =>
    obtain ⟨k, v⟩ := e
    by_cases hgo : (visit s k v).2 = true
    · simp [visitList, visitShard, hgo, ih]
    · simp [visitList, visitShard, hgo]

/-- Walking the shards in turn is one walk over their entries, shard by shard. -/
theorem visitShards_eq (visit : σ → Bytes → α → σ × Bool) (shs : List (Std.HashMap Bytes α))
    (s : σ) : visitShards visit shs s = visitList visit (shs.flatMap (·.toList)) s := by
  induction shs generalizing s with
  | nil => rfl
  | cons sh shs ih =>
    rw [visitShards, List.flatMap_cons, visitList_append]
    -- a stop inside `sh` ends both walks; otherwise both go on with the next shard
    by_cases hgo : (visitShard visit sh.toList s).2 = true
    · simp only [hgo, if_true, ih]
    · simp only [hgo, Bool.false_eq_true, if_false]

/-- The walk over the shards is one loop over `toList`. -/
theorem visitWhile_eq_visitList (m : ShardedMap α) (visit : σ → Bytes → α → σ × Bool) (init : σ) :
    m.visitWhile visit init = visitList visit m.toList init :=
  visitShards_eq visit m.shards.toList init

section Prefix

variable (visit : σ → Bytes → α → σ × Bool)

/-- The state after visiting every entry of a list. -/
def visitAll (l : List (Bytes × α)) (s : σ) : σ := l.foldl (fun s e => (visit s e.1 e.2).1) s

/-- Every visit along a list answers `true`, each on the state the visits before it left. -/
def GoesOn (l : List (Bytes × α)) (s : σ) : Prop :=
  ∀ i (hi : i < l.length), (visit (visitAll visit (l.take i) s) l[i].1 l[i].2).2 = true

theorem goesOn_cons {e : Bytes × α} {l : List (Bytes × α)} {s : σ} :
    GoesOn visit (e :: l) s ↔
      (visit s e.1 e.2).2 = true ∧ GoesOn visit l (visit s e.1 e.2).1 := by
  constructor
  · intro h
    refine ⟨h 0 (Nat.succ_pos _), fun i hi => ?_⟩
    have hnext := h (i + 1) (by simpa using hi)
    simp only [visitAll, List.take_succ_cons, List.foldl_cons, List.getElem_cons_succ] at hnext
    exact hnext
  · rintro ⟨h0, h⟩ i hi
    cases i with
    | zero => simpa [visitAll] using h0
    | succ i =>
      have hnext := h i (by simpa using hi)
      simp only [visitAll, List.take_succ_cons, List.foldl_cons, List.getElem_cons_succ]
      exact hnext

/-- When no visit asks to stop, the loop visits every entry. -/
theorem visitList_of_goesOn {l : List (Bytes × α)} {s : σ} (h : GoesOn visit l s) :
    visitList visit l s = visitAll visit l s := by
  induction l generalizing s with
  | nil => rfl
  | cons e l ih =>
    obtain ⟨hgo, hrest⟩ := (goesOn_cons visit).1 h
    simp only [visitList, hgo, if_true, ih hrest]
    rfl

/-- The loop ends with the first visit that asks to stop: the entries after it are not visited. -/
theorem visitList_append_of_stop {pre rest : List (Bytes × α)} {e : Bytes × α} {s : σ}
    (hpre : GoesOn visit pre s) (hstop : (visit (visitAll visit pre s) e.1 e.2).2 = false) :
    visitList visit (pre ++ e :: rest) s = (visit (visitAll visit pre s) e.1 e.2).1 := by
  induction pre generalizing s with
  | nil =>
    simp only [visitAll, List.foldl_nil] at hstop
    simp [visitList, visitAll, hstop]
  | cons a pre ih =>
    obtain ⟨hgo, hrest⟩ := (goesOn_cons visit).1 hpre
    simp only [List.cons_append, visitList, hgo, if_true]
    exact ih hrest hstop

end Prefix

/-- A visit that never asks to stop folds over the entries of `toList`, in order. -/
theorem visitWhile_of_forall_continue (m : ShardedMap α) (visit : σ → Bytes → α → σ × Bool)
    (hgo : ∀ s k v, (visit s k v).2 = true) (init : σ) :
    m.visitWhile visit init = m.toList.foldl (fun s e => (visit s e.1 e.2).1) init := by
  rw [visitWhile_eq_visitList, visitList_of_goesOn visit fun i _ => hgo _ _ _]
  rfl

end ShardedMap

namespace Service

namespace MapStep

/-- A visit that counts and asks to go on while the count stays below `c` visits, from a count
`s`, all of a list or up to a count of `c`, at least one more. -/
theorem visitList_count {α : Type} (c : Nat) (l : List (Bytes × α)) (s : Nat) :
    ShardedMap.visitList (fun seen _ _ => (seen + 1, decide (seen + 1 < c))) l s =
      min (s + l.length) (max c (s + 1)) := by
  induction l generalizing s with
  | nil => simp only [ShardedMap.visitList, List.length_nil]; omega
  | cons e rest ih =>
    simp only [ShardedMap.visitList, List.length_cons]
    by_cases hgo : s + 1 < c
    · rw [decide_eq_true hgo, if_pos rfl, ih]
      omega
    · rw [decide_eq_false hgo]
      simp only [Bool.false_eq_true, if_false]
      omega

theorem visitCount_eq {α : Type} (m : ShardedMap α) (c : Nat) :
    visitCount m c = min m.size (max c 1) := by
  rw [visitCount, ShardedMap.visitWhile_eq_visitList, visitList_count, ShardedMap.length_toList]
  simp

end MapStep

end Service

namespace ShardedMap

variable {α : Type}

/-- An early stop ends the whole walk. For every shard count and every map, walking the shards
visits a prefix of `toList`, the entries shard by shard: when every visit up to the entry `e`
answers `true` and the visit of `e` answers `false`, the walk ends right there, and no entry
after `e` is visited, in `e`'s shard or any later one; when no visit answers `false`, every
entry is visited. So a visit that counts and goes on while the count stays below `c` makes
`min (max c 1) m.size` visits, none in an empty map. -/
theorem visitWhile_stops_at_first_false (m : ShardedMap α) :
    (∀ {σ : Type} (visit : σ → Bytes → α → σ × Bool) (init : σ),
      (∀ pre e rest, m.toList = pre ++ e :: rest → GoesOn visit pre init →
        (visit (visitAll visit pre init) e.1 e.2).2 = false →
        m.visitWhile visit init = (visit (visitAll visit pre init) e.1 e.2).1) ∧
      (GoesOn visit m.toList init → m.visitWhile visit init = visitAll visit m.toList init)) ∧
    ∀ c, Service.MapStep.visitCount m c = min (max c 1) m.size := by
  refine ⟨fun visit init => ⟨fun pre e rest hsplit hpre hstop => ?_, fun hall => ?_⟩, fun c => ?_⟩
  · rw [visitWhile_eq_visitList, hsplit]
    exact visitList_append_of_stop visit hpre hstop
  · rw [visitWhile_eq_visitList]
    exact visitList_of_goesOn visit hall
  · rw [Service.MapStep.visitCount_eq, Nat.min_comm]

/-- A shard with one entry lists that entry. -/
theorem toList_insert_empty_shard (k : Bytes) (v : α) :
    ((∅ : Std.HashMap Bytes α).insert k v).toList = [(k, v)] := by
  have h := Std.HashMap.toList_insert_perm (m := (∅ : Std.HashMap Bytes α)) (k := k) (v := v)
  rw [Std.HashMap.toList_empty, List.filter_nil] at h
  exact List.perm_singleton.1 h

/-- Two shards, `a` alone in the first and `b` alone in the second, and a visit that counts and
asks to stop at once: the walk counts `a` only, and the second shard is never visited. -/
theorem visitWhile_stops_in_first_shard :
    let m := ((empty 2 (by decide) : ShardedMap Nat).insert ⟨[0x61]⟩ 1).insert ⟨[0x62]⟩ 2
    m.toList = [] ++ (⟨[0x61]⟩, 1) :: [(⟨[0x62]⟩, 2)] ∧
      m.visitWhile (fun seen _ _ => (seen + 1, false)) 0 = 1 := by
  intro m
  -- `a` hashes to the even shard, `b` to the odd one
  have ha : (empty 2 (by decide) : ShardedMap Nat).shardIndex ⟨[0x61]⟩ = 0 := by decide
  have hb : (empty 2 (by decide) : ShardedMap Nat).shardIndex ⟨[0x62]⟩ = 1 := by decide
  have hlist : m.toList = [] ++ (⟨[0x61]⟩, 1) :: [(⟨[0x62]⟩, 2)] := by
    simp only [m, toList, shards_insert, shardIndex_insert, ha, hb]
    simp [empty, toList_insert_empty_shard]
  have hnone : GoesOn (fun (seen : Nat) (_ : Bytes) (_ : Nat) => (seen + 1, false)) [] 0 :=
    fun i hi => absurd hi (Nat.not_lt_zero i)
  exact ⟨hlist, ((visitWhile_stops_at_first_false m).1 _ 0).1 [] _ _ hlist hnone rfl⟩

end ShardedMap

end IndexedTree
