import IndexedTree.Proofs.FiniteMap
import IndexedTree.Proofs.Visits
import IndexedTree.Proofs.Runs
import IndexedTree.Proofs.Order
import IndexedTree.Proofs.Tree.Reshard
import IndexedTree.Proofs.Tree.WellFormed
import IndexedTree.Service.ShardedMap
import IndexedTree.Service.Tree

/-!
# Answers do not depend on the shard count

A sharded map stands for a finite map (`ShardedMap.Refines`), and each step of a sharded map
request that does not read the shard layout replies from that finite map alone and leaves a map
that stands for the finite map it describes (`MapStep.OnFinmap`, `MapStep.run_onFinmap`).
`OnFinmap` allows one reply and one finite map only: `items` sorts, and sorting leaves no choice
of order. So a run of steps from the empty maps of two shard counts replies alike to every step
but `shardOf` and `shardsSize` (`MapStep.run_runAll_eq`).

The same holds of trees, with nothing left out: every step of a tree request replies alike on the
trees that a run of steps leaves from the empty trees of two shard counts, `nodes` included, since
its reply is sorted; the library's own `nodes` lists the same nodes in both, in another order
(`TreeStep.run_runAll_eq`).
-/

namespace IndexedTree

namespace Service

/-- Sorting entries leaves one order of any listing. -/
theorem sorted_eq_of_perm {l₁ l₂ : List (Bytes × Bytes)} (h : l₁.Perm l₂) :
    MapStep.sorted l₁ = MapStep.sorted l₂ :=
  mergeSort_pairLe_eq_of_perm (fun e => e) (fun _ _ h => h) h

/-- Sorting nodes by id, then by value, leaves one order of any listing. -/
theorem sortedNodes_eq_of_perm {l₁ l₂ : List (Node Bytes)} (h : l₁.Perm l₂) :
    TreeStep.sortedNodes l₁ = TreeStep.sortedNodes l₂ := by
  have hkey : Function.Injective fun n : Node Bytes => (n.id, n.value) := by
    rintro ⟨i, v⟩ ⟨i', v'⟩ hiv
    simp only [Prod.mk.injEq] at hiv
    obtain ⟨rfl, rfl⟩ := hiv
    rfl
  exact mergeSort_pairLe_eq_of_perm _ hkey h

namespace MapStep

/-- Whether a step reads how the map is split into shards rather than its entries. -/
def readsLayout : MapStep → Bool
  | shardOf _ => true
  | shardsSize => true
  | _ => false

/-- What a step does to the finite map that a sharded map stands for: the reply it gives and the
finite map it leaves. Steps that read the shard layout have no such description. -/
inductive OnFinmap :
    (Finmap fun _ : Bytes => Bytes) → MapStep → StepReply → (Finmap fun _ : Bytes => Bytes) → Prop
  | store (M k v) : OnFinmap M (.store k v) (.result .null) (M.insert k v)
  | load (M k) : OnFinmap M (.load k) (.result (Json.opt .str (M.lookup k))) M
  | contains (M k) : OnFinmap M (.contains k) (.result (.bool (decide (k ∈ M)))) M
  | erase (M k) : OnFinmap M (.erase k) (.result (.bool (decide (k ∈ M)))) (M.erase k)
  | eraseIf_eq (M k v) (h : M.lookup k = some v) :
      OnFinmap M (.eraseIf k v) (.result (.bool true)) (M.erase k)
  | eraseIf_ne (M k v) (h : M.lookup k ≠ some v) : OnFinmap M (.eraseIf k v) (.result (.bool false)) M
  | reset (M) : OnFinmap M .reset (.result .null) ∅
  | size (M) : OnFinmap M .size (.result (.nat M.keys.card)) M
  /-- The entries, listed each once in any order, then sorted. -/
  | items (M) (l : List (Bytes × Bytes))
      (hl : ((l.map ShardedMap.toSigma : List (Σ _ : Bytes, Bytes)) : Multiset _) = M.entries) :
      OnFinmap M .items (.result (.arr ((sorted l).map fun e => .arr [.str e.1, .str e.2]))) M
  /-- A visit that counts and stops at `count` visits that many entries, at least one, and at
  most all of them. -/
  | visitUntil (M c) : OnFinmap M (.visitUntil c) (.result (.nat (min M.keys.card (max c 1)))) M

/-- A step allows one reply and one finite map only. -/
theorem OnFinmap.unique {M M₁ M₂ : Finmap fun _ : Bytes => Bytes} {s : MapStep} {r₁ r₂ : StepReply}
    (h₁ : OnFinmap M s r₁ M₁) (h₂ : OnFinmap M s r₂ M₂) : r₁ = r₂ ∧ M₁ = M₂ := by
  cases h₁ with
  | eraseIf_eq k v hv =>
    cases h₂ with
    | eraseIf_eq => exact ⟨rfl, rfl⟩
    | eraseIf_ne _ _ hne => exact absurd hv hne
  | eraseIf_ne k v hne =>
    cases h₂ with
    | eraseIf_eq _ _ hv => exact absurd hv hne
    | eraseIf_ne => exact ⟨rfl, rfl⟩
  | items l hl =>
    cases h₂ with
    | items l' hl' =>
      -- two listings of the same entries are permutations of each other, and sort alike
      have hperm : (l.map ShardedMap.toSigma).Perm (l'.map ShardedMap.toSigma) :=
        Multiset.coe_eq_coe.1 (hl.trans hl'.symm)
      rw [sorted_eq_of_perm ((List.map_perm_map_iff ShardedMap.toSigma_injective).1 hperm)]
      exact ⟨rfl, rfl⟩
  | _ => cases h₂; exact ⟨rfl, rfl⟩

/-- A step that reads the shard layout leaves the map as it was. -/
theorem run_of_readsLayout (m : ShardedMap Bytes) {s : MapStep} (hs : s.readsLayout = true) :
    (run m s).2 = m := by
  cases s with
  | shardOf k => rfl
  | shardsSize => rfl
  | _ => simp [readsLayout] at hs

/-- On a map that stands for `M`, a step that does not read the shard layout replies as the step
on `M` does and leaves a map that stands for the finite map it leaves. -/
theorem run_onFinmap {m : ShardedMap Bytes} {M : Finmap fun _ : Bytes => Bytes} (hm : m.Refines M)
    (s : MapStep) (hs : s.readsLayout = false) :
    ∃ M', OnFinmap M s (run m s).1 M' ∧ (run m s).2.Refines M' := by
  have hcontains : ∀ k, m.contains k = decide (k ∈ M) := fun k => by
    rw [Bool.eq_iff_iff, decide_eq_true_iff, hm.contains_iff]
  cases s with
  | store k v => exact ⟨_, .store M k v, hm.insert k v⟩
  | load k => exact ⟨M, by simpa [run, hm.get?_eq] using OnFinmap.load M k, hm⟩
  | contains k =>
    refine ⟨M, ?_, hm⟩
    show OnFinmap M (.contains k) (.result (.bool (m.contains k))) M
    rw [hcontains]
    exact .contains M k
  | erase k =>
    refine ⟨_, ?_, hm.erase k⟩
    show OnFinmap M (.erase k) (.result (.bool (m.contains k))) (M.erase k)
    rw [hcontains]
    exact .erase M k
  | eraseIf k v =>
    have hrefines := hm.eraseIf k (· == v)
    simp only [run, ShardedMap.eraseIf_fst, hm.get?_eq]
    cases hk : M.lookup k with
    | none =>
      rw [hk] at hrefines
      exact ⟨M, .eraseIf_ne M k v (by simp [hk]), hrefines⟩
    | some w =>
      rw [hk] at hrefines
      by_cases hw : w = v
      · subst hw
        simp only [Option.any_some, beq_self_eq_true, if_true] at hrefines ⊢
        exact ⟨_, .eraseIf_eq M k w hk, hrefines⟩
      · have hne : (w == v) = false := by simpa using hw
        simp only [Option.any_some, hne, Bool.false_eq_true, if_false] at hrefines ⊢
        exact ⟨M, .eraseIf_ne M k v (by simp [hk, hw]), hrefines⟩
  | reset => exact ⟨∅, .reset M, ShardedMap.refines_clear m⟩
  | size => exact ⟨M, by simpa [run, hm.size_eq] using OnFinmap.size M, hm⟩
  | items => exact ⟨M, .items M m.toList hm.toList_entries, hm⟩
  | visitUntil c => exact ⟨M, by simpa [run, visitCount_eq, hm.size_eq] using OnFinmap.visitUntil M c, hm⟩
  | shardOf k => simp [readsLayout] at hs
  | shardsSize => simp [readsLayout] at hs

/-- A run of steps from the empty maps of two shard counts leaves two maps that stand for one
finite map. -/
theorem refines_runAll (n n' : Nat) (h : 0 < n) (h' : 0 < n') (steps : List MapStep) :
    ∃ M, (runAll run (ShardedMap.empty n h) steps).Refines M ∧
      (runAll run (ShardedMap.empty n' h') steps).Refines M := by
  induction steps using List.reverseRecOn with
  | nil => exact ⟨∅, ShardedMap.refines_empty n h, ShardedMap.refines_empty n' h'⟩
  | append_singleton steps s ih =>
    obtain ⟨M, hm, hm'⟩ := ih
    simp only [runAll_append_singleton]
    cases hs : s.readsLayout with
    | true => exact ⟨M, by rw [run_of_readsLayout _ hs]; exact hm, by rw [run_of_readsLayout _ hs]; exact hm'⟩
    | false =>
      -- both steps describe the same change of `M`
      obtain ⟨M₁, h₁, hr₁⟩ := run_onFinmap hm s hs
      obtain ⟨M₂, h₂, hr₂⟩ := run_onFinmap hm' s hs
      obtain ⟨-, rfl⟩ := h₁.unique h₂
      exact ⟨M₁, hr₁, hr₂⟩

/-- A run of steps from the empty maps of two shard counts replies alike to every step that does
not read the shard layout. -/
theorem run_runAll_eq (n n' : Nat) (h : 0 < n) (h' : 0 < n') (steps : List MapStep) (s : MapStep)
    (hs : s.readsLayout = false) :
    (run (runAll run (ShardedMap.empty n h) steps) s).1 =
      (run (runAll run (ShardedMap.empty n' h') steps) s).1 := by
  obtain ⟨M, hm, hm'⟩ := refines_runAll n n' h h' steps
  obtain ⟨_, h₁, -⟩ := run_onFinmap hm s hs
  obtain ⟨_, h₂, -⟩ := run_onFinmap hm' s hs
  exact (h₁.unique h₂).1

end MapStep

namespace TreeStep

@[simp] theorem changed_snd (r : Except TreeError Unit × Tree Bytes) : (changed r).2 = r.2 := by
  unfold changed
  split <;> rfl

/-- The reply to a change reads its answer only. -/
theorem changed_fst_congr {r r' : Except TreeError Unit × Tree Bytes} (h : r'.1 = r.1) :
    (changed r').1 = (changed r).1 := by
  unfold changed
  rw [h]
  split <;> rfl

/-- A step leaves a well-formed tree well-formed. -/
theorem wellFormed_run {t : Tree Bytes} (hw : t.WellFormed) (q : TreeStep) : (run t q).2.WellFormed := by
  cases q with
  | change c =>
    show (changed (t.apply c)).2.WellFormed
    rw [changed_snd]
    exact hw.apply c
  | _ => exact hw

/-- Every tree a run of steps reaches from an empty tree is well-formed. -/
theorem wellFormed_runAll (n : Nat) (h : 0 < n) (steps : List TreeStep) :
    (runAll run (Tree.empty n h) steps).WellFormed :=
  runAll_induction Tree.WellFormed (Tree.wellFormed_empty n h) (fun _ q hw => wellFormed_run hw q) steps

/-- A step replies alike on two resharded well-formed trees, and leaves them resharded. -/
theorem run_resharded {t t' : Tree Bytes} (h : t.Resharded t') (hw : t.WellFormed)
    (hw' : t'.WellFormed) (q : TreeStep) :
    (run t' q).1 = (run t q).1 ∧ (run t q).2.Resharded (run t' q).2 := by
  cases q with
  | change c =>
    obtain ⟨hr, hc⟩ := h.apply c
    refine ⟨changed_fst_congr hr, ?_⟩
    show (changed (t.apply c)).2.Resharded (changed (t'.apply c)).2
    rw [changed_snd, changed_snd]
    exact hc
  | find key => exact ⟨by simp only [run, h.find?], h⟩
  | contains key => exact ⟨by simp only [run, h.contains], h⟩
  | ancestors x => exact ⟨by simp only [run, h.ancestors?], h⟩
  | parentAt x level => exact ⟨by simp only [run, h.ancestorAt?], h⟩
  | descendants x => exact ⟨by simp only [run, h.descendants?], h⟩
  | children x => exact ⟨by simp only [run, h.children?], h⟩
  | depth x => exact ⟨by simp only [run, h.depth?], h⟩
  | root => exact ⟨by simp only [run, h.root?], h⟩
  | height => exact ⟨by simp only [run, Tree.height, Tree.width, h.heightWidth], h⟩
  | size => exact ⟨by simp only [run, Tree.size, h.count], h⟩
  | isEmpty => exact ⟨by simp only [run, Tree.isEmpty, h.count], h⟩
  | nodes =>
    -- the index lists the same nodes, and sorting leaves one order
    exact ⟨by simp only [run, sortedNodes_eq_of_perm (h.nodes_perm hw.index_placed hw'.index_placed)], h⟩
  | idleRecords => exact ⟨by simp only [run, Tree.idleRecords, h.spare], h⟩
  | print => exact ⟨by simp only [run, h.text], h⟩
  | printWide => exact ⟨by simp only [run, Tree.wideText, h.text], h⟩

/-- A run of steps from the empty trees of two shard counts replies alike to every step, and
leaves trees whose `nodes` list the same nodes. -/
theorem run_runAll_eq (n n' : Nat) (h : 0 < n) (h' : 0 < n') (steps : List TreeStep) (q : TreeStep) :
    (run (runAll run (Tree.empty n h) steps) q).1 = (run (runAll run (Tree.empty n' h') steps) q).1 ∧
      (runAll run (Tree.empty n h) steps).nodes.Perm (runAll run (Tree.empty n' h') steps).nodes := by
  have hres : (runAll run (Tree.empty n h) steps).Resharded (runAll run (Tree.empty n' h') steps) := by
    induction steps using List.reverseRecOn with
    | nil => exact Tree.Resharded.empty n n' h h'
    | append_singleton steps c ih =>
      simp only [runAll_append_singleton]
      exact (run_resharded ih (wellFormed_runAll n h steps) (wellFormed_runAll n' h' steps) c).2
  have hw := wellFormed_runAll n h steps
  have hw' := wellFormed_runAll n' h' steps
  exact ⟨(run_resharded hres hw hw' q).1.symm, (hres.nodes_perm hw.index_placed hw'.index_placed).symm⟩

end TreeStep

/-- A sharded map behaves as one finite map, whatever its shard count. The empty map of any shard
count stands for the empty finite map. On a map that stands for `M`, `get?` reads `M`, `contains`
tells whether `M` holds the key, `erase` answers whether `M` holds the key, and `eraseIf`, for
every test, whether `M` holds it with a value the test passes; `insert`, `erase`, `eraseIf` and
`clear` leave maps that stand for `M` with the key stored, with the key deleted, with the key
deleted exactly when it is held with a value the test passes, and for the empty finite map; the size is the number of keys of `M`,
and a visit that never stops folds over a listing of the entries of `M`, each once. Each step of
a request that does not read the shard layout replies from `M` as `OnFinmap` says and leaves a map
that stands for the finite map it describes. So a run of steps from the empty maps of two shard
counts replies alike to every such step, and a run of tree steps from the empty trees of two shard
counts replies alike to every step, the library's `nodes` listing the same nodes. -/
theorem shardedMap_refines_finmap :
    (∀ (α : Type) (n : Nat) (h : 0 < n), (ShardedMap.empty n h : ShardedMap α).Refines ∅) ∧
    (∀ (α : Type) (m : ShardedMap α) (M : Finmap fun _ : Bytes => α), m.Refines M →
      (∀ k, m.get? k = M.lookup k) ∧
      (∀ k, m.contains k = true ↔ k ∈ M) ∧
      (∀ k v, (m.insert k v).Refines (M.insert k v)) ∧
      (∀ k, (m.erase k).1 = decide (k ∈ M) ∧ (m.erase k).2.Refines (M.erase k)) ∧
      (∀ k p, (m.eraseIf k p).1 = (M.lookup k).any p ∧
        (m.eraseIf k p).2.Refines (if (M.lookup k).any p then M.erase k else M)) ∧
      m.clear.Refines ∅ ∧
      m.size = M.keys.card ∧
      ∀ (σ : Type) (visit : σ → Bytes → α → σ × Bool) (init : σ), (∀ s k v, (visit s k v).2 = true) →
        ∃ l : List (Bytes × α),
          ((l.map ShardedMap.toSigma : List (Σ _ : Bytes, α)) : Multiset _) = M.entries ∧
          m.visitWhile visit init = l.foldl (fun s e => (visit s e.1 e.2).1) init) ∧
    (∀ (m : ShardedMap Bytes) (M : Finmap fun _ : Bytes => Bytes) (s : MapStep), m.Refines M →
      s.readsLayout = false →
      ∃ M', MapStep.OnFinmap M s (MapStep.run m s).1 M' ∧ (MapStep.run m s).2.Refines M') ∧
    (∀ (n n' : Nat) (h : 0 < n) (h' : 0 < n') (steps : List MapStep) (s : MapStep),
      s.readsLayout = false →
      (MapStep.run (runAll MapStep.run (ShardedMap.empty n h) steps) s).1 =
        (MapStep.run (runAll MapStep.run (ShardedMap.empty n' h') steps) s).1) ∧
    (∀ (n n' : Nat) (h : 0 < n) (h' : 0 < n') (steps : List TreeStep) (q : TreeStep),
      (TreeStep.run (runAll TreeStep.run (Tree.empty n h) steps) q).1 =
        (TreeStep.run (runAll TreeStep.run (Tree.empty n' h') steps) q).1 ∧
      (runAll TreeStep.run (Tree.empty n h) steps).nodes.Perm
        (runAll TreeStep.run (Tree.empty n' h') steps).nodes) := by
  refine ⟨fun _ n h => ShardedMap.refines_empty n h, fun _ m M hm => ?_,
    fun _ _ s hm hs => MapStep.run_onFinmap hm s hs,
    fun n n' h h' steps s hs => MapStep.run_runAll_eq n n' h h' steps s hs,
    fun n n' h h' steps q => TreeStep.run_runAll_eq n n' h h' steps q⟩
  refine ⟨hm.get?_eq, hm.contains_iff, hm.insert, fun k => ⟨hm.erase_fst k, hm.erase k⟩,
    fun k p => ⟨hm.eraseIf_fst k p, hm.eraseIf k p⟩, ShardedMap.refines_clear m,
    hm.size_eq, fun _ visit init hgo => ?_⟩
  exact ⟨m.toList, hm.toList_entries, ShardedMap.visitWhile_of_forall_continue m visit hgo init⟩

/-- One shard and sixty-four: a value stored and read back answers alike. -/
theorem shardedMap_refines_finmap_one_and_sixty_four_shards :
    0 < 1 ∧ 0 < 64 ∧ MapStep.readsLayout (.load ⟨[1]⟩) = false ∧
      (MapStep.run (runAll MapStep.run (ShardedMap.empty 1 (by decide)) [.store ⟨[1]⟩ ⟨[2]⟩])
          (.load ⟨[1]⟩)).1 =
        (MapStep.run (runAll MapStep.run (ShardedMap.empty 64 (by decide)) [.store ⟨[1]⟩ ⟨[2]⟩])
          (.load ⟨[1]⟩)).1 :=
  ⟨by decide, by decide, rfl,
    shardedMap_refines_finmap.2.2.2.1 1 64 (by decide) (by decide) _ (.load ⟨[1]⟩) rfl⟩

end Service

end IndexedTree
