import Std.Data.String.ToNat
import IndexedTree.Bench.Workload
import IndexedTree.Proofs.Tree.Queries

/-!
# Benchmark workloads never fail

A run of a workload grows a tree from its root with one worker for each thread id, worker `w`
adding the nodes `w.i` for `i = 1, …, n - 1`, each under the root or a node it added before. For
every list of distinct thread ids, every add succeeds, whatever the draws pick and however the
workers' adds interleave, and the run ends with `1 + threads * (n - 1)` nodes
(`workloads_never_fail`).

Two facts about ids carry this. The id `w.i` names its worker and its number: decimal digits hold
no dot, so the first dot of an id ends the worker's number (`nodeId_inj`), and no such id is the
root's (`nodeId_ne_root`). Workers have distinct numbers. So while the workers grow the tree it
keeps one invariant (`Grown`): the index holds exactly the root's id and the ids of the nodes the
workers have added (`Named`), the tree is well-formed and shaped, and its counter and index count
one node for the root and one for each add. A worker's next id is then fresh, and every node it
may pick as the parent is in the index, so its add succeeds and keeps the invariant
(`Grown.step`); the run lemmas follow the run's own loops: the schedule (`Grown.foldlM_stepAt`), a
worker's remaining adds (`Grown.steps`), and the workers in turn (`Grown.foldlM_finish`).
-/

namespace IndexedTree

namespace Bytes

/-- A decimal digit's code lies between those of `0` and `9`. -/
theorem toNat_of_isDigit {c : Char} (h : c.isDigit = true) : 48 ≤ c.toNat ∧ c.toNat ≤ 57 := by
  simp only [Char.isDigit, Bool.and_eq_true, decide_eq_true_eq] at h
  exact ⟨UInt32.le_iff_toNat_le.1 h.1, UInt32.le_iff_toNat_le.1 h.2⟩

/-- A digit of a number's decimal text has a code from that of `0` to that of `9`, which its
byte keeps. -/
theorem code_of_mem_toDigits {k : Nat} {c : Char} (hc : c ∈ Nat.toDigits 10 k) :
    48 ≤ c.toNat ∧ c.toNat ≤ 57 ∧ c.toNat.toUInt8.toNat = c.toNat := by
  obtain ⟨h48, h57⟩ := toNat_of_isDigit (Nat.isDigit_of_mem_toDigits (by decide) (by decide) hc)
  refine ⟨h48, h57, ?_⟩
  simp [Nat.toUInt8]
  omega

/-- The decimal text of a number holds no dot. -/
theorem dot_not_mem_ofNat (n : Nat) : (0x2E : UInt8) ∉ (ofNat n).data := fun hdot => by
  obtain ⟨c, hc, heq⟩ := List.mem_map.1 hdot
  obtain ⟨h48, -, hcode⟩ := code_of_mem_toDigits hc
  have hdot := congrArg UInt8.toNat heq
  rw [hcode] at hdot
  simp only [UInt8.reduceToNat] at hdot
  omega

/-- Distinct numbers have distinct decimal texts. -/
theorem ofNat_injective : Function.Injective ofNat := by
  intro m n h
  -- the bytes give back the digits' codes, since each code is below 256
  have hcode : ∀ k, (ofNat k).data.map UInt8.toNat = (Nat.toDigits 10 k).map Char.toNat := by
    intro k
    simp only [ofNat, List.map_map]
    exact List.map_congr_left fun c hc => (code_of_mem_toDigits hc).2.2
  have hdigits : Nat.toDigits 10 m = Nat.toDigits 10 n := by
    have := hcode m
    rw [h, hcode n] at this
    exact (List.map_inj_right fun c d hcd => Char.toNat_inj.1 hcd).1 this.symm
  exact Nat.repr_inj.1 (by simp only [Nat.repr, hdigits])

end Bytes

namespace Bench

theorem nodeId_data (w i : Nat) :
    (nodeId w i).data = (Bytes.ofNat w).data ++ 0x2E :: (Bytes.ofNat i).data := by
  simp [nodeId]

/-- The id `w.i` names its worker and its number: the first dot ends the worker's number. -/
theorem nodeId_inj {w i w' i' : Nat} : nodeId w i = nodeId w' i' ↔ w = w' ∧ i = i' := by
  constructor
  · intro h
    have hdata := congrArg Bytes.data h
    rw [nodeId_data, nodeId_data] at hdata
    have hlen : (Bytes.ofNat w).data.length = (Bytes.ofNat w').data.length := by
      have hdot := congrArg (List.idxOf (0x2E : UInt8)) hdata
      rwa [List.idxOf_append, List.idxOf_append, if_neg (Bytes.dot_not_mem_ofNat w),
        if_neg (Bytes.dot_not_mem_ofNat w'), List.idxOf_cons_self, List.idxOf_cons_self,
        Nat.zero_add, Nat.zero_add] at hdot
    obtain ⟨hw, hi⟩ := List.append_inj hdata hlen
    exact ⟨Bytes.ofNat_injective (congrArg Bytes.mk hw),
      Bytes.ofNat_injective (congrArg Bytes.mk (List.cons.inj hi).2)⟩
  · rintro ⟨rfl, rfl⟩
    rfl

/-- No node id is the root's: the root's id has no dot. -/
theorem nodeId_ne_root (w i : Nat) : nodeId w i ≠ root.id := by
  intro h
  have hdot : (0x2E : UInt8) ∈ (nodeId w i).data := by simp [nodeId_data]
  rw [h] at hdot
  revert hdot
  decide

/-! ## The invariant of a run -/

/-- The ids that the index holds while the workers `ws` grow a tree: the root's, and `w.i` for
each worker `w` and each node `i` it has added. -/
def Named (ws : List Worker) (x : Bytes) : Prop :=
  x = root.id ∨ ∃ w ∈ ws, ∃ i, 1 ≤ i ∧ i < w.next ∧ x = nodeId w.id i

/-- What holds of the tree and of the workers `ws` while they grow it, `n` nodes a worker. -/
structure Grown (n : Nat) (ws : List Worker) (t : Tree Int) : Prop where
  wellFormed : t.WellFormed
  shaped : t.Shaped
  /-- The root slot holds the record that the index holds under the root's id. -/
  root_slot : ∃ r, t.rootSlot = some r ∧ t.lookup? root.id = some r
  /-- The workers have distinct numbers. -/
  nodup_ids : (ws.map (·.id)).Nodup
  /-- A worker's next node lies between `1` and `n`. -/
  next_mem : ∀ w ∈ ws, 1 ≤ w.next ∧ w.next ≤ n
  /-- A worker has added the root and its own nodes before the next. -/
  added : ∀ w ∈ ws, ∀ m ∈ w.added, m = root ∨ ∃ i, 1 ≤ i ∧ i < w.next ∧ m.id = nodeId w.id i
  /-- The index holds exactly the ids named so far. -/
  lookup : ∀ x, (t.lookup? x).isSome ↔ Named ws x
  /-- The counter counts the root and each add. -/
  count : t.count = 1 + (ws.map (·.next - 1)).sum
  /-- The index holds as many entries as the counter counts. -/
  index_size : t.index.size = t.count

/-- A worker's add of its next node names one id more: that node's. -/
theorem named_bump {pre post : List Worker} {w : Worker} (hw : 1 ≤ w.next) (child : Node Int)
    (x : Bytes) :
    Named (pre ++ { w with next := w.next + 1, added := w.added.push child } :: post) x ↔
      x = nodeId w.id w.next ∨ Named (pre ++ w :: post) x := by
  simp only [Named, List.mem_append, List.mem_cons]
  constructor
  · rintro (hroot | ⟨v, hv, i, hi1, hi2, rfl⟩)
    · exact .inr (.inl hroot)
    · rcases hv with hv | rfl | hv
      · exact .inr (.inr ⟨v, .inl hv, i, hi1, hi2, rfl⟩)
      · -- the worker that adds: one of its earlier nodes, or the new one
        by_cases hlt : i < w.next
        · exact .inr (.inr ⟨w, .inr (.inl rfl), i, hi1, hlt, rfl⟩)
        · have hi : i = w.next := by simp only at hi2; omega
          exact .inl (by rw [hi])
      · exact .inr (.inr ⟨v, .inr (.inr hv), i, hi1, hi2, rfl⟩)
  · rintro (rfl | hroot | ⟨v, hv, i, hi1, hi2, rfl⟩)
    · exact .inr ⟨_, .inr (.inl rfl), w.next, hw, by simp, rfl⟩
    · exact .inl hroot
    · rcases hv with hv | rfl | hv
      · exact .inr ⟨v, .inl hv, i, hi1, hi2, rfl⟩
      · exact .inr ⟨_, .inr (.inl rfl), i, hi1, by simp only; omega, rfl⟩
      · exact .inr ⟨v, .inr (.inr hv), i, hi1, hi2, rfl⟩

section Step

variable {n : Nat} {pre post : List Worker} {w : Worker} {t : Tree Int}

/-- After the worker `w` makes an add, a worker of the list is the one that added or one of those
before. -/
theorem eq_or_mem_of_mem_middle {w' v : Worker} (hv : v ∈ pre ++ w' :: post) :
    v = w' ∨ v ∈ pre ++ w :: post := by
  simp only [List.mem_append, List.mem_cons] at hv ⊢
  rcases hv with hv | rfl | hv
  · exact .inr (.inl hv)
  · exact .inl rfl
  · exact .inr (.inr (.inr hv))

/-- The next node of the worker that adds lies between `1` and `n`. -/
theorem Grown.next_self (hg : Grown n (pre ++ w :: post) t) : 1 ≤ w.next ∧ w.next ≤ n :=
  hg.next_mem w List.mem_append_cons_self

/-- Every node a worker may pick as the parent is named, and its id is not the worker's next. -/
theorem Grown.parent (hg : Grown n (pre ++ w :: post) t) {m : Node Int}
    (hm : m = root ∨ m ∈ w.added) :
    Named (pre ++ w :: post) m.id ∧ nodeId w.id w.next ≠ m.id := by
  have hmem : w ∈ pre ++ w :: post := List.mem_append_cons_self
  rcases hm with rfl | hm
  · exact ⟨.inl rfl, nodeId_ne_root _ _⟩
  · rcases hg.added w hmem m hm with rfl | ⟨i, hi1, hi2, hid⟩
    · exact ⟨.inl rfl, nodeId_ne_root _ _⟩
    · refine ⟨.inr ⟨w, hmem, i, hi1, hi2, hid⟩, fun h => ?_⟩
      rw [hid, nodeId_inj] at h
      omega

/-- A worker's next id is not in the index: no other worker's id and no earlier number. -/
theorem Grown.fresh (hg : Grown n (pre ++ w :: post) t) : t.lookup? (nodeId w.id w.next) = none := by
  rw [← Option.not_isSome_iff_eq_none, hg.lookup]
  rintro (hroot | ⟨v, hv, i, -, hi, hid⟩)
  · exact nodeId_ne_root _ _ hroot
  · obtain ⟨hvw, rfl⟩ := nodeId_inj.1 hid
    -- two workers with one number are one worker
    have hw : w ∈ pre ++ w :: post := List.mem_append_cons_self
    have hveq : v = w := List.inj_on_of_nodup_map hg.nodup_ids hv hw hvw.symm
    subst hveq
    exact Nat.lt_irrefl _ hi

/-- A worker's add of its next node keeps the invariant. -/
theorem Grown.add (hg : Grown n (pre ++ w :: post) t) (hnext : w.next < n) {parent : Node Int}
    (hpar : parent = root ∨ parent ∈ w.added) {p : Stamp} (hp : t.lookup? parent.id = some p) :
    Grown n (pre ++
        { w with next := w.next + 1, added := w.added.push ⟨nodeId w.id w.next, w.next⟩ } :: post)
      (t.attachChild ⟨nodeId w.id w.next, w.next⟩ parent.id p).2 := by
  set child : Node Int := ⟨nodeId w.id w.next, w.next⟩ with hchild
  have hwf := hg.wellFormed
  have hmem : w ∈ pre ++ w :: post := List.mem_append_cons_self
  have hlo := hg.next_self.1
  have hne : child.id ≠ parent.id := (hg.parent hpar).2
  have hfresh : t.lookup? child.id = none := hg.fresh
  have ha := Tree.added_attachChild hwf hp child hne
  have hsh : (t.attachChild child parent.id p).2.Shaped := by
    have h := Tree.Shaped.apply hwf hg.shaped (.addChild child parent.id) fun y hy => by
      cases hy
      exact hfresh
    change (t.addChild child parent.id).2.Shaped at h
    rwa [hwf.addChild_eq hp child hne] at h
  obtain ⟨r, hr, hrl⟩ := hg.root_slot
  refine ⟨hwf.of_added ha, hsh, ⟨r, by rw [ha.rootSlot]; simpa using hr, ?_⟩, ?_, ?_, ?_, ?_, ?_, ?_⟩
  · rw [ha.lookup?_eq, if_neg (nodeId_ne_root _ _)]
    exact hrl
  · simpa using hg.nodup_ids
  · intro v hv
    rcases eq_or_mem_of_mem_middle hv with rfl | hv
    · exact ⟨Nat.le_succ_of_le hlo, hnext⟩
    · exact hg.next_mem v hv
  · intro v hv m hm
    rcases eq_or_mem_of_mem_middle hv with rfl | hv
    · -- the worker that adds: an earlier node, or the new one
      rcases Array.mem_push.1 hm with hm | rfl
      · rcases hg.added w hmem m hm with rfl | ⟨i, hi1, hi2, hid⟩
        · exact .inl rfl
        · exact .inr ⟨i, hi1, by simp only; omega, hid⟩
      · exact .inr ⟨w.next, hlo, by simp, rfl⟩
    · exact hg.added v hv m hm
  · intro x
    rw [named_bump hlo child x, ← hg.lookup x, ha.lookup?_eq]
    by_cases hx : child.id = x
    · rw [if_pos hx]
      exact ⟨fun _ => .inl hx.symm, fun _ => rfl⟩
    · rw [if_neg hx]
      exact ⟨.inr, fun h => h.resolve_left fun hx' => hx hx'.symm⟩
  · rw [ha.count, hg.count]
    simp only [List.map_append, List.map_cons, List.sum_append, List.sum_cons]
    omega
  · have hnone : t.index.get? child.id = none := hfresh
    rw [ha.count, ha.index, ShardedMap.size_insert, ← hg.index_size, hnone]
    rfl

/-- A worker's next add succeeds and keeps the invariant; a worker that has added its nodes
does nothing. -/
theorem Grown.step (hg : Grown n (pre ++ w :: post) t) (wl : Workload) (draw : Draws) :
    ∃ w' t', w.step wl draw n t = .ok (w', t') ∧ w'.id = w.id ∧ w'.next = min (w.next + 1) n ∧
      Grown n (pre ++ w' :: post) t' := by
  have hhi := hg.next_self.2
  by_cases hnext : w.next < n
  · -- the parent the draw picks: a node the worker added, or the root
    let parent := w.added[wl.position (draw w.id w.next w.added.size) w.added.size]?.getD root
    have hpar : parent = root ∨ parent ∈ w.added := by
      cases hget : w.added[wl.position (draw w.id w.next w.added.size) w.added.size]? with
      | none => exact .inl (by simp [parent, hget])
      | some m => exact .inr (by simpa [parent, hget] using Array.mem_of_getElem? hget)
    obtain ⟨p, hp⟩ := Option.isSome_iff_exists.1 ((hg.lookup _).2 (hg.parent hpar).1)
    refine ⟨{ w with next := w.next + 1, added := w.added.push ⟨nodeId w.id w.next, w.next⟩ }, _,
      ?_, rfl, ?_, hg.add hnext hpar hp⟩
    · simp only [Worker.step, if_pos hnext]
      rw [hg.wellFormed.addChild_eq hp _ (hg.parent hpar).2]
    · show w.next + 1 = min (w.next + 1) n
      omega
  · exact ⟨w, t, by simp [Worker.step, hnext], rfl, by omega, hg⟩

/-- A worker's next `m` adds succeed and keep the invariant. -/
theorem Grown.steps (wl : Workload) (draw : Draws) (m : Nat) :
    ∀ {w : Worker} {t : Tree Int}, Grown n (pre ++ w :: post) t →
      ∃ w' t', w.steps wl draw n m t = .ok (w', t') ∧ w'.id = w.id ∧
        w'.next = min (w.next + m) n ∧ Grown n (pre ++ w' :: post) t' := by
  induction m with
  | zero =>
    intro w t hg
    have hhi := hg.next_self.2
    exact ⟨w, t, rfl, rfl, by omega, hg⟩
  | succ m ih =>
    intro w t hg
    obtain ⟨w₁, t₁, h₁, hid₁, hnext₁, hg₁⟩ := hg.step wl draw
    obtain ⟨w₂, t₂, h₂, hid₂, hnext₂, hg₂⟩ := ih hg₁
    refine ⟨w₂, t₂, ?_, hid₂.trans hid₁, by omega, hg₂⟩
    simp only [Worker.steps, h₁]
    exact h₂

/-- A worker's remaining adds succeed, keep the invariant, and leave it with all its nodes. -/
theorem Grown.finish (hg : Grown n (pre ++ w :: post) t) (wl : Workload) (draw : Draws) :
    ∃ w' t', w.finish wl draw n t = .ok (w', t') ∧ w'.id = w.id ∧ w'.next = n ∧
      Grown n (pre ++ w' :: post) t' := by
  have hhi := hg.next_self.2
  obtain ⟨w', t', h, hid, hnext, hg'⟩ := hg.steps wl draw (n - w.next)
  exact ⟨w', t', h, hid, by omega, hg'⟩

end Step

/-! ## Runs -/

section Run

variable {n : Nat} (wl : Workload) (draw : Draws)

/-- The next add of the worker at a position succeeds and keeps the invariant. -/
theorem Grown.stepAt_ok {ws : List Worker} {t : Tree Int} (hg : Grown n ws t) (j : Nat) :
    ∃ ws' t', stepAt wl draw n (ws, t) j = .ok (ws', t') ∧ ws'.map (·.id) = ws.map (·.id) ∧
      Grown n ws' t' := by
  unfold stepAt
  cases hj : ws[j]? with
  | none => exact ⟨ws, t, rfl, rfl, hg⟩
  | some w =>
    obtain ⟨hjlt, hwj⟩ := List.getElem?_eq_some_iff.1 hj
    -- the worker at `j` between those before and after it
    have hsplit : ws = ws.take j ++ w :: ws.drop (j + 1) := by
      rw [← hwj, ← List.drop_eq_getElem_cons hjlt, List.take_append_drop]
    have hset : ∀ w', ws.set j w' = ws.take j ++ w' :: ws.drop (j + 1) := fun w' => by
      rw [List.set_eq_take_append_cons_drop, if_pos hjlt]
    rw [hsplit] at hg
    obtain ⟨w', t', hstep, hid, -, hg'⟩ := hg.step wl draw
    refine ⟨ws.set j w', t', ?_, ?_, by rwa [hset]⟩
    · simp only [hstep]
      rfl
    · rw [hset]
      conv_rhs => rw [hsplit]
      simp [hid]

/-- The adds of a schedule succeed and keep the invariant. -/
theorem Grown.foldlM_stepAt (schedule : List Nat) :
    ∀ {ws : List Worker} {t : Tree Int}, Grown n ws t →
      ∃ ws' t', schedule.foldlM (stepAt wl draw n) (ws, t) = .ok (ws', t') ∧
        ws'.map (·.id) = ws.map (·.id) ∧ Grown n ws' t' := by
  induction schedule with
  | nil => exact fun hg => ⟨_, _, rfl, rfl, hg⟩
  | cons j schedule ih =>
    intro ws t hg
    obtain ⟨ws₁, t₁, h₁, hid₁, hg₁⟩ := hg.stepAt_ok wl draw j
    obtain ⟨ws₂, t₂, h₂, hid₂, hg₂⟩ := ih hg₁
    refine ⟨ws₂, t₂, ?_, hid₂.trans hid₁, hg₂⟩
    rw [List.foldlM_cons, h₁]
    exact h₂

/-- The workers' remaining adds, worker after worker, succeed and keep the invariant; each worker
ends with all its nodes. -/
theorem Grown.foldlM_finish (rest : List Worker) :
    ∀ {done : List Worker} {t : Tree Int}, Grown n (done ++ rest) t → (∀ w ∈ done, w.next = n) →
      ∃ done' t', rest.foldlM (fun t w => do pure (← w.finish wl draw n t).2) t = .ok t' ∧
        done'.map (·.id) = (done ++ rest).map (·.id) ∧ (∀ w ∈ done', w.next = n) ∧
        Grown n done' t' := by
  induction rest with
  | nil => exact fun hg hdone => ⟨_, _, rfl, by simp, hdone, by simpa using hg⟩
  | cons w rest ih =>
    intro done t hg hdone
    obtain ⟨w', t', hfin, hid, hnext, hg'⟩ := hg.finish wl draw
    have hdone' : ∀ v ∈ done ++ [w'], v.next = n := by
      intro v hv
      rcases List.mem_append.1 hv with hv | hv
      · exact hdone v hv
      · rw [List.mem_singleton.1 hv, hnext]
    obtain ⟨done'', t'', h, hids, hall, hg''⟩ := @ih (done ++ [w']) t' (by simpa using hg') hdone'
    refine ⟨done'', t'', ?_, by simpa [hid] using hids, hall, hg''⟩
    rw [List.foldlM_cons]
    simp only [hfin]
    exact h

/-- The two phases of a run succeed, keep the invariant, and leave every worker with all its
nodes. -/
theorem Grown.grow {ws : List Worker} {t : Tree Int} (hg : Grown n ws t) (schedule : List Nat) :
    ∃ ws' t', grow wl draw n schedule ws t = .ok t' ∧ ws'.length = ws.length ∧
      (∀ w ∈ ws', w.next = n) ∧ Grown n ws' t' := by
  obtain ⟨ws₁, t₁, h₁, hid₁, hg₁⟩ := hg.foldlM_stepAt wl draw schedule
  obtain ⟨ws₂, t₂, h₂, hid₂, hall, hg₂⟩ :=
    @Grown.foldlM_finish n wl draw ws₁ [] t₁ (by simpa using hg₁) (by simp)
  refine ⟨ws₂, t₂, ?_, ?_, hall, hg₂⟩
  · simp only [Bench.grow, h₁]
    exact h₂
  · have := congrArg List.length (hid₂.trans (by simpa using hid₁))
    simpa using this

end Run

/-- Fresh workers with distinct thread ids at the start, and the tree that holds only the root. -/
theorem grown_start {n : Nat} (hn : 1 ≤ n) {ids : List Nat} (hids : ids.Nodup) :
    Grown n (ids.map Worker.fresh) start := by
  let t₀ : Tree Int := Tree.empty ShardedMap.defaultShardCount (by decide)
  have hw₀ : t₀.WellFormed := Tree.wellFormed_empty _ _
  have hnone : ∀ x, t₀.lookup? x = none := fun x => ShardedMap.get?_empty _ (by decide) x
  obtain ⟨-, ha⟩ := Tree.added_addRoot hw₀ rfl root
  show Grown n _ (t₀.addRoot root).2
  refine ⟨hw₀.of_added ha, ?_, ⟨_, ha.rootSlot, by simp [ha.lookup?_eq]⟩, ?_, ?_, ?_, ?_, ?_, ?_⟩
  · exact Tree.Shaped.apply hw₀ (Tree.shaped_empty _ _) (.addRoot root) fun x _ => hnone x
  · simpa [List.map_map, Function.comp_def, Worker.fresh] using hids
  · intro w hw
    obtain ⟨k, -, rfl⟩ := List.mem_map.1 hw
    exact ⟨Nat.le_refl 1, hn⟩
  · intro w hw m hm
    obtain ⟨k, -, rfl⟩ := List.mem_map.1 hw
    simp only [Worker.fresh, List.mem_toArray, List.mem_singleton] at hm
    exact .inl hm
  · intro x
    rw [ha.lookup?_eq, hnone]
    simp only [Named, List.mem_map]
    constructor
    · intro hx
      by_cases hid : root.id = x
      · exact .inl hid.symm
      · simp [hid] at hx
    · rintro (rfl | ⟨w, ⟨k, -, rfl⟩, i, hi1, hi2, -⟩)
      · simp
      · simp only [Worker.fresh] at hi2
        omega
  · rw [ha.count]
    simp [t₀, Tree.empty, Worker.fresh, Function.comp_def]
  · rw [ha.count, ha.index, ShardedMap.size_insert]
    simp [t₀, Tree.empty]

/-- On a tree the workers have finished, the counter and the index hold the root and every
worker's nodes, and the root has all the workers' nodes below it. -/
theorem Grown.counts {n : Nat} {ws : List Worker} {t : Tree Int} (hg : Grown n ws t)
    (hall : ∀ w ∈ ws, w.next = n) :
    t.size = 1 + ws.length * (n - 1) ∧ t.nodes.length = 1 + ws.length * (n - 1) ∧
      ∃ ds, t.descendants? root.id = some ds ∧ ds.length = ws.length * (n - 1) := by
  have hw := hg.wellFormed
  have hcount : t.count = 1 + ws.length * (n - 1) := by
    rw [hg.count, List.map_congr_left fun w hw => by rw [hall w hw], List.map_const',
      List.sum_replicate_nat]
  have hnodes : t.nodes.length = t.count := by rw [hw.length_nodes, hg.index_size]
  refine ⟨hcount, hnodes.trans hcount, ?_⟩
  obtain ⟨r, hr, hrl⟩ := hg.root_slot
  have hlive := hw.root_live r hr
  obtain ⟨m, hm, -⟩ := Tree.hasId_iff.1 (hw.index_sound _ _ hrl)
  refine ⟨Node.sortById ((t.subtree r).tail.filterMap t.node?), by simp [Tree.descendants?, hrl], ?_⟩
  -- the walk from the root lists the root's record, then one record for each other node
  have hperm := (hg.shaped.perm_nodes_subtree_root hw hr).length_eq
  rw [Tree.subtree_eq_cons hlive, List.filterMap_cons_some hm, List.length_cons, hnodes, hcount] at hperm
  rw [(Node.perm_sortById _).length_eq]
  omega

/-- The benchmark workloads never fail and have exact counts. For every list of distinct thread
ids, one worker each, every number `n ≥ 1` of nodes a worker, either workload, every draw and
every order of the workers' adds, every add of the run succeeds. After the adds the counter and
the index hold `1 + threads * (n - 1)` nodes and the root has `threads * (n - 1)` descendants,
and the run reports these counts. The id `w.i` names its worker and its number, and is never the
root's. -/
theorem workloads_never_fail (wl : Workload) (draw : Draws) (ids : List Nat) (hids : ids.Nodup)
    (n : Nat) (hn : 1 ≤ n) (schedule : List Nat) :
    (∃ t, grow wl draw n schedule (ids.map Worker.fresh) start = .ok t ∧
        t.size = 1 + ids.length * (n - 1) ∧ t.nodes.length = 1 + ids.length * (n - 1) ∧
        ∃ ds, t.descendants? root.id = some ds ∧ ds.length = ids.length * (n - 1)) ∧
    (∃ r, run wl draw ids n schedule = .ok r ∧ r.size = 1 + ids.length * (n - 1) ∧
      r.descendants = ids.length * (n - 1) ∧ r.nodes = 1 + ids.length * (n - 1)) ∧
    (∀ w i w' i', nodeId w i = nodeId w' i' ↔ w = w' ∧ i = i') ∧
    ∀ w i, nodeId w i ≠ root.id := by
  obtain ⟨ws, t, hgrow, hlen, hall, hg⟩ := (grown_start hn hids).grow wl draw schedule
  have hlen' : ws.length = ids.length := by simpa using hlen
  obtain ⟨hsize, hnodes, ds, hds, hdslen⟩ := hg.counts hall
  rw [hlen'] at hsize hnodes hdslen
  refine ⟨⟨t, hgrow, hsize, hnodes, ds, hds, hdslen⟩, ⟨report wl t, ?_, hsize, ?_, hnodes⟩,
    fun _ _ _ _ => nodeId_inj, nodeId_ne_root⟩
  · simp only [run, hgrow]
    rfl
  · simp [report, hds, hdslen]

/-- Two workers of the low workload with the thread ids 3 and 0, three nodes each, every draw
zero, adds interleaved as the second worker, then the first, then the second: the run never
fails and counts five nodes. -/
theorem workloads_never_fail_of_two_workers :
    [3, 0].Nodup ∧ 1 ≤ 3 ∧
    (∃ t, grow .low (fun _ _ _ => 0) 3 [1, 0, 1] ([3, 0].map Worker.fresh) start = .ok t ∧
        t.size = 1 + [3, 0].length * (3 - 1) ∧ t.nodes.length = 1 + [3, 0].length * (3 - 1) ∧
        ∃ ds, t.descendants? root.id = some ds ∧ ds.length = [3, 0].length * (3 - 1)) ∧
    (∃ r, run .low (fun _ _ _ => 0) [3, 0] 3 [1, 0, 1] = .ok r ∧
      r.size = 1 + [3, 0].length * (3 - 1) ∧ r.descendants = [3, 0].length * (3 - 1) ∧
      r.nodes = 1 + [3, 0].length * (3 - 1)) ∧
    (∀ w i w' i', nodeId w i = nodeId w' i' ↔ w = w' ∧ i = i') ∧
    ∀ w i, nodeId w i ≠ root.id :=
  ⟨by decide, by decide,
    workloads_never_fail .low (fun _ _ _ => 0) [3, 0] (by decide) 3 (by decide) [1, 0, 1]⟩

end Bench

end IndexedTree
