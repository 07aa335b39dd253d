import IndexedTree.Proofs.Tree.Walks

/-!
# The live references form a forest

Whatever a run does, duplicate ids, refused changes and resets included, the live child
references of the tree it reaches form a finite forest (`LiveForest`): a live reference leads to
the record that the index holds under the child's id, a record has at most one live parent and
sits in its child list once, the root slot's record has none, no path of live references returns
to where it started, and the record that the next add draws is referenced nowhere. The walks over
it therefore visit each record once and never exhaust their depth bounds.

A live reference has one origin: the add that drew the child appended it to the child list of the
record that the parent's id named at that moment (`mem_childRefs_applyAll`). A record that has
stopped living never lives again (`live_applyAll_eq_false`), so references left from a record's
earlier lives stay expired: a record taken from the spare pool gets a fresh stamp, and only the
add that draws it links it. The main statement is `liveChildren_forest`.
-/

namespace IndexedTree

namespace Tree

variable {α : Type}

/-- The live child relation of a tree is a forest whose walks visit each record once and never
exhaust their depth bounds. -/
structure LiveForest (t : Tree α) : Prop where
  /-- A live reference leads to the record that the index holds under the child's id. -/
  child_indexed : ∀ p c, c ∈ t.liveChildren p → t.indexed c
  /-- A record has at most one live parent. -/
  parent_unique : ∀ p q c, c ∈ t.liveChildren p → c ∈ t.liveChildren q → p = q
  /-- A record sits in its parent's child list once. -/
  nodup_liveChildren : ∀ p, (t.liveChildren p).Nodup
  /-- The root slot's record has no live parent. -/
  root_no_parent : ∀ r p, t.rootSlot = some r → r ∉ t.liveChildren p
  /-- No path of live references returns to where it started. -/
  acyclic : ∀ s k, ¬t.Below s (k + 1) s
  /-- The record that the next add draws is referenced by no child list. -/
  fresh_unreferenced : ∀ p, t.nextStamp ∉ t.childRefs p
  /-- The pre-order walk visits each record once. -/
  nodup_subtree : ∀ s, (t.subtree s).Nodup
  /-- The pre-order walk from a live record never reaches its depth bound. -/
  preorder_stable : ∀ s, t.live s → ∀ k, t.preorderWithin (t.records.size + k) 0 s = t.preorder s
  /-- The breadth-first walk visits each record once. -/
  nodup_levels : t.levels.flatten.Nodup
  /-- The breadth-first walk never reaches its depth bound. -/
  levels_stable : ∀ k, t.levelsWithin (t.records.size + 1 + k) t.rootSlot.toList = t.levels

/-- The live references of a well-formed tree form a forest. -/
theorem WellFormed.liveForest {t : Tree α} (hw : t.WellFormed) : t.LiveForest where
  child_indexed p c hc := by
    -- a live child is held, and not by the root slot, whose record is no child
    rcases held_iff.1 (hw.held_of_live c (mem_liveChildren.1 hc).2) with hroot | hidx
    · exact absurd (mem_liveChildren.1 hc).1 (hw.root_not_ref c p hroot)
    · exact hidx
  parent_unique _ _ _ hp hq := hw.parent_eq hp hq
  nodup_liveChildren := hw.nodup_liveChildren
  root_no_parent r p hr hc := hw.root_not_ref r p hr (mem_liveChildren.1 hc).1
  acyclic s k hs := hs.ne_of_succ hw rfl
  fresh_unreferenced p hp := Nat.lt_irrefl _ (hw.ref_lt p _ hp).2
  nodup_subtree := nodup_subtree hw
  preorder_stable s hs k := preorderWithin_size_add hw hs k 0
  nodup_levels := nodup_flatten_levels hw
  levels_stable := levelsWithin_size_add hw

/-! ## What one change does to the references and to the live records -/

/-- The references a removal leaves were all there before. -/
theorem WellFormed.mem_childRefs_remove {t : Tree α} (hw : t.WellFormed) {x : Bytes} {p c : Stamp}
    (h : c ∈ (t.remove x).2.childRefs p) : c ∈ t.childRefs p := by
  cases hx : t.lookup? x with
  | none => rwa [remove_of_lookup_none hx] at h
  | some s =>
    -- erasing a subtree and emptying the root slot only take references away
    rw [remove_of_lookup hx, childRefs_eraseSubtree (hw.unlink_vacate hx).index_sound,
      childRefs_vacate] at h
    split at h
    · simp at h
    · exact (childRefs_unlink_sublist t x p).subset h

/-- A reference after a change was there before, or is the one that a successful add under a
parent makes from the parent's record to the record it draws. -/
theorem WellFormed.mem_childRefs_apply {t : Tree α} (hw : t.WellFormed) (ch : Change α)
    {p c : Stamp} (h : c ∈ (t.apply ch).2.childRefs p) :
    c ∈ t.childRefs p ∨ ∃ m x, ch = .addChild m x ∧ (t.addChild m x).1 = .ok () ∧
      t.lookup? x = some p ∧ c = t.nextStamp := by
  cases hw.outcome ch with
  | unchanged e heq =>
    rw [heq] at h
    exact .inl h
  | rootTaken n _ _ hrec =>
    rw [childRefs_congr hrec] at h
    exact .inl h
  | added n parent chain _ hok ha _ hchild =>
    rcases ha.mem_childRefs hw h with h | ⟨hp, rfl⟩
    · exact .inl h
    · -- the new reference: the add was under a parent id that names `p`
      obtain ⟨x, rfl, hx, -⟩ := hchild p hp
      exact .inr ⟨n, x, rfl, hok, hx, rfl⟩
  | removed x s hc =>
    subst hc
    exact .inl (hw.mem_childRefs_remove h)
  | reset hc =>
    subst hc
    change c ∈ t.reset.childRefs p at h
    simp [childRefs, Tree.reset] at h

/-- A record that lives after a change lived before, or is the one the change drew. -/
theorem WellFormed.live_apply {t : Tree α} (hw : t.WellFormed) (ch : Change α) {s : Stamp}
    (h : (t.apply ch).2.live s) : t.live s ∨ s = t.nextStamp := by
  cases hw.outcome ch with
  | unchanged e heq =>
    rw [heq] at h
    exact .inl h
  | rootTaken n _ _ hrec =>
    rw [live_congr hrec] at h
    exact .inl h
  | added n parent chain _ _ ha =>
    rcases (ha.live_iff s).1 h with h | ⟨h, -⟩
    · exact .inr h
    · exact .inl h
  | removed x s' _ hx heq =>
    rw [heq] at h
    -- erasing a subtree only ends lives; unlinking and vacating change none
    have hlive := ((live_eraseSubtree (hw.unlink_vacate hx).index_sound s' s).1 h).1
    rw [live_vacate, live_unlink] at hlive
    exact .inl hlive
  | reset hc =>
    subst hc
    change t.reset.live s at h
    simp [live_eq, Tree.reset] at h

theorem nextStamp_le_apply (t : Tree α) (ch : Change α) :
    t.nextStamp ≤ (t.apply ch).2.nextStamp := by
  cases ch with
  | addRoot m =>
    change t.nextStamp ≤ (t.addRoot m).2.nextStamp
    unfold addRoot
    simp only [draw_fst]
    split
    · simp
    · simp
  | addChild m x =>
    change t.nextStamp ≤ (t.addChild m x).2.nextStamp
    unfold addChild
    split
    · exact Nat.le_refl _
    · split
      · exact Nat.le_refl _
      · -- the writes draw one stamp, and a back-out draws none
        dsimp only
        split
        · rw [nextStamp_attachChild]
          exact Nat.le_succ _
        · rw [nextStamp_eraseSubtree, nextStamp_attachChild]
          exact Nat.le_succ _
  | remove x => exact Nat.le_of_eq (nextStamp_remove t x).symm
  | reset => exact Nat.le_refl _

/-! ## Runs -/

/-- A successful add of the run `cs` from `t` drew the record `c` under a parent id that named the
record `p` at that moment. -/
def DrawnUnder (t : Tree α) (cs : List (Change α)) (p c : Stamp) : Prop :=
  ∃ pre m x post, cs = pre ++ .addChild m x :: post ∧ ((t.applyAll pre).addChild m x).1 = .ok () ∧
    (t.applyAll pre).lookup? x = some p ∧ c = (t.applyAll pre).nextStamp

/-- A reference after a run was there before it, or was made by a successful add of the run. -/
theorem WellFormed.mem_childRefs_applyAll {t : Tree α} (hw : t.WellFormed) (cs : List (Change α))
    {p c : Stamp} (h : c ∈ (t.applyAll cs).childRefs p) :
    c ∈ t.childRefs p ∨ t.DrawnUnder cs p c := by
  induction cs generalizing t with
  | nil => exact .inl h
  | cons ch cs ih =>
    -- the reference was there after the first change, or a later add of the run made it
    rcases ih (hw.apply ch) h with h1 | ⟨pre, m, x, post, rfl, hok, hp, rfl⟩
    · rcases hw.mem_childRefs_apply ch h1 with h0 | ⟨m, x, rfl, hok, hp, rfl⟩
      · exact .inl h0
      · exact .inr ⟨[], m, x, cs, rfl, hok, hp, rfl⟩
    · exact .inr ⟨ch :: pre, m, x, post, rfl, hok, hp, rfl⟩

/-- A record that has stopped living never lives again: a run brings to life only the records it
draws, each under a stamp not used before. -/
theorem WellFormed.live_applyAll_eq_false {t : Tree α} (hw : t.WellFormed) (cs : List (Change α))
    {s : Stamp} (hs : s < t.nextStamp) (hdead : t.live s = false) :
    (t.applyAll cs).live s = false := by
  induction cs generalizing t with
  | nil => exact hdead
  | cons ch cs ih =>
    -- one change leaves `s` dead, and the next stamp does not go down
    have hdead' : (t.apply ch).2.live s = false := by
      rw [Bool.eq_false_iff]
      intro hlive
      rcases hw.live_apply ch hlive with h' | rfl
      · rw [hdead] at h'
        exact Bool.false_ne_true h'
      · exact Nat.lt_irrefl _ hs
    exact ih (hw.apply ch) (Nat.lt_of_lt_of_le hs (nextStamp_le_apply t ch)) hdead'

theorem childRefs_empty (n : Nat) (h : 0 < n) (p : Stamp) :
    (Tree.empty n h : Tree α).childRefs p = [] := by
  simp [childRefs, Tree.empty]

/-- The live child relation of every tree that a run from an empty tree reaches is a forest
(`LiveForest`). Each of its references was made by a successful add of the run, which drew the
child under a parent id naming the older parent record at that moment; and a record that has
stopped living stays dead for the rest of the run, so references from its earlier lives stay
expired. -/
theorem liveChildren_forest (n : Nat) (h : 0 < n) (cs : List (Change α)) :
    let t₀ : Tree α := Tree.empty n h
    (t₀.applyAll cs).LiveForest ∧
    (∀ p c, c ∈ (t₀.applyAll cs).liveChildren p → p < c ∧ t₀.DrawnUnder cs p c) ∧
    (∀ pre post s, cs = pre ++ post → s < (t₀.applyAll pre).nextStamp →
      (t₀.applyAll pre).live s = false → (t₀.applyAll cs).live s = false) := by
  intro t₀
  have hw₀ : t₀.WellFormed := wellFormed_empty n h
  have hw : (t₀.applyAll cs).WellFormed := hw₀.applyAll cs
  refine ⟨hw.liveForest, fun p c hc => ?_, fun pre post s hcs hs hdead => ?_⟩
  · -- an empty tree has no reference, so the run made this one
    have href : c ∈ (t₀.applyAll cs).childRefs p := (mem_liveChildren.1 hc).1
    refine ⟨(hw.ref_lt p c href).1, ?_⟩
    rcases hw₀.mem_childRefs_applyAll cs href with h0 | hdrawn
    · rw [childRefs_empty] at h0
      exact absurd h0 List.not_mem_nil
    · exact hdrawn
  · rw [hcs, applyAll_append]
    exact (hw₀.applyAll pre).live_applyAll_eq_false post hs hdead

/-- A run that re-adds the root's id below the root's child, removes that child and then adds
under the root's id again: what it leaves is still a forest with references from its own adds. -/
theorem liveChildren_forest_of_readded_root :
    0 < 2 ∧
    let cs : List (Change Nat) := [.addRoot ⟨⟨[1]⟩, 0⟩, .addChild ⟨⟨[2]⟩, 1⟩ ⟨[1]⟩,
      .addChild ⟨⟨[1]⟩, 2⟩ ⟨[2]⟩, .remove ⟨[2]⟩, .addChild ⟨⟨[3]⟩, 3⟩ ⟨[1]⟩]
    let t₀ : Tree Nat := Tree.empty 2 (by decide)
    (t₀.applyAll cs).LiveForest ∧
    (∀ p c, c ∈ (t₀.applyAll cs).liveChildren p → p < c ∧ t₀.DrawnUnder cs p c) ∧
    (∀ pre post s, cs = pre ++ post → s < (t₀.applyAll pre).nextStamp →
      (t₀.applyAll pre).live s = false → (t₀.applyAll cs).live s = false) :=
  ⟨by decide, liveChildren_forest 2 (by decide) _⟩

end Tree

end IndexedTree
