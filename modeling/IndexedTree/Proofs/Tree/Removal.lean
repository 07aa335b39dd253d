import IndexedTree.Proofs.Pool
import IndexedTree.Proofs.Tree.Queries

/-!
# Removal takes exactly the subtree

Removing an indexed id `x` from a tree that a run reached, duplicate ids allowed, takes its record
and every record below it, and nothing else (`TakesSubtree`). Every record the walk from the
record of `x` reaches is indexed under an id of its own: the record of `x` by its index entry, and
each record below it because a live child is indexed (`LiveForest.child_indexed`). So every drop
finds its index entry, and the index entries and chains that go are exactly those of `x` and of
its descendants; the counter falls by one for each; and each of the records goes back to the
spare pool, which keeps them while it has room (`SpareBounded`). Unlinking `x` from the record
that its chain names takes at most the record of `x` itself off a child list, so the walk below
it is the same before and after (`WellFormed.subtree_unlink_vacate`), and every other id keeps
its node, its chain, and its children but `x`, in order.

The main statement is `remove_takes_subtree`.
-/

namespace IndexedTree

namespace Tree

variable {α : Type}

/-! ## The spare pool -/

/-- The spare pool of a tree keeps at most `spareRetain` records. -/
def SpareBounded (t : Tree α) : Prop := t.spare.Within spareRetain

theorem spare_release (t : Tree α) (s : Stamp) :
    (t.release s).spare = if t.live s && !t.held s then t.spare.give () else t.spare := by
  unfold release
  split <;> rfl

/-- Taking a record for a node takes the spare record that waited longest, if one waits. -/
theorem idleRecords_draw (t : Tree α) (n : Node α) :
    (t.draw n).2.idleRecords = t.idleRecords - 1 := by
  unfold draw idleRecords Pool.idleCount Pool.take?
  cases h : t.spare.idle with
  | nil => simp [h]
  | cons a rest => simp

@[simp] theorem retain_draw (t : Tree α) (n : Node α) :
    (t.draw n).2.spare.retain = t.spare.retain := by
  unfold draw Pool.take?
  split <;> rfl

/-- Storing a record under an id gives the spare pool the record that the id held, unless the
root slot keeps it. -/
theorem spare_store {t : Tree α} (ht : t.IndexSound) {x : Bytes} {s : Stamp}
    (hs : t.lookup? x ≠ some s) :
    (t.store x s).spare = match t.lookup? x with
      | some o => if t.rootSlot = some o then t.spare else t.spare.give ()
      | none => t.spare := by
  unfold store
  cases hold : t.index.get? x with
  | none =>
    have hlook : t.lookup? x = none := hold
    rw [hlook]
  | some o =>
    have hlook : t.lookup? x = some o := hold
    have hos : o ≠ s := fun h => hs (h ▸ hlook)
    -- the old record lives, and only the root slot can still hold it
    have hlive : ({ t with index := t.index.insert x s } : Tree α).live o = true :=
      ht.live hlook
    simp only
    rw [spare_release, hlive, held_insert_of_lookup ht hlook hos, hlook]
    by_cases hr : t.rootSlot = some o <;> simp [hr]

@[simp] theorem spare_drop (t : Tree α) (s : Stamp) : (t.drop s).spare = t.spare := by
  obtain ⟨_, _, _, h⟩ := drop_fields t s
  rw [h]

@[simp] theorem spare_unlink (t : Tree α) (x : Bytes) : (t.unlink x).spare = t.spare := by
  unfold unlink
  split <;> rfl

@[simp] theorem spare_vacate (t : Tree α) (s : Stamp) : (t.vacate s).spare = t.spare := by
  unfold vacate
  split <;> rfl

theorem spare_foldl_drop (L : List Stamp) (t : Tree α) : (L.foldl drop t).spare = t.spare := by
  induction L generalizing t with
  | nil => rfl
  | cons s L ih => rw [List.foldl_cons, ih, spare_drop]

theorem spare_foldl_clearChildren (L : List Stamp) (t : Tree α) :
    (L.foldl (fun t r => t.modifyChildren r fun _ => .empty) t).spare = t.spare := by
  induction L generalizing t with
  | nil => rfl
  | cons s L ih => rw [List.foldl_cons, ih]; rfl

theorem spareBounded_empty (n : Nat) (h : 0 < n) : (Tree.empty n h : Tree α).SpareBounded :=
  Pool.within_empty spareRetain

namespace SpareBounded

variable {t : Tree α}

theorem release (h : t.SpareBounded) (s : Stamp) : (t.release s).SpareBounded := by
  unfold SpareBounded at *
  rw [spare_release]
  split
  · exact h.give ()
  · exact h

theorem foldl_release (h : t.SpareBounded) (L : List Stamp) :
    (L.foldl Tree.release t).SpareBounded := by
  induction L generalizing t with
  | nil => exact h
  | cons s L ih => exact ih (h.release s)

/-- After a draw a bounded spare pool has room for one more record. -/
theorem length_idle_draw_lt (h : t.SpareBounded) (n : Node α) :
    (t.draw n).2.spare.idle.length < (t.draw n).2.spare.retain := by
  have hdraw := idleRecords_draw t n
  unfold idleRecords Pool.idleCount at hdraw
  have hle := h.2
  rw [retain_draw, hdraw, h.1]
  unfold spareRetain Pool.defaultRetain at *
  omega

/-- A record given back right after a draw waits in the spare pool: the pool ends with as many
records as before the draw, but at least one. -/
theorem idleRecords_give_draw (h : t.SpareBounded) (n : Node α) :
    ((t.draw n).2.spare.give ()).idle.length = max t.idleRecords 1 := by
  rw [Pool.idle_give, if_pos (h.length_idle_draw_lt n), List.length_append, List.length_singleton]
  have hdraw := idleRecords_draw t n
  unfold idleRecords Pool.idleCount at *
  omega

theorem draw (h : t.SpareBounded) (n : Node α) : (t.draw n).2.SpareBounded := by
  unfold SpareBounded at *
  show (((t.spare.take?).map (·.2)).getD t.spare).Within spareRetain
  cases ht : t.spare.take? with
  | none => exact h
  | some r =>
    obtain ⟨a, q⟩ := r
    exact h.take? ht

theorem store (h : t.SpareBounded) (x : Bytes) (s : Stamp) : (t.store x s).SpareBounded := by
  unfold Tree.store
  dsimp only
  split
  · exact SpareBounded.release (show SpareBounded { t with index := t.index.insert x s } from h) _
  · exact h

theorem addRoot (h : t.SpareBounded) (n : Node α) : (t.addRoot n).2.SpareBounded := by
  have hd := h.draw n
  unfold Tree.addRoot
  generalize t.draw n = D at hd ⊢
  obtain ⟨r, u⟩ := D
  dsimp only
  split
  · exact hd.release r
  · exact SpareBounded.store (show SpareBounded { u with rootSlot := some r } from hd) n.id r

theorem eraseSubtree (h : t.SpareBounded) (s : Stamp) : (t.eraseSubtree s).SpareBounded := by
  unfold Tree.eraseSubtree
  apply SpareBounded.foldl_release
  unfold SpareBounded
  rw [spare_foldl_clearChildren, spare_foldl_drop]
  exact h

theorem attachChild (h : t.SpareBounded) (n : Node α) (parent : Bytes) (p : Stamp) :
    (t.attachChild n parent p).2.SpareBounded := by
  have hd := h.draw n
  unfold Tree.attachChild
  generalize t.draw n = D at hd ⊢
  obtain ⟨r, u⟩ := D
  dsimp only
  have hu : SpareBounded
      { u with chains := u.chains.attach n.id parent, count := u.count + 1 } := hd
  exact hu.store n.id r

theorem addChild (h : t.SpareBounded) (n : Node α) (parent : Bytes) :
    (t.addChild n parent).2.SpareBounded := by
  unfold Tree.addChild
  split
  · exact h
  · split
    · exact h
    · rename_i p _ _
      have ha := h.attachChild n parent p
      generalize t.attachChild n parent p = A at ha ⊢
      obtain ⟨r, u⟩ := A
      dsimp only
      split
      · exact ha
      · exact SpareBounded.eraseSubtree ha r

theorem remove (h : t.SpareBounded) (x : Bytes) : (t.remove x).2.SpareBounded := by
  cases hx : t.lookup? x with
  | none =>
    rw [remove_of_lookup_none hx]
    exact h
  | some s =>
    rw [remove_of_lookup hx]
    refine SpareBounded.eraseSubtree ?_ s
    unfold SpareBounded
    rw [spare_vacate, spare_unlink]
    exact h

theorem apply (h : t.SpareBounded) (c : Change α) : (t.apply c).2.SpareBounded := by
  cases c with
  | addRoot n => exact h.addRoot n
  | addChild n parent => exact h.addChild n parent
  | remove x => exact h.remove x
  | reset => exact Pool.Within.foldl_give h _

theorem applyAll (h : t.SpareBounded) (cs : List (Change α)) : (t.applyAll cs).SpareBounded := by
  induction cs generalizing t with
  | nil => exact h
  | cons c cs ih => exact ih (h.apply c)

end SpareBounded

/-! ## The records below an indexed record -/

/-- Every record below an indexed record is indexed: a live child always is. -/
theorem WellFormed.indexed_of_mem_subtree {t : Tree α} (hw : t.WellFormed) {x : Bytes} {s c : Stamp}
    (hx : t.lookup? x = some s) (hc : c ∈ t.subtree s) : t.indexed c := by
  obtain ⟨k, hk⟩ := (mem_subtree hw (hw.index_sound.live hx)).1 hc
  cases k with
  | zero =>
    rw [Below.zero_iff.1 hk]
    exact hw.index_sound.indexed_iff.2 ⟨x, hx⟩
  | succ k =>
    obtain ⟨p, -, hcp⟩ := hk.last
    exact hw.liveForest.child_indexed p c hcp

/-- A live child of a record outside the subtree at `s` lies in it only if it is `s`. -/
theorem WellFormed.mem_subtree_iff_of_mem_liveChildren {t : Tree α} (hw : t.WellFormed)
    {s p c : Stamp} (hs : t.live s) (hp : p ∉ t.subtree s) (hc : c ∈ t.liveChildren p) :
    c ∈ t.subtree s ↔ c = s := by
  constructor
  · intro hcs
    obtain ⟨k, hk⟩ := (mem_subtree hw hs).1 hcs
    cases k with
    | zero => exact Below.zero_iff.1 hk
    | succ k =>
      -- the parent of `c` on the path from `s` is `p`, which would then lie below `s`
      obtain ⟨q, hq, hcq⟩ := hk.last
      have hqp : q = p := hw.parent_eq hcq hc
      subst hqp
      exact absurd ((mem_subtree hw hs).2 ⟨k, hq⟩) hp
  · intro hcs
    rw [hcs]
    exact (mem_subtree hw hs).2 ⟨0, .refl s⟩

/-- The ids whose index entries hold a record of the subtree at the record of `x` are `x` and the
ids of its descendants. -/
theorem WellFormed.exists_mem_subtree_iff {t : Tree α} (hw : t.WellFormed) {x : Bytes} {s : Stamp}
    (hx : t.lookup? x = some s) (y : Bytes) :
    (∃ c ∈ t.subtree s, t.lookup? y = some c) ↔
      y = x ∨ y ∈ (Node.sortById ((t.subtree s).tail.filterMap t.node?)).map (·.id) := by
  have hcons := subtree_eq_cons (hw.index_sound.live hx)
  have hperm := (Node.perm_sortById ((t.subtree s).tail.filterMap t.node?)).map (·.id)
  rw [hperm.mem_iff, List.mem_map]
  constructor
  · rintro ⟨c, hc, hy⟩
    rw [hcons, List.mem_cons] at hc
    rcases hc with rfl | hc
    · exact .inl (hw.index_sound.id_eq hy hx)
    · obtain ⟨m, hm, rfl⟩ := hasId_iff.1 (hw.index_sound y c hy)
      exact .inr ⟨m, List.mem_filterMap.2 ⟨c, hc, hm⟩, rfl⟩
  · rintro (rfl | ⟨m, hm, rfl⟩)
    · exact ⟨s, by rw [hcons]; exact List.mem_cons_self, hx⟩
    · obtain ⟨c, hc, hcm⟩ := List.mem_filterMap.1 hm
      have hcsub : c ∈ t.subtree s := by
        rw [hcons]
        exact List.mem_cons_of_mem s hc
      obtain ⟨m', hm', hlookup⟩ := indexed_iff.1 (hw.indexed_of_mem_subtree hx hcsub)
      rw [hcm, Option.some.injEq] at hm'
      subst hm'
      exact ⟨c, hcsub, hlookup⟩

/-- A record below another lives, so it carries a node. -/
theorem WellFormed.length_filterMap_node?_tail_subtree {t : Tree α} (hw : t.WellFormed) {s : Stamp}
    (hs : t.live s) : ((t.subtree s).tail.filterMap t.node?).length = (t.subtree s).length - 1 := by
  rw [← List.length_tail]
  have hle := List.length_filterMap_le t.node? (t.subtree s).tail
  -- every record of the walk lives, so `node?` keeps each
  have hnlt : ¬((t.subtree s).tail.filterMap t.node?).length < (t.subtree s).tail.length := by
    rw [List.length_filterMap_lt_length_iff_exists]
    rintro ⟨c, hc, hnone⟩
    obtain ⟨k, hk⟩ := (mem_subtree hw hs).1 (List.mem_of_mem_tail hc)
    have hlive := hk.live hs
    rw [node?_eq, Option.map_eq_none_iff] at hnone
    rw [live_eq, hnone] at hlive
    cases hlive
  omega

/-! ## Dropping and freeing the records of the subtree -/

/-- Dropping indexed records, each once, takes one index entry for each. -/
theorem size_index_foldl_drop {L : List Stamp} {t : Tree α} (ht : t.IndexSound) (hnodup : L.Nodup)
    (hidx : ∀ c ∈ L, ∃ y, t.lookup? y = some c) :
    (L.foldl drop t).index.size + L.length = t.index.size := by
  induction L generalizing t with
  | nil => rfl
  | cons c L ih =>
    obtain ⟨hcL, hnodup⟩ := List.nodup_cons.1 hnodup
    rcases drop_eq ht c with ⟨y, hy, hd⟩ | ⟨hnone, -⟩
    · -- the other records keep their index entries
      have hrest : ∀ c' ∈ L, ∃ y', (t.drop c).lookup? y' = some c' := by
        intro c' hc'
        obtain ⟨y', hy'⟩ := hidx c' (List.mem_cons_of_mem c hc')
        have hne : t.lookup? y' ≠ some c := by
          rw [hy']
          exact fun h => hcL (Option.some.inj h ▸ hc')
        exact ⟨y', by rw [lookup?_drop ht, if_neg hne, hy']⟩
      have hsome : (t.index.get? y).isSome := by
        rw [show t.index.get? y = some c from hy]
        rfl
      rw [List.foldl_cons, List.length_cons, ← Nat.add_assoc, ih (ht.drop c) hnodup hrest, hd]
      exact ShardedMap.size_erase_add_one hsome
    · obtain ⟨y, hy⟩ := hidx c List.mem_cons_self
      exact absurd hy (hnone y)

/-- Releasing records, each once, that live and that no holder keeps gives each back to the
spare pool. -/
theorem spare_foldl_release_of_free {L : List Stamp} {t : Tree α} (hnodup : L.Nodup)
    (hfree : ∀ c ∈ L, t.live c ∧ t.held c = false) :
    (L.foldl release t).spare = (L.map fun _ => ()).foldl Pool.give t.spare := by
  induction L generalizing t with
  | nil => rfl
  | cons c L ih =>
    obtain ⟨hcL, hnodup⟩ := List.nodup_cons.1 hnodup
    obtain ⟨hlive, hheld⟩ := hfree c List.mem_cons_self
    -- releasing `c` leaves the others live and unheld
    have hrest : ∀ c' ∈ L, (t.release c).live c' ∧ (t.release c).held c' = false := by
      intro c' hc'
      have hne : c' ≠ c := fun h => hcL (h ▸ hc')
      obtain ⟨hlive', hheld'⟩ := hfree c' (List.mem_cons_of_mem c hc')
      refine ⟨?_, by rw [held_release_of_ne t hne]; exact hheld'⟩
      rw [live_eq, records_release, if_neg fun h => hne h.1, ← live_eq]
      exact hlive'
    rw [List.foldl_cons, ih hnodup hrest, spare_release, if_pos (by simp [hlive, hheld])]
    rfl

/-- Erasing a subtree none of whose records the root slot holds frees each of them once. -/
theorem WellFormed.spare_eraseSubtree {t : Tree α} (hw : t.WellFormed) {s : Stamp} (hs : t.live s)
    (hroot : ∀ c ∈ t.subtree s, t.rootSlot ≠ some c) :
    (t.eraseSubtree s).spare = ((t.subtree s).map fun _ => ()).foldl Pool.give t.spare := by
  unfold Tree.eraseSubtree
  dsimp only
  rw [spare_foldl_release_of_free (nodup_subtree hw s), spare_foldl_clearChildren, spare_foldl_drop]
  intro c hc
  refine ⟨?_, ?_⟩
  · rw [live_eq, records_foldl_clearChildren, (foldl_drop_frame _ t).1, if_pos hc,
      Option.isSome_map, ← live_eq]
    obtain ⟨k, hk⟩ := (mem_subtree hw hs).1 hc
    exact hk.live hs
  · rw [held_of_mem_erased hw.index_sound hc]
    simpa using hroot c hc

/-! ## The child lists outside the subtree -/

/-- Erasing the first pick of `p` changes nothing that `q` keeps when `q` keeps no pick of `p`. -/
theorem filter_eraseP_of_forall {β : Type} {l : List β} {p q : β → Bool}
    (h : ∀ a ∈ l, p a = true → q a = false) : (l.eraseP p).filter q = l.filter q := by
  induction l with
  | nil => rfl
  | cons a l ih =>
    by_cases hp : p a = true
    · rw [List.eraseP_cons_of_pos hp, List.filter_cons_of_neg (by simp [h a List.mem_cons_self hp])]
    · rw [List.eraseP_cons_of_neg hp, List.filter_cons, List.filter_cons,
        ih fun b hb => h b (List.mem_cons_of_mem a hb)]

/-- Keeping the elements that `p` keeps and then their images under `f` is keeping the images
that `q` keeps, when `p` and `q` agree along `f`. -/
theorem filterMap_filter_of_agree {β γ : Type} {l : List β} {f : β → Option γ} {p : β → Bool}
    {q : γ → Bool} (h : ∀ a ∈ l, ∀ b, f a = some b → q b = p a) :
    (l.filter p).filterMap f = (l.filterMap f).filter q := by
  induction l with
  | nil => rfl
  | cons a l ih =>
    have ih' := ih fun a' ha' => h a' (List.mem_cons_of_mem a ha')
    cases hf : f a with
    | none =>
      by_cases hp : p a = true
      · rw [List.filter_cons_of_pos hp, List.filterMap_cons_none hf, List.filterMap_cons_none hf,
          ih']
      · rw [List.filter_cons_of_neg hp, List.filterMap_cons_none hf, ih']
    | some b =>
      have hqb := h a List.mem_cons_self b hf
      by_cases hp : p a = true
      · rw [List.filter_cons_of_pos hp, List.filterMap_cons_some hf, List.filterMap_cons_some hf,
          List.filter_cons_of_pos (by rw [hqb, hp]), ih']
      · rw [List.filter_cons_of_neg hp, List.filterMap_cons_some hf,
          List.filter_cons_of_neg (by rw [hqb]; exact hp), ih']

/-- After unlinking `x` and emptying the root slot of its record, the root slot holds no record of
its subtree: only that record could have been there, a record below it being a live child. -/
theorem WellFormed.rootSlot_unlink_vacate_ne {t : Tree α} (hw : t.WellFormed) {x : Bytes}
    {s c : Stamp} (hx : t.lookup? x = some s) (hc : c ∈ t.subtree s) :
    ((t.unlink x).vacate s).rootSlot ≠ some c := by
  rw [rootSlot_vacate, rootSlot_unlink]
  split
  · intro hnone
    cases hnone
  · rename_i hne
    obtain ⟨k, hk⟩ := (mem_subtree hw (hw.index_sound.live hx)).1 hc
    cases k with
    | zero =>
      rw [Below.zero_iff.1 hk]
      exact hne
    | succ k =>
      obtain ⟨q, -, hcq⟩ := hk.last
      exact fun hroot => hw.liveForest.root_no_parent c q hroot hcq

/-- Removing `x` leaves a record outside its subtree its live children but the record of `x`, in
their order. -/
theorem WellFormed.liveChildren_remove {t : Tree α} (hw : t.WellFormed) {x : Bytes} {s p : Stamp}
    (hx : t.lookup? x = some s) (hp : p ∉ t.subtree s) :
    (((t.unlink x).vacate s).eraseSubtree s).liveChildren p =
      (t.liveChildren p).filter (· != s) := by
  have hs := hw.index_sound.live hx
  have hw₀ := hw.unlink_vacate hx
  have hsub := hw.subtree_unlink_vacate hx
  -- a record of the subtree lives on only in the root slot, which holds none of them
  have hlive : ∀ c, (((t.unlink x).vacate s).eraseSubtree s).live c =
      (t.live c && !decide (c ∈ t.subtree s)) := by
    intro c
    rw [Bool.eq_iff_iff, live_eraseSubtree hw₀.index_sound, hsub, live_vacate, live_unlink]
    by_cases hc : c ∈ t.subtree s
    · simp [hc, hw.rootSlot_unlink_vacate_ne hx hc]
    · simp [hc]
  -- what unlinking may take off the child list of `p` is the record of `x`, erased anyway
  have hrefs : ((t.unlink x).childRefs p).filter (fun c => t.live c && !decide (c ∈ t.subtree s)) =
      (t.childRefs p).filter (fun c => t.live c && !decide (c ∈ t.subtree s)) := by
    rw [childRefs_unlink]
    split
    · refine filter_eraseP_of_forall fun c hc hid => ?_
      have hcs := hw.eq_of_hasId_of_mem_liveChildren hx
        (mem_liveChildren.2 ⟨hc, live_of_hasId hid⟩) hid
      rw [hcs]
      simp [(mem_subtree hw hs).2 ⟨0, .refl s⟩]
    · rfl
  rw [liveChildren_eq, liveChildren_eq, childRefs_eraseSubtree hw₀.index_sound, hsub, if_neg hp,
    childRefs_vacate, List.filter_congr fun c _ => hlive c, hrefs, List.filter_filter]
  refine List.filter_congr fun c hc => ?_
  cases hc' : t.live c
  · simp
  · -- a live child of `p` lies in the subtree only if it is the record of `x`
    have hmem := hw.mem_subtree_iff_of_mem_liveChildren hs hp (mem_liveChildren.2 ⟨hc, hc'⟩)
    rw [Bool.true_and, Bool.and_true]
    by_cases hcs : c = s
    · rw [decide_eq_true (hmem.2 hcs), hcs, bne_self_eq_false]
      rfl
    · rw [decide_eq_false fun h => hcs (hmem.1 h), bne_iff_ne.2 hcs]
      rfl

/-- A live child whose node carries the id `x` is the record of `x`, and no other live child is. -/
theorem WellFormed.id_bne_eq_of_mem_liveChildren {t : Tree α} (hw : t.WellFormed) {x : Bytes}
    {s p c : Stamp} {m : Node α} (hx : t.lookup? x = some s) (hc : c ∈ t.liveChildren p)
    (hm : t.node? c = some m) : (m.id != x) = (c != s) := by
  by_cases hid : m.id = x
  · have hcs := hw.eq_of_hasId_of_mem_liveChildren hx hc (hasId_iff.2 ⟨m, hm, hid⟩)
    rw [hid, hcs, bne_self_eq_false, bne_self_eq_false]
  · have hcs : c ≠ s := by
      rintro rfl
      obtain ⟨m', hm', hid'⟩ := hasId_iff.1 (hw.index_sound x c hx)
      rw [hm, Option.some.injEq] at hm'
      exact hid (hm' ▸ hid')
    rw [bne_iff_ne.2 hid, bne_iff_ne.2 hcs]

/-- Removing `x` leaves the node of every record outside its subtree. -/
theorem WellFormed.node?_remove_of_not_mem {t : Tree α} (hw : t.WellFormed) {x : Bytes}
    {s c : Stamp} (hx : t.lookup? x = some s) (hc : c ∉ t.subtree s) :
    (((t.unlink x).vacate s).eraseSubtree s).node? c = t.node? c := by
  rw [node?_eraseSubtree (hw.unlink_vacate hx).index_sound, hw.subtree_unlink_vacate hx,
    if_neg fun h => hc h.1, node?_vacate, node?_unlink]

/-- Removing `x` leaves a record outside its subtree the nodes of its live children but the node of
`x`, in their order. -/
theorem WellFormed.childNodes_remove {t : Tree α} (hw : t.WellFormed) {x : Bytes} {s p : Stamp}
    (hx : t.lookup? x = some s) (hp : p ∉ t.subtree s) :
    ((((t.unlink x).vacate s).eraseSubtree s).liveChildren p).filterMap
        (((t.unlink x).vacate s).eraseSubtree s).node? =
      ((t.liveChildren p).filterMap t.node?).filter fun m => m.id != x := by
  -- the children that stay lie outside the subtree, where the nodes are as they were
  have hnode : ∀ c ∈ (t.liveChildren p).filter (· != s),
      (((t.unlink x).vacate s).eraseSubtree s).node? c = t.node? c := by
    intro c hc
    obtain ⟨hcp, hcs⟩ := List.mem_filter.1 hc
    refine hw.node?_remove_of_not_mem hx fun h => bne_iff_ne.1 hcs ?_
    exact (hw.mem_subtree_iff_of_mem_liveChildren (hw.index_sound.live hx) hp hcp).1 h
  rw [hw.liveChildren_remove hx hp, List.filterMap_congr hnode]
  exact filterMap_filter_of_agree fun c hc m hm => hw.id_bne_eq_of_mem_liveChildren hx hc hm

/-! ## Removal -/

/-- What removing `x` from `t` leaves in `t'`, `ds` being the descendants of `x` in `t`. -/
structure TakesSubtree (t t' : Tree α) (x : Bytes) (ds : List (Node α)) : Prop where
  /-- The index entries of `x` and of its descendants go, and no other. -/
  lookup?_eq : ∀ y, t'.lookup? y = if y = x ∨ y ∈ ds.map (·.id) then none else t.lookup? y
  /-- The same ids lose their chains, and no other. -/
  chain?_eq : ∀ y,
    t'.chains.chain? y = if y = x ∨ y ∈ ds.map (·.id) then none else t.chains.chain? y
  /-- The counter falls by one for each of them. -/
  size_eq : t.size = t'.size + (1 + ds.length)
  /-- Each of their records goes to the spare pool while it has room. -/
  idleRecords_eq : t'.idleRecords = min spareRetain (t.idleRecords + (1 + ds.length))
  /-- The root slot empties when it held the record of `x`, and only then. -/
  rootSlot_eq : t'.rootSlot = if t.rootSlot = t.lookup? x then none else t.rootSlot
  /-- An id still indexed keeps its node, its chain, and its children but `x`, in their order. -/
  kept : ∀ y, t'.contains y = true →
    t'.find? y = t.find? y ∧ t'.chains.chain? y = t.chains.chain? y ∧
      t'.children? y = (t.children? y).map fun cs => cs.filter fun m => m.id != x

/-- Removing an indexed id from a well-formed tree, whose counter runs `k` ahead of its index and
whose spare pool keeps its bound, succeeds and takes exactly the subtree at the id's record. -/
theorem WellFormed.remove_takesSubtree {t : Tree α} (hw : t.WellFormed) {k : Nat}
    (hk : t.count = t.index.size + k) (hsp : t.SpareBounded) {x : Bytes} {s : Stamp}
    (hx : t.lookup? x = some s) :
    (t.remove x).1 = .ok () ∧
      t.descendants? x = some (Node.sortById ((t.subtree s).tail.filterMap t.node?)) ∧
      TakesSubtree t (t.remove x).2 x (Node.sortById ((t.subtree s).tail.filterMap t.node?)) := by
  have hs := hw.index_sound.live hx
  have hw₀ := hw.unlink_vacate hx
  have hsub := hw.subtree_unlink_vacate hx
  -- unlinking and emptying the root slot touch no index entry
  have hlookup₀ : ∀ y, ((t.unlink x).vacate s).lookup? y = t.lookup? y := fun y => by
    simp only [lookup?, index_vacate, index_unlink]
  have hremoved := hw.exists_mem_subtree_iff hx
  -- the walk lists the record of `x` and then one record for each descendant
  have hlength :
      (t.subtree s).length = 1 + (Node.sortById ((t.subtree s).tail.filterMap t.node?)).length := by
    have hpos : 0 < (t.subtree s).length := by
      rw [subtree_eq_cons hs, List.length_cons]
      exact Nat.succ_pos _
    rw [(Node.perm_sortById _).length_eq, hw.length_filterMap_node?_tail_subtree hs]
    omega
  rw [remove_of_lookup hx]
  refine ⟨rfl, by rw [descendants?, hx]; rfl, ?_⟩
  generalize Node.sortById ((t.subtree s).tail.filterMap t.node?) = ds at hremoved hlength ⊢
  have hlookup : ∀ y, (((t.unlink x).vacate s).eraseSubtree s).lookup? y =
      if y = x ∨ y ∈ ds.map (·.id) then none else t.lookup? y := by
    intro y
    rw [lookup?_eraseSubtree hw₀.index_sound, hsub]
    simp only [hlookup₀, hremoved]
  have hchain : ∀ y, (((t.unlink x).vacate s).eraseSubtree s).chains.chain? y =
      if y = x ∨ y ∈ ds.map (·.id) then none else t.chains.chain? y := by
    intro y
    rw [chain?_eraseSubtree hw₀.index_sound, hsub]
    simp only [hlookup₀, hremoved, chains_vacate, chains_unlink]
  refine ⟨hlookup, hchain, ?size, ?idle, ?root, ?kept⟩
  case size =>
    -- every record of the walk is indexed, so each drop takes one index entry
    have hidx : ∀ c ∈ t.subtree s, ∃ y, ((t.unlink x).vacate s).lookup? y = some c := by
      intro c hc
      obtain ⟨y, hy⟩ := hw.index_sound.indexed_iff.1 (hw.indexed_of_mem_subtree hx hc)
      exact ⟨y, (hlookup₀ y).trans hy⟩
    have hdrop := size_index_foldl_drop hw₀.index_sound (nodup_subtree hw s) hidx
    rw [index_vacate, index_unlink] at hdrop
    have hcount := count_remove hk x
    rw [remove_of_lookup hx, index_eraseSubtree, hsub] at hcount
    unfold size
    omega
  case idle =>
    -- no record of the walk is in the root slot any more, so each is freed
    have hspare := hw₀.spare_eraseSubtree (by rw [live_vacate, live_unlink]; exact hs)
      (fun c hc => hw.rootSlot_unlink_vacate_ne hx (by rwa [hsub] at hc))
    have hle : t.spare.idle.length ≤ t.spare.retain := by
      rw [hsp.1]
      exact hsp.2
    unfold idleRecords Pool.idleCount
    rw [hspare, hsub, spare_vacate, spare_unlink, Pool.length_idle_foldl_give _ _ hle,
      List.length_map, hsp.1, hlength]
  case root =>
    rw [rootSlot_eraseSubtree, rootSlot_vacate, rootSlot_unlink, hx]
  case kept =>
    intro y hy
    have hsome : ((((t.unlink x).vacate s).eraseSubtree s).lookup? y).isSome = true := hy
    rw [hlookup] at hsome
    by_cases hrem : y = x ∨ y ∈ ds.map (·.id)
    · rw [if_pos hrem] at hsome
      cases hsome
    rw [if_neg hrem] at hsome
    obtain ⟨c, hc⟩ := Option.isSome_iff_exists.1 hsome
    -- the record of `y` lies outside the subtree
    have hout : c ∉ t.subtree s := fun h => hrem ((hremoved y).1 ⟨c, h, hc⟩)
    refine ⟨?_, by rw [hchain, if_neg hrem], ?_⟩
    · unfold find?
      rw [hlookup, if_neg hrem, hc, Option.bind_some, Option.bind_some,
        hw.node?_remove_of_not_mem hx hout]
    · unfold children?
      rw [hlookup, if_neg hrem, hc, Option.map_some, Option.map_some, Option.map_some,
        hw.childNodes_remove hx hout]

/-- Removing an indexed id from any tree that a run reaches from an empty tree, duplicate ids
allowed, succeeds and takes exactly the subtree at the id's record. -/
theorem remove_takes_subtree (n : Nat) (h : 0 < n) (cs : List (Change α)) (x : Bytes)
    (hx : ((Tree.empty n h : Tree α).applyAll cs).contains x = true) :
    let t := (Tree.empty n h : Tree α).applyAll cs
    (t.remove x).1 = .ok () ∧
      ∃ ds, t.descendants? x = some ds ∧ TakesSubtree t (t.remove x).2 x ds := by
  intro t
  -- the empty tree starts the counter and the index at zero
  have hk₀ : (Tree.empty n h : Tree α).count = (Tree.empty n h : Tree α).index.size + 0 := by
    simp [Tree.empty]
  obtain ⟨s, hs⟩ := Option.isSome_iff_exists.1 (show (t.lookup? x).isSome = true from hx)
  obtain ⟨hok, hdesc, htakes⟩ := (wellFormed_applyAll n h cs).remove_takesSubtree
    ((wellFormed_empty n h).count_applyAll hk₀ cs) ((spareBounded_empty n h).applyAll cs) hs
  exact ⟨hok, _, hdesc, htakes⟩

/-- A root with the id `[2]` added twice below it: removing `[2]` takes the second record. -/
theorem remove_takes_subtree_of_duplicate :
    let t := (Tree.empty 1 (by decide) : Tree Nat).applyAll
      [.addRoot ⟨⟨[1]⟩, 0⟩, .addChild ⟨⟨[2]⟩, 0⟩ ⟨[1]⟩, .addChild ⟨⟨[2]⟩, 1⟩ ⟨[1]⟩]
    t.contains ⟨[2]⟩ = true ∧ (t.remove ⟨[2]⟩).1 = .ok () ∧
      ∃ ds, t.descendants? ⟨[2]⟩ = some ds ∧ TakesSubtree t (t.remove ⟨[2]⟩).2 ⟨[2]⟩ ds := by
  intro t
  have hw₀ : (Tree.empty 1 (by decide) : Tree Nat).WellFormed := wellFormed_empty 1 (by decide)
  have hw₁ := hw₀.apply (.addRoot ⟨⟨[1]⟩, 0⟩)
  have hw₂ := hw₁.apply (.addChild ⟨⟨[2]⟩, 0⟩ ⟨[1]⟩)
  -- each step adds a fresh record under its id and leaves the root's entry
  obtain ⟨-, ha₁⟩ := added_addRoot hw₀ rfl (⟨⟨[1]⟩, 0⟩ : Node Nat)
  have hp₁ : ((Tree.empty 1 (by decide) : Tree Nat).apply (.addRoot ⟨⟨[1]⟩, 0⟩)).2.lookup? ⟨[1]⟩ =
      some (Tree.empty 1 (by decide) : Tree Nat).nextStamp :=
    (ha₁.lookup?_eq _).trans (if_pos rfl)
  obtain ⟨-, ha₂⟩ := added_addChild hw₁ hp₁ (⟨⟨[2]⟩, 0⟩ : Node Nat) (by decide)
  have hp₂ : (((Tree.empty 1 (by decide) : Tree Nat).apply (.addRoot ⟨⟨[1]⟩, 0⟩)).2.apply
      (.addChild ⟨⟨[2]⟩, 0⟩ ⟨[1]⟩)).2.lookup? ⟨[1]⟩ =
      some (Tree.empty 1 (by decide) : Tree Nat).nextStamp :=
    (ha₂.lookup?_eq _).trans ((if_neg (by decide)).trans hp₁)
  obtain ⟨-, ha₃⟩ := added_addChild hw₂ hp₂ (⟨⟨[2]⟩, 1⟩ : Node Nat) (by decide)
  have hx : t.contains ⟨[2]⟩ = true := by
    have hlookup : t.lookup? ⟨[2]⟩ = some _ := (ha₃.lookup?_eq _).trans (if_pos rfl)
    show (t.lookup? ⟨[2]⟩).isSome = true
    rw [hlookup]
    rfl
  exact ⟨hx, remove_takes_subtree 1 (by decide) _ _ hx⟩

end Tree

end IndexedTree
