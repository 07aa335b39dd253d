import IndexedTree.Proofs.Tree.Steps

/-!
# The invariant of every reachable tree

`WellFormed` collects what every tree reached from an empty one satisfies, whatever changes made
it: duplicate ids, refused changes and resets included. The index maps each id to a live record
with that id; a record lives exactly while a holder keeps it; a child reference points from an
older record to a younger one, sits in one child list only, once, and never points to the root
slot's record; the chains have the same ids as the index; both maps keep their keys in the shards
their hashes pick.

Each change keeps the invariant (`WellFormed.apply`), so every run does (`WellFormed.applyAll`).
The proof goes step by step through the lemmas of `Steps`: a successful add is stated once by its
effect on the views (`Added`, shared by both adds), a change once by its possible outcomes
(`WellFormed.outcome`), and each field is then a short case analysis.
-/

namespace IndexedTree

/-- The id of the node that a change adds, if it is an add. -/
def Change.addedId? {α : Type} : Change α → Option Bytes
  | .addRoot n => some n.id
  | .addChild n _ => some n.id
  | _ => none

namespace Tree

variable {α : Type}

/-- What every tree reached from an empty tree satisfies. -/
structure WellFormed (t : Tree α) : Prop where
  /-- The index maps each id to a live record that carries that id. -/
  index_sound : t.IndexSound
  /-- The root slot holds a live record. -/
  root_live : ∀ r, t.rootSlot = some r → t.live r
  /-- A live record is held: by the root slot, or by the index entry under its id. -/
  held_of_live : ∀ s, t.live s → t.held s
  /-- Every live record was drawn before the next stamp. -/
  live_lt : ∀ s, t.live s → s < t.nextStamp
  /-- A child was drawn after its parent, and before the next stamp. -/
  ref_lt : ∀ p c, c ∈ t.childRefs p → p < c ∧ c < t.nextStamp
  /-- A child list holds its children in the order they were drawn. -/
  refs_sorted : ∀ p, (t.childRefs p).Pairwise (· < ·)
  /-- No record is the child of two records. -/
  ref_unique : ∀ p q c, c ∈ t.childRefs p → c ∈ t.childRefs q → p = q
  /-- The root slot's record is no record's child. -/
  root_not_ref : ∀ r p, t.rootSlot = some r → r ∉ t.childRefs p
  /-- An id has a chain exactly when the index holds it. -/
  chain_iff : ∀ x, (t.chains.chain? x).isSome = (t.lookup? x).isSome
  /-- The index keeps each key in the shard its hash picks. -/
  index_placed : t.index.Placed
  /-- The chains keep each key in the shard its hash picks. -/
  chains_placed : t.chains.chains.Placed

theorem WellFormed.exists_lookup?_of_chain? {t : Tree α} (hw : t.WellFormed) {x : Bytes}
    {l : List Bytes} (hl : t.chains.chain? x = some l) : ∃ s, t.lookup? x = some s :=
  Option.isSome_iff_exists.1 (by rw [← hw.chain_iff x, hl]; rfl)

theorem WellFormed.exists_chain?_of_lookup? {t : Tree α} (hw : t.WellFormed) {x : Bytes}
    {s : Stamp} (hx : t.lookup? x = some s) : ∃ l, t.chains.chain? x = some l :=
  Option.isSome_iff_exists.1 (by rw [hw.chain_iff x, hx]; rfl)

/-! ## Trees with the same records -/

section Congr

variable {t t' : Tree α}

theorem live_congr (hrec : ∀ c : Stamp, t'.records[c]? = t.records[c]?) : t'.live = t.live := by
  funext c
  rw [live_eq, live_eq, hrec]

theorem childRefs_congr (hrec : ∀ c : Stamp, t'.records[c]? = t.records[c]?) :
    t'.childRefs = t.childRefs := by
  funext c
  simp only [childRefs, hrec]

theorem hasId_congr (hrec : ∀ c : Stamp, t'.records[c]? = t.records[c]?) : t'.hasId = t.hasId := by
  funext x c
  simp only [hasId, node?_eq, hrec]

theorem held_congr (hrec : ∀ c : Stamp, t'.records[c]? = t.records[c]?) (hi : t'.index = t.index)
    (hr : t'.rootSlot = t.rootSlot) : t'.held = t.held := by
  funext c
  simp only [held, indexed, node?_eq, hrec, hi, hr]

/-- A tree with the records, index, chains and root slot of a well-formed tree, and a next stamp
no smaller, is well-formed. -/
theorem WellFormed.of_records_eq (hw : t.WellFormed) (hrec : ∀ c : Stamp, t'.records[c]? = t.records[c]?)
    (hi : t'.index = t.index) (hc : t'.chains = t.chains) (hr : t'.rootSlot = t.rootSlot)
    (hn : t.nextStamp ≤ t'.nextStamp) : t'.WellFormed := by
  have hlive := live_congr hrec
  have hrefs := childRefs_congr hrec
  have hheld := held_congr hrec hi hr
  have hid := hasId_congr hrec
  refine
    { index_sound := fun x s hx => ?_
      root_live := fun r h => ?_
      held_of_live := fun s h => ?_
      live_lt := fun s h => ?_
      ref_lt := fun p c h => ?_
      refs_sorted := fun p => ?_
      ref_unique := fun p q c h h' => ?_
      root_not_ref := fun r p h => ?_
      chain_iff := fun x => ?_
      index_placed := ?_
      chains_placed := ?_ }
  all_goals simp only [lookup?, hlive, hrefs, hheld, hid, hi, hc, hr] at *
  · exact hw.index_sound x s hx
  · exact hw.root_live r h
  · exact hw.held_of_live s h
  · exact Nat.lt_of_lt_of_le (hw.live_lt s h) hn
  · exact ⟨(hw.ref_lt p c h).1, Nat.lt_of_lt_of_le (hw.ref_lt p c h).2 hn⟩
  · exact hw.refs_sorted p
  · exact hw.ref_unique p q c h h'
  · exact hw.root_not_ref r p h
  · exact hw.chain_iff x
  · exact hw.index_placed
  · exact hw.chains_placed

end Congr

/-! ## The empty tree and `reset` -/

theorem wellFormed_empty (n : Nat) (h : 0 < n) : (Tree.empty n h : Tree α).WellFormed where
  index_sound x s hx := by simp [lookup?, Tree.empty] at hx
  root_live r hr := by simp [Tree.empty] at hr
  held_of_live s hs := by simp [live_eq, Tree.empty] at hs
  live_lt s hs := by simp [live_eq, Tree.empty] at hs
  ref_lt p c hc := by simp [childRefs, Tree.empty] at hc
  refs_sorted p := by simp [childRefs, Tree.empty]
  ref_unique p q c hc := by simp [childRefs, Tree.empty] at hc
  root_not_ref r p hr := by simp [Tree.empty] at hr
  chain_iff x := by simp [lookup?, Tree.empty]
  index_placed := ShardedMap.placed_empty n h
  chains_placed := ShardedMap.placed_empty n h

theorem wellFormed_reset (t : Tree α) : t.reset.WellFormed where
  index_sound x s hx := by simp [lookup?, Tree.reset] at hx
  root_live r hr := by simp [Tree.reset] at hr
  held_of_live s hs := by simp [live_eq, Tree.reset] at hs
  live_lt s hs := by simp [live_eq, Tree.reset] at hs
  ref_lt p c hc := by simp [childRefs, Tree.reset] at hc
  refs_sorted p := by simp [childRefs, Tree.reset]
  ref_unique p q c hc := by simp [childRefs, Tree.reset] at hc
  root_not_ref r p hr := by simp [Tree.reset] at hr
  chain_iff x := by simp [lookup?, Tree.reset, Ancestry.clear, Ancestry.chain?]
  index_placed := ShardedMap.placed_clear _
  chains_placed := ShardedMap.placed_clear _

/-! ## Adds that succeed

A root add and an add under a parent that succeed do the same thing, but for where the new record
hangs: `Added` says what, and `WellFormed.of_added` shows once that it keeps the invariant. -/

/-- What an add that succeeds does to `t`: it draws the record `t.nextStamp` for `n` with no
children, stores it under `n.id`, which frees the record that `n.id` held unless the root slot
holds it, gives `n.id` the chain `chain`, and hangs the new record below `parent`, or in the empty
root slot when there is no parent. -/
structure Added (t t' : Tree α) (n : Node α) (parent : Option Stamp) (chain : List Bytes) :
    Prop where
  records : ∀ c : Stamp, t'.records[c]? =
    if c = t.nextStamp then some ⟨n, .empty⟩
    else if t.lookup? n.id = some c ∧ t.rootSlot ≠ some c then none
    else if parent = some c then
      t.records[c]?.map fun r => { r with children := r.children.append t.nextStamp }
    else t.records[c]?
  index : t'.index = t.index.insert n.id t.nextStamp
  chains : t'.chains.chains = t.chains.chains.insert n.id chain
  rootSlot : t'.rootSlot = if parent = none then some t.nextStamp else t.rootSlot
  count : t'.count = t.count + 1
  nextStamp : t'.nextStamp = t.nextStamp + 1
  parent_indexed : ∀ p, parent = some p → ∃ x, t.lookup? x = some p ∧ x ≠ n.id
  root_empty : parent = none → t.rootSlot = none

theorem WellFormed.live_nextStamp {t : Tree α} (hw : t.WellFormed) : t.live t.nextStamp = false :=
  Bool.eq_false_iff.2 fun h => Nat.lt_irrefl _ (hw.live_lt _ h)

theorem WellFormed.records_nextStamp {t : Tree α} (hw : t.WellFormed) :
    t.records[t.nextStamp]? = none := by
  have := hw.live_nextStamp
  rwa [live_eq, Option.isSome_eq_false_iff, Option.isNone_iff_eq_none] at this

theorem WellFormed.lookup_ne_nextStamp {t : Tree α} (hw : t.WellFormed) (x : Bytes) :
    t.lookup? x ≠ some t.nextStamp := fun h =>
  Bool.false_ne_true (hw.live_nextStamp ▸ hw.index_sound.live h)

/-- Drawing a record keeps the index sound: no index entry names the record drawn. -/
theorem WellFormed.indexSound_draw {t : Tree α} (hw : t.WellFormed) (n : Node α) :
    (t.draw n).2.IndexSound := by
  intro y s hy
  have hs : s ≠ t.nextStamp := fun h => hw.lookup_ne_nextStamp y (h ▸ hy)
  have := hw.index_sound y s hy
  simpa [hasId, node?, records_draw, hs] using this

/-- A successful root add is `Added` with no parent and the empty chain. -/
theorem added_addRoot {t : Tree α} (hw : t.WellFormed) (hr : t.rootSlot = none) (n : Node α) :
    (t.addRoot n).1 = .ok () ∧ Added t (t.addRoot n).2 n none [] := by
  have heq : t.addRoot n = (.ok (),
      let t1 := ({ (t.draw n).2 with rootSlot := some t.nextStamp } : Tree α).store n.id t.nextStamp
      { t1 with chains := t1.chains.attachRoot n.id, count := t1.count + 1 }) := by
    unfold addRoot
    simp only [draw_fst, rootSlot_draw, hr]
  rw [heq]
  -- the drawn record is in the root slot, so the store sees the index of `t` and frees the old
  -- record of `n.id`
  set t1 : Tree α := { (t.draw n).2 with rootSlot := some t.nextStamp } with ht1
  have hsound : t1.IndexSound := hw.indexSound_draw n
  have hl1 : ∀ y, t1.lookup? y = t.lookup? y := fun _ => rfl
  have hrec1 : ∀ c : Stamp, t1.records[c]? = (t.draw n).2.records[c]? := fun _ => rfl
  have hr1 : t1.rootSlot = some t.nextStamp := rfl
  refine ⟨rfl, ⟨fun c => ?_, ?_, ?_, ?_, ?_, ?_, ?_, ?_⟩⟩
  · simp only
    rw [records_store hsound (hw.lookup_ne_nextStamp n.id), hl1, hrec1, records_draw, hr1]
    by_cases hc : c = t.nextStamp
    · subst hc
      simp [hw.lookup_ne_nextStamp]
    · simp [hc, hr, Ne.symm hc]
  · simp [ht1]
  · simp [ht1, Ancestry.attachRoot]
  · simp [ht1]
  · simp [ht1]
  · simp [ht1]
  · simp
  · intro _
    exact hr

/-- The writes of an add under the parent `p` of id `x` are `Added` below `p`, with the parent's
id followed by its chain. -/
theorem added_attachChild {t : Tree α} (hw : t.WellFormed) {x : Bytes} {p : Stamp}
    (hp : t.lookup? x = some p) (n : Node α) (hx : n.id ≠ x) :
    Added t (t.attachChild n x p).2 n (some p) (x :: (t.chains.chain? x).getD []) := by
  have heq : (t.attachChild n x p).2 =
      let t1 := ({ (t.draw n).2 with chains := t.chains.attach n.id x, count := t.count + 1 } :
        Tree α).store n.id t.nextStamp
      t1.modifyChildren p (·.append t.nextStamp) := rfl
  rw [heq]
  set t1 : Tree α := { (t.draw n).2 with chains := t.chains.attach n.id x, count := t.count + 1 }
    with ht1
  have hsound : t1.IndexSound := hw.indexSound_draw n
  have hpn : p ≠ t.nextStamp := fun h => hw.lookup_ne_nextStamp x (h ▸ hp)
  -- the parent is not the record that the store frees: that one carries `n.id`
  have hpold : t.lookup? n.id ≠ some p := fun h => hx (hw.index_sound.id_eq h hp)
  have hl1 : ∀ y, t1.lookup? y = t.lookup? y := fun _ => rfl
  have hrec1 : ∀ c : Stamp, t1.records[c]? = (t.draw n).2.records[c]? := fun _ => rfl
  have hr1 : t1.rootSlot = t.rootSlot := rfl
  refine ⟨fun c => ?_, ?_, ?_, ?_, ?_, ?_, ?_, ?_⟩
  · simp only
    rw [records_modifyChildren, records_store hsound (hw.lookup_ne_nextStamp n.id), hl1, hrec1,
      records_draw, hr1]
    by_cases hc : c = t.nextStamp
    · subst hc
      simp [hw.lookup_ne_nextStamp, Ne.symm hpn]
    · by_cases hcp : c = p
      · subst hcp
        simp [hc, hpold]
      · simp [hc, hcp, Ne.symm hcp]
  · simp [ht1]
  · simp [ht1, Ancestry.attach, Ancestry.chain?]
  · simp [ht1]
  · simp [ht1]
  · simp [ht1]
  · intro q hq
    cases hq
    exact ⟨x, hp, Ne.symm hx⟩
  · intro h
    cases h

namespace Added

variable {t t' : Tree α} {n : Node α} {parent : Option Stamp} {chain : List Bytes}

theorem lookup?_eq (ha : Added t t' n parent chain) (y : Bytes) :
    t'.lookup? y = if n.id = y then some t.nextStamp else t.lookup? y := by
  simp [lookup?, ha.index]

theorem chain?_eq (ha : Added t t' n parent chain) (y : Bytes) :
    t'.chains.chain? y = if n.id = y then some chain else t.chains.chain? y := by
  simp [Ancestry.chain?, ha.chains]

theorem node?_eq (ha : Added t t' n parent chain) (c : Stamp) :
    t'.node? c =
      if c = t.nextStamp then some n
      else if t.lookup? n.id = some c ∧ t.rootSlot ≠ some c then none
      else t.node? c := by
  simp only [Tree.node?_eq, ha.records c]
  split_ifs <;> simp [Function.comp_def]

theorem live_iff (ha : Added t t' n parent chain) (c : Stamp) :
    t'.live c ↔
      c = t.nextStamp ∨ (t.live c ∧ ¬(t.lookup? n.id = some c ∧ t.rootSlot ≠ some c)) := by
  simp only [live_eq, ha.records c]
  split_ifs <;> simp_all

/-- The parent, if any, lives and is not the record that the add frees. -/
theorem parent_live (hw : t.WellFormed) (ha : Added t t' n parent chain) {p : Stamp}
    (hp : parent = some p) : t.live p ∧ t.lookup? n.id ≠ some p := by
  obtain ⟨x, hx, hxn⟩ := ha.parent_indexed p hp
  exact ⟨hw.index_sound.live hx, fun h => hxn (hw.index_sound.id_eq hx h)⟩

theorem childRefs_eq (hw : t.WellFormed) (ha : Added t t' n parent chain) (p : Stamp) :
    t'.childRefs p =
      if p = t.nextStamp ∨ (t.lookup? n.id = some p ∧ t.rootSlot ≠ some p) then []
      else if parent = some p then t.childRefs p ++ [t.nextStamp]
      else t.childRefs p := by
  simp only [childRefs, ha.records p]
  by_cases hns : p = t.nextStamp
  · simp [hns]
  by_cases hfree : t.lookup? n.id = some p ∧ t.rootSlot ≠ some p
  · simp [hns, hfree]
  by_cases hpar : parent = some p
  · obtain ⟨hlive, -⟩ := ha.parent_live hw hpar
    obtain ⟨r, hr⟩ := Option.isSome_iff_exists.1 (by rwa [live_eq] at hlive)
    simp [hns, hfree, hpar, hr]
  · simp [hns, hfree, hpar]

/-- A reference in a child list after the add was there before, or is the new record's, in its
parent's list. -/
theorem mem_childRefs (hw : t.WellFormed) (ha : Added t t' n parent chain) {p c : Stamp}
    (h : c ∈ t'.childRefs p) : c ∈ t.childRefs p ∨ (parent = some p ∧ c = t.nextStamp) := by
  rw [ha.childRefs_eq hw] at h
  split_ifs at h with h1 h2
  · simp at h
  · rcases List.mem_append.1 h with h | h
    · exact .inl h
    · exact .inr ⟨h2, List.mem_singleton.1 h⟩
  · exact .inl h

end Added

/-- An add under the parent `p` of id `x` never backs out: its writes keep the parent's node and
the parent's index entry, so the add succeeds and leaves the tree of its writes. -/
theorem WellFormed.addChild_eq {t : Tree α} (hw : t.WellFormed) {x : Bytes} {p : Stamp}
    (hp : t.lookup? x = some p) (n : Node α) (hx : n.id ≠ x) :
    t.addChild n x = (.ok (), (t.attachChild n x p).2) := by
  have ha := added_attachChild hw hp n hx
  obtain ⟨m, hm, hid⟩ := hasId_iff.1 (hw.index_sound x p hp)
  have hpn : p ≠ t.nextStamp := fun h => hw.lookup_ne_nextStamp x (h ▸ hp)
  -- the record that the store frees carries `n.id`, so it is not the parent
  have hpold : t.lookup? n.id ≠ some p := fun h => hx (hw.index_sound.id_eq h hp)
  have hidx : (t.attachChild n x p).2.indexed p := by
    refine indexed_iff.2 ⟨m, ?_, ?_⟩
    · rw [ha.node?_eq, if_neg hpn, if_neg (fun h => hpold h.1), hm]
    · rw [ha.lookup?_eq, hid, if_neg hx, hp]
  exact addChild_of_indexed hp hx hidx

/-- An add under the parent `p` of id `x` succeeds and is `Added` below `p`. -/
theorem added_addChild {t : Tree α} (hw : t.WellFormed) {x : Bytes} {p : Stamp}
    (hp : t.lookup? x = some p) (n : Node α) (hx : n.id ≠ x) :
    (t.addChild n x).1 = .ok () ∧
      Added t (t.addChild n x).2 n (some p) (x :: (t.chains.chain? x).getD []) := by
  rw [hw.addChild_eq hp n hx]
  exact ⟨rfl, added_attachChild hw hp n hx⟩

/-- A successful add keeps a tree well-formed. -/
theorem WellFormed.of_added {t t' : Tree α} {n : Node α} {parent : Option Stamp}
    {chain : List Bytes} (hw : t.WellFormed) (ha : Added t t' n parent chain) :
    t'.WellFormed := by
  have hnsl : ∀ s, t.live s → s ≠ t.nextStamp := fun s hs h => Nat.lt_irrefl s (h ▸ hw.live_lt s hs)
  refine
    { index_sound := fun y s hy => ?_
      root_live := fun r hr => ?_
      held_of_live := fun s hs => ?_
      live_lt := fun s hs => ?_
      ref_lt := fun p c h => ?_
      refs_sorted := fun p => ?_
      ref_unique := fun p q c h h' => ?_
      root_not_ref := fun r p hr h => ?_
      chain_iff := fun y => ?_
      index_placed := ?_
      chains_placed := ?_ }
  · -- the index maps `n.id` to the new record and every other id as before
    rw [ha.lookup?_eq] at hy
    split at hy
    · rename_i hy'
      cases hy
      exact hasId_iff.2 ⟨n, by simp [ha.node?_eq], hy'⟩
    · rename_i hy'
      have hs := hnsl s (hw.index_sound.live hy)
      have hnf : t.lookup? n.id ≠ some s := fun h => hy' (hw.index_sound.id_eq h hy)
      obtain ⟨m, hm, hid⟩ := hasId_iff.1 (hw.index_sound y s hy)
      exact hasId_iff.2 ⟨m, by simp [ha.node?_eq, hs, hnf, hm], hid⟩
  · rw [ha.rootSlot] at hr
    rw [ha.live_iff]
    split at hr
    · exact .inl (Option.some.inj hr).symm
    · exact .inr ⟨hw.root_live r hr, fun h => h.2 hr⟩
  · rw [ha.live_iff] at hs
    rw [held_iff]
    rcases hs with rfl | ⟨hs, hnf⟩
    · -- the new record is indexed under `n.id`
      exact .inr (indexed_iff.2 ⟨n, by simp [ha.node?_eq], by simp [ha.lookup?_eq]⟩)
    · have hsn := hnsl s hs
      rcases held_iff.1 (hw.held_of_live s hs) with hroot | hidx
      · have : parent ≠ none := fun h => by simp [ha.root_empty h] at hroot
        exact .inl (by rw [ha.rootSlot, if_neg this, hroot])
      · obtain ⟨m, hm, hl⟩ := indexed_iff.1 hidx
        by_cases hid : n.id = m.id
        · -- the old record of `n.id` survives only in the root slot
          have hroot : t.rootSlot = some s := by
            by_contra hne
            exact hnf ⟨hid ▸ hl, hne⟩
          have : parent ≠ none := fun h => by simp [ha.root_empty h] at hroot
          exact .inl (by rw [ha.rootSlot, if_neg this, hroot])
        · refine .inr (indexed_iff.2 ⟨m, ?_, ?_⟩)
          · simp [ha.node?_eq, hsn, hnf, hm]
          · rw [ha.lookup?_eq, if_neg hid, hl]
  · rw [ha.nextStamp]
    rw [ha.live_iff] at hs
    rcases hs with rfl | ⟨hs, -⟩
    · exact Nat.lt_succ_self _
    · exact Nat.lt_succ_of_lt (hw.live_lt s hs)
  · rw [ha.nextStamp]
    rcases ha.mem_childRefs hw h with h | ⟨hpar, rfl⟩
    · exact ⟨(hw.ref_lt p c h).1, Nat.lt_succ_of_lt (hw.ref_lt p c h).2⟩
    · exact ⟨hw.live_lt p (ha.parent_live hw hpar).1, Nat.lt_succ_self _⟩
  · rw [ha.childRefs_eq hw]
    split_ifs
    · exact List.Pairwise.nil
    · -- the new record comes after every child that was there
      refine List.pairwise_append.2 ⟨hw.refs_sorted p, List.pairwise_singleton _ _, ?_⟩
      intro a ha' b hb
      rw [List.mem_singleton.1 hb]
      exact (hw.ref_lt p a ha').2
    · exact hw.refs_sorted p
  · rcases ha.mem_childRefs hw h with h | ⟨hp, rfl⟩ <;>
      rcases ha.mem_childRefs hw h' with h' | ⟨hq, hq'⟩
    · exact hw.ref_unique p q c h h'
    · exact absurd (hw.ref_lt p c h).2 (by rw [hq']; exact Nat.lt_irrefl _)
    · exact absurd (hw.ref_lt q _ h').2 (Nat.lt_irrefl _)
    · rw [hp] at hq
      exact Option.some.inj hq
  · rw [ha.rootSlot] at hr
    rcases ha.mem_childRefs hw h with h | ⟨hpar, rfl⟩
    · split at hr
      · cases hr
        exact Nat.lt_irrefl _ (hw.ref_lt p _ h).2
      · exact hw.root_not_ref r p hr h
    · rw [if_neg (by simp [hpar])] at hr
      exact Nat.lt_irrefl _ (hw.live_lt _ (hw.root_live _ hr))
  · rw [ha.chain?_eq, ha.lookup?_eq]
    split
    · rfl
    · exact hw.chain_iff y
  · rw [ha.index]
    exact hw.index_placed.insert _ _
  · rw [ha.chains]
    exact hw.chains_placed.insert _ _

/-! ## Refused root adds -/

/-- Nothing holds the record that a draw takes: the root slot holds an older one, and the index
only live ones. -/
theorem WellFormed.held_draw_nextStamp {t : Tree α} (hw : t.WellFormed) (n : Node α) :
    (t.draw n).2.held t.nextStamp = false := by
  rw [Bool.eq_false_iff]
  intro hh
  rcases held_iff.1 hh with hroot | hidx
  · rw [rootSlot_draw] at hroot
    exact Nat.lt_irrefl _ (hw.live_lt _ (hw.root_live _ hroot))
  · obtain ⟨m, -, hl⟩ := indexed_iff.1 hidx
    exact hw.lookup_ne_nextStamp m.id hl

/-- A root add on a tree whose root slot is taken is refused, and the record it draws goes back
at once: the records, the index, the chains and the counter are as they were. -/
theorem addRoot_of_taken {t : Tree α} (hw : t.WellFormed) {r : Stamp} (hr : t.rootSlot = some r)
    (n : Node α) :
    (t.addRoot n).1 = .error .invalidOperation ∧
      (∀ c : Stamp, (t.addRoot n).2.records[c]? = t.records[c]?) ∧
      (t.addRoot n).2.index = t.index ∧ (t.addRoot n).2.chains = t.chains ∧
      (t.addRoot n).2.rootSlot = t.rootSlot ∧ (t.addRoot n).2.count = t.count ∧
      (t.addRoot n).2.nextStamp = t.nextStamp + 1 := by
  rw [addRoot_of_rootSlot hr]
  have hfree := hw.held_draw_nextStamp n
  refine ⟨rfl, fun c => ?_, by simp, by simp, by simp, by simp, by simp⟩
  rw [records_release, hfree, records_draw]
  by_cases hc : c = t.nextStamp
  · subst hc
    simp [hw.records_nextStamp]
  · simp [hc]

/-! ## `remove` -/

/-- Taking children out of one child list keeps a tree well-formed. -/
theorem WellFormed.modifyChildren {t : Tree α} (hw : t.WellFormed) (p : Stamp)
    {f : ChildList Stamp → ChildList Stamp} (hf : ∀ l, (f l).toList.Sublist l.toList) :
    (t.modifyChildren p f).WellFormed := by
  have hlive : (t.modifyChildren p f).live = t.live := funext (live_modifyChildren t p f)
  have hnode : (t.modifyChildren p f).node? = t.node? := funext (node?_modifyChildren t p f)
  have hsub := childRefs_modifyChildren_sublist t p hf
  have hheld : (t.modifyChildren p f).held = t.held := by
    funext c
    simp only [held, indexed, hnode, rootSlot_modifyChildren, index_modifyChildren]
  have hid : (t.modifyChildren p f).hasId = t.hasId := by
    funext x c
    simp only [hasId, hnode]
  refine
    { index_sound := fun x s hx => ?_
      root_live := fun r hr => ?_
      held_of_live := fun s hs => ?_
      live_lt := fun s hs => ?_
      ref_lt := fun q c h => hw.ref_lt q c ((hsub q).subset h)
      refs_sorted := fun q => (hw.refs_sorted q).sublist (hsub q)
      ref_unique := fun q q' c h h' => hw.ref_unique q q' c ((hsub q).subset h) ((hsub q').subset h')
      root_not_ref := fun r q hr h => hw.root_not_ref r q hr ((hsub q).subset h)
      chain_iff := hw.chain_iff
      index_placed := hw.index_placed
      chains_placed := hw.chains_placed }
  · rw [hid]; exact hw.index_sound x s hx
  · rw [hlive]; exact hw.root_live r hr
  · rw [hlive] at hs; rw [hheld]; exact hw.held_of_live s hs
  · rw [hlive] at hs; exact hw.live_lt s hs

theorem WellFormed.unlink {t : Tree α} (hw : t.WellFormed) (x : Bytes) :
    (t.unlink x).WellFormed := by
  unfold Tree.unlink
  split
  · exact hw.modifyChildren _ fun l => by simpa using List.eraseP_sublist
  · exact hw

/-- Emptying the root slot keeps a tree well-formed when the index holds the root's record. -/
theorem WellFormed.vacate {t : Tree α} (hw : t.WellFormed) {s : Stamp} (hs : t.indexed s) :
    (t.vacate s).WellFormed := by
  unfold Tree.vacate
  split
  · rename_i hroot
    refine
      { index_sound := hw.index_sound
        root_live := fun r hr => by cases hr
        held_of_live := fun c hc => ?_
        live_lt := hw.live_lt
        ref_lt := hw.ref_lt
        refs_sorted := hw.refs_sorted
        ref_unique := hw.ref_unique
        root_not_ref := fun r p hr => by cases hr
        chain_iff := hw.chain_iff
        index_placed := hw.index_placed
        chains_placed := hw.chains_placed }
    -- the record the root slot let go of is still held by the index
    rcases held_iff.1 (hw.held_of_live c hc) with h | h
    · rw [hroot, Option.some.injEq] at h
      subst h
      exact held_iff.2 (.inr hs)
    · exact held_iff.2 (.inr h)
  · exact hw

/-- Erasing a subtree keeps a tree well-formed. -/
theorem WellFormed.eraseSubtree {t : Tree α} (hw : t.WellFormed) (s : Stamp) :
    (t.eraseSubtree s).WellFormed := by
  have ht := hw.index_sound
  have hsub : ∀ c, ((t.eraseSubtree s).childRefs c).Sublist (t.childRefs c) := by
    intro c
    rw [childRefs_eraseSubtree ht]
    split
    · exact List.nil_sublist _
    · exact List.Sublist.refl _
  obtain ⟨hip, hcp⟩ := placed_foldl_drop (t.subtree s) ht hw.index_placed hw.chains_placed
  refine
    { index_sound := fun x c hx => ?_
      root_live := fun r hr => ?_
      held_of_live := fun c hc => ?_
      live_lt := fun c hc => ?_
      ref_lt := fun q c h => by
        rw [nextStamp_eraseSubtree]; exact hw.ref_lt q c ((hsub q).subset h)
      refs_sorted := fun q => (hw.refs_sorted q).sublist (hsub q)
      ref_unique := fun q q' c h h' => hw.ref_unique q q' c ((hsub q).subset h) ((hsub q').subset h')
      root_not_ref := fun r q hr h => ?_
      chain_iff := fun x => ?_
      index_placed := by rw [index_eraseSubtree]; exact hip
      chains_placed := by rw [chains_eraseSubtree]; exact hcp }
  · -- an entry that survives holds a record outside the subtree, which keeps its node
    rw [lookup?_eraseSubtree ht] at hx
    split at hx
    · cases hx
    · rename_i hnot
      have hc : c ∉ t.subtree s := fun hc => hnot ⟨c, hc, hx⟩
      obtain ⟨m, hm, hid⟩ := hasId_iff.1 (ht x c hx)
      exact hasId_iff.2 ⟨m, by rw [node?_eraseSubtree ht]; simp [hc, hm], hid⟩
  · rw [rootSlot_eraseSubtree] at hr
    rw [live_eraseSubtree ht]
    exact ⟨hw.root_live r hr, fun h => h.2 hr⟩
  · rw [live_eraseSubtree ht] at hc
    obtain ⟨hc, hkeep⟩ := hc
    rw [held_iff, rootSlot_eraseSubtree]
    by_cases hin : c ∈ t.subtree s
    · exact .inl (by by_contra h; exact hkeep ⟨hin, h⟩)
    · rcases held_iff.1 (hw.held_of_live c hc) with h | h
      · exact .inl h
      · obtain ⟨m, hm, hl⟩ := indexed_iff.1 h
        refine .inr (indexed_iff.2 ⟨m, ?_, ?_⟩)
        · rw [node?_eraseSubtree ht]; simp [hin, hm]
        · rw [lookup?_eraseSubtree ht, if_neg, hl]
          rintro ⟨c', hc', hl'⟩
          rw [hl, Option.some.injEq] at hl'
          exact hin (hl' ▸ hc')
  · rw [live_eraseSubtree ht] at hc
    rw [nextStamp_eraseSubtree]
    exact hw.live_lt c hc.1
  · rw [rootSlot_eraseSubtree] at hr
    exact hw.root_not_ref r q hr ((hsub q).subset h)
  · rw [chain?_eraseSubtree ht, lookup?_eraseSubtree ht]
    split
    · rfl
    · exact hw.chain_iff x

/-- Unlinking the node of `x` and letting the root slot go of its record `s` keeps a tree
well-formed. -/
theorem WellFormed.unlink_vacate {t : Tree α} (hw : t.WellFormed) {x : Bytes} {s : Stamp}
    (hx : t.lookup? x = some s) : ((t.unlink x).vacate s).WellFormed := by
  have hu := hw.unlink x
  -- unlinking changes no node and no index entry, so `s` is still indexed
  have hs : (t.unlink x).indexed s := by
    have : (t.unlink x).lookup? x = some s := by
      simpa [lookup?] using hx
    exact hu.index_sound.indexed_iff.2 ⟨x, this⟩
  exact hu.vacate hs

theorem WellFormed.remove {t : Tree α} (hw : t.WellFormed) (x : Bytes) :
    (t.remove x).2.WellFormed := by
  cases hx : t.lookup? x with
  | none => rw [remove_of_lookup_none hx]; exact hw
  | some s =>
    rw [remove_of_lookup hx]
    exact (hw.unlink_vacate hx).eraseSubtree s

/-! ## The outcomes of a change -/

/-- What one change does to a well-formed tree. `apply` is read once, in `WellFormed.outcome`;
every fact about a change is then a case analysis over these five outcomes. -/
inductive Outcome (t : Tree α) (c : Change α) : Prop
  /-- The change is refused and leaves the tree as it was. -/
  | unchanged (e : TreeError) (h : t.apply c = (.error e, t))
  /-- A root add into a taken slot is refused; it draws a record and frees it at once, so only
  the next stamp moves. -/
  | rootTaken (n : Node α) (hc : c = .addRoot n) (herr : (t.apply c).1 = .error .invalidOperation)
      (hrec : ∀ s : Stamp, (t.apply c).2.records[s]? = t.records[s]?)
      (hi : (t.apply c).2.index = t.index) (hch : (t.apply c).2.chains = t.chains)
      (hroot : (t.apply c).2.rootSlot = t.rootSlot) (hcount : (t.apply c).2.count = t.count)
      (hnext : (t.apply c).2.nextStamp = t.nextStamp + 1)
  /-- A successful add: into the empty root slot with the empty chain, or under the record of
  its parent id, with the parent id followed by the parent's chain. -/
  | added (n : Node α) (parent : Option Stamp) (chain : List Bytes) (hx : c.addedId? = some n.id)
      (hok : (t.apply c).1 = .ok ()) (ha : Added t (t.apply c).2 n parent chain)
      (hroot : parent = none → c = .addRoot n ∧ chain = [])
      (hchild : ∀ p, parent = some p → ∃ x, c = .addChild n x ∧ t.lookup? x = some p ∧
        chain = x :: (t.chains.chain? x).getD [])
  /-- A removal of an indexed id: unlink its node, vacate the root slot, erase the subtree. -/
  | removed (x : Bytes) (s : Stamp) (hc : c = .remove x) (hx : t.lookup? x = some s)
      (h : t.apply c = (.ok (), ((t.unlink x).vacate s).eraseSubtree s))
  /-- A reset. -/
  | reset (hc : c = .reset)

/-- Every change to a well-formed tree has one of the five outcomes. -/
theorem WellFormed.outcome {t : Tree α} (hw : t.WellFormed) (c : Change α) : t.Outcome c := by
  cases c with
  | addRoot n =>
    cases hr : t.rootSlot with
    | none =>
      obtain ⟨hok, ha⟩ := added_addRoot hw hr n
      exact .added n none [] rfl hok ha (fun _ => ⟨rfl, rfl⟩) (fun p hp => by cases hp)
    | some r =>
      obtain ⟨herr, hrec, hi, hch, hroot, hcount, hnext⟩ := addRoot_of_taken hw hr n
      exact .rootTaken n rfl herr hrec hi hch hroot hcount hnext
  | addChild n x =>
    cases hp : t.lookup? x with
    | none => exact .unchanged _ (addChild_of_lookup_none hp n)
    | some p =>
      by_cases hx : n.id = x
      · exact .unchanged _ (addChild_of_id_eq hp hx)
      · obtain ⟨hok, ha⟩ := added_addChild hw hp n hx
        refine .added n (some p) _ rfl hok ha (fun h => by cases h) ?_
        intro q hq
        cases hq
        exact ⟨x, rfl, hp, rfl⟩
  | remove x =>
    cases hx : t.lookup? x with
    | none => exact .unchanged _ (remove_of_lookup_none hx)
    | some s => exact .removed x s rfl hx (remove_of_lookup hx)
  | reset => exact .reset rfl

/-! ## Runs -/

/-- Every change keeps a tree well-formed, refused or not. -/
theorem WellFormed.apply {t : Tree α} (hw : t.WellFormed) (c : Change α) :
    (t.apply c).2.WellFormed := by
  cases hw.outcome c with
  | unchanged e h =>
    rw [h]
    exact hw
  | rootTaken n _ _ hrec hi hch hroot _ hnext =>
    exact hw.of_records_eq hrec hi hch hroot (by rw [hnext]; exact Nat.le_succ _)
  | added n parent chain _ _ ha => exact hw.of_added ha
  | removed x s hc =>
    subst hc
    exact hw.remove x
  | reset hc =>
    subst hc
    exact wellFormed_reset t

@[simp] theorem applyAll_nil (t : Tree α) : t.applyAll [] = t := rfl

@[simp] theorem applyAll_cons (t : Tree α) (c : Change α) (cs : List (Change α)) :
    t.applyAll (c :: cs) = (t.apply c).2.applyAll cs := rfl

theorem applyAll_append (t : Tree α) (cs ds : List (Change α)) :
    t.applyAll (cs ++ ds) = (t.applyAll cs).applyAll ds :=
  List.foldl_append

/-- Every run from a well-formed tree ends in a well-formed tree. -/
theorem WellFormed.applyAll {t : Tree α} (hw : t.WellFormed) (cs : List (Change α)) :
    (t.applyAll cs).WellFormed := by
  induction cs generalizing t with
  | nil => exact hw
  | cons c cs ih => exact ih (hw.apply c)

/-- Every tree reached from an empty tree is well-formed. -/
theorem wellFormed_applyAll (n : Nat) (h : 0 < n) (cs : List (Change α)) :
    ((Tree.empty n h : Tree α).applyAll cs).WellFormed :=
  (wellFormed_empty n h).applyAll cs

end Tree

end IndexedTree
