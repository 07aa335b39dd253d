import IndexedTree.Proofs.Tree.Shape

/-!
# Height and width

The height of a tree counts the levels below the root slot's record, and its width is the largest
number of records on one level. Both come out of one queue loop (`countLevels`). Each round takes
the queue's length as the size of a level and drains exactly that many records, putting their live
children at the back (`drain_length_append`), so that the queue then holds the next level: the
loop counts the levels of the breadth-first walk (`heightWidth_eq`). Level `d` of the walk holds
exactly the records `d` live references below its first level (`mem_levelAt`), and the walk stops
at the first empty level (`getElem?_levelsWithin`), before its bound in a well-formed tree.

So on every tree that a run reaches, the height is the number of depths at which a record lies
below the root's record, and the width the largest number of records at one depth. When the adds
of the run name fresh ids, the chain of an indexed id gives the depth of its record
(`Shaped.depth?_eq_some_iff`), so the height is one more than the largest depth of an id, and the
width the largest number of ids of one depth.

The main statement is `height_width_levels`.
-/

namespace IndexedTree

namespace Tree

variable {α : Type}

/-! ## Levels below a list of records -/

/-- Level `d` below the records of `L`, in the order of the breadth-first walk. -/
def levelAt (t : Tree α) (L : List Stamp) : Nat → List Stamp
  | 0 => L
  | d + 1 => t.levelAt (L.flatMap t.liveChildren) d

theorem levelAt_succ (t : Tree α) (L : List Stamp) (d : Nat) :
    t.levelAt L (d + 1) = t.levelAt (L.flatMap t.liveChildren) d := rfl

/-- Level `d` below `L` holds the records `d` references below a record of `L`. -/
theorem mem_levelAt {t : Tree α} {L : List Stamp} {d : Nat} {c : Stamp} :
    c ∈ t.levelAt L d ↔ ∃ x ∈ L, t.Below x d c := by
  induction d generalizing L with
  | zero => simp [levelAt, Below.zero_iff]
  | succ d ih =>
    rw [levelAt_succ, ih]
    constructor
    · rintro ⟨y, hy, hyc⟩
      obtain ⟨x, hx, hxy⟩ := List.mem_flatMap.1 hy
      exact ⟨x, hx, .child hxy hyc⟩
    · rintro ⟨x, hx, hxc⟩
      cases hxc with
      | child hxy hyc => exact ⟨_, List.mem_flatMap.2 ⟨x, hx, hxy⟩, hyc⟩

theorem mem_levelAt_singleton {t : Tree α} {r c : Stamp} {d : Nat} :
    c ∈ t.levelAt [r] d ↔ t.Below r d c := by
  simp [mem_levelAt]

/-- Level `d` below `r` holds a record exactly when one lies `d` references below `r`. -/
theorem levelAt_singleton_ne_nil_iff {t : Tree α} {r : Stamp} {d : Nat} :
    t.levelAt [r] d ≠ [] ↔ ∃ c, t.Below r d c := by
  rw [ne_eq, List.eq_nil_iff_forall_not_mem]
  simp [mem_levelAt_singleton]

/-- The breadth-first walk lists the levels below its first level up to the first empty one,
but at most `fuel` of them. -/
theorem getElem?_levelsWithin (t : Tree α) (fuel : Nat) (L : List Stamp) (d : Nat) :
    (t.levelsWithin fuel L)[d]? =
      if d < fuel ∧ t.levelAt L d ≠ [] then some (t.levelAt L d) else none := by
  induction fuel generalizing L d with
  | zero => simp [levelsWithin]
  | succ fuel ih =>
    cases L with
    | nil =>
      -- nothing lies below no record
      have hnil : t.levelAt [] d = [] := List.eq_nil_iff_forall_not_mem.2 fun c hc => by
        simp [mem_levelAt] at hc
      simp [levelsWithin_nil, hnil]
    | cons x xs =>
      cases d with
      | zero => simp [levelsWithin, levelAt]
      | succ d => simp [levelsWithin, ih, levelAt_succ]

/-- The children of the records of a level that is a prefix of the queue go to its back. -/
theorem drain_length_append (t : Tree α) (L Q : List Stamp) :
    t.drain L.length (L ++ Q) = Q ++ L.flatMap t.liveChildren := by
  induction L generalizing Q with
  | nil => simp [drain]
  | cons p L ih =>
    rw [List.length_cons, List.cons_append, drain, List.append_assoc, ih, List.flatMap_cons,
      List.append_assoc]

/-- The queue loop counts the levels of the breadth-first walk and keeps the largest size. -/
theorem countLevels_eq (t : Tree α) (fuel : Nat) (L : List Stamp) (levels maxWidth : Nat) :
    t.countLevels fuel L levels maxWidth =
      (levels + (t.levelsWithin fuel L).length,
        ((t.levelsWithin fuel L).map List.length).foldl max maxWidth) := by
  induction fuel generalizing L levels maxWidth with
  | zero => simp [countLevels, levelsWithin]
  | succ fuel ih =>
    cases L with
    | nil => simp [countLevels, levelsWithin_nil]
    | cons x xs =>
      -- a round drains exactly the level it counts
      have hdrain : t.drain (xs.length + 1) (x :: xs) = (x :: xs).flatMap t.liveChildren := by
        simpa using drain_length_append t (x :: xs) []
      simp only [countLevels, List.length_cons, hdrain, ih, levelsWithin, List.map_cons,
        List.foldl_cons]
      rw [Nat.add_assoc, Nat.add_comm 1]

/-- The height counts the levels of the breadth-first walk, and the width is the largest size of
one. -/
theorem heightWidth_eq (t : Tree α) :
    t.heightWidth = (t.levels.length, (t.levels.map List.length).foldl max 0) := by
  rw [heightWidth, countLevels_eq, Nat.zero_add]
  rfl

/-- The width is the largest of the sizes of the levels, or zero. -/
theorem max?_length_levels (t : Tree α) :
    (0 :: t.levels.map List.length).max? = some t.width := by
  rw [width, heightWidth_eq]
  rfl

/-- A tree with an empty root slot has no level. -/
theorem height_width_of_rootSlot_none {t : Tree α} (hr : t.rootSlot = none) :
    t.height = 0 ∧ t.width = 0 := by
  have hlevels : t.levels = [] := by
    rw [levels, hr, Option.toList_none, levelsWithin_nil]
  simp [height, width, heightWidth_eq, hlevels]

/-! ## Levels below the root -/

section Root

variable {t : Tree α} (hw : t.WellFormed)
include hw

/-- A level below distinct records holds each record once. -/
theorem nodup_levelAt {L : List Stamp} (hL : L.Nodup) (d : Nat) : (t.levelAt L d).Nodup := by
  induction d generalizing L with
  | zero => exact hL
  | succ d ih => exact ih (nodup_flatMap_liveChildren hw hL)

/-- The records `d` references below `r` are as many as level `d` below `r` holds. -/
theorem ncard_below (r : Stamp) (d : Nat) :
    {c | t.Below r d c}.ncard = (t.levelAt [r] d).length := by
  have hset : {c | t.Below r d c} = ↑(t.levelAt [r] d).toFinset := by
    ext c
    simp [mem_levelAt_singleton]
  rw [hset, Set.ncard_coe_finset,
    List.toFinset_card_of_nodup (nodup_levelAt hw (List.nodup_singleton r) d)]

variable {r : Stamp} (hr : t.rootSlot = some r)
include hr

/-- The walk from the root lists each level below the root's record that holds a record. -/
theorem getElem?_levels (d : Nat) :
    t.levels[d]? = if t.levelAt [r] d ≠ [] then some (t.levelAt [r] d) else none := by
  rw [levels, hr, Option.toList_some, getElem?_levelsWithin]
  by_cases h : t.levelAt [r] d = []
  · simp [h]
  · -- a path from the root passes fewer records than the tree has
    obtain ⟨c, hc⟩ := levelAt_singleton_ne_nil_iff.1 h
    have hd := hc.lt_size hw (hw.root_live r hr)
    rw [if_pos ⟨by omega, h⟩, if_pos h]

/-- The height is the number of depths at which a record lies below the root's record. -/
theorem lt_height_iff {d : Nat} : d < t.height ↔ ∃ c, t.Below r d c := by
  have hlen : d < t.levels.length ↔ (t.levels[d]?).isSome := by simp
  rw [height, heightWidth_eq, hlen, getElem?_levels hw hr, ← levelAt_singleton_ne_nil_iff]
  by_cases h : t.levelAt [r] d = [] <;> simp [h]

/-- No depth holds more records than the width. -/
theorem ncard_below_le_width (d : Nat) : {c | t.Below r d c}.ncard ≤ t.width := by
  rw [ncard_below hw]
  have hle := (List.max?_eq_some_iff.1 t.max?_length_levels).2
  by_cases h : t.levelAt [r] d = []
  · rw [h]
    exact Nat.zero_le _
  · have hd : t.levels[d]? = some (t.levelAt [r] d) := by rw [getElem?_levels hw hr, if_pos h]
    exact hle _ (List.mem_cons_of_mem _ (List.mem_map_of_mem (List.mem_of_getElem? hd)))

/-- Some depth holds as many records as the width. -/
theorem exists_ncard_below_eq_width : ∃ d, {c | t.Below r d c}.ncard = t.width := by
  rcases List.mem_cons.1 (List.max?_eq_some_iff.1 t.max?_length_levels).1 with h | h
  · -- the root's level holds one record, so the width is not zero
    have h0 := ncard_below_le_width hw hr 0
    rw [ncard_below hw, h] at h0
    simp [levelAt] at h0
  · obtain ⟨M, hM, hlen⟩ := List.mem_map.1 h
    obtain ⟨d, hd⟩ := List.mem_iff_getElem?.1 hM
    rw [getElem?_levels hw hr] at hd
    by_cases hne : t.levelAt [r] d = []
    · rw [if_neg (not_not.2 hne)] at hd
      cases hd
    · rw [if_pos hne, Option.some.injEq] at hd
      exact ⟨d, by rw [ncard_below hw, hd, hlen]⟩

end Root

/-! ## Depths of ids -/

/-- A path up to the root from `s` is as long as the path down from the root's record to `s`. -/
theorem UpPath.below_length {t : Tree α} {r s : Stamp} {l : List Bytes} (hr : t.rootSlot = some r)
    (h : t.UpPath s l) : t.Below r l.length s := by
  induction h with
  | root hr' =>
    rw [hr', Option.some.injEq] at hr
    rw [hr]
    exact .refl _
  | child hcp _ _ ih => exact ih.tail hcp

section Shaped

variable {t : Tree α} (hw : t.WellFormed) (hsh : t.Shaped) {r : Stamp} (hr : t.rootSlot = some r)
include hw hsh hr

/-- In a shaped tree a record below the root's record lives, so an id of the index names it. -/
theorem Shaped.exists_lookup?_of_below {c : Stamp} {d : Nat} (hc : t.Below r d c) :
    ∃ x, t.lookup? x = some c :=
  hw.index_sound.indexed_iff.1 (hsh.indexed_of_live c (hc.live (hw.root_live r hr)))

/-- In a shaped tree the depth of an indexed id is the number of references from the root's
record down to the id's record. -/
theorem Shaped.depth?_eq_some_iff {x : Bytes} {s : Stamp} (hx : t.lookup? x = some s) {d : Nat} :
    t.depth? x = some d ↔ t.Below r d s := by
  obtain ⟨l, hl⟩ := hsh.exists_upPath hw (hw.index_sound.live hx)
  have hdepth : t.depth? x = some l.length := by
    rw [depth?, Ancestry.depth?, hl.chain? hw hsh hx]
    rfl
  rw [hdepth, Option.some.injEq]
  constructor
  · rintro rfl
    exact hl.below_length hr
  · exact (hl.below_length hr).steps_eq hw

/-- In a shaped tree the indexed ids of depth `d` are as many as the records `d` references
below the root's record: each names its own record. -/
theorem Shaped.ncard_depth (d : Nat) :
    {x | t.contains x = true ∧ t.depth? x = some d}.ncard = {c | t.Below r d c}.ncard := by
  refine Set.ncard_congr (fun x _ => (t.lookup? x).getD 0) ?_ ?_ ?_
  · rintro x ⟨hx, hd⟩
    obtain ⟨s, hs⟩ := contains_eq_true_iff.1 hx
    show t.Below r d ((t.lookup? x).getD 0)
    rw [hs]
    exact (hsh.depth?_eq_some_iff hw hr hs).1 hd
  · rintro x y ⟨hx, -⟩ ⟨hy, -⟩ hxy
    obtain ⟨s, hs⟩ := contains_eq_true_iff.1 hx
    obtain ⟨s', hs'⟩ := contains_eq_true_iff.1 hy
    simp only [hs, hs', Option.getD_some] at hxy
    subst hxy
    exact hw.index_sound.id_eq hs hs'
  · intro c hc
    obtain ⟨x, hx⟩ := hsh.exists_lookup?_of_below hw hr hc
    exact ⟨x, ⟨contains_of_lookup? hx, (hsh.depth?_eq_some_iff hw hr hx).2 hc⟩, by simp [hx]⟩

end Shaped

/-- An id with a depth is indexed. -/
theorem WellFormed.exists_lookup?_of_depth? {t : Tree α} (hw : t.WellFormed) {x : Bytes}
    {d : Nat} (h : t.depth? x = some d) : ∃ s, t.lookup? x = some s := by
  unfold depth? Ancestry.depth? at h
  obtain ⟨l, hl, -⟩ := Option.map_eq_some_iff.1 h
  exact hw.exists_lookup?_of_chain? hl

/-! ## Runs from an empty tree -/

/-- On every tree that a run reaches from an empty tree, the height is the number of levels below
the root slot's record: a record lies `d` live references below it exactly when `d` is less than
the height. The width is the largest number of records at one depth. An empty root slot gives
zero for both. When the adds of the run name fresh ids, the height is zero exactly when no id is
indexed, and otherwise one more than the largest depth of an id; the width is the largest number
of indexed ids of one depth. -/
theorem height_width_levels (n : Nat) (h : 0 < n) (cs : List (Change α)) :
    let t := (Tree.empty n h : Tree α).applyAll cs
    (t.rootSlot = none → t.height = 0 ∧ t.width = 0) ∧
    (∀ r, t.rootSlot = some r →
      (∀ d, (∃ c, t.Below r d c) ↔ d < t.height) ∧
      (∀ d, {c | t.Below r d c}.ncard ≤ t.width) ∧ ∃ d, {c | t.Below r d c}.ncard = t.width) ∧
    ((Tree.empty n h : Tree α).AddsFresh cs →
      (t.height = 0 ↔ ∀ x, t.contains x = false) ∧
      (∀ x d, t.depth? x = some d → d < t.height) ∧
      (0 < t.height → ∃ x, t.contains x = true ∧ t.depth? x = some (t.height - 1)) ∧
      (∀ d, {x | t.contains x = true ∧ t.depth? x = some d}.ncard ≤ t.width) ∧
      ∃ d, {x | t.contains x = true ∧ t.depth? x = some d}.ncard = t.width) := by
  intro t
  have hw₀ : (Tree.empty n h : Tree α).WellFormed := wellFormed_empty n h
  have hw : t.WellFormed := hw₀.applyAll cs
  refine ⟨height_width_of_rootSlot_none, fun r hr => ⟨fun d => (lt_height_iff hw hr).symm,
    ncard_below_le_width hw hr, exists_ncard_below_eq_width hw hr⟩, fun hfresh => ?_⟩
  have hsh : t.Shaped := (shaped_empty n h).applyAll hw₀ cs hfresh
  cases hr : t.rootSlot with
  | none =>
    -- the index is empty, so no id is indexed or has a depth
    have hnone := (hsh.rootSlot_eq_none_iff hw).1 hr
    have hcontains : ∀ x, t.contains x = false := fun x => contains_eq_false_iff.2 (hnone x)
    have hdepth : ∀ x d, t.depth? x ≠ some d := fun x d hd => by
      obtain ⟨s, hs⟩ := hw.exists_lookup?_of_depth? hd
      rw [hnone x] at hs
      cases hs
    have hempty : ∀ d, {x | t.contains x = true ∧ t.depth? x = some d} = ∅ := fun d =>
      Set.eq_empty_of_forall_notMem fun x hx => hdepth x d hx.2
    obtain ⟨h0, hw0⟩ := height_width_of_rootSlot_none hr
    refine ⟨iff_of_true h0 hcontains, fun x d hd => absurd hd (hdepth x d),
      fun hpos => absurd hpos (by omega), fun d => ?_, ⟨0, ?_⟩⟩
    · rw [hempty d, Set.ncard_empty]
      exact Nat.zero_le _
    · rw [hempty 0, Set.ncard_empty, hw0]
  | some r =>
    -- the root's record lies at depth zero, under an id of the index
    have hpos : 0 < t.height := (lt_height_iff hw hr).2 ⟨r, .refl r⟩
    refine ⟨iff_of_false (by omega) fun hall => ?_, fun x d hd => ?_, fun _ => ?_, fun d => ?_, ?_⟩
    · obtain ⟨y, hy⟩ := hsh.exists_lookup?_of_below hw hr (.refl r)
      have := hall y
      rw [contains_of_lookup? hy] at this
      cases this
    · obtain ⟨s, hs⟩ := hw.exists_lookup?_of_depth? hd
      exact (lt_height_iff hw hr).2 ⟨s, (hsh.depth?_eq_some_iff hw hr hs).1 hd⟩
    · obtain ⟨c, hc⟩ := (lt_height_iff hw hr).1 (Nat.sub_lt hpos Nat.one_pos)
      obtain ⟨x, hx⟩ := hsh.exists_lookup?_of_below hw hr hc
      exact ⟨x, contains_of_lookup? hx, (hsh.depth?_eq_some_iff hw hr hx).2 hc⟩
    · rw [hsh.ncard_depth hw hr d]
      exact ncard_below_le_width hw hr d
    · obtain ⟨d, hd⟩ := exists_ncard_below_eq_width hw hr
      exact ⟨d, by rw [hsh.ncard_depth hw hr d, hd]⟩

/-- A root with two children, one of which has a child, all under distinct ids. -/
theorem height_width_levels_of_distinct_ids :
    0 < 2 ∧
    let cs : List (Change Nat) := [.addRoot ⟨⟨[1]⟩, 0⟩, .addChild ⟨⟨[2]⟩, 1⟩ ⟨[1]⟩,
      .addChild ⟨⟨[3]⟩, 2⟩ ⟨[1]⟩, .addChild ⟨⟨[4]⟩, 3⟩ ⟨[2]⟩]
    let t₀ : Tree Nat := Tree.empty 2 (by decide)
    let t := t₀.applyAll cs
    t₀.AddsFresh cs ∧
    (t.rootSlot = none → t.height = 0 ∧ t.width = 0) ∧
    (∀ r, t.rootSlot = some r →
      (∀ d, (∃ c, t.Below r d c) ↔ d < t.height) ∧
      (∀ d, {c | t.Below r d c}.ncard ≤ t.width) ∧ ∃ d, {c | t.Below r d c}.ncard = t.width) ∧
    (t₀.AddsFresh cs →
      (t.height = 0 ↔ ∀ x, t.contains x = false) ∧
      (∀ x d, t.depth? x = some d → d < t.height) ∧
      (0 < t.height → ∃ x, t.contains x = true ∧ t.depth? x = some (t.height - 1)) ∧
      (∀ d, {x | t.contains x = true ∧ t.depth? x = some d}.ncard ≤ t.width) ∧
      ∃ d, {x | t.contains x = true ∧ t.depth? x = some d}.ncard = t.width) := by
  refine ⟨by decide, ?_⟩
  intro cs t₀ t
  have hfresh : t₀.AddsFresh cs :=
    (wellFormed_empty 2 (by decide)).addsFresh_of_nodup cs (by decide)
      (fun x _ => by simp [lookup?, Tree.empty])
  exact ⟨hfresh, height_width_levels 2 (by decide) cs⟩

end Tree

end IndexedTree
