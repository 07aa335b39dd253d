import IndexedTree.Tree.Change
import IndexedTree.Tree.Query
import IndexedTree.Proofs.ShardedMap

/-!
# What each step of a change does to a tree

A tree is seen through a few views: the record stored under a stamp, `t.records[s]?`, and from it
whether the record lives, its node and its child references (`childRefs`); the record of an id,
`lookup?`; the chain of an id; the root slot; the counter; and the next stamp. The four changes are
made of a handful of steps: `draw`, `release`, `store`, `modifyChildren`, `drop` and the three folds
of `eraseSubtree`. This file gives, for each step, its effect on every view, so that the proofs
about whole changes and runs never unfold a step.

The effects of `store` and `eraseSubtree` depend on one fact about the index, that it maps each id
to a record carrying that id (`IndexSound`); every reachable tree has it (`WellFormed`, in the next
file), and the lemmas take it as a hypothesis.
-/

namespace IndexedTree

namespace Tree

variable {α : Type}

/-- The child references of a record, live or expired, first added first; none for a record
that does not live. -/
def childRefs (t : Tree α) (s : Stamp) : List Stamp :=
  (t.records[s]?.map fun r => r.children.toList).getD []

/-- The index maps each id to a record that lives and carries that id. -/
def IndexSound (t : Tree α) : Prop := ∀ x s, t.lookup? x = some s → t.hasId x s

/-! ## The views, read off the records -/

theorem live_eq (t : Tree α) (s : Stamp) : t.live s = t.records[s]?.isSome := by
  unfold live
  exact Std.HashMap.contains_eq_isSome_getElem?

theorem node?_eq (t : Tree α) (s : Stamp) : t.node? s = t.records[s]?.map (·.node) := rfl

theorem contains_eq (t : Tree α) (x : Bytes) : t.contains x = (t.lookup? x).isSome := rfl

theorem contains_eq_true_iff {t : Tree α} {x : Bytes} :
    t.contains x = true ↔ ∃ s, t.lookup? x = some s := by
  rw [contains_eq, Option.isSome_iff_exists]

theorem contains_eq_false_iff {t : Tree α} {x : Bytes} :
    t.contains x = false ↔ t.lookup? x = none := by
  rw [contains_eq, Option.isSome_eq_false_iff, Option.isNone_iff_eq_none]

theorem contains_of_lookup? {t : Tree α} {x : Bytes} {s : Stamp} (h : t.lookup? x = some s) :
    t.contains x = true :=
  contains_eq_true_iff.2 ⟨s, h⟩

theorem childRefs_eq_nil_of_not_live {t : Tree α} {s : Stamp} (h : t.live s = false) :
    t.childRefs s = [] := by
  rw [live_eq, Option.isSome_eq_false_iff, Option.isNone_iff_eq_none] at h
  simp [childRefs, h]

theorem live_of_mem_childRefs {t : Tree α} {p c : Stamp} (h : c ∈ t.childRefs p) : t.live p := by
  by_contra hp
  simp [childRefs_eq_nil_of_not_live (Bool.eq_false_iff.2 hp)] at h

theorem liveChildren_eq (t : Tree α) (s : Stamp) :
    t.liveChildren s = (t.childRefs s).filter t.live := by
  unfold liveChildren childRefs
  cases t.records[s]? <;> rfl

@[simp] theorem mem_liveChildren {t : Tree α} {s c : Stamp} :
    c ∈ t.liveChildren s ↔ c ∈ t.childRefs s ∧ t.live c := by
  simp [liveChildren_eq]

theorem hasId_iff {t : Tree α} {x : Bytes} {s : Stamp} :
    t.hasId x s ↔ ∃ m, t.node? s = some m ∧ m.id = x := by
  unfold hasId
  cases h : t.node? s <;> simp

theorem indexed_iff {t : Tree α} {s : Stamp} :
    t.indexed s ↔ ∃ m, t.node? s = some m ∧ t.lookup? m.id = some s := by
  unfold indexed
  cases h : t.node? s <;> simp [lookup?]

theorem live_of_node? {t : Tree α} {s : Stamp} {m : Node α} (h : t.node? s = some m) :
    t.live s := by
  rw [node?_eq, Option.map_eq_some_iff] at h
  obtain ⟨r, hr, -⟩ := h
  simp [live_eq, hr]

theorem held_iff {t : Tree α} {s : Stamp} : t.held s ↔ t.rootSlot = some s ∨ t.indexed s := by
  simp [held]

theorem live_of_hasId {t : Tree α} {x : Bytes} {s : Stamp} (h : t.hasId x s) : t.live s := by
  obtain ⟨m, hm, -⟩ := hasId_iff.1 h
  exact live_of_node? hm

theorem IndexSound.live {t : Tree α} (h : t.IndexSound) {x : Bytes} {s : Stamp}
    (hx : t.lookup? x = some s) : t.live s :=
  live_of_hasId (h x s hx)

/-- Two ids that the index maps to one record are the same id. -/
theorem IndexSound.id_eq {t : Tree α} (h : t.IndexSound) {x y : Bytes} {s : Stamp}
    (hx : t.lookup? x = some s) (hy : t.lookup? y = some s) : x = y := by
  obtain ⟨m, hm, rfl⟩ := hasId_iff.1 (h x s hx)
  obtain ⟨m', hm', rfl⟩ := hasId_iff.1 (h y s hy)
  rw [hm] at hm'
  cases hm'
  rfl

/-- An indexed record is the one the index holds under the id it carries. -/
theorem IndexSound.indexed_iff {t : Tree α} (h : t.IndexSound) {s : Stamp} :
    t.indexed s ↔ ∃ x, t.lookup? x = some s := by
  rw [Tree.indexed_iff]
  constructor
  · rintro ⟨r, -, hr⟩
    exact ⟨_, hr⟩
  · rintro ⟨x, hx⟩
    obtain ⟨m, hm, rfl⟩ := hasId_iff.1 (h x s hx)
    exact ⟨m, hm, hx⟩

/-! ## `release` -/

/-- Releasing `s` frees it exactly when no holder keeps it. -/
theorem records_release (t : Tree α) (s c : Stamp) :
    (t.release s).records[c]? = if c = s ∧ t.held s = false then none else t.records[c]? := by
  unfold release
  by_cases hfree : t.live s && !t.held s
  · rw [if_pos hfree, Std.HashMap.getElem?_erase]
    simp only [Bool.and_eq_true, Bool.not_eq_true'] at hfree
    by_cases hc : c = s
    · subst hc
      simp [hfree.2]
    · simp [hc, Ne.symm hc]
  · rw [if_neg hfree]
    split
    · rename_i hc
      obtain ⟨rfl, hheld⟩ := hc
      simp only [hheld, Bool.not_false, Bool.and_true, Bool.not_eq_true] at hfree
      rw [live_eq, Option.isSome_eq_false_iff, Option.isNone_iff_eq_none] at hfree
      exact hfree
    · rfl

@[simp] theorem index_release (t : Tree α) (s : Stamp) : (t.release s).index = t.index := by
  unfold release; split <;> rfl

@[simp] theorem chains_release (t : Tree α) (s : Stamp) : (t.release s).chains = t.chains := by
  unfold release; split <;> rfl

@[simp] theorem rootSlot_release (t : Tree α) (s : Stamp) :
    (t.release s).rootSlot = t.rootSlot := by
  unfold release; split <;> rfl

@[simp] theorem count_release (t : Tree α) (s : Stamp) : (t.release s).count = t.count := by
  unfold release; split <;> rfl

@[simp] theorem nextStamp_release (t : Tree α) (s : Stamp) :
    (t.release s).nextStamp = t.nextStamp := by
  unfold release; split <;> rfl

/-- Releasing one record leaves whether another is held as it was. -/
theorem held_release_of_ne (t : Tree α) {s c : Stamp} (hc : c ≠ s) :
    (t.release s).held c = t.held c := by
  have hrec : (t.release s).records[c]? = t.records[c]? := by
    rw [records_release, if_neg (fun h => hc h.1)]
  unfold held indexed node?
  rw [hrec, rootSlot_release, index_release]

/-- Releasing a list of records frees those of them that no holder keeps. -/
theorem records_foldl_release (L : List Stamp) (t : Tree α) (c : Stamp) :
    (L.foldl release t).records[c]? = if c ∈ L ∧ t.held c = false then none else t.records[c]? := by
  induction L generalizing t with
  | nil => simp
  | cons s L ih =>
    rw [List.foldl_cons, ih, records_release]
    by_cases hcs : c = s
    · subst hcs
      cases hh : t.held c
      · simp
      · -- a held record is left alone by its release
        have hsame : t.release c = t := by
          unfold release
          simp [hh]
        simp [hsame, hh]
    · rw [held_release_of_ne t hcs]
      simp [hcs]

/-! ## `draw` -/

@[simp] theorem draw_fst (t : Tree α) (n : Node α) : (t.draw n).1 = t.nextStamp := rfl

theorem records_draw (t : Tree α) (n : Node α) (c : Stamp) :
    (t.draw n).2.records[c]? = if c = t.nextStamp then some ⟨n, .empty⟩ else t.records[c]? := by
  simp only [draw, Std.HashMap.getElem?_insert, beq_iff_eq]
  by_cases hc : c = t.nextStamp
  · simp [hc]
  · simp [hc, Ne.symm hc]

@[simp] theorem index_draw (t : Tree α) (n : Node α) : (t.draw n).2.index = t.index := rfl

@[simp] theorem chains_draw (t : Tree α) (n : Node α) : (t.draw n).2.chains = t.chains := rfl

@[simp] theorem rootSlot_draw (t : Tree α) (n : Node α) : (t.draw n).2.rootSlot = t.rootSlot := rfl

@[simp] theorem count_draw (t : Tree α) (n : Node α) : (t.draw n).2.count = t.count := rfl

@[simp] theorem nextStamp_draw (t : Tree α) (n : Node α) :
    (t.draw n).2.nextStamp = t.nextStamp + 1 := rfl

/-! ## `modifyChildren` -/

theorem records_modifyChildren (t : Tree α) (p : Stamp) (f : ChildList Stamp → ChildList Stamp)
    (c : Stamp) :
    (t.modifyChildren p f).records[c]? =
      if c = p then t.records[c]?.map fun r => { r with children := f r.children }
      else t.records[c]? := by
  simp only [modifyChildren, Std.HashMap.getElem?_modify, beq_iff_eq]
  by_cases hc : c = p
  · subst hc; simp
  · simp [hc, Ne.symm hc]

@[simp] theorem index_modifyChildren (t : Tree α) (p : Stamp) (f : ChildList Stamp → ChildList Stamp) :
    (t.modifyChildren p f).index = t.index := rfl

@[simp] theorem chains_modifyChildren (t : Tree α) (p : Stamp)
    (f : ChildList Stamp → ChildList Stamp) : (t.modifyChildren p f).chains = t.chains := rfl

@[simp] theorem rootSlot_modifyChildren (t : Tree α) (p : Stamp)
    (f : ChildList Stamp → ChildList Stamp) : (t.modifyChildren p f).rootSlot = t.rootSlot := rfl

@[simp] theorem count_modifyChildren (t : Tree α) (p : Stamp)
    (f : ChildList Stamp → ChildList Stamp) : (t.modifyChildren p f).count = t.count := rfl

@[simp] theorem nextStamp_modifyChildren (t : Tree α) (p : Stamp)
    (f : ChildList Stamp → ChildList Stamp) : (t.modifyChildren p f).nextStamp = t.nextStamp := rfl

theorem node?_modifyChildren (t : Tree α) (p : Stamp) (f : ChildList Stamp → ChildList Stamp)
    (c : Stamp) : (t.modifyChildren p f).node? c = t.node? c := by
  rw [node?_eq, node?_eq, records_modifyChildren]
  split <;> simp [Function.comp_def]

theorem live_modifyChildren (t : Tree α) (p : Stamp) (f : ChildList Stamp → ChildList Stamp)
    (c : Stamp) : (t.modifyChildren p f).live c = t.live c := by
  rw [live_eq, live_eq, records_modifyChildren]
  split <;> simp

theorem childRefs_modifyChildren (t : Tree α) (p : Stamp) (f : ChildList Stamp → ChildList Stamp)
    (c : Stamp) :
    (t.modifyChildren p f).childRefs c =
      if c = p then (t.records[c]?.map fun r => (f r.children).toList).getD [] else t.childRefs c := by
  simp only [childRefs, records_modifyChildren]
  split <;> simp [Function.comp_def]

/-- Taking children out of one child list leaves a sublist of every child list. -/
theorem childRefs_modifyChildren_sublist (t : Tree α) (q : Stamp)
    {f : ChildList Stamp → ChildList Stamp} (hf : ∀ l, (f l).toList.Sublist l.toList) (p : Stamp) :
    ((t.modifyChildren q f).childRefs p).Sublist (t.childRefs p) := by
  rw [childRefs_modifyChildren]
  split
  · rename_i hp
    subst hp
    cases h : t.records[p]? <;> simp [childRefs, h, hf]
  · exact List.Sublist.refl _

/-- Emptying the child lists of a list of records. -/
theorem records_foldl_clearChildren (L : List Stamp) (t : Tree α) (c : Stamp) :
    (L.foldl (fun t r => t.modifyChildren r fun _ => .empty) t).records[c]? =
      if c ∈ L then t.records[c]?.map fun r => { r with children := .empty }
      else t.records[c]? := by
  induction L generalizing t with
  | nil => simp
  | cons s L ih =>
    rw [List.foldl_cons, ih, records_modifyChildren]
    by_cases hcs : c = s
    · subst hcs
      by_cases hL : c ∈ L <;> simp [hL, Function.comp_def]
    · simp [hcs]

/-! ## `store` -/

@[simp] theorem index_store (t : Tree α) (x : Bytes) (s : Stamp) :
    (t.store x s).index = t.index.insert x s := by
  unfold store
  cases t.index.get? x <;> simp

@[simp] theorem chains_store (t : Tree α) (x : Bytes) (s : Stamp) :
    (t.store x s).chains = t.chains := by
  unfold store
  cases t.index.get? x <;> simp

@[simp] theorem rootSlot_store (t : Tree α) (x : Bytes) (s : Stamp) :
    (t.store x s).rootSlot = t.rootSlot := by
  unfold store
  cases t.index.get? x <;> simp

@[simp] theorem count_store (t : Tree α) (x : Bytes) (s : Stamp) :
    (t.store x s).count = t.count := by
  unfold store
  cases t.index.get? x <;> simp

@[simp] theorem nextStamp_store (t : Tree α) (x : Bytes) (s : Stamp) :
    (t.store x s).nextStamp = t.nextStamp := by
  unfold store
  cases t.index.get? x <;> simp

theorem lookup?_store (t : Tree α) (x y : Bytes) (s : Stamp) :
    (t.store x s).lookup? y = if x = y then some s else t.lookup? y := by
  simp [lookup?]

/-- Once the index holds another record under an id, only the root slot can keep the record
that the id held. -/
theorem held_insert_of_lookup {t : Tree α} (ht : t.IndexSound) {x : Bytes} {o s : Stamp}
    (hlook : t.lookup? x = some o) (hos : o ≠ s) :
    ({ t with index := t.index.insert x s } : Tree α).held o = (t.rootSlot == some o) := by
  obtain ⟨m, hm, hid⟩ := hasId_iff.1 (ht x o hlook)
  have hm' : ({ t with index := t.index.insert x s } : Tree α).node? o = some m := hm
  simp only [held, indexed, hm', hid]
  simp [Ne.symm hos]

/-- Storing a new record under an id frees the record the id held, unless the root slot
holds it. -/
theorem records_store {t : Tree α} (ht : t.IndexSound) {x : Bytes} {s : Stamp}
    (hs : t.lookup? x ≠ some s) (c : Stamp) :
    (t.store x s).records[c]? =
      if t.lookup? x = some c ∧ t.rootSlot ≠ some c then none else t.records[c]? := by
  unfold store
  cases hold : t.index.get? x with
  | none =>
    have : t.lookup? x = none := hold
    simp [this]
  | some o =>
    have hlook : t.lookup? x = some o := hold
    have hos : o ≠ s := fun h => hs (h ▸ hlook)
    simp only
    rw [records_release, held_insert_of_lookup ht hlook hos, hlook]
    by_cases hc : c = o
    · subst hc; simp
    · simp [hc, Ne.symm hc]

/-! ## `drop` -/

/-- Dropping a live record erases the index entry of its id when that entry holds the record,
and then the id's chain, taking one from the counter. -/
theorem drop_of_node? {t : Tree α} {s : Stamp} {n : Node α} (hn : t.node? s = some n) :
    t.drop s =
      if t.index.get? n.id = some s then
        { t with
          index := (t.index.erase n.id).2
          chains := (t.chains.detach n.id).2
          count := t.count - 1 }
      else t := by
  unfold drop
  rw [hn]
  dsimp only
  rw [ShardedMap.eraseIf_eq]
  -- `eraseIf` with the identity test erases exactly when the entry holds the record
  by_cases hx : t.index.get? n.id = some s
  · simp [hx]
  · have hany : (t.index.get? n.id).any (· == s) = false := by
      cases h : t.index.get? n.id <;> simp_all
    simp [hx, hany]

theorem drop_of_node?_none {t : Tree α} {s : Stamp} (hn : t.node? s = none) : t.drop s = t := by
  unfold drop
  rw [hn]

/-- `drop` changes the index, the chains and the counter, and no other field. -/
theorem drop_fields (t : Tree α) (s : Stamp) :
    ∃ index chains count, t.drop s = { t with index := index, chains := chains, count := count } := by
  cases hn : t.node? s with
  | none => exact ⟨t.index, t.chains, t.count, drop_of_node?_none hn⟩
  | some n =>
    rw [drop_of_node? hn]
    split
    · exact ⟨_, _, _, rfl⟩
    · exact ⟨t.index, t.chains, t.count, rfl⟩

theorem drop_records (t : Tree α) (s : Stamp) : (t.drop s).records = t.records := by
  obtain ⟨_, _, _, h⟩ := drop_fields t s
  rw [h]

@[simp] theorem rootSlot_drop (t : Tree α) (s : Stamp) : (t.drop s).rootSlot = t.rootSlot := by
  obtain ⟨_, _, _, h⟩ := drop_fields t s
  rw [h]

@[simp] theorem nextStamp_drop (t : Tree α) (s : Stamp) :
    (t.drop s).nextStamp = t.nextStamp := by
  obtain ⟨_, _, _, h⟩ := drop_fields t s
  rw [h]

/-- Dropping a record takes away the index entry that holds it, if any, with the chain of its id,
and takes one from the counter then. -/
theorem drop_eq {t : Tree α} (ht : t.IndexSound) (s : Stamp) :
    (∃ x, t.lookup? x = some s ∧ t.drop s =
      { t with
        index := (t.index.erase x).2
        chains := (t.chains.detach x).2
        count := t.count - 1 }) ∨
    ((∀ x, t.lookup? x ≠ some s) ∧ t.drop s = t) := by
  cases hn : t.node? s with
  | none =>
    refine .inr ⟨fun x hx => ?_, drop_of_node?_none hn⟩
    obtain ⟨m, hm, -⟩ := hasId_iff.1 (ht x s hx)
    rw [hn] at hm
    cases hm
  | some n =>
    rw [drop_of_node? hn]
    by_cases hx : t.index.get? n.id = some s
    · exact .inl ⟨n.id, hx, if_pos hx⟩
    · refine .inr ⟨fun y hy => ?_, if_neg hx⟩
      obtain ⟨m, hm, rfl⟩ := hasId_iff.1 (ht y s hy)
      rw [hm, Option.some.injEq] at hn
      exact hx (hn ▸ hy)

theorem lookup?_drop {t : Tree α} (ht : t.IndexSound) (s : Stamp) (y : Bytes) :
    (t.drop s).lookup? y = if t.lookup? y = some s then none else t.lookup? y := by
  rcases drop_eq ht s with ⟨x, hx, hd⟩ | ⟨hnone, hd⟩
  · rw [hd]
    simp only [lookup?, ShardedMap.get?_erase]
    by_cases hxy : x = y
    · subst hxy; simp [lookup?] at hx; simp [hx]
    · -- another id cannot hold the dropped record
      have hy : t.index.get? y ≠ some s := fun hy => hxy (ht.id_eq hx hy)
      simp [hxy, hy]
  · simp [hd, hnone y]

theorem chain?_drop {t : Tree α} (ht : t.IndexSound) (s : Stamp) (y : Bytes) :
    (t.drop s).chains.chain? y = if t.lookup? y = some s then none else t.chains.chain? y := by
  rcases drop_eq ht s with ⟨x, hx, hd⟩ | ⟨hnone, hd⟩
  · rw [hd]
    simp only [Ancestry.chain?_detach]
    by_cases hxy : x = y
    · subst hxy; simp [hx]
    · have hy : t.lookup? y ≠ some s := fun hy => hxy (ht.id_eq hx hy)
      simp [hxy, hy]
  · simp [hd, hnone y]

theorem IndexSound.drop {t : Tree α} (ht : t.IndexSound) (s : Stamp) : (t.drop s).IndexSound := by
  intro x c hx
  rw [lookup?_drop ht] at hx
  split at hx
  · cases hx
  · have := ht x c hx
    simpa [hasId, node?, drop_records] using this

/-! ## `eraseSubtree` -/

/-- Dropping a list of records takes away every index entry that holds one of them. -/
theorem lookup?_foldl_drop (L : List Stamp) {t : Tree α} (ht : t.IndexSound) (y : Bytes) :
    (L.foldl drop t).lookup? y = if ∃ c ∈ L, t.lookup? y = some c then none else t.lookup? y := by
  induction L generalizing t with
  | nil => simp
  | cons s L ih =>
    rw [List.foldl_cons, ih (ht.drop s), lookup?_drop ht]
    by_cases hs : t.lookup? y = some s
    · simp [hs]
    · simp [hs]

theorem chain?_foldl_drop (L : List Stamp) {t : Tree α} (ht : t.IndexSound) (y : Bytes) :
    (L.foldl drop t).chains.chain? y =
      if ∃ c ∈ L, t.lookup? y = some c then none else t.chains.chain? y := by
  induction L generalizing t with
  | nil => simp
  | cons s L ih =>
    rw [List.foldl_cons, ih (ht.drop s), chain?_drop ht, lookup?_drop ht]
    by_cases hs : t.lookup? y = some s
    · simp [hs]
    · simp [hs]

/-- Dropping records leaves the records, the root slot and the next stamp alone. -/
theorem foldl_drop_frame (L : List Stamp) (t : Tree α) :
    (L.foldl drop t).records = t.records ∧ (L.foldl drop t).rootSlot = t.rootSlot ∧
      (L.foldl drop t).nextStamp = t.nextStamp := by
  induction L generalizing t with
  | nil => simp
  | cons s L ih =>
    obtain ⟨h1, h2, h3⟩ := ih (t.drop s)
    simp [h1, h2, h3, drop_records]

/-- Emptying child lists leaves every view but the records alone. -/
theorem foldl_clearChildren_frame (L : List Stamp) (t : Tree α) :
    let t' := L.foldl (fun t r => t.modifyChildren r fun _ => .empty) t
    t'.index = t.index ∧ t'.chains = t.chains ∧ t'.rootSlot = t.rootSlot ∧ t'.count = t.count ∧
      t'.nextStamp = t.nextStamp := by
  induction L generalizing t with
  | nil => simp
  | cons s L ih => simpa using ih (t.modifyChildren s fun _ => .empty)

/-- Releasing records leaves every view but the records alone. -/
theorem foldl_release_frame (L : List Stamp) (t : Tree α) :
    (L.foldl release t).index = t.index ∧ (L.foldl release t).chains = t.chains ∧
      (L.foldl release t).rootSlot = t.rootSlot ∧ (L.foldl release t).count = t.count ∧
      (L.foldl release t).nextStamp = t.nextStamp := by
  induction L generalizing t with
  | nil => simp
  | cons s L ih => simpa using ih (t.release s)

/-- After the drops of an erase and the emptying of child lists, only the root slot can hold a
record that the erase reached: no index entry holds one. -/
theorem held_of_mem_erased {t : Tree α} (ht : t.IndexSound) {L : List Stamp} {c : Stamp}
    (hc : c ∈ L) :
    (L.foldl (fun t r => t.modifyChildren r fun _ => .empty) (L.foldl drop t)).held c =
      (t.rootSlot == some c) := by
  obtain ⟨-, hroot1, -⟩ := foldl_drop_frame L t
  obtain ⟨hi2, -, hroot2, -, -⟩ := foldl_clearChildren_frame L (L.foldl drop t)
  generalize L.foldl (fun t r => t.modifyChildren r fun _ => .empty) (L.foldl drop t) = t2
    at hi2 hroot2 ⊢
  have hnot : t2.indexed c = false := by
    rw [Bool.eq_false_iff]
    intro hidx
    obtain ⟨m, -, hl⟩ := indexed_iff.1 hidx
    have hl1 : (L.foldl drop t).lookup? m.id = some c := by
      simpa [lookup?, hi2] using hl
    rw [lookup?_foldl_drop L ht] at hl1
    split at hl1
    · cases hl1
    · rename_i hnone
      exact hnone ⟨c, hc, hl1⟩
  simp [held, hnot, hroot2, hroot1]

/-- Erasing the subtree at `s` frees every record it reaches but the one the root slot holds,
whose child list it empties. -/
theorem records_eraseSubtree {t : Tree α} (ht : t.IndexSound) (s c : Stamp) :
    (t.eraseSubtree s).records[c]? =
      if c ∈ t.subtree s then
        if t.rootSlot = some c then t.records[c]?.map fun r => { r with children := .empty }
        else none
      else t.records[c]? := by
  unfold eraseSubtree
  simp only
  generalize t.subtree s = L
  obtain ⟨hr1, -, -⟩ := foldl_drop_frame L t
  rw [records_foldl_release, records_foldl_clearChildren, hr1]
  by_cases hc : c ∈ L
  · -- after the drops no index entry holds a reached record, so only the root slot holds one
    rw [held_of_mem_erased ht hc]
    by_cases hroot : t.rootSlot = some c <;> simp [hc, hroot]
  · simp [hc]

theorem lookup?_eraseSubtree {t : Tree α} (ht : t.IndexSound) (s : Stamp) (y : Bytes) :
    (t.eraseSubtree s).lookup? y =
      if ∃ c ∈ t.subtree s, t.lookup? y = some c then none else t.lookup? y := by
  unfold eraseSubtree
  simp only
  obtain ⟨hi3, -⟩ := foldl_release_frame (t.subtree s)
    ((t.subtree s).foldl (fun t r => t.modifyChildren r fun _ => .empty)
      ((t.subtree s).foldl drop t))
  obtain ⟨hi2, -⟩ := foldl_clearChildren_frame (t.subtree s) ((t.subtree s).foldl drop t)
  rw [lookup?, hi3, hi2, ← lookup?, lookup?_foldl_drop _ ht]

theorem chain?_eraseSubtree {t : Tree α} (ht : t.IndexSound) (s : Stamp) (y : Bytes) :
    (t.eraseSubtree s).chains.chain? y =
      if ∃ c ∈ t.subtree s, t.lookup? y = some c then none else t.chains.chain? y := by
  unfold eraseSubtree
  simp only
  obtain ⟨-, hc3, -⟩ := foldl_release_frame (t.subtree s)
    ((t.subtree s).foldl (fun t r => t.modifyChildren r fun _ => .empty)
      ((t.subtree s).foldl drop t))
  obtain ⟨-, hc2, -⟩ := foldl_clearChildren_frame (t.subtree s) ((t.subtree s).foldl drop t)
  rw [hc3, hc2, chain?_foldl_drop _ ht]

@[simp] theorem rootSlot_eraseSubtree (t : Tree α) (s : Stamp) :
    (t.eraseSubtree s).rootSlot = t.rootSlot := by
  unfold eraseSubtree
  simp only
  rw [(foldl_release_frame _ _).2.2.1, (foldl_clearChildren_frame _ _).2.2.1,
    (foldl_drop_frame _ _).2.1]

@[simp] theorem nextStamp_eraseSubtree (t : Tree α) (s : Stamp) :
    (t.eraseSubtree s).nextStamp = t.nextStamp := by
  unfold eraseSubtree
  simp only
  rw [(foldl_release_frame _ _).2.2.2.2, (foldl_clearChildren_frame _ _).2.2.2.2,
    (foldl_drop_frame _ _).2.2]

theorem node?_eraseSubtree {t : Tree α} (ht : t.IndexSound) (s c : Stamp) :
    (t.eraseSubtree s).node? c =
      if c ∈ t.subtree s ∧ t.rootSlot ≠ some c then none else t.node? c := by
  rw [node?_eq, node?_eq, records_eraseSubtree ht]
  by_cases hc : c ∈ t.subtree s
  · by_cases hr : t.rootSlot = some c <;> simp [hc, hr, Function.comp_def]
  · simp [hc]

theorem live_eraseSubtree {t : Tree α} (ht : t.IndexSound) (s c : Stamp) :
    (t.eraseSubtree s).live c ↔ t.live c ∧ ¬(c ∈ t.subtree s ∧ t.rootSlot ≠ some c) := by
  rw [live_eq, live_eq, records_eraseSubtree ht]
  by_cases hc : c ∈ t.subtree s
  · by_cases hr : t.rootSlot = some c <;> simp [hc, hr]
  · simp [hc]

theorem childRefs_eraseSubtree {t : Tree α} (ht : t.IndexSound) (s c : Stamp) :
    (t.eraseSubtree s).childRefs c = if c ∈ t.subtree s then [] else t.childRefs c := by
  simp only [childRefs, records_eraseSubtree ht]
  by_cases hc : c ∈ t.subtree s
  · by_cases hr : t.rootSlot = some c
    · cases t.records[c]? <;> simp [hc, hr]
    · simp [hc, hr]
  · simp [hc]

theorem index_eraseSubtree (t : Tree α) (s : Stamp) :
    (t.eraseSubtree s).index = ((t.subtree s).foldl drop t).index := by
  unfold eraseSubtree
  simp only
  rw [(foldl_release_frame _ _).1, (foldl_clearChildren_frame _ _).1]

theorem count_eraseSubtree (t : Tree α) (s : Stamp) :
    (t.eraseSubtree s).count = ((t.subtree s).foldl drop t).count := by
  unfold eraseSubtree
  simp only
  rw [(foldl_release_frame _ _).2.2.2.1, (foldl_clearChildren_frame _ _).2.2.2.1]

theorem chains_eraseSubtree (t : Tree α) (s : Stamp) :
    (t.eraseSubtree s).chains = ((t.subtree s).foldl drop t).chains := by
  unfold eraseSubtree
  simp only
  rw [(foldl_release_frame _ _).2.1, (foldl_clearChildren_frame _ _).2.1]

/-- Dropping records keeps both maps placed. -/
theorem placed_foldl_drop (L : List Stamp) {t : Tree α} (ht : t.IndexSound)
    (hi : t.index.Placed) (hc : t.chains.chains.Placed) :
    (L.foldl drop t).index.Placed ∧ (L.foldl drop t).chains.chains.Placed := by
  induction L generalizing t with
  | nil => exact ⟨hi, hc⟩
  | cons s L ih =>
    rw [List.foldl_cons]
    apply ih (ht.drop s)
    · rcases drop_eq ht s with ⟨x, -, hd⟩ | ⟨-, hd⟩ <;> rw [hd]
      · exact hi.erase x
      · exact hi
    · rcases drop_eq ht s with ⟨x, -, hd⟩ | ⟨-, hd⟩ <;> rw [hd]
      · exact hc.erase x
      · exact hc

/-! ## `remove`

`remove` is three steps: `unlink` takes the node off its parent's child list, `vacate` empties the
root slot if it holds the node, and `eraseSubtree` drops what lies below. -/

@[simp] theorem index_unlink (t : Tree α) (x : Bytes) : (t.unlink x).index = t.index := by
  unfold unlink; split <;> rfl

@[simp] theorem chains_unlink (t : Tree α) (x : Bytes) : (t.unlink x).chains = t.chains := by
  unfold unlink; split <;> rfl

@[simp] theorem count_unlink (t : Tree α) (x : Bytes) : (t.unlink x).count = t.count := by
  unfold unlink; split <;> rfl

@[simp] theorem records_vacate (t : Tree α) (s : Stamp) : (t.vacate s).records = t.records := by
  unfold vacate; split <;> rfl

@[simp] theorem rootSlot_unlink (t : Tree α) (x : Bytes) : (t.unlink x).rootSlot = t.rootSlot := by
  unfold unlink; split <;> rfl

theorem rootSlot_vacate (t : Tree α) (s : Stamp) :
    (t.vacate s).rootSlot = if t.rootSlot = some s then none else t.rootSlot := by
  unfold vacate; split <;> rfl

theorem live_vacate (t : Tree α) (s c : Stamp) : (t.vacate s).live c = t.live c := by
  simp [live, records_vacate]

theorem node?_vacate (t : Tree α) (s c : Stamp) : (t.vacate s).node? c = t.node? c := by
  simp [node?, records_vacate]

theorem childRefs_vacate (t : Tree α) (s c : Stamp) : (t.vacate s).childRefs c = t.childRefs c := by
  simp [childRefs, records_vacate]

@[simp] theorem index_vacate (t : Tree α) (s : Stamp) : (t.vacate s).index = t.index := by
  unfold vacate; split <;> rfl

@[simp] theorem chains_vacate (t : Tree α) (s : Stamp) : (t.vacate s).chains = t.chains := by
  unfold vacate; split <;> rfl

@[simp] theorem count_vacate (t : Tree α) (s : Stamp) : (t.vacate s).count = t.count := by
  unfold vacate; split <;> rfl

@[simp] theorem nextStamp_unlink (t : Tree α) (x : Bytes) :
    (t.unlink x).nextStamp = t.nextStamp := by
  unfold unlink; split <;> rfl

@[simp] theorem nextStamp_vacate (t : Tree α) (s : Stamp) :
    (t.vacate s).nextStamp = t.nextStamp := by
  unfold vacate; split <;> rfl

/-- Unlinking takes the first child that carries the id out of the child list of the record of
the id's nearest ancestor. -/
theorem childRefs_unlink (t : Tree α) (x : Bytes) (p : Stamp) :
    (t.unlink x).childRefs p =
      if (t.chains.parent? x).bind t.lookup? = some p then (t.childRefs p).eraseP (t.hasId x)
      else t.childRefs p := by
  unfold unlink
  split
  · rename_i q hq
    rw [hq, childRefs_modifyChildren]
    by_cases hpq : p = q
    · subst hpq
      cases h : t.records[p]? <;> simp [childRefs, h]
    · simp [hpq, Ne.symm hpq]
  · rename_i hq
    rw [hq]
    simp

theorem node?_unlink (t : Tree α) (x : Bytes) (c : Stamp) : (t.unlink x).node? c = t.node? c := by
  unfold unlink
  split
  · exact node?_modifyChildren _ _ _ c
  · rfl

theorem live_unlink (t : Tree α) (x : Bytes) (c : Stamp) : (t.unlink x).live c = t.live c := by
  unfold unlink
  split
  · exact live_modifyChildren _ _ _ c
  · rfl

/-- Unlinking leaves a sublist of every child list. -/
theorem childRefs_unlink_sublist (t : Tree α) (x : Bytes) (p : Stamp) :
    ((t.unlink x).childRefs p).Sublist (t.childRefs p) := by
  unfold unlink
  split
  · exact childRefs_modifyChildren_sublist t _ (fun l => by simpa using List.eraseP_sublist) p
  · exact List.Sublist.refl _

theorem remove_of_lookup {t : Tree α} {x : Bytes} {s : Stamp} (h : t.lookup? x = some s) :
    t.remove x = (.ok (), ((t.unlink x).vacate s).eraseSubtree s) := by
  rw [remove, h]

theorem remove_of_lookup_none {t : Tree α} {x : Bytes} (h : t.lookup? x = none) :
    t.remove x = (.error (.notFound x), t) := by
  unfold remove
  simp only [h]

/-- A removal draws no stamp. -/
@[simp] theorem nextStamp_remove (t : Tree α) (x : Bytes) : (t.remove x).2.nextStamp = t.nextStamp := by
  cases hx : t.lookup? x with
  | none => rw [remove_of_lookup_none hx]
  | some s => rw [remove_of_lookup hx, nextStamp_eraseSubtree, nextStamp_vacate, nextStamp_unlink]

/-! ## Adds -/

/-- A root add into a taken root slot draws a record and releases it at once. -/
theorem addRoot_of_rootSlot {t : Tree α} {r : Stamp} (hr : t.rootSlot = some r) (n : Node α) :
    t.addRoot n = (.error .invalidOperation, (t.draw n).2.release t.nextStamp) := by
  unfold addRoot
  simp only [rootSlot_draw, hr]
  rfl

/-- The writes of an add under a parent draw one stamp. -/
@[simp] theorem nextStamp_attachChild (t : Tree α) (n : Node α) (x : Bytes) (p : Stamp) :
    (t.attachChild n x p).2.nextStamp = t.nextStamp + 1 := by
  simp [attachChild]

/-- An add under the record `p` of `x` leaves the tree of its writes, and succeeds, when `p` is
still indexed after them. -/
theorem addChild_of_indexed {t : Tree α} {x : Bytes} {p : Stamp} (hp : t.lookup? x = some p)
    {n : Node α} (hx : n.id ≠ x) (hidx : (t.attachChild n x p).2.indexed p) :
    t.addChild n x = (.ok (), (t.attachChild n x p).2) := by
  simp [addChild, hp, hx, hidx]

theorem addChild_of_lookup_none {t : Tree α} {x : Bytes} (h : t.lookup? x = none) (n : Node α) :
    t.addChild n x = (.error (.parentNotFound x), t) := by
  simp [addChild, h]

theorem addChild_of_id_eq {t : Tree α} {x : Bytes} {p : Stamp} (hp : t.lookup? x = some p)
    {n : Node α} (hx : n.id = x) : t.addChild n x = (.error .invalidOperation, t) := by
  simp [addChild, hp, hx]

end Tree

end IndexedTree
