import IndexedTree.Proofs.Tree.Removal

/-!
# Adds that succeed

An add that succeeds takes a record for its node, with no children, from the spare pool when one
waits, and stores it in the index under the node's id; an add under a parent also gives the id the
chain below the parent and appends the new record to the parent's child list (`Added`). What else
changes depends on whether the index held the id.

When it did not (`FreshChild`), nothing else changes: the node comes last among its parent's
children, has no children and no descendants, even when its record comes from the spare pool, and
every other id keeps its node, its chain and, the parent apart, its children.

When it did, the store replaces the id's record (`Overwrites`). The counter still counts the add,
though the index holds no more ids than before. Unless the root slot holds the old record, the old
record is freed and goes back to the spare pool; its live children keep their index entries, nodes
and chains, but no child list holds them any more, so no query that walks the links returns them
(`WellFormed.orphan`). If the root slot holds the old record, it stays the root while its id finds
the new node.

The main statements are `addChild_fresh` and `readd_overwrites`.
-/

namespace IndexedTree

namespace Tree

variable {α : Type}

/-! ## The spare pool after an add -/

section Spare

variable {t : Tree α}

/-- An add under a parent takes a spare record when one waits, and gives back the record that
the node's id held, unless the root slot keeps it. -/
theorem WellFormed.idleRecords_addChild (hw : t.WellFormed) (hsp : t.SpareBounded) {x : Bytes}
    {p : Stamp} (hp : t.lookup? x = some p) (n : Node α) (hx : n.id ≠ x) :
    (t.addChild n x).2.idleRecords = match t.lookup? n.id with
      | some o => if t.rootSlot = some o then t.idleRecords - 1 else max t.idleRecords 1
      | none => t.idleRecords - 1 := by
  rw [hw.addChild_eq hp n hx]
  -- the writes touch the spare pool by the draw and by the store only
  have hspare : (t.attachChild n x p).2.spare =
      (({ (t.draw n).2 with chains := t.chains.attach n.id x, count := t.count + 1 } :
        Tree α).store n.id t.nextStamp).spare := rfl
  have hsound : ({ (t.draw n).2 with chains := t.chains.attach n.id x, count := t.count + 1 } :
      Tree α).IndexSound := hw.indexSound_draw n
  have hstore : (({ (t.draw n).2 with chains := t.chains.attach n.id x, count := t.count + 1 } :
      Tree α).store n.id t.nextStamp).spare = match t.lookup? n.id with
      | some o => if t.rootSlot = some o then (t.draw n).2.spare else (t.draw n).2.spare.give ()
      | none => (t.draw n).2.spare :=
    spare_store hsound (hw.lookup_ne_nextStamp n.id)
  unfold idleRecords Pool.idleCount
  rw [hspare, hstore]
  cases hold : t.lookup? n.id with
  | none => exact idleRecords_draw t n
  | some o =>
    dsimp only
    by_cases hr : t.rootSlot = some o
    · rw [if_pos hr, if_pos hr]
      exact idleRecords_draw t n
    · rw [if_neg hr, if_neg hr]
      exact hsp.idleRecords_give_draw n

/-- A root add into the empty root slot takes a spare record when one waits, and gives back the
record that the node's id held. -/
theorem WellFormed.idleRecords_addRoot (hw : t.WellFormed) (hsp : t.SpareBounded)
    (hr : t.rootSlot = none) (n : Node α) :
    (t.addRoot n).2.idleRecords = match t.lookup? n.id with
      | some _ => max t.idleRecords 1
      | none => t.idleRecords - 1 := by
  have heq : (t.addRoot n).2.spare =
      (({ (t.draw n).2 with rootSlot := some t.nextStamp } : Tree α).store n.id t.nextStamp).spare := by
    unfold addRoot
    simp only [draw_fst, rootSlot_draw, hr]
  have hsound : ({ (t.draw n).2 with rootSlot := some t.nextStamp } : Tree α).IndexSound :=
    hw.indexSound_draw n
  have hstore : (({ (t.draw n).2 with rootSlot := some t.nextStamp } : Tree α).store n.id
      t.nextStamp).spare = match t.lookup? n.id with
      | some o => if some t.nextStamp = some o then (t.draw n).2.spare
        else (t.draw n).2.spare.give ()
      | none => (t.draw n).2.spare :=
    spare_store hsound (hw.lookup_ne_nextStamp n.id)
  unfold idleRecords Pool.idleCount
  rw [heq, hstore]
  cases hold : t.lookup? n.id with
  | none => exact idleRecords_draw t n
  | some o =>
    -- the root slot holds the new record, so the old one is freed
    have hne : (some t.nextStamp : Option Stamp) ≠ some o := fun h =>
      hw.lookup_ne_nextStamp n.id (by rw [hold, Option.some.inj h])
    dsimp only
    rw [if_neg hne]
    exact hsp.idleRecords_give_draw n

end Spare

/-! ## Live references after an add -/

namespace Added

variable {t t' : Tree α} {n : Node α} {parent : Option Stamp} {chain : List Bytes}

/-- With a fresh id, a record other than the new one keeps its live children, and the parent
gains the new record at the end. -/
theorem liveChildren_of_fresh (hw : t.WellFormed) (ha : Added t t' n parent chain)
    (hfresh : t.lookup? n.id = none) {q : Stamp} (hq : q ≠ t.nextStamp) :
    t'.liveChildren q = t.liveChildren q ++ if parent = some q then [t.nextStamp] else [] := by
  -- the references already there point to records drawn before, which the add does not free
  have hkeep : ∀ c ∈ t.childRefs q, t'.live c = t.live c := by
    intro c hc
    have hcn : c ≠ t.nextStamp := Nat.ne_of_lt (hw.ref_lt q c hc).2
    apply Bool.eq_iff_iff.2
    rw [ha.live_iff]
    simp [hcn, hfresh]
  have hnew : t'.live t.nextStamp = true := (ha.live_iff _).2 (.inl rfl)
  rw [liveChildren_eq, liveChildren_eq, ha.childRefs_eq hw, if_neg (by simp [hq, hfresh])]
  split
  · rw [List.filter_append, List.filter_congr hkeep]
    simp [hnew]
  · rw [List.filter_congr hkeep]
    simp

/-- The new record has no live children. -/
theorem liveChildren_nextStamp (hw : t.WellFormed) (ha : Added t t' n parent chain) :
    t'.liveChildren t.nextStamp = [] := by
  rw [liveChildren_eq, ha.childRefs_eq hw, if_pos (.inl rfl)]
  rfl

/-- A live reference after an add is the new record, or was a live reference before, from a
record that the add did not free. -/
theorem mem_liveChildren (hw : t.WellFormed) (ha : Added t t' n parent chain) {q c : Stamp}
    (h : c ∈ t'.liveChildren q) :
    (c ∈ t.liveChildren q ∧ ¬(t.lookup? n.id = some q ∧ t.rootSlot ≠ some q)) ∨
      c = t.nextStamp := by
  obtain ⟨href, hlive⟩ := Tree.mem_liveChildren.1 h
  -- a freed record has no references left
  have hq : ¬(t.lookup? n.id = some q ∧ t.rootSlot ≠ some q) := by
    intro hfree
    rw [ha.childRefs_eq hw, if_pos (.inr hfree)] at href
    cases href
  rcases ha.mem_childRefs hw href with href | ⟨-, rfl⟩
  · rcases (ha.live_iff c).1 hlive with rfl | ⟨hc, -⟩
    · exact .inr rfl
    · exact .inl ⟨Tree.mem_liveChildren.2 ⟨href, hc⟩, hq⟩
  · exact .inr rfl

end Added

/-! ## Records that no child list holds -/

section Orphans

variable {u : Tree α}

/-- The walk from a live record without live children is that record alone. -/
theorem WellFormed.subtree_eq_singleton (hw : u.WellFormed) {s : Stamp} (hs : u.live s)
    (h : u.liveChildren s = []) : u.subtree s = [s] := by
  have htail : (u.subtree s).tail = [] := by
    refine List.eq_nil_iff_forall_not_mem.2 fun c hc => ?_
    -- a record strictly below `s` lies below one of its children
    obtain ⟨⟨k, hk⟩, hne⟩ := (mem_tail_subtree hw hs).1 hc
    cases hk with
    | refl => exact hne rfl
    | child hc' _ =>
      rw [h] at hc'
      cases hc'
  rw [subtree_eq_cons hs, htail]

/-- `d` is the node that `u` indexes under its id by the record `c`, and no query that walks the
links returns it. -/
structure Orphan (u : Tree α) (c : Stamp) (d : Node α) : Prop where
  lookup?_eq : u.lookup? d.id = some c
  find?_eq : u.find? d.id = some d
  not_mem_children : ∀ y ns, u.children? y = some ns → d ∉ ns
  not_mem_descendants : ∀ y ds, u.descendants? y = some ds → d ∉ ds

/-- An indexed record that is no record's live child is an orphan: a child list or a walk that
held its node would hold a live child with its id, which is the record of that id. -/
theorem WellFormed.orphan (hw : u.WellFormed) {c : Stamp} {d : Node α}
    (hc : u.lookup? d.id = some c) (hd : u.node? c = some d)
    (horphan : ∀ q, c ∉ u.liveChildren q) : u.Orphan c d := by
  have hnot : ∀ q c', c' ∈ u.liveChildren q → u.node? c' ≠ some d := by
    intro q c' hc' hd'
    have := hw.eq_of_hasId_of_mem_liveChildren hc hc' (hasId_iff.2 ⟨d, hd', rfl⟩)
    exact horphan q (this ▸ hc')
  refine ⟨hc, by rw [find?, hc]; exact hd, fun y ns hy hm => ?_, fun y ds hy hm => ?_⟩
  · obtain ⟨s, -, rfl⟩ := Option.map_eq_some_iff.1 hy
    obtain ⟨c', hc', hd'⟩ := List.mem_filterMap.1 hm
    exact hnot s c' hc' hd'
  · obtain ⟨s, hs, rfl⟩ := Option.map_eq_some_iff.1 hy
    obtain ⟨c', hc', hd'⟩ := List.mem_filterMap.1 ((Node.perm_sortById _).mem_iff.1 hm)
    -- a record strictly below `s` is the live child of a record on the way
    obtain ⟨hreach, hne⟩ := (mem_tail_subtree hw (hw.index_sound.live hs)).1 hc'
    obtain ⟨q, -, hq⟩ := hreach.parent hne
    exact hnot q c' hq hd'

end Orphans

/-! ## An add under a fresh id -/

/-- What adding `m` under `x` leaves in `t'` when the index of `t` does not hold `m.id`. -/
structure FreshChild (t t' : Tree α) (m : Node α) (x : Bytes) : Prop where
  /-- The new id finds the node. -/
  find?_eq : t'.find? m.id = some m
  /-- Its chain is `x` followed by the chain of `x`, one longer. -/
  chain?_eq : ∃ l, t.chains.chain? x = some l ∧ t'.chains.chain? m.id = some (x :: l) ∧
    t.depth? x = some l.length ∧ t'.depth? m.id = some (l.length + 1)
  /-- The node comes last among the children of `x`. -/
  children?_parent : ∃ ns, t.children? x = some ns ∧ t'.children? x = some (ns ++ [m])
  /-- The node has no children and no descendants. -/
  children?_eq : t'.children? m.id = some []
  descendants?_eq : t'.descendants? m.id = some []
  /-- The counter counts the add. -/
  size_eq : t'.size = t.size + 1
  /-- A waiting spare record is taken. -/
  idleRecords_eq : t'.idleRecords = t.idleRecords - 1
  /-- Every other id keeps its node and its chain, and every id but `x` its children. -/
  others : ∀ y, y ≠ m.id → t'.find? y = t.find? y ∧ t'.chains.chain? y = t.chains.chain? y ∧
    (y ≠ x → t'.children? y = t.children? y)

/-- Adding a node with an id that the index does not hold under an indexed parent of another id
succeeds, and is a `FreshChild`. -/
theorem WellFormed.addChild_freshChild {t : Tree α} (hw : t.WellFormed) (hsp : t.SpareBounded)
    {x : Bytes} {p : Stamp} (hp : t.lookup? x = some p) (m : Node α) (hne : m.id ≠ x)
    (hfresh : t.lookup? m.id = none) :
    (t.addChild m x).1 = .ok () ∧ FreshChild t (t.addChild m x).2 m x := by
  obtain ⟨hok, ha⟩ := added_addChild hw hp m hne
  have hw' := hw.of_added ha
  have hidle := hw.idleRecords_addChild hsp hp m hne
  rw [hfresh] at hidle
  generalize (t.addChild m x).2 = t' at ha hw' hidle
  have hpn : p ≠ t.nextStamp := fun h => hw.lookup_ne_nextStamp x (h ▸ hp)
  -- no record is freed, so every record but the new one keeps its node
  have hnode : ∀ c, t'.node? c = if c = t.nextStamp then some m else t.node? c := by
    intro c
    rw [ha.node?_eq]
    simp [hfresh]
  have hnode_live : ∀ c, t.live c → t'.node? c = t.node? c := by
    intro c hc
    have hcn : c ≠ t.nextStamp := by
      rintro rfl
      rw [hw.live_nextStamp] at hc
      cases hc
    rw [hnode, if_neg hcn]
  have hkids : ∀ q, q ≠ t.nextStamp → t'.liveChildren q =
      t.liveChildren q ++ if some p = some q then [t.nextStamp] else [] :=
    fun q hq => ha.liveChildren_of_fresh hw hfresh hq
  -- the live children of a record lived before, so they keep their nodes
  have hchildNodes : ∀ q, (t.liveChildren q).filterMap t'.node? =
      (t.liveChildren q).filterMap t.node? := fun q =>
    List.filterMap_congr fun c hc => hnode_live c (Tree.mem_liveChildren.1 hc).2
  have hlookup_new : t'.lookup? m.id = some t.nextStamp := by
    rw [ha.lookup?_eq, if_pos rfl]
  have hlookup_other : ∀ y, y ≠ m.id → t'.lookup? y = t.lookup? y := fun y hy => by
    rw [ha.lookup?_eq, if_neg (Ne.symm hy)]
  have hnew_kids : t'.liveChildren t.nextStamp = [] := ha.liveChildren_nextStamp hw
  obtain ⟨l, hl⟩ := hw.exists_chain?_of_lookup? hp
  refine ⟨hok, ⟨?find, ?chain, ?parent, ?kids, ?desc, ?size, hidle, ?others⟩⟩
  case find =>
    rw [find?, hlookup_new, Option.bind_some, hnode, if_pos rfl]
  case chain =>
    have hchain : t'.chains.chain? m.id = some (x :: l) := by
      rw [ha.chain?_eq, if_pos rfl, hl]
      rfl
    refine ⟨l, hl, hchain, ?_, ?_⟩
    · simp [depth?, Ancestry.depth?, hl]
    · simp [depth?, Ancestry.depth?, hchain]
  case parent =>
    refine ⟨(t.liveChildren p).filterMap t.node?, by rw [children?, hp]; rfl, ?_⟩
    rw [children?, hlookup_other x (Ne.symm hne), hp, Option.map_some, hkids p hpn, if_pos rfl,
      List.filterMap_append, hchildNodes]
    simp [hnode]
  case kids =>
    rw [children?, hlookup_new, Option.map_some, hnew_kids]
    rfl
  case desc =>
    have hlive : t'.live t.nextStamp := (ha.live_iff _).2 (.inl rfl)
    rw [descendants?, hlookup_new, Option.map_some, hw'.subtree_eq_singleton hlive hnew_kids]
    simp [Node.sortById]
  case size =>
    unfold size
    rw [ha.count]
  case others =>
    intro y hy
    refine ⟨?_, by rw [ha.chain?_eq, if_neg (Ne.symm hy)], fun hyx => ?_⟩
    · cases hs : t.lookup? y with
      | none => rw [find?, find?, hlookup_other y hy, hs]; rfl
      | some s =>
        rw [find?, find?, hlookup_other y hy, hs, Option.bind_some, Option.bind_some,
          hnode_live s (hw.index_sound.live hs)]
    · cases hs : t.lookup? y with
      | none => rw [children?, children?, hlookup_other y hy, hs]; rfl
      | some s =>
        -- the record of `y` is neither the parent nor the new record
        have hsp' : p ≠ s := fun h => hyx (hw.index_sound.id_eq hs (h ▸ hp))
        have hsn : s ≠ t.nextStamp := fun h => hw.lookup_ne_nextStamp y (h ▸ hs)
        rw [children?, children?, hlookup_other y hy, hs, Option.map_some, Option.map_some,
          hkids s hsn, if_neg (fun h => hsp' (Option.some.inj h)), List.append_nil, hchildNodes]

/-- Adding a node under an indexed parent of another id, with an id that the index does not
hold, to any tree that a run reaches from an empty tree succeeds and changes nothing but what it
adds. The id finds the node; its chain is the parent's id followed by the parent's chain, so its
depth is one more than the parent's; the node comes last among the parent's children and has no
children and no descendants; the counter counts it; a waiting spare record is taken; every other
id keeps its node and its chain, and every id but the parent's its children. -/
theorem addChild_fresh (n : Nat) (h : 0 < n) (cs : List (Change α)) (m : Node α) (x : Bytes)
    (hx : ((Tree.empty n h : Tree α).applyAll cs).contains x = true) (hne : m.id ≠ x)
    (hfresh : ((Tree.empty n h : Tree α).applyAll cs).contains m.id = false) :
    let t := (Tree.empty n h : Tree α).applyAll cs
    (t.addChild m x).1 = .ok () ∧ FreshChild t (t.addChild m x).2 m x := by
  intro t
  obtain ⟨p, hp⟩ := contains_eq_true_iff.1 hx
  have hnone : t.lookup? m.id = none := contains_eq_false_iff.1 hfresh
  exact (wellFormed_applyAll n h cs).addChild_freshChild ((spareBounded_empty n h).applyAll cs)
    hp m hne hnone

/-- A root with the id `[1]`, and a node with the fresh id `[2]` added under it. -/
theorem addChild_fresh_under_root :
    let t := (Tree.empty 2 (by decide) : Tree Nat).applyAll [.addRoot ⟨⟨[1]⟩, 0⟩]
    t.contains ⟨[1]⟩ = true ∧ (⟨[2]⟩ : Bytes) ≠ ⟨[1]⟩ ∧ t.contains ⟨[2]⟩ = false ∧
      (t.addChild ⟨⟨[2]⟩, 1⟩ ⟨[1]⟩).1 = .ok () ∧
      FreshChild t (t.addChild ⟨⟨[2]⟩, 1⟩ ⟨[1]⟩).2 ⟨⟨[2]⟩, 1⟩ ⟨[1]⟩ := by
  intro t
  obtain ⟨-, ha⟩ := added_addRoot (wellFormed_empty 2 (by decide)) rfl (⟨⟨[1]⟩, 0⟩ : Node Nat)
  -- the root add stores its record under `[1]` and nothing else
  have hl : ∀ y, t.lookup? y = if (⟨[1]⟩ : Bytes) = y then some 0 else none := fun y =>
    (ha.lookup?_eq y).trans (by simp [lookup?, Tree.empty])
  have h1 : t.contains ⟨[1]⟩ = true := contains_of_lookup? ((hl _).trans (if_pos rfl))
  have h2 : t.contains ⟨[2]⟩ = false :=
    contains_eq_false_iff.2 ((hl _).trans (if_neg (by decide)))
  exact ⟨h1, by decide, h2, addChild_fresh 2 (by decide) _ _ _ h1 (by decide) h2⟩

/-! ## An add under an id that the index holds -/

/-- What a successful add of `m` leaves in `t'` when the index of `t` holds `m.id` under the
record `old`. -/
structure Overwrites (t t' : Tree α) (m : Node α) (old : Stamp) : Prop where
  /-- The id finds the new node. -/
  find?_eq : t'.find? m.id = some m
  /-- The counter counts the add. -/
  size_eq : t'.size = t.size + 1
  /-- The index holds as many ids as before. -/
  size_index : t'.index.size = t.index.size
  /-- When the root slot does not hold the old record, the record is freed, goes back to the
  spare pool, and no child list holds it live; each of its live children keeps its index entry,
  its node and its chain, but no query that walks the links returns it. -/
  freed : t.rootSlot ≠ some old →
    t'.records[old]? = none ∧ (∀ q, old ∉ t'.liveChildren q) ∧
      t'.idleRecords = max t.idleRecords 1 ∧
      ∀ c d, c ∈ t.liveChildren old → t.node? c = some d →
        t'.Orphan c d ∧ t'.chains.chain? d.id = t.chains.chain? d.id
  /-- When the root slot holds the old record, the root stays the node that the id found. -/
  ghost : t.rootSlot = some old → t'.root? = t.find? m.id

/-- A successful add of `m` whose id the index holds under `old` overwrites it, given what it does
to the spare pool when it frees `old`. -/
theorem Added.overwrites {t t' : Tree α} {m : Node α} {parent : Option Stamp}
    {chain : List Bytes} (hw : t.WellFormed) (ha : Added t t' m parent chain) {old : Stamp}
    (hold : t.lookup? m.id = some old)
    (hidle : t.rootSlot ≠ some old → t'.idleRecords = max t.idleRecords 1) :
    Overwrites t t' m old := by
  have hw' := hw.of_added ha
  have hon : old ≠ t.nextStamp := fun h => hw.lookup_ne_nextStamp m.id (h ▸ hold)
  refine ⟨?find, ?size, ?index, fun hroot => ?_, fun hroot => ?_⟩
  case find =>
    rw [find?, ha.lookup?_eq, if_pos rfl, Option.bind_some, ha.node?_eq, if_pos rfl]
  case size =>
    unfold size
    rw [ha.count]
  case index =>
    have hsome : (t.index.get? m.id).isSome = true := contains_of_lookup? hold
    rw [ha.index, ShardedMap.size_insert, if_pos hsome]
  · have hfreed : t.lookup? m.id = some old ∧ t.rootSlot ≠ some old := ⟨hold, hroot⟩
    have hrec : t'.records[old]? = none := by
      rw [ha.records, if_neg hon, if_pos hfreed]
    have hdead : t'.live old = false := by
      rw [live_eq, hrec]
      rfl
    refine ⟨hrec, fun q hq => ?_, hidle hroot, fun c d hc hd => ?_⟩
    · rw [Tree.mem_liveChildren, hdead] at hq
      exact Bool.false_ne_true hq.2
    · -- a live child of `old` was drawn after it, and is indexed under its own id
      have hoc : old < c := hw.lt_of_mem_liveChildren hc
      have hcn : c ≠ t.nextStamp := fun h =>
        Nat.lt_irrefl _ (h ▸ hw.live_lt c (Tree.mem_liveChildren.1 hc).2)
      have hcl : t.lookup? d.id = some c := by
        obtain ⟨d', hd', hl⟩ := indexed_iff.1 (hw.liveForest.child_indexed old c hc)
        rw [hd, Option.some.injEq] at hd'
        exact hd' ▸ hl
      have hid : m.id ≠ d.id := by
        intro h
        rw [h, hcl, Option.some.injEq] at hold
        exact Nat.ne_of_lt hoc hold.symm
      have hcfree : ¬(t.lookup? m.id = some c ∧ t.rootSlot ≠ some c) := by
        rintro ⟨h, -⟩
        rw [hold, Option.some.injEq] at h
        exact Nat.ne_of_lt hoc h
      have hnode : t'.node? c = some d := by
        rw [ha.node?_eq, if_neg hcn, if_neg hcfree, hd]
      have hlookup : t'.lookup? d.id = some c := by
        rw [ha.lookup?_eq, if_neg hid, hcl]
      -- its one parent is freed, and the add links only the new record
      have horphan : ∀ q, c ∉ t'.liveChildren q := by
        intro q hq
        rcases ha.mem_liveChildren hw hq with ⟨hcq, hqfree⟩ | rfl
        · exact hqfree (hw.parent_eq hcq hc ▸ hfreed)
        · exact hcn rfl
      exact ⟨hw'.orphan hlookup hnode horphan, by rw [ha.chain?_eq, if_neg hid]⟩
  · -- only an add under a parent finds the root slot taken
    have hpar : parent ≠ none := fun h => by
      rw [ha.root_empty h] at hroot
      cases hroot
    have hkeep : ¬(t.lookup? m.id = some old ∧ t.rootSlot ≠ some old) := fun h => h.2 hroot
    rw [root?, ha.rootSlot, if_neg hpar, hroot, Option.bind_some, find?, hold, Option.bind_some,
      ha.node?_eq, if_neg hon, if_neg hkeep]

section Overwrite

variable {t : Tree α}

/-- An add under an indexed parent of another id, of a node whose id the index holds under
`old`, succeeds and overwrites `old`; the id's chain is the parent's id followed by the parent's
chain. -/
theorem WellFormed.addChild_overwrites (hw : t.WellFormed) (hsp : t.SpareBounded) {x : Bytes}
    {p : Stamp} (hp : t.lookup? x = some p) (m : Node α) (hne : m.id ≠ x) {old : Stamp}
    (hold : t.lookup? m.id = some old) :
    (t.addChild m x).1 = .ok () ∧ Overwrites t (t.addChild m x).2 m old ∧
      ∃ l, t.chains.chain? x = some l ∧ (t.addChild m x).2.chains.chain? m.id = some (x :: l) := by
  obtain ⟨hok, ha⟩ := added_addChild hw hp m hne
  have hidle := hw.idleRecords_addChild hsp hp m hne
  rw [hold] at hidle
  dsimp only at hidle
  obtain ⟨l, hl⟩ := hw.exists_chain?_of_lookup? hp
  refine ⟨hok, ha.overwrites hw hold fun hroot => by rw [hidle, if_neg hroot], l, hl, ?_⟩
  rw [ha.chain?_eq, if_pos rfl, hl]
  rfl

/-- A root add into the empty root slot, of a node whose id the index holds under `old`,
succeeds and overwrites `old`; the id's chain is empty. -/
theorem WellFormed.addRoot_overwrites (hw : t.WellFormed) (hsp : t.SpareBounded)
    (hr : t.rootSlot = none) (m : Node α) {old : Stamp} (hold : t.lookup? m.id = some old) :
    (t.addRoot m).1 = .ok () ∧ Overwrites t (t.addRoot m).2 m old ∧
      (t.addRoot m).2.chains.chain? m.id = some [] := by
  obtain ⟨hok, ha⟩ := added_addRoot hw hr m
  have hidle := hw.idleRecords_addRoot hsp hr m
  rw [hold] at hidle
  dsimp only at hidle
  exact ⟨hok, ha.overwrites hw hold fun _ => hidle, by rw [ha.chain?_eq, if_pos rfl]⟩

end Overwrite

/-- In any tree that a run reaches from an empty tree, an add of a node whose id the index holds
under a record `old` overwrites it, under an indexed parent of another id as in the empty root
slot. The id finds the new node, and its chain is the parent's id followed by the parent's chain,
or empty for a root add; the counter counts the add, but the index holds as many ids as before.
Unless the root slot holds `old`, `old` goes back to the spare pool, no child list holds it, and
its live children stay indexed with their nodes and chains while no query that walks the links
returns them. If the root slot holds `old`, the root stays the node that the id found before. -/
theorem readd_overwrites (n : Nat) (h : 0 < n) (cs : List (Change α)) (m : Node α)
    (hk : ((Tree.empty n h : Tree α).applyAll cs).contains m.id = true) :
    let t := (Tree.empty n h : Tree α).applyAll cs
    ∃ old, t.lookup? m.id = some old ∧
      (∀ x, t.contains x = true → m.id ≠ x →
        (t.addChild m x).1 = .ok () ∧ Overwrites t (t.addChild m x).2 m old ∧
          ∃ l, t.chains.chain? x = some l ∧
            (t.addChild m x).2.chains.chain? m.id = some (x :: l)) ∧
      (t.rootSlot = none →
        (t.addRoot m).1 = .ok () ∧ Overwrites t (t.addRoot m).2 m old ∧
          (t.addRoot m).2.chains.chain? m.id = some []) := by
  intro t
  have hw : t.WellFormed := wellFormed_applyAll n h cs
  have hsp : t.SpareBounded := (spareBounded_empty n h).applyAll cs
  obtain ⟨old, hold⟩ := contains_eq_true_iff.1 hk
  refine ⟨old, hold, fun x hx hne => ?_, fun hr => hw.addRoot_overwrites hsp hr m hold⟩
  obtain ⟨p, hp⟩ := contains_eq_true_iff.1 hx
  exact hw.addChild_overwrites hsp hp m hne hold

/-- A root with the id `[1]` and a node of id `[2]` under it: the id `[2]` is indexed, so adding
it again overwrites its record. -/
theorem readd_overwrites_of_child_of_root :
    let t := (Tree.empty 2 (by decide) : Tree Nat).applyAll
      [.addRoot ⟨⟨[1]⟩, 0⟩, .addChild ⟨⟨[2]⟩, 0⟩ ⟨[1]⟩]
    t.contains ⟨[2]⟩ = true ∧
    ∃ old, t.lookup? (⟨⟨[2]⟩, 1⟩ : Node Nat).id = some old ∧
      (∀ x, t.contains x = true → (⟨⟨[2]⟩, 1⟩ : Node Nat).id ≠ x →
        (t.addChild ⟨⟨[2]⟩, 1⟩ x).1 = .ok () ∧
          Overwrites t (t.addChild ⟨⟨[2]⟩, 1⟩ x).2 ⟨⟨[2]⟩, 1⟩ old ∧
          ∃ l, t.chains.chain? x = some l ∧
            (t.addChild ⟨⟨[2]⟩, 1⟩ x).2.chains.chain? (⟨⟨[2]⟩, 1⟩ : Node Nat).id = some (x :: l)) ∧
      (t.rootSlot = none →
        (t.addRoot ⟨⟨[2]⟩, 1⟩).1 = .ok () ∧ Overwrites t (t.addRoot ⟨⟨[2]⟩, 1⟩).2 ⟨⟨[2]⟩, 1⟩ old ∧
          (t.addRoot ⟨⟨[2]⟩, 1⟩).2.chains.chain? (⟨⟨[2]⟩, 1⟩ : Node Nat).id = some []) := by
  intro t
  have hw₀ : (Tree.empty 2 (by decide) : Tree Nat).WellFormed := wellFormed_empty 2 (by decide)
  obtain ⟨-, ha₁⟩ := added_addRoot hw₀ rfl (⟨⟨[1]⟩, 0⟩ : Node Nat)
  have hp₁ : ((Tree.empty 2 (by decide) : Tree Nat).apply (.addRoot ⟨⟨[1]⟩, 0⟩)).2.lookup? ⟨[1]⟩ =
      some (Tree.empty 2 (by decide) : Tree Nat).nextStamp :=
    (ha₁.lookup?_eq _).trans (if_pos rfl)
  obtain ⟨-, ha₂⟩ := added_addChild (hw₀.apply (.addRoot ⟨⟨[1]⟩, 0⟩)) hp₁ (⟨⟨[2]⟩, 0⟩ : Node Nat)
    (by decide)
  have hk : t.contains ⟨[2]⟩ = true := contains_of_lookup? ((ha₂.lookup?_eq _).trans (if_pos rfl))
  exact ⟨hk, readd_overwrites 2 (by decide) _ ⟨⟨[2]⟩, 1⟩ hk⟩

end Tree

end IndexedTree
