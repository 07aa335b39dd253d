import IndexedTree.Proofs.Order
import IndexedTree.Proofs.Tree.Forest
import IndexedTree.Proofs.Tree.Shape

/-!
# Queries by links and queries by chains

A tree answers questions about the nodes around an id in two ways: `descendants?` and `children?`
walk the live child references, while `ancestors?`, `ancestorAt?` and `depth?` read the id's
ancestor chain. In a shaped tree (`Shaped`) the two views agree. A chain holds exactly the ids of
the records above (`UpPath.mem_iff`), its `k`-th id naming the record `k + 1` references up
(`UpPath.lookup?_getElem`), so a chain holds `x` exactly when its id names a record strictly
below the record of `x` (`Shaped.mem_chain_iff`). The descendants of `x` are therefore the indexed
ids whose chain holds `x`, and the children of `x` those whose chain starts with `x`. Sorting by id orders descendants and
ancestors strictly (`Node.pairwise_lt_sortById`). Children come in the order of their records'
stamps, and the stamp of a record is the next stamp at the add that drew it
(`WellFormed.storedAfter_of_drawnUnder`), so children come in the order of their adds
(`WellFormed.pairwise_storedAfter_liveChildren`). For an id that the index does not hold every query answers
`none`.

The main statement is `queries_agree_of_addsFresh`.
-/

namespace IndexedTree

namespace Tree

variable {α : Type}

/-! ## Records, ids and chains in a shaped tree -/

section Shaped

variable {t : Tree α}

theorem Shaped.find?_of_node? (hsh : t.Shaped) {c : Stamp} {m : Node α}
    (h : t.node? c = some m) : t.find? m.id = some m := by
  rw [find?, hsh.lookup?_of_node? h]
  exact h

/-- An indexed id finds the node of its record, which carries the id. -/
theorem WellFormed.exists_find?_of_lookup? (hw : t.WellFormed) {x : Bytes} {s : Stamp}
    (hx : t.lookup? x = some s) : ∃ m, t.find? x = some m ∧ t.node? s = some m ∧ m.id = x := by
  obtain ⟨m, hm, hid⟩ := hasId_iff.1 (hw.index_sound x s hx)
  refine ⟨m, ?_, hm, hid⟩
  rw [find?, hx]
  exact hm

/-- In a shaped tree two live records whose nodes have one id are one record. -/
theorem Shaped.eq_of_id_eq (hsh : t.Shaped) {a b : Stamp} {m m' : Node α}
    (ha : t.node? a = some m) (hb : t.node? b = some m') (h : m.id = m'.id) : a = b := by
  have hla := hsh.lookup?_of_node? ha
  rw [h, hsh.lookup?_of_node? hb, Option.some.injEq] at hla
  exact hla.symm

/-- The ids of a path up to the root are the ids of the records above its foot. -/
theorem UpPath.mem_iff (hw : t.WellFormed) (hsh : t.Shaped) {c : Stamp} {l : List Bytes}
    (h : t.UpPath c l) {z : Bytes} :
    z ∈ l ↔ ∃ a, t.lookup? z = some a ∧ ∃ k, t.Below a (k + 1) c := by
  refine ⟨fun hz => (h.ancestors hw hsh).2 z hz, ?_⟩
  induction h with
  | root hr =>
    -- the root has no parent, so nothing lies above it
    rintro ⟨a, -, k, hk⟩
    obtain ⟨p, -, hrp⟩ := hk.last
    exact absurd (mem_liveChildren.1 hrp).1 (hw.root_not_ref _ p hr)
  | @child p c m l hcp hm _ ih =>
    rintro ⟨a, ha, k, hk⟩
    -- the last step of a path to `c` comes from its one parent `p`
    obtain ⟨q, hq, hcq⟩ := hk.last
    rw [hw.parent_eq hcq hcp] at hq
    cases k with
    | zero =>
      have hpa : p = a := Below.zero_iff.1 hq
      rw [← hpa] at ha
      rw [hw.index_sound.id_eq ha (hsh.lookup?_of_node? hm)]
      exact List.mem_cons_self
    | succ k => exact List.mem_cons_of_mem _ (ih ⟨a, ha, k, hq⟩)

/-- The `k`-th id of a path up to the root names the record `k + 1` references above its foot. -/
theorem UpPath.lookup?_getElem (hsh : t.Shaped) {c : Stamp} {l : List Bytes} (h : t.UpPath c l)
    (k : Nat) (hk : k < l.length) : ∃ a, t.lookup? l[k] = some a ∧ t.Below a (k + 1) c := by
  induction h generalizing k with
  | root _ => exact absurd hk (Nat.not_lt_zero _)
  | @child p c m l hcp hm _ ih =>
    cases k with
    | zero => exact ⟨p, hsh.lookup?_of_node? hm, .child hcp (.refl c)⟩
    | succ k =>
      obtain ⟨a, ha, hb⟩ := ih k (by simpa using hk)
      exact ⟨a, ha, hb.tail hcp⟩

/-- The walk from a live record lists it first. -/
theorem subtree_eq_cons {s : Stamp} (hs : t.live s) : t.subtree s = s :: (t.subtree s).tail := by
  obtain ⟨n, hn⟩ : ∃ n, t.records.size = n + 1 :=
    ⟨_, (Nat.succ_pred_eq_of_pos (records_size_pos hs)).symm⟩
  simp only [subtree, preorder, hn, preorderWithin, List.map_cons, List.tail_cons]

/-- After the record itself, the walk from a live record lists the records strictly below it. -/
theorem mem_tail_subtree (hw : t.WellFormed) {s c : Stamp} (hs : t.live s) :
    c ∈ (t.subtree s).tail ↔ t.Reaches s c ∧ c ≠ s := by
  have hcons := subtree_eq_cons hs
  have hnodup := nodup_subtree hw s
  rw [hcons, List.nodup_cons] at hnodup
  have hmem : c ∈ t.subtree s ↔ t.Reaches s c := mem_subtree hw hs
  rw [hcons, List.mem_cons] at hmem
  constructor
  · intro hc
    exact ⟨hmem.1 (.inr hc), fun e => hnodup.1 (e ▸ hc)⟩
  · rintro ⟨hc, hne⟩
    exact (hmem.2 hc).resolve_left hne

end Shaped

/-! ## The queries of a shaped tree -/

section Queries

variable {t : Tree α}

/-- In a shaped tree the chain of an id holds `x` exactly when the id names a record strictly
below the record of `x`. -/
theorem Shaped.mem_chain_iff (hw : t.WellFormed) (hsh : t.Shaped) {x : Bytes} {s : Stamp}
    (hx : t.lookup? x = some s) (y : Bytes) :
    (∃ l, t.chains.chain? y = some l ∧ x ∈ l) ↔
      ∃ c, t.lookup? y = some c ∧ t.Reaches s c ∧ c ≠ s := by
  constructor
  · rintro ⟨l, hl, hxl⟩
    obtain ⟨c, hc⟩ := hw.exists_lookup?_of_chain? hl
    obtain ⟨a, ha, k, hk⟩ := (((hsh.chain?_eq_some_iff hw hc).1 hl).mem_iff hw hsh).1 hxl
    rw [hx, Option.some.injEq] at ha
    subst ha
    exact ⟨c, hc, ⟨k + 1, hk⟩, hk.ne_of_succ hw⟩
  · rintro ⟨c, hc, ⟨k, hk⟩, hne⟩
    obtain ⟨l, hup⟩ := hsh.exists_upPath hw (hw.index_sound.live hc)
    refine ⟨l, hup.chain? hw hsh hc, (hup.mem_iff hw hsh).2 ⟨s, hx, ?_⟩⟩
    cases k with
    | zero => exact absurd (Below.zero_iff.1 hk) hne
    | succ k => exact ⟨k, hk⟩

/-- In a shaped tree the descendants of an indexed id are the nodes of the ids whose chain holds
it, in strictly ascending order of ids. -/
theorem Shaped.descendants?_eq_some (hw : t.WellFormed) (hsh : t.Shaped) {x : Bytes} {s : Stamp}
    (hx : t.lookup? x = some s) :
    ∃ ds, t.descendants? x = some ds ∧ (∀ d ∈ ds, t.find? d.id = some d) ∧
      (∀ y, y ∈ ds.map (·.id) ↔ ∃ l, t.chains.chain? y = some l ∧ x ∈ l) ∧
      (ds.map (·.id)).Pairwise (· < ·) := by
  have hs : t.live s := hw.index_sound.live hx
  set L := (t.subtree s).tail with hL
  have hmemL : ∀ c, c ∈ L ↔ t.Reaches s c ∧ c ≠ s := fun c => mem_tail_subtree hw hs
  have hfind : ∀ d ∈ L.filterMap t.node?, t.find? d.id = some d := by
    intro d hd
    obtain ⟨c, -, hc⟩ := List.mem_filterMap.1 hd
    exact hsh.find?_of_node? hc
  -- an id names a record strictly below `s` exactly when its chain holds `x`
  have hids : ∀ y, y ∈ (L.filterMap t.node?).map (·.id) ↔
      ∃ l, t.chains.chain? y = some l ∧ x ∈ l := by
    intro y
    rw [hsh.mem_chain_iff hw hx y]
    constructor
    · intro hy
      obtain ⟨d, hd, rfl⟩ := List.mem_map.1 hy
      obtain ⟨c, hc, hcd⟩ := List.mem_filterMap.1 hd
      exact ⟨c, hsh.lookup?_of_node? hcd, (hmemL c).1 hc⟩
    · rintro ⟨c, hc, hbelow⟩
      obtain ⟨m, -, hm, rfl⟩ := hw.exists_find?_of_lookup? hc
      exact List.mem_map.2 ⟨m, List.mem_filterMap.2 ⟨c, (hmemL c).2 hbelow, hm⟩, rfl⟩
  -- the records below `s` are distinct, and distinct live records carry distinct ids
  have hnodup : ((L.filterMap t.node?).map (·.id)).Nodup := by
    rw [List.map_filterMap]
    refine List.Nodup.filterMap ?_ ((nodup_subtree hw s).sublist (List.tail_sublist _))
    intro a a' y hya hya'
    rw [Option.mem_def, Option.map_eq_some_iff] at hya hya'
    obtain ⟨m, hm, rfl⟩ := hya
    obtain ⟨m', hm', hid⟩ := hya'
    exact hsh.eq_of_id_eq hm hm' hid.symm
  refine ⟨Node.sortById (L.filterMap t.node?), ?_, fun d hd => ?_, fun y => ?_,
    Node.pairwise_lt_sortById hnodup⟩
  · rw [descendants?, hx]
    rfl
  · exact hfind d ((Node.perm_sortById _).mem_iff.1 hd)
  · rw [((Node.perm_sortById _).map _).mem_iff]
    exact hids y

/-- In a shaped tree the children of an indexed id are the nodes of the ids whose chain starts
with it, in the order of their records' stamps. -/
theorem Shaped.children?_eq_some (hw : t.WellFormed) (hsh : t.Shaped) {x : Bytes} {s : Stamp}
    (hx : t.lookup? x = some s) :
    t.children? x = some ((t.liveChildren s).filterMap t.node?) ∧
      (∀ d ∈ (t.liveChildren s).filterMap t.node?, t.find? d.id = some d) ∧
      ∀ y, y ∈ ((t.liveChildren s).filterMap t.node?).map (·.id) ↔
        ∃ l, t.chains.chain? y = some (x :: l) := by
  refine ⟨by rw [children?, hx]; rfl, fun d hd => ?_, fun y => ⟨fun hy => ?_, fun hy => ?_⟩⟩
  · obtain ⟨c, -, hc⟩ := List.mem_filterMap.1 hd
    exact hsh.find?_of_node? hc
  · -- a child's chain is its parent's id, which is `x`, followed by the parent's chain
    obtain ⟨d, hd, rfl⟩ := List.mem_map.1 hy
    obtain ⟨c, hc, hcd⟩ := List.mem_filterMap.1 hd
    obtain ⟨z, hz, hch⟩ := hsh.chain_child d.id c s (hsh.lookup?_of_node? hcd) hc
    rw [← hw.index_sound.id_eq hx hz] at hch
    obtain ⟨l, hl⟩ := hw.exists_chain?_of_lookup? hx
    exact ⟨l, by rw [hch, hl]; rfl⟩
  · -- an id whose chain starts with `x` names a child of the record of `x`
    obtain ⟨l, hl⟩ := hy
    obtain ⟨c, hc⟩ := hw.exists_lookup?_of_chain? hl
    have hup := (hsh.chain?_eq_some_iff hw hc).1 hl
    cases hup with
    | child hcp hm _ =>
      rw [hsh.lookup?_of_node? hm, Option.some.injEq] at hx
      subst hx
      obtain ⟨d, hd, rfl⟩ := hasId_iff.1 (hw.index_sound y c hc)
      exact List.mem_map.2 ⟨d, List.mem_filterMap.2 ⟨c, hcp, hd⟩, rfl⟩

/-- In a shaped tree the ancestors of an id are the nodes of its chain, in strictly ascending
order of ids. -/
theorem Shaped.ancestors?_eq_some (hw : t.WellFormed) (hsh : t.Shaped) {x : Bytes}
    {l : List Bytes} (hl : t.chains.chain? x = some l) :
    ∃ as, t.ancestors? x = some as ∧ (∀ a ∈ as, t.find? a.id = some a) ∧
      (as.map (·.id)).Perm l ∧ (as.map (·.id)).Pairwise (· < ·) := by
  -- every id of the chain names a record, whose node carries that id
  have hfind : ∀ y ∈ l, ∃ m, t.find? y = some m ∧ m.id = y := by
    intro y hy
    obtain ⟨s, hs⟩ := hw.exists_lookup?_of_chain? hl
    obtain ⟨a, ha, -⟩ := (((hsh.chain?_eq_some_iff hw hs).1 hl).mem_iff hw hsh).1 hy
    obtain ⟨m, hm, -, hid⟩ := hw.exists_find?_of_lookup? ha
    exact ⟨m, hm, hid⟩
  have hids : (l.filterMap t.find?).map (·.id) = l := by
    rw [List.map_filterMap]
    have hsome : (l.filterMap fun y => (t.find? y).map (·.id)) = l.filterMap some := by
      refine List.filterMap_congr fun y hy => ?_
      obtain ⟨m, hm, hid⟩ := hfind y hy
      rw [hm, Option.map_some, hid]
    rw [hsome, List.filterMap_some]
  refine ⟨Node.sortById (l.filterMap t.find?), ?_, fun a ha => ?_, ?_, ?_⟩
  · rw [ancestors?, hl]
    rfl
  · obtain ⟨y, hy, hya⟩ := List.mem_filterMap.1 ((Node.perm_sortById _).mem_iff.1 ha)
    obtain ⟨m, hm, hid⟩ := hfind y hy
    rw [hya, Option.some.injEq] at hm
    subst hm
    rw [hid]
    exact hya
  · have hperm := (Node.perm_sortById (l.filterMap t.find?)).map (·.id)
    rw [hids] at hperm
    exact hperm
  · exact Node.pairwise_lt_sortById (by rw [hids]; exact (hsh.chain_nodup hw hl).1)

/-- In a shaped tree the ancestor `k` steps up from an indexed id is the node of the `k`-th id
of its chain, the record `k + 1` references above, while `k` is below the depth; beyond it there
is none. -/
theorem Shaped.ancestorAt?_eq (hw : t.WellFormed) (hsh : t.Shaped) {x : Bytes} {s : Stamp}
    {l : List Bytes} (hx : t.lookup? x = some s) (hl : t.chains.chain? x = some l) :
    t.depth? x = some l.length ∧
      (∀ k (hk : k < l.length), ∃ a m, t.ancestorAt? x k = some m ∧ t.find? l[k] = some m ∧
        t.lookup? l[k] = some a ∧ t.Below a (k + 1) s) ∧
      ∀ k, l.length ≤ k → t.ancestorAt? x k = none := by
  refine ⟨by simp [depth?, Ancestry.depth?, hl], fun k hk => ?_, fun k hk => ?_⟩
  · obtain ⟨a, ha, hb⟩ := ((hsh.chain?_eq_some_iff hw hx).1 hl).lookup?_getElem hsh k hk
    obtain ⟨m, hfind, -⟩ := hw.exists_find?_of_lookup? ha
    refine ⟨a, m, ?_, hfind, ha, hb⟩
    simp [ancestorAt?, Ancestry.ancestorAt?, hl, List.getElem?_eq_getElem hk, hfind]
  · simp [ancestorAt?, Ancestry.ancestorAt?, hl, List.getElem?_eq_none hk]

/-- Every query about an id that the index does not hold answers `none`. -/
theorem WellFormed.queries_of_lookup?_eq_none (hw : t.WellFormed) {x : Bytes}
    (hx : t.lookup? x = none) :
    t.descendants? x = none ∧ t.children? x = none ∧ t.ancestors? x = none ∧
      t.depth? x = none ∧ ∀ k, t.ancestorAt? x k = none := by
  -- an id has a chain exactly when the index holds it
  have hc : t.chains.chain? x = none := by
    have := hw.chain_iff x
    rw [hx] at this
    simpa using this
  exact ⟨by simp [descendants?, hx], by simp [children?, hx], by simp [ancestors?, hc],
    by simp [depth?, Ancestry.depth?, hc], fun k => by simp [ancestorAt?, Ancestry.ancestorAt?, hc]⟩

end Queries

/-! ## Children come in the order of their adds -/

theorem nextStamp_le_applyAll (t : Tree α) (cs : List (Change α)) :
    t.nextStamp ≤ (t.applyAll cs).nextStamp := by
  induction cs generalizing t with
  | nil => exact Nat.le_refl _
  | cons c cs ih => exact Nat.le_trans (nextStamp_le_apply t c) (ih _)

/-- Of two prefixes of one run, the one after which the next stamp is smaller is the shorter. -/
theorem length_lt_of_nextStamp_lt (t : Tree α) {cs p q r r' : List (Change α)}
    (hp : cs = p ++ r) (hq : cs = q ++ r')
    (h : (t.applyAll p).nextStamp < (t.applyAll q).nextStamp) : p.length < q.length := by
  by_contra hle
  -- the longer prefix extends the shorter one, and the next stamp never goes down
  obtain ⟨mid, rfl⟩ :=
    List.prefix_of_prefix_length_le ⟨r', hq.symm⟩ ⟨r, hp.symm⟩ (Nat.le_of_not_lt hle)
  rw [applyAll_append] at h
  exact Nat.lt_irrefl _ (Nat.lt_of_lt_of_le h (nextStamp_le_applyAll _ mid))

/-- A record that lives after a successful add and was not drawn by it keeps its node. -/
theorem Added.node?_of_live {t t' : Tree α} {n : Node α} {parent : Option Stamp}
    {chain : List Bytes} (ha : Added t t' n parent chain) {c : Stamp} (hl : t'.live c)
    (hc : c ≠ t.nextStamp) : t'.node? c = t.node? c := by
  rcases (ha.live_iff c).1 hl with h | ⟨-, hfree⟩
  · exact absurd h hc
  · rw [ha.node?_eq, if_neg hc, if_neg hfree]

/-- A change leaves the node of every record that lives after it and that it did not draw. -/
theorem WellFormed.node?_apply {t : Tree α} (hw : t.WellFormed) (ch : Change α) {c : Stamp}
    (hl : (t.apply ch).2.live c) (hc : c ≠ t.nextStamp) : (t.apply ch).2.node? c = t.node? c := by
  cases hw.outcome ch with
  | unchanged e heq => rw [heq]
  | rootTaken n _ _ hrec => rw [node?_eq, node?_eq, hrec]
  | added n parent chain _ _ ha => exact ha.node?_of_live hl hc
  | removed x s _ hx heq =>
    rw [heq] at hl ⊢
    have hus := (hw.unlink_vacate hx).index_sound
    -- a record that still lives was not erased
    have hkeep := ((live_eraseSubtree hus s c).1 hl).2
    rw [node?_eraseSubtree hus, if_neg hkeep, node?_vacate, node?_unlink]
  | reset hc =>
    subst hc
    change t.reset.live c at hl
    simp [live_eq, Tree.reset] at hl

/-- A run leaves the node of every record that it did not draw and that lives at its end. -/
theorem WellFormed.node?_applyAll {t : Tree α} (hw : t.WellFormed) (cs : List (Change α))
    {c : Stamp} (hc : c < t.nextStamp) (hl : (t.applyAll cs).live c) :
    (t.applyAll cs).node? c = t.node? c := by
  induction cs generalizing t with
  | nil => rfl
  | cons ch cs ih =>
    have hc' : c < (t.apply ch).2.nextStamp := Nat.lt_of_lt_of_le hc (nextStamp_le_apply t ch)
    -- the record lives after the first change too: a record that dies never lives again
    have hl' : (t.apply ch).2.live c := by
      by_contra hdead
      have := (hw.apply ch).live_applyAll_eq_false cs hc' (Bool.eq_false_iff.2 hdead)
      rw [applyAll_cons, this] at hl
      cases hl
    rw [applyAll_cons, ih (hw.apply ch) hc' hl, hw.node?_apply ch hl' (Nat.ne_of_lt hc)]

/-- After the run `cs` from `t`, the id `y` names the record that the successful add of `y`
right after the prefix `pre` of the run drew. -/
def StoredAfter (t : Tree α) (cs : List (Change α)) (y : Bytes) (pre : List (Change α)) : Prop :=
  ∃ c post, cs = pre ++ c :: post ∧ c.addedId? = some y ∧ ((t.applyAll pre).apply c).1 = .ok () ∧
    (t.applyAll cs).lookup? y = some (t.applyAll pre).nextStamp

/-- A live record that an add of the run drew keeps the node of that add to the end, and if the
tree it reaches is shaped, the node's id names the record there. -/
theorem WellFormed.storedAfter_of_drawnUnder {t : Tree α} (hw : t.WellFormed)
    {cs : List (Change α)} {p c : Stamp} {d : Node α} (hdrawn : t.DrawnUnder cs p c)
    (hsh : (t.applyAll cs).Shaped) (hd : (t.applyAll cs).node? c = some d) :
    ∃ pre, t.StoredAfter cs d.id pre ∧ c = (t.applyAll pre).nextStamp := by
  obtain ⟨pre, m, x, post, hcs, hok, hp, rfl⟩ := hdrawn
  have hwp : (t.applyAll pre).WellFormed := hw.applyAll pre
  -- the add was not refused, so the node's id is not its parent's
  have hx : m.id ≠ x := by
    intro hx
    rw [addChild_of_id_eq hp hx] at hok
    cases hok
  obtain ⟨-, ha⟩ := added_addChild hwp hp m hx
  -- the drawn record keeps the node `m` to the end of the run
  have hend : t.applyAll cs = ((t.applyAll pre).addChild m x).2.applyAll post := by
    rw [hcs, applyAll_append, applyAll_cons]
    rfl
  have hnode : (t.applyAll cs).node? (t.applyAll pre).nextStamp = some m := by
    rw [hend] at hd ⊢
    have hlt : (t.applyAll pre).nextStamp < ((t.applyAll pre).addChild m x).2.nextStamp := by
      rw [ha.nextStamp]
      exact Nat.lt_succ_self _
    rw [(hwp.of_added ha).node?_applyAll post hlt (live_of_node? hd), ha.node?_eq, if_pos rfl]
  rw [hnode, Option.some.injEq] at hd
  rw [← hd]
  exact ⟨pre, ⟨.addChild m x, post, hcs, rfl, hok, hsh.lookup?_of_node? hnode⟩, rfl⟩

/-- The children of a record, on a shaped tree that a run reaches from a tree with no child
references, come in the order in which the run stored their ids. -/
theorem WellFormed.pairwise_storedAfter_liveChildren {t : Tree α} (hw : t.WellFormed)
    (hnone : ∀ p, t.childRefs p = []) {cs : List (Change α)} (hsh : (t.applyAll cs).Shaped)
    (s : Stamp) :
    ((((t.applyAll cs).liveChildren s).filterMap (t.applyAll cs).node?).map (·.id)).Pairwise
      fun y z => ∃ p q, p.length < q.length ∧ t.StoredAfter cs y p ∧ t.StoredAfter cs z q := by
  -- each child was drawn by an add of the run, at a stamp that grows with the run
  have hstored : ∀ c ∈ (t.applyAll cs).liveChildren s, ∀ d, (t.applyAll cs).node? c = some d →
      ∃ pre, t.StoredAfter cs d.id pre ∧ c = (t.applyAll pre).nextStamp := by
    intro c hc d hd
    rcases hw.mem_childRefs_applyAll cs (mem_liveChildren.1 hc).1 with h0 | hdrawn
    · rw [hnone] at h0
      exact absurd h0 List.not_mem_nil
    · exact hw.storedAfter_of_drawnUnder hdrawn hsh hd
  -- the child list is sorted by stamp
  have hsorted : ((t.applyAll cs).liveChildren s).Pairwise fun a b =>
      a ∈ (t.applyAll cs).liveChildren s ∧ b ∈ (t.applyAll cs).liveChildren s ∧ a < b :=
    ((hw.applyAll cs).liveChildren_sorted s).imp_of_mem fun ha hb hab => ⟨ha, hb, hab⟩
  rw [List.pairwise_map]
  refine hsorted.filterMap _ ?_
  rintro a b ⟨ha, hb, hab⟩ d hd d' hd'
  obtain ⟨p, hp, rfl⟩ := hstored a ha d hd
  obtain ⟨q, hq, rfl⟩ := hstored b hb d' hd'
  rcases id hp with ⟨c₁, post₁, hcs₁, -⟩
  rcases id hq with ⟨c₂, post₂, hcs₂, -⟩
  exact ⟨p, q, length_lt_of_nextStamp_lt t hcs₁ hcs₂ hab, hp, hq⟩

/-! ## Runs from an empty tree -/

/-- On every tree that a run of fresh adds reaches from an empty tree, the queries that walk the
links agree with those that read the chains. For an indexed id `x`: the descendants are the nodes
of the ids whose chain holds `x`, each once, in ascending bytewise order of ids; the children are
the nodes of the ids whose chain starts with `x`, in the order in which the run added them; the
ancestors are the nodes of the chain of `x`, in ascending order of ids; the depth is the chain's
length, and the ancestor `k` steps up is the node of the `k`-th id of the chain, the record
`k + 1` references above, below the depth and none beyond it. For an id that the index does not
hold every query answers `none`. -/
theorem queries_agree_of_addsFresh (n : Nat) (h : 0 < n) (cs : List (Change α))
    (hfresh : (Tree.empty n h : Tree α).AddsFresh cs) :
    let t₀ : Tree α := Tree.empty n h
    let t := t₀.applyAll cs
    (∀ x s, t.lookup? x = some s →
      (∃ ds, t.descendants? x = some ds ∧ (∀ d ∈ ds, t.find? d.id = some d) ∧
        (∀ y, y ∈ ds.map (·.id) ↔ ∃ l, t.chains.chain? y = some l ∧ x ∈ l) ∧
        (ds.map (·.id)).Pairwise (· < ·)) ∧
      (∃ ns, t.children? x = some ns ∧ (∀ d ∈ ns, t.find? d.id = some d) ∧
        (∀ y, y ∈ ns.map (·.id) ↔ ∃ l, t.chains.chain? y = some (x :: l)) ∧
        (ns.map (·.id)).Pairwise fun y z =>
          ∃ p q, p.length < q.length ∧ t₀.StoredAfter cs y p ∧ t₀.StoredAfter cs z q) ∧
      (∃ l as, t.chains.chain? x = some l ∧ t.ancestors? x = some as ∧
        (∀ a ∈ as, t.find? a.id = some a) ∧ (as.map (·.id)).Perm l ∧
        (as.map (·.id)).Pairwise (· < ·) ∧ t.depth? x = some l.length ∧
        (∀ k (hk : k < l.length), ∃ a m, t.ancestorAt? x k = some m ∧ t.find? l[k] = some m ∧
          t.lookup? l[k] = some a ∧ t.Below a (k + 1) s) ∧
        ∀ k, l.length ≤ k → t.ancestorAt? x k = none)) ∧
    ∀ x, t.lookup? x = none → t.descendants? x = none ∧ t.children? x = none ∧
      t.ancestors? x = none ∧ t.depth? x = none ∧ ∀ k, t.ancestorAt? x k = none := by
  intro t₀ t
  have hw₀ : t₀.WellFormed := wellFormed_empty n h
  have hw : t.WellFormed := hw₀.applyAll cs
  have hsh : t.Shaped := (shaped_empty n h).applyAll hw₀ cs hfresh
  refine ⟨fun x s hx => ⟨hsh.descendants?_eq_some hw hx, ?_, ?_⟩,
    fun x hx => hw.queries_of_lookup?_eq_none hx⟩
  · obtain ⟨hch, hfind, hids⟩ := hsh.children?_eq_some hw hx
    exact ⟨_, hch, hfind, hids, hw₀.pairwise_storedAfter_liveChildren (childRefs_empty n h) hsh s⟩
  · obtain ⟨l, hl⟩ := hw.exists_chain?_of_lookup? hx
    obtain ⟨as, has, hfind, hperm, hsorted⟩ := hsh.ancestors?_eq_some hw hl
    obtain ⟨hdepth, hat, hnone⟩ := hsh.ancestorAt?_eq hw hx hl
    exact ⟨l, as, hl, has, hfind, hperm, hsorted, hdepth, hat, hnone⟩

/-- A run that adds three levels under distinct ids, a second child of the root, and removes the
first child: its queries agree. -/
theorem queries_agree_of_addsFresh_of_distinct_ids :
    let cs : List (Change Nat) := [.addRoot ⟨⟨[1]⟩, 0⟩, .addChild ⟨⟨[2]⟩, 1⟩ ⟨[1]⟩,
      .addChild ⟨⟨[3]⟩, 2⟩ ⟨[2]⟩, .addChild ⟨⟨[4]⟩, 3⟩ ⟨[1]⟩, .addChild ⟨⟨[5]⟩, 4⟩ ⟨[3]⟩,
      .remove ⟨[3]⟩]
    let t₀ : Tree Nat := Tree.empty 2 (by decide)
    let t := t₀.applyAll cs
    t₀.AddsFresh cs ∧
    (∀ x s, t.lookup? x = some s →
      (∃ ds, t.descendants? x = some ds ∧ (∀ d ∈ ds, t.find? d.id = some d) ∧
        (∀ y, y ∈ ds.map (·.id) ↔ ∃ l, t.chains.chain? y = some l ∧ x ∈ l) ∧
        (ds.map (·.id)).Pairwise (· < ·)) ∧
      (∃ ns, t.children? x = some ns ∧ (∀ d ∈ ns, t.find? d.id = some d) ∧
        (∀ y, y ∈ ns.map (·.id) ↔ ∃ l, t.chains.chain? y = some (x :: l)) ∧
        (ns.map (·.id)).Pairwise fun y z =>
          ∃ p q, p.length < q.length ∧ t₀.StoredAfter cs y p ∧ t₀.StoredAfter cs z q) ∧
      (∃ l as, t.chains.chain? x = some l ∧ t.ancestors? x = some as ∧
        (∀ a ∈ as, t.find? a.id = some a) ∧ (as.map (·.id)).Perm l ∧
        (as.map (·.id)).Pairwise (· < ·) ∧ t.depth? x = some l.length ∧
        (∀ k (hk : k < l.length), ∃ a m, t.ancestorAt? x k = some m ∧ t.find? l[k] = some m ∧
          t.lookup? l[k] = some a ∧ t.Below a (k + 1) s) ∧
        ∀ k, l.length ≤ k → t.ancestorAt? x k = none)) ∧
    ∀ x, t.lookup? x = none → t.descendants? x = none ∧ t.children? x = none ∧
      t.ancestors? x = none ∧ t.depth? x = none ∧ ∀ k, t.ancestorAt? x k = none := by
  intro cs t₀ t
  have hfresh : t₀.AddsFresh cs :=
    (wellFormed_empty 2 (by decide)).addsFresh_of_nodup cs (by decide)
      (fun x _ => by simp [lookup?, Tree.empty])
  exact ⟨hfresh, queries_agree_of_addsFresh 2 (by decide) cs hfresh⟩

end Tree

end IndexedTree
