import IndexedTree.Proofs.Tree.Counter
import IndexedTree.Proofs.Tree.Forest
import IndexedTree.Proofs.Tree.Walks

/-!
# The shape of a tree whose adds name fresh ids

While no add names an id that the index holds, a tree keeps the shape its operations are written
for (`Shaped`): every live record is indexed and lies below the root slot's record, no child list
holds an expired reference, and each indexed id's chain is its parent's id followed by the
parent's chain, the root's chain being empty. A fresh add keeps the shape (`Shaped.of_added`,
over the description `Added` that both adds share). So does a removal (`Shaped.of_removed`):
in a shaped tree `remove` takes out exactly the records at or below the node (`Removed`),
because the unlinking finds the node in its parent's child list through the chain, and every
other record is reached from the root by a path that does not pass through the node.

From the shape follow the facts that the main statement, `shape_of_addsFresh`, collects for every
tree that a run of fresh adds reaches from an empty tree: the counter, the index and the chains
have one size, which is also the number of nodes; the root slot is empty exactly when the index
is, and otherwise holds an indexed record; the walk from the root slot reaches the indexed
records, each once, so their ids are the index's keys; no child list holds an expired reference;
and the chain of an indexed id lists the ids on the path from its parent up to the root
(`UpPath`), so it repeats no id and does not hold the id itself.
-/

namespace IndexedTree

namespace Tree

variable {α : Type}

/-! ## Runs whose adds name fresh ids -/

/-- Every add of the run `cs` from `t` names an id that the index does not hold at that moment. -/
def AddsFresh (t : Tree α) : List (Change α) → Prop
  | [] => True
  | c :: cs => (∀ x, c.addedId? = some x → t.lookup? x = none) ∧ (t.apply c).2.AddsFresh cs

/-- A change gives the index no id but the one it adds. -/
theorem WellFormed.lookup?_apply_eq_none {t : Tree α} (hw : t.WellFormed) (c : Change α)
    {y : Bytes} (h : t.lookup? y = none) (hy : c.addedId? ≠ some y) :
    (t.apply c).2.lookup? y = none := by
  cases hw.outcome c with
  | unchanged e heq =>
    rw [heq]
    exact h
  | rootTaken n _ _ _ hi =>
    rw [lookup?, hi]
    exact h
  | added n parent chain hx _ ha =>
    have hny : n.id ≠ y := fun e => hy (by rw [hx, e])
    rw [ha.lookup?_eq, if_neg hny, h]
  | removed x s _ hx heq =>
    -- a removal only takes entries away
    rw [heq, lookup?_eraseSubtree (hw.unlink_vacate hx).index_sound]
    split
    · rfl
    · simpa [lookup?] using h
  | reset hc =>
    subst hc
    change t.reset.lookup? y = none
    simp [Tree.reset, lookup?]

/-- A run whose adds name distinct ids, none of which the index holds at its start, adds fresh
ids only. -/
theorem WellFormed.addsFresh_of_nodup {t : Tree α} (hw : t.WellFormed) (cs : List (Change α))
    (hnodup : (cs.filterMap Change.addedId?).Nodup)
    (hnone : ∀ x ∈ cs.filterMap Change.addedId?, t.lookup? x = none) : t.AddsFresh cs := by
  induction cs generalizing t with
  | nil => trivial
  | cons c cs ih =>
    cases hc : c.addedId? with
    | none =>
      rw [List.filterMap_cons_none hc] at hnodup hnone
      refine ⟨fun x hx => absurd (hc.symm.trans hx) (by simp), ih (hw.apply c) hnodup ?_⟩
      intro y hy
      exact hw.lookup?_apply_eq_none c (hnone y hy) (by rw [hc]; simp)
    | some x =>
      rw [List.filterMap_cons_some hc] at hnodup hnone
      obtain ⟨hx, hnodup⟩ := List.nodup_cons.1 hnodup
      refine ⟨fun x' hx' => ?_, ih (hw.apply c) hnodup fun y hy => ?_⟩
      · rw [hc, Option.some.injEq] at hx'
        subst hx'
        exact hnone x (by simp)
      · -- a later add names another id than this one
        have hxy : c.addedId? ≠ some y := by
          rw [hc, ne_eq, Option.some.injEq]
          rintro rfl
          exact hx hy
        exact hw.lookup?_apply_eq_none c (hnone y (by simp [hy])) hxy

/-! ## Paths in a tree -/

/-- `t.Reaches s c`: `c` lies at or below `s` along live references. -/
def Reaches (t : Tree α) (s c : Stamp) : Prop := ∃ k, t.Below s k c

theorem Reaches.refl (t : Tree α) (s : Stamp) : t.Reaches s s := ⟨0, .refl s⟩

theorem Reaches.tail {t : Tree α} {s p c : Stamp} (h : t.Reaches s p) (hc : c ∈ t.liveChildren p) :
    t.Reaches s c :=
  let ⟨k, hk⟩ := h
  ⟨k + 1, hk.tail hc⟩

theorem Reaches.trans {t : Tree α} {a b c : Stamp} (hab : t.Reaches a b) (hbc : t.Reaches b c) :
    t.Reaches a c :=
  let ⟨i, hi⟩ := hab
  let ⟨j, hj⟩ := hbc
  ⟨i + j, hi.trans hj⟩

/-- A record below `s` other than `s` has a live parent below `s`. -/
theorem Reaches.parent {t : Tree α} {s c : Stamp} (h : t.Reaches s c) (hc : c ≠ s) :
    ∃ p, t.Reaches s p ∧ c ∈ t.liveChildren p := by
  obtain ⟨k, hk⟩ := h
  cases k with
  | zero => exact absurd (Below.zero_iff.1 hk) hc
  | succ k =>
    obtain ⟨p, hp, hcp⟩ := hk.last
    exact ⟨p, ⟨k, hp⟩, hcp⟩

/-- `t.UpPath s l`: `l` lists the ids of the records on the path of live references from the
parent of `s` up to the root slot's record, nearest first. -/
inductive UpPath (t : Tree α) : Stamp → List Bytes → Prop
  | root {r : Stamp} : t.rootSlot = some r → t.UpPath r []
  | child {p c : Stamp} {m : Node α} {l : List Bytes} :
      c ∈ t.liveChildren p → t.node? p = some m → t.UpPath p l → t.UpPath c (m.id :: l)

/-! ## The shape -/

/-- The shape that a tree keeps while its adds name fresh ids. -/
structure Shaped (t : Tree α) : Prop where
  /-- Every live record is indexed. -/
  indexed_of_live : ∀ s, t.live s → t.indexed s
  /-- Every live record lies below the root slot's record. -/
  reached : ∀ s, t.live s → ∃ r, t.rootSlot = some r ∧ t.Reaches r s
  /-- No child list holds an expired reference. -/
  ref_live : ∀ p c, c ∈ t.childRefs p → t.live c
  /-- The root's id has the empty chain. -/
  chain_root : ∀ x r, t.lookup? x = some r → t.rootSlot = some r → t.chains.chain? x = some []
  /-- A child's id has its parent's id followed by the parent's chain. -/
  chain_child : ∀ x c p, t.lookup? x = some c → c ∈ t.liveChildren p →
    ∃ y, t.lookup? y = some p ∧ t.chains.chain? x = (t.chains.chain? y).map (y :: ·)

/-- In a shaped tree a live record is the one that the index holds under its node's id. -/
theorem Shaped.lookup?_of_node? {t : Tree α} (hsh : t.Shaped) {c : Stamp} {m : Node α}
    (h : t.node? c = some m) : t.lookup? m.id = some c := by
  obtain ⟨m', hm', hl⟩ := indexed_iff.1 (hsh.indexed_of_live c (live_of_node? h))
  rw [h, Option.some.injEq] at hm'
  exact hm' ▸ hl

theorem shaped_empty (n : Nat) (h : 0 < n) : (Tree.empty n h : Tree α).Shaped where
  indexed_of_live s hs := by simp [live_eq, Tree.empty] at hs
  reached s hs := by simp [live_eq, Tree.empty] at hs
  ref_live p c hc := by simp [childRefs, Tree.empty] at hc
  chain_root x r hx := by simp [lookup?, Tree.empty] at hx
  chain_child x c p hx := by simp [lookup?, Tree.empty] at hx

theorem shaped_reset (t : Tree α) : t.reset.Shaped where
  indexed_of_live s hs := by simp [live_eq, Tree.reset] at hs
  reached s hs := by simp [live_eq, Tree.reset] at hs
  ref_live p c hc := by simp [childRefs, Tree.reset] at hc
  chain_root x r hx := by simp [lookup?, Tree.reset] at hx
  chain_child x c p hx := by simp [lookup?, Tree.reset] at hx

/-- A tree with the records, index, chains and root slot of a shaped tree is shaped. -/
theorem Shaped.of_records_eq {t t' : Tree α} (hsh : t.Shaped)
    (hrec : ∀ c : Stamp, t'.records[c]? = t.records[c]?) (hi : t'.index = t.index)
    (hc : t'.chains = t.chains) (hr : t'.rootSlot = t.rootSlot) : t'.Shaped := by
  have hlive := live_congr hrec
  have hrefs := childRefs_congr hrec
  have hkids : ∀ p, t'.liveChildren p = t.liveChildren p := by
    intro p
    rw [liveChildren_eq, liveChildren_eq, hrefs, hlive]
  have hnode : t'.node? = t.node? := funext fun c => by rw [node?_eq, node?_eq, hrec]
  have hlookup : t'.lookup? = t.lookup? := funext fun y => by simp only [lookup?, hi]
  have hidx : t'.indexed = t.indexed := funext fun c => by simp only [indexed, hnode, hi]
  -- paths do not change either
  have hreach : ∀ s d, t.Reaches s d → t'.Reaches s d := fun s d hsd =>
    Exists.imp (fun k hk => hk.mono fun p c h => by rwa [hkids]) hsd
  refine
    { indexed_of_live := fun s h => ?_
      reached := fun s h => ?_
      ref_live := fun p c h => ?_
      chain_root := fun x r h h' => ?_
      chain_child := fun x c p h h' => ?_ }
  · rw [hidx]
    rw [hlive] at h
    exact hsh.indexed_of_live s h
  · rw [hlive] at h
    obtain ⟨r, hroot, hsr⟩ := hsh.reached s h
    exact ⟨r, hr ▸ hroot, hreach r s hsr⟩
  · rw [hlive]
    rw [hrefs] at h
    exact hsh.ref_live p c h
  · rw [hc]
    rw [hlookup] at h
    rw [hr] at h'
    exact hsh.chain_root x r h h'
  · rw [hc, hlookup]
    rw [hlookup] at h
    rw [hkids] at h'
    exact hsh.chain_child x c p h h'

/-! ## A fresh add -/

/-- A fresh add keeps the shape, when it gives a root the empty chain and a child its parent's
id followed by the parent's chain. -/
theorem Shaped.of_added {t t' : Tree α} {n : Node α} {parent : Option Stamp} {chain : List Bytes}
    (hw : t.WellFormed) (hsh : t.Shaped) (ha : Added t t' n parent chain)
    (hfresh : t.lookup? n.id = none) (hroot : parent = none → chain = [])
    (hchild : ∀ p, parent = some p →
      ∃ y, t.lookup? y = some p ∧ chain = y :: (t.chains.chain? y).getD []) :
    t'.Shaped := by
  -- the add frees no record: the id it stores was not indexed
  have hnofree : ∀ c, ¬(t.lookup? n.id = some c ∧ t.rootSlot ≠ some c) := by
    intro c h
    rw [hfresh] at h
    cases h.1
  have hnext : ∀ c, t.live c → c ≠ t.nextStamp := fun c hc e =>
    Nat.lt_irrefl c (e ▸ hw.live_lt c hc)
  have hlive : ∀ c, t'.live c ↔ c = t.nextStamp ∨ t.live c := by
    intro c
    rw [ha.live_iff c]
    simp [hnofree c]
  have hnode : ∀ c, t'.node? c = if c = t.nextStamp then some n else t.node? c := by
    intro c
    rw [ha.node?_eq c]
    simp [hnofree c]
  have hkids : ∀ p c, c ∈ t'.liveChildren p ↔
      c ∈ t.liveChildren p ∨ (parent = some p ∧ c = t.nextStamp) := by
    intro p c
    constructor
    · intro h
      obtain ⟨href, hl⟩ := mem_liveChildren.1 h
      rcases ha.mem_childRefs hw href with h | h
      · -- an old reference points to an old record
        have hc : c ≠ t.nextStamp := Nat.ne_of_lt (hw.ref_lt p c h).2
        exact .inl (mem_liveChildren.2 ⟨h, ((hlive c).1 hl).resolve_left hc⟩)
      · exact .inr h
    · intro h
      have hp : t.live p ∧ p ≠ t.nextStamp := by
        rcases h with h | ⟨hp, -⟩
        · have := live_of_mem_childRefs (mem_liveChildren.1 h).1
          exact ⟨this, hnext p this⟩
        · have := (ha.parent_live hw hp).1
          exact ⟨this, hnext p this⟩
      rw [mem_liveChildren, ha.childRefs_eq hw p, if_neg (by simp [hp.2, hnofree p])]
      rcases h with h | ⟨hpar, rfl⟩
      · obtain ⟨href, hl⟩ := mem_liveChildren.1 h
        refine ⟨?_, (hlive c).2 (.inr hl)⟩
        split
        · exact List.mem_append_left _ href
        · exact href
      · refine ⟨?_, (hlive _).2 (.inl rfl)⟩
        rw [if_pos hpar]
        exact List.mem_append_right _ (List.mem_singleton_self _)
  have hreach : ∀ s d, t.Reaches s d → t'.Reaches s d := fun s d hsd =>
    Exists.imp (fun k hk => hk.mono fun p c h => (hkids p c).2 (.inl h)) hsd
  -- the records that the index held keep their entries
  have hindexed : ∀ c, t.indexed c → t'.indexed c := by
    intro c hc
    obtain ⟨m, hm, hl⟩ := indexed_iff.1 hc
    have hcn : c ≠ t.nextStamp := hnext c (live_of_node? hm)
    have hmn : n.id ≠ m.id := fun e => by rw [e, hl] at hfresh; cases hfresh
    refine indexed_iff.2 ⟨m, by rw [hnode, if_neg hcn, hm], ?_⟩
    rw [ha.lookup?_eq, if_neg hmn, hl]
  have hnext_indexed : t'.indexed t.nextStamp :=
    indexed_iff.2 ⟨n, by rw [hnode, if_pos rfl], by rw [ha.lookup?_eq, if_pos rfl]⟩
  -- the new record is the root exactly when the add has no parent
  have hroot' : ∀ r, t'.rootSlot = some r ↔ (parent = none ∧ r = t.nextStamp) ∨
      (parent ≠ none ∧ t.rootSlot = some r) := by
    intro r
    rw [ha.rootSlot]
    by_cases hp : parent = none
    · simp [hp, eq_comm]
    · simp [hp]
  refine
    { indexed_of_live := fun s h => ?_
      reached := fun s h => ?_
      ref_live := fun p c h => ?_
      chain_root := fun y r h h' => ?_
      chain_child := fun y c p h h' => ?_ }
  · rcases (hlive s).1 h with rfl | h
    · exact hnext_indexed
    · exact hindexed s (hsh.indexed_of_live s h)
  · rcases (hlive s).1 h with rfl | h
    · cases hp : parent with
      | none => exact ⟨t.nextStamp, (hroot' _).2 (.inl ⟨hp, rfl⟩), Reaches.refl _ _⟩
      | some p =>
        -- the new record hangs below its parent, which the root reaches
        obtain ⟨r, hr, hrp⟩ := hsh.reached p (ha.parent_live hw hp).1
        refine ⟨r, (hroot' r).2 (.inr ⟨by simp [hp], hr⟩), (hreach r p hrp).tail ?_⟩
        exact (hkids p _).2 (.inr ⟨hp, rfl⟩)
    · obtain ⟨r, hr, hrs⟩ := hsh.reached s h
      have hp : parent ≠ none := fun hp => by rw [ha.root_empty hp] at hr; cases hr
      exact ⟨r, (hroot' r).2 (.inr ⟨hp, hr⟩), hreach r s hrs⟩
  · rcases ha.mem_childRefs hw h with h | ⟨-, rfl⟩
    · exact (hlive c).2 (.inr (hsh.ref_live p c h))
    · exact (hlive _).2 (.inl rfl)
  · rw [ha.chain?_eq]
    rw [ha.lookup?_eq] at h
    by_cases hy : n.id = y
    · -- the new id: it is the root's exactly when the add has no parent
      rw [if_pos hy, Option.some.injEq] at h
      subst h
      rw [if_pos hy]
      rcases (hroot' _).1 h' with ⟨hp, -⟩ | ⟨-, hr⟩
      · rw [hroot hp]
      · exact absurd (hw.root_live _ hr) (by rw [hw.live_nextStamp]; simp)
    · rw [if_neg hy] at h ⊢
      rcases (hroot' r).1 h' with ⟨-, rfl⟩ | ⟨-, hr⟩
      · exact absurd h (hw.lookup_ne_nextStamp y)
      · exact hsh.chain_root y r h hr
  · rw [ha.lookup?_eq] at h
    rcases (hkids p c).1 h' with hc | ⟨hp, hcn⟩
    · -- an old child: its id is not the new one, nor its parent's
      have hcn : c ≠ t.nextStamp := Nat.ne_of_lt (hw.ref_lt p c (mem_liveChildren.1 hc).1).2
      by_cases hy : n.id = y
      · rw [if_pos hy, Option.some.injEq] at h
        exact absurd h.symm hcn
      rw [if_neg hy] at h
      obtain ⟨z, hz, hch⟩ := hsh.chain_child y c p h hc
      have hzn : n.id ≠ z := fun e => by rw [← e, hfresh] at hz; cases hz
      refine ⟨z, by rw [ha.lookup?_eq, if_neg hzn, hz], ?_⟩
      rw [ha.chain?_eq, ha.chain?_eq, if_neg hy, if_neg hzn, hch]
    · -- the new child: its chain is its parent's id followed by the parent's chain
      subst hcn
      have hy : n.id = y := by
        by_contra hy
        rw [if_neg hy] at h
        exact hw.lookup_ne_nextStamp y h
      obtain ⟨z, hz, hch⟩ := hchild p hp
      have hzn : n.id ≠ z := fun e => by rw [← e, hfresh] at hz; cases hz
      obtain ⟨l, hl⟩ := hw.exists_chain?_of_lookup? hz
      refine ⟨z, by rw [ha.lookup?_eq, if_neg hzn, hz], ?_⟩
      rw [ha.chain?_eq, ha.chain?_eq, if_pos hy, if_neg hzn, hch, hl]
      rfl

/-! ## Unlinking leaves the walk below the record -/

theorem records_size_unlink (t : Tree α) (x : Bytes) :
    (t.unlink x).records.size = t.records.size := by
  unfold unlink
  split
  · exact Std.HashMap.size_modify
  · rfl

/-- The pre-order walk from `s` reads only the live children of the records below `s`. -/
theorem preorderWithin_congr {t t' : Tree α} {s : Stamp}
    (h : ∀ d, t.Reaches s d → t'.liveChildren d = t.liveChildren d) (fuel level : Nat) :
    t'.preorderWithin fuel level s = t.preorderWithin fuel level s := by
  induction fuel generalizing s level with
  | zero => rfl
  | succ fuel ih =>
    simp only [preorderWithin]
    rw [h s (Reaches.refl t s)]
    congr 1
    refine List.flatMap_congr fun c hc => ih (fun d hd => h d ?_) _
    exact ((Reaches.refl t s).tail hc).trans hd

/-- A live child that carries an indexed id is the record of that id. -/
theorem WellFormed.eq_of_hasId_of_mem_liveChildren {t : Tree α} (hw : t.WellFormed) {x : Bytes}
    {s p c : Stamp} (hx : t.lookup? x = some s) (hc : c ∈ t.liveChildren p) (hid : t.hasId x c) :
    c = s := by
  obtain ⟨m, hm, hlookup⟩ := indexed_iff.1 (hw.liveForest.child_indexed p c hc)
  obtain ⟨m', hm', rfl⟩ := hasId_iff.1 hid
  rw [hm] at hm'
  cases hm'
  rw [hx] at hlookup
  exact (Option.some.inj hlookup).symm

/-- Unlinking `x` and emptying the root slot leave the walk from the record of `x` as it was: the
one child unlinking may take away is that record, which is older than every record below it. -/
theorem WellFormed.subtree_unlink_vacate {t : Tree α} (hw : t.WellFormed) {x : Bytes} {s : Stamp}
    (hx : t.lookup? x = some s) : ((t.unlink x).vacate s).subtree s = t.subtree s := by
  have hchildren : ∀ d, t.Reaches s d →
      ((t.unlink x).vacate s).liveChildren d = t.liveChildren d := by
    intro d hd
    have hlive : ((t.unlink x).vacate s).live = t.live := by
      funext c
      rw [live_vacate, live_unlink]
    rw [liveChildren_eq, liveChildren_eq, childRefs_vacate, childRefs_unlink, hlive]
    split
    · -- no child of `d` carries `x`: it would be the record of `x`, above `d`
      rw [List.eraseP_of_forall_not]
      intro c hc hid
      have hcs := hw.eq_of_hasId_of_mem_liveChildren hx
        (mem_liveChildren.2 ⟨hc, live_of_hasId hid⟩) hid
      subst hcs
      obtain ⟨k, hk⟩ := hd
      have hle := hk.add_le hw
      have hlt := hw.lt_of_mem_liveChildren (mem_liveChildren.2 ⟨hc, live_of_hasId hid⟩)
      unfold Stamp at *
      omega
    · rfl
  unfold subtree preorder
  rw [records_vacate, records_size_unlink, preorderWithin_congr hchildren]

/-! ## A removal -/

/-- Erasing the first element that a test picks from a list without repeats, where the test
picks `s` only, erases `s`. -/
private theorem mem_eraseP_of_picks {l : List Stamp} {P : Stamp → Bool} {s c : Stamp}
    (hl : l.Nodup) (hP : ∀ c ∈ l, P c = true ↔ c = s) : c ∈ l.eraseP P ↔ c ∈ l ∧ c ≠ s := by
  by_cases hs : s ∈ l
  · obtain ⟨a, l₁, l₂, -, ha, rfl, he⟩ := List.exists_of_eraseP hs ((hP s hs).2 rfl)
    have has : a = s := (hP a (by simp)).1 ha
    subst has
    have hnot : a ∉ l₁ ++ l₂ := (List.nodup_cons.1 (List.nodup_middle.1 hl)).1
    rw [he]
    constructor
    · intro h
      refine ⟨?_, fun e => hnot (e ▸ h)⟩
      rcases List.mem_append.1 h with h | h
      · exact List.mem_append_left _ h
      · exact List.mem_append_right _ (List.mem_cons_of_mem _ h)
    · rintro ⟨h, hne⟩
      rcases List.mem_append.1 h with h | h
      · exact List.mem_append_left _ h
      · rcases List.mem_cons.1 h with h | h
        · exact absurd h hne
        · exact List.mem_append_right _ h
  · rw [List.eraseP_of_forall_not fun c hc h => hs ((hP c hc).1 h ▸ hc)]
    exact ⟨fun h => ⟨h, fun e => hs (e ▸ h)⟩, And.left⟩

/-- In a shaped tree, unlinking the node of `x` takes its record `s` out of the child list that
holds it, and nothing else: the chain of `x` names the parent, and of the references in a child
list only `s`'s record carries `x`. -/
theorem Shaped.mem_childRefs_unlink {t : Tree α} (hw : t.WellFormed) (hsh : t.Shaped) {x : Bytes}
    {s : Stamp} (hx : t.lookup? x = some s) {p c : Stamp} :
    c ∈ (t.unlink x).childRefs p ↔ c ∈ t.childRefs p ∧ c ≠ s := by
  have hpick : ∀ c ∈ t.childRefs p, t.hasId x c = true ↔ c = s := by
    intro c hc
    constructor
    · -- a referenced record is live, so indexed under its id: if that is `x`, it is `s`
      intro hid
      obtain ⟨m, hm, hmx⟩ := hasId_iff.1 hid
      have hl := hsh.lookup?_of_node? hm
      rw [hmx, hx, Option.some.injEq] at hl
      exact hl.symm
    · rintro rfl
      exact hw.index_sound x c hx
  have hnodup : (t.childRefs p).Nodup := (hw.refs_sorted p).imp Nat.ne_of_lt
  rw [childRefs_unlink]
  split
  · exact mem_eraseP_of_picks hnodup hpick
  · rename_i htarget
    -- a list that holds `s` is the one the chain of `x` leads the unlinking to
    have hs : s ∉ t.childRefs p := by
      intro hs
      obtain ⟨y, hy, hch⟩ :=
        hsh.chain_child x s p hx (mem_liveChildren.2 ⟨hs, hsh.ref_live p s hs⟩)
      obtain ⟨l, hl⟩ := hw.exists_chain?_of_lookup? hy
      apply htarget
      simp [Ancestry.parent?, Ancestry.ancestorAt?, hch, hl, hy]
    exact ⟨fun h => ⟨h, fun e => hs (e ▸ h)⟩, And.left⟩

/-- What removing the node of the record `s` does to a shaped tree: the records at or below `s`
stop living and lose their index entries and chains, `s` leaves its parent's child list and the
root slot, and nothing else changes. -/
structure Removed (t t' : Tree α) (s : Stamp) : Prop where
  live_iff : ∀ c, t'.live c ↔ t.live c ∧ ¬t.Reaches s c
  node?_eq : ∀ c, ¬t.Reaches s c → t'.node? c = t.node? c
  mem_childRefs : ∀ p c, c ∈ t'.childRefs p → c ∈ t.childRefs p ∧ ¬t.Reaches s c
  mem_liveChildren : ∀ p c,
    c ∈ t'.liveChildren p ↔ c ∈ t.liveChildren p ∧ ¬t.Reaches s p ∧ ¬t.Reaches s c
  lookup?_eq_some : ∀ y c, t'.lookup? y = some c ↔ t.lookup? y = some c ∧ ¬t.Reaches s c
  chain?_eq : ∀ y c, t.lookup? y = some c → ¬t.Reaches s c → t'.chains.chain? y = t.chains.chain? y
  rootSlot_eq : t'.rootSlot = if t.rootSlot = some s then none else t.rootSlot

/-- In a shaped tree, removing an id removes the subtree of its record and nothing else. -/
theorem Shaped.removed {t : Tree α} (hw : t.WellFormed) (hsh : t.Shaped) {x : Bytes} {s : Stamp}
    (hx : t.lookup? x = some s) : Removed t (t.remove x).2 s := by
  rw [remove_of_lookup hx]
  set u := (t.unlink x).vacate s with hu_def
  have hu : u.WellFormed := hw.unlink_vacate hx
  have hus := hu.index_sound
  -- unlinking and letting go of the root slot change one child list and the root slot only
  have hlive_u : ∀ c, u.live c = t.live c := fun c => by rw [live_vacate, live_unlink]
  have hnode_u : ∀ c, u.node? c = t.node? c := fun c => by rw [node?_vacate, node?_unlink]
  have hlookup_u : ∀ y, u.lookup? y = t.lookup? y := fun y => by simp [u, lookup?]
  have hchains_u : u.chains = t.chains := by simp [u]
  have hrefs_u : ∀ p c, c ∈ u.childRefs p ↔ c ∈ t.childRefs p ∧ c ≠ s := fun p c => by
    rw [childRefs_vacate]
    exact hsh.mem_childRefs_unlink hw hx
  -- the subtree that `eraseSubtree` walks in `u` is the one below `s` in `t`
  have hsub : ∀ c, c ∈ u.subtree s ↔ t.Reaches s c := fun c => by
    rw [hu_def, hw.subtree_unlink_vacate hx]
    exact mem_subtree hw (hw.index_sound.live hx)
  -- the root slot's record is below `s` only if it is `s`, which `u` no longer holds
  have hroot_u : ∀ c, t.Reaches s c → u.rootSlot ≠ some c := by
    intro c hc hr
    rw [rootSlot_vacate, rootSlot_unlink] at hr
    split at hr
    · cases hr
    · rename_i hne
      by_cases hcs : c = s
      · exact hne (hcs ▸ hr)
      · obtain ⟨p, -, hcp⟩ := hc.parent hcs
        exact hw.root_not_ref c p hr (mem_liveChildren.1 hcp).1
  have hlive' : ∀ c, (u.eraseSubtree s).live c ↔ t.live c ∧ ¬t.Reaches s c := by
    intro c
    rw [live_eraseSubtree hus, hlive_u, hsub]
    by_cases hc : t.Reaches s c
    · simp [hc, hroot_u c hc]
    · simp [hc]
  have hrefs' : ∀ p c, c ∈ (u.eraseSubtree s).childRefs p →
      c ∈ t.childRefs p ∧ ¬t.Reaches s c ∧ ¬t.Reaches s p := by
    intro p c h
    rw [childRefs_eraseSubtree hus] at h
    split at h
    · simp at h
    · rename_i hp
      replace hp : ¬t.Reaches s p := fun h => hp ((hsub p).2 h)
      obtain ⟨hc, hne⟩ := (hrefs_u p c).1 h
      refine ⟨hc, fun hsc => ?_, hp⟩
      -- a record below `s` other than `s` has its one live parent below `s`
      obtain ⟨q, hq, hcq⟩ := hsc.parent hne
      have := hw.parent_eq hcq (mem_liveChildren.2 ⟨hc, hsh.ref_live p c hc⟩)
      exact hp (this ▸ hq)
  refine
    { live_iff := hlive'
      node?_eq := fun c hc => ?_
      mem_childRefs := fun p c h => ⟨(hrefs' p c h).1, (hrefs' p c h).2.1⟩
      mem_liveChildren := fun p c => ?_
      lookup?_eq_some := fun y c => ?_
      chain?_eq := fun y c hy hc => ?_
      rootSlot_eq := ?_ }
  · rw [node?_eraseSubtree hus, if_neg fun h => hc ((hsub c).1 h.1), hnode_u]
  · constructor
    · intro h
      obtain ⟨href, hl⟩ := mem_liveChildren.1 h
      obtain ⟨hc, hnc, hnp⟩ := hrefs' p c href
      exact ⟨mem_liveChildren.2 ⟨hc, ((hlive' c).1 hl).1⟩, hnp, hnc⟩
    · rintro ⟨hc, hnp, hnc⟩
      obtain ⟨href, hl⟩ := mem_liveChildren.1 hc
      refine mem_liveChildren.2 ⟨?_, (hlive' c).2 ⟨hl, hnc⟩⟩
      rw [childRefs_eraseSubtree hus, if_neg fun h => hnp ((hsub p).1 h)]
      exact (hrefs_u p c).2 ⟨href, fun e => hnc (e ▸ Reaches.refl t s)⟩
  · rw [lookup?_eraseSubtree hus, hlookup_u]
    split
    · rename_i h
      obtain ⟨c', hc', hy'⟩ := h
      constructor
      · intro h
        cases h
      · rintro ⟨hy, hnc⟩
        rw [hy, Option.some.injEq] at hy'
        subst hy'
        exact absurd ((hsub c).1 hc') hnc
    · rename_i h
      exact ⟨fun hy => ⟨hy, fun hc => h ⟨c, (hsub c).2 hc, hy⟩⟩, And.left⟩
  · rw [chain?_eraseSubtree hus, hchains_u, if_neg]
    rintro ⟨c', hc', hy'⟩
    rw [hlookup_u, hy, Option.some.injEq] at hy'
    subst hy'
    exact hc ((hsub c).1 hc')
  · rw [rootSlot_eraseSubtree, rootSlot_vacate, rootSlot_unlink]

/-- A removal described by `Removed` keeps the shape. -/
theorem Shaped.of_removed {t t' : Tree α} {s : Stamp} (hsh : t.Shaped) (hr : Removed t t' s) :
    t'.Shaped := by
  have hindexed : ∀ c, t.indexed c → ¬t.Reaches s c → t'.indexed c := by
    intro c hc hnc
    obtain ⟨m, hm, hl⟩ := indexed_iff.1 hc
    exact indexed_iff.2 ⟨m, by rw [hr.node?_eq c hnc, hm], (hr.lookup?_eq_some _ _).2 ⟨hl, hnc⟩⟩
  -- a path that ends outside the subtree of `s` stays outside it all along, so it survives
  have hpath : ∀ {a k d}, t.Below a k d → ¬t.Reaches s d → t'.Below a k d := by
    intro a k d hb
    induction hb with
    | refl a => exact fun _ => .refl a
    | @child a a' d k hc hb ih =>
      intro hnd
      have hna' : ¬t.Reaches s a' := fun h => hnd (h.trans ⟨k, hb⟩)
      have hna : ¬t.Reaches s a := fun h => hna' (h.tail hc)
      exact .child ((hr.mem_liveChildren a a').2 ⟨hc, hna, hna'⟩) (ih hnd)
  refine
    { indexed_of_live := fun c h => ?_
      reached := fun c h => ?_
      ref_live := fun p c h => ?_
      chain_root := fun y r h h' => ?_
      chain_child := fun y c p h h' => ?_ }
  · obtain ⟨hl, hnc⟩ := (hr.live_iff c).1 h
    exact hindexed c (hsh.indexed_of_live c hl) hnc
  · obtain ⟨hl, hnc⟩ := (hr.live_iff c).1 h
    obtain ⟨r, hroot, k, hk⟩ := hsh.reached c hl
    -- the root is not `s`, or `c` would lie below `s`
    have hrs : r ≠ s := fun e => hnc (e ▸ ⟨k, hk⟩)
    refine ⟨r, ?_, k, hpath hk hnc⟩
    rw [hr.rootSlot_eq, hroot, if_neg fun e => hrs (Option.some.inj e)]
  · obtain ⟨hc, hnc⟩ := hr.mem_childRefs p c h
    exact (hr.live_iff c).2 ⟨hsh.ref_live p c hc, hnc⟩
  · obtain ⟨hy, hnr⟩ := (hr.lookup?_eq_some y r).1 h
    have hroot : t.rootSlot = some r := by
      rw [hr.rootSlot_eq] at h'
      split at h'
      · cases h'
      · exact h'
    rw [hr.chain?_eq y r hy hnr]
    exact hsh.chain_root y r hy hroot
  · obtain ⟨hy, hnc⟩ := (hr.lookup?_eq_some y c).1 h
    obtain ⟨hc, hnp, -⟩ := (hr.mem_liveChildren p c).1 h'
    obtain ⟨z, hz, hch⟩ := hsh.chain_child y c p hy hc
    refine ⟨z, (hr.lookup?_eq_some z p).2 ⟨hz, hnp⟩, ?_⟩
    rw [hr.chain?_eq y c hy hnc, hr.chain?_eq z p hz hnp, hch]

/-! ## Runs -/

/-- Every change whose add, if any, names a fresh id keeps the shape. -/
theorem Shaped.apply {t : Tree α} (hw : t.WellFormed) (hsh : t.Shaped) (c : Change α)
    (hfresh : ∀ x, c.addedId? = some x → t.lookup? x = none) : (t.apply c).2.Shaped := by
  cases hw.outcome c with
  | unchanged e heq =>
    rw [heq]
    exact hsh
  | rootTaken n _ _ hrec hi hch hroot =>
    -- a refused root add draws a record and frees it at once
    exact hsh.of_records_eq hrec hi hch hroot
  | added n parent chain hx _ ha hroot hchild =>
    refine hsh.of_added hw ha (hfresh n.id hx) (fun hp => (hroot hp).2) fun p hp => ?_
    obtain ⟨x, -, hxp, hch⟩ := hchild p hp
    exact ⟨x, hxp, hch⟩
  | removed x s hc hx =>
    subst hc
    exact hsh.of_removed (hsh.removed hw hx)
  | reset hc =>
    subst hc
    exact shaped_reset t

/-- Every run of fresh adds from a well-formed, shaped tree keeps the shape. -/
theorem Shaped.applyAll {t : Tree α} (hw : t.WellFormed) (hsh : t.Shaped) (cs : List (Change α))
    (hfresh : t.AddsFresh cs) : (t.applyAll cs).Shaped := by
  induction cs generalizing t with
  | nil => exact hsh
  | cons c cs ih => exact ih (hw.apply c) (hsh.apply hw c hfresh.1) hfresh.2

/-- A run of fresh adds never overwrites an index entry. -/
theorem overwriteTally_of_addsFresh {t : Tree α} (cs : List (Change α)) (hfresh : t.AddsFresh cs) :
    t.overwriteTally 0 cs = 0 := by
  induction cs generalizing t with
  | nil => rfl
  | cons c cs ih =>
    -- the change names no indexed id, so it adds nothing to the tally
    have htally : t.tallyAfter 0 c = 0 := by
      cases c with
      | addRoot m => simp [tallyAfter, overwrites, Change.addedId?, hfresh.1 m.id rfl]
      | addChild m x => simp [tallyAfter, overwrites, Change.addedId?, hfresh.1 m.id rfl]
      | remove x => simp [tallyAfter, overwrites, Change.addedId?]
      | reset => rfl
    rw [overwriteTally, htally]
    exact ih hfresh.2

/-! ## What the shape gives -/

section Consequences

variable {t : Tree α}

/-- The root slot of a shaped tree is empty exactly when the index is. -/
theorem Shaped.rootSlot_eq_none_iff (hw : t.WellFormed) (hsh : t.Shaped) :
    t.rootSlot = none ↔ ∀ x, t.lookup? x = none := by
  constructor
  · intro hr x
    cases hx : t.lookup? x with
    | none => rfl
    | some s =>
      -- an indexed record lives, so the root slot holds the record above it
      obtain ⟨r, hroot, -⟩ := hsh.reached s (hw.index_sound.live hx)
      rw [hr] at hroot
      cases hroot
  · intro hnone
    cases hr : t.rootSlot with
    | none => rfl
    | some r =>
      obtain ⟨m, -, hl⟩ := indexed_iff.1 (hsh.indexed_of_live r (hw.root_live r hr))
      rw [hnone] at hl
      cases hl

/-- The walk from the root slot of a shaped tree reaches exactly the indexed records. -/
theorem Shaped.mem_subtree_root (hw : t.WellFormed) (hsh : t.Shaped) {r : Stamp}
    (hr : t.rootSlot = some r) {c : Stamp} : c ∈ t.subtree r ↔ t.indexed c := by
  rw [mem_subtree hw (hw.root_live r hr)]
  constructor
  · rintro ⟨k, hk⟩
    exact hsh.indexed_of_live c (hk.live (hw.root_live r hr))
  · intro hc
    obtain ⟨m, hm, -⟩ := indexed_iff.1 hc
    obtain ⟨r', hr', hreach⟩ := hsh.reached c (live_of_node? hm)
    rw [hr, Option.some.injEq] at hr'
    exact hr' ▸ hreach

/-- The records of a well-formed tree's index entries, each once. -/
theorem WellFormed.nodup_map_snd_toList (hw : t.WellFormed) :
    (t.index.toList.map Prod.snd).Nodup := by
  have hnodup : t.index.toList.Nodup :=
    List.Nodup.of_map Prod.fst (ShardedMap.nodup_keys_toList hw.index_placed)
  refine hnodup.map_on ?_
  -- one record is indexed under one id only
  rintro ⟨x, s⟩ he ⟨y, s'⟩ he' (rfl : s = s')
  have hx := (ShardedMap.mem_toList hw.index_placed).1 he
  have hy := (ShardedMap.mem_toList hw.index_placed).1 he'
  rw [hw.index_sound.id_eq hx hy]

/-- The walk from the root slot of a shaped tree lists the nodes of the index, each once. -/
theorem Shaped.perm_nodes_subtree_root (hw : t.WellFormed) (hsh : t.Shaped) {r : Stamp}
    (hr : t.rootSlot = some r) : ((t.subtree r).filterMap t.node?).Perm t.nodes := by
  have hperm : (t.subtree r).Perm (t.index.toList.map Prod.snd) := by
    refine (List.perm_ext_iff_of_nodup (nodup_subtree hw r) hw.nodup_map_snd_toList).2 ?_
    intro c
    rw [hsh.mem_subtree_root hw hr, hw.index_sound.indexed_iff]
    simp [ShardedMap.mem_toList hw.index_placed, lookup?]
  have hnodes : (t.index.toList.map Prod.snd).filterMap t.node? = t.nodes := by
    rw [List.filterMap_map]
    rfl
  exact hnodes ▸ hperm.filterMap t.node?

/-- The chain that a path up to the root gives: every id of it names a record above. -/
theorem UpPath.ancestors (hw : t.WellFormed) (hsh : t.Shaped) {s : Stamp} {l : List Bytes}
    (h : t.UpPath s l) :
    l.Nodup ∧ ∀ y ∈ l, ∃ a, t.lookup? y = some a ∧ ∃ k, t.Below a (k + 1) s := by
  induction h with
  | root _ => exact ⟨List.nodup_nil, by simp⟩
  | @child p c m l hcp hm _ ih =>
    obtain ⟨hnodup, hanc⟩ := ih
    -- the parent is indexed under the id of its node
    have hp : t.lookup? m.id = some p := hsh.lookup?_of_node? hm
    have hnot : m.id ∉ l := by
      intro hml
      obtain ⟨a, ha, k, hk⟩ := hanc m.id hml
      rw [hp, Option.some.injEq] at ha
      subst ha
      exact hk.ne_of_succ hw rfl
    refine ⟨List.nodup_cons.2 ⟨hnot, hnodup⟩, fun y hy => ?_⟩
    rcases List.mem_cons.1 hy with rfl | hy
    · exact ⟨p, hp, 0, .child hcp (.refl c)⟩
    · obtain ⟨a, ha, k, hk⟩ := hanc y hy
      exact ⟨a, ha, k + 1, hk.tail hcp⟩

/-- The ids of a path up to the root are the chain of the id at its foot. -/
theorem UpPath.chain? (hw : t.WellFormed) (hsh : t.Shaped) {s : Stamp} {l : List Bytes}
    (h : t.UpPath s l) {x : Bytes} (hx : t.lookup? x = some s) : t.chains.chain? x = some l := by
  induction h generalizing x with
  | root hr => exact hsh.chain_root x _ hx hr
  | @child p c m l hcp hm _ ih =>
    -- the chain of `x` is the parent's id followed by the parent's chain
    obtain ⟨y, hy, hch⟩ := hsh.chain_child x c p hx hcp
    have hym : y = m.id := by
      obtain ⟨m', hm', hid⟩ := hasId_iff.1 (hw.index_sound y p hy)
      rw [hm, Option.some.injEq] at hm'
      rw [← hid, hm']
    rw [hch, ih hy, hym]
    rfl

/-- Every live record of a shaped tree has a path up to the root. -/
theorem Shaped.exists_upPath (hw : t.WellFormed) (hsh : t.Shaped) {s : Stamp} (hs : t.live s) :
    ∃ l, t.UpPath s l := by
  obtain ⟨r, hr, k, hk⟩ := hsh.reached s hs
  -- climb from `s` to the root one parent at a time
  induction k generalizing s with
  | zero =>
    rw [Below.zero_iff.1 hk]
    exact ⟨[], .root hr⟩
  | succ k ih =>
    obtain ⟨p, hp, hsp⟩ := hk.last
    have hplive : t.live p := hp.live (hw.root_live r hr)
    obtain ⟨l, hl⟩ := ih hplive hp
    obtain ⟨m, hm⟩ := Option.isSome_iff_exists.1
      (show (t.node? p).isSome by rw [node?_eq, Option.isSome_map, ← live_eq]; exact hplive)
    exact ⟨m.id :: l, .child hsp hm hl⟩

/-- In a shaped tree the chain of an indexed id is the list of ids up from its record. -/
theorem Shaped.chain?_eq_some_iff (hw : t.WellFormed) (hsh : t.Shaped) {x : Bytes} {s : Stamp}
    (hx : t.lookup? x = some s) {l : List Bytes} : t.chains.chain? x = some l ↔ t.UpPath s l := by
  obtain ⟨l', hl'⟩ := hsh.exists_upPath hw (hw.index_sound.live hx)
  constructor
  · intro hl
    rw [hl'.chain? hw hsh hx, Option.some.injEq] at hl
    exact hl ▸ hl'
  · intro hl
    exact hl.chain? hw hsh hx

/-- In a shaped tree a chain repeats no id and does not hold its own id. -/
theorem Shaped.chain_nodup (hw : t.WellFormed) (hsh : t.Shaped) {x : Bytes} {l : List Bytes}
    (h : t.chains.chain? x = some l) : l.Nodup ∧ x ∉ l := by
  obtain ⟨s, hx⟩ := hw.exists_lookup?_of_chain? h
  obtain ⟨hnodup, hanc⟩ := (((hsh.chain?_eq_some_iff hw hx).1 h).ancestors hw hsh)
  refine ⟨hnodup, fun hxl => ?_⟩
  -- `x` would name a record above its own
  obtain ⟨a, ha, k, hk⟩ := hanc x hxl
  rw [hx, Option.some.injEq] at ha
  subst ha
  exact hk.ne_of_succ hw rfl

end Consequences

/-! ## Runs from an empty tree -/

/-- Every tree that a run of fresh adds reaches from an empty tree has its expected shape. The
counter, the index and the chains have one size, which is the number of nodes. The root slot is
empty exactly when the index is, and otherwise holds an indexed record from which the walk
reaches the indexed records, each once, with the index's ids. No child list holds an expired
reference. The chain of an indexed id is the list of ids on the path from its parent up to the
root, so it repeats no id and does not hold the id itself. -/
theorem shape_of_addsFresh (n : Nat) (h : 0 < n) (cs : List (Change α))
    (hfresh : (Tree.empty n h : Tree α).AddsFresh cs) :
    let t := (Tree.empty n h : Tree α).applyAll cs
    (t.size = t.index.size ∧ t.chains.size = t.index.size ∧ t.nodes.length = t.index.size) ∧
    (t.rootSlot = none ↔ ∀ x, t.lookup? x = none) ∧
    (∀ r, t.rootSlot = some r → t.indexed r ∧ (∀ c, c ∈ t.subtree r ↔ t.indexed c) ∧
      (t.subtree r).Nodup ∧
      (((t.subtree r).filterMap t.node?).map (·.id)).Perm (t.index.toList.map Prod.fst)) ∧
    (∀ p c, c ∈ t.childRefs p → t.live c) ∧
    (∀ x s, t.lookup? x = some s → ∀ l, t.chains.chain? x = some l ↔ t.UpPath s l) ∧
    (∀ x l, t.chains.chain? x = some l → l.Nodup ∧ x ∉ l) := by
  intro t
  have hw₀ : (Tree.empty n h : Tree α).WellFormed := wellFormed_empty n h
  have hw : t.WellFormed := hw₀.applyAll cs
  have hsh : t.Shaped := (shaped_empty n h).applyAll hw₀ cs hfresh
  -- the sizes: no add overwrote, and the chains have the index's keys
  have hk₀ : (Tree.empty n h : Tree α).count = (Tree.empty n h : Tree α).index.size + 0 := by
    simp [Tree.empty]
  have hsize : t.size = t.index.size := by
    have := hw₀.count_applyAll hk₀ cs
    rw [overwriteTally_of_addsFresh cs hfresh] at this
    exact this
  have hchains : t.chains.size = t.index.size :=
    ShardedMap.size_eq_of_keys hw.chains_placed hw.index_placed hw.chain_iff
  refine ⟨⟨hsize, hchains, hw.length_nodes⟩, hsh.rootSlot_eq_none_iff hw, fun r hr => ?_,
    hsh.ref_live, fun x s hx l => hsh.chain?_eq_some_iff hw hx, fun x l => hsh.chain_nodup hw⟩
  -- the walk from the root: the indexed records, each once, with the index's ids
  have hperm := (hsh.perm_nodes_subtree_root hw hr).map (·.id)
  rw [hw.nodes_map_id] at hperm
  exact ⟨hsh.indexed_of_live r (hw.root_live r hr), fun c => hsh.mem_subtree_root hw hr,
    nodup_subtree hw r, hperm⟩

/-- A run that builds three levels under distinct ids and removes a middle node: its tree has
the expected shape. -/
theorem shape_of_addsFresh_of_distinct_ids :
    let cs : List (Change Nat) := [.addRoot ⟨⟨[1]⟩, 0⟩, .addChild ⟨⟨[2]⟩, 1⟩ ⟨[1]⟩,
      .addChild ⟨⟨[3]⟩, 2⟩ ⟨[2]⟩, .addChild ⟨⟨[4]⟩, 3⟩ ⟨[1]⟩, .remove ⟨[2]⟩]
    let t₀ : Tree Nat := Tree.empty 2 (by decide)
    let t := t₀.applyAll cs
    t₀.AddsFresh cs ∧
    (t.size = t.index.size ∧ t.chains.size = t.index.size ∧ t.nodes.length = t.index.size) ∧
    (t.rootSlot = none ↔ ∀ x, t.lookup? x = none) ∧
    (∀ r, t.rootSlot = some r → t.indexed r ∧ (∀ c, c ∈ t.subtree r ↔ t.indexed c) ∧
      (t.subtree r).Nodup ∧
      (((t.subtree r).filterMap t.node?).map (·.id)).Perm (t.index.toList.map Prod.fst)) ∧
    (∀ p c, c ∈ t.childRefs p → t.live c) ∧
    (∀ x s, t.lookup? x = some s → ∀ l, t.chains.chain? x = some l ↔ t.UpPath s l) ∧
    (∀ x l, t.chains.chain? x = some l → l.Nodup ∧ x ∉ l) := by
  intro cs t₀ t
  have hfresh : t₀.AddsFresh cs :=
    (wellFormed_empty 2 (by decide)).addsFresh_of_nodup cs (by decide)
      (fun x _ => by simp [lookup?, Tree.empty])
  exact ⟨hfresh, shape_of_addsFresh 2 (by decide) cs hfresh⟩

end Tree

end IndexedTree
