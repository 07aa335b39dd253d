import IndexedTree.Tree.Print
import IndexedTree.Proofs.Tree.Steps

/-!
# Trees do not depend on their shard count

A tree keeps its index and its chains in sharded maps and reads them by key only, through `get?`,
`insert`, `erase` and `clear`; the one exception is `nodes`, which lists the index shard by
shard. `Resharded t t'` says that `t'` is `t` with its index and chains split otherwise: the same
records, root slot, counter, spare pool and next stamp, and the same record and chain under every
id. Each step of a change keeps two trees resharded, and the change gives both the same answer
(`Resharded.apply`); every query but `nodes` answers alike on them, and `nodes` lists the same
nodes in another order (`Resharded.nodes_perm`).

The empty trees of any two shard counts are resharded, so a run of changes from each leaves two
trees that no query but the order of `nodes` tells apart.
-/

namespace IndexedTree

namespace Tree

variable {α : Type}

/-- `t'` is `t` with its index and its chains split into shards otherwise: the same records, root
slot, counter, spare pool and next stamp, and the same record and chain under every id. -/
structure Resharded (t t' : Tree α) : Prop where
  records : t'.records = t.records
  rootSlot : t'.rootSlot = t.rootSlot
  count : t'.count = t.count
  spare : t'.spare = t.spare
  nextStamp : t'.nextStamp = t.nextStamp
  get? : ∀ x, t'.index.get? x = t.index.get? x
  chain? : ∀ x, t'.chains.chain? x = t.chains.chain? x

namespace Resharded

variable {t t' : Tree α}

theorem empty (n n' : Nat) (h : 0 < n) (h' : 0 < n') :
    Resharded (Tree.empty n h : Tree α) (Tree.empty n' h') :=
  ⟨rfl, rfl, rfl, rfl, rfl, fun x => by simp [Tree.empty], fun x => by simp [Tree.empty]⟩

/-! ## Views read off the records, the root slot and the two maps by key -/

theorem lookup? (h : Resharded t t') : t'.lookup? = t.lookup? := funext h.get?

theorem live (h : Resharded t t') : t'.live = t.live := by
  funext s
  simp only [Tree.live, h.records]

theorem node? (h : Resharded t t') : t'.node? = t.node? := by
  funext s
  simp only [Tree.node?, h.records]

theorem hasId (h : Resharded t t') : t'.hasId = t.hasId := by
  funext x s
  simp only [Tree.hasId, h.node?]

theorem indexed (h : Resharded t t') : t'.indexed = t.indexed := by
  funext s
  simp only [Tree.indexed, h.node?, h.get?]

theorem held (h : Resharded t t') : t'.held = t.held := by
  funext s
  simp only [Tree.held, h.indexed, h.rootSlot]

theorem liveChildren (h : Resharded t t') : t'.liveChildren = t.liveChildren := by
  funext s
  simp only [Tree.liveChildren, h.records, h.live]

theorem preorderWithin (h : Resharded t t') : t'.preorderWithin = t.preorderWithin := by
  funext fuel
  induction fuel with
  | zero => rfl
  | succ fuel ih =>
    funext level s
    simp only [Tree.preorderWithin, h.liveChildren, ih]

theorem preorder (h : Resharded t t') : t'.preorder = t.preorder := by
  funext s
  simp only [Tree.preorder, h.preorderWithin, h.records]

theorem subtree (h : Resharded t t') : t'.subtree = t.subtree := by
  funext s
  simp only [Tree.subtree, h.preorder]

theorem levelsWithin (h : Resharded t t') : t'.levelsWithin = t.levelsWithin := by
  funext fuel
  induction fuel with
  | zero => rfl
  | succ fuel ih =>
    funext level
    cases level with
    | nil => rfl
    | cons s rest => simp only [Tree.levelsWithin, h.liveChildren, ih]

theorem levels (h : Resharded t t') : t'.levels = t.levels := by
  simp only [Tree.levels, h.levelsWithin, h.records, h.rootSlot]

theorem drain (h : Resharded t t') : t'.drain = t.drain := by
  funext n
  induction n with
  | zero => rfl
  | succ n ih =>
    funext queue
    cases queue with
    | nil => rfl
    | cons p rest => simp only [Tree.drain, h.liveChildren, ih]

theorem countLevels (h : Resharded t t') : t'.countLevels = t.countLevels := by
  funext fuel
  induction fuel with
  | zero => rfl
  | succ fuel ih =>
    funext queue levels maxWidth
    simp only [Tree.countLevels, h.drain, ih]

theorem heightWidth (h : Resharded t t') : t'.heightWidth = t.heightWidth := by
  simp only [Tree.heightWidth, h.countLevels, h.records, h.rootSlot]

theorem parent? (h : Resharded t t') (x : Bytes) : t'.chains.parent? x = t.chains.parent? x := by
  simp only [Ancestry.parent?, Ancestry.ancestorAt?, h.chain?]

/-! ## The steps of a change -/

theorem release (h : Resharded t t') (s : Stamp) : Resharded (t.release s) (t'.release s) := by
  unfold Tree.release
  rw [h.live, h.held]
  split
  · exact ⟨by simp only [h.records], h.rootSlot, h.count, by simp only [h.spare], h.nextStamp,
      h.get?, h.chain?⟩
  · exact h

theorem draw (h : Resharded t t') (n : Node α) :
    (t'.draw n).1 = (t.draw n).1 ∧ Resharded (t.draw n).2 (t'.draw n).2 :=
  ⟨h.nextStamp, ⟨by simp only [Tree.draw, h.records, h.nextStamp], h.rootSlot, h.count,
    by simp only [Tree.draw, h.spare], by simp only [Tree.draw, h.nextStamp], h.get?, h.chain?⟩⟩

theorem modifyChildren (h : Resharded t t') (s : Stamp) (f : ChildList Stamp → ChildList Stamp) :
    Resharded (t.modifyChildren s f) (t'.modifyChildren s f) :=
  ⟨by simp only [Tree.modifyChildren, h.records], h.rootSlot, h.count, h.spare, h.nextStamp,
    h.get?, h.chain?⟩

/-- Two resharded trees store a record under an id alike. -/
theorem store (h : Resharded t t') (x : Bytes) (s : Stamp) :
    Resharded (t.store x s) (t'.store x s) := by
  have hins : Resharded { t with index := t.index.insert x s } { t' with index := t'.index.insert x s } :=
    ⟨h.records, h.rootSlot, h.count, h.spare, h.nextStamp,
      fun y => by simp only [ShardedMap.get?_insert, h.get?], h.chain?⟩
  unfold Tree.store
  rw [h.get? x]
  cases t.index.get? x with
  | none => exact hins
  | some o => exact hins.release o

theorem drop (h : Resharded t t') (s : Stamp) : Resharded (t.drop s) (t'.drop s) := by
  cases hn : t.node? s with
  | none =>
    have hn' : t'.node? s = none := by rw [h.node?, hn]
    rw [drop_of_node?_none hn, drop_of_node?_none hn']
    exact h
  | some n =>
    have hn' : t'.node? s = some n := by rw [h.node?, hn]
    rw [drop_of_node? hn, drop_of_node? hn', h.get?]
    split
    · exact ⟨h.records, h.rootSlot, by simp only [h.count], h.spare, h.nextStamp,
        fun y => by simp only [ShardedMap.get?_erase, h.get?],
        fun y => by simp only [Ancestry.chain?_detach, h.chain?]⟩
    · exact h

/-- A step that keeps trees resharded keeps them so along a list. -/
theorem foldl {β : Type} {f : Tree α → β → Tree α}
    (hf : ∀ {u u' : Tree α} (b : β), Resharded u u' → Resharded (f u b) (f u' b)) (L : List β)
    (h : Resharded t t') : Resharded (L.foldl f t) (L.foldl f t') := by
  induction L generalizing t t' with
  | nil => exact h
  | cons b L ih => exact ih (hf b h)

theorem eraseSubtree (h : Resharded t t') (s : Stamp) :
    Resharded (t.eraseSubtree s) (t'.eraseSubtree s) := by
  unfold Tree.eraseSubtree
  rw [h.subtree]
  refine foldl (fun b hu => hu.release b) _ (foldl (fun b hu => hu.modifyChildren b _) _ ?_)
  exact foldl (fun b hu => hu.drop b) _ h

theorem unlink (h : Resharded t t') (x : Bytes) : Resharded (t.unlink x) (t'.unlink x) := by
  unfold Tree.unlink
  rw [h.parent? x, h.lookup?, h.hasId]
  split
  · exact h.modifyChildren _ _
  · exact h

theorem vacate (h : Resharded t t') (s : Stamp) : Resharded (t.vacate s) (t'.vacate s) := by
  unfold Tree.vacate
  rw [h.rootSlot]
  split
  · exact ⟨h.records, rfl, h.count, h.spare, h.nextStamp, h.get?, h.chain?⟩
  · exact h

theorem reset (h : Resharded t t') : Resharded t.reset t'.reset :=
  ⟨rfl, rfl, rfl, by simp only [Tree.reset, h.records, h.spare], h.nextStamp,
    fun x => by simp only [Tree.reset, ShardedMap.get?_clear],
    fun x => by simp only [Tree.reset, Ancestry.chain?_clear]⟩

/-! ## Changes -/

theorem addRoot (h : Resharded t t') (n : Node α) :
    (t'.addRoot n).1 = (t.addRoot n).1 ∧ Resharded (t.addRoot n).2 (t'.addRoot n).2 := by
  obtain ⟨hr, hd⟩ := h.draw n
  unfold Tree.addRoot
  generalize t.draw n = D at hr hd ⊢
  generalize t'.draw n = D' at hr hd ⊢
  obtain ⟨r, u⟩ := D
  obtain ⟨r', u'⟩ := D'
  dsimp only at hr hd ⊢
  subst r'
  rw [hd.rootSlot]
  cases u.rootSlot with
  | some _ => exact ⟨rfl, hd.release r⟩
  | none =>
    have hs := (⟨hd.records, rfl, hd.count, hd.spare, hd.nextStamp, hd.get?, hd.chain?⟩ :
      Resharded { u with rootSlot := some r } { u' with rootSlot := some r }).store n.id r
    exact ⟨rfl, hs.records, hs.rootSlot, by simp only [hs.count], hs.spare, hs.nextStamp, hs.get?,
      fun y => by simp only [Ancestry.chain?_attachRoot, hs.chain?]⟩

theorem attachChild (h : Resharded t t') (n : Node α) (parent : Bytes) (p : Stamp) :
    (t'.attachChild n parent p).1 = (t.attachChild n parent p).1 ∧
      Resharded (t.attachChild n parent p).2 (t'.attachChild n parent p).2 := by
  obtain ⟨hr, hd⟩ := h.draw n
  unfold Tree.attachChild
  generalize t.draw n = D at hr hd ⊢
  generalize t'.draw n = D' at hr hd ⊢
  obtain ⟨r, u⟩ := D
  obtain ⟨r', u'⟩ := D'
  dsimp only at hr hd ⊢
  subst r'
  have hc : Resharded { u with chains := u.chains.attach n.id parent, count := u.count + 1 }
      { u' with chains := u'.chains.attach n.id parent, count := u'.count + 1 } :=
    ⟨hd.records, hd.rootSlot, by simp only [hd.count], hd.spare, hd.nextStamp, hd.get?,
      fun y => by simp only [Ancestry.chain?_attach, hd.chain?]⟩
  exact ⟨rfl, (hc.store n.id r).modifyChildren p _⟩

theorem addChild (h : Resharded t t') (n : Node α) (parent : Bytes) :
    (t'.addChild n parent).1 = (t.addChild n parent).1 ∧
      Resharded (t.addChild n parent).2 (t'.addChild n parent).2 := by
  unfold Tree.addChild
  rw [h.lookup?]
  cases t.lookup? parent with
  | none => exact ⟨rfl, h⟩
  | some p =>
    dsimp only
    by_cases hid : n.id = parent
    · rw [if_pos hid, if_pos hid]
      exact ⟨rfl, h⟩
    · rw [if_neg hid, if_neg hid]
      obtain ⟨hr, ha⟩ := h.attachChild n parent p
      generalize t.attachChild n parent p = A at hr ha ⊢
      generalize t'.attachChild n parent p = A' at hr ha ⊢
      obtain ⟨r, u⟩ := A
      obtain ⟨r', u'⟩ := A'
      dsimp only at hr ha ⊢
      subst r'
      -- both trees take the same branch, and the back-out erases the same subtree
      rw [ha.indexed]
      split
      · exact ⟨rfl, ha⟩
      · exact ⟨rfl, ha.eraseSubtree r⟩

theorem remove (h : Resharded t t') (x : Bytes) :
    (t'.remove x).1 = (t.remove x).1 ∧ Resharded (t.remove x).2 (t'.remove x).2 := by
  cases hx : t.lookup? x with
  | none =>
    have hx' : t'.lookup? x = none := by rw [h.lookup?, hx]
    rw [remove_of_lookup_none hx, remove_of_lookup_none hx']
    exact ⟨rfl, h⟩
  | some s =>
    have hx' : t'.lookup? x = some s := by rw [h.lookup?, hx]
    rw [remove_of_lookup hx, remove_of_lookup hx']
    exact ⟨rfl, ((h.unlink x).vacate s).eraseSubtree s⟩

/-- A change gives two resharded trees the same answer and leaves them resharded. -/
theorem apply (h : Resharded t t') (c : Change α) :
    (t'.apply c).1 = (t.apply c).1 ∧ Resharded (t.apply c).2 (t'.apply c).2 := by
  cases c with
  | addRoot n => exact h.addRoot n
  | addChild n parent => exact h.addChild n parent
  | remove x => exact h.remove x
  | reset => exact ⟨rfl, h.reset⟩

theorem applyAll (h : Resharded t t') (cs : List (Change α)) :
    Resharded (t.applyAll cs) (t'.applyAll cs) :=
  foldl (fun c hu => (hu.apply c).2) cs h

/-! ## Queries -/

theorem find? (h : Resharded t t') : t'.find? = t.find? := by
  funext key
  simp only [Tree.find?, h.lookup?, h.node?]

theorem contains (h : Resharded t t') : t'.contains = t.contains := by
  funext key
  simp only [Tree.contains, ShardedMap.contains, h.get?]

theorem ancestors? (h : Resharded t t') : t'.ancestors? = t.ancestors? := by
  funext x
  simp only [Tree.ancestors?, h.chain?, h.find?]

theorem ancestorAt? (h : Resharded t t') : t'.ancestorAt? = t.ancestorAt? := by
  funext x level
  simp only [Tree.ancestorAt?, Ancestry.ancestorAt?, h.chain?, h.find?]

theorem descendants? (h : Resharded t t') : t'.descendants? = t.descendants? := by
  funext x
  simp only [Tree.descendants?, h.lookup?, h.subtree, h.node?]

theorem children? (h : Resharded t t') : t'.children? = t.children? := by
  funext x
  simp only [Tree.children?, h.lookup?, h.liveChildren, h.node?]

theorem depth? (h : Resharded t t') : t'.depth? = t.depth? := by
  funext x
  simp only [Tree.depth?, Ancestry.depth?, h.chain?]

theorem root? (h : Resharded t t') : t'.root? = t.root? := by
  simp only [Tree.root?, h.rootSlot, h.node?]

theorem printWalk (h : Resharded t t') : t'.printWalk = t.printWalk := by
  funext fuel
  induction fuel with
  | zero => rfl
  | succ fuel ih =>
    funext stack
    cases stack with
    | nil => rfl
    | cons e stack =>
      obtain ⟨s, level⟩ := e
      simp only [Tree.printWalk, h.liveChildren, ih]

theorem printed (h : Resharded t t') : t'.printed = t.printed := by
  simp only [Tree.printed, h.printWalk, h.records, h.rootSlot]

theorem text (h : Resharded t t') : t'.text = t.text := by
  simp only [Tree.text, Tree.line, h.printed, h.node?]

/-- The index of two resharded trees lists the same nodes, in another order. -/
theorem nodes_perm (h : Resharded t t') (hp : t.index.Placed) (hp' : t'.index.Placed) :
    t'.nodes.Perm t.nodes := by
  have hnodup : ∀ {m : ShardedMap Stamp}, m.Placed → m.toList.Nodup :=
    fun hm => List.Nodup.of_map Prod.fst (ShardedMap.nodup_keys_toList hm)
  have hperm : t'.index.toList.Perm t.index.toList := by
    refine (List.perm_ext_iff_of_nodup (hnodup hp') (hnodup hp)).2 fun ⟨k, s⟩ => ?_
    rw [ShardedMap.mem_toList hp', ShardedMap.mem_toList hp, h.get?]
  unfold Tree.nodes
  rw [h.node?]
  exact hperm.filterMap _

end Resharded

end Tree

end IndexedTree
