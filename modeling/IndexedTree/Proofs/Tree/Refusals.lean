import IndexedTree.Proofs.Tree.Removal

/-!
# Refused changes

A change is refused on a condition it checks before it writes anything, and its error names what
was missing: a root add into a taken root slot is an invalid operation; an add under an id that
the index does not hold reports the parent as not found, and one whose node has the parent's id is
an invalid operation; a removal of an id that the index does not hold reports the id as not found.
On every tree that a run reaches these conditions are exact: an add under an indexed parent never
backs out, since storing the node's id leaves the parent's index entry alone
(`WellFormed.addChild_eq`).

A refused add under a parent, or a refused removal, leaves the tree as it was. A refused root add
has already taken a record for its node, from the spare pool when one waits, and gives it back at
once: it keeps every record, the index, the chains, the root slot and the counter (`Intact`), and
the spare pool ends with as many records as before, but at least one.

The main statement is `refusals_exact`.
-/

namespace IndexedTree

namespace Tree

variable {α : Type}

/-- What a refused change keeps: every record with its node and its child list, the index, the
chains, the root slot and the counter. -/
structure Intact (t t' : Tree α) : Prop where
  records : ∀ s : Stamp, t'.records[s]? = t.records[s]?
  index : t'.index = t.index
  chains : t'.chains = t.chains
  rootSlot : t'.rootSlot = t.rootSlot
  count : t'.count = t.count

/-! ## When each change is refused -/

section Conditions

variable {t : Tree α}

/-- A root add is refused exactly when the root slot is taken. -/
theorem WellFormed.addRoot_fst (hw : t.WellFormed) (n : Node α) :
    (t.addRoot n).1 = if t.rootSlot.isSome then .error .invalidOperation else .ok () := by
  cases hr : t.rootSlot with
  | none => exact (added_addRoot hw hr n).1
  | some r => exact (addRoot_of_taken hw hr n).1

/-- An add under `x` reports `x` missing when the index does not hold it, is an invalid
operation when the node has the id `x`, and succeeds otherwise. -/
theorem WellFormed.addChild_fst (hw : t.WellFormed) (n : Node α) (x : Bytes) :
    (t.addChild n x).1 =
      if t.contains x then (if n.id = x then .error .invalidOperation else .ok ())
      else .error (.parentNotFound x) := by
  cases hp : t.lookup? x with
  | none =>
    rw [contains_eq, hp, addChild_of_lookup_none hp]
    rfl
  | some p =>
    rw [contains_eq, hp, Option.isSome_some, if_pos rfl]
    by_cases hx : n.id = x
    · rw [addChild_of_id_eq hp hx, if_pos hx]
    · rw [(added_addChild hw hp n hx).1, if_neg hx]

/-- A removal reports the id missing exactly when the index does not hold it. -/
theorem remove_fst (t : Tree α) (x : Bytes) :
    (t.remove x).1 = if t.contains x then .ok () else .error (.notFound x) := by
  cases hx : t.lookup? x with
  | none => rw [contains_eq, hx, remove_of_lookup_none hx]; rfl
  | some s => rw [contains_eq, hx, remove_of_lookup hx]; rfl

end Conditions

/-! ## What a refused change leaves -/

section Effects

variable {t : Tree α}

/-- A refused add under a parent leaves the tree as it was: it fails before its first write. -/
theorem WellFormed.addChild_snd_of_error (hw : t.WellFormed) {n : Node α} {x : Bytes}
    {e : TreeError} (he : (t.addChild n x).1 = .error e) : (t.addChild n x).2 = t := by
  cases hp : t.lookup? x with
  | none => rw [addChild_of_lookup_none hp]
  | some p =>
    by_cases hx : n.id = x
    · rw [addChild_of_id_eq hp hx]
    · -- an add under an indexed parent with another id succeeds
      rw [(added_addChild hw hp n hx).1] at he
      cases he

/-- A refused removal leaves the tree as it was. -/
theorem remove_snd_of_error {x : Bytes} {e : TreeError} (he : (t.remove x).1 = .error e) :
    (t.remove x).2 = t := by
  cases hx : t.lookup? x with
  | none => rw [remove_of_lookup_none hx]
  | some s =>
    rw [remove_of_lookup hx] at he
    cases he

/-- A refused root add keeps the tree intact and gives back the record it took: the spare pool
ends with as many records as before, but at least one. -/
theorem WellFormed.addRoot_of_error (hw : t.WellFormed) (hsp : t.SpareBounded) {n : Node α}
    {e : TreeError} (he : (t.addRoot n).1 = .error e) :
    Intact t (t.addRoot n).2 ∧ (t.addRoot n).2.idleRecords = max t.idleRecords 1 := by
  -- only a taken root slot refuses a root add
  obtain ⟨r, hr⟩ : ∃ r, t.rootSlot = some r := by
    cases hr : t.rootSlot with
    | none =>
      rw [(added_addRoot hw hr n).1] at he
      cases he
    | some r => exact ⟨r, rfl⟩
  obtain ⟨-, hrec, hi, hch, hroot, hcount, -⟩ := addRoot_of_taken hw hr n
  refine ⟨⟨hrec, hi, hch, hroot, hcount⟩, ?_⟩
  -- the drawn record lives, nothing holds it, so its release gives it to the spare pool
  have hlive : (t.draw n).2.live t.nextStamp = true := by
    simp [live_eq, records_draw]
  rw [addRoot_of_rootSlot hr]
  unfold idleRecords Pool.idleCount
  rw [spare_release, hlive, hw.held_draw_nextStamp n]
  exact hsp.idleRecords_give_draw n

end Effects

/-! ## Runs from an empty tree -/

/-- On every tree that a run reaches from an empty tree, each change is refused exactly on the
condition it checks, with the error that names it, and a refused change keeps the tree. A root add
is an invalid operation exactly when the root slot is taken; it keeps every record, the index, the
chains, the root slot and the counter, and leaves the spare pool as many records as before, but at
least one. An add under `x` reports `x` missing exactly when the index does not hold it, and is
otherwise an invalid operation exactly when the node has the id `x`; a removal reports the id
missing exactly when the index does not hold it; when refused, both leave the tree as it was. -/
theorem refusals_exact (n : Nat) (h : 0 < n) (cs : List (Change α)) :
    let t := (Tree.empty n h : Tree α).applyAll cs
    (∀ m, (t.addRoot m).1 = (if t.rootSlot.isSome then .error .invalidOperation else .ok ()) ∧
      ∀ e, (t.addRoot m).1 = .error e →
        Intact t (t.addRoot m).2 ∧ (t.addRoot m).2.idleRecords = max t.idleRecords 1) ∧
    (∀ m x, (t.addChild m x).1 =
        (if t.contains x then (if m.id = x then .error .invalidOperation else .ok ())
          else .error (.parentNotFound x)) ∧
      ∀ e, (t.addChild m x).1 = .error e → (t.addChild m x).2 = t) ∧
    (∀ x, (t.remove x).1 = (if t.contains x then .ok () else .error (.notFound x)) ∧
      ∀ e, (t.remove x).1 = .error e → (t.remove x).2 = t) ∧
    ∀ x, (TreeError.parentNotFound x).message = Bytes.ofString "parent node not found: " ++ x ∧
      (TreeError.notFound x).message = Bytes.ofString "node not found: " ++ x := by
  intro t
  have hw : t.WellFormed := wellFormed_applyAll n h cs
  have hsp : t.SpareBounded := (spareBounded_empty n h).applyAll cs
  refine ⟨fun m => ⟨hw.addRoot_fst m, fun e he => hw.addRoot_of_error hsp he⟩,
    fun m x => ⟨hw.addChild_fst m x, fun e he => hw.addChild_snd_of_error he⟩,
    fun x => ⟨remove_fst t x, fun e he => remove_snd_of_error he⟩, fun x => ⟨rfl, rfl⟩⟩

/-- Two shards and a run of one root add: a second root add is refused. -/
theorem refusals_exact_after_root_add :
    0 < 2 ∧
    let t := (Tree.empty 2 (by decide) : Tree Nat).applyAll [.addRoot ⟨⟨[1]⟩, 0⟩]
    (∀ m, (t.addRoot m).1 = (if t.rootSlot.isSome then .error .invalidOperation else .ok ()) ∧
      ∀ e, (t.addRoot m).1 = .error e →
        Intact t (t.addRoot m).2 ∧ (t.addRoot m).2.idleRecords = max t.idleRecords 1) ∧
    (∀ m x, (t.addChild m x).1 =
        (if t.contains x then (if m.id = x then .error .invalidOperation else .ok ())
          else .error (.parentNotFound x)) ∧
      ∀ e, (t.addChild m x).1 = .error e → (t.addChild m x).2 = t) ∧
    (∀ x, (t.remove x).1 = (if t.contains x then .ok () else .error (.notFound x)) ∧
      ∀ e, (t.remove x).1 = .error e → (t.remove x).2 = t) ∧
    ∀ x, (TreeError.parentNotFound x).message = Bytes.ofString "parent node not found: " ++ x ∧
      (TreeError.notFound x).message = Bytes.ofString "node not found: " ++ x :=
  ⟨by decide, refusals_exact 2 (by decide) _⟩

end Tree

end IndexedTree
