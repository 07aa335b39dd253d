/-!
# Child lists

The children of a node, in the order they were added. A child list is a list with the few
operations that a node's children need: append, erase at a position, remove the first child
that a test picks, and take the whole list, leaving the child list empty. Erasing and removing
answer whether they took a child out. Each operation comes with what it does to `toList`.

`Call` names an operation with its arguments, and `Call.run` carries it out and gives its
`Answer`.
-/

namespace IndexedTree

/-- A list of children, first added first. -/
structure ChildList (α : Type) where
  /-- The children, first added first. -/
  toList : List α
deriving Repr, Inhabited

namespace ChildList

variable {α : Type}

/-- The child list with no children. -/
def empty : ChildList α := ⟨[]⟩

/-- Adds a child at the end. -/
def append (l : ChildList α) (a : α) : ChildList α := ⟨l.toList ++ [a]⟩

/-- Adds children at the end, in their order. -/
def appendList (l : ChildList α) (as : List α) : ChildList α := ⟨l.toList ++ as⟩

/-- The child at a position, counting from zero. -/
def get? (l : ChildList α) (i : Nat) : Option α := l.toList[i]?

/-- The number of children. -/
def size (l : ChildList α) : Nat := l.toList.length

/-- Whether there are no children. -/
def isEmpty (l : ChildList α) : Bool := l.toList.isEmpty

/-- Erases the child at a position, keeping the order of the others, and answers whether the
position was inside the list; a position past the end erases nothing. -/
def eraseAt (l : ChildList α) (i : Nat) : Bool × ChildList α :=
  if i < l.size then (true, ⟨l.toList.eraseIdx i⟩) else (false, l)

/-- Scans a list from the front for the first element that `p` picks and takes it out, the scan
ending there: answers whether an element was picked, and the others in their order. -/
def removeFirstFrom (p : α → Bool) : List α → Bool × List α
  | [] => (false, [])
  | a :: as =>
    if p a then (true, as)
    else
      let r := removeFirstFrom p as
      (r.1, a :: r.2)

/-- Removes the first child that `p` picks, if any, and answers whether one was picked. -/
def removeFirst (l : ChildList α) (p : α → Bool) : Bool × ChildList α :=
  let r := removeFirstFrom p l.toList
  (r.1, ⟨r.2⟩)

/-- All the children, and the child list left empty. -/
def take (l : ChildList α) : List α × ChildList α := (l.toList, empty)

/-- The scan picks an element exactly when one is there to pick, and takes out the first. -/
theorem removeFirstFrom_eq (p : α → Bool) (as : List α) :
    removeFirstFrom p as = (as.any p, as.eraseP p) := by
  induction as with
  | nil => rfl
  | cons a as ih =>
    by_cases hp : p a = true
    · simp [removeFirstFrom, hp]
    · simp [removeFirstFrom, hp, ih]

@[simp] theorem toList_empty : (empty : ChildList α).toList = [] := rfl

@[simp] theorem toList_append (l : ChildList α) (a : α) : (l.append a).toList = l.toList ++ [a] :=
  rfl

@[simp] theorem toList_appendList (l : ChildList α) (as : List α) :
    (l.appendList as).toList = l.toList ++ as := rfl

@[simp] theorem eraseAt_fst (l : ChildList α) (i : Nat) : (l.eraseAt i).1 = decide (i < l.size) := by
  unfold eraseAt
  split <;> simp_all

@[simp] theorem toList_eraseAt (l : ChildList α) (i : Nat) :
    (l.eraseAt i).2.toList = l.toList.eraseIdx i := by
  unfold eraseAt
  split
  · rfl
  · rw [List.eraseIdx_of_length_le (by simp_all [size])]

@[simp] theorem removeFirst_fst (l : ChildList α) (p : α → Bool) :
    (l.removeFirst p).1 = l.toList.any p := by
  simp [removeFirst, removeFirstFrom_eq]

@[simp] theorem toList_removeFirst (l : ChildList α) (p : α → Bool) :
    (l.removeFirst p).2.toList = l.toList.eraseP p := by
  simp [removeFirst, removeFirstFrom_eq]

@[simp] theorem take_eq (l : ChildList α) : l.take = (l.toList, empty) := rfl

@[simp] theorem get?_eq (l : ChildList α) (i : Nat) : l.get? i = l.toList[i]? := rfl

@[simp] theorem size_eq (l : ChildList α) : l.size = l.toList.length := rfl

/-- An operation on a child list, with its arguments. -/
inductive Call (α : Type) where
  | append (a : α)
  | appendMany (as : List α)
  | get (i : Nat)
  | eraseAt (i : Nat)
  | removeFirstIf (p : α → Bool)
  | take
  | items
  | reset
  | size
  | isEmpty

/-- What an operation answers: nothing, a child if there is one, a flag, children, or a number. -/
inductive Answer (α : Type) where
  | done
  | child (a : Option α)
  | flag (b : Bool)
  | children (as : List α)
  | count (n : Nat)

/-- Carries out an operation: its answer, and the child list it leaves. -/
def Call.run (c : Call α) (l : ChildList α) : Answer α × ChildList α :=
  match c with
  | .append a => (.done, l.append a)
  | .appendMany as => (.done, l.appendList as)
  | .get i => (.child (l.get? i), l)
  | .eraseAt i =>
    let r := l.eraseAt i
    (.flag r.1, r.2)
  | .removeFirstIf p =>
    let r := l.removeFirst p
    (.flag r.1, r.2)
  | .take =>
    let r := l.take
    (.children r.1, r.2)
  | .items => (.children l.toList, l)
  | .reset => (.done, empty)
  | .size => (.count l.size, l)
  | .isEmpty => (.flag l.isEmpty, l)

end ChildList

end IndexedTree
