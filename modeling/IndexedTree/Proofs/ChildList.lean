import Mathlib
import IndexedTree.ChildList

/-!
# Child lists are sequences

A child list holds its children as a list, and each of its operations is an operation on that
list. Erasing at a position inside the list removes exactly that position, keeps the others in
order and answers `true`; past the end it removes nothing and answers `false`
(`ChildList.eraseAt_of_lt`, `ChildList.eraseAt_of_size_le`). Removing the first child that a test
picks either splits the list at its first pick, joins the two sides and answers `true`, or finds
no pick, changes nothing and answers `false` (`ChildList.removeFirst_cases`).

`Call.Behaves` states what each operation does to a plain list and what it answers, case by
case, in terms of lists only: `take`, `drop`, a split at the first pick of the test, the length.
An operation run on a child list answers and leaves exactly what `Behaves` allows for its list,
for every element type, every test, every index and every list (`Call.run_iff_behaves`), and so
a sequence of operations answers and leaves exactly what the sequence of their descriptions
allows (`Call.runAll_iff_trace`).
-/

namespace IndexedTree

namespace ChildList

variable {α : Type}

/-- Erasing at a position inside the list removes exactly that position, and answers `true`. -/
theorem eraseAt_of_lt (l : ChildList α) {i : Nat} (h : i < l.size) :
    l.eraseAt i = (true, ⟨l.toList.take i ++ l.toList.drop (i + 1)⟩) := by
  rw [eraseAt, if_pos h, List.eraseIdx_eq_take_drop_succ]

/-- Erasing at a position past the end changes nothing, and answers `false`. -/
theorem eraseAt_of_size_le (l : ChildList α) {i : Nat} (h : l.size ≤ i) :
    l.eraseAt i = (false, l) := by
  rw [eraseAt, if_neg (Nat.not_lt.2 h)]

/-- Removing the first child that `p` picks: either the list splits at its first pick `x`,
nothing before it picked, the child list keeps both sides of it, and the answer is `true`; or
nothing is picked, the child list stays as it was, and the answer is `false`. -/
theorem removeFirst_cases (l : ChildList α) (p : α → Bool) :
    (∃ a x b, l.toList = a ++ x :: b ∧ (∀ y ∈ a, p y = false) ∧ p x = true ∧
        (l.removeFirst p).1 = true ∧ (l.removeFirst p).2.toList = a ++ b) ∨
      ((∀ y ∈ l.toList, p y = false) ∧ (l.removeFirst p).1 = false ∧ (l.removeFirst p).2 = l) := by
  by_cases hpick : ∃ y ∈ l.toList, p y = true
  · obtain ⟨y, hy, hpy⟩ := hpick
    obtain ⟨x, a, b, hbefore, hx, hsplit, herase⟩ := List.exists_of_eraseP hy hpy
    refine .inl ⟨a, x, b, hsplit, fun y hy => by simpa using hbefore y hy, hx, ?_, ?_⟩
    · rw [removeFirst_fst, List.any_eq_true]
      exact ⟨y, hy, hpy⟩
    · rw [toList_removeFirst, herase]
  · have hnone : ∀ y ∈ l.toList, p y = false := by
      intro y hy
      simpa using fun h => hpick ⟨y, hy, h⟩
    refine .inr ⟨hnone, ?_, ?_⟩
    · rw [removeFirst_fst, List.any_eq_false]
      exact fun y hy => by simp [hnone y hy]
    · cases l with
      | mk xs =>
        show ChildList.mk (removeFirstFrom p xs).2 = ⟨xs⟩
        rw [removeFirstFrom_eq, List.eraseP_of_forall_not fun y hy => by simp [hnone y hy]]

/-- A list split at the first element that `p` picks loses that element, and only it, when the
first pick is taken out. -/
theorem eraseP_of_first_pick {p : α → Bool} {a b : List α} {x : α} (ha : ∀ y ∈ a, p y = false)
    (hx : p x = true) : (a ++ x :: b).eraseP p = a ++ b := by
  rw [List.eraseP_append_right _ fun y hy => by simp [ha y hy], List.eraseP_cons_of_pos hx]

/-- What an operation does to a plain list `l`: the answer it gives and the list it leaves. -/
inductive Call.Behaves : List α → Call α → Answer α → List α → Prop
  | append (l : List α) (a : α) : Behaves l (.append a) .done (l ++ [a])
  | appendMany (l as : List α) : Behaves l (.appendMany as) .done (l ++ as)
  | get_lt (l : List α) (i : Nat) (h : i < l.length) : Behaves l (.get i) (.child (some l[i])) l
  | get_ge (l : List α) (i : Nat) (h : l.length ≤ i) : Behaves l (.get i) (.child none) l
  | eraseAt_lt (l : List α) (i : Nat) (h : i < l.length) :
      Behaves l (.eraseAt i) (.flag true) (l.take i ++ l.drop (i + 1))
  | eraseAt_ge (l : List α) (i : Nat) (h : l.length ≤ i) : Behaves l (.eraseAt i) (.flag false) l
  /-- The first element that the test picks goes, the others stay in order. -/
  | removeFirstIf_found (l a b : List α) (x : α) (p : α → Bool) (hl : l = a ++ x :: b)
      (ha : ∀ y ∈ a, p y = false) (hx : p x = true) :
      Behaves l (.removeFirstIf p) (.flag true) (a ++ b)
  | removeFirstIf_absent (l : List α) (p : α → Bool) (h : ∀ y ∈ l, p y = false) :
      Behaves l (.removeFirstIf p) (.flag false) l
  | take (l : List α) : Behaves l .take (.children l) []
  | items (l : List α) : Behaves l .items (.children l) l
  | reset (l : List α) : Behaves l .reset .done []
  | size (l : List α) : Behaves l .size (.count l.length) l
  | isEmpty (l : List α) : Behaves l .isEmpty (.flag (decide (l = []))) l

/-- An operation allows one answer and one list only. -/
theorem Call.Behaves.unique {l l₁ l₂ : List α} {c : Call α} {r₁ r₂ : Answer α}
    (h₁ : Behaves l c r₁ l₁) (h₂ : Behaves l c r₂ l₂) : r₁ = r₂ ∧ l₁ = l₂ := by
  cases h₁ with
  | get_lt i hi =>
    cases h₂ with
    | get_lt => exact ⟨rfl, rfl⟩
    | get_ge _ hge => omega
  | get_ge i hge =>
    cases h₂ with
    | get_lt _ hi => omega
    | get_ge => exact ⟨rfl, rfl⟩
  | eraseAt_lt i hi =>
    cases h₂ with
    | eraseAt_lt => exact ⟨rfl, rfl⟩
    | eraseAt_ge _ hge => omega
  | eraseAt_ge i hge =>
    cases h₂ with
    | eraseAt_lt _ hi => omega
    | eraseAt_ge => exact ⟨rfl, rfl⟩
  | removeFirstIf_found a b x p hl ha hx =>
    cases h₂ with
    | removeFirstIf_found a' b' x' _ hl' ha' hx' =>
      -- both sides are what taking out the first pick leaves
      refine ⟨rfl, ?_⟩
      rw [← eraseP_of_first_pick ha hx, ← eraseP_of_first_pick ha' hx', ← hl, ← hl']
    | removeFirstIf_absent _ hnone => simp [hnone x (by simp [hl])] at hx
  | removeFirstIf_absent p hnone =>
    cases h₂ with
    | removeFirstIf_found a b x _ hl _ hx => simp [hnone x (by simp [hl])] at hx
    | removeFirstIf_absent => exact ⟨rfl, rfl⟩
  | _ => cases h₂; exact ⟨rfl, rfl⟩

/-- Every operation run on a child list behaves as the operation on its list. -/
theorem Call.run_behaves (l : ChildList α) (c : Call α) :
    Behaves l.toList c (c.run l).1 (c.run l).2.toList := by
  cases c with
  | append a => exact .append _ a
  | appendMany as => exact .appendMany _ as
  | get i =>
    show Behaves l.toList (.get i) (.child l.toList[i]?) l.toList
    by_cases hi : i < l.toList.length
    · rw [List.getElem?_eq_getElem hi]
      exact .get_lt _ i hi
    · have hge : l.toList.length ≤ i := by omega
      rw [List.getElem?_eq_none hge]
      exact .get_ge _ i hge
  | eraseAt i =>
    show Behaves l.toList (.eraseAt i) (.flag (l.eraseAt i).1) (l.eraseAt i).2.toList
    by_cases hi : i < l.size
    · rw [eraseAt_of_lt l hi]
      exact .eraseAt_lt _ i hi
    · have hge : l.size ≤ i := by omega
      rw [eraseAt_of_size_le l hge]
      exact .eraseAt_ge _ i hge
  | removeFirstIf p =>
    show Behaves l.toList (.removeFirstIf p) (.flag (l.removeFirst p).1) (l.removeFirst p).2.toList
    rcases removeFirst_cases l p with ⟨a, x, b, hl, ha, hx, hreply, hrest⟩ | ⟨hnone, hreply, hsame⟩
    · rw [hreply, hrest]
      exact .removeFirstIf_found _ a b x p hl ha hx
    · rw [hreply, hsame]
      exact .removeFirstIf_absent _ p hnone
  | take => exact .take _
  | items => exact .items _
  | reset => exact .reset _
  | size => exact .size _
  | isEmpty =>
    have hempty : l.toList.isEmpty = decide (l.toList = []) := by cases l.toList <;> rfl
    show Behaves l.toList .isEmpty (.flag l.toList.isEmpty) l.toList
    rw [hempty]
    exact .isEmpty _

/-- An operation run on a child list answers `r` and leaves the list `l'` exactly when the
operation on its list may answer `r` and leave `l'`. -/
theorem Call.run_iff_behaves (l : ChildList α) (c : Call α) (r : Answer α) (l' : List α) :
    Behaves l.toList c r l' ↔ (c.run l).1 = r ∧ (c.run l).2.toList = l' := by
  constructor
  · intro h
    exact (run_behaves l c).unique h
  · rintro ⟨rfl, rfl⟩
    exact run_behaves l c

/-- Only the first of two children that the test picks goes. -/
example : ((Call.removeFirstIf (· == 1)).run (⟨[1, 2, 1]⟩ : ChildList Nat)).2.toList = [2, 1] := by
  decide

/-- Carries out operations in turn: their answers, and the child list left at the end. -/
def Call.runAll : List (Call α) → ChildList α → List (Answer α) × ChildList α
  | [], l => ([], l)
  | c :: cs, l =>
    let r := c.run l
    let rest := runAll cs r.2
    (r.1 :: rest.1, rest.2)

/-- What a sequence of operations does to a plain list: each operation behaves as `Behaves` says
on the list the ones before it left, giving the answers in order and the list at the end. -/
inductive Call.Trace : List α → List (Call α) → List (Answer α) → List α → Prop
  | nil (l : List α) : Trace l [] [] l
  | cons {l l₁ l₂ : List α} {c : Call α} {r : Answer α} {cs : List (Call α)}
      {rs : List (Answer α)} :
      Behaves l c r l₁ → Trace l₁ cs rs l₂ → Trace l (c :: cs) (r :: rs) l₂

/-- A child list behaves as a plain list. For every element type, every sequence of operations,
whatever tests `removeFirstIf` is given and whatever positions `get` and `eraseAt` are given, run
on a child list, answers `rs` and leaves the list `l'` exactly when the same operations on its
list may answer `rs` and leave `l'`: appends put children at the end, `get` reads a position or
answers nothing past the end, `eraseAt` removes exactly its position and answers whether it was
inside the list, `removeFirstIf` removes exactly the first child that its test picks and answers
whether there was one, `take` answers the list and leaves it empty, `reset` empties it, and
`items`, `size` and `isEmpty` read the list, its length and whether it is empty. -/
theorem Call.runAll_iff_trace (l : ChildList α) (cs : List (Call α)) (rs : List (Answer α))
    (l' : List α) :
    Trace l.toList cs rs l' ↔ (runAll cs l).1 = rs ∧ (runAll cs l).2.toList = l' := by
  -- induction on the operations, from any child list: each step is the one-operation lemma
  induction cs generalizing l rs with
  | nil =>
    constructor
    · rintro ⟨⟩
      exact ⟨rfl, rfl⟩
    · rintro ⟨rfl, rfl⟩
      exact .nil _
  | cons c cs ih =>
    constructor
    · intro h
      cases h with
      | cons hb ht =>
        obtain ⟨rfl, rfl⟩ := (run_iff_behaves l c _ _).1 hb
        obtain ⟨hrs, hl'⟩ := (ih (c.run l).2 _).1 ht
        exact ⟨congrArg (List.cons (c.run l).1) hrs, hl'⟩
    · rintro ⟨rfl, rfl⟩
      exact .cons (run_behaves l c) ((ih (c.run l).2 _).2 ⟨rfl, rfl⟩)

end ChildList

end IndexedTree
