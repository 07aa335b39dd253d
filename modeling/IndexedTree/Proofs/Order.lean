import IndexedTree.Node

/-!
# Bytewise order and sorting by id

Byte strings are ordered lexicographically on unsigned bytes, which is a strict total order
(`Bytes.lt_trichotomy`). Its test `Bytes.le` is therefore total and transitive, the two facts that
make a stable merge sort return a sorted list, so `Node.sortById` orders nodes by id
(`Node.pairwise_le_sortById`) and keeps them all (`Node.perm_sortById`). When the ids are distinct
the order is strict (`Node.pairwise_lt_sortById`): ascending bytewise order, each id once.

Ordering pairs of byte strings by the first, then by the second (`Bytes.pairLe`) is a total order,
so sorting by it leaves no choice: two listings of the same elements, under a key of two byte
strings that tells elements apart, sort to the same list (`mergeSort_pairLe_eq_of_perm`).
-/

namespace IndexedTree

namespace Bytes

theorem lt_irrefl (a : Bytes) : ¬a < a := List.lt_irrefl a.data

theorem lt_trans {a b c : Bytes} (hab : a < b) (hbc : b < c) : a < c := List.lt_trans hab hbc

theorem lt_trichotomy (a b : Bytes) : a < b ∨ a = b ∨ b < a := by
  rcases Std.lt_trichotomy a.data b.data with h | h | h
  · exact .inl h
  · obtain ⟨a⟩ := a
    obtain ⟨b⟩ := b
    exact .inr (.inl (congrArg Bytes.mk h))
  · exact .inr (.inr h)

theorem le_eq_true_iff {a b : Bytes} : a.le b = true ↔ ¬b < a := by
  simp [le, lt]

theorem le_total (a b : Bytes) : (a.le b || b.le a) = true := by
  rw [Bool.or_eq_true, le_eq_true_iff, le_eq_true_iff]
  -- the two strict orders cannot both hold
  by_cases h : b < a
  · exact .inr fun h' => lt_irrefl a (lt_trans h' h)
  · exact .inl h

theorem le_trans {a b c : Bytes} (hab : a.le b = true) (hbc : b.le c = true) : a.le c = true := by
  rw [le_eq_true_iff] at hab hbc ⊢
  intro hca
  -- compare `a` with `b`: each case puts `c` below `b` or `b` below `a`
  rcases lt_trichotomy a b with h | rfl | h
  · exact hbc (lt_trans hca h)
  · exact hbc hca
  · exact hab h

theorem lt_of_le_of_ne {a b : Bytes} (hab : a.le b = true) (hne : a ≠ b) : a < b := by
  rw [le_eq_true_iff] at hab
  rcases lt_trichotomy a b with h | h | h
  · exact h
  · exact absurd h hne
  · exact absurd h hab

theorem eq_of_le_of_le {a b : Bytes} (hab : a.le b = true) (hba : b.le a = true) : a = b := by
  rw [le_eq_true_iff] at hab hba
  rcases lt_trichotomy a b with h | h | h
  · exact absurd h hba
  · exact h
  · exact absurd h hab

/-- Pairs of byte strings in bytewise order of the first, then of the second. -/
def pairLe (a b : Bytes × Bytes) : Bool := a.1.lt b.1 || (a.1 == b.1 && a.2.le b.2)

theorem pairLe_eq_true_iff {a b : Bytes × Bytes} :
    pairLe a b = true ↔ a.1 < b.1 ∨ (a.1 = b.1 ∧ a.2.le b.2 = true) := by
  simp [pairLe, lt]

theorem pairLe_trans {a b c : Bytes × Bytes} (hab : pairLe a b = true) (hbc : pairLe b c = true) :
    pairLe a c = true := by
  rw [pairLe_eq_true_iff] at hab hbc ⊢
  rcases hab with hab | ⟨hab, hab'⟩ <;> rcases hbc with hbc | ⟨hbc, hbc'⟩
  · exact .inl (lt_trans hab hbc)
  · exact .inl (hbc ▸ hab)
  · exact .inl (hab ▸ hbc)
  · exact .inr ⟨hab.trans hbc, le_trans hab' hbc'⟩

theorem pairLe_total (a b : Bytes × Bytes) : (pairLe a b || pairLe b a) = true := by
  rw [Bool.or_eq_true, pairLe_eq_true_iff, pairLe_eq_true_iff]
  rcases lt_trichotomy a.1 b.1 with h | h | h
  · exact .inl (.inl h)
  · -- equal firsts: the seconds decide
    rcases Bool.or_eq_true _ _ ▸ le_total a.2 b.2 with h' | h'
    · exact .inl (.inr ⟨h, h'⟩)
    · exact .inr (.inr ⟨h.symm, h'⟩)
  · exact .inr (.inl h)

theorem eq_of_pairLe_of_pairLe {a b : Bytes × Bytes} (hab : pairLe a b = true)
    (hba : pairLe b a = true) : a = b := by
  rw [pairLe_eq_true_iff] at hab hba
  rcases hab with hab | ⟨hab, hab'⟩
  · -- a strictly smaller first rules out the converse
    rcases hba with hba | ⟨hba, -⟩
    · exact absurd (lt_trans hab hba) (lt_irrefl _)
    · exact absurd (hba ▸ hab) (lt_irrefl _)
  · rcases hba with hba | ⟨-, hba'⟩
    · exact absurd (hab ▸ hba) (lt_irrefl _)
    · exact Prod.ext hab (eq_of_le_of_le hab' hba')

end Bytes

/-- Two listings of the same elements sort to the same list by a key of two byte strings that
tells elements apart. -/
theorem mergeSort_pairLe_eq_of_perm {β : Type} (key : β → Bytes × Bytes)
    (hkey : Function.Injective key) {l₁ l₂ : List β} (h : l₁.Perm l₂) :
    l₁.mergeSort (fun a b => Bytes.pairLe (key a) (key b)) =
      l₂.mergeSort (fun a b => Bytes.pairLe (key a) (key b)) := by
  have htrans : ∀ a b c : β, Bytes.pairLe (key a) (key b) = true →
      Bytes.pairLe (key b) (key c) = true → Bytes.pairLe (key a) (key c) = true :=
    fun _ _ _ => Bytes.pairLe_trans
  have htotal : ∀ a b : β, (Bytes.pairLe (key a) (key b) || Bytes.pairLe (key b) (key a)) = true :=
    fun a b => Bytes.pairLe_total (key a) (key b)
  refine List.Perm.eq_of_pairwise (fun a b _ _ hab hba => hkey (Bytes.eq_of_pairLe_of_pairLe hab hba))
    (List.pairwise_mergeSort htrans htotal l₁) (List.pairwise_mergeSort htrans htotal l₂) ?_
  exact (List.mergeSort_perm l₁ _).trans (h.trans (List.mergeSort_perm l₂ _).symm)

namespace Node

variable {α : Type}

theorem perm_sortById (l : List (Node α)) : (sortById l).Perm l := List.mergeSort_perm _ _

theorem pairwise_le_sortById (l : List (Node α)) :
    (sortById l).Pairwise fun a b => a.id.le b.id = true := by
  unfold sortById
  exact @List.pairwise_mergeSort (Node α) (fun a b => a.id.le b.id)
    (fun _ _ _ hab hbc => Bytes.le_trans hab hbc) (fun a b => Bytes.le_total a.id b.id) l

/-- Sorting nodes of distinct ids puts their ids in strictly ascending bytewise order. -/
theorem pairwise_lt_sortById {l : List (Node α)} (h : (l.map (·.id)).Nodup) :
    ((sortById l).map (·.id)).Pairwise (· < ·) := by
  have hnodup : ((sortById l).map (·.id)).Nodup := ((perm_sortById l).map _).nodup_iff.2 h
  rw [List.Nodup, List.pairwise_map] at hnodup
  rw [List.pairwise_map]
  exact ((pairwise_le_sortById l).and hnodup).imp fun h => Bytes.lt_of_le_of_ne h.1 h.2

end Node

end IndexedTree
