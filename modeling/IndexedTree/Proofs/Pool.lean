import IndexedTree.Pool

/-!
# Pools stay within their bound

Giving an object back never lets more than `retain` objects wait, and taking one keeps that too
(`Pool.Within`). Objects given back one after another wait while there is room: after `k` of them
a pool that kept `i ≤ retain` objects keeps `min retain (i + k)` (`Pool.length_idle_foldl_give`).
-/

namespace IndexedTree

namespace Pool

variable {α : Type}

/-- A pool that keeps at most `n` idle objects, `n` being its bound. -/
def Within (p : Pool α) (n : Nat) : Prop := p.retain = n ∧ p.idle.length ≤ n

@[simp] theorem retain_give (p : Pool α) (a : α) : (p.give a).retain = p.retain := by
  unfold give
  split <;> rfl

theorem length_idle_give_le (p : Pool α) (a : α) (h : p.idle.length ≤ p.retain) :
    (p.give a).idle.length ≤ (p.give a).retain := by
  rw [idle_give, retain_give]
  split
  · rw [List.length_append, List.length_singleton]
    omega
  · exact h

/-- An object waits after a give only if it waited before or is the one given. -/
theorem mem_idle_give {p : Pool α} {a b : α} (hb : b ∈ (p.give a).idle) : b ∈ p.idle ∨ b = a := by
  rw [idle_give] at hb
  split at hb
  · rcases List.mem_append.1 hb with hb | hb
    · exact .inl hb
    · exact .inr (List.mem_singleton.1 hb)
  · exact .inl hb

theorem within_empty (n : Nat) : (empty n : Pool α).Within n := ⟨rfl, Nat.zero_le n⟩

theorem Within.give {p : Pool α} {n : Nat} (h : p.Within n) (a : α) : (p.give a).Within n := by
  obtain ⟨hretain, hle⟩ := h
  have hgive := length_idle_give_le p a (hretain ▸ hle)
  rw [retain_give, hretain] at hgive
  exact ⟨by rw [retain_give, hretain], hgive⟩

theorem Within.take? {p q : Pool α} {n : Nat} {a : α} (h : p.Within n)
    (ht : p.take? = some (a, q)) : q.Within n := by
  obtain ⟨hidle, hretain⟩ := (take?_eq_some_iff p a q).1 ht
  have hle := h.2
  rw [hidle, List.length_cons] at hle
  exact ⟨hretain.trans h.1, by omega⟩

theorem Within.foldl_give {p : Pool α} {n : Nat} (h : p.Within n) (l : List α) :
    (l.foldl Pool.give p).Within n := by
  induction l generalizing p with
  | nil => exact h
  | cons a l ih => exact ih (h.give a)

/-- Objects given back one after another wait while there is room. -/
theorem length_idle_foldl_give (p : Pool α) (l : List α) (h : p.idle.length ≤ p.retain) :
    (l.foldl give p).idle.length = min p.retain (p.idle.length + l.length) := by
  induction l generalizing p with
  | nil => simp [Nat.min_eq_right h]
  | cons a l ih =>
    rw [List.foldl_cons, ih (p.give a) (length_idle_give_le p a h), retain_give, idle_give]
    split <;> simp only [List.length_append, List.length_cons, List.length_nil] <;> omega

end Pool

end IndexedTree
